import BtcParachain.BtcRelay.Storage
/-
  BtcParachain.BtcRelay.Module — the dispatchables and utility functions of the
  BTC-Relay pallet (crates/btc-relay/src/lib.rs), as the Rust evaluates them.

  Three readings of the source decide most of what the pallet does:
  - `match prev_blockchain.max_height { prev_block_height => .., _ => .. }` compares
    nothing: `prev_block_height` in a pattern binds a fresh name, so the first arm always
    runs and `store_block_header` always extends the parent's chain. The same holds for
    `match blockchain.chain_id { prev_chain_id => .. }` and for the event's
    `match current_best_block { block_header_hash => .. }`.
  - `<ChainsIndex>::mutate(&id, |_b| blockchain)` returns the new entry from the closure
    instead of assigning it: the entry read is written back unchanged. So
    `store_block_header` and `flag_block_error` never change `ChainsIndex`.
  - In `insert_sorted`, `let position_blockchain = curr_position` declares a new variable
    inside the `if`; the position stays `max_chain_element`, the swap loop runs over an
    empty range and the chain is appended at key `Chains.len()`.
  `check_and_do_reorg` takes the fork's `enumerate` index as its `Chains` key, and
  `store_block_header` drops what it returns.

  Header parsing (`parse_block_header ∘ header_from_bytes`) lives in the bitcoin crate's
  parser, outside src/: `initialize` and `store_block_header` take it as a parameter.
  Events are not modelled.
-/

namespace BtcParachain.BtcRelay

open Store

/-! ## Utility functions -/

/-- `increment_chain_counter`. -/
def incrementChainCounter (s : Store) : Store × Except Error Nat :=
  match checkedAdd s.chainCounter 1 with
  | none => (s, .error .chainCounterOverflow)
  | some newCounter => ({ s with chainCounter := newCounter }, .ok newCounter)

/-- `generate_blockchain`. -/
def generateBlockchain (chainId blockHeight : Nat) (blockHash : H256) : Except Error BlockChain :=
  match (BTreeMap.empty : BTreeMap H256).insert blockHeight blockHash with
  | (some _, _) => .error .duplicateBlock
  | (none, chain) => .ok ⟨chainId, chain, blockHeight, blockHeight, [], []⟩

/-- `initialize_blockchain`. -/
def initializeBlockchain (blockHeight : Nat) (blockHash : H256) : Except Error BlockChain :=
  generateBlockchain mainChainId blockHeight blockHash

/-- `create_blockchain`: reached only from `store_block_header`'s second arm, which never
  runs. -/
def createBlockchain (s : Store) (blockHeight : Nat) (blockHash : H256) :
    Store × Except Error BlockChain :=
  match incrementChainCounter s with
  | (s, .error e) => (s, .error e)
  | (s, .ok chainId) => (s, generateBlockchain chainId blockHeight blockHash)

/-- `extend_blockchain`. -/
def extendBlockchain (blockHeight : Nat) (blockHash : H256) (prevBlockchain : BlockChain) :
    Except Error BlockChain :=
  match prevBlockchain.chain.insert blockHeight blockHash with
  | (some _, _) => .error .duplicateBlock
  | (none, chain) => .ok { prevBlockchain with chain := chain, maxHeight := blockHeight }

/-- The reversed swap loop of `insert_sorted`: for `curr_position` from `max - 1` down to
  `lo`, swap it with `curr_position - 1`. -/
def swapDown (chains : LinkedMap) (lo : Nat) : Nat → LinkedMap
  | 0 => chains
  | n + 1 => if n < lo then chains else swapDown (chains.swap n (n - 1)) lo n

/-- `insert_sorted`. The scan over `chains.iter().skip(1)` only binds a new
  `position_blockchain` in its `if`, so the position stays `max_chain_element`. -/
def insertSorted (s : Store) (blockchain : BlockChain) : Store :=
  let maxChainElement := asU32 s.chains.entries.length
  let positionBlockchain := maxChainElement
  let chains := s.chains.insert maxChainElement blockchain.chainId
  { s with chains := swapDown chains positionBlockchain maxChainElement }

/-- `remove_blockchain`: swap the entry at `position` with the head, then remove the head;
  `head().unwrap()` panics on an empty `Chains`. -/
def removeBlockchain (s : Store) (position : Nat) : Option Store :=
  match s.chains.head with
  | none => none
  | some headIndex => some { s with chains := (s.chains.swap position headIndex).remove headIndex }

/-- The flag split of `swap_main_blockchain`: `position(|&h| h >= start_height)`, then
  `split_off(index)`; the flags kept, and the flags split off. -/
def splitFlags (flags : List Nat) (startHeight : Nat) : List Nat × List Nat :=
  match flags.findIdx? (fun h => startHeight ≤ h) with
  | some index => (flags.take index, flags.drop index)
  | none => (flags, [])

/-- Set the `chain_ref` of every header a chain lists (`for (_height, block) in
  chain.iter() { <BlockHeaders>::mutate(&block, |header| header.chain_ref = id) }`). -/
def reparent (s : Store) (chain : BTreeMap H256) (id : Nat) : Store :=
  chain.values.foldl (fun s block => s.mutateBlockHeader block fun header => { header with chainRef := id }) s

/-- `forked_main_chain`: the main chain from `startHeight` on, under the new id `chainId`,
  with the flags from the first one at or above `startHeight`. -/
def forkedMainChain (mainChain : BlockChain) (startHeight chainId : Nat) : BlockChain :=
  ⟨chainId, (mainChain.chain.splitOff startHeight).2, startHeight, mainChain.maxHeight,
    (splitFlags mainChain.noData startHeight).2, (splitFlags mainChain.invalid startHeight).2⟩

/-- `main_chain` after the `split_off`s and `append`s: the part below the fork's start
  height with the fork's blocks and flags appended. -/
def appendFork (mainChain fork : BlockChain) : BlockChain :=
  { mainChain with
    chain := (mainChain.chain.splitOff fork.startHeight).1.append fork.chain
    maxHeight := fork.maxHeight
    noData := (splitFlags mainChain.noData fork.startHeight).1 ++ fork.noData
    invalid := (splitFlags mainChain.invalid fork.startHeight).1 ++ fork.invalid }

/-- `swap_main_blockchain`. -/
def swapMainBlockchain (s : Store) (fork : BlockChain) : Option (Store × Option Error) :=
  let mainChain := s.chainindex mainChainId
  match incrementChainCounter s with
  | (s, .error err) => some (s, some err)
  | (s, .ok chainId) =>
    let forkedMainChain := forkedMainChain mainChain fork.startHeight chainId
    let mainChain := appendFork mainChain fork
    match mainChain.chain.get mainChain.maxHeight with
    | none => some (s, some .headerNotFound)
    | some bestBlock =>
      match s.chains.position fork.chainId with
      | none => some (s, some .forkIdNotFound)
      | some pos =>
        let s := s.insertChainsIndex mainChainId mainChain
        let s := { s with bestBlock := some bestBlock, bestBlockHeight := mainChain.maxHeight }
        let s := s.removeChainsIndex fork.chainId
        match removeBlockchain s (asU32 pos) with
        | none => none
        | some s =>
          let s := s.insertChainsIndex forkedMainChain.chainId forkedMainChain
          let s := insertSorted s mainChain
          let s := reparent s forkedMainChain.chain forkedMainChain.chainId
          some (reparent s fork.chain mainChainId, none)

/-- The `while current_position > 0` loop of `check_and_do_reorg`, from `currentPosition`
  with `currentHeight`. -/
def reorgLoop (fork : BlockChain) : Nat → Nat → Store → Option (Store × Option Error)
  | 0, _, s => some (s, none)
  | currentPosition + 1, currentHeight, s =>
    let prevPosition := currentPosition
    let prevBlockchainId := s.chains.get prevPosition
    let prevHeight := (s.chainindex prevBlockchainId).maxHeight
    if prevHeight < currentHeight then
      if prevPosition = mainChainId then swapMainBlockchain s fork
      else
        reorgLoop fork prevPosition prevHeight
          { s with chains := s.chains.swap prevPosition (currentPosition + 1) }
    else some (s, none)

/-- `check_and_do_reorg`. -/
def checkAndDoReorg (s : Store) (fork : BlockChain) : Option (Store × Option Error) :=
  if fork.chainId = mainChainId then some (s, none)
  else
    match s.chains.position fork.chainId with
    | none => some (s, some .forkIdNotFound)
    | some pos => reorgLoop fork (asU32 pos) fork.maxHeight s

/-! ## Dispatchables -/

/-- The entry with the block's height pushed onto the list `error` names
  (`flag_block_error`'s `match error`). -/
def flagged (blockchain : BlockChain) (blockHeight : Nat) : ErrorCodes → Except Error BlockChain
  | .noDataBTCRelay => .ok { blockchain with noData := blockchain.noData ++ [blockHeight] }
  | .invalidBTCRelay => .ok { blockchain with invalid := blockchain.invalid ++ [blockHeight] }
  | _ => .error .unknownErrorcode

/-- The entry with the block's height removed from the list `error` names
  (`clear_block_error`'s `match error`); `position(..).unwrap()` panics when it is not
  there. -/
def cleared (blockchain : BlockChain) (blockHeight : Nat) : ErrorCodes → Option (Except Error BlockChain)
  | .noDataBTCRelay =>
    (blockchain.noData.findIdx? (· = blockHeight)).map fun index =>
      .ok { blockchain with noData := blockchain.noData.eraseIdx index }
  | .invalidBTCRelay =>
    (blockchain.invalid.findIdx? (· = blockHeight)).map fun index =>
      .ok { blockchain with invalid := blockchain.invalid.eraseIdx index }
  | _ => some (.error .unknownErrorcode)

section

variable (parseBlockHeader : List UInt8 → BlockHeader)

/-- `initialize` (a keyword of Lean, hence the name). -/
def initializeRelay (s : Store) (origin : Origin) (blockHeaderBytes : List UInt8) (blockHeight : Nat) :
    Option (Store × DispatchResult) :=
  match origin with
  | .signed _ =>
    if s.bestBlock.isSome then some (s, .error (.module .alreadyInitialized))
    else
      let basicBlockHeader := parseBlockHeader blockHeaderBytes
      let blockHeaderHash := basicBlockHeader.blockHash
      match initializeBlockchain blockHeight blockHeaderHash with
      | .error _ => some (s, .error (.module .alreadyInitialized))
      | .ok blockchain =>
        let blockHeader : RichBlockHeader := ⟨basicBlockHeader, blockHeight, blockchain.chainId⟩
        let s := s.insertBlockHeader blockHeaderHash blockHeader
        let s := s.insertChainsIndex mainChainId blockchain
        let s := { s with chains := s.chains.insert mainChainId mainChainId }
        some ({ s with bestBlock := some blockHeaderHash, bestBlockHeight := blockHeight }, .ok ())
  | _ => some (s, .error .badOrigin)

/-- `store_block_header`. Both `match`es on a fresh name take their first arm; the
  result of `check_and_do_reorg` is dropped. -/
def storeBlockHeader (s : Store) (origin : Origin) (blockHeaderBytes : List UInt8) :
    Option (Store × DispatchResult) :=
  match origin with
  | .signed _ =>
    let basicBlockHeader := parseBlockHeader blockHeaderBytes
    let blockHeaderHash := basicBlockHeader.blockHash
    match s.blockHeaders basicBlockHeader.hashPrevBlock with
    | none => some (s, .error (.module .prevBlock))
    | some prevHeader =>
      let prevBlockchain := s.chainindex prevHeader.chainRef
      let prevBlockHeight := prevHeader.blockHeight
      match checkedAdd prevBlockHeight 1 with
      | none => some (s, .error (.module .blockHeightOverflow))
      | some currentBlockHeight =>
        match extendBlockchain currentBlockHeight blockHeaderHash prevBlockchain with
        | .error _ => some (s, .error (.module .duplicateBlock))
        | .ok blockchain =>
          let blockHeader : RichBlockHeader := ⟨basicBlockHeader, currentBlockHeight, blockchain.chainId⟩
          let s := s.insertBlockHeader blockHeaderHash blockHeader
          let s := s.mutateChainsIndex blockchain.chainId fun b => b
          match checkAndDoReorg s blockchain with
          | none => none
          | some (s, _) => some (s, .ok ())
  | _ => some (s, .error .badOrigin)

end

/-- `flag_block_error`. The flagged entry is returned from the `mutate` closure, not
  stored. -/
def flagBlockError (s : Store) (origin : Origin) (blockHash : H256) (error : ErrorCodes) :
    Option (Store × DispatchResult) :=
  match origin with
  | .signed _ =>
    match s.blockHeaders blockHash with
    | none => some (s, .error (.module .blockNotFound))
    | some blockHeader =>
      let chainId := blockHeader.chainRef
      let blockchain := s.chainindex chainId
      match flagged blockchain blockHeader.blockHeight error with
      | .error e => some (s, .error (.module e))
      | .ok _ => some (s.mutateChainsIndex chainId fun b => b, .ok ())
  | _ => some (s, .error .badOrigin)

/-- `clear_block_error`. The cleared entry is returned from the `mutate` closure, not
  stored. -/
def clearBlockError (s : Store) (origin : Origin) (blockHash : H256) (error : ErrorCodes) :
    Option (Store × DispatchResult) :=
  match origin with
  | .signed _ =>
    match s.blockHeaders blockHash with
    | none => some (s, .error (.module .blockNotFound))
    | some blockHeader =>
      let chainId := blockHeader.chainRef
      let blockchain := s.chainindex chainId
      match cleared blockchain blockHeader.blockHeight error with
      | none => none
      | some (.error e) => some (s, .error (.module e))
      | some (.ok _) => some (s.mutateChainsIndex chainId fun b => b, .ok ())
  | _ => some (s, .error .badOrigin)

/-! ## The dispatch table -/

/-- `decl_module!`'s `Call`: the four dispatchables that change storage. -/
inductive Call where
  | initializeRelay (origin : Origin) (blockHeaderBytes : List UInt8) (blockHeight : Nat)
  | storeBlockHeader (origin : Origin) (blockHeaderBytes : List UInt8)
  | flagBlockError (origin : Origin) (blockHash : H256) (error : ErrorCodes)
  | clearBlockError (origin : Origin) (blockHash : H256) (error : ErrorCodes)

/-- Dispatch a call. -/
def dispatch (parseBlockHeader : List UInt8 → BlockHeader) (s : Store) :
    Call → Option (Store × DispatchResult)
  | .initializeRelay origin bytes blockHeight => initializeRelay parseBlockHeader s origin bytes blockHeight
  | .storeBlockHeader origin bytes => storeBlockHeader parseBlockHeader s origin bytes
  | .flagBlockError origin blockHash error => flagBlockError s origin blockHash error
  | .clearBlockError origin blockHash error => clearBlockError s origin blockHash error

end BtcParachain.BtcRelay
