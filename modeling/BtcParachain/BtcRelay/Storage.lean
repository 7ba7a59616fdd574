import BtcParachain.Collections
/-
  BtcParachain.BtcRelay.Storage — the storage of the BTC-Relay pallet
  (crates/btc-relay/src/lib.rs, `decl_storage!`) and the storage calls its code makes.

  `BlockHeaders` and `ChainsIndex` are FRAME `map`s: `get` of a missing key gives the
  value type's default, `insert` writes, `mutate` reads (the default if missing), applies
  the closure to the value and writes it back. `Chains` is a `linked_map` (`LinkedMap`).
  `BestBlock` is a `value` whose presence `initialize` checks; `BestBlockHeight` and
  `ChainCounter` are `value`s read with their default 0.

  Calls end in a post-state and a result, or in a panic. In this FRAME a dispatchable
  that returns `Err` keeps the writes it made before; a panic aborts the call and the
  block builder discards what it wrote, so a panic has no post-state.
-/

namespace BtcParachain.BtcRelay

/-- `MAIN_CHAIN_ID`. -/
def mainChainId : Nat := 0

/-- `bitcoin::types::RichBlockHeader`. -/
structure RichBlockHeader where
  blockHeader : BlockHeader
  blockHeight : Nat
  chainRef : Nat
  deriving DecidableEq, Repr, Inhabited

/-- `bitcoin::types::BlockChain<u32, BTreeMap<u32, H256>>`. -/
structure BlockChain where
  chainId : Nat
  chain : BTreeMap H256
  startHeight : Nat
  maxHeight : Nat
  noData : List Nat
  invalid : List Nat

instance : Inhabited BlockChain := ⟨⟨0, .empty, 0, 0, [], []⟩⟩

/-- The pallet's errors (`decl_error!`) that the modelled code returns. -/
inductive Error where
  | alreadyInitialized
  | duplicateBlock
  | prevBlock
  | forkIdNotFound
  | headerNotFound
  | unknownErrorcode
  | blockNotFound
  | chainCounterOverflow
  | blockHeightOverflow
  deriving DecidableEq, Repr

/-- `DispatchError`: `ensure_signed`'s `BadOrigin`, or a pallet error. -/
inductive DispatchError where
  | badOrigin
  | module (e : Error)
  deriving DecidableEq, Repr

/-- `DispatchResult`. -/
def DispatchResult := Except DispatchError Unit

/-- A call's origin. -/
inductive Origin where
  | signed (who : Nat)
  | root
  | none
  deriving DecidableEq, Repr

/-- `security::ErrorCodes`. -/
inductive ErrorCodes where
  | none
  | noDataBTCRelay
  | invalidBTCRelay
  | oracleOffline
  | liquidation
  deriving DecidableEq, Repr

structure Store where
  blockHeaders : H256 → Option RichBlockHeader
  chains : LinkedMap
  chainsIndex : Nat → Option BlockChain
  bestBlock : Option H256
  bestBlockHeight : Nat
  chainCounter : Nat

/-- Storage before genesis: every item missing. -/
def Store.empty : Store := ⟨fun _ => none, .empty, fun _ => none, none, 0, 0⟩

namespace Store

/-- `BlockHeaders::get`. -/
def blockheader (s : Store) (hash : H256) : RichBlockHeader := (s.blockHeaders hash).getD default

/-- `ChainsIndex::get`. -/
def chainindex (s : Store) (id : Nat) : BlockChain := (s.chainsIndex id).getD default

def insertBlockHeader (s : Store) (hash : H256) (header : RichBlockHeader) : Store :=
  { s with blockHeaders := Function.update s.blockHeaders hash (some header) }

/-- `BlockHeaders::mutate`. -/
def mutateBlockHeader (s : Store) (hash : H256) (f : RichBlockHeader → RichBlockHeader) : Store :=
  s.insertBlockHeader hash (f (s.blockheader hash))

def insertChainsIndex (s : Store) (id : Nat) (blockchain : BlockChain) : Store :=
  { s with chainsIndex := Function.update s.chainsIndex id (some blockchain) }

def removeChainsIndex (s : Store) (id : Nat) : Store :=
  { s with chainsIndex := Function.update s.chainsIndex id none }

/-- `ChainsIndex::mutate`. -/
def mutateChainsIndex (s : Store) (id : Nat) (f : BlockChain → BlockChain) : Store :=
  s.insertChainsIndex id (f (s.chainindex id))

@[simp] theorem insertBlockHeader_blockHeaders (s : Store) (hash : H256) (header : RichBlockHeader) :
    (s.insertBlockHeader hash header).blockHeaders = Function.update s.blockHeaders hash (some header) :=
  rfl

@[simp] theorem insertBlockHeader_chains (s : Store) (hash : H256) (header : RichBlockHeader) :
    (s.insertBlockHeader hash header).chains = s.chains := rfl

@[simp] theorem insertBlockHeader_chainsIndex (s : Store) (hash : H256) (header : RichBlockHeader) :
    (s.insertBlockHeader hash header).chainsIndex = s.chainsIndex := rfl

@[simp] theorem insertBlockHeader_bestBlock (s : Store) (hash : H256) (header : RichBlockHeader) :
    (s.insertBlockHeader hash header).bestBlock = s.bestBlock := rfl

@[simp] theorem insertBlockHeader_bestBlockHeight (s : Store) (hash : H256) (header : RichBlockHeader) :
    (s.insertBlockHeader hash header).bestBlockHeight = s.bestBlockHeight := rfl

@[simp] theorem insertBlockHeader_chainCounter (s : Store) (hash : H256) (header : RichBlockHeader) :
    (s.insertBlockHeader hash header).chainCounter = s.chainCounter := rfl

@[simp] theorem insertChainsIndex_chainsIndex (s : Store) (id : Nat) (b : BlockChain) :
    (s.insertChainsIndex id b).chainsIndex = Function.update s.chainsIndex id (some b) := rfl

@[simp] theorem insertChainsIndex_blockHeaders (s : Store) (id : Nat) (b : BlockChain) :
    (s.insertChainsIndex id b).blockHeaders = s.blockHeaders := rfl

@[simp] theorem insertChainsIndex_chains (s : Store) (id : Nat) (b : BlockChain) :
    (s.insertChainsIndex id b).chains = s.chains := rfl

@[simp] theorem insertChainsIndex_bestBlock (s : Store) (id : Nat) (b : BlockChain) :
    (s.insertChainsIndex id b).bestBlock = s.bestBlock := rfl

@[simp] theorem insertChainsIndex_bestBlockHeight (s : Store) (id : Nat) (b : BlockChain) :
    (s.insertChainsIndex id b).bestBlockHeight = s.bestBlockHeight := rfl

@[simp] theorem insertChainsIndex_chainCounter (s : Store) (id : Nat) (b : BlockChain) :
    (s.insertChainsIndex id b).chainCounter = s.chainCounter := rfl

/-- Writing back what `ChainsIndex::get` read leaves a present entry as it was. -/
theorem mutateChainsIndex_id {s : Store} {id : Nat} {b : BlockChain} (h : s.chainsIndex id = some b) :
    s.mutateChainsIndex id (fun b => b) = s := by
  cases s
  simp only [mutateChainsIndex, insertChainsIndex, chainindex] at h ⊢
  simp [h, Function.update_eq_self]

/-- Inserting the header a hash already holds leaves the store as it was. -/
theorem insertBlockHeader_of_eq {s : Store} {hash : H256} {header : RichBlockHeader}
    (h : s.blockHeaders hash = some header) : s.insertBlockHeader hash header = s := by
  cases s
  simp only [insertBlockHeader] at h ⊢
  rw [← h, Function.update_eq_self]

end Store

end BtcParachain.BtcRelay
