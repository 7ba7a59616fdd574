import BtcParachain.BtcRelay.Rollback
/-
  BtcParachain.BtcRelay.Runs — the states the pallet reaches from empty storage under
  any sequence of `initialize`, `store_block_header`, `flag_block_error` and
  `clear_block_error` calls, each succeeding or failing (a call that panics is dropped).

  Every such state is empty or `Initialized`: `ChainsIndex` holds exactly the chain
  `initialize` stored (its one block at its height), `Chains` lists it alone, `BestBlock`
  and `BestBlockHeight` are `initialize`'s, `ChainCounter` is 0, and every stored header
  refers to chain 0 (`reach_frozen`, by induction on the run with one step lemma per
  dispatchable). `store_block_header` extends a copy of chain 0 that it never stores,
  `check_and_do_reorg` returns at once on chain 0, and the flag calls write back the entry
  they read.

  Proved, as consequences, for every header parser:
  - `reachable_state_records_no_fork`: in every reachable state `ChainCounter` is 0,
    `ChainsIndex` holds chain 0 alone at `BestBlockHeight`, `Chains` lists at most chain 0,
    and every stored header refers to chain 0.
  - `bestBlockHeight_below_stored_header`: after `initialize` with a header `a` and
    `store_block_header` with a child `b` of `a`, `BestBlockHeight` is `a`'s height while
    `b` is stored one above it.
  - `stored_header_missing_from_chain`: in the same run `b` is stored at that height on
    chain 0, and `ChainsIndex[0].chain` has no entry there.
  - `flag_keeps_flags_clear_panics`: in every reachable state, flagging a stored block
    returns `Ok` and changes nothing, and clearing it then panics in `unwrap`.
-/

namespace BtcParachain.BtcRelay

open Store

/-- The chain `initialize` stores: `root` alone at `height`. -/
def genesisChain (root : H256) (height : Nat) : BlockChain :=
  ⟨mainChainId, ((BTreeMap.empty : BTreeMap H256).insert height root).2, height, height, [], []⟩

/-- Every state after `initialize`. -/
structure Initialized (s : Store) (root : H256) (height : Nat) : Prop where
  chainsIndex : ∀ id, s.chainsIndex id = if id = mainChainId then some (genesisChain root height) else none
  chains : s.chains.entries = [(mainChainId, mainChainId)]
  bestBlock : s.bestBlock = some root
  bestBlockHeight : s.bestBlockHeight = height
  chainCounter : s.chainCounter = 0
  chainRef : ∀ x r, s.blockHeaders x = some r → r.chainRef = mainChainId

/-- The header bytes a call submits: those of `initialize` and `store_block_header`. -/
def Call.headerBytes : Call → List (List UInt8)
  | .initializeRelay _ bytes _ => [bytes]
  | .storeBlockHeader _ bytes => [bytes]
  | .flagBlockError .. => []
  | .clearBlockError .. => []

/-- The header bytes the calls `cs` submit, in order. -/
def submitted (cs : List Call) : List (List UInt8) := cs.flatMap Call.headerBytes

@[simp] theorem submitted_nil : submitted [] = [] := rfl

@[simp] theorem submitted_cons (c : Call) (cs : List Call) :
    submitted (c :: cs) = c.headerBytes ++ submitted cs := rfl

section

variable (parseBlockHeader : List UInt8 → BlockHeader)

/-- The states reachable from empty storage. -/
inductive Reach : Store → Prop
  | empty : Reach Store.empty
  | step {s s' : Store} {r : DispatchResult} (c : Call) :
      Reach s → dispatch parseBlockHeader s c = some (s', r) → Reach s'

/-- `s'` is where the calls `cs`, run in order from `s`, end; a call that panics ends no
  run. -/
inductive Run : Store → List Call → Store → Prop
  | nil (s : Store) : Run s [] s
  | cons {s s' s'' : Store} {c : Call} {cs : List Call} {r : DispatchResult} :
      dispatch parseBlockHeader s c = some (s', r) → Run s' cs s'' → Run s (c :: cs) s''

/-- A run from a reachable state ends in a reachable state. -/
theorem Run.reach {s s' : Store} {cs : List Call} (h : Run parseBlockHeader s cs s')
    (hs : Reach parseBlockHeader s) : Reach parseBlockHeader s' := by
  induction h with
  | nil => exact hs
  | cons hstep _ ih => exact ih (.step _ hs hstep)

/-- Reachable states are empty or `Initialized`. -/
def Frozen (s : Store) : Prop := s = Store.empty ∨ ∃ root height, Initialized s root height

theorem Initialized.chainindex_main {s : Store} {root : H256} {height : Nat}
    (hs : Initialized s root height) : s.chainindex mainChainId = genesisChain root height := by
  simp [chainindex, hs.chainsIndex]

theorem Initialized.insertBlockHeader {s : Store} {root : H256} {height : Nat}
    (hs : Initialized s root height) (x : H256) (r : RichBlockHeader) (hr : r.chainRef = mainChainId) :
    Initialized (s.insertBlockHeader x r) root height := by
  refine ⟨hs.chainsIndex, hs.chains, hs.bestBlock, hs.bestBlockHeight, hs.chainCounter, ?_⟩
  intro y q hq
  simp only [insertBlockHeader_blockHeaders, Function.update_apply] at hq
  split_ifs at hq
  · cases hq; exact hr
  · exact hs.chainRef y q hq

theorem initializeBlockchain_eq {h : Nat} {x : H256} {b : BlockChain}
    (hb : initializeBlockchain h x = .ok b) : b = genesisChain x h := by
  unfold initializeBlockchain generateBlockchain at hb
  split at hb
  · cases hb
  · rename_i chain hc
    cases hb
    simp only [genesisChain, hc]

theorem Initialized.mutateChainsIndex_stored {s : Store} {root : H256} {height : Nat}
    (hs : Initialized s root height) {x : H256} {hdr : RichBlockHeader}
    (hx : s.blockHeaders x = some hdr) : s.mutateChainsIndex hdr.chainRef (fun b => b) = s :=
  @mutateChainsIndex_id s hdr.chainRef (genesisChain root height)
    (by simp [hs.chainRef x hdr hx, hs.chainsIndex])

theorem extendBlockchain_of_get_eq_none {h : Nat} {x : H256} {b : BlockChain}
    (hb : b.chain.get h = none) :
    extendBlockchain h x b = .ok { b with chain := (b.chain.insert h x).2, maxHeight := h } := by
  unfold extendBlockchain
  split <;> rename_i heq
  · have h1 := congrArg Prod.fst heq
    rw [BTreeMap.insert_fst, hb] at h1
    cases h1
  · rw [heq]

theorem extendBlockchain_chainId {h : Nat} {x : H256} {b b' : BlockChain}
    (hb : extendBlockchain h x b = .ok b') : b'.chainId = b.chainId := by
  unfold extendBlockchain at hb
  split at hb <;> cases hb; rfl

/-- From an `Initialized` state `store_block_header` stores at most the header, on chain 0,
  one above its parent. -/
theorem storeBlockHeader_initialized {s s' : Store} {root : H256} {height : Nat} {origin : Origin}
    {bytes : List UInt8} {r : DispatchResult} (hs : Initialized s root height)
    (h : storeBlockHeader parseBlockHeader s origin bytes = some (s', r)) :
    s' = s ∨ ∃ prev, s.blockHeaders (parseBlockHeader bytes).hashPrevBlock = some prev ∧
      s' = s.insertBlockHeader (parseBlockHeader bytes).blockHash
        ⟨parseBlockHeader bytes, prev.blockHeight + 1, mainChainId⟩ := by
  dsimp only [storeBlockHeader] at h
  split at h
  · split at h
    · exact .inl (by cases h; rfl)
    · rename_i prev hprev
      split at h
      · exact .inl (by cases h; rfl)
      · rename_i c hc
        split at h
        · exact .inl (by cases h; rfl)
        · rename_i b hb
          have hb0 : b.chainId = mainChainId := by
            rw [extendBlockchain_chainId hb, hs.chainRef _ _ hprev, hs.chainindex_main]; rfl
          have hmain : (s.insertBlockHeader (parseBlockHeader bytes).blockHash
              ⟨parseBlockHeader bytes, c, b.chainId⟩).chainsIndex mainChainId =
              some (genesisChain root height) := by simp [hs.chainsIndex]
          rw [hb0] at h hmain
          rw [mutateChainsIndex_id hmain] at h
          simp only [checkAndDoReorg, hb0, if_true, Option.some.injEq, Prod.mk.injEq] at h
          obtain ⟨rfl, -⟩ := h
          exact .inr ⟨prev, hprev, by rw [(checkedAdd_eq_some.1 hc).2]⟩
  · exact .inl (by cases h; rfl)

/-- `initialize` on empty storage stores its header as chain 0, or fails and writes
  nothing. -/
theorem initializeRelay_empty {s' : Store} {origin : Origin} {bytes : List UInt8} {height : Nat}
    {r : DispatchResult}
    (h : initializeRelay parseBlockHeader Store.empty origin bytes height = some (s', r)) :
    s' = Store.empty ∨ Initialized s' (parseBlockHeader bytes).blockHash height ∧
      s'.blockHeaders = Function.update (fun _ => none) (parseBlockHeader bytes).blockHash
        (some ⟨parseBlockHeader bytes, height, mainChainId⟩) := by
  dsimp only [initializeRelay] at h
  split at h
  · split at h
    · exact .inl (by cases h; rfl)
    · split at h
      · exact .inl (by cases h; rfl)
      · rename_i b hb
        cases h
        obtain rfl := initializeBlockchain_eq hb
        refine .inr ⟨⟨fun id => ?_, rfl, rfl, rfl, rfl, fun y q hq => ?_⟩, rfl⟩
        · simp [Function.update_apply, Store.empty]
        · simp only [insertChainsIndex_blockHeaders, insertBlockHeader_blockHeaders,
            Function.update_apply] at hq
          split_ifs at hq
          · cases hq; rfl
          · cases hq
  · exact .inl (by cases h; rfl)

theorem initializeRelay_initialized {s s' : Store} {root : H256} {height : Nat} {origin : Origin}
    {bytes : List UInt8} {blockHeight : Nat} {r : DispatchResult} (hs : Initialized s root height)
    (h : initializeRelay parseBlockHeader s origin bytes blockHeight = some (s', r)) : s' = s := by
  dsimp only [initializeRelay] at h
  split at h
  · simp only [hs.bestBlock, Option.isSome_some, if_true, Option.some.injEq, Prod.mk.injEq] at h
    exact h.1.symm
  · cases h; rfl

theorem storeBlockHeader_empty {s' : Store} {origin : Origin} {bytes : List UInt8}
    {r : DispatchResult} (h : storeBlockHeader parseBlockHeader Store.empty origin bytes = some (s', r)) :
    s' = Store.empty := by
  dsimp only [storeBlockHeader] at h
  split at h <;> cases h <;> rfl

end

section

variable (parseBlockHeader : List UInt8 → BlockHeader)

/-- From empty storage a call writes nothing, or is `initialize` and stores its header as
  chain 0. -/
theorem dispatch_empty {s' : Store} {c : Call} {r : DispatchResult}
    (h : dispatch parseBlockHeader Store.empty c = some (s', r)) :
    s' = Store.empty ∨ ∃ bytes ∈ c.headerBytes, ∃ height,
      Initialized s' (parseBlockHeader bytes).blockHash height ∧
      s'.blockHeaders = Function.update (fun _ => none) (parseBlockHeader bytes).blockHash
        (some ⟨parseBlockHeader bytes, height, mainChainId⟩) := by
  cases c <;> dsimp only [dispatch] at h
  case initializeRelay =>
    exact (initializeRelay_empty parseBlockHeader h).imp_right fun hi => ⟨_, List.mem_singleton_self _, _, hi⟩
  case storeBlockHeader => exact .inl (storeBlockHeader_empty parseBlockHeader h)
  case flagBlockError =>
    rcases flagBlockError_eq h with rfl | ⟨-, hdr, hx, -⟩
    · exact .inl rfl
    · cases hx
  case clearBlockError =>
    rcases clearBlockError_eq h with rfl | ⟨-, hdr, hx, -⟩
    · exact .inl rfl
    · cases hx

/-- From an `Initialized` state a call writes nothing, or stores one header on chain 0,
  one above its stored parent. -/
theorem dispatch_initialized {s s' : Store} {root : H256} {height : Nat} {c : Call}
    {r : DispatchResult} (hs : Initialized s root height)
    (h : dispatch parseBlockHeader s c = some (s', r)) :
    s' = s ∨ ∃ bytes ∈ c.headerBytes, ∃ prev,
      s.blockHeaders (parseBlockHeader bytes).hashPrevBlock = some prev ∧
      s' = s.insertBlockHeader (parseBlockHeader bytes).blockHash
        ⟨parseBlockHeader bytes, prev.blockHeight + 1, mainChainId⟩ := by
  cases c <;> dsimp only [dispatch] at h
  case initializeRelay => exact .inl (initializeRelay_initialized parseBlockHeader hs h)
  case storeBlockHeader =>
    exact (storeBlockHeader_initialized parseBlockHeader hs h).imp_right fun hp =>
      ⟨_, List.mem_singleton_self _, hp⟩
  case flagBlockError =>
    rcases flagBlockError_eq h with rfl | ⟨-, hdr, hx, rfl⟩
    · exact .inl rfl
    · exact .inl (hs.mutateChainsIndex_stored hx)
  case clearBlockError =>
    rcases clearBlockError_eq h with rfl | ⟨-, hdr, hx, rfl⟩
    · exact .inl rfl
    · exact .inl (hs.mutateChainsIndex_stored hx)

/-- One call keeps a state empty or `Initialized`. -/
theorem dispatch_frozen {s s' : Store} {c : Call} {r : DispatchResult} (hs : Frozen s)
    (h : dispatch parseBlockHeader s c = some (s', r)) : Frozen s' := by
  rcases hs with rfl | ⟨root, height, hs⟩
  · exact (dispatch_empty parseBlockHeader h).imp_right fun ⟨_, _, _, hi, _⟩ => ⟨_, _, hi⟩
  · rcases dispatch_initialized parseBlockHeader hs h with rfl | ⟨bytes, -, prev, -, rfl⟩
    · exact .inr ⟨root, height, hs⟩
    · exact .inr ⟨root, height, hs.insertBlockHeader _ _ rfl⟩

/-- `initialize` on empty storage, signed, stores the header at the given height. -/
theorem initializeRelay_empty_ok (who : Nat) (bytes : List UInt8) (height : Nat) :
    ∃ s', initializeRelay parseBlockHeader Store.empty (.signed who) bytes height = some (s', .ok ()) ∧
      s'.blockHeaders (parseBlockHeader bytes).blockHash =
        some ⟨parseBlockHeader bytes, height, mainChainId⟩ :=
  ⟨_, rfl, by simp⟩

/-- From an `Initialized` state, a child of a stored header below `u32::MAX` and off the
  genesis height is stored on chain 0, and nothing else changes. -/
theorem storeBlockHeader_child {s : Store} {root : H256} {height : Nat}
    (hs : Initialized s root height) (who : Nat) (bytes : List UInt8) {prev : RichBlockHeader}
    (hprev : s.blockHeaders (parseBlockHeader bytes).hashPrevBlock = some prev)
    (hh : prev.blockHeight < u32Max) (hne : prev.blockHeight + 1 ≠ height) :
    storeBlockHeader parseBlockHeader s (.signed who) bytes =
      some (s.insertBlockHeader (parseBlockHeader bytes).blockHash
        ⟨parseBlockHeader bytes, prev.blockHeight + 1, mainChainId⟩, .ok ()) := by
  have hc : checkedAdd prev.blockHeight 1 = some (prev.blockHeight + 1) :=
    checkedAdd_eq_some.2 ⟨by omega, rfl⟩
  have hmain : (s.insertBlockHeader (parseBlockHeader bytes).blockHash
      ⟨parseBlockHeader bytes, prev.blockHeight + 1, mainChainId⟩).chainsIndex mainChainId =
      some (genesisChain root height) := by simp [hs.chainsIndex]
  have he := @extendBlockchain_of_get_eq_none (prev.blockHeight + 1)
    (parseBlockHeader bytes).blockHash (genesisChain root height) (by simp [genesisChain, hne])
  simp only [storeBlockHeader, hprev, hs.chainRef _ _ hprev, hs.chainindex_main, hc, he]
  simp [genesisChain, mutateChainsIndex_id hmain, checkAndDoReorg]

/-- Every reachable state is empty or `Initialized`. -/
theorem reach_frozen {s : Store} (h : Reach parseBlockHeader s) : Frozen s := by
  induction h with
  | empty => exact .inl rfl
  | step c _ hc ih => exact dispatch_frozen parseBlockHeader ih hc

/-! ## What the frozen states break -/

/-- `initialize` with `a` at `height`, then `store_block_header` with a child `b` of `a`:
  the state is reachable, `Initialized` at `a`, and holds `b` one above, on chain 0. -/
theorem initialize_then_child (who : Nat) (a b : List UInt8) (height : Nat)
    (hb : (parseBlockHeader b).hashPrevBlock = (parseBlockHeader a).blockHash)
    (hh : height < u32Max) :
    ∃ s, Run parseBlockHeader Store.empty
        [.initializeRelay (.signed who) a height, .storeBlockHeader (.signed who) b] s ∧
      Initialized s (parseBlockHeader a).blockHash height ∧
      s.blockHeaders (parseBlockHeader b).blockHash =
        some ⟨parseBlockHeader b, height + 1, mainChainId⟩ := by
  obtain ⟨s, h1, hx⟩ := initializeRelay_empty_ok parseBlockHeader who a height
  have hi := ((initializeRelay_empty parseBlockHeader h1).resolve_left fun h => by
    simp [h, Store.empty] at hx).1
  have h2 := storeBlockHeader_child parseBlockHeader hi who b (by rw [hb]; exact hx) hh (by dsimp only; omega)
  exact ⟨_, .cons h1 (.cons h2 (.nil _)), hi.insertBlockHeader _ _ rfl, by simp⟩

/-- `BestBlockHeight` stays at the genesis height while a child of the genesis block is
  stored above it. -/
theorem bestBlockHeight_below_stored_header (who : Nat) (a b : List UInt8) (height : Nat)
    (hb : (parseBlockHeader b).hashPrevBlock = (parseBlockHeader a).blockHash)
    (hh : height < u32Max) :
    ∃ s, Reach parseBlockHeader s ∧ s.bestBlockHeight = height ∧
      s.blockHeaders (parseBlockHeader b).blockHash =
        some ⟨parseBlockHeader b, height + 1, mainChainId⟩ := by
  obtain ⟨s, hr, hi, hx⟩ := initialize_then_child parseBlockHeader who a b height hb hh
  exact ⟨s, hr.reach parseBlockHeader .empty, hi.bestBlockHeight, hx⟩

/-- A child of the genesis block is stored at `height + 1` of chain 0, and
  `ChainsIndex[0].chain` has no entry at `height + 1`. -/
theorem stored_header_missing_from_chain (who : Nat) (a b : List UInt8) (height : Nat)
    (hb : (parseBlockHeader b).hashPrevBlock = (parseBlockHeader a).blockHash)
    (hh : height < u32Max) :
    ∃ s, Reach parseBlockHeader s ∧
      s.blockHeaders (parseBlockHeader b).blockHash =
        some ⟨parseBlockHeader b, height + 1, mainChainId⟩ ∧
      (s.chainindex mainChainId).chain.get (height + 1) = none := by
  obtain ⟨s, hr, hi, hx⟩ := initialize_then_child parseBlockHeader who a b height hb hh
  exact ⟨s, hr.reach parseBlockHeader .empty, hx, by simp [hi.chainindex_main, genesisChain]⟩

/-- In every reachable state, flagging a stored block `NoDataBTCRelay` or
  `InvalidBTCRelay` returns `Ok` and leaves storage as it was, and clearing the same
  block and kind panics in `position(..).unwrap()`. -/
theorem flag_keeps_flags_clear_panics {s : Store} (hs : Reach parseBlockHeader s) {x : H256}
    {hdr : RichBlockHeader} (hx : s.blockHeaders x = some hdr) (who : Nat) {e : ErrorCodes}
    (he : e = .noDataBTCRelay ∨ e = .invalidBTCRelay) :
    flagBlockError s (.signed who) x e = some (s, .ok ()) ∧
      clearBlockError s (.signed who) x e = none := by
  rcases reach_frozen parseBlockHeader hs with rfl | ⟨root, height, hi⟩
  · cases hx
  · have hc : s.chainindex hdr.chainRef = genesisChain root height := by
      rw [hi.chainRef x hdr hx, hi.chainindex_main]
    rcases he with rfl | rfl <;>
      simp [flagBlockError, clearBlockError, hx, hc, flagged, cleared, genesisChain,
        hi.mutateChainsIndex_stored hx]

/-- The relay records no fork: in every reachable state `ChainCounter` is 0, `ChainsIndex`
  holds chain 0 alone, at `BestBlockHeight`, `Chains` lists at most chain 0, and every
  stored header refers to chain 0. -/
theorem reachable_state_records_no_fork {s : Store} (hs : Reach parseBlockHeader s) :
    s.chainCounter = 0 ∧ (∀ id, id ≠ mainChainId → s.chainsIndex id = none) ∧
      (s.chainindex mainChainId).maxHeight = s.bestBlockHeight ∧
      (s.chains.entries = [] ∨ s.chains.entries = [(mainChainId, mainChainId)]) ∧
      ∀ x hdr, s.blockHeaders x = some hdr → hdr.chainRef = mainChainId := by
  rcases reach_frozen parseBlockHeader hs with rfl | ⟨root, height, hi⟩
  · exact ⟨rfl, fun _ _ => rfl, rfl, .inl rfl, fun _ _ h => nomatch h⟩
  · refine ⟨hi.chainCounter, fun id hid => by simp [hi.chainsIndex, hid], ?_, .inr hi.chains,
      hi.chainRef⟩
    rw [hi.chainindex_main, hi.bestBlockHeight]
    rfl

end

theorem bestBlockHeight_below_stored_header_block_one :
    (byteHeader [2, 1]).hashPrevBlock = (byteHeader [1, 0]).blockHash ∧ 0 < u32Max ∧
      ∃ s, Reach byteHeader s ∧ s.bestBlockHeight = 0 ∧
        s.blockHeaders (byteHeader [2, 1]).blockHash = some ⟨byteHeader [2, 1], 1, mainChainId⟩ :=
  ⟨rfl, by decide, bestBlockHeight_below_stored_header byteHeader 0 [1, 0] [2, 1] 0 rfl (by decide)⟩

theorem stored_header_missing_from_chain_block_one :
    (byteHeader [2, 1]).hashPrevBlock = (byteHeader [1, 0]).blockHash ∧ 0 < u32Max ∧
      ∃ s, Reach byteHeader s ∧
        s.blockHeaders (byteHeader [2, 1]).blockHash = some ⟨byteHeader [2, 1], 1, mainChainId⟩ ∧
        (s.chainindex mainChainId).chain.get 1 = none :=
  ⟨rfl, by decide, stored_header_missing_from_chain byteHeader 0 [1, 0] [2, 1] 0 rfl (by decide)⟩

theorem flag_keeps_flags_clear_panics_genesis :
    ∃ s, Reach byteHeader s ∧
      s.blockHeaders (byteHeader [1, 0]).blockHash = some ⟨byteHeader [1, 0], 0, mainChainId⟩ ∧
      flagBlockError s (.signed 0) (byteHeader [1, 0]).blockHash .noDataBTCRelay = some (s, .ok ()) ∧
      clearBlockError s (.signed 0) (byteHeader [1, 0]).blockHash .noDataBTCRelay = none := by
  obtain ⟨s, h1, hx⟩ := initializeRelay_empty_ok byteHeader 0 [1, 0] 0
  have hs : Reach byteHeader s := .step (.initializeRelay (.signed 0) [1, 0] 0) .empty h1
  exact ⟨s, hs, hx, flag_keeps_flags_clear_panics byteHeader hs hx 0 (.inl rfl)⟩

theorem reachable_state_records_no_fork_block_one :
    ∃ s, Reach byteHeader s ∧ s.chainCounter = 0 ∧ (∀ id, id ≠ mainChainId → s.chainsIndex id = none) ∧
      (s.chainindex mainChainId).maxHeight = s.bestBlockHeight ∧
      (s.chains.entries = [] ∨ s.chains.entries = [(mainChainId, mainChainId)]) ∧
      ∀ x hdr, s.blockHeaders x = some hdr → hdr.chainRef = mainChainId := by
  obtain ⟨s, hr, -, -⟩ := initialize_then_child byteHeader 0 [1, 0] [2, 1] 0 rfl (by decide)
  have hr := hr.reach byteHeader .empty
  exact ⟨s, hr, reachable_state_records_no_fork byteHeader hr⟩

end BtcParachain.BtcRelay
