import BtcParachain.BtcRelay.Promotion
/-
  BtcParachain.BtcRelay.Invariants — what every call keeps, from every state.

  From empty storage the pallet never reaches its reorganisation code (`reach_frozen`).
  From other states it does: storage written by an earlier runtime, or by this pallet
  once its binding-pattern `match`es compare what they were meant to. This module follows
  every call from every state, through `check_and_do_reorg` and `swap_main_blockchain`.
  A call writes nothing; or runs `initialize` on storage without `BestBlock`; or stores a
  header, writes back an entry of `ChainsIndex` and runs `check_and_do_reorg`; or writes
  back an entry of `ChainsIndex` alone (`dispatch_cases`). `check_and_do_reorg` swaps
  `Chains` entries, fails after moving `ChainCounter` or not, or promotes the fork
  (`checkAndDoReorg_cases`).

  Proved, over every run of calls from every state (`Run`):
  - `run_keeps_ids_below_counter`: when `ChainCounter` is at least every key and every
    chain id of `ChainsIndex` and every stored header's `chain_ref`, it stays so, so the
    id `swap_main_blockchain` draws for the displaced part of the main chain is one that no
    chain and no header uses.
  - `run_keeps_best_block_at_main_tip`: once `BestBlock` is set, it is the block chain 0
    lists at `BestBlockHeight`, and `BestBlockHeight` is chain 0's `max_height`.
  - `run_keeps_stored_headers`: no header is ever removed, and a stored header keeps its
    block header and height unless a call of the run files a header under its hash: a
    reorganisation moves `chain_ref`s only.
-/

namespace BtcParachain.BtcRelay

open Store

/-- The hash under which a call files the header it parses. -/
def Call.filedHash (parseBlockHeader : List UInt8 → BlockHeader) : Call → Option H256
  | .initializeRelay _ bytes _ => some (parseBlockHeader bytes).blockHash
  | .storeBlockHeader _ bytes => some (parseBlockHeader bytes).blockHash
  | _ => none

/-! ## Frame lemmas -/

theorem foldl_mutateBlockHeader_fields (id : Nat) :
    ∀ (blocks : List H256) (s : Store),
      let s' := blocks.foldl
        (fun s block => s.mutateBlockHeader block fun header => { header with chainRef := id }) s
      s'.chains = s.chains ∧ s'.bestBlock = s.bestBlock ∧ s'.bestBlockHeight = s.bestBlockHeight ∧
        s'.chainCounter = s.chainCounter
  | [], _ => ⟨rfl, rfl, rfl, rfl⟩
  | _ :: bs, _ => foldl_mutateBlockHeader_fields id bs _

@[simp] theorem reparent_chains (s : Store) (chain : BTreeMap H256) (id : Nat) :
    (reparent s chain id).chains = s.chains :=
  (foldl_mutateBlockHeader_fields id chain.values s).1

@[simp] theorem reparent_bestBlock (s : Store) (chain : BTreeMap H256) (id : Nat) :
    (reparent s chain id).bestBlock = s.bestBlock :=
  (foldl_mutateBlockHeader_fields id chain.values s).2.1

@[simp] theorem reparent_bestBlockHeight (s : Store) (chain : BTreeMap H256) (id : Nat) :
    (reparent s chain id).bestBlockHeight = s.bestBlockHeight :=
  (foldl_mutateBlockHeader_fields id chain.values s).2.2.1

@[simp] theorem reparent_chainCounter (s : Store) (chain : BTreeMap H256) (id : Nat) :
    (reparent s chain id).chainCounter = s.chainCounter :=
  (foldl_mutateBlockHeader_fields id chain.values s).2.2.2

/-- Writing back what `ChainsIndex::get` read changes no read of `ChainsIndex`. -/
@[simp] theorem chainindex_mutateChainsIndex_id (s : Store) (id k : Nat) :
    (s.mutateChainsIndex id fun b => b).chainindex k = s.chainindex k := by
  simp only [mutateChainsIndex, chainindex, insertChainsIndex_chainsIndex, Function.update_apply]
  split_ifs with h
  · subst h; rfl
  · rfl

/-- `reparent` keeps every stored header's block header and height. -/
theorem reparent_stored {s : Store} {x : H256} {hdr : RichBlockHeader} (hx : s.blockHeaders x = some hdr)
    (chain : BTreeMap H256) (id : Nat) :
    (reparent s chain id).blockHeaders x = some { hdr with chainRef := id } ∨
      (reparent s chain id).blockHeaders x = some hdr := by
  rw [reparent_blockHeaders]
  split_ifs
  · exact .inl (by simp [blockheader, hx])
  · exact .inr hx

/-! ## What a call can do -/

/-- What a promotion that returns `None` writes besides `BlockHeaders` and `ChainsIndex`:
  `ChainCounter` one up, and `BestBlock` and `BestBlockHeight` at the tip of the new main
  chain, which it found. -/
theorem swapMainBlockchain_eq_some_none_best {s s' : Store} {fork : BlockChain}
    (h : swapMainBlockchain s fork = some (s', none)) :
    s'.chainCounter = s.chainCounter + 1 ∧
      (appendFork (s.chainindex mainChainId) fork).chain.get
        (appendFork (s.chainindex mainChainId) fork).maxHeight = s'.bestBlock ∧
      s'.bestBlockHeight = (appendFork (s.chainindex mainChainId) fork).maxHeight ∧
      s'.bestBlock.isSome := by
  unfold swapMainBlockchain at h
  split at h
  · cases h
  · rename_i s0 chainId hc
    have hs0 := incrementChainCounter_eq_ok_state hc
    subst hs0
    dsimp only at h
    split at h
    · cases h
    · rename_i best hbest
      split at h
      · cases h
      · split at h
        · cases h
        · rename_i s2 hr
          unfold removeBlockchain at hr
          split at hr <;> cases hr
          cases h
          simp [insertSorted, removeChainsIndex, hbest]

/-- `check_and_do_reorg` swaps `Chains` entries; or fails in `swap_main_blockchain` with
  `ChainCounter` one up, or before it moved; or promotes the fork. -/
theorem checkAndDoReorg_cases {s s' : Store} {fork : BlockChain} {e : Option Error}
    (h : checkAndDoReorg s fork = some (s', e)) :
    (∃ chains, s' = { s with chains := chains }) ∨
      (∃ chains, s' = { s with chains := chains, chainCounter := s.chainCounter + 1 }) ∨
      fork.chainId ≠ mainChainId ∧
        ∃ chains, swapMainBlockchain { s with chains := chains } fork = some (s', none) := by
  rcases checkAndDoReorg_eq_some h with ⟨rfl, -⟩ | ⟨hfork, chains, ⟨-, rfl⟩ | hswap⟩
  · exact .inl ⟨_, rfl⟩
  · exact .inl ⟨chains, rfl⟩
  · cases e with
    | none => exact .inr (.inr ⟨hfork, chains, hswap⟩)
    | some e =>
      rcases swapMainBlockchain_eq_some_some hswap with ⟨-, rfl⟩ | ⟨-, rfl⟩
      · exact .inl ⟨chains, rfl⟩
      · exact .inr (.inl ⟨chains, rfl⟩)

section

variable (parseBlockHeader : List UInt8 → BlockHeader)

/-- `initialize` writes nothing, or, on storage without `BestBlock`, files its header at
  its height on chain 0, stores chain 0 as the genesis chain, lists it in `Chains` and sets
  `BestBlock` and `BestBlockHeight`. -/
theorem initializeRelay_cases {s s' : Store} {origin : Origin} {bytes : List UInt8} {height : Nat}
    {r : DispatchResult} (h : initializeRelay parseBlockHeader s origin bytes height = some (s', r)) :
    s' = s ∨ s.bestBlock = none ∧
      s' = { (s.insertBlockHeader (parseBlockHeader bytes).blockHash
          ⟨parseBlockHeader bytes, height, mainChainId⟩).insertChainsIndex mainChainId
            (genesisChain (parseBlockHeader bytes).blockHash height) with
        chains := s.chains.insert mainChainId mainChainId,
        bestBlock := some (parseBlockHeader bytes).blockHash, bestBlockHeight := height } := by
  dsimp only [initializeRelay] at h
  split at h
  · split_ifs at h with hb
    · exact .inl (by cases h; rfl)
    · split at h
      · exact .inl (by cases h; rfl)
      · rename_i b hb'
        cases h
        obtain rfl := initializeBlockchain_eq hb'
        exact .inr ⟨Option.not_isSome_iff_eq_none.1 hb, rfl⟩
  · exact .inl (by cases h; rfl)

/-- `store_block_header` writes nothing, or files the header one above its stored parent on
  the chain `extend_blockchain` returns, writes back that chain's entry of `ChainsIndex`, and
  runs `check_and_do_reorg` on the chain. -/
theorem storeBlockHeader_cases {s s' : Store} {origin : Origin} {bytes : List UInt8}
    {r : DispatchResult} (h : storeBlockHeader parseBlockHeader s origin bytes = some (s', r)) :
    s' = s ∨ ∃ prev b e, s.blockHeaders (parseBlockHeader bytes).hashPrevBlock = some prev ∧
      extendBlockchain (prev.blockHeight + 1) (parseBlockHeader bytes).blockHash
        (s.chainindex prev.chainRef) = .ok b ∧
      checkAndDoReorg ((s.insertBlockHeader (parseBlockHeader bytes).blockHash
        ⟨parseBlockHeader bytes, prev.blockHeight + 1, b.chainId⟩).mutateChainsIndex b.chainId
          fun b => b) b = some (s', e) := by
  dsimp only [storeBlockHeader] at h
  split at h
  · split at h
    · exact .inl (by cases h; rfl)
    · rename_i prev hprev
      split at h
      · exact .inl (by cases h; rfl)
      · rename_i c hc
        obtain ⟨-, rfl⟩ := checkedAdd_eq_some.1 hc
        split at h
        · exact .inl (by cases h; rfl)
        · rename_i b hb
          split at h
          · cases h
          · rename_i s2 e he
            cases h
            exact .inr ⟨prev, b, e, hprev, hb, he⟩
  · exact .inl (by cases h; rfl)

/-- What one call can do, from any state. -/
theorem dispatch_cases {s s' : Store} {c : Call} {r : DispatchResult}
    (h : dispatch parseBlockHeader s c = some (s', r)) :
    s' = s ∨
    (∃ origin bytes height, c = .initializeRelay origin bytes height ∧ s.bestBlock = none ∧
      s' = { (s.insertBlockHeader (parseBlockHeader bytes).blockHash
          ⟨parseBlockHeader bytes, height, mainChainId⟩).insertChainsIndex mainChainId
            (genesisChain (parseBlockHeader bytes).blockHash height) with
        chains := s.chains.insert mainChainId mainChainId,
        bestBlock := some (parseBlockHeader bytes).blockHash, bestBlockHeight := height }) ∨
    (∃ origin bytes prev b e, c = .storeBlockHeader origin bytes ∧
      s.blockHeaders (parseBlockHeader bytes).hashPrevBlock = some prev ∧
      extendBlockchain (prev.blockHeight + 1) (parseBlockHeader bytes).blockHash
        (s.chainindex prev.chainRef) = .ok b ∧
      checkAndDoReorg ((s.insertBlockHeader (parseBlockHeader bytes).blockHash
        ⟨parseBlockHeader bytes, prev.blockHeight + 1, b.chainId⟩).mutateChainsIndex b.chainId
          fun b => b) b = some (s', e)) ∨
    ∃ x hdr, s.blockHeaders x = some hdr ∧ s' = s.mutateChainsIndex hdr.chainRef fun b => b := by
  cases c with
  | initializeRelay origin bytes height =>
    rcases initializeRelay_cases parseBlockHeader h with rfl | ⟨hb, rfl⟩
    · exact .inl rfl
    · exact .inr (.inl ⟨origin, bytes, height, rfl, hb, rfl⟩)
  | storeBlockHeader origin bytes =>
    rcases storeBlockHeader_cases parseBlockHeader h with rfl | ⟨prev, b, e, hprev, hb, he⟩
    · exact .inl rfl
    · exact .inr (.inr (.inl ⟨origin, bytes, prev, b, e, rfl, hprev, hb, he⟩))
  | flagBlockError origin x e =>
    rcases flagBlockError_eq h with rfl | ⟨-, hdr, hx, rfl⟩
    · exact .inl rfl
    · exact .inr (.inr (.inr ⟨x, hdr, hx, rfl⟩))
  | clearBlockError origin x e =>
    rcases clearBlockError_eq h with rfl | ⟨-, hdr, hx, rfl⟩
    · exact .inl rfl
    · exact .inr (.inr (.inr ⟨x, hdr, hx, rfl⟩))

end

/-! ## `ChainCounter` bounds every id -/

/-- `ChainCounter` is at least every key and every chain id of `ChainsIndex` and every stored
  header's `chain_ref`. -/
structure IdsBelowCounter (s : Store) : Prop where
  chainsIndex : ∀ id b, s.chainsIndex id = some b → id ≤ s.chainCounter ∧ b.chainId ≤ s.chainCounter
  chainRef : ∀ x hdr, s.blockHeaders x = some hdr → hdr.chainRef ≤ s.chainCounter

namespace IdsBelowCounter

variable {s : Store}

theorem chainindex_chainId (hs : IdsBelowCounter s) (id : Nat) :
    (s.chainindex id).chainId ≤ s.chainCounter := by
  unfold chainindex
  cases h : s.chainsIndex id with
  | none => exact Nat.zero_le _
  | some b => exact (hs.chainsIndex id b h).2

theorem insertBlockHeader (hs : IdsBelowCounter s) (x : H256) {hdr : RichBlockHeader}
    (h : hdr.chainRef ≤ s.chainCounter) : IdsBelowCounter (s.insertBlockHeader x hdr) := by
  refine ⟨hs.chainsIndex, fun y q hq => ?_⟩
  simp only [insertBlockHeader_blockHeaders, Function.update_apply] at hq
  split_ifs at hq
  · cases hq; exact h
  · exact hs.chainRef y q hq

theorem mutateChainsIndex_id (hs : IdsBelowCounter s) {id : Nat} (h : id ≤ s.chainCounter) :
    IdsBelowCounter (s.mutateChainsIndex id fun b => b) := by
  refine ⟨fun k b hb => ?_, hs.chainRef⟩
  simp only [mutateChainsIndex, insertChainsIndex_chainsIndex, Function.update_apply] at hb
  split_ifs at hb with hk
  · cases hb; exact ⟨hk ▸ h, hs.chainindex_chainId id⟩
  · exact hs.chainsIndex k b hb

theorem withChains (hs : IdsBelowCounter s) (chains : LinkedMap) :
    IdsBelowCounter { s with chains := chains } :=
  ⟨hs.chainsIndex, hs.chainRef⟩

theorem withChainsIncr (hs : IdsBelowCounter s) (chains : LinkedMap) :
    IdsBelowCounter { s with chains := chains, chainCounter := s.chainCounter + 1 } :=
  ⟨fun id b h => (hs.chainsIndex id b h).imp Nat.le_succ_of_le Nat.le_succ_of_le,
    fun x hdr h => Nat.le_succ_of_le (hs.chainRef x hdr h)⟩

/-- A promotion files the main chain under 0 and the displaced part under the new
  `ChainCounter`, and moves `chain_ref`s to those two ids. -/
theorem promote (hs : IdsBelowCounter s) {s' : Store} {fork : BlockChain}
    (h : swapMainBlockchain s fork = some (s', none)) : IdsBelowCounter s' := by
  have hc := (swapMainBlockchain_eq_some_none_best h).1
  obtain ⟨s1, hb1, hi1, rfl⟩ := swapMainBlockchain_eq_some_none h
  refine ⟨fun id b hb => ?_, fun x hdr hx => ?_⟩ <;> rw [hc]
  · simp only [reparent_chainsIndex, hi1, Function.update_apply] at hb
    split_ifs at hb with h1 h2 h3
    · cases hb; exact ⟨h1.le, le_rfl⟩
    · cases hb; exact ⟨by simp [h3, mainChainId], Nat.le_succ_of_le (hs.chainindex_chainId _)⟩
    · exact (hs.chainsIndex id b hb).imp Nat.le_succ_of_le Nat.le_succ_of_le
  · rw [reparent_blockHeaders] at hx
    split_ifs at hx
    · cases hx; exact Nat.zero_le _
    · rw [reparent_blockHeaders] at hx
      split_ifs at hx
      · cases hx; exact le_rfl
      · rw [hb1] at hx; exact Nat.le_succ_of_le (hs.chainRef x hdr hx)

theorem checkAndDoReorg (hs : IdsBelowCounter s) {s' : Store} {fork : BlockChain} {e : Option Error}
    (h : checkAndDoReorg s fork = some (s', e)) : IdsBelowCounter s' := by
  rcases checkAndDoReorg_cases h with ⟨chains, rfl⟩ | ⟨chains, rfl⟩ | ⟨-, chains, hswap⟩
  · exact hs.withChains chains
  · exact hs.withChainsIncr chains
  · exact (hs.withChains chains).promote hswap

end IdsBelowCounter

section

variable (parseBlockHeader : List UInt8 → BlockHeader)

/-- Every call keeps `IdsBelowCounter`. -/
theorem IdsBelowCounter.dispatch {s s' : Store} {c : Call} {r : DispatchResult}
    (hs : IdsBelowCounter s) (h : dispatch parseBlockHeader s c = some (s', r)) :
    IdsBelowCounter s' := by
  rcases dispatch_cases parseBlockHeader h with rfl | ⟨-, bytes, height, -, -, rfl⟩ |
    ⟨-, bytes, prev, b, e, -, -, hb, he⟩ | ⟨x, hdr, hx, rfl⟩
  · exact hs
  · refine ⟨fun id b hb => ?_, fun y q hq => ?_⟩
    · simp only [insertChainsIndex_chainsIndex, Function.update_apply] at hb
      split_ifs at hb with h0
      · cases hb; subst h0; exact ⟨Nat.zero_le _, Nat.zero_le _⟩
      · exact hs.chainsIndex id b hb
    · simp only [insertChainsIndex_blockHeaders, insertBlockHeader_blockHeaders,
        Function.update_apply] at hq
      split_ifs at hq
      · cases hq; exact Nat.zero_le _
      · exact hs.chainRef y q hq
  · have hbid : b.chainId ≤ s.chainCounter := extendBlockchain_chainId hb ▸ hs.chainindex_chainId _
    exact ((hs.insertBlockHeader _ hbid).mutateChainsIndex_id hbid).checkAndDoReorg he
  · exact hs.mutateChainsIndex_id (hs.chainRef x hdr hx)

/-- Over every run from every state, `ChainCounter` stays at least every key and every chain
  id of `ChainsIndex` and every stored header's `chain_ref`. -/
theorem run_keeps_ids_below_counter {s s' : Store} {cs : List Call}
    (h : Run parseBlockHeader s cs s') (hs : IdsBelowCounter s) : IdsBelowCounter s' := by
  induction h with
  | nil => exact hs
  | cons hstep _ ih => exact ih (hs.dispatch parseBlockHeader hstep)

end

/-! ## `BestBlock` at the main chain's tip -/

/-- Once `BestBlock` is set, it is the block chain 0 lists at `BestBlockHeight`, and
  `BestBlockHeight` is chain 0's `max_height`. -/
def BestAtMainTip (s : Store) : Prop :=
  ∀ x, s.bestBlock = some x →
    (s.chainindex mainChainId).chain.get s.bestBlockHeight = some x ∧
      (s.chainindex mainChainId).maxHeight = s.bestBlockHeight

namespace BestAtMainTip

variable {s : Store}

theorem mutateChainsIndex_id (hs : BestAtMainTip s) (id : Nat) :
    BestAtMainTip (s.mutateChainsIndex id fun b => b) := fun x hx => by
  simp only [chainindex_mutateChainsIndex_id]
  exact hs x hx

/-- A promotion sets `BestBlock` and `BestBlockHeight` to the tip of the chain it files
  under 0, whatever they were. -/
theorem promote {s' : Store} {fork : BlockChain} (hfork : fork.chainId ≠ mainChainId)
    (h : swapMainBlockchain s fork = some (s', none)) : BestAtMainTip s' := by
  obtain ⟨-, hbest, hheight, -⟩ := swapMainBlockchain_eq_some_none_best h
  have hmain : s'.chainindex mainChainId = appendFork (s.chainindex mainChainId) fork := by
    simp [chainindex, (swapMainBlockchain_main hfork h).1]
  intro x hx
  rw [hmain, hheight, hbest, hx]
  exact ⟨rfl, rfl⟩

theorem checkAndDoReorg (hs : BestAtMainTip s) {s' : Store} {fork : BlockChain} {e : Option Error}
    (h : checkAndDoReorg s fork = some (s', e)) : BestAtMainTip s' := by
  rcases checkAndDoReorg_cases h with ⟨chains, rfl⟩ | ⟨chains, rfl⟩ | ⟨hfork, chains, hswap⟩
  · exact hs
  · exact hs
  · exact promote hfork hswap

end BestAtMainTip

section

variable (parseBlockHeader : List UInt8 → BlockHeader)

/-- Every call keeps `BestAtMainTip`. -/
theorem BestAtMainTip.dispatch {s s' : Store} {c : Call} {r : DispatchResult}
    (hs : BestAtMainTip s) (h : dispatch parseBlockHeader s c = some (s', r)) :
    BestAtMainTip s' := by
  rcases dispatch_cases parseBlockHeader h with rfl | ⟨-, bytes, height, -, -, rfl⟩ |
    ⟨-, bytes, prev, b, e, -, -, -, he⟩ | ⟨x, hdr, -, rfl⟩
  · exact hs
  · rintro x ⟨⟩
    simp [chainindex, genesisChain]
  · exact (@BestAtMainTip.mutateChainsIndex_id (s.insertBlockHeader _ _) hs _).checkAndDoReorg he
  · exact hs.mutateChainsIndex_id _

/-- Over every run from every state, once `BestBlock` is set it stays the block chain 0
  lists at `BestBlockHeight`, and `BestBlockHeight` stays chain 0's `max_height`. -/
theorem run_keeps_best_block_at_main_tip {s s' : Store} {cs : List Call}
    (h : Run parseBlockHeader s cs s') (hs : BestAtMainTip s) : BestAtMainTip s' := by
  induction h with
  | nil => exact hs
  | cons hstep _ ih => exact ih (hs.dispatch parseBlockHeader hstep)

end

/-! ## Stored headers -/

/-- `s'` stores the header `s` stores at `x`, if any, with the same block header and height;
  its `chain_ref` may differ. -/
def HeaderKept (s s' : Store) (x : H256) : Prop :=
  ∀ hdr, s.blockHeaders x = some hdr → ∃ hdr', s'.blockHeaders x = some hdr' ∧
    hdr'.blockHeader = hdr.blockHeader ∧ hdr'.blockHeight = hdr.blockHeight

namespace HeaderKept

variable {s s' s'' : Store} {x : H256}

theorem of_eq (h : s'.blockHeaders x = s.blockHeaders x) : HeaderKept s s' x :=
  fun hdr hx => ⟨hdr, h ▸ hx, rfl, rfl⟩

theorem trans (h1 : HeaderKept s s' x) (h2 : HeaderKept s' s'' x) : HeaderKept s s'' x := fun hdr hx =>
  let ⟨hdr', hx', hb, hh⟩ := h1 hdr hx
  let ⟨hdr'', hx'', hb', hh'⟩ := h2 hdr' hx'
  ⟨hdr'', hx'', hb'.trans hb, hh'.trans hh⟩

theorem isSome (h : HeaderKept s s' x) (hx : (s.blockHeaders x).isSome) :
    (s'.blockHeaders x).isSome := by
  obtain ⟨hdr, hs⟩ := Option.isSome_iff_exists.1 hx
  obtain ⟨hdr', hs', -⟩ := h hdr hs
  simp [hs']

theorem reparent (s : Store) (chain : BTreeMap H256) (id : Nat) (x : H256) :
    HeaderKept s (reparent s chain id) x := fun hdr hx => by
  rcases reparent_stored hx chain id with h | h
  · exact ⟨_, h, rfl, rfl⟩
  · exact ⟨hdr, h, rfl, rfl⟩

/-- A reorganisation keeps every stored header's block header and height. -/
theorem checkAndDoReorg {fork : BlockChain} {e : Option Error}
    (h : checkAndDoReorg s fork = some (s', e)) (x : H256) : HeaderKept s s' x := by
  rcases checkAndDoReorg_cases h with ⟨chains, rfl⟩ | ⟨chains, rfl⟩ | ⟨-, chains, hswap⟩
  · exact of_eq rfl
  · exact of_eq rfl
  · obtain ⟨s1, hb1, -, rfl⟩ := swapMainBlockchain_eq_some_none hswap
    exact ((of_eq (congrFun hb1 x)).trans (reparent _ _ _ x)).trans (reparent _ _ _ x)

end HeaderKept

section

variable (parseBlockHeader : List UInt8 → BlockHeader)

/-- One call from any state keeps every stored header stored, and, unless it files a header
  under its hash, with the same block header and height. -/
theorem dispatch_headers {s s' : Store} {c : Call} {r : DispatchResult}
    (h : dispatch parseBlockHeader s c = some (s', r)) (x : H256) :
    ((s.blockHeaders x).isSome → (s'.blockHeaders x).isSome) ∧
      (c.filedHash parseBlockHeader ≠ some x → HeaderKept s s' x) := by
  rcases dispatch_cases parseBlockHeader h with rfl | ⟨-, bytes, height, rfl, -, rfl⟩ |
    ⟨-, bytes, prev, b, e, rfl, -, -, he⟩ | ⟨y, hdr, -, rfl⟩
  · exact ⟨id, fun _ => HeaderKept.of_eq rfl⟩
  · by_cases hx : (parseBlockHeader bytes).blockHash = x
    · subst hx
      exact ⟨fun _ => by simp, fun hne => absurd rfl hne⟩
    · refine ⟨(HeaderKept.of_eq ?_).isSome, fun _ => HeaderKept.of_eq ?_⟩ <;>
        exact Function.update_noteq (Ne.symm hx) _ _
  · have hr := HeaderKept.checkAndDoReorg he x
    by_cases hx : (parseBlockHeader bytes).blockHash = x
    · subst hx
      exact ⟨fun _ => hr.isSome (by simp [mutateChainsIndex]), fun hne => absurd rfl hne⟩
    · have hk : HeaderKept s ((s.insertBlockHeader (parseBlockHeader bytes).blockHash
          ⟨parseBlockHeader bytes, prev.blockHeight + 1, b.chainId⟩).mutateChainsIndex b.chainId
            fun b => b) x :=
        HeaderKept.of_eq (Function.update_noteq (Ne.symm hx) _ _)
      exact ⟨fun h => hr.isSome (hk.isSome h), fun _ => hk.trans hr⟩
  · exact ⟨id, fun _ => HeaderKept.of_eq rfl⟩

/-- Over every run from every state, a stored header stays stored, and keeps its block
  header and height unless a call of the run files a header under its hash. -/
theorem run_keeps_stored_headers {s s' : Store} {cs : List Call}
    (h : Run parseBlockHeader s cs s') {x : H256} {hdr : RichBlockHeader}
    (hx : s.blockHeaders x = some hdr) :
    (s'.blockHeaders x).isSome ∧ ((∀ c ∈ cs, c.filedHash parseBlockHeader ≠ some x) →
      ∃ hdr', s'.blockHeaders x = some hdr' ∧ hdr'.blockHeader = hdr.blockHeader ∧
        hdr'.blockHeight = hdr.blockHeight) := by
  induction h generalizing hdr with
  | nil s => exact ⟨by simp [hx], fun _ => ⟨hdr, hx, rfl, rfl⟩⟩
  | @cons s s1 s' c cs r hstep _ ih =>
    obtain ⟨hsome, hkept⟩ := dispatch_headers parseBlockHeader hstep x
    obtain ⟨hdr1, hx1⟩ := Option.isSome_iff_exists.1 (hsome (by simp [hx]))
    refine ⟨(ih hx1).1, fun hno => ?_⟩
    obtain ⟨hdr1', hx1', hb, hh⟩ := hkept (hno c (List.mem_cons_self c cs)) hdr hx
    obtain ⟨hdr', hx', hb', hh'⟩ := (ih hx1').2 fun c' hc' => hno c' (List.mem_cons_of_mem c hc')
    exact ⟨hdr', hx', hb'.trans hb, hh'.trans hh⟩

end

/-! ## A promotion

Chain 1 of `twoChainStore` grows past the main chain: its tip, block 13 at height 3, is
stored, and block 14 is filed on it. -/

/-- `twoChainStore` with the fork's tip stored on chain 1. -/
def forkTipStore : Store :=
  { twoChainStore mainEnteredLast 1 with
    blockHeaders := fun x =>
      if x = blockHashOf 13 then some ⟨⟨default, blockHashOf 12, blockHashOf 13⟩, 3, 1⟩ else none }

/-- Block 14 on block 13. -/
def extendFork : Call := .storeBlockHeader (.signed 0) [14, 13]

/-- The store after `extendFork`. -/
def promotedStore : Store :=
  ((dispatch byteHeader forkTipStore extendFork).map Prod.fst).getD forkTipStore

theorem run_extendFork : Run byteHeader forkTipStore [extendFork] promotedStore :=
  .cons rfl (.nil _)

theorem idsBelowCounter_forkTipStore : IdsBelowCounter forkTipStore := by
  refine ⟨fun id b hb => ?_, fun x hdr hx => ?_⟩
  · simp only [forkTipStore, twoChainStore] at hb
    split_ifs at hb with h0 h1 <;> cases hb
    · subst h0; exact ⟨Nat.zero_le _, Nat.zero_le _⟩
    · subst h1; exact ⟨le_rfl, le_rfl⟩
  · simp only [forkTipStore] at hx
    split_ifs at hx
    cases hx
    exact le_rfl

theorem bestAtMainTip_forkTipStore : BestAtMainTip forkTipStore := by
  rintro x ⟨⟩
  exact ⟨rfl, rfl⟩

/-- The promotion draws id 2 for the displaced main chain, and the bound still holds. -/
theorem run_keeps_ids_below_counter_promotion :
    ∃ s', Run byteHeader forkTipStore [extendFork] s' ∧ IdsBelowCounter forkTipStore ∧
      s'.chainCounter = 2 ∧ IdsBelowCounter s' :=
  ⟨_, run_extendFork, idsBelowCounter_forkTipStore, rfl,
    run_keeps_ids_below_counter byteHeader run_extendFork idsBelowCounter_forkTipStore⟩

/-- After the promotion block 14 at height 4 is best, at the tip of chain 0. -/
theorem run_keeps_best_block_at_main_tip_promotion :
    ∃ s', Run byteHeader forkTipStore [extendFork] s' ∧ BestAtMainTip forkTipStore ∧
      s'.bestBlock = some (blockHashOf 14) ∧ s'.bestBlockHeight = 4 ∧ BestAtMainTip s' :=
  ⟨_, run_extendFork, bestAtMainTip_forkTipStore, rfl, rfl,
    run_keeps_best_block_at_main_tip byteHeader run_extendFork bestAtMainTip_forkTipStore⟩

/-- The promotion moves block 13 to chain 0 and keeps its header and height. -/
theorem run_keeps_stored_headers_promotion :
    ∃ s', Run byteHeader forkTipStore [extendFork] s' ∧
      forkTipStore.blockHeaders (blockHashOf 13) =
        some ⟨⟨default, blockHashOf 12, blockHashOf 13⟩, 3, 1⟩ ∧
      (∀ c ∈ [extendFork], c.filedHash byteHeader ≠ some (blockHashOf 13)) ∧
      (s'.blockHeaders (blockHashOf 13)).map RichBlockHeader.chainRef = some mainChainId ∧
      (s'.blockHeaders (blockHashOf 13)).isSome ∧
        ((∀ c ∈ [extendFork], c.filedHash byteHeader ≠ some (blockHashOf 13)) →
          ∃ hdr', s'.blockHeaders (blockHashOf 13) = some hdr' ∧
            hdr'.blockHeader = ⟨default, blockHashOf 12, blockHashOf 13⟩ ∧ hdr'.blockHeight = 3) :=
  ⟨_, run_extendFork, rfl, by decide, rfl,
    @run_keeps_stored_headers byteHeader _ _ _ run_extendFork (blockHashOf 13) _ rfl⟩

end BtcParachain.BtcRelay
