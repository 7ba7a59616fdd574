import BtcParachain.BtcRelay.Runs
/-
  BtcParachain.BtcRelay.Placement — where `store_block_header` puts a header, from every
  reachable state.

  Every header a reachable state holds sits at or above the genesis height
  (`reach_aboveGenesis`): `initialize` stores the genesis header at that height and every
  later header goes one above a stored parent. The copy of chain 0 that
  `store_block_header` extends holds the genesis block alone, so it never has an entry at
  the new height: `extend_blockchain` never reports `DuplicateBlock`, and every header
  whose parent is stored below `u32::MAX` is accepted (`storeBlockHeader_of_reach`).

  Proved:
  - `new_header_never_enters_chains`: in every reachable state, a header whose parent is
    stored below `u32::MAX` is accepted and stored on chain 0 one above its parent, while
    `ChainsIndex`, `Chains` and `ChainCounter` stay as they were and chain 0 has no entry
    at the new height: no chain is extended and no fork is created.
  - `resubmitted_header_accepted`: re-submitting a header that is stored as
    `store_block_header` stored it (one above its stored parent, on chain 0) returns `Ok`:
    nothing checks for a duplicate.
-/

namespace BtcParachain.BtcRelay

open Store

/-- Every stored header sits at or above `height`. -/
def AboveGenesis (s : Store) (height : Nat) : Prop :=
  ∀ x hdr, s.blockHeaders x = some hdr → height ≤ hdr.blockHeight

theorem AboveGenesis.store {s : Store} {height : Nat} (ha : AboveGenesis s height) {y p : H256}
    {prev : RichBlockHeader} (hprev : s.blockHeaders p = some prev) (b : BlockHeader) (c : Nat) :
    AboveGenesis (s.insertBlockHeader y ⟨b, prev.blockHeight + 1, c⟩) height := by
  intro x hdr hx
  rw [insertBlockHeader_blockHeaders, Function.update_apply] at hx
  split_ifs at hx
  · cases hx
    exact Nat.le_succ_of_le (ha _ _ hprev)
  · exact ha x hdr hx

section

variable (parseBlockHeader : List UInt8 → BlockHeader)

/-- Every reachable state is empty, or `Initialized` with every header at or above the
  genesis height. -/
theorem reach_aboveGenesis {s : Store} (h : Reach parseBlockHeader s) :
    s = Store.empty ∨ ∃ root height, Initialized s root height ∧ AboveGenesis s height := by
  induction h with
  | empty => exact .inl rfl
  | step c _ hc ih =>
    rcases ih with rfl | ⟨root, height, hi, ha⟩
    · refine (dispatch_empty parseBlockHeader hc).imp_right fun ⟨_, _, _, hi, hb⟩ =>
        ⟨_, _, hi, fun x hdr hx => ?_⟩
      rw [hb, Function.update_apply] at hx
      split_ifs at hx
      cases hx
      exact le_rfl
    · rcases dispatch_initialized parseBlockHeader hi hc with rfl | ⟨bytes, -, prev, hprev, rfl⟩
      · exact .inr ⟨root, height, hi, ha⟩
      · exact .inr ⟨root, height, hi.insertBlockHeader _ _ rfl, ha.store hprev _ _⟩

/-- In a reachable state a header whose parent is stored below `u32::MAX` is accepted:
  it is stored on chain 0 one above its parent, which sits at or above the genesis
  height, and nothing else changes. -/
theorem storeBlockHeader_of_reach {s : Store} (hs : Reach parseBlockHeader s) (who : Nat)
    (bytes : List UInt8) {prev : RichBlockHeader}
    (hprev : s.blockHeaders (parseBlockHeader bytes).hashPrevBlock = some prev)
    (hh : prev.blockHeight < u32Max) :
    ∃ root height, Initialized s root height ∧ height ≤ prev.blockHeight ∧
      storeBlockHeader parseBlockHeader s (.signed who) bytes =
        some (s.insertBlockHeader (parseBlockHeader bytes).blockHash
          ⟨parseBlockHeader bytes, prev.blockHeight + 1, mainChainId⟩, .ok ()) := by
  rcases reach_aboveGenesis parseBlockHeader hs with rfl | ⟨root, height, hi, ha⟩
  · cases hprev
  · have hle := ha _ _ hprev
    exact ⟨root, height, hi, hle,
      storeBlockHeader_child parseBlockHeader hi who bytes hprev hh (by omega)⟩

/-- `store_block_header` neither extends a chain nor creates one: in every reachable
  state, a header whose parent is stored below `u32::MAX` is accepted and stored on
  chain 0 one above its parent, `ChainsIndex`, `Chains` and `ChainCounter` are left as
  they were, and chain 0 has no entry at the header's height. -/
theorem new_header_never_enters_chains {s : Store} (hs : Reach parseBlockHeader s) (who : Nat)
    (bytes : List UInt8) {prev : RichBlockHeader}
    (hprev : s.blockHeaders (parseBlockHeader bytes).hashPrevBlock = some prev)
    (hh : prev.blockHeight < u32Max) :
    ∃ s', storeBlockHeader parseBlockHeader s (.signed who) bytes = some (s', .ok ()) ∧
      s'.blockHeaders (parseBlockHeader bytes).blockHash =
        some ⟨parseBlockHeader bytes, prev.blockHeight + 1, mainChainId⟩ ∧
      s'.chainsIndex = s.chainsIndex ∧ s'.chains = s.chains ∧
      s'.chainCounter = s.chainCounter ∧
      (s'.chainindex mainChainId).chain.get (prev.blockHeight + 1) = none := by
  obtain ⟨root, height, hi, hle, h⟩ := storeBlockHeader_of_reach parseBlockHeader hs who bytes hprev hh
  refine ⟨_, h, by simp, rfl, rfl, rfl, ?_⟩
  have hne : prev.blockHeight + 1 ≠ height := by omega
  simp [chainindex, hi.chainsIndex, genesisChain, hne]

/-- Re-submission is accepted: in every reachable state, a header stored on chain 0 one
  above its stored parent, as `store_block_header` stores it, is stored again with `Ok`,
  and the store is left as it was. -/
theorem resubmitted_header_accepted {s : Store} (hs : Reach parseBlockHeader s) (who : Nat)
    (bytes : List UInt8) {prev : RichBlockHeader}
    (hprev : s.blockHeaders (parseBlockHeader bytes).hashPrevBlock = some prev)
    (hh : prev.blockHeight < u32Max)
    (hx : s.blockHeaders (parseBlockHeader bytes).blockHash =
      some ⟨parseBlockHeader bytes, prev.blockHeight + 1, mainChainId⟩) :
    storeBlockHeader parseBlockHeader s (.signed who) bytes = some (s, .ok ()) := by
  obtain ⟨-, -, -, -, h⟩ := storeBlockHeader_of_reach parseBlockHeader hs who bytes hprev hh
  rw [h, insertBlockHeader_of_eq hx]

end

/-- `initialize` with the genesis header `[1, 0]`, then a child `[2, 1]`: the child is
  stored at height 1, and `ChainsIndex` is untouched. -/
theorem new_header_never_enters_chains_block_one :
    ∃ s, Reach byteHeader s ∧
      s.blockHeaders (byteHeader [2, 1]).hashPrevBlock = some ⟨byteHeader [1, 0], 0, mainChainId⟩ ∧
      0 < u32Max ∧
      ∃ s', storeBlockHeader byteHeader s (.signed 0) [2, 1] = some (s', .ok ()) ∧
        s'.blockHeaders (byteHeader [2, 1]).blockHash = some ⟨byteHeader [2, 1], 1, mainChainId⟩ ∧
        s'.chainsIndex = s.chainsIndex ∧ s'.chains = s.chains ∧
        s'.chainCounter = s.chainCounter ∧ (s'.chainindex mainChainId).chain.get 1 = none := by
  obtain ⟨s, h1, hx⟩ := initializeRelay_empty_ok byteHeader 0 [1, 0] 0
  have hs : Reach byteHeader s := .step (.initializeRelay (.signed 0) [1, 0] 0) .empty h1
  exact ⟨s, hs, hx, by decide, new_header_never_enters_chains byteHeader hs 0 [2, 1] hx (by decide)⟩

/-- After `initialize` with `[1, 0]` and a child `[2, 1]`, submitting `[2, 1]` again
  returns `Ok`. -/
theorem resubmitted_header_accepted_block_one :
    ∃ s, Reach byteHeader s ∧
      s.blockHeaders (byteHeader [2, 1]).hashPrevBlock = some ⟨byteHeader [1, 0], 0, mainChainId⟩ ∧
      0 < u32Max ∧
      s.blockHeaders (byteHeader [2, 1]).blockHash = some ⟨byteHeader [2, 1], 1, mainChainId⟩ ∧
      storeBlockHeader byteHeader s (.signed 0) [2, 1] = some (s, .ok ()) := by
  obtain ⟨s, hs, hprev, hx⟩ : ∃ s, Reach byteHeader s ∧
      s.blockHeaders (byteHeader [2, 1]).hashPrevBlock = some ⟨byteHeader [1, 0], 0, mainChainId⟩ ∧
      s.blockHeaders (byteHeader [2, 1]).blockHash = some ⟨byteHeader [2, 1], 1, mainChainId⟩ :=
    ⟨_, .step (.storeBlockHeader (.signed 0) [2, 1])
      (.step (.initializeRelay (.signed 0) [1, 0] 0) .empty rfl) rfl, rfl, rfl⟩
  exact ⟨s, hs, hprev, by decide, hx,
    resubmitted_header_accepted byteHeader hs 0 [2, 1] hprev (by decide) hx⟩

end BtcParachain.BtcRelay
