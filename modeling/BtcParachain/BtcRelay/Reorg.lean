import BtcParachain.BtcRelay.Heights
/-
  BtcParachain.BtcRelay.Reorg — `swap_main_blockchain` and `check_and_do_reorg`, called
  on any store state.

  `swap_main_blockchain` writes `ChainCounter`, then `ChainsIndex` three times (the new
  main chain at 0, the fork's id removed, the displaced part under `ChainCounter + 1`),
  `Chains` through `remove_blockchain` and `insert_sorted`, and `BlockHeaders` in two
  loops, the fork's loop last (`swapMainBlockchain_eq_some_none`, with one frame lemma
  per helper).

  Proved:
  - `swapMainBlockchain_moves_blocks`: when `ChainCounter` is at least every id of
    `ChainsIndex`, a promotion that returns `None` leaves the main chain as its part below
    the fork's start height joined with the fork, the displaced part under a fresh id, the
    fork's id gone, and every block of the fork on chain 0 and every other displaced block
    on the fresh chain. Each flag list is cut at its first height at or above the start
    height (`position`, then `split_off`): the main chain keeps the flags before it, the
    fresh chain takes the rest, so in a list in report order a height below the start
    that follows a higher one moves to the fresh chain.
  - `checkAndDoReorg_misses_overtaking_fork`: with the fork's entry at the head of
    `Chains` (entered last), its `enumerate` index is 0 and nothing happens, whatever the
    heights;
    entered before, the fork is promoted and `Chains` ends with the main chain at position
    1, no position 0, and the displaced chain unlisted.
-/

namespace BtcParachain.BtcRelay

open Store

/-! ## Frame lemmas -/

theorem foldl_mutateBlockHeader_blockHeaders (id : Nat) (x : H256) :
    ∀ (blocks : List H256) (s : Store),
      (blocks.foldl (fun s block => s.mutateBlockHeader block fun header => { header with chainRef := id })
        s).blockHeaders x =
      if x ∈ blocks then some { s.blockheader x with chainRef := id } else s.blockHeaders x
  | [], _ => by simp
  | b :: bs, s => by
    rw [List.foldl_cons, foldl_mutateBlockHeader_blockHeaders id x bs]
    by_cases hx : x = b
    · subst hx
      simp [mutateBlockHeader, blockheader]
    · simp [mutateBlockHeader, blockheader, hx]

theorem foldl_mutateBlockHeader_chainsIndex (id : Nat) :
    ∀ (blocks : List H256) (s : Store),
      (blocks.foldl (fun s block => s.mutateBlockHeader block fun header => { header with chainRef := id })
        s).chainsIndex = s.chainsIndex
  | [], _ => rfl
  | _ :: bs, _ => foldl_mutateBlockHeader_chainsIndex id bs _

/-- `reparent` sets the `chain_ref` of the chain's blocks, a missing one from the default
  header, and leaves the other headers. -/
theorem reparent_blockHeaders (s : Store) (chain : BTreeMap H256) (id : Nat) (x : H256) :
    (reparent s chain id).blockHeaders x =
      if x ∈ chain.values then some { s.blockheader x with chainRef := id } else s.blockHeaders x :=
  foldl_mutateBlockHeader_blockHeaders id x chain.values s

@[simp] theorem reparent_chainsIndex (s : Store) (chain : BTreeMap H256) (id : Nat) :
    (reparent s chain id).chainsIndex = s.chainsIndex :=
  foldl_mutateBlockHeader_chainsIndex id chain.values s

theorem removeBlockchain_eq_some {s s' : Store} {position : Nat}
    (h : removeBlockchain s position = some s') :
    s'.blockHeaders = s.blockHeaders ∧ s'.chainsIndex = s.chainsIndex := by
  unfold removeBlockchain at h
  split at h <;> cases h
  exact ⟨rfl, rfl⟩

theorem incrementChainCounter_eq_ok {s s' : Store} {chainId : Nat}
    (h : incrementChainCounter s = (s', .ok chainId)) :
    chainId = s.chainCounter + 1 ∧ s'.blockHeaders = s.blockHeaders ∧ s'.chainsIndex = s.chainsIndex := by
  unfold incrementChainCounter at h
  split at h
  · cases h
  · rename_i n hn
    cases h
    exact ⟨(checkedAdd_eq_some.1 hn).2, rfl, rfl⟩

/-! ## `swap_main_blockchain` -/

/-- What a promotion that returns `None` writes to `ChainsIndex` and `BlockHeaders`. -/
theorem swapMainBlockchain_eq_some_none {s s' : Store} {fork : BlockChain}
    (h : swapMainBlockchain s fork = some (s', none)) :
    ∃ s1 : Store, s1.blockHeaders = s.blockHeaders ∧
      s1.chainsIndex = Function.update (Function.update (Function.update s.chainsIndex mainChainId
          (some (appendFork (s.chainindex mainChainId) fork))) fork.chainId none)
        (s.chainCounter + 1)
        (some (forkedMainChain (s.chainindex mainChainId) fork.startHeight (s.chainCounter + 1))) ∧
      s' = reparent (reparent s1
          (forkedMainChain (s.chainindex mainChainId) fork.startHeight (s.chainCounter + 1)).chain
          (s.chainCounter + 1)) fork.chain mainChainId := by
  unfold swapMainBlockchain at h
  split at h
  · cases h
  · rename_i s0 chainId hc
    obtain ⟨rfl, hb0, hi0⟩ := incrementChainCounter_eq_ok hc
    dsimp only at h
    split at h
    · cases h
    · split at h
      · cases h
      · split at h
        · cases h
        · rename_i s2 hr
          obtain ⟨hb2, hi2⟩ := removeBlockchain_eq_some hr
          cases h
          refine ⟨_, by simp [insertSorted, hb2, hb0, removeChainsIndex], ?_, rfl⟩
          simp only [insertSorted, insertChainsIndex_chainsIndex, hi2, removeChainsIndex,
            hi0, forkedMainChain]

theorem splitFlags_cons (a : Nat) (flags : List Nat) (startHeight : Nat) :
    splitFlags (a :: flags) startHeight =
      if startHeight ≤ a then ([], a :: flags)
      else (a :: (splitFlags flags startHeight).1, (splitFlags flags startHeight).2) := by
  unfold splitFlags
  rw [List.findIdx?_cons, List.findIdx?_succ]
  by_cases ha : startHeight ≤ a
  · simp [ha]
  · cases h : flags.findIdx? (fun h => decide (startHeight ≤ h)) <;> simp [ha, h]

/-- `position(|&h| h >= start_height)` and `split_off`: the flags before the first at or above
  `startHeight`, and the flags from it on. -/
theorem splitFlags_eq (startHeight : Nat) :
    ∀ flags : List Nat, splitFlags flags startHeight =
      (flags.takeWhile (· < startHeight), flags.dropWhile (· < startHeight))
  | [] => rfl
  | a :: flags => by
    rw [splitFlags_cons, splitFlags_eq startHeight flags]
    by_cases ha : startHeight ≤ a
    · simp [ha, List.takeWhile_cons, List.dropWhile_cons, Nat.not_lt.2 ha]
    · simp [ha, List.takeWhile_cons, List.dropWhile_cons, Nat.lt_of_not_le ha]

/-- Promotion moves every block to the right chain, when `ChainCounter` is at least every id
  of `ChainsIndex`: the main chain becomes its part below the fork's start height joined
  with the fork, a fresh id `d` gets the rest, the fork's id is gone, and the fork's blocks
  refer to chain 0 and the other displaced blocks to `d`. The flags do not follow the
  heights: each list is cut at its first height at or above the start height, the main
  chain keeping what comes before (with the fork's flags after it) and `d` taking the
  rest, lower heights among it included. -/
theorem swapMainBlockchain_moves_blocks {s s' : Store} {fork : BlockChain}
    (hfork : fork.chainId ≠ mainChainId) (hlisted : s.chainsIndex fork.chainId = some fork)
    (hcounter : ∀ id b, s.chainsIndex id = some b → id ≤ s.chainCounter)
    (h : swapMainBlockchain s fork = some (s', none)) :
    ∃ d mainChain forked, d ≠ mainChainId ∧ s.chainsIndex d = none ∧
      s'.chainsIndex mainChainId = some mainChain ∧ s'.chainsIndex d = some forked ∧
      s'.chainsIndex fork.chainId = none ∧
      (∀ k, mainChain.chain.get k = (fork.chain.get k).or
        (if k < fork.startHeight then (s.chainindex mainChainId).chain.get k else none)) ∧
      mainChain.maxHeight = fork.maxHeight ∧
      (∀ k, forked.chain.get k =
        if fork.startHeight ≤ k then (s.chainindex mainChainId).chain.get k else none) ∧
      forked.startHeight = fork.startHeight ∧
      forked.maxHeight = (s.chainindex mainChainId).maxHeight ∧
      mainChain.noData =
        (s.chainindex mainChainId).noData.takeWhile (· < fork.startHeight) ++ fork.noData ∧
      forked.noData = (s.chainindex mainChainId).noData.dropWhile (· < fork.startHeight) ∧
      mainChain.invalid =
        (s.chainindex mainChainId).invalid.takeWhile (· < fork.startHeight) ++ fork.invalid ∧
      forked.invalid = (s.chainindex mainChainId).invalid.dropWhile (· < fork.startHeight) ∧
      (∀ x ∈ fork.chain.values, (s'.blockHeaders x).map (·.chainRef) = some mainChainId) ∧
      (∀ x ∈ forked.chain.values, x ∉ fork.chain.values →
        (s'.blockHeaders x).map (·.chainRef) = some d) := by
  obtain ⟨s1, -, hi1, rfl⟩ := swapMainBlockchain_eq_some_none h
  have hfd : fork.chainId ≠ s.chainCounter + 1 := by have := hcounter _ _ hlisted; omega
  have hfresh : s.chainsIndex (s.chainCounter + 1) = none := by
    cases hd : s.chainsIndex (s.chainCounter + 1) with
    | none => rfl
    | some b => have := hcounter _ _ hd; omega
  have h0d : mainChainId ≠ s.chainCounter + 1 := (Nat.succ_ne_zero _).symm
  refine ⟨_, appendFork (s.chainindex mainChainId) fork,
    forkedMainChain (s.chainindex mainChainId) fork.startHeight (s.chainCounter + 1), h0d.symm, hfresh, ?_, ?_, ?_, fun k => ?_, rfl, fun k => ?_, rfl, rfl,
    by simp [appendFork, splitFlags_eq], by simp [forkedMainChain, splitFlags_eq],
    by simp [appendFork, splitFlags_eq], by simp [forkedMainChain, splitFlags_eq],
    fun x hx => ?_, fun x hx hnx => ?_⟩
  · simp [hi1, Function.update_apply, h0d, hfork.symm]
  · simp [hi1]
  · simp [hi1, Function.update_apply, hfd]
  · simp [appendFork]
  · simp [forkedMainChain]
  · simp [reparent_blockHeaders, hx]
  · rw [reparent_blockHeaders, if_neg hnx, reparent_blockHeaders, if_pos hx]
    rfl

/-! ## Two chains -/

/-- The hash whose 32 bytes are `n`. -/
def blockHashOf (n : UInt8) : H256 := ⟨Bytes32.replicate n⟩

/-- A chain map from `(height, n)` pairs, each height holding `blockHashOf n`. -/
def chainOf : List (Nat × UInt8) → BTreeMap H256
  | [] => .empty
  | (k, n) :: rest => ((chainOf rest).insert k (blockHashOf n)).2

/-- A main chain of heights 0 to 2. -/
def mainExample : BlockChain := ⟨mainChainId, chainOf [(0, 0), (1, 1), (2, 2)], 0, 2, [], []⟩

/-- Chain 1, forked at height 2 and grown to height 3. -/
def forkExample : BlockChain := ⟨1, chainOf [(2, 12), (3, 13)], 2, 3, [], []⟩

/-- `Chains` with positions 0 and 1 holding chains 0 and 1, position 1 entered last (as
  `insert_sorted` appends it), hence first in `enumerate()`. -/
def forkEnteredLast : LinkedMap := ⟨[(1, 1), (0, 0)], by decide⟩

/-- The same positions, position 0 entered last. -/
def mainEnteredLast : LinkedMap := ⟨[(0, 0), (1, 1)], by decide⟩

/-- The two chains in `ChainsIndex`, listed by `chains`, with no headers stored. -/
def twoChainStore (chains : LinkedMap) (chainCounter : Nat) : Store :=
  ⟨fun _ => none, chains,
    fun id => if id = mainChainId then some mainExample else if id = 1 then some forkExample else none,
    some (blockHashOf 2), 2, chainCounter⟩

/-- The main chain of `mainExample`, flagged `NoDataBTCRelay` at height 2 and then at
  height 1, in the order the blocks were reported. -/
def flaggedMain : BlockChain := { mainExample with noData := [2, 1] }

/-- `twoChainStore` with `flaggedMain` for the main chain. -/
def flaggedStore : Store :=
  ⟨fun _ => none, mainEnteredLast,
    fun id => if id = mainChainId then some flaggedMain else if id = 1 then some forkExample else none,
    some (blockHashOf 2), 2, 1⟩

/-- Promoting chain 1 from height 2 over `flaggedMain` moves both flags to the displaced
  chain: height 1, below the fork's start height, leaves the main chain. -/
theorem swapMainBlockchain_moves_blocks_report_order :
    ∃ s', swapMainBlockchain flaggedStore forkExample = some (s', none) ∧
      ∃ d mainChain forked, d ≠ mainChainId ∧ s'.chainsIndex mainChainId = some mainChain ∧
        s'.chainsIndex d = some forked ∧ 1 < forkExample.startHeight ∧
        1 ∈ forked.noData ∧ 1 ∉ mainChain.noData := by
  obtain ⟨s', h⟩ : ∃ s', swapMainBlockchain flaggedStore forkExample = some (s', none) := ⟨_, rfl⟩
  have hcounter : ∀ id b, flaggedStore.chainsIndex id = some b → id ≤ flaggedStore.chainCounter := by
    intro id b hb
    show id ≤ 1
    by_contra hid
    simp [flaggedStore, mainChainId, show id ≠ 0 by omega, show id ≠ 1 by omega] at hb
  obtain ⟨d, mainChain, forked, hd, -, hm, hf, -, -, -, -, -, -, hmn, hfn, -⟩ :=
    swapMainBlockchain_moves_blocks (by decide) rfl hcounter h
  refine ⟨s', h, d, mainChain, forked, hd, hm, hf, by decide, ?_, ?_⟩
  · rw [hfn]; decide
  · rw [hmn]; decide

-- Without the bound on `ChainCounter` the new id is not fresh: with `ChainCounter` 0 and the
-- fork under id 1, the promotion returns `None`, the displaced part takes id 1, and the
-- fork's id stays in `ChainsIndex`.
example : ∃ s', swapMainBlockchain (twoChainStore mainEnteredLast 0) forkExample = some (s', none) ∧
    s'.chainsIndex forkExample.chainId ≠ none :=
  ⟨_, rfl, Option.some_ne_none _⟩

/-- A fork whose entry is the head of `Chains` has `enumerate` index 0, so
  `check_and_do_reorg` returns at once. -/
theorem checkAndDoReorg_of_head {s : Store} {fork : BlockChain} {k : Nat} {es : List (Nat × Nat)}
    (h : s.chains.entries = (k, fork.chainId) :: es) : checkAndDoReorg s fork = some (s, none) := by
  unfold checkAndDoReorg
  split_ifs
  · rfl
  · simp [LinkedMap.position, h, asU32, reorgLoop]

/-- `check_and_do_reorg` leaves every state alone in which the fork's entry is the head of
  `Chains`, as `insert_sorted` leaves each chain it appends, whatever the heights. On a
  fork of height 3 over a main chain of height 2, with the fork entered into `Chains` last,
  nothing changes: position 1 stays higher than position 0 and the main chain stays.
  With the main chain entered last, the fork is promoted, and `Chains` ends as the single
  entry `1 ↦ 0`: the main chain at position 1, no position 0, and the displaced chain 2 in
  `ChainsIndex` but not in `Chains`. -/
theorem checkAndDoReorg_misses_overtaking_fork :
    (∀ (s : Store) (fork : BlockChain) (k : Nat) (es : List (Nat × Nat)),
      s.chains.entries = (k, fork.chainId) :: es → checkAndDoReorg s fork = some (s, none)) ∧
    mainExample.maxHeight < forkExample.maxHeight ∧
      forkEnteredLast.get 0 = mainChainId ∧ forkEnteredLast.get 1 = forkExample.chainId ∧
      mainEnteredLast.get 0 = mainChainId ∧ mainEnteredLast.get 1 = forkExample.chainId ∧
      checkAndDoReorg (twoChainStore forkEnteredLast 1) forkExample =
        some (twoChainStore forkEnteredLast 1, none) ∧
      ∃ s', checkAndDoReorg (twoChainStore mainEnteredLast 1) forkExample = some (s', none) ∧
        s'.chains.entries = [(1, mainChainId)] ∧ (s'.chainsIndex 2).isSome = true :=
  ⟨fun _ _ _ _ => checkAndDoReorg_of_head, by decide, rfl, rfl, rfl, rfl,
    checkAndDoReorg_of_head rfl, _, rfl, rfl, rfl⟩

end BtcParachain.BtcRelay
