import BtcParachain.BtcRelay.Module
/-
  BtcParachain.BtcRelay.Ordering — `insert_sorted` and the ordering index `Chains`.

  `Chains` maps positions to chain ids, and the pallet keeps the chains' `max_height`
  (read from `ChainsIndex`) descending along the positions, the main chain at position 0.
  `insert_sorted` scans the positions from 1 for the first chain no higher than the new
  one, but its `let position_blockchain = curr_position` binds a new name inside the `if`:
  the position the swap loop moves the new chain down to stays `max_chain_element`, the
  loop runs over an empty range, and the new chain stays where `Chains::insert` put it,
  at position `Chains.len()`.

  Proved:
  - `insertSorted_descending_iff`: when `Chains` holds the positions `0..n-1` in
    descending order of height, `insert_sorted` puts the new chain at position `n` and
    moves no other, and the order survives exactly when the new chain is no higher than
    the chain at position `n - 1`.
-/

namespace BtcParachain.BtcRelay

open Store

/-- The chains at positions `0..n-1` of `Chains` descend in `max_height`. -/
def DescendingHeights (s : Store) (n : Nat) : Prop :=
  ∀ i j, i ≤ j → j < n →
    (s.chainindex (s.chains.get j)).maxHeight ≤ (s.chainindex (s.chains.get i)).maxHeight

/-- The swap loop of `insert_sorted` from `max_chain_element` down to itself does
  nothing. -/
theorem swapDown_self (chains : LinkedMap) (n : Nat) : swapDown chains n n = chains := by
  cases n with
  | zero => rfl
  | succ n => simp [swapDown]

@[simp] theorem insertSorted_chainindex (s : Store) (b : BlockChain) (id : Nat) :
    (insertSorted s b).chainindex id = s.chainindex id := rfl

/-- On `Chains` holding the positions `0..n-1`, `insert_sorted` puts the chain at
  position `n` and leaves the others. -/
theorem insertSorted_chains_get {s : Store} {n : Nat} (hkeys : s.chains.keys.Perm (List.range n))
    (hn : n < 2 ^ 32) (b : BlockChain) (k : Nat) :
    (insertSorted s b).chains.get k = if k = n then b.chainId else s.chains.get k := by
  have hlen : s.chains.entries.length = n := by
    simpa [LinkedMap.keys] using hkeys.length_eq
  have hfree : s.chains.entries.lookup n = none := lookup_eq_none fun e he hen => by
    have : e.1 ∈ List.range n := hkeys.subset (List.mem_map_of_mem _ he)
    rw [List.mem_range] at this
    omega
  simp only [insertSorted, hlen, asU32_of_lt hn, swapDown_self]
  exact LinkedMap.get_insert_of_lookup_eq_none _ hfree k

/-- `insert_sorted` appends: on `Chains` holding the positions `0..n-1` (`n ≥ 1`) in
  descending order of height, with the new chain `b` in `ChainsIndex`, `b` ends at
  position `n`, every other position keeps its chain, and the order survives exactly when
  `b` is no higher than the chain at position `n - 1`. -/
theorem insertSorted_descending_iff {s : Store} {n : Nat} {b : BlockChain}
    (hkeys : s.chains.keys.Perm (List.range n)) (hn : n < 2 ^ 32) (hpos : 0 < n)
    (hb : s.chainsIndex b.chainId = some b) (hsorted : DescendingHeights s n) :
    (insertSorted s b).chains.get n = b.chainId ∧
      (∀ k < n, (insertSorted s b).chains.get k = s.chains.get k) ∧
      (DescendingHeights (insertSorted s b) (n + 1) ↔
        b.maxHeight ≤ (s.chainindex (s.chains.get (n - 1))).maxHeight) := by
  have hget := insertSorted_chains_get hkeys hn b
  -- the height at each position after the insertion
  have hheight : ∀ k, ((insertSorted s b).chainindex ((insertSorted s b).chains.get k)).maxHeight =
      if k = n then b.maxHeight else (s.chainindex (s.chains.get k)).maxHeight := fun k => by
    rw [insertSorted_chainindex, hget]
    split_ifs
    · simp [chainindex, hb]
    · rfl
  refine ⟨by rw [hget, if_pos rfl], fun k hk => by rw [hget, if_neg (Nat.ne_of_lt hk)], ?_⟩
  simp only [DescendingHeights, hheight]
  constructor
  · intro h
    simpa [show n - 1 ≠ n by omega] using h (n - 1) n (Nat.sub_le n 1) (Nat.lt_succ_self n)
  · intro hle i j hij hj
    by_cases hjn : j = n <;> by_cases hin : i = n
    · simp [hjn, hin]
    · rw [if_pos hjn, if_neg hin]
      exact hle.trans (hsorted i (n - 1) (by omega) (by omega))
    · omega
    · rw [if_neg hjn, if_neg hin]
      exact hsorted i j hij (by omega)

/-- A chain of `max_height` `maxHeight` with no blocks. -/
def emptyChain (chainId startHeight maxHeight : Nat) : BlockChain :=
  ⟨chainId, .empty, startHeight, maxHeight, [], []⟩

/-- The layout of the pallet's own `insert_sorted_succeeds`: the main chain 0 (heights 60
  to 110) at position 0, chain 3 (70 to 99) at position 1, and chain 4 (77 to 100) in
  `ChainsIndex` but not yet in `Chains`. -/
def orderingExample : Store :=
  ⟨fun _ => none, ⟨[(1, 3), (0, 0)], by decide⟩,
    fun id => if id = 0 then some (emptyChain 0 60 110) else if id = 3 then some (emptyChain 3 70 99)
      else if id = 4 then some (emptyChain 4 77 100) else none,
    none, 0, 0⟩

/-- The test's third insertion: chain 4, of height 100, goes to position 2, below chain 3
  of height 99, where the test expects position 1. -/
theorem insertSorted_descending_iff_fork_after_swap :
    orderingExample.chains.keys.Perm (List.range 2) ∧ 2 < 2 ^ 32 ∧ 0 < 2 ∧
      orderingExample.chainsIndex 4 = some (emptyChain 4 77 100) ∧
      DescendingHeights orderingExample 2 ∧
      (insertSorted orderingExample (emptyChain 4 77 100)).chains.get 2 = 4 ∧
      (∀ k < 2, (insertSorted orderingExample (emptyChain 4 77 100)).chains.get k =
        orderingExample.chains.get k) ∧
      (DescendingHeights (insertSorted orderingExample (emptyChain 4 77 100)) (2 + 1) ↔
        100 ≤ (orderingExample.chainindex (orderingExample.chains.get (2 - 1))).maxHeight) ∧
      ¬ DescendingHeights (insertSorted orderingExample (emptyChain 4 77 100)) (2 + 1) := by
  have hsorted : DescendingHeights orderingExample 2 := fun i j hij hj => by
    obtain rfl | rfl : j = 0 ∨ j = 1 := by omega
    · obtain rfl : i = 0 := by omega
      exact le_rfl
    · obtain rfl | rfl : i = 0 ∨ i = 1 := by omega
      · decide
      · exact le_rfl
  obtain ⟨h2, hold, hiff⟩ := @insertSorted_descending_iff orderingExample 2 (emptyChain 4 77 100)
    (by decide) (by decide) (by decide) rfl hsorted
  exact ⟨by decide, by decide, by decide, rfl, hsorted, h2, hold, hiff,
    fun h => absurd (hiff.1 h) (by decide)⟩

end BtcParachain.BtcRelay
