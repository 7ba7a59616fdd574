import BtcParachain.BtcRelay.Ordering
import BtcParachain.BtcRelay.HeaderTree
/-
  BtcParachain.BtcRelay.ForkChoice — the ordering index `Chains` over runs, and the best
  height.

  `Chains` maps positions to chain ids, the main chain at position 0. Every key the pallet
  adds is `Chains.len()` and is linked in as the head, and `remove_blockchain` unlinks the
  head, so `Chains` stays shaped as the positions `n - 1` down to `0` in `enumerate` order,
  with position 0 reading the main chain (`ChainsShape`). `check_and_do_reorg` takes the
  fork's `enumerate` index for a position: on this shape the fork at index `p` sits at
  position `n - 1 - p`, and the loop swaps only positions `1` to `p`, never the head or
  position 0 (`LoopSwaps`). It reaches position 0, and `swap_main_blockchain`, only
  after finding the chain there, the main chain, lower than the fork.

  Proved, over every run of calls from every state (`Run`):
  - `run_keeps_chains_shape`: `Chains` keeps this shape, through every promotion.
  - `run_never_lowers_best_height`: from a state of this shape with `BestBlock` set at the
    main chain's tip, `BestBlockHeight` never decreases: a promotion moves it to the
    fork's `max_height`, above the main chain's.
  - `run_lists_no_new_chain`: with the main chain filed under id 0, `Chains` never lists a
    chain id it did not list before but `MAIN_CHAIN_ID`: `insert_sorted(&main_chain)` links
    the main chain in again where the displaced part, filed under a fresh id, was meant to
    go, so that part never gets a position and can never be promoted.
-/

namespace BtcParachain.BtcRelay

open Store

/-! ## The shape of `Chains` -/

theorem filter_range_reverse (m : Nat) :
    ((List.range (m + 1)).reverse).filter (· ≠ m) = (List.range m).reverse := by
  rw [List.range_succ, List.reverse_append, List.reverse_singleton, List.singleton_append,
    List.filter_cons_of_neg (by simp), List.filter_eq_self.2]
  intro a ha
  simp only [List.mem_reverse, List.mem_range] at ha
  simp only [ne_eq, decide_not, Bool.not_eq_true', decide_eq_false_iff_not]
  omega

/-! ## Positions `n - 1` down to `0`, in `enumerate` order -/

section

variable {c : LinkedMap} {n : Nat}

theorem length_of_keys (hk : c.keys = (List.range n).reverse) : c.entries.length = n := by
  simpa [LinkedMap.keys] using congrArg List.length hk

theorem lookup_isSome_of_keys (hk : c.keys = (List.range n).reverse) {k : Nat} (h : k < n) :
    (c.entries.lookup k).isSome := by
  rw [Option.isSome_iff_ne_none]
  intro hn
  have hmem : k ∈ c.keys := by rw [hk, List.mem_reverse, List.mem_range]; exact h
  obtain ⟨e, he, rfl⟩ := List.mem_map.1 hmem
  exact ne_of_lookup_eq_none hn e he rfl

/-- The head is the highest position. -/
theorem head_of_keys (hk : c.keys = (List.range n).reverse) (hn : 0 < n) : c.head = some (n - 1) := by
  obtain ⟨m, rfl⟩ : ∃ m, n = m + 1 := ⟨n - 1, by omega⟩
  have h := congrArg List.head? hk
  rw [List.range_succ, List.reverse_append] at h
  simpa [LinkedMap.head, LinkedMap.keys] using h

/-- The entry at `enumerate` index `i` has position `n - 1 - i`. -/
theorem getElem_fst_of_keys (hk : c.keys = (List.range n).reverse) {i : Nat}
    (hi : i < c.entries.length) : c.entries[i].1 = n - 1 - i := by
  have hlen := length_of_keys hk
  have h := congrArg (·[i]?) hk
  simp only [LinkedMap.keys, List.getElem?_map, List.getElem?_eq_getElem hi, Option.map_some',
    @List.getElem?_reverse _ (List.range n) i (by simpa [hlen] using hi), List.length_range,
    List.getElem?_range (by omega : n - 1 - i < n)] at h
  exact Option.some.inj h

/-- Unlinking the head of positions `m` down to `0` leaves `m - 1` down to `0`. -/
theorem keys_remove_head {m : Nat} (hk : c.keys = (List.range (m + 1)).reverse) :
    (c.remove m).keys = (List.range m).reverse := by
  rw [LinkedMap.keys_remove, hk, filter_range_reverse]

/-- Position `n`, over positions `n - 1` down to `0`, is linked in as the new head. -/
theorem insert_top (hk : c.keys = (List.range n).reverse) (v : Nat) :
    (c.insert n v).entries = (n, v) :: c.entries :=
  LinkedMap.insert_entries_of_lookup_eq_none v (lookup_eq_none fun e he heq => by
    have : e.1 ∈ c.keys := List.mem_map_of_mem _ he
    rw [hk, List.mem_reverse, List.mem_range] at this
    omega)

/-- Swapping two positions below the head keeps the keys and the head entry. -/
theorem swap_frame (hk : c.keys = (List.range n).reverse) {a b : Nat} (ha : a + 1 < n)
    (hb : b + 1 < n) : (c.swap a b).keys = c.keys ∧ (c.swap a b).entries.head? = c.entries.head? := by
  obtain ⟨va, hva⟩ := Option.isSome_iff_exists.1 (lookup_isSome_of_keys hk (by omega : a < n))
  obtain ⟨vb, hvb⟩ := Option.isSome_iff_exists.1 (lookup_isSome_of_keys hk (by omega : b < n))
  have hhead := head_of_keys hk (by omega)
  rw [LinkedMap.swap_eq_setValue hva hvb]
  refine ⟨by simp, ?_⟩
  rw [LinkedMap.head?_setValue, LinkedMap.head?_setValue]
  cases hh : c.entries.head? with
  | none => rfl
  | some e =>
    have he : e.1 = n - 1 := by simpa [LinkedMap.head, hh] using hhead
    simp [show e.1 ≠ a by omega, show e.1 ≠ b by omega]

end

/-- `Chains` holds the positions `n - 1` down to `0` in `enumerate` order, fewer than `2^32`
  of them, and position `0` reads the main chain. -/
structure ChainsShape (chains : LinkedMap) : Prop where
  keys : chains.keys = (List.range chains.entries.length).reverse
  small : chains.entries.length < 2 ^ 32
  main : chains.get mainChainId = mainChainId

namespace ChainsShape

variable {c : LinkedMap}

theorem of_keys {n : Nat} (hk : c.keys = (List.range n).reverse) (hn : n < 2 ^ 32)
    (h0 : c.get mainChainId = mainChainId) : ChainsShape c := by
  have hlen := length_of_keys hk
  exact ⟨by rw [hlen]; exact hk, hlen ▸ hn, h0⟩

/-- `initialize`'s `Chains::insert(MAIN_CHAIN_ID, MAIN_CHAIN_ID)` keeps the shape. -/
theorem insert_main (hc : ChainsShape c) : ChainsShape (c.insert mainChainId mainChainId) := by
  by_cases h0 : mainChainId < c.entries.length
  · have hs := lookup_isSome_of_keys hc.keys h0
    rw [LinkedMap.insert_eq_setValue _ hs]
    refine ⟨by simpa using hc.keys, by simpa using hc.small, ?_⟩
    obtain ⟨v, hv⟩ := Option.isSome_iff_exists.1 hs
    simp [LinkedMap.get, LinkedMap.lookup_setValue, hv]
  · have he : c.entries = [] := List.eq_nil_of_length_eq_zero (by simp only [mainChainId] at h0; omega)
    have hfree : c.entries.lookup mainChainId = none := by rw [he]; rfl
    have hk : (c.insert mainChainId mainChainId).keys = (List.range 1).reverse := by
      rw [LinkedMap.keys, LinkedMap.insert_entries_of_lookup_eq_none _ hfree, he]; rfl
    refine of_keys hk (by decide) ?_
    simp [LinkedMap.get, LinkedMap.insert_entries_of_lookup_eq_none _ hfree, lookup_cons_eq]

/-- A promotion's writes to `Chains`: a position other than 0 swapped with the head, the
  head unlinked, and a value linked in at `Chains.len()`. -/
theorem promote (hc : ChainsShape c) {pos head : Nat} (hpos : pos < c.entries.length)
    (hpos0 : pos ≠ mainChainId) (hhead : c.head = some head) (v : Nat) :
    ChainsShape (((c.swap pos head).remove head).insert
      (asU32 ((c.swap pos head).remove head).entries.length) v) := by
  have hsmall := hc.small
  obtain ⟨m, hm⟩ : ∃ m, c.entries.length = m + 1 := ⟨c.entries.length - 1, by omega⟩
  obtain rfl : head = m := by
    have := head_of_keys hc.keys (by omega)
    rw [hhead, hm] at this
    exact Option.some.inj this
  obtain ⟨vp, hvp⟩ := Option.isSome_iff_exists.1 (lookup_isSome_of_keys hc.keys hpos)
  obtain ⟨vm, hvm⟩ := Option.isSome_iff_exists.1 (lookup_isSome_of_keys hc.keys (by omega : head < _))
  have hm0 : mainChainId ≠ head := by simp only [mainChainId] at hpos0 ⊢; omega
  rw [LinkedMap.swap_eq_setValue hvp hvm]
  set c2 := ((c.setValue pos vm).setValue head vp).remove head with hc2
  -- the head unlinked: positions `head - 1` down to `0`
  have hk2 : c2.keys = (List.range head).reverse :=
    keys_remove_head (by rw [LinkedMap.keys_setValue, LinkedMap.keys_setValue, hc.keys, hm])
  rw [length_of_keys hk2, asU32_of_lt (by omega)]
  -- the main chain linked in at `head`: positions `head` down to `0` again
  have hk3 : (c2.insert head v).keys = (List.range (head + 1)).reverse := by
    rw [LinkedMap.keys, insert_top hk2, List.map_cons, List.range_succ, List.reverse_append]
    exact congrArg _ hk2
  refine of_keys hk3 (by omega) ?_
  simp only [LinkedMap.get, insert_top hk2, lookup_cons_eq, if_neg hm0, hc2, LinkedMap.lookup_remove,
    LinkedMap.lookup_setValue]
  simpa [Ne.symm hpos0, hm0] using hc.main

end ChainsShape

/-! ## The loop of `check_and_do_reorg` -/

/-- The swaps the loop of `check_and_do_reorg` makes from position `q`: positions `j` and
  `j + 1` exchanged, for `j` from `q - 1` down, never at position 0. -/
inductive LoopSwaps : Nat → LinkedMap → LinkedMap → Prop
  | stop (q : Nat) (c : LinkedMap) : LoopSwaps q c c
  | swap {q : Nat} {c c' : LinkedMap} : q ≠ mainChainId → LoopSwaps q (c.swap q (q + 1)) c' →
      LoopSwaps (q + 1) c c'

/-- The loop swaps positions down from `q`, then stops, or calls `swap_main_blockchain` after
  finding the chain at position 0 lower than `height`. -/
theorem reorgLoop_swaps {fork : BlockChain} :
    ∀ {q height : Nat} {s s' : Store} {r : Option Error}, reorgLoop fork q height s = some (s', r) →
      ∃ chains, LoopSwaps q s.chains chains ∧ ((r = none ∧ s' = { s with chains := chains }) ∨
        (s.chainindex (chains.get mainChainId)).maxHeight < height ∧
          swapMainBlockchain { s with chains := chains } fork = some (s', r))
  | 0, _, s, _, _, h => by
    simp only [reorgLoop, Option.some.injEq, Prod.mk.injEq] at h
    obtain ⟨rfl, rfl⟩ := h
    exact ⟨s.chains, .stop _ _, .inl ⟨rfl, rfl⟩⟩
  | q + 1, height, s, s', r, h => by
    dsimp only [reorgLoop] at h
    split_ifs at h with hlt h0
    · -- position 0: the main chain's
      subst h0
      exact ⟨s.chains, .stop _ _, .inr ⟨hlt, h⟩⟩
    · obtain ⟨chains, hsw, hr⟩ := reorgLoop_swaps h
      refine ⟨chains, .swap h0 hsw, ?_⟩
      rcases hr with ⟨rfl, rfl⟩ | ⟨hlt', hsw'⟩
      · exact .inl ⟨rfl, rfl⟩
      · exact .inr ⟨hlt'.trans hlt, hsw'⟩
    · cases h
      exact ⟨s.chains, .stop _ _, .inl ⟨rfl, rfl⟩⟩

namespace LoopSwaps

variable {q : Nat} {c c' : LinkedMap}

/-- The loop never touches position 0. -/
theorem get_main (h : LoopSwaps q c c') : c'.get mainChainId = c.get mainChainId := by
  induction h with
  | stop => rfl
  | @swap q c c' hq _ ih =>
    rw [ih, LinkedMap.get, LinkedMap.get, LinkedMap.lookup_swap_of_ne _ (Ne.symm hq)
      (by simp [mainChainId])]

/-- The loop only moves chain ids between positions. -/
theorem mem_values (h : LoopSwaps q c c') {x : Nat} (hx : x ∈ c'.values) : x ∈ c.values := by
  induction h with
  | stop => exact hx
  | swap _ _ ih => exact LinkedMap.mem_values_swap (ih hx)

/-- From a position below the head of positions `n - 1` down to `0`, the loop keeps the keys
  and the head entry. -/
theorem keys_frame {n : Nat} (h : LoopSwaps q c c') (hk : c.keys = (List.range n).reverse)
    (hq : q + 1 < n) : c'.keys = c.keys ∧ c'.entries.head? = c.entries.head? := by
  induction h with
  | stop => exact ⟨rfl, rfl⟩
  | @swap q c c' _ _ ih =>
    obtain ⟨hk1, hh1⟩ := swap_frame hk (by omega : q + 1 < n) hq
    obtain ⟨hk2, hh2⟩ := ih (hk1.trans hk) (by omega)
    exact ⟨hk2.trans hk1, hh2.trans hh1⟩

end LoopSwaps

/-! ## A promotion, and `check_and_do_reorg` -/

/-- A promotion leaves `Chains` and the best block on an early exit; on success it swaps
  the fork's `enumerate` index with the head, unlinks the head, links the main chain's id in
  at `Chains.len()`, and sets `BestBlockHeight` to the fork's `max_height`. -/
theorem swapMainBlockchain_chains {s s' : Store} {fork : BlockChain} {r : Option Error}
    (h : swapMainBlockchain s fork = some (s', r)) :
    (s'.chains = s.chains ∧ s'.bestBlock = s.bestBlock ∧ s'.bestBlockHeight = s.bestBlockHeight) ∨
      ∃ pos head, s.chains.position fork.chainId = some pos ∧ s.chains.head = some head ∧
        s'.chains = ((s.chains.swap (asU32 pos) head).remove head).insert
          (asU32 ((s.chains.swap (asU32 pos) head).remove head).entries.length)
          (s.chainindex mainChainId).chainId ∧
        s'.bestBlockHeight = fork.maxHeight := by
  unfold swapMainBlockchain at h
  split at h
  · rename_i s0 err hc
    obtain ⟨rfl, -⟩ := incrementChainCounter_eq_error hc
    cases h
    exact .inl ⟨rfl, rfl, rfl⟩
  · rename_i s0 chainId hc
    obtain rfl := incrementChainCounter_eq_ok_state hc
    dsimp only at h
    split at h
    · cases h; exact .inl ⟨rfl, rfl, rfl⟩
    · split at h
      · cases h; exact .inl ⟨rfl, rfl, rfl⟩
      · rename_i pos hpos
        split at h
        · cases h
        · rename_i s2 hr
          unfold removeBlockchain at hr
          split at hr
          · cases hr
          · rename_i head hhead
            cases hr
            cases h
            exact .inr ⟨pos, head, hpos, hhead,
              by simp [insertSorted, swapDown_self, removeChainsIndex, appendFork],
              by simp [insertSorted, appendFork, removeChainsIndex]⟩

/-- `check_and_do_reorg` keeps the shape of `Chains`, and changes the best block only by a
  promotion, which raises `BestBlockHeight` above the main chain's `max_height`. -/
theorem checkAndDoReorg_shape {s s' : Store} {fork : BlockChain} {e : Option Error}
    (h : checkAndDoReorg s fork = some (s', e)) (hc : ChainsShape s.chains) :
    ChainsShape s'.chains ∧ ((s'.bestBlock = s.bestBlock ∧ s'.bestBlockHeight = s.bestBlockHeight) ∨
      (s.chainindex mainChainId).maxHeight < s'.bestBlockHeight) := by
  have hsmall := hc.small
  unfold checkAndDoReorg at h
  split_ifs at h with hmain
  · cases h; exact ⟨hc, .inl ⟨rfl, rfl⟩⟩
  split at h
  · cases h; exact ⟨hc, .inl ⟨rfl, rfl⟩⟩
  rename_i p hp
  obtain ⟨hpn, hpid, hbefore⟩ := List.findIdx?_eq_some_iff_getElem.1 hp
  -- the fork is not at the last index: that entry is position 0, the main chain's
  have hlast : p + 1 < s.chains.entries.length := by
    refine lt_of_le_of_ne hpn fun hp1 => hmain ?_
    have hkey : s.chains.entries[p].1 = mainChainId := by
      rw [getElem_fst_of_keys hc.keys hpn, mainChainId]; omega
    have hget := LinkedMap.lookup_getElem s.chains.nodup p hpn
    rw [hkey] at hget
    have h0 := hc.main
    rw [LinkedMap.get, hget, Option.getD_some] at h0
    rw [← beq_iff_eq.1 hpid, h0]
  rw [asU32_of_lt (by omega)] at h
  cases p with
  | zero =>
    simp only [reorgLoop, Option.some.injEq, Prod.mk.injEq] at h
    obtain ⟨rfl, rfl⟩ := h
    exact ⟨hc, .inl ⟨rfl, rfl⟩⟩
  | succ q =>
    obtain ⟨c, hloop, hr⟩ := reorgLoop_swaps h
    obtain ⟨hk, hh⟩ := hloop.keys_frame hc.keys hlast
    have hc' : ChainsShape c :=
      ChainsShape.of_keys (hk.trans hc.keys) hsmall (hloop.get_main.trans hc.main)
    rcases hr with ⟨rfl, rfl⟩ | ⟨hlt, hsw⟩
    · exact ⟨hc', .inl ⟨rfl, rfl⟩⟩
    rw [hloop.get_main, hc.main] at hlt
    rcases swapMainBlockchain_chains hsw with ⟨hch, hbb, hbh⟩ | ⟨pos, head, hpos, hhd, hch, hbh⟩
    · exact ⟨hch ▸ hc', .inl ⟨hbb, hbh⟩⟩
    dsimp only at hpos hhd hch
    have hposn := (List.findIdx?_eq_some_iff_getElem.1 hpos).1
    -- the head entry is `s`'s, which is not the fork's: its first index was `q + 1`
    have hpos0 : pos ≠ mainChainId := by
      obtain ⟨e0, es, hs0⟩ : ∃ e0 es, s.chains.entries = e0 :: es :=
        List.exists_cons_of_length_pos (by omega)
      have hne : ¬(e0.2 == fork.chainId) = true := by
        simpa [hs0] using hbefore 0 (Nat.succ_pos q)
      obtain ⟨es', hc0⟩ : ∃ es', c.entries = e0 :: es' := by
        cases hce : c.entries with
        | nil => rw [hce, hs0] at hh; cases hh
        | cons e es' => rw [hce, hs0] at hh; cases hh; exact ⟨es', rfl⟩
      rintro rfl
      simp [LinkedMap.position, hc0, hne, mainChainId] at hpos
    rw [asU32_of_lt (by have := hc'.small; omega)] at hch
    exact ⟨hch ▸ hc'.promote hposn hpos0 hhd _, .inr (hbh ▸ hlt)⟩

/-! ## Every call, then every run -/

section

variable (parseBlockHeader : List UInt8 → BlockHeader)

/-- One call keeps the shape of `Chains`; it sets the best block freely only in storage
  without `BestBlock`, and otherwise leaves it, or moves it and raises `BestBlockHeight`
  above the main chain's `max_height`. -/
theorem dispatch_chainsShape {s s' : Store} {c : Call} {r : DispatchResult}
    (hc : ChainsShape s.chains) (h : dispatch parseBlockHeader s c = some (s', r)) :
    ChainsShape s'.chains ∧ (s.bestBlock = none ∨
      (s'.bestBlock = s.bestBlock ∧ s'.bestBlockHeight = s.bestBlockHeight) ∨
      (s.chainindex mainChainId).maxHeight < s'.bestBlockHeight) := by
  rcases dispatch_cases parseBlockHeader h with rfl | ⟨-, bytes, height, -, hn, rfl⟩ |
    ⟨-, bytes, prev, b, e, -, -, -, he⟩ | ⟨x, hdr, -, rfl⟩
  · exact ⟨hc, .inr (.inl ⟨rfl, rfl⟩)⟩
  · exact ⟨hc.insert_main, .inl hn⟩
  · obtain ⟨hc', hbh⟩ := checkAndDoReorg_shape he hc
    rw [chainindex_mutateChainsIndex_id] at hbh
    exact ⟨hc', .inr hbh⟩
  · exact ⟨hc, .inr (.inl ⟨rfl, rfl⟩)⟩

/-- Over every run from every state, `Chains` keeps the positions `n - 1` down to `0` in
  `enumerate` order, fewer than `2^32` of them, with position 0 reading the main chain. -/
theorem run_keeps_chains_shape {s s' : Store} {cs : List Call} (h : Run parseBlockHeader s cs s')
    (hc : ChainsShape s.chains) : ChainsShape s'.chains := by
  induction h with
  | nil => exact hc
  | cons hstep _ ih => exact ih (dispatch_chainsShape parseBlockHeader hc hstep).1

/-- Over every run from a state with `BestBlock` set at the main chain's tip and `Chains` so
  shaped, `BestBlockHeight` never decreases. -/
theorem run_never_lowers_best_height {s s' : Store} {cs : List Call}
    (h : Run parseBlockHeader s cs s') (hc : ChainsShape s.chains) (hb : s.bestBlock.isSome)
    (hm : BestAtMainTip s) : s.bestBlockHeight ≤ s'.bestBlockHeight := by
  induction h with
  | nil => exact le_rfl
  | @cons s s1 _ c _ r hstep _ ih =>
    obtain ⟨hc1, hstep'⟩ := dispatch_chainsShape parseBlockHeader hc hstep
    obtain ⟨x, hx⟩ := Option.isSome_iff_exists.1 hb
    have hle : s.bestBlockHeight ≤ s1.bestBlockHeight := by
      rcases hstep' with hn | heq | hlt
      · rw [hn] at hx; cases hx
      · exact heq.2.ge
      · exact ((hm x hx).2 ▸ hlt).le
    exact hle.trans (ih hc1 (dispatch_bestBlock_isSome parseBlockHeader hstep hb)
      (hm.dispatch parseBlockHeader hstep))

end

/-! ## The chain ids `Chains` lists -/

/-- `ChainsIndex` files the main chain under its own id, or nothing at 0. -/
def MainUnderOwnId (s : Store) : Prop := (s.chainindex mainChainId).chainId = mainChainId

/-- A promotion keeps `MainUnderOwnId`, and links in no chain id but the main chain's. -/
theorem swapMainBlockchain_values {s s' : Store} {fork : BlockChain} {r : Option Error}
    (h : swapMainBlockchain s fork = some (s', r)) (hm : MainUnderOwnId s) :
    MainUnderOwnId s' ∧ ∀ x ∈ s'.chains.values, x = mainChainId ∨ x ∈ s.chains.values := by
  have hkeep : MainUnderOwnId s' := by
    cases r with
    | some e =>
      rcases swapMainBlockchain_eq_some_some h with ⟨-, rfl⟩ | ⟨-, rfl⟩ <;> exact hm
    | none =>
      obtain ⟨s1, -, hc1, rfl⟩ := swapMainBlockchain_eq_some_none h
      unfold MainUnderOwnId chainindex at hm ⊢
      rw [reparent_chainsIndex, reparent_chainsIndex, hc1,
        Function.update_noteq (by simp [mainChainId] : mainChainId ≠ s.chainCounter + 1),
        Function.update_apply]
      split_ifs
      · rfl
      · simpa [appendFork, chainindex] using hm
  refine ⟨hkeep, fun x hx => ?_⟩
  rcases swapMainBlockchain_chains h with ⟨hch, -⟩ | ⟨pos, head, -, -, hch, -⟩
  · exact .inr (hch ▸ hx)
  · rw [hch] at hx
    rcases LinkedMap.mem_values_insert hx with rfl | hx
    · exact .inl hm
    · exact .inr (LinkedMap.mem_values_swap (LinkedMap.mem_values_remove hx))

theorem checkAndDoReorg_values {s s' : Store} {fork : BlockChain} {e : Option Error}
    (h : checkAndDoReorg s fork = some (s', e)) (hm : MainUnderOwnId s) :
    MainUnderOwnId s' ∧ ∀ x ∈ s'.chains.values, x = mainChainId ∨ x ∈ s.chains.values := by
  unfold checkAndDoReorg at h
  split_ifs at h
  · cases h; exact ⟨hm, fun x hx => .inr hx⟩
  split at h
  · cases h; exact ⟨hm, fun x hx => .inr hx⟩
  obtain ⟨c, hloop, hr⟩ := reorgLoop_swaps h
  rcases hr with ⟨rfl, rfl⟩ | ⟨-, hsw⟩
  · exact ⟨hm, fun x hx => .inr (hloop.mem_values hx)⟩
  obtain ⟨hm', hv⟩ := @swapMainBlockchain_values { s with chains := c } s' fork e hsw hm
  exact ⟨hm', fun x hx => (hv x hx).imp_right hloop.mem_values⟩

section

variable (parseBlockHeader : List UInt8 → BlockHeader)

/-- One call keeps `MainUnderOwnId` and links in no chain id but the main chain's. -/
theorem dispatch_values {s s' : Store} {c : Call} {r : DispatchResult}
    (h : dispatch parseBlockHeader s c = some (s', r)) (hm : MainUnderOwnId s) :
    MainUnderOwnId s' ∧ ∀ x ∈ s'.chains.values, x = mainChainId ∨ x ∈ s.chains.values := by
  rcases dispatch_cases parseBlockHeader h with rfl | ⟨-, bytes, height, -, -, rfl⟩ |
    ⟨-, bytes, prev, b, e, -, -, -, he⟩ | ⟨x, hdr, -, rfl⟩
  · exact ⟨hm, fun x hx => .inr hx⟩
  · refine ⟨by simp [MainUnderOwnId, chainindex, genesisChain], fun x hx => LinkedMap.mem_values_insert hx⟩
  · have hm' : MainUnderOwnId ((s.insertBlockHeader (parseBlockHeader bytes).blockHash
        ⟨parseBlockHeader bytes, prev.blockHeight + 1, b.chainId⟩).mutateChainsIndex b.chainId
          fun b => b) := by
      rw [MainUnderOwnId, chainindex_mutateChainsIndex_id]; exact hm
    have hv := checkAndDoReorg_values he hm'
    exact hv
  · exact ⟨by rw [MainUnderOwnId, chainindex_mutateChainsIndex_id]; exact hm, fun x hx => .inr hx⟩

/-- Over every run from a state whose `ChainsIndex` files the main chain under id 0, every
  chain id `Chains` lists at the end is `MAIN_CHAIN_ID` or one it listed at the start: the
  id `swap_main_blockchain` draws for the part of the main chain it displaces never enters
  `Chains`, so `check_and_do_reorg` finds no position for that chain, however it grows. -/
theorem run_lists_no_new_chain {s s' : Store} {cs : List Call} (h : Run parseBlockHeader s cs s')
    (hm : MainUnderOwnId s) : ∀ x ∈ s'.chains.values, x = mainChainId ∨ x ∈ s.chains.values := by
  induction h with
  | nil => exact fun x hx => .inr hx
  | cons hstep _ ih =>
    obtain ⟨hm1, hv⟩ := dispatch_values parseBlockHeader hstep hm
    exact fun x hx => (ih hm1 x hx).elim .inl (hv x)

end

/-! ## A promotion in the kept shape

`HeaderTree`'s store with a third chain, entered last: chain 2 (block 12 alone, at height 2),
chain 1 and the main chain at positions 2, 1 and 0. Block 14 grows chain 1, at `enumerate`
index 1, past the main chain. -/

def shapedForkStore : Store :=
  { linkedForkStore with
    chains := ⟨[(2, 2), (1, 1), (0, 0)], by decide⟩
    chainsIndex := fun id =>
      if id = 2 then some ⟨2, chainOf [(2, 12)], 2, 2, [], []⟩ else linkedForkStore.chainsIndex id
    chainCounter := 2 }

/-- The store after `extendLinkedFork`. -/
def promotedShapedStore : Store :=
  ((dispatch treeHeader shapedForkStore extendLinkedFork).map Prod.fst).getD shapedForkStore

theorem run_extendShapedFork : Run treeHeader shapedForkStore [extendLinkedFork] promotedShapedStore :=
  .cons rfl (.nil _)

theorem chainsShape_shapedForkStore : ChainsShape shapedForkStore.chains :=
  ⟨rfl, by decide, rfl⟩

/-- The promotion unlinks chain 1 and links the main chain in again at position 2, over
  chain 2 at position 1. -/
theorem run_keeps_chains_shape_promotion :
    ∃ s', Run treeHeader shapedForkStore [extendLinkedFork] s' ∧ ChainsShape shapedForkStore.chains ∧
      s'.bestBlock = some (blockHashOf 14) ∧ s'.chains.entries = [(2, 0), (1, 2), (0, 0)] ∧
      ChainsShape s'.chains :=
  ⟨_, run_extendShapedFork, chainsShape_shapedForkStore, rfl, rfl,
    run_keeps_chains_shape treeHeader run_extendShapedFork chainsShape_shapedForkStore⟩

/-- The promotion raises `BestBlockHeight` from 2 to 4. -/
theorem run_never_lowers_best_height_promotion :
    ∃ s', Run treeHeader shapedForkStore [extendLinkedFork] s' ∧ ChainsShape shapedForkStore.chains ∧
      shapedForkStore.bestBlock.isSome ∧ BestAtMainTip shapedForkStore ∧
      shapedForkStore.bestBlockHeight = 2 ∧ s'.bestBlockHeight = 4 ∧
      shapedForkStore.bestBlockHeight ≤ s'.bestBlockHeight :=
  ⟨_, run_extendShapedFork, chainsShape_shapedForkStore, rfl, by rintro x ⟨⟩; exact ⟨rfl, rfl⟩, rfl,
    rfl, run_never_lowers_best_height treeHeader run_extendShapedFork chainsShape_shapedForkStore rfl
      (by rintro x ⟨⟩; exact ⟨rfl, rfl⟩)⟩

/-- The promotion files the displaced part of the main chain as chain 3, which `Chains` does
  not list. -/
theorem run_lists_no_new_chain_promotion :
    ∃ s', Run treeHeader shapedForkStore [extendLinkedFork] s' ∧ MainUnderOwnId shapedForkStore ∧
      (s'.chainsIndex 3).isSome ∧ 3 ∉ s'.chains.values ∧
      ∀ x ∈ s'.chains.values, x = mainChainId ∨ x ∈ shapedForkStore.chains.values :=
  ⟨_, run_extendShapedFork, rfl, rfl, by rw [show promotedShapedStore.chains.values = [0, 2, 0] from rfl]; decide,
    run_lists_no_new_chain treeHeader run_extendShapedFork rfl⟩

end BtcParachain.BtcRelay
