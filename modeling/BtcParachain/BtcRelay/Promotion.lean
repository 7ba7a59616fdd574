import BtcParachain.BtcRelay.Reorg
/-
  BtcParachain.BtcRelay.Promotion — what `check_and_do_reorg` leaves of the main chain when
  it promotes a fork, and what it leaves of the store when it fails.

  `check_and_do_reorg` either returns at once, or swaps `Chains` entries and stops, or
  calls `swap_main_blockchain` on a store whose `Chains` it has swapped
  (`checkAndDoReorg_eq_some`). A promotion joins the main chain's map below the fork's
  start height with the fork's map and keeps every stored block header
  (`swapMainBlockchain_main`); nothing checks where the fork branches off. A failing
  `swap_main_blockchain` has already moved `ChainCounter` unless the counter itself
  overflowed (`swapMainBlockchain_eq_some_some`).

  Proved:
  - `promotion_keeps_main_chain_linked`: when the main chain and the fork each cover
    their heights and are hash-linked, and the fork branches off the main chain (its first
    block's parent is the main chain's block one below the fork's start), the main chain
    after `check_and_do_reorg` again covers its heights and is hash-linked.
  - `promotion_splices_fork_of_fork`: without the last condition it fails: a fork that
    branches off another fork is spliced onto the main chain above a block that is not
    its first block's parent.
  - `failed_reorg_moves_counter_and_is_dropped`: every `HeaderNotFound` or
    `ForkIdNotFound` exit of `swap_main_blockchain` leaves `ChainCounter` one higher;
    `check_and_do_reorg` reaches one; and `store_block_header` never returns an error
    of the reorg.
-/

namespace BtcParachain.BtcRelay

open Store

/-! ## Chains as paths of headers -/

/-- A chain's map holds exactly the heights from its start height to its max height. -/
def Covers (b : BlockChain) : Prop :=
  ∀ k, (b.chain.get k).isSome ↔ b.startHeight ≤ k ∧ k ≤ b.maxHeight

/-- Each block of a chain one above another names that block as its parent. -/
def HashLinked (s : Store) (b : BlockChain) : Prop :=
  ∀ k x y, b.chain.get k = some x → b.chain.get (k + 1) = some y →
    ∃ hdr, s.blockHeaders y = some hdr ∧ hdr.blockHeader.hashPrevBlock = x

/-- The fork's first block is stored, and its parent is the main chain's block one below
  the fork's start height. -/
def BranchesOff (s : Store) (mainChain fork : BlockChain) : Prop :=
  ∃ x hdr, fork.chain.get fork.startHeight = some x ∧ s.blockHeaders x = some hdr ∧
    mainChain.chain.get (fork.startHeight - 1) = some hdr.blockHeader.hashPrevBlock

/-- Every header stored in `s` is stored in `s'` with the same block header; its height
  and `chain_ref` may differ. -/
def HeadersKept (s s' : Store) : Prop :=
  ∀ x hdr, s.blockHeaders x = some hdr →
    ∃ hdr', s'.blockHeaders x = some hdr' ∧ hdr'.blockHeader = hdr.blockHeader

theorem HeadersKept.trans {s s' s'' : Store} (h1 : HeadersKept s s') (h2 : HeadersKept s' s'') :
    HeadersKept s s'' := fun x hdr hx =>
  let ⟨hdr', hx', he⟩ := h1 x hdr hx
  let ⟨hdr'', hx'', he'⟩ := h2 x hdr' hx'
  ⟨hdr'', hx'', he'.trans he⟩

theorem reparent_headersKept (s : Store) (chain : BTreeMap H256) (id : Nat) :
    HeadersKept s (reparent s chain id) := by
  intro x hdr hx
  rw [reparent_blockHeaders]
  split_ifs
  · exact ⟨_, rfl, by simp [blockheader, hx]⟩
  · exact ⟨hdr, hx, rfl⟩

theorem HashLinked.of_headersKept {s s' : Store} {b : BlockChain} (hl : HashLinked s b)
    (hk : HeadersKept s s') : HashLinked s' b := by
  intro k x y hx hy
  obtain ⟨hdr, hs, hp⟩ := hl k x y hx hy
  obtain ⟨hdr', hs', he⟩ := hk y hdr hs
  exact ⟨hdr', hs', he ▸ hp⟩

/-- The main chain after a promotion reads the fork from the fork's start height on and
  the old main chain below it. -/
theorem get_appendFork {mainChain fork : BlockChain} (hfcov : Covers fork) (k : Nat) :
    (appendFork mainChain fork).chain.get k =
      if fork.startHeight ≤ k then fork.chain.get k else mainChain.chain.get k := by
  simp only [appendFork, BTreeMap.get_append, BTreeMap.get_splitOff_fst]
  split_ifs with h1 h2
  · omega
  · have hnone : fork.chain.get k = none := by
      cases hk : fork.chain.get k
      · rfl
      · have := (hfcov k).1 (by simp [hk])
        omega
    rw [hnone, Option.none_or]
  · exact Option.or_none
  · omega

theorem covers_appendFork {mainChain fork : BlockChain} (hcov : Covers mainChain)
    (hfcov : Covers fork) (hbelow : (mainChain.chain.get (fork.startHeight - 1)).isSome)
    (hfirst : (fork.chain.get fork.startHeight).isSome) : Covers (appendFork mainChain fork) := by
  have hm := (hcov _).1 hbelow
  have hf := (hfcov _).1 hfirst
  intro k
  rw [get_appendFork hfcov]
  show _ ↔ mainChain.startHeight ≤ k ∧ k ≤ fork.maxHeight
  split_ifs with hk
  · rw [hfcov k]
    omega
  · rw [hcov k]
    omega

/-- Joining a fork that branches off the main chain keeps the main chain hash-linked:
  the only new link is the fork's first block over its parent. -/
theorem hashLinked_appendFork {s : Store} {mainChain fork : BlockChain}
    (hlink : HashLinked s mainChain) (hflink : HashLinked s fork) (hfcov : Covers fork)
    (hbranch : BranchesOff s mainChain fork) : HashLinked s (appendFork mainChain fork) := by
  intro k x y hx hy
  rw [get_appendFork hfcov] at hx hy
  by_cases h1 : fork.startHeight ≤ k
  · rw [if_pos h1] at hx
    rw [if_pos (Nat.le_succ_of_le h1)] at hy
    exact hflink k x y hx hy
  rw [if_neg h1] at hx
  by_cases h2 : fork.startHeight ≤ k + 1
  · -- the junction: `y` is the fork's first block
    rw [if_pos h2] at hy
    obtain ⟨x0, hdr, hx0, hs, hp⟩ := hbranch
    rw [show k + 1 = fork.startHeight by omega, hx0] at hy
    rw [show fork.startHeight - 1 = k by omega, hx] at hp
    cases hy
    exact ⟨hdr, hs, (Option.some.inj hp).symm⟩
  · rw [if_neg h2] at hy
    exact hlink k x y hx hy

/-! ## What `swap_main_blockchain` and `check_and_do_reorg` can do -/

theorem incrementChainCounter_eq_error {s s' : Store} {e : Error}
    (h : incrementChainCounter s = (s', .error e)) : s' = s ∧ e = .chainCounterOverflow := by
  unfold incrementChainCounter at h
  split at h <;> cases h
  exact ⟨rfl, rfl⟩

theorem incrementChainCounter_eq_ok_state {s s' : Store} {chainId : Nat}
    (h : incrementChainCounter s = (s', .ok chainId)) :
    s' = { s with chainCounter := s.chainCounter + 1 } := by
  unfold incrementChainCounter at h
  split at h
  · cases h
  · rename_i n hn
    cases h
    rw [(checkedAdd_eq_some.1 hn).2]

/-- A promotion that returns `None` stores the main chain joined with the fork under id 0
  and keeps every stored block header. -/
theorem swapMainBlockchain_main {s s' : Store} {fork : BlockChain} (hfork : fork.chainId ≠ mainChainId)
    (h : swapMainBlockchain s fork = some (s', none)) :
    s'.chainsIndex mainChainId = some (appendFork (s.chainindex mainChainId) fork) ∧
      HeadersKept s s' := by
  obtain ⟨s1, hb1, hi1, rfl⟩ := swapMainBlockchain_eq_some_none h
  have h0 : (0 : Nat) ≠ fork.chainId := fun h => hfork h.symm
  refine ⟨by simp [hi1, Function.update_apply, h0, mainChainId], ?_⟩
  have hk1 : HeadersKept s s1 := fun x hdr hx => ⟨hdr, hb1 ▸ hx, rfl⟩
  exact (hk1.trans (reparent_headersKept _ _ _)).trans (reparent_headersKept _ _ _)

/-- The exits of `swap_main_blockchain` that return an error: the counter overflow
  before any write, or `HeaderNotFound` and `ForkIdNotFound` after `ChainCounter` moved. -/
theorem swapMainBlockchain_eq_some_some {s s' : Store} {fork : BlockChain} {e : Error}
    (h : swapMainBlockchain s fork = some (s', some e)) :
    (e = .chainCounterOverflow ∧ s' = s) ∨
      ((e = .headerNotFound ∨ e = .forkIdNotFound) ∧
        s' = { s with chainCounter := s.chainCounter + 1 }) := by
  unfold swapMainBlockchain at h
  split at h
  · rename_i s0 err hc
    obtain ⟨rfl, rfl⟩ := incrementChainCounter_eq_error hc
    cases h
    exact .inl ⟨rfl, rfl⟩
  · rename_i s0 chainId hc
    have hs0 := incrementChainCounter_eq_ok_state hc
    dsimp only at h
    split at h
    · cases h
      exact .inr ⟨.inl rfl, hs0⟩
    · split at h
      · cases h
        exact .inr ⟨.inr rfl, hs0⟩
      · split at h <;> cases h

/-- The loop of `check_and_do_reorg` swaps `Chains` entries, then stops or calls
  `swap_main_blockchain`. -/
theorem reorgLoop_eq_some {fork : BlockChain} :
    ∀ {pos height : Nat} {s s' : Store} {r : Option Error},
      reorgLoop fork pos height s = some (s', r) →
      ∃ chains : LinkedMap, (r = none ∧ s' = { s with chains := chains }) ∨
        swapMainBlockchain { s with chains := chains } fork = some (s', r)
  | 0, _, s, _, _, h => by
    simp only [reorgLoop, Option.some.injEq, Prod.mk.injEq] at h
    obtain ⟨rfl, rfl⟩ := h
    exact ⟨s.chains, .inl ⟨rfl, rfl⟩⟩
  | pos + 1, height, s, s', r, h => by
    dsimp only [reorgLoop] at h
    split_ifs at h
    · exact ⟨s.chains, .inr h⟩
    · obtain ⟨chains, hc⟩ := reorgLoop_eq_some h
      exact ⟨chains, hc⟩
    · cases h
      exact ⟨s.chains, .inl ⟨rfl, rfl⟩⟩

/-- `check_and_do_reorg` returns at once (on the main chain, or `ForkIdNotFound` when the
  fork is not listed), or runs its loop. -/
theorem checkAndDoReorg_eq_some {s s' : Store} {fork : BlockChain} {r : Option Error}
    (h : checkAndDoReorg s fork = some (s', r)) :
    (s' = s ∧ (r = none ∨ r = some .forkIdNotFound)) ∨
      fork.chainId ≠ mainChainId ∧ ∃ chains : LinkedMap,
        (r = none ∧ s' = { s with chains := chains }) ∨
          swapMainBlockchain { s with chains := chains } fork = some (s', r) := by
  unfold checkAndDoReorg at h
  split_ifs at h with h0
  · cases h
    exact .inl ⟨rfl, .inl rfl⟩
  · split at h
    · cases h
      exact .inl ⟨rfl, .inr rfl⟩
    · exact .inr ⟨h0, reorgLoop_eq_some h⟩

/-! ## Promotion -/

section

variable {s s' : Store} {mainChain fork : BlockChain}

/-- A promotion keeps the main chain a gap-free hash-linked path when the fork branches
  off it: if the main chain and the fork each cover their heights and are hash-linked,
  and the fork's first block is stored with the main chain's block one below the fork's
  start as its parent, the main chain `check_and_do_reorg` leaves covers its heights and
  is hash-linked. -/
theorem promotion_keeps_main_chain_linked (hmain : s.chainsIndex mainChainId = some mainChain)
    (hcov : Covers mainChain) (hlink : HashLinked s mainChain) (hfcov : Covers fork)
    (hflink : HashLinked s fork) (hbranch : BranchesOff s mainChain fork)
    (h : checkAndDoReorg s fork = some (s', none)) :
    Covers (s'.chainindex mainChainId) ∧ HashLinked s' (s'.chainindex mainChainId) := by
  have hm : s.chainindex mainChainId = mainChain := by simp [chainindex, hmain]
  rcases checkAndDoReorg_eq_some h with ⟨rfl, -⟩ | ⟨hfork, chains, ⟨-, rfl⟩ | hswap⟩
  · rw [hm]
    exact ⟨hcov, hlink⟩
  · show Covers (s.chainindex mainChainId) ∧ HashLinked s (s.chainindex mainChainId)
    rw [hm]
    exact ⟨hcov, hlink⟩
  · obtain ⟨h0, hk⟩ := swapMainBlockchain_main hfork hswap
    have hm' : s'.chainindex mainChainId = appendFork mainChain fork := by
      rw [chainindex, h0]
      exact congrArg (appendFork · fork) hm
    obtain ⟨x, hdr, hx, hs, hp⟩ := hbranch
    rw [hm']
    exact ⟨covers_appendFork hcov hfcov (by simp [hp]) (by simp [hx]),
      (hashLinked_appendFork hlink hflink hfcov ⟨x, hdr, hx, hs, hp⟩).of_headersKept hk⟩

end

/-! ## A tree of forks -/

/-- A stored header: block `n`, child of block `parent`, at `height` on chain `chainRef`. -/
def headerOf (n parent : UInt8) (height chainRef : Nat) : RichBlockHeader :=
  ⟨⟨default, blockHashOf parent, blockHashOf n⟩, height, chainRef⟩

/-- `BlockHeaders` holding a list of headers, each under its own hash. -/
def headersOf (headers : List RichBlockHeader) (x : H256) : Option RichBlockHeader :=
  headers.find? (·.blockHeader.blockHash = x)

/-- The main chain: blocks 0 and 1 at heights 0 and 1. -/
def treeMain : BlockChain := ⟨mainChainId, chainOf [(0, 0), (1, 1)], 0, 1, [], []⟩

/-- Chain 1, off the main chain: blocks 11 and 12 at heights 1 and 2, block 11 a child of
  block 0. -/
def treeFork : BlockChain := ⟨1, chainOf [(1, 11), (2, 12)], 1, 2, [], []⟩

/-- Chain 2, off chain 1: blocks 22 and 23 at heights 2 and 3, block 22 a child of
  block 11. -/
def forkOfFork : BlockChain := ⟨2, chainOf [(2, 22), (3, 23)], 2, 3, [], []⟩

/-- The three chains and their six headers, with `Chains` given. -/
def forkTreeStore (chains : LinkedMap) : Store :=
  ⟨headersOf [headerOf 0 99 0 0, headerOf 1 0 1 0, headerOf 11 0 1 1, headerOf 12 11 2 1,
      headerOf 22 11 2 2, headerOf 23 22 3 2],
    chains,
    fun id => if id = 0 then some treeMain else if id = 1 then some treeFork
      else if id = 2 then some forkOfFork else none,
    some (blockHashOf 1), 1, 2⟩

/-- `Chains` with chain 2 second in `enumerate` order. -/
def forkOfForkSecond : LinkedMap := ⟨[(1, 1), (2, 2), (0, 0)], by decide⟩

/-- `Chains` with chain 1 second in `enumerate` order. -/
def treeForkSecond : LinkedMap := ⟨[(2, 2), (1, 1), (0, 0)], by decide⟩

theorem covers_pair (id k : Nat) (a c : UInt8) :
    Covers ⟨id, chainOf [(k, a), (k + 1, c)], k, k + 1, [], []⟩ := by
  intro j
  simp only [chainOf, BTreeMap.get_insert, BTreeMap.get_empty]
  split_ifs <;> simp <;> omega

/-- A chain of two blocks is hash-linked when the upper one's stored header names the
  lower one. -/
theorem hashLinked_pair {s : Store} (id k : Nat) (a c : UInt8) {hdr : RichBlockHeader}
    (hs : s.blockHeaders (blockHashOf c) = some hdr) (hp : hdr.blockHeader.hashPrevBlock = blockHashOf a) :
    HashLinked s ⟨id, chainOf [(k, a), (k + 1, c)], k, k + 1, [], []⟩ := by
  intro j x y hx hy
  simp only [chainOf, BTreeMap.get_insert, BTreeMap.get_empty] at hx hy
  split_ifs at hx hy <;> first | omega | (cases hx; cases hy; exact ⟨hdr, hs, hp⟩)

/-- Promoting chain 1, which branches off the main chain, keeps the main chain linked;
  the promotion happens (the main chain reaches height 2). -/
theorem promotion_keeps_main_chain_linked_tree_fork :
    (forkTreeStore treeForkSecond).chainsIndex mainChainId = some treeMain ∧ Covers treeMain ∧
      HashLinked (forkTreeStore treeForkSecond) treeMain ∧ Covers treeFork ∧
      HashLinked (forkTreeStore treeForkSecond) treeFork ∧
      BranchesOff (forkTreeStore treeForkSecond) treeMain treeFork ∧
      ∃ s', checkAndDoReorg (forkTreeStore treeForkSecond) treeFork = some (s', none) ∧
        (s'.chainindex mainChainId).maxHeight = treeFork.maxHeight ∧
        Covers (s'.chainindex mainChainId) ∧ HashLinked s' (s'.chainindex mainChainId) := by
  have hmain : HashLinked (forkTreeStore treeForkSecond) treeMain := hashLinked_pair 0 0 0 1 rfl rfl
  have hfork : HashLinked (forkTreeStore treeForkSecond) treeFork := hashLinked_pair 1 1 11 12 rfl rfl
  have hbranch : BranchesOff (forkTreeStore treeForkSecond) treeMain treeFork :=
    ⟨blockHashOf 11, headerOf 11 0 1 1, rfl, rfl, rfl⟩
  obtain ⟨s', h, hmax⟩ : ∃ s', checkAndDoReorg (forkTreeStore treeForkSecond) treeFork = some (s', none) ∧
      (s'.chainindex mainChainId).maxHeight = treeFork.maxHeight := ⟨_, rfl, rfl⟩
  exact ⟨rfl, covers_pair 0 0 0 1, hmain, covers_pair 1 1 11 12, hfork, hbranch, s', h, hmax,
    promotion_keeps_main_chain_linked rfl (covers_pair 0 0 0 1) hmain (covers_pair 1 1 11 12) hfork
      hbranch h⟩

/-- Promotion splices a fork of a fork: every chain covers its heights and is
  hash-linked, and the first block of every fork has a stored parent, but promoting chain
  2 puts block 22, a child of block 11, above block 1 on the main chain. -/
theorem promotion_splices_fork_of_fork :
    (∀ id b, (forkTreeStore forkOfForkSecond).chainsIndex id = some b →
      Covers b ∧ HashLinked (forkTreeStore forkOfForkSecond) b) ∧
    (∀ id b x, id ≠ mainChainId → (forkTreeStore forkOfForkSecond).chainsIndex id = some b →
      b.chain.get b.startHeight = some x → ∃ hdr p,
        (forkTreeStore forkOfForkSecond).blockHeaders x = some hdr ∧
        (forkTreeStore forkOfForkSecond).blockHeaders hdr.blockHeader.hashPrevBlock = some p) ∧
    ∃ s', checkAndDoReorg (forkTreeStore forkOfForkSecond) forkOfFork = some (s', none) ∧
      (s'.chainindex mainChainId).maxHeight = forkOfFork.maxHeight ∧
      ¬ HashLinked s' (s'.chainindex mainChainId) := by
  refine ⟨fun id b hb => ?_, fun id b x hid hb hx => ?_, ?_⟩
  · simp only [forkTreeStore] at hb
    split_ifs at hb <;> cases hb
    · exact ⟨covers_pair 0 0 0 1, hashLinked_pair 0 0 0 1 rfl rfl⟩
    · exact ⟨covers_pair 1 1 11 12, hashLinked_pair 1 1 11 12 rfl rfl⟩
    · exact ⟨covers_pair 2 2 22 23, hashLinked_pair 2 2 22 23 rfl rfl⟩
  · simp only [forkTreeStore] at hb
    split_ifs at hb <;> cases hb <;> cases hx
    · exact (hid ‹_›).elim
    · exact ⟨_, _, rfl, rfl⟩
    · exact ⟨_, _, rfl, rfl⟩
  · obtain ⟨s', h, hmax, h1, h2, hprev⟩ : ∃ s',
        checkAndDoReorg (forkTreeStore forkOfForkSecond) forkOfFork = some (s', none) ∧
        (s'.chainindex mainChainId).maxHeight = forkOfFork.maxHeight ∧
        (s'.chainindex mainChainId).chain.get 1 = some (blockHashOf 1) ∧
        (s'.chainindex mainChainId).chain.get 2 = some (blockHashOf 22) ∧
        (s'.blockHeaders (blockHashOf 22)).map (·.blockHeader.hashPrevBlock) = some (blockHashOf 11) :=
      ⟨_, rfl, rfl, rfl, rfl, rfl⟩
    refine ⟨s', h, hmax, fun hl => ?_⟩
    obtain ⟨hdr, hs, hp⟩ := hl 1 _ _ h1 h2
    rw [hs, Option.map_some', Option.some.injEq] at hprev
    exact absurd (hprev.symm.trans hp) (by decide)

/-! ## Failed reorganisations -/

/-- A fork whose `max_height` (5) is above its last block (3). -/
def overlongFork : BlockChain := { forkOfFork with maxHeight := 5 }

/-- A failed reorganisation is partly applied and then ignored: every `HeaderNotFound` or
  `ForkIdNotFound` exit of `swap_main_blockchain` leaves `ChainCounter` one higher than
  before; `check_and_do_reorg` on a listed fork whose map stops below its max height
  reaches such an exit; and `store_block_header` returns no error but `PrevBlock`,
  `BlockHeightOverflow` and `DuplicateBlock`, whatever its reorg step returns. -/
theorem failed_reorg_moves_counter_and_is_dropped :
    (∀ (s s' : Store) (fork : BlockChain) (e : Error),
      swapMainBlockchain s fork = some (s', some e) → e ≠ .chainCounterOverflow →
        s'.chainCounter = s.chainCounter + 1) ∧
    (∃ s', checkAndDoReorg (forkTreeStore forkOfForkSecond) overlongFork = some (s', some .headerNotFound) ∧
      s'.chainCounter ≠ (forkTreeStore forkOfForkSecond).chainCounter) ∧
    ∀ (parseBlockHeader : List UInt8 → BlockHeader) (s s' : Store) (who : Nat) (bytes : List UInt8)
      (e : DispatchError), storeBlockHeader parseBlockHeader s (.signed who) bytes = some (s', .error e) →
      e = .module .prevBlock ∨ e = .module .blockHeightOverflow ∨ e = .module .duplicateBlock := by
  refine ⟨fun s s' fork e h he => ?_, ⟨_, rfl, by decide⟩, fun parseBlockHeader s s' who bytes e h => ?_⟩
  · rcases swapMainBlockchain_eq_some_some h with ⟨rfl, -⟩ | ⟨-, rfl⟩
    · exact absurd rfl he
    · rfl
  · obtain ⟨-, ⟨hbad, -⟩ | he⟩ := storeBlockHeader_error parseBlockHeader h
    · exact absurd rfl (hbad who)
    · exact he

end BtcParachain.BtcRelay
