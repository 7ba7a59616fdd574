import BtcParachain.BtcRelay.HeaderTree
/-
  BtcParachain.BtcRelay.BestTip — the tip the relay reports: `BestBlock` has a header in
  `BlockHeaders`, filed at `BestBlockHeight`.

  `BestBlock` is the block the main chain lists at `BestBlockHeight` (`BestAtMainTip`). That
  block is filed at that height as long as every chain of `ChainsIndex` lists each block at
  the height its header is filed with (`ListedAt`). A reorganisation keeps this: it moves
  listings between chains at their heights (`listed_swapMainBlockchain`) and rewrites only
  `chain_ref`s. `store_block_header` lists the new block at the height it files it with,
  but it also files a header again under a hash that is already filed, and a chain may list
  that hash at the old height. With heights linked to parents (`Linked`) among headers
  where a hash names one parent, the header filed again keeps its height
  (`Linked.height_of_refiled`).

  Proved, over every run of calls from every state (`Run`):
  - `run_keeps_best_block_filed_at_height`: for a list of headers holding the stored ones and
    those the run submits, in which a hash names one parent and parents rank below
    children, from a state with `BestBlock` set at the main chain's tip, heights linked and
    every chain listing its blocks at their filed heights (`TipFiled`), every run keeps all
    of it, and `BestBlock`'s header stays filed at `BestBlockHeight`.
-/

namespace BtcParachain.BtcRelay

open Store

/-! ## Listings at their filed heights -/

/-- Every block a chain of `ChainsIndex` lists is filed at the height the chain lists it at. -/
def ListedAt (s : Store) : Prop :=
  ∀ k x, s.Listed k x → ∃ hdr, s.filed x = some (hdr, k)

theorem isSome_of_filed {s : Store} {x : H256} {v : BlockHeader × Nat} (hx : s.filed x = some v) :
    (s.blockHeaders x).isSome := by
  rw [← filed_isSome, hx]; rfl

namespace ListedAt

variable {s : Store}

theorem listedStored (hs : ListedAt s) : ListedStored s := fun id b hb k x hx =>
  let ⟨_, hf⟩ := hs k x ⟨id, b, hb, hx⟩
  isSome_of_filed hf

/-- A promotion over a fork that lists its blocks at their filed heights keeps `ListedAt`. -/
theorem swapMainBlockchain {s' : Store} {fork : BlockChain} (hs : ListedAt s)
    (hfork : ∀ k x, fork.chain.get k = some x → ∃ hdr, s.filed x = some (hdr, k))
    (h : swapMainBlockchain s fork = some (s', none)) : ListedAt s' := by
  have hf := (hs.listedStored.swapMainBlockchain
    (fun k x hx => let ⟨_, hf⟩ := hfork k x hx; isSome_of_filed hf) h).1
  intro k x hx
  rw [hf]
  rcases listed_swapMainBlockchain h hx with hfx | hx
  · exact hfork k x hfx
  · exact hs k x hx

theorem checkAndDoReorg {s' : Store} {fork : BlockChain} {e : Option Error} (hs : ListedAt s)
    (hfork : ∀ k x, fork.chain.get k = some x → ∃ hdr, s.filed x = some (hdr, k))
    (h : checkAndDoReorg s fork = some (s', e)) : ListedAt s' := by
  rcases checkAndDoReorg_cases h with ⟨chains, rfl⟩ | ⟨chains, rfl⟩ | ⟨-, chains, hswap⟩
  · exact hs
  · exact hs
  · exact @ListedAt.swapMainBlockchain { s with chains := chains } s' fork hs hfork hswap

end ListedAt

/-! ## Filing a header again -/

section

variable (parseBlockHeader : List UInt8 → BlockHeader) {hdrs : List BlockHeader} {depth : H256 → Nat}

/-- `store_block_header`'s writes keep `ListedAt`, and the chain `extend_blockchain` built
  lists its blocks at their filed heights. -/
theorem ListedAt.store {s : Store} {root : H256} (hs : ListedAt s)
    (hl : Linked hdrs depth s root) (hpar : HashesNameParents hdrs) (hdep : RanksParents depth hdrs)
    {bytes : List UInt8} (hb : parseBlockHeader bytes ∈ hdrs) {prev : RichBlockHeader} {b : BlockChain}
    (hprev : s.blockHeaders (parseBlockHeader bytes).hashPrevBlock = some prev)
    (hext : extendBlockchain (prev.blockHeight + 1) (parseBlockHeader bytes).blockHash
      (s.chainindex prev.chainRef) = .ok b) :
    ListedAt ((s.insertBlockHeader (parseBlockHeader bytes).blockHash
        ⟨parseBlockHeader bytes, prev.blockHeight + 1, b.chainId⟩).mutateChainsIndex b.chainId
          fun b => b) ∧
      ∀ k x, b.chain.get k = some x → ∃ hdr, ((s.insertBlockHeader (parseBlockHeader bytes).blockHash
        ⟨parseBlockHeader bytes, prev.blockHeight + 1, b.chainId⟩).mutateChainsIndex b.chainId
          fun b => b).filed x = some (hdr, k) := by
  -- a block listed before is filed at its height after, the new header included
  have hkeep : ∀ k x, s.Listed k x → ∃ hdr, (s.insertBlockHeader (parseBlockHeader bytes).blockHash
      ⟨parseBlockHeader bytes, prev.blockHeight + 1, b.chainId⟩).filed x = some (hdr, k) := by
    intro k x hx
    obtain ⟨hdr, hf⟩ := hs k x hx
    rw [filed_insertBlockHeader, Function.update_apply]
    split_ifs with hxy
    · subst hxy
      obtain ⟨hdr0, h0, he⟩ := Option.map_eq_some'.1 hf
      cases he
      rw [hl.height_of_refiled hpar hdep hb hprev h0]
      exact ⟨_, rfl⟩
    · exact ⟨hdr, hf⟩
  refine ⟨fun k x hx => hkeep k x (listed_mutateChainsIndex_id hx), fun k x hx => ?_⟩
  rw [extendBlockchain_get hext] at hx
  split_ifs at hx with hk
  · cases hx
    subst hk
    exact ⟨parseBlockHeader bytes, by simp⟩
  · exact hkeep k x (listed_of_chainindex hx)

/-! ## The reported tip -/

/-- What keeps the reported tip filed: `BestBlock` set at the main chain's tip, heights
  linked to parents from `root` among the headers `hdrs`, and every chain listing its
  blocks at their filed heights. -/
structure TipFiled (hdrs : List BlockHeader) (depth : H256 → Nat) (s : Store) (root : H256) : Prop where
  best : s.bestBlock.isSome
  atMainTip : BestAtMainTip s
  linked : Linked hdrs depth s root
  listedAt : ListedAt s

/-- `BestBlock`'s header is filed at `BestBlockHeight`. -/
theorem TipFiled.bestFiled {s : Store} {root : H256} (ht : TipFiled hdrs depth s root) :
    ∃ x hdr, s.bestBlock = some x ∧ s.filed x = some (hdr, s.bestBlockHeight) := by
  obtain ⟨x, hx⟩ := Option.isSome_iff_exists.1 ht.best
  obtain ⟨hdr, hf⟩ := ht.listedAt _ _ (listed_of_chainindex (ht.atMainTip x hx).1)
  exact ⟨x, hdr, hx, hf⟩

/-- One call submitting headers among `hdrs` keeps `TipFiled`: `initialize` fails on a set
  `BestBlock`, and the filed headers take a child step. -/
theorem TipFiled.dispatch (hpar : HashesNameParents hdrs) (hdep : RanksParents depth hdrs)
    {s s' : Store} {root : H256} {c : Call} {r : DispatchResult}
    (hc : ∀ b ∈ c.headerBytes, parseBlockHeader b ∈ hdrs)
    (ht : TipFiled hdrs depth s root) (h : dispatch parseBlockHeader s c = some (s', r)) :
    TipFiled hdrs depth s' root := by
  have hb := ht.best
  have hfs := (dispatch_fileStep parseBlockHeader ht.listedAt.listedStored h).2
  refine ⟨dispatch_bestBlock_isSome parseBlockHeader h hb, ht.atMainTip.dispatch parseBlockHeader h,
    ht.linked.fileStep parseBlockHeader hpar hdep hc
      (hfs.mono parseBlockHeader (fun _ hb => hb) fun hn => by rw [hn] at hb; cases hb), ?_⟩
  rcases dispatch_cases parseBlockHeader h with rfl | ⟨-, -, -, -, hn, -⟩ |
    ⟨_, bytes, prev, b, e, rfl, hprev, hext, he⟩ | ⟨x, hdr, -, rfl⟩
  · exact ht.listedAt
  · rw [hn] at hb; cases hb
  · obtain ⟨ha, hfork⟩ := ht.listedAt.store parseBlockHeader ht.linked hpar hdep
      (hc _ (List.mem_singleton_self _)) hprev hext
    exact ha.checkAndDoReorg hfork he
  · exact fun k x hx => ht.listedAt k x (listed_mutateChainsIndex_id hx)

/-- For a list of headers `hdrs` holding those a run submits, in which a hash names one
  parent and parents rank below children: over every run from a state with `BestBlock` set
  at the main chain's tip, heights linked to parents among `hdrs` and every chain listing
  its blocks at their filed heights, all of it holds again, and `BestBlock`'s header is
  filed at `BestBlockHeight`. -/
theorem run_keeps_best_block_filed_at_height (hpar : HashesNameParents hdrs)
    (hdep : RanksParents depth hdrs) {s s' : Store} {cs : List Call} (h : Run parseBlockHeader s cs s')
    (hsub : ∀ b ∈ submitted cs, parseBlockHeader b ∈ hdrs) {root : H256}
    (ht : TipFiled hdrs depth s root) :
    TipFiled hdrs depth s' root ∧
      ∃ x hdr, s'.bestBlock = some x ∧ s'.filed x = some (hdr, s'.bestBlockHeight) := by
  induction h with
  | nil => exact ⟨ht, ht.bestFiled⟩
  | cons hstep _ ih =>
    exact ih (fun b hb => hsub b (List.mem_append_right _ hb))
      (ht.dispatch parseBlockHeader hpar hdep (fun b hb => hsub b (List.mem_append_left _ hb)) hstep)

end

/-! ## The promotion of `HeaderTree`'s example -/

theorem listedAt_linkedForkStore : ListedAt linkedForkStore := by
  rintro k x ⟨id, b, hb, hx⟩
  have hmem := mem_of_lookup_eq_some hx
  simp only [linkedForkStore] at hb
  split_ifs at hb <;> cases hb
  · have : (chainOf [(0, 1), (1, 2), (2, 3)]).entries =
        [(0, blockHashOf 1), (1, blockHashOf 2), (2, blockHashOf 3)] := rfl
    simp only [this, List.mem_cons, Prod.mk.injEq, List.not_mem_nil, or_false] at hmem
    rcases hmem with ⟨rfl, rfl⟩ | ⟨rfl, rfl⟩ | ⟨rfl, rfl⟩ <;> exact ⟨_, rfl⟩
  · have : (chainOf [(2, 12), (3, 13)]).entries = [(2, blockHashOf 12), (3, blockHashOf 13)] := rfl
    simp only [this, List.mem_cons, Prod.mk.injEq, List.not_mem_nil, or_false] at hmem
    rcases hmem with ⟨rfl, rfl⟩ | ⟨rfl, rfl⟩ <;> exact ⟨_, rfl⟩

theorem tipFiled_linkedForkStore : TipFiled linkedHeaders firstByte linkedForkStore (blockHashOf 1) :=
  ⟨rfl, by rintro x ⟨⟩; exact ⟨rfl, rfl⟩, linked_linkedForkStore, listedAt_linkedForkStore⟩

/-- Block 14 promotes chain 1; its header is filed at the new `BestBlockHeight`, 4. -/
theorem run_keeps_best_block_filed_at_height_promotion :
    HashesNameParents linkedHeaders ∧ RanksParents firstByte linkedHeaders ∧
    ∃ s', Run treeHeader linkedForkStore [extendLinkedFork] s' ∧
      (∀ b ∈ submitted [extendLinkedFork], treeHeader b ∈ linkedHeaders) ∧
      TipFiled linkedHeaders firstByte linkedForkStore (blockHashOf 1) ∧
      s'.bestBlock = some (blockHashOf 14) ∧ s'.bestBlockHeight = 4 ∧
      TipFiled linkedHeaders firstByte s' (blockHashOf 1) ∧
      ∃ x hdr, s'.bestBlock = some x ∧ s'.filed x = some (hdr, s'.bestBlockHeight) :=
  ⟨hashesNameParents_linkedHeaders, ranksParents_linkedHeaders, _, run_extendLinkedFork,
    treeHeader_submitted_mem, tipFiled_linkedForkStore, rfl, rfl,
    run_keeps_best_block_filed_at_height treeHeader hashesNameParents_linkedHeaders
      ranksParents_linkedHeaders run_extendLinkedFork treeHeader_submitted_mem tipFiled_linkedForkStore⟩

end BtcParachain.BtcRelay
