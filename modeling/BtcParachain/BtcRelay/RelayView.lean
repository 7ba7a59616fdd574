import BtcParachain.BtcRelay.BestTip
import BtcParachain.BtcRelay.ForkChoice
/-
  BtcParachain.BtcRelay.RelayView — the relay as a client reads it, and that every run of the
  pallet moves it only as a header relay may move.

  A client reads the filed headers (`Store.filed`) and the best block with its height
  (`BestBlock`, `BestBlockHeight`); `RelayView` is that pair. `ViewStep` says what one call
  may do to it once a best block is set: file a header one above its filed parent, and keep
  the best block or move it to a filed header strictly higher than the old one. The second
  half is the relay's fork choice: no call moves the tip sideways, to a branch as high as the
  main chain, or down. On the pallet's side the best block moves only in a promotion, which
  sets `BestBlockHeight` to the fork's `max_height`, above the main chain's
  (`dispatch_chainsShape`), and the new tip is filed at that height (`TipFiled`).

  Proved, over every run of calls from every state (`Run`):
  - `run_refines_relay_view`: for a list of headers holding the stored ones and those the
    run submits, in which a hash names one parent and parents rank below children, from a
    state with the reported tip filed (`TipFiled`) and `Chains` in its kept shape
    (`ChainsShape`), the view moves by `ViewStep`s that file only submitted headers.
-/

namespace BtcParachain.BtcRelay

open Store

/-- The relay as a client reads it: the filed headers, and the best block with its height. -/
structure RelayView where
  filed : H256 → Option (BlockHeader × Nat)
  best : Option (H256 × Nat)

/-- The view of a store. -/
def Store.view (s : Store) : RelayView :=
  ⟨s.filed, s.bestBlock.map fun x => (x, s.bestBlockHeight)⟩

section

variable (parseBlockHeader : List UInt8 → BlockHeader) (bs : List (List UInt8))

/-- What one call may do to the view once a best block is set: file a header of the
  submitted byte strings `bs` one above its filed parent, and keep the best block (`keep`)
  or move it to a filed header strictly higher than the old one (`climb`). -/
inductive ViewStep : RelayView → RelayView → Prop
  | keep {f f' : H256 → Option (BlockHeader × Nat)} (b : Option (H256 × Nat)) :
      FileStep parseBlockHeader bs False f f' → ViewStep ⟨f, b⟩ ⟨f', b⟩
  | climb {f f' : H256 → Option (BlockHeader × Nat)} (x y : H256) (k h : Nat) (hdr : BlockHeader) :
      FileStep parseBlockHeader bs False f f' → f' y = some (hdr, h) → k < h →
      ViewStep ⟨f, some (x, k)⟩ ⟨f', some (y, h)⟩

variable {bs} {hdrs : List BlockHeader} {depth : H256 → Nat}

/-- One call submitting headers among `hdrs` from a state with the reported tip filed and
  `Chains` in shape is one `ViewStep`: the best block is kept with its height, or it moves
  in a promotion to the fork's tip, filed above the main chain's `max_height`. -/
theorem dispatch_viewStep (hpar : HashesNameParents hdrs) (hdep : RanksParents depth hdrs)
    {s s' : Store} {c : Call} {r : DispatchResult} {root : H256}
    (hcs : ∀ b ∈ c.headerBytes, parseBlockHeader b ∈ hdrs)
    (ht : TipFiled hdrs depth s root) (hc : ChainsShape s.chains)
    (h : dispatch parseBlockHeader s c = some (s', r)) :
    ViewStep parseBlockHeader c.headerBytes s.view s'.view := by
  obtain ⟨x, hx⟩ := Option.isSome_iff_exists.1 ht.best
  have hfs : FileStep parseBlockHeader c.headerBytes False s.filed s'.filed :=
    (dispatch_fileStep parseBlockHeader ht.listedAt.listedStored h).2.mono parseBlockHeader
      (fun _ hb => hb) fun hn => by rw [hn] at hx; cases hx
  rcases (dispatch_chainsShape parseBlockHeader hc h).2 with hn | ⟨hbb, hbh⟩ | hlt
  · rw [hn] at hx; cases hx
  · rw [Store.view, Store.view, hbb, hbh]
    exact .keep _ hfs
  · obtain ⟨y, hdr, hy, hf⟩ := (ht.dispatch parseBlockHeader hpar hdep hcs h).bestFiled
    rw [(ht.atMainTip x hx).2] at hlt
    rw [Store.view, Store.view, hx, hy]
    exact .climb x y _ _ hdr hfs hf hlt

theorem ViewStep.mono {bs bs' : List (List UInt8)} (hbs : ∀ b ∈ bs, b ∈ bs') {v v' : RelayView}
    (h : ViewStep parseBlockHeader bs v v') : ViewStep parseBlockHeader bs' v v' := by
  cases h with
  | keep b hf => exact .keep b (hf.mono parseBlockHeader hbs id)
  | climb x y k h' hdr hf hy hk => exact .climb x y k h' hdr (hf.mono parseBlockHeader hbs id) hy hk

/-- For a list of headers `hdrs` holding those a run submits, in which a hash names one
  parent and parents rank below children: over every run from a state with the reported tip
  filed and `Chains` in shape, the view moves by `ViewStep`s. Every header filed is one the
  run submits, filed one above its filed parent, and the best block is kept or moves to a
  filed header strictly higher. -/
theorem run_refines_relay_view (hpar : HashesNameParents hdrs) (hdep : RanksParents depth hdrs)
    {s s' : Store} {cs : List Call} (h : Run parseBlockHeader s cs s')
    (hsub : ∀ b ∈ submitted cs, parseBlockHeader b ∈ hdrs) {root : H256}
    (ht : TipFiled hdrs depth s root) (hc : ChainsShape s.chains) :
    Relation.ReflTransGen (ViewStep parseBlockHeader (submitted cs)) s.view s'.view := by
  induction h with
  | nil => exact .refl
  | cons hstep _ ih =>
    have hcs := fun b hb => hsub b (List.mem_append_left _ hb)
    exact .head ((dispatch_viewStep parseBlockHeader hpar hdep hcs ht hc hstep).mono parseBlockHeader
        fun _ hb => List.mem_append_left _ hb)
      ((ih (fun b hb => hsub b (List.mem_append_right _ hb)) (ht.dispatch parseBlockHeader hpar hdep hcs hstep)
          (dispatch_chainsShape parseBlockHeader hc hstep).1).mono
        fun _ _ => ViewStep.mono parseBlockHeader fun _ hb => List.mem_append_right _ hb)

end

/-! ## The promotion of `ForkChoice`'s example -/

theorem tipFiled_shapedForkStore : TipFiled linkedHeaders firstByte shapedForkStore (blockHashOf 1) := by
  refine ⟨rfl, by rintro x ⟨⟩; exact ⟨rfl, rfl⟩, linked_linkedForkStore.of_filed rfl, ?_⟩
  rintro k x ⟨id, b, hb, hx⟩
  simp only [shapedForkStore] at hb
  split_ifs at hb
  · cases hb
    have hmem := mem_of_lookup_eq_some hx
    have : (chainOf [(2, 12)]).entries = [(2, blockHashOf 12)] := rfl
    simp only [this, List.mem_singleton, Prod.mk.injEq] at hmem
    obtain ⟨rfl, rfl⟩ := hmem
    exact ⟨_, rfl⟩
  · exact listedAt_linkedForkStore k x ⟨id, b, hb, hx⟩

/-- Block 14 moves the best block from block 3 at height 2 to block 14 at height 4. -/
theorem run_refines_relay_view_promotion :
    HashesNameParents linkedHeaders ∧ RanksParents firstByte linkedHeaders ∧
    ∃ s', Run treeHeader shapedForkStore [extendLinkedFork] s' ∧
      (∀ b ∈ submitted [extendLinkedFork], treeHeader b ∈ linkedHeaders) ∧
      TipFiled linkedHeaders firstByte shapedForkStore (blockHashOf 1) ∧ ChainsShape shapedForkStore.chains ∧
      shapedForkStore.view.best = some (blockHashOf 3, 2) ∧ s'.view.best = some (blockHashOf 14, 4) ∧
      Relation.ReflTransGen (ViewStep treeHeader (submitted [extendLinkedFork])) shapedForkStore.view
        s'.view :=
  ⟨hashesNameParents_linkedHeaders, ranksParents_linkedHeaders, _, run_extendShapedFork,
    treeHeader_submitted_mem, tipFiled_shapedForkStore, chainsShape_shapedForkStore, rfl, rfl,
    run_refines_relay_view treeHeader hashesNameParents_linkedHeaders ranksParents_linkedHeaders
      run_extendShapedFork treeHeader_submitted_mem tipFiled_shapedForkStore chainsShape_shapedForkStore⟩

end BtcParachain.BtcRelay
