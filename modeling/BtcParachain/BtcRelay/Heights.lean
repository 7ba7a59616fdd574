import BtcParachain.BtcRelay.Runs
/-
  BtcParachain.BtcRelay.Heights — block heights follow parent links, as long as the headers
  a run submits behave as the code assumes of SHA-256d hashes.

  `store_block_header` stores a header under its hash at its parent's height plus one,
  overwriting whatever the hash held. Nothing checks that the entry it overwrites had the
  same parent, nor that the parent is not the header itself or one of its descendants:
  the code takes the header hash to name the header. `LinkedHashes` states that much of a
  list of headers, and of it only: among them a hash names one parent
  (`HashesNameParents`), and parents rank strictly below their children under some `depth`
  (`RanksParents`), as block heights rank any set of real headers without a hash
  collision. For the headers a run submits, every stored entry is `LinkedEntry` (its
  header is one of them, filed under its own hash, ranked no lower than the genesis block,
  and, unless it is the genesis block, one above a stored parent); `run_linked` carries it
  over every run from empty storage.

  Proved:
  - `heights_follow_parents`: in every state a run from empty storage reaches, if the
    headers the run submits have `LinkedHashes`, every header but the one `initialize`
    stored has its parent stored one below.
-/

namespace BtcParachain.BtcRelay

open Store

/-- Among the headers `hdrs`, a hash names one parent. -/
def HashesNameParents (hdrs : List BlockHeader) : Prop :=
  ∀ h ∈ hdrs, ∀ h' ∈ hdrs, h.blockHash = h'.blockHash → h.hashPrevBlock = h'.hashPrevBlock

instance (hdrs : List BlockHeader) : Decidable (HashesNameParents hdrs) :=
  inferInstanceAs (Decidable (∀ h ∈ hdrs, ∀ h' ∈ hdrs, _))

/-- Among the headers `hdrs`, a parent ranks below its child under `depth`: their parent
  links have no cycle. -/
def RanksParents (depth : H256 → Nat) (hdrs : List BlockHeader) : Prop :=
  ∀ h ∈ hdrs, depth h.hashPrevBlock < depth h.blockHash

instance (depth : H256 → Nat) (hdrs : List BlockHeader) : Decidable (RanksParents depth hdrs) :=
  inferInstanceAs (Decidable (∀ h ∈ hdrs, _))

/-- What the code assumes of the header hash, for the headers `hdrs`: a hash names one
  parent, and parent links have no cycle. -/
structure LinkedHashes (hdrs : List BlockHeader) : Prop where
  parent : HashesNameParents hdrs
  acyclic : ∃ depth : H256 → Nat, RanksParents depth hdrs

section

variable (parseBlockHeader : List UInt8 → BlockHeader) (hdrs : List BlockHeader) (depth : H256 → Nat)

/-- A stored entry at `x`: one of the headers `hdrs`, filed under its own hash, ranked no
  lower than `root`, and, unless it is `root`, one above its stored parent. -/
structure LinkedEntry (s : Store) (root x : H256) (hdr : RichBlockHeader) : Prop where
  mem : hdr.blockHeader ∈ hdrs
  hash : hdr.blockHeader.blockHash = x
  above : depth root ≤ depth x
  parent : x ≠ root → ∃ p, s.blockHeaders hdr.blockHeader.hashPrevBlock = some p ∧
    hdr.blockHeight = p.blockHeight + 1

/-- Every stored entry is `LinkedEntry`. -/
def Linked (s : Store) (root : H256) : Prop :=
  ∀ x hdr, s.blockHeaders x = some hdr → LinkedEntry hdrs depth s root x hdr

variable {hdrs depth}

theorem linked_initialize {s : Store} {bytes : List UInt8} {height : Nat}
    (hb : parseBlockHeader bytes ∈ hdrs)
    (h : s.blockHeaders = Function.update (fun _ => none) (parseBlockHeader bytes).blockHash
      (some ⟨parseBlockHeader bytes, height, mainChainId⟩)) :
    Linked hdrs depth s (parseBlockHeader bytes).blockHash := by
  intro x hdr hx
  rw [h, Function.update_apply] at hx
  split_ifs at hx with hxr
  · cases hx
    exact ⟨hb, hxr.symm, le_of_eq (congrArg depth hxr.symm), fun h => (h hxr).elim⟩

/-- A header among `hdrs` whose parent is stored is not `root`: its parent ranks below it,
  and `root` ranks lowest. -/
theorem Linked.ne_root {s : Store} {root : H256} (hl : Linked hdrs depth s root)
    (hdep : RanksParents depth hdrs) {h : BlockHeader} (hb : h ∈ hdrs) {prev : RichBlockHeader}
    (hprev : s.blockHeaders h.hashPrevBlock = some prev) : h.blockHash ≠ root := by
  have hlt := hdep _ hb
  have hroot := (hl _ _ hprev).above
  rintro rfl
  omega

/-- With heights linked among headers where a hash names one parent: an entry filed under
  the hash of one of them, whose parent is stored, is one above that parent. Filing the
  header again keeps the entry's height. -/
theorem Linked.height_of_refiled {s : Store} {root : H256} (hl : Linked hdrs depth s root)
    (hpar : HashesNameParents hdrs) (hdep : RanksParents depth hdrs) {h : BlockHeader}
    (hb : h ∈ hdrs) {prev hdr : RichBlockHeader} (hprev : s.blockHeaders h.hashPrevBlock = some prev)
    (hx : s.blockHeaders h.blockHash = some hdr) : hdr.blockHeight = prev.blockHeight + 1 := by
  obtain ⟨hm, hh, -, hp⟩ := hl _ hdr hx
  obtain ⟨p, hp, hph⟩ := hp (hl.ne_root hdep hb hprev)
  rw [hpar _ hm _ hb hh, hprev] at hp
  cases hp
  exact hph

/-- Storing a child among `hdrs`, where a hash names one parent, keeps every entry linked: an
  entry whose parent is overwritten gets the same parent, hence the same height. -/
theorem Linked.store {s : Store} {root : H256} (hl : Linked hdrs depth s root)
    (hpar : HashesNameParents hdrs) (hdep : RanksParents depth hdrs)
    {bytes : List UInt8} (hb : parseBlockHeader bytes ∈ hdrs) {prev : RichBlockHeader}
    (hprev : s.blockHeaders (parseBlockHeader bytes).hashPrevBlock = some prev) :
    Linked hdrs depth (s.insertBlockHeader (parseBlockHeader bytes).blockHash
      ⟨parseBlockHeader bytes, prev.blockHeight + 1, mainChainId⟩) root := by
  have hlt := hdep _ hb
  have hroot := (hl _ _ hprev).above
  have hpx : (parseBlockHeader bytes).hashPrevBlock ≠ (parseBlockHeader bytes).blockHash := by
    rintro h; rw [h] at hlt; omega
  intro z hdr hz
  simp only [insertBlockHeader_blockHeaders, Function.update_apply] at hz
  split_ifs at hz with hzx
  · cases hz
    exact ⟨hb, hzx.symm, hzx ▸ by omega, fun _ => ⟨prev, by simp [hpx, hprev], rfl⟩⟩
  · obtain ⟨hm, hh, ha, hp⟩ := hl z hdr hz
    refine ⟨hm, hh, ha, fun hzr => ?_⟩
    obtain ⟨p, hp, hhp⟩ := hp hzr
    by_cases hpz : hdr.blockHeader.hashPrevBlock = (parseBlockHeader bytes).blockHash
    · -- the parent is the entry being overwritten, one above `prev` as the new entry is
      rw [hpz] at hp
      exact ⟨_, by rw [insertBlockHeader_blockHeaders, Function.update_apply, if_pos hpz],
        by rw [hhp, hl.height_of_refiled hpar hdep hb hprev hp]⟩
    · exact ⟨p, by rwa [insertBlockHeader_blockHeaders, Function.update_apply, if_neg hpz], hhp⟩

/-- One call submitting headers among `hdrs` keeps a state empty, or `Initialized` at some
  `root` with every entry linked. -/
theorem dispatch_linked (hpar : HashesNameParents hdrs) (hdep : RanksParents depth hdrs)
    {s s' : Store} {c : Call} {r : DispatchResult}
    (hc : ∀ b ∈ c.headerBytes, parseBlockHeader b ∈ hdrs)
    (hs : s = Store.empty ∨ ∃ root height, Initialized s root height ∧ Linked hdrs depth s root)
    (h : dispatch parseBlockHeader s c = some (s', r)) :
    s' = Store.empty ∨ ∃ root height, Initialized s' root height ∧ Linked hdrs depth s' root := by
  rcases hs with rfl | ⟨root, height, hi, hl⟩
  · exact (dispatch_empty parseBlockHeader h).imp_right fun ⟨_, hb, _, hi, hbs⟩ =>
      ⟨_, _, hi, linked_initialize parseBlockHeader (hc _ hb) hbs⟩
  · rcases dispatch_initialized parseBlockHeader hi h with rfl | ⟨bytes, hb, prev, hprev, rfl⟩
    · exact .inr ⟨root, height, hi, hl⟩
    · exact .inr ⟨root, height, hi.insertBlockHeader _ _ rfl,
        hl.store parseBlockHeader hpar hdep (hc _ hb) hprev⟩

/-- Over every run whose submitted headers are among `hdrs`, a state empty or `Initialized`
  with every entry linked stays so. -/
theorem run_linked (hpar : HashesNameParents hdrs) (hdep : RanksParents depth hdrs)
    {s s' : Store} {cs : List Call} (h : Run parseBlockHeader s cs s')
    (hsub : ∀ b ∈ submitted cs, parseBlockHeader b ∈ hdrs)
    (hs : s = Store.empty ∨ ∃ root height, Initialized s root height ∧ Linked hdrs depth s root) :
    s' = Store.empty ∨ ∃ root height, Initialized s' root height ∧ Linked hdrs depth s' root := by
  induction h with
  | nil => exact hs
  | cons hstep _ ih =>
    exact ih (fun b hb => hsub b (List.mem_append_right _ hb))
      (dispatch_linked parseBlockHeader hpar hdep (fun b hb => hsub b (List.mem_append_left _ hb)) hs hstep)

/-- Heights follow parent links: in every state a run from empty storage reaches, if the
  headers the run submits name one parent per hash and have no cycle of parent links, every
  header but `root`, the one `initialize` stored, has its parent stored one below it. -/
theorem heights_follow_parents {cs : List Call} {s : Store}
    (hs : Run parseBlockHeader Store.empty cs s)
    (hlink : LinkedHashes ((submitted cs).map parseBlockHeader)) {root : H256} {height : Nat}
    (hi : Initialized s root height) {x : H256} {hdr : RichBlockHeader}
    (hx : s.blockHeaders x = some hdr) (hxr : x ≠ root) :
    ∃ p, s.blockHeaders hdr.blockHeader.hashPrevBlock = some p ∧
      hdr.blockHeight = p.blockHeight + 1 := by
  obtain ⟨depth, hdep⟩ := hlink.acyclic
  rcases run_linked parseBlockHeader hlink.parent hdep hs (fun b hb => List.mem_map_of_mem _ hb)
    (.inl rfl) with rfl | ⟨root', height', hi', hl⟩
  · cases hx
  · have hroot : root' = root := Option.some.inj (hi'.bestBlock.symm.trans hi.bestBlock)
    subst hroot
    exact (hl x hdr hx).parent hxr

end

/-- A header parser for the example below: the empty byte string is block 1, child of
  block 0, any other byte string block 2, child of block 1. -/
def twoBlockHeader (bytes : List UInt8) : BlockHeader :=
  if bytes = [] then ⟨default, ⟨Bytes32.replicate 0⟩, ⟨Bytes32.replicate 1⟩⟩
  else ⟨default, ⟨Bytes32.replicate 1⟩, ⟨Bytes32.replicate 2⟩⟩

/-- `initialize` with block 1, then `store_block_header` with block 2: the two headers
  have `LinkedHashes`, ranked by their hash's first byte, and block 2 is stored one above
  block 1. -/
theorem heights_follow_parents_block_two :
    ∃ s, Run twoBlockHeader Store.empty
        [.initializeRelay (.signed 0) [] 0, .storeBlockHeader (.signed 0) [0]] s ∧
      LinkedHashes ((submitted [.initializeRelay (.signed 0) [] 0, .storeBlockHeader (.signed 0) [0]]).map
        twoBlockHeader) ∧
      Initialized s (twoBlockHeader []).blockHash 0 ∧
      s.blockHeaders (twoBlockHeader [0]).blockHash = some ⟨twoBlockHeader [0], 1, mainChainId⟩ ∧
      (twoBlockHeader [0]).blockHash ≠ (twoBlockHeader []).blockHash ∧
      ∃ p, s.blockHeaders (twoBlockHeader [0]).hashPrevBlock = some p ∧ 1 = p.blockHeight + 1 := by
  obtain ⟨s, hr, hi, hx⟩ := initialize_then_child twoBlockHeader 0 [] [0] 0 rfl (by decide)
  have hlink : LinkedHashes ((submitted [.initializeRelay (.signed 0) [] 0,
      .storeBlockHeader (.signed 0) [0]]).map twoBlockHeader) :=
    ⟨by decide, fun h => (h.content.bytes.headD 0).toNat, by decide⟩
  exact ⟨s, hr, hlink, hi, hx, by decide, heights_follow_parents twoBlockHeader hr hlink hi hx (by decide)⟩

end BtcParachain.BtcRelay
