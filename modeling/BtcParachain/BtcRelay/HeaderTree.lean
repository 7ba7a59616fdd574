import BtcParachain.BtcRelay.Invariants
/-
  BtcParachain.BtcRelay.HeaderTree — the relay as a store of headers, chains aside.

  Under `Chains` and `ChainsIndex` the pallet keeps one map, `BlockHeaders`, from block
  hash to header and height (`Store.filed`, `chain_ref` dropped). `FileStep` says what a
  call should do to it: nothing; file a genesis header while `BestBlock` is unset; or file
  a header one above its filed parent; the header filed is the call's own. `HeaderStep`
  adds that `BestBlock`, once set, stays set. A reorganisation should leave it alone:
  `swap_main_blockchain` only rewrites `chain_ref`s. It does so as long as every block a
  chain lists has a header (`ListedStored`), for `<BlockHeaders>::mutate` on a missing hash
  files a default header there; every call keeps `ListedStored`.

  Proved, over every run of calls from every state (`Run`):
  - `run_keeps_listed_blocks_stored`: once every block every chain of `ChainsIndex` lists
    has a header, it stays so.
  - `run_refines_header_tree`: from such a state, `BestBlock`'s being set and the filed
    headers move by `HeaderStep`s: a genesis step only while `BestBlock` is unset before
    the call, `BestBlock` never unset again, no header removed, rewritten or invented (each
    is parsed from bytes the run submits), and every header filed after genesis one above
    its parent.
  - `run_keeps_heights_linked`: for a list of headers holding the stored ones and those the
    run submits, in which a hash names one parent and parents rank below children, once
    `BestBlock` is set and every header is linked to its parent one below, it stays so
    through every reorganisation.
  - `run_keeps_rooted_tree`: for every parser, once `BestBlock` is set, every header is
    filed under its own hash and every header but the root's has its parent filed, it
    stays so: the relay never holds an orphan header. Both are invariants of `FileStep`
    (`Linked.fileStep`, `RootedTree.fileStep`) carried over by the refinement.
-/

namespace BtcParachain.BtcRelay

open Store

/-! ## The header tree -/

/-- The block header and height `BlockHeaders` holds at `x`, its `chain_ref` aside. -/
def Store.filed (s : Store) (x : H256) : Option (BlockHeader × Nat) :=
  (s.blockHeaders x).map fun hdr => (hdr.blockHeader, hdr.blockHeight)

section

variable (parseBlockHeader : List UInt8 → BlockHeader)

/-- What one call may do to the filed headers: nothing; file a genesis header at any
  height, while `uninitialized` holds; or file a header one above its filed parent. The
  header is parsed from one of the byte strings `bs` the call submits. -/
inductive FileStep (bs : List (List UInt8)) (uninitialized : Prop) :
    (H256 → Option (BlockHeader × Nat)) → (H256 → Option (BlockHeader × Nat)) → Prop
  | skip (f) : FileStep bs uninitialized f f
  | genesis (f) (bytes : List UInt8) (height : Nat) : bytes ∈ bs → uninitialized →
      FileStep bs uninitialized f (Function.update f (parseBlockHeader bytes).blockHash
        (some (parseBlockHeader bytes, height)))
  | child (f) (bytes : List UInt8) (p : BlockHeader × Nat) : bytes ∈ bs →
      f (parseBlockHeader bytes).hashPrevBlock = some p →
      FileStep bs uninitialized f (Function.update f (parseBlockHeader bytes).blockHash
        (some (parseBlockHeader bytes, p.2 + 1)))

theorem FileStep.mono {bs bs' : List (List UInt8)} (hbs : ∀ b ∈ bs, b ∈ bs') {p q : Prop}
    (hpq : p → q) {f g : H256 → Option (BlockHeader × Nat)} :
    FileStep parseBlockHeader bs p f g → FileStep parseBlockHeader bs' q f g
  | .skip _ => .skip _
  | .genesis _ bytes height hb hp => .genesis _ bytes height (hbs _ hb) (hpq hp)
  | .child _ bytes p hb hp => .child _ bytes p (hbs _ hb) hp

/-- What one call may do to `BestBlock`'s being set and the filed headers: a `FileStep`
  filing one of `bs`, a genesis step only while `BestBlock` is unset before the call; and
  `BestBlock`, once set, stays set. -/
inductive HeaderStep (bs : List (List UInt8)) :
    Bool × (H256 → Option (BlockHeader × Nat)) → Bool × (H256 → Option (BlockHeader × Nat)) → Prop
  | mk {u u' : Bool} {f f' : H256 → Option (BlockHeader × Nat)} :
      FileStep parseBlockHeader bs (u = false) f f' → (u = true → u' = true) →
      HeaderStep bs (u, f) (u', f')

theorem HeaderStep.mono {bs bs' : List (List UInt8)} (hbs : ∀ b ∈ bs, b ∈ bs')
    {v v' : Bool × (H256 → Option (BlockHeader × Nat))} :
    HeaderStep parseBlockHeader bs v v' → HeaderStep parseBlockHeader bs' v v'
  | .mk hf hb => .mk (hf.mono parseBlockHeader hbs id) hb

end

/-- A header tree rooted at `root`: every header is filed under its own hash, and every
  header but the root's has its parent filed. -/
structure RootedTree (root : H256) (f : H256 → Option (BlockHeader × Nat)) : Prop where
  selfHash : ∀ x v, f x = some v → v.1.blockHash = x
  parent : ∀ x v, f x = some v → x ≠ root → (f v.1.hashPrevBlock).isSome

theorem filed_isSome (s : Store) (x : H256) : (s.filed x).isSome = (s.blockHeaders x).isSome :=
  Option.isSome_map'

@[simp] theorem filed_insertBlockHeader (s : Store) (y : H256) (hdr : RichBlockHeader) :
    (s.insertBlockHeader y hdr).filed =
      Function.update s.filed y (some (hdr.blockHeader, hdr.blockHeight)) := by
  funext x
  by_cases hx : x = y
  · subst hx; simp [filed]
  · simp [filed, hx]

@[simp] theorem filed_mutateChainsIndex (s : Store) (id : Nat) (f : BlockChain → BlockChain) :
    (s.mutateChainsIndex id f).filed = s.filed := rfl

/-- `reparent` over blocks that all have headers changes no filed header. -/
theorem filed_reparent {s : Store} {chain : BTreeMap H256}
    (hc : ∀ h x, chain.get h = some x → (s.blockHeaders x).isSome) (id : Nat) :
    (reparent s chain id).filed = s.filed := by
  funext x
  simp only [filed, reparent_blockHeaders]
  split_ifs with hx
  · obtain ⟨h, hh⟩ := BTreeMap.mem_values_iff.1 hx
    obtain ⟨hdr, hs⟩ := Option.isSome_iff_exists.1 (hc h x hh)
    simp [blockheader, hs]
  · rfl

/-- `extend_blockchain` lists the new block at its height over the chain it extends. -/
theorem extendBlockchain_get {h : Nat} {x : H256} {b b' : BlockChain}
    (hb : extendBlockchain h x b = .ok b') (k : Nat) :
    b'.chain.get k = if k = h then some x else b.chain.get k := by
  unfold extendBlockchain at hb
  split at hb
  · cases hb
  · rename_i chain heq
    cases hb
    rw [← BTreeMap.get_insert b.chain h k x, show chain = (b.chain.insert h x).2 from
      (congrArg Prod.snd heq).symm]

/-! ## Chains list only blocks with headers -/

/-- A chain of `ChainsIndex` lists `x` at height `k`. -/
def Store.Listed (s : Store) (k : Nat) (x : H256) : Prop :=
  ∃ id b, s.chainsIndex id = some b ∧ b.chain.get k = some x

/-- What `ChainsIndex::get` reads is listed: an entry, or the default, empty chain. -/
theorem listed_of_chainindex {s : Store} {id k : Nat} {x : H256}
    (hx : (s.chainindex id).chain.get k = some x) : s.Listed k x := by
  unfold Store.chainindex at hx
  cases hc : s.chainsIndex id with
  | none => rw [hc] at hx; cases hx
  | some b => rw [hc] at hx; exact ⟨id, b, hc, hx⟩

/-- Writing back what `ChainsIndex::get` read lists nothing new. -/
theorem listed_mutateChainsIndex_id {s : Store} {id k : Nat} {x : H256}
    (hx : (s.mutateChainsIndex id fun b => b).Listed k x) : s.Listed k x := by
  obtain ⟨j, b, hb, hx⟩ := hx
  simp only [mutateChainsIndex, insertChainsIndex_chainsIndex, Function.update_apply] at hb
  split_ifs at hb
  · cases hb; exact listed_of_chainindex hx
  · exact ⟨j, b, hb, hx⟩

/-- A promotion lists at each height what the fork or a chain of `ChainsIndex` listed
  there: the demoted part of the main chain, the fork over the main chain below its start,
  and the other chains as they were. -/
theorem listed_swapMainBlockchain {s s' : Store} {fork : BlockChain}
    (h : swapMainBlockchain s fork = some (s', none)) {k : Nat} {x : H256} (hx : s'.Listed k x) :
    fork.chain.get k = some x ∨ s.Listed k x := by
  obtain ⟨s1, -, hc1, rfl⟩ := swapMainBlockchain_eq_some_none h
  obtain ⟨id, b, hb, hx⟩ := hx
  simp only [reparent_chainsIndex, hc1, Function.update_apply] at hb
  split_ifs at hb
  · cases hb
    simp only [forkedMainChain, BTreeMap.get_splitOff_snd] at hx
    split_ifs at hx
    exact .inr (listed_of_chainindex hx)
  · cases hb
    simp only [appendFork, BTreeMap.get_append, BTreeMap.get_splitOff_fst] at hx
    cases hfx : fork.chain.get k with
    | some y => rw [hfx] at hx; cases hx; exact .inl rfl
    | none =>
      rw [hfx, Option.none_or] at hx
      split_ifs at hx
      exact .inr (listed_of_chainindex hx)
  · exact .inr ⟨id, b, hb, hx⟩

/-- Every block a chain of `ChainsIndex` lists has a header in `BlockHeaders`. -/
def ListedStored (s : Store) : Prop :=
  ∀ id b, s.chainsIndex id = some b → ∀ h x, b.chain.get h = some x → (s.blockHeaders x).isSome

namespace ListedStored

variable {s : Store}

theorem of_listed (hs : ListedStored s) {k : Nat} {x : H256} (hx : s.Listed k x) :
    (s.blockHeaders x).isSome :=
  let ⟨id, b, hb, hx⟩ := hx
  hs id b hb k x hx

/-- What `ChainsIndex::get` reads lists only blocks with headers: an entry, or the
  default, empty chain. -/
theorem chainindex (hs : ListedStored s) (id : Nat) {h : Nat} {x : H256}
    (hx : (s.chainindex id).chain.get h = some x) : (s.blockHeaders x).isSome :=
  hs.of_listed (listed_of_chainindex hx)

/-- `ListedStored` survives any change that keeps `ChainsIndex` and every header. -/
theorem mono {s' : Store} (hs : ListedStored s) (hc : s'.chainsIndex = s.chainsIndex)
    (hb : ∀ x, (s.blockHeaders x).isSome → (s'.blockHeaders x).isSome) : ListedStored s' :=
  fun id b hid h x hx => hb x (hs id b (hc ▸ hid) h x hx)

theorem of_filed {s' : Store} (hs : ListedStored s) (hc : s'.chainsIndex = s.chainsIndex)
    (hf : s'.filed = s.filed) : ListedStored s' :=
  hs.mono hc fun x hx => by rwa [← filed_isSome, hf, filed_isSome]

theorem mutateChainsIndex_id (hs : ListedStored s) (id : Nat) :
    ListedStored (s.mutateChainsIndex id fun b => b) := fun k b hk _ _ hx =>
  hs.of_listed (listed_mutateChainsIndex_id ⟨k, b, hk, hx⟩)

/-- A promotion, on a state whose chains and fork list only blocks with headers, changes
  no filed header, and its chains still list only blocks with headers. -/
theorem swapMainBlockchain {s' : Store} {fork : BlockChain} (hs : ListedStored s)
    (hfork : ∀ h x, fork.chain.get h = some x → (s.blockHeaders x).isSome)
    (h : swapMainBlockchain s fork = some (s', none)) : s'.filed = s.filed ∧ ListedStored s' := by
  have hlisted := @listed_swapMainBlockchain _ _ _ h
  obtain ⟨s1, hb1, -, rfl⟩ := swapMainBlockchain_eq_some_none h
  have hst : ∀ {t : Store}, t.filed = s.filed → ∀ x,
      (t.blockHeaders x).isSome = (s.blockHeaders x).isSome := fun ht x => by
    rw [← filed_isSome, ht, filed_isSome]
  have hf1 : s1.filed = s.filed := by unfold filed; rw [hb1]
  have hforked : ∀ h x, (forkedMainChain (s.chainindex mainChainId) fork.startHeight
      (s.chainCounter + 1)).chain.get h = some x → (s.blockHeaders x).isSome := fun h x hx => by
    simp only [forkedMainChain, BTreeMap.get_splitOff_snd] at hx
    split_ifs at hx
    exact hs.chainindex _ hx
  have hf2 := (filed_reparent (fun h x hx => (hst hf1 x).trans (hforked h x hx))
    (s.chainCounter + 1)).trans hf1
  have hf3 := (filed_reparent (fun h x hx => (hst hf2 x).trans (hfork h x hx)) mainChainId).trans hf2
  refine ⟨hf3, fun id b hb h x hx => (hst hf3 x).trans ?_⟩
  rcases hlisted ⟨id, b, hb, hx⟩ with hfx | hx
  · exact hfork h x hfx
  · exact hs.of_listed hx

theorem checkAndDoReorg {s' : Store} {fork : BlockChain} {e : Option Error} (hs : ListedStored s)
    (hfork : ∀ h x, fork.chain.get h = some x → (s.blockHeaders x).isSome)
    (h : checkAndDoReorg s fork = some (s', e)) : s'.filed = s.filed ∧ ListedStored s' := by
  rcases checkAndDoReorg_cases h with ⟨chains, rfl⟩ | ⟨chains, rfl⟩ | ⟨-, chains, hswap⟩
  · exact ⟨rfl, hs⟩
  · exact ⟨rfl, hs⟩
  · exact @ListedStored.swapMainBlockchain { s with chains := chains } s' fork hs hfork hswap

/-- Filing a header and writing back an entry of `ChainsIndex` keeps `ListedStored`, and
  the chain `extend_blockchain` built with the header lists only blocks with headers. -/
theorem store {y : H256} {hdr : RichBlockHeader} {height ref id : Nat} {b : BlockChain}
    (hs : ListedStored s) (hb : extendBlockchain height y (s.chainindex ref) = .ok b) :
    ListedStored ((s.insertBlockHeader y hdr).mutateChainsIndex id fun b => b) ∧
      ∀ h x, b.chain.get h = some x →
        (((s.insertBlockHeader y hdr).mutateChainsIndex id fun b => b).blockHeaders x).isSome := by
  have hkeep : ∀ x, (s.blockHeaders x).isSome → ((s.insertBlockHeader y hdr).blockHeaders x).isSome :=
    fun x hx => by by_cases hxy : x = y <;> simp [hxy, hx]
  refine ⟨(@mono s (s.insertBlockHeader y hdr) hs rfl hkeep).mutateChainsIndex_id id, fun h x hx => ?_⟩
  rw [extendBlockchain_get hb] at hx
  split_ifs at hx
  · cases hx; simp [mutateChainsIndex]
  · exact hkeep x (hs.chainindex ref hx)

end ListedStored

/-! ## One call, then every run -/

section

variable (parseBlockHeader : List UInt8 → BlockHeader)

/-- One call from a state whose chains list only blocks with headers: they still do, and
  the filed headers take one `FileStep`, a genesis one only from storage without
  `BestBlock`. -/
theorem dispatch_fileStep {s s' : Store} {c : Call} {r : DispatchResult} (hs : ListedStored s)
    (h : dispatch parseBlockHeader s c = some (s', r)) :
    ListedStored s' ∧ FileStep parseBlockHeader c.headerBytes (s.bestBlock = none) s.filed s'.filed := by
  rcases dispatch_cases parseBlockHeader h with rfl | ⟨-, bytes, height, rfl, hb, rfl⟩ |
    ⟨-, bytes, prev, b, e, rfl, hprev, hext, he⟩ | ⟨x, hdr, -, rfl⟩
  · exact ⟨hs, .skip _⟩
  · refine ⟨fun id b hid h x hx => ?_, ?_⟩
    · simp only [insertChainsIndex_chainsIndex, Function.update_apply] at hid
      split_ifs at hid with h0
      · cases hid
        simp only [genesisChain, BTreeMap.get_insert, BTreeMap.get_empty] at hx
        split_ifs at hx
        cases hx
        simp
      · have := hs id b hid h x hx
        by_cases hxy : x = (parseBlockHeader bytes).blockHash <;> simp [hxy, this]
    · show FileStep _ _ _ _ (s.insertBlockHeader _ ⟨parseBlockHeader bytes, height, mainChainId⟩).filed
      rw [filed_insertBlockHeader]
      exact .genesis _ bytes height (List.mem_singleton_self _) hb
  · obtain ⟨hs2, hfork⟩ := hs.store hext
    obtain ⟨hf, hs'⟩ := hs2.checkAndDoReorg hfork he
    refine ⟨hs', ?_⟩
    rw [hf, filed_mutateChainsIndex, filed_insertBlockHeader]
    exact .child _ bytes (prev.blockHeader, prev.blockHeight) (List.mem_singleton_self _)
      (by simp [filed, hprev])
  · exact ⟨hs.mutateChainsIndex_id _, by rw [filed_mutateChainsIndex]; exact .skip _⟩

/-- `BestBlock`, once set, stays set: `initialize` fails on it, and a promotion sets it. -/
theorem dispatch_bestBlock_isSome {s s' : Store} {c : Call} {r : DispatchResult}
    (h : dispatch parseBlockHeader s c = some (s', r)) (hb : s.bestBlock.isSome) :
    s'.bestBlock.isSome := by
  rcases dispatch_cases parseBlockHeader h with rfl | ⟨-, bytes, height, -, hn, rfl⟩ |
    ⟨-, bytes, prev, b, e, -, -, -, he⟩ | ⟨x, hdr, -, rfl⟩
  · exact hb
  · rfl
  · rcases checkAndDoReorg_cases he with ⟨chains, rfl⟩ | ⟨chains, rfl⟩ | ⟨-, chains, hswap⟩
    · exact hb
    · exact hb
    · exact (swapMainBlockchain_eq_some_none_best hswap).2.2.2
  · exact hb

/-- Over every run from every state, once every block every chain of `ChainsIndex` lists
  has a header in `BlockHeaders`, it stays so. -/
theorem run_keeps_listed_blocks_stored {s s' : Store} {cs : List Call}
    (h : Run parseBlockHeader s cs s') (hs : ListedStored s) : ListedStored s' := by
  induction h with
  | nil => exact hs
  | cons hstep _ ih => exact ih (dispatch_fileStep parseBlockHeader hs hstep).1

/-- Refinement: over every run from a state whose chains list only blocks with headers,
  `BestBlock`'s being set and the filed headers move by `HeaderStep`s filing headers the
  run submits: a genesis step only while `BestBlock` is unset before the call, and
  `BestBlock` never unset again. -/
theorem run_refines_header_tree {s s' : Store} {cs : List Call}
    (h : Run parseBlockHeader s cs s') (hs : ListedStored s) :
    Relation.ReflTransGen (HeaderStep parseBlockHeader (submitted cs))
      (s.bestBlock.isSome, s.filed) (s'.bestBlock.isSome, s'.filed) := by
  induction h with
  | nil => exact .refl
  | cons hstep _ ih =>
    obtain ⟨hs1, hfs⟩ := dispatch_fileStep parseBlockHeader hs hstep
    exact .head (.mk (hfs.mono parseBlockHeader (fun _ hb => List.mem_append_left _ hb)
        fun hn => by rw [hn]; rfl) (dispatch_bestBlock_isSome parseBlockHeader hstep))
      ((ih hs1).mono fun _ _ => HeaderStep.mono parseBlockHeader fun _ hb => List.mem_append_right _ hb)

/-- What one `FileStep` with genesis closed filing one of `bs` keeps, every run submitting
  only `bs` keeps, from a state with `BestBlock` set whose chains list only blocks with
  headers. -/
theorem run_keeps_of_fileStep {P : Store → Prop} {bs : List (List UInt8)}
    (hP : ∀ {t t' : Store}, P t → FileStep parseBlockHeader bs False t.filed t'.filed → P t')
    {s s' : Store} {cs : List Call} (h : Run parseBlockHeader s cs s')
    (hsub : ∀ b ∈ submitted cs, b ∈ bs) (hs : ListedStored s) (hb : s.bestBlock.isSome)
    (hp : P s) : P s' := by
  induction h with
  | nil => exact hp
  | cons hstep _ ih =>
    obtain ⟨hs1, hfs⟩ := dispatch_fileStep parseBlockHeader hs hstep
    exact ih (fun b hb' => hsub b (List.mem_append_right _ hb')) hs1
      (dispatch_bestBlock_isSome parseBlockHeader hstep hb)
      (hP hp (hfs.mono parseBlockHeader (fun b hb' => hsub b (List.mem_append_left _ hb'))
        fun hn => by rw [hn] at hb; cases hb))

end

/-! ## Heights over every run -/

section

variable (parseBlockHeader : List UInt8 → BlockHeader) {hdrs : List BlockHeader} {depth : H256 → Nat}

/-- `Linked` reads the filed headers only. -/
theorem Linked.of_filed {s s' : Store} {root : H256} (hl : Linked hdrs depth s root)
    (hf : s'.filed = s.filed) : Linked hdrs depth s' root := by
  have hget : ∀ {t t' : Store}, t'.filed = t.filed → ∀ {x hdr'}, t'.blockHeaders x = some hdr' →
      ∃ hdr, t.blockHeaders x = some hdr ∧ hdr.blockHeader = hdr'.blockHeader ∧
        hdr.blockHeight = hdr'.blockHeight := fun hf x hdr' hx => by
    have := congrFun hf x
    simp only [filed, hx, Option.map_some'] at this
    obtain ⟨hdr, h1, h2⟩ := Option.map_eq_some'.1 this.symm
    exact ⟨hdr, h1, (Prod.mk.inj h2).1, (Prod.mk.inj h2).2⟩
  intro x hdr' hx
  obtain ⟨hdr, hx0, hb, hh⟩ := hget hf hx
  obtain ⟨hparsed, hhash, habove, hparent⟩ := hl x hdr hx0
  refine ⟨hb ▸ hparsed, hb ▸ hhash, habove, fun hxr => ?_⟩
  obtain ⟨p, hp, hph⟩ := hparent hxr
  obtain ⟨p', hp', -, hh'⟩ := hget hf.symm (hb ▸ hp)
  exact ⟨p', hp', by rw [← hh, hph, hh']⟩

/-- One `FileStep` with genesis closed, filing a header among `hdrs`, keeps `Linked` when
  among `hdrs` a hash names one parent and parents rank below children. -/
theorem Linked.fileStep (hpar : HashesNameParents hdrs) (hdep : RanksParents depth hdrs)
    {bs : List (List UInt8)} (hbs : ∀ b ∈ bs, parseBlockHeader b ∈ hdrs)
    {s s' : Store} {root : H256} (hl : Linked hdrs depth s root)
    (h : FileStep parseBlockHeader bs False s.filed s'.filed) : Linked hdrs depth s' root := by
  generalize hf : s.filed = f at h
  generalize hf' : s'.filed = f' at h
  cases h with
  | skip => exact hl.of_filed (hf'.trans hf.symm)
  | genesis _ _ _ hfalse => exact hfalse.elim
  | child bytes p hb hp =>
    subst hf
    obtain ⟨prev, hprev, rfl⟩ := Option.map_eq_some'.1 hp
    refine (hl.store parseBlockHeader hpar hdep (hbs _ hb) hprev).of_filed ?_
    rw [hf', filed_insertBlockHeader]

/-- Over every run from a state with `BestBlock` set whose chains list only blocks with
  headers, for a list of headers `hdrs` holding those the run submits, in which a hash names
  one parent and parents rank below children: once every header is one of `hdrs`, linked by
  height to its parent one below, it stays so, through every reorganisation. -/
theorem run_keeps_heights_linked (hpar : HashesNameParents hdrs) (hdep : RanksParents depth hdrs)
    {s s' : Store} {cs : List Call} (h : Run parseBlockHeader s cs s')
    (hsub : ∀ b ∈ submitted cs, parseBlockHeader b ∈ hdrs) (hs : ListedStored s)
    (hb : s.bestBlock.isSome) {root : H256} (hl : Linked hdrs depth s root) :
    Linked hdrs depth s' root :=
  @run_keeps_of_fileStep parseBlockHeader (fun t => Linked hdrs depth t root) (submitted cs)
    (fun hl hstep => hl.fileStep parseBlockHeader hpar hdep hsub hstep) s s' cs h (fun _ hb => hb)
    hs hb hl

/-- Linked headers form a rooted tree. -/
theorem Linked.rootedTree {s : Store} {root : H256} (hl : Linked hdrs depth s root) :
    RootedTree root s.filed := by
  refine ⟨fun x v hx => ?_, fun x v hx hxr => ?_⟩ <;>
    obtain ⟨hdr, hget, rfl⟩ := Option.map_eq_some'.1 hx
  · exact (hl x hdr hget).hash
  · obtain ⟨p, hp, -⟩ := (hl x hdr hget).parent hxr
    simp [filed, hp]

end

/-! ## No orphan header, for every parser -/

section

variable (parseBlockHeader : List UInt8 → BlockHeader)

theorem isSome_update_some {f : H256 → Option (BlockHeader × Nat)} (y : H256) (w : BlockHeader × Nat)
    {x : H256} (hx : (f x).isSome) : (Function.update f y (some w) x).isSome := by
  by_cases h : x = y <;> simp [Function.update_apply, h, hx]

/-- One `FileStep` with genesis closed keeps a rooted tree: the new header goes under its own
  hash, over a filed parent, and nothing is removed. -/
theorem RootedTree.fileStep {root : H256} {f g : H256 → Option (BlockHeader × Nat)}
    {bs : List (List UInt8)} (ht : RootedTree root f) (h : FileStep parseBlockHeader bs False f g) :
    RootedTree root g := by
  cases h with
  | skip => exact ht
  | genesis _ _ _ hfalse => exact hfalse.elim
  | child bytes p _ hp =>
    refine ⟨fun x v hx => ?_, fun x v hx hxr => ?_⟩ <;> rw [Function.update_apply] at hx <;>
      split_ifs at hx with hxy
    · cases hx; exact hxy.symm
    · exact ht.selfHash x v hx
    · cases hx; exact isSome_update_some _ _ (by rw [hp]; rfl)
    · exact isSome_update_some _ _ (ht.parent x v hx hxr)

/-- Over every run from a state with `BestBlock` set whose chains list only blocks with
  headers, whatever the header parser: once every header is filed under its own hash and
  every header but the root's has its parent filed, it stays so, through every
  reorganisation. -/
theorem run_keeps_rooted_tree {s s' : Store} {cs : List Call} (h : Run parseBlockHeader s cs s')
    (hs : ListedStored s) (hb : s.bestBlock.isSome) {root : H256} (ht : RootedTree root s.filed) :
    RootedTree root s'.filed :=
  @run_keeps_of_fileStep parseBlockHeader (fun t => RootedTree root t.filed) (submitted cs)
    (fun ht hstep => ht.fileStep parseBlockHeader hstep) s s' cs h (fun _ hb => hb) hs hb ht

end

/-! ## A promotion that keeps heights linked

Chain 1 runs from block 12, a child of the main chain's block 2, to block 13; block 14 on
block 13 grows it past the main chain, which it replaces from height 2 on. -/

/-- The number of a block under `treeHeader`: the first byte, read as 1 when missing or 0. -/
def blockNumber (bytes : List UInt8) : UInt8 := if bytes.getD 0 0 = 0 then 1 else bytes.getD 0 0

/-- A header parser for the example below: block 12 is a child of block 2, every other
  block `n` a child of block `n - 1`. -/
def treeHeader (bytes : List UInt8) : BlockHeader :=
  ⟨default, blockHashOf (if blockNumber bytes = 12 then 2 else blockNumber bytes - 1),
    blockHashOf (blockNumber bytes)⟩

/-- The rank `treeHeader`'s parent links descend: a hash's first byte. -/
def firstByte (x : H256) : Nat := (x.content.bytes.headD 0).toNat

/-- `treeHeader`'s block `n` at `height` on chain `chainRef`. -/
def treeEntry (n : UInt8) (height chainRef : Nat) : RichBlockHeader := ⟨treeHeader [n], height, chainRef⟩

/-- Main chain blocks 1, 2, 3 at heights 0 to 2 and chain 1's blocks 12, 13 at heights 2
  and 3, block 12 on block 2, every block with its header. -/
def linkedForkStore : Store :=
  ⟨headersOf [treeEntry 1 0 0, treeEntry 2 1 0, treeEntry 3 2 0, treeEntry 12 2 1, treeEntry 13 3 1],
    mainEnteredLast,
    fun id => if id = mainChainId then some ⟨mainChainId, chainOf [(0, 1), (1, 2), (2, 3)], 0, 2, [], []⟩
      else if id = 1 then some ⟨1, chainOf [(2, 12), (3, 13)], 2, 3, [], []⟩ else none,
    some (blockHashOf 3), 2, 1⟩

/-- Block 14, on block 13. -/
def extendLinkedFork : Call := .storeBlockHeader (.signed 0) [14]

/-- The store after `extendLinkedFork`. -/
def promotedLinkedStore : Store :=
  ((dispatch treeHeader linkedForkStore extendLinkedFork).map Prod.fst).getD linkedForkStore

theorem run_extendLinkedFork : Run treeHeader linkedForkStore [extendLinkedFork] promotedLinkedStore :=
  .cons rfl (.nil _)

theorem listedStored_linkedForkStore : ListedStored linkedForkStore := by
  intro id b hb h x hx
  have hv := BTreeMap.mem_values_of_get hx
  simp only [linkedForkStore] at hb
  split_ifs at hb <;> cases hb
  · have : (chainOf [(0, 1), (1, 2), (2, 3)]).values = [blockHashOf 1, blockHashOf 2, blockHashOf 3] := rfl
    simp only [this, List.mem_cons, List.mem_singleton, List.not_mem_nil, or_false] at hv
    rcases hv with rfl | rfl | rfl <;> decide
  · have : (chainOf [(2, 12), (3, 13)]).values = [blockHashOf 12, blockHashOf 13] := rfl
    simp only [this, List.mem_cons, List.mem_singleton, List.not_mem_nil, or_false] at hv
    rcases hv with rfl | rfl <;> decide

/-- The headers of `linkedForkStore` and block 14's. -/
def linkedHeaders : List BlockHeader :=
  [treeHeader [1], treeHeader [2], treeHeader [3], treeHeader [12], treeHeader [13], treeHeader [14]]

theorem hashesNameParents_linkedHeaders : HashesNameParents linkedHeaders := by decide

theorem ranksParents_linkedHeaders : RanksParents firstByte linkedHeaders := by decide

theorem treeHeader_submitted_mem : ∀ b ∈ submitted [extendLinkedFork], treeHeader b ∈ linkedHeaders := by
  decide

theorem linked_linkedForkStore : Linked linkedHeaders firstByte linkedForkStore (blockHashOf 1) := by
  intro x hdr hx
  dsimp only [linkedForkStore, headersOf] at hx
  have hmem := List.mem_of_find?_eq_some hx
  have hxh := List.find?_some hx
  rw [decide_eq_true_eq] at hxh
  subst hxh
  simp only [List.mem_cons, List.mem_singleton, List.not_mem_nil, or_false] at hmem
  rcases hmem with rfl | rfl | rfl | rfl | rfl
  · exact ⟨by decide, rfl, le_rfl, fun h => absurd rfl h⟩
  all_goals exact ⟨by decide, rfl, by decide, fun _ => ⟨_, rfl, rfl⟩⟩

theorem run_keeps_listed_blocks_stored_promotion :
    ∃ s', Run treeHeader linkedForkStore [extendLinkedFork] s' ∧ ListedStored linkedForkStore ∧
      s'.bestBlock = some (blockHashOf 14) ∧ ListedStored s' :=
  ⟨_, run_extendLinkedFork, listedStored_linkedForkStore, rfl,
    run_keeps_listed_blocks_stored treeHeader run_extendLinkedFork listedStored_linkedForkStore⟩

/-- Block 14 is filed over block 13, with `BestBlock` set before and after. -/
theorem run_refines_header_tree_promotion :
    ∃ s', Run treeHeader linkedForkStore [extendLinkedFork] s' ∧ ListedStored linkedForkStore ∧
      s'.bestBlock = some (blockHashOf 14) ∧
      s'.filed (blockHashOf 14) = some (treeHeader [14], 4) ∧ linkedForkStore.filed (blockHashOf 14) = none ∧
      Relation.ReflTransGen (HeaderStep treeHeader (submitted [extendLinkedFork]))
        (linkedForkStore.bestBlock.isSome, linkedForkStore.filed) (s'.bestBlock.isSome, s'.filed) :=
  ⟨_, run_extendLinkedFork, listedStored_linkedForkStore, rfl, rfl, rfl,
    run_refines_header_tree treeHeader run_extendLinkedFork listedStored_linkedForkStore⟩

theorem run_keeps_heights_linked_promotion :
    HashesNameParents linkedHeaders ∧ RanksParents firstByte linkedHeaders ∧
    ∃ s', Run treeHeader linkedForkStore [extendLinkedFork] s' ∧
      (∀ b ∈ submitted [extendLinkedFork], treeHeader b ∈ linkedHeaders) ∧ ListedStored linkedForkStore ∧
      linkedForkStore.bestBlock.isSome ∧ Linked linkedHeaders firstByte linkedForkStore (blockHashOf 1) ∧
      s'.bestBlock = some (blockHashOf 14) ∧ Linked linkedHeaders firstByte s' (blockHashOf 1) :=
  ⟨hashesNameParents_linkedHeaders, ranksParents_linkedHeaders, _, run_extendLinkedFork,
    treeHeader_submitted_mem, listedStored_linkedForkStore, rfl, linked_linkedForkStore, rfl,
    run_keeps_heights_linked treeHeader hashesNameParents_linkedHeaders ranksParents_linkedHeaders
      run_extendLinkedFork treeHeader_submitted_mem listedStored_linkedForkStore rfl linked_linkedForkStore⟩

theorem run_keeps_rooted_tree_promotion :
    ∃ s', Run treeHeader linkedForkStore [extendLinkedFork] s' ∧ ListedStored linkedForkStore ∧
      linkedForkStore.bestBlock.isSome ∧ RootedTree (blockHashOf 1) linkedForkStore.filed ∧
      s'.bestBlock = some (blockHashOf 14) ∧ RootedTree (blockHashOf 1) s'.filed :=
  ⟨_, run_extendLinkedFork, listedStored_linkedForkStore, rfl,
    linked_linkedForkStore.rootedTree, rfl,
    run_keeps_rooted_tree treeHeader run_extendLinkedFork listedStored_linkedForkStore rfl
      linked_linkedForkStore.rootedTree⟩

end BtcParachain.BtcRelay
