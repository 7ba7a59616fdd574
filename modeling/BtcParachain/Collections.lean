import BtcParachain.Primitives
/-
  BtcParachain.Collections — the two containers the relay keeps its chains in.

  `BTreeMap` is `sp_std::collections::btree_map::BTreeMap<u32, V>`, a chain's
  height → hash map: entries in ascending key order, so `iter` walks the heights
  upwards. Only the operations the pallet calls are modelled: `get`, `insert`
  (returning the value it replaced), `split_off` and `append`.

  `LinkedMap` is FRAME's `linked_map u32 => u32` (the pallet's `Chains`). Besides the
  key → value map it has a linkage: `enumerate` starts at the head, the key inserted
  most recently, and follows the links to the oldest. `insert` of a present key keeps
  its place; `swap` of two present keys exchanges the values and keeps both places, and
  of one present key moves the value to the other key, which becomes the head; `remove`
  unlinks. A missing key reads as `0` (`u32::default()`).
-/

namespace BtcParachain

theorem lookup_cons_eq {V : Type} (a : Nat) (e : Nat × V) (es : List (Nat × V)) :
    (e :: es).lookup a = if a = e.1 then some e.2 else es.lookup a := by
  obtain ⟨k, v⟩ := e
  simp only [List.lookup_cons]; split <;> simp_all

/-- A key not among a list's keys is not found in it. -/
theorem lookup_eq_none {V : Type} {a : Nat} {es : List (Nat × V)} (h : ∀ e ∈ es, e.1 ≠ a) :
    es.lookup a = none := by
  induction es with
  | nil => rfl
  | cons e es ih =>
    rw [lookup_cons_eq, if_neg (Ne.symm (h e (.head _))), ih fun x hx => h x (.tail _ hx)]

theorem ne_of_lookup_eq_none {V : Type} {a : Nat} {es : List (Nat × V)} (h : es.lookup a = none) :
    ∀ e ∈ es, e.1 ≠ a := by
  induction es with
  | nil => simp
  | cons e es ih =>
    rw [lookup_cons_eq] at h
    split_ifs at h with ha
    intro x hx
    rcases List.mem_cons.1 hx with rfl | hx
    · exact Ne.symm ha
    · exact ih h x hx

theorem mem_of_lookup_eq_some {V : Type} {a : Nat} {v : V} {es : List (Nat × V)}
    (h : es.lookup a = some v) : (a, v) ∈ es := by
  induction es with
  | nil => simp at h
  | cons e es ih =>
    rw [lookup_cons_eq] at h
    split_ifs at h with ha
    · cases h; exact ha ▸ .head _
    · exact .tail _ (ih h)

/-- `BTreeMap<u32, V>`. -/
structure BTreeMap (V : Type) where
  entries : List (Nat × V)
  sorted : entries.Pairwise (fun a b => a.1 < b.1)

namespace BTreeMap

variable {V : Type}

def empty : BTreeMap V := ⟨[], .nil⟩

def get (m : BTreeMap V) (k : Nat) : Option V := m.entries.lookup k

/-- The entries with `(k, v)` put in its place. -/
def insertEntry (k : Nat) (v : V) : List (Nat × V) → List (Nat × V)
  | [] => [(k, v)]
  | e :: es =>
    if k < e.1 then (k, v) :: e :: es
    else if k = e.1 then (k, v) :: es
    else e :: insertEntry k v es

theorem mem_insertEntry {k : Nat} {v : V} {es : List (Nat × V)} {x : Nat × V}
    (h : x ∈ insertEntry k v es) : x.1 = k ∨ x ∈ es := by
  induction es with
  | nil => simp_all [insertEntry]
  | cons e es ih =>
    simp only [insertEntry] at h
    split_ifs at h <;> simp at h
    · rcases h with rfl | rfl | h <;> simp_all
    · rcases h with rfl | h <;> simp_all
    · rcases h with rfl | h
      · simp
      · rcases ih h with h | h <;> simp_all

theorem sorted_insertEntry (k : Nat) (v : V) {es : List (Nat × V)}
    (h : es.Pairwise (fun a b => a.1 < b.1)) : (insertEntry k v es).Pairwise (fun a b => a.1 < b.1) := by
  induction es with
  | nil => simp [insertEntry]
  | cons e es ih =>
    rw [List.pairwise_cons] at h
    simp only [insertEntry]
    split_ifs with h1 h2
    · exact List.Pairwise.cons (fun b hb => by rcases List.mem_cons.1 hb with rfl | hb
                                               · exact h1
                                               · exact h1.trans (h.1 b hb)) (List.Pairwise.cons h.1 h.2)
    · exact List.Pairwise.cons (fun b hb => h2 ▸ h.1 b hb) h.2
    · refine List.Pairwise.cons (fun b hb => ?_) (ih h.2)
      rcases mem_insertEntry hb with hb | hb
      · omega
      · exact h.1 b hb

theorem lookup_insertEntry (k a : Nat) (v : V) (es : List (Nat × V)) :
    (insertEntry k v es).lookup a = if a = k then some v else es.lookup a := by
  induction es with
  | nil => simp [insertEntry, lookup_cons_eq]
  | cons e es ih =>
    simp only [insertEntry]
    by_cases h1 : k < e.1
    · rw [if_pos h1, lookup_cons_eq]
    rw [if_neg h1]
    by_cases h2 : k = e.1
    · rw [if_pos h2, lookup_cons_eq, lookup_cons_eq, ← h2]
      by_cases ha : a = k <;> simp [ha]
    · rw [if_neg h2, lookup_cons_eq, ih, lookup_cons_eq]
      by_cases ha : a = k
      · subst ha; simp [h2]
      · simp [ha]

/-- `BTreeMap::insert`: the value it replaced, and the map. -/
def insert (m : BTreeMap V) (k : Nat) (v : V) : Option V × BTreeMap V :=
  (m.get k, ⟨insertEntry k v m.entries, sorted_insertEntry k v m.sorted⟩)

@[simp] theorem insert_fst (m : BTreeMap V) (k : Nat) (v : V) : (m.insert k v).1 = m.get k := rfl

@[simp] theorem get_insert (m : BTreeMap V) (k a : Nat) (v : V) :
    (m.insert k v).2.get a = if a = k then some v else m.get a :=
  lookup_insertEntry k a v m.entries

@[simp] theorem get_empty (a : Nat) : (empty : BTreeMap V).get a = none := rfl

theorem lookup_filter (p : Nat → Bool) (a : Nat) (es : List (Nat × V)) :
    (es.filter (fun e => p e.1)).lookup a = if p a then es.lookup a else none := by
  induction es with
  | nil => simp
  | cons e es ih =>
    by_cases ha : a = e.1
    · subst ha; cases hp : p e.1 <;> simp [List.filter_cons, hp, lookup_cons_eq, ih]
    · cases hp : p e.1 <;> simp [List.filter_cons, hp, lookup_cons_eq, ih, ha]

/-- `split_off(key)`: the entries below `key`, kept in place, and those from `key` on,
  returned. -/
def splitOff (m : BTreeMap V) (k : Nat) : BTreeMap V × BTreeMap V :=
  (⟨m.entries.filter (fun e => decide (e.1 < k)), m.sorted.filter _⟩,
   ⟨m.entries.filter (fun e => decide (k ≤ e.1)), m.sorted.filter _⟩)

@[simp] theorem get_splitOff_fst (m : BTreeMap V) (k a : Nat) :
    (m.splitOff k).1.get a = if a < k then m.get a else none := by
  simpa using lookup_filter (fun x => decide (x < k)) a m.entries

@[simp] theorem get_splitOff_snd (m : BTreeMap V) (k a : Nat) :
    (m.splitOff k).2.get a = if k ≤ a then m.get a else none := by
  simpa using lookup_filter (fun x => decide (k ≤ x)) a m.entries

/-- `append(other)`: every entry of `other` inserted, replacing what `self` held there. -/
def append (m other : BTreeMap V) : BTreeMap V :=
  other.entries.foldl (fun acc e => (acc.insert e.1 e.2).2) m

theorem get_foldl_insert (a : Nat) :
    ∀ (es : List (Nat × V)) (m : BTreeMap V), es.Pairwise (fun a b => a.1 < b.1) →
      (es.foldl (fun acc e => (acc.insert e.1 e.2).2) m).get a = (es.lookup a).or (m.get a)
  | [], _, _ => by simp
  | e :: es, m, h => by
    rw [List.pairwise_cons] at h
    rw [List.foldl_cons, get_foldl_insert a es _ h.2, get_insert, lookup_cons_eq]
    by_cases ha : a = e.1
    · rw [if_pos ha, if_pos ha, lookup_eq_none fun x hx => by have := h.1 x hx; omega]; rfl
    · rw [if_neg ha, if_neg ha]

@[simp] theorem get_append (m other : BTreeMap V) (a : Nat) :
    (m.append other).get a = (other.get a).or (m.get a) :=
  get_foldl_insert a other.entries m other.sorted

/-- The values, in ascending key order (`iter().map(|(_, v)| v)`). -/
def values (m : BTreeMap V) : List V := m.entries.map (·.2)

theorem mem_values_of_get {m : BTreeMap V} {k : Nat} {v : V} (h : m.get k = some v) : v ∈ m.values :=
  List.mem_map.2 ⟨(k, v), mem_of_lookup_eq_some h, rfl⟩

/-- In a list of ascending keys every entry is found under its key. -/
theorem lookup_of_mem : ∀ {es : List (Nat × V)}, es.Pairwise (fun a b => a.1 < b.1) →
    ∀ {e : Nat × V}, e ∈ es → es.lookup e.1 = some e.2
  | e' :: _, h, e, he => by
    rw [lookup_cons_eq]
    rcases List.mem_cons.1 he with rfl | he
    · exact if_pos rfl
    · rw [if_neg (Nat.ne_of_gt (List.rel_of_pairwise_cons h he))]
      exact lookup_of_mem (List.Pairwise.of_cons h) he

/-- The values are exactly what some key reads. -/
theorem mem_values_iff {m : BTreeMap V} {v : V} : v ∈ m.values ↔ ∃ k, m.get k = some v :=
  ⟨fun h => let ⟨e, he, hv⟩ := List.mem_map.1 h; ⟨e.1, hv ▸ lookup_of_mem m.sorted he⟩,
    fun ⟨_, hk⟩ => mem_values_of_get hk⟩

end BTreeMap

/-- FRAME's `linked_map u32 => u32`: `entries` in `enumerate` order, head first. -/
structure LinkedMap where
  entries : List (Nat × Nat)
  nodup : (entries.map (·.1)).Nodup

namespace LinkedMap

def empty : LinkedMap := ⟨[], List.nodup_nil⟩

def keys (m : LinkedMap) : List Nat := m.entries.map (·.1)

/-- `get`: the value at `k`, or `u32::default()`. -/
def get (m : LinkedMap) (k : Nat) : Nat := (m.entries.lookup k).getD 0

def «exists» (m : LinkedMap) (k : Nat) : Bool := (m.entries.lookup k).isSome

def head (m : LinkedMap) : Option Nat := m.entries.head?.map (·.1)

/-- `enumerate().position(|(_k, v)| v == id)`. -/
def position (m : LinkedMap) (id : Nat) : Option Nat := m.entries.findIdx? (·.2 == id)

theorem keys_map_value (es : List (Nat × Nat)) (f : Nat × Nat → Nat) :
    (es.map (fun e => (e.1, f e))).map (·.1) = es.map (·.1) := by
  simp

/-- The entries with the value at `k` replaced, the order kept. -/
def setValue (m : LinkedMap) (k v : Nat) : LinkedMap :=
  ⟨m.entries.map (fun e => (e.1, if e.1 = k then v else e.2)), by rw [keys_map_value]; exact m.nodup⟩

/-- `remove`: unlink `k`. -/
def remove (m : LinkedMap) (k : Nat) : LinkedMap :=
  ⟨m.entries.filter (fun e => e.1 ≠ k), m.nodup.sublist ((List.filter_sublist _).map _)⟩

/-- `k`, absent, linked in as the new head. -/
def pushHead (m : LinkedMap) (k v : Nat) (h : m.entries.lookup k = none) : LinkedMap :=
  ⟨(k, v) :: m.entries, by
    refine List.nodup_cons.2 ⟨fun hk => ?_, m.nodup⟩
    obtain ⟨e, he, rfl⟩ := List.mem_map.1 hk
    exact ne_of_lookup_eq_none h e he rfl⟩

/-- `insert`: a present key keeps its place, a new one becomes the head. -/
def insert (m : LinkedMap) (k v : Nat) : LinkedMap :=
  match h : m.entries.lookup k with
  | some _ => m.setValue k v
  | none => m.pushHead k v h

theorem get_insert_of_lookup_eq_none {m : LinkedMap} {k : Nat} (v : Nat)
    (h : m.entries.lookup k = none) (a : Nat) :
    (m.insert k v).get a = if a = k then v else m.get a := by
  unfold insert
  split
  · simp_all
  · simp only [get, pushHead, lookup_cons_eq]
    split <;> rfl

/-- `swap(k1, k2)`. -/
def swap (m : LinkedMap) (k1 k2 : Nat) : LinkedMap :=
  match m.entries.lookup k1, m.entries.lookup k2 with
  | some v1, some v2 => (m.setValue k1 v2).setValue k2 v1
  | some v1, none => (m.remove k1).insert k2 v1
  | none, some v2 => (m.remove k2).insert k1 v2
  | none, none => m

/-- The values, in `enumerate` order: `enumerate().map(|(_k, v)| v)`. -/
def values (m : LinkedMap) : List Nat := m.entries.map (·.2)

/-- `setValue` changes the value at `k` only, in place. -/
theorem lookup_setValue (m : LinkedMap) (k v a : Nat) :
    (m.setValue k v).entries.lookup a = (m.entries.lookup a).map fun w => if a = k then v else w := by
  simp only [setValue]
  induction m.entries with
  | nil => rfl
  | cons e es ih =>
    obtain ⟨b, w⟩ := e
    simp only [List.map_cons, lookup_cons_eq]
    split_ifs with hab <;> simp_all

@[simp] theorem keys_setValue (m : LinkedMap) (k v : Nat) : (m.setValue k v).keys = m.keys := by
  simp [keys, setValue]

@[simp] theorem length_setValue (m : LinkedMap) (k v : Nat) :
    (m.setValue k v).entries.length = m.entries.length :=
  List.length_map _ _

theorem head?_setValue (m : LinkedMap) (k v : Nat) :
    (m.setValue k v).entries.head? = m.entries.head?.map fun e => (e.1, if e.1 = k then v else e.2) :=
  List.head?_map _ _

theorem lookup_remove (m : LinkedMap) (k a : Nat) :
    (m.remove k).entries.lookup a = if a = k then none else m.entries.lookup a :=
  (BTreeMap.lookup_filter (fun x => decide (x ≠ k)) a m.entries).trans (by by_cases h : a = k <;> simp [h])

theorem keys_remove (m : LinkedMap) (k : Nat) : (m.remove k).keys = m.keys.filter (· ≠ k) := by
  simp only [keys, remove, List.filter_map]
  rfl

/-- `swap` of two present keys exchanges their values in place. -/
theorem swap_eq_setValue {m : LinkedMap} {k1 k2 v1 v2 : Nat} (h1 : m.entries.lookup k1 = some v1)
    (h2 : m.entries.lookup k2 = some v2) : m.swap k1 k2 = (m.setValue k1 v2).setValue k2 v1 := by
  simp only [swap, h1, h2]

theorem insert_entries_of_lookup_eq_none {m : LinkedMap} {k : Nat} (v : Nat)
    (h : m.entries.lookup k = none) : (m.insert k v).entries = (k, v) :: m.entries := by
  unfold insert
  split
  · simp_all
  · rfl

theorem insert_eq_setValue {m : LinkedMap} {k : Nat} (v : Nat) (h : (m.entries.lookup k).isSome) :
    m.insert k v = m.setValue k v := by
  unfold insert
  split
  · rfl
  · simp_all

theorem lookup_insert (m : LinkedMap) (k v a : Nat) :
    (m.insert k v).entries.lookup a = if a = k then some v else m.entries.lookup a := by
  unfold insert
  split
  · rename_i w hw
    rw [lookup_setValue]
    split_ifs with hak
    · subst hak; rw [hw]; simp
    · simp
  · simp only [pushHead, lookup_cons_eq]

/-- `swap` of two keys changes the entries at those keys only. -/
theorem lookup_swap_of_ne (m : LinkedMap) {k1 k2 a : Nat} (h1 : a ≠ k1) (h2 : a ≠ k2) :
    (m.swap k1 k2).entries.lookup a = m.entries.lookup a := by
  unfold swap
  split <;> simp [lookup_setValue, lookup_insert, lookup_remove, h1, h2]

theorem mem_values_setValue {m : LinkedMap} {k v x : Nat} (h : x ∈ (m.setValue k v).values) :
    x = v ∨ x ∈ m.values := by
  simp only [values, setValue, List.map_map, List.mem_map, Function.comp] at h
  obtain ⟨e, he, rfl⟩ := h
  split_ifs
  · exact .inl rfl
  · exact .inr (List.mem_map_of_mem _ he)

theorem mem_values_remove {m : LinkedMap} {k x : Nat} (h : x ∈ (m.remove k).values) : x ∈ m.values :=
  List.map_subset _ (List.filter_subset' _) h

theorem mem_values_insert {m : LinkedMap} {k v x : Nat} (h : x ∈ (m.insert k v).values) :
    x = v ∨ x ∈ m.values := by
  unfold insert at h
  split at h
  · exact mem_values_setValue h
  · simpa [pushHead, values] using h

/-- `swap` only moves values between keys. -/
theorem mem_values_swap {m : LinkedMap} {k1 k2 x : Nat} (h : x ∈ (m.swap k1 k2).values) : x ∈ m.values := by
  have hv : ∀ {k w}, m.entries.lookup k = some w → w ∈ m.values := fun hk =>
    List.mem_map_of_mem (·.2) (mem_of_lookup_eq_some hk)
  unfold swap at h
  split at h
  · rename_i v1 v2 h1 h2
    rcases mem_values_setValue h with rfl | h
    · exact hv h1
    rcases mem_values_setValue h with rfl | h
    · exact hv h2
    · exact h
  · rename_i v1 h1 _
    rcases mem_values_insert h with rfl | h
    · exact hv h1
    · exact mem_values_remove h
  · rename_i v2 _ h2
    rcases mem_values_insert h with rfl | h
    · exact hv h2
    · exact mem_values_remove h
  · exact h

/-- With keys unique, the entry at every index is what `lookup` finds for its key. -/
theorem lookup_getElem : ∀ {es : List (Nat × Nat)}, (es.map (·.1)).Nodup → ∀ (i : Nat) (hi : i < es.length),
    es.lookup es[i].1 = some es[i].2
  | e :: es, hnd, 0, _ => by simp [lookup_cons_eq]
  | e :: es, hnd, i + 1, hi => by
    have hi' : i < es.length := by simpa using hi
    have hne : es[i].1 ≠ e.1 := fun h => (List.nodup_cons.1 hnd).1 (by
      show e.1 ∈ es.map (·.1)
      rw [← h]
      exact List.mem_map_of_mem _ (List.getElem_mem hi'))
    show (e :: es).lookup es[i].1 = some es[i].2
    rw [lookup_cons_eq, if_neg hne]
    exact lookup_getElem (List.nodup_cons.1 hnd).2 i hi'

end LinkedMap

end BtcParachain
