import BtcParachain.Bitcoin.Merkle
/-
  BtcParachain.Bitcoin.Parse — `MerkleProof::parse` (crates/bitcoin/src/merkle.rs), the
  decoder of the bytes `gettxoutproof` returns: an 80-byte block header, the transaction
  count as 4 little-endian bytes, a variable-length hash count, the hashes (32 bytes
  each), a variable-length flag-byte count, and the flag bytes, each expanded to 8 bits
  from the least significant one.

  `parse` returns a `MerkleProof`, not a `Result`: each slice `&m[a..b]` and index `m[i]`
  it takes panics past the end of `m`, which the model renders as `none`. The hash count
  is read from the fixed slice `&m[84..87]`, the flag-byte count from
  `&m[i..min(i + 3, m.len())]`. The header parser (`parse_block_header ∘
  header_from_bytes`) is a parameter, as in the relay; `parser::parse_varint` is not in
  src/ and is modelled from the spec as Bitcoin's CompactSize.

  `encodeProof` is the other direction, written from the layout above: CompactSize counts,
  hashes in order, flag bits packed eight to a byte. Each field is read back from the
  offset where the previous one ends (`parseVarint_compactSize`, `readHashes_of_drop`,
  `readFlagBits_of_drop`).

  Proved:
  - `parse_encodeProof`: on the encoding of an 80-byte header, a count, fewer than 2^16
    hashes and fewer than 2^16 flag bytes, `parse` returns the header's parse, the count,
    the hashes and the flag bits, except when there are neither hashes nor flag bits:
    that encoding is 86 bytes long, and `&m[84..87]` panics.
  - `parse_panics_on_truncated_input`: every input shorter than 87 bytes panics, and so
    does every input whose hash count announces more hashes than the bytes after it.
  - `parse_append`: bytes after the flag bytes are never read: whatever `parse` accepts, it
    accepts with any bytes appended, and returns the same proof.
  - `parse_accepts_layout`: whatever `parse` accepts is laid out as the encoding is, 80
    header bytes, 4 count bytes, a varint of the hash count, the hashes the proof holds, a
    varint of the flag-byte count and the flag bytes the proof's bits expand, followed by
    bytes it never reads; the varints need not be the shortest encodings of their counts.
-/

namespace BtcParachain.Bitcoin

/-! ## The decoder -/

/-- The value of bytes read little-endian (`u32::from_le_bytes` and the like). -/
def leValue (bytes : List UInt8) : Nat := bytes.foldr (fun b acc => b.toNat + 256 * acc) 0

/-- `&m[a..b]`: panics unless `a ≤ b ≤ m.len()`. -/
def slice (m : List UInt8) (a b : Nat) : Option (List UInt8) :=
  if a ≤ b ∧ b ≤ m.length then some ((m.drop a).take (b - a)) else none

/-- Modelled from the spec: `parser::parse_varint` of the bitcoin crate (not in src/), the
  spec's "variable-length integer", read as Bitcoin's CompactSize. A first byte below
  `0xfd` is the value; `0xfd`, `0xfe` and `0xff` announce a 2-, 4- or 8-byte
  little-endian value after it. It returns the bytes it consumed and the value; reading
  past the slice it is given panics. -/
def parseVarint (varint : List UInt8) : Option (Nat × Nat) :=
  match varint with
  | [] => none
  | first :: rest =>
    if first.toNat < 0xfd then some (1, first.toNat)
    else
      let size := if first.toNat = 0xfd then 2 else if first.toNat = 0xfe then 4 else 8
      if size ≤ rest.length then some (size + 1, leValue (rest.take size)) else none

/-- The bytes of `&m[i..i + 32]`; panics past the end of `m`. -/
def hashBytesAt (m : List UInt8) (i : Nat) : Option Bytes32 :=
  if h : i + 32 ≤ m.length then
    some ⟨(m.drop i).take 32, by rw [List.length_take, List.length_drop]; omega⟩
  else none

/-- The loop over the hashes: `count` hashes of 32 bytes from `currentIndex`; the hashes,
  and the index after them. -/
def readHashes (m : List UInt8) : Nat → Nat → Option (List H256Le × Nat)
  | 0, currentIndex => some ([], currentIndex)
  | count + 1, currentIndex => do
    let rawHash ← hashBytesAt m currentIndex
    let (hashes, currentIndex) ← readHashes m count (currentIndex + 32)
    pure (H256Le.fromBytesLe rawHash :: hashes, currentIndex)

/-- The inner loop over one flag byte: bit `i` is `byte & (1 << i) != 0`, `i` from 0 to 7. -/
def byteBits (byte : UInt8) : List Bool :=
  (List.range 8).map fun i => byte &&& ((1 : UInt8) <<< (UInt8.ofNat i)) != 0

/-- The loop over the flag bytes: `m[currentIndex + i]` for `i` below `count`, each
  expanded by `byteBits`. -/
def readFlagBits (m : List UInt8) : Nat → Nat → Option (List Bool)
  | _, 0 => some []
  | currentIndex, count + 1 => do
    let byte ← m[currentIndex]?
    let rest ← readFlagBits m (currentIndex + 1) count
    pure (byteBits byte ++ rest)

section

variable (parseBlockHeader : List UInt8 → BlockHeader)

/-- `MerkleProof::parse`. -/
def MerkleProof.parse (merkleProof : List UInt8) : Option MerkleProof := do
  let headerBytes ← slice merkleProof 0 80
  let transactionsCount ← slice merkleProof 80 84
  let varint ← slice merkleProof 84 87
  let (bytesConsumed, hashesCount) ← parseVarint varint
  let (hashes, currentIndex) ← readHashes merkleProof hashesCount (bytesConsumed + 84)
  let lastByte := min (currentIndex + 3) merkleProof.length
  let varint ← slice merkleProof currentIndex lastByte
  let (bytesConsumed, flagBitsCount) ← parseVarint varint
  let flagBits ← readFlagBits merkleProof (currentIndex + bytesConsumed) flagBitsCount
  pure ⟨parseBlockHeader headerBytes, UInt32.ofNat (leValue transactionsCount), hashes, flagBits⟩

end

/-! ## The encoding -/

/-- `n` as `w` little-endian bytes. -/
def leBytes : Nat → Nat → List UInt8
  | 0, _ => []
  | w + 1, n => UInt8.ofNat (n % 256) :: leBytes w (n / 256)

/-- Bitcoin's CompactSize encoding of `n`. -/
def compactSize (n : Nat) : List UInt8 :=
  if n < 0xfd then [UInt8.ofNat n]
  else if n < 2 ^ 16 then 0xfd :: leBytes 2 n
  else if n < 2 ^ 32 then 0xfe :: leBytes 4 n
  else 0xff :: leBytes 8 n

/-- Bits as a number, the first the least significant. -/
def packValue (bits : List Bool) : Nat := bits.foldr (fun b acc => (if b then 1 else 0) + 2 * acc) 0

/-- Eight flag bits as one byte. -/
def packByte (bits : List Bool) : UInt8 := UInt8.ofNat (packValue bits)

/-- Flag bits packed eight to a byte. -/
def packFlags : List Bool → List UInt8
  | b0 :: b1 :: b2 :: b3 :: b4 :: b5 :: b6 :: b7 :: rest =>
    packByte [b0, b1, b2, b3, b4, b5, b6, b7] :: packFlags rest
  | _ => []

/-- The proof bytes for a header's bytes, a transaction count, hashes and flag bits. -/
def encodeProof (headerBytes : List UInt8) (transactionsCount : UInt32) (hashes : List H256Le)
    (flagBits : List Bool) : List UInt8 :=
  headerBytes ++ (leBytes 4 transactionsCount.toNat ++ (compactSize hashes.length ++
    ((hashes.map fun h => h.content.bytes).flatten ++
      (compactSize (flagBits.length / 8) ++ packFlags flagBits))))

/-! ## Reading each field back -/

@[simp] theorem length_leBytes : ∀ w n, (leBytes w n).length = w
  | 0, _ => rfl
  | w + 1, n => by simp [leBytes, length_leBytes w]

theorem leValue_leBytes : ∀ w n, leValue (leBytes w n) = n % 256 ^ w
  | 0, n => by simp [leBytes, leValue, Nat.mod_one]
  | w + 1, n => by
    have h := leValue_leBytes w (n / 256)
    simp only [leValue, leBytes, List.foldr_cons] at h ⊢
    rw [h, UInt8.toNat_ofNat_of_lt (Nat.mod_lt _ (by decide)), Nat.pow_succ', Nat.mod_mul]

/-- A CompactSize below `2 ^ 16` takes one byte, or three. -/
theorem length_compactSize_le {n : Nat} (hn : n < 2 ^ 16) :
    1 ≤ (compactSize n).length ∧ (compactSize n).length ≤ 3 := by
  unfold compactSize
  split_ifs <;> simp

/-- `parse_varint` reads a CompactSize below `2 ^ 16` back, whatever follows it. -/
theorem parseVarint_compactSize {n : Nat} (hn : n < 2 ^ 16) (extra : List UInt8) :
    parseVarint (compactSize n ++ extra) = some ((compactSize n).length, n) := by
  unfold compactSize
  split_ifs with h1
  · simp [parseVarint, UInt8.toNat_ofNat_of_lt (show n < UInt8.size by simp [UInt8.size]; omega), h1]
  · have hv : leValue (leBytes 2 n) = n := by rw [leValue_leBytes]; omega
    simp [parseVarint, List.take_left', hv, UInt8.size]

theorem slice_eq_some {m : List UInt8} {a b : Nat} (hab : a ≤ b) (hb : b ≤ m.length) :
    slice m a b = some ((m.drop a).take (b - a)) := if_pos ⟨hab, hb⟩

theorem slice_eq_none {m : List UInt8} {a b : Nat} (hb : m.length < b) : slice m a b = none :=
  if_neg fun h => absurd h.2 (Nat.not_le.2 hb)

/-- The hashes read back from where their bytes start. -/
theorem readHashes_of_drop {m : List UInt8} :
    ∀ (hs : List H256Le) (p : Nat) (rest : List UInt8),
      m.drop p = (hs.map fun h => h.content.bytes).flatten ++ rest →
      readHashes m hs.length p = some (hs, p + 32 * hs.length)
  | [], p, _, _ => rfl
  | ⟨⟨bs, hbs⟩⟩ :: hs, p, rest, hd => by
    rw [List.map_cons, List.flatten_cons, List.append_assoc] at hd
    have hlen := congrArg List.length hd
    rw [List.length_drop, List.length_append, hbs] at hlen
    have hbytes : hashBytesAt m p = some ⟨bs, hbs⟩ := by
      rw [hashBytesAt, dif_pos (by omega)]
      simp only [Option.some.injEq, Bytes32.mk.injEq, hd, List.take_left' hbs]
    have hnext : m.drop (p + 32) = (hs.map fun h => h.content.bytes).flatten ++ rest := by
      rw [← List.drop_drop, hd, List.drop_left' hbs]
    simp only [readHashes, List.length_cons, hbytes, readHashes_of_drop hs (p + 32) rest hnext]
    simp only [Option.some_bind, H256Le.fromBytesLe]
    rw [show p + 32 + 32 * hs.length = p + 32 * (hs.length + 1) by ring]
    rfl

/-- Reading one hash or more past the end of the proof panics. -/
theorem readHashes_eq_none {m : List UInt8} :
    ∀ (n p : Nat), m.length < p + 32 * (n + 1) → readHashes m (n + 1) p = none
  | 0, p, h => by
    simp only [readHashes, hashBytesAt, dif_neg (show ¬ p + 32 ≤ m.length by omega)]
    rfl
  | n + 1, p, h => by
    rw [readHashes, hashBytesAt]
    split_ifs
    · rw [readHashes_eq_none n (p + 32) (by omega)]
      rfl
    · rfl

/-! ## Flag bytes -/

@[simp] theorem packValue_cons (b : Bool) (bits : List Bool) :
    packValue (b :: bits) = (if b then 1 else 0) + 2 * packValue bits := rfl

theorem testBit_packValue : ∀ (bits : List Bool) (i : Nat), (packValue bits).testBit i = bits.getD i false
  | [], i => by simp [packValue]
  | b :: bits, 0 => by
    rw [Nat.testBit_zero, packValue_cons, List.getD_cons_zero]
    cases b <;> simp
  | b :: bits, i + 1 => by
    rw [Nat.testBit_succ, packValue_cons, List.getD_cons_succ, ← testBit_packValue bits i]
    congr 1
    cases b <;> simp only [↓reduceIte, Bool.false_eq_true] <;> omega

theorem packValue_lt : ∀ bits : List Bool, packValue bits < 2 ^ bits.length
  | [] => Nat.one_pos
  | b :: bits => by
    have := packValue_lt bits
    rw [packValue_cons, List.length_cons, Nat.pow_succ]
    cases b <;> simp only [↓reduceIte, Bool.false_eq_true] <;> omega

/-- Bit `i` of `n` is set exactly when `n & 2^i` is not zero. -/
theorem and_two_pow_ne_zero (n i : Nat) : n &&& 2 ^ i ≠ 0 ↔ n.testBit i = true := by
  constructor
  · intro h
    by_contra hb
    apply h
    apply Nat.eq_of_testBit_eq
    intro j
    rw [Nat.testBit_and, Nat.testBit_two_pow, Nat.zero_testBit]
    by_cases hij : i = j
    · subst hij
      simpa using hb
    · simp [hij]
  · intro h h0
    have := congrArg (Nat.testBit · i) h0
    simp [Nat.testBit_and, Nat.testBit_two_pow, h] at this

/-- `byteBits` lists the byte's bits, the least significant first. -/
theorem byteBits_eq (byte : UInt8) :
    byteBits byte = (List.range 8).map fun i => byte.toNat.testBit i := by
  refine List.map_congr_left fun i hi => ?_
  have hshift : ((1 : UInt8) <<< (UInt8.ofNat i)).toNat = 2 ^ i := by
    have := List.mem_range.1 hi
    interval_cases i <;> rfl
  rw [Bool.eq_iff_iff, bne_iff_ne, ← and_two_pow_ne_zero, ← hshift, ← UInt8.and_toNat]
  exact not_congr ⟨fun h => by rw [h]; rfl, fun h => UInt8.toNat.inj h⟩

/-- Expanding a packed byte gives back its eight bits. -/
theorem byteBits_packByte {bits : List Bool} (h : bits.length = 8) : byteBits (packByte bits) = bits := by
  have hlt := packValue_lt bits
  rw [h] at hlt
  rw [byteBits_eq, packByte, UInt8.toNat_ofNat_of_lt hlt]
  refine List.ext_getElem (by simp [h]) fun i _ h2 => ?_
  simp [testBit_packValue, List.getD_eq_getElem?_getD, h2]

/-- A list of `8 * (k + 1)` bits starts with eight of them. -/
theorem exists_eq_eight_cons {fs : List Bool} {k : Nat} (h : fs.length = 8 * (k + 1)) :
    ∃ b0 b1 b2 b3 b4 b5 b6 b7 rest, fs = b0 :: b1 :: b2 :: b3 :: b4 :: b5 :: b6 :: b7 :: rest ∧
      rest.length = 8 * k :=
  match fs, h with
  | b0 :: b1 :: b2 :: b3 :: b4 :: b5 :: b6 :: b7 :: rest, h =>
    ⟨b0, b1, b2, b3, b4, b5, b6, b7, rest, rfl, by simp only [List.length_cons] at h; omega⟩
  | [], h | [_], h | [_, _], h | [_, _, _], h | [_, _, _, _], h | [_, _, _, _, _], h
  | [_, _, _, _, _, _], h | [_, _, _, _, _, _, _], h => by
    simp only [List.length_cons, List.length_nil] at h
    exact absurd h (by omega)

theorem length_packFlags : ∀ (k : Nat) (fs : List Bool), fs.length = 8 * k → (packFlags fs).length = k
  | 0, fs, h => by rw [List.eq_nil_of_length_eq_zero (by omega : fs.length = 0)]; rfl
  | k + 1, fs, h => by
    obtain ⟨b0, b1, b2, b3, b4, b5, b6, b7, rest, rfl, hr⟩ := exists_eq_eight_cons h
    rw [packFlags, List.length_cons, length_packFlags k rest hr]

/-- The flag bits read back from where their bytes start. -/
theorem readFlagBits_of_drop {m : List UInt8} :
    ∀ (k : Nat) (fs : List Bool) (p : Nat) (rest : List UInt8), fs.length = 8 * k →
      m.drop p = packFlags fs ++ rest → readFlagBits m p k = some fs
  | 0, fs, p, rest, h, _ => by rw [List.eq_nil_of_length_eq_zero (by omega : fs.length = 0)]; rfl
  | k + 1, fs, p, rest, h, hd => by
    obtain ⟨b0, b1, b2, b3, b4, b5, b6, b7, fs, rfl, hr⟩ := exists_eq_eight_cons h
    rw [packFlags, List.cons_append] at hd
    have hbyte : m[p]? = some (packByte [b0, b1, b2, b3, b4, b5, b6, b7]) := by
      rw [← Nat.add_zero p, ← List.getElem?_drop, hd, List.getElem?_cons_zero]
    have hnext : m.drop (p + 1) = packFlags fs ++ rest := by
      rw [← List.drop_drop, hd]
      rfl
    simp only [readFlagBits, hbyte, readFlagBits_of_drop k fs (p + 1) rest hr hnext,
      Option.bind_eq_bind, Option.some_bind,
      byteBits_packByte (rfl : [b0, b1, b2, b3, b4, b5, b6, b7].length = 8)]
    rfl

/-! ## The round trip -/

theorem length_hashBytes : ∀ hs : List H256Le,
    ((hs.map fun h => h.content.bytes).flatten).length = 32 * hs.length
  | [] => rfl
  | h :: hs => by
    rw [List.map_cons, List.flatten_cons, List.length_append, h.content.length_bytes,
      length_hashBytes hs, List.length_cons]
    ring

section

variable (parseBlockHeader : List UInt8 → BlockHeader)

/-- `parse` inverts `encodeProof` for an 80-byte header, fewer than `2 ^ 16` hashes and
  fewer than `2 ^ 16` flag bytes, except on the encoding with neither hashes nor flag bits:
  its 86 bytes are too short for the slice `&m[84..87]`, and `parse` panics. -/
theorem parse_encodeProof {headerBytes : List UInt8} (hb : headerBytes.length = 80)
    (t : UInt32) {hs : List H256Le} {fs : List Bool} (hhs : hs.length < 2 ^ 16)
    (hfs : fs.length % 8 = 0) (hfs' : fs.length / 8 < 2 ^ 16) :
    MerkleProof.parse parseBlockHeader (encodeProof headerBytes t hs fs) =
      if hs = [] ∧ fs = [] then none else some ⟨parseBlockHeader headerBytes, t, hs, fs⟩ := by
  -- the fields and their lengths
  set c1 := compactSize hs.length with hc1
  set hashBytes := (hs.map fun h => h.content.bytes).flatten with hH
  set c2 := compactSize (fs.length / 8) with hc2
  set flagBytes := packFlags fs with hF
  have lc1 : 1 ≤ c1.length ∧ c1.length ≤ 3 := length_compactSize_le hhs
  have lc2 : 1 ≤ c2.length ∧ c2.length ≤ 3 := length_compactSize_le hfs'
  have lH : hashBytes.length = 32 * hs.length := length_hashBytes hs
  have h8 : fs.length = 8 * (fs.length / 8) := (Nat.mul_div_cancel' (Nat.dvd_of_mod_eq_zero hfs)).symm
  have lF : flagBytes.length = fs.length / 8 := length_packFlags _ fs h8
  have l4 := length_leBytes 4 t.toNat
  set m := encodeProof headerBytes t hs fs with hm
  have hlen : m.length = 84 + c1.length + 32 * hs.length + c2.length + fs.length / 8 := by
    simp only [hm, encodeProof, List.length_append, hb, l4, lH, lF, ← hc1, ← hc2, ← hH, ← hF]
    omega
  -- the suffixes of the proof from each field on
  have d80 : m.drop 80 = leBytes 4 t.toNat ++ (c1 ++ (hashBytes ++ (c2 ++ flagBytes))) :=
    List.drop_left' hb
  have d84 : m.drop 84 = c1 ++ (hashBytes ++ (c2 ++ flagBytes)) := by
    rw [show 84 = 80 + 4 from rfl, ← List.drop_drop, d80, List.drop_left' l4]
  have dH : m.drop (c1.length + 84) = hashBytes ++ (c2 ++ flagBytes) := by
    rw [Nat.add_comm, ← List.drop_drop, d84, List.drop_left' rfl]
  have dc2 : m.drop (c1.length + 84 + 32 * hs.length) = c2 ++ flagBytes := by
    rw [← List.drop_drop, dH, List.drop_left' lH]
  have dF : m.drop (c1.length + 84 + 32 * hs.length + c2.length) = flagBytes ++ [] := by
    rw [← List.drop_drop, dc2, List.drop_left' rfl, List.append_nil]
  have h80 : slice m 0 80 = some headerBytes := by
    rw [slice_eq_some (Nat.zero_le _) (by omega), List.drop_zero, hm, encodeProof, List.take_left' hb]
  have h84 : slice m 80 84 = some (leBytes 4 t.toNat) := by
    rw [slice_eq_some (by decide) (by omega), d80, List.take_left' l4]
  have ht : UInt32.ofNat (leValue (leBytes 4 t.toNat)) = t := by
    rw [leValue_leBytes, Nat.mod_eq_of_lt (by have := t.toNat_lt_size; simp [UInt32.size] at this ⊢; omega)]
    exact UInt32.toNat.inj (UInt32.toNat_ofNat_of_lt t.toNat_lt_size)
  by_cases hempty : hs = [] ∧ fs = []
  · -- 86 bytes: the slice of the hash count panics
    have h87 : slice m 84 87 = none := slice_eq_none (by
      obtain ⟨rfl, rfl⟩ := hempty
      rw [hlen, hc1, hc2]
      decide)
    rw [if_pos hempty]
    simp only [MerkleProof.parse, h80, h84, h87, Option.bind_eq_bind, Option.some_bind,
      Option.none_bind]
  · rw [if_neg hempty]
    have hlong : 87 ≤ m.length := by
      rcases hs with _ | ⟨h, hs⟩
      · have : 0 < fs.length := List.length_pos.2 fun h => hempty ⟨rfl, h⟩
        omega
      · rw [List.length_cons] at hlen
        omega
    -- the hash count
    have h87 : slice m 84 87 = some (c1 ++ (hashBytes ++ (c2 ++ flagBytes)).take (3 - c1.length)) := by
      rw [slice_eq_some (by decide) hlong, d84, List.take_append_eq_append_take,
        List.take_of_length_le (by omega)]
    have hv1 := parseVarint_compactSize hhs ((hashBytes ++ (c2 ++ flagBytes)).take (3 - c1.length))
    have hr := readHashes_of_drop hs (c1.length + 84) (c2 ++ flagBytes) dH
    -- the flag-byte count
    have hlast : slice m (c1.length + 84 + 32 * hs.length)
        (min (c1.length + 84 + 32 * hs.length + 3) m.length) =
        some (c2 ++ flagBytes.take (min (c1.length + 84 + 32 * hs.length + 3) m.length -
          (c1.length + 84 + 32 * hs.length) - c2.length)) := by
      rw [slice_eq_some (by omega) (Nat.min_le_right _ _), dc2, List.take_append_eq_append_take,
        List.take_of_length_le (by omega)]
    have hv2 := parseVarint_compactSize hfs' (flagBytes.take (min (c1.length + 84 + 32 * hs.length + 3)
      m.length - (c1.length + 84 + 32 * hs.length) - c2.length))
    have hf := readFlagBits_of_drop (fs.length / 8) fs _ [] h8 dF
    simp only [MerkleProof.parse, h80, h84, h87, ← hc1, hv1, hr, hlast, ← hc2, hv2, hf,
      Option.bind_eq_bind, Option.some_bind, ht]
    rfl

/-- `parse` panics on truncated input: on every input shorter than 87 bytes, whose slice
  `&m[84..87]` runs past the end, and on every input whose hash count, read at byte 84,
  announces more hashes than the bytes after it hold. -/
theorem parse_panics_on_truncated_input :
    (∀ m : List UInt8, m.length < 87 → MerkleProof.parse parseBlockHeader m = none) ∧
    ∀ (m : List UInt8) (n : Nat) (rest : List UInt8), n < 2 ^ 16 → 87 ≤ m.length →
      m.drop 84 = compactSize n ++ rest → rest.length < 32 * n →
      MerkleProof.parse parseBlockHeader m = none := by
  refine ⟨fun m hm => by simp only [MerkleProof.parse, slice_eq_none hm, Option.bind_eq_bind,
    Option.none_bind, Option.bind_none], fun m n rest hn hm hd hr => ?_⟩
  obtain ⟨k, rfl⟩ : ∃ k, n = k + 1 := ⟨n - 1, by omega⟩
  have lc := length_compactSize_le hn
  have hlen := congrArg List.length hd
  rw [List.length_drop, List.length_append] at hlen
  have h87 : slice m 84 87 =
      some (compactSize (k + 1) ++ rest.take (3 - (compactSize (k + 1)).length)) := by
    rw [slice_eq_some (by omega) hm, hd, List.take_append_eq_append_take,
      List.take_of_length_le (by omega)]
  simp only [MerkleProof.parse, slice_eq_some (show 0 ≤ 80 by omega) (show 80 ≤ m.length by omega),
    slice_eq_some (show 80 ≤ 84 by omega) (show 84 ≤ m.length by omega), h87, parseVarint_compactSize hn,
    @readHashes_eq_none m k ((compactSize (k + 1)).length + 84) (by omega), Option.bind_eq_bind,
    Option.some_bind,
    Option.none_bind]

end

/-- The encoding with neither hashes nor flag bits is 86 bytes long, and `parse` panics
  on it. -/
theorem parse_encodeProof_empty :
    (List.replicate 80 (0 : UInt8)).length = 80 ∧ ([] : List H256Le).length < 2 ^ 16 ∧
      ([] : List Bool).length % 8 = 0 ∧ ([] : List Bool).length / 8 < 2 ^ 16 ∧
      (encodeProof (List.replicate 80 0) 0 [] []).length = 86 ∧
      MerkleProof.parse (fun _ => default) (encodeProof (List.replicate 80 0) 0 [] []) = none :=
  ⟨rfl, by decide, rfl, by decide, rfl,
    (@parse_encodeProof (fun _ => default) (List.replicate 80 0) rfl 0 [] [] (by decide) rfl
      (by decide)).trans (if_pos ⟨rfl, rfl⟩)⟩

/-! ## Trailing bytes -/

/-- What a slice that did not panic read. -/
theorem slice_spec {m v : List UInt8} {a b : Nat} (h : slice m a b = some v) :
    a ≤ b ∧ b ≤ m.length ∧ v = (m.drop a).take (b - a) := by
  unfold slice at h
  split_ifs at h with hab
  cases h
  exact ⟨hab.1, hab.2, rfl⟩

/-- A slice inside `m` reads the same with bytes appended, and a slice that ends further
  on reads it followed by more. -/
theorem slice_append {m extra v : List UInt8} {a b : Nat} (h : slice m a b = some v) {b' : Nat}
    (hb : b ≤ b') (hb' : b' ≤ (m ++ extra).length) :
    slice (m ++ extra) a b' = some (v ++ ((m ++ extra).drop b).take (b' - b)) := by
  unfold slice at h
  split_ifs at h with hab
  cases h
  rw [slice_eq_some (by omega) hb', show b' - a = (b - a) + (b' - b) by omega, List.take_add,
    List.drop_drop, show a + (b - a) = b by omega, List.drop_append_of_le_length (by omega),
    List.take_append_of_le_length (by rw [List.length_drop]; omega)]

theorem slice_append_of_eq {m extra v : List UInt8} {a b : Nat} (h : slice m a b = some v) :
    slice (m ++ extra) a b = some v := by
  have hb := (slice_spec h).2.1
  simpa using @slice_append _ extra _ _ _ h _ le_rfl (by rw [List.length_append]; omega)

theorem readHashes_append {m : List UInt8} (extra : List UInt8) :
    ∀ {n p : Nat} {r : List H256Le × Nat}, readHashes m n p = some r →
      readHashes (m ++ extra) n p = some r
  | 0, _, _, h => h
  | n + 1, p, r, h => by
    rw [readHashes, hashBytesAt] at h ⊢
    by_cases hp : p + 32 ≤ m.length
    · rw [dif_pos hp] at h
      rw [dif_pos (by rw [List.length_append]; omega)]
      simp only [Option.bind_eq_bind, Option.some_bind,
        List.drop_append_of_le_length (by omega : p ≤ m.length),
        List.take_append_of_le_length (by rw [List.length_drop]; omega : 32 ≤ (m.drop p).length)] at h ⊢
      cases hr : readHashes m n (p + 32) with
      | none => rw [hr] at h; cases h
      | some r' => rw [hr] at h; rw [readHashes_append extra hr]; exact h
    · rw [dif_neg hp] at h
      cases h

theorem readFlagBits_append {m : List UInt8} (extra : List UInt8) :
    ∀ {p n : Nat} {fs : List Bool}, readFlagBits m p n = some fs → readFlagBits (m ++ extra) p n = some fs
  | _, 0, _, h => h
  | p, n + 1, fs, h => by
    rw [readFlagBits] at h ⊢
    cases hb : m[p]? with
    | none => simp [hb] at h
    | some byte =>
      obtain ⟨hp, -⟩ := List.getElem?_eq_some_iff.1 hb
      simp only [hb, Option.bind_eq_bind, Option.some_bind, List.getElem?_append_left hp] at h ⊢
      cases hr : readFlagBits m (p + 1) n with
      | none => rw [hr] at h; cases h
      | some r => rw [hr] at h; rw [readFlagBits_append extra hr]; exact h

/-- `parse_varint` stops where its value ends: bytes after what it consumed do not
  change it. -/
theorem parseVarint_append {v w : List UInt8} {r : Nat × Nat} (h : parseVarint v = some r) :
    parseVarint (v ++ w) = some r := by
  cases v with
  | nil => cases h
  | cons first rest =>
    simp only [parseVarint, List.cons_append] at h ⊢
    by_cases h1 : first.toNat < 0xfd
    · rw [if_pos h1] at h ⊢
      exact h
    · rw [if_neg h1] at h ⊢
      generalize (if first.toNat = 0xfd then 2 else if first.toNat = 0xfe then 4 else 8) = size at h ⊢
      by_cases hs : size ≤ rest.length
      · rw [if_pos hs] at h
        rw [if_pos (by rw [List.length_append]; omega), List.take_append_of_le_length hs]
        exact h
      · rw [if_neg hs] at h
        cases h

section

variable (parseBlockHeader : List UInt8 → BlockHeader)

/-- What `parse` read, field by field, when it did not panic. -/
theorem parse_eq_some {m : List UInt8} {p : MerkleProof}
    (h : MerkleProof.parse parseBlockHeader m = some p) :
    ∃ hdr tc v1 c1 n hs ci v2 c2 k fs, slice m 0 80 = some hdr ∧ slice m 80 84 = some tc ∧
      slice m 84 87 = some v1 ∧ parseVarint v1 = some (c1, n) ∧
      readHashes m n (c1 + 84) = some (hs, ci) ∧ slice m ci (min (ci + 3) m.length) = some v2 ∧
      parseVarint v2 = some (c2, k) ∧ readFlagBits m (ci + c2) k = some fs ∧
      p = ⟨parseBlockHeader hdr, UInt32.ofNat (leValue tc), hs, fs⟩ := by
  simp only [MerkleProof.parse, Option.bind_eq_bind, Option.bind_eq_some, Prod.exists] at h
  obtain ⟨hdr, h0, tc, h1, v1, h2, c1, n, h3, hs, ci, h4, v2, h5, c2, k, h6, fs, h7, h8⟩ := h
  exact ⟨hdr, tc, v1, c1, n, hs, ci, v2, c2, k, fs, h0, h1, h2, h3, h4, h5, h6, h7, by cases h8; rfl⟩

/-- `parse` reads the proof from its front and never checks for the end: an input it
  accepts parses to the same proof with any bytes appended. -/
theorem parse_append {m : List UInt8} {p : MerkleProof}
    (h : MerkleProof.parse parseBlockHeader m = some p) (extra : List UInt8) :
    MerkleProof.parse parseBlockHeader (m ++ extra) = some p := by
  obtain ⟨hdr, tc, v1, c1, n, hs, ci, v2, c2, k, fs, h0, h1, h2, h3, h4, h5, h6, h7, rfl⟩ :=
    parse_eq_some parseBlockHeader h
  -- the flag-byte count's slice may reach further, over bytes `parse_varint` does not read
  have hci := (slice_spec h5).2.1
  have h5' := @slice_append _ extra _ _ _ h5 (min (ci + 3) (m ++ extra).length)
    (by rw [List.length_append]; omega) (Nat.min_le_right _ _)
  simp only [MerkleProof.parse, Option.bind_eq_bind, slice_append_of_eq h0, slice_append_of_eq h1,
    slice_append_of_eq h2, Option.some_bind, h3, readHashes_append extra h4, h5', parseVarint_append h6,
    readFlagBits_append extra h7, Option.pure_def]

end

/-- A header parser for the examples: the block hash is thirty-two copies of the first byte. -/
def firstByteHeader (bytes : List UInt8) : BlockHeader :=
  ⟨default, default, ⟨Bytes32.replicate (bytes.headD 0)⟩⟩

/-- A proof of 151 bytes: the header bytes `7…7`, a count of 2, the hashes `1…1` and `2…2`,
  and one flag byte. -/
def twoHashEncoding : List UInt8 :=
  encodeProof (List.replicate 80 7) 2 [⟨Bytes32.replicate 1⟩, ⟨Bytes32.replicate 2⟩]
    [true, true, false, false, false, false, false, false]

/-- What `parse` reads from `twoHashEncoding`. -/
def twoHashProof : MerkleProof :=
  ⟨firstByteHeader (List.replicate 80 7), 2, [⟨Bytes32.replicate 1⟩, ⟨Bytes32.replicate 2⟩],
    [true, true, false, false, false, false, false, false]⟩

set_option maxRecDepth 4000 in
/-- The proof with two hashes parses, and parses the same with a byte appended. -/
theorem parse_append_two_hashes :
    MerkleProof.parse firstByteHeader twoHashEncoding = some twoHashProof ∧
      MerkleProof.parse firstByteHeader (twoHashEncoding ++ [7]) = some twoHashProof :=
  have h : MerkleProof.parse firstByteHeader twoHashEncoding = some twoHashProof := rfl
  ⟨h, parse_append firstByteHeader h [7]⟩

/-! ## What `parse` accepts -/

/-- A varint read from a slice reads the same from the bytes it consumed, and consumed no
  more than the slice. -/
theorem parseVarint_take {v : List UInt8} {c n : Nat} (h : parseVarint v = some (c, n)) :
    c ≤ v.length ∧ parseVarint (v.take c) = some (c, n) := by
  cases v with
  | nil => cases h
  | cons first rest =>
    simp only [parseVarint] at h
    by_cases h1 : first.toNat < 0xfd
    · rw [if_pos h1] at h
      cases h
      exact ⟨by simp, by simp [parseVarint, h1]⟩
    · rw [if_neg h1] at h
      generalize hsz : (if first.toNat = 0xfd then 2 else if first.toNat = 0xfe then 4 else 8) = size at h
      by_cases hs : size ≤ rest.length
      · rw [if_pos hs] at h
        cases h
        refine ⟨by simp; omega, ?_⟩
        simp only [List.take_succ_cons, parseVarint, if_neg h1, hsz, List.length_take]
        rw [if_pos (by omega), List.take_take, min_self]
      · rw [if_neg hs] at h
        cases h

/-- The hashes the loop read are the bytes from where it started, 32 to a hash. -/
theorem readHashes_eq_some {m : List UInt8} : ∀ {n i : Nat} {hs : List H256Le} {j : Nat},
    readHashes m n i = some (hs, j) →
      hs.length = n ∧ j = i + 32 * n ∧
        (m.drop i).take (32 * n) = (hs.map fun h => h.content.bytes).flatten
  | 0, i, hs, j, h => by cases h; simp
  | n + 1, i, hs, j, h => by
    simp only [readHashes, hashBytesAt, Option.bind_eq_bind, Option.bind_eq_some] at h
    obtain ⟨raw, hraw, ⟨hs', j'⟩, hr, h⟩ := h
    split_ifs at hraw with hi
    cases hraw
    cases h
    obtain ⟨hlen, rfl, ih⟩ := readHashes_eq_some hr
    refine ⟨by simp [hlen], by omega, ?_⟩
    rw [show 32 * (n + 1) = 32 + 32 * n by omega, List.take_add, List.drop_drop, ih]
    rfl

/-- The flag bits the loop read are the bytes from where it started, each expanded. -/
theorem readFlagBits_eq_some {m : List UInt8} : ∀ {i n : Nat} {fs : List Bool},
    readFlagBits m i n = some fs →
      ((m.drop i).take n).length = n ∧ fs = ((m.drop i).take n).flatMap byteBits
  | _, 0, _, h => by cases h; simp
  | i, n + 1, fs, h => by
    simp only [readFlagBits, Option.bind_eq_bind, Option.bind_eq_some] at h
    obtain ⟨byte, hb, rest, hr, h⟩ := h
    cases h
    obtain ⟨hlen, rfl⟩ := readFlagBits_eq_some hr
    obtain ⟨hi, hget⟩ := List.getElem?_eq_some_iff.1 hb
    have hdrop : m.drop i = byte :: m.drop (i + 1) := by
      rw [List.drop_eq_getElem_cons hi, hget]
    rw [hdrop, List.take_succ_cons]
    exact ⟨by simp [hlen], by simp⟩

section

variable (parseBlockHeader : List UInt8 → BlockHeader)

/-- What `parse` accepts is laid out as the encoding: 80 header bytes, 4 count bytes, a
  varint of the hash count, the hashes, a varint of the flag-byte count, the flag bytes,
  and bytes it never reads. -/
theorem parse_accepts_layout {m : List UInt8} {p : MerkleProof}
    (h : MerkleProof.parse parseBlockHeader m = some p) :
    ∃ headerBytes countBytes v1 v2 flagBytes extra,
      m = headerBytes ++ (countBytes ++ (v1 ++ ((p.hashes.map fun h => h.content.bytes).flatten ++
        (v2 ++ (flagBytes ++ extra))))) ∧
      headerBytes.length = 80 ∧ p.blockHeader = parseBlockHeader headerBytes ∧
      countBytes.length = 4 ∧ p.transactionsCount = UInt32.ofNat (leValue countBytes) ∧
      parseVarint v1 = some (v1.length, p.hashes.length) ∧
      parseVarint v2 = some (v2.length, flagBytes.length) ∧
      p.flagBits = flagBytes.flatMap byteBits := by
  obtain ⟨hdr, tc, v1, c1, n, hs, ci, v2, c2, k, fs, h0, h1, h2, h3, h4, h5, h6, h7, rfl⟩ :=
    parse_eq_some parseBlockHeader h
  obtain ⟨-, hm80, rfl⟩ := slice_spec h0
  obtain ⟨-, hm84, rfl⟩ := slice_spec h1
  obtain ⟨-, -, rfl⟩ := slice_spec h2
  obtain ⟨hc1, hv1⟩ := parseVarint_take h3
  obtain ⟨hn, rfl, hhs⟩ := readHashes_eq_some h4
  obtain ⟨-, -, rfl⟩ := slice_spec h5
  obtain ⟨hc2, hv2⟩ := parseVarint_take h6
  obtain ⟨hk, rfl⟩ := readFlagBits_eq_some h7
  have hsplit : ∀ a b c, b = a + c → (m.drop a).take c ++ m.drop b = m.drop a := fun a b c h => by
    rw [h, ← List.drop_drop, List.take_append_drop]
  -- each varint was read from a slice of its own bytes, so it consumed what it counts
  have hv1c : c1 ≤ (m.drop 84).length := hc1.trans (List.length_take_le' _ _)
  have hv2c : c2 ≤ (m.drop (c1 + 84 + 32 * n)).length := hc2.trans (List.length_take_le' _ _)
  rw [List.take_take, min_eq_left (hc1.trans (List.length_take_le _ _))] at hv1
  rw [List.take_take, min_eq_left (hc2.trans (List.length_take_le _ _))] at hv2
  refine ⟨m.take 80, (m.drop 80).take 4, (m.drop 84).take c1, (m.drop (c1 + 84 + 32 * n)).take c2,
    (m.drop (c1 + 84 + 32 * n + c2)).take k, m.drop (c1 + 84 + 32 * n + c2 + k), ?_,
    List.length_take_of_le hm80, rfl, List.length_take_of_le (by rw [List.length_drop]; omega), rfl,
    ?_, ?_, rfl⟩
  · rw [← hhs, hsplit _ _ k rfl, hsplit _ _ c2 rfl, hsplit _ _ (32 * n) rfl,
      hsplit 84 (c1 + 84) c1 (Nat.add_comm _ _), hsplit 80 84 4 rfl, List.take_append_drop]
  · rwa [List.length_take_of_le hv1c, hn]
  · rwa [List.length_take_of_le hv2c, hk]

end

set_option maxRecDepth 4000 in
/-- The proof with two hashes: 80 header bytes, 4 count bytes, a one-byte varint, the two
  hashes' 64 bytes, a one-byte varint and the flag byte, and nothing after. -/
theorem parse_accepts_layout_two_hashes :
    MerkleProof.parse firstByteHeader twoHashEncoding = some twoHashProof ∧
      ∃ headerBytes countBytes v1 v2 flagBytes extra,
        twoHashEncoding = headerBytes ++ (countBytes ++ (v1 ++
          ((twoHashProof.hashes.map fun h => h.content.bytes).flatten ++ (v2 ++ (flagBytes ++ extra))))) ∧
        headerBytes.length = 80 ∧ twoHashProof.blockHeader = firstByteHeader headerBytes ∧
        countBytes.length = 4 ∧ twoHashProof.transactionsCount = UInt32.ofNat (leValue countBytes) ∧
        parseVarint v1 = some (v1.length, twoHashProof.hashes.length) ∧
        parseVarint v2 = some (v2.length, flagBytes.length) ∧
        twoHashProof.flagBits = flagBytes.flatMap byteBits :=
  have h : MerkleProof.parse firstByteHeader twoHashEncoding = some twoHashProof := rfl
  ⟨h, parse_accepts_layout firstByteHeader h⟩

end BtcParachain.Bitcoin
