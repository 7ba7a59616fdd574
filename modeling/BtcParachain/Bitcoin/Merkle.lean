import BtcParachain.Primitives
/-
  BtcParachain.Bitcoin.Merkle — `MerkleProof` (crates/bitcoin/src/merkle.rs): a
  `gettxoutproof` partial merkle tree and the depth-first replay that recovers its root,
  ported from Bitcoin's `CPartialMerkleTree::TraverseAndExtract`.

  `traverse_and_extract` takes one flag bit per node it visits. A leaf, or a node whose
  bit is 0, takes the next hash; a flagged leaf records its position and the index of
  its hash. A flagged inner node hashes its left child with its right one, or with
  itself when the right child is past the level's width. Reading `flag_bits` past its
  end panics; running out of hashes is `MalformedProof`. `verify_proof` checks the
  count and the bit/hash lengths first and, after the replay, that a leaf was recorded
  and every hash and every flag byte was used.

  The node hash is `hash256_merkle_step` of bitcoin_spv (a double SHA-256 of the two
  children), outside this repository: every definition below takes it as a parameter,
  so every theorem holds whatever that function is.

  `compute_tree_width` and `compute_tree_height` compute in `u32`, and so does the model:
  the sum `transactions_count + (1 << height)` wraps past `u32::MAX` (a release build; a
  debug build panics there). The replay holds heights and positions as `Nat`:
  `verify_proof` calls it only with at most `MAX_TRANSACTIONS_IN_PROOF` transactions, so
  below height 15 and position `2 ^ 15`, where the code's `u32` arithmetic on them is exact.

  Proved here: `computeTreeWidth_toNat` (the width is the wrapped sum shifted down),
  `computeTreeHeight_toNat_le` (the height loop stops by height 31 for every count, within
  the 32 rounds the model gives it), `mul_two_pow_lt_of_lt_computeTreeWidth` (a node
  inside the tree has its leftmost leaf below the count) and the spec lemmas of one node of
  the replay that the soundness and completeness modules build on.
-/

namespace BtcParachain.Bitcoin

/-- The two kinds of `bitcoin::types::Error` the verifier returns. -/
inductive Error where
  | malformedProof
  | invalidProof
  deriving DecidableEq, Repr

def maxBlockWeight : Nat := 4000000

def witnessScaleFactor : Nat := 4

def minTransactionWeight : Nat := witnessScaleFactor * 60

def maxTransactionsInProof : Nat := maxBlockWeight / minTransactionWeight

structure MerkleProof where
  blockHeader : BlockHeader
  transactionsCount : UInt32
  hashes : List H256Le
  flagBits : List Bool

structure MerkleProofTraversal where
  bitsUsed : Nat
  hashesUsed : Nat
  merklePosition : Option Nat
  hashPosition : Option Nat
  deriving DecidableEq, Repr

structure ProofResult where
  extractedRoot : H256Le
  transactionHash : H256Le
  transactionPosition : Nat
  deriving DecidableEq, Repr

section

variable (hash256MerkleStep : Bytes32 → Bytes32 → Bytes32)

/-- A node's hash from its children's:
  `H256Le::from_bytes_le(&hash256_merkle_step(&left.to_bytes_le(), &right.to_bytes_le()))`. -/
def merkleStep (left right : H256Le) : H256Le :=
  H256Le.fromBytesLe (hash256MerkleStep left.toBytesLe right.toBytesLe)

namespace MerkleProof

/-- `compute_tree_width`, in `u32`: `+` and `-` wrap, and a shift takes its amount mod 32. -/
def computeTreeWidth (p : MerkleProof) (height : UInt32) : UInt32 :=
  (p.transactionsCount + (1 <<< height) - 1) >>> height

/-- The `while` loop of `compute_tree_height`, with `fuel` rounds left. -/
def treeHeightLoop (p : MerkleProof) : Nat → UInt32 → UInt32
  | 0, height => height
  | fuel + 1, height =>
    if p.computeTreeWidth height > 1 then p.treeHeightLoop fuel (height + 1) else height

/-- `compute_tree_height`: every `u32` shifted right by 31 is at most 1, so the loop stops by
  height 31, and 32 rounds are all it can take. -/
def computeTreeHeight (p : MerkleProof) : UInt32 := p.treeHeightLoop 32 0

/-- The leaf branch of `traverse_and_extract`: the next hash, and its place when the node
  is a flagged leaf (`record`). -/
def takeHash (p : MerkleProof) (pos : Nat) (record : Bool) (traversal : MerkleProofTraversal) :
    Except (Fault Error) (H256Le × MerkleProofTraversal) :=
  match p.hashes[traversal.hashesUsed]? with
  | none => .error (.err .malformedProof)
  | some hash =>
    let traversal :=
      if record then
        { traversal with merklePosition := some pos, hashPosition := some traversal.hashesUsed }
      else traversal
    .ok (hash, { traversal with hashesUsed := traversal.hashesUsed + 1 })

/-- `traverse_and_extract`, split on the height: every node at height 0 is a leaf, above
  it a node is one when its flag bit is 0. Each case first reads the node's flag bit. -/
def traverseAndExtract (p : MerkleProof) :
    Nat → Nat → MerkleProofTraversal → Except (Fault Error) (H256Le × MerkleProofTraversal)
  | 0, pos, traversal =>
    match p.flagBits[traversal.bitsUsed]? with
    | none => .error .panic
    | some parentOfHash =>
      p.takeHash pos parentOfHash { traversal with bitsUsed := traversal.bitsUsed + 1 }
  | height + 1, pos, traversal =>
    match p.flagBits[traversal.bitsUsed]? with
    | none => .error .panic
    | some false => p.takeHash pos false { traversal with bitsUsed := traversal.bitsUsed + 1 }
    | some true => do
      let traversal := { traversal with bitsUsed := traversal.bitsUsed + 1 }
      let (left, traversal) ← p.traverseAndExtract height (pos * 2) traversal
      let (right, traversal) ←
        if pos * 2 + 1 < (p.computeTreeWidth (UInt32.ofNat height)).toNat then
          p.traverseAndExtract height (pos * 2 + 1) traversal
        else pure (left, traversal)
      pure (merkleStep hash256MerkleStep left right, traversal)

/-- `verify_proof`. -/
def verifyProof (p : MerkleProof) : Except (Fault Error) ProofResult :=
  if p.transactionsCount.toNat = 0 then .error (.err .malformedProof)
  else if maxTransactionsInProof < p.transactionsCount.toNat then .error (.err .malformedProof)
  else if p.flagBits.length < p.hashes.length then .error (.err .malformedProof)
  else
    match p.traverseAndExtract hash256MerkleStep p.computeTreeHeight.toNat 0 ⟨0, 0, none, none⟩ with
    | .error f => .error f
    | .ok (root, traversal) =>
      match traversal.merklePosition, traversal.hashPosition with
      | none, _ => .error (.err .invalidProof)
      | some _, none => .error (.err .invalidProof)
      | some merklePosition, some hashPosition =>
        if traversal.hashesUsed ≠ p.hashes.length then .error (.err .malformedProof)
        else if (traversal.bitsUsed + 7) / 8 ≠ (p.flagBits.length + 7) / 8 then
          .error (.err .malformedProof)
        else
          match p.hashes[hashPosition]? with
          | none => .error .panic
          | some transactionHash => .ok ⟨root, transactionHash, merklePosition⟩

/-! ## One node of the replay -/

theorem bind_eq_ok {α β : Type} {x : Except (Fault Error) α} {f : α → Except (Fault Error) β} {b : β} :
    x >>= f = .ok b ↔ ∃ a, x = .ok a ∧ f a = .ok b := by
  cases x <;> simp [bind, Except.bind]

/-- A guard that fails with an error, passed. -/
theorem ite_error_eq_ok {α : Type} {c : Prop} [Decidable c] {e : Fault Error}
    {x : Except (Fault Error) α} {r : α} (h : (if c then .error e else x) = .ok r) :
    ¬ c ∧ x = .ok r := by
  split at h
  · cases h
  · exact ⟨‹_›, h⟩

/-- What an accepted proof passed: a count from 1 to `MAX_TRANSACTIONS_IN_PROOF`, and a
  replay from the root that reached the extracted root, recorded the reported position and
  the index of the reported hash, and used every hash and every flag byte. -/
theorem verifyProof_eq_ok {p : MerkleProof} {r : ProofResult}
    (h : p.verifyProof hash256MerkleStep = .ok r) :
    0 < p.transactionsCount.toNat ∧ p.transactionsCount.toNat ≤ maxTransactionsInProof ∧
      ∃ t j, p.traverseAndExtract hash256MerkleStep p.computeTreeHeight.toNat 0 ⟨0, 0, none, none⟩ =
          .ok (r.extractedRoot, t) ∧ t.merklePosition = some r.transactionPosition ∧
        t.hashPosition = some j ∧ p.hashes[j]? = some r.transactionHash ∧
        t.hashesUsed = p.hashes.length ∧ (t.bitsUsed + 7) / 8 = (p.flagBits.length + 7) / 8 := by
  unfold verifyProof at h
  obtain ⟨h0, h⟩ := ite_error_eq_ok h
  obtain ⟨hmax, h⟩ := ite_error_eq_ok h
  replace h := (ite_error_eq_ok h).2
  split at h
  · cases h
  · rename_i root t ht
    split at h
    · cases h
    · cases h
    · rename_i mp j hmp hj
      obtain ⟨hh, h⟩ := ite_error_eq_ok h
      obtain ⟨hbits, h⟩ := ite_error_eq_ok h
      split at h
      · cases h
      · rename_i v hv
        cases h
        exact ⟨Nat.pos_of_ne_zero h0, Nat.le_of_not_lt hmax, t, j, ht, hmp, hj, hv,
          Decidable.of_not_not hh, Decidable.of_not_not hbits⟩

/-- The width below height 32: the sum wraps mod `2 ^ 32`, and the shift divides. -/
theorem computeTreeWidth_toNat (p : MerkleProof) {height : UInt32} (hh : height.toNat < 32) :
    (p.computeTreeWidth height).toNat =
      (p.transactionsCount.toNat + 2 ^ height.toNat - 1) % 2 ^ 32 / 2 ^ height.toNat := by
  have hmod : (height % 32).toBitVec.toNat = height.toNat := by
    show (height % 32).toNat = height.toNat
    rw [UInt32.toNat_mod]; exact Nat.mod_eq_of_lt hh
  have hs : (1 <<< height : UInt32).toNat = 2 ^ height.toNat := by
    show ((1 : BitVec 32) <<< (height % 32).toBitVec).toNat = _
    rw [BitVec.shiftLeft_eq', BitVec.toNat_shiftLeft, hmod, show (1 : BitVec 32).toNat = 1 from rfl,
      Nat.one_shiftLeft]
    exact Nat.mod_eq_of_lt (Nat.pow_lt_pow_right (by norm_num) hh)
  have hc := p.transactionsCount.toNat_lt_size
  have hpow : 2 ^ height.toNat ≤ 2 ^ 31 := Nat.pow_le_pow_right two_pos (by omega)
  have hpos : 1 ≤ 2 ^ height.toNat := Nat.one_le_two_pow
  show ((p.transactionsCount.toBitVec + (1 <<< height : UInt32).toBitVec - 1) >>>
    (height % 32).toBitVec).toNat = _
  rw [BitVec.ushiftRight_eq', BitVec.toNat_ushiftRight, hmod, Nat.shiftRight_eq_div_pow,
    BitVec.toNat_sub, BitVec.toNat_add]
  show (2 ^ 32 - 1 + (p.transactionsCount.toNat + (1 <<< height : UInt32).toNat) % 2 ^ 32) % 2 ^ 32 / _ = _
  rw [hs]
  simp only [UInt32.size] at hc
  congr 1
  omega

/-- Where the sum stays within `u32`, the width is `⌈count / 2 ^ height⌉`. -/
theorem computeTreeWidth_toNat_of_le (p : MerkleProof) {height : Nat} (hh : height < 32)
    (hc : p.transactionsCount.toNat + 2 ^ height ≤ 2 ^ 32) :
    (p.computeTreeWidth (UInt32.ofNat height)).toNat =
      (p.transactionsCount.toNat + 2 ^ height - 1) / 2 ^ height := by
  have hn : (UInt32.ofNat height).toNat = height := UInt32.toNat_ofNat_of_lt (hh.trans (by decide))
  rw [computeTreeWidth_toNat p (by rwa [hn]), hn, Nat.mod_eq_of_lt (by omega)]

/-- Below height 32 the wrap only lowers the width: a node inside the tree has its
  leftmost leaf below the count. -/
theorem mul_two_pow_lt_of_lt_computeTreeWidth (p : MerkleProof) {height pos : Nat} (hh : height < 32)
    (h : pos < (p.computeTreeWidth (UInt32.ofNat height)).toNat) :
    pos * 2 ^ height < p.transactionsCount.toNat := by
  have hn : (UInt32.ofNat height).toNat = height := UInt32.toNat_ofNat_of_lt (hh.trans (by decide))
  rw [computeTreeWidth_toNat p (by rwa [hn]), hn] at h
  have hpos : 0 < 2 ^ height := Nat.two_pow_pos height
  have hle := Nat.mod_le (p.transactionsCount.toNat + 2 ^ height - 1) (2 ^ 32)
  have := (Nat.le_div_iff_mul_le hpos).1 (h.trans_le (Nat.div_le_div_right hle))
  rw [Nat.succ_mul] at this
  omega

/-- At height 31 every count's width is at most 1. -/
theorem computeTreeWidth_toNat_le_one (p : MerkleProof) {height : UInt32} (hh : height.toNat = 31) :
    (p.computeTreeWidth height).toNat ≤ 1 := by
  rw [computeTreeWidth_toNat p (by omega), hh]
  exact Nat.le_of_lt_succ ((Nat.div_lt_iff_lt_mul (by decide)).2 (Nat.mod_lt _ (by decide)))

/-- Started at or below height 31, the height loop stops at or below it. -/
theorem treeHeightLoop_toNat_le (p : MerkleProof) :
    ∀ fuel (height : UInt32), height.toNat ≤ 31 → (p.treeHeightLoop fuel height).toNat ≤ 31
  | 0, _, hh => hh
  | fuel + 1, height, hh => by
    rw [treeHeightLoop]
    split_ifs with hw
    · have h31 : height.toNat ≠ 31 := fun h =>
        absurd (computeTreeWidth_toNat_le_one p h) (Nat.not_le.2 (UInt32.lt_def.1 hw))
      refine treeHeightLoop_toNat_le p fuel _ ?_
      rw [UInt32.toNat_add]
      exact (Nat.mod_le _ _).trans (show height.toNat + 1 ≤ 31 by omega)
    · exact hh

/-- `compute_tree_height` is at most 31 for every count: the loop stops on a width of at most
  1 before its 32 rounds run out. -/
theorem computeTreeHeight_toNat_le (p : MerkleProof) : p.computeTreeHeight.toNat ≤ 31 :=
  treeHeightLoop_toNat_le p 32 0 (by decide)

/-- The traversal after the leaf branch at `pos` took the next hash. -/
def took (t : MerkleProofTraversal) (pos : Nat) (record : Bool) : MerkleProofTraversal :=
  ⟨t.bitsUsed, t.hashesUsed + 1, if record then some pos else t.merklePosition,
    if record then some t.hashesUsed else t.hashPosition⟩

theorem takeHash_eq_ok {p : MerkleProof} {pos : Nat} {record : Bool} {t t' : MerkleProofTraversal}
    {v : H256Le} : p.takeHash pos record t = .ok (v, t') ↔ p.hashes[t.hashesUsed]? = some v ∧ t' = took t pos record := by
  unfold takeHash
  rcases p.hashes[t.hashesUsed]? with _ | hash <;> cases record <;> simp [took, eq_comm, and_comm]

/-- Replaying a flagged inner node: the left subtree, then the right one or the left's
  hash again. -/
theorem traverseAndExtract_succ_true {p : MerkleProof} {height pos : Nat} {t t' : MerkleProofTraversal}
    {v : H256Le} (hbit : p.flagBits[t.bitsUsed]? = some true) :
    p.traverseAndExtract hash256MerkleStep (height + 1) pos t = .ok (v, t') ↔
      ∃ vl tl, p.traverseAndExtract hash256MerkleStep height (pos * 2)
          { t with bitsUsed := t.bitsUsed + 1 } = .ok (vl, tl) ∧
        if pos * 2 + 1 < (p.computeTreeWidth (UInt32.ofNat height)).toNat then
          ∃ vr, p.traverseAndExtract hash256MerkleStep height (pos * 2 + 1) tl = .ok (vr, t') ∧
            v = merkleStep hash256MerkleStep vl vr
        else t' = tl ∧ v = merkleStep hash256MerkleStep vl vl := by
  rw [traverseAndExtract, hbit]
  simp only [bind_eq_ok, Prod.exists]
  refine exists_congr fun vl => exists_congr fun tl => and_congr_right fun _ => ?_
  split
  · simp only [bind_eq_ok, Prod.exists, pure, Except.pure, Except.ok.injEq, Prod.mk.injEq]
    exact ⟨fun ⟨vr, tr, h, hv, ht⟩ => ⟨vr, ht ▸ h, hv.symm⟩, fun ⟨vr, h, hv⟩ => ⟨vr, t', h, hv.symm, rfl⟩⟩
  · simp [bind, Except.bind, pure, Except.pure, eq_comm, and_comm]

end MerkleProof

end

/-! ## A node hash for examples -/

/-- A node hash for the examples of the modules that follow: bytewise `3 * a + b + 1`, which
  tells the two children apart and is no projection. -/
def sampleMerkleStep (a b : Bytes32) : Bytes32 :=
  ⟨List.zipWith (fun x y => 3 * x + y + 1) a.bytes b.bytes, by simp [a.length_bytes, b.length_bytes]⟩

end BtcParachain.Bitcoin
