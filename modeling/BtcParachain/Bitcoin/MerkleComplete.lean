import BtcParachain.Bitcoin.Merkle
/-
  BtcParachain.Bitcoin.MerkleComplete — the replay accepts every proof Bitcoin's
  `gettxoutproof` builds for one transaction.

  The encoder side is Bitcoin's `CPartialMerkleTree` (merkleblock.cpp), written from its
  own definitions: `CalcTreeWidth`, the height loop of its constructor, `CalcHash` (the
  subtree hash: `Hash(left || right)` of the children's bytes in their little-endian order,
  an odd level's last node hashed with itself) and `TraverseAndBuild` with
  one matched leaf `i`: a node's bit is whether `i` lies under it; a leaf or a node off
  the match emits its subtree hash, a node over the match descends into its children.
  The bits travel as bytes, so the proof `parse` reads back carries them padded with
  zeros to a multiple of 8 (`gettxoutproof`).

  Proved:
  - `traverseAndExtract_build`: replaying what `TraverseAndBuild` emitted for a subtree
    reads exactly its bits and hashes, returns the subtree's `CalcHash`, and records the
    match exactly when it lies under the subtree (induction on the height).
  - `verifyProof_gettxoutproof`: for every leaf list `L` with `1 ≤ |L| ≤
    MAX_TRANSACTIONS_IN_PROOF` and every `i < |L|`, `verify_proof` accepts the proof for
    `i` with the merkle root of `L`, the hash `L[i]` and the position `i`.
  - `computeTreeHeight_eq_clog`: `compute_tree_height` is the least `h` with
    `transactions_count ≤ 2^h` for every count up to `2^31`; past it the `u32` sum wraps
    and the height's `2^h` leaves fall short of the count.
  The replay of a built proof reads `compute_tree_width` at heights up to the tree height,
  where past `verify_proof`'s count check the `u32` width is `CalcTreeWidth`
  (`computeTreeWidth_exact`).
-/

namespace BtcParachain.Bitcoin

section

variable (hash256MerkleStep : Bytes32 → Bytes32 → Bytes32)

/-- Bitcoin's `CalcTreeWidth`, without wrapping: the counts below are at most
  `MAX_TRANSACTIONS_IN_PROOF`, where the `unsigned int` sum does not wrap. -/
def calcTreeWidth (nTransactions height : Nat) : Nat :=
  (nTransactions + (1 <<< height) - 1) >>> height

/-- The height loop of `CPartialMerkleTree`'s constructor, with `fuel` rounds left. -/
def calcTreeHeightLoop (nTransactions : Nat) : Nat → Nat → Nat
  | 0, height => height
  | fuel + 1, height =>
    if calcTreeWidth nTransactions height > 1 then calcTreeHeightLoop nTransactions fuel (height + 1)
    else height

/-- The tree height for an `unsigned int` count: the loop is done by height 32. -/
def calcTreeHeight (nTransactions : Nat) : Nat := calcTreeHeightLoop nTransactions 32 0

/-- Bitcoin's `CalcHash`: the hash of the subtree `(height, pos)` over the leaves `txids`. -/
def calcHash (txids : List H256Le) : Nat → Nat → H256Le
  | 0, pos => txids.getD pos default
  | height + 1, pos =>
    let left := calcHash txids height (pos * 2)
    let right :=
      if pos * 2 + 1 < calcTreeWidth txids.length height then calcHash txids height (pos * 2 + 1)
      else left
    H256Le.fromBytesLe (hash256MerkleStep left.toBytesLe right.toBytesLe)

/-- The merkle root of a block's transactions. -/
def merkleRoot (txids : List H256Le) : H256Le :=
  calcHash hash256MerkleStep txids (calcTreeHeight txids.length) 0

/-- `fParentOfMatch` with `vMatch` true at `i` alone: some leaf
  `p ∈ [pos << height, (pos + 1) << height)` below the count is `i`. -/
def parentOfMatch (nTransactions i height pos : Nat) : Bool :=
  decide (pos <<< height ≤ i ∧ i < (pos + 1) <<< height ∧ i < nTransactions)

/-- Bitcoin's `TraverseAndBuild` with `vMatch` true at `i` alone: the flag bits and the
  hashes it emits for the subtree `(height, pos)`. -/
def traverseAndBuild (txids : List H256Le) (i : Nat) : Nat → Nat → List Bool × List H256Le
  | 0, pos => ([parentOfMatch txids.length i 0 pos], [calcHash hash256MerkleStep txids 0 pos])
  | height + 1, pos =>
    if parentOfMatch txids.length i (height + 1) pos then
      let left := traverseAndBuild txids i height (pos * 2)
      let right :=
        if pos * 2 + 1 < calcTreeWidth txids.length height then
          traverseAndBuild txids i height (pos * 2 + 1)
        else ([], [])
      (true :: (left.1 ++ right.1), left.2 ++ right.2)
    else ([false], [calcHash hash256MerkleStep txids (height + 1) pos])

/-- The proof `gettxoutproof` serializes for transaction `i`, as `parse` reads it back:
  the flag bits padded with zeros to whole bytes. -/
def gettxoutproof (blockHeader : BlockHeader) (txids : List H256Le) (i : Nat) : MerkleProof :=
  let built := traverseAndBuild hash256MerkleStep txids i (calcTreeHeight txids.length) 0
  ⟨blockHeader, UInt32.ofNat txids.length, built.2,
    built.1 ++ List.replicate ((built.1.length + 7) / 8 * 8 - built.1.length) false⟩

/-! ## Heights and widths -/

/-- The loop stops at a height whose width is at most 1, if one is within its fuel. -/
theorem calcTreeWidth_treeHeightLoop_le (n : Nat) :
    ∀ fuel height, calcTreeWidth n (height + fuel) ≤ 1 →
      calcTreeWidth n (calcTreeHeightLoop n fuel height) ≤ 1
  | 0, _, h => h
  | fuel + 1, height, h => by
    simp only [calcTreeHeightLoop]
    split_ifs with hw
    · exact calcTreeWidth_treeHeightLoop_le n fuel (height + 1) (by rwa [Nat.add_right_comm])
    · omega

theorem calcTreeWidth_eq (n height : Nat) :
    calcTreeWidth n height = (n + 2 ^ height - 1) / 2 ^ height := by
  rw [calcTreeWidth, Nat.shiftLeft_eq, Nat.one_mul, Nat.shiftRight_eq_div_pow]

theorem lt_calcTreeWidth_iff (n height pos : Nat) :
    pos < calcTreeWidth n height ↔ pos * 2 ^ height < n := by
  have hpos : 0 < 2 ^ height := Nat.two_pow_pos height
  rw [calcTreeWidth_eq, ← Nat.add_one_le_iff, Nat.le_div_iff_mul_le hpos, Nat.add_mul]
  omega

/-- Every leaf of a u32-counted tree lies under the root. -/
theorem lt_two_pow_calcTreeHeight {n i : Nat} (hn : n < 2 ^ 32) (hi : i < n) :
    i < 2 ^ calcTreeHeight n := by
  have h32 : calcTreeWidth n (0 + 32) ≤ 1 := by
    rw [calcTreeWidth_eq, ← Nat.lt_succ_iff, Nat.div_lt_iff_lt_mul (Nat.two_pow_pos _)]
    omega
  have h := calcTreeWidth_treeHeightLoop_le n 32 0 h32
  rw [← calcTreeHeight, ← Nat.not_lt, lt_calcTreeWidth_iff] at h
  omega

/-- A level is a single node (or none) exactly when `2 ^ height` leaves cover the count. -/
theorem calcTreeWidth_le_one_iff (n height : Nat) : calcTreeWidth n height ≤ 1 ↔ n ≤ 2 ^ height := by
  have := Nat.two_pow_pos height
  rw [calcTreeWidth_eq, ← Nat.lt_succ_iff, Nat.div_lt_iff_lt_mul this]
  omega

/-- The least height whose `2 ^ height` leaves cover `n` is `⌈log₂ n⌉`. -/
theorem clog_eq_of_least {n height : Nat} (hbelow : ∀ k < height, 2 ^ k < n)
    (hcover : n ≤ 2 ^ height) : Nat.clog 2 n = height := by
  refine le_antisymm ((Nat.le_pow_iff_clog_le one_lt_two).1 hcover) (Nat.not_lt.1 fun hlt => ?_)
  exact lt_irrefl _ ((Nat.pow_lt_iff_lt_clog one_lt_two).1 (hbelow _ hlt))

/-- The height loop, started below the answer with enough rounds, stops at `⌈log₂ n⌉`. -/
theorem calcTreeHeightLoop_eq_clog (n : Nat) :
    ∀ fuel height, (∀ k < height, 2 ^ k < n) → n ≤ 2 ^ (height + fuel) →
      calcTreeHeightLoop n fuel height = Nat.clog 2 n
  | 0, height, hbelow, hcover => (clog_eq_of_least hbelow hcover).symm
  | fuel + 1, height, hbelow, hcover => by
    rw [calcTreeHeightLoop]
    split_ifs with hw
    · rw [gt_iff_lt, ← Nat.not_le, calcTreeWidth_le_one_iff, Nat.not_le] at hw
      refine calcTreeHeightLoop_eq_clog n fuel (height + 1) (fun k hk => ?_) (by rwa [Nat.add_right_comm])
      rcases Nat.lt_succ_iff_lt_or_eq.1 hk with hk | rfl
      exacts [hbelow k hk, hw]
    · exact (clog_eq_of_least hbelow ((calcTreeWidth_le_one_iff n height).1 (Nat.not_lt.1 hw))).symm

/-- Bitcoin's tree height is `⌈log₂ n⌉` for every u32 count. -/
theorem calcTreeHeight_eq_clog {n : Nat} (hn : n < 2 ^ 32) : calcTreeHeight n = Nat.clog 2 n :=
  calcTreeHeightLoop_eq_clog n 32 0 (fun _ hk => absurd hk (Nat.not_lt_zero _)) (Nat.le_of_lt hn)

/-- For a count up to `2 ^ 31` the `u32` sum never wraps below height 32, and the code's
  height loop runs as Bitcoin's. -/
theorem treeHeightLoop_eq {p : MerkleProof} (hc : p.transactionsCount.toNat ≤ 2 ^ 31) :
    ∀ fuel (height : UInt32), height.toNat + fuel ≤ 32 →
      (p.treeHeightLoop fuel height).toNat =
        calcTreeHeightLoop p.transactionsCount.toNat fuel height.toNat
  | 0, _, _ => rfl
  | fuel + 1, height, hh => by
    have hpow : 2 ^ height.toNat ≤ 2 ^ 31 := Nat.pow_le_pow_right two_pos (by omega)
    have hw : (p.computeTreeWidth height).toNat = calcTreeWidth p.transactionsCount.toNat height.toNat := by
      rw [MerkleProof.computeTreeWidth_toNat p (by omega), Nat.mod_eq_of_lt (by omega), calcTreeWidth_eq]
    have hsucc : (height + 1).toNat = height.toNat + 1 := by
      rw [UInt32.toNat_add]; exact Nat.mod_eq_of_lt (show height.toNat + 1 < 2 ^ 32 by omega)
    have hcond : p.computeTreeWidth height > 1 ↔ calcTreeWidth p.transactionsCount.toNat height.toNat > 1 := by
      rw [gt_iff_lt, gt_iff_lt, ← hw]; exact Iff.rfl
    simp only [MerkleProof.treeHeightLoop, calcTreeHeightLoop, hcond]
    split_ifs
    · rw [treeHeightLoop_eq hc fuel _ (by omega), hsucc]
    · rfl

/-- For a count up to `2 ^ 31` the code's tree height is Bitcoin's. -/
theorem computeTreeHeight_toNat_eq {p : MerkleProof} (hc : p.transactionsCount.toNat ≤ 2 ^ 31) :
    p.computeTreeHeight.toNat = calcTreeHeight p.transactionsCount.toNat :=
  treeHeightLoop_eq hc 32 0 (by decide)

/-- On the path `verify_proof` takes past its count check, `compute_tree_width` never wraps:
  at every height from 0 to the tree height, where `compute_tree_height` and
  `traverse_and_extract` evaluate it, the `u32` width is `CalcTreeWidth`. -/
theorem computeTreeWidth_exact {p : MerkleProof}
    (hmax : p.transactionsCount.toNat ≤ maxTransactionsInProof) {height : Nat}
    (hh : height ≤ p.computeTreeHeight.toNat) :
    (p.computeTreeWidth (UInt32.ofNat height)).toNat = calcTreeWidth p.transactionsCount.toNat height := by
  have hmax' : maxTransactionsInProof = 16666 := rfl
  have h15 : height ≤ 15 := by
    refine hh.trans ?_
    rw [computeTreeHeight_toNat_eq (by omega)]
    exact (calcTreeHeight_eq_clog p.transactionsCount.toNat_lt_size).trans_le
      ((Nat.le_pow_iff_clog_le one_lt_two).1 (hmax.trans (by decide)))
  have hpow : 2 ^ height ≤ 2 ^ 15 := Nat.pow_le_pow_right two_pos h15
  rw [MerkleProof.computeTreeWidth_toNat_of_le p (by omega) (by omega), calcTreeWidth_eq]

/-- `parentOfMatch` below the count: `i` lies under the node. -/
theorem parentOfMatch_iff {n i height pos : Nat} (hi : i < n) :
    parentOfMatch n i height pos = true ↔ i >>> height = pos := by
  have hpos : 0 < 2 ^ height := Nat.two_pow_pos height
  simp only [parentOfMatch, decide_eq_true_eq, Nat.shiftLeft_eq, Nat.shiftRight_eq_div_pow, hi,
    and_true, ← Nat.le_div_iff_mul_le hpos, ← Nat.div_lt_iff_lt_mul hpos]
  omega

/-! ## Replaying what `TraverseAndBuild` emitted -/

theorem hashes_length_le_bits_length (txids : List H256Le) (i : Nat) :
    ∀ height pos, (traverseAndBuild hash256MerkleStep txids i height pos).2.length ≤
      (traverseAndBuild hash256MerkleStep txids i height pos).1.length
  | 0, _ => by simp [traverseAndBuild]
  | height + 1, pos => by
    simp only [traverseAndBuild]
    split_ifs <;> simp only [List.length_append, List.length_cons, List.length_nil] <;>
      have := hashes_length_le_bits_length txids i height (pos * 2) <;>
      have := hashes_length_le_bits_length txids i height (pos * 2 + 1) <;> omega

theorem getElem?_of_drop_eq {α : Type} {l rest : List α} {n : Nat} {a : α} {as : List α}
    (h : l.drop n = a :: as ++ rest) : l[n]? = some a := by
  rw [← Nat.add_zero n, ← List.getElem?_drop, h, List.cons_append, List.getElem?_cons_zero]

theorem drop_add_of_drop_eq {α : Type} {l a b : List α} {n : Nat} (h : l.drop n = a ++ b) :
    l.drop (n + a.length) = b := by
  rw [← List.drop_drop, h, List.drop_left]

theorem drop_succ_of_drop_eq {α : Type} {l rest : List α} {n : Nat} {a : α} {as : List α}
    (h : l.drop n = a :: as ++ rest) : l.drop (n + 1) = as ++ rest := by
  rw [← List.drop_drop, h]; rfl

/-- What a replayed subtree left recorded, for the match `i`: the match, when it lies
  under the subtree, else what `t` had. -/
def RecordsMatch (p : MerkleProof) (txids : List H256Le) (i height pos : Nat)
    (t t' : MerkleProofTraversal) : Prop :=
  if i >>> height = pos then
    t'.merklePosition = some i ∧ ∃ j, t'.hashPosition = some j ∧ p.hashes[j]? = some (txids.getD i default)
  else t'.merklePosition = t.merklePosition ∧ t'.hashPosition = t.hashPosition

theorem shiftRight_succ_eq_div (q height : Nat) : q >>> (height + 1) = q >>> height / 2 := by
  simp [Nat.shiftRight_eq_div_pow, Nat.pow_succ, Nat.div_div_eq_div_mul]

/-- A node over the match records it through the child it lies under; a right child that
  is past the width never holds it. -/
theorem recordsMatch_node {p : MerkleProof} {txids : List H256Le} {i height pos : Nat}
    {t tl t' : MerkleProofTraversal} (hi : i < txids.length) (hpar : i >>> (height + 1) = pos)
    (hl : RecordsMatch p txids i height (pos * 2) { t with bitsUsed := t.bitsUsed + 1 } tl)
    (hr : pos * 2 + 1 < calcTreeWidth txids.length height →
      RecordsMatch p txids i height (pos * 2 + 1) tl t')
    (hr' : ¬ pos * 2 + 1 < calcTreeWidth txids.length height → t' = tl) :
    RecordsMatch p txids i (height + 1) pos t t' := by
  have hdiv : i >>> height / 2 = pos := by rw [← shiftRight_succ_eq_div, hpar]
  have hin : i >>> height = pos * 2 + 1 → pos * 2 + 1 < calcTreeWidth txids.length height := by
    intro h
    rw [lt_calcTreeWidth_iff, ← h, Nat.shiftRight_eq_div_pow]
    exact lt_of_le_of_lt (Nat.div_mul_le_self _ _) hi
  simp only [RecordsMatch, hpar, if_true] at hl hr ⊢
  by_cases hleft : i >>> height = pos * 2
  · rw [if_pos hleft] at hl
    by_cases hw : pos * 2 + 1 < calcTreeWidth txids.length height
    · have := hr hw; rw [if_neg (by omega)] at this
      obtain ⟨h1, j, h2, h3⟩ := hl
      exact ⟨this.1.trans h1, j, this.2.trans h2, h3⟩
    · rw [hr' hw]; exact hl
  · have hright : i >>> height = pos * 2 + 1 := by omega
    rw [if_neg hleft] at hl
    have := hr (hin hright); rw [if_pos hright] at this
    exact this

/-- Replaying what `TraverseAndBuild` emitted for a subtree inside the tree reads exactly
  its bits and hashes, returns the subtree's `CalcHash`, and records the match exactly
  when it lies under the subtree. -/
theorem traverseAndExtract_build {p : MerkleProof} {txids : List H256Le} {i : Nat}
    (hn : p.transactionsCount.toNat = txids.length) (hmax : txids.length ≤ maxTransactionsInProof)
    (hi : i < txids.length) :
    ∀ height pos (t : MerkleProofTraversal) (rest : List Bool) (rest' : List H256Le),
      height ≤ p.computeTreeHeight.toNat → pos * 2 ^ height < txids.length →
      p.flagBits.drop t.bitsUsed = (traverseAndBuild hash256MerkleStep txids i height pos).1 ++ rest →
      p.hashes.drop t.hashesUsed = (traverseAndBuild hash256MerkleStep txids i height pos).2 ++ rest' →
      ∃ t', p.traverseAndExtract hash256MerkleStep height pos t =
          .ok (calcHash hash256MerkleStep txids height pos, t') ∧
        t'.bitsUsed = t.bitsUsed + (traverseAndBuild hash256MerkleStep txids i height pos).1.length ∧
        t'.hashesUsed =
          t.hashesUsed + (traverseAndBuild hash256MerkleStep txids i height pos).2.length ∧
        RecordsMatch p txids i height pos t t'
  | 0, pos, t, rest, rest', _, _, hb, hh => by
    simp only [traverseAndBuild] at hb hh
    refine ⟨_, by simp only [MerkleProof.traverseAndExtract, getElem?_of_drop_eq hb]
                  exact MerkleProof.takeHash_eq_ok.2 ⟨getElem?_of_drop_eq hh, rfl⟩, rfl, rfl, ?_⟩
    have hpm : parentOfMatch txids.length i 0 pos = decide (i = pos) := by
      rw [Bool.eq_iff_iff, parentOfMatch_iff hi, Nat.shiftRight_zero, decide_eq_true_iff]
    by_cases hip : i = pos
    · subst hip; simpa [RecordsMatch, MerkleProof.took, hpm, calcHash] using getElem?_of_drop_eq hh
    · simp [RecordsMatch, MerkleProof.took, hpm, hip]
  | height + 1, pos, t, rest, rest', hH, hpos, hb, hh => by
    by_cases hpm : parentOfMatch txids.length i (height + 1) pos = true
    · have hpar : i >>> (height + 1) = pos := (parentOfMatch_iff hi).1 hpm
      have hwidth : calcTreeWidth txids.length height = (p.computeTreeWidth (UInt32.ofNat height)).toNat := by
        rw [computeTreeWidth_exact (hn ▸ hmax) (by omega), hn]
      simp only [traverseAndBuild, hpm, if_true] at hb hh ⊢
      have hbit := getElem?_of_drop_eq hb
      have hb1 := drop_succ_of_drop_eq hb
      rw [List.append_assoc] at hb1 hh
      obtain ⟨tl, hlrun, hlb, hlh, hlrec⟩ := traverseAndExtract_build hn hmax hi height (pos * 2)
        { t with bitsUsed := t.bitsUsed + 1 } _ _ (by omega)
        (by rwa [Nat.pow_succ, ← Nat.mul_assoc, Nat.mul_right_comm] at hpos) hb1 hh
      have hbr := drop_add_of_drop_eq hb1
      have hhr := drop_add_of_drop_eq hh
      rw [← hlb] at hbr
      rw [show t.hashesUsed = ({ t with bitsUsed := t.bitsUsed + 1 } : MerkleProofTraversal).hashesUsed
        from rfl, ← hlh] at hhr
      by_cases hw : pos * 2 + 1 < calcTreeWidth txids.length height
      · simp only [hw, if_true] at hbr hhr ⊢
        obtain ⟨t', hrrun, hrb, hrh, hrrec⟩ := traverseAndExtract_build hn hmax hi height (pos * 2 + 1)
          tl _ _ (by omega) ((lt_calcTreeWidth_iff _ _ _).1 hw) hbr hhr
        refine ⟨t', (MerkleProof.traverseAndExtract_succ_true hash256MerkleStep hbit).2
          ⟨_, tl, hlrun, ?_⟩, ?_, ?_, recordsMatch_node hi hpar hlrec (fun _ => hrrec) (absurd hw)⟩
        · rw [if_pos (hwidth ▸ hw)]; exact ⟨_, hrrun, by simp [calcHash, hw, merkleStep]⟩
        · simp only [List.length_cons, List.length_append] at hlb hrb ⊢; omega
        · simp only [List.length_append] at hlh hrh ⊢; omega
      · simp only [hw, if_false, List.append_nil] at hbr hhr ⊢
        refine ⟨tl, (MerkleProof.traverseAndExtract_succ_true hash256MerkleStep hbit).2
          ⟨_, tl, hlrun, ?_⟩, ?_, ?_, recordsMatch_node hi hpar hlrec (fun h => absurd h hw) fun _ => rfl⟩
        · rw [if_neg (hwidth ▸ hw)]; exact ⟨rfl, by simp [calcHash, hw, merkleStep]⟩
        · simp only [List.length_cons, List.length_append, List.length_nil] at hlb ⊢; omega
        · simp only [List.length_append, List.length_nil] at hlh ⊢; omega
    · simp only [traverseAndBuild, hpm, if_false] at hb hh ⊢
      rw [Bool.not_eq_true] at hpm
      refine ⟨_, by simp only [MerkleProof.traverseAndExtract, getElem?_of_drop_eq hb]
                    exact MerkleProof.takeHash_eq_ok.2 ⟨getElem?_of_drop_eq hh, rfl⟩, rfl, rfl, ?_⟩
      have : ¬ i >>> (height + 1) = pos := by rw [← parentOfMatch_iff hi, hpm]; simp
      simp [RecordsMatch, this, MerkleProof.took]

/-- `gettxoutproof` pads the flag bits to whole bytes: no fewer bits than hashes, and as
  many bytes as the bits `traverseAndBuild` emitted. -/
theorem gettxoutproof_lengths (blockHeader : BlockHeader) (txids : List H256Le) (i : Nat) :
    (gettxoutproof hash256MerkleStep blockHeader txids i).hashes.length ≤
        (gettxoutproof hash256MerkleStep blockHeader txids i).flagBits.length ∧
      ((gettxoutproof hash256MerkleStep blockHeader txids i).flagBits.length + 7) / 8 =
        ((traverseAndBuild hash256MerkleStep txids i (calcTreeHeight txids.length) 0).1.length + 7) / 8 := by
  have := hashes_length_le_bits_length hash256MerkleStep txids i (calcTreeHeight txids.length) 0
  simp only [gettxoutproof, List.length_append, List.length_replicate]
  omega

/-- Completeness: `verify_proof` accepts the proof `gettxoutproof` builds for every
  transaction of every block within the count bound, with the block's merkle root, the
  transaction's hash and its position. -/
theorem verifyProof_gettxoutproof (blockHeader : BlockHeader) (txids : List H256Le) (i : Nat)
    (hlen : 1 ≤ txids.length) (hmax : txids.length ≤ maxTransactionsInProof)
    (hi : i < txids.length) :
    (gettxoutproof hash256MerkleStep blockHeader txids i).verifyProof hash256MerkleStep =
      .ok ⟨merkleRoot hash256MerkleStep txids, txids[i], i⟩ := by
  have hmax' : maxTransactionsInProof = 16666 := rfl
  have hn : (gettxoutproof hash256MerkleStep blockHeader txids i).transactionsCount.toNat =
      txids.length := UInt32.toNat_ofNat_of_lt (by simp only [UInt32.size]; omega)
  have hH : (gettxoutproof hash256MerkleStep blockHeader txids i).computeTreeHeight.toNat =
      calcTreeHeight txids.length := by
    rw [computeTreeHeight_toNat_eq (by omega), hn]
  obtain ⟨t', hrun, hb, hh, hrec⟩ := traverseAndExtract_build hash256MerkleStep hn hmax hi
    (calcTreeHeight txids.length) 0 ⟨0, 0, none, none⟩ _ [] hH.ge (by simp; omega) rfl
    (by simp [gettxoutproof])
  have hroot : i >>> calcTreeHeight txids.length = 0 := by
    rw [Nat.shiftRight_eq_div_pow]
    exact Nat.div_eq_of_lt (lt_two_pow_calcTreeHeight (by omega) hi)
  simp only [RecordsMatch, hroot, if_true] at hrec
  obtain ⟨hmp, j, hhp, hj⟩ := hrec
  obtain ⟨hbits, hbytes⟩ := gettxoutproof_lengths hash256MerkleStep blockHeader txids i
  unfold MerkleProof.verifyProof
  rw [if_neg (by omega), if_neg (by omega), if_neg (Nat.not_lt.2 hbits), hH, hrun]
  simp only [hmp, hhp]
  rw [if_neg (by rw [hh, Nat.zero_add]; exact fun h => h rfl),
    if_neg (by rw [hbytes, hb, Nat.zero_add]; exact fun h => h rfl)]
  simp [hj, List.getElem?_eq_getElem hi, merkleRoot]

end

/-- The block `[1…1, 2…2, 3…3]`. -/
def threeTxids : List H256Le := [⟨Bytes32.replicate 1⟩, ⟨Bytes32.replicate 2⟩, ⟨Bytes32.replicate 3⟩]

/-- The proof for the last of three transactions under `sampleMerkleStep`: its right sibling
  is past the width, so it is hashed with itself at height 0, and its parent with the left
  subtree at height 1. -/
theorem verifyProof_gettxoutproof_three :
    1 ≤ threeTxids.length ∧ threeTxids.length ≤ maxTransactionsInProof ∧ 2 < threeTxids.length ∧
      merkleRoot sampleMerkleStep threeTxids =
        merkleStep sampleMerkleStep (merkleStep sampleMerkleStep ⟨Bytes32.replicate 1⟩ ⟨Bytes32.replicate 2⟩)
          (merkleStep sampleMerkleStep ⟨Bytes32.replicate 3⟩ ⟨Bytes32.replicate 3⟩) ∧
      (gettxoutproof sampleMerkleStep default threeTxids 2).verifyProof sampleMerkleStep =
        .ok ⟨merkleRoot sampleMerkleStep threeTxids, threeTxids[2], 2⟩ :=
  ⟨by decide, by decide, by decide, rfl,
    verifyProof_gettxoutproof sampleMerkleStep default threeTxids 2 (by decide) (by decide) (by decide)⟩

end BtcParachain.Bitcoin
