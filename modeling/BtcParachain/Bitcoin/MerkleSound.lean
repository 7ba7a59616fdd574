import BtcParachain.Bitcoin.Merkle
/-
  BtcParachain.Bitcoin.MerkleSound — what an accepted proof proves, for every proof a
  submitter can craft.

  A merkle branch (`branchRoot`) climbs from a leaf at position `q`: at level `k` the
  node is `q >>> k`; an odd node is its parent's right child, an even one its left
  child, hashed with itself when its right sibling lies past the level's width. The
  replay of a subtree either records nothing or records a flagged leaf below it whose
  branch climbs to the subtree's hash (`Records`, `traverseAndExtract_records`, by
  induction on the height with one case per branch of `traverse_and_extract`).

  Proved:
  - `verifyProof_sound`: an accepted proof's position is below the transaction count,
    its transaction hash is one of the supplied hashes, and its root is the root of that
    hash's branch for some siblings.
  - `verifyProof_reads_past_flag_bits`: a proof with one transaction and no hashes and
    no flag bits, as `parse` returns for a proof whose two counts are 0, passes the
    length check `flag_bits.len() < hashes.len()` and then panics reading `flag_bits[0]`:
    Bitcoin's `TraverseAndExtract` checks `nBitsUsed >= vBits.size()` first, the port
    does not.
  - `verifyProof_ignores_unread_flag_bits`: proofs are malleable in their flag padding:
    the replay reads no flag bit past where it stops (`traverseAndExtract_congr_flagBits`)
    and the length check counts bytes, so every accepted proof keeps its result under any
    change of the flag bits after the ones its replay reads (`bitsRead`) that fills as many
    bytes.
-/

namespace BtcParachain.Bitcoin

section

variable (hash256MerkleStep : Bytes32 → Bytes32 → Bytes32)

namespace MerkleProof

/-- The hash a merkle branch climbs to from `leaf` at `pos` after `k` levels, with
  `siblings k` the sibling hash at level `k`. -/
def branchRoot (p : MerkleProof) (pos : Nat) (leaf : H256Le) (siblings : Nat → H256Le) :
    Nat → H256Le
  | 0 => leaf
  | k + 1 =>
    let x := p.branchRoot pos leaf siblings k
    if (pos >>> k) % 2 = 1 then merkleStep hash256MerkleStep (siblings k) x
    else if (pos >>> k) + 1 < (p.computeTreeWidth (UInt32.ofNat k)).toNat then
      merkleStep hash256MerkleStep x (siblings k)
    else merkleStep hash256MerkleStep x x

theorem branchRoot_congr (p : MerkleProof) (pos : Nat) (leaf : H256Le) {s s' : Nat → H256Le} :
    ∀ n, (∀ k < n, s k = s' k) →
      p.branchRoot hash256MerkleStep pos leaf s n = p.branchRoot hash256MerkleStep pos leaf s' n
  | 0, _ => rfl
  | n + 1, h => by
    simp only [branchRoot, h n (Nat.lt_succ_self n),
      branchRoot_congr p pos leaf n fun k hk => h k (Nat.lt_succ_of_lt hk)]

/-- Setting the sibling at level `n` leaves the first `n` levels of a branch alone. -/
theorem branchRoot_update (p : MerkleProof) (pos : Nat) (leaf : H256Le) (s : Nat → H256Le)
    (n : Nat) (x : H256Le) :
    p.branchRoot hash256MerkleStep pos leaf (fun k => if k = n then x else s k) n =
      p.branchRoot hash256MerkleStep pos leaf s n :=
  branchRoot_congr hash256MerkleStep p pos leaf n fun _ hk => if_neg (Nat.ne_of_lt hk)

/-- What replaying the subtree at `(height, pos)` from `t` to `t'` with hash `v` leaves
  recorded: what `t` had, or a flagged leaf `q` under the subtree, inside the tree when
  the subtree is, whose hash is `hashes[j]` and whose branch climbs to `v`. -/
def Records (p : MerkleProof) (height pos : Nat) (v : H256Le) (t t' : MerkleProofTraversal) : Prop :=
  (t'.merklePosition = t.merklePosition ∧ t'.hashPosition = t.hashPosition) ∨
  ∃ q j leaf, t'.merklePosition = some q ∧ t'.hashPosition = some j ∧ p.hashes[j]? = some leaf ∧
    q >>> height = pos ∧
    (pos * 2 ^ height < p.transactionsCount.toNat → q < p.transactionsCount.toNat) ∧
    ∃ siblings, p.branchRoot hash256MerkleStep q leaf siblings height = v

theorem shiftRight_succ_eq (q height : Nat) : q >>> (height + 1) = q >>> height / 2 := by
  simp [Nat.shiftRight_eq_div_pow, Nat.pow_succ, Nat.div_div_eq_div_mul]

theorem pow_succ_mul_eq (pos height : Nat) : pos * 2 ^ (height + 1) = pos * 2 * 2 ^ height := by
  rw [Nat.pow_succ, Nat.mul_comm (2 ^ height), Nat.mul_assoc]

/-- A flagged inner node records what its left child recorded when its right child
  records nothing, the right sibling's hash (or the left's own) standing beside it. -/
theorem records_left {p : MerkleProof} {height pos : Nat} {vl vr : H256Le}
    {t tl t' : MerkleProofTraversal}
    (hl : Records hash256MerkleStep p height (pos * 2) vl { t with bitsUsed := t.bitsUsed + 1 } tl)
    (hr : t'.merklePosition = tl.merklePosition ∧ t'.hashPosition = tl.hashPosition)
    (hv : vr = if pos * 2 + 1 < (p.computeTreeWidth (UInt32.ofNat height)).toNat then vr else vl) :
    Records hash256MerkleStep p (height + 1) pos (merkleStep hash256MerkleStep vl vr) t t' := by
  rcases hl with hl | ⟨q, j, leaf, hq, hj, hleaf, hpos, hlt, s, hs⟩
  · exact .inl ⟨hr.1.trans hl.1, hr.2.trans hl.2⟩
  · refine .inr ⟨q, j, leaf, hr.1.trans hq, hr.2.trans hj, hleaf, ?_, fun h => hlt ?_,
      fun k => if k = height then vr else s k, ?_⟩
    · rw [shiftRight_succ_eq, hpos]; omega
    · rwa [pow_succ_mul_eq] at h
    · simp only [branchRoot, branchRoot_update, hs, hpos, if_true]
      rw [if_neg (show ¬ pos * 2 % 2 = 1 by omega)]
      split_ifs at hv ⊢
      · rfl
      · rw [hv]

/-- A flagged inner node records what its right child recorded. -/
theorem records_right {p : MerkleProof} {height pos : Nat} {vl vr : H256Le}
    {t' : MerkleProofTraversal} (t : MerkleProofTraversal) (hh : height < 32)
    (hin : pos * 2 + 1 < (p.computeTreeWidth (UInt32.ofNat height)).toNat)
    (hr : ∃ q j leaf, t'.merklePosition = some q ∧ t'.hashPosition = some j ∧
      p.hashes[j]? = some leaf ∧ q >>> height = pos * 2 + 1 ∧
      ((pos * 2 + 1) * 2 ^ height < p.transactionsCount.toNat → q < p.transactionsCount.toNat) ∧
      ∃ siblings, p.branchRoot hash256MerkleStep q leaf siblings height = vr) :
    Records hash256MerkleStep p (height + 1) pos (merkleStep hash256MerkleStep vl vr) t t' := by
  obtain ⟨q, j, leaf, hq, hj, hleaf, hpos, hlt, s, hs⟩ := hr
  refine .inr ⟨q, j, leaf, hq, hj, hleaf, ?_, fun _ => hlt (mul_two_pow_lt_of_lt_computeTreeWidth p hh hin),
    fun k => if k = height then vl else s k, ?_⟩
  · rw [shiftRight_succ_eq, hpos]; omega
  · have hodd : (q >>> height) % 2 = 1 := by omega
    simp only [branchRoot, branchRoot_update, hs, hodd, if_true]

/-- The replay of every subtree below height 32 records nothing or a flagged leaf whose
  branch climbs to the subtree's hash. -/
theorem traverseAndExtract_records {p : MerkleProof} :
    ∀ height pos t v t', height < 32 → p.traverseAndExtract hash256MerkleStep height pos t = .ok (v, t') →
      Records hash256MerkleStep p height pos v t t'
  | 0, pos, t, v, t', _, h => by
    simp only [traverseAndExtract] at h
    split at h
    · cases h
    · rename_i b _
      obtain ⟨hv, rfl⟩ := takeHash_eq_ok.1 h
      cases b
      · exact .inl ⟨rfl, rfl⟩
      · exact .inr ⟨pos, t.hashesUsed, v, rfl, rfl, hv, Nat.shiftRight_zero, by simp, fun _ => v, rfl⟩
  | height + 1, pos, t, v, t', hh, h => by
    rcases hb : p.flagBits[t.bitsUsed]? with _ | _ | _
    · simp [traverseAndExtract, hb] at h
    · simp only [traverseAndExtract, hb] at h
      obtain ⟨-, rfl⟩ := takeHash_eq_ok.1 h
      exact .inl ⟨rfl, rfl⟩
    · obtain ⟨vl, tl, hl, hrest⟩ := (traverseAndExtract_succ_true hash256MerkleStep hb).1 h
      have hh' : height < 32 := by omega
      have hrl := traverseAndExtract_records height _ _ _ _ hh' hl
      split_ifs at hrest with hin
      · obtain ⟨vr, hr, rfl⟩ := hrest
        rcases traverseAndExtract_records height _ _ _ _ hh' hr with hr | hr
        · exact records_left hash256MerkleStep hrl hr (by simp [hin])
        · exact records_right hash256MerkleStep t hh' hin hr
      · obtain ⟨rfl, rfl⟩ := hrest
        exact records_left hash256MerkleStep hrl ⟨rfl, rfl⟩ (by simp [hin])

/-- Soundness of `verify_proof`: an accepted proof names a transaction below the count,
  whose hash is one of the proof's hashes and whose merkle branch, with some siblings,
  climbs to the extracted root. -/
theorem verifyProof_sound {p : MerkleProof} {r : ProofResult}
    (h : p.verifyProof hash256MerkleStep = .ok r) :
    r.transactionPosition < p.transactionsCount.toNat ∧ r.transactionHash ∈ p.hashes ∧
      ∃ siblings : Nat → H256Le, p.branchRoot hash256MerkleStep r.transactionPosition
        r.transactionHash siblings p.computeTreeHeight.toNat = r.extractedRoot := by
  unfold verifyProof at h
  obtain ⟨h0, h⟩ := ite_error_eq_ok h
  replace h := (ite_error_eq_ok (ite_error_eq_ok h).2).2
  split at h
  · cases h
  · rename_i root t' ht
    rcases traverseAndExtract_records hash256MerkleStep _ _ _ _ _
      (Nat.lt_succ_of_le (computeTreeHeight_toNat_le p)) ht with hrec | hrec
    · split at h <;> simp_all
    · obtain ⟨q, j, leaf, hq, hj, hleaf, -, hlt, s, hs⟩ := hrec
      simp only [hq, hj] at h
      replace h := (ite_error_eq_ok (ite_error_eq_ok h).2).2
      simp only [hleaf, Except.ok.injEq] at h
      subst h
      exact ⟨hlt (by simp; omega), List.getElem?_mem hleaf, s, hs⟩

/-- Three transactions `1…1`, `2…2`, `3…3`, and the proof for the second: the root and its
  left child flagged, the two leaves under that child, and the right child's hash, `3…3`
  hashed with itself. -/
def threeLeafProof : MerkleProof :=
  ⟨default, 3, [⟨Bytes32.replicate 1⟩, ⟨Bytes32.replicate 2⟩,
      merkleStep sampleMerkleStep ⟨Bytes32.replicate 3⟩ ⟨Bytes32.replicate 3⟩],
    [true, true, false, true, false, false, false, false]⟩

/-- The merkle root of the three transactions under `sampleMerkleStep`. -/
def threeLeafRoot : H256Le :=
  merkleStep sampleMerkleStep (merkleStep sampleMerkleStep ⟨Bytes32.replicate 1⟩ ⟨Bytes32.replicate 2⟩)
    (merkleStep sampleMerkleStep ⟨Bytes32.replicate 3⟩ ⟨Bytes32.replicate 3⟩)

/-- The proof for the second of three transactions is accepted with position 1, hash `2…2`
  and the root, and meets `verifyProof_sound`: a two-level branch climbs to the root. -/
theorem verifyProof_sound_three :
    threeLeafProof.verifyProof sampleMerkleStep = .ok ⟨threeLeafRoot, ⟨Bytes32.replicate 2⟩, 1⟩ ∧
      threeLeafProof.computeTreeHeight.toNat = 2 ∧
      1 < threeLeafProof.transactionsCount.toNat ∧ ⟨Bytes32.replicate 2⟩ ∈ threeLeafProof.hashes ∧
      ∃ siblings : Nat → H256Le, threeLeafProof.branchRoot sampleMerkleStep 1 ⟨Bytes32.replicate 2⟩
        siblings threeLeafProof.computeTreeHeight.toNat = threeLeafRoot :=
  have h : threeLeafProof.verifyProof sampleMerkleStep =
      .ok ⟨threeLeafRoot, ⟨Bytes32.replicate 2⟩, 1⟩ := rfl
  ⟨h, rfl, verifyProof_sound sampleMerkleStep h⟩

/-- `verify_proof` reads `flag_bits` past its end: with no flag bits (no flag byte), or
  with one flag byte of set bits under a tree of height 8 (129 transactions), the replay
  runs out of bits before it runs out of hashes, and the read panics. -/
theorem verifyProof_reads_past_flag_bits :
    (⟨default, 1, [], []⟩ : MerkleProof).verifyProof hash256MerkleStep = .error .panic ∧
      (⟨default, 129, [], List.replicate 8 true⟩ : MerkleProof).verifyProof hash256MerkleStep =
        .error .panic :=
  ⟨rfl, rfl⟩

/-- `verify_proof` accepts a proof whose replay reaches two flagged leaves: over two
  transactions with hashes `1…1` and `2…2`, the root and both leaves flagged in one flag
  byte, it returns the second leaf, whatever the node hash. -/
theorem verifyProof_accepts_two_flagged_leaves :
    (⟨default, 2, [⟨Bytes32.replicate 1⟩, ⟨Bytes32.replicate 2⟩],
        [true, true, true, false, false, false, false, false]⟩ : MerkleProof).verifyProof
      hash256MerkleStep =
      .ok ⟨merkleStep hash256MerkleStep ⟨Bytes32.replicate 1⟩ ⟨Bytes32.replicate 2⟩,
        ⟨Bytes32.replicate 2⟩, 1⟩ :=
  rfl

/-! ## Unread flag bits -/

/-- The replay reads one flag bit per node it visits: `bits_used` grows. -/
theorem bitsUsed_lt_of_traverseAndExtract {p : MerkleProof} :
    ∀ height pos t v t', p.traverseAndExtract hash256MerkleStep height pos t = .ok (v, t') →
      t.bitsUsed < t'.bitsUsed
  | 0, pos, t, v, t', h => by
    simp only [traverseAndExtract] at h
    split at h
    · cases h
    · obtain ⟨-, rfl⟩ := takeHash_eq_ok.1 h
      exact Nat.lt_succ_self _
  | height + 1, pos, t, v, t', h => by
    rcases hb : p.flagBits[t.bitsUsed]? with _ | _ | _
    · simp [traverseAndExtract, hb] at h
    · simp only [traverseAndExtract, hb] at h
      obtain ⟨-, rfl⟩ := takeHash_eq_ok.1 h
      exact Nat.lt_succ_self _
    · obtain ⟨vl, tl, hl, hrest⟩ := (traverseAndExtract_succ_true hash256MerkleStep hb).1 h
      have hlt : t.bitsUsed + 1 < tl.bitsUsed := bitsUsed_lt_of_traverseAndExtract height _ _ _ _ hl
      split_ifs at hrest
      · obtain ⟨vr, hr, -⟩ := hrest
        exact (Nat.lt_succ_self _).trans (hlt.trans (bitsUsed_lt_of_traverseAndExtract height _ _ _ _ hr))
      · obtain ⟨rfl, -⟩ := hrest
        exact (Nat.lt_succ_self _).trans hlt

/-- The replay reads no flag bit at or past where it stops: a proof with the same count and
  hashes whose flag bits agree below that point replays the same. -/
theorem traverseAndExtract_congr_flagBits {p p' : MerkleProof}
    (hc : p'.transactionsCount = p.transactionsCount) (hh : p'.hashes = p.hashes) :
    ∀ height pos t v t', p.traverseAndExtract hash256MerkleStep height pos t = .ok (v, t') →
      (∀ i < t'.bitsUsed, p'.flagBits[i]? = p.flagBits[i]?) →
      p'.traverseAndExtract hash256MerkleStep height pos t = .ok (v, t')
  | 0, pos, t, v, t', h, hag => by
    simp only [traverseAndExtract] at h ⊢
    split at h
    · cases h
    · rename_i b hb
      obtain ⟨hv, rfl⟩ := takeHash_eq_ok.1 h
      rw [hag t.bitsUsed (Nat.lt_succ_self _), hb]
      exact takeHash_eq_ok.2 ⟨hh ▸ hv, rfl⟩
  | height + 1, pos, t, v, t', h, hag => by
    have hb' := hag t.bitsUsed (bitsUsed_lt_of_traverseAndExtract hash256MerkleStep _ _ _ _ _ h)
    rcases hb : p.flagBits[t.bitsUsed]? with _ | _ | _
    · simp [traverseAndExtract, hb] at h
    · simp only [traverseAndExtract, hb] at h
      obtain ⟨hv, rfl⟩ := takeHash_eq_ok.1 h
      simp only [traverseAndExtract, hb', hb]
      exact takeHash_eq_ok.2 ⟨hh ▸ hv, rfl⟩
    · have hw : p'.computeTreeWidth (UInt32.ofNat height) = p.computeTreeWidth (UInt32.ofNat height) := by
        simp only [computeTreeWidth, hc]
      rw [hb] at hb'
      obtain ⟨vl, tl, hl, hrest⟩ := (traverseAndExtract_succ_true hash256MerkleStep hb).1 h
      have htl : tl.bitsUsed ≤ t'.bitsUsed := by
        split_ifs at hrest
        · obtain ⟨vr, hr, -⟩ := hrest
          exact (bitsUsed_lt_of_traverseAndExtract hash256MerkleStep _ _ _ _ _ hr).le
        · exact hrest.1 ▸ le_rfl
      refine (traverseAndExtract_succ_true hash256MerkleStep hb').2 ⟨vl, tl,
        traverseAndExtract_congr_flagBits hc hh height _ _ _ _ hl fun i hi => hag i (hi.trans_le htl), ?_⟩
      rw [hw]
      split_ifs at hrest ⊢
      · obtain ⟨vr, hr, hv⟩ := hrest
        exact ⟨vr, traverseAndExtract_congr_flagBits hc hh height _ _ _ _ hr hag, hv⟩
      · exact hrest

/-- How many flag bits the replay of `verify_proof` reads: its final `bits_used`, or 0 when it
  fails. -/
def bitsRead (p : MerkleProof) : Nat :=
  match p.traverseAndExtract hash256MerkleStep p.computeTreeHeight.toNat 0 ⟨0, 0, none, none⟩ with
  | .ok (_, t) => t.bitsUsed
  | .error _ => 0

/-- Malleability: `verify_proof` reads the flag bits only as far as its replay goes, and
  checks only how many bytes they fill. In every proof it accepts, the bits its replay reads
  fill as many bytes as the flag bits, and any flag bits that keep those bits, fill as many
  bytes and are no fewer than the hashes give a proof it accepts with the same result. -/
theorem verifyProof_ignores_unread_flag_bits {p : MerkleProof} {r : ProofResult}
    (h : p.verifyProof hash256MerkleStep = .ok r) :
    (p.bitsRead hash256MerkleStep + 7) / 8 = (p.flagBits.length + 7) / 8 ∧
      ∀ fs : List Bool, fs.take (p.bitsRead hash256MerkleStep) = p.flagBits.take (p.bitsRead hash256MerkleStep) →
        (fs.length + 7) / 8 = (p.flagBits.length + 7) / 8 → p.hashes.length ≤ fs.length →
        ({ p with flagBits := fs } : MerkleProof).verifyProof hash256MerkleStep = .ok r := by
  obtain ⟨h0, hmax, t, j, hrun, hmp, hhp, hj, hused, hbits⟩ := verifyProof_eq_ok hash256MerkleStep h
  have hread : p.bitsRead hash256MerkleStep = t.bitsUsed := by rw [bitsRead, hrun]
  rw [hread]
  refine ⟨hbits, fun fs hfs hlen hhs => ?_⟩
  have hag : ∀ i < t.bitsUsed, fs[i]? = p.flagBits[i]? := fun i hi => by
    rw [← List.getElem?_take_of_lt hi, hfs, List.getElem?_take_of_lt hi]
  have hrun' := @traverseAndExtract_congr_flagBits hash256MerkleStep p { p with flagBits := fs } rfl rfl
    _ _ _ _ _ hrun hag
  unfold verifyProof
  rw [if_neg (Nat.pos_iff_ne_zero.1 h0), if_neg (Nat.not_lt.2 hmax), if_neg (Nat.not_lt.2 hhs)]
  rw [show ({ p with flagBits := fs } : MerkleProof).computeTreeHeight = p.computeTreeHeight from rfl, hrun']
  simp only [hmp, hhp, hused, hbits, hlen, hj, ne_eq, not_true_eq_false, if_false]

/-- The three-transaction proof reads five flag bits: with the last three of its flag byte
  set, it is accepted all the same. -/
theorem verifyProof_ignores_unread_flag_bits_three :
    threeLeafProof.verifyProof sampleMerkleStep = .ok ⟨threeLeafRoot, ⟨Bytes32.replicate 2⟩, 1⟩ ∧
      threeLeafProof.bitsRead sampleMerkleStep = 5 ∧
      ((threeLeafProof.bitsRead sampleMerkleStep + 7) / 8 = (threeLeafProof.flagBits.length + 7) / 8 ∧
        ∀ fs : List Bool, fs.take (threeLeafProof.bitsRead sampleMerkleStep) =
            threeLeafProof.flagBits.take (threeLeafProof.bitsRead sampleMerkleStep) →
          (fs.length + 7) / 8 = (threeLeafProof.flagBits.length + 7) / 8 →
          threeLeafProof.hashes.length ≤ fs.length →
          ({ threeLeafProof with flagBits := fs } : MerkleProof).verifyProof sampleMerkleStep =
            .ok ⟨threeLeafRoot, ⟨Bytes32.replicate 2⟩, 1⟩) :=
  have h : threeLeafProof.verifyProof sampleMerkleStep =
      .ok ⟨threeLeafRoot, ⟨Bytes32.replicate 2⟩, 1⟩ := rfl
  ⟨h, rfl, verifyProof_ignores_unread_flag_bits sampleMerkleStep h⟩

end MerkleProof

end

end BtcParachain.Bitcoin
