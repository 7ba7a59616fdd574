import BtcParachain.BtcRelay.Module
/-
  BtcParachain.BtcRelay.Rollback — a rejected call writes nothing.

  Every `Err` exit of the four dispatchables comes before their first storage write:
  `initialize` checks the origin and `BestBlock` first; `store_block_header` returns
  `PrevBlock`, `BlockHeightOverflow` or `DuplicateBlock` before it inserts the header
  (`extend_blockchain` inserts into a copy), and after it writes it always returns
  `Ok`, whatever `check_and_do_reorg` reports; the flag calls fail on a missing header
  or an unknown code before their (unchanging) write-back.

  Proved: `call_error_leaves_storage`, for every store state, every call and every
  argument, with one lemma per dispatchable.
-/

namespace BtcParachain.BtcRelay

section

variable (parseBlockHeader : List UInt8 → BlockHeader)

theorem initializeRelay_error {s s' : Store} {origin : Origin} {bytes : List UInt8} {height : Nat}
    {e : DispatchError} (h : initializeRelay parseBlockHeader s origin bytes height = some (s', .error e)) :
    s' = s := by
  dsimp only [initializeRelay] at h
  repeat' split at h
  all_goals first | (cases h; rfl) | simp at h

/-- The `Err` exits of `store_block_header`, each before its first write: `BadOrigin` for an
  unsigned origin, else `PrevBlock`, `BlockHeightOverflow` or `DuplicateBlock`. -/
theorem storeBlockHeader_error {s s' : Store} {origin : Origin} {bytes : List UInt8} {e : DispatchError}
    (h : storeBlockHeader parseBlockHeader s origin bytes = some (s', .error e)) :
    s' = s ∧ ((∀ who, origin ≠ .signed who) ∧ e = .badOrigin ∨ e = .module .prevBlock ∨
      e = .module .blockHeightOverflow ∨ e = .module .duplicateBlock) := by
  dsimp only [storeBlockHeader] at h
  repeat' split at h
  all_goals first | (cases h; simp_all) | simp at h

end

/-- `flag_block_error` writes back, at most, the entry of a stored header's chain. -/
theorem flagBlockError_eq {s s' : Store} {origin : Origin} {x : H256} {e : ErrorCodes}
    {r : DispatchResult} (h : flagBlockError s origin x e = some (s', r)) :
    s' = s ∨ r = .ok () ∧
      ∃ hdr, s.blockHeaders x = some hdr ∧ s' = s.mutateChainsIndex hdr.chainRef fun b => b := by
  dsimp only [flagBlockError] at h
  split at h
  · split at h
    · exact .inl (by cases h; rfl)
    · rename_i hdr hx
      split at h
      · exact .inl (by cases h; rfl)
      · cases h; exact .inr ⟨rfl, hdr, hx, rfl⟩
  · exact .inl (by cases h; rfl)

/-- `clear_block_error` writes back, at most, the entry of a stored header's chain. -/
theorem clearBlockError_eq {s s' : Store} {origin : Origin} {x : H256} {e : ErrorCodes}
    {r : DispatchResult} (h : clearBlockError s origin x e = some (s', r)) :
    s' = s ∨ r = .ok () ∧
      ∃ hdr, s.blockHeaders x = some hdr ∧ s' = s.mutateChainsIndex hdr.chainRef fun b => b := by
  dsimp only [clearBlockError] at h
  split at h
  · split at h
    · exact .inl (by cases h; rfl)
    · rename_i hdr hx
      split at h
      · cases h
      · exact .inl (by cases h; rfl)
      · cases h; exact .inr ⟨rfl, hdr, hx, rfl⟩
  · exact .inl (by cases h; rfl)

theorem flagBlockError_error {s s' : Store} {origin : Origin} {blockHash : H256} {error : ErrorCodes}
    {e : DispatchError} (h : flagBlockError s origin blockHash error = some (s', .error e)) : s' = s :=
  (flagBlockError_eq h).resolve_right fun ⟨h, _⟩ => nomatch h

theorem clearBlockError_error {s s' : Store} {origin : Origin} {blockHash : H256} {error : ErrorCodes}
    {e : DispatchError} (h : clearBlockError s origin blockHash error = some (s', .error e)) : s' = s :=
  (clearBlockError_eq h).resolve_right fun ⟨h, _⟩ => nomatch h

section

variable (parseBlockHeader : List UInt8 → BlockHeader)

/-- A call that returns `Err` leaves `BlockHeaders`, `Chains`, `ChainsIndex`, `BestBlock`,
  `BestBlockHeight` and `ChainCounter` as they were. -/
theorem call_error_leaves_storage (c : Call) (s s' : Store) (e : DispatchError)
    (h : dispatch parseBlockHeader s c = some (s', .error e)) : s' = s := by
  cases c with
  | initializeRelay => exact initializeRelay_error parseBlockHeader h
  | storeBlockHeader => exact (storeBlockHeader_error parseBlockHeader h).1
  | flagBlockError => exact flagBlockError_error h
  | clearBlockError => exact clearBlockError_error h

end

/-- A header parser for the examples: the first byte names the block, the second its
  parent. -/
def byteHeader (bytes : List UInt8) : BlockHeader :=
  ⟨default, ⟨Bytes32.replicate (bytes.getD 1 0)⟩, ⟨Bytes32.replicate (bytes.getD 0 0)⟩⟩

/-- After `initialize` at height `u32::MAX`, `store_block_header` with a child of the genesis
  block reads its parent, fails with `BlockHeightOverflow`, and leaves the initialized store
  as it was. -/
theorem call_error_leaves_storage_height_overflow :
    ∃ s, dispatch byteHeader Store.empty (.initializeRelay (.signed 0) [1, 0] u32Max) = some (s, .ok ()) ∧
      s.bestBlock = some (byteHeader [1, 0]).blockHash ∧ s.bestBlockHeight = u32Max ∧
      dispatch byteHeader s (.storeBlockHeader (.signed 0) [2, 1]) =
        some (s, .error (.module .blockHeightOverflow)) ∧ s = s :=
  ⟨_, rfl, rfl, rfl, rfl,
    call_error_leaves_storage byteHeader (.storeBlockHeader (.signed 0) [2, 1]) _ _ _ rfl⟩

end BtcParachain.BtcRelay
