import Mathlib
/-
  BtcParachain.Primitives — the fixed-width values the relay pallet and the merkle
  verifier share: 32-byte hashes (`sp_core::H256`, and bitcoin's `H256Le`, kept in
  little-endian byte order) and the u32 arithmetic the pallet checks (`checked_add`)
  or truncates (`as u32`). Heights, chain ids and positions are `Nat`; where the source
  adds to or casts into a u32 the model does so explicitly.
-/

namespace BtcParachain

/-- `[u8; 32]`. -/
structure Bytes32 where
  bytes : List UInt8
  length_bytes : bytes.length = 32
  deriving DecidableEq, Repr

/-- Thirty-two copies of one byte. -/
def Bytes32.replicate (b : UInt8) : Bytes32 := ⟨List.replicate 32 b, List.length_replicate _ _⟩

/-- `sp_core::H256`: the relay's block hashes. -/
structure H256 where
  content : Bytes32
  deriving DecidableEq, Repr

instance : Inhabited Bytes32 := ⟨Bytes32.replicate 0⟩

instance : Inhabited H256 := ⟨⟨Bytes32.replicate 0⟩⟩

/-- `bitcoin::types::H256Le`. -/
structure H256Le where
  content : Bytes32
  deriving DecidableEq, Repr

instance : Inhabited H256Le := ⟨⟨Bytes32.replicate 0⟩⟩

def H256Le.toBytesLe (h : H256Le) : Bytes32 := h.content

def H256Le.fromBytesLe (bytes : Bytes32) : H256Le := ⟨bytes⟩

/-- `bitcoin::types::BlockHeader`, the fields the relay and the proof parser read. -/
structure BlockHeader where
  merkleRoot : H256
  hashPrevBlock : H256
  blockHash : H256
  deriving DecidableEq, Repr, Inhabited

/-- How a call ends without its value: an `Err` it returns, or a panic (an index out of
  bounds, an `unwrap` of `None`), which aborts the call. -/
inductive Fault (ε : Type) where
  | err (e : ε)
  | panic
  deriving DecidableEq, Repr

/-- `u32::max_value()`. -/
def u32Max : Nat := 2 ^ 32 - 1

/-- `u32::checked_add`. -/
def checkedAdd (a b : Nat) : Option Nat := if a + b ≤ u32Max then some (a + b) else none

/-- `n as u32` for a `usize` `n`. -/
def asU32 (n : Nat) : Nat := n % 2 ^ 32

theorem checkedAdd_eq_some {a b c : Nat} : checkedAdd a b = some c ↔ a + b ≤ u32Max ∧ c = a + b := by
  unfold checkedAdd; split <;> simp_all [eq_comm]

theorem asU32_of_lt {n : Nat} (h : n < 2 ^ 32) : asU32 n = n := Nat.mod_eq_of_lt h

end BtcParachain
