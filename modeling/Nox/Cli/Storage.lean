import Mathlib.Data.UInt

/-!
# Storage kinds as bytes

`cli/src/storage.rs` stores the kind of code storage of an app in the contract as one
byte: `Storage::from` reads it and `Storage::to_u8` writes it. The uploads themselves
(`upload_to_storage` and the Swarm and IPFS uploaders) are HTTP and file IO, and are
left out.

Every byte reads back as itself. The other way round, `UNKNOWN(0)` and `UNKNOWN(1)`
are written as the bytes of `SWARM` and `IPFS`, and read back as those: they are the
only kinds that do not survive a write and a read.
-/

namespace Nox.Cli

/-- `Storage`. -/
inductive Storage
  | swarm
  | ipfs
  | unknown (u : UInt8)
deriving DecidableEq, Repr

namespace Storage

/-- `Storage::from`. -/
def fromU8 (n : UInt8) : Storage :=
  match n with
  | 0 => swarm
  | 1 => ipfs
  | u => unknown u

/-- `Storage::to_u8`. -/
def toU8 : Storage → UInt8
  | swarm => 0
  | ipfs => 1
  | unknown u => u

/-- Every byte reads back as itself. -/
theorem toU8_fromU8 (n : UInt8) : (fromU8 n).toU8 = n := by
  unfold fromU8
  split <;> rfl

/-- A kind survives a write and a read exactly when it is not `UNKNOWN(0)` or
    `UNKNOWN(1)`. -/
theorem fromU8_toU8_eq_iff (s : Storage) : fromU8 s.toU8 = s ↔ s ≠ unknown 0 ∧ s ≠ unknown 1 := by
  cases s with
  | swarm => decide
  | ipfs => decide
  | unknown u =>
    simp only [toU8, fromU8, ne_eq, unknown.injEq]
    split <;> simp_all

end Storage

end Nox.Cli
