import Mathlib.Algebra.Group.Int.Defs
import Mathlib.Algebra.Group.Nat.Defs
import Mathlib.Data.Int.Notation
import ByoRedis.Lib.Runs

/-!
What every part of the server shares: byte strings, addresses, and the ways a process ends.
-/

namespace ByoRedis.Basic

abbrev Bytes := List UInt8

/-- An address of the process. An intrusive node and the structure it is embedded in share
one, so that `container_of` is the identity. -/
abbrev Addr := ℕ

/-- How the process ends early: `die` aborts with a message, a failed `assert` aborts, an
access through `NULL` or past an array is undefined, a loop may never end, calls may overflow the
stack, and a `write` to a peer that is gone is a signal that the process does not handle. -/
inductive Fault
  | die (msg : String)
  | assertion
  | access
  | spin
  | overflow
  | sigpipe
  deriving DecidableEq, Repr

/-- A computation of the process. -/
abbrev Eff := Except Fault

/-- The bytes of an ASCII literal. -/
def str (s : String) : Bytes := s.toList.map fun c => UInt8.ofNat c.toNat

/-- `isspace` in the C locale. -/
def isSpace (b : UInt8) : Bool := b = 32 || (9 ≤ b && b ≤ 13)

/-- `str_hash`: an FNV variant in 32 bits, widened to `uint64_t`. -/
def strHash (data : Bytes) : ℕ :=
  (data.foldl (fun h b => (h + b.toUInt32) * 0x1000193) (0x811C9DC5 : UInt32)).toNat

end ByoRedis.Basic
