import Mathlib.Data.Nat.Notation

/-!
What the servers and their clients use of the C library's characters and strings.
-/
namespace UnixEnv.CString

/-- `toupper` in the C locale -/
def toupper (c : UInt8) : UInt8 := if 97 ≤ c ∧ c ≤ 122 then c - 32 else c

/-- The bytes before the first NUL -/
def strlen (buf : List UInt8) : ℕ := (buf.takeWhile (· ≠ 0)).length

theorem strlen_le (buf : List UInt8) : strlen buf ≤ buf.length :=
  (List.takeWhile_prefix _).length_le

end UnixEnv.CString
