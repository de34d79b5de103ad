import Mathlib.Data.Nat.Notation

/-!
# Strings of C

A string is a list of bytes without NUL; its end is where the code reads the
NUL. `toupper` depends on the locale, so it is a parameter of what uses it.
-/
namespace DjgppLibc.CStrings

structure CString where
  bytes : List UInt8
  nul_notMem : 0 ∉ bytes
deriving DecidableEq

/-- `toupper`. No locale touches NUL and the slashes or maps another character to them. -/
structure Locale where
  toupper : UInt8 → UInt8
  toupper_eq_nul : ∀ c, toupper c = 0 ↔ c = 0
  toupper_eq_slash : ∀ c, toupper c = '/'.toUInt8 ↔ c = '/'.toUInt8
  toupper_eq_backslash : ∀ c, toupper c = '\\'.toUInt8 ↔ c = '\\'.toUInt8

theorem forall_byte {p : UInt8 → Prop} (h : ∀ n < 256, p (UInt8.ofNat n)) (c : UInt8) : p c := by
  have := h c.toNat (UInt8.toNat_lt c)
  rwa [UInt8.ofNat_toNat] at this

/-- The table of `ct_upper.c`, for the C locale. -/
def cLocale : Locale where
  toupper c := if 'a'.toUInt8 ≤ c ∧ c ≤ 'z'.toUInt8 then c - 32 else c
  toupper_eq_nul := forall_byte (by decide +kernel)
  toupper_eq_slash := forall_byte (by decide +kernel)
  toupper_eq_backslash := forall_byte (by decide +kernel)

end DjgppLibc.CStrings
