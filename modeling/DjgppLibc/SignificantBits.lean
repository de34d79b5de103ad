import Mathlib.Data.Nat.Size
import Mathlib.Tactic.Ring
import Mathlib.Tactic.Linarith

/-!
# Numbers with a limited number of significant bits

A number is cut to its first `p` bits; the rest of it is less than one unit in the last
place. A number of `p` bits and an exponent is the truncation of all numbers from it up to
the next one.
-/
namespace DjgppLibc.SignificantBits

/-- How many bits are behind the first `p` ones. -/
def excess (p n : ℕ) : ℕ := n.size - p

/-- The first `p` bits of a number, and zeros for the others. -/
def truncate (p n : ℕ) : ℕ := n / 2 ^ excess p n * 2 ^ excess p n

variable {p n s e : ℕ}

/-- A number of `p` bits is the truncation of all the numbers up to the next one. -/
theorem truncate_eq (hp : 0 < p) (hlo : 2 ^ (p - 1) ≤ s) (hhi : s < 2 ^ p) (hle : s * 2 ^ e ≤ n)
    (hlt : n < (s + 1) * 2 ^ e) : truncate p n = s * 2 ^ e := by
  have hsize : n.size = p + e := by
    apply le_antisymm
    · rw [Nat.size_le]
      calc n < (s + 1) * 2 ^ e := hlt
        _ ≤ 2 ^ p * 2 ^ e := Nat.mul_le_mul_right _ hhi
        _ = 2 ^ (p + e) := (pow_add 2 p e).symm
    · have hpow : 2 ^ (p - 1 + e) ≤ n := by
        rw [pow_add]
        exact (Nat.mul_le_mul_right _ hlo).trans hle
      have := Nat.lt_size.mpr hpow
      omega
  have hexcess : excess p n = e := by
    rw [excess, hsize, Nat.add_sub_cancel_left]
  have hdiv : n / 2 ^ e = s := Nat.div_eq_of_lt_le hle hlt
  rw [truncate, hexcess, hdiv]

example : truncate 3 29 = 28 := by decide

end DjgppLibc.SignificantBits
