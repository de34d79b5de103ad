import Mathlib.Algebra.Order.Field.Basic
import Mathlib.Tactic.Linarith
import Mathlib.Tactic.Ring

/-!
# Rounding to the nearest multiple

Ties go to the even multiple. The multiple that a number is rounded to does not depend on
the scale, and for whole numbers it is found from the remainder.
-/
namespace DjgppLibc.NearestEven

/-- Among the multiples of `u` the `k`-th is nearest to `x`, and it is even if another one is as
near. -/
structure IsNearestEven (x u : ℚ) (k : ℤ) : Prop where
  nearest : ∀ j : ℤ, |x - k * u| ≤ |x - j * u|
  even : ∀ j : ℤ, j ≠ k → |x - j * u| = |x - k * u| → Even k

variable {x u s : ℚ} {k : ℤ}

theorem abs_scaled (hs : 0 < s) (x u : ℚ) (k : ℤ) : |x * s - k * (u * s)| = |x - k * u| * s := by
  have hsplit : x * s - k * (u * s) = (x - k * u) * s := by ring
  rw [hsplit, abs_mul, abs_of_pos hs]

theorem isNearestEven_scale (hs : 0 < s) : IsNearestEven (x * s) (u * s) k ↔
    IsNearestEven x u k := by
  constructor
  · intro h
    constructor
    · intro j
      have hle := h.nearest j
      rw [abs_scaled hs, abs_scaled hs] at hle
      exact le_of_mul_le_mul_right hle hs
    · intro j hj htie
      refine h.even j hj ?_
      rw [abs_scaled hs, abs_scaled hs, htie]
  · intro h
    constructor
    · intro j
      rw [abs_scaled hs, abs_scaled hs]
      exact mul_le_mul_of_nonneg_right (h.nearest j) hs.le
    · intro j hj htie
      refine h.even j hj ?_
      rw [abs_scaled hs, abs_scaled hs] at htie
      exact mul_right_cancel₀ hs.ne' htie

variable {m n q r j : ℤ}

structure IsNearestEvenInt (m n k : ℤ) : Prop where
  nearest : ∀ j : ℤ, |m - k * n| ≤ |m - j * n|
  even : ∀ j : ℤ, j ≠ k → |m - j * n| = |m - k * n| → Even k

theorem isNearestEven_cast (m n k : ℤ) : IsNearestEven m n k ↔ IsNearestEvenInt m n k := by
  have hcast : ∀ j : ℤ, |(m : ℚ) - j * n| = (|m - j * n| : ℤ) := by
    intro j
    push_cast
    rfl
  constructor
  · intro h
    constructor
    · intro j
      have hle := h.nearest j
      rw [hcast, hcast] at hle
      exact_mod_cast hle
    · intro j hj htie
      refine h.even j hj ?_
      rw [hcast, hcast, htie]
  · intro h
    constructor
    · intro j
      rw [hcast, hcast]
      exact_mod_cast h.nearest j
    · intro j hj htie
      rw [hcast, hcast] at htie
      exact h.even j hj (by exact_mod_cast htie)

/-- The distances of the two multiples around the number, and that the others are farther away. -/
theorem distances (hr : 0 ≤ r) (hlt : r < n) (hm : m = q * n + r) :
    |m - q * n| = r ∧ |m - (q + 1) * n| = n - r ∧
      ∀ j, j ≠ q → j ≠ q + 1 → r < |m - j * n| ∧ n - r ≤ |m - j * n| := by
  have hsplit : ∀ j, m - j * n = r - (j - q) * n := by
    intro j
    rw [hm]
    ring
  refine ⟨?_, ?_, fun j hj hj₁ => ?_⟩
  · rw [hsplit, sub_self, zero_mul, sub_zero, abs_of_nonneg hr]
  · rw [hsplit, add_sub_cancel_left, one_mul, abs_of_neg (by linarith)]
    ring
  · rw [hsplit]
    rcases Int.lt_or_gt_of_ne hj with hneg | hpos
    · have hle : n ≤ -(j - q) * n := le_mul_of_one_le_left (by linarith) (by omega)
      rw [abs_of_pos (by linarith)]
      constructor <;> linarith
    · have hle : 2 * n ≤ (j - q) * n := mul_le_mul_of_nonneg_right (by omega) (by linarith)
      rw [abs_of_neg (by linarith)]
      constructor <;> linarith

/-- The multiple from the quotient and the remainder. -/
def roundEven (q r n : ℤ) : ℤ := if n < 2 * r ∨ 2 * r = n ∧ q % 2 = 1 then q + 1 else q

theorem isNearestEvenInt_round (hr : 0 ≤ r) (hlt : r < n) (hm : m = q * n + r) :
    IsNearestEvenInt m n (roundEven q r n) := by
  obtain ⟨hq, hq₁, hfar⟩ := distances hr hlt hm
  unfold roundEven
  split_ifs with hup
  · constructor
    · intro j
      rw [hq₁]
      by_cases hj : j = q
      · rw [hj, hq]
        omega
      · by_cases hj₁ : j = q + 1
        · rw [hj₁, hq₁]
        · exact (hfar j hj hj₁).2
    · intro j hj₁ htie
      rw [hq₁] at htie
      by_cases hj : j = q
      · rw [hj, hq] at htie
        rw [Int.even_iff]
        omega
      · have := (hfar j hj hj₁).1
        omega
  · constructor
    · intro j
      rw [hq]
      by_cases hj : j = q
      · rw [hj, hq]
      · by_cases hj₁ : j = q + 1
        · rw [hj₁, hq₁]
          omega
        · exact (hfar j hj hj₁).1.le
    · intro j hj htie
      rw [hq] at htie
      by_cases hj₁ : j = q + 1
      · rw [hj₁, hq₁] at htie
        rw [Int.even_iff]
        omega
      · have := (hfar j hj hj₁).1
        omega

theorem isNearestEvenInt_iff (hr : 0 ≤ r) (hlt : r < n) (hm : m = q * n + r) (k : ℤ) :
    IsNearestEvenInt m n k ↔ k = roundEven q r n := by
  constructor
  · intro h
    obtain ⟨hq, hq₁, hfar⟩ := distances hr hlt hm
    have hle := h.nearest q
    have hle₁ := h.nearest (q + 1)
    rw [hq] at hle
    rw [hq₁] at hle₁
    unfold roundEven
    by_cases hk : k = q
    · subst hk
      rw [hq] at hle₁
      have heven : 2 * r = n → k % 2 = 0 := by
        intro htie
        exact Int.even_iff.mp (h.even (k + 1) (by omega) (by rw [hq₁, hq]; omega))
      rw [if_neg (by omega)]
    · by_cases hk₁ : k = q + 1
      · subst hk₁
        rw [hq₁] at hle
        have heven : 2 * r = n → (q + 1) % 2 = 0 := by
          intro htie
          exact Int.even_iff.mp (h.even q (by omega) (by rw [hq₁, hq]; omega))
        rw [if_pos (by omega)]
      · have := (hfar k hk hk₁).1
        omega
  · rintro rfl
    exact isNearestEvenInt_round hr hlt hm

end DjgppLibc.NearestEven
