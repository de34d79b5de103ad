import Mathlib.Analysis.Real.Sqrt

/-!
# Square roots digit by digit

The root of a number that gets two more bits gets one more bit itself. What remains of the number
says which one, and is enough to go on.
-/
namespace DjgppLibc.SquareRoots

/-- What is left of a number when the square of its root is taken away. -/
def rest (v : ℕ) : ℕ := v - v.sqrt ^ 2

variable {v d s n k : ℕ}

theorem sqrt_add_rest (v : ℕ) : v.sqrt ^ 2 + rest v = v := Nat.add_sub_cancel' (Nat.sqrt_le' v)

theorem rest_le (v : ℕ) : rest v ≤ 2 * v.sqrt := by
  have hlt := Nat.lt_succ_sqrt' v
  have hsplit := sqrt_add_rest v
  rw [Nat.succ_eq_add_one] at hlt
  nlinarith

/-- The root and the rest are known by their sum and the bound. -/
theorem sqrt_eq_of_rest {r : ℕ} (hv : s ^ 2 + r = v) (hr : r ≤ 2 * s) :
    v.sqrt = s ∧ rest v = r := by
  have hsqrt : v.sqrt = s := by
    symm
    rw [Nat.eq_sqrt']
    constructor <;> nlinarith
  refine ⟨hsqrt, ?_⟩
  rw [rest, hsqrt, ← hv, Nat.add_sub_cancel_left]

theorem sqrt_step_one (hd : d < 4) (h : 4 * v.sqrt + 1 ≤ 4 * rest v + d) :
    (4 * v + d).sqrt = 2 * v.sqrt + 1 ∧ rest (4 * v + d) = 4 * rest v + d - (4 * v.sqrt + 1) := by
  have hsplit := sqrt_add_rest v
  have hle := rest_le v
  refine sqrt_eq_of_rest ?_ (by omega)
  have hsub := Nat.sub_add_cancel h
  nlinarith

theorem sqrt_step_zero (h : 4 * rest v + d < 4 * v.sqrt + 1) :
    (4 * v + d).sqrt = 2 * v.sqrt ∧ rest (4 * v + d) = 4 * rest v + d := by
  have hsplit := sqrt_add_rest v
  refine sqrt_eq_of_rest ?_ (by omega)
  nlinarith

theorem div_four_pow (n k : ℕ) : n / 4 ^ k = 4 * (n / 4 ^ (k + 1)) + n / 4 ^ k % 4 := by
  rw [pow_succ, ← Nat.div_div_eq_div_mul]
  omega

theorem sqrt_lt_two_pow (h : v < 4 ^ k) : v.sqrt < 2 ^ k := by
  rw [Nat.sqrt_lt', ← pow_mul, mul_comm, pow_mul]
  exact h

theorem two_pow_le_sqrt (h : 4 ^ k ≤ v) : 2 ^ k ≤ v.sqrt := by
  rw [Nat.le_sqrt', ← pow_mul, mul_comm, pow_mul]
  exact h

theorem near_one_iff {r t : ℕ} (ht : 0 < t) :
    (2 * r) ^ 2 < 4 * (r ^ 2 + t) ∧ 4 * (r ^ 2 + t) < (2 * r + 2) ^ 2 ↔ t ≤ 2 * r := by
  constructor
  · rintro ⟨-, hlt⟩
    nlinarith
  · intro hle
    constructor <;> nlinarith

theorem near_zero_iff {r t : ℕ} : (2 * r + 1) ^ 2 < 4 * ((r + 1) ^ 2 + t) ∧
    4 * ((r + 1) ^ 2 + t) < (2 * r + 3) ^ 2 ↔ t ≤ r + 1 := by
  constructor
  · rintro ⟨-, hlt⟩
    nlinarith
  · intro hle
    constructor <;> nlinarith

theorem square_le_of_missed {r l x : ℕ} (hl : r < l) (hx : 16 * (r ^ 2 + l) ≤ x) :
    (4 * r + 2) ^ 2 ≤ x := by
  nlinarith

theorem abs_sub_sqrt_lt_iff {u : ℝ} (hu : 0 < u) (q x : ℕ) :
    |((q + 1 : ℕ) : ℝ) * u - √(x * u ^ 2)| < u ↔ q ^ 2 < x ∧ x < (q + 2) ^ 2 := by
  have hscale : √(x * u ^ 2) = √x * u := by
    rw [Real.sqrt_mul (Nat.cast_nonneg x), Real.sqrt_sq hu.le]
  have hlow : (q : ℝ) < √x ↔ q ^ 2 < x := by
    rw [Real.lt_sqrt (Nat.cast_nonneg q)]
    exact_mod_cast Iff.rfl
  have hhigh : √x < (q + 2 : ℕ) ↔ x < (q + 2) ^ 2 := by
    rw [Real.sqrt_lt' (by positivity)]
    exact_mod_cast Iff.rfl
  rw [hscale, ← sub_mul, abs_mul, abs_of_pos hu, mul_lt_iff_lt_one_left hu, abs_sub_lt_iff, ← hlow,
    ← hhigh]
  push_cast
  constructor
  · rintro ⟨hle, hge⟩
    constructor <;> linarith
  · rintro ⟨hle, hge⟩
    constructor <;> linarith

end DjgppLibc.SquareRoots
