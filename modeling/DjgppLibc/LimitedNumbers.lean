import Mathlib.Algebra.Order.Ring.Nat

/-!
# Numbers read digit by digit under a limit

A number is accumulated from its leading digit on, and the accumulator must not pass a limit.
The test before each step compares with the quotient and the remainder of the limit by the base,
so it never computes a number beyond the limit.
-/
namespace DjgppLibc.LimitedNumbers

/-- The number with the digits `ds`, continued from `v`. -/
def valueFrom (base : ℕ) : ℕ → List ℕ → ℕ
  | v, [] => v
  | v, d :: ds => valueFrom base (v * base + d) ds

def value (base : ℕ) (ds : List ℕ) : ℕ := valueFrom base 0 ds

theorem le_valueFrom {base : ℕ} (hbase : 0 < base) (v : ℕ) (ds : List ℕ) :
    v ≤ valueFrom base v ds := by
  induction ds generalizing v with
  | nil => exact Nat.le_refl v
  | cons d ds ih =>
      have hv : v ≤ v * base := Nat.le_mul_of_pos_right v hbase
      exact Nat.le_trans (Nat.le_trans hv (Nat.le_add_right _ d)) (ih _)

def Passes (limit base acc d : ℕ) : Prop :=
  acc > limit / base ∨ (acc = limit / base ∧ d > limit % base)

instance (limit base acc d : ℕ) : Decidable (Passes limit base acc d) :=
  inferInstanceAs (Decidable (_ ∨ _))

theorem passes_iff {limit base acc d : ℕ} (hd : d < base) :
    Passes limit base acc d ↔ limit < acc * base + d := by
  have hpos : 0 < base := by omega
  have hlimit := Nat.div_add_mod' limit base
  have hrest := Nat.mod_lt limit hpos
  unfold Passes
  constructor
  · rintro (h | ⟨h, hlt⟩)
    · have hmul : (limit / base + 1) * base ≤ acc * base := Nat.mul_le_mul_right base h
      rw [Nat.add_mul] at hmul
      omega
    · rw [h]
      omega
  · intro h
    rcases Nat.lt_trichotomy acc (limit / base) with hlt | heq | hgt
    · have hmul : (acc + 1) * base ≤ limit / base * base := Nat.mul_le_mul_right base hlt
      rw [Nat.add_mul] at hmul
      omega
    · rw [heq] at h
      exact .inr ⟨heq, by omega⟩
    · exact .inl hgt

/-- The quotient and the remainder of the limit, computed from its predecessor. -/
theorem div_mod_succ {n base : ℕ} (hbase : 0 < base) :
    ((n + 1) / base, (n + 1) % base) =
      if n % base + 1 = base then (n / base + 1, 0) else (n / base, n % base + 1) := by
  have hn := Nat.div_add_mod' n base
  have hrest := Nat.mod_lt n hbase
  split_ifs with hfull
  · have hsum : n + 1 = (n / base + 1) * base := by
      rw [Nat.add_mul]
      omega
    rw [hsum, Nat.mul_div_cancel _ hbase, Nat.mul_mod_left]
  · have hsum : n + 1 = n % base + 1 + n / base * base := by omega
    have hlt : n % base + 1 < base := by omega
    conv_lhs => rw [hsum]
    rw [Nat.add_mul_div_right _ _ hbase, Nat.div_eq_of_lt hlt, Nat.zero_add,
      Nat.add_mul_mod_self_right, Nat.mod_eq_of_lt hlt]

end DjgppLibc.LimitedNumbers
