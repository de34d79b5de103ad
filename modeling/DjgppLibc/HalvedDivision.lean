import Mathlib.Data.Nat.Factorization.Basic
import Mathlib.Tactic.Positivity
import Mathlib.Tactic.Ring

/-!
# Division with a halved divisor

A quotient is found bit by bit. Where a division by hand doubles the remainder, the divisor is
halved, and loses what falls out of it. As long as it is even nothing is lost, and the quotient
up to there is exact. What comes then is right only if the rest stays below the last divisor.
-/
namespace DjgppLibc.HalvedDivision

def halved : ℕ → ℕ → ℕ → ℕ
  | 0, _, _ => 0
  | n + 1, a, b => if b ≤ a then 2 ^ n + halved n (a - b) (b / 2) else halved n a (b / 2)

attribute [grind =] halved

variable {a b d o r u v : ℕ}

theorem halved_lt (n a b : ℕ) : halved n a b < 2 ^ n := by
  induction n generalizing a b with
  | zero => exact Nat.one_pos
  | succ n ih =>
      rw [halved, pow_succ]
      split
      · have hlt := ih (a - b) (b / 2)
        omega
      · have hlt := ih a (b / 2)
        omega

theorem halved_div (m n a b : ℕ) : halved (m + n) a b / 2 ^ n = halved m a b := by
  induction m generalizing a b with
  | zero =>
      rw [Nat.zero_add]
      exact Nat.div_eq_of_lt (halved_lt n a b)
  | succ m ih =>
      rw [Nat.succ_add, halved, halved]
      split
      · rw [pow_add, Nat.add_comm, Nat.add_mul_div_right _ _ (by positivity), ih, Nat.add_comm]
      · exact ih a (b / 2)

theorem halved_ge (h : b / 2 ≤ a) (n : ℕ) : 2 ^ n ≤ halved (n + 2) a b := by
  rw [halved]
  split
  · rw [pow_succ]
    omega
  · rw [halved, if_pos h]
    exact Nat.le_add_right _ _

theorem halved_split (h : a < 2 * (2 ^ u * o)) (v : ℕ) :
    halved (u + 1 + v) a (2 ^ u * o) = a / o * 2 ^ v + halved v (a % o) (o / 2) := by
  induction u generalizing a with
  | zero =>
      rw [pow_zero, one_mul] at h ⊢
      rw [Nat.zero_add, Nat.add_comm, halved]
      split
      · next hle =>
        rw [Nat.div_eq_sub_div (by omega) hle, Nat.mod_eq_sub_mod hle,
          Nat.div_eq_of_lt (show a - o < o by omega), Nat.mod_eq_of_lt (show a - o < o by omega),
          Nat.zero_add, one_mul]
      · next hlt =>
        rw [Nat.div_eq_of_lt (show a < o by omega), Nat.mod_eq_of_lt (show a < o by omega),
          Nat.zero_mul, Nat.zero_add]
  | succ u ih =>
      have hpow : 2 ^ (u + 1) * o = 2 * (2 ^ u * o) := by ring
      have hhalf : 2 ^ (u + 1) * o / 2 = 2 ^ u * o := by omega
      have hsteps : u + 1 + 1 + v = u + 1 + v + 1 := by omega
      rw [hsteps, halved, hhalf]
      split
      · next hle =>
        have hsub : a - 2 ^ (u + 1) * o + o * 2 ^ (u + 1) = a := by
          rw [mul_comm o]
          exact Nat.sub_add_cancel hle
        have hpos : 0 < o := by
          refine Nat.pos_of_ne_zero fun hzero => ?_
          rw [hzero, mul_zero, mul_zero] at h
          exact absurd h (Nat.not_lt_zero _)
        have hdiv : a / o = (a - 2 ^ (u + 1) * o) / o + 2 ^ (u + 1) := by
          rw [← Nat.add_mul_div_left _ _ hpos, hsub]
        have hmod : (a - 2 ^ (u + 1) * o + o * 2 ^ (u + 1)) % o = (a - 2 ^ (u + 1) * o) % o :=
          Nat.add_mul_mod_self_left ..
        rw [hsub] at hmod
        rw [ih (by omega), hdiv, hmod, pow_add _ (u + 1)]
        ring
      · exact ih (by omega)

theorem halved_eq_zero_iff (h : r < o) (v : ℕ) : halved v r (o / 2) = 0 ↔ r < o / 2 ^ v := by
  induction v generalizing o with
  | zero =>
      rw [pow_zero, Nat.div_one]
      exact iff_of_true rfl h
  | succ v ih =>
      rw [halved, pow_succ', ← Nat.div_div_eq_div_mul]
      split
      · next hle =>
        have hpos : 0 < 2 ^ v := by positivity
        have hless := Nat.div_le_self (o / 2) (2 ^ v)
        exact iff_of_false (by omega) (by omega)
      · exact ih (by omega)

theorem halved_of_dvd (h : a < 2 * b) (hdvd : 2 ^ d ∣ b) : halved (d + 1) a b = a * 2 ^ d / b := by
  obtain ⟨o, rfl⟩ := hdvd
  rw [mul_comm a, Nat.mul_div_mul_left _ _ (by positivity)]
  exact (halved_split h 0).trans (by rw [pow_zero, mul_one, halved, Nat.add_zero])

theorem halved_eq_iff (hb : 0 < b) (h : a < 2 * b) (hdvd : 2 ^ d ∣ a * 2 ^ d / b * b) :
    halved (d + 1) a b = a * 2 ^ d / b ↔ a * 2 ^ d % b < b / 2 ^ d * 2 ^ d := by
  obtain ⟨u, v, o, rfl, rfl, hv⟩ : ∃ u v o, b = 2 ^ u * o ∧ d = u + v ∧ (v = 0 ∨ Odd o) := by
    obtain ⟨k, o, hodd, hko⟩ := Nat.exists_eq_two_pow_mul_odd hb.ne'
    obtain hle | hlt := Nat.le_total k d
    · obtain ⟨v, rfl⟩ := Nat.exists_eq_add_of_le hle
      exact ⟨k, v, o, hko, rfl, .inr hodd⟩
    · obtain ⟨j, rfl⟩ := Nat.exists_eq_add_of_le hlt
      exact ⟨d, 0, 2 ^ j * o, by rw [hko, pow_add, mul_assoc], rfl, .inl rfl⟩
  have hquotient : a * 2 ^ (u + v) / (2 ^ u * o) = a * 2 ^ v / o := by
    rw [pow_add, mul_left_comm, Nat.mul_div_mul_left _ _ (by positivity)]
  -- the bits of the quotient behind the odd part are zeros
  have hzeros : 2 ^ v ∣ a * 2 ^ v / o := by
    obtain rfl | hodd := hv
    · exact one_dvd _
    · rw [hquotient, pow_add, mul_left_comm] at hdvd
      have hcoprime : Nat.Coprime (2 ^ v) o := (Nat.coprime_two_left.mpr hodd).pow_left v
      exact hcoprime.dvd_of_dvd_mul_right
        (Nat.dvd_of_mul_dvd_mul_left (by positivity) hdvd)
  have hbits : a * 2 ^ v / o = a / o * 2 ^ v := by
    rw [← Nat.div_mul_cancel hzeros, Nat.div_div_eq_div_mul,
      Nat.mul_div_mul_right _ _ (by positivity)]
  have hpos : 0 < o := Nat.pos_of_mul_pos_left hb
  have hrest : a * 2 ^ (u + v) % (2 ^ u * o) = a % o * 2 ^ (u + v) := by
    have hmod : a * 2 ^ v % o = a % o * 2 ^ v := by
      have hsum := Nat.div_add_mod (a * 2 ^ v) o
      have hsplit := Nat.div_add_mod a o
      rw [hbits] at hsum
      refine Nat.add_left_cancel (n := o * (a / o * 2 ^ v)) (hsum.trans ?_)
      rw [← mul_assoc, ← Nat.add_mul, hsplit]
    rw [pow_add, mul_left_comm, Nat.mul_mod_mul_left, hmod, mul_left_comm]
  have hlast : 2 ^ u * o / 2 ^ (u + v) = o / 2 ^ v := by
    rw [pow_add, Nat.mul_div_mul_left _ _ (by positivity)]
  have hsteps : u + v + 1 = u + 1 + v := by omega
  rw [hsteps, halved_split h, hquotient, hbits, hrest, hlast,
    Nat.mul_lt_mul_right (by positivity), ← halved_eq_zero_iff (Nat.mod_lt a hpos)]
  omega

end DjgppLibc.HalvedDivision
