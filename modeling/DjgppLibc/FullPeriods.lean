import Mathlib.Algebra.BigOperators.Ring.Finset
import Mathlib.Data.Fintype.EquivFin
import Mathlib.Data.Nat.Prime.Basic
import Mathlib.Data.Int.ModEq
import Mathlib.Dynamics.PeriodicPts.Defs
import Mathlib.Tactic.Ring

/-!
# Congruential steps with a full period

`x ↦ (a x + c) mod 2 ^ k` comes back to where it was exactly after multiples of `2 ^ k` steps, if
`a` leaves the remainder 1 for 4 and `c` is odd. What the steps add is a multiple of the sum of
the powers of `a`, and this sum has as many factors 2 as the number of steps.
-/
namespace DjgppLibc.FullPeriods

open Finset Function

variable {a c : ℕ}

theorem iterate_affine (a c m x n : ℕ) (hx : x < m) :
    (fun x => (a * x + c) % m)^[n] x = (a ^ n * x + c * ∑ i ∈ range n, a ^ i) % m := by
  induction n with
  | zero => rw [iterate_zero_apply, pow_zero, one_mul, sum_range_zero, mul_zero, add_zero,
      Nat.mod_eq_of_lt hx]
  | succ n ih =>
      rw [iterate_succ_apply', ih, sum_range_succ', Nat.add_mod, Nat.mul_mod_mod, ← Nat.add_mod]
      congr 1
      simp only [pow_succ', ← mul_sum]
      ring

theorem sum_pow_mod_two (ha : a % 2 = 1) (n : ℕ) : (∑ i ∈ range n, a ^ i) % 2 = n % 2 := by
  induction n with
  | zero => rfl
  | succ n ih => rw [sum_range_succ, Nat.add_mod, ih, Nat.pow_mod, ha, one_pow, ← Nat.add_mod]

theorem sum_pow_double (a m : ℕ) :
    ∑ i ∈ range (2 * m), a ^ i = (∑ i ∈ range m, a ^ i) * (1 + a ^ m) := by
  rw [two_mul, sum_range_add]
  simp only [pow_add, ← mul_sum]
  ring

theorem coprime_two_pow {m : ℕ} (h : m % 2 = 1) (k : ℕ) : Nat.Coprime (2 ^ k) m :=
  Nat.Coprime.pow_left k ((Nat.prime_two.coprime_iff_not_dvd).mpr (by omega))

theorem two_pow_dvd_sum_iff (ha : a % 4 = 1) (k n : ℕ) :
    2 ^ k ∣ ∑ i ∈ range n, a ^ i ↔ 2 ^ k ∣ n := by
  induction k generalizing n with
  | zero => exact iff_of_true (one_dvd _) (one_dvd _)
  | succ k ih =>
      have hparity := sum_pow_mod_two (show a % 2 = 1 by omega) n
      obtain ⟨m, rfl | rfl⟩ := Nat.even_or_odd' n
      · have hfour : a ^ m % 4 = 1 := by rw [Nat.pow_mod, ha, one_pow]; rfl
        obtain ⟨q, hq⟩ : ∃ q, 1 + a ^ m = 2 * (2 * q + 1) := ⟨a ^ m / 4, by omega⟩
        have hodd : Nat.Coprime (2 ^ k) (2 * q + 1) :=
          coprime_two_pow (by omega) k
        rw [sum_pow_double, hq, pow_succ', mul_left_comm, Nat.mul_dvd_mul_iff_left two_pos,
          Nat.mul_dvd_mul_iff_left two_pos, Nat.Coprime.dvd_mul_right hodd, ih]
      · refine iff_of_false (fun h => ?_) (fun h => ?_)
        · have := (dvd_pow_self 2 k.succ_ne_zero).trans h
          omega
        · have := (dvd_pow_self 2 k.succ_ne_zero).trans h
          omega

theorem iterate_eq_self_iff {k x : ℕ} (ha : a % 4 = 1) (hc : c % 2 = 1) (hx : x < 2 ^ k) (n : ℕ) :
    (fun x => (a * x + c) % 2 ^ k)^[n] x = x ↔ 2 ^ k ∣ n := by
  obtain ⟨b, rfl⟩ : ∃ b, a = 1 + 4 * b := ⟨a / 4, by omega⟩
  have hgeom : (1 + 4 * b) ^ n = 1 + 4 * b * ∑ i ∈ range n, (1 + 4 * b) ^ i := by
    induction n with
    | zero => rfl
    | succ n ih =>
        rw [sum_range_succ, mul_add, ← add_assoc, ← ih]
        ring
  have hodd : Nat.Coprime (2 ^ k) (4 * b * x + c) :=
    coprime_two_pow (by rw [mul_assoc]; omega) k
  have hsum : (1 + 4 * b) ^ n * x + c * ∑ i ∈ range n, (1 + 4 * b) ^ i =
      x + (∑ i ∈ range n, (1 + 4 * b) ^ i) * (4 * b * x + c) := by
    nth_rewrite 1 [hgeom]
    ring
  rw [iterate_affine _ _ _ _ _ hx, hsum, ← two_pow_dvd_sum_iff ha k n,
    ← Nat.Coprime.dvd_mul_right hodd]
  constructor
  · intro h
    exact Nat.modEq_zero_iff_dvd.mp
      (Nat.ModEq.add_left_cancel' x (h.trans (Nat.mod_eq_of_lt hx).symm))
  · rintro ⟨q, hq⟩
    rw [hq, Nat.add_mul_mod_self_left, Nat.mod_eq_of_lt hx]

theorem exists_iterate {α : Type*} {f : α → α} {v : α → ℕ} {N : ℕ} (hv : Injective v)
    (hlt : ∀ x, v x < N) (hperiod : ∀ n x, f^[n] x = x ↔ N ∣ n) (x y : α) :
    ∃ n < N, f^[n] x = y := by
  have hinj : Injective fun n : Fin N => (⟨v (f^[n] x), hlt _⟩ : Fin N) := by
    intro m n h
    wlog hle : m ≤ n generalizing m n
    · exact (this h.symm (le_of_not_ge hle)).symm
    have hback : f^[n - m] (f^[m] x) = f^[m] x := by
      rw [← iterate_add_apply, Nat.sub_add_cancel hle]
      exact (hv (Fin.mk.inj h)).symm
    have hdvd := (hperiod _ _).mp hback
    have hzero := Nat.eq_zero_of_dvd_of_lt hdvd (Nat.sub_lt_of_lt n.isLt)
    omega
  obtain ⟨n, hn⟩ := Finite.injective_iff_surjective.mp hinj ⟨v y, hlt y⟩
  exact ⟨n, n.isLt, hv (Fin.mk.inj hn)⟩

end DjgppLibc.FullPeriods
