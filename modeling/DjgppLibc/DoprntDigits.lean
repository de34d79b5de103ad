import DjgppLibc.Doprnt
import DjgppLibc.Doscan

/-!
# Digits, written and read

The digits that `CONVERT` writes for a value are digits of the base in the sense
of the scanner, and Horner's rule gives the value back, also with zeros in front.
-/
namespace DjgppLibc.Doprnt
open Doscan (isDigitOf digitOf)

variable {base fuel n k : ℕ} {upper : Bool} {t : List Char}

def horner (base : ℕ) (n : ℕ) (t : List Char) : ℕ := t.foldl (fun n c => n * base + digitOf c) n

theorem horner_cons (base n : ℕ) (c : Char) (t : List Char) :
    horner base n (c :: t) = horner base (n * base + digitOf c) t := rfl

theorem horner_append (base n : ℕ) (t t' : List Char) :
    horner base n (t ++ t') = horner base (horner base n t) t' := List.foldl_append

theorem horner_zeros (base k : ℕ) : horner base 0 (List.replicate k '0') = 0 := by
  induction k with
  | zero => rfl
  | succ k ih =>
      rw [List.replicate_succ, horner_cons, Nat.zero_mul]
      exact ih

theorem digitOf_bounds {c : Char} (h : isDigitOf base c = true) :
    digitOf c < 16 ∧ (digitOf c = 0 → c = '0') := by
  unfold digitOf
  cases hdigit : Doscan.isdigit c with
  | true =>
      simp only [Doscan.isdigit, Bool.and_eq_true, decide_eq_true_eq] at hdigit
      have hle : 48 ≤ c.toNat := hdigit.1
      have hge : c.toNat ≤ 57 := hdigit.2
      have hzero : '0'.toNat = 48 := rfl
      rw [if_pos rfl, hzero]
      exact ⟨by omega, fun h0 => Char.toNat_inj.mp (by rw [hzero]; omega)⟩
  | false =>
      have hletter : 97 ≤ c.toNat ∧ c.toNat ≤ 102 ∨ 65 ≤ c.toNat ∧ c.toNat ≤ 70 := by
        simp only [isDigitOf, hdigit, Bool.false_and, Bool.false_or, Bool.and_eq_true,
          Bool.or_eq_true, decide_eq_true_eq] at h
        exact h.2
      have ha : 'a'.toNat = 97 := rfl
      have hA : 'A'.toNat = 65 := rfl
      rw [if_neg nofun, ha, hA]
      by_cases hlow : 'a' ≤ c ∧ c ≤ 'f'
      · rw [if_pos hlow]
        have hle : 97 ≤ c.toNat := hlow.1
        have hge : c.toNat ≤ 102 := hlow.2
        omega
      · rw [if_neg hlow]
        have hupper : ¬ (97 ≤ c.toNat ∧ c.toNat ≤ 102) := hlow
        omega

/-- A text of hexadecimal digits is less than the power of 16 that comes next. -/
theorem horner_lt (ht : ∀ c ∈ t, isDigitOf 16 c = true) (n : ℕ) :
    horner 16 n t < (n + 1) * 16 ^ t.length := by
  induction t generalizing n with
  | nil =>
      rw [List.length_nil, Nat.pow_zero, Nat.mul_one]
      exact Nat.lt_succ_self n
  | cons c t ih =>
      have hc := (digitOf_bounds (ht c List.mem_cons_self)).1
      have hrest := ih (fun x hx => ht x (List.mem_cons_of_mem c hx)) (n * 16 + digitOf c)
      have hstep : n * 16 + digitOf c + 1 ≤ (n + 1) * 16 := by omega
      rw [horner_cons, List.length_cons, Nat.pow_succ, Nat.mul_comm (16 ^ t.length),
        ← Nat.mul_assoc]
      exact Nat.lt_of_lt_of_le hrest (Nat.mul_le_mul_right _ hstep)

theorem digit_spec : ∀ upper : Bool, ∀ d < 16,
    digitOf ((digits upper).getD d '0') = d ∧
      isDigitOf 16 ((digits upper).getD d '0') = true ∧
      (d < 10 → isDigitOf 10 ((digits upper).getD d '0') = true) ∧
      (d < 8 → isDigitOf 8 ((digits upper).getD d '0') = true) ∧
      (d ≠ 0 → (digits upper).getD d '0' ≠ '0') := by
  decide

/-- The bases of the conversions. -/
def IsBase (base : ℕ) : Prop := base = 8 ∨ base = 10 ∨ base = 16

theorem IsBase.two_le (h : IsBase base) : 2 ≤ base := by
  unfold IsBase at h
  omega

theorem IsBase.mod_lt (h : IsBase base) (n : ℕ) : n % base < 16 := by
  have hlt : n % base < base := Nat.mod_lt n (by have := h.two_le; omega)
  unfold IsBase at h
  omega

theorem isDigitOf_digit (h : IsBase base) (upper : Bool) (n : ℕ) :
    isDigitOf base ((digits upper).getD (n % base) '0') = true := by
  obtain ⟨-, h₁₆, h₁₀, h₈, -⟩ := digit_spec upper (n % base) (h.mod_lt n)
  have hlt : n % base < base := Nat.mod_lt n (by have := h.two_le; omega)
  rcases h with rfl | rfl | rfl
  · exact h₈ hlt
  · exact h₁₀ hlt
  · exact h₁₆

theorem IsBase.div_lt (h : IsBase base) (hn : n < base ^ (k + 1)) : n / base < base ^ k := by
  rw [Nat.div_lt_iff_lt_mul (by have := h.two_le; omega), ← Nat.pow_succ]
  exact hn

theorem mod_eq_of_div (h0 : n / base = 0) : n % base = n := by
  have hsplit := Nat.div_add_mod n base
  rw [h0, Nat.mul_zero] at hsplit
  omega

theorem convert_value (upper : Bool) (h : IsBase base) (hn : n < base ^ fuel) (t : List Char) :
    horner base 0 (convert base upper fuel n t) = horner base n t := by
  induction fuel generalizing n t with
  | zero =>
      obtain rfl : n = 0 := by simpa using hn
      rfl
  | succ fuel ih =>
      have hdigit := (digit_spec upper (n % base) (h.mod_lt n)).1
      unfold convert
      dsimp only
      split_ifs with h0
      · rw [horner_cons, hdigit, Nat.zero_mul, Nat.zero_add, mod_eq_of_div h0]
      · rw [ih (h.div_lt hn), horner_cons, hdigit, Nat.div_add_mod']

theorem convert_digits (upper : Bool) (fuel n : ℕ) (h : IsBase base)
    (ht : ∀ c ∈ t, isDigitOf base c = true) :
    ∀ c ∈ convert base upper fuel n t, isDigitOf base c = true := by
  induction fuel generalizing n t with
  | zero => exact ht
  | succ fuel ih =>
      have ht' : ∀ c ∈ (digits upper).getD (n % base) '0' :: t, isDigitOf base c = true := by
        intro c hc
        rcases List.mem_cons.mp hc with rfl | hc
        · exact isDigitOf_digit h upper n
        · exact ht c hc
      unfold convert
      dsimp only
      split_ifs
      · exact ht'
      · exact ih _ ht'

theorem convert_length (upper : Bool) (fuel : ℕ) (h : IsBase base) (hk : 0 < k) (hn : n < base ^ k)
    (t : List Char) :
    (convert base upper fuel n t).length ≤ t.length + k := by
  induction fuel generalizing n t k with
  | zero => exact Nat.le_add_right _ _
  | succ fuel ih =>
      obtain ⟨k, rfl⟩ := Nat.exists_eq_succ_of_ne_zero (Nat.ne_of_gt hk)
      have hdiv : n / base < base ^ k := h.div_lt hn
      unfold convert
      dsimp only
      split_ifs with h0
      · rw [List.length_cons]
        omega
      · have hk' : 0 < k := by
          rcases Nat.eq_zero_or_pos k with rfl | hk'
          · exact absurd (Nat.lt_one_iff.mp hdiv) h0
          · exact hk'
        have hrest := ih hk' hdiv ((digits upper).getD (n % base) '0' :: t)
        rw [List.length_cons] at hrest
        omega

/-- The first digit is zero for the value zero only. -/
theorem convert_head (upper : Bool) (h : IsBase base) (hn : n < base ^ fuel) (hn0 : n ≠ 0)
    (t : List Char) :
    ∃ c r, convert base upper fuel n t = c :: r ∧ c ≠ '0' := by
  induction fuel generalizing n t with
  | zero =>
      rw [Nat.pow_zero] at hn
      omega
  | succ fuel ih =>
      unfold convert
      dsimp only
      split_ifs with h0
      · refine ⟨_, _, rfl, (digit_spec upper (n % base) (h.mod_lt n)).2.2.2.2 ?_⟩
        rw [mod_eq_of_div h0]
        exact hn0
      · exact ih (h.div_lt hn) h0 _

theorem convert_zero (base : ℕ) (upper : Bool) (fuel : ℕ) :
    convert base upper (fuel + 1) 0 [] = ['0'] := by
  unfold convert
  dsimp only
  rw [Nat.zero_div, if_pos rfl, Nat.zero_mod]
  cases upper <;> rfl

end DjgppLibc.Doprnt
