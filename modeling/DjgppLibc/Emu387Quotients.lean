import Mathlib.Data.Nat.Factorization.Basic
import DjgppLibc.Emu387Products

/-!
# How exact quotients are in the 387 emulator

`r_div` halves the divisor where a division by hand doubles the remainder, so the last bits of
the divisor fall off. They are all zeros only until the odd part of the divisor is left. From
there on every bit of the quotient may be wrong, unless nothing remains to be divided.
-/
namespace DjgppLibc.Emu387

open X86

attribute [grind =] divLoop

variable {a b q : Reg} {al bl ql f : BitVec 64} {n k m o : ℕ}

theorem toNat_half (x : BitVec 64) : (x >>> 1).toNat = x.toNat / 2 := by
  rw [BitVec.toNat_ushiftRight, Nat.shiftRight_eq_div_pow, pow_one]

theorem halved_ge (h : 2 ^ (n + 1) ≤ 2 * bl.toNat + 1) : 2 ^ n ≤ 2 * (bl >>> 1).toNat + 1 := by
  rw [pow_succ'] at h
  rw [toNat_half]
  omega

theorem divLoop_zero (hbl : 2 ^ n ≤ 2 * bl.toNat + 1) : divLoop n 0 bl ql f = ql := by
  induction n generalizing bl f with
  | zero => rfl
  | succ n ih =>
      have hless : ¬ (0 : BitVec 64) ≥ bl := by
        have hpos : 0 < 2 ^ n := by positivity
        have hzero : (0 : BitVec 64).toNat = 0 := rfl
        rw [pow_succ'] at hbl
        rw [ge_iff_le, BitVec.le_def]
        omega
      rw [divLoop, if_neg hless]
      exact ih (halved_ge hbl)

/-- The state of the loop while the divisor has been halved without a loss: it is `2 ^ k` times
its odd part, and the bit of the quotient is `2 ^ m`. -/
structure Halving (o k m : ℕ) (al bl ql f : BitVec 64) : Prop where
  divisor : bl.toNat = 2 ^ k * o
  bit : f.toNat = 2 ^ m
  rest : al.toNat < 2 * bl.toNat
  dvd : o ∣ al.toNat
  room : ql.toNat + 2 ^ (m + 1) ≤ 2 ^ 64

theorem Halving.toNat_add (h : Halving o k m al bl ql f) : (ql + f).toNat = ql.toNat + 2 ^ m := by
  have hroom := h.room
  have hpos : 0 < 2 ^ m := by positivity
  rw [pow_succ'] at hroom
  rw [BitVec.toNat_add, h.bit, Nat.mod_eq_of_lt (by omega)]

/-- The divisor is subtracted. -/
theorem Halving.subtract (h : Halving o (k + 1) (m + 1) al bl ql f) (hle : bl ≤ al) :
    Halving o k m (al - bl) (bl >>> 1) (ql + f) (f >>> 1) := by
  have hsub : (al - bl).toNat = al.toNat - bl.toNat := BitVec.toNat_sub_of_le hle
  have hdivisor := h.divisor
  have hrest := h.rest
  have hroom := h.room
  have hbit := h.bit
  rw [pow_succ', mul_assoc] at hdivisor
  rw [pow_succ'] at hroom hbit
  refine ⟨?_, ?_, ?_, ?_, ?_⟩
  · rw [toNat_half]
    omega
  · rw [toNat_half]
    omega
  · rw [hsub, toNat_half]
    omega
  · rw [hsub, h.divisor]
    exact Nat.dvd_sub h.dvd (Nat.dvd_mul_left o _)
  · rw [h.toNat_add]
    omega

theorem Halving.skip (h : Halving o (k + 1) (m + 1) al bl ql f) (hlt : ¬ bl ≤ al) :
    Halving o k m al (bl >>> 1) ql (f >>> 1) := by
  have hdivisor := h.divisor
  have hroom := h.room
  have hbit := h.bit
  rw [BitVec.le_def] at hlt
  rw [pow_succ', mul_assoc] at hdivisor
  rw [pow_succ'] at hroom hbit
  refine ⟨?_, ?_, ?_, h.dvd, ?_⟩
  · rw [toNat_half]
    omega
  · rw [toNat_half]
    omega
  · rw [toNat_half]
    omega
  · omega

theorem divLoop_exact (h : Halving o k m al bl ql f) (hn : 2 ^ n ≤ 2 * bl.toNat + 1) (hk : k < n)
    (hm : k ≤ m) : (divLoop n al bl ql f).toNat * (2 ^ k * o) =
      ql.toNat * (2 ^ k * o) + al.toNat * 2 ^ m := by
  obtain ⟨n, rfl⟩ := Nat.exists_eq_add_of_lt hk
  induction k generalizing m al bl ql f with
  | zero =>
      rw [Nat.zero_add] at hn ⊢
      have hdivisor := h.divisor
      obtain ⟨c, hc⟩ := h.dvd
      have hrest := h.rest
      rw [pow_zero, one_mul] at hdivisor ⊢
      have hc2 : c < 2 := by
        rw [hc, hdivisor, mul_comm 2] at hrest
        exact Nat.lt_of_mul_lt_mul_left hrest
      interval_cases c
      · have hzero : al = 0 := BitVec.eq_of_toNat_eq (by rw [hc]; rfl)
        rw [hzero, divLoop_zero hn]
        simp
      · have heq : al = bl := BitVec.eq_of_toNat_eq (by rw [hc, hdivisor, mul_one])
        have hrest0 : bl - bl = 0 := BitVec.sub_self bl
        rw [heq, divLoop, if_pos (BitVec.le_refl bl), hrest0, divLoop_zero (halved_ge hn),
          h.toNat_add, hdivisor]
        ring
  | succ k ih =>
      obtain ⟨m, rfl⟩ : ∃ m', m = m' + 1 := ⟨m - 1, by omega⟩
      have hdivisor := h.divisor
      have hsteps : k + 1 + n + 1 = (k + n + 1) + 1 := by omega
      rw [hsteps] at hn ⊢
      rw [divLoop, pow_succ', mul_assoc]
      split
      · next hle =>
        have hrest := ih (h.subtract hle) (by omega) (halved_ge hn) (by omega)
        have hsub : (al - bl).toNat + 2 ^ (k + 1) * o = al.toNat := by
          rw [BitVec.toNat_sub_of_le hle, ← hdivisor, Nat.sub_add_cancel hle]
        rw [h.toNat_add] at hrest
        rw [← hsub]
        linear_combination 2 * hrest
      · next hlt =>
        have hrest := ih (h.skip hlt) (by omega) (halved_ge hn) (by omega)
        linear_combination 2 * hrest

/-- The quotient is in the range of the exponents. -/
def QuotientInRange (a b : Reg) : Prop :=
  2 ^ 63 * b.magnitude ≤ a.magnitude * 2 ^ 16446 ∧
    a.magnitude * 2 ^ 16446 < 2 ^ (64 + EXP_MAX) * b.magnitude

def QuotientEnds (a b : Reg) : Prop := b.sig.toNat ∣ a.sig.toNat * 2 ^ 63

/-- What `r_div` hands to `normalize`, if the exponent is in range. -/
def quotientReg (a b : Reg) : Reg :=
  Reg.setSig ⟨a.sign != b.sign, .valid, BitVec.ofInt 16 (quotientExp a b), 0, 0⟩
    (divLoop 64 a.sig b.sig 0 (1 <<< 63))

/-- A quotient that ends is found exactly. -/
theorem quotientReg_exact (hb : b.Normal) (h : QuotientEnds a b) :
    (quotientReg a b).sig.toNat * b.sig.toNat = a.sig.toNat * 2 ^ 63 := by
  have hlo := hb.two_pow_le
  have hhi := b.sig.isLt
  have halt := a.sig.isLt
  obtain ⟨k, o, hodd, hko⟩ := Nat.exists_eq_two_pow_mul_odd (n := b.sig.toNat) (by omega)
  have hdvd : o ∣ a.sig.toNat := by
    have hcoprime : Nat.Coprime o (2 ^ 63) := (Nat.coprime_two_right.mpr hodd).pow_right 63
    exact hcoprime.dvd_of_dvd_mul_right ((Dvd.intro_left (2 ^ k) hko.symm).trans h)
  have hk : k < 64 := by
    have hle : 2 ^ k ≤ b.sig.toNat := by
      rw [hko]
      exact Nat.le_mul_of_pos_right _ hodd.pos
    exact (Nat.pow_lt_pow_iff_right (by decide)).mp (hle.trans_lt hhi)
  have hstart : Halving o k 63 a.sig b.sig 0 (1 <<< 63) :=
    ⟨hko, rfl, by omega, hdvd, le_rfl⟩
  have hexact := divLoop_exact (n := 64) hstart (by omega) hk (by omega)
  rw [quotientReg, sig_setSig, hko, hexact]
  simp

/-- The exponent of a quotient in range is a `short`. -/
theorem quotientExp_range (ha : a.Normal) (hb : b.Normal) (h : QuotientInRange a b) :
    (BitVec.ofInt 16 (quotientExp a b)).toInt = quotientExp a b ∧
      quotientExp a b = (a.exp.toNat : ℤ) - b.exp.toNat + 16383 := by
  have hexp : quotientExp a b = (a.exp.toNat : ℤ) - b.exp.toNat + 16383 := by
    rw [quotientExp, ha.toInt_exp, hb.toInt_exp, EXP_BIAS, Nat.cast_ofNat]
  refine ⟨?_, hexp⟩
  have hbmax := hb.exp
  have hpow : 2 ^ 63 * 2 ^ a.exp.toNat * 2 ^ 16446 <
      2 ^ (64 + EXP_MAX) * (2 ^ 64 * 2 ^ b.exp.toNat) :=
    calc 2 ^ 63 * 2 ^ a.exp.toNat * 2 ^ 16446 ≤ a.magnitude * 2 ^ 16446 :=
          Nat.mul_le_mul_right _ (Nat.mul_le_mul_right _ ha.two_pow_le)
      _ < 2 ^ (64 + EXP_MAX) * b.magnitude := h.2
      _ ≤ _ := Nat.mul_le_mul_left _ (Nat.mul_le_mul_right _ b.sig.isLt.le)
  rw [← pow_add, ← pow_add, ← pow_add, ← pow_add] at hpow
  have hlt := (Nat.pow_lt_pow_iff_right (by decide)).mp hpow
  unfold EXP_MAX at hbmax hlt
  rw [hexp]
  exact BitVec.toInt_ofInt_eq_self (by decide) (by omega) (by omega)

theorem normalizeShort_zero (s : Bool) :
    normalizeShort { CONST_Z with sign := s } = { CONST_Z with sign := s } := by
  cases s <;> decide

theorem normalizeShort_inf (s : Bool) :
    normalizeShort { CONST_PINF with sign := s } = { CONST_PINF with sign := s } := by
  cases s <;> decide

theorem rDiv_outside (ha : a.Normal) (hb : b.Normal) (h : QuotientInRange a b)
    (hout : ¬ (0 < quotientExp a b ∧ quotientExp a b ≤ EXP_MAX)) :
    rDiv q a b = .plain { CONST_Z with sign := a.sign != b.sign } ∨
      rDiv q a b = .plain { CONST_PINF with sign := a.sign != b.sign } := by
  obtain ⟨hshort, -⟩ := quotientExp_range ha hb h
  by_cases hhi : quotientExp a b > EXP_MAX
  · right
    simp only [rDiv, ha.valid, hb.valid, reduceCtorEq, if_false, hshort, hhi, if_true]
    exact congrArg (Outcome.mk none) (normalizeShort_inf _)
  · left
    have hlo : quotientExp a b ≤ 0 := by omega
    simp only [rDiv, ha.valid, hb.valid, reduceCtorEq, if_false, hshort, hhi, hlo, if_true]
    exact congrArg (Outcome.mk none) (normalizeShort_zero _)

theorem rDiv_finite (ha : a.Normal) (hb : b.Normal) (h : QuotientInRange a b)
    (hends : QuotientEnds a b) (hlo : 0 < quotientExp a b) (hhi : quotientExp a b ≤ EXP_MAX) :
    (rDiv q a b).reg = (quotientReg a b).shiftTop ∧
      ((quotientReg a b).exp.toNat : ℤ) = quotientExp a b := by
  obtain ⟨hshort, -⟩ := quotientExp_range ha hb h
  have hexp : (quotientReg a b).exp = BitVec.ofInt 16 (quotientExp a b) := rfl
  have hint : (quotientReg a b).exp.toInt = quotientExp a b := by rw [hexp, hshort]
  have hne : (quotientReg a b).sig ≠ 0 := by
    intro hzero
    have hexact := quotientReg_exact hb hends
    have hpos := ha.two_pow_le
    rw [hzero] at hexact
    have hnone : (0 : BitVec 64).toNat = 0 := rfl
    rw [hnone] at hexact
    omega
  constructor
  · simp only [rDiv, ha.valid, hb.valid, reduceCtorEq, if_false, hshort, hhi.not_gt, hlo.not_ge]
    change normalizeShort (quotientReg a b) = _
    rw [normalizeShort, if_neg hne, if_neg (by rw [hint]; exact hhi.not_gt)]
  · rw [BitVec.toInt_eq_toNat_cond] at hint
    split_ifs at hint <;> omega

theorem quotientReg_magnitude (ha : a.Normal) (hb : b.Normal) (h : QuotientInRange a b)
    (hends : QuotientEnds a b) (hexp : ((quotientReg a b).exp.toNat : ℤ) = quotientExp a b) :
    (quotientReg a b).magnitude * b.magnitude = a.magnitude * 2 ^ 16446 := by
  have hsum : (quotientReg a b).exp.toNat + b.exp.toNat = a.exp.toNat + 16383 := by
    have := (quotientExp_range ha hb h).2
    omega
  have hpow : 2 ^ 63 * 2 ^ (a.exp.toNat + 16383) = 2 ^ a.exp.toNat * 2 ^ 16446 := by
    rw [← pow_add, ← pow_add, add_comm 63, add_assoc]
  calc (quotientReg a b).magnitude * b.magnitude
      = (quotientReg a b).sig.toNat * b.sig.toNat *
          2 ^ ((quotientReg a b).exp.toNat + b.exp.toNat) := by
        rw [Reg.magnitude, Reg.magnitude, pow_add]
        ring
    _ = a.sig.toNat * (2 ^ 63 * 2 ^ (a.exp.toNat + 16383)) := by
        rw [quotientReg_exact hb hends, hsum, mul_assoc]
    _ = a.magnitude * 2 ^ 16446 := by
        rw [hpow, ← mul_assoc, Reg.magnitude]

theorem signed_div (s t : Bool) (p q : ℚ) : signed s p / signed t q = signed (s != t) (p / q) := by
  cases s <;> cases t
  · rfl
  · exact div_neg p
  · exact neg_div q p
  · exact neg_div_neg_eq p q

theorem number_div (a b : Reg) :
    a.number / b.number = signed (a.sign != b.sign) (a.magnitude / b.magnitude) := by
  rw [Reg.number, Reg.number, signed_div, div_div_div_cancel_right₀ (by positivity)]

theorem rDiv_value (ha : a.Normal) (hb : b.Normal) (h : QuotientInRange a b)
    (hends : QuotientEnds a b) (hlo : 0 < quotientExp a b) (hhi : quotientExp a b ≤ EXP_MAX) :
    (rDiv q a b).reg.value = .fin (a.number / b.number) := by
  obtain ⟨hreg, hexp⟩ := rDiv_finite (q := q) ha hb h hends hlo hhi
  have hmagnitude := quotientReg_magnitude ha hb h hends hexp
  have hne : (quotientReg a b).exp ≠ 32767 := by
    rw [Ne, toNat_exp_eq_max]
    unfold EXP_MAX at hhi
    omega
  have hsign : (quotientReg a b).sign = (a.sign != b.sign) := rfl
  have hquotient : ((quotientReg a b).magnitude : ℚ) / 2 ^ 16446 = a.magnitude / b.magnitude := by
    have hunit : (2 : ℚ) ^ 16446 = (2 ^ 16446 : ℕ) := by rw [Nat.cast_pow, Nat.cast_ofNat]
    have hb0 : (b.magnitude : ℚ) ≠ 0 := by
      rw [Nat.cast_ne_zero, Ne, magnitude_eq_zero]
      exact hb.sig_ne
    have hpos : (2 : ℚ) ^ 16446 ≠ 0 := by positivity
    generalize (2 : ℚ) ^ 16446 = unit at hunit hpos ⊢
    generalize 2 ^ 16446 = units at hunit hmagnitude
    rw [div_eq_div_iff hpos hb0, hunit]
    exact_mod_cast hmagnitude
  rw [hreg, value_shiftTop (by omega) (fun he => absurd he hne),
    value_finite (fun he => absurd he hne), number_div, hsign, hquotient]

theorem unit_le_quotient (hb : b.Normal) (h : QuotientInRange a b) :
    (2 : ℚ) ^ 0 / 2 ^ 16446 ≤ a.magnitude / b.magnitude := by
  have hunit : (2 : ℚ) ^ 16446 = (2 ^ 16446 : ℕ) := by rw [Nat.cast_pow, Nat.cast_ofNat]
  have hpos : (0 : ℚ) < 2 ^ 16446 := by positivity
  have hb0 : 0 < b.magnitude := by
    rw [Nat.pos_iff_ne_zero, Ne, magnitude_eq_zero]
    exact hb.sig_ne
  have hlow := h.1
  generalize (2 : ℚ) ^ 16446 = unit at hunit hpos ⊢
  generalize 2 ^ 16446 = units at hunit hlow
  have hle : b.magnitude ≤ a.magnitude * units := by omega
  rw [pow_zero, div_le_div_iff₀ hpos (by exact_mod_cast hb0), one_mul, hunit]
  exact_mod_cast hle

/-- Among the quotients that end, `r_div` is right exactly on those whose exponent is in range
before the significand is shifted. -/
theorem rDiv_within_iff (q : Reg) (ha : a.Normal) (hb : b.Normal) (h : QuotientInRange a b)
    (hends : QuotientEnds a b) :
    (∃ x, (rDiv q a b).reg.value = .fin x ∧
        |x - a.number / b.number| < (rDiv q a b).reg.ulp) ↔
      0 < quotientExp a b ∧ quotientExp a b ≤ EXP_MAX := by
  constructor
  · rintro ⟨x, hx, hlt⟩
    by_contra hout
    obtain hzero | hinf := rDiv_outside (q := q) ha hb h hout
    · -- The exact quotient is at least 2 ^ 63 units.
      have hvalue (s : Bool) : ({ CONST_Z with sign := s } : Reg).value = .fin 0 :=
        if_pos (sig_zero s)
      rw [hzero] at hx hlt
      rw [← Value.fin.inj ((hvalue _).symm.trans hx), zero_sub, abs_neg, number_div, abs_signed,
        abs_of_nonneg (by positivity)] at hlt
      exact absurd hlt (not_lt.mpr (unit_le_quotient hb h))
    · have hvalue (s : Bool) : ({ CONST_PINF with sign := s } : Reg).value = .inf s := by
        cases s <;> decide
      rw [hinf] at hx
      exact Value.noConfusion ((hvalue _).symm.trans hx)
  · rintro ⟨hlo, hhi⟩
    refine ⟨_, rDiv_value ha hb h hends hlo hhi, ?_⟩
    rw [sub_self, abs_zero, Reg.ulp]
    positivity

theorem number_one : CONST_1.number = 1 := by
  have hmagnitude : (CONST_1.magnitude : ℚ) = 2 ^ 16446 := by
    rw [magnitude_one, Nat.cast_pow, Nat.cast_ofNat]
  rw [Reg.number, hmagnitude, div_self (by positivity)]
  rfl

def five : Reg := ⟨false, .valid, 16385, 0, 0xA0000000⟩

theorem number_five : five.number = 5 := by
  have hsig : five.sig.toNat = 5 * 2 ^ 61 := by decide
  have hexp : five.exp.toNat = 16385 := by decide
  have hmagnitude : (five.magnitude : ℚ) = 5 * 2 ^ 16446 := by
    rw [Reg.magnitude, hsig, hexp, mul_assoc, ← pow_add, Nat.cast_mul, Nat.cast_pow,
      Nat.cast_ofNat, Nat.cast_ofNat]
  rw [Reg.number, hmagnitude, mul_div_cancel_right₀ _ (by positivity)]
  rfl

/-- What the emulator has for 1 divided by 5. -/
def fifth : Reg := ⟨false, .valid, 16380, 0xccccccce, 0xcccccccc⟩

theorem fifth_normal : fifth.Normal := ⟨rfl, by decide, by decide⟩

theorem units_fifth : (2 : ℚ) ^ 16446 = 2 ^ 66 * 2 ^ 16380 := by rw [← pow_add]

theorem number_fifth : fifth.number = 0xccccccccccccccce / 2 ^ 66 := by
  have hsig : fifth.sig.toNat = 0xccccccccccccccce := by decide
  have hexp : fifth.exp.toNat = 16380 := by decide
  have hmagnitude : (fifth.magnitude : ℚ) = 0xccccccccccccccce * 2 ^ 16380 := by
    rw [Reg.magnitude, hsig, hexp, Nat.cast_mul, Nat.cast_pow, Nat.cast_ofNat, Nat.cast_ofNat]
  rw [Reg.number, hmagnitude, units_fifth, mul_div_mul_right _ _ (by positivity)]
  rfl

theorem ulp_fifth : fifth.ulp = 1 / 2 ^ 66 := by
  have hexp : fifth.exp.toNat = 16380 := by decide
  rw [Reg.ulp, hexp, units_fifth, div_mul_cancel_right₀ (by positivity), one_div]

/-- 1 divided by 5 is six fifths of a unit off. -/
theorem rDiv_one_five : ¬ ∃ x, (rDiv CONST_Z CONST_1 five).reg.value = .fin x ∧
    |x - CONST_1.number / five.number| < (rDiv CONST_Z CONST_1 five).reg.ulp := by
  have hreg : (rDiv CONST_Z CONST_1 five).reg = fifth := by decide
  rintro ⟨x, hx, hlt⟩
  rw [hreg] at hx hlt
  rw [← Value.fin.inj (fifth_normal.value.symm.trans hx), number_fifth, number_one, number_five,
    ulp_fifth] at hlt
  norm_num at hlt

theorem rDiv_within_iff_one :
    (∃ x, (rDiv CONST_Z CONST_1 CONST_1).reg.value = .fin x ∧
        |x - CONST_1.number / CONST_1.number| < (rDiv CONST_Z CONST_1 CONST_1).reg.ulp) ↔
      0 < quotientExp CONST_1 CONST_1 ∧ quotientExp CONST_1 CONST_1 ≤ EXP_MAX := by
  have hlow := one_normal.two_pow_le_magnitude
  have hrange : QuotientInRange CONST_1 CONST_1 := by
    rw [QuotientInRange, ← magnitude_one]
    exact ⟨Nat.mul_le_mul_right _ hlow,
      Nat.mul_lt_mul_of_pos_right one_normal.magnitude_lt (Nat.two_pow_pos 63 |>.trans_le hlow)⟩
  exact rDiv_within_iff CONST_Z one_normal one_normal hrange (Dvd.intro _ rfl)

end DjgppLibc.Emu387
