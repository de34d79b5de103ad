import DjgppLibc.Emu387Fprem

/-!
# Remainders in the 387 emulator

The subtraction of `fprem` is exact, but the divisor loses bits where it is halved, the product
loses what does not fit a significand, and a quotient from 2 ^ 63 on changes its sign. The condition
bits are those of the quotient with its sign. `fprem_exact_iff` says for which numbers the remainder
and the bits are right.
-/
namespace DjgppLibc.Emu387

open X86 IntegerRounding HalvedDivision

/-- The remainder of the quotient that is truncated, and three bits of the quotient. -/
structure Remainder (x y : Reg) (k : ℤ) (f : Fpu) : Prop where
  value : (f.st 0).value = .fin (x.number - k * y.number)
  less : |x.number - k * y.number| < |y.number|
  sign : (f.st 0).sign = x.sign
  c0 : f.statusWord &&& SW_C0 ≠ 0 ↔ k.natAbs.testBit 2 = true
  c3 : f.statusWord &&& SW_C3 ≠ 0 ↔ k.natAbs.testBit 1 = true
  c1 : f.statusWord &&& SW_C1 ≠ 0 ↔ k.natAbs.testBit 0 = true

/-- The integer part of the quotient of the magnitudes, where that is not less than one. -/
def wholeQuotient (x y : Reg) : ℕ := x.sig.toNat * 2 ^ expGap x y / y.sig.toNat

structure QuotientFits (x y : Reg) : Prop where
  range : wholeQuotient x y < 2 ^ 63 ∨ x.sign ≠ y.sign ∧ wholeQuotient x y = 2 ^ 63
  product : 2 ^ (expGap x y + topBit x y) ∣ wholeQuotient x y * y.sig.toNat
  rest : x.sig.toNat * 2 ^ expGap x y % y.sig.toNat <
    y.sig.toNat / 2 ^ expGap x y * 2 ^ expGap x y
  bits : x.sign = y.sign ∨ 4 ∣ wholeQuotient x y
  exp : x.exp.toNat + topBit x y ≤ EXP_MAX

section Arithmetic

variable {X Y d L q cut : ℕ}

/-- Where the difference is the remainder and the lower bits are those of the quotient or of its
negative, the quotient is right. -/
theorem halved_of_remainder (hX : X < 2 ^ 64) (hY : 2 ^ 63 ≤ Y) (hL : L ≤ 64) (hd : d ≤ L)
    (hcut : 2 ^ d ∣ cut) (hq : halved (d + 1) X Y = q)
    (hrest : Y * q / 2 ^ L * 2 ^ L ≤ X * 2 ^ d ∧
        X * 2 ^ d - Y * q / 2 ^ L * 2 ^ L = X * 2 ^ d % Y ∨
      X * 2 ^ d < Y * q / 2 ^ L * 2 ^ L ∧
        Y * q / 2 ^ L * 2 ^ L - X * 2 ^ d + cut = X * 2 ^ d % Y)
    (hbits : q % 8 = X * 2 ^ d / Y % 8 ∨ 8 ∣ q + X * 2 ^ d / Y) :
    q = X * 2 ^ d / Y ∧ 2 ^ L ∣ X * 2 ^ d / Y * Y := by
  have hpow : 2 ^ L ≤ 2 ^ 64 := Nat.pow_le_pow_right (by decide) hL
  have hlost := Nat.lt_div_mul_add (a := Y * q) (b := 2 ^ L) (by positivity)
  have hle := Nat.div_mul_le_self (Y * q) (2 ^ L)
  have hdvd : 2 ^ d ∣ Y * q / 2 ^ L * 2 ^ L := (Nat.pow_dvd_pow 2 hd).mul_left _
  have hprod : 2 ^ L ∣ Y * q / 2 ^ L * 2 ^ L := Nat.dvd_mul_left _ _
  have hdivision := Nat.div_add_mod' (X * 2 ^ d) Y
  have hless := Nat.mod_lt (X * 2 ^ d) (y := Y) (by omega)
  have hwhole : 2 ^ d ∣ X * 2 ^ d := Nat.dvd_mul_left _ _
  have hexact : 2 ^ d ∣ Y → q = X * 2 ^ d / Y := fun h =>
    hq.symm.trans (halved_of_dvd (by omega) h)
  generalize Y * q / 2 ^ L * 2 ^ L = P at *
  generalize hQ : X * 2 ^ d / Y = Q at *
  generalize X * 2 ^ d % Y = R at *
  obtain ⟨hP, heq⟩ | ⟨hP, heq⟩ := hrest
  · -- the product is the exact one, and less than two divisors are lost in it
    have hPQ : P = Q * Y := by omega
    rw [hPQ] at hle hlost hprod
    rw [mul_comm Q] at hle hlost
    obtain ⟨k, rfl⟩ := Nat.exists_eq_add_of_le (Nat.le_of_mul_le_mul_left hle (by omega))
    have hk : k < 2 := by
      refine Nat.lt_of_mul_lt_mul_left (a := Y) ?_
      rw [mul_add] at hlost
      omega
    exact ⟨by omega, hprod⟩
  · -- a product that is too large is so by two divisors, and the quotient is odd
    have hlarge : Q < q := by
      refine Nat.lt_of_mul_lt_mul_left (a := Y) ?_
      rw [mul_comm Y Q]
      omega
    obtain ⟨k, rfl⟩ := Nat.exists_eq_add_of_lt hlarge
    have hk : k + 1 < 4 := by
      refine Nat.lt_of_mul_lt_mul_left (a := Y) ?_
      rw [add_assoc, mul_add, mul_comm Y Q] at hlost
      omega
    have hodd : Q % 2 = 1 := by omega
    have hdvdQ : 2 ^ d ∣ Q * Y := by
      have hsum : P + cut + Q * Y = 2 * (X * 2 ^ d) := by omega
      exact (Nat.dvd_add_right (Nat.dvd_add hdvd hcut)).mp (hsum ▸ hwhole.mul_left 2)
    have hcoprime : Nat.Coprime (2 ^ d) Q :=
      (Nat.coprime_two_left.mpr (Nat.odd_iff.mpr hodd)).pow_left d
    exact absurd (hexact (hcoprime.dvd_of_dvd_mul_left hdvdQ)) (by omega)

end Arithmetic

variable {x y p r : Reg}

theorem setcc_bit {bit : BitVec 16} (h : (SW_C0 ||| SW_C1 ||| SW_C2 ||| SW_C3) &&& bit = bit)
    (cc : BitVec 16) (f : Fpu) : (f.setcc cc).statusWord &&& bit = cc &&& bit := by
  have hkept (bits : BitVec 16) (hbits : bits &&& bit = bit) :
      (f.statusWord &&& ~~~bits ||| cc &&& bits) &&& bit = cc &&& bit := by
    have hnot : ~~~bits &&& bit = 0 := by
      rw [← hbits, ← BitVec.and_assoc, BitVec.and_comm (~~~bits)]
      simp
    rw [BitVec.and_comm, BitVec.and_or_distrib_left, BitVec.and_comm bit, BitVec.and_comm bit,
      BitVec.and_assoc, hnot, BitVec.and_assoc, hbits]
    simp
  exact hkept _ h

theorem quotientBits_iff (q : BitVec 64) :
    (quotientBits ((q &&& 7).setWidth 32) &&& SW_C0 ≠ 0 ↔ q.toNat.testBit 2 = true) ∧
      (quotientBits ((q &&& 7).setWidth 32) &&& SW_C3 ≠ 0 ↔ q.toNat.testBit 1 = true) ∧
      (quotientBits ((q &&& 7).setWidth 32) &&& SW_C1 ≠ 0 ↔ q.toNat.testBit 0 = true) := by
  have hbit (i : ℕ) (hi : i < 3) : (q &&& 7).setWidth 32 &&& BitVec.twoPow 32 i ≠ 0 ↔
      q.toNat.testBit i = true := by
    have hseven : (7 : BitVec 64).getLsbD i = true := by interval_cases i <;> decide
    have hpow : BitVec.twoPow 32 i ≠ 0 := by interval_cases i <;> decide
    have hkept : ((q &&& 7).setWidth 32).getLsbD i = q.toNat.testBit i := by
      rw [BitVec.getLsbD_setWidth, BitVec.getLsbD_and, hseven, Bool.and_true,
        decide_eq_true (by omega), Bool.true_and]
      rfl
    rw [BitVec.and_twoPow, hkept]
    split_ifs with htrue
    · exact iff_of_true hpow htrue
    · exact iff_of_false (fun hne => hne rfl) htrue
  have hfour := hbit 2 (by decide)
  have htwo := hbit 1 (by decide)
  have hone := hbit 0 (by decide)
  have hflags (a b c : Prop) [Decidable a] [Decidable b] [Decidable c] :
      (((if a then SW_C0 else 0) ||| (if b then SW_C3 else 0) ||| (if c then SW_C1 else 0)) &&&
        SW_C0 ≠ 0 ↔ a) ∧
      (((if a then SW_C0 else 0) ||| (if b then SW_C3 else 0) ||| (if c then SW_C1 else 0)) &&&
        SW_C3 ≠ 0 ↔ b) ∧
      (((if a then SW_C0 else 0) ||| (if b then SW_C3 else 0) ||| (if c then SW_C1 else 0)) &&&
        SW_C1 ≠ 0 ↔ c) := by
    by_cases ha : a <;> by_cases hb : b <;> by_cases hc : c <;>
      simp only [ha, hb, hc, if_true, if_false] <;> decide
  obtain ⟨hc0, hc3, hc1⟩ := hflags ((q &&& 7).setWidth 32 &&& (4 : BitVec 32) ≠ 0)
    ((q &&& 7).setWidth 32 &&& (2 : BitVec 32) ≠ 0) ((q &&& 7).setWidth 32 &&& (1 : BitVec 32) ≠ 0)
  exact ⟨hc0.trans hfour, hc3.trans htwo, hc1.trans hone⟩

theorem testBit_three_iff (m n : ℕ) : (m.testBit 2 = true ↔ n.testBit 2 = true) ∧
    (m.testBit 1 = true ↔ n.testBit 1 = true) ∧ (m.testBit 0 = true ↔ n.testBit 0 = true) ↔
      m % 8 = n % 8 := by
  have hlow (k i : ℕ) (hi : i < 3) : (k % 8).testBit i = k.testBit i := by
    have height : 8 = 2 ^ 3 := rfl
    rw [height, Nat.testBit_mod_two_pow, decide_eq_true hi, Bool.true_and]
  constructor
  · rintro ⟨h2, h1, h0⟩
    refine Nat.eq_of_testBit_eq fun i => ?_
    by_cases hi : i < 3
    · rw [hlow m i hi, hlow n i hi, Bool.eq_iff_iff]
      interval_cases i
      · exact h0
      · exact h1
      · exact h2
    · have hhigh (k : ℕ) : (k % 8).testBit i = false := by
        have hlt : k % 8 < 2 ^ 3 := Nat.mod_lt k (by decide)
        exact Nat.testBit_lt_two_pow
          (hlt.trans_le (Nat.pow_le_pow_right (by decide) (Nat.le_of_not_lt hi)))
      rw [hhigh, hhigh]
  · intro heq
    have hbit (i : ℕ) (hi : i < 3) : m.testBit i = true ↔ n.testBit i = true := by
      rw [← hlow m i hi, heq, hlow n i hi]
    exact ⟨hbit 2 (by decide), hbit 1 (by decide), hbit 0 (by decide)⟩

theorem toNat_foundInt (hn : foundQuotient x y < 2 ^ 64) : (foundInt x y).toNat % 8 =
    if x.sign = y.sign then foundQuotient x y % 8 else (2 ^ 64 - foundQuotient x y) % 8 := by
  rw [foundInt, BitVec.toNat_ofInt]
  split_ifs with hsign
  · rw [hsign, bne_self_eq_false, withSign, if_neg (by decide)]
    omega
  · rw [bne_iff_ne.mpr hsign, withSign, if_pos rfl]
    omega

theorem truncated_quotient (x y : Reg) : Mode.chop.Rounds (x.number / y.number)
    (withSign (x.sign != y.sign) ((x.magnitude / y.magnitude : ℕ) : ℤ)) := by
  rw [number_div]
  exact Mode.chop_rounds _ _ _

theorem number_remainder (x y : Reg) : x.number -
    (withSign (x.sign != y.sign) ((x.magnitude / y.magnitude : ℕ) : ℤ) : ℤ) * y.number =
      signed x.sign ((x.magnitude % y.magnitude : ℕ) / 2 ^ 16446) := by
  have hmul : ((withSign (x.sign != y.sign) ((x.magnitude / y.magnitude : ℕ) : ℤ) : ℤ) : ℚ) *
      y.number = signed x.sign ((x.magnitude / y.magnitude : ℕ) * y.magnitude / 2 ^ 16446) := by
    rw [← signed_cast, Reg.number]
    cases x.sign <;> cases y.sign <;> simp [signed, mul_div_assoc]
  have hsplit : ((x.magnitude / y.magnitude : ℕ) * y.magnitude : ℚ) +
      (x.magnitude % y.magnitude : ℕ) = x.magnitude := by
    exact_mod_cast Nat.div_add_mod' x.magnitude y.magnitude
  rw [hmul, Reg.number, signed_sub, ← sub_div, ← hsplit, add_sub_cancel_left]

theorem fprem_right_iff (t : Reg) (m : Machine) (hx : (m.fpu.st 0).Normal)
    (hy : (m.fpu.st 1).Normal) (h : Near (m.fpu.st 0) (m.fpu.st 1)) :
    (∃ m' k, fprem t m = some ((), m') ∧
        Mode.chop.Rounds ((m.fpu.st 0).number / (m.fpu.st 1).number) k ∧
        Remainder (m.fpu.st 0) (m.fpu.st 1) k m'.fpu) ↔
      (foundRest (m.fpu.st 0) (m.fpu.st 1)).value = .fin (signed (m.fpu.st 0).sign
        (((m.fpu.st 0).magnitude % (m.fpu.st 1).magnitude : ℕ) / 2 ^ 16446)) ∧
      (foundInt (m.fpu.st 0) (m.fpu.st 1)).toNat % 8 =
        (m.fpu.st 0).magnitude / (m.fpu.st 1).magnitude % 8 := by
  have hrun := fprem_eq t hx hy h
  have hright := truncated_quotient (m.fpu.st 0) (m.fpu.st 1)
  have hrest := number_remainder (m.fpu.st 0) (m.fpu.st 1)
  obtain ⟨hc0, hc3, hc1⟩ := quotientBits_iff (foundInt (m.fpu.st 0) (m.fpu.st 1))
  have hst (r : Reg) (cc : BitVec 16) : ((m.fpu.setSt 0 r).setcc cc).st 0 = r := by
    change (m.fpu.setSt 0 r).st 0 = r
    rw [st_setSt, if_pos rfl]
  rw [← testBit_three_iff, ← hc0, ← hc3, ← hc1]
  constructor
  · rintro ⟨m', k, hm', hk, hremainder⟩
    obtain rfl := hk.unique hright
    obtain rfl := (Prod.mk.inj (Option.some.inj (hrun.symm.trans hm'))).2
    have hvalue := hremainder.value
    have h0 := hremainder.c0
    have h3 := hremainder.c3
    have h1 := hremainder.c1
    rw [hst, hrest] at hvalue
    rw [setcc_bit (by decide), natAbs_withSign] at h0 h3 h1
    exact ⟨hvalue, h0, h3, h1⟩
  · rintro ⟨hvalue, h0, h3, h1⟩
    refine ⟨_, _, hrun, hright, ?_, ?_, ?_, ?_, ?_, ?_⟩
    · rw [hst, hrest]
      exact hvalue
    · have hpos : (0 : ℚ) < 2 ^ 16446 := by positivity
      rw [hrest, Reg.number, abs_signed, abs_signed,
        abs_of_nonneg (div_nonneg (Nat.cast_nonneg _) hpos.le),
        abs_of_nonneg (div_nonneg (Nat.cast_nonneg _) hpos.le), div_lt_div_iff_of_pos_right hpos]
      exact_mod_cast Nat.mod_lt _ (Nat.pos_of_ne_zero fun hzero =>
        hy.sig_ne ((magnitude_eq_zero _).mp hzero))
    · rw [hst]
      rfl
    · rw [setcc_bit (by decide), natAbs_withSign]
      exact h0
    · rw [setcc_bit (by decide), natAbs_withSign]
      exact h3
    · rw [setcc_bit (by decide), natAbs_withSign]
      exact h1

/-- What `fprem_right_iff` asks for. -/
def RestIsRight (x y : Reg) : Prop :=
  (foundRest x y).value =
      .fin (signed x.sign ((x.magnitude % y.magnitude : ℕ) / 2 ^ 16446)) ∧
    (foundInt x y).toNat % 8 = x.magnitude / y.magnitude % 8

/-- A dividend that is less than the divisor stays. -/
theorem right_of_less (hx : x.Normal) (hy : y.Normal) (h : Near x y)
    (hless : x.magnitude < y.magnitude) : RestIsRight x y := by
  have hn : foundQuotient x y = 0 := by
    by_cases hle : y.exp.toNat ≤ x.exp.toNat
    · have hexp : x.exp.toNat = y.exp.toNat :=
        le_antisymm (exp_le_of_magnitude_le hx hless.le) hle
      have hgap : expGap x y = 0 := by rw [expGap, hexp, Nat.sub_self]
      rw [Reg.magnitude, Reg.magnitude, hexp, Nat.mul_lt_mul_right (by positivity)] at hless
      rw [foundQuotient_eq hx hy h hle, hgap, halved, if_neg hless.not_ge]
      rfl
    · exact foundQuotient_zero (Nat.lt_of_not_le hle)
  have hint : foundInt x y = 0 := by
    rw [foundInt, hn]
    cases x.sign != y.sign <;> rfl
  have hzero : (foundProduct x y).tag = .zero := by
    have hload : rMovLongLong 0 = CONST_Z := rfl
    have hproduct : rMul y CONST_Z = .plain (normalizeShort
        { CONST_Z with sign := y.sign != CONST_Z.sign }) := by
      simp only [rMul, hy.valid, reduceCtorEq, if_false, false_and]
      rfl
    rw [foundProduct, hint, hload, hproduct, normalizeShort_zero]
    rfl
  have hrest : foundRest x y = x := by
    have hsub : rSub x (foundProduct x y) = .plain x := if_pos hzero
    rw [foundRest, hsub]
    rfl
  refine ⟨?_, ?_⟩
  · rw [hrest, Nat.mod_eq_of_lt hless]
    exact hx.value
  · rw [hint, Nat.div_eq_of_lt hless]
    rfl

/-- The quotient is one of the `long long`s. -/
def InLongLong (x y : Reg) : Prop :=
  foundQuotient x y < 2 ^ 63 ∨ x.sign ≠ y.sign ∧ foundQuotient x y = 2 ^ 63

theorem toInt_foundInt (h : InLongLong x y) :
    (foundInt x y).toInt = withSign (x.sign != y.sign) (foundQuotient x y : ℤ) := by
  refine BitVec.toInt_ofInt_eq_self (by decide) ?_ ?_
  · rcases h with hlt | ⟨-, heq⟩ <;> cases x.sign != y.sign <;>
      simp only [withSign, if_true, Bool.false_eq_true, if_false] <;> omega
  · rcases h with hlt | ⟨hsign, heq⟩
    · cases x.sign != y.sign <;> simp only [withSign, if_true, Bool.false_eq_true, if_false] <;>
        omega
    · rw [bne_iff_ne.mpr hsign, withSign, if_pos rfl]
      omega

/-- A quotient that is too large changes its sign. -/
theorem sign_foundInt (hn : foundQuotient x y < 2 ^ 64) (h : ¬ InLongLong x y) :
    (foundInt x y).toInt ≠ 0 ∧ decide ((foundInt x y).toInt < 0) ≠ (x.sign != y.sign) := by
  rw [InLongLong, not_or, not_and] at h
  rw [foundInt, BitVec.toInt_ofInt, Int.bmod_def]
  by_cases hsign : x.sign = y.sign
  · rw [hsign, bne_self_eq_false, withSign, if_neg Bool.false_ne_true, Ne, Ne,
      decide_eq_false_iff_not]
    omega
  · have hne := h.2 hsign
    rw [bne_iff_ne.mpr hsign, withSign, if_pos rfl, Ne, Ne, decide_eq_true_iff]
    omega

theorem sign_foundProduct (hy : y.Normal) (hq : (foundInt x y).toInt ≠ 0) :
    (foundProduct x y).sign = (y.sign != decide ((foundInt x y).toInt < 0)) := by
  rw [foundProduct, rMul_eq hy (loaded_normal hq).1]
  refine (sign_normalizeShort _).trans ?_
  rw [← sign_rMovInt]
  rfl

theorem loaded_exp {q : BitVec 64} (hq : q.toInt ≠ 0) :
    ∃ L, (rMovLongLong q).exp.toNat = 16382 + L ∧ 0 < L := by
  have hpow : 2 ^ 63 * 2 ^ 16383 = 2 ^ 16446 := by rw [← pow_add]
  have hexp : 16383 ≤ (rMovLongLong q).exp.toNat := by
    refine le_exp_of_magnitude ?_
    rw [(loaded_normal hq).2, hpow]
    exact Nat.le_mul_of_pos_left _ (Int.natAbs_pos.mpr hq)
  exact ⟨(rMovLongLong q).exp.toNat - 16382, by omega, by omega⟩

theorem not_right_of_overflow {z : Reg} {L : ℕ} (hx : x.Normal) (hy : y.Normal) (hz : z.Normal)
    (hexp : z.exp.toNat = 16382 + L) (hover : EXP_MAX < y.exp.toNat + L) (v : ℚ) :
    ({ (rSub x (rMul y z).reg).reg with sign := x.sign } : Reg).value ≠ .fin v := by
  obtain ⟨htag, hmax, hsig⟩ := rMul_overflow hy hz (by
    rw [biasedExp, hy.toInt_exp, hz.toInt_exp, hexp, EXP_BIAS]
    omega)
  exact rest_special hx htag hmax hsig v

theorem not_right_of_sign (hx : x.Normal) (hy : y.Normal) (hle : y.magnitude ≤ x.magnitude)
    (hn : foundQuotient x y < 2 ^ 64) (hout : ¬ InLongLong x y) : ¬ RestIsRight x y := by
  rintro ⟨hvalue, -⟩
  obtain ⟨hq, hsign⟩ := sign_foundInt hn hout
  obtain ⟨L, hexp, hpos⟩ := loaded_exp hq
  have hz := (loaded_normal hq).1
  by_cases hover : EXP_MAX < y.exp.toNat + L
  · exact not_right_of_overflow hx hy hz hexp hover _ hvalue
  · have hproduct : (foundProduct x y).Normal :=
      (product_normal hy hz hexp hpos (Nat.le_of_not_lt hover)).1
    have hne : x.sign ≠ (foundProduct x y).sign := by
      rw [sign_foundProduct hy hq]
      generalize decide ((foundInt x y).toInt < 0) = s at hsign ⊢
      revert hsign
      cases x.sign <;> cases y.sign <;> cases s <;> decide
    have hge := rest_opposite hx hproduct hne hvalue
    have hpos : (0 : ℚ) < 2 ^ 16446 := by positivity
    rw [abs_signed, abs_of_nonneg (div_nonneg (Nat.cast_nonneg _) hpos.le),
      div_le_div_iff_of_pos_right hpos, Nat.cast_le] at hge
    have hmod := Nat.mod_lt x.magnitude (hy.two_pow_le_magnitude.trans_lt' (by decide))
    omega

theorem restMagnitude_units {X P d e : ℕ} (hx : x.Normal) (hp : p.Normal)
    (hX : x.magnitude = X * 2 ^ d * 2 ^ e) (hexp : x.exp.toNat = e + d)
    (hP : p.magnitude = P * 2 ^ e) (hdvd : 2 ^ d ∣ P) : ∃ cut, 2 ^ d ∣ cut ∧
      (P ≤ X * 2 ^ d → restMagnitude x p = (X * 2 ^ d - P) * 2 ^ e) ∧
      (X * 2 ^ d < P → restMagnitude x p = (P - X * 2 ^ d + cut) * 2 ^ e) := by
  have hunit : 2 ^ x.exp.toNat = 2 ^ d * 2 ^ e := by rw [hexp, pow_add, mul_comm]
  have hless : p.magnitude < x.magnitude ↔ P < X * 2 ^ d := by
    rw [hP, hX, Nat.mul_lt_mul_right (by positivity)]
  by_cases hlt : X * 2 ^ d < P
  · have hle : x.magnitude ≤ p.magnitude := not_lt.mp (hless.not.mpr hlt.not_gt)
    have hcut : 2 ^ x.exp.toNat ∣ x.magnitude % 2 ^ p.exp.toNat :=
      (Nat.dvd_mod_iff (Nat.pow_dvd_pow 2 (exp_le_of_magnitude_le hx hle))).mpr
        (Dvd.intro_left _ rfl)
    obtain ⟨c, hc⟩ := hcut
    refine ⟨2 ^ d * c, Dvd.intro _ rfl, fun h => absurd hlt h.not_gt, fun _ => ?_⟩
    rw [restMagnitude, if_neg hle.not_gt, hc, hunit, hP, hX, Nat.add_mul, Nat.sub_mul,
      mul_right_comm (2 ^ d)]
  · refine ⟨0, dvd_zero _, fun _ => ?_, fun h => absurd h hlt⟩
    rw [restMagnitude, Nat.sub_mul, ← hX, ← hP]
    split_ifs with hgt
    · have hnone : p.magnitude % 2 ^ x.exp.toNat = 0 := by
        rw [hP, hunit]
        exact Nat.mod_eq_zero_of_dvd (Nat.mul_dvd_mul_right hdvd _)
      rw [hnone, Nat.add_zero]
    · -- two equal numbers
      have heq : x.magnitude = p.magnitude := by
        rw [hless] at hgt
        rw [hX, hP, Nat.le_antisymm (Nat.le_of_not_lt hlt) (Nat.le_of_not_lt hgt)]
      have hexp' : x.exp.toNat = p.exp.toNat :=
        le_antisymm (exp_le_of_magnitude_le hx heq.le) (exp_le_of_magnitude_le hp heq.ge)
      rw [← hexp', magnitude_mod, heq, Nat.add_zero]

theorem loaded_found (hx : x.Normal) (hy : y.Normal) (h : Near x y) (hone : AtLeastOne x y)
    (hin : InLongLong x y) : (foundInt x y).toInt ≠ 0 ∧
      (rMovLongLong (foundInt x y)).magnitude = foundQuotient x y * 2 ^ 16446 ∧
      (rMovLongLong (foundInt x y)).exp.toNat = 16382 + quotientBitCount x y := by
  obtain ⟨hlow, hhigh⟩ := foundQuotient_bits hx hy h hone
  have hint := toInt_foundInt hin
  have hq : (foundInt x y).toInt ≠ 0 := by
    rw [← Int.natAbs_ne_zero, hint, natAbs_withSign]
    omega
  obtain ⟨hz, hmagnitude⟩ := loaded_normal hq
  rw [hint, natAbs_withSign] at hmagnitude
  have hhalf : 2 * (2 ^ 63 * 2 ^ (16382 + quotientBitCount x y)) =
      2 ^ quotientBitCount x y * 2 ^ 16446 := by
    rw [← pow_add, ← pow_add, ← pow_succ']
    congr 1
    omega
  refine ⟨hq, hmagnitude, exp_eq_of_magnitude (.inl hz.top) ?_ ?_⟩
  · refine Nat.le_of_mul_le_mul_left (c := 2) ?_ two_pos
    rw [hhalf, hmagnitude, ← mul_assoc]
    exact Nat.mul_le_mul_right _ hlow
  · have hwhole : 2 ^ 64 * 2 ^ (16382 + quotientBitCount x y) =
        2 ^ quotientBitCount x y * 2 ^ 16446 := by
      rw [← hhalf, ← mul_assoc, ← pow_succ']
    rw [hwhole, hmagnitude]
    exact Nat.mul_lt_mul_of_pos_right hhigh (by positivity)

theorem foundProduct_spec (hx : x.Normal) (hy : y.Normal) (h : Near x y) (hone : AtLeastOne x y)
    (hin : InLongLong x y) (hle : y.exp.toNat + quotientBitCount x y ≤ EXP_MAX) :
    (foundProduct x y).Normal ∧ x.sign = (foundProduct x y).sign ∧ (foundProduct x y).magnitude =
      y.sig.toNat * foundQuotient x y / 2 ^ quotientBitCount x y *
        2 ^ quotientBitCount x y * 2 ^ y.exp.toNat := by
  obtain ⟨hq, hload, hexp⟩ := loaded_found hx hy h hone hin
  have hint := toInt_foundInt hin
  obtain ⟨hproduct, hmagnitude⟩ := product_normal hy (loaded_normal hq).1 hexp hone.pos hle
  refine ⟨hproduct, ?_, hmagnitude.trans ?_⟩
  · have hsign : decide ((foundInt x y).toInt < 0) = (x.sign != y.sign) := by
      rw [hint] at hq ⊢
      cases hs : x.sign != y.sign <;>
        simp only [hs, withSign, if_true, Bool.false_eq_true, if_false] at hq ⊢ <;>
        simp only [decide_eq_false_iff_not, decide_eq_true_iff] <;> omega
    rw [sign_foundProduct hy hq, hsign]
    cases x.sign <;> cases y.sign <;> rfl
  · have hsig : (rMovLongLong (foundInt x y)).sig.toNat * 2 ^ quotientBitCount x y =
        foundQuotient x y * 2 ^ 64 := by
      refine Nat.eq_of_mul_eq_mul_right (show 0 < 2 ^ 16382 by positivity) ?_
      have hunit : 64 + 16382 = 16446 := rfl
      rw [Reg.magnitude, hexp] at hload
      rw [mul_assoc, mul_assoc, ← pow_add, ← pow_add, add_comm (quotientBitCount x y), hunit]
      exact hload
    have hdiv : y.sig.toNat * (rMovLongLong (foundInt x y)).sig.toNat / 2 ^ 64 =
        y.sig.toNat * foundQuotient x y / 2 ^ quotientBitCount x y := by
      rw [← Nat.mul_div_mul_right _ (2 ^ 64) (show 0 < 2 ^ quotientBitCount x y by positivity),
        mul_assoc, hsig, ← mul_assoc, mul_comm (2 ^ 64), Nat.mul_div_mul_right _ _ (by positivity)]
    rw [hdiv, pow_add, mul_comm (2 ^ y.exp.toNat), mul_assoc]

theorem QuotientFits.found (hx : x.Normal) (hy : y.Normal) (h : Near x y) (hone : AtLeastOne x y)
    (hfits : QuotientFits x y) : foundQuotient x y = wholeQuotient x y := by
  have hX := x.sig.isLt
  have hY := hy.two_pow_le
  rw [foundQuotient_eq hx hy h (by have := hone.exp; omega)]
  refine (halved_eq_iff (by omega) (by omega) ?_).mpr hfits.rest
  exact (Nat.pow_dvd_pow 2 (Nat.le_add_right _ _)).trans hfits.product

theorem AtLeastOne.count_le (hone : AtLeastOne x y) : quotientBitCount x y ≤ 64 := by
  have hlt := hone.gap
  unfold quotientBitCount topBit
  split_ifs <;> omega

theorem foundQuotient_lt (hx : x.Normal) (hy : y.Normal) (h : Near x y)
    (hone : AtLeastOne x y) : foundQuotient x y < 2 ^ 64 :=
  (foundQuotient_bits hx hy h hone).2.trans_le
    (Nat.pow_le_pow_right (by decide) hone.count_le)

theorem AtLeastOne.units (hone : AtLeastOne x y) :
    x.magnitude = x.sig.toNat * 2 ^ expGap x y * 2 ^ y.exp.toNat ∧
      x.magnitude % y.magnitude =
        x.sig.toNat * 2 ^ expGap x y % y.sig.toNat * 2 ^ y.exp.toNat ∧
      x.magnitude / y.magnitude = wholeQuotient x y := by
  have hx : x.magnitude = x.sig.toNat * 2 ^ expGap x y * 2 ^ y.exp.toNat := by
    rw [Reg.magnitude, hone.exp, pow_add, mul_comm (2 ^ y.exp.toNat), mul_assoc]
  rw [hx, Reg.magnitude]
  exact ⟨rfl, Nat.mul_mod_mul_right _ _ _, Nat.mul_div_mul_right _ _ (by positivity)⟩

theorem restIsRight_iff (hx : x.Normal) (hy : y.Normal) (h : Near x y) (hone : AtLeastOne x y)
    (hp : (foundProduct x y).Normal) (hsign : x.sign = (foundProduct x y).sign) :
    RestIsRight x y ↔ restMagnitude x (foundProduct x y) =
        x.sig.toNat * 2 ^ expGap x y % y.sig.toNat * 2 ^ y.exp.toNat ∧
      (if x.sign = y.sign then foundQuotient x y % 8 else (2 ^ 64 - foundQuotient x y) % 8) =
        wholeQuotient x y % 8 := by
  obtain ⟨-, hmod, hdiv⟩ := hone.units
  have hn := foundQuotient_lt hx hy h hone
  have hpos : (0 : ℚ) < 2 ^ 16446 := by positivity
  rw [RestIsRight, foundRest, rest_same hx hp hsign, toNat_foundInt hn, hmod, hdiv,
    Value.fin.injEq]
  refine and_congr_left' ⟨fun heq => ?_, fun heq => by rw [heq]⟩
  have habs := congrArg abs heq
  rw [abs_signed, abs_signed, abs_of_nonneg (div_nonneg (Nat.cast_nonneg _) hpos.le),
    abs_of_nonneg (div_nonneg (Nat.cast_nonneg _) hpos.le), div_left_inj' hpos.ne'] at habs
  exact_mod_cast habs

theorem right_of_fits (hx : x.Normal) (hy : y.Normal) (h : Near x y) (hone : AtLeastOne x y)
    (hin : InLongLong x y) (hle : y.exp.toNat + quotientBitCount x y ≤ EXP_MAX)
    (hfits : QuotientFits x y) : RestIsRight x y := by
  have hn := hfits.found hx hy h hone
  obtain ⟨hp, hsign, hproduct⟩ := foundProduct_spec hx hy h hone hin hle
  obtain ⟨hunits, -, -⟩ := hone.units
  rw [restIsRight_iff hx hy h hone hp hsign]
  rw [hn, mul_comm y.sig.toNat, quotientBitCount, Nat.div_mul_cancel hfits.product] at hproduct
  have hdvd : 2 ^ expGap x y ∣ wholeQuotient x y * y.sig.toNat :=
    (Nat.pow_dvd_pow 2 (Nat.le_add_right _ _)).trans hfits.product
  obtain ⟨cut, -, hrest, -⟩ := restMagnitude_units hx hp hunits hone.exp hproduct hdvd
  have hsplit := Nat.div_add_mod' (x.sig.toNat * 2 ^ expGap x y) y.sig.toNat
  constructor
  · rw [hrest (Nat.div_mul_le_self _ _), wholeQuotient]
    congr 1
    omega
  · rw [hn]
    have hrange := hfits.range
    split_ifs with hsame
    · rfl
    · have hfour := hfits.bits.resolve_left hsame
      omega

theorem fits_of_right (hx : x.Normal) (hy : y.Normal) (h : Near x y) (hone : AtLeastOne x y)
    (hin : InLongLong x y) (hle : y.exp.toNat + quotientBitCount x y ≤ EXP_MAX)
    (hright : RestIsRight x y) : QuotientFits x y := by
  obtain ⟨hp, hsign, hproduct⟩ := foundProduct_spec hx hy h hone hin hle
  obtain ⟨hunits, -, -⟩ := hone.units
  have hn := foundQuotient_lt hx hy h hone
  obtain ⟨hrest, hbits⟩ := (restIsRight_iff hx hy h hone hp hsign).mp hright
  have hfound := foundQuotient_eq hx hy h (by have := hone.exp; omega)
  have hdvd : 2 ^ expGap x y ∣ y.sig.toNat * foundQuotient x y / 2 ^ quotientBitCount x y *
      2 ^ quotientBitCount x y :=
    (Nat.pow_dvd_pow 2 (Nat.le_add_right _ _)).trans (Nat.dvd_mul_left _ _)
  obtain ⟨cut, hcut, hbelow, habove⟩ := restMagnitude_units hx hp hunits hone.exp hproduct hdvd
  have hunit : 0 < 2 ^ y.exp.toNat := by positivity
  obtain ⟨heq, hexact⟩ := halved_of_remainder x.sig.isLt hy.two_pow_le hone.count_le
    (Nat.le_add_right _ _) hcut hfound.symm (by
      obtain hP | hP := Nat.lt_or_ge (x.sig.toNat * 2 ^ expGap x y)
        (y.sig.toNat * foundQuotient x y / 2 ^ quotientBitCount x y * 2 ^ quotientBitCount x y)
      · rw [habove hP] at hrest
        exact .inr ⟨hP, Nat.eq_of_mul_eq_mul_right hunit hrest⟩
      · rw [hbelow hP] at hrest
        exact .inl ⟨hP, Nat.eq_of_mul_eq_mul_right hunit hrest⟩) (by
      change _ = wholeQuotient x y % 8 ∨ 8 ∣ _ + wholeQuotient x y
      split_ifs at hbits <;> omega)
  have hquotient : foundQuotient x y = wholeQuotient x y := heq
  refine ⟨?_, hexact, ?_, ?_, ?_⟩
  · rw [← hquotient]
    exact hin
  · have hX := x.sig.isLt
    have hY := hy.two_pow_le
    refine (halved_eq_iff (by omega) (by omega) ?_).mp (hfound.symm.trans heq)
    exact (Nat.pow_dvd_pow 2 (Nat.le_add_right _ _)).trans hexact
  · rw [hquotient] at hbits hn
    refine or_iff_not_imp_left.mpr fun hne => ?_
    rw [if_neg hne] at hbits
    omega
  · have hexp := hone.exp
    unfold quotientBitCount at hle
    omega

theorem right_iff_fits (hx : x.Normal) (hy : y.Normal) (h : Near x y)
    (hle : y.magnitude ≤ x.magnitude) : RestIsRight x y ↔ QuotientFits x y := by
  have hone := atLeastOne hx hy h hle
  have hgap := hone.exp
  by_cases hin : InLongLong x y
  · by_cases hover : EXP_MAX < y.exp.toNat + quotientBitCount x y
    · refine iff_of_false (fun hright => ?_) fun hfits => ?_
      · obtain ⟨hq, -, hexp⟩ := loaded_found hx hy h hone hin
        exact not_right_of_overflow hx hy (loaded_normal hq).1 hexp hover _ hright.1
      · have hexp := hfits.exp
        unfold quotientBitCount at hover
        omega
    · have hmax := Nat.le_of_not_lt hover
      exact ⟨fits_of_right hx hy h hone hin hmax, right_of_fits hx hy h hone hin hmax⟩
  · have hn := foundQuotient_lt hx hy h hone
    refine iff_of_false (not_right_of_sign hx hy hle hn hin) fun hfits => hin ?_
    rw [InLongLong, hfits.found hx hy h hone]
    exact hfits.range

theorem number_negative (h : r.sign = false) :
    ({ r with sign := true } : Reg).number = -r.number := by
  rw [Reg.number, Reg.number, h]
  rfl

def minusOne : Reg := { CONST_1 with sign := true }

theorem minusOne_normal : minusOne.Normal := ⟨rfl, by decide, by decide⟩

theorem number_minusOne : minusOne.number = -1 := by
  rw [minusOne, number_negative rfl, number_one]

end DjgppLibc.Emu387
