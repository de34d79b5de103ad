import DjgppLibc.Emu387Sums

/-!
# How exact products are in the 387 emulator

`r_mul` builds the product of the significands from sixteen products of their 16-bit parts,
keeps the upper half of it, and shifts that to the left afterwards. A product that is less than
half of the largest one so gets a last bit which is always zero.
-/
namespace DjgppLibc.Emu387

open X86 MultiWords

variable {a b r : Reg}

/-- The words `sl` of `r_mul` after its loops. -/
def productWords (a b : Reg) : ℕ → ℕ :=
  ((products (2 ^ 16) (part a.sig) (part b.sig) 4 4).settleAll (2 ^ 16) 8).sl

theorem weigh_part (sig : BitVec 64) : weigh (2 ^ 16) (part sig) 4 = sig.toNat := by
  rw [← sum_parts sig, weigh]
  simp only [Finset.sum_range_succ, Finset.sum_range_zero]
  ring

/-- The upper four words are the significand of the product. -/
theorem productWords_upper (a b : Reg) :
    BitVec.ofNat 64 (weigh (2 ^ 16) (fun k => productWords a b (4 + k)) 4) = productSig a b := by
  have hlt (sig : BitVec 64) (k : ℕ) : part sig k < 2 ^ 16 := Nat.mod_lt _ (by positivity)
  have hall : weigh (2 ^ 16)
      ((products (2 ^ 16) (part a.sig) (part b.sig) 4 4).settleAll (2 ^ 16) (4 + 4)).sl (4 + 4) =
        weigh (2 ^ 16) (part a.sig) 4 * weigh (2 ^ 16) (part b.sig) 4 :=
    products_settled (fun k _ => hlt _ k) (fun k _ => hlt _ k)
  rw [weigh_part, weigh_part] at hall
  have hwords : ∀ k, productWords a b k < 2 ^ 16 :=
    inWords_settleAll (by positivity) (inWords_products (by positivity) _ _ _ _) _
  have hlow := weigh_lt (b := 2 ^ 16) (f := productWords a b) (n := 4) fun k _ => hwords k
  have hsplit : weigh (2 ^ 16) (productWords a b) 8 = weigh (2 ^ 16) (productWords a b) 4 +
      2 ^ 64 * weigh (2 ^ 16) (fun k => productWords a b (4 + k)) 4 := by
    simp only [weigh, Finset.sum_range_succ, Finset.sum_range_zero]
    ring
  change weigh (2 ^ 16) (productWords a b) 8 = _ at hall
  rw [productSig, ← hall, hsplit, Nat.add_mul_div_left _ _ (by positivity),
    Nat.div_eq_of_lt (hlow.trans_eq (by norm_num)), Nat.zero_add]

/-- The product is in the range of the exponents. -/
def ProductInRange (a b : Reg) : Prop :=
  2 ^ 63 * 2 ^ 16446 ≤ a.magnitude * b.magnitude ∧
    a.magnitude * b.magnitude < 2 ^ (64 + EXP_MAX) * 2 ^ 16446

/-- The last bit of the product is kept: the significand is not shifted, or the bit that comes
in behind it is zero anyway. A significand that is to be shifted has an exponent one too large. -/
def KeepsProduct (a b : Reg) : Prop :=
  2 ^ 127 ≤ a.sig.toNat * b.sig.toNat ∨
    biasedExp a b ≤ EXP_MAX ∧ a.sig.toNat * b.sig.toNat % 2 ^ 64 < 2 ^ 63

theorem exp_eq_of_magnitude {k : ℕ} (h : r.Shifted) (hlo : 2 ^ 63 * 2 ^ k ≤ r.magnitude)
    (hhi : r.magnitude < 2 ^ 64 * 2 ^ k) : r.exp.toNat = k := by
  refine le_antisymm ?_ (le_exp_of_magnitude hlo)
  rcases h with htop | hzero
  · have hlt : 2 ^ 63 * 2 ^ r.exp.toNat < 2 ^ 64 * 2 ^ k :=
      (Nat.mul_le_mul_right _ (two_pow_le_of_msb htop)).trans_lt hhi
    rw [← pow_add, ← pow_add, Nat.pow_lt_pow_iff_right (by decide)] at hlt
    omega
  · rw [hzero]
    exact Nat.zero_le k

structure ProductExp (a b : Reg) (e : ℕ) : Prop where
  exp : biasedExp a b = e
  magnitude : a.magnitude * b.magnitude * 2 ^ 64 = a.sig.toNat * b.sig.toNat * 2 ^ e * 2 ^ 16446
  low : 2 ^ 127 ≤ a.sig.toNat * b.sig.toNat * 2 ^ e
  high : a.sig.toNat * b.sig.toNat * 2 ^ e < 2 ^ (128 + EXP_MAX)

theorem productExp (ha : a.Normal) (hb : b.Normal) (h : ProductInRange a b) :
    ∃ e, ProductExp a b e := by
  obtain ⟨hlow, hhigh⟩ := h
  have hprod : a.magnitude * b.magnitude =
      a.sig.toNat * b.sig.toNat * 2 ^ (a.exp.toNat + b.exp.toNat) := by
    rw [Reg.magnitude, Reg.magnitude, pow_add]
    ring
  have hlt : a.sig.toNat * b.sig.toNat < 2 ^ 64 * 2 ^ 64 := Nat.mul_lt_mul'' a.sig.isLt b.sig.isLt
  have hexp : 16382 ≤ a.exp.toNat + b.exp.toNat := by
    have hpow : 2 ^ 63 * 2 ^ 16446 < 2 ^ 64 * 2 ^ 64 * 2 ^ (a.exp.toNat + b.exp.toNat) :=
      (hlow.trans_eq hprod).trans_lt (Nat.mul_lt_mul_of_pos_right hlt (by positivity))
    rw [← pow_add, ← pow_add, ← pow_add] at hpow
    have := (Nat.pow_lt_pow_iff_right (by decide)).mp hpow
    omega
  obtain ⟨e, he⟩ := Nat.exists_eq_add_of_le hexp
  have hmagnitude : a.magnitude * b.magnitude * 2 ^ 64 =
      a.sig.toNat * b.sig.toNat * 2 ^ e * 2 ^ 16446 := by
    have hpow : 2 ^ (16382 + e) * 2 ^ 64 = 2 ^ e * 2 ^ 16446 := by
      rw [← pow_add, ← pow_add]
      congr 1
      omega
    rw [hprod, he, mul_assoc, hpow, ← mul_assoc]
  refine ⟨e, ?_, hmagnitude, ?_, ?_⟩
  · rw [biasedExp, ha.toInt_exp, hb.toInt_exp, EXP_BIAS]
    omega
  · refine Nat.le_of_mul_le_mul_right ?_ (show 0 < 2 ^ 16446 by positivity)
    rw [← hmagnitude]
    calc 2 ^ 127 * 2 ^ 16446 = 2 ^ 63 * 2 ^ 16446 * 2 ^ 64 := by
          rw [← pow_add, ← pow_add, ← pow_add]
      _ ≤ _ := Nat.mul_le_mul_right _ hlow
  · refine Nat.lt_of_mul_lt_mul_right (a := 2 ^ 16446) ?_
    rw [← hmagnitude]
    calc a.magnitude * b.magnitude * 2 ^ 64 < 2 ^ (64 + EXP_MAX) * 2 ^ 16446 * 2 ^ 64 :=
          Nat.mul_lt_mul_of_pos_right hhigh (by positivity)
      _ = 2 ^ (128 + EXP_MAX) * 2 ^ 16446 := by
          rw [← pow_add, ← pow_add, ← pow_add]
          congr 1

/-- What `r_mul` hands to `normalize`. -/
def productReg (a b : Reg) : Reg :=
  Reg.setSig ⟨a.sign != b.sign, .valid,
    BitVec.ofInt 16 (if biasedExp a b > EXP_MAX then (EXP_MAX : ℤ) + 1 else biasedExp a b), 0, 0⟩
    (productSig a b)

theorem rMul_eq (ha : a.Normal) (hb : b.Normal) :
    rMul a b = .plain (normalizeShort (productReg a b)) := by
  simp only [rMul, ha.valid, hb.valid, reduceCtorEq, if_false]
  rfl

theorem toNat_productSig (a b : Reg) :
    (productReg a b).sig.toNat = a.sig.toNat * b.sig.toNat / 2 ^ 64 := by
  have hlt : a.sig.toNat * b.sig.toNat < 2 ^ 64 * 2 ^ 64 := Nat.mul_lt_mul'' a.sig.isLt b.sig.isLt
  rw [productReg, sig_setSig, productSig, BitVec.toNat_ofNat,
    Nat.mod_eq_of_lt (Nat.div_lt_of_lt_mul hlt)]

theorem productSig_ge (ha : a.Normal) (hb : b.Normal) : 2 ^ 62 ≤ (productReg a b).sig.toNat := by
  have hle : 2 ^ 63 * 2 ^ 63 ≤ a.sig.toNat * b.sig.toNat :=
    Nat.mul_le_mul ha.two_pow_le hb.two_pow_le
  rw [toNat_productSig]
  omega

/-- The exponent is one of the format: the significand is shifted, and the number stays. -/
theorem rMul_finite (ha : a.Normal) (hb : b.Normal) {e : ℕ} (h : ProductExp a b e)
    (hle : e ≤ EXP_MAX) :
    (rMul a b).reg.magnitude = a.sig.toNat * b.sig.toNat / 2 ^ 64 * 2 ^ e ∧
      (rMul a b).reg.Shifted ∧ (rMul a b).reg.exp.toNat ≤ e := by
  have hsig := productSig_ge ha hb
  have hexp : (productReg a b).exp = BitVec.ofInt 16 e := by
    rw [← h.exp]
    change BitVec.ofInt 16 (if _ then _ else _) = _
    rw [if_neg (by rw [h.exp]; omega)]
  have hnat : (productReg a b).exp.toNat = e := by
    unfold EXP_MAX at hle
    rw [hexp, BitVec.ofInt_natCast, BitVec.toNat_ofNat]
    omega
  have hint : (productReg a b).exp.toInt = e := by
    rw [toInt_exp (by omega), hnat]
  rw [rMul_eq ha hb, normalizeShort, if_neg, if_neg (by rw [hint]; omega)]
  · refine ⟨(magnitude_shiftTop _).trans ?_, shiftTop_ends _, ?_⟩
    · rw [Reg.magnitude, toNat_productSig, hnat]
    · exact (exp_shiftTop _).trans_le ((shiftUp_le _ _).trans_eq hnat)
  · intro hzero
    rw [hzero] at hsig
    exact absurd hsig (by decide)

theorem value_ne_fin (hexp : r.exp = 32767) (hsig : r.sig ≠ 0) (x : ℚ) : r.value ≠ .fin x := by
  rw [Reg.value, if_neg hsig, if_pos hexp]
  split_ifs <;> simp

theorem rMul_overflow (ha : a.Normal) (hb : b.Normal) (h : (EXP_MAX : ℤ) < biasedExp a b) :
    (rMul a b).reg.tag = .special ∧ (rMul a b).reg.exp = 32767 ∧ (rMul a b).reg.sig ≠ 0 := by
  have hsig := productSig_ge ha hb
  have hne : (productReg a b).sig ≠ 0 := by
    intro hzero
    rw [hzero] at hsig
    exact absurd hsig (by decide)
  have hexp : (productReg a b).exp = 32767 := by
    change BitVec.ofInt 16 (if _ then _ else _) = _
    rw [if_pos h]
    rfl
  have hint : (productReg a b).exp.toInt > EXP_MAX := by
    rw [hexp]
    decide
  rw [rMul_eq ha hb, normalizeShort, if_neg hne, if_pos hint]
  exact ⟨rfl, hexp, hne⟩

theorem rMul_special (ha : a.Normal) (hb : b.Normal) (h : (EXP_MAX : ℤ) < biasedExp a b) (x : ℚ) :
    (rMul a b).reg.value ≠ .fin x := by
  obtain ⟨-, hexp, hsig⟩ := rMul_overflow ha hb h
  exact value_ne_fin hexp hsig x

theorem abs_product (a b : Reg) :
    |a.number * b.number| = (a.magnitude * b.magnitude : ℕ) / (2 ^ 16446 * 2 ^ 16446) := by
  rw [abs_mul, Reg.number, Reg.number, abs_signed, abs_signed, abs_of_nonneg (by positivity),
    abs_of_nonneg (by positivity), div_mul_div_comm, Nat.cast_mul]

theorem exact_product {m n e units : ℕ} {unit : ℚ} (hunit : unit = units) (hpos : 0 < unit)
    (h : m * 2 ^ 64 = n * 2 ^ e * units) : (m : ℚ) / (unit * unit) =
      ((n / 2 ^ 64 * 2 ^ e : ℕ) + (n % 2 ^ 64 * 2 ^ e : ℕ) / 2 ^ 64) / unit := by
  have hsplit : ((n / 2 ^ 64 : ℕ) : ℚ) * 2 ^ 64 + (n % 2 ^ 64 : ℕ) = n := by
    exact_mod_cast Nat.div_add_mod' n (2 ^ 64)
  have hm : (m : ℚ) * 2 ^ 64 = n * 2 ^ e * unit := by
    rw [hunit]
    exact_mod_cast h
  rw [div_eq_div_iff (mul_pos hpos hpos).ne' hpos.ne']
  push_cast
  linear_combination unit / 2 ^ 64 * hm - 2 ^ e * unit * unit / 2 ^ 64 * hsplit

theorem rMul_error (ha : a.Normal) (hb : b.Normal) {e : ℕ} (h : ProductExp a b e)
    (hle : e ≤ EXP_MAX) :
    (∃ x, (rMul a b).reg.value = .fin x ∧ |x| ≤ |a.number * b.number| ∧
        |a.number * b.number| - |x| < (rMul a b).reg.ulp) ↔
      a.sig.toNat * b.sig.toNat % 2 ^ 64 * 2 ^ e < 2 ^ 64 * 2 ^ (rMul a b).reg.exp.toNat := by
  obtain ⟨hmagnitude, -, hexp_le⟩ := rMul_finite ha hb h hle
  have hvalue : (rMul a b).reg.value =
      .fin (signed (rMul a b).reg.sign ((rMul a b).reg.magnitude / 2 ^ 16446)) := by
    refine value_finite fun he => ?_
    unfold EXP_MAX at hle
    rw [toNat_exp_eq_max] at he
    omega
  generalize (rMul a b).reg = R at hmagnitude hvalue hexp_le ⊢
  have hunit : (2 : ℚ) ^ 16446 = (2 ^ 16446 : ℕ) := by rw [Nat.cast_pow, Nat.cast_ofNat]
  have hpos : (0 : ℚ) < 2 ^ 16446 := by positivity
  have hmul := h.magnitude
  rw [hvalue, abs_product, Reg.ulp]
  generalize (2 : ℚ) ^ 16446 = unit at hunit hpos ⊢
  generalize 2 ^ 16446 = units at hunit hmul
  rw [exact_product hunit hpos hmul, ← hmagnitude]
  generalize a.sig.toNat * b.sig.toNat % 2 ^ 64 * 2 ^ e = cut
  have habs : |signed R.sign (R.magnitude / unit)| = R.magnitude / unit := by
    rw [abs_signed, abs_of_nonneg (div_nonneg (Nat.cast_nonneg _) hpos.le)]
  have hless : (cut : ℚ) / 2 ^ 64 / unit < 2 ^ R.exp.toNat / unit ↔
      cut < 2 ^ 64 * 2 ^ R.exp.toNat := by
    rw [div_lt_div_iff_of_pos_right hpos, div_lt_iff₀' (by positivity)]
    exact_mod_cast Iff.rfl
  constructor
  · rintro ⟨x, hx, -, hlt⟩
    rw [← Value.fin.inj hx, habs, ← sub_div, add_sub_cancel_left] at hlt
    exact hless.mp hlt
  · intro hlt
    refine ⟨_, rfl, ?_, ?_⟩
    · rw [habs, div_le_div_iff_of_pos_right hpos]
      exact le_add_of_nonneg_right (by positivity)
    · rw [habs, ← sub_div, add_sub_cancel_left]
      exact hless.mpr hlt

/-- `r_mul` is less than one unit too small exactly if the last bit of the product is kept. -/
theorem rMul_within_iff (ha : a.Normal) (hb : b.Normal) (hrange : ProductInRange a b) :
    (∃ x, (rMul a b).reg.value = .fin x ∧ |x| ≤ |a.number * b.number| ∧
        |a.number * b.number| - |x| < (rMul a b).reg.ulp) ↔ KeepsProduct a b := by
  obtain ⟨e, h⟩ := productExp ha hb hrange
  have hlow := h.low
  have hhigh := h.high
  rw [KeepsProduct, h.exp]
  by_cases hle : e ≤ EXP_MAX
  · have hsig := productSig_ge ha hb
    rw [toNat_productSig] at hsig
    obtain ⟨hmagnitude, hshifted, -⟩ := rMul_finite ha hb h hle
    have hn : a.sig.toNat * b.sig.toNat < 2 ^ 64 * 2 ^ 64 :=
      Nat.mul_lt_mul'' a.sig.isLt b.sig.isLt
    rw [rMul_error ha hb h hle]
    generalize (rMul a b).reg = R at hmagnitude hshifted ⊢
    generalize a.sig.toNat * b.sig.toNat = n at *
    have hmod := Nat.mod_lt n (y := 2 ^ 64) (by positivity)
    by_cases htop : 2 ^ 127 ≤ n
    · have hexp : R.exp.toNat = e := by
        refine exp_eq_of_magnitude hshifted ?_ ?_
        · rw [hmagnitude]
          exact Nat.mul_le_mul_right _ (by omega)
        · rw [hmagnitude]
          exact Nat.mul_lt_mul_of_pos_right (Nat.div_lt_of_lt_mul hn) (by positivity)
      rw [hexp]
      exact iff_of_true (Nat.mul_lt_mul_of_pos_right hmod (by positivity)) (.inl htop)
    · -- The significand is shifted once.
      obtain ⟨e, rfl⟩ : ∃ e', e = e' + 1 := by
        refine Nat.exists_eq_succ_of_ne_zero fun hzero => ?_
        rw [hzero, pow_zero, mul_one] at hlow
        exact htop hlow
      have hpow : 2 ^ (e + 1) = 2 * 2 ^ e := pow_succ' 2 e
      have hexp : R.exp.toNat = e := by
        refine exp_eq_of_magnitude hshifted ?_ ?_
        · rw [hmagnitude, hpow, ← mul_assoc]
          exact Nat.mul_le_mul_right _ (by omega)
        · rw [hmagnitude, hpow, ← mul_assoc]
          exact Nat.mul_lt_mul_of_pos_right (by omega) (by positivity)
      rw [hexp, hpow, ← mul_assoc, Nat.mul_lt_mul_right (by positivity)]
      omega
  · have hlarge : ¬ 2 ^ 127 ≤ a.sig.toNat * b.sig.toNat := by
      intro htop
      have hpow : 2 ^ (EXP_MAX + 1) ≤ 2 ^ e := Nat.pow_le_pow_right (by decide) (by omega)
      have hmul : 2 ^ 127 * 2 ^ (EXP_MAX + 1) ≤ a.sig.toNat * b.sig.toNat * 2 ^ e :=
        Nat.mul_le_mul htop hpow
      rw [← pow_add] at hmul
      have := (Nat.pow_lt_pow_iff_right (by decide)).mp (hmul.trans_lt hhigh)
      omega
    refine iff_of_false ?_ ?_
    · rintro ⟨x, hx, -⟩
      exact rMul_special ha hb (by rw [h.exp]; omega) x hx
    · rintro (htop | ⟨hmax, -⟩)
      · exact hlarge htop
      · omega

theorem Reg.Normal.two_pow_le_magnitude (h : r.Normal) : 2 ^ 63 ≤ r.magnitude :=
  h.two_pow_le.trans (Nat.le_mul_of_pos_right _ (by positivity))

theorem Reg.Normal.magnitude_lt (h : r.Normal) : r.magnitude < 2 ^ (64 + EXP_MAX) := by
  have hexp := h.exp
  exact magnitude_lt_two_pow r (by omega)

theorem inRange_one (ha : a.Normal) : ProductInRange a CONST_1 := by
  rw [ProductInRange, magnitude_one]
  exact ⟨Nat.mul_le_mul_right _ ha.two_pow_le_magnitude,
    Nat.mul_lt_mul_of_pos_right ha.magnitude_lt (by positivity)⟩

theorem rMul_within_iff_one :
    (∃ x, (rMul CONST_1 CONST_1).reg.value = .fin x ∧ |x| ≤ |CONST_1.number * CONST_1.number| ∧
        |CONST_1.number * CONST_1.number| - |x| < (rMul CONST_1 CONST_1).reg.ulp) ↔
      KeepsProduct CONST_1 CONST_1 :=
  rMul_within_iff one_normal one_normal (inRange_one one_normal)

/-- The number after 1. -/
def afterOne : Reg := ⟨false, .valid, 16383, 1, 0x80000000⟩

theorem afterOne_normal : afterOne.Normal := ⟨rfl, by decide, by decide⟩

/-- The number after 1, times 1, is 1. -/
theorem rMul_afterOne_one : ¬ ∃ x, (rMul afterOne CONST_1).reg.value = .fin x ∧
    |x| ≤ |afterOne.number * CONST_1.number| ∧
    |afterOne.number * CONST_1.number| - |x| < (rMul afterOne CONST_1).reg.ulp := by
  obtain ⟨e, h⟩ := productExp afterOne_normal one_normal (inRange_one afterOne_normal)
  have hbiased : biasedExp afterOne CONST_1 = (16384 : ℕ) := by decide
  obtain rfl : 16384 = e := Int.ofNat.inj (hbiased.symm.trans h.exp)
  have hcut : afterOne.sig.toNat * CONST_1.sig.toNat % 2 ^ 64 = 2 ^ 63 := by decide
  have hexp : (rMul afterOne CONST_1).reg.exp.toNat = 16383 := by decide
  have hpow : 2 ^ 63 * 2 ^ 16384 = 2 ^ 64 * 2 ^ 16383 := by rw [← pow_add, ← pow_add]
  rw [rMul_error afterOne_normal one_normal h (by decide), hcut, hexp, hpow]
  exact lt_irrefl _

example : (rMul afterOne CONST_1).reg = CONST_1 := by decide

end DjgppLibc.Emu387
