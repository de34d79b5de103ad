import DjgppLibc.Emu387Integers
import DjgppLibc.Emu387Quotients
import DjgppLibc.HalvedDivision

/-!
# `fprem` in the 387 emulator

The remainder of two numbers whose exponents are near each other: `r_div`, a `long long`, `r_mul`
and `r_sub`. `r_div` halves the divisor and drops its bits one by one, `r_mul` keeps the upper half
of the product, and `r_sub` shifts the smaller number to the larger one.
-/
namespace DjgppLibc.Emu387

open X86 IntegerRounding HalvedDivision

/-- `fprem_do` for the top register; `t` is what `tmp` holds before. -/
def fpremDo (t div1 : Reg) (round : BitVec 16) : Emu (BitVec 32) := do
  let oldCw := (← get).fpu.controlWord
  onFpu fun f => { f with controlWord := f.controlWord &&& ~~~CW_RC ||| round }
  let quot := (← get).fpu.st 0
  let expdif := quot.exp.toInt - div1.exp.toInt
  let rv ←
    if expdif < 64 then do
      let tmp ← (rDiv t quot div1).deliver
      let q ← rMovToLongLong tmp
      let tmp2 ← (rMul div1 (rMovLongLong q)).deliver
      let tmp ← (rSub quot tmp2).deliver
      onFpu fun f => f.setSt 0 tmp
      pure ((q &&& 7).setWidth 32)
    else do
      onFpu (Fpu.setcc SW_C2)
      let tmp ← (rDiv t quot div1).deliver
      let q ← rMovToLongLong { tmp with exp := BitVec.ofNat 16 (62 + EXP_BIAS) }
      let tmp2 ← (rMul div1 { rMovLongLong q with exp := tmp.exp }).deliver
      let tmp ← (rSub quot tmp2).deliver
      onFpu fun f => f.setSt 0 tmp
      pure (-1)
  onFpu fun f => { f with controlWord := oldCw }
  return rv

def quotientBits (q : BitVec 32) : BitVec 16 :=
  (if q &&& 4 ≠ 0 then SW_C0 else 0) ||| (if q &&& 2 ≠ 0 then SW_C3 else 0) |||
    (if q &&& 1 ≠ 0 then SW_C1 else 0)

def fprem (t : Reg) : Emu Unit := do
  if ← empty 1 then return
  let sign := ((← get).fpu.st 0).sign
  let q ← fpremDo t ((← get).fpu.st 1) RC_CHOP
  onFpu fun f => f.setSt 0 { f.st 0 with sign := sign }
  if q = -1 then onFpu (Fpu.setcc SW_C2) else onFpu (Fpu.setcc (quotientBits q))

variable {x y a b t r : Reg} {m : Machine} {n k : ℕ} {al bl ql f : BitVec 64}

theorem toNat_divLoop (hf : f.toNat = 2 ^ n / 2) (hroom : ql.toNat + 2 ^ n ≤ 2 ^ 64) :
    (divLoop n al bl ql f).toNat = ql.toNat + halved n al.toNat bl.toNat := by
  induction n generalizing al bl ql f with
  | zero => rfl
  | succ n ih =>
      have hhalf : (f >>> 1).toNat = 2 ^ n / 2 := by
        rw [toNat_half, hf, pow_succ, Nat.mul_div_cancel _ (by decide)]
      have hadd : (ql + f).toNat = ql.toNat + 2 ^ n := by
        rw [pow_succ] at hroom
        rw [BitVec.toNat_add, hf, pow_succ, Nat.mul_div_cancel _ (by decide),
          Nat.mod_eq_of_lt (by omega)]
      rw [divLoop, halved]
      simp only [ge_iff_le, BitVec.le_def]
      rw [pow_succ] at hroom
      split
      · next hle =>
        rw [ih hhalf (by omega), hadd, BitVec.toNat_sub_of_le (BitVec.le_def.mpr hle), toNat_half,
          Nat.add_assoc]
      · rw [ih hhalf (by omega), toNat_half]

theorem rSub_valid (ha : a.tag = .valid) : (rSub a b).raised = none := by
  unfold rSub
  simp only [ha, reduceCtorEq, if_false]
  split_ifs <;> rfl

theorem rMul_valid (ha : a.tag = .valid) : (rMul a b).raised = none := by
  unfold rMul Outcome.finish
  simp only [ha, reduceCtorEq, if_false, false_and]
  split_ifs <;> rfl

def Near (x y : Reg) : Prop := |x.exp.toInt - y.exp.toInt| < 64

/-- How many bits of the quotient there are in front of the point, or one more. -/
def expGap (x y : Reg) : ℕ := x.exp.toNat - y.exp.toNat

def topBit (x y : Reg) : ℕ := if y.sig.toNat ≤ x.sig.toNat then 1 else 0

def foundQuotient (x y : Reg) : ℕ :=
  halved 64 x.sig.toNat y.sig.toNat * 2 ^ (x.exp.toNat + 16383 - y.exp.toNat) / 2 ^ 16446

theorem toNat_quotientReg (x y : Reg) :
    (quotientReg x y).sig.toNat = halved 64 x.sig.toNat y.sig.toNat := by
  have hloop := @toNat_divLoop 64 x.sig y.sig 0 (1 <<< 63) rfl le_rfl
  rw [quotientReg, sig_setSig, hloop]
  exact Nat.zero_add _

theorem quotientReg_sig_ne (hx : x.Normal) (y : Reg) : (quotientReg x y).sig ≠ 0 := by
  have hhalf : y.sig.toNat / 2 ≤ x.sig.toNat := by
    have hge := hx.two_pow_le
    have hlt := y.sig.isLt
    omega
  have hge : 2 ^ 62 ≤ halved 64 x.sig.toNat y.sig.toNat := HalvedDivision.halved_ge hhalf 62
  rw [← toNat_quotientReg] at hge
  intro hzero
  rw [hzero] at hge
  exact absurd hge (by decide)

theorem rDiv_near (t : Reg) (hx : x.Normal) (hy : y.Normal) (h : Near x y) :
    rDiv t x y = .plain (quotientReg x y).shiftTop ∧
      (quotientReg x y).exp.toNat = x.exp.toNat + 16383 - y.exp.toNat ∧
      (quotientReg x y).exp.toNat ≤ 16446 := by
  obtain ⟨hlo, hhi⟩ := abs_lt.mp h
  rw [hx.toInt_exp, hy.toInt_exp] at hlo hhi
  have hexp : quotientExp x y = (x.exp.toNat + 16383 - y.exp.toNat : ℕ) := by
    rw [quotientExp, hx.toInt_exp, hy.toInt_exp, EXP_BIAS]
    omega
  have hnat : (quotientReg x y).exp.toNat = x.exp.toNat + 16383 - y.exp.toNat := by
    change (BitVec.ofInt 16 (quotientExp x y)).toNat = _
    rw [hexp, BitVec.ofInt_natCast, BitVec.toNat_ofNat]
    omega
  have hint : (BitVec.ofInt 16 (quotientExp x y)).toInt =
      (x.exp.toNat + 16383 - y.exp.toNat : ℕ) := by
    change (quotientReg x y).exp.toInt = _
    rw [Emu387.toInt_exp (by unfold EXP_MAX; omega), hnat]
  refine ⟨?_, hnat, by omega⟩
  have hmax : ¬ ((x.exp.toNat + 16383 - y.exp.toNat : ℕ) : ℤ) > EXP_MAX := by
    unfold EXP_MAX
    omega
  have hmin : ¬ ((x.exp.toNat + 16383 - y.exp.toNat : ℕ) : ℤ) ≤ 0 := by omega
  simp only [rDiv, hx.valid, hy.valid, reduceCtorEq, if_false, hint, hmax, hmin]
  change Outcome.plain (normalizeShort (quotientReg x y)) = _
  rw [normalizeShort, if_neg (quotientReg_sig_ne hx y), if_neg]
  change ¬ (BitVec.ofInt 16 (quotientExp x y)).toInt > EXP_MAX
  rw [hint]
  exact hmax

theorem foundQuotient_eq (hx : x.Normal) (hy : y.Normal) (h : Near x y)
    (hle : y.exp.toNat ≤ x.exp.toNat) :
    foundQuotient x y = halved (expGap x y + 1) x.sig.toNat y.sig.toNat := by
  obtain ⟨-, hhi⟩ := abs_lt.mp h
  rw [hx.toInt_exp, hy.toInt_exp] at hhi
  have hgap : x.exp.toNat = y.exp.toNat + expGap x y := (Nat.add_sub_cancel' hle).symm
  obtain ⟨k, hk⟩ : ∃ k, 63 = expGap x y + k := Nat.exists_eq_add_of_le (by omega)
  have hexp : x.exp.toNat + 16383 - y.exp.toNat = expGap x y + 16383 := by omega
  have hsum : 16446 = k + (expGap x y + 16383) := by omega
  have hbits : 64 = expGap x y + 1 + k := by omega
  have hdiv := halved_div (expGap x y + 1) k x.sig.toNat y.sig.toNat
  rw [← hbits] at hdiv
  rw [foundQuotient, hexp, hsum, pow_add 2 k, Nat.mul_div_mul_right _ _ (by positivity), hdiv]

theorem foundQuotient_zero (hlt : x.exp.toNat < y.exp.toNat) : foundQuotient x y = 0 := by
  rw [foundQuotient]
  refine Nat.div_eq_of_lt ?_
  have hlt : _ < 2 ^ 64 * 2 ^ (x.exp.toNat + 16383 - y.exp.toNat) :=
    Nat.mul_lt_mul_of_pos_right (halved_lt 64 x.sig.toNat y.sig.toNat) (by positivity)
  rw [← pow_add] at hlt
  exact hlt.trans_le (pow_le_pow_right₀ one_le_two (by omega))

def quotientBitCount (x y : Reg) : ℕ := expGap x y + topBit x y

structure AtLeastOne (x y : Reg) : Prop where
  exp : x.exp.toNat = y.exp.toNat + expGap x y
  gap : expGap x y < 64
  pos : 0 < quotientBitCount x y

theorem atLeastOne (hx : x.Normal) (hy : y.Normal) (h : Near x y)
    (hle : y.magnitude ≤ x.magnitude) : AtLeastOne x y := by
  obtain ⟨-, hhi⟩ := abs_lt.mp h
  rw [hx.toInt_exp, hy.toInt_exp] at hhi
  have hexp := exp_le_of_magnitude_le hy hle
  have hgap : x.exp.toNat = y.exp.toNat + expGap x y := (Nat.add_sub_cancel' hexp).symm
  refine ⟨hgap, by omega, Nat.pos_of_ne_zero fun hzero => ?_⟩
  obtain ⟨hnone, htop⟩ := Nat.add_eq_zero_iff.mp hzero
  rw [hnone, Nat.add_zero] at hgap
  rw [Reg.magnitude, Reg.magnitude, hgap, Nat.mul_le_mul_right_iff (by positivity)] at hle
  rw [topBit, if_pos hle] at htop
  exact absurd htop one_ne_zero

/-- The quotient that is found has as many bits as the right one. -/
theorem foundQuotient_bits (hx : x.Normal) (hy : y.Normal) (h : Near x y)
    (hone : AtLeastOne x y) : 2 ^ quotientBitCount x y ≤ 2 * foundQuotient x y ∧
      foundQuotient x y < 2 ^ quotientBitCount x y := by
  have hpos := hone.pos
  rw [foundQuotient_eq hx hy h (by have := hone.exp; omega)]
  unfold quotientBitCount topBit at hpos ⊢
  generalize expGap x y = d at hpos ⊢
  by_cases htop : y.sig.toNat ≤ x.sig.toNat
  · rw [if_pos htop]
    refine ⟨?_, halved_lt _ _ _⟩
    rw [halved, if_pos htop, pow_succ]
    omega
  · rw [if_neg htop] at hpos ⊢
    obtain ⟨d, rfl⟩ := Nat.exists_eq_add_of_lt hpos
    have hhalf : y.sig.toNat / 2 ≤ x.sig.toNat := by
      have hge := hx.two_pow_le
      omega
    have hge : 2 ^ d ≤ halved (d + 1 + 1) x.sig.toNat y.sig.toNat :=
      HalvedDivision.halved_ge hhalf d
    rw [Nat.zero_add, Nat.add_zero, pow_succ]
    refine ⟨by omega, ?_⟩
    rw [halved, if_neg htop, ← pow_succ]
    exact halved_lt _ _ _

/-- What the `long long` gets. -/
def foundInt (x y : Reg) : BitVec 64 :=
  BitVec.ofInt 64 (withSign (x.sign != y.sign) (foundQuotient x y : ℤ))

theorem roundingMode_chop (controlWord : BitVec 16) :
    roundingMode (controlWord &&& ~~~CW_RC ||| RC_CHOP) = .chop := by
  have hbits : (controlWord &&& ~~~CW_RC ||| RC_CHOP) &&& CW_RC = RC_CHOP := by
    have hnot : ~~~CW_RC &&& CW_RC = 0 := by decide
    have hall : RC_CHOP &&& CW_RC = RC_CHOP := by decide
    rw [BitVec.and_comm, BitVec.and_or_distrib_left, BitVec.and_comm CW_RC, BitVec.and_assoc, hnot,
      BitVec.and_comm CW_RC, hall]
    simp
  rw [roundingMode, hbits]
  decide

theorem store_quotient (hx : x.Normal) (hy : y.Normal) (h : Near x y)
    (hchop : roundingMode m.fpu.controlWord = .chop) :
    rMovToLongLong (quotientReg x y).shiftTop m = some (foundInt x y, m) := by
  obtain ⟨-, hexp, hle⟩ := rDiv_near x hx hy h
  have hshift : (quotientReg x y).shiftTop.exp.toNat ≤ 16446 :=
    (exp_shiftTop _).trans_le ((shiftUp_le _ _).trans hle)
  have hne : (quotientReg x y).shiftTop.exp ≠ 32767 := by
    rw [Ne, toNat_exp_eq_max]
    omega
  have hvalue := value_finite (r := (quotientReg x y).shiftTop) fun he => absurd he hne
  have hext : (quotientReg x y).shiftTop.Extended := by
    refine ⟨hshift.trans (by decide), iff_of_false ?_ ?_⟩
    · exact fun htag => nomatch htag
    · rw [sig_shiftTop_eq_zero]
      exact quotientReg_sig_ne hx y
  have hchopped := Mode.chop_rounds (x.sign != y.sign) (quotientReg x y).magnitude (2 ^ 16446)
  refine store_ofInt .longLong hext hvalue ?_ ?_ (.inl rfl)
  · rw [toInt_exp (hshift.trans (by decide))]
    exact_mod_cast hshift
  · rw [hchop]
    have hunit : ((2 ^ 16446 : ℕ) : ℚ) = 2 ^ 16446 := by rw [Nat.cast_pow, Nat.cast_ofNat]
    rw [hunit] at hchopped
    rw [magnitude_shiftTop]
    have hmagnitude : (quotientReg x y).magnitude / 2 ^ 16446 = foundQuotient x y := by
      rw [Reg.magnitude, toNat_quotientReg, hexp, foundQuotient]
    rw [hmagnitude] at hchopped
    exact hchopped

def foundProduct (x y : Reg) : Reg := (rMul y (rMovLongLong (foundInt x y))).reg

def foundRest (x y : Reg) : Reg := { (rSub x (foundProduct x y)).reg with sign := x.sign }

theorem deliver_plain {o : Outcome} (h : o.raised = none) (m : Machine) :
    o.deliver m = some (o.reg, m) := by
  obtain ⟨raised, r⟩ := o
  obtain rfl : raised = none := h
  rfl

theorem fpremDo_eq (t : Reg) (hx : (m.fpu.st 0).Normal) (hy : y.Normal)
    (h : Near (m.fpu.st 0) y) : fpremDo t y RC_CHOP m =
      some ((foundInt (m.fpu.st 0) y &&& 7).setWidth 32,
        { m with fpu := m.fpu.setSt 0 (rSub (m.fpu.st 0) (foundProduct (m.fpu.st 0) y)).reg }) := by
  obtain ⟨x, hst⟩ : ∃ x, m.fpu.st 0 = x := ⟨_, rfl⟩
  rw [hst] at hx h ⊢
  obtain ⟨m₁, hm₁⟩ : ∃ m₁ : Machine, m₁ = { m with fpu := { m.fpu with
      controlWord := m.fpu.controlWord &&& ~~~CW_RC ||| RC_CHOP } } := ⟨_, rfl⟩
  have hchop : roundingMode m₁.fpu.controlWord = .chop := by
    rw [hm₁]
    exact roundingMode_chop _
  have hst₁ : m₁.fpu.st 0 = x := by
    rw [hm₁]
    exact hst
  have hexp : x.exp.toInt - y.exp.toInt < 64 := (abs_lt.mp h).2
  have hdiv := (rDiv_near t hx hy h).1
  have hquotient : (rDiv t x y).deliver m₁ = some ((quotientReg x y).shiftTop, m₁) := by
    rw [hdiv]
    rfl
  have hstore := store_quotient hx hy h hchop
  have hproduct := deliver_plain (rMul_valid (b := rMovLongLong (foundInt x y)) hy.valid) m₁
  have hrest := deliver_plain (rSub_valid (b := foundProduct x y) hx.valid) m₁
  have hset : onFpu (fun f => { f with controlWord := f.controlWord &&& ~~~CW_RC ||| RC_CHOP }) m =
      some ((), m₁) := by
    rw [hm₁]
    rfl
  have hget : (get : Emu Machine) m₁ = some (m₁, m₁) := rfl
  refine (bind_some rfl).trans ((bind_some hset).trans ((bind_some hget).trans ?_))
  rw [hst₁, if_pos hexp]
  refine (bind_some hquotient).trans ((bind_some hstore).trans
    ((bind_some hproduct).trans ((bind_some hrest).trans ?_)))
  rw [hm₁]
  rfl

theorem setSt_setSt (f : Fpu) (i : Fin 8) (r r' : Reg) :
    (f.setSt i r).setSt i r' = f.setSt i r' := by
  simp only [Fpu.setSt]
  congr 1
  funext k
  split_ifs <;> rfl

theorem fprem_eq (t : Reg) (hx : (m.fpu.st 0).Normal) (hy : (m.fpu.st 1).Normal)
    (h : Near (m.fpu.st 0) (m.fpu.st 1)) : fprem t m = some ((), { m with
      fpu := (m.fpu.setSt 0 (foundRest (m.fpu.st 0) (m.fpu.st 1))).setcc
        (quotientBits ((foundInt (m.fpu.st 0) (m.fpu.st 1) &&& 7).setWidth 32)) }) := by
  have hne : (m.fpu.st 1).tag ≠ .empty := by
    rw [hy.valid]
    decide
  have hbits : (foundInt (m.fpu.st 0) (m.fpu.st 1) &&& 7).setWidth 32 ≠ (-1 : BitVec 32) := by
    intro hall
    have hbit := congrArg (fun q : BitVec 32 => q.getLsbD 3) hall
    simp at hbit
  refine (bind_some (empty_passes hne)).trans ((bind_some rfl).trans ((bind_some rfl).trans
    ((bind_some (fpremDo_eq t hx hy h)).trans ((bind_some rfl).trans ?_))))
  rw [if_neg hbits]
  have hrest (r : Reg) (s : Bool) : (m.fpu.setSt 0 r).setSt 0
      { (m.fpu.setSt 0 r).st 0 with sign := s } = m.fpu.setSt 0 { r with sign := s } := by
    rw [setSt_setSt, st_setSt, if_pos rfl]
  rw [foundRest, ← hrest _ (m.fpu.st 0).sign]
  rfl

theorem normal_of_shifted (htag : r.tag = .valid) (hshifted : r.Shifted)
    (hexp : r.exp.toNat ≤ EXP_MAX) (hlow : 2 ^ 63 ≤ r.magnitude) : r.Normal := by
  refine ⟨htag, hshifted.elim id fun hzero => ?_, hexp⟩
  rw [Reg.magnitude, hzero, pow_zero, mul_one] at hlow
  exact msb_of_two_pow_le hlow

theorem normalizeShort_shifted (htag : r.tag = .valid) (hsig : (normalizeShort r).sig ≠ 0)
    (hexp : (normalizeShort r).exp.toInt ≤ EXP_MAX) :
    (normalizeShort r).tag = .valid ∧ (normalizeShort r).Shifted := by
  unfold normalizeShort at hsig hexp ⊢
  split_ifs at hsig hexp ⊢ with hzero hlarge
  · exact absurd hzero hsig
  · exact absurd hexp hlarge.not_ge
  · exact ⟨htag, shiftTop_ends r⟩

theorem sign_normalizeShort (r : Reg) : (normalizeShort r).sign = r.sign := by
  unfold normalizeShort
  split_ifs <;> rfl

/-- An integer other than zero is loaded as a number. -/
theorem loaded_normal {q : BitVec 64} (hq : q.toInt ≠ 0) : (rMovLongLong q).Normal ∧
    (rMovLongLong q).magnitude = q.toInt.natAbs * 2 ^ 16446 := by
  obtain ⟨hext, hvalue⟩ := rMovInt_toInt (by decide) le_rfl q
  have hvalue : (rMovLongLong q).value = .fin q.toInt := hvalue
  have hmagnitude : (rMovLongLong q).magnitude = q.toInt.natAbs * 2 ^ 16446 := by
    have habs := congrArg abs (value_eq_fin hvalue).1
    have hunit : (2 : ℚ) ^ 16446 = (2 ^ 16446 : ℕ) := by rw [Nat.cast_pow, Nat.cast_ofNat]
    have hpos : (0 : ℚ) < 2 ^ 16446 := by positivity
    rw [abs_signed, abs_of_nonneg (div_nonneg (Nat.cast_nonneg _) hpos.le), eq_div_iff hpos.ne',
      hunit, ← Int.cast_abs, ← Nat.cast_natAbs] at habs
    generalize 2 ^ 16446 = units at habs ⊢
    exact_mod_cast habs.symm
  have hsig : (rMovLongLong q).sig ≠ 0 := by
    rw [Ne, ← magnitude_eq_zero, hmagnitude]
    exact mul_ne_zero (Int.natAbs_ne_zero.mpr hq) (by positivity)
  have hexp : (rMovLongLong q).exp.toInt ≤ EXP_BIAS + 63 := exp_rMovInt_le le_rfl q.toInt
  have hmax : (rMovLongLong q).exp.toInt ≤ EXP_MAX := hexp.trans (by decide)
  have hnat : (rMovLongLong q).exp.toNat ≤ EXP_MAX := by
    have hint := toInt_exp hext.exp
    change (rMovLongLong q).exp.toInt = (rMovLongLong q).exp.toNat at hint
    omega
  have hends : (rMovLongLong q).tag = .valid ∧ (rMovLongLong q).Shifted := by
    unfold rMovLongLong rMovInt at hsig hmax ⊢
    rw [if_neg hq] at hsig hmax ⊢
    exact normalizeShort_shifted rfl hsig hmax
  refine ⟨normal_of_shifted hends.1 hends.2 hnat ?_, hmagnitude⟩
  rw [hmagnitude]
  calc 2 ^ 63 ≤ 2 ^ 16446 := pow_le_pow_right₀ one_le_two (by decide)
    _ ≤ _ := Nat.le_mul_of_pos_left _ (Int.natAbs_pos.mpr hq)

theorem product_normal {z : Reg} {L : ℕ} (hy : y.Normal) (hz : z.Normal)
    (hexp : z.exp.toNat = 16382 + L) (hpos : 0 < L) (hle : y.exp.toNat + L ≤ EXP_MAX) :
    (rMul y z).reg.Normal ∧ (rMul y z).reg.magnitude =
      y.sig.toNat * z.sig.toNat / 2 ^ 64 * 2 ^ (y.exp.toNat + L) := by
  have hsig := productSig_ge hy hz
  rw [toNat_productSig] at hsig
  have hn : y.sig.toNat * z.sig.toNat < 2 ^ 64 * 2 ^ 64 := Nat.mul_lt_mul'' y.sig.isLt z.sig.isLt
  have htwo : 2 ^ 1 ≤ 2 ^ (y.exp.toNat + L) := Nat.pow_le_pow_right (by decide) (by omega)
  have hbiased : biasedExp y z = (y.exp.toNat + L : ℕ) := by
    rw [biasedExp, hy.toInt_exp, hz.toInt_exp, hexp, EXP_BIAS]
    omega
  have hproduct : ProductExp y z (y.exp.toNat + L) := by
    refine ⟨hbiased, ?_, ?_, ?_⟩
    · have hpow : 2 ^ y.exp.toNat * 2 ^ z.exp.toNat * 2 ^ 64 =
          2 ^ (y.exp.toNat + L) * 2 ^ 16446 := by
        rw [← pow_add, ← pow_add, ← pow_add]
        congr 1
        omega
      rw [mul_assoc _ _ (2 ^ 16446), ← hpow, Reg.magnitude, Reg.magnitude]
      ring
    · calc 2 ^ 127 = 2 ^ 63 * 2 ^ 63 * 2 ^ 1 := rfl
        _ ≤ _ := Nat.mul_le_mul (Nat.mul_le_mul hy.two_pow_le hz.two_pow_le) htwo
    · calc _ < 2 ^ 64 * 2 ^ 64 * 2 ^ (y.exp.toNat + L) :=
            Nat.mul_lt_mul_of_pos_right hn (by positivity)
        _ = 2 ^ (128 + (y.exp.toNat + L)) := (pow_add 2 128 _).symm
        _ ≤ _ := Nat.pow_le_pow_right (by decide) (by omega)
  obtain ⟨hmagnitude, hshifted, hexp'⟩ := rMul_finite hy hz hproduct hle
  have hlow : 2 ^ 63 ≤ (rMul y z).reg.magnitude := by
    rw [hmagnitude]
    exact Nat.mul_le_mul hsig htwo
  refine ⟨normal_of_shifted ?_ hshifted (hexp'.trans hle) hlow, hmagnitude⟩
  have hreg := congrArg Outcome.reg (rMul_eq hy hz)
  have hne : (rMul y z).reg.sig ≠ 0 := by
    rw [Ne, ← magnitude_eq_zero]
    omega
  have hint : (rMul y z).reg.exp.toInt ≤ EXP_MAX := by
    rw [toInt_exp (by omega)]
    omega
  rw [hreg] at hne hint ⊢
  exact (normalizeShort_shifted rfl hne hint).1

variable {p s u : Reg}

theorem addTo_ge (hexp : s.exp.toNat ≤ EXP_MAX) : s.magnitude ≤ (addTo s u).magnitude := by
  have hs := s.sig.isLt
  have hu := (u.sig >>> (s.exp.toInt - u.exp.toInt).toNat).isLt
  rw [addTo]
  dsimp only
  generalize (u.sig >>> (s.exp.toInt - u.exp.toInt).toNat).toNat = n at hu ⊢
  split_ifs with hfar hcarry
  · exact le_rfl
  · have hsig : (carried s (s.sig.toNat + n)).sig.toNat = (s.sig.toNat + n) / 2 := by
      rw [← halved_sum hcarry (by omega)]
      exact congrArg BitVec.toNat (sig_setSig (s.setSig (BitVec.ofNat 64 (s.sig.toNat + n))) _)
    have hone : (1 : BitVec 16).toNat = 1 := rfl
    have hsucc : (carried s (s.sig.toNat + n)).exp.toNat = s.exp.toNat + 1 :=
      (BitVec.toNat_add _ _).trans (Nat.mod_eq_of_lt (by unfold EXP_MAX at hexp; omega))
    rw [(settled_spec _).1, Reg.magnitude, Reg.magnitude, hsig, hsucc, pow_succ', ← mul_assoc]
    exact Nat.mul_le_mul_right _ (by omega)
  · have hsig : (s.setSig (BitVec.ofNat 64 (s.sig.toNat + n))).sig.toNat = s.sig.toNat + n := by
      rw [sig_setSig, BitVec.toNat_ofNat, Nat.mod_eq_of_lt (Nat.lt_of_not_le hcarry)]
    rw [(settled_spec _).1, Reg.magnitude, Reg.magnitude, hsig]
    exact Nat.mul_le_mul_right _ (Nat.le_add_right _ _)

theorem dif_pos_iff_normal (hx : x.Normal) (hp : p.Normal) :
    0 < dif x p ↔ p.magnitude < x.magnitude := by
  have hxmax := hx.exp
  have hpmax := hp.exp
  exact dif_pos_iff_magnitude (.inl hx.top) (.inl hp.top) (by omega) (by omega)

theorem rUadd_ge (hx : x.Normal) (hp : p.Normal) : x.magnitude ≤ (rUadd x p).magnitude := by
  have hdif := dif_pos_iff_normal hx hp
  rw [rUadd_eq]
  split_ifs with hpos
  · exact addTo_ge hx.exp
  · exact (not_lt.mp (hdif.not.mp hpos)).trans (addTo_ge hp.exp)

theorem rest_opposite (hx : x.Normal) (hp : p.Normal) (hsign : x.sign ≠ p.sign) {v : ℚ}
    (hv : ({ (rSub x p).reg with sign := x.sign } : Reg).value = .fin v) :
    (x.magnitude : ℚ) / 2 ^ 16446 ≤ |v| := by
  have hsub : (rSub x p).reg = { rUadd x p with sign := x.sign } := by
    simp only [rSub, hx.valid, hp.valid, reduceCtorEq, if_false, hsign]
    rfl
  have hpos : (0 : ℚ) < 2 ^ 16446 := by positivity
  rw [hsub] at hv
  have hle : x.magnitude ≤ (rUadd x p).magnitude := rUadd_ge hx hp
  rw [(value_eq_fin hv).1, abs_signed, abs_of_nonneg (div_nonneg (Nat.cast_nonneg _) hpos.le),
    div_le_div_iff_of_pos_right hpos]
  exact_mod_cast hle

theorem rest_special (hx : x.Normal) (htag : p.tag = .special) (hexp : p.exp = 32767)
    (hsig : p.sig ≠ 0) (v : ℚ) :
    ({ (rSub x p).reg with sign := x.sign } : Reg).value ≠ .fin v := by
  have hsub : (rSub x p).reg = { p with sign := !p.sign } := by
    simp only [rSub, hx.valid, htag, reduceCtorEq, if_false, if_true]
    rfl
  rw [hsub]
  exact value_ne_fin (r := { p with sign := x.sign }) hexp hsig v

/-- The magnitude of a difference, with what the shift of the smaller number loses. -/
def restMagnitude (x p : Reg) : ℕ :=
  if p.magnitude < x.magnitude then x.magnitude - p.magnitude + p.magnitude % 2 ^ x.exp.toNat
  else p.magnitude - x.magnitude + x.magnitude % 2 ^ p.exp.toNat

theorem rest_same (hx : x.Normal) (hp : p.Normal) (hsign : x.sign = p.sign) :
    ({ (rSub x p).reg with sign := x.sign } : Reg).value =
      .fin (signed x.sign (restMagnitude x p / 2 ^ 16446)) := by
  have hfinite (a b : Reg) (ha : a.Normal) (hb : b.Normal) (hle : b.magnitude ≤ a.magnitude) :
      ({ rUsub a b with sign := x.sign } : Reg).value = .fin (signed x.sign
        ((a.magnitude - b.magnitude + b.magnitude % 2 ^ a.exp.toNat : ℕ) / 2 ^ 16446)) := by
    obtain ⟨hmagnitude, -, hexp⟩ := rUsub_spec ha hb hle
    rw [← hmagnitude]
    refine value_finite (r := { rUsub a b with sign := x.sign }) fun he => ?_
    have hmax := ha.exp
    have hnat := (toNat_exp_eq_max _).mp he
    unfold EXP_MAX at hmax
    change (rUsub a b).exp.toNat = 32767 at hnat
    omega
  have hdif := dif_pos_iff_normal hx hp
  simp only [rSub, hx.valid, hp.valid, reduceCtorEq, if_false, hsign, if_true, gt_iff_lt, hdif]
  rw [restMagnitude]
  split_ifs with hlt
  · exact hsign ▸ hfinite x p hx hp hlt.le
  · exact hsign ▸ hfinite p x hp hx (not_lt.mp hlt)

end DjgppLibc.Emu387
