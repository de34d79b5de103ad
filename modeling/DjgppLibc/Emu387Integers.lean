import DjgppLibc.Emu387Rounding

/-!
# Integers in memory in the 387 emulator

`fild` and `fist` for the three formats of integers. `r_mov` to a `short` or a `long` takes every
integer whose magnitude does not fit for one that is out of range, and stores -1 for it; `r_mov`
to a `long long` has no test at all.
-/
namespace DjgppLibc.Emu387

open X86 IntegerRounding

/-- `r_mov` to an integer with fewer bits than a half of the significand: what is stored for an
infinity, and the bits of the lower half that do not fit. -/
def rMovToSmall {w : ℕ} (infinity : BitVec w) (high : BitVec 32) (s : Reg) : Emu (BitVec w) := do
  if s.tag = .special ∧ isInf s then
    raise EX_I
    return infinity
  let t := roundToInt (← get).fpu.controlWord s
  return if t.sigh ≠ 0 ∨ t.sigl &&& high ≠ 0 then -1
    else (if s.sign then -t.sigl else t.sigl).setWidth w

def rMovToLong : Reg → Emu (BitVec 32) := rMovToSmall 0x80000000 0x80000000

def rMovToShort : Reg → Emu (BitVec 16) := rMovToSmall (-32767) 0xFFFF8000

/-- The formats of `fild` and `fist`. -/
inductive IntFormat
  | short
  | long
  | longLong
deriving DecidableEq

def IntFormat.bits : IntFormat → ℕ
  | .short => 16
  | .long => 32
  | .longLong => 64

def IntFormat.load : (f : IntFormat) → BitVec f.bits → Reg
  | .short => rMovShort
  | .long => rMovLong
  | .longLong => rMovLongLong

def IntFormat.store : (f : IntFormat) → Reg → Emu (BitVec f.bits)
  | .short => rMovToShort
  | .long => rMovToLong
  | .longLong => rMovToLongLong

def IntFormat.Fits (f : IntFormat) (k : ℤ) : Prop := -2 ^ (f.bits - 1) ≤ k ∧ k < 2 ^ (f.bits - 1)

variable {r : Reg} {m : Machine} {q : ℚ} {k : ℤ} {controlWord : BitVec 16}

theorem roundToInt_sign : (roundToInt controlWord r).sign = r.sign := by
  unfold roundToInt
  dsimp only
  split_ifs <;> rfl

/-- A number that is too large for the significand becomes the largest one. -/
theorem roundToInt_large (htag : r.tag ≠ .zero) (h : r.exp.toInt > EXP_BIAS + 63) :
    (roundToInt controlWord r).sig = -1 := by
  have hcut : r.cut.exp = max (max r.exp.toInt (EXP_BIAS + 62)) (EXP_BIAS + 63) := rfl
  rw [roundToInt, if_neg htag]
  dsimp only
  rw [if_pos (by omega), sig_setSig]

theorem rounded_rounds (h : r.exp.toInt ≤ EXP_BIAS + 63) (controlWord : BitVec 16) :
    (roundingMode controlWord).Rounds (signed r.sign r.absolute)
      (withSign r.sign (r.rounded controlWord : ℤ)) := by
  obtain ⟨-, hflags⟩ := cut_spec r
  have hrounds := (roundingMode controlWord).rounds r.sign hflags (by positivity)
  rw [← increased_eq, ← absolute_eq h] at hrounds
  exact hrounds

theorem roundToInt_whole (h : r.exp.toInt = EXP_BIAS + 63) :
    (roundToInt controlWord r).sig.toNat = r.rounded controlWord := by
  obtain ⟨hsig, hflags⟩ := cut_spec r
  have hbits : r.fractionBits = 0 := by
    rw [Reg.fractionBits, h, sub_self]
    rfl
  rw [hbits, pow_zero] at hflags hsig
  have hhalf : r.cut.halfOrMore = false := by
    rw [Bool.eq_false_iff, Ne, hflags.half, Nat.mod_one]
    decide
  have hmore : r.cut.moreThanHalf = false := by
    rw [Bool.eq_false_iff, Ne, hflags.more, Nat.mod_one]
    simp
  have hstay : r.cut.increased controlWord r.sign = false := by
    simp [Cut.increased, hhalf, hmore]
  have hcut : r.cut.exp = max (max r.exp.toInt (EXP_BIAS + 62)) (EXP_BIAS + 63) := rfl
  rw [Nat.div_one] at hsig
  rw [Reg.rounded, hstay, hbits, pow_zero, Nat.div_one, Bool.toNat_false, Nat.add_zero]
  by_cases htag : r.tag = .zero
  · rw [roundToInt, if_pos htag]
  · rw [roundToInt, if_neg htag]
    dsimp only
    rw [if_neg (by omega), hstay, sig_setSig, if_neg (by decide), hsig]

theorem roundToInt_rounds (hext : r.Extended) (hvalue : r.value = .fin q)
    (h : r.exp.toInt ≤ EXP_BIAS + 63) (hk : (roundingMode controlWord).Rounds q k) :
    (roundToInt controlWord r).sig.toNat = k.natAbs ∧ k = withSign r.sign (k.natAbs : ℤ) := by
  have hq := (value_eq_fin hvalue).1
  rw [magnitude_div hext.exp] at hq
  rw [hq] at hk
  have heq := hk.unique (rounded_rounds h controlWord)
  have habs : k.natAbs = r.rounded controlWord := by rw [heq, natAbs_withSign]
  rw [habs]
  refine ⟨?_, heq⟩
  by_cases hless : r.exp.toInt ≤ EXP_BIAS + 62
  · exact (roundToInt_sig hless hext).1
  · exact roundToInt_whole (by omega)

theorem and_high_eq_zero {w n : ℕ} {x high low : BitVec w} (hlow : low.toNat = 2 ^ n - 1)
    (hor : high ||| low = BitVec.allOnes w) (hand : high &&& low = 0) :
    x &&& high = 0 ↔ x.toNat < 2 ^ n := by
  constructor
  · intro hzero
    have hx : x = x &&& low := by
      calc x = x &&& (high ||| low) := by rw [hor, BitVec.and_allOnes]
        _ = x &&& high ||| x &&& low := by rw [BitVec.and_or_distrib_left]
        _ = x &&& low := by rw [hzero]; exact BitVec.zero_or
    rw [hx, toNat_and_mask _ _ hlow]
    exact Nat.mod_lt _ (by positivity)
  · intro hlt
    have hx : x &&& low = x :=
      BitVec.eq_of_toNat_eq (by rw [toNat_and_mask _ _ hlow, Nat.mod_eq_of_lt hlt])
    rw [← hx, BitVec.and_assoc, BitVec.and_comm low, hand]
    exact BitVec.and_zero

theorem ofInt_withSign {w n : ℕ} (s : Bool) (x : BitVec w) (hx : x = BitVec.ofNat w n) :
    (if s then -x else x) = BitVec.ofInt w (withSign s (n : ℤ)) := by
  rw [hx, ← BitVec.ofInt_natCast]
  cases s
  · rfl
  · exact BitVec.ofInt_neg.symm

theorem setWidth_withSign {w : ℕ} (hw : w ≤ 32) (s : Bool) (x : BitVec 32) :
    (if s then -x else x).setWidth w = if s then -x.setWidth w else x.setWidth w := by
  cases s
  · rfl
  · exact BitVec.setWidth_neg_of_le hw

theorem not_special_inf (hvalue : r.value = .fin q) :
    ¬ (r.tag = .special ∧ isInf r) := by
  rintro ⟨-, hinf⟩
  have hexp : r.exp = 32767 := by rcases hinf with hinf | hinf <;> exact hinf.2.1
  have hsig := (value_eq_fin hvalue).2 hexp
  have htop : r.sigh = 0x80000000 := by rcases hinf with hinf | hinf <;> exact hinf.2.2.2
  have hzero : r.sig.toNat = 0 := congrArg BitVec.toNat hsig
  have hhalf : r.sigh.toNat = 0x80000000 := congrArg BitVec.toNat htop
  rw [toNat_sig] at hzero
  omega

theorem toLongLong_eq (hvalue : r.value = .fin q) :
    rMovToLongLong r m = some (if r.sign then -(roundToInt m.fpu.controlWord r).sig
      else (roundToInt m.fpu.controlWord r).sig, m) := by
  have hrun : rMovToLongLong r m = some (if (roundToInt m.fpu.controlWord r).sign then
      -(roundToInt m.fpu.controlWord r).sig else (roundToInt m.fpu.controlWord r).sig, m) :=
    congrFun (if_neg (not_special_inf hvalue)) m
  rw [hrun, roundToInt_sign]

theorem toSmall_eq {w : ℕ} (infinity : BitVec w) (n : ℕ) (high low : BitVec 32)
    (hlow : low.toNat = 2 ^ n - 1) (hn : n ≤ 32) (hor : high ||| low = BitVec.allOnes 32)
    (hand : high &&& low = 0) (hw : w ≤ 32) (hvalue : r.value = .fin q) :
    rMovToSmall infinity high r m = some (
      if 2 ^ n ≤ (roundToInt m.fpu.controlWord r).sig.toNat then -1
      else if r.sign then -(roundToInt m.fpu.controlWord r).sig.setWidth w
      else (roundToInt m.fpu.controlWord r).sig.setWidth w, m) := by
  obtain ⟨t, ht⟩ : ∃ t, t = roundToInt m.fpu.controlWord r := ⟨_, rfl⟩
  have hrun : rMovToSmall infinity high r m = some (if t.sigh ≠ 0 ∨ t.sigl &&& high ≠ 0 then -1
      else (if r.sign then -t.sigl else t.sigl).setWidth w, m) := by
    rw [ht]
    exact congrFun (if_neg (not_special_inf hvalue)) m
  have hlarge : t.sigh ≠ 0 ∨ t.sigl &&& high ≠ 0 ↔ 2 ^ n ≤ t.sig.toNat := by
    have hle : 2 ^ n ≤ 2 ^ 32 := Nat.pow_le_pow_right (by decide) hn
    have hzero : t.sigh = 0 ↔ t.sigh.toNat = 0 := BitVec.toNat_inj.symm
    rw [Ne, Ne, and_high_eq_zero hlow hor hand, hzero, toNat_sig]
    omega
  have hsigl : t.sigl.setWidth w = t.sig.setWidth w := by
    rw [← (setWidth_sig t.sigh t.sigl).2, BitVec.setWidth_setWidth_of_le _ hw]
    rfl
  rw [hrun, ← ht, setWidth_withSign hw, hsigl]
  simp only [hlarge]

theorem small_eq_ofInt {w n : ℕ} {sig : BitVec 64} {s : Bool} (hw : w ≤ 64)
    (hsig : sig.toNat = k.natAbs) (hk : k = withSign s (k.natAbs : ℤ)) :
    (if 2 ^ n ≤ sig.toNat then -1 else if s then -sig.setWidth w else sig.setWidth w) =
      if 2 ^ n ≤ k.natAbs then -1 else BitVec.ofInt w k := by
  have hnat : sig = BitVec.ofNat 64 k.natAbs := by rw [← hsig, BitVec.ofNat_toNat, BitVec.setWidth_eq]
  have hcut : sig.setWidth w = BitVec.ofNat w k.natAbs := by
    rw [hnat, BitVec.setWidth_ofNat_of_le hw]
  rw [hsig, ofInt_withSign s _ hcut, ← hk]

/-- An integer that fits is stored as it is, and so are the lower bits of a `long long`. -/
theorem store_ofInt (f : IntFormat) (hext : r.Extended) (hvalue : r.value = .fin q)
    (h : r.exp.toInt ≤ EXP_BIAS + 63) (hk : (roundingMode m.fpu.controlWord).Rounds q k)
    (hfits : f = .longLong ∨ k.natAbs < 2 ^ (f.bits - 1)) :
    f.store r m = some (BitVec.ofInt f.bits k, m) := by
  obtain ⟨hsig, hsign⟩ := roundToInt_rounds hext hvalue h hk
  cases f with
  | short =>
      have hrun := toSmall_eq (m := m) (-32767 : BitVec 16) 15 0xFFFF8000 0x7FFF rfl
        (by decide) (by decide) (by decide) (by decide) hvalue
      have hlt : k.natAbs < 2 ^ 15 := hfits.resolve_left (by decide)
      rw [small_eq_ofInt (by decide) hsig hsign, if_neg (by omega)] at hrun
      exact hrun
  | long =>
      have hrun := toSmall_eq (m := m) (0x80000000 : BitVec 32) 31 0x80000000 0x7FFFFFFF rfl
        (by decide) (by decide) (by decide) (by decide) hvalue
      have hlt : k.natAbs < 2 ^ 31 := hfits.resolve_left (by decide)
      rw [small_eq_ofInt (by decide) hsig hsign, if_neg (by omega)] at hrun
      exact hrun
  | longLong =>
      have hnat : (roundToInt m.fpu.controlWord r).sig = BitVec.ofNat 64 k.natAbs := by
        rw [← hsig, BitVec.ofNat_toNat, BitVec.setWidth_eq]
      have hrun := toLongLong_eq (m := m) hvalue
      rw [ofInt_withSign r.sign _ hnat, ← hsign] at hrun
      exact hrun

theorem store_lost {f : IntFormat} (hf : f ≠ .longLong) (hvalue : r.value = .fin q)
    (h : 2 ^ (f.bits - 1) ≤ (roundToInt m.fpu.controlWord r).sig.toNat) :
    f.store r m = some (-1, m) := by
  cases f with
  | short =>
      have hrun := toSmall_eq (m := m) (-32767 : BitVec 16) 15 0xFFFF8000 0x7FFF rfl
        (by decide) (by decide) (by decide) (by decide) hvalue
      have hge : 2 ^ 15 ≤ (roundToInt m.fpu.controlWord r).sig.toNat := h
      rw [if_pos hge] at hrun
      exact hrun
  | long =>
      have hrun := toSmall_eq (m := m) (0x80000000 : BitVec 32) 31 0x80000000 0x7FFFFFFF rfl
        (by decide) (by decide) (by decide) (by decide) hvalue
      have hge : 2 ^ 31 ≤ (roundToInt m.fpu.controlWord r).sig.toNat := h
      rw [if_pos hge] at hrun
      exact hrun
  | longLong => exact absurd rfl hf

theorem store_far (f : IntFormat) (hext : r.Extended) (hvalue : r.value = .fin q)
    (hsig : r.sig ≠ 0) (h : r.exp.toInt > EXP_BIAS + 63) :
    f.store r m = some (1, m) ∨ f.store r m = some (-1, m) := by
  have hall : (roundToInt m.fpu.controlWord r).sig = -1 :=
    roundToInt_large (fun htag => hsig (hext.zero.mp htag)) h
  by_cases hf : f = .longLong
  · have hrun := toLongLong_eq (m := m) hvalue
    rw [hall] at hrun
    subst hf
    cases hsign : r.sign <;> rw [hsign] at hrun
    · exact .inr hrun
    · exact .inl hrun
  · have hnat : (-1 : BitVec 64).toNat = 2 ^ 64 - 1 := rfl
    refine .inr (store_lost hf hvalue ?_)
    rw [hall, hnat]
    cases f <;> decide

theorem exp_normalizeShort_le (r : Reg) : (normalizeShort r).exp.toNat ≤ r.exp.toNat := by
  unfold normalizeShort
  split_ifs
  · exact Nat.zero_le _
  · exact le_rfl
  · exact (exp_shiftTop r).trans_le (shiftUp_le _ _)

theorem exp_rMovInt_le {bits : ℕ} (hbits : bits ≤ 64) (s : ℤ) :
    (rMovInt bits s).exp.toInt ≤ EXP_BIAS + 63 := by
  have hnat : (rMovInt bits s).exp.toNat ≤ EXP_BIAS + 63 := by
    unfold rMovInt
    split_ifs
    · exact Nat.zero_le _
    · refine (exp_normalizeShort_le _).trans ?_
      have hle := shiftUp_le (EXP_BIAS + bits - 1) (BitVec.ofNat 64 (s.natAbs * 2 ^ (64 - bits)))
      exact (BitVec.toNat_ofNat _ _).trans_le ((Nat.mod_le _ _).trans (hle.trans (by omega)))
  have hmax : (rMovInt bits s).exp.toNat ≤ EXP_MAX + 1 := hnat.trans (by decide)
  rw [Emu387.toInt_exp hmax]
  exact_mod_cast hnat

theorem sign_rMovInt (n : ℤ) : (rMovInt 64 n).sign = decide (n < 0) := by
  unfold rMovInt
  split_ifs with hzero
  · rw [hzero]
    rfl
  · unfold normalizeShort
    dsimp only
    split_ifs <;> rfl

theorem load_spec (f : IntFormat) (v : BitVec f.bits) : (f.load v).Extended ∧
    (f.load v).value = .fin v.toInt ∧ (f.load v).exp.toInt ≤ EXP_BIAS + 63 := by
  have hload : f.load v = rMovInt f.bits v.toInt := by cases f <;> rfl
  have htwo : 2 ≤ f.bits := by cases f <;> decide
  have hle : f.bits ≤ 64 := by cases f <;> decide
  obtain ⟨hext, hvalue⟩ := rMovInt_toInt htwo hle v
  rw [hload]
  exact ⟨hext, hvalue, exp_rMovInt_le hle _⟩

theorem natAbs_ge_iff {w : ℕ} (hw : 0 < w) (v : BitVec w) :
    2 ^ (w - 1) ≤ v.toInt.natAbs ↔ v = BitVec.intMin w := by
  have hmin := BitVec.toInt_intMin_of_pos hw
  have hlo : -2 ^ w ≤ 2 * v.toInt := BitVec.le_two_mul_toInt
  have hhi : 2 * v.toInt < 2 ^ w := BitVec.two_mul_toInt_lt
  have hpow : (2 : ℤ) ^ w = 2 * 2 ^ (w - 1) := by rw [← pow_succ', Nat.sub_add_cancel hw]
  have hcast : ((2 ^ (w - 1) : ℕ) : ℤ) = 2 ^ (w - 1) := by push_cast; rfl
  rw [← BitVec.toInt_inj, hmin]
  omega

theorem neg_one_ne_intMin (f : IntFormat) : (-1 : BitVec f.bits) ≠ BitVec.intMin f.bits := by
  cases f <;> decide

theorem one_ne_intMin (f : IntFormat) : (1 : BitVec f.bits) ≠ BitVec.intMin f.bits := by
  cases f <;> decide

theorem store_load_iff (m : Machine) (f : IntFormat) (v : BitVec f.bits) :
    f.store (f.load v) m = some (v, m) ↔ f = .longLong ∨ v ≠ BitVec.intMin f.bits := by
  obtain ⟨hext, hvalue, hexp⟩ := load_spec f v
  have hpos : 0 < f.bits := by cases f <;> decide
  by_cases hfits : f = .longLong ∨ v ≠ BitVec.intMin f.bits
  · refine iff_of_true ?_ hfits
    rw [store_ofInt f hext hvalue hexp (Mode.rounds_int _ _), BitVec.ofInt_toInt]
    rwa [← Nat.not_le, natAbs_ge_iff hpos]
  · refine iff_of_false (fun hstored => ?_) hfits
    obtain ⟨hf, hmin⟩ := not_or.mp hfits
    rw [not_not] at hmin
    have hlarge := (natAbs_ge_iff hpos v).mpr hmin
    rw [← (roundToInt_rounds hext hvalue hexp (Mode.rounds_int _ _)).1] at hlarge
    rw [store_lost hf hvalue hlarge] at hstored
    exact neg_one_ne_intMin f ((Prod.mk.inj (Option.some.inj hstored)).1.trans hmin)

theorem store_outside_iff (f : IntFormat) (hext : r.Extended) (hvalue : r.value = .fin q)
    (hk : (roundingMode m.fpu.controlWord).Rounds q k) (hout : ¬ f.Fits k) :
    (∃ m', f.store r m = some (BitVec.intMin f.bits, m')) ↔
      f = .longLong ∧ k = 2 ^ 63 ∧ r.exp.toInt ≤ EXP_BIAS + 63 := by
  by_cases hexp : r.exp.toInt ≤ EXP_BIAS + 63
  · obtain ⟨hsig, -⟩ := roundToInt_rounds hext hvalue hexp hk
    by_cases hf : f = .longLong
    · rw [store_ofInt f hext hvalue hexp hk (.inl hf), and_iff_left hexp]
      simp only [Option.some.injEq, Prod.mk.injEq, exists_and_left, exists_eq', and_true]
      subst hf
      have hrange : ¬ (-2 ^ 63 ≤ k ∧ k < 2 ^ 63) := hout
      have hmin : (BitVec.intMin 64).toNat = 2 ^ 63 := rfl
      rw [and_iff_right rfl]
      change BitVec.ofInt 64 k = BitVec.intMin 64 ↔ _
      rw [← BitVec.toNat_inj, BitVec.toNat_ofInt, hmin]
      omega
    · have hlarge : 2 ^ (f.bits - 1) ≤ k.natAbs := by
        have hcast : ((2 ^ (f.bits - 1) : ℕ) : ℤ) = 2 ^ (f.bits - 1) := by push_cast; rfl
        unfold IntFormat.Fits at hout
        omega
      rw [← hsig] at hlarge
      rw [store_lost hf hvalue hlarge]
      refine iff_of_false ?_ fun h => hf h.1
      rintro ⟨m', hm⟩
      exact neg_one_ne_intMin f (Prod.mk.inj (Option.some.inj hm)).1
  · have hne : r.sig ≠ 0 := by
      intro hzero
      have hq : q = (0 : ℤ) := by
        have hfin := hvalue.symm.trans (if_pos hzero)
        exact (Value.fin.inj hfin).trans Int.cast_zero.symm
      have hk0 : k = 0 := by
        rw [hq] at hk
        exact hk.unique (Mode.rounds_int _ 0)
      refine hout ?_
      rw [hk0]
      exact ⟨by simp, by positivity⟩
    refine iff_of_false ?_ fun h => hexp h.2.2
    rintro ⟨m', hm⟩
    obtain hone | hnegOne := store_far (m := m) f hext hvalue hne (by omega)
    · exact one_ne_intMin f (Prod.mk.inj (Option.some.inj (hone.symm.trans hm))).1
    · exact neg_one_ne_intMin f (Prod.mk.inj (Option.some.inj (hnegOne.symm.trans hm))).1

end DjgppLibc.Emu387
