import DjgppLibc.Emu387Compare
import DjgppLibc.IntegerRounding

/-!
# Rounding to an integer in the 387 emulator

`round_to_int` shifts the significand until it is an integer, and keeps in two flags what has
fallen out: the last bit of it in one, and all the bits before that in the other. `frndint`
takes the result through a `long long`; 2 ^ 63 does not fit, and becomes -2 ^ 63, but the sign
of the argument is put back in the end.
-/
namespace DjgppLibc.Emu387

open X86 IntegerRounding

def CW_RC : BitVec 16 := 0x0C00

def RC_RND : BitVec 16 := 0x0000
def RC_DOWN : BitVec 16 := 0x0400
def RC_UP : BitVec 16 := 0x0800
def RC_CHOP : BitVec 16 := 0x0C00

/-- A loop of `round_to_int`: so many shifts, and whether a one has fallen out. -/
def shiftOut : ℕ → BitVec 64 → BitVec 64 × Bool
  | 0, sig => (sig, false)
  | n + 1, sig =>
      let t := shiftOut n (sig >>> 1)
      (t.1, sig.getLsbD 0 || t.2)

attribute [grind =] shiftOut

/-- The register between the loops of `round_to_int` and its `switch`. -/
structure Cut where
  sig : BitVec 64
  exp : ℤ
  moreThanHalf : Bool
  halfOrMore : Bool

/-- The two loops of `round_to_int`. -/
def Reg.cut (r : Reg) : Cut :=
  let more := shiftOut (EXP_BIAS + 62 - r.exp.toInt).toNat r.sig
  let exp := max r.exp.toInt (EXP_BIAS + 62)
  let half := shiftOut (EXP_BIAS + 63 - exp).toNat more.1
  { sig := half.1, exp := max exp (EXP_BIAS + 63), moreThanHalf := more.2, halfOrMore := half.2 }

/-- The `switch`: whether the integer is increased. -/
def Cut.increased (c : Cut) (controlWord : BitVec 16) (sign : Bool) : Bool :=
  let rc := controlWord &&& CW_RC
  if rc = RC_RND then c.halfOrMore && (c.moreThanHalf || c.sig.getLsbD 0)
  else if rc = RC_DOWN then (c.halfOrMore || c.moreThanHalf) && sign
  else if rc = RC_UP then (c.halfOrMore || c.moreThanHalf) && !sign
  else false

/-- `round_to_int` -/
def roundToInt (controlWord : BitVec 16) (r : Reg) : Reg :=
  if r.tag = .zero then r
  else
    let c := r.cut
    let r := { r with exp := BitVec.ofInt 16 c.exp }
    if c.exp > EXP_BIAS + 63 then r.setSig (-1)
    else r.setSig (if c.increased controlWord r.sign then c.sig + 1 else c.sig)

/-- `r_mov` to a `long long`. -/
def rMovToLongLong (s : Reg) : Emu (BitVec 64) := do
  if s.tag = .special ∧ isInf s then
    raise EX_I
    return 0x8000000000000000
  let t := roundToInt (← get).fpu.controlWord s
  return if t.sign then -t.sig else t.sig

def frndint : Emu Unit := do
  if ← empty 0 then return
  let t := (← get).fpu.st 0
  if t.exp.toInt > EXP_BIAS + 62 then return
  let tmp ← rMovToLongLong t
  modify fun m => { m with fpu := m.fpu.setSt 0 { rMovLongLong tmp with sign := t.sign } }

def roundingMode (controlWord : BitVec 16) : Mode :=
  let rc := controlWord &&& CW_RC
  if rc = RC_RND then .nearest
  else if rc = RC_DOWN then .down
  else if rc = RC_UP then .up
  else .chop

variable {r : Reg} {m : Machine} {n : ℕ} {sig : BitVec 64} {controlWord : BitVec 16}

theorem shiftOut_spec (n : ℕ) (sig : BitVec 64) : (shiftOut n sig).1.toNat = sig.toNat / 2 ^ n ∧
    ((shiftOut n sig).2 = true ↔ sig.toNat % 2 ^ n ≠ 0) := by
  induction n generalizing sig with
  | zero => simp [shiftOut, Nat.mod_one]
  | succ n ih =>
      obtain ⟨hsig, hflag⟩ := ih (sig >>> 1)
      have hhalf : (sig >>> 1).toNat = sig.toNat / 2 := by
        rw [BitVec.toNat_ushiftRight, Nat.shiftRight_eq_div_pow, pow_one]
      rw [hhalf] at hsig hflag
      have hlow : sig.getLsbD 0 = true ↔ sig.toNat % 2 ≠ 0 := by
        rw [BitVec.getLsbD, Nat.testBit_zero]
        simp
      constructor
      · rw [shiftOut, hsig, Nat.div_div_eq_div_mul, ← pow_succ']
      · rw [shiftOut, Bool.or_eq_true, hlow, hflag, pow_succ', Nat.mod_mul]
        omega

def Reg.fractionBits (r : Reg) : ℕ := (EXP_BIAS + 63 - r.exp.toInt).toNat

theorem lsb_iff (x : BitVec 64) : x.getLsbD 0 = true ↔ x.toNat % 2 = 1 := by
  rw [BitVec.getLsbD, Nat.testBit_zero, decide_eq_true_iff]

/-- The bit that falls out last says whether the rest is half of one or more. -/
theorem half_iff (n k : ℕ) : n / 2 ^ k % 2 ^ 1 ≠ 0 ↔ 2 ^ (k + 1) ≤ 2 * (n % 2 ^ (k + 1)) := by
  have hlow := Nat.mod_lt n (y := 2 ^ k) (by positivity)
  rw [pow_one, pow_succ, Nat.mod_mul]
  obtain hzero | hone : n / 2 ^ k % 2 = 0 ∨ n / 2 ^ k % 2 = 1 := by omega
  · rw [hzero]
    omega
  · rw [hone]
    omega

theorem cut_spec (r : Reg) : r.cut.sig.toNat = r.sig.toNat / 2 ^ r.fractionBits ∧
    Flags r.sig.toNat (2 ^ r.fractionBits) r.cut.halfOrMore r.cut.moreThanHalf
      (r.cut.sig.getLsbD 0) := by
  obtain ⟨k, hk⟩ : ∃ k, (EXP_BIAS + 62 - r.exp.toInt).toNat = k := ⟨_, rfl⟩
  obtain ⟨l, hl⟩ : ∃ l, (EXP_BIAS + 63 - max r.exp.toInt (EXP_BIAS + 62)).toNat = l := ⟨_, rfl⟩
  obtain ⟨hsig, hmore⟩ := shiftOut_spec k r.sig
  obtain ⟨hsig', hhalf⟩ := shiftOut_spec l (shiftOut k r.sig).1
  have hcut : r.cut = { sig := (shiftOut l (shiftOut k r.sig).1).1
                        exp := max (max r.exp.toInt (EXP_BIAS + 62)) (EXP_BIAS + 63)
                        moreThanHalf := (shiftOut k r.sig).2
                        halfOrMore := (shiftOut l (shiftOut k r.sig).1).2 } := by
    rw [← hk, ← hl]
    rfl
  have hbits : r.fractionBits = k + l := by
    rw [Reg.fractionBits]
    omega
  rw [hsig] at hsig' hhalf
  have hint : r.cut.sig.toNat = r.sig.toNat / 2 ^ r.fractionBits := by
    rw [hcut, hbits, hsig', Nat.div_div_eq_div_mul, ← pow_add]
  refine ⟨hint, ?_, ?_, by rw [lsb_iff, hint]⟩
  · rw [hcut, hhalf, hbits]
    obtain ⟨rfl, rfl⟩ | rfl : (l = 0 ∧ k = 0) ∨ l = 1 := by omega
    · simp [Nat.mod_one]
    · exact half_iff _ _
  · rw [hcut, hmore, hbits]
    obtain ⟨rfl, rfl⟩ | rfl : (l = 0 ∧ k = 0) ∨ l = 1 := by omega
    · simp [Nat.mod_one]
    · rw [pow_succ', Nat.mul_mod_mul_left, Nat.mod_mod_of_dvd _ (Nat.dvd_mul_left _ _)]
      omega

/-- The number without its sign, for every exponent. -/
def Reg.absolute (r : Reg) : ℚ := r.sig.toNat * 2 ^ (r.exp.toInt - 16446)

theorem absolute_eq (h : r.exp.toInt ≤ EXP_BIAS + 63) :
    r.absolute = r.sig.toNat / (2 ^ r.fractionBits : ℕ) := by
  have hexp : r.exp.toInt - 16446 = -(r.fractionBits : ℤ) := by
    unfold EXP_BIAS at h
    rw [Reg.fractionBits, EXP_BIAS]
    omega
  rw [Reg.absolute, hexp, zpow_neg, zpow_natCast, div_eq_mul_inv]
  push_cast
  rfl

theorem absolute_natCast (h : EXP_BIAS + 63 ≤ r.exp.toInt) :
    r.absolute = (r.sig.toNat * 2 ^ (r.exp.toInt - 16446).toNat : ℕ) := by
  have hexp : r.exp.toInt - 16446 = ((r.exp.toInt - 16446).toNat : ℤ) := by
    unfold EXP_BIAS at h
    omega
  rw [Reg.absolute, hexp, zpow_natCast, Int.toNat_natCast]
  push_cast
  rfl

/-- The two flags are right for every exponent. -/
theorem flags_right (r : Reg) : (r.cut.halfOrMore = true ↔ 1 / 2 ≤ Int.fract r.absolute) ∧
    (r.cut.moreThanHalf = true ↔ Int.fract (2 * r.absolute) ≠ 0) := by
  obtain ⟨-, hflags⟩ := cut_spec r
  rw [hflags.half, hflags.more]
  by_cases hexp : r.exp.toInt ≤ EXP_BIAS + 63
  · rw [absolute_eq hexp]
    have hpos : 0 < 2 ^ r.fractionBits := by positivity
    generalize 2 ^ r.fractionBits = n at hpos ⊢
    have hn : (0 : ℚ) < n := by exact_mod_cast hpos
    have htwice : 2 * ((r.sig.toNat : ℚ) / n) = (2 * r.sig.toNat : ℕ) / n := by
      push_cast
      ring
    have hmod : 2 * (r.sig.toNat % n) % n = 2 * r.sig.toNat % n := by
      rw [Nat.mul_mod, Nat.mod_mod, ← Nat.mul_mod]
    rw [htwice, Int.fract_div_natCast_eq_div_natCast_mod, Int.fract_div_natCast_eq_div_natCast_mod,
      hmod, div_le_div_iff₀ two_pos hn, div_ne_zero_iff, and_iff_left hn.ne', Nat.cast_ne_zero]
    refine ⟨?_, Iff.rfl⟩
    rw [one_mul, mul_comm]
    exact_mod_cast Iff.rfl
  · -- The number is an integer, and nothing falls out.
    have hbits : r.fractionBits = 0 := by
      rw [Reg.fractionBits]
      omega
    have hint := absolute_natCast (r := r) (by omega)
    have htwice : 2 * r.absolute = (2 * (r.sig.toNat * 2 ^ (r.exp.toInt - 16446).toNat) : ℕ) := by
      rw [hint]
      push_cast
      rfl
    rw [htwice, hint, Int.fract_natCast, Int.fract_natCast, hbits]
    constructor
    · norm_num [Nat.mod_one]
    · simp [Nat.mod_one]

theorem increased_eq (c : Cut) (controlWord : BitVec 16) (sign : Bool) :
    c.increased controlWord sign = (roundingMode controlWord).away sign c.halfOrMore
      c.moreThanHalf (c.sig.getLsbD 0) := by
  simp only [Cut.increased, roundingMode]
  split_ifs <;> rfl

/-- The magnitude of the result of `round_to_int`, if the number is in the range of it. -/
def Reg.rounded (r : Reg) (controlWord : BitVec 16) : ℕ :=
  r.sig.toNat / 2 ^ r.fractionBits + (r.cut.increased controlWord r.sign).toNat

theorem rounded_le (h : r.exp.toInt ≤ EXP_BIAS + 62) (controlWord : BitVec 16) :
    r.rounded controlWord ≤ 2 ^ 63 := by
  obtain ⟨k, hk⟩ : ∃ k, r.fractionBits = k + 1 :=
    Nat.exists_eq_succ_of_ne_zero (by rw [Reg.fractionBits]; omega)
  have hlt : r.sig.toNat / 2 ^ (k + 1) < 2 ^ 63 := by
    have hsig := r.sig.isLt
    rw [pow_succ', ← Nat.div_div_eq_div_mul]
    exact (Nat.div_le_self _ _).trans_lt (by omega)
  have hbit := Bool.toNat_le (r.cut.increased controlWord r.sign)
  rw [Reg.rounded, hk]
  omega

/-- Zero is not increased. -/
theorem rounded_zero (h : r.sig = 0) (controlWord : BitVec 16) : r.rounded controlWord = 0 := by
  obtain ⟨-, hflags⟩ := cut_spec r
  have hsig : r.sig.toNat = 0 := by
    rw [h]
    rfl
  have hpos : 0 < 2 ^ r.fractionBits := by positivity
  have hhalf : r.cut.halfOrMore = false := by
    rw [Bool.eq_false_iff, Ne, hflags.half, hsig, Nat.zero_mod]
    omega
  have hmore : r.cut.moreThanHalf = false := by
    rw [Bool.eq_false_iff, Ne, hflags.more, hsig, Nat.zero_mod]
    simp
  have hstay : r.cut.increased controlWord r.sign = false := by
    simp [Cut.increased, hhalf, hmore]
  rw [Reg.rounded, hstay, hsig, Nat.zero_div]
  rfl

theorem roundToInt_sig (h : r.exp.toInt ≤ EXP_BIAS + 62) (hext : r.Extended) :
    (roundToInt controlWord r).sig.toNat = r.rounded controlWord ∧
      (roundToInt controlWord r).sign = r.sign := by
  by_cases htag : r.tag = .zero
  · rw [roundToInt, if_pos htag, rounded_zero (hext.zero.mp htag), hext.zero.mp htag]
    exact ⟨rfl, rfl⟩
  have hexp : ¬ r.cut.exp > EXP_BIAS + 63 := by
    have hcut : r.cut.exp = max (max r.exp.toInt (EXP_BIAS + 62)) (EXP_BIAS + 63) := rfl
    rw [hcut]
    omega
  have hle := rounded_le h controlWord
  rw [Reg.rounded, ← (cut_spec r).1] at hle
  rw [roundToInt, if_neg htag]
  dsimp only
  rw [if_neg hexp]
  refine ⟨?_, rfl⟩
  rw [sig_setSig, Reg.rounded, ← (cut_spec r).1]
  split_ifs with hup
  · rw [hup] at hle ⊢
    have hone : (1 : BitVec 64).toNat = 1 := rfl
    rw [Bool.toNat_true] at hle ⊢
    rw [BitVec.toNat_add, hone, Nat.mod_eq_of_lt (by omega)]
  · rw [Bool.eq_false_iff.mpr hup]
    rfl

theorem natAbs_toInt {x : BitVec 64} (h : x.toNat ≤ 2 ^ 63) (negative : Bool) :
    (if negative then -x else x).toInt.natAbs = x.toNat := by
  cases negative
  · rw [if_neg (by decide), BitVec.toInt_eq_toNat_cond]
    split_ifs <;> omega
  · rw [if_pos rfl, BitVec.toInt_eq_toNat_cond, BitVec.toNat_neg]
    split_ifs <;> omega

theorem magnitude_div (h : r.exp.toNat ≤ EXP_MAX + 1) :
    (r.magnitude : ℚ) / 2 ^ 16446 = r.absolute := by
  have hpow : (2 : ℚ) ^ (r.exp.toInt - 16446) = 2 ^ r.exp.toNat / 2 ^ 16446 := by
    rw [toInt_exp h, zpow_sub₀ two_ne_zero, zpow_natCast]
    rfl
  rw [Reg.absolute, hpow, Reg.magnitude, Nat.cast_mul, Nat.cast_pow, Nat.cast_ofNat, mul_div_assoc]

theorem loaded_value (tmp : BitVec 64) (s : Bool) :
    ({ rMovLongLong tmp with sign := s } : Reg).Extended ∧
      ({ rMovLongLong tmp with sign := s } : Reg).value =
        .fin (signed s (tmp.toInt.natAbs : ℚ)) := by
  obtain ⟨hext, hvalue⟩ := rMovInt_toInt (by decide) le_rfl tmp
  obtain ⟨hq, hexp⟩ := value_eq_fin hvalue
  refine ⟨⟨hext.exp, hext.zero⟩, ?_⟩
  have hnonneg : (0 : ℚ) ≤ (rMovInt 64 tmp.toInt).magnitude / 2 ^ 16446 :=
    div_nonneg (Nat.cast_nonneg _) (by positivity)
  have habs := congrArg abs hq
  rw [abs_signed, abs_of_nonneg hnonneg] at habs
  refine (value_finite (r := { rMovLongLong tmp with sign := s }) hexp).trans ?_
  rw [Nat.cast_natAbs, Int.cast_abs, habs]
  rfl

theorem setSt_same (f : Fpu) (i : Fin 8) : f.setSt i (f.st i) = f := by
  have hregs : (fun k => if k = f.top + i then f.st i else f.regs k) = f.regs := by
    funext k
    split_ifs with h
    · rw [h, Fpu.st]
    · rfl
  rw [Fpu.setSt, hregs]

theorem frndint_unchanged (h : (m.fpu.st 0).tag ≠ .empty)
    (hexp : (m.fpu.st 0).exp.toInt > EXP_BIAS + 62) : frndint m = some ((), m) :=
  (bind_some (empty_passes h)).trans (congrFun (if_pos hexp) m)

/-- A number within the range of a `long long` goes through one. -/
theorem frndint_through (h : (m.fpu.st 0).tag ≠ .empty) (hext : (m.fpu.st 0).Extended)
    (hexp : (m.fpu.st 0).exp.toInt ≤ EXP_BIAS + 62) : ∃ tmp : BitVec 64,
      tmp.toInt.natAbs = (m.fpu.st 0).rounded m.fpu.controlWord ∧
      frndint m = some ((), { m with
        fpu := m.fpu.setSt 0 { rMovLongLong tmp with sign := (m.fpu.st 0).sign } }) := by
  obtain ⟨t, ht⟩ : ∃ t, t = roundToInt m.fpu.controlWord (m.fpu.st 0) := ⟨_, rfl⟩
  have hrounded : (roundToInt m.fpu.controlWord (m.fpu.st 0)).sig.toNat =
        (m.fpu.st 0).rounded m.fpu.controlWord ∧
      (roundToInt m.fpu.controlWord (m.fpu.st 0)).sign = (m.fpu.st 0).sign :=
    roundToInt_sig hexp hext
  obtain ⟨hsig, hsign⟩ := hrounded
  have hle := rounded_le hexp m.fpu.controlWord
  rw [← ht] at hsig hsign
  have hinf : ¬ ((m.fpu.st 0).tag = .special ∧ isInf (m.fpu.st 0)) := by
    rintro ⟨-, hinf⟩
    have hmax : (m.fpu.st 0).exp = 32767 := by
      rcases hinf with hinf | hinf <;> exact hinf.2.1
    rw [hmax] at hexp
    exact absurd hexp (by decide)
  have hmov : rMovToLongLong (m.fpu.st 0) m = some (if t.sign then -t.sig else t.sig, m) := by
    rw [ht]
    exact congrFun (if_neg hinf) m
  refine ⟨_, (natAbs_toInt (by rw [hsig]; exact hle) t.sign).trans hsig, ?_⟩
  refine (bind_some (empty_passes h)).trans ((congrFun (if_neg hexp.not_gt) m).trans ?_)
  exact bind_some hmov

theorem signed_cast (s : Bool) (n : ℕ) : signed s (n : ℚ) = (withSign s (n : ℤ) : ℤ) := by
  cases s
  · rfl
  · exact (Int.cast_neg _).symm

end DjgppLibc.Emu387
