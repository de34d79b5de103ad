import DjgppLibc.Emu387Integers
import DjgppLibc.Emu387Sums

/-!
# Real numbers in memory in the 387 emulator

`r_mov` to a `double` or a `float` adds half a unit of the format where it is to round away from
zero, and cuts the sum. For a directed rounding that is not enough if there is less than half a
unit to cut, and a tie is never rounded up. The code for denormal numbers keeps only the bits of
the fraction, as `r_mov` from them sets a bit that is not there.
-/
namespace DjgppLibc.Emu387

open X86 IntegerRounding

def EX_O : BitVec 16 := 0x0088
def EX_U : BitVec 16 := 0x0090

/-- `unbiased_exp`, which is a `short`. -/
def unbiasedExp (r : Reg) : ℤ := (r.exp - 16383).toInt

/-- Whether half a unit is added: `half` and `more` say what there is to cut. -/
def increment (controlWord : BitVec 16) (sign half more : Bool) : Bool :=
  let rmode := controlWord &&& CW_RC
  (rmode = RC_RND && half && more) || (rmode = RC_UP && !sign && (half || more)) ||
    (rmode = RC_DOWN && sign && (half || more))

/-- The number to be cut. No exception is raised for two numbers of one sign. -/
def halfAdded (controlWord : BitVec 16) (maxExp : ℤ) (ulp : Reg) (half more : Bool) (s : Reg) :
    Reg :=
  if s.exp.toInt ≤ EXP_MAX ∧ unbiasedExp s ≤ maxExp ∧ increment controlWord s.sign half more then
    (rAdd s ulp).reg
  else s

/-- An overflow becomes the greatest number, not an infinity. -/
def greatest (controlWord : BitVec 16) (sign : Bool) : Bool :=
  let rmode := controlWord &&& CW_RC
  (rmode = RC_DOWN && !sign) || (rmode = RC_UP && sign) || rmode = RC_CHOP

/-- The words of a `double`, the lower one first, without the sign. -/
def doubleWords (s : Reg) : Emu (BitVec 32 × BitVec 32) := do
  let controlWord := (← get).fpu.controlWord
  let lbit : BitVec 32 := 1 <<< 10
  let lbits : BitVec 32 := 0x000003ff
  let t := halfAdded controlWord 1023 ⟨s.sign, .valid, s.exp, lbit, 0⟩ (s.sigl &&& lbit ≠ 0)
    (s.sigl &&& lbits ≠ 0) s
  let l₀ := t.sigl >>> 11 ||| t.sigh <<< 21
  let l₁ := t.sigh >>> 11 &&& 0xfffff
  if t.exp = 0x7fff then return (l₀, l₁ ||| 0x7ff00000)
  else if unbiasedExp t > 1023 then
    raise EX_O
    return if greatest controlWord t.sign then (0xffffffff, 0x7fefffff) else (0, 0x7ff00000)
  else if unbiasedExp t < -1022 then
    raise EX_U
    if unbiasedExp t < -1074 then return (0, 0)
    else
      let toShift := (-1023 - unbiasedExp t).toNat
      if toShift ≥ 32 then return (l₁ >>> (toShift - 32), 0)
      -- The processor takes a count of 32 for zero.
      else return (l₀ >>> toShift ||| l₁ <<< ((32 - toShift) % 32), l₁ >>> toShift)
  else return (l₀, l₁ ||| (BitVec.ofInt 32 (unbiasedExp t + 1023) &&& 0x7ff) <<< 20)

/-- `r_mov` to a `double`. -/
def rMovToDouble (s : Reg) : Emu (BitVec 32 × BitVec 32) := do
  let l ← if s.tag = .zero then pure (0, 0) else doubleWords s
  return (l.1, if s.sign then l.2 ||| 0x80000000 else l.2)

/-- The word of a `float` without the sign. -/
def floatWord (s : Reg) : Emu (BitVec 32) := do
  let controlWord := (← get).fpu.controlWord
  let lbit : BitVec 32 := 1 <<< 7
  let lbits : BitVec 32 := 0x0000007f
  let t := halfAdded controlWord 127 ⟨s.sign, .valid, s.exp, 0, lbit⟩ (s.sigh &&& lbit ≠ 0)
    (s.sigh &&& lbits ≠ 0 ∨ s.sigl ≠ 0) s
  let f := t.sigh >>> 8 &&& 0x007fffff
  if t.exp = 0x7fff then return f ||| 0x7f800000
  else if unbiasedExp t > 127 then
    raise EX_O
    return if greatest controlWord t.sign then 0x7f7fffff else 0x7f800000
  else if unbiasedExp t < -126 then
    raise EX_U
    if unbiasedExp t < -149 then return 0
    else return f >>> (-127 - unbiasedExp t).toNat
  else return f ||| (BitVec.ofInt 32 (unbiasedExp t + 127) &&& 0xff) <<< 23

/-- `r_mov` to a `float`. -/
def rMovToFloat (s : Reg) : Emu (BitVec 32) := do
  let f ← if s.tag = .zero then pure 0 else floatWord s
  return if s.sign then f ||| 0x80000000 else f

/-- The formats of `fld` and `fst` in memory. -/
inductive RealFormat
  | float
  | double
deriving DecidableEq

abbrev RealFormat.Words : RealFormat → Type
  | .float => BitVec 32
  | .double => BitVec 32 × BitVec 32

def RealFormat.bias : RealFormat → ℕ
  | .float => 127
  | .double => 1023

def RealFormat.bits : RealFormat → ℕ
  | .float => 23
  | .double => 52

def RealFormat.maxExp : RealFormat → ℕ
  | .float => 255
  | .double => 2047

def RealFormat.load : (f : RealFormat) → f.Words → Reg
  | .float, w => rMovFloat w
  | .double, w => rMovDouble w.2 w.1

def RealFormat.store : (f : RealFormat) → Reg → Emu f.Words
  | .float => rMovToFloat
  | .double => rMovToDouble

def RealFormat.sign : (f : RealFormat) → f.Words → Bool
  | .float, w => w.msb
  | .double, w => w.2.msb

def RealFormat.exp : (f : RealFormat) → f.Words → ℕ
  | .float, w => floatExp w
  | .double, w => doubleExp w.2

def RealFormat.fraction : (f : RealFormat) → f.Words → ℕ
  | .float, w => floatFraction w
  | .double, w => doubleFraction w.2 w.1

def RealFormat.value (f : RealFormat) (w : f.Words) : Value :=
  formatValue f.maxExp f.bias f.bits (f.sign w) (f.exp w) (f.fraction w)

def RealFormat.half (f : RealFormat) : ℕ := 2 ^ (62 - f.bits)

variable {s t u : Reg} {m : Machine} {controlWord : BitVec 16} {bias bits e f h n sum : ℕ}
  {half more : Bool}

structure Sums (s : Reg) (sum : ℕ) (t : Reg) : Prop where
  sign : t.sign = s.sign
  top : 2 ^ 63 ≤ t.sig.toNat
  parts : sum < 2 ^ 64 ∧ t.sig.toNat = sum ∧ t.exp.toNat = s.exp.toNat ∨
    2 ^ 64 ≤ sum ∧ t.sig.toNat = sum / 2 ∧ t.exp.toNat = s.exp.toNat + 1

theorem Sums.refl (hs : s.Normal) : Sums s s.sig.toNat s :=
  ⟨rfl, hs.two_pow_le, .inl ⟨s.sig.isLt, rfl, rfl⟩⟩

/-- A small significand with the same exponent is added exactly, but for the last bit. -/
theorem rAdd_sums (hs : s.Normal) (hexp : s.exp.toNat < EXP_MAX) (hvalid : u.tag = .valid)
    (hsign : u.sign = s.sign) (hue : u.exp = s.exp) (hsig : u.sig.toNat < 2 ^ 63) :
    Sums s (s.sig.toNat + u.sig.toNat) (rAdd s u).reg := by
  have hslo := hs.two_pow_le
  have hdif : 0 < dif s u := by
    rw [dif_pos_iff, hue]
    exact .inr ⟨rfl, by omega⟩
  have hadd : (rAdd s u).reg = { addTo s u with sign := s.sign } := by
    simp only [rAdd, hs.valid, hvalid, hsign, if_true, reduceCtorEq, if_false, Outcome.plain,
      rUadd_eq, hdif]
  have hzero : s.exp.toInt - u.exp.toInt = 0 := by rw [hue, sub_self]
  have hto : addTo s u = if s.sig.toNat + u.sig.toNat ≥ 2 ^ 64 then
      (carried s (s.sig.toNat + u.sig.toNat)).settled
      else (s.setSig (BitVec.ofNat 64 (s.sig.toNat + u.sig.toNat))).settled := by
    rw [addTo, hzero, if_neg (by decide), Int.toNat_zero, BitVec.ushiftRight_zero]
  generalize hsum : s.sig.toNat + u.sig.toNat = sum at hto ⊢
  by_cases hcarry : sum ≥ 2 ^ 64
  · obtain ⟨hnormal, hsig', hexp'⟩ := carried_spec hs hexp hcarry (by omega)
    rw [if_pos hcarry, hnormal.settled_eq] at hto
    rw [hadd, hto]
    refine ⟨rfl, ?_, .inr ⟨hcarry, hsig', hexp'⟩⟩
    exact hnormal.two_pow_le
  · have hsig' : (s.setSig (BitVec.ofNat 64 sum)).sig.toNat = sum := by
      rw [sig_setSig, BitVec.toNat_ofNat, Nat.mod_eq_of_lt (by omega)]
    have hnormal : (s.setSig (BitVec.ofNat 64 sum)).Normal :=
      ⟨hs.valid, msb_of_two_pow_le (by rw [hsig']; omega), hs.exp⟩
    rw [if_neg hcarry, hnormal.settled_eq] at hto
    rw [hadd, hto]
    refine ⟨rfl, ?_, .inl ⟨by omega, hsig', rfl⟩⟩
    exact hnormal.two_pow_le

theorem unbiasedExp_eq (h : s.exp.toNat ≤ EXP_MAX + 1) :
    unbiasedExp s = (s.exp.toNat : ℤ) - 16383 := by
  have hbias : (16383 : BitVec 16).toNat = 16383 := rfl
  unfold EXP_MAX at h
  rw [unbiasedExp, BitVec.toInt_eq_toNat_cond, BitVec.toNat_sub, hbias]
  split_ifs <;> omega

theorem halfAdded_sums (controlWord : BitVec 16) {maxExp : ℤ} (half more : Bool) (hs : s.Normal)
    (hmax : unbiasedExp s ≤ maxExp) (hexp : s.exp.toNat < EXP_MAX) (hvalid : u.tag = .valid) (hsign : u.sign = s.sign)
    (hue : u.exp = s.exp) (hsig : u.sig.toNat < 2 ^ 63) : Sums s
      (s.sig.toNat + if increment controlWord s.sign half more then u.sig.toNat else 0)
      (halfAdded controlWord maxExp u half more s) := by
  have hle : s.exp.toInt ≤ EXP_MAX := by
    rw [hs.toInt_exp]
    exact_mod_cast hexp.le
  unfold halfAdded
  by_cases hinc : increment controlWord s.sign half more = true
  · rw [if_pos hinc, if_pos ⟨hle, hmax, hinc⟩]
    exact rAdd_sums hs hexp hvalid hsign hue hsig
  · rw [if_neg hinc, if_neg fun h => hinc h.2.2]
    exact Sums.refl hs

/-- The words of a number in the range of the exponents: the fields of the exponent and of the
fraction. -/
structure Fields (bias bits : ℕ) (t : Reg) (e f : ℕ) : Prop where
  exp : t.exp.toNat + bias = e + 16383
  fraction : t.sig.toNat / 2 ^ (63 - bits) = 2 ^ bits + f

/-- The number in the fields is the sum, cut to the unit of the format. -/
theorem Sums.value (hsum : Sums s sum t) (hfields : Fields bias bits t e f) (hbits : bits ≤ 62)
    (hlt : sum < 2 ^ 64 + 2 ^ (63 - bits)) :
    ((2 ^ bits + f : ℕ) * 2 ^ e / 2 ^ (bias + bits) : ℚ) =
      (sum / 2 ^ (63 - bits) : ℕ) * (2 ^ (63 - bits) * s.ulp) := by
  have hexp := hfields.exp
  rw [← hfields.fraction, Reg.ulp]
  obtain ⟨-, hsig, hexp'⟩ | ⟨hcarry, hsig, hexp'⟩ := hsum.parts
  · rw [hsig, ← mul_div_assoc, ← mul_div_assoc, ← pow_add]
    apply scaled_eq
    omega
  · -- The sum is cut to a power of two.
    obtain ⟨c, hc⟩ : ∃ c, 63 - bits = c + 1 := ⟨62 - bits, by omega⟩
    have hpow : (2 : ℕ) ^ 64 = 2 ^ (bits + 1) * 2 ^ (63 - bits) := by
      rw [← pow_add]
      congr 1
      omega
    have hdiv : sum / 2 ^ (63 - bits) = 2 ^ (bits + 1) :=
      Nat.div_eq_of_lt_le (by omega) (by rw [Nat.add_mul, one_mul]; omega)
    have hhalf : t.sig.toNat / 2 ^ (63 - bits) = 2 ^ bits := by
      rw [hsig, Nat.div_div_eq_div_mul, mul_comm, ← Nat.div_div_eq_div_mul, hdiv, pow_succ,
        Nat.mul_div_cancel _ two_pos]
    rw [hhalf, hdiv, ← mul_div_assoc, ← mul_div_assoc, ← pow_add]
    push_cast
    rw [← pow_add, ← pow_add, div_eq_div_iff (by positivity) (by positivity), ← pow_add,
      ← pow_add]
    congr 1
    omega

theorem signed_word {x : BitVec 32} (hx : x.toNat < 2 ^ 31) (sign : Bool) :
    (if sign then x ||| 0x80000000 else x).toNat = sign.toNat * 2 ^ 31 + x.toNat ∧
      (if sign then x ||| 0x80000000 else x).msb = sign := by
  have hor : (x ||| 0x80000000).toNat = 2 ^ 31 + x.toNat := by
    rw [BitVec.or_comm]
    exact toNat_shiftLeft_or (x := 1) (n := 31) (by decide) hx
  cases sign
  · refine ⟨by simp, ?_⟩
    rw [if_neg (by decide), BitVec.msb_eq_false_iff_two_mul_lt]
    omega
  · refine ⟨hor.trans (by simp), ?_⟩
    rw [if_pos rfl, BitVec.msb_eq_true_iff_two_mul_ge, hor]
    omega

theorem field_word (x : BitVec 32) (k : ℕ) (mask : BitVec 32) (w : ℕ) (E : ℤ) (hx : x.toNat < 2 ^ k)
    (hmask : mask.toNat = 2 ^ w - 1) (hE : E = e) (he : e < 2 ^ w) (hk : k + w ≤ 31) :
    (x ||| (BitVec.ofInt 32 E &&& mask) <<< k).toNat = e * 2 ^ k + x.toNat ∧
      (x ||| (BitVec.ofInt 32 E &&& mask) <<< k).toNat < 2 ^ 31 := by
  have hpow : 2 ^ w ≤ 2 ^ 31 := Nat.pow_le_pow_right (by decide) (by omega)
  have hexp : (BitVec.ofInt 32 E &&& mask).toNat = e := by
    rw [toNat_and_mask _ _ hmask, hE, BitVec.ofInt_natCast, BitVec.toNat_ofNat,
      Nat.mod_eq_of_lt (show e < 2 ^ 32 by omega), Nat.mod_eq_of_lt he]
  have hle : e * 2 ^ k + 2 ^ k ≤ 2 ^ 31 :=
    calc e * 2 ^ k + 2 ^ k = (e + 1) * 2 ^ k := by ring
      _ ≤ 2 ^ w * 2 ^ k := Nat.mul_le_mul_right _ he
      _ = 2 ^ (k + w) := by rw [← pow_add, add_comm]
      _ ≤ 2 ^ 31 := Nat.pow_le_pow_right (by decide) hk
  rw [BitVec.or_comm, toNat_shiftLeft_or (by rw [hexp]; omega) hx, hexp]
  exact ⟨rfl, by omega⟩

theorem rMovToDouble_sums (hs : s.Normal) (hlo : 15361 ≤ s.exp.toNat)
    (hhi : s.exp.toNat ≤ 17406) (hsum : s.exp.toNat = 17406 → s.sig.toNat + 2 ^ 10 < 2 ^ 64) :
    ∃ l₀ l₁ t, rMovToDouble s m = some ((l₀, l₁), m) ∧ l₁.msb = s.sign ∧
      Fields 1023 52 t (doubleExp l₁) (doubleFraction l₁ l₀) ∧
      1 ≤ doubleExp l₁ ∧ doubleExp l₁ ≤ 2046 ∧
      Sums s (s.sig.toNat + if increment m.fpu.controlWord s.sign (s.sigl &&& 1 <<< 10 ≠ 0)
        (s.sigl &&& 0x000003ff ≠ 0) then 2 ^ 10 else 0) t := by
  obtain ⟨t, ht⟩ : ∃ t, t = halfAdded m.fpu.controlWord 1023
    ⟨s.sign, .valid, s.exp, 1 <<< 10, 0⟩ (s.sigl &&& 1 <<< 10 ≠ 0)
      (s.sigl &&& 0x000003ff ≠ 0) s := ⟨_, rfl⟩
  have hunb := unbiasedExp_eq (s := s) (hs.exp.trans (Nat.le_succ _))
  have hulp : (⟨s.sign, .valid, s.exp, 1 <<< 10, 0⟩ : Reg).sig.toNat = 2 ^ 10 := by
    rw [toNat_sig]
    change (0 : BitVec 32).toNat * 2 ^ 32 + (1 <<< 10 : BitVec 32).toNat = 2 ^ 10
    decide
  have hsums := halfAdded_sums m.fpu.controlWord (s.sigl &&& 1 <<< 10 ≠ 0)
    (s.sigl &&& 0x000003ff ≠ 0) hs (u := ⟨s.sign, .valid, s.exp, 1 <<< 10, 0⟩)
    (show unbiasedExp s ≤ 1023 by omega) (by unfold EXP_MAX; omega) rfl rfl rfl
    (by rw [hulp]; decide)
  rw [hulp, ← ht] at hsums
  have hexp : 15361 ≤ t.exp.toNat ∧ t.exp.toNat ≤ 17406 := by
    obtain ⟨-, -, hexp⟩ | ⟨hcarry, -, hexp⟩ := hsums.parts
    · omega
    · split_ifs at hcarry <;> omega
  have hunbt := unbiasedExp_eq (s := t) (by unfold EXP_MAX; omega)
  have htop := hsums.top
  have hsplit := toNat_sig t
  obtain ⟨e, he⟩ : ∃ e, t.exp.toNat = e + 15360 := ⟨t.exp.toNat - 15360, by omega⟩
  obtain ⟨l₀, hl₀⟩ : ∃ l₀, l₀ = t.sigl >>> 11 ||| t.sigh <<< 21 := ⟨_, rfl⟩
  obtain ⟨l₁, hl₁⟩ : ∃ l₁, l₁ = t.sigh >>> 11 &&& 0xfffff := ⟨_, rfl⟩
  have hlow : l₀.toNat = t.sigh.toNat % 2 ^ 11 * 2 ^ 21 + t.sigl.toNat / 2 ^ 11 := by
    have hshift : (t.sigh <<< 21).toNat = (t.sigh.toNat % 2 ^ 11) <<< 21 := by
      rw [BitVec.toNat_shiftLeft, Nat.shiftLeft_eq, Nat.shiftLeft_eq]
      omega
    rw [hl₀, BitVec.toNat_or, BitVec.toNat_ushiftRight, Nat.shiftRight_eq_div_pow, hshift,
      Nat.or_comm, ← Nat.shiftLeft_add_eq_or_of_lt (by omega), Nat.shiftLeft_eq]
  have hhigh : l₁.toNat = t.sigh.toNat / 2 ^ 11 % 2 ^ 20 := by
    rw [hl₁, toNat_and_mask _ _ (n := 20) rfl, BitVec.toNat_ushiftRight,
      Nat.shiftRight_eq_div_pow]
  have hword := field_word (e := e) l₁ 20 0x7ff 11 (unbiasedExp t + 1023)
    (by omega) rfl (by omega) (by omega) (by decide)
  obtain ⟨w, hw⟩ : ∃ w, w = l₁ ||| (BitVec.ofInt 32 (unbiasedExp t + 1023) &&& 0x7ff) <<< 20 :=
    ⟨_, rfl⟩
  rw [← hw] at hword
  obtain ⟨hnat, hmsb⟩ := signed_word hword.2 s.sign
  obtain ⟨w', hw'⟩ : ∃ w', w' = if s.sign then w ||| 0x80000000 else w := ⟨_, rfl⟩
  rw [← hw', hword.1] at hnat
  rw [← hw'] at hmsb
  have hfield : doubleExp w' = e := by
    rw [doubleExp, hnat]
    omega
  have hwords : doubleWords s m = some ((l₀, w), m) := by
    have hne : ¬ t.exp = 0x7fff := by
      rw [← BitVec.toNat_inj]
      change ¬ t.exp.toNat = 0x7fff
      omega
    rw [hw, hl₁, hl₀, ht]
    rw [ht] at hne hunbt hexp
    exact (congrFun (if_neg hne) m).trans
      ((congrFun (if_neg (by omega)) m).trans (congrFun (if_neg (by omega)) m))
  refine ⟨l₀, w', t, ?_, hmsb, ⟨?_, ?_⟩, by omega, by omega, hsums⟩
  · have htag : ¬ s.tag = .zero := by
      rw [hs.valid]
      decide
    rw [rMovToDouble, if_neg htag]
    refine (bind_some hwords).trans ?_
    rw [hw']
    rfl
  · rw [hfield, he]
  · rw [doubleFraction, hnat, hlow, hhigh, hsplit]
    omega

theorem rMovToFloat_sums (hs : s.Normal) (hlo : 16257 ≤ s.exp.toNat)
    (hhi : s.exp.toNat ≤ 16510) (hsum : s.exp.toNat = 16510 → s.sig.toNat + 2 ^ 39 < 2 ^ 64) :
    ∃ w t, rMovToFloat s m = some (w, m) ∧ w.msb = s.sign ∧
      Fields 127 23 t (floatExp w) (floatFraction w) ∧ 1 ≤ floatExp w ∧ floatExp w ≤ 254 ∧
      Sums s (s.sig.toNat + if increment m.fpu.controlWord s.sign (s.sigh &&& 1 <<< 7 ≠ 0)
        (s.sigh &&& 0x0000007f ≠ 0 ∨ s.sigl ≠ 0) then 2 ^ 39 else 0) t := by
  obtain ⟨t, ht⟩ : ∃ t, t = halfAdded m.fpu.controlWord 127
    ⟨s.sign, .valid, s.exp, 0, 1 <<< 7⟩ (s.sigh &&& 1 <<< 7 ≠ 0)
      (s.sigh &&& 0x0000007f ≠ 0 ∨ s.sigl ≠ 0) s := ⟨_, rfl⟩
  have hunb := unbiasedExp_eq (s := s) (hs.exp.trans (Nat.le_succ _))
  have hulp : (⟨s.sign, .valid, s.exp, 0, 1 <<< 7⟩ : Reg).sig.toNat = 2 ^ 39 := by
    rw [toNat_sig]
    change (1 <<< 7 : BitVec 32).toNat * 2 ^ 32 + (0 : BitVec 32).toNat = 2 ^ 39
    decide
  have hsums := halfAdded_sums m.fpu.controlWord (s.sigh &&& 1 <<< 7 ≠ 0)
    (s.sigh &&& 0x0000007f ≠ 0 ∨ s.sigl ≠ 0) hs (u := ⟨s.sign, .valid, s.exp, 0, 1 <<< 7⟩)
    (show unbiasedExp s ≤ 127 by omega)
    (by unfold EXP_MAX; omega) rfl rfl rfl (by rw [hulp]; decide)
  rw [hulp, ← ht] at hsums
  have hexp : 16257 ≤ t.exp.toNat ∧ t.exp.toNat ≤ 16510 := by
    obtain ⟨-, -, hexp⟩ | ⟨hcarry, -, hexp⟩ := hsums.parts
    · omega
    · split_ifs at hcarry <;> omega
  have hunbt := unbiasedExp_eq (s := t) (by unfold EXP_MAX; omega)
  have htop := hsums.top
  have hsplit := toNat_sig t
  obtain ⟨e, he⟩ : ∃ e, t.exp.toNat = e + 16256 := ⟨t.exp.toNat - 16256, by omega⟩
  obtain ⟨f, hf⟩ : ∃ f, f = t.sigh >>> 8 &&& 0x007fffff := ⟨_, rfl⟩
  have hfraction : f.toNat = t.sigh.toNat / 2 ^ 8 % 2 ^ 23 := by
    rw [hf, toNat_and_mask _ _ (n := 23) rfl, BitVec.toNat_ushiftRight, Nat.shiftRight_eq_div_pow]
  have hword := field_word (e := e) f 23 0xff 8 (unbiasedExp t + 127)
    (by omega) rfl (by omega) (by omega) (by decide)
  obtain ⟨w, hw⟩ : ∃ w, w = f ||| (BitVec.ofInt 32 (unbiasedExp t + 127) &&& 0xff) <<< 23 :=
    ⟨_, rfl⟩
  rw [← hw] at hword
  obtain ⟨hnat, hmsb⟩ := signed_word hword.2 s.sign
  obtain ⟨w', hw'⟩ : ∃ w', w' = if s.sign then w ||| 0x80000000 else w := ⟨_, rfl⟩
  rw [← hw', hword.1] at hnat
  rw [← hw'] at hmsb
  have hfield : floatExp w' = e := by
    rw [floatExp, hnat]
    omega
  have hwords : floatWord s m = some (w, m) := by
    have hne : ¬ t.exp = 0x7fff := by
      rw [← BitVec.toNat_inj]
      change ¬ t.exp.toNat = 0x7fff
      omega
    rw [hw, hf, ht]
    rw [ht] at hne hunbt hexp
    exact (congrFun (if_neg hne) m).trans
      ((congrFun (if_neg (by omega)) m).trans (congrFun (if_neg (by omega)) m))
  refine ⟨w', t, ?_, hmsb, ⟨?_, ?_⟩, by omega, by omega, hsums⟩
  · have htag : ¬ s.tag = .zero := by
      rw [hs.valid]
      decide
    rw [rMovToFloat, if_neg htag]
    refine (bind_some hwords).trans ?_
    rw [hw']
    rfl
  · rw [hfield, he]
  · rw [floatFraction, hnat, hfraction, hsplit]
    omega

theorem increment_eq (controlWord : BitVec 16) (sign half more : Bool) :
    increment controlWord sign half more = (roundingMode controlWord).addsHalf sign half more := by
  simp only [increment, roundingMode]
  split_ifs with hrnd hdown hup
  · rw [hrnd]
    cases sign <;> cases half <;> cases more <;> rfl
  · rw [hdown]
    cases sign <;> cases half <;> cases more <;> rfl
  · rw [hup]
    cases sign <;> cases half <;> cases more <;> rfl
  · simp [hrnd, hdown, hup, Mode.addsHalf]

theorem and_one_bit {x : BitVec 32} (k : ℕ) (hk : k < 32) :
    x &&& 1 <<< k ≠ 0 ↔ x.toNat / 2 ^ k % 2 = 1 := by
  have htwo : (1 <<< k : BitVec 32) = BitVec.twoPow 32 k := (BitVec.twoPow_eq 32 k).symm
  have hbit : x.getLsbD k = true ↔ x.toNat / 2 ^ k % 2 = 1 := by
    rw [BitVec.getLsbD, Nat.testBit_eq_decide_div_mod_eq, decide_eq_true_iff]
  rw [htwo, BitVec.and_twoPow, ← hbit]
  cases x.getLsbD k
  · simp
  · have hne : BitVec.twoPow 32 k ≠ 0 := by
      rw [Ne, ← BitVec.toNat_inj, BitVec.toNat_twoPow_of_lt hk]
      exact (Nat.two_pow_pos k).ne'
    simpa using hne

theorem and_bits {x mask : BitVec 32} {k : ℕ} (hmask : mask.toNat = 2 ^ k - 1) :
    x &&& mask ≠ 0 ↔ x.toNat % 2 ^ k ≠ 0 := by
  rw [Ne, ← BitVec.toNat_inj, toNat_and_mask _ _ hmask]
  rfl

theorem store_sums (F : RealFormat) (hs : s.Normal) (hlo : 16384 ≤ s.exp.toNat + F.bias)
    (hhi : s.exp.toNat ≤ 16383 + F.bias)
    (htop : s.exp.toNat = 16383 + F.bias → s.sig.toNat + F.half < 2 ^ 64) :
    ∃ w t more, F.store s m = some (w, m) ∧ F.sign w = s.sign ∧
      Fields F.bias F.bits t (F.exp w) (F.fraction w) ∧ 1 ≤ F.exp w ∧ F.exp w < F.maxExp ∧
      (more = true ↔ s.sig.toNat % F.half ≠ 0) ∧
      Sums s (s.sig.toNat + if (roundingMode m.fpu.controlWord).addsHalf s.sign
        (decide (F.half ≤ s.sig.toNat % (2 * F.half))) more then F.half else 0) t := by
  have hsplit := toNat_sig s
  cases F with
  | float =>
      change 16384 ≤ s.exp.toNat + 127 at hlo
      change s.exp.toNat ≤ 16383 + 127 at hhi
      obtain ⟨w, t, hrun, hsign, hfields, hone, hmax, hsum⟩ :=
        rMovToFloat_sums (m := m) hs (by omega) (by omega) htop
      have hhalf : decide (s.sigh &&& 1 <<< 7 ≠ 0) = decide (2 ^ 39 ≤ s.sig.toNat % (2 * 2 ^ 39)) := by
        rw [decide_eq_decide, and_one_bit 7 (by decide)]
        omega
      have hmore : s.sigh &&& 0x0000007f ≠ 0 ∨ s.sigl ≠ 0 ↔ s.sig.toNat % 2 ^ 39 ≠ 0 := by
        have hzero : s.sigl ≠ 0 ↔ s.sigl.toNat ≠ 0 := by
          rw [Ne, ← BitVec.toNat_inj]
          rfl
        rw [and_bits (k := 7) rfl, hzero]
        omega
      rw [increment_eq, hhalf] at hsum
      exact ⟨w, t, _, hrun, hsign, hfields, hone, Nat.lt_succ_of_le hmax,
        decide_eq_true_iff.trans hmore, hsum⟩
  | double =>
      change 16384 ≤ s.exp.toNat + 1023 at hlo
      change s.exp.toNat ≤ 16383 + 1023 at hhi
      obtain ⟨l₀, l₁, t, hrun, hsign, hfields, hone, hmax, hsum⟩ :=
        rMovToDouble_sums (m := m) hs (by omega) (by omega) htop
      have hhalf : decide (s.sigl &&& 1 <<< 10 ≠ 0) =
          decide (2 ^ 10 ≤ s.sig.toNat % (2 * 2 ^ 10)) := by
        rw [decide_eq_decide, and_one_bit 10 (by decide)]
        omega
      have hmore : s.sigl &&& 0x000003ff ≠ 0 ↔ s.sig.toNat % 2 ^ 10 ≠ 0 := by
        rw [and_bits (k := 10) rfl]
        omega
      rw [increment_eq, hhalf] at hsum
      exact ⟨(l₀, l₁), t, _, hrun, hsign, hfields, hone, Nat.lt_succ_of_le hmax,
        decide_eq_true_iff.trans hmore, hsum⟩

theorem load_value (F : RealFormat) (w : F.Words) : (F.load w).value =
    loadedValue F.maxExp F.bias F.bits (F.sign w) (F.exp w) (F.fraction w) := by
  cases F with
  | float => exact rMovFloat_value w
  | double => exact rMovDouble_value w.2 w.1

theorem fraction_lt (F : RealFormat) (w : F.Words) : F.fraction w < 2 ^ F.bits := by
  cases F with
  | float => exact Nat.mod_lt _ (by decide)
  | double =>
      have hlow := w.1.isLt
      change w.2.toNat % 2 ^ 20 * 2 ^ 32 + w.1.toNat < 2 ^ 52
      omega

theorem words_ext {F : RealFormat} {w w' : F.Words} (hsign : F.sign w = F.sign w')
    (hexp : F.exp w = F.exp w') (hfraction : F.fraction w = F.fraction w') : w = w' := by
  have htop (x : BitVec 32) : x.toNat / 2 ^ 31 = x.msb.toNat := by
    have hlt := x.isLt
    cases hx : x.msb
    · have := BitVec.msb_eq_false_iff_two_mul_lt.mp hx
      exact Nat.div_eq_of_lt (by omega)
    · have := BitVec.msb_eq_true_iff_two_mul_ge.mp hx
      exact Nat.div_eq_of_lt_le (by simp; omega) (by simp; omega)
  cases F with
  | float =>
      change w.msb = w'.msb at hsign
      change w.toNat / 2 ^ 23 % 2 ^ 8 = w'.toNat / 2 ^ 23 % 2 ^ 8 at hexp
      change w.toNat % 2 ^ 23 = w'.toNat % 2 ^ 23 at hfraction
      have h₁ := htop w
      have h₂ := htop w'
      rw [hsign] at h₁
      exact BitVec.eq_of_toNat_eq (by omega)
  | double =>
      obtain ⟨l₀, l₁⟩ := w
      obtain ⟨l₀', l₁'⟩ := w'
      change l₁.msb = l₁'.msb at hsign
      change l₁.toNat / 2 ^ 20 % 2 ^ 11 = l₁'.toNat / 2 ^ 20 % 2 ^ 11 at hexp
      change l₁.toNat % 2 ^ 20 * 2 ^ 32 + l₀.toNat = l₁'.toNat % 2 ^ 20 * 2 ^ 32 + l₀'.toNat
        at hfraction
      have h₁ := htop l₁
      have h₂ := htop l₁'
      rw [hsign] at h₁
      rw [Prod.mk.injEq]
      exact ⟨BitVec.eq_of_toNat_eq (by omega), BitVec.eq_of_toNat_eq (by omega)⟩

theorem load_zero {F : RealFormat} {w : F.Words} (hexp : F.exp w = 0) (hfraction : F.fraction w = 0) :
    F.load w = { CONST_Z with sign := F.sign w } := by
  cases F with
  | float => exact rMovFloat_zero ((float_eq_zero w).mpr ⟨hexp, hfraction⟩)
  | double => exact rMovDouble_zero ((double_eq_zero w.2 w.1).mpr ⟨hexp, hfraction⟩)

theorem store_zero (F : RealFormat) (m : Machine) (sign : Bool) :
    ∃ w, F.store { CONST_Z with sign := sign } m = some (w, m) ∧ F.sign w = sign ∧ F.exp w = 0 ∧
      F.fraction w = 0 := by
  cases F <;> cases sign
  · exact ⟨0, rfl, by decide, by decide, by decide⟩
  · exact ⟨0x80000000, rfl, by decide, by decide, by decide⟩
  · exact ⟨(0, 0), rfl, by decide, by decide, by decide⟩
  · exact ⟨(0, 0x80000000), rfl, by decide, by decide, by decide⟩

theorem maxExp_eq (F : RealFormat) : F.maxExp = 2 * F.bias + 1 ∧ F.bias ≤ 1023 ∧ F.bits ≤ 52 := by
  cases F <;> decide

theorem two_half (F : RealFormat) : 2 * F.half = 2 ^ (63 - F.bits) := by
  cases F <;> decide

theorem half_pos (F : RealFormat) : 0 < F.half := by
  cases F <;> decide

theorem load_loaded {F : RealFormat} {w : F.Words} (h : F.exp w ≠ 0) : ∃ r,
    F.load w = normalizeShort r ∧ r.sign = F.sign w ∧
      Loaded F.maxExp F.bias F.bits (F.exp w) (F.fraction w) r := by
  cases F with
  | float => exact rMovFloat_loaded w fun hzero => h ((float_eq_zero w).mp hzero).1
  | double => exact rMovDouble_loaded w.2 w.1 fun hzero => h ((double_eq_zero w.2 w.1).mp hzero).1

theorem load_normal {F : RealFormat} {w : F.Words} (hne : F.exp w ≠ F.maxExp) (h : F.exp w ≠ 0) :
    (F.load w).Normal ∧ (F.load w).sign = F.sign w ∧
      (F.load w).exp.toNat = F.exp w + 16383 - F.bias ∧
      (F.load w).sig.toNat = (2 ^ F.bits + F.fraction w) * 2 ^ (63 - F.bits) := by
  obtain ⟨r, hload, hsign, hloaded⟩ := load_loaded h
  obtain ⟨hmax, hbias, -⟩ := maxExp_eq F
  have hle := hloaded.exp_le
  have hexp := hloaded.exp
  rw [if_neg hne] at hexp
  have hsmall : r.exp.toNat ≤ EXP_MAX := by
    unfold EXP_MAX
    omega
  have heq : F.load w = r := by
    have hint := toInt_exp (hsmall.trans (Nat.le_succ _))
    rw [hload, normalizeShort_of_msb hloaded.msb, if_neg (by rw [hint]; omega)]
  rw [heq]
  exact ⟨⟨hloaded.tag, hloaded.msb, hsmall⟩, hsign, hexp, hloaded.sig⟩

theorem store_load {F : RealFormat} {w : F.Words} (hne : F.exp w ≠ F.maxExp) (h : F.exp w ≠ 0)
    (hle : F.exp w ≤ F.maxExp) : F.store (F.load w) m = some (w, m) := by
  obtain ⟨hnormal, hsign, hexp, hsig⟩ := load_normal hne h
  obtain ⟨hmax, hbias, hbits⟩ := maxExp_eq F
  have hfraction := fraction_lt F w
  have hpos := half_pos F
  have hunit := two_half F
  have hpow : 2 ^ 64 = (2 ^ F.bits + 2 ^ F.bits) * 2 ^ (63 - F.bits) := by
    rw [← two_mul, ← pow_succ', ← pow_add]
    congr 1
    omega
  have hroom : (F.load w).sig.toNat + 2 * F.half ≤ 2 ^ 64 := by
    rw [hsig, hunit, hpow]
    calc (2 ^ F.bits + F.fraction w) * 2 ^ (63 - F.bits) + 2 ^ (63 - F.bits)
        = (2 ^ F.bits + (F.fraction w + 1)) * 2 ^ (63 - F.bits) := by ring
      _ ≤ _ := Nat.mul_le_mul_right _ (by omega)
  obtain ⟨w', t, more, hrun, hsign', hfields, -, -, hmore, hsum⟩ :=
    store_sums (m := m) F hnormal (by omega) (by omega) fun _ => by omega
  have hrest : (F.load w).sig.toNat % (2 * F.half) = 0 := by
    rw [hsig, hunit, Nat.mul_mod_left]
  have hrest' : (F.load w).sig.toNat % F.half = 0 := by
    rw [← Nat.mod_mul_left_mod _ 2 F.half, hrest, Nat.zero_mod]
  have hnoMore : more = false := by
    rw [Bool.eq_false_iff, Ne, hmore, hrest']
    simp
  have hnoHalf : decide (F.half ≤ (F.load w).sig.toNat % (2 * F.half)) = false := by
    rw [hrest, decide_eq_false_iff_not]
    omega
  have hstay : (roundingMode m.fpu.controlWord).addsHalf (F.load w).sign false false = false := by
    cases roundingMode m.fpu.controlWord <;> simp [Mode.addsHalf]
  rw [hnoHalf, hnoMore, hstay, if_neg (by decide), Nat.add_zero] at hsum
  obtain ⟨-, htsig, htexp⟩ | ⟨hlarge, -⟩ := hsum.parts
  · have hfield := hfields.exp
    have hcut := hfields.fraction
    rw [htsig, hsig, Nat.mul_div_cancel _ (Nat.two_pow_pos _)] at hcut
    have heq : w' = w := words_ext (hsign'.trans hsign) (by omega) (by omega)
    rw [hrun, heq]
  · omega

theorem exp_le (F : RealFormat) (w : F.Words) : F.exp w ≤ F.maxExp := by
  cases F with
  | float => exact Nat.le_of_lt_succ (Nat.mod_lt _ (by decide))
  | double => exact Nat.le_of_lt_succ (Nat.mod_lt _ (by decide))

theorem load_denormal {F : RealFormat} {w : F.Words} (hexp : F.exp w = 0)
    (hfraction : F.fraction w ≠ 0) : (F.load w).value ≠ F.value w := by
  obtain ⟨hmax, hbias, hbits⟩ := maxExp_eq F
  have hlt := fraction_lt F w
  have hpos : 0 < F.bias + F.bits := by cases F <;> decide
  intro heq
  rw [load_value, RealFormat.value, loadedValue, if_neg fun h => hfraction h.2, formatValue,
    if_neg (by omega), if_neg (by omega), if_pos hexp, Value.fin.injEq] at heq
  have habs := congrArg abs heq
  rw [abs_signed, abs_signed, abs_of_nonneg (by positivity), abs_of_nonneg (by positivity), hexp,
    pow_zero, mul_one, ← Nat.sub_add_cancel hpos, Nat.add_sub_cancel, pow_succ,
    div_eq_div_iff (by positivity) (by positivity), mul_comm ((2 : ℚ) ^ _) 2, ← mul_assoc] at habs
  have hcancel := mul_right_cancel₀ (by positivity) habs
  have hnat : 2 ^ F.bits + F.fraction w = F.fraction w * 2 := by exact_mod_cast hcancel
  omega

/-- Loading is exact, and storing gives the words back, for all finite numbers but the denormal
ones. -/
theorem load_store_iff (F : RealFormat) (m : Machine) (w : F.Words) (hfinite : F.exp w ≠ F.maxExp) :
    ((F.load w).value = F.value w ∧ (F.load w).sign = F.sign w ∧
      F.store (F.load w) m = some (w, m)) ↔ (F.exp w = 0 → F.fraction w = 0) := by
  obtain ⟨hmax, -, -⟩ := maxExp_eq F
  constructor
  · rintro ⟨hvalue, -, -⟩ hexp
    by_contra hfraction
    exact load_denormal hexp hfraction hvalue
  · intro h
    refine ⟨?_, ?_⟩
    · rw [load_value]
      exact loadedValue_eq _ (by omega) h
    · by_cases hexp : F.exp w = 0
      · have hload := load_zero hexp (h hexp)
        obtain ⟨w', hrun, hsign, hexp', hfraction⟩ := store_zero F m (F.sign w)
        have heq : w' = w := words_ext hsign (hexp'.trans hexp.symm) (hfraction.trans (h hexp).symm)
        rw [hload, hrun, heq]
        exact ⟨rfl, rfl⟩
      · exact ⟨(load_normal hfinite hexp).2.1, store_load hfinite hexp (exp_le F w)⟩

/-- -1 -/
theorem load_store_iff_one : ((RealFormat.float.load 0xBF800000).value =
      RealFormat.float.value 0xBF800000 ∧
    (RealFormat.float.load 0xBF800000).sign = RealFormat.float.sign 0xBF800000 ∧
    RealFormat.float.store (RealFormat.float.load 0xBF800000) (pairMachine [] CONST_1 CONST_NAN) =
      some (0xBF800000, pairMachine [] CONST_1 CONST_NAN)) ↔
    (RealFormat.float.exp 0xBF800000 = 0 → RealFormat.float.fraction 0xBF800000 = 0) :=
  load_store_iff .float (pairMachine [] CONST_1 CONST_NAN) 0xBF800000 (by decide)

/-- The least denormal number is loaded as another one. -/
theorem load_least : ¬ ((RealFormat.float.load 1).value = RealFormat.float.value 1 ∧
    (RealFormat.float.load 1).sign = RealFormat.float.sign 1 ∧
    RealFormat.float.store (RealFormat.float.load 1) (pairMachine [] CONST_1 CONST_NAN) =
      some (1, pairMachine [] CONST_1 CONST_NAN)) :=
  fun h => load_denormal (F := .float) (w := 1) (by decide) (by decide) h.1

/-- A unit of the format for numbers with the exponent of a register. -/
def RealFormat.unit (F : RealFormat) (s : Reg) : ℚ := (2 * F.half : ℕ) * s.ulp

/-- The magnitude is between the least normal number of the format and the greatest one, in
units of `2 ^ -16446`. -/
structure RealFormat.InRange (F : RealFormat) (s : Reg) : Prop where
  low : 2 ^ (16447 - F.bias) ≤ s.magnitude
  high : s.magnitude ≤ (2 ^ (F.bits + 1) - 1) * 2 ^ (16446 + F.bias - F.bits)

/-- A number in range has an exponent in range, and does not become too large by half a unit. -/
theorem RealFormat.InRange.exp {F : RealFormat} (h : F.InRange s) (hs : s.Normal) :
    16384 ≤ s.exp.toNat + F.bias ∧ s.exp.toNat ≤ 16383 + F.bias ∧
      (s.exp.toNat = 16383 + F.bias → s.sig.toNat + F.half < 2 ^ 64) := by
  obtain ⟨-, hbias, hbits⟩ := maxExp_eq F
  have hunit := two_half F
  have hpos := half_pos F
  have hlow : 2 ^ (16447 - F.bias) < 2 ^ (64 + s.exp.toNat) := by
    rw [pow_add]
    exact h.low.trans_lt (Nat.mul_lt_mul_of_pos_right s.sig.isLt (by positivity))
  have hhigh : 2 ^ (63 + s.exp.toNat) < 2 ^ (16447 + F.bias) := by
    have hle : 2 ^ (63 + s.exp.toNat) ≤ s.magnitude := by
      rw [pow_add]
      exact Nat.mul_le_mul_right _ hs.two_pow_le
    have hpow : 2 ^ (16447 + F.bias) = 2 ^ (F.bits + 1) * 2 ^ (16446 + F.bias - F.bits) := by
      rw [← pow_add]
      congr 1
      omega
    refine (hle.trans h.high).trans_lt ?_
    rw [hpow]
    exact Nat.mul_lt_mul_of_pos_right (Nat.sub_lt (by positivity) one_pos) (by positivity)
  have hlow' := (Nat.pow_lt_pow_iff_right (by decide)).mp hlow
  have hhigh' := (Nat.pow_lt_pow_iff_right (by decide)).mp hhigh
  refine ⟨by omega, by omega, fun hexp => ?_⟩
  have hle : s.sig.toNat ≤ (2 ^ (F.bits + 1) - 1) * (2 * F.half) := by
    refine Nat.le_of_mul_le_mul_right ?_ (Nat.two_pow_pos s.exp.toNat)
    have hpow : 2 ^ (16446 + F.bias - F.bits) = 2 * F.half * 2 ^ s.exp.toNat := by
      rw [hunit, ← pow_add]
      congr 1
      omega
    rw [mul_assoc, ← hpow]
    exact h.high
  have hpow : 2 ^ 64 = 2 ^ (F.bits + 1) * (2 * F.half) := by
    rw [hunit, ← pow_add]
    congr 1
    omega
  have hsplit : (2 ^ (F.bits + 1) - 1) * (2 * F.half) + 2 * F.half = 2 ^ 64 := by
    rw [hpow, Nat.sub_mul, one_mul, Nat.sub_add_cancel]
    exact Nat.le_mul_of_pos_left _ (by positivity)
  omega

/-- The significand with half a unit, if that is added, in units of the format. -/
def storedUnits (F : RealFormat) (controlWord : BitVec 16) (s : Reg) : ℕ :=
  (s.sig.toNat + if (roundingMode controlWord).addsHalf s.sign
    (decide (F.half ≤ s.sig.toNat % (2 * F.half))) (decide (s.sig.toNat % F.half ≠ 0))
    then F.half else 0) / (2 * F.half)

theorem ulp_pos (s : Reg) : 0 < s.ulp := by
  unfold Reg.ulp
  positivity

theorem unit_pos (F : RealFormat) (s : Reg) : 0 < F.unit s := by
  have hpos := half_pos F
  have hulp := ulp_pos s
  unfold RealFormat.unit
  positivity

theorem signed_mul (sign : Bool) (n : ℕ) (x : ℚ) :
    signed sign (n * x) = (withSign sign (n : ℤ) : ℤ) * x := by
  cases sign
  · exact congrArg (· * x) (Int.cast_natCast n).symm
  · change -(n * x) = ((-n : ℤ) : ℚ) * x
    push_cast
    ring

/-- The number that is stored. -/
theorem store_value {F : RealFormat} (hs : s.Normal) (hrange : F.InRange s) :
    ∃ w, F.store s m = some (w, m) ∧ F.value w =
      .fin ((withSign s.sign (storedUnits F m.fpu.controlWord s : ℤ) : ℤ) * F.unit s) := by
  obtain ⟨hlo, hhi, htop⟩ := hrange.exp hs
  obtain ⟨hmax, hbias, hbits⟩ := maxExp_eq F
  have hunit := two_half F
  have hpos := half_pos F
  have hlt := s.sig.isLt
  obtain ⟨w, t, more, hrun, hsign, hfields, hone, hless, hmore, hsum⟩ :=
    store_sums (m := m) F hs hlo hhi htop
  have hmore' : more = decide (s.sig.toNat % F.half ≠ 0) := by
    rw [Bool.eq_iff_iff, hmore, decide_eq_true_iff]
  rw [hmore'] at hsum
  refine ⟨w, hrun, ?_⟩
  have hvalue := hsum.value hfields (by omega) (by split_ifs <;> omega)
  rw [RealFormat.value, formatValue, if_neg hless.ne, if_neg (by omega), hsign, hvalue,
    signed_mul, RealFormat.unit, storedUnits, hunit]
  push_cast
  rfl

theorem number_div_unit (F : RealFormat) (s : Reg) : s.number / F.unit s =
    withSign s.sign (s.sig.toNat / (2 * F.half : ℕ) : ℚ) := by
  have hulp := (ulp_pos s).ne'
  have hmagnitude : (s.magnitude : ℚ) / 2 ^ 16446 = s.sig.toNat * s.ulp := by
    rw [Reg.magnitude, Reg.ulp, Nat.cast_mul, Nat.cast_pow, Nat.cast_ofNat, mul_div_assoc]
  rw [Reg.number, hmagnitude, RealFormat.unit]
  cases s.sign
  · exact mul_div_mul_right _ _ hulp
  · exact (neg_div _ _).trans (congrArg Neg.neg (mul_div_mul_right _ _ hulp))

theorem storedUnits_rounds_iff (F : RealFormat) (controlWord : BitVec 16) (s : Reg) :
    (roundingMode controlWord).Rounds (s.number / F.unit s)
      (withSign s.sign (storedUnits F controlWord s : ℤ)) ↔
        (roundingMode controlWord).HalfSuffices s.sign s.sig.toNat F.half := by
  rw [number_div_unit]
  exact Mode.addsHalf_rounds_iff _ _ (half_pos F) decide_eq_true_iff decide_eq_true_iff

/-- A store in the range of normal numbers rounds as the control word says exactly if there is
no tie that has to be increased, and nothing less than half a unit to be rounded away from
zero. -/
theorem store_rounds_iff (F : RealFormat) (m : Machine) (hs : s.Normal) (hrange : F.InRange s) :
    (∃ w m' k, F.store s m = some (w, m') ∧ F.value w = .fin ((k : ℤ) * F.unit s) ∧
        (roundingMode m.fpu.controlWord).Rounds (s.number / F.unit s) k) ↔
      (roundingMode m.fpu.controlWord).HalfSuffices s.sign s.sig.toNat F.half := by
  obtain ⟨w, hrun, hvalue⟩ := store_value (m := m) hs hrange
  rw [← storedUnits_rounds_iff]
  constructor
  · rintro ⟨w', m', k, hrun', hvalue', hk⟩
    obtain ⟨rfl, rfl⟩ := Prod.mk.inj (Option.some.inj (hrun.symm.trans hrun'))
    rw [hvalue, Value.fin.injEq, mul_left_inj' (unit_pos F s).ne', Int.cast_inj] at hvalue'
    rw [hvalue']
    exact hk
  · intro hk
    exact ⟨w, m, _, hrun, hvalue, hk⟩

theorem inRange_of_exp {F : RealFormat} (hs : s.Normal) (hexp : s.exp.toNat = 16383) :
    F.InRange s := by
  obtain ⟨-, hbias, hbits⟩ := maxExp_eq F
  have hpos : 1 ≤ F.bias := by cases F <;> decide
  constructor
  · calc 2 ^ (16447 - F.bias) ≤ 2 ^ (63 + s.exp.toNat) :=
          Nat.pow_le_pow_right (by decide) (by omega)
      _ = 2 ^ 63 * 2 ^ s.exp.toNat := pow_add _ _ _
      _ ≤ s.magnitude := Nat.mul_le_mul_right _ hs.two_pow_le
  · have hone : 2 ^ F.bits ≤ 2 ^ (F.bits + 1) - 1 := by
      have := Nat.one_le_two_pow (n := F.bits)
      rw [pow_succ]
      omega
    calc s.magnitude ≤ 2 ^ 64 * 2 ^ s.exp.toNat := Nat.mul_le_mul_right _ s.sig.isLt.le
      _ = 2 ^ (64 + s.exp.toNat) := (pow_add _ _ _).symm
      _ ≤ 2 ^ (F.bits + (16446 + F.bias - F.bits)) := Nat.pow_le_pow_right (by decide) (by omega)
      _ = 2 ^ F.bits * 2 ^ (16446 + F.bias - F.bits) := pow_add _ _ _
      _ ≤ _ := Nat.mul_le_mul_right _ hone

theorem store_rounds_iff_one : (∃ w m' k, RealFormat.double.store CONST_1
      (pairMachine [] CONST_1 CONST_NAN) = some (w, m') ∧
      RealFormat.double.value w = .fin ((k : ℤ) * RealFormat.double.unit CONST_1) ∧
      (roundingMode (pairMachine [] CONST_1 CONST_NAN).fpu.controlWord).Rounds
        (CONST_1.number / RealFormat.double.unit CONST_1) k) ↔
    (roundingMode (pairMachine [] CONST_1 CONST_NAN).fpu.controlWord).HalfSuffices CONST_1.sign
      CONST_1.sig.toNat RealFormat.double.half :=
  store_rounds_iff .double (pairMachine [] CONST_1 CONST_NAN) one_normal
    (inRange_of_exp one_normal rfl)

/-- One and a half units of a `double` above 1. -/
def tie : Reg := ⟨false, .valid, 16383, 0xC00, 0x80000000⟩

/-- The tie is cut to the odd number. -/
theorem store_tie : ¬ ∃ w m' k, RealFormat.double.store tie (pairMachine [] tie CONST_NAN) =
      some (w, m') ∧ RealFormat.double.value w = .fin ((k : ℤ) * RealFormat.double.unit tie) ∧
    (roundingMode (pairMachine [] tie CONST_NAN).fpu.controlWord).Rounds
      (tie.number / RealFormat.double.unit tie) k := by
  have hnormal : tie.Normal := ⟨rfl, by decide, by decide⟩
  obtain ⟨w, hrun, hvalue⟩ := store_value (m := pairMachine [] tie CONST_NAN) hnormal
    (inRange_of_exp (F := .double) hnormal rfl)
  rintro ⟨w', m', k, hrun', hvalue', hk⟩
  obtain ⟨rfl, rfl⟩ := Prod.mk.inj (Option.some.inj (hrun.symm.trans hrun'))
  rw [hvalue, Value.fin.injEq, mul_left_inj' (unit_pos _ _).ne', Int.cast_inj] at hvalue'
  rw [← hvalue', storedUnits_rounds_iff] at hk
  have hmode : roundingMode (pairMachine [] tie CONST_NAN).fpu.controlWord = .nearest := by decide
  rw [hmode] at hk
  exact hk (by decide)

end DjgppLibc.Emu387
