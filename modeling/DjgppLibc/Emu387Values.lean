import Mathlib.Tactic.FieldSimp
import Mathlib.Tactic.Positivity
import Mathlib.Tactic.Ring
import DjgppLibc.Emu387Arith

/-!
# The numbers in the registers of the 387 emulator

A register with exponent `exp` and significand `sig` stands for `sig * 2 ^ (exp - 16446)`.
The emulator has this one scale for all exponents, zero among them. The loops that shift
significands keep the number, and `r_mov` gives the number in memory, unless that is a
denormal one: the bit that is set in front of the fraction is not there in it.
-/
namespace DjgppLibc.Emu387

open X86

inductive Value
  | nan
  | inf (negative : Bool)
  | fin (q : ℚ)
deriving DecidableEq

def Value.order : Value → Value → Option Ordering
  | .nan, _ | _, .nan => none
  | .inf s, .inf t => some (if s = t then .eq else if s then .lt else .gt)
  | .inf s, .fin _ => some (if s then .lt else .gt)
  | .fin _, .inf t => some (if t then .gt else .lt)
  | .fin p, .fin q => some (cmp p q)

def signed (sign : Bool) (q : ℚ) : ℚ := if sign then -q else q

/-- The magnitude of a register, in units of `2 ^ -16446`. -/
def Reg.magnitude (r : Reg) : ℕ := r.sig.toNat * 2 ^ r.exp.toNat

def Reg.value (r : Reg) : Value :=
  if r.sig = 0 then .fin 0
  else if r.exp = 32767 then if r.sig = 1 <<< 63 then .inf r.sign else .nan
  else .fin (signed r.sign (r.magnitude / 2 ^ 16446))

/-- The register holds a number of the extended format: its exponent has 15 bits, and its
tag says whether it is zero. -/
structure Reg.Extended (r : Reg) : Prop where
  exp : r.exp.toNat ≤ EXP_MAX + 1
  zero : r.tag = .zero ↔ r.sig = 0

theorem toNat_shiftLeft_one {sig : BitVec 64} (h : sig.msb = false) :
    (sig <<< 1).toNat = sig.toNat * 2 := by
  have hlt : sig.toNat < 2 ^ 63 := by
    have := BitVec.msb_eq_false_iff_two_mul_lt.mp h
    omega
  rw [BitVec.toNat_shiftLeft, Nat.shiftLeft_eq]
  omega

/-- Shifting keeps the magnitude. -/
theorem shiftUp_magnitude (n : ℕ) (sig : BitVec 64) :
    (shiftUp n sig).2.toNat * 2 ^ (shiftUp n sig).1 = sig.toNat * 2 ^ n := by
  induction n generalizing sig with
  | zero => rfl
  | succ n ih =>
      rw [shiftUp]
      split
      · rfl
      · next h =>
        rw [ih, toNat_shiftLeft_one (by simpa using h), pow_succ]
        ring

theorem shiftUp_ends (n : ℕ) (sig : BitVec 64) :
    (shiftUp n sig).2.msb = true ∨ (shiftUp n sig).1 = 0 := by
  induction n generalizing sig with
  | zero => exact .inr rfl
  | succ n ih =>
      rw [shiftUp]
      split
      · next h => exact .inl h
      · exact ih _

theorem sig_setSig (r : Reg) (sig : BitVec 64) : (r.setSig sig).sig = sig := by
  apply BitVec.eq_of_toNat_eq
  have hsig := sig.isLt
  rw [Reg.sig, Reg.setSig, BitVec.toNat_append, ← Nat.shiftLeft_add_eq_or_of_lt (BitVec.isLt _),
    Nat.shiftLeft_eq, BitVec.toNat_setWidth, BitVec.toNat_setWidth, BitVec.toNat_ushiftRight,
    Nat.shiftRight_eq_div_pow]
  omega

theorem setSig_sig (r : Reg) : r.setSig r.sig = r := by
  obtain ⟨hh, hl⟩ := setWidth_sig r.sigh r.sigl
  rw [Reg.setSig, Reg.sig, hh, hl]

variable (r : Reg)

theorem sig_shiftTop : r.shiftTop.sig = (shiftUp r.exp.toNat r.sig).2 := sig_setSig r _

theorem exp_shiftTop : r.shiftTop.exp.toNat = (shiftUp r.exp.toNat r.sig).1 := by
  have hle := shiftUp_le r.exp.toNat r.sig
  exact (BitVec.toNat_ofNat _ _).trans (Nat.mod_eq_of_lt (by omega))

theorem magnitude_shiftTop : r.shiftTop.magnitude = r.magnitude := by
  rw [Reg.magnitude, sig_shiftTop, exp_shiftTop, shiftUp_magnitude, Reg.magnitude]

theorem shiftTop_ends : r.shiftTop.sig.msb = true ∨ r.shiftTop.exp.toNat = 0 := by
  rw [sig_shiftTop, exp_shiftTop]
  exact shiftUp_ends _ _

theorem shiftTop_of_msb (h : r.sig.msb = true) : r.shiftTop = r := by
  rw [Reg.shiftTop, shiftUp_of_msb (.inr h)]
  dsimp only
  rw [BitVec.ofNat_toNat, BitVec.setWidth_eq, setSig_sig]

theorem magnitude_eq_zero : r.magnitude = 0 ↔ r.sig = 0 := by
  rw [Reg.magnitude, Nat.mul_eq_zero, or_iff_left (by positivity)]
  exact ⟨fun h => BitVec.eq_of_toNat_eq h, fun h => by rw [h]; rfl⟩

theorem sig_shiftTop_eq_zero : r.shiftTop.sig = 0 ↔ r.sig = 0 := by
  rw [← magnitude_eq_zero, magnitude_shiftTop, magnitude_eq_zero]

theorem toNat_exp_eq_max : r.exp = 32767 ↔ r.exp.toNat = 32767 :=
  ⟨fun h => by rw [h]; rfl, fun h => BitVec.eq_of_toNat_eq h⟩

variable {r}

theorem value_finite (h : r.exp = 32767 → r.sig = 0) :
    r.value = .fin (signed r.sign (r.magnitude / 2 ^ 16446)) := by
  by_cases hzero : r.sig = 0
  · rw [Reg.value, if_pos hzero, (magnitude_eq_zero r).mpr hzero]
    cases r.sign <;> simp [signed]
  · rw [Reg.value, if_neg hzero, if_neg fun he => hzero (h he)]

theorem value_shiftTop (hexp : r.exp.toNat ≤ EXP_MAX + 1) (h : r.exp = 32767 → r.sig = 0) :
    r.shiftTop.value = r.value := by
  rw [value_finite h, value_finite, magnitude_shiftTop]
  · rfl
  · intro he
    rw [sig_shiftTop_eq_zero]
    have hle := shiftUp_le r.exp.toNat r.sig
    rw [toNat_exp_eq_max, exp_shiftTop] at he
    refine h ((toNat_exp_eq_max r).mpr ?_)
    unfold EXP_MAX at hexp
    omega

theorem toNat_sig (r : Reg) : r.sig.toNat = r.sigh.toNat * 2 ^ 32 + r.sigl.toNat := by
  rw [Reg.sig, BitVec.toNat_append, ← Nat.shiftLeft_add_eq_or_of_lt r.sigl.isLt, Nat.shiftLeft_eq]

theorem toInt_exp (h : r.exp.toNat ≤ EXP_MAX + 1) : r.exp.toInt = r.exp.toNat := by
  rw [BitVec.toInt_eq_toNat_cond, if_pos]
  unfold EXP_MAX at h
  omega

variable {a b : Reg}

theorem dif_eq (a b : Reg) : dif a b =
    if a.exp.toInt = b.exp.toInt then
      if b.sig.toNat < a.sig.toNat then 1 else if a.sig.toNat < b.sig.toNat then -1 else 0
    else a.exp.toInt - b.exp.toInt := by
  have ha := a.sigl.isLt
  have hb := b.sigl.isLt
  simp only [dif, toNat_sig, BitVec.lt_def, gt_iff_lt, sub_eq_zero]
  by_cases hexp : a.exp.toInt = b.exp.toInt
  · rw [if_pos hexp, if_pos hexp]
    obtain hlt | heq | hgt := Nat.lt_trichotomy a.sigh.toNat b.sigh.toNat
    · rw [if_neg (Nat.not_lt.mpr hlt.le), if_pos hlt, if_neg (by decide), if_neg (by omega),
        if_pos (by omega)]
    · rw [heq, if_neg (Nat.lt_irrefl _), if_neg (Nat.lt_irrefl _), if_pos rfl]
      simp only [Nat.add_lt_add_iff_left]
    · rw [if_pos hgt, if_neg (by decide), if_pos (by omega)]
  · rw [if_neg hexp, if_neg hexp, if_neg (by omega)]

theorem dif_pos_iff : 0 < dif a b ↔ b.exp.toInt < a.exp.toInt ∨
    a.exp.toInt = b.exp.toInt ∧ b.sig.toNat < a.sig.toNat := by
  rw [dif_eq]
  split_ifs <;> omega

theorem dif_neg_iff : dif a b < 0 ↔ a.exp.toInt < b.exp.toInt ∨
    a.exp.toInt = b.exp.toInt ∧ a.sig.toNat < b.sig.toNat := by
  rw [dif_eq]
  split_ifs <;> omega

/-- The top bit is set, or the exponent is the least one. -/
def Reg.Shifted (r : Reg) : Prop := r.sig.msb = true ∨ r.exp.toNat = 0

theorem magnitude_lt_of_exp_lt (hb : b.Shifted) (h : a.exp.toNat < b.exp.toNat) :
    a.magnitude < b.magnitude := by
  have htop : 2 ^ 63 ≤ b.sig.toNat := by
    have := BitVec.msb_eq_true_iff_two_mul_ge.mp (hb.resolve_right (by omega))
    omega
  calc a.sig.toNat * 2 ^ a.exp.toNat
      < 2 ^ 64 * 2 ^ a.exp.toNat := Nat.mul_lt_mul_of_pos_right a.sig.isLt (by positivity)
    _ = 2 ^ 63 * 2 ^ (a.exp.toNat + 1) := by ring
    _ ≤ b.sig.toNat * 2 ^ b.exp.toNat :=
        Nat.mul_le_mul htop (Nat.pow_le_pow_right (by decide) h)

theorem magnitude_lt_iff (ha : a.Shifted) (hb : b.Shifted) :
    a.magnitude < b.magnitude ↔ a.exp.toNat < b.exp.toNat ∨
      a.exp.toNat = b.exp.toNat ∧ a.sig.toNat < b.sig.toNat := by
  obtain hlt | heq | hgt := Nat.lt_trichotomy a.exp.toNat b.exp.toNat
  · exact ⟨fun _ => .inl hlt, fun _ => magnitude_lt_of_exp_lt hb hlt⟩
  · simp only [Reg.magnitude, heq, lt_irrefl, false_or, true_and]
    exact Nat.mul_lt_mul_right (by positivity)
  · have := magnitude_lt_of_exp_lt ha hgt
    constructor <;> intro <;> omega

theorem dif_pos_iff_magnitude (ha : a.Shifted) (hb : b.Shifted) (hea : a.exp.toNat ≤ EXP_MAX + 1)
    (heb : b.exp.toNat ≤ EXP_MAX + 1) : 0 < dif a b ↔ b.magnitude < a.magnitude := by
  rw [dif_pos_iff, magnitude_lt_iff hb ha, toInt_exp hea, toInt_exp heb]
  omega

theorem dif_neg_iff_magnitude (ha : a.Shifted) (hb : b.Shifted) (hea : a.exp.toNat ≤ EXP_MAX + 1)
    (heb : b.exp.toNat ≤ EXP_MAX + 1) : dif a b < 0 ↔ a.magnitude < b.magnitude := by
  rw [dif_neg_iff, magnitude_lt_iff ha hb, toInt_exp hea, toInt_exp heb]
  omega

/-- The number in a format with `bits` bits of fraction: the field of the exponent is `e`,
and the fraction is `m`. -/
def formatValue (maxExp bias bits : ℕ) (sign : Bool) (e m : ℕ) : Value :=
  if e = maxExp then if m = 0 then .inf sign else .nan
  else if e = 0 then .fin (signed sign (m / 2 ^ (bias + bits - 1)))
  else .fin (signed sign ((2 ^ bits + m : ℕ) * 2 ^ e / 2 ^ (bias + bits)))

/-- What `r_mov` makes of a number in memory: the bit in front of the fraction is set. -/
def loadedValue (maxExp bias bits : ℕ) (sign : Bool) (e m : ℕ) : Value :=
  if e = 0 ∧ m = 0 then .fin 0
  else if e = maxExp then if m = 0 then .inf sign else .nan
  else .fin (signed sign ((2 ^ bits + m : ℕ) * 2 ^ e / 2 ^ (bias + bits)))

theorem scaled_eq (x : ℚ) {p q k n : ℕ} (h : p + k = q + n) :
    x * 2 ^ p / 2 ^ n = x * 2 ^ q / 2 ^ k := by
  rw [div_eq_div_iff (by positivity) (by positivity), mul_assoc, mul_assoc, ← pow_add, ← pow_add, h]

/-- `normalize` leaves the contents of a register alone whose top bit is set. -/
theorem normalizeShort_of_msb (h : r.sig.msb = true) :
    normalizeShort r = { r with tag := if r.exp.toInt > EXP_MAX then .special else r.tag } := by
  have hne : r.sig ≠ 0 := by
    intro hzero
    rw [hzero] at h
    exact absurd h (by decide)
  rw [normalizeShort, if_neg hne]
  split
  · rfl
  · exact shiftTop_of_msb r h

theorem value_fraction {bits bias e m : ℕ} (hbits : bits < 64) (hbias : bias ≤ 16383)
    (he : e + 16383 - bias < 32767)
    (hsig : r.sig.toNat = (2 ^ bits + m) * 2 ^ (63 - bits))
    (hexp : r.exp.toNat = e + 16383 - bias) :
    r.value = .fin (signed r.sign ((2 ^ bits + m : ℕ) * 2 ^ e / 2 ^ (bias + bits))) := by
  rw [value_finite fun h => by rw [toNat_exp_eq_max] at h; omega]
  congr 2
  rw [Reg.magnitude, hsig, hexp, Nat.mul_assoc, ← pow_add, Nat.cast_mul, Nat.cast_pow,
    Nat.cast_two]
  apply scaled_eq
  omega

/-- The register that `r_mov` fills from a number that is not zero, before it is
normalized. -/
structure Loaded (maxExp bias bits e m : ℕ) (r : Reg) : Prop where
  bits_lt : bits < 64
  bias_le : bias ≤ 16383
  maxExp_le : maxExp + 16383 - bias ≤ 32767
  exp_le : e ≤ maxExp
  fraction : m < 2 ^ bits
  exp : r.exp.toNat = if e = maxExp then 32767 else e + 16383 - bias
  sig : r.sig.toNat = (2 ^ bits + m) * 2 ^ (63 - bits)
  tag : r.tag = .valid

variable {maxExp bias bits e m : ℕ}

theorem Loaded.two_pow_le (h : Loaded maxExp bias bits e m r) : 2 ^ 63 ≤ r.sig.toNat := by
  have hpow : (2 : ℕ) ^ 63 = 2 ^ bits * 2 ^ (63 - bits) := by
    rw [← pow_add]
    congr 1
    have := h.bits_lt
    omega
  rw [h.sig, hpow, Nat.add_mul]
  exact Nat.le_add_right _ _

theorem Loaded.msb (h : Loaded maxExp bias bits e m r) : r.sig.msb = true := by
  rw [BitVec.msb_eq_true_iff_two_mul_ge]
  have := h.two_pow_le
  omega

theorem Loaded.exp_le_max (h : Loaded maxExp bias bits e m r) : r.exp.toNat ≤ EXP_MAX + 1 := by
  have h₁ := h.exp
  have h₂ := h.maxExp_le
  have h₃ := h.exp_le
  unfold EXP_MAX
  split_ifs at h₁ <;> omega

theorem Loaded.extended (h : Loaded maxExp bias bits e m r) : (normalizeShort r).Extended := by
  have hne : r.sig ≠ 0 := by
    intro hzero
    have := h.two_pow_le
    rw [hzero] at this
    exact absurd this (by decide)
  rw [normalizeShort_of_msb h.msb]
  refine ⟨h.exp_le_max, ?_⟩
  dsimp only
  rw [h.tag]
  exact ⟨fun htag => by split_ifs at htag, fun hzero => absurd hzero hne⟩

theorem Loaded.value (h : Loaded maxExp bias bits e m r) (hne : ¬ (e = 0 ∧ m = 0)) :
    (normalizeShort r).value = loadedValue maxExp bias bits r.sign e m := by
  have hmax := h.maxExp_le
  have hle := h.exp_le
  have hvalue : (normalizeShort r).value = r.value := by
    rw [normalizeShort_of_msb h.msb]
    rfl
  rw [hvalue, loadedValue, if_neg hne]
  by_cases he : e = maxExp
  · have hexp : r.exp = 32767 := by
      rw [toNat_exp_eq_max, h.exp, if_pos he]
    have hsig : r.sig ≠ 0 := by
      intro hzero
      have := h.two_pow_le
      rw [hzero] at this
      exact absurd this (by decide)
    have hinf : r.sig = 1 <<< 63 ↔ m = 0 := by
      have hpow : (2 : ℕ) ^ 63 = 2 ^ bits * 2 ^ (63 - bits) := by
        rw [← pow_add]
        congr 1
        have := h.bits_lt
        omega
      have hpos : 0 < 2 ^ (63 - bits) := by positivity
      rw [← BitVec.toNat_inj, h.sig]
      show _ = 2 ^ 63 ↔ _
      rw [hpow, Nat.mul_left_inj hpos.ne']
      omega
    rw [if_pos he, Reg.value, if_neg hsig, if_pos hexp]
    simp only [hinf]
  · rw [if_neg he]
    have hexp := h.exp
    rw [if_neg he] at hexp
    exact value_fraction h.bits_lt h.bias_le (by omega) h.sig hexp

/-- `r_mov` gives the number in memory, unless that is a denormal one. -/
theorem loadedValue_eq (sign : Bool) (hmax : maxExp ≠ 0) (h : e = 0 → m = 0) :
    loadedValue maxExp bias bits sign e m = formatValue maxExp bias bits sign e m := by
  by_cases he : e = 0
  · rw [loadedValue, if_pos ⟨he, h he⟩, formatValue, if_neg (by omega), if_pos he, h he]
    cases sign <;> simp [signed]
  · rw [loadedValue, if_neg fun hz => he hz.1, formatValue, if_neg he]

theorem and_field_eq_iff {w : ℕ} (x : BitVec w) (k : ℕ) (d : BitVec w) (hd : d >>> k <<< k = d) :
    x &&& d = d ↔ x >>> k &&& d >>> k = d >>> k := by
  rw [← BitVec.ushiftRight_and_distrib]
  refine ⟨fun h => by rw [h], fun h => ?_⟩
  have hand : (x &&& d) >>> k <<< k = x &&& d := by
    ext i hi
    have hdi : (d >>> k <<< k)[i] = d[i] := by simp only [hd]
    by_cases hik : i < k
    · simp only [BitVec.getElem_shiftLeft, BitVec.getElem_and, hik, decide_true, Bool.not_true,
        Bool.false_and] at hdi ⊢
      rw [← hdi, Bool.and_false]
    · have hki : k + (i - k) = i := Nat.add_sub_cancel' (Nat.le_of_not_lt hik)
      simp only [BitVec.getElem_shiftLeft, BitVec.getElem_and, hik, decide_false, Bool.not_false,
        Bool.true_and, BitVec.getElem_ushiftRight, hki, BitVec.getLsbD_and] at hdi ⊢
      rw [hdi, BitVec.getLsbD_eq_getElem hi]
  rw [← hand, h, hd]

theorem toNat_and_mask {w : ℕ} (x c : BitVec w) {n : ℕ} (hc : c.toNat = 2 ^ n - 1) :
    (x &&& c).toNat = x.toNat % 2 ^ n := by
  rw [BitVec.toNat_and, hc, Nat.and_two_pow_sub_one_eq_mod]

def floatExp (w : BitVec 32) : ℕ := w.toNat / 2 ^ 23 % 2 ^ 8

def floatFraction (w : BitVec 32) : ℕ := w.toNat % 2 ^ 23

def floatValue (w : BitVec 32) : Value := formatValue 255 127 23 w.msb (floatExp w)
    (floatFraction w)

theorem toNat_floatExp (w : BitVec 32) : (w >>> 23 &&& 0xff).toNat = floatExp w := by
  rw [toNat_and_mask _ _ (n := 8) rfl, BitVec.toNat_ushiftRight, Nat.shiftRight_eq_div_pow]
  rfl

theorem floatExp_eq_max (w : BitVec 32) : w &&& 0x7f800000 = 0x7f800000 ↔ floatExp w = 255 := by
  rw [and_field_eq_iff w 23 _ (by decide), ← BitVec.toNat_inj, ← toNat_floatExp]
  rfl

theorem float_eq_zero (w : BitVec 32) :
    w &&& 0x7fffffff = 0 ↔ floatExp w = 0 ∧ floatFraction w = 0 := by
  rw [← BitVec.toNat_inj, toNat_and_mask _ _ (n := 31) rfl, floatExp, floatFraction]
  show _ = 0 ↔ _
  omega

theorem sign_bit (w : BitVec 32) : decide (w &&& 0x80000000 ≠ 0) = w.msb := by
  have hmsb : w.msb = w.getLsbD 31 := by simp [BitVec.msb_eq_getLsbD_last]
  rw [show (0x80000000 : BitVec 32) = BitVec.twoPow 32 31 by decide, BitVec.and_twoPow, hmsb]
  cases w.getLsbD 31 <;> decide

theorem toNat_shiftLeft_or {w : ℕ} {x y : BitVec w} {n : ℕ} (hx : x.toNat * 2 ^ n < 2 ^ w)
    (hy : y.toNat < 2 ^ n) : (x <<< n ||| y).toNat = x.toNat * 2 ^ n + y.toNat := by
  rw [BitVec.toNat_or, BitVec.toNat_shiftLeft, Nat.shiftLeft_eq, Nat.mod_eq_of_lt hx,
    ← Nat.shiftLeft_eq, Nat.shiftLeft_add_eq_or_of_lt hy]

theorem rMovFloat_loaded (w : BitVec 32) (h : ¬ w &&& 0x7fffffff = 0) :
    ∃ r, rMovFloat w = normalizeShort r ∧ r.sign = w.msb ∧
      Loaded 255 127 23 (floatExp w) (floatFraction w) r := by
  refine ⟨_, (if_neg h).trans rfl, sign_bit w, ?_⟩
  have hexp : floatExp w < 256 := Nat.mod_lt _ (by decide)
  have hfraction : floatFraction w < 2 ^ 23 := Nat.mod_lt _ (by decide)
  refine ⟨by decide, by decide, by decide, by omega, hfraction, ?_, ?_, rfl⟩
  · simp only [floatExp_eq_max]
    split_ifs with hmax
    · rfl
    · rw [BitVec.toNat_add, BitVec.toNat_sub, BitVec.toNat_setWidth, toNat_floatExp]
      show ((65536 - 127 + floatExp w % 65536) % 65536 + 16383) % 65536 = _
      omega
  · have hshift : ((w &&& 0x7fffff) <<< 8).toNat = floatFraction w * 2 ^ 8 := by
      rw [BitVec.toNat_shiftLeft, toNat_and_mask _ _ (n := 23) rfl, Nat.shiftLeft_eq]
      exact Nat.mod_eq_of_lt (by omega)
    have hsigh := @toNat_shiftLeft_or 32 1 ((w &&& 0x7fffff) <<< 8) 31 (by decide) (by omega)
    rw [toNat_sig]
    dsimp only
    rw [BitVec.or_comm]
    refine (congrArg (· * 2 ^ 32 + 0) hsigh).trans ?_
    rw [hshift]
    show (1 * 2 ^ 31 + floatFraction w * 2 ^ 8) * 2 ^ 32 + 0 = (2 ^ 23 + floatFraction w) * 2 ^ 40
    omega

theorem rMovFloat_zero {w : BitVec 32} (h : w &&& 0x7fffffff = 0) :
    rMovFloat w = { CONST_Z with sign := w.msb } := by
  rw [← sign_bit]
  exact if_pos h

theorem sig_zero (sign : Bool) : ({ CONST_Z with sign := sign } : Reg).sig = 0 := by
  cases sign <;> decide

theorem extended_zero (sign : Bool) : ({ CONST_Z with sign := sign } : Reg).Extended :=
  ⟨Nat.zero_le _, iff_of_true rfl (sig_zero sign)⟩

theorem rMovFloat_extended (w : BitVec 32) : (rMovFloat w).Extended := by
  by_cases h : w &&& 0x7fffffff = 0
  · rw [rMovFloat_zero h]
    exact extended_zero _
  · obtain ⟨r, hr, -, hloaded⟩ := rMovFloat_loaded w h
    rw [hr]
    exact hloaded.extended

theorem rMovFloat_value (w : BitVec 32) :
    (rMovFloat w).value = loadedValue 255 127 23 w.msb (floatExp w) (floatFraction w) := by
  by_cases h : w &&& 0x7fffffff = 0
  · rw [rMovFloat_zero h, loadedValue, if_pos ((float_eq_zero w).mp h)]
    exact if_pos (sig_zero _)
  · obtain ⟨r, hr, hsign, hloaded⟩ := rMovFloat_loaded w h
    rw [hr, hloaded.value fun hz => h ((float_eq_zero w).mpr hz), hsign]

def doubleExp (m64 : BitVec 32) : ℕ := m64.toNat / 2 ^ 20 % 2 ^ 11

def doubleFraction (m64 l64 : BitVec 32) : ℕ := m64.toNat % 2 ^ 20 * 2 ^ 32 + l64.toNat

def doubleValue (m64 l64 : BitVec 32) : Value :=
  formatValue 2047 1023 52 m64.msb (doubleExp m64) (doubleFraction m64 l64)

theorem toNat_doubleExp (m64 : BitVec 32) : (m64 >>> 20 &&& 0x7ff).toNat = doubleExp m64 := by
  rw [toNat_and_mask _ _ (n := 11) rfl, BitVec.toNat_ushiftRight, Nat.shiftRight_eq_div_pow]
  rfl

theorem doubleExp_eq_max (m64 : BitVec 32) :
    m64 &&& 0x7ff00000 = 0x7ff00000 ↔ doubleExp m64 = 2047 := by
  rw [and_field_eq_iff m64 20 _ (by decide), ← BitVec.toNat_inj, ← toNat_doubleExp]
  rfl

theorem double_eq_zero (m64 l64 : BitVec 32) : (m64 &&& 0x7fffffff) ||| l64 = 0 ↔
    doubleExp m64 = 0 ∧ doubleFraction m64 l64 = 0 := by
  have hor : (m64 &&& 0x7fffffff) ||| l64 = 0 ↔ (m64 &&& 0x7fffffff).toNat = 0 ∧ l64.toNat = 0 :=
    BitVec.or_eq_zero_iff.trans (and_congr BitVec.toNat_inj.symm BitVec.toNat_inj.symm)
  rw [hor, toNat_and_mask _ _ (n := 31) rfl, doubleExp, doubleFraction]
  omega

theorem rMovDouble_loaded (m64 l64 : BitVec 32) (h : ¬ (m64 &&& 0x7fffffff) ||| l64 = 0) :
    ∃ r, rMovDouble m64 l64 = normalizeShort r ∧ r.sign = m64.msb ∧
      Loaded 2047 1023 52 (doubleExp m64) (doubleFraction m64 l64) r := by
  refine ⟨_, (if_neg h).trans rfl, sign_bit m64, ?_⟩
  have hexp : doubleExp m64 < 2048 := Nat.mod_lt _ (by decide)
  have hl := l64.isLt
  have hfraction : doubleFraction m64 l64 < 2 ^ 52 := by
    unfold doubleFraction
    omega
  refine ⟨by decide, by decide, by decide, by omega, hfraction, ?_, ?_, rfl⟩
  · simp only [doubleExp_eq_max]
    split_ifs with hmax
    · rfl
    · rw [BitVec.toNat_add, BitVec.toNat_sub, BitVec.toNat_setWidth, toNat_doubleExp]
      show ((65536 - 1023 + doubleExp m64 % 65536) % 65536 + 16383) % 65536 = _
      omega
  · -- the upper half has the first 20 bits of the fraction and 11 bits of the lower word
    have hlow : (l64 >>> 21).toNat = l64.toNat / 2 ^ 21 := by
      rw [BitVec.toNat_ushiftRight, Nat.shiftRight_eq_div_pow]
    have hmask : (m64 &&& 0xfffff).toNat = m64.toNat % 2 ^ 20 := toNat_and_mask _ _ rfl
    have hfield := @toNat_shiftLeft_or 32 (m64 &&& 0xfffff) (l64 >>> 21) 11 (by omega) (by omega)
    have hsigh := @toNat_shiftLeft_or 32 1 ((m64 &&& 0xfffff) <<< 11 ||| l64 >>> 21) 31 (by decide)
      (by omega)
    rw [toNat_sig]
    dsimp only
    rw [BitVec.or_comm _ 0x80000000, BitVec.or_assoc]
    refine (congrArg (· * 2 ^ 32 + (l64 <<< 11).toNat) hsigh).trans ?_
    rw [hfield, hmask, hlow, BitVec.toNat_shiftLeft, Nat.shiftLeft_eq, doubleFraction]
    show (1 * 2 ^ 31 + _) * 2 ^ 32 + _ = (2 ^ 52 + _) * 2 ^ 11
    omega

theorem rMovDouble_zero {m64 l64 : BitVec 32} (h : (m64 &&& 0x7fffffff) ||| l64 = 0) :
    rMovDouble m64 l64 = { CONST_Z with sign := m64.msb } := by
  rw [← sign_bit]
  exact if_pos h

theorem rMovDouble_extended (m64 l64 : BitVec 32) : (rMovDouble m64 l64).Extended := by
  by_cases h : (m64 &&& 0x7fffffff) ||| l64 = 0
  · rw [rMovDouble_zero h]
    exact extended_zero _
  · obtain ⟨r, hr, -, hloaded⟩ := rMovDouble_loaded m64 l64 h
    rw [hr]
    exact hloaded.extended

theorem rMovDouble_value (m64 l64 : BitVec 32) : (rMovDouble m64 l64).value =
    loadedValue 2047 1023 52 m64.msb (doubleExp m64) (doubleFraction m64 l64) := by
  by_cases h : (m64 &&& 0x7fffffff) ||| l64 = 0
  · rw [rMovDouble_zero h, loadedValue, if_pos ((double_eq_zero m64 l64).mp h)]
    exact if_pos (sig_zero _)
  · obtain ⟨r, hr, hsign, hloaded⟩ := rMovDouble_loaded m64 l64 h
    rw [hr, hloaded.value fun hz => h ((double_eq_zero m64 l64).mpr hz), hsign]

theorem abs_signed (s : Bool) (q : ℚ) : |signed s q| = |q| := by
  cases s
  · rfl
  · exact abs_neg q

theorem signed_natAbs (s : ℤ) : signed (decide (s < 0)) (s.natAbs : ℚ) = s := by
  obtain h | h := le_or_gt 0 s
  · rw [signed, if_neg (by simpa using h), Nat.cast_natAbs, abs_of_nonneg h]
  · rw [signed, if_pos (by simpa using h), Nat.cast_natAbs, abs_of_neg h, Int.cast_neg, neg_neg]

theorem shiftUp_msb {n : ℕ} {sig : BitVec 64} (hn : 64 ≤ n) (hsig : sig ≠ 0) :
    (shiftUp n sig).2.msb = true := by
  refine (shiftUp_ends n sig).resolve_right fun hzero => ?_
  have hmagnitude := shiftUp_magnitude n sig
  have hpos : 1 ≤ sig.toNat := Nat.one_le_iff_ne_zero.mpr fun h => hsig (BitVec.eq_of_toNat_eq h)
  have hpow : 2 ^ 64 ≤ sig.toNat * 2 ^ n :=
    (Nat.pow_le_pow_right (by decide) hn).trans (Nat.le_mul_of_pos_left _ hpos)
  rw [hzero, Nat.pow_zero, Nat.mul_one] at hmagnitude
  omega

variable {s : ℤ}

theorem rMovInt_spec (hbits : 2 ≤ bits) (hle : bits ≤ 64) (hs : s ≠ 0)
    (hlt : s.natAbs * 2 ^ (64 - bits) < 2 ^ 64) :
    (rMovInt bits s).Extended ∧ (rMovInt bits s).value = .fin s := by
  obtain ⟨start, hstart⟩ : ∃ start, start = BitVec.ofNat 64 (s.natAbs * 2 ^ (64 - bits)) := ⟨_, rfl⟩
  obtain ⟨n, hn⟩ : ∃ n, n = EXP_BIAS + bits - 1 := ⟨_, rfl⟩
  have hbias : n = 16382 + bits := by
    unfold EXP_BIAS at hn
    omega
  have htoNat : start.toNat = s.natAbs * 2 ^ (64 - bits) := by
    rw [hstart, BitVec.toNat_ofNat, Nat.mod_eq_of_lt hlt]
  have hne : start ≠ 0 := by
    intro hzero
    rw [hzero] at htoNat
    have : 0 < s.natAbs * 2 ^ (64 - bits) := by positivity
    exact absurd htoNat this.ne
  obtain ⟨r, hr⟩ : ∃ r, r = Reg.setSig ⟨decide (s < 0), .valid, BitVec.ofNat 16 (shiftUp n start).1,
    0, 0⟩
    (shiftUp n start).2 := ⟨_, rfl⟩
  have hsig : r.sig = (shiftUp n start).2 := by rw [hr, sig_setSig]
  have hmsb : r.sig.msb = true := by
    rw [hsig]
    exact shiftUp_msb (by omega) hne
  have hexp : r.exp.toNat = (shiftUp n start).1 := by
    have := shiftUp_le n start
    rw [hr]
    exact (BitVec.toNat_ofNat _ _).trans (Nat.mod_eq_of_lt (by omega))
  have hexple : r.exp.toNat ≤ 16446 := by
    rw [hexp]
    exact (shiftUp_le n start).trans (by omega)
  have hmagnitude : r.magnitude = s.natAbs * 2 ^ 16446 := by
    rw [Reg.magnitude, hsig, hexp, shiftUp_magnitude, htoNat, Nat.mul_assoc, ← pow_add]
    congr 2
    omega
  have hrun : rMovInt bits s = r := by
    have hload : rMovInt bits s = normalizeShort r := by
      rw [rMovInt, if_neg hs, ← hstart, ← hn, hr]
    have hle : r.exp.toNat ≤ EXP_MAX + 1 := hexple.trans (by decide)
    rw [hload, normalizeShort_of_msb hmsb, toInt_exp hle, if_neg]
    unfold EXP_MAX
    omega
  have hsigne : r.sig ≠ 0 := by
    rw [hsig]
    intro hzero
    rw [hsig, hzero] at hmsb
    exact absurd hmsb (by decide)
  rw [hrun]
  constructor
  · refine ⟨hexple.trans (by decide), iff_of_false ?_ hsigne⟩
    rw [hr]
    exact Tag.noConfusion
  · rw [value_finite fun h => by rw [toNat_exp_eq_max] at h; omega, hmagnitude, Nat.cast_mul,
      Nat.cast_pow, Nat.cast_two, mul_div_assoc, div_self (by positivity), mul_one, hr]
    exact congrArg Value.fin (signed_natAbs s)

theorem rMovInt_zero : (rMovInt bits 0).Extended ∧ (rMovInt bits 0).value = .fin (0 : ℤ) := by
  rw [rMovInt, if_pos rfl, Int.cast_zero]
  exact ⟨extended_zero false, if_pos (sig_zero false)⟩

theorem rMovInt_toInt {w : ℕ} (hw : 2 ≤ w) (hle : w ≤ 64) (x : BitVec w) :
    (rMovInt w x.toInt).Extended ∧ (rMovInt w x.toInt).value = .fin x.toInt := by
  by_cases hzero : x.toInt = 0
  · rw [hzero]
    exact rMovInt_zero
  · refine rMovInt_spec hw hle hzero ?_
    have hpow : (2 : ℕ) ^ 64 = 2 ^ w * 2 ^ (64 - w) := by
      rw [← pow_add, Nat.add_sub_cancel' hle]
    rw [hpow]
    refine Nat.mul_lt_mul_of_pos_right ?_ (by positivity)
    have hlo : -2 ^ w ≤ 2 * x.toInt := BitVec.le_two_mul_toInt
    have hhi : 2 * x.toInt < 2 ^ w := BitVec.two_mul_toInt_lt
    have hcast : ((2 ^ w : ℕ) : ℤ) = 2 ^ w := by push_cast; rfl
    omega

end DjgppLibc.Emu387
