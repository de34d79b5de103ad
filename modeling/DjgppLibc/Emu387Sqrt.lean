import DjgppLibc.Emu387Rounding
import DjgppLibc.Emu387Sums
import DjgppLibc.SquareRoots

/-!
# Square roots in the 387 emulator

`fsqrt` finds the root bit by bit. What remains and what is tried are kept in 64 bits, where the
last two steps need more of them: a remainder of 2 ^ 62 or more loses its upper bits when it is
shifted. If the exponent is odd, the last bit of the significand is lost at once.
-/
namespace DjgppLibc.Emu387

open X86 SquareRoots

/-- The variables of the loop of `fsqrt`. -/
structure Root where
  val : BitVec 64
  result : BitVec 64
  side : BitVec 64
  left : BitVec 64
  exp : ℤ
deriving DecidableEq

def sqrtStep (p : Root) : Root :=
  let left := p.left <<< 2 + p.val >>> 62
  let val := p.val <<< 1 <<< 1
  if left ≥ p.side * 2 + 1 then
    { val := val, result := p.result <<< 1 ||| 1, side := (p.side + 1) * 2
      left := left - (p.side * 2 + 1), exp := p.exp + 1 }
  else
    { val := val, result := p.result <<< 1, side := p.side * 2, left := left, exp := p.exp + 1 }

def sqrtLoop : ℕ → Root → Option Root
  | 0, _ => none
  | n + 1, p => if p.result.msb then some p else sqrtLoop n (sqrtStep p)

attribute [grind =] sqrtLoop

def sqrtStart (t : Reg) : Root :=
  let odd := t.exp &&& 1 ≠ 0
  let val := if odd then t.sig >>> 1 else t.sig
  let exp := if odd then t.exp + 1 else t.exp
  { val := val, result := 0, side := 0, left := 0, exp := (exp.toInt - EXP_BIAS - 1).tdiv 2 - 64 }

/-- `fsqrt`, with a limit for the tests of its loop. -/
def fsqrt (n : ℕ) : Emu Unit := do
  if ← empty 0 then return
  let t := (← get).fpu.st 0
  if t.tag = .zero then return
  if t.exp.toInt > EXP_MAX ∧ (nanType t ≠ .none ∨ t.sign = false) then return
  if t.sign then
    raise EX_I
    modify fun m => { m with fpu := m.fpu.setSt 0 CONST_NAN }
  else
    match sqrtLoop n (sqrtStart t) with
    | none => fun _ => none
    | some p => modify fun m => { m with
        fpu := m.fpu.setSt 0 (Reg.setSig
          { t with exp := BitVec.ofInt 16 (p.exp + EXP_BIAS), tag := .valid } p.result) }

variable {p : Root} {t : Reg} {m : Machine} {v d n k r l : ℕ}

theorem toNat_double_or (x : BitVec 64) (h : x.toNat < 2 ^ 63) :
    (x <<< 1 ||| 1).toNat = 2 * x.toNat + 1 ∧ (x <<< 1).toNat = 2 * x.toNat := by
  constructor
  · rw [toNat_shiftLeft_or (by omega) (by decide), pow_one, mul_comm]
    rfl
  · rw [BitVec.toNat_shiftLeft, Nat.shiftLeft_eq, pow_one, Nat.mod_eq_of_lt (by omega), mul_comm]

/-- A step appends a bit to the result. -/
theorem sqrtStep_result (h : p.result.toNat < 2 ^ 63) :
    (sqrtStep p).result.toNat = 2 * p.result.toNat ∨
      (sqrtStep p).result.toNat = 2 * p.result.toNat + 1 := by
  obtain ⟨hone, hzero⟩ := toNat_double_or p.result h
  unfold sqrtStep
  dsimp only
  split_ifs
  · exact .inr hone
  · exact .inl hzero

/-- The variables hold the root and the rest of a number. -/
structure Root.Holds (p : Root) (v : ℕ) : Prop where
  result : p.result.toNat = v.sqrt
  side : p.side.toNat = 2 * v.sqrt
  left : p.left.toNat = rest v

theorem lt_four (hd : (p.val >>> 62).toNat = d) : d < 4 := by
  rw [← hd, BitVec.toNat_ushiftRight, Nat.shiftRight_eq_div_pow]
  exact Nat.div_lt_of_lt_mul p.val.isLt

/-- The remainder with the next two bits. -/
theorem Root.Holds.toNat_left (h : p.Holds v) (hd : (p.val >>> 62).toNat = d) :
    (p.left <<< 2 + p.val >>> 62).toNat = 4 * (rest v % 2 ^ 62) + d := by
  have hd4 := lt_four hd
  rw [BitVec.toNat_add, hd, BitVec.toNat_shiftLeft, Nat.shiftLeft_eq, h.left]
  omega

theorem Root.Holds.toNat_trial (h : p.Holds v) :
    (p.side * 2 + 1).toNat = (4 * v.sqrt + 1) % 2 ^ 64 := by
  have htwo : (2 : BitVec 64).toNat = 2 := rfl
  have hunit : (1 : BitVec 64).toNat = 1 := rfl
  rw [BitVec.toNat_add, BitVec.toNat_mul, h.side, htwo, hunit]
  omega

theorem Root.Holds.result_step (h : p.Holds v) (hd : (p.val >>> 62).toNat = d)
    (hroot : v.sqrt < 2 ^ 63) : (sqrtStep p).result.toNat =
      2 * v.sqrt + if (4 * v.sqrt + 1) % 2 ^ 64 ≤ 4 * (rest v % 2 ^ 62) + d then 1 else 0 := by
  obtain ⟨hone, hzero⟩ := toNat_double_or p.result (by rw [h.result]; omega)
  rw [← h.toNat_trial, ← h.toNat_left hd]
  unfold sqrtStep
  dsimp only
  split_ifs with hle hlt hlt
  · rw [hone, h.result]
  · exact absurd (BitVec.le_def.mp hle) hlt
  · exact absurd (BitVec.le_def.mpr hlt) hle
  · rw [hzero, h.result, Nat.add_zero]

theorem Root.Holds.step (h : p.Holds v) (hd : (p.val >>> 62).toNat = d) (hrest : rest v < 2 ^ 62)
    (hroot : v.sqrt < 2 ^ 62) : (sqrtStep p).Holds (4 * v + d) := by
  obtain ⟨hone, hzero⟩ := toNat_double_or p.result (by rw [h.result]; omega)
  have htwo : (2 : BitVec 64).toNat = 2 := rfl
  have hunit : (1 : BitVec 64).toNat = 1 := rfl
  have hleft := h.toNat_left hd
  have htrial := h.toNat_trial
  rw [Nat.mod_eq_of_lt hrest] at hleft
  rw [Nat.mod_eq_of_lt (by omega)] at htrial
  unfold sqrtStep
  dsimp only
  split_ifs with hle
  · rw [ge_iff_le, BitVec.le_def, hleft, htrial] at hle
    obtain ⟨hsqrt, hrest'⟩ := sqrt_step_one (lt_four hd) hle
    refine ⟨?_, ?_, ?_⟩
    · rw [hone, h.result, hsqrt]
    · rw [BitVec.toNat_mul, BitVec.toNat_add, h.side, htwo, hunit, hsqrt]
      omega
    · rw [BitVec.toNat_sub_of_le (by rwa [BitVec.le_def, hleft, htrial]), hleft, htrial, hrest']
  · rw [ge_iff_le, BitVec.le_def, hleft, htrial] at hle
    obtain ⟨hsqrt, hrest'⟩ := sqrt_step_zero (v := v) (d := d) (by omega)
    refine ⟨?_, ?_, ?_⟩
    · rw [hzero, h.result, hsqrt]
    · rw [BitVec.toNat_mul, h.side, htwo, hsqrt]
      omega
    · rw [hleft, hrest']

theorem sqrtStep_lost (h : p.Holds v) (hd : (p.val >>> 62).toNat = 0) (hrest : 2 ^ 62 ≤ rest v)
    (hroot : v.sqrt < 2 ^ 62) : (sqrtStep p).result.toNat = 2 * v.sqrt := by
  have hle := rest_le v
  rw [h.result_step hd (by omega), if_neg (by omega), Nat.add_zero]

theorem sqrtStep_last (h : p.Holds v) (hd : (p.val >>> 62).toNat = 0) (hlo : 2 ^ 62 ≤ v.sqrt)
    (hhi : v.sqrt < 2 ^ 63) : (sqrtStep p).result.toNat =
      2 * v.sqrt + if v.sqrt < rest v % 2 ^ 62 + 2 ^ 62 then 1 else 0 :=
  (h.result_step hd hhi).trans (congrArg _ (if_congr (by omega) rfl rfl))

theorem exp_iterate (p : Root) (k : ℕ) : (sqrtStep^[k] p).exp = p.exp + k := by
  induction k with
  | zero => simp
  | succ k ih =>
      have hstep : ∀ q : Root, (sqrtStep q).exp = q.exp + 1 := by
        intro q
        unfold sqrtStep
        dsimp only
        split_ifs <;> rfl
      rw [Function.iterate_succ_apply', hstep, ih]
      push_cast
      ring

theorem val_iterate (p : Root) (k : ℕ) :
    (sqrtStep^[k] p).val.toNat = p.val.toNat * 4 ^ k % 2 ^ 64 := by
  induction k with
  | zero => simpa using (Nat.mod_eq_of_lt p.val.isLt).symm
  | succ k ih =>
      have hstep : ∀ q : Root, (sqrtStep q).val.toNat = q.val.toNat * 4 % 2 ^ 64 := by
        intro q
        have hval : (sqrtStep q).val = q.val <<< 1 <<< 1 := by
          unfold sqrtStep
          dsimp only
          split_ifs <;> rfl
        rw [hval, BitVec.toNat_shiftLeft, BitVec.toNat_shiftLeft, Nat.shiftLeft_eq,
          Nat.shiftLeft_eq]
        omega
      rw [Function.iterate_succ_apply', hstep, ih, Nat.mod_mul_mod, pow_succ 4 k, mul_assoc]

theorem taken (p : Root) (hk : k < 64) : ((sqrtStep^[k] p).val >>> 62).toNat =
    p.val.toNat * 2 ^ 64 / 4 ^ (63 - k) % 4 := by
  have hpow : 4 ^ 31 * 4 ^ 32 = 4 ^ (63 - k) * 4 ^ k := by
    rw [← pow_add, ← pow_add]
    congr 1
    omega
  have hword : (2 : ℕ) ^ 64 = 4 ^ 32 := by norm_num
  have hsplit : p.val.toNat * 4 ^ k / 4 ^ 31 = p.val.toNat * 2 ^ 64 / 4 ^ (63 - k) :=
    calc p.val.toNat * 4 ^ k / 4 ^ 31 = p.val.toNat * 4 ^ k * 4 ^ 32 / (4 ^ 31 * 4 ^ 32) :=
          (Nat.mul_div_mul_right _ _ (by positivity)).symm
      _ = p.val.toNat * 2 ^ 64 * 4 ^ k / (4 ^ (63 - k) * 4 ^ k) := by
          rw [hpow, hword, Nat.mul_right_comm]
      _ = p.val.toNat * 2 ^ 64 / 4 ^ (63 - k) := Nat.mul_div_mul_right _ _ (by positivity)
  have hmod : p.val.toNat * 4 ^ k % 2 ^ 64 / 2 ^ 62 = p.val.toNat * 4 ^ k / 4 ^ 31 % 4 := by
    have hfour : (4 : ℕ) ^ 31 = 2 ^ 62 := by norm_num
    have hsixty : (2 : ℕ) ^ 64 = 2 ^ 62 * 4 := rfl
    rw [hfour, hsixty, Nat.mod_mul_right_div_self]
  rw [BitVec.toNat_ushiftRight, Nat.shiftRight_eq_div_pow, val_iterate, hmod, hsplit]

theorem holds_iterate (hstart : p.result = 0 ∧ p.side = 0 ∧ p.left = 0) (hk : k ≤ 62) :
    (sqrtStep^[k] p).Holds (p.val.toNat * 2 ^ 64 / 4 ^ (64 - k)) := by
  have hlt : p.val.toNat * 2 ^ 64 < 4 ^ 64 := by
    have := p.val.isLt
    omega
  induction k with
  | zero =>
      obtain ⟨hresult, hside, hleft⟩ := hstart
      rw [Nat.sub_zero, Nat.div_eq_of_lt hlt]
      exact ⟨by rw [Function.iterate_zero_apply, hresult]; rfl,
        by rw [Function.iterate_zero_apply, hside]; rfl,
        by rw [Function.iterate_zero_apply, hleft]; rfl⟩
  | succ k ih =>
      have hprev := ih (by omega)
      have hindex : 63 - k + 1 = 64 - k := by omega
      have hindex' : 64 - (k + 1) = 63 - k := by omega
      have hnext := div_four_pow (p.val.toNat * 2 ^ 64) (63 - k)
      rw [hindex] at hnext
      have hroot : (p.val.toNat * 2 ^ 64 / 4 ^ (64 - k)).sqrt < 2 ^ 61 := by
        refine (sqrt_lt_two_pow (k := k) (Nat.div_lt_of_lt_mul ?_)).trans_le
          (Nat.pow_le_pow_right (by decide) (by omega))
        rw [← pow_add, Nat.sub_add_cancel (by omega)]
        exact hlt
      have hrest := rest_le (p.val.toNat * 2 ^ 64 / 4 ^ (64 - k))
      rw [Function.iterate_succ_apply', hindex', hnext]
      exact hprev.step (taken p (by omega)) (by omega) (by omega)

theorem result_iterate (h : p.result = 1) (hk : k ≤ 63) :
    2 ^ k ≤ (sqrtStep^[k] p).result.toNat ∧ (sqrtStep^[k] p).result.toNat < 2 ^ (k + 1) := by
  induction k with
  | zero =>
      rw [Function.iterate_zero_apply, h]
      decide
  | succ k ih =>
      obtain ⟨hlo, hhi⟩ := ih (by omega)
      have hpow : 2 ^ (k + 1) ≤ 2 ^ 63 := Nat.pow_le_pow_right (by decide) (by omega)
      rw [Function.iterate_succ_apply', pow_succ _ (k + 1), pow_succ]
      rw [pow_succ] at hhi
      obtain hzero | hone := sqrtStep_result (p := sqrtStep^[k] p) (by rw [pow_succ] at hpow; omega)
      · omega
      · omega

theorem sqrtLoop_iterate (hbefore : ∀ j < k, (sqrtStep^[j] p).result.msb = false)
    (hlast : (sqrtStep^[k] p).result.msb = true) (hn : k < n) :
    sqrtLoop n p = some (sqrtStep^[k] p) := by
  induction k generalizing p n with
  | zero =>
      obtain ⟨n, rfl⟩ := Nat.exists_eq_succ_of_ne_zero (Nat.ne_of_gt hn)
      exact if_pos hlast
  | succ k ih =>
      obtain ⟨n, rfl⟩ := Nat.exists_eq_add_one.mpr (Nat.zero_lt_of_lt hn)
      have hfirst : ¬ p.result.msb = true := by
        rw [Bool.not_eq_true]
        exact hbefore 0 (Nat.succ_pos k)
      rw [sqrtLoop, if_neg hfirst]
      exact ih (fun j hj => hbefore (j + 1) (by omega)) hlast (by omega)

/-- The significand with zeros behind it, for an even exponent. -/
def Reg.radicand (r : Reg) : ℕ :=
  (if r.exp.toNat % 2 = 1 then r.sig.toNat / 2 else r.sig.toNat) * 2 ^ 64

def Reg.lostBit (r : Reg) : ℕ := if r.exp.toNat % 2 = 1 then r.sig.toNat % 2 else 0

def Reg.rootExp (r : Reg) : ℕ := (r.exp.toNat + r.exp.toNat % 2 + 16382) / 2

/-- The last two steps are right: the remainder before them keeps all its bits, and what remains
after the first of them either leaves the last bit zero, or is found to make it one. -/
structure Reg.RootFits (r : Reg) : Prop where
  before : rest (r.radicand / 16) < 2 ^ 62
  last : rest (r.radicand / 4) + r.lostBit * 2 ^ 61 ≤ (r.radicand / 4).sqrt ∨
    (r.radicand / 4).sqrt < rest (r.radicand / 4) % 2 ^ 62 + 2 ^ 62 ∧
      rest (r.radicand / 4) + r.lostBit * 2 ^ 61 ≤ 2 * (r.radicand / 4).sqrt

theorem and_one_ne {x : BitVec 16} : x &&& 1 ≠ 0 ↔ x.toNat % 2 = 1 := by
  have hand : (x &&& 1).toNat = x.toNat % 2 := by
    rw [BitVec.toNat_and]
    exact Nat.and_two_pow_sub_one_eq_mod _ 1
  have hzero : x &&& 1 = 0 ↔ (x &&& 1).toNat = 0 := BitVec.toNat_inj.symm
  rw [Ne, hzero, hand]
  omega

theorem sqrtStart_spec (h : t.Normal) : (sqrtStart t).val.toNat * 2 ^ 64 = t.radicand ∧
    (sqrtStart t).exp + 64 + EXP_BIAS = t.rootExp := by
  have hexp := h.exp
  have hint := h.toInt_exp
  have hone : (1 : BitVec 16).toNat = 1 := rfl
  have hbias : (EXP_BIAS : ℤ) = 16383 := rfl
  unfold EXP_MAX at hexp
  unfold sqrtStart Reg.radicand Reg.rootExp
  by_cases hodd : t.exp.toNat % 2 = 1
  · have hnext : (t.exp + 1).toInt = t.exp.toNat + 1 := by
      rw [BitVec.toInt_eq_toNat_of_lt] <;> rw [BitVec.toNat_add, hone]
      · omega
      · omega
    simp only [if_pos (and_one_ne.mpr hodd), if_pos hodd, BitVec.toNat_ushiftRight, hnext]
    rw [Nat.shiftRight_eq_div_pow, hbias, Int.tdiv_eq_ediv_of_dvd (by omega)]
    refine ⟨rfl, ?_⟩
    omega
  · simp only [if_neg (and_one_ne.not.mpr hodd), if_neg hodd, hint]
    rw [hbias, Int.tdiv_eq_ediv_of_dvd (by omega)]
    refine ⟨trivial, ?_⟩
    omega

/-- The operand is the radicand with the lost bit, in units of the square of a unit of the root. -/
theorem magnitude_radicand (t : Reg) : t.magnitude * 2 ^ 16446 =
    (t.radicand + t.lostBit * 2 ^ 63) * 2 ^ (2 * t.rootExp) := by
  unfold Reg.magnitude Reg.radicand Reg.lostBit Reg.rootExp
  by_cases hodd : t.exp.toNat % 2 = 1
  · have hexp : t.exp.toNat + 16446 = 63 + 2 * ((t.exp.toNat + t.exp.toNat % 2 + 16382) / 2) := by
      omega
    have hsig : t.sig.toNat / 2 * 2 ^ 64 + t.sig.toNat % 2 * 2 ^ 63 = t.sig.toNat * 2 ^ 63 := by
      omega
    rw [if_pos hodd, if_pos hodd, hsig, mul_assoc, ← pow_add, hexp, pow_add, ← mul_assoc]
  · have hexp : t.exp.toNat + 16446 = 64 + 2 * ((t.exp.toNat + t.exp.toNat % 2 + 16382) / 2) := by
      omega
    rw [if_neg hodd, if_neg hodd, Nat.zero_mul, Nat.add_zero, mul_assoc, ← pow_add, hexp, pow_add,
      ← mul_assoc]

theorem radicand_bounds (h : t.Normal) :
    4 ^ 63 ≤ t.radicand ∧ t.radicand < 4 ^ 64 ∧ t.radicand % 2 ^ 64 = 0 := by
  have hlo := h.two_pow_le
  unfold Reg.radicand
  split_ifs <;> omega

theorem sqrtLoop_ends (h : t.Normal) (hn : 65 ≤ n) :
    sqrtLoop n (sqrtStart t) = some (sqrtStep^[64] (sqrtStart t)) := by
  obtain ⟨hlo, hhi, -⟩ := radicand_bounds h
  have hfirst := holds_iterate (p := sqrtStart t) ⟨rfl, rfl, rfl⟩ (show 1 ≤ 62 by decide)
  rw [(sqrtStart_spec h).1, Function.iterate_one] at hfirst
  have hroot : (t.radicand / 4 ^ 63).sqrt = 1 := by
    symm
    rw [Nat.eq_sqrt']
    exact ⟨Nat.div_pos hlo (by positivity), Nat.div_lt_of_lt_mul hhi⟩
  have hone : (sqrtStep (sqrtStart t)).result = 1 := by
    rw [← BitVec.toNat_inj, hfirst.result, hroot]
    rfl
  refine sqrtLoop_iterate (fun j hj => ?_) ?_ hn
  · obtain - | j := j
    · exact BitVec.msb_zero
    · rw [Function.iterate_succ_apply]
      have hlt := (result_iterate hone (show j ≤ 63 by omega)).2
      have hle : 2 ^ (j + 1) ≤ 2 ^ 63 := Nat.pow_le_pow_right (by decide) (by omega)
      rw [BitVec.msb_eq_false_iff_two_mul_lt]
      omega
  · have hlow := (result_iterate (k := 63) hone le_rfl).1
    rw [← Function.iterate_succ_apply] at hlow
    exact msb_of_two_pow_le hlow

theorem holds_sixty_two (h : t.Normal) :
    (sqrtStep^[62] (sqrtStart t)).Holds (t.radicand / 16) ∧
      ((sqrtStep^[62] (sqrtStart t)).val >>> 62).toNat = 0 ∧
      ((sqrtStep^[63] (sqrtStart t)).val >>> 62).toNat = 0 := by
  obtain ⟨-, -, hzeros⟩ := radicand_bounds h
  obtain ⟨hval, -⟩ := sqrtStart_spec h
  have hsixty := holds_iterate (p := sqrtStart t) ⟨rfl, rfl, rfl⟩ (le_refl 62)
  have htaken := taken (sqrtStart t) (show 62 < 64 by decide)
  have htaken' := taken (sqrtStart t) (show 63 < 64 by decide)
  rw [hval] at hsixty htaken htaken'
  refine ⟨hsixty, htaken.trans ?_, htaken'.trans ?_⟩ <;> omega

theorem root_missed (h : t.Normal) (hbefore : 2 ^ 62 ≤ rest (t.radicand / 16)) :
    2 ^ 63 ≤ (sqrtStep^[64] (sqrtStart t)).result.toNat ∧
      ((sqrtStep^[64] (sqrtStart t)).result.toNat + 1) ^ 2 ≤ t.radicand := by
  obtain ⟨hlo, hhi, -⟩ := radicand_bounds h
  obtain ⟨hsixty, htaken, -⟩ := holds_sixty_two h
  have hlow : 2 ^ 61 ≤ (t.radicand / 16).sqrt := two_pow_le_sqrt (by omega)
  have hroot : (t.radicand / 16).sqrt < 2 ^ 62 := sqrt_lt_two_pow (by omega)
  have hlost : (sqrtStep^[63] (sqrtStart t)).result.toNat = 2 * (t.radicand / 16).sqrt := by
    rw [Function.iterate_succ_apply']
    exact sqrtStep_lost hsixty htaken hbefore hroot
  have hresult : (sqrtStep^[64] (sqrtStart t)).result.toNat = 2 * (2 * (t.radicand / 16).sqrt) ∨
      (sqrtStep^[64] (sqrtStart t)).result.toNat = 2 * (2 * (t.radicand / 16).sqrt) + 1 := by
    rw [Function.iterate_succ_apply', ← hlost]
    exact sqrtStep_result (by omega)
  have hsplit := sqrt_add_rest (t.radicand / 16)
  have hsquare : (4 * (t.radicand / 16).sqrt + 2) ^ 2 ≤ t.radicand :=
    square_le_of_missed (hroot.trans_le hbefore) (by omega)
  exact ⟨by omega, (Nat.pow_le_pow_left (by omega) 2).trans hsquare⟩

theorem root_kept (h : t.Normal) (hbefore : rest (t.radicand / 16) < 2 ^ 62) :
    2 ^ 62 ≤ (t.radicand / 4).sqrt ∧ (sqrtStep^[64] (sqrtStart t)).result.toNat =
      2 * (t.radicand / 4).sqrt +
        if (t.radicand / 4).sqrt < rest (t.radicand / 4) % 2 ^ 62 + 2 ^ 62 then 1 else 0 := by
  obtain ⟨hlo, hhi, hzeros⟩ := radicand_bounds h
  obtain ⟨hsixty, htaken, htaken'⟩ := holds_sixty_two h
  have hfour : 4 * (t.radicand / 16) + 0 = t.radicand / 4 := by omega
  have hlow : 2 ^ 62 ≤ (t.radicand / 4).sqrt := two_pow_le_sqrt (by omega)
  have hhigh : (t.radicand / 4).sqrt < 2 ^ 63 := sqrt_lt_two_pow (by omega)
  have hnext := hsixty.step htaken hbefore (sqrt_lt_two_pow (by omega))
  rw [← Function.iterate_succ_apply' sqrtStep, hfour] at hnext
  have hlast := sqrtStep_last hnext htaken' hlow hhigh
  rw [← Function.iterate_succ_apply' sqrtStep] at hlast
  exact ⟨hlow, hlast⟩

theorem root_within_iff (h : t.Normal) : ∃ q,
    (sqrtStep^[64] (sqrtStart t)).result.toNat = q + 1 ∧ 2 ^ 63 ≤ q + 1 ∧
      (q ^ 2 < t.radicand + t.lostBit * 2 ^ 63 ∧ t.radicand + t.lostBit * 2 ^ 63 < (q + 2) ^ 2 ↔
        t.RootFits) := by
  obtain ⟨-, -, hzeros⟩ := radicand_bounds h
  by_cases hbefore : rest (t.radicand / 16) < 2 ^ 62
  · obtain ⟨hlow, hresult⟩ := root_kept h hbefore
    have hsum := sqrt_add_rest (t.radicand / 4)
    have hfits : t.RootFits ↔ _ := ⟨fun hfit => hfit.last, fun hlast => ⟨hbefore, hlast⟩⟩
    rw [hfits]
    generalize (t.radicand / 4).sqrt = r at *
    generalize hrest : rest (t.radicand / 4) = l at *
    have hsquare : t.radicand + t.lostBit * 2 ^ 63 = 4 * (r ^ 2 + (l + t.lostBit * 2 ^ 61)) := by
      omega
    rw [hsquare]
    by_cases hbit : r < l % 2 ^ 62 + 2 ^ 62
    · rw [if_pos hbit] at hresult
      refine ⟨2 * r, hresult, by omega, (near_one_iff (by omega)).trans ?_⟩
      omega
    · rw [if_neg hbit] at hresult
      obtain ⟨r, rfl⟩ : ∃ q, r = q + 1 := ⟨r - 1, by omega⟩
      refine ⟨2 * r + 1, by omega, by omega, near_zero_iff.trans ?_⟩
      omega
  · obtain ⟨hlow, hsquare⟩ := root_missed h (by omega)
    obtain ⟨q, hq⟩ := Nat.exists_eq_add_of_le' (show 1 ≤ _ from (by decide : 1 ≤ 2 ^ 63).trans hlow)
    rw [hq] at hlow hsquare
    refine ⟨q, hq, hlow, iff_of_false ?_ fun hfit => hbefore hfit.before⟩
    rintro ⟨-, hlt⟩
    exact (hsquare.trans (Nat.le_add_right _ _)).not_gt hlt

/-- The register with the root. -/
def Reg.root (r : Reg) : Reg :=
  Reg.setSig { r with exp := BitVec.ofNat 16 r.rootExp, tag := .valid }
    (sqrtStep^[64] (sqrtStart r)).result

theorem fsqrt_root (h : (m.fpu.st 0).Normal) (hsign : (m.fpu.st 0).sign = false) (hn : 65 ≤ n) :
    fsqrt n m = some ((), { m with fpu := m.fpu.setSt 0 (m.fpu.st 0).root }) := by
  have hexp := h.exp
  have hloop := sqrtLoop_ends h hn
  have hrootExp : (sqrtStep^[64] (sqrtStart (m.fpu.st 0))).exp + EXP_BIAS =
      (m.fpu.st 0).rootExp := by
    rw [exp_iterate]
    exact (sqrtStart_spec h).2
  have htag : (m.fpu.st 0).tag ≠ .empty ∧ (m.fpu.st 0).tag ≠ .zero := by
    rw [h.valid]
    decide
  have hsmall : ¬ ((m.fpu.st 0).exp.toInt > EXP_MAX ∧
      (nanType (m.fpu.st 0) ≠ .none ∨ (m.fpu.st 0).sign = false)) := by
    rw [h.toInt_exp]
    omega
  have hpos : ¬ (m.fpu.st 0).sign = true := by
    rw [hsign]
    decide
  refine (bind_some (empty_passes htag.1)).trans ?_
  refine (congrFun (if_neg htag.2) m).trans ?_
  refine (congrFun (if_neg hsmall) m).trans ?_
  refine (congrFun (if_neg hpos) m).trans ?_
  rw [hloop, Reg.root, ← BitVec.ofInt_natCast, ← hrootExp]
  rfl

theorem root_spec (h : t.Normal) : t.root.sign = t.sign ∧ t.root.exp.toNat = t.rootExp ∧
    t.root.sig = (sqrtStep^[64] (sqrtStart t)).result ∧ t.root.Normal := by
  obtain ⟨q, hq, hlow, -⟩ := root_within_iff h
  have hsig : t.root.sig = (sqrtStep^[64] (sqrtStart t)).result := sig_setSig _ _
  have hexp := h.exp
  have hle : t.rootExp ≤ EXP_MAX := by
    unfold EXP_MAX Reg.rootExp at *
    omega
  have hroot : t.root.exp.toNat = t.rootExp := by
    change (BitVec.ofNat 16 t.rootExp).toNat = t.rootExp
    rw [BitVec.toNat_ofNat, Nat.mod_eq_of_lt (hle.trans_lt (by decide))]
  refine ⟨rfl, hroot, hsig, rfl, ?_, hroot.le.trans hle⟩
  rw [hsig]
  exact msb_of_two_pow_le (by rw [hq]; exact hlow)

theorem number_radicand (hsign : t.sign = false) : (t.number : ℝ) =
    (t.radicand + t.lostBit * 2 ^ 63 : ℕ) * ((2 : ℝ) ^ t.rootExp / 2 ^ 16446) ^ 2 := by
  have hmagnitude := congrArg (Nat.cast (R := ℝ)) (magnitude_radicand t)
  rw [Nat.cast_mul, Nat.cast_mul, Nat.cast_pow, Nat.cast_pow, Nat.cast_ofNat, mul_comm 2,
    pow_mul] at hmagnitude
  rw [Reg.number, hsign, signed, if_neg Bool.false_ne_true, Rat.cast_div, Rat.cast_natCast,
    Rat.cast_pow, Rat.cast_ofNat, div_pow, ← mul_div_assoc, ← hmagnitude, pow_two,
    mul_div_mul_right _ _ (by positivity)]

/-- The machine tells what its top register is. -/
theorem setSt_inj {r r' : Reg} (heq : some ((), { m with fpu := m.fpu.setSt 0 r }) =
    some ((), { m with fpu := m.fpu.setSt 0 r' })) : r = r' := by
  have hfpu : m.fpu.setSt 0 r = m.fpu.setSt 0 r' :=
    congrArg Machine.fpu (Prod.mk.inj (Option.some.inj heq)).2
  have hr := congrArg (fun f => f.st 0) hfpu
  rwa [setSt_st, setSt_st, Function.update_self, Function.update_self] at hr

theorem one_rootFits : CONST_1.RootFits := by
  have hradicand : CONST_1.radicand = 2 ^ 126 := by decide
  have hsixteen : (CONST_1.radicand / 16).sqrt = 2 ^ 61 ∧ rest (CONST_1.radicand / 16) = 0 :=
    sqrt_eq_of_rest (by rw [hradicand]; rfl) (Nat.zero_le _)
  have hfour : (CONST_1.radicand / 4).sqrt = 2 ^ 62 ∧ rest (CONST_1.radicand / 4) = 0 :=
    sqrt_eq_of_rest (by rw [hradicand]; rfl) (Nat.zero_le _)
  have hlost : CONST_1.lostBit = 0 := by decide
  refine ⟨?_, .inl ?_⟩
  · rw [hsixteen.2]
    decide
  · rw [hfour.1, hfour.2, hlost]
    decide

def three : Reg := ⟨false, .valid, 16384, 0, 0xC0000000⟩

theorem three_normal : three.Normal := ⟨rfl, by decide, by decide⟩

/-- What the emulator has for the root of 3. -/
def rootThree : Reg := ⟨false, .valid, 16383, 0xc265539c, 0xddb3d742⟩

theorem rootThree_normal : rootThree.Normal := ⟨rfl, by decide, by decide⟩

set_option maxRecDepth 4096 in
theorem root_three : three.root = rootThree := by decide

theorem number_three : three.number = 3 := by
  have hsig : three.sig.toNat = 3 * 2 ^ 62 := by decide
  have hexp : three.exp.toNat = 16384 := by decide
  have hmagnitude : (three.magnitude : ℚ) = 3 * 2 ^ 16446 := by
    rw [Reg.magnitude, hsig, hexp, mul_assoc, ← pow_add, Nat.cast_mul, Nat.cast_pow,
      Nat.cast_ofNat, Nat.cast_ofNat]
  rw [Reg.number, hmagnitude, mul_div_cancel_right₀ _ (by positivity)]
  rfl

theorem units_root : (2 : ℚ) ^ 16446 = 2 ^ 63 * 2 ^ 16383 := by rw [← pow_add]

theorem number_rootThree : rootThree.number = 0xddb3d742c265539c / 2 ^ 63 := by
  have hsig : rootThree.sig.toNat = 0xddb3d742c265539c := by decide
  have hexp : rootThree.exp.toNat = 16383 := by decide
  have hmagnitude : (rootThree.magnitude : ℚ) = 0xddb3d742c265539c * 2 ^ 16383 := by
    rw [Reg.magnitude, hsig, hexp, Nat.cast_mul, Nat.cast_pow, Nat.cast_ofNat, Nat.cast_ofNat]
  rw [Reg.number, hmagnitude, units_root, mul_div_mul_right _ _ (by positivity)]
  rfl

theorem ulp_rootThree : rootThree.ulp = 1 / 2 ^ 63 := by
  have hexp : rootThree.exp.toNat = 16383 := by decide
  rw [Reg.ulp, hexp, units_root, div_mul_cancel_right₀ (by positivity), one_div]

end DjgppLibc.Emu387
