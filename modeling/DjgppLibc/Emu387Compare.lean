import Mathlib.Tactic.Linarith
import DjgppLibc.Emu387Stack
import DjgppLibc.Emu387Values

/-!
# The comparisons of the 387 emulator

`compare`, and the instructions that leave its result in the condition bits. An
infinity is looked for before a NaN. All handlers end with the same lines: where the
operands have no order, the bits for that are set, the exception is raised, and then the
bits are set again, from a variable that still is zero.
-/
namespace DjgppLibc.Emu387

open X86

def SW_C0 : BitVec 16 := 0x0100
def SW_C2 : BitVec 16 := 0x0400
def SW_C3 : BitVec 16 := 0x4000

def COMP_A_GT_B : BitVec 8 := 1
def COMP_A_EQ_B : BitVec 8 := 2
def COMP_A_LT_B : BitVec 8 := 3
def COMP_NOCOMP : BitVec 8 := 4
def COMP_NAN : BitVec 8 := 0x40
def COMP_SNAN : BitVec 8 := 0x80

def infOf (r : Reg) : ℤ := if valSame r CONST_PINF then 1 else if valSame r CONST_NINF then -1
    else 0

/-- `compare`: the result, and the registers as it leaves them. -/
def compare (a b : Reg) : BitVec 8 × Reg × Reg :=
  if infOf a = 1 then (if infOf b = 1 then COMP_A_EQ_B else COMP_A_GT_B, a, b)
  else if infOf b = 1 then (COMP_A_LT_B, a, b)
  else if infOf a = -1 then (if infOf b = -1 then COMP_A_EQ_B else COMP_A_LT_B, a, b)
  else if infOf b = -1 then (COMP_A_GT_B, a, b)
  else if nanType a ≠ .none ∨ nanType b ≠ .none then
    if nanType a = .snan ∨ nanType b = .snan then (COMP_NOCOMP ||| COMP_SNAN ||| COMP_NAN, a, b)
    else (COMP_NOCOMP ||| COMP_NAN, a, b)
  else if a.sign ≠ b.sign then
    if a.tag = .zero ∧ b.tag = .zero then (COMP_A_EQ_B, a, b)
    else if a.sign = false then (COMP_A_GT_B, a, b)
    else (COMP_A_LT_B, a, b)
  else
    let a := a.shiftTop
    let b := b.shiftTop
    let diff := if a.sign then -dif a b else dif a b
    (if diff > 0 then COMP_A_GT_B else if diff < 0 then COMP_A_LT_B else COMP_A_EQ_B, a, b)

def Fpu.setcc (cc : BitVec 16) (f : Fpu) : Fpu :=
  let bits := SW_C0 ||| SW_C1 ||| SW_C2 ||| SW_C3
  { f with statusWord := f.statusWord &&& ~~~bits ||| cc &&& bits }

/-- The condition bits for a result, zero where the `switch` has no case for it. -/
def flagsOf (c : BitVec 8) : BitVec 16 :=
  if c = COMP_A_LT_B then SW_C0
  else if c = COMP_A_EQ_B then SW_C3
  else if c = COMP_A_GT_B then 0
  else if c = COMP_NOCOMP then SW_C3 ||| SW_C2 ||| SW_C0
  else 0

def report (mask c : BitVec 8) (f : Fpu) : Option Fpu :=
  if c &&& mask ≠ 0 then
    (exception EX_I (f.setcc (SW_C3 ||| SW_C2 ||| SW_C0))).map (Fpu.setcc 0)
  else some (f.setcc (flagsOf c))

/-- A comparison with `st(i)`, after the checks. -/
def comSt (mask : BitVec 8) (pops : ℕ) (i : Fin 8) (f : Fpu) : Option Fpu :=
  let (c, a, b) := compare (f.st 0) (f.st i)
  report mask c (Fpu.pop^[pops] ((f.setSt 0 a).setSt i b))

def comMem (pops : ℕ) (t : Reg) (f : Fpu) : Option Fpu :=
  let (c, a, _) := compare (f.st 0) t
  report COMP_NAN c (Fpu.pop^[pops] (f.setSt 0 a))

def comHandler (mask : BitVec 8) (pops : ℕ) (i : Fin 8) : Emu Unit := do
  if ← empty 0 then return
  if ← empty i then
    onFpu (Fpu.setcc (SW_C3 ||| SW_C2 ||| SW_C0))
    return
  fun m => (comSt mask pops i m.fpu).map fun f => ((), { m with fpu := f })

/-- `fcom st(i)` -/
def emu_02_st : Fin 8 → Emu Unit := comHandler COMP_NAN 0

/-- `fcomp st(i)` -/
def emu_03_st : Fin 8 → Emu Unit := comHandler COMP_NAN 1

/-- `fucom st(i)` -/
def emu_54_st : Fin 8 → Emu Unit := comHandler COMP_SNAN 0

/-- `fucomp st(i)` -/
def emu_55_st : Fin 8 → Emu Unit := comHandler COMP_SNAN 1

/-- `fcompp` and `fucompp` are there for `st(1)` only. -/
def comppHandler (mask : BitVec 8) (i : Fin 8) : Emu Unit := do
  if ← empty 0 then return
  if i ≠ 1 then emuBad else comHandler mask 2 1

def emu_63_st : Fin 8 → Emu Unit := comppHandler COMP_NAN

def emu_25_st : Fin 8 → Emu Unit := comppHandler COMP_SNAN

def comOperations (rest : Operations) : Operations :=
  { use := fun esc addr f mem =>
      let float := rMovFloat (peekInt mem addr 0)
      let double := rMovDouble (peekInt mem addr 4) (peekInt mem addr 0)
      let long := rMovLong (peekInt mem addr 0)
      let short := rMovShort (peekShort mem addr 0)
      match esc with
      | 16 => (comMem 0 float f).map fun f => (f, mem)
      | 24 => (comMem 1 float f).map fun f => (f, mem)
      | 18 => (comMem 0 long f).map fun f => (f, mem)
      | 26 => (comMem 1 long f).map fun f => (f, mem)
      | 20 => (comMem 0 double f).map fun f => (f, mem)
      | 28 => (comMem 1 double f).map fun f => (f, mem)
      | 22 => (comMem 0 short f).map fun f => (f, mem)
      | 30 => (comMem 1 short f).map fun f => (f, mem)
      | _ => rest.use esc addr f mem
    registerForm := fun esc => do
      let i := rmOf (← get).modrm
      match esc with
      | 16 => emu_02_st i
      | 24 => emu_03_st i
      | 37 => emu_54_st i
      | 45 => emu_55_st i
      | 30 => emu_63_st i
      | 42 => emu_25_st i
      | _ => rest.registerForm esc }

def orderFlags : Option Ordering → BitVec 16
  | some .gt => 0
  | some .lt => SW_C0
  | some .eq => SW_C3
  | none => SW_C3 ||| SW_C2 ||| SW_C0

def conditions (f : Fpu) : BitVec 16 := f.statusWord &&& (SW_C3 ||| SW_C2 ||| SW_C0)

inductive MemKind
  | m32real
  | m64real
  | m32int
  | m16int
deriving DecidableEq

inductive ComForm
  | fcom (i : Fin 8)
  | fcomp (i : Fin 8)
  | fcompp
  | fucom (i : Fin 8)
  | fucomp (i : Fin 8)
  | fucompp
  | mem (kind : MemKind) (pop : Bool)
deriving DecidableEq

def ComForm.pops : ComForm → ℕ
  | .fcom _ | .fucom _ => 0
  | .fcomp _ | .fucomp _ => 1
  | .fcompp | .fucompp => 2
  | .mem _ pop => if pop then 1 else 0

inductive Operand
  | reg (r : Reg)
  | float (w : BitVec 32)
  | double (m64 l64 : BitVec 32)
  | long (w : BitVec 32)
  | short (w : BitVec 16)

def Operand.value : Operand → Value
  | .reg r => r.value
  | .float w => floatValue w
  | .double m64 l64 => doubleValue m64 l64
  | .long w => .fin w.toInt
  | .short w => .fin w.toInt

def MemKind.operand (mem : Memory) (addr : BitVec 32) : MemKind → Operand
  | .m32real => .float (peekInt mem addr 0)
  | .m64real => .double (peekInt mem addr 4) (peekInt mem addr 0)
  | .m32int => .long (peekInt mem addr 0)
  | .m16int => .short (peekShort mem addr 0)

/-- The number of `fcom` or `ficom` with an operand in memory; the form that pops has the
number that is greater by 8. -/
def MemKind.esc (kind : MemKind) (pop : Bool) : Fin 64 :=
  match kind, pop with
  | .m32real, false => 16
  | .m32real, true => 24
  | .m64real, false => 20
  | .m64real, true => 28
  | .m32int, false => 18
  | .m32int, true => 26
  | .m16int, false => 22
  | .m16int, true => 30

/-- The next instruction is a comparison of `st` with an operand. -/
def ComForm.IsNext (m : Machine) (x : Operand) : ComForm → Prop
  | .fcom i => m.code 2 = [0xD8, 0xD0 + BitVec.ofNat 8 i.val] ∧ x = .reg (m.fpu.st i)
  | .fcomp i => m.code 2 = [0xD8, 0xD8 + BitVec.ofNat 8 i.val] ∧ x = .reg (m.fpu.st i)
  | .fcompp => m.code 2 = [0xDE, 0xD9] ∧ x = .reg (m.fpu.st 1)
  | .fucom i => m.code 2 = [0xDD, 0xE0 + BitVec.ofNat 8 i.val] ∧ x = .reg (m.fpu.st i)
  | .fucomp i => m.code 2 = [0xDD, 0xE8 + BitVec.ofNat 8 i.val] ∧ x = .reg (m.fpu.st i)
  | .fucompp => m.code 2 = [0xDA, 0xE9] ∧ x = .reg (m.fpu.st 1)
  | .mem kind pop => IsEscape m ∧ escNumber m = kind.esc pop ∧
      ∃ a rest, decode32 (atOperand m).modrm ((atOperand m).code 5) = some (a, rest) ∧
        x = kind.operand m.mem (a.eval m.reg)

/-- The comparison is in the condition bits, and the registers that the instruction names
are popped. -/
structure ComForm.Reported (form : ComForm) (x : Operand) (f f' : Fpu) : Prop where
  conditions : conditions f' = orderFlags ((f.st 0).value.order x.value)
  controlWord : f'.controlWord = f.controlWord
  top : f'.top = f.top + Fin.ofNat 8 form.pops
  tags : ∀ j, (f'.regs (f.top + j)).tag = if j.val < form.pops then .empty else (f.st j).tag
  values : ∀ j, (f'.regs (f.top + j)).value = (f.st j).value

variable {r a b : Reg}

theorem sigh_sigl_eq_iff (r : Reg) (x y : BitVec 32) : r.sigh = x ∧ r.sigl = y ↔
    r.sig = x ++ y := by
  constructor
  · rintro ⟨rfl, rfl⟩
    rfl
  · intro h
    have hsig := setWidth_sig r.sigh r.sigl
    have hxy := setWidth_sig x y
    rw [show r.sigh ++ r.sigl = x ++ y from h] at hsig
    exact ⟨hsig.1.symm.trans hxy.1, hsig.2.symm.trans hxy.2⟩

theorem value_eq_inf_iff {s : Bool} :
    r.value = .inf s ↔ r.sign = s ∧ r.exp = 32767 ∧ r.sig = 1 <<< 63 := by
  unfold Reg.value
  constructor
  · intro h
    split_ifs at h with hzero hexp hsig
    exact ⟨Value.inf.inj h, hexp, hsig⟩
  · rintro ⟨rfl, hexp, hsig⟩
    rw [if_neg (by rw [hsig]; decide), if_pos hexp, if_pos hsig]

theorem valSame_inf_iff (s : Bool) (h : b = ⟨s, .special, 32767, 0, 0x80000000⟩) :
    valSame r b ↔ r.value = .inf s := by
  have hsig : r.sigh = 0x80000000 ∧ r.sigl = 0 ↔ r.sig = 1 <<< 63 := by
    refine (sigh_sigl_eq_iff r 0x80000000 0).trans (Eq.congr_right ?_)
    decide
  rw [value_eq_inf_iff, ← hsig, h, valSame, and_comm (a := r.sigl = _)]

theorem infOf_eq_one : infOf r = 1 ↔ r.value = .inf false := by
  rw [← valSame_inf_iff false rfl, infOf]
  show _ ↔ valSame r CONST_PINF
  split_ifs <;> simp_all

theorem infOf_eq_neg : infOf r = -1 ↔ r.value = .inf true := by
  have hneg : valSame r CONST_NINF ↔ r.value = .inf true := valSame_inf_iff true rfl
  have hpos : valSame r CONST_PINF ↔ r.value = .inf false := valSame_inf_iff false rfl
  rw [infOf]
  simp only [hneg, hpos]
  split_ifs <;> simp_all

theorem sig_fraction_zero :
    (r.sigh &&& 0x40000000 = 0 ∧ r.sigh &&& 0x3fffffff = 0 ∧ r.sigl = 0) ↔
      r.sig = 0 ∨ r.sig = 1 <<< 63 := by
  have hmask : r.sigh &&& 0x40000000 = 0 ∧ r.sigh &&& 0x3fffffff = 0 ↔
      r.sigh.toNat % 2 ^ 31 = 0 := by
    rw [← toNat_and_mask r.sigh 0x7fffffff (n := 31) rfl,
      show (0x7fffffff : BitVec 32) = 0x40000000 |||
        0x3fffffff by decide, BitVec.and_or_distrib_left]
    exact BitVec.or_eq_zero_iff.symm.trans BitVec.toNat_inj.symm
  have hl : r.sigl = 0 ↔ r.sigl.toNat = 0 := BitVec.toNat_inj.symm
  have hzero : r.sig = 0 ↔ r.sig.toNat = 0 := BitVec.toNat_inj.symm
  have htop : r.sig = 1 <<< 63 ↔ r.sig.toNat = 2 ^ 63 := BitVec.toNat_inj.symm
  have hh := r.sigh.isLt
  have hlt := r.sigl.isLt
  rw [← and_assoc, hmask, hl, hzero, htop, toNat_sig]
  omega

theorem toInt_exp_eq_max (r : Reg) : r.exp.toInt = EXP_MAX + 1 ↔ r.exp = 32767 := by
  rw [← BitVec.toInt_inj]
  rfl

theorem nanType_eq_none : nanType r = .none ↔ r.value ≠ .nan := by
  unfold nanType Reg.value
  by_cases hexp : r.exp = 32767
  · rw [if_neg (not_not.mpr ((toInt_exp_eq_max r).mpr hexp)), if_pos hexp]
    have hfraction := @sig_fraction_zero r
    split_ifs <;> simp_all
  · rw [if_pos fun h => hexp ((toInt_exp_eq_max r).mp h), if_neg hexp]
    split_ifs <;> simp

def orderCode : Ordering → BitVec 8
  | .gt => COMP_A_GT_B
  | .eq => COMP_A_EQ_B
  | .lt => COMP_A_LT_B

theorem value_eq_fin {q : ℚ} (h : r.value = .fin q) :
    q = signed r.sign (r.magnitude / 2 ^ 16446) ∧ (r.exp = 32767 → r.sig = 0) := by
  have hexp : r.exp = 32767 → r.sig = 0 := by
    intro hexp
    by_contra hsig
    rw [Reg.value, if_neg hsig, if_pos hexp] at h
    split_ifs at h
  rw [value_finite hexp] at h
  exact ⟨(Value.fin.inj h).symm, hexp⟩

/-- The order of two numbers of one sign, by their magnitudes. -/
theorem cmp_signed (s : Bool) (m n : ℕ) (d : ℚ) (hd : 0 < d) :
    cmp (signed s (m / d)) (signed s (n / d)) = if s then cmp n m else cmp m n := by
  have hlt : ∀ k l : ℕ, (k : ℚ) / d < l / d ↔ k < l := fun k l => by
    rw [div_lt_div_iff_of_pos_right hd, Nat.cast_lt]
  unfold cmp cmpUsing
  cases s with
  | false => simp only [signed, Bool.false_eq_true, if_false, hlt]
  | true => simp only [signed, if_true, neg_lt_neg_iff, hlt]

theorem orderCode_cmp (m n : ℕ) :
    orderCode (cmp m n) = if n < m then COMP_A_GT_B else if m < n then COMP_A_LT_B
    else COMP_A_EQ_B := by
  obtain h | h | h := lt_trichotomy m n
  · rw [h.cmp_eq_lt, if_neg h.le.not_gt, if_pos h, orderCode]
  · rw [h.cmp_eq_eq, h, if_neg (lt_irrefl n), if_neg (lt_irrefl n), orderCode]
  · rw [h.cmp_eq_gt, if_pos h, orderCode]

theorem compare_same_sign (ha : a.Extended) (hb : b.Extended) (hsign : a.sign = b.sign)
    (d : ℚ) (hd : 0 < d) :
    (let diff := if a.sign then -dif a.shiftTop b.shiftTop else dif a.shiftTop b.shiftTop
      if diff > 0 then COMP_A_GT_B else if diff < 0 then COMP_A_LT_B else COMP_A_EQ_B) =
      orderCode (cmp (signed a.sign (a.magnitude / d)) (signed b.sign (b.magnitude / d))) := by
  have hle : ∀ {r : Reg}, r.Extended → r.shiftTop.exp.toNat ≤ EXP_MAX + 1 := fun {r} h => by
    rw [exp_shiftTop]
    exact (shiftUp_le _ _).trans h.exp
  have hpos := dif_pos_iff_magnitude (shiftTop_ends a) (shiftTop_ends b) (hle ha) (hle hb)
  have hneg := dif_neg_iff_magnitude (shiftTop_ends a) (shiftTop_ends b) (hle ha) (hle hb)
  rw [magnitude_shiftTop, magnitude_shiftTop] at hpos hneg
  rw [← hsign, cmp_signed _ _ _ d hd]
  cases a.sign with
  | false =>
      refine Eq.trans ?_ (orderCode_cmp a.magnitude b.magnitude).symm
      simp only [Bool.false_eq_true, if_false, gt_iff_lt, hpos, hneg]
  | true =>
      refine Eq.trans ?_ (orderCode_cmp b.magnitude a.magnitude).symm
      simp only [if_true, gt_iff_lt, Left.neg_pos_iff, Left.neg_neg_iff, hpos, hneg]

theorem compare_different_signs (ha : a.Extended) (hb : b.Extended) (hsign : a.sign ≠ b.sign)
    (d : ℚ) (hd : 0 < d) :
    (if a.tag = .zero ∧ b.tag = .zero then COMP_A_EQ_B
      else if a.sign = false then COMP_A_GT_B else COMP_A_LT_B) =
      orderCode (cmp (signed a.sign (a.magnitude / d)) (signed b.sign (b.magnitude / d))) := by
  have hzero : ∀ {r : Reg}, r.Extended → (r.tag = .zero ↔ r.magnitude = 0) := fun {r} h => by
    rw [h.zero, magnitude_eq_zero]
  rw [if_congr (and_congr (hzero ha) (hzero hb)) rfl rfl]
  have hnonneg : ∀ n : ℕ, (0 : ℚ) ≤ n / d := fun n => by positivity
  have hpos : ∀ n : ℕ, n ≠ 0 → (0 : ℚ) < n / d := fun n hn => by
    positivity
  by_cases hboth : a.magnitude = 0 ∧ b.magnitude = 0
  · rw [if_pos hboth, hboth.1, hboth.2, Nat.cast_zero, zero_div]
    have hsigned (s : Bool) : signed s 0 = 0 := by cases s <;> simp [signed]
    rw [hsigned, hsigned, cmp_self_eq_eq, orderCode]
  rw [if_neg hboth]
  have hsum : (0 : ℚ) < a.magnitude / d + b.magnitude / d := by
    by_cases hz : a.magnitude = 0
    · exact add_pos_of_nonneg_of_pos (hnonneg _) (hpos _ fun h => hboth ⟨hz, h⟩)
    · exact add_pos_of_pos_of_nonneg (hpos _ hz) (hnonneg _)
  cases ha' : a.sign <;> cases hb' : b.sign <;> simp only [ha', hb', ne_eq,
    not_true_eq_false] at hsign
  · have hlt : -(b.magnitude / d : ℚ) < a.magnitude / d := by linarith
    rw [show cmp (signed false _) (signed true _) = .gt from hlt.cmp_eq_gt, orderCode]
    rfl
  · have hlt : -(a.magnitude / d : ℚ) < b.magnitude / d := by linarith
    rw [show cmp (signed true _) (signed false _) = .lt from hlt.cmp_eq_lt, orderCode]
    rfl

/-- `compare` finds the order of two operands that are no NaNs. -/
theorem compare_order (ha : a.Extended) (hb : b.Extended) (hna : a.value ≠ .nan)
    (hnb : b.value ≠ .nan) :
    ∃ o, a.value.order b.value = some o ∧ (compare a b).1 = orderCode o := by
  have hnan : ¬ (nanType a ≠ .none ∨ nanType b ≠ .none) := by
    rw [not_or, not_not, not_not, nanType_eq_none, nanType_eq_none]
    exact ⟨hna, hnb⟩
  unfold compare
  simp only [infOf_eq_one, infOf_eq_neg, if_neg hnan]
  cases hva : a.value with
  | nan => exact absurd hva hna
  | inf s => cases hvb : b.value with
    | nan => exact absurd hvb hnb
    | inf t => cases s <;> cases t <;> exact ⟨_, rfl, rfl⟩
    | fin q => cases s <;> exact ⟨_, rfl, rfl⟩
  | fin p => cases hvb : b.value with
    | nan => exact absurd hvb hnb
    | inf t => cases t <;> exact ⟨_, rfl, rfl⟩
    | fin q =>
        obtain ⟨o, ho⟩ : ∃ o, o = cmp p q := ⟨_, rfl⟩
        refine ⟨o, congrArg some ho.symm, ?_⟩
        simp only [reduceCtorEq, if_false]
        rw [ho, (value_eq_fin hva).1, (value_eq_fin hvb).1]
        by_cases hsign : a.sign = b.sign
        · rw [if_neg (not_not.mpr hsign)]
          exact compare_same_sign ha hb hsign _ (by positivity)
        · rw [if_pos hsign]
          refine Eq.trans ?_ (compare_different_signs ha hb hsign _ (by positivity))
          split_ifs <;> rfl

/-- `compare` shifts its operands only if both are finite. -/
theorem compare_snd (a b : Reg) : (compare a b).2 = (a, b) ∨
    ((∀ r ∈ [a, b], infOf r ≠ 1 ∧ infOf r ≠ -1 ∧ nanType r = .none) ∧
      (compare a b).2 = (a.shiftTop, b.shiftTop)) := by
  unfold compare
  by_cases h₁ : infOf a = 1
  · exact .inl (by rw [if_pos h₁])
  by_cases h₂ : infOf b = 1
  · exact .inl (by rw [if_neg h₁, if_pos h₂])
  by_cases h₃ : infOf a = -1
  · exact .inl (by rw [if_neg h₁, if_neg h₂, if_pos h₃])
  by_cases h₄ : infOf b = -1
  · exact .inl (by rw [if_neg h₁, if_neg h₂, if_neg h₃, if_pos h₄])
  rw [if_neg h₁, if_neg h₂, if_neg h₃, if_neg h₄]
  by_cases h₅ : nanType a ≠ .none ∨ nanType b ≠ .none
  · rw [if_pos h₅]
    split_ifs
    · exact .inl rfl
    · exact .inl rfl
  rw [if_neg h₅]
  by_cases h₆ : a.sign ≠ b.sign
  · rw [if_pos h₆]
    split_ifs
    · exact .inl rfl
    · exact .inl rfl
    · exact .inl rfl
  · rw [if_neg h₆]
    rw [not_or, not_not, not_not] at h₅
    refine .inr ⟨?_, rfl⟩
    simp only [List.mem_cons, List.not_mem_nil, or_false, forall_eq_or_imp, forall_eq]
    exact ⟨⟨h₁, h₃, h₅.1⟩, h₂, h₄, h₅.2⟩

theorem shiftTop_of_finite (h : r.Extended)
    (hr : infOf r ≠ 1 ∧ infOf r ≠ -1 ∧ nanType r = .none) : r.shiftTop.value = r.value := by
  rw [Ne, infOf_eq_one, Ne, infOf_eq_neg, nanType_eq_none] at hr
  cases hv : r.value with
  | nan => exact absurd hv hr.2.2
  | inf s => cases s with
    | false => exact absurd hv hr.1
    | true => exact absurd hv hr.2.1
  | fin q => rw [value_shiftTop h.exp (value_eq_fin hv).2, hv]

theorem compare_regs (ha : a.Extended) (hb : b.Extended) :
    ((compare a b).2.1.value = a.value ∧ (compare a b).2.1.tag = a.tag) ∧
      ((compare a b).2.2.value = b.value ∧ (compare a b).2.2.tag = b.tag) := by
  obtain h | ⟨hfinite, h⟩ := compare_snd a b
  · rw [h]
    exact ⟨⟨rfl, rfl⟩, rfl, rfl⟩
  · rw [h]
    exact ⟨⟨shiftTop_of_finite ha (hfinite a (by simp)), rfl⟩,
      shiftTop_of_finite hb (hfinite b (by simp)), rfl⟩

/-- The results of `compare`; none of them is a case of the `switch` for no order. -/
theorem compare_fst (a b : Reg) : (∃ o, (compare a b).1 = orderCode o) ∨
    (compare a b).1 = COMP_NOCOMP ||| COMP_SNAN ||| COMP_NAN ∨
    (compare a b).1 = COMP_NOCOMP ||| COMP_NAN := by
  have hgt : ∃ o, COMP_A_GT_B = orderCode o := ⟨.gt, rfl⟩
  have heq : ∃ o, COMP_A_EQ_B = orderCode o := ⟨.eq, rfl⟩
  have hlt : ∃ o, COMP_A_LT_B = orderCode o := ⟨.lt, rfl⟩
  unfold compare
  dsimp only
  repeat' split
  all_goals first | exact .inl hgt | exact .inl heq | exact .inl hlt | simp

/-- The condition bits that a handler leaves. -/
def leftFlags (mask c : BitVec 8) : BitVec 16 := if c &&& mask ≠ 0 then 0 else flagsOf c

variable {f g : Fpu} {mask c : BitVec 8} {m : Machine} {i : Fin 8}

theorem conditions_setcc (cc : BitVec 16) (f : Fpu) :
    conditions (f.setcc cc) = cc &&& (SW_C3 ||| SW_C2 ||| SW_C0) := by
  have hkept : ∀ bits : BitVec 16, SW_C3 ||| SW_C2 ||| SW_C0 =
      bits &&& (SW_C3 ||| SW_C2 ||| SW_C0) →
      (f.statusWord &&& ~~~bits ||| cc &&& bits) &&& (SW_C3 ||| SW_C2 ||| SW_C0) =
        cc &&& (SW_C3 ||| SW_C2 ||| SW_C0) := by
    intro bits hbits
    have hnot : ~~~bits &&& (SW_C3 ||| SW_C2 ||| SW_C0) = 0 := by
      rw [hbits, ← BitVec.and_assoc, BitVec.and_comm (~~~bits)]
      simp
    rw [BitVec.and_or_distrib_right, BitVec.and_assoc, hnot, BitVec.and_assoc, ← hbits]
    simp
  exact hkept _ (by decide)

theorem flagsOf_and (c : BitVec 8) : flagsOf c &&& (SW_C3 ||| SW_C2 ||| SW_C0) = flagsOf c := by
  unfold flagsOf
  split_ifs <;> decide

theorem report_eq (mask c : BitVec 8) (h : masked f EX_I = true) :
    ∃ s, report mask c f = some { f with statusWord := s } ∧
      s &&& (SW_C3 ||| SW_C2 ||| SW_C0) = leftFlags mask c := by
  unfold report leftFlags
  split_ifs with hc
  · refine ⟨_, congrArg (Option.map _) (if_pos h), ?_⟩
    exact (conditions_setcc 0 _).trans (by decide)
  · exact ⟨_, rfl, (conditions_setcc _ f).trans (flagsOf_and c)⟩

theorem pops_eq (f : Fpu) {n : ℕ} (hn : n ≤ 8) :
    (Fpu.pop^[n] f).controlWord = f.controlWord ∧ (Fpu.pop^[n] f).top = f.top + Fin.ofNat 8 n ∧
      ∀ j, (Fpu.pop^[n] f).regs (f.top + j) =
        if j.val < n then { f.st j with tag := .empty } else f.st j := by
  induction n with
  | zero => exact ⟨rfl, (add_zero _).symm, fun j => rfl⟩
  | succ n ih =>
      obtain ⟨hcontrol, htop, hregs⟩ := ih (by omega)
      rw [Function.iterate_succ_apply']
      refine ⟨hcontrol, ?_, fun j => ?_⟩
      · show (Fpu.pop^[n] f).top + 1 = _
        rw [htop, add_assoc]
        congr 1
        apply Fin.ext
        simp [Fin.val_add, Fin.ofNat]
      · show (if f.top + j = (Fpu.pop^[n] f).top + 0 then _ else (Fpu.pop^[n] f).regs (f.top + j)) =
          _
        have hlast : f.top + j = (Fpu.pop^[n] f).top + 0 ↔ j.val = n := by
          rw [htop, add_zero, add_right_inj, Fin.ext_iff, Fin.val_ofNat,
            Nat.mod_eq_of_lt (by omega)]
        simp only [hlast]
        split_ifs with h₁ h₂ h₂
        · have hst : (Fpu.pop^[n] f).st 0 = f.st j := by
            rw [Fpu.st, ← hlast.mpr h₁, hregs, if_neg (by omega)]
          rw [hst]
        · omega
        · rw [hregs, if_pos (by omega)]
        · rw [hregs, if_neg (by omega)]

/-- What a comparison leaves, but for the meaning of the condition bits. -/
structure Ended (flags : BitVec 16) (pops : ℕ) (f f' : Fpu) : Prop where
  conditions : conditions f' = flags
  controlWord : f'.controlWord = f.controlWord
  top : f'.top = f.top + Fin.ofNat 8 pops
  tags : ∀ j, (f'.regs (f.top + j)).tag = if j.val < pops then .empty else (f.st j).tag
  values : ∀ j, (f'.regs (f.top + j)).value = (f.st j).value

structure SameNumbers (f g : Fpu) : Prop where
  controlWord : g.controlWord = f.controlWord
  top : g.top = f.top
  tags : ∀ j, (g.st j).tag = (f.st j).tag
  values : ∀ j, (g.st j).value = (f.st j).value

theorem report_ended {n : ℕ} (hn : n ≤ 8) (hm : AllMasked f) (h : SameNumbers f g) :
    ∃ f', report mask c (Fpu.pop^[n] g) = some f' ∧ Ended (leftFlags mask c) n f f' := by
  obtain ⟨hcontrol, htop, hregs⟩ := pops_eq g hn
  have hmask : masked (Fpu.pop^[n] g) EX_I = true := by
    refine masked_of_all ?_ (by decide)
    rw [AllMasked, hcontrol, h.controlWord]
    exact hm
  obtain ⟨s, hs, hflags⟩ := report_eq mask c hmask
  refine ⟨_, hs, hflags, hcontrol.trans h.controlWord, htop.trans (by rw [h.top]), fun j => ?_,
    fun j => ?_⟩
  · show ((Fpu.pop^[n] g).regs (f.top + j)).tag = _
    rw [← h.top, hregs, ← h.tags]
    split_ifs <;> rfl
  · show ((Fpu.pop^[n] g).regs (f.top + j)).value = _
    rw [← h.top, hregs, ← h.values]
    split_ifs <;> rfl

theorem sameNumbers_set (ha : a.value = (f.st i).value ∧ a.tag = (f.st i).tag)
    (h : SameNumbers g f) :
    SameNumbers g (f.setSt i a) := by
  refine ⟨h.controlWord, h.top, fun j => ?_, fun j => ?_⟩
  · rw [st_setSt, ← h.tags j]
    split_ifs with hj
    · rw [ha.2, hj]
    · rfl
  · rw [st_setSt, ← h.values j]
    split_ifs with hj
    · rw [ha.1, hj]
    · rfl

theorem SameNumbers.refl (f : Fpu) : SameNumbers f f := ⟨rfl, rfl, fun _ => rfl, fun _ => rfl⟩

theorem comSt_ended {n : ℕ} (hn : n ≤ 8) (hm : AllMasked f) (ha : (f.st 0).Extended)
    (hb : (f.st i).Extended) :
    ∃ f', comSt mask n i f = some f' ∧
      Ended (leftFlags mask (compare (f.st 0) (f.st i)).1) n f f' := by
  obtain ⟨hregs, hregs'⟩ := compare_regs ha hb
  unfold comSt
  generalize compare (f.st 0) (f.st i) = result at hregs hregs' ⊢
  obtain ⟨c, a', b'⟩ := result
  refine report_ended hn hm (sameNumbers_set ?_ (sameNumbers_set hregs (SameNumbers.refl f)))
  rw [st_setSt]
  split_ifs with hi
  · rw [hi] at hregs'
    exact ⟨hregs'.1.trans hregs.1.symm, hregs'.2.trans hregs.2.symm⟩
  · exact hregs'

theorem comMem_ended {n : ℕ} {t : Reg} (hn : n ≤ 8) (hm : AllMasked f) (ha : (f.st 0).Extended)
    (ht : t.Extended) :
    ∃ f', comMem n t f = some f' ∧ Ended (leftFlags COMP_NAN (compare (f.st 0) t).1) n f f' := by
  obtain ⟨hregs, -⟩ := compare_regs ha ht
  unfold comMem
  generalize compare (f.st 0) t = result at hregs ⊢
  obtain ⟨c, a', b'⟩ := result
  exact report_ended hn hm (sameNumbers_set hregs (SameNumbers.refl f))

/-- The register that is compared with `st`. -/
def Operand.load : Operand → Reg
  | .reg r => r
  | .float w => rMovFloat w
  | .double m64 l64 => rMovDouble m64 l64
  | .long w => rMovLong w
  | .short w => rMovShort w

/-- A register is not empty, and holds a number of the extended format. -/
def Operand.There : Operand → Prop
  | .reg r => r.tag ≠ .empty ∧ r.Extended
  | _ => True

def Operand.Denormal : Operand → Prop
  | .float w => floatExp w = 0 ∧ floatFraction w ≠ 0
  | .double m64 l64 => doubleExp m64 = 0 ∧ doubleFraction m64 l64 ≠ 0
  | _ => False

def Operand.withBit : Operand → ℚ
  | .float w => signed w.msb ((2 ^ 23 + floatFraction w : ℕ) / 2 ^ 150)
  | .double m64 l64 => signed m64.msb ((2 ^ 52 + doubleFraction m64 l64 : ℕ) / 2 ^ 1075)
  | _ => 0

/-- A denormal operand and the number with the bit are on the same side of `v`. -/
def Operand.SameSide (x : Operand) (v : Value) : Prop :=
  x.Denormal → ∀ p q, v = .fin p → x.value = .fin q →
    (p < q ∧ p < x.withBit) ∨ (q < p ∧ x.withBit < p)

theorem Operand.load_extended {x : Operand} (h : x.There) : x.load.Extended := by
  cases x with
  | reg r => exact h.2
  | float w => exact rMovFloat_extended w
  | double m64 l64 => exact rMovDouble_extended m64 l64
  | long w => exact (rMovInt_toInt (by decide) (by decide) w).1
  | short w => exact (rMovInt_toInt (by decide) (by decide) w).1

theorem loadedValue_denormal {maxExp bias bits e m : ℕ} (sign : Bool) (hmax : maxExp ≠ 0)
    (he : e = 0)
    (hm : m ≠ 0) : loadedValue maxExp bias bits sign e m =
      .fin (signed sign ((2 ^ bits + m : ℕ) / 2 ^ (bias + bits))) := by
  rw [loadedValue, if_neg fun h => hm h.2, if_neg (by omega), he, pow_zero, mul_one]

theorem formatValue_denormal {maxExp bias bits e m : ℕ} (sign : Bool) (hmax : maxExp ≠ 0)
    (he : e = 0) : formatValue maxExp bias bits sign e m =
      .fin (signed sign (m / 2 ^ (bias + bits - 1))) := by
  rw [formatValue, if_neg (by omega), if_pos he]

/-- The operand as it is loaded has the value in memory, unless it is denormal. -/
theorem Operand.load_value {x : Operand} (h : ¬ x.Denormal) : x.load.value = x.value := by
  cases x with
  | reg r => rfl
  | float w =>
      refine (rMovFloat_value w).trans (loadedValue_eq _ (by decide) fun he => ?_)
      by_contra hm
      exact h ⟨he, hm⟩
  | double m64 l64 =>
      refine (rMovDouble_value m64 l64).trans (loadedValue_eq _ (by decide) fun he => ?_)
      by_contra hm
      exact h ⟨he, hm⟩
  | long w => exact (rMovInt_toInt (by decide) (by decide) w).2
  | short w => exact (rMovInt_toInt (by decide) (by decide) w).2

theorem signed_inj {s : Bool} {p q : ℚ} (h : p ≠ q) : signed s p ≠ signed s q := by
  cases s <;> simpa [signed] using h

theorem Operand.load_denormal {x : Operand} (h : x.Denormal) :
    x.load.value = .fin x.withBit ∧ ∃ q, x.value = .fin q ∧ q ≠ x.withBit := by
  have hne : ∀ (bits m k : ℕ), m < 2 ^ bits → (m : ℚ) / 2 ^ k ≠ (2 ^ bits + m : ℕ) / 2 ^
      (k + 1) := by
    intro bits m k hm heq
    rw [div_eq_div_iff (by positivity) (by positivity), pow_succ, mul_comm (2 ^ k : ℚ) 2,
      ← mul_assoc,
      mul_left_inj' (by positivity)] at heq
    have : m * 2 = 2 ^ bits + m := by exact_mod_cast heq
    omega
  cases x with
  | float w =>
      refine ⟨(rMovFloat_value w).trans (loadedValue_denormal _ (by decide) h.1 h.2), _,
        formatValue_denormal _ (by decide) h.1, signed_inj ?_⟩
      exact hne 23 _ 149 (Nat.mod_lt _ (by decide))
  | double m64 l64 =>
      refine ⟨(rMovDouble_value m64 l64).trans (loadedValue_denormal _ (by decide) h.1 h.2), _,
        formatValue_denormal _ (by decide) h.1, signed_inj ?_⟩
      refine hne 52 _ 1074 ?_
      have := l64.isLt
      unfold doubleFraction
      omega
  | reg r => cases h
  | long w => cases h
  | short w => cases h

theorem cmp_eq_cmp_iff {p q t : ℚ} (h : q ≠ t) :
    cmp p q = cmp p t ↔ (p < q ∧ p < t) ∨ (q < p ∧ t < p) := by
  constructor
  · intro hcmp
    cases hq : cmp p q with
    | lt => exact .inl ⟨(cmp_eq_lt_iff p q).mp hq, (cmp_eq_lt_iff p t).mp (hcmp.symm.trans hq)⟩
    | eq =>
        have hpt := (cmp_eq_eq_iff p t).mp (hcmp.symm.trans hq)
        exact absurd (((cmp_eq_eq_iff p q).mp hq).symm.trans hpt) h
    | gt => exact .inr ⟨(cmp_eq_gt_iff p q).mp hq, (cmp_eq_gt_iff p t).mp (hcmp.symm.trans hq)⟩
  · rintro (⟨hq, ht⟩ | ⟨hq, ht⟩)
    · rw [hq.cmp_eq_lt, ht.cmp_eq_lt]
    · rw [hq.cmp_eq_gt, ht.cmp_eq_gt]

theorem Operand.order_load_iff {x : Operand} {v : Value} :
    v.order x.load.value = v.order x.value ↔ v = .nan ∨ x.value = .nan ∨ x.SameSide v := by
  by_cases h : x.Denormal
  · obtain ⟨hload, q, hq, hne⟩ := x.load_denormal h
    rw [hload, hq]
    cases v with
    | nan => exact iff_of_true rfl (.inl rfl)
    | inf s => exact iff_of_true rfl (.inr (.inr fun _ p q' hp => by cases hp))
    | fin p =>
        have hcmp := @cmp_eq_cmp_iff p q x.withBit hne
        have hside : x.SameSide (.fin p) ↔ (p < q ∧ p < x.withBit) ∨ (q < p ∧ x.withBit < p) := by
          constructor
          · exact fun hs => hs h p q rfl hq
          · rintro hs - p' q' hp' hq'
            cases hp'
            rw [hq] at hq'
            cases hq'
            exact hs
        rw [hside, ← hcmp, or_iff_right Value.noConfusion, or_iff_right Value.noConfusion]
        exact (Option.some_inj (a := cmp p x.withBit) (b := cmp p q)).trans eq_comm
  · rw [x.load_value h]
    exact iff_of_true rfl (.inr (.inr fun hd => absurd hd h))

theorem Operand.load_nan_iff (x : Operand) : x.load.value = .nan ↔ x.value = .nan := by
  by_cases h : x.Denormal
  · obtain ⟨hload, q, hq, -⟩ := x.load_denormal h
    rw [hload, hq]
    simp
  · rw [x.load_value h]

theorem leftFlags_orderCode (o : Ordering) (h : mask = COMP_NAN ∨ mask = COMP_SNAN) :
    leftFlags mask (orderCode o) = orderFlags (some o) := by
  obtain rfl | rfl := h <;> cases o <;> decide

theorem leftFlags_ne (a b : Reg) (h : mask = COMP_NAN ∨ mask = COMP_SNAN) :
    leftFlags mask (compare a b).1 ≠ orderFlags none := by
  obtain ⟨o, ho⟩ | ho | ho := compare_fst a b
  · rw [ho, leftFlags_orderCode o h]
    cases o <;> decide
  · rw [ho]
    obtain rfl | rfl := h <;> decide
  · rw [ho]
    obtain rfl | rfl := h <;> decide

theorem orderFlags_inj {o o' : Option Ordering} (h : orderFlags o = orderFlags o') : o = o' := by
  rcases o with _ | _ | _ | _ <;> rcases o' with _ | _ | _ | _ <;>
    first | rfl | exact absurd h (by decide)

theorem leftFlags_eq_iff {x : Operand} (h : mask = COMP_NAN ∨ mask = COMP_SNAN) (ha : a.Extended)
    (hx : x.There) : leftFlags mask (compare a x.load).1 = orderFlags (a.value.order x.value) ↔
      a.value ≠ .nan ∧ x.value ≠ .nan ∧ x.SameSide a.value := by
  by_cases hnan : a.value = .nan ∨ x.value = .nan
  · have horder : a.value.order x.value = none := by
      obtain hv | hv := hnan
      · rw [hv]
        rfl
      · rw [hv]
        cases a.value <;> rfl
    rw [horder]
    refine iff_of_false (leftFlags_ne a x.load h) fun hr => ?_
    exact hnan.elim hr.1 hr.2.1
  · rw [not_or] at hnan
    obtain ⟨o, ho, hcode⟩ := compare_order ha (x.load_extended hx) hnan.1
      (fun hv => hnan.2 (x.load_nan_iff.mp hv))
    rw [hcode, leftFlags_orderCode o h, ← ho]
    have hiff := @Operand.order_load_iff x a.value
    refine ⟨fun heq => ?_, fun hr => ?_⟩
    · exact ⟨hnan.1, hnan.2, ((hiff.mp (orderFlags_inj heq)).resolve_left hnan.1).resolve_left hnan.2⟩
    · rw [hiff.mpr (.inr (.inr hr.2.2))]

theorem comHandler_eq {n : ℕ} (h : (m.fpu.st 0).tag ≠ .empty) (hi : (m.fpu.st i).tag ≠ .empty) :
    comHandler mask n i m = (comSt mask n i m.fpu).map fun f => ((), { m with fpu := f }) :=
  (bind_some (empty_passes h)).trans (bind_some (empty_passes hi))

theorem comppHandler_eq (h : (m.fpu.st 0).tag ≠ .empty) (hi : (m.fpu.st 1).tag ≠ .empty) :
    comppHandler mask 1 m = (comSt mask 2 1 m.fpu).map fun f => ((), { m with fpu := f }) :=
  (bind_some (empty_passes h)).trans (comHandler_eq h hi)

theorem mem_atOperand (m : Machine) : (atOperand m).mem = m.mem := by
  unfold atOperand afterPrefix
  dsimp only
  split_ifs <;> rfl

/-- The instruction runs, and leaves what its handler leaves. -/
def ComForm.Ends (rest : Operations) (form : ComForm) (m : Machine) (x : Operand) : Prop :=
  ∃ mask m', (mask = COMP_NAN ∨ mask = COMP_SNAN) ∧ emuEntry (comOperations rest) m = some m' ∧
    Ended (leftFlags mask (compare (m.fpu.st 0) x.load).1) form.pops m.fpu m'.fpu

variable {rest : Operations} {form : ComForm} {x : Operand}

theorem ComForm.pops_le (form : ComForm) : form.pops ≤ 8 := by
  unfold ComForm.pops
  split <;> first | omega | (split_ifs <;> omega)

/-- A register form, by its opcode and its ModRM byte for `st(0)`. -/
theorem ends_register {byte base : Byte} (esc : Fin 64) (hmask : mask = COMP_NAN ∨ mask = COMP_SNAN)
    (hcode : m.code 2 = [byte, base + BitVec.ofNat 8 i.val])
    (hform : ∀ j : Fin 8, byte &&& 0xF8 = 0xD8 ∧ base + BitVec.ofNat 8 j.val > 0xBF ∧
      ((byte &&& 7) ||| (base + BitVec.ofNat 8 j.val &&& 0o70)).toNat = esc.val ∧
      esc.val ∉ [11, 13, 15, 51, 53] ∧ rmOf (base + BitVec.ofNat 8 j.val) = j)
    (hhandler : ∀ m', rmOf m'.modrm = i → m'.fpu = m.fpu →
      (comOperations rest).registerForm esc m' =
        (comSt mask form.pops i m'.fpu).map fun f => ((), { m' with fpu := f }))
    (hm : AllMasked m.fpu) (hst : (m.fpu.st 0).Extended) (hi : (m.fpu.st i).Extended) :
    form.Ends rest m (.reg (m.fpu.st i)) := by
  obtain ⟨hbyte, hmodrm, hnumber, hesc, hrm⟩ := hform i
  obtain ⟨hentry, heq⟩ := @emuEntry_register m (comOperations rest) _ _ esc
    ⟨hcode, hbyte, hmodrm, hnumber, hesc⟩
  obtain ⟨f', hf', hended⟩ := @comSt_ended m.fpu mask i form.pops form.pops_le hm hst hi
  rw [hhandler _ (by rw [heq, hrm]) (fpu_atOperand m), fpu_atOperand, hf'] at hentry
  exact ⟨mask, _, hmask, hentry, hended⟩

theorem ends_memory {kind : MemKind} {pop : Bool} (hescape : IsEscape m)
    (hesc : escNumber m = kind.esc pop) {addr : Address 32} {left : List Byte}
    (hdecode : decode32 (atOperand m).modrm ((atOperand m).code 5) = some (addr, left))
    (hm : AllMasked m.fpu) (hne : (m.fpu.st 0).tag ≠ .empty) (hst : (m.fpu.st 0).Extended) :
    (ComForm.mem kind pop).Ends rest m (kind.operand m.mem (addr.eval m.reg)) := by
  obtain ⟨x, hx⟩ : ∃ x, x = kind.operand m.mem (addr.eval m.reg) := ⟨_, rfl⟩
  have hthere : x.There := by
    rw [hx]
    cases kind <;> trivial
  obtain ⟨f', hf', hended⟩ := @comMem_ended m.fpu (ComForm.mem kind pop).pops x.load
    (ComForm.pops_le _) hm hst (x.load_extended hthere)
  obtain ⟨a, k, -, hdecode', hget⟩ := getModrm_takes hescape.operand
  obtain ⟨rfl, -⟩ := Prod.mk.inj (Option.some.inj (hdecode.symm.trans hdecode'))
  have huse : (comOperations rest).use (kind.esc pop) (addr.eval m.reg) m.fpu m.mem =
      some (f', m.mem) := by
    have hmap : (comMem (ComForm.mem kind pop).pops x.load m.fpu).map (fun f => (f, m.mem)) =
        some (f', m.mem) := by
      rw [hf']
      rfl
    rw [← hmap, hx]
    cases kind <;> cases pop <;> rfl
  have hcheck : checkOf (kind.esc pop) = .empty := by
    cases kind <;> cases pop <;> rfl
  have hentry : emuEntry (comOperations rest) m = some { (atOperand m).skip k with
      used := some (addr.eval m.reg), fpu := f', mem := m.mem } := by
    have hpass : empty 0 (atOperand m) = some (false, atOperand m) :=
      empty_passes (by rwa [fpu_atOperand])
    rw [emuEntry_eq hescape, hesc, hcheck]
    refine (congrArg (Option.map Prod.snd) (bind_some hpass)).trans ?_
    refine (congrArg (Option.map Prod.snd) (useOperand_eq _ _ hget)).trans ?_
    rw [reg_atOperand]
    show ((comOperations rest).use (kind.esc pop) (addr.eval m.reg) (atOperand m).fpu
      (atOperand m).mem |>.map _).map _ = _
    rw [fpu_atOperand, mem_atOperand, huse]
    rfl
  rw [← hx]
  exact ⟨COMP_NAN, _, .inl rfl, hentry, hended⟩

theorem ComForm.ends (hnext : form.IsNext m x) (hm : AllMasked m.fpu)
    (hne : (m.fpu.st 0).tag ≠ .empty) (hst : (m.fpu.st 0).Extended) (hx : x.There) :
    form.Ends rest m x := by
  have hget : ∀ m' : Machine, (get : Emu Machine) m' = some (m', m') := fun _ => rfl
  -- the handlers find their operands there
  have hcom : ∀ {mask n} {i : Fin 8}, (m.fpu.st i).tag ≠ .empty → ∀ m', m'.fpu = m.fpu →
      comHandler mask n i m' = (comSt mask n i m'.fpu).map fun f => ((), { m' with fpu := f }) := by
    intro mask n i hi m' hf
    exact comHandler_eq (by rwa [hf]) (by rwa [hf])
  have hcompp : ∀ {mask}, (m.fpu.st 1).tag ≠ .empty → ∀ m', m'.fpu = m.fpu →
      comppHandler mask 1 m' = (comSt mask 2 1 m'.fpu).map fun f => ((), { m' with fpu := f }) := by
    intro mask hi m' hf
    exact comppHandler_eq (by rwa [hf]) (by rwa [hf])
  cases form with
  | fcom i =>
      obtain ⟨hcode, rfl⟩ := hnext
      refine ends_register 16 (.inl rfl) hcode (by decide) (fun m' hi hf => ?_) hm hst hx.2
      exact (bind_some (hget m')).trans (by rw [hi]; exact hcom hx.1 m' hf)
  | fcomp i =>
      obtain ⟨hcode, rfl⟩ := hnext
      refine ends_register 24 (.inl rfl) hcode (by decide) (fun m' hi hf => ?_) hm hst hx.2
      exact (bind_some (hget m')).trans (by rw [hi]; exact hcom hx.1 m' hf)
  | fcompp =>
      obtain ⟨hcode, rfl⟩ := hnext
      refine @ends_register COMP_NAN m 1 rest .fcompp 0xDE 0xD8 30 (.inl rfl) hcode (by decide)
        (fun m' hi hf => ?_) hm hst hx.2
      exact (bind_some (hget m')).trans (by rw [hi]; exact hcompp hx.1 m' hf)
  | fucom i =>
      obtain ⟨hcode, rfl⟩ := hnext
      refine ends_register 37 (.inr rfl) hcode (by decide) (fun m' hi hf => ?_) hm hst hx.2
      exact (bind_some (hget m')).trans (by rw [hi]; exact hcom hx.1 m' hf)
  | fucomp i =>
      obtain ⟨hcode, rfl⟩ := hnext
      refine ends_register 45 (.inr rfl) hcode (by decide) (fun m' hi hf => ?_) hm hst hx.2
      exact (bind_some (hget m')).trans (by rw [hi]; exact hcom hx.1 m' hf)
  | fucompp =>
      obtain ⟨hcode, rfl⟩ := hnext
      refine @ends_register COMP_SNAN m 1 rest .fucompp 0xDA 0xE8 42 (.inr rfl) hcode (by decide)
        (fun m' hi hf => ?_) hm hst hx.2
      exact (bind_some (hget m')).trans (by rw [hi]; exact hcompp hx.1 m' hf)
  | mem kind pop =>
      obtain ⟨hescape, hesc, a, left, hdecode, rfl⟩ := hnext
      exact ends_memory hescape hesc hdecode hm hne hst

/-- The emulator runs the comparison, and does what the coprocessor does. -/
def ComForm.Reports (rest : Operations) (form : ComForm) (m : Machine) (x : Operand) : Prop :=
  ∃ m', emuEntry (comOperations rest) m = some m' ∧ form.Reported x m.fpu m'.fpu

theorem ComForm.reports_iff (hends : form.Ends rest m x) (hst : (m.fpu.st 0).Extended)
    (hx : x.There) : form.Reports rest m x ↔
      (m.fpu.st 0).value ≠ .nan ∧ x.value ≠ .nan ∧ x.SameSide (m.fpu.st 0).value := by
  obtain ⟨mask, m', hmask, hentry, hended⟩ := hends
  rw [← leftFlags_eq_iff hmask hst hx]
  constructor
  · rintro ⟨m'', hentry', hreported⟩
    cases Option.some.inj (hentry.symm.trans hentry')
    exact hended.conditions.symm.trans hreported.conditions
  · intro hflags
    exact ⟨m', hentry, hended.conditions.trans hflags, hended.controlWord, hended.top, hended.tags,
      hended.values⟩

/-- Code for a comparison of two registers, at the start of memory. -/
def pairMachine (code : List Byte) (a b : Reg) : Machine :=
  { onesMachine code .empty with
    fpu :=
      { controlWord := 0x37f, statusWord := 0, top := 0
        regs := fun k => if k = 0 then a else if k = 1 then b
          else { CONST_Z with tag := .empty } } }

theorem extended_one : CONST_1.Extended := ⟨by decide, by decide⟩

end DjgppLibc.Emu387
