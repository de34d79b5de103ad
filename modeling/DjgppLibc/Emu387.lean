import Mathlib.Data.Fintype.Basic
import Mathlib.Tactic.FinCases
import Mathlib.Tactic.IntervalCases
import DjgppLibc.X86Addressing

/-!
# The 387 emulator (`libemu/src/emu387.cc`)

The state of the coprocessor, its exceptions, and the address of an operand in memory,
which is computed while the bytes of the operand are taken from the instruction stream.
`getModrm_takes` compares it with the addressing rules.

An exception that is not masked leaves the emulator by `longjmp`, which is `none`. The
control and status words are 16 bits wide, and the top of the stack counts modulo 8, as
all their uses have it.
-/
namespace DjgppLibc.Emu387

open X86

inductive Tag
  | valid
  | zero
  | special
  | empty
deriving DecidableEq

/-- A register of the coprocessor; `sign` is set for `SIGN_NEG`. -/
structure Reg where
  sign : Bool
  tag : Tag
  exp : BitVec 16
  sigl : BitVec 32
  sigh : BitVec 32
deriving DecidableEq

structure Fpu where
  controlWord : BitVec 16
  statusWord : BitVec 16
  top : Fin 8
  regs : Fin 8 → Reg

def Fpu.st (f : Fpu) (i : Fin 8) : Reg := f.regs (f.top + i)

def Fpu.setSt (f : Fpu) (i : Fin 8) (r : Reg) : Fpu :=
  { f with regs := fun k => if k = f.top + i then r else f.regs k }

def EX_SO : BitVec 16 := 0x02C1
def EX_SU : BitVec 16 := 0x00C1
def EX_I : BitVec 16 := 0x0081
def SW_C1 : BitVec 16 := 0x0200
def CW_EXM : BitVec 16 := 0x007f

def CONST_NAN : Reg := ⟨true, .special, 32767, 0, 0xC0000000⟩

def masked (f : Fpu) (n : BitVec 16) : Bool := ~~~f.controlWord &&& n &&& CW_EXM = 0

def exception (n : BitVec 16) (f : Fpu) : Option Fpu :=
  let statusWord := f.statusWord ||| n
  let f := { f with statusWord := if n = EX_SU then statusWord &&& ~~~SW_C1 else statusWord }
  if masked f n then some f else none

structure Machine where
  eax : BitVec 32
  ebx : BitVec 32
  ecx : BitVec 32
  edx : BitVec 32
  esi : BitVec 32
  edi : BitVec 32
  ebp : BitVec 32
  esp : BitVec 32
  eip : BitVec 32
  modrm : Byte
  mem : BitVec 32 → Byte
  fpu : Fpu
  /-- The address that `get_modrm` has returned. -/
  used : Option (BitVec 32)

abbrev Emu (α : Type) := StateT Machine Option α

/-- `*eip++` -/
def nextByte : Emu Byte := fun m => some (m.mem m.eip, { m with eip := m.eip + 1 })

/-- Four bytes into an `int`, the low one first. -/
def nextInt : Emu (BitVec 32) := do
  let b₀ ← nextByte
  let b₁ ← nextByte
  let b₂ ← nextByte
  let b₃ ← nextByte
  return b₃ ++ b₂ ++ b₁ ++ b₀

def sregval (m : Machine) (reg1 : ℕ) (mod : ℤ) : BitVec 32 :=
  match reg1 with
  | 0 => m.eax
  | 1 => m.ecx
  | 2 => m.edx
  | 3 => m.ebx
  | 4 => if mod = -1 then 0 else m.esp
  | 5 => if mod ≠ 0 then m.ebp else 0
  | 6 => m.esi
  | 7 => m.edi
  | _ => 0

def scale (ss : ℕ) : BitVec 32 :=
  match ss with
  | 0 => 1
  | 1 => 2
  | 2 => 4
  | _ => 8

def getsib : Emu (BitVec 32) := do
  let m ← get
  let mod := (m.modrm >>> 6).toNat
  let sib ← nextByte
  let ss := (sib >>> 6).toNat
  let index := ((sib >>> 3) &&& 7).toNat
  let base := (sib &&& 7).toNat
  let rv := sregval m base mod + sregval m index (-1) * scale ss
  if mod = 1 then
    let rv2 ← nextByte
    return rv + rv2.signExtend 32
  else if (mod = 0 ∧ base = 5) ∨ mod = 2 then
    let rv2 ← nextInt
    return rv + rv2
  else return rv

def regval (reg1 : ℕ) (mod : ℤ) : Emu (BitVec 32) := do
  let m ← get
  match reg1 with
  | 0 => return m.eax
  | 1 => return m.ecx
  | 2 => return m.edx
  | 3 => return m.ebx
  | 4 => getsib
  | 5 => return if mod ≠ 0 then m.ebp else 0
  | 6 => return m.esi
  | 7 => return m.edi
  | _ => return 0

def getModrm : Emu (BitVec 32) := do
  let m ← get
  let mod := (m.modrm >>> 6).toNat
  let rm := (m.modrm &&& 7).toNat
  match mod with
  | 0 => if rm = 5 then nextInt else regval rm mod
  | 1 =>
      if rm ≠ 4 then
        let rv ← nextByte
        return rv.signExtend 32 + (← regval rm mod)
      else regval rm mod
  | 2 =>
      if rm ≠ 4 then
        let rv ← nextInt
        return rv + (← regval rm mod)
      else regval rm mod
  | _ => fun _ => none

/-- The address of the operand, which is remembered. -/
def operand : Emu (BitVec 32) := do
  let rv ← getModrm
  modify fun m => { m with used := some rv }
  return rv

def Machine.reg (m : Machine) (i : Fin 8) : BitVec 32 :=
  match i with
  | 0 => m.eax
  | 1 => m.ecx
  | 2 => m.edx
  | 3 => m.ebx
  | 4 => m.esp
  | 5 => m.ebp
  | 6 => m.esi
  | 7 => m.edi

def Machine.code (m : Machine) (n : ℕ) : List Byte :=
  (List.range n).map fun k => m.mem (m.eip + BitVec.ofNat 32 k)

def Machine.skip (m : Machine) (n : ℕ) : Machine := { m with eip := m.eip + BitVec.ofNat 32 n }

theorem toNat_shift_six (b : Byte) : (b >>> 6).toNat = modOf b := by
  simp [modOf, Nat.shiftRight_eq_div_pow]

theorem toNat_and_seven (b : Byte) : (b &&& 7).toNat = (rmOf b).val := by
  rw [BitVec.toNat_and]
  exact Nat.and_two_pow_sub_one_eq_mod b.toNat 3

theorem toNat_shift_three (b : Byte) : ((b >>> 3) &&& 7).toNat = (regOf b).val := by
  rw [BitVec.toNat_and, BitVec.toNat_ushiftRight, Nat.shiftRight_eq_div_pow]
  exact Nat.and_two_pow_sub_one_eq_mod (b.toNat / 8) 3

theorem toNat_append_byte {w : ℕ} (x : BitVec w) (b : Byte) :
    (x ++ b).toNat = x.toNat * 256 + b.toNat := by
  rw [BitVec.toNat_append, ← Nat.shiftLeft_add_eq_or_of_lt b.isLt, Nat.shiftLeft_eq]

theorem ofNat_littleEndian (b₀ b₁ b₂ b₃ : Byte) :
    BitVec.ofNat 32 (littleEndian [b₀, b₁, b₂, b₃]) = b₃ ++ b₂ ++ b₁ ++ b₀ := by
  apply BitVec.eq_of_toNat_eq
  have h₀ := b₀.isLt
  have h₁ := b₁.isLt
  have h₂ := b₂.isLt
  have h₃ := b₃.isLt
  rw [BitVec.toNat_ofNat, toNat_append_byte, toNat_append_byte, toNat_append_byte]
  simp only [littleEndian]
  omega

variable {m : Machine}

theorem pure_apply {α : Type} (a : α) (m : Machine) : (pure a : Emu α) m = some (a, m) := rfl

theorem nextInt_eq (m : Machine) :
    nextInt m = some (BitVec.ofNat 32 (littleEndian (m.code 4)), m.skip 4) := by
  have hcode : m.code 4 = [m.mem m.eip, m.mem (m.eip + 1), m.mem (m.eip + 2),
      m.mem (m.eip + 3)] := by
    simp [Machine.code, List.range_succ]
  rw [hcode, ofNat_littleEndian]
  simp [nextInt, nextByte, bind, StateT.bind, pure_apply, BitVec.add_assoc, Machine.skip]

theorem nextByte_eq (m : Machine) : nextByte m = some (m.mem m.eip, m.skip 1) := rfl

theorem sregval_base (m : Machine) (i : Fin 8) {mod : ℕ} :
    sregval m i mod = if mod = 0 ∧ i = 5 then 0 else m.reg i := by
  fin_cases i <;> simp [sregval, Machine.reg]

theorem sregval_index (m : Machine) (i : Fin 8) :
    sregval m i (-1) = if i = 4 then 0 else m.reg i := by
  fin_cases i <;> simp [sregval, Machine.reg]

theorem regval_eq (m : Machine) {i : Fin 8} (hi : i ≠ 4) {mod : ℕ} (h : ¬ (mod = 0 ∧ i = 5)) :
    regval i mod m = some (m.reg i, m) := by
  fin_cases i <;> simp_all [regval, Machine.reg, get, getThe, MonadStateOf.get, StateT.get, bind,
    StateT.bind, pure_apply]

theorem scale_eq (b : Byte) : scale (modOf b) = BitVec.ofNat 32 (2 ^ modOf b) := by
  have h : modOf b < 4 := by
    have := b.isLt
    unfold modOf
    omega
  interval_cases modOf b <;> rfl

theorem code_succ (m : Machine) (n : ℕ) : m.code (n + 1) = m.mem m.eip :: (m.skip 1).code n := by
  simp only [Machine.code, List.range_succ_eq_map, List.map_cons, List.map_map, BitVec.add_zero]
  refine congrArg _ (List.map_congr_left fun k _ => ?_)
  simp [Machine.skip, BitVec.add_assoc, BitVec.ofNat_add, BitVec.add_comm 1#32]

theorem skip_skip (m : Machine) (k l : ℕ) : (m.skip k).skip l = m.skip (k + l) := by
  simp [Machine.skip, BitVec.add_assoc, BitVec.ofNat_add]

theorem skip_zero (m : Machine) : m.skip 0 = m := by
  simp [Machine.skip]

theorem code_add (m : Machine) (k n : ℕ) : m.code (k + n) = m.code k ++ (m.skip k).code n := by
  induction k generalizing m with
  | zero => simp [Machine.code, Machine.skip]
  | succ k ih =>
      rw [Nat.succ_add, code_succ, ih, skip_skip, code_succ, Nat.add_comm 1]
      rfl

theorem length_code (m : Machine) (n : ℕ) : (m.code n).length = n := by
  simp [Machine.code]

variable (terms : List (Fin 8 × ℕ))

theorem withDisp_none (m : Machine) (n : ℕ) :
    withDisp 32 0 terms (m.code n) = some (⟨terms, 0⟩, m.code n) := by
  simp [withDisp, takeDisp, littleEndian]

theorem withDisp_byte (m : Machine) (n : ℕ) :
    withDisp 32 1 terms (m.code (n + 1)) =
      some (⟨terms, (m.mem m.eip).signExtend 32⟩, (m.skip 1).code n) := by
  simp [withDisp, takeDisp, code_succ]

theorem withDisp_int (m : Machine) (n : ℕ) :
    withDisp 32 4 terms (m.code (n + 4)) =
      some (⟨terms, BitVec.ofNat 32 (littleEndian (m.code 4))⟩, (m.skip 4).code n) := by
  rw [Nat.add_comm, code_add]
  simp [withDisp, takeDisp, length_code]

/-- The code takes `k` of `n` bytes for the operand, and computes its address. -/
def Takes (m : Machine) (n : ℕ) (decoded : Option (Address 32 × List Byte))
    (res : Option (BitVec 32 × Machine)) : Prop :=
  ∃ a k, k ≤ n ∧ decoded = some (a, (m.skip k).code (n - k)) ∧ res = some (a.eval m.reg, m.skip k)

theorem eval_index (r : Fin 8 → BitVec 32) (i : Fin 8) (f : ℕ) (disp : BitVec 32) :
    (⟨if i = 4 then [] else [(i, f)], disp⟩ : Address 32).eval r =
      (if i = 4 then 0 else r i) * BitVec.ofNat 32 f + disp := by
  split_ifs <;> simp [Address.eval]

theorem eval_cons (r : Fin 8 → BitVec 32) (i : Fin 8) (disp : BitVec 32) :
    (⟨(i, 1) :: terms, disp⟩ : Address 32).eval r = r i + (⟨terms, disp⟩ : Address 32).eval r := by
  simp [Address.eval]

theorem getsib_takes (h : modOf m.modrm ≠ 3) :
    Takes m 5 (decodeSib (modOf m.modrm) (m.code 5)) (getsib m) := by
  obtain ⟨mod, hmod⟩ : ∃ mod, mod = modOf m.modrm := ⟨_, rfl⟩
  obtain ⟨sib, hsib⟩ : ∃ sib, sib = m.mem m.eip := ⟨_, rfl⟩
  have hlt : mod < 4 := by
    have := m.modrm.isLt
    rw [hmod]
    unfold modOf
    omega
  have hget : getsib m = (if mod = 1 then do
        let rv2 ← nextByte
        return sregval m (rmOf sib) mod + sregval m (regOf sib) (-1) * scale (modOf sib) +
          rv2.signExtend 32
      else if (mod = 0 ∧ (rmOf sib).val = 5) ∨ mod = 2 then do
        let rv2 ← nextInt
        return sregval m (rmOf sib) mod + sregval m (regOf sib) (-1) * scale (modOf sib) + rv2
      else return sregval m (rmOf sib) mod + sregval m (regOf sib) (-1) * scale (modOf sib) :
        Emu (BitVec 32)) (m.skip 1) := by
    rw [hmod, hsib, ← toNat_shift_six, ← toNat_and_seven, ← toNat_shift_three, ← toNat_shift_six]
    rfl
  rw [hget, code_succ, decodeSib, ← hmod, ← hsib, sregval_base, sregval_index, scale_eq]
  have hval : (rmOf sib).val = 5 ↔ rmOf sib = 5 := by
    rw [Fin.ext_iff]
    rfl
  obtain ⟨index, hindex⟩ : ∃ index, index = if regOf sib = 4 then [] else
    [(regOf sib, 2 ^ modOf sib)] := ⟨_, rfl⟩
  have heval : ∀ disp, (⟨index, disp⟩ : Address 32).eval m.reg =
      (if regOf sib = 4 then 0 else m.reg (regOf sib)) * BitVec.ofNat 32
        (2 ^ modOf sib) + disp := by
    rw [hindex]
    exact eval_index m.reg _ _
  rw [← hindex]
  by_cases hone : mod = 1
  · rw [if_pos hone, if_neg (by omega), if_neg (by omega), hone]
    refine ⟨_, 2, by decide, (withDisp_byte _ (m.skip 1) 3).trans (by rw [skip_skip]), ?_⟩
    rw [eval_cons, heval, ← BitVec.add_assoc]
    simp [bind, StateT.bind, nextByte_eq, skip_skip, pure_apply]
  rw [if_neg hone]
  by_cases hbase : mod = 0 ∧ rmOf sib = 5
  · rw [if_pos hbase, if_pos (.inl ⟨hbase.1, hval.mpr hbase.2⟩), if_pos hbase]
    refine ⟨_, 5, by decide, withDisp_int _ (m.skip 1) 0, ?_⟩
    rw [heval]
    simp [bind, StateT.bind, nextInt_eq, skip_skip, pure_apply]
  rw [if_neg hbase]
  simp only [if_neg hbase]
  by_cases htwo : mod = 2
  · rw [if_pos (.inr htwo), htwo]
    refine ⟨_, 5, by decide, withDisp_int _ (m.skip 1) 0, ?_⟩
    rw [eval_cons, heval, ← BitVec.add_assoc]
    simp [bind, StateT.bind, nextInt_eq, skip_skip, pure_apply]
  · have hzero : mod = 0 := by omega
    rw [if_neg (by simp only [hval, hbase, htwo, or_self]; trivial), hzero]
    refine ⟨_, 1, by decide, withDisp_none _ (m.skip 1) 4, ?_⟩
    rw [eval_cons, heval]
    simp [pure_apply]

theorem Takes.congr {n : ℕ} {d d' : Option (Address 32 × List Byte)}
    {r r' : Option (BitVec 32 × Machine)} (h : Takes m n d r) (hd : d' = d) (hr : r' = r) :
    Takes m n d' r' := by
  rwa [hd, hr]

/-- `get_modrm` takes the bytes of the operand and computes its address. -/
theorem getModrm_takes (h : modOf m.modrm ≠ 3) :
    Takes m 5 (decode32 m.modrm (m.code 5)) (getModrm m) := by
  have hlt : modOf m.modrm < 4 := by
    have := m.modrm.isLt
    unfold modOf
    omega
  have hval : ∀ k : Fin 8, (rmOf m.modrm).val = k.val ↔ rmOf m.modrm = k :=
    fun k => Fin.ext_iff.symm
  have hregval : rmOf m.modrm = 4 → regval (rmOf m.modrm) (modOf m.modrm) m = getsib m := by
    intro hrm
    rw [hrm]
    rfl
  have hget : getModrm m = (match modOf m.modrm with
      | 0 => if (rmOf m.modrm).val = 5 then nextInt else regval (rmOf m.modrm) (modOf m.modrm)
      | 1 =>
          if (rmOf m.modrm).val ≠ 4 then do
            let rv ← nextByte
            return rv.signExtend 32 + (← regval (rmOf m.modrm) (modOf m.modrm))
          else regval (rmOf m.modrm) (modOf m.modrm)
      | 2 =>
          if (rmOf m.modrm).val ≠ 4 then do
            let rv ← nextInt
            return rv + (← regval (rmOf m.modrm) (modOf m.modrm))
          else regval (rmOf m.modrm) (modOf m.modrm)
      | _ => fun _ => none : Emu (BitVec 32)) m := by
    rw [← toNat_shift_six, ← toNat_and_seven]
    rfl
  have hsibTakes := getsib_takes h
  rw [hget, decode32, if_neg h]
  by_cases hsib : rmOf m.modrm = 4
  · have hne : ¬ (rmOf m.modrm).val = 5 := fun he => absurd ((hval 5).mp he) (by rw [hsib]; decide)
    refine hsibTakes.congr (if_pos hsib) (Eq.trans ?_ (hregval hsib))
    have hsib' : ¬ (rmOf m.modrm).val ≠ 4 := not_not.mpr ((hval 4).mpr hsib)
    interval_cases modOf m.modrm
    · exact congrFun (if_neg hne) m
    · exact congrFun (if_neg hsib') m
    · exact congrFun (if_neg hsib') m
    · exact absurd rfl h
  have hsib' : (rmOf m.modrm).val ≠ 4 := fun he => hsib ((hval 4).mp he)
  rw [if_neg hsib]
  clear hsibTakes hget hregval
  interval_cases hmod : modOf m.modrm
  · by_cases hfive : rmOf m.modrm = 5
    · rw [if_pos ⟨rfl, hfive⟩]
      refine ⟨_, 4, by decide, withDisp_int [] m 1, ?_⟩
      exact (congrFun (if_pos ((hval 5).mpr hfive)) m).trans (nextInt_eq m)
    · have hne : ¬ (rmOf m.modrm).val = 5 := fun he => hfive ((hval 5).mp he)
      rw [if_neg fun he => hfive he.2]
      refine ⟨_, 0, by decide, (withDisp_none _ m 5).trans (by rw [skip_zero]), ?_⟩
      refine (congrFun (if_neg hne) m).trans ((regval_eq m hsib fun he => hfive he.2).trans ?_)
      simp [Address.eval, skip_zero]
  · rw [if_neg fun he => absurd he.1 (by decide)]
    refine ⟨_, 1, by decide, withDisp_byte _ m 4, (congrFun (if_pos hsib') m).trans ?_⟩
    have hreg : regval (rmOf m.modrm) (1 : ℕ) (m.skip 1) = some (m.reg (rmOf m.modrm), m.skip 1) :=
      regval_eq (m.skip 1) hsib (by simp)
    simp only [bind, StateT.bind, nextByte_eq, hreg, Option.bind_some, pure_apply]
    simp [Address.eval, BitVec.add_comm]
  · rw [if_neg fun he => absurd he.1 (by decide)]
    refine ⟨_, 4, by decide, withDisp_int _ m 1, (congrFun (if_pos hsib') m).trans ?_⟩
    have hreg : regval (rmOf m.modrm) (2 : ℕ) (m.skip 4) = some (m.reg (rmOf m.modrm), m.skip 4) :=
      regval_eq (m.skip 4) hsib (by simp)
    simp only [bind, StateT.bind, nextInt_eq, hreg, Option.bind_some, pure_apply]
    simp [Address.eval, BitVec.add_comm]
  · exact absurd rfl h

end DjgppLibc.Emu387
