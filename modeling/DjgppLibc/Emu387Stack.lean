import Mathlib.Algebra.Group.Fin.Basic
import DjgppLibc.Emu387Arith

/-!
# The stack instructions of the 387 emulator

The register forms that move numbers between the registers, and the arithmetic that pops.
The handlers count registers from a top that they move themselves; `StackForm.Prescribed`
says what the coprocessor does to the stack as the program sees it.

`ffree` has the same handler as `fld` of a `double`, and the handler looks for a full stack
first: with a full stack nothing is freed, and a NaN is pushed.
-/
namespace DjgppLibc.Emu387

open X86

def onFpu (g : Fpu → Fpu) : Emu Unit := modify fun m => { m with fpu := g m.fpu }

/-- `st().tag = TW_E; top++` -/
def Fpu.pop (f : Fpu) : Fpu :=
  { f.setSt 0 { f.st 0 with tag := .empty } with top := f.top + 1 }

def Outcome.deliver (o : Outcome) : Emu Reg := do
  if let some n := o.raised then raise n
  return o.reg

/-- `fld st(i)` -/
def emu_10_st (i : Fin 8) : Emu Unit := do
  if ← full then return
  if ← empty i then return
  onFpu fun f => { f.setSt 7 (f.st i) with top := f.top - 1 }

/-- `fxch st(i)` -/
def emu_11_st (i : Fin 8) : Emu Unit := do
  if ← empty 0 then onFpu fun f => f.setSt 0 CONST_NAN
  if ← empty i then onFpu fun f => f.setSt i CONST_NAN
  onFpu fun f => (f.setSt 0 (f.st i)).setSt i (f.st 0)

def fdecstp : Emu Unit :=
  onFpu fun f => { f with statusWord := f.statusWord &&& ~~~SW_C1, top := f.top - 1 }

def fincstp : Emu Unit :=
  onFpu fun f => { f with statusWord := f.statusWord &&& ~~~SW_C1, top := f.top + 1 }

/-- `ffree st(i)` -/
def emu_50_st (i : Fin 8) : Emu Unit := do
  if ← full then return
  onFpu fun f => f.setSt i { f.st i with tag := .empty }

/-- `fst st(i)` -/
def emu_52_st (i : Fin 8) : Emu Unit := onFpu fun f => f.setSt i (f.st 0)

/-- `fstp st(i)` -/
def emu_53_st (i : Fin 8) : Emu Unit := onFpu fun f => (f.setSt i (f.st 0)).pop

/-- The arithmetic that pops: `op` takes `st` and `st(i)`. -/
def arithPop (op : Reg → Reg → Outcome) (i : Fin 8) : Emu Unit := do
  if ← empty 0 then return
  if ← empty i then return
  let f := (← get).fpu
  let tmp ← (op (f.st 0) (f.st i)).deliver
  onFpu fun f => (f.setSt i tmp).pop

def emu_60_st : Fin 8 → Emu Unit := arithPop fun st sti => rAdd st sti
def emu_61_st : Fin 8 → Emu Unit := arithPop fun st sti => rMul sti st
def emu_64_st : Fin 8 → Emu Unit := arithPop fun st sti => rSub st sti
def emu_65_st : Fin 8 → Emu Unit := arithPop fun st sti => rSub sti st
def emu_66_st (t : Reg) : Fin 8 → Emu Unit := arithPop fun st sti => rDiv t st sti
def emu_67_st (t : Reg) : Fin 8 → Emu Unit := arithPop fun st sti => rDiv t sti st

/-- The emulator with these register forms; `t` is what the registers on its own stack hold
before they are used. -/
def stackOperations (t : Reg) (rest : Operations) : Operations :=
  { rest with
    registerForm := fun esc => do
      let i := rmOf (← get).modrm
      match esc with
      | 1 => emu_10_st i
      | 9 => emu_11_st i
      | 49 => if i = 6 then fdecstp else if i = 7 then fincstp else rest.registerForm esc
      | 5 => emu_50_st i
      | 21 => emu_52_st i
      | 29 => emu_53_st i
      | 6 => emu_60_st i
      | 14 => emu_61_st i
      | 38 => emu_64_st i
      | 46 => emu_65_st i
      | 54 => emu_66_st t i
      | 62 => emu_67_st t i
      | _ => rest.registerForm esc }

inductive PopArith
  | fadd
  | fmul
  | fsub
  | fsubr
  | fdiv
  | fdivr
deriving DecidableEq

/-- What goes to the destination `st(i)`; the reversed forms take the operands the other way
round. -/
def PopArith.result (t : Reg) (op : PopArith) (sti st : Reg) : Reg :=
  match op with
  | .fadd => (rAdd st sti).reg
  | .fmul => (rMul sti st).reg
  | .fsub => (rSub sti st).reg
  | .fsubr => (rSub st sti).reg
  | .fdiv => (rDiv t sti st).reg
  | .fdivr => (rDiv t st sti).reg

inductive StackForm
  | fld
  | fxch
  | ffree
  | fst
  | fstp
  | fincstp
  | fdecstp
  | pop (op : PopArith)
deriving DecidableEq

/-- The opcode and the ModRM byte for `st(0)`. -/
def StackForm.opcode : StackForm → Byte × Byte
  | .fld => (0xD9, 0xC0)
  | .fxch => (0xD9, 0xC8)
  | .ffree => (0xDD, 0xC0)
  | .fst => (0xDD, 0xD0)
  | .fstp => (0xDD, 0xD8)
  | .fdecstp => (0xD9, 0xF6)
  | .fincstp => (0xD9, 0xF7)
  | .pop .fadd => (0xDE, 0xC0)
  | .pop .fmul => (0xDE, 0xC8)
  | .pop .fsubr => (0xDE, 0xE0)
  | .pop .fsub => (0xDE, 0xE8)
  | .pop .fdivr => (0xDE, 0xF0)
  | .pop .fdiv => (0xDE, 0xF8)

/-- `fincstp` and `fdecstp` name no register. -/
def StackForm.code (form : StackForm) (i : Fin 8) : List Byte :=
  match form with
  | .fincstp | .fdecstp => [form.opcode.1, form.opcode.2]
  | _ => [form.opcode.1, form.opcode.2 + BitVec.ofNat 8 i.val]

/-- The operands hold numbers, and there is room for what `fld` pushes. -/
def StackForm.OperandsThere (form : StackForm) (i : Fin 8) (s : Fin 8 → Reg) : Prop :=
  match form with
  | .fld => (s i).tag ≠ .empty ∧ (s 7).tag = .empty
  | .ffree => (s i).tag ≠ .empty
  | .fst | .fstp => (s 0).tag ≠ .empty
  | .fincstp | .fdecstp => True
  | .fxch | .pop _ => (s 0).tag ≠ .empty ∧ (s i).tag ≠ .empty

def StackForm.moves : StackForm → Fin 8
  | .fld | .fdecstp => -1
  | .fstp | .fincstp | .pop _ => 1
  | .fxch | .ffree | .fst => 0

/-- The stack without its first register, which is empty and the last one now. -/
def popped (s : Fin 8 → Reg) (j : Fin 8) : Reg :=
  if j = 7 then { s 0 with tag := .empty } else s (j + 1)

def StackForm.after (t : Reg) (form : StackForm) (i : Fin 8) (s : Fin 8 → Reg) : Fin 8 → Reg :=
  match form with
  | .fld => fun j => if j = 0 then s i else s (j - 1)
  | .fxch => s ∘ Equiv.swap 0 i
  | .ffree => Function.update s i { s i with tag := .empty }
  | .fst => Function.update s i (s 0)
  | .fstp => popped (Function.update s i (s 0))
  | .fincstp => fun j => s (j + 1)
  | .fdecstp => fun j => s (j - 1)
  | .pop op => popped (Function.update s i (op.result t (s i) (s 0)))

structure StackForm.Prescribed (t : Reg) (form : StackForm) (i : Fin 8) (f f' : Fpu) : Prop where
  controlWord : f'.controlWord = f.controlWord
  top : f'.top = f.top + form.moves
  st : f'.st = form.after t i f.st

def AllMasked (f : Fpu) : Prop := f.controlWord &&& 0x3f = 0x3f

theorem st_setSt (f : Fpu) (i j : Fin 8) (r : Reg) :
    (f.setSt i r).st j = if j = i then r else f.st j := by
  simp [Fpu.st, Fpu.setSt]

theorem setSt_st (f : Fpu) (i : Fin 8) (r : Reg) :
    (f.setSt i r).st = Function.update f.st i r := by
  funext j
  rw [st_setSt, Function.update_apply]

theorem st_move (f : Fpu) (d j : Fin 8) : ({ f with top := f.top + d } : Fpu).st j =
    f.st (j + d) := by
  simp only [Fpu.st, add_assoc, add_comm d j]

theorem st_back (f : Fpu) (j : Fin 8) : ({ f with top := f.top - 1 } : Fpu).st j =
    f.st (j - 1) := by
  simp only [sub_eq_add_neg]
  exact st_move f (-1) j

theorem st_pop (f : Fpu) : f.pop.st = popped f.st := by
  funext j
  have hj : j + 1 = 0 ↔ j = 7 := by
    fin_cases j <;> decide
  rw [Fpu.pop, popped]
  refine (st_move _ 1 j).trans ?_
  rw [st_setSt]
  simp only [hj]

variable {m : Machine} {f : Fpu} {i : Fin 8}

theorem masked_of_all {n : BitVec 16} (h : AllMasked f) (hn : n &&& CW_EXM =
      0x3f &&& (n &&& CW_EXM)) :
    masked f n = true := by
  have hzero : ~~~f.controlWord &&& 0x3f = 0 := by
    rw [← show f.controlWord &&& 0x3f = 0x3f from h, ← BitVec.and_assoc,
      BitVec.and_comm (~~~f.controlWord)]
    simp
  rw [masked, decide_eq_true_eq, BitVec.and_assoc, hn, ← BitVec.and_assoc, hzero]
  simp

theorem bind_some {α β : Type} {x : Emu α} {g : α → Emu β} {a : α} {m' : Machine}
    (h : x m = some (a, m')) : (x >>= g) m = g a m' := by
  simp only [bind, StateT.bind, h, Option.bind_some]

/-- An exception of the arithmetic changes the status word only. -/
theorem deliver_eq {o : Outcome} (h : ∀ n, o.raised = some n → masked m.fpu n = true) :
    ∃ s, o.deliver m = some (o.reg, { m with fpu := { m.fpu with statusWord := s } }) := by
  obtain ⟨raised, r⟩ := o
  cases raised with
  | none => exact ⟨_, rfl⟩
  | some n =>
      refine ⟨_, (bind_some (congrArg (Option.map _) (if_pos ?_))).trans rfl⟩
      exact h n rfl

theorem emu_10_st_eq (h : (m.fpu.st i).tag ≠ .empty) (h7 : (m.fpu.st 7).tag = .empty) :
    emu_10_st i m =
      some ((), { m with fpu := { m.fpu.setSt 7 (m.fpu.st i) with top := m.fpu.top - 1 } }) :=
  (bind_some (full_passes h7)).trans ((bind_some (empty_passes h)).trans rfl)

theorem emu_11_st_eq (h : (m.fpu.st 0).tag ≠ .empty) (hi : (m.fpu.st i).tag ≠ .empty) :
    emu_11_st i m =
      some ((), { m with fpu := (m.fpu.setSt 0 (m.fpu.st i)).setSt i (m.fpu.st 0) }) := by
  refine (bind_some (empty_passes h)).trans ?_
  exact (bind_some (empty_passes hi)).trans rfl

theorem emu_50_st_eq (h7 : (m.fpu.st 7).tag = .empty) :
    emu_50_st i m =
      some ((), { m with fpu := m.fpu.setSt i { m.fpu.st i with tag := .empty } }) :=
  (bind_some (full_passes h7)).trans rfl

/-- With a full stack the handler of `ffree` moves the top. -/
theorem emu_50_st_full (h7 : (m.fpu.st 7).tag ≠ .empty) {m' : Machine}
    (h : emu_50_st i m = some ((), m')) : m'.fpu.top = m.fpu.top - 1 := by
  by_cases hm : masked m.fpu EX_SO = true
  · have hfull : full m = some (true, { m with
        fpu := Fpu.setSt { m.fpu with
          statusWord := m.fpu.statusWord ||| EX_SO, top := m.fpu.top - 1 } 0 CONST_NAN }) := by
      refine (congrFun (if_pos h7) m).trans ?_
      refine (bind_some (congrArg (Option.map _) (if_pos hm))).trans rfl
    rw [emu_50_st, bind_some hfull] at h
    cases h
    rfl
  · have hleaves : full m = none := full_leaves h7 (Bool.eq_false_iff.mpr hm)
    simp only [emu_50_st, bind, StateT.bind, hleaves, Option.bind_none, reduceCtorEq] at h

theorem arithPop_eq {op : Reg → Reg → Outcome} (h : (m.fpu.st 0).tag ≠ .empty)
    (hi : (m.fpu.st i).tag ≠ .empty)
    (hop : ∀ n, (op (m.fpu.st 0) (m.fpu.st i)).raised = some n → masked m.fpu n = true) :
    ∃ s, arithPop op i m = some ((), { m with
      fpu := (Fpu.setSt { m.fpu with statusWord := s } i (op (m.fpu.st 0)
        (m.fpu.st i)).reg).pop }) := by
  obtain ⟨s, hs⟩ := deliver_eq hop
  refine ⟨s, (bind_some (empty_passes h)).trans ?_⟩
  have hget : (get : Emu Machine) m = some (m, m) := rfl
  refine (bind_some (empty_passes hi)).trans ((bind_some hget).trans ?_)
  exact (bind_some hs).trans rfl

theorem rSub_raised {a b : Reg} {n : BitVec 16} (h : (rSub a b).raised = some n) : n = EX_I := by
  unfold rSub at h
  split_ifs at h <;> first | cases h; done | exact (Option.some.inj h).symm

theorem rAdd_raised {a b : Reg} {n : BitVec 16} (h : (rAdd a b).raised = some n) : n = EX_I := by
  unfold rAdd at h
  split_ifs at h <;> first | exact rSub_raised h | cases h; done | exact (Option.some.inj h).symm

theorem rMul_raised {a b : Reg} {n : BitVec 16} (h : (rMul a b).raised = some n) : n = EX_I := by
  unfold rMul Outcome.finish at h
  split_ifs at h <;> first | cases h; done | exact (Option.some.inj h).symm

theorem rDiv_raised {q a b : Reg} {n : BitVec 16} (h : (rDiv q a b).raised = some n) :
    n = EX_I ∨ n = EX_Z := by
  unfold rDiv Outcome.finish at h
  dsimp only at h
  split_ifs at h <;>
    first
    | cases h; done
    | exact .inl (Option.some.inj h).symm
    | exact .inr (Option.some.inj h).symm

/-- The handler of a form. -/
def StackForm.handler (t : Reg) : StackForm → Fin 8 → Emu Unit
  | .fld => emu_10_st
  | .fxch => emu_11_st
  | .ffree => emu_50_st
  | .fst => emu_52_st
  | .fstp => emu_53_st
  | .fincstp => fun _ => Emu387.fincstp
  | .fdecstp => fun _ => Emu387.fdecstp
  | .pop .fadd => emu_60_st
  | .pop .fmul => emu_61_st
  | .pop .fsubr => emu_64_st
  | .pop .fsub => emu_65_st
  | .pop .fdivr => emu_66_st t
  | .pop .fdiv => emu_67_st t

theorem escTable_register {ops : Operations} (h : m.modrm > 0xBF) {esc : Fin 64}
    (hesc : esc.val ∉ [11, 13, 15, 51, 53]) :
    (escTable ops).getD esc emuBad m = ops.registerForm esc m := by
  have hhandler : ∀ check esc, Emu387.handler ops check esc m = ops.registerForm esc m :=
    fun check esc => congrFun (if_pos h) m
  fin_cases esc <;> first | exact hhandler _ _ | exact absurd hesc (by decide)

structure IsRegisterForm (m : Machine) (b c : Byte) (esc : Fin 64) : Prop where
  code : m.code 2 = [b, c]
  opcode : b &&& 0xF8 = 0xD8
  operand : c > 0xBF
  number : ((b &&& 7) ||| (c &&& 0o70)).toNat = esc.val
  handled : esc.val ∉ [11, 13, 15, 51, 53]

theorem emuEntry_register {ops : Operations} {b c : Byte} {esc : Fin 64}
    (h : IsRegisterForm m b c esc) :
    emuEntry ops m = (ops.registerForm esc (atOperand m)).map Prod.snd ∧
    (atOperand m).modrm = c := by
  have hcode : m.code 2 = [m.mem m.eip, m.mem (m.eip + 1)] := by
    simp [Machine.code, List.range_succ]
  obtain ⟨hb, hc⟩ : m.mem m.eip = b ∧ m.mem (m.eip + 1) = c := by
    simpa using hcode.symm.trans h.code
  have hne : ∀ x : Byte, x &&& 0xF8 ≠ 0xD8 → b ≠ x := by
    rintro x hx rfl
    exact hx h.opcode
  have hskip : afterPrefix m = { m with used := none } :=
    if_neg (show ¬ m.mem m.eip = 0x66 by rw [hb]; exact hne _ (by decide))
  have hmodrm : (atOperand m).modrm = c := by
    rw [atOperand, hskip]
    exact hc
  have hesc : escNumber m = esc := by
    apply Fin.ext
    simp only [escNumber, hmodrm, hskip, hb]
    exact h.number
  refine ⟨?_, hmodrm⟩
  rw [emuEntry, hesc, if_neg (show ¬ _ = _ by rw [hskip]; exact hb ▸ hne _ (by decide))]
  rw [escTable_register (by rw [hmodrm]; exact h.operand) h.handled]

def StackForm.esc : StackForm → Fin 64
  | .fld => 1
  | .fxch => 9
  | .ffree => 5
  | .fst => 21
  | .fstp => 29
  | .fincstp | .fdecstp => 49
  | .pop .fadd => 6
  | .pop .fmul => 14
  | .pop .fsubr => 38
  | .pop .fsub => 46
  | .pop .fdivr => 54
  | .pop .fdiv => 62

def StackForm.rm (form : StackForm) (i : Fin 8) : Fin 8 :=
  match form with
  | .fincstp => 7
  | .fdecstp => 6
  | _ => i

theorem StackForm.code_facts (form : StackForm) (i : Fin 8) :
    ∃ b c, form.code i = [b, c] ∧ b &&& 0xF8 = 0xD8 ∧ c > 0xBF ∧
      ((b &&& 7) ||| (c &&& 0o70)).toNat = form.esc.val ∧
      form.esc.val ∉ [11, 13, 15, 51, 53] ∧ rmOf c = form.rm i := by
  cases form with
  | pop op => cases op <;> refine ⟨_, _, rfl, ?_⟩ <;> revert i <;> decide
  | _ =>
      refine ⟨_, _, rfl, ?_⟩
      revert i
      decide

/-- The register forms of the emulator, by their numbers. -/
theorem registerForm_stackForm {t : Reg} {rest : Operations} {form : StackForm}
    (h : rmOf m.modrm = form.rm i) :
    (stackOperations t rest).registerForm form.esc m = form.handler t i m := by
  have hget : (get : Emu Machine) m = some (m, m) := rfl
  refine (bind_some hget).trans ?_
  rw [h]
  cases form with
  | pop op => cases op <;> rfl
  | _ => rfl

theorem emuEntry_stackForm {t : Reg} {rest : Operations} {form : StackForm}
    (h : m.code 2 = form.code i) :
    emuEntry (stackOperations t rest) m = (form.handler t i (atOperand m)).map Prod.snd := by
  obtain ⟨b, c, hcode, hb, hc, hnumber, hesc, hrm⟩ := form.code_facts i
  have hform : IsRegisterForm m b c form.esc := ⟨h.trans hcode, hb, hc, hnumber, hesc⟩
  obtain ⟨hentry, hmodrm⟩ := @emuEntry_register m (stackOperations t rest) b c form.esc hform
  rw [hentry, registerForm_stackForm (by rw [hmodrm, hrm])]

theorem arithPop_prescribed {t : Reg} {op : PopArith} {g : Reg → Reg → Outcome}
    (hm : AllMasked m.fpu) (h : (m.fpu.st 0).tag ≠ .empty) (hi : (m.fpu.st i).tag ≠ .empty)
    (hresult : ∀ st sti, (g st sti).reg = op.result t sti st)
    (hraised : ∀ st sti n, (g st sti).raised = some n → n = EX_I ∨ n = EX_Z) :
    ∃ f', arithPop g i m = some ((), { m with fpu := f' }) ∧
      (StackForm.pop op).Prescribed t i m.fpu f' := by
  obtain ⟨s, hs⟩ := arithPop_eq h hi fun n hn => by
    obtain rfl | rfl := hraised _ _ n hn
    · exact masked_of_all hm (by decide)
    · exact masked_of_all hm (by decide)
  refine ⟨_, hs, rfl, rfl, ?_⟩
  rw [st_pop, setSt_st, hresult]
  rfl

/-- Where `ffree` finds room on the stack, every form does what the coprocessor does. -/
theorem handler_prescribed {t : Reg} {form : StackForm} (hm : AllMasked m.fpu)
    (hop : form.OperandsThere i m.fpu.st)
    (hfree : form = .ffree → (m.fpu.st 7).tag = .empty) :
    ∃ f', form.handler t i m = some ((), { m with fpu := f' }) ∧ form.Prescribed t i m.fpu f' := by
  have invalid : ∀ {n}, n = EX_I → n = EX_I ∨ n = EX_Z := .inl
  cases form with
  | fld =>
      refine ⟨_, emu_10_st_eq hop.1 hop.2, rfl, sub_eq_add_neg _ _, ?_⟩
      funext j
      have hj : j - 1 = 7 ↔ j = 0 := by
        revert j
        decide
      refine (st_back (m.fpu.setSt 7 (m.fpu.st i)) j).trans ?_
      rw [st_setSt]
      simp only [hj, StackForm.after]
  | fxch =>
      refine ⟨_, emu_11_st_eq hop.1 hop.2, rfl, (Fin.add_zero _).symm, ?_⟩
      rw [setSt_st, setSt_st]
      funext j
      simp only [StackForm.after, Function.comp_apply, Function.update_apply, Equiv.swap_apply_def]
      split_ifs <;> simp_all
  | ffree =>
      refine ⟨_, emu_50_st_eq (hfree rfl), rfl, (Fin.add_zero _).symm, ?_⟩
      rw [setSt_st]
      rfl
  | fst =>
      exact ⟨m.fpu.setSt i (m.fpu.st 0), rfl, rfl, (Fin.add_zero _).symm, setSt_st _ _ _⟩
  | fstp =>
      refine ⟨(m.fpu.setSt i (m.fpu.st 0)).pop, rfl, rfl, rfl, ?_⟩
      rw [st_pop, setSt_st]
      rfl
  | fincstp =>
      refine ⟨{ m.fpu with statusWord := m.fpu.statusWord &&& ~~~SW_C1, top := m.fpu.top + 1 },
        rfl, rfl, rfl, ?_⟩
      exact funext fun j => st_move m.fpu 1 j
  | fdecstp =>
      refine ⟨{ m.fpu with statusWord := m.fpu.statusWord &&& ~~~SW_C1, top := m.fpu.top - 1 },
        rfl, rfl, sub_eq_add_neg _ _, ?_⟩
      exact funext fun j => st_back m.fpu j
  | pop op =>
      obtain ⟨h, hi⟩ := hop
      have hpop : ∀ (g : Reg → Reg → Outcome), (∀ st sti, (g st sti).reg = op.result t sti st) →
          (∀ st sti n, (g st sti).raised = some n → n = EX_I ∨ n = EX_Z) →
          (StackForm.pop op).handler t i = arithPop g i →
          ∃ f', (StackForm.pop op).handler t i m = some ((), { m with fpu := f' }) ∧
            (StackForm.pop op).Prescribed t i m.fpu f' := by
        intro g hresult hraised hg
        rw [hg]
        exact arithPop_prescribed hm h hi hresult hraised
      cases op with
      | fadd => exact hpop rAdd (fun _ _ => rfl) (fun _ _ n hn => invalid (rAdd_raised hn)) rfl
      | fmul =>
          exact hpop (fun st sti => rMul sti st) (fun _ _ => rfl)
            (fun _ _ n hn => invalid (rMul_raised hn)) rfl
      | fsub =>
          exact hpop (fun st sti => rSub sti st) (fun _ _ => rfl)
            (fun _ _ n hn => invalid (rSub_raised hn)) rfl
      | fsubr => exact hpop rSub (fun _ _ => rfl) (fun _ _ n hn => invalid (rSub_raised hn)) rfl
      | fdiv =>
          exact hpop (fun st sti => rDiv t sti st) (fun _ _ => rfl)
            (fun _ _ n hn => rDiv_raised hn) rfl
      | fdivr => exact hpop (rDiv t) (fun _ _ => rfl) (fun _ _ n hn => rDiv_raised hn) rfl

/-- The emulator runs the instruction, and does what the coprocessor does. -/
def StackForm.Done (t : Reg) (rest : Operations) (form : StackForm) (i : Fin 8) (m : Machine) :
    Prop :=
  ∃ m', emuEntry (stackOperations t rest) m = some m' ∧ form.Prescribed t i m.fpu m'.fpu

theorem ffree_full_not_done {t : Reg} {rest : Operations} (hcode : m.code 2 =
      StackForm.ffree.code i)
    (hfull : (m.fpu.st 7).tag ≠ .empty) : ¬ StackForm.ffree.Done t rest i m := by
  rw [StackForm.Done, emuEntry_stackForm hcode]
  rintro ⟨m', hm', hdone⟩
  obtain ⟨⟨⟨⟩, m''⟩, hrun, rfl⟩ := Option.map_eq_some_iff.mp hm'
  have htop := emu_50_st_full (by rwa [fpu_atOperand]) hrun
  rw [hdone.top, fpu_atOperand] at htop
  revert htop
  generalize m.fpu.top = top
  revert top
  decide

/-- The stack instructions do what the coprocessor does, except `ffree` when the last
register is in use. -/
theorem stackForm_done_iff (t : Reg) (rest : Operations) (form : StackForm) (i : Fin 8)
    (m : Machine)
    (hcode : m.code 2 = form.code i) (hm : AllMasked m.fpu) (hop : form.OperandsThere i m.fpu.st) :
    form.Done t rest i m ↔ (form = .ffree → (m.fpu.st 7).tag = .empty) := by
  constructor
  · rintro hdone rfl
    by_contra hfull
    exact ffree_full_not_done hcode hfull hdone
  · intro hfree
    rw [← fpu_atOperand m] at hm hop hfree
    obtain ⟨f', hf', hdone⟩ := @handler_prescribed (atOperand m) i t form hm hop hfree
    rw [fpu_atOperand] at hdone
    exact ⟨_, by rw [emuEntry_stackForm hcode, hf']; rfl, hdone⟩

/-- Two bytes of code at the start of memory, with eight ones on the stack, or seven. -/
def onesMachine (code : List Byte) (tag : Tag) : Machine :=
  { eax := 0, ebx := 0, ecx := 0, edx := 0, esi := 0, edi := 0, ebp := 0, esp := 0, eip := 0
    modrm := 0
    mem := fun a => code.getD a.toNat 0
    fpu :=
      { controlWord := 0x37f, statusWord := 0, top := 0
        regs := fun k => if k = 7 then { CONST_1 with tag := tag } else CONST_1 }
    used := none }

theorem stackForm_done_ffree :
    StackForm.ffree.Done CONST_Z keepAll 1 (onesMachine [0xDD, 0xC1] .empty) :=
  (stackForm_done_iff CONST_Z keepAll .ffree 1 (onesMachine [0xDD, 0xC1] .empty) (by decide)
    (by unfold AllMasked; decide) (show Tag.valid ≠ Tag.empty by decide)).mpr fun _ => rfl

/-- `ffree st(1)` on a full stack. -/
theorem ffree_not_done_full :
    let m := onesMachine [0xDD, 0xC1] .valid
    m.code 2 = StackForm.ffree.code 1 ∧ AllMasked m.fpu ∧ StackForm.ffree.OperandsThere 1 m.fpu.st ∧
      ¬ StackForm.ffree.Done CONST_Z keepAll 1 m :=
  ⟨by decide, by unfold AllMasked; decide, show Tag.valid ≠ Tag.empty by decide,
    ffree_full_not_done (by decide) (show Tag.valid ≠ Tag.empty by decide)⟩

end DjgppLibc.Emu387
