import DjgppLibc.Emu387

/-!
# The entry of the 387 emulator

`_emu_entry` takes the registers of the processor, reads the opcode and the ModRM byte,
and calls one of 64 handlers. Most handlers check the stack of the coprocessor before
they ask for the address of their operand. Where the check fails and the exception is
masked, the handler returns at once, and the processor goes on with the bytes that are
left of the instruction.
-/
namespace DjgppLibc.Emu387

open X86

/-- The work of the handlers that has to do with neither addresses nor checks of the
stack: what is done with an operand in memory, and the instructions without one. -/
structure Operations where
  use : Fin 64 → BitVec 32 → Fpu → (BitVec 32 → Byte) → Option (Fpu × (BitVec 32 → Byte))
  registerForm : Fin 64 → Emu Unit

def raise (n : BitVec 16) : Emu Unit := fun m =>
  (exception n m.fpu).map fun f => ((), { m with fpu := f })

def emuBad : Emu Unit := raise EX_I

def full : Emu Bool := do
  if ((← get).fpu.st 7).tag ≠ .empty then
    raise EX_SO
    modify fun m => { m with fpu := { m.fpu with top := m.fpu.top - 1 } }
    modify fun m => { m with fpu := m.fpu.setSt 0 CONST_NAN }
    return true
  else return false

def empty (i : Fin 8) : Emu Bool := do
  if ((← get).fpu.st i).tag = .empty then
    raise EX_SU
    return true
  else return false

variable (ops : Operations)

def useOperand (esc : Fin 64) : Emu Unit := do
  let addr ← operand
  fun m => (ops.use esc addr m.fpu m.mem).map fun r => ((), { m with fpu := r.1, mem := r.2 })

inductive Check
  | none
  | empty
  | full
  /-- The exception is raised, but the handler goes on. -/
  | emptyGoesOn
  | bad
  | emptyBad

def memoryForm (check : Check) (esc : Fin 64) : Emu Unit :=
  match check with
  | .none => useOperand ops esc
  | .empty => do
      if ← empty 0 then return
      useOperand ops esc
  | .full => do
      if ← full then return
      useOperand ops esc
  | .emptyGoesOn => do
      if ((← get).fpu.st 0).tag = .empty then raise EX_SU
      useOperand ops esc
  | .bad => emuBad
  | .emptyBad => do
      if ← empty 0 then return
      emuBad

def handler (check : Check) (esc : Fin 64) : Emu Unit := do
  if (← get).modrm > 0xBF then ops.registerForm esc else memoryForm ops check esc

def emu_00 : Emu Unit := handler ops .empty 0
def emu_01 : Emu Unit := handler ops .empty 8
def emu_02 : Emu Unit := handler ops .empty 16
def emu_03 : Emu Unit := handler ops .empty 24
def emu_04 : Emu Unit := handler ops .empty 32
def emu_05 : Emu Unit := handler ops .empty 40
def emu_06 : Emu Unit := handler ops .empty 48
def emu_07 : Emu Unit := handler ops .empty 56
def emu_10 : Emu Unit := handler ops .full 1
def emu_11 : Emu Unit := handler ops .bad 9
def emu_12 : Emu Unit := handler ops .empty 17
def emu_13 : Emu Unit := handler ops .empty 25
def emu_14 : Emu Unit := handler ops .bad 33
def emu_15 : Emu Unit := handler ops .none 41
def emu_16 : Emu Unit := handler ops .bad 49
def emu_17 : Emu Unit := handler ops .none 57
def emu_20 : Emu Unit := handler ops .empty 2
def emu_21 : Emu Unit := handler ops .empty 10
def emu_22 : Emu Unit := handler ops .empty 18
def emu_23 : Emu Unit := handler ops .empty 26
def emu_24 : Emu Unit := handler ops .empty 34
def emu_25 : Emu Unit := handler ops .empty 42
def emu_26 : Emu Unit := handler ops .empty 50
def emu_27 : Emu Unit := handler ops .empty 58
def emu_30 : Emu Unit := handler ops .full 3
def emu_31 : Emu Unit := emuBad
def emu_32 : Emu Unit := handler ops .empty 19
def emu_33 : Emu Unit := handler ops .empty 27
def emu_34 : Emu Unit := handler ops .bad 35
def emu_35 : Emu Unit := handler ops .full 43
def emu_36 : Emu Unit := emuBad
def emu_37 : Emu Unit := handler ops .empty 59
def emu_40 : Emu Unit := handler ops .empty 4
def emu_41 : Emu Unit := handler ops .empty 12
def emu_42 : Emu Unit := handler ops .empty 20
def emu_43 : Emu Unit := handler ops .empty 28
def emu_44 : Emu Unit := handler ops .empty 36
def emu_45 : Emu Unit := handler ops .empty 44
def emu_46 : Emu Unit := handler ops .empty 52
def emu_47 : Emu Unit := handler ops .empty 60
def emu_50 : Emu Unit := handler ops .full 5
def emu_51 : Emu Unit := emuBad
def emu_52 : Emu Unit := handler ops .empty 21
def emu_53 : Emu Unit := handler ops .empty 29
def emu_54 : Emu Unit := handler ops .none 37
def emu_55 : Emu Unit := handler ops .emptyBad 45
def emu_56 : Emu Unit := useOperand ops 53
def emu_57 : Emu Unit := handler ops .none 61
def emu_60 : Emu Unit := handler ops .empty 6
def emu_61 : Emu Unit := handler ops .empty 14
def emu_62 : Emu Unit := handler ops .empty 22
def emu_63 : Emu Unit := handler ops .empty 30
def emu_64 : Emu Unit := handler ops .empty 38
def emu_65 : Emu Unit := handler ops .empty 46
def emu_66 : Emu Unit := handler ops .empty 54
def emu_67 : Emu Unit := handler ops .empty 62
def emu_70 : Emu Unit := handler ops .full 7
def emu_71 : Emu Unit := emuBad
def emu_72 : Emu Unit := handler ops .empty 23
def emu_73 : Emu Unit := handler ops .empty 31
def emu_74 : Emu Unit := handler ops .full 39
def emu_75 : Emu Unit := handler ops .full 47
def emu_76 : Emu Unit := handler ops .emptyGoesOn 55
def emu_77 : Emu Unit := handler ops .empty 63

def escTable : List (Emu Unit) := [
  emu_00 ops, emu_10 ops, emu_20 ops, emu_30 ops, emu_40 ops, emu_50 ops, emu_60 ops, emu_70 ops,
  emu_01 ops, emu_11 ops, emu_21 ops, emu_31, emu_41 ops, emu_51, emu_61 ops, emu_71,
  emu_02 ops, emu_12 ops, emu_22 ops, emu_32 ops, emu_42 ops, emu_52 ops, emu_62 ops, emu_72 ops,
  emu_03 ops, emu_13 ops, emu_23 ops, emu_33 ops, emu_43 ops, emu_53 ops, emu_63 ops, emu_73 ops,
  emu_04 ops, emu_14 ops, emu_24 ops, emu_34 ops, emu_44 ops, emu_54 ops, emu_64 ops, emu_74 ops,
  emu_05 ops, emu_15 ops, emu_25 ops, emu_35 ops, emu_45 ops, emu_55 ops, emu_65 ops, emu_75 ops,
  emu_06 ops, emu_16 ops, emu_26 ops, emu_36, emu_46 ops, emu_56 ops, emu_66 ops, emu_76 ops,
  emu_07 ops, emu_17 ops, emu_27 ops, emu_37 ops, emu_47 ops, emu_57 ops, emu_67 ops, emu_77 ops]

/-- The operand size does not matter: the handlers know what size they need. -/
def afterPrefix (m : Machine) : Machine :=
  let m := { m with used := none }
  if m.mem m.eip = 0x66 then m.skip 1 else m

def atOperand (m : Machine) : Machine :=
  let m := afterPrefix m
  { m.skip 2 with modrm := m.mem (m.eip + 1) }

theorem escNumber_lt (b modrm : Byte) : ((b &&& 7) ||| (modrm &&& 0o70)).toNat < 64 := by
  rw [BitVec.toNat_or, BitVec.toNat_and, BitVec.toNat_and]
  have h₁ : b.toNat &&& (7 : Byte).toNat < 2 ^ 6 := Nat.lt_of_le_of_lt Nat.and_le_right (by decide)
  have h₂ : modrm.toNat &&& (0o70 : Byte).toNat < 2 ^ 6 := Nat.lt_of_le_of_lt Nat.and_le_right
    (by decide)
  exact Nat.or_lt_two_pow h₁ h₂

/-- `esc_value` -/
def escNumber (m : Machine) : Fin 64 :=
  ⟨(((afterPrefix m).mem (afterPrefix m).eip &&& 7) ||| ((atOperand m).modrm &&& 0o70)).toNat,
    escNumber_lt _ _⟩

/-- `_emu_entry`; `none` is a return value of 1. -/
def emuEntry (m : Machine) : Option Machine :=
  if (afterPrefix m).mem (afterPrefix m).eip = 0x9b then some ((afterPrefix m).skip 1)
  else (((escTable ops).getD (escNumber m) emuBad) (atOperand m)).map Prod.snd

/-- The check of each handler, by the numbers of its opcode and of its ModRM byte. -/
def checkOf (esc : Fin 64) : Check :=
  match esc.val % 8, esc.val / 8 with
  | 1, 0 | 3, 0 | 5, 0 | 7, 0 | 3, 5 | 7, 4 | 7, 5 => .full
  | 1, 1 | 3, 1 | 5, 1 | 7, 1 | 1, 4 | 1, 6 | 3, 4 | 3, 6 => .bad
  | 1, 5 | 1, 7 | 5, 4 | 5, 6 | 5, 7 => .none
  | 5, 5 => .emptyBad
  | 7, 6 => .emptyGoesOn
  | _, _ => .empty

def StopsEarly (check : Check) (f : Fpu) : Prop :=
  match check with
  | .none | .emptyGoesOn => False
  | .empty => (f.st 0).tag = .empty ∧ masked f EX_SU
  | .full => (f.st 7).tag ≠ .empty ∧ masked f EX_SO
  | .bad => masked f EX_I
  | .emptyBad => masked f (if (f.st 0).tag = .empty then EX_SU else EX_I)

variable {ops} {m : Machine}

theorem escTable_memory (h : modOf m.modrm ≠ 3) (esc : Fin 64) :
    (escTable ops).getD esc emuBad m = memoryForm ops (checkOf esc) esc m := by
  have hmod : ¬ m.modrm > 0xBF := by
    intro hgt
    have hgt : 191 < m.modrm.toNat := hgt
    unfold modOf at h
    omega
  have hhandler : ∀ check esc, handler ops check esc m = memoryForm ops check esc m :=
    fun check esc => congrFun (if_neg hmod) m
  fin_cases esc <;> first | exact hhandler _ _ | rfl

theorem raise_masked {n : BitVec 16} (h : masked m.fpu n = true) :
    ∃ f, raise n m = some ((), { m with fpu := f }) :=
  ⟨_, congrArg (Option.map _) (if_pos h)⟩

theorem raise_unmasked {n : BitVec 16} (h : masked m.fpu n = false) : raise n m = none :=
  congrArg (Option.map _) (if_neg (show ¬ masked m.fpu n = true by simp [h]))

/-- The handler has asked for the operand: the bytes are taken and the address is `a`. -/
def AsksFor (m : Machine) (a : Address 32) (k : ℕ) (res : Option (Unit × Machine)) : Prop :=
  ∀ m', res = some ((), m') → m'.eip = (m.skip k).eip ∧ m'.used = some (a.eval m.reg)

theorem useOperand_eq (ops : Operations) (esc : Fin 64) {addr : BitVec 32} {m' : Machine}
    (h : getModrm m = some (addr, m')) : useOperand ops esc m =
      (ops.use esc addr m'.fpu m'.mem).map fun r =>
        ((), { m' with used := some addr, fpu := r.1, mem := r.2 }) := by
  simp only [useOperand, operand, bind, StateT.bind, h, Option.bind_some, modify, modifyGet,
    MonadStateOf.modifyGet, StateT.modifyGet, pure_apply, Option.pure_def]

theorem useOperand_asks (esc : Fin 64) {a : Address 32} {k : ℕ}
    (h : getModrm m = some (a.eval m.reg, m.skip k)) : AsksFor m a k (useOperand ops esc m) := by
  intro m' hm'
  rw [useOperand_eq ops esc h] at hm'
  obtain ⟨r, -, hr⟩ := Option.map_eq_some_iff.mp hm'
  cases hr
  exact ⟨rfl, rfl⟩

/-- The address and the bytes of the operand do not depend on the coprocessor. -/
theorem getModrm_fpu (h : modOf m.modrm ≠ 3) :
    ∃ a k, k ≤ 5 ∧ decode32 m.modrm (m.code 5) = some (a, (m.skip k).code (5 - k)) ∧
      ∀ f, getModrm { m with fpu := f } = some (a.eval m.reg, { m with fpu := f }.skip k) := by
  obtain ⟨a, k, hk, hdec, -⟩ := getModrm_takes h
  refine ⟨a, k, hk, hdec, fun f => ?_⟩
  obtain ⟨a', k', hk', hdec', hget⟩ := getModrm_takes (m := { m with fpu := f }) h
  obtain ⟨ha, hcode⟩ := Prod.mk.inj (Option.some.inj (hdec.symm.trans hdec'))
  have hlen := congrArg List.length hcode
  rw [length_code, length_code] at hlen
  have hkk : k' = k := by omega
  rw [hget, ha, hkk]
  rfl

theorem empty_stops {i : Fin 8} (h : (m.fpu.st i).tag = .empty) (hm : masked m.fpu EX_SU = true) :
    ∃ f, empty i m = some (true, { m with fpu := f }) := by
  obtain ⟨f, hf⟩ := raise_masked hm
  refine ⟨f, ?_⟩
  refine (congrFun (if_pos h) m).trans ?_
  simp only [bind, StateT.bind, hf, Option.bind_some, pure_apply]

theorem empty_leaves {i : Fin 8} (h : (m.fpu.st i).tag = .empty) (hm : masked m.fpu EX_SU = false) :
    empty i m = none := by
  refine (congrFun (if_pos h) m).trans ?_
  simp only [bind, StateT.bind, raise_unmasked hm, Option.bind_none]

theorem empty_passes {i : Fin 8} (h : (m.fpu.st i).tag ≠ .empty) : empty i m = some (false, m) :=
  congrFun (if_neg h) m

theorem full_stops (h : (m.fpu.st 7).tag ≠ .empty) (hm : masked m.fpu EX_SO = true) :
    ∃ f, full m = some (true, { m with fpu := f }) := by
  obtain ⟨f, hf⟩ := raise_masked hm
  refine ⟨({ f with top := f.top - 1 } : Fpu).setSt 0 CONST_NAN, (congrFun (if_pos h) m).trans ?_⟩
  simp only [bind, StateT.bind, hf, Option.bind_some, pure_apply, modify, modifyGet,
    MonadStateOf.modifyGet, StateT.modifyGet, Option.pure_def]

theorem full_leaves (h : (m.fpu.st 7).tag ≠ .empty) (hm : masked m.fpu EX_SO = false) :
    full m = none := by
  refine (congrFun (if_pos h) m).trans ?_
  simp only [bind, StateT.bind, raise_unmasked hm, Option.bind_none]

theorem full_passes (h : (m.fpu.st 7).tag = .empty) : full m = some (false, m) :=
  congrFun (if_neg (not_not.mpr h)) m

variable {check : Check} {esc : Fin 64}

theorem memoryForm_stops (ops : Operations) (esc : Fin 64) (h : StopsEarly check m.fpu) :
    ∃ f, memoryForm ops check esc m = some ((), { m with fpu := f }) := by
  cases check with
  | none => cases h
  | emptyGoesOn => cases h
  | empty =>
      obtain ⟨f, hf⟩ := empty_stops h.1 h.2
      exact ⟨f, by simp only [memoryForm, bind, StateT.bind, hf, Option.bind_some]; rfl⟩
  | full =>
      obtain ⟨f, hf⟩ := full_stops h.1 h.2
      exact ⟨f, by simp only [memoryForm, bind, StateT.bind, hf, Option.bind_some]; rfl⟩
  | bad => exact raise_masked h
  | emptyBad =>
      unfold StopsEarly at h
      split_ifs at h with htag
      · obtain ⟨f, hf⟩ := empty_stops htag h
        exact ⟨f, by simp only [memoryForm, bind, StateT.bind, hf, Option.bind_some]; rfl⟩
      · obtain ⟨f, hf⟩ := raise_masked h
        refine ⟨f, ?_⟩
        simp only [memoryForm, bind, StateT.bind, empty_passes htag, Option.bind_some]
        exact hf

theorem memoryForm_asks {a : Address 32} {k : ℕ} (h : ¬ StopsEarly check m.fpu)
    (hget : ∀ f, getModrm { m with fpu := f } = some (a.eval m.reg, { m with fpu := f }.skip k)) :
    AsksFor m a k (memoryForm ops check esc m) := by
  have huse : AsksFor m a k (useOperand ops esc m) := useOperand_asks esc (hget m.fpu)
  have hnone : AsksFor m a k none := fun m' hm' => by cases hm'
  cases check with
  | none => exact huse
  | empty =>
      by_cases htag : (m.fpu.st 0).tag = .empty
      · have hm : masked m.fpu EX_SU = false := Bool.eq_false_iff.mpr fun hm => h ⟨htag, hm⟩
        simp only [memoryForm, bind, StateT.bind, empty_leaves htag hm, Option.bind_none]
        exact hnone
      · simp only [memoryForm, bind, StateT.bind, empty_passes htag, Option.bind_some]
        exact huse
  | full =>
      by_cases htag : (m.fpu.st 7).tag = .empty
      · simp only [memoryForm, bind, StateT.bind, full_passes htag, Option.bind_some]
        exact huse
      · have hm : masked m.fpu EX_SO = false := Bool.eq_false_iff.mpr fun hm => h ⟨htag, hm⟩
        simp only [memoryForm, bind, StateT.bind, full_leaves htag hm, Option.bind_none]
        exact hnone
  | emptyGoesOn =>
      have hform : memoryForm ops .emptyGoesOn esc m =
          (if (m.fpu.st 0).tag = .empty then raise EX_SU m else some ((), m)).bind fun r =>
            useOperand ops esc r.2 := by
        by_cases htag : (m.fpu.st 0).tag = .empty
        · simp only [memoryForm, bind, StateT.bind, get, getThe, MonadStateOf.get, StateT.get,
            Option.bind_some, if_pos htag, pure]
        · simp only [memoryForm, bind, StateT.bind, get, getThe, MonadStateOf.get, StateT.get,
            Option.bind_some, if_neg htag, pure]
      rw [hform]
      split_ifs with htag
      · cases hm : masked m.fpu EX_SU with
        | true =>
            obtain ⟨f, hf⟩ := raise_masked hm
            rw [hf]
            exact useOperand_asks esc (hget f)
        | false =>
            rw [raise_unmasked hm]
            exact hnone
      · exact huse
  | bad =>
      have hm : masked m.fpu EX_I = false := Bool.eq_false_iff.mpr h
      rw [memoryForm, emuBad, raise_unmasked hm]
      exact hnone
  | emptyBad =>
      unfold StopsEarly at h
      by_cases htag : (m.fpu.st 0).tag = .empty
      · rw [if_pos htag] at h
        simp only [memoryForm, bind, StateT.bind, empty_leaves htag (Bool.eq_false_iff.mpr h),
          Option.bind_none]
        exact hnone
      · rw [if_neg htag] at h
        simp only [memoryForm, bind, StateT.bind, empty_passes htag, Option.bind_some]
        have hbad : emuBad m = none := raise_unmasked (Bool.eq_false_iff.mpr h)
        exact fun m' hm' => absurd (hbad.symm.trans hm') (by simp)

/-- An instruction for the coprocessor with an operand in memory is next. -/
structure IsEscape (m : Machine) : Prop where
  opcode : (afterPrefix m).mem (afterPrefix m).eip &&& 0xF8 = 0xD8
  operand : modOf (atOperand m).modrm ≠ 3

/-- The instruction stream goes on behind the instruction, and the address that has been
used is the one of the operand. -/
def Meets (ops : Operations) (m : Machine) : Prop :=
  ∀ m', emuEntry ops m = some m' → ∃ a rest,
    decode32 (atOperand m).modrm ((atOperand m).code 5) = some (a, rest) ∧
    (∀ addr, m'.used = some addr → addr = a.eval m.reg) ∧
    m'.eip = (atOperand m).eip + BitVec.ofNat 32 (5 - rest.length)

def HasBytes (m : Machine) : Prop :=
  ∃ a rest, decode32 (atOperand m).modrm ((atOperand m).code 5) = some (a, rest) ∧ rest.length < 5

theorem reg_atOperand (m : Machine) : (atOperand m).reg = m.reg := by
  unfold atOperand afterPrefix
  dsimp only
  split_ifs <;> rfl

theorem fpu_atOperand (m : Machine) : (atOperand m).fpu = m.fpu := by
  unfold atOperand afterPrefix
  dsimp only
  split_ifs <;> rfl

theorem used_atOperand (m : Machine) : (atOperand m).used = none := by
  unfold atOperand afterPrefix
  dsimp only
  split_ifs <;> rfl

theorem emuEntry_eq (h : IsEscape m) :
    emuEntry ops m =
      (memoryForm ops (checkOf (escNumber m)) (escNumber m) (atOperand m)).map Prod.snd := by
  have hne : (afterPrefix m).mem (afterPrefix m).eip ≠ 0x9b := by
    intro he
    have := h.opcode
    rw [he] at this
    exact absurd this (by decide)
  rw [emuEntry, if_neg hne, escTable_memory h.operand]

theorem emuEntry_of_stops (ops : Operations) (h : IsEscape m)
    (hs : StopsEarly (checkOf (escNumber m)) m.fpu) :
    ∃ m', emuEntry ops m = some m' ∧ m'.eip = (atOperand m).eip ∧ m'.used = none := by
  rw [← fpu_atOperand] at hs
  obtain ⟨f, hf⟩ := memoryForm_stops ops (escNumber m) hs
  rw [emuEntry_eq h, hf]
  exact ⟨_, rfl, rfl, used_atOperand m⟩

/-- The emulator does what the processor does, unless a handler stops before it has
taken the bytes of its operand. -/
theorem emuEntry_meets_iff (ops : Operations) (m : Machine) (h : IsEscape m) :
    Meets ops m ↔ ¬ (StopsEarly (checkOf (escNumber m)) m.fpu ∧ HasBytes m) := by
  obtain ⟨a, k, hk, hdec, hget⟩ := getModrm_fpu h.operand
  have hrest : 5 - ((atOperand m).skip k |>.code (5 - k)).length = k := by
    rw [length_code]
    omega
  by_cases hs : StopsEarly (checkOf (escNumber m)) m.fpu
  · obtain ⟨m', hm', heip, hused⟩ := emuEntry_of_stops ops h hs
    have hbytes : HasBytes m ↔ k ≠ 0 := by
      constructor
      · rintro ⟨a', rest, hdec', hlen⟩ rfl
        rw [← (Prod.mk.inj (Option.some.inj (hdec.symm.trans hdec'))).2, length_code] at hlen
        omega
      · intro hne
        refine ⟨a, _, hdec, ?_⟩
        rw [length_code]
        omega
    rw [hbytes]
    constructor
    · intro hmeets hstop
      obtain ⟨a', rest, hdec', -, heip'⟩ := hmeets m' hm'
      rw [← (Prod.mk.inj (Option.some.inj (hdec.symm.trans hdec'))).2, hrest, heip] at heip'
      have hzero := congrArg BitVec.toNat (BitVec.self_eq_add_right.mp heip')
      rw [BitVec.toNat_ofNat, Nat.mod_eq_of_lt (by omega)] at hzero
      exact hstop.2 hzero
    · intro hnot m'' hm''
      have hk0 : k = 0 := by_contra fun hne => hnot ⟨hs, hne⟩
      cases hm'.symm.trans hm''
      refine ⟨a, _, hdec, fun addr haddr => ?_, ?_⟩
      · rw [hused] at haddr
        cases haddr
      · rw [hrest, hk0, heip]
        exact (BitVec.add_zero _).symm
  · refine iff_of_true (fun m' hm' => ?_) fun hstop => hs hstop.1
    rw [← fpu_atOperand] at hs
    rw [emuEntry_eq h] at hm'
    obtain ⟨r, hr, rfl⟩ := Option.map_eq_some_iff.mp hm'
    obtain ⟨heip, hused⟩ := memoryForm_asks hs hget r.2 hr
    refine ⟨a, _, hdec, fun addr haddr => ?_, ?_⟩
    · rw [hused, reg_atOperand] at haddr
      exact (Option.some.inj haddr).symm
    · rw [hrest]
      exact heip

/-- Code for `fadd` with a 32-bit address, at the start of memory, with the stack empty
and all exceptions masked. -/
def faddMachine (tag : Tag) : Machine :=
  { eax := 0, ebx := 0, ecx := 0, edx := 0, esi := 0, edi := 0, ebp := 0, esp := 0, eip := 0,
    modrm := 0
    mem := fun addr => ([0xD8, 0x05, 0x78, 0x56, 0x34, 0x12] : List Byte).getD addr.toNat 0
    fpu := ⟨0x37f, 0, 0, fun _ => ⟨false, tag, 0, 0, 0⟩⟩
    used := none }

def keepAll : Operations := ⟨fun _ _ f mem => some (f, mem), fun _ => pure ()⟩

theorem faddMachine_isEscape (tag : Tag) : IsEscape (faddMachine tag) := by
  cases tag <;> exact ⟨by decide, by decide⟩

theorem emuEntry_fadd : ∃ m', emuEntry keepAll (faddMachine .valid) = some m' ∧ m'.eip = 6 := by
  have hmeets := (emuEntry_meets_iff keepAll (faddMachine .valid) (faddMachine_isEscape .valid)).mpr
    fun h => absurd h.1.1 (by decide)
  obtain ⟨a, rest, hdec, -, heip⟩ := hmeets _ rfl
  refine ⟨_, rfl, heip.trans ?_⟩
  cases hdec
  rfl

theorem emuEntry_fadd_empty : IsEscape (faddMachine .empty) ∧
    ¬ Meets keepAll (faddMachine .empty) := by
  refine ⟨faddMachine_isEscape .empty, fun h => ?_⟩
  obtain ⟨a, rest, hdec, -, heip⟩ := h _ rfl
  cases hdec
  exact absurd heip (by decide)

end DjgppLibc.Emu387
