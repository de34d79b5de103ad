import Mathlib.Data.Fintype.Option
import Mathlib.Data.Fintype.Prod
import DjgppLibc.DjasmReferences

/-!
# Operands in memory in `djasm` (`djasm.y`)

The parts of an operand are collected in `_modrm`, where registers are bits, and `reg`
emits the ModRM and SIB bytes and the displacement. `reg_meets_iff` decodes them again.
An index without a base gets a short displacement or none, which is not what the
processor expects, and a register of 16 bits that is written twice counts once.
-/
namespace DjgppLibc.Djasm

open X86

/-- `1 << n` -/
def bit (n : ℕ) : BitVec 32 := 1 <<< n

inductive Item
  | reg16 (r : Fin 8)
  | reg32 (r : Fin 8)
  /-- `eax*4` or `4*eax` -/
  | scaled (r : Fin 8) (k : BitVec 32)
  /-- `eax<<2` -/
  | shifted (r : Fin 8) (k : BitVec 32)
  | sym (name : Name)
  | const (c : BitVec 32)
  | minus (c : BitVec 32)
  /-- `es:` -/
  | sreg (s : Fin 6)

/-- `_modrm`, and the prefixes that have been emitted. -/
structure Modrm where
  regs : BitVec 32
  offset : BitVec 32
  addr16 : Bool
  addr32 : BitVec 32
  syms : List Name
  prefixes : List Byte

def Modrm.empty : Modrm := ⟨0, 0, false, 0, [], []⟩

def sregOverrides (s : Fin 6) : Byte :=
  match s with
  | 0 => 0x26
  | 1 => 0x2e
  | 2 => 0x36
  | 3 => 0x3e
  | 4 => 0x64
  | 5 => 0x65

/-- The value of `_modrm.addr32` behind `addr32`, if there is no error. -/
def addr32Bits (a sib : BitVec 32) : Option (BitVec 32) :=
  let a := a ||| 0x1000000
  if (sib &&& 0xf00).toNat > 0x100 then
    if sib &&& 0xff = 0x10 then none
    else if a &&& 0xff00 ≠ 0 then none
    else some (a ||| (sib <<< 8))
  else if a &&& 0xff = 0 then some (a ||| (sib &&& 0xff) ||| 0x1000000)
  else if a &&& 0xff00 = 0 then
    if sib &&& 0xff = 0x10 then
      if a &&& 0xff = 0x10 then none
      else some (((a &&& 0xff) <<< 8) ||| (sib &&& 0xff) ||| 0x1010000)
    else some (a ||| (sib <<< 8))
  else none

/-- `addr32` -/
def addr32 (m : Modrm) (sib : BitVec 32) : Option Modrm :=
  if m.addr16 then none
  else
    let prefixes := if m.addr32 = 0 then m.prefixes ++ [0x67] else m.prefixes
    (addr32Bits m.addr32 sib).map fun a => { m with addr32 := a, regs := -1, prefixes := prefixes }

/-- The actions of the grammar; no value if there is an error. The array for the symbols
has ten places. -/
def item (m : Modrm) : Item → Option Modrm
  | .reg16 r =>
      if m.addr32 ≠ 0 then none else some { m with regs := m.regs ||| bit r.val, addr16 := true }
  | .reg32 r => addr32 m (bit r.val ||| 0x100)
  | .scaled r k =>
      if k = 1 ∨ k = 2 ∨ k = 4 ∨ k = 8 then addr32 m (bit r.val ||| (k <<< 8)) else none
  | .shifted r k =>
      if 0 ≤ k.toInt ∧ k.toInt ≤ 3 then addr32 m (bit r.val ||| (0x100#32 <<< k.toNat)) else none
  | .sym name => if m.syms.length < 10 then some { m with syms := m.syms ++ [name] } else none
  | .const c => some { m with offset := m.offset + c }
  | .minus c => some { m with offset := m.offset - c }
  | .sreg s => some { m with prefixes := m.prefixes ++ [sregOverrides s] }

def operand (items : List Item) : Option Modrm := items.foldlM item .empty

def findreg (regbits : BitVec 32) : BitVec 32 :=
  if regbits = 0 then 4 else BitVec.ofNat 32 regbits.toNat.log2

def findscl (sclbits : BitVec 32) : BitVec 32 :=
  match sclbits.toNat with
  | 2 => 1
  | 4 => 2
  | 8 => 3
  | _ => 0

def Modrm.bare (m : Modrm) : Bool := m.offset = 0 && m.syms.isEmpty

/-- What `nooffset` emits. -/
def nooffset (mbyte : BitVec 32) (needsib : Bool) : List Byte :=
  lowBytes 1 mbyte ++ ((if needsib then lowBytes 1 (mbyte >>> 8) else []) ++
    if mbyte &&& 0o100 ≠ 0 then [0] else [])

def reg2mbyte : List (BitVec 32) := [0x48, 0x88, 0x60, 0xa0, 0x40, 0x80, 0x20, 0x08]

/-- `reg`; no value if the registers are not valid. -/
def reg (st : Asm) (m : Modrm) (which : Fin 8) (movacc : BitVec 32) : Option Asm :=
  let mbyte : BitVec 32 := BitVec.ofNat 32 which.val <<< 3
  let disp (mbyte : BitVec 32) (needsib regs : Bool) : Option Asm :=
    some (regDisp st mbyte needsib regs (m.addr32 ≠ 0) m.offset m.syms)
  let noDisp (mbyte : BitVec 32) (needsib : Bool) : Option Asm :=
    some (emit st (nooffset mbyte needsib))
  if m.regs = 0 then
    disp (if movacc ≠ 0 then movacc else mbyte + if m.addr32 ≠ 0 then 5 else 6) false false
  else if m.regs = 0x20 ∧ m.bare then noDisp (mbyte ||| 0o106) false
  else if m.addr32 ≠ 0 then
    let index := (findreg ((m.addr32 >>> 8) &&& 0xff) <<< 3) |||
      (findscl ((m.addr32 >>> 16) &&& 0x0f) <<< 6)
    if m.addr32 &&& 0xff ≠ 0 then
      let sib := findreg (m.addr32 &&& 0xff) ||| index
      if sib = 0o45 ∧ m.bare then noDisp (mbyte ||| 0o104 ||| ((0o45 : BitVec 32) <<< 8)) true
      else if sib = 0o44 then
        let mbyte := mbyte ||| (sib <<< 8) ||| 0o4
        if m.bare then noDisp mbyte true else disp (mbyte ||| 0o200) true true
      else if sib &&& 0o70 = 0o40 then
        let mbyte := mbyte ||| (sib &&& 0o7)
        if m.bare then noDisp mbyte false else disp (mbyte ||| 0o200) false true
      else if sib &&& 0o7 = 0o5 then
        let mbyte := mbyte ||| (sib <<< 8) ||| 0o4
        if m.bare then noDisp (mbyte ||| 0o100) true else disp (mbyte ||| 0o200) true true
      else
        let mbyte := mbyte ||| (sib <<< 8) ||| 0o4
        if m.bare then noDisp mbyte true else disp (mbyte ||| 0o200) true true
    else
      let sib := 0o5 ||| index
      let mbyte := (mbyte &&& 0o70) ||| (sib <<< 8) ||| 0o4
      if m.bare then noDisp mbyte true else disp mbyte true true
  else
    (reg2mbyte.findIdx? (· = m.regs)).bind fun i =>
      let mbyte := mbyte ||| BitVec.ofNat 32 i
      if m.bare then noDisp mbyte false else disp (mbyte ||| 0o200) false true

def Item.term : Item → Option (Fin 8 × ℕ)
  | .reg16 r | .reg32 r => some (r, 1)
  | .scaled r k => some (r, k.toNat)
  | .shifted r k => some (r, 2 ^ k.toNat)
  | _ => none

def terms (items : List Item) : List (Fin 8 × ℕ) := items.filterMap Item.term

def Item.wide : Item → Bool
  | .reg32 _ | .scaled .. | .shifted .. => true
  | _ => false

def wide (items : List Item) : Bool := items.any Item.wide

def Item.constant : Item → BitVec 32
  | .const c => c
  | .minus c => -c
  | _ => 0

def constants (items : List Item) : BitVec 32 := items.foldl (fun acc i => acc + i.constant) 0

def Item.symbol : Item → Option Name
  | .sym name => some name
  | _ => none

def symbols (items : List Item) : List Name := items.filterMap Item.symbol

def bits16 (l : List (Fin 8 × ℕ)) : BitVec 32 := l.foldl (fun acc t => acc ||| bit t.1.val) 0

/-- The base and the index in `_modrm.addr32`, the index with the power of its factor. -/
def bits32 (base : Option (Fin 8)) (index : Option (Fin 8 × Fin 4)) : BitVec 32 :=
  0x1000000 ||| (match base with | some b => bit b.val | none => 0) |||
    match index with | some (r, k) => bit (r.val + 8) ||| bit (k.val + 16) | none => 0

def terms32 (base : Option (Fin 8)) (index : Option (Fin 8 × Fin 4)) : List (Fin 8 × ℕ) :=
  (match base with | some b => [(b, 1)] | none => []) ++
    match index with | some (r, k) => [(r, 2 ^ k.val)] | none => []

/-- There is a register, and the index is not ESP; without a base it has a factor. -/
def fits32 (base : Option (Fin 8)) (index : Option (Fin 8 × Fin 4)) : Bool :=
  match index with
  | some (r, k) => r ≠ 4 && (base.isSome || k ≠ 0)
  | none => base.isSome

/-- The first register. -/
theorem addr32Bits_first : ∀ (r : Fin 8) (k : Fin 4),
    addr32Bits 0 (bit r.val ||| (bit k.val <<< 8)) =
      if k = 0 then some (bits32 (some r) none)
      else if r = 4 then none else some (bits32 none (some (r, k))) := by
  decide +kernel

theorem addr32Bits_next : ∀ (base : Option (Fin 8)) (index : Option
      (Fin 8 × Fin 4)) (r : Fin 8) (k : Fin 4),
    fits32 base index = true → addr32Bits (bits32 base index) (bit r.val ||| (bit k.val <<< 8)) =
      if k ≠ 0 then (if r = 4 ∨ index ≠ none then none else some (bits32 base (some (r, k))))
      else match base, index with
        | none, _ => some (bits32 (some r) index)
        | some b, none =>
            if r = 4 then (if b = 4 then none else some (bits32 (some 4) (some (b, 0))))
            else some (bits32 (some b) (some (r, 0)))
        | some _, some _ => none := by
  decide +kernel

/-- `[eax]` and then `ebx*4` -/
example : addr32Bits (bits32 (some 0) none) (bit 3 ||| (bit 2 <<< 8)) =
    some (bits32 (some 0) (some (3, 2))) := by
  decide +kernel

/-- The registers of an operand are in `_modrm`. -/
def Registers (l : List (Fin 8 × ℕ)) (w : Bool) (m : Modrm) : Prop :=
  (w = false ∧ m.addr32 = 0 ∧ m.addr16 = !l.isEmpty ∧ m.regs = bits16 l ∧ ∀ t ∈ l, t.2 = 1) ∨
    (w = true ∧ m.addr16 = false ∧ m.regs = -1 ∧ ∃ base index, fits32 base index = true ∧
      m.addr32 = bits32 base index ∧ l.Perm (terms32 base index))

theorem bits32_ne_zero : ∀ (base : Option (Fin 8)) (index : Option
      (Fin 8 × Fin 4)), bits32 base index ≠ 0 := by
  decide +kernel

variable {m m' : Modrm} {l : List (Fin 8 × ℕ)} {w : Bool}

theorem addr32_registers {r : Fin 8} {k : Fin 4} (h : Registers l w m)
    (he : addr32 m (bit r.val ||| (bit k.val <<< 8)) = some m') :
    Registers (l ++ [(r, 2 ^ k.val)]) true m' ∧ m'.offset = m.offset ∧ m'.syms = m.syms ∧
      m'.prefixes = if w then m.prefixes else m.prefixes ++ [0x67] := by
  unfold addr32 at he
  cases h16 : m.addr16 with
  | true => simp [h16] at he
  | false =>
    simp only [h16, Bool.false_eq_true, if_false, Option.map_eq_some_iff] at he
    obtain ⟨a, ha, rfl⟩ := he
    obtain ⟨rfl, h32, hl, -⟩ | ⟨rfl, -, -, base, index, hfit, h32, hperm⟩ := h
    · have hnil : l = [] := by
        rw [h16] at hl
        simpa using hl.symm
      subst hnil
      refine ⟨.inr ⟨rfl, rfl, rfl, ?_⟩, rfl, rfl, by simp [h32]⟩
      rw [h32, addr32Bits_first] at ha
      split at ha
      · next hk =>
        subst hk
        exact ⟨some r, none, rfl, (Option.some.inj ha).symm, .refl _⟩
      · next hk =>
        split at ha
        · cases ha
        · next hr => exact ⟨none, some (r, k), by simp [fits32, hr,
            hk], (Option.some.inj ha).symm, .refl _⟩
    · have hne := bits32_ne_zero base index
      refine ⟨.inr ⟨rfl, rfl, rfl, ?_⟩, rfl, rfl, by rw [h32, if_neg hne]; rfl⟩
      rw [h32, addr32Bits_next base index r k hfit] at ha
      split at ha
      · next hk =>
        split at ha
        · cases ha
        · next hr =>
          simp only [not_or, ne_eq, Decidable.not_not] at hr
          obtain ⟨hr, rfl⟩ := hr
          refine ⟨base, some (r, k), by simp [fits32, hr, hk], (Option.some.inj ha).symm, ?_⟩
          simpa [terms32] using hperm.append_right [(r, 2 ^ k.val)]
      · next hk =>
        have hk : k = 0 := by simpa using hk
        subst hk
        match base, index with
        | none, none => simp [fits32] at hfit
        | none, some i =>
          have hfit' : fits32 (some r) (some i) = true := by
            simp only [fits32, Bool.and_eq_true] at hfit ⊢
            exact ⟨hfit.1, rfl⟩
          refine ⟨some r, some i, hfit', (Option.some.inj ha).symm, ?_⟩
          refine (hperm.append_right _).trans ?_
          exact List.perm_append_comm
        | some b, none =>
          simp only at ha
          split at ha
          · next hr =>
            subst hr
            split at ha
            · cases ha
            · next hb =>
              refine ⟨some 4, some (b, 0), by simp [fits32, hb], (Option.some.inj ha).symm, ?_⟩
              refine (hperm.append_right _).trans ?_
              exact List.Perm.swap _ _ _
          · next hr =>
            exact ⟨some b, some (r, 0), by simp [fits32,
              hr], (Option.some.inj ha).symm, hperm.append_right _⟩
        | some b, some i => cases ha

/-- A register of 32 bits, with a power of two for its factor. -/
theorem item_wide {i : Item} (hw : i.wide = true) (h : item m i = some m') :
    ∃ (r : Fin 8) (k : Fin 4), i.term = some (r, 2 ^ k.val) ∧
      addr32 m (bit r.val ||| (bit k.val <<< 8)) = some m' := by
  cases i with
  | reg32 r => exact ⟨r, 0, rfl, h⟩
  | scaled r k =>
    simp only [item] at h
    split at h
    · next hk =>
      obtain rfl | rfl | rfl | rfl := hk
      · exact ⟨r, 0, rfl, h⟩
      · exact ⟨r, 1, rfl, h⟩
      · exact ⟨r, 2, rfl, h⟩
      · exact ⟨r, 3, rfl, h⟩
    · cases h
  | shifted r k =>
    simp only [item] at h
    split at h
    · next hk =>
      have hlt : k.toNat < 4 := by
        have := BitVec.toInt_eq_toNat_cond k
        split at this <;> omega
      refine ⟨r, ⟨k.toNat, hlt⟩, rfl, ?_⟩
      rw [← h]
      have hshift : ∀ k : Fin 4, bit k.val <<< 8 = 0x100#32 <<< k.val := by decide
      exact congrArg (fun x => addr32 m (bit r.val ||| x)) (hshift ⟨k.toNat, hlt⟩)
    · cases h
  | _ => cases hw

theorem item_registers {i : Item} (hw : i.wide = false) (h : Registers l w m)
    (he : item m i = some m') :
    Registers (l ++ i.term.toList) w m' ∧ (0x67 ∈ m'.prefixes ↔ 0x67 ∈ m.prefixes) := by
  cases i with
  | reg16 r =>
    simp only [item] at he
    split at he
    · cases he
    · next h0 =>
      obtain rfl := Option.some.inj he
      obtain ⟨rfl, h32, -, hregs, hone⟩ | ⟨-, -, -, base, index, -, h32, -⟩ := h
      · refine ⟨.inl ⟨rfl, h32, by simp [Item.term], ?_, ?_⟩, .rfl⟩
        · simp [bits16, Item.term, hregs]
        · intro t ht
          obtain ht | ht := List.mem_append.1 ht
          · exact hone t ht
          · obtain rfl : t = (r, 1) := by simpa [Item.term] using ht
            rfl
      · exact absurd (h32 ▸ bits32_ne_zero base index) h0
  | sym name =>
    simp only [item] at he
    split at he
    · obtain rfl := Option.some.inj he
      rw [show Item.term (.sym name) = none from rfl, Option.toList_none, List.append_nil]
      exact ⟨h, .rfl⟩
    · cases he
  | const c =>
    obtain rfl := Option.some.inj he
    rw [show Item.term (.const c) = none from rfl, Option.toList_none, List.append_nil]
    exact ⟨h, .rfl⟩
  | minus c =>
    obtain rfl := Option.some.inj he
    rw [show Item.term (.minus c) = none from rfl, Option.toList_none, List.append_nil]
    exact ⟨h, .rfl⟩
  | sreg s =>
    obtain rfl := Option.some.inj he
    rw [show Item.term (.sreg s) = none from rfl, Option.toList_none, List.append_nil]
    refine ⟨h, ?_⟩
    have hne : ∀ s : Fin 6, (0x67 : Byte) ≠ sregOverrides s := by decide
    rw [List.mem_append, List.mem_singleton, or_iff_left (hne s)]
  | _ => cases hw

theorem item_data {i : Item} (he : item m i = some m') :
    m'.offset = m.offset + i.constant ∧ m'.syms = m.syms ++ i.symbol.toList := by
  cases i with
  | reg16 r =>
    simp only [item] at he
    split at he
    · cases he
    · obtain rfl := Option.some.inj he
      simp [Item.constant, Item.symbol]
  | sym name =>
    simp only [item] at he
    split at he
    · obtain rfl := Option.some.inj he
      simp [Item.constant, Item.symbol]
    · cases he
  | const c =>
    obtain rfl := Option.some.inj he
    simp [Item.constant, Item.symbol]
  | minus c =>
    obtain rfl := Option.some.inj he
    simp [Item.constant, Item.symbol, BitVec.sub_eq_add_neg]
  | sreg s =>
    obtain rfl := Option.some.inj he
    simp [Item.constant, Item.symbol]
  | _ =>
    obtain ⟨r, k, -, h⟩ := item_wide rfl he
    unfold addr32 at h
    split at h
    · cases h
    · obtain ⟨a, -, rfl⟩ := Option.map_eq_some_iff.1 h
      simp [Item.constant, Item.symbol]

/-- What the actions of the grammar leave in `_modrm`. -/
structure Parsed (items : List Item) (m : Modrm) : Prop where
  registers : Registers (terms items) (wide items) m
  offset : m.offset = constants items
  syms : m.syms = symbols items
  prefixes : 0x67 ∈ m.prefixes ↔ wide items = true

theorem operand_parsed {items : List Item} (h : operand items = some m) : Parsed items m := by
  induction items using List.reverseRecOn generalizing m with
  | nil =>
    obtain rfl : Modrm.empty = m := by simpa [operand] using h
    exact ⟨.inl ⟨rfl, rfl, rfl, rfl, by simp [terms]⟩, rfl, rfl, by simp [Modrm.empty, wide]⟩
  | append_singleton items i ih =>
    rw [operand, List.foldlM_append] at h
    obtain ⟨m₀, hm₀, hi⟩ := Option.bind_eq_some_iff.1 h
    have hi : item m₀ i = some m := by simpa using hi
    have hp := ih hm₀
    obtain ⟨hoff, hsyms⟩ := item_data hi
    have hterms : terms (items ++ [i]) = terms items ++ i.term.toList := by
      rw [terms, List.filterMap_append]
      cases i <;> rfl
    have hsymbols : symbols (items ++ [i]) = symbols items ++ i.symbol.toList := by
      rw [symbols, List.filterMap_append]
      cases i <;> rfl
    have hwide : wide (items ++ [i]) = (wide items || i.wide) := by simp [wide]
    have hconst : constants (items ++ [i]) = constants items + i.constant := by simp [constants]
    cases hw : i.wide with
    | false =>
      obtain ⟨hreg, hpre⟩ := item_registers hw hp.registers hi
      refine ⟨?_, by rw [hoff, hp.offset, hconst], by rw [hsyms, hp.syms, hsymbols], ?_⟩
      · rw [hterms, hwide, hw, Bool.or_false]
        exact hreg
      · rw [hpre, hp.prefixes, hwide, hw, Bool.or_false]
    | true =>
      obtain ⟨r, k, hterm, ha⟩ := item_wide hw hi
      obtain ⟨hreg, -, -, hpre⟩ := addr32_registers hp.registers ha
      refine ⟨?_, by rw [hoff, hp.offset, hconst], by rw [hsyms, hp.syms, hsymbols], ?_⟩
      · rw [hterms, hwide, hw, Bool.or_true, hterm]
        exact hreg
      · rw [hwide, hw, Bool.or_true, hpre]
        cases hwi : wide items with
        | true => simpa [hwi] using hp.prefixes
        | false => simp

/-- The ModRM byte, with the SIB byte above it, without and with a displacement. -/
def form32 (a : BitVec 32) (which : Fin 8) : (BitVec 32 × Bool) × (BitVec 32 × Bool) :=
  let mbyte : BitVec 32 := BitVec.ofNat 32 which.val <<< 3
  let index := (findreg ((a >>> 8) &&& 0xff) <<< 3) ||| (findscl ((a >>> 16) &&& 0x0f) <<< 6)
  if a &&& 0xff ≠ 0 then
    let sib := findreg (a &&& 0xff) ||| index
    let full := mbyte ||| (sib <<< 8) ||| 0o4
    if sib = 0o45 then
      ((mbyte ||| 0o104 ||| ((0o45 : BitVec 32) <<< 8), true),
        (mbyte ||| (sib &&& 0o7) ||| 0o200, false))
    else if sib = 0o44 then ((full, true), (full ||| 0o200, true))
    else if sib &&& 0o70 = 0o40 then
      ((mbyte ||| (sib &&& 0o7), false), (mbyte ||| (sib &&& 0o7) ||| 0o200, false))
    else if sib &&& 0o7 = 0o5 then ((full ||| 0o100, true), (full ||| 0o200, true))
    else ((full, true), (full ||| 0o200, true))
  else
    let full := (mbyte &&& 0o70) ||| ((0o5 ||| index) <<< 8) ||| 0o4
    ((full, true), (full, true))

variable {st st' : Asm} {which : Fin 8} {movacc : BitVec 32}

theorem reg_wide (hregs : m.regs = -1) (h32 : m.addr32 ≠ 0) :
    reg st m which movacc = some (if m.bare then
        emit st (nooffset (form32 m.addr32 which).1.1 (form32 m.addr32 which).1.2)
      else regDisp st (form32 m.addr32 which).2.1 (form32 m.addr32 which).2.2 true true
      m.offset m.syms) := by
  have h0 : (-1 : BitVec 32) ≠ 0 := by decide
  have h20 : (-1 : BitVec 32) ≠ 0x20 := by decide
  unfold reg form32
  simp only [hregs, h0, h20, h32, if_false, false_and, ne_eq, not_false_eq_true, if_true]
  cases m.bare
  · simp only [Bool.false_eq_true, and_false, if_false]
    split_ifs <;> simp_all
  · simp only [and_true, if_true]
    split_ifs <;> simp_all

theorem reg_narrow (h32 : m.addr32 = 0) (h0 : m.regs ≠ 0) (hreg : reg st m which movacc =
      some st') :
    ∃ i : Fin 8, m.regs = bits16 (terms16 i) ∧ st' = if m.bare then
        emit st (nooffset ((BitVec.ofNat 32 which.val <<< 3) ||| if i =
          6 then 0o106 else BitVec.ofNat 32 i.val) false)
      else regDisp st ((BitVec.ofNat 32 which.val <<< 3) ||| BitVec.ofNat 32 i.val ||| 0o200) false
      true false
        m.offset m.syms := by
  unfold reg at hreg
  simp only [h0, h32, if_false, ne_eq, not_true_eq_false, decide_false] at hreg
  split at hreg
  · next hbp =>
    refine ⟨6, hbp.1, ?_⟩
    rw [if_pos hbp.2]
    exact (Option.some.inj hreg).symm
  · next hbp =>
    obtain ⟨i, hi, hreg⟩ := Option.bind_eq_some_iff.1 hreg
    obtain ⟨hlt, hget, -⟩ := List.findIdx?_eq_some_iff_getElem.1 hi
    have htable : ∀ i : Fin 8, reg2mbyte[i.val]? = some (bits16 (terms16 i)) := by decide
    have hregs : m.regs = bits16 (terms16 ⟨i, hlt⟩) := by
      have := htable ⟨i, hlt⟩
      rw [List.getElem?_eq_getElem hlt] at this
      exact (of_decide_eq_true hget).symm.trans (Option.some.inj this)
    refine ⟨⟨i, hlt⟩, hregs, ?_⟩
    cases hb : m.bare with
    | true =>
      rw [hb, if_pos rfl] at hreg
      have hne : (⟨i, hlt⟩ : Fin 8) ≠ 6 := by
        intro h6
        rw [h6] at hregs
        exact hbp ⟨hregs, hb⟩
      rw [if_pos rfl, if_neg hne]
      exact (Option.some.inj hreg).symm
    | false =>
      rw [hb] at hreg
      exact (Option.some.inj hreg).symm

def head32 (x : BitVec 32) (needsib : Bool) (which : Fin 8) (size : ℕ) (l : List (Fin 8 × ℕ)) :
    Bool :=
  let modrm : Byte := x.setWidth 8
  let sib : Byte := (x >>> 8).setWidth 8
  regOf modrm = which && modOf modrm ≠ 3 &&
    if needsib then rmOf modrm = 4 && layoutSib (modOf modrm) sib = (size, l)
    else rmOf modrm ≠ 4 && layout32 modrm = (size, l)

/-- The other operand takes bits of its own. -/
theorem form32_which (a : BitVec 32) (which : Fin 8) :
    form32 a which =
      (((BitVec.ofNat 32 which.val <<< 3) ||| (form32 a 0).1.1, (form32 a 0).1.2),
        ((BitVec.ofNat 32 which.val <<< 3) ||| (form32 a 0).2.1, (form32 a 0).2.2)) := by
  have hmask : (BitVec.ofNat 32 which.val <<< 3) &&& 0o70 = BitVec.ofNat 32 which.val <<< 3 := by
    revert which
    decide
  have hzero : BitVec.ofNat 32 (0 : Fin 8).val <<< 3 = 0 := rfl
  have hor (x : BitVec 32) : 0 ||| x = x := BitVec.zero_or
  have hand (x : BitVec 32) : 0 &&& x = 0 := BitVec.zero_and
  unfold form32
  simp only [hmask, hzero, hor, hand]
  split_ifs <;> simp only [BitVec.or_assoc]

theorem fields_or (which : Fin 8) {b : Byte} (h : regOf b = 0) :
    regOf ((BitVec.ofNat 32 which.val <<< 3).setWidth 8 ||| b) = which ∧
      modOf ((BitVec.ofNat 32 which.val <<< 3).setWidth 8 ||| b) = modOf b ∧
      rmOf ((BitVec.ofNat 32 which.val <<< 3).setWidth 8 ||| b) = rmOf b := by
  have hall : ∀ (which : Fin 8) (n : Fin 256), regOf (BitVec.ofNat 8 n.val) = 0 →
      regOf ((BitVec.ofNat 32 which.val <<< 3).setWidth 8 ||| BitVec.ofNat 8 n.val) = which ∧
        modOf ((BitVec.ofNat 32 which.val <<< 3).setWidth 8 ||| BitVec.ofNat 8 n.val) =
          modOf (BitVec.ofNat 8 n.val) ∧
        rmOf ((BitVec.ofNat 32 which.val <<< 3).setWidth 8 ||| BitVec.ofNat 8 n.val) =
          rmOf (BitVec.ofNat 8 n.val) := by
    decide +kernel
  have := hall which ⟨b.toNat, b.isLt⟩
  simp only [BitVec.ofNat_toNat, BitVec.setWidth_eq] at this
  exact this h

theorem head32_or (which : Fin 8) {x : BitVec 32} {needsib : Bool} {size : ℕ} {l : List (Fin 8 × ℕ)}
    (h : head32 x needsib 0 size l = true) :
    head32 ((BitVec.ofNat 32 which.val <<< 3) ||| x) needsib which size l = true := by
  have hsib : (((BitVec.ofNat 32 which.val <<< 3) ||| x) >>> 8) = x >>> 8 := by
    have : (BitVec.ofNat 32 which.val <<< 3) >>> 8 = 0 := by
      revert which
      decide
    rw [BitVec.ushiftRight_or_distrib, this]
    exact BitVec.zero_or
  unfold head32 at h ⊢
  simp only [BitVec.setWidth_or, hsib, Bool.and_eq_true, decide_eq_true_eq] at h ⊢
  obtain ⟨⟨hreg, hmod⟩, hrest⟩ := h
  obtain ⟨hreg', hmod', hrm'⟩ := fields_or which hreg
  refine ⟨⟨hreg', by rw [hmod']; exact hmod⟩, ?_⟩
  have hlayout : layout32 ((BitVec.ofNat 32 which.val <<< 3).setWidth 8 ||| x.setWidth 8) =
      layout32 (x.setWidth 8) := by
    rw [layout32, hmod', hrm', layout32]
  rw [hmod', hrm', hlayout]
  exact hrest

theorem form32_bare_zero : ∀ (b : Fin 8) (index : Option (Fin 8 × Fin 4)), fits32 (some b) index =
    true →
    head32 (form32 (bits32 (some b) index) 0).1.1 (form32 (bits32 (some b) index) 0).1.2 0
      (if (form32 (bits32 (some b) index) 0).1.1 &&& 0o100 ≠ 0 then 1 else 0)
      (terms32 (some b) index) = true := by
  decide +kernel

/-- `[esp]` needs a second byte. -/
example : head32 (form32 (bits32 (some 4) none) 0).1.1 true 0 0 [(4, 1)] = true := by
  decide +kernel

theorem form32_byte_zero : ∀ (b : Fin 8) (index : Option (Fin 8 × Fin 4)), fits32 (some b) index =
    true →
    head32 ((form32 (bits32 (some b) index) 0).2.1 ^^^ 0o300)
    (form32 (bits32 (some b) index) 0).2.2 0 1
      (terms32 (some b) index) = true := by
  decide +kernel

theorem form32_full_zero : ∀ (base : Option (Fin 8)) (index : Option
      (Fin 8 × Fin 4)), fits32 base index = true →
    head32 (form32 (bits32 base index) 0).2.1 (form32 (bits32 base index) 0).2.2 0 4
    (terms32 base index) = true := by
  decide +kernel

/-- `[ebp]` with a double word of displacement -/
example : head32 (form32 (bits32 (some 5) none) 0).2.1 false 0 4 [(5, 1)] = true := by
  decide +kernel

theorem form32_index_zero : ∀ (r : Fin 8) (k : Fin 4), r ≠ 4 →
    (form32 (bits32 none (some (r, k))) 0).1.2 = true ∧
      (form32 (bits32 none (some (r, k))) 0).1.1 &&& 0o100 = 0 ∧
      head32 (form32 (bits32 none (some (r, k))) 0).1.1 true 0 4 (terms32 none (some (r, k))) =
      true ∧
      regOf (((form32 (bits32 none (some (r, k))) 0).2.1 ^^^ 0o300).setWidth 8) = 0 ∧
      modOf (((form32 (bits32 none (some (r, k))) 0).2.1 ^^^ 0o300).setWidth 8) = 3 := by
  decide +kernel

/-- `[ecx*2]` has a double word of displacement. -/
example : head32 (form32 (bits32 none (some (1, 1))) 0).1.1 true 0 4 [(1, 2)] = true := by
  decide +kernel

theorem or_xor {a c : BitVec 32} (h : a &&& c = 0) (x : BitVec 32) :
    (a ||| x) ^^^ c = a ||| (x ^^^ c) := by
  apply BitVec.eq_of_getLsbD_eq
  intro i hi
  have hbit := congrArg (·.getLsbD i) h
  simp only [BitVec.getLsbD_and] at hbit
  simp only [BitVec.getLsbD_xor, BitVec.getLsbD_or]
  revert hbit
  cases a.getLsbD i <;> cases c.getLsbD i <;> simp

theorem or_and {a c : BitVec 32} (h : a &&& c = 0) (x : BitVec 32) : (a ||| x) &&& c = x &&& c := by
  rw [BitVec.and_comm, BitVec.and_or_distrib_left, BitVec.and_comm c a, h, BitVec.and_comm c x]
  exact BitVec.zero_or

/-- Without a displacement, or with a byte that is 0. -/
theorem form32_bare (which : Fin 8) {b : Fin 8} {index : Option (Fin 8 × Fin 4)}
    (h : fits32 (some b) index = true) :
    head32 (form32 (bits32 (some b) index) which).1.1 (form32
      (bits32 (some b) index) which).1.2 which
      (if (form32 (bits32 (some b) index) which).1.1 &&& 0o100 ≠ 0 then 1 else 0)
      (terms32 (some b) index) = true := by
  have hmask : (BitVec.ofNat 32 which.val <<< 3) &&& 0o100 = 0 := by
    revert which
    decide
  rw [form32_which, or_and hmask]
  exact head32_or which (form32_bare_zero b index h)

theorem form32_byte (which : Fin 8) {b : Fin 8} {index : Option (Fin 8 × Fin 4)}
    (h : fits32 (some b) index = true) :
    head32 ((form32 (bits32 (some b) index) which).2.1 ^^^ 0o300)
    (form32 (bits32 (some b) index) which).2.2 which 1
      (terms32 (some b) index) = true := by
  have hmask : (BitVec.ofNat 32 which.val <<< 3) &&& 0o300 = 0 := by
    revert which
    decide
  rw [form32_which, or_xor hmask]
  exact head32_or which (form32_byte_zero b index h)

theorem form32_full (which : Fin 8) {base : Option (Fin 8)} {index : Option (Fin 8 × Fin 4)}
    (h : fits32 base index = true) :
    head32 (form32 (bits32 base index) which).2.1 (form32 (bits32 base index) which).2.2 which 4
      (terms32 base index) = true := by
  rw [form32_which]
  exact head32_or which (form32_full_zero base index h)

theorem form32_index (which : Fin 8) {r : Fin 8} (hr : r ≠ 4) (k : Fin 4) :
    (form32 (bits32 none (some (r, k))) which).1.2 = true ∧
      (form32 (bits32 none (some (r, k))) which).1.1 &&& 0o100 = 0 ∧
      head32 (form32 (bits32 none (some (r, k))) which).1.1 true which 4
      (terms32 none (some (r, k))) = true ∧
      modOf (((form32 (bits32 none (some (r, k))) which).2.1 ^^^ 0o300).setWidth 8) = 3 := by
  have hmask : (BitVec.ofNat 32 which.val <<< 3) &&& 0o100 = 0 ∧
      (BitVec.ofNat 32 which.val <<< 3) &&& 0o300 = 0 := by
    revert which
    decide
  obtain ⟨hsib, hbare, hhead, hreg, hmod⟩ := form32_index_zero r k hr
  rw [form32_which]
  refine ⟨hsib, ?_, head32_or which hhead, ?_⟩
  · rw [or_and hmask.1]
    exact hbare
  · rw [or_xor hmask.2, BitVec.setWidth_or, (fields_or which hreg).2.1]
    exact hmod

theorem withDisp_zero (w : ℕ) (l : List (Fin 8 × ℕ)) : withDisp w 0 l [] = some (⟨l, 0⟩, []) := rfl

theorem setWidth_signExtend {v : BitVec 32} (h : fitsByte v = true) (w : ℕ) (hw : w = 16 ∨ w = 32) :
    (v.setWidth 8).signExtend w = v.setWidth w := by
  have hlt := v.isLt
  have hv : v.toNat ≤ 127 ∨ 2 ^ 32 - 128 ≤ v.toNat := by
    have hint := BitVec.toInt_eq_toNat_cond v
    simp only [fitsByte, Bool.and_eq_true, decide_eq_true_eq] at h
    split at hint <;> omega
  apply BitVec.eq_of_toNat_eq
  rw [BitVec.toNat_signExtend, BitVec.msb_eq_decide]
  obtain rfl | rfl := hw
  · simp only [BitVec.toNat_setWidth, decide_eq_true_eq]
    split <;> omega
  · simp only [BitVec.toNat_setWidth, decide_eq_true_eq]
    split <;> omega

theorem withDisp_byte {v : BitVec 32} (h : fitsByte v = true) (w : ℕ) (hw : w = 16 ∨ w = 32)
    (l : List (Fin 8 × ℕ)) : withDisp w 1 l (lowBytes 1 v) = some (⟨l, v.setWidth w⟩, []) := by
  rw [← setWidth_signExtend h w hw]
  rfl

theorem withDisp_full {size : ℕ} (hsize : size ≠ 1) (w : ℕ) (hw : 2 ^ w = 256 ^ size)
    (v : BitVec 32)
    (l : List (Fin 8 × ℕ)) : withDisp w size l (lowBytes size v) =
    some (⟨l, v.setWidth w⟩, []) := by
  have hdisp : BitVec.ofNat w (littleEndian (lowBytes size v)) = v.setWidth w := by
    apply BitVec.eq_of_toNat_eq
    rw [littleEndian_lowBytes, BitVec.toNat_ofNat, BitVec.toNat_setWidth, hw, Nat.mod_mod]
  have hlen := length_lowBytes size v
  rw [withDisp, takeDisp, if_neg (by omega), if_neg hsize, List.take_of_length_le (by omega), hdisp,
    List.drop_of_length_le (by omega)]
  rfl

/-- The first bytes of an operand. -/
def headBytes (x : BitVec 32) (needsib : Bool) : List Byte :=
  lowBytes 1 x ++ if needsib then lowBytes 1 (x >>> 8) else []

theorem decode_head32 {x : BitVec 32} {needsib : Bool} {size : ℕ}
    (h : head32 x needsib which size l = true)
    (bytes : List Byte) :
    ∃ modrm rest, headBytes x needsib ++ bytes = modrm :: rest ∧ regOf modrm = which ∧
      decode32 modrm rest = withDisp 32 size l bytes := by
  unfold head32 at h
  simp only [Bool.and_eq_true, decide_eq_true_eq] at h
  obtain ⟨⟨hreg, hmod⟩, hrest⟩ := h
  cases needsib with
  | true =>
    simp only [if_true, Bool.and_eq_true, decide_eq_true_eq] at hrest
    refine ⟨x.setWidth 8, (x >>> 8).setWidth 8 :: bytes, rfl, hreg, ?_⟩
    rw [decode32_of_sib hmod hrest.1, hrest.2]
  | false =>
    simp only [Bool.false_eq_true, if_false, Bool.and_eq_true, decide_eq_true_eq] at hrest
    refine ⟨x.setWidth 8, bytes, rfl, hreg, ?_⟩
    rw [decode32_of_rm hmod hrest.1, hrest.2]

/-- The first byte of an operand with 16-bit addresses. -/
theorem fields16 : ∀ (which i : Fin 8),
    let x := (BitVec.ofNat 32 which.val <<< 3) ||| BitVec.ofNat 32 i.val
    let y := (BitVec.ofNat 32 which.val <<< 3) ||| if i = 6 then 0o106 else BitVec.ofNat 32 i.val
    (regOf (y.setWidth 8) = which ∧ modOf (y.setWidth 8) ≠ 3 ∧
      layout16 (y.setWidth 8) = (if y &&& 0o100 ≠ 0 then 1 else 0, terms16 i)) ∧
      (regOf (((x ||| 0o200) ^^^ 0o300).setWidth 8) = which ∧
        modOf (((x ||| 0o200) ^^^ 0o300).setWidth 8) ≠ 3 ∧
        layout16 (((x ||| 0o200) ^^^ 0o300).setWidth 8) = (1, terms16 i)) ∧
      regOf ((x ||| 0o200).setWidth 8) = which ∧ modOf ((x ||| 0o200).setWidth 8) ≠ 3 ∧
        layout16 ((x ||| 0o200).setWidth 8) = (2, terms16 i) := by
  decide +kernel

theorem fields_disp : ∀ which : Fin 8,
    regOf (((BitVec.ofNat 32 which.val <<< 3) + 6).setWidth 8) = which ∧
      modOf (((BitVec.ofNat 32 which.val <<< 3) + 6).setWidth 8) ≠ 3 ∧
      layout16 (((BitVec.ofNat 32 which.val <<< 3) + 6).setWidth 8) = (2, []) := by
  decide +kernel

end DjgppLibc.Djasm
