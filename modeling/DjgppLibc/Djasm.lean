import Mathlib.Data.BitVec
import DjgppLibc.X86Addressing

/-!
# Symbols and references in `djasm` (`djasm.y`)

A reference to a symbol that is defined is resolved when it is emitted; another one
leaves a patch with its symbol, which is applied when the symbol is set. Temporary
symbols are `@f0` to `@f9` for the next definition and `@b0` to `@b9` for the last one,
and local ones begin with `?` and live up to the next ordinary symbol.

Numbers are those of an `int`, and wrap around as the code's do.
-/
namespace DjgppLibc.Djasm

open X86

abbrev Name := List Char

/-- `istemp`, with a null character for either kind. -/
def istemp (symname : Name) (which : Char) : Bool :=
  match symname with
  | [a, k, d] => a = '@' && (if which ≠ '\x00' then k = which else k = 'f' || k = 'b') && d.isDigit
  | _ => false

def islocal (symname : Name) : Bool := symname.head? = some '?'

def ordinary (symname : Name) : Bool := !islocal symname && !istemp symname '\x00'

inductive Rel
  | abs
  | abs32
  | rel16
  | rel8
  | abs8
deriving DecidableEq

structure Place where
  filename : String
  lineno : ℕ
deriving DecidableEq

structure Patch where
  location : ℕ
  place : Place
  rel : Rel
deriving DecidableEq

structure Symbol where
  name : Name
  value : BitVec 32
  defined : Bool
  patches : List Patch

inductive Message
  /-- "warning: symbol redefined" -/
  | redefined (place : Place) (name : Name)
  /-- "8-bit relocation too big; use long form" -/
  | tooBig (patch : Patch) (v : BitVec 32)
  /-- "8-bit relocation offset too big; use long form" -/
  | offsetTooBig (patch : Patch) (offset : BitVec 32)
  /-- "undefined symbol" -/
  | undefined (patch : Patch) (name : Name)
deriving DecidableEq

/-- `outbin` is the image up to `pc`. -/
structure Asm where
  outbin : List Byte
  symtab : List Symbol
  place : Place
  messages : List Message

def Asm.pc (st : Asm) : ℕ := st.outbin.length

def lowBytes : ℕ → BitVec 32 → List Byte
  | 0, _ => []
  | size + 1, v => v.setWidth 8 :: lowBytes size (v >>> 8)

def readField (out : List Byte) (loc size : ℕ) : ℕ := littleEndian ((out.drop loc).take size)

def writeField (out : List Byte) (loc : ℕ) (bytes : List Byte) : List Byte :=
  out.take loc ++ bytes ++ out.drop (loc + bytes.length)

def emit (st : Asm) (bytes : List Byte) : Asm := { st with outbin := st.outbin ++ bytes }

def emitb (st : Asm) (v : BitVec 32) : Asm := emit st (lowBytes 1 v)

def emitw (st : Asm) (v : BitVec 32) : Asm := emit st (lowBytes 2 v)

def emitd (st : Asm) (v : BitVec 32) : Asm := emit st (lowBytes 4 v)

def fitsByte (v : BitVec 32) : Bool := -128 ≤ v.toInt && v.toInt ≤ 127

def findSymbol (symtab : List Symbol) (name : Name) : Option Symbol := symtab.find? (·.name = name)

/-- `get_symbol` with `create` -/
def getSymbol (st : Asm) (name : Name) : Asm :=
  match findSymbol st.symtab name with
  | some _ => st
  | none => { st with symtab := ⟨name, 0, false, []⟩ :: st.symtab }

def updateSymbol (symtab : List Symbol) (name : Name) (f : Symbol → Symbol) : List Symbol :=
  symtab.map fun s => if s.name = name then f s else s

def say (st : Asm) (m : List Message) : Asm := { st with messages := st.messages ++ m }

def undefinedMessages (s : Symbol) : List Message :=
  if s.defined then [] else s.patches.map fun p => .undefined p s.name

/-- `destroy_locals` -/
def destroyLocals (st : Asm) : Asm :=
  { st with
    symtab := st.symtab.filter fun s => !islocal s.name
    messages := st.messages ++ (st.symtab.filter fun s => islocal s.name).flatMap
      undefinedMessages }

/-- The body of the loop over the patches in `set_symbol`. -/
def applyPatch (value : BitVec 32) (st : List Byte × List Message) (p : Patch) :
    List Byte × List Message :=
  let (out, messages) := st
  let location := BitVec.ofNat 32 p.location
  match p.rel with
  | .abs =>
      let o := (BitVec.ofNat 16 (readField out p.location 2)).signExtend 32 + value
      (writeField out p.location (lowBytes 2 o), messages)
  | .abs32 =>
      let o := BitVec.ofNat 32 (readField out p.location 4) + value
      (writeField out p.location (lowBytes 4 o), messages)
  | .rel16 =>
      let o := (BitVec.ofNat 16 (readField out p.location 2)).signExtend 32 + (value - location - 2)
      (writeField out p.location (lowBytes 2 o), messages)
  | .rel8 =>
      let o := (BitVec.ofNat 8 (readField out p.location 1)).signExtend 32 + (value - location - 1)
      (writeField out p.location (lowBytes 1 o), messages ++ if fitsByte o then []
        else [.tooBig p o])
  | .abs8 => (out, messages)

/-- `set_symbol` -/
def setSymbol (st : Asm) (name : Name) (value : BitVec 32) : Asm :=
  let st := if !islocal name && !istemp name '\x00' then destroyLocals st else st
  match findSymbol st.symtab name with
  | none => st
  | some s =>
      let redefined := s.defined && !istemp name 'b'
      let st := say st (if redefined then [.redefined st.place name] else [])
      let (outbin, messages) := s.patches.foldl (applyPatch value) (st.outbin, st.messages)
      { st with
        outbin := outbin
        messages := messages
        symtab := updateSymbol st.symtab name fun s =>
          { s with value := value, defined := !istemp name 'f', patches := [] } }

def addPatch (st : Asm) (name : Name) (p : Patch) : Asm :=
  { st with symtab := updateSymbol st.symtab name fun s => { s with patches := p :: s.patches } }

/-- `emits` -/
def emits (st : Asm) (name : Name) (offset : BitVec 32) (rel : Rel) : Asm :=
  match findSymbol st.symtab name with
  | none => st
  | some s =>
      let p : Patch := ⟨st.pc, st.place, rel⟩
      let pc := BitVec.ofNat 32 st.pc
      if s.defined then
        match rel with
        | .abs32 => emitd st (s.value + offset)
        | .abs => emitw st (s.value + offset)
        | .abs8 => emitb st (s.value + offset)
        | .rel16 => emitw st (s.value - pc - 2 + offset)
        | .rel8 =>
            let v := s.value - pc - 1 + offset
            emitb (say st (if fitsByte v then [] else [.tooBig p v])) v
      else
        let st := addPatch st name p
        match rel with
        | .abs32 => emitd st offset
        | .abs | .rel16 => emitw st offset
        | .rel8 => emitb (say st (if fitsByte offset then [] else [.offsetTooBig p offset])) offset
        | .abs8 => st

/-- The loop over the symbols in `reg`: the displacement, and whether it may be short. -/
def dispLoop (location : ℕ) (rel : Rel) : List Name → Asm × BitVec 32 × Bool →
    Asm × BitVec 32 × Bool
  | [], acc => acc
  | name :: syms, (st, v, short) =>
      match findSymbol st.symtab name with
      | none => dispLoop location rel syms (st, v, short)
      | some s =>
          if s.defined then dispLoop location rel syms (st, v + s.value, short)
          else dispLoop location rel syms (addPatch st name ⟨location, st.place, rel⟩, v, false)

/-- The displacement part of `reg`, behind the choice of `mbyte`. Its low byte is the
ModRM byte and the next one the SIB byte, if there is one; `regs` tells whether
`_modrm.regs` is not 0, and `addr32` whether `_modrm.addr32` is not. -/
def regDisp (st : Asm) (mbyte : BitVec 32) (needsib regs addr32 : Bool) (offset : BitVec 32)
    (syms : List Name) : Asm :=
  let location := st.pc + 1 + needsib.toNat
  let (st, v, regs) := dispLoop location (if addr32 then .abs32 else .abs) syms (st, offset, regs)
  if regs && fitsByte v then
    let st := emitb st (mbyte ^^^ 0o300)
    let st := if needsib then emitb st (mbyte >>> 8) else st
    emitb st v
  else
    let st := emitb st mbyte
    let st := if needsib then emitb st (mbyte >>> 8) else st
    if addr32 then emitd st v else emitw st v

variable {out : List Byte} {loc loc' size : ℕ}

@[simp]
theorem length_lowBytes (size : ℕ) (v : BitVec 32) : (lowBytes size v).length = size := by
  induction size generalizing v with
  | zero => rfl
  | succ size ih => rw [lowBytes, List.length_cons, ih]

theorem littleEndian_lowBytes (size : ℕ) (v : BitVec 32) :
    littleEndian (lowBytes size v) = v.toNat % 256 ^ size := by
  induction size generalizing v with
  | zero => simp [lowBytes, littleEndian, Nat.mod_one]
  | succ size ih =>
    rw [lowBytes, littleEndian, ih, BitVec.toNat_setWidth, BitVec.toNat_ushiftRight,
      Nat.shiftRight_eq_div_pow]
    show v.toNat % 256 + 256 * (v.toNat / 256 % 256 ^ size) = v.toNat % 256 ^ (size + 1)
    rw [Nat.pow_succ', Nat.mod_mul]

theorem littleEndian_lt (l : List Byte) : littleEndian l < 256 ^ l.length := by
  induction l with
  | nil => simp [littleEndian]
  | cons b l ih =>
    have := b.isLt
    rw [littleEndian, List.length_cons, Nat.pow_succ']
    omega

theorem readField_lt (out : List Byte) (loc size : ℕ) : readField out loc size < 256 ^ size :=
  Nat.lt_of_lt_of_le (littleEndian_lt _) (Nat.pow_le_pow_right (by decide)
    (List.length_take_le _ _))

theorem length_writeField (h : loc + size ≤ out.length) {bytes : List Byte}
    (hb : bytes.length = size) :
    (writeField out loc bytes).length = out.length := by
  simp only [writeField, List.length_append, List.length_take, List.length_drop]
  omega

theorem readField_writeField (h : loc + size ≤ out.length) {bytes : List Byte}
    (hb : bytes.length = size) :
    readField (writeField out loc bytes) loc size = littleEndian bytes := by
  have hlen : (out.take loc).length = loc := by
    rw [List.length_take]
    omega
  rw [readField, writeField, List.append_assoc, List.drop_append, hlen,
    List.drop_of_length_le (by omega),
    Nat.sub_self, List.drop_zero, List.nil_append, ← hb, List.take_left]

/-- A field apart from the one that is written. -/
theorem readField_writeField_apart {size' : ℕ} (h : loc + size ≤ out.length) {bytes : List Byte}
    (hb : bytes.length = size) (hapart : loc + size ≤ loc' ∨ loc' + size' ≤ loc) :
    readField (writeField out loc bytes) loc' size' = readField out loc' size' := by
  have hget (i : ℕ) (hi : i < loc ∨ loc + size ≤ i) : (writeField out loc bytes)[i]? = out[i]? := by
    have hlen : (out.take loc).length = loc := by
      rw [List.length_take]
      omega
    rw [writeField]
    obtain hi | hi := hi
    · rw [List.append_assoc, List.getElem?_append_left (by omega), List.getElem?_take_of_lt hi]
    · rw [List.getElem?_append_right (by rw [List.length_append]; omega), List.getElem?_drop,
        List.length_append, hlen, hb]
      congr 1
      omega
  unfold readField
  congr 1
  apply List.ext_getElem?
  intro i
  by_cases hi : i < size'
  · rw [List.getElem?_take_of_lt hi, List.getElem?_take_of_lt hi, List.getElem?_drop,
      List.getElem?_drop,
      hget _ (by omega)]
  · rw [List.getElem?_eq_none (by rw [List.length_take]; omega),
      List.getElem?_eq_none (by rw [List.length_take]; omega)]

theorem readField_append (h : loc + size ≤ out.length) (l : List Byte) :
    readField (out ++ l) loc size = readField out loc size := by
  unfold readField
  rw [List.drop_append_of_le_length (by omega),
    List.take_append_of_le_length (by rw [List.length_drop]; omega)]

theorem readField_append_new (out pre bytes post : List Byte) :
    readField (out ++ (pre ++ (bytes ++ post))) (out.length + pre.length) bytes.length =
    littleEndian bytes := by
  rw [readField, ← List.append_assoc, ← List.length_append, List.drop_left, List.take_left]

end DjgppLibc.Djasm
