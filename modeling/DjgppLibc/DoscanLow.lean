import DjgppLibc.DoprntLoop
import DjgppLibc.DoscanStrings

/-!
# `_doscan_low`

A format is the list of its bytes, and the stream is the text that it still gives.
Each step is one turn of the loop over the format: a character, white space or a
directive. `nchars` counts modulo 2^32. Arguments are told apart by their places in
the list; what is stored through them is kept in a log. `_innum` is the one of the
module on numbers, with white space from the table and with suppressed assignments.
-/
namespace DjgppLibc.Doscan

inductive Assigned where
  | count (arg : ℕ) (v : Stored)
  | number (arg : ℕ) (v : Option Stored)
  | string (arg : ℕ) (stored : List Char)
  deriving DecidableEq, Repr

/-- The variables of `_doscan_low`. -/
structure Low where
  fmt : List (BitVec 8)
  text : List Char
  nchars : BitVec 32 := 0
  nmatch : ℕ := 0
  fileended : Bool := false
  suppressed : Bool := false
  argp : ℕ := 0
  sctab : Table
  assigned : List Assigned := []

inductive Turn where
  | returned (n : ℤ)
  | again (s : Low)

def chr (b : BitVec 8) : Char := Char.ofNat b.toNat

/-- `ch = *fmt++` -/
def advance (fmt : List (BitVec 8)) : Char × List (BitVec 8) := (chr (fmt.headD 0), fmt.tail)

/-- `n = n * 10 + ch - '0'` over the digits, from the character `ch` on. -/
def digits : ℤ → Char → List (BitVec 8) → ℤ × Char × List (BitVec 8)
  | n, ch, [] => if isdigit ch then (DoprntLoop.int (n * 10 + ch.toNat - 48), '\x00', [])
      else (n, ch, [])
  | n, ch, b :: fmt =>
      if isdigit ch then digits (DoprntLoop.int (n * 10 + ch.toNat - 48)) (chr b) fmt
      else (n, ch, b :: fmt)

/-- What the start of a directive sets: the pointer with its place, and the width. -/
structure Head where
  ptr : Option ℕ := none
  argp : ℕ
  retrieve : Bool := true

/-- From the label `repeat` on, to the character behind the width. -/
def head : ℕ → Char → List (BitVec 8) → Head → Head × ℤ × Char × List (BitVec 8)
  | 0, ch, fmt, h => (h, 0, ch, fmt)
  | fuel + 1, ch, fmt, h =>
      let (h, ch, fmt) :=
        if ch ≠ '*' ∧ h.retrieve then ({ h with ptr := some h.argp, argp := h.argp + 1 }, ch, fmt)
        else (h, advance fmt)
      let (n, ch, fmt) := digits 0 ch fmt
      if ch = '$' then
        let ptr := if 0 < n then some (n.toNat - 1) else h.ptr
        head fuel ch fmt { ptr, argp := n.toNat, retrieve := false }
      else (h, n, ch, fmt)

structure Directive where
  size : Size := .regular
  allocate : Bool := false
  type : Char
  fmt : List (BitVec 8)
  sctab : Table

def modifiers (sctab : Table) (ch : Char) (fmt : List (BitVec 8)) : Directive :=
  let (ch₂, fmt₂) := advance fmt
  match ch with
  | 'l' =>
      if ch₂ = 'l' then ⟨.longdouble, false, (advance fmt₂).1, (advance fmt₂).2, sctab⟩
      else ⟨.long, false, ch₂, fmt₂, sctab⟩
  | 'h' =>
      if ch₂ = 'h' then ⟨.char, false, (advance fmt₂).1, (advance fmt₂).2, sctab⟩
      else ⟨.short, false, ch₂, fmt₂, sctab⟩
  | 'L' => ⟨.longdouble, false, ch₂, fmt₂, sctab⟩
  | 'j' => ⟨.longdouble, false, ch₂, fmt₂, sctab⟩
  | 'z' => ⟨.long, false, ch₂, fmt₂, sctab⟩
  | 't' => ⟨.regular, false, ch₂, fmt₂, sctab⟩
  | 'm' =>
      if ch₂ = '[' then ⟨.regular, true, ch₂, (getccl sctab fmt₂).2, (getccl sctab fmt₂).1⟩
      else ⟨.regular, true, ch₂, fmt₂, sctab⟩
  | '[' => ⟨.regular, false, ch, (getccl sctab fmt).2, (getccl sctab fmt).1⟩
  | ch => ⟨.regular, false, ch, fmt, sctab⟩

/-- `_innum` behind its loop, without a pointer: no NUL and no value is stored. -/
def finishSuppressed (negflg : Bool) (s : Scan) : Scanned :=
  ⟨¬ (s.numbuf = [] ∨ negflg ∧ s.numbuf.length = 1), none, s.text, s.text.isEmpty, s.nchars - 1⟩

/-- `_innum` for a number. -/
def innumLow (sctab : Table) (type : Char) (len : ℤ) (size : Size) (ptr : Bool) (text : List Char) :
    Except Stop Scanned :=
  let rest := text.dropWhile (sctab.has SPC)
  let nchars : ℤ := (text.takeWhile (sctab.has SPC)).length + (if rest = [] then 0 else 1)
  let (negflg, len, s) := takeSign len.toNat ⟨startBase type, 0, 0, false, 0, [], nchars, rest⟩
  match loop type len s with
  | .error e => .error e
  | .ok s => if ptr then finish type size negflg s else .ok (finishSuppressed negflg s)

/-- What `_innum` tells `_doscan_low`. -/
structure Answer where
  matched : Bool
  text : List Char
  eof : Bool
  nchars : ℤ
  enomem : Bool
  assigned : ℕ → Assigned

/-- `_innum` with its call of `_instr`. -/
def convert (heap : ℕ → ℕ) (d : Directive) (size : Size) (type : Char) (len : ℤ) (ptr : Bool)
    (text : List Char) : Except Fault Answer :=
  if type = 'c' ∨ type = 's' ∨ type = '[' then
    match instr d.sctab heap ⟨type, d.allocate, ptr⟩ len text with
    | .error e => .error e
    | .ok r => .ok ⟨r.matched, r.text, r.eof, r.nchars, r.enomem, fun arg => .string arg r.stored⟩
  else
    match innumLow d.sctab type len size ptr text with
    | .error .overrun => .error .overrun
    | .ok r => .ok ⟨r.matched, r.text, r.eof, r.nchars, false, fun arg => .number arg r.value⟩

/-- The loop over white space: the count, the character that ends it, and the text behind. -/
def skipBlanks (sctab : Table) : List Char → BitVec 32 → BitVec 32 × Option Char × List Char
  | [], nchars => (nchars + 1, none, [])
  | c :: text, nchars =>
      if sctab.has SPC c then skipBlanks sctab text (nchars + 1) else (nchars + 1, some c, text)

/-- A `char` of the format as an `int`. -/
def signedChar (b : BitVec 8) : ℤ := b.toInt

/-- The label `def`: a character of the format that has to be there. -/
def literal (b : BitVec 8) (s : Low) : Turn :=
  match s.text with
  | [] =>
      -- EOF is the same as the character 0xff
      if signedChar b = -1 then .again s
      else .returned (if s.nmatch ≠ 0 ∨ s.suppressed then s.nmatch else -1)
  | c :: text =>
      if (c.toNat : ℤ) = signedChar b then .again { s with text, nchars := s.nchars + 1 }
      else .returned s.nmatch

def blank (s : Low) : Low :=
  match skipBlanks s.sctab s.text s.nchars with
  | (nchars, none, text) => { s with text, nchars := nchars - 1 }
  | (nchars, some c, text) => { s with text := c :: text, nchars := nchars - 1 }

def conversion (heap : ℕ → ℕ) (ch : Char) (fmt : List (BitVec 8)) (s : Low) : Except Fault Turn :=
  let (h, n, ch, fmt) := head (fmt.length + 2) ch fmt { argp := s.argp }
  let len := if n = 0 then (defaultWidth : ℤ) else n
  let d := modifiers s.sctab ch fmt
  let (size, type) := capital d.size d.type
  let s := { s with fmt := d.fmt, argp := h.argp, sctab := d.sctab }
  if type = '\x00' then .ok (.returned (-1))
  else if type = 'n' then
    match h.ptr with
    | none => .ok (.again s)
    | some arg =>
        match stored false size (s.nchars.signExtend 64) [] with
        | none => .ok (.again s)
        | some v => .ok (.again { s with assigned := s.assigned ++ [.count arg v] })
  else
    match convert heap d size type len h.ptr.isSome s.text with
    | .error e => .error e
    | .ok r =>
        let s := { s with
          text := r.text, fileended := r.eof, nchars := s.nchars + BitVec.ofInt 32 r.nchars }
        if r.matched then
          match h.ptr with
          | none => .ok (.again { s with suppressed := true })
          | some arg =>
              .ok (.again { s with
                nmatch := s.nmatch + 1, assigned := s.assigned ++ [r.assigned arg] })
        else if (s.fileended ∧ s.nmatch = 0 ∧ ¬ s.suppressed) ∨ (d.allocate ∧ r.enomem) then
          .ok (.returned (-1))
        else .ok (.returned s.nmatch)

def turn (heap : ℕ → ℕ) (s : Low) : Except Fault Turn :=
  match s.fmt with
  | [] => .ok (.returned s.nmatch)
  | b :: fmt =>
      let s := { s with fmt }
      if chr b = '%' then
        let (ch, fmt) := advance fmt
        if ch = '%' then .ok (literal b { s with fmt }) else conversion heap ch fmt s
      else if chr b ∈ [' ', '\n', '\t', '\r', '\x0c', '\x0b'] then .ok (.again (blank s))
      else .ok (literal b s)

def start (fmt : List (BitVec 8)) (sctab : Table) (input : List Char) : Low :=
  { fmt, text := input, sctab }

/-- The state behind `n` turns that have all succeeded; `heap i` is for the turn number `i`. -/
def turns (heap : ℕ → ℕ → ℕ) : ℕ → Low → Option Low
  | 0, s => some s
  | n + 1, s =>
      match turns heap n s with
      | none => none
      | some s =>
          match turn (heap n) s with
          | .ok (.again s) => some s
          | _ => none

end DjgppLibc.Doscan
