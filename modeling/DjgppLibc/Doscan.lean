import Mathlib.Data.Int.Notation
import Mathlib.Data.List.Basic

/-!
# Scanning numbers (`ansi/stdio/doscan.c`)

A directive of `_doscan_low` for a number, and `_innum`. The character `c` that
the source has read last is the first one of `text`, and EOF when there is none:
reading on drops it, and putting it back leaves the text as it is. Every
character of the number is stored in the array `numbuf` of 64 characters, and a
store behind its end stops the model. The text of a floating point number is
what is handed on to `atof`. Positions of arguments (`$`), suppressed assignments
and the conversions that are not of numbers are left out.
-/
namespace DjgppLibc.Doscan

inductive Size where
  | char | short | regular | long | longdouble
  deriving DecidableEq, Repr

def isdigit (c : Char) : Bool := '0' ≤ c && c ≤ '9'

def isspace (c : Char) : Bool := c = ' ' || 9 ≤ c.toNat && c.toNat ≤ 13

def defaultWidth : ℕ := 30000

def number (fmt : List Char) : ℕ :=
  (fmt.takeWhile isdigit).foldl (fun n c => n * 10 + c.toNat - '0'.toNat) 0

def modifier : List Char → Size × List Char
  | 'l' :: 'l' :: fmt => (.longdouble, fmt)
  | 'l' :: fmt => (.long, fmt)
  | 'h' :: 'h' :: fmt => (.char, fmt)
  | 'h' :: fmt => (.short, fmt)
  | 'L' :: fmt => (.longdouble, fmt)
  | 'j' :: fmt => (.longdouble, fmt)
  | 'z' :: fmt => (.long, fmt)
  | 't' :: fmt => (.regular, fmt)
  | fmt => (.regular, fmt)

def capital (size : Size) (ch : Char) : Size × Char :=
  if 'A' ≤ ch ∧ ch ≤ 'Z' then
    let ch := Char.ofNat (ch.toNat + 32)
    if ch = 'd' ∨ ch = 'i' ∨ ch = 'o' ∨ ch = 'u' then
      (if size = .long then .longdouble else if size ≠ .longdouble then .long else size, ch)
    else (size, ch)
  else (size, ch)

def directive (fmt : List Char) : Option (ℕ × Size × Char) :=
  let n := number fmt
  let len := if n = 0 then defaultWidth else n
  match modifier (fmt.dropWhile isdigit) with
  | (_, []) => none
  | (size, ch :: _) =>
      let (size, ch) := capital size ch
      if ch ∈ ['*', '$', 'm', '[', 'c', 's', 'n'] then none else some (len, size, ch)

inductive Stop where
  | overrun
  deriving DecidableEq, Repr

structure Scan where
  base : ℕ
  lcval : BitVec 64
  ndigit : ℕ
  expseen : Bool
  cpos : ℕ
  numbuf : List Char
  nchars : ℤ
  text : List Char
  deriving DecidableEq, Repr

/-- `c = scan_getc (iop), nchars++`. -/
def Scan.getc (s : Scan) : Scan := { s with text := s.text.tail, nchars := s.nchars + 1 }

/-- `*np++ = c`. -/
def Scan.put (s : Scan) : Except Stop Scan :=
  if s.numbuf.length < 64 then .ok { s with numbuf := s.numbuf ++ s.text.head?.toList }
  else .error .overrun

/-- The scale is `FLOAT`. -/
def isFloat (type : Char) : Bool := type = 'a' || type = 'e' || type = 'f' || type = 'g'

def startBase (type : Char) : ℕ :=
  if type = 'o' then 8 else if type = 'x' ∨ type = 'p' ∨ type = 'a' then 16 else 10

def isDigitOf (base : ℕ) (c : Char) : Bool :=
  isdigit c && c.toNat - '0'.toNat < base ||
    base = 16 && ('a' ≤ c && c ≤ 'f' || 'A' ≤ c && c ≤ 'F')

def digitOf (c : Char) : ℕ :=
  if isdigit c then c.toNat - '0'.toNat
  else if 'a' ≤ c ∧ c ≤ 'f' then c.toNat - ('a'.toNat - 10)
  else c.toNat - ('A'.toNat - 10)

def Scan.shifted (s : Scan) : BitVec 64 :=
  if s.base = 8 then s.lcval <<< 3
  else if s.base = 10 then ((s.lcval <<< 2) + s.lcval) <<< 1
  else s.lcval <<< 4

def body (type : Char) (s : Scan) : Except Stop (Bool × Scan) :=
  let s := { s with cpos := s.cpos + 1 }
  match s.text with
  | [] => .ok (false, s)
  | c :: _ =>
      let s := if c = '0' ∧ s.cpos = 1 ∧ type = 'i' then { s with base := 8 } else s
      if (c = 'x' ∨ c = 'X') ∧ (type = 'a' ∨ type = 'i' ∨ type = 'x') ∧ s.cpos = 2 ∧
        s.lcval = 0 then
        .ok (true, { s with base := 16 })
      else if isDigitOf s.base c then
        .ok (true, { s with ndigit := s.ndigit + 1,
                            lcval := s.shifted + BitVec.ofNat 64 (digitOf c) })
      else if c = '.' then
        if !isFloat type || s.base = 8 then .ok (false, s)
        else .ok (true, { s with ndigit := s.ndigit + 1 })
      else if (c = 'e' ∨ c = 'E') ∧ !s.expseen then
        if !isFloat type || s.base = 8 || s.ndigit = 0 then .ok (false, s)
        else
          match { s with expseen := true }.put with
          | .error e => .error e
          | .ok s =>
              let s := s.getc
              .ok (s.text.head?.any fun c => c = '+' || c = '-' || isdigit c, s)
      else .ok (false, s)

def loop (type : Char) : ℕ → Scan → Except Stop Scan
  | 0, s => .ok s
  | len + 1, s =>
      match body type s with
      | .error e => .error e
      | .ok (false, s) => .ok s
      | .ok (true, s) =>
          match s.put with
          | .error e => .error e
          | .ok s => loop type len s.getc

inductive Stored where
  | char (v : BitVec 8)
  | short (v : BitVec 16)
  | int (v : BitVec 32)
  | long (v : BitVec 32)
  | longlong (v : BitVec 64)
  | float (text : List Char)
  | double (text : List Char)
  | longdouble (text : List Char)
  deriving DecidableEq, Repr

def stored (float : Bool) (size : Size) (lcval : BitVec 64) (numbuf : List Char) : Option Stored :=
  match float, size with
  | true, .char => none
  | true, .short => some (.float numbuf)
  | true, .regular => some (.float numbuf)
  | true, .long => some (.double numbuf)
  | true, .longdouble => some (.longdouble numbuf)
  | false, .char => some (.char (lcval.setWidth 8))
  | false, .short => some (.short (lcval.setWidth 16))
  | false, .regular => some (.int (lcval.setWidth 32))
  | false, .long => some (.long (lcval.setWidth 32))
  | false, .longdouble => some (.longlong lcval)

/-- The answer of `_innum` with what it has stored, the text behind the number, whether the
end of the file was met, and the number of characters taken. -/
structure Scanned where
  matched : Bool
  value : Option Stored
  text : List Char
  eof : Bool
  nchars : ℤ
  deriving DecidableEq, Repr

def finish (type : Char) (size : Size) (negflg : Bool) (s : Scan) : Except Stop Scanned :=
  let lcval := if negflg then -s.lcval else s.lcval
  let r : Scanned := ⟨false, none, s.text, s.text.isEmpty, s.nchars - 1⟩
  if s.numbuf = [] ∨ negflg ∧ s.numbuf.length = 1 then .ok r
  -- the terminating NUL is stored, too
  else if 64 ≤ s.numbuf.length then .error .overrun
  else .ok { r with matched := true, value := stored (isFloat type) size lcval s.numbuf }

/-- The sign, which counts for the width; a minus is stored. -/
def takeSign (len : ℕ) (s : Scan) : Bool × ℕ × Scan :=
  if s.text.head? = some '-' then (true, len - 1, { s with numbuf := ['-'] }.getc)
  else if s.text.head? = some '+' then (false, len - 1, s.getc)
  else (false, len, s)

def innum (type : Char) (len : ℕ) (size : Size) (text : List Char) : Except Stop Scanned :=
  let rest := text.dropWhile isspace
  let nchars : ℤ := (text.takeWhile isspace).length + (if rest = [] then 0 else 1)
  let (negflg, len, s) := takeSign len ⟨startBase type, 0, 0, false, 0, [], nchars, rest⟩
  match loop type len s with
  | .error e => .error e
  | .ok s => finish type size negflg s

def doscan (fmt text : List Char) : Option (Except Stop Scanned) :=
  match directive fmt with
  | none => none
  | some (len, size, type) => some (innum type len size text)

example : doscan ['i'] [' ', '-', '0', 'x', '2', 'A', '.'] =
    some (.ok ⟨true, some (.int (-42)), ['.'], false, 6⟩) := by
  decide +kernel

end DjgppLibc.Doscan
