import Mathlib.Algebra.GroupWithZero.Nat
import Mathlib.Data.List.Basic

/-!
# Printing integers (`ansi/stdio/doprnt.c`)

A directive of `_doprnt` for an integer, from the character behind the percent
sign to its text. The argument is given as the eight bytes at its place, of which
the directive uses four unless it is for a `long long`. Widths and positions
taken from the arguments (`*` and `$`) are left out, and so are the conversions
that are not of integers. The locale is the one a program starts in, where the
grouping flag does nothing.
-/
namespace DjgppLibc.Doprnt

/-- The flags, the sign, the width and the precision; -1 as precision is `none`. -/
structure Flags where
  longint : Bool := false
  longdbl : Bool := false
  shortint : Bool := false
  charint : Bool := false
  alt : Bool := false
  ladjust : Bool := false
  zeropad : Bool := false
  grouping : Bool := false
  sign : Option Char := none
  width : ℕ := 0
  prec : Option ℕ := none
  deriving DecidableEq, Repr

def isdigit (c : Char) : Bool := '0' ≤ c && c ≤ '9'

def todigit (c : Char) : ℕ := if c < '0' then 0 else if '9' < c then 9 else c.toNat - '0'.toNat

def number (fmt : List Char) : ℕ := (fmt.takeWhile isdigit).foldl (fun n c => 10 * n + todigit c) 0

/-- The part of the directive in front of the conversion, with the conversion and the
rest of the format. Each round takes a character. -/
def rflag : ℕ → List Char → Flags → Option (Flags × Char × List Char)
  | 0, _, _ => none
  | _, [], _ => none
  | n + 1, ch :: fmt, f =>
      match ch with
      | '\'' => rflag n fmt { f with grouping := true }
      | ' ' => rflag n fmt { f with sign := if f.sign = none then some ' ' else f.sign }
      | '#' => rflag n fmt { f with alt := true }
      | '-' => rflag n fmt { f with ladjust := true }
      | '+' => rflag n fmt { f with sign := some '+' }
      | '.' =>
          if fmt.head? = some '*' then none
          else rflag n (fmt.dropWhile isdigit) { f with prec := some (number fmt) }
      | '0' => rflag n fmt { f with zeropad := true }
      | 'L' => rflag n fmt { f with longdbl := true }
      | 'h' =>
          rflag n fmt
            (if f.shortint then { f with charint := true, shortint := false }
            else { f with shortint := true })
      | 'l' =>
          rflag n fmt (if f.longint then { f with longdbl := true } else { f with longint := true })
      | 'j' => rflag n fmt { f with longdbl := true }
      | 'z' => rflag n fmt { f with longint := true }
      | 't' => rflag n fmt f
      | '*' => none
      | ch =>
          if isdigit ch then
            let rest := fmt.dropWhile isdigit
            if rest.head? = some '$' then none
            else rflag n rest { f with width := number (ch :: fmt) }
          else some (f, ch, fmt)

/-- `ARG (signed)`. -/
def argSigned (f : Flags) (a : BitVec 64) : BitVec 64 :=
  if f.longdbl then a
  else if f.longint then (a.setWidth 32).signExtend 64
  else if f.shortint then (a.setWidth 16).signExtend 64
  else (a.setWidth 32).signExtend 64

/-- `ARG (unsigned)`. -/
def argUnsigned (f : Flags) (a : BitVec 64) : BitVec 64 :=
  if f.longdbl then a
  else if f.longint then (a.setWidth 32).setWidth 64
  else if f.shortint then (a.setWidth 16).setWidth 64
  else (a.setWidth 32).setWidth 64

def digits (upper : Bool) : List Char :=
  if upper then ['0', '1', '2', '3', '4', '5', '6', '7', '8', '9', 'A', 'B', 'C', 'D', 'E', 'F']
  else ['0', '1', '2', '3', '4', '5', '6', '7', '8', '9', 'a', 'b', 'c', 'd', 'e', 'f']

/-- `CONVERT`: the digits are put in front of what is there. A value of 64 bits has at most
64 of them. -/
def convert (base : ℕ) (upper : Bool) : ℕ → ℕ → List Char → List Char
  | 0, _, t => t
  | fuel + 1, value, t =>
      let t := (digits upper).getD (value % base) '0' :: t
      if value / base = 0 then t else convert base upper fuel (value / base) t

/-- The digits of the value, with the leading zero of the alternate form in octal. -/
def figures (f : Flags) (upper : Bool) (base : ℕ) (v : BitVec 64) : List Char :=
  if v ≠ 0 ∨ f.prec ≠ some 0 then
    let t := convert base upper 64 (if f.longdbl then v.toNat else (v.setWidth 32).toNat) []
    if f.alt ∧ base = 8 ∧ t.head? ≠ some '0' then '0' :: t else t
  else []

/-- From the label `number` to the end of the directive. -/
def numberText (f : Flags) (ch : Char) (base : ℕ) (hex : Bool) (v : BitVec 64) : List Char :=
  let f := if f.prec ≠ none then { f with zeropad := false } else f
  let t := figures f (ch = 'X') base v
  let dprec := f.prec.getD 0
  let realsz := max dprec t.length + f.sign.toList.length + (if hex then 2 else 0)
  (if !f.ladjust && !f.zeropad then List.replicate (f.width - realsz) ' ' else []) ++
    f.sign.toList ++
    (if hex then ['0', ch] else []) ++
    (if !f.ladjust && f.zeropad then List.replicate (f.width - realsz) '0' else []) ++
    List.replicate (dprec - t.length) '0' ++
    t ++
    (if f.ladjust then List.replicate (f.width - realsz) ' ' else [])

def signedText (f : Flags) (ch : Char) (a : BitVec 64) : List Char :=
  let v := argSigned f a
  if v.slt 0 then numberText { f with sign := some '-' } ch 10 false (-v)
  else numberText f ch 10 false v

/-- The label `nosign` clears the sign. -/
def unsignedText (f : Flags) (ch : Char) (base : ℕ) (a : BitVec 64) : List Char :=
  let v := argUnsigned f a
  numberText { f with sign := none } ch base (base = 16 && f.alt && v ≠ 0) v

def conversion (f : Flags) (ch : Char) (a : BitVec 64) : Option (List Char) :=
  match ch with
  | 'D' => some (signedText { f with longint := true } ch a)
  | 'd' => some (signedText f ch a)
  | 'i' => some (signedText f ch a)
  | 'O' => some (unsignedText { f with longint := true } ch 8 a)
  | 'o' => some (unsignedText f ch 8 a)
  | 'U' => some (unsignedText { f with longint := true } ch 10 a)
  | 'u' => some (unsignedText f ch 10 a)
  | 'X' => some (unsignedText f ch 16 a)
  | 'x' => some (unsignedText f ch 16 a)
  | _ => none

def doprnt (fmt : List Char) (a : BitVec 64) : Option (List Char) :=
  match rflag fmt.length fmt {} with
  | some (f, ch, []) => conversion f ch a
  | _ => none

example : doprnt ['+', '0', '8', 'd'] 42 = some ['+', '0', '0', '0', '0', '0', '4', '2'] := by
  decide +kernel

end DjgppLibc.Doprnt
