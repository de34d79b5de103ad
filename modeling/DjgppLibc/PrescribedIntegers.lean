import DjgppLibc.DoprntFormats
import Mathlib.Data.Nat.Digits.Defs

/-!
# The text that C99 prescribes for an integer

The converted value has a sign, a prefix and digits. The precision says how many
digits there are at least, and the alternate form raises it in octal if the first
digit would not be a zero. A field that is wider is filled with spaces on the
right, with zeros behind the prefix, or with spaces on the left. Numbers are
unbounded here.
-/
namespace DjgppLibc.DoprntLoop

/-- The digits of a number without zeros in front, so that zero has none. -/
def numeral (base : ℕ) (upper : Bool) (n : ℕ) : List Char :=
  (Nat.digits base n).reverse.map fun k => (Doprnt.digits upper).getD k '0'

/-- `prec` digits or more, and a zero as the first one if `octal` asks for it. -/
def preciseDigits (base : ℕ) (upper octal : Bool) (prec n : ℕ) : List Char :=
  let ds := numeral base upper n
  let t := List.replicate (prec - ds.length) '0' ++ ds
  if octal && t.head? ≠ some '0' then '0' :: t else t

def layout (left zero : Bool) (padding : ℕ) (sign pre ds : List Char) : List Char :=
  if left then sign ++ pre ++ ds ++ List.replicate padding ' '
  else if zero then sign ++ pre ++ List.replicate padding '0' ++ ds
  else List.replicate padding ' ' ++ sign ++ pre ++ ds

/-- The flags, the width and the precision of a directive. `sign` is what a signed value
starts with if it is not negative. -/
structure Form where
  left : Bool
  zero : Bool
  alt : Bool
  sign : Option Char
  width : ℕ
  prec : Option ℕ
  deriving DecidableEq, Repr

def Form.text (f : Form) (base : ℕ) (upper : Bool) (sign : Option Char) (n : ℕ) : List Char :=
  let pre := if f.alt && base = 16 && n ≠ 0 then ['0', if upper then 'X' else 'x'] else []
  let ds := preciseDigits base upper (f.alt && base = 8) (f.prec.getD 1) n
  layout f.left (f.zero && f.prec.isNone) (f.width - (sign.toList ++ pre ++ ds).length)
    sign.toList pre ds

def Form.signedText (f : Form) (v : ℤ) : List Char :=
  f.text 10 false (if v < 0 then some '-' else f.sign) v.natAbs

def Form.unsignedText (f : Form) (base : ℕ) (upper : Bool) (v : ℕ) : List Char :=
  f.text base upper none v

def decimal (ds : List Char) : ℕ := ds.foldl (fun n c => 10 * n + Doprnt.todigit c) 0

def Length.bits : Length → ℕ
  | .hh => 8
  | .h => 16
  | .ll | .j => 64
  | .none | .l | .z | .t => 32

variable {ρ : Type}

def Width.amount (w : ℤ) : Width ρ → ℕ
  | .none => 0
  | .literal n => decimal n.list
  | .star _ => w.natAbs

def Prec.amount (p : ℤ) : Prec ρ → Option ℕ
  | .none => Option.none
  | .literal ds => some (decimal ds.list)
  | .star _ => if p < 0 then Option.none else some p.toNat

/-- The directive as C99 reads it, with `w` and `p` for the width and the precision from the
arguments. A negative width stands for a minus flag and its absolute value. -/
def Spec.form (s : Spec ρ) (w p : ℤ) : Form where
  left := .minus ∈ s.flags ∨ s.width.star?.isSome ∧ w < 0
  zero := .zero ∈ s.flags
  alt := .alt ∈ s.flags
  sign := if .plus ∈ s.flags then some '+' else if .space ∈ s.flags then some ' ' else none
  width := s.width.amount w
  prec := s.prec.amount p

/-- The form of a directive of a sequential format whose arguments start at `argp`. -/
def Spec.formAt (s : Spec Unit) (a : Args) (argp : ℕ) : Form :=
  s.form (a.word argp).toInt (a.word (argp + starWords s.width.star?)).toInt

def Spec.argument (s : Spec Unit) (a : Args) (argp : ℕ) : BitVec s.length.bits :=
  (a.wide (s.place argp)).setWidth _

def Spec.prescribed (s : Spec Unit) (a : Args) (argp : ℕ) : List Char :=
  match s.conv with
  | .d | .i => (s.formAt a argp).signedText (s.argument a argp).toInt
  | .o => (s.formAt a argp).unsignedText 8 false (s.argument a argp).toNat
  | .u => (s.formAt a argp).unsignedText 10 false (s.argument a argp).toNat
  | .x => (s.formAt a argp).unsignedText 16 false (s.argument a argp).toNat
  | .X => (s.formAt a argp).unsignedText 16 true (s.argument a argp).toNat
  | .c | .s | .p => []

def Conv.IsInteger (v : Conv) : Prop := v ≠ .c ∧ v ≠ .s ∧ v ≠ .p

instance (v : Conv) : Decidable v.IsInteger := inferInstanceAs (Decidable (_ ∧ _))

end DjgppLibc.DoprntLoop
