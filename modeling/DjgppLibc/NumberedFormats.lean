import DjgppLibc.PrescribedIntegers
import DjgppLibc.OrderedSearch

/-!
# Formats with numbered arguments

Each directive names its argument as `%n$`, and a width or a precision from the
arguments as `*m$`. The same format without the numbers is its sequential form; it
takes its arguments in the order in which they are referenced. The scan of
`__traverse_argument_list` reads a directive in a way of its own: a zero flag and
the digits of a width are taken for the number of the argument, and of a literal
precision one digit is skipped. A mark stands for a reference that it reads, or for
a part where it loses its way.
-/
namespace DjgppLibc.DoprntLoop

def posRef (r : Numeral) : List Char := r.list ++ ['$']

def Numeral.index (r : Numeral) : ℕ := decimal r.list

def Spec.words {ρ : Type} (s : Spec ρ) : ℕ :=
  match s.conv with
  | .c | .s | .p => 1
  | .d | .i | .o | .u | .x | .X => if s.length = .ll ∨ s.length = .j then 2 else 1

/-- The references in the order in which the arguments are taken, with their words. -/
def Spec.references (s : Spec Numeral) : List (ℕ × ℕ) :=
  (s.width.star?.toList ++ s.prec.star?.toList).map (fun r => (r.index, 1)) ++
    [(s.arg.index, s.words)]

def Item.references : Item Numeral → List (ℕ × ℕ)
  | .plain _ _ => []
  | .directive s => s.references

def references (fmt : List (Item Numeral)) : List (ℕ × ℕ) := fmt.flatMap Item.references

def Width.sequential {ρ : Type} : Width ρ → Width Unit
  | .none => .none
  | .literal w => .literal w
  | .star _ => .star ()

def Prec.sequential {ρ : Type} : Prec ρ → Prec Unit
  | .none => .none
  | .literal ds => .literal ds
  | .star _ => .star ()

def Spec.sequential {ρ : Type} (s : Spec ρ) : Spec Unit :=
  ⟨(), s.flags, s.width.sequential, s.prec.sequential, s.length, s.conv⟩

def Item.sequential : Item Numeral → Item Unit
  | .plain c h => .plain c h
  | .directive s => .directive s.sequential

/-- Where the argument `i` starts, if `size` says how many words each one takes. -/
def start (size : ℕ → ℕ) (i : ℕ) : ℕ := ((List.range (i - 1)).map fun j => size (j + 1)).sum

def permuted (size : ℕ → ℕ) (a : Args) (rs : List (ℕ × ℕ)) : List (BitVec 32) :=
  rs.flatMap fun r => (List.range r.2).map fun j => a.word (start size r.1 + j)

def Args.permuted (a : Args) (size : ℕ → ℕ) (fmt : List (Item Numeral)) : Args :=
  ⟨fun p => (DoprntLoop.permuted size a (references fmt)).getD p 0, a.mem⟩

def Width.marks : Width Numeral → List (Option ℕ)
  | .none => []
  | .literal _ => [Option.none]
  | .star r => [some r.index]

def Prec.marks : Prec Numeral → List (Option ℕ)
  | .none => []
  | .literal ds => if ds.list.length = 1 then [] else [Option.none]
  | .star r => [some r.index]

def Spec.marks (s : Spec Numeral) : List (Option ℕ) :=
  (if .zero ∈ s.flags then [none] else []) ++ (s.width.marks ++
    (s.prec.marks ++ [some s.arg.index]))

def Item.marks : Item Numeral → List (Option ℕ)
  | .plain _ _ => []
  | .directive s => s.marks

def marks (fmt : List (Item Numeral)) : List (Option ℕ) := fmt.flatMap Item.marks

def isPassed (c : Char) : Bool :=
  c ∈ [' ', '#', '\'', '-', '+', 'h', 't', 'z', 'L', 'j', 'l']

/-- The scan that starts again takes the first character of the format for a percent sign. It
comes to no harm if it is one, or if no number, star or point follows. -/
def RestartsWell (text : List Char) : Prop :=
  text.head? = some '%' ∨
    ∀ c ∈ (text.tail.dropWhile isPassed).head?, Doprnt.isdigit c = false ∧ c ≠ '*' ∧ c ≠ '.'

/-- The scan for each of the arguments `1..k` finds it: the references up to it come in their
order before the scan loses its way, or it never does. -/
def Readable (fmt : List (Item Numeral)) (k : ℕ) : Prop :=
  (List.range' 1 k).Sublist (OrderedSearch.legible (marks fmt)) ∨
    (∀ m ∈ marks fmt, m.isSome) ∧ RestartsWell (formatText posRef fmt)

/-- `%c` does not go to its argument: it takes the one behind the argument taken last, which is
`prev` at the start. -/
def CharsInPlace : ℕ → List (Item Numeral) → Prop
  | _, [] => True
  | prev, .plain _ _ :: fmt => CharsInPlace prev fmt
  | prev, .directive s :: fmt =>
      (s.conv = .c → s.arg.index =
        ((s.width.star?.toList ++ s.prec.star?.toList).map Numeral.index).getLastD prev + 1) ∧
      CharsInPlace s.arg.index fmt

/-- The references are to the arguments `1..k`, to each of them, and agree on the types. -/
structure Complete (fmt : List (Item Numeral)) (k : ℕ) (size : ℕ → ℕ) : Prop where
  inRange : ∀ r ∈ references fmt, 1 ≤ r.1 ∧ r.1 ≤ k
  consistent : ∀ r ∈ references fmt, r.2 = size r.1
  all : ∀ i, 1 ≤ i → i ≤ k → ∃ r ∈ references fmt, r.1 = i

end DjgppLibc.DoprntLoop
