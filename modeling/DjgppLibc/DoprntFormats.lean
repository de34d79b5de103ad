import DjgppLibc.DoprntLoop
import Mathlib.Data.List.TakeWhile

/-!
# Formats and how they are read

A format is a list of plain characters and directives. The references of a
directive are of a type of their own: in a sequential format there is nothing to
say, in a numbered one each is a number. What the characters of a directive set
is `Spec.set`, and the two forms are read to the same flags and the same width.
-/
namespace DjgppLibc.DoprntLoop
open Doprnt (Flags isdigit todigit)

inductive Flag where
  | minus | plus | space | alt | zero
  deriving DecidableEq, Repr

def Flag.ch : Flag → Char
  | .minus => '-'
  | .plus => '+'
  | .space => ' '
  | .alt => '#'
  | .zero => '0'

inductive Length where
  | none | hh | h | l | ll | j | z | t
  deriving DecidableEq, Repr

def Length.text : Length → List Char
  | .none => []
  | .hh => ['h', 'h']
  | .h => ['h']
  | .l => ['l']
  | .ll => ['l', 'l']
  | .j => ['j']
  | .z => ['z']
  | .t => ['t']

inductive Conv where
  | c | d | i | o | u | x | X | s | p
  deriving DecidableEq, Repr

def Conv.ch : Conv → Char
  | .c => 'c'
  | .d => 'd'
  | .i => 'i'
  | .o => 'o'
  | .u => 'u'
  | .x => 'x'
  | .X => 'X'
  | .s => 's'
  | .p => 'p'

structure Digits where
  list : List Char
  isdigit : ∀ c ∈ list, isdigit c = true

structure Numeral extends Digits where
  leading : ∃ c r, list = c :: r ∧ c ≠ '0'

inductive Width (ρ : Type) where
  | none
  | literal (w : Numeral)
  | star (r : ρ)

inductive Prec (ρ : Type) where
  | none
  | literal (ds : Digits)
  | star (r : ρ)

/-- A directive with references of the type `ρ`. -/
structure Spec (ρ : Type) where
  arg : ρ
  flags : List Flag
  width : Width ρ
  prec : Prec ρ
  length : Length
  conv : Conv

inductive Item (ρ : Type) where
  | plain (c : Char) (h : c ≠ '%' ∧ c ≠ '\x00')
  | directive (s : Spec ρ)

variable {ρ : Type} (ref : ρ → List Char)

def Width.text : Width ρ → List Char
  | .none => []
  | .literal w => w.list
  | .star r => '*' :: ref r

def Prec.text : Prec ρ → List Char
  | .none => []
  | .literal ds => '.' :: ds.list
  | .star r => '.' :: '*' :: ref r

def Spec.tail (s : Spec ρ) : List Char :=
  s.flags.map Flag.ch ++ (s.width.text ref ++ (s.prec.text ref ++ (s.length.text ++ [s.conv.ch])))

def Spec.text (s : Spec ρ) : List Char := '%' :: (ref s.arg ++ s.tail ref)

def Item.text : Item ρ → List Char
  | .plain c _ => [c]
  | .directive s => s.text ref

def formatText (fmt : List (Item ρ)) : List Char := fmt.flatMap (Item.text ref)

def Flag.set (f : Flags) : Flag → Flags
  | .minus => { f with ladjust := true }
  | .plus => { f with sign := some '+' }
  | .space => { f with sign := if f.sign = none then some ' ' else f.sign }
  | .alt => { f with alt := true }
  | .zero => { f with zeropad := true }

def setH (f : Flags) : Flags :=
  if f.shortint then { f with charint := true, shortint := false } else { f with shortint := true }

def setL (f : Flags) : Flags :=
  if f.longint then { f with longdbl := true } else { f with longint := true }

def Length.set (f : Flags) : Length → Flags
  | .none => f
  | .hh => setH (setH f)
  | .h => setH f
  | .l => setL f
  | .ll => setL (setL f)
  | .j => { f with longdbl := true }
  | .z => { f with longint := true }
  | .t => f

def starWidth (f : Flags) (w : ℤ) : Flags × ℤ :=
  if 0 ≤ w then (f, w) else ({ f with ladjust := true }, int (-w))

/-- The `int` that a star stands for is `w`. -/
def Width.set (w : ℤ) (f : Flags) : Width ρ → Flags × ℤ
  | .none => (f, 0)
  | .literal n => (f, number n.list)
  | .star _ => starWidth f w

def Prec.set (p : ℤ) (f : Flags) : Prec ρ → Flags
  | .none => f
  | .literal ds => { f with prec := precision (number ds.list) }
  | .star _ => { f with prec := precision p }

/-- The flags and the width, when `w` and `p` are the width and the precision from the
arguments. -/
def Spec.set (s : Spec ρ) (w p : ℤ) : Flags × ℤ :=
  let r := s.width.set w (s.flags.foldl Flag.set {})
  (s.length.set (s.prec.set p r.1), r.2)

variable {a : Args} {trav : ℤ → Option ℕ} {n : ℕ} {d : Directive} {rest : List Char}

theorem rflag_flag (g : Flag) :
    rflag a trav (n + 1) (g.ch :: rest) d =
      rflag a trav n rest { d with flags := g.set d.flags } := by
  cases g <;> rfl

theorem rflag_flags (gs : List Flag) :
    rflag a trav (n + gs.length) (gs.map Flag.ch ++ rest) d =
      rflag a trav n rest { d with flags := gs.foldl Flag.set d.flags } := by
  induction gs generalizing d with
  | nil => rfl
  | cons g gs ih =>
      rw [List.length_cons, ← Nat.add_assoc, List.map_cons, List.cons_append, rflag_flag, ih]
      rfl

theorem rflag_length (m : Length) :
    rflag a trav (n + m.text.length) (m.text ++ rest) d =
      rflag a trav n rest { d with flags := m.set d.flags } := by
  cases m <;> rfl

theorem rflag_conv (v : Conv) :
    rflag a trav (n + 1) (v.ch :: rest) d = some (d, v.ch, rest) := by
  cases v <;> rfl

/-- The characters behind a number neither go on with it nor make it a position. -/
def Stops (rest : List Char) : Prop := ∃ c r, rest = c :: r ∧ isdigit c = false ∧ c ≠ '$'

theorem stops_length (m : Length) (v : Conv) (rest : List Char) :
    Stops (m.text ++ v.ch :: rest) := by
  cases m <;> cases v <;> exact ⟨_, _, rfl, by decide, by decide⟩

theorem stops_prec (p : Prec ρ) (h : Stops rest) : Stops (p.text ref ++ rest) := by
  cases p with
  | none => exact h
  | literal ds => exact ⟨'.', _, rfl, by decide, by decide⟩
  | star r => exact ⟨'.', _, rfl, by decide, by decide⟩

theorem Digits.takeWhile (ds : Digits) {c : Char} (hc : Doprnt.isdigit c = false) (r : List Char) :
    (ds.list ++ c :: r).takeWhile Doprnt.isdigit = ds.list := by
  rw [List.takeWhile_append_of_pos ds.isdigit, List.takeWhile_cons_of_neg (by simp [hc]),
    List.append_nil]

theorem Digits.dropWhile (ds : Digits) {c : Char} (hc : Doprnt.isdigit c = false) (r : List Char) :
    (ds.list ++ c :: r).dropWhile Doprnt.isdigit = c :: r := by
  rw [List.dropWhile_append_of_pos ds.isdigit, List.dropWhile_cons_of_neg (by simp [hc])]

theorem Digits.number_append (ds : Digits) {c : Char} (hc : Doprnt.isdigit c = false)
    (r : List Char) : number (ds.list ++ c :: r) = number ds.list := by
  have hself : ds.list.takeWhile Doprnt.isdigit = ds.list :=
    List.takeWhile_eq_self_iff.mpr ds.isdigit
  unfold number
  rw [ds.takeWhile hc, hself]

theorem Stops.digits (h : Stops rest) (ds : Digits) :
    (ds.list ++ rest).dropWhile Doprnt.isdigit = rest ∧
      number (ds.list ++ rest) = number ds.list := by
  obtain ⟨c, r, rfl, hc, -⟩ := h
  exact ⟨ds.dropWhile hc r, ds.number_append hc r⟩

theorem Numeral.isdigit_leading {c : Char} {r : List Char} (w : Numeral) (h : w.list = c :: r) :
    Doprnt.isdigit c = true :=
  w.isdigit c (by rw [h]; exact List.mem_cons_self)

/-- A digit other than zero starts a number. -/
theorem rflag_digit {c : Char} (hc : isdigit c = true) (h0 : c ≠ '0') (fmt : List Char) :
    rflag a trav (n + 1) (c :: fmt) d =
      match (c :: fmt).dropWhile isdigit with
      | '$' :: rest =>
          match trav (number (c :: fmt)) with
          | none => none
          | some p =>
              rflag a trav n rest
                { d with lists := { d.lists with numeric := true, toBePrinted := some p } }
      | rest => rflag a trav n rest { d with width := number (c :: fmt) } := by
  rw [rflag]
  · dsimp only
    exact if_pos hc
  all_goals
    rintro rfl
    revert hc h0
    decide

theorem rflag_literal (w : Numeral) (h : Stops rest) :
    rflag a trav (n + 1) (w.list ++ rest) d =
      rflag a trav n rest { d with width := number w.list } := by
  obtain ⟨hdrop, hnumber⟩ := h.digits w.toDigits
  obtain ⟨c, r, hw, h0⟩ := w.leading
  have hc := w.isdigit_leading hw
  obtain ⟨c', r', rfl, -, hdollar⟩ := h
  rw [hw, List.cons_append] at hdrop hnumber ⊢
  rw [rflag_digit hc h0, hdrop, hnumber]
  split
  · next h' => exact absurd (List.cons.inj h').1 hdollar
  · rfl

theorem rflag_position (w : Numeral) :
    rflag a trav (n + 1) (w.list ++ '$' :: rest) d =
      match trav (number w.list) with
      | none => none
      | some p =>
          rflag a trav n rest
            { d with lists := { d.lists with numeric := true, toBePrinted := some p } } := by
  have hdrop := w.dropWhile (c := '$') (by decide) rest
  have hnumber := w.number_append (c := '$') (by decide) rest
  obtain ⟨c, r, hw, h0⟩ := w.leading
  have hc := w.isdigit_leading hw
  rw [hw, List.cons_append] at hdrop hnumber ⊢
  rw [rflag_digit hc h0, hdrop, hnumber]
  rfl

theorem rflag_point (ds : Digits) (h : Stops rest) (hstar : rest.head? ≠ some '*') :
    rflag a trav (n + 1) ('.' :: (ds.list ++ rest)) d =
      rflag a trav n rest
        { d with flags := { d.flags with prec := precision (number ds.list) } } := by
  obtain ⟨hdrop, hnumber⟩ := h.digits ds
  rw [rflag]
  · rw [hdrop, hnumber]
  · intro fmt h'
    cases hds : ds.list with
    | nil => exact hstar (by rw [← List.nil_append rest, ← hds, h']; rfl)
    | cons c r =>
        rw [hds] at h'
        have hc := ds.isdigit c (by rw [hds]; exact List.mem_cons_self)
        rw [(List.cons.inj h').1] at hc
        exact absurd hc (by decide)

theorem rflag_star {w : ℤ} {lists : Lists} {fmt : List Char}
    (h : starArg a trav fmt d.lists = some (w, lists, rest)) :
    rflag a trav (n + 1) ('*' :: fmt) d =
      rflag a trav n rest ⟨(starWidth d.flags w).1, (starWidth d.flags w).2, lists⟩ := by
  rw [rflag, h]
  unfold starWidth
  dsimp only
  split_ifs <;> rfl

theorem rflag_point_star {p : ℤ} {lists : Lists} {fmt : List Char}
    (h : starArg a trav fmt d.lists = some (p, lists, rest)) :
    rflag a trav (n + 1) ('.' :: '*' :: fmt) d =
      rflag a trav n rest ⟨{ d.flags with prec := precision p }, d.width, lists⟩ := by
  rw [rflag, h]

/-- The reference of a width that comes from the arguments. -/
def Width.star? : Width ρ → Option ρ
  | .star r => some r
  | _ => Option.none

def Prec.star? : Prec ρ → Option ρ
  | .star r => some r
  | _ => Option.none

/-- A star with the reference `r` stands for `v`, and the lists become `l'`. Without a star
nothing happens. -/
def Fetches (a : Args) (trav : ℤ → Option ℕ) (ref : ρ → List Char) (r : Option ρ) (l : Lists)
    (v : ℤ) (l' : Lists) : Prop :=
  match r with
  | none => l' = l
  | some r => ∀ rest, Stops rest → starArg a trav (ref r ++ rest) l = some (v, l', rest)

def Width.rounds : Width ρ → ℕ
  | .none => 0
  | _ => 1

def Prec.rounds : Prec ρ → ℕ
  | .none => 0
  | _ => 1

variable {ref} {w p : ℤ} {l l₁ l₂ : Lists}

theorem rflag_width (x : Width ρ) (hd : d.width = 0) (h : Stops rest)
    (hw : Fetches a trav ref x.star? d.lists w l₁) :
    rflag a trav (n + x.rounds) (x.text ref ++ rest) d =
      rflag a trav n rest ⟨(x.set w d.flags).1, (x.set w d.flags).2, l₁⟩ := by
  cases x with
  | none =>
      obtain ⟨f, width, lists⟩ := d
      obtain rfl : width = 0 := hd
      obtain rfl : l₁ = lists := hw
      rfl
  | literal y =>
      obtain rfl : l₁ = d.lists := hw
      exact rflag_literal y h
  | star r => exact rflag_star (hw rest h)

theorem rflag_prec (x : Prec ρ) (h : Stops rest) (hstar : rest.head? ≠ some '*')
    (hp : Fetches a trav ref x.star? d.lists p l₁) :
    rflag a trav (n + x.rounds) (x.text ref ++ rest) d =
      rflag a trav n rest ⟨x.set p d.flags, d.width, l₁⟩ := by
  cases x with
  | none =>
      obtain rfl : l₁ = d.lists := hp
      rfl
  | literal ds =>
      obtain rfl : l₁ = d.lists := hp
      exact rflag_point ds h hstar
  | star r => exact rflag_point_star (hp rest h)

theorem Width.rounds_le (ref : ρ → List Char) (x : Width ρ) : x.rounds ≤ (x.text ref).length := by
  cases x with
  | none => exact Nat.le_refl 0
  | literal y =>
      obtain ⟨c, r, hy, -⟩ := y.leading
      simp only [rounds, text, hy, List.length_cons]
      omega
  | star r => simp only [rounds, text, List.length_cons]; omega

theorem Prec.rounds_le (ref : ρ → List Char) (x : Prec ρ) : x.rounds ≤ (x.text ref).length := by
  cases x <;> simp only [rounds, text, List.length_cons] <;> omega

theorem head_length_ne_star (m : Length) (v : Conv) (rest : List Char) :
    (m.text ++ v.ch :: rest).head? ≠ some '*' := by
  cases m <;> cases v <;> simp [Length.text, Conv.ch]

/-- The characters behind the number of the argument are read to what they set. -/
theorem rflag_tail (s : Spec ρ) (hw : Fetches a trav ref s.width.star? l w l₁)
    (hp : Fetches a trav ref s.prec.star? l₁ p l₂) (hn : (s.tail ref).length ≤ n) :
    rflag a trav n (s.tail ref ++ rest) { lists := l } =
      some (⟨(s.set w p).1, (s.set w p).2, l₂⟩, s.conv.ch, rest) := by
  have hwl := Width.rounds_le ref s.width
  have hpl := Prec.rounds_le ref s.prec
  have hlen : (s.tail ref).length = s.flags.length + ((s.width.text ref).length +
      ((s.prec.text ref).length + (s.length.text.length + 1))) := by
    simp only [Spec.tail, List.length_append, List.length_map, List.length_cons, List.length_nil]
  obtain ⟨k, rfl⟩ : ∃ k, n = k + 1 + s.length.text.length + s.prec.rounds + s.width.rounds +
      s.flags.length := ⟨n - (1 + s.length.text.length + s.prec.rounds + s.width.rounds +
      s.flags.length), by omega⟩
  have hstop := stops_length s.length s.conv rest
  unfold Spec.tail
  simp only [List.append_assoc, List.cons_append, List.nil_append]
  rw [rflag_flags, rflag_width s.width rfl (stops_prec ref s.prec hstop) hw,
    rflag_prec s.prec hstop (head_length_ne_star _ _ _) hp, rflag_length, rflag_conv]
  rfl

/-- A sequential format says nothing about places. -/
def noRef (_ : Unit) : List Char := []

theorem starArg_next (l : Lists) (h : Stops rest) :
    starArg a trav rest l = some ((a.word l.argp).toInt, { l with argp := l.argp + 1 }, rest) := by
  have hdrop := (h.digits ⟨[], by simp⟩).1
  obtain ⟨c, r, rfl, -, hdollar⟩ := h
  rw [List.nil_append] at hdrop
  unfold starArg
  rw [hdrop]
  split
  · next h' => exact absurd (List.cons.inj h').1 hdollar
  · rfl

def starWords (r : Option ρ) : ℕ := if r.isSome then 1 else 0

theorem fetches_next (r : Option Unit) (l : Lists) :
    Fetches a trav noRef r l (a.word l.argp).toInt { l with argp := l.argp + starWords r } := by
  cases r with
  | none => rfl
  | some r => exact fun rest h => starArg_next l h

/-- The place of the argument behind those of the width and the precision. -/
def Spec.place (s : Spec Unit) (argp : ℕ) : ℕ :=
  argp + starWords s.width.star? + starWords s.prec.star?

/-- The flags and the width of a directive whose arguments start at `argp`. -/
def Spec.setAt (s : Spec Unit) (a : Args) (argp : ℕ) : Flags × ℤ :=
  s.set (a.word argp).toInt (a.word (argp + starWords s.width.star?)).toInt

theorem rflag_sequential (s : Spec Unit) (l : Lists) (hn : (s.tail noRef).length ≤ n) :
    rflag a trav n (s.tail noRef ++ rest) { lists := l } =
      some (⟨(s.setAt a l.argp).1, (s.setAt a l.argp).2, { l with argp := s.place l.argp }⟩,
        s.conv.ch, rest) :=
  rflag_tail s (fetches_next _ l) (fetches_next _ _) hn

variable {cnt : ℤ} {fmt : List Char} {r : List Char × ℤ}

theorem loop_plain {c : Char} (h : c ≠ '%') :
    loop a trav (n + 1) (c :: fmt) l cnt =
      (loop a trav n fmt l (int (cnt + 1))).map fun r => (c :: r.1, r.2) := by
  rw [loop, if_pos h]

/-- A directive that is read and printed. -/
theorem loop_printed {v : Conv} (hread : rflag a trav (fmt.length + 1) fmt { lists := l } =
      some (d, v.ch, rest)) (hprint : conversion a d v.ch = some (r, l₁)) :
    loop a trav (n + 1) ('%' :: fmt) l cnt =
      (loop a trav n rest l₁ (int (cnt + r.2))).map fun q => (r.1 ++ q.1, q.2) := by
  have hnul : v.ch ≠ '\x00' := by cases v <;> decide
  rw [loop, if_neg (by simp), hread]
  dsimp only
  rw [if_neg hnul, hprint]

theorem formatText_cons (i : Item ρ) (fmt : List (Item ρ)) :
    formatText ref (i :: fmt) = i.text ref ++ formatText ref fmt := List.flatMap_cons

/-- What the loop knows of a sequential directive when it comes to the conversion. -/
def Spec.ready (s : Spec Unit) (a : Args) (l : Lists) : Directive :=
  ⟨(s.setAt a l.argp).1, (s.setAt a l.argp).2, { l with argp := s.place l.argp }⟩

theorem loop_sequential (s : Spec Unit) (hprint : conversion a (s.ready a l) s.conv.ch =
      some (r, l₁)) :
    loop a trav (n + 1) (s.text noRef ++ rest) l cnt =
      (loop a trav n rest l₁ (int (cnt + r.2))).map fun q => (r.1 ++ q.1, q.2) := by
  have hlen : (s.tail noRef).length ≤ (s.tail noRef ++ rest).length + 1 := by
    rw [List.length_append]
    omega
  exact loop_printed (rflag_sequential s l hlen) hprint

end DjgppLibc.DoprntLoop
