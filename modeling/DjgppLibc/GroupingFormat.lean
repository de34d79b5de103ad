import Mathlib.Data.List.Basic

/-!
# Grouping of digits (`ansi/stdio/doprnt.c`)

`__grouping_format` goes through the text from its end to its start and moves it to the
end of the buffer. What it has still to read is a list from the last character back;
`room` is the number of bytes between `src` and `dst`, and `grouping` is what is left of
the grouping string. The byte at `string_end`, which the source looks at, is given. A
read in front of the text, a read behind the NUL of the grouping string and a store over
a character that is still to be read stop the model.
-/
namespace DjgppLibc.GroupingFormat

def CHAR_MAX : ℕ := 127

inductive Fault where
  | beforeStart | behindNul | overwrites
  deriving DecidableEq, Repr

/-- The variables of the loop over the digits; `since` is `pos - dst`. -/
structure Cursor where
  dst : List Char
  room : ℕ
  since : ℕ := 0
  size : ℕ
  grouping : List ℕ
  deriving DecidableEq, Repr

variable (sep point : Char)

/-- `for (; *src != decimal_point; *--dst = *--src)`, where `cur` is `*src`. -/
def copyFraction : Char → List Char → List Char → Except Fault (List Char × List Char)
  | cur, [], dst => if cur = point then .ok ([], dst) else .error .beforeStart
  | cur, c :: src, dst => if cur = point then .ok (c :: src, dst) else copyFraction c src (c :: dst)

def separate (s : Cursor) : Except Fault Cursor :=
  if s.room = 0 then .error .overwrites
  else
    let s := { s with dst := sep :: s.dst, room := s.room - 1, since := 0 }
    if s.size = 0 then .ok s
    else
      match s.grouping with
      | [] => .error .behindNul
      | _ :: grouping =>
          let n := grouping.headD 0
          let size := if n = CHAR_MAX then 0 else if n ≠ 0 then n else s.size
          .ok { s with grouping, size }

def copyDigits : List Char → Cursor → Except Fault Cursor
  | [], s => .ok s
  | c :: src, s =>
      match if s.since = s.size then separate sep s else .ok s with
      | .error e => .error e
      | .ok s => copyDigits src { s with dst := c :: s.dst, since := s.since + 1 }

/-- From `pos = dst` on, up to the separator in front. -/
def groupDigits (grouping : List ℕ) (room : ℕ) (src dst : List Char) : Except Fault (List Char) :=
  let size := grouping.headD 0
  if size = CHAR_MAX then .ok (src.reverse ++ dst)
  else
    match copyDigits sep src { dst, room, size, grouping } with
    | .error e => .error e
    | .ok s => .ok s.dst

/-- The text from the pointer that `__grouping_format` returns to the end of the buffer. -/
def groupingFormat (grouping : List ℕ) (float : Bool) (behind : Char) (room : ℕ)
    (text : List Char) :
    Except Fault (List Char) :=
  match if float then copyFraction point behind text.reverse [] else .ok (text.reverse, []) with
  | .error e => .error e
  | .ok (src, dst) =>
      match groupDigits sep grouping room src dst with
      | .error e => .error e
      | .ok dst => .ok (if dst.head? = some sep then dst.tail else dst)

example : groupingFormat ',' '.' [3, 2] true '\x00' 9 "1234567.89".toList =
    .ok "12,34,567.89".toList := by
  decide

/-- The size of the next group. There is none when all that is left forms one group. -/
def groupSize : List ℕ → Option ℕ
  | [] => none
  | n :: _ => if n = CHAR_MAX then none else some n

def following : List ℕ → List ℕ
  | _ :: m :: sizes => m :: sizes
  | sizes => sizes

/-- Groups of digits, from the last one back, of the sizes that are prescribed. -/
inductive Grouped : List ℕ → List (List Char) → Prop
  | last {sizes : List ℕ} {g : List Char} : g ≠ [] → (∀ n, groupSize sizes = some n →
      g.length ≤ n) →
      Grouped sizes [g]
  | cons {sizes : List ℕ} {n : ℕ} {g : List Char} {gs : List (List Char)} :
      groupSize sizes = some n → g.length = n → Grouped (following sizes) gs →
      Grouped sizes (g :: gs)

def joined : List (List Char) → List Char
  | [] => []
  | [g] => g
  | g :: gs => joined gs ++ sep :: g

variable {sep point} {sizes : List ℕ} {g : List Char} {gs gs' : List (List Char)}

theorem Grouped.ne_nil (h : Grouped sizes gs) (hpos : ∀ n ∈ sizes, 0 < n) :
    gs ≠ [] ∧ gs.reverse.flatten ≠ [] := by
  cases h with
  | last hne _ => exact ⟨List.cons_ne_nil _ _, by simpa using hne⟩
  | @cons _ n g gs hsize hlen _ =>
      refine ⟨List.cons_ne_nil _ _, ?_⟩
      have hn : 0 < n := by
        cases sizes with
        | nil => cases hsize
        | cons m sizes =>
            unfold groupSize at hsize
            dsimp only at hsize
            split_ifs at hsize
            cases hsize
            exact hpos _ List.mem_cons_self
      have hg : g ≠ [] := List.ne_nil_of_length_pos (by omega)
      simp [hg]

theorem following_pos (hpos : ∀ n ∈ sizes, 0 < n) : ∀ n ∈ following sizes, 0 < n := by
  intro n hn
  cases sizes with
  | nil => exact hpos n hn
  | cons m sizes =>
      cases sizes with
      | nil => exact hpos n hn
      | cons k sizes => exact hpos n (List.mem_cons_of_mem m hn)

/-- The digits can be grouped in one way only. -/
theorem Grouped.unique (h : Grouped sizes gs) (h' : Grouped sizes gs') (hpos : ∀ n ∈ sizes, 0 < n)
    (hsame : gs.reverse.flatten = gs'.reverse.flatten) : gs = gs' := by
  induction h generalizing gs' with
  | @last sizes g hne hle =>
      cases h' with
      | last _ _ => simpa using hsame
      | @cons _ n g' gs' hsize hlen hrest =>
          exfalso
          have hmore := List.length_pos_of_ne_nil (hrest.ne_nil (following_pos hpos)).2
          have hlens := congrArg List.length hsame
          have hg := hle n hsize
          simp at hlens hmore
          omega
  | @cons sizes n g gs hsize hlen hrest ih =>
      cases h' with
      | @last _ g' hne hle =>
          exfalso
          have hmore := List.length_pos_of_ne_nil (hrest.ne_nil (following_pos hpos)).2
          have hlens := congrArg List.length hsame
          have hg := hle n hsize
          simp at hlens hmore
          omega
      | @cons _ n' g' gs' hsize' hlen' hrest' =>
          rw [hsize] at hsize'
          cases hsize'
          have hsplit : gs.reverse.flatten ++ g = gs'.reverse.flatten ++ g' := by simpa using hsame
          obtain ⟨hgs, hg⟩ := List.append_inj' hsplit (by omega)
          rw [hg, ih hrest' (following_pos hpos) hgs]

/-- What is left of the grouping string decides about the sizes that are prescribed; behind its
end the last element stays. -/
def Follows (grouping sizes : List ℕ) : Prop :=
  grouping = sizes ∧ sizes ≠ [] ∨ grouping = [] ∧ ∃ n, sizes = [n]

/-- The size that the loop goes by, where zero stands for none. -/
def sizeOf (sizes : List ℕ) : ℕ := (groupSize sizes).getD 0

theorem Follows.tail {grouping : List ℕ} (h : Follows grouping sizes) :
    Follows grouping.tail (following sizes) := by
  rcases h with ⟨rfl, hne⟩ | ⟨rfl, n, rfl⟩
  · cases grouping with
    | nil => exact absurd rfl hne
    | cons n rest =>
        cases rest with
        | nil => exact .inr ⟨rfl, n, rfl⟩
        | cons m rest => exact .inl ⟨rfl, List.cons_ne_nil _ _⟩
  · exact .inr ⟨rfl, n, rfl⟩

theorem size_following {n : ℕ} {grouping : List ℕ} (h : Follows (n :: grouping) sizes)
    (hpos : ∀ n ∈ sizes, 0 < n) :
    (let m := grouping.headD 0
      if m = CHAR_MAX then 0 else if m ≠ 0 then m else sizeOf sizes) =
        sizeOf (following sizes) := by
  rcases h with ⟨rfl, -⟩ | ⟨h, -⟩
  · cases grouping with
    | nil => rfl
    | cons m grouping =>
        have hm := hpos m (by simp)
        change (if m = CHAR_MAX then 0 else if m ≠ 0 then m else sizeOf _) =
          (if m = CHAR_MAX then none else some m).getD 0
        by_cases hmax : m = CHAR_MAX
        · rw [if_pos hmax, if_pos hmax]
          rfl
        · rw [if_neg hmax, if_neg hmax, if_pos (by omega)]
          rfl
  · cases h

/-- The state when the characters `p` of a group have been moved. -/
structure Within (sizes : List ℕ) (p tail : List Char) (s : Cursor) : Prop where
  dst : s.dst = p ++ tail
  since : s.since = p.length
  ne_nil : p ≠ []
  le : ∀ n, groupSize sizes = some n → p.length ≤ n
  size : s.size = sizeOf sizes
  grouping : Follows s.grouping sizes

def Cursor.next (s : Cursor) (sizes : List ℕ) (sep c : Char) : Cursor :=
  ⟨c :: sep :: s.dst, s.room - 1, 1, sizeOf (following sizes), s.grouping.tail⟩

variable {p tail : List Char} {s : Cursor} {c : Char}

theorem Within.next (h : Within sizes p tail s) (hpos : ∀ n ∈ sizes, 0 < n) (sep c : Char) :
    Within (following sizes) [c] (sep :: p ++ tail) (s.next sizes sep c) where
  dst := by rw [Cursor.next, h.dst]; rfl
  since := rfl
  ne_nil := List.cons_ne_nil _ _
  le n hn := by
    have hmem : n ∈ following sizes := by
      cases hsizes : following sizes with
      | nil =>
          rw [hsizes] at hn
          cases hn
      | cons m rest =>
          rw [hsizes, groupSize] at hn
          split_ifs at hn
          cases hn
          exact List.mem_cons_self
    exact following_pos hpos n hmem
  size := rfl
  grouping := h.grouping.tail

/-- A separator is due when the group is full. -/
theorem Within.due (h : Within sizes p tail s) :
    (∃ n, groupSize sizes = some n ∧ p.length = n) ↔ s.since = s.size := by
  have hpos := List.length_pos_of_ne_nil h.ne_nil
  rw [h.since, h.size, sizeOf]
  constructor
  · rintro ⟨n, hn, hlen⟩
    rw [hn]
    exact hlen
  · intro hlen
    cases hsize : groupSize sizes with
    | none =>
        rw [hsize, Option.getD_none] at hlen
        omega
    | some n =>
        rw [hsize] at hlen
        exact ⟨n, rfl, hlen⟩

theorem separate_due (h : Within sizes p tail s) (hdue : s.since = s.size)
    (hpos : ∀ n ∈ sizes, 0 < n) (sep c : Char) :
    match separate sep s with
    | .error _ => s.room = 0 ∨ s.grouping = []
    | .ok s' => s.room ≠ 0 ∧ s.grouping ≠ [] ∧
        { s' with dst := c :: s'.dst, since := s'.since + 1 } = s.next sizes sep c := by
  have hfull := List.length_pos_of_ne_nil h.ne_nil
  have hsize : s.size ≠ 0 := by
    rw [← hdue, h.since]
    omega
  unfold separate
  by_cases hroom : s.room = 0
  · rw [if_pos hroom]
    exact .inl hroom
  · rw [if_neg hroom]
    dsimp only
    rw [if_neg hsize]
    have hfollows := h.grouping
    cases hgrouping : s.grouping with
    | nil => exact .inr rfl
    | cons n grouping =>
        rw [hgrouping] at hfollows
        refine ⟨hroom, List.cons_ne_nil _ _, ?_⟩
        have hnext := size_following hfollows hpos
        dsimp only at hnext ⊢
        rw [h.size, hnext, Cursor.next, hgrouping]
        rfl

theorem joined_cons (sep : Char) (g : List Char) (h : gs ≠ []) :
    joined sep (g :: gs) = joined sep gs ++ sep :: g := by
  cases gs with
  | nil => exact absurd rfl h
  | cons g' gs => rfl

theorem copyDigits_spec (sep : Char) (src : List Char) (h : Within sizes p tail s)
    (hpos : ∀ n ∈ sizes, 0 < n) :
    ∃ gs, Grouped sizes gs ∧ gs.reverse.flatten = src.reverse ++ p ∧
      match copyDigits sep src s with
      | .error _ => s.room + 1 < gs.length ∨ s.grouping.length + 1 < gs.length
      | .ok s' => gs.length ≤ s.room + 1 ∧ gs.length ≤ s.grouping.length + 1 ∧
          s'.dst = joined sep gs ++ tail := by
  induction src generalizing sizes p tail s with
  | nil =>
      refine ⟨[p], .last h.ne_nil h.le, by simp, ?_⟩
      exact ⟨Nat.succ_le_succ (Nat.zero_le _), Nat.succ_le_succ (Nat.zero_le _), h.dst⟩
  | cons c src ih =>
      rw [copyDigits]
      by_cases hdue : s.since = s.size
      · obtain ⟨gs, hgs, hflat, hresult⟩ := ih (h.next hpos sep c) (following_pos hpos)
        obtain ⟨n, hn, hlen⟩ := h.due.mpr hdue
        have hne := (hgs.ne_nil (following_pos hpos)).1
        have hone := List.length_pos_of_ne_nil hne
        refine ⟨p :: gs, .cons hn hlen hgs, by simp [hflat], ?_⟩
        rw [if_pos hdue, List.length_cons]
        have hsep := separate_due h hdue hpos sep c
        cases hresult' : separate sep s with
        | error e =>
            rw [hresult'] at hsep
            rcases hsep with hroom | hgrouping
            · exact .inl (by omega)
            · exact .inr (by rw [hgrouping, List.length_nil]; omega)
        | ok s₁ =>
            rw [hresult'] at hsep
            obtain ⟨hroom, hgrouping, hnext⟩ := hsep
            have hleft := List.length_pos_of_ne_nil hgrouping
            dsimp only
            rw [hnext]
            cases hrest : copyDigits sep src (s.next sizes sep c) with
            | error e =>
                rw [hrest] at hresult
                simp only [Cursor.next, List.length_tail] at hresult
                exact hresult.imp (by omega) (by omega)
            | ok s' =>
                rw [hrest] at hresult
                simp only [Cursor.next, List.length_tail] at hresult
                obtain ⟨hroom', hleft', hdst⟩ := hresult
                refine ⟨by omega, by omega, ?_⟩
                rw [hdst, joined_cons sep p hne]
                simp
      · rw [if_neg hdue]
        have hmore : Within sizes (c :: p) tail { s with dst := c :: s.dst,
                                                         since := s.since + 1 } :=
          { h with
            dst := by rw [h.dst]; rfl
            since := by rw [h.since]; rfl
            ne_nil := List.cons_ne_nil _ _
            le := fun n hn => by
              have hle := h.le n hn
              have hlt : p.length ≠ n := fun hlen => hdue (h.due.mp ⟨n, hn, hlen⟩)
              rw [List.length_cons]
              omega }
        obtain ⟨gs, hgs, hflat, hresult⟩ := ih hmore hpos
        exact ⟨gs, hgs, by simp [hflat], hresult⟩

variable {w : List Char} {room : ℕ}

theorem groupDigits_spec (sep : Char) (room : ℕ) (tail : List Char) (hw : w ≠ [])
    (hsizes : sizes ≠ []) (hpos : ∀ n ∈ sizes, 0 < n) :
    ∃ gs, Grouped sizes gs ∧ gs.reverse.flatten = w ∧
      match groupDigits sep sizes room w.reverse tail with
      | .error _ => room + 1 < gs.length ∨ sizes.length + 1 < gs.length
      | .ok t => gs.length ≤ room + 1 ∧ gs.length ≤ sizes.length + 1 ∧ t = joined sep gs ++ tail := by
  obtain ⟨n, rest, rfl⟩ := List.exists_cons_of_ne_nil hsizes
  have hn := hpos n List.mem_cons_self
  unfold groupDigits
  dsimp only [List.headD_cons]
  by_cases hmax : n = CHAR_MAX
  · have hall : groupSize (n :: rest) = none := if_pos hmax
    rw [if_pos hmax, List.reverse_reverse]
    refine ⟨[w], .last hw fun m hm => ?_, by simp, ?_⟩
    · rw [hall] at hm
      cases hm
    · exact ⟨Nat.succ_le_succ (Nat.zero_le _), Nat.succ_le_succ (Nat.zero_le _), rfl⟩
  · have hsome : groupSize (n :: rest) = some n := if_neg hmax
    obtain ⟨c, src, hsrc⟩ := List.exists_cons_of_ne_nil (mt List.reverse_eq_nil_iff.mp hw)
    have hwithin : Within (n :: rest) [c] tail ⟨c :: tail, room, 1, n, n :: rest⟩ :=
      { dst := rfl, since := rfl, ne_nil := List.cons_ne_nil _ _
        le := fun m hm => by
          rw [hsome] at hm
          cases hm
          exact hn
        size := by rw [sizeOf, hsome]; rfl
        grouping := .inl ⟨rfl, hsizes⟩ }
    obtain ⟨gs, hgs, hflat, hresult⟩ := copyDigits_spec sep src hwithin hpos
    rw [← List.reverse_cons, ← hsrc, List.reverse_reverse] at hflat
    refine ⟨gs, hgs, hflat, ?_⟩
    have hfirst : ¬ (0 = n) := by omega
    rw [if_neg hmax, hsrc, copyDigits]
    dsimp only
    rw [if_neg hfirst]
    dsimp only
    cases hrun : copyDigits sep src ⟨c :: tail, room, 1, n, n :: rest⟩ with
    | error e =>
        rw [hrun] at hresult
        exact hresult
    | ok s' =>
        rw [hrun] at hresult
        exact hresult

theorem copyDigits_free (sep : Char) (src : List Char) (hsize : s.size = 0) (hsince : s.since ≠ 0) :
    ∃ s', copyDigits sep src s = .ok s' ∧ s'.dst = src.reverse ++ s.dst := by
  induction src generalizing s with
  | nil => exact ⟨s, rfl, rfl⟩
  | cons c src ih =>
      rw [copyDigits, if_neg (by rw [hsize]; exact hsince)]
      obtain ⟨s', hs', hdst⟩ := ih (s := { s with dst := c :: s.dst, since := s.since + 1 }) hsize
        (Nat.succ_ne_zero _)
      exact ⟨s', hs', by rw [hdst]; simp⟩

theorem groupDigits_empty (sep : Char) (room : ℕ) (tail : List Char) (hw : w ≠ []) {t : List Char}
    (h : groupDigits sep [] room w.reverse tail = .ok t) : t = w ++ sep :: tail := by
  obtain ⟨c, src, hsrc⟩ := List.exists_cons_of_ne_nil (mt List.reverse_eq_nil_iff.mp hw)
  unfold groupDigits at h
  rw [List.headD_nil, if_neg (by decide), hsrc, copyDigits, if_pos rfl, separate] at h
  by_cases hroom : room = 0
  · rw [if_pos hroom] at h
    cases h
  · obtain ⟨s', hs', hdst⟩ := copyDigits_free sep src
      (s := ⟨c :: sep :: tail, room - 1, 1, 0, []⟩) rfl Nat.one_ne_zero
    rw [if_neg hroom] at h
    dsimp only at h
    rw [if_pos rfl] at h
    dsimp only at h
    rw [hs'] at h
    cases h
    have hback : w = src.reverse ++ [c] := by
      rw [← List.reverse_cons, ← hsrc, List.reverse_reverse]
    rw [hdst, hback, List.append_assoc]
    rfl

/-- A grouping string of an `lconv`, without its NUL. -/
structure Grouping where
  sizes : List ℕ
  range : ∀ n ∈ sizes, 0 < n ∧ n ≤ CHAR_MAX

theorem Grouping.pos (grouping : Grouping) : ∀ n ∈ grouping.sizes, 0 < n :=
  fun n hn => (grouping.range n hn).1

/-- The text of a number: what stands before the decimal point, and the fraction with the point
when there is one, which takes a floating point conversion. -/
structure Numeral (point : Char) where
  digits : List Char
  fraction : List Char
  float : Bool
  digits_ne : digits ≠ []
  digits_point : point ∉ digits
  fraction_eq : fraction = [] ∨ float = true ∧ ∃ f, fraction = point :: f ∧ point ∉ f

def Numeral.text (n : Numeral point) : List Char := n.digits ++ n.fraction

/-- The digits are grouped as prescribed in front of the fraction, and nothing but the separators
has been added. -/
def Meets (sep : Char) (grouping : Grouping) (n : Numeral point) (r : Except Fault (List Char)) :
    Prop :=
  ∃ t, r = .ok t ∧
    (∃ gs, Grouped grouping.sizes gs ∧ gs.reverse.flatten = n.digits ∧
      t = joined sep gs ++ n.fraction) ∧
    t.filter (· ≠ sep) = n.text

/-- When `__grouping_format` does what it has to do. -/
structure Suits (sep : Char) (grouping : Grouping) (n : Numeral point) (behind : Char) (room : ℕ) :
    Prop where
  separator : sep ∉ n.text
  sizes : grouping.sizes ≠ []
  separators : ∀ gs, Grouped grouping.sizes gs → gs.reverse.flatten = n.digits →
    gs.length ≤ room + 1 ∧ gs.length ≤ grouping.sizes.length + 1
  marked : n.float = true → behind = point ∨ n.fraction ≠ []
  unmarked : n.float = true → behind = point → n.fraction ≠ [] →
    ∀ m, groupSize grouping.sizes = some m → n.text.length ≤ m

theorem copyFraction_stop (src dst : List Char) : copyFraction c c src dst = .ok (src, dst) := by
  cases src with
  | nil => exact if_pos rfl
  | cons d src => exact if_pos rfl

theorem copyFraction_point (h : c ∉ w) (src dst : List Char) {b : Char} (hb : b ≠ c) :
    copyFraction c b (w ++ c :: src) dst = .ok (src, c :: w.reverse ++ dst) := by
  induction w generalizing b dst with
  | nil =>
      rw [List.nil_append, copyFraction, if_neg hb]
      exact copyFraction_stop src _
  | cons d w ih =>
      rw [List.mem_cons, not_or] at h
      rw [List.cons_append, copyFraction, if_neg hb, ih h.2 _ (Ne.symm h.1)]
      simp

theorem copyFraction_none (h : c ∉ w) (dst : List Char) {b : Char} (hb : b ≠ c) :
    copyFraction c b w dst = .error .beforeStart := by
  induction w generalizing b dst with
  | nil => rw [copyFraction, if_neg hb]
  | cons d w ih =>
      rw [List.mem_cons, not_or] at h
      rw [copyFraction, if_neg hb, ih h.2 _ (Ne.symm h.1)]

/-- The part of the text whose digits are grouped, and what is moved before. -/
def Numeral.parts (n : Numeral point) (behind : Char) : List Char × List Char :=
  if n.float = true ∧ behind ≠ point then (n.digits, n.fraction) else (n.text, [])

theorem Numeral.parts_append (n : Numeral point) (behind : Char) :
    (n.parts behind).1 ++ (n.parts behind).2 = n.text := by
  unfold Numeral.parts
  split_ifs
  · rfl
  · exact List.append_nil _

theorem groupingFormat_eq (sep : Char) (n : Numeral point) (behind : Char) (room : ℕ)
    (hmarked : n.float = true → behind = point ∨ n.fraction ≠ []) :
    groupingFormat sep point sizes n.float behind room n.text =
      match groupDigits sep sizes room (n.parts behind).1.reverse (n.parts behind).2 with
      | .error e => .error e
      | .ok dst => .ok (if dst.head? = some sep then dst.tail else dst) := by
  unfold groupingFormat Numeral.parts
  cases hfloat : n.float with
  | false => rw [if_neg nofun, if_neg (fun h => nomatch h.1)]
  | true =>
      rw [if_pos rfl]
      by_cases hbehind : behind = point
      · rw [hbehind, copyFraction_stop, if_neg (fun h => h.2 rfl)]
      · rw [if_pos ⟨rfl, hbehind⟩]
        have hfraction := n.fraction_eq.resolve_left ((hmarked hfloat).resolve_left hbehind)
        obtain ⟨-, f, hf, hpoint⟩ := hfraction
        have hrev : n.text.reverse = f.reverse ++ point :: n.digits.reverse := by
          rw [Numeral.text, hf]
          simp
        rw [hrev, copyFraction_point (by simpa using hpoint) _ _ hbehind]
        dsimp only
        rw [hf, List.reverse_reverse, List.append_nil]

/-- Without a point the loop over the fraction runs out of the text. -/
theorem groupingFormat_beforeStart (sep : Char) (n : Numeral point) (behind : Char) (room : ℕ)
    (hfloat : n.float = true) (hbehind : behind ≠ point) (hfraction : n.fraction = []) :
    groupingFormat sep point sizes n.float behind room n.text = .error .beforeStart := by
  have hpoint : point ∉ n.text.reverse := by
    rw [Numeral.text, hfraction, List.append_nil]
    simpa using n.digits_point
  unfold groupingFormat
  rw [hfloat, if_pos rfl, copyFraction_none hpoint _ hbehind]

theorem joined_head (sep : Char) (h : Grouped sizes gs) (hpos : ∀ n ∈ sizes, 0 < n) :
    ∃ c t, joined sep gs = c :: t ∧ c ∈ gs.reverse.flatten := by
  induction h with
  | @last sizes g hne _ =>
      obtain ⟨c, t, rfl⟩ := List.exists_cons_of_ne_nil hne
      exact ⟨c, t, rfl, by simp⟩
  | @cons sizes n g gs _ _ hrest ih =>
      obtain ⟨c, t, hjoined, hc⟩ := ih (following_pos hpos)
      refine ⟨c, t ++ sep :: g, ?_, ?_⟩
      · rw [joined_cons sep g (hrest.ne_nil (following_pos hpos)).1, hjoined]
        rfl
      · rw [List.reverse_cons, List.flatten_append]
        exact List.mem_append_left _ hc

theorem filter_free (h : c ∉ w) : w.filter (· ≠ c) = w :=
  List.filter_eq_self.mpr fun _ hd => decide_eq_true fun hdc => h (hdc ▸ hd)

theorem joined_filter (h : Grouped sizes gs) (hpos : ∀ n ∈ sizes, 0 < n)
    (hsep : c ∉ gs.reverse.flatten) :
    (joined c gs).filter (· ≠ c) = gs.reverse.flatten := by
  induction h with
  | @last sizes g hne _ =>
      have hg : c ∉ g := by simpa using hsep
      rw [joined, filter_free hg]
      simp
  | @cons sizes n g gs _ _ hrest ih =>
      rw [List.reverse_cons, List.flatten_append, List.mem_append, not_or] at hsep
      have hg : c ∉ g := by simpa using hsep.2
      rw [joined_cons c g (hrest.ne_nil (following_pos hpos)).1, List.filter_append,
        ih (following_pos hpos) hsep.1, List.filter_cons_of_neg (by simp), filter_free hg]
      simp

theorem joined_suffix (sep : Char) (h : Grouped sizes gs) (hmore : gs.length ≠ 1) :
    ∃ n g, groupSize sizes = some n ∧ g.length = n ∧ g ∈ gs ∧ (sep :: g) <:+ joined sep gs := by
  cases h with
  | last _ _ => exact absurd rfl hmore
  | @cons _ n g gs hsize hlen hrest =>
      cases gs with
      | nil => cases hrest
      | cons g' gs =>
          refine ⟨n, g, hsize, hlen, List.mem_cons_self, ?_⟩
          rw [joined_cons sep g (List.cons_ne_nil _ _)]
          exact List.suffix_append _ _

variable {grouping : Grouping} {n : Numeral point} {behind : Char}

theorem Numeral.text_ne (n : Numeral point) : n.text ≠ [] := by
  unfold Numeral.text
  simp [n.digits_ne]

theorem Numeral.parts_ne (n : Numeral point) (behind : Char) : (n.parts behind).1 ≠ [] := by
  unfold Numeral.parts
  split_ifs
  · exact n.digits_ne
  · exact n.text_ne

theorem groupingFormat_spec (room : ℕ) (hsep : sep ∉ n.text) (hsizes : grouping.sizes ≠ [])
    (hmarked : n.float = true → behind = point ∨ n.fraction ≠ []) :
    ∃ gs, Grouped grouping.sizes gs ∧ gs.reverse.flatten = (n.parts behind).1 ∧
      match groupingFormat sep point grouping.sizes n.float behind room n.text with
      | .error _ => room + 1 < gs.length ∨ grouping.sizes.length + 1 < gs.length
      | .ok t => gs.length ≤ room + 1 ∧ gs.length ≤ grouping.sizes.length + 1 ∧
          t = joined sep gs ++ (n.parts behind).2 := by
  have hw := n.parts_ne behind
  have happend := n.parts_append behind
  rw [groupingFormat_eq sep n behind room hmarked]
  generalize (n.parts behind).1 = w at hw happend ⊢
  generalize (n.parts behind).2 = tail at happend ⊢
  obtain ⟨gs, hgs, hflat, hresult⟩ := groupDigits_spec sep room tail hw hsizes grouping.pos
  refine ⟨gs, hgs, hflat, ?_⟩
  cases hrun : groupDigits sep grouping.sizes room w.reverse tail with
  | error e =>
      rw [hrun] at hresult
      exact hresult
  | ok dst =>
      rw [hrun] at hresult
      obtain ⟨hroom, hleft, hdst⟩ := hresult
      -- no separator comes first
      obtain ⟨c, t, hjoined, hc⟩ := joined_head sep hgs grouping.pos
      have hfirst : ¬ dst.head? = some sep := by
        rw [hdst, hjoined]
        rintro h
        cases h
        rw [hflat] at hc
        exact hsep (happend ▸ List.mem_append_left _ hc)
      dsimp only
      rw [if_neg hfirst]
      exact ⟨hroom, hleft, hdst⟩

theorem groupingFormat_empty (hsep : sep ∉ n.text) {t : List Char}
    (hmarked : n.float = true → behind = point ∨ n.fraction ≠ [])
    (h : groupingFormat sep point [] n.float behind room n.text = .ok t) :
    t.length = n.text.length + 1 := by
  have hw := n.parts_ne behind
  have happend := n.parts_append behind
  rw [groupingFormat_eq sep n behind room hmarked] at h
  generalize (n.parts behind).1 = w at hw happend h
  generalize (n.parts behind).2 = tail at happend h
  cases hrun : groupDigits sep [] room w.reverse tail with
  | error e =>
      rw [hrun] at h
      cases h
  | ok dst =>
      have hdst := groupDigits_empty sep room tail hw hrun
      have hfirst : ¬ dst.head? = some sep := by
        obtain ⟨c, w', rfl⟩ := List.exists_cons_of_ne_nil hw
        rw [hdst]
        rintro h
        cases h
        exact hsep (happend ▸ List.mem_append_left _ List.mem_cons_self)
      rw [hrun] at h
      dsimp only at h
      rw [if_neg hfirst] at h
      cases h
      rw [hdst, ← happend, List.length_append, List.length_append, List.length_cons]
      omega

/-- The byte behind the text is taken for the point of a number with a fraction. -/
def Numeral.Misread (n : Numeral point) (behind : Char) : Prop :=
  n.float = true ∧ behind = point ∧ n.fraction ≠ []

theorem parts_misread (h : n.Misread behind) : n.parts behind = (n.text, []) :=
  if_neg fun h' => h'.2 h.2.1

theorem parts_read (h : ¬ n.Misread behind) : n.parts behind = (n.digits, n.fraction) := by
  unfold Numeral.parts
  by_cases hfloat : n.float = true ∧ behind ≠ point
  · rw [if_pos hfloat]
  · have hnone : n.fraction = [] := by
      rcases n.fraction_eq with hnone | ⟨htrue, -⟩
      · exact hnone
      · by_contra hne
        exact h ⟨htrue, not_not.mp fun hp => hfloat ⟨htrue, hp⟩, hne⟩
    rw [if_neg hfloat, Numeral.text, hnone, List.append_nil]

/-- A text whose point has been overlooked is right only when it takes no separator. -/
theorem alone_of_misread (hsep : sep ∉ n.text) (hfraction : n.fraction ≠ [])
    (hgs : Grouped sizes gs) (hgs' : Grouped sizes gs') (hdigits : gs'.reverse.flatten = n.digits)
    (hsame : joined sep gs = joined sep gs' ++ n.fraction) : gs.length = 1 := by
  by_contra hmore
  obtain ⟨m, g, hm, hlen, -, hsuffix⟩ := joined_suffix sep hgs hmore
  by_cases hmore' : gs'.length = 1
  · obtain ⟨g', rfl⟩ := List.length_eq_one_iff.mp hmore'
    have hg' : g' = n.digits := by simpa using hdigits
    rw [hsame, joined, hg'] at hsuffix
    exact hsep (hsuffix.subset List.mem_cons_self)
  · obtain ⟨m', g', hm', hlen', hmem, hsuffix'⟩ := joined_suffix sep hgs' hmore'
    rw [hm] at hm'
    cases hm'
    have hbehind : g' ++ n.fraction <:+ joined sep gs := by
      obtain ⟨x, hx⟩ := hsuffix'
      rw [hsame, ← hx]
      exact ⟨x ++ [sep], by simp⟩
    have hpos := List.length_pos_of_ne_nil hfraction
    have hinner := List.suffix_of_suffix_length_le hsuffix hbehind
      (by rw [List.length_cons, List.length_append]; omega)
    have hmem' := hinner.subset List.mem_cons_self
    rw [List.mem_append] at hmem'
    apply hsep
    rw [Numeral.text, List.mem_append]
    refine hmem'.imp_left fun hg => ?_
    rw [← hdigits]
    exact List.mem_flatten.mpr ⟨g', by simpa using hmem, hg⟩

theorem suits_of_meets
    (h : Meets sep grouping n
      (groupingFormat sep point grouping.sizes n.float behind room n.text)) :
    Suits sep grouping n behind room := by
  obtain ⟨t, ht, ⟨gs, hgs, hdigits, htext⟩, hfilter⟩ := h
  have hsep : sep ∉ n.text := by
    rw [← hfilter]
    simp
  have hmarked : n.float = true → behind = point ∨ n.fraction ≠ [] := by
    intro hfloat
    by_contra hnone
    rw [not_or, not_not] at hnone
    rw [groupingFormat_beforeStart sep n behind room hfloat hnone.1 hnone.2] at ht
    cases ht
  have hsizes : grouping.sizes ≠ [] := by
    intro hempty
    rw [hempty] at ht hgs
    have hlen := groupingFormat_empty hsep hmarked ht
    cases hgs with
    | last _ _ =>
        rw [joined] at htext
        simp only [List.reverse_singleton, List.flatten_singleton] at hdigits
        rw [htext, hdigits, Numeral.text] at hlen
        omega
    | cons hsize _ _ => cases hsize
  obtain ⟨gs₁, hgs₁, hflat, hresult⟩ := groupingFormat_spec room hsep hsizes hmarked
  rw [ht] at hresult
  obtain ⟨hroom, hleft, htext₁⟩ := hresult
  by_cases hmisread : n.Misread behind
  · rw [parts_misread hmisread] at hflat htext₁
    rw [List.append_nil] at htext₁
    have hone := alone_of_misread hsep hmisread.2.2 hgs₁ hgs hdigits (htext₁.symm.trans htext)
    obtain ⟨g, rfl⟩ := List.length_eq_one_iff.mp hone
    have hg : g = n.text := by simpa using hflat
    have hfits : ∀ m, groupSize grouping.sizes = some m → n.text.length ≤ m := by
      rw [← hg]
      cases hgs₁ with
      | last _ hle => exact hle
      | cons _ _ hrest => cases hrest
    refine ⟨hsep, hsizes, fun gs' hgs' hdigits' => ?_, hmarked, fun _ _ _ => hfits⟩
    have halone : Grouped grouping.sizes [n.digits] := .last n.digits_ne fun m hm => by
      have := hfits m hm
      rw [Numeral.text, List.length_append] at this
      omega
    rw [hgs'.unique halone grouping.pos (by simp [hdigits'])]
    exact ⟨Nat.succ_le_succ (Nat.zero_le _), Nat.succ_le_succ (Nat.zero_le _)⟩
  · rw [parts_read hmisread] at hflat
    refine ⟨hsep, hsizes, fun gs' hgs' hdigits' => ?_, hmarked, fun hfloat hbehind hfraction => ?_⟩
    · rw [hgs'.unique hgs₁ grouping.pos (hdigits'.trans hflat.symm)]
      exact ⟨hroom, hleft⟩
    · exact absurd ⟨hfloat, hbehind, hfraction⟩ hmisread

theorem meets_of_suits (h : Suits sep grouping n behind room) :
    Meets sep grouping n (groupingFormat sep point grouping.sizes n.float behind room n.text) := by
  have hfraction : sep ∉ n.fraction := fun hc => h.separator (List.mem_append_right _ hc)
  obtain ⟨gs, hgs, hflat, hresult⟩ := groupingFormat_spec room h.separator h.sizes h.marked
  by_cases hmisread : n.Misread behind
  · have hfits := h.unmarked hmisread.1 hmisread.2.1 hmisread.2.2
    rw [parts_misread hmisread] at hflat hresult
    have halone := hgs.unique (.last n.text_ne hfits) grouping.pos (by simpa using hflat)
    rw [halone] at hresult
    cases hrun : groupingFormat sep point grouping.sizes n.float behind room n.text with
    | error e =>
        rw [hrun] at hresult
        simp only [List.length_singleton] at hresult
        omega
    | ok t =>
        rw [hrun] at hresult
        have ht : t = n.text := hresult.2.2.trans (List.append_nil _)
        refine ⟨t, rfl, ⟨[n.digits], .last n.digits_ne fun m hm => ?_, by simp, ht⟩, ?_⟩
        · have := hfits m hm
          rw [Numeral.text, List.length_append] at this
          omega
        · rw [ht, filter_free h.separator]
  · rw [parts_read hmisread] at hflat hresult
    obtain ⟨hroom, hleft⟩ := h.separators gs hgs hflat
    cases hrun : groupingFormat sep point grouping.sizes n.float behind room n.text with
    | error e =>
        rw [hrun] at hresult
        dsimp only at hresult
        omega
    | ok t =>
        rw [hrun] at hresult
        have ht : t = joined sep gs ++ n.fraction := hresult.2.2
        refine ⟨t, rfl, ⟨gs, hgs, hflat, ht⟩, ?_⟩
        have hdigits : sep ∉ gs.reverse.flatten := by
          rw [hflat]
          exact fun hc => h.separator (List.mem_append_left _ hc)
        rw [ht, List.filter_append, joined_filter hgs grouping.pos hdigits, filter_free hfraction,
          hflat]
        rfl

/-- `__grouping_format` groups the digits as prescribed, keeps everything else and stays within
its strings if and only if the two suit each other. -/
theorem groupingFormat_meets_iff (sep point : Char) (grouping : Grouping) (n : Numeral point)
    (behind : Char) (room : ℕ) :
    Meets sep grouping n (groupingFormat sep point grouping.sizes n.float behind room n.text) ↔
      Suits sep grouping n behind room :=
  ⟨suits_of_meets, meets_of_suits⟩

/-- A million with the sizes `3`; a thousand with no size; and a float without a point. -/
theorem groupingFormat_goes_wrong :
    groupingFormat ',' '.' [3] false '\x00' 9 "1000000".toList = .error .behindNul ∧
    groupingFormat ',' '.' [] false '\x00' 9 "1000".toList = .ok "1000,".toList ∧
    groupingFormat ',' '.' [3] true '\x00' 9 "1000".toList = .error .beforeStart := by
  decide

end DjgppLibc.GroupingFormat
