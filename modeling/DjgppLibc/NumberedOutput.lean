import DjgppLibc.NumberedScan
import Mathlib.Data.List.GetD
import Mathlib.Data.List.Perm.Subperm

/-!
# Numbered formats print what their sequential forms print

The two runs of the loop read a directive to the same flags, width and precision
and take the same words for its argument, so they put the same text. The numbered
run goes to the place that the scan returns; the sequential one finds the words
next in the permuted list.
-/
namespace DjgppLibc.DoprntLoop
open Doprnt (Flags)

variable {a b : Args} {size : ℕ → ℕ} {trav trav' : ℤ → Option ℕ} {fmt : List (Item Numeral)}
  {k n m p q : ℕ} {rest : List Char} {l : Lists} {f : Flags} {width cnt : ℤ}

/-- The list `ws` starts at `q`, and zeros follow it. -/
def Laid (b : Args) (q : ℕ) (ws : List (BitVec 32)) : Prop := ∀ j, b.word (q + j) = ws.getD j 0

theorem Laid.drop {ws ws' : List (BitVec 32)} (h : Laid b q (ws ++ ws')) :
    Laid b (q + ws.length) ws' := by
  intro j
  rw [Nat.add_assoc, h, List.getD_append_right _ _ _ _ (by omega)]
  congr 1
  omega

def SameWords (a : Args) (p : ℕ) (b : Args) (q words : ℕ) : Prop :=
  ∀ j < words, a.word (p + j) = b.word (q + j)

theorem SameWords.first {words : ℕ} (h : SameWords a p b q words) (hpos : 0 < words) :
    a.word p = b.word q := h 0 hpos

theorem SameWords.low {words w : ℕ} (h : SameWords a p b q words) (hpos : 0 < words)
    (hw : w ≤ 32) : (a.wide p).setWidth w = (b.wide q).setWidth w := by
  have hpart : ∀ (c : Args) (r : ℕ), (c.wide r).setWidth w = (c.word r).setWidth w := by
    intro c r
    have hword : (c.wide r).setWidth 32 = c.word r := BitVec.setWidth_append_eq_right
    rw [← hword, BitVec.setWidth_setWidth_of_le _ hw]
  rw [hpart, hpart, h.first hpos]

theorem SameWords.wide (h : SameWords a p b q 2) : a.wide p = b.wide q := by
  unfold Args.wide
  rw [h.first (by decide), h 1 (by decide)]

theorem argWords_pos (f : Flags) : 0 < argWords f := by
  unfold argWords
  split_ifs <;> decide

theorem argSigned_congr (h : SameWords a p b q (argWords f)) :
    Doprnt.argSigned f (a.wide p) = Doprnt.argSigned f (b.wide q) := by
  have hpos := argWords_pos f
  unfold Doprnt.argSigned
  rw [h.low hpos (Nat.le_refl 32), h.low hpos (show 16 ≤ 32 by decide)]
  split_ifs with hl
  · rw [argWords, if_pos hl] at h
    exact h.wide
  all_goals rfl

theorem argUnsigned_congr (h : SameWords a p b q (argWords f)) :
    Doprnt.argUnsigned f (a.wide p) = Doprnt.argUnsigned f (b.wide q) := by
  have hpos := argWords_pos f
  unfold Doprnt.argUnsigned
  rw [h.low hpos (Nat.le_refl 32), h.low hpos (show 16 ≤ 32 by decide)]
  split_ifs with hl
  · rw [argWords, if_pos hl] at h
    exact h.wide
  all_goals rfl

theorem signedField_congr (ch : Char) (h : SameWords a p b q (argWords f)) :
    signedField f width ch (a.wide p) = signedField f width ch (b.wide q) := by
  unfold signedField
  rw [argSigned_congr h]

theorem unsignedField_congr (ch : Char) (base : ℕ) (h : SameWords a p b q (argWords f)) :
    unsignedField f width ch base (a.wide p) = unsignedField f width ch base (b.wide q) := by
  unfold unsignedField
  rw [argUnsigned_congr h]

theorem stringField_congr (hmem : a.mem = b.mem) (x : BitVec 32) :
    stringField a f width x = stringField b f width x := by
  unfold stringField Args.char
  rw [hmem]

def Conv.words (v : Conv) (f : Flags) : ℕ :=
  match v with
  | .c | .s | .p => 1
  | .d | .i | .o | .u | .x | .X => argWords f

/-- A conversion depends on its own words and on the memory only. -/
theorem field_congr (v : Conv) (h : SameWords a p b q (v.words f)) (hmem : a.mem = b.mem) :
    field a f width v.ch p = field b f width v.ch q := by
  cases v with
  | c =>
      have hnone : ∀ c r, field c f width 'c' r = none := fun _ _ => rfl
      rw [Conv.ch, hnone, hnone]
  | d | i => exact congrArg (fun r => some (r, argWords f)) (signedField_congr _ h)
  | o | u | x | X => exact congrArg (fun r => some (r, argWords f)) (unsignedField_congr _ _ h)
  | s => simp only [field, Conv.ch, h.first Nat.one_pos, stringField_congr hmem]
  | p => simp only [field, Conv.ch, h.first Nat.one_pos]

theorem field_words (v : Conv) {r : (List Char × ℤ) × ℕ}
    (h : field a f width v.ch p = some r) : r.2 = v.words f := by
  cases v with
  | c => cases h
  | d | i | o | u | x | X | p => exact congrArg Prod.snd (Option.some.inj h).symm
  | s =>
      obtain ⟨_, -, rfl⟩ := Option.map_eq_some_iff.mp h
      rfl

/-- The conversion prints the same from either place. `%c` does not go to the place, so that
it has to be there. -/
theorem conversion_same (v : Conv) (hnul : b.HasNul) (hmem : a.mem = b.mem) {l' : Lists}
    (hl : l.place = some p) (hl' : l'.numeric = false) (hq : l'.argp = q)
    (hc : v = .c → l.argp = p) (h : SameWords a p b q (v.words f)) :
    ∃ r, conversion a ⟨f, width, l⟩ v.ch = some (r, { l with argp := p + v.words f }) ∧
      conversion b ⟨f, width, l'⟩ v.ch = some (r, { l' with argp := q + v.words f }) := by
  have hplace : l'.place = some q := by
    rw [← hq]
    unfold Lists.place
    rw [hl']
    rfl
  obtain ⟨r, hr, -⟩ := conversion_isSome hnul v ⟨f, width, l'⟩ hl'
  have hfield : ∀ (c : Args) (m : Lists) (x : ℕ), v ≠ .c → m.place = some x →
      conversion c ⟨f, width, m⟩ v.ch =
        (field c f width v.ch x).map fun r => (r.1, { m with argp := x + r.2 }) := by
    intro c m x hv hm
    cases v with
    | c => exact absurd rfl hv
    | d | i | o | u | x | X | s | p =>
        unfold conversion
        rw [if_neg (by decide), if_neg (by decide), if_pos (by decide)]
        dsimp only
        rw [hm]
  by_cases hv : v = .c
  · subst hv
    obtain rfl := hc rfl
    subst hq
    refine ⟨_, rfl, ?_⟩
    change some (_, _) = _
    rw [h.first Nat.one_pos]
    rfl
  · rw [hfield a l p hv hl, hfield b l' q hv hplace, field_congr v h hmem]
    rw [hfield b l' q hv hplace] at hr
    obtain ⟨t, ht, -⟩ := Option.map_eq_some_iff.mp hr
    rw [ht, ← field_words v ht]
    exact ⟨t.1, rfl, rfl⟩

/-- What the loop relies on for a reference. -/
structure Located (size : ℕ → ℕ) (trav : ℤ → Option ℕ) (r : ℕ × ℕ) : Prop where
  pos : 1 ≤ r.1
  le : r.1 ≤ INT_MAX
  words : r.2 = size r.1
  found : trav r.1 = some (start size r.1)

theorem starArg_posRef (r : Numeral) (rest : List Char) :
    starArg a trav (posRef r ++ rest) l =
      (trav (number (r.list ++ '$' :: rest))).map fun p =>
        ((a.word p).toInt, { l with argp := p + 1, numeric := true }, rest) := by
  have hdrop := r.dropWhile (c := '$') (by decide) rest
  rw [posRef_append]
  unfold starArg
  rw [hdrop]
  rfl

def starRef (r : Numeral) : ℕ × ℕ := (r.index, 1)

/-- The `int` of a star. -/
def starInt (a : Args) (size : ℕ → ℕ) : Option Numeral → ℤ
  | none => 0
  | some r => (a.word (start size r.index)).toInt

def Lists.star (l : Lists) (size : ℕ → ℕ) : Option Numeral → Lists
  | none => l
  | some r => { l with argp := start size (r.index + 1), numeric := true }

theorem fetches_located (l : Lists) (o : Option Numeral)
    (h : ∀ r, o = some r → Located size trav (starRef r)) :
    Fetches a trav posRef o l (starInt a size o) (l.star size o) := by
  cases o with
  | none => rfl
  | some r =>
      obtain ⟨hpos, hle, hwords, hfound⟩ := h r rfl
      dsimp only [starRef] at hpos hle hwords hfound
      intro rest _
      have hsucc : start size (r.index + 1) = start size r.index + 1 := by
        rw [start_succ size hpos, ← hwords]
      rw [starArg_posRef, number_index r hle, hfound, Option.map_some, ← hsucc]
      rfl

def Spec.listsAt (s : Spec Numeral) (size : ℕ → ℕ) (l : Lists) : Lists :=
  (({ l with numeric := true, toBePrinted := some (start size s.arg.index) } : Lists).star size
    s.width.star?).star size s.prec.star?

theorem mem_references_width {s : Spec Numeral} {r : Numeral} (h : s.width.star? = some r) :
    starRef r ∈ s.references := by
  simp [Spec.references, h, starRef]

theorem mem_references_prec {s : Spec Numeral} {r : Numeral} (h : s.prec.star? = some r) :
    starRef r ∈ s.references := by
  simp [Spec.references, h, starRef]

theorem mem_references_arg (s : Spec Numeral) : (s.arg.index, s.words) ∈ s.references := by
  simp [Spec.references]

theorem rflag_numbered (s : Spec Numeral) (rest : List Char)
    (h : ∀ r ∈ s.references, Located size trav r)
    (hn : (s.tail posRef).length ≤ n) :
    rflag a trav (n + 1) (posRef s.arg ++ (s.tail posRef ++ rest)) { lists := l } =
      some (⟨(s.set (starInt a size s.width.star?) (starInt a size s.prec.star?)).1,
        (s.set (starInt a size s.width.star?) (starInt a size s.prec.star?)).2,
        s.listsAt size l⟩, s.conv.ch, rest) := by
  have harg := h _ (mem_references_arg s)
  have hnumber : number s.arg.list = s.arg.index := number_eq_decimal s.arg.toDigits harg.le
  have hfound : trav s.arg.index = some (start size s.arg.index) := harg.found
  have hwidth : ∀ l : Lists, Fetches a trav posRef s.width.star? l _ (l.star size _) :=
    fun l => fetches_located l _ fun r hr => h _ (mem_references_width hr)
  have hprec : ∀ l : Lists, Fetches a trav posRef s.prec.star? l _ (l.star size _) :=
    fun l => fetches_located l _ fun r hr => h _ (mem_references_prec hr)
  rw [posRef_append, rflag_position, hnumber, hfound]
  exact rflag_tail s (hwidth _) (hprec _) hn

theorem Lists.star_place (o : Option Numeral) (h : l.numeric = true) :
    (l.star size o).place = l.place := by
  cases o with
  | none => rfl
  | some r =>
      unfold Lists.place
      rw [h]
      rfl

theorem Lists.star_numeric (o : Option Numeral) (h : l.numeric = true) :
    (l.star size o).numeric = true := by
  cases o with
  | none => exact h
  | some r => rfl

theorem Spec.listsAt_place (s : Spec Numeral) (l : Lists) :
    (s.listsAt size l).place = some (start size s.arg.index) := by
  unfold listsAt
  rw [Lists.star_place _ (Lists.star_numeric _ rfl), Lists.star_place _ rfl]
  rfl

/-- `argp` is behind the argument taken last. -/
theorem Lists.star_argp (o : Option Numeral) {prev : ℕ} (h : l.argp = start size (prev + 1)) :
    (l.star size o).argp = start size ((o.toList.map Numeral.index).getLastD prev + 1) := by
  cases o with
  | none => exact h
  | some r => rfl

theorem Spec.listsAt_argp (s : Spec Numeral) {prev : ℕ} (h : l.argp = start size (prev + 1)) :
    (s.listsAt size l).argp = start size
      (((s.width.star?.toList ++ s.prec.star?.toList).map Numeral.index).getLastD prev + 1) := by
  have hstart : ({ l with numeric := true, toBePrinted := some (start size s.arg.index) } :
      Lists).argp = start size (prev + 1) := h
  have hstars := Lists.star_argp s.prec.star? (Lists.star_argp s.width.star? hstart)
  rw [List.map_append]
  unfold listsAt
  rw [hstars]
  cases s.width.star? <;> cases s.prec.star? <;> rfl

theorem permuted_append (rs rs' : List (ℕ × ℕ)) :
    permuted size a (rs ++ rs') = permuted size a rs ++ permuted size a rs' := List.flatMap_append

theorem Laid.star {rs : List (ℕ × ℕ)} {ρ : Type} (o : Option Numeral) (o' : Option ρ)
    (ho : o'.isSome = o.isSome)
    (h : Laid b q (permuted size a (o.toList.map starRef ++ rs))) :
    (o.isSome → (b.word q).toInt = starInt a size o) ∧
      Laid b (q + starWords o') (permuted size a rs) := by
  rw [permuted_append] at h
  have hdrop := h.drop
  have hlen : (permuted size a (o.toList.map starRef)).length = starWords o' := by
    unfold starWords
    rw [ho]
    cases o <;> rfl
  rw [hlen] at hdrop
  refine ⟨fun hsome => ?_, hdrop⟩
  cases o with
  | none => cases hsome
  | some r => exact congrArg BitVec.toInt (h 0)

theorem Laid.arg {rs : List (ℕ × ℕ)} {i words : ℕ}
    (h : Laid b q (permuted size a ((i, words) :: rs))) :
    SameWords a (start size i) b q words ∧ Laid b (q + words) (permuted size a rs) := by
  have happend : permuted size a ((i, words) :: rs) =
      ((List.range words).map fun j => a.word (start size i + j)) ++ permuted size a rs :=
    List.flatMap_cons
  rw [happend] at h
  have hdrop := h.drop
  rw [List.length_map, List.length_range] at hdrop
  refine ⟨fun j hj => ?_, hdrop⟩
  rw [h j, List.getD_append _ _ _ _ (by simpa using hj),
    List.getD_eq_getElem _ _ (by simpa using hj),
    List.getElem_map, List.getElem_range]

theorem Width.set_sequential {ρ : Type} (x : Width ρ) (w : ℤ) (f : Flags) :
    x.sequential.set w f = x.set w f := by
  cases x <;> rfl

theorem Prec.set_sequential {ρ : Type} (x : Prec ρ) (w : ℤ) (f : Flags) :
    x.sequential.set w f = x.set w f := by
  cases x <;> rfl

theorem Width.star_sequential {ρ : Type} (x : Width ρ) :
    x.sequential.star?.isSome = x.star?.isSome := by
  cases x <;> rfl

theorem Prec.star_sequential {ρ : Type} (x : Prec ρ) :
    x.sequential.star?.isSome = x.star?.isSome := by
  cases x <;> rfl

theorem Width.set_congr {ρ : Type} (x : Width ρ) {w w' : ℤ} (h : x.star?.isSome → w = w')
    (f : Flags) : x.set w f = x.set w' f := by
  cases x with
  | star r => rw [h rfl]
  | none | literal n => rfl

theorem Prec.set_congr {ρ : Type} (x : Prec ρ) {w w' : ℤ} (h : x.star?.isSome → w = w')
    (f : Flags) : x.set w f = x.set w' f := by
  cases x with
  | star r => rw [h rfl]
  | none | literal n => rfl

theorem Spec.set_sequential {ρ : Type} (s : Spec ρ) {w w' p p' : ℤ}
    (hw : s.width.star?.isSome → w = w') (hp : s.prec.star?.isSome → p = p') :
    s.sequential.set w p = s.set w' p' := by
  unfold Spec.set Spec.sequential
  dsimp only
  rw [Width.set_sequential, Prec.set_sequential, s.width.set_congr hw, s.prec.set_congr hp]

/-- No length modifier has been read. -/
def NoLength (f : Flags) : Prop := f.longint = false ∧ f.longdbl = false

theorem noLength_flags (gs : List Flag) : NoLength (gs.foldl Flag.set {}) := by
  rw [foldl_set]
  exact ⟨rfl, rfl⟩

theorem NoLength.set_width {ρ : Type} (h : NoLength f) (x : Width ρ) (w : ℤ) :
    NoLength (x.set w f).1 := by
  cases x with
  | none | literal n => exact h
  | star r =>
      unfold Width.set starWidth
      split_ifs <;> exact h

theorem NoLength.set_prec {ρ : Type} (h : NoLength f) (x : Prec ρ) (w : ℤ) :
    NoLength (x.set w f) := by
  cases x <;> exact h

theorem NoLength.set_length (h : NoLength f) (m : Length) :
    (m.set f).longdbl = decide (m = .ll ∨ m = .j) := by
  obtain ⟨hlongint, hlongdbl⟩ := h
  cases m with
  | none | z | t => exact hlongdbl
  | h | hh =>
      unfold Length.set setH
      split_ifs <;> exact hlongdbl
  | j => rfl
  | l =>
      unfold Length.set setL
      rw [hlongint]
      exact hlongdbl
  | ll =>
      unfold Length.set setL
      rw [hlongint]
      rfl

/-- The words that the loop steps over are those of the reference. -/
theorem Spec.words_set {ρ : Type} (s : Spec ρ) (w p : ℤ) : s.conv.words (s.set w p).1 =
    s.words := by
  have hlong : (s.set w p).1.longdbl = decide (s.length = .ll ∨ s.length = .j) :=
    (((noLength_flags s.flags).set_width s.width w).set_prec s.prec p).set_length s.length
  unfold Conv.words Spec.words argWords
  rw [hlong]
  cases s.conv <;> simp only [decide_eq_true_eq]

theorem references_cons (s : Spec Numeral) (fmt : List (Item Numeral)) :
    references (.directive s :: fmt) = s.references ++ references fmt := List.flatMap_cons

theorem Laid.directive (s : Spec Numeral) {rs : List (ℕ × ℕ)}
    (h : Laid b q (permuted size a (s.references ++ rs))) :
    s.sequential.setAt b q = s.set (starInt a size s.width.star?) (starInt a size s.prec.star?) ∧
      SameWords a (start size s.arg.index) b (s.sequential.place q) s.words ∧
      Laid b (s.sequential.place q + s.words) (permuted size a rs) := by
  have hrefs : s.references ++ rs = s.width.star?.toList.map starRef ++
      (s.prec.star?.toList.map starRef ++ ((s.arg.index, s.words) :: rs)) := by
    unfold Spec.references starRef
    rw [List.map_append, List.append_assoc, List.append_assoc]
    rfl
  rw [hrefs] at h
  obtain ⟨hw, hrest⟩ := h.star _ s.sequential.width.star? s.width.star_sequential
  obtain ⟨hp, harg⟩ := hrest.star _ s.sequential.prec.star? s.prec.star_sequential
  exact ⟨s.set_sequential hw hp, harg.arg⟩

/-- The two lists between two directives; the argument taken last was `prev`. -/
structure Between₂ (a b : Args) (size : ℕ → ℕ) (fmt : List (Item Numeral)) (prev : ℕ)
    (l l' : Lists) : Prop where
  argp : l.argp = start size (prev + 1)
  numeric : l'.numeric = false
  laid : Laid b l'.argp (permuted size a (references fmt))

/-- Both loops print the same text. -/
theorem loop_numbered (hnul : b.HasNul) (hmem : a.mem = b.mem) {prev : ℕ} {l' : Lists} {n' : ℕ}
    (hrefs : ∀ r ∈ references fmt, Located size trav r) (hchars : CharsInPlace prev fmt)
    (hlists : Between₂ a b size fmt prev l l') (hn : (formatText posRef fmt).length < n)
    (hn' : (formatText noRef (fmt.map Item.sequential)).length < n') :
    loop a trav n (formatText posRef fmt) l cnt =
      loop b trav' n' (formatText noRef (fmt.map Item.sequential)) l' cnt := by
  induction fmt generalizing n n' prev l l' cnt with
  | nil =>
      obtain ⟨n, rfl⟩ : ∃ m, n = m + 1 := ⟨n - 1, by omega⟩
      obtain ⟨n', rfl⟩ : ∃ m, n' = m + 1 := ⟨n' - 1, by omega⟩
      rfl
  | cons i fmt ih =>
      obtain ⟨n, rfl⟩ : ∃ m, n = m + 1 := ⟨n - 1, by omega⟩
      obtain ⟨n', rfl⟩ : ∃ m, n' = m + 1 := ⟨n' - 1, by omega⟩
      rw [List.map_cons] at hn' ⊢
      rw [formatText_cons, List.length_append] at hn hn'
      rw [formatText_cons, formatText_cons]
      cases i with
      | plain c hc =>
          have hone : (Item.text posRef (.plain c hc)).length = 1 := rfl
          have hone' : (Item.text noRef (Item.plain c hc : Item Unit)).length = 1 := rfl
          change loop a trav (n + 1) (c :: _) l cnt = loop b trav' (n' + 1) (c :: _) l' cnt
          rw [loop_plain hc.1, loop_plain hc.1]
          congr 1
          exact ih hrefs hchars ⟨hlists.argp, hlists.numeric, hlists.laid⟩ (by omega)
            (by dsimp only [Item.sequential] at hn'; omega)
      | directive s =>
          obtain ⟨hargp, hnumeric, hlaid⟩ := hlists
          rw [references_cons] at hrefs hlaid
          obtain ⟨hset, hsame, hrest⟩ := hlaid.directive s
          have hwords := s.words_set (starInt a size s.width.star?) (starInt a size s.prec.star?)
          rw [← hwords] at hsame
          have hc : s.conv = .c → (s.listsAt size l).argp = start size s.arg.index := by
            intro hconv
            rw [s.listsAt_argp hargp, ← hchars.1 hconv]
          have hplaced : ({ l' with argp := s.sequential.place l'.argp } : Lists).numeric = false :=
            hnumeric
          obtain ⟨r, hr, hr'⟩ := conversion_same s.conv hnul hmem (s.listsAt_place l)
            hplaced rfl hc hsame
          have hlocated := hrefs _ (List.mem_append_left _ (mem_references_arg s))
          have hread := rflag_numbered (a := a) (l := l) s (formatText posRef fmt)
            (fun r hr => hrefs r (List.mem_append_left _ hr))
            (n := (posRef s.arg ++ (s.tail posRef ++ formatText posRef fmt)).length)
            (by simp only [List.length_append]; omega)
          change loop a trav (n + 1) ('%' :: ((posRef s.arg ++ s.tail posRef) ++ _)) l cnt =
            loop b trav' (n' + 1) (s.sequential.text noRef ++ _) l' cnt
          rw [List.append_assoc, loop_printed hread hr]
          rw [loop_sequential s.sequential (r := r) (by
            unfold Spec.ready
            rw [hset]
            exact hr')]
          congr 1
          refine ih (fun r hr => hrefs r (List.mem_append_right _ hr)) hchars.2 ⟨?_, hnumeric,
            ?_⟩ ?_ ?_
          · have hsize : s.words = size s.arg.index := hlocated.words
            rw [hwords, hsize, start_succ size hlocated.pos]
          · rw [hwords]
            exact hrest
          · exact Nat.lt_of_lt_of_le (Nat.lt_add_of_pos_left (by simp [Item.text, Spec.text]))
              (Nat.le_of_lt_succ hn)
          · exact Nat.lt_of_lt_of_le (Nat.lt_add_of_pos_left s.sequential.length_text)
              (Nat.le_of_lt_succ hn')

theorem length_posRef (r : Numeral) : 2 ≤ (posRef r).length := by
  obtain ⟨c, cs, hlist, -⟩ := r.leading
  simp only [posRef, hlist, List.length_append, List.length_cons, List.length_nil]
  omega

theorem Width.length_text (x : Width Numeral) :
    3 * x.star?.toList.length ≤ (x.text posRef).length := by
  cases x with
  | none | literal w => exact Nat.zero_le _
  | star r => exact Nat.succ_le_succ (length_posRef r)

theorem Prec.length_text (x : Prec Numeral) :
    3 * x.star?.toList.length ≤ (x.text posRef).length := by
  cases x with
  | none | literal w => exact Nat.zero_le _
  | star r => exact Nat.le_succ_of_le (Nat.succ_le_succ (length_posRef r))

theorem length_references (fmt : List (Item Numeral)) :
    3 * (references fmt).length ≤ (formatText posRef fmt).length := by
  induction fmt with
  | nil => exact Nat.le_refl 0
  | cons i fmt ih =>
      rw [formatText_cons, List.length_append]
      cases i with
      | plain c hc => exact Nat.le_add_left_of_le ih
      | directive s =>
          have hwidth := s.width.length_text
          have hprec := s.prec.length_text
          have harg := length_posRef s.arg
          rw [references_cons, List.length_append]
          simp only [Item.text, Spec.text, Spec.tail, Spec.references, List.length_append,
            List.length_cons, List.length_map, List.length_nil]
          omega

theorem Complete.lt_INT_MAX (h : Complete fmt k size)
    (hlen : (formatText posRef fmt).length < 4294967296) : k < INT_MAX := by
  have hsub : List.range' 1 k ⊆ (references fmt).map Prod.fst := by
    intro i hi
    rw [List.mem_range'_1] at hi
    obtain ⟨r, hr, rfl⟩ := h.all i hi.1 (by omega)
    exact List.mem_map_of_mem hr
  have hle := (List.Nodup.subperm List.nodup_range' hsub).length_le
  rw [List.length_range', List.length_map] at hle
  have hthree := length_references fmt
  unfold INT_MAX
  omega

theorem mem_references {s : Spec Numeral} (hs : Item.directive s ∈ fmt) {r : ℕ × ℕ}
    (hr : r ∈ s.references) : r ∈ references fmt := List.mem_flatMap.mpr ⟨_, hs, hr⟩

theorem Complete.fitting (h : Complete fmt k size) (hk : k < INT_MAX) : Fitting fmt size := by
  intro s hs
  have hle : ∀ r ∈ s.references, r.1 ≤ INT_MAX := fun r hr =>
    Nat.le_trans (h.inRange r (mem_references hs hr)).2 (Nat.le_of_lt hk)
  have hwords : ∀ r ∈ s.references, r.2 = size r.1 := fun r hr =>
    h.consistent r (mem_references hs hr)
  constructor
  · intro r hr
    exact ⟨hle _ (mem_references_width hr), (hwords _ (mem_references_width hr)).symm⟩
  · intro r hr
    exact ⟨hle _ (mem_references_prec hr), (hwords _ (mem_references_prec hr)).symm⟩
  · exact hle _ (mem_references_arg s)
  · exact hwords _ (mem_references_arg s)

theorem mem_marks {i : ℕ} {s : Spec Numeral} {words : ℕ} (h : (i, words) ∈ s.references) :
    some i ∈ s.marks := by
  unfold Spec.references at h
  unfold Spec.marks
  rw [List.mem_append, List.mem_map, List.mem_singleton] at h
  apply List.mem_append_right
  rcases h with ⟨r, hr, heq⟩ | heq
  · obtain rfl := (Prod.mk.inj heq).1
    rw [← List.append_assoc]
    apply List.mem_append_left
    rw [List.mem_append] at hr ⊢
    apply hr.imp
    · intro hr
      cases hw : s.width with
      | star r' =>
          rw [hw] at hr
          obtain rfl := List.mem_singleton.mp hr
          exact List.mem_singleton_self _
      | none | literal w => rw [hw] at hr; cases hr
    · intro hr
      cases hp : s.prec with
      | star r' =>
          rw [hp] at hr
          obtain rfl := List.mem_singleton.mp hr
          exact List.mem_singleton_self _
      | none | literal w => rw [hp] at hr; cases hr
  · obtain rfl := (Prod.mk.inj heq).1
    exact List.mem_append_right _ (List.mem_append_right _ (List.mem_singleton_self _))

theorem percent_mem {s : Spec Numeral} (hs : Item.directive s ∈ fmt) :
    '%' ∈ formatText posRef fmt :=
  List.mem_flatMap.mpr ⟨_, hs, List.mem_cons_self⟩

theorem exists_limit {P : ℕ → ℕ → Prop}
    (h : ∀ i, 1 ≤ i → i ≤ k → ∃ limit, ∀ fuel ≥ limit, P i fuel) :
    ∃ limit, ∀ fuel ≥ limit, ∀ i, 1 ≤ i → i ≤ k → P i fuel := by
  induction k with
  | zero => exact ⟨0, fun fuel _ i hi hi' => by omega⟩
  | succ k ih =>
      obtain ⟨limit, hlimit⟩ := ih fun i hi hi' => h i hi (Nat.le_succ_of_le hi')
      obtain ⟨last, hlast⟩ := h (k + 1) (Nat.le_add_left 1 k) (Nat.le_refl _)
      refine ⟨max limit last, fun fuel hfuel i hi hi' => ?_⟩
      rcases Nat.le_succ_iff.mp hi' with hle | rfl
      · exact hlimit fuel (Nat.le_trans (Nat.le_max_left _ _) hfuel) i hi hle
      · exact hlast fuel (Nat.le_trans (Nat.le_max_right _ _) hfuel)

theorem Complete.located (h : Complete fmt k size)
    (hlen : (formatText posRef fmt).length < 4294967296) (hread : Readable fmt k) :
    ∃ limit, ∀ fuel ≥ limit, ∀ r ∈ references fmt,
      Located size (traverseArgumentList fuel (formatText posRef fmt)) r := by
  have hk := h.lt_INT_MAX hlen
  have hmark : ∀ i, 1 ≤ i → i ≤ k → ∃ s, Item.directive s ∈ fmt ∧ some i ∈ s.marks := by
    intro i hi hi'
    obtain ⟨⟨_, words⟩, hr, rfl⟩ := h.all i hi hi'
    obtain ⟨item, hitem, hr⟩ := List.mem_flatMap.mp hr
    cases item with
    | plain c hc => cases hr
    | directive s => exact ⟨s, hitem, mem_marks hr⟩
  have hfinds : ∀ i, 1 ≤ i → i ≤ k → ∃ limit, ∀ fuel ≥ limit,
      traverseArgumentList fuel (formatText posRef fmt) i = some (start size i) := by
    intro i hi hi'
    obtain ⟨s, hs, -⟩ := hmark i hi hi'
    refine traverse_finds hread (h.fitting hk) hk (percent_mem hs) (fun j hj hj' => ?_) hi hi'
    obtain ⟨t, ht, hj⟩ := hmark j hj hj'
    exact List.mem_flatMap.mpr ⟨_, ht, hj⟩
  obtain ⟨limit, hlimit⟩ := exists_limit hfinds
  refine ⟨limit, fun fuel hfuel r hr => ?_⟩
  obtain ⟨hpos, hle⟩ := h.inRange r hr
  exact ⟨hpos, Nat.le_trans hle (Nat.le_of_lt hk), h.consistent r hr, hlimit fuel hfuel _ hpos hle⟩

/-- A numbered format in which the scan finds its way and every `%c` is in its place prints what
its sequential form prints from the permuted list. -/
theorem numbered_prints_sequential (a : Args) (h : a.HasNul)
    (hlen : (formatText posRef fmt).length < 4294967296) (hcomplete : Complete fmt k size)
    (hread : Readable fmt k) (hchars : CharsInPlace 0 fmt) :
    ∃ limit r, ∀ fuel ≥ limit, doprnt a fuel (formatText posRef fmt) = some r ∧
      doprnt (a.permuted size fmt) fuel (formatText noRef (fmt.map Item.sequential)) = some r := by
  obtain ⟨limit, hlimit⟩ := hcomplete.located hlen hread
  have hnul : (a.permuted size fmt).HasNul := h
  have hmem : a.mem = (a.permuted size fmt).mem := rfl
  have hlists : Between₂ a (a.permuted size fmt) size fmt 0 {} {} := by
    refine ⟨rfl, rfl, fun j => ?_⟩
    change (a.permuted size fmt).word (0 + j) = _
    rw [Nat.zero_add]
    rfl
  have hsame : ∀ n, ∀ fuel ≥ limit, doprnt a fuel (formatText posRef fmt) =
      doprnt (a.permuted size fmt) n (formatText noRef (fmt.map Item.sequential)) :=
    fun n fuel hfuel => loop_numbered hnul hmem (hlimit fuel hfuel) hchars hlists
      (Nat.lt_succ_self _) (Nat.lt_succ_self _)
  obtain ⟨text, c, hr⟩ := doprnt_isSome hnul 0 (fmt.map Item.sequential)
  refine ⟨limit, (text, c), fun fuel hfuel => ?_⟩
  have hfirst := (hsame 0 fuel hfuel).trans hr
  exact ⟨hfirst, (hsame fuel fuel hfuel).symm.trans hfirst⟩

def one : Numeral := ⟨⟨['1'], List.all_eq_true.mp rfl⟩, '1', [], rfl, by decide⟩

def two : Numeral := ⟨⟨['2'], List.all_eq_true.mp rfl⟩, '2', [], rfl, by decide⟩

/-- `%2$d%1$d`, or another conversion in the place of both. -/
def swapped (v : Conv) : List (Item Numeral) :=
  [.directive ⟨two, [], .none, .none, .none, v⟩, .directive ⟨one, [], .none, .none, .none, v⟩]

/-- The arguments `'A'` and `'B'`. -/
def letters : Args := ⟨fun p => if p = 0 then 65 else 66, fun _ => 0⟩

theorem letters_hasNul : letters.HasNul := ⟨0, by decide, rfl⟩

theorem complete_two (h : references fmt = [(2, 1), (1, 1)]) : Complete fmt 2 fun _ => 1 := by
  constructor
  · rw [h]
    decide
  · rw [h]
    decide
  · rw [h]
    intro i hi hi'
    obtain rfl | rfl : i = 1 ∨ i = 2 := by omega
    · exact ⟨(1, 1), by decide, rfl⟩
    · exact ⟨(2, 1), by decide, rfl⟩

theorem swapped_complete (v : Conv) : Complete (swapped v) 2 fun _ => 1 :=
  complete_two (by cases v <;> rfl)

theorem swapped_readable (v : Conv) : Readable (swapped v) 2 := by
  have hmarks : marks (swapped v) = [some 2, some 1] := by cases v <;> rfl
  exact .inr ⟨by rw [hmarks]; decide, .inl rfl⟩

theorem numbered_prints_sequential_swapped :
    ∃ limit r, ∀ fuel ≥ limit, doprnt letters fuel (formatText posRef (swapped .d)) = some r ∧
      doprnt (letters.permuted (fun _ => 1) (swapped .d)) fuel
        (formatText noRef ((swapped .d).map Item.sequential)) = some r :=
  numbered_prints_sequential letters letters_hasNul (by decide) (swapped_complete .d)
    (swapped_readable .d) ⟨nofun, nofun, trivial⟩

/-- `%2$5d%1$d`: the scan for the second argument reads the width as a number of an argument,
and skips the conversion. -/
def misread : List (Item Numeral) :=
  [.directive ⟨two, [], .literal ⟨⟨['5'], List.all_eq_true.mp rfl⟩, '5', [], rfl, by decide⟩, .none,
    .none, .d⟩,
    .directive ⟨one, [], .none, .none, .none, .d⟩]

def behindOne : Scan := { listIndex := 2, argIndex := 1, argp := 1 }

/-- The scan reads `2$`, `5d`, `%`, `1$` and `d`, and is back at the start. -/
theorem scan_round (n : ℕ) {s : Scan} (hs : s = {} ∨ s = behindOne) :
    scan (formatText posRef misread) 2 (n + 5) (formatText posRef misread).tail s =
      scan (formatText posRef misread) 2 n (formatText posRef misread).tail behindOne := by
  have htail : (formatText posRef misread).tail = ['2', '$', '5', 'd', '%', '1', '$', 'd'] := rfl
  have hone : number ['1', '$', 'd'] = 1 := by decide
  have hfive : number ['5', 'd', '%', '1', '$', 'd'] = 5 := by decide
  have hint : int 3 = 3 := by decide
  generalize formatText posRef misread = text at htail
  rw [htail]
  rcases hs with rfl | rfl <;>
    simp [scan, scanWords, behindOne, nextBody, Doprnt.isdigit, htail, hone, hfive, hint,
      Scan.refer]

theorem scan_circles {n : ℕ} {s : Scan} (hs : s = {} ∨ s = behindOne) :
    scan (formatText posRef misread) 2 n (formatText posRef misread).tail s = none := by
  induction n using Nat.strong_induction_on generalizing s with
  | h n ih =>
      rcases Nat.lt_or_ge n 5 with hlt | hle
      · have hn : n = 0 ∨ n = 1 ∨ n = 2 ∨ n = 3 ∨ n = 4 := by omega
        rcases hs with rfl | rfl <;> rcases hn with rfl | rfl | rfl | rfl | rfl <;> rfl
      · obtain ⟨m, rfl⟩ : ∃ m, n = m + 5 := ⟨n - 5, by omega⟩
        rw [scan_round m hs]
        exact ih m (by omega) (.inr rfl)

theorem traverse_circles (n : ℕ) : traverseArgumentList n (formatText posRef misread) 2 = none :=
  scan_circles (.inl rfl)

theorem loop_lost {fmt : List Char} (h : rflag a trav (fmt.length + 1) fmt { lists := l } = none) :
    loop a trav (n + 1) ('%' :: fmt) l cnt = none := by
  rw [loop, if_neg (by simp), h]

theorem misread_never_ends (n : ℕ) : doprnt letters n (formatText posRef misread) = none := by
  apply loop_lost
  change rflag letters _ _ (two.list ++ '$' :: _) _ = none
  rw [rflag_position, show number two.list = 2 by decide, traverse_circles]

/-- `%2$c%1$c` takes its arguments in their order, and `AB` is not `BA`. -/
theorem swapped_in_order : ¬ ∃ limit r, ∀ fuel ≥ limit,
    doprnt letters fuel (formatText posRef (swapped .c)) = some r ∧
      doprnt (letters.permuted (fun _ => 1) (swapped .c)) fuel
        (formatText noRef ((swapped .c).map Item.sequential)) = some r := by
  rintro ⟨limit, r, hr⟩
  have hnumbered : doprnt letters (limit + 12) (formatText posRef (swapped .c)) =
      some (['A', 'B'], 2) := rfl
  have hsequential : doprnt (letters.permuted (fun _ => 1) (swapped .c)) (limit + 12)
      (formatText noRef ((swapped .c).map Item.sequential)) = some (['B', 'A'], 2) := rfl
  have hboth := hr (limit + 12) (Nat.le_add_right limit 12)
  rw [hnumbered, hsequential] at hboth
  exact absurd (hboth.1.trans hboth.2.symm) (by decide)

/-- Of two complete formats one prints the wrong text, and the other one nothing. -/
theorem numbered_goes_wrong :
    letters.HasNul ∧
    (Complete (swapped .c) 2 (fun _ => 1) ∧ ¬ ∃ limit r, ∀ fuel ≥ limit,
      doprnt letters fuel (formatText posRef (swapped .c)) = some r ∧
        doprnt (letters.permuted (fun _ => 1) (swapped .c)) fuel
          (formatText noRef ((swapped .c).map Item.sequential)) = some r) ∧
    (Complete misread 2 (fun _ => 1) ∧
      ∀ fuel, doprnt letters fuel (formatText posRef misread) = none) :=
  ⟨letters_hasNul, ⟨swapped_complete .c, swapped_in_order⟩, complete_two rfl, misread_never_ends⟩

end DjgppLibc.DoprntLoop
