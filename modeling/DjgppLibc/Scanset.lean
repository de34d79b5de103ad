import Mathlib.Data.BitVec
import Mathlib.Data.List.TakeWhile

/-!
# The scansets of `_getccl`

The text behind `%[` sets the bit `STP` of the bytes that stop the scan, in a table
that stays from call to call. A string is the list of its bytes without the NUL. A
hyphen between two characters in increasing order stands for all the characters from
the one to the other. `_getccl` marks those between the two, and counts on the two
being marked when it comes to them; where one is a hyphen that stands for a range
itself, it never is.
-/
namespace DjgppLibc.Doscan

def SPC : BitVec 8 := 1

def STP : BitVec 8 := 2

/-- `_sctab` -/
abbrev Table := BitVec 8 → BitVec 8

def initialTable : Table := fun c => if c = 0x20 ∨ 9 ≤ c ∧ c ≤ 13 then SPC else 0

def hyphen : BitVec 8 := 0x2d

def bracket : BitVec 8 := 0x5d

def caret : BitVec 8 := 0x5e

/-- `t ? (x | STP) : (x & ~STP)` -/
def marked (t : Bool) (x : BitVec 8) : BitVec 8 := if t then x ||| STP else x &&& ~~~STP

def Table.mark (sctab : Table) (t : Bool) (c : BitVec 8) : Table :=
  Function.update sctab c (marked t (sctab c))

/-- `n` rounds of the loop over the characters between the ends of a range. -/
def markBetween (t : Bool) : ℕ → ℕ → Table → Table
  | 0, _, sctab => sctab
  | n + 1, c, sctab => markBetween t n (c + 1) (sctab.mark t (BitVec.ofNat 8 c))

/-- The loop up to the closing bracket; `prev` is `s[-2]` when `c` has been read. -/
def getcclLoop (t : Bool) : BitVec 8 → List (BitVec 8) → Table → Table × List (BitVec 8)
  | _, [], sctab => (sctab, [])
  | prev, c :: s, sctab =>
      if c = bracket then (sctab, s)
      else
        match s.head? with
        | some next =>
            if c = hyphen ∧ next ≠ bracket ∧ prev < next then
              getcclLoop t c s
                (markBetween t (next.toNat - (prev.toNat + 1)) (prev.toNat + 1) sctab)
            else getcclLoop t c s (sctab.mark t c)
        | none => getcclLoop t c s (sctab.mark t c)

/-- The table behind the text of a scanset, and the rest of the format. -/
def getccl (sctab : Table) (s : List (BitVec 8)) : Table × List (BitVec 8) :=
  let t : Bool := s.head? = some caret
  let s := if t then s.tail else s
  let sctab : Table := fun c => marked (!t) (sctab c)
  match s with
  | c :: rest =>
      -- the first character is special
      if c = bracket ∨ c = hyphen then getcclLoop t c rest (sctab.mark t c)
      else getcclLoop t (if t then caret else 0x5b) s sctab
  | [] => (sctab, [])

def isComplement (s : List (BitVec 8)) : Bool := s.head? = some caret

def setText (s : List (BitVec 8)) : List (BitVec 8) := if isComplement s then s.tail else s

/-- The characters between the brackets: a bracket in front is one of them. -/
def setItems (s : List (BitVec 8)) : List (BitVec 8) :=
  match setText s with
  | [] => []
  | c :: rest => c :: rest.takeWhile (· ≠ bracket)

def behindSet (s : List (BitVec 8)) : List (BitVec 8) :=
  ((setText s).tail.dropWhile (· ≠ bracket)).tail

/-- At `i` a range starts. -/
def RangeAt (items : List (BitVec 8)) (i : ℕ) (lo hi : BitVec 8) : Prop :=
  items[i]? = some lo ∧ items[i + 1]? = some hyphen ∧ items[i + 2]? = some hi ∧ lo < hi

def Listed (items : List (BitVec 8)) (c : BitVec 8) : Prop :=
  ∃ i, items[i]? = some c ∧ ∀ j lo hi, RangeAt items j lo hi → i ≠ j + 1

def InScanset (items : List (BitVec 8)) (c : BitVec 8) : Prop :=
  Listed items c ∨ ∃ i lo hi, RangeAt items i lo hi ∧ lo ≤ c ∧ c ≤ hi

def Allowed (s : List (BitVec 8)) (c : BitVec 8) : Prop :=
  if isComplement s then ¬ InScanset (setItems s) c else InScanset (setItems s) c

variable {t : Bool} {items rest s : List (BitVec 8)} {prev lo hi c d : BitVec 8} {sctab : Table}

theorem marked_marked (t : Bool) (x : BitVec 8) : marked t (marked t x) = marked t x := by
  revert t x
  decide

theorem mark_apply (sctab : Table) (t : Bool) (c d : BitVec 8) :
    sctab.mark t c d = if d = c then marked t (sctab d) else sctab d := by
  unfold Table.mark
  split_ifs with h
  · rw [h, Function.update_self]
  · exact Function.update_of_ne h _ _

/-- What has been marked already may be marked again. -/
theorem markBetween_apply (t : Bool) (n c : ℕ) (hc : c + n ≤ 256) (sctab : Table) (d : BitVec 8) :
    markBetween t n c sctab d =
      if c ≤ d.toNat ∧ d.toNat < c + n then marked t (sctab d) else sctab d := by
  induction n generalizing c sctab with
  | zero => rw [markBetween, if_neg (by omega)]
  | succ n ih =>
      have heq : d = BitVec.ofNat 8 c ↔ d.toNat = c := by
        rw [← BitVec.toNat_inj, BitVec.toNat_ofNat, Nat.mod_eq_of_lt (by omega)]
      rw [markBetween, ih (c + 1) (by omega), mark_apply]
      simp only [heq]
      split_ifs <;> first | rfl | omega

/-- Behind `prev`, the text marks `c`. -/
def Marks (prev : BitVec 8) (s : List (BitVec 8)) (c : BitVec 8) : Prop :=
  (∃ i, s[i]? = some c ∧ ∀ j lo hi, RangeAt (prev :: s) j lo hi → i ≠ j) ∨
    ∃ i lo hi, RangeAt (prev :: s) i lo hi ∧ lo < c ∧ c < hi

theorem rangeAt_zero : RangeAt (prev :: d :: s) 0 lo hi ↔
    prev = lo ∧ d = hyphen ∧ s.head? = some hi ∧ lo < hi := by
  unfold RangeAt
  simp [List.head?_eq_getElem?]

theorem not_marks_nil : ¬ Marks prev [] c := by
  rintro (⟨i, hi, -⟩ | ⟨i, lo, hi, ⟨-, h, -⟩, -⟩)
  · cases hi
  · cases h

/-- The next character starts no range, and is marked. -/
theorem marks_cons_self (h : ∀ lo hi, ¬ RangeAt (prev :: d :: s) 0 lo hi) :
    Marks prev (d :: s) c ↔ c = d ∨ Marks d s c := by
  constructor
  · rintro (⟨i, hi, hself⟩ | ⟨i, lo, hi, hrange, hbetween⟩)
    · cases i with
      | zero => exact .inl (Option.some.inj hi).symm
      | succ i => exact .inr (.inl ⟨i, hi, fun j lo hi hj h => hself (j + 1) lo hi hj (by rw [h])⟩)
    · cases i with
      | zero => exact absurd hrange (h lo hi)
      | succ i => exact .inr (.inr ⟨i, lo, hi, hrange, hbetween⟩)
  · rintro (rfl | ⟨i, hi, hself⟩ | ⟨i, lo, hi, hrange, hbetween⟩)
    · refine .inl ⟨0, rfl, fun j lo hi hj h0 => ?_⟩
      subst h0
      exact h lo hi hj
    · refine .inl ⟨i + 1, hi, fun j lo hi hj heq => ?_⟩
      subst heq
      exact hself i lo hi hj rfl
    · exact .inr ⟨i + 1, lo, hi, hrange, hbetween⟩

theorem marks_cons_range (h : RangeAt (prev :: d :: s) 0 lo hi) :
    Marks prev (d :: s) c ↔ (lo < c ∧ c < hi) ∨ Marks d s c := by
  constructor
  · rintro (⟨i, hi', hself⟩ | ⟨i, lo', hi', hrange, hbetween⟩)
    · cases i with
      | zero => exact absurd rfl (hself 0 lo hi h)
      | succ i => exact .inr (.inl ⟨i, hi', fun j lo hi hj h => hself (j + 1) lo hi hj (by rw [h])⟩)
    · cases i with
      | zero =>
          obtain ⟨rfl, -, hhi, -⟩ := rangeAt_zero.mp h
          obtain ⟨rfl, -, hhi', -⟩ := rangeAt_zero.mp hrange
          obtain rfl := Option.some.inj (hhi.symm.trans hhi')
          exact .inl hbetween
      | succ i => exact .inr (.inr ⟨i, lo', hi', hrange, hbetween⟩)
  · rintro (hbetween | ⟨i, hi', hself⟩ | ⟨i, lo', hi', hrange, hbetween⟩)
    · exact .inr ⟨0, lo, hi, h, hbetween⟩
    · refine .inl ⟨i + 1, hi', fun j lo hi hj heq => ?_⟩
      subst heq
      exact hself i lo hi hj rfl
    · exact .inr ⟨i + 1, lo', hi', hrange, hbetween⟩

/-- A table in which just the characters with `P` have been marked. -/
def Marked (t : Bool) (sctab : Table) (P : BitVec 8 → Prop) (sctab' : Table) : Prop :=
  ∀ c, (P c → sctab' c = marked t (sctab c)) ∧ (¬ P c → sctab' c = sctab c)

theorem Marked.trans {P Q : BitVec 8 → Prop} {sctab₁ sctab₂ : Table} (h : Marked t sctab P sctab₁)
    (h' : Marked t sctab₁ Q sctab₂) : Marked t sctab (fun c => P c ∨ Q c) sctab₂ := by
  intro c
  by_cases hP : P c <;> by_cases hQ : Q c
  · refine ⟨fun _ => ?_, fun h => absurd (.inl hP) h⟩
    rw [(h' c).1 hQ, (h c).1 hP, marked_marked]
  · refine ⟨fun _ => ?_, fun h => absurd (.inl hP) h⟩
    rw [(h' c).2 hQ, (h c).1 hP]
  · refine ⟨fun _ => ?_, fun h => absurd (.inr hQ) h⟩
    rw [(h' c).1 hQ, (h c).2 hP]
  · refine ⟨fun h => absurd h (not_or.mpr ⟨hP, hQ⟩), fun _ => ?_⟩
    rw [(h' c).2 hQ, (h c).2 hP]

theorem Marked.congr {P Q : BitVec 8 → Prop} {sctab' : Table} (h : Marked t sctab P sctab')
    (hPQ : ∀ c, Q c ↔ P c) : Marked t sctab Q sctab' :=
  fun c => ⟨fun hQ => (h c).1 ((hPQ c).mp hQ), fun hQ => (h c).2 fun hP => hQ ((hPQ c).mpr hP)⟩

theorem marked_mark (c : BitVec 8) : Marked t sctab (· = c) (sctab.mark t c) := by
  intro d
  rw [mark_apply]
  exact ⟨fun h => if_pos h, fun h => if_neg h⟩

theorem marked_between (h : lo < hi) : Marked t sctab (fun c => lo < c ∧ c < hi)
    (markBetween t (hi.toNat - (lo.toNat + 1)) (lo.toNat + 1) sctab) := by
  have hhi := hi.isLt
  have hlt : lo.toNat < hi.toNat := h
  intro d
  rw [markBetween_apply t _ _ (by omega)]
  have hiff : (lo.toNat + 1 ≤ d.toNat ∧ d.toNat < lo.toNat + 1 + (hi.toNat - (lo.toNat + 1))) ↔
      lo < d ∧ d < hi := by
    rw [BitVec.lt_def, BitVec.lt_def]
    omega
  exact ⟨fun h => if_pos (hiff.mpr h), fun h => if_neg fun h' => h (hiff.mp h')⟩

/-- A character that starts no range. -/
theorem getcclLoop_self (hd : d ≠ bracket) (hs : ∀ x ∈ s, x ≠ bracket)
    (hrest : ∀ x ∈ rest.head?, x = bracket) (h : ∀ lo hi, ¬ RangeAt (prev :: d :: s) 0 lo hi) :
    getcclLoop t prev (d :: (s ++ rest)) sctab = getcclLoop t d (s ++ rest) (sctab.mark t d) := by
  rw [getcclLoop, if_neg hd]
  cases hnext : (s ++ rest).head? with
  | none => rfl
  | some next =>
      dsimp only
      apply if_neg
      rintro ⟨hhyphen, hbracket, hlt⟩
      cases s with
      | nil => exact hbracket (hrest next hnext)
      | cons x s => exact h prev next (rangeAt_zero.mpr ⟨rfl, hhyphen, hnext, hlt⟩)

theorem getcclLoop_range (hs : ∀ x ∈ s, x ≠ bracket) (h : RangeAt (prev :: d :: s) 0 lo hi) :
    getcclLoop t prev (d :: (s ++ rest)) sctab = getcclLoop t d (s ++ rest)
      (markBetween t (hi.toNat - (lo.toNat + 1)) (lo.toNat + 1) sctab) := by
  obtain ⟨rfl, rfl, hhead, hlt⟩ := rangeAt_zero.mp h
  have hnext : (s ++ rest).head? = some hi := by rw [List.head?_append, hhead]; rfl
  have hne : hi ≠ bracket := hs hi (List.mem_of_head? hhead)
  rw [getcclLoop, if_neg (by decide), hnext]
  exact if_pos ⟨rfl, hne, hlt⟩

theorem getcclLoop_marked (hs : ∀ x ∈ s, x ≠ bracket) (hrest : ∀ x ∈ rest.head?, x = bracket) :
    Marked t sctab (Marks prev s) (getcclLoop t prev (s ++ rest) sctab).1 ∧
      (getcclLoop t prev (s ++ rest) sctab).2 = rest.tail := by
  induction s generalizing prev sctab with
  | nil =>
      have hnone : Marked t sctab (Marks prev []) sctab :=
        fun c => ⟨fun h => absurd h not_marks_nil, fun _ => rfl⟩
      cases rest with
      | nil => exact ⟨hnone, rfl⟩
      | cons x rest =>
          obtain rfl := hrest x rfl
          exact ⟨hnone, rfl⟩
  | cons d s ih =>
      have hd : d ≠ bracket := hs d List.mem_cons_self
      have hs' : ∀ x ∈ s, x ≠ bracket := fun x hx => hs x (List.mem_cons_of_mem d hx)
      rw [List.cons_append]
      by_cases hrange : ∃ lo hi, RangeAt (prev :: d :: s) 0 lo hi
      · obtain ⟨lo, hi, hrange⟩ := hrange
        have hlt : lo < hi := hrange.2.2.2
        rw [getcclLoop_range hs' hrange]
        have hih := @ih d (markBetween t (hi.toNat - (lo.toNat + 1)) (lo.toNat + 1) sctab) hs'
        exact ⟨((marked_between hlt).trans hih.1).congr fun c => marks_cons_range hrange, hih.2⟩
      · have hnone : ∀ lo hi, ¬ RangeAt (prev :: d :: s) 0 lo hi :=
          fun lo hi h => hrange ⟨lo, hi, h⟩
        rw [getcclLoop_self hd hs' hrest hnone]
        have hih := @ih d (sctab.mark t d) hs'
        exact ⟨((marked_mark d).trans hih.1).congr fun c => marks_cons_self hnone, hih.2⟩

/-- What the loops mark: the characters that are listed, and those inside a range. -/
def Inside (items : List (BitVec 8)) (c : BitVec 8) : Prop :=
  Listed items c ∨ ∃ i lo hi, RangeAt items i lo hi ∧ lo < c ∧ c < hi

theorem inside_items (d : BitVec 8) (s : List (BitVec 8)) (c : BitVec 8) :
    Inside (d :: s) c ↔ c = d ∨ Marks d s c := by
  constructor
  · rintro (⟨i, hi, hself⟩ | hbetween)
    · cases i with
      | zero => exact .inl (Option.some.inj hi).symm
      | succ i => exact .inr (.inl ⟨i, hi, fun j lo hi hj h => hself j lo hi hj (by rw [h])⟩)
    · exact .inr (.inr hbetween)
  · rintro (rfl | ⟨i, hi, hself⟩ | hbetween)
    · exact .inl ⟨0, rfl, fun j _ _ _ => (Nat.succ_ne_zero j).symm⟩
    · exact .inl ⟨i + 1, hi, fun j lo hi hj h => hself j lo hi hj (Nat.succ.inj h)⟩
    · exact .inr hbetween

theorem behind_head (s : List (BitVec 8)) : ∀ x ∈ (s.dropWhile (· ≠ bracket)).head?, x =
    bracket := by
  intro x hx
  have hstop := List.head?_dropWhile_not (· ≠ bracket) s
  rw [hx] at hstop
  simpa using hstop

/-- From the first character on, which is marked in any case. -/
theorem getcclLoop_items (d : BitVec 8) (s : List (BitVec 8)) :
    Marked t sctab (Inside (d :: s.takeWhile (· ≠ bracket)))
        (getcclLoop t d s (sctab.mark t d)).1 ∧
      (getcclLoop t d s (sctab.mark t d)).2 = (s.dropWhile (· ≠ bracket)).tail := by
  have hs : ∀ x ∈ s.takeWhile (· ≠ bracket), x ≠ bracket := fun x hx => by
    simpa using List.mem_takeWhile_imp hx
  have hloop : Marked t (sctab.mark t d) (Marks d (s.takeWhile (· ≠ bracket)))
      (getcclLoop t d (s.takeWhile (· ≠ bracket) ++ s.dropWhile (· ≠ bracket))
        (sctab.mark t d)).1 ∧ _ := getcclLoop_marked hs (behind_head s)
  rw [List.takeWhile_append_dropWhile] at hloop
  exact ⟨((marked_mark d).trans hloop.1).congr fun c => inside_items d _ c, hloop.2⟩

theorem getcclLoop_plain (hbracket : d ≠ bracket) (hhyphen : d ≠ hyphen) :
    getcclLoop t prev (d :: s) sctab = getcclLoop t d s (sctab.mark t d) := by
  rw [getcclLoop, if_neg hbracket]
  cases s.head? with
  | none => rfl
  | some next => exact if_neg fun h => hhyphen h.1

theorem getccl_marked (sctab : Table) (s : List (BitVec 8)) :
    Marked (isComplement s) (fun c => marked (!isComplement s) (sctab c)) (Inside (setItems s))
        (getccl sctab s).1 ∧ (getccl sctab s).2 = behindSet s := by
  have hget : getccl sctab s = match setText s with
      | c :: rest =>
          if c = bracket ∨ c = hyphen then
            getcclLoop (isComplement s) c rest
              (Table.mark (fun c => marked (!isComplement s) (sctab c)) (isComplement s) c)
          else getcclLoop (isComplement s) (if isComplement s then caret else 0x5b) (setText s)
            fun c => marked (!isComplement s) (sctab c)
      | [] => (fun c => marked (!isComplement s) (sctab c), []) := rfl
  rw [hget]
  unfold setItems behindSet
  generalize isComplement s = t
  generalize setText s = text
  cases text with
  | nil =>
      refine ⟨fun c => ⟨fun h => ?_, fun _ => rfl⟩, rfl⟩
      rcases h with ⟨i, hi, -⟩ | ⟨i, lo, hi, ⟨h, -⟩, -⟩
      · cases hi
      · cases h
  | cons d rest =>
      dsimp only
      by_cases hspecial : d = bracket ∨ d = hyphen
      · rw [if_pos hspecial]
        exact getcclLoop_items d rest
      · obtain ⟨hbracket, hhyphen⟩ := not_or.mp hspecial
        rw [if_neg hspecial, getcclLoop_plain hbracket hhyphen]
        exact getcclLoop_items d rest

/-- Two hyphens in a row that both stand for ranges. -/
def TwinHyphens (items : List (BitVec 8)) : Prop :=
  ∃ i lo hi, RangeAt items i lo hyphen ∧ RangeAt items (i + 1) hyphen hi

/-- Every end of a range is marked, if it is no hyphen that stands for another one. -/
theorem inScanset_iff (items : List (BitVec 8)) (c : BitVec 8) :
    InScanset items c ↔ Inside items c ∨ c = hyphen ∧ TwinHyphens items := by
  constructor
  · rintro (h | ⟨i, lo, hi, hrange, hlo, hhi⟩)
    · exact .inl (.inl h)
    · obtain ⟨hat, hhyphen, hat', hlt⟩ := hrange
      by_cases hclo : c = lo
      · subst hclo
        by_cases hself : ∃ j lo' hi', RangeAt items j lo' hi' ∧ i = j + 1
        · obtain ⟨j, lo', hi', hj, rfl⟩ := hself
          obtain rfl : c = hyphen := Option.some.inj (hat.symm.trans hj.2.1)
          obtain rfl : hi' = hyphen := Option.some.inj (hj.2.2.1.symm.trans hhyphen)
          exact .inr ⟨rfl, j, lo', hi, hj, hat, hhyphen, hat', hlt⟩
        · exact .inl (.inl ⟨i, hat, fun j lo' hi' hj h => hself ⟨j, lo', hi', hj, h⟩⟩)
      · by_cases hchi : c = hi
        · subst hchi
          by_cases hself : ∃ j lo' hi', RangeAt items j lo' hi' ∧ i + 2 = j + 1
          · obtain ⟨j, lo', hi', hj, heq⟩ := hself
            obtain rfl : j = i + 1 := by omega
            obtain rfl : c = hyphen := Option.some.inj (hat'.symm.trans hj.2.1)
            obtain rfl : lo' = hyphen := Option.some.inj (hj.1.symm.trans hhyphen)
            exact .inr ⟨rfl, i, lo, hi', ⟨hat, hhyphen, hat', hlt⟩, hj⟩
          · exact .inl (.inl ⟨i + 2, hat', fun j lo' hi' hj h => hself ⟨j, lo', hi', hj, h⟩⟩)
        · have hlo' : lo < c := by
            rw [BitVec.lt_def]
            rw [BitVec.le_def] at hlo
            rw [← BitVec.toNat_inj] at hclo
            omega
          have hhi' : c < hi := by
            rw [BitVec.lt_def]
            rw [BitVec.le_def] at hhi
            rw [← BitVec.toNat_inj] at hchi
            omega
          exact .inl (.inr ⟨i, lo, hi, ⟨hat, hhyphen, hat', hlt⟩, hlo', hhi'⟩)
  · rintro ((h | ⟨i, lo, hi, hrange, hlo, hhi⟩) | ⟨rfl, i, lo, hi, hrange, hrange'⟩)
    · exact .inl h
    · exact .inr ⟨i, lo, hi, hrange, BitVec.le_of_lt hlo, BitVec.le_of_lt hhi⟩
    · exact .inr ⟨i, lo, hyphen, hrange, BitVec.le_of_lt hrange.2.2.2, BitVec.le_refl _⟩

/-- A byte has its bit clear. -/
def Clear (sctab : Table) (c : BitVec 8) : Prop := sctab c &&& STP = 0

theorem clear_marked (x : BitVec 8) (t : Bool) : marked t x &&& STP = 0 ↔ t = false := by
  revert x t
  decide

theorem spc_marked (x : BitVec 8) (t : Bool) : marked t x &&& SPC = x &&& SPC := by
  revert x t
  decide

/-- `_getccl` has done what it is for. -/
structure Accurate (sctab : Table) (s : List (BitVec 8)) : Prop where
  clear : ∀ c, Clear (getccl sctab s).1 c ↔ Allowed s c
  spc : ∀ c, (getccl sctab s).1 c &&& SPC = sctab c &&& SPC
  behind : (getccl sctab s).2 = behindSet s

theorem getccl_spc (sctab : Table) (s : List (BitVec 8)) (c : BitVec 8) :
    (getccl sctab s).1 c &&& SPC = sctab c &&& SPC := by
  obtain ⟨hin, hout⟩ := (getccl_marked sctab s).1 c
  by_cases h : Inside (setItems s) c
  · rw [hin h, spc_marked, spc_marked]
  · rw [hout h, spc_marked]

theorem getccl_clear (sctab : Table) (s : List (BitVec 8)) (c : BitVec 8) :
    Clear (getccl sctab s).1 c ↔ if isComplement s then ¬ Inside (setItems s) c
      else Inside (setItems s) c := by
  obtain ⟨hin, hout⟩ := (getccl_marked sctab s).1 c
  unfold Clear
  by_cases h : Inside (setItems s) c
  · rw [hin h, clear_marked]
    cases isComplement s <;> simp [h]
  · rw [hout h, clear_marked]
    cases isComplement s <;> simp [h]

theorem getccl_accurate_iff (sctab : Table) (s : List (BitVec 8)) :
    Accurate sctab s ↔ (TwinHyphens (setItems s) → Inside (setItems s) hyphen) := by
  have hsame : (∀ c, Clear (getccl sctab s).1 c ↔ Allowed s c) ↔
      ∀ c, Inside (setItems s) c ↔ InScanset (setItems s) c := by
    apply forall_congr'
    intro c
    rw [getccl_clear]
    unfold Allowed
    split_ifs
    · exact not_iff_not
    · rfl
  constructor
  · intro h htwin
    exact (hsame.mp h.clear hyphen).mpr ((inScanset_iff _ _).mpr (.inr ⟨rfl, htwin⟩))
  · intro h
    refine ⟨hsame.mpr fun c => ?_, getccl_spc sctab s, (getccl_marked sctab s).2⟩
    rw [inScanset_iff]
    refine ⟨.inl, fun hc => hc.elim id ?_⟩
    rintro ⟨rfl, htwin⟩
    exact h htwin

/-- `%[+--z]`: the hyphen ends the range from the plus, and stops the scan all the same. -/
theorem getccl_hyphen :
    Allowed [0x2b, 0x2d, 0x2d, 0x7a, 0x5d] hyphen ∧
      ¬ Clear (getccl (fun _ => 0) [0x2b, 0x2d, 0x2d, 0x7a, 0x5d]).1 hyphen :=
  have hrange : RangeAt [0x2b, 0x2d, 0x2d, 0x7a] 0 0x2b 0x2d := by
    unfold RangeAt
    decide
  ⟨.inr ⟨0, 0x2b, 0x2d, hrange, by decide, by decide⟩, by unfold Clear; decide⟩

end DjgppLibc.Doscan
