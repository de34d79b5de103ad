import Mathlib.Data.List.TakeWhile
import DjgppLibc.CStrings
import DjgppLibc.Wildcards

/-!
# Matching file names (`posix/fnmatch/fnmatch.c`)

Bytes of a range are compared as `char`, which is signed, and as what
`toupper` makes of them, which is not.

The language of a pattern is defined apart from the code: the pattern is cut
into tokens, a bracket being everything up to the first `]`, and each token is
a piece of a pattern with wildcards.
-/
namespace DjgppLibc.Fnmatch

open CStrings Wildcards

structure Flags where
  noescape : Bool
  pathname : Bool
  nocase : Bool
deriving DecidableEq

def FNM_NOMATCH : ℕ := 1

def isslash (c : UInt8) : Bool := c = '\\'.toUInt8 || c = '/'.toUInt8

def findSlash : List UInt8 → Option (List UInt8)
  | [] => none
  | c :: s => if isslash c then some (c :: s) else findSlash s

/-- `c <= test`, as signed characters. -/
def charLe (c test : UInt8) : Bool := c.toInt8 ≤ test.toInt8

variable (L : CStrings.Locale)

/-- `test` is in the range from `c` to `c2`. -/
def inRange (nocase : Bool) (test c c2 : UInt8) : Bool :=
  charLe c test && charLe test c2 ||
    nocase && decide (L.toupper c ≤ L.toupper test) && decide (L.toupper test ≤ L.toupper c2)

/-- `test` is the character `c`. -/
def isMember (nocase : Bool) (test c : UInt8) : Bool :=
  c = test || nocase && decide (L.toupper c = L.toupper test)

/-- The loop of `rangematch`: whether a member was met, and the pattern behind
the bracket, if it is closed. -/
def rangeLoop (nocase : Bool) (test : UInt8) : Bool → List UInt8 → Option (Bool × List UInt8)
  | _, [] => none
  | ok, c :: pattern =>
      if c = ']'.toUInt8 then some (ok, pattern)
      else
        match pattern with
        | d :: c2 :: rest =>
            if d = '-'.toUInt8 ∧ c2 ≠ ']'.toUInt8 then
              rangeLoop nocase test (ok || inRange L nocase test c c2) rest
            else rangeLoop nocase test (ok || isMember L nocase test c) (d :: c2 :: rest)
        | [d] => rangeLoop nocase test (ok || isMember L nocase test c) [d]
        | [] => rangeLoop nocase test (ok || isMember L nocase test c) []

def rangematch (nocase : Bool) (test : UInt8) (pattern : List UInt8) : Option (List UInt8) :=
  let negate := decide (pattern.head? = some '!'.toUInt8)
  match rangeLoop L nocase test false (if negate then pattern.drop 1 else pattern) with
  | none => none
  | some (ok, rest) => if ok = negate then none else some rest

/-- The loop of the general case: every place of the text but its end is tried,
under `FNM_PATHNAME` up to the first slash. -/
def starLoop (pathname : Bool) (match' : List UInt8 → ℕ) : List UInt8 → ℕ
  | [] => FNM_NOMATCH
  | test :: string =>
      if match' (test :: string) = 0 then 0
      else if isslash test ∧ pathname then FNM_NOMATCH
      else starLoop pathname match' string

def isQuotable (c : UInt8) : Bool :=
  c = '*'.toUInt8 || c = '?'.toUInt8 || c = '['.toUInt8 || c = '\\'.toUInt8

/-- `pattern[1]`. A backslash that ends the pattern looks behind its NUL. -/
def second (beyond : UInt8) : List UInt8 → UInt8
  | [] => beyond
  | [_] => 0
  | _ :: d :: _ => d

theorem rangeLoop_length {nocase : Bool} {test : UInt8} {ok ok' : Bool}
    {pattern rest : List UInt8} (h : rangeLoop L nocase test ok pattern = some (ok', rest)) :
    rest.length < pattern.length := by
  fun_induction rangeLoop L nocase test ok pattern with
  | case1 => cases h
  | case2 ok pattern =>
      cases h
      exact Nat.lt_succ_self _
  | case3 ok c _ d c2 rest' _ ih =>
      have := ih h
      simp only [List.length_cons]
      omega
  | case4 ok c _ d c2 rest' _ ih =>
      have := ih h
      simp only [List.length_cons] at this ⊢
      omega
  | case5 ok c _ d ih =>
      have := ih h
      simp only [List.length_cons] at this ⊢
      omega
  | case6 ok c _ ih =>
      have := ih h
      simp only [List.length_cons]
      omega

theorem rangematch_length {nocase : Bool} {test : UInt8} {pattern rest : List UInt8}
    (h : rangematch L nocase test pattern = some rest) : rest.length < pattern.length := by
  unfold rangematch at h
  dsimp only at h
  split at h
  · cases h
  · rename_i ok rest' hl
    have hlen := rangeLoop_length L hl
    have hdrop : (if decide (pattern.head? = some '!'.toUInt8) then pattern.drop 1
        else pattern).length ≤ pattern.length := by
      split
      · rw [List.length_drop]
        omega
      · exact Nat.le_refl _
    split at h
    · cases h
    · cases h
      omega

/-- `fnmatch`. -/
def fnmatch (beyond : UInt8) (f : Flags) (pattern string : List UInt8) : ℕ :=
  match pattern with
  | [] => if string = [] then 0 else FNM_NOMATCH
  | c :: pattern =>
      if c = '?'.toUInt8 then
        match string with
        | [] => FNM_NOMATCH
        | test :: string =>
            if isslash test ∧ f.pathname then FNM_NOMATCH else fnmatch beyond f pattern string
      else if c = '*'.toUInt8 then
        -- collapse multiple stars
        match _h : pattern.dropWhile (· = '*'.toUInt8) with
        | [] =>
            if f.pathname then
              match findSlash string with
              | some _ => FNM_NOMATCH
              | none => 0
            else 0
        | d :: rest =>
            if isslash d ∧ f.pathname then
              match findSlash string with
              | none => FNM_NOMATCH
              | some string => fnmatch beyond f (d :: rest) string
            else starLoop f.pathname (fnmatch beyond f (d :: rest)) string
      else if c = '['.toUInt8 then
        match string with
        | [] => FNM_NOMATCH
        | test :: string =>
            if isslash test ∧ f.pathname then FNM_NOMATCH
            else
              match _h : rangematch L f.nocase test pattern with
              | none => FNM_NOMATCH
              | some rest => fnmatch beyond f rest string
      else if c = '\\'.toUInt8 ∧ ¬ f.noescape ∧ isQuotable (second beyond pattern) then
        if pattern.headD '\\'.toUInt8 ≠ string.headD 0 then FNM_NOMATCH
        else fnmatch beyond f (pattern.drop 1) (string.drop 1)
      else if isslash c ∧ isslash (string.headD 0) then fnmatch beyond f pattern (string.drop 1)
      else if f.nocase then
        if L.toupper c ≠ L.toupper (string.headD 0) then FNM_NOMATCH
        else fnmatch beyond f pattern (string.drop 1)
      else if c ≠ string.headD 0 then FNM_NOMATCH
      else fnmatch beyond f pattern (string.drop 1)
termination_by pattern.length
decreasing_by
  all_goals simp only [List.length_cons, List.length_drop]
  · omega
  · have := (List.dropWhile_suffix (l := pattern) (· = '*'.toUInt8)).length_le
    rw [_h, List.length_cons] at this
    omega
  · have := (List.dropWhile_suffix (l := pattern) (· = '*'.toUInt8)).length_le
    rw [_h, List.length_cons] at this
    omega
  · have := rangematch_length L _h
    omega
  all_goals omega

inductive Member
  | one (c : UInt8)
  | range (c c2 : UInt8)
deriving DecidableEq

def members : List UInt8 → List Member
  | c :: d :: c2 :: rest =>
      if d = '-'.toUInt8 then .range c c2 :: members rest else .one c :: members (d :: c2 :: rest)
  | [c, d] => [.one c, .one d]
  | [c] => [.one c]
  | [] => []

inductive Token
  | char (c : UInt8)
  | any
  | star
  | set (negate : Bool) (ms : List Member)
  | broken
deriving DecidableEq

/-- The set between the brackets; a leading `!` negates it. -/
def bracket (text : List UInt8) : Token :=
  if text.head? = some '!'.toUInt8 then .set true (members (text.drop 1))
  else .set false (members text)

/-- The tokens of a pattern. The first `]` closes a bracket. -/
def tokens : List UInt8 → List Token
  | [] => []
  | c :: pattern =>
      if c = '?'.toUInt8 then .any :: tokens pattern
      else if c = '*'.toUInt8 then .star :: tokens pattern
      else if c = '['.toUInt8 then
        match _h : pattern.dropWhile (· ≠ ']'.toUInt8) with
        | [] => [.broken]
        | _ :: rest => bracket (pattern.takeWhile (· ≠ ']'.toUInt8)) :: tokens rest
      else .char c :: tokens pattern
termination_by pattern => pattern.length
decreasing_by
  · exact Nat.lt_succ_self _
  · exact Nat.lt_succ_self _
  · have := (List.dropWhile_suffix (l := pattern) (· ≠ ']'.toUInt8)).length_le
    rw [_h, List.length_cons] at this
    rw [List.length_cons]
    omega
  · exact Nat.lt_succ_self _

def Wild (f : Flags) (t : UInt8) : Prop := ¬ (isslash t ∧ f.pathname)

def Same (f : Flags) (c t : UInt8) : Prop := c = t ∨ f.nocase ∧ L.toupper c = L.toupper t

def Member.Has (f : Flags) (t : UInt8) : Member → Prop
  | .one c => Same L f c t
  | .range c c2 =>
      c.toInt8 ≤ t.toInt8 ∧ t.toInt8 ≤ c2.toInt8 ∨
        f.nocase ∧ L.toupper c ≤ L.toupper t ∧ L.toupper t ≤ L.toupper c2

def Token.piece (f : Flags) : Token → Piece UInt8
  | .char c => .one fun t => isslash c ∧ isslash t ∨ Same L f c t
  | .any => .one (Wild f)
  | .star => .many (Wild f)
  | .set negate ms => .one fun t => Wild f t ∧ ((∃ m ∈ ms, m.Has L f t) ↔ negate = false)
  | .broken => .one fun _ => False

def Language (f : Flags) (pattern string : List UInt8) : Prop :=
  Matches ((tokens pattern).map (Token.piece L f)) string

variable {L} {f : Flags} {t c : UInt8} {ok : Bool} {text rest pattern string : List UInt8}

theorem inRange_iff (c c2 : UInt8) :
    inRange L f.nocase t c c2 = true ↔ (Member.range c c2).Has L f t := by
  simp [inRange, charLe, Member.Has, and_assoc]

theorem isMember_iff (c : UInt8) : isMember L f.nocase t c = true ↔ (Member.one c).Has L f t := by
  simp [isMember, Member.Has, Same]

theorem rangeLoop_open (nocase : Bool) (h : ']'.toUInt8 ∉ pattern) :
    rangeLoop L nocase t ok pattern = none := by
  fun_induction rangeLoop L nocase t ok pattern with
  | case1 => rfl
  | case2 => exact absurd List.mem_cons_self h
  | case3 ok c _ d c2 rest _ ih =>
      apply ih
      intro hc
      exact h (by simp [hc])
  | case4 ok c _ d c2 rest _ ih => exact ih fun hc => h (List.mem_cons_of_mem _ hc)
  | case5 ok c _ d ih => exact ih fun hc => h (List.mem_cons_of_mem _ hc)
  | case6 ok c _ ih => exact ih List.not_mem_nil

theorem rangeLoop_close (nocase : Bool) :
    rangeLoop L nocase t ok (']'.toUInt8 :: rest) = some (ok, rest) := by
  cases rest with
  | nil => rw [rangeLoop, if_pos rfl]
  | cons r rest => cases rest <;> rw [rangeLoop, if_pos rfl]

/-- The last character of a bracket starts no range. -/
theorem rangeLoop_last (nocase : Bool) (hc : c ≠ ']'.toUInt8) :
    rangeLoop L nocase t ok (c :: ']'.toUInt8 :: rest) =
      some (ok || isMember L nocase t c, rest) := by
  cases rest with
  | nil => simp [rangeLoop, hc]
  | cons r rest =>
      rw [rangeLoop, if_neg hc]
      rw [if_neg (fun h => absurd h.1 (by decide)), rangeLoop_close]

/-- The loop of `rangematch` meets the members of the bracket. -/
theorem rangeLoop_closed (ok : Bool) (rest : List UInt8) (h : ']'.toUInt8 ∉ text) :
    ∃ ok', rangeLoop L f.nocase t ok (text ++ ']'.toUInt8 :: rest) = some (ok', rest) ∧
      (ok' = true ↔ ok = true ∨ ∃ m ∈ members text, m.Has L f t) := by
  fun_induction members text generalizing ok with
  | case1 c c2 text ih =>
      have hc : c ≠ ']'.toUInt8 := fun he => h (by simp [he])
      have hc2 : c2 ≠ ']'.toUInt8 := fun he => h (by simp [he])
      obtain ⟨ok', hr, hok⟩ := ih (ok || inRange L f.nocase t c c2) fun hm => h (by simp [hm])
      refine ⟨ok', ?_, ?_⟩
      · rw [List.cons_append, List.cons_append, List.cons_append, rangeLoop, if_neg hc]
        rw [if_pos ⟨rfl, hc2⟩, hr]
      · rw [hok, Bool.or_eq_true, inRange_iff]
        simp [or_assoc]
  | case2 c d c2 text hd ih =>
      have hc : c ≠ ']'.toUInt8 := fun he => h (by simp [he])
      obtain ⟨ok', hr, hok⟩ := ih (ok || isMember L f.nocase t c)
        fun hm => h (List.mem_cons_of_mem _ hm)
      refine ⟨ok', ?_, ?_⟩
      · rw [List.cons_append, List.cons_append, List.cons_append, rangeLoop, if_neg hc]
        rw [if_neg (fun h => hd h.1)]
        exact hr
      · rw [hok, Bool.or_eq_true, isMember_iff]
        simp [or_assoc]
  | case3 c d =>
      have hc : c ≠ ']'.toUInt8 := fun he => h (by simp [he])
      have hd : d ≠ ']'.toUInt8 := fun he => h (by simp [he])
      refine ⟨ok || isMember L f.nocase t c || isMember L f.nocase t d, ?_, ?_⟩
      · rw [List.cons_append, List.cons_append, List.nil_append, rangeLoop, if_neg hc]
        rw [if_neg (fun h => h.2 rfl), rangeLoop_last _ hd]
      · rw [Bool.or_eq_true, Bool.or_eq_true, isMember_iff, isMember_iff]
        simp [or_assoc]
  | case4 c =>
      have hc : c ≠ ']'.toUInt8 := fun he => h (by simp [he])
      refine ⟨ok || isMember L f.nocase t c, rangeLoop_last _ hc, ?_⟩
      rw [Bool.or_eq_true, isMember_iff]
      simp
  | case5 =>
      refine ⟨ok, ?_, by simp⟩
      rw [List.nil_append, rangeLoop_close]

theorem rangematch_open (nocase : Bool) (h : ']'.toUInt8 ∉ pattern) :
    rangematch L nocase t pattern = none := by
  unfold rangematch
  dsimp only
  rw [rangeLoop_open]
  split
  · exact fun hm => h (List.mem_of_mem_drop hm)
  · exact h

/-- `rangematch` gives the pattern behind a bracket exactly for the characters of its set. -/
theorem rangematch_closed (t : UInt8) (rest : List UInt8) (h : ']'.toUInt8 ∉ text) :
    ∃ negate ms, bracket text = .set negate ms ∧
      (rangematch L f.nocase t (text ++ ']'.toUInt8 :: rest) = some rest ∧
          ((∃ m ∈ ms, m.Has L f t) ↔ negate = false) ∨
        rangematch L f.nocase t (text ++ ']'.toUInt8 :: rest) = none ∧
          ¬ ((∃ m ∈ ms, m.Has L f t) ↔ negate = false)) := by
  have hhead : (text ++ ']'.toUInt8 :: rest).head? = some '!'.toUInt8 ↔
      text.head? = some '!'.toUInt8 := by
    cases text with
    | nil => simp; decide
    | cons c text => simp
  unfold rangematch bracket
  dsimp only
  by_cases hn : text.head? = some '!'.toUInt8
  · have htext : (text ++ ']'.toUInt8 :: rest).drop 1 = text.drop 1 ++ ']'.toUInt8 :: rest := by
      cases text with
      | nil => cases hn
      | cons c text => rfl
    obtain ⟨ok, hr, hok⟩ := rangeLoop_closed (L := L) (f := f) (t := t) false rest
      fun hm => h (List.mem_of_mem_drop (i := 1) hm)
    simp only [hhead, hn, decide_true, if_true, htext, hr]
    refine ⟨true, members (text.drop 1), rfl, ?_⟩
    rw [Bool.false_eq_true, false_or] at hok
    rw [← hok]
    cases ok <;> simp
  · obtain ⟨ok, hr, hok⟩ := rangeLoop_closed (L := L) (f := f) (t := t) false rest h
    simp only [hhead, hn, decide_false, Bool.false_eq_true, if_false, hr]
    refine ⟨false, members text, rfl, ?_⟩
    rw [Bool.false_eq_true, false_or] at hok
    rw [← hok]
    cases ok <;> simp

theorem language_nil : Language L f [] string ↔ string = [] := by
  rw [Language, tokens]
  exact matches_nil

theorem language_any :
    Language L f ('?'.toUInt8 :: pattern) string ↔
      Matches (.one (Wild f) :: (tokens pattern).map (Token.piece L f)) string := by
  rw [Language, tokens, if_pos rfl]
  rfl

theorem language_star :
    Language L f ('*'.toUInt8 :: pattern) string ↔
      Matches (.many (Wild f) :: (tokens pattern).map (Token.piece L f)) string := by
  rw [Language, tokens, if_neg (by decide), if_pos rfl]
  rfl

theorem language_open (h : ']'.toUInt8 ∉ pattern) :
    ¬ Language L f ('['.toUInt8 :: pattern) string := by
  have hd : pattern.dropWhile (· ≠ ']'.toUInt8) = [] := by
    rw [List.dropWhile_eq_nil_iff]
    intro c hc
    have : c ≠ ']'.toUInt8 := fun he => h (he ▸ hc)
    simpa using this
  rw [Language, tokens, if_neg (by decide), if_neg (by decide), if_pos rfl]
  split
  · cases string <;> simp [Token.piece]
  · rename_i heq
    rw [hd] at heq
    cases heq

theorem language_closed (h : ']'.toUInt8 ∉ text) :
    Language L f ('['.toUInt8 :: (text ++ ']'.toUInt8 :: rest)) string ↔
      Matches ((bracket text).piece L f :: (tokens rest).map (Token.piece L f)) string := by
  have ht : ∀ c ∈ text, decide (c ≠ ']'.toUInt8) = true := by
    intro c hc
    have : c ≠ ']'.toUInt8 := fun he => h (he ▸ hc)
    simpa using this
  have hd : (text ++ ']'.toUInt8 :: rest).dropWhile (· ≠ ']'.toUInt8) = ']'.toUInt8 :: rest := by
    rw [List.dropWhile_append_of_pos ht, List.dropWhile_cons_of_neg (by simp)]
  have htake : (text ++ ']'.toUInt8 :: rest).takeWhile (· ≠ ']'.toUInt8) = text := by
    rw [List.takeWhile_append_of_pos ht, List.takeWhile_cons_of_neg (by simp), List.append_nil]
  rw [Language, tokens, if_neg (by decide), if_neg (by decide), if_pos rfl]
  split
  · rename_i heq
    rw [hd] at heq
    cases heq
  · rename_i heq
    rw [hd] at heq
    cases heq
    rw [htake]
    rfl

theorem language_char (h₁ : c ≠ '?'.toUInt8) (h₂ : c ≠ '*'.toUInt8) (h₃ : c ≠ '['.toUInt8) :
    Language L f (c :: pattern) string ↔
      Matches ((Token.char c).piece L f :: (tokens pattern).map (Token.piece L f)) string := by
  rw [Language, tokens, if_neg h₁, if_neg h₂, if_neg h₃]
  rfl

theorem tokens_one (pattern : List UInt8) (h : c ≠ '*'.toUInt8) :
    ∃ p ps, (tokens (c :: pattern)).map (Token.piece L f) = .one p :: ps := by
  rw [tokens]
  split_ifs
  · exact ⟨_, _, rfl⟩
  · split
    · exact ⟨_, _, rfl⟩
    · unfold bracket
      split_ifs <;> exact ⟨_, _, rfl⟩
  · exact ⟨_, _, rfl⟩

theorem matches_collapse :
    Matches (.many (Wild f) :: (tokens pattern).map (Token.piece L f)) string ↔
      Matches (.many (Wild f) ::
        (tokens (pattern.dropWhile (· = '*'.toUInt8))).map (Token.piece L f)) string := by
  induction pattern with
  | nil => rfl
  | cons c pattern ih =>
      by_cases hc : c = '*'.toUInt8
      · subst hc
        rw [List.dropWhile_cons_of_pos (by simp), ← ih, tokens, if_neg (by decide), if_pos rfl]
        exact matches_many_many
      · rw [List.dropWhile_cons_of_neg (by simpa using hc)]

theorem findSlash_eq_none : findSlash string = none ↔ ∀ c ∈ string, isslash c = false := by
  induction string with
  | nil => simp [findSlash]
  | cons c s ih =>
      rw [findSlash]
      cases hc : isslash c <;> simp [hc, ih]

theorem findSlash_eq_some {s : List UInt8} (h : findSlash string = some s) :
    ∃ u, string = u ++ s ∧ (∀ c ∈ u, isslash c = false) ∧ ∀ c ∈ s.head?, isslash c = true := by
  induction string with
  | nil => cases h
  | cons c string ih =>
      rw [findSlash] at h
      split_ifs at h with hc
      · cases h
        refine ⟨[], rfl, fun x hx => absurd hx List.not_mem_nil, ?_⟩
        intro x hx
        cases hx
        exact hc
      · obtain ⟨u, rfl, hu, hs⟩ := ih h
        refine ⟨c :: u, rfl, ?_, hs⟩
        intro x hx
        rcases List.mem_cons.mp hx with rfl | hx
        · exact Bool.eq_false_iff.mpr hc
        · exact hu x hx

theorem starLoop_iff {m : List UInt8 → ℕ} {ps : List (Piece UInt8)} (hnil : ¬ Matches ps [])
    (hs : 0 ∉ string) (hm : ∀ s, 0 ∉ s → (m s = 0 ↔ Matches ps s)) :
    starLoop f.pathname m string = 0 ↔ Matches (.many (Wild f) :: ps) string := by
  induction string with
  | nil =>
      rw [starLoop, matches_many_nil]
      exact iff_of_false (by decide) hnil
  | cons c s ih =>
      rw [starLoop, matches_many_cons, ← hm _ hs]
      split_ifs with h₁ h₂
      · simp [h₁]
      · simp [h₁, Wild, h₂, FNM_NOMATCH]
      · rw [ih fun h => hs (List.mem_cons_of_mem _ h)]
        simp [h₁, Wild, h₂]

theorem not_mem_drop_one (h : 0 ∉ string) : 0 ∉ string.drop 1 :=
  fun hm => h (List.mem_of_mem_drop hm)

theorem isslash_of_same (hc : isslash c = true) (h : Same L f c t) : isslash t = true := by
  rcases h with rfl | ⟨-, h⟩
  · exact hc
  · unfold isslash at hc ⊢
    rw [Bool.or_eq_true, decide_eq_true_iff, decide_eq_true_iff] at hc ⊢
    rcases hc with rfl | rfl
    · rw [(L.toupper_eq_backslash _).mpr rfl] at h
      exact .inl ((L.toupper_eq_backslash t).mp h.symm)
    · rw [(L.toupper_eq_slash _).mpr rfl] at h
      exact .inr ((L.toupper_eq_slash t).mp h.symm)

theorem matches_char_iff (hc : c ≠ 0) (ps : List (Piece UInt8)) :
    Matches ((Token.char c).piece L f :: ps) string ↔
      (isslash c ∧ isslash (string.headD 0) ∨ Same L f c (string.headD 0)) ∧
        Matches ps (string.drop 1) := by
  cases string with
  | cons t s => exact matches_one_cons
  | nil =>
      refine iff_of_false not_matches_one_nil ?_
      rintro ⟨h | h | h, -⟩
      · exact absurd h.2 (by decide)
      · exact hc h
      · exact hc ((L.toupper_eq_nul c).mp (h.2.trans ((L.toupper_eq_nul 0).mpr rfl)))

variable {beyond : UInt8}

/-- The code decides the language of the pattern. -/
def Decides (L : CStrings.Locale) (beyond : UInt8) (f : Flags) (pattern : List UInt8) : Prop :=
  ∀ string, 0 ∉ string → (fnmatch L beyond f pattern string = 0 ↔ Language L f pattern string)

theorem decides_nil : Decides L beyond f [] := by
  intro string _
  rw [fnmatch, language_nil]
  split_ifs with h <;> simp [h, FNM_NOMATCH]

theorem decides_any (h : Decides L beyond f pattern) :
    Decides L beyond f ('?'.toUInt8 :: pattern) := by
  intro string hs
  rw [fnmatch.eq_def, language_any]
  dsimp only
  rw [if_pos rfl]
  cases string with
  | nil => exact iff_of_false Nat.one_ne_zero not_matches_one_nil
  | cons t s =>
      have ih := h s fun hm => hs (List.mem_cons_of_mem _ hm)
      rw [matches_one_cons]
      dsimp only
      split_ifs with ht
      · exact iff_of_false (by decide) fun hm => hm.1 ht
      · rw [ih, Language]
        exact ⟨fun hm => ⟨ht, hm⟩, fun hm => hm.2⟩

/-- The star that ends a pattern. -/
theorem star_end_iff :
    (if f.pathname then
        match findSlash string with
        | some _ => FNM_NOMATCH
        | none => 0
      else 0) = 0 ↔ ∀ c ∈ string, Wild f c := by
  split_ifs with hf
  · cases hfind : findSlash string with
    | some s =>
        refine iff_of_false Nat.one_ne_zero fun hall => ?_
        have hnone : findSlash string = none := by
          rw [findSlash_eq_none]
          intro c hc
          have := hall c hc
          simpa [Wild, hf] using this
        rw [hnone] at hfind
        cases hfind
    | none =>
        refine iff_of_true rfl fun c hc => ?_
        simp [Wild, findSlash_eq_none.mp hfind c hc]
  · simp [Wild, hf]

theorem star_slash_iff (hf : f.pathname = true) (hc : isslash c = true) (hs : 0 ∉ string)
    (h : Decides L beyond f (c :: pattern)) :
    (match findSlash string with
      | none => FNM_NOMATCH
      | some string => fnmatch L beyond f (c :: pattern) string) = 0 ↔
      Matches (.many (Wild f) :: (tokens (c :: pattern)).map (Token.piece L f)) string := by
  have h₁ : c ≠ '?'.toUInt8 := by rintro rfl; exact absurd hc (by decide)
  have h₂ : c ≠ '*'.toUInt8 := by rintro rfl; exact absurd hc (by decide)
  have h₃ : c ≠ '['.toUInt8 := by rintro rfl; exact absurd hc (by decide)
  have htokens : (tokens (c :: pattern)).map (Token.piece L f) =
      (Token.char c).piece L f :: (tokens pattern).map (Token.piece L f) := by
    rw [tokens, if_neg h₁, if_neg h₂, if_neg h₃]
    rfl
  have hdisjoint : ∀ t, isslash c ∧ isslash t ∨ Same L f c t → ¬ Wild f t := by
    intro t ht hw
    rcases ht with ht | ht
    · exact hw ⟨ht.2, hf⟩
    · exact hw ⟨isslash_of_same hc ht, hf⟩
  have hwild : ∀ u : List UInt8, (∀ x ∈ u, isslash x = false) → ∀ x ∈ u, Wild f x := by
    intro u hu x hx
    simp [Wild, hu x hx]
  rw [htokens]
  cases hfind : findSlash string with
  | none =>
      rw [Token.piece, ← List.append_nil string, matches_many_one_disjoint hdisjoint string
        (hwild _ (findSlash_eq_none.mp hfind)) (fun x hx => by cases hx)]
      exact iff_of_false Nat.one_ne_zero not_matches_one_nil
  | some s =>
      obtain ⟨u, rfl, hu, hhead⟩ := findSlash_eq_some hfind
      have hslash : ∀ x ∈ s.head?, ¬ Wild f x := fun x hx hw => hw ⟨hhead x hx, hf⟩
      rw [Token.piece, matches_many_one_disjoint hdisjoint u (hwild u hu) hslash]
      dsimp only
      rw [h s fun hm => hs (List.mem_append_right _ hm), language_char h₁ h₂ h₃]
      rfl

theorem decides_star (h : Decides L beyond f (pattern.dropWhile (· = '*'.toUInt8))) :
    Decides L beyond f ('*'.toUInt8 :: pattern) := by
  intro string hs
  rw [fnmatch.eq_def, language_star, matches_collapse]
  dsimp only
  rw [if_neg (by decide), if_pos rfl]
  split
  · rename_i hd
    rw [hd, tokens, List.map_nil, matches_many_end]
    exact star_end_iff
  · rename_i d rest hd
    have hstar : d ≠ '*'.toUInt8 := by
      have := List.head?_dropWhile_not (· = '*'.toUInt8) pattern
      rw [hd] at this
      simpa using this
    rw [hd] at h ⊢
    split_ifs with hslash
    · exact star_slash_iff hslash.2 hslash.1 hs h
    · apply starLoop_iff _ hs h
      obtain ⟨p, ps, hps⟩ := tokens_one (L := L) (f := f) rest hstar
      rw [hps]
      exact not_matches_one_nil

theorem decides_open (h : ']'.toUInt8 ∉ pattern) :
    Decides L beyond f ('['.toUInt8 :: pattern) := by
  intro string _
  refine iff_of_false ?_ (language_open h)
  rw [fnmatch.eq_def]
  dsimp only
  rw [if_neg (by decide), if_neg (by decide), if_pos rfl]
  cases string with
  | nil => exact Nat.one_ne_zero
  | cons t s =>
      dsimp only
      split_ifs
      · exact Nat.one_ne_zero
      · split
        · exact Nat.one_ne_zero
        · rename_i hr
          rw [rangematch_open _ h] at hr
          cases hr

theorem decides_closed (ht : ']'.toUInt8 ∉ text) (h : Decides L beyond f rest) :
    Decides L beyond f ('['.toUInt8 :: (text ++ ']'.toUInt8 :: rest)) := by
  intro string hs
  rw [language_closed ht, fnmatch.eq_def]
  dsimp only
  rw [if_neg (by decide), if_neg (by decide), if_pos rfl]
  cases string with
  | nil =>
      obtain ⟨negate, ms, hb, -⟩ := rangematch_closed (L := L) (f := f) 0 rest ht
      rw [hb]
      exact iff_of_false Nat.one_ne_zero not_matches_one_nil
  | cons t s =>
      obtain ⟨negate, ms, hb, hr⟩ := rangematch_closed (L := L) (f := f) t rest ht
      have ih := h s fun hm => hs (List.mem_cons_of_mem _ hm)
      rw [hb, Token.piece, matches_one_cons]
      dsimp only
      split_ifs with hslash
      · exact iff_of_false Nat.one_ne_zero fun hm => hm.1.1 hslash
      · rcases hr with ⟨hr, hset⟩ | ⟨hr, hset⟩
        · split
          · rename_i hn
            rw [hr] at hn
            cases hn
          · rename_i hn
            rw [hr] at hn
            cases hn
            rw [ih, Language]
            exact ⟨fun hm => ⟨⟨hslash, hset⟩, hm⟩, fun hm => hm.2⟩
        · split
          · exact iff_of_false Nat.one_ne_zero fun hm => hset hm.1.2
          · rename_i hn
            rw [hr] at hn
            cases hn

theorem decides_char (hf : f.noescape = true) (hc : c ≠ 0) (h₁ : c ≠ '?'.toUInt8)
    (h₂ : c ≠ '*'.toUInt8) (h₃ : c ≠ '['.toUInt8) (h : Decides L beyond f pattern) :
    Decides L beyond f (c :: pattern) := by
  intro string hs
  have ih := h (string.drop 1) (not_mem_drop_one hs)
  rw [language_char h₁ h₂ h₃, matches_char_iff hc, fnmatch.eq_def]
  dsimp only
  rw [if_neg h₁, if_neg h₂, if_neg h₃, if_neg (by simp [hf])]
  by_cases hslash : isslash c ∧ isslash (string.headD 0)
  · rw [if_pos hslash, ih, Language]
    exact ⟨fun hm => ⟨.inl hslash, hm⟩, fun hm => hm.2⟩
  · have hsame : (if f.nocase then
          if L.toupper c ≠ L.toupper (string.headD 0) then FNM_NOMATCH
          else fnmatch L beyond f pattern (string.drop 1)
        else if c ≠ string.headD 0 then FNM_NOMATCH
        else fnmatch L beyond f pattern (string.drop 1)) =
        if f.nocase ∧ L.toupper c = L.toupper (string.headD 0) ∨ c = string.headD 0 then
          fnmatch L beyond f pattern (string.drop 1) else FNM_NOMATCH := by
      by_cases hn : f.nocase <;> by_cases hu : L.toupper c = L.toupper (string.headD 0) <;>
        by_cases he : c = string.headD 0 <;> simp_all
    rw [if_neg hslash, hsame]
    split_ifs with hm
    · rw [ih, Language]
      exact ⟨fun hx => ⟨.inr (or_comm.mp hm), hx⟩, fun hx => hx.2⟩
    · refine iff_of_false Nat.one_ne_zero ?_
      rintro ⟨hx | hx, -⟩
      · exact hslash hx
      · exact hm (or_comm.mp hx)

/-- With `FNM_NOESCAPE` the code decides the language of every pattern. -/
theorem decides (hf : f.noescape = true) (hp : 0 ∉ pattern) : Decides L beyond f pattern := by
  induction hn : pattern.length using Nat.strong_induction_on generalizing pattern with
  | _ n ih =>
  subst hn
  cases pattern with
  | nil => exact decides_nil
  | cons c pattern =>
      have hp' : 0 ∉ pattern := fun hm => hp (List.mem_cons_of_mem _ hm)
      have hlt : pattern.length < (c :: pattern).length := Nat.lt_succ_self _
      by_cases h₁ : c = '?'.toUInt8
      · subst h₁
        exact decides_any (ih _ hlt hp' rfl)
      by_cases h₂ : c = '*'.toUInt8
      · subst h₂
        have hsuffix := List.dropWhile_suffix (l := pattern) (· = '*'.toUInt8)
        exact decides_star (ih _ (Nat.lt_of_le_of_lt hsuffix.length_le hlt)
          (fun hm => hp' (hsuffix.subset hm)) rfl)
      by_cases h₃ : c = '['.toUInt8
      · subst h₃
        by_cases hb : ']'.toUInt8 ∈ pattern
        · obtain ⟨text, rest, rfl, ht⟩ := List.eq_append_cons_of_mem hb
          refine decides_closed ht (ih _ ?_ (fun hm => hp' (by simp [hm])) rfl)
          simp only [List.length_cons, List.length_append]
          omega
        · exact decides_open hb
      · exact decides_char hf (fun h => hp (h ▸ List.mem_cons_self)) h₁ h₂ h₃ (ih _ hlt hp' rfl)

/-- `fnmatch` with `FNM_NOESCAPE` returns zero exactly for the strings of the
language of the pattern. -/
theorem fnmatch_language (L : CStrings.Locale) (beyond : UInt8) (pathname nocase : Bool)
    (pattern string : CString) :
    fnmatch L beyond ⟨true, pathname, nocase⟩ pattern.bytes string.bytes = 0 ↔
      Language L ⟨true, pathname, nocase⟩ pattern.bytes string.bytes :=
  decides rfl pattern.nul_notMem string.bytes string.nul_notMem

end DjgppLibc.Fnmatch
