import DjgppLibc.Fnmatch

/-!
# Quoted patterns (`posix/fnmatch/fnmatch.c`)

Without `FNM_NOESCAPE` a backslash should quote the character behind it. Whether
it does is decided by the character behind that one: `pattern` has been advanced
when `pattern[1]` is looked at. A text with a backslash before each special
character then matches itself only if it has none: `fnmatch_esc_iff`.

The proof follows the code along the text whose slashes are all of one kind. It
keeps in step until a backslash is taken for a slash, and is behind from there on.
-/
namespace DjgppLibc.Fnmatch

open CStrings

def noFlags : Flags := ⟨false, false, false⟩

def esc (s : List UInt8) : List UInt8 := s.flatMap fun c => if isQuotable c then ['\\'.toUInt8, c]
    else [c]

def SameOrSlashes (c t : UInt8) : Prop := c = t ∨ isslash c ∧ isslash t

instance (c t : UInt8) : Decidable (SameOrSlashes c t) := instDecidableOr

/-- The texts are the same up to the kind of their slashes. -/
def EqUpToSlashes (s t : List UInt8) : Prop := List.Forall₂ SameOrSlashes s t

def forward (s : List UInt8) : List UInt8 := s.map fun c => if c =
    '\\'.toUInt8 then '/'.toUInt8 else c

variable {L : CStrings.Locale} {beyond c : UInt8} {s t u r pattern string : List UInt8}

theorem not_isQuotable_zero : isQuotable 0 = false := by decide

theorem esc_cons_of_quotable (hc : isQuotable c = true) (s : List UInt8) :
    esc (c :: s) = '\\'.toUInt8 :: c :: esc s := by
  rw [esc, List.flatMap_cons, if_pos hc]
  rfl

theorem esc_cons_of_plain (hc : isQuotable c = false) (s : List UInt8) :
    esc (c :: s) = c :: esc s := by
  rw [esc, List.flatMap_cons, if_neg (by simp [hc])]
  rfl

theorem esc_of_plain (hs : ∀ c ∈ s, isQuotable c = false) : esc s = s := by
  induction s with
  | nil => rfl
  | cons c s ih =>
      obtain ⟨hc, hs⟩ := List.forall_mem_cons.mp hs
      rw [esc_cons_of_plain hc, ih hs]

theorem quotable_of_slash (h : isslash c = true) : c = '/'.toUInt8 ∧ isQuotable c = false ∨
    c = '\\'.toUInt8 ∧ isQuotable c = true := by
  rw [isslash, Bool.or_eq_true, decide_eq_true_eq, decide_eq_true_eq] at h
  rcases h with rfl | rfl
  · exact .inr ⟨rfl, by decide⟩
  · exact .inl ⟨rfl, by decide⟩

/-- What the code looks at behind a character of a quoted text. -/
theorem isQuotable_second (beyond x : UInt8) (r : List UInt8) :
    isQuotable (second beyond (x :: esc r)) = r.head?.any isQuotable := by
  cases r with
  | nil => exact not_isQuotable_zero
  | cons c r =>
      rw [List.head?_cons, Option.any_some]
      by_cases hc : isQuotable c = true
      · rw [esc_cons_of_quotable hc, hc]
        rfl
      · rw [Bool.not_eq_true] at hc
        rw [esc_cons_of_plain hc, hc]
        exact hc

theorem fnmatch_plain (hc : isQuotable c = false) :
    fnmatch L beyond noFlags (c :: pattern) string =
      if SameOrSlashes c (string.headD 0) then fnmatch L beyond noFlags pattern (string.drop 1)
      else FNM_NOMATCH := by
  simp only [isQuotable, Bool.or_eq_false_iff, decide_eq_false_iff_not] at hc
  obtain ⟨⟨⟨hstar, hany⟩, hset⟩, hback⟩ := hc
  rw [fnmatch.eq_def]
  dsimp only
  rw [if_neg hany, if_neg hstar, if_neg hset, if_neg (fun h => hback h.1)]
  by_cases hslash : isslash c ∧ isslash (string.headD 0)
  · rw [if_pos hslash, if_pos (.inr hslash)]
  · rw [if_neg hslash, if_neg (by decide)]
    by_cases heq : c = string.headD 0
    · rw [if_neg (not_not.mpr heq), if_pos (.inl heq)]
    · have hsame : ¬ SameOrSlashes c (string.headD 0) := not_or.mpr ⟨heq, hslash⟩
      rw [if_pos heq, if_neg hsame]

theorem fnmatch_backslash :
    fnmatch L beyond noFlags ('\\'.toUInt8 :: pattern) string =
      if isQuotable (second beyond pattern) then
        if pattern.headD '\\'.toUInt8 ≠ string.headD 0 then FNM_NOMATCH
        else fnmatch L beyond noFlags (pattern.drop 1) (string.drop 1)
      else if isslash (string.headD 0) then fnmatch L beyond noFlags pattern (string.drop 1)
      else FNM_NOMATCH := by
  rw [fnmatch.eq_def]
  dsimp only
  rw [if_neg (by decide), if_neg (by decide), if_neg (by decide)]
  by_cases hq : isQuotable (second beyond pattern) = true
  · rw [if_pos ⟨rfl, by decide, hq⟩, if_pos hq]
  · rw [if_neg (fun h => hq h.2.2), if_neg hq]
    by_cases hslash : isslash (string.headD 0) = true
    · rw [if_pos ⟨by decide, hslash⟩, if_pos hslash]
    · have hne : '\\'.toUInt8 ≠ string.headD 0 := by
        intro h
        rw [← h] at hslash
        exact hslash (by decide)
      rw [if_neg (fun h => hslash h.2), if_neg (by decide), if_pos hne, if_neg hslash]

theorem fnmatch_of_plain (hs : ∀ c ∈ s, isQuotable c = false) (hnul : 0 ∉ s) (t : List UInt8) :
    fnmatch L beyond noFlags s t = 0 ↔ EqUpToSlashes s t := by
  induction s generalizing t with
  | nil =>
      rw [fnmatch.eq_def]
      cases t with
      | nil => exact iff_of_true rfl .nil
      | cons d t => exact iff_of_false Nat.one_ne_zero (fun h => nomatch h)
  | cons c s ih =>
      obtain ⟨hc, hs⟩ := List.forall_mem_cons.mp hs
      rw [fnmatch_plain hc]
      cases t with
      | nil =>
          have hne : ¬ SameOrSlashes c 0 := by
            rintro (rfl | ⟨-, h⟩)
            · exact hnul List.mem_cons_self
            · exact absurd h (by decide)
          rw [List.headD_nil, if_neg hne]
          exact iff_of_false Nat.one_ne_zero (fun h => nomatch h)
      | cons d t =>
          rw [EqUpToSlashes, List.forall₂_cons, List.headD_cons]
          split_ifs with hd
          · rw [List.drop_one, List.tail_cons, ih hs (fun h => hnul (List.mem_cons_of_mem _ h)),
              EqUpToSlashes]
            exact (and_iff_right hd).symm
          · exact iff_of_false Nat.one_ne_zero (fun h => hd h.1)

theorem headD_forward (hr : (forward r).headD 0 = '/'.toUInt8) :
    ∃ c r', r = c :: r' ∧ isslash c = true := by
  cases r with
  | nil => exact absurd hr (by decide)
  | cons c r =>
      refine ⟨c, r, rfl, ?_⟩
      rw [forward, List.map_cons, List.headD_cons] at hr
      rw [isslash, Bool.or_eq_true, decide_eq_true_eq, decide_eq_true_eq]
      by_cases hc : c = '\\'.toUInt8
      · exact .inl hc
      · rw [if_neg hc] at hr
        exact .inr hr

theorem headD_forward_ne (r : List UInt8) : '\\'.toUInt8 ≠ (forward r).headD 0 := by
  cases r with
  | nil => decide
  | cons c r =>
      rw [forward, List.map_cons, List.headD_cons]
      split_ifs with hc
      · decide
      · exact fun h => hc h.symm

theorem headD_forward_of_isslash (h : isslash ((forward r).headD 0) = true) :
    (forward r).headD 0 = '/'.toUInt8 := by
  rcases quotable_of_slash h with ⟨h, -⟩ | ⟨h, -⟩
  · exact h
  · exact absurd h.symm (headD_forward_ne r)

theorem exists_quotable_of_head (h : r.head?.any isQuotable = true) :
    ∃ c ∈ r, isQuotable c = true := by
  cases r with
  | nil => cases h
  | cons c r => exact ⟨c, List.mem_cons_self, h⟩

theorem backslash_of_forward (hc : isQuotable c = true)
    (h : isslash ((forward (c :: r)).headD 0) = true) : c = '\\'.toUInt8 := by
  obtain ⟨c', r', he, hslash⟩ := headD_forward (headD_forward_of_isslash h)
  rw [← (List.cons.inj he).1] at hslash
  rcases quotable_of_slash hslash with ⟨-, hplain⟩ | ⟨hback, -⟩
  · rw [hc] at hplain
    cases hplain
  · exact hback

theorem fnmatch_behind_step {d : UInt8} (hd : isslash d = true)
    (hrest : isslash ((forward r).headD 0) = true →
      fnmatch L beyond noFlags (esc (u ++ r)) ((forward r).drop 1) ≠ 0 ∧
        fnmatch L beyond noFlags ('\\'.toUInt8 :: esc (u ++ r)) ((forward r).drop 1) ≠ 0)
    (hboth : isslash ((forward r).headD 0) = true →
      fnmatch L beyond noFlags (esc (d :: u ++ r)) ((forward r).drop 1) ≠ 0) :
    fnmatch L beyond noFlags (esc (d :: u ++ r)) (forward r) ≠ 0 ∧
      fnmatch L beyond noFlags ('\\'.toUInt8 :: esc (d :: u ++ r)) (forward r) ≠ 0 := by
  rw [List.cons_append] at hboth ⊢
  rcases quotable_of_slash hd with ⟨rfl, hplain⟩ | ⟨rfl, hquot⟩
  · rw [esc_cons_of_plain hplain] at hboth ⊢
    refine ⟨?_, ?_⟩
    · rw [fnmatch_plain hplain]
      split_ifs with hsame
      · refine (hrest ?_).1
        rcases hsame with heq | ⟨-, h⟩
        · exact heq ▸ hd
        · exact h
      · exact Nat.one_ne_zero
    · rw [fnmatch_backslash, List.headD_cons]
      split_ifs with hq heq hslash
      · exact Nat.one_ne_zero
      · exact (hrest (not_not.mp heq ▸ hd)).1
      · exact hboth hslash
      · exact Nat.one_ne_zero
  · rw [esc_cons_of_quotable hquot] at hboth ⊢
    refine ⟨?_, ?_⟩
    · rw [fnmatch_backslash, List.headD_cons, if_pos (headD_forward_ne r)]
      split_ifs with hq hslash
      · exact Nat.one_ne_zero
      · exact (hrest hslash).2
      · exact Nat.one_ne_zero
    · rw [fnmatch_backslash, if_pos (by exact hquot), List.headD_cons, if_pos (headD_forward_ne r)]
      exact Nat.one_ne_zero

theorem fnmatch_behind (L : CStrings.Locale) (beyond : UInt8) (r u : List UInt8) (hne : u ≠ [])
    (hu : ∀ c ∈ u, isslash c = true) :
    fnmatch L beyond noFlags (esc (u ++ r)) (forward r) ≠ 0 ∧
      fnmatch L beyond noFlags ('\\'.toUInt8 :: esc (u ++ r)) (forward r) ≠ 0 := by
  induction r generalizing u with
  | nil =>
      obtain ⟨d, u, rfl⟩ := List.exists_cons_of_ne_nil hne
      exact fnmatch_behind_step (hu d List.mem_cons_self) (fun h => absurd h (by decide))
        (fun h => absurd h (by decide))
  | cons c r ih =>
      obtain ⟨d, u, rfl⟩ := List.exists_cons_of_ne_nil hne
      have hc : isslash ((forward (c :: r)).headD 0) = true → isslash c = true := by
        intro h
        obtain ⟨c', r', he, hc'⟩ := headD_forward (headD_forward_of_isslash h)
        rw [(List.cons.inj he).1]
        exact hc'
      have hmove : ∀ u, (∀ x ∈ u, isslash x = true) → isslash c = true →
          fnmatch L beyond noFlags (esc (u ++ c :: r)) (forward r) ≠ 0 ∧
            fnmatch L beyond noFlags ('\\'.toUInt8 :: esc (u ++ c :: r)) (forward r) ≠ 0 := by
        intro u hu hc
        have h := ih (u ++ [c]) (by simp) fun x hx => by
          rcases List.mem_append.mp hx with hx | hx
          · exact hu x hx
          · rw [List.mem_singleton.mp hx]
            exact hc
        rw [List.append_assoc, List.singleton_append] at h
        exact h
      exact fnmatch_behind_step (hu d List.mem_cons_self)
        (fun h => hmove u (fun x hx => hu x (List.mem_cons_of_mem _ hx)) (hc h))
        (fun h => (hmove (d :: u) hu (hc h)).1)

theorem fnmatch_in_step (L : CStrings.Locale) (beyond : UInt8) (r : List UInt8) :
    ((∃ c ∈ r, isQuotable c = true) → fnmatch L beyond noFlags (esc r) (forward r) ≠ 0) ∧
      (r.head?.any isQuotable = false →
        fnmatch L beyond noFlags ('\\'.toUInt8 :: esc r) (forward r) ≠ 0) := by
  induction r with
  | nil =>
      refine ⟨fun ⟨c, hc, _⟩ => absurd hc List.not_mem_nil, fun _ => ?_⟩
      rw [fnmatch_backslash]
      split_ifs with _ heq hslash
      · exact Nat.one_ne_zero
      · exact absurd (not_not.mp heq) (by decide)
      · exact absurd hslash (by decide)
      · exact Nat.one_ne_zero
  | cons c r ih =>
      refine ⟨fun hr => ?_, fun hc => ?_⟩
      · by_cases hc : isQuotable c = true
        · rw [esc_cons_of_quotable hc, fnmatch_backslash, isQuotable_second, List.headD_cons]
          split_ifs with hq _ hslash
          · exact Nat.one_ne_zero
          · exact ih.1 (exists_quotable_of_head hq)
          · have hback : c = '\\'.toUInt8 := backslash_of_forward hc hslash
            rw [hback]
            exact ih.2 (Bool.not_eq_true _ ▸ hq)
          · exact Nat.one_ne_zero
        · rw [Bool.not_eq_true] at hc
          have hr : ∃ c ∈ r, isQuotable c = true := by
            obtain ⟨d, hd, hdq⟩ := hr
            rcases List.mem_cons.mp hd with rfl | hd
            · rw [hc] at hdq
              cases hdq
            · exact ⟨d, hd, hdq⟩
          rw [esc_cons_of_plain hc, fnmatch_plain hc]
          split_ifs
          · exact ih.1 hr
          · exact Nat.one_ne_zero
      · rw [List.head?_cons, Option.any_some] at hc
        rw [esc_cons_of_plain hc, fnmatch_backslash, isQuotable_second, List.headD_cons]
        split_ifs with hq _ hslash
        · exact Nat.one_ne_zero
        · exact ih.1 (exists_quotable_of_head hq)
        · obtain ⟨c', r', he, hc'⟩ := headD_forward (headD_forward_of_isslash hslash)
          rw [← (List.cons.inj he).1] at hc'
          have h := (fnmatch_behind L beyond r [c] (List.cons_ne_nil _ _)
            (fun x hx => List.mem_singleton.mp hx ▸ hc')).1
          rw [List.singleton_append, esc_cons_of_plain hc] at h
          exact h
        · exact Nat.one_ne_zero

theorem eqUpToSlashes_forward (s : List UInt8) : EqUpToSlashes s (forward s) := by
  induction s with
  | nil => exact .nil
  | cons c s ih =>
      refine .cons ?_ ih
      by_cases hc : c = '\\'.toUInt8
      · subst hc
        exact .inr ⟨by decide, by decide⟩
      · exact .inl (if_neg hc).symm

theorem nul_notMem_forward (h : 0 ∉ s) : 0 ∉ forward s := by
  intro hmem
  obtain ⟨c, hc, he⟩ := List.mem_map.mp hmem
  split_ifs at he with hb
  · exact absurd he (by decide)
  · exact h (he ▸ hc)

/-- A pattern quoted with backslashes matches exactly its text, up to the kind of
slashes, if and only if there was nothing to quote. -/
theorem fnmatch_esc_iff (L : CStrings.Locale) (beyond : UInt8) (s : CString) :
    (∀ t : CString, fnmatch L beyond noFlags (esc s.bytes) t.bytes = 0 ↔
      EqUpToSlashes s.bytes t.bytes) ↔
      ∀ c ∈ s.bytes, isQuotable c = false := by
  constructor
  · intro h
    by_contra hne
    push Not at hne
    obtain ⟨c, hc, hq⟩ := hne
    have hq : isQuotable c = true := Bool.not_eq_false _ ▸ hq
    have hmatch := (h ⟨forward s.bytes, nul_notMem_forward s.nul_notMem⟩).mpr
      (eqUpToSlashes_forward s.bytes)
    exact (fnmatch_in_step L beyond s.bytes).1 ⟨c, hc, hq⟩ hmatch
  · intro hs t
    rw [esc_of_plain hs]
    exact fnmatch_of_plain hs s.nul_notMem t.bytes

def star : CString := ⟨['*'.toUInt8], by decide⟩

/-- A star behind a backslash does not match a star. -/
theorem fnmatch_esc_star :
    ¬ (fnmatch cLocale 0 noFlags (esc star.bytes) star.bytes = 0 ↔
      EqUpToSlashes star.bytes star.bytes) := by
  intro h
  exact (fnmatch_in_step cLocale 0 star.bytes).1 ⟨_, List.mem_singleton_self _, by decide⟩
    (h.mpr (.cons (.inl rfl) .nil))

end DjgppLibc.Fnmatch
