import DjgppLibc.GlobBounds

/-!
# When the search stays inside its buffer (`posix/glob/glob.c`)

A nested call is further in the buffer or has less of the pattern, so the fuel is enough
for all directories: a call ends, or stores outside. With memory for all names a store
outside is then all that can stop the search, and `search_inside_iff` has the exact
condition for it.
-/
namespace DjgppLibc.GlobSearch

open CStrings Fnmatch Outcomes

/-- The search was short of fuel, or of memory where there should be enough. -/
def IsShort (supplied : Prop) (e : Stop) : Prop := e = .fuel ∨ e = .nospace ∧ supplied

def Supplied (supplied : Prop) (s : State) : Prop := supplied → ∀ n, s.malloc n = true

variable {supplied : Prop} {s : State} {o : Setting} {i : ℕ} {c : UInt8} {text : List UInt8}

section
variable (h : Supplied supplied s)
include h

theorem Supplied.nest (n : ℕ) :
    Supplied supplied { s with wildcardNesting := n } := h

theorem Supplied.turn (c : UInt8) :
    Supplied supplied { s with slash := c } := h

theorem ends_store (i : ℕ) (c : UInt8) :
    Outcome (IsShort supplied) True (fun s' => i ≤ PATHBUF_LEN ∧ Supplied supplied s') (s.store i c):= by
  unfold State.store
  split_ifs with hi
  · exact .pure ⟨Nat.le_of_lt_succ hi, h⟩
  · exact .other (by simp [IsShort])

theorem ends_storeAll (i : ℕ) (text : List UInt8) :
    Outcome (IsShort supplied) True (Supplied supplied) (s.storeAll i text) := by
  induction text generalizing s i with
  | nil => exact .pure h
  | cons c text ih => exact (ends_store h i c).andThen fun s₁ h₁ => ih h₁.2 (i + 1)

theorem ends_strcpy (i : ℕ) (text : List UInt8) :
    Outcome (IsShort supplied) True (Supplied supplied) (s.strcpy i text) :=
  ends_storeAll h i (text ++ [0])

theorem ends_add :
    Outcome (IsShort supplied) True (Supplied supplied) (add s) := by
  unfold add
  split_ifs with hsaved hmalloc
  · exact .pure h
  · exact .pure fun hs n => h hs (n + 2)
  · refine .other ?_
    rintro (he | ⟨-, hs⟩)
    · cases he
    · exact hmalloc ⟨h hs 0, h hs 1⟩

/-- The copy of a pattern does not go back, and what is left is not longer. -/
theorem ends_copyLiteral {pattern : List UInt8} {epathbuf : ℕ} (pp : List UInt8) {bp pslash : ℕ}
    {sp : Spelling} (hbp : epathbuf ≤ bp) (hpslash : epathbuf ≤ pslash + 1)
    (hpp : pp.length ≤ pattern.length) :
    Outcome (IsShort supplied) True
      (fun x => Supplied supplied x.1 ∧ epathbuf ≤ x.2.bp ∧ x.2.pp.length ≤ pattern.length)
      (copyLiteral o pattern epathbuf pp bp pslash sp s) := by
  induction pp generalizing bp pslash sp s with
  | nil => exact .pure ⟨h, hbp, hpp⟩
  | cons c pp ih =>
      have hpp' : pp.length ≤ pattern.length := Nat.le_of_succ_le hpp
      rw [copyLiteral]
      by_cases hfull : pathbufEnd ≤ bp
      · rw [if_pos hfull]
        exact .pure ⟨h, hbp, hpp⟩
      rw [if_neg hfull]
      by_cases hsep : isSeparator c = true
      · rw [if_pos hsep]
        by_cases hdots : dotsFollow pp = true
        · rw [if_pos hdots]
          exact (ends_store (h.turn _) bp c).andThen fun s₁ h₁ => .pure ⟨h₁.2,
            Nat.le_succ_of_le hbp, hpp'⟩
        · rw [if_neg hdots]
          exact (ends_store h bp c).andThen fun s₁ h₁ =>
            ih h₁.2 (Nat.le_succ_of_le hbp) (Nat.le_succ_of_le hbp) hpp'
      rw [if_neg hsep]
      by_cases hwild : isWildcard c = true
      · rw [if_pos hwild]
        have hstrncpy : Outcome (IsShort supplied) True (Supplied supplied)
            (if pathbuf < pslash then s.strncpy epathbuf pattern (pslash - pathbuf)
              else .ok s) := by
          split_ifs
          · exact ends_storeAll h epathbuf _
          · exact .pure h
        refine hstrncpy.andThen fun s₁ h₁ => .pure ⟨h₁, hpslash, ?_⟩
        rw [List.length_drop]
        exact Nat.sub_le _ _
      · rw [if_neg hwild]
        exact (ends_store h bp c).andThen fun s₁ h₁ => ih h₁.2 (Nat.le_succ_of_le hbp) hpslash hpp'

theorem ends_endOfPattern :
    Outcome (IsShort supplied) True (Supplied supplied) (endOfPattern o s) := by
  have hmark : Outcome (IsShort supplied) True (Supplied supplied)
      (if o.mark = true ∧ isDirectory o s.text = true then do
        let i := pathbuf + s.text.length
        let s ← s.store i slashByte
        s.store (i + 1) 0
      else .ok s) := by
    split_ifs
    · exact (ends_store h _ _).andThen fun s₁ h₁ => (ends_store h₁.2 _ _).mono fun s₂ h₂ => h₂.2
    · exact .pure h
  unfold endOfPattern
  by_cases hexists : o.tree.fileExists s.text = true
  · rw [if_pos hexists]
    exact hmark.andThen fun s₁ h₁ => ends_add h₁
  · rw [if_neg hexists]
    exact .pure h

theorem ends_checkInitial (bp : ℕ) :
    Outcome (IsShort supplied) True (fun x => Supplied supplied x.1) (checkInitial o bp s) := by
  unfold checkInitial
  by_cases hn : s.wildcardNesting ≠ 0
  · rw [if_pos hn]
    refine (ends_store h _ _).andThen fun s₁ h₁ => ?_
    by_cases hexists : o.tree.fileExists s₁.text = true
    · rw [if_neg (not_not.mpr hexists)]
      exact (ends_store h₁.2 _ _).andThen fun s₂ h₂ => .pure h₂.2
    · rw [if_pos hexists]
      exact .pure h₁.2
  · rw [if_neg hn]
    exact .pure h

theorem ends_addItself (epathbuf : ℕ) :
    Outcome (IsShort supplied) True (Supplied supplied) (addItself o epathbuf s) := by
  have hname : ∀ s₁ : State, Supplied supplied s₁ → Outcome (IsShort supplied) True
    (Supplied supplied)
      (if epathbuf = pathbuf then do
        let s ← s₁.store epathbuf dot
        s.store (epathbuf + 1) 0
      else s₁.store (epathbuf - 1) 0) := by
    intro s₁ h₁
    split_ifs
    · exact (ends_store h₁ _ _).andThen fun s₂ h₂ => (ends_store h₂.2 _ _).mono fun s₃ h₃ => h₃.2
    · exact (ends_store h₁ _ _).mono fun s₂ h₂ => h₂.2
  have hadd : ∀ s₁ : State, Supplied supplied s₁ → Outcome (IsShort supplied) True
    (Supplied supplied)
      (if o.tree.fileExists s₁.text then add s₁ else .ok s₁) := by
    intro s₁ h₁
    split_ifs
    · exact ends_add h₁
    · exact .pure h₁
  unfold addItself
  exact (ends_store h _ _).andThen fun s₁ h₁ => (hname s₁ h₁.2).andThen fun s₂ h₂ =>
    (hadd s₂ h₂).andThen fun s₃ h₃ => (ends_store h₃ _ _).mono fun s₄ h₄ => h₄.2

theorem ends_matchEntry {next : List UInt8 → ℕ → State → Result State} {seg rest : List UInt8}
    {sp : Spelling} {bp : ℕ} (e : Entry)
    (hnext : rest ≠ [] → ∀ tp s', bp < tp → tp ≤ PATHBUF_LEN → Supplied supplied s' →
      Outcome (IsShort supplied) True (Supplied supplied) (next (rest.drop 1) tp s')) :
    Outcome (IsShort supplied) True (Supplied supplied) (matchEntry o next seg rest sp bp s e) := by
  unfold matchEntry
  by_cases hdot : e.isDir = true ∧ isDotOrDotdot e.name.bytes = true
  · rw [if_pos hdot]
    exact .pure h
  rw [if_neg hdot]
  dsimp only
  by_cases hmatch : fnmatch o.locale o.beyond ⟨true, true, sp.caseless⟩ seg
      (lowered sp.lower e.name.bytes) = 0
  · rw [if_pos hmatch]
    refine (ends_strcpy h _ _).andThen fun s₁ h₁ => ?_
    cases rest with
    | nil =>
        have hmark : Outcome (IsShort supplied) True (Supplied supplied)
            (if e.isDir = true ∧ o.mark = true then do
              let s ← s₁.store (bp + (lowered sp.lower e.name.bytes).length + 1) 0
              s.store (bp + (lowered sp.lower e.name.bytes).length) s.slash
            else .ok s₁) := by
          split_ifs
          · exact (ends_store h₁ _ _).andThen fun s₂ h₂ => (ends_store h₂.2 _ _).mono
              fun s₃ h₃ => h₃.2
          · exact .pure h₁
        exact hmark.andThen fun s₂ h₂ => ends_add h₂
    | cons c rest =>
        refine (ends_store h₁ _ _).andThen fun s₂ h₂ => (ends_store h₂.2 _ _).andThen
          fun s₃ h₃ => ?_
        refine (hnext (List.cons_ne_nil c rest) _ _ ?_ h₃.1 (h₃.2.nest _)).andThen fun s₄ h₄ =>
          .pure (h₄.nest _)
        omega
  · rw [if_neg hmatch]
    exact .pure h

theorem ends_enterDirectory {next below : ℕ → State → Result State} {isEnd : Bool} {epathbuf : ℕ} (e : Entry)
    (hnext : ∀ tp s', epathbuf < tp → tp ≤ PATHBUF_LEN → Supplied supplied s' →
      Outcome (IsShort supplied) True (Supplied supplied) (next tp s'))
    (hbelow : ∀ tp s', epathbuf < tp → tp ≤ PATHBUF_LEN → Supplied supplied s' →
      Outcome (IsShort supplied) True (Supplied supplied) (below tp s')) :
    Outcome (IsShort supplied) True (Supplied supplied)
      (enterDirectory o next below isEnd epathbuf s e) := by
  have hcut : ∀ (i : ℕ) (s₁ : State), Supplied supplied s₁ →
      Outcome (IsShort supplied) True (Supplied supplied)
        (if ¬ o.mark = true then s₁.store i 0 else .ok s₁) := by
    intro i s₁ h₁
    by_cases hmark : o.mark = true
    · rw [if_neg (not_not.mpr hmark)]
      exact .pure h₁
    · rw [if_pos hmark]
      exact (ends_store h₁ i 0).mono fun s₂ h₂ => h₂.2
  have hself : ∀ (i : ℕ) (s₁ : State), epathbuf ≤ i → i + 1 ≤ PATHBUF_LEN → Supplied supplied s₁ →
      Outcome (IsShort supplied) True (Supplied supplied)
        (if ¬ isEnd = true then next (i + 1) s₁
        else do
          let s ← (if ¬ o.mark = true then s₁.store i 0 else .ok s₁)
          let s ← add s
          s.store i s.slash) := by
    intro i s₁ hi hlen h₁
    cases isEnd with
    | false =>
        rw [if_pos (by simp)]
        exact hnext _ _ (Nat.lt_succ_of_le hi) hlen h₁
    | true =>
        rw [if_neg (by simp)]
        exact (hcut i s₁ h₁).andThen fun s₂ h₂ => (ends_add h₂).andThen fun s₃ h₃ =>
          (ends_store h₃ _ _).mono fun s₄ h₄ => h₄.2
  unfold enterDirectory
  by_cases hb : e.isDir = true ∧ ¬ isDotOrDotdot e.name.bytes = true
  · rw [if_pos hb]
    exact (ends_strcpy h _ _).andThen fun s₁ h₁ => (ends_store h₁ _ _).andThen fun s₂ h₂ =>
      (ends_store h₂.2 _ _).andThen fun s₃ h₃ =>
        (hself _ _ (Nat.le_add_right _ _) h₃.1 (h₃.2.nest _)).andThen fun s₄ h₄ =>
          (ends_store h₄ _ _).andThen fun s₅ h₅ =>
            (hbelow _ _ (Nat.lt_succ_of_le (Nat.le_add_right _ _)) h₅.1 h₅.2).andThen fun s₆ h₆ =>
              .pure (h₆.nest _)
  · rw [if_neg hb]
    exact .pure h

end

/-- Enough fuel for the calls of both functions. -/
structure Ends (o : Setting) (supplied : Prop) (fuel : ℕ) : Prop where
  search : ∀ {pattern : List UInt8} {epathbuf : ℕ} {s : State}, epathbuf ≤ PATHBUF_LEN →
    2 * (PATHBUF_LEN + 2 - epathbuf + pattern.length) ≤ fuel → Supplied supplied s →
    Outcome (IsShort supplied) True (Supplied supplied) (glob2 o fuel pattern epathbuf o.spelling s)
  dirs : ∀ {rest : List UInt8} {epathbuf : ℕ} {first : Bool} {s : State}, epathbuf ≤ PATHBUF_LEN →
    2 * (PATHBUF_LEN + 2 - epathbuf + rest.length) + 1 ≤ fuel → Supplied supplied s →
    Outcome (IsShort supplied) True (Supplied supplied) (globDirs o fuel rest epathbuf first s)

theorem ends_globDirs {fuel : ℕ} (ih : Ends o supplied fuel) {rest : List UInt8} {epathbuf : ℕ}
    {first : Bool} (hin : epathbuf ≤ PATHBUF_LEN)
    (hfuel : 2 * (PATHBUF_LEN + 2 - epathbuf + rest.length) + 1 ≤ fuel + 1)
    (h : Supplied supplied s) :
    Outcome (IsShort supplied) True (Supplied supplied)
    (globDirs o (fuel + 1) rest epathbuf first s) := by
  have hself : Outcome (IsShort supplied) True (Supplied supplied)
      (if first = true then
        if rest ≠ [] then glob2 o fuel rest epathbuf o.spelling s else addItself o epathbuf s
      else .ok s) := by
    by_cases hfirst : first = true
    · rw [if_pos hfirst]
      by_cases hrest : rest ≠ []
      · rw [if_pos hrest]
        exact ih.search hin (by omega) h
      · rw [if_neg hrest]
        exact ends_addItself h epathbuf
    · rw [if_neg hfirst]
      exact .pure h
  rw [globDirs]
  refine hself.andThen fun s₁ h₁ => (ends_strcpy h₁ _ _).andThen fun s₂ h₂ => ?_
  refine .foldlM_true _ h₂ fun e _ s₃ h₃ => ?_
  exact ends_enterDirectory h₃ e (fun tp s' htp hlen hs' => ih.search hlen (by omega) hs')
    (fun tp s' htp hlen hs' => ih.dirs hlen (by omega) hs')

theorem ends_globSegment {fuel : ℕ} (ih : Ends o supplied fuel) {pattern : List UInt8}
    {epathbuf : ℕ}
    (cur : Cursor) (hbp : epathbuf ≤ cur.bp) (hin : cur.bp ≤ PATHBUF_LEN)
    (hpp : cur.pp.length ≤ pattern.length)
    (hfuel : 2 * (PATHBUF_LEN + 2 - epathbuf + pattern.length) ≤ fuel + 1)
    (h : Supplied supplied s) :
    Outcome (IsShort supplied) True (Supplied supplied)
      (globSegment o (fun rest bp => globDirs o fuel rest bp true)
        (fun rest tp => glob2 o fuel rest tp o.spelling) cur s) := by
  have hsplit := congrArg List.length
    (List.takeWhile_append_dropWhile (p := fun c => !isslash c) (l := cur.pp))
  rw [List.length_append] at hsplit
  have hdrop := List.length_drop (i := 1) (l := cur.pp.dropWhile (!isslash ·))
  unfold globSegment
  dsimp only
  by_cases hseg : cur.pp.takeWhile (!isslash ·) = dots
  · rw [if_pos hseg]
    have hthree : (cur.pp.takeWhile (!isslash ·)).length = 3 := by rw [hseg]; rfl
    exact ih.dirs hin (by omega) (h.turn _)
  · rw [if_neg hseg]
    refine (ends_strcpy (h.turn _) _ _).andThen fun s₁ h₁ => ?_
    refine .foldlM_true _ h₁ fun e _ s₂ h₂ => ?_
    refine ends_matchEntry h₂ e fun hrest tp s' htp hlen hs' => ih.search hlen ?_ hs'
    have hpos := List.length_pos_iff.mpr hrest
    omega

theorem ends_glob2 {fuel : ℕ} (ih : Ends o supplied fuel) {pattern : List UInt8} {epathbuf : ℕ}
    (hin : epathbuf ≤ PATHBUF_LEN)
    (hfuel : 2 * (PATHBUF_LEN + 2 - epathbuf + pattern.length) ≤ fuel + 1)
    (h : Supplied supplied s) :
    Outcome (IsShort supplied) True (Supplied supplied)
      (glob2 o (fuel + 1) pattern epathbuf o.spelling s) := by
  have hlead : ∀ n, pattern.take 3 = dots → 3 ≤ n →
      2 * (PATHBUF_LEN + 2 - epathbuf + (pattern.drop n).length) + 1 ≤ fuel := by
    intro n hdots hn
    have hthree := congrArg List.length hdots
    rw [List.length_take, show dots.length = 3 from rfl] at hthree
    rw [List.length_drop]
    omega
  rw [glob2]
  by_cases hdots : pattern = dots
  · rw [if_pos hdots]
    exact ih.dirs hin (hlead 3 (by rw [hdots]; rfl) (Nat.le_refl 3)) h
  rw [if_neg hdots]
  by_cases hslash : pattern.take 3 = dots ∧ (pattern.drop 3).head?.any isslash = true
  · rw [if_pos hslash]
    exact ih.dirs hin (hlead 4 hslash.1 (by decide)) (h.turn _)
  rw [if_neg hslash]
  refine (ends_store h _ _).andThen fun s₁ h₁ =>
    (ends_copyLiteral h₁.2 pattern (Nat.le_refl _) (by omega)
      (Nat.le_refl _)).andThen fun x hx => ?_
  obtain ⟨s₂, cur⟩ := x
  obtain ⟨h₂, hbp, hpp⟩ := hx
  refine (ends_store h₂ _ _).andThen fun s₃ h₃ => ?_
  by_cases hfull : pathbufEnd ≤ cur.bp ∧ cur.pp ≠ []
  · rw [if_pos hfull]
    exact .pure h₃.2
  rw [if_neg hfull]
  by_cases hend : cur.pp = []
  · rw [if_pos hend]
    exact ends_endOfPattern h₃.2
  rw [if_neg hend]
  refine (ends_checkInitial h₃.2 _).andThen fun x h₄ => ?_
  obtain ⟨s₄, found⟩ := x
  cases found with
  | false => exact .pure h₄
  | true => exact ends_globSegment ih cur hbp h₃.1 hpp hfuel h₄

theorem ends (o : Setting) (supplied : Prop) (fuel : ℕ) : Ends o supplied fuel := by
  induction fuel with
  | zero =>
      exact ⟨fun hin hfuel => absurd hfuel (by omega), fun hin hfuel => absurd hfuel (by omega)⟩
  | succ fuel ih =>
      exact ⟨fun hin hfuel h => ends_glob2 ih hin hfuel h, fun hin hfuel h =>
        ends_globDirs ih hin hfuel h⟩

def Reached (o : Setting) (pattern : CString) : Place → Prop :=
  Relation.ReflTransGen (Calls o) (.search pattern.bytes [] false)

def Inside (o : Setting) (pattern : CString) : Prop :=
  ∀ buf malloc, search o pattern buf malloc ≠ .error .outside

theorem ready_start (o : Setting) (buf : ℕ → UInt8) (malloc : ℕ → Bool) :
    Ready o [] false ⟨buf, slashByte, 0, [], malloc⟩ :=
  ⟨fun _ hk => (nomatch hk), List.not_mem_nil, by simp, rfl, fun hn => (nomatch hn),
    fun hn => (nomatch hn)⟩

theorem ends_search (o : Setting) (pattern : CString) (buf : ℕ → UInt8) {malloc : ℕ → Bool}
    (h : supplied → ∀ n, malloc n = true) :
    Outcome (IsShort supplied) True (Supplied supplied) (search o pattern buf malloc) := by
  refine (ends o supplied (enough pattern.bytes)).search (by decide) ?_ h
  unfold enough
  omega

/-- Exactly when there is room at each place that the search comes to, no store is outside
of the buffer. -/
theorem search_inside_iff (o : Setting) (pattern : CString) :
    Inside o pattern ↔ ∀ place, Reached o pattern place → Room o place := by
  have hfollows := fun buf malloc =>
    (follows o (enough pattern.bytes)).search pattern.nul_notMem (ready_start o buf malloc)
  refine ⟨fun hin => ?_, fun hsafe buf malloc he => (hfollows buf malloc).error _ he rfl hsafe⟩
  have hends := ends_search o pattern (fun _ => 0) (fun (_ : True) _ => rfl)
  have hend : ∀ e, search o pattern (fun _ => 0) (fun _ => true) = .error e → e = .outside := by
    intro e he
    cases e with
    | outside => rfl
    | fuel => exact absurd trivial (hends.error _ he (.inl rfl))
    | nospace => exact absurd trivial (hends.error _ he (.inr ⟨rfl, trivial⟩))
  exact ((hfollows (fun _ => 0) fun _ => true).iff hend).mpr fun e he =>
    hin _ _ (hend e he ▸ he)

/-- There is no file at all. -/
def noFiles : Tree where
  find _ _ := []
  fileExists _ := false
  find_forward _ _ := rfl
  exists_forward _ := rfl
  found _ _ _ _ he := absurd he List.not_mem_nil

/-- A directory name of 1997 characters in front of `*`. -/
def longPattern : CString :=
  ⟨List.replicate 1997 'a'.toUInt8 ++ [slashByte, '*'.toUInt8], by decide +kernel⟩

/-- The mask does not fit behind a directory that is not even there. -/
theorem search_not_inside : ¬ Inside ⟨noFiles, cLocale, false, false, true, false, 0⟩ longPattern :=
  by
  intro h
  have hin := h (fun _ => 0) (fun _ => true)
  have hout : (match search ⟨noFiles, cLocale, false, false, true, false, 0⟩ longPattern
      (fun _ => 0) (fun _ => true) with
    | .error .outside => true
    | _ => false) = true := by decide +kernel
  generalize search ⟨noFiles, cLocale, false, false, true, false, 0⟩ longPattern
    (fun _ => 0) (fun _ => true) = res at hin hout
  split at hout
  · exact hin rfl
  · cases hout

end DjgppLibc.GlobSearch
