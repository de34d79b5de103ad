import DjgppLibc.GlobBuffer
import DjgppLibc.GlobPlaces

/-!
# The calls of the search (`posix/glob/glob.c`)

The copy of a pattern stops at the end of the buffer. Nothing else is checked: the mask
behind the directory, a name with its slash or mark, and the bytes that `strncpy` puts
again over the literal part, as many as stand in front of the wildcard from the start of
the whole buffer. A call has no store outside if and only if it is safe (`follows`).

A call may be followed without looking at the buffer since it changes nothing in front of
its place, and puts back the slash that it takes away there.
-/
namespace DjgppLibc.GlobSearch

open CStrings Fnmatch Outcomes

variable {s s' s'' : State} {i j k n : ℕ} {c : UInt8} {t u p text : List UInt8} {o : Setting}
  {pattern rest seg : List UInt8} {nested first wild : Bool} {start : ℕ} {sp : Spelling}

@[simp] theorem length_lowered (lower : Bool) (name : List UInt8) :
    (lowered lower name).length = name.length := by
  unfold lowered
  split_ifs
  · rw [List.length_append, List.length_map, List.length_take, List.length_drop]
    omega
  · rfl

def Copied (pattern text : List UInt8) (s : State) : Literal → State × Cursor → Prop
  | .stuck, (s', c) => Kept (1 + text.length) s s' ∧ c.bp = pathbufEnd ∧ c.pp ≠ []
  | .whole, (s', c) => Kept (1 + text.length) s s' ∧ c.bp = 1 + (text ++ forward pattern).length ∧
      c.bp ≤ pathbufEnd ∧ c.pp = [] ∧ Reads s'.buf pathbuf (text ++ forward pattern)
  | .segment start sp _, (s', c) => Kept (1 + text.length) s s' ∧
      c.bp = 1 + (initial pattern text start).length ∧ c.bp < pathbufEnd ∧
      c.pp = pattern.drop start ∧ c.pp ≠ [] ∧ c.spelling = sp ∧
      Reads s'.buf pathbuf (initial pattern text start)

/-- What `strncpy` stores over the literal part has room. -/
def Strncpy (text : List UInt8) : Literal → Prop
  | .segment start _ true => 1 < text.length + start → 2 * text.length + start ≤ PATHBUF_LEN + 1
  | _ => True

theorem Copied.of_kept {l : Literal} {x : State × Cursor} (h : Copied pattern text s' l x)
    (hk : Kept (1 + text.length) s s') : Copied pattern text s l x := by
  cases l with
  | stuck => exact h.imp_left hk.trans
  | whole => exact h.imp_left hk.trans
  | segment start sp wild => exact h.imp_left hk.trans

variable {done pp : List UInt8} {bp pslash : ℕ}

theorem Reads.store (h : Reads s.buf pathbuf (text ++ forward done))
    (hbp : bp = 1 + text.length + done.length)
    (hs : Stored s bp [c] s') : Reads s'.buf pathbuf (text ++ forward (done ++ [c])) := by
  have hlen : pathbuf + (text ++ forward done).length = bp := by
    rw [List.length_append, length_forward, pathbuf]
    omega
  rw [forward_append, ← List.append_assoc]
  refine (h.kept (hs.kept (Nat.le_refl bp)) hlen.le).append ?_
  rw [hlen]
  exact hs.reads

theorem length_strncpy (pattern : List UInt8) (n : ℕ) :
    (pattern.take n ++ List.replicate (n - pattern.length) 0).length = n := by
  rw [List.length_append, List.length_take, List.length_replicate]
  omega

/-- `strncpy` stores what the literal part has there already. -/
theorem reads_strncpy (hreads : Reads s.buf pathbuf (text ++ forward done))
    (hpattern : pattern = done ++ pp) (hstart : start ≤ done.length) {n : ℕ}
    (hs : Stored s (1 + text.length) (pattern.take n ++ List.replicate (n - pattern.length) 0) s') :
    Reads s'.buf pathbuf (initial pattern text start) := by
  have hinitial : initial pattern text start = text ++ forward (done.take start) := by
    rw [initial, hpattern, List.take_append_of_le_length hstart]
  have hlen := length_strncpy pattern n
  have hdone : done.length ≤ pattern.length := by
    rw [hpattern, List.length_append]
    omega
  rw [hinitial]
  intro k hk
  rw [List.length_append, length_forward, List.length_take] at hk
  have hold := hreads k (by rw [List.length_append, length_forward]; omega)
  rw [List.getElem_append] at hold ⊢
  split_ifs at hold ⊢ with htext
  · rw [hs.outside (pathbuf + k) (.inl (by rw [pathbuf]; omega))]
    exact hold
  · simp only [forward_eq, List.getElem_map, List.getElem_take] at hold ⊢
    by_cases hn : k - text.length < n
    · have hin := hs.inside (k - text.length) (by omega)
      rw [show pathbuf + k = 1 + text.length + (k - text.length) by rw [pathbuf]; omega, hin,
        List.getElem_append_left (by rw [List.length_take]; omega), List.getElem_take]
      simp only [hpattern]
      rw [List.getElem_append_left (by omega)]
    · rw [hs.outside (pathbuf + k) (.inr (by rw [pathbuf]; omega))]
      exact hold

/-- At a wildcard, `strncpy` goes as far as the segment is from the start of the buffer. -/
theorem outcome_strncpy (hpattern : pattern = done ++ pp)
    (hreads : Reads s.buf pathbuf (text ++ forward done)) (hstart : start ≤ done.length) :
    Outcome IsOutside (1 < text.length + start → 2 * text.length + start ≤ PATHBUF_LEN + 1)
      (fun s' => Kept (1 + text.length) s s' ∧ Reads s'.buf pathbuf (initial pattern text start))
      (if pathbuf < text.length + start then
        s.strncpy (1 + text.length) pattern (text.length + start - pathbuf) else .ok s) := by
  have hpathbuf : pathbuf = 1 := rfl
  split_ifs with hlt
  · refine ((outcome_storeAll s _ _).mono fun s₁ h₁ => ⟨h₁.kept (Nat.le_refl _),
      reads_strncpy hreads hpattern hstart h₁⟩).congr ?_
    have hlen := length_strncpy pattern (text.length + start - pathbuf)
    rw [← List.length_eq_zero_iff, hlen]
    omega
  · refine (Outcome.pure ⟨Kept.refl _ s, ?_⟩).congr (iff_of_true trivial fun h =>
      absurd h (by omega))
    have hsplit : text ++ forward done = initial pattern text start ++ forward
        (done.drop start) := by
      rw [initial, hpattern, List.take_append_of_le_length hstart, List.append_assoc,
        ← forward_append, List.take_append_drop]
    rw [hsplit] at hreads
    exact hreads.left

theorem copyLiteral_outcome (pp : List UInt8) (hpattern : pattern = done ++ pp)
    (hreads : Reads s.buf pathbuf (text ++ forward done)) (hbp : bp = 1 + text.length + done.length)
    (hend : bp ≤ PATHBUF_LEN) (hpslash : pslash = text.length + start)
    (hstart : start ≤ done.length) :
    Outcome IsOutside
      (Strncpy text (scan o (PATHBUF_LEN - 1 - text.length) pp done.length start sp))
      (Copied pattern text s (scan o (PATHBUF_LEN - 1 - text.length) pp done.length start sp))
      (copyLiteral o pattern (1 + text.length) pp bp pslash sp s) := by
  have hpathbufEnd : pathbufEnd = PATHBUF_LEN := rfl
  induction pp generalizing done start sp s bp pslash with
  | nil =>
      rw [List.append_nil] at hpattern
      subst hpattern
      refine (Outcome.pure ⟨Kept.refl _ s, ?_, hend, rfl, hreads⟩).congr
        (iff_of_true trivial trivial)
      rw [hbp, List.length_append, length_forward, Nat.add_assoc]
  | cons c pp ih =>
      have hpattern' : pattern = (done ++ [c]) ++ pp := by rw [hpattern, List.append_assoc]; rfl
      have hlen : (done ++ [c]).length = done.length + 1 := by
        rw [List.length_append, List.length_singleton]
      rw [copyLiteral, scan]
      by_cases hfull : pathbufEnd ≤ bp
      · rw [if_pos hfull, if_pos (by omega)]
        exact (Outcome.pure ⟨Kept.refl _ s, Nat.le_antisymm hend hfull,
          List.cons_ne_nil c pp⟩).congr
          (iff_of_true trivial trivial)
      rw [if_neg hfull, if_neg (by omega)]
      have hinitial : initial pattern text (done.length + 1) = text ++ forward (done ++ [c]) := by
        rw [initial, hpattern', ← hlen, List.take_left]
      -- a character is copied, and the loop goes on
      have hstep : ∀ start sp, start ≤ done.length + 1 → Outcome IsOutside
          (Strncpy text (scan o (PATHBUF_LEN - 1 - text.length) pp (done.length + 1) start sp))
          (Copied pattern text s (scan o (PATHBUF_LEN - 1 - text.length) pp
            (done.length + 1) start sp))
          (s.store bp c >>= fun s => copyLiteral o pattern (1 + text.length) pp (bp + 1)
            (text.length + start) sp s) := by
        intro start sp hle
        refine ((outcome_store s bp c).bind fun s₁ _ h₁ => ?_).congr (and_iff_right (by omega))
        refine Outcome.mono ?_ fun x (hx : Copied pattern text s₁ _ x) =>
          hx.of_kept (h₁.kept (by omega))
        rw [← hlen]
        exact ih hpattern' (hreads.store hbp h₁) (by omega) (by omega) rfl (by omega)
      by_cases hsep : isSeparator c = true
      · rw [if_pos hsep, if_pos hsep]
        by_cases hdots : dotsFollow pp = true
        · rw [if_pos hdots, if_pos hdots]
          have hne : pp ≠ [] := by
            rintro rfl
            exact absurd hdots (by decide)
          refine ((outcome_store _ bp c).bind fun s₁ _ h₁ => Outcome.pure ?_).congr ?_
          · have hkept : Kept (1 + text.length) s s₁ :=
              ⟨fun k hk => h₁.outside k (.inl (by omega)), by rw [h₁.fields], fun hslash => by
                rw [h₁.fields]
                dsimp only
                split_ifs with hc
                · exact (Bool.or_eq_true_iff.mp hsep).resolve_left (by simp [hc])
                · exact hslash⟩
            have hstored : Stored s bp [c] { s₁ with slash := s.slash } :=
              ⟨by rw [h₁.fields], h₁.outside, h₁.inside⟩
            have hread := hreads.store hbp hstored
            rw [← hinitial] at hread
            split_ifs with hroom
            · exact ⟨hkept, by dsimp only; omega, hne⟩
            · refine ⟨hkept, ?_, by dsimp only; omega, ?_, hne, rfl, hread⟩
              · dsimp only
                rw [hinitial, List.length_append, length_forward]
                omega
              · rw [hpattern', ← hlen, List.drop_left]
          · split_ifs
            · exact iff_of_true ⟨by omega, trivial⟩ trivial
            · exact iff_of_true ⟨by omega, trivial⟩ trivial
        · rw [if_neg hdots, if_neg hdots]
          have := hstep (done.length + 1) o.spelling (Nat.le_refl _)
          rwa [show text.length + (done.length + 1) = bp by omega] at this
      rw [if_neg hsep, if_neg hsep]
      by_cases hwild : isWildcard c = true
      · rw [if_pos hwild, if_pos hwild, hpslash]
        refine ((outcome_strncpy hpattern hreads hstart).bind fun s₁ _ ⟨hkept, hread⟩ =>
          Outcome.pure ?_).congr (and_iff_left trivial)
        have hstart' : start < pattern.length := by
          rw [hpattern', List.length_append, hlen]
          omega
        refine ⟨hkept, ?_, by dsimp only; omega, ?_, ?_, rfl, hread⟩
        · dsimp only
          rw [initial, List.length_append, length_forward, List.length_take]
          omega
        · rw [show text.length + start + 1 - (1 + text.length) = start by omega]
        · rw [show text.length + start + 1 - (1 + text.length) = start by omega]
          exact List.drop_eq_nil_iff.not.mpr (by omega)
      · rw [if_neg hwild, if_neg hwild, hpslash]
        exact hstep start (o.note sp c) (by omega)

theorem find_text (attrib : ℕ) (h : forward s.text = t) :
    o.tree.find attrib s.text = o.tree.find attrib t := by
  rw [← h, o.tree.find_forward]

theorem exists_text (h : forward s.text = t) : o.tree.fileExists s.text = o.tree.fileExists t := by
  rw [← h, o.tree.exists_forward]

theorem isDirectory_text (h : forward s.text = t) : isDirectory o s.text = isDirectory o t := by
  rw [isDirectory, find_text allFiles h, isDirectory]

theorem outcome_add (s : State) :
    Outcome IsOutside True (fun s' => s'.buf = s.buf ∧ s'.slash = s.slash ∧
      s'.wildcardNesting = s.wildcardNesting) (add s) := by
  unfold add
  split_ifs
  · exact .pure ⟨rfl, rfl, rfl⟩
  · exact .pure ⟨rfl, rfl, rfl⟩
  · exact .other (by decide)

theorem kept_of_eq (n : ℕ) (h : s'.buf = s.buf ∧ s'.slash = s.slash ∧
    s'.wildcardNesting = s.wildcardNesting) : Kept n s s' :=
  ⟨fun _ _ => by rw [h.1], h.2.2, by rw [h.2.1]; exact id⟩

theorem endOfPattern_outcome (h : forward s.text = t) :
    Outcome IsOutside (o.tree.fileExists t = true → o.mark = true → isDirectory o t = true →
      t.length + 1 < PATHBUF_LEN) (Kept (1 + t.length) s) (endOfPattern o s) := by
  have hlen : s.text.length = t.length := by rw [← h, length_forward]
  have hpathbuf : pathbuf = 1 := rfl
  unfold endOfPattern
  rw [exists_text h, isDirectory_text h, hlen, hpathbuf]
  by_cases hexists : o.tree.fileExists t = true
  · rw [if_pos hexists]
    by_cases hmark : o.mark = true ∧ isDirectory o t = true
    · rw [if_pos hmark]
      refine (((outcome_store s _ _).bind fun s₁ _ h₁ => (outcome_store s₁ _ _).mono fun s₂ h₂ =>
        (h₁.kept (Nat.le_refl _)).trans (h₂.kept (Nat.le_succ _))).bind fun s₂ _ h₂ =>
        (outcome_add s₂).mono fun s₃ h₃ => h₂.trans (kept_of_eq _ h₃)).congr
          ⟨fun h' _ _ _ => ?_, fun h' => ?_⟩
      · omega
      · have := h' hexists hmark.1 hmark.2
        exact ⟨by omega, trivial⟩
    · rw [if_neg hmark]
      refine ((Outcome.pure (Kept.refl (1 + t.length) s)).bind fun s₂ _ h₂ =>
        (outcome_add s₂).mono fun s₃ h₃ => h₂.trans (kept_of_eq _ h₃)).congr ?_
      exact iff_of_true ⟨trivial, trivial⟩ fun _ hm hd => absurd ⟨hm, hd⟩ hmark
  · rw [if_neg hexists]
    exact (Outcome.pure (Kept.refl _ s)).congr (iff_of_true trivial fun he => absurd he hexists)

/-- What holds when a call is made: the text is in front of its place, and of a nested call
it is a directory that exists. -/
structure Ready (o : Setting) (text : List UInt8) (nested : Bool) (s : State) : Prop where
  reads : Reads s.buf pathbuf text
  nul_notMem : 0 ∉ text
  nesting : nested = true ↔ s.wildcardNesting ≠ 0
  slash : isslash s.slash = true
  ne_nil : nested = true → text ≠ []
  isOpen : Open o nested text

theorem Ready.kept (h : Ready o text nested s) (hk : Kept (1 + text.length) s s') :
    Ready o text nested s' :=
  { h with
    reads := h.reads.kept hk (Nat.le_refl _)
    nesting := by rw [h.nesting, hk.nesting]
    slash := hk.slash h.slash }

/-- The slash in front of a wildcard is taken away and put back. -/
theorem checkInitial_outcome (h : Reads s.buf pathbuf text) (hnul : 0 ∉ text)
    (hlen : text.length < PATHBUF_LEN) (hnested : nested = true ↔ s.wildcardNesting ≠ 0)
    (hne : nested = true → text ≠ []) :
    Outcome IsOutside True (fun x => (x.2 = true ↔ Open o nested text) ∧
      Kept text.length s x.1 ∧ (x.2 = true → x.1.buf = s.buf))
      (checkInitial o (1 + text.length) s) := by
  unfold checkInitial
  by_cases hn : s.wildcardNesting ≠ 0
  · rw [if_pos hn]
    obtain ⟨t, c, rfl⟩ := (List.eq_nil_or_concat' text).resolve_left (hne (hnested.mpr hn))
    rw [List.length_append, List.length_singleton] at hlen ⊢
    rw [show 1 + (t.length + 1) - 1 = 1 + t.length by omega]
    refine ((outcome_store s _ 0).bind fun s₁ _ h₁ => ?_).congr
      (iff_of_true ⟨by omega, trivial⟩ trivial)
    have hk₁ : Kept (t.length + 1) s s₁ := h₁.kept (by omega)
    have hread : Reads s₁.buf pathbuf t :=
      h.left.congr fun k _ hk => hk₁.buf k (by rw [pathbuf] at hk; omega)
    have hzero : s₁.buf (pathbuf + t.length) = 0 := h₁.inside 0 Nat.zero_lt_one
    have htext := forward_text hread (fun hm => hnul (List.mem_append_left _ hm)) (by omega) hzero
    have hopen : Open o nested (t ++ [c]) ↔ o.tree.fileExists t = true := by
      rw [Open, List.dropLast_concat]
      exact ⟨fun ho => ho (hnested.mpr hn), fun he _ => he⟩
    rw [exists_text htext, hopen]
    by_cases hexists : o.tree.fileExists t = true
    · rw [if_neg (not_not.mpr hexists)]
      refine ((outcome_store s₁ _ _).bind fun s₂ _ h₂ => Outcome.pure ?_).congr
        (iff_of_true ⟨by omega, trivial⟩ trivial)
      refine ⟨iff_of_true rfl hexists, hk₁.trans (h₂.kept (by omega)), fun _ => funext fun k => ?_⟩
      by_cases hk : k = 1 + t.length
      · subst hk
        exact h₂.inside 0 Nat.zero_lt_one
      · rw [h₂.outside k (by rw [List.length_singleton]; omega),
          h₁.outside k (by rw [List.length_singleton]; omega)]
    · rw [if_pos hexists]
      exact .pure ⟨iff_of_false (by simp) hexists, hk₁, fun hx => (nomatch hx)⟩
  · rw [if_neg hn]
    exact .pure ⟨iff_of_true rfl fun ho => absurd (hnested.mp ho) hn, Kept.refl _ s, fun _ => rfl⟩

theorem addItself_outcome (s : State) (t : List UInt8) :
    Outcome IsOutside (1 + t.length ≤ PATHBUF_LEN) (Kept (1 + t.length) s)
      (addItself o (1 + t.length) s) := by
  have hpathbuf : pathbuf = 1 := rfl
  have hlong : PATHBUF_LEN = 2000 := rfl
  -- what has to be put back is in front of the name that is looked for
  have hname : ∀ s₁ : State, 1 + t.length ≤ PATHBUF_LEN → Outcome IsOutside True (Kept t.length s₁)
      (if 1 + t.length = pathbuf then do
        let s ← s₁.store (1 + t.length) dot
        s.store (1 + t.length + 1) 0
      else s₁.store (1 + t.length - 1) 0) := by
    intro s₁ hroom
    split_ifs with ht
    · refine ((outcome_store s₁ _ _).bind fun s₂ _ h₂ => (outcome_store s₂ _ _).mono fun s₃ h₃ =>
        (h₂.kept (by omega)).trans (h₃.kept (by omega))).congr
          (iff_of_true ⟨hroom, by omega⟩ trivial)
    · exact ((outcome_store s₁ _ _).mono fun s₂ h₂ => h₂.kept (by omega)).congr
        (iff_of_true (by omega) trivial)
  have hadd : ∀ s₁ : State, Outcome IsOutside True (Kept t.length s₁)
      (if o.tree.fileExists s₁.text then add s₁ else .ok s₁) := by
    intro s₁
    split_ifs
    · exact (outcome_add s₁).mono fun s₂ h₂ => kept_of_eq _ h₂
    · exact .pure (Kept.refl _ s₁)
  unfold addItself
  refine ((outcome_store s _ _).bind fun s₁ hroom h₁ => (hname s₁ hroom).bind fun s₂ _ h₂ =>
    (hadd s₂).bind fun s₃ _ h₃ => (outcome_store s₃ _ _).mono fun s₄ h₄ => ?_).congr
    ⟨fun h => h.1, fun h => ⟨h, trivial, trivial, by omega⟩⟩
  have hkept : Kept t.length s s₄ :=
    (((h₁.kept (by omega)).trans h₂).trans h₃).trans (h₄.kept (by omega))
  refine ⟨fun k hk => ?_, hkept.nesting, hkept.slash⟩
  by_cases hlast : k = 1 + t.length - 1
  · subst hlast
    exact h₄.inside 0 Nat.zero_lt_one
  · exact hkept.buf k (by omega)

@[simp] theorem length_inside (text : List UInt8) (lower : Bool) (e : Entry) :
    (inside text lower e).length = text.length + e.name.bytes.length + 1 := by
  rw [inside, List.length_append, List.length_append, length_forward, length_lowered,
    List.length_singleton]

theorem zero_notMem_lowered (lower : Bool) (name : CString) : 0 ∉ lowered lower name.bytes := by
  have htolower : ∀ c, msdosTolowerFname c = 0 → c = 0 := forall_byte (by decide +kernel)
  unfold lowered
  split_ifs
  · rw [List.mem_append, List.mem_map, not_or]
    refine ⟨?_, fun hm => name.nul_notMem (List.mem_of_mem_drop hm)⟩
    rintro ⟨c, hc, h0⟩
    exact name.nul_notMem (htolower c h0 ▸ List.mem_of_mem_take hc)
  · exact name.nul_notMem

theorem Ready.enter {s₁ s₂ s₃ : State} {attrib : ℕ} {lower : Bool} {e : Entry}
    (h : Ready o text nested s) (he : e ∈ o.tree.find attrib (text ++ anyName))
    (h₁ : Stored s (1 + text.length) (lowered lower e.name.bytes ++ [0]) s₁)
    (h₂ : Stored s₁ (1 + text.length + e.name.bytes.length) [c] s₂) (hc : isslash c = true)
    (h₃ : Stored s₂ (1 + text.length + e.name.bytes.length + 1) [0] s₃) :
    Ready o (inside text lower e) true { s₃ with wildcardNesting := s₃.wildcardNesting + 1 } where
  reads := by
    have hk₁ : Kept (1 + text.length) s s₁ := h₁.kept (Nat.le_refl _)
    have hk₂ : Kept (1 + text.length + e.name.bytes.length) s₁ s₂ := h₂.kept (Nat.le_refl _)
    have hk₃ : Kept (1 + text.length + e.name.bytes.length + 1) s₂ s₃ := h₃.kept (Nat.le_refl _)
    have htext : Reads s₃.buf pathbuf text :=
      ((h.reads.kept hk₁ (Nat.le_refl _)).kept hk₂ (by rw [pathbuf]; omega)).kept hk₃
        (by rw [pathbuf]; omega)
    have hname : Reads s₃.buf (pathbuf + text.length) (forward (lowered lower e.name.bytes)) := by
      have hread := h₁.reads
      rw [forward_append] at hread
      have hlen : (forward (lowered lower e.name.bytes)).length = e.name.bytes.length := by
        rw [length_forward, length_lowered]
      exact (hread.left.kept hk₂ (by omega)).kept hk₃ (by omega)
    have hslash : Reads s₃.buf (pathbuf + (text ++ forward (lowered lower e.name.bytes)).length)
        [slashByte] := by
      intro k hk
      rw [List.length_singleton] at hk
      obtain rfl : k = 0 := by omega
      have hlen : pathbuf + (text ++ forward (lowered lower e.name.bytes)).length + 0 =
          1 + text.length + e.name.bytes.length + 0 := by
        rw [List.length_append, length_forward, length_lowered, pathbuf]
        omega
      rw [hlen, hk₃.buf _ (by omega), h₂.inside 0 Nat.zero_lt_one]
      exact turn_of_isslash hc
    exact (htext.append hname).append hslash
  nul_notMem := by
    rw [inside, List.mem_append, List.mem_append, List.mem_singleton]
    rintro ((hm | hm) | hm)
    · exact h.nul_notMem hm
    · exact zero_notMem_forward (zero_notMem_lowered lower e.name) hm
    · exact absurd hm (by decide)
  nesting := iff_of_true rfl (Nat.succ_ne_zero _)
  slash := by
    rw [h₃.fields, h₂.fields, h₁.fields]
    exact h.slash
  ne_nil := fun _ => by simp [inside]
  isOpen := fun _ => by
    have hforward : text ++ forward (lowered lower e.name.bytes) =
        forward (text ++ lowered lower e.name.bytes) := by
      rw [forward_append, h.reads.forward_eq_self]
    rw [inside, List.dropLast_concat, hforward, o.tree.exists_forward]
    exact o.tree.found attrib text lower e he

theorem Kept.leave {s₁ s₂ s₃ s₄ : State} {m : ℕ} {text u : List UInt8}
    (h₁ : Stored s (1 + text.length) u s₁)
    (h₂ : Stored s₁ i [c] s₂) (hi : text.length < i) (h₃ : Stored s₂ (i + 1) [0] s₃)
    (h₄ : Kept m { s₃ with wildcardNesting := s₃.wildcardNesting + 1 } s₄) (hm : text.length < m) :
    Kept (1 + text.length) s { s₄ with wildcardNesting := s₄.wildcardNesting - 1 } := by
  have hk : Kept (1 + text.length) s s₃ :=
    ((h₁.kept (Nat.le_refl _)).trans (h₂.kept (by omega))).trans (h₃.kept (by omega))
  refine ⟨fun k hlt => (h₄.buf k (by omega)).trans (hk.buf k hlt), ?_,
    fun hs => h₄.slash (hk.slash hs)⟩
  have hnesting := h₄.nesting
  dsimp only at hnesting ⊢
  rw [hnesting, Nat.add_sub_cancel, hk.nesting]

theorem matchEntry_outcome {next : List UInt8 → ℕ → State → Result State} {e : Entry}
    (h : Ready o text nested s) (he : e ∈ o.tree.find allFiles (text ++ anyName))
    (hrest : ∀ c ∈ rest.head?, isslash c = true)
    (hnext : ∀ s', Ready o (inside text (seg.foldl o.note sp).lower e) true s' →
      Outcome IsOutside
        (Safe o (.search (rest.drop 1) (inside text (seg.foldl o.note sp).lower e) true))
        (Kept (1 + (inside text (seg.foldl o.note sp).lower e).length) s')
        (next (rest.drop 1) (1 + (inside text (seg.foldl o.note sp).lower e).length) s')) :
    Outcome IsOutside
      (Matches o seg sp e → SafeMatch o rest text (seg.foldl o.note sp).lower e)
      (Kept (1 + text.length) s)
      (matchEntry o next seg rest (seg.foldl o.note sp) (1 + text.length) s e) := by
  unfold matchEntry
  by_cases hdot : e.isDir = true ∧ isDotOrDotdot e.name.bytes = true
  · rw [if_pos hdot]
    exact (Outcome.pure (Kept.refl _ s)).congr (iff_of_true trivial fun hm => absurd hdot hm.1)
  rw [if_neg hdot]
  dsimp only
  by_cases hmatch : fnmatch o.locale o.beyond ⟨true, true, (seg.foldl o.note sp).caseless⟩ seg
      (lowered (seg.foldl o.note sp).lower e.name.bytes) = 0
  · have hm : Matches o seg sp e := ⟨hdot, hmatch⟩
    have hstrcpy := outcome_strcpy s (1 + text.length)
      (lowered (seg.foldl o.note sp).lower e.name.bytes)
    rw [length_lowered] at hstrcpy
    rw [if_pos hmatch, length_lowered]
    cases rest with
    | nil =>
        have hroom : (Matches o seg sp e → SafeMatch o [] text (seg.foldl o.note sp).lower e) ↔
            text.length + e.name.bytes.length +
              (if e.isDir = true ∧ o.mark = true then 1 else 0) < PATHBUF_LEN := by
          rw [SafeMatch]
          simp [hm]
        refine Outcome.congr ?_ hroom.symm
        by_cases hmark : e.isDir = true ∧ o.mark = true
        · simp only [if_pos hmark]
          refine (hstrcpy.bind fun s₁ _ h₁ => (((outcome_store s₁ _ 0).bind fun s₂ _ h₂ =>
            (outcome_store s₂ _ _).mono fun s₃ h₃ => (h₂.kept (by omega)).trans (h₃.kept
              (by omega))).bind
            fun s₃ _ (h₃ : Kept (1 + text.length) s₁ s₃) => (outcome_add s₃).mono fun s₄ h₄ =>
              ((h₁.kept (Nat.le_refl _)).trans h₃).trans (kept_of_eq _ h₄))).congr ?_
          exact ⟨fun hr => by omega, fun hr => ⟨by omega, ⟨by omega, by omega⟩, trivial⟩⟩
        · simp only [if_neg hmark]
          refine (hstrcpy.bind fun s₁ _ h₁ => ((Outcome.pure rfl).bind fun s₂ _ (h₂ : s₁ = s₂) =>
            (outcome_add s₂).mono fun s₃ h₃ => ?_)).congr ?_
          · subst h₂
            exact (h₁.kept (Nat.le_refl _)).trans (kept_of_eq _ h₃)
          · exact ⟨fun hr => by omega, fun hr => ⟨by omega, trivial, trivial⟩⟩
    | cons c rest =>
        have hroom : (Matches o seg sp e → SafeMatch o (c :: rest) text
            (seg.foldl o.note sp).lower e) ↔
            text.length + e.name.bytes.length + 1 < PATHBUF_LEN ∧
              Safe o (.search rest (inside text (seg.foldl o.note sp).lower e) true) := by
          rw [SafeMatch]
          simp [hm]
        have hc : isslash c = true := hrest c rfl
        refine (hstrcpy.bind fun s₁ _ h₁ => (outcome_store s₁ _ c).bind fun s₂ _ h₂ =>
          (outcome_store s₂ _ 0).bind
            (q := Safe o (.search rest (inside text (seg.foldl o.note sp).lower e) true) ∧ True)
            fun s₃ _ h₃ => ?_).congr ?_
        · have hcall := hnext _ (h.enter he h₁ h₂ hc h₃)
          rw [length_inside, ← Nat.add_assoc, ← Nat.add_assoc] at hcall
          exact hcall.bind fun s₄ _ h₄ => .pure (.leave h₁ h₂ (by omega) h₃ h₄ (by omega))
        · rw [hroom]
          exact ⟨fun hr => ⟨by omega, hr.2.2.2.1⟩,
            fun hr => ⟨by omega, by omega, by omega, hr.2, trivial⟩⟩
  · rw [if_neg hmatch]
    exact (Outcome.pure (Kept.refl _ s)).congr (iff_of_true trivial fun hm => absurd hm.2 hmatch)

theorem outcome_addDirectory (s : State) {i : ℕ} (hi : i ≤ PATHBUF_LEN)
    (hslash : s.buf i = s.slash) :
    Outcome IsOutside True (Kept (i + 1) s) (do
      let s ← (if ¬ o.mark = true then s.store i 0 else .ok s)
      let s ← add s
      s.store i s.slash) := by
  have hcut : Outcome IsOutside True (fun s' => Kept i s s' ∧ s'.slash = s.slash)
      (if ¬ o.mark = true then s.store i 0 else .ok s) := by
    by_cases hmark : o.mark = true
    · rw [if_neg (not_not.mpr hmark)]
      exact .pure ⟨Kept.refl _ s, rfl⟩
    · rw [if_pos hmark]
      exact ((outcome_store s i 0).mono fun s₁ h₁ => ⟨h₁.kept (Nat.le_refl _),
        by rw [h₁.fields]⟩).congr
        (iff_of_true hi trivial)
  refine (hcut.bind fun s₁ _ ⟨hk₁, hs₁⟩ => (outcome_add s₁).bind fun s₂ _ h₂ =>
    (outcome_store s₂ i _).mono fun s₃ h₃ => ?_).congr (iff_of_true ⟨trivial, trivial, hi⟩ trivial)
  have hkept : Kept i s s₃ := (hk₁.trans (kept_of_eq i h₂)).trans (h₃.kept (Nat.le_refl _))
  refine ⟨fun k hk => ?_, hkept.nesting, hkept.slash⟩
  by_cases hlast : k = i
  · subst hlast
    exact (h₃.inside 0 Nat.zero_lt_one).trans ((h₂.2.1.trans hs₁).trans hslash.symm)
  · exact hkept.buf k (by omega)

theorem enterDirectory_outcome {next below : ℕ → State → Result State} {e : Entry}
    (h : Ready o text nested s) (he : e ∈ o.tree.find directories (text ++ anyName))
    (hnext : rest ≠ [] → ∀ s', Ready o (inside text o.spelling.lower e) true s' →
      Outcome IsOutside (Safe o (.search rest (inside text o.spelling.lower e) true))
        (Kept (1 + (inside text o.spelling.lower e).length) s')
        (next (1 + (inside text o.spelling.lower e).length) s'))
    (hbelow : ∀ s', Ready o (inside text o.spelling.lower e) true s' →
      Outcome IsOutside (Safe o (.dirs rest (inside text o.spelling.lower e) true false))
        (Kept (1 + (inside text o.spelling.lower e).length) s')
        (below (1 + (inside text o.spelling.lower e).length) s')) :
    Outcome IsOutside (Below e → SafeBelow o rest text e) (Kept (1 + text.length) s)
      (enterDirectory o next below rest.isEmpty (1 + text.length) s e) := by
  unfold enterDirectory
  by_cases hb : Below e
  · have hstrcpy := outcome_strcpy s (1 + text.length) (lowered o.spelling.lower e.name.bytes)
    have hlen := length_inside text o.spelling.lower e
    have hroom : (Below e → SafeBelow o rest text e) ↔
        text.length + e.name.bytes.length + 1 < PATHBUF_LEN ∧
        (rest ≠ [] → Safe o (.search rest (inside text o.spelling.lower e) true)) ∧
        Safe o (.dirs rest (inside text o.spelling.lower e) true false) := by
      rw [SafeBelow]
      simp [hb]
    have htp : 1 + text.length + e.name.bytes.length + 1 =
        1 + (inside text o.spelling.lower e).length := by
      omega
    -- the call for the rest of the pattern, or the directory itself
    have hself : ∀ s', Ready o (inside text o.spelling.lower e) true s' →
        1 + text.length + e.name.bytes.length ≤ PATHBUF_LEN →
        s'.buf (1 + text.length + e.name.bytes.length) = s'.slash →
        Outcome IsOutside (rest ≠ [] → Safe o (.search rest (inside text o.spelling.lower e) true))
          (Kept (1 + (inside text o.spelling.lower e).length) s')
          (if ¬ rest.isEmpty = true then next (1 + text.length + e.name.bytes.length + 1) s'
          else do
            let s ← (if ¬ o.mark = true then s'.store (1 + text.length + e.name.bytes.length) 0
              else .ok s')
            let s ← add s
            s.store (1 + text.length + e.name.bytes.length) s.slash) := by
      intro s' hready hi hslash
      cases rest with
      | nil =>
          rw [if_neg (by simp), ← htp]
          exact (outcome_addDirectory s' hi hslash).congr (iff_of_true trivial fun hne =>
            absurd rfl hne)
      | cons c rest =>
          rw [if_pos (by simp), htp]
          exact (hnext (List.cons_ne_nil c rest) s' hready).congr
            ⟨fun hs _ => hs, fun hs => hs (List.cons_ne_nil c rest)⟩
    rw [length_lowered] at hstrcpy
    have hyes : e.isDir = true ∧ ¬ isDotOrDotdot e.name.bytes = true := hb
    rw [if_pos hyes]
    dsimp only
    rw [length_lowered]
    refine (hstrcpy.bind fun s₁ _ h₁ => (outcome_store s₁ _ _).bind fun s₂ hi h₂ =>
      (outcome_store s₂ _ 0).bind (q := (rest ≠ [] →
        Safe o (.search rest (inside text o.spelling.lower e) true)) ∧
        1 + text.length + e.name.bytes.length + 1 ≤ PATHBUF_LEN ∧
          Safe o (.dirs rest (inside text o.spelling.lower e) true false) ∧ True)
        fun s₃ _ h₃ => ?_).congr ?_
    · have hslash₁ : isslash s₁.slash = true := by
        rw [h₁.fields]
        exact h.slash
      have hready := h.enter he h₁ h₂ hslash₁ h₃
      have hsl : s₃.buf (1 + text.length + e.name.bytes.length) = s₃.slash := by
        rw [h₃.outside _ (.inl (Nat.lt_succ_self _)), h₃.fields, h₂.fields]
        exact h₂.inside 0 Nat.zero_lt_one
      refine (hself _ hready hi hsl).bind fun s₄ _ h₄ => (outcome_store s₄ _ 0).bind
        fun s₅ _ h₅ => ?_
      have hk₅ : Kept (1 + (inside text o.spelling.lower e).length)
          { s₃ with wildcardNesting := s₃.wildcardNesting + 1 } s₅ := h₄.trans (h₅.kept htp.symm.le)
      rw [htp]
      exact (hbelow s₅ (hready.kept hk₅)).bind fun s₆ _ h₆ =>
        .pure (.leave h₁ h₂ (by omega) h₃ (hk₅.trans h₆) (by omega))
    · rw [hroom]
      exact ⟨fun hr => ⟨by omega, hr.2.2.2.1, hr.2.2.2.2.2.1⟩,
        fun hr => ⟨by omega, by omega, by omega, hr.2.1, by omega, hr.2.2, trivial⟩⟩
  · have hno : ¬ (e.isDir = true ∧ ¬ isDotOrDotdot e.name.bytes = true) := hb
    rw [if_neg hno]
    exact (Outcome.pure (Kept.refl _ s)).congr (iff_of_true trivial fun h' => absurd h' hb)

theorem Ready.mask (h : Ready o text nested s) (hlen : 1 + text.length + 3 ≤ PATHBUF_LEN)
    (hs : Stored s (1 + text.length) (anyName ++ [0]) s') : forward s'.text = text ++ anyName := by
  have hpathbuf : pathbuf = 1 := rfl
  refine forward_text ?_ ?_ ?_ ?_
  · have hread := hs.reads
    rw [forward_append] at hread
    exact (h.reads.kept (hs.kept (Nat.le_refl _)) (Nat.le_refl _)).append hread.left
  · rw [List.mem_append, not_or]
    exact ⟨h.nul_notMem, by decide⟩
  · rw [List.length_append]
    exact Nat.lt_of_succ_le (by rw [show anyName.length = 3 from rfl]; omega)
  · rw [List.length_append, show pathbuf + (text.length + anyName.length) = 1 + text.length + 3 by
      rw [show anyName.length = 3 from rfl]; omega]
    exact hs.inside 3 (by decide)

/-- The calls of both functions, with some fuel. -/
structure Follows (o : Setting) (fuel : ℕ) : Prop where
  search : ∀ {pattern text : List UInt8} {nested : Bool} {s : State}, 0 ∉ pattern →
    Ready o text nested s → Outcome IsOutside (Safe o (.search pattern text nested))
      (Kept (1 + text.length) s) (glob2 o fuel pattern (1 + text.length) o.spelling s)
  dirs : ∀ {rest text : List UInt8} {nested first : Bool} {s : State}, 0 ∉ rest →
    Ready o text nested s → Outcome IsOutside (Safe o (.dirs rest text nested first))
      (Kept (1 + text.length) s) (globDirs o fuel rest (1 + text.length) first s)

theorem globDirs_step {fuel : ℕ} (ih : Follows o fuel) (hnul : 0 ∉ rest)
    (h : Ready o text nested s) :
    Outcome IsOutside (Safe o (.dirs rest text nested first)) (Kept (1 + text.length) s)
      (globDirs o (fuel + 1) rest (1 + text.length) first s) := by
  have hself : Outcome IsOutside
      (first = true → if rest ≠ [] then Safe o (.search rest text nested)
        else 1 + text.length ≤ PATHBUF_LEN)
      (Kept (1 + text.length) s)
      (if first = true then
        if rest ≠ [] then glob2 o fuel rest (1 + text.length) o.spelling s
        else addItself o (1 + text.length) s
      else .ok s) := by
    by_cases hfirst : first = true
    · rw [if_pos hfirst]
      by_cases hrest : rest ≠ []
      · rw [if_pos hrest, if_pos hrest]
        exact (ih.search hnul h).congr ⟨fun hs _ => hs, fun hs => hs hfirst⟩
      · rw [if_neg hrest, if_neg hrest]
        exact (addItself_outcome s text).congr ⟨fun hs _ => hs, fun hs => hs hfirst⟩
    · rw [if_neg hfirst]
      exact (Outcome.pure (Kept.refl _ s)).congr (iff_of_true trivial fun hf => absurd hf hfirst)
  rw [globDirs]
  refine (hself.bind fun s₁ _ h₁ => (outcome_strcpy s₁ _ anyName).bind
    (q := ∀ e ∈ o.tree.find directories (text ++ anyName), Below e → SafeBelow o rest text e)
    fun s₂ hlen h₂ => ?_).congr ?_
  · rw [find_text directories ((h.kept h₁).mask hlen h₂)]
    have hk₂ : Kept (1 + text.length) s s₂ := h₁.trans (h₂.kept (Nat.le_refl _))
    refine Outcome.foldlM _ hk₂ fun e he s₃ h₃ => ?_
    exact (enterDirectory_outcome (h.kept h₃) he (fun _ s' hs' => ih.search hnul hs')
      (fun s' hs' => ih.dirs hnul hs')).mono fun s₄ h₄ => h₃.trans h₄
  · rw [safe_dirs, show anyName.length = 3 from rfl]
    constructor
    · rintro ⟨hself, hmask, hnames⟩
      exact ⟨fun hf hrest => by simpa [hrest] using hself hf, by omega, hnames⟩
    · rintro ⟨hself, hmask, hnames⟩
      refine ⟨fun hf => ?_, by omega, hnames⟩
      split_ifs with hrest
      · exact hself hf hrest
      · omega

theorem isslash_remaining (p : List UInt8) : ∀ c ∈ (p.dropWhile (!isslash ·)).head?, isslash c =
    true := by
  intro c hc
  have := List.head?_dropWhile_not (fun c => !isslash c) p
  rw [Option.mem_def.mp hc] at this
  simpa using this

theorem isslash_headD {p : List UInt8} (hp : ∀ c ∈ p.head?, isslash c = true)
    (hc : isslash c = true) :
    isslash (p.headD c) = true := by
  cases p with
  | nil => exact hc
  | cons d p => exact hp d rfl

/-- A function that sets `slash` and goes on. -/
theorem Ready.slash_eq (h : Ready o text nested s) (hc : isslash c = true) :
    Ready o text nested { s with slash := c } :=
  { h with slash := hc }

theorem Kept.of_slash (hc : isslash c = true) (h : Kept n { s with slash := c } s') : Kept n s s' :=
  ⟨h.buf, h.nesting, fun _ => h.slash hc⟩

theorem globSegment_outcome {fuel : ℕ} (ih : Follows o fuel) (cur : Cursor) (hnul : 0 ∉ cur.pp)
    (hbp : cur.bp = 1 + text.length) (h : Ready o text nested s) :
    Outcome IsOutside
      ((cur.pp.takeWhile (!isslash ·) = dots →
        Safe o (.dirs ((cur.pp.dropWhile (!isslash ·)).drop 1) text nested true)) ∧
      (cur.pp.takeWhile (!isslash ·) ≠ dots → text.length + 3 < PATHBUF_LEN ∧
        ∀ e ∈ o.tree.find allFiles (text ++ anyName),
          Matches o (cur.pp.takeWhile (!isslash ·)) cur.spelling e →
            SafeMatch o (cur.pp.dropWhile (!isslash ·)) text
              ((cur.pp.takeWhile (!isslash ·)).foldl o.note cur.spelling).lower e))
      (Kept (1 + text.length) s)
      (globSegment o (fun rest bp => globDirs o fuel rest bp true)
        (fun rest tp => glob2 o fuel rest tp o.spelling) cur s) := by
  have hslash := isslash_headD (isslash_remaining cur.pp) h.slash
  have hnul' : 0 ∉ (cur.pp.dropWhile (!isslash ·)).drop 1 := fun hm =>
    hnul ((List.dropWhile_suffix _).subset (List.mem_of_mem_drop hm))
  unfold globSegment
  dsimp only
  rw [hbp]
  by_cases hseg : cur.pp.takeWhile (!isslash ·) = dots
  · rw [if_pos hseg]
    exact ((ih.dirs hnul' (h.slash_eq hslash)).mono fun s₁ h₁ => h₁.of_slash hslash).congr
      ⟨fun hs => ⟨fun _ => hs, fun hne => absurd hseg hne⟩, fun hs => hs.1 hseg⟩
  · rw [if_neg hseg]
    refine ((outcome_strcpy _ _ anyName).bind
      (q := ∀ e ∈ o.tree.find allFiles (text ++ anyName),
        Matches o (cur.pp.takeWhile (!isslash ·)) cur.spelling e →
          SafeMatch o (cur.pp.dropWhile (!isslash ·)) text
            ((cur.pp.takeWhile (!isslash ·)).foldl o.note cur.spelling).lower e)
      fun s₁ hlen h₁ => ?_).congr ?_
    · rw [find_text allFiles ((h.slash_eq hslash).mask hlen h₁)]
      have hk₁ : Kept (1 + text.length) s s₁ := (h₁.kept (Nat.le_refl _)).of_slash hslash
      refine Outcome.foldlM _ hk₁ fun e he s₂ h₂ => ?_
      exact (matchEntry_outcome (h.kept h₂) he (isslash_remaining cur.pp)
        fun s' hs' => ih.search hnul' hs').mono fun s₃ h₃ => h₂.trans h₃
    · rw [show anyName.length = 3 from rfl]
      exact ⟨fun hs => ⟨fun he => absurd he hseg, fun _ => ⟨by omega, hs.2⟩⟩,
        fun hs => ⟨by have := (hs.2 hseg).1; omega, (hs.2 hseg).2⟩⟩

theorem dotsFollow_iff : dotsFollow p = true ↔
    p = dots ∨ p.take 3 = dots ∧ (p.drop 3).head?.any isslash = true := by
  rw [dotsFollow, Bool.or_eq_true, Bool.and_eq_true, decide_eq_true_eq, decide_eq_true_eq]

theorem initial_length (pattern text : List UInt8) (start : ℕ) :
    text.length ≤ (initial pattern text start).length := by
  rw [initial, List.length_append]
  omega

theorem zero_notMem_initial (ht : 0 ∉ text) (hp : 0 ∉ pattern) (start : ℕ) :
    0 ∉ initial pattern text start := by
  rw [initial, List.mem_append, not_or]
  exact ⟨ht, zero_notMem_forward fun hm => hp (List.mem_of_mem_take hm)⟩

theorem openSegment_outcome {fuel : ℕ} (ih : Follows o fuel) (hnul : 0 ∉ pattern)
    (h : Ready o text nested s) (hk : Kept (1 + text.length) s s') (cur : Cursor)
    (hbp : cur.bp = 1 + (initial pattern text start).length) (hend : cur.bp < pathbufEnd)
    (hpp : cur.pp = pattern.drop start) (hsp : cur.spelling = sp)
    (hread : Reads s'.buf pathbuf (initial pattern text start)) :
    Outcome IsOutside
      (Open o nested (initial pattern text start) →
        (segment pattern start = dots → Safe o (.dirs ((remaining pattern start).drop 1)
          (initial pattern text start) nested true)) ∧
        (segment pattern start ≠ dots → (initial pattern text start).length + 3 < PATHBUF_LEN ∧
          ∀ e ∈ o.tree.find allFiles (initial pattern text start ++ anyName),
            Matches o (segment pattern start) sp e →
              SafeMatch o (remaining pattern start) (initial pattern text start)
                ((segment pattern start).foldl o.note sp).lower e))
      (Kept (1 + text.length) s) (do
        let (s, found) ← checkInitial o cur.bp s'
        if !found then .ok s
        else
          globSegment o (fun rest bp => globDirs o fuel rest bp true)
            (fun rest tp => glob2 o fuel rest tp o.spelling) cur s) := by
  have hlen := initial_length pattern text start
  have hend' : (initial pattern text start).length < PATHBUF_LEN := by
    rw [hbp] at hend
    exact Nat.lt_of_succ_lt (by rw [Nat.add_comm] at hend; exact hend)
  have hnul' := zero_notMem_initial h.nul_notMem hnul start
  have hnesting : nested = true ↔ s'.wildcardNesting ≠ 0 := by rw [h.nesting, hk.nesting]
  have hne : nested = true → initial pattern text start ≠ [] := fun hn hnil =>
    h.ne_nil hn (List.append_eq_nil_iff.mp hnil).1
  rw [hbp]
  refine ((checkInitial_outcome hread hnul' hend' hnesting hne).bind fun x _ hx => ?_).congr
    (and_iff_right trivial)
  obtain ⟨s₁, found⟩ := x
  obtain ⟨hfound, hk₁, hbuf⟩ := hx
  cases found with
  | false =>
      have hclosed : ¬ Open o nested (initial pattern text start) := fun ho => nomatch hfound.mpr ho
      have hlonger : 1 + text.length ≤ (initial pattern text start).length := by
        by_contra hshort
        refine hclosed ?_
        have hnil : forward (pattern.take start) = [] := by
          rw [← List.length_eq_zero_iff]
          rw [initial, List.length_append] at hshort
          omega
        rw [initial, hnil, List.append_nil]
        exact h.isOpen
      exact (Outcome.pure (hk.trans (hk₁.of_le hlonger))).congr
        (iff_of_true trivial fun ho => absurd ho hclosed)
  | true =>
      have hopen := hfound.mp rfl
      have hbuf := hbuf rfl
      have hready : Ready o (initial pattern text start) nested s₁ :=
        ⟨by rw [hbuf]; exact hread, hnul', by rw [hnesting, hk₁.nesting],
          hk₁.slash (hk.slash h.slash), hne, hopen⟩
      have hseg := globSegment_outcome ih cur (hpp ▸ fun hm =>
        hnul (List.mem_of_mem_drop hm)) hbp hready
      rw [hpp, hsp] at hseg
      refine (hseg.mono fun s₂ h₂ => ?_).congr ⟨fun hs _ => hs, fun hs => hs hopen⟩
      refine hk.trans (Kept.trans ⟨fun k _ => by rw [hbuf], hk₁.nesting, hk₁.slash⟩
        (h₂.of_le (by omega)))

theorem glob2_step {fuel : ℕ} (ih : Follows o fuel) (hnul : 0 ∉ pattern)
    (h : Ready o text nested s) :
    Outcome IsOutside (Safe o (.search pattern text nested)) (Kept (1 + text.length) s)
      (glob2 o (fuel + 1) pattern (1 + text.length) o.spelling s) := by
  have hnul' : 0 ∉ pattern.drop 4 := fun hm => hnul (List.mem_of_mem_drop hm)
  rw [glob2]
  by_cases hdots : pattern = dots
  · rw [if_pos hdots, safe_dots (by rw [hdots]; rfl)]
    have hdrop : pattern.drop 3 = pattern.drop 4 := by rw [hdots]; rfl
    rw [hdrop]
    exact ih.dirs hnul' h
  rw [if_neg hdots]
  by_cases hslash : pattern.take 3 = dots ∧ (pattern.drop 3).head?.any isslash = true
  · have hfollow : dotsFollow pattern = true := dotsFollow_iff.mpr (.inr hslash)
    have hsl : isslash ((pattern.drop 3).headD s.slash) = true := by
      refine isslash_headD (fun c hc => ?_) h.slash
      have hany := hslash.2
      rwa [Option.mem_def.mp hc] at hany
    rw [if_pos hslash, safe_dots hfollow]
    exact (ih.dirs hnul' (h.slash_eq hsl)).mono fun s₁ h₁ => h₁.of_slash hsl
  rw [if_neg hslash]
  have hfollow : dotsFollow pattern = false := by
    rw [← Bool.not_eq_true, dotsFollow_iff, not_or]
    exact ⟨hdots, hslash⟩
  have hcopy : ∀ s₁ : State, Kept (1 + text.length) s s₁ → 1 + text.length ≤ PATHBUF_LEN →
      Outcome IsOutside (Strncpy text (literal o pattern text))
        (Copied pattern text s (literal o pattern text))
        (copyLiteral o pattern (1 + text.length) pattern (1 + text.length) (1 + text.length - 1)
          o.spelling s₁) := by
    intro s₁ hk hlen
    have hread : Reads s₁.buf pathbuf (text ++ forward []) := by
      rw [show forward [] = [] from rfl, List.append_nil]
      exact h.reads.kept hk (Nat.le_refl _)
    refine (copyLiteral_outcome pattern rfl hread rfl hlen ?_ (Nat.le_refl 0)).mono
      fun x hx => Copied.of_kept hx hk
    rw [Nat.add_sub_cancel_left]
    rfl
  have hpathbufEnd : pathbufEnd = PATHBUF_LEN := rfl
  cases hl : literal o pattern text with
  | stuck =>
      rw [hl] at hcopy
      rw [safe_stuck hfollow hl]
      refine ((outcome_store s _ 0).bind fun s₁ hlen h₁ =>
        (hcopy s₁ (h₁.kept (Nat.le_refl _)) hlen).bind (q := True) fun x _ hx => ?_).congr ?_
      · obtain ⟨s₂, cur⟩ := x
        obtain ⟨hk₂, hbp, hpp⟩ := hx
        refine ((outcome_store s₂ cur.bp 0).bind fun s₃ _ h₃ => ?_).congr (p := _ ∧ True)
          (iff_of_true ⟨by omega, trivial⟩ trivial)
        rw [if_pos ⟨by omega, hpp⟩]
        exact .pure (hk₂.trans (h₃.kept (by omega)))
      · exact ⟨fun hs => by omega, fun hs => ⟨by omega, trivial, trivial⟩⟩
  | whole =>
      rw [hl] at hcopy
      rw [safe_whole hfollow hl]
      refine ((outcome_store s _ 0).bind fun s₁ hlen h₁ =>
        (hcopy s₁ (h₁.kept (Nat.le_refl _)) hlen).bind
          (q := o.tree.fileExists (text ++ forward pattern) = true → o.mark = true →
            isDirectory o (text ++ forward pattern) = true →
            text.length + pattern.length + 1 < PATHBUF_LEN) fun x _ hx => ?_).congr ?_
      · obtain ⟨s₂, cur⟩ := x
        obtain ⟨hk₂, hbp, hend, hpp, hread⟩ := hx
        have hlong : (text ++ forward pattern).length = text.length + pattern.length := by
          rw [List.length_append, length_forward]
        refine ((outcome_store s₂ cur.bp 0).bind fun s₃ _ h₃ => ?_).congr
          (and_iff_right (by omega))
        have hk₃ : Kept (1 + (text ++ forward pattern).length) s₂ s₃ := h₃.kept hbp.symm.le
        have hnul₃ : 0 ∉ text ++ forward pattern := by
          rw [List.mem_append, not_or]
          exact ⟨h.nul_notMem, zero_notMem_forward hnul⟩
        have htext := forward_text (hread.kept hk₃ (Nat.le_refl _)) hnul₃ (by omega)
          (by rw [show pathbuf + (text ++ forward pattern).length = cur.bp from hbp.symm]
              exact h₃.inside 0 Nat.zero_lt_one)
        rw [if_neg (fun hfull => hfull.2 hpp), if_pos hpp, ← hlong]
        exact (endOfPattern_outcome htext).mono fun s₄ h₄ =>
          hk₂.trans ((hk₃.trans h₄).of_le (by omega))
      · exact ⟨fun hs => ⟨by omega, hs.2.2⟩, fun hs => ⟨by omega, trivial, hs.2⟩⟩
  | segment start sp wild =>
      rw [hl] at hcopy
      rw [safe_segment hfollow hl]
      have hstrncpy : Strncpy text (.segment start sp wild) ↔
          (wild = true → 1 < text.length + start → 2 * text.length + start ≤ PATHBUF_LEN + 1) := by
        cases wild with
        | false => exact iff_of_true trivial fun hw => nomatch hw
        | true => exact ⟨fun hs _ => hs, fun hs => hs rfl⟩
      rw [← hstrncpy]
      refine ((outcome_store s _ 0).bind fun s₁ hlen h₁ =>
        (hcopy s₁ (h₁.kept (Nat.le_refl _)) hlen).bind fun x _ hx => ?_).congr
          (and_congr_left' (by omega))
      obtain ⟨s₂, cur⟩ := x
      obtain ⟨hk₂, hbp, hend, hpp, hne, hsp, hread⟩ := hx
      refine ((outcome_store s₂ cur.bp 0).bind fun s₃ _ h₃ => ?_).congr (and_iff_right (by omega))
      have hk₃ : Kept (1 + (initial pattern text start).length) s₂ s₃ := h₃.kept hbp.symm.le
      have hlong := initial_length pattern text start
      rw [if_neg (fun hfull => absurd hfull.1 (Nat.not_le.mpr hend)), if_neg hne]
      exact openSegment_outcome ih hnul h (hk₂.trans (hk₃.of_le (by omega))) cur hbp hend hpp hsp
        (hread.kept hk₃ (Nat.le_refl _))

theorem follows (o : Setting) (fuel : ℕ) : Follows o fuel := by
  induction fuel with
  | zero =>
      refine ⟨fun _ _ => ?_, fun _ _ => ?_⟩
      · rw [glob2]
        exact .other (by decide)
      · rw [globDirs]
        exact .other (by decide)
  | succ fuel ih =>
      exact ⟨fun hnul h => glob2_step ih hnul h, fun hnul h => globDirs_step ih hnul h⟩

end DjgppLibc.GlobSearch
