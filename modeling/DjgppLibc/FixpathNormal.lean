import DjgppLibc.FixpathCopy

/-!
# The canonical path is the normal form

The second pass of `__canonicalize_path` changes each name of the copy on its own.
With the loop over the path this gives the result as the normal form of the names,
in the case that the call asks for. Such a path is its own normal form.

The check before a name is one byte short: a name that begins at the last byte is
stored to the byte behind it before the end is noticed, and nothing is checked
while the drive and the current directory are stored.
-/
namespace DjgppLibc.Fixpath

open PathNames

variable {out out' : Out} {i op limit : ℕ} {letter c : Char} {es : Entries} {n s : List Char}
  {dirs : List (List Char)}

/-- The name as it is returned: names that DOS has in upper case only are put in lower
case, unless the case of names is preserved. -/
def caseOf (preserveCase : Bool) (n : List Char) : List Char :=
  if !preserveCase ∧ isDOS83 n then n.map Char.toLower else n

theorem toLower_of_not_upper (h : ¬ ('A' ≤ c ∧ c ≤ 'Z')) : c.toLower = c := dif_neg h

theorem lowerName_spec (h : out.Reads i n) :
    (lowerName out i n.length).Reads i (n.map Char.toLower) ∧
      out.Within i (i + n.length) (lowerName out i n.length) := by
  induction n generalizing out i with
  | nil => exact ⟨trivial, .refl out i _⟩
  | cons c n ih =>
      obtain ⟨out₁, hout₁⟩ : ∃ out₁, out₁ = if 'A' ≤ out.mem i ∧ out.mem i ≤ 'Z' then
        out.store i (out.mem i).toLower else out := ⟨_, rfl⟩
      have hw₁ : out.Within i (i + 1) out₁ := by
        rw [hout₁]
        split_ifs
        · exact out.within_store i _
        · exact .refl out i _
      have hmem : out₁.mem i = c.toLower := by
        rw [hout₁, ← h.1]
        split_ifs with hupper
        · exact out.store_mem i _
        · exact (toLower_of_not_upper hupper).symm
      obtain ⟨hread, hw⟩ := ih (h.2.behind hw₁ (Nat.le_refl _))
      rw [List.length_cons, lowerName, ← hout₁]
      exact ⟨⟨(hw.mem i (by omega)).trans hmem, hread⟩,
        .trans (hw₁.mono (Nat.le_refl i) (by omega)) (hw.mono (by omega) (by omega))⟩

/-- The end of a name: the name is settled and the next one begins. -/
theorem switchLoop_end (fuel : ℕ) {nameStart : ℕ} (hop : op = nameStart + 1 + n.length)
    (h : out.Reads (nameStart + 1) n) :
    ∃ out', (if isDOS83 (out.slice (nameStart + 1) op) then
        switchLoop false fuel (lowerName out (nameStart + 1) (op - nameStart - 1)) op (op + 1)
      else switchLoop false fuel out op (op + 1)) = switchLoop false fuel out' op (op + 1) ∧
      out'.Reads (nameStart + 1) (caseOf false n) ∧ out.Within (nameStart + 1) op out' := by
  have hslice := h.slice
  have hlen : op - nameStart - 1 = n.length := by omega
  rw [← hop] at hslice
  rw [hslice, hlen]
  unfold caseOf
  by_cases h83 : isDOS83 n = true
  · obtain ⟨hread, hw⟩ := lowerName_spec h
    refine ⟨_, if_pos h83, ?_, ?_⟩
    · rwa [if_pos ⟨rfl, h83⟩]
    · rwa [hop]
  · refine ⟨out, if_neg h83, ?_, .refl out _ _⟩
    rwa [if_neg fun h => h83 h.2]

theorem length_caseOf (preserveCase : Bool) (n : List Char) :
    (caseOf preserveCase n).length = n.length := by
  unfold caseOf
  split_ifs
  · exact List.length_map _
  · rfl

/-- The entry as it is returned. -/
def switched (preserveCase : Bool) (e : Char × List Char) : Char × List Char :=
  ('/', caseOf preserveCase e.2)

theorem body_switched (preserveCase : Bool) (es : Entries) :
    body (es.map (switched preserveCase)) =
      ((es.map Prod.snd).map (caseOf preserveCase)).flatMap ('/' :: ·) := by
  rw [body, List.flatMap_map, List.flatMap_map, List.flatMap_map]
  rfl

theorem switchLoop_done (preserveCase : Bool) (fuel : ℕ) {nameStart : ℕ}
    (h : out.mem nameStart = nul) : switchLoop preserveCase fuel out nameStart op = out := by
  cases fuel with
  | zero => rfl
  | succ fuel => rw [switchLoop, if_pos h]

/-- The second pass where case is not preserved, from the middle of a name on: `n` has
been read and `m` is left of it. -/
theorem switchLoop_case (fuel : ℕ) {nameStart : ℕ} {m : List Char}
    (hop : op = nameStart + 1 + n.length)
    (h : out.Reads nameStart ('/' :: (n ++ (m ++ (body es ++ [nul])))))
    (hm : ∀ c ∈ m, isTerm c = false) (hes : ∀ e ∈ es, Proper e)
    (hfuel : m.length + (body es).length + 1 ≤ fuel) :
    (switchLoop false fuel out nameStart op).Reads (nameStart + 1)
        (caseOf false (n ++ m) ++ (body (es.map (switched false)) ++ [nul])) ∧
      out.Within (nameStart + 1) (op + m.length + (body es).length)
        (switchLoop false fuel out nameStart op) := by
  induction fuel generalizing n m es out nameStart op with
  | zero => omega
  | succ fuel ih =>
    obtain ⟨hstart, hread⟩ := h
    obtain ⟨hn, hrest⟩ := reads_append.mp hread
    rw [← hop] at hrest
    rw [switchLoop, if_neg (by rw [hstart]; decide)]
    cases m with
    | cons c m =>
        -- The name goes on.
        obtain ⟨hc, hm⟩ := List.forall_mem_cons.mp hm
        simp only [isTerm, Bool.or_eq_false_iff, decide_eq_false_iff_not] at hc
        rw [hrest.1, if_neg hc.1.2]
        dsimp only
        rw [hrest.1, if_neg (by simp [hc]), if_neg hc.2]
        have hop' : op + 1 = nameStart + 1 + (n ++ [c]).length := by
          rw [hop, List.length_append, List.length_singleton, Nat.add_assoc]
        have := ih (m := m) hop' ⟨hstart, by simpa using hread⟩ hm hes (by simp at hfuel; omega)
        rw [List.append_assoc, List.singleton_append] at this
        refine ⟨this.1, this.2.mono (Nat.le_refl _) ?_⟩
        rw [List.length_cons]
        omega
    | nil =>
        rw [List.nil_append] at hrest
        rw [List.append_nil]
        cases es with
        | nil =>
            -- The last name ends.
            obtain ⟨hnul, -⟩ := hrest
            have hkeep : (if out.mem op = '\\' then out.store op '/' else out) = out :=
              if_neg (by rw [hnul]; decide)
            rw [hkeep]
            dsimp only
            rw [hnul, if_pos ⟨rfl, .inr rfl⟩]
            obtain ⟨out', heq, hcase, hw⟩ := switchLoop_end fuel hop hn
            have hnul' : out'.mem op = nul := (hw.mem op (by omega)).trans hnul
            rw [heq, switchLoop_done false fuel hnul']
            refine ⟨reads_append.mpr ⟨hcase, ?_⟩, hw.mono (Nat.le_refl _) (by omega)⟩
            rw [length_caseOf, ← hop]
            exact ⟨hnul', trivial⟩
        | cons e es =>
            -- A name ends and the next one begins.
            obtain ⟨he, hes⟩ := List.forall_mem_cons.mp hes
            rw [body_cons, List.cons_append, List.append_assoc] at hrest
            rw [List.map_cons, body_cons, body_cons, List.length_cons, List.length_append]
            rw [body_cons, List.length_cons, List.length_append] at hfuel
            obtain ⟨hslash, hnext⟩ := hrest
            obtain ⟨out₁, hout₁⟩ : ∃ out₁, out₁ = if out.mem op =
              '\\' then out.store op '/' else out :=
              ⟨_, rfl⟩
            have hw₁ : out.Within op (op + 1) out₁ := by
              rw [hout₁]
              split_ifs
              · exact out.within_store op _
              · exact .refl out op _
            have hmem₁ : out₁.mem op = '/' := by
              rw [hout₁]
              split_ifs with hback
              · exact out.store_mem op _
              · have := he.slash
                rw [hslash] at hback ⊢
                simpa [isSlash, hback] using this
            rw [← hout₁]
            dsimp only
            rw [hmem₁, if_pos ⟨rfl, .inl rfl⟩]
            obtain ⟨out', heq, hcase, hw⟩ := switchLoop_end fuel hop (hn.before hw₁ (by omega))
            rw [heq]
            have hmem' : out'.mem op = '/' := (hw.mem op (by omega)).trans hmem₁
            have hnext' : out'.Reads op ('/' :: ([] ++ (e.2 ++ (body es ++ [nul])))) :=
              ⟨hmem', (hnext.behind hw₁ (by omega)).behind hw (by omega)⟩
            have hop' : op + 1 = op + 1 + ([] : List Char).length := rfl
            obtain ⟨hreads, hw'⟩ := ih hop' hnext' he.isTerm_eq_false hes
              (by simp only [List.length_nil] at hfuel; omega)
            refine ⟨reads_append.mpr ⟨hcase.before hw' (by rw [length_caseOf]; omega), ?_⟩, ?_⟩
            · rw [length_caseOf, ← hop, List.cons_append, List.append_assoc]
              exact ⟨(hw'.mem op (by omega)).trans hmem', hreads⟩
            · rw [List.length_nil]
              exact .trans (hw₁.mono (by omega) (by omega)) (.trans
                (hw.mono (Nat.le_refl _) (by omega))
                (hw'.mono (by omega) (by omega)))

def turned (c : Char) : Char := if c = '\\' then '/' else c

theorem switchLoop_preserve (fuel : ℕ) {nameStart : ℕ} (hstart : out.mem nameStart ≠ nul)
    (hlt : nameStart < op) (h : out.Reads op (s ++ [nul])) (hs : nul ∉ s)
    (hfuel : s.length + 1 ≤ fuel) :
    (switchLoop true fuel out nameStart op).Reads op (s.map turned ++ [nul]) ∧
      out.Within op (op + s.length) (switchLoop true fuel out nameStart op) := by
  induction fuel generalizing s out op with
  | zero => omega
  | succ fuel ih =>
    rw [switchLoop, if_neg hstart]
    obtain ⟨out₁, hout₁⟩ : ∃ out₁, out₁ = if out.mem op = '\\' then out.store op '/' else out :=
      ⟨_, rfl⟩
    have hw₁ : out.Within op (op + 1) out₁ := by
      rw [hout₁]
      split_ifs
      · exact out.within_store op _
      · exact .refl out op _
    have hmem₁ : out₁.mem op = turned (out.mem op) := by
      rw [hout₁, turned]
      split_ifs with hback
      · exact out.store_mem op _
      · rfl
    rw [← hout₁]
    dsimp only
    rw [if_neg (by simp), hmem₁]
    cases s with
    | nil =>
        have hkeep : out₁ = out := by rw [hout₁, h.1, if_neg (by decide)]
        rw [h.1, if_pos (by decide), hkeep]
        exact ⟨h, .refl out op _⟩
    | cons c s =>
        obtain ⟨hc, hrest⟩ := h
        obtain ⟨hcnul, hs⟩ := not_or.mp (mt List.mem_cons.mpr hs)
        have hne : turned c ≠ nul := by
          unfold turned
          split_ifs
          · decide
          · exact fun he => hcnul he.symm
        rw [hc, if_neg hne]
        have hstart₁ : out₁.mem nameStart ≠ nul := by rwa [hw₁.mem nameStart (.inl hlt)]
        rw [List.length_cons] at hfuel ⊢
        obtain ⟨hreads, hw⟩ := ih hstart₁ (by omega) (hrest.behind hw₁
          (Nat.le_refl _)) hs (by omega)
        refine ⟨⟨(hw.mem op (by omega)).trans (hmem₁.trans (by rw [hc])), hreads⟩, ?_⟩
        exact .trans (hw₁.mono (Nat.le_refl _) (by omega)) (hw.mono (by omega) (by omega))

theorem map_turned_of_name (hn : ∀ c ∈ n, isSlash c = false) : n.map turned = n := by
  conv_rhs => rw [← List.map_id n]
  refine List.map_congr_left fun c hc => if_neg ?_
  rintro rfl
  exact absurd (hn _ hc) (by decide)

theorem map_turned_body (hes : ∀ e ∈ es, Proper e) :
    (body es).map turned = body (es.map (switched true)) := by
  induction es with
  | nil => rfl
  | cons e es ih =>
      obtain ⟨he, hes⟩ := List.forall_mem_cons.mp hes
      have hslash : turned e.1 = '/' := by
        have := he.slash
        unfold turned
        split_ifs with hback
        · rfl
        · simpa [isSlash, hback] using this
      rw [body_cons, List.map_cons, List.map_append, hslash,
        map_turned_of_name he.name.sep_eq_false, ih hes]
      rfl

theorem nul_notMem_body (hes : ∀ e ∈ es, Proper e) : nul ∉ body es := by
  intro hmem
  obtain ⟨e, he, hc⟩ := List.mem_flatMap.mp hmem
  have hp := hes e he
  rcases List.mem_cons.mp hc with hc | hc
  · have := hp.slash
    rw [← hc] at this
    cases this
  · exact hp.nul_notMem hc

theorem switchLoop_spec (preserveCase : Bool) (fuel : ℕ)
    (h : out.Reads 2 ('/' :: (n ++ (body es ++ [nul])))) (hn : ∀ c ∈ n, isTerm c = false)
    (hes : ∀ e ∈ es, Proper e) (hfuel : n.length + (body es).length + 1 ≤ fuel) :
    (switchLoop preserveCase fuel out 2 3).Reads 3
        (caseOf preserveCase n ++ (body (es.map (switched preserveCase)) ++ [nul])) ∧
      out.Within 3 (3 + n.length + (body es).length) (switchLoop preserveCase fuel out 2 3) := by
  cases preserveCase with
  | false =>
      have hop : 3 = 2 + 1 + ([] : List Char).length := rfl
      exact switchLoop_case fuel hop h hn hes hfuel
  | true =>
      have hslash : ∀ c ∈ n, isSlash c = false ∧ c ≠ nul := by
        intro c hc
        have := hn c hc
        rwa [isTerm_eq, Bool.or_eq_false_iff, decide_eq_false_iff_not] at this
      have hnul : nul ∉ n ++ body es := by
        rw [List.mem_append, not_or]
        exact ⟨fun hc => (hslash _ hc).2 rfl, nul_notMem_body hes⟩
      obtain ⟨hstart, hread⟩ := h
      rw [← List.append_assoc] at hread
      have hne : out.mem 2 ≠ nul := by
        rw [hstart]
        decide
      obtain ⟨hreads, hw⟩ := switchLoop_preserve fuel hne (by decide) hread hnul
        (by rw [List.length_append]; omega)
      rw [List.map_append, map_turned_of_name fun c hc => (hslash c hc).1, map_turned_body hes,
        List.append_assoc] at hreads
      rw [List.length_append, ← Nat.add_assoc] at hw
      exact ⟨by simpa [caseOf] using hreads, hw⟩

/-- The path from the root to a file with these names. -/
def render (ns : List (List Char)) : List Char := if ns = [] then ['/'] else ns.flatMap ('/' :: ·)

theorem render_cons (n : List Char) (ns : List (List Char)) :
    render (n :: ns) = '/' :: (n ++ ns.flatMap ('/' :: ·)) := rfl

/-- The current directory of a drive, as DOS answers it: the names are joined by
backslashes. Where a root from the function for long names is checked again, it is
the root. -/
structure Answers (dos : Dos) (drive : ℕ) (dirs : List (List Char)) : Prop where
  directory : (askDirectory dos drive).1 = some (['\\'].intercalate dirs)
  isName : ∀ n ∈ dirs, IsName isSlash '.' n ∧ nul ∉ n
  root : dirs = [] → dos.winNT = true → (askDirectory dos drive).2 = true →
    ∃ path, dos.longPathName drive = some path ∧ isDriveSpecifier drive path = true ∧
      isRootDir path = true

def directoryEntries : List (List Char) → Entries
  | [] => []
  | d :: ds => ('/', d) :: ds.map fun d => ('\\', d)

theorem map_snd_directoryEntries (dirs : List (List Char)) :
    (directoryEntries dirs).map Prod.snd = dirs := by
  cases dirs with
  | nil => rfl
  | cons d ds => simp [directoryEntries, Function.comp_def]

theorem body_backslashes (d : List Char) (ds : List (List Char)) :
    d ++ body (ds.map fun d => ('\\', d)) = ['\\'].intercalate (d :: ds) := by
  induction ds generalizing d with
  | nil => simp [body, List.intercalate]
  | cons d' ds ih =>
      rw [List.map_cons, body_cons, ih d', List.intercalate_cons_cons]
      simp

theorem proper_directoryEntries (h : ∀ n ∈ dirs, IsName isSlash '.' n ∧ nul ∉ n) :
    ∀ e ∈ directoryEntries dirs, Proper e := by
  cases dirs with
  | nil => simp [directoryEntries]
  | cons d ds =>
      obtain ⟨hd, hds⟩ := List.forall_mem_cons.mp h
      refine List.forall_mem_cons.mpr ⟨⟨rfl, hd.1, hd.2⟩, fun e he => ?_⟩
      obtain ⟨d', hd', rfl⟩ := List.mem_map.mp he
      exact ⟨rfl, (hds d' hd').1, (hds d' hd').2⟩

theorem getCurrentDirectory_spec {dos : Dos} {drive : ℕ} (h : Answers dos drive dirs)
    (hread : out.Reads 0 [letter, ':']) :
    ∃ out' op, getCurrentDirectory dos drive out 2 = (out', op) ∧
      Copied letter out' op (directoryEntries dirs) ∧
      out'.written ≤ max out.written (4 + (['\\'].intercalate dirs).length) := by
  have hproper := proper_directoryEntries h.isName
  have hcpy := out.within_storeAll 3 (['\\'].intercalate dirs ++ [nul])
  have hw : (out.strcpy 3 (['\\'].intercalate dirs)).written ≤
      max out.written (4 + (['\\'].intercalate dirs).length) := by
    have := hcpy.written
    rw [List.length_append, List.length_singleton] at this
    rw [Out.strcpy]
    omega
  have hread' := hread.before hcpy (by simp)
  unfold getCurrentDirectory
  rw [show askDirectory dos drive = (some (['\\'].intercalate dirs),
    (askDirectory dos drive).2) from
    Prod.ext h.directory rfl]
  dsimp only
  cases dirs with
  | nil =>
      rw [if_neg (by simp [List.intercalate])]
      have hroot : ∀ out', out'.Reads 0 [letter, ':'] → Copied letter out' 2
        (directoryEntries []) :=
        fun out' hr => ⟨hr, rfl, hproper, by simp [directoryEntries]⟩
      split_ifs with hnt
      · exact ⟨_, _, rfl, hroot _ hread', hw⟩
      · simp only [not_or, Bool.not_eq_true, Bool.not_eq_false] at hnt
        obtain ⟨path, hpath, hspec, hdir⟩ := h.root rfl hnt.1 hnt.2
        rw [hpath]
        dsimp only
        rw [if_pos hspec, if_pos hdir]
        exact ⟨_, _, rfl, hroot _ hread', hw⟩
  | cons d ds =>
      have hd := (h.isName d List.mem_cons_self).1.ne_nil
      have hne : ['\\'].intercalate (d :: ds) ≠ [] := by
        rw [← body_backslashes]
        simp [hd]
      have hbody : body (directoryEntries (d :: ds)) = '/' :: ['\\'].intercalate (d :: ds) := by
        rw [← body_backslashes]
        rfl
      rw [if_pos hne]
      have hstore := (out.strcpy 3 (['\\'].intercalate (d :: ds))).within_store 2 '/'
      refine ⟨_, _, rfl, ⟨?_, ?_, hproper, ?_⟩, ?_⟩
      · rw [hbody]
        have htext := (out.reads_storeAll 3 (['\\'].intercalate (d :: ds) ++ [nul])).behind hstore
          (Nat.le_refl 3)
        have hdrive := hread'.before hstore (by simp)
        exact ⟨hdrive.1, hdrive.2.1, Out.store_mem _ 2 '/', (reads_append.mp htext).1⟩
      · rw [hbody, List.length_cons]
        omega
      · intro e he
        cases he
        rfl
      · exact Nat.le_trans hstore.written (by omega)

/-- The end of the function, from the names that have been copied. -/
theorem finish_spec (preserveCase : Bool) (limit : ℕ) (h : Copied letter out op es) :
    (2 + max 1 (width (es.map Prod.snd)) < limit → ∃ out', finish preserveCase limit out op =
      .ok out' ∧
      out'.Holds (letter :: ':' :: render ((es.map Prod.snd).map (caseOf preserveCase))) ∧
      out'.written ≤ max out.written limit) ∧
    (¬ 2 + max 1 (width (es.map Prod.snd)) < limit → ∃ out',
      finish preserveCase limit out op = .error (.enametoolong, out') ∧
      out'.written ≤ max out.written 3) := by
  have hop := h.op_eq
  rw [length_body] at hop
  cases es with
  | nil =>
      have hop : op = 2 := hop
      have hw := (out.within_store 2 '/').written
      have hwidth : max 1 (width (([] : Entries).map Prod.snd)) = 1 := rfl
      rw [hwidth]
      unfold finish
      rw [if_pos hop]
      dsimp only
      constructor
      · intro hlt
        rw [if_neg (by omega)]
        have hnul := (out.store 2 '/').within_store 3 nul
        have hread : ((out.store 2 '/').store 3 nul).Reads 0 [letter, ':', '/', nul] := by
          have hdrive : ((out.store 2 '/').store 3 nul).Reads 0 [letter, ':'] :=
            (h.reads.before (out.within_store 2 '/') (by simp [body])).before hnul (by simp [body])
          exact ⟨hdrive.1, hdrive.2.1, (hnul.mem 2 (by omega)).trans (out.store_mem 2 '/'),
            Out.store_mem _ 3 nul, trivial⟩
        have hslash : ((out.store 2 '/').store 3 nul).Reads 2 ('/' :: ([] ++ (body [] ++ [nul]))) :=
          hread.2.2
        obtain ⟨hreads, hw'⟩ := switchLoop_spec preserveCase (limit + 1) hslash (by simp) (by simp)
          (by simp [body])
        refine ⟨_, rfl, ?_, ?_⟩
        · have hcase : caseOf preserveCase [] = [] := by
            unfold caseOf
            split_ifs <;> rfl
          rw [hcase] at hreads
          refine ⟨(hw'.mem 0 (by omega)).trans hread.1, (hw'.mem 1 (by omega)).trans hread.2.1,
            (hw'.mem 2 (by omega)).trans hread.2.2.1, hreads⟩
        · have hw₁ := hw'.written
          have hw₂ := hnul.written
          rw [List.length_nil, length_body, List.map_nil] at hw₁
          have : width [] = 0 := rfl
          omega
      · intro hge
        rw [if_pos (by omega)]
        exact ⟨_, rfl, by omega⟩
  | cons e es =>
      obtain ⟨he, hes⟩ := List.forall_mem_cons.mp h.proper
      have hfirst := h.first e rfl
      have hread := h.reads
      rw [body_cons, hfirst] at hread
      have hwidth : width ((e :: es).map Prod.snd) = 1 + e.2.length + (body es).length := by
        rw [← length_body, body_cons, List.length_cons, List.length_append]
        omega
      rw [hwidth] at hop ⊢
      unfold finish
      rw [if_neg (by omega)]
      dsimp only
      constructor
      · intro hlt
        rw [if_neg (by omega)]
        have hnul := out.within_store op nul
        have hread' := hread.before hnul (by simp; omega)
        have hslash : (out.store op nul).Reads 2 ('/' :: (e.2 ++ (body es ++ [nul]))) := by
          rw [← List.append_assoc, ← List.cons_append]
          refine reads_append.mpr ⟨hread'.2.2, ?_⟩
          have hend : 2 + ('/' :: (e.2 ++ body es)).length = op := by
            rw [List.length_cons, List.length_append]
            omega
          rw [hend]
          exact ⟨Out.store_mem _ op nul, trivial⟩
        obtain ⟨hreads, hw'⟩ := switchLoop_spec preserveCase
          (limit + 1) hslash he.isTerm_eq_false hes
          (by omega)
        refine ⟨_, rfl, ?_, ?_⟩
        · rw [body_switched, ← List.append_assoc] at hreads
          rw [List.map_cons, List.map_cons, render_cons]
          exact ⟨(hw'.mem 0 (by omega)).trans hread'.1, (hw'.mem 1 (by omega)).trans hread'.2.1,
            (hw'.mem 2 (by omega)).trans hread'.2.2.1, hreads⟩
        · have := hw'.written
          have := hnul.written
          omega
      · intro hge
        rw [if_pos (by omega)]
        exact ⟨_, rfl, by omega⟩

/-- The second path stands for the same file. -/
structure SamePath (p q : List Char) : Prop where
  names : names isSlash q = names isSlash p
  head : q.head? = p.head?
  length : q.length ≤ p.length
  subset : q ⊆ p

theorem SamePath.trans {p q r : List Char} (h : SamePath p q) (h' : SamePath q r) : SamePath p r :=
  ⟨h'.names.trans h.names, h'.head.trans h.head, Nat.le_trans h'.length h.length,
    fun _ hc => h.subset (h'.subset hc)⟩

theorem SamePath.rfl {p : List Char} : SamePath p p :=
  ⟨Eq.refl _, Eq.refl _, Nat.le_refl _, fun _ hc => hc⟩

variable {p : List Char} {space : ℕ}

theorem collapse_cons (hc : c ≠ '/' ∨ p.head? ≠ some '/') (hspace : 3 ≤ space) :
    collapse space (c :: p) = c :: collapse (space - 1) p := by
  rw [collapse, if_pos hc, if_neg (by omega)]

theorem collapse_append (hn : ∀ c ∈ n, isSlash c = false) (hspace : n.length + 2 ≤ space) :
    collapse space (n ++ p) = n ++ collapse (space - n.length) p := by
  induction n generalizing space with
  | nil => rfl
  | cons c n ih =>
      obtain ⟨hc, hn⟩ := List.forall_mem_cons.mp hn
      have hne : c ≠ '/' := by
        rintro rfl
        cases hc
      rw [List.length_cons] at hspace ⊢
      rw [List.cons_append, collapse_cons (.inl hne) (by omega), ih hn (by omega),
        Nat.sub_sub, Nat.add_comm 1]
      rfl

theorem samePath_collapse (hspace : p.length + 2 ≤ space) : SamePath p (collapse space p) := by
  induction p using induction_names isSlash generalizing space with
  | nil => exact .rfl
  | slash c p hc ih =>
      rw [List.length_cons] at hspace
      by_cases hkeep : c ≠ '/' ∨ p.head? ≠ some '/'
      · rw [collapse_cons hkeep (by omega)]
        have ih : SamePath p (collapse (space - 1) p) := ih (by omega)
        exact ⟨by rw [names_sep hc, names_sep hc, ih.names], rfl, Nat.succ_le_succ ih.length,
          List.cons_subset_cons c ih.subset⟩
      · have ih : SamePath p (collapse space p) := ih (by omega)
        rw [collapse, if_neg hkeep]
        obtain ⟨hslash, hhead⟩ := not_or.mp hkeep
        refine ⟨by rw [names_sep hc, ih.names], ?_, Nat.le_succ_of_le ih.length,
          fun _ hx => List.mem_cons_of_mem _ (ih.subset hx)⟩
        rw [ih.head, not_not.mp hhead, not_not.mp hslash]
        rfl
  | name n r hne hn hr ih =>
      rw [List.length_append] at hspace
      rw [collapse_append hn (by omega)]
      have ih : SamePath r (collapse (space - n.length) r) := ih (by omega)
      refine ⟨?_, ?_, ?_, List.append_subset.mpr
        ⟨List.subset_append_left n r, fun _ hx => List.mem_append_right _ (ih.subset hx)⟩⟩
      · rw [names_append hne hn hr, names_append hne hn (ih.head.symm ▸ hr), ih.names]
      · rw [List.head?_append_of_ne_nil _ hne, List.head?_append_of_ne_nil _ hne]
      · simp only [List.length_append]
        exact Nat.add_le_add_left ih.length _

theorem names_concat (hc : isSlash c = true) : names isSlash (p ++ [c]) = names isSlash p := by
  induction p using induction_names isSlash with
  | nil => rw [List.nil_append, names_sep hc]
  | slash d p hd ih => rw [List.cons_append, names_sep hd, names_sep hd, ih]
  | name n r hne hn hr ih =>
      have hr' : ∀ x ∈ (r ++ [c]).head?, isSlash x = true := by
        cases r with
        | nil =>
            intro x hx
            cases hx
            exact hc
        | cons d r => exact hr
      rw [List.append_assoc, names_append hne hn hr', names_append hne hn hr, ih]

theorem samePath_trimSlash (p : List Char) : SamePath p (trimSlash p) := by
  unfold trimSlash
  split_ifs with h
  · obtain ⟨hlen, hlast, -⟩ := h
    rcases List.eq_nil_or_concat' p with rfl | ⟨q, c, rfl⟩
    · cases hlast
    · have hc : c = '/' := by simpa using hlast
      have hq : q ≠ [] := by
        rintro rfl
        simp at hlen
      subst hc
      rw [List.dropLast_concat]
      exact ⟨(names_concat rfl).symm, (List.head?_append_of_ne_nil q hq).symm, by simp,
        List.subset_append_left q _⟩
  · exact .rfl

/-- A drive does not change what is trimmed behind it. -/
theorem trimSlash_drive (c : Char) (p : List Char) :
    trimSlash (c :: ':' :: p) = c :: ':' :: trimSlash p := by
  unfold trimSlash
  match p with
  | [] => simp
  | [d] => simp
  | d :: e :: p =>
      have hlen : (c :: ':' :: d :: e :: p).length = (d :: e :: p).length + 2 := rfl
      have h₁ : (d :: e :: p).length + 2 - 1 = (d :: e :: p).length - 1 + 2 := by
        simp only [List.length_cons]
        omega
      have h₂ : (d :: e :: p).length + 2 - 2 = (d :: e :: p).length - 2 + 2 := by
        simp only [List.length_cons]
        omega
      have hlt : 2 ≤ (d :: e :: p).length := by simp
      rw [hlen, h₁, h₂]
      simp only [List.getElem?_cons_succ, hlt, true_and, Nat.le_add_left]
      split_ifs
      · rfl
      · rfl

def isLetter (c : Char) : Bool := ('a' ≤ c && c ≤ 'z') || ('A' ≤ c && c ≤ 'Z')

variable {dos : Dos} {drive : ℕ}

theorem driveOf_letter (dos : Dos) (hc : isLetter c = true) :
    ∃ drive < 26, ∀ ip, driveOf dos (c :: ':' :: ip) = (drive, driveLetter drive, ip) := by
  have hvals : 'a'.toNat = 97 ∧ 'z'.toNat = 122 ∧ 'A'.toNat = 65 ∧ 'Z'.toNat = 90 := by decide
  unfold driveOf
  by_cases hlower : 'a' ≤ c ∧ c ≤ 'z'
  · have hle : 'a'.toNat ≤ c.toNat ∧ c.toNat ≤ 'z'.toNat := hlower
    refine ⟨c.toNat - 'a'.toNat, by omega, fun ip => ?_⟩
    refine (if_pos hlower).trans ?_
    rw [driveLetter, Nat.add_sub_cancel' hle.1, Char.ofNat_toNat]
  · have hupper : 'A' ≤ c ∧ c ≤ 'Z' := by simpa [isLetter, hlower] using hc
    have hle : 'A'.toNat ≤ c.toNat ∧ c.toNat ≤ 'Z'.toNat := hupper
    refine ⟨c.toNat - 'A'.toNat, by omega, fun ip => ?_⟩
    exact (if_neg hlower).trans (if_pos hupper)

theorem driveOf_current (hdrive : dos.currentDrive < 26)
    (h : ∀ c ip, p = c :: ':' :: ip → isLetter c = false) :
    driveOf dos p = (dos.currentDrive, driveLetter dos.currentDrive, p) := by
  have hcurrent : driveOf.currentDrive dos p =
      (dos.currentDrive, driveLetter dos.currentDrive, p) := by
    rw [driveOf.currentDrive, if_pos hdrive, driveLetter, Nat.add_comm]
  unfold driveOf
  split
  · rename_i c ip
    have hc := h c ip rfl
    simp only [isLetter, Bool.or_eq_false_iff, Bool.and_eq_false_iff, decide_eq_false_iff_not,
      ← not_and_or] at hc
    rw [if_neg hc.1, if_neg hc.2]
    exact hcurrent
  · exact hcurrent

theorem isSlash_of_isLetter (hc : isLetter c = true) : isSlash c = false := by
  cases hs : isSlash c with
  | false => rfl
  | true =>
      simp only [isSlash, Bool.or_eq_true, decide_eq_true_eq] at hs
      rcases hs with rfl | rfl <;> cases hc

theorem head_of_putPath {q : List Char} (hc : isSlash c = false) (hspace : p.length + 3 ≤ space)
    (h : trimSlash (collapse space (c :: p)) = c :: ':' :: q) : p.head? = some ':' := by
  have hne : c ≠ '/' := by
    rintro rfl
    cases hc
  rw [collapse_cons (.inl hne) (by omega)] at h
  have hsame : SamePath p (collapse (space - 1) p) := samePath_collapse (by omega)
  rw [← hsame.head]
  unfold trimSlash at h
  cases hcol : collapse (space - 1) p with
  | nil =>
      rw [hcol] at h
      simp at h
  | cons d t =>
      rw [hcol] at h
      split_ifs at h
      · cases t with
        | nil => simp at h
        | cons e t => exact congrArg some (List.cons.inj (List.cons.inj h).2).1
      · exact congrArg some (List.cons.inj (List.cons.inj h).2).1

theorem samePath_putPath (hlen : p.length < FILENAME_MAX) (hdev : isDevPath (skipDrive p) = false) :
    SamePath p (putPath dos p) := by
  have := dos.tb_room
  rw [putPath, hdev]
  exact (samePath_collapse (by omega)).trans (samePath_trimSlash _)

theorem driveOf_putPath (hdrive : dos.currentDrive < 26) (hlen : p.length < FILENAME_MAX)
    (hdev : isDevPath (skipDrive p) = false) (tail : List Char) :
    ∃ drive < 26, ∃ rest rest', driveOf dos p = (drive, driveLetter drive, rest) ∧
      driveOf dos (putPath dos p ++ nul :: tail) = (drive, driveLetter drive,
        rest' ++ nul :: tail) ∧
      SamePath rest rest' := by
  have hroom : p.length + 2 ≤ dos.tbSize := by
    have := dos.tb_room
    omega
  have hput : putPath dos p = trimSlash (collapse dos.tbSize p) := by
    rw [putPath, hdev]
    rfl
  have hsame : SamePath p (putPath dos p) := samePath_putPath hlen hdev
  rw [hput] at hsame ⊢
  by_cases h : ∃ c ip, p = c :: ':' :: ip ∧ isLetter c = true
  · obtain ⟨c, ip, rfl, hc⟩ := h
    obtain ⟨drive, hlt, hof⟩ := driveOf_letter dos hc
    simp only [List.length_cons] at hroom
    have hslash : ∀ x ∈ [c, ':'], isSlash x = false := by
      simp [isSlash_of_isLetter hc]
      decide
    have hcol : collapse dos.tbSize ([c, ':'] ++ ip) = [c, ':'] ++ collapse (dos.tbSize - 2) ip :=
      collapse_append hslash (by simp; omega)
    refine ⟨drive, hlt, ip, trimSlash (collapse (dos.tbSize - 2) ip), hof ip, ?_,
      (samePath_collapse (by omega)).trans (samePath_trimSlash _)⟩
    rw [List.cons_append, List.cons_append, List.nil_append, List.cons_append, List.cons_append,
      List.nil_append] at hcol
    rw [hcol, trimSlash_drive, List.cons_append, List.cons_append, hof]
  · have hnone : ∀ c ip, p = c :: ':' :: ip → isLetter c = false := fun c ip he =>
      Bool.eq_false_iff.mpr fun hc => h ⟨c, ip, he, hc⟩
    refine ⟨dos.currentDrive, hdrive, p, _, driveOf_current hdrive hnone, driveOf_current hdrive ?_,
      hsame⟩
    intro c ip he
    refine Bool.eq_false_iff.mpr fun hc => ?_
    -- What was put starts with a letter and a colon, so the path does.
    obtain ⟨q, hq⟩ : ∃ q, trimSlash (collapse dos.tbSize p) = c :: ':' :: q := by
      match hp : trimSlash (collapse dos.tbSize p), he with
      | [], he =>
          cases he
          cases hc
      | [_], he => cases he
      | d :: e :: q, he =>
          obtain ⟨hd, he⟩ := List.cons.inj he
          exact ⟨q, by rw [hd, (List.cons.inj he).1]⟩
    have hhead := hsame.head
    rw [hq] at hhead
    match p, hhead with
    | d :: p, hhead =>
        cases hhead
        have hcolon := head_of_putPath (isSlash_of_isLetter hc) (by simpa using hroom) hq
        match p, hcolon with
        | _ :: p, hcolon =>
            cases hcolon
            rw [hnone c p rfl] at hc
            cases hc

/-- The directory that a path starts in. -/
def Start (dos : Dos) (path : List Char) (dirs : List (List Char)) : Prop :=
  if isRelative (driveOf dos path).2.2 then Answers dos (driveOf dos path).1 dirs else dirs = []

def resolved (dos : Dos) (path : List Char) (dirs : List (List Char)) : List (List Char) :=
  normalForm isSlash '.' dirs (driveOf dos path).2.2

/-- Neither the result nor a name on the way to it reaches the end of the buffer. -/
def Short (dos : Dos) (path : List Char) (dirs : List (List Char)) (limit : ℕ) : Prop :=
  Fits limit dirs (names isSlash (driveOf dos path).2.2) ∧
    2 + max 1 (width (resolved dos path dirs)) < limit

/-- There is room for what is stored without a check, and no name begins at the last byte. -/
def Roomy (dos : Dos) (path : List Char) (dirs : List (List Char)) (limit : ℕ) : Prop :=
  (if isRelative (driveOf dos path).2.2 then 4 + (['\\'].intercalate dirs).length else 3) ≤ limit ∧
    Clear limit dirs (names isSlash (driveOf dos path).2.2)

theorem driveOf_subset (dos : Dos) (p : List Char) : (driveOf dos p).2.2 ⊆ p := by
  have htwo : ∀ c d (ip : List Char), ip ⊆ c :: d :: ip := fun _ _ _ _ h =>
    List.mem_cons_of_mem _ (List.mem_cons_of_mem _ h)
  unfold driveOf
  split
  · split_ifs
    · exact htwo _ _ _
    · exact htwo _ _ _
    · exact fun _ h => h
  · exact fun _ h => h

theorem isRelative_append (p tail : List Char) : isRelative (p ++ nul :: tail) = isRelative p := by
  cases p <;> rfl

theorem SamePath.isRelative {q : List Char} (h : SamePath p q) : isRelative q = isRelative p := by
  rw [Fixpath.isRelative, h.head, Fixpath.isRelative]

/-- The buffer when the loop begins. -/
theorem start_spec (letter : Char) (limit : ℕ) (mem : ℕ → Char) (hstart : Start dos p dirs) :
    ∃ out op es, (if isRelative (driveOf dos p).2.2 then
        getCurrentDirectory dos (driveOf dos p).1
          (((⟨mem, 0⟩ : Out).store 0 letter).store 1 ':') 2
      else (((⟨mem, 0⟩ : Out).store 0 letter).store 1 ':', 2)) = (out, op) ∧
      Copied letter out op es ∧ es.map Prod.snd = dirs ∧
      (Roomy dos p dirs limit → out.written ≤ limit ∧ 3 ≤ limit) := by
  have hwithin := ((⟨mem, 0⟩ : Out).store 0 letter).within_store 1 ':'
  have hread : (((⟨mem, 0⟩ : Out).store 0 letter).store 1 ':').Reads 0 [letter, ':'] :=
    ⟨(hwithin.mem 0 (by omega)).trans (Out.store_mem _ 0 letter), Out.store_mem _ 1 ':', trivial⟩
  have hwritten : (((⟨mem, 0⟩ : Out).store 0 letter).store 1 ':').written = 2 := rfl
  unfold Start at hstart
  unfold Roomy
  split_ifs at hstart ⊢ with hrel
  · obtain ⟨out, op, hget, hcopied, hw⟩ := getCurrentDirectory_spec hstart hread
    refine ⟨out, op, _, hget, hcopied, map_snd_directoryEntries dirs, fun hroom => ?_⟩
    omega
  · subst hstart
    refine ⟨_, _, [], rfl, ⟨hread, rfl, by simp, by simp⟩, rfl, fun hroom => ?_⟩
    omega

theorem canonicalizePath_spec (mem : ℕ → Char) (pathMax : ℕ) (hdrive : dos.currentDrive < 26)
    (hlen : p.length < FILENAME_MAX) (hnul : nul ∉ p) (hdev : isDevPath (skipDrive p) = false)
    (hstart : Start dos p dirs) :
    (Short dos p dirs (min pathMax FILENAME_MAX) → ∃ out,
      canonicalizePath dos p mem pathMax = .ok out ∧
      out.Holds (driveLetter (driveOf dos p).1 :: ':' ::
        render ((resolved dos p dirs).map (caseOf dos.preserveCase))) ∧
      (∀ n ∈ resolved dos p dirs, IsName isSlash '.' n ∧ nul ∉ n) ∧
      (Roomy dos p dirs (min pathMax FILENAME_MAX) → out.written ≤ min pathMax FILENAME_MAX)) ∧
    (¬ Short dos p dirs (min pathMax FILENAME_MAX) → ∃ out,
      canonicalizePath dos p mem pathMax = .error (.enametoolong, out) ∧
      (Roomy dos p dirs (min pathMax FILENAME_MAX) → out.written ≤ min pathMax FILENAME_MAX)) := by
  obtain ⟨limit, hlimit⟩ : ∃ limit, limit = min pathMax FILENAME_MAX := ⟨_, rfl⟩
  have hput : SamePath p (putPath dos p) := samePath_putPath hlen hdev
  have hin : (putPath dos p ++ nul :: dos.behind).take FILENAME_MAX =
      putPath dos p ++ nul :: dos.behind.take (FILENAME_MAX - (putPath dos p).length - 1) := by
    have := hput.length
    rw [List.take_append, List.take_of_length_le (by omega),
      show FILENAME_MAX - (putPath dos p).length =
        FILENAME_MAX - (putPath dos p).length - 1 + 1 by omega]
    rfl
  obtain ⟨drive, hlt, rest, rest', hof, hof', hsame⟩ := driveOf_putPath hdrive hlen hdev
    (dos.behind.take (FILENAME_MAX - (putPath dos p).length - 1))
  have hrest : rest ⊆ p := by
    have := driveOf_subset dos p
    rwa [hof] at this
  obtain ⟨out₁, op₁, es₁, hbegin, hcopied, hes, hroom⟩ :=
    start_spec (driveLetter drive) limit mem hstart
  have hwalked : Walked (driveLetter drive) limit out₁ _ _ _ :=
    walk_spec (dos.behind.take (FILENAME_MAX - (putPath dos p).length - 1))
      (fun hm => hnul (hrest (hsame.subset hm))) hcopied
  rw [hsame.names, hes] at hwalked
  unfold Short resolved normalForm
  rw [hof] at hbegin ⊢
  dsimp only at hbegin ⊢
  have hcall : canonicalizePath dos p mem pathMax =
      walk limit out₁ op₁ (rest' ++ nul ::
        dos.behind.take (FILENAME_MAX - (putPath dos p).length - 1)) >>= fun r =>
        finish dos.preserveCase limit r.1 r.2 := by
    unfold canonicalizePath
    dsimp only
    rw [← hlimit, hin, hof']
    dsimp only
    rw [isRelative_append, hsame.isRelative, hbegin]
  rw [hcall, ← hlimit]
  by_cases hfits : Fits limit dirs (names isSlash rest)
  · obtain ⟨out₂, op₂, es₂, hres, hcopied₂, hes₂, hw₂⟩ := hwalked.ok hfits
    obtain ⟨hok, herr⟩ := finish_spec dos.preserveCase limit hcopied₂
    rw [hes₂] at hok herr
    rw [hres]
    constructor
    · intro hshort
      obtain ⟨out, hfin, hholds, hw⟩ := hok hshort.2
      clear hok herr
      refine ⟨out, hfin, hholds, fun n hn => ?_, fun hr => by have := hroom hr; omega⟩
      rw [← hes₂] at hn
      obtain ⟨e, he, rfl⟩ := List.mem_map.mp hn
      exact ⟨(hcopied₂.proper e he).name, (hcopied₂.proper e he).nul_notMem⟩
    · intro hlong
      obtain ⟨out, hfin, hw⟩ := herr fun h => hlong ⟨hfits, h⟩
      clear hok herr
      exact ⟨out, hfin, fun hr => by have := hroom hr; omega⟩
  · obtain ⟨out₂, hres, hw₂⟩ := hwalked.error hfits
    rw [hres]
    refine ⟨fun h => absurd h.1 hfits, fun _ => ⟨out₂, rfl, fun hr => ?_⟩⟩
    have hclear : Clear limit dirs (names isSlash rest) := by
      have := hr.2
      rwa [hof] at this
    have := hw₂ hclear
    have := hroom hr
    omega

theorem toLower_cases (c : Char) : c.toLower = c ∨ ('a' ≤ c.toLower ∧ c.toLower ≤ 'z') := by
  by_cases h : 'A' ≤ c ∧ c ≤ 'Z'
  · right
    have hle : 'A'.toNat ≤ c.toNat ∧ c.toNat ≤ 'Z'.toNat := h
    have hvals : 'A'.toNat = 65 ∧ 'Z'.toNat = 90 := by decide
    have hall : ∀ k < 26, 'a' ≤ (Char.ofNat (65 + k)).toLower ∧
        (Char.ofNat (65 + k)).toLower ≤ 'z' := by
      decide
    have := hall (c.toNat - 65) (by omega)
    rwa [show 65 + (c.toNat - 65) = c.toNat by omega, Char.ofNat_toNat] at this
  · exact .inl (toLower_of_not_upper h)

theorem toLower_toLower (c : Char) : c.toLower.toLower = c.toLower := by
  rcases toLower_cases c with h | ⟨hlow, -⟩
  · rw [h]
    exact h
  · refine toLower_of_not_upper fun hup => ?_
    have : 'a' ≤ 'Z' := Nat.le_trans hlow hup.2
    exact absurd this (by decide)

theorem eq_of_toLower_eq {d : Char} (hd : ¬ ('a' ≤ d ∧ d ≤ 'z')) (h : c.toLower = d) : c = d := by
  rcases toLower_cases c with hc | hc
  · exact hc.symm.trans h
  · exact absurd (h ▸ hc) hd

theorem caseOf_caseOf (preserveCase : Bool) (n : List Char) :
    caseOf preserveCase (caseOf preserveCase n) = caseOf preserveCase n := by
  by_cases h : !preserveCase ∧ isDOS83 n
  · have hcase : caseOf preserveCase n = n.map Char.toLower := if_pos h
    have hidem : (n.map Char.toLower).map Char.toLower = n.map Char.toLower := by
      rw [List.map_map]
      exact List.map_congr_left fun c _ => toLower_toLower c
    rw [hcase]
    unfold caseOf
    split_ifs
    · exact hidem
    · rfl
  · have hcase : caseOf preserveCase n = n := if_neg h
    rw [hcase, hcase]

theorem map_eq_dots {f : Char → Char} (hf : ∀ c, f c = '.' → c = '.') {k : ℕ}
    (h : n.map f = List.replicate k '.') : n = List.replicate k '.' := by
  rw [List.eq_replicate_iff] at h ⊢
  refine ⟨by simpa using h.1, fun c hc => hf c (h.2 _ (List.mem_map_of_mem hc))⟩

theorem isName_caseOf_of_isName (preserveCase : Bool) (h : IsName isSlash '.' n) :
    IsName isSlash '.' (caseOf preserveCase n) := by
  unfold caseOf
  split_ifs
  · have hdot : ∀ c : Char, c.toLower = '.' → c = '.' := fun c => eq_of_toLower_eq (by decide)
    refine ⟨?_, fun he => h.ne_dot (map_eq_dots hdot (k := 1) he),
      fun he => h.ne_dotdot (map_eq_dots hdot (k := 2) he), fun x hx => ?_⟩
    · simpa using h.ne_nil
    · obtain ⟨c, hc, rfl⟩ := List.mem_map.mp hx
      have hcs := h.sep_eq_false c hc
      simp only [isSlash, Bool.or_eq_false_iff, decide_eq_false_iff_not] at hcs ⊢
      exact ⟨fun he => hcs.1 (eq_of_toLower_eq (by decide) he),
        fun he => hcs.2 (eq_of_toLower_eq (by decide) he)⟩
  · exact h

theorem isName_caseOf (preserveCase : Bool) (h : IsName isSlash '.' n ∧ nul ∉ n) :
    IsName isSlash '.' (caseOf preserveCase n) ∧ nul ∉ caseOf preserveCase n := by
  refine ⟨isName_caseOf_of_isName preserveCase h.1, fun hx => ?_⟩
  unfold caseOf at hx
  split_ifs at hx
  · obtain ⟨c, hc, he⟩ := List.mem_map.mp hx
    exact h.2 ((eq_of_toLower_eq (by decide) he) ▸ hc)
  · exact h.2 hx

variable {ns : List (List Char)}

theorem width_map_caseOf (preserveCase : Bool) (ns : List (List Char)) :
    width (ns.map (caseOf preserveCase)) = width ns := by
  simp [width, List.length_flatMap, Function.comp_def, length_caseOf]

theorem length_render (h : ∀ n ∈ ns, IsName isSlash '.' n) :
    (render ns).length = max 1 (width ns) := by
  cases ns with
  | nil => rfl
  | cons n ns =>
      have hpos : width (n :: ns) = (render (n :: ns)).length := rfl
      rw [hpos, render_cons, List.length_cons]
      omega

theorem names_render (h : ∀ n ∈ ns, IsName isSlash '.' n) : names isSlash (render ns) = ns := by
  unfold render
  split_ifs with hnil
  · rw [hnil, names_sep rfl, names_nil]
  · exact names_flatMap rfl h

theorem isDevPath_render (h : ∀ n ∈ ns, IsName isSlash '.' n)
    (hdev : ns.head? ≠ some ['d', 'e', 'v']) : isDevPath (render ns) = false := by
  refine Bool.eq_false_iff.mpr fun htrue => hdev ?_
  have hns := names_render h
  unfold isDevPath at htrue
  split at htrue
  · rename_i c d t heq
    simp only [Bool.and_eq_true, Bool.or_eq_true, decide_eq_true_eq] at htrue
    have hc : isSlash c = true := by simpa [isSlash] using htrue.1
    have hd : isSlash d = true := by simpa [isSlash] using htrue.2
    have hsplit : names isSlash (['d', 'e', 'v'] ++ d :: t) =
      ['d', 'e', 'v'] :: names isSlash (d :: t) :=
      names_append (by simp) (by simp [isSlash]) (by simpa using hd)
    rw [heq, names_sep hc] at hns
    rw [← hns]
    exact congrArg List.head? hsplit
  · cases htrue

theorem width_le_of_prefix {pre : List (List Char)} (h : pre <+: ns) : width pre ≤ width ns := by
  obtain ⟨t, rfl⟩ := h
  simp [width]

theorem driveOf_driveLetter (h : drive < 26) (ip : List Char) :
    driveOf dos (driveLetter drive :: ':' :: ip) = (drive, driveLetter drive, ip) := by
  have hall : ∀ d < 26, ('a' ≤ driveLetter d ∧ driveLetter d ≤ 'z') ∧
      (driveLetter d).toNat - 'a'.toNat = d := by decide
  obtain ⟨hlower, hnum⟩ := hall drive h
  refine (if_pos hlower).trans ?_
  rw [hnum]

theorem mem_render (h : c ∈ render ns) : c = '/' ∨ ∃ n ∈ ns, c ∈ n := by
  unfold render at h
  split_ifs at h
  · exact .inl (List.mem_singleton.mp h)
  · obtain ⟨n, hn, hc⟩ := List.mem_flatMap.mp h
    rcases List.mem_cons.mp hc with hc | hc
    · exact .inl hc
    · exact .inr ⟨n, hn, hc⟩

theorem canonicalizePath_render (mem : ℕ → Char) (pathMax : ℕ) (hdrive : dos.currentDrive < 26)
    (hlt : drive < 26) (hns : ∀ n ∈ ns, IsName isSlash '.' n ∧ nul ∉ n)
    (hcase : ns.map (caseOf dos.preserveCase) = ns)
    (hwide : 2 + max 1 (width ns) < min pathMax FILENAME_MAX)
    (hdev : ns.head? ≠ some ['d', 'e', 'v']) :
    ∃ out, canonicalizePath dos (driveLetter drive :: ':' :: render ns) mem pathMax = .ok out ∧
      out.Holds (driveLetter drive :: ':' :: render ns) := by
  have hnames : ∀ n ∈ ns, IsName isSlash '.' n := fun n hn => (hns n hn).1
  have hof : driveOf dos (driveLetter drive :: ':' :: render ns) =
      (drive, driveLetter drive, render ns) := driveOf_driveLetter hlt _
  have hlen : (driveLetter drive :: ':' :: render ns).length < FILENAME_MAX := by
    have := length_render hnames
    simp only [List.length_cons]
    omega
  have hnul : nul ∉ driveLetter drive :: ':' :: render ns := by
    have hall : ∀ d < 26, nul ≠ driveLetter d := by decide
    simp only [List.mem_cons, not_or]
    refine ⟨hall drive hlt, by decide, fun hm => ?_⟩
    rcases mem_render hm with h | ⟨n, hn, h⟩
    · cases h
    · exact (hns n hn).2 h
  have hstart : Start dos (driveLetter drive :: ':' :: render ns) [] := by
    have hrel : isRelative (render ns) = false := by cases ns <;> rfl
    rw [Start, hof, hrel]
    rfl
  have hres : resolved dos (driveLetter drive :: ':' :: render ns) [] = ns := by
    rw [resolved, hof, normalForm, names_render hnames]
    exact (foldl_push hnames).trans (List.nil_append ns)
  have hshort : Short dos (driveLetter drive :: ':' :: render ns) []
      (min pathMax FILENAME_MAX) := by
    refine ⟨?_, by rwa [hres]⟩
    rw [hof]
    dsimp only
    rw [names_render hnames]
    refine eachAdded_of_prefix hnames fun pre n hpre => ?_
    have := width_le_of_prefix hpre
    rw [List.nil_append]
    omega
  obtain ⟨out, hok, hholds, -⟩ := (canonicalizePath_spec mem pathMax hdrive hlen hnul
    (isDevPath_render hnames hdev) hstart).1 hshort
  rw [hres, hcase, hof] at hholds
  exact ⟨out, hok, hholds⟩

/-- The call fails if a name or the result does not fit. Otherwise the result is the
drive and the names that are left of the path, with names in upper case put in lower
case where case is not preserved, and the same call leaves it as it is. -/
theorem canonicalizePath_normalForm (dos : Dos) (path : List Char) (dirs : List (List Char))
    (mem : ℕ → Char) (pathMax : ℕ) (hdrive : dos.currentDrive < 26)
    (hlen : path.length < FILENAME_MAX) (hnul : nul ∉ path)
    (hdev : isDevPath (skipDrive path) = false) (hstart : Start dos path dirs) :
    let limit := min pathMax FILENAME_MAX
    let ns := (resolved dos path dirs).map (caseOf dos.preserveCase)
    let result := driveLetter (driveOf dos path).1 :: ':' :: render ns
    let call := canonicalizePath dos path mem pathMax
    (driveOf dos path).1 < 26 ∧ '\\' ∉ result ∧
      (Roomy dos path dirs limit → (bufferOf call).written ≤ pathMax) ∧
      (¬ Short dos path dirs limit → ∃ out, call = .error (.enametoolong, out)) ∧
      (Short dos path dirs limit → (∃ out, call = .ok out ∧ out.Holds result) ∧
        (ns.head? ≠ some ['d', 'e', 'v'] → ∀ mem', ∃ out,
          canonicalizePath dos result mem' pathMax = .ok out ∧ out.Holds result)) := by
  obtain ⟨hok, herr⟩ := canonicalizePath_spec mem pathMax hdrive hlen hnul hdev hstart
  obtain ⟨drive, hlt, rest, -, hof, -, -⟩ := driveOf_putPath hdrive hlen hdev []
  have hlt' : (driveOf dos path).1 < 26 := by rwa [hof]
  have hdirs : ∀ n ∈ dirs, IsName isSlash '.' n := by
    unfold Start at hstart
    split_ifs at hstart
    · exact fun n hn => (hstart.isName n hn).1
    · simp [hstart]
  dsimp only
  refine ⟨hlt', ?_, ?_, ?_, ?_⟩
  · have hall : ∀ d < 26, '\\' ≠ driveLetter d := by decide
    simp only [List.mem_cons, not_or]
    refine ⟨hall _ hlt', by decide, fun hm => ?_⟩
    rcases mem_render hm with h | ⟨n, hn, h⟩
    · cases h
    · obtain ⟨m, hm, rfl⟩ := List.mem_map.mp hn
      have hname := isName_caseOf_of_isName dos.preserveCase (isName_normalForm _ hdirs m hm)
      exact absurd (hname.sep_eq_false _ h) (by decide)
  · intro hroom
    refine Nat.le_trans ?_ (Nat.min_le_left pathMax FILENAME_MAX)
    by_cases hshort : Short dos path dirs (min pathMax FILENAME_MAX)
    · obtain ⟨out, hres, -, -, hw⟩ := hok hshort
      rw [hres]
      exact hw hroom
    · obtain ⟨out, hres, hw⟩ := herr hshort
      rw [hres]
      exact hw hroom
  · intro hlong
    obtain ⟨out, hres, -⟩ := herr hlong
    exact ⟨out, hres⟩
  · intro hshort
    obtain ⟨out, hres, hholds, hns, -⟩ := hok hshort
    refine ⟨⟨out, hres, hholds⟩, fun hhead mem' => ?_⟩
    refine canonicalizePath_render mem' pathMax hdrive hlt' (fun n hn => ?_) ?_ ?_ hhead
    · obtain ⟨m, hm, rfl⟩ := List.mem_map.mp hn
      exact isName_caseOf dos.preserveCase (hns m hm)
    · rw [List.map_map]
      exact List.map_congr_left fun n _ => caseOf_caseOf dos.preserveCase n
    · rw [width_map_caseOf]
      exact hshort.2

/-- A system without long names whose current directory has one name. -/
def sampleDos (name : List Char) : Dos :=
  { useLfn := false, preserveCase := false, currentDrive := 2, lfnDirectory := none,
    sfnDirectory := fun _ => some name, winNT := false, longPathName := fun _ => none,
    devPath := id, tbSize := 4096, behind := [], tb_room := by decide }

theorem canonicalizePath_sample :
    ∃ out, canonicalizePath (sampleDos ['X', 'y']) ['B', '/', '/', '.', '.', '\\', 'D', '.']
      (fun _ => nul) 20 = .ok out ∧ out.Holds ['c', ':', '/', 'X', 'y', '/', 'd', '.'] := by
  have hanswers : Answers (sampleDos ['X', 'y']) 2 [['X', 'y']] :=
    ⟨rfl, by decide, fun h => absurd h (by decide)⟩
  obtain ⟨-, -, -, -, hshort⟩ := canonicalizePath_normalForm (sampleDos ['X', 'y'])
    ['B', '/', '/', '.', '.', '\\', 'D', '.'] [['X', 'y']] (fun _ => nul) 20 (by decide) (by decide)
    (by decide) (by decide) hanswers
  exact (hshort ⟨by decide, by decide⟩).1

/-- A name in upper case does not stay as it is, and a name that begins at the last of
260 bytes is stored to the next one. -/
theorem canonicalizePath_upper_and_last :
    (∃ out, canonicalizePath (sampleDos []) ['/', 'A'] (fun _ => nul) 260 = .ok out ∧
      ¬ out.Holds ['c', ':', '/', 'A']) ∧
    ¬ (bufferOf (canonicalizePath (sampleDos (List.replicate 250 'x'))
      ['a', 'a', 'a', 'a', 'a', '/', 'b'] (fun _ => nul) 260)).written ≤ 260 := by
  refine ⟨?_, by decide +kernel⟩
  have hstart : Start (sampleDos []) ['/', 'A'] [] := rfl
  obtain ⟨out, hok, hholds, -⟩ := (canonicalizePath_spec (fun _ => nul) 260 (by decide) (by decide)
    (by decide) (by decide) hstart).1 ⟨by decide, by decide⟩
  refine ⟨out, hok, fun h => ?_⟩
  exact absurd (hholds.2.2.2.1.symm.trans h.2.2.2.1) (by decide)

end DjgppLibc.Fixpath
