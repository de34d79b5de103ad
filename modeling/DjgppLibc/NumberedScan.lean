import DjgppLibc.NumberedFormats
import DjgppLibc.DoprntIntegers

/-!
# The scan finds the arguments

The scan steps over the arguments below the one it looks for, one after the other,
wherever it meets them. What it has stepped over is always the space of the
arguments in front of the next one, so where it stops is the start of the argument.
-/
namespace DjgppLibc.DoprntLoop
open OrderedSearch

variable {fmt0 body rest : List Char} {index : ℤ} {p goal next : ℕ} {size : ℕ → ℕ} {s s' : Scan}

/-- With enough fuel the scan returns `p`. -/
def Finds (fmt0 : List Char) (index : ℤ) (p : ℕ) (body : List Char) (s : Scan) : Prop :=
  ∃ limit, ∀ n ≥ limit, scan fmt0 index n body s = some p

theorem Finds.step (h : Finds fmt0 index p rest s')
    (heq : ∀ n, scan fmt0 index (n + 1) body s = scan fmt0 index n rest s') :
    Finds fmt0 index p body s := by
  obtain ⟨limit, hlimit⟩ := h
  refine ⟨limit + 1, fun n hn => ?_⟩
  obtain ⟨n, rfl⟩ : ∃ k, n = k + 1 := ⟨n - 1, by omega⟩
  rw [heq]
  exact hlimit n (by omega)

theorem finds_now (heq : ∀ n, scan fmt0 index (n + 1) body s = some p) :
    Finds fmt0 index p body s := by
  refine ⟨1, fun n hn => ?_⟩
  obtain ⟨n, rfl⟩ : ∃ k, n = k + 1 := ⟨n - 1, by omega⟩
  exact heq n

theorem finds_flags (gs : List Flag) (hgs : .zero ∉ gs) (h : Finds fmt0 index p rest s) :
    Finds fmt0 index p (gs.map Flag.ch ++ rest) s := by
  induction gs with
  | nil => exact h
  | cons g gs ih =>
      have hrest := ih (fun hmem => hgs (List.mem_cons_of_mem _ hmem))
      cases g with
      | zero => exact absurd List.mem_cons_self hgs
      | minus | plus | space | alt => exact hrest.step fun n => rfl

def Scan.withLength (s : Scan) (m : Length) : Scan :=
  match m with
  | .l => { s with longint := true }
  | .ll => { s with longint := true, longdbl := true }
  | .j => { s with longdbl := true }
  | .none | .hh | .h | .z | .t => s

theorem finds_length (m : Length) (hs : s.longint = false)
    (h : Finds fmt0 index p rest (s.withLength m)) :
    Finds fmt0 index p (m.text ++ rest) s := by
  cases m with
  | none => exact h
  | hh => exact Finds.step (h.step (fun n => rfl)) fun n => rfl
  | h | z | t | j => exact h.step fun n => rfl
  | l =>
      refine h.step fun n => ?_
      change scan fmt0 index n rest (if s.longint then _ else _) = _
      rw [hs]
      rfl
  | ll =>
      have hsecond : Finds fmt0 index p ('l' :: rest) { s with longint := true } :=
        h.step fun n => rfl
      refine hsecond.step fun n => ?_
      change scan fmt0 index n ('l' :: rest) (if s.longint then _ else _) = _
      rw [hs]
      rfl

theorem posRef_append (r : Numeral) (rest : List Char) :
    posRef r ++ rest = r.list ++ '$' :: rest := by
  rw [posRef, List.append_assoc]
  rfl

theorem number_index (r : Numeral) (h : r.index ≤ INT_MAX) (rest : List Char) :
    number (r.list ++ '$' :: rest) = r.index := by
  rw [r.number_append (by decide), number_eq_decimal r.toDigits h]
  rfl

/-- The number of the argument. -/
theorem finds_position (r : Numeral) (hr : r.index ≤ INT_MAX)
    (h : Finds fmt0 index p rest { s with argIndex := r.index }) :
    Finds fmt0 index p (posRef r ++ rest) s := by
  have hdrop := r.dropWhile (c := '$') (by decide) rest
  have hnumber := number_index r hr rest
  obtain ⟨c, cs, hlist, h0⟩ := r.leading
  have hc := r.isdigit_leading hlist
  rw [posRef_append]
  rw [hlist, List.cons_append] at hdrop hnumber ⊢
  refine h.step fun n => ?_
  have hne : ∀ d, Doprnt.isdigit d = false → c ≠ d := by
    rintro d hd rfl
    rw [hc] at hd
    cases hd
  have hnone : c ∉ [' ', '#', '\'', '-', '+', 'h', 't', 'z'] := by
    simp only [List.mem_cons, List.not_mem_nil, or_false, not_or]
    exact ⟨hne _ (by decide), hne _ (by decide), hne _ (by decide), hne _ (by decide),
      hne _ (by decide), hne _ (by decide), hne _ (by decide), hne _ (by decide)⟩
  have hpoint := hne '.' (by decide)
  rw [scan.eq_def]
  dsimp only
  rw [if_neg hnone, if_neg (not_or.mpr ⟨hne _ (by decide), hne _ (by decide)⟩),
    if_neg (hne _ (by decide)), if_neg (not_or.mpr ⟨hne _ (by decide), fun h => hpoint h.1⟩),
    if_neg hpoint, if_pos hc, hdrop, hnumber]

/-- The state in which the scan looks for `next` on its way to `goal`. -/
structure Looking (size : ℕ → ℕ) (goal next : ℕ) (s : Scan) : Prop where
  listIndex : s.listIndex = next
  argp : s.argp = start size next
  pos : 1 ≤ next
  le : next ≤ goal

theorem start_succ (size : ℕ → ℕ) (h : 1 ≤ next) :
    start size (next + 1) = start size next + size next := by
  obtain ⟨k, rfl⟩ : ∃ k, next = k + 1 := ⟨next - 1, by omega⟩
  simp [start, List.range_succ]

/-- A reference: the scan stops, or it steps over the argument, or it goes on. -/
theorem Looking.refer (h : Looking size goal next s) (i words : ℕ) (hw : words = size i) :
    match search goal next [some i] with
    | .found => s.refer goal i words = none ∧ s.argp = start size goal
    | .lost => True
    | .reached next' => ∃ s', s.refer goal i words = some s' ∧ Looking size goal next' s' ∧
        s'.argIndex = s.argIndex ∧ s'.longint = s.longint ∧ s'.longdbl = s.longdbl := by
  obtain ⟨hlist, hargp, hpos, hle⟩ := h
  by_cases hi : i = next
  · subst hi
    by_cases hgoal : i = goal
    · subst hgoal
      have hfound : search i i [some i] = .found := by simp [search]
      rw [hfound]
      exact ⟨if_pos ⟨rfl, hlist⟩, hargp⟩
    · have hreached : search goal i [some i] = .reached (i + 1) := by simp [search, hgoal]
      rw [hreached]
      refine ⟨{ s with argp := s.argp + words, listIndex := s.listIndex + 1 }, ?_,
        ⟨?_, ?_, ?_, ?_⟩, rfl, rfl, rfl⟩
      · unfold Scan.refer
        rw [if_neg (by omega), if_pos hlist.symm]
      · simp [hlist]
      · rw [start_succ size hpos, ← hargp, ← hw]
      · exact Nat.le_succ_of_le hpos
      · exact Nat.lt_of_le_of_ne hle hgoal
  · have hreached : search goal next [some i] = .reached next := by simp [search, hi]
    rw [hreached]
    refine ⟨s, ?_, ⟨hlist, hargp, hpos, hle⟩, rfl, rfl, rfl⟩
    unfold Scan.refer
    rw [if_neg (by omega), if_neg (by omega)]

/-- The fields that a star leaves alone. -/
def Same (s s' : Scan) : Prop :=
  s'.argIndex = s.argIndex ∧ s'.longint = s.longint ∧ s'.longdbl = s.longdbl

/-- From a state in which `next` is looked for, and in which `s` is kept otherwise, the scan of
`rest` finds the goal. -/
def Onward (fmt0 : List Char) (size : ℕ → ℕ) (goal : ℕ) (s : Scan) (rest : List Char)
    (next : ℕ) : Prop :=
  ∀ s', Looking size goal next s' ∧ Same s s' → Finds fmt0 goal (start size goal) rest s'

theorem scan_star (r : Numeral) (hr : r.index ≤ INT_MAX) (n : ℕ) :
    scan fmt0 index (n + 1) ('*' :: (posRef r ++ rest)) s =
      match ({ s with precIndex := r.index } : Scan).refer index r.index 1 with
      | none => some s.argp
      | some s => scan fmt0 index n rest s := by
  have hdrop := r.dropWhile (c := '$') (by decide) rest
  have hnumber := number_index r hr rest
  rw [posRef_append, scan.eq_def]
  dsimp only
  rw [if_neg (by decide), if_neg (by decide), if_neg (by decide), if_pos (by simp), if_pos rfl,
    hdrop, hnumber] <;> rfl

theorem leads_star (r : Numeral) (hr : r.index ≤ INT_MAX) (hw : size r.index = 1)
    (h : Looking size goal next s) :
    Leads goal next [some r.index] (Onward fmt0 size goal s rest)
      (Finds fmt0 goal (start size goal) ('*' :: (posRef r ++ rest)) s) := by
  have hlooking : Looking size goal next { s with precIndex := r.index } :=
    ⟨h.listIndex, h.argp, h.pos, h.le⟩
  have hrefer := hlooking.refer r.index 1 hw.symm
  unfold Leads
  cases hms : search goal next [some r.index] with
  | found =>
      rw [hms] at hrefer
      refine finds_now fun n => ?_
      rw [scan_star r hr, hrefer.1]
      exact congrArg some hrefer.2
  | lost => trivial
  | reached next' =>
      rw [hms] at hrefer
      obtain ⟨s', heq, hs', hsame⟩ := hrefer
      intro honward
      refine (honward s' ⟨hs', hsame⟩).step fun n => ?_
      rw [scan_star r hr, heq]

theorem Same.refl (s : Scan) : Same s s := ⟨rfl, rfl, rfl⟩

theorem Same.trans {s₁ s₂ s₃ : Scan} (h : Same s₁ s₂) (h' : Same s₂ s₃) : Same s₁ s₃ :=
  ⟨h'.1.trans h.1, h'.2.1.trans h.2.1, h'.2.2.trans h.2.2⟩

/-- A part of a directive that is read as its marks say, from every state. -/
def Passes (fmt0 : List Char) (size : ℕ → ℕ) (goal : ℕ) (part : List Char)
    (ms : List (Option ℕ)) : Prop :=
  ∀ s next rest, Looking size goal next s →
    Leads goal next ms (Onward fmt0 size goal s rest)
      (Finds fmt0 goal (start size goal) (part ++ rest) s)

variable {part part' : List Char} {ms ms' : List (Option ℕ)}

theorem passes_nil : Passes fmt0 size goal [] [] :=
  fun s _ _ h honward => honward s ⟨h, .refl s⟩

theorem passes_lost : Passes fmt0 size goal part (none :: ms) := fun _ _ _ _ => leads_lost

theorem Passes.append (h : Passes fmt0 size goal part ms) (h' : Passes fmt0 size goal part' ms') :
    Passes fmt0 size goal (part ++ part') (ms ++ ms') := by
  intro s next rest hs
  rw [List.append_assoc]
  refine (h s next (part' ++ rest) hs).append fun next' _ => ?_
  refine Leads.all fun s' hs' => (h' s' next' rest hs'.1).of_onward ?_
  exact fun next'' honward s'' hs'' => honward s'' ⟨hs''.1, hs'.2.trans hs''.2⟩

theorem passes_width (x : Width Numeral)
    (hx : ∀ r, x.star? = some r → r.index ≤ INT_MAX ∧ size r.index = 1) :
    Passes fmt0 size goal (x.text posRef) x.marks := by
  cases x with
  | none => exact passes_nil
  | literal w => exact passes_lost
  | star r => exact fun s next rest h => leads_star r (hx r rfl).1 (hx r rfl).2 h

theorem scan_point_star (n : ℕ) :
    scan fmt0 index (n + 1) ('.' :: '*' :: rest) s = scan fmt0 index (n + 1) ('*' :: rest) s := by
  rw [scan.eq_def, scan.eq_def]
  dsimp only
  rw [if_neg (by decide), if_neg (by decide), if_neg (by decide), if_pos (by simp),
    if_neg (by decide), if_neg (by decide), if_neg (by decide), if_neg (by decide),
    if_pos (by simp), if_pos rfl]
  rfl

theorem passes_prec (x : Prec Numeral)
    (hx : ∀ r, x.star? = some r → r.index ≤ INT_MAX ∧ size r.index = 1) :
    Passes fmt0 size goal (x.text posRef) x.marks := by
  cases x with
  | none => exact passes_nil
  | literal ds =>
      have hmarks : (Prec.literal ds : Prec Numeral).marks =
          if ds.list.length = 1 then [] else [none] := rfl
      rw [hmarks]
      split_ifs with hlen
      · obtain ⟨c, hc⟩ := List.length_eq_one_iff.mp hlen
        have hdigit := ds.isdigit c (by rw [hc]; exact List.mem_singleton_self c)
        have hstar : c ≠ '*' := by
          rintro rfl
          exact absurd hdigit (by decide)
        have htext : (Prec.literal ds : Prec Numeral).text posRef = ['.', c] := by
          change '.' :: ds.list = _
          rw [hc]
        intro s next rest h
        refine (passes_nil s next rest h).mono fun hfinds => hfinds.step fun n => ?_
        rw [htext, scan.eq_def]
        dsimp only
        rw [List.cons_append, List.cons_append]
        dsimp only
        rw [if_neg (by decide), if_neg (by decide), if_neg (by decide),
          if_neg (by simp [hstar]), if_pos rfl, List.nil_append]
      · exact passes_lost
  | star r =>
      intro s next rest h
      refine (leads_star r (hx r rfl).1 (hx r rfl).2 h).mono ?_
      rintro ⟨limit, hlimit⟩
      refine ⟨limit + 1, fun n hn => ?_⟩
      obtain ⟨n, rfl⟩ : ∃ k, n = k + 1 := ⟨n - 1, by omega⟩
      rw [Prec.text, List.cons_append, List.cons_append, scan_point_star]
      exact hlimit (n + 1) (by omega)

/-- The flags of a modifier make the words that a conversion takes. -/
theorem scanWords_conv (v : Conv) (m : Length) {s : Scan} (hs : s.longdbl = false) :
    scanWords (s.withLength m).longdbl v.ch =
      some (match v with
        | .c | .s | .p => 1
        | .d | .i | .o | .u | .x | .X => if m = .ll ∨ m = .j then 2 else 1) := by
  have hlong : (s.withLength m).longdbl = decide (m = .ll ∨ m = .j) := by
    cases m <;> first | exact hs | rfl
  rw [hlong]
  cases v <;> by_cases hm : m = .ll ∨ m = .j <;> simp [scanWords, Conv.ch, hm]

theorem scan_conv (v : Conv) {words : ℕ} (hw : scanWords s.longdbl v.ch = some words) (n : ℕ) :
    scan fmt0 index (n + 1) (v.ch :: rest) s =
      match s.refer index s.argIndex words with
      | none => some s.argp
      | some s =>
          if s.listIndex < int (index + 1) then
            scan fmt0 index n (nextBody fmt0 rest) { s with longint := false, longdbl := false }
          else some s.argp := by
  have hbody : nextBody fmt0 (v.ch :: rest) = nextBody fmt0 rest := by
    unfold nextBody
    rw [List.dropWhile_cons_of_pos (by cases v <;> decide)]
  rw [scan.eq_def]
  dsimp only
  rw [if_neg (by cases v <;> decide), if_neg (by cases v <;> decide),
    if_neg (by cases v <;> decide), if_neg (by cases v <;> simp [Conv.ch]),
    if_neg (by cases v <;> decide), if_neg (by cases v <;> decide), hw, hbody] <;> rfl

/-- A state at the start of a directive. -/
structure Fresh (size : ℕ → ℕ) (goal next : ℕ) (s : Scan) : Prop
    extends Looking size goal next s where
  longint : s.longint = false
  longdbl : s.longdbl = false

structure Spec.Fitting (s : Spec Numeral) (size : ℕ → ℕ) : Prop where
  width : ∀ r, s.width.star? = some r → r.index ≤ INT_MAX ∧ size r.index = 1
  prec : ∀ r, s.prec.star? = some r → r.index ≤ INT_MAX ∧ size r.index = 1
  arg : s.arg.index ≤ INT_MAX
  words : s.words = size s.arg.index

theorem leads_conv (d : Spec Numeral) (hd : d.Fitting size) (hgoal : goal < INT_MAX)
    (h : Looking size goal next s) (harg : s.argIndex = d.arg.index) (hlong : s.longdbl = false) :
    Leads goal next [some d.arg.index]
      (fun next' => ∀ s', Fresh size goal next' s' ∧ s'.argIndex = d.arg.index →
        Finds fmt0 goal (start size goal) (nextBody fmt0 rest) s')
      (Finds fmt0 goal (start size goal) (d.conv.ch :: rest) (s.withLength d.length)) := by
  have hwords := scanWords_conv d.conv d.length hlong
  change scanWords (s.withLength d.length).longdbl d.conv.ch = some d.words at hwords
  have hsame : (s.withLength d.length).argIndex = s.argIndex := by cases d.length <;> rfl
  have hlooking : Looking size goal next (s.withLength d.length) := by
    obtain ⟨h₁, h₂, h₃, h₄⟩ := h
    cases d.length <;> exact ⟨h₁, h₂, h₃, h₄⟩
  have hrefer := hlooking.refer d.arg.index d.words hd.words
  unfold Leads
  cases hms : search goal next [some d.arg.index] with
  | found =>
      rw [hms] at hrefer
      refine finds_now fun n => ?_
      rw [scan_conv d.conv hwords, hsame, harg, hrefer.1]
      exact congrArg some hrefer.2
  | lost => trivial
  | reached next' =>
      rw [hms] at hrefer
      obtain ⟨s', heq, hs', hidx, -, -⟩ := hrefer
      intro honward
      have hlast : s'.listIndex < int ((goal : ℤ) + 1) := by
        have hle := hs'.le
        unfold INT_MAX at hgoal
        rw [int_eq (by omega) (by omega), hs'.listIndex]
        omega
      refine (honward { s' with longint := false, longdbl := false }
        ⟨⟨⟨hs'.listIndex, hs'.argp, hs'.pos, hs'.le⟩, rfl, rfl⟩,
          hidx.trans (hsame.trans harg)⟩).step fun n => ?_
      rw [scan_conv d.conv hwords, hsame, harg, heq]
      dsimp only
      rw [if_pos hlast]

theorem leads_directive (d : Spec Numeral) (hd : d.Fitting size) (hgoal : goal < INT_MAX)
    (h : Fresh size goal next s) :
    Leads goal next d.marks
      (fun next' => ∀ s', Fresh size goal next' s' ∧ s'.argIndex = d.arg.index →
        Finds fmt0 goal (start size goal) (nextBody fmt0 rest) s')
      (Finds fmt0 goal (start size goal) (posRef d.arg ++ (d.tail posRef ++ rest)) s) := by
  unfold Spec.marks
  split_ifs with hzero
  · exact leads_lost
  · have hlooking : Looking size goal next { s with argIndex := d.arg.index } :=
      ⟨h.listIndex, h.argp, h.pos, h.le⟩
    rw [List.nil_append]
    have hpasses : Passes fmt0 size goal (d.width.text posRef ++ d.prec.text posRef)
        (d.width.marks ++ d.prec.marks) :=
      (passes_width d.width hd.width).append (passes_prec d.prec hd.prec)
    have hstars := hpasses _ _ (d.length.text ++ d.conv.ch :: rest) hlooking
    rw [← List.append_assoc]
    refine (hstars.append fun next' _ => Leads.all fun s' hs' => ?_).mono ?_
    · obtain ⟨hlooking', harg, hlongint, hlongdbl⟩ := hs'
      refine (leads_conv d hd hgoal hlooking' harg (hlongdbl.trans h.longdbl)).mono ?_
      exact fun hfinds => finds_length d.length (hlongint.trans h.longint) hfinds
    · intro hfinds
      refine finds_position d.arg hd.arg ?_
      have hflags := finds_flags d.flags hzero hfinds
      simpa only [Spec.tail, List.append_assoc, List.cons_append, List.nil_append] using hflags

variable {fmt : List (Item Numeral)} {k : ℕ}

def Fitting (fmt : List (Item Numeral)) (size : ℕ → ℕ) : Prop :=
  ∀ d, Item.directive d ∈ fmt → d.Fitting size

/-- A state between two directives: the last one was not about the argument that is looked
for. -/
structure Between (size : ℕ → ℕ) (goal next : ℕ) (s : Scan) : Prop
    extends Fresh size goal next s where
  argIndex : s.argIndex ≠ next

theorem nextBody_plain {c : Char} (hc : c ≠ '%') (rest : List Char) :
    nextBody fmt0 (c :: rest) = nextBody fmt0 rest := by
  unfold nextBody
  rw [List.dropWhile_cons_of_pos (by simpa using hc)]

theorem nextBody_percent (rest : List Char) : nextBody fmt0 ('%' :: rest) = rest := by
  unfold nextBody
  rw [List.dropWhile_cons_of_neg (by simp)]

/-- From a state between two directives the scan goes on at the end of the format, unless it
finds the argument or loses its way. -/
theorem leads_items (fmt0 : List Char) (hfit : Fitting fmt size) (hgoal : goal < INT_MAX)
    (h : Between size goal next s) :
    Leads goal next (marks fmt)
      (fun next' => ∀ s', Between size goal next' s' →
        Finds fmt0 goal (start size goal) fmt0.tail s')
      (Finds fmt0 goal (start size goal) (nextBody fmt0 (formatText posRef fmt)) s) := by
  induction fmt generalizing next s with
  | nil => exact fun honward => honward s h
  | cons i fmt ih =>
      have hrest : Fitting fmt size := fun d hd => hfit d (List.mem_cons_of_mem _ hd)
      rw [formatText_cons, marks, List.flatMap_cons]
      cases i with
      | plain c hc =>
          change Leads goal next (marks fmt) _ (Finds fmt0 goal (start size goal)
            (nextBody fmt0 (c :: formatText posRef fmt)) s)
          rw [nextBody_plain hc.1]
          exact ih hrest h
      | directive d =>
          change Leads goal next (d.marks ++ marks fmt) _ (Finds fmt0 goal (start size goal)
            (nextBody fmt0 ('%' :: (posRef d.arg ++ d.tail posRef) ++ formatText posRef fmt)) s)
          rw [List.cons_append, nextBody_percent, List.append_assoc]
          refine (leads_directive d (hfit d List.mem_cons_self) hgoal h.toFresh).append
            fun next' hnext' => Leads.all fun s' hs' => ?_
          -- the last reference of a directive is to its argument
          have hlast : d.arg.index ≠ next' := by
            have hmarks : d.marks = ((if .zero ∈ d.flags then [none] else []) ++
                (d.width.marks ++ d.prec.marks)) ++ [some d.arg.index] := by
              simp only [Spec.marks, List.append_assoc]
            rw [hmarks] at hnext'
            exact search_last hnext'
          refine ih hrest ⟨hs'.1, ?_⟩
          rw [hs'.2]
          exact_mod_cast hlast

theorem finds_passed {c : Char} (hc : isPassed c = true)
    (h : ∀ longint longdbl, Finds fmt0 index p rest { s with longint, longdbl }) :
    Finds fmt0 index p (c :: rest) s := by
  unfold isPassed at hc
  simp only [List.mem_cons, List.not_mem_nil, or_false, decide_eq_true_eq] at hc
  rcases hc with rfl | rfl | rfl | rfl | rfl | rfl | rfl | rfl | rfl | rfl | rfl
  case inr.inr.inr.inr.inr.inr.inr.inr.inr.inr =>
    refine (h true (s.longint || s.longdbl)).step fun n => ?_
    change scan fmt0 index n rest (if s.longint then _ else _) = _
    cases s.longint <;> simp
  case inr.inr.inr.inr.inr.inr.inr.inr.inl | inr.inr.inr.inr.inr.inr.inr.inr.inr.inl =>
    exact (h s.longint true).step fun n => rfl
  all_goals exact (h s.longint s.longdbl).step fun n => rfl

theorem finds_all_passed (cs : List Char) (hcs : ∀ c ∈ cs, isPassed c = true)
    (h : ∀ longint longdbl, Finds fmt0 index p rest { s with longint, longdbl }) :
    Finds fmt0 index p (cs ++ rest) s := by
  induction cs generalizing s with
  | nil => exact h s.longint s.longdbl
  | cons c cs ih =>
      refine finds_passed (hcs c List.mem_cons_self) fun longint longdbl => ?_
      exact ih (fun c hc => hcs c (List.mem_cons_of_mem _ hc)) h

theorem finds_stray {c : Char} (hpassed : isPassed c = false) (hdigit : Doprnt.isdigit c = false)
    (hstar : c ≠ '*') (hpoint : c ≠ '.') (h : Looking size goal next s)
    (harg : s.argIndex ≠ next) (hgoal : goal < INT_MAX)
    (hnext : Finds fmt0 goal p (nextBody fmt0 (c :: rest))
      { s with longint := false, longdbl := false }) :
    Finds fmt0 goal p (c :: rest) s := by
  have hlist := h.listIndex
  have hlast : s.listIndex < int ((goal : ℤ) + 1) := by
    have hle := h.le
    unfold INT_MAX at hgoal
    rw [int_eq (by omega) (by omega), hlist]
    omega
  have hrefer : ∀ words, s.refer goal s.argIndex words = some s := by
    intro words
    unfold Scan.refer
    rw [if_neg (fun heq => harg (heq.1.trans (heq.2.symm.trans hlist))), if_neg (by omega)]
  refine hnext.step fun n => ?_
  unfold isPassed at hpassed
  simp only [List.mem_cons, List.not_mem_nil, or_false, decide_eq_false_iff_not, not_or] at hpassed
  rw [scan.eq_def]
  dsimp only
  rw [if_neg (by simp [hpassed]), if_neg (by simp [hpassed]), if_neg (by simp [hpassed]),
    if_neg (by simp [hstar, hpoint]), if_neg hpoint, if_neg (by simp [hdigit])]
  cases scanWords s.longdbl c with
  | none => exact if_pos hlast
  | some words =>
      dsimp only
      rw [hrefer]
      exact if_pos hlast

theorem nextBody_append {cs : List Char} (hcs : '%' ∉ cs) (rest : List Char) :
    nextBody fmt0 (cs ++ rest) = nextBody fmt0 rest := by
  unfold nextBody
  rw [List.dropWhile_append_of_pos]
  intro c hc
  have hne : c ≠ '%' := fun h => hcs (h ▸ hc)
  simpa using hne

theorem finds_restart {text : List Char} (hwell : RestartsWell text) (hpercent : '%' ∈ text)
    (hgoal : goal < INT_MAX) (h : Between size goal next s)
    (hstart : ∀ s', Between size goal next s' → Finds text goal p (nextBody text text) s') :
    Finds text goal p text.tail s := by
  obtain ⟨c₀, tail, rfl⟩ := List.exists_cons_of_ne_nil (List.ne_nil_of_mem hpercent)
  by_cases hc₀ : c₀ = '%'
  · subst hc₀
    have hfirst := hstart s h
    rwa [nextBody_percent] at hfirst
  · have hmem : '%' ∈ tail := List.mem_of_ne_of_mem (Ne.symm hc₀) hpercent
    have hsplit : tail.takeWhile isPassed ++ tail.dropWhile isPassed = tail :=
      List.takeWhile_append_dropWhile
    have htaken : ∀ c ∈ tail.takeWhile isPassed, isPassed c = true :=
      fun c hc => List.mem_takeWhile_imp hc
    have hnone : '%' ∉ tail.takeWhile isPassed := fun hc =>
      absurd (htaken _ hc) (by decide)
    have hdropped : '%' ∈ tail.dropWhile isPassed := by
      rw [← hsplit] at hmem
      exact (List.mem_append.mp hmem).resolve_left hnone
    have hwell' := hwell.resolve_left (fun heq => hc₀ (Option.some.inj heq))
    obtain ⟨c, rest, hrest⟩ := List.exists_cons_of_ne_nil (List.ne_nil_of_mem hdropped)
    have hc : isPassed c = false := by
      have hhead := List.head?_dropWhile_not isPassed tail
      rw [hrest] at hhead
      simpa using hhead
    rw [List.tail_cons] at hwell'
    rw [hrest] at hwell' hsplit
    obtain ⟨hdigit, hstar, hpoint⟩ := hwell' c rfl
    have hbody : nextBody (c₀ :: tail) (c₀ :: tail) = nextBody (c₀ :: tail) (c :: rest) := by
      have htail : nextBody (c₀ :: tail) (tail.takeWhile isPassed ++ c :: rest) =
          nextBody (c₀ :: tail) (c :: rest) := nextBody_append hnone _
      rw [hsplit] at htail
      rw [nextBody_plain hc₀, htail]
    rw [List.tail_cons, ← hsplit]
    refine finds_all_passed _ htaken fun longint longdbl => ?_
    refine finds_stray hc hdigit hstar hpoint ⟨h.listIndex, h.argp, h.pos, h.le⟩ h.argIndex hgoal ?_
    have hagain := hstart { s with longint := false, longdbl := false }
      ⟨⟨⟨h.listIndex, h.argp, h.pos, h.le⟩, rfl, rfl⟩, h.argIndex⟩
    rw [hsplit]
    rwa [hbody] at hagain

theorem finds_goal (hfit : Fitting fmt size) (hgoal : goal < INT_MAX)
    (hsome : ∀ m ∈ marks fmt, m.isSome) (hwell : RestartsWell (formatText posRef fmt))
    (hpercent : '%' ∈ formatText posRef fmt)
    (hall : ∀ i, 1 ≤ i → i ≤ goal → some i ∈ marks fmt) (h : Between size goal next s) :
    Finds (formatText posRef fmt) goal (start size goal)
      (nextBody (formatText posRef fmt) (formatText posRef fmt)) s := by
  -- every pass gets ahead by an argument at least
  induction hleft : goal - next using Nat.strong_induction_on generalizing next s with
  | _ left ih =>
      have hleads := leads_items (formatText posRef fmt) hfit hgoal h
      unfold Leads at hleads
      rcases search_of_mem hsome (hall next h.pos h.le) h.le with hfound | ⟨next', hreached, hlt⟩
      · rw [hfound] at hleads
        exact hleads
      · rw [hreached] at hleads
        refine hleads fun s' hs' => finds_restart hwell hpercent hgoal hs' fun s'' hs'' => ?_
        have hle := hs''.le
        exact ih (goal - next') (by omega) hs'' rfl

theorem traverse_finds (hread : Readable fmt k) (hfit : Fitting fmt size) (hk : k < INT_MAX)
    (hpercent : '%' ∈ formatText posRef fmt)
    (hall : ∀ i, 1 ≤ i → i ≤ k → some i ∈ marks fmt) (hpos : 1 ≤ goal) (hle : goal ≤ k) :
    ∃ limit, ∀ fuel ≥ limit,
      traverseArgumentList fuel (formatText posRef fmt) goal = some (start size goal) := by
  have hgoal : goal < INT_MAX := Nat.lt_of_le_of_lt hle hk
  have hinit : Between size goal 1 {} := ⟨⟨⟨rfl, rfl, Nat.le_refl 1, hpos⟩, rfl, rfl⟩, by decide⟩
  have hfinds : Finds (formatText posRef fmt) goal (start size goal)
      (nextBody (formatText posRef fmt) (formatText posRef fmt)) {} := by
    rcases hread with hsub | ⟨hsome, hwell⟩
    · have hleads := leads_items (formatText posRef fmt) hfit hgoal hinit
      have hprefix : (List.range' 1 goal).Sublist (legible (marks fmt)) :=
        (List.range'_sublist_right.mpr hle).trans hsub
      unfold Leads at hleads
      rw [search_of_sublist (by simpa using hprefix) hpos] at hleads
      exact hleads
    · exact finds_goal hfit hgoal hsome hwell hpercent
        (fun i hi hi' => hall i hi (Nat.le_trans hi' hle)) hinit
  obtain ⟨limit, hlimit⟩ := hfinds
  refine ⟨limit, fun fuel hfuel => ?_⟩
  unfold traverseArgumentList
  rw [if_pos ?_]
  · exact hlimit fuel hfuel
  · unfold INT_MAX at hgoal
    rw [int_eq (by omega) (by omega)]
    omega

end DjgppLibc.DoprntLoop
