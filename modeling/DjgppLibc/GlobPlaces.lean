import Mathlib.Logic.Relation
import DjgppLibc.GlobSearch

/-!
# The places of the search (`posix/glob/glob.c`)

Which calls a call of `glob2` or `glob_dirs` makes is said without the buffer: from the
pattern, the text in front of the place of the call, and what DOS finds there. `Room` says
what the buffer must have room for in one call, and `Safe` that there is room in all
calls that it leads to.
-/
namespace DjgppLibc.GlobSearch

open CStrings Fnmatch

/-- Where the copy of a pattern stops: at the end of the buffer, at the end of the pattern,
or in front of a segment that is `...` or has a wildcard. -/
inductive Literal
  | stuck
  | whole
  | segment (start : ℕ) (spelling : Spelling) (wild : Bool)

/-- The copy of a pattern without the buffer, of which `room` bytes are left. -/
def scan (o : Setting) (room : ℕ) : List UInt8 → ℕ → ℕ → Spelling → Literal
  | [], _, _, _ => .whole
  | c :: pp, k, start, sp =>
      if room ≤ k then .stuck
      else if isSeparator c then
        if dotsFollow pp then if room ≤ k + 1 then .stuck else .segment (k + 1) o.spelling false
        else scan o room pp (k + 1) (k + 1) o.spelling
      else if isWildcard c then .segment start sp true
      else scan o room pp (k + 1) start (o.note sp c)

def literal (o : Setting) (pattern text : List UInt8) : Literal :=
  scan o (PATHBUF_LEN - 1 - text.length) pattern 0 0 o.spelling

def initial (pattern text : List UInt8) (start : ℕ) :
    List UInt8 := text ++ forward (pattern.take start)

def segment (pattern : List UInt8) (start : ℕ) : List UInt8 :=
  (pattern.drop start).takeWhile (!isslash ·)

def remaining (pattern : List UInt8) (start : ℕ) : List UInt8 :=
  (pattern.drop start).dropWhile (!isslash ·)

def Matches (o : Setting) (seg : List UInt8) (sp : Spelling) (e : Entry) : Prop :=
  ¬ (e.isDir = true ∧ isDotOrDotdot e.name.bytes = true) ∧
    fnmatch o.locale o.beyond ⟨true, true, (seg.foldl o.note sp).caseless⟩ seg
      (lowered (seg.foldl o.note sp).lower e.name.bytes) = 0

/-- A directory that `...` stands for. -/
def Below (e : Entry) : Prop := e.isDir = true ∧ ¬ isDotOrDotdot e.name.bytes = true

def Open (o : Setting) (nested : Bool) (text : List UInt8) : Prop :=
  nested = true → o.tree.fileExists text.dropLast = true

/-- A call of `glob2` or of `glob_dirs`: what is left of the pattern, and the text in front
of the place in the buffer. -/
inductive Place
  | search (pattern text : List UInt8) (nested : Bool)
  | dirs (rest text : List UInt8) (nested first : Bool)

def inside (text : List UInt8) (lower : Bool) (e : Entry) : List UInt8 :=
  text ++ forward (lowered lower e.name.bytes) ++ [slashByte]

inductive Calls (o : Setting) : Place → Place → Prop
  | dots {pattern text : List UInt8} {nested : Bool} (h : dotsFollow pattern = true) :
      Calls o (.search pattern text nested) (.dirs (pattern.drop 4) text nested true)
  | segmentDots {pattern text : List UInt8} {nested : Bool} {start : ℕ} {sp : Spelling}
    {wild : Bool}
      (h : dotsFollow pattern = false) (hl : literal o pattern text = .segment start sp wild)
      (hopen : Open o nested (initial pattern text start))
      (hseg : segment pattern start = GlobSearch.dots) :
      Calls o (.search pattern text nested)
        (.dirs ((remaining pattern start).drop 1) (initial pattern text start) nested true)
  | found {pattern text : List UInt8} {nested : Bool} {start : ℕ} {sp : Spelling} {wild : Bool}
      {e : Entry} (h : dotsFollow pattern = false)
      (hl : literal o pattern text = .segment start sp wild)
      (hopen : Open o nested (initial pattern text start))
      (hseg : segment pattern start ≠ GlobSearch.dots)
      (he : e ∈ o.tree.find allFiles (initial pattern text start ++ anyName))
      (hm : Matches o (segment pattern start) sp e) (hrest : remaining pattern start ≠ []) :
      Calls o (.search pattern text nested) (.search ((remaining pattern start).drop 1)
        (inside (initial pattern text start) ((segment pattern start).foldl o.note sp).lower e) true)
  | first {rest text : List UInt8} {nested : Bool} (h : rest ≠ []) :
      Calls o (.dirs rest text nested true) (.search rest text nested)
  | directory {rest text : List UInt8} {nested first : Bool} {e : Entry}
      (he : e ∈ o.tree.find directories (text ++ anyName)) (hb : Below e) (h : rest ≠ []) :
      Calls o (.dirs rest text nested first) (.search rest (inside text o.spelling.lower e) true)
  | below {rest text : List UInt8} {nested first : Bool} {e : Entry}
      (he : e ∈ o.tree.find directories (text ++ anyName)) (hb : Below e) :
      Calls o (.dirs rest text nested first) (.dirs rest (inside text o.spelling.lower e)
        true false)

def Room (o : Setting) : Place → Prop
  | .search pattern text nested =>
      dotsFollow pattern = true ∨ text.length < PATHBUF_LEN ∧
        match literal o pattern text with
        | .stuck => True
        | .whole => o.tree.fileExists (text ++ forward pattern) = true → o.mark = true →
            isDirectory o (text ++ forward pattern) = true →
            text.length + pattern.length + 1 < PATHBUF_LEN
        | .segment start sp wild =>
            (wild = true → 1 < text.length + start → 2 * text.length + start ≤ PATHBUF_LEN + 1) ∧
            (Open o nested (initial pattern text start) → segment pattern start ≠ dots →
              (initial pattern text start).length + 3 < PATHBUF_LEN ∧
              ∀ e ∈ o.tree.find allFiles (initial pattern text start ++ anyName),
                Matches o (segment pattern start) sp e →
                  (initial pattern text start).length + e.name.bytes.length +
                    (if remaining pattern start ≠ [] ∨ e.isDir = true ∧
                      o.mark = true then 1 else 0) <
                      PATHBUF_LEN)
  | .dirs _ text _ _ =>
      text.length + 3 < PATHBUF_LEN ∧ ∀ e ∈ o.tree.find directories (text ++ anyName),
        Below e → text.length + e.name.bytes.length + 1 < PATHBUF_LEN

def Safe (o : Setting) (place : Place) : Prop :=
  ∀ place', Relation.ReflTransGen (Calls o) place place' → Room o place'

variable {o : Setting} {pattern rest text : List UInt8} {nested first wild : Bool} {start : ℕ}
  {sp : Spelling}

theorem safe_iff {place : Place} :
    Safe o place ↔ Room o place ∧ ∀ place', Calls o place place' → Safe o place' := by
  constructor
  · exact fun h => ⟨h place .refl, fun place' hc place'' hr => h place'' (.head hc hr)⟩
  · rintro ⟨hroom, hcalls⟩ place'' hr
    rcases Relation.ReflTransGen.cases_head hr with rfl | ⟨place', hc, hr⟩
    · exact hroom
    · exact hcalls place' hc place'' hr

theorem safe_dots (h : dotsFollow pattern = true) :
    Safe o (.search pattern text nested) ↔ Safe o (.dirs (pattern.drop 4) text nested true) := by
  rw [safe_iff]
  refine ⟨fun hs => hs.2 _ (.dots h), fun hs => ⟨.inl h, fun place hc => ?_⟩⟩
  cases hc with
  | dots _ => exact hs
  | segmentDots h' => exact absurd (h.symm.trans h') (by decide)
  | found h' => exact absurd (h.symm.trans h') (by decide)

theorem safe_stuck (h : dotsFollow pattern = false) (hl : literal o pattern text = .stuck) :
    Safe o (.search pattern text nested) ↔ text.length < PATHBUF_LEN := by
  rw [safe_iff, Room, hl]
  refine ⟨fun hs => (hs.1.resolve_left (by simp [h])).1, fun hlen => ⟨.inr ⟨hlen, trivial⟩,
    fun place hc => ?_⟩⟩
  cases hc with
  | dots h' => exact absurd (h.symm.trans h') (by decide)
  | segmentDots _ hl' => cases hl.symm.trans hl'
  | found _ hl' => cases hl.symm.trans hl'

theorem safe_whole (h : dotsFollow pattern = false) (hl : literal o pattern text = .whole) :
    Safe o (.search pattern text nested) ↔ text.length < PATHBUF_LEN ∧
      (o.tree.fileExists (text ++ forward pattern) = true → o.mark = true →
        isDirectory o (text ++ forward pattern) = true →
        text.length + pattern.length + 1 < PATHBUF_LEN) := by
  rw [safe_iff, Room, hl]
  refine ⟨fun hs => hs.1.resolve_left (by simp [h]), fun hr => ⟨.inr hr, fun place hc => ?_⟩⟩
  cases hc with
  | dots h' => exact absurd (h.symm.trans h') (by decide)
  | segmentDots _ hl' => cases hl.symm.trans hl'
  | found _ hl' => cases hl.symm.trans hl'

/-- The place behind a name that is found has room, and so have the places behind it. -/
def SafeMatch (o : Setting) (rest text : List UInt8) (lower : Bool) (e : Entry) : Prop :=
  text.length + e.name.bytes.length +
      (if rest ≠ [] ∨ e.isDir = true ∧ o.mark = true then 1 else 0) < PATHBUF_LEN ∧
    (rest ≠ [] → Safe o (.search (rest.drop 1) (inside text lower e) true))

theorem safe_segment (h : dotsFollow pattern = false)
    (hl : literal o pattern text = .segment start sp wild) :
    Safe o (.search pattern text nested) ↔ text.length < PATHBUF_LEN ∧
      (wild = true → 1 < text.length + start → 2 * text.length + start ≤ PATHBUF_LEN + 1) ∧
      (Open o nested (initial pattern text start) →
        (segment pattern start = dots → Safe o (.dirs ((remaining pattern start).drop 1)
          (initial pattern text start) nested true)) ∧
        (segment pattern start ≠ dots → (initial pattern text start).length + 3 < PATHBUF_LEN ∧
          ∀ e ∈ o.tree.find allFiles (initial pattern text start ++ anyName),
            Matches o (segment pattern start) sp e →
              SafeMatch o (remaining pattern start) (initial pattern text start)
                ((segment pattern start).foldl o.note sp).lower e)) := by
  rw [safe_iff, Room, hl]
  constructor
  · rintro ⟨hroom, hcalls⟩
    obtain ⟨hlen, hstrncpy, hroom⟩ := hroom.resolve_left (by simp [h])
    refine ⟨hlen, hstrncpy, fun hopen => ⟨fun hseg => ?_, fun hseg => ?_⟩⟩
    · exact hcalls _ (.segmentDots h hl hopen hseg)
    · obtain ⟨hmask, hnames⟩ := hroom hopen hseg
      exact ⟨hmask, fun e he hm => ⟨hnames e he hm, fun hrest =>
        hcalls _ (.found h hl hopen hseg he hm hrest)⟩⟩
  · rintro ⟨hlen, hstrncpy, hopen⟩
    refine ⟨.inr ⟨hlen, hstrncpy, fun ho hseg => ?_⟩, fun place hc => ?_⟩
    · obtain ⟨hmask, hnames⟩ := (hopen ho).2 hseg
      exact ⟨hmask, fun e he hm => (hnames e he hm).1⟩
    · cases hc with
      | dots h' => exact absurd (h.symm.trans h') (by decide)
      | segmentDots _ hl' ho hseg =>
          cases hl.symm.trans hl'
          exact (hopen ho).1 hseg
      | found _ hl' ho hseg he hm hrest =>
          cases hl.symm.trans hl'
          exact (((hopen ho).2 hseg).2 _ he hm).2 hrest

def SafeBelow (o : Setting) (rest text : List UInt8) (e : Entry) : Prop :=
  text.length + e.name.bytes.length + 1 < PATHBUF_LEN ∧
    (rest ≠ [] → Safe o (.search rest (inside text o.spelling.lower e) true)) ∧
    Safe o (.dirs rest (inside text o.spelling.lower e) true false)

theorem safe_dirs : Safe o (.dirs rest text nested first) ↔
    (first = true → rest ≠ [] → Safe o (.search rest text nested)) ∧
      text.length + 3 < PATHBUF_LEN ∧
      ∀ e ∈ o.tree.find directories (text ++ anyName), Below e → SafeBelow o rest text e := by
  rw [safe_iff, Room]
  constructor
  · rintro ⟨⟨hmask, hnames⟩, hcalls⟩
    refine ⟨fun hfirst hrest => ?_, hmask, fun e he hb => ⟨hnames e he hb, fun hrest => ?_, ?_⟩⟩
    · subst hfirst
      exact hcalls _ (.first hrest)
    · exact hcalls _ (.directory he hb hrest)
    · exact hcalls _ (.below he hb)
  · rintro ⟨hself, hmask, hnames⟩
    refine ⟨⟨hmask, fun e he hb => (hnames e he hb).1⟩, fun place hc => ?_⟩
    cases hc with
    | first hrest => exact hself rfl hrest
    | directory he hb hrest => exact (hnames _ he hb).2.1 hrest
    | below he hb => exact (hnames _ he hb).2.2

end DjgppLibc.GlobSearch
