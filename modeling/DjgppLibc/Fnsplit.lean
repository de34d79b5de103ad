import Mathlib.Data.List.TakeWhile
import DjgppLibc.CStrings

/-!
# The parts of a file name (`dos/dir/fnsplit.c`, `dos/dir/fnmerge.c`)

`fnsplit` takes a path apart and `fnmerge` puts the parts together again. A pointer
into the path is the text from there on, and what `strrchr` returns is an offset.
`isalpha` depends on the locale.
-/
namespace DjgppLibc.Fnsplit

open CStrings

structure Flags where
  wildcards : Bool
  extension : Bool
  filename : Bool
  directory : Bool
  drive : Bool
deriving DecidableEq

structure Parts where
  drive : List UInt8
  dir : List UInt8
  name : List UInt8
  ext : List UInt8
deriving DecidableEq

/-- `strrchr`: where a character occurs last. -/
def strrchr (c : UInt8) : List UInt8 → Option ℕ
  | [] => none
  | d :: s =>
      match strrchr c s with
      | some i => some (i + 1)
      | none => if d = c then some 0 else none

def maxPtr (p1 p2 : Option ℕ) : Option ℕ :=
  match p1, p2 with
  | some i, some j => if i > j then some i else some j
  | some i, none => some i
  | none, p2 => p2

/-- `isalpha` or one of the characters between the two alphabets; `strchr` finds the NUL too. -/
def isDriveLetter (isalpha : UInt8 → Bool) (c : UInt8) : Bool :=
  isalpha c || c ∈ ['['.toUInt8, '\\'.toUInt8, ']'.toUInt8, '^'.toUInt8, '_'.toUInt8, '`'.toUInt8,
    0]

/-- `pp[1]`, which is behind the NUL of an empty path. -/
def second (beyond : UInt8) : List UInt8 → UInt8
  | [] => beyond
  | [_] => 0
  | _ :: d :: _ => d

def isWildcard (c : UInt8) : Bool := c = '*'.toUInt8 || c = '?'.toUInt8 || c = '['.toUInt8

def hasDrive (isalpha : UInt8 → Bool) (beyond : UInt8) (path : List UInt8) : Bool :=
  isDriveLetter isalpha (path.headD 0) && second beyond path = ':'.toUInt8

def lastSlash (pp : List UInt8) : Option ℕ :=
  maxPtr (strrchr '\\'.toUInt8 pp) (strrchr '/'.toUInt8 pp)

def dirLen (pp : List UInt8) : ℕ :=
  match lastSlash pp with
  | some i => i + 1
  | none => 0

def dotsLen (pe : List UInt8) : ℕ := (pe.takeWhile (· = '.'.toUInt8)).length

def nameLen (pp : List UInt8) : ℕ := (strrchr '.'.toUInt8 pp).getD pp.length

/-- `strncpy` with a NUL behind it, to a place of a buffer. -/
def copyTo (buffer : List UInt8) (offset : ℕ) (s : List UInt8) :
    List UInt8 := buffer.take offset ++ s

def fnsplit (isalpha : UInt8 → Bool) (beyond : UInt8) (path : List UInt8) : Flags × Parts :=
  let drive := hasDrive isalpha beyond path
  let pp := if drive then path.drop 2 else path
  let pe := pp.drop (dirLen pp)
  let dots := dotsLen pe
  let rest := pe.drop dots
  let len := nameLen rest
  let name := copyTo [] 0 (pe.take dots)
  (⟨path.any isWildcard, (strrchr '.'.toUInt8 rest).isSome, dots > 0 || len > 0,
    (lastSlash pp).isSome, drive⟩,
    ⟨if drive then path.take 2 else [], pp.take (dirLen pp),
      -- the rest of the name goes behind the dots
      if len > 0 then copyTo name dots (rest.take len) else name, rest.drop len⟩)

def part (s : Option (List UInt8)) : List UInt8 := s.getD []

def isSlash (c : UInt8) : Bool := c = '/'.toUInt8 || c = '\\'.toUInt8

def mergeDrive : List UInt8 → List UInt8
  | [] => []
  | c :: _ => [c, ':'.toUInt8]

def mergeDir (dir : List UInt8) : List UInt8 :=
  match dir.getLast? with
  | none => []
  | some lastDirChar =>
      dir ++ if isSlash lastDirChar then []
        else if '\\'.toUInt8 ∈ dir then ['\\'.toUInt8] else ['/'.toUInt8]

def mergeExt : List UInt8 → List UInt8
  | [] => []
  | c :: ext => (if c ≠ '.'.toUInt8 then ['.'.toUInt8] else []) ++ c :: ext

def fnmerge (drive dir name ext : Option (List UInt8)) : List UInt8 :=
  mergeDrive (part drive) ++ mergeDir (part dir) ++ part name ++ mergeExt (part ext)

variable {c d : UInt8} {s path : List UInt8} {i : ℕ}

theorem strrchr_some (h : strrchr c s = some i) : s[i]? = some c := by
  induction s generalizing i with
  | nil => cases h
  | cons d s ih =>
      rw [strrchr] at h
      cases hs : strrchr c s with
      | some j =>
          rw [hs] at h
          cases h
          exact ih hs
      | none =>
          rw [hs] at h
          dsimp only at h
          split_ifs at h with hd
          cases h
          rw [hd]
          rfl

theorem maxPtr_some {p1 p2 : Option ℕ} (h : maxPtr p1 p2 = some i) : p1 = some i ∨ p2 = some i := by
  cases p1 with
  | none => exact .inr h
  | some j =>
      cases p2 with
      | none => exact .inl h
      | some k =>
          rw [maxPtr] at h
          split_ifs at h
          · exact .inl h
          · exact .inr h

theorem strrchr_head (h : strrchr c s = some i) : ∃ t, s.drop i = c :: t := by
  obtain ⟨hi, hget⟩ := List.getElem?_eq_some_iff.mp (strrchr_some h)
  exact ⟨s.drop (i + 1), by rw [List.drop_eq_getElem_cons hi, hget]⟩

theorem lastSlash_some (h : lastSlash s = some i) : ∃ c, s[i]? = some c ∧ isSlash c = true := by
  rcases maxPtr_some h with h | h
  · exact ⟨_, strrchr_some h, by decide⟩
  · exact ⟨_, strrchr_some h, by decide⟩

/-- The directory ends with a slash. -/
theorem getLast?_dir (h : lastSlash s = some i) :
    ∃ c, (s.take (dirLen s)).getLast? = some c ∧ isSlash c = true := by
  obtain ⟨c, hc, hslash⟩ := lastSlash_some h
  refine ⟨c, ?_, hslash⟩
  have hlen : dirLen s = i + 1 := by rw [dirLen, h]
  rw [hlen, List.take_add_one, hc, Option.toList_some, List.getLast?_append,
    List.getLast?_singleton]
  rfl

variable {isalpha : UInt8 → Bool} {beyond : UInt8}

theorem take_two_of_drive (hne : path ≠ []) (h : hasDrive isalpha beyond path = true) :
    ∃ c, path.take 2 = [c, ':'.toUInt8] := by
  have hcolon : second beyond path = ':'.toUInt8 := of_decide_eq_true (Bool.and_eq_true_iff.mp h).2
  cases path with
  | nil => exact absurd rfl hne
  | cons c path =>
      cases path with
      | nil => exact absurd hcolon (by rw [second]; decide)
      | cons d path => exact ⟨c, by rw [← hcolon]; rfl⟩

theorem mergeDrive_drive (hne : path ≠ []) (h : hasDrive isalpha beyond path = true) :
    mergeDrive (path.take 2) = path.take 2 := by
  obtain ⟨c, hc⟩ := take_two_of_drive hne h
  rw [hc]
  rfl

theorem mergeDir_dir (pp : List UInt8) : mergeDir (pp.take (dirLen pp)) = pp.take (dirLen pp) := by
  cases h : lastSlash pp with
  | none =>
      rw [dirLen, h]
      rfl
  | some i =>
      obtain ⟨c, hc, hslash⟩ := getLast?_dir h
      rw [mergeDir, hc]
      dsimp only
      rw [if_pos hslash, List.append_nil]

theorem mergeExt_ext (rest : List UInt8) :
    mergeExt (rest.drop (nameLen rest)) = rest.drop (nameLen rest) := by
  cases h : strrchr '.'.toUInt8 rest with
  | none =>
      rw [nameLen, h, Option.getD_none, List.drop_length]
      rfl
  | some i =>
      obtain ⟨t, ht⟩ := strrchr_head h
      rw [nameLen, h, Option.getD_some, ht]
      rfl

theorem name_eq (pe : List UInt8) (k len : ℕ) :
    (if len > 0 then copyTo (copyTo [] 0 (pe.take k)) k ((pe.drop k).take len)
      else copyTo [] 0 (pe.take k)) =
      pe.take k ++ (pe.drop k).take len := by
  have hfirst : copyTo [] 0 (pe.take k) = pe.take k := rfl
  split_ifs with hlen
  · rw [hfirst, copyTo, List.take_take, Nat.min_self]
  · rw [hfirst, Nat.eq_zero_of_not_pos hlen, List.take_zero, List.append_nil]

theorem merge_parts (isalpha : UInt8 → Bool) (beyond : UInt8) (hne : path ≠ []) :
    fnmerge (some (fnsplit isalpha beyond path).2.drive) (some (fnsplit isalpha beyond path).2.dir)
      (some (fnsplit isalpha beyond path).2.name) (some (fnsplit isalpha beyond path).2.ext) =
      path := by
  unfold fnmerge fnsplit
  dsimp only [part, Option.getD_some]
  rw [name_eq, mergeDir_dir, mergeExt_ext]
  have hdrive : mergeDrive (if hasDrive isalpha beyond path = true then path.take 2 else []) ++
      (if hasDrive isalpha beyond path = true then path.drop 2 else path) = path := by
    split_ifs with h
    · rw [mergeDrive_drive hne h, List.take_append_drop]
    · rfl
  simp only [List.append_assoc, List.take_append_drop]
  exact hdrive

theorem strrchr_append {t : List UInt8} (h : c ∉ t) : strrchr c (s ++ t) = strrchr c s := by
  induction s with
  | nil =>
      cases ht : strrchr c t with
      | none => exact ht
      | some i => exact absurd (List.mem_of_getElem? (strrchr_some ht)) h
  | cons d s ih => rw [List.cons_append, strrchr, strrchr, ih]

theorem strrchr_ge {j : ℕ} (h : c ∈ s.drop j) : ∃ i, j ≤ i ∧ strrchr c s = some i := by
  induction s generalizing j with
  | nil => exact absurd h (by simp)
  | cons d s ih =>
      have hrest {j : ℕ} (hs : c ∈ s.drop j) : ∃ i, j + 1 ≤ i ∧ strrchr c (d :: s) = some i := by
        obtain ⟨i, hji, hi⟩ := ih hs
        exact ⟨i + 1, by omega, by rw [strrchr, hi]⟩
      cases j with
      | succ j => exact hrest h
      | zero =>
          obtain rfl | hs := List.mem_cons.mp h
          · cases hs : strrchr c s with
            | none => exact ⟨0, le_rfl, by rw [strrchr, hs]; exact if_pos rfl⟩
            | some i => exact ⟨i + 1, by omega, by rw [strrchr, hs]⟩
          · obtain ⟨i, hi, heq⟩ := hrest (j := 0) hs
            exact ⟨i, by omega, heq⟩

theorem isSlash_iff : isSlash c = true ↔ c = '/'.toUInt8 ∨ c = '\\'.toUInt8 := by
  rw [isSlash, Bool.or_eq_true, decide_eq_true_eq, decide_eq_true_eq]

theorem maxPtr_ge {p1 p2 : Option ℕ} {j : ℕ} (hi : p1 = some i ∨ p2 = some i) (hji : j ≤ i) :
    ∃ k, j ≤ k ∧ maxPtr p1 p2 = some k := by
  cases p1 <;> cases p2 <;> grind [maxPtr]

theorem lastSlash_ge {j : ℕ} (hc : isSlash c = true) (h : c ∈ s.drop j) :
    ∃ i, j ≤ i ∧ lastSlash s = some i := by
  obtain ⟨i, hji, hi⟩ := strrchr_ge h
  obtain rfl | rfl := isSlash_iff.mp hc
  · exact maxPtr_ge (.inr hi) hji
  · exact maxPtr_ge (.inl hi) hji

theorem lastSlash_append {t : List UInt8} (h : ∀ c ∈ t, isSlash c = false) :
    lastSlash (s ++ t) = lastSlash s := by
  have hnot {c : UInt8} (hc : isSlash c = true) : c ∉ t := fun hm =>
    Bool.false_ne_true ((h c hm).symm.trans hc)
  rw [lastSlash, strrchr_append (hnot (by decide)), strrchr_append (hnot (by decide))]
  rfl

/-- The name and the extension have no slash. -/
theorem notMem_drop_dirLen (hc : c ∈ s.drop (dirLen s)) : isSlash c = false := by
  rw [← Bool.not_eq_true]
  intro hslash
  obtain ⟨i, hi, heq⟩ := lastSlash_ge hslash hc
  rw [dirLen, heq] at hi
  exact absurd hi (Nat.not_succ_le_self i)

theorem dirLen_append {dir t : List UInt8}
    (hdir : dir = [] ∨ ∃ c, dir.getLast? = some c ∧ isSlash c = true)
    (ht : ∀ c ∈ t, isSlash c = false) : dirLen (dir ++ t) = dir.length := by
  rw [dirLen, lastSlash_append ht]
  obtain rfl | ⟨c, hc, hslash⟩ := hdir
  · rfl
  · obtain ⟨l, rfl⟩ := List.getLast?_eq_some_iff.mp hc
    obtain ⟨i, hi, heq⟩ := lastSlash_ge (s := l ++ [c]) (j := l.length) hslash (by simp)
    obtain ⟨d, hd, -⟩ := lastSlash_some heq
    have hlt := (List.getElem?_eq_some_iff.mp hd).1
    rw [List.length_append, List.length_singleton] at hlt ⊢
    rw [heq]
    show i + 1 = l.length + 1
    omega

/-- The parts that a path is taken apart to. -/
structure Parts.WellFormed (isalpha : UInt8 → Bool) (beyond : UInt8) (p : Parts) : Prop where
  drive : p.drive = [] ∨ ∃ c, isDriveLetter isalpha c = true ∧ p.drive = [c, ':'.toUInt8]
  noDrive : p.drive = [] → p.dir ++ (p.name ++ p.ext) ≠ [] →
    hasDrive isalpha beyond (p.dir ++ (p.name ++ p.ext)) = false
  dir : p.dir = [] ∨ ∃ c, p.dir.getLast? = some c ∧ isSlash c = true
  noSlash : ∀ c ∈ p.name ++ p.ext, isSlash c = false
  /-- Dots in front belong to the name, and of the others the last one starts the extension. -/
  ext : (p.ext = [] ∧ '.'.toUInt8 ∉ p.name.dropWhile (· = '.'.toUInt8)) ∨
    (∃ t, p.ext = '.'.toUInt8 :: t ∧ '.'.toUInt8 ∉ t) ∧
      p.name.dropWhile (· = '.'.toUInt8) ≠ []

theorem drop_dotsLen (pe : List UInt8) :
    pe.drop (dotsLen pe) = pe.dropWhile (· = '.'.toUInt8) :=
  (congrArg (List.drop (dotsLen pe)) List.takeWhile_append_dropWhile.symm).trans List.drop_left

theorem nameLen_append_ext {r ext : List UInt8}
    (h : (ext = [] ∧ '.'.toUInt8 ∉ r) ∨ ∃ t, ext = '.'.toUInt8 :: t ∧ '.'.toUInt8 ∉ t) :
    nameLen (r ++ ext) = r.length := by
  unfold nameLen
  obtain ⟨rfl, hr⟩ | ⟨t, rfl, ht⟩ := h
  · cases hs : strrchr '.'.toUInt8 (r ++ []) with
    | none => rw [Option.getD_none, List.append_nil]
    | some i =>
        rw [List.append_nil] at hs
        exact absurd (List.mem_of_getElem? (strrchr_some hs)) hr
  · have happend : strrchr '.'.toUInt8 (r ++ '.'.toUInt8 :: t) =
        strrchr '.'.toUInt8 (r ++ ['.'.toUInt8]) := by
      rw [List.append_cons, strrchr_append ht]
    obtain ⟨i, hi, heq⟩ := strrchr_ge (c := '.'.toUInt8) (s := r ++ ['.'.toUInt8]) (j := r.length)
      (by simp)
    have hlt := (List.getElem?_eq_some_iff.mp (strrchr_some heq)).1
    rw [List.length_append, List.length_singleton] at hlt
    rw [happend, heq, Option.getD_some]
    omega

theorem Parts.WellFormed.name_ext {p : Parts} (h : p.WellFormed isalpha beyond) :
    ∃ r, (p.name ++ p.ext).drop (dotsLen (p.name ++ p.ext)) = r ++ p.ext ∧
      nameLen (r ++ p.ext) = r.length := by
  refine ⟨p.name.dropWhile (· = '.'.toUInt8), ?_, nameLen_append_ext (h.ext.imp_right And.left)⟩
  rw [drop_dotsLen]
  obtain ⟨hext, -⟩ | ⟨-, hne⟩ := h.ext
  · rw [hext, List.append_nil, List.append_nil]
  · rw [List.dropWhile_append, if_neg (by simpa using hne)]

/-- The name and the extension behind the directory. -/
def nameOf (pe : List UInt8) : List UInt8 :=
  pe.take (dotsLen pe) ++ (pe.drop (dotsLen pe)).take (nameLen (pe.drop (dotsLen pe)))

def extOf (pe : List UInt8) : List UInt8 :=
  (pe.drop (dotsLen pe)).drop (nameLen (pe.drop (dotsLen pe)))

theorem nameOf_append_extOf (pe : List UInt8) : nameOf pe ++ extOf pe = pe := by
  rw [nameOf, extOf, List.append_assoc, List.take_append_drop, List.take_append_drop]

theorem dropWhile_nameOf (pe : List UInt8) :
    (nameOf pe).dropWhile (· = '.'.toUInt8) =
      ((pe.drop (dotsLen pe)).take (nameLen (pe.drop (dotsLen pe)))).dropWhile
        (· = '.'.toUInt8) := by
  have hdots : pe.take (dotsLen pe) = pe.takeWhile (· = '.'.toUInt8) :=
    (congrArg (List.take (dotsLen pe)) List.takeWhile_append_dropWhile.symm).trans List.take_left
  rw [nameOf, hdots]
  exact List.dropWhile_append_of_pos fun _ => List.mem_takeWhile_imp

theorem nameOf_extOf (pe : List UInt8) :
    (extOf pe = [] ∧ '.'.toUInt8 ∉ (nameOf pe).dropWhile (· = '.'.toUInt8)) ∨
      (∃ t, extOf pe = '.'.toUInt8 :: t ∧ '.'.toUInt8 ∉ t) ∧
        (nameOf pe).dropWhile (· = '.'.toUInt8) ≠ [] := by
  rw [dropWhile_nameOf, extOf]
  have hhead := List.head?_dropWhile_not (· = '.'.toUInt8) pe
  rw [← drop_dotsLen] at hhead
  generalize pe.drop (dotsLen pe) = rest at hhead ⊢
  cases h : strrchr '.'.toUInt8 rest with
  | none =>
      refine .inl ⟨by rw [nameLen, h, Option.getD_none, List.drop_length], fun hm => ?_⟩
      have hmem := List.mem_of_mem_take ((List.dropWhile_sublist _).subset hm)
      obtain ⟨i, -, hi⟩ := strrchr_ge (j := 0) hmem
      rw [h] at hi
      cases hi
  | some i =>
      obtain ⟨t, ht⟩ := strrchr_head h
      rw [nameLen, h, Option.getD_some]
      refine .inr ⟨⟨t, ht, fun hm => ?_⟩, fun hnil => ?_⟩
      · have hbehind : '.'.toUInt8 ∈ rest.drop (i + 1) := by
          rwa [← List.drop_drop, ht]
        obtain ⟨k, hk, heq⟩ := strrchr_ge hbehind
        obtain rfl := Option.some.inj (h.symm.trans heq)
        exact absurd hk (Nat.not_succ_le_self i)
      · rw [List.dropWhile_eq_nil_iff] at hnil
        cases rest with
        | nil => cases h
        | cons c rest =>
            rw [List.head?_cons] at hhead
            cases i with
            | zero =>
                rw [List.drop_zero] at ht
                rw [(List.cons.inj ht).1] at hhead
                exact absurd hhead (by decide)
            | succ i =>
                have hc := hnil c (by rw [List.take_succ_cons]; exact List.mem_cons_self)
                exact absurd (hhead.symm.trans hc) Bool.false_ne_true

theorem fnsplit_snd (isalpha : UInt8 → Bool) (beyond : UInt8) (path : List UInt8) :
    (fnsplit isalpha beyond path).2 =
      let pp := if hasDrive isalpha beyond path = true then path.drop 2 else path
      ⟨if hasDrive isalpha beyond path = true then path.take 2 else [], pp.take (dirLen pp),
        nameOf (pp.drop (dirLen pp)), extOf (pp.drop (dirLen pp))⟩ := by
  unfold fnsplit
  dsimp only
  rw [name_eq]
  rfl

theorem wellFormed_fnsplit (isalpha : UInt8 → Bool) (beyond : UInt8) (hne : path ≠ []) :
    (fnsplit isalpha beyond path).2.WellFormed isalpha beyond := by
  rw [fnsplit_snd]
  dsimp only
  have hwhole (pp : List UInt8) : pp.take (dirLen pp) ++ (nameOf (pp.drop (dirLen pp)) ++
      extOf (pp.drop (dirLen pp))) = pp := by
    rw [nameOf_append_extOf, List.take_append_drop]
  refine ⟨?_, fun hdrive hne' => ?_, ?_, fun c hc => ?_, nameOf_extOf _⟩
  · split_ifs with h
    · obtain ⟨c, hc⟩ := take_two_of_drive hne h
      refine .inr ⟨c, ?_, hc⟩
      cases path with
      | nil => exact absurd rfl hne
      | cons d path =>
          obtain rfl := (List.cons.inj hc).1
          exact (Bool.and_eq_true_iff.mp h).1
    · exact .inl rfl
  · dsimp only at hdrive
    by_cases h : hasDrive isalpha beyond path = true
    · rw [if_pos h] at hdrive
      obtain ⟨c, hc⟩ := take_two_of_drive hne h
      rw [hc] at hdrive
      cases hdrive
    · rw [hwhole, if_neg h]
      exact Bool.not_eq_true _ ▸ h
  · dsimp only
    generalize (if hasDrive isalpha beyond path = true then path.drop 2 else path) = pp
    cases h : lastSlash pp with
    | none => exact .inl (by rw [dirLen, h]; rfl)
    | some i => exact .inr (getLast?_dir h)
  · rw [nameOf_append_extOf] at hc
    exact notMem_drop_dirLen hc

theorem Parts.WellFormed.fnmerge_eq {p : Parts} (h : p.WellFormed isalpha beyond) :
    fnmerge (some p.drive) (some p.dir) (some p.name) (some p.ext) =
      p.drive ++ (p.dir ++ (p.name ++ p.ext)) := by
  have hdrive : mergeDrive p.drive = p.drive := by
    obtain hd | ⟨c, -, hd⟩ := h.drive <;> rw [hd] <;> rfl
  have hdir : mergeDir p.dir = p.dir := by
    obtain hd | ⟨c, hc, hslash⟩ := h.dir
    · rw [hd]
      rfl
    · rw [mergeDir, hc]
      dsimp only
      rw [if_pos hslash, List.append_nil]
  have hext : mergeExt p.ext = p.ext := by
    obtain ⟨he, -⟩ | ⟨⟨t, he, -⟩, -⟩ := h.ext <;> rw [he] <;> rfl
  unfold fnmerge
  dsimp only [part, Option.getD_some]
  rw [hdrive, hdir, hext, List.append_assoc, List.append_assoc]

theorem Parts.WellFormed.behind_drive {p : Parts} (h : p.WellFormed isalpha beyond)
    {pp : List UInt8} (hpp : pp = p.dir ++ (p.name ++ p.ext)) :
    ⟨p.drive, pp.take (dirLen pp), nameOf (pp.drop (dirLen pp)), extOf (pp.drop (dirLen pp))⟩ =
      p := by
  obtain ⟨r, hr, hlen⟩ := h.name_ext
  have hextOf : extOf (p.name ++ p.ext) = p.ext := by rw [extOf, hr, hlen, List.drop_left]
  have hnameOf : nameOf (p.name ++ p.ext) = p.name := by
    have hwhole := nameOf_append_extOf (p.name ++ p.ext)
    rw [hextOf] at hwhole
    exact List.append_cancel_right hwhole
  rw [hpp, dirLen_append h.dir h.noSlash, List.take_left, List.drop_left, hnameOf, hextOf]

theorem Parts.WellFormed.fnsplit_eq {p : Parts} (h : p.WellFormed isalpha beyond) :
    (fnsplit isalpha beyond (p.drive ++ (p.dir ++ (p.name ++ p.ext)))).2 = p := by
  rw [fnsplit_snd]
  generalize hpp : p.dir ++ (p.name ++ p.ext) = pp
  have hparts := h.behind_drive hpp.symm
  obtain hd | ⟨c, hletter, hd⟩ := h.drive
  · rw [hd] at hparts
    rw [hd, List.nil_append]
    by_cases hne : pp = []
    · rw [hne] at hparts ⊢
      split_ifs <;> exact hparts
    · have hno := h.noDrive hd (hpp ▸ hne)
      rw [hpp] at hno
      rw [hno]
      exact hparts
  · rw [hd] at hparts
    have hhas : hasDrive isalpha beyond (c :: ':'.toUInt8 :: pp) = true :=
      Bool.and_eq_true_iff.mpr ⟨hletter, rfl⟩
    rw [hd, List.cons_append, List.cons_append, List.nil_append, if_pos hhas, if_pos hhas]
    exact hparts

/-- A bit is set exactly if its part is there. -/
structure Flags.Tell (f : Flags) (p : Parts) : Prop where
  drive : f.drive = true ↔ p.drive ≠ []
  directory : f.directory = true ↔ p.dir ≠ []
  filename : f.filename = true ↔ p.name ≠ []
  extension : f.extension = true ↔ p.ext ≠ []

theorem directory_iff (pp : List UInt8) :
    (lastSlash pp).isSome = true ↔ pp.take (dirLen pp) ≠ [] := by
  cases h : lastSlash pp with
  | none =>
      rw [dirLen, h]
      exact iff_of_false Bool.false_ne_true (fun h => h rfl)
  | some i =>
      obtain ⟨c, hc, -⟩ := getLast?_dir h
      refine iff_of_true rfl fun he => ?_
      rw [he] at hc
      cases hc

theorem extension_iff (rest : List UInt8) :
    (strrchr '.'.toUInt8 rest).isSome = true ↔ rest.drop (nameLen rest) ≠ [] := by
  cases h : strrchr '.'.toUInt8 rest with
  | none =>
      rw [nameLen, h, Option.getD_none, List.drop_length]
      exact iff_of_false Bool.false_ne_true (fun h => h rfl)
  | some i =>
      obtain ⟨t, ht⟩ := strrchr_head h
      rw [nameLen, h, Option.getD_some, ht]
      exact iff_of_true rfl (List.cons_ne_nil _ _)

theorem dotsLen_le (pe : List UInt8) : dotsLen pe ≤ pe.length := (List.takeWhile_prefix _).length_le

theorem nameLen_le (rest : List UInt8) : nameLen rest ≤ rest.length := by
  cases h : strrchr '.'.toUInt8 rest with
  | none => rw [nameLen, h, Option.getD_none]
  | some i =>
      rw [nameLen, h, Option.getD_some]
      exact (List.getElem?_eq_some_iff.mp (strrchr_some h)).1.le

theorem take_ne_nil {n : ℕ} (h : n ≤ s.length) : s.take n ≠ [] ↔ n > 0 := by
  rw [← List.length_pos_iff, List.length_take, Nat.min_eq_left h]

theorem tell_fnsplit (isalpha : UInt8 → Bool) (beyond : UInt8) (hne : path ≠ []) :
    (fnsplit isalpha beyond path).1.Tell (fnsplit isalpha beyond path).2 where
  drive := by
    unfold fnsplit
    dsimp only
    split_ifs with h
    · obtain ⟨c, hc⟩ := take_two_of_drive hne h
      rw [h, hc]
      exact iff_of_true rfl (List.cons_ne_nil _ _)
    · exact iff_of_false h (fun he => he rfl)
  directory := directory_iff _
  filename := by
    unfold fnsplit
    dsimp only
    rw [name_eq, ne_eq, List.append_eq_nil_iff, not_and_or, ← ne_eq, ← ne_eq,
      take_ne_nil (dotsLen_le _),
      take_ne_nil (nameLen_le _), Bool.or_eq_true, decide_eq_true_eq, decide_eq_true_eq]
  extension := extension_iff _

/-- Taking a path apart and putting the parts together gives the path, and the bits
of the result tell which parts there are. -/
theorem fnmerge_fnsplit (isalpha : UInt8 → Bool) (beyond : UInt8) (path : CString)
    (hne : path.bytes ≠ []) :
    fnmerge (some (fnsplit isalpha beyond path.bytes).2.drive)
    (some (fnsplit isalpha beyond path.bytes).2.dir)
        (some (fnsplit isalpha beyond path.bytes).2.name)
        (some (fnsplit isalpha beyond path.bytes).2.ext) =
      path.bytes ∧ (fnsplit isalpha beyond path.bytes).1.Tell
      (fnsplit isalpha beyond path.bytes).2 :=
  ⟨merge_parts isalpha beyond hne, tell_fnsplit isalpha beyond hne⟩

/-- `c:\x/..a.b` -/
def samplePath : CString :=
  ⟨['c'.toUInt8, ':'.toUInt8, '\\'.toUInt8, 'x'.toUInt8, '/'.toUInt8, '.'.toUInt8, '.'.toUInt8,
    'a'.toUInt8,
    '.'.toUInt8, 'b'.toUInt8], by decide⟩

theorem fnmerge_fnsplit_sample :
    samplePath.bytes ≠ [] ∧
      (fnsplit (· = 'c'.toUInt8) 0 samplePath.bytes).1.Tell (fnsplit
        (· = 'c'.toUInt8) 0 samplePath.bytes).2 :=
  ⟨by decide, (fnmerge_fnsplit (· = 'c'.toUInt8) 0 samplePath (by decide)).2⟩

example : (fnsplit (· = 'c'.toUInt8) 0 samplePath.bytes).2.name =
  ['.'.toUInt8, '.'.toUInt8, 'a'.toUInt8] := by
  decide

end DjgppLibc.Fnsplit
