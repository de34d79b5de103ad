import Mathlib.Data.List.TakeWhile
import Mathlib.Data.Prod.Lex
import DjgppLibc.Fixpath
import DjgppLibc.Runs

/-!
# Symbolic links in a path (`compat/unistd/xsymlink.c`)

`__solve_symlinks` copies a path to `__real_path` and puts what the links in it lead to in
the place of its components. A step is the head of the outer loop, a turn of the inner one,
or what comes behind that. `mem` is all of `__real_path` that has been written, so what a
longer path has left behind the NUL is still in it. The answers of `__internal_readlink` may
depend on its earlier calls.
-/
namespace DjgppLibc.Xsymlink

open Fixpath (nul isSlash FILENAME_MAX)

def MAX_SYMLINK : ℕ := 8

inductive Errno
  | EINVAL
  | ENAMETOOLONG
  | ELOOP
deriving DecidableEq

abbrev Path := { p : List Char // nul ∉ p }

/-- What `__internal_readlink` returns. -/
inductive Answer
  | link (target : Path)
  /-- -1 with `EINVAL`: the file is there and is not a link. -/
  | noLink
  | failed
deriving DecidableEq

def Answer.isLink : Answer → Bool
  | .link _ => true
  | _ => false

/-- The names that have been asked for, with the answers. -/
abbrev Log := List (List Char × Answer)

structure System where
  /-- `__internal_readlink`, behind some other calls of it. -/
  readlink : Log → List Char → Answer
  /-- The transfer buffer behind `_put_path`. -/
  putPath : List Char → List Char

/-- Where the function is, or what it has returned: an error or success. -/
inductive Pc
  | outer
  | inner
  | behind
  | returned (errno : Option Errno)
deriving DecidableEq

structure Solver where
  pc : Pc
  /-- What has been written to `__real_path`. -/
  mem : List Char
  start : Option ℕ
  /-- `end` -/
  stop : ℕ
  resolved : List Char
  foundAbsolutePath : Bool
  doneSomething : Bool
  nonTrivial : Bool
  linkLevel : ℕ
  log : Log

def byteAt (mem : List Char) (i : ℕ) : Char := mem.getD i nul

/-- The string at the start of an array. -/
def cstr (l : List Char) : List Char := l.takeWhile (· ≠ nul)

/-- `strpbrk (mem + i, "/\\")` -/
def strpbrk (mem : List Char) (i : ℕ) : Option ℕ :=
  ((cstr (mem.drop i)).findIdx? isSlash).map (i + ·)

def store (mem : List Char) (i : ℕ) (bytes : List Char) : List Char :=
  mem.take i ++ bytes ++ mem.drop (i + bytes.length)

def skipSlashes (mem : List Char) (i : ℕ) : ℕ := i + ((mem.drop i).takeWhile isSlash).length

/-- `if (!end) end = __real_path + strlen (__real_path)` -/
def orEnd (mem : List Char) (stop : Option ℕ) : ℕ := stop.getD (cstr mem).length

/-- The head of the outer loop, and the component that is resolved. -/
def outer (s : Solver) : Solver :=
  match s.start with
  | none => { s with pc := .returned none }
  | some i =>
      if byteAt s.mem i = nul then { s with pc := .returned none }
      else
        let path := cstr s.mem
        { s with
          pc := .inner
          resolved := if byteAt s.mem s.stop = nul then path else path.take s.stop
          foundAbsolutePath := false, doneSomething := false, nonTrivial := false }

def devEnv : List Char := ['/', 'd', 'e', 'v', '/', 'e', 'n', 'v', '/']

/-- A drive or a slash. The second character is looked at whatever the first one is. -/
def isAbsolute (target resolved : List Char) : Bool :=
  2 < target.length && byteAt resolved 1 = ':' || 0 < target.length && isSlash (byteAt resolved 0)

/-- `dir/file`, or `./dir/file` -/
def hasDirectory (resolved : List Char) : Bool :=
  let ptr := if byteAt resolved 0 = '.' && isSlash (byteAt resolved 1) then 2 else 0
  ((cstr resolved).drop ptr).any isSlash

def follow (sys : System) (s : Solver) (target : Path) : Solver :=
  let resolved := if devEnv.isPrefixOf target.val then sys.putPath target.val else target.val
  let s := { s with linkLevel := s.linkLevel + 1, resolved := resolved }
  if isAbsolute target.val resolved then { s with foundAbsolutePath := true }
  else if hasDirectory resolved then { s with nonTrivial := true, pc := .behind }
  else s

def inner (sys : System) (s : Solver) : Solver :=
  let name := cstr s.resolved
  let answer := sys.readlink s.log name
  let s := { s with log := s.log ++ [(name, answer)] }
  match answer with
  | .link target =>
      let s := { s with doneSomething := true }
      if s.linkLevel = MAX_SYMLINK then { s with pc := .returned (some .ELOOP) }
      else follow sys s target
  | _ => { s with pc := .behind }

def tail (s : Solver) : List Char :=
  if byteAt s.mem s.stop = nul then [] else cstr (s.mem.drop s.stop)

/-- Where the component is put: what is in front of it stays, but for an absolute path. -/
def front (s : Solver) : ℕ := if s.foundAbsolutePath then 0 else s.start.getD 0

/-- What is found is put in the place of the component, and the rest of the path is put behind
it. -/
def replaced (s : Solver) : List Char :=
  let mem := store s.mem (front s) (cstr s.resolved ++ [nul])
  if tail s = [] then mem else store mem (cstr mem).length (tail s ++ [nul])

def advance (s : Solver) : Solver :=
  let start := (s.start.bind fun i => strpbrk s.mem (i + 1)).map (skipSlashes s.mem)
  { s with start := start, stop := orEnd s.mem (strpbrk s.mem (skipSlashes s.mem s.stop)) }

def behind (s : Solver) : Solver :=
  let s := { s with pc := .outer }
  if s.doneSomething then
    let mem := replaced s
    let s := { s with mem := mem }
    if s.foundAbsolutePath then { s with start := some 0, stop := orEnd mem (strpbrk mem 0) }
    else if s.nonTrivial then
      { s with stop := orEnd mem (s.start.bind fun i => strpbrk mem (i + 1)) }
    else advance s
  else advance s

def step (sys : System) (s : Solver) : Solver :=
  match s.pc with
  | .outer => outer s
  | .inner => inner sys s
  | .behind => behind s
  | .returned _ => s

def refused (errno : Errno) : Solver :=
  ⟨.returned (some errno), [], none, 0, [], false, false, false, 0, []⟩

/-- Up to the outer loop; `realPath` says that `__real_path` is not NULL. -/
def entry (sys : System) (path : Option Path) (realPath : Bool) : Solver :=
  match path with
  | none => refused .EINVAL
  | some path =>
      if !realPath then refused .EINVAL
      else if FILENAME_MAX < path.val.length then refused .ENAMETOOLONG
      else
        let mem := path.val ++ [nul]
        let answer := sys.readlink [] path.val
        let stop := strpbrk mem 0
        let stop := if stop = some 0 then strpbrk mem 1 else stop
        let pc := if answer = .noLink then .returned none else .outer
        ⟨pc, mem, some 0, orEnd mem stop, [], false, false, false, 0, [(path.val, answer)]⟩

def run (sys : System) (path : Option Path) (realPath : Bool) (n : ℕ) : Solver :=
  (step sys)^[n] (entry sys path realPath)

/-- The links that have been read, not counting the first call. -/
def links (log : Log) : ℕ := log.tail.countP fun e => e.2.isLink

theorem links_append {log : Log} (h : log ≠ []) (e : List Char × Answer) :
    links (log ++ [e]) = links log + if e.2.isLink then 1 else 0 := by
  rw [links, links, List.tail_append_of_ne_nil h, List.countP_append, List.countP_singleton]

structure Inv (s : Solver) : Prop where
  level : s.linkLevel ≤ MAX_SYMLINK
  links : links s.log = s.linkLevel + if s.pc = .returned (some .ELOOP) then 1 else 0
  refused : s.pc = .returned (some .ELOOP) → s.linkLevel = MAX_SYMLINK ∧
    ∃ name target, s.log.getLast? = some (name, .link target)
  asked : (∀ errno, s.pc ≠ .returned errno) → s.log ≠ []
  started : s.pc = .inner ∨ s.pc = .behind → ∃ i, s.start = some i ∧ byteAt s.mem i ≠ nul

variable {sys : System} {s : Solver} {path : Option Path} {realPath : Bool} {n : ℕ}

theorem entry_inv (sys : System) (path : Option Path) (realPath : Bool) :
    Inv (entry sys path realPath) := by
  have hrefused (errno : Errno) (h : errno ≠ .ELOOP) : Inv (refused errno) := by
    have hpc : (refused errno).pc ≠ .returned (some .ELOOP) := by
      rintro heq
      exact h (Option.some.inj (Pc.returned.inj heq))
    refine ⟨Nat.zero_le _, ?_, fun heq => absurd heq hpc, fun hall => absurd rfl (hall _), ?_⟩
    · rw [if_neg hpc]
      rfl
    · rintro (heq | heq) <;> cases heq
  unfold entry
  cases path with
  | none => exact hrefused _ (by decide)
  | some path =>
      dsimp only
      by_cases hnull : (!realPath) = true
      · rw [if_pos hnull]
        exact hrefused _ (by decide)
      rw [if_neg hnull]
      by_cases hlong : FILENAME_MAX < path.val.length
      · rw [if_pos hlong]
        exact hrefused _ (by decide)
      rw [if_neg hlong]
      by_cases hno : sys.readlink [] path.val = .noLink
      · rw [if_pos hno]
        refine ⟨Nat.zero_le _, rfl, nofun, fun hall => absurd rfl (hall _), ?_⟩
        rintro (heq | heq) <;> cases heq
      · rw [if_neg hno]
        refine ⟨Nat.zero_le _, rfl, nofun, fun _ => List.cons_ne_nil _ _, ?_⟩
        rintro (heq | heq) <;> cases heq

theorem Inv.open (h : Inv s) (hpc : ∀ errno, s.pc ≠ .returned errno) :
    Xsymlink.links s.log = s.linkLevel ∧ s.log ≠ [] :=
  ⟨by rw [h.links, if_neg (hpc _), Nat.add_zero], h.asked hpc⟩

theorem outer_inv (h : Inv s) (hpc : s.pc = .outer) : Inv (outer s) := by
  obtain ⟨hlinks, hasked⟩ := h.open (by rw [hpc]; rintro _ ⟨⟩)
  have hreturned : Inv { s with pc := .returned none } :=
    ⟨h.level, hlinks, by rintro ⟨⟩, fun hall => absurd rfl (hall _), by
      rintro (heq | heq) <;> cases heq⟩
  unfold outer
  split
  · exact hreturned
  · next i hi =>
    split
    · exact hreturned
    · next hbyte => exact ⟨h.level, hlinks, by rintro ⟨⟩, fun _ => hasked, fun _ => ⟨i, hi, hbyte⟩⟩

/-- A link that is followed keeps the path, and the level goes up. -/
theorem follow_eq (sys : System) (s : Solver) (target : Path) (hpc : s.pc = .inner) :
    ∃ pc resolved absolute nonTrivial, (pc = .inner ∨ pc = .behind) ∧
      follow sys s target = { s with
        pc := pc, resolved := resolved, foundAbsolutePath := absolute, nonTrivial := nonTrivial
        linkLevel := s.linkLevel + 1 } := by
  unfold follow
  dsimp only
  generalize (if devEnv.isPrefixOf target.val then sys.putPath target.val else target.val) =
    resolved
  split
  · exact ⟨_, _, _, _, .inl hpc, rfl⟩
  · split
    · exact ⟨_, _, _, _, .inr rfl, rfl⟩
    · exact ⟨_, _, _, _, .inl hpc, rfl⟩

theorem inner_cases (sys : System) (s : Solver) (hpc : s.pc = .inner) :
    ∃ name answer, (answer.isLink = false ∧
        inner sys s = { s with pc := .behind, log := s.log ++ [(name, answer)] }) ∨
      ∃ target, answer = .link target ∧
        ((s.linkLevel = MAX_SYMLINK ∧ inner sys s = { s with
          pc := .returned (some .ELOOP), doneSomething := true
          log := s.log ++ [(name, answer)] }) ∨
        (s.linkLevel ≠ MAX_SYMLINK ∧ ∃ pc resolved absolute nonTrivial,
          (pc = .inner ∨ pc = .behind) ∧ inner sys s = { s with
            pc := pc, resolved := resolved, foundAbsolutePath := absolute, doneSomething := true
            nonTrivial := nonTrivial, linkLevel := s.linkLevel + 1
            log := s.log ++ [(name, answer)] })) := by
  refine ⟨cstr s.resolved, sys.readlink s.log (cstr s.resolved), ?_⟩
  unfold inner
  dsimp only
  cases sys.readlink s.log (cstr s.resolved) with
  | noLink => exact .inl ⟨rfl, rfl⟩
  | failed => exact .inl ⟨rfl, rfl⟩
  | link target =>
      refine .inr ⟨target, rfl, ?_⟩
      dsimp only
      split
      · next heq => exact .inl ⟨heq, rfl⟩
      · next hne =>
        obtain ⟨pc, resolved, absolute, nonTrivial, hcases, heq⟩ := follow_eq sys
          { s with log := s.log ++ [(cstr s.resolved, .link target)], doneSomething := true }
          target hpc
        exact .inr ⟨hne, pc, resolved, absolute, nonTrivial, hcases, heq⟩

theorem inner_inv (h : Inv s) (hpc : s.pc = .inner) : Inv (inner sys s) := by
  obtain ⟨hlinks, hasked⟩ := h.open (by rw [hpc]; nofun)
  have hstarted := h.started (.inl hpc)
  have hlevel := h.level
  obtain ⟨name, answer, hcases⟩ := inner_cases sys s hpc
  have hne : s.log ++ [(name, answer)] ≠ [] := by simp
  have hmore := links_append hasked (name, answer)
  obtain ⟨hno, heq⟩ | ⟨target, rfl, ⟨hfull, heq⟩ | ⟨hfull, pc, _, _, _, hpc', heq⟩⟩ := hcases
  · rw [heq]
    rw [if_neg (by simp [hno]), hlinks] at hmore
    exact ⟨hlevel, hmore, nofun, fun _ => hne, fun _ => hstarted⟩
  · rw [heq]
    rw [hlinks] at hmore
    refine ⟨hlevel, hmore, fun _ => ⟨hfull, _, _, List.getLast?_concat⟩,
      fun hall => absurd rfl (hall _), ?_⟩
    rintro (heq | heq) <;> cases heq
  · rw [heq]
    rw [hlinks] at hmore
    have hpc'' : pc ≠ .returned (some .ELOOP) := by
      obtain rfl | rfl := hpc' <;> decide
    have hlevel' : s.linkLevel + 1 ≤ MAX_SYMLINK := Nat.lt_of_le_of_ne hlevel hfull
    refine ⟨hlevel', ?_, fun heq => absurd heq hpc'', fun _ => hne, fun _ => hstarted⟩
    rw [if_neg hpc'']
    exact hmore

theorem behind_eq (s : Solver) : ∃ start stop, behind s = { s with
    pc := .outer, mem := if s.doneSomething then replaced s else s.mem
    start := start, stop := stop } := by
  unfold behind
  dsimp only
  split
  · next hdone =>
    split
    · exact ⟨_, _, rfl⟩
    · split
      · exact ⟨_, _, rfl⟩
      · exact ⟨_, _, rfl⟩
  · exact ⟨_, _, rfl⟩

theorem behind_inv (h : Inv s) (hpc : s.pc = .behind) : Inv (behind s) := by
  obtain ⟨hlinks, hasked⟩ := h.open (by rw [hpc]; nofun)
  obtain ⟨start, stop, heq⟩ := behind_eq s
  rw [heq]
  refine ⟨h.level, hlinks, nofun, fun _ => hasked, ?_⟩
  rintro (heq | heq) <;> cases heq

theorem step_inv (sys : System) (s : Solver) (h : Inv s) : Inv (step sys s) := by
  unfold step
  split
  · next hpc => exact outer_inv h hpc
  · next hpc => exact inner_inv h hpc
  · next hpc => exact behind_inv h hpc
  · exact h

theorem run_inv (sys : System) (path : Option Path) (realPath : Bool) (n : ℕ) :
    Inv (run sys path realPath n) :=
  Runs.iterate_invariant (step_inv sys) (entry_inv sys path realPath) n

/-- How far the path is still to be read. -/
def left (s : Solver) : ℕ :=
  match s.start with
  | none => 0
  | some i => s.mem.length - i + 1

def Pc.rank : Pc → ℕ
  | .outer => 2
  | .inner => 1
  | .behind => 0
  | .returned _ => 0

/-- The links that may still be followed; whether a component is about to be replaced; what is
left of the path; and the place in the outer loop. -/
def measure (s : Solver) : ℕ × ℕ × ℕ × ℕ :=
  (MAX_SYMLINK - s.linkLevel, if s.pc ≠ .outer ∧ s.doneSomething then 1 else 0, left s, s.pc.rank)

def Less : ℕ × ℕ × ℕ × ℕ → ℕ × ℕ × ℕ × ℕ → Prop :=
  Prod.Lex (· < ·) (Prod.Lex (· < ·) (Prod.Lex (· < ·) (· < ·)))

theorem wellFounded_less : WellFounded Less :=
  WellFounded.prod_lex wellFounded_lt
    (WellFounded.prod_lex wellFounded_lt (WellFounded.prod_lex wellFounded_lt wellFounded_lt))

theorem le_skipSlashes (mem : List Char) (i : ℕ) : i ≤ skipSlashes mem i := Nat.le_add_right _ _

theorem le_of_strpbrk {mem : List Char} {i j : ℕ} (h : strpbrk mem i = some j) : i ≤ j := by
  obtain ⟨k, -, rfl⟩ := Option.map_eq_some_iff.mp h
  exact Nat.le_add_right i k

theorem lt_of_byteAt {mem : List Char} {i : ℕ} (h : byteAt mem i ≠ nul) : i < mem.length := by
  by_contra hle
  rw [byteAt, List.getD_eq_getElem?_getD, List.getElem?_eq_none (by omega)] at h
  exact h rfl

/-- The scan goes forward. -/
theorem left_advance_lt {i : ℕ} (hstart : s.start = some i) (hbyte : byteAt s.mem i ≠ nul) :
    left (advance s) < left s := by
  have hlt := lt_of_byteAt hbyte
  have hleft : left s = s.mem.length - i + 1 := by rw [left, hstart]
  rw [hleft]
  unfold left advance
  dsimp only
  rw [hstart, Option.bind_some]
  cases hnext : strpbrk s.mem (i + 1) with
  | none => exact Nat.succ_pos _
  | some j =>
      have hj := le_of_strpbrk hnext
      have hk := le_skipSlashes s.mem j
      show s.mem.length - skipSlashes s.mem j + 1 < s.mem.length - i + 1
      omega

theorem less_level {s s' : Solver} (h : MAX_SYMLINK - s'.linkLevel < MAX_SYMLINK - s.linkLevel) :
    Less (measure s') (measure s) := Prod.Lex.left _ _ h

theorem less_same {s s' : Solver} (hlevel : s'.linkLevel = s.linkLevel) (b b' : ℕ)
    (hb : (if s.pc ≠ .outer ∧ s.doneSomething then 1 else 0) = b)
    (hb' : (if s'.pc ≠ .outer ∧ s'.doneSomething then 1 else 0) = b')
    (h : b' < b ∨ b' = b ∧ (left s' < left s ∨ left s' = left s ∧ s'.pc.rank < s.pc.rank)) :
    Less (measure s') (measure s) := by
  unfold measure Less
  rw [hlevel, hb, hb']
  refine Prod.Lex.right _ ?_
  obtain hlt | ⟨rfl, hlt | ⟨heq, hlt⟩⟩ := h
  · exact Prod.Lex.left _ _ hlt
  · exact Prod.Lex.right _ (Prod.Lex.left _ _ hlt)
  · rw [heq]
    exact Prod.Lex.right _ (Prod.Lex.right _ hlt)

theorem outer_less (hpc : s.pc = .outer) :
    (∃ errno, (outer s).pc = .returned errno) ∨ Less (measure (outer s)) (measure s) := by
  unfold outer
  cases hstart : s.start with
  | none => exact .inl ⟨none, rfl⟩
  | some i =>
      dsimp only
      by_cases hend : byteAt s.mem i = nul
      · rw [if_pos hend]
        exact .inl ⟨none, rfl⟩
      · rw [if_neg hend]
        refine .inr (less_same rfl 0 0 ?_ (by simp) (.inr ⟨rfl, .inr ⟨?_, ?_⟩⟩))
        · simp [hpc]
        · simp [left, hstart]
        · rw [hpc]
          exact Nat.lt_succ_self 1

theorem inner_less (h : Inv s) (hpc : s.pc = .inner) :
    (∃ errno, (inner sys s).pc = .returned errno) ∨ Less (measure (inner sys s)) (measure s) := by
  have hlevel := h.level
  obtain ⟨name, answer, hcases⟩ := inner_cases sys s hpc
  obtain ⟨-, heq⟩ | ⟨target, rfl, ⟨-, heq⟩ | ⟨hfull, pc, _, _, _, -, heq⟩⟩ := hcases
  · rw [heq]
    refine .inr (less_same rfl _ _ rfl rfl (.inr ⟨?_, .inr ⟨rfl, ?_⟩⟩))
    · simp [hpc]
    · rw [hpc]
      exact Nat.one_pos
  · rw [heq]
    exact .inl ⟨_, rfl⟩
  · rw [heq]
    refine .inr (less_level ?_)
    show MAX_SYMLINK - (s.linkLevel + 1) < MAX_SYMLINK - s.linkLevel
    omega

theorem behind_less (h : Inv s) (hpc : s.pc = .behind) : Less (measure (behind s)) (measure s) := by
  obtain ⟨i, hstart, hbyte⟩ := h.started (.inr hpc)
  by_cases hdone : s.doneSomething = true
  · obtain ⟨start, stop, heq⟩ := behind_eq s
    rw [heq]
    exact less_same rfl 1 0 (by simp [hpc, hdone]) (by simp) (.inl Nat.one_pos)
  · have hadvance : behind s = advance { s with pc := .outer } := by
      unfold behind
      dsimp only
      rw [if_neg hdone]
    rw [hadvance]
    refine less_same rfl 0 0 (by simp [hdone]) (by simp [advance])
      (.inr ⟨rfl, .inl ?_⟩)
    exact left_advance_lt (s := { s with pc := .outer }) hstart hbyte

theorem step_less (sys : System) (s : Solver) (h : Inv s)
    (hrun : ¬ ∃ errno, s.pc = .returned errno) :
    (∃ errno, (step sys s).pc = .returned errno) ∨ Less (measure (step sys s)) (measure s) := by
  unfold step
  split
  · next hpc => exact outer_less hpc
  · next hpc => exact inner_less h hpc
  · next hpc => exact .inr (behind_less h hpc)
  · next errno hpc => exact absurd ⟨errno, hpc⟩ hrun

/-- For all answers the function returns, having followed at most as many links as it may, and
it fails with `ELOOP` only when it has just read another one. -/
theorem solveSymlinks_returns (sys : System) (path : Option Path) (realPath : Bool) :
    ∃ n errno, (run sys path realPath n).pc = .returned errno ∧
      (errno ≠ some .ELOOP → links (run sys path realPath n).log ≤ MAX_SYMLINK) ∧
      (errno = some .ELOOP → links (run sys path realPath n).log = MAX_SYMLINK + 1 ∧
        ∃ name target, (run sys path realPath n).log.getLast? = some (name, .link target)) := by
  obtain ⟨n, errno, hpc⟩ := Runs.exists_final wellFounded_less measure (step_inv sys)
    (step_less sys) (entry_inv sys path realPath)
  have hinv := run_inv sys path realPath n
  have hpc' : (run sys path realPath n).pc = .returned errno := hpc
  refine ⟨n, errno, hpc', fun hne => ?_, ?_⟩
  · rw [hinv.links, hpc', if_neg fun heq => hne (Pc.returned.inj heq)]
    exact hinv.level
  · rintro rfl
    obtain ⟨hlevel, hlast⟩ := hinv.refused hpc'
    rw [hinv.links, if_pos hpc', hlevel]
    exact ⟨rfl, hlast⟩

/-- Where the rest of the path is put: at the first NUL, which is behind the component unless
there is one in front of it. -/
def joint (s : Solver) : ℕ :=
  if nul ∈ s.mem.take (front s) then (cstr s.mem).length else front s + (cstr s.resolved).length

/-- What stays in front of the component, what is put in its place and the rest of the path are
together shorter than `__real_path`. -/
def Room (s : Solver) : Prop :=
  front s + (cstr s.resolved).length < FILENAME_MAX ∧ joint s + (tail s).length < FILENAME_MAX

variable {mem l l' : List Char} {i : ℕ}

theorem length_store (hi : i ≤ mem.length) (bytes : List Char) :
    (store mem i bytes).length = max mem.length (i + bytes.length) := by
  rw [store, List.length_append, List.length_append, List.length_take, List.length_drop]
  omega

theorem length_cstr_le (l : List Char) : (cstr l).length ≤ l.length :=
  (List.takeWhile_sublist _).length_le

theorem nul_not_mem_cstr (l : List Char) : nul ∉ cstr l :=
  fun h => absurd (List.mem_takeWhile_imp h) (by decide)

theorem cstr_append (h : nul ∉ l) (l' : List Char) : cstr (l ++ l') = l ++ cstr l' := by
  refine List.takeWhile_append_of_pos fun c hc => decide_eq_true ?_
  rintro rfl
  exact h hc

theorem cstr_append_of_mem (h : nul ∈ l) (l' : List Char) : cstr (l ++ l') = cstr l := by
  induction l with
  | nil => cases h
  | cons c l ih =>
      unfold cstr at ih ⊢
      rw [List.cons_append]
      by_cases hc : c = nul
      · rw [hc]
        rfl
      · have hmem : nul ∈ l := (List.mem_cons.mp h).resolve_left (Ne.symm hc)
        have hkept : decide (c ≠ nul) = true := decide_eq_true hc
        rw [List.takeWhile_cons, List.takeWhile_cons, if_pos hkept, if_pos hkept, ih hmem]

/-- The string behind the first store. -/
theorem length_cstr_store (s : Solver) (hfront : front s ≤ s.mem.length) :
    (cstr (store s.mem (front s) (cstr s.resolved ++ [nul]))).length = joint s := by
  rw [store, List.append_assoc, joint]
  by_cases hnul : nul ∈ s.mem.take (front s)
  · rw [if_pos hnul, cstr_append_of_mem hnul, ← cstr_append_of_mem hnul (s.mem.drop (front s)),
      List.take_append_drop]
  · rw [if_neg hnul, cstr_append hnul, List.append_assoc, cstr_append (nul_not_mem_cstr _)]
    have hend : cstr ([nul] ++ s.mem.drop (front s + (cstr s.resolved ++ [nul]).length)) = [] := rfl
    rw [hend, List.length_append, List.length_append, List.length_take]
    simp only [List.length_nil]
    omega

theorem length_cstr_lt (h : nul ∈ l) : (cstr l).length < l.length := by
  refine Nat.lt_of_le_of_ne (length_cstr_le l) fun heq => nul_not_mem_cstr l ?_
  rw [cstr, (List.takeWhile_prefix _).eq_of_length heq]
  exact h

theorem replaced_fits_iff (hmem : s.mem.length ≤ FILENAME_MAX) (hfront : front s ≤ s.mem.length) :
    (replaced s).length ≤ FILENAME_MAX ↔ Room s := by
  have hfirst := length_store hfront (cstr s.resolved ++ [nul])
  have hjoint := length_cstr_store s hfront
  have hle := length_cstr_le (store s.mem (front s) (cstr s.resolved ++ [nul]))
  rw [List.length_append, List.length_singleton] at hfirst
  rw [hjoint] at hle
  unfold replaced Room
  dsimp only
  by_cases htail : tail s = []
  · have hshort : front s + (cstr s.resolved).length < FILENAME_MAX → joint s < FILENAME_MAX := by
      intro h
      rw [joint]
      split
      · next hnul => exact Nat.lt_of_lt_of_le (length_cstr_lt (List.mem_of_mem_take hnul)) hmem
      · exact h
    rw [if_pos htail, hfirst, htail, List.length_nil]
    omega
  · rw [if_neg htail, hjoint, length_store hle, hfirst, List.length_append, List.length_singleton]
    omega

theorem front_le (h : Inv s) (hpc : s.pc = .behind) : front s ≤ s.mem.length := by
  obtain ⟨i, hstart, hbyte⟩ := h.started (.inr hpc)
  unfold front
  split
  · exact Nat.zero_le _
  · rw [hstart]
    exact (lt_of_byteAt hbyte).le

theorem step_mem (sys : System) (s : Solver) :
    (step sys s).mem = if s.pc = .behind ∧ s.doneSomething = true then replaced s else s.mem := by
  unfold step
  cases hpc : s.pc with
  | outer =>
      rw [if_neg (by simp)]
      unfold outer
      dsimp only
      split
      · rfl
      · split <;> rfl
  | inner =>
      rw [if_neg (by simp)]
      obtain ⟨name, answer, hcases⟩ := inner_cases sys s hpc
      obtain ⟨-, heq⟩ | ⟨_, -, ⟨-, heq⟩ | ⟨-, _, _, _, _, -, heq⟩⟩ := hcases <;> rw [heq]
  | behind =>
      obtain ⟨start, stop, heq⟩ := behind_eq s
      dsimp only
      rw [heq]
      simp
  | returned errno => simp

/-- A step stays in `__real_path` exactly if there is room for what it writes. -/
theorem step_fits_iff (sys : System) (h : Inv s) (hmem : s.mem.length ≤ FILENAME_MAX) :
    (step sys s).mem.length ≤ FILENAME_MAX ↔
      (s.pc = .behind → s.doneSomething = true → Room s) := by
  rw [step_mem]
  by_cases hreplaces : s.pc = .behind ∧ s.doneSomething = true
  · rw [if_pos hreplaces, replaced_fits_iff hmem (front_le h hreplaces.1)]
    exact ⟨fun hroom _ _ => hroom, fun hall => hall hreplaces.1 hreplaces.2⟩
  · rw [if_neg hreplaces]
    exact iff_of_true hmem fun hpc hdone => absurd ⟨hpc, hdone⟩ hreplaces

theorem entry_path (sys : System) (path : Path) (hpath : path.val.length < FILENAME_MAX) :
    (entry sys (some path) true).mem = path.val ++ [nul] ∧
      (entry sys (some path) true).pc ≠ .returned (some .ENAMETOOLONG) := by
  unfold entry
  dsimp only
  rw [if_neg (by simp), if_neg hpath.not_gt]
  refine ⟨rfl, ?_⟩
  dsimp only
  split <;> decide

theorem step_not_enametoolong (sys : System) (s : Solver)
    (h : s.pc ≠ .returned (some .ENAMETOOLONG)) :
    (step sys s).pc ≠ .returned (some .ENAMETOOLONG) := by
  unfold step
  split
  · unfold outer
    split
    · rintro ⟨⟩
    · dsimp only
      split <;> rintro ⟨⟩
  · next hpc =>
    obtain ⟨name, answer, hcases⟩ := inner_cases sys s hpc
    obtain ⟨-, heq⟩ | ⟨_, -, ⟨-, heq⟩ | ⟨-, pc, _, _, _, hpc', heq⟩⟩ := hcases
    · rw [heq]
      rintro ⟨⟩
    · rw [heq]
      exact show Pc.returned (some .ELOOP) ≠ .returned (some .ENAMETOOLONG) by decide
    · rw [heq]
      obtain rfl | rfl := hpc' <;> rintro ⟨⟩
  · obtain ⟨start, stop, heq⟩ := behind_eq s
    rw [heq]
    rintro ⟨⟩
  · exact h

theorem run_not_enametoolong (sys : System) (path : Path) (hpath : path.val.length < FILENAME_MAX)
    (n : ℕ) : (run sys (some path) true n).pc ≠ .returned (some .ENAMETOOLONG) :=
  Runs.iterate_invariant (J := fun s : Solver => s.pc ≠ .returned (some .ENAMETOOLONG))
    (step_not_enametoolong sys) (entry_path sys path hpath).2 n

/-- Nothing is written behind `__real_path`, or the path is refused for its length, exactly if
there is room whenever a component is replaced. -/
theorem solveSymlinks_fits_iff (sys : System) (path : Path)
    (hpath : path.val.length < FILENAME_MAX) :
    ((∀ n, (run sys (some path) true n).mem.length ≤ FILENAME_MAX) ∨
        ∃ n, (run sys (some path) true n).pc = .returned (some .ENAMETOOLONG)) ↔
      ∀ n, (run sys (some path) true n).pc = .behind →
        (run sys (some path) true n).doneSomething = true → Room (run sys (some path) true n) := by
  have hnext (n : ℕ) : run sys (some path) true (n + 1) = step sys (run sys (some path) true n) :=
    Function.iterate_succ_apply' _ _ _
  rw [or_iff_left fun ⟨n, hpc⟩ => run_not_enametoolong sys path hpath n hpc]
  constructor
  · intro hfits n
    rw [← step_fits_iff sys (run_inv sys _ _ n) (hfits n), ← hnext]
    exact hfits (n + 1)
  · intro hroom n
    induction n with
    | zero =>
        show (entry sys (some path) true).mem.length ≤ FILENAME_MAX
        rw [(entry_path sys path hpath).1, List.length_append, List.length_singleton]
        exact hpath
    | succ n ih =>
        rw [hnext, step_fits_iff sys (run_inv sys _ _ n) ih]
        exact hroom n

/-- `a` is a link to a name of 259 characters. -/
def longLink : System :=
  ⟨fun _ name => if name = ['a'] then .link ⟨List.replicate 259 'c', by decide⟩ else .failed, id⟩

/-- `a` is a link to `c`. -/
def shortLink : System :=
  ⟨fun _ name => if name = ['a'] then .link ⟨['c'], by decide⟩ else .failed, id⟩

theorem solveSymlinks_fits_iff_short :
    ((∀ n, (run shortLink (some ⟨['a', '/', 'b'], by decide⟩) true n).mem.length ≤ FILENAME_MAX) ∨
        ∃ n, (run shortLink (some ⟨['a', '/', 'b'], by decide⟩) true n).pc =
          .returned (some .ENAMETOOLONG)) ↔
      ∀ n, (run shortLink (some ⟨['a', '/', 'b'], by decide⟩) true n).pc = .behind →
        (run shortLink (some ⟨['a', '/', 'b'], by decide⟩) true n).doneSomething = true →
        Room (run shortLink (some ⟨['a', '/', 'b'], by decide⟩) true n) :=
  solveSymlinks_fits_iff shortLink ⟨['a', '/', 'b'], by decide⟩ (by decide)

/-- With the long link `a/b` becomes a path that needs 262 bytes. -/
theorem longLink_overruns :
    (run longLink (some ⟨['a', '/', 'b'], by decide⟩) true 4).mem.length = 262 ∧
      ∀ n, (run longLink (some ⟨['a', '/', 'b'], by decide⟩) true n).pc ≠
        .returned (some .ENAMETOOLONG) :=
  ⟨by decide +kernel, run_not_enametoolong longLink _ (by decide)⟩

end DjgppLibc.Xsymlink
