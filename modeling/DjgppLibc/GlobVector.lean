import Mathlib.Data.List.Sort
import DjgppLibc.Runs

/-!
# The vector of matches (`posix/glob/glob.c`)

The second half of `glob` puts the paths that the search has saved into the
vector of a `glob_t`. The vector is the array as it was allocated, slot by slot;
`none` is the null pointer. What the search saves, newest first, and whether an
allocation succeeds are inputs of the call, so that this part can be followed
through any sequence of calls on one `glob_t`.

The count of the paths is taken from the index behind the last one, which
includes the slots that `GLOB_DOOFFS` reserves. `calls_inOrder_iff` says when
a sequence of calls is not affected.
-/
namespace DjgppLibc.Glob

abbrev Path := List UInt8

/-- `strcmp` does not put the second string in front. -/
def strcmpLe : Path → Path → Bool
  | [], _ => true
  | _ :: _, [] => false
  | a :: as, b :: bs => a < b || (a == b && strcmpLe as bs)

/-- `qsort` with `str_compare`. -/
def sort (paths : List Path) : List Path := paths.insertionSort fun a b => strcmpLe a b

inductive Slot
  | junk
  | null
  | path (p : Path)
deriving DecidableEq

structure GlobT where
  pathc : ℕ
  pathv : Option (List Slot)
  offs : ℕ
deriving DecidableEq

inductive ReturnCode
  | ok
  | nospace
  | nomatch
deriving DecidableEq

/-- A call without its `GLOB_APPEND` and `GLOB_DOOFFS` flags: the pattern, the
paths that `glob2` has saved (`none` if it was out of memory), and whether `add`
and the allocation of the vector succeed. -/
structure Call where
  pattern : Path
  nocheck : Bool
  nosort : Bool
  found : Option (List Path)
  addOk : Bool
  vectorOk : Bool
deriving DecidableEq

def saved (c : Call) : Except ReturnCode (List Path) :=
  match c.found with
  | none => .error .nospace
  | some [] =>
      if c.nocheck then if c.addOk then .ok [c.pattern] else .error .nospace else .error .nomatch
  | some saveList => .ok saveList

def realloc (pathv : Option (List Slot)) (size : ℕ) : List Slot :=
  let old := pathv.getD []
  old.take size ++ List.replicate (size - old.length) .junk

/-- The slots from `l_ptr` on are filled with the paths and a null pointer. -/
def fill (pathv : List Slot) (lPtr : ℕ) (c : Call) (saveList : List Path) : List Slot :=
  let entries := if c.nosort then saveList.reverse else sort saveList.reverse
  pathv.take lPtr ++ entries.map .path ++ [.null]

def reset (append dooffs : Bool) (g : GlobT) : GlobT :=
  if append then g else { pathc := 0, pathv := none, offs := if dooffs then g.offs else 0 }

/-- `glob` after the search. -/
def globTail (append dooffs : Bool) (g : GlobT) (c : Call) : GlobT × ReturnCode :=
  let g := reset append dooffs g
  match saved c with
  | .error rc => (g, rc)
  | .ok saveList =>
      let lOfs := if dooffs then g.offs else 0
      if ¬ c.vectorOk then ({ g with pathv := none }, .nospace)
      else if append then
        let pathv := realloc g.pathv (lOfs + g.pathc + saveList.length + 1)
        let lPtr := lOfs + g.pathc
        ({ g with
          pathv := some (fill pathv lPtr c saveList), pathc := lPtr + saveList.length }, .ok)
      else
        let pathv := List.replicate lOfs .null ++ List.replicate (saveList.length + 1) .junk
        let lPtr := lOfs
        ({ g with
          pathv := some (fill pathv lPtr c saveList), pathc := lPtr + saveList.length }, .ok)

/-- The `glob_t`, and the paths of all the calls that have succeeded. -/
structure State where
  glob : GlobT
  paths : List Path
deriving DecidableEq

/-- The paths of a call in the order in which they are to be stored. -/
def entries (c : Call) : List Path :=
  match saved c with
  | .error _ => []
  | .ok saveList => if c.nosort then saveList.reverse else sort saveList.reverse

def call (append dooffs : Bool) (s : State) (c : Call) : State :=
  let r := globTail append dooffs s.glob c
  { glob := r.1, paths := if r.2 = .ok then s.paths ++ entries c else s.paths }

/-- The first call, on a `glob_t` with anything in it. -/
def firstCall (dooffs : Bool) (g : GlobT) (c : Call) : State :=
  call false dooffs { glob := g, paths := [] } c

def appendCall (dooffs : Bool) (s : State) (c : Call) : Except Empty State :=
  .ok (call true dooffs s c)

/-- The vector holds the reserved slots, then the paths, then a null pointer. -/
def InOrder (dooffs : Bool) (s : State) : Prop :=
  s.glob.pathc = s.paths.length ∧
    ∃ rest, s.glob.pathv =
      some (List.replicate (if dooffs then s.glob.offs else 0) .null ++ s.paths.map .path ++
        .null :: rest)

def Obtains (c : Call) : Prop := ∃ saveList, saved c = .ok saveList

variable {dooffs : Bool} {g : GlobT} {c : Call} {s : State} {saveList : List Path}

theorem length_entries (h : saved c = .ok saveList) : (entries c).length = saveList.length := by
  rw [entries, h]
  dsimp only
  split_ifs
  · exact List.length_reverse
  · rw [sort, List.length_insertionSort, List.length_reverse]

theorem fill_eq {pathv : List Slot} {lPtr : ℕ} (h : saved c = .ok saveList) :
    fill pathv lPtr c saveList = pathv.take lPtr ++ (entries c).map .path ++ [.null] := by
  rw [fill, entries, h]

/-- What is in front of the old end of the vector stays. -/
theorem take_realloc {old : List Slot} (rest : List Slot) {size : ℕ} (h : old.length ≤ size) :
    (realloc (some (old ++ rest)) size).take old.length = old := by
  unfold realloc
  rw [Option.getD_some, List.take_append_of_le_length (by rw [List.length_take]; simp; omega),
    List.take_take, Nat.min_eq_left h, List.take_left]

theorem not_inOrder_of_none (h : s.glob.pathv = none) : ¬ InOrder dooffs s := by
  rintro ⟨-, rest, hv⟩
  rw [h] at hv
  cases hv

/-! ### What a call does -/

theorem saved_ne_ok {rc : ReturnCode} (h : saved c = .error rc) : rc ≠ .ok := by
  rintro rfl
  unfold saved at h
  split at h
  · cases h
  · split_ifs at h <;> cases h
  · cases h

theorem call_error {append : Bool} {rc : ReturnCode} (h : saved c = .error rc) :
    call append dooffs s c = { glob := reset append dooffs s.glob, paths := s.paths } := by
  unfold call globTail
  rw [h]
  dsimp only
  rw [if_neg (saved_ne_ok h)]

theorem call_full {append : Bool} (h : saved c = .ok saveList) (hv : c.vectorOk = false) :
    call append dooffs s c =
      { glob := { reset append dooffs s.glob with pathv := none }, paths := s.paths } := by
  unfold call globTail
  rw [h, hv]
  rfl

theorem call_first (h : saved c = .ok saveList) (hv : c.vectorOk = true) :
    call false dooffs s c =
      let lOfs := if dooffs then s.glob.offs else 0
      { glob :=
          { pathc := lOfs + (entries c).length
            pathv := some (List.replicate lOfs .null ++ (entries c).map .path ++ [.null])
            offs := lOfs }
        paths := s.paths ++ entries c } := by
  unfold call globTail reset
  rw [h, hv]
  dsimp only
  rw [if_neg Bool.false_ne_true, if_neg (not_not.mpr rfl), if_neg Bool.false_ne_true, fill_eq h,
    List.take_left' (List.length_replicate), length_entries h]
  dsimp only
  rw [if_pos rfl]
  cases dooffs <;> rfl

theorem call_append (h : saved c = .ok saveList) (hv : c.vectorOk = true) :
    call true dooffs s c =
      let lPtr := (if dooffs then s.glob.offs else 0) + s.glob.pathc
      { glob :=
          { pathc := lPtr + (entries c).length
            pathv := some
              ((realloc s.glob.pathv (lPtr + (entries c).length + 1)).take lPtr ++
                (entries c).map .path ++ [.null])
            offs := s.glob.offs }
        paths := s.paths ++ entries c } := by
  unfold call globTail reset
  rw [h, hv]
  dsimp only
  rw [if_pos rfl, if_neg (not_not.mpr rfl), if_pos rfl, fill_eq h, length_entries h]
  rfl

theorem firstCall_inOrder_iff :
    InOrder dooffs (firstCall dooffs g c) ↔
      (dooffs = true → g.offs = 0) ∧ Obtains c ∧ c.vectorOk = true := by
  unfold firstCall
  cases h : saved c with
  | error rc =>
      rw [call_error h]
      refine iff_of_false (not_inOrder_of_none rfl) ?_
      rintro ⟨-, ⟨saveList, h'⟩, -⟩
      rw [h] at h'
      cases h'
  | ok saveList =>
      cases hv : c.vectorOk with
      | false =>
          rw [call_full h hv]
          exact iff_of_false (not_inOrder_of_none rfl) fun h => Bool.false_ne_true h.2.2
      | true =>
          rw [call_first h hv, and_iff_left ⟨⟨saveList, h⟩, rfl⟩]
          cases dooffs <;> simp [InOrder]

/-- No slots are reserved. -/
def Unreserved (dooffs : Bool) (s : State) : Prop :=
  InOrder dooffs s ∧ (if dooffs then s.glob.offs else 0) = 0

theorem unreserved_firstCall (h : InOrder dooffs (firstCall dooffs g c)) :
    Unreserved dooffs (firstCall dooffs g c) := by
  refine ⟨h, ?_⟩
  obtain ⟨hoffs, ⟨saveList, hs⟩, hv⟩ := firstCall_inOrder_iff.mp h
  rw [firstCall, call_first hs hv]
  cases dooffs with
  | false => rfl
  | true => exact hoffs rfl

theorem unreserved_append (h : Unreserved dooffs s) (hc : Obtains c → c.vectorOk = true) :
    Unreserved dooffs (call true dooffs s c) := by
  cases hs : saved c with
  | error rc =>
      rw [call_error hs]
      exact h
  | ok saveList =>
      obtain ⟨⟨hcount, rest, hv⟩, hofs⟩ := h
      have hroom : (s.paths.map Slot.path).length ≤ s.glob.pathc + (entries c).length + 1 := by
        rw [List.length_map]
        omega
      have htake := take_realloc (.null :: rest) hroom
      rw [hofs, List.replicate_zero, List.nil_append] at hv
      rw [List.length_map, ← hcount, ← hv] at htake
      rw [call_append hs (hc ⟨saveList, hs⟩)]
      dsimp only
      rw [hofs, Nat.zero_add, htake]
      refine ⟨⟨?_, [], ?_⟩, hofs⟩
      · dsimp only
        rw [List.length_append, hcount]
      · dsimp only
        rw [hofs, List.map_append]
        rfl

theorem appends_inOrder_iff {cs : List Call} (h : Unreserved dooffs s) :
    (∀ n, ∃ s', Runs.exec (appendCall dooffs) s (cs.take n) = .ok s' ∧ InOrder dooffs s') ↔
      ∀ c ∈ cs, Obtains c → c.vectorOk = true := by
  rw [Runs.exec_prefixes_iff (P := fun _ c => Obtains c → c.vectorOk = true)
    (fun _ h => h.1) ?_ ?_ h]
  · exact Runs.along_of_total fun s c => ⟨_, rfl⟩
  · intro s c hs hc
    exact ⟨_, rfl, unreserved_append hs hc⟩
  · intro s c s' _ hc hs'
    cases hs'
    obtain ⟨⟨saveList, h⟩, hv⟩ := Classical.not_imp.mp hc
    rw [call_full h (by simpa using hv)]
    exact not_inOrder_of_none rfl

/-- After every call the vector is in order, exactly if no slots are reserved,
the first call has something to store and gets its memory, and no later call
that has something to store runs out of memory. -/
theorem calls_inOrder_iff (dooffs : Bool) (g : GlobT) (c : Call) (cs : List Call) :
    (∀ n, ∃ s, Runs.exec (appendCall dooffs) (firstCall dooffs g c) (cs.take n) = .ok s ∧
        InOrder dooffs s) ↔
      ((dooffs = true → g.offs = 0) ∧ Obtains c ∧ c.vectorOk = true) ∧
        ∀ c ∈ cs, Obtains c → c.vectorOk = true := by
  rw [← firstCall_inOrder_iff]
  constructor
  · intro h
    obtain ⟨s, hs, hfirst⟩ := h 0
    cases hs
    exact ⟨hfirst, (appends_inOrder_iff (unreserved_firstCall hfirst)).mp h⟩
  · rintro ⟨hfirst, h⟩
    exact (appends_inOrder_iff (unreserved_firstCall hfirst)).mpr h

/-- One slot is reserved and one path is found. -/
def reservedCall : Call where
  pattern := ['*'.toUInt8]
  nocheck := false
  nosort := false
  found := some [['a'.toUInt8]]
  addOk := true
  vectorOk := true

theorem reservedCall_counts :
    ¬ ∀ n, ∃ s, Runs.exec (appendCall true)
        (firstCall true { pathc := 0, pathv := none, offs := 1 } reservedCall)
        (([] : List Call).take n) =
          .ok s ∧ InOrder true s := by
  intro h
  obtain ⟨s, hs, hcount, -⟩ := h 0
  cases hs
  exact absurd hcount (by decide)

end DjgppLibc.Glob
