import DjgppLibc.DosExecDirect

/-!
# Which program is run (`dos/process/dosexec.c`)

`__djgpp_spawn` looks for a path with the extensions of the table `interpreters`, and
runs the file with the interpreter of its extension. What `access` and `_use_lfn`
answer is a parameter. `_use_lfn` is asked with the pointer behind the end of the path,
so that it answers for the current drive.
-/
namespace DjgppLibc.DosExec

/-- `FILENAME_MAX`, with the NUL. -/
def filenameMax : ℕ := 260

inductive Interp
  | directExec
  | go32Exec
  | commandExec
  | scriptExec
deriving DecidableEq

structure Interpreter where
  extension : List Char
  interp : Interp
  /-- `INTERP_FLAG_SKIP_SEARCH` -/
  skipSearch : Bool
deriving DecidableEq

/-- The entries with an extension. -/
def interpreters : List Interpreter :=
  [⟨['.', 'c', 'o', 'm'], .directExec, false⟩, ⟨['.', 'e', 'x', 'e'], .go32Exec, false⟩,
    ⟨['.', 'b', 'a', 't'], .commandExec, false⟩, ⟨['.', 'b', 't', 'm'], .commandExec, false⟩,
    ⟨['.', 's', 'h'], .scriptExec, true⟩, ⟨['.', 'k', 's', 'h'], .scriptExec, true⟩,
    ⟨['.', 'p', 'l'], .scriptExec, true⟩, ⟨['.', 's', 'e', 'd'], .scriptExec, true⟩, ⟨[], .go32Exec,
      false⟩]

/-- The entry behind them is for every other extension. -/
def interpAt (i : ℕ) : Interp := (interpreters[i]?.map Interpreter.interp).getD .scriptExec

/-- The file systems: whether `access` returns 0, and `_use_lfn`. -/
structure Files where
  fOk : List Char → Bool
  dOk : List Char → Bool
  useLfn : List Char → Bool

/-- `access (name, D_OK)` -/
def Files.accessD (fs : Files) (name : List Char) : ℤ := if fs.dOk name then 0 else -1

inductive Errno
  | einval
  | enosys
  | enametoolong
  | eisdir
  | enoent
deriving DecidableEq

def extensionIndex (ext : List Char) : ℕ := interpreters.findIdx fun e => sameName ext e.extension

def findInterpreter (fs : Files) (path ext : List Char) : Except Errno ℕ :=
  let i := extensionIndex ext
  let isDir := if fs.fOk path then fs.accessD path else 0
  if fs.fOk path ∧ isDir ≠ 0 then .ok i else .error (if isDir ≠ 0 then .eisdir else .enoent)

/-- The loop of `find_extension`, with the index and the extension that is put behind the path. -/
def extensionLoop (fs : Files) (path : List Char) : ℤ → ℕ → List Interpreter →
    Except Errno (ℕ × List Char)
  | isDir, _, [] => .error (if isDir ≠ 0 then .eisdir else .enoent)
  | isDir, i, e :: es =>
      if e.skipSearch then extensionLoop fs path isDir (i + 1) es
      else
        let name := path ++ e.extension
        let isDir := if fs.fOk name then fs.accessD name else isDir
        if fs.fOk name ∧ isDir ≠ 0 then .ok (i, e.extension)
        else extensionLoop fs path isDir (i + 1) es

def findExtension (fs : Files) (path : List Char) : Except Errno (ℕ × List Char) :=
  extensionLoop fs path 0 0 interpreters

/-- `rp_ext`: the last dot of the last component, and what is behind it. -/
def rpExt : Option (List Char) → List Char → Option (List Char)
  | ext, [] => ext
  | ext, c :: path => rpExt (if c = '\\' ∨ c = '/' then none else if c =
      '.' then some (c :: path) else ext) path

inductive Mode
  | wait
  | nowait
  | overlay
deriving DecidableEq

/-- The arguments of `__djgpp_spawn`; `argv0` is whether there is an `argv[0]`. -/
structure SpawnCall where
  mode : Mode
  path : Option (List Char)
  argv0 : Bool
  flags : ℕ

/-- `flags & SPAWN_EXTENSION_SRCH`, which is set if no flag is. -/
def SpawnCall.search (c : SpawnCall) : Bool := c.flags = 0 || c.flags % 2 = 1

inductive Outcome
  | run (path : List Char) (interp : Interp)
  | fail (errno : Errno)
deriving DecidableEq

/-- The search for an extension: the index of the interpreter, if one is found, and what is
behind the path in `rpath`. -/
def trySearch (fs : Files) (path : List Char) (ownExt : Option (List Char)) (search : Bool) :
    Option ℕ × List Char :=
  -- the pointer is behind the path by now
  if search ∧ (fs.useLfn [] ∨ ownExt = none) then
    match findExtension fs path with
    | .ok (i, ext) => if ownExt.isSome ∧ ext = [] then (none, []) else (some i, ext)
    | .error _ => (none, [])
  else (none, [])

def djgppSpawn (fs : Files) (c : SpawnCall) : Outcome :=
  match c.path, c.argv0 with
  | some path, true =>
      if c.mode = .nowait then .fail .enosys
      else if path.length > filenameMax - 1 then .fail .enametoolong
      else
        let ownExt := rpExt none path
        let ext := (trySearch fs path ownExt c.search).2
        let found : Except Errno ℕ := match (trySearch fs path ownExt c.search).1 with
          | some i => .ok i
          | none => findInterpreter fs (path ++ ext) (ownExt.getD ext)
        match found with
        | .error errno => .fail errno
        | .ok i =>
            if ext ≠ [] ∧ path.length + ext.length > filenameMax - 1 then .fail .enametoolong
            else .run (path ++ ext) (interpAt i)
  | _, _ => .fail .einval

def Files.runnable (fs : Files) (name : List Char) : Bool := fs.fOk name && !fs.dOk name

def Files.directory (fs : Files) (name : List Char) : Bool := fs.fOk name && fs.dOk name

def searched : List Interpreter := interpreters.filter fun e => !e.skipSearch

def interpOf (ext : List Char) : Interp := interpAt (extensionIndex ext)

/-- The file that is run and its interpreter, for an answer to the question for long names. -/
def choice (fs : Files) (path : List Char) (lfn : Bool) : Option (List Char × Interp) :=
  match rpExt none path with
  | none =>
      (searched.find? fun e => fs.runnable (path ++ e.extension)).map fun e => (path ++ e.extension,
        e.interp)
  | some ownExt =>
      if lfn then
        (searched.find? fun e => fs.runnable (path ++ e.extension)).map fun e =>
          (path ++ e.extension, if e.extension = [] then interpOf ownExt else e.interp)
      else if fs.runnable path then some (path, interpOf ownExt)
      else none

def outcome (c : Option (List Char × Interp)) (errno : Errno) : Outcome :=
  match c with
  | some (path, interp) => .run path interp
  | none => .fail errno

def failure (fs : Files) (path : List Char) : Errno := if fs.directory path then .eisdir
    else .enoent

/-- The volume of the path decides whether there are long names. -/
def prescribed (fs : Files) (path : List Char) : Outcome :=
  outcome (choice fs path (fs.useLfn path)) (failure fs path)

variable {fs : Files} {path name : List Char} {es : List Interpreter}

theorem accessD_ne_zero : fs.fOk name = true ∧ fs.accessD name ≠ 0 ↔ fs.runnable name = true := by
  rw [Files.runnable, Files.accessD]
  cases fs.fOk name <;> cases fs.dOk name <;> simp

/-- `is_dir` is the result of `access`, which is not 0 for the file that ends the loop only. -/
theorem isDir_eq_zero (h : ¬ fs.runnable name = true) :
    (if fs.fOk name then fs.accessD name else 0) = 0 := by
  rw [Files.runnable] at h
  rw [Files.accessD]
  cases hf : fs.fOk name <;> cases hd : fs.dOk name <;> simp_all

theorem findInterpreter_eq (fs : Files) (path ext : List Char) :
    findInterpreter fs path ext = if fs.runnable path then .ok (extensionIndex ext)
    else .error .enoent := by
  unfold findInterpreter
  dsimp only
  by_cases h : fs.runnable path = true
  · have hok := accessD_ne_zero.mpr h
    rw [if_pos h, if_pos hok.1, if_pos hok]
  · rw [if_neg h, isDir_eq_zero h, if_neg (fun hn => hn.2 rfl), if_neg (fun hn => hn rfl)]

/-- The first entry that makes a file. -/
def hit (fs : Files) (path : List Char) (es : List Interpreter) : Option Interpreter :=
  (es.filter fun e => !e.skipSearch).find? fun e => fs.runnable (path ++ e.extension)

theorem hit_cons (e : Interpreter) (es : List Interpreter) :
    hit fs path (e :: es) =
      if ¬ e.skipSearch ∧ fs.runnable (path ++ e.extension) then some e else hit fs path es := by
  rw [hit, hit]
  by_cases hskip : e.skipSearch = true
  · rw [List.filter_cons_of_neg (by simp [hskip]), if_neg (fun h => h.1 hskip)]
  · rw [List.filter_cons_of_pos (by simpa using hskip), List.find?_cons]
    cases hrun : fs.runnable (path ++ e.extension) with
    | true => exact (if_pos ⟨hskip, rfl⟩).symm
    | false => exact (if_neg (fun h => Bool.false_ne_true h.2)).symm

theorem extensionLoop_none (i : ℕ) (h : hit fs path es = none) :
    extensionLoop fs path 0 i es = .error .enoent := by
  induction es generalizing i with
  | nil => rfl
  | cons e es ih =>
      rw [hit_cons] at h
      split_ifs at h with hhit
      rw [extensionLoop]
      by_cases hskip : e.skipSearch = true
      · rw [if_pos hskip]
        exact ih (i + 1) h
      · have hrun : ¬ fs.runnable (path ++ e.extension) = true := fun hr => hhit ⟨hskip, hr⟩
        rw [if_neg hskip]
        dsimp only
        rw [isDir_eq_zero hrun, if_neg (fun hn => hn.2 rfl)]
        exact ih (i + 1) h

/-- The loop finds the entry, with its index. -/
theorem extensionLoop_some (i : ℕ) {e : Interpreter} (h : hit fs path es = some e) :
    ∃ j, extensionLoop fs path 0 i es = .ok (i + j, e.extension) ∧ es[j]? = some e := by
  induction es generalizing i with
  | nil => cases h
  | cons e' es ih =>
      rw [hit_cons] at h
      rw [extensionLoop]
      split_ifs at h with hhit
      · cases h
        have hok := accessD_ne_zero.mpr hhit.2
        refine ⟨0, ?_, rfl⟩
        rw [if_neg hhit.1]
        dsimp only
        rw [if_pos hok.1, if_pos hok]
        rfl
      · obtain ⟨j, hj, hget⟩ := ih (i + 1) h
        refine ⟨j + 1, ?_, hget⟩
        rw [← Nat.add_assoc, Nat.add_right_comm]
        by_cases hskip : e'.skipSearch = true
        · rw [if_pos hskip]
          exact hj
        · have hrun : ¬ fs.runnable (path ++ e'.extension) = true := fun hr => hhit ⟨hskip, hr⟩
          rw [if_neg hskip]
          dsimp only
          rw [isDir_eq_zero hrun, if_neg (fun hn => hn.2 rfl)]
          exact hj

/-- Names of files are shorter than `FILENAME_MAX`. -/
def Files.Short (fs : Files) : Prop := ∀ name, fs.fOk name = true → name.length < filenameMax

/-- A call that passes the checks at the start, with the search for extensions on. -/
structure SpawnCall.Searches (c : SpawnCall) (path : List Char) : Prop where
  path_eq : c.path = some path
  argv0 : c.argv0 = true
  mode : c.mode ≠ .nowait
  length : path.length ≤ filenameMax - 1
  search : c.search = true

theorem hit_some {e : Interpreter} (h : hit fs path es = some e) :
    e ∈ es ∧ ¬ e.skipSearch = true ∧ fs.runnable (path ++ e.extension) = true := by
  have hmem := List.mem_filter.mp (List.mem_of_find?_eq_some h)
  exact ⟨hmem.1, by simpa using hmem.2, by simpa using List.find?_some h⟩

theorem hit_none (h : hit fs path interpreters = none) : ¬ fs.runnable path = true := by
  intro hrun
  have hmem : ⟨[], .go32Exec, false⟩ ∈ interpreters.filter fun e => !e.skipSearch := by decide
  have hno := List.find?_eq_none.mp h _ hmem
  rw [List.append_nil] at hno
  exact hno hrun

def runFound (fs : Files) (path : List Char) (ownExt : Option (List Char))
    (start : Option ℕ × List Char) : Outcome :=
  let found : Except Errno ℕ := match start.1 with
    | some i => .ok i
    | none => findInterpreter fs (path ++ start.2) (ownExt.getD start.2)
  match found with
  | .error errno => .fail errno
  | .ok i =>
      if start.2 ≠ [] ∧ path.length + start.2.length > filenameMax - 1 then .fail .enametoolong
      else .run (path ++ start.2) (interpAt i)

theorem djgppSpawn_runFound {c : SpawnCall} (hc : c.Searches path) :
    djgppSpawn fs c = runFound fs path (rpExt none path)
    (trySearch fs path (rpExt none path) true) := by
  rw [djgppSpawn, hc.path_eq, hc.argv0, hc.search]
  dsimp only
  rw [if_neg hc.mode, if_neg (Nat.not_lt.mpr hc.length)]
  rfl

theorem runFound_none (ownExt : Option (List Char)) :
    runFound fs path ownExt (none, []) =
      if fs.runnable path then .run path (interpOf (ownExt.getD [])) else .fail .enoent := by
  rw [runFound]
  dsimp only
  rw [List.append_nil, findInterpreter_eq]
  by_cases hrun : fs.runnable path = true
  · rw [if_pos hrun, if_pos hrun]
    exact if_neg (fun h => h.1 rfl)
  · rw [if_neg hrun, if_neg hrun]

/-- The name of a file is not too long. -/
theorem runFound_some (hfs : fs.Short) (ownExt : Option (List Char)) {j : ℕ} {e : Interpreter}
    (hrun : fs.runnable (path ++ e.extension) = true) (hget : interpreters[j]? = some e) :
    runFound fs path ownExt (some j, e.extension) = .run (path ++ e.extension) e.interp := by
  have hshort := hfs _ (Bool.and_eq_true_iff.mp hrun).1
  have hlen : ¬ (e.extension ≠ [] ∧ path.length + e.extension.length > filenameMax - 1) := by
    rw [List.length_append] at hshort
    omega
  rw [runFound]
  dsimp only
  rw [if_neg hlen, interpAt, hget]
  rfl

theorem trySearch_eq {ownExt : Option (List Char)} (h : fs.useLfn [] = true ∨ ownExt = none) :
    trySearch fs path ownExt true =
      match findExtension fs path with
      | .ok (i, ext) => if ownExt.isSome ∧ ext = [] then (none, []) else (some i, ext)
      | .error _ => (none, []) := if_pos ⟨rfl, h⟩

/-- The function does what is prescribed for the answer about the current drive, with `ENOENT`
if there is nothing to run. -/
theorem djgppSpawn_eq {c : SpawnCall} (hc : c.Searches path) (hfs : fs.Short) :
    djgppSpawn fs c = outcome (choice fs path (fs.useLfn [])) .enoent := by
  rw [djgppSpawn_runFound hc, choice]
  cases hown : rpExt none path with
  | none =>
      rw [trySearch_eq (.inr rfl), findExtension]
      cases hhit : hit fs path interpreters with
      | none =>
          rw [extensionLoop_none 0 hhit]
          dsimp only
          rw [runFound_none, if_neg (hit_none hhit), searched, ← hit, hhit]
          rfl
      | some e =>
          obtain ⟨j, hj, hget⟩ := extensionLoop_some 0 hhit
          rw [hj]
          dsimp only
          rw [if_neg (fun h => Bool.false_ne_true h.1), Nat.zero_add,
            runFound_some hfs none (hit_some hhit).2.2 hget, searched, ← hit, hhit]
          rfl
  | some ownExt =>
      dsimp only
      by_cases hlfn : fs.useLfn [] = true
      · rw [trySearch_eq (.inl hlfn), findExtension, if_pos hlfn]
        cases hhit : hit fs path interpreters with
        | none =>
            rw [extensionLoop_none 0 hhit]
            dsimp only
            rw [runFound_none, if_neg (hit_none hhit), searched, ← hit, hhit]
            rfl
        | some e =>
            obtain ⟨j, hj, hget⟩ := extensionLoop_some 0 hhit
            have hrun := (hit_some hhit).2.2
            rw [hj, searched, ← hit, hhit]
            dsimp only
            by_cases hext : e.extension = []
            · rw [if_pos ⟨rfl, hext⟩, runFound_none]
              rw [hext, List.append_nil] at hrun
              rw [if_pos hrun, Option.map_some, if_pos hext, hext, List.append_nil]
              rfl
            · rw [if_neg (fun h => hext h.2), Nat.zero_add, runFound_some hfs _ hrun hget,
                Option.map_some,
                if_neg hext]
              rfl
      · have hno : trySearch fs path (some ownExt) true = (none, []) :=
          if_neg (fun h => h.2.elim hlfn (fun h => nomatch h))
        rw [hno, runFound_none, if_neg hlfn]
        split_ifs <;> rfl

/-- The entries of a search with an extension. -/
def named : List Interpreter := searched.dropLast

def unnamed : Interpreter := ⟨[], .go32Exec, false⟩

theorem searched_eq : searched = named ++ [unnamed] := by decide

theorem extension_ne_nil {e : Interpreter} (h : e ∈ named) : e.extension ≠ [] := by
  have hall : (named.all fun e => decide (e.extension ≠ [])) = true := rfl
  exact of_decide_eq_true (List.all_eq_true.mp hall e h)

def Files.Extended (fs : Files) (path : List Char) : Prop :=
  ∃ e ∈ searched, e.extension ≠ [] ∧ fs.runnable (path ++ e.extension) = true

/-- The path with an extension goes before the path itself. -/
theorem hit_of_extended (h : fs.Extended path) :
    ∃ e, hit fs path interpreters = some e ∧ e.extension ≠ [] := by
  obtain ⟨e, he, hne, hrun⟩ := h
  rw [searched_eq] at he
  have hnamed : e ∈ named := by
    rcases List.mem_append.mp he with h | h
    · exact h
    · rw [List.mem_singleton.mp h] at hne
      exact absurd rfl hne
  have hsome : (named.find? fun e => fs.runnable (path ++ e.extension)).isSome = true :=
    List.find?_isSome.mpr ⟨e, hnamed, hrun⟩
  obtain ⟨e', he'⟩ := Option.isSome_iff_exists.mp hsome
  refine ⟨e', ?_, extension_ne_nil (List.mem_of_find?_eq_some he')⟩
  rw [hit, ← searched, searched_eq, List.find?_append, he']
  rfl

theorem hit_of_not_extended (h : ¬ fs.Extended path) :
    hit fs path interpreters = if fs.runnable path then some unnamed else none := by
  have hnone : (named.find? fun e => fs.runnable (path ++ e.extension)) = none := by
    refine List.find?_eq_none.mpr fun e he hrun => h ⟨e, ?_, extension_ne_nil he, hrun⟩
    rw [searched_eq]
    exact List.mem_append_left _ he
  rw [hit, ← searched, searched_eq, List.find?_append, hnone, Option.none_or, List.find?_singleton]
  have hpath : path ++ unnamed.extension = path := List.append_nil path
  rw [hpath]

theorem choice_none (h : rpExt none path = none) (lfn : Bool) :
    choice fs path lfn = (hit fs path interpreters).map fun e => (path ++ e.extension,
      e.interp) := by
  rw [choice, h]
  rfl

theorem choice_lfn {ownExt : List Char} (h : rpExt none path = some ownExt) :
    choice fs path true = (hit fs path interpreters).map fun e =>
      (path ++ e.extension, if e.extension = [] then interpOf ownExt else e.interp) := by
  rw [choice, h]
  rfl

theorem choice_plain {ownExt : List Char} (h : rpExt none path = some ownExt) :
    choice fs path false = if fs.runnable path then some (path, interpOf ownExt) else none := by
  rw [choice, h]
  rfl

theorem choice_eq_iff {ownExt : List Char} (h : rpExt none path = some ownExt) :
    choice fs path true = choice fs path false ↔ ¬ fs.Extended path := by
  rw [choice_lfn h, choice_plain h]
  by_cases hext : fs.Extended path
  · obtain ⟨e, he, hne⟩ := hit_of_extended hext
    rw [he, Option.map_some, if_neg hne]
    refine iff_of_false (fun heq => ?_) (not_not.mpr hext)
    split_ifs at heq with hrun
    have hpath : path ++ e.extension = path := congrArg Prod.fst (Option.some.inj heq)
    exact hne (by simpa using hpath)
  · rw [hit_of_not_extended hext]
    refine iff_of_true ?_ hext
    split_ifs
    · rw [Option.map_some, unnamed, if_pos rfl, List.append_nil]
    · rfl

theorem outcome_eq_iff (a b : Option (List Char × Interp)) (e e' : Errno) :
    outcome a e = outcome b e' ↔ a = b ∧ (b = none → e = e') := by
  cases a <;> cases b <;> simp [outcome, Prod.ext_iff]

theorem choice_directory (hdir : fs.directory path = true) (lfn : Bool) :
    choice fs path lfn ≠ none ↔ (rpExt none path = none ∨ lfn = true) ∧ fs.Extended path := by
  have hrun : ¬ fs.runnable path = true := by
    rw [Files.directory, Bool.and_eq_true] at hdir
    rw [Files.runnable, hdir.2]
    simp
  have hhit : hit fs path interpreters ≠ none ↔ fs.Extended path := by
    by_cases hext : fs.Extended path
    · obtain ⟨e, he, -⟩ := hit_of_extended hext
      rw [he]
      exact iff_of_true (Option.some_ne_none e) hext
    · rw [hit_of_not_extended hext, if_neg hrun]
      exact iff_of_false (fun h => h rfl) hext
  cases hown : rpExt none path with
  | none =>
      rw [choice_none hown, ne_eq, Option.map_eq_none_iff, ← ne_eq, hhit]
      exact (and_iff_right (.inl rfl)).symm
  | some ownExt =>
      cases lfn with
      | true =>
          rw [choice_lfn hown, ne_eq, Option.map_eq_none_iff, ← ne_eq, hhit]
          exact (and_iff_right (.inr rfl)).symm
      | false =>
          rw [choice_plain hown, if_neg hrun]
          exact iff_of_false (fun h => h rfl) (fun h => h.1.elim (fun h => nomatch h)
            (fun h => nomatch h))

theorem choice_agrees_iff :
    choice fs path (fs.useLfn []) = choice fs path (fs.useLfn path) ↔
      fs.useLfn [] = fs.useLfn path ∨ rpExt none path = none ∨ ¬ fs.Extended path := by
  cases hown : rpExt none path with
  | none =>
      rw [choice_none hown, choice_none hown]
      exact iff_of_true rfl (.inr (.inl rfl))
  | some ownExt =>
      have hsome : ¬ some ownExt = none := fun h => nomatch h
      rw [or_iff_right hsome, ← choice_eq_iff hown]
      cases fs.useLfn [] <;> cases fs.useLfn path <;> simp [eq_comm]

/-- The file that the search for extensions on the volume of the path gives is run, or
the right error is returned, exactly if two conditions hold: the question for long names
makes no difference, and the path does not name a directory that nothing is found for. -/
theorem djgppSpawn_prescribed_iff (fs : Files) (hfs : fs.Short) (c : SpawnCall) (path : List Char)
    (hc : c.Searches path) :
    djgppSpawn fs c = prescribed fs path ↔
      (fs.useLfn [] = fs.useLfn path ∨ rpExt none path = none ∨ ¬ fs.Extended path) ∧
        (fs.directory path = true →
          (rpExt none path = none ∨ fs.useLfn path = true) ∧ fs.Extended path) := by
  rw [djgppSpawn_eq hc hfs, prescribed, outcome_eq_iff, choice_agrees_iff]
  refine and_congr_right fun _ => ?_
  rw [failure]
  by_cases hdir : fs.directory path = true
  · rw [if_pos hdir, ← choice_directory hdir]
    exact ⟨fun h _ hnone => absurd (h hnone) (by decide), fun h hnone => absurd hnone (h hdir)⟩
  · rw [if_neg hdir]
    exact iff_of_true (fun _ => rfl) (fun h => absurd h hdir)

/-- One drive without long names, with the file `p.com`. -/
def comFiles : Files := ⟨(· = ['p', '.', 'c', 'o', 'm']), fun _ => false, fun _ => false⟩

def plainCall (path : List Char) : SpawnCall := ⟨.wait, some path, true, 0⟩

theorem djgppSpawn_prescribed_com :
    (plainCall ['p']).Searches ['p'] ∧ djgppSpawn comFiles (plainCall ['p']) =
    prescribed comFiles ['p'] := by
  have hc : (plainCall ['p']).Searches ['p'] := ⟨rfl, rfl, by decide, by decide, rfl⟩
  have hfs : comFiles.Short := by
    intro name h
    rw [of_decide_eq_true h]
    decide
  exact ⟨hc, (djgppSpawn_prescribed_iff comFiles hfs _ _ hc).mpr
    ⟨.inl rfl, fun h => absurd h (by decide)⟩⟩

/-- A directory `d`. -/
def dirFiles : Files := ⟨(· = ['d']), (· = ['d']), fun _ => false⟩

/-- The error is `ENOENT`. -/
theorem djgppSpawn_directory :
    dirFiles.Short ∧ (plainCall ['d']).Searches ['d'] ∧
      djgppSpawn dirFiles (plainCall ['d']) ≠ prescribed dirFiles ['d'] := by
  refine ⟨?_, ⟨rfl, rfl, by decide, by decide, rfl⟩, by decide⟩
  intro name h
  rw [of_decide_eq_true h]
  decide

end DjgppLibc.DosExec
