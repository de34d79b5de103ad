import Mathlib.Data.List.TakeWhile
import DjgppLibc.DosExecSearch

/-!
# Programs on PATH (`dos/process/dosexec.c`)

`__dosexec_find_on_path` puts one name after another into the buffer of the caller and
asks for each whether it is a file: the program with each extension, then the same in
the current directory and in each directory of PATH. Only the program's own length is
checked.
-/
namespace DjgppLibc.DosExec

open LoggedMemory

structure Lookup where
  buf : LoggedMemory Char
  tried : List (List Char)

abbrev Found := Lookup × Option (List Char)

def Found.orElse (r : Found) (next : Lookup → Found) : Found :=
  match r.2 with
  | some _ => r
  | none => next r.1

/-- `access (buf, 0) == 0 && access (buf, D_OK)` -/
def tryName (fs : Files) (name : List Char) (l : Lookup) : Found :=
  (⟨l.buf, l.tried ++ [name]⟩, if fs.runnable name then some name else none)

/-- `strcpy (rp, interpreters[i].extension)` for one extension after another. -/
def tryExtensions (fs : Files) (skip : Bool) (base : List Char) : List Interpreter → Lookup → Found
  | [], l => (l, none)
  | e :: es, l =>
      if skip && e.skipSearch then tryExtensions fs skip base es l
      else
        (tryName fs (base ++ e.extension) ⟨putText l.buf base.length (e.extension ++ ['\x00']),
          l.tried⟩).orElse
          (tryExtensions fs skip base es)

/-- A name with the extensions, unless it has one already, and without. -/
def tryBase (fs : Files) (skip hasDot : Bool) (base : List Char) (l : Lookup) : Found :=
  Found.orElse (if !hasDot || fs.useLfn base then tryExtensions fs skip base interpreters l
    else (l, none))
    (tryName fs base)

def isSeparator (c : Char) : Bool := c = '/' || c = '\\' || c = ':'

def hasDot (program : List Char) : Bool :=
  program.foldl (fun dot c => if isSeparator c then false else if c = '.' then true else dot) false

def hasPath (program : List Char) : Bool := program.any isSeparator

def inDirectory (dir program : List Char) : List Char :=
  match dir.getLast? with
  | none => program
  | some c => if isSeparator c then dir ++ program else dir ++ '/' :: program

def tryDirectory (fs : Files) (program dir : List Char) (l : Lookup) : Found :=
  let base := inDirectory dir program
  tryBase fs false (hasDot program) base ⟨putText l.buf 0 (base ++ ['\x00']), l.tried⟩

/-- The loop over the directories of PATH, from `pp` on. -/
def pathLoop (fs : Files) (program pp : List Char) (l : Lookup) : Found :=
  (tryDirectory fs program (pp.takeWhile (· ≠ ';')) l).orElse fun l =>
    match _h : pp.dropWhile (· ≠ ';') with
    | [] => (l, none)
    | _ :: pp' => pathLoop fs program pp' l
termination_by pp.length
decreasing_by
  have := (List.dropWhile_suffix (l := pp) (· ≠ ';')).length_le
  rw [_h, List.length_cons] at this
  omega

def pathIn (envp : List (List Char)) : Option (List Char) :=
  let name := ['P', 'A', 'T', 'H', '=']
  (envp.filter name.isPrefixOf).getLast?.map (List.drop 5)

/-- The first directory is the current one, which has no name; if PATH is empty, it is the only one. -/
def findOnPathValue (fs : Files) (program value : List Char) (l : Lookup) : Found :=
  (tryDirectory fs program [] l).orElse fun l => if value = [] then (l, none)
    else pathLoop fs program value l

/-- `__dosexec_find_on_path`; `envp` may be a null pointer. -/
def findOnPath (fs : Files) (program : List Char) (envp : Option (List (List Char)))
    (junk : ℤ → Char) : Found :=
  let l : Lookup := ⟨⟨junk, []⟩, []⟩
  if program.length > filenameMax - 1 then (l, none)
  else
    (tryBase fs true (hasDot program) program ⟨putText l.buf 0 (program ++ ['\x00']),
      l.tried⟩).orElse fun l =>
      if hasPath program then (l, none)
      else
        match envp with
        | none => (l, none)
        | some envp =>
            match pathIn envp with
            | none => (⟨l.buf.poke program.length '\x00', l.tried⟩, none)
            | some value =>
                findOnPathValue fs program value ⟨l.buf.poke program.length '\x00', l.tried⟩

def namesOf (fs : Files) (skip hasDot : Bool) (base : List Char) : List (List Char) :=
  (if !hasDot || fs.useLfn base then
    (interpreters.filter fun e => !(skip && e.skipSearch)).map fun e => base ++ e.extension
  else []) ++ [base]

def directories (value : List Char) : List (List Char) :=
  [] :: if value = [] then [] else value.splitOn ';'

def candidates (fs : Files) (program : List Char) (envp : Option (List (List Char))) :
    List (List Char) :=
  namesOf fs true (hasDot program) program ++
    if hasPath program then []
    else
      match envp.bind pathIn with
      | none => []
      | some value =>
          (directories value).flatMap fun dir => namesOf fs false (hasDot program)
            (inDirectory dir program)

def upTo {α : Type} (p : α → Bool) : List α → List α
  | [] => []
  | x :: xs => if p x then [x] else x :: upTo p xs

/-- The names are asked for in their order, up to the first that is a file, which is the result;
and all stores are inside the buffer. -/
structure Found.Sound (r : Found) (fs : Files) (names : List (List Char)) : Prop where
  tried : r.1.tried = upTo fs.runnable names
  found : r.2 = names.find? fs.runnable
  inside : r.1.buf.Inside 0 filenameMax

variable {fs : Files} {l : Lookup} {r : Found} {names names' : List (List Char)} {base : List Char}

theorem upTo_append (p : List Char → Bool) (xs ys : List (List Char)) :
    upTo p (xs ++ ys) = if (xs.find? p).isSome then upTo p xs else upTo p xs ++ upTo p ys := by
  induction xs with
  | nil => rfl
  | cons x xs ih =>
      rw [List.cons_append, upTo, upTo, List.find?_cons, ih]
      cases hx : p x with
      | true => rfl
      | false =>
          cases (xs.find? p).isSome <;> rfl

/-- Names are asked for, and what is stored is inside the buffer if these names are short enough. -/
structure Tries (fs : Files) (l : Lookup) (names : List (List Char)) (r : Found) : Prop where
  tried : r.1.tried = l.tried ++ upTo fs.runnable names
  found : r.2 = names.find? fs.runnable
  stores : l.buf.stores ⊆ r.1.buf.stores
  inside : l.buf.Inside 0 filenameMax →
    (r.1.buf.Inside 0 filenameMax ↔ ∀ n ∈ upTo fs.runnable names, n.length < filenameMax)

theorem Tries.before (h : Tries fs l names r) (hin : r.1.buf.Inside 0 filenameMax) :
    l.buf.Inside 0 filenameMax := fun x hx => hin x (h.stores hx)

theorem Tries.nil (fs : Files) (l : Lookup) : Tries fs l [] (l, none) where
  tried := (List.append_nil _).symm
  found := rfl
  stores := List.Subset.refl _
  inside h := iff_of_true h fun _ hn => absurd hn List.not_mem_nil

theorem Tries.orElse {next : Lookup → Found} (h : Tries fs l names r)
    (hnext : r.2 = none → Tries fs r.1 names' (next r.1)) :
    Tries fs l (names ++ names') (r.orElse next) := by
  cases hr : r.2 with
  | some name =>
      have hstop : r.orElse next = r := by rw [Found.orElse, hr]
      have hup : upTo fs.runnable (names ++ names') = upTo fs.runnable names := by
        rw [upTo_append, ← h.found, hr]
        rfl
      rw [hstop]
      refine ⟨?_, ?_, h.stores, ?_⟩
      · rw [hup]
        exact h.tried
      · rw [List.find?_append, ← h.found, hr]
        rfl
      · rw [hup]
        exact h.inside
  | none =>
      have hgo : r.orElse next = next r.1 := by rw [Found.orElse, hr]
      have h' := hnext hr
      have hup : upTo fs.runnable (names ++ names') =
          upTo fs.runnable names ++ upTo fs.runnable names' := by
        rw [upTo_append, ← h.found, hr]
        rfl
      rw [hgo]
      refine ⟨?_, ?_, fun x hx => h'.stores (h.stores hx), fun hin => ?_⟩
      · rw [h'.tried, h.tried, hup, List.append_assoc]
      · rw [h'.found, List.find?_append, ← h.found, hr]
        rfl
      · rw [hup, List.forall_mem_append, ← h.inside hin]
        constructor
        · intro hall
          exact ⟨h'.before hall, (h'.inside (h'.before hall)).mp hall⟩
        · rintro ⟨hfirst, hrest⟩
          exact (h'.inside hfirst).mpr hrest

/-- A name that is in the buffer. -/
theorem tries_name (name : List Char) (hlen : l.buf.Inside 0 filenameMax →
      name.length < filenameMax) :
    Tries fs l [name] (tryName fs name l) := by
  have hup : upTo fs.runnable [name] = [name] := by
    rw [upTo]
    split_ifs <;> rfl
  refine ⟨?_, ?_, List.Subset.refl _, fun hin => ?_⟩
  · rw [hup]
    rfl
  · rw [tryName, List.find?_singleton]
  · rw [hup, List.forall_mem_singleton]
    exact iff_of_true hin (hlen hin)

theorem inside_putText (v : LoggedMemory Char) (a : ℕ) (s : List Char)
    (hin : v.Inside 0 filenameMax) :
    (putText v a (s ++ ['\x00'])).Inside 0 filenameMax ↔ a + s.length < filenameMax := by
  rw [(fills_putText v a (s ++ ['\x00'])).inside_iff hin (by simp), List.length_append,
    List.length_singleton]
  omega

theorem stores_putText (v : LoggedMemory Char) (a : ℤ) (s : List Char) :
    v.stores ⊆ (putText v a s).stores :=
  fun x hx => ((fills_putText v a s).stores x).mpr (.inl hx)

theorem tries_extension (fs : Files) (base ext : List Char) (l : Lookup) :
    Tries fs l [base ++ ext] (tryName fs (base ++ ext) ⟨putText l.buf base.length (ext ++ ['\x00']),
      l.tried⟩) := by
  have hup : upTo fs.runnable [base ++ ext] = [base ++ ext] := by
    rw [upTo]
    split_ifs <;> rfl
  refine ⟨?_, ?_, stores_putText _ _ _, fun hin => ?_⟩
  · rw [hup]
    rfl
  · rw [tryName, List.find?_singleton]
  · rw [hup, List.forall_mem_singleton, List.length_append]
    exact inside_putText l.buf base.length ext hin

theorem tries_extensions (fs : Files) (skip : Bool) (base : List Char) (es : List Interpreter)
    (l : Lookup) :
    Tries fs l ((es.filter fun e => !(skip && e.skipSearch)).map fun e => base ++ e.extension)
      (tryExtensions fs skip base es l) := by
  induction es generalizing l with
  | nil => exact .nil fs l
  | cons e es ih =>
      rw [tryExtensions]
      by_cases hskip : (skip && e.skipSearch) = true
      · rw [if_pos hskip, List.filter_cons_of_neg (by simp [hskip])]
        exact ih l
      · rw [if_neg hskip, List.filter_cons_of_pos
          (by rw [Bool.not_eq_true] at hskip; rw [hskip]; rfl),
          List.map_cons]
        exact (tries_extension fs base e.extension l).orElse fun _ => ih _

theorem tries_base (fs : Files) (skip hasDot : Bool) (base : List Char)
    (hlen : l.buf.Inside 0 filenameMax → base.length < filenameMax) :
    Tries fs l (namesOf fs skip hasDot base) (tryBase fs skip hasDot base l) := by
  have hfirst : Tries fs l
      (if !hasDot || fs.useLfn base then
        (interpreters.filter fun e => !(skip && e.skipSearch)).map fun e => base ++ e.extension
      else [])
      (if !hasDot || fs.useLfn base then tryExtensions fs skip base interpreters l
        else (l, none)) := by
    split_ifs
    · exact tries_extensions fs skip base interpreters l
    · exact .nil fs l
  exact hfirst.orElse fun _ => tries_name base fun hin => hlen (hfirst.before hin)

theorem length_le_first (fs : Files) (skip hasDot : Bool) (base : List Char) :
    ∃ n ∈ upTo fs.runnable (namesOf fs skip hasDot base), base.length ≤ n.length := by
  have hfirst : ∀ (ext : List Char) (ns : List (List Char)),
      ∃ n ∈ upTo fs.runnable ((base ++ ext) :: ns), base.length ≤ n.length := by
    intro ext ns
    refine ⟨base ++ ext, ?_, by rw [List.length_append]; omega⟩
    rw [upTo]
    split_ifs
    · exact List.mem_singleton_self _
    · exact List.mem_cons_self
  rw [namesOf]
  split_ifs
  · cases skip with
    | true => exact hfirst ['.', 'c', 'o', 'm'] _
    | false => exact hfirst ['.', 'c', 'o', 'm'] _
  · have h := hfirst [] []
    rwa [List.append_nil] at h

theorem tries_put_base (fs : Files) (skip hasDot : Bool) (base : List Char) (l : Lookup) :
    Tries fs l (namesOf fs skip hasDot base)
      (tryBase fs skip hasDot base ⟨putText l.buf 0 (base ++ ['\x00']), l.tried⟩) := by
  have hput : l.buf.Inside 0 filenameMax →
      ((putText l.buf 0 (base ++ ['\x00'])).Inside 0 filenameMax ↔ base.length < filenameMax) := by
    intro hin
    have h := inside_putText l.buf 0 base hin
    rwa [Nat.zero_add] at h
  have hmono : (putText l.buf 0 (base ++ ['\x00'])).Inside 0 filenameMax →
    l.buf.Inside 0 filenameMax :=
    fun h x hx => h x (stores_putText _ _ _ hx)
  have h := tries_base (l := ⟨putText l.buf 0 (base ++ ['\x00']), l.tried⟩) fs skip hasDot base
    fun hin => (hput (hmono hin)).mp hin
  refine ⟨h.tried, h.found, fun x hx => h.stores (stores_putText _ _ _ hx), fun hin => ?_⟩
  by_cases hlen : base.length < filenameMax
  · exact h.inside ((hput hin).mpr hlen)
  · obtain ⟨n, hn, hle⟩ := length_le_first fs skip hasDot base
    refine iff_of_false (fun hall => hlen ((hput hin).mp (h.before hall))) fun hall => ?_
    have := hall n hn
    omega

theorem tries_directory (fs : Files) (program dir : List Char) (l : Lookup) :
    Tries fs l (namesOf fs false (hasDot program) (inDirectory dir program))
    (tryDirectory fs program dir l) :=
  tries_put_base fs false (hasDot program) (inDirectory dir program) l

theorem splitOn_nil {pp : List Char} (h : pp.dropWhile (· ≠ ';') = []) :
    pp.splitOn ';' = [pp.takeWhile (· ≠ ';')] := by
  have hno := List.dropWhile_eq_nil_iff.mp h
  rw [List.takeWhile_eq_self_iff.mpr hno, List.splitOn_eq_splitOnP]
  exact List.splitOnP_eq_singleton fun x hx => by simpa using hno x hx

theorem splitOn_cons {pp pp' : List Char} {c : Char} (h : pp.dropWhile (· ≠ ';') = c :: pp') :
    pp.splitOn ';' = pp.takeWhile (· ≠ ';') :: pp'.splitOn ';' := by
  have hc : c = ';' := by
    have := List.head?_dropWhile_not (· ≠ ';') pp
    rw [h] at this
    simpa using this
  have hsplit : pp = pp.takeWhile (· ≠ ';') ++ ';' :: pp' := by
    have happend := (List.takeWhile_append_dropWhile (p := fun x => decide (x ≠ ';'))
      (l := pp)).symm
    rwa [h, hc] at happend
  have hno : ∀ x ∈ pp.takeWhile (· ≠ ';'), (x == ';') = false := by
    intro x hx
    simpa using List.mem_takeWhile_imp hx
  rw [List.splitOn_eq_splitOnP, List.splitOn_eq_splitOnP]
  conv_lhs => rw [hsplit]
  rw [List.splitOnP_append_cons_of_forall_mem hno _ (beq_self_eq_true ';')]

theorem tries_pathLoop (fs : Files) (program pp : List Char) (l : Lookup) :
    Tries fs l ((pp.splitOn ';').flatMap fun dir => namesOf fs false (hasDot program)
      (inDirectory dir program))
      (pathLoop fs program pp l) := by
  induction hn : pp.length using Nat.strong_induction_on generalizing pp l with
  | _ n ih =>
    rw [pathLoop]
    have hdir := tries_directory fs program (pp.takeWhile (· ≠ ';')) l
    cases h : pp.dropWhile (· ≠ ';') with
    | nil =>
        rw [splitOn_nil h, List.flatMap_singleton, ← List.append_nil (namesOf _ _ _ _)]
        exact hdir.orElse fun _ => by
          split
          · exact .nil fs _
          · rename_i heq
            cases heq
    | cons c pp' =>
        rw [splitOn_cons h, List.flatMap_cons]
        exact hdir.orElse fun _ => by
          split
          · rename_i heq
            cases heq
          · rename_i heq
            cases heq
            refine ih pp'.length ?_ pp' _ rfl
            have := (List.dropWhile_suffix (l := pp) (· ≠ ';')).length_le
            rw [h, List.length_cons] at this
            omega

theorem tries_value (fs : Files) (program value : List Char) (l : Lookup) :
    Tries fs l ((directories value).flatMap fun dir => namesOf fs false (hasDot program)
      (inDirectory dir program))
      (findOnPathValue fs program value l) := by
  rw [directories, List.flatMap_cons]
  refine (tries_directory fs program [] l).orElse fun _ => ?_
  split_ifs
  · exact .nil fs _
  · exact tries_pathLoop fs program value _

theorem Tries.poke {program : List Char} (hlen : program.length ≤ filenameMax - 1)
    (h : Tries fs ⟨l.buf.poke program.length '\x00', l.tried⟩ names r) : Tries fs l names r := by
  refine ⟨h.tried, h.found, fun x hx => h.stores (List.mem_cons_of_mem _ hx),
    fun hin => h.inside ?_⟩
  intro x hx
  rcases List.mem_cons.mp hx with rfl | hx
  · rw [filenameMax] at hlen ⊢
    omega
  · exact hin x hx

theorem tries_findOnPath (fs : Files) (program : List Char) (envp : Option (List (List Char)))
    (junk : ℤ → Char)
    (hlen : program.length ≤ filenameMax - 1) :
    Tries fs ⟨⟨junk, []⟩, []⟩ (candidates fs program envp) (findOnPath fs program envp junk) := by
  rw [findOnPath]
  dsimp only
  rw [if_neg (Nat.not_lt.mpr hlen), candidates]
  refine (tries_put_base fs true (hasDot program) program ⟨⟨junk, []⟩, []⟩).orElse fun _ => ?_
  by_cases hpath : hasPath program = true
  · rw [if_pos hpath, if_pos hpath]
    exact .nil fs _
  · rw [if_neg hpath, if_neg hpath]
    cases envp with
    | none => exact .nil fs _
    | some envp =>
        rw [Option.bind_some]
        dsimp only
        cases pathIn envp with
        | none => exact .poke hlen (.nil fs _)
        | some value => exact .poke hlen (tries_value fs program value _)

/-- The names are asked for in the order of the directories and stored inside the buffer, exactly if
each of them, up to the first that is a file, is shorter than the buffer. -/
theorem findOnPath_sound_iff (fs : Files) (program : List Char) (envp : Option (List (List Char)))
    (junk : ℤ → Char) (hlen : program.length ≤ filenameMax - 1) :
    (findOnPath fs program envp junk).Sound fs (candidates fs program envp) ↔
      ∀ n ∈ upTo fs.runnable (candidates fs program envp), n.length < filenameMax := by
  have h := tries_findOnPath fs program envp junk hlen
  rw [← h.inside fun x hx => absurd hx List.not_mem_nil]
  exact ⟨fun hs => hs.inside, fun hin => ⟨h.tried, h.found, hin⟩⟩

/-- No files at all. -/
def noSuchFiles : Files := ⟨fun _ => false, fun _ => false, fun _ => false⟩

theorem findOnPath_sound_short :
    ['g', 'o'].length ≤ filenameMax - 1 ∧
      (findOnPath noSuchFiles ['g', 'o'] none fun _ => 'z').Sound noSuchFiles
        (candidates noSuchFiles ['g', 'o'] none) :=
  ⟨by decide, (findOnPath_sound_iff noSuchFiles ['g', 'o'] none (fun _ => 'z')
    (by decide)).mpr (by decide)⟩

def longProgram : List Char := List.replicate 259 'x'

theorem findOnPath_not_sound :
    longProgram.length ≤ filenameMax - 1 ∧
      ¬ (findOnPath noSuchFiles longProgram none fun _ => 'z').Sound noSuchFiles
        (candidates noSuchFiles longProgram none) := by
  refine ⟨by decide +kernel, fun h => ?_⟩
  have hin := ((tries_findOnPath noSuchFiles longProgram none (fun _ => 'z')
    (by decide +kernel)).inside
    fun x hx => absurd hx List.not_mem_nil).mp h.inside
  exact absurd hin (by decide +kernel)

end DjgppLibc.DosExec
