import DjgppLibc.PathNames

/-!
# Canonical paths (`posix/sys/stat/fixpath.c`)

`__canonicalize_path` copies a path into the caller's buffer name by name, behind
the drive and, for a relative path, behind the current directory of the drive. A
`..` moves the end of the copy back to the last slash. A second pass over the copy
turns backslashes around and puts names in lower case that DOS has in upper case
only, unless the case of names is preserved.

The buffer is what stands at each offset from `out`, with the number of bytes from
its start on that have been stored to. Characters have one byte, as `mblen` has it.
What DOS answers is a parameter, and so is what the first half of `_put_path2`
makes of a path that starts with `/dev/`.
-/
namespace DjgppLibc.Fixpath

open PathNames

def nul : Char := '\x00'

def FILENAME_MAX : ℕ := 260

structure Dos where
  useLfn : Bool
  preserveCase : Bool
  /-- Function 19h: the current drive. -/
  currentDrive : ℕ
  /-- Functions 7147h and 47h: the current directory of a drive, or `none` for a
  failure. The first is not always there. -/
  lfnDirectory : Option (ℕ → Option (List Char))
  sfnDirectory : ℕ → Option (List Char)
  /-- `_os_trueversion == 0x532` -/
  winNT : Bool
  /-- Function 7160h with `.` on a drive. -/
  longPathName : ℕ → Option (List Char)
  devPath : List Char → List Char
  tbSize : ℕ
  /-- What the transfer buffer holds behind the path. -/
  behind : List Char
  /-- The stub keeps at least its own 2 KB. -/
  tb_room : FILENAME_MAX < tbSize

def isDevPath : List Char → Bool
  | c :: 'd' :: 'e' :: 'v' :: d :: _ => (c = '/' || c = '\\') && (d = '/' || d = '\\')
  | _ => false

/-- What `_put_path2` looks at: the path behind a drive. -/
def skipDrive : List Char → List Char
  | _ :: ':' :: path => path
  | path => path

def collapse : ℕ → List Char → List Char
  | _, [] => []
  | space, c :: path =>
      if c ≠ '/' ∨ path.head? ≠ some '/' then
        c :: if space - 1 < 2 then [] else collapse (space - 1) path
      else collapse space path

def trimSlash (path : List Char) : List Char :=
  if 2 ≤ path.length ∧ path[path.length - 1]? = some '/' ∧ path[path.length - 2]? ≠ some ':' then
    path.dropLast
  else path

/-- The path that `_put_path` puts into the transfer buffer. -/
def putPath (dos : Dos) (path : List Char) : List Char :=
  trimSlash (collapse dos.tbSize (if isDevPath (skipDrive path) then dos.devPath path else path))

structure Out where
  mem : ℕ → Char
  written : ℕ

def Out.store (out : Out) (i : ℕ) (c : Char) : Out :=
  ⟨Function.update out.mem i c, max out.written (i + 1)⟩

def Out.storeAll (out : Out) (i : ℕ) : List Char → Out
  | [] => out
  | c :: s => (out.store i c).storeAll (i + 1) s

/-- `strcpy` -/
def Out.strcpy (out : Out) (i : ℕ) (s : List Char) : Out := out.storeAll i (s ++ [nul])

def isSlash (c : Char) : Bool := c = '/' || c = '\\'

def isTerm (c : Char) : Bool := c = '/' || c = '\\' || c = nul

def driveLetter (drive : ℕ) : Char := Char.ofNat ('a'.toNat + drive)

/-- The answer of DOS, and whether it came from the function for long names. -/
def askDirectory (dos : Dos) (drive : ℕ) : Option (List Char) × Bool :=
  match dos.useLfn, dos.lfnDirectory with
  | true, some lfn => (lfn drive, true)
  | _, _ => (dos.sfnDirectory drive, false)

/-- `IS_DRIVE_SPECIFIER` and `IS_ROOT_DIR` -/
def isDriveSpecifier (drive : ℕ) (path : List Char) : Bool :=
  (path[0]? = some (Char.ofNat ('A'.toNat + drive)) || path[0]? = some (driveLetter drive)) &&
    path[1]? = some ':'

def isRootDir (path : List Char) : Bool := path.drop 2 = ['\\']

def getCurrentDirectory (dos : Dos) (drive : ℕ) (out : Out) (op : ℕ) : Out × ℕ :=
  let (answer, lfn) := askDirectory dos drive
  match answer with
  | none => (out.store op '.', op + 1)
  | some dir =>
      let out := out.strcpy (op + 1) dir
      if dir ≠ [] then (out.store op '/', op + 1 + dir.length)
      else if ¬ dos.winNT ∨ ¬ lfn then (out, op)
      else
        -- The root may stand for a directory whose short name is too long.
        match dos.longPathName drive with
        | some path =>
            if isDriveSpecifier drive path then
              if isRootDir path then (out, op)
              else (out.strcpy op (path.drop 2), op + (path.drop 2).length)
            else (out.store op '.', op + 1)
        | none => (out.store op '.', op + 1)

inductive Stop
  | enametoolong
  /-- A read behind `in1` or before `out`. -/
  | outside
deriving DecidableEq

abbrev Result (α : Type) := Except (Stop × Out) α

/-- The buffer when the function returns. -/
def bufferOf : Result Out → Out
  | .ok out => out
  | .error (_, out) => out

/-- `while (!is_slash(*--op));` -/
def backUp (mem : ℕ → Char) : ℕ → Option ℕ
  | 0 => none
  | op + 1 => if isSlash (mem op) then some op else backUp mem op

def copyName (limit : ℕ) (out : Out) (op : ℕ) : List Char → Result (Out × ℕ × List Char)
  | [] => .error (.outside, out)
  | c :: ip =>
      if isTerm c then .ok (out, op, c :: ip)
      else if limit ≤ op + 1 then .error (.enametoolong, out.store op c)
      else copyName limit (out.store op c) (op + 1) ip

theorem copyName_length_le {limit op op' : ℕ} {out out' : Out} {ip ip' : List Char}
    (h : copyName limit out op ip = .ok (out', op', ip')) : ip'.length ≤ ip.length := by
  induction ip generalizing out op with
  | nil => cases h
  | cons c ip ih =>
      unfold copyName at h
      split_ifs at h with hterm hlimit
      · cases h
        exact Nat.le_refl _
      · exact Nat.le_succ_of_le (ih h)

theorem copyName_length_lt {limit op op' : ℕ} {out out' : Out} {c : Char} {ip ip' : List Char}
    (hnul : c ≠ nul) (hslash : ¬ isSlash c = true)
    (h : copyName limit out op (c :: ip) = .ok (out', op', ip')) :
    ip'.length < (c :: ip).length := by
  have hterm : ¬ isTerm c = true := by
    simp only [isSlash, isTerm, Bool.or_eq_true, decide_eq_true_eq] at hslash ⊢
    simp [hslash, hnul]
  unfold copyName at h
  rw [if_neg hterm] at h
  split_ifs at h with hlimit
  exact Nat.lt_succ_of_le (copyName_length_le h)

def startsTerm (ip : List Char) : Bool := ip.head?.any isTerm

def walk (limit : ℕ) (out : Out) (op : ℕ) : List Char → Result (Out × ℕ)
  | [] => .error (.outside, out)
  | c :: ip =>
      if c = nul then .ok (out, op)
      else if isSlash c then walk limit out op ip
      else if c = '.' ∧ (ip = [] ∨ ip = ['.']) then .error (.outside, out)
      else if c = '.' ∧ startsTerm ip then walk limit out op ip
      else if c = '.' ∧ ip.head? = some '.' ∧ startsTerm ip.tail then
        -- A relative path is not resolved.
        if out.mem 2 = '.' ∧ out.mem (op - 1) = '.' then
          walk limit (out.storeAll op ['/', '.', '.']) (op + 3) ip.tail
        else if op > 2 then
          match backUp out.mem op with
          | none => .error (.outside, out)
          | some op' => walk limit out op' ip.tail
        else walk limit out op ip.tail
      else if limit ≤ op then .error (.enametoolong, out)
      else
        match _h : copyName limit (out.store op '/') (op + 1) (c :: ip) with
        | .error e => .error e
        | .ok (out', op', ip') => walk limit out' op' ip'
termination_by ip => ip.length
decreasing_by
  all_goals first
    | exact copyName_length_lt ‹_› ‹_› ‹_›
    | simp only [List.length_tail, List.length_cons]; omega

/-- The loop of `_is_DOS83`, with the number of characters read. -/
def isDOS83Loop (s e : ℕ) (periodSeen : Bool) : List Char → Bool
  | [] => true
  | c :: fname =>
      if c = '.' then
        if periodSeen then false else isDOS83Loop (s + 1) (s + 1 + 3) true fname
      else if s + 1 > e then false
      else if 'a' ≤ c ∧ c ≤ 'z' then false
      else if c = '+' ∨ c = ',' ∨ c = ';' ∨ c = ' ' ∨ c = '=' ∨ c = '[' ∨ c = ']' then false
      else isDOS83Loop (s + 1) e periodSeen fname

def isDOS83 (fname : List Char) : Bool :=
  if fname.head? = some '.' then fname = ['.'] || fname = ['.', '.']
  else isDOS83Loop 0 8 false fname

def lowerName (out : Out) (i : ℕ) : ℕ → Out
  | 0 => out
  | n + 1 =>
      lowerName (if 'A' ≤ out.mem i ∧ out.mem i ≤ 'Z' then out.store i (out.mem i).toLower else out)
        (i + 1) n

def Out.slice (out : Out) (i j : ℕ) : List Char := (List.range (j - i)).map fun k => out.mem (i + k)

/-- The loop that switches `FOO\BAR` to `foo/bar`. -/
def switchLoop (preserveCase : Bool) : ℕ → Out → ℕ → ℕ → Out
  | 0, out, _, _ => out
  | fuel + 1, out, nameStart, op =>
      if out.mem nameStart = nul then out
      else
        let out := if out.mem op = '\\' then out.store op '/' else out
        if !preserveCase ∧ (out.mem op = '/' ∨ out.mem op = nul) then
          if isDOS83 (out.slice (nameStart + 1) op) then
            switchLoop preserveCase fuel (lowerName out (nameStart + 1) (op - nameStart - 1)) op
              (op + 1)
          else switchLoop preserveCase fuel out op (op + 1)
        else if out.mem op = nul then out
        else switchLoop preserveCase fuel out nameStart (op + 1)

def driveOf (dos : Dos) : List Char → ℕ × Char × List Char
  | c :: ':' :: ip =>
      if 'a' ≤ c ∧ c ≤ 'z' then (c.toNat - 'a'.toNat, c, ip)
      else if 'A' ≤ c ∧ c ≤ 'Z' then (c.toNat - 'A'.toNat, driveLetter (c.toNat - 'A'.toNat), ip)
      else currentDrive (c :: ':' :: ip)
  | ip => currentDrive ip
where
  currentDrive (ip : List Char) : ℕ × Char × List Char :=
    (dos.currentDrive, Char.ofNat (dos.currentDrive +
      if dos.currentDrive < 26 then 'a'.toNat else 'A'.toNat), ip)

def isRelative (ip : List Char) : Bool := !ip.head?.any isSlash

def finish (preserveCase : Bool) (limit : ℕ) (out : Out) (op : ℕ) : Result Out :=
  -- The root directory has a trailing slash.
  let (out, op) := if op = 2 then (out.store 2 '/', 3) else (out, op)
  if limit ≤ op then .error (.enametoolong, out)
  else .ok (switchLoop preserveCase (limit + 1) (out.store op nul) 2 3)

/-- `__canonicalize_path` -/
def canonicalizePath (dos : Dos) (path : List Char) (out : ℕ → Char) (pathMax : ℕ) :
    Result Out := do
  let limit := min pathMax FILENAME_MAX
  let in1 := (putPath dos path ++ nul :: dos.behind).take FILENAME_MAX
  let (drive, letter, ip) := driveOf dos in1
  let start := ((⟨out, 0⟩ : Out).store 0 letter).store 1 ':'
  let (out₁, op₁) := if isRelative ip then getCurrentDirectory dos drive start 2 else (start, 2)
  let (out₂, op₂) ← walk limit out₁ op₁ ip
  finish dos.preserveCase limit out₂ op₂

end DjgppLibc.Fixpath
