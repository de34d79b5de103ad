import DjgppLibc.Fixpath
import DjgppLibc.FnmatchEscape

/-!
# The search of `glob` (`posix/glob/glob.c`)

`glob2` copies a pattern up to its first segment with a wildcard to one buffer, and asks
DOS for the names there; `glob_dirs` goes through all directories below a place for the
segment `...`. Both call each other with the place in the buffer behind the last slash,
and each call puts its own texts there. A store outside of the buffer ends the run.

Directories, what the allocations give, and what the buffer holds at first are parameters.
Each call of one of the two functions takes a unit of fuel; `enough` is always enough.
-/
namespace DjgppLibc.GlobSearch

open CStrings Fnmatch

def PATHBUF_LEN : ℕ := 2000

/-- What `findfirst` and `findnext` fill in: the name, and `FA_DIREC` of the attributes. -/
structure Entry where
  name : CString
  isDir : Bool

/-- `FA_DIREC`, and `FA_RDONLY|FA_SYSTEM|FA_DIREC|FA_ARCH` -/
def directories : ℕ := 16

def allFiles : ℕ := 53

def dot : UInt8 := '.'.toUInt8

def slashByte : UInt8 := '/'.toUInt8

def dots : List UInt8 := [dot, dot, dot]

/-- The mask `*.*` -/
def anyName : List UInt8 := ['*'.toUInt8, dot, '*'.toUInt8]

/-- `msdos_tolower_fname` -/
def msdosTolowerFname (c : UInt8) : UInt8 := if 'A'.toUInt8 ≤ c ∧ c ≤ 'Z'.toUInt8 then c + 32 else c

/-- `_is_DOS83` -/
def isDOS83 (fname : List UInt8) : Bool := Fixpath.isDOS83 (fname.map fun c => Char.ofNat c.toNat)

/-- The loop that lowers a name stops behind 13 characters. -/
def lowered (lower : Bool) (name : List UInt8) : List UInt8 :=
  if lower ∧ isDOS83 name then (name.take 13).map msdosTolowerFname ++ name.drop 13 else name

structure Tree where
  /-- All that `findfirst` and `findnext` find for a path, with the attributes that are allowed. -/
  find : ℕ → List UInt8 → List Entry
  /-- `__file_exists` -/
  fileExists : List UInt8 → Bool
  /-- Both kinds of slashes are the same to DOS. -/
  find_forward : ∀ attrib path, find attrib (forward path) = find attrib path
  exists_forward : ∀ path, fileExists (forward path) = fileExists path
  /-- What is found exists, in lower case too. -/
  found : ∀ attrib path lower, ∀ e ∈ find attrib (path ++ anyName),
    fileExists (path ++ lowered lower e.name.bytes) = true

/-- What does not change during a call of `glob`. -/
structure Setting where
  tree : Tree
  locale : CStrings.Locale
  mark : Bool
  useLfn : Bool
  preserveCase : Bool
  /-- What `_ff` holds where `findfirst` fails. -/
  junkIsDir : Bool
  /-- What `fnmatch` reads behind the end of a pattern. -/
  beyond : UInt8

structure State where
  /-- `path_buffer` -/
  buf : ℕ → UInt8
  slash : UInt8
  wildcardNesting : ℕ
  saveList : List (List UInt8)
  /-- Whether the next allocations succeed. -/
  malloc : ℕ → Bool

inductive Stop
  | nospace
  /-- A store outside of `path_buffer`. -/
  | outside
  | fuel
deriving DecidableEq

abbrev Result (α : Type) := Except Stop α

/-- `pathbuf` is the second byte of `path_buffer`. -/
def pathbuf : ℕ := 1

def pathbufEnd : ℕ := PATHBUF_LEN

def State.store (s : State) (i : ℕ) (c : UInt8) : Result State :=
  if i < PATHBUF_LEN + 1 then .ok { s with buf := Function.update s.buf i c } else .error .outside

def State.storeAll (s : State) (i : ℕ) : List UInt8 → Result State
  | [] => .ok s
  | c :: text => do
      let s ← s.store i c
      s.storeAll (i + 1) text

def State.strcpy (s : State) (i : ℕ) (text : List UInt8) :
    Result State := s.storeAll i (text ++ [0])

/-- `strncpy`, which fills up with NULs. -/
def State.strncpy (s : State) (i : ℕ) (text : List UInt8) (n : ℕ) : Result State :=
  s.storeAll i (text.take n ++ List.replicate (n - text.length) 0)

/-- The string at `pathbuf`. -/
def State.text (s : State) : List UInt8 :=
  ((List.range PATHBUF_LEN).map fun i => s.buf (pathbuf + i)).takeWhile (· ≠ 0)

/-- `stricmp` finds no difference, in the C locale. -/
def sameName (a b : List UInt8) : Bool := a.map msdosTolowerFname = b.map msdosTolowerFname

/-- `add`, for the string at `pathbuf`. -/
def add (s : State) : Result State :=
  if s.saveList.any (sameName · s.text) then .ok s
  else if s.malloc 0 ∧ s.malloc 1 then
    .ok { s with saveList := s.text :: s.saveList, malloc := fun n => s.malloc (n + 2) }
  else .error .nospace

def isSeparator (c : UInt8) : Bool := c = ':'.toUInt8 || isslash c

def isWildcard (c : UInt8) : Bool := c = '*'.toUInt8 || c = '?'.toUInt8 || c = '['.toUInt8

def isUpper (c : UInt8) : Bool := 'A'.toUInt8 ≤ c && c ≤ 'Z'.toUInt8

/-- The segment `...` is next. -/
def dotsFollow (p : List UInt8) : Bool :=
  p = dots || p.take 3 = dots && (p.drop 3).head?.any isslash

/-- How names are matched and spelled: `lower` and `caseless`. -/
structure Spelling where
  lower : Bool
  caseless : Bool
deriving DecidableEq

/-- `preserve_case ? 0 : 1` -/
def Setting.spelling (o : Setting) : Spelling := ⟨!o.preserveCase, !o.preserveCase⟩

def Setting.note (o : Setting) (sp : Spelling) (c : UInt8) : Spelling :=
  if !o.preserveCase ∧ isUpper c then ⟨false, sp.caseless && !o.useLfn⟩ else sp

structure Cursor where
  pp : List UInt8
  bp : ℕ
  spelling : Spelling

def copyLiteral (o : Setting) (pattern : List UInt8) (epathbuf : ℕ) :
    List UInt8 → ℕ → ℕ → Spelling → State → Result (State × Cursor)
  | [], bp, _, sp, s => .ok (s, ⟨[], bp, sp⟩)
  | c :: pp, bp, pslash, sp, s =>
      if pathbufEnd ≤ bp then .ok (s, ⟨c :: pp, bp, sp⟩)
      else if isSeparator c then
        if dotsFollow pp then do
          let s ← { s with slash := if c ≠ ':'.toUInt8 then c else s.slash : State }.store bp c
          .ok (s, ⟨pp, bp + 1, o.spelling⟩)
        else do
          let s ← s.store bp c
          copyLiteral o pattern epathbuf pp (bp + 1) bp o.spelling s
      else if isWildcard c then do
        let s ← (if pathbuf < pslash then s.strncpy epathbuf pattern (pslash - pathbuf) else .ok s)
        .ok (s, ⟨pattern.drop (pslash + 1 - epathbuf), pslash + 1, sp⟩)
      else do
        let s ← s.store bp c
        copyLiteral o pattern epathbuf pp (bp + 1) pslash (o.note sp c) s

def isDotOrDotdot (name : List UInt8) : Bool := name = [dot] || name = [dot, dot]

/-- `_ff.ff_attrib & FA_DIREC` -/
def isDirectory (o : Setting) (path : List UInt8) : Bool :=
  ((o.tree.find allFiles path).head?.map Entry.isDir).getD o.junkIsDir

def endOfPattern (o : Setting) (s : State) : Result State :=
  if o.tree.fileExists s.text then do
    let s ← (if o.mark ∧ isDirectory o s.text then do
        let i := pathbuf + s.text.length
        let s ← s.store i slashByte
        s.store (i + 1) 0
      else .ok s)
    add s
  else .ok s

/-- The directory in front of a wildcard, which is only looked for in a nested call. -/
def checkInitial (o : Setting) (bp : ℕ) (s : State) : Result (State × Bool) :=
  if s.wildcardNesting ≠ 0 then do
    let c := s.buf (bp - 1)
    let s ← s.store (bp - 1) 0
    if ¬ o.tree.fileExists s.text then .ok (s, false)
    else do
      let s ← s.store (bp - 1) c
      .ok (s, true)
  else .ok (s, true)

/-- What `glob2` does with a name; `rest` is the pattern behind the segment, with its slash. -/
def matchEntry (o : Setting) (next : List UInt8 → ℕ → State → Result State)
    (segment rest : List UInt8) (sp : Spelling) (bp : ℕ) (s : State) (ff : Entry) : Result State :=
  if ff.isDir ∧ isDotOrDotdot ff.name.bytes then .ok s
  else
    let name := lowered sp.lower ff.name.bytes
    if fnmatch o.locale o.beyond ⟨true, true, sp.caseless⟩ segment name = 0 then do
      let s ← s.strcpy bp name
      match rest with
      | c :: rest => do
          let tp := bp + name.length
          let s ← s.store tp c
          let s ← s.store (tp + 1) 0
          let s ← next rest (tp + 1) { s with wildcardNesting := s.wildcardNesting + 1 }
          .ok { s with wildcardNesting := s.wildcardNesting - 1 }
      | [] => do
          let s ← (if ff.isDir ∧ o.mark then do
              let s ← s.store (bp + name.length + 1) 0
              s.store (bp + name.length) s.slash
            else .ok s)
          add s
    else .ok s

/-- What `glob2` does from the first segment with a wildcard on. -/
def globSegment (o : Setting) (dirs next : List UInt8 → ℕ → State → Result State) (c : Cursor)
    (s : State) : Result State :=
  let myPattern := c.pp.takeWhile (!isslash ·)
  let rest := c.pp.dropWhile (!isslash ·)
  let sp := myPattern.foldl o.note c.spelling
  let s := { s with slash := rest.headD s.slash }
  if myPattern = dots then dirs (rest.drop 1) c.bp s
  else do
    let s ← s.strcpy c.bp anyName
    (o.tree.find allFiles s.text).foldlM (matchEntry o next myPattern rest sp c.bp) s

/-- What `glob_dirs` does with a directory. -/
def enterDirectory (o : Setting) (next below : ℕ → State → Result State) (isEnd : Bool)
    (epathbuf : ℕ) (s : State) (ff : Entry) : Result State :=
  if ff.isDir ∧ ¬ isDotOrDotdot ff.name.bytes then do
    let name := lowered o.spelling.lower ff.name.bytes
    let s ← s.strcpy epathbuf name
    let tp := epathbuf + name.length
    let s ← s.store tp s.slash
    let s ← s.store (tp + 1) 0
    let s := { s with wildcardNesting := s.wildcardNesting + 1 }
    let s ← (if ¬ isEnd then next (tp + 1) s
      else do
        let s ← (if ¬ o.mark then s.store tp 0 else .ok s)
        let s ← add s
        s.store tp s.slash)
    let s ← s.store (tp + 1) 0
    let s ← below (tp + 1) s
    .ok { s with wildcardNesting := s.wildcardNesting - 1 }
  else .ok s

/-- `...` also stands for the directory itself. -/
def addItself (o : Setting) (epathbuf : ℕ) (s : State) : Result State := do
  let sl := s.buf (epathbuf - 1)
  let s ← s.store epathbuf 0
  let s ← (if epathbuf = pathbuf then do
      let s ← s.store epathbuf dot
      s.store (epathbuf + 1) 0
    else s.store (epathbuf - 1) 0)
  let s ← (if o.tree.fileExists s.text then add s else .ok s)
  s.store (epathbuf - 1) sl

mutual

def glob2 (o : Setting) : ℕ → List UInt8 → ℕ → Spelling → State → Result State
  | 0, _, _, _, _ => .error .fuel
  | fuel + 1, pattern, epathbuf, sp, s =>
      if pattern = dots then globDirs o fuel (pattern.drop 3) epathbuf true s
      else if pattern.take 3 = dots ∧ (pattern.drop 3).head?.any isslash then
        globDirs o fuel (pattern.drop 4) epathbuf true
          { s with slash := (pattern.drop 3).headD s.slash }
      else do
        let s ← s.store epathbuf 0
        let (s, c) ← copyLiteral o pattern epathbuf pattern epathbuf (epathbuf - 1) sp s
        let s ← s.store c.bp 0
        -- A pattern this big won't match any file.
        if pathbufEnd ≤ c.bp ∧ c.pp ≠ [] then .ok s
        else if c.pp = [] then endOfPattern o s
        else do
          let (s, found) ← checkInitial o c.bp s
          if !found then .ok s
          else
            globSegment o (fun rest bp => globDirs o fuel rest bp true)
              (fun rest tp => glob2 o fuel rest tp o.spelling) c s

def globDirs (o : Setting) : ℕ → List UInt8 → ℕ → Bool → State → Result State
  | 0, _, _, _, _ => .error .fuel
  | fuel + 1, rest, epathbuf, first, s => do
      let s ← (if first then
          if rest ≠ [] then glob2 o fuel rest epathbuf o.spelling s else addItself o epathbuf s
        else .ok s)
      let s ← s.strcpy epathbuf anyName
      (o.tree.find directories s.text).foldlM
        (enterDirectory o (fun tp => glob2 o fuel rest tp o.spelling)
          (fun tp => globDirs o fuel rest tp false) rest.isEmpty epathbuf) s

end

def enough (pattern : List UInt8) : ℕ := 2 * (PATHBUF_LEN + 2 + pattern.length)

/-- The call of `glob2` in `glob`. -/
def search (o : Setting) (pattern : CString) (buf : ℕ → UInt8) (malloc : ℕ → Bool) : Result State :=
  glob2 o (enough pattern.bytes) pattern.bytes pathbuf o.spelling ⟨buf, slashByte, 0, [], malloc⟩

end DjgppLibc.GlobSearch
