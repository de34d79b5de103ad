import Mathlib.Data.BitVec

/-!
# Reading a tar stream in `djtar` (`untar.c`)

`tarread` gets the stream in buffers. Between calls most of its state is in static
variables; `batch_file_processing` is a local variable, and a call begins with 0 in it.

What happens to files is a list of events. What the rest of the program, the user and the
system answer may depend on everything that happened before. Sizes for which the code
computes behind the largest `long` have no result. The log is left out.
-/
namespace DjgppLibc.Djtar

abbrev Byte := BitVec 8

abbrev Name := List Byte

structure Options where
  sSwitch : Bool
  ignoreCsum : Bool
  toStdout : Bool
  toTty : Bool
  textDos : Bool
  textUnix : Bool

inductive FileType
  | dosBinary
  | dosText
  | unixText
deriving DecidableEq

inductive Errno
  | ENOSPC
  | other
deriving DecidableEq

inductive Event
  /-- `make_directory` -/
  | directory (name : Name)
  /-- a new file is open -/
  | opened (name : Name)
  /-- the file cannot be opened, and there is no other name for it -/
  | refused (name : Name)
  /-- `setmode (r, O_TEXT)` -/
  | textMode
  | wrote (bytes : List Byte)
  | failed (errno : Errno)
  /-- the file is closed, and the time and the mode of the file with this name are set -/
  | finish (name : Name) (ftime mode : BitVec 32)
deriving DecidableEq

/-- What is answered after some events. -/
structure Env where
  /-- `get_new_name`: the name, and whether the member should be written -/
  newName : List Event → Name → Name × Bool
  /-- the attempts at `open_file`: the last name, and whether it is open -/
  openFile : List Event → Name → Name × Bool
  /-- the error, if not all is written -/
  write : List Event → List Byte → Option Errno

def field (header : List Byte) (offset size : ℕ) : List Byte := (header.drop offset).take size

/-- A string up to NUL. -/
def cstr (l : List Byte) : List Byte := l.takeWhile (· ≠ 0)

/-- `IS_USTAR_HEADER` -/
def isUstarHeader (header : List Byte) : Bool := field header 257 6 =
    [0x75, 0x73, 0x74, 0x61, 0x72, 0]

def typeflag (header : List Byte) : Byte := (header.drop 156).headD 0

/-- `IS_PAX_HEADER`, for the types `g` and `x` -/
def isPaxHeader (header : List Byte) : Bool :=
  (typeflag header = 0x67 || typeflag header = 0x78) && isUstarHeader header

def isLink (header : List Byte) : Bool := typeflag header = 0x31 || typeflag header = 0x32

def isDirtype (header : List Byte) : Bool := typeflag header = 0x35

/-- `basename` -/
def basename (fname : Name) : Name :=
  let fname := match fname with
    | _ :: 0x3a :: rest => rest
    | _ => fname
  (fname.reverse.takeWhile fun c => c ≠ 0x2f && c ≠ 0x5c).reverse

def lower (c : Byte) : Byte := if 0x41 ≤ c.toNat ∧ c.toNat ≤ 0x5a then c + 0x20 else c

/-- The extension is `.bat`. -/
def isBatch (header : List Byte) : Bool :=
  let base := basename (cstr header)
  base.contains 0x2e && ((base.reverse.takeWhile (· ≠ 0x2e)).reverse.map lower = [0x62, 0x61, 0x74])

def isspace (c : Byte) : Bool := c = 0x20 || 9 ≤ c.toNat && c.toNat ≤ 13

def isOctal (c : Byte) : Bool := 0x30 ≤ c.toNat && c.toNat ≤ 0x37

/-- `sscanf (text, " %lo", &old)` -/
def scanOctal (old : BitVec 32) (text : List Byte) : BitVec 32 :=
  let text := text.dropWhile isspace
  let negative := text.head? = some 0x2d
  let text := if text.head? = some 0x2d ∨ text.head? = some 0x2b then text.tail else text
  let digits := text.takeWhile isOctal
  let value := digits.foldl (fun v c => v * 8 + (c.setWidth 32 - 0x30)) (0 : BitVec 32)
  if digits = [] then old else if negative then -value else value

/-- The sum of the bytes, with blanks for the sum in the header. -/
def headerSum (header : List Byte) : ℕ :=
  ((header.take 148).map BitVec.toNat).sum + 8 * 0x20 + ((header.drop 156).map BitVec.toNat).sum

def checksumOk (header : List Byte) : Bool := scanOctal 0 (header.drop 148) =
    BitVec.ofNat 32 (headerSum header)

/-- The name, with the whole field for the prefix in front of it. -/
def memberName (header : List Byte) : Name :=
  cstr (if (header.drop 345).headD 0 ≠ 0 && isUstarHeader header then
    field header 345 155 ++ 0x2f :: field header 0 100
  else field header 0 100)

structure Tar where
  lookingForHeader : Bool
  skipping : ℕ
  size : ℕ
  mode : BitVec 32
  ftime : BitVec 32
  changedName : Name
  firstBlock : Bool
  fileType : FileType
  /-- `batch_file_processing` -/
  batch : Bool
  events : List Event

def Tar.emit (st : Tar) (l : List Event) : Tar := { st with events := st.events ++ l }

/-- The bytes of all the blocks for a size. -/
def roundUp (size : ℕ) : ℕ := (size + 511) / 512 * 512

def maxSize : ℕ := 2 ^ 31 - 512

inductive HeaderEnd
  | undefined
  | eof (st : Tar)
  /-- `continue` -/
  | next (st : Tar)
  /-- `continue`, if there is another header in the buffer -/
  | empty (st : Tar)
  /-- The data follows. -/
  | data (st : Tar)

/-- A member with a name for it, behind the listing. -/
def openMember (env : Env) (opts : Options) (st : Tar) (header : List Byte) (written : Bool) :
    HeaderEnd :=
  if !written then
    let skipping := roundUp st.size
    if maxSize < st.size then .undefined
    else if skipping = 0 then .empty { st with skipping := 0, lookingForHeader := true }
    else .next { st with skipping := skipping }
  else if (st.changedName.getLast? = some 0x2f || isDirtype header) && !opts.toStdout then
    let name := if st.changedName.getLast? = some 0x2f then st.changedName.dropLast
      else st.changedName
    .next ({ st with changedName := name, lookingForHeader := true }.emit [.directory name])
  else if maxSize < st.size then .undefined
  else if !opts.toStdout then
    let (name, ok) := env.openFile st.events st.changedName
    if ok then .data ({ st with changedName := name }.emit [.opened name])
    else .next ({ st with changedName := name, skipping := roundUp st.size }.emit [.refused name])
  else .data st

def readHeader (env : Env) (opts : Options) (st : Tar) (header : List Byte) : HeaderEnd :=
  let size := scanOctal (BitVec.ofNat 32 st.size) (header.drop 124)
  let mode := scanOctal st.mode (header.drop 100)
  let ftime := scanOctal st.ftime (header.drop 136)
  if isPaxHeader header && opts.sSwitch then
    if maxSize < size.toNat then .undefined
    else .next { st with mode := mode, size := size.toNat, ftime := ftime,
                         skipping := roundUp size.toNat }
  else if header.headD 0 = 0 then .eof st
  else
    let st := { st with
      firstBlock := true, fileType := .dosBinary, lookingForHeader := false
      batch := st.batch || isBatch header, mode := mode, size := size.toNat, ftime := ftime }
    if !checksumOk header && !opts.ignoreCsum then .eof { st with lookingForHeader := true }
    else
      let (name, written) := env.newName st.events (memberName header)
      let size := if isLink header then 0 else st.size
      openMember env opts { st with size := size, changedName := name } header written

/-- LF becomes CRLF, but not at the start of a block. -/
def toBatch : List Byte → List Byte
  | [] => []
  | [c] => [c]
  | prev :: c :: l => prev :: (if c = 0x0a ∧ prev ≠ 0x0d then 0x0d :: toBatch (c :: l)
      else toBatch (c :: l))

/-- The loop of `guess_file_type`, with whether CRLF has been seen. -/
def guessLoop : Bool → List Byte → FileType
  | crlf, [] => if crlf then .dosText else .unixText
  | crlf, c :: l =>
      if c.toNat < 0x20 ∧ ¬ (c.toNat > 7 ∧ c.toNat ≤ 0x0a) ∧ c ≠ 0x0c ∧ c ≠ 0x0d ∧
      c ≠ 0x1a then .dosBinary
      else guessLoop (crlf || (c = 0x0d && l.head? = some 0x0a)) l

/-- `guess_file_type` -/
def guessFileType (l : List Byte) : FileType := guessLoop false l

def prepare (opts : Options) (st : Tar) (block : List Byte) : Tar × List Byte :=
  if st.batch && !opts.toTty then (st, toBatch block)
  else
    let st := if st.firstBlock && (opts.textDos || opts.textUnix || opts.toTty) then
        let fileType := guessFileType block
        { st with fileType := fileType, firstBlock := false }.emit
          (if fileType = FileType.unixText && opts.textDos then [.textMode] else [])
      else st
    if (opts.textUnix || opts.toTty) && st.fileType = .dosText then
      (st, block.filter fun c => c ≠ 0x0d && c ≠ 0x1a)
    else (st, block)

inductive DataEnd
  /-- The buffer is exhausted. -/
  | exhausted (st : Tar)
  /-- The rest of the buffer, `dsize`, and `write_errno`. -/
  | ended (st : Tar) (buf : List Byte) (dsize : ℕ) (errno : Option Errno)

/-- The loop `while (size)`; the first argument is at least the size. -/
def dataLoop (env : Env) (opts : Options) : ℕ → Tar → List Byte → ℕ → DataEnd
  | 0, st, buf, dsize => .ended st buf dsize none
  | fuel + 1, st, buf, dsize =>
      if st.size = 0 then .ended st buf dsize none
      else if buf = [] then .exhausted st
      else
        let dsize := if st.size < 512 then st.size else min buf.length 512
        let (st, wbuf) := prepare opts st (buf.take dsize)
        match env.write st.events wbuf with
        | some errno => .ended (st.emit [.failed errno]) buf dsize (some errno)
        | none =>
            dataLoop env opts fuel ({ st with size := st.size - dsize }.emit [.wrote wbuf])
              (buf.drop dsize) dsize

def finishFile (opts : Options) (st : Tar) (dsize : ℕ) (errno : Option Errno) : Tar :=
  let st := st.emit (if opts.toStdout then [] else [.finish st.changedName st.ftime st.mode])
  { st with
    batch := false, lookingForHeader := true
    skipping := match errno with
      | none => 512 - dsize
      | some .ENOSPC => st.skipping
      | some .other => roundUp (st.size - dsize) }

inductive Outcome
  | undefined
  | ret (eof : Bool) (st : Tar)
  | cont (st : Tar) (buf : List Byte)

def dataPart (env : Env) (opts : Options) (st : Tar) (buf : List Byte) : Outcome :=
  match dataLoop env opts st.size st buf 512 with
  | .exhausted st => .ret false st
  | .ended st buf dsize errno =>
      if errno = some .ENOSPC then .ret true (finishFile opts st dsize errno)
      else .cont (finishFile opts st dsize errno) buf

def afterHeader (env : Env) (opts : Options) (rest : List Byte) : HeaderEnd → Outcome
  | .undefined => .undefined
  | .eof st => .ret true st
  | .next st => .cont st rest
  | .empty st => if rest.length < 512 then .ret false st else .cont st rest
  | .data st => dataPart env opts st rest

/-- The body of the loop `while (buf_size)`. -/
def iteration (env : Env) (opts : Options) (st : Tar) (buf : List Byte) : Outcome :=
  if buf.length < st.skipping then .ret false { st with skipping := st.skipping - buf.length }
  else
    let skipped : Bool := st.skipping ≠ 0
    let buf := buf.drop st.skipping
    let st := if skipped then { st with skipping := 0, lookingForHeader := true } else st
    if skipped ∧ buf.length < 512 then .ret false st
    else if st.lookingForHeader then afterHeader env opts (buf.drop 512)
      (readHeader env opts st (buf.take 512))
    else dataPart env opts st buf

/-- The loop, which takes at most two turns for a byte. -/
def loop (env : Env) (opts : Options) : ℕ → Tar → List Byte → Option (Bool × Tar)
  | _, st, [] => some (false, st)
  | 0, _, _ :: _ => none
  | fuel + 1, st, c :: buf =>
      match iteration env opts st (c :: buf) with
      | .undefined => none
      | .ret eof st => some (eof, st)
      | .cont st buf => loop env opts fuel st buf

/-- `tarread`: whether it returned EOF, and the state. -/
def tarread (env : Env) (opts : Options) (st : Tar) (buf : List Byte) : Option (Bool × Tar) :=
  loop env opts (2 * buf.length + 1) { st with batch := false } buf

def feed (env : Env) (opts : Options) : Tar → List (List Byte) → Option Tar
  | st, [] => some st
  | st, buf :: bufs =>
      match tarread env opts st buf with
      | none => none
      | some (true, st) => some st
      | some (false, st) => feed env opts st bufs

end DjgppLibc.Djtar
