import DjgppLibc.FdProps

/-!
# Extensions of the file system (`fsext.c`) and `/dev/zero` (`fse_zero.c`)

A descriptor of an extension is a handle of DOS with an entry in a table: the function of
the extension and its data. The data of `/dev/zero` and `/dev/full` is a context that
counts its descriptors. What DOS and `malloc` answer is part of a call; a handle or an
address that is in use is no answer.
-/
namespace DjgppLibc.Fsext

inductive Errno
  | EEXIST
  | EBADF
  | ENOMEM
  /-- `__doserr_to_errno` of what DOS returned -/
  | dos
deriving DecidableEq

/-- `__FSEXT_entry`; the function is `dev_fsext` or none. -/
structure Entry where
  function : Bool
  data : Option ℕ
deriving DecidableEq

def Entry.empty : Entry := ⟨false, none⟩

/-- `DEV_DATA` -/
structure DevData where
  flags : BitVec 32
  devFull : Bool
  dupCount : ℤ
deriving DecidableEq

/-- `emulated` collects `*rv` of the calls for which `dev_fsext` returned 1, and has no
value for one that has not set it. -/
structure Ext where
  numFds : ℕ
  fsextList : ℕ → Entry
  heap : ℕ → Option DevData
  handles : ℕ → Bool
  nullDevFd : Option ℕ
  errno : Option Errno
  devZeroInstalled : Bool
  devFullInstalled : Bool
  emulated : List (Option ℤ)

/-- What DOS, `malloc` and `realloc` answer during a call. -/
structure Answers where
  /-- the handle of NUL -/
  nul : Option ℕ
  /-- its duplicate -/
  dup : Option ℕ
  malloc : Option ℕ
  /-- the table can grow for the function -/
  growFunction : Bool
  /-- the table can grow for the data -/
  growData : Bool

/-- `grow_table`; no value if there is no memory. -/
def growTable (st : Ext) (fd : ℕ) (ok : Bool) : Option Ext :=
  if st.numFds ≤ fd then
    let numFds := (fd + 256) / 256 * 256
    if ok then
      some { st with
        numFds := numFds
        fsextList := fun i => if st.numFds ≤ i ∧ i < numFds then .empty else st.fsextList i }
    else none
  else some st

/-- `__FSEXT_set_function`, whose result nobody looks at. -/
def setFunction (st : Ext) (fd : ℕ) (function : Bool) (ok : Bool) : Ext :=
  match growTable st fd ok with
  | none => st
  | some st =>
      { st with fsextList := Function.update st.fsextList fd { st.fsextList fd with function := function } }

def getFunction (st : Ext) (fd : ℕ) : Bool := fd < st.numFds && (st.fsextList fd).function

/-- `__FSEXT_set_data` -/
def setData (st : Ext) (fd : ℕ) (data : Option ℕ) (ok : Bool) : Option Ext :=
  (growTable st fd ok).map fun st =>
    { st with fsextList := Function.update st.fsextList fd { st.fsextList fd with data := data } }

def getData (st : Ext) (fd : ℕ) : Option ℕ := if fd < st.numFds then (st.fsextList fd).data
    else none

def freshHandle (st : Ext) (answer : Option ℕ) : Option ℕ := answer.filter fun fd => !st.handles fd

/-- An address from `malloc` is not allocated. -/
def freshAddress (st : Ext) (answer : Option ℕ) : Option ℕ :=
    answer.filter fun a => (st.heap a).isNone

def openHandle (st : Ext) (fd : ℕ) : Ext := { st with handles := Function.update st.handles fd true }

def openNul (st : Ext) (ans : Answers) : Ext :=
  match st.nullDevFd, freshHandle st ans.nul with
  | none, some fd => { openHandle st fd with nullDevFd := some fd }
  | _, _ => st

def dosDup (st : Ext) (ans : Answers) : Option ℕ :=
  match st.nullDevFd with
  | some nul => if st.handles nul then freshHandle st ans.dup else none
  | none => none

/-- `__FSEXT_alloc_fd` -/
def allocFd (st : Ext) (ans : Answers) : Option ℕ × Ext :=
  let st := openNul st ans
  match dosDup st ans with
  | none => (none, { st with errno := some .dos })
  | some fd => (some fd, setFunction (openHandle st fd) fd true ans.growFunction)

def dosClose (st : Ext) (fd : ℕ) : Option ℤ × Ext :=
  if st.handles fd then (some 0, { st with handles := Function.update st.handles fd false })
  else (some (-1), { st with errno := some .EBADF })

/-- A descriptor of the context goes, and the context with the last one. -/
def release (st : Ext) (a : ℕ) : Ext :=
  match st.heap a with
  | none => st
  | some d =>
      { st with
        heap := Function.update st.heap a
          (if d.dupCount - 1 ≤ 0 then none else some { d with dupCount := d.dupCount - 1 }) }

/-- `_close`, which calls `dev_fsext` for a descriptor of the extension, and this calls
`_close` again. The number bounds the depth; two is enough. -/
def close : ℕ → Ext → ℕ → Option ℤ × Ext
  | 0, st, _ => (none, st)
  | depth + 1, st, fd =>
      if getFunction st fd then
        -- `__FSEXT_close` in `dev_fsext`; the table is not grown, as it has the entry
        let (rv, st) := match getData st fd with
          | none => (some (-1), { st with errno := some .EBADF })
          | some a =>
              let st := (setData st fd none true).getD st
              let st := release (setFunction st fd false true) a
              (none, (close depth st fd).2)
        (rv, setFunction { st with emulated := st.emulated ++ [rv] } fd false true)
      else dosClose st fd

def devZeroPath : List Char := "/dev/zero".toList

def devFullPath : List Char := "/dev/full".toList

/-- `match_dev_path` -/
def matchDevPath (filename devPath : List Char) : Bool :=
  match filename with
  | _ :: ':' :: rest => FdProps.sameName rest devPath
  | _ => FdProps.sameName filename devPath

def isOurs (st : Ext) (filename : List Char) : Bool :=
  (matchDevPath filename devZeroPath || matchDevPath filename devFullPath) &&
    !(matchDevPath filename devZeroPath && !st.devZeroInstalled) &&
    !(matchDevPath filename devFullPath && !st.devFullInstalled)

def O_CREAT : BitVec 32 := 0x100

def O_NOINHERIT : BitVec 32 := 0x80

def O_ACCMODE : BitVec 32 := 0x3

def O_NONBLOCK : BitVec 32 := 0x2000

/-- `__FSEXT_open` in `dev_fsext`, for a name of one of the devices. -/
def devOpen (st : Ext) (filename : List Char) (openMode : BitVec 32) (ans : Answers) : ℤ × Ext :=
  if openMode &&& O_CREAT ≠ 0 then (-1, { st with errno := some .EEXIST })
  else
    match allocFd st ans with
    | (none, st) => (-1, st)
    | (some fd, st) =>
        match freshAddress st ans.malloc with
        | none => (-1, { st with errno := some .ENOMEM })
        | some a =>
            let data : DevData :=
              { flags := (openMode ||| O_NOINHERIT) &&& (O_ACCMODE ||| O_NOINHERIT ||| O_NONBLOCK)
                devFull := matchDevPath filename devFullPath
                dupCount := 1 }
            let st := { st with heap := Function.update st.heap a (some data) }
            match setData st fd (some a) ans.growData with
            | none => (-1, { st with errno := some .ENOMEM })
            | some st => (fd, st)

/-- `internal_dup` -/
def internalDup (st : Ext) (fd : ℕ) (ans : Answers) : ℤ × Ext :=
  match allocFd st ans with
  | (none, st) => (-1, st)
  | (some newFd, st) =>
      match getData st fd with
      | none => (-1, (close 2 { st with errno := some .EBADF } newFd).2)
      | some a =>
          match setData st newFd (some a) ans.growData with
          | none => (-1, (close 2 { st with errno := some .ENOMEM } newFd).2)
          | some st =>
              (newFd, { st with
                heap := Function.update st.heap a
                  ((st.heap a).map fun d => { d with dupCount := d.dupCount + 1 }) })

/-- `__FSEXT_fcntl` with `F_DUPFD` in `dev_fsext` -/
def devDup (st : Ext) (fd : ℕ) (ans : Answers) : ℤ × Ext :=
  match getData st fd with
  | none => (-1, { st with errno := some .EBADF })
  | some _ => internalDup st fd ans

inductive Op
  | open (filename : List Char) (openMode : BitVec 32) (ans : Answers)
  | dup (fd : ℕ) (ans : Answers)
  | close (fd : ℕ)

def emulate (r : ℤ × Ext) : Option ℤ × Ext := (some r.1,
      { r.2 with emulated := r.2.emulated ++ [some r.1] })

/-- The value that a call returns, if it has one, and the state. An `open` or a `dup` that
is not for the extension does nothing here. -/
def step (st : Ext) : Op → Option ℤ × Ext
  | .open filename openMode ans =>
      if isOurs st filename then emulate (devOpen st filename openMode ans) else (none, st)
  | .dup fd ans =>
      if !st.handles fd then (some (-1), { st with errno := some .EBADF })
      else if getFunction st fd then emulate (devDup st fd ans)
      else (none, st)
  | .close fd => close 2 st fd

def run (st : Ext) (ops : List Op) : Ext := ops.foldl (fun st op => (step st op).2) st

/-- Before the first call: no table, no context, and the handles of the program. -/
def start (handles : ℕ → Bool) (devZeroInstalled devFullInstalled : Bool) : Ext :=
  ⟨0, fun _ => .empty, fun _ => none, handles, none, none, devZeroInstalled, devFullInstalled, []⟩

end DjgppLibc.Fsext
