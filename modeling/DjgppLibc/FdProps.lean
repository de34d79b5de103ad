import DjgppLibc.LinkedLists
import DjgppLibc.Runs
import Mathlib.Order.Interval.Finset.Nat

/-!
# Properties of file descriptors (`dos/io/fd_props.c`)

An object is named by its address, and 0 is the null pointer. The address that
`malloc` gives for a new object is part of the call that needs one, and
`_truename` is a parameter. The names of the files that are removed are recorded.
-/
namespace DjgppLibc.FdProps

/-- `struct fd_properties`, with the two flags that are used here. -/
structure FdProperties where
  refCount : ℕ
  filename : Option (List Char)
  temporary : Bool
  append : Bool
  prev : ℕ
  next : ℕ
deriving DecidableEq

abbrev Objects := ℕ → FdProperties

def modify (m : Objects) (a : ℕ) (g : FdProperties → FdProperties) : Objects :=
  Function.update m a (g (m a))

def nfds : ℕ := 255

structure Fds where
  ready : Bool
  table : ℕ → ℕ
  activeFds : ℕ
  cachedFds : ℕ
  objects : Objects
  allocated : List ℕ
  removed : List (List Char)

def Fds.start (m : Objects) : Fds := ⟨false, fun _ => 0, 0, 0, m, [], []⟩

inductive Stop
  | noTable
  | nullName
  | endless
deriving DecidableEq

def insertList (head item : ℕ) (m : Objects) : ℕ × Objects :=
  let m := modify m item fun o => { o with next := head, prev := 0 }
  (item, if head ≠ 0 then modify m head fun o => { o with prev := item } else m)

/-- `remove_list`. The second test reads the `prev` that the first one has cleared, and the
last one the `next` that the second one has cleared. -/
def removeList (head item : ℕ) (m : Objects) : ℕ × Objects :=
  let m :=
    if (m item).prev ≠ 0 then
      modify (modify m (m item).prev fun o => { o with next := (m item).next }) item
        fun o => { o with prev := 0 }
    else m
  let m :=
    if (m item).next ≠ 0 then
      modify (modify m (m item).next fun o => { o with prev := (m item).prev }) item
        fun o => { o with next := 0 }
    else m
  (if head = item then (m head).next else head, m)

/-- `stricmp (a, b) == 0`. -/
def sameName (a b : List Char) : Bool := a.map Char.toLower = b.map Char.toLower

/-- `find_eq_filename`, from `ptr` on. -/
def findEqFilename (m : Objects) (fd : ℕ) : ℕ → ℕ → Except Stop ℕ
  | 0, _ => .error .endless
  | n + 1, ptr =>
      if ptr = 0 then .ok 0
      else if ptr = fd then findEqFilename m fd n (m ptr).next
      else
        match (m fd).filename, (m ptr).filename with
        | some a, some b => if sameName a b then .ok ptr else findEqFilename m fd n (m ptr).next
        | _, _ => .error .nullName

/-- `alloc_fd_properties`, with the address that `malloc` gives. -/
def allocFdProperties (p : ℕ) (st : Fds) : ℕ × Fds :=
  let r : ℕ × Fds :=
    if st.cachedFds = 0 then (p, { st with allocated := p :: st.allocated })
    else
      let l := removeList st.cachedFds st.cachedFds st.objects
      (st.cachedFds, { st with cachedFds := l.1, objects := l.2 })
  (r.1, { r.2 with
    objects := modify r.2.objects r.1 fun o => { o with prev := 0, next := 0, refCount := 1 } })

/-- `open_fd`. -/
def openFd (a : ℕ) (temporary append : Bool) (m : Objects) : Objects :=
  modify m a fun o =>
    { o with temporary := temporary && o.filename.isSome, append := append }

/-- `close_fd`. -/
def closeFd (a : ℕ) (st : Fds) : Except Stop Fds :=
  if (st.objects a).temporary then
    match findEqFilename st.objects a (st.allocated.length + 1) st.activeFds with
    | .error e => .error e
    | .ok ptr =>
        if ptr ≠ 0 then
          .ok { st with objects := modify st.objects ptr fun o => { o with temporary := true } }
        else .ok { st with removed := st.removed ++ (st.objects a).filename.toList }
  else .ok st

def freeFdProperties (a : ℕ) (st : Fds) : Fds :=
  let l := removeList st.activeFds a st.objects
  let l' := insertList st.cachedFds a l.2
  { st with activeFds := l.1, cachedFds := l'.1, objects := l'.2 }

variable (truename : Option (List Char) → Option (List Char))

def Fds.init (st : Fds) : Fds :=
  if st.ready then st
  else { st with ready := true, table := fun _ => 0, activeFds := 0, cachedFds := 0 }

def setFdProperties (fd : ℕ) (file : Option (List Char)) (temporary append : Bool) (p : ℕ)
    (st : Fds) : Fds :=
  let st := st.init
  let st : Fds :=
    if st.table fd = 0 then
      let r := allocFdProperties p st
      let m := modify r.2.objects r.1 fun o => { o with refCount := 1, filename := truename file }
      let l := insertList r.2.activeFds r.1 m
      { r.2 with table := Function.update r.2.table fd r.1, activeFds := l.1, objects := l.2 }
    else st
  { st with objects := openFd (st.table fd) temporary append st.objects }

def dupFdProperties (fd newfd : ℕ) (st : Fds) : Fds :=
  if st.table fd ≠ 0 then
    { st with
      table := Function.update st.table newfd (st.table fd),
      objects := modify st.objects (st.table fd) fun o =>
        { o with refCount := (o.refCount + 1) % 256 } }
  else st

/-- `__clear_fd_properties`; the count is an `unsigned char`. -/
def clearFdProperties (fd : ℕ) (st : Fds) : Except Stop Fds :=
  let a := st.table fd
  if a = 0 then .ok st
  else
    let st := { st with
      objects := modify st.objects a fun o => { o with refCount := (o.refCount + 255) % 256 } }
    if (st.objects a).refCount = 0 then
      match closeFd a st with
      | .error e => .error e
      | .ok st =>
          let st := { st with objects := modify st.objects a fun o => { o with filename := none } }
          let st := freeFdProperties a st
          .ok { st with table := Function.update st.table fd 0 }
    else .ok { st with table := Function.update st.table fd 0 }

/-- A call. `dup` and `close` make theirs only when there is a table. -/
inductive Op
  | set (fd : ℕ) (file : Option (List Char)) (temporary append : Bool) (p : ℕ)
  | dup (fd newfd : ℕ)
  | clear (fd : ℕ)

def Fds.step (st : Fds) : Op → Except Stop Fds
  | .set fd file temporary append p => .ok (setFdProperties truename fd file temporary append p st)
  | .dup fd newfd => if st.ready then .ok (dupFdProperties fd newfd st) else .error .noTable
  | .clear fd => if st.ready then clearFdProperties fd st else .error .noTable

end DjgppLibc.FdProps
