import Mathlib.Algebra.Order.Ring.Int
import DjgppLibc.ReferenceCounts

/-!
# Dynamic modules (`libc/dxe/dlopen.c`)

`dlopen` loads a module file with the modules that it depends on, and `dlclose` gives back
what nobody uses any more. The chain of loaded modules is a list of handles here, newest
first. The name of a file is found by `search`, which stands for `ACCESS`, the search along
the paths of the environment, and `REALPATH`. Initializers and finalizers do nothing to the
chain.

What may fail takes its outcome from a sequence, in the order in which it is tried: files,
allocations, and the last-resort resolver of symbols.

When the handle of a module cannot be allocated, the source has already overwritten
`dxe_chain` with the null pointer. Modules that were loaded before are lost then, which the
state remembers.
-/
namespace DjgppLibc.Dlopen

open ReferenceCounts

structure ModuleFile where
  deps : List String
  unres : List String
  exports : List String
deriving DecidableEq

structure Env where
  search : String → Option String
  files : List (String × ModuleFile)
  /-- The names in `_dl_symtabs`. -/
  symtabs : List String
  fails : ℕ → Bool
  /-- `_dlsymresolver` -/
  resolver : ℕ → String → Bool

abbrev Addr := ℕ

structure Handle where
  fname : String
  mode : BitVec 32
  inuse : ℤ
  exports : List String
  deps : List Addr
deriving DecidableEq

structure State where
  /-- `dxe_chain` -/
  chain : List Addr
  heap : Addr → Option Handle
  /-- The address of the next handle. -/
  brk : Addr
  /-- The number of things that were tried. -/
  tick : ℕ
  /-- Loaded modules have been lost from the chain. -/
  lost : Bool

def RTLD_GLOBAL : BitVec 32 := 0x0100

def start : State := ⟨[], fun _ => none, 0, 0, false⟩

def State.store (s : State) (h : Addr) (d : Handle) : State :=
  { s with heap := fun k => if k = h then some d else s.heap k }

def State.free (s : State) (h : Addr) : State :=
  { s with heap := fun k => if k = h then none else s.heap k }

/-- `dlclose`; `none` for a handle that has been freed. -/
def closeHandle : ℕ → Addr → State → Option State
  | 0, _, _ => none
  | fuel + 1, h, s =>
      match s.heap h with
      | none => none
      | some d =>
          let d := { d with inuse := d.inuse - 1 }
          let s := s.store h d
          if d.inuse ≠ 0 then some s
          else
            let s := { s with chain := s.chain.erase h }
            (d.deps.foldlM (fun s g => closeHandle fuel g s) s).map fun s => s.free h

/-- Each level of `dlclose` takes out another handle. -/
def dlclose (h : Addr) (s : State) : Option State := closeHandle (s.brk + 1) h s

/-- `_closeall`, for a number of rounds. -/
def closeall : ℕ → State → Option State
  | 0, s => if s.chain = [] then some s else none
  | rounds + 1, s =>
      match s.chain with
      | [] => some s
      | h :: _ => (dlclose h s).bind (closeall rounds)

variable (env : Env)

def failsOneOf : ℕ → State → Bool × State
  | 0, s => (false, s)
  | n + 1, s =>
      let s' := { s with tick := s.tick + 1 }
      if env.fails s.tick then (true, s') else failsOneOf n s'

/-- `dlsym` with `RTLD_DEFAULT`, but for the last resort. -/
def dlsym (s : State) (symname : String) : Bool :=
  symname ∈ env.symtabs ∨
    s.chain.any fun h => (s.heap h).any fun d => d.mode &&& RTLD_GLOBAL ≠ 0 ∧ symname ∈ d.exports

/-- The loop over the unresolved symbols: the number of those that stay so. -/
def resolveAll : List String → State → ℕ × State
  | [], s => (0, s)
  | symname :: rest, s =>
      if dlsym env s symname then resolveAll rest s
      else
        let (n, s') := resolveAll rest { s with tick := s.tick + 1 }
        (if env.resolver s.tick symname then n else n + 1, s')

/-- The loop over the dependencies; `false` if one of them cannot be had. -/
def loadDeps (opn : String → State → Option (Option Addr × State)) :
    List String → List Addr → State → Option (Bool × List Addr × State)
  | [], deps, s => some (true, deps, s)
  | name :: names, deps, s =>
      match opn name s with
      | none => none
      | some (none, s) => some (false, deps, s)
      | some (some h, s) =>
          -- the entry for the list of dependencies
          match failsOneOf env 1 s with
          | (true, s) => (dlclose h s).map fun s => (false, deps, s)
          | (false, s) => loadDeps opn names (deps ++ [h]) s

/-- The end of a `dlopen` that fails. -/
def giveUp (deps : List Addr) (s : State) : Option (Option Addr × State) :=
  (deps.foldlM (fun s h => dlclose h s) s).map fun s => (none, s)

def State.push (s : State) (d : Handle) : State :=
  { s.store s.brk d with chain := s.brk :: s.chain, brk := s.brk + 1 }

/-- The part of `dlopen` behind its dependencies. -/
def link (file : ModuleFile) (realfn : String) (mode : BitVec 32) (deps : List Addr) (s : State) :
    Option (Option Addr × State) :=
  let (unresolved, s) := resolveAll env file.unres s
  if unresolved ≠ 0 then giveUp deps s
  else
    -- the table of exported symbols
    match failsOneOf env 1 s with
    | (true, s) => giveUp deps s
    | (false, s) =>
        -- the handle, which the source stores in `dxe_chain` before it looks at it
        match failsOneOf env 1 s with
        | (true, s) => giveUp deps { s with chain := [], lost := s.lost || !s.chain.isEmpty }
        | (false, s) => some (some s.brk, s.push ⟨realfn, mode, 1, file.exports, deps⟩)

/-- `dlopen`, with the names of the modules that are being loaded. -/
def openModule : ℕ → List String → String → BitVec 32 → State → Option (Option Addr × State)
  | 0, _, _, _, _ => none
  | fuel + 1, stk, filename, mode, s =>
      match env.search filename with
      | none => some (none, s)
      | some realfn =>
          if realfn ∈ stk then some (none, s)
          else
            match s.chain.find? fun h => (s.heap h).any fun d => d.fname = realfn with
            | some cur =>
                match s.heap cur with
                | none => none
                | some d => some (some cur, s.store cur { d with inuse := d.inuse + 1 })
            | none =>
                match env.files.lookup realfn with
                | none => some (none, s)
                | some file =>
                    -- the file, its header, two blocks of memory, and the contents
                    match failsOneOf env 5 s with
                    | (true, s) => some (none, s)
                    | (false, s) =>
                        let opn := fun name s => openModule fuel (realfn :: stk) name RTLD_GLOBAL s
                        match loadDeps env opn file.deps [] s with
                        | none => none
                        | some (false, deps, s) => giveUp deps s
                        | some (true, deps, s) => link env file realfn mode deps s

/-- A module that is being loaded is a file, so the levels of `dlopen` are no more than the
files. -/
def dlopen (filename : String) (mode : BitVec 32) (s : State) : Option (Option Addr × State) :=
  openModule env (env.files.length + 1) [] filename mode s

end DjgppLibc.Dlopen
