import DjgppLibc.DosExecProxy
import DjgppLibc.PutPath

/-!
# Allocations in the transfer buffer (`dos/process/dosexec.c`)

`go32_exec` and `direct_exec_tail_1` when `check_talloc` does not move the buffer. What
they allocate is checked in groups that are not those of the allocations: the table of the
arguments is left out of the first sum where there is a stub info, and the space that aligns
the environment is part of a number. Where there is an argument, its check covers the table.

Addresses are relative to `tbuf_beg`. What DOS answers is a parameter.
-/
namespace DjgppLibc.DosExecTalloc

open LoggedMemory
open DosExec (nul cmdlenLimit word hex4 proxyName isProxy strings offsets table
  trailer setupEnvironment)

/-- `__tb` as a segment, and `__tb_size`. -/
structure TransferBuffer where
  seg : ℕ
  size : ℕ
  size_le : size ≤ 65536

/-- Function 2901h: the first character that is not parsed, and what is stored to the FCB. -/
structure ParsedName where
  next : ℕ
  fcb : List Char
  length_le : fcb.length ≤ 16

structure Dos where
  lfn : Bool
  /-- Function 7160h: the short name, if there is one. -/
  shortName : List Char → Option (List Char)
  parse : LoggedMemory Char → ℕ → ParsedName

inductive Error
  | e2big
  /-- What DOS reports. -/
  | dos
deriving DecidableEq

abbrev Result (α : Type) := Except Error α

/-- The memory and `tbuf_ptr`. -/
structure Alloc where
  mem : LoggedMemory Char
  ptr : ℕ

def Alloc.talloc (b : Alloc) (amt : ℕ) : Alloc := { b with ptr := b.ptr + amt }

/-- `dosmemput` -/
def Alloc.put (b : Alloc) (la : ℕ) (s : List Char) : Alloc := { b with mem := putText b.mem la s }

/-- `check_talloc` -/
def checkTalloc (tb : TransferBuffer) (amt : ℕ) (b : Alloc) : Result Unit :=
  if b.ptr + amt < tb.size then .ok () else .error .e2big

def putArgv (tb : TransferBuffer) : ℕ → List (List Char) → Alloc → Result Alloc
  | argvOff, [], b => .ok (b.put argvOff (word 0))
  | argvOff, arg :: argv, b => do
      let sl := arg.length + 1
      checkTalloc tb sl b
      putArgv tb (argvOff + 2) argv
        (((b.talloc sl).put b.ptr (arg ++ [nul])).put argvOff (word (b.ptr % 65536)))

/-- What is checked first. `?:` binds less tightly than the sum: with a stub info the
table is not counted. -/
def firstSum (stubinfo : Option (List Char)) (argc : ℕ) : ℕ :=
  match stubinfo with
  | some si => si.length
  | none => 0 + (argc + 1) * 2

def putStubInfo (stubinfo : Option (List Char)) (b : Alloc) : Alloc :=
  match stubinfo with
  | some si => (b.talloc si.length).put b.ptr si
  | none => b

def putTable (tb : TransferBuffer) (stubinfo : Option (List Char)) (argv : List (List Char))
    (b : Alloc) : Result Alloc := do
  checkTalloc tb (firstSum stubinfo argv.length) b
  let b := putStubInfo stubinfo b
  putArgv tb b.ptr argv (b.talloc ((argv.length + 1) * 2))

/-- `proxy_cmdline` -/
def proxyCmdline (argc seg rmOff : ℕ) (foundSi : Bool) : List Char :=
  let text := ' ' :: proxyName ++ '=' :: hex4 false argc ++ ' ' :: hex4 false seg ++
    ' ' :: hex4 false rmOff ++ ' ' :: hex4 false seg ++ ' ' :: hex4 false 0
  if foundSi then text else text.take 22

/-- The characters of an argument in the command tail of `system`. -/
def tailChars (cmdline : List Char) : List Char → List Char
  | [] => cmdline
  | c :: p => if cmdlenLimit < cmdline.length then cmdline else tailChars (cmdline ++ [c]) p

/-- The command tail of `system`. -/
def systemTail (cmdline : List Char) : List (List Char) → List Char
  | [] => cmdline
  | p :: argv =>
      if cmdlenLimit < cmdline.length then cmdline
      else systemTail (tailChars (cmdline ++ [' ']) p) argv

/-- The name of the program in DOS form, as it is read from the buffer. -/
def dosName (tb : TransferBuffer) (dos : Dos) (w : PutPath.System) (stack : ℕ) (program : List Char)
    (b : Alloc) : Result (Alloc × List Char) := do
  checkTalloc tb (program.length + 1) b
  let readName (b : Alloc) := (peekText b.mem b.ptr Fixpath.FILENAME_MAX).takeWhile (· ≠ nul)
  let b : Alloc := { b with mem := (PutPath.putPath2 w tb.size stack b.mem program b.ptr).mem }
  if dos.lfn then
    match dos.shortName (readName b) with
    | none => .error .dos
    | some name =>
        let b := b.put b.ptr (name ++ [nul])
        .ok (b, readName b)
  else .ok (b, readName b)

def putTail (args : List Char) (argLa : ℕ) (b : Alloc) : Alloc :=
  let argLen := min args.length cmdlenLimit
  ((b.put argLa [Char.ofNat argLen]).put (argLa + 1) (args.take argLen)).put (argLa + 1 + argLen)
    ['\x0d']

/-- The loop to the next argument; the carriage return ends it. -/
def nextSpace (v : LoggedMemory Char) : ℕ → ℕ → ℕ
  | 0, la => la
  | n + 1, la => if C1args.isspace (v.mem la) then la else nextSpace v n (la + 1)

def putFcbs (dos : Dos) (argLa argLen : ℕ) (b : Alloc) : Alloc :=
  let first := dos.parse b.mem (argLa + 1)
  let b := (b.talloc 16).put b.ptr first.fcb
  let second := dos.parse b.mem (nextSpace b.mem (argLen + 2) first.next)
  (b.talloc 16).put b.ptr second.fcb

/-- The loop that allocates single bytes up to a paragraph; the last one is given back. -/
def alignEnv (tb : TransferBuffer) : ℕ → ℕ → ℕ
  | 0, ptr => ptr
  | n + 1, ptr => if (16 * tb.seg + ptr) % 16 = 0 then ptr else alignEnv tb n (ptr + 1)

def putString (tb : TransferBuffer) (ep : List Char) (b : Alloc) : Result Alloc := do
  checkTalloc tb (ep.length + 1) b
  .ok ((b.talloc (ep.length + 1)).put b.ptr (ep ++ [nul]))

/-- The loop over the environment, with `seen_proxy`. There is no `cmdline_var` here. -/
def putEnvp (tb : TransferBuffer) (proxy : Option (List Char)) :
    Bool → List (List Char) → Alloc → Result (Alloc × Bool)
  | seen, [], b => .ok (b, seen)
  | seen, ep :: envp, b =>
      if isProxy ep then
        match proxy with
        | some p => do
            let b ← putString tb p b
            putEnvp tb proxy true envp b
        | none => putEnvp tb proxy true envp b
      else do
        let b ← putString tb ep b
        putEnvp tb proxy seen envp b

/-- The strings of the environment. If no `!proxy` variable was found, one is created. -/
def putStrings (tb : TransferBuffer) (proxy : Option (List Char)) (envp : List (List Char))
    (b : Alloc) : Result Alloc := do
  let (b, seen) ← putEnvp tb proxy false envp b
  match proxy with
  | some p => if seen then .ok b else putString tb p b
  | none => .ok b

def putEnvironment (tb : TransferBuffer) (proxy : Option (List Char)) (envp : List (List Char))
    (progname : List Char) (b : Alloc) : Result Alloc := do
  let b ← putStrings tb proxy envp b
  checkTalloc tb (3 + (progname.length + 1)) b
  let b := (b.talloc 3).put b.ptr [nul, '\x01', nul]
  .ok ((b.talloc (progname.length + 1)).put b.ptr (progname ++ [nul]))

structure Region where
  start : ℕ
  length : ℕ
deriving DecidableEq

def Region.stop (r : Region) : ℕ := r.start + r.length

/-- The parameter block `Execp`. -/
def parmBlock (tb : TransferBuffer) (envLa argLa fcb1 fcb2 : ℕ) : List Char :=
  let la (off : ℕ) := 16 * tb.seg + off
  word (la envLa / 16) ++ word (la argLa % 16) ++ word (la argLa / 16) ++ word (la fcb1 % 16) ++
    word (la fcb1 / 16) ++ word (la fcb2 % 16) ++ word (la fcb2 / 16)

/-- What `direct_exec_tail_1` allocates. -/
structure Tail where
  mem : LoggedMemory Char
  program : Region
  tail : Region
  parm : Region
  fcb1 : Region
  fcb2 : Region
  env : Region

/-- `direct_exec_tail_1`, up to function 4B00h. -/
def directExecTail1 (tb : TransferBuffer) (dos : Dos) (w : PutPath.System) (stack : ℕ)
    (program args : List Char) (envp : List (List Char)) (proxy : Option (List Char)) (b : Alloc) :
    Result Tail := do
  let (b, progname) ← dosName tb dos w stack program b
  let proglen := progname.length + 1
  checkTalloc tb (proglen + args.length + 3 + 14 + 48) b
  let programLa := b.ptr
  let argLa := programLa + proglen
  let parmLa := argLa + (args.length + 3)
  let b := (((b.talloc proglen).talloc (args.length + 3)).talloc 14).put programLa
    (progname ++ [nul])
  let b := putTail args argLa b
  let fcb1 := b.ptr
  let fcb2 := fcb1 + 16
  let b := putFcbs dos argLa (min args.length cmdlenLimit) b
  -- the environment must be on a segment boundary
  let envLa := alignEnv tb 16 b.ptr
  let b ← putEnvironment tb proxy envp progname { b with ptr := envLa }
  .ok { mem := putText b.mem parmLa (parmBlock tb envLa argLa fcb1 fcb2)
        program := ⟨programLa, proglen⟩
        tail := ⟨argLa, args.length + 3⟩
        parm := ⟨parmLa, 14⟩
        fcb1 := ⟨fcb1, 16⟩
        fcb2 := ⟨fcb2, 16⟩
        env := ⟨envLa, b.ptr - envLa⟩ }

structure Launch extends Tail where
  stubInfo : Region
  table : Region
  args : Region

/-- `argv` as the function leaves it, and what it does. -/
structure Returned where
  argv : List (List Char)
  result : Result Launch

def commandOf (tb : TransferBuffer) (stubinfo : Option (List Char)) (isStubbed inSystem : Bool)
    (argv : List (List Char)) : List Char × Option (List Char) :=
  let proxy := proxyCmdline argv.length tb.seg (stubinfo.getD []).length stubinfo.isSome
  if inSystem then (systemTail [] (argv.drop (if isStubbed then 1 else 0)), some proxy)
  else (proxy.set 7 ' ', none)

/-- `go32_exec`, from where `argv[0]` is saved; `rpath` is what is run. -/
def go32Exec (tb : TransferBuffer) (dos : Dos) (w : PutPath.System) (stack : ℕ)
    (stubinfo : Option (List Char)) (isStubbed inSystem : Bool) (program rpath : List Char)
    (argv envp : List (List Char)) (junk : ℤ → Char) : Returned :=
  let saveArgv0 := argv.head?.getD []
  let argv := argv.set 0 program
  match putTable tb stubinfo argv ⟨⟨junk, []⟩, 0⟩ with
  | .error e => ⟨argv.set 0 saveArgv0, .error e⟩
  | .ok b =>
      let rmOff := (stubinfo.getD []).length
      let argsLa := rmOff + (argv.length + 1) * 2
      let (pcmd, pproxy) := commandOf tb stubinfo isStubbed inSystem argv
      ⟨argv.set 0 saveArgv0, do
        let t ← directExecTail1 tb dos w stack rpath pcmd envp pproxy b
        .ok { toTail := t
              stubInfo := ⟨0, rmOff⟩
              table := ⟨rmOff, (argv.length + 1) * 2⟩
              args := ⟨argsLa, b.ptr - argsLa⟩ }⟩

/-- The function succeeds if what it puts fits, and else it reports `E2BIG`. -/
structure Outcome {α : Type} (x : Result α) (fits : Prop) (P : α → Prop) : Prop where
  ok : fits → ∃ a, x = .ok a ∧ P a
  error : ¬ fits → x = .error .e2big

theorem Outcome.pure {α : Type} {a : α} {P : α → Prop} (h : P a) : Outcome (.ok a) True P :=
  ⟨fun _ => ⟨a, rfl, h⟩, fun hf => absurd trivial hf⟩

theorem Outcome.congr {α : Type} {x : Result α} {p q : Prop} {P : α → Prop} (h : Outcome x p P)
    (hpq : p ↔ q) : Outcome x q P :=
  ⟨fun hq => h.ok (hpq.mpr hq), fun hq => h.error fun hp => hq (hpq.mp hp)⟩

theorem Outcome.mono {α : Type} {x : Result α} {p : Prop} {P Q : α → Prop} (h : Outcome x p P)
    (hPQ : ∀ a, P a → Q a) : Outcome x p Q :=
  ⟨fun hp => (h.ok hp).imp fun a ha => ⟨ha.1, hPQ a ha.2⟩, h.error⟩

theorem Outcome.bind {α β : Type} {x : Result α} {f : α → Result β} {p q : Prop} {P : α → Prop}
    {Q : β → Prop} (hx : Outcome x p P) (hf : ∀ a, p → P a → Outcome (f a) q Q) :
    Outcome (x >>= f) (p ∧ q) Q := by
  constructor
  · rintro ⟨hp, hq⟩
    obtain ⟨a, rfl, ha⟩ := hx.ok hp
    exact (hf a hp ha).ok hq
  · intro hpq
    by_cases hp : p
    · obtain ⟨a, rfl, ha⟩ := hx.ok hp
      exact (hf a hp ha).error fun hq => hpq ⟨hp, hq⟩
    · rw [hx.error hp]
      rfl

variable {tb : TransferBuffer} {b : Alloc} {args program progname : List Char}
  {argv envp : List (List Char)}

theorem checkTalloc_outcome (tb : TransferBuffer) (amt : ℕ) (b : Alloc) :
    Outcome (checkTalloc tb amt b) (b.ptr + amt < tb.size) fun _ => True :=
  ⟨fun h => ⟨(), if_pos h, trivial⟩, fun h => if_neg h⟩

def Cells (start length : ℕ) (x : ℤ) : Prop := start ≤ x ∧ x < start + length

theorem changes_put (b : Alloc) (la : ℕ) (s : List Char) :
    Changes b.mem (b.put la s).mem (Cells la s.length) :=
  (fills_putText b.mem la s).changes

theorem reads_put (b : Alloc) (la : ℕ) (s : List Char) : (b.put la s).mem.Reads la s :=
  (fills_putText b.mem la s).reads

structure ArgvPut (argvOff : ℕ) (argv : List (List Char)) (b b' : Alloc) : Prop where
  ptr : b'.ptr = b.ptr + (strings argv).length
  changes : Changes b.mem b'.mem fun x =>
    Cells argvOff ((argv.length + 1) * 2) x ∨ Cells b.ptr (strings argv).length x
  table : b'.mem.Reads argvOff (table b.ptr argv)
  args : b'.mem.Reads b.ptr (strings argv)

theorem strings_append (ss ts : List (List Char)) : strings (ss ++ ts) = strings ss ++ strings ts :=
  List.flatMap_append

theorem strings_cons (arg : List Char) (argv : List (List Char)) :
    strings (arg :: argv) = (arg ++ [nul]) ++ strings argv := List.flatMap_cons

/-- An argument and the word for it are put, and then the rest. -/
theorem ArgvPut.cons {argvOff : ℕ} {arg : List Char} {b b' : Alloc}
    (hoff : argvOff + (argv.length + 2) * 2 ≤ b.ptr)
    (h : ArgvPut (argvOff + 2) argv
      (((b.talloc (arg.length + 1)).put b.ptr (arg ++ [nul])).put argvOff (word b.ptr)) b') :
    ArgvPut argvOff (arg :: argv) b b' := by
  obtain ⟨hptr, hchanges, htable, hargs⟩ := h
  have hsl : (arg ++ [nul]).length = arg.length + 1 := by
    rw [List.length_append, List.length_singleton]
  have hptr₁ : (((b.talloc (arg.length + 1)).put b.ptr (arg ++ [nul])).put argvOff
    (word b.ptr)).ptr =
      b.ptr + (arg.length + 1) := rfl
  rw [hptr₁] at hptr hchanges htable hargs
  have hstring := changes_put (b.talloc (arg.length + 1)) b.ptr (arg ++ [nul])
  have hword := changes_put ((b.talloc (arg.length + 1)).put b.ptr (arg ++ [nul])) argvOff
    (word b.ptr)
  have hlen : (strings (arg :: argv)).length = arg.length + 1 + (strings argv).length := by
    rw [strings_cons, List.length_append, hsl]
  have hcons : (arg :: argv).length = argv.length + 1 := rfl
  have htwo : (word b.ptr).length = 2 := rfl
  rw [htwo] at hword
  rw [hsl] at hstring
  refine ⟨by rw [hptr, hlen, Nat.add_assoc], ?_, ?_, ?_⟩
  · refine ((hstring.mono fun x hx => ?_).trans (hword.mono fun x hx => ?_)).trans
      (hchanges.mono fun x hx => ?_)
    all_goals
      simp only [Cells, hlen, hcons] at hx ⊢
      omega
  · have hfirst : (((b.talloc (arg.length + 1)).put b.ptr (arg ++ [nul])).put argvOff
        (word b.ptr)).mem.Reads argvOff (word b.ptr) := reads_put _ _ _
    have htab : DosExec.table b.ptr (arg :: argv) =
        word b.ptr ++ DosExec.table (b.ptr + (arg.length + 1)) argv := by
      simp [DosExec.table, offsets]
    rw [htab, reads_append]
    refine ⟨hfirst.keep hchanges fun x hx hx' => ?_, htable⟩
    simp only [Cells, htwo] at hx' ⊢
    omega
  · rw [strings_cons, reads_append, hsl]
    have hput : ((b.talloc (arg.length + 1)).put b.ptr (arg ++ [nul])).mem.Reads b.ptr
      (arg ++ [nul]) :=
      reads_put _ _ _
    refine ⟨(hput.keep hword fun x hx hx' => ?_).keep hchanges fun x hx hx' => ?_,
      by simpa using hargs⟩
    · simp only [Cells] at hx' ⊢
      omega
    · simp only [Cells, hsl] at hx' ⊢
      omega

theorem putArgv_outcome (tb : TransferBuffer) (argvOff : ℕ) (argv : List (List Char)) (b : Alloc)
    (hoff : argvOff + (argv.length + 1) * 2 ≤ b.ptr) :
    Outcome (putArgv tb argvOff argv b) (argv = [] ∨ b.ptr + (strings argv).length < tb.size)
      (ArgvPut argvOff argv b) := by
  induction argv generalizing argvOff b with
  | nil =>
      refine (Outcome.pure ⟨rfl, ?_, ?_, trivial⟩).congr (iff_of_true trivial (.inl rfl))
      · exact (changes_put b argvOff (word 0)).mono fun x hx => .inl hx
      · exact reads_put b argvOff (word 0)
  | cons arg argv ih =>
      rw [putArgv]
      have hlen : (strings (arg :: argv)).length = arg.length + 1 + (strings argv).length := by
        rw [strings_cons, List.length_append, List.length_append, List.length_singleton]
      have hcons : (arg :: argv).length = argv.length + 1 := rfl
      rw [hcons] at hoff
      have hrest : (b.ptr + (arg.length + 1) < tb.size ∧
          (argv = [] ∨ b.ptr + (arg.length + 1) + (strings argv).length < tb.size)) ↔
          (arg :: argv = [] ∨ b.ptr + (strings (arg :: argv)).length < tb.size) := by
        rw [hlen, or_iff_right (List.cons_ne_nil arg argv)]
        constructor
        · rintro ⟨hroom, rfl | h⟩
          · exact hroom
          · omega
        · exact fun h => ⟨by omega, .inr (by omega)⟩
      refine Outcome.congr ((checkTalloc_outcome tb _ b).bind (P := fun _ => True) fun _ hroom _ =>
        ?_) hrest
      have hsize := tb.size_le
      rw [Nat.mod_eq_of_lt (show b.ptr < 65536 by omega)]
      refine (ih (argvOff + 2) _ ?_).mono fun b' hb' => hb'.cons (by omega)
      change argvOff + 2 + (argv.length + 1) * 2 ≤ b.ptr + (arg.length + 1)
      omega

/-- The end of the arguments. -/
def argsEnd (stubinfo : Option (List Char)) (argv : List (List Char)) : ℕ :=
  (stubinfo.getD []).length + (argv.length + 1) * 2 + (strings argv).length

structure TablePut (stubinfo : Option (List Char)) (argv : List (List Char)) (b b' : Alloc) :
    Prop where
  ptr : b'.ptr = argsEnd stubinfo argv
  changes : Changes b.mem b'.mem (Cells 0 (argsEnd stubinfo argv))
  stubInfo : b'.mem.Reads 0 (stubinfo.getD [])
  table : b'.mem.Reads (stubinfo.getD []).length
    (DosExec.table ((stubinfo.getD []).length + (argv.length + 1) * 2) argv)
  args : b'.mem.Reads ((stubinfo.getD []).length + (argv.length + 1) * 2 : ℕ) (strings argv)

theorem firstSum_le (stubinfo : Option (List Char)) (argc : ℕ) :
    firstSum stubinfo argc ≤ (stubinfo.getD []).length + (argc + 1) * 2 := by
  cases stubinfo <;> simp [firstSum]

theorem putStubInfo_spec (stubinfo : Option (List Char)) (b : Alloc) (hptr : b.ptr = 0) :
    (putStubInfo stubinfo b).ptr = (stubinfo.getD []).length ∧
      Changes b.mem (putStubInfo stubinfo b).mem (Cells 0 (stubinfo.getD []).length) ∧
      (putStubInfo stubinfo b).mem.Reads 0 (stubinfo.getD []) := by
  cases stubinfo with
  | none => exact ⟨hptr, .refl _ _, trivial⟩
  | some si =>
      have hchanges := changes_put (b.talloc si.length) b.ptr si
      have hreads := reads_put (b.talloc si.length) b.ptr si
      rw [hptr] at hchanges hreads
      refine ⟨by simp [putStubInfo, Alloc.talloc, Alloc.put, hptr], ?_, ?_⟩
      · rwa [putStubInfo, hptr]
      · rwa [putStubInfo, hptr]

/-- Where there is an argument, the checks of the arguments cover the table too. -/
theorem putTable_outcome (tb : TransferBuffer) (stubinfo : Option (List Char)) (hargv : argv ≠ [])
    (b : Alloc)
    (hptr : b.ptr = 0) :
    Outcome (putTable tb stubinfo argv b) (argsEnd stubinfo argv < tb.size)
      (TablePut stubinfo argv b) := by
  have hfirst := firstSum_le stubinfo argv.length
  obtain ⟨hptr₁, hchanges₁, hreads₁⟩ := putStubInfo_spec stubinfo b hptr
  have hsum : (b.ptr + firstSum stubinfo argv.length < tb.size ∧
      (argv = [] ∨ argsEnd stubinfo argv < tb.size)) ↔ argsEnd stubinfo argv < tb.size := by
    rw [or_iff_right hargv, hptr]
    refine and_iff_right_of_imp fun h => ?_
    unfold argsEnd at h
    omega
  refine Outcome.congr ((checkTalloc_outcome tb _ b).bind fun _ _ _ => ?_) hsum
  obtain ⟨b₁, hb₁⟩ : ∃ b₁, b₁ = (putStubInfo stubinfo b).talloc ((argv.length + 1) * 2) := ⟨_, rfl⟩
  have hptr₂ : b₁.ptr = (stubinfo.getD []).length + (argv.length + 1) * 2 := by
    rw [hb₁, Alloc.talloc, hptr₁]
  have hmem : b₁.mem = (putStubInfo stubinfo b).mem := by rw [hb₁]; rfl
  have hput := putArgv_outcome tb (stubinfo.getD []).length argv b₁ hptr₂.ge
  rw [hptr₂] at hput
  dsimp only
  rw [← hb₁, hptr₁]
  refine hput.mono fun b₂ h => ?_
  obtain ⟨hptr₃, hchanges, htable, hargs⟩ := h
  rw [hptr₂] at hptr₃ hchanges htable hargs
  rw [hmem] at hchanges
  refine ⟨hptr₃, (hchanges₁.mono fun x hx => ?_).trans (hchanges.mono fun x hx => ?_),
    hreads₁.keep hchanges fun x _ hx => ?_, htable, hargs⟩
  all_goals
    simp only [Cells, argsEnd] at hx ⊢
    omega

end DjgppLibc.DosExecTalloc
