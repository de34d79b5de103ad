import Mathlib.Data.List.TakeWhile
import DjgppLibc.DosExecTalloc

/-!
# The layout of the transfer buffer (`dos/process/dosexec.c`)

What `direct_exec_tail_1` puts behind the arguments, and the buffer as a whole: everything has
a range of its own inside of the buffer where the last check succeeds. The environment ends
with one NUL behind its strings. The start-up code of the child looks for two of them, so it
does not find the end of an environment without strings: `go32Exec_prescribed_iff`.
-/
namespace DjgppLibc.DosExecTalloc

open LoggedMemory
open DosExec (nul cmdlenLimit hex4 proxyName isProxy strings trailer setupEnvironment)

variable {tb : TransferBuffer} {b : Alloc} {args program progname : List Char}
  {argv envp : List (List Char)}

/-- `_put_path2` and function 7160h leave the name as it is. -/
structure InDosForm (dos : Dos) (program : List Char) : Prop where
  not_dev : Fixpath.isDevPath (Fixpath.skipDrive program) = false
  no_double : ¬ ['/', '/'] <:+: program
  last_ne : program.getLast? ≠ some '/'
  nul_notMem : nul ∉ program
  length_lt : program.length < Fixpath.FILENAME_MAX
  short : dos.lfn = true → dos.shortName program = some program

theorem takeWhile_peekText {v : LoggedMemory Char} {a : ℤ} {s : List Char} {n : ℕ}
    (h : v.Reads a (s ++ [nul])) (hs : nul ∉ s) (hn : s.length < n) :
    (peekText v a n).takeWhile (· ≠ nul) = s := by
  induction s generalizing a n with
  | nil =>
      cases n with
      | zero => cases hn
      | succ n =>
          rw [peekText, List.takeWhile_cons_of_neg]
          simp [h.1]
  | cons c s ih =>
      cases n with
      | zero => cases hn
      | succ n =>
          rw [List.mem_cons, not_or] at hs
          rw [peekText, h.1, List.takeWhile_cons_of_pos (by simpa using Ne.symm hs.1),
            ih h.2 hs.2 (Nat.lt_of_succ_lt_succ hn)]

theorem putPath2_dosForm {dos : Dos} (h : InDosForm dos program) (w : PutPath.System) (stack : ℕ)
    (v : LoggedMemory Char) {a size : ℕ} (hroom : a + (program.length + 1) < size) :
    Changes v (PutPath.putPath2 w size stack v program a).mem (Cells a (program.length + 1)) ∧
      (PutPath.putPath2 w size stack v program a).mem.Reads a (program ++ [nul]) := by
  rw [PutPath.putPath2_of_not_dev w stack v a h.not_dev]
  obtain ⟨hputs, hoff⟩ := PutPath.copyPath_spec (PutPath.Puts.refl v a) ((size : ℤ) - a) program
  have hnul := PutPath.copyPath_nul a ((size : ℤ) - a) v a program
  simp only [List.nil_append, List.length_nil, Int.natCast_zero, Int.add_zero] at hputs hoff
  have hle := PutPath.length_le_trimSlash (Fixpath.collapse ((size : ℤ) - a).toNat program)
  rw [PutPath.trimSlash_collapse h.no_double h.last_ne (by omega)] at hputs hoff hle
  rw [Nat.zero_max, Nat.max_eq_right hle] at hputs
  rw [hoff] at hnul
  refine ⟨⟨fun x hx => hputs.outside x ?_, fun x hx => (hputs.stores x).mp hx⟩,
    reads_append.mpr ⟨hputs.reads, hnul, trivial⟩⟩
  rw [Cells] at hx
  omega

structure NamePut (program : List Char) (b : Alloc) (r : Alloc × List Char) : Prop where
  ptr : r.1.ptr = b.ptr
  name : r.2 = program
  changes : Changes b.mem r.1.mem (Cells b.ptr (program.length + 1))

theorem dosName_outcome {dos : Dos} (h : InDosForm dos program) (w : PutPath.System) (stack : ℕ)
    (b : Alloc) :
    Outcome (dosName tb dos w stack program b) (b.ptr + (program.length + 1) < tb.size)
      (NamePut program b) := by
  unfold dosName
  refine ((checkTalloc_outcome tb _ b).bind fun _ hroom _ => ?_).congr (and_iff_left trivial)
  obtain ⟨hchanges, hreads⟩ := putPath2_dosForm h w stack b.mem hroom
  have hname := takeWhile_peekText hreads h.nul_notMem h.length_lt
  dsimp only
  rw [hname]
  by_cases hlfn : dos.lfn
  · rw [if_pos hlfn, h.short hlfn]
    obtain ⟨v, hv⟩ : ∃ v, v = (PutPath.putPath2 w tb.size stack b.mem program b.ptr).mem := ⟨_, rfl⟩
    rw [← hv] at hchanges ⊢
    have hput := fills_putText v b.ptr (program ++ [nul])
    refine Outcome.pure ⟨rfl, takeWhile_peekText hput.reads h.nul_notMem h.length_lt, ?_⟩
    refine hchanges.trans (hput.changes.mono fun x hx => ?_)
    rwa [List.length_append, List.length_singleton] at hx
  · rw [if_neg hlfn]
    exact Outcome.pure ⟨rfl, rfl, hchanges⟩

def tailText (args : List Char) : List Char :=
  Char.ofNat (min args.length cmdlenLimit) :: args.take cmdlenLimit ++ ['\x0d']

theorem length_tailText (args : List Char) : (tailText args).length ≤ args.length + 2 := by
  simp [tailText]

theorem putTail_spec (args : List Char) (argLa : ℕ) (b : Alloc) :
    (putTail args argLa b).ptr = b.ptr ∧ Fills b.mem (putTail args argLa b).mem argLa
    (tailText args) := by
  refine ⟨rfl, ?_⟩
  have htake : args.take (min args.length cmdlenLimit) = args.take cmdlenLimit := by
    rw [List.take_eq_take_iff]
    omega
  have hlen : (args.take cmdlenLimit).length = min args.length cmdlenLimit := by
    rw [List.length_take, Nat.min_comm]
  have hhead := fills_putText b.mem argLa [Char.ofNat (min args.length cmdlenLimit)]
  have htext := hhead.append (fills_putText _ _ (args.take cmdlenLimit))
  have hend := htext.append (fills_putText _ _ ['\x0d'])
  rw [List.length_append, List.length_singleton, hlen] at hend
  unfold putTail
  dsimp only
  rw [htake]
  simpa [Alloc.put, tailText, Nat.add_assoc] using hend

theorem changes_fcb (b : Alloc) (la : ℕ) (parsed : ParsedName) :
    Changes b.mem (b.put la parsed.fcb).mem (Cells la 16) :=
  (changes_put b la parsed.fcb).mono fun x hx => by
    have := parsed.length_le
    simp only [Cells] at hx ⊢
    omega

theorem putFcbs_spec (dos : Dos) (argLa argLen : ℕ) (b : Alloc) :
    (putFcbs dos argLa argLen b).ptr = b.ptr + 32 ∧
      Changes b.mem (putFcbs dos argLa argLen b).mem (Cells b.ptr 32) := by
  refine ⟨rfl, ((changes_fcb _ b.ptr _).mono fun x hx => ?_).trans
    ((changes_fcb _ (b.ptr + 16) _).mono fun x hx => ?_)⟩
  all_goals
    simp only [Cells] at hx ⊢
    omega

theorem alignEnv_eq (tb : TransferBuffer) (n ptr : ℕ) (hn : (ptr + 15) / 16 * 16 - ptr ≤ n) :
    alignEnv tb n ptr = (ptr + 15) / 16 * 16 := by
  induction n generalizing ptr with
  | zero =>
      rw [alignEnv]
      omega
  | succ n ih =>
      rw [alignEnv]
      split_ifs with halign
      · omega
      · rw [ih (ptr + 1) (by omega)]
        omega

def replaced (proxy : Option (List Char)) (envp : List (List Char)) : List (List Char) :=
  envp.filterMap fun ep => if isProxy ep then proxy else some ep

/-- The environment of the child: its `!proxy` variables are replaced, or one is added, or
they are dropped where there is nothing to pass. -/
def childEnv (proxy : Option (List Char)) (envp : List (List Char)) : List (List Char) :=
  match proxy with
  | some p => if envp.any isProxy then replaced proxy envp else replaced proxy envp ++ [p]
  | none => replaced proxy envp

/-- Strings have been put from `tbuf_ptr` on. -/
structure StringsPut (ss : List (List Char)) (b b' : Alloc) : Prop where
  ptr : b'.ptr = b.ptr + (strings ss).length
  fills : Fills b.mem b'.mem b.ptr (strings ss)

theorem StringsPut.nil (b : Alloc) : StringsPut [] b b := ⟨rfl, .nil b.mem b.ptr⟩

theorem StringsPut.append {ss ts : List (List Char)} {b b' b'' : Alloc} (h : StringsPut ss b b')
    (h' : StringsPut ts b' b'') : StringsPut (ss ++ ts) b b'' := by
  have hstrings := strings_append ss ts
  refine ⟨by rw [h'.ptr, h.ptr, hstrings, List.length_append, Nat.add_assoc], ?_⟩
  rw [hstrings]
  refine h.fills.append ?_
  have hfills := h'.fills
  rwa [h.ptr, Int.natCast_add] at hfills

theorem putString_outcome (ep : List Char) (b : Alloc) :
    Outcome (putString tb ep b) (b.ptr + (strings [ep]).length < tb.size) (StringsPut [ep] b) := by
  have hstrings : strings [ep] = ep ++ [nul] := List.flatMap_singleton _ _
  have hlen : (strings [ep]).length = ep.length + 1 := by
    rw [hstrings, List.length_append, List.length_singleton]
  rw [hlen]
  unfold putString
  refine ((checkTalloc_outcome tb _ b).bind fun _ _ _ => .pure ⟨?_, ?_⟩).congr
    (and_iff_left trivial)
  · rw [hlen]
    rfl
  · rw [hstrings]
    exact fills_putText b.mem b.ptr (ep ++ [nul])

def StringsFit (tb : TransferBuffer) (ss : List (List Char)) (b : Alloc) : Prop :=
  ss = [] ∨ b.ptr + (strings ss).length < tb.size

/-- A string and then the others. -/
theorem Outcome.string {f : Alloc → Result (Alloc × Bool)} {ep : List Char} {ss : List (List Char)}
    {seen : Bool} {b : Alloc}
    (hf : ∀ b, Outcome (f b) (StringsFit tb ss b) fun r => StringsPut ss b r.1 ∧ r.2 = seen) :
    Outcome (putString tb ep b >>= f) (StringsFit tb (ep :: ss) b) fun r =>
      StringsPut (ep :: ss) b r.1 ∧ r.2 = seen := by
  have hlen : (strings (ep :: ss)).length = (strings [ep]).length + (strings ss).length := by
    rw [← List.length_append]
    exact congrArg List.length (strings_append [ep] ss)
  have hfit : (b.ptr + (strings [ep]).length < tb.size ∧
      (ss = [] ∨ b.ptr + (strings [ep]).length + (strings ss).length < tb.size)) ↔
      StringsFit tb (ep :: ss) b := by
    rw [StringsFit, or_iff_right (List.cons_ne_nil ep ss), hlen]
    constructor
    · rintro ⟨hroom, rfl | h⟩
      · exact hroom
      · omega
    · exact fun h => ⟨by omega, .inr (by omega)⟩
  refine Outcome.congr ((putString_outcome ep b).bind fun b' _ hb' => ?_) hfit
  refine ((hf b').mono fun r hr => ⟨hb'.append hr.1, hr.2⟩).congr ?_
  rw [StringsFit, hb'.ptr]

theorem putEnvp_outcome (tb : TransferBuffer) (proxy : Option (List Char)) (seen : Bool)
    (envp : List (List Char)) (b : Alloc) :
    Outcome (putEnvp tb proxy seen envp b) (StringsFit tb (replaced proxy envp) b) fun r =>
      StringsPut (replaced proxy envp) b r.1 ∧ r.2 = (seen || envp.any isProxy) := by
  induction envp generalizing seen b with
  | nil =>
      refine (Outcome.pure ⟨.nil b, ?_⟩).congr (iff_of_true trivial (.inl rfl))
      simp
  | cons ep envp ih =>
      rw [putEnvp.eq_def, replaced, List.filterMap_cons, List.any_cons]
      dsimp only
      by_cases hep : isProxy ep
      · rw [if_pos hep, if_pos hep, hep]
        cases proxy with
        | none => simpa [replaced] using ih true b
        | some p => exact Outcome.string fun b => by simpa [replaced] using ih true b
      · rw [if_neg hep, if_neg hep]
        exact Outcome.string fun b => by simpa [replaced, hep] using ih seen b

theorem putStrings_outcome (tb : TransferBuffer) (proxy : Option (List Char))
    (envp : List (List Char)) (b : Alloc) :
    Outcome (putStrings tb proxy envp b)
      (StringsFit tb (childEnv proxy envp) b) (StringsPut (childEnv proxy envp) b) := by
  have hloop := putEnvp_outcome tb proxy false envp b
  rw [Bool.false_or] at hloop
  unfold putStrings childEnv
  cases proxy with
  | none => exact (hloop.bind fun r _ hr => .pure hr.1).congr (and_iff_left trivial)
  | some p =>
      dsimp only
      by_cases hseen : envp.any isProxy
      · rw [if_pos hseen]
        refine (hloop.bind fun r _ hr => ?_).congr (and_iff_left trivial)
        rw [if_pos (hr.2.trans hseen)]
        exact .pure hr.1
      · rw [if_neg hseen]
        have hfit : (StringsFit tb (replaced (some p) envp) b ∧
            b.ptr + (strings (replaced (some p) envp)).length + (strings [p]).length < tb.size) ↔
            StringsFit tb (replaced (some p) envp ++ [p]) b := by
          rw [StringsFit, StringsFit, or_iff_right (List.append_ne_nil_of_right_ne_nil _ (by simp)),
            strings_append, List.length_append, Nat.add_assoc]
          exact and_iff_right_of_imp fun h => .inr (by omega)
        refine (hloop.bind fun r _ hr => ?_).congr hfit
        rw [if_neg (by rw [hr.2]; exact hseen)]
        refine ((putString_outcome p r.1).mono fun b' hb' => hr.1.append hb').congr ?_
        rw [hr.1.ptr]

/-- The environment has been put from `tbuf_ptr` on. -/
structure EnvPut (env : List (List Char)) (progname : List Char) (b b' : Alloc) : Prop where
  ptr : b'.ptr = b.ptr + (strings env ++ trailer progname).length
  fills : Fills b.mem b'.mem b.ptr (strings env ++ trailer progname)

theorem trailer_eq (progname : List Char) :
    trailer progname = [nul, '\x01', nul] ++ (progname ++ [nul]) := by
  rw [trailer, List.append_assoc]

theorem putEnvironment_outcome (tb : TransferBuffer) (proxy : Option (List Char))
    (envp : List (List Char))
    (progname : List Char) (b : Alloc) :
    Outcome (putEnvironment tb proxy envp progname b)
      (b.ptr + (strings (childEnv proxy envp) ++ trailer progname).length < tb.size)
      (EnvPut (childEnv proxy envp) progname b) := by
  have hlen : (strings (childEnv proxy envp) ++ trailer progname).length =
      (strings (childEnv proxy envp)).length + (3 + (progname.length + 1)) := by
    rw [trailer_eq, List.length_append, List.length_append, List.length_append,
      List.length_singleton]
    rfl
  unfold putEnvironment
  have hfit : (StringsFit tb (childEnv proxy envp) b ∧
      b.ptr + (strings (childEnv proxy envp)).length + (3 + (progname.length + 1)) < tb.size ∧
        True) ↔
      b.ptr + (strings (childEnv proxy envp) ++ trailer progname).length < tb.size := by
    rw [and_true, hlen, StringsFit, Nat.add_assoc]
    exact and_iff_right_of_imp fun h => .inr (by omega)
  refine ((putStrings_outcome tb proxy envp b).bind fun b₁ _ hb₁ => ?_).congr hfit
  rw [← hb₁.ptr]
  refine (checkTalloc_outcome tb _ b₁).bind fun _ _ _ => .pure ⟨?_, ?_⟩
  · rw [hlen, ← Nat.add_assoc, ← hb₁.ptr]
    exact Nat.add_assoc _ _ _
  · rw [trailer_eq]
    have hend := (fills_putText b₁.mem b₁.ptr [nul, '\x01', nul]).append
      (fills_putText _ _ (progname ++ [nul]))
    refine hb₁.fills.append ?_
    rw [← Int.natCast_add, ← hb₁.ptr]
    exact hend

/-- The first byte behind the FCBs, when the program's name is at `ptr`. -/
def fcbsEnd (ptr : ℕ) (program args : List Char) : ℕ :=
  ptr + (program.length + 1) + (args.length + 3) + 14 + 32

def envStart (ptr : ℕ) (program args : List Char) : ℕ := (fcbsEnd ptr program args + 15) / 16 * 16

/-- What is allocated from `ptr` on is in the buffer. -/
def TailFits (tb : TransferBuffer) (ptr : ℕ) (program args : List Char) (env : List (List Char)) :
    Prop :=
  fcbsEnd ptr program args + 16 < tb.size ∧
    envStart ptr program args + (strings env ++ trailer program).length < tb.size

instance (tb : TransferBuffer) (ptr : ℕ) (program args : List Char) (env : List (List Char)) :
    Decidable (TailFits tb ptr program args env) := inferInstanceAs (Decidable (_ ∧ _))

/-- Where `direct_exec_tail_1` has put what. -/
structure TailPut (tb : TransferBuffer) (program args : List Char) (env : List (List Char))
    (b : Alloc)
    (t : Tail) : Prop where
  program_eq : t.program = ⟨b.ptr, program.length + 1⟩
  tail_eq : t.tail = ⟨b.ptr + (program.length + 1), args.length + 3⟩
  parm_eq : t.parm = ⟨b.ptr + (program.length + 1) + (args.length + 3), 14⟩
  fcb1_eq : t.fcb1 = ⟨b.ptr + (program.length + 1) + (args.length + 3) + 14, 16⟩
  fcb2_eq : t.fcb2 = ⟨b.ptr + (program.length + 1) + (args.length + 3) + 14 + 16, 16⟩
  env_eq : t.env = ⟨envStart b.ptr program args, (strings env ++ trailer program).length⟩
  changes : Changes b.mem t.mem fun x => b.ptr ≤ x ∧ x < tb.size
  programText : t.mem.Reads t.program.start (program ++ [nul])
  tailText : t.mem.Reads t.tail.start (tailText args)
  parmText : t.mem.Reads t.parm.start
    (parmBlock tb t.env.start t.tail.start t.fcb1.start t.fcb2.start)
  envText : t.mem.Reads t.env.start (strings env ++ trailer program)

theorem length_parmBlock (tb : TransferBuffer) (envLa argLa fcb1 fcb2 : ℕ) :
    (parmBlock tb envLa argLa fcb1 fcb2).length = 14 := rfl

theorem le_envStart (ptr : ℕ) (program args : List Char) :
    fcbsEnd ptr program args ≤ envStart ptr program args := by
  unfold envStart
  omega

/-- The phases of the function, one behind the other; the parameter block is put last. -/
theorem tailPut_of_phases {ptr : ℕ} {env : List (List Char)} {v v₁ v₂ v₃ v₄ v₅ : LoggedMemory Char}
    (h₁ : Changes v v₁ (Cells ptr (program.length + 1)))
    (h₂ : Changes v₁ v₂ (Cells ptr (program.length + 1)))
    (hprogram : v₂.Reads ptr (program ++ [nul]))
    (h₃ : Fills v₂ v₃ (ptr + (program.length + 1) : ℕ) (tailText args))
    (h₄ : Changes v₃ v₄ (Cells (ptr + (program.length + 1) + (args.length + 3) + 14) 32))
    (h₅ : Fills v₄ v₅ (envStart ptr program args) (strings env ++ trailer program))
    (hroom : envStart ptr program args + (strings env ++ trailer program).length < tb.size) :
    TailPut tb program args env ⟨v, ptr⟩
      { mem := putText v₅ (ptr + (program.length + 1) + (args.length + 3) : ℕ)
          (parmBlock tb (envStart ptr program args) (ptr + (program.length + 1))
            (ptr + (program.length + 1) + (args.length + 3) + 14)
            (ptr + (program.length + 1) + (args.length + 3) + 14 + 16))
        program := ⟨ptr, program.length + 1⟩
        tail := ⟨ptr + (program.length + 1), args.length + 3⟩
        parm := ⟨ptr + (program.length + 1) + (args.length + 3), 14⟩
        fcb1 := ⟨ptr + (program.length + 1) + (args.length + 3) + 14, 16⟩
        fcb2 := ⟨ptr + (program.length + 1) + (args.length + 3) + 14 + 16, 16⟩
        env := ⟨envStart ptr program args, (strings env ++ trailer program).length⟩ } := by
  have hle := le_envStart ptr program args
  unfold fcbsEnd at hle
  have htail := length_tailText args
  have hparm := fills_putText v₅ (ptr + (program.length + 1) + (args.length + 3) : ℕ)
    (parmBlock tb (envStart ptr program args) (ptr + (program.length + 1))
      (ptr + (program.length + 1) + (args.length + 3) + 14)
      (ptr + (program.length + 1) + (args.length + 3) + 14 + 16))
  have h₆ := hparm.changes
  rw [length_parmBlock] at h₆
  have hlen : (program ++ [nul]).length = program.length + 1 := by
    rw [List.length_append, List.length_singleton]
  refine ⟨rfl, rfl, rfl, rfl, rfl, rfl, ?_, ?_, ?_, hparm.reads, ?_⟩
  · refine (((((h₁.mono ?_).trans (h₂.mono ?_)).trans (h₃.changes.mono ?_)).trans
      (h₄.mono ?_)).trans
      (h₅.changes.mono ?_)).trans (h₆.mono ?_)
    all_goals
      intro x hx
      simp only [Cells] at hx ⊢
      omega
  · refine (((hprogram.keep h₃.changes ?_).keep h₄ ?_).keep h₅.changes ?_).keep h₆ ?_
    all_goals
      intro x hx hx'
      simp only [Cells, hlen] at hx' ⊢
      omega
  · refine ((h₃.reads.keep h₄ fun x hx hx' => ?_).keep h₅.changes fun x hx hx' => ?_).keep h₆
      fun x hx hx' => ?_
    · rw [Cells]
      omega
    · omega
    · omega
  · exact h₅.reads.keep h₆ fun x hx hx' => by omega

theorem directExecTail1_outcome (tb : TransferBuffer) {dos : Dos} (h : InDosForm dos program)
    (w : PutPath.System) (stack : ℕ)
    (args : List Char) (envp : List (List Char)) (proxy : Option (List Char)) (b : Alloc) :
    Outcome (directExecTail1 tb dos w stack program args envp proxy b)
      (TailFits tb b.ptr program args (childEnv proxy envp))
      (TailPut tb program args (childEnv proxy envp) b) := by
  obtain ⟨env, henv⟩ : ∃ env, env = childEnv proxy envp := ⟨_, rfl⟩
  have hfit : (b.ptr + (program.length + 1) < tb.size ∧
      b.ptr + (program.length + 1 + args.length + 3 + 14 + 48) < tb.size ∧
      envStart b.ptr program args + (strings env ++ trailer program).length < tb.size ∧ True) ↔
      TailFits tb b.ptr program args env := by
    unfold TailFits fcbsEnd
    constructor
    · rintro ⟨-, h₁, h₂, -⟩
      exact ⟨by omega, h₂⟩
    · rintro ⟨h₁, h₂⟩
      exact ⟨by omega, by omega, h₂, trivial⟩
  rw [← henv]
  unfold directExecTail1
  refine ((dosName_outcome h w stack b).bind fun r _ hr => ?_).congr hfit
  obtain ⟨b₁, progname⟩ := r
  obtain ⟨hptr₁, rfl, hchanges₁⟩ := hr
  dsimp only at hptr₁ hchanges₁ ⊢
  rw [← hptr₁]
  refine (checkTalloc_outcome tb _ b₁).bind fun _ hroom _ => ?_
  obtain ⟨b₂, hb₂⟩ : ∃ b₂, b₂ = (((b₁.talloc (progname.length + 1)).talloc (args.length + 3)).talloc
      14).put b₁.ptr (progname ++ [nul]) := ⟨_, rfl⟩
  rw [← hb₂]
  obtain ⟨hptr₃, hfills₃⟩ := putTail_spec args (b₁.ptr + (progname.length + 1)) b₂
  obtain ⟨b₃, hb₃⟩ : ∃ b₃, b₃ = putTail args (b₁.ptr + (progname.length + 1)) b₂ := ⟨_, rfl⟩
  rw [← hb₃] at hptr₃ hfills₃ ⊢
  obtain ⟨hptr₄, hchanges₄⟩ := putFcbs_spec dos (b₁.ptr + (progname.length + 1))
    (min args.length cmdlenLimit) b₃
  obtain ⟨b₄, hb₄⟩ : ∃ b₄, b₄ = putFcbs dos (b₁.ptr + (progname.length + 1))
    (min args.length cmdlenLimit) b₃ := ⟨_, rfl⟩
  rw [← hb₄] at hptr₄ hchanges₄ ⊢
  have henvLa : alignEnv tb 16 b₄.ptr = envStart b₁.ptr progname args := by
    rw [alignEnv_eq tb 16 b₄.ptr (by omega), hptr₄, hptr₃, hb₂]
    rfl
  rw [henvLa]
  have hput := putEnvironment_outcome tb proxy envp progname
    { b₄ with ptr := envStart b₁.ptr progname args }
  rw [← henv] at hput
  refine hput.bind fun b₅ henvRoom hb₅ => .pure ?_
  have hptr₂ : b₂.ptr = b₁.ptr + (progname.length + 1) + (args.length + 3) + 14 := by
    rw [hb₂]
    rfl
  have hprogram : b₂.mem.Reads b₁.ptr (progname ++ [nul]) := by
    rw [hb₂]
    exact reads_put _ _ _
  have hchanges₂ : Changes b₁.mem b₂.mem (Cells b₁.ptr (progname.length + 1)) := by
    rw [hb₂]
    have hput := changes_put (((b₁.talloc (progname.length + 1)).talloc
      (args.length + 3)).talloc 14)
      b₁.ptr (progname ++ [nul])
    rwa [List.length_append, List.length_singleton] at hput
  rw [hptr₃, hptr₂] at hchanges₄
  rw [← hptr₁] at hchanges₁
  have hlen : b₅.ptr - envStart b₁.ptr progname args =
      (strings env ++ trailer progname).length := by
    rw [hb₅.ptr, Nat.add_sub_cancel_left]
  have hall := tailPut_of_phases hchanges₁ hchanges₂ hprogram hfills₃ hchanges₄ hb₅.fills henvRoom
  have hb : (⟨b.mem, b₁.ptr⟩ : Alloc) = b := by
    rw [hptr₁]
  rw [hb] at hall
  rw [hptr₃, hptr₂, hlen]
  exact hall

theorem environStrings_strings (s : List Char) (ss : List (List Char)) (rest : List Char) {n : ℕ}
    (hnul : ∀ x ∈ s :: ss, nul ∉ x) (hn : ss.length < n) :
    DosExec.environStrings n (strings (s :: ss) ++ nul :: rest) = s :: ss.takeWhile (· ≠ []) := by
  induction ss generalizing s n with
  | nil =>
      obtain ⟨n, rfl⟩ := Nat.exists_eq_add_one.mpr (Nat.zero_lt_of_lt hn)
      rw [DosExec.strings_cons_append, DosExec.environStrings_succ (hnul s List.mem_cons_self)]
      rfl
  | cons t ss ih =>
      obtain ⟨n, rfl⟩ := Nat.exists_eq_add_one.mpr (Nat.zero_lt_of_lt hn)
      obtain ⟨hs, hnul⟩ := List.forall_mem_cons.mp hnul
      rw [DosExec.strings_cons_append, DosExec.environStrings_succ hs]
      cases t with
      | nil => simp [strings]
      | cons c t =>
          have hc : c ≠ nul := fun h => hnul (c :: t) List.mem_cons_self (h ▸ List.mem_cons_self)
          have hhead : (strings ((c :: t) :: ss) ++ nul :: rest).head?.getD nul = c := by
            rw [DosExec.strings_cons_append]
            rfl
          rw [hhead, if_neg hc, ih (c :: t) hnul (Nat.lt_of_succ_lt_succ hn),
            List.takeWhile_cons_of_pos (by simp)]

theorem length_le_strings (ss : List (List Char)) : ss.length ≤ (strings ss).length := by
  induction ss with
  | nil => exact Nat.zero_le _
  | cons s ss ih =>
      rw [strings_cons, List.length_append, List.length_append, List.length_cons,
        List.length_singleton]
      omega

theorem setupEnvironment_eq_iff {ss : List (List Char)} (hnul : ∀ x ∈ ss, nul ∉ x)
    (progname : List Char) :
    setupEnvironment (strings ss ++ trailer progname) = ss ↔ ss ≠ [] ∧ [] ∉ ss.tail := by
  cases ss with
  | nil => exact iff_of_false (fun h => by cases h) (fun h => h.1 rfl)
  | cons s ss =>
      have htrailer : trailer progname = nul :: ('\x01' :: nul :: progname ++ [nul]) := rfl
      have hlen := length_le_strings (s :: ss)
      rw [List.length_cons] at hlen
      rw [setupEnvironment, htrailer, environStrings_strings s ss _ hnul
        (by rw [List.length_append]; omega), List.cons_inj_right, List.takeWhile_eq_self_iff,
        and_iff_right (List.cons_ne_nil s ss), List.tail_cons]
      constructor
      · exact fun h hmem => by simpa using h [] hmem
      · exact fun h x hx => by
          have : x ≠ [] := fun he => h (he ▸ hx)
          simpa using this

theorem nul_notMem_hex4 (w : ℕ) : nul ∉ hex4 false w := by
  have hdigit : ∀ d < 16, nul ≠ DosExec.hexDigit false d := by decide
  simp only [hex4, List.mem_cons, List.not_mem_nil, or_false, not_or]
  exact ⟨hdigit _ (Nat.mod_lt _ (by decide)), hdigit _ (Nat.mod_lt _ (by decide)),
    hdigit _ (Nat.mod_lt _ (by decide)), hdigit _ (Nat.mod_lt _ (by decide))⟩

theorem nul_notMem_proxyCmdline (argc seg rmOff : ℕ) (foundSi : Bool) :
    nul ∉ proxyCmdline argc seg rmOff foundSi := by
  have htext : nul ∉ ' ' :: proxyName ++ '=' :: hex4 false argc ++ ' ' :: hex4 false seg ++
      ' ' :: hex4 false rmOff ++ ' ' :: hex4 false seg ++ ' ' :: hex4 false 0 := by
    have hblank : nul ≠ ' ' := by decide
    have heq : nul ≠ '=' := by decide
    have hname : nul ∉ proxyName := by decide
    simp only [List.cons_append, List.mem_cons, List.mem_append, not_or, hblank, heq, hname,
      nul_notMem_hex4, not_false_iff, and_self]
  unfold proxyCmdline
  dsimp only
  split_ifs
  · exact htext
  · exact fun h => htext (List.mem_of_mem_take h)

theorem nul_notMem_commandOf (tb : TransferBuffer) (stubinfo : Option (List Char))
    (isStubbed inSystem : Bool) (argv : List (List Char)) :
    ∀ p ∈ (commandOf tb stubinfo isStubbed inSystem argv).2, nul ∉ p := by
  intro p hp
  cases inSystem with
  | false => cases hp
  | true =>
      cases hp
      exact nul_notMem_proxyCmdline _ _ _ _

theorem nul_notMem_childEnv {proxy : Option (List Char)} (henvp : ∀ ep ∈ envp, nul ∉ ep)
    (hproxy : ∀ p ∈ proxy, nul ∉ p) : ∀ x ∈ childEnv proxy envp, nul ∉ x := by
  have hreplaced : ∀ x ∈ replaced proxy envp, nul ∉ x := by
    intro x hx
    obtain ⟨ep, hep, hx⟩ := List.mem_filterMap.mp hx
    split_ifs at hx
    · exact hproxy x hx
    · cases hx
      exact henvp _ hep
  unfold childEnv
  cases proxy with
  | none => exact hreplaced
  | some p =>
      dsimp only
      split_ifs
      · exact hreplaced
      · intro x hx
        rcases List.mem_append.mp hx with hx | hx
        · exact hreplaced x hx
        · cases List.mem_singleton.mp hx
          exact hproxy p rfl

/-- Two ranges have no byte in common. -/
def Region.Disjoint (r r' : Region) : Prop := r.stop ≤ r'.start ∨ r'.stop ≤ r.start

def Region.Before (r r' : Region) : Prop := r.stop ≤ r'.start

instance : Trans Region.Before Region.Before Region.Before where
  trans {_ r' _} h h' := h.trans ((Nat.le_add_right r'.start r'.length).trans h')

def Launch.regions (l : Launch) : List Region :=
  [l.stubInfo, l.table, l.args, l.program, l.tail, l.parm, l.fcb1, l.fcb2, l.env]

structure Launch.Holds (l : Launch) (r : Region) (s : List Char) : Prop where
  length_le : s.length ≤ r.length
  reads : l.mem.Reads r.start s

/-- All is in its place: no store outside of the buffer, ranges for everything that are
disjoint, and an environment at a paragraph that the child reads as it should. -/
structure Laid (tb : TransferBuffer) (stubinfo : Option (List Char)) (argv : List (List Char))
    (program cmd : List Char) (env : List (List Char)) (l : Launch) : Prop where
  inside : l.mem.Inside 0 tb.size
  within : ∀ r ∈ l.regions, r.stop ≤ tb.size
  disjoint : l.regions.Pairwise Region.Disjoint
  paragraph : (16 * tb.seg + l.env.start) % 16 = 0
  stubInfo : l.Holds l.stubInfo (stubinfo.getD [])
  table : l.Holds l.table (DosExec.table l.args.start argv)
  args : l.Holds l.args (strings argv)
  program : l.Holds l.program (program ++ [nul])
  tail : l.Holds l.tail (tailText cmd)
  parm : l.Holds l.parm (parmBlock tb l.env.start l.tail.start l.fcb1.start l.fcb2.start)
  fcbs : l.fcb1.length = 16 ∧ l.fcb2.length = 16
  environment : setupEnvironment (peekText l.mem l.env.start l.env.length) = env

variable {stubinfo : Option (List Char)} {env : List (List Char)}

theorem laid_of_puts {tb : TransferBuffer} {b₀ b : Alloc} {t : Tail} (hb₀ : b₀.mem.Inside 0 tb.size)
    (hb : TablePut stubinfo argv b₀ b) (ht : TailPut tb program args env b t)
    (hfits : TailFits tb b.ptr program args env) (hnul : ∀ x ∈ env, nul ∉ x) :
    Laid tb stubinfo argv program args env
      { toTail := t
        stubInfo := ⟨0, (stubinfo.getD []).length⟩
        table := ⟨(stubinfo.getD []).length, (argv.length + 1) * 2⟩
        args := ⟨(stubinfo.getD []).length + (argv.length + 1) * 2,
          b.ptr - ((stubinfo.getD []).length + (argv.length + 1) * 2)⟩ } ↔
      env ≠ [] ∧ [] ∉ env.tail := by
  have hlen := congrArg Region.length ht.env_eq
  have hpeek : peekText t.mem t.env.start t.env.length = strings env ++ trailer program := by
    rw [hlen]
    exact ht.envText.peekText
  rw [← setupEnvironment_eq_iff hnul program, ← hpeek]
  refine ⟨fun h => h.environment, fun h => ?_⟩
  have hle := le_envStart b.ptr program args
  obtain ⟨-, hroom⟩ := hfits
  have hptr := hb.ptr
  unfold fcbsEnd at hle
  unfold argsEnd at hptr
  have hargs : b.ptr - ((stubinfo.getD []).length + (argv.length + 1) * 2) =
      (strings argv).length := by
    rw [hptr, Nat.add_sub_cancel_left]
  have hkeep : ∀ (a : ℕ) (s : List Char), b.mem.Reads a s → a + s.length ≤ b.ptr →
    t.mem.Reads a s :=
    fun a s hs hend => hs.keep ht.changes fun x _ hx => by omega
  have htable := DosExec.length_table ((stubinfo.getD []).length + (argv.length + 1) * 2) argv
  refine ⟨?_, ?_, ?_, ?_, ⟨le_refl _, ?_⟩, ⟨htable.le, ?_⟩, ⟨hargs.ge, ?_⟩, ⟨?_, ht.programText⟩,
    ⟨?_, ht.tailText⟩, ⟨?_, ht.parmText⟩, ?_, h⟩
  · refine ht.changes.inside (hb.changes.inside hb₀ fun x hx => ?_) fun x hx => by omega
    simp only [Cells, argsEnd] at hx
    omega
  · simp only [Launch.regions, List.forall_mem_cons, Region.stop, ht.program_eq, ht.tail_eq,
      ht.parm_eq,
      ht.fcb1_eq, ht.fcb2_eq, ht.env_eq, List.not_mem_nil, false_imp_iff, implies_true, and_true]
    omega
  · refine (List.IsChain.pairwise (R := Region.Before) ?_).imp .inl
    simp only [Launch.regions, List.isChain_cons_cons, List.IsChain.singleton, and_true,
      Region.Before,
      Region.stop, ht.program_eq, ht.tail_eq, ht.parm_eq, ht.fcb1_eq, ht.fcb2_eq, ht.env_eq]
    omega
  · dsimp only
    rw [ht.env_eq]
    unfold envStart
    dsimp only
    omega
  · exact hkeep 0 _ hb.stubInfo (by omega)
  · exact hkeep (stubinfo.getD []).length _ hb.table (by rw [htable]; omega)
  · exact hkeep ((stubinfo.getD []).length + (argv.length + 1) * 2) _ hb.args (by rw [hptr])
  · rw [ht.program_eq, List.length_append, List.length_singleton]
  · rw [ht.tail_eq]
    exact Nat.le_succ_of_le (length_tailText args)
  · rw [ht.parm_eq]
    exact (length_parmBlock _ _ _ _ _).le
  · rw [ht.fcb1_eq, ht.fcb2_eq]
    exact ⟨rfl, rfl⟩

theorem set_set_head (hargv : argv ≠ []) (program : List Char) :
    (argv.set 0 program).set 0 (argv.head?.getD []) = argv := by
  cases argv with
  | nil => exact absurd rfl hargv
  | cons arg argv => rfl

theorem TailFits.lt_size {ptr : ℕ} (h : TailFits tb ptr program args env) : ptr < tb.size := by
  have := h.1
  unfold fcbsEnd at this
  omega

theorem go32Exec_outcome (tb : TransferBuffer) {dos : Dos} {rpath : List Char}
    (hname : InDosForm dos rpath) (w : PutPath.System)
    (stack : ℕ) (stubinfo : Option (List Char)) (isStubbed inSystem : Bool) (program : List Char)
    (hargv : argv ≠ []) (henvp : ∀ ep ∈ envp, nul ∉ ep) (junk : ℤ → Char) :
    let r := go32Exec tb dos w stack stubinfo isStubbed inSystem program rpath argv envp junk
    let argv' := argv.set 0 program
    let command := commandOf tb stubinfo isStubbed inSystem argv'
    let env := childEnv command.2 envp
    r.argv = argv ∧ Outcome r.result (TailFits tb (argsEnd stubinfo argv') rpath command.1 env)
      fun l => Laid tb stubinfo argv' rpath command.1 env l ↔ env ≠ [] ∧ [] ∉ env.tail := by
  dsimp only
  have hset : argv.set 0 program ≠ [] := by simpa using hargv
  have htable := putTable_outcome tb stubinfo hset ⟨⟨junk, []⟩, 0⟩ rfl
  have hrestored := set_set_head hargv program
  unfold go32Exec
  dsimp only
  by_cases hroom : argsEnd stubinfo (argv.set 0 program) < tb.size
  · obtain ⟨b, hb, hput⟩ := htable.ok hroom
    rw [hb]
    refine ⟨hrestored, ?_⟩
    have hcommand := nul_notMem_commandOf tb stubinfo isStubbed inSystem (argv.set 0 program)
    have htail := directExecTail1_outcome tb hname w stack
      (commandOf tb stubinfo isStubbed inSystem (argv.set 0 program)).1 envp
      (commandOf tb stubinfo isStubbed inSystem (argv.set 0 program)).2 b
    refine Outcome.congr (htail.bind fun t hfits ht => .pure ?_) (by rw [hput.ptr, and_true])
    exact laid_of_puts (inside_nil junk 0 tb.size) hput ht hfits
      (nul_notMem_childEnv henvp hcommand)
  · rw [htable.error hroom]
    exact ⟨hrestored, fun hfits => absurd hfits.lt_size hroom, fun _ => rfl⟩

/-- What the function does when it is called with arguments: `argv[0]` is restored, and it
fails with `E2BIG` or lays out the buffer. -/
structure Prescribed (tb : TransferBuffer) (stubinfo : Option (List Char)) (argv : List (List Char))
    (program rpath cmd : List Char) (env : List (List Char)) (r : Returned) : Prop where
  restored : r.argv = argv
  laid : r.result = .error .e2big ∨
    ∃ l, r.result = .ok l ∧ Laid tb stubinfo (argv.set 0 program) rpath cmd env l

/-- The function does so exactly if there is no room, or there is a string in the environment
of the child and no empty one behind the first. -/
theorem go32Exec_prescribed_iff (tb : TransferBuffer) (dos : Dos) (w : PutPath.System) (stack : ℕ)
    (stubinfo : Option (List Char)) (isStubbed inSystem : Bool) (program rpath : List Char)
    (argv envp : List (List Char)) (junk : ℤ → Char) (hargv : argv ≠ [])
    (hname : InDosForm dos rpath)
    (henvp : ∀ ep ∈ envp, nul ∉ ep) :
    let argv' := argv.set 0 program
    let command := commandOf tb stubinfo isStubbed inSystem argv'
    let env := childEnv command.2 envp
    Prescribed tb stubinfo argv program rpath command.1 env
        (go32Exec tb dos w stack stubinfo isStubbed inSystem program rpath argv envp junk) ↔
      ¬ TailFits tb (argsEnd stubinfo argv') rpath command.1 env ∨ env ≠ [] ∧ [] ∉ env.tail := by
  dsimp only
  obtain ⟨hrestored, houtcome⟩ := go32Exec_outcome tb hname w stack stubinfo isStubbed inSystem
    program hargv henvp junk
  by_cases hfits : TailFits tb (argsEnd stubinfo (argv.set 0 program)) rpath
      (commandOf tb stubinfo isStubbed inSystem (argv.set 0 program)).1
      (childEnv (commandOf tb stubinfo isStubbed inSystem (argv.set 0 program)).2 envp)
  · obtain ⟨l, hl, hiff⟩ := houtcome.ok hfits
    rw [or_iff_right (not_not.mpr hfits), ← hiff]
    constructor
    · intro h
      rcases h.laid with he | ⟨l', hl', h⟩
      · rw [hl] at he
        cases he
      · rw [hl] at hl'
        cases hl'
        exact h
    · exact fun h => ⟨hrestored, .inr ⟨l, hl, h⟩⟩
  · exact iff_of_true ⟨hrestored, .inl (houtcome.error hfits)⟩ (.inl hfits)

/-- DOS without long names, which stores nothing to an FCB. -/
def sampleDos : Dos := ⟨false, fun _ => none, fun _ la => ⟨la, [], by decide⟩⟩

def sampleBuffer : TransferBuffer := ⟨4096, 4096, by decide⟩

theorem inDosForm_sample : InDosForm sampleDos ['p'] where
  not_dev := rfl
  no_double := by decide
  last_ne := by decide
  nul_notMem := by decide
  length_lt := by decide
  short h := by cases h

/-- A call outside of `system` with one argument. -/
def sampleExec (envp : List (List Char)) : Returned :=
  go32Exec sampleBuffer sampleDos PutPath.sampleSystem 8192 none true false ['p'] ['p']
    [['a'], ['x']] envp
    fun _ => nul

def samplePrescribed (envp : List (List Char)) : Prop :=
  let command := commandOf sampleBuffer none true false [['p'], ['x']]
  Prescribed sampleBuffer none [['a'], ['x']] ['p'] ['p'] command.1 (childEnv command.2 envp)
    (sampleExec envp)

theorem go32Exec_prescribed_sample : samplePrescribed [['A', '=', '1'], ['B', '=']] :=
  (go32Exec_prescribed_iff sampleBuffer sampleDos PutPath.sampleSystem 8192 none true false ['p']
    ['p']
    [['a'], ['x']] [['A', '=', '1'], ['B', '=']] (fun _ => nul) (by decide) inDosForm_sample
    (by decide)).mpr (.inr (by decide))

/-- An environment without strings is not what the child looks for. -/
theorem go32Exec_not_prescribed : ¬ samplePrescribed [] := by
  intro h
  have hargv : [['a'], ['x']] ≠ [] := List.cons_ne_nil _ _
  obtain ⟨-, houtcome⟩ := go32Exec_outcome sampleBuffer inDosForm_sample PutPath.sampleSystem 8192
    none
    true false ['p'] hargv (fun _ hep => absurd hep List.not_mem_nil) fun _ => nul
  obtain ⟨l, hl, hiff⟩ := houtcome.ok (by decide)
  rcases h.laid with he | ⟨l', hl', hlaid⟩
  · exact nomatch he.symm.trans hl
  · cases hl'.symm.trans hl
    exact (hiff.mp hlaid).1 rfl

end DjgppLibc.DosExecTalloc
