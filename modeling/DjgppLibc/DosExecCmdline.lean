import DjgppLibc.C1args

/-!
# Long command lines in CMDLINE (`dos/process/dosexec.c`, `crt0/c1args.c`)

A command tail longer than DOS allows is put into the environment, behind the
name of the program, and the length byte of the tail is set to 127. The
start-up code of the child then skips the name and parses the rest.

`direct_pe_exec` and `__dosexec_command_exec` quote a name with a blank. The
child takes the quote for the end of the name as well as for its start, so that
such a name is not skipped: `read_arguments_iff`. Which shells the program is,
the longest command line of the shell and the target of symbolic links are
parameters.
-/
namespace DjgppLibc.DosExec

/-- `CMDLEN_LIMIT`. -/
def cmdlenLimit : ℕ := 126

/-- `CMDLINE_MAX`. -/
def cmdlineMax : ℕ := 1023

/-- `__cmdline_str`. -/
def cmdlineStr : List Char := ['C', 'M', 'D', 'L', 'I', 'N', 'E', '=']

def quoteName (name : List Char) : List Char := if ' ' ∈ name then '"' :: (name ++ ['"']) else name

def dosSlashes (name : List Char) : List Char := name.map fun c => if c = '/' then '\\' else c

structure Quoting where
  needQuote : Bool
  unescapeQuote : Bool
deriving DecidableEq

/-- The two flags at the start of `direct_pe_exec`. -/
def quoting (inSystem dosShell unixyShell : Bool) (args : List (List Char)) : Quoting where
  needQuote := !inSystem && !(args.length = 2 && args.head? = some ['/', 'c'] && dosShell)
  unescapeQuote := inSystem && !unixyShell

def putChars (q : Quoting) (quoted : Bool) : List Char → List Char → List Char
  | var, [] => var
  | var, c :: p =>
      if cmdlineMax < var.length then var
      else if c = '"' ∧ (quoted ∨ q.needQuote) then
        let var := var ++ ['\\']
        if cmdlineMax < var.length then var else putChars q quoted (var ++ [c]) p
      else
        match p with
        | d :: p =>
            if c = '\\' ∧ d = '\'' ∧ q.unescapeQuote then putChars q quoted (var ++ [d]) p
            else putChars q quoted (var ++ [c]) (d :: p)
        | [] => var ++ [c]

def putArgs (q : Quoting) : List Char → List (List Char) → List Char
  | var, [] => var
  | var, p :: args =>
      if cmdlineMax < var.length then var
      else
        let var := var ++ [' ']
        if q.needQuote ∧ (' ' ∈ p ∨ '\t' ∈ p) then
          if cmdlineMax < var.length then var
          else
            let var := putChars q true (var ++ ['"']) p
            putArgs q (if var.length ≤ cmdlineMax then var ++ ['"'] else var) args
        else putArgs q (putChars q false var p) args

/-- A character of the program's name, which is looked up in the name before
symbolic links were followed. -/
def commandName (program : List Char) : ℕ → List Char → List Char
  | _, [] => []
  | i, c :: s =>
      if ' ' < c ∧ c.toNat < 128 then
        (if program[i]? = some '/' then '\\' else c) :: commandName program (i + 1) s
      else c :: s

def quoteArg : Bool → List Char → List Char
  | _, [] => ['"']
  | outsideQuote, c :: s =>
      if c = '"' then '\\' :: c :: quoteArg (!outsideQuote) s
      else if outsideQuote ∧ (c = '|' ∨ c = '<' ∨ c = '>') then '"' :: c :: '"' ::
      quoteArg outsideQuote s
      else if c = '%' then '%' :: c :: quoteArg outsideQuote s
      else c :: quoteArg outsideQuote s

def isSpecial (c : Char) : Bool :=
  c = ' ' || c = '\t' || c = '<' || c = '>' || c = '|' || c = '\'' || c = '"' || c = '%'

def commandArgs (inSystem : Bool) (args : List (List Char)) : List Char :=
  args.flatMap fun p =>
    ' ' :: if ¬ inSystem ∧ p.any isSpecial then '"' :: quoteArg false p else p

def commandLine (program realProgram : List Char) (inSystem : Bool) (args : List (List Char)) :
    List Char :=
  let quote := if ' ' ∈ realProgram ∨ '\t' ∈ realProgram then ['"'] else []
  ['/', 'c', ' '] ++ quote ++ commandName program 0 realProgram ++ quote ++
    commandArgs inSystem args

/-- A call of one of the two functions, with the arguments behind `argv[0]`. -/
inductive Exec
  | pe (program : List Char) (args : List (List Char)) (inSystem dosShell unixyShell : Bool)
  | command (comspec program realProgram : List Char) (args : List (List Char)) (inSystem : Bool)
      (shellLimit : ℕ)
deriving DecidableEq

def Exec.name : Exec → List Char
  | .pe program .. => program
  | .command comspec .. => comspec

/-- The name as `direct_pe_exec` puts it in front of the arguments. -/
def peName (program : List Char) : List Char := dosSlashes (quoteName program)

def peVar (program : List Char) (args : List (List Char)) (q : Quoting) : List Char :=
  putArgs q (cmdlineStr ++ peName program) args

/-- The command tail: what is passed as `args` to `direct_exec_tail`. -/
def Exec.tail : Exec → List Char
  | .pe program args inSystem dosShell unixyShell =>
      (peVar program args (quoting inSystem dosShell unixyShell args)).drop
        (cmdlineStr ++ peName program).length
  | .command _ program realProgram args inSystem shellLimit =>
      let cmdline := commandLine program realProgram inSystem args
      let limit := if shellLimit = 0 then cmdlenLimit else shellLimit
      if cmdlenLimit < cmdline.length ∧ limit < cmdline.length then cmdline.take cmdlenLimit
      else cmdline

def Exec.cmdlineVar (e : Exec) : Option (List Char) :=
  match e with
  | .pe program args inSystem dosShell unixyShell =>
      if cmdlenLimit < e.tail.length then
        some (peVar program args (quoting inSystem dosShell unixyShell args))
      else none
  | .command comspec .. =>
      if cmdlenLimit < e.tail.length then some (cmdlineStr ++ quoteName comspec ++ ' ' :: e.tail)
      else none

/-- The length byte that `direct_exec_tail_1` puts in front of the tail. -/
def Exec.header (e : Exec) : ℕ :=
  if cmdlenLimit < e.tail.length then if e.cmdlineVar.isSome then 127 else cmdlenLimit
  else e.tail.length

/-- What the arguments are: the tail, in `direct_pe_exec` without the blank in front. -/
def Exec.arguments (e : Exec) : List Char :=
  match e with
  | .pe .. => e.tail.drop 1
  | .command .. => e.tail

/-- The loop that skips to the stop token and the step over it; `none` if it runs
past the end of the value. -/
def skipTo (stopToken : Char) : List Char → Option (List Char)
  | [] => none
  | c :: cmdline => if c = stopToken then some cmdline else skipTo stopToken cmdline

def stopToken (cmdline : List Char) : Char :=
  match cmdline.head? with
  | some c => if c = '"' ∨ c = '\'' then c else ' '
  | none => ' '

/-- The text that is given to `parse_bytes`, from the tail or from the value of CMDLINE. -/
def startText (header : ℕ) (doscmd : List Char) (cmdline : Option (List Char)) :
    Option (List Char) :=
  match cmdline with
  | some cmdline =>
      if header ≠ 127 then some (doscmd.take (header % 128)) else skipTo (stopToken cmdline) cmdline
  | none => some (doscmd.take (header % 128))

/-- The child finds the arguments behind the name, with or without a blank in front. -/
def Exec.Reads (e : Exec) (var : List Char) : Prop :=
  ∃ value text, var = cmdlineStr ++ value ∧
    startText e.header e.tail (some value) = some text ∧
    (text = e.arguments ∨ text = ' ' :: e.arguments)

theorem putChars_append (q : Quoting) (quoted : Bool) (var p : List Char) :
    ∃ rest, putChars q quoted var p = var ++ rest := by
  fun_induction putChars q quoted var p with
  | case1 var => exact ⟨[], (List.append_nil var).symm⟩
  | case2 var => exact ⟨[], (List.append_nil var).symm⟩
  | case3 => exact ⟨_, rfl⟩
  | case4 _ _ _ _ _ _ _ ih =>
      obtain ⟨rest, ih⟩ := ih
      exact ⟨_, by rw [ih, List.append_assoc, List.append_assoc]⟩
  | case5 _ _ _ _ _ _ _ ih =>
      obtain ⟨rest, ih⟩ := ih
      exact ⟨_, by rw [ih, List.append_assoc]⟩
  | case6 _ _ _ _ _ _ _ ih =>
      obtain ⟨rest, ih⟩ := ih
      exact ⟨_, by rw [ih, List.append_assoc]⟩
  | case7 => exact ⟨_, rfl⟩

/-- The arguments start with a blank. -/
theorem putArgs_append (q : Quoting) (var : List Char) (args : List (List Char)) :
    ∃ rest, putArgs q var args = var ++ rest ∧ (rest = [] ∨ rest.head? = some ' ') := by
  fun_induction putArgs q var args with
  | case1 var => exact ⟨[], (List.append_nil var).symm, .inl rfl⟩
  | case2 var => exact ⟨[], (List.append_nil var).symm, .inl rfl⟩
  | case3 => exact ⟨_, rfl, .inr rfl⟩
  | case4 var p args _ _ _ _ var' ih =>
      obtain ⟨rest, ih, -⟩ := ih
      obtain ⟨mid, hmid⟩ := putChars_append q true (var ++ [' '] ++ ['"']) p
      have hvar : var' = var ++ [' '] ++ ['"'] ++ mid := hmid
      refine ⟨' ' :: '"' :: mid ++ ((if var'.length ≤ cmdlineMax then ['"'] else []) ++ rest), ?_,
        .inr rfl⟩
      rw [ih]
      split_ifs
      · rw [hvar]
        simp
      · rw [hvar]
        simp
  | case5 var p args _ _ _ ih =>
      obtain ⟨rest, ih, -⟩ := ih
      obtain ⟨mid, hmid⟩ := putChars_append q false (var ++ [' ']) p
      refine ⟨' ' :: mid ++ rest, ?_, .inr rfl⟩
      rw [ih, hmid]
      simp

theorem skipTo_append {stopToken : Char} {name rest : List Char} (h : stopToken ∉ name) :
    skipTo stopToken (name ++ stopToken :: rest) = some rest := by
  induction name with
  | nil => simp [skipTo]
  | cons c name ih =>
      obtain ⟨hc, hname⟩ := not_or.mp (mt List.mem_cons.mpr h)
      rw [List.cons_append, skipTo, if_neg (Ne.symm hc), ih hname]

variable {name rest : List Char}

/-- Neither kind of quote is in the text. -/
def Unquoted (text : List Char) : Prop := '"' ∉ text ∧ '\'' ∉ text

theorem read_plain (hq : Unquoted name) (hb : ' ' ∉ name) :
    skipTo (stopToken (name ++ ' ' :: rest)) (name ++ ' ' :: rest) = some rest := by
  have hstop : stopToken (name ++ ' ' :: rest) = ' ' := by
    cases name with
    | nil => rfl
    | cons c name =>
        obtain ⟨h1, h2⟩ := hq
        simp only [List.mem_cons, not_or] at h1 h2
        exact if_neg (not_or.mpr ⟨Ne.symm h1.1, Ne.symm h2.1⟩)
  rw [hstop, skipTo_append hb]

theorem startText_cmdline (doscmd cmdline : List Char) :
    startText 127 doscmd (some cmdline) = skipTo (stopToken cmdline) cmdline := rfl

/-- Only the first quote is skipped. -/
theorem read_quoted :
    skipTo (stopToken ('"' :: (name ++ rest))) ('"' :: (name ++ rest)) = some (name ++ rest) := rfl

theorem mem_dosSlashes {c : Char} (h1 : c ≠ '/') (h2 : c ≠ '\\') :
    c ∈ dosSlashes name ↔ c ∈ name := by
  unfold dosSlashes
  rw [List.mem_map]
  constructor
  · rintro ⟨d, hd, rfl⟩
    split_ifs at h1 h2 ⊢
    · exact absurd rfl h2
    · exact hd
  · intro h
    exact ⟨c, h, if_neg h1⟩

theorem peName_eq (program : List Char) : peName program = quoteName (dosSlashes program) := by
  have hmem : ' ' ∈ dosSlashes program ↔ ' ' ∈ program := mem_dosSlashes (by decide) (by decide)
  unfold peName quoteName
  by_cases hb : ' ' ∈ program
  · rw [if_pos hb, if_pos (hmem.mpr hb)]
    simp [dosSlashes]
  · rw [if_neg hb, if_neg (mt hmem.mp hb)]

theorem pe_tail_eq (program : List Char) (args : List (List Char)) (q : Quoting)
    (h : cmdlenLimit < ((peVar program args q).drop (cmdlineStr ++ peName program).length).length) :
    ∃ rest, (peVar program args q).drop (cmdlineStr ++ peName program).length = ' ' :: rest ∧
      peVar program args q = cmdlineStr ++ (peName program ++ ' ' :: rest) := by
  obtain ⟨rest, hrest, hblank⟩ := putArgs_append q (cmdlineStr ++ peName program) args
  unfold peVar at h ⊢
  rw [hrest, List.drop_left] at h ⊢
  rcases hblank with rfl | hblank
  · exact absurd h (by simp)
  · obtain ⟨r, rfl⟩ := List.head?_eq_some_iff.mp hblank
    exact ⟨r, rfl, List.append_assoc _ _ _⟩

theorem cmdlineVar_eq {e : Exec} {var : List Char} (h : e.cmdlineVar = some var) :
    cmdlenLimit < e.tail.length ∧ ∃ name, (' ' ∈ name ↔ ' ' ∈ e.name) ∧
      (Unquoted e.name → Unquoted name) ∧ var =
      cmdlineStr ++ (quoteName name ++ ' ' :: e.arguments) := by
  cases e with
  | pe program args inSystem dosShell unixyShell =>
      rw [Exec.cmdlineVar] at h
      split_ifs at h with hlen
      refine ⟨hlen, dosSlashes program, mem_dosSlashes (by decide) (by decide), ?_, ?_⟩
      · rintro ⟨h1, h2⟩
        exact ⟨mt (mem_dosSlashes (by decide) (by decide)).mp h1,
          mt (mem_dosSlashes (by decide) (by decide)).mp h2⟩
      · cases h
        obtain ⟨rest, htail, hvar⟩ := pe_tail_eq program args _ hlen
        rw [hvar, peName_eq, Exec.arguments, Exec.tail, htail]
        rfl
  | command comspec program realProgram args inSystem shellLimit =>
      rw [Exec.cmdlineVar] at h
      split_ifs at h with hlen
      cases h
      exact ⟨hlen, comspec, Iff.rfl, id, by simp [Exec.arguments]⟩

variable {e : Exec} {var : List Char}

theorem header_of_var (hvar : e.cmdlineVar = some var) (hlen : cmdlenLimit < e.tail.length) :
    e.header = 127 := by
  rw [Exec.header, if_pos hlen, hvar]
  rfl

theorem reads_of_plain (hvar : e.cmdlineVar = some var) (hname : Unquoted e.name)
    (hb : ' ' ∉ e.name) : e.Reads var := by
  obtain ⟨hlen, name, hblank, hquote, rfl⟩ := cmdlineVar_eq hvar
  have hb : ' ' ∉ name := mt hblank.mp hb
  refine ⟨_, e.arguments, rfl, ?_, .inl rfl⟩
  rw [header_of_var hvar hlen, startText_cmdline, quoteName, if_neg hb]
  exact read_plain (hquote hname) hb

theorem not_reads_of_blank (hvar : e.cmdlineVar = some var) (hb : ' ' ∈ e.name) :
    ¬ e.Reads var := by
  obtain ⟨hlen, name, hblank, -, rfl⟩ := cmdlineVar_eq hvar
  rintro ⟨value, text, hvalue, htext, harg⟩
  have hvalue := List.append_cancel_left hvalue
  rw [quoteName, if_pos (hblank.mpr hb), List.cons_append, List.append_assoc] at hvalue
  subst hvalue
  rw [header_of_var hvar hlen, startText_cmdline, read_quoted] at htext
  cases htext
  have hlength := harg.imp (congrArg List.length) (congrArg List.length)
  simp only [List.length_append, List.length_cons, List.length_nil] at hlength
  omega

/-- With a name without quotes, the child finds the arguments exactly if the
name has no blank. -/
theorem read_arguments_iff (e : Exec) (var : List Char) (hvar : e.cmdlineVar = some var)
    (hname : Unquoted e.name) : e.Reads var ↔ ' ' ∉ e.name :=
  ⟨fun h hb => not_reads_of_blank hvar hb h, reads_of_plain hvar hname⟩

/-- An argument of 150 characters. -/
def longArg : List Char := List.replicate 150 'x'

/-- `p` with one long argument, not run by `system`. -/
def longCall (program : List Char) : Exec := .pe program [longArg] false false false

theorem longCall_reads :
    ∃ var, (longCall ['p']).cmdlineVar = some var ∧ (longCall ['p']).Reads var := by
  refine ⟨cmdlineStr ++ ('p' :: ' ' :: longArg), by decide +kernel, ?_⟩
  exact (read_arguments_iff _ _ (by decide +kernel) ⟨by decide, by decide⟩).mpr (by decide)

/-- The blank in the name makes the child read the rest of the name as an argument. -/
theorem longCall_blank :
    ∃ var, (longCall ['p', ' ', 'q']).cmdlineVar = some var ∧
    Unquoted (longCall ['p', ' ', 'q']).name ∧
      ¬ (longCall ['p', ' ', 'q']).Reads var := by
  refine ⟨cmdlineStr ++ ('"' :: 'p' :: ' ' :: 'q' :: '"' :: ' ' :: longArg), by decide +kernel,
    ⟨by decide, by decide⟩, ?_⟩
  exact not_reads_of_blank (by decide +kernel) (by decide)

end DjgppLibc.DosExec
