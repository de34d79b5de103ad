import DjgppLibc.DosExecDirect

/-!
# The command line of `__dosexec_command_exec` (`dos/process/dosexec.c`)

The buffer `cmdline` has twice the length of every argument and a blank for each.
Quoting can take more: an argument gets two quotes, and a redirection character
that COMMAND.COM sees outside of quotes gets two more. The space for `argv[0]`,
which is not put there, makes up for some of it. `commandLine` is what ends up in
the buffer.
-/
namespace DjgppLibc.DosExec

open LoggedMemory

/-- The buffer and where its NUL is, which `strcat` and `strlen` look for. -/
structure Cmdline where
  mem : LoggedMemory Char
  len : ℤ

def Cmdline.strcat (b : Cmdline) (s : List Char) : Cmdline :=
  ⟨putText b.mem b.len (s ++ ['\x00']), b.len + s.length⟩

/-- The loop over the characters of an argument in quotes, with the pointer `d`. -/
def putQuoted : Bool → List Char → LoggedMemory Char × ℤ → LoggedMemory Char × ℤ
  | _, [], (v, d) => (v, d)
  | outsideQuote, c :: s, (v, d) =>
      if c = '"' then putQuoted (!outsideQuote) s (putText v d ['\\', c], d + 2)
      else if outsideQuote ∧ (c = '|' ∨ c = '<' ∨ c = '>') then
        putQuoted outsideQuote s (putText v d ['"', c, '"'], d + 3)
      else if c = '%' then putQuoted outsideQuote s (putText v d ['%', c], d + 2)
      else putQuoted outsideQuote s (v.poke d c, d + 1)

def catArg (inSystem : Bool) (b : Cmdline) (arg : List Char) : Cmdline :=
  let b := b.strcat [' ']
  if ¬ inSystem ∧ arg.any isSpecial then
    let (v, d) := putQuoted false arg (b.mem.poke b.len '"', b.len + 1)
    ⟨putText v d ['"', '\x00'], d + 1⟩
  else b.strcat arg

/-- `/c` and the program, in quotes if it has white space. -/
def startCmdline (program realProgram : List Char) (junk : ℤ → Char) : Cmdline :=
  let wasQuoted := decide (' ' ∈ realProgram ∨ '\t' ∈ realProgram)
  let v := putText ⟨junk, []⟩ 0 ['/', 'c', ' ', '\x00']
  let v := if wasQuoted then v.poke 3 '"' else v
  let name := commandName program 0 realProgram
  let start : ℤ := if wasQuoted then 4 else 3
  let v := putText v start name
  let last := start + name.length
  if wasQuoted then ⟨(v.poke last '"').poke (last + 1) '\x00', last + 1⟩
    else ⟨v.poke last '\x00', last⟩

def comspecIn (envp : List (List Char)) : Option (List Char) :=
  let name := ['C', 'O', 'M', 'S', 'P', 'E', 'C', '=']
  (envp.filter name.isPrefixOf).getLast?.map (List.drop 8)

def comspec (envp environ : List (List Char)) : List Char :=
  ((comspecIn envp).orElse fun _ => comspecIn environ).getD
    ['c', ':', '\\', 'c', 'o', 'm', 'm', 'a', 'n', 'd', '.', 'c', 'o', 'm']

def cmdlineLimit (v : DosVersion) (shell : List Char) : ℕ :=
  if shellCmdlineLimit v shell = 0 then cmdlenLimit else shellCmdlineLimit v shell

/-- The arguments of `__dosexec_command_exec`, with what `program` is linked to. -/
structure CommandCall where
  program : List Char
  realProgram : List Char
  argv0 : List Char
  args : List (List Char)
  inSystem : Bool
  envp : List (List Char)
  environ : List (List Char)
  version : DosVersion

/-- `cmdlen` -/
def CommandCall.cmdlen (c : CommandCall) : ℕ :=
  c.realProgram.length + 4 + 2 + ((c.argv0 :: c.args).map fun p => 2 * p.length + 1).sum

def CommandCall.cmdline (c : CommandCall) (junk : ℤ → Char) : Cmdline :=
  c.args.foldl (catArg c.inSystem) (startCmdline c.program c.realProgram junk)

/-- The buffer when it is given to `direct_exec_tail`. -/
def CommandCall.buffer (c : CommandCall) (junk : ℤ → Char) : LoggedMemory Char :=
  let b := c.cmdline junk
  if b.len > cmdlenLimit ∧ b.len > cmdlineLimit c.version (comspec c.envp c.environ) then
    b.mem.poke cmdlenLimit '\x00'
  else b.mem

structure Cmdline.Holds (v : LoggedMemory Char) (b : Cmdline) (s : List Char) : Prop where
  fills : Fills v b.mem 0 (s ++ ['\x00'])
  len : b.len = s.length

variable {v v' : LoggedMemory Char} {b : Cmdline} {s t p : List Char} {a d : ℤ}

theorem Cmdline.Holds.strcat (h : Cmdline.Holds v b s) (t : List Char) :
    Cmdline.Holds v (b.strcat t) (s ++ t) := by
  refine ⟨?_, ?_⟩
  · rw [List.append_assoc, Cmdline.strcat, h.len]
    refine h.fills.replace ?_ (by simp)
    rw [Int.zero_add]
    exact fills_putText _ _ _
  · rw [Cmdline.strcat, h.len, List.length_append]
    rfl

/-- The characters between the quotes, without the last quote. -/
theorem putQuoted_spec (outsideQuote : Bool) (p : List Char) (v v' : LoggedMemory Char) (d : ℤ)
    (s : List Char)
    (h : Fills v v' 0 s) (hd : d = s.length) :
    ∃ t, quoteArg outsideQuote p = t ++ ['"'] ∧ Fills v (putQuoted outsideQuote p (v', d)).1 0
    (s ++ t) ∧
      (putQuoted outsideQuote p (v', d)).2 = (s ++ t).length := by
  induction p generalizing outsideQuote v' d s with
  | nil => exact ⟨[], rfl, by rwa [List.append_nil], by rwa [List.append_nil]⟩
  | cons c p ih =>
      have hnext : ∀ (outside : Bool) (u : List Char),
          ∃ t, u ++ quoteArg outside p = t ++ ['"'] ∧
            Fills v (putQuoted outside p (putText v' d u, d + u.length)).1 0 (s ++ t) ∧
            (putQuoted outside p (putText v' d u, d + u.length)).2 = (s ++ t).length := by
        intro outside u
        have hfills : Fills v (putText v' d u) 0 (s ++ u) := by
          refine h.append ?_
          rw [Int.zero_add, ← hd]
          exact fills_putText _ _ _
        obtain ⟨t, ht, hf, hl⟩ := ih outside _ (d + u.length) (s ++ u) hfills
          (by rw [hd, List.length_append]; rfl)
        refine ⟨u ++ t, ?_, ?_, ?_⟩
        · rw [ht, List.append_assoc]
        · rwa [List.append_assoc] at hf
        · rwa [List.append_assoc] at hl
      rw [quoteArg, putQuoted]
      split_ifs
      · exact hnext _ ['\\', c]
      · exact hnext _ ['"', c, '"']
      · exact hnext _ ['%', c]
      · exact hnext _ [c]

theorem length_snoc (s : List Char) (c : Char) : ((s ++ [c]).length : ℤ) = s.length + 1 := by
  rw [List.length_append]
  rfl

theorem catArg_spec (inSystem : Bool) (h : Cmdline.Holds v b s) (p : List Char) :
    Cmdline.Holds v (catArg inSystem b p) (s ++ commandArgs inSystem [p]) := by
  have hblank := h.strcat [' ']
  have hargs : ∀ t, s ++ ' ' :: t = s ++ [' '] ++ t := fun t => by rw [List.append_assoc]; rfl
  rw [catArg, commandArgs, List.flatMap_singleton, hargs]
  split_ifs with hspecial
  · have hquote : Fills v ((b.strcat [' ']).mem.poke (b.strcat [' ']).len '"') 0
        (s ++ [' '] ++ ['"']) := by
      rw [hblank.len]
      refine hblank.fills.replace ?_ (Nat.le_refl _)
      rw [Int.zero_add]
      exact fills_poke _ _ _
    obtain ⟨t, ht, hfills, hlen⟩ := putQuoted_spec false p v _ ((b.strcat [' ']).len + 1) _ hquote
      (by rw [hblank.len]; exact (length_snoc _ _).symm)
    have hwhole : s ++ [' '] ++ '"' :: quoteArg false p = s ++ [' '] ++ ['"'] ++ t ++ ['"'] := by
      rw [ht]
      simp
    rw [hwhole]
    refine ⟨?_, ?_⟩
    · rw [List.append_assoc _ ['"'] ['\x00']]
      refine hfills.append ?_
      rw [Int.zero_add, ← hlen]
      exact fills_putText _ _ _
    · dsimp only
      rw [hlen, length_snoc]
  · exact hblank.strcat p

theorem commandArgs_cons (inSystem : Bool) (p : List Char) (args : List (List Char)) :
    commandArgs inSystem (p :: args) = commandArgs inSystem [p] ++ commandArgs inSystem args := by
  rw [commandArgs, commandArgs, commandArgs, List.flatMap_cons, List.flatMap_singleton]

theorem foldl_catArg (inSystem : Bool) (args : List (List Char)) (h : Cmdline.Holds v b s) :
    Cmdline.Holds v (args.foldl (catArg inSystem) b) (s ++ commandArgs inSystem args) := by
  induction args generalizing b s with
  | nil =>
      rw [commandArgs, List.flatMap_nil, List.append_nil]
      exact h
  | cons p args ih =>
      rw [List.foldl_cons, commandArgs_cons, ← List.append_assoc]
      exact ih (catArg_spec inSystem h p)

/-- What stands in front of the arguments. -/
def commandStart (program realProgram : List Char) : List Char :=
  let quote := if ' ' ∈ realProgram ∨ '\t' ∈ realProgram then ['"'] else []
  ['/', 'c', ' '] ++ quote ++ commandName program 0 realProgram ++ quote

theorem startCmdline_spec (program realProgram : List Char) (junk : ℤ → Char) :
    Cmdline.Holds ⟨junk, []⟩ (startCmdline program realProgram junk)
    (commandStart program realProgram) := by
  have hc : Fills ⟨junk, []⟩ (putText ⟨junk, []⟩ 0 ['/', 'c', ' ', '\x00']) 0
    (['/', 'c', ' '] ++ ['\x00']) :=
    fills_putText _ _ _
  obtain ⟨name, hname⟩ : ∃ name, name = commandName program 0 realProgram := ⟨_, rfl⟩
  unfold startCmdline commandStart
  dsimp only
  rw [← hname]
  by_cases hq : ' ' ∈ realProgram ∨ '\t' ∈ realProgram
  · simp only [hq, decide_true, if_true]
    have hquote := hc.replace (fills_poke _ 3 '"') (Nat.le_refl _)
    have hprog := hquote.append (fills_putText _ 4 name)
    have hlast : (4 : ℤ) + name.length = 0 + (['/', 'c', ' '] ++ ['"'] ++ name).length := by
      simp only [List.length_append, List.length_cons, List.length_nil]
      omega
    have hend := hprog.append (hlast ▸ fills_poke _ (4 + name.length) '"')
    refine ⟨hend.append ?_, ?_⟩
    · rw [length_snoc, ← Int.add_assoc, ← hlast]
      exact fills_poke _ _ _
    · rw [length_snoc, ← Int.zero_add ((['/', 'c', ' '] ++ ['"'] ++ name).length : ℤ), ← hlast]
  · simp only [hq, decide_false, Bool.false_eq_true, if_false, List.append_nil]
    refine ⟨?_, ?_⟩
    · rw [List.append_assoc]
      exact hc.replace ((fills_putText _ 3 name).append (fills_poke _ _ '\x00')) (by simp)
    · simp only [List.length_append, List.length_cons, List.length_nil]
      omega

theorem CommandCall.holds_cmdline (c : CommandCall) (junk : ℤ → Char) :
    Cmdline.Holds ⟨junk, []⟩ (c.cmdline junk) (commandLine c.program c.realProgram
      c.inSystem c.args) :=
  foldl_catArg c.inSystem c.args (startCmdline_spec c.program c.realProgram junk)

/-- Cutting the line off is a store to a place of it. -/
theorem CommandCall.inside_buffer (c : CommandCall) (junk : ℤ → Char) (n : ℕ) :
    (c.buffer junk).Inside 0 n ↔
      (commandLine c.program c.realProgram c.inSystem c.args).length + 1 ≤ n := by
  have h := c.holds_cmdline junk
  have hinside := h.fills.inside_iff (inside_nil junk 0 n) (by simp)
  rw [length_snoc] at hinside
  have hline : (c.cmdline junk).mem.Inside 0 n ↔
      (commandLine c.program c.realProgram c.inSystem c.args).length + 1 ≤ n := by
    rw [hinside]
    omega
  unfold CommandCall.buffer
  dsimp only
  split_ifs with hcut
  · rw [← hline]
    have hlen := h.len
    constructor
    · exact fun hin x hx => hin x (List.mem_cons_of_mem _ hx)
    · intro hin x hx
      rcases List.mem_cons.mp hx with rfl | hx
      · have := hline.mp hin
        omega
      · exact hin x hx
  · exact hline

/-- The redirection characters behind an odd number of quotes. -/
def bareRedirections : Bool → List Char → ℕ
  | _, [] => 0
  | outside, c :: p =>
      (if outside ∧ (c = '|' ∨ c = '<' ∨ c = '>') then 1 else 0) +
        bareRedirections (if c = '"' then !outside else outside) p

def quotingCost (inSystem : Bool) (p : List Char) : ℕ :=
  if ¬ inSystem ∧ p.any isSpecial then 2 + p.count '"' + p.count '%' + 2 * bareRedirections false p
  else 0

theorem length_quoteArg (outside : Bool) (p : List Char) :
    (quoteArg outside p).length =
      p.length + 1 + p.count '"' + p.count '%' + 2 * bareRedirections outside p := by
  induction p generalizing outside with
  | nil => rfl
  | cons c p ih =>
      rw [quoteArg, bareRedirections, List.count_cons, List.count_cons, List.length_cons]
      by_cases hquote : c = '"'
      · subst hquote
        rw [if_pos rfl, List.length_cons, List.length_cons, ih]
        simp
        omega
      · rw [if_neg hquote, if_neg hquote]
        by_cases hbare : outside = true ∧ (c = '|' ∨ c = '<' ∨ c = '>')
        · have hpercent : c ≠ '%' := by
            rintro rfl
            simp at hbare
          rw [if_pos hbare, if_pos hbare, List.length_cons, List.length_cons, List.length_cons, ih]
          simp only [beq_iff_eq, hquote, hpercent, if_false]
          omega
        · rw [if_neg hbare, if_neg hbare]
          by_cases hpercent : c = '%'
          · subst hpercent
            rw [if_pos rfl, List.length_cons, List.length_cons, ih]
            simp
            omega
          · rw [if_neg hpercent, List.length_cons, ih]
            simp only [beq_iff_eq, hquote, hpercent, if_false]
            omega

theorem length_commandArgs (inSystem : Bool) (args : List (List Char)) :
    (commandArgs inSystem args).length =
      (args.map fun p => p.length + 1).sum + (args.map (quotingCost inSystem)).sum := by
  induction args with
  | nil => rfl
  | cons p args ih =>
      rw [commandArgs_cons, List.length_append, ih, commandArgs, List.flatMap_singleton,
        List.map_cons,
        List.map_cons, List.sum_cons, List.sum_cons, quotingCost]
      split_ifs
      · rw [List.length_cons, List.length_cons, length_quoteArg]
        omega
      · rw [List.length_cons]
        omega

theorem length_commandName (program : List Char) (i : ℕ) (s : List Char) :
    (commandName program i s).length = s.length := by
  induction s generalizing i with
  | nil => rfl
  | cons c s ih =>
      rw [commandName]
      split_ifs
      · rw [List.length_cons, List.length_cons, ih]
      · rw [List.length_cons, List.length_cons, ih]
      · rfl

def nameQuotes (realProgram : List Char) : ℕ := if ' ' ∈ realProgram ∨
    '\t' ∈ realProgram then 2 else 0

theorem length_commandLine (c : CommandCall) :
    (commandLine c.program c.realProgram c.inSystem c.args).length =
      3 + nameQuotes c.realProgram + c.realProgram.length +
        ((c.args.map fun p => p.length + 1).sum + (c.args.map (quotingCost c.inSystem)).sum) := by
  have hquotes : nameQuotes c.realProgram =
      2 * (if ' ' ∈ c.realProgram ∨ '\t' ∈ c.realProgram then ['"'] else []).length := by
    rw [nameQuotes]
    split_ifs <;> rfl
  rw [commandLine]
  simp only [List.length_append, length_commandName, length_commandArgs, List.length_cons,
    List.length_nil]
  omega

theorem sum_map_twice (args : List (List Char)) :
    (args.map fun p => 2 * p.length + 1).sum =
      (args.map fun p => p.length + 1).sum + (args.map List.length).sum := by
  induction args with
  | nil => rfl
  | cons p args ih =>
      simp only [List.map_cons, List.sum_cons, ih]
      omega

/-- The buffer is large enough exactly if quoting adds no more to the arguments than
their own length and the space for `argv[0]`. -/
theorem command_inside_iff (c : CommandCall) (junk : ℤ → Char) :
    (c.buffer junk).Inside 0 c.cmdlen ↔
      nameQuotes c.realProgram + (c.args.map (quotingCost c.inSystem)).sum ≤
        3 + 2 * c.argv0.length + (c.args.map List.length).sum := by
  rw [c.inside_buffer, length_commandLine, CommandCall.cmdlen, List.map_cons, List.sum_cons,
    sum_map_twice]
  omega

/-- Three percent signs. -/
def percentCall : CommandCall where
  program := ['p']
  realProgram := ['p']
  argv0 := ['p']
  args := [['%'], ['%'], ['%']]
  inSystem := false
  envp := []
  environ := []
  version := ⟨7, true⟩

/-- The NUL behind the last argument is outside. -/
theorem percentCall_outside : ¬ (percentCall.buffer fun _ => 'z').Inside 0 percentCall.cmdlen := by
  rw [percentCall.inside_buffer]
  decide +kernel

end DjgppLibc.DosExec
