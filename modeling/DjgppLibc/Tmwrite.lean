import Mathlib.Data.List.Infix

/-!
# Console commands

`parse_console_command` and the loop of `__libc_termios_write_tty`. The parser is a switch
whose cases fall through, so each case here is a function that calls the next one. The
events are the calls of `execute_console_command` and the characters that are not part of a
command; what becomes of them on the screen does not change what is parsed.
-/
namespace DjgppLibc.Termios

abbrev Byte := BitVec 8

def NPAR : ℕ := 16

/-- `enum cmd_parser_states` -/
inductive CmdState
  | needEsc
  | haveEsc
  | haveLbracket
  | haveArg
  | haveCmd
deriving DecidableEq

structure Parser where
  cmdState : CmdState
  args : Vector (BitVec 32) NPAR
  argCount : Byte
  ignoreCmd : Bool
deriving DecidableEq

inductive Event
  /-- `execute_console_command (cmd, argc, args)`, with the arguments that are there -/
  | command (cmd argc : Byte) (args : List (BitVec 32))
  | literal (ch : Byte)
deriving DecidableEq

def isdigit (ch : Byte) : Bool := 0x30 ≤ ch.toNat && ch.toNat ≤ 0x39

def isalpha (ch : Byte) : Bool :=
  0x41 ≤ ch.toNat && ch.toNat ≤ 0x5a || 0x61 ≤ ch.toNat && ch.toNat ≤ 0x7a

/-- `is_command_char` -/
def isCommandChar (ch : Byte) : Bool := isalpha ch || ch = 0x40 || ch = 0x60

/-- How a turn of the loop in the parser ends: with `break` or `return`, in front of the
rest of the buffer. -/
inductive Turn
  | again (st : Parser) (rest : List Byte)
  | ret (st : Parser) (rest : List Byte) (events : List Event)

/-- `args[arg_count] *= 10; args[arg_count] += *ptr - '0'`, inside the array -/
def addDigit (st : Parser) (ch : Byte) : Option Parser :=
  if h : st.argCount.toNat < NPAR then
    some { st with args := st.args.set st.argCount.toNat (st.args[st.argCount.toNat] * 10 + (ch.setWidth 32 - 0x30)) h }
  else none

def digits (st : Parser) : List Byte → Option (Parser × List Byte)
  | [] => some (st, [])
  | ch :: rest =>
      if isdigit ch then do
        let st ← addDigit st ch
        digits st rest
      else some (st, ch :: rest)

/-- `case have_cmd` -/
def haveCmd (st : Parser) (ch : Byte) (rest : List Byte) : Turn :=
  .ret { st with cmdState := .needEsc, ignoreCmd := false } rest
    (if isCommandChar ch && !st.ignoreCmd then [.command ch st.argCount
      (st.args.toList.take st.argCount.toNat)]
    else [])

/-- `case have_arg` -/
def haveArg (st : Parser) (ch : Byte) (rest : List Byte) : Option Turn :=
  if isdigit ch then do
    let (st, rest) ← digits st (ch :: rest)
    return .again st rest
  else if ch = 0x3b then
    let argCount := st.argCount + 1
    if h : argCount.toNat < NPAR then
      some (.again { st with argCount := argCount, args := st.args.set argCount.toNat 0 h } rest)
    else some (.again { st with argCount := argCount } rest)
  else some (haveCmd { st with cmdState := .haveCmd, argCount := st.argCount + 1 } ch rest)

/-- `case have_lbracket` -/
def haveLbracket (st : Parser) (ch : Byte) (rest : List Byte) : Option Turn :=
  let st := { st with argCount := 0, args := st.args.set 0 0 }
  if isdigit ch then haveArg { st with cmdState := .haveArg } ch rest
  else if ch = 0x5b then some (.again { st with ignoreCmd := true } rest)
  else some (.again { st with cmdState := .haveCmd } (ch :: rest))

/-- `case have_esc` -/
def haveEsc (st : Parser) (ch : Byte) (rest : List Byte) : Option Turn :=
  if ch ≠ 0x5b then some (.ret { st with cmdState := .needEsc } (ch :: rest) [])
  else
    let st := { st with cmdState := .haveLbracket }
    match rest with
    | [] => some (.again st [])
    | ch :: rest => haveLbracket st ch rest

/-- `case need_esc` -/
def needEsc (st : Parser) (ch : Byte) (rest : List Byte) : Option Turn :=
  if ch ≠ 0x1b then some (.ret st (ch :: rest) [])
  else
    let st := { st with cmdState := .haveEsc }
    match rest with
    | [] => some (.again st [])
    | ch :: rest => haveEsc st ch rest

def turn (st : Parser) (ch : Byte) (rest : List Byte) : Option Turn :=
  match st.cmdState with
  | .needEsc => needEsc st ch rest
  | .haveEsc => haveEsc st ch rest
  | .haveLbracket => haveLbracket st ch rest
  | .haveArg => haveArg st ch rest
  | .haveCmd => some (haveCmd st ch rest)

/-- `parse_console_command`: the state, the rest of the buffer and the commands. Only the
turn that finds a command takes no byte. -/
def parseConsoleCommand : ℕ → Parser → List Byte → Option (Parser × List Byte × List Event)
  | _, st, [] => some (st, [], [])
  | 0, _, _ :: _ => none
  | fuel + 1, st, ch :: rest =>
      match turn st ch rest with
      | none => none
      | some (.again st rest) => parseConsoleCommand fuel st rest
      | some (.ret st rest events) => some (st, rest, events)

/-- The loop of `__libc_termios_write_tty`. -/
def writeLoop : ℕ → Parser → List Byte → Option (Parser × List Event)
  | _, st, [] => some (st, [])
  | 0, _, _ :: _ => none
  | fuel + 1, st, ch :: rest =>
      if ch = 0x1b ∨ st.cmdState ≠ .needEsc then do
        let (st, rest, events) ← parseConsoleCommand (rest.length + 2) st (ch :: rest)
        let (st, more) ← writeLoop fuel st rest
        return (st, events ++ more)
      else do
        let (st, more) ← writeLoop fuel st rest
        return (st, .literal ch :: more)

/-- `__libc_termios_write_tty`. A command can end without a byte of its own. -/
def writeTty (st : Parser) (buffer : List Byte) : Option (Parser × List Event) :=
  writeLoop (2 * buffer.length) st buffer

def writeAll : Parser → List (List Byte) → Option (Parser × List Event)
  | st, [] => some (st, [])
  | st, buffer :: buffers => do
      let (st, events) ← writeTty st buffer
      let (st, more) ← writeAll st buffers
      return (st, events ++ more)

def Parser.start : Parser := ⟨.needEsc, Vector.replicate NPAR 0, 0, false⟩

def finish (st : Parser) (ch : Byte) : Parser × List Event :=
  ({ st with cmdState := .needEsc, ignoreCmd := false },
    if isCommandChar ch && !st.ignoreCmd then [.command ch st.argCount
      (st.args.toList.take st.argCount.toNat)] else [])

def argStep (st : Parser) (ch : Byte) : Option (Parser × List Event) :=
  if isdigit ch then (addDigit st ch).map fun st => (st, [])
  else if ch = 0x3b then
    let argCount := st.argCount + 1
    if h : argCount.toNat < NPAR then
      some ({ st with argCount := argCount, args := st.args.set argCount.toNat 0 h }, [])
    else some ({ st with argCount := argCount }, [])
  else some (finish { st with argCount := st.argCount + 1 } ch)

def step (st : Parser) (ch : Byte) : Option (Parser × List Event) :=
  match st.cmdState with
  | .needEsc =>
      some (if ch = 0x1b then ({ st with cmdState := .haveEsc }, []) else (st, [.literal ch]))
  | .haveEsc =>
      some (if ch = 0x5b then ({ st with cmdState := .haveLbracket }, [])
        else if ch = 0x1b then (st, [])
        else ({ st with cmdState := .needEsc }, [.literal ch]))
  | .haveLbracket =>
      let st := { st with argCount := 0, args := st.args.set 0 0 }
      if isdigit ch then argStep { st with cmdState := .haveArg } ch
      else if ch = 0x5b then some ({ st with ignoreCmd := true }, [])
      else some (finish st ch)
  | .haveArg => argStep st ch
  | .haveCmd => some (finish st ch)

def emit (events : List Event) (r : Parser × List Event) : Parser × List Event :=
    (r.1, events ++ r.2)

def run : Parser → List Byte → Option (Parser × List Event)
  | st, [] => some (st, [])
  | st, ch :: rest => (step st ch).bind fun r => (run r.1 rest).map (emit r.2)

@[simp] theorem emit_nil (r : Parser × List Event) : emit [] r = r := rfl

theorem emit_emit (l l' : List Event) (r : Parser × List Event) :
    emit l (emit l' r) = emit (l ++ l') r := by
  simp [emit]

@[simp] theorem map_emit_nil (r : Option (Parser × List Event)) : r.map (emit []) = r := by
  cases r <;> rfl

theorem run_append (st : Parser) (l l' : List Byte) :
    run st (l ++ l') = (run st l).bind fun r => (run r.1 l').map (emit r.2) := by
  induction l generalizing st with
  | nil => simp [run]
  | cons ch l ih =>
    rw [List.cons_append, run, run]
    cases step st ch with
    | none => rfl
    | some r =>
      simp only [Option.bind_some, ih]
      cases run r.1 l with
      | none => rfl
      | some r' =>
        simp only [Option.map_some, Option.bind_some, Option.map_map, Function.comp_def, emit_emit]
        rfl

variable {st st' : Parser} {ch : Byte} {rest rest' : List Byte} {events : List Event}

def Turn.after : Turn → Option (Parser × List Event)
  | .again st rest => run st rest
  | .ret st rest events => (run st rest).map (emit events)

theorem addDigit_cmdState (h : addDigit st ch = some st') : st'.cmdState = st.cmdState := by
  unfold addDigit at h
  split at h
  · cases h
    rfl
  · cases h

theorem run_digits (hst : st.cmdState = .haveArg) (l : List Byte) :
    run st l = (digits st l).bind fun r => run r.1 r.2 := by
  induction l generalizing st with
  | nil => rfl
  | cons ch l ih =>
    rw [digits]
    by_cases hd : isdigit ch = true
    · rw [if_pos hd, run, step, hst]
      dsimp only
      rw [argStep, if_pos hd]
      cases hadd : addDigit st ch with
      | none => rfl
      | some st₁ => simpa using ih ((addDigit_cmdState hadd).trans hst)
    · rw [if_neg hd]
      rfl

theorem run_haveArg (hst : st.cmdState = .haveArg) :
    run st (ch :: rest) = (haveArg st ch rest).bind Turn.after := by
  unfold haveArg
  by_cases hd : isdigit ch = true
  · rw [if_pos hd, run_digits hst]
    cases digits st (ch :: rest) <;> rfl
  · rw [if_neg hd, run, step, hst]
    dsimp only
    rw [argStep, if_neg hd]
    by_cases hsep : ch = 0x3b
    · rw [if_pos hsep, if_pos hsep]
      dsimp only
      split <;> simp [Turn.after, hst]
    · rw [if_neg hsep, if_neg hsep]
      rfl

theorem run_haveLbracket (hst : st.cmdState = .haveLbracket) :
    run st (ch :: rest) = (haveLbracket st ch rest).bind Turn.after := by
  unfold haveLbracket
  by_cases hd : isdigit ch = true
  · dsimp only
    rw [if_pos hd, ← run_haveArg rfl, run, run, step, hst]
    dsimp only
    rw [if_pos hd]
    rfl
  · rw [run, step, hst]
    dsimp only
    rw [if_neg hd, if_neg hd]
    by_cases hb : ch = 0x5b
    · rw [if_pos hb, if_pos hb]
      simp [Turn.after]
    · rw [if_neg hb, if_neg hb]
      rfl

theorem run_haveEsc (hst : st.cmdState = .haveEsc) :
    run st (ch :: rest) = (haveEsc st ch rest).bind Turn.after := by
  unfold haveEsc
  by_cases hb : ch = 0x5b
  · have hstep : step st ch = some ({ st with cmdState := .haveLbracket }, []) := by
      rw [step, hst]
      simp [hb]
    rw [if_neg (not_not.2 hb), run, hstep]
    cases rest with
    | nil => rfl
    | cons ch' rest =>
      dsimp only
      rw [← run_haveLbracket rfl, Option.bind_some, map_emit_nil]
  · rw [if_pos hb, Option.bind_some, Turn.after, map_emit_nil]
    -- the byte is looked at again by the caller
    rw [run, run, step, step, hst]
    dsimp only
    rw [if_neg hb]
    by_cases he : ch = 0x1b
    · rw [if_pos he, if_pos he]
      simp only [← hst]
    · rw [if_neg he, if_neg he]

theorem run_needEsc (hst : st.cmdState = .needEsc) :
    run st (ch :: rest) = (needEsc st ch rest).bind Turn.after := by
  unfold needEsc
  by_cases he : ch = 0x1b
  · have hstep : step st ch = some ({ st with cmdState := .haveEsc }, []) := by
      rw [step, hst]
      simp [he]
    rw [if_neg (not_not.2 he), run, hstep]
    cases rest with
    | nil => rfl
    | cons ch' rest =>
      dsimp only
      rw [← run_haveEsc rfl, Option.bind_some, map_emit_nil]
  · rw [if_pos he, Option.bind_some, Turn.after, map_emit_nil]

theorem run_turn (st : Parser) (ch : Byte) (rest : List Byte) :
    run st (ch :: rest) = (turn st ch rest).bind Turn.after := by
  unfold turn
  cases hst : st.cmdState with
  | needEsc => exact run_needEsc hst
  | haveEsc => exact run_haveEsc hst
  | haveLbracket => exact run_haveLbracket hst
  | haveArg => exact run_haveArg hst
  | haveCmd =>
    rw [run, step, hst]
    rfl

def turnsLeft (st : Parser) : ℕ := if st.cmdState = .haveCmd then 0 else 1

theorem digits_length {l : List Byte} (h : digits st l = some (st', rest')) :
    rest'.length ≤ l.length ∧ st'.cmdState = st.cmdState := by
  induction l generalizing st with
  | nil =>
    cases h
    exact ⟨Nat.le_refl _, rfl⟩
  | cons ch l ih =>
    rw [digits] at h
    split at h
    · cases hadd : addDigit st ch with
      | none =>
        rw [hadd] at h
        cases h
      | some st₁ =>
        rw [hadd] at h
        obtain ⟨hlen, hstate⟩ := ih h
        exact ⟨Nat.le_succ_of_le hlen, hstate.trans (addDigit_cmdState hadd)⟩
    · cases h
      exact ⟨Nat.le_refl _, rfl⟩

def Takes (st : Parser) (l rest' : List Byte) : Prop :=
  rest'.length ≤ l.length ∧ (l.head? = some 0x1b → st.cmdState = .needEsc → rest'.length < l.length)

/-- A turn goes on behind the byte, in a state that goes on parsing, or with a command. -/
def Turn.Forward (st : Parser) (ch : Byte) (rest : List Byte) : Turn → Prop
  | .again st' rest' =>
      st'.cmdState ≠ .needEsc ∧ rest'.length + turnsLeft st' < (ch :: rest).length + turnsLeft st ∧
        Takes st (ch :: rest) rest'
  | .ret st' rest' _ => st'.cmdState = .needEsc ∧ Takes st (ch :: rest) rest'

theorem haveArg_forward {t : Turn} (hst : st.cmdState = .haveArg)
    (h : haveArg st ch rest = some t) :
    t.Forward st ch rest := by
  unfold haveArg at h
  split at h
  · rename_i hd
    rw [digits, if_pos hd] at h
    cases hadd : addDigit st ch with
    | none =>
      rw [hadd] at h
      cases h
    | some st₁ =>
      have hst₁ := addDigit_cmdState hadd
      rw [hadd] at h
      dsimp only [Option.bind_eq_bind, Option.bind_some] at h
      cases hdig : digits st₁ rest with
      | none =>
        rw [hdig] at h
        cases h
      | some r =>
        rw [hdig] at h
        cases h
        obtain ⟨hlen, hstate⟩ := digits_length hdig
        simp [Turn.Forward, Takes, turnsLeft, hstate, hst₁, hst]
        omega
  · split at h
    · dsimp only at h
      split at h <;> cases h <;> simp [Turn.Forward, Takes, turnsLeft, hst]
    · cases h
      simp [Turn.Forward, Takes, haveCmd]

theorem haveLbracket_forward {t : Turn} (hst : st.cmdState = .haveLbracket)
    (h : haveLbracket st ch rest = some t) :
    t.Forward st ch rest := by
  unfold haveLbracket at h
  dsimp only at h
  split at h
  · have hforward := haveArg_forward rfl h
    cases t with
    | again st' rest' => simpa [Turn.Forward, Takes, turnsLeft, hst] using hforward
    | ret st' rest' events => simpa [Turn.Forward, Takes, hst] using hforward
  · split at h
    · cases h
      simp [Turn.Forward, Takes, turnsLeft, hst]
    · cases h
      simp [Turn.Forward, Takes, turnsLeft, hst]

theorem haveEsc_forward {t : Turn} (hst : st.cmdState = .haveEsc)
    (h : haveEsc st ch rest = some t) :
    t.Forward st ch rest := by
  unfold haveEsc at h
  split at h
  · cases h
    simp [Turn.Forward, Takes, hst]
  · cases rest with
    | nil =>
      cases h
      simp [Turn.Forward, Takes, turnsLeft, hst]
    | cons ch' rest =>
      have hforward := haveLbracket_forward rfl h
      cases t with
      | again st' rest' =>
        simp [Turn.Forward, Takes, turnsLeft, hst] at hforward ⊢
        exact ⟨hforward.1, by omega⟩
      | ret st' rest' events =>
        simp [Turn.Forward, Takes, hst] at hforward ⊢
        exact ⟨hforward.1, by omega⟩

theorem needEsc_forward {t : Turn} (hst : st.cmdState = .needEsc) (he : ch = 0x1b)
    (h : needEsc st ch rest = some t) :
    t.Forward st ch rest := by
  unfold needEsc at h
  rw [if_neg (not_not.2 he)] at h
  cases rest with
  | nil =>
    cases h
    simp [Turn.Forward, Takes, turnsLeft, hst]
  | cons ch' rest =>
    have hforward := haveEsc_forward rfl h
    cases t with
    | again st' rest' =>
      simp [Turn.Forward, Takes, turnsLeft, hst] at hforward ⊢
      exact ⟨hforward.1, by omega⟩
    | ret st' rest' events =>
      simp [Turn.Forward, Takes, hst] at hforward ⊢
      exact ⟨hforward.1, by omega, fun _ => by omega⟩

theorem turn_forward {t : Turn} (he : ch = 0x1b ∨ st.cmdState ≠ .needEsc)
    (h : turn st ch rest = some t) :
    t.Forward st ch rest := by
  unfold turn at h
  cases hst : st.cmdState with
  | needEsc =>
    rw [hst] at h he
    exact needEsc_forward hst (he.resolve_right (not_not.2 rfl)) h
  | haveEsc =>
    rw [hst] at h
    exact haveEsc_forward hst h
  | haveLbracket =>
    rw [hst] at h
    exact haveLbracket_forward hst h
  | haveArg =>
    rw [hst] at h
    exact haveArg_forward hst h
  | haveCmd =>
    rw [hst] at h
    cases h
    simp [Turn.Forward, Takes, haveCmd]

theorem run_parse {fuel : ℕ} {l : List Byte} (hfuel : l.length + turnsLeft st ≤ fuel)
    (he : l.head? = some 0x1b ∨ st.cmdState ≠ .needEsc) :
    run st l = (parseConsoleCommand fuel st l).bind fun r => (run r.1 r.2.1).map (emit r.2.2) := by
  induction fuel generalizing st l with
  | zero =>
    have hl : l = [] := by
      rw [← List.length_eq_zero_iff]
      omega
    rw [hl]
    rfl
  | succ fuel ih =>
    cases l with
    | nil => rfl
    | cons ch rest =>
      rw [List.head?_cons, Option.some_inj] at he
      rw [run_turn, parseConsoleCommand]
      cases ht : turn st ch rest with
      | none => rfl
      | some t =>
        have hforward := turn_forward he ht
        cases t with
        | again st' rest' =>
          obtain ⟨hstate, hlen⟩ := hforward
          exact ih (by omega) (.inr hstate)
        | ret st' rest' events => rfl

theorem parse_forward {fuel : ℕ} {l : List Byte} (he : l.head? = some 0x1b ∨ st.cmdState ≠ .needEsc)
    (h : parseConsoleCommand fuel st l = some (st', rest', events)) :
    rest' = [] ∨ st'.cmdState = .needEsc ∧ Takes st l rest' := by
  induction fuel generalizing st l with
  | zero =>
    cases l with
    | nil =>
      cases h
      exact .inl rfl
    | cons ch rest => cases h
  | succ fuel ih =>
    cases l with
    | nil =>
      cases h
      exact .inl rfl
    | cons ch rest =>
      rw [List.head?_cons, Option.some_inj] at he
      rw [parseConsoleCommand] at h
      cases ht : turn st ch rest with
      | none =>
        rw [ht] at h
        cases h
      | some t =>
        have hforward := turn_forward he ht
        rw [ht] at h
        cases t with
        | again st₁ rest₁ =>
          obtain ⟨hstate, -, hle, hlt⟩ := hforward
          obtain hnil | ⟨hst', hle', -⟩ := ih (.inr hstate) h
          · exact .inl hnil
          · exact .inr ⟨hst', Nat.le_trans hle' hle, fun hesc hst =>
              Nat.lt_of_le_of_lt hle' (hlt hesc hst)⟩
        | ret st₁ rest₁ events₁ =>
          cases h
          exact .inr hforward

theorem run_writeLoop {fuel : ℕ} {l : List Byte}
    (hfuel : 2 * l.length ≤ fuel + if st.cmdState = .needEsc then 1 else 0) :
    writeLoop fuel st l = run st l := by
  induction fuel generalizing st l with
  | zero =>
    have hl : l = [] := by
      rw [← List.length_eq_zero_iff]
      split at hfuel <;> omega
    rw [hl]
    rfl
  | succ fuel ih =>
    cases l with
    | nil => rfl
    | cons ch rest =>
      rw [writeLoop]
      split
      · rename_i he
        have he' : (ch :: rest).head? = some 0x1b ∨ st.cmdState ≠ .needEsc := by simpa using he
        have hturns : (ch :: rest).length + turnsLeft st ≤ rest.length + 2 := by
          unfold turnsLeft
          split <;> simp
        rw [run_parse hturns he']
        cases hparse : parseConsoleCommand (rest.length + 2) st (ch :: rest) with
        | none => rfl
        | some r =>
          obtain ⟨st', rest', events⟩ := r
          have hloop : writeLoop fuel st' rest' = run st' rest' := by
            apply ih
            obtain hnil | ⟨hst', hle, hlt⟩ := parse_forward he' hparse
            · simp [hnil]
            · rw [if_pos hst']
              by_cases hst : st.cmdState = .needEsc
              · have := hlt (he'.resolve_right (not_not.2 hst)) hst
                rw [if_pos hst] at hfuel
                omega
              · rw [if_neg hst] at hfuel
                omega
          dsimp only [Option.bind_eq_bind, Option.bind_some]
          rw [hloop]
          cases run st' rest' <;> rfl
      · rename_i he
        obtain ⟨hne, hst⟩ := not_or.1 he
        have hst := not_not.1 hst
        have hloop : writeLoop fuel st rest = run st rest := by
          apply ih
          rw [if_pos hst] at hfuel ⊢
          rw [List.length_cons] at hfuel
          omega
        rw [hloop, run, step, hst]
        dsimp only
        rw [if_neg hne, Option.bind_some]
        dsimp only
        cases run st rest <;> rfl

theorem writeTty_eq_run (st : Parser) (l : List Byte) : writeTty st l = run st l :=
  run_writeLoop (Nat.le_add_right _ _)

theorem writeAll_eq_run (st : Parser) (cut : List (List Byte)) :
    writeAll st cut = run st cut.flatten := by
  induction cut generalizing st with
  | nil => rfl
  | cons buffer cut ih =>
    rw [writeAll, List.flatten_cons, run_append, writeTty_eq_run]
    cases run st buffer with
    | none => rfl
    | some r =>
      dsimp only [Option.bind_eq_bind, Option.bind_some]
      rw [ih]
      cases run r.1 cut.flatten <;> rfl

/-- No beginning of the string has read `NPAR` arguments of a command. -/
def FewArguments (s : List Byte) : Prop :=
  ∀ l, l <+: s → ∀ r, writeTty .start l = some r → r.1.argCount.toNat < NPAR

theorem step_defined (h : st.argCount.toNat < NPAR) : (step st ch).isSome := by
  have harg (st : Parser) (h : st.argCount.toNat < NPAR) : (argStep st ch).isSome := by
    unfold argStep addDigit
    rw [dif_pos h]
    dsimp only
    split
    · rfl
    · split
      · split <;> rfl
      · rfl
  unfold step
  cases st.cmdState with
  | needEsc => rfl
  | haveEsc => rfl
  | haveLbracket =>
    dsimp only
    split
    · exact harg _ (by simp [NPAR])
    · split <;> rfl
  | haveArg => exact harg _ h
  | haveCmd => rfl

theorem run_defined {s : List Byte} (h : FewArguments s) : (run .start s).isSome := by
  induction s using List.reverseRec with
  | nil => rfl
  | append_singleton s ch ih =>
    have hs : FewArguments s := fun l hl => h l (hl.trans (List.prefix_append _ _))
    obtain ⟨r, hr⟩ := Option.isSome_iff_exists.1 (ih hs)
    have hfew : r.1.argCount.toNat < NPAR := by
      refine h s (List.prefix_append _ _) r ?_
      rw [writeTty_eq_run, hr]
    obtain ⟨r', hr'⟩ := Option.isSome_iff_exists.1 (step_defined hfew)
    rw [run_append, hr, Option.bind_some, run, hr']
    rfl

/-- However a string is cut, the commands, the characters and the state at the end are the
same. -/
theorem writeAll_cuts (s : List Byte) (cut cut' : List (List Byte)) (hfew : FewArguments s)
    (hcut : cut.flatten = s) (hcut' : cut'.flatten = s) :
    ∃ st events, writeAll .start cut = some (st, events) ∧ writeAll .start cut' =
    some (st, events) := by
  obtain ⟨r, hr⟩ := Option.isSome_iff_exists.1 (run_defined hfew)
  refine ⟨r.1, r.2, ?_, ?_⟩
  · rw [writeAll_eq_run, hcut, hr]
  · rw [writeAll_eq_run, hcut', hr]

/-- `ESC [ 1 2 ; 5 H x`, cut inside a number. -/
theorem writeAll_cuts_number :
    ∃ st events,
      writeAll .start [[0x1b, 0x5b, 0x31, 0x32, 0x3b, 0x35, 0x48, 0x78]] = some (st, events) ∧
      writeAll .start [[0x1b], [0x5b, 0x31], [0x32, 0x3b, 0x35], [0x48, 0x78]] =
      some (st, events) := by
  refine writeAll_cuts _ _ _ ?_ rfl rfl
  intro l hl r hr
  have hall : ∀ l ∈ ([0x1b, 0x5b, 0x31, 0x32, 0x3b, 0x35, 0x48, 0x78] : List Byte).inits,
      (writeTty .start l).all (fun r => r.1.argCount.toNat < NPAR) = true := by
    decide +kernel
  have := hall l ((List.mem_inits _ _).2 hl)
  rw [hr] at this
  simpa using this

end DjgppLibc.Termios
