import DjgppLibc.SystemLexer
import Mathlib.Data.List.DropRight

/-!
# The command lines of `system` (`stdlib/system.c`)

The loop works on one buffer: the text from `cmdstart` to `s` is what the
current command has so far, and the text from `s` on is still to be read. The
program name, the targets of redirections and extra white space are taken out
of it in place. What the children, `tmpnam`, `open` and `dup` answer is a
parameter; the calls of `system1`, the offsets of the stores into `prog` and the
files removed are recorded.
-/
namespace DjgppLibc.System
open C1args

/-- `L_tmpnam`, the size of `prog`. -/
def lTmpnam : ℕ := 260

/-- The flags of this run that the loop looks at, and the global flag that `__unquote`
looks at. -/
structure Flags where
  redirect : Bool
  multi : Bool
  globalMulti : Bool
deriving DecidableEq

/-- What `open` and `dup` give when the `n`-th command is redirected. -/
structure Handles where
  hIn : ℤ
  hInbak : ℤ
  hOut : ℤ
  hOutbak : ℤ

structure Env where
  callShell : Bool
  shellCommand : ℤ
  system1 : ℕ → ℤ
  tmpnam : ℕ → List Char
  handles : ℕ → Handles

inductive Message
  | ambiguousInputRedirect
  | ambiguousOutputRedirect
  | targetIsNotAFilename
  | noCommandNameSeen
  | cannotRedirectInput
  | outOfFileHandles
  | cannotRedirectOutput
  | unmatchedQuoteCharacter
deriving DecidableEq

/-- A call of `system1`, with the files its input and output are redirected to. -/
structure Call where
  prog : List Char
  cmdline : List Char
  fIn : Option (List Char)
  fOut : Option (List Char)
deriving DecidableEq

structure St where
  cmd : List Char
  rest : List Char
  needcmd : Bool
  prog : List Char
  fIn : Option (List Char)
  rmIn : Bool
  fOut : Option (List Char)
  rmOut : Bool
  appendOut : Bool
  result : ℤ
  ended : ℕ
  tmpnams : ℕ
  calls : List Call
  stores : List ℕ
  removed : List (List Char)
  messages : List Message
deriving DecidableEq

inductive Next
  | again (st : St)
  | leave (st : St)
  | shell (st : St)

def St.emiterror (m : Message) (st : St) : St :=
  { st with messages := st.messages ++ [m], result := -1 }

def St.remove (flag : Bool) (f : Option (List Char)) (st : St) : St :=
  if flag then { st with removed := st.removed ++ f.toList } else st

/-- The head of the outer loop: the output of a pipe becomes the next input. -/
def St.nextCommand (st : St) : St :=
  let st := st.remove st.rmIn st.fIn
  { st with
    fIn := st.fOut, rmIn := st.rmOut, fOut := none, rmOut := false, appendOut := false,
    cmd := [], needcmd := true }

/-- `prog` gets the characters of the word and a NUL. -/
def St.storeProg (prog : List Char) (st : St) : St :=
  { st with prog := prog, stores := st.stores ++ List.range (prog.length + 1) }

variable (f : Flags) (env : Env)

def redirectError (st : St) : Option Message :=
  let h := env.handles st.ended
  if st.fIn.isSome ∧ h.hIn < 0 then some .cannotRedirectInput
  else if (st.fIn.isSome ∧ h.hInbak < 0) ∨ (st.fOut.isSome ∧ h.hOutbak < 0) then
    some .outOfFileHandles
  else if st.fOut.isSome ∧ h.hOut < 0 then some .cannotRedirectOutput
  else none

/-- The redirections are made and `system1` is called, unless the result is no longer zero. -/
def runCommand (args : List Char) (st : St) : St :=
  let st : St :=
    match redirectError env st with
    | none => st
    | some m => st.emiterror m
  let st : St :=
    if st.result = 0 then
      { st with
        calls := st.calls ++ [⟨st.prog, args, st.fIn, st.fOut⟩],
        result := env.system1 st.calls.length }
    else st
  { st with ended := st.ended + 1 }

/-- Behind a command that is not the last one. A semicolon ends a pipe. -/
def St.passCommand (sym : Sym) (rest : List Char) (st : St) : St :=
  let st : St :=
    if sym = .semicolon then
      { (st.remove st.rmIn st.fIn).remove st.rmOut st.fOut with fIn := none, fOut := none }
    else st
  { st with rest := rest }

/-- The end of a command: `PIPE`, `SEMICOLON` and `EOL`. -/
def endCommand (sym : Sym) (lead rest : List Char) (st : St) : Next :=
  if st.needcmd then .leave (st.emiterror .noCommandNameSeen)
  else
    let st := runCommand env ((st.cmd ++ lead).rdropWhile isspace) st
    if sym = .eol then .leave st
    else
      let st := st.passCommand sym rest
      if st.result < 0 then .leave st else .again st.nextCommand

def redirectTo (set : List Char → St → St) (lead rest : List Char) (st : St) : Next :=
  let target := getSym f.multi rest
  if target.sym = .word then
    .again (set (unquote f.globalMulti target.rest.head? none target.text)
      { st with rest := lead ++ target.rest })
  else .leave (st.emiterror .targetIsNotAFilename)

/-- One symbol. Of the white space in front of it at most one character is left. -/
def step (st : St) : Next :=
  let token := getSym f.multi st.rest
  let lead := if st.cmd = [] then [] else (st.rest.takeWhile isspace).take 1
  match token.sym with
  | .word =>
      if st.needcmd then
        let st := st.storeProg (unquote f.globalMulti token.rest.head? none token.text)
        if st.prog.head? = some '(' then .shell st
        else .again { st with rest := token.rest, needcmd := false }
      else .again { st with cmd := st.cmd ++ lead ++ token.text, rest := token.rest }
  | .redirInput =>
      if !f.redirect then .shell st
      else if st.fIn.isSome then .leave (st.emiterror .ambiguousInputRedirect)
      else redirectTo f (fun file st => { st with fIn := some file }) lead token.rest st
  | .redirOutput =>
      if !f.redirect then .shell st
      else if st.fOut.isSome then .leave (st.emiterror .ambiguousOutputRedirect)
      else redirectTo f (fun file st => { st with fOut := some file }) lead token.rest st
  | .redirAppend =>
      if !f.redirect then .shell st
      else if st.fOut.isSome then .leave (st.emiterror .ambiguousOutputRedirect)
      else
        redirectTo f (fun file st => { st with fOut := some file, appendOut := true }) lead
          token.rest st
  | .pipe =>
      if !f.redirect then .shell st
      else if st.fOut.isSome then .leave (st.emiterror .ambiguousOutputRedirect)
      else
        endCommand env .pipe lead token.rest
          { st with
            fOut := some (env.tmpnam st.tmpnams), rmOut := true, tmpnams := st.tmpnams + 1 }
  | .semicolon => endCommand env .semicolon lead token.rest st
  | .eol => endCommand env .eol lead token.rest st
  | .unmatchedQuote => .leave (st.emiterror .unmatchedQuoteCharacter)

/-- What `system` returns, and what it did on the way. -/
structure Returned where
  value : ℤ
  viaShell : Bool
  st : St
deriving DecidableEq

def loop : ℕ → St → Option Returned
  | 0, _ => none
  | n + 1, st =>
      match step f env st with
      | .again st => loop n st
      | .shell st => some ⟨env.shellCommand, true, st⟩
      | .leave st => some ⟨st.result, false, (st.remove st.rmIn st.fIn).remove st.rmOut st.fOut⟩

def St.start (line : List Char) : St where
  cmd := []
  rest := line
  needcmd := true
  prog := []
  fIn := none
  rmIn := false
  fOut := none
  rmOut := false
  appendOut := false
  result := 0
  ended := 0
  tmpnams := 0
  calls := []
  stores := []
  removed := []
  messages := []

/-- `system` with a command line. -/
def system (cmdline : List Char) : Option Returned :=
  let line := cmdline.dropWhile isspace
  if line = [] ∨ env.callShell then some ⟨env.shellCommand, true, .start line⟩
  else loop f env (line.length + 1) (.start line)

end DjgppLibc.System
