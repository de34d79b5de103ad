import DjgppLibc.SystemPrograms

/-!
# What `system` runs

A line of simple commands is read symbol by symbol into the words of its
commands, without editing it. The loop calls `system1` for these commands one by
one, but only as long as the result is zero.
-/
namespace DjgppLibc.System
open C1args

structure Word where
  gap : List Char
  text : List Char
  after : Option Char
deriving DecidableEq

structure Simple where
  words : List Word
  sep : Sym
deriving DecidableEq

/-- The commands of a text that follows the words `cur`; none if it has other symbols than
words, pipes and semicolons, or a command without words. -/
def readCommands (multi : Bool) : ℕ → List Word → List Char → Option (List Simple)
  | 0, _, _ => none
  | n + 1, cur, s =>
      let token := getSym multi s
      match token.sym with
      | .word =>
          readCommands multi n (cur ++ [⟨s.takeWhile isspace, token.text, token.rest.head?⟩])
            token.rest
      | .pipe =>
          if cur = [] then none else (readCommands multi n [] token.rest).map (⟨cur, .pipe⟩ :: ·)
      | .semicolon =>
          if cur = [] then none
          else (readCommands multi n [] token.rest).map (⟨cur, .semicolon⟩ :: ·)
      | .eol => if cur = [] then none else some [⟨cur, .eol⟩]
      | _ => none

def commands (multi : Bool) (line : List Char) : Option (List Simple) :=
  let line := line.dropWhile isspace
  readCommands multi (line.length + 1) [] line

def argText : List Word → List Char
  | [] => []
  | w :: ws => w.text ++ ws.flatMap fun w => w.gap.take 1 ++ w.text

def Simple.prog (globalMulti : Bool) (c : Simple) : List Char :=
  match c.words with
  | [] => []
  | w :: _ => unquote globalMulti w.after none w.text

def Simple.args (c : Simple) : List Char := (argText c.words.tail).rdropWhile isspace

/-- The lines that the loop does not hand over to the shell, with program names that fit
into `prog`. -/
structure SelfParsed (f : Flags) (cs : List Simple) : Prop where
  short : ∀ c ∈ cs, (c.prog f.globalMulti).length < lTmpnam
  noGroup : ∀ c ∈ cs, (c.prog f.globalMulti).head? ≠ some '('
  redirect : ∀ c ∈ cs, c.sep = .pipe → f.redirect = true

/-- What `system1` is called with. -/
def Call.text (c : Call) : List Char × List Char := (c.prog, c.cmdline)

def Simple.text (globalMulti : Bool) (c : Simple) : List Char × List Char :=
  (c.prog globalMulti, c.args)

/-- The commands that are run and the result: after a status that is not zero no further
command is run. -/
def runAll (status : ℕ → ℤ) : ℕ → List Simple → List Simple × ℤ
  | _, [] => ([], 0)
  | n, [c] => ([c], status n)
  | n, c :: d :: cs =>
      if status n = 0 then
        (c :: (runAll status (n + 1) (d :: cs)).1, (runAll status (n + 1) (d :: cs)).2)
      else ([c], status n)

variable {f : Flags} {env : Env}

theorem argText_snoc {ws : List Word} {w : Word} (h : ∀ v ∈ ws, v.text ≠ []) :
    argText (ws ++ [w]) =
      argText ws ++ (if argText ws = [] then [] else w.gap.take 1) ++ w.text := by
  cases ws with
  | nil => simp [argText]
  | cons v ws =>
      have hv : argText (v :: ws) ≠ [] := by
        rw [argText]
        simp [h v (by simp)]
      rw [if_neg hv]
      simp [argText]

theorem rdropWhile_spaces {l sp : List Char} (h : ∀ c ∈ sp, isspace c = true) :
    (l ++ sp).rdropWhile isspace = l.rdropWhile isspace := by
  rw [List.rdropWhile, List.reverse_append, dropWhile_lead]
  · rfl
  · intro c hc
    exact h c (List.mem_reverse.mp hc)

/-- The words that are there already start the first command. -/
theorem readCommands_words {multi : Bool} {n : ℕ} {cur : List Word} {s : List Char}
    {cs : List Simple} (h : readCommands multi n cur s = some cs) :
    ∃ c cs', cs = c :: cs' ∧ cur <+: c.words := by
  induction n generalizing cur s with
  | zero => exact absurd h (by simp [readCommands])
  | succ n ih =>
      rw [readCommands] at h
      cases hsym : (getSym multi s).sym with
      | word =>
          rw [hsym] at h
          obtain ⟨c, cs', rfl, hpre⟩ := ih h
          exact ⟨c, cs', rfl, (List.prefix_append _ _).trans hpre⟩
      | pipe | semicolon =>
          rw [hsym] at h
          dsimp only at h
          split_ifs at h
          obtain ⟨cs', -, rfl⟩ := Option.map_eq_some_iff.mp h
          exact ⟨_, cs', rfl, List.prefix_rfl⟩
      | eol =>
          rw [hsym] at h
          dsimp only at h
          split_ifs at h
          obtain rfl := Option.some.inj h
          exact ⟨_, [], rfl, List.prefix_rfl⟩
      | redirInput | redirOutput | redirAppend | unmatchedQuote =>
          rw [hsym] at h
          exact absurd h (by simp)

/-- The loop has read the words `cur` of a command. -/
structure Reading (f : Flags) (cur : List Word) (st : St) : Prop where
  needcmd : st.needcmd = decide (cur = [])
  prog : ∀ w ws, cur = w :: ws → st.prog = unquote f.globalMulti w.after none w.text
  cmd : st.cmd = argText cur.tail
  fOut : st.fOut = none
  texts : ∀ w ∈ cur, w.text ≠ []

structure Ran (f : Flags) (env : Env) (st : St) (cs : List Simple) (r : Returned) : Prop where
  zero : st.result = 0 →
    r.st.calls.map Call.text =
        st.calls.map Call.text ++
          (runAll env.system1 st.calls.length cs).1.map (Simple.text f.globalMulti) ∧
      r.value = (runAll env.system1 st.calls.length cs).2
  nonzero : st.result ≠ 0 → r.st.calls = st.calls ∧ r.value = st.result

theorem runCommand_zero (h : env.Redirects) (args : List Char) {st : St} (hr : st.result = 0) :
    (runCommand env args st).calls = st.calls ++ [⟨st.prog, args, st.fIn, st.fOut⟩] ∧
      (runCommand env args st).result = env.system1 st.calls.length := by
  unfold runCommand
  rw [redirectError_none h]
  dsimp only
  rw [if_pos hr]
  exact ⟨rfl, rfl⟩

theorem runCommand_nonzero (h : env.Redirects) (args : List Char) {st : St}
    (hr : st.result ≠ 0) :
    (runCommand env args st).calls = st.calls ∧ (runCommand env args st).result = st.result := by
  unfold runCommand
  rw [redirectError_none h]
  dsimp only
  rw [if_neg hr]
  exact ⟨rfl, rfl⟩

theorem nextCommand_reading (f : Flags) (sym : Sym) (rest : List Char) (st : St) :
    Reading f [] (st.passCommand sym rest).nextCommand ∧
      (st.passCommand sym rest).nextCommand.calls = st.calls := by
  unfold St.passCommand St.nextCommand St.remove
  dsimp only
  split_ifs <;>
    exact ⟨⟨rfl, fun w ws h => absurd h (by simp), rfl, rfl, fun w hw => absurd hw (by simp)⟩, rfl⟩

theorem removed_calls (st : St) :
    ((st.remove st.rmIn st.fIn).remove st.rmOut st.fOut).calls = st.calls := by
  unfold St.remove
  split_ifs <;> rfl

/-- The call for a command whose words have been read. -/
theorem Reading.call {cur : List Word} {st : St} (h : Reading f cur st) (hcur : cur ≠ [])
    (sep : Sym) :
    st.prog = Simple.prog f.globalMulti ⟨cur, sep⟩ ∧
      (st.cmd ++ st.lead).rdropWhile isspace = Simple.args ⟨cur, sep⟩ := by
  constructor
  · cases cur with
    | nil => exact absurd rfl hcur
    | cons w ws => exact h.prog w ws rfl
  · rw [rdropWhile_spaces st.lead_space, h.cmd]
    rfl

theorem runCommand_nonneg (h : env.Redirects) (hstatus : ∀ n, 0 ≤ env.system1 n) (args : List Char)
    {st : St} (hr : 0 ≤ st.result) : 0 ≤ (runCommand env args st).result := by
  by_cases hz : st.result = 0
  · rw [(runCommand_zero h args hz).2]
    exact hstatus _
  · rw [(runCommand_nonzero h args hz).2]
    exact hr

theorem Ran.last (h : env.Redirects) {st : St} {c : Simple} {args : List Char}
    (hprog : st.prog = c.prog f.globalMulti) (hargs : args = c.args) (st' : St)
    (hst : st'.calls = (runCommand env args st).calls) :
    Ran f env st [c] ⟨(runCommand env args st).result, false, st'⟩ where
  zero := by
    intro hz
    obtain ⟨hcalls, hresult⟩ := runCommand_zero h args hz
    refine ⟨?_, hresult⟩
    dsimp only
    rw [hst, hcalls, List.map_append, runAll]
    simp [Call.text, Simple.text, hprog, hargs]
  nonzero := by
    intro hz
    obtain ⟨hcalls, hresult⟩ := runCommand_nonzero h args hz
    exact ⟨hst.trans hcalls, hresult⟩

theorem Ran.cons (h : env.Redirects) {st st' : St} {c : Simple} {cs : List Simple}
    {args : List Char} {r : Returned} (hprog : st.prog = c.prog f.globalMulti)
    (hargs : args = c.args) (hcs : cs ≠ [])
    (hcalls : st'.calls = (runCommand env args st).calls)
    (hresult : st'.result = (runCommand env args st).result) (hr : Ran f env st' cs r) :
    Ran f env st (c :: cs) r := by
  obtain ⟨d, cs, rfl⟩ := List.exists_cons_of_ne_nil hcs
  constructor
  · intro hz
    obtain ⟨hrun, hstatus⟩ := runCommand_zero h args hz
    have hlen : st'.calls.length = st.calls.length + 1 := by
      rw [hcalls, hrun]
      simp
    have htext : st'.calls.map Call.text =
        st.calls.map Call.text ++ [c.text f.globalMulti] := by
      rw [hcalls, hrun, List.map_append]
      simp [Call.text, Simple.text, hprog, hargs]
    rw [runAll]
    by_cases hzero : env.system1 st.calls.length = 0
    · obtain ⟨h₁, h₂⟩ := hr.zero (hresult.trans (hstatus.trans hzero))
      rw [if_pos hzero, h₁, h₂, hlen, htext]
      refine ⟨?_, rfl⟩
      simp
    · obtain ⟨h₁, h₂⟩ := hr.nonzero (by rw [hresult, hstatus]; exact hzero)
      rw [if_neg hzero, h₁, h₂, htext, hresult, hstatus]
      exact ⟨rfl, rfl⟩
  · intro hz
    obtain ⟨hrun, hstatus⟩ := runCommand_nonzero h args hz
    obtain ⟨h₁, h₂⟩ := hr.nonzero (by rw [hresult, hstatus]; exact hz)
    exact ⟨h₁.trans (hcalls.trans hrun), h₂.trans (hresult.trans hstatus)⟩

theorem Reading.word (env : Env) {cur : List Word} {st : St} (h : Reading f cur st)
    (hsym : (getSym f.multi st.rest).sym = .word)
    (hgroup : ∀ w ws, cur ++ [⟨st.rest.takeWhile isspace, (getSym f.multi st.rest).text,
      (getSym f.multi st.rest).rest.head?⟩] = w :: ws →
        (unquote f.globalMulti w.after none w.text).head? ≠ some '(') :
    ∃ st', step f env st = .again st' ∧
      Reading f (cur ++ [⟨st.rest.takeWhile isspace, (getSym f.multi st.rest).text,
        (getSym f.multi st.rest).rest.head?⟩]) st' ∧
      st'.rest = (getSym f.multi st.rest).rest ∧ st'.calls = st.calls ∧ st'.result = st.result := by
  have htext : (getSym f.multi st.rest).text ≠ [] :=
    scan_start_text (by rw [← getSym, hsym]; simp)
  unfold step
  rw [← St.lead]
  dsimp only
  rw [hsym]
  cases cur with
  | nil =>
      have hneed : st.needcmd = true := h.needcmd
      have hprog := hgroup _ _ rfl
      dsimp only
      rw [if_pos hneed, if_neg (show ¬ (st.storeProg _).prog.head? = some '(' from hprog)]
      refine ⟨_, rfl, ⟨?_, ?_, ?_, h.fOut, ?_⟩, rfl, rfl, rfl⟩
      · simp
      · intro w ws hw
        cases hw
        rfl
      · exact h.cmd
      · intro w hw
        obtain rfl := List.mem_singleton.mp hw
        exact htext
  | cons v vs =>
      have hneed : st.needcmd = false := by
        rw [h.needcmd]
        simp
      dsimp only
      rw [if_neg (by simp [hneed])]
      refine ⟨_, rfl, ⟨?_, ?_, ?_, h.fOut, ?_⟩, rfl, rfl, rfl⟩
      · change st.needcmd = _
        rw [hneed]
        simp
      · intro w ws hw
        cases hw
        exact h.prog v vs rfl
      · change st.cmd ++ st.lead ++ _ = _
        rw [List.cons_append, List.tail_cons, argText_snoc fun w hw => h.texts w (by simp [hw]),
          St.lead, h.cmd]
        rfl
      · intro w hw
        rcases List.mem_append.mp hw with hw | hw
        · exact h.texts w hw
        · obtain rfl := List.mem_singleton.mp hw
          exact htext

theorem Reading.pass (hredir : env.Redirects) (hstatus : ∀ n, 0 ≤ env.system1 n)
    {cur : List Word} {st st₁ : St} {sym : Sym} {rest : List Char} (h : Reading f cur st)
    (hcur : cur ≠ []) (hr : 0 ≤ st.result) (hsym : sym ≠ .eol)
    (hst₁ : st₁.needcmd = st.needcmd ∧ st₁.prog = st.prog ∧ st₁.cmd = st.cmd ∧
      st₁.calls = st.calls ∧ st₁.result = st.result) :
    ∃ st', endCommand env sym st.lead rest st₁ = .again st' ∧ Reading f [] st' ∧
      st'.rest = rest ∧ 0 ≤ st'.result ∧
      ∀ cs r, cs ≠ [] → Ran f env st' cs r → Ran f env st (⟨cur, sym⟩ :: cs) r := by
  obtain ⟨hneed₁, hprog₁, hcmd₁, hcalls₁, hresult₁⟩ := hst₁
  obtain ⟨hprog, hargs⟩ := h.call hcur sym
  have hneed : st₁.needcmd = false := by
    rw [hneed₁, h.needcmd]
    simp [hcur]
  have hnn := runCommand_nonneg hredir hstatus ((st₁.cmd ++ st.lead).rdropWhile isspace)
    (by rw [hresult₁]; exact hr)
  obtain ⟨hread, hcalls⟩ := nextCommand_reading f sym rest
    (runCommand env ((st₁.cmd ++ st.lead).rdropWhile isspace) st₁)
  obtain ⟨-, -, hrest, hresult, -⟩ := nextCommand_scan sym rest
    (runCommand env ((st₁.cmd ++ st.lead).rdropWhile isspace) st₁)
  rw [endCommand_eq sym st.lead rest hneed]
  dsimp only
  rw [if_neg hsym, if_neg (not_lt.mpr hnn)]
  refine ⟨_, rfl, hread, hrest, by rw [hresult]; exact hnn, ?_⟩
  intro cs r hcs hran
  have hran₁ : Ran f env st₁ (⟨cur, sym⟩ :: cs) r :=
    .cons hredir (hprog₁.trans hprog) (by rw [hcmd₁]; exact hargs) hcs hcalls hresult hran
  constructor
  · rw [← hcalls₁, ← hresult₁]
    exact hran₁.zero
  · rw [← hcalls₁, ← hresult₁]
    exact hran₁.nonzero

theorem SelfParsed.tail {c : Simple} {cs : List Simple} (h : SelfParsed f (c :: cs)) :
    SelfParsed f cs :=
  ⟨fun d hd => h.short d (by simp [hd]), fun d hd => h.noGroup d (by simp [hd]),
    fun d hd => h.redirect d (by simp [hd])⟩

theorem loop_ran (hredir : env.Redirects) (hstatus : ∀ n, 0 ≤ env.system1 n) {n : ℕ}
    {cur : List Word} {st : St} {cs : List Simple} (h : Reading f cur st) (hr : 0 ≤ st.result)
    (hcs : readCommands f.multi n cur st.rest = some cs) (hself : SelfParsed f cs) :
    ∃ r, loop f env n st = some r ∧ Ran f env st cs r := by
  induction n generalizing cur st cs with
  | zero => exact absurd hcs (by simp [readCommands])
  | succ n ih =>
      -- pipes and semicolons differ in the state the command is run in
      have hpass : ∀ sym st₁ cs', sym ≠ .eol → cur ≠ [] →
          step f env st = endCommand env sym st.lead (getSym f.multi st.rest).rest st₁ →
          (st₁.needcmd = st.needcmd ∧ st₁.prog = st.prog ∧ st₁.cmd = st.cmd ∧
            st₁.calls = st.calls ∧ st₁.result = st.result) →
          readCommands f.multi n [] (getSym f.multi st.rest).rest = some cs' →
          SelfParsed f (⟨cur, sym⟩ :: cs') →
          ∃ r, loop f env (n + 1) st = some r ∧ Ran f env st (⟨cur, sym⟩ :: cs') r := by
        intro sym st₁ cs' hsym hcur hstep hst₁ hcs' hself'
        obtain ⟨st', hend, hread, hrest, hr', hran⟩ := h.pass hredir hstatus hcur hr hsym hst₁
        obtain ⟨r, hloop, hran'⟩ := ih hread hr' (by rw [hrest]; exact hcs') hself'.tail
        obtain ⟨c, cs'', rfl, -⟩ := readCommands_words hcs'
        refine ⟨r, ?_, hran _ r (by simp) hran'⟩
        rw [loop, hstep, hend]
        exact hloop
      rw [readCommands] at hcs
      cases hsym : (getSym f.multi st.rest).sym with
      | word =>
          rw [hsym] at hcs
          obtain ⟨c, cs', rfl, hpre⟩ := readCommands_words hcs
          obtain ⟨st', hstep, hread, hrest, hcalls, hresult⟩ := h.word env hsym (by
            intro w ws hw
            have hg := hself.noGroup c (by simp)
            obtain ⟨more, hmore⟩ := hpre
            rw [hw] at hmore
            rw [Simple.prog, ← hmore] at hg
            exact hg)
          obtain ⟨r, hr', hran⟩ := ih hread (by rw [hresult]; exact hr) (by rw [hrest]; exact hcs)
            hself
          rw [loop, hstep]
          refine ⟨r, hr', ?_, ?_⟩
          · rw [← hcalls, ← hresult]
            exact hran.zero
          · rw [← hcalls, ← hresult]
            exact hran.nonzero
      | pipe =>
          rw [hsym] at hcs
          dsimp only at hcs
          split_ifs at hcs with hcur
          obtain ⟨cs', hcs', rfl⟩ := Option.map_eq_some_iff.mp hcs
          refine hpass .pipe { st with
            fOut := some (env.tmpnam st.tmpnams), rmOut := true, tmpnams := st.tmpnams + 1 } cs'
            (by simp) hcur ?_ ⟨rfl, rfl, rfl, rfl, rfl⟩ hcs' hself
          unfold step
          rw [← St.lead]
          dsimp only
          rw [hsym]
          simp [hself.redirect _ List.mem_cons_self rfl, h.fOut]
      | semicolon =>
          rw [hsym] at hcs
          dsimp only at hcs
          split_ifs at hcs with hcur
          obtain ⟨cs', hcs', rfl⟩ := Option.map_eq_some_iff.mp hcs
          refine hpass .semicolon st cs' (by simp) hcur ?_ ⟨rfl, rfl, rfl, rfl, rfl⟩ hcs' hself
          unfold step
          rw [← St.lead]
          dsimp only
          rw [hsym]
      | eol =>
          rw [hsym] at hcs
          dsimp only at hcs
          split_ifs at hcs with hcur
          obtain rfl := Option.some.inj hcs
          have hneed : st.needcmd = false := by
            rw [h.needcmd]
            simp [hcur]
          have hstep : step f env st =
              .leave (runCommand env ((st.cmd ++ st.lead).rdropWhile isspace) st) := by
            unfold step
            rw [← St.lead]
            dsimp only
            rw [hsym]
            dsimp only
            rw [endCommand_eq .eol st.lead _ hneed, if_pos rfl]
          obtain ⟨hprog, hargs⟩ := h.call hcur .eol
          rw [loop, hstep]
          exact ⟨_, rfl, .last hredir hprog hargs _ (removed_calls _)⟩
      | redirInput | redirOutput | redirAppend | unmatchedQuote =>
          rw [hsym] at hcs
          exact absurd hcs (by simp)

theorem runAll_length (status : ℕ → ℤ) (n : ℕ) (cs : List Simple) :
    (runAll status n cs).1.length = cs.length ↔ ∀ k, k + 1 < cs.length → status (n + k) = 0 := by
  fun_induction runAll status n cs with
  | case1 n => simp
  | case2 n c => simp
  | case3 n c d cs hz ih =>
      rw [List.length_cons, List.length_cons, Nat.succ_inj, ih]
      constructor
      · intro h k hk
        cases k with
        | zero => exact hz
        | succ k =>
            rw [← Nat.succ_add_eq_add_succ]
            exact h k (by omega)
      · intro h k hk
        rw [Nat.succ_add_eq_add_succ]
        exact h (k + 1) (by omega)
  | case4 n c d cs hz =>
      refine iff_of_false (by simp) fun h => hz ?_
      exact h 0 (by simp)

theorem runAll_all (status : ℕ → ℤ) (n : ℕ) (cs : List Simple) (hcs : cs ≠ [])
    (h : ∀ k, k + 1 < cs.length → status (n + k) = 0) :
    runAll status n cs = (cs, status (n + (cs.length - 1))) := by
  fun_induction runAll status n cs with
  | case1 n => exact absurd rfl hcs
  | case2 n c => rfl
  | case3 n c d cs hz ih =>
      rw [ih (by simp) fun k hk => by
        rw [Nat.succ_add_eq_add_succ]
        exact h (k + 1) (by simpa using hk)]
      simp only [List.length_cons, Nat.add_sub_cancel]
      rw [Nat.succ_add_eq_add_succ]
  | case4 n c d cs hz => exact absurd (h 0 (by simp)) hz

/-- On a line of simple commands that `system` parses itself, with children whose status
is never negative, `system1` is called once for each command in their order and the last
status is returned, if and only if all commands but the last one return zero. -/
theorem system_runs_commands_iff (f : Flags) (env : Env) (line : List Char) (cs : List Simple)
    (hcs : commands f.multi line = some cs) (hself : SelfParsed f cs)
    (hshell : env.callShell = false) (hredir : env.Redirects)
    (hstatus : ∀ n, 0 ≤ env.system1 n) :
    ∃ r, system f env line = some r ∧
      ((r.st.calls.map Call.text = cs.map (Simple.text f.globalMulti) ∧
          r.value = env.system1 (cs.length - 1)) ↔
        ∀ k, k + 1 < cs.length → env.system1 k = 0) := by
  unfold commands at hcs
  unfold system
  obtain ⟨text, htext⟩ : ∃ q, q = line.dropWhile isspace := ⟨_, rfl⟩
  dsimp only at hcs ⊢
  rw [← htext] at hcs ⊢
  obtain ⟨c, cs', hcons, -⟩ := readCommands_words hcs
  have hne : cs ≠ [] := by
    rw [hcons]
    simp
  have hnil : text ≠ [] := by
    rintro rfl
    exact absurd hcs (by simp [readCommands, getSym, scan])
  rw [if_neg (by simp [hnil, hshell])]
  have hread : Reading f [] (.start text) :=
    ⟨rfl, fun w ws h => absurd h (by simp), rfl, rfl, fun w hw => absurd hw (by simp)⟩
  obtain ⟨r, hr, hran⟩ := loop_ran hredir hstatus hread le_rfl hcs hself
  obtain ⟨hcalls, hvalue⟩ := hran.zero rfl
  change r.st.calls.map Call.text = [] ++ (runAll env.system1 0 cs).1.map _ at hcalls
  change r.value = (runAll env.system1 0 cs).2 at hvalue
  refine ⟨r, hr, ?_⟩
  rw [hcalls, hvalue, List.nil_append]
  constructor
  · rintro ⟨hall, -⟩ k hk
    have hlen := congrArg List.length hall
    rw [List.length_map, List.length_map, runAll_length] at hlen
    have h := hlen k hk
    rwa [Nat.zero_add] at h
  · intro h
    have hrun := runAll_all env.system1 0 cs hne fun k hk => by
      rw [Nat.zero_add]
      exact h k hk
    rw [hrun, Nat.zero_add]
    exact ⟨rfl, rfl⟩

/-- Children with these statuses, and files that can be opened. -/
def childEnv (status : ℕ → ℤ) : Env := { goodEnv with system1 := status }

/-- The line `a  "x y" | b; c`, with status 7 from the last command. -/
theorem system_runs_commands_three :
    ∃ r, system ⟨true, true, true⟩ (childEnv fun n => if n = 2 then 7 else 0)
        ['a', ' ', ' ', '"', 'x', ' ', 'y', '"', ' ', '|', ' ', 'b', ';', ' ', 'c'] = some r ∧
      r.st.calls.map Call.text =
        [(['a'], ['"', 'x', ' ', 'y', '"']), (['b'], []), (['c'], [])] ∧ r.value = 7 := by
  obtain ⟨r, hr, hiff⟩ := system_runs_commands_iff ⟨true, true, true⟩
    (childEnv fun n => if n = 2 then 7 else 0)
    ['a', ' ', ' ', '"', 'x', ' ', 'y', '"', ' ', '|', ' ', 'b', ';', ' ', 'c']
    [⟨[⟨[], ['a'], some ' '⟩, ⟨[' ', ' '], ['"', 'x', ' ', 'y', '"'], some ' '⟩], .pipe⟩,
      ⟨[⟨[' '], ['b'], some ';'⟩], .semicolon⟩, ⟨[⟨[' '], ['c'], none⟩], .eol⟩]
    (by decide) ⟨by decide, by decide, by decide⟩ rfl goodEnv_succeeds.redirects
    (fun n => by
      change (0 : ℤ) ≤ if n = 2 then 7 else 0
      split_ifs <;> decide)
  exact ⟨r, hr, hiff.mpr (by
    intro k hk
    have : k ≠ 2 := by
      simp only [List.length_cons, List.length_nil] at hk
      omega
    exact if_neg this)⟩

/-- The line `a;b`: the second command is not run when the first one returns 1. -/
theorem command_skipped_after_failure :
    commands true ['a', ';', 'b'] =
        some [⟨[⟨[], ['a'], some ';'⟩], .semicolon⟩, ⟨[⟨[], ['b'], none⟩], .eol⟩] ∧
      ((system ⟨true, true, true⟩ (childEnv fun n => if n = 0 then 1 else 0)
        ['a', ';', 'b']).map fun r => (r.st.calls.map Call.text, r.value)) =
        some ([(['a'], [])], 1) := by
  decide

end DjgppLibc.System
