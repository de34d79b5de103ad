import DjgppLibc.SystemCommands

/-!
# The program words of a command line

`__unquote` stores each program word into `prog`, an array of `L_tmpnam` bytes.
Which words these are can be read off the line without running anything: the
scan below goes through its symbols, and stops where no run of the loop goes on.
-/
namespace DjgppLibc.System
open C1args

/-- What decides how the line is read further. The text starts with no white space. -/
structure Scan where
  needcmd : Bool
  hasIn : Bool
  hasOut : Bool
  rest : List Char
deriving DecidableEq

variable (f : Flags)

def afterTarget (rest : List Char) : Option (List Char) :=
  let target := getSym f.multi rest
  if target.sym = .word then some (target.rest.dropWhile isspace) else none

/-- One symbol: the program word it is, if it is one, and how to go on. -/
def scanStep (sc : Scan) : Option (List Char) × Option Scan :=
  let token := scan f.multi .start sc.rest
  let rest := token.rest.dropWhile isspace
  match token.sym with
  | .word =>
      if sc.needcmd then
        let prog := unquote f.globalMulti token.rest.head? none token.text
        (some prog,
          if prog.head? = some '(' then none else some { sc with needcmd := false, rest := rest })
      else (none, some { sc with rest := rest })
  | .redirInput =>
      if !f.redirect || sc.hasIn then (none, none)
      else (none, (afterTarget f token.rest).map fun rest =>
        { sc with hasIn := true, rest := rest })
  | .redirOutput | .redirAppend =>
      if !f.redirect || sc.hasOut then (none, none)
      else (none, (afterTarget f token.rest).map fun rest =>
        { sc with hasOut := true, rest := rest })
  | .pipe =>
      if !f.redirect || sc.hasOut then (none, none)
      else (none, if sc.needcmd then none else some ⟨true, true, false, rest⟩)
  | .semicolon => (none, if sc.needcmd then none else some ⟨true, false, false, rest⟩)
  | .eol | .unmatchedQuote => (none, none)

def scanPrograms : ℕ → Scan → List (List Char)
  | 0, _ => []
  | n + 1, sc =>
      match scanStep f sc with
      | (prog, none) => prog.toList
      | (prog, some sc) => prog.toList ++ scanPrograms n sc

def programs (line : List Char) : List (List Char) :=
  let line := line.dropWhile isspace
  scanPrograms f (line.length + 1) ⟨true, false, false, line⟩

variable {f} {env : Env}

theorem scan_start_text {multi : Bool} {s : List Char} (h : (scan multi .start s).sym ≠ .eol) :
    (scan multi .start s).text ≠ [] := by
  obtain ⟨mode, hmode⟩ : ∃ mode, mode = Mode.start := ⟨_, rfl⟩
  rw [← hmode] at h ⊢
  fun_cases scan multi mode s with
  | case1 => exact absurd rfl h
  | _ => simp_all [Lexed.push]

theorem getSym_length (multi : Bool) (s : List Char) :
    (s.takeWhile isspace).length + (getSym multi s).text.length + (getSym multi s).rest.length =
      s.length := by
  have happ := scan_append multi .start (s.dropWhile isspace)
  have hs := List.takeWhile_append_dropWhile (p := isspace) (l := s)
  have h₁ := congrArg List.length happ
  have h₂ := congrArg List.length hs
  rw [List.length_append] at h₁ h₂
  rw [getSym]
  omega

/-- Every symbol but the end of the line takes a character. -/
theorem getSym_rest_length {multi : Bool} {s : List Char} (h : (getSym multi s).sym ≠ .eol) :
    (s.takeWhile isspace).length + (getSym multi s).rest.length < s.length := by
  have hlen := getSym_length multi s
  have htext := List.length_pos_of_ne_nil (scan_start_text h)
  rw [getSym] at hlen ⊢
  omega

/-- What the scan sees of a state of the loop. -/
def St.scan (st : St) : Scan :=
  ⟨st.needcmd, st.fIn.isSome, st.fOut.isSome, st.rest.dropWhile isspace⟩

def progStores (progs : List (List Char)) : List ℕ :=
  progs.flatMap fun prog => List.range (prog.length + 1)

def Env.Redirects (env : Env) : Prop :=
  ∀ n, 0 ≤ (env.handles n).hIn ∧ 0 ≤ (env.handles n).hInbak ∧
    0 ≤ (env.handles n).hOut ∧ 0 ≤ (env.handles n).hOutbak

structure Env.Succeeds (env : Env) : Prop where
  system1 : ∀ n, env.system1 n = 0
  redirects : env.Redirects

def Follows (st : St) (p : Option (List Char) × Option Scan) (good : Prop) : Next → Prop
  | .again st' =>
      p.2 = some st'.scan ∧ st'.stores = st.stores ++ progStores p.1.toList ∧
        st'.rest.length < st.rest.length ∧ (good → st'.result = 0)
  | .leave st' | .shell st' =>
      st'.stores = st.stores ++ progStores p.1.toList ∧ (good → p.2 = none)

theorem dropWhile_lead {lead rest : List Char} (h : ∀ c ∈ lead, isspace c = true) :
    (lead ++ rest).dropWhile isspace = rest.dropWhile isspace := by
  induction lead with
  | nil => rfl
  | cons c lead ih =>
      rw [List.cons_append, List.dropWhile_cons_of_pos (h c (by simp))]
      exact ih fun d hd => h d (by simp [hd])

theorem redirectTo_follows {set : List Char → St → St} {lead rest : List Char} {st : St}
    {hasIn hasOut : Bool} {good : Prop}
    (hset : ∀ file rest', (set file { st with rest := rest' }).scan =
        ⟨st.needcmd, hasIn, hasOut, rest'.dropWhile isspace⟩ ∧
      (set file { st with rest := rest' }).stores = st.stores ∧
      (set file { st with rest := rest' }).rest = rest' ∧
      (set file { st with rest := rest' }).result = st.result)
    (hlead : ∀ c ∈ lead, isspace c = true) (hlen : lead.length + rest.length < st.rest.length)
    (hgood : good → st.result = 0) :
    Follows st (none, (afterTarget f rest).map fun rest => ⟨st.needcmd, hasIn, hasOut, rest⟩) good
      (redirectTo f set lead rest st) := by
  rw [redirectTo, afterTarget]
  split_ifs with hword
  · obtain ⟨hscan, hstores, hrest, hresult⟩ := hset
      (unquote f.globalMulti (getSym f.multi rest).rest.head? none (getSym f.multi rest).text)
      (lead ++ (getSym f.multi rest).rest)
    have hr : (getSym f.multi rest).rest.length ≤ rest.length := by
      have := getSym_length f.multi rest
      omega
    refine ⟨?_, ?_, ?_, ?_⟩
    · rw [hscan, Option.map_some, dropWhile_lead hlead]
    · rw [hstores]
      exact (List.append_nil _).symm
    · rw [hrest, List.length_append]
      omega
    · intro hg
      rw [hresult]
      exact hgood hg
  · exact ⟨(List.append_nil _).symm, fun _ => rfl⟩

theorem runCommand_stores (env : Env) (args : List Char) (st : St) :
    (runCommand env args st).stores = st.stores ∧
      (runCommand env args st).fOut = st.fOut := by
  unfold runCommand
  cases redirectError env st with
  | none =>
      dsimp only
      split_ifs <;> exact ⟨rfl, rfl⟩
  | some m =>
      dsimp only [St.emiterror]
      split_ifs <;> exact ⟨rfl, rfl⟩

theorem redirectError_none (h : env.Redirects) (st : St) : redirectError env st = none := by
  obtain ⟨h₁, h₂, h₃, h₄⟩ := h st.ended
  unfold redirectError
  dsimp only
  rw [if_neg (fun hc => absurd hc.2 (not_lt.mpr h₁)), if_neg, if_neg]
  · exact fun hc => absurd hc.2 (not_lt.mpr h₃)
  · rintro (hc | hc)
    · exact absurd hc.2 (not_lt.mpr h₂)
    · exact absurd hc.2 (not_lt.mpr h₄)

theorem runCommand_succeeds (h : env.Succeeds) (args : List Char) {st : St}
    (hr : st.result = 0) : (runCommand env args st).result = 0 := by
  unfold runCommand
  rw [redirectError_none h.redirects]
  dsimp only
  rw [if_pos hr]
  exact h.system1 _

/-- The next command starts with the rest of the line, and with the pipe as its input. -/
theorem nextCommand_scan (sym : Sym) (rest : List Char) (st : St) :
    (st.passCommand sym rest).nextCommand.scan =
        ⟨true, decide (sym ≠ .semicolon) && st.fOut.isSome, false, rest.dropWhile isspace⟩ ∧
      (st.passCommand sym rest).nextCommand.stores = st.stores ∧
      (st.passCommand sym rest).nextCommand.rest = rest ∧
      (st.passCommand sym rest).nextCommand.result = st.result ∧
      (st.passCommand sym rest).stores = st.stores ∧
      (st.passCommand sym rest).result = st.result := by
  unfold St.passCommand St.nextCommand St.remove
  by_cases h : sym = .semicolon
  · subst h
    dsimp only
    rw [if_pos rfl]
    split_ifs <;> exact ⟨rfl, rfl, rfl, rfl, rfl, rfl⟩
  · rw [if_neg h]
    dsimp only
    rw [decide_eq_true h]
    split_ifs <;> exact ⟨rfl, rfl, rfl, rfl, rfl, rfl⟩

theorem endCommand_eq (sym : Sym) (lead rest : List Char) {st : St} (h : st.needcmd = false) :
    endCommand env sym lead rest st =
      let st₁ := runCommand env ((st.cmd ++ lead).rdropWhile isspace) st
      if sym = .eol then .leave st₁
      else if st₁.result < 0 then .leave (st₁.passCommand sym rest)
      else .again (st₁.passCommand sym rest).nextCommand := by
  unfold endCommand
  rw [if_neg (by simp [h])]
  dsimp only
  rw [(nextCommand_scan sym rest _).2.2.2.2.2]

theorem endCommand_follows {sym : Sym} {lead rest : List Char} {st st₀ : St}
    {next : Option Scan}
    (hnext : next = if st.needcmd || decide (sym = .eol) then none
      else some ⟨true, sym ≠ .semicolon, false, rest.dropWhile isspace⟩)
    (hout : sym ≠ .semicolon → sym ≠ .eol → st.fOut.isSome = true)
    (hstores : st.stores = st₀.stores) (hlen : sym ≠ .eol → rest.length < st₀.rest.length)
    (hresult : st.result = st₀.result) :
    Follows st₀ (none, next) (env.Succeeds ∧ st₀.result = 0)
      (endCommand env sym lead rest st) := by
  subst hnext
  have hnone : st₀.stores = st₀.stores ++ progStores [] := (List.append_nil _).symm
  cases hneed : st.needcmd with
  | true =>
      unfold endCommand
      rw [if_pos hneed]
      exact ⟨hstores.trans hnone, fun _ => rfl⟩
  | false =>
      rw [endCommand_eq sym lead rest hneed]
      obtain ⟨hrun, hrunOut⟩ :=
        runCommand_stores env ((st.cmd ++ lead).rdropWhile isspace) st
      have hzero : env.Succeeds ∧ st₀.result = 0 →
          (runCommand env ((st.cmd ++ lead).rdropWhile isspace) st).result = 0 :=
        fun hg => runCommand_succeeds hg.1 _ (hresult.trans hg.2)
      obtain ⟨st₁, hst₁⟩ : ∃ q, q = runCommand env ((st.cmd ++ lead).rdropWhile isspace) st :=
        ⟨_, rfl⟩
      rw [← hst₁] at hrun hrunOut hzero
      dsimp only
      rw [← hst₁]
      by_cases heol : sym = .eol
      · rw [if_pos heol]
        refine ⟨(hrun.trans hstores).trans hnone, fun _ => ?_⟩
        simp [heol]
      · rw [if_neg heol]
        obtain ⟨hscan, hst, hrest, hres, hst', -⟩ := nextCommand_scan sym rest st₁
        by_cases hneg : st₁.result < 0
        · rw [if_pos hneg]
          refine ⟨(hst'.trans (hrun.trans hstores)).trans hnone, fun hg => ?_⟩
          rw [hzero hg] at hneg
          exact absurd hneg (by simp)
        · rw [if_neg hneg]
          refine ⟨?_, (hst.trans (hrun.trans hstores)).trans hnone, ?_, fun hg => ?_⟩
          · rw [hscan, hrunOut]
            by_cases hsemi : sym = .semicolon
            · simp [hsemi]
            · simp [hsemi, heol, hout hsemi heol]
          · rw [hrest]
            exact hlen heol
          · rw [hres]
            exact hzero hg

/-- The white space that is left in front of a symbol. -/
def St.lead (st : St) : List Char :=
  if st.cmd = [] then [] else (st.rest.takeWhile isspace).take 1

theorem St.lead_space (st : St) : ∀ c ∈ st.lead, isspace c = true := by
  intro c hc
  rw [St.lead] at hc
  split_ifs at hc
  · exact absurd hc (by simp)
  · exact List.mem_takeWhile_imp (List.mem_of_mem_take hc)

theorem St.lead_length (st : St) : st.lead.length ≤ (st.rest.takeWhile isspace).length := by
  rw [St.lead]
  split_ifs
  · exact Nat.zero_le _
  · rw [List.length_take]
    exact Nat.min_le_right _ _

/-- The tests that come first at a redirection and at a pipe. -/
theorem tests_follow {st : St} {m : Message} {redirect has : Bool} {good : Prop}
    {p : Option (List Char) × Option Scan} {next : Next} (h : Follows st p good next) :
    Follows st (if !redirect || has then (none, none) else p) good
      (if !redirect then .shell st else if has then .leave (st.emiterror m) else next) := by
  have hnone : st.stores = st.stores ++ progStores [] := (List.append_nil _).symm
  cases redirect with
  | false => exact ⟨hnone, fun _ => rfl⟩
  | true =>
      cases has with
      | false => exact h
      | true => exact ⟨hnone, fun _ => rfl⟩

theorem step_follows (f : Flags) (env : Env) (st : St) :
    Follows st (scanStep f st.scan) (env.Succeeds ∧ st.result = 0) (step f env st) := by
  have hnone : st.stores = st.stores ++ progStores [] := (List.append_nil _).symm
  have hlt : (getSym f.multi st.rest).sym ≠ .eol →
      st.lead.length + (getSym f.multi st.rest).rest.length < st.rest.length := by
    intro h
    have h₁ := getSym_rest_length h
    have h₂ := st.lead_length
    omega
  have htoken : scan f.multi .start (st.rest.dropWhile isspace) = getSym f.multi st.rest := rfl
  unfold step scanStep St.scan
  dsimp only
  rw [htoken, ← St.lead]
  obtain ⟨token, htok⟩ : ∃ q, q = getSym f.multi st.rest := ⟨_, rfl⟩
  rw [← htok] at hlt ⊢
  cases hsym : token.sym with
  | word =>
      have hlen := hlt (by simp [hsym])
      have hrest : token.rest.length < st.rest.length := by omega
      dsimp only
      by_cases hneed : st.needcmd = true
      · rw [if_pos hneed, if_pos hneed]
        obtain ⟨prog, hprog⟩ : ∃ q, q = unquote f.globalMulti token.rest.head? none token.text :=
          ⟨_, rfl⟩
        rw [← hprog]
        have hstores : (st.storeProg prog).stores = st.stores ++ progStores [prog] := by
          simp [St.storeProg, progStores]
        by_cases hparen : prog.head? = some '('
        · rw [if_pos hparen, if_pos (show (st.storeProg prog).prog.head? = some '(' from hparen)]
          exact ⟨hstores, fun _ => rfl⟩
        · rw [if_neg hparen,
            if_neg (show ¬ (st.storeProg prog).prog.head? = some '(' from hparen)]
          exact ⟨rfl, hstores, hrest, fun hg => hg.2⟩
      · rw [if_neg hneed, if_neg hneed]
        exact ⟨rfl, hnone, hrest, fun hg => hg.2⟩
  | redirInput | redirOutput | redirAppend =>
      apply tests_follow
      exact redirectTo_follows (fun _ _ => ⟨rfl, rfl, rfl, rfl⟩) st.lead_space
        (hlt (by simp [hsym])) (fun hg => hg.2)
  | pipe =>
      have hlen := hlt (by simp [hsym])
      apply tests_follow
      exact endCommand_follows (by simp) (fun _ _ => rfl) rfl (fun _ => by omega) rfl
  | semicolon =>
      have hlen := hlt (by simp [hsym])
      exact endCommand_follows (by simp) (fun h => absurd rfl h) rfl (fun _ => by omega) rfl
  | eol =>
      exact endCommand_follows (by simp) (fun _ h => absurd rfl h) rfl (fun h => absurd rfl h) rfl
  | unmatchedQuote => exact ⟨hnone, fun _ => rfl⟩

theorem progStores_append (ps qs : List (List Char)) :
    progStores (ps ++ qs) = progStores ps ++ progStores qs :=
  List.flatMap_append

theorem removed_stores (st : St) :
    ((st.remove st.rmIn st.fIn).remove st.rmOut st.fOut).stores = st.stores := by
  unfold St.remove
  split_ifs <;> rfl

theorem loop_stores (f : Flags) (env : Env) (n : ℕ) (st : St) (hn : st.rest.length < n) :
    ∃ r ps, loop f env n st = some r ∧ ps <+: scanPrograms f n st.scan ∧
      r.st.stores = st.stores ++ progStores ps ∧
      (env.Succeeds ∧ st.result = 0 → ps = scanPrograms f n st.scan) := by
  induction n generalizing st with
  | zero => exact absurd hn (Nat.not_lt_zero _)
  | succ n ih =>
      have h := step_follows f env st
      obtain ⟨⟨prog, next⟩, hp⟩ : ∃ p, p = scanStep f st.scan := ⟨_, rfl⟩
      rw [← hp] at h
      rw [loop, scanPrograms, ← hp]
      have hlast : prog.toList <+: (match (prog, next) with
          | (prog, none) => prog.toList
          | (prog, some sc) => prog.toList ++ scanPrograms f n sc) := by
        cases next with
        | none => exact List.prefix_rfl
        | some sc => exact List.prefix_append _ _
      cases hstep : step f env st with
      | again st' =>
          rw [hstep] at h
          obtain ⟨hnext, hstores, hlen, hzero⟩ := h
          dsimp only at hnext
          subst hnext
          obtain ⟨r, ps, hr, hps, hst, hgood⟩ := ih st' (by omega)
          refine ⟨r, prog.toList ++ ps, hr, ?_, ?_, ?_⟩
          · exact (List.prefix_append_right_inj _).mpr hps
          · rw [hst, hstores, progStores_append, List.append_assoc]
          · intro hg
            rw [hgood ⟨hg.1, hzero hg⟩]
      | leave st' =>
          rw [hstep] at h
          refine ⟨_, prog.toList, rfl, hlast, ?_, ?_⟩
          · rw [removed_stores]
            exact h.1
          · intro hg
            rw [show next = none from h.2 hg]
      | shell st' =>
          rw [hstep] at h
          refine ⟨_, prog.toList, rfl, hlast, h.1, ?_⟩
          intro hg
          rw [show next = none from h.2 hg]

theorem mem_progStores {ps : List (List Char)} {o : ℕ} :
    o ∈ progStores ps ↔ ∃ p ∈ ps, o ≤ p.length := by
  rw [progStores, List.mem_flatMap]
  simp only [List.mem_range, Nat.lt_succ_iff]

theorem scanPrograms_nil (f : Flags) (n : ℕ) (sc : Scan) (h : sc.rest = []) :
    scanPrograms f n sc = [] := by
  cases n with
  | zero => rfl
  | succ n =>
      rw [scanPrograms, scanStep, h]
      rfl

/-- An environment in which everything succeeds. -/
def goodEnv : Env := ⟨false, 0, fun _ => 0, fun _ => [], fun _ => ⟨0, 0, 0, 0⟩⟩

theorem goodEnv_succeeds : goodEnv.Succeeds :=
  ⟨fun _ => rfl, fun _ => ⟨le_rfl, le_rfl, le_rfl, le_rfl⟩⟩

/-- Whatever the children and the files do, `system` stores into `prog` only within its
bytes, if and only if every program word of the line is shorter than `prog`. -/
theorem system_storesInside_iff (f : Flags) (line : List Char) :
    (∀ env, ∃ r, system f env line = some r ∧ ∀ o ∈ r.st.stores, o < lTmpnam) ↔
      ∀ p ∈ programs f line, p.length < lTmpnam := by
  obtain ⟨text, htext⟩ : ∃ q, q = line.dropWhile isspace := ⟨_, rfl⟩
  have hscan : (St.start text).scan = ⟨true, false, false, text⟩ := by
    have hdrop : text.dropWhile isspace = text := by
      rw [htext, List.dropWhile_idempotent]
    rw [St.scan]
    change (⟨true, false, false, text.dropWhile isspace⟩ : Scan) = _
    rw [hdrop]
  unfold system programs
  dsimp only
  rw [← htext]
  constructor
  · intro h p hp
    obtain ⟨r, hr, hinside⟩ := h goodEnv
    by_cases hnil : text = []
    · rw [scanPrograms_nil f _ _ hnil] at hp
      exact absurd hp (by simp)
    · rw [if_neg (by simp [hnil, goodEnv])] at hr
      obtain ⟨r', ps, hr', -, hstores, hall⟩ := loop_stores f goodEnv (text.length + 1)
        (.start text) (Nat.lt_succ_self _)
      rw [hr] at hr'
      obtain rfl := Option.some.inj hr'
      apply hinside
      rw [hstores, hall ⟨goodEnv_succeeds, rfl⟩, hscan]
      exact mem_progStores.mpr ⟨p, hp, Nat.le_refl _⟩
  · intro h env
    by_cases hshell : text = [] ∨ env.callShell
    · rw [if_pos hshell]
      exact ⟨_, rfl, fun o ho => absurd ho (by simp [St.start])⟩
    · rw [if_neg hshell]
      obtain ⟨r, ps, hr, hps, hstores, -⟩ := loop_stores f env (text.length + 1) (.start text)
        (Nat.lt_succ_self _)
      refine ⟨r, hr, fun o ho => ?_⟩
      rw [hstores] at ho
      obtain ⟨p, hp, hle⟩ := mem_progStores.mp ho
      rw [hscan] at hps
      exact Nat.lt_of_le_of_lt hle (h p (hps.subset hp))

/-- A command of 260 letters: its NUL is stored behind the end of `prog`. -/
theorem long_word_overruns :
    ((system ⟨true, false, false⟩ goodEnv (List.replicate 260 'a')).map fun r =>
      r.st.stores.contains lTmpnam) = some true := by
  decide +kernel

end DjgppLibc.System
