import DjgppLibc.DlopenRuns

/-!
# The memory of the loaded modules

Handles in memory are those of the chain, and those that `dlclose` is about to free. A program
that closes what it has opened leaves none.
-/
namespace DjgppLibc.Dlopen

open ReferenceCounts Runs

variable {env : Env} {s s' : State} {freeing : List Addr} {h : Addr}

/-- The handles in memory, unless the chain has been lost. -/
def Listed (freeing : List Addr) (s : State) : Prop :=
  s.lost = false → ∀ k, s.heap k ≠ none → k ∈ s.chain ∨ k ∈ freeing

theorem Listed.store (hs : Listed freeing s) {d d' : Handle} (hd : s.heap h = some d) :
    Listed freeing (s.store h d') := by
  intro hlost k hk
  refine hs hlost k fun hnone => hk ?_
  have hne : k ≠ h := by
    rintro rfl
    exact absurd (hd.symm.trans hnone) (by simp)
  exact (if_neg hne).trans hnone

theorem Listed.foldlM {f : State → Addr → Option State}
    (hf : ∀ {s s' g}, Listed freeing s → f s g = some s' → Listed freeing s') {gs : List Addr}
    (hs : Listed freeing s) (hrun : gs.foldlM f s = some s') : Listed freeing s' := by
  induction gs generalizing s with
  | nil => exact Option.some.inj hrun ▸ hs
  | cons g gs ih =>
      rw [List.foldlM_cons] at hrun
      obtain ⟨s₁, hg, hrest⟩ := Option.bind_eq_some_iff.mp hrun
      exact ih (hf hs hg) hrest

/-- While a handle is being freed it is neither on the chain nor gone. -/
theorem closeHandle_listed {fuel : ℕ} (hs : Listed freeing s)
    (hrun : closeHandle fuel h s = some s') : Listed freeing s' := by
  induction fuel generalizing freeing h s s' with
  | zero => cases hrun
  | succ fuel ih =>
      rw [closeHandle] at hrun
      cases hd : s.heap h with
      | none =>
          rw [hd] at hrun
          cases hrun
      | some d =>
          rw [hd] at hrun
          dsimp only at hrun
          split_ifs at hrun with hlast
          · exact Option.some.inj hrun ▸ hs.store hd
          · obtain ⟨s₂, hdeps, rfl⟩ := Option.map_eq_some_iff.mp hrun
            have hout : Listed (h :: freeing) { s.store h { d with inuse := d.inuse - 1 } with
                chain := s.chain.erase h } := by
              intro hlost k hk
              by_cases hkh : k = h
              · exact .inr (hkh ▸ List.mem_cons_self)
              · exact (hs.store hd hlost k hk).imp (List.mem_erase_of_ne hkh).mpr
                  (List.mem_cons_of_mem h)
            intro hlost k hk
            have hkh : k ≠ h := fun he => hk (if_pos he)
            have hleft := hout.foldlM ih hdeps hlost k fun hnone => hk ((if_neg hkh).trans hnone)
            exact hleft.imp_right (List.mem_of_ne_of_mem hkh)

/-- What a call leaves, whatever its value is. -/
def Leaves {α : Type} (x : Option (α × State)) : Prop := ∀ a s', x = some (a, s') → Listed [] s'

theorem giveUp_leaves {deps : List Addr} (hs : Listed [] s) : Leaves (giveUp deps s) := by
  intro res s' hrun
  obtain ⟨s₁, hclose, heq⟩ := Option.map_eq_some_iff.mp hrun
  obtain ⟨-, rfl⟩ := Prod.mk.inj heq
  exact hs.foldlM closeHandle_listed hclose

theorem failsOneOf_listed {n : ℕ} {b : Bool} (hs : Listed [] s)
    (heq : failsOneOf env n s = (b, s')) : Listed [] s' := by
  obtain ⟨t, ht⟩ := @failsOneOf_eq env n s
  rw [heq] at ht
  obtain rfl : s' = { s with tick := t } := ht
  exact hs

theorem loadDeps_leaves {opn : String → State → Option (Option Addr × State)}
    (hopn : ∀ name {s}, Listed [] s → Leaves (opn name s)) {names : List String} {deps : List Addr}
    (hs : Listed [] s) {ok : Bool} {deps' : List Addr}
    (hrun : loadDeps env opn names deps s = some (ok, deps', s')) : Listed [] s' := by
  induction names generalizing deps s with
  | nil =>
      cases hrun
      exact hs
  | cons name names ih =>
      rw [loadDeps] at hrun
      cases hcall : opn name s with
      | none =>
          rw [hcall] at hrun
          cases hrun
      | some r =>
          obtain ⟨res, s₁⟩ := r
          have hs₁ := hopn name hs res s₁ hcall
          rw [hcall] at hrun
          cases res with
          | none =>
              cases hrun
              exact hs₁
          | some g =>
              dsimp only at hrun
              cases hentry : failsOneOf env 1 s₁ with
              | mk fails s₂ =>
                  have hs₂ := failsOneOf_listed hs₁ hentry
                  rw [hentry] at hrun
                  cases fails with
                  | true =>
                      obtain ⟨s₃, hclose, heq⟩ := Option.map_eq_some_iff.mp hrun
                      cases heq
                      exact closeHandle_listed hs₂ hclose
                  | false => exact ih hs₂ hrun

theorem link_leaves {file : ModuleFile} {realfn : String} {mode : BitVec 32} {deps : List Addr}
    (hs : Listed [] s) : Leaves (link env file realfn mode deps s) := by
  obtain ⟨t, ht⟩ := @resolveAll_eq env file.unres s
  unfold link
  cases hresolved : resolveAll env file.unres s with
  | mk unresolved s₁ =>
      rw [hresolved] at ht
      have hs₁ : Listed [] s₁ := by
        obtain rfl : s₁ = { s with tick := t } := ht
        exact hs
      dsimp only
      split_ifs
      · exact giveUp_leaves hs₁
      cases hexports : failsOneOf env 1 s₁ with
      | mk fails s₂ =>
          have hs₂ := failsOneOf_listed hs₁ hexports
          cases fails with
          | true => exact giveUp_leaves hs₂
          | false =>
              dsimp only
              cases hhandle : failsOneOf env 1 s₂ with
              | mk fails s₃ =>
                  have hs₃ := failsOneOf_listed hs₂ hhandle
                  cases fails with
                  | true =>
                      refine giveUp_leaves fun hlost k hk => ?_
                      obtain ⟨hwas, hchain⟩ := Bool.or_eq_false_iff.mp hlost
                      have hnil : s₃.chain = [] := by simpa using hchain
                      have hleft := hs₃ hwas k hk
                      rw [hnil] at hleft
                      exact hleft
                  | false =>
                      intro res s' hrun
                      cases hrun
                      intro hlost k hk
                      by_cases hnew : k = s₃.brk
                      · exact .inl (hnew ▸ List.mem_cons_self)
                      · have hold : s₃.heap k ≠ none := fun hnone => hk ((if_neg hnew).trans hnone)
                        exact (hs₃ hlost k hold).imp_left (List.mem_cons_of_mem _)

theorem openModule_leaves {fuel : ℕ} {stk : List String} {filename : String} {mode : BitVec 32}
    (hs : Listed [] s) : Leaves (openModule env fuel stk filename mode s) := by
  induction fuel generalizing stk filename mode s with
  | zero =>
      intro res s' hrun
      cases hrun
  | succ fuel ih =>
      intro res s' hrun
      rw [openModule] at hrun
      split at hrun
      · cases hrun
        exact hs
      next realfn _ =>
      split_ifs at hrun with hstk
      · cases hrun
        exact hs
      split at hrun
      · next cur _ =>
        cases hd : s.heap cur with
        | none =>
            rw [hd] at hrun
            cases hrun
        | some d =>
            rw [hd] at hrun
            cases hrun
            exact hs.store hd
      · split at hrun
        · cases hrun
          exact hs
        next file _ =>
        cases hread : failsOneOf env 5 s with
        | mk fails s₁ =>
            have hs₁ := failsOneOf_listed hs hread
            rw [hread] at hrun
            cases fails with
            | true =>
                cases hrun
                exact hs₁
            | false =>
                dsimp only at hrun
                split at hrun
                · cases hrun
                · next deps s₂ hdeps =>
                  exact giveUp_leaves (loadDeps_leaves (fun _ {_} h => ih h) hs₁ hdeps) _ _ hrun
                · next deps s₂ hdeps =>
                  exact link_leaves (loadDeps_leaves (fun _ {_} h => ih h) hs₁ hdeps) _ _ hrun

theorem step_listed {w w' : World} {call : Call} (hs : Listed [] w.state)
    (hstep : step env w call = .ok w') : Listed [] w'.state := by
  cases call with
  | opn filename mode =>
      rw [step] at hstep
      split at hstep
      · next res s' hrun =>
        cases hstep
        exact openModule_leaves hs res s' hrun
      · cases hstep
  | close h =>
      rw [step] at hstep
      split at hstep
      · next s' hrun =>
        cases hstep
        exact closeHandle_listed hs hrun
      · cases hstep

/-- After every run that closes whatever it has opened no module is loaded, and the memory of all
handles has been freed unless the chain was lost on the way. -/
theorem runs_unload (env : Env) (calls : List Call)
    (hcalls : Along (step env) Allowed World.start calls) :
    ∃ w, exec (step env) World.start calls = .ok w ∧
      (w.opens = 0 → w.state.chain = [] ∧ (w.state.lost = false → ∀ h, w.state.heap h = none)) := by
  obtain ⟨w, hrun, ⟨nodes, hi⟩, hs⟩ := exec_invariant
    (J := fun w => (∃ nodes, Inv w.state nodes w.opens) ∧ Listed [] w.state)
    (fun w call hJ hcall _ => by
      obtain ⟨w', hstep, hi'⟩ := step_inv call hJ.1 hcall
      exact ⟨w', hstep, hi', step_listed hJ.2 hstep⟩)
    ⟨⟨[], start_inv⟩, fun _ k hk => absurd rfl hk⟩ hcalls hcalls
  refine ⟨w, hrun, fun hopens => ?_⟩
  have hnodes : nodes = [] := by
    have hcounted := hi.counted
    rw [hopens, ← List.append_nil nodes] at hcounted
    exact hcounted.added_eq_nil (Counted.empty _ w.state.count)
  have hchain : w.state.chain = [] := List.sublist_nil.mp (hnodes ▸ hi.chain)
  refine ⟨hchain, fun hlost h => by_contra fun hne => ?_⟩
  have hlisted := hs hlost h hne
  rw [hchain, or_self] at hlisted
  exact absurd hlisted List.not_mem_nil

/-- `a.dxe` loads `b.dxe`, which is then closed last. -/
def unloadingCalls : List Call := [.opn "a.dxe" 0, .opn "b.dxe" 0, .close 1, .close 0]

theorem runs_unload_shared :
    ∃ w, exec (step sharedEnv) World.start unloadingCalls = .ok w ∧ w.state.chain = [] ∧
      ∀ h, w.state.heap h = none := by
  obtain ⟨w, hrun, hw⟩ := runs_unload sharedEnv unloadingCalls (by decide +kernel)
  have hend : (exec (step sharedEnv) World.start unloadingCalls).toOption.map
      (fun w => (w.opens, w.state.lost)) = some (0, false) := by decide +kernel
  rw [hrun] at hend
  obtain ⟨hopens, hlost⟩ := Prod.mk.inj (Option.some.inj hend)
  obtain ⟨hchain, hheap⟩ := hw hopens
  exact ⟨w, hrun, hchain, hheap hlost⟩

end DjgppLibc.Dlopen
