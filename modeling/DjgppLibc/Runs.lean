import Mathlib.Order.WellFounded

/-!
# Runs of a machine that may stop

A machine takes one input at a time and either moves to a state or stops with
an error. `exec` runs a list of inputs, and `Along P` says that every step that
is taken meets the condition `P`, which may look at the state before the step.
Both are computable, so a concrete run can be evaluated. `exec_invariant` and
`exec_preserves` are the only inductions over runs that a safety result needs.
-/
namespace DjgppLibc.Runs

theorem bind_ok {ε α β : Type} {x : Except ε α} {f : α → Except ε β} {b : β}
    (h : (x >>= f) = .ok b) : ∃ a, x = .ok a ∧ f a = .ok b := by
  cases x with
  | error e => exact absurd h (by simp [bind, Except.bind])
  | ok a => exact ⟨a, rfl, h⟩

variable {σ ι ε : Type*} (step : σ → ι → Except ε σ)

def exec : σ → List ι → Except ε σ
  | s, [] => .ok s
  | s, i :: is =>
      match step s i with
      | .ok s' => exec s' is
      | .error e => .error e

def Along (P : σ → ι → Prop) : σ → List ι → Prop
  | _, [] => True
  | s, i :: is =>
      P s i ∧
        match step s i with
        | .ok s' => Along P s' is
        | .error _ => True

instance decidableAlong (P : σ → ι → Prop) [∀ s i, Decidable (P s i)] :
    ∀ s is, Decidable (Along step P s is)
  | _, [] => .isTrue trivial
  | s, i :: is =>
      have : Decidable
          (match step s i with
            | .ok s' => Along step P s' is
            | .error _ => True) :=
        match step s i with
        | .ok s' => decidableAlong P s' is
        | .error _ => .isTrue trivial
      inferInstanceAs (Decidable (P s i ∧ _))

variable {step}

/-- What one step preserves holds after every run, and no run stops. -/
theorem exec_invariant {P I : σ → ι → Prop} {J : σ → Prop}
    (hstep : ∀ s i, J s → P s i → I s i → ∃ s', step s i = .ok s' ∧ J s') {s : σ} {is : List ι}
    (hs : J s) (hP : Along step P s is) (hI : Along step I s is) :
    ∃ s', exec step s is = .ok s' ∧ J s' := by
  induction is generalizing s with
  | nil => exact ⟨s, rfl, hs⟩
  | cons i is ih =>
      obtain ⟨s', hs', hJ⟩ := hstep s i hs hP.1 hI.1
      have hP' := hP.2
      have hI' := hI.2
      rw [hs'] at hP' hI'
      obtain ⟨s'', hs'', hJ''⟩ := ih hJ hP' hI'
      exact ⟨s'', by rw [exec, hs']; exact hs'', hJ''⟩

theorem exec_preserves {J : σ → Prop} (hstep : ∀ s i s', J s → step s i = .ok s' → J s') {s t : σ}
    {is : List ι} (hs : J s) (h : exec step s is = .ok t) : J t := by
  induction is generalizing s with
  | nil => exact Except.ok.inj h ▸ hs
  | cons i is ih =>
      rw [exec] at h
      cases hi : step s i with
      | error e =>
          rw [hi] at h
          exact absurd h (by simp)
      | ok s' =>
          rw [hi] at h
          exact ih (hstep s i s' hs hi) h

theorem exec_prefixes_iff {P : σ → ι → Prop} {J Q : σ → Prop} (hJ : ∀ s, J s → Q s)
    (hstep : ∀ s i, J s → P s i → ∃ s', step s i = .ok s' ∧ J s')
    (hbreak : ∀ s i s', J s → ¬ P s i → step s i = .ok s' → ¬ Q s') {s : σ} {is : List ι}
    (hs : J s) :
    (∀ n, ∃ s', exec step s (is.take n) = .ok s' ∧ Q s') ↔ Along step P s is := by
  induction is generalizing s with
  | nil =>
      refine iff_of_true (fun n => ?_) trivial
      rw [List.take_nil]
      exact ⟨s, rfl, hJ s hs⟩
  | cons i is ih =>
      by_cases hP : P s i
      · obtain ⟨s', hs', hJ'⟩ := hstep s i hs hP
        rw [Along, hs']
        dsimp only
        rw [← ih hJ']
        constructor
        · intro h
          refine ⟨hP, fun n => ?_⟩
          have := h (n + 1)
          rwa [List.take_succ_cons, exec, hs'] at this
        · rintro ⟨-, h⟩ n
          cases n with
          | zero => exact ⟨s, rfl, hJ s hs⟩
          | succ n =>
              rw [List.take_succ_cons, exec, hs']
              exact h n
      · refine iff_of_false (fun h => ?_) fun h => hP h.1
        obtain ⟨s', hs', hQ⟩ := h 1
        rw [List.take_succ_cons, List.take_zero, exec] at hs'
        cases hi : step s i with
        | error e =>
            rw [hi] at hs'
            cases hs'
        | ok t =>
            rw [hi] at hs'
            exact hbreak s i s' hs hP (hi.trans hs') hQ

theorem along_of_total {P : ι → Prop} (hstep : ∀ s i, ∃ s', step s i = .ok s') {s : σ}
    {is : List ι} : Along step (fun _ i => P i) s is ↔ ∀ i ∈ is, P i := by
  induction is generalizing s with
  | nil => simp [Along]
  | cons i is ih =>
      obtain ⟨s', hs'⟩ := hstep s i
      rw [Along, hs', List.forall_mem_cons]
      exact and_congr_right fun _ => ih

section
variable {β : Type*} {r : β → β → Prop} {next : σ → σ} {final J : σ → Prop} {s : σ}

theorem iterate_invariant (hnext : ∀ s, J s → J (next s)) (hs : J s) (n : ℕ) : J (next^[n] s) := by
  induction n with
  | zero => exact hs
  | succ n ih =>
      rw [Function.iterate_succ_apply']
      exact hnext _ ih

theorem exists_final (hr : WellFounded r) (measure : σ → β) (hnext : ∀ s, J s → J (next s))
    (hless : ∀ s, J s → ¬ final s → final (next s) ∨ r (measure (next s)) (measure s))
    (hs : J s) : ∃ n, final (next^[n] s) := by
  obtain ⟨b, hb⟩ : ∃ b, b = measure s := ⟨_, rfl⟩
  induction b using hr.induction generalizing s with
  | _ b ih =>
      by_cases hfinal : final s
      · exact ⟨0, hfinal⟩
      · obtain hend | hmeasure := hless s hs hfinal
        · exact ⟨1, hend⟩
        · obtain ⟨n, hn⟩ := ih _ (hb ▸ hmeasure) (hnext s hs) rfl
          exact ⟨n + 1, hn⟩

end

end DjgppLibc.Runs
