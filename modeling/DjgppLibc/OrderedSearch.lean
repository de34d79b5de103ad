import Mathlib.Data.List.TakeWhile
import Mathlib.Data.List.Infix
import Mathlib.Data.List.ReduceOption

/-!
# Numbers looked for in order

A reader goes through a list of marks and looks for the numbers up to a goal, one
after the other: it takes the next one wherever it meets it, and stops at the goal.
A mark that is `none` makes it lose its way. The reader reaches the goal in one
pass if the numbers occur in their order before the first such mark, and it gets
ahead in every pass if there is none and every number occurs.
-/
namespace DjgppLibc.OrderedSearch

/-- How a pass ends; `reached next` is the end of the list with `next` not yet found. -/
inductive Outcome where
  | found
  | lost
  | reached (next : ℕ)
  deriving DecidableEq, Repr

variable {goal next next' : ℕ} {ms ms' : List (Option ℕ)}

def search (goal : ℕ) : ℕ → List (Option ℕ) → Outcome
  | next, [] => .reached next
  | _, none :: _ => .lost
  | next, some j :: ms =>
      if j = next then if next = goal then .found else search goal (next + 1) ms
      else search goal next ms

theorem search_append (goal next : ℕ) (ms ms' : List (Option ℕ)) :
    search goal next (ms ++ ms') =
      match search goal next ms with
      | .reached next' => search goal next' ms'
      | o => o := by
  induction ms generalizing next with
  | nil => rfl
  | cons m ms ih =>
      cases m with
      | none => rfl
      | some j =>
          rw [List.cons_append, search, search]
          split_ifs
          · rfl
          · exact ih (next + 1)
          · exact ih next

theorem search_bounds (h : search goal next ms = .reached next') (hle : next ≤ goal) :
    next ≤ next' ∧ next' ≤ goal := by
  induction ms generalizing next with
  | nil =>
      obtain rfl : next = next' := Outcome.reached.inj h
      exact ⟨Nat.le_refl _, hle⟩
  | cons m ms ih =>
      cases m with
      | none => cases h
      | some j =>
          rw [search] at h
          split_ifs at h with hj hgoal
          · obtain ⟨h₁, h₂⟩ := ih h (by omega)
            exact ⟨by omega, h₂⟩
          · exact ih h hle

/-- The last mark is not the number that is still looked for. -/
theorem search_last {j : ℕ} (h : search goal next (ms ++ [some j]) = .reached next') :
    j ≠ next' := by
  rw [search_append] at h
  cases hms : search goal next ms with
  | found => rw [hms] at h; cases h
  | lost => rw [hms] at h; cases h
  | reached i =>
      rw [hms] at h
      dsimp only [search] at h
      split_ifs at h with hj
      · have := Outcome.reached.inj h
        omega
      · have := Outcome.reached.inj h
        omega

/-- The numbers in front of the first mark that is none. -/
def legible (ms : List (Option ℕ)) : List ℕ := (ms.takeWhile Option.isSome).reduceOption

theorem search_of_sublist (h : (List.range' next (goal + 1 - next)).Sublist (legible ms))
    (hle : next ≤ goal) : search goal next ms = .found := by
  induction ms generalizing next with
  | nil =>
      rw [show goal + 1 - next = goal - next + 1 by omega, List.range'_succ] at h
      cases h
  | cons m ms ih =>
      cases m with
      | none =>
          rw [show goal + 1 - next = goal - next + 1 by omega, List.range'_succ] at h
          cases h
      | some j =>
          have hlegible : legible (some j :: ms) = j :: legible ms := by
            simp [legible, List.reduceOption_cons_of_some]
          rw [hlegible, show goal + 1 - next = goal - next + 1 by omega, List.range'_succ] at h
          rw [search]
          split_ifs with hj hgoal
          · rfl
          · refine ih ?_ (by omega)
            rw [show goal + 1 - (next + 1) = goal - next by omega]
            exact (hj ▸ h).of_cons_cons
          · refine ih ?_ hle
            rw [show goal + 1 - next = goal - next + 1 by omega, List.range'_succ]
            exact h.of_cons_of_ne (fun heq => hj heq.symm)

theorem search_of_isSome (hsome : ∀ m ∈ ms, m.isSome) :
    search goal next ms = .found ∨ ∃ next', search goal next ms = .reached next' := by
  induction ms generalizing next with
  | nil => exact .inr ⟨next, rfl⟩
  | cons m ms ih =>
      have hms : ∀ m ∈ ms, m.isSome := fun m hm => hsome m (List.mem_cons_of_mem _ hm)
      cases m with
      | none => exact absurd (hsome none List.mem_cons_self) (by simp)
      | some j =>
          rw [search]
          split_ifs
          · exact .inl rfl
          · exact ih hms
          · exact ih hms

/-- A pass that meets the next number gets ahead. -/
theorem search_of_mem (hsome : ∀ m ∈ ms, m.isSome) (hmem : some next ∈ ms) (hle : next ≤ goal) :
    search goal next ms = .found ∨ ∃ next', search goal next ms = .reached next' ∧
    next < next' := by
  induction ms with
  | nil => cases hmem
  | cons m ms ih =>
      have hms : ∀ m ∈ ms, m.isSome := fun m hm => hsome m (List.mem_cons_of_mem _ hm)
      cases m with
      | none => exact absurd (hsome none List.mem_cons_self) (by simp)
      | some j =>
          rw [search]
          split_ifs with hj hgoal
          · exact .inl rfl
          · rcases search_of_isSome hms with hfound | ⟨next', hreached⟩
            · exact .inl hfound
            · obtain ⟨hlt, -⟩ := search_bounds hreached (by omega)
              exact .inr ⟨next', hreached, hlt⟩
          · have hne : some next ≠ some j := fun h => hj (Option.some.inj h).symm
            exact ih hms (List.mem_of_ne_of_mem hne hmem)

/-- The reader comes to `target` over the marks, if from every number it can have reached it goes
on by `next`. -/
def Leads (goal next : ℕ) (ms : List (Option ℕ)) (onward : ℕ → Prop) (target : Prop) : Prop :=
  match search goal next ms with
  | .found => target
  | .lost => True
  | .reached next' => onward next' → target

variable {onward onward' : ℕ → Prop} {target : Prop}

theorem Leads.append (h : Leads goal next ms onward target)
    (h' : ∀ next', search goal next ms = .reached next' →
      Leads goal next' ms' onward' (onward next')) :
    Leads goal next (ms ++ ms') onward' target := by
  unfold Leads at h h' ⊢
  rw [search_append]
  cases hms : search goal next ms with
  | found => rw [hms] at h; exact h
  | lost => trivial
  | reached next' =>
      rw [hms] at h
      have hrest := h' next' hms
      dsimp only
      cases hms' : search goal next' ms' with
      | found => rw [hms'] at hrest; exact h hrest
      | lost => trivial
      | reached next'' => rw [hms'] at hrest; exact fun hon => h (hrest hon)

theorem Leads.mono {target' : Prop} (h : Leads goal next ms onward target)
    (ht : target → target') : Leads goal next ms onward target' := by
  unfold Leads at h ⊢
  cases hms : search goal next ms with
  | found => rw [hms] at h; exact ht h
  | lost => trivial
  | reached next' => rw [hms] at h; exact fun hon => ht (h hon)

theorem Leads.of_onward (h : Leads goal next ms onward target)
    (hon : ∀ next', onward' next' → onward next') : Leads goal next ms onward' target := by
  unfold Leads at h ⊢
  cases hms : search goal next ms with
  | found => rw [hms] at h; exact h
  | lost => trivial
  | reached next' => rw [hms] at h; exact fun hnext => h (hon next' hnext)

theorem Leads.all {α : Type*} {P T : α → Prop}
    (h : ∀ x, P x → Leads goal next ms onward (T x)) :
    Leads goal next ms onward (∀ x, P x → T x) := by
  unfold Leads at h ⊢
  cases hms : search goal next ms with
  | found => rw [hms] at h; exact h
  | lost => trivial
  | reached next' => rw [hms] at h; exact fun hon x hx => h x hx hon

theorem leads_lost : Leads goal next (none :: ms) onward target := trivial

end DjgppLibc.OrderedSearch
