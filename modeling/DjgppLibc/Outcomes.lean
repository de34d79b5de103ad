import Mathlib.Data.List.Basic

/-!
# Exactly when a fallible program goes wrong

A program may stop with errors of several kinds, some of which are faults. `Outcome`
gives the exact condition under which no fault happens: a run that ends normally meets
it, and a run that ends in a fault does not. The rules go through a program step by
step; a loop has the conditions of all of its turns.
-/
namespace DjgppLibc.Outcomes

universe u

variable {ε : Type*} {α β : Type u}

/-- A normal end is safe and leaves a result with `P`, and a fault is not safe. -/
structure Outcome (fault : ε → Prop) (safe : Prop) (P : α → Prop) (x : Except ε α) : Prop where
  ok : ∀ a, x = .ok a → safe ∧ P a
  error : ∀ e, x = .error e → fault e → ¬ safe

variable {fault : ε → Prop} {e : ε} {p q : Prop} {P P' : α → Prop} {Q : β → Prop}
  {x : Except ε α} {a : α}

theorem Outcome.pure (h : P a) : Outcome fault True P (.ok a : Except ε α) :=
  ⟨fun _ hb => by cases hb; exact ⟨trivial, h⟩, fun _ hb => (nomatch hb)⟩

/-- An error that is no fault says nothing about the condition. -/
theorem Outcome.other (h : ¬ fault e) : Outcome fault p P (.error e : Except ε α) :=
  ⟨fun _ hb => (nomatch hb), fun _ hb hf => absurd hf (by cases hb; exact h)⟩

theorem Outcome.stop (h : ¬ p) : Outcome fault p P (.error e : Except ε α) :=
  ⟨fun _ hb => (nomatch hb), fun _ _ _ => h⟩

theorem Outcome.congr (h : Outcome fault p P x) (hpq : p ↔ q) : Outcome fault q P x :=
  ⟨fun a hx => (h.ok a hx).imp_left hpq.mp, fun e hx hf => mt hpq.mpr (h.error e hx hf)⟩

theorem Outcome.mono (h : Outcome fault p P x) (hP : ∀ a, P a → P' a) : Outcome fault p P' x :=
  ⟨fun a hx => (h.ok a hx).imp_right (hP a), h.error⟩

theorem Outcome.bind {f : α → Except ε β} (hx : Outcome fault p P x)
    (hf : ∀ a, p → P a → Outcome fault q Q (f a)) : Outcome fault (p ∧ q) Q (x >>= f) := by
  cases x with
  | error e =>
      refine ⟨fun _ hb => (nomatch hb), fun e' hb he hpq => ?_⟩
      cases hb
      exact hx.error e rfl he hpq.1
  | ok a =>
      obtain ⟨hp, ha⟩ := hx.ok a rfl
      have hfa := hf a hp ha
      exact ⟨fun b hb => (hfa.ok b hb).imp_left fun hq => ⟨hp, hq⟩,
        fun e hb he hpq => hfa.error e hb he hpq.2⟩

theorem Outcome.andThen {f : α → Except ε β} (hx : Outcome fault True P x)
    (hf : ∀ a, P a → Outcome fault True Q (f a)) : Outcome fault True Q (x >>= f) :=
  (hx.bind fun a _ ha => hf a ha).congr (and_self_iff)

theorem Outcome.foldlM {f : α → β → Except ε α} {safe : β → Prop} (l : List β) (ha : P a)
    (hf : ∀ b ∈ l, ∀ a, P a → Outcome fault (safe b) P (f a b)) :
    Outcome fault (∀ b ∈ l, safe b) P (l.foldlM f a) := by
  induction l generalizing a with
  | nil => exact (Outcome.pure ha).congr (by simp)
  | cons b l ih =>
      rw [List.foldlM_cons]
      refine ((hf b List.mem_cons_self a ha).bind fun a' _ ha' =>
        ih ha' fun c hc => hf c (List.mem_cons_of_mem b hc)).congr ?_
      rw [List.forall_mem_cons]

theorem Outcome.foldlM_true {f : α → β → Except ε α} (l : List β) (ha : P a)
    (hf : ∀ b ∈ l, ∀ a, P a → Outcome fault True P (f a b)) :
    Outcome fault True P (l.foldlM f a) :=
  (Outcome.foldlM l ha hf).congr (iff_of_true (fun _ _ => trivial) trivial)

theorem Outcome.iff (h : Outcome fault p P x) (hend : ∀ e, x = .error e → fault e) :
    p ↔ ∀ e, x ≠ .error e := by
  refine ⟨fun hp e hx => h.error e hx (hend e hx) hp, fun hx => ?_⟩
  cases x with
  | ok a => exact (h.ok a rfl).1
  | error e => exact absurd rfl (hx e)

end DjgppLibc.Outcomes
