import Mathlib.Data.List.Basic

/-!
# The longest prefix with a property

A reader that takes as much of its text as it can is described by what it may take.
-/
namespace DjgppLibc.LongestPrefix

variable {α : Type*} {P Q : List α → Prop} {a : α} {text t : List α}

/-- Among the prefixes of the text that have the property, `t` is the longest. -/
structure Longest (P : List α → Prop) (text t : List α) : Prop where
  holds : P t
  isPrefix : t <+: text
  longest : ∀ p, P p → p <+: text → p.length ≤ t.length

/-- No element can be taken. -/
theorem Longest.nil (hnil : P []) (hstop : ∀ p, P p → p <+: text → p = []) : Longest P text [] where
  holds := hnil
  isPrefix := List.nil_prefix
  longest p hp hstarts := Nat.le_of_eq (congrArg List.length (hstop p hp hstarts))

theorem Longest.cons (h : Longest Q text t) (hstep : ∀ p, P (a :: p) ↔ Q p) :
    Longest P (a :: text) (a :: t) where
  holds := (hstep t).mpr h.holds
  isPrefix := (List.prefix_cons_inj a).mpr h.isPrefix
  longest p hp hstarts := by
    cases p with
    | nil => exact Nat.zero_le _
    | cons b p =>
        obtain ⟨rfl, hrest⟩ := List.cons_prefix_cons.mp hstarts
        exact Nat.succ_le_succ (h.longest p ((hstep p).mp hp) hrest)

theorem Longest.congr (h : Longest Q text t) (hiff : ∀ p, p <+: text → (P p ↔ Q p)) :
    Longest P text t where
  holds := (hiff t h.isPrefix).mpr h.holds
  isPrefix := h.isPrefix
  longest p hp hstarts := h.longest p ((hiff p hstarts).mp hp) hstarts

end DjgppLibc.LongestPrefix
