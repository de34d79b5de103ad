import Mathlib.Data.Nat.Notation

/-!
# Computations with a state that may fail

`Ensures x s Q` says that `x`, started in the state `s`, does not fail, and that its value and
its last state satisfy `Q`. Failure stands for everything a program must not do, an access out of
bounds or a loop that goes on for longer than the steps it was given.
-/
namespace DjgppLibc.TotalCorrectness

variable {σ α β : Type}

def Ensures (x : StateT σ Option α) (s : σ) (Q : α → σ → Prop) : Prop :=
  ∃ a s', x s = some (a, s') ∧ Q a s'

theorem Ensures.pure {a : α} {s : σ} {Q : α → σ → Prop} (h : Q a s) : Ensures (pure a) s Q :=
  ⟨a, s, rfl, h⟩

theorem Ensures.bind {x : StateT σ Option α} {f : α → StateT σ Option β} {s : σ}
    {Q : α → σ → Prop} {R : β → σ → Prop} (hx : Ensures x s Q)
    (hf : ∀ a s', Q a s' → Ensures (f a) s' R) : Ensures (x >>= f) s R := by
  obtain ⟨a, s', hrun, hQ⟩ := hx
  obtain ⟨b, s'', hrun', hR⟩ := hf a s' hQ
  refine ⟨b, s'', ?_, hR⟩
  show (x s).bind (fun p => f p.1 p.2) = _
  rw [hrun]
  exact hrun'

theorem Ensures.mono {x : StateT σ Option α} {s : σ} {Q R : α → σ → Prop} (hx : Ensures x s Q)
    (h : ∀ a s', Q a s' → R a s') : Ensures x s R := by
  obtain ⟨a, s', hrun, hQ⟩ := hx
  exact ⟨a, s', hrun, h a s' hQ⟩

end DjgppLibc.TotalCorrectness
