import Mathlib.Order.Lattice

/-!
# A memory that remembers where it was written

Cells at all addresses, and the addresses of all stores. `Writes` describes what a program
does that writes to an interval of addresses, and rules say how such descriptions compose.
-/
namespace DjgppLibc

structure LoggedMemory (α : Type*) where
  mem : ℤ → α
  stores : List ℤ

namespace LoggedMemory

variable {α : Type*} {v v' v'' : LoggedMemory α} {lo hi lo' hi' : ℤ} {f g : ℤ → α}

def poke (v : LoggedMemory α) (a : ℤ) (x : α) : LoggedMemory α :=
  ⟨fun b => if b = a then x else v.mem b, a :: v.stores⟩

/-- Every address from `lo` up to `hi` is written, and it has the value that `f` gives. -/
structure Writes (v v' : LoggedMemory α) (lo hi : ℤ) (f : ℤ → α) : Prop where
  inside : ∀ x, lo ≤ x → x < hi → v'.mem x = f x
  outside : ∀ x, x < lo ∨ hi ≤ x → v'.mem x = v.mem x
  stores : ∀ a, a ∈ v'.stores ↔ a ∈ v.stores ∨ (lo ≤ a ∧ a < hi)

theorem Writes.refl (v : LoggedMemory α) (lo : ℤ) (f : ℤ → α) : Writes v v lo lo f where
  inside _ h h' := absurd h (not_le.2 h')
  outside _ _ := rfl
  stores _ := ⟨.inl, fun h => h.resolve_right fun h => absurd h.1 (not_le.2 h.2)⟩

theorem writes_poke (v : LoggedMemory α) (a : ℤ) (x : α) :
    Writes v (v.poke a x) a (a + 1) fun _ => x where
  inside b h h' := if_pos (by omega)
  outside b h := if_neg (by omega)
  stores b := by
    unfold poke
    rw [List.mem_cons, or_comm]
    refine or_congr_right ?_
    omega

/-- A write with the same values. -/
theorem Writes.congr (h : Writes v v' lo hi f) (hfg : ∀ x, lo ≤ x → x < hi → f x = g x) :
    Writes v v' lo hi g where
  inside x hlo hhi := (h.inside x hlo hhi).trans (hfg x hlo hhi)
  outside := h.outside
  stores := h.stores

theorem Writes.append (h : Writes v v' lo hi f) (h' : Writes v' v'' lo' hi' g) (hlo : lo ≤ lo')
    (hmid : lo' ≤ hi)
    (hhi : hi ≤ hi') : Writes v v'' lo hi' fun x => if x < lo' then f x else g x where
  inside x hx hx' := by
    split
    · rename_i hlt
      rw [h'.outside x (.inl hlt), h.inside x hx (by omega)]
    · exact h'.inside x (by omega) hx'
  outside x hx := by
    rw [h'.outside x (by omega), h.outside x (by omega)]
  stores a := by
    rw [h'.stores, h.stores, or_assoc]
    refine or_congr_right ?_
    omega

theorem Writes.overwrite (h : Writes v v' lo hi f) (h' : Writes v' v'' lo' hi' g) (hlo : lo ≤ lo')
    (hhi : hi' ≤ hi) :
    Writes v v'' lo hi fun x => if lo' ≤ x ∧ x < hi' then g x else f x where
  inside x hx hx' := by
    split
    · rename_i hin
      exact h'.inside x hin.1 hin.2
    · rw [h'.outside x (by omega), h.inside x hx hx']
  outside x hx := by
    by_cases hin : lo' ≤ x ∧ x < hi'
    · omega
    · rw [h'.outside x (by omega), h.outside x hx]
  stores a := by
    rw [h'.stores, h.stores, or_assoc]
    refine or_congr_right ?_
    omega

theorem Writes.cover (h : Writes v v' lo hi f) (h' : Writes v' v'' lo' hi' g) (hlo : lo' ≤ lo)
    (hhi : hi ≤ hi') :
    Writes v v'' lo' hi' g where
  inside := h'.inside
  outside x hx := by
    by_cases hin : lo ≤ x ∧ x < hi
    · omega
    · rw [h'.outside x hx, h.outside x (by omega)]
  stores a := by
    rw [h'.stores, h.stores, or_assoc]
    refine or_congr_right ?_
    omega

theorem Writes.prepend (h : Writes v v' lo hi f) (h' : Writes v' v'' lo' lo g) (hlo : lo' ≤ lo)
    (hhi : lo ≤ hi) :
    Writes v v'' lo' hi fun x => if x < lo then g x else f x where
  inside x hx hx' := by
    split
    · rename_i hlt
      exact h'.inside x hx hlt
    · rename_i hge
      rw [h'.outside x (.inr (by omega)), h.inside x (by omega) hx']
  outside x hx := by
    rw [h'.outside x (by omega), h.outside x (by omega)]
  stores a := by
    rw [h'.stores, h.stores, or_assoc]
    refine or_congr_right ?_
    omega

end LoggedMemory

end DjgppLibc
