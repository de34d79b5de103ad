import Mathlib.Data.List.Basic
import Mathlib.Data.Nat.ModEq

/-!
# Ring buffers

A buffer of a fixed size with a position to read from and one to write to. Its content is a
queue.
-/
namespace DjgppLibc

structure Ring (α : Type*) (size : ℕ) where
  cells : Fin size → α
  rpos : Fin size
  wpos : Fin size
  count : ℕ
  count_le : count ≤ size
  wpos_eq : (wpos : ℕ) = (rpos + count) % size

namespace Ring

variable {α : Type*} {size : ℕ} {q q' : Ring α size} {x : α}

def next (p : Fin size) : Fin size :=
  if h : p + 1 < size then ⟨p + 1, h⟩ else ⟨0, Nat.zero_lt_of_lt p.isLt⟩

/-- The cell behind `i` others. -/
def cell (q : Ring α size) (i : ℕ) : α := q.cells ⟨(q.rpos + i) % size,
      Nat.mod_lt _ (Nat.zero_lt_of_lt q.rpos.isLt)⟩

def contents (q : Ring α size) : List α := (List.range q.count).map q.cell

theorem next_val (p : Fin size) : (next p : ℕ) = (p + 1) % size := by
  have hp := p.isLt
  unfold next
  split
  · rename_i h
    exact (Nat.mod_eq_of_lt h).symm
  · have h : (p : ℕ) + 1 = size := by omega
    rw [h, Nat.mod_self]

def pop (q : Ring α size) (h : q.count ≠ 0) : Ring α size where
  cells := q.cells
  rpos := next q.rpos
  wpos := q.wpos
  count := q.count - 1
  count_le := Nat.le_trans (Nat.sub_le _ _) q.count_le
  wpos_eq := by
    have hsum : (q.rpos : ℕ) + q.count = q.rpos + 1 + (q.count - 1) := by omega
    rw [q.wpos_eq, next_val, Nat.mod_add_mod, hsum]

def push (q : Ring α size) (x : α) (h : q.count < size) : Ring α size where
  cells := Function.update q.cells q.wpos x
  rpos := q.rpos
  wpos := next q.wpos
  count := q.count + 1
  count_le := h
  wpos_eq := by rw [next_val, q.wpos_eq, Nat.mod_add_mod, Nat.add_assoc]

def get? (q : Ring α size) : Option (α × Ring α size) :=
  if h : q.count ≠ 0 then some (q.cells q.rpos, q.pop h) else none

def put? (q : Ring α size) (x : α) : Option (Ring α size) :=
  if h : q.count < size then some (q.push x h) else none

@[simp] theorem length_contents (q : Ring α size) : q.contents.length = q.count := by
  simp [contents]

theorem contents_eq_nil : q.contents = [] ↔ q.count = 0 := by
  rw [← List.length_eq_zero_iff, length_contents]

theorem get?_eq_none (h : q.contents = []) : q.get? = none :=
    dif_neg (not_not.2 (contents_eq_nil.1 h))

theorem contents_pop (h : q.count ≠ 0) : q.contents = q.cells q.rpos :: (q.pop h).contents := by
  obtain ⟨n, hn⟩ := Nat.exists_eq_succ_of_ne_zero h
  have hpop : (q.pop h).count = n := by
    change q.count - 1 = n
    omega
  rw [contents, contents, hn, hpop, List.range_succ_eq_map, List.map_cons, List.map_map]
  congr 1
  · rw [cell]
    congr 1
    exact Fin.ext (Nat.mod_eq_of_lt q.rpos.isLt)
  · refine List.map_congr_left fun i _ => ?_
    have hpos : ((q.rpos : ℕ) + (i + 1)) % size = ((next q.rpos : ℕ) + i) % size := by
      rw [next_val, Nat.mod_add_mod, Nat.add_right_comm, Nat.add_assoc]
    simp only [Function.comp_apply, cell, pop, Nat.succ_eq_add_one, hpos]

theorem contents_push (h : q.count < size) (x : α) : (q.push x h).contents = q.contents ++ [x] := by
  rw [contents, contents, push, List.range_succ, List.map_append, List.map_singleton]
  congr 1
  · refine List.map_congr_left fun i hi => ?_
    refine Function.update_of_ne ?_ _ _
    intro heq
    have hi := List.mem_range.1 hi
    have hmod : (q.rpos + i) % size = (q.rpos + q.count) % size :=
      (Fin.ext_iff.1 heq).trans q.wpos_eq
    have hcong : Nat.ModEq size i q.count := Nat.ModEq.add_left_cancel' _ hmod
    have := Nat.ModEq.eq_of_lt_of_lt hcong (hi.trans h) h
    omega
  · rw [cell]
    dsimp only
    have hpos : (⟨(q.rpos + q.count) % size, Nat.mod_lt _
      (Nat.zero_lt_of_lt q.rpos.isLt)⟩ : Fin size) = q.wpos :=
      Fin.ext q.wpos_eq.symm
    rw [hpos, Function.update_self]

/-- The first element of the content is taken. -/
theorem get?_cons {l : List α} (h : q.contents = x :: l) : ∃ q', q.get? = some (x, q') ∧
    q'.contents = l := by
  have hcount : q.count ≠ 0 := by
    intro h0
    rw [contents_eq_nil.2 h0] at h
    cases h
  rw [contents_pop hcount, List.cons.injEq] at h
  obtain ⟨rfl, rfl⟩ := h
  exact ⟨q.pop hcount, dif_pos hcount, rfl⟩

theorem put?_contents (h : q.count < size) (x : α) :
    ∃ q', q.put? x = some q' ∧ q'.contents = q.contents ++ [x] :=
  ⟨q.push x h, dif_pos h, contents_push h x⟩

end Ring

end DjgppLibc
