import Mathlib.Data.List.Basic
import DjgppLibc.LoggedMemory

/-!
# Texts in a logged memory

Code that fills a buffer from its start on writes a text to consecutive cells. `Fills`
says that a text has been written and that nothing else was; its rules put texts one
behind the other and replace the end of a text.
-/
namespace DjgppLibc.LoggedMemory

variable {α : Type*} {v v' v'' : LoggedMemory α} {a lo hi x : ℤ} {c : α} {s t u : List α}

def Reads (v : LoggedMemory α) : ℤ → List α → Prop
  | _, [] => True
  | a, c :: s => v.mem a = c ∧ v.Reads (a + 1) s

/-- A text is written to the cells from an address on, and nothing else is written. -/
structure Fills (v v' : LoggedMemory α) (a : ℤ) (s : List α) : Prop where
  reads : v'.Reads a s
  outside : ∀ x, x < a ∨ a + s.length ≤ x → v'.mem x = v.mem x
  stores : ∀ x, x ∈ v'.stores ↔ x ∈ v.stores ∨ (a ≤ x ∧ x < a + s.length)

def Inside (v : LoggedMemory α) (lo hi : ℤ) : Prop := ∀ x ∈ v.stores, lo ≤ x ∧ x < hi

instance (v : LoggedMemory α) (lo hi : ℤ) : Decidable (v.Inside lo hi) := List.decidableBAll _ _

/-- Nothing has been stored yet. -/
theorem inside_nil (f : ℤ → α) (lo hi : ℤ) : Inside ⟨f, []⟩ lo hi :=
    fun _ h => absurd h List.not_mem_nil

theorem Reads.congr (h : v.Reads a s) (hmem : ∀ x, a ≤ x → x < a + s.length → v'.mem x = v.mem x) :
    v'.Reads a s := by
  induction s generalizing a with
  | nil => trivial
  | cons c s ih =>
      rw [List.length_cons] at hmem
      exact ⟨(hmem a (by omega) (by omega)).trans h.1, ih h.2 fun x hx hx' =>
        hmem x (by omega) (by omega)⟩

theorem reads_append : v.Reads a (s ++ t) ↔ v.Reads a s ∧ v.Reads (a + s.length) t := by
  induction s generalizing a with
  | nil => simp [Reads]
  | cons c s ih =>
      rw [List.cons_append, Reads, ih, Reads, and_assoc, List.length_cons,
        show a + 1 + (s.length : ℤ) = a + ((s.length + 1 : ℕ) : ℤ) by omega]

theorem Reads.getElem? (h : v.Reads a s) {i : ℕ} (hi : i < s.length) :
    s[i]? = some (v.mem (a + i)) := by
  induction s generalizing a i with
  | nil => cases hi
  | cons c s ih =>
      cases i with
      | zero => simp [h.1]
      | succ i =>
          rw [List.getElem?_cons_succ, ih h.2 (Nat.lt_of_succ_lt_succ hi),
            show a + 1 + (i : ℤ) = a + ((i + 1 : ℕ) : ℤ) by omega]

theorem Fills.nil (v : LoggedMemory α) (a : ℤ) : Fills v v a [] where
  reads := trivial
  outside _ _ := rfl
  stores x := ⟨.inl, fun h => h.resolve_right fun h => by simp only [List.length_nil] at h; omega⟩

theorem fills_poke (v : LoggedMemory α) (a : ℤ) (c : α) : Fills v (v.poke a c) a [c] where
  reads := ⟨if_pos rfl, trivial⟩
  outside x h := by
    rw [List.length_singleton] at h
    exact if_neg (by omega)
  stores x := by
    rw [(writes_poke v a c).stores, List.length_singleton]
    rfl

theorem Fills.replace (h : Fills v v' a (s ++ t)) (h' : Fills v' v'' (a + s.length) u)
    (hlen : t.length ≤ u.length) : Fills v v'' a (s ++ u) where
  reads := by
    refine reads_append.mpr ⟨?_, h'.reads⟩
    exact (reads_append.mp h.reads).1.congr fun x hx hx' => h'.outside x (.inl hx')
  outside x hx := by
    rw [List.length_append] at hx
    rw [h'.outside x (by omega), h.outside x (by rw [List.length_append]; omega)]
  stores x := by
    rw [h'.stores, h.stores, List.length_append, List.length_append, or_assoc]
    refine or_congr_right ?_
    omega

theorem Fills.append (h : Fills v v' a s) (h' : Fills v' v'' (a + s.length) t) :
    Fills v v'' a (s ++ t) :=
  Fills.replace (s := s) (t := []) (by rwa [List.append_nil]) h' (Nat.zero_le _)

theorem Fills.inside_iff (h : Fills v v' a s) (hv : v.Inside lo hi) (hs : s ≠ []) :
    v'.Inside lo hi ↔ lo ≤ a ∧ a + s.length ≤ hi := by
  have hpos : 0 < s.length := List.length_pos_iff.mpr hs
  constructor
  · intro hin
    have hfirst := hin a ((h.stores a).mpr (.inr ⟨le_refl a, by omega⟩))
    have hlast := hin (a + s.length - 1) ((h.stores _).mpr (.inr ⟨by omega, by omega⟩))
    omega
  · rintro ⟨hlo, hhi⟩ x hx
    rcases (h.stores x).mp hx with hx | hx
    · exact hv x hx
    · omega

/-- A text is put to consecutive cells. -/
def putText (v : LoggedMemory α) (a : ℤ) : List α → LoggedMemory α
  | [] => v
  | c :: s => putText (v.poke a c) (a + 1) s

theorem fills_putText (v : LoggedMemory α) (a : ℤ) (s : List α) : Fills v (putText v a s) a s := by
  induction s generalizing v a with
  | nil => exact .nil v a
  | cons c s ih => exact (fills_poke v a c).append (ih (v.poke a c) (a + 1))

def peekText (v : LoggedMemory α) (a : ℤ) : ℕ → List α
  | 0 => []
  | n + 1 => v.mem a :: peekText v (a + 1) n

theorem Reads.peekText (h : v.Reads a s) : peekText v a s.length = s := by
  induction s generalizing a with
  | nil => rfl
  | cons c s ih => exact congrArg₂ List.cons h.1 (ih h.2)

structure Changes (v v' : LoggedMemory α) (S : ℤ → Prop) : Prop where
  mem : ∀ x, ¬ S x → v'.mem x = v.mem x
  stores : ∀ x ∈ v'.stores, x ∈ v.stores ∨ S x

variable {S T : ℤ → Prop}

theorem Changes.refl (v : LoggedMemory α) (S : ℤ → Prop) : Changes v v S :=
    ⟨fun _ _ => rfl, fun _ => .inl⟩

theorem Changes.trans (h : Changes v v' S) (h' : Changes v' v'' S) : Changes v v'' S where
  mem x hx := (h'.mem x hx).trans (h.mem x hx)
  stores x hx := (h'.stores x hx).elim (h.stores x) .inr

theorem Changes.mono (h : Changes v v' S) (hST : ∀ x, S x → T x) : Changes v v' T where
  mem x hx := h.mem x fun hS => hx (hST x hS)
  stores x hx := (h.stores x hx).imp_right (hST x)

theorem Fills.changes (h : Fills v v' a s) : Changes v v' fun x => a ≤ x ∧ x < a + s.length where
  mem x hx := h.outside x (by omega)
  stores x := (h.stores x).mp

theorem Changes.inside (h : Changes v v' S) (hv : v.Inside lo hi)
    (hS : ∀ x, S x → lo ≤ x ∧ x < hi) :
    v'.Inside lo hi := fun x hx => (h.stores x hx).elim (hv x) (hS x)

/-- A text is kept where nothing is changed. -/
theorem Reads.keep (h : v.Reads a s) (hc : Changes v v' S)
    (hS : ∀ x, a ≤ x → x < a + s.length → ¬ S x) : v'.Reads a s :=
  h.congr fun x hx hx' => hc.mem x (hS x hx hx')

end DjgppLibc.LoggedMemory
