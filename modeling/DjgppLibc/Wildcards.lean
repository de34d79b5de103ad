import Mathlib.Data.List.Basic

/-!
# Patterns with wildcards

A pattern over any alphabet is a list of pieces: one letter out of a class, or
any number of letters out of a class. The language of a pattern is given by
recursion on it. The lemmas are what a matcher needs that reads the text from
left to right: one step of a repeated piece, repeated pieces that collapse, and
the two cases in which a repeated piece does not have to be searched for.
-/
namespace DjgppLibc.Wildcards

variable {α : Type*}

inductive Piece (α : Type*)
  | one (p : α → Prop)
  | many (p : α → Prop)

def Matches : List (Piece α) → List α → Prop
  | [], s => s = []
  | .one p :: ps, s => ∃ c s', s = c :: s' ∧ p c ∧ Matches ps s'
  | .many p :: ps, s => ∃ u v, s = u ++ v ∧ (∀ c ∈ u, p c) ∧ Matches ps v

variable {p q : α → Prop} {ps : List (Piece α)} {c : α} {s : List α}

@[simp] theorem matches_nil : Matches ([] : List (Piece α)) s ↔ s = [] := Iff.rfl

@[simp] theorem not_matches_one_nil : ¬ Matches (.one p :: ps) [] := by
  rintro ⟨c, s', h, -⟩
  cases h

@[simp] theorem matches_one_cons : Matches (.one p :: ps) (c :: s) ↔ p c ∧ Matches ps s := by
  constructor
  · rintro ⟨d, s', h, hd, hs⟩
    cases h
    exact ⟨hd, hs⟩
  · rintro ⟨hc, hs⟩
    exact ⟨c, s, rfl, hc, hs⟩

theorem matches_many_cons :
    Matches (.many p :: ps) (c :: s) ↔
      Matches ps (c :: s) ∨ p c ∧ Matches (.many p :: ps) s := by
  constructor
  · rintro ⟨u, v, h, hu, hv⟩
    cases u with
    | nil =>
        rw [List.nil_append] at h
        exact .inl (h ▸ hv)
    | cons d u =>
        cases h
        exact .inr ⟨hu c List.mem_cons_self, u, v, rfl, fun x hx =>
          hu x (List.mem_cons_of_mem _ hx), hv⟩
  · rintro (h | ⟨hc, u, v, rfl, hu, hv⟩)
    · exact ⟨[], c :: s, rfl, fun x hx => absurd hx List.not_mem_nil, h⟩
    · refine ⟨c :: u, v, rfl, ?_, hv⟩
      intro x hx
      rcases List.mem_cons.mp hx with rfl | hx
      · exact hc
      · exact hu x hx

@[simp] theorem matches_many_nil : Matches (.many p :: ps) [] ↔ Matches ps [] := by
  constructor
  · rintro ⟨u, v, h, -, hv⟩
    rw [(List.append_eq_nil_iff.mp h.symm).2] at hv
    exact hv
  · intro h
    exact ⟨[], [], rfl, fun x hx => absurd hx List.not_mem_nil, h⟩

theorem matches_many_many :
    Matches (.many p :: .many p :: ps) s ↔ Matches (.many p :: ps) s := by
  induction s with
  | nil => rw [matches_many_nil]
  | cons c s ih =>
      rw [matches_many_cons, ih, matches_many_cons]
      constructor
      · rintro (h | h)
        · exact h
        · exact .inr h
      · exact .inl

theorem matches_many_end : Matches [.many p] s ↔ ∀ c ∈ s, p c := by
  constructor
  · rintro ⟨u, v, rfl, hu, hv⟩
    rw [matches_nil] at hv
    simpa [hv] using hu
  · intro h
    exact ⟨s, [], (List.append_nil s).symm, h, rfl⟩

theorem matches_many_one_disjoint (hd : ∀ c, q c → ¬ p c) (u : List α) (hu : ∀ x ∈ u, p x)
    (hs : ∀ c ∈ s.head?, ¬ p c) :
    Matches (.many p :: .one q :: ps) (u ++ s) ↔ Matches (.one q :: ps) s := by
  induction u with
  | nil =>
      cases s with
      | nil => rw [List.nil_append, matches_many_nil]
      | cons c s =>
          rw [List.nil_append, matches_many_cons]
          have hc : ¬ p c := hs c rfl
          simp [hc]
  | cons c u ih =>
      have hc : p c := hu c List.mem_cons_self
      have hq : ¬ q c := fun h => hd c h hc
      rw [List.cons_append, matches_many_cons, matches_one_cons,
        ih fun x hx => hu x (List.mem_cons_of_mem _ hx)]
      simp [hc, hq]

end DjgppLibc.Wildcards
