import Mathlib.Data.Finset.Card
import Mathlib.Data.Nat.ModEq

/-!
# Hash tables with open addressing

A table has `N` slots. Every key has a path, an order in which a search visits
the slots; a path is good when it comes by every slot once. A table holds a
list of entries with their slots if the path of every key to its entry leads
over occupied slots only, none of which has the same key. Then a search that
follows a path to the first free slot has seen the entry of the key if there
is one, and an entry put there keeps the table searchable.

The last part is about the paths of double hashing.
-/
namespace DjgppLibc.OpenAddressing

variable {E K : Type*}

/-- A path comes by each of `N` slots once. -/
structure IsPath (N : ℕ) (p : ℕ → ℕ) : Prop where
  lt : ∀ j, p j < N
  inj : ∀ i < N, ∀ j < N, p i = p j → i = j

theorem IsPath.surj {N : ℕ} {p : ℕ → ℕ} (h : IsPath N p) {i : ℕ} (hi : i < N) :
    ∃ j < N, p j = i := by
  have himage : (Finset.range N).image p = Finset.range N := by
    apply Finset.eq_of_subset_of_card_le
    · intro x hx
      obtain ⟨j, -, rfl⟩ := Finset.mem_image.mp hx
      exact Finset.mem_range.mpr (h.lt j)
    · rw [Finset.card_image_of_injOn]
      intro i hi j hj hij
      exact h.inj i (Finset.mem_range.mp hi) j (Finset.mem_range.mp hj) hij
  have hmem : i ∈ (Finset.range N).image p := by
    rw [himage]
    exact Finset.mem_range.mpr hi
  obtain ⟨j, hj, hji⟩ := Finset.mem_image.mp hmem
  exact ⟨j, Finset.mem_range.mp hj, hji⟩

section
variable (key : E → K) (path : K → ℕ → ℕ) (N : ℕ)

/-- The first `j` slots on the path of `k` are occupied, by other keys. -/
def Passed (T : ℕ → Option E) (k : K) (j : ℕ) : Prop :=
  ∀ i < j, ∃ e, T (path k i) = some e ∧ key e ≠ k

structure Holds (T : ℕ → Option E) (l : List (ℕ × E)) : Prop where
  lt : ∀ x ∈ l, x.1 < N
  nodup : (l.map Prod.fst).Nodup
  slots : ∀ i e, T i = some e ↔ (i, e) ∈ l
  reach : ∀ x ∈ l, ∃ j < N, path (key x.2) j = x.1 ∧ Passed key path T (key x.2) j

variable {key path N}
variable {T : ℕ → Option E} {l : List (ℕ × E)} {k : K} {j : ℕ} {e : E}

theorem Passed.succ (h : Passed key path T k j) (he : T (path k j) = some e) (hk : key e ≠ k) :
    Passed key path T k (j + 1) := by
  intro i hi
  rcases Nat.lt_succ_iff_lt_or_eq.mp hi with hi | rfl
  · exact h i hi
  · exact ⟨e, he, hk⟩

namespace Holds

theorem empty : Holds key path N (fun _ => none) [] :=
  ⟨fun _ hx => absurd hx List.not_mem_nil, List.nodup_nil, by simp,
    fun _ hx => absurd hx List.not_mem_nil⟩

/-- There is no way past an entry of the key. -/
theorem not_passed (h : Holds key path N T l) {x : ℕ × E} (hx : x ∈ l) (hk : key x.2 = k)
    (hp : Passed key path T k j) {j' : ℕ} (hj' : j' < j) : path k j' ≠ x.1 := by
  intro he
  obtain ⟨e, hT, hne⟩ := hp j' hj'
  rw [he, (h.slots x.1 x.2).mpr hx] at hT
  exact hne (Option.some.inj hT ▸ hk)

theorem absent_of_free (h : Holds key path N T l) (hp : Passed key path T k j)
    (hfree : T (path k j) = none) : ∀ x ∈ l, key x.2 ≠ k := by
  intro x hx hk
  obtain ⟨j', -, hj', hp'⟩ := h.reach x hx
  rw [hk] at hj' hp'
  rcases Nat.lt_trichotomy j' j with hlt | rfl | hlt
  · exact h.not_passed hx hk hp hlt hj'
  · rw [hj', (h.slots x.1 x.2).mpr hx] at hfree
    cases hfree
  · obtain ⟨e, he, -⟩ := hp' j hlt
    rw [hfree] at he
    cases he

theorem absent_of_passed (h : Holds key path N T l) (hp : Passed key path T k N) :
    ∀ x ∈ l, key x.2 ≠ k := by
  intro x hx hk
  obtain ⟨j', hlt, hj', -⟩ := h.reach x hx
  rw [hk] at hj'
  exact h.not_passed hx hk hp hlt hj'

theorem length_le (h : Holds key path N T l) : l.length ≤ N := by
  have hsub : (l.map Prod.fst).toFinset ⊆ Finset.range N := by
    intro i hi
    obtain ⟨x, hx, rfl⟩ := List.mem_map.mp (List.mem_toFinset.mp hi)
    exact Finset.mem_range.mpr (h.lt x hx)
  have hcard := Finset.card_le_card hsub
  rwa [List.toFinset_card_of_nodup h.nodup, List.length_map, Finset.card_range] at hcard

theorem full_of_passed (h : Holds key path N T l) (hk : IsPath N (path k))
    (hp : Passed key path T k N) : l.length = N := by
  apply Nat.le_antisymm h.length_le
  have hsub : Finset.range N ⊆ (l.map Prod.fst).toFinset := by
    intro i hi
    obtain ⟨j, hj, rfl⟩ := hk.surj (Finset.mem_range.mp hi)
    obtain ⟨e, he, -⟩ := hp j hj
    exact List.mem_toFinset.mpr (List.mem_map.mpr ⟨_, (h.slots _ e).mp he, rfl⟩)
  have hcard := Finset.card_le_card hsub
  rwa [List.toFinset_card_of_nodup h.nodup, List.length_map, Finset.card_range] at hcard

theorem unique (h : Holds key path N T l) {x y : ℕ × E} (hx : x ∈ l) (hy : y ∈ l)
    (hxk : key x.2 = k) (hyk : key y.2 = k) : x = y := by
  obtain ⟨i, -, hi', hpi⟩ := h.reach x hx
  obtain ⟨j, -, hj', hpj⟩ := h.reach y hy
  rw [hxk] at hi' hpi
  rw [hyk] at hj' hpj
  have hij : i = j := by
    rcases Nat.lt_trichotomy i j with hlt | he | hlt
    · exact absurd hi' (h.not_passed hx hxk hpj hlt)
    · exact he
    · exact absurd hj' (h.not_passed hy hyk hpi hlt)
  have hslot : x.1 = y.1 := by rw [← hi', ← hj', hij]
  have hx' := (h.slots x.1 x.2).mpr hx
  rw [hslot, (h.slots y.1 y.2).mpr hy] at hx'
  exact Prod.ext hslot (Option.some.inj hx').symm

theorem insert (h : Holds key path N T l) (hN : j < N) (hk : IsPath N (path (key e)))
    (hp : Passed key path T (key e) j) (hfree : T (path (key e) j) = none) :
    Holds key path N (Function.update T (path (key e) j) (some e))
      (l ++ [(path (key e) j, e)]) := by
  have hfresh : ∀ e', (path (key e) j, e') ∉ l := by
    intro e' hmem
    rw [(h.slots _ e').mpr hmem] at hfree
    cases hfree
  have hkeep : ∀ i e', T i = some e' → Function.update T (path (key e) j) (some e) i = some e' := by
    intro i e' hi
    rw [Function.update_of_ne _ _ _, hi]
    rintro rfl
    rw [hfree] at hi
    cases hi
  have hpass : ∀ k' j', Passed key path T k' j' →
      Passed key path (Function.update T (path (key e) j) (some e)) k' j' := by
    intro k' j' hp' i hi
    obtain ⟨e', he', hne⟩ := hp' i hi
    exact ⟨e', hkeep _ _ he', hne⟩
  refine ⟨?_, ?_, ?_, ?_⟩
  · intro x hx
    rcases List.mem_append.mp hx with hx | hx
    · exact h.lt x hx
    · rw [List.mem_singleton.mp hx]
      exact hk.lt j
  · rw [List.map_append, List.nodup_append]
    refine ⟨h.nodup, List.nodup_singleton _, ?_⟩
    intro i hi i' hi' he
    obtain ⟨x, hx, rfl⟩ := List.mem_map.mp hi
    rw [List.mem_singleton.mp hi'] at he
    have hslot : x.1 = path (key e) j := he
    exact hfresh x.2 (hslot ▸ hx)
  · intro i e'
    rw [List.mem_append, List.mem_singleton]
    by_cases hi : i = path (key e) j
    · subst hi
      rw [Function.update_self]
      constructor
      · intro he
        exact .inr (by rw [Option.some.inj he])
      · rintro (hmem | he)
        · exact absurd hmem (hfresh e')
        · rw [(Prod.mk.inj he).2]
    · rw [Function.update_of_ne hi, h.slots]
      constructor
      · exact .inl
      · rintro (hmem | he)
        · exact hmem
        · exact absurd (Prod.mk.inj he).1 hi
  · intro x hx
    rcases List.mem_append.mp hx with hx | hx
    · obtain ⟨j', hj', hx', hp'⟩ := h.reach x hx
      exact ⟨j', hj', hx', hpass _ _ hp'⟩
    · rw [List.mem_singleton.mp hx]
      exact ⟨j, hN, rfl, hpass _ _ hp⟩

end Holds
end

/-- From `s` on in steps of `d`. -/
def stride (N s d j : ℕ) : ℕ := (s + j * d) % N

theorem stride_zero {N s d : ℕ} (hs : s < N) : stride N s d 0 = s := by
  rw [stride, Nat.zero_mul, Nat.add_zero, Nat.mod_eq_of_lt hs]

theorem stride_succ (N s d j : ℕ) : stride N s d (j + 1) = (stride N s d j + d) % N := by
  rw [stride, stride, Nat.mod_add_mod, Nat.add_mul, Nat.one_mul, Nat.add_assoc]

theorem stride_size (N s d : ℕ) : stride N s d N = stride N s d 0 := by
  rw [stride, stride, Nat.zero_mul, Nat.add_zero, Nat.mul_comm, Nat.add_mul_mod_self_right]

/-- A step prime to the number of slots comes by each of them. -/
theorem isPath_stride {N s d : ℕ} (hN : 0 < N) (hd : Nat.Coprime d N) :
    IsPath N (stride N s d) := by
  refine ⟨fun j => Nat.mod_lt _ hN, ?_⟩
  intro i hi j hj hij
  have hmod : i * d ≡ j * d [MOD N] := Nat.ModEq.add_left_cancel' s hij
  have hmod' : i ≡ j [MOD N] := Nat.ModEq.cancel_right_of_coprime (Nat.coprime_comm.mp hd) hmod
  rwa [Nat.ModEq, Nat.mod_eq_of_lt hi, Nat.mod_eq_of_lt hj] at hmod'

end DjgppLibc.OpenAddressing
