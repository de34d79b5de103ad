import Mathlib.Data.List.Perm.Basic
import Mathlib.Data.List.NodupEquivFin

/-!
# Sequences sorted in place by exchanges

A sequence is a function on the natural numbers, and a sort exchanges its values within a
segment. `Rearranged` is what any number of exchanges can do. Around it stand the order facts of
two algorithms: insertion, where one value sinks to its place, and the partition of a segment in
three parts around a pivot which waits at the first place of the segment.
-/
namespace DjgppLibc.Rearrangements

variable {α : Type*} {f g h : ℕ → α} {a b : ℕ}

/-- The sequence with the values of `i` and `j` exchanged. -/
def exchange (f : ℕ → α) (i j : ℕ) : ℕ → α := f ∘ Equiv.swap i j

@[simp] theorem exchange_left (f : ℕ → α) (i j : ℕ) : exchange f i j i = f j := by
  simp [exchange]

@[simp] theorem exchange_right (f : ℕ → α) (i j : ℕ) : exchange f i j j = f i := by
  simp [exchange]

theorem exchange_of_ne (f : ℕ → α) {i j k : ℕ} (hi : k ≠ i) (hj : k ≠ j) :
    exchange f i j k = f k := by
  simp [exchange, Equiv.swap_apply_of_ne_of_ne hi hj]

/-- `g` has the values of `f` in another order, and is `f` outside `a..b`. -/
def Rearranged (a b : ℕ) (f g : ℕ → α) : Prop :=
  ∃ σ : Equiv.Perm ℕ, (∀ i, i < a ∨ b < i → σ i = i) ∧ g = f ∘ σ

theorem Rearranged.refl (a b : ℕ) (f : ℕ → α) : Rearranged a b f f :=
  ⟨Equiv.refl ℕ, fun _ _ => rfl, rfl⟩

theorem Rearranged.trans (hfg : Rearranged a b f g) (hgh : Rearranged a b g h) :
    Rearranged a b f h := by
  obtain ⟨σ, hσ, rfl⟩ := hfg
  obtain ⟨τ, hτ, rfl⟩ := hgh
  refine ⟨τ.trans σ, fun i hi => ?_, rfl⟩
  rw [Equiv.trans_apply, hτ i hi, hσ i hi]

theorem Rearranged.mono (hfg : Rearranged a b f g) {a' b' : ℕ} (ha : a' ≤ a) (hb : b ≤ b') :
    Rearranged a' b' f g := by
  obtain ⟨σ, hσ, rfl⟩ := hfg
  exact ⟨σ, fun i hi => hσ i (by omega), rfl⟩

theorem Rearranged.exchange (f : ℕ → α) {i j : ℕ} (hi : a ≤ i) (hib : i ≤ b) (hj : a ≤ j)
    (hjb : j ≤ b) : Rearranged a b f (exchange f i j) :=
  ⟨Equiv.swap i j, fun k hk => Equiv.swap_apply_of_ne_of_ne (by omega) (by omega), rfl⟩

theorem Rearranged.outside (hfg : Rearranged a b f g) {i : ℕ} (hi : i < a ∨ b < i) :
    g i = f i := by
  obtain ⟨σ, hσ, rfl⟩ := hfg
  exact congrArg f (hσ i hi)

/-- The place of the segment from which a value of the rearranged segment comes. -/
theorem Rearranged.source (hfg : Rearranged a b f g) {i : ℕ} (hi : a ≤ i) (hib : i ≤ b) :
    ∃ j, a ≤ j ∧ j ≤ b ∧ g i = f j := by
  obtain ⟨σ, hσ, rfl⟩ := hfg
  refine ⟨σ i, ?_, ?_, rfl⟩ <;> by_contra hout
  · have := σ.injective (hσ (σ i) (.inl (by omega)))
    omega
  · have := σ.injective (hσ (σ i) (.inr (by omega)))
    omega

theorem Rearranged.perm (hfg : Rearranged a b f g) :
    ((List.range' a (b + 1 - a)).map g).Perm ((List.range' a (b + 1 - a)).map f) := by
  obtain ⟨σ, hσ, rfl⟩ := hfg
  rw [← List.map_map]
  refine List.Perm.map f ((List.perm_ext_iff_of_nodup
    (List.Nodup.map σ.injective (List.nodup_range' ..)) (List.nodup_range' ..)).mpr fun k => ?_)
  have hmem : ∀ i, i ∈ List.range' a (b + 1 - a) ↔ ¬ (i < a ∨ b < i) := by
    intro i
    rw [List.mem_range'_1]
    omega
  rw [List.mem_map, hmem]
  constructor
  · rintro ⟨i, hi, rfl⟩ hout
    rw [hmem, ← σ.injective (hσ (σ i) hout)] at hi
    exact hi hout
  · intro hk
    refine ⟨σ.symm k, (hmem _).mpr fun hout => hk ?_, σ.apply_symm_apply k⟩
    have hfixed := hσ _ hout
    rw [σ.apply_symm_apply] at hfixed
    rwa [hfixed]

variable {r : α → α → Prop}

/-- A comparison that answers for every two values and is consistent. -/
structure TotalPreorder (r : α → α → Prop) : Prop where
  total : ∀ x y, r x y ∨ r y x
  trans : ∀ x y z, r x y → r y z → r x z

def SortedOn (r : α → α → Prop) (f : ℕ → α) (a b : ℕ) : Prop :=
  ∀ i j, a ≤ i → i < j → j ≤ b → r (f i) (f j)

/-- Every value before the segment may stand before every value of the segment. -/
def Bounded (r : α → α → Prop) (f : ℕ → α) (a b : ℕ) : Prop :=
  ∀ i j, 1 ≤ i → i < a → a ≤ j → j ≤ b → r (f i) (f j)

theorem Bounded.rearranged (hf : Bounded r f a b) (hfg : Rearranged a b f g) :
    Bounded r g a b := by
  intro i j hi hia hj hjb
  obtain ⟨k, hk, hkb, hvalue⟩ := hfg.source hj hjb
  rw [hvalue, hfg.outside (.inl hia)]
  exact hf i k hi hia hk hkb

/-! ### Insertion -/

/-- Sorted, but for the value of `k`, which may have to go further down. -/
def SortedBut (r : α → α → Prop) (f : ℕ → α) (a b k : ℕ) : Prop :=
  ∀ i j, a ≤ i → i < j → j ≤ b → j ≠ k → r (f i) (f j)

theorem SortedOn.sortedBut (hf : SortedOn r f a b) : SortedBut r f a (b + 1) (b + 1) :=
  fun i j hi hij hj hne => hf i j hi hij (by omega)

theorem SortedBut.sorted_first (hf : SortedBut r f a b a) : SortedOn r f a b :=
  fun i j hi hij hj => hf i j hi hij hj (by omega)

theorem SortedBut.settle (hr : TotalPreorder r) {k : ℕ} (hf : SortedBut r f a b (k + 1))
    (hkb : k < b) (hle : r (f k) (f (k + 1))) : SortedOn r f a b := by
  intro i j hi hij hj
  by_cases hne : j = k + 1
  · subst hne
    rcases Nat.lt_or_ge i k with hik | hik
    · exact hr.trans _ _ _ (hf i k hi hik (by omega) (by omega)) hle
    · rwa [show i = k by omega]
  · exact hf i j hi hij hj hne

theorem SortedBut.sink (hr : TotalPreorder r) {k : ℕ} (hf : SortedBut r f a b (k + 1))
    (hk : a ≤ k) (hgt : ¬ r (f k) (f (k + 1))) :
    SortedBut r (exchange f k (k + 1)) a b k := by
  intro i j hi hij hj hne
  rcases Nat.lt_trichotomy j (k + 1) with hlt | rfl | hlt
  · rw [exchange_of_ne f (by omega) (by omega), exchange_of_ne f (by omega) (by omega)]
    exact hf i j hi hij hj (by omega)
  · rw [exchange_right]
    rcases Nat.lt_or_ge i k with hik | hik
    · rw [exchange_of_ne f (by omega) (by omega)]
      exact hf i k hi hik (by omega) (by omega)
    · rw [show i = k by omega, exchange_left]
      exact (hr.total _ _).resolve_left hgt
  · rw [exchange_of_ne f (k := j) (by omega) (by omega)]
    -- The value of `i` is one that stood before `j`.
    have hbefore : ∀ m, a ≤ m → m ≤ k + 1 → r (f m) (f j) := fun m hm hmk =>
      hf m j hm (by omega) hj (by omega)
    rcases Nat.lt_trichotomy i k with hik | rfl | hik
    · rw [exchange_of_ne f (by omega) (by omega)]
      exact hbefore i hi (by omega)
    · rw [exchange_left]
      exact hbefore _ (by omega) (by omega)
    · by_cases hik' : i = k + 1
      · rw [hik', exchange_right]
        exact hbefore k hk (by omega)
      · rw [exchange_of_ne f (by omega) (by omega)]
        exact hf i j hi hij hj (by omega)

/-! ### Partition in three parts -/

/-- A partition under way: the pivot is the value of `a`, the values between `a` and `left` are
below it, the `fat` values after `right` are equal to it, and the rest, up to `b`, is above. -/
structure ThreeWay (r : α → α → Prop) (f : ℕ → α) (a b left right fat : ℕ) : Prop where
  low : ∀ i, a < i → i < left → ¬ r (f a) (f i)
  equal : ∀ i, right < i → i ≤ right + fat → r (f i) (f a) ∧ r (f a) (f i)
  high : ∀ i, right + fat < i → i ≤ b → ¬ r (f i) (f a)

variable {left right fat : ℕ}

theorem ThreeWay.start (r : α → α → Prop) (f : ℕ → α) (a b : ℕ) :
    ThreeWay r f a b (a + 1) b 0 := by
  constructor <;> intro i hi hib <;> omega

theorem ThreeWay.below (hf : ThreeWay r f a b left right fat) (hlt : ¬ r (f a) (f left)) :
    ThreeWay r f a b (left + 1) right fat := by
  refine ⟨fun i hi hleft => ?_, hf.equal, hf.high⟩
  rcases Nat.lt_or_ge i left with h | h
  · exact hf.low i hi h
  · rwa [show i = left by omega]

theorem ThreeWay.fatten (hf : ThreeWay r f a b left (right + 1) fat)
    (heq : r (f (right + 1)) (f a) ∧ r (f a) (f (right + 1))) :
    ThreeWay r f a b left right (fat + 1) := by
  refine ⟨hf.low, fun i hi hib => ?_, fun i hi hib => hf.high i (by omega) hib⟩
  rcases Nat.lt_or_ge (right + 1) i with h | h
  · exact hf.equal i h (by omega)
  · rwa [show i = right + 1 by omega]

/-- The values still to be looked at may be exchanged. -/
theorem ThreeWay.exchange (hf : ThreeWay r f a b left right fat) {i j : ℕ} (ha : a < left)
    (hi : left ≤ i) (hir : i ≤ right) (hj : left ≤ j) (hjr : j ≤ right) :
    ThreeWay r (exchange f i j) a b left right fat := by
  have hpivot : Rearrangements.exchange f i j a = f a := exchange_of_ne f (by omega) (by omega)
  constructor <;> intro k hk hkb <;> rw [hpivot, exchange_of_ne f (by omega) (by omega)]
  · exact hf.low k hk hkb
  · exact hf.equal k hk hkb
  · exact hf.high k hk hkb

theorem ThreeWay.above (hf : ThreeWay r f a b left (right + 1) fat) (ha : a < left)
    (hleft : left ≤ right + 1) (hgt : ¬ r (f (right + 1)) (f a)) :
    ThreeWay r (Rearrangements.exchange f (right + 1 + fat) (right + 1)) a b left right fat := by
  have hpivot : Rearrangements.exchange f (right + 1 + fat) (right + 1) a = f a :=
    exchange_of_ne f (by omega) (by omega)
  constructor <;> intro k hk hkb <;> rw [hpivot]
  · rw [exchange_of_ne f (by omega) (by omega)]
    exact hf.low k hk hkb
  · by_cases hfirst : k = right + 1
    · rw [hfirst, exchange_right]
      exact hf.equal _ (by omega) (by omega)
    · rw [exchange_of_ne f (by omega) hfirst]
      exact hf.equal k (by omega) (by omega)
  · by_cases hlast : k = right + 1 + fat
    · rwa [hlast, exchange_left]
    · rw [exchange_of_ne f hlast (by omega)]
      exact hf.high k (by omega) hkb

/-- The finished partition: the values of `s..t` are those equal to the pivot `p`. -/
structure Partitioned (r : α → α → Prop) (f : ℕ → α) (a b s t : ℕ) (p : α) : Prop where
  low : ∀ i, a ≤ i → i < s → ¬ r p (f i)
  equal : ∀ i, s ≤ i → i ≤ t → r (f i) p ∧ r p (f i)
  high : ∀ i, t < i → i ≤ b → ¬ r (f i) p

theorem ThreeWay.finish (hr : TotalPreorder r) (hf : ThreeWay r f a b (right + 1) right fat)
    (ha : a ≤ right) :
    Partitioned r (Rearrangements.exchange f a right) a b right (right + fat) (f a) := by
  constructor <;> intro k hk hkb
  · by_cases hfirst : k = a
    · rw [hfirst, exchange_left]
      exact hf.low right (by omega) (by omega)
    · rw [exchange_of_ne f hfirst (by omega)]
      exact hf.low k (by omega) (by omega)
  · by_cases hplace : k = right
    · rw [hplace, exchange_right]
      exact ⟨(hr.total _ _).elim id id, (hr.total _ _).elim id id⟩
    · rw [exchange_of_ne f (by omega) hplace]
      exact hf.equal k (by omega) hkb
  · rw [exchange_of_ne f (by omega) (by omega)]
    exact hf.high k hk hkb

section Pieces

variable {s t : ℕ} {p : α}

theorem Partitioned.rearranged_low (hf : Partitioned r f a b s t p) (hs : 0 < s)
    (hst : s ≤ t) (hfg : Rearranged a (s - 1) f g) : Partitioned r g a b s t p := by
  constructor <;> intro i hi hib
  · obtain ⟨j, hj, hjb, hvalue⟩ := hfg.source hi (by omega)
    rw [hvalue]
    exact hf.low j hj (by omega)
  · rw [hfg.outside (by omega)]
    exact hf.equal i hi hib
  · rw [hfg.outside (by omega)]
    exact hf.high i hi hib

theorem Partitioned.rearranged_high (hf : Partitioned r f a b s t p) (hst : s ≤ t)
    (hfg : Rearranged (t + 1) b f g) : Partitioned r g a b s t p := by
  constructor <;> intro i hi hib
  · rw [hfg.outside (by omega)]
    exact hf.low i hi hib
  · rw [hfg.outside (by omega)]
    exact hf.equal i hi hib
  · obtain ⟨j, hj, hjb, hvalue⟩ := hfg.source (by omega) hib
    rw [hvalue]
    exact hf.high j (by omega) hjb

/-- What stands before the values above the pivot may stand before them. -/
theorem Partitioned.bounded_high (hr : TotalPreorder r) (hf : Partitioned r f a b s t p)
    (hbelow : Bounded r f a b) (hs : a ≤ s) (hst : s ≤ t) : Bounded r f (t + 1) b := by
  intro i j hi₁ hi₂ hj hjb
  have hpj := (hr.total p (f j)).resolve_right (hf.high j (by omega) hjb)
  rcases Nat.lt_or_ge i a with hout | hin
  · exact hbelow i j hi₁ hout (by omega) hjb
  rcases Nat.lt_or_ge i s with hlow | hmid
  · exact hr.trans _ _ _ ((hr.total (f i) p).resolve_right (hf.low i hin hlow)) hpj
  · exact hr.trans _ _ _ (hf.equal i hmid (by omega)).1 hpj

theorem Partitioned.sorted (hr : TotalPreorder r) (hf : Partitioned r f a b s t p)
    (hlow : SortedOn r f a (s - 1)) (hhigh : SortedOn r f (t + 1) b) : SortedOn r f a b := by
  have hle : ∀ i, a ≤ i → i ≤ t → r (f i) p := by
    intro i hi hib
    rcases Nat.lt_or_ge i s with h | h
    · exact (hr.total _ _).resolve_right (hf.low i hi h)
    · exact (hf.equal i h hib).1
  have hge : ∀ j, s ≤ j → j ≤ b → r p (f j) := by
    intro j hj hjb
    rcases Nat.lt_or_ge t j with h | h
    · exact (hr.total _ _).resolve_right (hf.high j h hjb)
    · exact (hf.equal j hj h).2
  intro i j hi hij hj
  by_cases hjs : j < s
  · exact hlow i j hi hij (by omega)
  by_cases hti : t < i
  · exact hhigh i j hti hij hj
  · exact hr.trans _ _ _ (hle i hi (by omega)) (hge j (by omega) hj)

end Pieces

end DjgppLibc.Rearrangements
