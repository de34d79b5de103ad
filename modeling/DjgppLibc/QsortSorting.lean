import DjgppLibc.QsortPartition

/-!
# Sorting a segment

The insertion sort walks on below its segment until a comparison or index 1 stops it. That is
within the array, and no more than a rearrangement of it, whatever the comparisons say. When they
are consistent, the walk stops at the first element of the segment, because the earlier
partitions have left nothing greater before it.
-/
namespace DjgppLibc.Qsort
open ByteMemory Rearrangements TotalCorrectness

namespace Call

/-- What a sort of the segment `first..last` of the elements `f` owes. -/
structure Sorted (q : Call) (r : List UInt8 → List UInt8 → Prop) (first last : ℕ)
    (f f' : ℕ → List UInt8) : Prop where
  rearranged : Rearranged 1 q.num f f'
  sorted : q.Answers r f → TotalPreorder r → Bounded r f first last →
    Rearranged first last f f' ∧ SortedOn r f' first last

variable {q : Call} {r : List UInt8 → List UInt8 → Prop} {first last : ℕ}

theorem sinkLoop_ensures (k : ℕ) {m : ℕ} (s : State) (hfirst : 1 ≤ first) (hk : 1 ≤ k)
    (hkm : k ≤ m) (hm : m ≤ q.num) :
    Ensures (q.sinkLoop k (q.base k)) s fun _ s' =>
      Rearranged 1 q.num (q.elements s) (q.elements s') ∧
      (q.Answers r (q.elements s) → TotalPreorder r → Bounded r (q.elements s) first m →
        first ≤ k → SortedBut r (q.elements s) first m k →
        Rearranged first m (q.elements s) (q.elements s') ∧
          SortedOn r (q.elements s') first m) := by
  induction k generalizing s with
  | zero => omega
  | succ k ih =>
      cases k with
      | zero =>
          refine .pure ⟨.refl .., fun _ _ _ hle hbut => ⟨.refl .., ?_⟩⟩
          rw [show 0 + 1 = first by omega] at hbut
          exact hbut.sorted_first
      | succ n =>
          rw [sinkLoop, q.dec_base (by omega) (by omega)]
          refine (q.cmpr_ensures r s (by omega) (by omega) (by omega) (by omega)).bind ?_
          intro c s₁ ⟨hs₁, hc⟩
          rw [← hs₁] at hc ⊢
          by_cases hstop : 0 ≥ c
          · rw [if_pos hstop]
            refine .pure ⟨.refl .., fun hr hpre _ hle hbut => ⟨.refl .., ?_⟩⟩
            by_cases hat : first = n + 1 + 1
            · rw [← hat] at hbut
              exact hbut.sorted_first
            · exact hbut.settle hpre (by omega) ((hc hr).1.mp hstop)
          · rw [if_neg hstop]
            refine (q.swap_ensures s₁ (by omega) (by omega) (by omega) (by omega)
              (by omega)).bind ?_
            intro _ s₂ hs₂
            have hmoved : Rearranged 1 q.num (q.elements s₁) (q.elements s₂) := by
              rw [hs₂]
              exact .exchange _ (by omega) (by omega) (by omega) (by omega)
            refine (ih s₂ (by omega) (by omega)).mono ?_
            intro _ s₃ ⟨hrest, hsorted⟩
            refine ⟨hmoved.trans hrest, fun hr hpre hbounded hle hbut => ?_⟩
            have hgt : ¬ r (q.elements s₁ (n + 1)) (q.elements s₁ (n + 1 + 1)) := fun hle =>
              hstop ((hc hr).1.mpr hle)
            -- At the first place of the segment the comparison has to stop the walk.
            have hinside : first ≤ n + 1 := by
              by_contra hout
              exact hgt (hbounded _ _ (by omega) (by omega) (by omega) hkm)
            have hstep : Rearranged first m (q.elements s₁) (q.elements s₂) := by
              rw [hs₂]
              exact .exchange _ (by omega) (by omega) (by omega) (by omega)
            have hsunk := hbut.sink hpre hinside hgt
            rw [← hs₂] at hsunk
            obtain ⟨hrest', hdone⟩ := hsorted (hr.rearranged hmoved) hpre
              (hbounded.rearranged hstep) hinside hsunk
            exact ⟨hstep.trans hrest', hdone⟩

theorem Bounded.shorter {f : ℕ → List UInt8} {m : ℕ} (h : Bounded r f first last)
    (hm : m ≤ last) : Bounded r f first m := fun i j hi hif hj hjm =>
  h i j hi hif hj (hjm.trans hm)

theorem insertionLoop_ensures (fuel m : ℕ) (s : State) (hfirst : 1 ≤ first) (hm : first ≤ m)
    (hlast : last ≤ q.num) (hml : m ≤ last) (hfuel : last < m + fuel) :
    Ensures (q.insertionLoop last fuel (m + 1) (q.base (m + 1))) s fun _ s' =>
      Rearranged 1 q.num (q.elements s) (q.elements s') ∧
      (q.Answers r (q.elements s) → TotalPreorder r → Bounded r (q.elements s) first last →
        SortedOn r (q.elements s) first m →
        Rearranged first last (q.elements s) (q.elements s') ∧
          SortedOn r (q.elements s') first last) := by
  induction fuel generalizing m s with
  | zero => omega
  | succ fuel ih =>
      rw [insertionLoop]
      by_cases hmore : m + 1 ≤ last
      · rw [if_pos hmore, q.inc_base (by omega) (by omega)]
        refine (sinkLoop_ensures (r := r) (m + 1) s hfirst (by omega) le_rfl (by omega)).bind ?_
        intro _ s₁ ⟨hmoved, hsink⟩
        refine (ih (m + 1) s₁ (by omega) hmore (by omega)).mono ?_
        intro _ s₂ ⟨hrest, hdone⟩
        refine ⟨hmoved.trans hrest, fun hr hpre hbounded hsorted => ?_⟩
        obtain ⟨hstep, hlonger⟩ := hsink hr hpre (Bounded.shorter hbounded hmore) (by omega)
          hsorted.sortedBut
        have hstep' := hstep.mono le_rfl hmore
        obtain ⟨hrest', hend⟩ := hdone (hr.rearranged hmoved) hpre
          (hbounded.rearranged hstep') hlonger
        exact ⟨hstep'.trans hrest', hend⟩
      · rw [if_neg hmore]
        refine .pure ⟨.refl .., fun _ _ _ hsorted => ⟨.refl .., ?_⟩⟩
        rwa [show last = m by omega]

theorem insertionSort_ensures (q : Call) (r : List UInt8 → List UInt8 → Prop) (s : State)
    (hfirst : 1 ≤ first) (hle : first ≤ last) (hlast : last ≤ q.num) :
    Ensures (q.insertionSort first last) s fun _ s' =>
      q.Sorted r first last (q.elements s) (q.elements s') := by
  refine (insertionLoop_ensures (r := r) (last + 1) first s hfirst le_rfl hlast hle
    (by omega)).mono ?_
  intro _ s' ⟨hmoved, hdone⟩
  exact ⟨hmoved, fun hr hpre hbounded => hdone hr hpre hbounded fun i j hi hij hj => by omega⟩

theorem SortedOn.congr {f g : ℕ → List UInt8} (h : SortedOn r f first last)
    (hfg : ∀ i, first ≤ i → i ≤ last → g i = f i) : SortedOn r g first last := by
  intro i j hi hij hj
  rw [hfg i hi (by omega), hfg j (by omega) hj]
  exact h i j hi hij hj

section Parts

variable {leftPivot rightPivot : ℕ} {p : List UInt8} {f₁ f₂ f₃ : ℕ → List UInt8}

/-- After a partition the part below the pivot is sorted, and then the part above it. -/
theorem Sorted.low_high (hpart : Partitioned r f₁ first last leftPivot rightPivot p)
    (hrange : 1 ≤ first ∧ first ≤ leftPivot ∧ leftPivot ≤ rightPivot ∧ rightPivot ≤ last)
    (hlow : q.Sorted r first (leftPivot - 1) f₁ f₂) (hhigh : q.Sorted r (rightPivot + 1) last f₂ f₃)
    (hr : q.Answers r f₁) (hpre : TotalPreorder r) (hbounded : Bounded r f₁ first last) :
    Rearranged first last f₁ f₃ ∧ SortedOn r f₃ first last := by
  obtain ⟨hmove₂, hsort₂⟩ := hlow.sorted hr hpre (Bounded.shorter hbounded (by omega))
  have hwide₂ := hmove₂.mono le_rfl (show leftPivot - 1 ≤ last by omega)
  have hpart₂ := hpart.rearranged_low (by omega) (by omega) hmove₂
  obtain ⟨hmove₃, hsort₃⟩ := hhigh.sorted (hr.rearranged hlow.rearranged) hpre
    (hpart₂.bounded_high hpre (hbounded.rearranged hwide₂) (by omega) (by omega))
  refine ⟨hwide₂.trans (hmove₃.mono (by omega) le_rfl), ?_⟩
  refine (hpart₂.rearranged_high (by omega) hmove₃).sorted hpre (SortedOn.congr hsort₂ ?_) hsort₃
  exact fun i _ hi => hmove₃.outside (by omega)

theorem Sorted.high_low (hpart : Partitioned r f₁ first last leftPivot rightPivot p)
    (hrange : 1 ≤ first ∧ first ≤ leftPivot ∧ leftPivot ≤ rightPivot ∧ rightPivot ≤ last)
    (hhigh : q.Sorted r (rightPivot + 1) last f₁ f₂) (hlow : q.Sorted r first (leftPivot - 1) f₂ f₃)
    (hr : q.Answers r f₁) (hpre : TotalPreorder r) (hbounded : Bounded r f₁ first last) :
    Rearranged first last f₁ f₃ ∧ SortedOn r f₃ first last := by
  obtain ⟨hmove₂, hsort₂⟩ := hhigh.sorted hr hpre
    (hpart.bounded_high hpre hbounded (by omega) (by omega))
  have hwide₂ := hmove₂.mono (show first ≤ rightPivot + 1 by omega) le_rfl
  have hpart₂ := hpart.rearranged_high (by omega) hmove₂
  obtain ⟨hmove₃, hsort₃⟩ := hlow.sorted (hr.rearranged hhigh.rearranged) hpre
    (Bounded.shorter (hbounded.rearranged hwide₂) (by omega))
  refine ⟨hwide₂.trans (hmove₃.mono le_rfl (by omega)), ?_⟩
  refine (hpart₂.rearranged_low (by omega) (by omega) hmove₃).sorted hpre hsort₃
    (SortedOn.congr hsort₂ ?_)
  exact fun i hi _ => hmove₃.outside (by omega)

end Parts

theorem quickSort_ensures (q : Call) (r : List UInt8 → List UInt8 → Prop) (fuel : ℕ) (s : State)
    (hfirst : 1 ≤ first) (hle : first ≤ last + 1) (hlast : last ≤ q.num)
    (hfuel : last + 1 < first + fuel) :
    Ensures (q.quickSort fuel first last) s fun _ s' =>
      q.Sorted r first last (q.elements s) (q.elements s') := by
  induction fuel generalizing first last s with
  | zero => omega
  | succ fuel ih =>
      rw [quickSort]
      by_cases hmore : first < last
      · rw [if_pos hmore]
        by_cases hfew : last - first < qmin
        · rw [if_pos hfew]
          exact insertionSort_ensures q r s hfirst hmore.le hlast
        rw [if_neg hfew]
        refine (partition3_ensures (r := r) q s hfirst hmore.le hlast).bind ?_
        rintro ⟨leftPivot, rightPivot⟩ s₁ ⟨⟨hlp, hlr, hrp⟩, hmove, hpart⟩
        dsimp only at hlp hlr hrp hpart ⊢
        have hwide := hmove.mono hfirst hlast
        by_cases hsmaller : leftPivot - first < last - rightPivot
        · rw [if_pos hsmaller]
          refine (ih s₁ hfirst (by omega) (by omega) (by omega)).bind ?_
          intro _ s₂ hlow
          refine (ih s₂ (by omega) (by omega) hlast (by omega)).mono ?_
          intro _ s₃ hhigh
          refine ⟨hwide.trans (hlow.rearranged.trans hhigh.rearranged), fun hr hpre hbounded => ?_⟩
          obtain ⟨m, -, hparts⟩ := hpart hr hpre
          obtain ⟨hrest, hsorted⟩ := hlow.low_high hparts ⟨hfirst, hlp, hlr, hrp⟩ hhigh
            (hr.rearranged hwide) hpre (hbounded.rearranged hmove)
          exact ⟨hmove.trans hrest, hsorted⟩
        · rw [if_neg hsmaller]
          refine (ih s₁ (by omega) (by omega) hlast (by omega)).bind ?_
          intro _ s₂ hhigh
          refine (ih s₂ hfirst (by omega) (by omega) (by omega)).mono ?_
          intro _ s₃ hlow
          refine ⟨hwide.trans (hhigh.rearranged.trans hlow.rearranged), fun hr hpre hbounded => ?_⟩
          obtain ⟨m, -, hparts⟩ := hpart hr hpre
          obtain ⟨hrest, hsorted⟩ := hhigh.high_low hparts ⟨hfirst, hlp, hlr, hrp⟩ hlow
            (hr.rearranged hwide) hpre (hbounded.rearranged hmove)
          exact ⟨hmove.trans hrest, hsorted⟩
      · rw [if_neg hmore]
        exact .pure ⟨.refl .., fun _ _ _ => ⟨.refl .., fun i j hi hij hj => by omega⟩⟩

/-- The elements in the order of their addresses. -/
def contents (q : Call) (s : State) : List (List UInt8) :=
  (List.range' 1 q.num).map fun i => bytes s.mem (q.base i) q.dataWidth

theorem contents_eq (q : Call) (s : State) :
    q.contents s = (List.range' 1 q.num).map (q.elements s) :=
  List.map_congr_left fun i hi => by
    rw [List.mem_range'_1] at hi
    rw [q.elements_eq s hi.1 (by omega)]

theorem contents_perm {s s' : State} (h : Rearranged 1 q.num (q.elements s) (q.elements s')) :
    (q.contents s').Perm (q.contents s) := by
  rw [contents_eq, contents_eq]
  exact h.perm

theorem qsort_ensures (q : Call) (r : List UInt8 → List UInt8 → Prop) {fuel : ℕ}
    (hfuel : q.num < fuel) (s : State) :
    Ensures (q.qsort fuel) s fun _ s' =>
      q.Sorted r 1 q.num (q.elements s) (q.elements s') :=
  quickSort_ensures q r fuel s le_rfl (by omega) le_rfl (by omega)

/-- Whatever the comparison function answers, the sort comes to an end, touches nothing but
elements of the array, and rearranges them. -/
theorem qsort_rearranges (q : Call) (fuel : ℕ) (hfuel : q.num < fuel) (s : State) :
    ∃ s', q.qsort fuel s = some ((), s') ∧ (q.contents s').Perm (q.contents s) := by
  obtain ⟨_, s', hrun, hsorted⟩ := q.qsort_ensures (fun _ _ => True) hfuel s
  exact ⟨s', hrun, contents_perm hsorted.rearranged⟩

/-- Three bytes at address 16, compared by their values. -/
def threeBytes : Call where
  myBase := 16
  num := 3
  dataWidth := 1
  compare _ x y := ((x.headD 0).toNat : ℤ) - (y.headD 0).toNat
  end_lt := by decide
  width_lt := by decide
  num_lt := by decide

def threeState : State where
  mem := putAll (fun _ => 0) 16 [3, 1, 2]
  calls := 0

def fickleBytes : Call := { threeBytes with compare := fun n _ _ => (-1) ^ n }

theorem qsort_rearranges_fickleBytes :
    ∃ s', fickleBytes.qsort 4 threeState = some ((), s') ∧
      (fickleBytes.contents s').Perm (fickleBytes.contents threeState) :=
  qsort_rearranges fickleBytes 4 (by decide) threeState

end Call

/-- On the elements `xs`, the signs of the answers are those of a total preorder. -/
structure Orders (cmp : List UInt8 → List UInt8 → ℤ) (xs : List (List UInt8)) : Prop where
  opposite : ∀ x ∈ xs, ∀ y ∈ xs, cmp x y ≤ 0 ↔ 0 ≤ cmp y x
  trans : ∀ x ∈ xs, ∀ y ∈ xs, ∀ z ∈ xs, cmp x y ≤ 0 → cmp y z ≤ 0 → cmp x z ≤ 0

def Below (cmp : List UInt8 → List UInt8 → ℤ) (xs : List (List UInt8)) (x y : List UInt8) : Prop :=
  (x ∈ xs ∧ y ∈ xs ∧ cmp x y ≤ 0) ∨ y ∉ xs

variable {cmp : List UInt8 → List UInt8 → ℤ} {xs : List (List UInt8)}

theorem below_iff {x y : List UInt8} (hx : x ∈ xs) (hy : y ∈ xs) :
    Below cmp xs x y ↔ cmp x y ≤ 0 := by
  unfold Below
  tauto

theorem Orders.below_preorder (h : Orders cmp xs) : TotalPreorder (Below cmp xs) where
  total x y := by
    by_cases hx : x ∈ xs
    · by_cases hy : y ∈ xs
      · rw [below_iff hx hy, below_iff hy hx, h.opposite x hx y hy]
        omega
      · exact .inl (.inr hy)
    · exact .inr (.inr hx)
  trans x y z hxy hyz := by
    by_cases hz : z ∈ xs
    · obtain ⟨hy, -, hyz⟩ := hyz.resolve_right (not_not.mpr hz)
      obtain ⟨hx, -, hxy⟩ := hxy.resolve_right (not_not.mpr hy)
      exact (below_iff hx hz).mpr (h.trans x hx y hy z hz hxy hyz)
    · exact .inr hz

namespace Call

variable {q : Call} {s s' : State}

theorem elements_mem {i : ℕ} (hi : 1 ≤ i) (hin : i ≤ q.num) : q.elements s i ∈ q.contents s := by
  rw [contents_eq]
  exact List.mem_map.mpr ⟨i, List.mem_range'_1.mpr ⟨hi, by omega⟩, rfl⟩

theorem answers_below (hq : ∀ n, q.compare n = cmp) (h : Orders cmp (q.contents s)) :
    q.Answers (Below cmp (q.contents s)) (q.elements s) := by
  intro n i j hi hin hj hjn
  have hx := elements_mem (s := s) hi hin
  have hy := elements_mem (s := s) hj hjn
  rw [hq, below_iff hx hy, below_iff hy hx, h.opposite _ hy _ hx]
  exact ⟨Iff.rfl, Iff.rfl⟩

/-- The order of two elements after they were rearranged. -/
theorem below_rearranged {i j : ℕ} (h : Rearranged 1 q.num (q.elements s) (q.elements s'))
    (hi : 1 ≤ i) (hin : i ≤ q.num) (hj : 1 ≤ j) (hjn : j ≤ q.num) :
    Below cmp (q.contents s) (q.elements s' i) (q.elements s' j) ↔
      cmp (q.elements s' i) (q.elements s' j) ≤ 0 := by
  have hperm := contents_perm h
  exact below_iff (hperm.mem_iff.mp (elements_mem hi hin)) (hperm.mem_iff.mp (elements_mem hj hjn))

theorem qsort_ordered (hq : ∀ n, q.compare n = cmp) (h : Orders cmp (q.contents s)) {fuel : ℕ}
    (hfuel : q.num < fuel) :
    ∃ s', q.qsort fuel s = some ((), s') ∧ (q.contents s').Perm (q.contents s) ∧
      (q.contents s').Pairwise fun x y => cmp x y ≤ 0 := by
  obtain ⟨_, s', hrun, hsorted⟩ := q.qsort_ensures (Below cmp (q.contents s)) hfuel s
  obtain ⟨-, hin⟩ := hsorted.sorted (answers_below hq h) h.below_preorder
    fun i j hi hi' => by omega
  refine ⟨s', hrun, contents_perm hsorted.rearranged, ?_⟩
  rw [contents_eq, List.pairwise_map]
  refine (List.pairwise_lt_range' 1).imp_of_mem fun {i j} hi hj hij => ?_
  rw [List.mem_range'_1] at hi hj
  exact (below_rearranged hsorted.rearranged hi.1 (by omega) hj.1 (by omega)).mp
    (hin i j hi.1 hij (by omega))

/-- The elements of `leftPivot..rightPivot` are those equal to the pivot, the smaller ones are
before them and the greater ones behind them. -/
structure FatPivot (q : Call) (cmp : List UInt8 → List UInt8 → ℤ) (first last leftPivot
    rightPivot : ℕ) (p : List UInt8) (s : State) : Prop where
  below : ∀ i, first ≤ i → i ≤ last → (i < leftPivot ↔ cmp (q.elements s i) p < 0)
  equal : ∀ i, first ≤ i → i ≤ last →
    (leftPivot ≤ i ∧ i ≤ rightPivot ↔ cmp (q.elements s i) p = 0)
  above : ∀ i, first ≤ i → i ≤ last → (rightPivot < i ↔ 0 < cmp (q.elements s i) p)

theorem partition3_fatPivot (hq : ∀ n, q.compare n = cmp) (h : Orders cmp (q.contents s))
    {first last : ℕ} (hfirst : 1 ≤ first) (hle : first ≤ last) (hlast : last ≤ q.num) :
    ∃ leftPivot rightPivot s', q.partition3 first last s = some ((leftPivot, rightPivot), s') ∧
      (first ≤ leftPivot ∧ leftPivot ≤ rightPivot ∧ rightPivot ≤ last) ∧
      Rearranged first last (q.elements s) (q.elements s') ∧
      ∃ m, (first ≤ m ∧ m ≤ last) ∧
        FatPivot q cmp first last leftPivot rightPivot (q.elements s m) s' := by
  obtain ⟨⟨leftPivot, rightPivot⟩, s', hrun, hrange, hmove, hpart⟩ :=
    partition3_ensures (r := Below cmp (q.contents s)) q s hfirst hle hlast
  dsimp only at hrange hpart
  obtain ⟨m, hm, hparts⟩ := hpart (answers_below hq h) h.below_preorder
  refine ⟨leftPivot, rightPivot, s', hrun, hrange, hmove, m, hm, ?_⟩
  have hp : q.elements s m ∈ q.contents s := elements_mem (by omega) (by omega)
  have hx : ∀ i, first ≤ i → i ≤ last → q.elements s' i ∈ q.contents s := fun i hi hil =>
    (contents_perm (hmove.mono hfirst hlast)).mem_iff.mp
      (elements_mem (hfirst.trans hi) (hil.trans hlast))
  -- The three cases exclude one another, so each implication has a converse.
  have hcases : ∀ i, first ≤ i → i ≤ last →
      (i < leftPivot → cmp (q.elements s' i) (q.elements s m) < 0) ∧
      (leftPivot ≤ i → i ≤ rightPivot → cmp (q.elements s' i) (q.elements s m) = 0) ∧
      (rightPivot < i → 0 < cmp (q.elements s' i) (q.elements s m)) := by
    intro i hi hil
    have hopposite := h.opposite _ hp _ (hx i hi hil)
    refine ⟨fun hlow => ?_, fun hlp hrp => ?_, fun hhigh => ?_⟩
    · have := hparts.low i hi hlow
      rw [below_iff hp (hx i hi hil)] at this
      omega
    · obtain ⟨hbelow, habove⟩ := hparts.equal i hlp hrp
      rw [below_iff (hx i hi hil) hp] at hbelow
      rw [below_iff hp (hx i hi hil)] at habove
      omega
    · have := hparts.high i hhigh hil
      rw [below_iff (hx i hi hil) hp] at this
      omega
  constructor <;> intro i hi hil <;> obtain ⟨hlow, hmid, hhigh⟩ := hcases i hi hil
  all_goals
    rcases Nat.lt_or_ge i leftPivot with hl | hl
    · have := hlow hl
      omega
    rcases Nat.lt_or_ge rightPivot i with hr | hr
    · have := hhigh hr
      omega
    · have := hmid hl hr
      omega

theorem insertionSort_ordered (hq : ∀ n, q.compare n = cmp) (h : Orders cmp (q.contents s))
    {first last : ℕ} (hfirst : 1 ≤ first) (hle : first ≤ last) (hlast : last ≤ q.num)
    (hbefore : ∀ i j, 1 ≤ i → i < first → first ≤ j → j ≤ last →
      cmp (q.elements s i) (q.elements s j) ≤ 0) :
    ∃ s', q.insertionSort first last s = some ((), s') ∧
      Rearranged first last (q.elements s) (q.elements s') ∧
      ∀ i j, first ≤ i → i < j → j ≤ last → cmp (q.elements s' i) (q.elements s' j) ≤ 0 := by
  obtain ⟨_, s', hrun, hsorted⟩ :=
    insertionSort_ensures q (Below cmp (q.contents s)) s hfirst hle hlast
  obtain ⟨hmove, hin⟩ := hsorted.sorted (answers_below hq h) h.below_preorder
    fun i j hi hif hj hjl => (below_iff (elements_mem hi (by omega))
      (elements_mem (by omega) (by omega))).mpr (hbefore i j hi hif hj hjl)
  exact ⟨s', hrun, hmove, fun i j hi hij hj => (below_rearranged hsorted.rearranged (by omega)
    (by omega) (by omega) (by omega)).mp (hin i j hi hij hj)⟩

/-- A comparison function that is a total preorder on the elements of the array: the whole array
is sorted, every partition has its fat pivot, and the insertion sort sorts a segment that has
nothing greater before it. -/
theorem qsort_sorts (q : Call) (s : State) (cmp : List UInt8 → List UInt8 → ℤ)
    (hq : ∀ n, q.compare n = cmp) (h : Orders cmp (q.contents s)) :
    (∀ fuel, q.num < fuel → ∃ s', q.qsort fuel s = some ((), s') ∧
      (q.contents s').Perm (q.contents s) ∧ (q.contents s').Pairwise fun x y => cmp x y ≤ 0) ∧
    (∀ first last, 1 ≤ first → first ≤ last → last ≤ q.num → ∃ leftPivot rightPivot s',
      q.partition3 first last s = some ((leftPivot, rightPivot), s') ∧
      (first ≤ leftPivot ∧ leftPivot ≤ rightPivot ∧ rightPivot ≤ last) ∧
      Rearranged first last (q.elements s) (q.elements s') ∧
      ∃ m, (first ≤ m ∧ m ≤ last) ∧
        FatPivot q cmp first last leftPivot rightPivot (q.elements s m) s') ∧
    (∀ first last, 1 ≤ first → first ≤ last → last ≤ q.num →
      (∀ i j, 1 ≤ i → i < first → first ≤ j → j ≤ last →
        cmp (q.elements s i) (q.elements s j) ≤ 0) →
      ∃ s', q.insertionSort first last s = some ((), s') ∧
        Rearranged first last (q.elements s) (q.elements s') ∧
        ∀ i j, first ≤ i → i < j → j ≤ last → cmp (q.elements s' i) (q.elements s' j) ≤ 0) :=
  ⟨fun _ hfuel => qsort_ordered hq h hfuel,
    fun _ _ hfirst hle hlast => partition3_fatPivot hq h hfirst hle hlast,
    fun _ _ hfirst hle hlast hbefore => insertionSort_ordered hq h hfirst hle hlast hbefore⟩

theorem qsort_sorts_threeBytes :
    ∃ s', threeBytes.qsort 4 threeState = some ((), s') ∧
      (threeBytes.contents s').Perm (threeBytes.contents threeState) ∧
      (threeBytes.contents s').Pairwise
        fun x y => ((x.headD 0).toNat : ℤ) - (y.headD 0).toNat ≤ 0 :=
  (qsort_sorts threeBytes threeState (fun x y => ((x.headD 0).toNat : ℤ) - (y.headD 0).toNat)
    (fun _ => rfl) ⟨fun x _ y _ => by omega, fun x _ y _ z _ => by omega⟩).1 4 (by decide)

end Call

end DjgppLibc.Qsort
