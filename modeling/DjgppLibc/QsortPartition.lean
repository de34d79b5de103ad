import DjgppLibc.QsortElements

/-!
# The partition around a fat pivot

The bookkeeping of the fat pivot does not rest on the answers of the comparison function: the
count, the top address and the two ends stay in step whatever it says. What the three parts
contain is added under the assumption that it answers by a relation.
-/
namespace DjgppLibc.Qsort
open ByteMemory Rearrangements TotalCorrectness

theorem exchange_self {α : Type*} (f : ℕ → α) (i : ℕ) : exchange f i i = f := by
  rw [exchange, Equiv.swap_self]
  rfl

namespace Call

/-- What holds between two steps of the partition of `first..last`, whose elements were `f₀`
before it and are `f` now. The fat pivot is behind `right`, and its top element is the
`fatPvtCtr - 1`st there. -/
structure Partitioning (q : Call) (r : List UInt8 → List UInt8 → Prop) (first last : ℕ)
    (f₀ : ℕ → List UInt8) (v : Selection) (f : ℕ → List UInt8) : Prop where
  leftAddr : v.leftAddr = q.base v.left
  rightAddr : v.rightAddr = q.base v.right
  first_pos : 1 ≤ first
  first_lt : first < v.left
  left_le : v.left ≤ v.right + 1
  counted : 1 ≤ v.fatPvtCtr
  top_le : v.right + (v.fatPvtCtr - 1) ≤ last
  fat : v.hiFatPvt = true →
    2 ≤ v.fatPvtCtr ∧ v.hiFatPvtAddr = q.base (v.right + (v.fatPvtCtr - 1))
  thin : v.hiFatPvt = false → v.fatPvtCtr = 1
  rearranged : Rearranged first last f₀ f
  pivot : f first = f₀ first
  sides : q.Answers r f₀ → ThreeWay r f first last v.left v.right (v.fatPvtCtr - 1)

variable {q : Call} {r : List UInt8 → List UInt8 → Prop} {first last : ℕ}
  {f₀ f : ℕ → List UInt8} {v : Selection}

namespace Partitioning

theorem bounds (h : Partitioning q r first last f₀ v f) : v.right ≤ last := by
  have := h.top_le
  omega

theorem answers (h : Partitioning q r first last f₀ v f) (hlast : last ≤ q.num)
    (hr : q.Answers r f₀) : q.Answers r f :=
  hr.rearranged (h.rearranged.mono h.first_pos hlast)

/-- The element at `left` is below the pivot. -/
theorem passLeft (h : Partitioning q r first last f₀ v f) (hlast : last ≤ q.num)
    (hle : v.left ≤ v.right) (hlow : q.Answers r f₀ → ¬ r (f first) (f v.left)) :
    Partitioning q r first last f₀ { v with left := v.left + 1, leftAddr := q.inc v.leftAddr }
      f := by
  have hbounds := h.bounds
  have hpos := h.first_pos
  have hfirst := h.first_lt
  exact { h with
    leftAddr := by
      show q.inc v.leftAddr = _
      rw [h.leftAddr, q.inc_base (by omega) (by omega)]
    first_lt := Nat.lt_succ_of_lt hfirst
    left_le := Nat.succ_le_succ hle
    sides := fun hr => (h.sides hr).below (hlow hr) }

theorem passEqual (h : Partitioning q r first last f₀ v f) (hlast : last ≤ q.num)
    (hle : v.left ≤ v.right)
    (heq : q.Answers r f₀ → r (f v.right) (f first) ∧ r (f first) (f v.right)) :
    Partitioning q r first last f₀ (q.decRight (bumpFatPivot v)) f := by
  have hbounds := h.bounds
  have htop := h.top_le
  have hpos := h.first_pos
  have hfirst := h.first_lt
  have hcounted := h.counted
  obtain ⟨n, hn⟩ : ∃ n, v.right = n + 1 := ⟨v.right - 1, by omega⟩
  have hright : v.right - 1 = n := by omega
  refine { h with
    rightAddr := ?_
    left_le := ?_
    counted := Nat.succ_pos _
    top_le := ?_
    fat := fun _ => ?_
    thin := fun hflag => nomatch hflag
    sides := fun hr => ?_ }
  · show q.dec v.rightAddr = q.base (v.right - 1)
    rw [h.rightAddr, hright, hn, q.dec_base (by omega) (by omega)]
  · show v.left ≤ v.right - 1 + 1
    omega
  · show v.right - 1 + (v.fatPvtCtr + 1 - 1) ≤ last
    omega
  · show 2 ≤ v.fatPvtCtr + 1 ∧ (if v.hiFatPvt then v.hiFatPvtAddr else v.rightAddr) =
      q.base (v.right - 1 + (v.fatPvtCtr + 1 - 1))
    refine ⟨by omega, ?_⟩
    rw [show v.right - 1 + (v.fatPvtCtr + 1 - 1) = v.right + (v.fatPvtCtr - 1) by omega]
    cases hflag : v.hiFatPvt with
    | false =>
        rw [if_neg Bool.false_ne_true, h.rightAddr, h.thin hflag]
        rfl
    | true => exact (h.fat hflag).2
  · show ThreeWay r f first last v.left (v.right - 1) (v.fatPvtCtr + 1 - 1)
    have hsides := h.sides hr
    have heq' := heq hr
    rw [hn] at hsides heq'
    rw [hright, show v.fatPvtCtr + 1 - 1 = v.fatPvtCtr - 1 + 1 by omega]
    exact hsides.fatten heq'

/-- The element at `right` is above the pivot, and has taken the place of the top of the fat
pivot. -/
theorem passAbove (h : Partitioning q r first last f₀ v f) (hlast : last ≤ q.num)
    (hle : v.left ≤ v.right) (hgt : q.Answers r f₀ → ¬ r (f v.right) (f first)) (top : ℕ)
    (haddr : v.hiFatPvt = true → top = q.dec v.hiFatPvtAddr) :
    Partitioning q r first last f₀ (q.decRight { v with hiFatPvtAddr := top })
      (exchange f (v.right + (v.fatPvtCtr - 1)) v.right) := by
  have htop := h.top_le
  have hpos := h.first_pos
  have hfirst := h.first_lt
  obtain ⟨n, hn⟩ : ∃ n, v.right = n + 1 := ⟨v.right - 1, by omega⟩
  have hright : v.right - 1 = n := by omega
  refine { h with
    rightAddr := ?_
    left_le := ?_
    top_le := ?_
    fat := fun hflag => ⟨(h.fat hflag).1, ?_⟩
    rearranged := h.rearranged.trans (.exchange f (by omega) htop (by omega) (by omega))
    pivot := (exchange_of_ne f (by omega) (by omega)).trans h.pivot
    sides := fun hr => ?_ }
  · show q.dec v.rightAddr = q.base (v.right - 1)
    rw [h.rightAddr, hright, hn, q.dec_base (by omega) (by omega)]
  · show v.left ≤ v.right - 1 + 1
    omega
  · show v.right - 1 + (v.fatPvtCtr - 1) ≤ last
    omega
  · show top = q.base (v.right - 1 + (v.fatPvtCtr - 1))
    rw [haddr hflag, (h.fat hflag).2,
      show v.right + (v.fatPvtCtr - 1) = v.right - 1 + (v.fatPvtCtr - 1) + 1 by omega,
      q.dec_base (by omega) (by omega)]
  · show ThreeWay r _ first last v.left (v.right - 1) (v.fatPvtCtr - 1)
    have hsides := h.sides hr
    have hgt' := hgt hr
    rw [hn] at hsides hgt' hle ⊢
    exact hsides.above hfirst hle hgt'

end Partitioning

theorem moveFatPivot_ensures {s : State} (h : Partitioning q r first last f₀ v (q.elements s))
    (hlast : last ≤ q.num) (hle : v.left ≤ v.right)
    (hgt : q.Answers r f₀ → ¬ r (q.elements s v.right) (q.elements s first)) :
    Ensures (q.moveFatPivot v) s fun v' s' =>
      (∃ top, v' = { v with hiFatPvtAddr := top }) ∧
      Partitioning q r first last f₀ (q.decRight v') (q.elements s') ∧
      ∀ i, i < v.right → q.elements s' i = q.elements s i := by
  have hpos := h.first_pos
  have hfirst := h.first_lt
  have htop := h.top_le
  unfold moveFatPivot
  by_cases hflag : v.hiFatPvt = true
  · have hfat := h.fat hflag
    have hswap : Ensures (q.swap v.hiFatPvtAddr v.rightAddr) s fun _ s' =>
        q.elements s' = exchange (q.elements s) (v.right + (v.fatPvtCtr - 1)) v.right := by
      rw [hfat.2, h.rightAddr]
      exact q.swap_ensures s (by omega) (by omega) (by omega) (by omega) (by omega)
    rw [if_pos hflag]
    refine hswap.bind fun _ s' hs' => .pure ⟨⟨_, rfl⟩, ?_, fun i hi => ?_⟩
    · rw [hs']
      exact h.passAbove hlast hle hgt _ fun _ => rfl
    · rw [hs', exchange_of_ne _ (by omega) (by omega)]
  · rw [if_neg hflag]
    refine .pure ⟨⟨v.hiFatPvtAddr, rfl⟩, ?_, fun _ _ => rfl⟩
    have hpass := h.passAbove hlast hle hgt v.hiFatPvtAddr
      fun htrue => absurd htrue hflag
    have hstill : exchange (q.elements s) (v.right + (v.fatPvtCtr - 1)) v.right = q.elements s := by
      rw [h.thin (Bool.eq_false_iff.mpr hflag), Nat.sub_self, Nat.add_zero, exchange_self]
    rwa [hstill] at hpass

theorem searchLeft_ensures (fuel : ℕ) {s : State}
    (h : Partitioning q r first last f₀ v (q.elements s)) (hlast : last ≤ q.num)
    (hfuel : v.right + 1 < v.left + fuel) :
    Ensures (q.searchLeft (q.base first) fuel v) s fun v' s' =>
      Partitioning q r first last f₀ v' (q.elements s') ∧ v.left ≤ v'.left ∧
      v'.right = v.right ∧ (v'.left ≤ v'.right → q.Answers r f₀ →
        r (q.elements s' first) (q.elements s' v'.left) ∧
        (v'.cmprLeft ≤ 0 ↔ r (q.elements s' v'.left) (q.elements s' first))) := by
  induction fuel generalizing v s with
  | zero =>
      have := h.left_le
      omega
  | succ fuel ih =>
      have hpos := h.first_pos
      have hfirst := h.first_lt
      have hbounds := h.bounds
      rw [searchLeft]
      by_cases hle : v.left ≤ v.right
      · have hcmpr := q.cmpr_ensures r s (i := v.left) (j := first) (by omega) (by omega) hpos
          (by omega)
        rw [← h.leftAddr] at hcmpr
        rw [if_pos hle]
        refine hcmpr.bind ?_
        intro c s' ⟨hs', hc⟩
        rw [← hs'] at h hc
        have hc := fun hr => hc (h.answers hlast hr)
        by_cases hstop : 0 ≤ c
        · rw [if_pos hstop]
          exact .pure ⟨{ h with }, le_rfl, rfl, fun _ hr =>
            ⟨(hc hr).2.mp hstop, (hc hr).1⟩⟩
        · rw [if_neg hstop]
          have hpass := h.passLeft hlast hle fun hr hge => hstop ((hc hr).2.mpr hge)
          refine (ih (v := { v with
            cmprLeft := c, left := v.left + 1, leftAddr := q.inc v.leftAddr }) { hpass with }
            (by show v.right + 1 < v.left + 1 + fuel; omega)).mono ?_
          intro v' s'' ⟨hv', hleft, hright, hat⟩
          exact ⟨hv', (Nat.le_succ _).trans hleft, hright, hat⟩
      · rw [if_neg hle]
        exact .pure ⟨h, le_rfl, rfl, fun hle' => absurd hle' hle⟩

theorem searchRight_ensures (fuel : ℕ) {s : State}
    (h : Partitioning q r first last f₀ v (q.elements s)) (hlast : last ≤ q.num)
    (hfuel : v.right + 1 < v.left + fuel) :
    Ensures (q.searchRight (q.base first) fuel v) s fun v' s' =>
      Partitioning q r first last f₀ v' (q.elements s') ∧ v'.left = v.left ∧
      v'.cmprLeft = v.cmprLeft ∧ v'.right ≤ v.right ∧
      (v'.left ≤ v'.right → q.elements s' v.left = q.elements s v.left ∧
        (q.Answers r f₀ → ¬ r (q.elements s' first) (q.elements s' v'.right))) := by
  induction fuel generalizing v s with
  | zero =>
      have := h.left_le
      omega
  | succ fuel ih =>
      have hpos := h.first_pos
      have hfirst := h.first_lt
      have hbounds := h.bounds
      rw [searchRight]
      by_cases hle : v.right ≥ v.left
      · rw [if_pos hle, h.rightAddr]
        refine (q.cmpr_ensures r s (by omega) (by omega) hpos (by omega)).bind ?_
        intro c s₁ ⟨hs₁, hc⟩
        rw [← hs₁] at h hc ⊢
        have hc := fun hr => hc (h.answers hlast hr)
        by_cases hbelow : 0 > c
        · rw [if_pos hbelow]
          exact .pure ⟨h, rfl, rfl, le_rfl, fun _ => ⟨rfl, fun hr hge =>
            absurd ((hc hr).2.mpr hge) (by omega)⟩⟩
        rw [if_neg hbelow]
        by_cases habove : 0 < c
        · rw [if_pos habove]
          refine (moveFatPivot_ensures h hlast hle fun hr hle' =>
            absurd ((hc hr).1.mpr hle') (by omega)).bind ?_
          rintro _ s₂ ⟨⟨top, rfl⟩, hpass, hkept⟩
          refine (ih hpass (by show v.right - 1 + 1 < v.left + fuel; omega)).mono ?_
          intro v' s₃ ⟨hv', hleft, hcmpr, hright, hat⟩
          have hright' : v'.right ≤ v.right - 1 := hright
          have hleft' : v'.left = v.left := hleft
          refine ⟨hv', hleft, hcmpr, by omega, fun hat' => ⟨?_, (hat hat').2⟩⟩
          rw [← hkept v.left (by omega)]
          exact (hat hat').1
        · rw [if_neg habove]
          have heq : q.Answers r f₀ → r (q.elements s₁ v.right) (q.elements s₁ first) ∧
              r (q.elements s₁ first) (q.elements s₁ v.right) := fun hr =>
            ⟨(hc hr).1.mp (by omega), (hc hr).2.mp (by omega)⟩
          refine (ih (h.passEqual hlast hle heq)
            (by show v.right - 1 + 1 < v.left + fuel; omega)).mono ?_
          intro v' s₃ ⟨hv', hleft, hcmpr, hright, hat⟩
          have hright' : v'.right ≤ v.right - 1 := hright
          exact ⟨hv', hleft, hcmpr, by omega, hat⟩
      · rw [if_neg hle]
        exact .pure ⟨h, rfl, rfl, le_rfl, fun hle' => absurd hle' hle⟩

theorem settleRight_ensures {s : State} (h : Partitioning q r first last f₀ v (q.elements s))
    (hlast : last ≤ q.num) (hle : v.left ≤ v.right)
    (hge : q.Answers r f₀ → r (q.elements s first) (q.elements s v.right))
    (hcmpr : q.Answers r f₀ → (v.cmprLeft ≤ 0 ↔ r (q.elements s v.right) (q.elements s first))) :
    Ensures (q.settleRight v) s fun v' s' => v'.left = v.left ∧ v'.leftAddr = v.leftAddr ∧
      v'.right = v.right ∧ Partitioning q r first last f₀ (q.decRight v') (q.elements s') ∧
      ∀ i, i < v.right → q.elements s' i = q.elements s i := by
  unfold settleRight
  by_cases habove : 0 < v.cmprLeft
  · rw [if_pos habove]
    refine (moveFatPivot_ensures h hlast hle fun hr hle' =>
      absurd ((hcmpr hr).mpr hle') (by omega)).mono ?_
    rintro _ s' ⟨⟨top, rfl⟩, hpass, hkept⟩
    exact ⟨rfl, rfl, rfl, hpass, hkept⟩
  · rw [if_neg habove]
    exact .pure ⟨rfl, rfl, rfl, h.passEqual hlast hle fun hr =>
      ⟨(hcmpr hr).mp (by omega), hge hr⟩, fun _ _ => rfl⟩

theorem Partitioning.swapped (h : Partitioning q r first last f₀ v f) (hle : v.left ≤ v.right) :
    Partitioning q r first last f₀ v (exchange f v.left v.right) := by
  have hfirst := h.first_lt
  have hbounds := h.bounds
  exact { h with
    rearranged := h.rearranged.trans (.exchange f (by omega) (by omega) (by omega) hbounds)
    pivot := (exchange_of_ne f (by omega) (by omega)).trans h.pivot
    sides := fun hr => (h.sides hr).exchange hfirst le_rfl hle hle le_rfl }

theorem partitionLoop_ensures (fuel : ℕ) {s : State}
    (h : Partitioning q r first last f₀ v (q.elements s)) (hlast : last ≤ q.num)
    (hfuel : v.right + 1 < v.left + fuel) :
    Ensures (q.partitionLoop (q.base first) fuel v) s fun v' s' =>
      Partitioning q r first last f₀ v' (q.elements s') ∧
      (q.Answers r f₀ → v'.left = v'.right + 1) := by
  induction fuel generalizing v s with
  | zero =>
      have := h.left_le
      omega
  | succ fuel ih =>
      have hpos := h.first_pos
      have hfirst := h.first_lt
      rw [partitionLoop]
      by_cases hle : v.left ≤ v.right
      · rw [if_pos hle]
        refine (searchLeft_ensures _ h hlast (by omega)).bind ?_
        intro v₁ s₁ ⟨h₁, hleft₁, hright₁, hat₁⟩
        have hfirst₁ := h₁.first_lt
        refine (searchRight_ensures _ h₁ hlast (by omega)).bind ?_
        intro v₂ s₂ ⟨h₂, hleft₂, hcmpr₂, hright₂, hat₂⟩
        have hbounds₂ := h₂.bounds
        by_cases hlt : v₂.left < v₂.right
        · rw [if_pos hlt]
          obtain ⟨hkept, hbelow⟩ := hat₂ hlt.le
          have hswap : Ensures (q.swap v₂.leftAddr v₂.rightAddr) s₂ fun _ s' =>
              q.elements s' = exchange (q.elements s₂) v₂.left v₂.right := by
            rw [h₂.leftAddr, h₂.rightAddr]
            exact q.swap_ensures s₂ (by omega) (by omega) (by omega) (by omega) (by omega)
          refine hswap.bind ?_
          intro _ s₃ hs₃
          have h₃ := h₂.swapped hlt.le
          rw [← hs₃] at h₃
          have hpivot : q.elements s₃ first = q.elements s₁ first :=
            h₃.pivot.trans h₁.pivot.symm
          -- The item from the left is now at the right.
          have hitem : q.elements s₃ v₂.right = q.elements s₁ v₁.left := by
            rw [hs₃, exchange_right, ← hkept, hleft₂]
          have hat₁' := hat₁ (by omega)
          refine (settleRight_ensures h₃ hlast hlt.le (fun hr => ?_) fun hr => ?_).bind ?_
          · rw [hpivot, hitem]
            exact (hat₁' hr).1
          · rw [hpivot, hitem, hcmpr₂]
            exact (hat₁' hr).2
          intro v₃ s₄ ⟨hleft₃, hleftAddr₃, hright₃, h₄, hkept₃⟩
          have hpass := h₄.passLeft hlast
            (show v₃.left ≤ v₃.right - 1 by omega) fun hr => by
              show ¬ r (q.elements s₄ first) (q.elements s₄ v₃.left)
              rw [hleft₃, hkept₃ first (by omega), hkept₃ _ hlt, h₃.pivot, ← h₂.pivot, hs₃,
                exchange_left]
              exact hbelow hr
          exact ih hpass (by show v₃.right - 1 + 1 < v₃.left + 1 + fuel; omega)
        · rw [if_neg hlt]
          refine .pure ⟨h₂, fun hr => ?_⟩
          have hend := h₂.left_le
          rcases Nat.lt_or_ge v₂.right v₂.left with hgt | hge
          · omega
          · -- The two searches cannot end at one item.
            have hsame : v₂.right = v₁.left := by omega
            have habove := (hat₁ (by omega) hr).1
            have hbelow := (hat₂ hge).2 hr
            rw [h₂.pivot, hsame, (hat₂ hge).1, ← h₁.pivot] at hbelow
            exact absurd habove hbelow
      · rw [if_neg hle]
        have := h.left_le
        exact .pure ⟨h, fun _ => by omega⟩

theorem getPivotAddr_ensures (s : State) {i j k : ℕ} (hi : 1 ≤ i) (hin : i ≤ q.num) (hj : 1 ≤ j)
    (hjn : j ≤ q.num) (hk : 1 ≤ k) (hkn : k ≤ q.num) :
    Ensures (q.getPivotAddr (q.base i) (q.base j) (q.base k)) s fun a s' =>
      q.elements s' = q.elements s ∧ ∃ m, (m = i ∨ m = j ∨ m = k) ∧ a = q.base m := by
  have hcmpr : ∀ {a b : ℕ} (t : State), 1 ≤ a → a ≤ q.num → 1 ≤ b → b ≤ q.num →
      Ensures (q.cmpr (q.base a) (q.base b)) t fun _ t' => q.elements t' = q.elements t :=
    fun t ha han hb hbn => (q.cmpr_ensures (fun _ _ => True) t ha han hb hbn).mono fun _ _ h => h.1
  unfold getPivotAddr
  refine (hcmpr s hj hjn hi hin).bind fun c₁ s₁ h₁ => ?_
  by_cases hc₁ : c₁ > 0
  · rw [if_pos hc₁]
    refine (hcmpr s₁ hi hin hk hkn).bind fun c₂ s₂ h₂ => ?_
    by_cases hc₂ : c₂ ≥ 0
    · rw [if_pos hc₂]
      exact .pure ⟨h₂.trans h₁, i, .inl rfl, rfl⟩
    rw [if_neg hc₂]
    refine (hcmpr s₂ hk hkn hj hjn).bind fun c₃ s₃ h₃ => ?_
    by_cases hc₃ : c₃ ≥ 0
    · rw [if_pos hc₃]
      exact .pure ⟨h₃.trans (h₂.trans h₁), j, .inr (.inl rfl), rfl⟩
    · rw [if_neg hc₃]
      exact .pure ⟨h₃.trans (h₂.trans h₁), k, .inr (.inr rfl), rfl⟩
  · rw [if_neg hc₁]
    refine (hcmpr s₁ hk hkn hi hin).bind fun c₂ s₂ h₂ => ?_
    by_cases hc₂ : c₂ > 0
    · rw [if_pos hc₂]
      exact .pure ⟨h₂.trans h₁, i, .inl rfl, rfl⟩
    rw [if_neg hc₂]
    refine (hcmpr s₂ hj hjn hk hkn).bind fun c₃ s₃ h₃ => ?_
    by_cases hc₃ : c₃ > 0
    · rw [if_pos hc₃]
      exact .pure ⟨h₃.trans (h₂.trans h₁), j, .inr (.inl rfl), rfl⟩
    · rw [if_neg hc₃]
      exact .pure ⟨h₃.trans (h₂.trans h₁), k, .inr (.inr rfl), rfl⟩

theorem Partitioning.start (q : Call) (r : List UInt8 → List UInt8 → Prop) {first last : ℕ}
    (f : ℕ → List UInt8) (hpos : 1 ≤ first) (hle : first ≤ last) :
    Partitioning q r first last f
      { left := first + 1, leftAddr := q.base (first + 1), right := last,
        rightAddr := q.base last, hiFatPvt := false, hiFatPvtAddr := 0, cmprLeft := 0,
        fatPvtCtr := 1 } f where
  leftAddr := rfl
  rightAddr := rfl
  first_pos := hpos
  first_lt := Nat.lt_succ_self first
  left_le := Nat.succ_le_succ hle
  counted := le_rfl
  top_le := le_rfl
  fat := nofun
  thin := fun _ => rfl
  rearranged := .refl ..
  pivot := rfl
  sides := fun _ => .start r f first last

/-- The partition succeeds on every segment and for every comparison function. When the function
answers by a total preorder, the elements `leftPivot..rightPivot` are those equal to the pivot. -/
theorem partition3_ensures (q : Call) (s : State) {first last : ℕ} (hpos : 1 ≤ first)
    (hle : first ≤ last) (hlast : last ≤ q.num) :
    Ensures (q.partition3 first last) s fun p s' =>
      (first ≤ p.1 ∧ p.1 ≤ p.2 ∧ p.2 ≤ last) ∧
      Rearranged first last (q.elements s) (q.elements s') ∧
      (q.Answers r (q.elements s) → TotalPreorder r → ∃ m, (first ≤ m ∧ m ≤ last) ∧
        Partitioned r (q.elements s') first last p.1 p.2 (q.elements s m)) := by
  have hnum := q.num_lt
  have hmid : (first + last + 1) % ulongSize / 2 = (first + last + 1) / 2 := by
    rw [Nat.mod_eq_of_lt (by unfold ulongSize; omega)]
  have hlow : (first + (first + last + 1) / 2) % ulongSize / 2 =
      (first + (first + last + 1) / 2) / 2 := by
    rw [Nat.mod_eq_of_lt (by unfold ulongSize; omega)]
  have hhigh : ((first + last + 1) / 2 + last) % ulongSize / 2 =
      ((first + last + 1) / 2 + last) / 2 := by
    rw [Nat.mod_eq_of_lt (by unfold ulongSize; omega)]
  unfold partition3
  dsimp only
  rw [hmid, hlow, hhigh]
  refine (getPivotAddr_ensures s (by omega) (by omega) (by omega) (by omega) (by omega)
    (by omega)).bind ?_
  rintro _ s₁ ⟨hs₁, m, hm, rfl⟩
  have hmin : first ≤ m ∧ m ≤ last := by omega
  refine (q.swapApart_ensures s₁ hpos (by omega) (j := m) (by omega) (by omega)).bind ?_
  intro _ s₂ hs₂
  refine (partitionLoop_ensures (r := r) (last + 1) (.start q r (q.elements s₂) hpos hle) hlast
    (by show last + 1 < first + 1 + (last + 1); omega)).bind ?_
  intro v s₃ ⟨hv, hdone⟩
  have hfirst := hv.first_lt
  have hend := hv.left_le
  have hbounds := hv.bounds
  have hright : first ≤ v.right := by omega
  have hlastSwap := q.swapApart_ensures s₃ (i := first) (j := v.right) hpos (by omega) (by omega)
    (by omega)
  rw [← hv.rightAddr] at hlastSwap
  refine hlastSwap.bind fun _ s₄ hs₄ => .pure ?_
  have hmoved : Rearranged first last (q.elements s) (q.elements s₂) := by
    rw [hs₂, hs₁]
    exact .exchange _ le_rfl hle hmin.1 hmin.2
  refine ⟨⟨hright, Nat.le_add_right .., hv.top_le⟩, ?_, fun hr hpre => ⟨m, hmin, ?_⟩⟩
  · rw [hs₄]
    exact (hmoved.trans hv.rearranged).trans (.exchange _ le_rfl hle hright hbounds)
  · have hr₂ := hr.rearranged (hmoved.mono hpos hlast)
    have hsides := hv.sides hr₂
    rw [hdone hr₂] at hsides
    have hfinish := hsides.finish hpre hright
    rwa [← hs₄, hv.pivot, hs₂, exchange_left, hs₁] at hfinish

end Call

end DjgppLibc.Qsort
