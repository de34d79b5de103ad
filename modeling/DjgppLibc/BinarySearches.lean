import Mathlib.Data.Int.Order.Basic

/-!
# Binary searches by comparisons

A search asks about the element in the middle between two bounds that are no elements any more.
The answer is zero, or says on which side of the element to go on. In a sequence that ascends, the
last element that was looked at is the one, or next to where it would be. Where all answers point
to one side, the search goes there, whatever the order of the elements is.
-/
namespace DjgppLibc.BinarySearches

/-- The loop of a search, with the last element it has looked at and whether it was the one. -/
def bisect (c : ℕ → ℤ) : ℕ → ℤ → ℤ → ℤ → ℤ × Bool
  | 0, _, _, mid => (mid, false)
  | n + 1, below, above, mid =>
      if above - below > 1 then
        let mid := (above + below) / 2
        if c mid.toNat = 0 then (mid, true)
        else if c mid.toNat < 0 then bisect c n below mid mid
        else bisect c n mid above mid
      else (mid, false)

attribute [grind =] bisect

variable {c : ℕ → ℤ} {num n : ℕ} {below above mid : ℤ}

/-- The answers in a sequence that ascends: first those of elements in front, then those of the
elements sought, then those of elements behind. -/
structure Ascends (c : ℕ → ℤ) (num : ℕ) : Prop where
  before : ∀ i j, i < j → j < num → 0 < c j → 0 < c i
  behind : ∀ i j, i < j → j < num → c i < 0 → c j < 0

structure Bounds (c : ℕ → ℤ) (num : ℕ) (below above mid : ℤ) : Prop where
  lo : -1 ≤ below
  lt : below < above
  hi : above ≤ num
  before : ∀ i : ℕ, (i : ℤ) ≤ below → 0 < c i
  behind : ∀ i : ℕ, above ≤ i → i < num → c i < 0
  last : mid = below ∧ 0 ≤ below ∨ mid = above ∧ above < num ∨ above - below > 1

/-- What a search has found: the element sought, or one of the two between which it would be. -/
structure Settled (c : ℕ → ℤ) (num : ℕ) (mid : ℤ) (found : Bool) : Prop where
  range : 0 ≤ mid ∧ mid < num
  sought : found = true ↔ c mid.toNat = 0
  before : found = false → ∀ i : ℕ, (i : ℤ) < mid → 0 < c i
  behind : found = false → ∀ i : ℕ, mid < i → i < num → c i < 0

/-- The bounds have met. -/
theorem Bounds.settled (h : Bounds c num below above mid) (hmet : ¬ above - below > 1) :
    Settled c num mid false := by
  have hlt := h.lt
  obtain ⟨hmid, hnonneg⟩ | ⟨hmid, hin⟩ := h.last.imp_right (Or.resolve_right · hmet)
  · have hhi := h.hi
    have hpos := h.before mid.toNat (by omega)
    refine ⟨by omega, ⟨fun hf => absurd hf (by decide), fun hzero => by omega⟩, fun _ i hi => ?_,
      fun _ i hi hin => ?_⟩
    · exact h.before i (by omega)
    · exact h.behind i (by omega) hin
  · have hlo := h.lo
    have hneg := h.behind mid.toNat (by omega) (by omega)
    refine ⟨by omega, ⟨fun hf => absurd hf (by decide), fun hzero => by omega⟩, fun _ i hi => ?_,
      fun _ i hi hin => ?_⟩
    · exact h.before i (by omega)
    · exact h.behind i (by omega) hin

theorem bisect_settles (hc : Ascends c num) (h : Bounds c num below above mid)
    (hn : above - below ≤ n + 1) :
    Settled c num (bisect c n below above mid).1 (bisect c n below above mid).2 := by
  induction n generalizing below above mid with
  | zero => exact h.settled (by omega)
  | succ n ih =>
      have hlo := h.lo
      have hhi := h.hi
      rw [bisect]
      split_ifs with hopen
      · obtain ⟨m, hm⟩ : ∃ m : ℕ, (m : ℤ) = (above + below) / 2 :=
          ⟨((above + below) / 2).toNat, by omega⟩
        dsimp only
        rw [← hm, Int.toNat_natCast]
        split_ifs with hzero hneg
        · refine ⟨by omega, ⟨fun _ => hzero, fun _ => rfl⟩, fun hf => ?_, fun hf => ?_⟩ <;> cases hf
        · refine ih ⟨hlo, by omega, by omega, h.before, fun i hi hin => ?_, by omega⟩ (by omega)
          obtain hlt | heq := Nat.lt_or_eq_of_le (show m ≤ i by omega)
          · exact hc.behind m i hlt hin hneg
          · rw [← heq]
            exact hneg
        · refine ih ⟨by omega, by omega, hhi, fun i hi => ?_, h.behind, by omega⟩ (by omega)
          obtain hlt | heq := Nat.lt_or_eq_of_le (show i ≤ m by omega)
          · exact hc.before i m hlt (by omega) (by omega)
          · rw [heq]
            omega
      · exact h.settled hopen

theorem bounds_start (c : ℕ → ℤ) (hnum : 0 < num) : Bounds c num (-1) num 0 :=
  ⟨le_rfl, by omega, le_rfl, fun i hi => by omega, fun i hi hin => by omega, by omega⟩

theorem bisect_found (h : (bisect c n below above mid).2 = true) :
    c (bisect c n below above mid).1.toNat = 0 := by
  induction n generalizing below above mid with
  | zero => exact absurd h Bool.false_ne_true
  | succ n ih =>
      rw [bisect] at h ⊢
      split_ifs at h ⊢ with hopen
      dsimp only at h ⊢
      split_ifs at h ⊢ with hzero hneg
      · exact hzero
      · exact ih h
      · exact ih h

theorem front_step (above : ℤ) (hc : ∀ i < num, c i ≤ 0) (hlo : 0 ≤ above) (hhi : above < num)
    (hn : above ≤ n) : 0 ≤ (bisect c n (-1) above above).1 ∧
      (bisect c n (-1) above above).1 ≤ above ∧
      ((bisect c n (-1) above above).2 = false → (bisect c n (-1) above above).1 = 0) := by
  induction n generalizing above with
  | zero =>
      rw [bisect]
      exact ⟨hlo, le_rfl, fun _ => by omega⟩
  | succ n ih =>
      rw [bisect]
      split_ifs with hopen
      · obtain ⟨m, hm⟩ : ∃ m : ℕ, (m : ℤ) = (above + -1) / 2 :=
          ⟨((above + -1) / 2).toNat, by omega⟩
        dsimp only
        rw [← hm, Int.toNat_natCast]
        have hle := hc m (by omega)
        split_ifs with hzero hneg
        · exact ⟨by omega, by omega, fun hf => absurd hf (by decide)⟩
        · obtain ⟨hnonneg, hbelow, hfound⟩ := ih m (by omega) (by omega) (by omega)
          exact ⟨hnonneg, by omega, hfound⟩
        · omega
      · exact ⟨hlo, le_rfl, fun _ => by omega⟩

theorem bisect_front (hc : ∀ i < num, c i ≤ 0) (hnum : 0 < num) (hn : num ≤ n) :
    (bisect c n (-1) num 0).1.toNat ≤ (num - 1) / 2 ∧
      ((bisect c n (-1) num 0).2 = false → (bisect c n (-1) num 0).1 = 0) := by
  obtain ⟨n, rfl⟩ := Nat.exists_eq_add_one.mpr (Nat.lt_of_lt_of_le hnum hn)
  obtain ⟨m, hm⟩ : ∃ m : ℕ, (m : ℤ) = ((num : ℤ) + -1) / 2 :=
    ⟨(((num : ℤ) + -1) / 2).toNat, by omega⟩
  have hle := hc m (by omega)
  rw [bisect, if_pos (by omega)]
  dsimp only
  rw [← hm, Int.toNat_natCast]
  split_ifs with hzero hneg
  · exact ⟨by omega, fun hf => absurd hf (by decide)⟩
  · obtain ⟨hnonneg, hbelow, hfound⟩ :=
      front_step (n := n) m hc (by omega) (by omega) (by omega)
    exact ⟨by omega, hfound⟩
  · omega

theorem back_step (below : ℤ) (hc : ∀ i < num, 0 ≤ c i) (hlo : 0 ≤ below) (hhi : below < num)
    (hpos : 0 < c below.toNat) (hn : num - below ≤ n + 1) :
    below ≤ (bisect c n below num below).1 ∧ (bisect c n below num below).1 < num ∧
      ((bisect c n below num below).2 = false → 0 < c (bisect c n below num below).1.toNat) := by
  induction n generalizing below with
  | zero =>
      rw [bisect]
      exact ⟨le_rfl, hhi, fun _ => hpos⟩
  | succ n ih =>
      rw [bisect]
      split_ifs with hopen
      · obtain ⟨m, hm⟩ : ∃ m : ℕ, (m : ℤ) = (num + below) / 2 :=
          ⟨((num + below) / 2).toNat, by omega⟩
        dsimp only
        rw [← hm, Int.toNat_natCast]
        have hle := hc m (by omega)
        split_ifs with hzero hneg
        · exact ⟨by omega, by omega, fun hf => absurd hf (by decide)⟩
        · omega
        · obtain ⟨habove, hin, hfound⟩ := ih m (by omega) (by omega)
            (by rw [Int.toNat_natCast]; omega) (by omega)
          exact ⟨by omega, hin, hfound⟩
      · exact ⟨le_rfl, hhi, fun _ => hpos⟩

theorem bisect_back (hc : ∀ i < num, 0 ≤ c i) (hnum : 0 < num) (hn : num ≤ n) :
    (num - 1) / 2 ≤ (bisect c n (-1) num 0).1.toNat ∧ (bisect c n (-1) num 0).1.toNat < num ∧
      ((bisect c n (-1) num 0).2 = false → 0 < c (bisect c n (-1) num 0).1.toNat) := by
  obtain ⟨n, rfl⟩ := Nat.exists_eq_add_one.mpr (Nat.lt_of_lt_of_le hnum hn)
  obtain ⟨m, hm⟩ : ∃ m : ℕ, (m : ℤ) = ((num : ℤ) + -1) / 2 :=
    ⟨(((num : ℤ) + -1) / 2).toNat, by omega⟩
  have hle := hc m (by omega)
  rw [bisect, if_pos (by omega)]
  dsimp only
  rw [← hm, Int.toNat_natCast]
  split_ifs with hzero hneg
  · exact ⟨by omega, by omega, fun hf => absurd hf (by decide)⟩
  · omega
  · obtain ⟨habove, hin, hfound⟩ :=
      back_step (n := n) m hc (by omega) (by omega) (by rw [Int.toNat_natCast]; omega)
        (by omega)
    exact ⟨by omega, by omega, hfound⟩

/-- The loop, with the first element that is left and how many there are. The first argument is at
least their number. -/
def narrow (c : ℕ → ℤ) : ℕ → ℕ → ℕ → Option ℕ
  | 0, _, _ => none
  | n + 1, lo, lim =>
      if lim = 0 then none
      else if c (lo + lim / 2) = 0 then some (lo + lim / 2)
      else if c (lo + lim / 2) > 0 then narrow c n (lo + lim / 2 + 1) ((lim - 1) / 2)
      else narrow c n lo (lim / 2)

attribute [grind =] narrow

theorem narrow_some {lo lim i : ℕ} (h : narrow c n lo lim = some i) :
    lo ≤ i ∧ i < lo + lim ∧ c i = 0 := by
  induction n generalizing lo lim with
  | zero => cases h
  | succ n ih =>
      rw [narrow] at h
      split_ifs at h with hempty hzero hpos
      · obtain rfl := Option.some.inj h
        exact ⟨Nat.le_add_right _ _, by omega, hzero⟩
      · obtain ⟨hlo, hhi, hfound⟩ := ih h
        exact ⟨by omega, by omega, hfound⟩
      · obtain ⟨hlo, hhi, hfound⟩ := ih h
        exact ⟨hlo, by omega, hfound⟩

/-- In a sequence that ascends the elements that are given up are not the ones sought. -/
theorem narrow_none (hc : Ascends c num) {lo lim : ℕ} (hnum : lo + lim ≤ num) (hn : lim ≤ n)
    (h : narrow c n lo lim = none) {i : ℕ} (hlo : lo ≤ i) (hhi : i < lo + lim) : c i ≠ 0 := by
  induction n generalizing lo lim with
  | zero => omega
  | succ n ih =>
      rw [narrow] at h
      split_ifs at h with hempty hzero hpos
      · omega
      · obtain hlt | rfl | hgt := Nat.lt_trichotomy i (lo + lim / 2)
        · have hfront := hc.before i _ hlt (by omega) hpos
          omega
        · exact hzero
        · exact ih (by omega) (by omega) h (by omega) (by omega)
      · obtain hlt | rfl | hgt := Nat.lt_trichotomy i (lo + lim / 2)
        · exact ih (by omega) (by omega) h hlo (by omega)
        · exact hzero
        · have hback := hc.behind _ i hgt (by omega) (by omega)
          omega

end DjgppLibc.BinarySearches
