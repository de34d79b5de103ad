import DjgppLibc.Qsort
import Mathlib.Tactic.Linarith

/-!
# Elements of the array to be sorted

The address registers follow the indices, a comparison sees two elements, and an exchange of
bytes, in whatever pieces, exchanges two elements and nothing else.
-/
namespace DjgppLibc.Qsort
open ByteMemory Rearrangements TotalCorrectness

/-- The blocks of `n` bytes at `a` and `b` have changed places. -/
structure Exchanged (m m' : Mem) (a b n : ℕ) : Prop where
  first : bytes m' a n = bytes m b n
  second : bytes m' b n = bytes m a n
  outside : ∀ x, (x < a ∨ a + n ≤ x) → (x < b ∨ b + n ≤ x) → m' x = m x

def Disjoint (a b n : ℕ) : Prop := a + n ≤ b ∨ b + n ≤ a

theorem bytes_putAll_of_length (m : Mem) (a : ℕ) {n : ℕ} {vs : List UInt8} (h : vs.length = n) :
    bytes (putAll m a vs) a n = vs := by
  subst h
  exact bytes_putAll m a vs

theorem Exchanged.transfer (m : Mem) {a b n : ℕ} (h : Disjoint a b n) :
    Exchanged m (transfer m a b n) a b n := by
  have hfirst : (bytes m b n).length = n := bytes_length ..
  have hsecond : (bytes m a n).length = n := bytes_length ..
  unfold Disjoint at h
  constructor
  · rw [Qsort.transfer, bytes_congr fun x hx hxn => putAll_out _ _ _ (by omega)]
    exact bytes_putAll_of_length m a hfirst
  · exact bytes_putAll_of_length _ b hsecond
  · intro x hxa hxb
    rw [Qsort.transfer, putAll_out _ _ _ (by omega), putAll_out _ _ _ (by omega)]

/-- Two blocks change places piece by piece. -/
theorem Exchanged.append {m m₁ m₂ : Mem} {a b i j : ℕ} (h : Disjoint a b (i + j))
    (h₁ : Exchanged m m₁ a b i) (h₂ : Exchanged m₁ m₂ (a + i) (b + i) j) :
    Exchanged m m₂ a b (i + j) := by
  unfold Disjoint at h
  have houter : ∀ c, c = a ∨ c = b → bytes m₂ c i = bytes m₁ c i := fun c hc =>
    bytes_congr fun x hx hxi => h₂.outside x (by omega) (by omega)
  have hinner : ∀ c, c = a ∨ c = b → bytes m₁ (c + i) j = bytes m (c + i) j := fun c hc =>
    bytes_congr fun x hx hxj => h₁.outside x (by omega) (by omega)
  constructor
  · rw [bytes_add, bytes_add, houter a (.inl rfl), h₁.first, h₂.first, hinner b (.inr rfl)]
  · rw [bytes_add, bytes_add, houter b (.inr rfl), h₁.second, h₂.second, hinner a (.inl rfl)]
  · intro x hxa hxb
    rw [h₂.outside x (by omega) (by omega), h₁.outside x (by omega) (by omega)]

theorem Exchanged.none (m : Mem) (a b : ℕ) : Exchanged m m a b 0 :=
  ⟨rfl, rfl, fun _ _ _ => rfl⟩

theorem transferLoop_exchanged (fuel : ℕ) (m : Mem) {a b n : ℕ} (h : Disjoint a b n)
    (hfuel : n ≤ fuel) : Exchanged m (transferLoop fuel m a b n) a b n := by
  induction fuel generalizing m a b n with
  | zero =>
      obtain rfl := Nat.le_zero.mp hfuel
      exact .none m a b
  | succ fuel ih =>
      rw [transferLoop]
      by_cases hpos : 0 < n
      · -- One pass moves a piece, the other passes the rest.
        have hsplit : ∀ i, 0 < i → i ≤ n → Exchanged m
            (transferLoop fuel (Qsort.transfer m a b i) (a + i) (b + i) (n - i)) a b n := by
          intro i hi hin
          unfold Disjoint at h ih
          have hrest := ih (Qsort.transfer m a b i) (a := a + i) (b := b + i) (n := n - i)
            (by omega) (by omega)
          have hboth := (Exchanged.transfer m (a := a) (b := b) (n := i)
            (by unfold Disjoint; omega)).append (by unfold Disjoint; omega) hrest
          rwa [Nat.add_sub_of_le hin] at hboth
        rw [if_pos hpos]
        dsimp only
        split_ifs with hsmall
        · exact hsplit n hpos le_rfl
        · exact hsplit 256 (by omega) (by omega)
      · obtain rfl : n = 0 := by omega
        exact .none m a b

theorem exchanged_exchanged (m : Mem) {a b n : ℕ} (h : Disjoint a b n) :
    Exchanged m (exchanged n m a b) a b n := by
  unfold exchanged
  split
  · exact .transfer m h
  · exact .transfer m h
  · exact .transfer m h
  · exact transferLoop_exchanged _ m h le_rfl

namespace Call

variable (q : Call) {i j : ℕ}

theorem base_eq (hi : 1 ≤ i) (hin : i ≤ q.num + 1) :
    q.base i = q.myBase + (i - 1) * q.dataWidth := by
  have hend := q.end_lt
  have hnum := q.num_lt
  have hle : (i - 1) * q.dataWidth ≤ q.num * q.dataWidth := Nat.mul_le_mul_right _ (by omega)
  unfold ulongSize at hend
  rw [base, show (i + ulongSize - 1) % ulongSize = i - 1 by unfold ulongSize; omega]
  exact Nat.mod_eq_of_lt (by unfold ulongSize; omega)

theorem base_succ (hi : 1 ≤ i) (hin : i ≤ q.num) : q.base (i + 1) = q.base i + q.dataWidth := by
  rw [q.base_eq (by omega) (by omega), q.base_eq hi (by omega), show i + 1 - 1 = i - 1 + 1 by omega,
    Nat.add_mul]
  omega

theorem base_lt (i : ℕ) : q.base i < ulongSize := Nat.mod_lt _ (by decide)

@[simp] theorem inc_base (hi : 1 ≤ i) (hin : i ≤ q.num) : q.inc (q.base i) = q.base (i + 1) := by
  rw [inc, ← q.base_succ hi hin]
  exact Nat.mod_eq_of_lt (q.base_lt (i + 1))

@[simp] theorem dec_base (hi : 1 ≤ i) (hin : i ≤ q.num) : q.dec (q.base (i + 1)) = q.base i := by
  have hlt := q.base_lt i
  rw [dec, q.base_succ hi hin,
    show q.base i + q.dataWidth + ulongSize - q.dataWidth = q.base i + ulongSize by omega,
    Nat.add_mod_right, Nat.mod_eq_of_lt hlt]

theorem isElement_base (hi : 1 ≤ i) (hin : i ≤ q.num) : q.IsElement (q.base i) :=
  ⟨i - 1, by omega, by rw [Nat.sub_add_cancel hi]⟩

theorem disjoint_base (hi : 1 ≤ i) (hin : i ≤ q.num) (hj : 1 ≤ j) (hjn : j ≤ q.num)
    (hne : i ≠ j) : Disjoint (q.base i) (q.base j) q.dataWidth := by
  have hafter : ∀ k l, 1 ≤ k → k < l → l ≤ q.num → q.base k + q.dataWidth ≤ q.base l := by
    intro k l hk hkl hl
    rw [← q.base_succ hk (by omega), q.base_eq (by omega) (by omega),
      q.base_eq (by omega) (by omega)]
    exact Nat.add_le_add_left (Nat.mul_le_mul_right _ (by omega)) _
  rcases Nat.lt_or_gt_of_ne hne with h | h
  · exact .inl (hafter i j hi h hjn)
  · exact .inr (hafter j i hj h hin)

/-- The elements `1..num`, as a sequence. -/
def elements (s : State) (i : ℕ) : List UInt8 :=
  if 1 ≤ i ∧ i ≤ q.num then bytes s.mem (q.base i) q.dataWidth else []

theorem elements_eq (s : State) (hi : 1 ≤ i) (hin : i ≤ q.num) :
    q.elements s i = bytes s.mem (q.base i) q.dataWidth := if_pos ⟨hi, hin⟩

theorem elements_exchanged (s : State) (hi : 1 ≤ i) (hin : i ≤ q.num) (hj : 1 ≤ j)
    (hjn : j ≤ q.num) (hne : i ≠ j) :
    q.elements { s with mem := exchanged q.dataWidth s.mem (q.base i) (q.base j) } =
      exchange (q.elements s) i j := by
  have hx := exchanged_exchanged s.mem (q.disjoint_base hi hin hj hjn hne)
  funext k
  by_cases hk : 1 ≤ k ∧ k ≤ q.num
  · rw [q.elements_eq _ hk.1 hk.2]
    by_cases hki : k = i
    · rw [hki, exchange_left, q.elements_eq s hj hjn]
      exact hx.first
    by_cases hkj : k = j
    · rw [hkj, exchange_right, q.elements_eq s hi hin]
      exact hx.second
    · rw [exchange_of_ne _ hki hkj, q.elements_eq s hk.1 hk.2]
      have hdi := q.disjoint_base hk.1 hk.2 hi hin hki
      have hdj := q.disjoint_base hk.1 hk.2 hj hjn hkj
      unfold Disjoint at hdi hdj
      exact bytes_congr fun x hx₁ hx₂ => hx.outside x (by omega) (by omega)
  · rw [exchange_of_ne _ (by rintro rfl; exact hk ⟨hi, hin⟩) (by rintro rfl; exact hk ⟨hj, hjn⟩),
      elements, elements, if_neg hk, if_neg hk]

/-- Asked about two of the elements `f`, the comparison function answers by the relation `r`. -/
def Answers (r : List UInt8 → List UInt8 → Prop) (f : ℕ → List UInt8) : Prop :=
  ∀ n i j, 1 ≤ i → i ≤ q.num → 1 ≤ j → j ≤ q.num →
    (q.compare n (f i) (f j) ≤ 0 ↔ r (f i) (f j)) ∧ (0 ≤ q.compare n (f i) (f j) ↔ r (f j) (f i))

theorem Answers.rearranged {q : Call} {r : List UInt8 → List UInt8 → Prop}
    {f g : ℕ → List UInt8} (hr : q.Answers r f) (hfg : Rearranged 1 q.num f g) :
    q.Answers r g := by
  intro n i j hi hin hj hjn
  obtain ⟨k, hk, hkn, hki⟩ := hfg.source hi hin
  obtain ⟨l, hl, hln, hlj⟩ := hfg.source hj hjn
  rw [hki, hlj]
  exact hr n k l hk hkn hl hln

theorem cmpr_ensures (r : List UInt8 → List UInt8 → Prop) (s : State) (hi : 1 ≤ i)
    (hin : i ≤ q.num) (hj : 1 ≤ j) (hjn : j ≤ q.num) :
    Ensures (q.cmpr (q.base i) (q.base j)) s fun c s' => q.elements s' = q.elements s ∧
      (q.Answers r (q.elements s) → (c ≤ 0 ↔ r (q.elements s i) (q.elements s j)) ∧
        (0 ≤ c ↔ r (q.elements s j) (q.elements s i))) := by
  refine ⟨_, _, if_pos ⟨q.isElement_base hi hin, q.isElement_base hj hjn⟩, rfl, fun hr => ?_⟩
  rw [← q.elements_eq s hi hin, ← q.elements_eq s hj hjn]
  exact hr _ i j hi hin hj hjn

theorem swap_ensures (s : State) (hi : 1 ≤ i) (hin : i ≤ q.num) (hj : 1 ≤ j) (hjn : j ≤ q.num)
    (hne : i ≠ j) :
    Ensures (q.swap (q.base i) (q.base j)) s fun _ s' =>
      q.elements s' = exchange (q.elements s) i j :=
  ⟨_, _, if_pos ⟨q.isElement_base hi hin, q.isElement_base hj hjn⟩,
    q.elements_exchanged s hi hin hj hjn hne⟩

/-- Elements at one address are equal, so nothing is lost when they do not change places. -/
theorem swapApart_ensures (s : State) (hi : 1 ≤ i) (hin : i ≤ q.num) (hj : 1 ≤ j)
    (hjn : j ≤ q.num) :
    Ensures (q.swapApart (q.base i) (q.base j)) s fun _ s' =>
      q.elements s' = exchange (q.elements s) i j := by
  unfold swapApart
  by_cases hne : q.base i = q.base j
  · rw [if_neg (not_not.mpr hne)]
    refine .pure (funext fun k => ?_)
    have hsame : q.elements s i = q.elements s j := by
      rw [q.elements_eq s hi hin, q.elements_eq s hj hjn, hne]
    by_cases hki : k = i
    · rw [hki, exchange_left, hsame]
    by_cases hkj : k = j
    · rw [hkj, exchange_right, hsame]
    · rw [exchange_of_ne _ hki hkj]
  · rw [if_pos hne]
    exact q.swap_ensures s hi hin hj hjn fun h => hne (by rw [h])

end Call

end DjgppLibc.Qsort
