import Mathlib.Algebra.BigOperators.Intervals
import Mathlib.Tactic.Ring
import Mathlib.Tactic.LinearCombination
import Mathlib.Tactic.Linarith

/-!
# Arithmetic word by word

A number is a list of words, the lowest one first. A loop that keeps the low word of each
partial sum and carries the rest computes sums, and also differences if the carry may be
negative. A product is built from the products of the words in any order, with the carries
counted beside the words and settled afterwards.
-/
namespace DjgppLibc.MultiWords

/-- The number with these digits, which may be negative or too large for one word. -/
def value (b : ℕ) (ds : List ℤ) : ℤ := ds.foldr (fun d v => d + b * v) 0

def carryLoop (b : ℕ) : ℤ → List ℤ → List ℤ × ℤ
  | tmp, [] => ([], tmp)
  | tmp, d :: ds =>
      let t := carryLoop b ((tmp + d) / b) ds
      ((tmp + d) % b :: t.1, t.2)

attribute [grind =] carryLoop

variable {b : ℕ} {tmp d : ℤ} {ds : List ℤ}

@[simp] theorem value_nil : value b [] = 0 := rfl

@[simp] theorem value_cons : value b (d :: ds) = d + b * value b ds := rfl

theorem length_carryLoop : (carryLoop b tmp ds).1.length = ds.length := by
  induction ds generalizing tmp with
  | nil => rfl
  | cons d ds ih => simp [carryLoop, ih]

/-- The loop loses nothing. -/
theorem carryLoop_value : value b (carryLoop b tmp ds).1 + b ^ ds.length * (carryLoop b tmp ds).2 =
    tmp + value b ds := by
  induction ds generalizing tmp with
  | nil => simp [carryLoop]
  | cons d ds ih =>
      have hrest : value b (carryLoop b ((tmp + d) / b) ds).1 +
          b ^ ds.length * (carryLoop b ((tmp + d) / b) ds).2 = (tmp + d) / b + value b ds := ih
      have hdiv : (tmp + d) % b + b * ((tmp + d) / b) = tmp + d := Int.emod_add_mul_ediv _ _
      simp only [carryLoop, value_cons, List.length_cons, pow_succ]
      linear_combination hdiv + b * hrest

theorem value_range (hds : ∀ d ∈ ds, 0 ≤ d ∧ d < b) :
    0 ≤ value b ds ∧ value b ds < b ^ ds.length := by
  induction ds with
  | nil => simp
  | cons d ds ih =>
      obtain ⟨hd, hdb⟩ := hds d List.mem_cons_self
      obtain ⟨hlo, hhi⟩ := ih fun d hd => hds d (List.mem_cons_of_mem _ hd)
      rw [value_cons, List.length_cons, pow_succ]
      have hb : (0 : ℤ) ≤ b := Int.natCast_nonneg b
      constructor
      · have := mul_nonneg hb hlo
        omega
      · have : (b : ℤ) * (value b ds + 1) ≤ b * b ^ ds.length := mul_le_mul_of_nonneg_left hhi hb
        nlinarith

theorem carryLoop_range (hb : 0 < b) : ∀ w ∈ (carryLoop b tmp ds).1, 0 ≤ w ∧ w < b := by
  induction ds generalizing tmp with
  | nil => simp [carryLoop]
  | cons d ds ih =>
      have hpos : (0 : ℤ) < b := by exact_mod_cast hb
      intro w hw
      simp only [carryLoop, List.mem_cons] at hw
      obtain rfl | hw := hw
      · exact ⟨Int.emod_nonneg _ hpos.ne', Int.emod_lt_of_pos _ hpos⟩
      · exact ih w hw

theorem carryLoop_eq (hb : 0 < b) :
    value b (carryLoop b tmp ds).1 = (tmp + value b ds) % b ^ ds.length ∧
      (carryLoop b tmp ds).2 = (tmp + value b ds) / b ^ ds.length := by
  have hpos : (0 : ℤ) < (b : ℤ) ^ ds.length := by positivity
  have hwords : ∀ w ∈ (carryLoop b tmp ds).1, 0 ≤ w ∧ w < b := carryLoop_range hb
  have hrange := value_range hwords
  rw [length_carryLoop] at hrange
  have hvalue : value b (carryLoop b tmp ds).1 + b ^ ds.length * (carryLoop b tmp ds).2 =
      tmp + value b ds := carryLoop_value
  have huniq := (Int.ediv_emod_unique hpos).mpr ⟨hvalue, hrange.1, hrange.2⟩
  exact ⟨huniq.2.symm, huniq.1.symm⟩

/-- The words of a product so far, and the carries into each of them. -/
structure Partial where
  sl : ℕ → ℕ
  carry : ℕ → ℕ

/-- A product of two words is added at a place; a carry out of the next place is counted. -/
def Partial.add (b : ℕ) (p : Partial) (k l : ℕ) : Partial :=
  let sum := p.sl k + l % b
  let next := p.sl (k + 1) + l / b + sum / b
  { sl := Function.update (Function.update p.sl k (sum % b)) (k + 1) (next % b)
    carry := Function.update p.carry (k + 2) (p.carry (k + 2) + next / b) }

def Partial.addRow (b : ℕ) (bs : ℕ → ℕ) (n : ℕ) (p : Partial) (ai a : ℕ) : Partial :=
  (List.range n).foldl (fun p bi => p.add b (ai + bi) (a * bs bi)) p

def products (b : ℕ) (as bs : ℕ → ℕ) (m n : ℕ) : Partial :=
  (List.range m).foldl (fun p ai => p.addRow b bs n ai (as ai)) ⟨fun _ => 0, fun _ => 0⟩

def Partial.settle (b : ℕ) (p : Partial) (k : ℕ) : Partial :=
  if p.carry k ≠ 0 then
    let sum := p.sl k + p.carry k
    { sl := Function.update p.sl k (sum % b)
      carry := Function.update p.carry (k + 1) (p.carry (k + 1) + sum / b) }
  else p

def Partial.settleAll (b : ℕ) (p : Partial) (n : ℕ) : Partial :=
  (List.range n).foldl (Partial.settle b) p

def weigh (b : ℕ) (f : ℕ → ℕ) (n : ℕ) : ℕ := ∑ k ∈ Finset.range n, f k * b ^ k

variable {p : Partial} {f as bs : ℕ → ℕ} {k l n m : ℕ}

theorem weigh_succ (b : ℕ) (f : ℕ → ℕ) (n : ℕ) : weigh b f (n + 1) = weigh b f n + f n * b ^ n :=
  Finset.sum_range_succ _ _

theorem weigh_congr {g : ℕ → ℕ} (h : ∀ k < n, f k = g k) : weigh b f n = weigh b g n :=
  Finset.sum_congr rfl fun k hk => by rw [h k (Finset.mem_range.mp hk)]

theorem weigh_update (hk : k < n) (v : ℕ) :
    weigh b (Function.update f k v) n + f k * b ^ k = weigh b f n + v * b ^ k := by
  have hmem : k ∈ Finset.range n := Finset.mem_range.mpr hk
  have hrest : ∑ i ∈ (Finset.range n).erase k, Function.update f k v i * b ^ i =
      ∑ i ∈ (Finset.range n).erase k, f i * b ^ i := by
    refine Finset.sum_congr rfl fun i hi => ?_
    rw [Function.update_of_ne (Finset.ne_of_mem_erase hi)]
  rw [weigh, weigh, ← Finset.add_sum_erase _ _ hmem, ← Finset.add_sum_erase _ _ hmem, hrest,
    Function.update_self]
  ring

def Partial.total (b : ℕ) (p : Partial) (n : ℕ) : ℕ := weigh b p.sl n + weigh b p.carry n

theorem total_add (hk : k + 2 < n) (l : ℕ) : (p.add b k l).total b n = p.total b n + l * b ^ k := by
  have hne : k ≠ k + 1 := by omega
  have h₁ := weigh_update (b := b) (f := p.sl) (k := k) (n := n) (by omega) ((p.sl k + l % b) % b)
  have h₂ := weigh_update (b := b) (f := Function.update p.sl k ((p.sl k + l % b) % b)) (k := k + 1)
    (n := n) (by omega) ((p.sl (k + 1) + l / b + (p.sl k + l % b) / b) % b)
  have h₃ := weigh_update (b := b) (f := p.carry) hk
    (p.carry (k + 2) + (p.sl (k + 1) + l / b + (p.sl k + l % b) / b) / b)
  rw [Function.update_of_ne hne.symm] at h₂
  have hl := Nat.mod_add_div l b
  have hsum := Nat.mod_add_div (p.sl k + l % b) b
  have hnext := Nat.mod_add_div (p.sl (k + 1) + l / b + (p.sl k + l % b) / b) b
  rw [pow_succ] at h₂
  rw [pow_succ, pow_succ] at h₃
  unfold Partial.total Partial.add
  dsimp only
  zify at *
  linear_combination h₁ + h₂ + h₃ + (b : ℤ) ^ k * hl + (b : ℤ) ^ k * hsum +
    (b : ℤ) ^ k * b * hnext

theorem total_addRow (hn : ∀ bi < n, k + bi + 2 < m) (a : ℕ) :
    (p.addRow b bs n k a).total b m = p.total b m + a * b ^ k * weigh b bs n := by
  induction n with
  | zero => simp [Partial.addRow, weigh]
  | succ n ih =>
      have hrow : p.addRow b bs (n + 1) k a = (p.addRow b bs n k a).add b (k + n) (a * bs n) := by
        rw [Partial.addRow, List.range_succ, List.foldl_append]
        rfl
      rw [hrow, total_add (hn n (by omega)), ih fun bi hbi => hn bi (by omega), weigh_succ, pow_add]
      ring

/-- The products of all words add up to the product. -/
theorem total_products (m n : ℕ) :
    (products b as bs m n).total b (m + n + 1) = weigh b as m * weigh b bs n := by
  have hrows : ∀ j ≤ m, ((List.range j).foldl (fun p ai => p.addRow b bs n ai (as ai))
      (⟨fun _ => 0, fun _ => 0⟩ : Partial)).total b (m + n + 1) = weigh b as j * weigh b bs n := by
    intro j hj
    induction j with
    | zero => simp [Partial.total, weigh]
    | succ j ih =>
        rw [List.range_succ, List.foldl_append, List.foldl_cons, List.foldl_nil,
          total_addRow (fun bi hbi => by omega), ih (by omega), weigh_succ]
        ring
  exact hrows m le_rfl

/-- What the words and the carries from a place on stand for. -/
def Partial.remaining (b : ℕ) (p : Partial) (k n : ℕ) : ℕ :=
  weigh b p.sl n + ∑ i ∈ Finset.Ico k n, p.carry i * b ^ i

theorem remaining_zero (b : ℕ) (p : Partial) (n : ℕ) : p.remaining b 0 n = p.total b n := by
  rw [Partial.remaining, ← Finset.range_eq_Ico]
  rfl

theorem remaining_settle (hk : k + 1 < n) :
    (p.settle b k).remaining b (k + 1) n = p.remaining b k n := by
  have hsplit := Finset.sum_eq_sum_Ico_succ_bot (show k < n by omega) fun i => p.carry i * b ^ i
  unfold Partial.settle
  split_ifs with hcarry
  · have hnext := Finset.sum_eq_sum_Ico_succ_bot hk fun i => p.carry i * b ^ i
    have hnext' := Finset.sum_eq_sum_Ico_succ_bot hk fun i =>
      Function.update p.carry (k + 1) (p.carry (k + 1) + (p.sl k + p.carry k) / b) i * b ^ i
    have hrest : ∑ i ∈ Finset.Ico (k + 1 + 1) n,
        Function.update p.carry (k + 1) (p.carry (k + 1) + (p.sl k + p.carry k) / b) i * b ^ i =
        ∑ i ∈ Finset.Ico (k + 1 + 1) n, p.carry i * b ^ i := by
      refine Finset.sum_congr rfl fun i hi => ?_
      have := Finset.mem_Ico.mp hi
      rw [Function.update_of_ne (by omega)]
    have hword := weigh_update (b := b) (f := p.sl) (k := k) (n := n) (by omega)
      ((p.sl k + p.carry k) % b)
    have hsum := Nat.mod_add_div (p.sl k + p.carry k) b
    rw [hrest, Function.update_self, pow_succ] at hnext'
    rw [pow_succ] at hnext
    unfold Partial.remaining
    dsimp only
    zify at *
    linear_combination hword + hnext' - hsplit - hnext + (b : ℤ) ^ k * hsum
  · rw [not_not] at hcarry
    rw [hcarry, Nat.zero_mul, Nat.zero_add] at hsplit
    rw [Partial.remaining, Partial.remaining, hsplit]

theorem remaining_settleAll (hk : k < n) :
    (p.settleAll b k).remaining b k n = p.total b n := by
  induction k with
  | zero => exact remaining_zero b p n
  | succ k ih =>
      have hlast : p.settleAll b (k + 1) = (p.settleAll b k).settle b k := by
        rw [Partial.settleAll, List.range_succ, List.foldl_append]
        rfl
      rw [hlast, remaining_settle hk, ih (by omega)]

def Partial.InWords (b : ℕ) (p : Partial) : Prop := ∀ k, p.sl k < b

theorem update_lt (hf : ∀ i, f i < b) {v : ℕ} (hv : v < b) (i : ℕ) :
    Function.update f k v i < b := by
  rw [Function.update_apply]
  split_ifs
  · exact hv
  · exact hf i

theorem Partial.InWords.add (hb : 0 < b) (h : p.InWords b) (k l : ℕ) : (p.add b k l).InWords b :=
  update_lt (update_lt h (Nat.mod_lt _ hb)) (Nat.mod_lt _ hb)

theorem Partial.InWords.settle (hb : 0 < b) (h : p.InWords b) (k : ℕ) :
    (p.settle b k).InWords b := by
  unfold Partial.settle
  split_ifs
  · exact update_lt h (Nat.mod_lt _ hb)
  · exact h

theorem inWords_products (hb : 0 < b) (as bs : ℕ → ℕ) (m n : ℕ) :
    (products b as bs m n).InWords b := by
  refine List.foldlRecOn (motive := Partial.InWords b) _ _ (fun _ => hb) fun p hp ai _ => ?_
  exact List.foldlRecOn (motive := Partial.InWords b) _ _ hp fun p hp bi _ => hp.add hb _ _

theorem inWords_settleAll (hb : 0 < b) (h : p.InWords b) (n : ℕ) : (p.settleAll b n).InWords b :=
  List.foldlRecOn (motive := Partial.InWords b) _ _ h fun _ hp k _ => hp.settle hb k

theorem weigh_lt (hf : ∀ k < n, f k < b) : weigh b f n < b ^ n := by
  induction n with
  | zero => simp [weigh]
  | succ n ih =>
      have hlt := ih fun k hk => hf k (by omega)
      have hmul : (f n + 1) * b ^ n ≤ b * b ^ n := Nat.mul_le_mul_right _ (hf n (by omega))
      rw [weigh_succ, pow_succ']
      linarith

/-- The words are those of the product, and nothing is carried out of them. -/
theorem products_settled (has : ∀ k < m, as k < b) (hbs : ∀ k < n, bs k < b) :
    weigh b ((products b as bs m n).settleAll b (m + n)).sl (m + n) =
      weigh b as m * weigh b bs n := by
  have hall := remaining_settleAll (b := b) (p := products b as bs m n) (Nat.lt_succ_self (m + n))
  rw [Nat.succ_eq_add_one, total_products, Partial.remaining, weigh_succ, Nat.Ico_succ_singleton,
    Finset.sum_singleton] at hall
  have hlt : weigh b as m * weigh b bs n < b ^ (m + n) := by
    rw [pow_add]
    exact Nat.mul_lt_mul'' (weigh_lt has) (weigh_lt hbs)
  have hzero : ∀ x : ℕ, x * b ^ (m + n) < b ^ (m + n) → x * b ^ (m + n) = 0 := by
    intro x hx
    have : x < 1 := Nat.lt_of_mul_lt_mul_right (by rwa [Nat.one_mul])
    rw [Nat.lt_one_iff.mp this, Nat.zero_mul]
  have hsl := hzero _ (show ((products b as bs m n).settleAll b (m + n)).sl (m + n) *
    b ^ (m + n) < _ by omega)
  have hcarry := hzero _ (show ((products b as bs m n).settleAll b (m + n)).carry (m + n) *
    b ^ (m + n) < _ by omega)
  omega

end DjgppLibc.MultiWords
