import Mathlib.Data.Rat.Floor
import DjgppLibc.NearestEven

/-!
# Rounding fractions to integers

A fraction with a sign is rounded to an integer by what is left of its magnitude: whether that
is half of one or more, and whether there is more than the half. Its parity decides a tie.
-/
namespace DjgppLibc.IntegerRounding

open NearestEven

inductive Mode
  | nearest
  | down
  | up
  | chop
deriving DecidableEq

def Mode.Rounds (q : ℚ) (k : ℤ) : Mode → Prop
  | .nearest => IsNearestEven q 1 k
  | .down => k = ⌊q⌋
  | .up => k = ⌈q⌉
  | .chop => k = if 0 ≤ q then ⌊q⌋ else ⌈q⌉

def Mode.away (negative half more odd : Bool) : Mode → Bool
  | .nearest => half && (more || odd)
  | .down => (half || more) && negative
  | .up => (half || more) && !negative
  | .chop => false

def withSign {α : Type} [Neg α] (negative : Bool) (x : α) : α := if negative then -x else x

variable {m n : ℕ} {negative half more odd : Bool}

theorem isNearestEven_neg {x : ℚ} {k : ℤ} (h : IsNearestEven x 1 k) :
    IsNearestEven (-x) 1 (-k) := by
  have hneg (j : ℤ) : |-x - j * 1| = |x - (-j : ℤ) * 1| := by
    rw [← abs_neg]
    congr 1
    push_cast
    ring
  constructor
  · intro j
    rw [hneg, hneg, neg_neg]
    exact h.nearest _
  · intro j hj htie
    rw [hneg, hneg, neg_neg] at htie
    exact (h.even (-j) (fun heq => hj (by rw [← heq, neg_neg])) htie).neg

theorem floor_div (m n : ℕ) : ⌊(m / n : ℚ)⌋ = (m / n : ℕ) := by
  rw [Rat.floor_natCast_div_natCast, Int.natCast_ediv]

theorem ceil_div (hn : 0 < n) (m : ℕ) :
    ⌈(m / n : ℚ)⌉ = ((m / n + if m % n = 0 then 0 else 1 : ℕ) : ℤ) := by
  have hpos : (0 : ℚ) < n := by exact_mod_cast hn
  have hsplit : (m : ℚ) = (m / n : ℕ) * n + (m % n : ℕ) := by
    exact_mod_cast (Nat.div_add_mod' m n).symm
  have hlt : ((m % n : ℕ) : ℚ) < n := by exact_mod_cast Nat.mod_lt m hn
  rw [Int.ceil_eq_iff, lt_div_iff₀ hpos, div_le_iff₀ hpos, hsplit]
  generalize m / n = q
  generalize m % n = r at hlt
  split_ifs with hzero
  · rw [hzero]
    push_cast
    constructor <;> linarith
  · have hge : (1 : ℚ) ≤ r := by exact_mod_cast Nat.one_le_iff_ne_zero.mpr hzero
    push_cast
    constructor <;> linarith

theorem nearest_div (hn : 0 < n) (m : ℕ) :
    IsNearestEven (m / n) 1 (roundEven (m / n : ℕ) (m % n : ℕ) n) := by
  have hpos : (0 : ℚ) < n := by exact_mod_cast hn
  have hsplit : (m : ℤ) = (m / n : ℕ) * n + (m % n : ℕ) := by
    exact_mod_cast (Nat.div_add_mod' m n).symm
  have hround := isNearestEvenInt_round (Int.natCast_nonneg (m % n))
    (by exact_mod_cast Nat.mod_lt m hn) hsplit
  have hcast := (isNearestEven_cast _ _ _).mpr hround
  rw [Int.cast_natCast, Int.cast_natCast] at hcast
  rw [← isNearestEven_scale hpos, div_mul_cancel₀ _ hpos.ne', one_mul]
  exact hcast

structure Flags (m n : ℕ) (half more odd : Bool) : Prop where
  half : half = true ↔ n ≤ 2 * (m % n)
  more : more = true ↔ 2 * (m % n) % n ≠ 0
  odd : odd = true ↔ m / n % 2 = 1

theorem Flags.inexact (h : Flags m n half more odd) (hn : 0 < n) :
    (half || more) = true ↔ m % n ≠ 0 := by
  have hlt := Nat.mod_lt m hn
  rw [Bool.or_eq_true, h.half, h.more]
  constructor
  · rintro (hle | hne) hzero
    · omega
    · simp [hzero] at hne
  · intro hne
    by_cases hle : n ≤ 2 * (m % n)
    · exact .inl hle
    · have hsmall : 2 * (m % n) % n = 2 * (m % n) := Nat.mod_eq_of_lt (by omega)
      omega

theorem Flags.nearest_iff (h : Flags m n half more odd) (hn : 0 < n) :
    (half && (more || odd)) = true ↔ n < 2 * (m % n) ∨ 2 * (m % n) = n ∧ m / n % 2 = 1 := by
  have hlt := Nat.mod_lt m hn
  rw [Bool.and_eq_true, Bool.or_eq_true, h.half, h.more, h.odd]
  obtain hless | heq | hgt := Nat.lt_trichotomy (2 * (m % n)) n
  · omega
  · rw [heq, Nat.mod_self]
    omega
  · have hmod : 2 * (m % n) % n = 2 * (m % n) - n := by
      rw [Nat.mod_eq_sub_mod hgt.le, Nat.mod_eq_of_lt (by omega)]
    omega

/-- A magnitude is cut to the integer below it. -/
theorem Mode.chop_rounds (negative : Bool) (m n : ℕ) :
    Mode.chop.Rounds (withSign negative (m / n : ℚ)) (withSign negative ((m / n : ℕ) : ℤ)) := by
  have hnonneg : (0 : ℚ) ≤ m / n := div_nonneg (Nat.cast_nonneg m) (Nat.cast_nonneg n)
  have hfloor := floor_div m n
  cases negative
  · exact hfloor.symm.trans (if_pos hnonneg).symm
  · change -((m / n : ℕ) : ℤ) = if 0 ≤ -(m / n : ℚ) then ⌊-(m / n : ℚ)⌋ else ⌈-(m / n : ℚ)⌉
    rw [← hfloor]
    split
    · next hneg =>
      rw [show (m / n : ℚ) = 0 by linarith, neg_zero, Int.floor_zero, neg_zero]
    · exact Int.ceil_neg.symm

theorem Mode.rounds (mode : Mode) (negative : Bool) (h : Flags m n half more odd) (hn : 0 < n) :
    mode.Rounds (withSign negative (m / n : ℚ))
      (withSign negative ((m / n + (mode.away negative half more odd).toNat : ℕ) : ℤ)) := by
  have hinexact := h.inexact hn
  have hceil : ⌈(m / n : ℚ)⌉ = ((m / n + (half || more).toNat : ℕ) : ℤ) := by
    rw [ceil_div hn]
    by_cases hzero : m % n = 0
    · rw [if_pos hzero, Bool.eq_false_iff.mpr fun h => hinexact.mp h hzero]
      rfl
    · rw [if_neg hzero, hinexact.mpr hzero]
      rfl
  cases mode with
  | nearest =>
      have hnearest := nearest_div hn m
      have hround : roundEven (m / n : ℕ) (m % n : ℕ) n =
          ((m / n + (Mode.away negative half more odd .nearest).toNat : ℕ) : ℤ) := by
        rw [roundEven]
        split_ifs with hup
        · rw [Mode.away, (h.nearest_iff hn).mpr (by omega)]
          rfl
        · have hflag : (half && (more || odd)) = false := by
            rw [Bool.eq_false_iff, Ne, h.nearest_iff hn]
            omega
          rw [Mode.away, hflag]
          rfl
      rw [hround] at hnearest
      cases negative
      · exact hnearest
      · exact isNearestEven_neg hnearest
  | down =>
      cases negative
      · rw [Mode.away, Bool.and_false]
        exact (floor_div m n).symm
      · rw [Mode.away, Bool.and_true, ← hceil]
        exact Int.floor_neg.symm
  | up =>
      cases negative
      · rw [Mode.away, Bool.not_false, Bool.and_true, ← hceil]
        rfl
      · rw [Mode.away, Bool.not_true, Bool.and_false]
        have hneg := Int.ceil_neg (a := (m / n : ℚ))
        rw [floor_div] at hneg
        exact hneg.symm
  | chop => exact chop_rounds negative m n

theorem Mode.Rounds.unique {mode : Mode} {q : ℚ} {k l : ℤ} (hk : mode.Rounds q k)
    (hl : mode.Rounds q l) : k = l := by
  cases mode with
  | nearest =>
      by_contra hne
      have htie : |q - k * 1| = |q - l * 1| := le_antisymm (hk.nearest l) (hl.nearest k)
      obtain ⟨i, hi⟩ := hk.even l (Ne.symm hne) htie.symm
      obtain ⟨j, hj⟩ := hl.even k hne htie
      -- The integer in the middle is `q` itself.
      have hmiddle : q = (i + j : ℤ) := by
        have hsum : (k : ℚ) = i + i ∧ (l : ℚ) = j + j := ⟨by exact_mod_cast hi, by exact_mod_cast hj⟩
        rw [hsum.1, hsum.2, mul_one, mul_one, abs_eq_abs] at htie
        push_cast
        obtain heq | hneg := htie
        · exact absurd (by exact_mod_cast (show (k : ℚ) = l by linarith)) hne
        · linarith
      have hle := hk.nearest (i + j)
      rw [← hmiddle, mul_one, mul_one, sub_self, abs_zero, hmiddle, ← Int.cast_sub, ← Int.cast_abs]
        at hle
      have hzero : |i + j - k| ≤ 0 := by exact_mod_cast hle
      have := abs_nonpos_iff.mp hzero
      omega
  | down => exact hk.trans hl.symm
  | up => exact hk.trans hl.symm
  | chop => exact hk.trans hl.symm

theorem Mode.rounds_int (mode : Mode) (k : ℤ) : mode.Rounds k k := by
  cases mode with
  | nearest =>
      constructor
      · intro j
        rw [mul_one, sub_self, abs_zero]
        exact abs_nonneg _
      · intro j hj htie
        rw [mul_one, mul_one, sub_self, abs_zero, abs_eq_zero, sub_eq_zero, Int.cast_inj] at htie
        exact absurd htie.symm hj
  | down => exact (Int.floor_intCast k).symm
  | up => exact (Int.ceil_intCast k).symm
  | chop => rw [Mode.Rounds, Int.floor_intCast, Int.ceil_intCast, ite_self]

/-- Half a unit is added before the fraction is cut off. -/
def Mode.addsHalf (negative half more : Bool) : Mode → Bool
  | .nearest => half && more
  | .down => negative && (half || more)
  | .up => !negative && (half || more)
  | .chop => false

/-- There is no tie that has to be increased, and nothing less than the half to be rounded away
from zero. -/
def Mode.HalfSuffices (negative : Bool) (m h : ℕ) : Mode → Prop
  | .nearest => ¬ (m % (2 * h) = h ∧ m / (2 * h) % 2 = 1)
  | .down => negative = true → ¬ (0 < m % (2 * h) ∧ m % (2 * h) < h)
  | .up => negative = false → ¬ (0 < m % (2 * h) ∧ m % (2 * h) < h)
  | .chop => True

theorem natAbs_withSign (b : Bool) (n : ℕ) : (withSign b (n : ℤ)).natAbs = n := by
  cases b
  · rfl
  · exact (Int.natAbs_neg _).trans (Int.natAbs_natCast _)

theorem withSign_inj {k l : ℤ} : withSign negative k = withSign negative l ↔ k = l := by
  cases negative
  · exact Iff.rfl
  · exact neg_inj

/-- The half is carried into the integer if the fraction has the other half. -/
theorem add_half_div {h : ℕ} (hh : 0 < h) (m : ℕ) (b : Bool) :
    (m + if b then h else 0) / (2 * h) = m / (2 * h) + (b && decide (h ≤ m % (2 * h))).toNat := by
  have hlt := Nat.mod_lt m (y := 2 * h) (by omega)
  have hsplit := Nat.div_add_mod m (2 * h)
  generalize m / (2 * h) = q at *
  generalize m % (2 * h) = r at *
  rw [← hsplit]
  by_cases hcarry : b = true ∧ h ≤ r
  · rw [hcarry.1, if_pos rfl, decide_eq_true hcarry.2, Nat.add_assoc,
      Nat.mul_add_div (by omega)]
    have hone : (r + h) / (2 * h) = 1 := Nat.div_eq_of_lt_le (by omega) (by omega)
    rw [hone]
    rfl
  · have hflag : (b && decide (h ≤ r)) = false := by
      rw [Bool.eq_false_iff]
      simpa using hcarry
    have hsmall : (r + if b then h else 0) < 2 * h := by
      split_ifs with hb
      · have : ¬ h ≤ r := fun hle => hcarry ⟨hb, hle⟩
        omega
      · omega
    rw [hflag, Nat.add_assoc, Nat.mul_add_div (by omega), Nat.div_eq_of_lt hsmall]
    rfl

theorem Mode.addsHalf_rounds_iff (mode : Mode) (negative : Bool) {h : ℕ} (hh : 0 < h)
    (hhalf : half = true ↔ h ≤ m % (2 * h)) (hmore : more = true ↔ m % h ≠ 0) :
    mode.Rounds (withSign negative (m / (2 * h : ℕ) : ℚ)) (withSign negative
      (((m + if mode.addsHalf negative half more then h else 0) / (2 * h) : ℕ) : ℤ)) ↔
      mode.HalfSuffices negative m h := by
  have hrest : m % h = m % (2 * h) % h := (Nat.mod_mul_left_mod m 2 h).symm
  have hlt := Nat.mod_lt m (y := 2 * h) (by omega)
  have hflags : Flags m (2 * h) half more (decide (m / (2 * h) % 2 = 1)) := by
    refine ⟨by rw [hhalf]; omega, ?_, decide_eq_true_iff⟩
    rw [hmore, Nat.mul_mod_mul_left, hrest]
    omega
  have hrounds := mode.rounds negative hflags (by omega)
  have hunique : mode.Rounds (withSign negative (m / (2 * h : ℕ) : ℚ)) (withSign negative
      (((m + if mode.addsHalf negative half more then h else 0) / (2 * h) : ℕ) : ℤ)) ↔
      (mode.addsHalf negative half more && decide (h ≤ m % (2 * h))) =
        mode.away negative half more (decide (m / (2 * h) % 2 = 1)) := by
    rw [add_half_div hh]
    constructor
    · intro hk
      have heq := withSign_inj.mp (hk.unique hrounds)
      have hbits : (mode.addsHalf negative half more && decide (h ≤ m % (2 * h))).toNat =
          (mode.away negative half more (decide (m / (2 * h) % 2 = 1))).toNat := by omega
      revert hbits
      cases mode.addsHalf negative half more && decide (h ≤ m % (2 * h)) <;>
        cases mode.away negative half more (decide (m / (2 * h) % 2 = 1)) <;> simp
    · intro heq
      rw [heq]
      exact hrounds
  have hdecide : decide (h ≤ m % (2 * h)) = half := by
    rw [Bool.eq_iff_iff, hhalf, decide_eq_true_iff]
  have hinexact : (half || more) = true ↔ m % (2 * h) ≠ 0 := hflags.inexact (by omega)
  rw [hunique, hdecide]
  have hdirected : ((half || more) && half) = (half || more) ↔
      ¬ (0 < m % (2 * h) ∧ m % (2 * h) < h) := by
    rw [Bool.eq_iff_iff, Bool.and_eq_true, hinexact, hhalf]
    omega
  cases mode with
  | nearest =>
      have hsmall : m % h = 0 ↔ m % (2 * h) = 0 ∨ m % (2 * h) = h := by
        rw [hrest]
        generalize m % (2 * h) = r at hlt
        by_cases hle : h ≤ r
        · rw [Nat.mod_eq_sub_mod hle, Nat.mod_eq_of_lt (by omega)]
          omega
        · rw [Nat.mod_eq_of_lt (by omega)]
          omega
      rw [Mode.addsHalf, Mode.away, Mode.HalfSuffices, Bool.eq_iff_iff]
      simp only [Bool.and_eq_true, Bool.or_eq_true, hhalf, hmore, decide_eq_true_iff]
      omega
  | down =>
      cases negative
      · simp [Mode.addsHalf, Mode.away, Mode.HalfSuffices]
      · rw [Mode.addsHalf, Mode.away, Mode.HalfSuffices, Bool.true_and, Bool.and_true, hdirected]
        simp
  | up =>
      cases negative
      · rw [Mode.addsHalf, Mode.away, Mode.HalfSuffices, Bool.not_false, Bool.true_and,
          Bool.and_true, hdirected]
        simp
      · simp [Mode.addsHalf, Mode.away, Mode.HalfSuffices]
  | chop => simp [Mode.addsHalf, Mode.away, Mode.HalfSuffices]

end DjgppLibc.IntegerRounding
