import DjgppLibc.HexFloats
import DjgppLibc.NearestEven

/-!
# The conversions `a` and `A` with a precision

The mantissa is shifted until one digit is left behind those that are printed, and that
digit alone decides about the rounding.
-/
namespace DjgppLibc.HexFloats
open Doprnt (convert horner)
open Doscan (isDigitOf)
open NearestEven

variable {m : BitVec 64} {prec : ℕ} {upper : Bool} {point : Char}

def RoundsUp (n : ℕ) : Prop := 8 < n % 16 ∨ n % 16 = 8 ∧ n / 16 % 2 = 1

instance (n : ℕ) : Decidable (RoundsUp n) := inferInstanceAs (Decidable (_ ∨ _))

theorem toNat_shift (m : BitVec 64) (k : ℕ) : (m >>> (k * 4)).toNat = m.toNat / 16 ^ k := by
  rw [BitVec.toNat_ushiftRight, Nat.shiftRight_eq_div_pow, Nat.mul_comm, Nat.pow_mul]

theorem toNat_nibble (m : BitVec 64) : (m &&& 0xf).toNat = m.toNat % 16 := by
  rw [BitVec.toNat_and]
  exact Nat.and_two_pow_sub_one_eq_mod _ 4

theorem toNat_parity (m : BitVec 64) :
    (((m &&& 0xf0) >>> 4) % 2).toNat = m.toNat / 16 % 2 := by
  have hshift : ((m &&& 0xf0) >>> 4).toNat = m.toNat / 16 % 16 := by
    rw [BitVec.toNat_ushiftRight, BitVec.toNat_and, Nat.shiftRight_and_distrib,
      Nat.shiftRight_eq_div_pow]
    exact Nat.and_two_pow_sub_one_eq_mod _ 4
  rw [BitVec.toNat_umod, hshift]
  change m.toNat / 16 % 16 % 2 = _
  omega

theorem roundsUp_iff (m : BitVec 64) :
    8 < m &&& 0xf ∨ m &&& 0xf = 8 ∧ ((m &&& 0xf0) >>> 4) % 2 ≠ 0 ↔ RoundsUp m.toNat := by
  have hlt : 8 < m &&& 0xf ↔ 8 < m.toNat % 16 := by
    rw [BitVec.lt_def, toNat_nibble]
    rfl
  have heq : m &&& 0xf = 8 ↔ m.toNat % 16 = 8 := by
    rw [← BitVec.toNat_inj, toNat_nibble]
    rfl
  have hodd : ((m &&& 0xf0) >>> 4) % 2 ≠ 0 ↔ m.toNat / 16 % 2 = 1 := by
    rw [Ne, ← BitVec.toNat_inj, toNat_parity]
    change ¬ _ = 0 ↔ _
    omega
  rw [hlt, heq, hodd, RoundsUp]

/-- What `round` computes. -/
structure Rounded (prec : ℕ) (left_shifts : ℤ) (n : ℕ) (r : ℤ × BitVec 64) : Prop where
  carry : 16 ^ (prec + 1) ≤ n → r.1 = left_shifts - 4 ∧ r.2.toNat = n / 16
  plain : n < 16 ^ (prec + 1) → r.1 = left_shifts ∧ r.2.toNat = n

theorem round_spec (hprec : prec < 15) (left_shifts : ℤ) (m : BitVec 64) :
    let n := m.toNat / 16 ^ (14 - prec)
    Rounded prec left_shifts ((if RoundsUp n then (n + 16) % 2 ^ 64 else n) / 16)
      (round prec left_shifts m) := by
  intro n
  unfold round
  rw [if_pos hprec]
  dsimp only
  have hn : (m >>> ((15 - prec - 1) * 4)).toNat = n := by
    rw [toNat_shift, show 15 - prec - 1 = 14 - prec by omega]
  generalize m >>> ((15 - prec - 1) * 4) = m₁ at hn ⊢
  have hsum : (if 8 < m₁ &&& 0xf ∨ m₁ &&& 0xf = 8 ∧ ((m₁ &&& 0xf0) >>> 4) % 2 ≠ 0 then m₁ + 0x10
      else m₁).toNat = if RoundsUp n then (n + 16) % 2 ^ 64 else n := by
    have hup := roundsUp_iff m₁
    rw [hn] at hup
    by_cases h : RoundsUp n
    · rw [if_pos (hup.mpr h), if_pos h, BitVec.toNat_add, hn]
      rfl
    · rw [if_neg fun h' => h (hup.mp h'), if_neg h, hn]
  generalize (if 8 < m₁ &&& 0xf ∨ m₁ &&& 0xf = 8 ∧ ((m₁ &&& 0xf0) >>> 4) % 2 ≠ 0 then m₁ + 0x10
    else m₁) = m₂ at hsum ⊢
  have hm₃ : (m₂ >>> 4).toNat = (if RoundsUp n then (n + 16) % 2 ^ 64 else n) / 16 := by
    rw [BitVec.toNat_ushiftRight, hsum, Nat.shiftRight_eq_div_pow]
  have hle : (m₂ >>> 4).toNat ≤ 16 ^ (prec + 1) := by
    have hn' : n < 16 ^ (prec + 2) := by
      have hsplit : 2 ^ 64 = 16 ^ (14 - prec) * 16 ^ (prec + 2) := by
        rw [← Nat.pow_add, show 14 - prec + (prec + 2) = 16 by omega]
        norm_num
      have hlt := m.isLt
      rw [hsplit] at hlt
      exact Nat.div_lt_of_lt_mul hlt
    rw [hm₃, Nat.div_le_iff_le_mul_add_pred (by decide)]
    rw [Nat.pow_succ, Nat.mul_comm] at hn'
    split_ifs
    · exact (Nat.mod_le _ _).trans (by omega)
    · omega
  rw [← hm₃]
  generalize m₂ >>> 4 = m₃ at hle ⊢
  have hpos : 0 < 16 ^ (prec + 1) := Nat.pow_pos (by decide)
  have hbit : (m₃ >>> ((15 - (15 - prec - 1)) * 4)) &&& 1 ≠ 0 ↔ 16 ^ (prec + 1) ≤ m₃.toNat := by
    have hand : ((m₃ >>> ((15 - (15 - prec - 1)) * 4)) &&& 1).toNat =
        m₃.toNat / 16 ^ (prec + 1) % 2 := by
      rw [BitVec.toNat_and, toNat_shift, show 15 - (15 - prec - 1) = prec + 1 by omega]
      exact Nat.and_two_pow_sub_one_eq_mod _ 1
    rw [Ne, ← BitVec.toNat_inj, hand]
    change ¬ _ = 0 ↔ _
    constructor
    · intro hne
      by_contra hlt
      rw [Nat.div_eq_of_lt (by omega)] at hne
      exact hne rfl
    · intro hge
      rw [Nat.le_antisymm hle hge, Nat.div_self hpos]
      decide
  constructor
  · intro hge
    rw [if_pos (hbit.mpr hge)]
    exact ⟨rfl, by rw [BitVec.toNat_ushiftRight, Nat.shiftRight_eq_div_pow]⟩
  · intro hlt
    rw [if_neg fun h => absurd (hbit.mp h) (Nat.not_le.mpr hlt)]
    exact ⟨rfl, rfl⟩

/-- Zeros fill the places that are asked for. -/
theorem mantissaText_some (upper : Bool) (hpoint : isDigitOf 16 point = false) {c : Char}
    {r : List Char} (hp : convert 16 upper 64 m.toNat [] = c :: r) (hr : r.length ≤ prec)
    (hprec : prec < 15) :
    mantissaText (some prec) false upper point m =
      c :: if r ++ List.replicate (prec - r.length) '0' = [] then []
        else point :: (r ++ List.replicate (prec - r.length) '0') := by
  have hdigits := (written_convert (.inr (.inr rfl)) upper
    (m.isLt.trans (show 2 ^ 64 < 16 ^ 64 by norm_num))).digits
  rw [hp] at hdigits
  have hpad : min (prec + 2) BUF - ([c] ++ point :: r).length = prec - r.length := by
    unfold BUF
    simp only [List.length_append, List.length_cons, List.length_nil]
    omega
  have hassoc : [c] ++ point :: r ++ List.replicate (prec - r.length) '0' =
      [c] ++ point :: (r ++ List.replicate (prec - r.length) '0') := by simp
  simp only [mantissaText, hp, List.take_succ_cons, List.take_zero, List.drop_succ_cons,
    List.drop_zero, hpad, hassoc]
  refine drop_point hpoint c fun d hd => ?_
  rcases List.mem_append.mp hd with hd | hd
  · exact hdigits d (List.mem_cons_of_mem c hd)
  · rw [List.eq_of_mem_replicate hd]
    decide

/-- The mantissa is printed as a number with `prec` digits behind the point. -/
theorem text_some (upper : Bool) (hpoint : isDigitOf 16 point = false) (hprec : prec < 15)
    (hm : m.toNat = 0 ∨ 16 ^ prec ≤ m.toNat ∧ m.toNat < 16 ^ (prec + 1)) {exponent : ℤ}
    (hexp : exponent.natAbs < 10 ^ 64) :
    ∃ h : HexNumber, mantissaText (some prec) false upper point m ++ exponentText upper exponent =
        h.text upper point ∧
      h.fraction.length = prec ∧ h.number = m.toNat ∧ h.exponent = exponent := by
  have hlt : m.toNat < 16 ^ 64 := m.isLt.trans (by norm_num)
  have hwritten := written_convert (.inr (.inr rfl)) upper hlt
  obtain ⟨c, r, hp⟩ := List.exists_cons_of_ne_nil hwritten.ne_nil
  have hr : r.length ≤ prec ∧ (m.toNat = 0 ∨ r.length = prec) := by
    rcases hm with h0 | ⟨hlow, hhigh⟩
    · rw [h0, Doprnt.convert_zero] at hp
      cases hp
      exact ⟨Nat.zero_le _, .inl h0⟩
    · have hlen := convert_length_eq upper hlow hhigh hlt
      rw [hp, List.length_cons] at hlen
      exact ⟨by omega, .inr (by omega)⟩
  have hvalue := hwritten.value
  have hdigits : ∀ d ∈ c :: (r ++ List.replicate (prec - r.length) '0'), isDigitOf 16 d = true := by
    intro d hd
    rw [← List.cons_append] at hd
    rcases List.mem_append.mp hd with hd | hd
    · exact hwritten.digits d (hp ▸ hd)
    · rw [List.eq_of_mem_replicate hd]
      decide
  refine ⟨printed upper c _ exponent hdigits hexp, ?_, ?_, ?_, printed_exponent _ _⟩
  · rw [printed_text, mantissaText_some upper hpoint hp hr.1 hprec]
  · change (r ++ List.replicate (prec - r.length) '0').length = prec
    rw [List.length_append, List.length_replicate]
    omega
  · change horner 16 0 (c :: (r ++ List.replicate (prec - r.length) '0')) = m.toNat
    rw [← List.cons_append, Doprnt.horner_append, ← hp, hvalue, horner_behind]
    rcases hr.2 with h0 | hsame
    · rw [h0, Nat.zero_mul]
    · rw [hsame, Nat.sub_self, Nat.pow_zero, Nat.mul_one]

theorem text_inj {h h' : HexNumber} (htext : h.text upper point = h'.text upper point)
    (hlen : h.fraction.length = h'.fraction.length) :
    h.number = h'.number ∧ h.exponent = h'.exponent := by
  unfold HexNumber.text at htext
  obtain ⟨hwhole, hrest⟩ := List.cons.inj htext
  have hsame : (if h.fraction = [] then [] else point :: h.fraction).length =
      (if h'.fraction = [] then [] else point :: h'.fraction).length := by
    by_cases hnil : h.fraction = []
    · have hnil' : h'.fraction = [] := by
        rw [hnil] at hlen
        exact List.eq_nil_of_length_eq_zero hlen.symm
      rw [if_pos hnil, if_pos hnil']
    · have hnil' : h'.fraction ≠ [] := by
        intro h0
        rw [h0] at hlen
        exact hnil (List.eq_nil_of_length_eq_zero hlen)
      rw [if_neg hnil, if_neg hnil', List.length_cons, List.length_cons, hlen]
  obtain ⟨hfront, hback⟩ := List.append_inj hrest hsame
  have hfraction : h.fraction = h'.fraction := by
    by_cases hnil : h.fraction = []
    · rw [hnil] at hlen ⊢
      exact (List.eq_nil_of_length_eq_zero hlen.symm).symm
    · rw [if_neg hnil] at hfront
      by_cases hnil' : h'.fraction = []
      · rw [hnil', List.length_nil] at hlen
        exact absurd (List.eq_nil_of_length_eq_zero hlen) hnil
      · rw [if_neg hnil'] at hfront
        exact (List.cons.inj hfront).2
  obtain ⟨-, hback⟩ := List.cons.inj hback
  obtain ⟨hsign, hpower⟩ := List.cons.inj hback
  have hneg : h.negative = h'.negative := by
    cases hn : h.negative <;> cases hn' : h'.negative <;> simp [hn, hn'] at hsign <;> rfl
  constructor
  · rw [HexNumber.number, HexNumber.number, hwhole, hfraction]
  · rw [HexNumber.exponent, HexNumber.exponent, hneg, hpower]

/-- The text is the multiple of `16 ^ -prec` (times the power of two that is printed) that is
nearest to the number, or the even one of two. -/
def PrintsNearest (prec : ℕ) (upper : Bool) (point : Char) (x : LongDouble) : Prop :=
  ∃ h : HexNumber, conversion (some prec) upper point x = x.front upper ++ h.text upper point ∧
    h.fraction.length = prec ∧
    IsNearestEven |x.value| ((1 / 16) ^ prec * 2 ^ h.exponent) h.number

/-- The digits of the mantissa behind the first `prec + 1` ones start with an 8 that is not the
last digit but zero, and the digit in front of it is even. -/
def EightLeft (prec n : ℕ) : Prop :=
  n / 16 ^ (14 - prec) % 16 = 8 ∧ n % 16 ^ (14 - prec) ≠ 0 ∧ n / 16 ^ (15 - prec) % 2 = 0

/-- All digits but the last one are at their maximum, and that one is rounded up. -/
def AllOnes (prec n : ℕ) : Prop := prec = 14 ∧ 2 ^ 64 ≤ n + 8

instance (prec n : ℕ) : Decidable (EightLeft prec n) := inferInstanceAs (Decidable (_ ∧ _))

instance (prec n : ℕ) : Decidable (AllOnes prec n) := inferInstanceAs (Decidable (_ ∧ _))

variable {x : LongDouble}

theorem printsNearest_iff {h : HexNumber}
    (htext : conversion (some prec) upper point x = x.front upper ++ h.text upper point)
    (hlen : h.fraction.length = prec) :
    PrintsNearest prec upper point x ↔
      IsNearestEven |x.value| ((1 / 16) ^ prec * 2 ^ h.exponent) h.number := by
  constructor
  · rintro ⟨h', htext', hlen', hnearest⟩
    have hsame := List.append_cancel_left (htext.symm.trans htext')
    obtain ⟨hnumber, hexponent⟩ := text_inj hsame (hlen.trans hlen'.symm)
    rw [hnumber, hexponent]
    exact hnearest
  · exact fun hnearest => ⟨h, htext, hlen, hnearest⟩

theorem abs_value (hx : x.exponent ≠ 0) :
    |x.value| = ((x.mantissa.toNat : ℤ) : ℚ) * 2 ^ (x.exponent.toNat - BIAS - 63) := by
  have hpos : 0 < x.exponent.toNat := by
    rcases Nat.eq_zero_or_pos x.exponent.toNat with h0 | hpos
    · exact absurd (BitVec.eq_of_toNat_eq h0) hx
    · exact hpos
  rw [x.value_eq, max_eq_right (by exact_mod_cast hpos), Int.cast_natCast]
  have hnonneg : (0 : ℚ) ≤ x.mantissa.toNat * 2 ^ ((x.exponent.toNat : ℤ) - BIAS - 63) :=
    mul_nonneg (Nat.cast_nonneg _) (zpow_nonneg (by norm_num) _)
  unfold LongDouble.signed
  split_ifs
  · rw [abs_neg, abs_of_nonneg hnonneg]
  · rw [abs_of_nonneg hnonneg]

/-- The unit of the last digit, in terms of the one of the mantissa. -/
theorem unit_eq (hprec : prec ≤ 15) (a : ℤ) (k : ℕ) :
    (1 / 16 : ℚ) ^ prec * 2 ^ (a - 3 + 4 * (k : ℤ)) =
      ((16 ^ (15 - prec + k) : ℤ) : ℚ) * 2 ^ (a - 63) := by
  have hpow : (2 : ℚ) ^ (a - 3 + 4 * (k : ℤ)) = 2 ^ (a - 63) * 16 ^ (15 + k) := by
    rw [show a - 3 + 4 * (k : ℤ) = a - 63 + ((4 * (15 + k) : ℕ) : ℤ) by push_cast; ring,
      zpow_add₀ (by norm_num), zpow_natCast, pow_mul]
    norm_num
  have hsplit : (16 : ℚ) ^ (15 + k) = 16 ^ (15 - prec + k) * 16 ^ prec := by
    rw [← pow_add]
    congr 1
    omega
  have hone : (1 / 16 : ℚ) ^ prec * 16 ^ prec = 1 := by
    rw [← mul_pow]
    norm_num
  rw [hpow, hsplit]
  push_cast
  linear_combination (2 : ℚ) ^ (a - 63) * 16 ^ (15 - prec + k) * hone

/-- Whether the number is nearest can be told from the mantissa alone; `k` is 1 after a carry. -/
theorem nearest_scaled (hx : x.exponent ≠ 0) (hprec : prec ≤ 15) (k : ℕ) (j : ℤ) :
    IsNearestEven |x.value| ((1 / 16) ^ prec * 2 ^ (x.exponent.toNat - BIAS - 3 + 4 * (k : ℤ))) j ↔
      IsNearestEvenInt x.mantissa.toNat (16 ^ (15 - prec + k)) j := by
  rw [abs_value hx, unit_eq hprec, isNearestEven_scale (zpow_pos (by norm_num) _),
    isNearestEven_cast]

theorem half_iff {w d l : ℕ} (hl : l < w) :
    (16 * w < 2 * (d * w + l) ↔ 8 < d ∨ d = 8 ∧ l ≠ 0) ∧
      (2 * (d * w + l) = 16 * w ↔ d = 8 ∧ l = 0) := by
  rcases Nat.lt_trichotomy d 8 with hlt | rfl | hgt
  · have hle : d * w ≤ 7 * w := Nat.mul_le_mul_right w (by omega)
    constructor <;> omega
  · constructor <;> omega
  · have hle : 9 * w ≤ d * w := Nat.mul_le_mul_right w (by omega)
    constructor <;> omega

theorem place_normal (prec : ℕ) (h : m.msb = true) : place (some prec) m = (3, m) := by
  have hm : m ≠ 0 := by
    rintro rfl
    exact absurd h (by decide)
  have hn : normalize 64 0 m = (0, m) := by
    rw [normalize, if_pos h]
  unfold place
  rw [if_neg hm, hn]
  rfl

theorem unbiased_normal (hx : x.exponent ≠ 0) (m : BitVec 64) (left_shifts : ℤ) :
    unbiased x.exponent m left_shifts = x.exponent.toNat - BIAS - left_shifts := by
  unfold unbiased
  rw [if_neg hx]

theorem conversion_rounded (hx : x.exponent ≠ 0) (upper : Bool)
    (hpoint : isDigitOf 16 point = false) (hprec : prec < 15) {left_shifts : ℤ} {m : BitVec 64}
    (hround : round prec 3 x.mantissa = (left_shifts, m)) (hshifts : |left_shifts| ≤ 63)
    (hm : m.toNat = 0 ∨ 16 ^ prec ≤ m.toNat ∧ m.toNat < 16 ^ (prec + 1)) :
    PrintsNearest prec upper point x ↔
      IsNearestEven |x.value| ((1 / 16) ^ prec * 2 ^ (x.exponent.toNat - BIAS - left_shifts))
        m.toNat := by
  have hmsb : x.mantissa.msb = true := (x.finite.resolve_left hx).2
  obtain ⟨h, htext, hlen, hnumber, hexponent⟩ := text_some upper hpoint hprec hm
    (unbiased_lt x.exponent m _ hshifts)
  have hconversion : conversion (some prec) upper point x =
      x.front upper ++ h.text upper point := by
    rw [← htext]
    unfold conversion cvtl
    rw [place_normal prec hmsb]
    dsimp only
    rw [hround]
    rfl
  rw [printsNearest_iff hconversion hlen, hnumber, hexponent, unbiased_normal hx]

theorem nearest_digits {n : ℕ} (hprec : prec ≤ 14) (k : ℤ) :
    IsNearestEvenInt n (16 ^ (15 - prec)) k ↔
      k = if 8 < n / 16 ^ (14 - prec) % 16 ∨ n / 16 ^ (14 - prec) % 16 = 8 ∧
          (n % 16 ^ (14 - prec) ≠ 0 ∨ n / 16 ^ (15 - prec) % 2 = 1) then
        ((n / 16 ^ (15 - prec) + 1 : ℕ) : ℤ) else ((n / 16 ^ (15 - prec) : ℕ) : ℤ) := by
  have hw : 0 < 16 ^ (14 - prec) := Nat.pow_pos (by decide)
  have hunit : 16 ^ (15 - prec) = 16 * 16 ^ (14 - prec) := by
    rw [show 15 - prec = 14 - prec + 1 by omega, Nat.pow_succ, Nat.mul_comm]
  have hunit' : (16 : ℤ) ^ (15 - prec) = ((16 * 16 ^ (14 - prec) : ℕ) : ℤ) := by
    rw [← hunit]
    push_cast
    rfl
  rw [hunit, hunit']
  generalize 16 ^ (14 - prec) = w at hw
  have hq : n / (16 * w) = n / w / 16 := by rw [Nat.mul_comm, Nat.div_div_eq_div_mul]
  have hl := Nat.mod_lt n hw
  have hsplit := Nat.div_add_mod n w
  rw [hq]
  generalize n % w = l at hl hsplit ⊢
  generalize n / w = v at hsplit ⊢
  have hv := Nat.div_add_mod v 16
  have hd := Nat.mod_lt v (show 0 < 16 by decide)
  generalize v % 16 = d at hv hd ⊢
  generalize v / 16 = q at hv ⊢
  obtain ⟨hmore, htie⟩ := half_iff (d := d) hl
  have hrest : d * w + l < 16 * w := by
    have : (d + 1) * w ≤ 16 * w := Nat.mul_le_mul_right w (by omega)
    rw [Nat.succ_mul] at this
    omega
  have hn : (n : ℤ) = q * ((16 * w : ℕ) : ℤ) + ((d * w + l : ℕ) : ℤ) := by
    rw [← hsplit, ← hv]
    push_cast
    ring
  rw [isNearestEvenInt_iff (Int.natCast_nonneg _) (by exact_mod_cast hrest) hn, roundEven]
  have hcast : ((16 * w : ℕ) : ℤ) < 2 * ((d * w + l : ℕ) : ℤ) ∨
      2 * ((d * w + l : ℕ) : ℤ) = ((16 * w : ℕ) : ℤ) ∧ (q : ℤ) % 2 = 1 ↔
      8 < d ∨ d = 8 ∧ (l ≠ 0 ∨ q % 2 = 1) := by
    have hmore' : ((16 * w : ℕ) : ℤ) < 2 * ((d * w + l : ℕ) : ℤ) ↔ 8 < d ∨ d = 8 ∧ l ≠ 0 := by
      rw [← hmore]
      exact_mod_cast Iff.rfl
    have htie' : 2 * ((d * w + l : ℕ) : ℤ) = ((16 * w : ℕ) : ℤ) ↔ d = 8 ∧ l = 0 := by
      rw [← htie]
      exact_mod_cast Iff.rfl
    rw [hmore', htie']
    omega
  by_cases hup : 8 < d ∨ d = 8 ∧ (l ≠ 0 ∨ q % 2 = 1)
  · rw [if_pos (hcast.mpr hup), if_pos hup]
    push_cast
    rfl
  · rw [if_neg fun h => hup (hcast.mp h), if_neg hup]

theorem nearest_carry {n : ℕ} (hcarry : n / 16 ^ (15 - prec) + 1 = 16 ^ (prec + 1)) :
    IsNearestEvenInt n (16 ^ (15 - prec + 1)) (16 ^ prec) := by
  have hpos : 0 < 16 ^ (15 - prec) := Nat.pow_pos (by decide)
  have hone : 0 < 16 ^ prec := Nat.pow_pos (by decide)
  have hunit : (16 : ℤ) ^ (15 - prec + 1) = ((16 * 16 ^ (15 - prec) : ℕ) : ℤ) := by
    rw [pow_succ]
    push_cast
    ring
  have hnumber : (16 : ℤ) ^ prec = ((16 ^ prec : ℕ) : ℤ) := by push_cast; rfl
  rw [Nat.pow_succ] at hcarry
  rw [hunit, hnumber]
  generalize 16 ^ prec = v at hcarry hone ⊢
  have hsplit := Nat.div_add_mod n (16 ^ (15 - prec))
  have hlt := Nat.mod_lt n hpos
  generalize 16 ^ (15 - prec) = w at hcarry hpos hsplit hlt ⊢
  generalize n % w = r at hsplit hlt
  generalize n / w = q at hsplit hcarry
  have hq : (q : ℤ) = 16 * v - 1 := by omega
  have hn : (n : ℤ) = ((v : ℤ) - 1) * ((16 * w : ℕ) : ℤ) + ((15 * w + r : ℕ) : ℤ) := by
    rw [← hsplit]
    push_cast
    rw [hq]
    ring
  rw [isNearestEvenInt_iff (Int.natCast_nonneg _) (by omega) hn, roundEven, if_pos (by left; omega)]
  ring

variable {n : ℕ}

theorem digits_bounds (hprec : prec ≤ 14) (hlow : 2 ^ 63 ≤ n) (hhigh : n < 2 ^ 64) :
    16 ^ prec ≤ n / 16 ^ (15 - prec) ∧ n / 16 ^ (15 - prec) < 16 ^ (prec + 1) ∧
      n / 16 ^ (14 - prec) < 16 ^ (prec + 2) := by
  have hpow : ∀ a b, a + b = 16 → n < 16 ^ a * 16 ^ b := by
    intro a b hab
    rw [← Nat.pow_add, hab]
    exact hhigh
  refine ⟨?_, ?_, ?_⟩
  · rw [Nat.le_div_iff_mul_le (Nat.pow_pos (by decide)), ← Nat.pow_add,
      show prec + (15 - prec) = 15 by omega]
    exact le_trans (by norm_num) hlow
  · exact Nat.div_lt_of_lt_mul (hpow _ _ (by omega))
  · exact Nat.div_lt_of_lt_mul (hpow _ _ (by omega))

theorem nearest_plain (hx : x.exponent ≠ 0) (upper : Bool) (hpoint : isDigitOf 16 point = false)
    (hprec : prec ≤ 14) {m : BitVec 64} (hround : round prec 3 x.mantissa = (3, m))
    (hm : m.toNat = 0 ∨ 16 ^ prec ≤ m.toNat ∧ m.toNat < 16 ^ (prec + 1)) :
    PrintsNearest prec upper point x ↔
      IsNearestEvenInt x.mantissa.toNat (16 ^ (15 - prec)) m.toNat := by
  have hscaled := nearest_scaled hx (show prec ≤ 15 by omega) 0 m.toNat
  rw [Nat.add_zero, Nat.cast_zero, mul_zero, add_zero] at hscaled
  rw [conversion_rounded hx upper hpoint (by omega) hround (by decide) hm, ← hscaled]

theorem prints_carry (hx : x.exponent ≠ 0) (upper : Bool) (hpoint : isDigitOf 16 point = false)
    (hprec : prec ≤ 14) {m : BitVec 64} (hround : round prec 3 x.mantissa = (3 - 4, m))
    (hm : m.toNat = 16 ^ prec)
    (hcarry : x.mantissa.toNat / 16 ^ (15 - prec) + 1 = 16 ^ (prec + 1)) :
    PrintsNearest prec upper point x := by
  have hscaled := (nearest_scaled hx (show prec ≤ 15 by omega) 1 (16 ^ prec)).mpr
    (nearest_carry hcarry)
  have hlt : 16 ^ prec < 16 ^ (prec + 1) := Nat.pow_lt_pow_right (by decide) (Nat.lt_succ_self prec)
  rw [conversion_rounded hx upper hpoint (by omega) hround (by decide)
    (.inr ⟨hm.ge, by rw [hm]; exact hlt⟩), hm]
  have hexp : (x.exponent.toNat : ℤ) - BIAS - (3 - 4) =
      x.exponent.toNat - BIAS - 3 + 4 * (1 : ℕ) := by
    push_cast
    ring
  rw [hexp]
  exact_mod_cast hscaled

/-- The multiple that is printed is the nearest one, unless the digit that decides is an 8 with
more digits behind it and an even one in front, or the carry does not fit into 64 bits. -/
theorem conversion_nearest_iff (x : LongDouble) (upper : Bool) (hx : x.exponent ≠ 0)
    (hprec : prec ≤ 14) (hpoint : isDigitOf 16 point = false) :
    PrintsNearest prec upper point x ↔
      ¬ EightLeft prec x.mantissa.toNat ∧ ¬ AllOnes prec x.mantissa.toNat := by
  have hmsb : x.mantissa.msb = true := (x.finite.resolve_left hx).2
  rw [msb_iff] at hmsb
  have hhigh := x.mantissa.isLt
  obtain ⟨hq, hq', hv⟩ := digits_bounds hprec hmsb hhigh
  have hround := round_spec (by omega : prec < 15) 3 x.mantissa
  dsimp only at hround
  obtain ⟨left_shifts, m, hm⟩ : ∃ l m, round prec 3 x.mantissa = (l, m) := ⟨_, _, rfl⟩
  rw [hm] at hround
  have hplain : left_shifts = 3 → _ := fun h =>
    nearest_plain hx upper hpoint hprec (by rw [hm, h] : round prec 3 x.mantissa = (3, m))
  have hcarried : left_shifts = 3 - 4 → _ := fun h =>
    prints_carry hx upper hpoint hprec (by rw [hm, h] : round prec 3 x.mantissa = (3 - 4, m))
  have hdigits := nearest_digits (n := x.mantissa.toNat) hprec m.toNat
  have hdiv : x.mantissa.toNat / 16 ^ (14 - prec) / 16 = x.mantissa.toNat / 16 ^ (15 - prec) := by
    rw [Nat.div_div_eq_div_mul, ← Nat.pow_succ, Nat.succ_eq_add_one,
      show 14 - prec + 1 = 15 - prec by omega]
  have hlast : prec = 14 → x.mantissa.toNat / 16 ^ (14 - prec) = x.mantissa.toNat ∧
      x.mantissa.toNat % 16 ^ (14 - prec) = 0 := by
    rintro rfl
    exact ⟨Nat.div_one _, Nat.mod_one _⟩
  have hnext : 16 ^ (prec + 1) = 16 * 16 ^ prec := by rw [Nat.pow_succ, Nat.mul_comm]
  have hone : 1 ≤ 16 ^ prec := Nat.one_le_pow _ _ (by decide)
  unfold EightLeft AllOnes
  generalize x.mantissa.toNat / 16 ^ (14 - prec) = v at *
  generalize x.mantissa.toNat / 16 ^ (15 - prec) = q at *
  by_cases hup : RoundsUp v
  · rw [if_pos hup] at hround
    unfold RoundsUp at hup
    by_cases hwrap : v + 16 < 2 ^ 64
    · have hsum : (v + 16) % 2 ^ 64 / 16 = q + 1 := by omega
      rw [hsum] at hround
      by_cases hcarry : q + 1 = 16 ^ (prec + 1)
      · obtain ⟨hshifts, hm'⟩ := hround.carry hcarry.ge
        refine iff_of_true (hcarried hshifts ?_ hcarry) ⟨by omega, ?_⟩
        · exact hm'.trans (by omega)
        · rintro ⟨h14, hall⟩
          have := hlast h14
          omega
      · obtain ⟨hshifts, hm'⟩ := hround.plain (by omega)
        have hm'' : m.toNat = q + 1 := hm'
        rw [hplain hshifts (.inr (by omega)), hdigits, if_pos (by omega), hm'']
        refine iff_of_true rfl ⟨by omega, ?_⟩
        rintro ⟨h14, hall⟩
        subst h14
        have := hlast rfl
        omega
    · -- the sum does not fit, and nothing is left of the digits
      have h14 : prec = 14 := by
        by_contra hne
        have hpow : 16 ^ (prec + 2) ≤ 16 ^ 15 := Nat.pow_le_pow_right (by decide) (by omega)
        omega
      have hzero : (v + 16) % 2 ^ 64 / 16 = 0 := by
        subst h14
        omega
      rw [hzero] at hround
      obtain ⟨hshifts, hm'⟩ := hround.plain (by omega)
      have hm'' : m.toNat = 0 := hm'
      rw [hplain hshifts (.inl hm''), hdigits, if_pos (by omega), hm'']
      refine iff_of_false (by omega) fun h => h.2 ⟨h14, ?_⟩
      have := hlast h14
      omega
  · rw [if_neg hup, hdiv] at hround
    unfold RoundsUp at hup
    obtain ⟨hshifts, hm'⟩ := hround.plain hq'
    have hm'' : m.toNat = q := hm'
    rw [hplain hshifts (.inr (by omega)), hdigits, hm'']
    split_ifs with hnear
    · exact iff_of_false (by omega) fun h => h.1 ⟨by omega, by omega, by omega⟩
    · refine iff_of_true rfl ⟨by omega, ?_⟩
      rintro ⟨h14, hall⟩
      have := hlast h14
      omega

/-- With two digits, `0x8.888p-3` becomes `0x8.89p-3`. -/
theorem conversion_nearest_iff_two :
    PrintsNearest 2 false '.' ⟨false, 0x3fff, 0x8888000000000000, .inr (by decide)⟩ :=
  (conversion_nearest_iff _ false (by decide) (by decide) (by decide)).mpr (by decide)

/-- `0x8.8000000000000001p-3` should be rounded up to 9, and a mantissa of ones to 16. -/
theorem conversion_not_nearest :
    ¬ PrintsNearest 0 false '.' ⟨false, 0x3fff, 0x8800000000000001, .inr (by decide)⟩ ∧
    ¬ PrintsNearest 14 false '.' ⟨false, 0x3fff, 0xffffffffffffffff, .inr (by decide)⟩ := by
  constructor
  · rw [nearest_plain (m := 8) (by decide) false (by decide) (by decide) (by decide) (by decide),
      nearest_digits (by decide)]
    decide
  · rw [nearest_plain (m := 0) (by decide) false (by decide) (by decide) (by decide) (by decide),
      nearest_digits (by decide)]
    decide

end DjgppLibc.HexFloats
