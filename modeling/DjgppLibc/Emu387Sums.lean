import Mathlib.Data.Sign.Basic
import DjgppLibc.Emu387Values
import DjgppLibc.MultiWords
import DjgppLibc.SignificantBits

/-!
# How exact sums and differences are in the 387 emulator

`r_add` on numbers of one sign cuts the smaller one where the larger one ends, and cuts the
sum again if it carries; together this is one truncation of the exact sum. `r_sub` cuts the
subtrahend in the same way, but the difference may lose bits in front, and then the part that
has been cut off is large.

The loops over the 16-bit parts of the significands are `addWords` and `subWords`.
-/
namespace DjgppLibc.Emu387

open X86 MultiWords SignificantBits

structure Reg.Normal (r : Reg) : Prop where
  valid : r.tag = .valid
  top : r.sig.msb = true
  exp : r.exp.toNat ≤ EXP_MAX

def Reg.number (r : Reg) : ℚ := signed r.sign (r.magnitude / 2 ^ 16446)

def Reg.ulp (r : Reg) : ℚ := 2 ^ r.exp.toNat / 2 ^ 16446

variable {a b r s t : Reg}

theorem two_pow_le_of_msb {sig : BitVec 64} (h : sig.msb = true) : 2 ^ 63 ≤ sig.toNat := by
  have := BitVec.msb_eq_true_iff_two_mul_ge.mp h
  omega

theorem msb_of_two_pow_le {sig : BitVec 64} (h : 2 ^ 63 ≤ sig.toNat) : sig.msb = true :=
  BitVec.msb_eq_true_iff_two_mul_ge.mpr (by omega)

theorem Reg.Normal.two_pow_le (h : r.Normal) : 2 ^ 63 ≤ r.sig.toNat := two_pow_le_of_msb h.top

theorem Reg.Normal.toInt_exp (h : r.Normal) : r.exp.toInt = r.exp.toNat :=
  Emu387.toInt_exp (h.exp.trans (Nat.le_succ _))

theorem Reg.Normal.exp_ne (h : r.Normal) : r.exp ≠ 32767 := by
  have hle := h.exp
  unfold EXP_MAX at hle
  rw [Ne, toNat_exp_eq_max]
  omega

theorem Reg.Normal.value (h : r.Normal) : r.value = .fin r.number :=
  value_finite fun he => absurd he h.exp_ne

theorem Reg.Normal.withSign (h : r.Normal) (sign : Bool) : ({ r with sign := sign } : Reg).Normal :=
  ⟨h.valid, h.top, h.exp⟩

def part (sig : BitVec 64) (k : ℕ) : ℕ := sig.toNat / 2 ^ (16 * k) % 2 ^ 16

def parts (sig : BitVec 64) : List ℤ := (List.range 4).map fun k => (part sig k : ℤ)

/-- The loop of `r_uadd`: the parts of the sum, and `tmp`. -/
def addWords (s t : BitVec 64) : List ℤ × ℤ :=
  carryLoop (2 ^ 16) 0 (List.zipWith (· + ·) (parts s) (parts t))

/-- The loop of `r_usub`. -/
def subWords (s t : BitVec 64) : List ℤ × ℤ :=
  carryLoop (2 ^ 16) 0 (List.zipWith (· - ·) (parts s) (parts t))

def ofParts (ws : List ℤ) : BitVec 64 := BitVec.ofNat 64 (value (2 ^ 16) ws).toNat

theorem parts_eq (sig : BitVec 64) :
    parts sig = [(part sig 0 : ℤ), part sig 1, part sig 2, part sig 3] :=
  rfl

theorem sum_parts (sig : BitVec 64) : part sig 0 + 2 ^ 16 * (part sig 1 + 2 ^ 16 *
    (part sig 2 + 2 ^ 16 * part sig 3)) = sig.toNat := by
  have hlt := sig.isLt
  simp only [part]
  omega

/-- Four words are a number modulo 2 ^ 64. -/
theorem carryLoop_four {ds : List ℤ} (h : ds.length = 4) :
    value (2 ^ 16) (carryLoop (2 ^ 16) 0 ds).1 = value (2 ^ 16) ds % 2 ^ 64 ∧
      (carryLoop (2 ^ 16) 0 ds).2 = value (2 ^ 16) ds / 2 ^ 64 := by
  have hloop : value (2 ^ 16) (carryLoop (2 ^ 16) 0 ds).1 =
        (0 + value (2 ^ 16) ds) % ((2 ^ 16 : ℕ) : ℤ) ^ ds.length ∧
      (carryLoop (2 ^ 16) 0 ds).2 = (0 + value (2 ^ 16) ds) / ((2 ^ 16 : ℕ) : ℤ) ^ ds.length :=
    carryLoop_eq (by decide)
  have hpow : ((2 ^ 16 : ℕ) : ℤ) ^ 4 = 2 ^ 64 := by norm_num
  rwa [h, zero_add, hpow] at hloop

/-- The loop adds, and what is left in `tmp` is the carry. -/
theorem addWords_eq (s t : BitVec 64) : ofParts (addWords s t).1 = s + t ∧
    (addWords s t).2 = (s.toNat + t.toNat : ℤ) / 2 ^ 64 := by
  have hloop := @carryLoop_four (List.zipWith (· + ·) (parts s) (parts t)) rfl
  have hvalue : value (2 ^ 16) (List.zipWith (· + ·) (parts s) (parts t)) = s.toNat + t.toNat := by
    rw [← sum_parts s, ← sum_parts t]
    simp only [parts_eq, List.zipWith_cons_cons, List.zipWith_nil_left, value_cons, value_nil]
    push_cast
    ring
  rw [hvalue] at hloop
  refine ⟨BitVec.eq_of_toNat_eq ?_, hloop.2⟩
  rw [ofParts, addWords, hloop.1, BitVec.toNat_ofNat, BitVec.toNat_add]
  omega

theorem subWords_eq (s t : BitVec 64) : ofParts (subWords s t).1 = s - t := by
  have hlt := t.isLt
  have hloop := @carryLoop_four (List.zipWith (· - ·) (parts s) (parts t)) rfl
  have hvalue : value (2 ^ 16) (List.zipWith (· - ·) (parts s) (parts t)) = s.toNat - t.toNat := by
    rw [← sum_parts s, ← sum_parts t]
    simp only [parts_eq, List.zipWith_cons_cons, List.zipWith_nil_left, value_cons, value_nil]
    push_cast
    ring
  rw [hvalue] at hloop
  apply BitVec.eq_of_toNat_eq
  rw [ofParts, subWords, hloop.1, BitVec.toNat_ofNat, BitVec.toNat_sub]
  omega

/-- The end of `r_uadd` and of `r_usub`. -/
def Reg.settled (r : Reg) : Reg :=
  if r.sig = 0 then { r with exp := 0, tag := .zero } else r.shiftTop

def carried (s : Reg) (sum : ℕ) : Reg :=
  { (s.setSig (BitVec.ofNat 64 sum)).setSig (BitVec.ofNat 64 sum >>> 1 ||| (1 <<< 63 : BitVec 64))
    with exp := s.exp + 1 }

/-- `r_uadd` when `s` is the larger one. -/
def addTo (s t : Reg) : Reg :=
  if s.exp.toInt - t.exp.toInt > 64 then s
  else
    let sum := s.sig.toNat + (t.sig >>> (s.exp.toInt - t.exp.toInt).toNat).toNat
    if sum ≥ 2 ^ 64 then (carried s sum).settled else (s.setSig (BitVec.ofNat 64 sum)).settled

theorem rUadd_eq (a b : Reg) : rUadd a b = if dif a b > 0 then addTo a b else addTo b a := by
  have key (s t : Reg) (h : (if dif a b > 0 then (a, b) else (b, a)) = (s, t)) :
      rUadd a b = addTo s t := by
    rw [rUadd, h, addTo]
    dsimp only
    split
    · rfl
    · rw [sig_setSig]
      split <;> rfl
  split_ifs with h
  · exact key a b (if_pos h)
  · exact key b a (if_neg h)

/-- The larger register ends below where the smaller one begins to count. -/
theorem magnitude_lt_two_pow (t : Reg) (h : t.exp.toNat + 64 ≤ e) : t.magnitude < 2 ^ e :=
  calc t.sig.toNat * 2 ^ t.exp.toNat
      < 2 ^ 64 * 2 ^ t.exp.toNat := Nat.mul_lt_mul_of_pos_right t.sig.isLt (by positivity)
    _ = 2 ^ (t.exp.toNat + 64) := by rw [pow_add, mul_comm]
    _ ≤ 2 ^ e := Nat.pow_le_pow_right (by decide) h

theorem shifted_magnitude (t : Reg) {d e : ℕ} (h : e = t.exp.toNat + d) :
    t.sig.toNat / 2 ^ d * 2 ^ e ≤ t.magnitude ∧
      t.magnitude < (t.sig.toNat / 2 ^ d + 1) * 2 ^ e := by
  have hle := Nat.div_mul_le_self t.sig.toNat (2 ^ d)
  have hlt := Nat.lt_div_mul_add (a := t.sig.toNat) (b := 2 ^ d) (by positivity)
  rw [h, pow_add, mul_comm (2 ^ t.exp.toNat) (2 ^ d), ← mul_assoc, ← mul_assoc]
  exact ⟨Nat.mul_le_mul_right _ hle,
    Nat.mul_lt_mul_of_pos_right (by rw [Nat.add_mul, one_mul]; exact hlt) (by positivity)⟩

theorem halved_sum {n : ℕ} (hlo : 2 ^ 64 ≤ n) (hhi : n < 2 ^ 65) :
    (BitVec.ofNat 64 n >>> 1 ||| (1 <<< 63 : BitVec 64)).toNat = n / 2 := by
  have hsmall : (BitVec.ofNat 64 n >>> 1).toNat = n / 2 - 2 ^ 63 := by
    rw [BitVec.toNat_ushiftRight, BitVec.toNat_ofNat, Nat.shiftRight_eq_div_pow]
    omega
  have htop : (1 <<< 63 : BitVec 64).toNat = 1 <<< 63 := rfl
  rw [BitVec.toNat_or, hsmall, htop, Nat.or_comm, ← Nat.shiftLeft_add_eq_or_of_lt (by omega),
    Nat.shiftLeft_eq]
  omega

theorem Reg.Normal.sig_ne (h : r.Normal) : r.sig ≠ 0 := by
  have hle := h.two_pow_le
  intro hzero
  rw [hzero] at hle
  exact absurd hle (by decide)

theorem Reg.Normal.settled_eq (h : r.Normal) : r.settled = r := by
  rw [Reg.settled, if_neg h.sig_ne, shiftTop_of_msb r h.top]

theorem Reg.Normal.truncates (h : r.Normal) {n : ℕ} (hle : r.magnitude ≤ n)
    (hlt : n < (r.sig.toNat + 1) * 2 ^ r.exp.toNat) : r.magnitude = truncate 64 n :=
  (truncate_eq (by decide) h.two_pow_le r.sig.isLt hle hlt).symm

theorem carried_spec (hs : s.Normal) (hexp : s.exp.toNat < EXP_MAX) {sum : ℕ} (hlo : 2 ^ 64 ≤ sum)
    (hhi : sum < 2 ^ 65) : (carried s sum).Normal ∧ (carried s sum).sig.toNat = sum / 2 ∧
      (carried s sum).exp.toNat = s.exp.toNat + 1 := by
  have hsig : (carried s sum).sig.toNat = sum / 2 := by
    rw [← halved_sum hlo hhi]
    exact congrArg BitVec.toNat (sig_setSig (s.setSig (BitVec.ofNat 64 sum)) _)
  have hexp' : (carried s sum).exp.toNat = s.exp.toNat + 1 := by
    unfold EXP_MAX at hexp
    have hone : (1 : BitVec 16).toNat = 1 := rfl
    exact (BitVec.toNat_add _ _).trans (Nat.mod_eq_of_lt (by omega))
  exact ⟨⟨hs.valid, msb_of_two_pow_le (by rw [hsig]; omega), by omega⟩, hsig, hexp'⟩

theorem addTo_spec (hs : s.Normal) (ht : t.Normal) (hle : t.exp.toNat ≤ s.exp.toNat)
    (hrange : s.magnitude + t.magnitude < 2 ^ (64 + EXP_MAX)) :
    (addTo s t).Normal ∧ (addTo s t).magnitude = truncate 64 (s.magnitude + t.magnitude) := by
  have hslo := hs.two_pow_le
  obtain ⟨d, hd⟩ := Nat.exists_eq_add_of_le hle
  have hdiff : s.exp.toInt - t.exp.toInt = d := by
    rw [hs.toInt_exp, ht.toInt_exp]
    omega
  rw [addTo, hdiff, Int.toNat_natCast]
  by_cases hfar : (d : ℤ) > 64
  · -- The smaller number is less than one unit of the larger one.
    have hsmall : t.magnitude < 2 ^ s.exp.toNat := magnitude_lt_two_pow t (by omega)
    rw [if_pos hfar]
    refine ⟨hs, hs.truncates (Nat.le_add_right _ _) ?_⟩
    rw [Nat.add_mul, one_mul]
    exact Nat.add_lt_add_left hsmall _
  · obtain ⟨htlo, hthi⟩ := shifted_magnitude t hd
    have hqlt : t.sig.toNat / 2 ^ d < 2 ^ 64 := (Nat.div_le_self _ _).trans_lt t.sig.isLt
    rw [if_neg hfar, BitVec.toNat_ushiftRight, Nat.shiftRight_eq_div_pow]
    generalize hsum : s.sig.toNat + t.sig.toNat / 2 ^ d = sum
    have hlo : sum * 2 ^ s.exp.toNat ≤ s.magnitude + t.magnitude := by
      rw [← hsum, Nat.add_mul]
      exact Nat.add_le_add_left htlo _
    have hhi : s.magnitude + t.magnitude < (sum + 1) * 2 ^ s.exp.toNat := by
      rw [← hsum, Nat.add_assoc, Nat.add_mul]
      exact Nat.add_lt_add_left hthi _
    dsimp only
    by_cases hcarry : sum ≥ 2 ^ 64
    · -- A sum of the greatest exponent that carries would be out of range.
      have hexp : s.exp.toNat < EXP_MAX := by
        by_contra hge
        have hpow : 2 ^ EXP_MAX ≤ 2 ^ s.exp.toNat := Nat.pow_le_pow_right (by decide) (by omega)
        have hbig : 2 ^ 64 * 2 ^ EXP_MAX ≤ sum * 2 ^ s.exp.toNat := Nat.mul_le_mul hcarry hpow
        rw [← pow_add] at hbig
        exact absurd (hbig.trans hlo) (by omega)
      obtain ⟨hnormal, hsig, hexp'⟩ := carried_spec hs hexp hcarry (by omega)
      rw [if_pos hcarry, hnormal.settled_eq]
      refine ⟨hnormal, hnormal.truncates ?_ ?_⟩
      · rw [Reg.magnitude, hsig, hexp', pow_succ', ← mul_assoc]
        exact (Nat.mul_le_mul_right _ (Nat.div_mul_le_self sum 2)).trans hlo
      · rw [hsig, hexp', pow_succ', ← mul_assoc]
        exact hhi.trans_le (Nat.mul_le_mul_right _ (by omega))
    · have hsig : (s.setSig (BitVec.ofNat 64 sum)).sig.toNat = sum := by
        rw [sig_setSig, BitVec.toNat_ofNat, Nat.mod_eq_of_lt (Nat.lt_of_not_le hcarry)]
      have hge : 2 ^ 63 ≤ sum := hslo.trans (hsum ▸ Nat.le_add_right _ _)
      have hnormal : (s.setSig (BitVec.ofNat 64 sum)).Normal :=
        ⟨hs.valid, msb_of_two_pow_le (by rw [hsig]; omega), hs.exp⟩
      rw [if_neg hcarry, hnormal.settled_eq]
      refine ⟨hnormal, hnormal.truncates ?_ ?_⟩
      · rw [Reg.magnitude, hsig]
        exact hlo
      · rw [hsig]
        exact hhi

theorem rUadd_spec (ha : a.Normal) (hb : b.Normal)
    (hrange : a.magnitude + b.magnitude < 2 ^ (64 + EXP_MAX)) :
    (rUadd a b).Normal ∧ (rUadd a b).magnitude = truncate 64 (a.magnitude + b.magnitude) := by
  have hpos := dif_pos_iff (a := a) (b := b)
  rw [ha.toInt_exp, hb.toInt_exp] at hpos
  rw [rUadd_eq]
  split_ifs with h
  · exact addTo_spec ha hb (by omega) hrange
  · rw [Nat.add_comm] at hrange ⊢
    exact addTo_spec hb ha (by omega) hrange

/-- `r_add` cuts the exact sum to 64 bits. -/
theorem rAdd_truncates (ha : a.Normal) (hb : b.Normal) (hsign : a.sign = b.sign)
    (hrange : a.magnitude + b.magnitude < 2 ^ (64 + EXP_MAX)) :
    (rAdd a b).raised = none ∧ (rAdd a b).reg.Normal ∧ (rAdd a b).reg.value =
      .fin (signed a.sign (truncate 64 (a.magnitude + b.magnitude) / 2 ^ 16446)) := by
  obtain ⟨hnormal, hmagnitude⟩ := rUadd_spec ha hb hrange
  have hresult : rAdd a b = .plain { rUadd a b with sign := a.sign } := by
    simp only [rAdd, ha.valid, hb.valid, hsign, if_true, reduceCtorEq, if_false]
  have hnormal' := hnormal.withSign a.sign
  rw [hresult]
  refine ⟨rfl, hnormal', ?_⟩
  rw [← hmagnitude]
  exact hnormal'.value

theorem magnitude_one : CONST_1.magnitude = 2 ^ 16446 := by
  have hsig : CONST_1.sig.toNat = 2 ^ 63 := by decide
  have hexp : CONST_1.exp.toNat = 16383 := by decide
  rw [Reg.magnitude, hsig, hexp, ← pow_add]

theorem one_normal : CONST_1.Normal := ⟨rfl, rfl, by decide⟩

theorem rAdd_truncates_one : (rAdd CONST_1 CONST_1).raised = none ∧
    (rAdd CONST_1 CONST_1).reg.Normal ∧ (rAdd CONST_1 CONST_1).reg.value =
      .fin (signed false (truncate 64 (CONST_1.magnitude + CONST_1.magnitude) / 2 ^ 16446)) := by
  refine rAdd_truncates one_normal one_normal rfl ?_
  calc CONST_1.magnitude + CONST_1.magnitude = 2 ^ (16446 + 1) := by
        rw [magnitude_one, ← two_mul, ← pow_succ']
    _ < 2 ^ (64 + EXP_MAX) := Nat.pow_lt_pow_right (by decide) (by decide)

/-- What is cut off from `y` is less than the last bit of the difference: it is less than half
a unit of `x`, or the difference still has the top bit of `x`. -/
def Reg.KeepsUnit (x y : Reg) : Prop :=
  2 * (y.magnitude % 2 ^ x.exp.toNat) < 2 ^ x.exp.toNat ∨
    (2 ^ 63 - 1) * 2 ^ x.exp.toNat + y.magnitude < x.magnitude

theorem settled_spec (r : Reg) : r.settled.magnitude = r.magnitude ∧ r.settled.Shifted ∧
    r.settled.exp.toNat ≤ r.exp.toNat := by
  rw [Reg.settled]
  split_ifs with h
  · have hzero : ({ r with exp := 0, tag := .zero } : Reg).magnitude = 0 :=
      (magnitude_eq_zero _).mpr h
    rw [hzero, (magnitude_eq_zero r).mpr h]
    exact ⟨rfl, .inr rfl, Nat.zero_le _⟩
  · refine ⟨magnitude_shiftTop r, shiftTop_ends r, ?_⟩
    rw [exp_shiftTop]
    exact shiftUp_le _ _

theorem exp_le_of_magnitude_le (hb : b.Normal) (hle : b.magnitude ≤ a.magnitude) :
    b.exp.toNat ≤ a.exp.toNat := by
  by_contra hlt
  exact absurd (magnitude_lt_of_exp_lt (.inl hb.top) (Nat.lt_of_not_le hlt)) (by omega)

/-- The difference is too large by what is cut off. -/
theorem rUsub_spec (ha : a.Normal) (hb : b.Normal) (hle : b.magnitude ≤ a.magnitude) :
    (rUsub a b).magnitude = a.magnitude - b.magnitude + b.magnitude % 2 ^ a.exp.toNat ∧
      (rUsub a b).Shifted ∧ (rUsub a b).exp.toNat ≤ a.exp.toNat := by
  obtain ⟨d, hd⟩ := Nat.exists_eq_add_of_le (exp_le_of_magnitude_le hb hle)
  have hdiff : a.exp.toInt - b.exp.toInt = d := by
    rw [ha.toInt_exp, hb.toInt_exp]
    omega
  rw [rUsub, hdiff, Int.toNat_natCast]
  split_ifs with hfar
  · have hsmall : b.magnitude < 2 ^ a.exp.toNat := magnitude_lt_two_pow b (by omega)
    rw [Nat.mod_eq_of_lt hsmall, Nat.sub_add_cancel hle]
    exact ⟨rfl, .inl ha.top, le_rfl⟩
  · have hdiv : b.magnitude / 2 ^ a.exp.toNat = b.sig.toNat / 2 ^ d := by
      rw [Reg.magnitude, hd, pow_add, mul_comm (2 ^ b.exp.toNat),
        Nat.mul_div_mul_right _ _ (by positivity)]
    have hsplit := Nat.div_add_mod' b.magnitude (2 ^ a.exp.toNat)
    have hq : (b.sig >>> d).toNat = b.magnitude / 2 ^ a.exp.toNat := by
      rw [BitVec.toNat_ushiftRight, Nat.shiftRight_eq_div_pow, hdiv]
    have hqle : b.magnitude / 2 ^ a.exp.toNat ≤ a.sig.toNat :=
      Nat.div_le_of_le_mul (by rw [mul_comm]; exact hle)
    obtain ⟨hmagnitude, hshifted, hexp'⟩ := settled_spec (a.setSig (a.sig - b.sig >>> d))
    refine ⟨?_, hshifted, hexp'⟩
    refine hmagnitude.trans ?_
    have hsig : (a.sig - b.sig >>> d).toNat = a.sig.toNat - b.magnitude / 2 ^ a.exp.toNat := by
      rw [BitVec.toNat_sub_of_le (by rw [BitVec.le_def, hq]; exact hqle), hq]
    have hexp_set : (a.setSig (a.sig - b.sig >>> d)).exp = a.exp := rfl
    rw [Reg.magnitude, sig_setSig, hexp_set, hsig, Nat.sub_mul]
    change a.magnitude - _ = _
    omega

theorem le_exp_of_magnitude {k : ℕ} (h : 2 ^ 63 * 2 ^ k ≤ r.magnitude) : k ≤ r.exp.toNat := by
  have hlt : 2 ^ 63 * 2 ^ k < 2 ^ 64 * 2 ^ r.exp.toNat :=
    h.trans_lt (Nat.mul_lt_mul_of_pos_right r.sig.isLt (by positivity))
  rw [← pow_add, ← pow_add, Nat.pow_lt_pow_iff_right (by decide)] at hlt
  omega

theorem cut_lt_of_half (ha : a.Normal) (hb : b.Normal) (hle : b.magnitude ≤ a.magnitude)
    (hhalf : 2 * (b.magnitude % 2 ^ a.exp.toNat) < 2 ^ a.exp.toNat) :
    b.magnitude % 2 ^ a.exp.toNat < 2 ^ (rUsub a b).exp.toNat := by
  obtain ⟨hmagnitude, -, -⟩ := rUsub_spec ha hb hle
  obtain ⟨d, hd⟩ := Nat.exists_eq_add_of_le (exp_le_of_magnitude_le hb hle)
  have hunit : 2 ^ a.exp.toNat = 2 ^ d * 2 ^ b.exp.toNat := by rw [hd, pow_add, mul_comm]
  obtain hnear | hfar : d ≤ 1 ∨ 2 ≤ d := by omega
  · have hcut : b.magnitude % 2 ^ a.exp.toNat = b.sig.toNat % 2 ^ d * 2 ^ b.exp.toNat := by
      rw [hunit, Reg.magnitude, Nat.mul_mod_mul_right]
    have hnone : b.sig.toNat % 2 ^ d = 0 := by
      rw [hcut, hunit, ← mul_assoc] at hhalf
      have hlt := Nat.lt_of_mul_lt_mul_right hhalf
      interval_cases d <;> omega
    rw [hcut, hnone, zero_mul]
    positivity
  · have hsmall : b.magnitude < 2 ^ 62 * 2 ^ a.exp.toNat :=
      calc b.magnitude < 2 ^ (b.exp.toNat + 64) := magnitude_lt_two_pow b le_rfl
        _ ≤ 2 ^ (62 + a.exp.toNat) := Nat.pow_le_pow_right (by decide) (by omega)
        _ = 2 ^ 62 * 2 ^ a.exp.toNat := pow_add _ _ _
    have hbig : 2 ^ 63 * 2 ^ a.exp.toNat ≤ a.magnitude := Nat.mul_le_mul_right _ ha.two_pow_le
    have hpred : 2 ^ a.exp.toNat = 2 * 2 ^ (a.exp.toNat - 1) := by
      rw [← pow_succ', Nat.sub_add_cancel (by omega)]
    have hexp : a.exp.toNat - 1 ≤ (rUsub a b).exp.toNat := le_exp_of_magnitude (by omega)
    calc b.magnitude % 2 ^ a.exp.toNat < 2 ^ (a.exp.toNat - 1) := by omega
      _ ≤ 2 ^ (rUsub a b).exp.toNat := Nat.pow_le_pow_right (by decide) hexp

theorem cut_lt_iff (ha : a.Normal) (hb : b.Normal) (hle : b.magnitude ≤ a.magnitude) :
    b.magnitude % 2 ^ a.exp.toNat < 2 ^ (rUsub a b).exp.toNat ↔ a.KeepsUnit b := by
  obtain ⟨hmagnitude, hshifted, -⟩ := rUsub_spec ha hb hle
  have hcut := Nat.mod_lt b.magnitude (y := 2 ^ a.exp.toNat) (by positivity)
  rw [Reg.KeepsUnit]
  constructor
  · intro hlt
    by_contra hno
    rw [not_or, not_lt, not_lt] at hno
    obtain ⟨hhalf, hsmall⟩ := hno
    -- The difference has lost its top bit.
    have hless : (rUsub a b).magnitude < 2 ^ 63 * 2 ^ a.exp.toNat := by omega
    have hexp : (rUsub a b).exp.toNat < a.exp.toNat := by
      rcases hshifted with htop | hzero
      · have hsig := two_pow_le_of_msb htop
        have : 2 ^ 63 * 2 ^ (rUsub a b).exp.toNat < 2 ^ 63 * 2 ^ a.exp.toNat :=
          (Nat.mul_le_mul_right _ hsig).trans_lt hless
        exact (Nat.pow_lt_pow_iff_right (by decide)).mp (Nat.lt_of_mul_lt_mul_left this)
      · rw [hzero]
        refine Nat.pos_of_ne_zero fun he => ?_
        rw [he, pow_zero, Nat.mod_one] at hhalf
        omega
    have hpow : 2 * 2 ^ (rUsub a b).exp.toNat ≤ 2 ^ a.exp.toNat := by
      rw [← pow_succ']
      exact Nat.pow_le_pow_right (by decide) hexp
    omega
  · rintro (hhalf | hlarge)
    · exact cut_lt_of_half ha hb hle hhalf
    · -- The difference counts in units of the larger number.
      have hunits : (rUsub a b).magnitude =
          (a.sig.toNat - b.magnitude / 2 ^ a.exp.toNat) * 2 ^ a.exp.toNat := by
        have hsplit := Nat.div_add_mod' b.magnitude (2 ^ a.exp.toNat)
        rw [hmagnitude, Nat.sub_mul]
        change _ = a.magnitude - _
        omega
      have hmore : (2 ^ 63 - 1) * 2 ^ a.exp.toNat < (rUsub a b).magnitude := by omega
      rw [hunits] at hmore
      have htop : 2 ^ 63 * 2 ^ a.exp.toNat ≤ (rUsub a b).magnitude := by
        rw [hunits]
        exact Nat.mul_le_mul_right _ (Nat.lt_of_mul_lt_mul_right hmore)
      exact hcut.trans_le (Nat.pow_le_pow_right (by decide) (le_exp_of_magnitude htop))

theorem signed_sub (s : Bool) (p q : ℚ) : signed s p - signed s q = signed s (p - q) := by
  cases s
  · rfl
  · exact neg_sub_neg p q |>.trans (neg_sub p q).symm

theorem signed_not (s : Bool) (q : ℚ) : signed (!s) q = signed s (-q) := by
  cases s
  · rfl
  · exact (neg_neg q).symm

theorem sign_signed {p q : ℚ} (s : Bool) (hp : 0 ≤ p) (hq : 0 ≤ q) (h : p = 0 ↔ q = 0) :
    SignType.sign (signed s p) = SignType.sign (signed s q) := by
  rcases hp.eq_or_lt with rfl | hp
  · rw [h.mp rfl]
  · have hq : 0 < q := lt_of_le_of_ne hq fun hq => hp.ne' (h.mpr hq.symm)
    cases s
    · rw [signed, signed, if_neg (by decide), if_neg (by decide), sign_pos hp, sign_pos hq]
    · rw [signed, signed, if_pos rfl, if_pos rfl, Left.sign_neg, Left.sign_neg, sign_pos hp,
        sign_pos hq]

theorem magnitude_mod (r : Reg) : r.magnitude % 2 ^ r.exp.toNat = 0 := Nat.mul_mod_left _ _

theorem keepsUnit_of_eq (h : a.magnitude = b.magnitude) : a.KeepsUnit b := by
  refine .inl ?_
  rw [← h, magnitude_mod, mul_zero]
  positivity

theorem rUsub_within_iff (ha : a.Normal) (hb : b.Normal) (hle : b.magnitude ≤ a.magnitude)
    (s : Bool) :
    (∃ x, ({ rUsub a b with sign := s } : Reg).value = .fin x ∧
        SignType.sign x = SignType.sign (signed s ((a.magnitude - b.magnitude) / 2 ^ 16446)) ∧
        |x - signed s ((a.magnitude - b.magnitude) / 2 ^ 16446)| < (rUsub a b).ulp) ↔
      a.KeepsUnit b := by
  obtain ⟨hmagnitude, -, hexp⟩ := rUsub_spec ha hb hle
  have hexp_ne : (rUsub a b).exp ≠ 32767 := by
    have hmax := ha.exp
    unfold EXP_MAX at hmax
    rw [Ne, toNat_exp_eq_max]
    omega
  have hvalue : ({ rUsub a b with sign := s } : Reg).value =
      .fin (signed s ((rUsub a b).magnitude / 2 ^ 16446)) :=
    value_finite fun he => absurd he hexp_ne
  have hcast : ((rUsub a b).magnitude : ℚ) =
      a.magnitude - b.magnitude + (b.magnitude % 2 ^ a.exp.toNat : ℕ) := by
    rw [hmagnitude, Nat.cast_add, Nat.cast_sub hle]
  have hlt_iff := cut_lt_iff ha hb hle
  rw [Reg.ulp, hvalue, ← hlt_iff]
  have hpos : (0 : ℚ) < 2 ^ 16446 := by positivity
  generalize (2 : ℚ) ^ 16446 = unit at hpos ⊢
  have hcut : |signed s ((rUsub a b).magnitude / unit) -
      signed s ((a.magnitude - b.magnitude) / unit)| =
        (b.magnitude % 2 ^ a.exp.toNat : ℕ) / unit := by
    rw [signed_sub, abs_signed, ← sub_div, hcast, add_sub_cancel_left]
    exact abs_of_nonneg (by positivity)
  have hless : (b.magnitude % 2 ^ a.exp.toNat : ℕ) / unit < 2 ^ (rUsub a b).exp.toNat / unit ↔
      b.magnitude % 2 ^ a.exp.toNat < 2 ^ (rUsub a b).exp.toNat := by
    rw [div_lt_div_iff_of_pos_right hpos]
    exact_mod_cast Iff.rfl
  constructor
  · rintro ⟨x, hx, -, hlt⟩
    rw [← Value.fin.inj hx, hcut] at hlt
    exact hless.mp hlt
  · intro hlt
    have hdiff : (0 : ℚ) ≤ a.magnitude - b.magnitude := sub_nonneg.mpr (by exact_mod_cast hle)
    refine ⟨_, rfl, sign_signed s (div_nonneg (Nat.cast_nonneg _) hpos.le)
      (div_nonneg hdiff hpos.le) ?_, ?_⟩
    · rw [div_eq_zero_iff, div_eq_zero_iff, or_iff_left hpos.ne', or_iff_left hpos.ne', sub_eq_zero,
        Nat.cast_eq_zero, Nat.cast_inj]
      constructor
      · intro hzero
        omega
      · intro heq
        rw [hmagnitude, ← heq, Nat.sub_self, zero_add]
        exact magnitude_mod a
    · rw [hcut]
      exact hless.mpr hlt

/-- `r_sub` is less than one unit off exactly if the larger number keeps the unit of the
difference; the sign is always right. -/
theorem rSub_within_iff (ha : a.Normal) (hb : b.Normal) (hsign : a.sign = b.sign) :
    (∃ x, (rSub a b).reg.value = .fin x ∧
        SignType.sign x = SignType.sign (a.number - b.number) ∧
        |x - (a.number - b.number)| < (rSub a b).reg.ulp) ↔
      if a.magnitude < b.magnitude then b.KeepsUnit a else a.KeepsUnit b := by
  have hpos := dif_pos_iff_magnitude (.inl ha.top) (.inl hb.top) (ha.exp.trans (Nat.le_succ _))
    (hb.exp.trans (Nat.le_succ _))
  have hplain : rSub a b = if dif a b > 0 then .plain { rUsub a b with sign := a.sign }
      else .plain { rUsub b a with sign := !a.sign } := by
    simp only [rSub, ha.valid, hb.valid, hsign, if_true, reduceCtorEq, if_false]
  rw [hplain, Reg.number, Reg.number, ← hsign, signed_sub, ← sub_div]
  by_cases hgt : dif a b > 0
  · rw [if_pos hgt, if_neg (Nat.not_lt.mpr (hpos.mp hgt).le)]
    exact rUsub_within_iff ha hb (hpos.mp hgt).le a.sign
  · have hle := Nat.not_lt.mp (mt hpos.mpr hgt)
    rw [if_neg hgt, ← neg_sub, neg_div, ← signed_not]
    refine (rUsub_within_iff hb ha hle (!a.sign)).trans ?_
    split_ifs with hlt
    · exact Iff.rfl
    · have heq := le_antisymm hle (Nat.not_lt.mp hlt)
      exact iff_of_true (keepsUnit_of_eq heq.symm) (keepsUnit_of_eq heq)

/-- The number before 1. -/
def belowOne : Reg := ⟨false, .valid, 16382, 0xffffffff, 0xffffffff⟩

theorem belowOne_normal : belowOne.Normal := ⟨rfl, by decide, by decide⟩

theorem rSub_within_iff_belowOne :
    (∃ x, (rSub belowOne CONST_1).reg.value = .fin x ∧
        SignType.sign x = SignType.sign (belowOne.number - CONST_1.number) ∧
        |x - (belowOne.number - CONST_1.number)| < (rSub belowOne CONST_1).reg.ulp) ↔
      if belowOne.magnitude < CONST_1.magnitude then CONST_1.KeepsUnit belowOne
      else belowOne.KeepsUnit CONST_1 :=
  rSub_within_iff belowOne_normal one_normal rfl

theorem not_keepsUnit_belowOne : ¬ CONST_1.KeepsUnit belowOne := by
  have hbelow : belowOne.magnitude = (2 ^ 64 - 1) * 2 ^ 16382 := by
    have hsig : belowOne.sig.toNat = 2 ^ 64 - 1 := by decide
    have hexp : belowOne.exp.toNat = 16382 := by decide
    rw [Reg.magnitude, hsig, hexp]
  have hone : CONST_1.magnitude = 2 ^ 63 * 2 ^ 16383 := by
    rw [magnitude_one, ← pow_add]
  have hexp : CONST_1.exp.toNat = 16383 := by decide
  have hdouble : 2 ^ 16383 = 2 * 2 ^ 16382 := by rw [← pow_succ']
  have hpos : 0 < 2 ^ 16382 := by positivity
  rw [Reg.KeepsUnit, hbelow, hone, hexp, hdouble, Nat.mul_mod_mul_right]
  generalize 2 ^ 16382 = unit at hpos
  omega

/-- 1 less the number before it is twice the exact difference. -/
theorem rSub_one_belowOne : ¬ ∃ x, (rSub CONST_1 belowOne).reg.value = .fin x ∧
    SignType.sign x = SignType.sign (CONST_1.number - belowOne.number) ∧
    |x - (CONST_1.number - belowOne.number)| < (rSub CONST_1 belowOne).reg.ulp := by
  have hle : belowOne.magnitude ≤ CONST_1.magnitude :=
    (magnitude_lt_of_exp_lt (.inl one_normal.top) (by decide)).le
  have hiff := rUsub_within_iff one_normal belowOne_normal hle false
  have hplain : rSub CONST_1 belowOne = .plain { rUsub CONST_1 belowOne with sign := false } := rfl
  have hone : CONST_1.sign = false := rfl
  have hbelow : belowOne.sign = false := rfl
  rw [hplain, Reg.number, Reg.number, hone, hbelow, signed_sub, ← sub_div]
  exact (not_congr hiff).mpr not_keepsUnit_belowOne

example : (rSub CONST_1 belowOne).reg = { CONST_1 with exp := 16383 - 63 } := by decide

end DjgppLibc.Emu387
