import DjgppLibc.DoprntDigits
import Mathlib.Data.List.DropRight
import Mathlib.Tactic.Linarith
import Mathlib.Tactic.LinearCombination
import Mathlib.Tactic.Ring

/-!
# The conversions `a` and `A` (`ansi/stdio/doprnt.c`)

`doprnt_cvtl` for a `long double` that is a finite number, with the sign and the prefix
that `_doprnt` puts in front of its text. Width and flags are left out, but for the one
that keeps the decimal point. The text of the mantissa and the one of the exponent are
built apart here, in the source they are moved to the start of one buffer.
-/
namespace DjgppLibc.HexFloats
open Doprnt (convert horner)
open Doscan (isDigitOf)

/-- A finite number: normal, denormal, pseudo-denormal or zero. -/
structure LongDouble where
  sign : Bool
  exponent : BitVec 15
  mantissa : BitVec 64
  finite : exponent = 0 ∨ exponent ≠ 0x7fff ∧ mantissa.msb = true

def BIAS : ℤ := 0x3fff

def LongDouble.value (x : LongDouble) : ℚ :=
  (if x.sign then -1 else 1) * x.mantissa.toNat * 2 ^ (max 1 (x.exponent.toNat : ℤ) - BIAS - 63)

/-- `IS_FINITE` -/
def LongDouble.isFinite (x : LongDouble) : Bool :=
  x.exponent ≠ 0x7fff && x.exponent ≠ 0 && x.mantissa.msb || x.exponent = 0 && !x.mantissa.msb

/-- `for (; !(mantissa & 0x8000000000000000ULL); left_shifts++) mantissa <<= 1` -/
def normalize : ℕ → ℕ → BitVec 64 → ℕ × BitVec 64
  | 0, n, m => (n, m)
  | fuel + 1, n, m => if m.msb then (n, m) else normalize fuel (n + 1) (m <<< 1)

/-- `left_shifts` and the mantissa, before it is rounded. -/
def place (prec : Option ℕ) (m : BitVec 64) : ℤ × BitVec 64 :=
  if m = 0 then (0, m)
  else
    let (n, shifted) := normalize 64 0 m
    if n ≠ 0 then
      let m := if prec = none then m else shifted
      if n < 60 then
        let digits := (63 - n) % 4
        (n + digits, if prec ≠ none ∧ digits = 0 then m >>> 3 else m)
      else (63, m)
    else (3, shifted)

/-- The mantissa is rounded to `prec` digits behind the point. -/
def round (prec : ℕ) (left_shifts : ℤ) (m : BitVec 64) : ℤ × BitVec 64 :=
  if prec < 15 then
    let n := 15 - prec - 1
    let m := m >>> (n * 4)
    let m :=
      if 8 < m &&& 0xf ∨ m &&& 0xf = 8 ∧ ((m &&& 0xf0) >>> 4) % 2 ≠ 0 then m + 0x10 else m
    let m := m >>> 4
    let n := 15 - n
    if (m >>> (n * 4)) &&& 1 ≠ 0 then (left_shifts - 4, m >>> 4) else (left_shifts, m)
  else (left_shifts, m)

def BUF : ℕ := 4952 + 39 + 1

def mantissaText (prec : Option ℕ) (alt upper : Bool) (point : Char) (m : BitVec 64) : List Char :=
  let p := convert 16 upper 64 m.toNat []
  let t := p.take 1 ++ point :: p.drop 1
  let t :=
    match prec with
    | none => t.rdropWhile (· = '0')
    | some prec => t ++ List.replicate (min (prec + 2) BUF - t.length) '0'
  if t.getLast? = some point ∧ !alt then t.dropLast else t

def unbiased (e : BitVec 15) (m : BitVec 64) (left_shifts : ℤ) : ℤ :=
  (if e = 0 then if m ≠ 0 then 1 - BIAS else 0 else e.toNat - BIAS) - left_shifts

def exponentText (upper : Bool) (exponent : ℤ) : List Char :=
  (if upper then 'P' else 'p') :: (if exponent < 0 then '-' else '+') ::
    convert 10 upper 64 exponent.natAbs []

/-- `doprnt_cvtl` -/
def cvtl (prec : Option ℕ) (alt upper : Bool) (point : Char) (x : LongDouble) : List Char :=
  let (left_shifts, m) := place prec x.mantissa
  let (left_shifts, m) :=
    match prec with
    | none => (left_shifts, m)
    | some prec => round prec left_shifts m
  mantissaText prec alt upper point m ++ exponentText upper (unbiased x.exponent m left_shifts)

def conversion (prec : Option ℕ) (upper : Bool) (point : Char) (x : LongDouble) : List Char :=
  (if x.sign then ['-'] else []) ++
    (if x.isFinite then ['0', if upper then 'X' else 'x'] else []) ++
    cvtl prec false upper point x

example : conversion none false '.' ⟨true, 0x3fff, 0xc900000000000000, .inr (by decide)⟩ =
    "-0xc.9p-3".toList := by
  decide +kernel

/-- A hexadecimal mantissa with one digit in front of the point, and a binary exponent. -/
structure HexNumber where
  whole : Char
  fraction : List Char
  negative : Bool
  power : List Char
  digits : ∀ c ∈ whole :: fraction, isDigitOf 16 c = true
  power_ne : power ≠ []
  power_digits : ∀ c ∈ power, isDigitOf 10 c = true

namespace HexNumber

def number (h : HexNumber) : ℕ := horner 16 0 (h.whole :: h.fraction)

def exponent (h : HexNumber) : ℤ :=
  if h.negative then -(horner 10 0 h.power : ℤ) else horner 10 0 h.power

def value (h : HexNumber) : ℚ := h.number * (1 / 16) ^ h.fraction.length * 2 ^ h.exponent

def text (upper : Bool) (point : Char) (h : HexNumber) : List Char :=
  h.whole :: ((if h.fraction = [] then [] else point :: h.fraction) ++
    (if upper then 'P' else 'p') :: (if h.negative then '-' else '+') :: h.power)

end HexNumber

variable {m : BitVec 64} {n k : ℕ}

theorem msb_iff (m : BitVec 64) : m.msb = true ↔ 2 ^ 63 ≤ m.toNat := by
  rw [BitVec.msb_eq_decide, decide_eq_true_eq]

/-- The mantissa is shifted until it fills its 64 bits. -/
theorem normalize_spec (fuel : ℕ) (hm : m ≠ 0) (hfuel : 2 ^ 64 ≤ m.toNat * 2 ^ fuel) (n : ℕ) :
    ∃ k, normalize fuel n m = (n + k, m <<< k) ∧ 2 ^ 63 ≤ m.toNat * 2 ^ k ∧
      m.toNat * 2 ^ k < 2 ^ 64 := by
  induction fuel generalizing m n with
  | zero =>
      omega
  | succ fuel ih =>
      rw [normalize]
      by_cases hmsb : m.msb = true
      · rw [if_pos hmsb]
        have hlt := m.isLt
        refine ⟨0, by simp, ?_, by omega⟩
        rw [msb_iff] at hmsb
        omega
      · rw [if_neg hmsb]
        rw [msb_iff] at hmsb
        have hdouble : (m <<< 1).toNat = m.toNat * 2 := by
          rw [BitVec.toNat_shiftLeft, Nat.shiftLeft_eq]
          omega
        have hne : m <<< 1 ≠ 0 := by
          intro h0
          rw [h0] at hdouble
          have h0' : m.toNat = 0 := by simpa using hdouble.symm
          exact hm (BitVec.eq_of_toNat_eq h0')
        have hpow : ∀ k, m.toNat * 2 ^ (k + 1) = m.toNat * 2 * 2 ^ k := by
          intro k
          rw [Nat.pow_succ]
          ring
        obtain ⟨k, hk, hle, hlt⟩ := ih hne (by rw [hdouble, ← hpow]; exact hfuel) (n + 1)
        rw [hdouble, ← hpow] at hle hlt
        refine ⟨k + 1, ?_, hle, hlt⟩
        rw [hk, ← BitVec.shiftLeft_add, Nat.add_assoc, Nat.add_comm 1 k]

theorem toNat_pos (hm : m ≠ 0) : 0 < m.toNat := by
  rcases Nat.eq_zero_or_pos m.toNat with h0 | hpos
  · exact absurd (BitVec.eq_of_toNat_eq h0) hm
  · exact hpos

theorem digits_of_bits {m n : ℕ} (hn : n ≤ 63) (hle : 2 ^ 63 ≤ m * 2 ^ n)
    (hlt : m * 2 ^ n < 2 ^ 64) :
    16 ^ ((63 - n) / 4) ≤ m ∧ m < 16 ^ ((63 - n) / 4 + 1) := by
  have hsixteen : ∀ j, 16 ^ j = 2 ^ (4 * j) := fun j => by
    rw [Nat.pow_mul]
  have hlow : 2 ^ (63 - n) ≤ m := by
    rw [show 63 = 63 - n + n by omega, Nat.pow_add] at hle
    exact Nat.le_of_mul_le_mul_right hle (Nat.two_pow_pos n)
  have hhigh : m < 2 ^ (64 - n) := by
    rw [show 64 = 64 - n + n by omega, Nat.pow_add] at hlt
    exact Nat.lt_of_mul_lt_mul_right hlt
  rw [hsixteen, hsixteen]
  constructor
  · exact (Nat.pow_le_pow_right (by decide) (by omega)).trans hlow
  · exact hhigh.trans_le (Nat.pow_le_pow_right (by decide) (by omega))

theorem place_none (hm : m ≠ 0) :
    ∃ j : ℕ, place none m = (63 - 4 * (j : ℤ), m) ∧ 16 ^ j ≤ m.toNat ∧ m.toNat < 16 ^ (j + 1) := by
  have hpos := toNat_pos hm
  obtain ⟨n, hn, hle, hlt⟩ := normalize_spec 64 hm (Nat.le_mul_of_pos_left (2 ^ 64) hpos) 0
  rw [Nat.zero_add] at hn
  have hn63 : n ≤ 63 := by
    by_contra hmore
    have := Nat.pow_le_pow_right (show 0 < 2 by decide) (show 64 ≤ n by omega)
    have := Nat.le_mul_of_pos_left (2 ^ n) hpos
    omega
  obtain ⟨hlow, hhigh⟩ := digits_of_bits hn63 hle hlt
  refine ⟨(63 - n) / 4, ?_, hlow, hhigh⟩
  unfold place
  rw [if_neg hm, hn]
  dsimp only
  by_cases hzero : n = 0
  · rw [if_neg (by simp [hzero]), hzero, BitVec.shiftLeft_zero]
    rfl
  · rw [if_pos hzero, if_pos rfl]
    by_cases hfew : n < 60
    · rw [if_pos hfew, if_neg (by simp)]
      congr 1
      omega
    · rw [if_neg hfew]
      congr 1
      omega

variable {upper : Bool} {point : Char} {r : List Char}

/-- The digits that `CONVERT` writes. -/
structure Written (base n : ℕ) (t : List Char) : Prop where
  digits : ∀ c ∈ t, isDigitOf base c = true
  value : horner base 0 t = n
  ne_nil : t ≠ []

theorem written_convert {base n : ℕ} (hbase : Doprnt.IsBase base) (upper : Bool)
    (hn : n < base ^ 64) :
    Written base n (convert base upper 64 n []) where
  digits := Doprnt.convert_digits upper 64 n hbase nofun
  value := (Doprnt.convert_value upper hbase hn []).trans rfl
  ne_nil := by
    rcases Nat.eq_zero_or_pos n with rfl | hpos
    · rw [Doprnt.convert_zero]
      exact List.cons_ne_nil _ _
    · obtain ⟨c, r, hcr, -⟩ := Doprnt.convert_head upper hbase hn (Nat.ne_of_gt hpos) []
      rw [hcr]
      exact List.cons_ne_nil _ _

theorem rdropWhile_point (c : Char) (hpoint : point ≠ '0') (r : List Char) :
    ([c] ++ point :: r).rdropWhile (· = '0') = [c] ++ point :: r.rdropWhile (· = '0') := by
  induction r using List.reverseRecOn with
  | nil => simp [List.rdropWhile, hpoint]
  | append_singleton r d ih =>
      have hassoc : [c] ++ point :: (r ++ [d]) = ([c] ++ point :: r) ++ [d] := by simp
      rw [hassoc]
      by_cases hd : d = '0'
      · rw [List.rdropWhile_concat_pos _ _ _ (by simpa using hd), ih,
          List.rdropWhile_concat_pos _ _ _ (by simpa using hd)]
      · rw [List.rdropWhile_concat_neg _ _ _ (by simpa using hd),
          List.rdropWhile_concat_neg _ _ _ (by simpa using hd)]
        simp

theorem convert_length_eq (upper : Bool) {m j : ℕ} (hlow : 16 ^ j ≤ m) (hhigh : m < 16 ^ (j + 1))
    (hm : m < 16 ^ 64) : (convert 16 upper 64 m []).length = j + 1 := by
  have hwritten := written_convert (.inr (.inr rfl)) upper hm
  have hle := Doprnt.convert_length upper 64 (.inr (.inr rfl)) (Nat.succ_pos j) hhigh []
  have hlt := Doprnt.horner_lt hwritten.digits 0
  rw [hwritten.value, Nat.zero_add, Nat.one_mul] at hlt
  have hmore := (Nat.pow_lt_pow_iff_right (show 1 < 16 by decide)).mp (hlow.trans_lt hlt)
  rw [List.length_nil, Nat.zero_add] at hle
  omega

theorem horner_behind (n k : ℕ) : horner 16 n (List.replicate k '0') = n * 16 ^ k := by
  induction k generalizing n with
  | zero => simp [horner]
  | succ k ih =>
      have hzero : Doscan.digitOf '0' = 0 := by decide
      rw [List.replicate_succ, Doprnt.horner_cons, ih, hzero, Nat.add_zero, Nat.pow_succ,
        Nat.mul_assoc,
        Nat.mul_comm 16]

/-- The zeros that are dropped count for powers of 16. -/
theorem horner_rdropWhile (n : ℕ) (r : List Char) :
    horner 16 n r = horner 16 n (r.rdropWhile (· = '0')) *
      16 ^ (r.length - (r.rdropWhile (· = '0')).length) := by
  have hsplit := List.rdropWhile_append_rtakeWhile (p := fun c : Char => decide (c = '0')) (l := r)
  have hzeros : r.rtakeWhile (· = '0') =
      List.replicate (r.length - (r.rdropWhile (· = '0')).length) '0' := by
    rw [List.eq_replicate_iff]
    constructor
    · have hlen := congrArg List.length hsplit
      rw [List.length_append] at hlen
      omega
    · intro c hc
      simpa using List.mem_rtakeWhile_imp hc
  have hall := congrArg (horner 16 n) hsplit
  rw [Doprnt.horner_append, hzeros, horner_behind] at hall
  exact hall.symm

theorem drop_point (hpoint : isDigitOf 16 point = false) (c : Char) {f : List Char}
    (hf : ∀ d ∈ f, isDigitOf 16 d = true) :
    (if ([c] ++ point :: f).getLast? = some point ∧ (!false) = true then
        ([c] ++ point :: f).dropLast else [c] ++ point :: f) =
      c :: if f = [] then [] else point :: f := by
  by_cases hnil : f = []
  · subst hnil
    rw [if_pos ⟨rfl, rfl⟩, if_pos rfl]
    rfl
  · have hlast : ¬ ([c] ++ point :: f).getLast? = some point := by
      intro h
      rw [List.singleton_append, List.getLast?_cons_cons] at h
      cases f with
      | nil => exact hnil rfl
      | cons d f =>
          rw [List.getLast?_cons_cons] at h
          rw [hf point (List.mem_of_getLast? h)] at hpoint
          cases hpoint
    rw [if_neg fun h => hlast h.1, if_neg hnil]
    rfl

theorem mantissaText_none (upper : Bool) (hpoint : isDigitOf 16 point = false) {c : Char}
    (hp : convert 16 upper 64 m.toNat [] = c :: r) :
    mantissaText none false upper point m =
      c :: if r.rdropWhile (· = '0') = [] then [] else point :: r.rdropWhile (· = '0') := by
  have hzero : point ≠ '0' := by
    rintro rfl
    exact absurd hpoint (by decide)
  have hdigits := (written_convert (.inr (.inr rfl)) upper
    (m.isLt.trans (show 2 ^ 64 < 16 ^ 64 by norm_num))).digits
  rw [hp] at hdigits
  simp only [mantissaText, hp, List.take_succ_cons, List.take_zero, List.drop_succ_cons,
    List.drop_zero, rdropWhile_point c hzero]
  exact drop_point hpoint c fun d hd =>
    hdigits d (List.mem_cons_of_mem c ((List.rdropWhile_prefix _ _).subset hd))

/-- The number with these digits and this exponent. -/
def printed (upper : Bool) (c : Char) (f : List Char) (exponent : ℤ)
    (h : ∀ d ∈ c :: f, isDigitOf 16 d = true) (hexp : exponent.natAbs < 10 ^ 64) : HexNumber where
  whole := c
  fraction := f
  negative := decide (exponent < 0)
  power := convert 10 upper 64 exponent.natAbs []
  digits := h
  power_ne := (written_convert (.inr (.inl rfl)) upper hexp).ne_nil
  power_digits := (written_convert (.inr (.inl rfl)) upper hexp).digits

theorem printed_exponent {c : Char} {f : List Char} {exponent : ℤ}
    (h : ∀ d ∈ c :: f, isDigitOf 16 d = true) (hexp : exponent.natAbs < 10 ^ 64) :
    (printed upper c f exponent h hexp).exponent = exponent := by
  have hvalue := (written_convert (.inr (.inl rfl)) upper hexp).value
  unfold HexNumber.exponent printed
  dsimp only
  rw [hvalue]
  by_cases hneg : exponent < 0
  · rw [if_pos (by simpa using hneg)]
    omega
  · rw [if_neg (by simpa using hneg)]
    omega

theorem printed_value {c : Char} {f : List Char} {exponent : ℤ}
    (h : ∀ d ∈ c :: f, isDigitOf 16 d = true) (hexp : exponent.natAbs < 10 ^ 64) :
    (printed upper c f exponent h hexp).value =
      horner 16 0 (c :: f) * (1 / 16) ^ f.length * 2 ^ exponent := by
  rw [HexNumber.value, printed_exponent]
  rfl

theorem printed_text {c : Char} {f : List Char} {exponent : ℤ}
    (h : ∀ d ∈ c :: f, isDigitOf 16 d = true) (hexp : exponent.natAbs < 10 ^ 64) :
    (printed upper c f exponent h hexp).text upper point =
      (c :: if f = [] then [] else point :: f) ++ exponentText upper exponent := by
  unfold HexNumber.text printed exponentText
  simp

/-- The sign and the prefix of `_doprnt`. -/
def LongDouble.front (x : LongDouble) (upper : Bool) : List Char :=
  (if x.sign then ['-'] else []) ++ if x.isFinite then ['0', if upper then 'X' else 'x'] else []

def LongDouble.signed (x : LongDouble) (v : ℚ) : ℚ := if x.sign then -v else v

theorem LongDouble.value_eq (x : LongDouble) :
    x.value = x.signed (x.mantissa.toNat * 2 ^ (max 1 (x.exponent.toNat : ℤ) - BIAS - 63)) := by
  unfold LongDouble.value LongDouble.signed
  split_ifs
  · ring
  · ring

theorem unbiased_eq (x : LongDouble) {m : BitVec 64} (hm : m ≠ 0) (left_shifts : ℤ) :
    unbiased x.exponent m left_shifts = max 1 (x.exponent.toNat : ℤ) - BIAS - left_shifts := by
  unfold unbiased
  by_cases he : x.exponent = 0
  · rw [if_pos he, if_pos hm, he]
    rfl
  · have hpos : 0 < x.exponent.toNat := by
      rcases Nat.eq_zero_or_pos x.exponent.toNat with h0 | hpos
      · exact absurd (BitVec.eq_of_toNat_eq h0) he
      · exact hpos
    rw [if_neg he, max_eq_right (by exact_mod_cast hpos)]

theorem unbiased_lt (e : BitVec 15) (m : BitVec 64) (left_shifts : ℤ) (h : |left_shifts| ≤ 63) :
    (unbiased e m left_shifts).natAbs < 10 ^ 64 := by
  have he := e.isLt
  have hle := abs_le.mp h
  unfold unbiased BIAS
  split_ifs <;> omega

/-- Digits behind the point and the exponent, put together. -/
theorem scaled_eq {number j i : ℕ} {a : ℤ} (hi : i ≤ j) :
    ((number * 16 ^ (j - i) : ℕ) : ℚ) * 2 ^ (a - 63) =
      number * (1 / 16) ^ i * 2 ^ (a - (63 - 4 * (j : ℤ))) := by
  have hpow : (2 : ℚ) ^ (a - (63 - 4 * (j : ℤ))) = 2 ^ (a - 63) * 16 ^ j := by
    rw [show a - (63 - 4 * (j : ℤ)) = a - 63 + ((4 * j : ℕ) : ℤ) by push_cast; ring,
      zpow_add₀ (by norm_num), zpow_natCast, pow_mul]
    norm_num
  have hsplit : (16 : ℚ) ^ j = 16 ^ (j - i) * 16 ^ i := by
    rw [← pow_add, Nat.sub_add_cancel hi]
  have hone : (1 / 16 : ℚ) ^ i * 16 ^ i = 1 := by
    rw [← mul_pow]
    norm_num
  rw [hpow, hsplit]
  push_cast
  linear_combination (-(number : ℚ) * 16 ^ (j - i) * 2 ^ (a - 63)) * hone

/-- What is printed without a precision is the number itself. -/
theorem conversion_exact (x : LongDouble) (upper : Bool) (hpoint : isDigitOf 16 point = false) :
    ∃ h : HexNumber, conversion none upper point x = x.front upper ++ h.text upper point ∧
      x.signed h.value = x.value := by
  have hlt : x.mantissa.toNat < 16 ^ 64 := x.mantissa.isLt.trans (by norm_num)
  have hwritten := written_convert (.inr (.inr rfl)) upper hlt
  obtain ⟨c, r, hp⟩ := List.exists_cons_of_ne_nil hwritten.ne_nil
  rw [hp] at hwritten
  have hdigits : ∀ d ∈ c :: r.rdropWhile (· = '0'), isDigitOf 16 d = true := by
    intro d hd
    rcases List.mem_cons.mp hd with rfl | hd
    · exact hwritten.digits d List.mem_cons_self
    · exact hwritten.digits d (List.mem_cons_of_mem c ((List.rdropWhile_prefix _ _).subset hd))
  have hlen := (List.rdropWhile_prefix (fun d : Char => decide (d = '0')) r).length_le
  have hnumber := hwritten.value
  rw [Doprnt.horner_cons, horner_rdropWhile, ← Doprnt.horner_cons] at hnumber
  by_cases hm : x.mantissa = 0
  · -- zero
    have hplace : place none x.mantissa = (0, x.mantissa) := if_pos hm
    have hexp := unbiased_lt x.exponent x.mantissa 0 (by decide)
    refine ⟨printed upper c (r.rdropWhile (· = '0')) _ hdigits hexp, ?_, ?_⟩
    · rw [printed_text, ← mantissaText_none upper hpoint hp]
      unfold conversion cvtl
      dsimp only
      rw [hplace]
      rfl
    · have hzero : horner 16 0 (c :: r.rdropWhile (· = '0')) = 0 := by
        rw [hm] at hnumber
        exact (Nat.mul_eq_zero.mp hnumber).resolve_right (Nat.pos_iff_ne_zero.mp (by positivity))
      rw [x.value_eq, printed_value, hzero, show x.mantissa.toNat = 0 by rw [hm]; rfl]
      simp
  · obtain ⟨j, hplace, hlow, hhigh⟩ := place_none hm
    have hj : j < 16 := by
      have hsixteen : 16 ^ j < 16 ^ 16 := hlow.trans_lt x.mantissa.isLt
      exact (Nat.pow_lt_pow_iff_right (by decide)).mp hsixteen
    have hr : r.length = j := by
      have hlen := convert_length_eq upper hlow hhigh hlt
      rw [hp, List.length_cons] at hlen
      omega
    have hexp := unbiased_lt x.exponent x.mantissa (63 - 4 * (j : ℤ))
      (abs_le.mpr ⟨by omega, by omega⟩)
    refine ⟨printed upper c (r.rdropWhile (· = '0')) _ hdigits hexp, ?_, ?_⟩
    · rw [printed_text, ← mantissaText_none upper hpoint hp]
      unfold conversion cvtl
      dsimp only
      rw [hplace]
      rfl
    · rw [x.value_eq, printed_value, unbiased_eq x hm, ← hnumber, ← hr, scaled_eq hlen]

/-- The smallest denormal, with a minus sign. -/
theorem conversion_exact_denormal :
    ∃ h : HexNumber,
      conversion none false '.' ⟨true, 0, 1, .inl rfl⟩ =
        LongDouble.front ⟨true, 0, 1, .inl rfl⟩ false ++ h.text false '.' ∧
      LongDouble.signed ⟨true, 0, 1, .inl rfl⟩ h.value =
        LongDouble.value ⟨true, 0, 1, .inl rfl⟩ :=
  conversion_exact _ false (by decide)

end DjgppLibc.HexFloats
