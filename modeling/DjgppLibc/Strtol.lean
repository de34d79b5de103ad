import DjgppLibc.LimitedNumbers
import Mathlib.Tactic.NormNum

/-!
# `strtol` and its siblings

The four functions differ in the type of their result and in the way they compute the cutoff.
A pointer into the string is what follows it, up to the terminating null character, and reading
there gives zero. An `unsigned char` wraps around at 256, the accumulator at its width.
-/
namespace DjgppLibc.Strtol
open LimitedNumbers

def isspace (c : UInt8) : Bool := c = 0x20 || 9 ≤ c.toNat && c.toNat ≤ 13
def isdigit (c : UInt8) : Bool := 0x30 ≤ c.toNat && c.toNat ≤ 0x39
def isupper (c : UInt8) : Bool := 0x41 ≤ c.toNat && c.toNat ≤ 0x5A
def islower (c : UInt8) : Bool := 0x61 ≤ c.toNat && c.toNat ≤ 0x7A
def isalpha (c : UInt8) : Bool := isupper c || islower c

def deref (s : List UInt8) : UInt8 := s.headD 0

structure Start where
  neg : Bool
  base : ℕ
  /-- Where the character that was read last stands. -/
  s : List UInt8
  deriving DecidableEq

/-- White space and a sign. -/
def readSign (nptr : List UInt8) : Bool × List UInt8 :=
  let s := nptr.dropWhile isspace
  if deref s = 0x2D then (true, s.tail)
  else if deref s = 0x2B then (false, s.tail)
  else (false, s)

/-- White space, a sign, and a prefix that goes with the base. -/
def readStart (nptr : List UInt8) (base : ℕ) : Start :=
  let (neg, s) := readSign nptr
  if (base = 0 ∨ base = 16) ∧ deref s = 0x30 ∧ (deref s.tail = 0x78 ∨ deref s.tail = 0x58) then
    ⟨neg, 16, s.tail.tail⟩
  else if base = 0 then ⟨neg, if deref s = 0x30 then 8 else 10, s⟩
  else ⟨neg, base, s⟩

def digitOf (c : UInt8) : Option UInt8 :=
  if isdigit c then some (c - 0x30)
  else if isalpha c then some (c - (if isupper c then 0x41 - 10 else 0x61 - 10))
  else none

/-- The loop over the digits. `any` is negative after an overflow. -/
def digitLoop (width cutoff cutlim base : ℕ) : List UInt8 → ℕ → ℤ → ℕ × ℤ × List UInt8
  | [], acc, any => (acc, any, [])
  | ch :: s, acc, any =>
      match digitOf ch with
      | none => (acc, any, ch :: s)
      | some c =>
          if c.toNat ≥ base then (acc, any, ch :: s)
          else if any < 0 ∨ acc > cutoff ∨ (acc = cutoff ∧ c.toNat > cutlim) then
            digitLoop width cutoff cutlim base s acc (-1)
          else digitLoop width cutoff cutlim base s ((acc * base + c.toNat) % 2 ^ width) 1

/-- What a conversion leaves: the value, `*endptr`, and `errno`. -/
structure Result where
  value : ℤ
  endptr : List UInt8
  errno : ℕ
  deriving DecidableEq

def erange : ℕ := 2

def convert (width : ℕ) (cutoff : Bool → ℕ → ℕ × ℕ) (overflow : Bool → ℕ) (nptr : List UInt8)
    (base errno : ℕ) : ℕ × List UInt8 × ℕ :=
  let start := readStart nptr base
  let (cut, cutlim) := cutoff start.neg start.base
  let (acc, any, s) := digitLoop width cut cutlim start.base start.s 0 0
  let endptr := if any ≠ 0 then s else nptr
  if any < 0 then (overflow start.neg, endptr, erange)
  else if start.neg then ((2 ^ width - acc) % 2 ^ width, endptr, errno)
  else (acc, endptr, errno)

def toSigned (width acc : ℕ) : ℤ := if acc < 2 ^ (width - 1) then acc else acc - 2 ^ width

/-- The quotient of the largest legal magnitude by the base, and the remainder. -/
def cutoff (limit base : ℕ) : ℕ × ℕ := (limit / base, limit % base)

/-- The same from one less than the largest magnitude, to which one is added after division. -/
def cutoffAfter (limit base : ℕ) : ℕ × ℕ :=
  let cutlim := limit % base
  let cutoff := limit / base
  if cutlim + 1 = base then (cutoff + 1, 0) else (cutoff, cutlim + 1)

def longMin : ℤ := -2147483648
def longMax : ℤ := 2147483647
def ulongMax : ℕ := 4294967295
def llongMin : ℤ := -9223372036854775808
def llongMax : ℤ := 9223372036854775807
def ullongMax : ℕ := 18446744073709551615

def strtol (nptr : List UInt8) (base errno : ℕ) : Result :=
  let (acc, endptr, errno) := convert 32
    (fun neg => cutoff (if neg then (-longMin).toNat else longMax.toNat))
    (fun neg => if neg then (-longMin).toNat else longMax.toNat) nptr base errno
  ⟨toSigned 32 acc, endptr, errno⟩

def strtoll (nptr : List UInt8) (base errno : ℕ) : Result :=
  let (acc, endptr, errno) := convert 64
    (fun neg => cutoffAfter (if neg then (-(llongMin + 1)).toNat else (llongMax - 1).toNat))
    (fun neg => if neg then (-llongMin).toNat else llongMax.toNat) nptr base errno
  ⟨toSigned 64 acc, endptr, errno⟩

def strtoul (nptr : List UInt8) (base errno : ℕ) : Result :=
  let (acc, endptr, errno) := convert 32 (fun _ => cutoff ulongMax) (fun _ => ulongMax)
    nptr base errno
  ⟨acc, endptr, errno⟩

def strtoull (nptr : List UInt8) (base errno : ℕ) : Result :=
  let (acc, endptr, errno) := convert 64 (fun _ => cutoff ullongMax) (fun _ => ullongMax)
    nptr base errno
  ⟨acc, endptr, errno⟩

def digitRun (base : ℕ) : List UInt8 → List ℕ
  | [] => []
  | ch :: s =>
      match digitOf ch with
      | none => []
      | some c => if c.toNat < base then c.toNat :: digitRun base s else []

theorem digitLoop_overflowed (width cut cutlim base : ℕ) (s : List UInt8) (acc : ℕ) :
    (digitLoop width cut cutlim base s acc (-1)).2 = (-1, s.drop (digitRun base s).length) := by
  induction s with
  | nil => rfl
  | cons ch s ih =>
      rw [digitLoop, digitRun]
      cases digitOf ch with
      | none => rfl
      | some c =>
          dsimp only
          by_cases hc : c.toNat < base
          · rw [if_neg (by omega), if_pos (.inl (by decide)), if_pos hc]
            exact ih
          · rw [if_pos (by omega), if_neg hc]
            rfl

/-- The loop accumulates the digits as long as their number is within the limit. -/
theorem digitLoop_spec {width limit base : ℕ} (hlimit : limit < 2 ^ width) (hbase : 2 ≤ base)
    (s : List UInt8) (acc : ℕ) (any : ℤ) (hacc : acc ≤ limit) (hany : 0 ≤ any) :
    let r := digitLoop width (limit / base) (limit % base) base s acc any
    let run := digitRun base s
    r.2.2 = s.drop run.length ∧
      (limit < valueFrom base acc run → r.2.1 = -1) ∧
      (valueFrom base acc run ≤ limit →
        r.1 = valueFrom base acc run ∧ r.2.1 = if run = [] then any else 1) := by
  induction s generalizing acc any with
  | nil => exact ⟨rfl, fun h => absurd hacc (by simpa [digitRun, valueFrom] using h),
      fun _ => ⟨rfl, rfl⟩⟩
  | cons ch s ih =>
      have hnone : limit < acc → False := fun h => absurd hacc (by omega)
      intro r run
      cases hch : digitOf ch with
      | none =>
          have hrun : run = [] := by simp only [run, digitRun, hch]
          have hr : r = (acc, any, ch :: s) := by simp only [r, digitLoop, hch]
          rw [hrun, hr]
          exact ⟨rfl, fun h => (hnone h).elim, fun _ => ⟨rfl, rfl⟩⟩
      | some c =>
          by_cases hc : c.toNat < base
          · have hrun : run = c.toNat :: digitRun base s := by
              simp only [run, digitRun, hch, if_pos hc]
            have hpasses : Passes limit base acc c.toNat ↔ _ := passes_iff hc
            by_cases hover : limit < acc * base + c.toNat
            · have hr : r = digitLoop width (limit / base) (limit % base) base s acc (-1) := by
                simp only [r, digitLoop, hch]
                rw [if_neg (by omega), if_pos (.inr (hpasses.mpr hover))]
              have hle := le_valueFrom (by omega : 0 < base) (acc * base + c.toNat)
                (digitRun base s)
              rw [hrun, hr, digitLoop_overflowed]
              exact ⟨rfl, fun _ => rfl, fun h => absurd (hover.trans_le hle) (Nat.not_lt.mpr h)⟩
            · have hstep : acc * base + c.toNat ≤ limit := by omega
              have hr : r = digitLoop width (limit / base) (limit % base) base s
                  (acc * base + c.toNat) 1 := by
                simp only [r, digitLoop, hch]
                rw [if_neg (by omega), if_neg fun h => hover
                  (hpasses.mp (h.resolve_left (by omega))),
                  Nat.mod_eq_of_lt (hstep.trans_lt hlimit)]
              obtain ⟨hend, hlimit', hvalue⟩ := ih _ 1 hstep (by decide)
              rw [hrun, hr]
              refine ⟨hend, hlimit', fun h => ⟨(hvalue h).1, ?_⟩⟩
              rw [(hvalue h).2, if_neg (List.cons_ne_nil _ _), ite_self]
          · have hrun : run = [] := by simp only [run, digitRun, hch, if_neg hc]
            have hr : r = (acc, any, ch :: s) := by
              simp only [r, digitLoop, hch]
              rw [if_pos (by omega)]
            rw [hrun, hr]
            exact ⟨rfl, fun h => (hnone h).elim, fun _ => ⟨rfl, rfl⟩⟩

/-- The digits behind white space, sign and prefix. -/
def digits (nptr : List UInt8) (base : ℕ) : List ℕ :=
  digitRun (readStart nptr base).base (readStart nptr base).s

def magnitude (nptr : List UInt8) (base : ℕ) : ℕ :=
  value (readStart nptr base).base (digits nptr base)

def IsBase (base : ℕ) : Prop := base = 0 ∨ (2 ≤ base ∧ base ≤ 36)

theorem two_le_base {base : ℕ} (hbase : IsBase base) (nptr : List UInt8) :
    2 ≤ (readStart nptr base).base := by
  unfold readStart
  dsimp only
  split_ifs with hprefixed hzero hoctal
  · show 2 ≤ 16
    decide
  · show 2 ≤ 8
    decide
  · show 2 ≤ 10
    decide
  · exact (hbase.resolve_left hzero).1

/-- A conversion whose cutoff comes from a limit is right up to this limit. -/
theorem convert_spec {width : ℕ} {cut : Bool → ℕ → ℕ × ℕ} {overflow : Bool → ℕ}
    (limit : Bool → ℕ) (hlimit : ∀ neg, limit neg < 2 ^ width)
    (hcut : ∀ neg base, 2 ≤ base → cut neg base = cutoff (limit neg) base)
    {base : ℕ} (hbase : IsBase base) (nptr : List UInt8) (errno : ℕ) :
    let start := readStart nptr base
    let v := magnitude nptr base
    let endptr := if digits nptr base = [] then nptr
      else start.s.drop (digits nptr base).length
    convert width cut overflow nptr base errno =
      (if limit start.neg < v then overflow start.neg
        else if start.neg then (2 ^ width - v) % 2 ^ width else v,
        endptr, if limit start.neg < v then erange else errno) := by
  intro start v endptr
  have htwo := two_le_base hbase nptr
  obtain ⟨hend, hover, hvalue⟩ := digitLoop_spec (hlimit start.neg) htwo start.s
    0 0 (Nat.zero_le _) le_rfl
  rw [convert, hcut start.neg start.base htwo]
  dsimp only [cutoff]
  by_cases hv : limit start.neg < v
  · have hany := hover hv
    have hdigits : digits nptr base ≠ [] := by
      intro hnil
      have hzero : v = 0 := by
        show value _ (digits nptr base) = 0
        rw [hnil]
        rfl
      omega
    rw [if_pos hv, if_pos hv]
    show (if (digitLoop width _ _ start.base start.s 0 0).2.1 < 0 then _ else _) = _
    rw [hany, hend, if_pos (by decide)]
    simp only [endptr, if_neg hdigits]
    rfl
  · obtain ⟨hacc, hany⟩ := hvalue (Nat.not_lt.mp hv)
    have hendptr : (if (digitLoop width (limit start.neg / start.base)
        (limit start.neg % start.base) start.base start.s 0 0).2.1 ≠ 0 then start.s.drop
          (digitRun start.base start.s).length else nptr) = endptr := by
      rw [hany]
      by_cases hdigits : digits nptr base = []
      · simp only [endptr, if_pos hdigits]
        rw [show digitRun start.base start.s = [] from hdigits]
        rfl
      · simp only [endptr, if_neg hdigits]
        rw [if_neg (show ¬ digitRun start.base start.s = [] from hdigits)]
        rfl
    rw [if_neg hv, if_neg hv]
    show (if (digitLoop width _ _ start.base start.s 0 0).2.1 < 0 then _ else _) = _
    rw [if_neg (by rw [hany]; split_ifs <;> decide), hend, hendptr, hacc]
    show (if start.neg then _ else _) = _
    split_ifs <;> rfl

/-- The number of `lo..hi` that is nearest to `x`. -/
def nearest (lo hi x : ℤ) : ℤ := max lo (min hi x)

def number (nptr : List UInt8) (base : ℕ) : ℤ :=
  if (readStart nptr base).neg then -(magnitude nptr base : ℤ) else magnitude nptr base

/-- A signed result is the number in the string, or the limit that is nearest to it. -/
structure SignedResult (lo hi x : ℤ) (errno : ℕ) (r : Result) : Prop where
  value : r.value = nearest lo hi x
  errno : r.errno = if lo ≤ x ∧ x ≤ hi then errno else erange

/-- An unsigned result is the magnitude or its two's complement if the magnitude fits, and the
maximum otherwise. -/
structure UnsignedResult (max v : ℕ) (x : ℤ) (errno : ℕ) (r : Result) : Prop where
  value : r.value = if v ≤ max then x % (max + 1 : ℤ) else max
  errno : r.errno = if v ≤ max then errno else erange

/-- In two's complement the magnitude of the limit is one greater below zero. -/
theorem toSigned_nearest {width half : ℕ} (hhalf : 2 ^ (width - 1) = half)
    (hfull : 2 ^ width = 2 * half) (hpos : 0 < half) (neg : Bool) (v : ℕ) :
    toSigned width (if (if neg then half else half - 1) < v then (if neg then half else half - 1)
      else if neg then (2 ^ width - v) % 2 ^ width else v) =
      nearest (-half) (half - 1) (if neg then -(v : ℤ) else v) := by
  have hcast : (2 : ℤ) ^ width = 2 * half := by exact_mod_cast hfull
  rw [toSigned, hhalf, hfull, hcast, nearest]
  cases neg with
  | true =>
      simp only [if_true]
      by_cases hover : half < v
      · rw [if_pos hover]
        split_ifs <;> omega
      · rw [if_neg hover]
        rcases Nat.eq_zero_or_pos v with rfl | hv
        · rw [Nat.sub_zero, Nat.mod_self, if_pos hpos]
          omega
        · rw [Nat.mod_eq_of_lt (by omega)]
          split_ifs <;> omega
  | false =>
      simp only [Bool.false_eq_true, if_false]
      split_ifs <;> omega

theorem exceeds_iff {half : ℕ} (hpos : 0 < half) (neg : Bool) (v : ℕ) :
    (if neg then half else half - 1) < v ↔
      ¬ (-(half : ℤ) ≤ (if neg then -(v : ℤ) else v) ∧
        (if neg then -(v : ℤ) else v) ≤ (half : ℤ) - 1) := by
  cases neg <;> simp only [if_true, Bool.false_eq_true, if_false] <;> omega

theorem complement_emod {max v : ℕ} (neg : Bool) (hv : v ≤ max) :
    ((if neg then (max + 1 - v) % (max + 1) else v : ℕ) : ℤ) =
      (if neg then -(v : ℤ) else v) % (max + 1 : ℤ) := by
  cases neg with
  | true =>
      have hcast : ((max + 1 - v : ℕ) : ℤ) = -(v : ℤ) + ((max + 1 : ℕ) : ℤ) := by omega
      simp only [if_true]
      rw [Int.natCast_mod, hcast, Int.add_emod_right]
      rfl
  | false =>
      simp only [Bool.false_eq_true, if_false]
      exact (Int.emod_eq_of_lt (by omega) (by omega)).symm

section Results

variable {base : ℕ}

theorem signedResult_of_cutoff (width half : ℕ) (cut : Bool → ℕ → ℕ × ℕ) (hbase : IsBase base)
    (nptr : List UInt8) (errno : ℕ)
    (hhalf : 2 ^ (width - 1) = half)
    (hfull : 2 ^ width = 2 * half) (hpos : 0 < half)
    (hcut : ∀ neg base, 2 ≤ base → cut neg base = cutoff (if neg then half else half - 1) base) :
    SignedResult (-half) (half - 1) (number nptr base) errno
      (let r := convert width cut (fun neg => if neg then half else half - 1) nptr base errno
       ⟨toSigned width r.1, r.2.1, r.2.2⟩) := by
  rw [convert_spec (fun neg => if neg then half else half - 1)
    (fun neg => by cases neg <;> simp only [if_true, Bool.false_eq_true, if_false] <;> omega)
    hcut hbase nptr errno]
  constructor
  · exact toSigned_nearest hhalf hfull hpos _ _
  · show (if _ then erange else errno) = if _ then errno else erange
    rw [if_congr (exceeds_iff hpos _ _) rfl rfl, ite_not]
    rfl

theorem unsignedResult_of_cutoff (width max : ℕ) (cut : Bool → ℕ → ℕ × ℕ) (hbase : IsBase base)
    (nptr : List UInt8) (errno : ℕ)
    (hmax : 2 ^ width = max + 1)
    (hcut : ∀ neg base, 2 ≤ base → cut neg base = cutoff max base) :
    UnsignedResult max (magnitude nptr base) (number nptr base) errno
      (let r := convert width cut (fun _ => max) nptr base errno
       ⟨r.1, r.2.1, r.2.2⟩) := by
  rw [convert_spec (fun _ => max) (fun _ => by omega) hcut hbase nptr errno, hmax]
  by_cases hv : magnitude nptr base ≤ max
  · refine ⟨?_, ?_⟩
    · rw [if_pos hv]
      dsimp only
      rw [if_neg (Nat.not_lt.mpr hv)]
      exact complement_emod _ hv
    · rw [if_pos hv]
      exact if_neg (Nat.not_lt.mpr hv)
  · refine ⟨?_, ?_⟩
    · rw [if_neg hv]
      exact congrArg Nat.cast (if_pos (Nat.not_le.mp hv))
    · rw [if_neg hv]
      exact if_pos (Nat.not_le.mp hv)

theorem cutoffAfter_eq {limit base : ℕ} (hbase : 2 ≤ base) :
    cutoffAfter limit base = cutoff (limit + 1) base :=
  (div_mod_succ (by omega)).symm

theorem strtol_result (hbase : IsBase base) (nptr : List UInt8) (errno : ℕ) :
    SignedResult longMin longMax (number nptr base) errno (strtol nptr base errno) := by
  have hresult := signedResult_of_cutoff 32 2147483648
    (fun neg => cutoff (if neg then 2147483648 else 2147483648 - 1)) hbase nptr errno
    (by decide) (by decide) (by decide) fun _ _ _ => rfl
  have hmin : (-longMin).toNat = 2147483648 := by decide
  have hmax : longMax.toNat = 2147483648 - 1 := by decide
  rw [strtol, hmin, hmax]
  exact hresult

theorem strtoll_result (hbase : IsBase base) (nptr : List UInt8) (errno : ℕ) :
    SignedResult llongMin llongMax (number nptr base) errno (strtoll nptr base errno) := by
  have hresult := signedResult_of_cutoff 64 9223372036854775808
    (fun neg => cutoffAfter (if neg then 9223372036854775807 else 9223372036854775806))
    hbase nptr errno (by decide) (by decide) (by decide)
    fun neg b hb => by cases neg <;> exact cutoffAfter_eq hb
  have hneg : (-(llongMin + 1)).toNat = 9223372036854775807 := by decide
  have hpos : (llongMax - 1).toNat = 9223372036854775806 := by decide
  have hmin : (-llongMin).toNat = 9223372036854775808 := by decide
  have hmax : llongMax.toNat = 9223372036854775808 - 1 := by decide
  rw [strtoll, hneg, hpos, hmin, hmax]
  exact hresult

/-- All four conversions give the number in the string where it fits, and the nearest limit with
`ERANGE` where it does not; the two ways to compute a cutoff agree. -/
theorem conversions_correct (hbase : IsBase base) (nptr : List UInt8) (errno : ℕ) :
    SignedResult longMin longMax (number nptr base) errno (strtol nptr base errno) ∧
    SignedResult llongMin llongMax (number nptr base) errno (strtoll nptr base errno) ∧
    UnsignedResult ulongMax (magnitude nptr base) (number nptr base) errno
      (strtoul nptr base errno) ∧
    UnsignedResult ullongMax (magnitude nptr base) (number nptr base) errno
      (strtoull nptr base errno) ∧
    ∀ limit b, 0 < limit → 2 ≤ b → cutoffAfter (limit - 1) b = cutoff limit b := by
  refine ⟨strtol_result hbase nptr errno, strtoll_result hbase nptr errno, ?_, ?_,
    fun limit b hlimit hb => ?_⟩
  · exact unsignedResult_of_cutoff 32 ulongMax (fun _ => cutoff ulongMax) hbase nptr errno
      (by decide) fun _ _ _ => rfl
  · exact unsignedResult_of_cutoff 64 ullongMax (fun _ => cutoff ullongMax) hbase nptr errno
      (by decide) fun _ _ _ => rfl
  · rw [cutoffAfter_eq hb, Nat.sub_add_cancel hlimit]

/-- The most negative `long`, and one digit too many. -/
theorem conversions_correct_minimum :
    SignedResult longMin longMax
        (number [0x2D, 0x32, 0x31, 0x34, 0x37, 0x34, 0x38, 0x33, 0x36, 0x34, 0x38] 10) 0
        (strtol [0x2D, 0x32, 0x31, 0x34, 0x37, 0x34, 0x38, 0x33, 0x36, 0x34, 0x38] 10 0) ∧
      strtol [0x2D, 0x32, 0x31, 0x34, 0x37, 0x34, 0x38, 0x33, 0x36, 0x34, 0x38] 10 0 =
        ⟨-2147483648, [], 0⟩ :=
  ⟨(conversions_correct (.inr (by decide)) _ 0).1, by decide +kernel⟩

end Results

end DjgppLibc.Strtol
