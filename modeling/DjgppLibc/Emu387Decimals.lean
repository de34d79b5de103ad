import DjgppLibc.Emu387Integers

/-!
# Packed decimal numbers in the 387 emulator

`fbld` and `fbstp`: eighteen digits in nine bytes, the lowest ones first, and a byte with the
sign. `r_mov` reads them through a pointer to `char`, which is signed: where the upper digit of a
byte is 8 or 9, it comes out as -8 or -7. Two such errors can hide each other, as the sign is
taken from its own byte in the end.
-/
namespace DjgppLibc.Emu387

open X86 IntegerRounding

/-- The variables of the loop of `r_mov` from packed digits. -/
structure Reading where
  l : BitVec 64
  side : Bool
  pos : ℕ

def readStep (s : ℕ → Byte) (p : Reading) : Reading :=
  let l := p.l * 10
  if p.side then
    { l := l + (((s p.pos).signExtend 32).sshiftRight 4).signExtend 64, side := false, pos := p.pos }
  else
    { l := l + ((s p.pos).signExtend 32 &&& 0x0f).signExtend 64, side := true, pos := p.pos - 1 }

/-- `r_mov` from packed digits. -/
def rMovDecimal (s : ℕ → Byte) : Reg :=
  let p := (readStep s)^[18] { l := 0, side := true, pos := 8 }
  let d := rMovLongLong p.l
  if s 9 &&& 0x80 ≠ 0 then { d with sign := true } else d

/-- The variables of the loop of `r_mov` to packed digits. -/
structure Writing where
  ll : BitVec 64
  side : Bool
  pos : ℕ
  d : ℕ → Byte

def writeStep (p : Writing) : Writing :=
  let r := (p.ll.srem 10).setWidth 32
  let ll := p.ll.sdiv 10
  if p.side then
    { ll := ll, side := false, pos := p.pos + 1
      d := Function.update p.d p.pos (p.d p.pos ||| (r <<< 4).setWidth 8) }
  else
    { ll := ll, side := true, pos := p.pos
      d := Function.update p.d p.pos (p.d p.pos ||| r.setWidth 8) }

/-- `r_mov` to packed digits; only ten bytes are written. -/
def rMovToDecimal (s : Reg) : Emu (ℕ → Byte) := do
  let t := roundToInt (← get).fpu.controlWord s
  let p := writeStep^[18] { ll := t.sig, side := false, pos := 0, d := fun _ => 0 }
  return if s.sign then Function.update p.d 9 0x80 else p.d

def pair (a k : ℕ) : ℕ := a / 100 ^ k % 100

def packed (v : ℤ) (k : ℕ) : Byte :=
  if k < 9 then BitVec.ofNat 8 (16 * (pair v.natAbs k / 10) + pair v.natAbs k % 10)
  else if k = 9 ∧ v < 0 then 0x80 else 0

variable {a n k : ℕ} {v : ℤ} {s : ℕ → Byte} {m : Machine}

theorem pair_lt (a k : ℕ) : pair a k < 100 := Nat.mod_lt _ (by decide)

theorem div_pow_pair (a k : ℕ) : a / 100 ^ k = a / 100 ^ (k + 1) * 100 + pair a k := by
  rw [pair, pow_succ, ← Nat.div_div_eq_div_mul]
  omega

theorem toNat_packed (hk : k < 9) :
    (packed v k).toNat = 16 * (pair v.natAbs k / 10) + pair v.natAbs k % 10 := by
  have hlt := pair_lt v.natAbs k
  rw [packed, if_pos hk, BitVec.toNat_ofNat]
  omega

theorem packed_sign (v : ℤ) : packed v 9 &&& 0x80 ≠ 0 ↔ v < 0 := by
  rw [packed, if_neg (by decide)]
  by_cases hv : v < 0
  · rw [if_pos ⟨rfl, hv⟩]
    exact iff_of_true (by decide) hv
  · rw [if_neg fun h => hv h.2]
    exact iff_of_false (by decide) hv

def readPair (b : Byte) : ℤ := 10 * (b.toInt / 16) + b.toNat % 16

theorem signed_upper (b : Byte) :
    ((b.signExtend 32).sshiftRight 4).signExtend 64 = BitVec.ofInt 64 (b.toInt / 16) := by
  rw [← BitVec.ofInt_toInt (x := ((b.signExtend 32).sshiftRight 4).signExtend 64),
    BitVec.toInt_signExtend_of_le (by decide), BitVec.toInt_sshiftRight,
    BitVec.toInt_signExtend_of_le (by decide), Int.shiftRight_eq_div_pow]
  rfl

theorem signed_lower (b : Byte) :
    (b.signExtend 32 &&& 0x0f).signExtend 64 = BitVec.ofInt 64 (b.toNat % 16 : ℕ) := by
  revert b
  decide

theorem readStep_twice (s : ℕ → Byte) (l : BitVec 64) (pos : ℕ) :
    readStep s (readStep s ⟨l, true, pos⟩) =
      ⟨l * 100 + BitVec.ofInt 64 (readPair (s pos)), true, pos - 1⟩ := by
  have hpair : BitVec.ofInt 64 (readPair (s pos)) = BitVec.ofInt 64 ((s pos).toInt / 16) * 10 +
      BitVec.ofInt 64 ((s pos).toNat % 16 : ℕ) := by
    rw [readPair, BitVec.ofInt_add, BitVec.ofInt_mul, BitVec.mul_comm]
    rfl
  simp only [readStep, if_true, signed_upper, signed_lower, hpair]
  rw [if_neg (by decide), Reading.mk.injEq]
  refine ⟨?_, rfl, rfl⟩
  rw [BitVec.add_mul, BitVec.mul_assoc, BitVec.add_assoc]
  rfl

def readSum (s : ℕ → Byte) : ℕ → ℤ
  | 0 => 0
  | n + 1 => readSum s n * 100 + readPair (s (8 - n))

attribute [grind =] readSum

theorem readStep_iterate (s : ℕ → Byte) (n : ℕ) : (readStep s)^[2 * n] ⟨0, true, 8⟩ =
    ⟨BitVec.ofInt 64 (readSum s n), true, 8 - n⟩ := by
  induction n with
  | zero => rfl
  | succ n ih =>
      rw [Nat.mul_succ, Nat.add_comm, Function.iterate_add_apply, ih]
      refine (readStep_twice s _ _).trans ?_
      rw [readSum, BitVec.ofInt_add, BitVec.ofInt_mul, Nat.sub_sub]
      rfl

def excess (a : ℕ) : ℕ → ℕ
  | 0 => 0
  | n + 1 => excess a n * 100 + if 80 ≤ pair a (8 - n) then 10 else 0

attribute [grind =] excess

theorem readPair_packed (hk : k < 9) : readPair (packed v k) =
    pair v.natAbs k - 16 * (if 80 ≤ pair v.natAbs k then 10 else 0 : ℕ) := by
  have hlt := pair_lt v.natAbs k
  have hnat := toNat_packed (v := v) hk
  rw [readPair, BitVec.toInt_eq_toNat_cond]
  split_ifs <;> omega

theorem readSum_packed (hv : v.natAbs < 10 ^ 18) (hn : n ≤ 9) :
    readSum (packed v) n = (v.natAbs / 100 ^ (9 - n) : ℕ) - 16 * (excess v.natAbs n : ℕ) := by
  induction n with
  | zero =>
      have hzero : v.natAbs / 100 ^ 9 = 0 := Nat.div_eq_of_lt (by omega)
      rw [readSum, excess, Nat.sub_zero, hzero]
      rfl
  | succ n ih =>
      have hsplit := div_pow_pair v.natAbs (8 - n)
      have hindex : 8 - n + 1 = 9 - n := by omega
      have hindex' : 9 - (n + 1) = 8 - n := by omega
      rw [hindex] at hsplit
      rw [readSum, excess, ih (by omega), readPair_packed (by omega), hindex', hsplit]
      push_cast
      ring

theorem excess_le (a n : ℕ) : 99 * excess a n + 10 ≤ 10 * 100 ^ n := by
  induction n with
  | zero => simp [excess]
  | succ n ih =>
      rw [excess, pow_succ]
      split_ifs <;> omega

/-- No digit is read as a negative one. -/
theorem excess_eq_zero (a n : ℕ) : excess a n = 0 ↔ ∀ j < n, pair a (8 - j) < 80 := by
  induction n with
  | zero => simp [excess]
  | succ n ih =>
      have hdigit : (if 80 ≤ pair a (8 - n) then 10 else 0) = 0 ↔ pair a (8 - n) < 80 := by
        split_ifs with hlarge
        · exact iff_of_false (by decide) (by omega)
        · exact iff_of_true rfl (by omega)
      rw [excess, Nat.forall_lt_succ_right, ← ih, Nat.add_eq_zero_iff, Nat.mul_eq_zero,
        or_iff_left (by decide), hdigit]

theorem excess_eq_half (h : n ≤ 9) (ha : a < 10 ^ 18) : a / 100 ^ (9 - n) = 8 * excess a n ↔
    ∀ j < n, pair a (8 - j) = 0 ∨ pair a (8 - j) = 80 := by
  induction n with
  | zero =>
      have hzero : a / 100 ^ 9 = 0 := Nat.div_eq_of_lt (by omega)
      rw [Nat.sub_zero, hzero]
      simp [excess]
  | succ n ih =>
      have hsplit := div_pow_pair a (8 - n)
      have hlt := pair_lt a (8 - n)
      have hindex : 8 - n + 1 = 9 - n := by omega
      have hindex' : 9 - (n + 1) = 8 - n := by omega
      rw [hindex] at hsplit
      rw [excess, Nat.forall_lt_succ_right, ← ih (by omega), hindex', hsplit]
      split_ifs <;> omega

theorem forall_pairs (P : ℕ → Prop) : (∀ j < 9, P (8 - j)) ↔ ∀ k < 9, P k := by
  constructor
  · intro h k hk
    have hrev := h (8 - k) (by omega)
    rwa [Nat.sub_sub_self (by omega)] at hrev
  · intro h j hj
    exact h (8 - j) (by omega)

/-- The number that is read. -/
def readNumber (v : ℤ) : ℤ := v.natAbs - 16 * (excess v.natAbs 9 : ℕ)

theorem toInt_readNumber (hv : v.natAbs < 10 ^ 18) :
    (BitVec.ofInt 64 (readNumber v)).toInt = readNumber v := by
  have hle := excess_le v.natAbs 9
  unfold readNumber
  exact BitVec.toInt_ofInt_eq_self (by decide) (by omega) (by omega)

theorem rMovDecimal_packed (hv : v.natAbs < 10 ^ 18) : rMovDecimal (packed v) =
    if v < 0 then { rMovInt 64 (readNumber v) with sign := true }
    else rMovInt 64 (readNumber v) := by
  have hloop := readStep_iterate (packed v) 9
  have hsum := readSum_packed hv le_rfl
  rw [Nat.sub_self, pow_zero, Nat.div_one] at hsum
  have hrange := toInt_readNumber hv
  have hload : rMovLongLong (BitVec.ofInt 64 (readSum (packed v) 9)) =
      rMovInt 64 (readNumber v) := by
    rw [hsum, rMovLongLong]
    exact congrArg (rMovInt 64) hrange
  rw [rMovDecimal, hloop]
  dsimp only
  rw [hload]
  simp only [packed_sign]

/-- The number is the one that was packed unless a digit is read as a negative one, or twice the
number is lost. -/
theorem rMovDecimal_value_iff (hv : v.natAbs < 10 ^ 18) :
    (rMovDecimal (packed v)).value = .fin v ↔ (∀ k < 9, pair v.natAbs k < 80) ∨
      v < 0 ∧ ∀ k < 9, pair v.natAbs k = 0 ∨ pair v.natAbs k = 80 := by
  have hzero := excess_eq_zero v.natAbs 9
  have hhalf := excess_eq_half (n := 9) le_rfl hv
  rw [forall_pairs fun k => pair v.natAbs k < 80] at hzero
  rw [Nat.sub_self, pow_zero, Nat.div_one,
    forall_pairs fun k => pair v.natAbs k = 0 ∨ pair v.natAbs k = 80] at hhalf
  have hrange := toInt_readNumber hv
  rw [rMovDecimal_packed hv, ← hzero, ← hhalf]
  split_ifs with hneg
  · have hvalue := (loaded_value (BitVec.ofInt 64 (readNumber v)) true).2
    rw [rMovLongLong, hrange, ← Int.cast_natCast] at hvalue
    rw [hvalue, Value.fin.injEq]
    change (-((readNumber v).natAbs : ℤ) : ℚ) = v ↔ _
    rw [← Int.cast_neg, Int.cast_inj, readNumber]
    omega
  · have hvalue := (rMovInt_toInt (by decide) le_rfl (BitVec.ofInt 64 (readNumber v))).2
    rw [hrange] at hvalue
    rw [hvalue, Value.fin.injEq, Int.cast_inj, readNumber]
    omega

theorem toNat_sdiv_ten {x : BitVec 64} (h : x.toNat < 2 ^ 63) :
    (x.sdiv 10).toNat = x.toNat / 10 ∧ (x.srem 10).toNat = x.toNat % 10 := by
  have hmsb : x.msb = false := by
    rw [BitVec.msb_eq_false_iff_two_mul_lt]
    omega
  have hten : (10 : BitVec 64).msb = false := by decide
  constructor
  · rw [BitVec.sdiv_eq, hmsb, hten]
    exact BitVec.toNat_udiv
  · rw [BitVec.srem_eq, hmsb, hten]
    exact BitVec.toNat_umod

theorem writeStep_twice {p : Writing} {n : ℕ} (hll : p.ll.toNat = n) (hn : n < 2 ^ 63)
    (hside : p.side = false) (hzero : p.d p.pos = 0) :
    (writeStep (writeStep p)).ll.toNat = n / 100 ∧ (writeStep (writeStep p)).side = false ∧
      (writeStep (writeStep p)).pos = p.pos + 1 ∧ (writeStep (writeStep p)).d =
        Function.update p.d p.pos (BitVec.ofNat 8 (16 * (n / 10 % 10) + n % 10)) := by
  obtain ⟨hdiv, hmod⟩ := toNat_sdiv_ten (x := p.ll) (by omega)
  obtain ⟨hdiv', hmod'⟩ := toNat_sdiv_ten (x := p.ll.sdiv 10) (by omega)
  have hfirst : writeStep p = ⟨p.ll.sdiv 10, true, p.pos, Function.update p.d p.pos
      (p.d p.pos ||| ((p.ll.srem 10).setWidth 32).setWidth 8)⟩ := by
    rw [writeStep, hside]
    rfl
  rw [hfirst]
  refine ⟨?_, rfl, rfl, ?_⟩
  · change ((p.ll.sdiv 10).sdiv 10).toNat = n / 100
    rw [hdiv', hdiv, hll]
    omega
  · change Function.update (Function.update p.d p.pos _) p.pos
      (Function.update p.d p.pos _ p.pos ||| ((((p.ll.sdiv 10).srem 10).setWidth 32) <<< 4).setWidth
        8) = _
    rw [Function.update_idem, Function.update_self, hzero]
    congr 1
    apply BitVec.eq_of_toNat_eq
    have hlow : (0 ||| ((p.ll.srem 10).setWidth 32).setWidth 8 : Byte).toNat = n % 10 := by
      rw [show (0 : Byte) = 0#8 from rfl, BitVec.zero_or, BitVec.toNat_setWidth,
        BitVec.toNat_setWidth, hmod, hll]
      omega
    have hhigh : ((((p.ll.sdiv 10).srem 10).setWidth 32 <<< 4).setWidth 8 : Byte) =
        BitVec.ofNat 8 (n / 10 % 10) <<< 4 := by
      apply BitVec.eq_of_toNat_eq
      rw [BitVec.toNat_setWidth, BitVec.toNat_shiftLeft, BitVec.toNat_shiftLeft,
        BitVec.toNat_setWidth, hmod', hdiv, hll, BitVec.toNat_ofNat, Nat.shiftLeft_eq,
        Nat.shiftLeft_eq]
      omega
    have hdigit : (BitVec.ofNat 8 (n / 10 % 10)).toNat = n / 10 % 10 := by
      rw [BitVec.toNat_ofNat]
      omega
    rw [hhigh, BitVec.or_comm, toNat_shiftLeft_or (by rw [hdigit]; omega) (by rw [hlow]; omega),
      hdigit, hlow, BitVec.toNat_ofNat]
    omega

theorem writeStep_iterate {sig : BitVec 64} (hsig : sig.toNat = a) (ha : a < 10 ^ 18) (n : ℕ) :
    (writeStep^[2 * n] ⟨sig, false, 0, fun _ => 0⟩).ll.toNat = a / 100 ^ n ∧
      (writeStep^[2 * n] ⟨sig, false, 0, fun _ => 0⟩).side = false ∧
      (writeStep^[2 * n] ⟨sig, false, 0, fun _ => 0⟩).pos = n ∧
      ∀ k, (writeStep^[2 * n] ⟨sig, false, 0, fun _ => 0⟩).d k =
        if k < n then BitVec.ofNat 8 (16 * (pair a k / 10) + pair a k % 10) else 0 := by
  induction n with
  | zero => exact ⟨by simpa using hsig, rfl, rfl, fun k => rfl⟩
  | succ n ih =>
      rw [Nat.mul_succ, Nat.add_comm, Function.iterate_add_apply]
      generalize writeStep^[2 * n] ⟨sig, false, 0, fun _ => 0⟩ = p at ih ⊢
      obtain ⟨hll, hside, hpos, hd⟩ := ih
      have hlt : a / 100 ^ n < 2 ^ 63 := (Nat.div_le_self _ _).trans_lt (by omega)
      obtain ⟨hll', hside', hpos', hd'⟩ := writeStep_twice hll hlt hside (by
        rw [hd, hpos, if_neg (lt_irrefl n)])
      refine ⟨?_, hside', hpos'.trans (by rw [hpos]), fun k => ?_⟩
      · exact hll'.trans (by rw [pow_succ, Nat.div_div_eq_div_mul])
      · have hdigits : a / 100 ^ n / 10 % 10 = pair a n / 10 ∧
            a / 100 ^ n % 10 = pair a n % 10 := by
          unfold pair
          omega
        refine (congrFun hd' k).trans ?_
        rw [hpos, hdigits.1, hdigits.2, Function.update_apply, hd]
        split_ifs with hkn
        · rw [hkn]
        all_goals first | rfl | omega

theorem rMovToDecimal_packed {r : Reg} (hext : r.Extended) (hvalue : r.value = .fin v)
    (hexp : r.exp.toInt ≤ EXP_BIAS + 63) (hsign : r.sign = decide (v < 0))
    (hv : v.natAbs < 10 ^ 18) : rMovToDecimal r m = some (packed v, m) := by
  obtain ⟨hsig, -⟩ := roundToInt_rounds hext hvalue hexp
    (Mode.rounds_int (roundingMode m.fpu.controlWord) v)
  obtain ⟨-, -, -, hd⟩ := writeStep_iterate hsig hv 9
  have hrun : rMovToDecimal r m = some (if r.sign then Function.update
      (writeStep^[2 * 9] ⟨(roundToInt m.fpu.controlWord r).sig, false, 0, fun _ => 0⟩).d 9 0x80
      else (writeStep^[2 * 9] ⟨(roundToInt m.fpu.controlWord r).sig, false, 0, fun _ => 0⟩).d, m) :=
    rfl
  generalize writeStep^[2 * 9] ⟨(roundToInt m.fpu.controlWord r).sig, false, 0, fun _ => 0⟩ = p
    at hd hrun
  rw [hrun]
  congr 2
  funext k
  by_cases hk : k = 9
  · have hlast := hd 9
    rw [if_neg (by decide)] at hlast
    rw [hk, packed, if_neg (lt_irrefl 9), hsign]
    by_cases hneg : v < 0
    · rw [if_pos (decide_eq_true hneg), Function.update_self, if_pos ⟨rfl, hneg⟩]
    · rw [if_neg (by simpa using hneg), hlast, if_neg fun h => hneg h.2]
  · have hother : (if r.sign then Function.update p.d 9 0x80 else p.d) k = p.d k := by
      split_ifs
      · exact Function.update_of_ne hk _ _
      · rfl
    rw [hother, hd, packed, if_neg fun h : k = 9 ∧ v < 0 => hk h.1]

/-- `fbld` and `fbstp` keep a number of eighteen digits exactly if no upper digit of a byte is 8
or 9, or the number is negative and has no other digits than these eights and zeros. -/
theorem fbld_fbstp_iff (m : Machine) (v : ℤ) (hv : v.natAbs ≤ 10 ^ 18 - 1) :
    ((rMovDecimal (packed v)).value = .fin v ∧
        rMovToDecimal (rMovDecimal (packed v)) m = some (packed v, m)) ↔
      (∀ k < 9, pair v.natAbs k < 80) ∨
        v < 0 ∧ ∀ k < 9, pair v.natAbs k = 0 ∨ pair v.natAbs k = 80 := by
  have hlt : v.natAbs < 10 ^ 18 := by omega
  rw [← rMovDecimal_value_iff hlt]
  refine ⟨fun h => h.1, fun hvalue => ⟨hvalue, ?_⟩⟩
  have hload := rMovDecimal_packed hlt
  have hrange := toInt_readNumber hlt
  obtain ⟨hext, hread⟩ := rMovInt_toInt (by decide) le_rfl (BitVec.ofInt 64 (readNumber v))
  rw [hrange] at hext hread
  have hexp := exp_rMovInt_le le_rfl (readNumber v)
  rw [hload] at hvalue ⊢
  by_cases hneg : v < 0
  · rw [if_pos hneg] at hvalue ⊢
    exact rMovToDecimal_packed ⟨hext.exp, hext.zero⟩ hvalue hexp (decide_eq_true hneg).symm hlt
  · rw [if_neg hneg] at hvalue ⊢
    have heq : readNumber v = v := by
      rw [hread] at hvalue
      exact_mod_cast Value.fin.inj hvalue
    refine rMovToDecimal_packed hext hvalue hexp ?_ hlt
    rw [sign_rMovInt, heq]

/-- 17 comes back. -/
theorem fbld_fbstp_iff_seventeen : ((rMovDecimal (packed 17)).value = .fin (17 : ℤ) ∧
      rMovToDecimal (rMovDecimal (packed 17)) (pairMachine [] CONST_1 CONST_NAN) =
        some (packed 17, pairMachine [] CONST_1 CONST_NAN)) ↔
    (∀ k < 9, pair (17 : ℤ).natAbs k < 80) ∨
      (17 : ℤ) < 0 ∧ ∀ k < 9, pair (17 : ℤ).natAbs k = 0 ∨ pair (17 : ℤ).natAbs k = 80 :=
  fbld_fbstp_iff (pairMachine [] CONST_1 CONST_NAN) 17 (by decide)

/-- 80 is loaded as -80. -/
theorem fbld_eighty : ¬ ((rMovDecimal (packed 80)).value = .fin (80 : ℤ) ∧
    rMovToDecimal (rMovDecimal (packed 80)) (pairMachine [] CONST_1 CONST_NAN) =
      some (packed 80, pairMachine [] CONST_1 CONST_NAN)) := by
  have hload : rMovDecimal (packed 80) = rMovInt 64 (BitVec.ofInt 64 (-80)).toInt := by decide
  have hvalue := (rMovInt_toInt (by decide) le_rfl (BitVec.ofInt 64 (-80))).2
  rintro ⟨heighty, -⟩
  rw [hload, hvalue, Value.fin.injEq, Int.cast_inj] at heighty
  exact absurd heighty (by decide)

example : rMovDecimal (packed (-80)) = rMovInt 64 (-80) := by decide

end DjgppLibc.Emu387
