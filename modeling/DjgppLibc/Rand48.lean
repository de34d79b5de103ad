import Mathlib.Data.Nat.Bitwise
import DjgppLibc.FullPeriods

/-!
# The generator of `rand48.c`

A state is three 16-bit words. `next` multiplies and adds word by word, in an
accumulator of 32 bits that overflows. Only multiples of `2^48` get lost, so that a
step is the linear congruential step on the number that the words stand for.

`drand48` and `erand48` are left out. The double in `jrand48` holds integers below
`2^31` in magnitude, which it does exactly.
-/
namespace DjgppLibc.Rand48

/-- `unsigned short state[3]` -/
structure State where
  w0 : BitVec 16
  w1 : BitVec 16
  w2 : BitVec 16
  deriving DecidableEq, Repr

structure Parameters where
  multiplier0 : BitVec 16
  multiplier1 : BitVec 16
  multiplier2 : BitVec 16
  additiver : BitVec 16
  deriving DecidableEq, Repr

structure Generator where
  internalState : State
  parameters : Parameters
  deriving DecidableEq, Repr

/-- `RAND48_MULT0` to `RAND48_ADD` -/
def RAND48 : Parameters := ⟨0xe66d, 0xdeec, 0x0005, 0x000b⟩

/-- An `unsigned short` in an expression. -/
def ulong (x : BitVec 16) : BitVec 32 := x.setWidth 32

def low (tmp : BitVec 32) : BitVec 16 := (tmp &&& 0xffff).setWidth 16

def next (p : Parameters) (state : State) : State :=
  let tmp₀ := ulong state.w0 * ulong p.multiplier0 + ulong p.additiver
  let tmp₁ := (tmp₀ >>> 16) + ulong state.w0 * ulong p.multiplier1 +
    ulong state.w1 * ulong p.multiplier0
  let tmp₂ := (tmp₁ >>> 16) + ulong state.w0 * ulong p.multiplier2 +
    ulong state.w1 * ulong p.multiplier1 + ulong state.w2 * ulong p.multiplier0
  ⟨low tmp₀, low tmp₁, low tmp₂⟩

def nrand48 (p : Parameters) (state : State) : State × BitVec 32 :=
  let state := next p state
  (state, ulong state.w2 * 0x8000#32 + (ulong state.w1 >>> 1))

/-- The number is negated in a double, with the lower word added after that. -/
def jrand48 (p : Parameters) (state : State) : State × BitVec 32 :=
  let state := next p state
  let high : ℤ := (state.w2 &&& 0x7fff).toNat
  if state.w2 &&& 0x8000 ≠ 0 then
    (state, BitVec.ofInt 32 (-1 * high * 0x10000 + state.w1.toNat))
  else (state, BitVec.ofInt 32 (high * 0x10000) + ulong state.w1)

def lrand48 (g : Generator) : Generator × BitVec 32 :=
  let r := nrand48 g.parameters g.internalState
  ({ g with internalState := r.1 }, r.2)

def mrand48 (g : Generator) : Generator × BitVec 32 :=
  let r := jrand48 g.parameters g.internalState
  ({ g with internalState := r.1 }, r.2)

def srand48 (seedval : BitVec 32) : Generator :=
  ⟨⟨0x330e, low seedval, low (seedval.sshiftRight 16)⟩, RAND48⟩

def lcong48 (param : Fin 7 → BitVec 16) : Generator :=
  ⟨⟨param 0, param 1, param 2⟩, ⟨param 3, param 4, param 5, param 6⟩⟩

def value (w0 w1 w2 : BitVec 16) : ℕ := w0.toNat + 2 ^ 16 * w1.toNat + 2 ^ 32 * w2.toNat

def State.value (s : State) : ℕ := Rand48.value s.w0 s.w1 s.w2

def Parameters.multiplier (p : Parameters) : ℕ :=
  Rand48.value p.multiplier0 p.multiplier1 p.multiplier2

/-- `X ↦ (a X + c) mod 2^48` -/
def congruential (a c x : ℕ) : ℕ := (a * x + c) % 2 ^ 48

variable (p : Parameters) (s : State)

theorem toNat_ulong (x : BitVec 16) : (ulong x).toNat = x.toNat :=
  BitVec.toNat_setWidth_of_le (by decide)

theorem toNat_low (tmp : BitVec 32) : (low tmp).toNat = tmp.toNat % 2 ^ 16 := by
  unfold low
  rw [BitVec.toNat_setWidth, BitVec.toNat_and]
  change (tmp.toNat &&& (2 ^ 16 - 1)) % 2 ^ 16 = _
  rw [Nat.and_two_pow_sub_one_eq_mod, Nat.mod_mod]

theorem toNat_shift (tmp : BitVec 32) : (tmp >>> 16).toNat = tmp.toNat / 2 ^ 16 := by
  rw [BitVec.toNat_ushiftRight, Nat.shiftRight_eq_div_pow]

theorem toNat_product (x y : BitVec 16) : (ulong x * ulong y).toNat = x.toNat * y.toNat := by
  rw [BitVec.toNat_mul, toNat_ulong, toNat_ulong]
  apply Nat.mod_eq_of_lt
  have hx := x.isLt
  have hy := y.isLt
  calc x.toNat * y.toNat ≤ (2 ^ 16 - 1) * (2 ^ 16 - 1) :=
        Nat.mul_le_mul (Nat.le_sub_one_of_lt hx) (Nat.le_sub_one_of_lt hy)
    _ < 2 ^ 32 := by decide

/-- Columns of a product, added up with carries in an accumulator of 32 bits. What the second and
the third one lose is beyond the third word. -/
theorem carries (c₀ c₁ c₂ : ℕ) :
    c₀ % 2 ^ 16 + 2 ^ 16 * ((c₀ / 2 ^ 16 + c₁) % 2 ^ 32 % 2 ^ 16) +
        2 ^ 32 * (((c₀ / 2 ^ 16 + c₁) % 2 ^ 32 / 2 ^ 16 + c₂) % 2 ^ 32 % 2 ^ 16) =
      (c₀ + 2 ^ 16 * c₁ + 2 ^ 32 * c₂) % 2 ^ 48 := by
  omega

theorem next_value : (next p s).value = congruential p.multiplier p.additiver.toNat s.value := by
  obtain ⟨m₀, m₁, m₂, c⟩ := p
  obtain ⟨s₀, s₁, s₂⟩ := s
  have hfirst : s₀.toNat * m₀.toNat + c.toNat < 2 ^ 32 := by
    have hs := s₀.isLt
    have hm := m₀.isLt
    have hc := c.isLt
    calc s₀.toNat * m₀.toNat + c.toNat
        ≤ (2 ^ 16 - 1) * (2 ^ 16 - 1) + (2 ^ 16 - 1) :=
          Nat.add_le_add (Nat.mul_le_mul (Nat.le_sub_one_of_lt hs) (Nat.le_sub_one_of_lt hm))
            (Nat.le_sub_one_of_lt hc)
      _ < 2 ^ 32 := by decide
  have hlost : (m₀.toNat + 2 ^ 16 * m₁.toNat + 2 ^ 32 * m₂.toNat) *
        (s₀.toNat + 2 ^ 16 * s₁.toNat + 2 ^ 32 * s₂.toNat) + c.toNat =
      (s₀.toNat * m₀.toNat + c.toNat) + 2 ^ 16 * (s₀.toNat * m₁.toNat + s₁.toNat * m₀.toNat) +
        2 ^ 32 * (s₀.toNat * m₂.toNat + s₁.toNat * m₁.toNat + s₂.toNat * m₀.toNat) +
        2 ^ 48 * (s₁.toNat * m₂.toNat + s₂.toNat * m₁.toNat + 2 ^ 16 * (s₂.toNat * m₂.toNat)) := by
    ring
  unfold congruential Parameters.multiplier State.value Rand48.value
  dsimp only
  rw [hlost, Nat.add_mul_mod_self_left, ← carries]
  simp only [next, toNat_low, BitVec.toNat_add, toNat_shift, toNat_product, toNat_ulong,
    Nat.mod_add_mod, Nat.mod_eq_of_lt hfirst, Nat.add_assoc]

/-- After any number of steps with what `lcong48` has installed, the words of a state stand for
the number that the congruential steps lead to. -/
theorem next_iterate (param : Fin 7 → BitVec 16) (s : State) (n : ℕ) :
    ((next (lcong48 param).parameters)^[n] s).value =
      (congruential (value (param 3) (param 4) (param 5)) (param 6).toNat)^[n] s.value :=
  have hstep : Function.Semiconj State.value (next (lcong48 param).parameters)
      (congruential (value (param 3) (param 4) (param 5)) (param 6).toNat) := next_value _
  hstep.iterate_right n s

theorem value_injective : Function.Injective State.value := by
  rintro ⟨s₀, s₁, s₂⟩ ⟨t₀, t₁, t₂⟩ h
  unfold State.value Rand48.value at h
  dsimp only at h
  rw [State.mk.injEq, ← BitVec.toNat_inj, ← BitVec.toNat_inj, ← BitVec.toNat_inj]
  omega

theorem value_lt (s : State) : s.value < 2 ^ 48 := by
  have h₀ := s.w0.isLt
  have h₁ := s.w1.isLt
  have h₂ := s.w2.isLt
  unfold State.value Rand48.value
  omega

/-- With multipliers and an additiver like those of `RAND48` a state comes back only after `2^48`
steps, and every state is reached from every other one. -/
theorem next_period (ha : p.multiplier % 4 = 1) (hc : p.additiver.toNat % 2 = 1) (s t : State) :
    (∀ n, (next p)^[n] s = s ↔ 2 ^ 48 ∣ n) ∧ ∃ n < 2 ^ 48, (next p)^[n] s = t := by
  have hstep : Function.Semiconj State.value (next p)
      (congruential p.multiplier p.additiver.toNat) := next_value p
  have hperiod (n : ℕ) (s : State) : (next p)^[n] s = s ↔ 2 ^ 48 ∣ n := by
    rw [← value_injective.eq_iff, hstep.iterate_right n s]
    exact FullPeriods.iterate_eq_self_iff ha hc (value_lt s) n
  exact ⟨fun n => hperiod n s, FullPeriods.exists_iterate value_injective value_lt hperiod s t⟩

theorem next_period_RAND48 :
    (∀ n, (next RAND48)^[n] (srand48 0).internalState = (srand48 0).internalState ↔ 2 ^ 48 ∣ n) ∧
      ∃ n < 2 ^ 48, (next RAND48)^[n] (srand48 0).internalState = (srand48 1).internalState :=
  next_period RAND48 (by decide) (by decide) (srand48 0).internalState (srand48 1).internalState

/-- The state that a draw leaves, by its number. -/
def drawn : ℕ := congruential p.multiplier p.additiver.toNat s.value

theorem toNat_nrand48 : (nrand48 p s).2.toNat = (next p s).value / 2 ^ 17 := by
  have h0 := (next p s).w0.isLt
  have h1 := (next p s).w1.isLt
  have h2 := (next p s).w2.isLt
  have hhigh : (ulong (next p s).w2 * 0x8000#32).toNat = 2 ^ 15 * (next p s).w2.toNat := by
    rw [BitVec.toNat_mul, toNat_ulong]
    change (next p s).w2.toNat * 2 ^ 15 % 2 ^ 32 = _
    omega
  have hlow : (ulong (next p s).w1 >>> 1).toNat = (next p s).w1.toNat / 2 := by
    rw [BitVec.toNat_ushiftRight, toNat_ulong]
    rfl
  unfold nrand48 State.value Rand48.value
  dsimp only
  rw [BitVec.toNat_add, hhigh, hlow]
  omega

theorem and_top (x : BitVec 16) : x &&& 0x8000 ≠ 0 ↔ 2 ^ 15 ≤ x.toNat := by
  have hx := x.isLt
  have hbit : (x &&& 0x8000).toNat = (x.toNat.testBit 15).toNat * 2 ^ 15 := by
    rw [BitVec.toNat_and]
    exact Nat.and_two_pow x.toNat 15
  rw [Ne, ← BitVec.toNat_inj, hbit]
  cases htop : x.toNat.testBit 15 with
  | false =>
      rw [Nat.testBit_eq_decide_div_mod_eq, decide_eq_false_iff_not] at htop
      exact iff_of_false (fun h => h rfl) (by omega)
  | true =>
      rw [Nat.testBit_eq_decide_div_mod_eq, decide_eq_true_eq] at htop
      exact iff_of_true (by decide) (by omega)

theorem and_rest (x : BitVec 16) : (x &&& 0x7fff).toNat = x.toNat % 2 ^ 15 := by
  rw [BitVec.toNat_and]
  exact Nat.and_two_pow_sub_one_eq_mod x.toNat 15

theorem value_top (s : State) :
    s.value / 2 ^ 16 = 2 ^ 16 * s.w2.toNat + s.w1.toNat ∧ s.value / 2 ^ 32 = s.w2.toNat := by
  have h0 := s.w0.isLt
  have h1 := s.w1.isLt
  unfold State.value Rand48.value
  omega

theorem jrand48_nonneg (h : (next p s).w2.toNat < 2 ^ 15) :
    (jrand48 p s).2 = BitVec.ofNat 32 ((next p s).value / 2 ^ 16) := by
  unfold jrand48
  dsimp only
  rw [if_neg (by rw [and_top]; omega), and_rest, (value_top _).1, ← BitVec.toNat_inj]
  simp only [BitVec.toNat_add, BitVec.toNat_ofInt, BitVec.toNat_ofNat, toNat_ulong]
  omega

theorem jrand48_negative (h : 2 ^ 15 ≤ (next p s).w2.toNat) :
    (jrand48 p s).2 = BitVec.ofNat 32 ((next p s).value / 2 ^ 16) ↔
      (next p s).w2.toNat = 0xc000 := by
  have h1 := (next p s).w1.isLt
  unfold jrand48
  dsimp only
  rw [if_pos (by rw [and_top]; exact h), and_rest, (value_top _).1, ← BitVec.toNat_inj]
  simp only [BitVec.toNat_ofInt, BitVec.toNat_ofNat]
  omega

/-- Sign and magnitude in the place of two's complement: they agree on the numbers that are not
negative, and where the top word is `0xc000`. -/
theorem jrand48_iff : (jrand48 p s).2 = BitVec.ofNat 32 ((next p s).value / 2 ^ 16) ↔
    drawn p s < 2 ^ 47 ∨ drawn p s / 2 ^ 32 = 0xc000 := by
  have htop := (value_top (next p s)).2
  have hdrawn : drawn p s = (next p s).value := (next_value p s).symm
  rw [hdrawn, htop]
  rcases Nat.lt_or_ge (next p s).w2.toNat (2 ^ 15) with h | h
  · have hlow : (next p s).value < 2 ^ 47 := by omega
    exact iff_of_true (jrand48_nonneg p s h) (.inl hlow)
  · have hhigh : ¬ (next p s).value < 2 ^ 47 := by omega
    rw [jrand48_negative p s h]
    exact (or_iff_right hhigh).symm

/-- The four draws as POSIX has them, `x` being the number of the state that they leave: the top
31 bits, and the top 32 bits as a signed number. -/
def Prescribed (p : Parameters) (s : State) (x : ℕ) : Prop :=
  (nrand48 p s).2.toNat = x / 2 ^ 17 ∧ (lrand48 ⟨s, p⟩).2.toNat = x / 2 ^ 17 ∧
    (jrand48 p s).2.toInt = (BitVec.ofNat 32 (x / 2 ^ 16)).toInt ∧
    (mrand48 ⟨s, p⟩).2.toInt = (BitVec.ofNat 32 (x / 2 ^ 16)).toInt

theorem draws_prescribed_iff : Prescribed p s (next p s).value ↔
    drawn p s < 2 ^ 47 ∨ drawn p s / 2 ^ 32 = 0xc000 := by
  have hn := toNat_nrand48 p s
  rw [← jrand48_iff, ← BitVec.toInt_inj]
  exact ⟨fun h => h.2.2.1, fun h => ⟨hn, hn, h, h⟩⟩

/-- The first number after `srand48 (2)`: `0x6995` is not the distance of `0xe995` from
`0x10000`. -/
theorem mrand48_seeded :
    (mrand48 (srand48 2)).2.toInt = -1771360330 ∧
      ¬ Prescribed RAND48 (srand48 2).internalState
        (next RAND48 (srand48 2).internalState).value := by
  unfold Prescribed
  decide

end DjgppLibc.Rand48
