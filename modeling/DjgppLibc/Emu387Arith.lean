import DjgppLibc.Emu387Entry
import DjgppLibc.Emu387Save

/-!
# The arithmetic of the 387 emulator

`r_add`, `r_sub`, `r_mul` and `r_div` on registers, and `r_mov` from the formats of memory.
The two halves of a significand are one number of 64 bits here: the loops over its 16-bit
parts add, subtract and multiply with carries. An exponent is a `short`, and may be
negative.

The local register that takes a quotient is not initialized in the source, and one branch
of `r_div` leaves it alone: its contents are an argument.
-/
namespace DjgppLibc.Emu387

open X86

def EXP_BIAS : ℕ := 16383

def EX_Z : BitVec 16 := 0x0084

def CONST_1 : Reg := ⟨false, .valid, 16383, 0, 0x80000000⟩
def CONST_Z : Reg := ⟨false, .zero, 0, 0, 0⟩
def CONST_PINF : Reg := ⟨false, .special, 32767, 0, 0x80000000⟩
def CONST_NINF : Reg := ⟨true, .special, 32767, 0, 0x80000000⟩

def Reg.sig (r : Reg) : BitVec 64 := r.sigh ++ r.sigl

def Reg.setSig (r : Reg) (sig : BitVec 64) : Reg :=
  { r with sigh := (sig >>> 32).setWidth 32, sigl := sig.setWidth 32 }

def Reg.shiftTop (r : Reg) : Reg :=
  let (exp, sig) := shiftUp r.exp.toNat r.sig
  { r.setSig sig with exp := BitVec.ofNat 16 exp }

/-- `normalize`, for every exponent. -/
def normalizeShort (r : Reg) : Reg :=
  if r.sig = 0 then { r with exp := 0, tag := .zero }
  else if r.exp.toInt > EXP_MAX then { r with tag := .special }
  else r.shiftTop

inductive NanType
  | none
  | snan
  | qnan
deriving DecidableEq

def nanType (r : Reg) : NanType :=
  if r.exp.toInt ≠ EXP_MAX + 1 then .none
  else if r.sigh &&& 0x40000000 ≠ 0 then .qnan
  else if r.sigh &&& 0x3fffffff ≠ 0 ∨ r.sigl ≠ 0 then .snan
  else .none

instance (a b : Reg) : Decidable (valSame a b) := inferInstanceAs (Decidable (_ ∧ _ ∧ _ ∧ _))

def isInf (r : Reg) : Prop := valSame r CONST_PINF ∨ valSame r CONST_NINF

instance : DecidablePred isInf := fun _ => inferInstanceAs (Decidable (_ ∨ _))

/-- The sign of the difference of two magnitudes, by exponents first. -/
def dif (a b : Reg) : ℤ :=
  let d := a.exp.toInt - b.exp.toInt
  let d := if d = 0 then (if a.sigh > b.sigh then 1 else if a.sigh < b.sigh then -1 else 0) else d
  if d = 0 then (if a.sigl > b.sigl then 1 else if a.sigl < b.sigl then -1 else 0) else d

/-- `r_uadd`; the signs are ignored. -/
def rUadd (a b : Reg) : Reg :=
  let (s, t) := if dif a b > 0 then (a, b) else (b, a)
  if s.exp.toInt - t.exp.toInt > 64 then s
  else
    -- `t` is shifted until its exponent is that of `s`.
    let sum := s.sig.toNat + (t.sig >>> (s.exp.toInt - t.exp.toInt).toNat).toNat
    let s := s.setSig (BitVec.ofNat 64 sum)
    let s :=
      if sum ≥ 2 ^ 64 then { s.setSig (s.sig >>> 1 ||| (1 <<< 63 : BitVec 64)) with exp := s.exp + 1 } else s
    if s.sig = 0 then { s with exp := 0, tag := .zero } else s.shiftTop

/-- `r_usub`, where `a` is not less than `b`. -/
def rUsub (a b : Reg) : Reg :=
  if a.exp.toInt - b.exp.toInt > 64 then a
  else
    let d := a.setSig (a.sig - b.sig >>> (a.exp.toInt - b.exp.toInt).toNat)
    if d.sig = 0 then { d with exp := 0, tag := .zero } else d.shiftTop

structure Outcome where
  raised : Option (BitVec 16)
  reg : Reg
deriving DecidableEq

def Outcome.plain (r : Reg) : Outcome := ⟨none, r⟩

def Outcome.invalid : Outcome := ⟨some EX_I, CONST_NAN⟩

/-- `r_sub` -/
def rSub (a b : Reg) : Outcome :=
  if b.tag = .zero then .plain a
  else if a.tag = .zero then .plain { b with sign := !b.sign }
  else if a.tag = .special then
    if b.tag = .special ∧ nanType b = .none ∧ a.sign = b.sign then .invalid else .plain a
  else if b.tag = .special then .plain { b with sign := !b.sign }
  else if a.sign = b.sign then
    if dif a b > 0 then .plain { rUsub a b with sign := a.sign }
    else .plain { rUsub b a with sign := !a.sign }
  else .plain { rUadd a b with sign := a.sign }

/-- `r_add` -/
def rAdd (a b : Reg) : Outcome :=
  if a.tag = .zero then
    .plain (if b.tag = .zero ∧ a.sign ≠ b.sign then { b with sign := false } else b)
  else if b.tag = .zero then .plain a
  else if a.tag = .special then
    if a.sign ≠ b.sign ∧ nanType a = .none ∧ nanType b = .none then .invalid else .plain a
  else if b.tag = .special then .plain b
  else if a.sign = b.sign then .plain { rUadd a b with sign := a.sign }
  else if a.sign then rSub b { a with sign := !a.sign }
  else rSub a { b with sign := !b.sign }

/-- The end of `r_mul` and of `r_div`: the sign, and `normalize`. -/
def Outcome.finish (o : Outcome) (a b : Reg) : Outcome :=
  { o with reg := normalizeShort { o.reg with sign := a.sign != b.sign } }

def biasedExp (a b : Reg) : ℤ := a.exp.toInt + (b.exp.toInt - EXP_BIAS + 1)

def productSig (a b : Reg) : BitVec 64 := BitVec.ofNat 64 (a.sig.toNat * b.sig.toNat / 2 ^ 64)

/-- `r_mul` -/
def rMul (a b : Reg) : Outcome :=
  Outcome.finish (a := a) (b := b) <|
    if a.tag = .zero then
      if b.tag = .special ∧ isInf b then .invalid else .plain CONST_Z
    else if b.tag = .zero then
      if a.tag = .special ∧ isInf a then .invalid else .plain CONST_Z
    else if a.tag = .special then .plain a
    else if b.tag = .special then .plain b
    else
      let exp := if biasedExp a b > EXP_MAX then (EXP_MAX : ℤ) + 1 else biasedExp a b
      .plain (Reg.setSig ⟨false, .valid, BitVec.ofInt 16 exp, 0, 0⟩ (productSig a b))

/-- The loop of `r_div`. -/
def divLoop : ℕ → BitVec 64 → BitVec 64 → BitVec 64 → BitVec 64 → BitVec 64
  | 0, _, _, ql, _ => ql
  | n + 1, al, bl, ql, f =>
      if al ≥ bl then divLoop n (al - bl) (bl >>> 1) (ql + f) (f >>> 1)
      else divLoop n al (bl >>> 1) ql (f >>> 1)

/-- The exponent of a quotient, before it becomes a `short`. -/
def quotientExp (a b : Reg) : ℤ := a.exp.toInt - b.exp.toInt + EXP_BIAS

/-- `r_div`, with the contents of the register that is not initialized. -/
def rDiv (q a b : Reg) : Outcome :=
  Outcome.finish (a := a) (b := b) <|
    if a.tag = .special then
      if isInf a then if isInf b then .invalid else .plain a
      else if a.exp.toInt > EXP_MAX then .plain CONST_NAN
      else .plain q
    else if b.tag = .special then
      if isInf b then .plain CONST_Z
      else if a.exp.toInt > EXP_MAX then .plain CONST_NAN
      else .plain q
    else if a.tag = .zero then
      if b.tag = .zero then .invalid else .plain a
    else if b.tag = .zero then ⟨some EX_Z, CONST_PINF⟩
    else
      let exp := BitVec.ofInt 16 (quotientExp a b)
      if exp.toInt > EXP_MAX then .plain CONST_PINF
      else if exp.toInt ≤ 0 then .plain CONST_Z
      else .plain (Reg.setSig ⟨q.sign, .valid, exp, 0, 0⟩ (divLoop 64 a.sig b.sig 0 (1 <<< 63)))

/-- `r_mov` from a `double`, whose upper half is `m64`. -/
def rMovDouble (m64 l64 : BitVec 32) : Reg :=
  let sign := m64 &&& 0x80000000 ≠ 0
  if (m64 &&& 0x7fffffff) ||| l64 = 0 then { CONST_Z with sign := sign }
  else
    normalizeShort
      { sign := sign
        exp :=
          if m64 &&& 0x7ff00000 = 0x7ff00000 then 32767
          else ((m64 >>> 20) &&& 0x7ff).setWidth 16 - 1023 + 16383
        sigh := (m64 &&& 0xfffff) <<< 11 ||| (0x80000000 : BitVec 32) ||| l64 >>> 21
        sigl := l64 <<< 11
        tag := .valid }

/-- `r_mov` from a `float`. -/
def rMovFloat (m32 : BitVec 32) : Reg :=
  let sign := m32 &&& 0x80000000 ≠ 0
  if m32 &&& 0x7fffffff = 0 then { CONST_Z with sign := sign }
  else
    normalizeShort
      { sign := sign
        exp :=
          if m32 &&& 0x7f800000 = 0x7f800000 then 32767
          else ((m32 >>> 23) &&& 0xff).setWidth 16 - 127 + 16383
        sigh := (m32 &&& 0x7fffff) <<< 8 ||| (0x80000000 : BitVec 32)
        sigl := 0
        tag := .valid }

/-- `r_mov` from an integer of a number of bits. The loops shift until the top bit is set,
which it is before the exponent is zero. -/
def rMovInt (bits : ℕ) (s : ℤ) : Reg :=
  if s = 0 then CONST_Z
  else
    let (e, sig) := shiftUp (EXP_BIAS + bits - 1) (BitVec.ofNat 64 (s.natAbs * 2 ^ (64 - bits)))
    normalizeShort (Reg.setSig ⟨decide (s < 0), .valid, BitVec.ofNat 16 e, 0, 0⟩ sig)

def rMovShort (s : BitVec 16) : Reg := rMovInt 16 s.toInt

def rMovLong (s : BitVec 32) : Reg := rMovInt 32 s.toInt

def rMovLongLong (s : BitVec 64) : Reg := rMovInt 64 s.toInt

end DjgppLibc.Emu387
