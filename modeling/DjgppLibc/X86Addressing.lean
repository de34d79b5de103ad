import Mathlib.Algebra.GroupWithZero.Nat
import Mathlib.Data.Nat.Notation

/-!
# Addressing modes

The operand in memory that follows an opcode: the ModRM byte, with 32-bit addresses
the SIB byte, and the displacement. The rules are those of the processor's manual.
An address is a list of registers with factors and a displacement; registers have
the numbers that instructions have for them.
-/
namespace DjgppLibc.X86

abbrev Byte := BitVec 8

instance instNeZeroEight : NeZero 8 := ⟨by decide⟩

instance instNeZeroSixtyFour : NeZero 64 := ⟨by decide⟩

structure Address (w : ℕ) where
  terms : List (Fin 8 × ℕ)
  disp : BitVec w
deriving DecidableEq

def Address.eval {w : ℕ} (a : Address w) (r : Fin 8 → BitVec w) : BitVec w :=
  (a.terms.map fun t => r t.1 * BitVec.ofNat w t.2).foldr (· + ·) a.disp

/-- The fields of a ModRM byte. The SIB byte has its factor, index and base there. -/
def modOf (b : Byte) : ℕ := b.toNat / 64

def regOf (b : Byte) : Fin 8 := ⟨b.toNat / 8 % 8, Nat.mod_lt _ (by decide)⟩

def rmOf (b : Byte) : Fin 8 := ⟨b.toNat % 8, Nat.mod_lt _ (by decide)⟩

def littleEndian : List Byte → ℕ
  | [] => 0
  | b :: bs => b.toNat + 256 * littleEndian bs

/-- A displacement of a number of bytes, of which one is extended by its sign. -/
def takeDisp (w size : ℕ) (code : List Byte) : Option (BitVec w × List Byte) :=
  if code.length < size then none
  else if size = 1 then some ((code.headD 0).signExtend w, code.drop 1)
  else some (BitVec.ofNat w (littleEndian (code.take size)), code.drop size)

def dispSize (mod full : ℕ) : ℕ := if mod = 1 then 1 else if mod = 2 then full else 0

def withDisp (w size : ℕ) (terms : List (Fin 8 × ℕ)) (code : List Byte) :
    Option (Address w × List Byte) :=
  (takeDisp w size code).map fun d => (⟨terms, d.1⟩, d.2)

def decodeSib (mod : ℕ) : List Byte → Option (Address 32 × List Byte)
  | [] => none
  | sib :: code =>
      let index := if regOf sib = 4 then [] else [(regOf sib, 2 ^ modOf sib)]
      if mod = 0 ∧ rmOf sib = 5 then withDisp 32 4 index code
      else withDisp 32 (dispSize mod 4) ((rmOf sib, 1) :: index) code

def decode32 (modrm : Byte) (code : List Byte) : Option (Address 32 × List Byte) :=
  if modOf modrm = 3 then none
  else if rmOf modrm = 4 then decodeSib (modOf modrm) code
  else if modOf modrm = 0 ∧ rmOf modrm = 5 then withDisp 32 4 [] code
  else withDisp 32 (dispSize (modOf modrm) 4) [(rmOf modrm, 1)] code

/-- The registers of a 16-bit address: BX is 3, BP is 5, SI is 6 and DI is 7. -/
def terms16 (rm : Fin 8) : List (Fin 8 × ℕ) :=
  match rm with
  | 0 => [(3, 1), (6, 1)]
  | 1 => [(3, 1), (7, 1)]
  | 2 => [(5, 1), (6, 1)]
  | 3 => [(5, 1), (7, 1)]
  | 4 => [(6, 1)]
  | 5 => [(7, 1)]
  | 6 => [(5, 1)]
  | 7 => [(3, 1)]

def decode16 (modrm : Byte) (code : List Byte) : Option (Address 16 × List Byte) :=
  if modOf modrm = 3 then none
  else if modOf modrm = 0 ∧ rmOf modrm = 6 then withDisp 16 2 [] code
  else withDisp 16 (dispSize (modOf modrm) 2) (terms16 (rmOf modrm)) code

/-! ## The displacement apart

What the first bytes say does not depend on the displacement: its size, and the registers.
-/

def layoutSib (mod : ℕ) (sib : Byte) : ℕ × List (Fin 8 × ℕ) :=
  let index := if regOf sib = 4 then [] else [(regOf sib, 2 ^ modOf sib)]
  if mod = 0 ∧ rmOf sib = 5 then (4, index) else (dispSize mod 4, (rmOf sib, 1) :: index)

def layout32 (modrm : Byte) : ℕ × List (Fin 8 × ℕ) :=
  if modOf modrm = 0 ∧ rmOf modrm = 5 then (4, []) else (dispSize (modOf modrm) 4,
    [(rmOf modrm, 1)])

def layout16 (modrm : Byte) : ℕ × List (Fin 8 × ℕ) :=
  if modOf modrm = 0 ∧ rmOf modrm = 6 then (2, []) else (dispSize (modOf modrm) 2,
    terms16 (rmOf modrm))

theorem decode32_of_sib {modrm : Byte} (h : modOf modrm ≠ 3) (hrm : rmOf modrm = 4) (sib : Byte)
    (code : List Byte) :
    decode32 modrm (sib :: code) =
      withDisp 32 (layoutSib (modOf modrm) sib).1 (layoutSib (modOf modrm) sib).2 code := by
  rw [decode32, if_neg h, if_pos hrm, decodeSib, layoutSib]
  split <;> rfl

theorem decode32_of_rm {modrm : Byte} (h : modOf modrm ≠ 3) (hrm : rmOf modrm ≠ 4)
    (code : List Byte) :
    decode32 modrm code = withDisp 32 (layout32 modrm).1 (layout32 modrm).2 code := by
  rw [decode32, if_neg h, if_neg hrm, layout32]
  split <;> rfl

theorem decode16_of_mod {modrm : Byte} (h : modOf modrm ≠ 3) (code : List Byte) :
    decode16 modrm code = withDisp 16 (layout16 modrm).1 (layout16 modrm).2 code := by
  rw [decode16, if_neg h, layout16]
  split <;> rfl

end DjgppLibc.X86
