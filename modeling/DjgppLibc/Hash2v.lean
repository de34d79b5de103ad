import Mathlib.Algebra.GroupWithZero.Nat
import Mathlib.Data.List.GetD
import Mathlib.Tactic.Choose
import Mathlib.Tactic.SplitIfs

/-!
# The hash of `_hash2v.c`

`_hash2v` finds the length of its string while it hashes; `hash` is the function
that it comes from, which is told the length. Memory gives `none` where nothing may
be read, and a read there fails the whole call. Offsets are from the start of the
string. `unsigned long` has 32 bits.
-/
namespace DjgppLibc.Hash2v

abbrev Memory := ℕ → Option (BitVec 8)

/-- The variables `a`, `b` and `c`. -/
structure Abc where
  a : BitVec 32
  b : BitVec 32
  c : BitVec 32
  deriving DecidableEq, Repr

/-- One line of `mix`: `x -= y; x -= z; x ^= shifted`. -/
def mixLine (x y z : BitVec 32) (shifted : BitVec 32 → BitVec 32) : BitVec 32 :=
  (x - y - z) ^^^ shifted z

def mix (h : Abc) : Abc :=
  let a := mixLine h.a h.b h.c (· >>> 13)
  let b := mixLine h.b h.c a (· <<< 8)
  let c := mixLine h.c a b (· >>> 13)
  let a := mixLine a b c (· >>> 12)
  let b := mixLine b c a (· <<< 16)
  let c := mixLine c a b (· >>> 5)
  let a := mixLine a b c (· >>> 3)
  let b := mixLine b c a (· <<< 10)
  let c := mixLine c a b (· >>> 15)
  ⟨a, b, c⟩

variable (k : Memory)

/-- `(unsigned long)k[i] << shift` -/
def shifted (i shift : ℕ) : Option (BitVec 32) :=
  (k i).map fun x => (x.setWidth 32).shiftLeft shift

def word (i : ℕ) : Option (BitVec 32) := do
  return (← shifted k i 0) + (← shifted k (i + 1) 8) + (← shifted k (i + 2) 16) +
    (← shifted k (i + 3) 24)

def block (pos : ℕ) (h : Abc) : Option Abc := do
  let a := h.a + (← word k pos)
  let b := h.b + (← word k (pos + 4))
  let c := h.c + (← word k (pos + 8))
  return mix ⟨a, b, c⟩

/-- The case `i + 1` of the switch on `which`, to which the cases above it fall through. -/
def fall (pos which i shift : ℕ) (x : BitVec 32) : Option (BitVec 32) :=
  if i < which then (shifted k (pos + i) shift).map fun y => x + y else some x

/-- The last bytes. The low byte of `c` is reserved for the length. -/
def lastBytes (pos which : ℕ) (h : Abc) : Option Abc := do
  let c ← fall k pos which 10 24 h.c
  let c ← fall k pos which 9 16 c
  let c ← fall k pos which 8 8 c
  let b ← fall k pos which 7 24 h.b
  let b ← fall k pos which 6 16 b
  let b ← fall k pos which 5 8 b
  let b ← fall k pos which 4 0 b
  let a ← fall k pos which 3 24 h.a
  let a ← fall k pos which 2 16 a
  let a ← fall k pos which 1 8 a
  let a ← fall k pos which 0 0 a
  return ⟨a, b, c⟩

def golden : BitVec 32 := 0x9e3779b9

def nulAmong (pos : ℕ) : ℕ → ℕ → Option ℕ
  | 0, which => some which
  | n + 1, which => do
      if (← k (pos + which)) = 0 then return which
      nulAmong pos n (which + 1)

/-- The loop `while( cont )`: the place of the last bytes, their number, `len` and the state. -/
def hash2vLoop : ℕ → ℕ → BitVec 32 → Abc → Option (ℕ × ℕ × BitVec 32 × Abc)
  | 0, _, _, _ => none
  | n + 1, pos, len, h => do
      let which ← nulAmong k pos 12 0
      if which < 12 then return (pos, which, len, h)
      hash2vLoop n (pos + 12) (len + 12) (← block k pos h)

/-- The result and `*v2`. -/
def hash2v (fuel : ℕ) : Option (BitVec 32 × BitVec 32) := do
  let (pos, which, len, h) ← hash2vLoop k fuel 0 0 ⟨golden, golden, 0⟩
  let len := len + BitVec.ofNat 32 which
  let h := mix (← lastBytes k pos which { h with c := h.c + len })
  return (h.c, h.b)

/-- The loop `while (len >= 12)`: the place of the last bytes, their number and the state. -/
def hashLoop (pos len : ℕ) (h : Abc) : Option (ℕ × ℕ × Abc) :=
  if 12 ≤ len then (block k pos h).bind fun h => hashLoop (pos + 12) (len - 12) h
  else some (pos, len, h)
  termination_by len

def hash (length initval : BitVec 32) : Option (BitVec 32) := do
  let (pos, len, h) ← hashLoop k 0 length.toNat ⟨golden, golden, initval⟩
  let h := mix (← lastBytes k pos len { h with c := h.c + length })
  return h.c

def stringAt (s : List (BitVec 8)) : Memory := fun i => (s ++ [0])[i]?

variable {s : List (BitVec 8)} {pos which n : ℕ} {h : Abc}

theorem stringAt_eq {i : ℕ} (hi : i ≤ s.length) : stringAt s i = some (s.getD i 0) := by
  unfold stringAt
  rcases Nat.lt_or_eq_of_le hi with hlt | rfl
  · rw [List.getElem?_append_left hlt, List.getD_eq_getElem?_getD]
    simp [hlt]
  · simp

theorem shifted_stringAt {i : ℕ} (hi : i ≤ s.length) (shift : ℕ) :
    shifted (stringAt s) i shift = some (((s.getD i 0).setWidth 32).shiftLeft shift) := by
  unfold shifted
  rw [stringAt_eq hi]
  rfl

theorem word_stringAt {i : ℕ} (hi : i + 3 ≤ s.length) : ∃ x, word (stringAt s) i = some x := by
  unfold word
  rw [shifted_stringAt (by omega), shifted_stringAt (by omega), shifted_stringAt (by omega),
    shifted_stringAt hi]
  exact ⟨_, rfl⟩

theorem block_stringAt (hpos : pos + 12 ≤ s.length) (h : Abc) :
    ∃ h', block (stringAt s) pos h = some h' := by
  obtain ⟨x, hx⟩ := word_stringAt (s := s) (i := pos) (by omega)
  obtain ⟨y, hy⟩ := word_stringAt (s := s) (i := pos + 4) (by omega)
  obtain ⟨z, hz⟩ := word_stringAt (s := s) (i := pos + 8) (by omega)
  unfold block
  rw [hx, hy, hz]
  exact ⟨_, rfl⟩

theorem fall_stringAt (hpos : pos + which ≤ s.length) (i shift : ℕ) (x : BitVec 32) :
    ∃ y, fall (stringAt s) pos which i shift x = some y := by
  unfold fall
  split_ifs with hi
  · rw [shifted_stringAt (by omega)]
    exact ⟨_, rfl⟩
  · exact ⟨x, rfl⟩

theorem lastBytes_stringAt (hpos : pos + which ≤ s.length) (h : Abc) :
    ∃ h', lastBytes (stringAt s) pos which h = some h' := by
  choose y hy using fall_stringAt hpos
  unfold lastBytes
  simp only [hy]
  exact ⟨_, rfl⟩

/-- The search goes no further than to the NUL. -/
theorem nulAmong_stringAt (hs : ∀ x ∈ s, x ≠ 0) (hpos : pos + which ≤ s.length) :
    nulAmong (stringAt s) pos n which = some (min (which + n) (s.length - pos)) := by
  induction n generalizing which with
  | zero => rw [nulAmong, Nat.min_eq_left (by omega), Nat.add_zero]
  | succ n ih =>
      rw [nulAmong, stringAt_eq hpos, Option.bind_eq_bind, Option.bind_some]
      rcases Nat.lt_or_eq_of_le hpos with hlt | heq
      · have hbyte : s.getD (pos + which) 0 ≠ 0 := by
          rw [List.getD_eq_getElem _ _ hlt]
          exact hs _ (List.getElem_mem hlt)
        rw [if_neg hbyte]
        change nulAmong (stringAt s) pos n (which + 1) = _
        rw [ih (by omega)]
        congr 2
        omega
      · have hbyte : s.getD (pos + which) 0 = 0 := List.getD_eq_default _ _ (Nat.le_of_eq heq.symm)
        rw [if_pos hbyte, Nat.min_eq_right (by omega), ← heq, Nat.add_sub_cancel_left]
        rfl

/-- Both loops take the same blocks. What is left is the last bytes, with their place in `len`. -/
theorem loops_stringAt (hs : ∀ x ∈ s, x ≠ 0) {rest : ℕ} (hpos : pos + rest = s.length) (h : Abc) :
    ∃ pos' which h', pos' + which = s.length ∧
      (∀ fuel > rest, hash2vLoop (stringAt s) fuel pos (BitVec.ofNat 32 pos) h =
        some (pos', which, BitVec.ofNat 32 pos', h')) ∧
      hashLoop (stringAt s) pos rest h = some (pos', which, h') := by
  induction rest using Nat.strongRecOn generalizing pos h with
  | ind rest ih =>
      by_cases hblock : 12 ≤ rest
      · have hin : pos + 12 ≤ s.length := by omega
        have hpos' : pos + 12 + (rest - 12) = s.length := by omega
        obtain ⟨h₁, hh₁⟩ := block_stringAt hin h
        obtain ⟨pos', which, h', hend, hloop, hloop'⟩ :=
          ih (rest - 12) (by omega) hpos' h₁
        refine ⟨pos', which, h', hend, fun fuel hfuel => ?_, ?_⟩
        · obtain ⟨n, rfl⟩ : ∃ n, fuel = n + 1 := ⟨fuel - 1, by omega⟩
          rw [hash2vLoop, nulAmong_stringAt hs (by omega), Nat.min_eq_left (by omega),
            ← hloop n (by omega), BitVec.ofNat_add]
          change (block (stringAt s) pos h).bind _ = _
          rw [hh₁]
          rfl
        · rw [hashLoop, if_pos hblock, hh₁]
          exact hloop'
      · refine ⟨pos, rest, h, hpos, fun fuel hfuel => ?_, by rw [hashLoop, if_neg hblock]⟩
        obtain ⟨n, rfl⟩ : ∃ n, fuel = n + 1 := ⟨fuel - 1, by omega⟩
        rw [hash2vLoop, nulAmong_stringAt hs (by omega), Nat.min_eq_right (by omega), ← hpos,
          Nat.add_sub_cancel_left]
        change (if rest < 12 then _ else _) = _
        rw [if_pos (by omega)]
        rfl

/-- `_hash2v` returns what `hash` returns, and in both every read is of the string or its NUL. -/
theorem hash2v_eq_hash (s : List (BitVec 8)) (hs : ∀ x ∈ s, x ≠ 0) (hlen : s.length < 2 ^ 32) :
    ∃ limit v v2, hash (stringAt s) (BitVec.ofNat 32 s.length) 0 = some v ∧
      ∀ fuel ≥ limit, hash2v (stringAt s) fuel = some (v, v2) := by
  have hlength : (BitVec.ofNat 32 s.length).toNat = s.length := Nat.mod_eq_of_lt hlen
  obtain ⟨pos, which, h, hend, hloop, hloop'⟩ :=
    loops_stringAt hs (Nat.zero_add s.length) ⟨golden, golden, 0⟩
  obtain ⟨h', hlast⟩ := lastBytes_stringAt (Nat.le_of_eq hend)
    { h with c := h.c + BitVec.ofNat 32 s.length }
  refine ⟨s.length + 1, (mix h').c, (mix h').b, ?_, fun fuel hfuel => ?_⟩
  · unfold hash
    rw [hlength, hloop']
    change (lastBytes _ _ _ _).bind _ = _
    rw [hlast]
    rfl
  · have hlen' : BitVec.ofNat 32 pos + BitVec.ofNat 32 which = BitVec.ofNat 32 s.length := by
      rw [← BitVec.ofNat_add, hend]
    have hstart : hash2vLoop (stringAt s) fuel 0 0 ⟨golden, golden, 0⟩ = _ := hloop fuel hfuel
    unfold hash2v
    rw [hstart]
    change (lastBytes (stringAt s) pos which
      { h with c := h.c + (BitVec.ofNat 32 pos + BitVec.ofNat 32 which) }).bind _ = _
    rw [hlen', hlast]
    rfl

/-- Thirteen bytes: one block, and one last byte. -/
theorem hash2v_eq_hash_thirteen :
    ∃ limit v v2, hash (stringAt (List.replicate 13 0x61)) (BitVec.ofNat 32 13) 0 = some v ∧
      ∀ fuel ≥ limit, hash2v (stringAt (List.replicate 13 0x61)) fuel = some (v, v2) :=
  hash2v_eq_hash (List.replicate 13 0x61) (by decide) (by decide)

end DjgppLibc.Hash2v
