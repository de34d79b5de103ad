import DjgppLibc.Emu387

/-!
# `fsave` and `frstor`

`fsave` stores the words of the coprocessor and its registers into memory, the
registers by their places on the stack and their tags by their numbers, and `frstor`
loads them. The loop of `frstor` loads each register from the place of the second one,
and the top of the stack is taken from two of its three bits.
-/
namespace DjgppLibc.Emu387

open X86

abbrev Memory := BitVec 32 → Byte

def poke (mem : Memory) (addr : BitVec 32) (off : ℕ) (b : Byte) : Memory :=
  fun a => if a = addr + BitVec.ofNat 32 off then b else mem a

def peek (mem : Memory) (addr : BitVec 32) (off : ℕ) : Byte := mem (addr + BitVec.ofNat 32 off)

def pokeShort (mem : Memory) (addr : BitVec 32) (off : ℕ) (v : BitVec 16) : Memory :=
  poke (poke mem addr off (v.setWidth 8)) addr (off + 1) ((v >>> 8).setWidth 8)

def pokeInt (mem : Memory) (addr : BitVec 32) (off : ℕ) (v : BitVec 32) : Memory :=
  pokeShort (pokeShort mem addr off (v.setWidth 16)) addr (off + 2) ((v >>> 16).setWidth 16)

def peekShort (mem : Memory) (addr : BitVec 32) (off : ℕ) : BitVec 16 :=
  peek mem addr (off + 1) ++ peek mem addr off

def peekInt (mem : Memory) (addr : BitVec 32) (off : ℕ) : BitVec 32 :=
  peekShort mem addr (off + 2) ++ peekShort mem addr off

def SW_TOP : BitVec 16 := 0x3800

def EXP_MAX : ℕ := 32766

def Tag.word : Tag → ℕ
  | .valid => 0
  | .zero => 1
  | .special => 2
  | .empty => 3

def Tag.ofWord : ℕ → Tag
  | 0 => .valid
  | 1 => .zero
  | 2 => .special
  | _ => .empty

/-- `r_mov` to a `long double`. -/
def storeReg (r : Reg) (addr : BitVec 32) (off : ℕ) (mem : Memory) : Memory :=
  let mem := pokeShort mem addr (off + 8) (r.exp + if r.sign then 0x8000 else 0)
  let mem := pokeInt mem addr off r.sigl
  pokeInt mem addr (off + 4) r.sigh

/-- The loop of `normalize`, over the exponent. -/
def shiftUp : ℕ → BitVec 64 → ℕ × BitVec 64
  | 0, sig => (0, sig)
  | exp + 1, sig => if sig.msb then (exp + 1, sig) else shiftUp exp (sig <<< 1)

/-- `normalize`, for an exponent that is not negative. -/
def normalize (r : Reg) : Reg :=
  if r.sigl ||| r.sigh = 0 then { r with exp := 0, tag := .zero }
  else if r.exp.toNat > EXP_MAX then { r with tag := .special }
  else
    let (exp, sig) := shiftUp r.exp.toNat (r.sigh ++ r.sigl)
    { r with exp := BitVec.ofNat 16 exp, sigh := (sig >>> 32).setWidth 32, sigl := sig.setWidth 32 }

/-- `r_mov` from a `long double`. -/
def loadReg (mem : Memory) (addr : BitVec 32) (off : ℕ) : Reg :=
  let sp2 := peekInt mem addr (off + 8)
  normalize
    { sign := sp2 &&& 0x8000 ≠ 0
      exp := (sp2 &&& 0x7fff).setWidth 16
      sigh := peekInt mem addr (off + 4)
      sigl := peekInt mem addr off
      tag := .valid }

/-- One round of the loop of `fsave`. -/
def saveStep (f : Fpu) (addr : BitVec 32) (s : BitVec 32 × Memory) (i : Fin 8) :
    BitVec 32 × Memory :=
  (s.1 ||| (BitVec.ofNat 32 (f.st i).tag.word <<< ((f.top + i).val * 2)),
    storeReg (f.st i) addr (0x1c + i.val * 10) s.2)

/-- `emu_56` with the address of its operand. -/
def fsave (f : Fpu) (addr : BitVec 32) (mem : Memory) : Fpu × Memory :=
  let f := { f with statusWord := (f.statusWord &&& ~~~SW_TOP) + BitVec.ofNat 16 (f.top.val * 0x0800) }
  let mem := pokeInt mem addr 0 (f.controlWord.setWidth 32)
  let mem := pokeInt mem addr 4 (f.statusWord.setWidth 32)
  let (tagWord, mem) := (List.finRange 8).foldl (saveStep f addr) (0, mem)
  (f, pokeInt mem addr 8 (tagWord &&& 0xffff))

/-- One round of the loop of `frstor`. -/
def loadStep (addr : BitVec 32) (mem : Memory) (tagWord : BitVec 32) (f : Fpu) (i : Fin 8) : Fpu :=
  let f := f.setSt i (loadReg mem addr (0x1c + 10))
  f.setSt i { f.st i with tag := .ofWord ((tagWord >>> ((i + f.top).val * 2)) &&& 3).toNat }

/-- `emu_54` with the address of its operand. -/
def frstor (f : Fpu) (addr : BitVec 32) (mem : Memory) : Fpu :=
  let statusWord := (peekInt mem addr 4).setWidth 16
  let tagWord := peekInt mem addr 8 &&& 0xffff
  let f := { f with
    controlWord := (peekInt mem addr 0).setWidth 16
    statusWord := statusWord
    top := ⟨statusWord.toNat / 0x0800 % 4, Nat.lt_of_lt_of_le (Nat.mod_lt _ (by decide))
      (by decide)⟩ }
  (List.finRange 8).foldl (loadStep addr mem tagWord) f

variable {mem : Memory} {addr : BitVec 32} {off off' : ℕ}

theorem peek_poke (mem : Memory) (addr : BitVec 32) (b : Byte) (h : off < 2 ^ 32)
    (h' : off' < 2 ^ 32) :
    peek (poke mem addr off b) addr off' = if off' = off then b else peek mem addr off' := by
  have hinj : addr + BitVec.ofNat 32 off' = addr + BitVec.ofNat 32 off ↔ off' = off := by
    rw [BitVec.add_right_inj]
    constructor
    · intro he
      have := congrArg BitVec.toNat he
      rwa [BitVec.toNat_ofNat, BitVec.toNat_ofNat, Nat.mod_eq_of_lt h, Nat.mod_eq_of_lt h'] at this
    · rintro rfl
      rfl
  simp only [peek, poke, hinj]

theorem peek_pokeShort (mem : Memory) (addr : BitVec 32) (v : BitVec 16) (h : off + 1 < 2 ^ 32)
    (h' : off' < 2 ^ 32) (hne : off' < off ∨ off + 2 ≤ off') :
    peek (pokeShort mem addr off v) addr off' = peek mem addr off' := by
  rw [pokeShort, peek_poke _ _ _ h h', if_neg (by omega), peek_poke _ _ _ (by omega) h',
    if_neg (by omega)]

theorem peek_pokeInt (mem : Memory) (addr : BitVec 32) (v : BitVec 32) (h : off + 3 < 2 ^ 32)
    (h' : off' < 2 ^ 32) (hne : off' < off ∨ off + 4 ≤ off') :
    peek (pokeInt mem addr off v) addr off' = peek mem addr off' := by
  rw [pokeInt, peek_pokeShort _ _ _ (by omega) h' (by omega),
    peek_pokeShort _ _ _ (by omega) h' (by omega)]

theorem append_setWidth (v : BitVec 16) :
    (v >>> 8).setWidth 8 ++ v.setWidth 8 = v := by
  apply BitVec.eq_of_toNat_eq
  have := v.isLt
  rw [toNat_append_byte]
  simp only [BitVec.toNat_setWidth, BitVec.toNat_ushiftRight, Nat.shiftRight_eq_div_pow]
  omega

theorem toNat_append_short (x y : BitVec 16) : (x ++ y).toNat = x.toNat * 65536 + y.toNat := by
  rw [BitVec.toNat_append, ← Nat.shiftLeft_add_eq_or_of_lt y.isLt, Nat.shiftLeft_eq]

theorem append_setWidth_short (v : BitVec 32) :
    (v >>> 16).setWidth 16 ++ v.setWidth 16 = v := by
  apply BitVec.eq_of_toNat_eq
  have := v.isLt
  rw [toNat_append_short]
  simp only [BitVec.toNat_setWidth, BitVec.toNat_ushiftRight, Nat.shiftRight_eq_div_pow]
  omega

theorem peekShort_pokeShort (mem : Memory) (addr : BitVec 32) (v : BitVec 16)
    (h : off + 1 < 2 ^ 32) :
    peekShort (pokeShort mem addr off v) addr off = v := by
  rw [peekShort, pokeShort, peek_poke _ _ _ h h, if_pos rfl, peek_poke _ _ _ h (by omega),
    if_neg (by omega), peek_poke _ _ _ (by omega) (by omega), if_pos rfl, append_setWidth]

theorem peekShort_of_peek {mem' : Memory} (h : ∀ k, off ≤ k → k < off + 2 →
      peek mem' addr k = peek mem addr k) :
    peekShort mem' addr off = peekShort mem addr off := by
  rw [peekShort, h _ (by omega) (by omega), h _ (by omega) (by omega), peekShort]

theorem peekInt_of_peek {mem' : Memory} (h : ∀ k, off ≤ k → k < off + 4 →
      peek mem' addr k = peek mem addr k) :
    peekInt mem' addr off = peekInt mem addr off := by
  rw [peekInt, peekShort_of_peek fun k hk hk' => h k (by omega) (by omega),
    peekShort_of_peek fun k hk hk' => h k (by omega) (by omega), peekInt]

theorem peekInt_pokeInt (mem : Memory) (addr : BitVec 32) (v : BitVec 32) (h : off + 3 < 2 ^ 32) :
    peekInt (pokeInt mem addr off v) addr off = v := by
  rw [peekInt, pokeInt, peekShort_pokeShort _ _ _ (by omega),
    peekShort_of_peek fun k hk hk' => peek_pokeShort _ _ _ (by omega) (by omega) (by omega),
    peekShort_pokeShort _ _ _ (by omega), append_setWidth_short]

theorem peek_storeReg (r : Reg) (h : off + 9 < 2 ^ 32) (h' : off' < 2 ^ 32)
    (hne : off' < off ∨ off + 10 ≤ off') :
    peek (storeReg r addr off mem) addr off' = peek mem addr off' := by
  rw [storeReg, peek_pokeInt _ _ _ (by omega) h' (by omega),
    peek_pokeInt _ _ _ (by omega) h' (by omega), peek_pokeShort _ _ _ (by omega) h' (by omega)]

structure Image where
  low : BitVec 32
  high : BitVec 32
  word : BitVec 16

def imageAt (mem : Memory) (addr : BitVec 32) (off : ℕ) : Image :=
  ⟨peekInt mem addr off, peekInt mem addr (off + 4), peekShort mem addr (off + 8)⟩

def imageOf (r : Reg) : Image := ⟨r.sigl, r.sigh, r.exp + if r.sign then 0x8000 else 0⟩

theorem imageAt_storeReg (r : Reg) (h : off + 9 < 2 ^ 32) :
    imageAt (storeReg r addr off mem) addr off = imageOf r := by
  unfold imageAt imageOf storeReg
  congr 1
  · rw [peekInt_of_peek fun k hk hk' => peek_pokeInt _ _ _ (by omega) (by omega) (by omega),
      peekInt_pokeInt _ _ _ (by omega)]
  · rw [peekInt_pokeInt _ _ _ (by omega)]
  · rw [peekShort_of_peek fun k hk hk' => peek_pokeInt _ _ _ (by omega) (by omega) (by omega),
      peekShort_of_peek fun k hk hk' => peek_pokeInt _ _ _ (by omega) (by omega) (by omega),
      peekShort_pokeShort _ _ _ (by omega)]

theorem imageAt_of_peek {mem' : Memory}
    (h : ∀ k, off ≤ k → k < off + 10 → peek mem' addr k = peek mem addr k) :
    imageAt mem' addr off = imageAt mem addr off := by
  unfold imageAt
  rw [peekInt_of_peek fun k hk hk' => h k (by omega) (by omega),
    peekInt_of_peek fun k hk hk' => h k (by omega) (by omega),
    peekShort_of_peek fun k hk hk' => h k (by omega) (by omega)]

/-- `val_same` -/
def valSame (a b : Reg) : Prop := a.sign = b.sign ∧ a.exp = b.exp ∧ a.sigl = b.sigl ∧
    a.sigh = b.sigh

def ofImage (m : Image) : Reg :=
  { sign := m.word.getLsbD 15, exp := m.word &&& 0x7fff, sigh := m.high, sigl := m.low,
    tag := .valid }

theorem setWidth_peekInt (mem : Memory) (addr : BitVec 32) (off : ℕ) :
    (peekInt mem addr off).setWidth 16 = peekShort mem addr off := by
  apply BitVec.eq_of_toNat_eq
  have := (peekShort mem addr off).isLt
  rw [BitVec.toNat_setWidth, peekInt, toNat_append_short]
  omega

theorem loadReg_eq (mem : Memory) (addr : BitVec 32) (off : ℕ) :
    loadReg mem addr off = normalize (ofImage (imageAt mem addr off)) := by
  have hsign (v : BitVec 32) : decide (v &&& 0x8000 ≠ 0) = (v.setWidth 16).getLsbD 15 := by
    have hpow : (0x8000 : BitVec 32) = BitVec.twoPow 32 15 := by decide
    rw [hpow, BitVec.and_twoPow, BitVec.getLsbD_setWidth]
    cases v.getLsbD 15 <;> decide
  have hexp (v : BitVec 32) : (v &&& 0x7fff).setWidth 16 = v.setWidth 16 &&& 0x7fff := by
    rw [BitVec.setWidth_and]
    rfl
  simp only [loadReg, ofImage, imageAt, hsign, hexp, setWidth_peekInt]

/-- The registers that come back from memory as they are. -/
def Stable (r : Reg) : Prop :=
  if r.sigl ||| r.sigh = 0 then r.exp = 0
  else r.exp = 32767 ∨ (r.exp.toNat < 32767 ∧ (r.sigh.msb ∨ r.exp = 0))

instance : DecidablePred Stable := fun _ => inferInstanceAs (Decidable (ite ..))

theorem shiftUp_le (n : ℕ) (sig : BitVec 64) : (shiftUp n sig).1 ≤ n := by
  induction n generalizing sig with
  | zero => simp [shiftUp]
  | succ n ih =>
    rw [shiftUp]
    split
    · rfl
    · exact (ih _).trans (Nat.le_succ n)

/-- The exponent stays only if nothing is shifted. -/
theorem shiftUp_eq_iff (n : ℕ) (sig : BitVec 64) : (shiftUp n sig).1 = n ↔ n = 0 ∨ sig.msb := by
  cases n with
  | zero => simp [shiftUp]
  | succ n =>
    rw [shiftUp]
    split
    · next h => simp [h]
    · next h =>
      have hle := shiftUp_le n (sig <<< 1)
      have hne : (shiftUp n (sig <<< 1)).1 ≠ n + 1 := by omega
      simp [h, hne]

theorem shiftUp_of_msb {n : ℕ} {sig : BitVec 64} (h : n = 0 ∨ sig.msb) :
    shiftUp n sig = (n, sig) := by
  cases n with
  | zero => rfl
  | succ n => rw [shiftUp, if_pos (h.resolve_left (Nat.succ_ne_zero n))]

theorem setWidth_sig (x y : BitVec 32) :
    ((x ++ y) >>> 32).setWidth 32 = x ∧ (x ++ y).setWidth 32 = y := by
  have hx := x.isLt
  have hy := y.isLt
  have happ : (x ++ y).toNat = x.toNat * 4294967296 + y.toNat := by
    rw [BitVec.toNat_append, ← Nat.shiftLeft_add_eq_or_of_lt y.isLt, Nat.shiftLeft_eq]
  constructor
  · apply BitVec.eq_of_toNat_eq
    rw [BitVec.toNat_setWidth, BitVec.toNat_ushiftRight, Nat.shiftRight_eq_div_pow, happ]
    omega
  · apply BitVec.eq_of_toNat_eq
    rw [BitVec.toNat_setWidth, happ]
    omega

theorem ofImage_imageOf {r : Reg} (h : r.exp.toNat < 32768) :
    (ofImage (imageOf r)).sign = r.sign ∧ (ofImage (imageOf r)).exp = r.exp := by
  have hand (x : BitVec 16) : (x &&& 0x7fff).toNat = x.toNat % 32768 := by
    rw [BitVec.toNat_and]
    exact Nat.and_two_pow_sub_one_eq_mod x.toNat 15
  have hbit (x : BitVec 16) : x.getLsbD 15 = decide (32768 ≤ x.toNat) := by
    have : x.msb = x.getLsbD 15 := by simp [BitVec.msb_eq_getLsbD_last]
    rw [← this, BitVec.msb_eq_decide]
  have hword : (imageOf r).word.toNat = r.exp.toNat + if r.sign then 32768 else 0 := by
    unfold imageOf
    rw [BitVec.toNat_add]
    cases r.sign
    · exact Nat.mod_eq_of_lt (by simp; omega)
    · simp only [if_true]
      show (r.exp.toNat + 32768) % 65536 = _
      omega
  constructor
  · simp only [ofImage, hbit, hword]
    cases r.sign
    · simp only [Bool.false_eq_true, if_false, decide_eq_false_iff_not]
      omega
    · simp
  · apply BitVec.eq_of_toNat_eq
    simp only [ofImage, hand, hword]
    cases r.sign <;> simp <;> omega

theorem normalize_exp_le (r : Reg) : (normalize r).exp.toNat ≤ r.exp.toNat := by
  unfold normalize
  split
  · exact Nat.zero_le _
  · split
    · rfl
    · have := shiftUp_le r.exp.toNat (r.sigh ++ r.sigl)
      simp only [BitVec.toNat_ofNat]
      omega

theorem valSame_normalize_iff {r s : Reg} (h : s.sign = r.sign) (hexp : s.exp = r.exp)
    (hl : s.sigl = r.sigl) (hh : s.sigh = r.sigh) (hlt : r.exp.toNat < 32768) :
    valSame (normalize s) r ↔ Stable r := by
  have hmsb : (r.sigh ++ r.sigl).msb = r.sigh.msb := by rw [BitVec.msb_append, if_neg (by decide)]
  unfold normalize Stable valSame
  rw [hl, hh, hexp]
  split
  · constructor
    · rintro ⟨-, he, -⟩
      exact he.symm
    · intro he
      exact ⟨h, he.symm, rfl, rfl⟩
  · next hsig =>
    split
    · next hmax =>
      have : r.exp = 32767 := BitVec.eq_of_toNat_eq
        (by simp only [EXP_MAX] at hmax; show _ = 32767; omega)
      simp [h, this]
    · next hmax =>
      have hlt' : r.exp.toNat < 32767 := by simp only [EXP_MAX] at hmax; omega
      have hne : r.exp ≠ 32767 := fun he => by simp [he] at hlt'
      have hzero : r.exp.toNat = 0 ↔ r.exp = 0 := by
        rw [← BitVec.toNat_inj]
        rfl
      constructor
      · rintro ⟨-, he, -⟩
        have hle := shiftUp_le r.exp.toNat (r.sigh ++ r.sigl)
        have he' := congrArg BitVec.toNat he
        simp only [BitVec.toNat_ofNat] at he'
        rw [Nat.mod_eq_of_lt (by omega), shiftUp_eq_iff, hmsb, hzero] at he'
        exact .inr ⟨hlt', he'.symm⟩
      · rintro (he | ⟨-, he⟩)
        · exact absurd he hne
        · rw [shiftUp_of_msb (by rw [hmsb, hzero]; exact he.symm)]
          obtain ⟨hx, hy⟩ := setWidth_sig r.sigh r.sigl
          exact ⟨h, by simp, hy, hx⟩

theorem valSame_loaded_iff (r : Reg) : valSame (normalize (ofImage (imageOf r))) r ↔ Stable r := by
  by_cases hlt : r.exp.toNat < 32768
  · obtain ⟨hs, he⟩ := ofImage_imageOf hlt
    exact valSame_normalize_iff hs he rfl rfl hlt
  · -- an exponent of 16 bits is cut to 15
    have hand (x : BitVec 16) : (x &&& 0x7fff).toNat < 32768 := by
      rw [BitVec.toNat_and]
      exact Nat.lt_of_le_of_lt Nat.and_le_right (by decide)
    constructor
    · rintro ⟨-, he, -⟩
      have hle := normalize_exp_le (ofImage (imageOf r))
      have := hand (imageOf r).word
      rw [he] at hle
      simp only [ofImage] at hle
      omega
    · intro hst
      unfold Stable at hst
      split at hst
      · simp [hst] at hlt
      · obtain he | ⟨he, -⟩ := hst
        · simp [he] at hlt
        · omega

/-- The two bits of a register in the tag word. -/
def tagField (w : BitVec 32) (k : Fin 8) : BitVec 32 := (w >>> (k.val * 2)) &&& 3

theorem tagField_or (x y : BitVec 32) (k : Fin 8) :
    tagField (x ||| y) k = tagField x k ||| tagField y k := by
  unfold tagField
  rw [BitVec.ushiftRight_or_distrib, BitVec.and_comm, BitVec.and_or_distrib_left, BitVec.and_comm,
    BitVec.and_comm 3]

theorem tagField_shift (t : Tag) (j k : Fin 8) :
    tagField (BitVec.ofNat 32 t.word <<< (j.val * 2)) k = if j =
    k then BitVec.ofNat 32 t.word else 0 := by
  revert j k
  cases t <;> decide +kernel

theorem tagField_and_word (w : BitVec 32) (k : Fin 8) : tagField (w &&& 0xffff) k =
    tagField w k := by
  have hmask : ∀ k : Fin 8, (0xffff : BitVec 32) >>> (k.val * 2) &&& 3 = 3 := by decide
  unfold tagField
  rw [BitVec.ushiftRight_and_distrib, BitVec.and_assoc, hmask]

theorem ofWord_word (t : Tag) : Tag.ofWord (BitVec.ofNat 32 t.word).toNat = t := by
  cases t <;> rfl

theorem top_add_sub : ∀ top i : Fin 8, top + i - top = i := by decide

theorem top_add_comm : ∀ top i : Fin 8, i + top = top + i := by decide

theorem top_add_sub_cancel : ∀ top k : Fin 8, top + (k - top) = k := by decide

/-- The loop of `fsave` puts the tag of each register at its number. -/
theorem tagField_save (f : Fpu) (l : List (Fin 8)) (s : BitVec 32 × Memory) (i : Fin 8) :
    tagField (l.foldl (saveStep f addr) s).1 (f.top + i) =
      tagField s.1 (f.top + i) ||| if i ∈ l then BitVec.ofNat 32 (f.st i).tag.word else 0 := by
  induction l generalizing s with
  | nil => simp
  | cons j l ih =>
    rw [List.foldl_cons, ih, saveStep, tagField_or, tagField_shift, BitVec.or_assoc]
    congr 1
    by_cases hij : i = j
    · subst hij
      by_cases hl : i ∈ l <;> simp [hl]
    · have hne : f.top + j ≠ f.top + i := fun h => hij (by rw [← top_add_sub f.top i, ← h,
        top_add_sub])
      simp [hij, hne]

theorem imageAt_save (f : Fpu) (l : List (Fin 8)) (s : BitVec 32 × Memory) (i : Fin 8) :
    imageAt (l.foldl (saveStep f addr) s).2 addr (0x1c + i.val * 10) =
      if i ∈ l then imageOf (f.st i) else imageAt s.2 addr (0x1c + i.val * 10) := by
  induction l generalizing s with
  | nil => simp
  | cons j l ih =>
    rw [List.foldl_cons, ih]
    have hi := i.isLt
    have hj := j.isLt
    by_cases hij : i = j
    · subst hij
      have hstore : imageAt (saveStep f addr s i).2 addr (0x1c + i.val * 10) = imageOf (f.st i) :=
        imageAt_storeReg _ (by omega)
      simp [hstore]
    · have hne : i.val ≠ j.val := fun h => hij (Fin.ext h)
      have hkeep : imageAt (saveStep f addr s j).2 addr (0x1c + i.val * 10) =
          imageAt s.2 addr (0x1c + i.val * 10) :=
        imageAt_of_peek fun k hk hk' => peek_storeReg _ (by omega) (by omega) (by omega)
      simp only [List.mem_cons, hij, false_or, hkeep]

theorem peek_save (f : Fpu) (l : List (Fin 8)) (s : BitVec 32 × Memory) (h : off < 0x1c) :
    peek (l.foldl (saveStep f addr) s).2 addr off = peek s.2 addr off := by
  induction l generalizing s with
  | nil => rfl
  | cons j l ih =>
    have hj := j.isLt
    rw [List.foldl_cons, ih]
    exact peek_storeReg _ (by omega) (by omega) (by omega)

/-- The loop of `frstor` gives every register the same contents and its own tag. -/
theorem foldl_loadStep (addr : BitVec 32) (mem : Memory) (w : BitVec 32) (f : Fpu)
    (l : List (Fin 8)) :
    l.foldl (loadStep addr mem w) f =
      { f with regs := fun k => if k - f.top ∈ l then
          { loadReg mem addr (0x1c + 10) with tag := .ofWord (tagField w k).toNat }
            else f.regs k } := by
  induction l generalizing f with
  | nil => simp
  | cons i l ih =>
    rw [List.foldl_cons, ih]
    simp only [loadStep, Fpu.setSt, Fpu.st, Fpu.mk.injEq, true_and]
    funext k
    by_cases hk : k - f.top ∈ l
    · simp [hk]
    · by_cases hki : k = f.top + i
      · subst hki
        simp [tagField, top_add_sub, top_add_comm f.top i]
      · have hne : k - f.top ≠ i := fun h => hki (by rw [← h, top_add_sub_cancel])
        simp [hk, hki, hne]

theorem top_statusWord (s : BitVec 16) (top : Fin 8) :
    ((s &&& ~~~SW_TOP) + BitVec.ofNat 16 (top.val * 0x0800)).toNat / 0x0800 % 8 = top := by
  have hz : ((s &&& ~~~SW_TOP) >>> 11) &&& 7 = 0 := by
    have hmask : (~~~SW_TOP >>> 11) &&& 7 = 0 := by decide
    rw [BitVec.ushiftRight_and_distrib, BitVec.and_assoc, hmask]
    exact BitVec.and_zero
  have hz' : (s &&& ~~~SW_TOP).toNat / 0x0800 % 8 = 0 := by
    have := congrArg BitVec.toNat hz
    rw [BitVec.toNat_and, BitVec.toNat_ushiftRight, Nat.shiftRight_eq_div_pow] at this
    exact (Nat.and_two_pow_sub_one_eq_mod _ 3).symm.trans this
  have htop := top.isLt
  rw [BitVec.toNat_add, BitVec.toNat_ofNat]
  omega

theorem setWidth_setWidth_word (x : BitVec 16) : (x.setWidth 32).setWidth 16 = x := by
  apply BitVec.eq_of_toNat_eq
  have := x.isLt
  simp only [BitVec.toNat_setWidth]
  omega

theorem fsave_image (f : Fpu) (addr : BitVec 32) (mem : Memory) :
    peekInt (fsave f addr mem).2 addr 0 = f.controlWord.setWidth 32 ∧
      peekInt (fsave f addr mem).2 addr 4 = (fsave f addr mem).1.statusWord.setWidth 32 ∧
      (∀ i, tagField (peekInt (fsave f addr mem).2 addr 8 &&& 0xffff) (f.top + i) =
        BitVec.ofNat 32 (f.st i).tag.word) ∧
      imageAt (fsave f addr mem).2 addr (0x1c + 10) = imageOf (f.st 1) := by
  unfold fsave
  refine ⟨?_, ?_, fun i => ?_, ?_⟩
  · rw [peekInt_of_peek fun k hk hk' => peek_pokeInt _ _ _ (by omega) (by omega) (by omega),
      peekInt_of_peek fun k hk hk' => peek_save _ _ _ (by omega),
      peekInt_of_peek fun k hk hk' => peek_pokeInt _ _ _ (by omega) (by omega) (by omega),
      peekInt_pokeInt _ _ _ (by omega)]
  · rw [peekInt_of_peek fun k hk hk' => peek_pokeInt _ _ _ (by omega) (by omega) (by omega),
      peekInt_of_peek fun k hk hk' => peek_save _ _ _ (by omega), peekInt_pokeInt _ _ _ (by omega)]
  · rw [peekInt_pokeInt _ _ _ (by omega), tagField_and_word, tagField_and_word, tagField_save]
    simp [tagField, Fpu.st]
  · rw [imageAt_of_peek fun k hk hk' => peek_pokeInt _ _ _ (by omega) (by omega) (by omega)]
    exact (imageAt_save _ _ _ 1).trans (if_pos (List.mem_finRange _))

/-- `frstor` after `fsave`: every register has the contents of the second one and its own tag. -/
theorem frstor_fsave (f g : Fpu) (addr : BitVec 32) (mem : Memory) :
    frstor g addr (fsave f addr mem).2 =
      { controlWord := f.controlWord
        statusWord := (fsave f addr mem).1.statusWord
        top := ⟨f.top.val % 4, by omega⟩
        regs := fun k => { normalize (ofImage (imageOf (f.st 1))) with tag := (f.regs k).tag } } := by
  obtain ⟨hc, hs, ht, hi⟩ := fsave_image f addr mem
  have htop : (fsave f addr mem).1.statusWord.toNat / 0x0800 % 4 = f.top.val % 4 := by
    have : (fsave f addr mem).1.statusWord.toNat / 0x0800 % 8 = f.top :=
      top_statusWord f.statusWord f.top
    omega
  have htag (k : Fin 8) :
      Tag.ofWord (tagField (peekInt (fsave f addr mem).2 addr 8 &&& 0xffff) k).toNat =
        (f.regs k).tag := by
    have := ht (k - f.top)
    rw [Fpu.st, top_add_sub_cancel] at this
    rw [this, ofWord_word]
  rw [frstor, foldl_loadStep]
  simp only [List.mem_finRange, if_true, loadReg_eq, hc, hs, hi, htag, setWidth_setWidth_word, htop]

/-- The states that come back. -/
def Restorable (f : Fpu) : Prop :=
  f.top.val < 4 ∧ (∀ i, valSame (f.st i) (f.st 1)) ∧ Stable (f.st 1)

theorem valSame_symm {a b : Reg} (h : valSame a b) : valSame b a :=
  ⟨h.1.symm, h.2.1.symm, h.2.2.1.symm, h.2.2.2.symm⟩

theorem valSame_trans {a b c : Reg} (h : valSame a b) (h' : valSame b c) : valSame a c :=
  ⟨h.1.trans h'.1, h.2.1.trans h'.2.1, h.2.2.1.trans h'.2.2.1, h.2.2.2.trans h'.2.2.2⟩

theorem with_tag_eq_iff (a b : Reg) : { a with tag := b.tag } = b ↔ valSame a b := by
  cases a
  cases b
  simp [valSame]

theorem restorable_iff (f : Fpu) :
    Restorable f ↔ (⟨f.top.val % 4, by omega⟩ : Fin 8) = f.top ∧
      ∀ k, { normalize (ofImage (imageOf (f.st 1))) with tag := (f.regs k).tag } = f.regs k := by
  have htop : (⟨f.top.val % 4, by omega⟩ : Fin 8) = f.top ↔ f.top.val < 4 := by
    rw [Fin.ext_iff]
    have := f.top.isLt
    show f.top.val % 4 = f.top.val ↔ _
    omega
  unfold Restorable
  rw [htop]
  refine and_congr_right fun _ => ?_
  simp only [with_tag_eq_iff]
  constructor
  · rintro ⟨hsame, hst⟩ k
    have hk := hsame (k - f.top)
    rw [Fpu.st, top_add_sub_cancel] at hk
    exact valSame_trans ((valSame_loaded_iff _).2 hst) (valSame_symm hk)
  · intro h
    have h1 := h (f.top + 1)
    exact ⟨fun i => valSame_trans (valSame_symm (h (f.top + i))) h1, (valSame_loaded_iff _).1 h1⟩

theorem statusWord_shows_top (s : BitVec 16) (top : Fin 8) :
    (s &&& ~~~SW_TOP) + BitVec.ofNat 16 (top.val * 0x0800) = s ↔ s.toNat / 0x0800 % 8 = top := by
  constructor
  · intro h
    have := top_statusWord s top
    rwa [h] at this
  · intro h
    have hshift : s &&& SW_TOP = ((s >>> 11) &&& 7) <<< 11 := by
      rw [BitVec.shiftLeft_and_distrib]
      apply BitVec.eq_of_getLsbD_eq
      intro i hi
      have hmask : ∀ i : Fin 16, SW_TOP.getLsbD i.val = ((7 : BitVec 16) <<< 11).getLsbD i.val ∧
          (SW_TOP.getLsbD i.val → 11 ≤ i.val) := by decide
      obtain ⟨hm, hle⟩ := hmask ⟨i, hi⟩
      rw [BitVec.getLsbD_and, BitVec.getLsbD_and, ← hm]
      cases hc : SW_TOP.getLsbD i
      · simp
      · have := hle hc
        simp only [BitVec.getLsbD_shiftLeft, BitVec.getLsbD_ushiftRight]
        have hlt : ¬ i < 11 := by simpa using this
        simp [hi, hlt, show 11 + (i - 11) = i by simp at hlt; omega]
    have hbits : (s >>> 11) &&& 7 = BitVec.ofNat 16 top.val := by
      apply BitVec.eq_of_toNat_eq
      rw [BitVec.toNat_and, BitVec.toNat_ushiftRight, Nat.shiftRight_eq_div_pow]
      refine (Nat.and_two_pow_sub_one_eq_mod _ 3).trans (h.trans ?_)
      rw [BitVec.toNat_ofNat, Nat.mod_eq_of_lt (by omega)]
    have htop : BitVec.ofNat 16 (top.val * 0x0800) = s &&& SW_TOP := by
      have hmul : ∀ top : Fin 8, BitVec.ofNat 16 (top.val * 0x0800) =
          BitVec.ofNat 16 top.val <<< 11 := by
        decide
      rw [hshift, hbits, hmul]
    rw [htop, BitVec.add_eq_or_of_and_eq_zero]
    · rw [← BitVec.and_or_distrib_left]
      exact BitVec.and_allOnes
    · rw [BitVec.and_assoc, ← BitVec.and_assoc (~~~SW_TOP), BitVec.and_comm (~~~SW_TOP),
        BitVec.and_assoc]
      simp

/-- `frstor` after `fsave` gives back the state for the restorable states only, and with
the status word as it was if the top is already in it. -/
theorem frstor_fsave_iff (f g : Fpu) (addr : BitVec 32) (mem : Memory) :
    (frstor g addr (fsave f addr mem).2 = (fsave f addr mem).1 ↔ Restorable f) ∧
      (frstor g addr (fsave f addr mem).2 = f ↔
        Restorable f ∧ f.statusWord.toNat / 0x0800 % 8 = f.top) := by
  rw [restorable_iff, ← statusWord_shows_top, frstor_fsave]
  constructor
  · simp [fsave, Fpu.mk.injEq, funext_iff]
  · obtain ⟨cw, sw, top, regs⟩ := f
    simp only [fsave, Fpu.mk.injEq, funext_iff, true_and]
    exact ⟨fun ⟨h, h', h''⟩ => ⟨⟨h', h''⟩, h⟩, fun ⟨⟨h', h''⟩, h⟩ => ⟨h, h', h''⟩⟩

/-- The first register on a stack whose top is 4. -/
theorem frstor_fsave_top_four :
    let f : Fpu := ⟨0x37f, 0x2000, 4, fun _ => ⟨false, .valid, 16383, 0, 0x80000000⟩⟩
    (frstor f 0 (fsave f 0 fun _ => 0).2).top = 0 ∧ f.top = 4 ∧
      frstor f 0 (fsave f 0 fun _ => 0).2 ≠ f := by
  intro f
  have htop : (frstor f 0 (fsave f 0 fun _ => 0).2).top = 0 := by
    rw [frstor_fsave]
    exact Fin.ext (show (4 : Fin 8).val % 4 = 0 by decide)
  refine ⟨htop, rfl, fun h => ?_⟩
  rw [h] at htop
  exact absurd htop (by decide)

end DjgppLibc.Emu387
