import Mathlib.Tactic.Ring

/-!
# Byte-addressed memory with little-endian words

A memory is a total function from addresses to bytes. Words are four bytes,
least significant first, and a store leaves every other byte alone. Two words
interfere exactly when their byte ranges meet, so overlapping records and
fields which reuse data space are visible in the model and not assumed away.

The two block moves copy one byte at a time, in ascending and in descending
order. `copyUp_apply` gives the contents of an ascending move whenever the
direction suits the overlap; for the other overlaps nothing is claimed.
-/
namespace DjgppLibc.ByteMemory

abbrev Mem := ℕ → UInt8

def put (m : Mem) (a : ℕ) (v : UInt8) : Mem := fun x => if x = a then v else m x

@[simp] theorem put_same (m : Mem) (a : ℕ) (v : UInt8) : put m a v a = v := by simp [put]

theorem put_ne (m : Mem) {a x : ℕ} (v : UInt8) (h : x ≠ a) : put m a v x = m x := by
  simp [put, h]

/-- The 32-bit word whose least significant byte is at `a`. -/
def load32 (m : Mem) (a : ℕ) : ℕ :=
  (m a).toNat + 256 * (m (a + 1)).toNat + 65536 * (m (a + 2)).toNat +
    16777216 * (m (a + 3)).toNat

def store32 (m : Mem) (a v : ℕ) : Mem :=
  put (put (put (put m a (UInt8.ofNat v)) (a + 1) (UInt8.ofNat (v / 256)))
    (a + 2) (UInt8.ofNat (v / 65536))) (a + 3) (UInt8.ofNat (v / 16777216))

theorem load32_lt (m : Mem) (a : ℕ) : load32 m a < 4294967296 := by
  have h₀ := (m a).toNat_lt
  have h₁ := (m (a + 1)).toNat_lt
  have h₂ := (m (a + 2)).toNat_lt
  have h₃ := (m (a + 3)).toNat_lt
  unfold load32
  omega

theorem store32_out (m : Mem) {a x : ℕ} (v : ℕ) (h : x < a ∨ a + 4 ≤ x) :
    store32 m a v x = m x := by
  unfold store32
  rw [put_ne _ _ (by omega), put_ne _ _ (by omega), put_ne _ _ (by omega),
    put_ne _ _ (by omega)]

/-- A word depends only on its own four bytes. -/
theorem load32_congr {m m' : Mem} {a : ℕ} (h : ∀ x, a ≤ x → x < a + 4 → m' x = m x) :
    load32 m' a = load32 m a := by
  unfold load32
  rw [h a (by omega) (by omega), h (a + 1) (by omega) (by omega),
    h (a + 2) (by omega) (by omega), h (a + 3) (by omega) (by omega)]

theorem load32_store32_same (m : Mem) (a v : ℕ) :
    load32 (store32 m a v) a = v % 4294967296 := by
  have h₀ : store32 m a v a = UInt8.ofNat v := by simp [store32, put]
  have h₁ : store32 m a v (a + 1) = UInt8.ofNat (v / 256) := by simp [store32, put]
  have h₂ : store32 m a v (a + 2) = UInt8.ofNat (v / 65536) := by simp [store32, put]
  have h₃ : store32 m a v (a + 3) = UInt8.ofNat (v / 16777216) := by simp [store32, put]
  unfold load32
  rw [h₀, h₁, h₂, h₃]
  simp only [UInt8.toNat_ofNat']
  omega

theorem load32_store32_ne (m : Mem) {a b : ℕ} (v : ℕ) (h : b + 4 ≤ a ∨ a + 4 ≤ b) :
    load32 (store32 m a v) b = load32 m b :=
  load32_congr fun x hx hx' => store32_out m v (by omega)

/-- Move `n` bytes in ascending order. -/
def copyUp (m : Mem) (dst src : ℕ) : ℕ → Mem
  | 0 => m
  | n + 1 => copyUp (put m dst (m src)) (dst + 1) (src + 1) n

/-- Move `n` bytes in descending order. -/
def copyDown (m : Mem) (dst src : ℕ) : ℕ → Mem
  | 0 => m
  | n + 1 => copyDown (put m (dst + n) (m (src + n))) dst src n

theorem copyUp_out (m : Mem) (dst src n : ℕ) {x : ℕ} (h : x < dst ∨ dst + n ≤ x) :
    copyUp m dst src n x = m x := by
  induction n generalizing m dst src with
  | zero => rfl
  | succ n ih =>
      rw [copyUp, ih _ _ _ (by omega)]
      exact put_ne _ _ (by omega)

/-- Ascending moves are exact unless the destination starts inside the source. -/
theorem copyUp_apply (m : Mem) (dst src n : ℕ) (h : dst ≤ src ∨ src + n ≤ dst) {i : ℕ}
    (hi : i < n) : copyUp m dst src n (dst + i) = m (src + i) := by
  induction n generalizing m dst src i with
  | zero => omega
  | succ n ih =>
      rw [copyUp]
      cases i with
      | zero =>
          rw [copyUp_out _ _ _ _ (by omega)]
          exact put_same _ _ _
      | succ i =>
          rw [show dst + (i + 1) = dst + 1 + i by omega, ih _ _ _ (by omega) (by omega),
            put_ne _ _ (by omega), show src + 1 + i = src + (i + 1) by omega]

/-- Set `n` bytes to one value. -/
def fill (m : Mem) (a n : ℕ) (v : UInt8) : Mem := fun x => if a ≤ x ∧ x < a + n then v else m x

theorem fill_out (m : Mem) (a n : ℕ) (v : UInt8) {x : ℕ} (h : x < a ∨ a + n ≤ x) :
    fill m a n v x = m x := by
  unfold fill
  rw [if_neg (by omega)]

/-- The `n` bytes from `a` upwards. -/
def bytes (m : Mem) (a : ℕ) : ℕ → List UInt8
  | 0 => []
  | n + 1 => m a :: bytes m (a + 1) n

/-- Store a list of bytes from `a` upwards. -/
def putAll (m : Mem) (a : ℕ) : List UInt8 → Mem
  | [] => m
  | v :: vs => putAll (put m a v) (a + 1) vs

@[simp] theorem bytes_length (m : Mem) (a n : ℕ) : (bytes m a n).length = n := by
  induction n generalizing a with
  | zero => rfl
  | succ n ih => rw [bytes, List.length_cons, ih]

theorem bytes_add (m : Mem) (a i j : ℕ) : bytes m a (i + j) = bytes m a i ++ bytes m (a + i) j := by
  induction i generalizing a with
  | zero => rw [Nat.zero_add]; rfl
  | succ i ih =>
      rw [show i + 1 + j = i + j + 1 by omega, bytes, ih, bytes, List.cons_append,
        show a + 1 + i = a + (i + 1) by omega]

theorem bytes_take (m : Mem) (a : ℕ) {i n : ℕ} (h : i ≤ n) :
    (bytes m a n).take i = bytes m a i := by
  rw [← Nat.add_sub_of_le h, bytes_add, List.take_left' (bytes_length m a i)]

theorem bytes_drop (m : Mem) (a : ℕ) {i n : ℕ} (h : i ≤ n) :
    (bytes m a n).drop i = bytes m (a + i) (n - i) := by
  conv_lhs => rw [← Nat.add_sub_of_le h, bytes_add]
  rw [List.drop_left' (bytes_length m a i)]

theorem bytes_congr {m m' : Mem} {a n : ℕ} (h : ∀ x, a ≤ x → x < a + n → m' x = m x) :
    bytes m' a n = bytes m a n := by
  induction n generalizing a with
  | zero => rfl
  | succ n ih =>
      rw [bytes, bytes, h a le_rfl (by omega), ih fun x h₁ h₂ => h x (by omega) (by omega)]

theorem putAll_out (m : Mem) (a : ℕ) (vs : List UInt8) {x : ℕ} (h : x < a ∨ a + vs.length ≤ x) :
    putAll m a vs x = m x := by
  induction vs generalizing m a with
  | nil => rfl
  | cons v vs ih =>
      rw [List.length_cons] at h
      rw [putAll, ih _ _ (by omega)]
      exact put_ne _ _ (by omega)

theorem bytes_putAll (m : Mem) (a : ℕ) (vs : List UInt8) :
    bytes (putAll m a vs) a vs.length = vs := by
  induction vs generalizing m a with
  | nil => rfl
  | cons v vs ih =>
      rw [List.length_cons, bytes, putAll, ih, putAll_out _ _ _ (by omega), put_same]

theorem putAll_append (m : Mem) (a : ℕ) (vs ws : List UInt8) :
    putAll m a (vs ++ ws) = putAll (putAll m a vs) (a + vs.length) ws := by
  induction vs generalizing m a with
  | nil => rfl
  | cons v vs ih =>
      rw [List.cons_append, putAll, putAll, ih, List.length_cons,
        show a + 1 + vs.length = a + (vs.length + 1) by omega]

/-- What lies below the stored bytes is read first. -/
theorem bytes_putAll_append (m : Mem) (a n : ℕ) (vs : List UInt8) :
    bytes (putAll m (a + n) vs) a (n + vs.length) = bytes m a n ++ vs := by
  rw [bytes_add, bytes_putAll, bytes_congr fun x _ h => putAll_out m _ vs (.inl h)]

/-- A word that is replaced by a function of what it was. -/
structure Patch where
  addr : ℕ
  value : ℕ → ℕ

def Patch.apply (m : Mem) (p : Patch) : Mem := store32 m p.addr (p.value (load32 m p.addr))

def Apart (a b : ℕ) : Prop := a + 4 ≤ b ∨ b + 4 ≤ a

theorem apart_symm {a b : ℕ} (h : Apart a b) : Apart b a := Or.symm h

theorem patches_out (ps : List Patch) (m : Mem) {x : ℕ} (h : ∀ p ∈ ps,
      x < p.addr ∨ p.addr + 4 ≤ x) :
    ps.foldl Patch.apply m x = m x := by
  induction ps generalizing m with
  | nil => rfl
  | cons p ps ih =>
      rw [List.foldl_cons, ih _ fun q hq => h q (List.mem_cons_of_mem p hq)]
      exact store32_out m _ (h p (List.mem_cons_self ..))

/-- A word that is apart from all that are changed. -/
theorem load32_patches_out (ps : List Patch) (m : Mem) {a : ℕ} (h : ∀ p ∈ ps, Apart a p.addr) :
    load32 (ps.foldl Patch.apply m) a = load32 m a := by
  refine load32_congr fun x hlo hhi => patches_out ps m fun p hp => ?_
  have hap := h p hp
  unfold Apart at hap
  omega

theorem load32_patches (ps : List Patch) (m : Mem) (h : ps.Pairwise fun p q => Apart p.addr q.addr)
    {p : Patch} (hp : p ∈ ps) :
    load32 (ps.foldl Patch.apply m) p.addr = p.value (load32 m p.addr) % 4294967296 := by
  induction ps generalizing m with
  | nil => cases hp
  | cons q ps ih =>
      obtain ⟨hq, hps⟩ := List.pairwise_cons.mp h
      rw [List.foldl_cons]
      obtain rfl | hp := List.mem_cons.mp hp
      · rw [load32_patches_out ps _ hq]
        exact load32_store32_same m _ _
      · rw [ih _ hps hp]
        exact congrArg (fun v => p.value v % 4294967296) (load32_store32_ne m _ (hq p hp).symm)

end DjgppLibc.ByteMemory
