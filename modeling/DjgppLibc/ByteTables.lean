import Mathlib.Data.List.Basic

/-!
# Tables of bytes

Little-endian words and strings that end with a null byte, written one after the other, and
readers that take them off the front of a list of bytes. `Reads r bs a` says that `r` takes
exactly `bs` and gives `a`, whatever follows, and it is closed under sequences and repetition.
-/
namespace DjgppLibc.ByteTables

abbrev Reader := StateT (List UInt8) Option

def le16 (w : BitVec 16) : List UInt8 := [UInt8.ofNat w.toNat, UInt8.ofNat (w.toNat / 256)]

def le32 (w : BitVec 32) : List UInt8 :=
  [UInt8.ofNat w.toNat, UInt8.ofNat (w.toNat / 256), UInt8.ofNat (w.toNat / 65536),
    UInt8.ofNat (w.toNat / 16777216)]

def readByte : Reader UInt8
  | [] => none
  | b :: bs => some (b, bs)

def readLe16 : Reader (BitVec 16) := do
  let b₀ ← readByte
  let b₁ ← readByte
  return .ofNat 16 (b₀.toNat + 256 * b₁.toNat)

def readLe32 : Reader (BitVec 32) := do
  let b₀ ← readByte
  let b₁ ← readByte
  let b₂ ← readByte
  let b₃ ← readByte
  return .ofNat 32 (b₀.toNat + 256 * b₁.toNat + 65536 * b₂.toNat + 16777216 * b₃.toNat)

def readString : Reader (List UInt8)
  | [] => none
  | b :: bs => if b = 0 then some ([], bs) else (readString bs).map fun r => (b :: r.1, r.2)

def readBytes (n : ℕ) : Reader (List UInt8) := fun bs =>
  if n ≤ bs.length then some (bs.take n, bs.drop n) else none

variable {α β : Type}

def readMany (r : Reader α) : ℕ → Reader (List α)
  | 0 => pure []
  | n + 1 => do
      let a ← r
      let as ← readMany r n
      return a :: as

def Reads (r : Reader α) (bs : List UInt8) (a : α) : Prop :=
  ∀ rest, r (bs ++ rest) = some (a, rest)

theorem Reads.pure (a : α) : Reads (pure a) [] a := fun _ => rfl

theorem Reads.bind {r : Reader α} {f : α → Reader β} {bs bs' : List UInt8} {a : α} {b : β}
    (hr : Reads r bs a) (hf : Reads (f a) bs' b) : Reads (r >>= f) (bs ++ bs') b := by
  intro rest
  show (r (bs ++ bs' ++ rest)).bind (fun p => f p.1 p.2) = _
  rw [List.append_assoc, hr]
  exact hf rest

theorem Reads.bind_pure {r : Reader α} {bs : List UInt8} {a : α} (hr : Reads r bs a) (f : α → β) :
    Reads (r >>= fun a => Pure.pure (f a)) bs (f a) := by
  rw [← List.append_nil bs]
  exact hr.bind (.pure (f a))

theorem reads_byte (b : UInt8) : Reads readByte [b] b := fun _ => rfl

theorem reads_le16 (w : BitVec 16) : Reads readLe16 (le16 w) w := by
  have hw := w.isLt
  have hvalue : (UInt8.ofNat w.toNat).toNat + 256 * (UInt8.ofNat (w.toNat / 256)).toNat =
      w.toNat := by
    simp only [UInt8.toNat_ofNat']
    omega
  intro rest
  show some (BitVec.ofNat 16 _, rest) = _
  rw [hvalue, BitVec.ofNat_toNat, BitVec.setWidth_eq]

theorem reads_le32 (w : BitVec 32) : Reads readLe32 (le32 w) w := by
  have hw := w.isLt
  have hvalue : (UInt8.ofNat w.toNat).toNat + 256 * (UInt8.ofNat (w.toNat / 256)).toNat +
      65536 * (UInt8.ofNat (w.toNat / 65536)).toNat +
      16777216 * (UInt8.ofNat (w.toNat / 16777216)).toNat = w.toNat := by
    simp only [UInt8.toNat_ofNat']
    omega
  intro rest
  show some (BitVec.ofNat 32 _, rest) = _
  rw [hvalue, BitVec.ofNat_toNat, BitVec.setWidth_eq]

theorem reads_string {s : List UInt8} (hs : 0 ∉ s) : Reads readString (s ++ [0]) s := by
  intro rest
  induction s with
  | nil => rfl
  | cons b s ih =>
      rw [List.mem_cons, not_or] at hs
      show (if b = 0 then _ else _) = _
      rw [if_neg (Ne.symm hs.1)]
      exact congrArg (Option.map _) (ih hs.2)

theorem reads_bytes (bs : List UInt8) : Reads (readBytes bs.length) bs bs := by
  intro rest
  rw [readBytes, if_pos (by rw [List.length_append]; omega), List.take_left, List.drop_left]

theorem reads_many {r : Reader α} {encode : α → List UInt8} {as : List α}
    (h : ∀ a ∈ as, Reads r (encode a) a) : Reads (readMany r as.length) (as.flatMap encode) as := by
  induction as with
  | nil => exact .pure []
  | cons a as ih =>
      have htail := ih fun b hb => h b (List.mem_cons_of_mem a hb)
      exact (h a (List.mem_cons_self ..)).bind (htail.bind_pure (a :: ·))

theorem length_le32 (w : BitVec 32) : (le32 w).length = 4 := rfl

theorem length_flatMap_le32 (ws : List (BitVec 32)) : (ws.flatMap le32).length = 4 * ws.length := by
  induction ws with
  | nil => rfl
  | cons w ws ih =>
      rw [List.flatMap_cons, List.length_append, ih, length_le32, List.length_cons]
      omega

end DjgppLibc.ByteTables
