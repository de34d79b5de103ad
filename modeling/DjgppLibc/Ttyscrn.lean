import DjgppLibc.LoggedMemory
import DjgppLibc.Tmwrite

/-!
# The direct screen driver

The functions of `ttyscrn.c` that write to the video buffer. The buffer is at an even
address and has two bytes for a character, so addresses here count words: `ptr % 4` is the
parity of an address, and a store of four bytes is one to two cells. The calls for DOS/V do
not change the buffer.
-/
namespace DjgppLibc.Termios

open LoggedMemory

abbrev Word := BitVec 16

abbrev Video := LoggedMemory Word

structure Geometry where
  maxRow : ℕ
  maxCol : ℕ
  buffer : ℤ
  maxRow_le : maxRow ≤ 0xff
  maxCol_le : maxCol ≤ 0xfffe

/-- `get_video_offset` -/
def Geometry.videoOffset (g : Geometry) (col row : ℤ) : ℤ := g.buffer + (row * (g.maxCol + 1) + col)

/-- `' ' | (attrib << 8)` -/
def fillWord (attrib : Byte) : Word := attrib ++ (0x20 : Byte)

/-- `_farnspokel` -/
def pokel (v : Video) (a : ℤ) (lo hi : Word) : Video := (v.poke a lo).poke (a + 1) hi

/-- `while (ptr < ptr_end)`, with the pointer at the end. -/
def fillUp (fill : Word) : ℕ → Video → ℤ → ℤ → Video × ℤ
  | 0, v, ptr, _ => (v, ptr)
  | fuel + 1, v, ptr, ptrEnd =>
      if ptr < ptrEnd then fillUp fill fuel (pokel v ptr fill fill) (ptr + 2) ptrEnd else (v, ptr)

/-- `while (dst_end >= src_end)`, with the pointer at the end. -/
def fillDown (fill : Word) : ℕ → Video → ℤ → ℤ → Video × ℤ
  | 0, v, ptr, _ => (v, ptr)
  | fuel + 1, v, ptr, ptrEnd =>
      if ptr ≥ ptrEnd then fillDown fill fuel (pokel v ptr fill fill) (ptr - 2) ptrEnd else (v, ptr)

/-- `while (dst_ptr <= dst_end)`, with the destination at the end. -/
def copyUp : ℕ → Video → ℤ → ℤ → ℤ → Video × ℤ
  | 0, v, dst, _, _ => (v, dst)
  | fuel + 1, v, dst, src, dstEnd =>
      if dst ≤ dstEnd then copyUp fuel (pokel v dst (v.mem src) (v.mem (src + 1))) (dst + 2)
      (src + 2) dstEnd
      else (v, dst)

/-- `while (dst_ptr >= dst_end)`, with the destination at the end. -/
def copyDown : ℕ → Video → ℤ → ℤ → ℤ → Video × ℤ
  | 0, v, dst, _, _ => (v, dst)
  | fuel + 1, v, dst, src, dstEnd =>
      if dst ≥ dstEnd then copyDown fuel (pokel v dst (v.mem src) (v.mem (src + 1))) (dst - 2)
      (src - 2) dstEnd
      else (v, dst)

/-- `direct_clear`, between two addresses -/
def clearRange (fill : Word) (v : Video) (ptr ptrEnd : ℤ) : Video :=
  let (v, ptr) := if ptr % 2 ≠ 0 then (v.poke ptr fill, ptr + 1) else (v, ptr)
  let (v, ptr) := fillUp fill (ptrEnd - ptr).toNat v ptr ptrEnd
  if ptr = ptrEnd then v.poke ptr fill else v

def directClear (g : Geometry) (attrib : Byte) (v : Video) (x1 y1 x2 y2 : ℤ) : Video :=
  clearRange (fillWord attrib) v (g.videoOffset x1 y1) (g.videoOffset x2 y2)

/-- The copy in `direct_scroll_forward`, behind its alignment. -/
def copyDownTo (v : Video) (dst src dstEnd srcEnd : ℤ) : Video :=
  let (v, dst) := copyDown (dst - dstEnd + 1).toNat v dst src dstEnd
  if dstEnd - dst = 1 then v.poke dstEnd (v.mem srcEnd) else v

/-- The end of `direct_scroll_forward`, from `dst_end -= 2` on. -/
def fillBefore (fill : Word) (v : Video) (dstEnd srcEnd : ℤ) : Video :=
  let dstEnd := dstEnd - 1
  if dstEnd = srcEnd then v.poke dstEnd fill
  else
    let dstEnd := dstEnd - 1
    let (v, dstEnd) := fillDown fill (dstEnd - srcEnd + 1).toNat v dstEnd srcEnd
    if srcEnd - dstEnd = 1 then v.poke srcEnd fill else v

/-- `direct_scroll_forward`, for addresses -/
def scrollForward (fill : Word) (v : Video) (dst src dstEnd srcEnd : ℤ) : Video :=
  let v := if dst % 2 ≠ 0 ∧ src % 2 ≠ 0 then copyDownTo (v.poke dst (v.mem src)) (dst - 1)
    (src - 1) dstEnd srcEnd
    else copyDownTo v dst src dstEnd srcEnd
  fillBefore fill v dstEnd srcEnd

def directScrollForward (g : Geometry) (attrib : Byte) (v : Video) (x1 y1 x2 y2 xdst ydst : ℤ) :
    Video :=
  let xdst2 := xdst + (x2 - x1)
  let ydst2 := ydst + (y2 - y1)
  scrollForward (fillWord attrib) v (g.videoOffset xdst2 ydst2) (g.videoOffset x2 y2)
    (g.videoOffset xdst ydst)
    (g.videoOffset x1 y1)

/-- The copy in `direct_scroll_backward`, behind its alignment. -/
def copyUpTo (v : Video) (dst src dstEnd srcEnd : ℤ) : Video :=
  let (v, dst) := copyUp (dstEnd - dst + 1).toNat v dst src dstEnd
  if dst - dstEnd = 1 then v.poke dstEnd (v.mem srcEnd) else v

/-- `direct_scroll_backward`, for addresses; the fill at the end is the one of `direct_clear` -/
def scrollBackward (fill : Word) (v : Video) (dst src dstEnd srcEnd : ℤ) : Video :=
  let v := if dst % 2 ≠ 0 ∧ src % 2 ≠ 0 then copyUpTo (v.poke dst (v.mem src)) (dst + 1)
    (src + 1) dstEnd srcEnd
    else copyUpTo v dst src dstEnd srcEnd
  let dstEnd := dstEnd + 1
  if dstEnd = srcEnd then v.poke dstEnd fill else clearRange fill v dstEnd srcEnd

def directScrollBackward (g : Geometry) (attrib : Byte) (v : Video) (x1 y1 x2 y2 xdst ydst : ℤ) :
    Video :=
  let xdst2 := xdst + (x2 - x1)
  let ydst2 := ydst + (y2 - y1)
  scrollBackward (fillWord attrib) v (g.videoOffset xdst ydst) (g.videoOffset x1 y1)
    (g.videoOffset xdst2 ydst2)
    (g.videoOffset x2 y2)

def directScrollUp (g : Geometry) (attrib : Byte) (v : Video) (y1 y2 ydst : ℤ) : Video :=
  directScrollBackward g attrib v 0 y1 g.maxCol y2 0 ydst

def directScrollDown (g : Geometry) (attrib : Byte) (v : Video) (y1 y2 ydst : ℤ) : Video :=
  directScrollForward g attrib v 0 y1 g.maxCol y2 0 ydst

def directScrollLeft (g : Geometry) (attrib : Byte) (v : Video) (y x1 x2 xdst : ℤ) : Video :=
  directScrollBackward g attrib v x1 y x2 y xdst y

def directScrollRight (g : Geometry) (attrib : Byte) (v : Video) (y x1 x2 xdst : ℤ) : Video :=
  directScrollForward g attrib v x1 y x2 y xdst y

/-- The end of `direct_write_ch`: all rows go up by one, below the last one. -/
def directNewRow (g : Geometry) (attrib : Byte) (v : Video) (col row : ℤ) : Video × ℤ × ℤ :=
  if row > g.maxRow then (directScrollBackward g attrib v 0 1 g.maxCol g.maxRow 0 0, col, row - 1)
    else (v, col, row)

/-- `direct_write_ch` -/
def directWriteCh (g : Geometry) (attrib : Byte) (v : Video) (ch : Byte) (col row : ℤ) :
    Video × ℤ × ℤ :=
  let (v, col, row) :=
    if ch = 0x0a then (v, col, row + 1)
    else if ch = 0x0d then (v, 0, row)
    else if ch = 0x08 then
      if col > 0 then (v, col - 1, row) else if row > 0 then (v, (g.maxCol : ℤ), row - 1)
        else (v, col, row)
    else if ch = 0x07 then (v, col, row)
    else (v.poke (g.videoOffset col row) (attrib ++ ch), col + 1, row)
  if col > g.maxCol then directNewRow g attrib v 0 (row + 1) else directNewRow g attrib v col row

variable {fill : Word} {v : Video}

theorem writes_pokel (v : Video) (a : ℤ) (lo hi : Word) :
    Writes v (pokel v a lo hi) a (a + 2) fun x => if x < a + 1 then lo else hi := by
  have hhi : Writes (v.poke a lo) (pokel v a lo hi) (a + 1) (a + 2) fun _ => hi := by
    have h := writes_poke (v.poke a lo) (a + 1) hi
    rwa [Int.add_assoc] at h
  exact (writes_poke v a lo).append hhi (by omega) (by omega) (by omega)

theorem fillUp_writes {fuel : ℕ} {ptr ptrEnd : ℤ} (hfuel : ptrEnd - ptr ≤ fuel) :
    ptr ≤ (fillUp fill fuel v ptr ptrEnd).2 ∧ ptrEnd ≤ (fillUp fill fuel v ptr ptrEnd).2 ∧
      ((fillUp fill fuel v ptr ptrEnd).2 = ptr ∨ (fillUp fill fuel v ptr ptrEnd).2 ≤ ptrEnd + 1) ∧
      Writes v (fillUp fill fuel v ptr ptrEnd).1 ptr (fillUp fill fuel v ptr ptrEnd).2
      fun _ => fill := by
  induction fuel generalizing v ptr with
  | zero => exact ⟨le_refl _, by simp [fillUp]; omega, .inl rfl, Writes.refl v ptr _⟩
  | succ fuel ih =>
    rw [fillUp]
    split
    · obtain ⟨hge, hend, hle, hw⟩ := @ih (pokel v ptr fill fill) (ptr + 2) (by omega)
      refine ⟨by omega, hend, .inr (by omega), ?_⟩
      refine ((writes_pokel v ptr fill fill).append hw (by omega) (by omega)
        (by omega)).congr fun x _ _ => ?_
      split
      · exact ite_self _
      · rfl
    · exact ⟨le_refl _, by dsimp only; omega, .inl rfl, Writes.refl v ptr _⟩

theorem fillDown_writes {fuel : ℕ} {ptr ptrEnd : ℤ} (hfuel : ptr - ptrEnd + 1 ≤ fuel) :
    (fillDown fill fuel v ptr ptrEnd).2 ≤ ptr ∧ (fillDown fill fuel v ptr ptrEnd).2 < ptrEnd ∧
      ((fillDown fill fuel v ptr ptrEnd).2 = ptr ∨
        ptrEnd - 2 ≤ (fillDown fill fuel v ptr ptrEnd).2) ∧
      Writes v (fillDown fill fuel v ptr ptrEnd).1 ((fillDown fill fuel v ptr ptrEnd).2 + 2)
      (ptr + 2)
        fun _ => fill := by
  induction fuel generalizing v ptr with
  | zero => exact ⟨le_refl _, by simp [fillDown]; omega, .inl rfl, Writes.refl v _ _⟩
  | succ fuel ih =>
    rw [fillDown]
    split
    · obtain ⟨hle, hend, hge, hw⟩ := @ih (pokel v ptr fill fill) (ptr - 2) (by omega)
      rw [Int.sub_add_cancel] at hw
      refine ⟨by omega, hend, .inr (by omega), ?_⟩
      refine ((writes_pokel v ptr fill fill).prepend hw (by omega) (by omega)).congr fun x _ _ => ?_
      split
      · rfl
      · exact ite_self _
    · exact ⟨le_refl _, by dsimp only; omega, .inl rfl, Writes.refl v _ _⟩

/-- Cells are copied down by `k`; what is read has not been written. -/
theorem copyUp_writes {fuel : ℕ} {dst src dstEnd : ℤ} (hsrc : dst < src)
    (hfuel : dstEnd - dst + 1 ≤ fuel) :
    dst ≤ (copyUp fuel v dst src dstEnd).2 ∧ dstEnd < (copyUp fuel v dst src dstEnd).2 ∧
      ((copyUp fuel v dst src dstEnd).2 = dst ∨ dst ≤ dstEnd ∧
        (copyUp fuel v dst src dstEnd).2 ≤ dstEnd + 2) ∧
      Writes v (copyUp fuel v dst src dstEnd).1 dst (copyUp fuel v dst src dstEnd).2
        fun x => v.mem (x + (src - dst)) := by
  induction fuel generalizing v dst src with
  | zero => exact ⟨le_refl _, by simp [copyUp]; omega, .inl rfl, Writes.refl v _ _⟩
  | succ fuel ih =>
    rw [copyUp]
    split
    · obtain ⟨hge, hend, hle, hw⟩ :=
        @ih (pokel v dst (v.mem src) (v.mem (src + 1))) (dst + 2) (src + 2) (by omega) (by omega)
      have hfirst := writes_pokel v dst (v.mem src) (v.mem (src + 1))
      refine ⟨by omega, hend, .inr (by omega), ?_⟩
      refine (hfirst.append hw (by omega) (by omega) (by omega)).congr fun x hx _ => ?_
      split
      · split
        · rw [show x + (src - dst) = src by omega]
        · rw [show x + (src - dst) = src + 1 by omega]
      · rw [hfirst.outside _ (by omega)]
        congr 1
        omega
    · exact ⟨le_refl _, by dsimp only; omega, .inl rfl, Writes.refl v _ _⟩

theorem copyDown_writes {fuel : ℕ} {dst src dstEnd : ℤ} (hsrc : src < dst)
    (hfuel : dst - dstEnd + 1 ≤ fuel) :
    (copyDown fuel v dst src dstEnd).2 ≤ dst ∧ (copyDown fuel v dst src dstEnd).2 < dstEnd ∧
      ((copyDown fuel v dst src dstEnd).2 = dst ∨ dstEnd ≤ dst ∧
        dstEnd - 2 ≤ (copyDown fuel v dst src dstEnd).2) ∧
      Writes v (copyDown fuel v dst src dstEnd).1 ((copyDown fuel v dst src dstEnd).2 + 2) (dst + 2)
        fun x => v.mem (x - (dst - src)) := by
  induction fuel generalizing v dst src with
  | zero => exact ⟨le_refl _, by simp [copyDown]; omega, .inl rfl, Writes.refl v _ _⟩
  | succ fuel ih =>
    rw [copyDown]
    split
    · obtain ⟨hle, hend, hge, hw⟩ :=
        @ih (pokel v dst (v.mem src) (v.mem (src + 1))) (dst - 2) (src - 2) (by omega) (by omega)
      rw [Int.sub_add_cancel] at hw
      have hfirst := writes_pokel v dst (v.mem src) (v.mem (src + 1))
      refine ⟨by omega, hend, .inr (by omega), ?_⟩
      refine (hfirst.prepend hw (by omega) (by omega)).congr fun x hx _ => ?_
      split
      · rw [hfirst.outside _ (by omega)]
        congr 1
        omega
      · split
        · rw [show x - (dst - src) = src by omega]
        · rw [show x - (dst - src) = src + 1 by omega]
    · exact ⟨le_refl _, by dsimp only; omega, .inl rfl, Writes.refl v _ _⟩

theorem clearRange_writes {ptr ptrEnd : ℤ} (h : ptr ≤ ptrEnd) :
    Writes v (clearRange fill v ptr ptrEnd) ptr (ptrEnd + 1) fun _ => fill := by
  have hloop (v : Video) (p : ℤ) (hp : p ≤ ptrEnd + 1) :
      Writes v (let (v, p) := fillUp fill (ptrEnd - p).toNat v p ptrEnd; if p =
        ptrEnd then v.poke p fill else v) p
        (ptrEnd + 1) fun _ => fill := by
    obtain ⟨hge, hend, hle, hw⟩ := @fillUp_writes fill v (ptrEnd - p).toNat p ptrEnd
      (Int.self_le_toNat _)
    dsimp only
    split
    · rename_i heq
      rw [heq] at hw ⊢
      refine (hw.append (writes_poke _ ptrEnd fill) (by omega) (le_refl _)
        (by omega)).congr fun x _ _ => ?_
      exact ite_self _
    · rw [show (fillUp fill (ptrEnd - p).toNat v p ptrEnd).2 = ptrEnd + 1 by omega] at hw
      exact hw
  unfold clearRange
  split
  · rename_i v' p heq
    split at heq
    · cases heq
      refine ((writes_poke v ptr fill).append (hloop _ _ (by omega)) (by omega) (le_refl _)
        (by omega)).congr
        fun x _ _ => ?_
      exact ite_self _
    · cases heq
      exact hloop _ _ (by omega)

theorem clearRange_empty {ptr ptrEnd : ℤ} (h : ptrEnd < ptr) :
    clearRange fill v ptr ptrEnd = if ptr % 2 ≠ 0 then v.poke ptr fill else v := by
  have hfuel : (ptrEnd - ptr).toNat = 0 := by omega
  have hfuel' : (ptrEnd - (ptr + 1)).toNat = 0 := by omega
  unfold clearRange
  by_cases hodd : ptr % 2 ≠ 0
  · rw [if_pos hodd, if_pos hodd]
    dsimp only
    rw [hfuel', fillUp]
    exact if_neg (by omega)
  · rw [if_neg hodd, if_neg hodd]
    dsimp only
    rw [hfuel, fillUp]
    exact if_neg (by omega)

theorem copyUpTo_writes {dst src dstEnd srcEnd : ℤ} (hk : dst < src) (hle : dst ≤ dstEnd + 1)
    (hend : srcEnd = dstEnd + (src - dst)) :
    ∃ hi, dstEnd < hi ∧ hi ≤ dstEnd + 2 ∧
      Writes v (copyUpTo v dst src dstEnd srcEnd) (min dst dstEnd) hi fun x => v.mem
      (x + (src - dst)) := by
  obtain ⟨hge, hgt, hlast, hw⟩ :=
    @copyUp_writes v (dstEnd - dst + 1).toNat dst src dstEnd hk (Int.self_le_toNat _)
  unfold copyUpTo
  dsimp only
  generalize copyUp (dstEnd - dst + 1).toNat v dst src dstEnd = r at *
  split
  · -- the last cell is copied once more
    rename_i hone
    have hread : r.1.mem srcEnd = v.mem srcEnd := hw.outside _ (by omega)
    have hlastCell := writes_poke r.1 dstEnd (v.mem srcEnd)
    rw [hread]
    refine ⟨dstEnd + 1, by omega, by omega, ?_⟩
    obtain hdst | hdst := Int.lt_or_le dstEnd dst
    · rw [min_eq_right (by omega)]
      refine (hw.cover hlastCell (by omega) (by omega)).congr fun x hx hx' => ?_
      congr 1
      omega
    · rw [min_eq_left hdst]
      rw [show r.2 = dstEnd + 1 by omega] at hw
      refine (hw.overwrite hlastCell hdst (by omega)).congr fun x hx hx' => ?_
      split
      · congr 1
        omega
      · rfl
  · have hdst : dst ≤ dstEnd := by omega
    rw [min_eq_left hdst]
    exact ⟨r.2, hgt, by omega, hw⟩

theorem scrollBackward_writes {dst src dstEnd srcEnd : ℤ} (hk : dst < src) (hle : dst ≤ dstEnd)
    (hend : srcEnd = dstEnd + (src - dst)) :
    Writes v (scrollBackward fill v dst src dstEnd srcEnd) dst (srcEnd + 1)
      fun x => if x ≤ dstEnd then v.mem (x + (src - dst)) else fill := by
  have hcopy : ∃ hi, dstEnd < hi ∧ hi ≤ dstEnd + 2 ∧
      Writes v (if dst % 2 ≠ 0 ∧ src % 2 ≠ 0 then copyUpTo (v.poke dst (v.mem src)) (dst + 1)
        (src + 1) dstEnd srcEnd
        else copyUpTo v dst src dstEnd srcEnd) dst hi fun x => v.mem (x + (src - dst)) := by
    split
    · have hfirst := writes_poke v dst (v.mem src)
      obtain ⟨hi, hlo, hhi, hw⟩ := @copyUpTo_writes (v.poke dst (v.mem src)) (dst + 1)
        (src + 1) dstEnd srcEnd
        (by omega) (by omega) (by omega)
      refine ⟨hi, hlo, hhi, ?_⟩
      refine (hfirst.append hw (by omega) (by omega) (by omega)).congr fun x hx hx' => ?_
      split
      · congr 1
        omega
      · rw [hfirst.outside _ (by omega)]
        congr 1
        omega
    · obtain ⟨hi, hlo, hhi, hw⟩ := @copyUpTo_writes v dst src dstEnd srcEnd hk (by omega) hend
      rw [min_eq_left hle] at hw
      exact ⟨hi, hlo, hhi, hw⟩
  obtain ⟨hi, hlo, hhi, hcopy⟩ := hcopy
  unfold scrollBackward
  dsimp only
  generalize (if dst % 2 ≠ 0 ∧ src % 2 ≠ 0 then copyUpTo (v.poke dst (v.mem src)) (dst + 1)
    (src + 1) dstEnd srcEnd
    else copyUpTo v dst src dstEnd srcEnd) = v₁ at *
  have hfill : Writes v₁ (if dstEnd + 1 = srcEnd then v₁.poke (dstEnd + 1) fill
    else clearRange fill v₁ (dstEnd + 1) srcEnd)
      (dstEnd + 1) (srcEnd + 1) fun _ => fill := by
    split
    · rename_i heq
      rw [← heq]
      exact writes_poke v₁ (dstEnd + 1) fill
    · exact clearRange_writes (by omega)
  refine (hcopy.append hfill (by omega) (by omega) (by omega)).congr fun x _ _ => ?_
  split
  · rw [if_pos (by omega)]
  · rw [if_neg (by omega)]

theorem scrollBackward_fill {dst src dstEnd srcEnd x : ℤ} (hx : dstEnd < x) (hx' : x ≤ srcEnd) :
    (scrollBackward fill v dst src dstEnd srcEnd).mem x = fill := by
  unfold scrollBackward
  dsimp only
  split
  · exact if_pos (by omega)
  · exact (clearRange_writes (by omega)).inside x (by omega) (by omega)

theorem copyUp_const {c : Word} {fuel : ℕ} {dst src dstEnd : ℤ} (h : ∀ x, v.mem x = c) (x : ℤ) :
    (copyUp fuel v dst src dstEnd).1.mem x = c := by
  induction fuel generalizing v dst src with
  | zero => exact h x
  | succ fuel ih =>
    rw [copyUp]
    split
    · refine ih fun x => ?_
      simp [pokel, poke, h]
    · exact h x

theorem poke_const {c : Word} (h : ∀ x, v.mem x = c) (a x : ℤ) : (v.poke a c).mem x = c := by
  unfold poke
  dsimp only
  split
  · rfl
  · exact h x

theorem copyUpTo_const {c : Word} {dst src dstEnd srcEnd : ℤ} (h : ∀ x, v.mem x = c) (x : ℤ) :
    (copyUpTo v dst src dstEnd srcEnd).mem x = c := by
  unfold copyUpTo
  dsimp only
  split
  · rw [copyUp_const h]
    exact poke_const (copyUp_const h) _ x
  · exact copyUp_const h x

theorem scrollBackward_const {c : Word} {dst src dstEnd srcEnd x : ℤ} (h : ∀ x, v.mem x = c)
    (hend : srcEnd ≤ dstEnd)
    (hx : x ≤ dstEnd) : (scrollBackward fill v dst src dstEnd srcEnd).mem x = c := by
  unfold scrollBackward
  dsimp only
  rw [if_neg (by omega), clearRange_empty (by omega)]
  have hcopy : ∀ x, (if dst % 2 ≠ 0 ∧ src % 2 ≠ 0 then
      copyUpTo (v.poke dst (v.mem src)) (dst + 1) (src + 1) dstEnd srcEnd
      else copyUpTo v dst src dstEnd srcEnd).mem x = c := by
    intro x
    split
    · rw [h]
      exact copyUpTo_const (poke_const h dst) x
    · exact copyUpTo_const h x
  split
  · rw [poke]
    dsimp only
    rw [if_neg (by omega)]
    exact hcopy x
  · exact hcopy x

theorem copyDownTo_writes {dst src dstEnd srcEnd : ℤ} (hk : src < dst) (hle : dstEnd ≤ dst + 1)
    (hend : srcEnd = dstEnd - (dst - src)) :
    Writes v (copyDownTo v dst src dstEnd srcEnd) dstEnd (dst + 2) fun x => v.mem
    (x - (dst - src)) := by
  obtain ⟨hge, hlt, hlast, hw⟩ :=
    @copyDown_writes v (dst - dstEnd + 1).toNat dst src dstEnd hk (Int.self_le_toNat _)
  unfold copyDownTo
  dsimp only
  generalize copyDown (dst - dstEnd + 1).toNat v dst src dstEnd = r at *
  split
  · rename_i hone
    have hread : r.1.mem srcEnd = v.mem srcEnd := hw.outside _ (by omega)
    have hlastCell := writes_poke r.1 dstEnd (v.mem srcEnd)
    rw [hread]
    rw [show r.2 + 2 = dstEnd + 1 by omega] at hw
    refine (hw.prepend hlastCell (by omega) (by omega)).congr fun x hx hx' => ?_
    split
    · congr 1
      omega
    · rfl
  · rw [show r.2 + 2 = dstEnd by omega] at hw
    exact hw

theorem fillBefore_writes {dstEnd srcEnd : ℤ} (hk : srcEnd < dstEnd) :
    Writes v (fillBefore fill v dstEnd srcEnd) srcEnd dstEnd fun _ => fill := by
  unfold fillBefore
  dsimp only
  split
  · rename_i heq
    have h := writes_poke v (dstEnd - 1) fill
    rw [Int.sub_add_cancel] at h
    rw [← heq]
    exact h
  · obtain ⟨hge, hlt, hlast, hw⟩ :=
      @fillDown_writes fill v (dstEnd - 1 - 1 - srcEnd + 1).toNat (dstEnd - 1 - 1) srcEnd
        (Int.self_le_toNat _)
    generalize fillDown fill (dstEnd - 1 - 1 - srcEnd + 1).toNat v (dstEnd - 1 - 1) srcEnd = r at *
    rw [show dstEnd - 1 - 1 + 2 = dstEnd by omega] at hw
    split
    · rw [show r.2 + 2 = srcEnd + 1 by omega] at hw
      refine (hw.prepend (writes_poke r.1 srcEnd fill) (by omega)
        (by omega)).congr fun x hx hx' => ?_
      exact ite_self _
    · rw [show r.2 + 2 = srcEnd by omega] at hw
      exact hw

/-- The address behind the last cell that is written: one too many, if the copy cannot be
aligned. -/
def spillEnd (dst src : ℤ) : ℤ := if dst % 2 ≠ 0 ∧ src % 2 ≠ 0 then dst + 1 else dst + 2

theorem scrollForward_writes {dst src dstEnd srcEnd : ℤ} (hk : src < dst) (hle : dstEnd ≤ dst)
    (hend : srcEnd = dstEnd - (dst - src)) :
    Writes v (scrollForward fill v dst src dstEnd srcEnd) srcEnd (spillEnd dst src)
      fun x => if x < dstEnd then fill else v.mem (x - (dst - src)) := by
  have hcopy : Writes v (if dst % 2 ≠ 0 ∧ src % 2 ≠ 0 then
      copyDownTo (v.poke dst (v.mem src)) (dst - 1) (src - 1) dstEnd srcEnd
      else copyDownTo v dst src dstEnd srcEnd) dstEnd (spillEnd dst src) fun x => v.mem
        (x - (dst - src)) := by
    unfold spillEnd
    split
    · have hfirst := writes_poke v dst (v.mem src)
      have hw := @copyDownTo_writes (v.poke dst (v.mem src)) (dst - 1)
        (src - 1) dstEnd srcEnd (by omega) (by omega)
        (by omega)
      rw [show dst - 1 + 2 = dst + 1 by omega] at hw
      refine (hfirst.cover hw hle (le_refl _)).congr fun x hx hx' => ?_
      rw [hfirst.outside _ (by omega)]
      congr 1
      omega
    · exact copyDownTo_writes hk (by omega) hend
  have hspill : dst < spillEnd dst src := by
    unfold spillEnd
    split <;> omega
  exact hcopy.prepend (fillBefore_writes (by omega)) (by omega) (by omega)

theorem copyDown_const {c : Word} {fuel : ℕ} {dst src dstEnd : ℤ} (h : ∀ x, v.mem x = c) (x : ℤ) :
    (copyDown fuel v dst src dstEnd).1.mem x = c := by
  induction fuel generalizing v dst src with
  | zero => exact h x
  | succ fuel ih =>
    rw [copyDown]
    split
    · refine ih fun x => ?_
      simp [pokel, poke, h]
    · exact h x

theorem copyDownTo_const {c : Word} {dst src dstEnd srcEnd : ℤ} (h : ∀ x, v.mem x = c) (x : ℤ) :
    (copyDownTo v dst src dstEnd srcEnd).mem x = c := by
  unfold copyDownTo
  dsimp only
  split
  · rw [copyDown_const h]
    exact poke_const (copyDown_const h) _ x
  · exact copyDown_const h x

/-- With one word everywhere, and an end of the source that is not in front of the
destination, nothing changes. -/
theorem scrollForward_const {c : Word} {dst src dstEnd srcEnd : ℤ} (h : ∀ x, v.mem x = c)
    (hend : dstEnd ≤ srcEnd)
    (x : ℤ) : (scrollForward fill v dst src dstEnd srcEnd).mem x = c := by
  have hfuel : (dstEnd - 1 - 1 - srcEnd + 1).toNat = 0 := by omega
  unfold scrollForward fillBefore
  dsimp only
  rw [if_neg (by omega), hfuel, fillDown]
  dsimp only
  rw [if_neg (by omega)]
  split
  · rw [h]
    exact copyDownTo_const (poke_const h dst) x
  · exact copyDownTo_const h x

end DjgppLibc.Termios
