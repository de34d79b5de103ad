import DjgppLibc.EditCommands

/-!
# The video BIOS driver

The functions of `ttyscrn.c` that use interrupt 10h, and the documented effects of its
functions 02h, 06h, 07h, 08h, 09h and 0Eh on page 0. Where `vbios_write_ch` increments the
pointer to the row instead of the row, the row it goes on with is what happens to be behind
it in memory.
-/
namespace DjgppLibc.Termios

open LoggedMemory

variable {g : Geometry} {attrib init : Byte}

def byte (x : ℤ) : ℤ := x % 256

def biosSetCursor (s : Screen) (dh dl : ℤ) : Screen := { s with row := byte dh, col := byte dl }

def biosWindow (g : Geometry) (s : Screen) (y1 x1 y2 x2 : ℤ) (f : ℤ → ℤ → Word) : Screen :=
  { s with video := { s.video with mem := fun a =>
      let r := (a - g.buffer) / (g.maxCol + 1)
      let c := (a - g.buffer) % (g.maxCol + 1)
      if y1 ≤ r ∧ r ≤ y2 ∧ r ≤ g.maxRow ∧ x1 ≤ c ∧ c ≤ x2 then f r c else s.video.mem a } }

def biosScrollUp (g : Geometry) (s : Screen) (al : ℤ) (bh : Byte) (ch cl dh dl : ℤ) : Screen :=
  biosWindow g s (byte ch) (byte cl) (byte dh) (byte dl) fun r c =>
    if byte al ≠ 0 ∧ r + byte al ≤ byte dh then g.cell s.video (r + byte al) c else fillWord bh

def biosScrollDown (g : Geometry) (s : Screen) (al : ℤ) (bh : Byte) (ch cl dh dl : ℤ) : Screen :=
  biosWindow g s (byte ch) (byte cl) (byte dh) (byte dl) fun r c =>
    if byte al ≠ 0 ∧ byte ch ≤ r - byte al then g.cell s.video (r - byte al) c else fillWord bh

/-- Function 08h: the character and the attribute at the cursor -/
def biosRead (g : Geometry) (s : Screen) : Byte × Byte :=
  let w := g.cell s.video s.row s.col
  (w.setWidth 8, (w >>> 8).setWidth 8)

def pokes (v : Video) (a : ℤ) (w : Word) : ℕ → Video
  | 0 => v
  | n + 1 => pokes (v.poke a w) (a + 1) w n

/-- Function 09h: a character, an attribute and a count, from the cursor on -/
def biosWrite (g : Geometry) (s : Screen) (al bl : Byte) (cx : ℤ) : Screen :=
  { s with video := pokes s.video (g.videoOffset s.col s.row) (bl ++ al) (cx % 65536).toNat }

def biosNewRow (g : Geometry) (s : Screen) (attr : Byte) : Screen :=
  if s.row ≤ g.maxRow then s
  else { biosScrollUp g s 1 attr 0 0 g.maxRow g.maxCol with row := g.maxRow }

/-- Function 0Eh; a character gets the attribute that is there. -/
def biosTeletype (g : Geometry) (s : Screen) (al : Byte) : Screen :=
  let attr := (biosRead g s).2
  if al = 0x0d then { s with col := 0 }
  else if al = 0x0a then biosNewRow g { s with row := s.row + 1 } attr
  else if al = 0x08 then { s with col := max 0 (s.col - 1) }
  else if al = 0x07 then s
  else
    let s := { s with video := s.video.poke (g.videoOffset s.col s.row) (attr ++ al) }
    if s.col < (g.maxCol : ℤ) then { s with col := s.col + 1 }
    else biosNewRow g { s with col := 0, row := s.row + 1 } attr

/-- `set_cursor` -/
def setCursor (g : Geometry) (s : Screen) (col row : ℤ) : Screen :=
  let row := if row < 0 then 0 else if row > g.maxRow then (g.maxRow : ℤ) else row
  let col := if col < 0 then 0 else if col > g.maxCol then (g.maxCol : ℤ) else col
  if col = s.col ∧ row = s.row then s else biosSetCursor s row col

/-- `vbios_write_ch`; `behind` is the `int` behind the row in memory. -/
def vbiosWriteCh (g : Geometry) (attrib init : Byte) (behind : ℤ) (s : Screen) (ch : Byte)
    (col row : ℤ) :
    Screen × ℤ × ℤ :=
  let s := if s.attribChanged = false ∧ attrib ≠ init then { s with attribChanged := true } else s
  if (attrib = init ∧ s.attribChanged = false) ∨ ch = 0x0d ∨ ch = 0x0a ∨ ch = 0x08 ∨ ch = 0x07 then
    let s := biosTeletype g s ch
    (s, s.col, s.row)
  else
    let s := biosWrite g s ch attrib 1
    let col := col + 1
    if col > g.maxCol then (setCursor g s 0 behind, 0, row) else (setCursor g s col row, col, row)

/-- `vbios_clear`, behind the part of the first line -/
def vbiosClearRest (g : Geometry) (attrib : Byte) (s : Screen) (y1 x2 y2 : ℤ) : Screen :=
  if y1 > y2 then s
  else
    let y2 := if x2 ≠ 0 then y2 - 1 else y2
    let s := if y1 < y2 then biosScrollUp g s 0 attrib y1 0 y2 g.maxCol else s
    if x2 ≠ 0 ∨ y1 = y2 then biosScrollUp g s 0 attrib y1 0 (y2 + 1) x2 else s

/-- `vbios_clear` -/
def vbiosClear (g : Geometry) (attrib : Byte) (s : Screen) (x1 y1 x2 y2 : ℤ) : Screen :=
  if x1 > 0 ∨ y1 = y2 then
    vbiosClearRest g attrib (biosScrollUp g s 0 attrib y1 x1 y1 (if y1 = y2 then x2 else g.maxCol))
      (y1 + 1) x2 y2
  else vbiosClearRest g attrib s y1 x2 y2

def vbiosScrollUp (g : Geometry) (attrib : Byte) (s : Screen) (y1 y2 ydst : ℤ) : Screen :=
  biosScrollUp g s y1 attrib ydst 0 y2 g.maxCol

def vbiosScrollDown (g : Geometry) (attrib : Byte) (s : Screen) (y1 y2 ydst : ℤ) : Screen :=
  biosScrollDown g s ydst attrib y1 0 y2 g.maxCol

def vbiosCopy (g : Geometry) (s : Screen) (y colGet colPut : ℤ) : Screen :=
  let s := setCursor g s colGet y
  let (al, ah) := biosRead g s
  let s := setCursor g s colPut y
  biosWrite g s al ah 1

/-- `while (col_get >= x1)`, with the column to write to at the end. -/
def vbiosCopyRight (g : Geometry) (y x1 : ℤ) : ℕ → Screen → ℤ → ℤ → Screen × ℤ
  | 0, s, _, colPut => (s, colPut)
  | fuel + 1, s, colGet, colPut =>
      if colGet ≥ x1 then vbiosCopyRight g y x1 fuel (vbiosCopy g s y colGet colPut) (colGet - 1)
      (colPut - 1)
      else (s, colPut)

/-- `vbios_scroll_right` -/
def vbiosScrollRight (g : Geometry) (attrib : Byte) (s : Screen) (y x1 x2 xdst : ℤ) : Screen :=
  let origCol := s.col
  let origRow := s.row
  let colPut := xdst + (x2 - x1)
  let colGet := x1 + (x2 - x1)
  let (colGet, colPut) := if colPut > g.maxCol then (colGet - (colPut - g.maxCol), (g.maxCol : ℤ))
    else (colGet, colPut)
  let (s, colPut) := vbiosCopyRight g y x1 (colGet - x1 + 1).toNat s colGet colPut
  let s := setCursor g s x1 y
  let s := biosWrite g s 0x20 attrib (colPut - x1 + 1)
  setCursor g s origCol origRow

/-- `while (col_get <= x2)`, with the column to write to at the end. -/
def vbiosCopyLeft (g : Geometry) (y x2 : ℤ) : ℕ → Screen → ℤ → ℤ → Screen × ℤ
  | 0, s, _, colPut => (s, colPut)
  | fuel + 1, s, colGet, colPut =>
      if colGet ≤ x2 then vbiosCopyLeft g y x2 fuel (vbiosCopy g s y colGet colPut) (colGet + 1)
      (colPut + 1)
      else (s, colPut)

/-- `vbios_scroll_left` -/
def vbiosScrollLeft (g : Geometry) (attrib : Byte) (s : Screen) (y x1 x2 xdst : ℤ) : Screen :=
  let origCol := s.col
  let origRow := s.row
  let scrollAmt := x1 - xdst
  let (s, colPut) := vbiosCopyLeft g y x2 (x2 - x1 + 1).toNat s x1 xdst
  let s := setCursor g s colPut y
  let s := biosWrite g s 0x20 attrib scrollAmt
  setCursor g s origCol origRow

/-- `__tty_vbios_intface` -/
def vbiosInterface (g : Geometry) (attrib init : Byte) (behind : ℤ) : Interface where
  writeCh := vbiosWriteCh g attrib init behind
  scrollUp := vbiosScrollUp g attrib
  scrollDown := vbiosScrollDown g attrib
  scrollLeft := vbiosScrollLeft g attrib
  scrollRight := vbiosScrollRight g attrib
  clear := vbiosClear g attrib

/-- What is written: a character for `write_ch`, or an edit command. -/
inductive Output
  | text (ch : Byte)
  | edit (cmd : EditCommand) (arg : Option (BitVec 32))

/-- A turn of the loop in `__libc_termios_write_tty`, with its column and row. -/
def display (i : Interface) (g : Geometry) : Screen × ℤ × ℤ → Output → Screen × ℤ × ℤ
  | (s, col, row), .text ch => i.writeCh s ch col row
  | (s, col, row), .edit cmd arg =>
      let s := executeEdit i g (setCursor g s col row) cmd arg
      (s, s.col, s.row)

/-- `__libc_termios_write_tty` -/
def displayAll (i : Interface) (g : Geometry) (s : Screen) (l : List Output) : Screen :=
  let (s, col, row) := l.foldl (display i g) (s, s.col, s.row)
  setCursor g s col row

theorem Geometry.decode_offset {r c : ℤ} (hc : g.Col c) :
    (g.videoOffset c r - g.buffer) / (g.maxCol + 1) = r ∧ (g.videoOffset c r - g.buffer) %
    (g.maxCol + 1) = c := by
  obtain ⟨hc0, hcm⟩ := hc
  refine (Int.ediv_emod_unique (by omega)).2 ⟨?_, hc0, by omega⟩
  unfold videoOffset
  ring

theorem biosWindow_cell {s : Screen} {y1 x1 y2 x2 r c : ℤ} {f : ℤ → ℤ → Word} (hc : g.Col c) :
    g.cell (biosWindow g s y1 x1 y2 x2 f).video r c =
      if y1 ≤ r ∧ r ≤ y2 ∧ r ≤ g.maxRow ∧ x1 ≤ c ∧ c ≤ x2 then f r c else g.cell s.video r c := by
  obtain ⟨hr, hc⟩ := Geometry.decode_offset (r := r) hc
  unfold biosWindow Geometry.cell
  dsimp only
  rw [hr, hc]

theorem byte_eq {x : ℤ} (h0 : 0 ≤ x) (h : x ≤ 0xff) : byte x = x := Int.emod_eq_of_lt h0 (by omega)

theorem setCursor_eq {s : Screen} {col row : ℤ} (hwide : g.maxCol ≤ 0xff) (hcol : g.Col col)
    (hrow : g.Row row) :
    setCursor g s col row = { s with col := col, row := row } := by
  have hmax := g.maxRow_le
  obtain ⟨hc0, hcm⟩ := hcol
  obtain ⟨hr0, hrm⟩ := hrow
  unfold setCursor
  dsimp only
  rw [if_neg (not_lt.2 hr0), if_neg (not_lt.2 hc0), if_neg (not_lt.2 hrm), if_neg (not_lt.2 hcm)]
  split
  · rename_i h
    rw [h.1, h.2]
  · unfold biosSetCursor
    rw [byte_eq hr0 (by omega), byte_eq hc0 (by omega)]

/-- Blanks in a window. -/
theorem biosClear_cell {s : Screen} {y1 x1 y2 x2 r c : ℤ} (hwide : g.maxCol ≤ 0xff) (hy1 : 0 ≤ y1)
    (hx1 : 0 ≤ x1)
    (hy2 : g.Row y2) (hx2 : g.Col x2) (hy : y1 ≤ g.maxRow) (hx : x1 ≤ g.maxCol) (hc : g.Col c) :
    g.cell (biosScrollUp g s 0 attrib y1 x1 y2 x2).video r c =
      if y1 ≤ r ∧ r ≤ y2 ∧ x1 ≤ c ∧ c ≤ x2 then fillWord attrib else g.cell s.video r c := by
  have hmax := g.maxRow_le
  obtain ⟨hy20, hy2m⟩ := hy2
  obtain ⟨hx20, hx2m⟩ := hx2
  unfold biosScrollUp
  rw [biosWindow_cell hc, byte_eq hy1 (by omega), byte_eq hx1 (by omega), byte_eq hy20 (by omega),
    byte_eq hx20 (by omega), byte_eq (le_refl 0) (by omega)]
  refine if_congr ?_ (if_neg fun h => h.1 rfl) rfl
  omega

theorem vbiosClearRest_cell {s : Screen} {y1 x2 y2 r c : ℤ} (hwide : g.maxCol ≤ 0xff)
    (h2 : g.Col x2) (hy1 : 0 ≤ y1)
    (hy2 : y2 ≤ g.maxRow)
    (hrange : y2 < y1 ∨ x2 ≠ 0 ∧ (x2 = g.maxCol ∨ y1 + 2 ≤ y2) ∨ x2 = 0 ∧ g.maxCol = 0 ∧ y1 < y2)
    (hc : g.Col c) :
    g.cell (vbiosClearRest g attrib s y1 x2 y2).video r c =
      if y1 ≤ r ∧ (r < y2 ∨ r = y2 ∧ c ≤ x2) then fillWord attrib else g.cell s.video r c := by
  obtain ⟨hx20, hx2m⟩ := id h2
  obtain ⟨hc0, hcm⟩ := id hc
  unfold vbiosClearRest
  by_cases hdone : y1 > y2
  · rw [if_pos hdone, if_neg (by omega)]
  rw [if_neg hdone]
  dsimp only
  by_cases hx2 : x2 ≠ 0
  · rw [if_pos hx2, if_pos (.inl hx2), Int.sub_add_cancel]
    rw [biosClear_cell hwide hy1 (le_refl 0) ⟨by omega, hy2⟩ h2 (by omega) (by omega) hc]
    by_cases hmore : y1 < y2 - 1
    · rw [if_pos hmore, biosClear_cell hwide hy1 (le_refl 0) ⟨by omega, by omega⟩ g.col_maxCol
        (by omega) (by omega) hc]
      by_cases hin : y1 ≤ r ∧ r ≤ y2 ∧ 0 ≤ c ∧ c ≤ x2
      · rw [if_pos hin, if_pos (by omega)]
      · rw [if_neg hin]
        refine if_congr ?_ rfl rfl
        omega
    · rw [if_neg hmore]
      refine if_congr ?_ rfl rfl
      omega
  · rw [if_neg hx2, if_neg (by omega), if_pos (by omega)]
    rw [biosClear_cell hwide hy1 (le_refl 0) ⟨by omega, hy2⟩ g.col_maxCol (by omega) (by omega) hc]
    refine if_congr ?_ rfl rfl
    omega

/-- The ranges that `vbios_clear` clears. -/
def ClearsRange (g : Geometry) (x1 y1 x2 y2 : ℤ) : Prop :=
  y1 = y2 ∨ x2 = g.maxCol ∨ x1 = 0 ∧ x2 ≠ 0 ∧ y1 + 2 ≤ y2

theorem vbiosClear_cell {s : Screen} {x1 y1 x2 y2 r c : ℤ} (hwide : g.maxCol ≤ 0xff) (h1 : g.Col x1)
    (h2 : g.Col x2)
    (h : y1 < y2 ∨ y1 = y2 ∧ x1 ≤ x2) (hy1 : 0 ≤ y1) (hy2 : y2 ≤ g.maxRow)
    (hrange : ClearsRange g x1 y1 x2 y2)
    (hc : g.Col c) :
    g.cell (vbiosClear g attrib s x1 y1 x2 y2).video r c =
      if (y1 < r ∨ y1 = r ∧ x1 ≤ c) ∧ (r < y2 ∨ r = y2 ∧ c ≤ x2) then fillWord attrib
      else g.cell s.video r c := by
  obtain ⟨hx10, hx1m⟩ := id h1
  obtain ⟨hx20, hx2m⟩ := id h2
  obtain ⟨hc0, hcm⟩ := id hc
  unfold ClearsRange at hrange
  unfold vbiosClear
  by_cases hfirst : x1 > 0 ∨ y1 = y2
  · rw [if_pos hfirst, vbiosClearRest_cell hwide h2 (by omega) hy2 (by omega) hc]
    have hlast : g.Col (if y1 = y2 then x2 else g.maxCol) := by
      split
      · exact h2
      · exact g.col_maxCol
    rw [biosClear_cell hwide hy1 hx10 ⟨hy1, by omega⟩ hlast (by omega) hx1m hc]
    by_cases hone : y1 = y2
    · rw [if_pos hone, if_neg (by omega)]
      refine if_congr ?_ rfl rfl
      omega
    · rw [if_neg hone]
      by_cases hin : y1 + 1 ≤ r ∧ (r < y2 ∨ r = y2 ∧ c ≤ x2)
      · rw [if_pos hin, if_pos (by omega)]
      · rw [if_neg hin]
        refine if_congr ?_ rfl rfl
        omega
  · rw [if_neg hfirst, vbiosClearRest_cell hwide h2 hy1 hy2 (by omega) hc]
    refine if_congr ?_ rfl rfl
    omega

def SameCursor (s s' : Screen) : Prop := s'.col = s.col ∧ s'.row = s.row ∧
    s'.attribChanged = s.attribChanged

theorem SameCursor.refl (s : Screen) : SameCursor s s := ⟨rfl, rfl, rfl⟩

theorem SameCursor.trans {s s' s'' : Screen} (h : SameCursor s s') (h' : SameCursor s' s'') :
    SameCursor s s'' :=
  ⟨h'.1.trans h.1, h'.2.1.trans h.2.1, h'.2.2.trans h.2.2⟩

theorem sameCursor_biosScrollUp (s : Screen) (al : ℤ) (bh : Byte) (ch cl dh dl : ℤ) :
    SameCursor s (biosScrollUp g s al bh ch cl dh dl) := ⟨rfl, rfl, rfl⟩

theorem sameCursor_vbiosClearRest (s : Screen) (y1 x2 y2 : ℤ) :
    SameCursor s (vbiosClearRest g attrib s y1 x2 y2) := by
  unfold vbiosClearRest
  split
  · exact .refl s
  · dsimp only
    generalize (if x2 ≠ 0 then y2 - 1 else y2) = y
    have hmore : SameCursor s (if y1 < y then biosScrollUp g s 0 attrib y1 0 y g.maxCol
        else s) := by
      split
      · exact sameCursor_biosScrollUp ..
      · exact .refl s
    split
    · exact hmore.trans (sameCursor_biosScrollUp ..)
    · exact hmore

theorem sameCursor_vbiosClear (s : Screen) (x1 y1 x2 y2 : ℤ) :
    SameCursor s (vbiosClear g attrib s x1 y1 x2 y2) := by
  unfold vbiosClear
  split
  · exact (sameCursor_biosScrollUp ..).trans (sameCursor_vbiosClearRest ..)
  · exact sameCursor_vbiosClearRest ..

theorem word_halves (w : Word) : ((w >>> 8).setWidth 8 ++ w.setWidth 8 : Word) = w := by
  ext i hi
  rw [BitVec.getElem_append, ← BitVec.getLsbD_eq_getElem]
  split
  · simp
  · rename_i hge
    have hsum : 8 + (i - 8) = i := by omega
    simp [hsum]

theorem pokes_writes (v : Video) (a : ℤ) (w : Word) (n : ℕ) :
    Writes v (pokes v a w n) a (a + n) fun _ => w := by
  induction n generalizing v a with
  | zero => simpa [pokes] using Writes.refl v a _
  | succ n ih =>
    have h := (writes_poke v a w).append (ih (v.poke a w) (a + 1)) (by omega) (le_refl _) (by omega)
    rw [show a + 1 + (n : ℤ) = a + (n + 1 : ℕ) by push_cast; omega] at h
    exact h.congr fun _ _ _ => ite_self _

theorem biosWrite_one (s : Screen) (al bl : Byte) :
    biosWrite g s al bl 1 = { s with video := s.video.poke (g.videoOffset s.col s.row) (bl ++ al) } := rfl

theorem vbiosCopy_eq {s : Screen} {y colGet colPut : ℤ} (hwide : g.maxCol ≤ 0xff) (hy : g.Row y)
    (hget : g.Col colGet)
    (hput : g.Col colPut) :
    vbiosCopy g s y colGet colPut =
      ⟨s.video.poke (g.videoOffset colPut y) (s.video.mem (g.videoOffset colGet y)), colPut, y,
        s.attribChanged⟩ := by
  unfold vbiosCopy biosRead
  dsimp only
  rw [setCursor_eq hwide hget hy, setCursor_eq hwide hput hy, biosWrite_one]
  dsimp only
  rw [word_halves]
  rfl

theorem vbiosCopyRight_writes {s : Screen} {y x1 colGet colPut : ℤ} {fuel : ℕ}
    (hwide : g.maxCol ≤ 0xff) (hy : g.Row y)
    (hx1 : 0 ≤ x1) (hlt : colGet < colPut) (hput : colPut ≤ g.maxCol) (hge : x1 ≤ colGet + 1)
    (hfuel : colGet - x1 + 1 ≤ fuel) :
    (vbiosCopyRight g y x1 fuel s colGet colPut).2 = x1 + (colPut - colGet) - 1 ∧
      (vbiosCopyRight g y x1 fuel s colGet colPut).1.attribChanged = s.attribChanged ∧
      Writes s.video (vbiosCopyRight g y x1 fuel s colGet colPut).1.video
        (g.videoOffset (x1 + (colPut - colGet)) y) (g.videoOffset colPut y + 1)
        fun x => s.video.mem (x - (colPut - colGet)) := by
  have hend (h : colGet = x1 - 1) : g.videoOffset (x1 + (colPut - colGet)) y =
      g.videoOffset colPut y + 1 := by
    rw [← Geometry.offset_add_col]
    congr 1
    omega
  induction fuel generalizing s colGet colPut with
  | zero =>
    have hstop : colGet = x1 - 1 := by omega
    rw [hend hstop]
    exact ⟨by simp [vbiosCopyRight]; omega, rfl, Writes.refl _ _ _⟩
  | succ fuel ih =>
    rw [vbiosCopyRight]
    split
    · have hfirst := writes_poke s.video (g.videoOffset colPut y)
        (s.video.mem (g.videoOffset colGet y))
      rw [vbiosCopy_eq hwide hy ⟨by omega, by omega⟩ ⟨by omega, hput⟩]
      have hend' (h : colGet - 1 = x1 - 1) :
          g.videoOffset (x1 + (colPut - 1 - (colGet - 1))) y =
            g.videoOffset (colPut - 1) y + 1 := by
        rw [← Geometry.offset_add_col]
        congr 1
        omega
      obtain ⟨hcol, hchanged, hw⟩ := @ih
        ⟨s.video.poke (g.videoOffset colPut y) (s.video.mem (g.videoOffset colGet y)), colPut, y,
          s.attribChanged⟩
        (colGet - 1) (colPut - 1) (by omega) (by omega) (by omega) (by omega) hend'
      have hk : colPut - 1 - (colGet - 1) = colPut - colGet := by omega
      have hprev : g.videoOffset (colPut - 1) y + 1 = g.videoOffset colPut y := by
        rw [← Geometry.offset_add_col, Int.sub_add_cancel]
      rw [hk] at hcol hw
      rw [hprev] at hw
      have hlo : g.videoOffset (x1 + (colPut - colGet)) y ≤ g.videoOffset colPut y := by
        unfold Geometry.videoOffset
        omega
      have hgetput : g.videoOffset colGet y = g.videoOffset colPut y - (colPut - colGet) := by
        unfold Geometry.videoOffset
        omega
      refine ⟨hcol, hchanged, (hfirst.prepend hw hlo (by omega)).congr fun x hx hx' => ?_⟩
      split
      · exact hfirst.outside _ (by omega)
      · rw [hgetput]
        congr 1
        omega
    · have hstop : colGet = x1 - 1 := by omega
      rw [hend hstop]
      exact ⟨by dsimp only; omega, rfl, Writes.refl _ _ _⟩

theorem vbiosCopyLeft_writes {s : Screen} {y colGet colPut : ℤ} {fuel : ℕ} (hwide : g.maxCol ≤ 0xff)
    (hy : g.Row y)
    (hput : 0 ≤ colPut) (hlt : colPut < colGet) (hle : colGet ≤ g.maxCol + 1)
    (hfuel : g.maxCol - colGet + 1 ≤ fuel) :
    (vbiosCopyLeft g y g.maxCol fuel s colGet colPut).2 = g.maxCol - (colGet - colPut) + 1 ∧
      (vbiosCopyLeft g y g.maxCol fuel s colGet colPut).1.attribChanged = s.attribChanged ∧
      Writes s.video (vbiosCopyLeft g y g.maxCol fuel s colGet colPut).1.video
        (g.videoOffset colPut y) (g.videoOffset (g.maxCol - (colGet - colPut) + 1) y)
        fun x => s.video.mem (x + (colGet - colPut)) := by
  have hend (h : colGet = g.maxCol + 1) : g.maxCol - (colGet - colPut) + 1 = colPut := by omega
  induction fuel generalizing s colGet colPut with
  | zero =>
    have hstop : colGet = g.maxCol + 1 := by omega
    rw [hend hstop]
    exact ⟨rfl, rfl, Writes.refl _ _ _⟩
  | succ fuel ih =>
    rw [vbiosCopyLeft]
    split
    · have hfirst := writes_poke s.video (g.videoOffset colPut y)
        (s.video.mem (g.videoOffset colGet y))
      rw [vbiosCopy_eq hwide hy ⟨by omega, by omega⟩ ⟨hput, by omega⟩]
      obtain ⟨hcol, hchanged, hw⟩ := @ih
        ⟨s.video.poke (g.videoOffset colPut y) (s.video.mem (g.videoOffset colGet y)), colPut, y,
          s.attribChanged⟩
        (colGet + 1) (colPut + 1) (by omega) (by omega) (by omega) (by omega) (by omega)
      have hk : colGet + 1 - (colPut + 1) = colGet - colPut := by omega
      rw [hk] at hcol hw
      rw [Geometry.offset_add_col g colPut y 1] at hw
      have hhi : g.videoOffset colPut y + 1 ≤ g.videoOffset (g.maxCol - (colGet - colPut) + 1)
          y := by
        unfold Geometry.videoOffset
        omega
      have hgetput : g.videoOffset colGet y = g.videoOffset colPut y + (colGet - colPut) := by
        unfold Geometry.videoOffset
        omega
      refine ⟨hcol, hchanged, (hfirst.append hw (by omega) (le_refl _) hhi).congr fun x hx hx' =>
        ?_⟩
      split
      · rw [hgetput]
        congr 1
        omega
      · exact hfirst.outside _ (by omega)
    · have hstop : colGet = g.maxCol + 1 := by omega
      rw [hend hstop]
      exact ⟨rfl, rfl, Writes.refl _ _ _⟩

theorem vbiosScrollRight_spec {s : Screen} {y x1 xdst : ℤ} (hwide : g.maxCol ≤ 0xff) (hy : g.Row y)
    (hx1 : g.Col x1)
    (hlt : x1 < xdst) (hxdst : xdst ≤ g.maxCol) (hcol : g.Col s.col) (hrow : g.Row s.row) :
    SameCursor s (vbiosScrollRight g attrib s y x1 g.maxCol xdst) ∧
      Writes s.video (vbiosScrollRight g attrib s y x1 g.maxCol xdst).video (g.videoOffset x1 y)
        (g.videoOffset g.maxCol y + 1)
        fun x => if x < g.videoOffset xdst y then fillWord attrib
        else s.video.mem (x - (xdst - x1)) := by
  have hx10 := hx1.1
  have hclip : x1 + (g.maxCol - x1) - (xdst + (g.maxCol - x1) - g.maxCol) =
    g.maxCol - (xdst - x1) := by omega
  obtain ⟨hput, hchanged, hw⟩ := @vbiosCopyRight_writes g s y x1 (g.maxCol - (xdst - x1)) g.maxCol
    (g.maxCol - (xdst - x1) - x1 + 1).toNat hwide hy hx10
      (by omega) (le_refl _) (by omega) (Int.self_le_toNat _)
  have hk : (g.maxCol : ℤ) - (g.maxCol - (xdst - x1)) = xdst - x1 := by omega
  have hsum : x1 + (xdst - x1) = xdst := by omega
  rw [hk, hsum] at hput hw
  unfold vbiosScrollRight
  dsimp only
  rw [if_pos (by omega)]
  dsimp only
  rw [hclip]
  generalize vbiosCopyRight g y x1 (g.maxCol - (xdst - x1) - x1 + 1).toNat s
    (g.maxCol - (xdst - x1)) g.maxCol = r at *
  have hcx : ((r.2 - x1 + 1) % 65536).toNat = (xdst - x1).toNat := by
    rw [hput, Int.emod_eq_of_lt (by omega) (by omega)]
    congr 1
    omega
  rw [setCursor_eq hwide hx1 hy, setCursor_eq hwide hcol hrow]
  refine ⟨⟨rfl, rfl, hchanged⟩, ?_⟩
  unfold biosWrite
  dsimp only
  rw [hcx]
  have hblank := pokes_writes r.1.video (g.videoOffset x1 y) (fillWord attrib) (xdst - x1).toNat
  have hend : g.videoOffset x1 y + (xdst - x1).toNat = g.videoOffset xdst y := by
    unfold Geometry.videoOffset
    omega
  rw [hend] at hblank
  have hlo : g.videoOffset x1 y ≤ g.videoOffset xdst y := by omega
  have hhi : g.videoOffset xdst y ≤ g.videoOffset g.maxCol y + 1 := by
    unfold Geometry.videoOffset
    omega
  exact hw.prepend hblank hlo hhi

theorem vbiosScrollLeft_spec {s : Screen} {y x1 xdst : ℤ} (hwide : g.maxCol ≤ 0xff) (hy : g.Row y)
    (hx : 0 ≤ xdst)
    (hlt : xdst < x1) (hx1 : x1 ≤ g.maxCol) (hcol : g.Col s.col) (hrow : g.Row s.row) :
    SameCursor s (vbiosScrollLeft g attrib s y x1 g.maxCol xdst) ∧
      Writes s.video (vbiosScrollLeft g attrib s y x1 g.maxCol xdst).video (g.videoOffset xdst y)
        (g.videoOffset g.maxCol y + 1)
        fun x => if x ≤ g.videoOffset (g.maxCol - (x1 - xdst)) y then s.video.mem (x + (x1 - xdst))
          else fillWord attrib := by
  obtain ⟨hput, hchanged, hw⟩ := @vbiosCopyLeft_writes g s y x1 xdst
    (g.maxCol - x1 + 1).toNat hwide hy hx hlt
    (by omega) (Int.self_le_toNat _)
  have hcx : ((x1 - xdst) % 65536).toNat = (x1 - xdst).toNat := by
    rw [Int.emod_eq_of_lt (by omega) (by omega)]
  unfold vbiosScrollLeft
  dsimp only
  generalize vbiosCopyLeft g y g.maxCol (g.maxCol - x1 + 1).toNat s x1 xdst = r at *
  rw [hput, setCursor_eq hwide ⟨by omega, by omega⟩ hy, setCursor_eq hwide hcol hrow]
  refine ⟨⟨rfl, rfl, hchanged⟩, ?_⟩
  unfold biosWrite
  dsimp only
  rw [hcx]
  have hblank := pokes_writes r.1.video (g.videoOffset (g.maxCol - (x1 - xdst) + 1) y)
    (fillWord attrib) (x1 - xdst).toNat
  have hend : g.videoOffset (g.maxCol - (x1 - xdst) + 1) y + (x1 - xdst).toNat =
      g.videoOffset g.maxCol y + 1 := by
    unfold Geometry.videoOffset
    omega
  rw [hend] at hblank
  have hmid := g.offset_add_col (g.maxCol - (x1 - xdst)) y 1
  have hlo : g.videoOffset xdst y ≤ g.videoOffset (g.maxCol - (x1 - xdst) + 1) y := by
    unfold Geometry.videoOffset
    omega
  refine (hw.append hblank hlo (le_refl _) (by omega)).congr fun x _ _ => ?_
  refine if_congr ?_ rfl rfl
  omega

end DjgppLibc.Termios
