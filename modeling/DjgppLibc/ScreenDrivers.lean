import DjgppLibc.VideoBios

/-!
# Two drivers

When the direct driver and the BIOS driver leave the same characters and the same cursor.
They do not after `M` or `L` below the first row, after `@` above the last one, after `J`
with the argument 1 where `vbios_clear` takes the wrong window, and at the end of a row once
an attribute has changed.
-/
namespace DjgppLibc.Termios

open LoggedMemory

def chr (w : Word) : Byte := w.setWidth 8

theorem chr_append (a b : Byte) : chr (a ++ b) = b := by
  unfold chr
  ext i hi
  rw [BitVec.getElem_setWidth, BitVec.getLsbD_append, if_pos hi, BitVec.getLsbD_eq_getElem hi]

def SameChars (g : Geometry) (v v' : Video) : Prop :=
  ∀ r c, g.Row r → g.Col c → chr (g.cell v r c) = chr (g.cell v' r c)

def Output.Allowed (g : Geometry) : Output → Prop
  | .text ch => 0x20 ≤ ch.toNat ∨ ch = 0x0d ∨ ch = 0x0a
  | .edit cmd arg =>
      let n := (getArg cmd arg).toNat
      match cmd with
      | .ed | .el => True
      | .il | .dl | .su | .st => 1 ≤ n ∧ n ≤ g.maxRow
      | .ich | .dch | .ech => 1 ≤ n

/-- When the drivers agree, at the cursor; `plain` if no attribute was ever changed. -/
def Output.Agrees (g : Geometry) (plain : Prop) (row col : ℤ) : Output → Prop
  | .text ch => ch = 0x0d ∨ ch = 0x0a ∨ plain ∨ col < g.maxCol
  | .edit cmd arg =>
      let n : ℤ := (getArg cmd arg).toNat
      match cmd with
      | .ed => n = 1 → row = 0 ∨ col = g.maxCol ∨ col ≠ 0 ∧ 2 ≤ row
      | .el | .su | .st => True
      | .il => row = 0 ∨ g.maxRow < row + n
      | .dl => row = 0
      | .ich => col + n < 2 ^ 31 ∧ (row = g.maxRow ∨ g.maxCol < col + n)
      | .dch | .ech => col + n < 2 ^ 31

/-- The drivers agree for each output, in the state that the direct driver has then. -/
def AllAgree (g : Geometry) (attrib : Byte) (plain : Prop) : Screen × ℤ × ℤ → List Output → Prop
  | _, [] => True
  | (s, col, row), o :: l =>
      o.Agrees g plain row col ∧ AllAgree g attrib plain (display (directInterface g attrib) g (s,
        col, row) o) l

variable {g : Geometry} {attrib init : Byte} {behind : ℤ} {vd vv : Video} {row col : ℤ}
  {arg : Option (BitVec 32)}

section
variable (hwide : g.maxCol ≤ 0xff)
include hwide

theorem vbiosScrollUp_cell {s : Screen} {n ydst r c : ℤ} (hn : 1 ≤ n) (hn' : n ≤ g.maxRow)
    (hy : g.Row ydst) (hr : r ≤ g.maxRow) (hc : g.Col c) :
    g.cell (vbiosScrollUp g attrib s n g.maxRow ydst).video r c =
      if r < ydst then g.cell s.video r c
      else if r + n ≤ g.maxRow then g.cell s.video (r + n) c else fillWord attrib := by
  have hmax := g.maxRow_le
  obtain ⟨hy0, hym⟩ := hy
  obtain ⟨hc0, hcm⟩ := id hc
  unfold vbiosScrollUp biosScrollUp
  rw [biosWindow_cell hc, byte_eq hy0 (by omega), byte_eq (le_refl 0) (by omega),
    byte_eq (by omega) (by omega : (g.maxRow : ℤ) ≤ 255),
    byte_eq (by omega) (by omega : (g.maxCol : ℤ) ≤ 255), byte_eq (by omega) (by omega : n ≤ 255)]
  by_cases hlt : r < ydst
  · rw [if_pos hlt, if_neg (by omega)]
  · rw [if_neg hlt, if_pos (by omega)]
    refine if_congr ?_ rfl rfl
    omega

theorem vbiosScrollDown_cell {s : Screen} {n r c : ℤ} (hn : 1 ≤ n) (hn' : n ≤ g.maxRow)
    (hr : g.Row r) (hc : g.Col c) :
    g.cell (vbiosScrollDown g attrib s 0 g.maxRow n).video r c =
      if r < n then fillWord attrib else g.cell s.video (r - n) c := by
  have hmax := g.maxRow_le
  obtain ⟨hr0, hrm⟩ := hr
  obtain ⟨hc0, hcm⟩ := id hc
  unfold vbiosScrollDown biosScrollDown
  rw [biosWindow_cell hc, byte_eq (le_refl 0) (by omega), byte_eq (by omega)
    (by omega : (g.maxRow : ℤ) ≤ 255),
    byte_eq (by omega) (by omega : (g.maxCol : ℤ) ≤ 255), byte_eq (by omega) (by omega : n ≤ 255), if_pos (by omega)]
  by_cases hlt : r < n
  · rw [if_pos hlt, if_neg (by omega)]
  · rw [if_neg hlt, if_pos (by omega)]

theorem SameChars.scrollUp {s : Screen} {n : ℤ} (h : SameChars g vd s.video) (hn : 1 ≤ n)
    (hn' : n ≤ g.maxRow) :
    SameChars g (directScrollUp g attrib vd n g.maxRow 0)
    (vbiosScrollUp g attrib s n g.maxRow 0).video := by
  intro r c hr hc
  have hr' := hr
  obtain ⟨hr0, hrm⟩ := hr'
  have hfirst : ¬ r < 0 := not_lt.2 hr0
  rw [directScrollUp_cell (by omega) hn' hrm hc, vbiosScrollUp_cell hwide hn hn' ⟨le_refl _,
    by omega⟩ hrm hc,
    Int.sub_zero, if_neg hfirst, if_neg hfirst]
  split
  · exact h _ _ ⟨by omega, by omega⟩ hc
  · rfl

theorem SameChars.scrollDown {s : Screen} {n : ℤ} (h : SameChars g vd s.video) (hn : 1 ≤ n)
    (hn' : n ≤ g.maxRow) :
    SameChars g (directScrollDown g attrib vd 0 g.maxRow n)
    (vbiosScrollDown g attrib s 0 g.maxRow n).video := by
  intro r c hr hc
  have hr' := hr
  obtain ⟨hr0, hrm⟩ := hr'
  rw [directScrollDown_cell (by omega) (by omega) hrm hc, vbiosScrollDown_cell hwide hn hn' hr hc,
    Int.sub_zero,
    if_neg (by omega)]
  split
  · rfl
  · exact h _ _ ⟨by omega, by omega⟩ hc

theorem SameChars.clear {s : Screen} {x1 y1 x2 y2 : ℤ} (h : SameChars g vd s.video)
    (h1 : g.Col x1) (h2 : g.Col x2) (hle : y1 < y2 ∨ y1 = y2 ∧ x1 ≤ x2) (hy1 : 0 ≤ y1)
    (hy2 : y2 ≤ g.maxRow) (hrange : ClearsRange g x1 y1 x2 y2) :
    SameChars g (directClear g attrib vd x1 y1 x2 y2) (vbiosClear g attrib s x1 y1 x2 y2).video:= by
  intro r c hr hc
  rw [directClear_cell h1 h2 hle hc, vbiosClear_cell hwide h1 h2 hle hy1 hy2 hrange hc]
  split
  · rfl
  · exact h r c hr hc

/-- The cursor stays, and the characters are the same. -/
def EditsAlike (g : Geometry) (col row : ℤ) (sd sv s : Screen) : Prop :=
  SameChars g sd.video s.video ∧ (sd.col = col ∧ sd.row = row) ∧ SameCursor sv s

theorem clears_alike {cd cv : Bool} {x1 y1 x2 y2 : ℤ}
    (h : SameChars g vd vv) (h1 : g.Col x1) (h2 : g.Col x2)
    (hle : y1 < y2 ∨ y1 = y2 ∧ x1 ≤ x2) (hy1 : 0 ≤ y1) (hy2 : y2 ≤ g.maxRow)
    (hrange : ClearsRange g x1 y1 x2 y2) :
    EditsAlike g col row ((directInterface g attrib).clear ⟨vd, col, row, cd⟩ x1 y1 x2 y2) ⟨vv, col,
      row, cv⟩ ((vbiosInterface g attrib init behind).clear ⟨vv, col, row, cv⟩ x1 y1 x2 y2):=
  ⟨SameChars.clear (s := ⟨vv, col, row, cv⟩) hwide h h1 h2 hle hy1 hy2 hrange, ⟨rfl, rfl⟩,
    sameCursor_vbiosClear ..⟩

/-- A command that agrees does the same to the characters, and leaves the cursor alone. -/
theorem executeEdit_alike {cmd : EditCommand} {cd cv : Bool} {plain : Prop} (hrow : g.Row row)
    (hcol : g.Col col) (h : SameChars g vd vv) (hallowed : (Output.edit cmd arg).Allowed g)
    (hagrees : (Output.edit cmd arg).Agrees g plain row col) :
    EditsAlike g col row (executeEdit (directInterface g attrib) g ⟨vd, col, row, cd⟩ cmd arg) ⟨vv,
      col, row, cv⟩ (executeEdit (vbiosInterface g attrib init behind) g ⟨vv, col, row, cv⟩ cmd arg):= by
  have hmaxRow := g.maxRow_le
  obtain ⟨hrow0, hrowm⟩ := id hrow
  obtain ⟨hcol0, hcolm⟩ := id hcol
  have hint := toInt_eq (getArg cmd arg)
  have hplusRow := plusArg_eq hrow0 (by omega : row ≤ 0xffff) (n := getArg cmd arg)
  have hplusCol := plusArg_eq hcol0 (by omega : col ≤ 0xffff) (n := getArg cmd arg)
  have hsame : EditsAlike g col row ⟨vd, col, row, cd⟩ ⟨vv, col, row, cv⟩ ⟨vv, col, row, cv⟩ :=
    ⟨h, ⟨rfl, rfl⟩, .refl _⟩
  have hzero := g.col_zero
  have hlast := g.col_maxCol
  unfold Output.Agrees at hagrees
  unfold Output.Allowed at hallowed
  unfold executeEdit
  dsimp only at hagrees hallowed ⊢
  generalize getArg cmd arg = n at *
  cases cmd with
  | ed =>
    dsimp only at hagrees hallowed ⊢
    by_cases h0 : n = 0
    · rw [if_pos h0, if_pos h0]
      exact clears_alike hwide h hcol hlast (by omega) hrow0 (le_refl _) (.inr (.inl rfl))
    rw [if_neg h0, if_neg h0]
    by_cases h1 : n = 1
    · rw [if_pos h1, if_pos h1]
      have hn : (n.toNat : ℤ) = 1 := by rw [h1]; rfl
      have hcase := hagrees hn
      refine clears_alike hwide h hzero hcol (by omega) (le_refl _) hrowm ?_
      unfold ClearsRange
      omega
    rw [if_neg h1, if_neg h1]
    by_cases h2 : n = 2
    · rw [if_pos h2, if_pos h2]
      exact clears_alike hwide h hzero hlast (by omega) (le_refl _) (le_refl _) (.inr (.inl rfl))
    rw [if_neg h2, if_neg h2]
    exact hsame
  | el =>
    dsimp only at hagrees hallowed ⊢
    split
    · exact clears_alike hwide h hcol hlast (by omega) hrow0 hrowm (.inl rfl)
    · split
      · exact clears_alike hwide h hzero hcol (by omega) hrow0 hrowm (.inl rfl)
      · split
        · exact clears_alike hwide h hzero hlast (by omega) hrow0 hrowm (.inl rfl)
        · exact hsame
  | il =>
    dsimp only at hagrees hallowed ⊢
    obtain ⟨hn, hn'⟩ := hallowed
    rw [if_pos (by omega)] at hplusRow
    by_cases hscroll : plusArg row n ≤ g.maxRow
    · have hr0 : row = 0 := by omega
      rw [if_pos hscroll, if_pos hscroll, hplusRow, hr0, Int.zero_add]
      exact ⟨SameChars.scrollDown (s := ⟨vv, col, 0, cv⟩) hwide h (by omega) (by omega), ⟨rfl, rfl⟩,
        .refl _⟩
    · rw [if_neg hscroll, if_neg hscroll]
      exact clears_alike hwide h hzero hlast (by omega) hrow0 (le_refl _) (.inr (.inl rfl))
  | dl =>
    dsimp only at hagrees hallowed ⊢
    obtain ⟨hn, hn'⟩ := hallowed
    rw [if_pos (by omega)] at hint
    rw [if_pos (by omega), if_pos (by omega), hint, hagrees]
    exact ⟨SameChars.scrollUp (s := ⟨vv, col, 0, cv⟩) hwide h (by omega) (by omega), ⟨rfl, rfl⟩,
      .refl _⟩
  | su =>
    dsimp only at hagrees hallowed ⊢
    obtain ⟨hn, hn'⟩ := hallowed
    rw [if_pos (by omega)] at hint
    rw [if_pos (by omega), if_pos (by omega), hint]
    exact ⟨SameChars.scrollUp (s := ⟨vv, col, row, cv⟩) hwide h (by omega) (by omega), ⟨rfl, rfl⟩,
      .refl _⟩
  | st =>
    dsimp only at hagrees hallowed ⊢
    obtain ⟨hn, hn'⟩ := hallowed
    rw [if_pos (by omega)] at hint
    rw [if_pos (by omega), if_pos (by omega), hint]
    exact ⟨SameChars.scrollDown (s := ⟨vv, col, row, cv⟩) hwide h (by omega) (by omega), ⟨rfl, rfl⟩,
      .refl _⟩
  | ich =>
    dsimp only at hagrees hallowed ⊢
    rw [if_pos hagrees.1] at hplusCol
    by_cases hscroll : plusArg col n ≤ g.maxCol
    · rw [if_pos hscroll, if_pos hscroll]
      have hlt : col < plusArg col n := by omega
      obtain ⟨hcursor, hw⟩ := @vbiosScrollRight_spec g attrib ⟨vv, col, row,
        cv⟩ row col (plusArg col n) hwide hrow hcol
        hlt hscroll hcol hrow
      refine ⟨fun r c hr hc => ?_, ⟨rfl, rfl⟩, hcursor⟩
      have hdirect := @directScrollRight_cell g attrib vd row col (plusArg col n) r c hlt hcol
        (by have := hr.2; omega) hc
      have hvbios := @cell_of_shiftRight g vv _ _ row col (plusArg col n) r c _ hcol hc
        (Int.lt_succ _) (.inr rfl) hw
      have hc' := hc
      obtain ⟨hc0, hcm⟩ := hc'
      refine (congrArg chr hdirect).trans (Eq.trans ?_ (congrArg chr hvbios).symm)
      split
      · exact h r c hr hc
      · split
        · rfl
        · exact h _ _ hr ⟨by omega, by omega⟩
    · rw [if_neg hscroll, if_neg hscroll]
      exact clears_alike hwide h hcol hlast (by omega) hrow0 hrowm (.inl rfl)
  | dch =>
    dsimp only at hagrees hallowed ⊢
    rw [if_pos hagrees] at hplusCol
    by_cases hscroll : plusArg col n ≤ g.maxCol
    · rw [if_pos hscroll, if_pos hscroll]
      have hlt : col < plusArg col n := by omega
      obtain ⟨hcursor, hw⟩ := @vbiosScrollLeft_spec g attrib ⟨vv, col, row,
        cv⟩ row (plusArg col n) col hwide hrow hcol0
        hlt hscroll hcol hrow
      refine ⟨fun r c hr hc => ?_, ⟨rfl, rfl⟩, hcursor⟩
      have hdirect := @directScrollLeft_cell g attrib vd row
        (plusArg col n) col r c hlt hscroll hcol0 hc
      have hvbios := @cell_of_shiftLeft g vv _ _ row (plusArg col n) col r c hlt hscroll hcol0 hc hw
      have hc' := hc
      obtain ⟨hc0, hcm⟩ := hc'
      refine (congrArg chr hdirect).trans (Eq.trans ?_ (congrArg chr hvbios).symm)
      split
      · exact h r c hr hc
      · split
        · exact h _ _ hr ⟨by omega, by omega⟩
        · rfl
    · rw [if_neg hscroll, if_neg hscroll]
      exact clears_alike hwide h hcol hlast (by omega) hrow0 hrowm (.inl rfl)
  | ech =>
    dsimp only at hagrees hallowed ⊢
    rw [if_pos hagrees] at hplusCol
    split
    · exact clears_alike hwide h hcol hlast (by omega) hrow0 hrowm (.inl rfl)
    · exact clears_alike hwide h hcol ⟨by omega, by omega⟩ (by omega) hrow0 hrowm (.inl rfl)

omit hwide in
theorem directScrollOne_cell {v : Video} {r c : ℤ} (hr : g.Row r) (hc : g.Col c) :
    g.cell (directScrollBackward g attrib v 0 1 g.maxCol g.maxRow 0 0) r c =
      if r + 1 ≤ g.maxRow then g.cell v (r + 1) c else fillWord attrib := by
  have hr' := hr
  obtain ⟨hr0, hrm⟩ := hr'
  have hc' := hc
  obtain ⟨hc0, hcm⟩ := hc'
  by_cases hone : 1 ≤ (g.maxRow : ℤ)
  · have hcell := @directScrollUp_cell g attrib v 1 0 r c (by omega) hone hrm hc
    rw [if_neg (by omega), Int.sub_zero] at hcell
    exact hcell
  · -- a screen of one row is cleared
    have hlast : g.videoOffset (0 + (g.maxCol - 0)) (0 + (g.maxRow - 1)) =
        g.videoOffset g.maxCol (-1) := by
      congr 1 <;> omega
    have hlt : g.videoOffset g.maxCol (-1) < g.videoOffset c r :=
      (Geometry.offset_lt_iff g.col_maxCol hc).2 (by omega)
    have hle : g.videoOffset c r ≤ g.videoOffset g.maxCol g.maxRow :=
      (Geometry.offset_le_iff hc g.col_maxCol).2 (by omega)
    unfold directScrollBackward Geometry.cell
    dsimp only
    rw [hlast, if_neg (by omega)]
    exact scrollBackward_fill hlt hle

theorem biosScrollOne_cell {s : Screen} {bh : Byte} {r c : ℤ} (hr : g.Row r) (hc : g.Col c) :
    g.cell (biosScrollUp g s 1 bh 0 0 g.maxRow g.maxCol).video r c =
      if r + 1 ≤ g.maxRow then g.cell s.video (r + 1) c else fillWord bh := by
  have hmax := g.maxRow_le
  obtain ⟨hr0, hrm⟩ := hr
  have hc' := hc
  obtain ⟨hc0, hcm⟩ := hc'
  have hbyte : byte 1 = 1 := rfl
  unfold biosScrollUp
  rw [biosWindow_cell hc, byte_eq (le_refl 0) (by omega), byte_eq (by omega)
    (by omega : (g.maxRow : ℤ) ≤ 255),
    byte_eq (by omega) (by omega : (g.maxCol : ℤ) ≤ 255), hbyte, if_pos (by omega)]
  refine if_congr ?_ rfl rfl
  omega

theorem SameChars.scrollOne {s : Screen} {bh : Byte} (h : SameChars g vd s.video) :
    SameChars g (directScrollBackward g attrib vd 0 1 g.maxCol g.maxRow 0 0)
      (biosScrollUp g s 1 bh 0 0 g.maxRow g.maxCol).video := by
  intro r c hr hc
  rw [directScrollOne_cell hr hc, biosScrollOne_cell hwide hr hc]
  split
  · exact h _ _ ⟨by have := hr.1; omega, by omega⟩ hc
  · unfold fillWord
    rw [chr_append, chr_append]

omit hwide in
theorem SameChars.poke {a : ℤ} {ch bl bl' : Byte} (h : SameChars g vd vv) :
    SameChars g (vd.poke a (bl ++ ch)) (vv.poke a (bl' ++ ch)) := by
  intro r c hr hc
  unfold Geometry.cell LoggedMemory.poke
  dsimp only
  split
  · rw [chr_append, chr_append]
  · exact h r c hr hc

/-- What the loop of `__libc_termios_write_tty` has with the direct driver and with the BIOS. -/
structure Alike (g : Geometry) (plain : Prop) (d b : Screen × ℤ × ℤ) : Prop where
  chars : SameChars g d.1.video b.1.video
  cursor : b.2 = d.2
  bios : b.1.col = d.2.1 ∧ b.1.row = d.2.2
  col : g.Col d.2.1
  row : g.Row d.2.2
  unchanged : plain → b.1.attribChanged = false

/-- In the row of the cursor, or below it. -/
theorem newRow_alike {plain : Prop} {cd cv : Bool} {x y row' : ℤ} {bh : Byte}
    (h : SameChars g vd vv) (hcol : g.Col col) (hrow : 0 ≤ row' ∧ row' ≤ g.maxRow + 1)
    (hplain : plain → cv = false) :
    Alike g plain (⟨(directNewRow g attrib vd col row').1, x, y, cd⟩,
      (directNewRow g attrib vd col row').2) (biosNewRow g ⟨vv, col, row', cv⟩ bh,
        (biosNewRow g ⟨vv, col, row', cv⟩ bh).col, (biosNewRow g ⟨vv, col, row', cv⟩ bh).row) := by
  obtain ⟨hr0, hrm⟩ := hrow
  unfold biosNewRow directNewRow
  by_cases hlast : row' > g.maxRow
  · have hrow' : row' - 1 = (g.maxRow : ℤ) := by omega
    rw [if_pos hlast, if_neg (not_le.2 hlast), hrow']
    exact ⟨SameChars.scrollOne hwide h, rfl, ⟨rfl, rfl⟩, hcol, ⟨Int.natCast_nonneg _, le_refl _⟩,
      hplain⟩
  · rw [if_neg hlast, if_pos (not_lt.1 hlast)]
    exact ⟨h, rfl, ⟨rfl, rfl⟩, hcol, ⟨hr0, not_lt.1 hlast⟩, hplain⟩

theorem writeCh_alike {plain : Prop} {ch : Byte} {sd : Screen} {cv : Bool}
    (h : SameChars g sd.video vv) (hcol : g.Col col) (hrow : g.Row row)
    (hunchanged : plain → cv = false)
    (hplain : plain → attrib = init) (hallowed : (Output.text ch).Allowed g)
    (hagrees : (Output.text ch).Agrees g plain row col) :
    Alike g plain (display (directInterface g attrib) g (sd, col, row) (.text ch))
      (display (vbiosInterface g attrib init behind) g (⟨vv, col, row, cv⟩, col, row) (.text ch)):= by
  obtain ⟨hr0, hrm⟩ := id hrow
  obtain ⟨hc0, hcm⟩ := id hcol
  -- the flag may change, but not in a plain run
  obtain ⟨cv', hcv', hplain'⟩ : ∃ cv' : Bool,
      (if cv = false ∧ attrib ≠ init then (⟨vv, col, row, true⟩ : Screen) else ⟨vv, col, row, cv⟩) =
        ⟨vv, col, row, cv'⟩ ∧ (plain → cv' = false) := by
    by_cases hc : cv = false ∧ attrib ≠ init
    · exact ⟨true, if_pos hc, fun hp => absurd (hplain hp) hc.2⟩
    · exact ⟨cv, if_neg hc, hunchanged⟩
  change Alike g plain
    (⟨(directWriteCh g attrib sd.video ch col row).1, sd.col, sd.row, sd.attribChanged⟩,
      (directWriteCh g attrib sd.video ch col row).2)
    (vbiosWriteCh g attrib init behind ⟨vv, col, row, cv⟩ ch col row)
  unfold vbiosWriteCh
  dsimp only
  rw [hcv']
  by_cases hlf : ch = 0x0a
  · rw [if_pos (.inr (.inr (.inl hlf)))]
    unfold directWriteCh biosTeletype
    rw [if_pos hlf, hlf, if_neg (by decide), if_pos rfl]
    dsimp only
    rw [if_neg (not_lt.2 hcm)]
    exact newRow_alike hwide h hcol ⟨by omega, by omega⟩ hplain'
  by_cases hcr : ch = 0x0d
  · rw [if_pos (.inr (.inl hcr))]
    unfold directWriteCh biosTeletype
    rw [if_neg hlf, if_pos hcr, if_pos hcr]
    dsimp only
    unfold directNewRow
    rw [if_neg (by omega), if_neg (by omega)]
    exact ⟨h, rfl, ⟨rfl, rfl⟩, g.col_zero, hrow, hplain'⟩
  have hprint : 0x20 ≤ ch.toNat := hallowed.resolve_right (not_or.2 ⟨hcr, hlf⟩)
  have hbs : ch ≠ 0x08 := by
    rintro rfl
    exact absurd hprint (by decide)
  have hbel : ch ≠ 0x07 := by
    rintro rfl
    exact absurd hprint (by decide)
  have hdirect : directWriteCh g attrib sd.video ch col row =
      if col + 1 > g.maxCol then
        directNewRow g attrib (sd.video.poke (g.videoOffset col row) (attrib ++ ch)) 0 (row + 1)
      else directNewRow g attrib (sd.video.poke (g.videoOffset col row) (attrib ++ ch))
        (col + 1) row := by
    unfold directWriteCh
    rw [if_neg hlf, if_neg hcr, if_neg hbs, if_neg hbel]
  rw [hdirect]
  by_cases htele : attrib = init ∧ cv' = false
  · by_cases hlast : col + 1 > g.maxCol
    · have hcol' : ¬ col < (g.maxCol : ℤ) := by omega
      rw [if_pos hlast, if_pos (.inl htele)]
      unfold biosTeletype
      rw [if_neg hcr, if_neg hlf, if_neg hbs, if_neg hbel]
      dsimp only
      rw [if_neg hcol']
      exact newRow_alike hwide h.poke g.col_zero ⟨by omega, by omega⟩ hplain'
    · have hcol' : col < (g.maxCol : ℤ) := by omega
      have hnext : g.Col (col + 1) := ⟨by omega, by omega⟩
      rw [if_neg hlast, if_pos (.inl htele)]
      unfold biosTeletype directNewRow
      rw [if_neg (not_lt.2 hrm), if_neg hcr, if_neg hlf, if_neg hbs, if_neg hbel]
      dsimp only
      rw [if_pos hcol']
      exact ⟨h.poke, rfl, ⟨rfl, rfl⟩, hnext, hrow, hplain'⟩
  · have hnot : ¬ ((attrib = init ∧ cv' = false) ∨ ch = 0x0d ∨ ch = 0x0a ∨ ch = 0x08 ∨
        ch = 0x07) := by
      simp only [not_or]
      exact ⟨htele, hcr, hlf, hbs, hbel⟩
    have hinside : col < g.maxCol := by
      obtain hd | hd | hp | hd := hagrees
      · exact absurd hd hcr
      · exact absurd hd hlf
      · exact absurd ⟨hplain hp, hplain' hp⟩ htele
      · exact hd
    have hnext : g.Col (col + 1) := ⟨by omega, by omega⟩
    have hlast : ¬ col + 1 > (g.maxCol : ℤ) := by omega
    rw [if_neg hlast, if_neg hnot, biosWrite_one, if_neg hlast, setCursor_eq hwide hnext hrow]
    unfold directNewRow
    rw [if_neg (not_lt.2 hrm)]
    exact ⟨h.poke, rfl, ⟨rfl, rfl⟩, hnext, hrow, hplain'⟩

theorem display_alike {plain : Prop} {o : Output} {d b : Screen × ℤ × ℤ} (h : Alike g plain d b)
    (hplain : plain → attrib = init) (hallowed : o.Allowed g)
    (hagrees : o.Agrees g plain d.2.2 d.2.1) :
    Alike g plain (display (directInterface g attrib) g d o)
    (display (vbiosInterface g attrib init behind) g b o) := by
  cases o with
  | text ch =>
    obtain ⟨sd, col, row⟩ := d
    obtain ⟨⟨vv, bcol, brow, cv⟩, col', row'⟩ := b
    have hcursor := h.cursor
    obtain ⟨rfl, rfl⟩ := Prod.mk.inj hcursor
    have hbcol : bcol = col' := h.bios.1
    have hbrow : brow = row' := h.bios.2
    subst hbcol hbrow
    exact writeCh_alike hwide h.chars h.col h.row h.unchanged hplain hallowed hagrees
  | edit cmd arg =>
    obtain ⟨sd, col, row⟩ := d
    obtain ⟨sb, col', row'⟩ := b
    have hcursor := h.cursor
    obtain ⟨rfl, rfl⟩ := Prod.mk.inj hcursor
    have hcol : g.Col col' := h.col
    have hrow : g.Row row' := h.row
    unfold display
    dsimp only
    rw [setCursor_eq hwide hcol hrow, setCursor_eq hwide hcol hrow]
    have hedit := @executeEdit_alike g attrib init behind sd.video sb.video row' col' arg hwide
      cmd sd.attribChanged sb.attribChanged plain hrow hcol h.chars hallowed hagrees
    obtain ⟨hchars, ⟨hdcol, hdrow⟩, hbcol, hbrow, hbchanged⟩ := hedit
    dsimp only at hbcol hbrow hbchanged
    refine ⟨hchars, ?_, ⟨?_, ?_⟩, ?_, ?_, ?_⟩
    · dsimp only
      rw [hbcol, hbrow, hdcol, hdrow]
    · dsimp only
      rw [hbcol, hdcol]
    · dsimp only
      rw [hbrow, hdrow]
    · dsimp only
      rw [hdcol]
      exact hcol
    · dsimp only
      rw [hdrow]
      exact hrow
    · intro hp
      exact hbchanged.trans (h.unchanged hp)

theorem foldl_alike {plain : Prop} {l : List Output} {d b : Screen × ℤ × ℤ}
    (h : Alike g plain d b) (hplain : plain → attrib = init) (hallowed : ∀ o ∈ l, o.Allowed g)
    (hagree : AllAgree g attrib plain d l) :
    Alike g plain (l.foldl (display (directInterface g attrib) g) d)
      (l.foldl (display (vbiosInterface g attrib init behind) g) b) := by
  induction l generalizing d b with
  | nil => exact h
  | cons o l ih =>
    obtain ⟨hfirst, hrest⟩ := hagree
    have hnext := @display_alike g attrib init behind hwide plain o d b h hplain
      (hallowed o List.mem_cons_self) hfirst
    exact ih hnext (fun o ho => hallowed o (List.mem_cons_of_mem _ ho)) hrest

end

/-- As long as the drivers agree for each character and command, they leave the same
characters and the same cursor. -/
theorem displayAll_alike (g : Geometry) (attrib init : Byte) (behind : ℤ) (s : Screen)
    (l : List Output)
    (hwide : g.maxCol ≤ 0xff) (hcol : g.Col s.col) (hrow : g.Row s.row)
    (hallowed : ∀ o ∈ l, o.Allowed g)
    (hagree : AllAgree g attrib (attrib = init ∧ s.attribChanged = false) (s, s.col, s.row) l) :
    SameChars g (displayAll (directInterface g attrib) g s l).video
        (displayAll (vbiosInterface g attrib init behind) g s l).video ∧
      (displayAll (directInterface g attrib) g s l).col =
      (displayAll (vbiosInterface g attrib init behind) g s l).col ∧
      (displayAll (directInterface g attrib) g s l).row =
      (displayAll (vbiosInterface g attrib init behind) g s l).row := by
  have hstart : Alike g (attrib = init ∧ s.attribChanged = false) (s, s.col, s.row)
    (s, s.col, s.row) :=
    ⟨fun _ _ _ _ => rfl, rfl, ⟨rfl, rfl⟩, hcol, hrow, fun h => h.2⟩
  have hend := @foldl_alike g attrib init behind hwide _ l _ _ hstart (fun h => h.1) hallowed hagree
  unfold displayAll
  generalize l.foldl (display (directInterface g attrib) g) (s, s.col, s.row) = d at *
  generalize l.foldl (display (vbiosInterface g attrib init behind) g) (s, s.col, s.row) = b at *
  obtain ⟨sd, col, row⟩ := d
  obtain ⟨sb, col', row'⟩ := b
  have hcursor := hend.cursor
  obtain ⟨rfl, rfl⟩ := Prod.mk.inj hcursor
  dsimp only
  rw [setCursor_eq hwide hend.col hend.row, setCursor_eq hwide hend.col hend.row]
  exact ⟨hend.chars, rfl, rfl⟩

/-- A character and `S`. -/
theorem displayAll_alike_scroll :
    (displayAll (directInterface smallScreen 7) smallScreen ⟨numbered, 0, 1, false⟩
      [.text 0x41, .edit .su none]).col =
      (displayAll (vbiosInterface smallScreen 7 7 0) smallScreen ⟨numbered, 0, 1, false⟩
        [.text 0x41, .edit .su none]).col := by
  refine (displayAll_alike smallScreen 7 7 0 ⟨numbered, 0, 1, false⟩ [.text 0x41, .edit .su none]
    (by decide)
    ⟨by decide, by decide⟩ ⟨by decide, by decide⟩ ?_ ⟨.inr (.inr (.inl ⟨rfl, rfl⟩)), trivial,
      trivial⟩).2.1
  intro o ho
  obtain rfl | ho := List.mem_cons.1 ho
  · exact .inl (by decide)
  · obtain rfl := List.mem_singleton.1 ho
    exact ⟨by decide, by decide⟩

/-- After `M` in the second row the direct driver has not moved the row below, and the BIOS has. -/
theorem delete_line_differs :
    (Output.edit .dl none).Allowed smallScreen ∧
      chr (smallScreen.cell (displayAll (directInterface smallScreen 7) smallScreen ⟨numbered, 0, 1,
        false⟩
        [.edit .dl none]).video 1 0) = 4 ∧
      chr (smallScreen.cell (displayAll (vbiosInterface smallScreen 7 7 0) smallScreen ⟨numbered, 0,
        1, false⟩
        [.edit .dl none]).video 1 0) = 8 := by
  refine ⟨⟨by decide, by decide⟩, ?_, ?_⟩
  · decide +kernel
  · decide +kernel

end DjgppLibc.Termios
