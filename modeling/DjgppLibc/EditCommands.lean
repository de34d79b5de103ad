import DjgppLibc.TtyscrnCells

/-!
# The edit commands

The commands of `execute_console_command` that change the screen at the cursor, through a
table of functions, and what they should do. With the direct driver, `S`, `P`, `J` and `K`
do it; `L`, `T` and `@` write behind the destination unless they clear everything, `M` takes
the wrong rows below the first one, and `X` clears one cell too many.
-/
namespace DjgppLibc.Termios

open LoggedMemory

structure Screen where
  video : Video
  col : ℤ
  row : ℤ
  /-- `attrib_changed` -/
  attribChanged : Bool

/-- `struct tty_screen_interface` -/
structure Interface where
  writeCh : Screen → Byte → ℤ → ℤ → Screen × ℤ × ℤ
  scrollUp : Screen → ℤ → ℤ → ℤ → Screen
  scrollDown : Screen → ℤ → ℤ → ℤ → Screen
  scrollLeft : Screen → ℤ → ℤ → ℤ → ℤ → Screen
  scrollRight : Screen → ℤ → ℤ → ℤ → ℤ → Screen
  clear : Screen → ℤ → ℤ → ℤ → ℤ → Screen

/-- `__tty_direct_intface` -/
def directInterface (g : Geometry) (attrib : Byte) : Interface where
  writeCh s ch col row :=
    let (v, col, row) := directWriteCh g attrib s.video ch col row
    ({ s with video := v }, col, row)
  scrollUp s y1 y2 ydst := { s with video := directScrollUp g attrib s.video y1 y2 ydst }
  scrollDown s y1 y2 ydst := { s with video := directScrollDown g attrib s.video y1 y2 ydst }
  scrollLeft s y x1 x2 xdst := { s with video := directScrollLeft g attrib s.video y x1 x2 xdst }
  scrollRight s y x1 x2 xdst := { s with video := directScrollRight g attrib s.video y x1 x2 xdst }
  clear s x1 y1 x2 y2 := { s with video := directClear g attrib s.video x1 y1 x2 y2 }

inductive EditCommand
  /-- `J`: Erase in Display -/
  | ed
  /-- `K`: Edit in Line -/
  | el
  /-- `L`: Insert Line -/
  | il
  /-- `M`: Delete Line -/
  | dl
  /-- `S`: Scroll Up -/
  | su
  /-- `T`: Scroll Down -/
  | st
  /-- `@`: Insert Character -/
  | ich
  /-- `P`: Delete Character -/
  | dch
  /-- `X`: Erase Character -/
  | ech

/-- `GET_ARG (0, DEFVAL)` of a command -/
def getArg (cmd : EditCommand) (arg : Option (BitVec 32)) : BitVec 32 :=
  match cmd with
  | .ed | .el => arg.getD 0
  | _ => arg.getD 1

/-- An argument added to an `int`; the sum is unsigned, and then an `int` again. -/
def plusArg (x : ℤ) (arg : BitVec 32) : ℤ := (BitVec.ofInt 32 x + arg).toInt

/-- The edit commands of `execute_console_command` -/
def executeEdit (i : Interface) (g : Geometry) (s : Screen) (cmd : EditCommand)
    (arg : Option (BitVec 32)) : Screen :=
  let col := s.col
  let row := s.row
  let n := getArg cmd arg
  match cmd with
  | .ed =>
      if n = 0 then i.clear s col row g.maxCol g.maxRow
      else if n = 1 then i.clear s 0 0 col row
      else if n = 2 then i.clear s 0 0 g.maxCol g.maxRow
      else s
  | .el =>
      if n = 0 then i.clear s col row g.maxCol row
      else if n = 1 then i.clear s 0 row col row
      else if n = 2 then i.clear s 0 row g.maxCol row
      else s
  | .il =>
      let rowArg := plusArg row n
      if rowArg ≤ g.maxRow then i.scrollDown s row g.maxRow rowArg
        else i.clear s 0 row g.maxCol g.maxRow
  | .dl =>
      let rowArg := n.toInt
      if rowArg ≤ g.maxRow then i.scrollUp s rowArg g.maxRow row else s
  | .su =>
      let rowArg := n.toInt
      if rowArg ≤ g.maxRow then i.scrollUp s rowArg g.maxRow 0 else i.clear s 0 0 g.maxCol g.maxRow
  | .st =>
      let rowArg := n.toInt
      if rowArg ≤ g.maxRow then i.scrollDown s 0 g.maxRow rowArg
        else i.clear s 0 0 g.maxCol g.maxRow
  | .ich =>
      let colArg := plusArg col n
      if colArg ≤ g.maxCol then i.scrollRight s row col g.maxCol colArg
        else i.clear s col row g.maxCol row
  | .dch =>
      let colArg := plusArg col n
      if colArg ≤ g.maxCol then i.scrollLeft s row colArg g.maxCol col
        else i.clear s col row g.maxCol row
  | .ech =>
      let colArg := plusArg col n
      let colArg := if colArg > g.maxCol then (g.maxCol : ℤ) else colArg
      i.clear s col row colArg row

/-- The cell in row `r` and column `c` after a command with the argument `n` at the cursor,
from the cells before it. -/
def prescribed (g : Geometry) (fill : Word) (cmd : EditCommand) (n row col : ℤ)
    (cells : ℤ → ℤ → Word) (r c : ℤ) : Word :=
  match cmd with
  | .ed =>
      if n = 0 ∧ (row < r ∨ row = r ∧ col ≤ c) ∨ n = 1 ∧ (r < row ∨ r = row ∧ c ≤ col) ∨
        n = 2 then fill
      else cells r c
  | .el =>
      if r = row ∧ (n = 0 ∧ col ≤ c ∨ n = 1 ∧ c ≤ col ∨ n = 2) then fill else cells r c
  | .il => if r < row then cells r c else if r < row + n then fill else cells (r - n) c
  | .dl => if r < row then cells r c else if r + n ≤ g.maxRow then cells (r + n) c else fill
  | .su => if r + n ≤ g.maxRow then cells (r + n) c else fill
  | .st => if r < n then fill else cells (r - n) c
  | .ich => if r ≠ row ∨ c < col then cells r c else if c < col + n then fill else cells r (c - n)
  | .dch =>
      if r ≠ row ∨ c < col then cells r c else if c + n ≤ g.maxCol then cells r (c + n) else fill
  | .ech => if r = row ∧ col ≤ c ∧ c < col + n then fill else cells r c

/-- Through the direct driver, a command does this to every screen, and does not store
outside of it. -/
def DoesPrescribed (g : Geometry) (attrib : Byte) (cmd : EditCommand) (arg : Option (BitVec 32))
    (row col : ℤ) : Prop :=
  ∀ (v : Video) (changed : Bool), v.stores = [] →
    let v' := (executeEdit (directInterface g attrib) g ⟨v, col, row, changed⟩ cmd arg).video
    (∀ r c, g.Row r → g.Col c →
      g.cell v' r c = prescribed g (fillWord attrib) cmd (getArg cmd arg).toNat row col
        (g.cell v) r c) ∧
    ∀ a ∈ v'.stores, g.OnScreen a

def Fits (g : Geometry) (cmd : EditCommand) (n row col : ℤ) : Prop :=
  match cmd with
  | .ed | .el => True
  | .il => g.maxRow < row + n ∧ row + n < 2 ^ 31
  | .dl => row = 0 ∧ n ≤ g.maxRow
  | .su => n < 2 ^ 31
  | .st => g.maxRow < n ∧ n < 2 ^ 31
  | .ich => g.maxCol < col + n ∧ col + n < 2 ^ 31
  | .dch => col + n < 2 ^ 31
  | .ech =>
      g.maxCol < col + n ∧ col + n < 2 ^ 31 ∨
        col = g.maxCol ∧ 2 ^ 31 ≤ col + n ∧ g.videoOffset col row % 2 ≠ 0

theorem plusArg_eq {x : ℤ} {n : BitVec 32} (hx : 0 ≤ x) (hx' : x ≤ 0xffff) :
    plusArg x n = if x + n.toNat < 2 ^ 31 then x + n.toNat else x + n.toNat - 2 ^ 32 := by
  have hn := n.isLt
  obtain ⟨m, rfl⟩ := Int.eq_ofNat_of_zero_le hx
  have hsum : (BitVec.ofInt 32 (m : ℤ) + n).toNat = (m + n.toNat) % 2 ^ 32 := by
    rw [BitVec.toNat_add, BitVec.ofInt_natCast, BitVec.toNat_ofNat, Nat.mod_add_mod]
  unfold plusArg
  rw [BitVec.toInt_eq_toNat_cond, hsum]
  split <;> split <;> omega

theorem toInt_eq (n : BitVec 32) : n.toInt = if (n.toNat : ℤ) < 2 ^ 31 then (n.toNat : ℤ)
    else n.toNat - 2 ^ 32 := by
  rw [BitVec.toInt_eq_toNat_cond]
  split <;> split <;> first | rfl | omega

variable {g : Geometry} {attrib : Byte} {cmd : EditCommand} {arg : Option (BitVec 32)} {row col : ℤ}

def inkWord (attrib : Byte) : Word := fillWord attrib + 1

theorem inkWord_ne (attrib : Byte) : inkWord attrib ≠ fillWord attrib := by
  unfold inkWord
  simp

def inkVideo (attrib : Byte) : Video := ⟨fun _ => inkWord attrib, []⟩

/-- Clearing a range does what it should, if the range is the right one. -/
theorem directClear_does {v : Video} {x1 y1 x2 y2 : ℤ} {P : ℤ → ℤ → Word} (hv : v.stores = [])
    (h1 : g.Col x1)
    (h2 : g.Col x2) (h : y1 < y2 ∨ y1 = y2 ∧ x1 ≤ x2) (hy1 : 0 ≤ y1) (hy2 : y2 ≤ g.maxRow)
    (hP : ∀ r c, g.Row r → g.Col c →
      P r c = if (y1 < r ∨ y1 = r ∧ x1 ≤ c) ∧ (r < y2 ∨ r = y2 ∧ c ≤ x2) then fillWord attrib
      else g.cell v r c) :
    (∀ r c, g.Row r → g.Col c → g.cell (directClear g attrib v x1 y1 x2 y2) r c = P r c) ∧
      ∀ a ∈ (directClear g attrib v x1 y1 x2 y2).stores, g.OnScreen a := by
  constructor
  · intro r c hr hc
    rw [directClear_cell h1 h2 h hc, hP r c hr hc]
  · intro a ha
    obtain ha | ha := directClear_stores h1 h2 h hy1 hy2 ha
    · rw [hv] at ha
      cases ha
    · exact ha

/-- `ED` and `EL` do what they should to the rows from `top` to `bottom`. -/
theorem clears_does {v : Video} {changed : Bool} {n : BitVec 32} {top bottom : ℤ}
    {P : ℤ → ℤ → Word} (hv : v.stores = []) (hcol : g.Col col) (htop : 0 ≤ top) (htr : top ≤ row)
    (hrb : row ≤ bottom) (hbottom : bottom ≤ g.maxRow)
    (hP : ∀ r c, g.Row r → g.Col c → P r c = if top ≤ r ∧ r ≤ bottom ∧
      (n.toNat = 0 ∧ (row < r ∨ row = r ∧ col ≤ c) ∨ n.toNat = 1 ∧ (r < row ∨ r = row ∧ c ≤ col) ∨
        n.toNat = 2) then fillWord attrib else g.cell v r c) :
    let i := directInterface g attrib
    let s : Screen := ⟨v, col, row, changed⟩
    let v' := (if n = 0 then i.clear s col row g.maxCol bottom
      else if n = 1 then i.clear s 0 top col row
      else if n = 2 then i.clear s 0 top g.maxCol bottom else s).video
    (∀ r c, g.Row r → g.Col c → g.cell v' r c = P r c) ∧ ∀ a ∈ v'.stores, g.OnScreen a := by
  obtain ⟨hcol0, hcolm⟩ := id hcol
  dsimp only
  by_cases h0 : n = 0
  · have hn : n.toNat = 0 := by rw [h0]; rfl
    rw [if_pos h0]
    refine directClear_does hv hcol g.col_maxCol (by omega) (by omega) hbottom fun r c hr hc => ?_
    obtain ⟨hc0, hcm⟩ := id hc
    exact (hP r c hr hc).trans (if_congr (by omega) rfl rfl)
  rw [if_neg h0]
  have hn0 : n.toNat ≠ 0 := fun h => h0 (BitVec.eq_of_toNat_eq h)
  by_cases h1 : n = 1
  · have hn : n.toNat = 1 := by rw [h1]; rfl
    rw [if_pos h1]
    refine directClear_does hv g.col_zero hcol (by omega) htop (by omega) fun r c hr hc => ?_
    obtain ⟨hc0, hcm⟩ := id hc
    exact (hP r c hr hc).trans (if_congr (by omega) rfl rfl)
  rw [if_neg h1]
  have hn1 : n.toNat ≠ 1 := fun h => h1 (BitVec.eq_of_toNat_eq h)
  by_cases h2 : n = 2
  · have hn : n.toNat = 2 := by rw [h2]; rfl
    rw [if_pos h2]
    refine directClear_does hv g.col_zero g.col_maxCol (by omega) htop hbottom fun r c hr hc => ?_
    obtain ⟨hc0, hcm⟩ := id hc
    exact (hP r c hr hc).trans (if_congr (by omega) rfl rfl)
  rw [if_neg h2]
  have hn2 : n.toNat ≠ 2 := fun h => h2 (BitVec.eq_of_toNat_eq h)
  refine ⟨fun r c hr hc => ((hP r c hr hc).trans (if_neg ?_)).symm, fun a ha => ?_⟩
  · omega
  · rw [hv] at ha
    cases ha

theorem ed_doesPrescribed (hrow : g.Row row) (hcol : g.Col col) :
    DoesPrescribed g attrib .ed arg row col := by
  intro v changed hv
  refine clears_does hv hcol (le_refl _) hrow.1 hrow.2 (le_refl _) fun r c hr hc => ?_
  obtain ⟨hr0, hrm⟩ := hr
  exact if_congr (by omega) rfl rfl

theorem el_doesPrescribed (hrow : g.Row row) (hcol : g.Col col) :
    DoesPrescribed g attrib .el arg row col := by
  intro v changed hv
  refine clears_does hv hcol hrow.1 (le_refl _) (le_refl _) hrow.2 fun r c _ _ => ?_
  dsimp only [prescribed]
  exact if_congr (by omega) rfl rfl

theorem directScrollDown_ink {y1 ydst : ℤ} (h : ydst ≤ y1) (r c : ℤ) :
    g.cell (directScrollDown g attrib (inkVideo attrib) y1 g.maxRow ydst) r c = inkWord attrib :=
  scrollForward_const (fun _ => rfl)
    ((Geometry.offset_le_iff g.col_zero g.col_zero).2 (by omega)) _

theorem il_iff (hn : 1 ≤ (getArg .il arg).toNat) (hrow : g.Row row) :
    DoesPrescribed g attrib .il arg row col ↔ Fits g .il (getArg .il arg).toNat row col := by
  have hmax := g.maxRow_le
  obtain ⟨hrow0, hrowm⟩ := id hrow
  have hplus := plusArg_eq hrow0 (by omega : row ≤ 0xffff) (n := getArg .il arg)
  unfold DoesPrescribed Fits executeEdit prescribed
  dsimp only
  generalize getArg .il arg = n at *
  constructor
  · intro h
    by_contra hnot
    by_cases hover : row + n.toNat < 2 ^ 31
    · -- the destination of the last row is below the screen
      rw [if_pos hover] at hplus
      obtain ⟨-, hstores⟩ := h (inkVideo attrib) false rfl
      rw [if_pos (by omega)] at hstores
      obtain ⟨a, ha, hon⟩ := @directScrollDown_stores g attrib (inkVideo attrib) row (plusArg row n)
        (by omega) hrowm
      exact hon (hstores a ha)
    · -- nothing is cleared
      rw [if_neg hover] at hplus
      obtain ⟨hcells, -⟩ := h (inkVideo attrib) false rfl
      rw [if_pos (by omega)] at hcells
      have hcell := hcells row 0 hrow g.col_zero
      rw [if_neg (lt_irrefl _), if_pos (by omega)] at hcell
      exact inkWord_ne attrib ((directScrollDown_ink (by omega) _ _).symm.trans hcell)
  · rintro ⟨hbelow, hover⟩ v changed hv
    rw [if_pos hover] at hplus
    rw [if_neg (by omega)]
    refine directClear_does hv g.col_zero g.col_maxCol
      (by omega) hrow0 (le_refl _) fun r c ⟨hr0, hrm⟩ ⟨hc0, hcm⟩ => ?_
    by_cases hr : r < row
    · rw [if_pos hr, if_neg (by omega)]
    · rw [if_neg hr, if_pos (by omega), if_pos (by omega)]

theorem directScrollUp_ink {y1 ydst r c : ℤ} (h : y1 ≤ ydst) (hr : r ≤ g.maxRow) (hc : g.Col c) :
    g.cell (directScrollUp g attrib (inkVideo attrib) y1 g.maxRow ydst) r c = inkWord attrib := by
  have hlast : g.videoOffset (0 + (g.maxCol - 0)) (ydst + (g.maxRow - y1)) =
      g.videoOffset g.maxCol (g.maxRow + (ydst - y1)) := by
    congr 1 <;> omega
  have hc' := hc
  obtain ⟨hc0, hcm⟩ := hc'
  have hend : g.videoOffset g.maxCol g.maxRow ≤ g.videoOffset g.maxCol (g.maxRow + (ydst - y1)) :=
    (Geometry.offset_le_iff g.col_maxCol g.col_maxCol).2 (by omega)
  have hx : g.videoOffset c r ≤ g.videoOffset g.maxCol (g.maxRow + (ydst - y1)) :=
    (Geometry.offset_le_iff hc g.col_maxCol).2 (by omega)
  unfold directScrollUp directScrollBackward Geometry.cell
  dsimp only
  rw [hlast]
  exact scrollBackward_const (fun _ => rfl) hend hx

theorem directScrollUp_does {v : Video} {y1 ydst : ℤ} {P : ℤ → ℤ → Word} (hv : v.stores = [])
    (hlt : ydst < y1)
    (hy1 : y1 ≤ g.maxRow) (hy : 0 ≤ ydst)
    (hP : ∀ r c, g.Row r → g.Col c → P r c = if r < ydst then g.cell v r c
      else if r + (y1 - ydst) ≤ g.maxRow then g.cell v (r + (y1 - ydst)) c else fillWord attrib) :
    (∀ r c, g.Row r → g.Col c → g.cell (directScrollUp g attrib v y1 g.maxRow ydst) r c = P r c) ∧
      ∀ a ∈ (directScrollUp g attrib v y1 g.maxRow ydst).stores, g.OnScreen a := by
  constructor
  · intro r c hr hc
    rw [directScrollUp_cell hlt hy1 hr.2 hc, hP r c hr hc]
  · intro a ha
    obtain ha | ha := directScrollUp_stores hlt hy1 hy ha
    · rw [hv] at ha
      cases ha
    · exact ha

theorem dl_iff (hn : 1 ≤ (getArg .dl arg).toNat) (hrow : g.Row row) :
    DoesPrescribed g attrib .dl arg row col ↔ Fits g .dl (getArg .dl arg).toNat row col := by
  have hmax := g.maxRow_le
  obtain ⟨hrow0, hrowm⟩ := id hrow
  have hint := toInt_eq (getArg .dl arg)
  have hlastRow : g.Row g.maxRow := ⟨Int.natCast_nonneg _, le_refl _⟩
  unfold DoesPrescribed Fits executeEdit prescribed
  dsimp only
  generalize getArg .dl arg = n at *
  constructor
  · intro h
    by_contra hnot
    obtain ⟨hcells, -⟩ := h (inkVideo attrib) false rfl
    by_cases hscroll : n.toInt ≤ g.maxRow
    · rw [if_pos hscroll] at hcells
      by_cases hup : n.toInt ≤ row
      · -- the rows are not below the cursor, and the last row stays as it is
        have hcell := hcells g.maxRow 0 hlastRow g.col_zero
        rw [if_neg (by omega), if_neg (by omega)] at hcell
        exact inkWord_ne attrib ((directScrollUp_ink hup (le_refl _) g.col_zero).symm.trans hcell)
      · -- too few rows are cleared
        have hn31 : (n.toNat : ℤ) < 2 ^ 31 := by
          by_contra hge
          rw [if_neg hge] at hint
          omega
        rw [if_pos hn31] at hint
        have hcell := hcells (g.maxRow - n.toNat + row) 0 ⟨by omega, by omega⟩ g.col_zero
        rw [if_neg (by omega), if_neg (by omega)] at hcell
        have hink := @directScrollUp_cell g attrib (inkVideo attrib) n.toInt row
          (g.maxRow - n.toNat + row) 0 (by omega)
          hscroll (by omega) g.col_zero
        rw [if_neg (by omega), if_pos (by omega)] at hink
        exact inkWord_ne attrib (hink.symm.trans hcell)
    · rw [if_neg hscroll] at hcells
      have hcell := hcells g.maxRow 0 hlastRow g.col_zero
      rw [if_neg (by omega), if_neg (by omega)] at hcell
      exact inkWord_ne attrib hcell
  · rintro ⟨hzero, hle⟩ v changed hv
    rw [if_pos (by omega)] at hint
    rw [if_pos (by omega)]
    refine directScrollUp_does hv (by omega) (by omega) hrow0 fun r c hr hc => ?_
    rw [show n.toInt - row = n.toNat by omega]

theorem su_iff (hn : 1 ≤ (getArg .su arg).toNat) :
    DoesPrescribed g attrib .su arg row col ↔ Fits g .su (getArg .su arg).toNat row col := by
  have hmax := g.maxRow_le
  have hint := toInt_eq (getArg .su arg)
  have hlastRow : g.Row g.maxRow := ⟨Int.natCast_nonneg _, le_refl _⟩
  unfold DoesPrescribed Fits executeEdit prescribed
  dsimp only
  generalize getArg .su arg = n at *
  constructor
  · intro h
    by_contra hnot
    rw [if_neg hnot] at hint
    obtain ⟨hcells, -⟩ := h (inkVideo attrib) false rfl
    rw [if_pos (by omega)] at hcells
    have hcell := hcells g.maxRow 0 hlastRow g.col_zero
    rw [if_neg (by omega)] at hcell
    exact inkWord_ne attrib ((directScrollUp_ink (by omega)
      (le_refl _) g.col_zero).symm.trans hcell)
  · intro hover v changed hv
    rw [if_pos hover] at hint
    by_cases hscroll : n.toInt ≤ g.maxRow
    · rw [if_pos hscroll]
      refine directScrollUp_does hv (by omega) hscroll (le_refl _) fun r c hr hc => ?_
      have hr0 : ¬ r < 0 := not_lt.2 hr.1
      rw [if_neg hr0, show n.toInt - 0 = n.toNat by omega]
    · rw [if_neg hscroll]
      refine directClear_does hv g.col_zero g.col_maxCol
        (by omega) (le_refl _) (le_refl _) fun r c ⟨hr0, hrm⟩ ⟨hc0, hcm⟩ => ?_
      rw [if_neg (by omega), if_pos (by omega)]

theorem st_iff (hn : 1 ≤ (getArg .st arg).toNat) :
    DoesPrescribed g attrib .st arg row col ↔ Fits g .st (getArg .st arg).toNat row col := by
  have hmax := g.maxRow_le
  have hint := toInt_eq (getArg .st arg)
  unfold DoesPrescribed Fits executeEdit prescribed
  dsimp only
  generalize getArg .st arg = n at *
  constructor
  · intro h
    by_contra hnot
    by_cases hover : (n.toNat : ℤ) < 2 ^ 31
    · rw [if_pos hover] at hint
      obtain ⟨-, hstores⟩ := h (inkVideo attrib) false rfl
      rw [if_pos (by omega)] at hstores
      obtain ⟨a, ha, hon⟩ := @directScrollDown_stores g attrib (inkVideo attrib) 0 n.toInt
        (by omega) (by omega)
      exact hon (hstores a ha)
    · rw [if_neg hover] at hint
      obtain ⟨hcells, -⟩ := h (inkVideo attrib) false rfl
      rw [if_pos (by omega)] at hcells
      have hcell := hcells 0 0 ⟨le_refl _, Int.natCast_nonneg _⟩ g.col_zero
      rw [if_pos (by omega)] at hcell
      exact inkWord_ne attrib ((directScrollDown_ink (by omega) _ _).symm.trans hcell)
  · rintro ⟨hbelow, hover⟩ v changed hv
    rw [if_pos hover] at hint
    rw [if_neg (by omega)]
    refine directClear_does hv g.col_zero g.col_maxCol
      (by omega) (le_refl _) (le_refl _) fun r c ⟨hr0, hrm⟩ ⟨hc0, hcm⟩ => ?_
    rw [if_pos (by omega), if_pos (by omega)]

theorem ich_iff (hn : 1 ≤ (getArg .ich arg).toNat) (hrow : g.Row row) (hcol : g.Col col) :
    DoesPrescribed g attrib .ich arg row col ↔ Fits g .ich (getArg .ich arg).toNat row col := by
  have hmax := g.maxCol_le
  obtain ⟨hrow0, hrowm⟩ := id hrow
  obtain ⟨hcol0, hcolm⟩ := id hcol
  have hplus := plusArg_eq hcol0 (by omega : col ≤ 0xffff) (n := getArg .ich arg)
  unfold DoesPrescribed Fits executeEdit prescribed
  dsimp only
  generalize getArg .ich arg = n at *
  constructor
  · intro h
    by_contra hnot
    by_cases hover : col + n.toNat < 2 ^ 31
    · rw [if_pos hover] at hplus
      by_cases hlast : row = g.maxRow
      · obtain ⟨-, hstores⟩ := h (inkVideo attrib) false rfl
        rw [if_pos (by omega), hlast] at hstores
        obtain ⟨a, ha, hon⟩ := @directScrollRight_stores g attrib (inkVideo attrib) col
          (plusArg col n) (by omega) hcolm
        exact hon (hstores a ha)
      · -- the last cell of the row appears in the next row
        let v : Video := ⟨fun x => if x = g.videoOffset g.maxCol row then fillWord attrib
          else inkWord attrib, []⟩
        obtain ⟨hcells, -⟩ := h v false rfl
        have hnext : g.Col (n.toNat - 1) := ⟨by omega, by omega⟩
        rw [if_pos (by omega)] at hcells
        have hcell := hcells (row + 1) (n.toNat - 1) ⟨by omega, by omega⟩ hnext
        have hspill := @directScrollRight_spill g attrib v row col (plusArg col n) (by omega) hcolm
        rw [show plusArg col n - col - 1 = n.toNat - 1 by omega] at hspill
        rw [if_pos (.inl (by omega))] at hcell
        have hold : g.cell v (row + 1) (n.toNat - 1) = inkWord attrib := by
          have hne : g.videoOffset g.maxCol row < g.videoOffset (n.toNat - 1) (row + 1) :=
            (Geometry.offset_lt_iff g.col_maxCol hnext).2 (by omega)
          exact if_neg (by omega)
        have hfill : g.cell v row g.maxCol = fillWord attrib := if_pos rfl
        refine inkWord_ne attrib ?_
        rw [← hold, ← hcell, ← hfill]
        exact hspill
    · rw [if_neg hover] at hplus
      obtain ⟨hcells, -⟩ := h (inkVideo attrib) false rfl
      rw [if_pos (by omega)] at hcells
      have hcell := hcells row col hrow hcol
      rw [if_neg (by omega), if_pos (by omega)] at hcell
      refine inkWord_ne attrib (Eq.trans ?_ hcell)
      have hend : g.videoOffset (plusArg col n) row ≤ g.videoOffset col row := by
        unfold Geometry.videoOffset
        omega
      exact (scrollForward_const (fun _ => rfl) hend _).symm
  · rintro ⟨hbehind, hover⟩ v changed hv
    rw [if_pos hover] at hplus
    rw [if_neg (by omega)]
    refine directClear_does hv hcol g.col_maxCol (by omega) hrow0 hrowm fun r c hr hc => ?_
    obtain ⟨hc0, hcm⟩ := hc
    by_cases hr : r ≠ row ∨ c < col
    · rw [if_pos hr, if_neg (by omega)]
    · rw [if_neg hr, if_pos (by omega), if_pos (by omega)]

theorem dch_iff (hn : 1 ≤ (getArg .dch arg).toNat) (hrow : g.Row row) (hcol : g.Col col) :
    DoesPrescribed g attrib .dch arg row col ↔ Fits g .dch (getArg .dch arg).toNat row col := by
  have hmax := g.maxCol_le
  obtain ⟨hrow0, hrowm⟩ := id hrow
  obtain ⟨hcol0, hcolm⟩ := id hcol
  have hplus := plusArg_eq hcol0 (by omega : col ≤ 0xffff) (n := getArg .dch arg)
  unfold DoesPrescribed Fits executeEdit prescribed
  dsimp only
  generalize getArg .dch arg = n at *
  constructor
  · intro h
    by_contra hover
    rw [if_neg hover] at hplus
    obtain ⟨hcells, -⟩ := h (inkVideo attrib) false rfl
    rw [if_pos (by omega)] at hcells
    have hcell := hcells row col hrow hcol
    rw [if_neg (by omega), if_neg (by omega)] at hcell
    refine inkWord_ne attrib (Eq.trans ?_ hcell)
    have hend : g.videoOffset g.maxCol row ≤ g.videoOffset (col + (g.maxCol - plusArg col n))
        (row + (row - row)) := by
      rw [Int.sub_self, Int.add_zero]
      unfold Geometry.videoOffset
      omega
    have hx : g.videoOffset col row ≤ g.videoOffset (col + (g.maxCol - plusArg col n))
        (row + (row - row)) := by
      refine le_trans ?_ hend
      unfold Geometry.videoOffset
      omega
    exact (scrollBackward_const (fun _ => rfl) hend hx).symm
  · intro hover v changed hv
    rw [if_pos hover] at hplus
    by_cases hscroll : plusArg col n ≤ g.maxCol
    · rw [if_pos hscroll]
      constructor
      · intro r c hr hc
        refine (directScrollLeft_cell (by omega) hscroll hcol0 hc).trans ?_
        rw [show plusArg col n - col = n.toNat by omega]
      · intro a ha
        obtain ha | ha := directScrollLeft_stores (by omega) hscroll hcol0 hrow ha
        · rw [hv] at ha
          cases ha
        · exact ha
    · rw [if_neg hscroll]
      refine directClear_does hv hcol g.col_maxCol (by omega) hrow0 hrowm fun r c hr hc => ?_
      obtain ⟨hc0, hcm⟩ := hc
      by_cases hr : r ≠ row ∨ c < col
      · rw [if_pos hr, if_neg (by omega)]
      · rw [if_neg hr, if_neg (by omega), if_pos (by omega)]

theorem ech_iff (hn : 1 ≤ (getArg .ech arg).toNat) (hrow : g.Row row) (hcol : g.Col col) :
    DoesPrescribed g attrib .ech arg row col ↔ Fits g .ech (getArg .ech arg).toNat row col := by
  have hmax := g.maxCol_le
  obtain ⟨hrow0, hrowm⟩ := id hrow
  obtain ⟨hcol0, hcolm⟩ := id hcol
  have hplus := plusArg_eq hcol0 (by omega : col ≤ 0xffff) (n := getArg .ech arg)
  unfold DoesPrescribed Fits executeEdit prescribed
  dsimp only
  generalize getArg .ech arg = n at *
  have hempty (v : Video) (hx : plusArg col n < col) :
      directClear g attrib v col row (plusArg col n) row =
        if g.videoOffset col row % 2 ≠ 0 then v.poke (g.videoOffset col row) (fillWord attrib)
          else v := by
    refine clearRange_empty ?_
    unfold Geometry.videoOffset
    omega
  constructor
  · intro h
    by_contra hnot
    obtain ⟨hcells, -⟩ := h (inkVideo attrib) false rfl
    rw [if_neg (by split at hplus <;> omega)] at hcells
    by_cases hover : col + n.toNat < 2 ^ 31
    · -- one cell too many
      rw [if_pos hover] at hplus
      have hnext : g.Col (col + n.toNat) := ⟨by omega, by omega⟩
      have hcell := hcells row (col + n.toNat) hrow hnext
      rw [if_neg (by omega)] at hcell
      have hclear := @directClear_cell g attrib (inkVideo attrib) col row (col + n.toNat) row row
        (col + n.toNat) hcol hnext
        (by omega) hnext
      rw [if_pos (by omega), ← hplus] at hclear
      rw [← hplus] at hcell
      exact inkWord_ne attrib (hcell.symm.trans hclear)
    · rw [if_neg hover] at hplus
      by_cases hlast : col = g.maxCol
      · have hcell := hcells row col hrow hcol
        rw [if_pos (by omega)] at hcell
        refine inkWord_ne attrib (Eq.trans ?_ hcell)
        unfold directInterface Geometry.cell
        dsimp only
        rw [hempty _ (by omega), if_neg (by omega)]
        rfl
      · have hcell := hcells row (col + 1) hrow ⟨by omega, by omega⟩
        rw [if_pos (by omega)] at hcell
        refine inkWord_ne attrib (Eq.trans ?_ hcell)
        have hne : g.videoOffset (col + 1) row ≠ g.videoOffset col row := by
          unfold Geometry.videoOffset
          omega
        unfold directInterface Geometry.cell
        dsimp only
        rw [hempty _ (by omega)]
        split
        · exact (if_neg hne).symm
        · rfl
  · rintro (⟨hbehind, hover⟩ | ⟨hlast, hover, hodd⟩) v changed hv
    · rw [if_pos hover] at hplus
      rw [if_pos (by omega)]
      refine directClear_does hv hcol g.col_maxCol (by omega) hrow0 hrowm fun r c hr hc => ?_
      obtain ⟨hc0, hcm⟩ := hc
      refine if_congr ?_ rfl rfl
      omega
    · rw [if_neg (by omega)] at hplus
      rw [if_neg (by omega)]
      unfold directInterface
      dsimp only
      rw [hempty _ (by omega), if_pos hodd]
      constructor
      · intro r c hr hc
        have hc' := hc
        obtain ⟨hc0, hcm⟩ := hc'
        have heq : g.videoOffset c r = g.videoOffset col row ↔ r = row ∧ c = col := by
          have h1 : g.videoOffset c r ≤ g.videoOffset col row ↔ _ := Geometry.offset_le_iff hc hcol
          have h2 : g.videoOffset col row ≤ g.videoOffset c r ↔ _ := Geometry.offset_le_iff hcol hc
          omega
        unfold Geometry.cell poke
        dsimp only
        refine if_congr ?_ rfl rfl
        rw [heq]
        omega
      · intro a ha
        obtain rfl | ha := List.mem_cons.1 ha
        · exact Geometry.onScreen_offset hcol hrow
        · rw [hv] at ha
          cases ha

/-- The usual screen, with 25 rows of 80 columns. -/
def textScreen : Geometry := ⟨24, 79, 0x5c000, by decide, by decide⟩

/-- A screen with three rows of four columns. -/
def smallScreen : Geometry := ⟨2, 3, 0, by decide, by decide⟩

def numbered : Video := ⟨fun x => BitVec.ofInt 16 (x + 0x4100), []⟩

end DjgppLibc.Termios
