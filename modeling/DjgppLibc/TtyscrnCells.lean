import DjgppLibc.Ttyscrn
import Mathlib.Tactic.Linarith
import Mathlib.Tactic.Ring

/-!
# The cells of the screen

What the functions of the direct driver do to the cell in a row and a column, and where
they store.
-/
namespace DjgppLibc.Termios

open LoggedMemory

variable {g : Geometry} {attrib : Byte} {v : Video}

def Geometry.cell (g : Geometry) (v : Video) (r c : ℤ) : Word := v.mem (g.videoOffset c r)

def Geometry.Col (g : Geometry) (c : ℤ) : Prop := 0 ≤ c ∧ c ≤ g.maxCol

def Geometry.Row (g : Geometry) (r : ℤ) : Prop := 0 ≤ r ∧ r ≤ g.maxRow

def Geometry.OnScreen (g : Geometry) (a : ℤ) : Prop := g.videoOffset 0 0 ≤ a ∧
    a ≤ g.videoOffset g.maxCol g.maxRow

theorem Geometry.offset_add_row (g : Geometry) (c r k : ℤ) :
    g.videoOffset c (r + k) = g.videoOffset c r + k * (g.maxCol + 1) := by
  unfold videoOffset
  ring

theorem Geometry.offset_add_col (g : Geometry) (c r k : ℤ) :
    g.videoOffset (c + k) r = g.videoOffset c r + k := by
  unfold videoOffset
  ring

theorem Geometry.offset_le_iff {c c' r r' : ℤ} (hc : g.Col c) (hc' : g.Col c') :
    g.videoOffset c r ≤ g.videoOffset c' r' ↔ r < r' ∨ r = r' ∧ c ≤ c' := by
  obtain ⟨hc0, hcm⟩ := hc
  obtain ⟨hc0', hcm'⟩ := hc'
  unfold videoOffset
  obtain hlt | heq | hgt := lt_trichotomy r r'
  · have h : (r + 1) * ((g.maxCol : ℤ) + 1) ≤ r' * (g.maxCol + 1) :=
      mul_le_mul_of_nonneg_right hlt (by omega)
    refine ⟨fun _ => .inl hlt, fun _ => ?_⟩
    linarith
  · rw [heq]
    constructor
    · intro h
      exact .inr ⟨rfl, by omega⟩
    · intro h
      omega
  · have h : (r' + 1) * ((g.maxCol : ℤ) + 1) ≤ r * (g.maxCol + 1) :=
      mul_le_mul_of_nonneg_right hgt (by omega)
    constructor
    · intro hle
      linarith
    · intro hle
      omega

theorem Geometry.offset_lt_iff {c c' r r' : ℤ} (hc : g.Col c) (hc' : g.Col c') :
    g.videoOffset c r < g.videoOffset c' r' ↔ r < r' ∨ r = r' ∧ c < c' := by
  rw [← not_le, offset_le_iff hc' hc]
  omega

theorem Geometry.col_zero (g : Geometry) : g.Col 0 := ⟨le_refl _, Int.natCast_nonneg _⟩

theorem Geometry.col_maxCol (g : Geometry) : g.Col g.maxCol := ⟨Int.natCast_nonneg _, le_refl _⟩

theorem Geometry.onScreen_offset {c r : ℤ} (hc : g.Col c) (hr : g.Row r) :
    g.OnScreen (g.videoOffset c r) := by
  obtain ⟨hr0, hrm⟩ := hr
  have hc' := hc
  obtain ⟨hc0, hcm⟩ := hc'
  refine ⟨(offset_le_iff g.col_zero hc).2 ?_, (offset_le_iff hc g.col_maxCol).2 ?_⟩ <;> omega

theorem directClear_cell {x1 y1 x2 y2 r c : ℤ} (h1 : g.Col x1) (h2 : g.Col x2)
    (h : y1 < y2 ∨ y1 = y2 ∧ x1 ≤ x2)
    (hc : g.Col c) :
    g.cell (directClear g attrib v x1 y1 x2 y2) r c =
      if (y1 < r ∨ y1 = r ∧ x1 ≤ c) ∧ (r < y2 ∨ r = y2 ∧ c ≤ x2) then fillWord attrib
      else g.cell v r c := by
  have hw := @clearRange_writes (fillWord attrib) v _ _ ((Geometry.offset_le_iff h1 h2).2 h)
  unfold Geometry.cell directClear
  split
  · rename_i hin
    exact hw.inside _ ((Geometry.offset_le_iff h1 hc).2 hin.1)
      (Int.lt_add_one_of_le ((Geometry.offset_le_iff hc h2).2 hin.2))
  · rename_i hout
    refine hw.outside _ ?_
    rw [Geometry.offset_lt_iff hc h1, Int.add_one_le_iff, Geometry.offset_lt_iff h2 hc]
    omega

theorem directClear_stores {x1 y1 x2 y2 a : ℤ} (h1 : g.Col x1) (h2 : g.Col x2)
    (h : y1 < y2 ∨ y1 = y2 ∧ x1 ≤ x2)
    (hy1 : 0 ≤ y1) (hy2 : y2 ≤ g.maxRow) (ha : a ∈ (directClear g attrib v x1 y1 x2 y2).stores) :
    a ∈ v.stores ∨ g.OnScreen a := by
  have hw := @clearRange_writes (fillWord attrib) v _ _ ((Geometry.offset_le_iff h1 h2).2 h)
  refine ((hw.stores a).1 ha).imp_right fun ha => ⟨?_, ?_⟩
  · exact le_trans (Geometry.onScreen_offset h1 ⟨hy1, by omega⟩).1 ha.1
  · exact le_trans (Int.le_of_lt_add_one ha.2) (Geometry.onScreen_offset h2 ⟨by omega, hy2⟩).2

/-- `direct_scroll_backward` for the rows from `y1` to the last one, to a row above. -/
theorem directScrollUp_writes {y1 ydst : ℤ} (hlt : ydst < y1) (hy1 : y1 ≤ g.maxRow) :
    Writes v (directScrollUp g attrib v y1 g.maxRow ydst) (g.videoOffset 0 ydst)
    (g.videoOffset g.maxCol g.maxRow + 1)
      fun x => if x ≤ g.videoOffset g.maxCol (g.maxRow - (y1 - ydst)) then
        v.mem (x + (y1 - ydst) * (g.maxCol + 1)) else fillWord attrib := by
  have hsrc : g.videoOffset 0 y1 = g.videoOffset 0 ydst + (y1 - ydst) * (g.maxCol + 1) := by
    rw [← Geometry.offset_add_row]
    congr 1
    omega
  have hlast : g.videoOffset (0 + (g.maxCol - 0)) (ydst + (g.maxRow - y1)) =
      g.videoOffset g.maxCol (g.maxRow - (y1 - ydst)) := by
    congr 1 <;> omega
  have hend : g.videoOffset g.maxCol g.maxRow =
      g.videoOffset g.maxCol (g.maxRow - (y1 - ydst)) + (y1 - ydst) * (g.maxCol + 1) := by
    rw [← Geometry.offset_add_row]
    congr 1
    omega
  unfold directScrollUp directScrollBackward
  dsimp only
  rw [hlast]
  have hk : g.videoOffset 0 ydst < g.videoOffset 0 y1 :=
    (Geometry.offset_lt_iff g.col_zero g.col_zero).2 (.inl hlt)
  have hle : g.videoOffset 0 ydst ≤ g.videoOffset g.maxCol (g.maxRow - (y1 - ydst)) :=
    (Geometry.offset_le_iff g.col_zero g.col_maxCol).2 (by omega)
  have hw := @scrollBackward_writes (fillWord attrib) v _ _ _
    (g.videoOffset g.maxCol g.maxRow) hk hle (by omega)
  rw [show g.videoOffset 0 y1 - g.videoOffset 0 ydst = (y1 - ydst) * (g.maxCol + 1) by omega] at hw
  exact hw

theorem directScrollUp_cell {y1 ydst r c : ℤ} (hlt : ydst < y1) (hy1 : y1 ≤ g.maxRow)
    (hr : r ≤ g.maxRow)
    (hc : g.Col c) :
    g.cell (directScrollUp g attrib v y1 g.maxRow ydst) r c =
      if r < ydst then g.cell v r c
      else if r + (y1 - ydst) ≤ g.maxRow then g.cell v (r + (y1 - ydst)) c
      else fillWord attrib := by
  have hw := @directScrollUp_writes g attrib v y1 ydst hlt hy1
  have hc' := hc
  obtain ⟨hc0, hcm⟩ := hc'
  unfold Geometry.cell
  split
  · exact hw.outside _ (.inl ((Geometry.offset_lt_iff hc g.col_zero).2 (by omega)))
  · rw [hw.inside _ ((Geometry.offset_le_iff g.col_zero hc).2 (by omega))
      (Int.lt_add_one_of_le ((Geometry.offset_le_iff hc g.col_maxCol).2
        (by omega))), ← Geometry.offset_add_row]
    refine if_congr ?_ rfl rfl
    rw [Geometry.offset_le_iff hc g.col_maxCol]
    omega

theorem directScrollUp_stores {y1 ydst a : ℤ} (hlt : ydst < y1) (hy1 : y1 ≤ g.maxRow)
    (hy : 0 ≤ ydst)
    (ha : a ∈ (directScrollUp g attrib v y1 g.maxRow ydst).stores) :
    a ∈ v.stores ∨ g.OnScreen a := by
  have hw := @directScrollUp_writes g attrib v y1 ydst hlt hy1
  refine ((hw.stores a).1 ha).imp_right fun ha => ⟨?_, Int.le_of_lt_add_one ha.2⟩
  exact le_trans (Geometry.onScreen_offset g.col_zero ⟨hy, by omega⟩).1 ha.1

/-- `direct_scroll_forward` for the rows from `y1` to the last one: the destination ends below the
screen. -/
theorem directScrollDown_writes {y1 ydst : ℤ} (hlt : y1 < ydst) (hy1 : y1 ≤ g.maxRow) :
    ∃ hi, g.videoOffset g.maxCol (g.maxRow + (ydst - y1)) < hi ∧
      Writes v (directScrollDown g attrib v y1 g.maxRow ydst) (g.videoOffset 0 y1) hi
        fun x => if x < g.videoOffset 0 ydst then fillWord attrib
        else v.mem (x - (ydst - y1) * (g.maxCol + 1)) := by
  have hdst : g.videoOffset 0 ydst = g.videoOffset 0 y1 + (ydst - y1) * (g.maxCol + 1) := by
    rw [← Geometry.offset_add_row]
    congr 1
    omega
  have hlast : g.videoOffset (0 + (g.maxCol - 0)) (ydst + (g.maxRow - y1)) =
      g.videoOffset g.maxCol (g.maxRow + (ydst - y1)) := by
    congr 1 <;> omega
  have hend := g.offset_add_row g.maxCol g.maxRow (ydst - y1)
  unfold directScrollDown directScrollForward
  dsimp only
  rw [hlast]
  have hk : g.videoOffset g.maxCol g.maxRow < g.videoOffset g.maxCol (g.maxRow + (ydst - y1)) :=
    (Geometry.offset_lt_iff g.col_maxCol g.col_maxCol).2 (by omega)
  have hle : g.videoOffset 0 ydst ≤ g.videoOffset g.maxCol (g.maxRow + (ydst - y1)) :=
    (Geometry.offset_le_iff g.col_zero g.col_maxCol).2 (by omega)
  have hw := @scrollForward_writes (fillWord attrib) v _ _ _ (g.videoOffset 0 y1) hk hle (by omega)
  rw [show g.videoOffset g.maxCol (g.maxRow + (ydst - y1)) - g.videoOffset g.maxCol g.maxRow =
    (ydst - y1) * (g.maxCol + 1) by omega] at hw
  refine ⟨_, ?_, hw⟩
  unfold spillEnd
  split <;> omega

theorem directScrollDown_cell {y1 ydst r c : ℤ} (hlt : y1 < ydst) (hy1 : y1 ≤ g.maxRow)
    (hr : r ≤ g.maxRow)
    (hc : g.Col c) :
    g.cell (directScrollDown g attrib v y1 g.maxRow ydst) r c =
      if r < y1 then g.cell v r c else if r < ydst then fillWord attrib
      else g.cell v (r - (ydst - y1)) c := by
  obtain ⟨hi, hhi, hw⟩ := @directScrollDown_writes g attrib v y1 ydst hlt hy1
  have hc' := hc
  obtain ⟨hc0, hcm⟩ := hc'
  unfold Geometry.cell
  split
  · exact hw.outside _ (.inl ((Geometry.offset_lt_iff hc g.col_zero).2 (by omega)))
  · have hlast : g.videoOffset c r ≤ g.videoOffset g.maxCol (g.maxRow + (ydst - y1)) :=
      (Geometry.offset_le_iff hc g.col_maxCol).2 (by omega)
    have hback : g.videoOffset c (r - (ydst - y1)) =
        g.videoOffset c r - (ydst - y1) * (g.maxCol + 1) := by
      have h := g.offset_add_row c (r - (ydst - y1)) (ydst - y1)
      rw [Int.sub_add_cancel] at h
      omega
    rw [hw.inside _ ((Geometry.offset_le_iff g.col_zero hc).2 (by omega)) (by omega), hback]
    refine if_congr ?_ rfl rfl
    rw [Geometry.offset_lt_iff hc g.col_zero]
    omega

theorem directScrollDown_stores {y1 ydst : ℤ} (hlt : y1 < ydst) (hy1 : y1 ≤ g.maxRow) :
    ∃ a ∈ (directScrollDown g attrib v y1 g.maxRow ydst).stores, ¬ g.OnScreen a := by
  obtain ⟨hi, hhi, hw⟩ := @directScrollDown_writes g attrib v y1 ydst hlt hy1
  refine ⟨g.videoOffset g.maxCol (g.maxRow + (ydst - y1)), (hw.stores _).2 (.inr ⟨?_, hhi⟩), ?_⟩
  · exact (Geometry.offset_le_iff g.col_zero g.col_maxCol).2 (by omega)
  · intro hon
    have := (Geometry.offset_le_iff g.col_maxCol g.col_maxCol).1 hon.2
    omega

theorem directScrollLeft_writes {y x1 xdst : ℤ} (hlt : xdst < x1) (hx1 : x1 ≤ g.maxCol) :
    Writes v (directScrollLeft g attrib v y x1 g.maxCol xdst) (g.videoOffset xdst y)
    (g.videoOffset g.maxCol y + 1)
      fun x => if x ≤ g.videoOffset (g.maxCol - (x1 - xdst)) y then v.mem (x + (x1 - xdst))
      else fillWord attrib := by
  have hsrc : g.videoOffset x1 y = g.videoOffset xdst y + (x1 - xdst) := by
    rw [← Geometry.offset_add_col]
    congr 1
    omega
  have hlast : g.videoOffset (xdst + (g.maxCol - x1)) (y + (y - y)) =
      g.videoOffset (g.maxCol - (x1 - xdst)) y := by
    congr 1 <;> omega
  have hend : g.videoOffset g.maxCol y = g.videoOffset (g.maxCol - (x1 - xdst)) y +
      (x1 - xdst) := by
    rw [← Geometry.offset_add_col]
    congr 1
    omega
  have hle : g.videoOffset (g.maxCol - (x1 - xdst)) y = g.videoOffset xdst y + (g.maxCol - x1) := by
    rw [← Geometry.offset_add_col]
    congr 1
    omega
  unfold directScrollLeft directScrollBackward
  dsimp only
  rw [hlast]
  have hw := @scrollBackward_writes (fillWord attrib) v (g.videoOffset xdst y) (g.videoOffset x1 y)
    (g.videoOffset (g.maxCol - (x1 - xdst)) y) (g.videoOffset g.maxCol y)
      (by omega) (by omega) (by omega)
  rw [show g.videoOffset x1 y - g.videoOffset xdst y = x1 - xdst by omega] at hw
  exact hw

theorem cell_of_shiftLeft {v v' : Video} {fill : Word} {y x1 xdst r c : ℤ} (hlt : xdst < x1)
    (hx1 : x1 ≤ g.maxCol)
    (hx : 0 ≤ xdst) (hc : g.Col c)
    (hw : Writes v v' (g.videoOffset xdst y) (g.videoOffset g.maxCol y + 1)
      fun x => if x ≤ g.videoOffset (g.maxCol - (x1 - xdst)) y then v.mem (x + (x1 - xdst))
      else fill) :
    g.cell v' r c =
      if r ≠ y ∨ c < xdst then g.cell v r c
      else if c + (x1 - xdst) ≤ g.maxCol then g.cell v r (c + (x1 - xdst)) else fill := by
  have hc' := hc
  obtain ⟨hc0, hcm⟩ := hc'
  have hxdst : g.Col xdst := ⟨hx, by omega⟩
  have hlast : g.Col (g.maxCol - (x1 - xdst)) := ⟨by omega, by omega⟩
  unfold Geometry.cell
  split
  · refine hw.outside _ ?_
    rw [Geometry.offset_lt_iff hc hxdst, Int.add_one_le_iff, Geometry.offset_lt_iff g.col_maxCol hc]
    omega
  · rw [hw.inside _ ((Geometry.offset_le_iff hxdst hc).2 (by omega))
      (Int.lt_add_one_of_le ((Geometry.offset_le_iff hc g.col_maxCol).2
        (by omega))), ← Geometry.offset_add_col]
    refine if_congr ?_ rfl rfl
    rw [Geometry.offset_le_iff hc hlast]
    omega

theorem directScrollLeft_cell {y x1 xdst r c : ℤ} (hlt : xdst < x1) (hx1 : x1 ≤ g.maxCol)
    (hx : 0 ≤ xdst)
    (hc : g.Col c) :
    g.cell (directScrollLeft g attrib v y x1 g.maxCol xdst) r c =
      if r ≠ y ∨ c < xdst then g.cell v r c
      else if c + (x1 - xdst) ≤ g.maxCol then g.cell v r (c + (x1 - xdst)) else fillWord attrib :=
  cell_of_shiftLeft hlt hx1 hx hc (directScrollLeft_writes hlt hx1)

theorem directScrollLeft_stores {y x1 xdst a : ℤ} (hlt : xdst < x1) (hx1 : x1 ≤ g.maxCol)
    (hx : 0 ≤ xdst)
    (hy : g.Row y) (ha : a ∈ (directScrollLeft g attrib v y x1 g.maxCol xdst).stores) :
    a ∈ v.stores ∨ g.OnScreen a := by
  have hw := @directScrollLeft_writes g attrib v y x1 xdst hlt hx1
  have hxdst : g.Col xdst := ⟨hx, by omega⟩
  refine ((hw.stores a).1 ha).imp_right fun ha => ⟨?_, ?_⟩
  · exact le_trans (Geometry.onScreen_offset hxdst hy).1 ha.1
  · exact le_trans (Int.le_of_lt_add_one ha.2) (Geometry.onScreen_offset g.col_maxCol hy).2

/-- `direct_scroll_forward` within a row: the destination ends behind the row. -/
theorem directScrollRight_writes {y x1 xdst : ℤ} (hlt : x1 < xdst) (hx1 : x1 ≤ g.maxCol) :
    ∃ hi, g.videoOffset g.maxCol y + (xdst - x1) < hi ∧
      Writes v (directScrollRight g attrib v y x1 g.maxCol xdst) (g.videoOffset x1 y) hi
        fun x => if x < g.videoOffset xdst y then fillWord attrib else v.mem (x - (xdst - x1)) := by
  have hdst : g.videoOffset xdst y = g.videoOffset x1 y + (xdst - x1) := by
    rw [← Geometry.offset_add_col]
    congr 1
    omega
  have hlast : g.videoOffset (xdst + (g.maxCol - x1)) (y + (y - y)) =
      g.videoOffset g.maxCol y + (xdst - x1) := by
    rw [← Geometry.offset_add_col]
    congr 1 <;> omega
  have hle : g.videoOffset g.maxCol y = g.videoOffset x1 y + (g.maxCol - x1) := by
    rw [← Geometry.offset_add_col]
    congr 1
    omega
  unfold directScrollRight directScrollForward
  dsimp only
  rw [hlast]
  have hw := @scrollForward_writes (fillWord attrib) v (g.videoOffset g.maxCol y + (xdst - x1))
    (g.videoOffset g.maxCol y) (g.videoOffset xdst y) (g.videoOffset x1 y)
      (by omega) (by omega) (by omega)
  rw [show g.videoOffset g.maxCol y + (xdst - x1) - g.videoOffset g.maxCol y =
    xdst - x1 by omega] at hw
  refine ⟨_, ?_, hw⟩
  unfold spillEnd
  split <;> omega

theorem cell_of_shiftRight {v v' : Video} {fill : Word} {y x1 xdst r c hi : ℤ} (hx1 : g.Col x1)
    (hc : g.Col c) (hhi : g.videoOffset g.maxCol y < hi) (hr : r ≤ y ∨
      hi = g.videoOffset g.maxCol y + 1)
    (hw : Writes v v' (g.videoOffset x1 y) hi
      fun x => if x < g.videoOffset xdst y then fill else v.mem (x - (xdst - x1))) :
    g.cell v' r c =
      if r ≠ y ∨ c < x1 then g.cell v r c else if c < xdst then fill
      else g.cell v r (c - (xdst - x1)) := by
  have hc' := hc
  obtain ⟨hc0, hcm⟩ := hc'
  unfold Geometry.cell
  split
  · refine hw.outside _ ?_
    obtain hr | hr := hr
    · rw [Geometry.offset_lt_iff hc hx1]
      omega
    · rw [hr, Geometry.offset_lt_iff hc hx1, Int.add_one_le_iff,
        Geometry.offset_lt_iff g.col_maxCol hc]
      omega
  · rename_i hin
    obtain ⟨hry, hx⟩ := not_or.1 hin
    have hry : r = y := not_not.1 hry
    have hoff : g.videoOffset c r = g.videoOffset xdst y + (c - xdst) := by
      rw [← Geometry.offset_add_col, hry]
      congr 1
      omega
    have hback : g.videoOffset (c - (xdst - x1)) r = g.videoOffset c r - (xdst - x1) := by
      have h := g.offset_add_col (c - (xdst - x1)) r (xdst - x1)
      rw [Int.sub_add_cancel] at h
      omega
    have hlast : g.videoOffset c r ≤ g.videoOffset g.maxCol y :=
      (Geometry.offset_le_iff hc g.col_maxCol).2 (by omega)
    rw [hw.inside _ ((Geometry.offset_le_iff hx1 hc).2 (by omega)) (by omega), hback]
    refine if_congr ?_ rfl rfl
    omega

theorem directScrollRight_cell {y x1 xdst r c : ℤ} (hlt : x1 < xdst) (hx1 : g.Col x1) (hr : r ≤ y)
    (hc : g.Col c) :
    g.cell (directScrollRight g attrib v y x1 g.maxCol xdst) r c =
      if r ≠ y ∨ c < x1 then g.cell v r c
      else if c < xdst then fillWord attrib else g.cell v r (c - (xdst - x1)) := by
  obtain ⟨hi, hhi, hw⟩ := @directScrollRight_writes g attrib v y x1 xdst hlt hx1.2
  exact cell_of_shiftRight hx1 hc (by omega) (.inl hr) hw

theorem directScrollRight_spill {y x1 xdst : ℤ} (hlt : x1 < xdst) (hx1 : x1 ≤ g.maxCol) :
    g.cell (directScrollRight g attrib v y x1 g.maxCol xdst) (y + 1) (xdst - x1 - 1) =
    g.cell v y g.maxCol := by
  obtain ⟨hi, hhi, hw⟩ := @directScrollRight_writes g attrib v y x1 xdst hlt hx1
  have hnext : g.videoOffset (xdst - x1 - 1) (y + 1) = g.videoOffset g.maxCol y + (xdst - x1) := by
    unfold Geometry.videoOffset
    ring
  have hdst : g.videoOffset xdst y = g.videoOffset g.maxCol y + (xdst - g.maxCol) := by
    rw [← Geometry.offset_add_col]
    congr 1
    omega
  have hsrc : g.videoOffset g.maxCol y = g.videoOffset x1 y + (g.maxCol - x1) := by
    rw [← Geometry.offset_add_col]
    congr 1
    omega
  unfold Geometry.cell
  rw [hnext, hw.inside _ (by omega) hhi, if_neg (by omega)]
  congr 1
  omega

theorem directScrollRight_stores {x1 xdst : ℤ} (hlt : x1 < xdst) (hx1 : x1 ≤ g.maxCol) :
    ∃ a ∈ (directScrollRight g attrib v g.maxRow x1 g.maxCol xdst).stores, ¬ g.OnScreen a := by
  obtain ⟨hi, hhi, hw⟩ := @directScrollRight_writes g attrib v g.maxRow x1 xdst hlt hx1
  have hsrc : g.videoOffset g.maxCol g.maxRow = g.videoOffset x1 g.maxRow + (g.maxCol - x1) := by
    rw [← Geometry.offset_add_col]
    congr 1
    omega
  refine ⟨g.videoOffset g.maxCol g.maxRow + (xdst - x1), (hw.stores _).2 (.inr ⟨by omega, hhi⟩), ?_⟩
  intro hon
  have := hon.2
  omega

end DjgppLibc.Termios
