import DjgppLibc.VideoBios

/-!
# Writing to the console (`posix/termios/tmwrite.c`)

`execute_console_command` with the motions of the cursor, and `__libc_termios_write_tty` with
either driver on page 0. An argument outside of `args` ends a run. `move_cursor` adds the
distance once more after it has moved the cursor to the edge.
-/
namespace DjgppLibc.Termios

open LoggedMemory

inductive Direction
  | up
  | down
  | right
  | left
deriving DecidableEq

/-- The distance that `A`, `B`, `C` or `D` hands to `move_cursor`. -/
def Direction.xDelta (d : Direction) (n : BitVec 32) : ℤ :=
  match d with
  | .right => n.toInt
  | .left => (-n).toInt
  | _ => 0

def Direction.yDelta (d : Direction) (n : BitVec 32) : ℤ :=
  match d with
  | .up => (-n).toInt
  | .down => n.toInt
  | _ => 0

/-- `move_cursor`; a sum that overflows an `int` is taken as it is. -/
def moveCursor (g : Geometry) (s : Screen) (xDelta yDelta : ℤ) : Screen :=
  let row := if s.row + yDelta < 0 then 0 else if s.row + yDelta > g.maxRow then (g.maxRow : ℤ)
    else s.row
  let col := if s.col + xDelta < 0 then 0 else if s.col + xDelta > g.maxCol then (g.maxCol : ℤ)
    else s.col
  biosSetCursor s (row + yDelta) (col + xDelta)

/-- `screen_color`, from `BLACK` to `LIGHTGRAY` -/
def screenColor : List Byte := [0, 4, 2, 6, 1, 5, 3, 7]

structure Attributes where
  fg : Byte
  bg : Byte
  /-- `cur_blink` -/
  curBlink : Bool

/-- One argument of `m`. -/
def sgrOne (init : Byte) (a : Attributes) (n : BitVec 32) : Attributes :=
  if n = 0 then { a with fg := init &&& 0x0f, bg := (init >>> 4) &&& 0x0f }
  else if n = 1 then { a with fg := a.fg ||| 8 }
  -- falls through to the underline
  else if n = 2 then { a with fg := (a.fg &&& ~~~8) ||| 8 }
  else if n = 4 then { a with fg := a.fg ||| 8 }
  else if n = 5 then { a with bg := a.bg ||| 8, curBlink := true }
  else if n = 7 then
    { fg := a.bg, bg := if a.bg &&& 8 ≠ 0 then a.fg ||| 8 else a.fg
      curBlink := a.curBlink && decide (a.fg &&& 8 = 0) }
  else if n = 8 then { a with fg := (a.bg &&& 7) ||| 8 }
  else if n = 25 then { a with bg := a.bg &&& ~~~8, curBlink := false }
  else if 30 ≤ n ∧ n ≤ 37 then { a with fg := (a.fg &&& 8) ||| screenColor.getD (n - 30).toNat 0 }
  else if 40 ≤ n ∧ n ≤ 47 then { a with bg := (a.bg &&& 8) ||| screenColor.getD (n - 40).toNat 0 }
  else a

/-- A call of `move_cursor`, with the cursor before it and what it hands to the BIOS. -/
structure Motion where
  direction : Direction
  n : BitVec 32
  col : ℤ
  row : ℤ
  col' : ℤ
  row' : ℤ

/-- The static variables and `__tty_screen`, with the positions that `set_cursor` and
`move_cursor` leave the cursor at. -/
structure Console where
  parser : Parser
  screen : Screen
  attrib : Byte
  curBlink : Bool
  positions : List (ℤ × ℤ)
  motions : List Motion

/-- The two values of `__tty_screen_intface`; the BIOS driver reads the `int` behind a row. -/
inductive Driver
  | direct
  | vbios (behind : ℤ)

def Driver.interface (d : Driver) (g : Geometry) (attrib init : Byte) : Interface :=
  match d with
  | .direct => directInterface g attrib
  | .vbios behind => vbiosInterface g attrib init behind

def Console.setCursor (g : Geometry) (k : Console) (col row : ℤ) : Console :=
  let s := Termios.setCursor g k.screen col row
  { k with screen := s, positions := (s.col, s.row) :: k.positions }

def Console.moveCursor (g : Geometry) (k : Console) (d : Direction) (n : BitVec 32) : Console :=
  let s := Termios.moveCursor g k.screen (d.xDelta n) (d.yDelta n)
  { k with
    screen := s
    positions := (s.col, s.row) :: k.positions
    motions := ⟨d, n, k.screen.col, k.screen.row, s.col, s.row⟩ :: k.motions }

/-- `m` -/
def Console.sgr (init : Byte) (k : Console) (args : List (BitVec 32)) : Console :=
  if args = [] then { k with attrib := init }
  else
    let a := args.foldl (sgrOne init) ⟨k.attrib &&& 0x0f, (k.attrib >>> 4) &&& 0x0f, k.curBlink⟩
    let fg := if a.fg = a.bg &&& 7 then a.fg ||| 8 else a.fg
    { k with attrib := (a.bg <<< 4) ||| fg, curBlink := a.curBlink }

def direction (cmd : Byte) : Option Direction :=
  if cmd = 0x41 ∨ cmd = 0x6b then some .up
  else if cmd = 0x42 ∨ cmd = 0x65 then some .down
  else if cmd = 0x43 ∨ cmd = 0x61 then some .right
  else if cmd = 0x44 ∨ cmd = 0x6a then some .left
  else none

/-- What `E`, `F`, `G`, `H`, `f`, `d`, `I` and `Z` hand to `set_cursor`. -/
def destination (s : Screen) (cmd : Byte) (args : List (BitVec 32)) : Option (ℤ × ℤ) :=
  let n := args.head?.getD 1
  if cmd = 0x45 then some (0, plusArg s.row n)
  else if cmd = 0x46 then some (0, plusArg s.row (-n))
  else if cmd = 0x47 then some ((n - 1).toInt, s.row)
  else if cmd = 0x48 ∨ cmd = 0x66 then some ((args[1]?.getD 1 - 1).toInt, (n - 1).toInt)
  else if cmd = 0x64 then some (s.col, (n - 1).toInt)
  else if cmd = 0x49 then some (plusArg (s.col / 8 * 8) (n * 8), s.row)
  else if cmd = 0x5a ∧ s.col > 0 ∧ 0 < n then some (plusArg ((s.col - 1) / 8 * 8) (-((n - 1) * 8)),
    s.row)
  else none

def editCommand (cmd : Byte) : Option EditCommand :=
  if cmd = 0x4a then some .ed
  else if cmd = 0x4b then some .el
  else if cmd = 0x4c then some .il
  else if cmd = 0x4d then some .dl
  else if cmd = 0x53 then some .su
  else if cmd = 0x54 then some .st
  else if cmd = 0x40 then some .ich
  else if cmd = 0x50 then some .dch
  else if cmd = 0x58 then some .ech
  else none

/-- `execute_console_command`; `args` is what there is of the arguments inside the array, and only
`m` reads beyond the second one. The shape of the cursor, which `v` changes, is left out. -/
def execute (d : Driver) (g : Geometry) (init : Byte) (k : Console) (cmd argc : Byte)
    (args : List (BitVec 32)) :
    Option Console :=
  match direction cmd with
  | some dir => some (k.moveCursor g dir (args.head?.getD 1))
  | none =>
      match destination k.screen cmd args with
      | some (col, row) => some (k.setCursor g col row)
      | none =>
          match editCommand cmd with
          | some e => some { k with screen := executeEdit (d.interface g k.attrib init) g k.screen e args.head? }
          | none =>
              if cmd = 0x6d then if argc.toNat ≤ NPAR then some (k.sgr init args) else none
              else some k

/-- `t_oflag` and the mode of the file. -/
structure Mode where
  raw : Bool
  onlcr : Bool
  ocrnl : Bool

def tabLoop (i : Interface) : ℕ → Screen × ℤ × ℤ → Option (Screen × ℤ × ℤ)
  | 0, _ => none
  | fuel + 1, (s, col, row) =>
      let p := i.writeCh s 0x20 col row
      if p.2.1 % 8 ≠ 0 then tabLoop i fuel p else some p

def putLiteral (i : Interface) (mode : Mode) (p : Screen × ℤ × ℤ) (ch : Byte) :
    Option (Screen × ℤ × ℤ) :=
  if ch = 0x09 then tabLoop i 9 p
  else if mode.raw then some (i.writeCh p.1 ch p.2.1 p.2.2)
  else if ch = 0x0a ∧ mode.onlcr then
    let p := i.writeCh p.1 0x0d p.2.1 p.2.2
    some (i.writeCh p.1 ch p.2.1 p.2.2)
  else
    let ch := if ch = 0x0d ∧ mode.ocrnl then 0x0a else ch
    some (i.writeCh p.1 ch p.2.1 p.2.2)

/-- What `parse_console_command` has executed. -/
def executeAll (d : Driver) (g : Geometry) (init : Byte) : Console → List Event → Option Console
  | k, [] => some k
  | k, .command cmd argc args :: l => (execute d g init k cmd
      argc args).bind fun k => executeAll d g init k l
  | k, .literal _ :: l => executeAll d g init k l

/-- The loop of `__libc_termios_write_tty`, with its column and row. -/
def consoleLoop (d : Driver) (g : Geometry) (init : Byte) (mode : Mode) :
    ℕ → Console → ℤ → ℤ → List Byte → Option Console
  | _, k, col, row, [] => some (k.setCursor g col row)
  | 0, _, _, _, _ :: _ => none
  | fuel + 1, k, col, row, ch :: rest =>
      if ch = 0x1b ∨ k.parser.cmdState ≠ .needEsc then do
        let k := if ch = 0x1b then k.setCursor g col row else k
        let (st, rest, events) ← parseConsoleCommand (rest.length + 2) k.parser (ch :: rest)
        let k ← executeAll d g init { k with parser := st } events
        consoleLoop d g init mode fuel k k.screen.col k.screen.row rest
      else do
        let (s, col, row) ← putLiteral (d.interface g k.attrib init) mode (k.screen, col, row) ch
        consoleLoop d g init mode fuel { k with screen := s } col row rest

/-- `__libc_termios_write_tty` -/
def consoleWrite (d : Driver) (g : Geometry) (init : Byte) (mode : Mode) (k : Console)
    (buffer : List Byte) :
    Option Console :=
  consoleLoop d g init mode (2 * buffer.length) k k.screen.col k.screen.row buffer

def consoleWrites (d : Driver) (g : Geometry) (init : Byte) (mode : Mode) :
    Console → List (List Byte) → Option Console
  | k, [] => some k
  | k, buffer :: buffers => (consoleWrite d g init mode
      k buffer).bind fun k => consoleWrites d g init mode k buffers

variable {g : Geometry} {d : Driver} {attrib init : Byte} {mode : Mode}

def Geometry.Inside (g : Geometry) (s : Screen) : Prop := g.Col s.col ∧ g.Row s.row

/-- Whoever calls `set_cursor`, the BIOS gets a position on the screen. -/
theorem inside_setCursor (s : Screen) (col row : ℤ) : g.Inside (setCursor g s col row) := by
  have hmax := g.maxRow_le
  obtain ⟨row', hrow', hr⟩ : ∃ x, x = (if row < 0 then 0 else if row > g.maxRow then (g.maxRow : ℤ)
      else row) ∧ g.Row x := by
    refine ⟨_, rfl, ?_⟩
    unfold Geometry.Row
    split_ifs <;> omega
  obtain ⟨col', hcol', hc⟩ : ∃ x, x = (if col < 0 then 0 else if col > g.maxCol then (g.maxCol : ℤ)
      else col) ∧ g.Col x := by
    refine ⟨_, rfl, ?_⟩
    unfold Geometry.Col
    split_ifs <;> omega
  unfold setCursor
  dsimp only
  rw [← hrow', ← hcol']
  split
  · rename_i h
    exact ⟨h.1 ▸ hc, h.2 ▸ hr⟩
  · unfold Geometry.Col at hc
    unfold Geometry.Row at hr
    constructor
    · change 0 ≤ col' % 256 ∧ col' % 256 ≤ g.maxCol
      omega
    · change 0 ≤ row' % 256 ∧ row' % 256 ≤ g.maxRow
      omega

theorem SameCursor.inside {s s' : Screen} (h : SameCursor s s') (hs : g.Inside s) :
    g.Inside s' := by
  unfold Geometry.Inside
  rw [h.1, h.2.1]
  exact hs

/-- A driver that leaves the cursor on the screen. -/
structure Interface.Keeps (g : Geometry) (i : Interface) : Prop where
  writeCh : ∀ s ch col row, g.Inside s → g.Inside (i.writeCh s ch col row).1
  scrollUp : ∀ s y1 y2 ydst, g.Inside s → g.Inside (i.scrollUp s y1 y2 ydst)
  scrollDown : ∀ s y1 y2 ydst, g.Inside s → g.Inside (i.scrollDown s y1 y2 ydst)
  scrollLeft : ∀ s y x1 x2 xdst, g.Inside s → g.Inside (i.scrollLeft s y x1 x2 xdst)
  scrollRight : ∀ s y x1 x2 xdst, g.Inside s → g.Inside (i.scrollRight s y x1 x2 xdst)
  clear : ∀ s x1 y1 x2 y2, g.Inside s → g.Inside (i.clear s x1 y1 x2 y2)

theorem inside_biosNewRow {s : Screen} (attr : Byte) (hc : g.Col s.col) (hr : 0 ≤ s.row) :
    g.Inside (biosNewRow g s attr) := by
  unfold biosNewRow
  split
  · rename_i h
    exact ⟨hc, hr, h⟩
  · exact ⟨hc, Int.natCast_nonneg _, le_refl _⟩

theorem inside_biosTeletype {s : Screen} (al : Byte) (h : g.Inside s) :
    g.Inside (biosTeletype g s al) := by
  obtain ⟨⟨hc0, hcm⟩, hr0, hrm⟩ := h
  have hm : (0 : ℤ) ≤ g.maxCol := Int.natCast_nonneg _
  unfold biosTeletype
  dsimp only
  split_ifs with hcr hnl hbs hbell hin
  · exact ⟨⟨le_refl _, hm⟩, hr0, hrm⟩
  · exact inside_biosNewRow _ ⟨hc0, hcm⟩ (Int.add_nonneg hr0 (by decide))
  · exact ⟨⟨le_max_left _ _, by dsimp only; omega⟩, hr0, hrm⟩
  · exact ⟨⟨hc0, hcm⟩, hr0, hrm⟩
  · exact ⟨⟨by dsimp only; omega, by dsimp only; omega⟩, hr0, hrm⟩
  · exact inside_biosNewRow _ ⟨le_refl _, hm⟩ (Int.add_nonneg hr0 (by decide))

theorem inside_vbiosWriteCh {behind : ℤ} {s : Screen} (ch : Byte) (col row : ℤ) (h : g.Inside s) :
    g.Inside (vbiosWriteCh g attrib init behind s ch col row).1 := by
  unfold vbiosWriteCh
  dsimp only
  have hflag : g.Inside (if s.attribChanged = false ∧ attrib ≠ init
      then { s with attribChanged := true } else s) := by
    split <;> exact h
  generalize (if s.attribChanged = false ∧ attrib ≠ init then { s with attribChanged := true }
    else s) = s'
    at hflag ⊢
  split
  · exact inside_biosTeletype ch hflag
  · split <;> exact inside_setCursor ..

theorem Driver.keeps (d : Driver) (g : Geometry) (attrib init : Byte) :
    (d.interface g attrib init).Keeps g := by
  cases d with
  | direct =>
      exact ⟨fun _ _ _ _ h => h, fun _ _ _ _ h => h, fun _ _ _ _ h => h, fun _ _ _ _ _ h => h,
        fun _ _ _ _ _ h => h, fun _ _ _ _ _ h => h⟩
  | vbios behind =>
      exact ⟨fun _ ch col row h => inside_vbiosWriteCh ch col row h, fun _ _ _ _ h => h,
        fun _ _ _ _ h => h,
        fun _ _ _ _ _ _ => inside_setCursor .., fun _ _ _ _ _ _ => inside_setCursor ..,
        fun s x1 y1 x2 y2 h => (sameCursor_vbiosClear s x1 y1 x2 y2).inside h⟩

theorem inside_executeEdit {i : Interface} {s : Screen} (hi : i.Keeps g) (cmd : EditCommand)
    (arg : Option (BitVec 32))
    (h : g.Inside s) : g.Inside (executeEdit i g s cmd arg) := by
  unfold executeEdit
  cases cmd <;> dsimp only <;> split_ifs <;>
    first
    | exact h
    | exact hi.clear _ _ _ _ _ h
    | exact hi.scrollUp _ _ _ _ h
    | exact hi.scrollDown _ _ _ _ h
    | exact hi.scrollLeft _ _ _ _ _ h
    | exact hi.scrollRight _ _ _ _ _ h

theorem attribChanged_setCursor (s : Screen) (col row : ℤ) :
    (setCursor g s col row).attribChanged = s.attribChanged := by
  unfold setCursor
  dsimp only
  split_ifs <;> rfl

/-- When the BIOS writes the character, the column of the loop is that of the cursor. -/
def Driver.Tied (d : Driver) (attrib init : Byte) (p : Screen × ℤ × ℤ) : Prop :=
  match d with
  | .direct => True
  | .vbios _ => attrib = init → p.1.attribChanged = false → p.1.col = p.2.1

theorem writeCh_space (d : Driver) (g : Geometry) (attrib init : Byte) (p : Screen × ℤ × ℤ) :
    d.Tied attrib init ((d.interface g attrib init).writeCh p.1 0x20 p.2.1 p.2.2) ∧
      (d.Tied attrib init p →
        ((d.interface g attrib init).writeCh p.1 0x20 p.2.1 p.2.2).2.1 = 0 ∨
          ((d.interface g attrib init).writeCh p.1 0x20 p.2.1 p.2.2).2.1 = p.2.1 + 1) := by
  obtain ⟨s, col, row⟩ := p
  cases d with
  | direct =>
      refine ⟨trivial, fun _ => ?_⟩
      change (if col + 1 > g.maxCol then
          directNewRow g attrib (s.video.poke (g.videoOffset col row) (attrib ++ (0x20 : Byte))) 0
            (row + 1)
        else directNewRow g attrib (s.video.poke (g.videoOffset col row) (attrib ++ (0x20 : Byte)))
          (col + 1) row).2.1 = 0 ∨
        (if col + 1 > g.maxCol then
          directNewRow g attrib (s.video.poke (g.videoOffset col row) (attrib ++ (0x20 : Byte))) 0
            (row + 1)
        else directNewRow g attrib (s.video.poke (g.videoOffset col row) (attrib ++ (0x20 : Byte)))
          (col + 1) row).2.1 =
          col + 1
      unfold directNewRow
      split_ifs
      · exact .inl rfl
      · exact .inl rfl
      · exact .inr rfl
      · exact .inr rfl
  | vbios behind =>
      change Driver.Tied (.vbios behind) attrib init
        (vbiosWriteCh g attrib init behind s 0x20 col row) ∧
        (Driver.Tied (.vbios behind) attrib init (s, col, row) →
          (vbiosWriteCh g attrib init behind s 0x20 col row).2.1 = 0 ∨
            (vbiosWriteCh g attrib init behind s 0x20 col row).2.1 = col + 1)
      unfold vbiosWriteCh
      dsimp only
      by_cases hplain : attrib = init ∧ s.attribChanged = false
      · obtain ⟨rfl, hflag⟩ := hplain
        have hsame : ¬ (s.attribChanged = false ∧ attrib ≠ attrib) := fun h => h.2 rfl
        rw [if_neg hsame, if_pos (.inl ⟨rfl, hflag⟩)]
        refine ⟨fun _ _ => rfl, fun htied => ?_⟩
        have hcol : s.col = col := htied rfl hflag
        unfold biosTeletype biosNewRow
        dsimp only
        rw [if_neg (by decide), if_neg (by decide), if_neg (by decide), if_neg (by decide), ← hcol]
        split_ifs
        · exact .inr rfl
        · exact .inl rfl
        · exact .inl rfl
      · have hchanged : ¬ (attrib = init ∧ (if s.attribChanged = false ∧ attrib ≠ init then
            { s with attribChanged := true } else s).attribChanged = false) := by
          rintro ⟨heq, hflag⟩
          rw [if_neg fun h => h.2 heq] at hflag
          exact hplain ⟨heq, hflag⟩
        generalize (if s.attribChanged = false ∧ attrib ≠ init then { s with attribChanged := true }
          else s) = s'
          at hchanged ⊢
        rw [if_neg (by
          rintro (h | h | h | h | h)
          · exact hchanged h
          all_goals exact absurd h (by decide))]
        have hkept : ∀ c r, (setCursor g (biosWrite g s' 0x20 attrib 1) c r).attribChanged =
          s'.attribChanged :=
          fun c r => attribChanged_setCursor _ c r
        split_ifs
        · exact ⟨fun heq hflag => absurd ⟨heq, (hkept _ _).symm.trans hflag⟩ hchanged,
            fun _ => .inl rfl⟩
        · exact ⟨fun heq hflag => absurd ⟨heq, (hkept _ _).symm.trans hflag⟩ hchanged,
            fun _ => .inr rfl⟩

theorem tabLoop_tied {n : ℕ} {p : Screen × ℤ × ℤ} (hp : d.Tied attrib init p)
    (hn : 8 - p.2.1 % 8 ≤ n) :
    (tabLoop (d.interface g attrib init) n p).isSome := by
  induction n generalizing p with
  | zero => omega
  | succ n ih =>
      obtain ⟨s, col, row⟩ := p
      obtain ⟨htied, hcol⟩ := writeCh_space d g attrib init (s, col, row)
      rw [tabLoop]
      dsimp only at hn hcol
      have hstop : ∀ x, x = 0 ∨ x = col + 1 → x % 8 ≠ 0 → 8 - x % 8 ≤ (n : ℤ) := by omega
      split
      · rename_i hmore
        exact ih htied (hstop _ (hcol hp) hmore)
      · rfl

theorem tabLoop_isSome (d : Driver) (g : Geometry) (attrib init : Byte) (p : Screen × ℤ × ℤ) :
    (tabLoop (d.interface g attrib init) 9 p).isSome := by
  obtain ⟨htied, -⟩ := writeCh_space d g attrib init p
  rw [tabLoop]
  split
  · exact tabLoop_tied htied (by omega)
  · rfl

theorem inside_tabLoop {i : Interface} {n : ℕ} {p p' : Screen × ℤ × ℤ} (hi : i.Keeps g)
    (h : tabLoop i n p = some p')
    (hp : g.Inside p.1) : g.Inside p'.1 := by
  induction n generalizing p with
  | zero => cases h
  | succ n ih =>
      rw [tabLoop] at h
      have hnext := hi.writeCh p.1 0x20 p.2.1 p.2.2 hp
      split at h
      · exact ih h hnext
      · cases h
        exact hnext

theorem putLiteral_spec (d : Driver) (g : Geometry) (attrib init : Byte) (mode : Mode)
    (p : Screen × ℤ × ℤ) (ch : Byte) :
    ∃ p', putLiteral (d.interface g attrib init) mode p ch = some p' ∧
    (g.Inside p.1 → g.Inside p'.1) := by
  have hi := d.keeps g attrib init
  unfold putLiteral
  split_ifs
  · obtain ⟨p', hp'⟩ := Option.isSome_iff_exists.mp (tabLoop_isSome d g attrib init p)
    exact ⟨p', hp', inside_tabLoop hi hp'⟩
  · exact ⟨_, rfl, hi.writeCh _ _ _ _⟩
  · exact ⟨_, rfl, fun hp => hi.writeCh _ _ _ _ (hi.writeCh _ _ _ _ hp)⟩
  all_goals exact ⟨_, rfl, hi.writeCh _ _ _ _⟩

end DjgppLibc.Termios
