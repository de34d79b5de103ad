import DjgppLibc.Console

/-!
# The cursor and the arguments of the console

What every run of `__libc_termios_write_tty` does with `args` and with the cursor. An argument
behind the sixteenth is only counted; a digit of it is stored beyond the array, and `m` reads
beyond it. `move_cursor` is right while it stays on the screen.
-/
namespace DjgppLibc.Termios

variable {g : Geometry} {d : Driver} {init : Byte} {mode : Mode} {k : Console}

/-- A coordinate that `move_cursor` hands to the BIOS. -/
def moved (bound : ℕ) (x delta : ℤ) : ℤ :=
  byte ((if x + delta < 0 then 0 else if x + delta > bound then (bound : ℤ) else x) + delta)

/-- The cursor moves by `n` and stops at the edge. -/
def Motion.Right (g : Geometry) (m : Motion) : Prop :=
  m.n.toNat < 2 ^ 31 →
    (m.col', m.row') =
      match m.direction with
      | .up => (m.col, max 0 (m.row - m.n.toNat))
      | .down => (m.col, min (g.maxRow : ℤ) (m.row + m.n.toNat))
      | .right => (min (g.maxCol : ℤ) (m.col + m.n.toNat), m.row)
      | .left => (max 0 (m.col - m.n.toNat), m.row)

/-- The distance does not lead off the screen, or it is a multiple of 256. A number from `2 ^ 31`
on may also lead onto the screen when it is added to the edge, as a byte. -/
def Stays (bound : ℕ) (n : BitVec 32) (x delta : ℤ) : Prop :=
  0 ≤ x + delta ∧ x + delta ≤ bound ∨ delta % 256 = 0 ∨
    2 ^ 31 ≤ n.toNat ∧ ((if delta < 0 then 0 else (bound : ℤ)) + delta) % 256 ≤ bound

def Motion.Stays (g : Geometry) (m : Motion) : Prop :=
  match m.direction with
  | .up | .down => Termios.Stays g.maxRow m.n m.row (m.direction.yDelta m.n)
  | .right | .left => Termios.Stays g.maxCol m.n m.col (m.direction.xDelta m.n)

theorem moved_zero {bound : ℕ} {x : ℤ} (hx : 0 ≤ x) (hx' : x ≤ bound) (hb : bound ≤ 255) :
    moved bound x 0 = x := by
  unfold moved byte
  split_ifs <;> omega

/-- A number below `2 ^ 31`. -/
theorem stays_iff_clamped {bound : ℕ} {n : BitVec 32} {x delta : ℤ} (hx : 0 ≤ x) (hx' : x ≤ bound)
    (hb : bound ≤ 255)
    (hn : n.toNat < 2 ^ 31) : Stays bound n x delta ↔ moved bound x delta =
    max 0 (min (bound : ℤ) (x + delta)) := by
  unfold Stays moved byte
  split_ifs <;> omega

theorem stays_iff_le {bound : ℕ} {n : BitVec 32} {x delta : ℤ} (hx : 0 ≤ x) (hx' : x ≤ bound)
    (hb : bound ≤ 255)
    (hn : 2 ^ 31 ≤ n.toNat) : Stays bound n x delta ↔ moved bound x delta ≤ bound := by
  unfold Stays moved byte
  split_ifs <;> omega

theorem toInt_neg_eq {n : BitVec 32} (hn : n.toNat < 2 ^ 31) : (-n).toInt = -(n.toNat : ℤ) := by
  rw [toInt_eq, BitVec.toNat_neg]
  split <;> omega

theorem stays_iff (hwide : g.maxCol ≤ 0xff) (dir : Direction) (n : BitVec 32) {s : Screen}
    (hs : g.Inside s)
    {m : Motion} (hm : m = ⟨dir, n, s.col, s.row, moved g.maxCol s.col (dir.xDelta n),
      moved g.maxRow s.row (dir.yDelta n)⟩) :
    m.Stays g ↔ m.Right g ∧ g.Col m.col' ∧ g.Row m.row' := by
  have hrow := g.maxRow_le
  obtain ⟨⟨hc0, hcm⟩, hr0, hrm⟩ := hs
  have hcol0 := moved_zero hc0 hcm hwide
  have hrow0 := moved_zero hr0 hrm hrow
  have hpos : ∀ bound x delta, 0 ≤ moved bound x delta := fun _ _ _ => Int.emod_nonneg _ (by decide)
  subst hm
  by_cases hn : n.toNat < 2 ^ 31
  · have hto : n.toInt = n.toNat := by rw [toInt_eq, if_pos (by exact_mod_cast hn)]
    have hneg := toInt_neg_eq hn
    cases dir with
    | up =>
        refine (stays_iff_clamped hr0 hrm hrow hn).trans ?_
        simp only [Motion.Right, Direction.xDelta, Direction.yDelta, hcol0, hneg, Prod.mk.injEq,
          true_and]
        unfold Geometry.Col Geometry.Row
        omega
    | down =>
        refine (stays_iff_clamped hr0 hrm hrow hn).trans ?_
        simp only [Motion.Right, Direction.xDelta, Direction.yDelta, hcol0, hto, Prod.mk.injEq,
          true_and]
        unfold Geometry.Col Geometry.Row
        omega
    | right =>
        refine (stays_iff_clamped hc0 hcm hwide hn).trans ?_
        simp only [Motion.Right, Direction.xDelta, Direction.yDelta, hrow0, hto, Prod.mk.injEq,
          and_true]
        unfold Geometry.Col Geometry.Row
        omega
    | left =>
        refine (stays_iff_clamped hc0 hcm hwide hn).trans ?_
        simp only [Motion.Right, Direction.xDelta, Direction.yDelta, hrow0, hneg, Prod.mk.injEq,
          and_true]
        unfold Geometry.Col Geometry.Row
        omega
  · have hright : ∀ col' row', Motion.Right g ⟨dir, n, s.col, s.row, col', row'⟩ :=
      fun _ _ h => absurd h hn
    cases dir with
    | up | down =>
        refine (stays_iff_le hr0 hrm hrow (Nat.le_of_not_lt hn)).trans ?_
        simp only [hright, Direction.xDelta, hcol0, true_and]
        exact ⟨fun h => ⟨⟨hc0, hcm⟩, hpos _ _ _, h⟩, fun h => h.2.2⟩
    | right | left =>
        refine (stays_iff_le hc0 hcm hwide (Nat.le_of_not_lt hn)).trans ?_
        simp only [hright, Direction.yDelta, hrow0, true_and]
        exact ⟨fun h => ⟨⟨hpos _ _ _, h⟩, hr0, hrm⟩, fun h => h.1.2⟩

/-- The cursor has always been on the screen, and every motion was right. -/
structure Console.Good (g : Geometry) (k : Console) : Prop where
  inside : g.Inside k.screen
  positions : ∀ p ∈ k.positions, g.Col p.1 ∧ g.Row p.2
  motions : ∀ m ∈ k.motions, m.Right g ∧ m.Stays g

def Console.Bad (g : Geometry) (k : Console) : Prop :=
  ∃ m ∈ k.motions, (m.col', m.row') ∈ k.positions ∧ ¬ m.Stays g ∧
    ¬ (m.Right g ∧ g.Col m.col' ∧ g.Row m.row')

def Console.Sound (g : Geometry) (k : Console) : Prop := k.Good g ∨ k.Bad g

theorem Console.Sound.iff (h : k.Sound g) :
    ((∀ p ∈ k.positions, g.Col p.1 ∧ g.Row p.2) ∧ ∀ m ∈ k.motions, m.Right g) ↔
    ∀ m ∈ k.motions, m.Stays g := by
  rcases h with h | ⟨m, hm, hp, hstays, hwrong⟩
  · exact iff_of_true ⟨h.positions, fun m hm => (h.motions m hm).1⟩ fun m hm => (h.motions m hm).2
  · exact iff_of_false (fun hc => hwrong ⟨hc.2 m hm, hc.1 _ hp⟩) fun hc => hstays (hc m hm)

/-- Nothing is done to the cursor except that it may go elsewhere on the screen. -/
theorem Console.Sound.congr {k' : Console} (h : k.Sound g) (hs : g.Inside k.screen →
      g.Inside k'.screen)
    (hp : k'.positions = k.positions) (hm : k'.motions = k.motions) : k'.Sound g := by
  rcases h with h | h
  · refine .inl ⟨hs h.inside, ?_, ?_⟩
    · rw [hp]
      exact h.positions
    · rw [hm]
      exact h.motions
  · right
    unfold Console.Bad
    rw [hp, hm]
    exact h

theorem Console.Sound.setCursor (h : k.Sound g) (col row : ℤ) :
    (k.setCursor g col row).Sound g := by
  have hinside := inside_setCursor (g := g) k.screen col row
  rcases h with h | ⟨m, hm, hp, hwrong⟩
  · exact .inl ⟨hinside, List.forall_mem_cons.mpr ⟨hinside, h.positions⟩, h.motions⟩
  · exact .inr ⟨m, hm, List.mem_cons_of_mem _ hp, hwrong⟩

theorem Console.Sound.moveCursor (h : k.Sound g) (hwide : g.maxCol ≤ 0xff) (dir : Direction)
    (n : BitVec 32) :
    (k.moveCursor g dir n).Sound g := by
  rcases h with h | ⟨m, hm, hp, hwrong⟩
  · have hiff := stays_iff hwide dir n h.inside rfl
    by_cases hstays : Motion.Stays g ⟨dir, n, k.screen.col, k.screen.row,
      moved g.maxCol k.screen.col (dir.xDelta n),
        moved g.maxRow k.screen.row (dir.yDelta n)⟩
    · obtain ⟨hright, hinside⟩ := hiff.mp hstays
      exact .inl ⟨hinside, List.forall_mem_cons.mpr ⟨hinside, h.positions⟩,
        List.forall_mem_cons.mpr ⟨⟨hright, hstays⟩, h.motions⟩⟩
    · exact .inr ⟨_, List.mem_cons_self, List.mem_cons_self, hstays, fun hc => hstays (hiff.mpr hc)⟩
  · exact .inr ⟨m, List.mem_cons_of_mem _ hm, List.mem_cons_of_mem _ hp, hwrong⟩

/-- `m` has no more arguments than the array. -/
def Event.Within : Event → Prop
  | .command cmd argc _ => cmd = 0x6d → argc.toNat ≤ NPAR
  | .literal _ => True

theorem execute_sgr (args : List (BitVec 32)) (argc : Byte) :
    execute d g init k 0x6d argc args = if argc.toNat ≤ NPAR then some (k.sgr init args)
    else none := by
  have hdest : destination k.screen 0x6d args = none := by simp [destination]
  unfold execute
  rw [hdest]
  rfl

theorem sgr_fields (k : Console) (init : Byte) (args : List (BitVec 32)) :
    (k.sgr init args).screen = k.screen ∧ (k.sgr init args).positions = k.positions ∧
      (k.sgr init args).motions = k.motions ∧ (k.sgr init args).parser = k.parser := by
  unfold Console.sgr
  split <;> exact ⟨rfl, rfl, rfl, rfl⟩

theorem execute_spec (d : Driver) (init : Byte) (hwide : g.maxCol ≤ 0xff) (h : k.Sound g)
    {cmd argc : Byte} {args : List (BitVec 32)}
    (hwithin : Event.Within (.command cmd argc args)) :
    ∃ k', execute d g init k cmd argc args = some k' ∧ k'.Sound g ∧ k'.parser = k.parser := by
  by_cases hcmd : cmd = 0x6d
  · subst hcmd
    obtain ⟨hs, hp, hm, hparser⟩ := sgr_fields k init args
    refine ⟨_, (execute_sgr args argc).trans (if_pos (hwithin rfl)), h.congr (fun hi => ?_) hp hm,
      hparser⟩
    rw [hs]
    exact hi
  · unfold execute
    cases direction cmd with
    | some dir => exact ⟨_, rfl, h.moveCursor hwide dir _, rfl⟩
    | none =>
        cases destination k.screen cmd args with
        | some p => exact ⟨_, rfl, h.setCursor p.1 p.2, rfl⟩
        | none =>
            cases editCommand cmd with
            | some e =>
                exact ⟨_, rfl, h.congr (inside_executeEdit (d.keeps g k.attrib init) e _) rfl rfl,
                  rfl⟩
            | none => exact ⟨k, if_neg hcmd, h, rfl⟩

theorem execute_within {k' : Console} {cmd argc : Byte} {args : List (BitVec 32)}
    (h : execute d g init k cmd argc args = some k') :
    Event.Within (.command cmd argc args) ∧ k'.parser = k.parser := by
  by_cases hcmd : cmd = 0x6d
  · subst hcmd
    rw [execute_sgr] at h
    split at h
    · rename_i hargs
      cases h
      exact ⟨fun _ => hargs, (sgr_fields k init args).2.2.2⟩
    · cases h
  · refine ⟨fun h => absurd h hcmd, ?_⟩
    unfold execute at h
    rw [if_neg hcmd] at h
    split at h
    · cases h
      rfl
    · split at h
      · cases h
        rfl
      · split at h <;> cases h <;> rfl

theorem executeAll_spec (d : Driver) (init : Byte) (hwide : g.maxCol ≤ 0xff) {l : List Event}
    (h : k.Sound g) (hl : ∀ e ∈ l, e.Within) :
    ∃ k', executeAll d g init k l = some k' ∧ k'.Sound g ∧ k'.parser = k.parser := by
  induction l generalizing k with
  | nil => exact ⟨k, rfl, h, rfl⟩
  | cons e l ih =>
      obtain ⟨he, hrest⟩ := List.forall_mem_cons.mp hl
      cases e with
      | command cmd argc args =>
          obtain ⟨k₁, hk₁, hsound, hparser⟩ := execute_spec d init hwide h he
          obtain ⟨k', hk', hsound', hparser'⟩ := ih hsound hrest
          exact ⟨k', by rw [executeAll, hk₁]; exact hk', hsound', hparser'.trans hparser⟩
      | literal ch => exact ih h hrest

theorem executeAll_within {l : List Event} {k' : Console} (h : executeAll d g init k l = some k') :
    (∀ e ∈ l, e.Within) ∧ k'.parser = k.parser := by
  induction l generalizing k with
  | nil =>
      cases h
      exact ⟨fun e he => absurd he List.not_mem_nil, rfl⟩
  | cons e l ih =>
      cases e with
      | command cmd argc args =>
          obtain ⟨k₁, hk₁, hrest⟩ := Option.bind_eq_some_iff.mp h
          obtain ⟨hwithin, hparser⟩ := execute_within hk₁
          obtain ⟨hall, hparser'⟩ := ih hrest
          exact ⟨List.forall_mem_cons.mpr ⟨hwithin, hall⟩, hparser'.trans hparser⟩
      | literal ch =>
          obtain ⟨hall, hparser⟩ := ih h
          exact ⟨List.forall_mem_cons.mpr ⟨trivial, hall⟩, hparser⟩

theorem consoleLoop_spec (hwide : g.maxCol ≤ 0xff) {fuel : ℕ} {col row : ℤ} {l : List Byte}
    {st : Parser}
    {events : List Event} (h : k.Sound g) (hw : writeLoop fuel k.parser l = some (st, events))
    (he : ∀ e ∈ events, e.Within) :
    ∃ k', consoleLoop d g init mode fuel k col row l = some k' ∧ k'.Sound g ∧ k'.parser = st := by
  induction fuel generalizing k col row l events with
  | zero =>
      cases l with
      | nil =>
          cases hw
          exact ⟨_, rfl, h.setCursor col row, rfl⟩
      | cons ch rest => cases hw
  | succ fuel ih =>
      cases l with
      | nil =>
          cases hw
          exact ⟨_, rfl, h.setCursor col row, rfl⟩
      | cons ch rest =>
          rw [writeLoop] at hw
          rw [consoleLoop]
          split at hw
          · rename_i hesc
            rw [if_pos hesc]
            obtain ⟨⟨st₁, rest₁, events₁⟩, hparse, hrest⟩ := Option.bind_eq_some_iff.mp hw
            obtain ⟨⟨st₂, more⟩, hmore, hr⟩ := Option.bind_eq_some_iff.mp hrest
            cases hr
            obtain ⟨k₀, hk₀⟩ : ∃ k₀, k₀ = if ch = 0x1b then k.setCursor g col row else k := ⟨_, rfl⟩
            have hsound₀ : k₀.Sound g := by
              rw [hk₀]
              split
              · exact h.setCursor col row
              · exact h
            have hparser₀ : k₀.parser = k.parser := by
              rw [hk₀]
              split <;> rfl
            have hparsed : Console.Sound g { k₀ with parser := st₁ } := hsound₀.congr id rfl rfl
            obtain ⟨k₁, hk₁, hsound₁, hparser₁⟩ := executeAll_spec d init hwide hparsed
              fun e hmem => he e (List.mem_append_left _ hmem)
            have hw₁ : writeLoop fuel k₁.parser rest₁ = some (st, more) := by
              rw [hparser₁]
              exact hmore
            obtain ⟨k', hk', hsound, hparser⟩ :
                ∃ k', consoleLoop d g init mode fuel k₁ k₁.screen.col k₁.screen.row rest₁ =
                  some k' ∧ k'.Sound g ∧
                  k'.parser = st :=
              ih hsound₁ hw₁ fun e hmem => he e (List.mem_append_right _ hmem)
            refine ⟨k', ?_, hsound, hparser⟩
            dsimp only
            rw [← hk₀, hparser₀, hparse]
            dsimp only [Option.bind_eq_bind, Option.bind_some]
            rw [hk₁]
            exact hk'
          · rename_i hesc
            rw [if_neg hesc]
            obtain ⟨⟨st₂, more⟩, hmore, hr⟩ := Option.bind_eq_some_iff.mp hw
            cases hr
            obtain ⟨p, hp, hinside⟩ := putLiteral_spec d g k.attrib init mode (k.screen, col,
              row) ch
            have hsound₁ : Console.Sound g { k with screen := p.1 } := h.congr hinside rfl rfl
            obtain ⟨k', hk', hsound, hparser⟩ :
                ∃ k', consoleLoop d g init mode fuel { k with screen := p.1 } p.2.1 p.2.2 rest =
                  some k' ∧ k'.Sound g ∧
                  k'.parser = st :=
              ih hsound₁ hmore fun e hmem => he e (List.mem_cons_of_mem _ hmem)
            refine ⟨k', ?_, hsound, hparser⟩
            rw [hp]
            exact hk'

theorem consoleLoop_within {fuel : ℕ} {col row : ℤ} {l : List Byte} {k' : Console}
    (h : consoleLoop d g init mode fuel k col row l = some k') :
    ∃ events, writeLoop fuel k.parser l = some (k'.parser, events) ∧ ∀ e ∈ events, e.Within := by
  have hnone : ∀ e ∈ ([] : List Event), e.Within := fun e he => absurd he List.not_mem_nil
  induction fuel generalizing k col row l with
  | zero =>
      cases l with
      | nil =>
          cases h
          exact ⟨[], rfl, hnone⟩
      | cons ch rest => cases h
  | succ fuel ih =>
      cases l with
      | nil =>
          cases h
          exact ⟨[], rfl, hnone⟩
      | cons ch rest =>
          rw [consoleLoop] at h
          rw [writeLoop]
          split at h
          · rename_i hesc
            rw [if_pos hesc]
            dsimp only at h
            obtain ⟨⟨st₁, rest₁, events₁⟩, hparse, h⟩ := Option.bind_eq_some_iff.mp h
            obtain ⟨k₁, hk₁, h⟩ := Option.bind_eq_some_iff.mp h
            obtain ⟨hwithin, hparser⟩ := executeAll_within hk₁
            obtain ⟨more, hmore, hall⟩ := ih h
            have hkept : (if ch = 0x1b then k.setCursor g col row else k).parser = k.parser := by
              split <;> rfl
            rw [hkept] at hparse
            refine ⟨events₁ ++ more, ?_, fun e he => (List.mem_append.mp he).elim (hwithin e)
              (hall e)⟩
            rw [hparser] at hmore
            dsimp only at hmore
            rw [hparse]
            dsimp only [Option.bind_eq_bind, Option.bind_some]
            rw [hmore]
            rfl
          · rename_i hesc
            rw [if_neg hesc]
            obtain ⟨⟨s, col', row'⟩, -, h⟩ := Option.bind_eq_some_iff.mp h
            obtain ⟨more, hmore, hall⟩ := ih h
            refine ⟨.literal ch :: more, ?_, List.forall_mem_cons.mpr ⟨trivial, hall⟩⟩
            dsimp only at hmore
            rw [hmore]
            rfl

theorem consoleWrites_spec (hwide : g.maxCol ≤ 0xff) {buffers : List (List Byte)} {st : Parser}
    {events : List Event}
    (h : k.Sound g) (hw : writeAll k.parser buffers = some (st, events))
    (he : ∀ e ∈ events, e.Within) :
    ∃ k', consoleWrites d g init mode k buffers = some k' ∧ k'.Sound g := by
  induction buffers generalizing k events with
  | nil => exact ⟨k, rfl, h⟩
  | cons buffer buffers ih =>
      obtain ⟨⟨st₁, events₁⟩, hfirst, hrest⟩ := Option.bind_eq_some_iff.mp hw
      obtain ⟨⟨st₂, more⟩, hmore, hr⟩ := Option.bind_eq_some_iff.mp hrest
      cases hr
      obtain ⟨k₁, hk₁, hsound, hparser⟩ := consoleLoop_spec hwide h hfirst fun e hmem => he e
        (List.mem_append_left _ hmem)
      obtain ⟨k', hk', hsound'⟩ :=
        ih hsound (by rw [hparser]; exact hmore) fun e hmem => he e (List.mem_append_right _ hmem)
      refine ⟨k', ?_, hsound'⟩
      rw [consoleWrites, consoleWrite, hk₁]
      exact hk'

theorem consoleWrites_within {buffers : List (List Byte)} {k' : Console}
    (h : consoleWrites d g init mode k buffers = some k') :
    ∃ r, writeAll k.parser buffers = some r ∧ ∀ e ∈ r.2, e.Within := by
  induction buffers generalizing k with
  | nil => exact ⟨(k.parser, []), rfl, fun e he => absurd he List.not_mem_nil⟩
  | cons buffer buffers ih =>
      obtain ⟨k₁, hk₁, hrest⟩ := Option.bind_eq_some_iff.mp h
      obtain ⟨events, hfirst, hwithin⟩ := consoleLoop_within hk₁
      obtain ⟨r, hr, hall⟩ := ih hrest
      refine ⟨(r.1, events ++ r.2), ?_, fun e he => (List.mem_append.mp he).elim (hwithin e)
        (hall e)⟩
      rw [writeAll, writeTty, hfirst]
      dsimp only [Option.bind_eq_bind, Option.bind_some]
      rw [hr]
      rfl

/-- The byte is no digit of an argument behind the sixteenth, and no `m` behind so many, unless
the number of arguments has gone around to zero or the command is ignored. -/
def Parser.Room (st : Parser) (ch : Byte) : Prop :=
  st.cmdState = .haveArg →
    st.argCount.toNat < NPAR ∨ isdigit ch = false ∧ (ch = 0x6d → st.ignoreCmd = true ∨
      st.argCount = 255)

/-- There is room for each byte in the state that the bytes in front of it lead to. -/
def ArgumentsFit (s : List Byte) : Prop :=
  ∀ l ch, l ++ [ch] <+: s → ∀ r, writeTty .start l = some r → r.1.Room ch

theorem step_ne_haveCmd {st : Parser} {ch : Byte} {r : Parser × List Event}
    (h : step st ch = some r) :
    r.1.cmdState ≠ .haveCmd := by
  have harg : ∀ {st : Parser}, st.cmdState = .haveArg → argStep st ch = some r →
      r.1.cmdState ≠ .haveCmd := by
    intro st hst h
    unfold argStep at h
    split at h
    · obtain ⟨st', hadd, rfl⟩ := Option.map_eq_some_iff.mp h
      rw [addDigit_cmdState hadd, hst]
      decide
    · split at h
      · dsimp only at h
        split at h <;> cases h <;> (dsimp only; rw [hst]; decide)
      · cases h
        exact nofun
  unfold step at h
  cases hst : st.cmdState <;> rw [hst] at h <;> dsimp only at h
  · split at h <;> cases h
    · exact nofun
    · rw [hst]
      decide
  · split at h
    · cases h
      exact nofun
    · split at h <;> cases h
      · rw [hst]
        decide
      · exact nofun
  · split at h
    · exact harg rfl h
    · split at h <;> cases h <;> exact nofun
  · exact harg hst h
  · cases h
    exact nofun

theorem finish_within (st : Parser) (ch : Byte) :
    (∀ e ∈ (finish st ch).2, e.Within) ↔ (ch = 0x6d → st.ignoreCmd = true ∨
      st.argCount.toNat ≤ NPAR) := by
  unfold finish
  dsimp only
  by_cases hch : ch = 0x6d
  · subst hch
    cases hignore : st.ignoreCmd <;> simp [isCommandChar, isalpha, Event.Within]
  · refine iff_of_true (fun e he => ?_) fun h => absurd h hch
    split at he
    · rw [List.mem_singleton.mp he]
      exact fun h => absurd h hch
    · exact absurd he List.not_mem_nil

theorem argStep_room_iff {st : Parser} {ch : Byte} (hst : st.cmdState = .haveArg) :
    (∃ r, argStep st ch = some r ∧ ∀ e ∈ r.2, e.Within) ↔ st.Room ch := by
  have hnone : ∀ e ∈ ([] : List Event), e.Within := fun e he => absurd he List.not_mem_nil
  have hroom : st.Room ch ↔ st.argCount.toNat < NPAR ∨
      isdigit ch = false ∧ (ch = 0x6d → st.ignoreCmd = true ∨ st.argCount = 255) :=
        ⟨fun h => h hst, fun h _ => h⟩
  rw [hroom]
  unfold argStep
  by_cases hdigit : isdigit ch = true
  · rw [if_pos hdigit]
    unfold addDigit
    by_cases hin : st.argCount.toNat < NPAR
    · rw [dif_pos hin]
      exact iff_of_true ⟨_, rfl, hnone⟩ (.inl hin)
    · rw [dif_neg hin]
      refine iff_of_false (fun ⟨r, hr, _⟩ => by cases hr) fun h => ?_
      rcases h with h | h
      · exact hin h
      · rw [hdigit] at h
        cases h.1
  · have hdigit' : isdigit ch = false := by simpa using hdigit
    rw [if_neg hdigit]
    by_cases hsep : ch = 0x3b
    · rw [if_pos hsep]
      refine iff_of_true ?_ (.inr ⟨hdigit', fun h => absurd (hsep.symm.trans h) (by decide)⟩)
      dsimp only
      split <;> exact ⟨_, rfl, hnone⟩
    · rw [if_neg hsep]
      have hcount : ({ st with argCount := st.argCount + 1 } : Parser).argCount.toNat ≤ NPAR ↔
          st.argCount.toNat < NPAR ∨ st.argCount = 255 := by
        have hlt := st.argCount.isLt
        change (st.argCount + 1).toNat ≤ 16 ↔ st.argCount.toNat < 16 ∨ st.argCount = 255
        rw [BitVec.toNat_add, ← BitVec.toNat_inj]
        change (st.argCount.toNat + 1) % 256 ≤ 16 ↔ st.argCount.toNat < 16 ∨ st.argCount.toNat = 255
        omega
      constructor
      · rintro ⟨r, hr, hwithin⟩
        cases hr
        rw [finish_within, hcount] at hwithin
        by_cases hin : st.argCount.toNat < NPAR
        · exact .inl hin
        · refine .inr ⟨hdigit', fun h => ?_⟩
          rcases hwithin h with hignore | hin' | h255
          · exact .inl hignore
          · exact absurd hin' hin
          · exact .inr h255
      · intro h
        refine ⟨_, rfl, ?_⟩
        rw [finish_within, hcount]
        intro hm
        rcases h with hin | ⟨-, h⟩
        · exact .inr (.inl hin)
        · rcases h hm with hignore | h255
          · exact .inl hignore
          · exact .inr (.inr h255)

theorem step_room_iff {st : Parser} {ch : Byte} (hst : st.cmdState ≠ .haveCmd) :
    (∃ r, step st ch = some r ∧ ∀ e ∈ r.2, e.Within) ↔ st.Room ch := by
  have hnone : ∀ e ∈ ([] : List Event), e.Within := fun e he => absurd he List.not_mem_nil
  have hliteral : ∀ e ∈ [Event.literal ch], e.Within := by
    intro e he
    rw [List.mem_singleton.mp he]
    trivial
  unfold step
  cases hstate : st.cmdState with
  | haveArg => exact argStep_room_iff hstate
  | haveCmd => exact absurd hstate hst
  | needEsc =>
      refine iff_of_true ⟨_, rfl, ?_⟩ fun h => absurd (hstate.symm.trans h) (by decide)
      split
      · exact hnone
      · exact hliteral
  | haveEsc =>
      refine iff_of_true ⟨_, rfl, ?_⟩ fun h => absurd (hstate.symm.trans h) (by decide)
      split_ifs
      · exact hnone
      · exact hnone
      · exact hliteral
  | haveLbracket =>
      refine iff_of_true ?_ fun h => absurd (hstate.symm.trans h) (by decide)
      dsimp only
      split_ifs
      · exact (argStep_room_iff rfl).mpr fun _ => .inl (show (0 : ℕ) < 16 by decide)
      · exact ⟨_, rfl, hnone⟩
      · refine ⟨_, rfl, ?_⟩
        rw [finish_within]
        exact fun _ => .inr (Nat.zero_le _)

theorem run_concat {st : Parser} {s : List Byte} {ch : Byte} {r : Parser × List Event} :
    run st (s ++ [ch]) = some r ↔
      ∃ r₀ r₁, run st s = some r₀ ∧ step r₀.1 ch = some r₁ ∧ r = (r₁.1, r₀.2 ++ r₁.2) := by
  have hone : ∀ st, run st [ch] = step st ch := by
    intro st
    rw [run]
    cases step st ch with
    | none => rfl
    | some r => simp [run, emit]
  rw [run_append]
  constructor
  · intro h
    obtain ⟨r₀, hr₀, h⟩ := Option.bind_eq_some_iff.mp h
    obtain ⟨r₁, hr₁, rfl⟩ := Option.map_eq_some_iff.mp h
    rw [hone] at hr₁
    exact ⟨r₀, r₁, hr₀, hr₁, rfl⟩
  · rintro ⟨r₀, r₁, hr₀, hr₁, rfl⟩
    rw [hr₀, Option.bind_some, hone, hr₁]
    rfl

theorem run_ne_haveCmd {s : List Byte} {r : Parser × List Event} (h : run .start s = some r) :
    r.1.cmdState ≠ .haveCmd := by
  induction s using List.reverseRec generalizing r with
  | nil =>
      cases h
      exact nofun
  | append_singleton s ch _ =>
      obtain ⟨r₀, r₁, -, hr₁, rfl⟩ := run_concat.mp h
      have hne : r₁.1.cmdState ≠ .haveCmd := step_ne_haveCmd hr₁
      exact hne

/-- There is room for all bytes when nothing is accessed beyond the array. -/
theorem argumentsFit_iff (s : List Byte) :
    ArgumentsFit s ↔ ∃ r, writeTty .start s = some r ∧ ∀ e ∈ r.2, e.Within := by
  unfold ArgumentsFit
  simp only [writeTty_eq_run]
  induction s using List.reverseRec with
  | nil =>
      refine iff_of_true (fun l ch h => ?_) ⟨(.start, []), rfl,
        fun e he => absurd he List.not_mem_nil⟩
      exact absurd h.length_le (by simp)
  | append_singleton s ch ih =>
      constructor
      · intro h
        obtain ⟨r₀, hr₀, hwithin⟩ := ih.mp fun l c hl => h l c
          (hl.trans (List.prefix_append s [ch]))
        obtain ⟨r₁, hr₁, hwithin'⟩ := (step_room_iff (run_ne_haveCmd hr₀)).mpr
          (h s ch (List.prefix_refl _) r₀ hr₀)
        exact ⟨_, run_concat.mpr ⟨r₀, r₁, hr₀, hr₁, rfl⟩,
          fun e he => (List.mem_append.mp he).elim (hwithin e) (hwithin' e)⟩
      · rintro ⟨r, hr, hwithin⟩ l c hl
        obtain ⟨r₀, r₁, hr₀, hr₁, rfl⟩ := run_concat.mp hr
        rcases List.prefix_concat_iff.mp hl with heq | hl
        · obtain ⟨rfl, hc⟩ := List.append_inj' heq rfl
          obtain rfl := List.singleton_inj.mp hc
          intro r hr
          rw [hr₀] at hr
          cases hr
          exact (step_room_iff (run_ne_haveCmd hr₀)).mp ⟨r₁, hr₁,
            fun e he => hwithin e (List.mem_append_right _ he)⟩
        · exact ih.mpr ⟨r₀, hr₀, fun e he => hwithin e (List.mem_append_left _ he)⟩ l c hl

/-- The program has written nothing yet, and the cursor is on the screen. -/
structure Console.Starts (g : Geometry) (k : Console) : Prop where
  parser : k.parser = .start
  inside : g.Inside k.screen
  positions : k.positions = []
  motions : k.motions = []

/-- The cursor in row 3 and column 5. -/
def freshConsole : Console := ⟨.start, ⟨⟨fun _ => 0, []⟩, 5, 3, false⟩, 7, false, [], []⟩

end DjgppLibc.Termios
