import DjgppLibc.DosExecCmdline
import DjgppLibc.TextBuffers

/-!
# The command tail of `direct_exec` (`dos/process/dosexec.c`)

`direct_exec` quotes the arguments into the array `args` of `CMDLEN_LIMIT + 1`
characters. Each character is checked against the end of the array, and only the
NUL behind them is not: it is outside exactly if the quoted arguments do not fit.
Shells that get longer command lines are passed on to `direct_pe_exec` before.
-/
namespace DjgppLibc.DosExec

open LoggedMemory

/-- `stricmp (a, b) == 0`. -/
def sameName (a b : List Char) : Bool := a.map Char.toLower = b.map Char.toLower

def baseName (program : List Char) : List Char :=
  (program.reverse.takeWhile fun c => !(c = '/' || c = ':' || c = '\\')).reverse

/-- The largest `unsigned int`: no limit. The one below it asks for the version of DOS. -/
def noLimit : ℕ := 4294967295

def askVersion : ℕ := 4294967294

structure ShellData where
  name : List Char
  cmdlineLimit : ℕ

def shellBrokets : List ShellData :=
  [⟨['C', 'O', 'M', 'M', 'A', 'N', 'D', '.', 'C', 'O', 'M'], askVersion⟩,
    ⟨['4', 'D', 'O', 'S', '.', 'C', 'O', 'M'], 255⟩, ⟨['N', 'D', 'O', 'S', '.', 'C', 'O', 'M'],
      255⟩]

def unixShells : List ShellData :=
  [⟨['S', 'H', '.', 'E', 'X', 'E'], noLimit⟩, ⟨['-', 'S', 'H', '.', 'E', 'X', 'E'], noLimit⟩,
    ⟨['S', 'H', '1', '6', '.', 'E', 'X', 'E'], cmdlenLimit⟩,
    ⟨['S', 'H', '3', '2', '.', 'E', 'X', 'E'], cmdlenLimit⟩,
    ⟨['T', 'C', 'S', 'H', '.', 'E', 'X', 'E'], cmdlineMax⟩,
    ⟨['-', 'T', 'C', 'S', 'H', '.', 'E', 'X', 'E'], cmdlineMax⟩,
    ⟨['B', 'A', 'S', 'H', '.', 'E', 'X', 'E'], noLimit⟩,
    ⟨['-', 'B', 'A', 'S', 'H', '.', 'E', 'X', 'E'], noLimit⟩]

def findShell (program : List Char) (programList : List ShellData) : Option ShellData :=
  programList.find? fun s => sameName (baseName program) s.name

def listMember (program : List Char) (programList : List ShellData) : Bool :=
  (findShell program programList).isSome

/-- `_os_flavor` is `ms-dos`, and `_osmajor`. -/
structure DosVersion where
  osmajor : ℕ
  msDos : Bool

def DosVersion.isWindows (v : DosVersion) : Bool := v.osmajor ≥ 7 && v.osmajor < 10

def shellCmdlineLimit (v : DosVersion) (program : List Char) : ℕ :=
  match findShell program shellBrokets with
  | some s =>
      if s.cmdlineLimit = askVersion then if v.isWindows then noLimit else cmdlenLimit
      else s.cmdlineLimit
  | none =>
      match findShell program unixShells with
      | some s =>
          if s.cmdlineLimit = askVersion then
            if v.isWindows && v.msDos then cmdlineMax else cmdlenLimit
          else s.cmdlineLimit
      | none => 0

/-- The array `args` and the pointer `argp` into it. -/
structure ArgsArray where
  mem : LoggedMemory Char
  argp : ℤ

def ArgsArray.put (b : ArgsArray) (c : Char) : ArgsArray := ⟨b.mem.poke b.argp c, b.argp + 1⟩

/-- `argp - args > CMDLEN_LIMIT` -/
def ArgsArray.full (b : ArgsArray) : Prop := cmdlenLimit < b.argp

instance (b : ArgsArray) : Decidable b.full := inferInstanceAs
    (Decidable ((cmdlenLimit : ℤ) < b.argp))

def directChars (q : Quoting) (quoted : Bool) : ArgsArray → List Char → ArgsArray
  | b, [] => b
  | b, c :: p =>
      if b.full then b
      else if c = '"' ∧ (quoted ∨ q.needQuote) then
        let b := b.put '\\'
        if b.full then b else directChars q quoted (b.put c) p
      else
        match p with
        | d :: p =>
            if c = '\\' ∧ d = '\'' ∧ q.unescapeQuote then directChars q quoted (b.put d) p
            else directChars q quoted (b.put c) (d :: p)
        | [] => b.put c

/-- The loop over the arguments behind `argv[0]`. -/
def directArgs (q : Quoting) : ArgsArray → List (List Char) → ArgsArray
  | b, [] => b
  | b, p :: args =>
      if b.full then b
      else
        let b := b.put ' '
        if q.needQuote ∧ (' ' ∈ p ∨ '\t' ∈ p) then
          if b.full then b
          else
            let b := directChars q true (b.put '"') p
            directArgs q (if b.full then b else b.put '"') args
        else directArgs q (directChars q false b p) args

/-- The array with the NUL, and whether `errno` is set to `E2BIG`. -/
structure DirectTail where
  mem : LoggedMemory Char
  e2big : Bool

/-- What `direct_exec` gives to `direct_exec_tail`, or `none` if it calls `direct_pe_exec`;
`junk` is what the array holds at the start. -/
def directExec (v : DosVersion) (inSystem : Bool) (program : List Char) (args : List (List Char))
    (junk : ℤ → Char) : Option DirectTail :=
  let dosShell := listMember program shellBrokets
  let unixShell := listMember program unixShells
  if (dosShell || unixShell) && shellCmdlineLimit v program > cmdlenLimit then none
  else
    let b := directArgs (quoting inSystem dosShell unixShell args) ⟨⟨junk, []⟩, 0⟩ args
    some ⟨b.mem.poke b.argp '\x00', b.full⟩

def quotedChars (q : Quoting) (quoted : Bool) : List Char → List Char
  | [] => []
  | c :: p =>
      if c = '"' ∧ (quoted ∨ q.needQuote) then '\\' :: c :: quotedChars q quoted p
      else
        match p with
        | d :: p =>
            if c = '\\' ∧ d = '\'' ∧ q.unescapeQuote then d :: quotedChars q quoted p
            else c :: quotedChars q quoted (d :: p)
        | [] => [c]

def quotedArg (q : Quoting) (p : List Char) : List Char :=
  if q.needQuote ∧ (' ' ∈ p ∨ '\t' ∈ p) then '"' :: quotedChars q true p ++ ['"']
  else quotedChars q false p

def quotedTail (q : Quoting) (args : List (List Char)) : List Char :=
  args.flatMap fun p => ' ' :: quotedArg q p

/-- The first characters of a text are in the array, as many as there is room for, and the pointer
is behind them. -/
structure ArgsArray.Holds (b₀ b : ArgsArray) (s : List Char) : Prop where
  fills : Fills b₀.mem b.mem 0 (s.take (cmdlenLimit + 1))
  argp : b.argp = (s.take (cmdlenLimit + 1)).length

variable {b₀ b : ArgsArray} {q : Quoting} {quoted : Bool} {s p : List Char} {c : Char}

theorem ArgsArray.Holds.full_iff (h : b₀.Holds b s) : b.full ↔ cmdlenLimit < s.length := by
  rw [ArgsArray.full, h.argp, List.length_take]
  omega

/-- Nothing more can be put to a full array. -/
theorem ArgsArray.Holds.extend (h : b₀.Holds b s) (hfull : b.full) (t : List Char) :
    b₀.Holds b (s ++ t) := by
  have hlen : cmdlenLimit + 1 ≤ s.length := h.full_iff.mp hfull
  have htake : (s ++ t).take (cmdlenLimit + 1) = s.take (cmdlenLimit + 1) :=
    List.take_append_of_le_length hlen
  exact ⟨htake ▸ h.fills, htake ▸ h.argp⟩

theorem ArgsArray.Holds.put (h : b₀.Holds b s) (hfull : ¬ b.full) (c : Char) :
    b₀.Holds (b.put c) (s ++ [c]) := by
  have hlen : s.length ≤ cmdlenLimit := Nat.le_of_not_lt (mt h.full_iff.mpr hfull)
  have htake : s.take (cmdlenLimit + 1) = s := List.take_of_length_le (Nat.le_succ_of_le hlen)
  have htake' : (s ++ [c]).take (cmdlenLimit + 1) = s ++ [c] := by
    refine List.take_of_length_le ?_
    rw [List.length_append, List.length_singleton]
    exact Nat.succ_le_succ hlen
  have hfills := h.fills
  have hargp := h.argp
  rw [htake] at hfills hargp
  refine ⟨?_, ?_⟩
  · rw [htake', ArgsArray.put, hargp]
    refine hfills.append ?_
    rw [Int.zero_add]
    exact fills_poke _ _ _
  · rw [htake', ArgsArray.put, hargp, List.length_append, List.length_singleton]
    rfl

theorem quotedChars_quote (hc : c = '"' ∧ (quoted ∨ q.needQuote)) (p : List Char) :
    quotedChars q quoted (c :: p) = '\\' :: c :: quotedChars q quoted p := by
  rw [quotedChars.eq_def]
  exact if_pos hc

theorem quotedChars_cons (hc : ¬ (c = '"' ∧ (quoted ∨ q.needQuote))) (d : Char) (p : List Char) :
    quotedChars q quoted (c :: d :: p) =
      if c = '\\' ∧ d = '\'' ∧ q.unescapeQuote then d :: quotedChars q quoted p
      else c :: quotedChars q quoted (d :: p) := by
  rw [quotedChars.eq_def]
  exact if_neg hc

theorem quotedChars_last (hc : ¬ (c = '"' ∧ (quoted ∨ q.needQuote))) :
    quotedChars q quoted [c] = [c] := by
  rw [quotedChars.eq_def]
  exact if_neg hc

theorem ArgsArray.Holds.put_checked (h : b₀.Holds b s) (c : Char) :
    b₀.Holds (if b.full then b else b.put c) (s ++ [c]) := by
  split_ifs with hfull
  · exact h.extend hfull [c]
  · exact h.put hfull c

theorem directChars_spec (q : Quoting) (quoted : Bool) (b₀ b : ArgsArray) (p : List Char) :
    ∀ s, b₀.Holds b s → b₀.Holds (directChars q quoted b p) (s ++ quotedChars q quoted p) := by
  fun_induction directChars q quoted b p with
  | case1 b =>
      intro s h
      exact (List.append_nil s).symm ▸ h
  | case2 b c p hfull =>
      intro s h
      exact h.extend hfull _
  | case3 b c p hfull hc b₁ hfull₁ =>
      intro s h
      rw [quotedChars_quote hc, List.append_cons]
      exact (h.put hfull '\\').extend hfull₁ _
  | case4 b c p hfull hc b₁ hfull₁ ih =>
      intro s h
      rw [quotedChars_quote hc, List.append_cons, List.append_cons]
      exact ih _ ((h.put hfull '\\').put hfull₁ c)
  | case5 b c hfull hc d p hquote ih =>
      intro s h
      rw [quotedChars_cons hc, if_pos hquote, List.append_cons]
      exact ih _ (h.put hfull d)
  | case6 b c hfull hc d p hquote ih =>
      intro s h
      rw [quotedChars_cons hc, if_neg hquote, List.append_cons]
      exact ih _ (h.put hfull c)
  | case7 b c hfull hc =>
      intro s h
      rw [quotedChars_last hc]
      exact h.put hfull c

theorem quotedTail_cons (p : List Char) (args : List (List Char)) :
    quotedTail q (p :: args) = ' ' :: quotedArg q p ++ quotedTail q args := rfl

theorem directArgs_spec (q : Quoting) (b₀ b : ArgsArray) (args : List (List Char)) :
    ∀ s, b₀.Holds b s → b₀.Holds (directArgs q b args) (s ++ quotedTail q args) := by
  fun_induction directArgs q b args with
  | case1 b =>
      intro s h
      exact (List.append_nil s).symm ▸ h
  | case2 b p args hfull =>
      intro s h
      exact h.extend hfull _
  | case3 b p args hfull b₁ hquote hfull₁ =>
      intro s h
      rw [quotedTail_cons, List.cons_append, List.append_cons]
      exact (h.put hfull ' ').extend hfull₁ _
  | case4 b p args hfull b₁ hquote hfull₁ b₂ ih =>
      intro s h
      have hchars := directChars_spec q true b₀ _ p _ ((h.put hfull ' ').put hfull₁ '"')
      have harg : s ++ quotedTail q (p :: args) =
          s ++ [' '] ++ ['"'] ++ quotedChars q true p ++ ['"'] ++ quotedTail q args := by
        rw [quotedTail_cons, quotedArg, if_pos hquote]
        simp
      rw [harg]
      exact ih _ (hchars.put_checked '"')
  | case5 b p args hfull b₁ hquote ih =>
      intro s h
      have hchars := directChars_spec q false b₀ _ p _ (h.put hfull ' ')
      have harg : s ++ quotedTail q (p :: args) =
          s ++ [' '] ++ quotedChars q false p ++ quotedTail q args := by
        rw [quotedTail_cons, quotedArg, if_neg hquote]
        simp
      rw [harg]
      exact ih _ hchars

/-- The call is passed on to `direct_pe_exec`. -/
def goesToPe (v : DosVersion) (program : List Char) : Bool :=
  (listMember program shellBrokets || listMember program unixShells) &&
    shellCmdlineLimit v program > cmdlenLimit

def directQuoting (inSystem : Bool) (program : List Char) (args : List (List Char)) : Quoting :=
  quoting inSystem (listMember program shellBrokets) (listMember program unixShells) args

/-- The stores are inside the array, and arguments that fit are all there. -/
def DirectTail.Sound (t : DirectTail) (tail : List Char) : Prop :=
  t.mem.Inside 0 (cmdlenLimit + 1) ∧
    (tail.length ≤ cmdlenLimit → t.mem.Reads 0 (tail ++ ['\x00']))

/-- The NUL behind a text that was cut off is outside the array. -/
theorem ArgsArray.Holds.sound_iff {junk : ℤ → Char} (h : (ArgsArray.mk ⟨junk, []⟩ 0).Holds b s)
    (e2big : Bool) :
    (DirectTail.mk (b.mem.poke b.argp '\x00') e2big).Sound s ↔ s.length ≤ cmdlenLimit := by
  have hfills : Fills ⟨junk, []⟩ (b.mem.poke b.argp '\x00') 0
      (s.take (cmdlenLimit + 1) ++ ['\x00']) := by
    refine h.fills.append ?_
    rw [Int.zero_add, ← h.argp]
    exact fills_poke _ _ _
  have hinside := hfills.inside_iff (inside_nil junk 0 (cmdlenLimit + 1)) (by simp)
  rw [List.length_append, List.length_take, List.length_singleton] at hinside
  constructor
  · intro hs
    have := hinside.mp hs.1
    omega
  · intro hlen
    refine ⟨hinside.mpr ⟨le_refl 0, by omega⟩, fun _ => ?_⟩
    have hreads := hfills.reads
    rw [List.take_of_length_le (by omega)] at hreads
    exact hreads

theorem holds_directArgs (q : Quoting) (junk : ℤ → Char) (args : List (List Char)) :
    (ArgsArray.mk ⟨junk, []⟩ 0).Holds (directArgs q ⟨⟨junk, []⟩, 0⟩ args) (quotedTail q args) :=
  directArgs_spec q _ _ args [] ⟨.nil _ _, rfl⟩

theorem directExec_of_pe {v : DosVersion} {program : List Char} (h : goesToPe v program = true)
    (inSystem : Bool) (args : List (List Char)) (junk : ℤ → Char) :
    directExec v inSystem program args junk = none := if_pos h

theorem directExec_of_not_pe {v : DosVersion} {program : List Char}
    (h : ¬ goesToPe v program = true)
    (inSystem : Bool) (args : List (List Char)) (junk : ℤ → Char) :
    ∃ b e2big, directExec v inSystem program args junk = some ⟨b.mem.poke b.argp '\x00', e2big⟩ ∧
      (ArgsArray.mk ⟨junk, []⟩ 0).Holds b (quotedTail (directQuoting inSystem program args) args) :=
  ⟨_, _, if_neg h, holds_directArgs _ junk args⟩

/-- `direct_exec` keeps to its array, and gives on all that fits, exactly if the
quoted arguments have at most `CMDLEN_LIMIT` characters. -/
theorem directExec_sound_iff (v : DosVersion) (inSystem : Bool) (program : List Char)
    (args : List (List Char)) (junk : ℤ → Char) :
    (∀ t ∈ directExec v inSystem program args junk,
        t.Sound (quotedTail (directQuoting inSystem program args) args)) ↔
      goesToPe v program = true ∨
        (quotedTail (directQuoting inSystem program args) args).length ≤ cmdlenLimit := by
  by_cases hpe : goesToPe v program = true
  · rw [directExec_of_pe hpe]
    exact iff_of_true (fun t ht => nomatch ht) (.inl hpe)
  · obtain ⟨b, e2big, heq, hholds⟩ := directExec_of_not_pe hpe inSystem args junk
    rw [heq, or_iff_right hpe, ← hholds.sound_iff e2big]
    constructor
    · intro h
      exact h _ rfl
    · rintro h t ⟨⟩
      exact h

/-- An argument of 126 characters; with the blank in front of it, the tail has 127. -/
def fullArg : List Char := List.replicate 126 'x'

theorem directExec_not_sound :
    ¬ ∀ t ∈ directExec ⟨7, true⟩ false ['p'] [fullArg] (fun _ => 'z'),
      t.Sound (quotedTail (directQuoting false ['p'] [fullArg]) [fullArg]) := by
  intro h
  have hpe : ¬ goesToPe ⟨7, true⟩ ['p'] = true := by decide +kernel
  obtain ⟨b, e2big, heq, hholds⟩ := directExec_of_not_pe hpe false [fullArg] (fun _ => 'z')
  have hfits := (hholds.sound_iff e2big).mp (h _ heq)
  exact absurd hfits (by decide +kernel)

end DjgppLibc.DosExec
