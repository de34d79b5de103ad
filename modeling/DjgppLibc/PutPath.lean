import Mathlib.Data.List.Induction
import DjgppLibc.Fixpath
import DjgppLibc.TextBuffers

/-!
# Paths in the transfer buffer (`dos/io/putpath.c`)

`_put_path2` puts a path into the transfer buffer and replaces what stands behind
`/dev/` in it: a device, a drive, or the value of a variable with whatever that
stands for. The space that is left is tested behind each store of the last loop,
and not at all by the stores before it. A call stores outside of the buffer exactly
if one of the paths that it expands is not `Reading.Roomy`: `putPath2_inside_iff`.

Addresses are relative to the start of the buffer. What the environment holds, what
DOS answers and how much stack a call takes are parameters.
-/
namespace DjgppLibc.PutPath

open LoggedMemory
open Fixpath (nul isSlash isDevPath skipDrive collapse trimSlash)

structure System where
  getenv : List Char → Option (List Char)
  /-- Function 4300h with the name at the start of the buffer: it is there, and is a directory. -/
  isDirectory : (ℤ → Char) → Bool
  /-- The stack that a call takes without the name of the variable. -/
  frame : ℕ
  /-- What stands behind the NUL of a string. -/
  junk : Char

/-- The buffer, the offset that is returned, and whether `errno` is set to `ENOMEM`. -/
structure Put where
  mem : LoggedMemory Char
  offset : ℤ
  enomem : Bool

def isLetter (c : Char) : Bool := ('a' ≤ c && c ≤ 'z') || ('A' ≤ c && c ≤ 'Z')

def startsSlash (path : List Char) : Bool := path.head?.any isSlash

def isDrive : List Char → Bool
  | c :: rest => isLetter c && (rest.isEmpty || startsSlash rest)
  | [] => false

/-- `env/` with something behind it. -/
def isVariable (item : List Char) : Bool :=
  ['e', 'n', 'v'].isPrefixOf item && startsSlash (item.drop 3) && !(item.drop 4).isEmpty

/-- The name of the variable, where two `~` stand for one, and the path behind it. -/
def varName : List Char → List Char × List Char
  | [] => ([], [])
  | c :: p =>
      if isSlash c then ([], c :: p)
      else if c = '~' then
        match p with
        | [] => ([], [c])
        | d :: p =>
            if d = '~' then
              let (name, rest) := varName p
              (d :: name, rest)
            else ([], c :: d :: p)
      else
        let (name, rest) := varName p
        (c :: name, rest)

/-- The default value, and the path behind its `~`, which may be forgotten. -/
def defaultValue : List Char → List Char × List Char
  | [] => ([], [])
  | c :: p =>
      if c = '~' then
        match p with
        | [] => ([], [])
        | d :: p =>
            if d = '~' then
              let (value, rest) := defaultValue p
              (d :: value, rest)
            else ([], d :: p)
      else
        let (value, rest) := defaultValue p
        (c :: value, rest)

/-- What a reference is replaced by, if by anything, and the path behind it: the value
of the variable unless that is empty, else the default. -/
def reference (getenv : List Char → Option (List Char)) (p : List Char) :
    Option (List Char) × List Char :=
  let (name, p) := varName p
  let value := (getenv name).filter (· ≠ [])
  match p with
  | '~' :: p =>
      let (default, rest) := defaultValue p
      (some (value.getD default), rest)
  | rest => (value, rest)

def copyLoop : ℤ → LoggedMemory Char → ℤ → List Char → LoggedMemory Char × ℤ
  | _, v, o, [] => (v, o)
  | space, v, o, c :: path =>
      if c ≠ '/' ∨ path.head? ≠ some '/' then
        if space - 1 < 2 then (v.poke o c, o + 1)
        else copyLoop (space - 1) (v.poke o c) (o + 1) path
      else copyLoop space v o path

def copyPath (start space : ℤ) (v : LoggedMemory Char) (o : ℤ) (path : List Char) : Put :=
  let (v, o) := copyLoop space v o path
  let o := if start ≤ o - 2 ∧ v.mem (o - 1) = '/' ∧ v.mem (o - 2) ≠ ':' then o - 1 else o
  ⟨v.poke o nul, o, false⟩

/-- The first eight characters of a path with an item that is not recognised. -/
def putEight (w : System) (v : LoggedMemory Char) (o : ℤ) (path : List Char) : LoggedMemory Char :=
  (putText v o ((path ++ nul :: List.replicate 8 w.junk).take 8)).poke
    (if path[4]? = some '/' then o + 4 else o + 6) nul

def unknownRest (isDirectory : Bool) (path : List Char) : List Char :=
  let item := (skipDrive path).drop 5
  if ¬ isDirectory ∧ item ≠ [] then item else path

/-- `_put_path2`, with the stack that is left above the limit. -/
def putPath2 (w : System) (tbSize : ℤ) (stack : ℕ) (v : LoggedMemory Char) (path : List Char)
    (offset : ℤ) : Put :=
  let space := tbSize - offset
  if ¬ isDevPath (skipDrive path) then copyPath offset space v offset path
  else
    let item := (skipDrive path).drop 5
    if item = ['n', 'u', 'l', 'l'] then copyPath offset space v offset ['n', 'u', 'l']
    else if item = ['t', 't', 'y'] then copyPath offset space v offset ['c', 'o', 'n']
    else if item = ['e', 'n', 'v'] then copyPath offset space v offset path
    else if isDrive item then
      copyPath offset (space - 2) ((v.poke offset (item.head?.getD nul)).poke (offset + 1) ':')
        (offset + 2) item.tail
    else if isVariable item then
      -- the name is put on the stack
      let left := stack - ((item.drop 4).length + 1)
      match reference w.getenv (item.drop 4) with
      | (none, rest) => copyPath offset space v offset rest
      | (some value, rest) =>
          if _h : 4096 < left then
            let r := putPath2 w tbSize (left - w.frame) v value offset
            let o := if startsSlash rest ∧ offset ≤ r.offset - 1 ∧
              isSlash (r.mem.mem (r.offset - 1))
              then r.offset - 1 else r.offset
            { copyPath offset (space - (r.offset - offset)) r.mem o rest with enomem := r.enomem }
          else ⟨v, offset, true⟩
    else
      let v := putEight w v offset path
      copyPath offset space v offset (unknownRest (w.isDirectory v.mem) path)
termination_by stack
decreasing_by omega

inductive Reading
  | text (path : List Char)
  | drive (letter : Char) (rest : List Char)
  | reference (value : Reading) (rest : List Char)
  | unknown (path : List Char)
  /-- There is not enough stack. -/
  | refused

def reading (w : System) (stack : ℕ) (path : List Char) : Reading :=
  if ¬ isDevPath (skipDrive path) then .text path
  else
    let item := (skipDrive path).drop 5
    if item = ['n', 'u', 'l', 'l'] then .text ['n', 'u', 'l']
    else if item = ['t', 't', 'y'] then .text ['c', 'o', 'n']
    else if item = ['e', 'n', 'v'] then .text path
    else if isDrive item then .drive (item.head?.getD nul) item.tail
    else if isVariable item then
      let left := stack - ((item.drop 4).length + 1)
      match reference w.getenv (item.drop 4) with
      | (none, rest) => .text rest
      | (some value, rest) =>
          if _h : 4096 < left then .reference (reading w (left - w.frame) value) rest else .refused
    else .unknown path
termination_by stack
decreasing_by omega

/-- Of two slashes where a value meets the rest of the path, the first is removed. -/
def meet (t rest : List Char) : List Char :=
  if startsSlash rest ∧ t.getLast?.any isSlash then t.dropLast else t

/-- The text in `room` bytes, if DOS says which names are directories. -/
def Reading.expand (dir : List Char → Bool) (room : ℕ) : Reading → List Char
  | .text path => trimSlash (collapse room path)
  | .drive letter rest => trimSlash (letter :: ':' :: collapse (room - 2) rest)
  | .reference value rest =>
      let t := value.expand dir room
      trimSlash (meet t rest ++ collapse (room - t.length) rest)
  | .unknown path => trimSlash (collapse room (unknownRest (dir path) path))
  | .refused => []

/-- What follows a value does not begin at the last byte, unless the slash there goes away. -/
def Follows (room : ℕ) (t rest : List Char) : Prop :=
  rest = [] ∨ t.length + 1 < room ∨
    startsSlash rest ∧ (t.getLast?.any isSlash ∨ rest.head? = some '/' ∧ t.getLast? ≠ some ':')

instance (room : ℕ) (t rest : List Char) : Decidable (Follows room t rest) := by
  unfold Follows
  infer_instance

/-- There is room for what is put for the path, and for each path that it is expanded to. -/
def Reading.Roomy (dir : List Char → Bool) (room : ℕ) : Reading → Prop
  | .text _ => True
  | .drive _ rest => 3 ≤ room ∧ (rest = [] ∨ 4 ≤ room)
  | .reference value rest => value.Roomy dir room ∧ Follows room (value.expand dir room) rest
  | .unknown _ => 8 ≤ room
  | .refused => True

/-- The directories as DOS reports them with the first eight characters in the buffer. -/
def isDirectory (w : System) (v : LoggedMemory Char) (offset : ℤ) (path : List Char) : Bool :=
  w.isDirectory (putEight w v offset path).mem

/-- A text stands in the buffer, and `n` bytes have been stored to from its start on. -/
structure Puts (v v' : LoggedMemory Char) (a : ℤ) (t : List Char) (n : ℕ) : Prop where
  reads : v'.Reads a t
  length_le : t.length ≤ n
  outside : ∀ x, x < a ∨ a + n ≤ x → v'.mem x = v.mem x
  stores : ∀ x, x ∈ v'.stores ↔ x ∈ v.stores ∨ (a ≤ x ∧ x < a + n)

variable {v v' : LoggedMemory Char} {a size : ℤ} {s t t' path rest : List Char} {n room : ℕ}

theorem Puts.refl (v : LoggedMemory Char) (a : ℤ) : Puts v v a [] 0 where
  reads := trivial
  length_le := Nat.le_refl _
  outside _ _ := rfl
  stores _ := ⟨.inl, fun h => h.resolve_right fun h => by omega⟩

theorem Puts.cut (h : Puts v v' a t n) (ht : t' <+: t) : Puts v v' a t' n where
  reads := by
    obtain ⟨u, rfl⟩ := ht
    exact (reads_append.mp h.reads).1
  length_le := ht.length_le.trans h.length_le
  outside := h.outside
  stores := h.stores

/-- A text is put behind the one that is there. -/
theorem Puts.put (h : Puts v v' a t n) (s : List Char) :
    Puts v (putText v' (a + t.length) s) a (t ++ s) (max n (t.length + s.length)) where
  reads := by
    have hfills := fills_putText v' (a + t.length) s
    exact reads_append.mpr ⟨h.reads.congr fun x _ hx => hfills.outside x (.inl hx), hfills.reads⟩
  length_le := by
    rw [List.length_append]
    omega
  outside x hx := by
    rw [(fills_putText v' (a + t.length) s).outside x (by omega), h.outside x (by omega)]
  stores x := by
    have hle := h.length_le
    rw [(fills_putText v' (a + t.length) s).stores, h.stores, or_assoc]
    refine or_congr_right ?_
    omega

theorem Puts.inside_iff (h : Puts v v' a t n) (hv : v.Inside 0 size) (ha : 0 ≤ a)
    (hroom : a ≤ size) :
    v'.Inside 0 size ↔ a + n ≤ size := by
  constructor
  · intro hin
    by_cases hn : n = 0
    · omega
    · have := hin (a + n - 1) ((h.stores _).mpr (.inr ⟨by omega, by omega⟩))
      omega
  · intro hle x hx
    rcases (h.stores x).mp hx with hx | hx
    · exact hv x hx
    · omega

theorem copyLoop_eq (space : ℤ) (v : LoggedMemory Char) (o : ℤ) (path : List Char) :
    copyLoop space v o path =
      (putText v o (collapse space.toNat path), o + (collapse space.toNat path).length) := by
  induction path generalizing space v o with
  | nil => simp [copyLoop, collapse, putText]
  | cons c path ih =>
      rw [copyLoop, collapse]
      by_cases hc : c ≠ '/' ∨ path.head? ≠ some '/'
      · rw [if_pos hc, if_pos hc]
        by_cases hspace : space - 1 < 2
        · rw [if_pos hspace, if_pos (by omega)]
          rfl
        · rw [if_neg hspace, if_neg (by omega), ih, show (space - 1).toNat =
            space.toNat - 1 by omega,
            putText, List.length_cons, Prod.mk.injEq]
          exact ⟨rfl, by omega⟩
      · rw [if_neg hc, if_neg hc, ih]

theorem length_collapse_lt (hroom : 2 ≤ room) (path : List Char) :
    (collapse room path).length < room := by
  induction path generalizing room with
  | nil => simp only [collapse, List.length_nil]; omega
  | cons c path ih =>
      rw [collapse]
      split_ifs with hc hspace
      · simp only [List.length_singleton]
        omega
      · have : (collapse (room - 1) path).length < room - 1 := ih (by omega)
        rw [List.length_cons]
        omega
      · exact ih hroom

theorem collapse_cons_of_lt (hroom : room < 3) (c : Char) (path : List Char) :
    collapse room (c :: path) = [c] := by
  induction path generalizing c with
  | nil => simp [collapse]
  | cons d path ih =>
      rw [collapse]
      split_ifs with hc hspace
      · rfl
      · omega
      · rw [not_or, not_not, not_not, List.head?_cons, Option.some.injEq] at hc
        rw [ih, hc.1, hc.2]

theorem trimSlash_isPrefix (path : List Char) : trimSlash path <+: path := by
  unfold trimSlash
  split_ifs
  · exact List.dropLast_prefix path
  · exact List.prefix_refl path

theorem length_le_trimSlash (path : List Char) : path.length ≤ (trimSlash path).length + 1 := by
  unfold trimSlash
  split_ifs
  · rw [List.length_dropLast]
    omega
  · exact Nat.le_succ _

theorem trimSlash_concat (ht : t ≠ []) (c : Char) :
    trimSlash (t ++ [c]) = if c = '/' ∧ t.getLast? ≠ some ':' then t else t ++ [c] := by
  have hpos := List.length_pos_iff.mpr ht
  have hlen : (t ++ [c]).length = t.length + 1 := by simp
  rw [trimSlash, List.dropLast_concat, hlen, Nat.add_sub_cancel, List.getElem?_concat_length,
    show t.length + 1 - 2 = t.length - 1 by omega, List.getElem?_append_left (by omega),
    ← List.getLast?_eq_getElem?]
  refine if_congr ((and_iff_right (by omega)).trans (and_congr_left fun _ => ?_)) rfl rfl
  rw [Option.some.injEq]

theorem trailing_iff (h : v.Reads a t) :
    (a ≤ a + t.length - 2 ∧ v.mem (a + t.length - 1) = '/' ∧ v.mem (a + t.length - 2) ≠ ':') ↔
      (2 ≤ t.length ∧ t[t.length - 1]? = some '/' ∧ t[t.length - 2]? ≠ some ':') := by
  by_cases hlen : 2 ≤ t.length
  · rw [h.getElem? (show t.length - 1 < t.length by omega),
      h.getElem? (show t.length - 2 <
        t.length by omega), Option.some.injEq, Ne, Ne, Option.some.injEq,
      show a + ((t.length - 1 : ℕ) : ℤ) = a + t.length - 1 by omega,
      show a + ((t.length - 2 : ℕ) : ℤ) = a + t.length - 2 by omega]
    exact and_congr_left fun _ => by omega
  · exact iff_of_false (fun h => by omega) (fun h => hlen h.1)

theorem copyPath_spec (h : Puts v v' a t n) (space : ℤ) (path : List Char) :
    let c := t ++ collapse space.toNat path
    let r := copyPath a space v' (a + t.length) path
    Puts v r.mem a (trimSlash c) (max (max n c.length) ((trimSlash c).length + 1)) ∧
      r.offset = a + (trimSlash c).length := by
  dsimp only
  have hput := h.put (collapse space.toNat path)
  rw [← List.length_append] at hput
  have hend : a + (t.length : ℤ) + (collapse space.toNat path).length =
      a + (t ++ collapse space.toNat path).length := by
    rw [List.length_append]
    omega
  simp only [copyPath, copyLoop_eq, hend, trailing_iff hput.reads]
  generalize t ++ collapse space.toNat path = text at hput ⊢
  have hcut := (hput.cut (trimSlash_isPrefix text)).put [nul]
  have ho : (if 2 ≤ text.length ∧ text[text.length - 1]? = some '/' ∧
    text[text.length - 2]? ≠ some ':'
      then a + (text.length : ℤ) - 1 else a + text.length) = a + (trimSlash text).length := by
    unfold trimSlash
    split_ifs with htrim
    · rw [List.length_dropLast]
      omega
    · rfl
  rw [ho]
  exact ⟨hcut.cut (List.prefix_append _ _), rfl⟩

theorem stored_le_iff (c : List Char) :
    max (max n c.length) ((trimSlash c).length + 1) ≤ room ↔
      n ≤ room ∧ (trimSlash c).length < room := by
  have := length_le_trimSlash c
  omega

theorem drive_fits_iff (letter : Char) (rest : List Char) :
    (trimSlash (letter :: ':' :: collapse (room - 2) rest)).length < room ↔
      3 ≤ room ∧ (rest = [] ∨ 4 ≤ room) := by
  cases rest with
  | nil =>
      have htrim : trimSlash [letter, ':'] = [letter, ':'] := if_neg (by simp)
      rw [collapse, htrim]
      simp only [List.length_cons, List.length_nil, true_or, and_true]
      omega
  | cons c rest =>
      by_cases hroom : 4 ≤ room
      · have hlt := length_collapse_lt (show 2 ≤ room - 2 by omega) (c :: rest)
        have hle := (trimSlash_isPrefix (letter :: ':' :: collapse (room - 2)
          (c :: rest))).length_le
        rw [List.length_cons, List.length_cons] at hle
        exact iff_of_true (by omega) ⟨by omega, .inr hroom⟩
      · have htrim : trimSlash [letter, ':', c] = [letter, ':', c] := if_neg (by simp)
        rw [collapse_cons_of_lt (by omega), htrim]
        simp only [List.length_cons, List.length_nil, reduceCtorEq, false_or]
        omega

theorem follows_iff (ht : t.length < room) (hroom : 2 ≤ room) (rest : List Char) :
    (trimSlash (meet t rest ++ collapse (room - t.length) rest)).length < room ↔
      Follows room t rest := by
  have hle := (trimSlash_isPrefix (meet t rest ++ collapse (room - t.length) rest)).length_le
  have hmeet : (meet t rest).length ≤ t.length := by
    unfold meet
    split_ifs
    · exact (List.dropLast_prefix t).length_le
    · exact Nat.le_refl _
  rw [List.length_append] at hle
  cases rest with
  | nil =>
      rw [collapse, List.length_nil] at hle
      rw [collapse]
      exact iff_of_true (by omega) (.inl rfl)
  | cons c rest =>
      by_cases hlt : t.length + 1 < room
      · have := length_collapse_lt (show 2 ≤ room - t.length by omega) (c :: rest)
        exact iff_of_true (by omega) (.inr (.inl hlt))
      rw [collapse_cons_of_lt (by omega)] at hle ⊢
      have hne : t ≠ [] := by
        rintro rfl
        simp only [List.length_nil] at hlt
        omega
      by_cases hdrop : startsSlash (c :: rest) ∧ t.getLast?.any isSlash
      · have : (meet t (c :: rest)).length = t.length - 1 := by
          rw [meet, if_pos hdrop, List.length_dropLast]
        rw [List.length_singleton] at hle
        exact iff_of_true (by omega) (.inr (.inr ⟨hdrop.1, .inl hdrop.2⟩))
      · rw [meet, if_neg hdrop, trimSlash_concat hne, Follows, List.head?_cons, Option.some.injEq]
        have hslash : c = '/' → startsSlash (c :: rest) = true := by
          rintro rfl
          rfl
        by_cases htrim : c = '/' ∧ t.getLast? ≠ some ':'
        · rw [if_pos htrim]
          exact iff_of_true ht (.inr (.inr ⟨hslash htrim.1, .inr htrim⟩))
        · rw [if_neg htrim, List.length_append, List.length_singleton]
          refine iff_of_false hlt ?_
          rintro (h | h | ⟨h, hl | hc⟩)
          · cases h
          · exact hlt h
          · exact hdrop ⟨h, hl⟩
          · exact htrim hc

theorem puts_putEight (w : System) (v : LoggedMemory Char) (a : ℤ) (path : List Char) :
    Puts v (putEight w v a path) a [] 8 := by
  obtain ⟨eight, height⟩ : ∃ eight, eight = (path ++ nul :: List.replicate 8 w.junk).take 8 :=
    ⟨_, rfl⟩
  have hlen : eight.length = 8 := by
    rw [height, List.length_take, List.length_append, List.length_cons, List.length_replicate]
    omega
  have hput : Puts v (putText v a eight) a eight 8 := by
    have h := (Puts.refl v a).put eight
    simpa [hlen] using h
  have hpoke : ∀ i < 8, Puts v ((putText v a eight).poke (a + (i : ℕ)) nul) a [] 8 := by
    intro i hi
    have h := (hput.cut (List.take_prefix i eight)).put [nul]
    rw [List.length_take, hlen, List.length_singleton, show min i 8 = i by omega,
      show max 8 (i + 1) = 8 by omega] at h
    exact h.cut (List.nil_prefix)
  unfold putEight
  rw [← height]
  split_ifs
  · exact hpoke 4 (by decide)
  · exact hpoke 6 (by decide)

theorem meet_offset (h : v.Reads a t) (rest : List Char) :
    (if startsSlash rest ∧ a ≤ a + t.length - 1 ∧ isSlash (v.mem (a + t.length - 1))
      then a + (t.length : ℤ) - 1 else a + t.length) = a + (meet t rest).length := by
  have hiff : (a ≤ a + t.length - 1 ∧ isSlash (v.mem (a + t.length - 1)) = true) ↔
      t.getLast?.any isSlash = true := by
    cases t using List.reverseRecOn with
    | nil =>
        exact iff_of_false (fun h => by simp only [List.length_nil] at h; omega) (fun h =>
          by cases h)
    | append_singleton t c =>
        rw [List.getLast?_concat, Option.any_some, (reads_append.mp h).2.1.symm,
          List.length_append, List.length_singleton,
          show a + ((t.length + 1 : ℕ) : ℤ) - 1 = a + t.length by omega]
        exact and_iff_right (by omega)
  rw [meet, if_congr (and_congr_right fun _ => hiff) rfl rfl]
  split_ifs with hdrop
  · have hpos : 0 < t.length := by
      rcases t with - | ⟨c, t⟩
      · cases hdrop.2
      · exact Nat.succ_pos _
    rw [List.length_dropLast]
    omega
  · rfl

/-- What the function puts, and what it stores to. -/
structure Meets (v : LoggedMemory Char) (a : ℤ) (room : ℕ) (t : List Char) (roomy : Prop)
    (r : Put) :
    Prop where
  offset : r.offset = a + t.length
  puts : ∃ n, Puts v r.mem a t n ∧ (t = [] ∨ t.length < n) ∧ (n ≤ room ↔ roomy)

theorem meets_copyPath (room : ℕ) (h : Puts v v' a t n) (space : ℤ) (path : List Char) :
    let c := trimSlash (t ++ collapse space.toNat path)
    Meets v a room c (n ≤ room ∧ c.length < room) (copyPath a space v' (a + t.length) path) := by
  obtain ⟨hputs, hoff⟩ := copyPath_spec h space path
  exact ⟨hoff, _, hputs, .inr (by omega), stored_le_iff _⟩

theorem Meets.congr {r : Put} {p q : Prop} (h : Meets v a room t p r) (hpq : p ↔ q) :
    Meets v a room t q r :=
  ⟨h.offset, h.puts.imp fun _ hn => ⟨hn.1, hn.2.1, hn.2.2.trans hpq⟩⟩

/-- A path that is copied from the start on has room. -/
theorem meets_text (hroom : 2 ≤ room) (hsize : (size - a).toNat = room) (path : List Char) :
    Meets v a room (trimSlash (collapse room path)) True (copyPath a (size - a) v a path) := by
  have h := meets_copyPath room (Puts.refl v a) (size - a) path
  simp only [List.nil_append, List.length_nil, Int.natCast_zero, Int.add_zero, hsize] at h
  refine h.congr (iff_of_true ⟨Nat.zero_le _, ?_⟩ trivial)
  exact (trimSlash_isPrefix _).length_le.trans_lt (length_collapse_lt hroom path)

theorem meets_drive (hsize : (size - a).toNat = room) (letter : Char) (rest : List Char) :
    Meets v a room (trimSlash (letter :: ':' :: collapse (room - 2) rest))
      (3 ≤ room ∧ (rest = [] ∨ 4 ≤ room))
      (copyPath a (size - a - 2) ((v.poke a letter).poke (a + 1) ':') (a + 2) rest) := by
  have hput : Puts v ((v.poke a letter).poke (a + 1) ':') a [letter, ':'] 2 := by
    have h := (Puts.refl v a).put [letter, ':']
    simp only [List.nil_append, List.length_nil, Int.natCast_zero, Int.add_zero] at h
    exact h
  have h := meets_copyPath room hput (size - a - 2) rest
  rw [show (size - a - 2).toNat = room - 2 by omega] at h
  refine h.congr (Iff.trans ?_ (drive_fits_iff letter rest))
  exact and_iff_right_of_imp fun hlt => by
    have := length_le_trimSlash ([letter, ':'] ++ collapse (room - 2) rest)
    rw [List.length_append] at this
    simp only [List.length_cons, List.length_nil] at this
    omega

theorem meets_unknown (w : System) (hroom : 2 ≤ room) (hsize : (size - a).toNat = room)
    (path : List Char) :
    Meets v a room (trimSlash (collapse room (unknownRest (isDirectory w v a path) path)))
    (8 ≤ room)
      (copyPath a (size - a) (putEight w v a path) a
        (unknownRest (w.isDirectory (putEight w v a path).mem) path)) := by
  have h := meets_copyPath room (puts_putEight w v a path) (size - a)
    (unknownRest (isDirectory w v a path) path)
  simp only [List.nil_append, List.length_nil, Int.natCast_zero, Int.add_zero, hsize] at h
  refine h.congr (and_iff_left ?_)
  exact (trimSlash_isPrefix _).length_le.trans_lt (length_collapse_lt hroom _)

theorem meets_reference {r : Put} {roomy : Prop} (h : Meets v a room t roomy r) (hroom : 2 ≤ room)
    (hsize : (size - a).toNat = room) (rest : List Char) :
    Meets v a room (trimSlash (meet t rest ++ collapse (room - t.length) rest))
      (roomy ∧ Follows room t rest)
      { copyPath a (size - a - (r.offset - a)) r.mem
          (if startsSlash rest ∧ a ≤ r.offset - 1 ∧ isSlash (r.mem.mem (r.offset - 1))
            then r.offset - 1 else r.offset) rest with enomem := r.enomem } := by
  obtain ⟨hoff, n, hputs, hlong, hiff⟩ := h
  rw [hoff, meet_offset hputs.reads]
  have hmeet : meet t rest <+: t := by
    unfold meet
    split_ifs
    · exact List.dropLast_prefix t
    · exact List.prefix_refl t
  have h := meets_copyPath room (hputs.cut hmeet) (size - a - (a + t.length - a)) rest
  rw [show (size - a - (a + (t.length : ℤ) - a)).toNat = room - t.length by omega] at h
  obtain ⟨hoff', m, hm, hlong', hiff'⟩ := h
  refine ⟨hoff', m, ⟨hm.reads, hm.length_le, hm.outside, hm.stores⟩, hlong', hiff'.trans ?_⟩
  rw [hiff]
  refine and_congr_right fun hroomy => follows_iff ?_ hroom rest
  have hn := hiff.mpr hroomy
  rcases hlong with rfl | hlt
  · exact Nat.lt_of_lt_of_le Nat.zero_lt_two hroom
  · exact hlt.trans_le hn

/-- A path without an item behind `/dev/` is copied. -/
theorem putPath2_of_not_dev (w : System) (stack : ℕ) (v : LoggedMemory Char) (a : ℤ)
    (hdev : isDevPath (skipDrive path) = false) :
    putPath2 w size stack v path a = copyPath a (size - a) v a path := by
  rw [putPath2, if_pos (by simp [hdev])]

theorem copyPath_nul (start space : ℤ) (v : LoggedMemory Char) (o : ℤ) (path : List Char) :
    (copyPath start space v o path).mem.mem (copyPath start space v o path).offset = nul :=
  if_pos rfl

theorem trimSlash_collapse (hslash : ¬ ['/', '/'] <:+: path) (hlast : path.getLast? ≠ some '/')
    (hlen : path.length < room) : trimSlash (collapse room path) = path := by
  have hcollapse : collapse room path = path := by
    clear hlast
    induction path generalizing room with
    | nil => rfl
    | cons c path ih =>
        rw [List.length_cons] at hlen
        have hc : c ≠ '/' ∨ path.head? ≠ some '/' := by
          by_contra hboth
          rw [not_or, not_not, not_not] at hboth
          obtain ⟨rest, hrest⟩ := List.head?_eq_some_iff.mp hboth.2
          exact hslash ⟨[], rest, by rw [hboth.1, hrest]; rfl⟩
        rw [collapse, if_pos hc]
        split_ifs with hspace
        · have : path = [] := List.length_eq_zero_iff.mp (by omega)
          rw [this]
        · rw [ih (fun h => hslash (h.trans (List.suffix_cons c path).isInfix)) (by omega)]
  rw [hcollapse, trimSlash, if_neg]
  rintro ⟨-, h, -⟩
  exact hlast (by rwa [List.getLast?_eq_getElem?])

theorem putPath2_spec (w : System) (stack : ℕ) (v : LoggedMemory Char) (path : List Char)
    (hroom : 2 ≤ room) (hsize : (size - a).toNat = room) :
    Meets v a room ((reading w stack path).expand (isDirectory w v a) room)
      ((reading w stack path).Roomy (isDirectory w v a) room) (putPath2 w size stack v path a) := by
  induction stack using Nat.strong_induction_on generalizing path with
  | _ stack ih =>
      rw [putPath2, reading]
      dsimp only
      by_cases hdev : ¬ isDevPath (skipDrive path)
      · rw [if_pos hdev, if_pos hdev]
        exact meets_text hroom hsize path
      rw [if_neg hdev, if_neg hdev]
      generalize (skipDrive path).drop 5 = item
      by_cases hnul : item = ['n', 'u', 'l', 'l']
      · rw [if_pos hnul, if_pos hnul]
        exact meets_text hroom hsize _
      rw [if_neg hnul, if_neg hnul]
      by_cases htty : item = ['t', 't', 'y']
      · rw [if_pos htty, if_pos htty]
        exact meets_text hroom hsize _
      rw [if_neg htty, if_neg htty]
      by_cases henv : item = ['e', 'n', 'v']
      · rw [if_pos henv, if_pos henv]
        exact meets_text hroom hsize path
      rw [if_neg henv, if_neg henv]
      by_cases hdrive : isDrive item
      · rw [if_pos hdrive, if_pos hdrive]
        exact meets_drive hsize _ _
      rw [if_neg hdrive, if_neg hdrive]
      by_cases hvar : isVariable item
      · rw [if_pos hvar, if_pos hvar]
        rcases reference w.getenv (item.drop 4) with ⟨value | value, rest⟩
        · exact meets_text hroom hsize rest
        dsimp only
        by_cases hstack : 4096 < stack - ((item.drop 4).length + 1)
        · rw [dif_pos hstack, dif_pos hstack]
          exact meets_reference (ih _ (by omega) value) hroom hsize rest
        · rw [dif_neg hstack, dif_neg hstack]
          exact ⟨by simp [Reading.expand], 0, .refl v a, .inl rfl, iff_of_true (Nat.zero_le room) trivial⟩
      · rw [if_neg hvar, if_neg hvar]
        exact meets_unknown w hroom hsize path

/-- All stores of a call are inside the buffer exactly if each path that is expanded on the way
has room: eight bytes for an item that is not recognised, four for a drive with a path, and
a byte between a value and what follows it unless a slash goes away there. -/
theorem putPath2_inside_iff (w : System) (size : ℤ) (stack : ℕ) (v : LoggedMemory Char)
    (path : List Char) (offset : ℤ) (hv : v.Inside 0 size) (hoffset : 0 ≤ offset)
    (hroom : offset + 2 ≤ size) :
    (putPath2 w size stack v path offset).mem.Inside 0 size ↔
      (reading w stack path).Roomy (isDirectory w v offset) (size - offset).toNat := by
  obtain ⟨-, n, hputs, -, hiff⟩ := putPath2_spec w stack v path (a := offset)
    (show 2 ≤ (size - offset).toNat by omega) rfl
  rw [← hiff, hputs.inside_iff hv hoffset (by omega)]
  omega

/-- A system with one variable. -/
def sampleSystem : System :=
  { getenv := fun name => if name = ['D'] then some ['/', 'd', 'e', 'v', '/', 'c', '/', 'x'] else none,
    isDirectory := fun _ => false, frame := 64, junk := nul }

theorem reading_sample :
    reading sampleSystem 8192 ['/', 'd', 'e', 'v', '/', 'e', 'n', 'v', '/', 'D', '/', 'y'] =
      .reference (.drive 'c' ['/', 'x']) ['/', 'y'] := by
  have hvalue : reading sampleSystem 8124 ['/', 'd', 'e', 'v', '/', 'c', '/', 'x'] =
      .drive 'c' ['/', 'x'] := by
    rw [reading]
    rfl
  rw [← hvalue, reading]
  rfl

theorem putPath2_inside_sample :
    (putPath2 sampleSystem 8 8192 ⟨fun _ => nul, []⟩
      ['/', 'd', 'e', 'v', '/', 'e', 'n', 'v', '/', 'D', '/', 'y'] 0).mem.Inside 0 8 := by
  refine (putPath2_inside_iff sampleSystem 8 8192 ⟨fun _ => nul, []⟩ _ 0 (by decide) (by decide)
    (by decide)).mpr ?_
  rw [reading_sample]
  exact ⟨⟨by decide, .inr (by decide)⟩, .inr (.inl (by decide))⟩

/-- With two bytes left the NUL behind `c:` is stored outside. -/
theorem putPath2_outside :
    ¬ ∀ (w : System) (size : ℤ) (stack : ℕ) (v : LoggedMemory Char) (path : List Char) (offset : ℤ),
      v.Inside 0 size → 0 ≤ offset → offset + 2 ≤ size →
        (putPath2 w size stack v path offset).mem.Inside 0 size := by
  intro h
  have h := h sampleSystem 16384 8192 ⟨fun _ => nul, []⟩ ['/', 'd', 'e', 'v', '/', 'c'] 16382
    (by decide) (by decide) (by decide)
  rw [putPath2] at h
  exact absurd h (by decide)

end DjgppLibc.PutPath
