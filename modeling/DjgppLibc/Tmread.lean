import DjgppLibc.RingBuffer
import DjgppLibc.Tmwrite

/-!
# Reading lines from the keyboard

The edit line and the queue behind `__libc_termios_read` for a terminal in `ICANON` mode
without `ISIG`. The keys are those that are pressed from now on, in their order; a call that
waits for a key that never comes does not return.
-/
namespace DjgppLibc.Termios

/-- `_TTY_QUEUE_SIZE` -/
def queueSize : ℕ := 2048

/-- `_TTY_EDITLINE_SIZE` -/
def editlineSize : ℕ := queueSize / 2

/-- `MB_CUR_MAX` -/
def mbCurMax : ℕ := 1

/-- The fields of `struct termios` that are read here. -/
structure Config where
  veof : Byte
  veol : Byte
  verase : Byte
  vkill : Byte
  vstart : Byte
  vstop : Byte
  ixoff : Bool
  igncr : Bool
  icrnl : Bool
  inlcr : Bool
  istrip : Bool
  echoke : Bool

structure Key where
  al : Byte
  ctrl : Bool

/-- `SENSE_REG_KEY` -/
def Key.Regular (k : Key) : Prop := k.al ≠ 0 ∧ k.al ≠ 0xe0

/-- `struct tty_editline` -/
structure Editline where
  col : ℕ
  flag : Vector ℤ editlineSize
  buf : Vector Byte editlineSize

structure Tty where
  line : Editline
  queue : Ring Byte queueSize
  /-- `_TS_LNCH` -/
  lnch : Bool

/-- `mblen` of a string, within `n` bytes -/
def mblen (s : List Byte) (n : ℕ) : ℕ := if n = 0 ∨ s.headD 0 = 0 then 0 else 1

def editlineCtrl : ℤ := 0

def editlineSingle : ℤ := 1

def editlineInvalid : ℤ := -1

def beforeInvalid (flag : Vector ℤ editlineSize) : ℕ → ℕ
  | 0 => 0
  | col + 1 => if flag.toList.getD col 0 < 0 then beforeInvalid flag col else col + 1

/-- `__libc_termios_erase_editline` -/
def eraseEditline (line : Editline) : Editline :=
  match line.col with
  | 0 => line
  | col + 1 =>
      let pf := line.flag.toList.getD col 0
      if pf < 0 then { line with col := beforeInvalid line.flag (col + 1) }
      else if pf = editlineCtrl then { line with col := col }
      else { line with col := col + 1 - pf.toNat }

/-- The loop in `__libc_termios_kill_editline`, with a bound on its turns. -/
def eraseAll : ℕ → Editline → Editline
  | 0, line => line
  | fuel + 1, line => if line.col = 0 then line else eraseAll fuel (eraseEditline line)

/-- `__libc_termios_kill_editline` -/
def killEditline (cfg : Config) (line : Editline) : Editline :=
  if cfg.echoke then eraseAll line.col line else { line with col := 0 }

def firstUnfixed (flag : Vector ℤ editlineSize) : ℕ → ℕ
  | 0 => 0
  | pcol + 1 => if flag.toList.getD pcol 0 = editlineInvalid then firstUnfixed flag pcol else pcol + 1

/-- Columns from `pcol` up to `col`. -/
def setRange {α : Type} {n : ℕ} (v : Vector α n) (pcol col : ℕ) (x : α) : Vector α n :=
  Vector.ofFn fun i => if pcol ≤ i ∧ i < col then x else v[i]

/-- `__libc_termios_insert_editline`: the line, and whether the next character is literal -/
def insertEditline (line : Editline) (ch : Byte) : Editline × Bool :=
  let col := line.col
  if h : col < editlineSize then
    let buf := line.buf.set col ch h
    if col = 0 ∨ line.flag.toList.getD (col - 1) 0 ≠ editlineInvalid then
      if mblen (buf.toList.drop col) 1 = 1 then
        let flag := if ch.toNat < 0x20 ∨ ch = 0x7f then editlineCtrl else editlineSingle
        (⟨col + 1, line.flag.set col flag h, buf⟩, false)
      else (⟨col + 1, line.flag.set col editlineInvalid h, buf⟩, true)
    else
      let pcol := firstUnfixed line.flag col
      let mbsize := mblen (buf.toList.drop pcol) (col - pcol + 1)
      if 1 < mbsize then
        (⟨col + 1, (setRange line.flag pcol col (-mbsize)).set col mbsize h, buf⟩, false)
      else if mbCurMax < col - pcol + 1 then
        (⟨col + 1, (setRange line.flag pcol (col + 1) editlineSingle).set col editlineInvalid h,
          setRange buf pcol (col + 1) 0x58⟩, true)
      else (⟨col + 1, line.flag.set col editlineInvalid h, buf⟩, true)
  else (line, false)

/-- `__libc_termios_put_queue` -/
def putQueue (queue : Ring Byte queueSize) (ch : Byte) : Ring Byte queueSize :=
    (queue.put? ch).getD queue

/-- `_CC_EQU` -/
def ccEqu (v c : Byte) : Bool := c = v && c ≠ 0xff

/-- `_CC_NEQU` -/
def ccNequ (v c : Byte) : Bool := c ≠ v && c ≠ 0xff

def keyByte (k : Key) : Byte := if k.al = 0x20 && k.ctrl then 0 else k.al

/-- `process input`: the byte, unless it is ignored -/
def processInput (cfg : Config) (lnch : Bool) (ch : Byte) : Option Byte :=
  if !lnch || ch ≠ 0xff then
    if ccEqu cfg.vstart ch && cfg.ixoff then none
    else if ccEqu cfg.vstop ch && cfg.ixoff then none
    else if ch = 0x0d && cfg.igncr then none
    else
      let ch := if ch = 0x0d then if cfg.icrnl then 0x0a else ch
        else if ch = 0x0a && cfg.inlcr then 0x0d else ch
      some (if cfg.istrip then ch &&& 0x7f else ch)
  else some ch

/-- The part behind `proc_skip`; true if the line is complete. -/
def procSkip (cfg : Config) (st : Tty) (ch : Byte) : Bool × Tty :=
  if st.lnch then
    let (line, lnch) := insertEditline st.line ch
    (false, { st with line := line, lnch := lnch })
  else if ccEqu cfg.verase ch then (false, { st with line := eraseEditline st.line })
  else if ccEqu cfg.vkill ch then (false, { st with line := killEditline cfg st.line })
  else if ch = 0x0a || ccEqu cfg.veof ch || ccEqu cfg.veol ch then
    let queue := (st.line.buf.toList.take st.line.col).foldl putQueue st.queue
    let queue := if ccNequ cfg.veof ch then putQueue queue ch else queue
    (true, { st with line := { st.line with col := 0 }, queue := queue })
  else
    let (line, lnch) := insertEditline st.line ch
    (false, { st with line := line, lnch := lnch })

/-- `__libc_termios_fill_queue`: the state and the keys that are left, if it returns -/
def fillQueue (cfg : Config) : Tty → List Key → Option (Tty × List Key)
  | _, [] => none
  | st, k :: keys =>
      match processInput cfg st.lnch (keyByte k) with
      | none => fillQueue cfg st keys
      | some ch =>
          match procSkip cfg st ch with
          | (true, st) => some (st, keys)
          | (false, st) => fillQueue cfg st keys

/-- The loop in `__libc_termios_read_cooked_tty`, for at most `n` bytes. -/
def readLoop : ℕ → Ring Byte queueSize → List Byte × Ring Byte queueSize
  | 0, queue => ([], queue)
  | n + 1, queue =>
      match queue.get? with
      | none => ([], queue)
      | some (ch, queue) =>
          let (l, queue) := readLoop n queue
          (ch :: l, queue)

/-- `__libc_termios_read_cooked_tty`, in `ICANON` mode -/
def readCookedTty (cfg : Config) (st : Tty) (keys : List Key) (count : BitVec 32) :
    Option (List Byte × Tty × List Key) := do
  let (st, keys) ← if st.queue.count = 0 then fillQueue cfg st keys else some (st, keys)
  -- `n` is signed
  let (l, queue) := readLoop count.toInt.toNat st.queue
  return (l, { st with queue := queue }, keys)

/-- `__libc_termios_read`, for the console -/
def termiosRead (cfg : Config) (st : Tty) (keys : List Key) (count : BitVec 32) :
    Option (List Byte × Tty × List Key) :=
  if count = 0 then some ([], st, keys) else readCookedTty cfg st keys count

/-- What calls one after the other return, up to one that waits forever. -/
def reads (cfg : Config) : Tty → List Key → List (BitVec 32) → List (List Byte)
  | _, _, [] => []
  | st, keys, count :: counts =>
      match termiosRead cfg st keys count with
      | none => []
      | some (l, st, keys) => l :: reads cfg st keys counts

def Tty.start : Tty where
  line := ⟨0, Vector.replicate _ 0, Vector.replicate _ 0⟩
  queue := ⟨fun _ => 0, ⟨0, by decide⟩, ⟨0, by decide⟩, 0, by decide, by decide⟩
  lnch := false

def special (cfg : Config) (ch : Byte) : Bool :=
  ccEqu cfg.verase ch || ccEqu cfg.vkill ch || ccEqu cfg.veof ch || ccEqu cfg.veol ch

def lineByte (k : Key) : Byte := if keyByte k = 0x0d then 0x0a else keyByte k

/-- What a byte does to a line: the line afterwards, and the one that is complete. -/
def edit (cfg : Config) (line : List Byte) (ch : Byte) : List Byte × Option (List Byte) :=
  if ccEqu cfg.verase ch then (line.dropLast, none)
  else if ccEqu cfg.vkill ch then ([], none)
  else if ccEqu cfg.veof ch then ([], some line)
  else if ch = 0x0a || ccEqu cfg.veol ch then ([], some (line ++ [ch]))
  else if line.length < editlineSize then (line ++ [ch], none)
  else (line, none)

def completed (cfg : Config) : List Byte → List Key → List (List Byte)
  | _, [] => []
  | line, k :: keys =>
      let (line, l) := edit cfg line (lineByte k)
      l.toList ++ completed cfg line keys

/-- A call returns what is left of a line, or something of the next one; `n` is signed. -/
def readLines : List Byte → List (List Byte) → List (BitVec 32) → List (List Byte)
  | _, _, [] => []
  | left, lines, count :: counts =>
      let n := count.toInt.toNat
      if count = 0 then [] :: readLines left lines counts
      else
        match left, lines with
        | [], [] => []
        | [], l :: lines => l.take n :: readLines (l.drop n) lines counts
        | ch :: left, lines => (ch :: left).take n :: readLines ((ch :: left).drop n) lines counts

def NulFree (cfg : Config) : List Byte → List Key → Prop
  | _, [] => True
  | line, k :: keys =>
      (lineByte k = 0 → special cfg 0 = true ∨ editlineSize ≤ line.length) ∧
        NulFree cfg (edit cfg line (lineByte k)).1 keys

variable {cfg : Config} {st st' : Tty} {line : List Byte} {e : Editline} {ch : Byte}

structure Editline.Holds (e : Editline) (line : List Byte) : Prop where
  col : e.col = line.length
  le : line.length ≤ editlineSize
  buf : e.buf.toList.take e.col = line
  flag : ∀ i < e.col, e.flag.toList.getD i 0 = editlineCtrl ∨
    e.flag.toList.getD i 0 = editlineSingle

theorem toList_set_split {α : Type} {n i : ℕ} (v : Vector α n) (x : α) (h : i < n) :
    (v.set i x h).toList = v.toList.take i ++ x :: v.toList.drop (i + 1) := by
  rw [Vector.toList_set, List.set_eq_take_append_cons_drop, if_pos]
  simpa using h

theorem Editline.Holds.insert (h : e.Holds line) (hch : ch = 0 → editlineSize ≤ line.length) :
    (insertEditline e ch).2 = false ∧
      (insertEditline e ch).1.Holds (if line.length < editlineSize then line ++ [ch]
        else line) := by
  by_cases hroom : e.col < editlineSize
  · have hlen : line.length < editlineSize := h.col ▸ hroom
    have hne : ch ≠ 0 := fun h0 => Nat.not_le.2 hlen (hch h0)
    have hvalid : e.col = 0 ∨ e.flag.toList.getD (e.col - 1) 0 ≠ editlineInvalid := by
      by_cases h0 : e.col = 0
      · exact .inl h0
      · right
        obtain hf | hf := h.flag (e.col - 1) (by omega) <;> rw [hf] <;> decide
    have hbuf := toList_set_split e.buf ch hroom
    rw [h.buf] at hbuf
    have hmb : mblen ((e.buf.set e.col ch hroom).toList.drop e.col) 1 = 1 := by
      rw [hbuf, h.col, List.drop_left, mblen, if_neg]
      simpa using hne
    have hins : insertEditline e ch = (⟨e.col + 1,
        e.flag.set e.col (if ch.toNat < 0x20 ∨ ch = 0x7f then editlineCtrl
          else editlineSingle) hroom,
        e.buf.set e.col ch hroom⟩, false) := by
      unfold insertEditline
      dsimp only
      rw [dif_pos hroom, if_pos hvalid, if_pos hmb]
    rw [hins, if_pos hlen]
    refine ⟨rfl, ?_, ?_, ?_, ?_⟩
    · simp [h.col]
    · rw [List.length_append]
      exact hlen
    · dsimp only
      rw [hbuf, h.col, List.take_append, List.take_of_length_le (Nat.le_succ _),
        Nat.add_sub_cancel_left]
      rfl
    · intro i hi
      dsimp only at hi ⊢
      rw [Vector.toList_set, List.getD_eq_getElem?_getD]
      by_cases hlast : e.col = i
      · rw [hlast, List.getElem?_set_self (by simpa using hlast ▸ hroom)]
        split
        · exact .inl rfl
        · exact .inr rfl
      · rw [List.getElem?_set_ne hlast, ← List.getD_eq_getElem?_getD]
        exact h.flag i (by omega)
  · have hins : insertEditline e ch = (e, false) := by
      unfold insertEditline
      exact dif_neg hroom
    have hlen : ¬ line.length < editlineSize := h.col ▸ hroom
    rw [hins, if_neg hlen]
    exact ⟨rfl, h⟩

/-- Both flags are for one column. -/
theorem Editline.Holds.eraseEditline {col : ℕ} (h : e.Holds line) (hc : e.col = col + 1) :
    eraseEditline e = { e with col := col } := by
  unfold Termios.eraseEditline
  rw [hc]
  dsimp only
  obtain hf | hf := h.flag col (by omega)
  · rw [hf, if_neg (by decide), if_pos rfl]
  · rw [hf, if_neg (by decide), if_neg (by decide)]
    rfl

theorem Editline.Holds.erase (h : e.Holds line) :
    (Termios.eraseEditline e).Holds line.dropLast := by
  cases hc : e.col with
  | zero =>
    have hnil : line = [] := by
      rw [← List.length_eq_zero_iff, ← h.col, hc]
    have hsame : Termios.eraseEditline e = e := by
      unfold Termios.eraseEditline
      rw [hc]
    rw [hnil] at h ⊢
    rw [hsame]
    exact h
  | succ col =>
    have hle : col + 1 ≤ editlineSize := hc ▸ h.col ▸ h.le
    have hline : line.dropLast = e.buf.toList.take col := by
      have hlast : line.length - 1 = col := by
        rw [← h.col, hc, Nat.add_sub_cancel]
      rw [List.dropLast_eq_take, hlast, ← h.buf, List.take_take, hc,
        Nat.min_eq_left (Nat.le_succ _)]
    have hlen : (e.buf.toList.take col).length = col := by
      rw [List.length_take, Vector.length_toList]
      omega
    rw [h.eraseEditline hc, hline]
    refine ⟨hlen.symm, ?_, rfl, ?_⟩
    · rw [hlen]
      omega
    · intro i (hi : i < col)
      exact h.flag i (by omega)

theorem Editline.Holds.nil (e : Editline) : ({ e with col := 0 } : Editline).Holds [] :=
  ⟨rfl, Nat.zero_le _, rfl, fun _ hi => absurd hi (Nat.not_lt_zero _)⟩

theorem Editline.Holds.eraseAll {fuel : ℕ} (h : e.Holds line) (hfuel : line.length ≤ fuel) :
    (eraseAll fuel e).Holds [] := by
  induction fuel generalizing e line with
  | zero =>
    have hnil : line = [] := List.length_eq_zero_iff.1 (Nat.le_zero.1 hfuel)
    rw [hnil] at h
    exact h
  | succ fuel ih =>
    rw [Termios.eraseAll]
    split
    · rename_i h0
      have hnil : line = [] := List.length_eq_zero_iff.1 (h.col ▸ h0)
      rw [hnil] at h
      exact h
    · refine ih h.erase ?_
      rw [List.length_dropLast]
      omega

theorem Editline.Holds.kill (h : e.Holds line) : (killEditline cfg e).Holds [] := by
  unfold killEditline
  split
  · exact h.eraseAll h.col.ge
  · exact .nil e

theorem contents_foldl_putQueue (queue : Ring Byte queueSize) (l : List Byte)
    (h : queue.count + l.length ≤ queueSize) : (l.foldl putQueue queue).contents =
    queue.contents ++ l := by
  induction l generalizing queue with
  | nil => simp
  | cons ch l ih =>
    rw [List.length_cons] at h
    obtain ⟨q, hput, hq⟩ := Ring.put?_contents (by omega : queue.count < queueSize) ch
    have hnext : putQueue queue ch = q := by rw [putQueue, hput, Option.getD_some]
    have hcount : q.count = queue.count + 1 := by
      rw [← Ring.length_contents, hq, List.length_append, Ring.length_contents,
        List.length_singleton]
    rw [List.foldl_cons, hnext, ih q (by omega), hq, List.append_assoc, List.singleton_append]

theorem readLoop_contents (n : ℕ) (queue : Ring Byte queueSize) :
    (readLoop n queue).1 = queue.contents.take n ∧ (readLoop n queue).2.contents =
    queue.contents.drop n := by
  induction n generalizing queue with
  | zero => simp [readLoop]
  | succ n ih =>
    rw [readLoop]
    cases hq : queue.contents with
    | nil =>
      rw [Ring.get?_eq_none hq]
      simp [hq]
    | cons ch l =>
      obtain ⟨queue', hget, hl⟩ := Ring.get?_cons hq
      rw [hget]
      have := ih queue'
      rw [hl] at this
      exact ⟨congrArg (ch :: ·) this.1, this.2⟩

/-- The terminal holds a line that is not complete. -/
structure Tty.Holds (st : Tty) (line : List Byte) : Prop where
  line : st.line.Holds line
  lnch : st.lnch = false

structure Config.Plain (cfg : Config) : Prop where
  ixoff : cfg.ixoff = false
  igncr : cfg.igncr = false
  icrnl : cfg.icrnl = true
  inlcr : cfg.inlcr = false
  istrip : cfg.istrip = false

theorem processInput_plain (hcfg : cfg.Plain) (k : Key) : processInput cfg false (keyByte k) =
    some (lineByte k) := by
  unfold processInput lineByte
  simp [hcfg.ixoff, hcfg.igncr, hcfg.icrnl, hcfg.inlcr, hcfg.istrip]

/-- A byte edits the line, and a complete line goes to the empty queue. -/
theorem procSkip_edit (h : st.Holds line) (hqueue : st.queue.contents = [])
    (hnul : ch = 0 → special cfg 0 = true ∨ editlineSize ≤ line.length) :
    (procSkip cfg st ch).1 = (edit cfg line ch).2.isSome ∧
      (procSkip cfg st ch).2.Holds (edit cfg line ch).1 ∧
      (procSkip cfg st ch).2.queue.contents = (edit cfg line ch).2.getD [] := by
  unfold procSkip edit
  rw [h.lnch, if_neg Bool.false_ne_true]
  by_cases herase : ccEqu cfg.verase ch = true
  · rw [if_pos herase, if_pos herase]
    exact ⟨rfl, ⟨h.line.erase, rfl⟩, hqueue⟩
  rw [if_neg herase, if_neg herase]
  by_cases hkill : ccEqu cfg.vkill ch = true
  · rw [if_pos hkill, if_pos hkill]
    exact ⟨rfl, ⟨h.line.kill, rfl⟩, hqueue⟩
  rw [if_neg hkill, if_neg hkill]
  have hcount : st.queue.count = 0 := Ring.contents_eq_nil.1 hqueue
  have hsize : line.length ≤ editlineSize := h.line.le
  have htwice : editlineSize + 1 ≤ queueSize := by decide
  have hcopy : ((st.line.buf.toList.take st.line.col).foldl putQueue st.queue).contents = line := by
    rw [h.line.buf, contents_foldl_putQueue _ _ (by omega), hqueue, List.nil_append]
  by_cases heof : ccEqu cfg.veof ch = true
  · have hnequ : ccNequ cfg.veof ch = false := by
      unfold ccEqu at heof
      unfold ccNequ
      simp at heof
      simp [heof]
    rw [heof, Bool.or_true, Bool.true_or, if_pos rfl, if_pos rfl, hnequ]
    exact ⟨rfl, ⟨.nil _, rfl⟩, hcopy⟩
  rw [Bool.not_eq_true] at heof
  rw [heof, Bool.or_false, if_neg Bool.false_ne_true]
  by_cases hend : (ch = 0x0a || ccEqu cfg.veol ch) = true
  · have hff : ch ≠ 0xff := by
      intro hff
      rw [hff] at hend
      simp [ccEqu] at hend
    have hnequ : ccNequ cfg.veof ch = true := by
      unfold ccEqu at heof
      unfold ccNequ
      simp only [Bool.and_eq_false_iff, decide_eq_false_iff_not, Bool.and_eq_true,
        decide_eq_true_eq] at heof ⊢
      exact ⟨heof.resolve_right (not_not.2 hff), hff⟩
    have hput : (putQueue ((st.line.buf.toList.take st.line.col).foldl putQueue st.queue) ch).contents =
        line ++ [ch] := by
      have hone : putQueue ((st.line.buf.toList.take st.line.col).foldl putQueue st.queue) ch =
          (line ++ [ch]).foldl putQueue st.queue := by
        rw [List.foldl_append, h.line.buf]
        rfl
      rw [hone, contents_foldl_putQueue, hqueue, List.nil_append]
      rw [List.length_append, List.length_singleton]
      omega
    rw [if_pos hend, if_pos hend, hnequ]
    exact ⟨rfl, ⟨.nil _, rfl⟩, hput⟩
  · rw [if_neg hend, if_neg hend]
    have hroom : ch = 0 → editlineSize ≤ line.length := by
      intro h0
      obtain hspecial | hfull := hnul h0
      · rw [h0] at herase hkill heof hend
        rw [Bool.or_eq_true] at hend
        unfold special at hspecial
        rw [heof, Bool.or_false, Bool.or_eq_true, Bool.or_eq_true] at hspecial
        obtain (hs | hs) | hs := hspecial
        · exact absurd hs herase
        · exact absurd hs hkill
        · exact absurd (.inr hs) hend
      · exact hfull
    obtain ⟨hlnch, hins⟩ := h.line.insert hroom
    by_cases hlen : line.length < editlineSize
    · rw [if_pos hlen] at hins ⊢
      exact ⟨rfl, ⟨hins, hlnch⟩, hqueue⟩
    · rw [if_neg hlen] at hins ⊢
      exact ⟨rfl, ⟨hins, hlnch⟩, hqueue⟩

/-- The next line, if the keys complete one. -/
def nextLine (cfg : Config) : List Byte → List Key → Option (List Byte × List Key)
  | _, [] => none
  | line, k :: keys =>
      match edit cfg line (lineByte k) with
      | (_, some l) => some (l, keys)
      | (line, none) => nextLine cfg line keys

theorem edit_complete {l line' : List Byte} (h : edit cfg line ch = (line', some l)) :
    line' = [] := by
  unfold edit at h
  repeat' split at h
  all_goals cases h
  all_goals rfl

theorem completed_eq (cfg : Config) (line : List Byte) (keys : List Key) :
    completed cfg line keys = match nextLine cfg line keys with
      | none => []
      | some (l, keys) => l :: completed cfg [] keys := by
  induction keys generalizing line with
  | nil => rfl
  | cons k keys ih =>
    rw [completed, nextLine]
    cases hedit : edit cfg line (lineByte k) with
    | mk line' l =>
      cases l with
      | none => exact ih line'
      | some l =>
        rw [edit_complete hedit]
        rfl

/-- `__libc_termios_fill_queue` puts the next line in the empty queue. -/
theorem fillQueue_nextLine (hcfg : cfg.Plain) {keys : List Key} (h : st.Holds line)
    (hqueue : st.queue.contents = [])
    (hnul : NulFree cfg line keys) :
    (nextLine cfg line keys = none ∧ fillQueue cfg st keys = none) ∨
      ∃ l keys' st', nextLine cfg line keys = some (l, keys') ∧
      fillQueue cfg st keys = some (st', keys') ∧
        st'.Holds [] ∧ st'.queue.contents = l ∧ NulFree cfg [] keys' := by
  induction keys generalizing st line with
  | nil => exact .inl ⟨rfl, rfl⟩
  | cons k keys ih =>
    rw [nextLine, fillQueue, h.lnch, processInput_plain hcfg k]
    dsimp only
    obtain ⟨hdone, hholds, hcontents⟩ := procSkip_edit h hqueue hnul.1
    have hrest := hnul.2
    cases hedit : edit cfg line (lineByte k) with
    | mk line' l =>
      cases hskip : procSkip cfg st (lineByte k) with
      | mk done st₁ =>
        rw [hedit, hskip] at hdone hholds hcontents
        rw [hedit] at hrest
        cases l with
        | none =>
          cases hdone
          exact ih hholds hcontents hrest
        | some l =>
          cases hdone
          rw [edit_complete hedit] at hholds hrest
          exact .inr ⟨l, keys, st₁, rfl, rfl, hholds, hcontents, hrest⟩

theorem reads_eq_readLines (hcfg : cfg.Plain) {keys : List Key} (h : st.Holds line)
    (hnul : NulFree cfg line keys)
    (counts : List (BitVec 32)) :
    reads cfg st keys counts = readLines st.queue.contents (completed cfg line keys) counts := by
  induction counts generalizing st line keys with
  | nil => rfl
  | cons count counts ih =>
    rw [reads, readLines.eq_def, termiosRead]
    dsimp only
    by_cases h0 : count = 0
    · rw [if_pos h0, if_pos h0]
      exact congrArg ([] :: ·) (ih h hnul)
    rw [if_neg h0, if_neg h0, readCookedTty]
    cases hqueue : st.queue.contents with
    | nil =>
      rw [if_pos (Ring.contents_eq_nil.1 hqueue), completed_eq]
      obtain ⟨hnext, hfill⟩ | ⟨l, keys', st', hnext, hfill, hholds, hl, hnul'⟩ :=
        fillQueue_nextLine hcfg h hqueue hnul
      · rw [hnext, hfill]
        rfl
      · obtain ⟨hread, hleft⟩ := readLoop_contents count.toInt.toNat st'.queue
        rw [hnext, hfill]
        rw [hl] at hread hleft
        have hst : (⟨st'.line, (readLoop count.toInt.toNat st'.queue).2, st'.lnch⟩ : Tty).Holds
          [] := ⟨hholds.1, hholds.2⟩
        have hrest := ih hst hnul'
        rw [hleft] at hrest
        exact congr (congrArg List.cons hread) hrest
    | cons ch left =>
      have hcount : st.queue.count ≠ 0 := by
        intro hc
        rw [Ring.contents_eq_nil.2 hc] at hqueue
        cases hqueue
      rw [if_neg hcount]
      obtain ⟨hread, hleft⟩ := readLoop_contents count.toInt.toNat st.queue
      rw [hqueue] at hread hleft
      have hst : (⟨st.line, (readLoop count.toInt.toNat st.queue).2, st.lnch⟩ : Tty).Holds line :=
        ⟨h.1, h.2⟩
      have hrest := ih hst hnul
      rw [hleft] at hrest
      exact congr (congrArg List.cons hread) hrest

theorem readLines_prefix (left : List Byte) (lines : List (List Byte)) (counts : List (BitVec 32)) :
    (readLines left lines counts).flatten <+: left ++ lines.flatten := by
  induction counts generalizing left lines with
  | nil => exact List.nil_prefix
  | cons count counts ih =>
    rw [readLines.eq_def]
    dsimp only
    split
    · exact ih left lines
    · split
      · exact List.nil_prefix
      · rename_i l lines
        rw [List.flatten_cons, List.nil_append, List.flatten_cons]
        have := (List.prefix_append_right_inj (l.take count.toInt.toNat)).2
          (ih (l.drop count.toInt.toNat) lines)
        rwa [← List.append_assoc, List.take_append_drop] at this
      · rename_i ch left
        rw [List.flatten_cons]
        have := (List.prefix_append_right_inj ((ch :: left).take count.toInt.toNat)).2
          (ih ((ch :: left).drop count.toInt.toNat) lines)
        rwa [← List.append_assoc, List.take_append_drop] at this

theorem mem_readLines {left r : List Byte} {lines : List (List Byte)} {counts : List (BitVec 32)}
    (h : r ∈ readLines left lines counts) : r = [] ∨ r <:+: left ∨ ∃ l ∈ lines, r <:+: l := by
  induction counts generalizing left lines with
  | nil => cases h
  | cons count counts ih =>
    rw [readLines.eq_def] at h
    dsimp only at h
    split at h
    · obtain rfl | h := List.mem_cons.1 h
      · exact .inl rfl
      · exact ih h
    · split at h
      · cases h
      · rename_i l lines
        obtain rfl | h := List.mem_cons.1 h
        · exact .inr (.inr ⟨l, List.mem_cons_self, (List.take_prefix _ _).isInfix⟩)
        · obtain hr | hr | ⟨l', hl', hr⟩ := ih h
          · exact .inl hr
          · exact .inr (.inr ⟨l, List.mem_cons_self, hr.trans (List.drop_suffix _ _).isInfix⟩)
          · exact .inr (.inr ⟨l', List.mem_cons_of_mem _ hl', hr⟩)
      · obtain rfl | h := List.mem_cons.1 h
        · exact .inr (.inl (List.take_prefix _ _).isInfix)
        · obtain hr | hr | hr := ih h
          · exact .inl hr
          · exact .inr (.inl (hr.trans (List.drop_suffix _ _).isInfix))
          · exact .inr (.inr hr)

/-- As long as NUL is not added to a line, the calls return the lines of the line editor:
each returns bytes of one line, and no byte is lost, returned twice or out of order. -/
theorem reads_lines (cfg : Config) (keys : List Key) (counts : List (BitVec 32)) (hcfg : cfg.Plain)
    (hnul : NulFree cfg [] keys) :
    reads cfg .start keys counts = readLines [] (completed cfg [] keys) counts ∧
      (reads cfg .start keys counts).flatten <+: (completed cfg [] keys).flatten ∧
      ∀ r ∈ reads cfg .start keys counts, r = [] ∨ ∃ l ∈ completed cfg [] keys, r <:+: l := by
  have hstart : Tty.start.Holds [] := ⟨.nil Tty.start.line, rfl⟩
  have hreads : reads cfg .start keys counts = readLines [] (completed cfg [] keys) counts :=
    reads_eq_readLines hcfg hstart hnul counts
  refine ⟨hreads, ?_, ?_⟩
  · rw [hreads]
    exact readLines_prefix [] _ counts
  · intro r hr
    rw [hreads] at hr
    obtain h | h | h := mem_readLines hr
    · exact .inl h
    · exact .inl (List.eq_nil_of_infix_nil h)
    · exact .inr h

/-- The default control characters. -/
def defaultConfig : Config := ⟨4, 0xff, 8, 0x15, 0x11, 0x13, false, false, true, false, false, true⟩

/-- `abx`, erase, and a newline, read two bytes at a time. -/
theorem reads_lines_abx :
    reads defaultConfig .start [⟨0x61, false⟩, ⟨0x62, false⟩, ⟨0x78, false⟩, ⟨8, false⟩,
      ⟨0x0d, false⟩] [2, 2] =
      [[0x61, 0x62], [0x0a]] := by
  refine (reads_lines defaultConfig _ [2, 2] ⟨rfl, rfl, rfl, rfl, rfl⟩ ?_).1.trans ?_
  · simp only [NulFree]
    decide +kernel
  · decide +kernel

/-- After NUL, the newline does not end the line. -/
theorem reads_nul :
    (∀ k ∈ ([⟨0x20, true⟩, ⟨0x61, false⟩, ⟨0x0d, false⟩] : List Key), k.Regular) ∧
      readLines [] (completed defaultConfig [] [⟨0x20, true⟩, ⟨0x61, false⟩, ⟨0x0d, false⟩]) [10] =
      [[0, 0x61, 0x0a]] ∧
      reads defaultConfig .start [⟨0x20, true⟩, ⟨0x61, false⟩, ⟨0x0d, false⟩] [10] = [] := by
  refine ⟨?_, ?_, ?_⟩
  · unfold Key.Regular
    decide
  · decide +kernel
  · decide +kernel

end DjgppLibc.Termios
