import DjgppLibc.StdioMoves

/-!
# Streams opened in one direction

The direction of a stream lies in its flags, which are tested only where the
buffer is empty: `_filbuf` refuses to fill an output stream and `_flsbuf` refuses
to write on an input stream, but a positive `_cnt` is taken for granted by both
macros and by the copying loops, although it counts unread characters in one
direction and free places in the other. `_doprnt` tests the direction first.
-/
namespace DjgppLibc.Stdio
open ByteMemory

variable {d : Fd} {o : Os} {f f' : Stream} {c : ℤ} {x : UInt8} {data xs t : List UInt8}
  {n s size count : ℕ}

/-- The characters that a format and its arguments give go through `putc`. -/
def doprnt (d : Fd) (o : Os) (text : List UInt8) (f : Stream) : Stream × ℤ :=
  let f :=
    if f.flag.rw then { f with flag := { f.flag with wrt := true, eof := false, read := false } }
    else f
  if !f.flag.wrt then (f, EOF) else (putcs d o text f, text.length)

/-- An unbuffered stream borrows the array `localbuf` of 16384 bytes. -/
def fprintf (d : Fd) (o : Os) (localbuf : ℕ) (text : List UInt8) (f : Stream) : Stream × ℤ :=
  let (f, len) :=
    if f.flag.nbf then
      let (f, len) := doprnt d o text
        { f with ptr := localbuf, base := localbuf, bufsiz := 16384
                 flag := { f.flag with nbf := false } }
      let (f, _) := fflush d o f
      ({ f with base := 0, bufsiz := 0, cnt := 0, flag := { f.flag with nbf := true } }, len)
    else doprnt d o text f
  (f, if f.flag.err then EOF else len)

def Stream.way (f : Stream) : Bool × Bool × Bool × Bool :=
  (f.flag.read, f.flag.wrt, f.flag.rw, f.flag.strg)

theorem rw_of_way (h : f'.way = f.way) (hrw : f.flag.rw = false) : f'.flag.rw = false :=
  (congrArg (fun w => w.2.2.1) h).trans hrw

theorem way_of_moves (h : Moves f f') (hrw : f.flag.rw = false) : f'.way = f.way := by
  have hkeep : f'.core.rw = false ∧
      (f'.core.read, f'.core.wrt, f'.core.rw, f'.core.strg) = f.way := by
    refine h.keeps (P := fun k => k.rw = false ∧ (k.read, k.wrt, k.rw, k.strg) = f.way) ?_
      ⟨hrw, rfl⟩
    intro k k' hmove hk
    cases hmove with
    | turn hrw' read wrt => exact absurd (hk.1.symm.trans hrw') (by decide)
    | allocate h0 hn a ha => exact hk
    | refuse h0 => exact hk
    | drop hn => exact hk
  exact hkeep.2

theorem setvbuf_way (buf : ℕ) (type : Buffering) (len : ℕ) (hrw : f.flag.rw = false) :
    (setvbuf d o buf type len f).1.way = f.way := by
  have h₁ : (fflush d o f).1.way = f.way := way_of_moves (fflush_moves f) hrw
  unfold setvbuf
  dsimp only
  split_ifs
  all_goals exact h₁

theorem doprnt_moves (data : List UInt8) (f : Stream) : Moves f (doprnt d o data f).1 := by
  have hturn := turn_moves f
  unfold doprnt
  dsimp only
  split_ifs at hturn ⊢
  all_goals first
    | exact hturn
    | exact hturn.trans (putcs_moves data _)

theorem fprintf_way (localbuf : ℕ) (hrw : f.flag.rw = false) :
    (fprintf d o localbuf data f).1.way = f.way := by
  unfold fprintf
  obtain ⟨g, hg⟩ : ∃ g : Stream, g = { f with ptr := localbuf, base := localbuf, bufsiz := 16384
                                              flag := { f.flag with nbf := false } } := ⟨_, rfl⟩
  rw [← hg]
  have hway : g.way = f.way := by
    rw [hg]
    rfl
  have h₁ : Moves g (fflush d o (doprnt d o data g).1).1 :=
    (doprnt_moves data g).trans (fflush_moves _)
  have h₂ : (fflush d o (doprnt d o data g).1).1.way = f.way :=
    (way_of_moves h₁ (rw_of_way hway hrw)).trans hway
  dsimp only
  split_ifs
  · exact h₂
  · exact way_of_moves (doprnt_moves data f) hrw

def Stream.failed (f : Stream) : Stream := { f with flag := { f.flag with err := true } }

structure Stream.ReadOnly (f : Stream) : Prop where
  read : f.flag.read = true
  wrt : f.flag.wrt = false
  rw : f.flag.rw = false
  strg : f.flag.strg = false

structure Stream.WriteOnly (f : Stream) : Prop where
  read : f.flag.read = false
  wrt : f.flag.wrt = true
  rw : f.flag.rw = false
  strg : f.flag.strg = false

theorem Stream.ReadOnly.of_way (h : f.ReadOnly) (hw : f'.way = f.way) : f'.ReadOnly :=
  ⟨(congrArg (fun w => w.1) hw).trans h.read, (congrArg (fun w => w.2.1) hw).trans h.wrt,
    (congrArg (fun w => w.2.2.1) hw).trans h.rw, (congrArg (fun w => w.2.2.2) hw).trans h.strg⟩

theorem Stream.WriteOnly.of_way (h : f.WriteOnly) (hw : f'.way = f.way) : f'.WriteOnly :=
  ⟨(congrArg (fun w => w.1) hw).trans h.read, (congrArg (fun w => w.2.1) hw).trans h.wrt,
    (congrArg (fun w => w.2.2.1) hw).trans h.rw, (congrArg (fun w => w.2.2.2) hw).trans h.strg⟩

theorem flsbuf_readOnly (h : f.ReadOnly) (c : ℤ) : flsbuf d o c f = (f.failed, EOF) := by
  simp only [flsbuf, Stream.failed, h.rw, h.wrt, Bool.false_eq_true, if_false, Bool.not_false,
    if_true]

theorem filbuf_writeOnly (h : f.WriteOnly) : filbuf d o f = (f.failed, EOF) := by
  simp only [filbuf, Stream.failed, h.rw, h.read, Bool.false_eq_true, if_false, Bool.not_false,
    if_true]

def Unread (f f' : Stream) : Prop :=
  f'.cnt.toNat = f.cnt.toNat ∧ (0 < f.cnt → f'.ptr = f.ptr) ∧ f'.unread = f.unread

def Unwritten (f f' : Stream) : Prop :=
  f'.sent = f.sent ∧ f'.base = f.base ∧ f'.ptr = f.ptr ∧ f'.pending = f.pending

theorem store_readOnly (h : f.ReadOnly) : (f.store data).ReadOnly := ⟨h.read, h.wrt, h.rw, h.strg⟩

/-- What a loop of `fwrite` leaves alone on an input stream. -/
structure Worn (f f' : Stream) : Prop where
  contents : f'.contents = f.contents
  pos : f'.pos = f.pos
  bufsiz : f'.bufsiz = f.bufsiz
  readOnly : f.ReadOnly → f'.ReadOnly

theorem Worn.refl (f : Stream) : Worn f f := ⟨rfl, rfl, rfl, id⟩

theorem Worn.trans {f'' : Stream} (h : Worn f f') (h' : Worn f' f'') : Worn f f'' :=
  ⟨h'.contents.trans h.contents, h'.pos.trans h.pos, h'.bufsiz.trans h.bufsiz,
    h'.readOnly ∘ h.readOnly⟩

theorem emitLine_readOnly (h : f.ReadOnly) (fast : Bool) (x : UInt8) (c : ℤ) :
    Worn f (emitLine d o fast x c f).1 ∧ (emitLine d o fast x c f).1.cnt = f.cnt - 1 ∧
      ((emitLine d o fast x c f).2 = EOF ↔ ¬ (-(f.bufsiz : ℤ) < f.cnt - 1 ∧ fast = true)) := by
  unfold emitLine
  dsimp only
  by_cases hc : -(f.bufsiz : ℤ) < f.cnt - 1 ∧ fast = true
  · rw [if_pos hc]
    exact ⟨⟨rfl, rfl, rfl, fun h => ⟨h.read, h.wrt, h.rw, h.strg⟩⟩, rfl,
      iff_of_false (show (0 : ℤ) ≠ EOF by decide) (not_not.mpr hc)⟩
  · rw [if_neg hc, flsbuf_readOnly (show Stream.ReadOnly { f with cnt := f.cnt - 1 } from
      ⟨h.read, h.wrt, h.rw, h.strg⟩)]
    exact ⟨⟨rfl, rfl, rfl, fun h => ⟨h.read, h.wrt, h.rw, h.strg⟩⟩, rfl,
      iff_of_true rfl hc⟩

theorem emitFull_readOnly (h : f.ReadOnly) (x : UInt8) :
    Worn f (emitFull d o x f).1 ∧ (emitFull d o x f).1.cnt = f.cnt - 1 ∧
      ((emitFull d o x f).2 = EOF ↔ f.cnt ≤ 0) := by
  unfold emitFull
  dsimp only
  by_cases hc : 0 ≤ f.cnt - 1
  · rw [if_pos hc]
    exact ⟨⟨rfl, rfl, rfl, fun h => ⟨h.read, h.wrt, h.rw, h.strg⟩⟩, rfl,
      iff_of_false (show (0 : ℤ) ≠ EOF by decide) (by omega)⟩
  · rw [if_neg hc, flsbuf_readOnly (show Stream.ReadOnly { f with cnt := f.cnt - 1 } from
      ⟨h.read, h.wrt, h.rw, h.strg⟩)]
    exact ⟨⟨rfl, rfl, rfl, fun h => ⟨h.read, h.wrt, h.rw, h.strg⟩⟩, rfl,
      iff_of_true rfl (by omega)⟩

structure LineLoop (xs : List UInt8) (f : Stream) (r : Stream × List UInt8) : Prop where
  worn : Worn f r.1
  cnt : r.1.cnt ≤ f.cnt - (if xs = [] then 0 else 1)
  left : r.2.length ≤ xs.length
  done : r.2 = [] ↔ xs = [] ∨ LF ∉ xs ∧ (xs.length : ℤ) < f.bufsiz + f.cnt

theorem LineLoop.nil (f : Stream) : LineLoop [] f (f, []) :=
  ⟨.refl f, by simp, le_rfl, iff_of_true rfl (.inl rfl)⟩

/-- A byte that reaches `_flsbuf` stops the loop. -/
theorem LineLoop.stop {x : UInt8} (hw : Worn f f') (hc : f'.cnt ≤ f.cnt - 1)
    (hx : x = LF ∨ f.cnt - 1 ≤ -(f.bufsiz : ℤ)) : LineLoop (x :: xs) f (f', x :: xs) := by
  refine ⟨hw, by simpa using hc, le_rfl, iff_of_false (by simp) ?_⟩
  rintro (h | ⟨h₁, h₂⟩)
  · exact absurd h (by simp)
  · rw [List.mem_cons, not_or] at h₁
    rw [List.length_cons] at h₂
    rcases hx with hx | hx
    · exact h₁.1 hx.symm
    · push_cast at h₂
      omega

theorem LineLoop.next {x : UInt8} {r : Stream × List UInt8} (hw : Worn f f')
    (hc : f'.cnt = f.cnt - 1) (hx : x ≠ LF) (hr : LineLoop xs f' r)
    (hpos : -(f.bufsiz : ℤ) < f.cnt - 1) : LineLoop (x :: xs) f r := by
  have hcnt := hr.cnt
  refine ⟨hw.trans hr.worn, ?_, le_trans hr.left (Nat.le_succ _), ?_⟩
  · rw [if_neg (by simp)]
    split_ifs at hcnt <;> omega
  · rw [hr.done, hw.bufsiz, hc, List.mem_cons, not_or, List.length_cons]
    push_cast
    constructor
    · rintro (rfl | ⟨h₁, h₂⟩)
      · exact .inr ⟨⟨hx.symm, by simp⟩, by simp; omega⟩
      · exact .inr ⟨⟨hx.symm, h₁⟩, by omega⟩
    · rintro (h | ⟨⟨-, h₁⟩, h₂⟩)
      · exact absurd h (by simp)
      · exact .inr ⟨h₁, by omega⟩

theorem fwriteLine_readOnly (xs : List UInt8) (h : f.ReadOnly) :
    LineLoop xs f (fwriteLine d o xs f) := by
  induction xs generalizing f with
  | nil => exact .nil f
  | cons x xs ih =>
      obtain ⟨h₁, h₂, h₃⟩ := emitLine_readOnly (d := d) (o := o) h (decide (x ≠ LF)) x (char x)
      unfold fwriteLine
      dsimp only
      by_cases he : (emitLine d o (decide (x ≠ LF)) x (char x) f).2 = EOF
      · rw [if_pos he]
        refine .stop h₁ h₂.le ?_
        have := h₃.mp he
        rw [decide_eq_true_eq] at this
        by_contra hne
        push Not at hne
        exact this ⟨hne.2, hne.1⟩
      · rw [if_neg he]
        have hgo := not_not.mp (mt h₃.mpr he)
        exact .next h₁ h₂ (of_decide_eq_true hgo.2) (ih (h₁.readOnly h)) hgo.1

theorem fwriteTextLine_readOnly (xs : List UInt8) (h : f.ReadOnly) :
    LineLoop xs f (fwriteTextLine d o xs f) := by
  induction xs generalizing f with
  | nil => exact .nil f
  | cons x xs ih =>
      unfold fwriteTextLine
      by_cases hx : x = LF
      · -- the CR may be stored, but the line feed is not
        obtain ⟨h₁, h₂, h₃⟩ := emitLine_readOnly (d := d) (o := o) h true CR (uchar CR)
        rw [if_pos hx]
        dsimp only
        split_ifs with he he'
        · exact .stop h₁ h₂.le (.inl hx)
        · obtain ⟨h₄, h₅, -⟩ := emitLine_readOnly (d := d) (o := o) (h₁.readOnly h)
            (decide (x ≠ LF)) x (uchar x)
          exact .stop (h₁.trans h₄) (by omega) (.inl hx)
        · obtain ⟨-, -, h₆⟩ := emitLine_readOnly (d := d) (o := o) (h₁.readOnly h)
            (decide (x ≠ LF)) x (uchar x)
          exact absurd (h₆.mpr fun h' => absurd (of_decide_eq_true h'.2) (not_not.mpr hx)) he'
      · obtain ⟨h₁, h₂, h₃⟩ := emitLine_readOnly (d := d) (o := o) h (decide (x ≠ LF)) x (uchar x)
        rw [if_neg hx]
        dsimp only
        rw [if_neg (by decide)]
        by_cases he : (emitLine d o (decide (x ≠ LF)) x (uchar x) f).2 = EOF
        · rw [if_pos he]
          refine .stop h₁ h₂.le (.inr ?_)
          have := h₃.mp he
          rw [decide_eq_true_eq] at this
          by_contra hne
          exact this ⟨not_le.mp hne, hx⟩
        · rw [if_neg he]
          have hgo := not_not.mp (mt h₃.mpr he)
          exact .next h₁ h₂ hx (ih (h₁.readOnly h)) hgo.1

/-- A loop of a fully buffered or unbuffered stream stops at once if no character
is buffered, and otherwise takes some away. -/
structure BlockLoop (xs : List UInt8) (f : Stream) (r : Stream × List UInt8) : Prop where
  left : r.2.length ≤ xs.length
  refused : f.cnt ≤ 0 → Worn f r.1 ∧ r.1.cnt ≤ 0 ∧ r.2 ≠ []
  taken : 0 < f.cnt → r.1.cnt < f.cnt ∨ r.1.ptr ≠ f.ptr

theorem fwriteText_cnt (xs : List UInt8) (h : f.ReadOnly) :
    (fwriteText d o xs f).1.cnt ≤ f.cnt ∧ (fwriteText d o xs f).2.length ≤ xs.length := by
  induction xs generalizing f with
  | nil => exact ⟨le_rfl, le_rfl⟩
  | cons x xs ih =>
      have hstart : (if x = LF then emitFull d o CR f else (f, 0)).1.ReadOnly ∧
          (if x = LF then emitFull d o CR f else (f, 0)).1.cnt ≤ f.cnt := by
        split_ifs
        · obtain ⟨h₁, h₂, -⟩ := emitFull_readOnly (d := d) (o := o) h CR
          exact ⟨h₁.readOnly h, by omega⟩
        · exact ⟨h, le_rfl⟩
      unfold fwriteText
      obtain ⟨⟨g, r⟩, hg⟩ : ∃ r, r = if x = LF then emitFull d o CR f else (f, 0) := ⟨_, rfl⟩
      rw [← hg] at hstart ⊢
      dsimp only at hstart ⊢
      obtain ⟨h₁, h₂, -⟩ := emitFull_readOnly (d := d) (o := o) hstart.1 x
      obtain ⟨i₁, i₂⟩ := ih (h₁.readOnly hstart.1)
      split_ifs
      · exact ⟨hstart.2, le_rfl⟩
      · exact ⟨by dsimp only; omega, le_rfl⟩
      · exact ⟨by omega, le_trans i₂ (Nat.le_succ _)⟩

theorem fwriteText_readOnly (hxs : xs ≠ []) (h : f.ReadOnly) :
    BlockLoop xs f (fwriteText d o xs f) := by
  obtain ⟨x, xs, rfl⟩ := List.exists_cons_of_ne_nil hxs
  refine ⟨(fwriteText_cnt _ h).2, fun hc => ?_, fun hc => .inl ?_⟩
  · unfold fwriteText
    by_cases hx : x = LF
    · obtain ⟨h₁, h₂, h₃⟩ := emitFull_readOnly (d := d) (o := o) h CR
      rw [if_pos hx]
      dsimp only
      rw [if_pos (h₃.mpr hc)]
      exact ⟨h₁, by dsimp only; omega, by simp⟩
    · obtain ⟨h₁, h₂, h₃⟩ := emitFull_readOnly (d := d) (o := o) h x
      rw [if_neg hx]
      dsimp only
      rw [if_neg (by decide), if_pos (h₃.mpr hc)]
      exact ⟨h₁, by dsimp only; omega, by simp⟩
  · unfold fwriteText
    have hstart : (if x = LF then emitFull d o CR f else (f, 0)).1.ReadOnly ∧
        (if x = LF then emitFull d o CR f else (f, 0)).1.cnt ≤ f.cnt ∧
        (if x = LF then emitFull d o CR f else (f, 0)).2 ≠ EOF := by
      split_ifs
      · obtain ⟨h₁, h₂, h₃⟩ := emitFull_readOnly (d := d) (o := o) h CR
        exact ⟨h₁.readOnly h, by omega, fun h' => absurd (h₃.mp h') (by omega)⟩
      · exact ⟨h, le_rfl, show (0 : ℤ) ≠ EOF by decide⟩
    obtain ⟨⟨g, r⟩, hg⟩ : ∃ r, r = if x = LF then emitFull d o CR f else (f, 0) := ⟨_, rfl⟩
    rw [← hg] at hstart ⊢
    dsimp only at hstart ⊢
    obtain ⟨h₁, h₂, -⟩ := emitFull_readOnly (d := d) (o := o) hstart.1 x
    have := (fwriteText_cnt (d := d) (o := o) xs (h₁.readOnly hstart.1)).1
    rw [if_neg hstart.2.2]
    split_ifs
    · dsimp only
      omega
    · omega

theorem fwriteBlock_readOnly (hxs : xs ≠ []) (h : f.ReadOnly) :
    BlockLoop xs f (fwriteBlock d o xs.length xs f) := by
  obtain ⟨x, xs, rfl⟩ := List.exists_cons_of_ne_nil hxs
  rw [List.length_cons]
  unfold fwriteBlock
  rw [if_neg (by simp)]
  by_cases hlt : f.cnt < (x :: xs).length
  swap
  · -- all fits over the characters
    rw [if_neg hlt]
    rw [List.length_cons] at hlt
    push_cast at hlt
    refine ⟨Nat.zero_le _, fun hc => by omega, fun _ => .inl ?_⟩
    change f.cnt - ((x :: xs).length : ℕ) < f.cnt
    rw [List.length_cons]
    omega
  rw [if_pos hlt]
  by_cases hc : 0 < f.cnt
  · rw [if_pos hc]
    dsimp only
    have hlen : (x :: xs).drop f.cnt.toNat ≠ [] := by
      rw [ne_eq, List.drop_eq_nil_iff]
      omega
    obtain ⟨y, ys, hy⟩ := List.exists_cons_of_ne_nil hlen
    have hle : (y :: ys).length ≤ (x :: xs).length := by
      rw [← hy, List.length_drop]
      exact Nat.sub_le _ _
    rw [hy]
    dsimp only
    rw [flsbuf_readOnly (store_readOnly h), if_pos rfl]
    refine ⟨hle, fun h' => absurd hc (not_lt.mpr h'), fun _ => .inr ?_⟩
    change f.ptr + ((x :: xs).take f.cnt.toNat).length ≠ f.ptr
    rw [List.length_take, List.length_cons]
    omega
  · rw [if_neg hc]
    dsimp only
    rw [flsbuf_readOnly h, if_pos rfl]
    exact ⟨le_rfl, fun h' => ⟨⟨rfl, rfl, rfl, fun h => ⟨h.read, h.wrt, h.rw, h.strg⟩⟩, h',
      by simp⟩, fun h' => absurd h' hc⟩

inductive Against where
  | putc (x : UInt8)
  | fwrite (data : List UInt8) (size count : ℕ)
  | fprintf (localbuf : ℕ) (text : List UInt8)
  | getc
  | fread (size count : ℕ)
  deriving DecidableEq, Repr

/-- Output calls go against an input stream, input calls against an output stream. -/
def Against.Opposes (f : Stream) : Against → Prop
  | .putc _ | .fwrite _ _ _ | .fprintf _ _ => f.ReadOnly
  | .getc | .fread _ _ => f.WriteOnly

/-- There is something to write or to read, and it lies in the address space. -/
def Against.Valid : Against → Prop
  | .fwrite data size count =>
      data.length = size * count ∧ 0 < size * count ∧ size * count < 4294967296
  | .fread size count => 0 < size * count ∧ size * count < 4294967296
  | _ => True

instance : ∀ c : Against, Decidable c.Valid
  | .fwrite _ _ _ => inferInstanceAs (Decidable (_ ∧ _ ∧ _))
  | .fread _ _ => inferInstanceAs (Decidable (_ ∧ _))
  | .putc _ => .isTrue trivial
  | .fprintf _ _ => .isTrue trivial
  | .getc => .isTrue trivial

def Refused (d : Fd) (o : Os) (f : Stream) : Against → Prop
  | .putc x => (putc d o x f).2 = EOF ∧ Unread f (putc d o x f).1
  | .fwrite data size count =>
      (fwrite d o data size count f).2 ≠ count ∧ Unread f (fwrite d o data size count f).1
  | .fprintf localbuf text =>
      (fprintf d o localbuf text f).2 = EOF ∧ Unread f (fprintf d o localbuf text f).1
  | .getc => (getc d o f).2 = EOF ∧ Unwritten f (getc d o f).1
  | .fread size count =>
      (fread d o size count f).2.1 = [] ∧ (fread d o size count f).2.2 ≠ count ∧
        Unwritten f (fread d o size count f).1

/-- No character is buffered, and a line buffer does not take all of the data. A
length that is negative as an `int` is only counted. `fprintf` flushes an
unbuffered stream, which has no characters in a buffer, and an append descriptor
is then positioned to its end. -/
def Harmless (d : Fd) (f : Stream) : Against → Prop
  | .putc _ | .getc => f.cnt ≤ 0
  | .fwrite data size count =>
      if size * count < 2147483648 then
        f.cnt ≤ 0 ∧ (f.flag.lbf = true → LF ∈ data ∨ f.bufsiz + f.cnt ≤ data.length)
      else size * count + size ≤ 4294967296
  | .fprintf _ _ =>
      f.flag.nbf = true →
        f.cnt ≤ 0 ∧ (d.append = true → d.seekable = true → f.contents.length ≤ f.pos)
  | .fread size count =>
      if size * count < 2147483648 then f.cnt ≤ 0 else size * count + size ≤ 4294967296

instance (d : Fd) (f : Stream) : ∀ c : Against, Decidable (Harmless d f c)
  | .putc _ => inferInstanceAs (Decidable (_ ≤ _))
  | .getc => inferInstanceAs (Decidable (_ ≤ _))
  | .fwrite _ size count =>
      inferInstanceAs (Decidable (if size * count < 2147483648 then _ else _))
  | .fprintf _ _ => inferInstanceAs (Decidable (_ → _ ∧ _))
  | .fread size count => inferInstanceAs (Decidable (if size * count < 2147483648 then _ else _))

/-- The number of items when the length is negative as an `int`. -/
theorem itemsDone_large (hn : 2147483648 ≤ size * count) (hn' : size * count < 4294967296) :
    itemsDone size count (toSigned (size * count)) ≠ count ↔ size * count + size ≤ 4294967296 := by
  have hs0 : size ≠ 0 := by
    rintro rfl
    omega
  have hc0 : 0 < count := Nat.pos_of_ne_zero (by rintro rfl; omega)
  have hle : size ≤ size * count := Nat.le_mul_of_pos_right size hc0
  have hcle : count ≤ size * count := Nat.le_mul_of_pos_left count (Nat.pos_of_ne_zero hs0)
  rw [toSigned_large hn hn']
  unfold itemsDone
  rw [if_pos hs0]
  obtain ⟨n, hnd⟩ : ∃ n, n = size * count := ⟨_, rfl⟩
  rw [← hnd] at hn hn' hle hcle ⊢
  by_cases hfit : n + size ≤ 4294967296
  · have hq : ((((n : ℤ) - 4294967296 + size - 1) % 4294967296).toNat / size : ℕ) = count := by
      rw [show (((n : ℤ) - 4294967296 + size - 1) % 4294967296).toNat = size * count + (size - 1) by
        omega, Nat.mul_add_div (Nat.pos_of_ne_zero hs0), Nat.div_eq_of_lt (by omega), Nat.add_zero]
    rw [hq]
    refine iff_of_true ?_ hfit
    omega
  · have hq : ((((n : ℤ) - 4294967296 + size - 1) % 4294967296).toNat / size : ℕ) = 0 := by
      apply Nat.div_eq_of_lt
      omega
    rw [hq]
    refine iff_of_false ?_ hfit
    omega

theorem unread_of_worn (hw : Worn f f') (hc : f.cnt ≤ 0) (hc' : f'.cnt ≤ 0) : Unread f f' := by
  refine ⟨by omega, fun h => absurd h (not_lt.mpr hc), ?_⟩
  unfold Stream.unread
  rw [hw.contents, hw.pos, show f.cnt.toNat = 0 by omega, show f'.cnt.toNat = 0 by omega]
  rfl

theorem putcRaw_readOnly (h : f.ReadOnly) (x : UInt8) :
    (f.cnt ≤ 0 → putcRaw d o x f = (f.failed, EOF)) ∧
      (putcRaw d o x f).1.ReadOnly ∧ (putcRaw d o x f).1.cnt ≤ f.cnt ∧
      (0 < f.cnt → (putcRaw d o x f).1.cnt < f.cnt) := by
  unfold putcRaw
  split_ifs with hc
  · refine ⟨fun h' => absurd hc (not_lt.mpr h'), ⟨h.read, h.wrt, h.rw, h.strg⟩, ?_, fun _ => ?_⟩
    · change f.cnt - 1 ≤ f.cnt
      omega
    · change f.cnt - 1 < f.cnt
      omega
  · rw [flsbuf_readOnly h]
    exact ⟨fun _ => rfl, ⟨h.read, h.wrt, h.rw, h.strg⟩, le_rfl, fun h' => absurd h' hc⟩

theorem putc_refused_iff (h : f.ReadOnly) (x : UInt8) :
    Refused d o f (.putc x) ↔ f.cnt ≤ 0 := by
  have hfailed : f.failed.ReadOnly := ⟨h.read, h.wrt, h.rw, h.strg⟩
  unfold Refused putc
  dsimp only
  constructor
  · rintro ⟨-, hcnt, -⟩
    by_contra hc
    rw [not_le] at hc
    split_ifs at hcnt
    · obtain ⟨-, h₁, -, h₂⟩ := putcRaw_readOnly (d := d) (o := o) h CR
      obtain ⟨-, -, h₃, -⟩ := putcRaw_readOnly (d := d) (o := o) h₁ x
      have := h₂ hc
      omega
    · have := (putcRaw_readOnly (d := d) (o := o) h x).2.2.2 hc
      omega
  · intro hc
    have hraw : ∀ x, putcRaw d o x f = (f.failed, EOF) := fun x => (putcRaw_readOnly h x).1 hc
    split_ifs
    · rw [hraw CR, (putcRaw_readOnly hfailed x).1 hc]
      exact ⟨rfl, rfl, fun _ => rfl, rfl⟩
    · rw [hraw x]
      exact ⟨rfl, rfl, fun _ => rfl, rfl⟩

theorem fwrite_refused_iff (h : f.ReadOnly) (hlen : data.length = size * count)
    (hpos : 0 < size * count) (hn : size * count < 4294967296) :
    Refused d o f (.fwrite data size count) ↔ Harmless d f (.fwrite data size count) := by
  have hs0 : size ≠ 0 := by
    rintro rfl
    omega
  have hcle : count ≤ size * count := Nat.le_mul_of_pos_left count (Nat.pos_of_ne_zero hs0)
  unfold Refused Harmless
  dsimp only
  rw [fwrite_eq]
  by_cases hbig : size * count < 2147483648
  swap
  · -- no loop is entered
    rw [if_neg hbig]
    rw [not_lt] at hbig
    have hneg : toSigned (size * count) < 0 := by
      rw [toSigned_large hbig hn]
      omega
    have hnil : data.take (toSigned (size * count)).toNat = [] := by
      rw [show (toSigned (size * count)).toNat = 0 by omega, List.take_zero]
    rw [if_pos hneg, hnil, fwriteLoop_nil, itemsDone_large hbig hn]
    exact ⟨fun h' => h'.1, fun h' => ⟨h', rfl, fun _ => rfl, rfl⟩⟩
  have hxs : data ≠ [] := by
    rw [← List.length_pos_iff]
    omega
  have hitems : ∀ left : List UInt8, left.length ≤ data.length →
      (itemsDone size count left.length ≠ count ↔ left ≠ []) := by
    intro left hle
    constructor
    · rintro hne rfl
      exact hne ((itemsDone_zero (by
        have := Nat.le_mul_of_pos_right size (Nat.pos_of_ne_zero
          (show count ≠ 0 by rintro rfl; omega))
        omega) (by omega)).mpr (.inl hs0))
    · intro hne
      exact itemsDone_ne (List.length_pos_iff.mpr hne) (by omega) hbig (by omega)
  rw [if_pos hbig, toSigned_small hbig, if_neg (by omega), Int.toNat_natCast,
    List.take_of_length_le (by omega)]
  unfold fwriteLoop
  have hline : ∀ r, LineLoop data f r → f.flag.lbf = true →
      (itemsDone size count r.2.length ≠ count ∧ Unread f r.1 ↔
        f.cnt ≤ 0 ∧ (f.flag.lbf = true → LF ∈ data ∨ f.bufsiz + f.cnt ≤ data.length)) := by
    intro r hr hl
    have hcnt := hr.cnt
    rw [if_neg hxs] at hcnt
    rw [hitems _ hr.left, ne_eq, hr.done]
    constructor
    · rintro ⟨hne, hc, -⟩
      refine ⟨by omega, fun _ => ?_⟩
      by_contra hcon
      push Not at hcon
      exact hne (.inr hcon)
    · rintro ⟨hc, hcon⟩
      refine ⟨?_, unread_of_worn hr.worn hc (by omega)⟩
      rintro (h' | ⟨h₁, h₂⟩)
      · exact hxs h'
      · rcases hcon hl with h' | h'
        · exact h₁ h'
        · omega
  have hblock : ∀ r, BlockLoop data f r → ¬ f.flag.lbf = true →
      (itemsDone size count r.2.length ≠ count ∧ Unread f r.1 ↔
        f.cnt ≤ 0 ∧ (f.flag.lbf = true → LF ∈ data ∨ f.bufsiz + f.cnt ≤ data.length)) := by
    intro r hr hl
    rw [hitems _ hr.left]
    constructor
    · rintro ⟨-, hc, hptr, -⟩
      refine ⟨?_, fun h' => absurd h' hl⟩
      by_contra hpos
      rw [not_le] at hpos
      rcases hr.taken hpos with h' | h'
      · omega
      · exact h' (hptr hpos)
    · rintro ⟨hc, -⟩
      obtain ⟨h₁, h₂, h₃⟩ := hr.refused hc
      exact ⟨h₃, unread_of_worn h₁ hc h₂⟩
  split_ifs with ht hl hl
  · exact hline _ (fwriteLine_readOnly data h) hl
  · exact hblock _ (fwriteBlock_readOnly hxs h) hl
  · exact hline _ (fwriteTextLine_readOnly data h) hl
  · exact hblock _ (fwriteText_readOnly hxs h) hl

theorem fflush_readOnly (h : f.ReadOnly) :
    (fflush d o f).1.contents = f.contents ∧
      (fflush d o f).1.pos =
        if d.append = true ∧ d.seekable = true then f.contents.length else f.pos := by
  have hstart : (if d.append then lseek d f 0 .fromEnd else (f, 0)).1.ReadOnly ∧
      (if d.append then lseek d f 0 .fromEnd else (f, 0)).1.contents = f.contents ∧
      (if d.append then lseek d f 0 .fromEnd else (f, 0)).1.pos =
        if d.append = true ∧ d.seekable = true then f.contents.length else f.pos := by
    unfold lseek
    cases ha : d.append <;> cases hs : d.seekable
    · exact ⟨h, rfl, rfl⟩
    · exact ⟨h, rfl, rfl⟩
    · exact ⟨h, rfl, rfl⟩
    · exact ⟨⟨h.read, h.wrt, h.rw, h.strg⟩, rfl, by simp⟩
  obtain ⟨⟨g, p⟩, hg⟩ : ∃ r, r = if d.append then lseek d f 0 .fromEnd else (f, 0) := ⟨_, rfl⟩
  rw [← hg] at hstart
  obtain ⟨hG, hc, hp⟩ := hstart
  have hbuf : fflushBuffer d o g.clearUngetc = (g.clearUngetc, true) :=
    if_neg fun h' => absurd (hG.wrt.symm.trans h'.1) (by decide)
  have hkey : (fflush d o f).1.contents = g.contents ∧ (fflush d o f).1.pos = g.pos := by
    unfold fflush
    rw [← hg]
    dsimp only
    rw [hbuf]
    dsimp only
    split_ifs <;> exact ⟨rfl, rfl⟩
  exact ⟨hkey.1.trans hc, hkey.2.trans hp⟩

theorem fprintf_refused_iff (h : f.ReadOnly) (localbuf : ℕ) (text : List UInt8) :
    Refused d o f (.fprintf localbuf text) ↔ Harmless d f (.fprintf localbuf text) := by
  have hprnt : ∀ g : Stream, g.ReadOnly → doprnt d o text g = (g, EOF) := by
    intro g hg
    simp only [doprnt, hg.rw, hg.wrt, Bool.false_eq_true, if_false, Bool.not_false, if_true]
  unfold Refused Harmless fprintf
  dsimp only
  by_cases hn : f.flag.nbf = true
  swap
  · rw [if_neg hn, hprnt f h]
    dsimp only
    refine iff_of_true ⟨by simp, rfl, fun _ => rfl, rfl⟩ fun h' => absurd h' hn
  rw [if_pos hn]
  obtain ⟨g, hg⟩ : ∃ g : Stream, g = { f with ptr := localbuf, base := localbuf, bufsiz := 16384
                                              flag := { f.flag with nbf := false } } := ⟨_, rfl⟩
  rw [← hg]
  have hG : g.ReadOnly := by
    rw [hg]
    exact ⟨h.read, h.wrt, h.rw, h.strg⟩
  obtain ⟨h₁, h₂⟩ := fflush_readOnly (d := d) (o := o) hG
  rw [hprnt g hG]
  dsimp only
  rw [show g.contents = f.contents by rw [hg]] at h₁ h₂
  rw [show g.pos = f.pos by rw [hg]] at h₂
  unfold Unread Stream.unread
  dsimp only
  rw [h₁, h₂]
  constructor
  · rintro ⟨-, hc, -, hu⟩ -
    have hc : f.cnt ≤ 0 := by
      simp only [Int.toNat_zero] at hc
      omega
    refine ⟨hc, fun ha hs => ?_⟩
    rw [if_pos ⟨ha, hs⟩, show f.cnt.toNat = 0 by omega] at hu
    have hlen := congrArg List.length hu
    simp only [Int.toNat_zero, List.length_append, bytes_length, List.length_drop] at hlen
    omega
  · intro hh
    obtain ⟨hc, hend⟩ := hh hn
    refine ⟨by simp, by simp only [Int.toNat_zero]; omega, fun h' => absurd h' (not_lt.mpr hc), ?_⟩
    rw [show f.cnt.toNat = 0 by omega]
    split_ifs with ha
    · rw [List.drop_length, List.drop_of_length_le (hend ha.1 ha.2)]
      rfl
    · rfl

theorem failed_writeOnly (h : f.WriteOnly) : f.failed.WriteOnly := ⟨h.read, h.wrt, h.rw, h.strg⟩

theorem getcRaw_writeOnly (h : f.WriteOnly) :
    (getcRaw d o f).1.WriteOnly ∧
      (f.cnt ≤ 0 → getcRaw d o f = (f.failed, EOF)) ∧
      f.ptr ≤ (getcRaw d o f).1.ptr ∧ (0 < f.cnt → f.ptr < (getcRaw d o f).1.ptr) := by
  unfold getcRaw
  split_ifs with hc
  · exact ⟨⟨h.read, h.wrt, h.rw, h.strg⟩, fun h' => absurd hc (not_lt.mpr h'), Nat.le_succ _,
      fun _ => Nat.lt_succ_self _⟩
  · rw [filbuf_writeOnly h]
    exact ⟨failed_writeOnly h, fun _ => rfl, le_rfl, fun h' => absurd h' hc⟩

theorem getc_refused_iff (h : f.WriteOnly) : Refused d o f .getc ↔ f.cnt ≤ 0 := by
  obtain ⟨h₁, h₂, -, h₃⟩ := getcRaw_writeOnly (d := d) (o := o) h
  unfold Refused getc
  dsimp only
  constructor
  · rintro ⟨-, -, -, hptr, -⟩
    by_contra hc
    have hlt := h₃ (not_le.mp hc)
    have hle := (getcRaw_writeOnly (d := d) (o := o) h₁).2.2.1
    split_ifs at hptr
    · omega
    · dsimp only at hptr
      omega
  · intro hc
    rw [h₂ hc]
    dsimp only
    rw [if_neg fun h' => absurd h'.1 (by decide)]
    exact ⟨rfl, rfl, rfl, rfl, rfl⟩

theorem skim_ptr (stop : Bool) (fuel : ℕ) :
    f.ptr ≤ (skim stop fuel s t f).1.ptr ∧
      (0 < fuel → 0 < f.cnt → 0 < s → f.ptr < (skim stop fuel s t f).1.ptr) := by
  induction fuel generalizing f s t with
  | zero => exact ⟨le_rfl, fun h => absurd h (lt_irrefl 0)⟩
  | succ fuel ih =>
      unfold skim
      dsimp only
      split_ifs with hc hx
      · have := (ih (f := { f with ptr := f.ptr + 1, cnt := f.cnt - 1 }) (s := s - 1)
          (t := t ++ [f.mem f.ptr])).1
        dsimp only at this
        exact ⟨by omega, fun _ _ _ => by omega⟩
      · have := (ih (f := { f with ptr := f.ptr + 1, cnt := f.cnt - 1 }) (s := s)
          (t := t)).1
        dsimp only at this
        exact ⟨by omega, fun _ _ _ => by omega⟩
      · exact ⟨le_rfl, fun _ h₁ h₂ => absurd ⟨h₁, fun _ => h₂⟩ hc⟩

theorem skim_writeOnly (stop : Bool) (fuel : ℕ) (h : f.WriteOnly) :
    (skim stop fuel s t f).1.WriteOnly :=
  h.of_way (way_of_moves (.of_core (skim_core stop fuel)) h.rw)

theorem textFill_writeOnly (h : f.WriteOnly) :
    textFill d o s t f =
      ((skim false f.cnt.toNat s t f).1.failed, (skim false f.cnt.toNat s t f).2.1,
        (skim false f.cnt.toNat s t f).2.2, EOF) := by
  unfold textFill
  dsimp only
  rw [filbuf_writeOnly (skim_writeOnly _ _ h)]
  rfl

theorem freadText_ptr (fuel : ℕ) (h : f.WriteOnly) :
    f.ptr ≤ (freadText d o fuel s t f).1.ptr ∧
      (0 < fuel → 0 < f.cnt → 0 < s → f.ptr < (freadText d o fuel s t f).1.ptr) := by
  induction fuel generalizing f s t with
  | zero => exact ⟨le_rfl, fun h => absurd h (lt_irrefl 0)⟩
  | succ fuel ih =>
      by_cases hs : s = 0
      · rw [freadText, if_pos hs]
        exact ⟨le_rfl, fun _ _ h' => absurd h' (by omega)⟩
      rw [freadText_succ fuel hs]
      by_cases hc : f.cnt < s
      · obtain ⟨h₁, h₂⟩ := skim_ptr (f := f) (s := s) (t := t) false f.cnt.toNat
        rw [if_pos hc, textFill_writeOnly h]
        dsimp only
        rw [if_pos rfl]
        exact ⟨h₁, fun _ h₃ h₄ => h₂ (by omega) h₃ h₄⟩
      · obtain ⟨h₁, h₂⟩ := skim_ptr (f := f) (s := s) (t := t) true f.cnt.toNat
        have hT : textTake s t f = skim true f.cnt.toNat s t f := if_pos (not_lt.mp hc)
        rw [if_neg hc]
        dsimp only
        rw [if_neg (by decide), hT]
        have hi := (ih (s := (skim true f.cnt.toNat s t f).2.2)
          (t := (skim true f.cnt.toNat s t f).2.1)
          (skim_writeOnly (s := s) (t := t) true f.cnt.toNat h)).1
        exact ⟨le_trans h₁ hi, fun _ h₃ h₄ => lt_of_lt_of_le (h₂ (by omega) h₃ h₄) hi⟩

theorem fread_refused_iff (h : f.WriteOnly) (hpos : 0 < size * count)
    (hn : size * count < 4294967296) :
    Refused d o f (.fread size count) ↔ Harmless d f (.fread size count) := by
  have hs0 : size ≠ 0 := by
    rintro rfl
    omega
  have hcle : count ≤ size * count := Nat.le_mul_of_pos_left count (Nat.pos_of_ne_zero hs0)
  have hG : (f.grown (size * count)).WriteOnly := ⟨h.read, h.wrt, h.rw, h.strg⟩
  unfold Refused Harmless
  dsimp only
  rw [fread_eq]
  by_cases hbig : size * count < 2147483648
  swap
  · rw [if_neg hbig]
    rw [not_lt] at hbig
    have hneg : toSigned (size * count) ≤ 0 := by
      rw [toSigned_large hbig hn]
      omega
    rw [if_pos hneg]
    dsimp only
    rw [itemsDone_large hbig hn]
    exact ⟨fun h' => h'.2.1, fun h' => ⟨rfl, h', rfl, rfl, rfl, rfl⟩⟩
  rw [if_pos hbig, toSigned_small hbig, if_neg (by omega), Int.toNat_natCast]
  obtain ⟨n, hnd⟩ : ∃ n, size * count = n + 1 := ⟨size * count - 1, by omega⟩
  have hall : itemsDone size count ((n + 1 : ℕ) : ℤ) ≠ count :=
    itemsDone_ne (Nat.succ_pos n) hnd.ge hbig (by omega)
  unfold freadLoop
  rw [hnd] at hG ⊢
  obtain ⟨g, hg⟩ : ∃ g, g = f.grown (n + 1) := ⟨_, rfl⟩
  have hcnt : g.cnt = f.cnt := by rw [hg]; rfl
  have hptr : g.ptr = f.ptr := by rw [hg]; rfl
  rw [← hg] at hG ⊢
  by_cases hc : f.cnt ≤ 0
  · -- the first character is refused
    refine iff_of_true ?_ hc
    have hr : (if !isTextFile d g then freadBlock d o (n + 1) (n + 1) [] g
        else freadText d o (g.unread.length + 1) (n + 1) [] g) = (g.failed, [], n + 1) := by
      split_ifs
      · rw [freadBlock, if_neg (by omega), if_pos (by omega), if_neg (by omega)]
        dsimp only
        rw [filbuf_writeOnly hG]
        dsimp only
        rw [if_pos rfl]
      · have hz : g.cnt.toNat = 0 := by omega
        rw [freadText_succ _ (by omega), if_pos (by omega), textFill_writeOnly hG, hz]
        rfl
    rw [hr, hg]
    exact ⟨rfl, hall, rfl, rfl, rfl, rfl⟩
  · refine iff_of_false ?_ hc
    rw [not_le] at hc
    split_ifs with ht
    · -- bytes of the output buffer are delivered
      rintro ⟨hnil, -⟩
      revert hnil
      rw [freadBlock, if_neg (by omega)]
      split_ifs with hlt hpos'
      · dsimp only
        rw [filbuf_writeOnly hG]
        dsimp only
        rw [if_pos rfl]
        intro hnil
        have := congrArg List.length hnil
        simp only [List.nil_append, bytes_length, List.length_nil] at this
        omega
      · omega
      · intro hnil
        have := congrArg List.length hnil
        simp only [List.nil_append, bytes_length, List.length_nil] at this
        omega
    · rintro ⟨-, -, -, -, hp, -⟩
      have := (freadText_ptr (d := d) (o := o) (s := n + 1) (t := []) (g.unread.length + 1)
        hG).2 (Nat.succ_pos _) (by omega) (Nat.succ_pos _)
      dsimp only at hp
      omega

/-- Any call on a stream. -/
inductive StreamCall where
  | output (c : OutCall)
  | input (c : InCall)
  | fprintf (localbuf : ℕ) (text : List UInt8)
  deriving DecidableEq, Repr

def Stream.call (d : Fd) (o : Os) (f : Stream) : StreamCall → Except Empty Stream
  | .output c => f.output d o c
  | .input c => f.input d o c
  | .fprintf localbuf text => .ok (Stdio.fprintf d o localbuf text f).1

theorem output_way (c : OutCall) (hrw : f.flag.rw = false) (h : f.output d o c = .ok f') :
    f'.way = f.way := by
  cases c with
  | putc x => exact Except.ok.inj h ▸ way_of_moves (putc_moves x f) hrw
  | fwrite data size count =>
      exact Except.ok.inj h ▸ way_of_moves (fwrite_moves data size count f) hrw
  | fflush => exact Except.ok.inj h ▸ way_of_moves (fflush_moves f) hrw
  | ftell => exact Except.ok.inj h ▸ way_of_moves (.of_core ftell_core) hrw
  | fseek offset whence =>
      exact Except.ok.inj h ▸ way_of_moves (fseek_moves offset whence f) hrw
  | setvbuf buf type len => exact Except.ok.inj h ▸ setvbuf_way buf type len hrw

theorem input_way (c : InCall) (hrw : f.flag.rw = false) (h : f.input d o c = .ok f') :
    f'.way = f.way := by
  cases c with
  | read c =>
      cases c with
      | getc => exact Except.ok.inj h ▸ way_of_moves (getc_moves f) hrw
      | fread size count => exact Except.ok.inj h ▸ way_of_moves (fread_moves size count f) hrw
      | ungetc c => exact Except.ok.inj h ▸ way_of_moves (.of_core ungetc_core) hrw
  | fseek offset whence =>
      exact Except.ok.inj h ▸ way_of_moves (fseek_moves offset whence f) hrw
  | setvbuf buf type len => exact Except.ok.inj h ▸ setvbuf_way buf type len hrw

theorem call_way (c : StreamCall) (hrw : f.flag.rw = false) (h : f.call d o c = .ok f') :
    f'.way = f.way := by
  cases c with
  | output c => exact output_way c hrw h
  | input c => exact input_way c hrw h
  | fprintf localbuf text => exact Except.ok.inj h ▸ fprintf_way localbuf hrw

/-- No call turns a stream that goes one way. -/
theorem exec_way {cs : List StreamCall} (hrw : f.flag.rw = false)
    (h : Runs.exec (Stream.call d o) f cs = .ok f') : f'.way = f.way :=
  Runs.exec_preserves (J := fun g => g.way = f.way)
    (fun _ c _ hg hc => (call_way c (rw_of_way hg hrw) hc).trans hg) rfl h

theorem opposes_of_way {c : Against} (h : c.Opposes f) (hw : f'.way = f.way) : c.Opposes f' := by
  cases c with
  | putc x => exact Stream.ReadOnly.of_way h hw
  | fwrite data size count => exact Stream.ReadOnly.of_way h hw
  | fprintf localbuf text => exact Stream.ReadOnly.of_way h hw
  | getc => exact Stream.WriteOnly.of_way h hw
  | fread size count => exact Stream.WriteOnly.of_way h hw

/-- In every state of a stream opened in one direction, a call in the other
direction is refused exactly when it is harmless. -/
theorem run_refused_iff (d : Fd) (o : Os) (f : Stream) (cs : List StreamCall) (c : Against)
    (hf : c.Opposes f) (hv : c.Valid) (g : Stream)
    (hexec : Runs.exec (Stream.call d o) f cs = .ok g) : Refused d o g c ↔ Harmless d g c := by
  have hrw : f.flag.rw = false := by
    cases c with
    | putc x => exact hf.rw
    | fwrite data size count => exact hf.rw
    | fprintf localbuf text => exact hf.rw
    | getc => exact hf.rw
    | fread size count => exact hf.rw
  have hg := opposes_of_way hf (exec_way hrw hexec)
  cases c with
  | putc x => exact putc_refused_iff hg x
  | fwrite data size count => exact fwrite_refused_iff hg hv.1 hv.2.1 hv.2.2
  | fprintf localbuf text => exact fprintf_refused_iff hg localbuf text
  | getc => exact getc_refused_iff hg
  | fread size count => exact fread_refused_iff hg hv.1 hv.2

/-- At the end of the file nothing is buffered. -/
theorem run_refused_iff_end :
    Refused sampleFd sampleOs
      (endOf (sampleInput [97]) (Runs.exec (Stream.call sampleFd sampleOs) (sampleInput [97])
        [.input (.read .getc), .input (.read .getc)])) (.fwrite [98, 10] 1 2) :=
  (run_refused_iff sampleFd sampleOs (sampleInput [97])
    [.input (.read .getc), .input (.read .getc)] (.fwrite [98, 10] 1 2) ⟨rfl, rfl, rfl, rfl⟩
    (by decide +kernel) _ (by rfl)).mpr (by decide +kernel)

/-- After one character of two `putc` overwrites the other. -/
theorem putc_on_input :
    Against.Opposes (sampleInput [97, 98]) (.putc 99) ∧
      ¬ Refused sampleFd sampleOs
        (endOf (sampleInput [97, 98]) (Runs.exec (Stream.call sampleFd sampleOs)
          (sampleInput [97, 98]) [.input (.read .getc)])) (.putc 99) := by
  refine ⟨⟨rfl, rfl, rfl, rfl⟩, ?_⟩
  rintro ⟨hr, -⟩
  revert hr
  decide +kernel

end DjgppLibc.Stdio
