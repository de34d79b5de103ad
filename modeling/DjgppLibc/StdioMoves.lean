import DjgppLibc.StdioGetcs

/-!
# What a call does to the flags and to the buffer

The part of a stream that decides which way it goes and who owns its buffer
changes in few ways: an update stream is turned, a missing buffer is allocated
or found to be impossible, and the buffer of an unbuffered stream is dropped.
Every call but `setvbuf` is a sequence of such moves, so a property of that part
needs to be proved of the moves only.
-/
namespace DjgppLibc.Stdio
open ByteMemory

variable {d : Fd} {o : Os} {f f' g q : Stream} {c : ℤ} {x : UInt8} {data xs t : List UInt8}
  {n s size count : ℕ}

structure Core where
  read : Bool
  wrt : Bool
  rw : Bool
  strg : Bool
  mybuf : Bool
  nbf : Bool
  base : ℕ
  freed : List ℕ
  allocated : List ℕ

def Stream.core (f : Stream) : Core :=
  ⟨f.flag.read, f.flag.wrt, f.flag.rw, f.flag.strg, f.flag.mybuf, f.flag.nbf, f.base, f.freed,
    f.allocated⟩

inductive Core.Move (k : Core) : Core → Prop
  | turn (hrw : k.rw = true) (read wrt : Bool) : Move k { k with read := read, wrt := wrt }
  | allocate (h0 : k.base = 0) (hn : k.nbf = false) (a : ℕ) (ha : a ≠ 0) :
      Move k { k with base := a, mybuf := true, allocated := a :: k.allocated }
  | refuse (h0 : k.base = 0) : Move k { k with nbf := true }
  | drop (hn : k.nbf = true) : Move k { k with base := 0 }

def Moves (f f' : Stream) : Prop := Relation.ReflTransGen Core.Move f.core f'.core

theorem Moves.of_core (h : f'.core = f.core) : Moves f f' := by
  unfold Moves
  rw [h]

theorem Moves.single (h : f.core.Move f'.core) : Moves f f' := Relation.ReflTransGen.single h

theorem Moves.move {k : Core} (h : f.core.Move k) (hk : f'.core = k) : Moves f f' :=
  .single (hk ▸ h)

theorem Moves.trans (h : Moves f g) (h' : Moves g f') : Moves f f' :=
    Relation.ReflTransGen.trans h h'

theorem Moves.refl (f : Stream) : Moves f f := Relation.ReflTransGen.refl

theorem Moves.keeps {P : Core → Prop} (hP : ∀ k k', k.Move k' → P k → P k') (h : Moves f f')
    (hf : P f.core) : P f'.core := by
  unfold Moves at h
  generalize f'.core = k at h
  induction h with
  | refl => exact hf
  | tail _ hmove ih => exact hP _ _ hmove ih

theorem lseek_core (offset : ℤ) (whence : Whence) :
    (lseek d f offset whence).1.core = f.core := by
  unfold lseek
  dsimp only
  split_ifs <;> rfl

theorem write_core (f : Stream) (data : List UInt8) : (write o f data).1.core = f.core := by
  unfold write
  dsimp only
  split_ifs <;> rfl

theorem writeAll_core (seek : Bool) (fuel : ℕ) (data : List UInt8) (f : Stream) :
    (writeAll d o seek fuel data f).1.core = f.core := by
  induction fuel generalizing data f with
  | zero => rfl
  | succ fuel ih =>
      have hstart : (if seek ∧ d.append then lseek d f 0 .fromEnd else (f, 0)).1.core = f.core := by
        split_ifs
        · exact lseek_core 0 .fromEnd
        · rfl
      unfold writeAll
      obtain ⟨⟨g, p⟩, hg⟩ : ∃ r, r = if seek ∧ d.append then lseek d f 0 .fromEnd else (f, 0) :=
        ⟨_, rfl⟩
      rw [← hg] at hstart ⊢
      dsimp only at hstart ⊢
      split_ifs
      · rfl
      · exact hstart
      · exact (write_core g data).trans hstart
      · exact (ih _ _).trans ((write_core g data).trans hstart)

theorem allocOut_moves (h0 : f.base = 0) (hn : (!f.flag.nbf) = true) :
    Moves f (allocOut d o f) := by
  unfold allocOut
  dsimp only
  split_ifs with ha
  · exact .single (.refuse h0)
  · exact .single (.allocate h0 ((Bool.not_eq_true' _).mp hn) _ ha)

theorem flsbufPut_core : (flsbufPut d o c f).1.core = f.core := by
  unfold flsbufPut
  dsimp only
  split_ifs
  all_goals first | rfl | exact writeAll_core _ _ _ _

theorem turn_moves (f : Stream) : Moves f (if f.flag.rw then
    { f with flag := { f.flag with wrt := true, eof := false, read := false } } else f) := by
  split_ifs with hrw
  · exact .single (.turn hrw false true)
  · exact .refl f

theorem flsbuf_moves (c : ℤ) (f : Stream) : Moves f (flsbuf d o c f).1 := by
  have hturn := turn_moves f
  unfold flsbuf
  obtain ⟨g, hg⟩ : ∃ g, g = if f.flag.rw then
    { f with flag := { f.flag with wrt := true, eof := false, read := false } } else f := ⟨_, rfl⟩
  rw [← hg] at hturn ⊢
  dsimp only
  split_ifs with _ _ h0
  · exact hturn
  · exact hturn
  · exact (hturn.trans (allocOut_moves h0.1 h0.2)).trans (.of_core flsbufPut_core)
  · exact hturn.trans (.of_core flsbufPut_core)

theorem putcRaw_moves (x : UInt8) (f : Stream) : Moves f (putcRaw d o x f).1 := by
  unfold putcRaw
  split_ifs
  · exact .of_core rfl
  · exact flsbuf_moves _ f

theorem putc_moves (x : UInt8) (f : Stream) : Moves f (putc d o x f).1 := by
  unfold putc
  split_ifs
  · exact (putcRaw_moves CR f).trans (putcRaw_moves x _)
  · exact putcRaw_moves x f

theorem putcs_moves (data : List UInt8) (f : Stream) : Moves f (putcs d o data f) := by
  induction data generalizing f with
  | nil => exact .refl f
  | cons x xs ih => exact (putc_moves x f).trans (ih _)

theorem emitLine_moves (fast : Bool) (x : UInt8) (c : ℤ) (f : Stream) :
    Moves f (emitLine d o fast x c f).1 := by
  unfold emitLine
  dsimp only
  split_ifs
  · exact .of_core rfl
  · exact flsbuf_moves c { f with cnt := f.cnt - 1 }

theorem emitFull_moves (x : UInt8) (f : Stream) : Moves f (emitFull d o x f).1 := by
  unfold emitFull
  dsimp only
  split_ifs
  · exact .of_core rfl
  · exact flsbuf_moves (uchar x) { f with cnt := f.cnt - 1 }

theorem fwriteLine_moves (xs : List UInt8) (f : Stream) : Moves f (fwriteLine d o xs f).1 := by
  induction xs generalizing f with
  | nil => exact .refl f
  | cons x xs ih =>
      have h₁ : Moves f (emitLine d o (x ≠ LF) x (char x) f).1 := emitLine_moves _ _ _ _
      unfold fwriteLine
      dsimp only
      split_ifs
      · exact h₁
      · exact h₁.trans (ih _)

theorem fwriteBlock_moves (fuel : ℕ) (xs : List UInt8) (f : Stream) :
    Moves f (fwriteBlock d o fuel xs f).1 := by
  induction fuel generalizing f xs with
  | zero => exact .refl f
  | succ fuel ih =>
      have hput : ∀ (y : UInt8) (ys : List UInt8) (g : Stream), Moves f g →
          Moves f (if (flsbuf d o (uchar y) g).2 = EOF then ((flsbuf d o (uchar y) g).1, y :: ys)
            else if (ys.length : ℤ) ≤ (flsbuf d o (uchar y) g).1.cnt then
              ({ (flsbuf d o (uchar y) g).1 with
                cnt := (flsbuf d o (uchar y) g).1.cnt - ys.length }.store ys, [])
            else fwriteBlock d o fuel ys (flsbuf d o (uchar y) g).1).1 := by
        intro y ys g hg
        have h₁ := hg.trans (flsbuf_moves (d := d) (o := o) (uchar y) g)
        split_ifs
        · exact h₁
        · exact h₁.trans (.of_core rfl)
        · exact h₁.trans (ih _ _)
      unfold fwriteBlock
      split_ifs with h₁ h₂ h₃
      · exact .refl f
      · dsimp only
        cases xs.drop f.cnt.toNat with
        | nil => exact .of_core rfl
        | cons y ys => exact hput y ys _ (.of_core rfl)
      · dsimp only
        cases xs with
        | nil => exact .refl f
        | cons y ys => exact hput y ys f (.refl f)
      · exact .of_core rfl

theorem fwriteTextLine_moves (xs : List UInt8) (f : Stream) :
    Moves f (fwriteTextLine d o xs f).1 := by
  induction xs generalizing f with
  | nil => exact .refl f
  | cons x xs ih =>
      have hstart : Moves f (if x = LF then emitLine d o true CR (uchar CR) f else (f, 0)).1 := by
        split_ifs
        · exact emitLine_moves _ _ _ _
        · exact .refl f
      unfold fwriteTextLine
      obtain ⟨⟨g, r⟩, hg⟩ : ∃ r, r = if x = LF then emitLine d o true CR (uchar CR) f else (f, 0) :=
        ⟨_, rfl⟩
      rw [← hg] at hstart ⊢
      dsimp only at hstart ⊢
      have h₁ : Moves f (emitLine d o (x ≠ LF) x (uchar x) g).1 :=
        hstart.trans (emitLine_moves _ _ _ _)
      split_ifs
      · exact hstart
      · exact h₁
      · exact h₁.trans (ih _)

theorem fwriteText_moves (xs : List UInt8) (f : Stream) : Moves f (fwriteText d o xs f).1 := by
  induction xs generalizing f with
  | nil => exact .refl f
  | cons x xs ih =>
      have hstart : Moves f (if x = LF then emitFull d o CR f else (f, 0)).1 := by
        split_ifs
        · exact emitFull_moves _ _
        · exact .refl f
      unfold fwriteText
      obtain ⟨⟨g, r⟩, hg⟩ : ∃ r, r = if x = LF then emitFull d o CR f else (f, 0) := ⟨_, rfl⟩
      rw [← hg] at hstart ⊢
      dsimp only at hstart ⊢
      have h₁ : Moves f (emitFull d o x g).1 := hstart.trans (emitFull_moves _ _)
      split_ifs
      · exact hstart
      · exact h₁
      · exact h₁.trans (ih _)

theorem fwrite_moves (data : List UInt8) (size count : ℕ) (f : Stream) :
    Moves f (fwrite d o data size count f).1 := by
  unfold fwrite
  dsimp only
  split_ifs
  · exact fwriteLine_moves _ f
  · exact fwriteBlock_moves _ _ f
  · exact fwriteTextLine_moves _ f
  · exact fwriteText_moves _ f

theorem fflushBuffer_core : (fflushBuffer d o f).1.core = f.core := by
  unfold fflushBuffer
  split_ifs
  · exact writeAll_core _ _ _ _
  · exact writeAll_core _ _ _ _
  · rfl

theorem fflush_core (f : Stream) :
    (fflush d o f).1.core = f.core ∨
      f.flag.rw = true ∧ (fflush d o f).1.core = { f.core with read := false, wrt := false } := by
  have hstart : (if d.append then lseek d f 0 .fromEnd else (f, 0)).1.core = f.core := by
    split_ifs
    · exact lseek_core 0 .fromEnd
    · rfl
  unfold fflush
  obtain ⟨⟨g, p⟩, hg⟩ : ∃ r, r = if d.append then lseek d f 0 .fromEnd else (f, 0) := ⟨_, rfl⟩
  rw [← hg] at hstart ⊢
  have h₁ : (fflushBuffer d o g.clearUngetc).1.core = f.core := fflushBuffer_core.trans hstart
  dsimp only at hstart ⊢
  split_ifs with _ _ hrw
  · exact .inl hstart
  · exact .inl h₁
  · refine .inr ⟨(congrArg Core.rw h₁).symm.trans hrw, ?_⟩
    rw [← h₁]
    rfl
  · exact .inl h₁

theorem fflush_moves (f : Stream) : Moves f (fflush d o f).1 := by
  rcases fflush_core (d := d) (o := o) f with h | ⟨hrw, h⟩
  · exact .of_core h
  · exact .move (.turn hrw false false) h

theorem ftell_core : (ftell d f).1.core = f.core := by
  unfold ftell
  dsimp only
  split_ifs
  all_goals first | rfl | exact lseek_core 0 .cur

theorem seekSlow_moves (offset : ℤ) (whence : Whence) (f : Stream) :
    Moves f (seekSlow d offset whence f).1 := by
  unfold seekSlow
  dsimp only
  split_ifs with hrw
  all_goals refine Moves.trans ?_ (.of_core (lseek_core offset whence))
  · exact .single (.turn hrw false f.flag.wrt)
  · exact .refl f

theorem fseek_moves (offset : ℤ) (whence : Whence) (f : Stream) :
    Moves f (fseek d o offset whence f).1 := by
  unfold fseek
  split_ifs with hd
  · exact .refl f
  refine Moves.trans (g := f.restarted) (.of_core rfl) ?_
  generalize f.restarted = g
  dsimp only
  by_cases hr : g.flag.read = true
  · have hstart : (if g.base ≠ 0 ∧ !g.flag.nbf then ftell d g else (g, -1)).1.core = g.core := by
      split_ifs
      · exact ftell_core
      · rfl
    obtain ⟨⟨h, p⟩, hh⟩ : ∃ r, r = if g.base ≠ 0 ∧ !g.flag.nbf then ftell d g else (g, -1) :=
      ⟨_, rfl⟩
    obtain ⟨⟨offset', whence'⟩, hoff⟩ : ∃ r, r =
      if (g.base ≠ 0 ∧ !g.flag.nbf) ∧ whence = .cur then (offset + p, Whence.set)
      else (offset, whence) := ⟨_, rfl⟩
    rw [if_pos hr]
    rw [← hh] at hstart ⊢
    dsimp only at hstart ⊢
    rw [← hoff]
    dsimp only
    refine (Moves.of_core hstart).trans ?_
    by_cases hin : (g.base ≠ 0 ∧ (!g.flag.nbf) = true) ∧ whence' = .set ∧
        (!(h.flag.ungetc || h.flag.rw)) = true ∧ p - offset' ≤ (h.ptr : ℤ) - h.base ∧
        offset' - p ≤ h.cnt
    · rw [if_pos hin]
      exact .of_core rfl
    · rw [if_neg hin]
      exact seekSlow_moves offset' whence' h
  · rw [if_neg hr]
    by_cases hw : (g.flag.wrt || g.flag.rw) = true
    · rw [if_pos hw]
      exact (fflush_moves g).trans (.of_core (lseek_core offset whence))
    · rw [if_neg hw]
      exact .refl g

theorem read_core (a size : ℕ) : (read o f a size).1.core = f.core := by
  unfold read
  dsimp only
  split_ifs <;> rfl

theorem fill_core : (fill d o n f).core = f.core := by
  have h₁ : (read o f f.base n).1.core = f.core := read_core _ _
  unfold fill
  dsimp only
  split_ifs
  · exact (lseek_core _ _).trans h₁
  · exact h₁

theorem provide_moves (f : Stream) : Moves f (provide o f.clearUngetc) := by
  unfold provide allocIn
  dsimp only
  split_ifs with hb ha
  · refine .move (.refuse hb.1) ?_
    rw [ha]
    simp [Stream.core, Stream.clearUngetc, show f.base = 0 from hb.1]
  · exact .single (.allocate hb.1 ((Bool.not_eq_true' _).mp hb.2) _ ha)
  · exact .of_core rfl

theorem prepare_core (f : Stream) :
    (prepare o f).core =
      { (provide o f.clearUngetc).core with
        base := if (provide o f.clearUngetc).flag.nbf then o.cell
          else (provide o f.clearUngetc).base } := by
  unfold prepare Stream.limited Stream.atCell
  generalize provide o f.clearUngetc = g
  cases hn : g.flag.nbf with
  | true => split_ifs <;> simp [Stream.core, hn]
  | false => split_ifs <;> simp_all [Stream.core]

theorem deliver_moves {k : Stream} (hq : q.core = { k.core with base := n })
    (hn : k.flag.nbf = false → n = k.base) : Moves k (deliver q).1 := by
  unfold deliver
  obtain ⟨g, hg⟩ : ∃ g : Stream, g =
    if q.fillsize < q.bufsiz then { q with fillsize := q.fillsize * 2 } else q := ⟨_, rfl⟩
  have hcore : g.core = { k.core with base := n } := by
    rw [hg, ← hq]
    split_ifs <;> rfl
  have hnbf : g.flag.nbf = k.flag.nbf := congrArg Core.nbf hcore
  rw [← hg]
  dsimp only
  obtain ⟨h, hh⟩ : ∃ h : Stream, h =
    if g.flag.nbf then { g with ptr := g.base, cnt := g.cnt - 1, base := 0 }
    else { g with ptr := g.base, cnt := g.cnt - 1 } := ⟨_, rfl⟩
  have hdrop : Moves k h := by
    rw [hh]
    split_ifs with hb
    · refine .move (.drop (hnbf.symm.trans hb)) ?_
      have hcore' := congrArg (fun c : Core => { c with base := 0 }) hcore
      exact hcore'
    · refine .of_core ?_
      have hn' := hn (hnbf.symm.trans (by simpa using hb))
      rw [hn'] at hcore
      exact hcore
  rw [← hh]
  refine hdrop.trans ?_
  by_cases hc : h.cnt < 0
  · rw [if_pos hc]
    by_cases he : h.cnt = -1
    · rw [if_pos he]
      by_cases hrw : h.flag.rw = true
      · exact .single (.turn hrw (h.flag.read && !h.flag.rw) h.flag.wrt)
      · refine .of_core ?_
        simp [Stream.core, hrw]
    · rw [if_neg he]
      exact .of_core rfl
  · rw [if_neg hc]
    exact .of_core rfl

theorem filbuf_moves (f : Stream) : Moves f (filbuf d o f).1 := by
  have hturn : Moves f f.reading := by
    rw [← reading_eq]
    split_ifs with hrw
    · exact .single (.turn hrw true f.flag.wrt)
    · exact .refl f
  by_cases hr : f.reading.flag.read = true
  · by_cases hs : (f.reading.flag.strg || f.reading.flag.eof) = true
    · unfold filbuf
      simp only [reading_eq]
      rw [if_neg (by simp [hr]), if_pos hs]
      exact hturn
    · rw [filbuf_open hr (by simpa using hs)]
      generalize f.reading = g at hturn
      refine hturn.trans ((provide_moves (o := o) g).trans ?_)
      obtain ⟨q, hq⟩ : ∃ q, q = fill d o (prepare o g).wanted (prepare o g) := ⟨_, rfl⟩
      have hcore : q.core = { (provide o g.clearUngetc).core with
          base := if (provide o g.clearUngetc).flag.nbf then o.cell
            else (provide o g.clearUngetc).base } := by
        rw [hq, fill_core, prepare_core]
      rw [← hq]
      exact deliver_moves hcore fun hn => if_neg (by simp [hn])
  · unfold filbuf
    simp only [reading_eq]
    rw [if_pos (by simpa using hr)]
    exact hturn

theorem getcRaw_moves (f : Stream) : Moves f (getcRaw d o f).1 := by
  unfold getcRaw
  split_ifs
  · exact .of_core rfl
  · exact filbuf_moves f

theorem getc_moves (f : Stream) : Moves f (getc d o f).1 := by
  unfold getc
  dsimp only
  split_ifs
  · exact (getcRaw_moves f).trans (getcRaw_moves _)
  · exact getcRaw_moves f

theorem ungetc_core : (ungetc c f).1.core = f.core := by
  unfold ungetc
  dsimp only
  split_ifs <;> rfl

theorem skim_core (stop : Bool) (fuel : ℕ) : (skim stop fuel s t f).1.core = f.core := by
  induction fuel generalizing f s t with
  | zero => rfl
  | succ fuel ih =>
      unfold skim
      dsimp only
      split_ifs
      · exact ih
      · exact ih
      · rfl

theorem freadBlock_moves (fuel s : ℕ) (t : List UInt8) (f : Stream) :
    Moves f (freadBlock d o fuel s t f).1 := by
  induction fuel generalizing f s t with
  | zero => exact .refl f
  | succ fuel ih =>
      have h₁ : Moves f (filbuf d o f).1 := filbuf_moves f
      unfold freadBlock
      dsimp only
      split_ifs
      all_goals first
        | exact .of_core rfl
        | exact h₁
        | exact h₁.trans (ih _ _ _)

theorem textFill_moves (s : ℕ) (t : List UInt8) (f : Stream) : Moves f (textFill d o s t f).1 := by
  have h₁ : Moves f (filbuf d o (skim false f.cnt.toNat s t f).1).1 :=
    (Moves.of_core (skim_core _ _)).trans (filbuf_moves _)
  unfold textFill
  dsimp only
  split_ifs
  · exact h₁
  · exact h₁

theorem freadText_moves (fuel s : ℕ) (t : List UInt8) (f : Stream) :
    Moves f (freadText d o fuel s t f).1 := by
  induction fuel generalizing f s t with
  | zero => exact .refl f
  | succ fuel ih =>
      by_cases hs : s = 0
      · rw [freadText, if_pos hs]
        exact .refl f
      · have h₁ : Moves f (if f.cnt < s then textFill d o s t f else (f, t, s, 0)).1 := by
          split_ifs
          · exact textFill_moves s t f
          · exact .refl f
        rw [freadText_succ fuel hs]
        obtain ⟨⟨g, t', s', c⟩, hg⟩ : ∃ r, r =
          if f.cnt < s then textFill d o s t f else (f, t, s, 0) := ⟨_, rfl⟩
        rw [← hg] at h₁ ⊢
        have h₂ : Moves f (textTake s' t' g).1 := by
          unfold textTake
          split_ifs
          · exact h₁.trans (.of_core (skim_core _ _))
          · exact h₁
        dsimp only
        split_ifs
        · exact h₁
        · exact h₂.trans (ih _ _ _)

theorem fread_moves (size count : ℕ) (f : Stream) : Moves f (fread d o size count f).1 := by
  rw [fread_eq]
  split_ifs
  · exact .of_core rfl
  · refine Moves.trans (g := f.grown (size * count)) (.of_core rfl) ?_
    unfold freadLoop
    dsimp only
    split_ifs
    · exact freadBlock_moves _ _ _ _
    · exact freadText_moves _ _ _ _

end DjgppLibc.Stdio
