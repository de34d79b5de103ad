import DjgppLibc.StdioOutput

/-!
# The loops of fwrite

Each loop keeps the stream ready, whatever the system answers. If no write
fails, three of the four loops write everything. The fourth, for binary line
buffered streams, passes a plain `char` to `_flsbuf` and takes the byte 255 for
a failure when it falls on the last free place of the buffer; `Stops` says when
that happens.
-/
namespace DjgppLibc.Stdio
open ByteMemory

variable {d : Fd} {o : Os} {f : Stream} {c : ℤ} {x : UInt8} {data xs : List UInt8} {fast : Bool}

/-- What a loop of `fwrite` does if no write fails: everything goes into the log,
and a stream that is written to is open for output. -/
structure Wrote (text : Bool) (xs : List UInt8) (f : Stream) (r : Stream × List UInt8) : Prop where
  done : r.2 = []
  log : r.1.log = f.log ++ encode text xs
  wrt : f.flag.wrt = true ∨ xs ≠ [] → r.1.flag.wrt = true

theorem emitFull_spec (h : f.Ready) :
    (emitFull d o x f).1.Ready ∧ (emitFull d o x f).1.flag.wrt = true ∧
      (o.Writes d → (emitFull d o x f).2 ≠ EOF ∧ (emitFull d o x f).1.log = f.log ++ [x]) := by
  unfold emitFull
  dsimp only
  split_ifs with hc
  · obtain ⟨-, -, hw, -⟩ := h.room (by omega)
    obtain ⟨h₁, h₂⟩ := h.put [x] (by omega) (by simp only [List.length_singleton]; omega)
    exact ⟨h₁, hw, fun _ => ⟨(by decide : (0 : ℤ) ≠ EOF), h₂⟩⟩
  · have ht := flsbuf_took_cnt (d := d) (o := o) (c := uchar x) h.sound (f.cnt - 1)
    refine ⟨ht.ready, ht.wrt, fun hos => ?_⟩
    obtain ⟨h₁, h₂⟩ := ht.sends hos
    refine ⟨?_, by rw [h₂, toByte_uchar]⟩
    rw [h₁]
    exact uchar_ne_EOF x

theorem fwriteText_spec (xs : List UInt8) (h : f.Ready) :
    (fwriteText d o xs f).1.Ready ∧ (o.Writes d → Wrote true xs f (fwriteText d o xs f)) := by
  induction xs generalizing f with
  | nil =>
      exact ⟨h, fun _ => ⟨rfl, by simp [fwriteText, encode], fun hw => hw.resolve_right (by simp)⟩⟩
  | cons x xs ih =>
      rw [fwriteText]
      -- the carriage return first
      obtain ⟨g, r, hg, hG, hglog⟩ : ∃ g r,
          (if x = LF then emitFull d o CR f else (f, 0)) = (g, r) ∧ g.Ready ∧
            (o.Writes d → r ≠ EOF ∧ g.log = f.log ++ if x = LF then [CR] else []) := by
        split_ifs with hx
        · obtain ⟨h₁, -, h₃⟩ := emitFull_spec (d := d) (o := o) (x := CR) h
          exact ⟨_, _, rfl, h₁, h₃⟩
        · exact ⟨f, 0, rfl, h, fun _ => ⟨by decide, by simp⟩⟩
      rw [hg]
      dsimp only
      obtain ⟨h₁, h₂, h₃⟩ := emitFull_spec (d := d) (o := o) (x := x) hG
      obtain ⟨i₁, i₂⟩ := ih h₁
      split_ifs with hr hr'
      · exact ⟨hG, fun hos => absurd hr (hglog hos).1⟩
      · exact ⟨h₁, fun hos => absurd hr' (h₃ hos).1⟩
      · refine ⟨i₁, fun hos => ⟨(i₂ hos).done, ?_, fun _ => (i₂ hos).wrt (.inl h₂)⟩⟩
        rw [(i₂ hos).log, (h₃ hos).2, (hglog hos).2]
        by_cases hx : x = LF <;> simp [encode, hx]

variable (data) in
/-- A copy that fits into the free places, an empty one included. -/
theorem Stream.Ready.copy (h : f.Ready) (hlen : (data.length : ℤ) ≤ f.cnt) :
    ({ f with cnt := f.cnt - data.length }.store data).Ready ∧
      ({ f with cnt := f.cnt - data.length }.store data).log = f.log ++ data := by
  by_cases hd : data = []
  · subst hd
    obtain ⟨g, hg⟩ : ∃ g, g = { f with cnt := f.cnt - ([] : List UInt8).length }.store [] :=
      ⟨_, rfl⟩
    have hcnt : g.cnt = f.cnt := by
      rw [hg, store_cnt]
      simp
    have hst : ∀ e ∈ g.stores, e.Inside := by
      rw [hg]
      intro e he
      rcases List.mem_cons.mp he with rfl | he
      · exact .inl rfl
      · exact h.sound.inside e he
    have hS : g.Sound := ⟨hg ▸ h.sound.output, hg ▸ h.sound.noread, hg ▸ h.sound.nostrg,
      hg ▸ h.sound.nbf, hg ▸ h.sound.lbf, hg ▸ h.sound.buffer, hst⟩
    rw [← hg]
    refine ⟨⟨hS, ?_, ?_, ?_⟩, ?_⟩
    · rw [hcnt]
      exact hg ▸ h.line
    · rw [hcnt]
      exact hg ▸ h.full
    · rw [hcnt]
      exact hg ▸ h.idle
    · rw [List.append_nil]
      exact hg ▸ rfl
  · have := List.length_pos_iff.mpr hd
    exact h.put _ (by omega) hlen

/-- `_flsbuf` on the next byte and the copy of what then fits. -/
theorem fwriteBlock_spec (fuel : ℕ) (xs : List UInt8) (h : f.Ready) (hfuel : xs.length ≤ fuel) :
    (fwriteBlock d o fuel xs f).1.Ready ∧
      (o.Writes d → Wrote false xs f (fwriteBlock d o fuel xs f)) := by
  induction fuel generalizing xs f with
  | zero =>
      obtain rfl := List.length_eq_zero_iff.mp (Nat.le_zero.mp hfuel)
      exact ⟨h, fun _ => ⟨rfl, by simp [fwriteBlock], fun hw => hw.resolve_right (by simp)⟩⟩
  | succ fuel ih =>
      rw [fwriteBlock]
      by_cases hxs : xs = []
      · rw [if_pos hxs]
        subst hxs
        exact ⟨h, fun _ => ⟨rfl, by simp, fun hw => hw.resolve_right (by simp)⟩⟩
      rw [if_neg hxs]
      have hlen := List.length_pos_iff.mpr hxs
      by_cases hc : f.cnt < xs.length
      swap
      · rw [if_neg hc]
        obtain ⟨h₁, h₂⟩ := h.copy xs (by omega)
        obtain ⟨-, -, hw, -⟩ := h.room (by omega)
        exact ⟨h₁, fun _ => ⟨rfl, by rw [encode_false]; exact h₂, fun _ => hw⟩⟩
      rw [if_pos hc]
      -- fill the buffer up
      obtain ⟨g, n, hg, hS, hn, hlog⟩ : ∃ (g : Stream) (n : ℕ),
          (if 0 < f.cnt then (f.store (xs.take f.cnt.toNat), xs.drop f.cnt.toNat) else (f, xs)) =
            (g, xs.drop n) ∧ g.Sound ∧ n < xs.length ∧ g.log = f.log ++ xs.take n := by
        split_ifs with hpos
        · obtain ⟨hb, hl, -, hroom⟩ := h.room hpos
          refine ⟨_, f.cnt.toNat, rfl, h.sound.store hb ?_ ?_, by omega, log_store h.sound hb⟩
          · rw [List.length_take]
            omega
          · exact fun hl' => absurd (hl'.symm.trans hl) (by decide)
        · exact ⟨f, 0, rfl, h.sound, hlen, by simp⟩
      rw [hg]
      dsimp only
      cases hd : xs.drop n with
      | nil =>
          have := congrArg List.length hd
          rw [List.length_drop, List.length_nil] at this
          omega
      | cons x rest =>
          have hsplit : xs = xs.take n ++ x :: rest := by rw [← hd, List.take_append_drop]
          have hrest : rest.length < xs.length := by
            have := congrArg List.length hd
            rw [List.length_drop, List.length_cons] at this
            omega
          dsimp only
          have ht := flsbuf_took (d := d) (o := o) (c := uchar x) hS
          have hlog' : o.Writes d → (flsbuf d o (uchar x) g).1.log =
              f.log ++ (xs.take n ++ [x]) := by
            intro hos
            rw [(ht.sends hos).2, toByte_uchar, hlog, List.append_assoc]
          split_ifs with hr hfit
          · exact ⟨ht.ready, fun hos => absurd ((ht.sends hos).1.symm.trans hr) (uchar_ne_EOF x)⟩
          · obtain ⟨h₁, h₂⟩ := ht.ready.copy _ hfit
            refine ⟨h₁, fun hos => ⟨rfl, ?_, fun _ => ht.wrt⟩⟩
            rw [encode_false]
            refine h₂.trans ?_
            rw [hlog' hos, List.append_assoc, List.append_assoc]
            exact congrArg (f.log ++ ·) hsplit.symm
          · obtain ⟨i₁, i₂⟩ := ih rest ht.ready (by omega)
            refine ⟨i₁, fun hos => ⟨(i₂ hos).done, ?_, fun _ => (i₂ hos).wrt (.inl ht.wrt)⟩⟩
            rw [(i₂ hos).log, encode_false, encode_false, hlog' hos, List.append_assoc,
              List.append_assoc]
            exact congrArg (f.log ++ ·) hsplit.symm

theorem emitLine_fast (h : f.Ready) (hl : f.flag.lbf = true) (hroom : f.level + 1 < f.bufsiz) :
    ∃ g, emitLine d o true x c f = (g, 0) ∧ g.Ready ∧ f.Kept g ∧ g.level = f.level + 1 ∧
      g.log = f.log ++ [x] ∧ g.flag.wrt = f.flag.wrt ∧ g.sent = f.sent := by
  obtain ⟨hb, -⟩ := h.sound.lbf hl
  have hcnt := h.line hl
  obtain ⟨g, hg⟩ : ∃ g, g = ({ f with cnt := f.cnt - 1 } : Stream) := ⟨_, rfl⟩
  have hS : g.Sound := hg ▸ ⟨h.sound.output, h.sound.noread, h.sound.nostrg, h.sound.nbf,
    h.sound.lbf, h.sound.buffer, h.sound.inside⟩
  have hgb : g.base ≠ 0 := hg ▸ hb
  have hgl : g.flag.lbf = true := hg ▸ hl
  have hlev : g.level = f.level := hg ▸ rfl
  have hbuf : g.bufsiz = f.bufsiz := hg ▸ rfl
  have hgc : g.cnt = f.cnt - 1 := hg ▸ rfl
  have hnot : ∀ {P : Prop}, g.flag.lbf = false → P := fun hl' =>
    absurd (hgl.symm.trans hl') (by decide)
  refine ⟨g.store [x], ?_, ⟨hS.store hgb ?_ (fun _ => ?_), fun _ => ?_, hnot, hnot⟩,
    hg ▸ ⟨rfl, rfl, rfl, rfl, rfl⟩, ?_, ?_, hg ▸ rfl, hg ▸ rfl⟩
  · unfold emitLine
    dsimp only
    rw [if_pos ⟨by omega, rfl⟩, hg]
  · rw [List.length_singleton]
    omega
  · rw [List.length_singleton]
    omega
  · rw [level_store hS hgb, store_cnt, List.length_singleton]
    omega
  · rw [level_store hS hgb, hlev, List.length_singleton]
  · rw [log_store hS hgb]
    exact congrArg (· ++ [x]) (hg ▸ rfl)

variable (fast) in
theorem emitLine_slow (h : f.Ready) (hl : f.flag.lbf = true)
    (hs : fast = false ∨ f.bufsiz ≤ f.level + 1) :
    Took d o c f (emitLine d o fast x c f) := by
  have hcnt := h.line hl
  unfold emitLine
  dsimp only
  rw [if_neg]
  · exact flsbuf_took_cnt h.sound _
  · rintro ⟨h₁, h₂⟩
    rcases hs with hs | hs
    · rw [hs] at h₂
      exact absurd h₂ (by decide)
    · omega

/-- The number of pending characters after `x` is written. -/
def nextLevel (bufsiz level : ℕ) (x : UInt8) : ℕ :=
  if x = LF ∨ bufsiz ≤ level + 1 then 0 else level + 1

/-- Some byte 255 is written when the buffer has one free place left. -/
def Stops (bufsiz : ℕ) : ℕ → List UInt8 → Prop
  | _, [] => False
  | level, x :: xs => x = 255 ∧ bufsiz ≤ level + 1 ∨ Stops bufsiz (nextLevel bufsiz level x) xs

instance (bufsiz : ℕ) : ∀ level xs, Decidable (Stops bufsiz level xs)
  | _, [] => inferInstanceAs (Decidable False)
  | level, x :: xs =>
      have := instDecidableStops bufsiz (nextLevel bufsiz level x) xs
      inferInstanceAs (Decidable (_ ∧ _ ∨ Stops bufsiz _ xs))

theorem char_eq_LF : char x = 10 ↔ x = LF := by
  have := x.toNat_lt
  rw [← UInt8.toNat_inj, show LF.toNat = 10 from rfl]
  unfold char
  split_ifs <;> omega

theorem char_eq_EOF : char x = EOF ↔ x = 255 := by
  have := x.toNat_lt
  rw [← UInt8.toNat_inj, show (255 : UInt8).toNat = 255 from rfl]
  unfold char EOF
  split_ifs
  · exact iff_of_false id (by omega)
  · omega

/-- What a line buffering loop does when it is not stopped. The stream is opened
for output by the first call of `_flsbuf`, if there is one. -/
structure WroteLines (text : Bool) (xs : List UInt8) (f : Stream) (r : Stream × List UInt8) :
    Prop where
  done : r.2 = []
  log : r.1.log = f.log ++ encode text xs
  wrt : r.1.flag.wrt = true ↔ f.flag.wrt = true ∨ LF ∈ xs ∨ f.bufsiz ≤ f.level + xs.length
  sent : r.1.flag.wrt = false → r.1.sent = f.sent

theorem wroteLines_nil (text : Bool) (h : f.Ready) (hl : f.flag.lbf = true) :
    WroteLines text [] f (f, []) := by
  obtain ⟨hb, hlt⟩ := h.sound.lbf hl
  have hlev := Stream.level_eq hb
  refine ⟨rfl, by simp [encode], ?_, fun _ => rfl⟩
  simp only [List.not_mem_nil, List.length_nil, false_or]
  constructor
  · exact .inl
  · rintro (hw | hle)
    · exact hw
    · obtain ⟨-, -, -, h₄, -⟩ := h.sound.buffer hb
      omega

/-- The next byte takes the fast path. -/
theorem WroteLines.stored {text : Bool} {g : Stream} {r : Stream × List UInt8} (hx : x ≠ LF)
    (hk : f.Kept g) (hlev : g.level = f.level + 1) (hlog : g.log = f.log ++ [x])
    (hw : g.flag.wrt = f.flag.wrt) (hs : g.sent = f.sent) (h : WroteLines text xs g r) :
    WroteLines text (x :: xs) f r := by
  refine ⟨h.done, ?_, ?_, fun hw' => (h.sent hw').trans hs⟩
  · rw [h.log, hlog]
    simp [encode, hx]
  · rw [h.wrt, hw, hlev, hk.bufsiz, List.length_cons, List.mem_cons, or_iff_right (Ne.symm hx),
      show f.level + 1 + xs.length = f.level + (xs.length + 1) by omega]

theorem WroteLines.flushed {text : Bool} {g : Stream} {r : Stream × List UInt8}
    (hx : x = LF ∨ f.bufsiz ≤ f.level + 1) (hlog : g.log = f.log ++ encode text [x])
    (hw : g.flag.wrt = true) (h : WroteLines text xs g r) : WroteLines text (x :: xs) f r := by
  have hw' := h.wrt.mpr (.inl hw)
  refine ⟨h.done, ?_, iff_of_true hw' ?_, fun hn => absurd (hw'.symm.trans hn) (by decide)⟩
  · rw [h.log, hlog, List.append_assoc, ← encode_append, List.singleton_append]
  · right
    rw [List.mem_cons, List.length_cons]
    rcases hx with rfl | hx
    · exact .inl (.inl rfl)
    · exact .inr (by omega)

theorem fwriteLine_spec (xs : List UInt8) (h : f.Ready) (hl : f.flag.lbf = true) :
    (fwriteLine d o xs f).1.Ready ∧ (o.Writes d →
      (¬ Stops f.bufsiz f.level xs → WroteLines false xs f (fwriteLine d o xs f)) ∧
      (Stops f.bufsiz f.level xs → (fwriteLine d o xs f).2 ≠ []) ∧
      (fwriteLine d o xs f).1.log.length ≤ f.log.length + xs.length) := by
  induction xs generalizing f with
  | nil => exact ⟨h, fun _ => ⟨fun _ => wroteLines_nil false h hl, False.elim, le_rfl⟩⟩
  | cons x xs ih =>
      rw [fwriteLine]
      by_cases hfast : x ≠ LF ∧ f.level + 1 < f.bufsiz
      · obtain ⟨g, hg, hG, hk, hlev, hlog, hw, hsent⟩ := emitLine_fast (d := d) (o := o) (x := x)
          (c := char x) h hl hfast.2
        have hdec : decide (x ≠ LF) = true := decide_eq_true hfast.1
        rw [hdec, hg]
        dsimp only
        rw [if_neg (by decide)]
        obtain ⟨i₁, i₂⟩ := ih hG (hk.lbf.trans hl)
        have hstop : Stops f.bufsiz f.level (x :: xs) ↔ Stops g.bufsiz g.level xs := by
          rw [Stops, hlev, hk.bufsiz, nextLevel,
            if_neg (by simp only [not_or]; exact ⟨hfast.1, by omega⟩)]
          exact or_iff_right fun h' => absurd h'.2 (by omega)
        refine ⟨i₁, fun hos => ?_⟩
        obtain ⟨j₁, j₂, j₃⟩ := i₂ hos
        rw [hstop]
        refine ⟨fun hs => (j₁ hs).stored hfast.1 hk hlev hlog hw hsent, j₂, ?_⟩
        rw [hlog, List.length_append, List.length_singleton] at j₃
        rw [List.length_cons]
        omega
      · have hslow : x = LF ∨ f.bufsiz ≤ f.level + 1 := by
          by_contra hno
          exact hfast ⟨(not_or.mp hno).1, by have := (not_or.mp hno).2; omega⟩
        have ht := emitLine_slow (d := d) (o := o) (x := x) (c := char x)
          (decide (x ≠ LF)) h hl (hslow.imp_left fun hx => by simp [hx])
        have hk := ht.kept (.inl (h.sound.lbf hl).1)
        have hlev := ht.level hl
        generalize emitLine d o (decide (x ≠ LF)) x (char x) f = r at ht hk hlev
        obtain ⟨g, a⟩ := r
        dsimp only at hk hlev ⊢
        obtain ⟨i₁, i₂⟩ := ih (f := g) ht.ready (hk.lbf.trans hl)
        split_ifs with ha
        · refine ⟨ht.ready, fun hos => ?_⟩
          obtain ⟨hs₁, hs₂⟩ := ht.sends hos
          have hx : x = 255 := char_eq_EOF.mp (hs₁.symm.trans ha)
          have hstop : Stops f.bufsiz f.level (x :: xs) :=
            .inl ⟨hx, hslow.resolve_left (by rw [hx]; decide)⟩
          refine ⟨fun hs => absurd hstop hs, fun _ => List.cons_ne_nil _ _, ?_⟩
          dsimp only at hs₂ ⊢
          rw [hs₂, List.length_append, List.length_singleton, List.length_cons]
          omega
        · refine ⟨i₁, fun hos => ?_⟩
          obtain ⟨hs₁, hs₂⟩ := ht.sends hos
          dsimp only at hs₁ hs₂
          obtain ⟨j₁, j₂, j₃⟩ := i₂ hos
          have hx : x ≠ 255 := fun hx => ha (hs₁.trans (char_eq_EOF.mpr hx))
          have hstop : Stops f.bufsiz f.level (x :: xs) ↔ Stops g.bufsiz g.level xs := by
            rw [Stops, hlev, hk.bufsiz, nextLevel, if_pos hslow,
              if_pos (hslow.imp_left char_eq_LF.mpr)]
            exact or_iff_right fun h' => hx h'.1
          rw [hstop]
          refine ⟨fun hs => (j₁ hs).flushed hslow ?_ ht.wrt, j₂, ?_⟩
          · rw [hs₂, toByte_char, encode_false]
          · rw [hs₂, List.length_append, List.length_singleton] at j₃
            rw [List.length_cons]
            omega

theorem fwriteLine_left (xs : List UInt8) (f : Stream) :
    (fwriteLine d o xs f).2.length ≤ xs.length := by
  induction xs generalizing f with
  | nil => exact le_rfl
  | cons x xs ih =>
      rw [fwriteLine]
      dsimp only
      split_ifs
      · exact le_rfl
      · exact (ih _).trans (Nat.le_succ _)

theorem fwriteTextLine_spec (xs : List UInt8) (h : f.Ready) (hl : f.flag.lbf = true) :
    (fwriteTextLine d o xs f).1.Ready ∧
      (o.Writes d → WroteLines true xs f (fwriteTextLine d o xs f)) := by
  induction xs generalizing f with
  | nil => exact ⟨h, fun _ => wroteLines_nil true h hl⟩
  | cons x xs ih =>
      rw [fwriteTextLine]
      by_cases hx : x = LF
      · -- the carriage return on either path, then the line feed through `_flsbuf`
        subst hx
        rw [if_pos rfl]
        obtain ⟨g, a, hg, hG, hk, hlog⟩ : ∃ g a, emitLine d o true CR (uchar CR) f = (g, a) ∧
            g.Ready ∧ f.Kept g ∧ (o.Writes d → a ≠ EOF ∧ g.log = f.log ++ [CR]) := by
          by_cases hroom : f.level + 1 < f.bufsiz
          · obtain ⟨g, hg, hG, hk, -, hlog, -, -⟩ := emitLine_fast (d := d) (o := o) (x := CR)
              (c := uchar CR) h hl hroom
            exact ⟨g, 0, hg, hG, hk, fun _ => ⟨by decide, hlog⟩⟩
          · have ht := emitLine_slow (d := d) (o := o) (x := CR) (c := uchar CR) true h hl
              (.inr (by omega))
            refine ⟨(emitLine d o true CR (uchar CR) f).1, (emitLine d o true CR (uchar CR) f).2,
              rfl, ht.ready, ht.kept (.inl (h.sound.lbf hl).1), fun hos => ?_⟩
            obtain ⟨h₁, h₂⟩ := ht.sends hos
            exact ⟨by rw [h₁]; exact uchar_ne_EOF CR, by rw [h₂, toByte_uchar]⟩
        have hgl := hk.lbf.trans hl
        have ht := emitLine_slow (d := d) (o := o) (x := LF) (c := uchar LF)
          (decide (LF ≠ LF)) hG hgl (.inl (by decide))
        have hk' := ht.kept (.inl (hG.sound.lbf hgl).1)
        rw [hg]
        dsimp only
        obtain ⟨i₁, i₂⟩ := ih ht.ready (hk'.lbf.trans hgl)
        split_ifs with ha ha'
        · exact ⟨hG, fun hos => absurd ha (hlog hos).1⟩
        · refine ⟨ht.ready, fun hos => absurd ((ht.sends hos).1.symm.trans ha') (uchar_ne_EOF LF)⟩
        · refine ⟨i₁, fun hos => (i₂ hos).flushed (.inl rfl) ?_ ht.wrt⟩
          rw [(ht.sends hos).2, toByte_uchar, (hlog hos).2, List.append_assoc]
          rfl
      · rw [if_neg hx]
        dsimp only
        rw [if_neg (by decide)]
        have henc : encode true [x] = [x] := by simp [encode, hx]
        by_cases hroom : f.level + 1 < f.bufsiz
        · obtain ⟨g, hg, hG, hk, hlev, hlog, hw, hsent⟩ := emitLine_fast (d := d) (o := o) (x := x)
            (c := uchar x) h hl hroom
          have hdec : decide (x ≠ LF) = true := decide_eq_true hx
          rw [hdec, hg]
          dsimp only
          rw [if_neg (by decide)]
          obtain ⟨i₁, i₂⟩ := ih hG (hk.lbf.trans hl)
          exact ⟨i₁, fun hos => (i₂ hos).stored hx hk hlev hlog hw hsent⟩
        · have ht := emitLine_slow (d := d) (o := o) (x := x) (c := uchar x)
            (decide (x ≠ LF)) h hl (.inr (by omega))
          have hk := ht.kept (.inl (h.sound.lbf hl).1)
          obtain ⟨i₁, i₂⟩ := ih ht.ready (hk.lbf.trans hl)
          split_ifs with ha
          · exact ⟨ht.ready, fun hos => absurd ((ht.sends hos).1.symm.trans ha) (uchar_ne_EOF x)⟩
          · refine ⟨i₁, fun hos => (i₂ hos).flushed (.inr (by omega)) ?_ ht.wrt⟩
            rw [(ht.sends hos).2, toByte_uchar, henc]

/-- The loop that `fwrite` chooses. -/
def fwriteLoop (d : Fd) (o : Os) (todo : List UInt8) (f : Stream) : Stream × List UInt8 :=
  if !isTextFile d f then
    if f.flag.lbf then fwriteLine d o todo f else fwriteBlock d o todo.length todo f
  else if f.flag.lbf then fwriteTextLine d o todo f
  else fwriteText d o todo f

theorem fwrite_eq (data : List UInt8) (size count : ℕ) (f : Stream) :
    fwrite d o data size count f =
      ((fwriteLoop d o (data.take (toSigned (size * count)).toNat) f).1,
        itemsDone size count (if toSigned (size * count) < 0 then toSigned (size * count)
          else (fwriteLoop d o (data.take (toSigned (size * count)).toNat) f).2.length)) := rfl

theorem fwriteLoop_ready (todo : List UInt8) (h : f.Ready) : (fwriteLoop d o todo f).1.Ready := by
  unfold fwriteLoop
  split_ifs with _ hl hl
  · exact (fwriteLine_spec todo h hl).1
  · exact (fwriteBlock_spec todo.length todo h le_rfl).1
  · exact (fwriteTextLine_spec todo h hl).1
  · exact (fwriteText_spec todo h).1

/-- Full buffering and no buffering. -/
theorem fwriteLoop_full (hos : o.Writes d) (todo : List UInt8) (h : f.Ready)
    (hl : f.flag.lbf = false) : Wrote d.text todo f (fwriteLoop d o todo f) := by
  unfold fwriteLoop
  rw [isTextFile_eq h.sound, hl]
  cases hd : d.text with
  | false => exact (fwriteBlock_spec todo.length todo h le_rfl).2 hos
  | true => exact (fwriteText_spec todo h).2 hos

theorem fwriteLoop_line (hos : o.Writes d) (todo : List UInt8) (h : f.Ready)
    (hl : f.flag.lbf = true) :
    (¬ (d.text = false ∧ Stops f.bufsiz f.level todo) →
      WroteLines d.text todo f (fwriteLoop d o todo f)) ∧
    (d.text = false ∧ Stops f.bufsiz f.level todo →
      (fwriteLoop d o todo f).2 ≠ [] ∧ (fwriteLoop d o todo f).2.length ≤ todo.length) ∧
    (fwriteLoop d o todo f).1.log.length ≤ f.log.length + (encode d.text todo).length := by
  unfold fwriteLoop
  rw [isTextFile_eq h.sound, hl]
  cases hd : d.text with
  | false =>
      obtain ⟨h₁, h₂, h₃⟩ := (fwriteLine_spec todo h hl).2 hos
      rw [encode_false]
      exact ⟨fun hs => h₁ fun hs' => hs ⟨rfl, hs'⟩, fun hs => ⟨h₂ hs.2, fwriteLine_left todo f⟩, h₃⟩
  | true =>
      have hw := (fwriteTextLine_spec todo h hl).2 hos
      refine ⟨fun _ => hw, fun hs => absurd hs.1 (by decide), ?_⟩
      exact le_of_eq ((congrArg List.length hw.log).trans List.length_append)

end DjgppLibc.Stdio
