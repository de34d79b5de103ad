import DjgppLibc.StdioFwrite

/-!
# Runs of an output stream

A run starts with a stream as `fopen` or the static data leave it and mixes the
output calls, with any answers of the system. `ftell` sets a negative `_cnt` to
zero. In a line buffered stream with pending characters that breaks the meaning
of `_cnt`, and the fast path of `fwrite` then stores behind the buffer. In every
other run the stores stay inside.
-/
namespace DjgppLibc.Stdio
open ByteMemory

variable {d : Fd} {o : Os} {f : Stream}

theorem fflush_same (d : Fd) (f : Stream) :
    f.Same (if d.append then lseek d f 0 .fromEnd else (f, 0)).1 ∧
      (if d.append then lseek d f 0 .fromEnd else (f, 0)).1.sent = f.sent := by
  split_ifs
  · exact lseek_same f 0 .fromEnd
  · exact ⟨.refl f, rfl⟩

/-- The last step of `fflush`: an update stream may be read or written next. -/
theorem Stream.Ready.closed (h : f.Ready) (hrw : f.flag.rw = true) :
    ({ f with cnt := 0, flag := { f.flag with wrt := false, read := false }
              ptr := f.base } : Stream).Ready := by
  have hS := h.sound
  refine ⟨⟨.inr hrw, rfl, hS.nostrg, hS.nbf, fun hl => ⟨(hS.lbf hl).1, ?_⟩, fun hb => ?_,
    hS.inside⟩, fun _ => ?_, fun _ => ⟨le_rfl, ?_, fun _ => rfl⟩, fun _ _ => ⟨rfl, ?_⟩⟩
  · have := (hS.buffer (hS.lbf hl).1).1
    dsimp only
    omega
  · obtain ⟨h₁, h₂, h₃, -⟩ := hS.buffer hb
    exact ⟨h₁, h₂, h₃, le_rfl, by dsimp only; omega⟩
  · simp [Stream.level]
  · simp [Stream.level]
  · simp [Stream.level]

theorem Stream.Ready.rewound (h : f.Ready) (hb : f.base ≠ 0) (hn : f.flag.nbf = false)
    (hw : f.flag.wrt = true) :
    (f.rewound (if f.flag.lbf || f.flag.nbf then 0 else f.bufsiz)).Ready := by
  rw [hn, Bool.or_false]
  refine ⟨h.sound.rewound hb _, fun hl => ?_, fun hl => ⟨?_, ?_, fun hb' => absurd hb' hb⟩,
    fun _ hw' => absurd (hw.symm.trans hw') (by decide)⟩
  · rw [level_rewound]
    simp only [Stream.rewound] at hl ⊢
    rw [hl]
    rfl
  · simp only [Stream.rewound] at hl ⊢
    rw [hl]
    exact Int.natCast_nonneg _
  · rw [level_rewound]
    simp only [Stream.rewound] at hl ⊢
    rw [hl]
    simp

theorem fflushBuffer_spec (h : f.Ready) :
    (fflushBuffer d o f).1.Ready ∧ (fflushBuffer d o f).1.flag.lbf = f.flag.lbf ∧
      (o.Writes d → (fflushBuffer d o f).2 = true ∧
        (fflushBuffer d o f).1.sent = if f.flag.wrt then f.log else f.sent) := by
  unfold fflushBuffer
  by_cases hc : f.flag.wrt = true ∧ (!f.flag.nbf) = true ∧ f.base ≠ 0 ∧ f.base < f.ptr
  · rw [if_pos hc]
    obtain ⟨hw, hn, hb, -⟩ := hc
    have hR := h.rewound hb (by simpa using hn) hw
    have hs := writeAll_same (d := d) (o := o) false (f.ptr - f.base) f.pending
      (f.rewound (if f.flag.lbf || f.flag.nbf then 0 else f.bufsiz))
    refine ⟨hs.ready hR, hs.lbf, fun hos => ?_⟩
    obtain ⟨h₁, h₂⟩ := log_drained (f := f) hos hb false
      (if f.flag.lbf || f.flag.nbf then 0 else f.bufsiz)
    refine ⟨h₁, ?_⟩
    rw [if_pos hw, ← h₂, Stream.log, hs.level, level_rewound]
    simp [bytes]
  · rw [if_neg hc]
    refine ⟨h, rfl, fun _ => ⟨rfl, ?_⟩⟩
    split_ifs with hw
    · have hlev : f.level = 0 := by
        by_cases hb : f.base = 0
        · exact if_pos hb
        · rw [Stream.level_eq hb]
          have hn : f.flag.nbf = false := by
            rw [Bool.eq_false_iff]
            exact fun hn => hb (h.sound.nbf hn)
          have : ¬ f.base < f.ptr := fun hlt => hc ⟨hw, by simp [hn], hb, hlt⟩
          omega
      rw [Stream.log, hlev]
      simp [bytes]
    · rfl

theorem fflush_spec (h : f.Ready) :
    (fflush d o f).1.Ready ∧ (fflush d o f).1.flag.lbf = f.flag.lbf ∧
      (o.Writes d → (fflush d o f).1.sent = if f.flag.wrt then f.log else f.sent) := by
  obtain ⟨hsame, hsent⟩ := fflush_same d f
  have hp : o.Writes d → (if d.append then lseek d f 0 .fromEnd else (f, 0)).2 ≠ -1 := by
    intro hos
    split_ifs with ha
    · rw [lseek_end (hos.seek ha)]
      dsimp only
      omega
    · exact (by decide : (0 : ℤ) ≠ -1)
  unfold fflush
  generalize (if d.append then lseek d f 0 .fromEnd else (f, 0)) = r at hsame hsent hp
  obtain ⟨g, p⟩ := r
  dsimp only at hsame hsent hp ⊢
  have hG := hsame.ready h
  by_cases hfail : p = -1
  · rw [if_pos hfail]
    exact ⟨hG, hsame.lbf, fun hos => absurd hfail (hp hos)⟩
  rw [if_neg hfail]
  have hU : g.clearUngetc.Ready :=
    ⟨⟨hG.sound.output, hG.sound.noread, hG.sound.nostrg, hG.sound.nbf, hG.sound.lbf,
      hG.sound.buffer, hG.sound.inside⟩, hG.line, hG.full, hG.idle⟩
  have hstart : (if g.clearUngetc.flag.wrt then g.clearUngetc.log else g.clearUngetc.sent) =
      if f.flag.wrt then f.log else f.sent := by
    have hlog : g.log = f.log := by
      rw [hsame.log, hsent]
      rfl
    change (if g.flag.wrt then g.log else g.sent) = _
    rw [hsame.wrt, hlog, hsent]
  obtain ⟨hV, hvl, hend⟩ := fflushBuffer_spec (d := d) (o := o) hU
  rw [hstart] at hend
  generalize fflushBuffer d o g.clearUngetc = r at hV hvl hend
  obtain ⟨v, ok⟩ := r
  dsimp only at hV hvl hend ⊢
  generalize (if f.flag.wrt then f.log else f.sent) = want at hend ⊢
  split_ifs with hok hrw
  · exact ⟨hV, hvl.trans hsame.lbf, fun hos => absurd (hend hos).1 (by simpa using hok)⟩
  · exact ⟨hV.closed hrw, hvl.trans hsame.lbf, fun hos => (hend hos).2⟩
  · exact ⟨hV, hvl.trans hsame.lbf, fun hos => (hend hos).2⟩

/-- A negative count that is set to zero. -/
def Stream.clamped (f : Stream) : Stream := if f.cnt < 0 then { f with cnt := 0 } else f

theorem ftell_same (hd : d.directory = false) (f : Stream) : f.clamped.Same (ftell d f).1 := by
  unfold ftell Stream.clamped
  rw [hd]
  simp only [Bool.false_eq_true, if_false]
  split_ifs
  all_goals first
    | exact .refl _
    | exact (lseek_same _ _ _).1

theorem ftell_ready (h : f.Ready) (hq : d.directory = false → f.flag.lbf = true → f.level = 0) :
    (ftell d f).1.Ready := by
  cases hd : d.directory with
  | true =>
      unfold ftell
      rw [hd]
      exact h
  | false =>
      have hc : f.clamped = f := by
        unfold Stream.clamped
        rw [if_neg]
        cases hl : f.flag.lbf with
        | false =>
            have := (h.full hl).1
            omega
        | true =>
            have := h.line hl
            rw [hq hd hl] at this
            omega
      exact (ftell_same hd f).ready (by rw [hc]; exact h)

theorem fseek_ready (h : f.Ready) (offset : ℤ) (whence : Whence) :
    (fseek d o offset whence f).1.Ready := by
  have hG : f.restarted.Ready :=
    ⟨⟨h.sound.output, h.sound.noread, h.sound.nostrg, h.sound.nbf, h.sound.lbf, h.sound.buffer,
      h.sound.inside⟩, h.line, h.full, h.idle⟩
  have hread : ¬ f.restarted.flag.read = true := by
    rw [hG.sound.noread]
    decide
  have hout : (f.restarted.flag.wrt || f.restarted.flag.rw) = true := by
    rw [Bool.or_eq_true]
    exact hG.sound.output
  unfold fseek
  split_ifs with hd
  · exact h
  · dsimp only
    rw [if_neg hread, if_pos hout]
    exact (lseek_same _ _ _).1.ready (fflush_spec hG).1

structure Fits (buf len : ℕ) : Prop where
  size : len < 2147483648
  top : buf + len < 4294967296

instance (buf len : ℕ) : Decidable (Fits buf len) :=
  decidable_of_iff (len < 2147483648 ∧ buf + len < 4294967296)
    ⟨fun ⟨h₁, h₂⟩ => ⟨h₁, h₂⟩, fun h => ⟨h.size, h.top⟩⟩

theorem Stream.Sound.install (h : f.Sound) {type : Buffering} {a len : ℕ} {mine : Bool}
    (hbuf : type = .none ∧ a = 0 ∨ type ≠ .none ∧ a ≠ 0 ∧ len ≠ 0 ∧ Fits a len) :
    (f.install type a len mine).Ready := by
  have hlev : (f.install type a len mine).level = 0 := by
    unfold Stream.level Stream.install
    rcases hbuf with ⟨-, rfl⟩ | ⟨ht, -⟩
    · rfl
    · simp [ht]
  have hptr : a ≠ 0 → (f.install type a len mine).ptr = a := fun ha =>
    if_neg (hbuf.resolve_left fun h' => ha h'.2).1
  have hnbf : (f.install type a len mine).flag.nbf = true → a = 0 := fun hn => by
    have hn' : type = .none := of_decide_eq_true hn
    exact (hbuf.resolve_right fun h' => h'.1 hn').2
  have hlbf : (f.install type a len mine).flag.lbf = true → a ≠ 0 := fun hl => by
    have hl' : type = .line := of_decide_eq_true hl
    exact (hbuf.resolve_left fun h' => by rw [hl'] at h'; exact absurd h'.1 (by decide)).2.1
  have hfit : a ≠ 0 → len ≠ 0 ∧ Fits a len := fun ha =>
    (hbuf.resolve_left fun h' => ha h'.2).2.2
  refine ⟨⟨h.output, h.noread, h.nostrg, hnbf, fun hl => ⟨hlbf hl, ?_⟩, fun ha => ?_, h.inside⟩,
    fun _ => ?_, fun _ => ⟨le_rfl, ?_, fun _ => rfl⟩, fun _ _ => ⟨rfl, hlev⟩⟩
  · obtain ⟨h₁, -⟩ := hfit (hlbf hl)
    rw [hptr (hlbf hl)]
    change a < a + len
    omega
  · obtain ⟨h₁, h₂⟩ := hfit ha
    rw [hptr ha]
    exact ⟨Nat.pos_of_ne_zero h₁, h₂.size, h₂.top, le_rfl, Nat.le_add_right a len⟩
  · rw [hlev]
    rfl
  · rw [hlev]
    change ((0 : ℕ) : ℤ) + 0 ≤ (len : ℤ)
    omega

theorem setvbuf_ready (h : f.Ready) {buf len : ℕ} (type : Buffering) (hfit : Fits buf len) :
    (setvbuf d o buf type len f).1.Ready := by
  obtain ⟨hG, -, -⟩ := fflush_spec (d := d) (o := o) h
  unfold setvbuf
  generalize (fflush d o f).1 = g at hG
  have hS := hG.sound
  dsimp only
  split_ifs with ht h0 hb ha
  · exact hS.install (.inl ⟨ht, rfl⟩)
  · exact hG
  · exact ⟨⟨hS.output, hS.noread, hS.nostrg, hS.nbf, hS.lbf, hS.buffer, hS.inside⟩, hG.line,
      hG.full, hG.idle⟩
  · exact Stream.Sound.install
      (f := { g with calls := g.calls + 1, allocated := o.malloc g.calls len :: g.allocated })
      ⟨hS.output, hS.noread, hS.nostrg, hS.nbf, hS.lbf, hS.buffer, hS.inside⟩
      (.inr ⟨ht, ha, h0, hfit.size, o.malloc_fits _ _ ha⟩)
  · exact hS.install (.inr ⟨ht, hb, h0, hfit⟩)

inductive OutCall where
  | putc (x : UInt8)
  | fwrite (data : List UInt8) (size count : ℕ)
  | fflush
  | ftell
  | fseek (offset : ℤ) (whence : Whence)
  | setvbuf (buf : ℕ) (type : Buffering) (len : ℕ)
  deriving DecidableEq, Repr

def Stream.output (d : Fd) (o : Os) (f : Stream) : OutCall → Except Empty Stream
  | .putc x => .ok (Stdio.putc d o x f).1
  | .fwrite data size count => .ok (Stdio.fwrite d o data size count f).1
  | .fflush => .ok (Stdio.fflush d o f).1
  | .ftell => .ok (Stdio.ftell d f).1
  | .fseek offset whence => .ok (Stdio.fseek d o offset whence f).1
  | .setvbuf buf type len => .ok (Stdio.setvbuf d o buf type len f).1

structure Stream.Opened (f : Stream) : Prop where
  output : f.flag.wrt = true ∨ f.flag.rw = true
  noread : f.flag.read = false
  nostrg : f.flag.strg = false
  lbf : f.flag.lbf = false
  base : f.base = 0
  cnt : f.cnt = 0
  stores : f.stores = []

/-- A buffer handed to `setvbuf` lies in the address space. -/
def OutCall.Valid : OutCall → Prop
  | .setvbuf buf _ len => Fits buf len
  | _ => True

instance : ∀ c : OutCall, Decidable c.Valid
  | .setvbuf _ _ _ => inferInstanceAs (Decidable (Fits _ _))
  | .putc _ => .isTrue trivial
  | .fwrite _ _ _ => .isTrue trivial
  | .fflush => .isTrue trivial
  | .ftell => .isTrue trivial
  | .fseek _ _ => .isTrue trivial

/-- The call is no `ftell` on a line buffered stream with pending characters. -/
def Quiet (d : Fd) (f : Stream) (c : OutCall) : Prop :=
  c = .ftell → d.directory = false → f.flag.lbf = true → f.level = 0

instance (d : Fd) (f : Stream) (c : OutCall) : Decidable (Quiet d f c) :=
  inferInstanceAs (Decidable (_ → _ → _ → _))

theorem Stream.Opened.ready (h : f.Opened) : f.Ready := by
  have hl : ∀ {P : Prop}, f.flag.lbf = true → P := fun hl =>
    absurd (hl.symm.trans h.lbf) (by decide)
  have hlev : f.level = 0 := if_pos h.base
  refine ⟨⟨h.output, h.noread, h.nostrg, fun _ => h.base, hl, fun hb => absurd h.base hb, ?_⟩, hl,
    fun _ => ⟨h.cnt.ge, ?_, fun _ => h.cnt⟩, fun _ _ => ⟨h.cnt, hlev⟩⟩
  · rw [h.stores]
    simp
  · rw [hlev, h.cnt]
    omega

theorem Stream.Ready.output (h : f.Ready) {c : OutCall} (hv : c.Valid) (hq : Quiet d f c) :
    ∃ f', f.output d o c = .ok f' ∧ f'.Ready := by
  cases c with
  | putc x => exact ⟨_, rfl, (putc_spec h).1⟩
  | fwrite data size count =>
      refine ⟨_, rfl, ?_⟩
      rw [fwrite_eq]
      exact fwriteLoop_ready _ h
  | fflush => exact ⟨_, rfl, (fflush_spec h).1⟩
  | ftell => exact ⟨_, rfl, ftell_ready h (hq rfl)⟩
  | fseek offset whence => exact ⟨_, rfl, fseek_ready h offset whence⟩
  | setvbuf buf type len => exact ⟨_, rfl, setvbuf_ready h type hv⟩

/-- Every quiet run ends in a ready stream. -/
theorem Stream.Opened.exec (h : f.Opened) {cs : List OutCall}
    (hv : Runs.Along (Stream.output d o) (fun _ c => c.Valid) f cs)
    (hq : Runs.Along (Stream.output d o) (Quiet d) f cs) :
    ∃ f', Runs.exec (Stream.output d o) f cs = .ok f' ∧ f'.Ready :=
  Runs.exec_invariant (J := Stream.Ready) (fun _ _ hr hv hq => hr.output hv hq) h.ready hv hq

/-- `_ptr` lies in the buffer, all stores were made there, and in line buffered
mode `_cnt` is minus the number of pending characters. -/
def BufferInOrder (o : Except Empty Stream) : Prop :=
  ∃ f, o = .ok f ∧
    (f.flag.nbf = false → f.base ≠ 0 → f.base ≤ f.ptr ∧ f.ptr ≤ f.base + f.bufsiz) ∧
    (∀ e ∈ f.stores, e.Inside) ∧
    (f.flag.lbf = true → f.ptr ≠ f.base → f.cnt = -((f.ptr : ℤ) - f.base))

theorem run_bufferInOrder (d : Fd) (o : Os) (f : Stream) (cs : List OutCall) (hf : f.Opened)
    (hv : Runs.Along (Stream.output d o) (fun _ c => c.Valid) f cs)
    (hq : Runs.Along (Stream.output d o) (Quiet d) f cs) :
    BufferInOrder (Runs.exec (Stream.output d o) f cs) := by
  obtain ⟨g, hexec, hG⟩ := hf.exec hv hq
  refine ⟨g, hexec, fun _ hb => ?_, hG.sound.inside, fun hl _ => ?_⟩
  · obtain ⟨-, -, -, h₄, h₅⟩ := hG.sound.buffer hb
    exact ⟨h₄, h₅⟩
  · obtain ⟨hb, -⟩ := hG.sound.lbf hl
    obtain ⟨-, -, -, h₄, -⟩ := hG.sound.buffer hb
    rw [hG.line hl, Stream.level_eq hb]
    omega

def sampleFd : Fd := ⟨true, false, false, true, false, false⟩

def sampleOs : Os where
  tbSize := 512
  cell := 4096
  malloc := fun _ n => if n < 65536 then 65536 else 0
  write := fun _ => 3
  read := fun _ => 3
  tbSize_pos := by decide
  tbSize_lt := by decide
  malloc_fits := by
    intro _ n h
    split_ifs at h ⊢ <;> omega

def sampleStream : Stream :=
  ⟨0, 0, 0, 0, { wrt := true }, 0, fun _ => 0, [], 0, 0, [], [], [], []⟩

theorem run_bufferInOrder_lines :
    BufferInOrder (Runs.exec (Stream.output sampleFd sampleOs) sampleStream
      [.setvbuf 1000 .line 4, .fwrite [97, 98, 10, 99] 2 2, .putc 10, .ftell, .putc 97, .fflush]) :=
  run_bufferInOrder _ _ _ _ ⟨.inl rfl, rfl, rfl, rfl, rfl, rfl, rfl⟩ (by decide +kernel)
    (by decide +kernel)

/-- Three characters are pending in a buffer of four when `ftell` clears `_cnt`. -/
def overrunCalls : List OutCall :=
  [.setvbuf 1000 .line 4, .fwrite [97, 98, 99] 1 3, .ftell, .fwrite [100, 101, 102] 1 3]

theorem overrunCalls_overrun :
    Runs.Along (Stream.output sampleFd sampleOs) (fun _ c => c.Valid) sampleStream overrunCalls ∧
      ¬ BufferInOrder (Runs.exec (Stream.output sampleFd sampleOs) sampleStream overrunCalls) := by
  refine ⟨by decide +kernel, ?_⟩
  rintro ⟨f, hf, -, hin, -⟩
  have hout : ((Runs.exec (Stream.output sampleFd sampleOs) sampleStream overrunCalls).toOption.map
      fun f => decide (∀ e ∈ f.stores, e.Inside)) = some false := by
    decide +kernel
  rw [hf] at hout
  simp only [Except.toOption, Option.map_some, Option.some.injEq, decide_eq_false_iff_not] at hout
  exact hout hin

end DjgppLibc.Stdio
