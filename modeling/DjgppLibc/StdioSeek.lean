import DjgppLibc.StdioDirection

/-!
# The two paths of fseek

When the target lies in the buffer `fseek` moves `_ptr` and `_cnt`, and otherwise
it calls `lseek` and drops the buffer. Both paths lead to the same position, but
they leave different places for a pushed-back character: `ungetc` refuses a
character at the start of a buffer that is not empty, and a dropped buffer is
empty. The two paths can be told apart whenever the buffer holds anything at all.
-/
namespace DjgppLibc.Stdio
open ByteMemory

variable {d : Fd} {o : Os} {f : Stream} {t : ℤ}

inductive SeekCall where
  | read (c : ReadCall)
  | fseek (offset : ℤ) (whence : Whence)
  deriving DecidableEq, Repr

/-- What a call returns: a value, or data with the number of items. -/
inductive Answer where
  | value (r : ℤ)
  | data (bs : List UInt8) (items : ℕ)
  deriving DecidableEq, Repr

def Stream.answer (d : Fd) (o : Os) (f : Stream) : SeekCall → Stream × Answer
  | .read .getc => ((getc d o f).1, .value (getc d o f).2)
  | .read (.fread size count) =>
      ((fread d o size count f).1, .data (fread d o size count f).2.1 (fread d o size count f).2.2)
  | .read (.ungetc c) => ((ungetc c f).1, .value (ungetc c f).2)
  | .fseek offset whence =>
      ((Stdio.fseek d o offset whence f).1, .value (Stdio.fseek d o offset whence f).2)

def Stream.answers (d : Fd) (o : Os) : List SeekCall → Stream → List Answer
  | [], _ => []
  | c :: cs, f => (f.answer d o c).2 :: (f.answer d o c).1.answers d o cs

def SeekCall.isUngetc : SeekCall → Bool
  | .read (.ungetc _) => true
  | _ => false

/-- The position that `fseek` counts from. -/
def Stream.told (d : Fd) (f : Stream) : ℤ := (ftell d f.restarted).2

/-- After either path `ftell` gives the target, and no sequence of calls with at
most one `ungetc` tells the paths apart. -/
def PathsAgree (d : Fd) (o : Os) (t : ℤ) (f : Stream) : Prop :=
  (ftell d (seekFast (f.told d) t f.restarted)).2 = t ∧
    (ftell d (seekSlow d t .set f.restarted).1).2 = t ∧
    ∀ cs : List SeekCall, cs.countP SeekCall.isUngetc ≤ 1 →
      (seekFast (f.told d) t f.restarted).answers d o cs =
        (seekSlow d t .set f.restarted).1.answers d o cs

structure Stream.Seekable (f : Stream) : Prop where
  read : f.flag.read = true
  rw : f.flag.rw = false
  base : f.base ≠ 0
  nbf : f.flag.nbf = false
  cnt : 0 ≤ f.cnt
  ptr : f.base ≤ f.ptr

theorem ftell_eq (hd : d.directory = false) (hs : d.seekable = true) (hr : f.flag.read = true)
    (hc : 0 ≤ f.cnt) : (ftell d f).2 = f.pos - f.cnt := by
  unfold ftell lseek
  rw [if_neg (by simp [hd])]
  dsimp only
  rw [if_neg (not_lt.mpr hc), if_neg (by simp [hr]), if_pos hr, if_pos ⟨hs, by omega⟩]
  dsimp only
  rw [if_neg (by omega)]
  omega

/-- The slow path leaves an empty buffer. -/
theorem seekSlow_fields (hrw : f.flag.rw = false) (offset : ℤ) (whence : Whence) :
    (seekSlow d offset whence f).1.cnt = 0 ∧ (seekSlow d offset whence f).1.ptr = f.base ∧
      (seekSlow d offset whence f).1.base = f.base ∧
      (seekSlow d offset whence f).1.flag = { f.flag with ungetc := false } := by
  unfold seekSlow lseek
  rw [if_neg (by simp [hrw])]
  dsimp only
  split_ifs <;> exact ⟨rfl, rfl, rfl, rfl⟩

theorem seekSlow_pos (hs : d.seekable = true) (hrw : f.flag.rw = false) (ht : 0 ≤ t) :
    ((seekSlow d t .set f).1.pos : ℤ) = t := by
  unfold seekSlow lseek
  rw [if_neg (by simp [hrw])]
  dsimp only
  rw [if_pos ⟨hs, by omega⟩]
  simp [ht]

theorem seekSlow_here (hs : d.seekable = true) (hrw : f.flag.rw = false)
    (hu : f.flag.ungetc = false) (hp : f.ptr = f.base) (hc : f.cnt = 0) :
    (seekSlow d f.pos .set f).1 = f := by
  unfold seekSlow lseek
  rw [if_neg (by simp [hrw])]
  dsimp only
  rw [if_pos ⟨hs, by omega⟩]
  cases f with
  | mk cnt ptr base bufsiz flag fillsize mem contents pos calls sent stores freed allocated =>
      cases flag with
      | mk read wrt mybuf eof err strg rw ungetc fbf nbf lbf =>
          dsimp only at hp hc hu ⊢
          rw [hp, hc, hu]
          simp

theorem fseek_set (hd : d.directory = false) (h : f.Seekable) (offset : ℤ) :
    fseek d o offset .set f =
      if InBuffer f.restarted (f.told d) offset then
        (seekFast (f.told d) offset f.restarted, 0)
      else seekSlow d offset .set f.restarted := by
  rw [fseek_buffered hd h.read h.cnt h.base h.nbf]
  simp only [reduceCtorEq, if_false, true_and]
  rfl

theorem fseek_start (hd : d.directory = false) (hs : d.seekable = true) (h : f.Seekable)
    (hu : f.flag.ungetc = false) :
    ∃ g r, fseek d o (f.pos - f.cnt - (f.ptr - f.base)) .set f = (g, r) ∧ g.ptr = f.base ∧
      g.base = f.base ∧ g.cnt = f.cnt + (f.ptr - f.base) := by
  have htell : f.told d = f.pos - f.cnt := ftell_eq hd hs h.read h.cnt
  have hin : InBuffer f.restarted (f.pos - f.cnt) (f.pos - f.cnt - (f.ptr - f.base)) := by
    have := h.cnt
    have := h.ptr
    refine ⟨?_, ?_, ?_⟩
    · change (f.flag.ungetc || f.flag.rw) = false
      rw [hu, h.rw]
      rfl
    · change (f.pos - f.cnt) - (f.pos - f.cnt - (f.ptr - f.base)) ≤ (f.ptr : ℤ) - f.base
      omega
    · change (f.pos - f.cnt - (f.ptr - f.base)) - (f.pos - f.cnt) ≤ f.cnt
      omega
  rw [fseek_set hd h, htell, if_pos hin]
  refine ⟨_, _, rfl, ?_, rfl, ?_⟩
  · change ((f.ptr : ℤ) + ((f.pos - f.cnt - (f.ptr - f.base)) - (f.pos - f.cnt))).toNat = f.base
    omega
  · change f.cnt + ((f.pos - f.cnt) - (f.pos - f.cnt - (f.ptr - f.base))) = _
    omega

theorem fseek_empty (hd : d.directory = false) (h : f.Seekable) (hp : f.ptr = f.base)
    (hc : f.cnt = 0) (offset : ℤ) :
    ∃ g r, fseek d o offset .set f = (g, r) ∧ g.ptr = f.base ∧ g.base = f.base ∧ g.cnt = 0 ∧
      g.flag.read = true := by
  rw [fseek_set hd h]
  split_ifs with hin
  · obtain ⟨-, h₁, h₂⟩ := hin
    change _ ≤ (f.ptr : ℤ) - f.base at h₁
    change _ ≤ f.cnt at h₂
    refine ⟨_, _, rfl, ?_, rfl, ?_, h.read⟩
    · change ((f.ptr : ℤ) + (offset - f.told d)).toNat = f.base
      omega
    · change f.cnt + (f.told d - offset) = 0
      omega
  · obtain ⟨h₁, h₂, h₃, h₄⟩ := seekSlow_fields (d := d) (f := f.restarted) h.rw offset .set
    have hread : (seekSlow d offset .set f.restarted).1.flag.read = true := by
      rw [h₄]
      exact h.read
    exact ⟨(seekSlow d offset .set f.restarted).1, (seekSlow d offset .set f.restarted).2, rfl, h₂,
      h₃, h₁, hread⟩

theorem ungetc_at_start (c : ℤ) (hp : f.ptr = f.base) (hc : f.cnt ≠ 0) :
    (ungetc c f).2 = EOF := by
  unfold ungetc
  by_cases h₁ : c = EOF ∨ !(f.flag.read || f.flag.rw) ∨ f.ptr = 0 ∨ f.base = 0
  · rw [if_pos h₁]
  · rw [if_neg h₁, if_pos ⟨hp, hc⟩]

theorem ungetc_of_empty {c : ℤ} (hc : c ≠ EOF) (hr : f.flag.read = true) (hb : f.base ≠ 0)
    (hp : f.ptr = f.base) (h0 : f.cnt = 0) : (ungetc c f).2 = c := by
  rw [ungetc_eq hc (.inl hr) (hp ▸ hb) hb fun _ => h0]

theorem Stream.Seekable.restarted (h : f.Seekable) : f.restarted.Seekable :=
  ⟨h.read, h.rw, h.base, h.nbf, h.cnt, h.ptr⟩

theorem pathsAgree_iff (hd : d.directory = false) (hs : d.seekable = true) (h : f.Seekable)
    (ht : 0 ≤ t) (hin : InBuffer f.restarted (f.told d) t) :
    PathsAgree d o t f ↔ f.ptr = f.base ∧ f.cnt = 0 := by
  have hS := h.restarted
  have htold : f.told d = f.pos - f.cnt := ftell_eq hd hs h.read h.cnt
  obtain ⟨hflag, h₁, h₂⟩ := hin
  change f.told d - t ≤ (f.ptr : ℤ) - f.base at h₁
  change t - f.told d ≤ f.cnt at h₂
  rw [Bool.or_eq_false_iff] at hflag
  obtain ⟨s₁, s₂, s₃, s₄⟩ := seekSlow_fields (d := d) hS.rw t .set
  have spos := seekSlow_pos hs hS.rw ht
  constructor
  · rintro ⟨-, -, hall⟩
    by_contra hne
    -- both go to the start of the buffer of the fast path and push a character back
    have hptr := h.ptr
    have hcnt := h.cnt
    obtain ⟨A, hA⟩ : ∃ A, A = seekFast (f.told d) t f.restarted := ⟨_, rfl⟩
    obtain ⟨B, hB⟩ : ∃ B, B = (seekSlow d t .set f.restarted).1 := ⟨_, rfl⟩
    rw [← hA, ← hB] at hall
    rw [← hB] at s₁ s₂ s₃ s₄
    have aptr : (A.ptr : ℤ) = f.ptr + (t - f.told d) := by
      rw [hA]
      change (((f.ptr : ℤ) + (t - f.told d)).toNat : ℤ) = _
      omega
    have acnt : A.cnt = f.cnt + (f.told d - t) := by
      rw [hA]
      rfl
    have abase : A.base = f.base := by
      rw [hA]
      rfl
    have hAS : A.Seekable := by
      refine ⟨hA ▸ h.read, hA ▸ h.rw, abase ▸ h.base, hA ▸ h.nbf, ?_, ?_⟩
      · omega
      · omega
    have hBS : B.Seekable := by
      refine ⟨s₄ ▸ h.read, s₄ ▸ h.rw, s₃ ▸ h.base, s₄ ▸ h.nbf, s₁.ge, ?_⟩
      rw [s₂, s₃]
    obtain ⟨A', r, hA', a₁, a₂, a₃⟩ := fseek_start (o := o) hd hs hAS (hA ▸ hflag.1)
    obtain ⟨B', r', hB', b₁, b₂, b₃, b₄⟩ := fseek_empty (o := o) hd hBS (s₂.trans s₃.symm) s₁
      (A.pos - A.cnt - (A.ptr - A.base))
    have hlast := hall [.fseek (A.pos - A.cnt - (A.ptr - A.base)) .set, .read (.ungetc 0)]
      (by simp [List.countP_cons, SeekCall.isUngetc])
    simp only [Stream.answers, Stream.answer, hA', hB', List.cons.injEq, Answer.value.injEq,
      and_true] at hlast
    have hrefused : (ungetc 0 A').2 = EOF := by
      refine ungetc_at_start 0 (a₁.trans a₂.symm) ?_
      omega
    have htaken : (ungetc 0 B').2 = 0 :=
      ungetc_of_empty (by decide) b₄ (by rw [b₂]; exact hBS.base) (b₁.trans b₂.symm) b₃
    rw [hrefused, htaken] at hlast
    exact absurd hlast.2 (by decide)
  · rintro ⟨hp, hc⟩
    -- the fast path does not move, and the slow path ends in the same stream
    have htp : t = f.told d := by omega
    have hfast : seekFast (f.told d) t f.restarted = f.restarted := by
      unfold seekFast
      rw [htp, sub_self, add_zero, add_zero, Int.toNat_natCast]
    have hslow : (seekSlow d t .set f.restarted).1 = f.restarted := by
      rw [show t = f.restarted.pos by rw [htp, htold, hc, sub_zero]; rfl]
      exact seekSlow_here hs hS.rw hflag.1 hp hc
    have htell : (ftell d f.restarted).2 = t := htp.symm
    exact ⟨by rw [hfast, htell], by rw [hslow, htell], fun cs _ => by rw [hfast, hslow]⟩

/-- In every state of a read-only buffered stream, for every target in the buffer,
the two paths agree only if the buffer is empty. -/
theorem run_pathsAgree_iff (d : Fd) (o : Os) (f : Stream) (cs : List InCall)
    (hd : d.directory = false) (hs : d.seekable = true) (hos : o.Reads d) (hf : f.OpenedIn)
    (hro : f.ReadOnly) (hv : Runs.Along (Stream.input d o) (fun _ c => c.Valid) f cs) (g : Stream)
    (hexec : Runs.exec (Stream.input d o) f cs = .ok g)
    (hbuf : g.base ≠ 0 ∧ g.flag.nbf = false) (t : ℤ) (ht : 0 ≤ t ∧ t ≤ g.contents.length)
    (hin : InBuffer g.restarted (g.told d) t) :
    PathsAgree d o t g ↔ g.ptr = g.base ∧ g.cnt = 0 := by
  obtain ⟨g', hexec', hG⟩ := Runs.exec_invariant (J := Stream.Input d)
    (fun _ _ h _ hv => Stream.Input.step hos h hv) hf.start hv hv
  rw [hexec] at hexec'
  obtain rfl := Except.ok.inj hexec'
  have hway : g.way = f.way := Runs.exec_preserves (J := fun g => g.way = f.way)
    (fun _ c _ hg hc => (input_way c (rw_of_way hg hro.rw) hc).trans hg) rfl hexec
  have hRO := hro.of_way hway
  have hS : g.Seekable :=
    ⟨hRO.read, hRO.rw, hbuf.1, hbuf.2, hG.cnt, (hG.inside hbuf.1).1⟩
  exact pathsAgree_iff hd hs hS ht.1 hin

/-- At the end of the file the buffer is empty. -/
theorem run_pathsAgree_iff_end :
    PathsAgree binaryFd sampleOs 1
      (endOf (sampleInput [97]) (Runs.exec (Stream.input binaryFd sampleOs) (sampleInput [97])
        [.read .getc, .read .getc])) :=
  (run_pathsAgree_iff binaryFd sampleOs (sampleInput [97]) [.read .getc, .read .getc] rfl rfl
    (sampleOs_reads _ rfl) (sampleInput_opened _) ⟨rfl, rfl, rfl, rfl⟩
      (by decide +kernel) _ (by rfl)
    (by decide +kernel) 1 (by decide +kernel) (by decide +kernel)).mpr (by decide +kernel)

/-- Back at the first of two characters, which is in the buffer, `ungetc` fails on the fast
path only. -/
theorem fseek_paths_differ :
    Runs.Along (Stream.input binaryFd sampleOs) (fun _ c => c.Valid) (sampleInput [97, 98])
        [.read .getc] ∧
      (let g := endOf (sampleInput [97, 98]) (Runs.exec (Stream.input binaryFd sampleOs)
        (sampleInput [97, 98]) [.read .getc])
      InBuffer g.restarted (g.told binaryFd) 0 ∧ ¬ PathsAgree binaryFd sampleOs 0 g) := by
  refine ⟨by decide +kernel, by decide +kernel, ?_⟩
  rintro ⟨-, -, hall⟩
  have h := hall [.read (.ungetc 120)] (by decide)
  revert h
  decide +kernel

end DjgppLibc.Stdio
