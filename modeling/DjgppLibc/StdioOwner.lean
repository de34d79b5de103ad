import DjgppLibc.StdioDirection
import Mathlib.Data.List.Perm.Basic

/-!
# Who owns the buffer

`_IOMYBUF` says that the buffer came from `malloc` and has to go back. The three
places that allocate a buffer set it, but no place clears it: `setvbuf` hands the
old buffer back and leaves the flag on, also when the new buffer is the caller's
or there is none. A stream on which this does not happen hands every block back
once and nothing else.
-/
namespace DjgppLibc.Stdio

variable {d : Fd} {o : Os} {f f' g : Stream}

/-- `fclose`, with the answer of `close`. -/
def fclose (d : Fd) (o : Os) (close : ℤ) (f : Stream) : Stream × ℤ :=
  let (f, r) :=
    if (f.flag.read || f.flag.wrt || f.flag.rw) && !f.flag.strg || d.directory then
      let (f, r) := fflush d o f
      (if f.flag.mybuf then { f with freed := f.base :: f.freed } else f,
        if close < 0 then EOF else r)
    else (f, EOF)
  ({ f with cnt := 0, base := 0, ptr := 0, bufsiz := 0, flag := {} }, r)

structure Stream.Fresh (d : Fd) (f : Stream) : Prop where
  opened : (f.flag.read || f.flag.wrt || f.flag.rw || d.directory) = true
  strg : f.flag.strg = false
  mybuf : f.flag.mybuf = false
  base : f.base = 0
  freed : f.freed = []
  allocated : f.allocated = []

/-- The flag is set exactly when the buffer is one that the library has allocated and not yet
handed back. -/
def BufferOwned (f : Stream) : Prop :=
  f.flag.mybuf = true ↔ f.base ≠ 0 ∧ f.freed.count f.base < f.allocated.count f.base

/-- The array on the stack of `fprintf` has an address. -/
def StreamCall.Valid : StreamCall → Prop
  | .fprintf localbuf _ => localbuf ≠ 0
  | _ => True

/-- `setvbuf` does not take away a buffer of the library without allocating another one. -/
def KeepsOwner (f : Stream) : StreamCall → Prop
  | .output (.setvbuf buf type len) | .input (.setvbuf buf type len) =>
      f.flag.mybuf = true → type ≠ .none ∧ (len = 0 ∨ buf = 0)
  | _ => True

instance : ∀ c : StreamCall, Decidable c.Valid
  | .fprintf _ _ => inferInstanceAs (Decidable (_ ≠ _))
  | .output _ => .isTrue trivial
  | .input _ => .isTrue trivial

instance (f : Stream) : ∀ c : StreamCall, Decidable (KeepsOwner f c)
  | .output (.setvbuf _ _ _) => inferInstanceAs (Decidable (_ → _ ∧ _))
  | .input (.setvbuf _ _ _) => inferInstanceAs (Decidable (_ → _ ∧ _))
  | .output (.putc _) => .isTrue trivial
  | .output (.fwrite _ _ _) => .isTrue trivial
  | .output .fflush => .isTrue trivial
  | .output .ftell => .isTrue trivial
  | .output (.fseek _ _) => .isTrue trivial
  | .input (.read _) => .isTrue trivial
  | .input (.fseek _ _) => .isTrue trivial
  | .fprintf _ _ => .isTrue trivial

instance (f : Stream) : Decidable (BufferOwned f) := inferInstanceAs (Decidable (_ ↔ _))

def Core.owned (k : Core) : List ℕ := if k.mybuf then [k.base] else []

structure Core.Sound (d : Fd) (k : Core) : Prop where
  opened : (k.read || k.wrt || k.rw || d.directory) = true
  strg : k.strg = false
  unbuffered : k.nbf = true → k.base = 0
  mine : k.mybuf = true → k.base ≠ 0
  blocks : k.allocated.Perm (k.owned ++ k.freed)

theorem Core.owned_of_mine {k : Core} (h : k.mybuf = true) : k.owned = [k.base] := if_pos h

theorem Core.owned_of_not {k : Core} (h : k.mybuf = false) : k.owned = [] :=
  if_neg (by simp [h])

theorem Core.Sound.unowned {k : Core} (h : k.Sound d) (hm : k.mybuf = false) :
    k.allocated.Perm k.freed := by
  have hb := h.blocks
  rwa [Core.owned_of_not hm, List.nil_append] at hb

/-- Without a buffer of the library the others may be exchanged. -/
theorem Core.Sound.exchange {k : Core} (h : k.Sound d) (hm : k.mybuf = false) {base : ℕ}
    {nbf : Bool}
    (h0 : nbf = true → base = 0) : Core.Sound d { k with base := base, nbf := nbf } := by
  refine ⟨h.opened, h.strg, h0, fun hm' => absurd (hm.symm.trans hm') (by decide), ?_⟩
  have hnone : Core.owned { k with base := base, nbf := nbf } = [] := Core.owned_of_not hm
  rw [hnone]
  exact h.unowned hm

theorem Core.Sound.move {k k' : Core} (h : k.Sound d) (hmove : k.Move k') : k'.Sound d := by
  cases hmove with
  | turn hrw read wrt =>
      refine ⟨?_, h.strg, h.unbuffered, h.mine, h.blocks⟩
      simp [show k.rw = true from hrw]
  | allocate h0 hn a ha =>
      have hm : k.mybuf = false := by
        by_contra hm
        exact h.mine (by simpa using hm) h0
      refine ⟨h.opened, h.strg, fun hn' => absurd (hn.symm.trans hn') (by decide), fun _ => ha, ?_⟩
      exact (h.unowned hm).cons a
  | refuse h0 => exact ⟨h.opened, h.strg, fun _ => h0, h.mine, h.blocks⟩
  | drop hn =>
      have h0 := h.unbuffered hn
      have hsame : ({ k with base := 0 } : Core) = k := by
        rw [← h0]
      rw [hsame]
      exact h

theorem Moves.sound (h : Moves f f') (hf : f.core.Sound d) : f'.core.Sound d :=
  h.keeps (fun _ _ hmove hk => hk.move hmove) hf

theorem install_other (h : f.core.Sound d) (hm : f.flag.mybuf = false) {type : Buffering} {base : ℕ}
    (h0 : type = .none → base = 0) (bufsiz : ℕ) :
    (f.install type base bufsiz false).core.Sound d := by
  have hcore : (f.install type base bufsiz false).core =
      { f.core with base := base, nbf := decide (type = .none) } := by
    simp [Stream.install, Stream.core, hm]
  rw [hcore]
  exact h.exchange hm fun hn => h0 (of_decide_eq_true hn)

theorem install_mine (h : f.core.Sound d) {type : Buffering} {a : ℕ} (ht : type ≠ .none)
    (ha : a ≠ 0) (calls bufsiz : ℕ) :
    ({ f with calls := calls, allocated := a :: f.allocated }.install type a bufsiz true).core.Sound
      d := by
  obtain ⟨g, hg⟩ : ∃ g, g =
    { f with calls := calls, allocated := a :: f.allocated }.install type a bufsiz true := ⟨_, rfl⟩
  have hfreed : g.freed = f.core.owned ++ f.freed := by
    rw [hg]
    cases hm : f.flag.mybuf with
    | true =>
        rw [Core.owned_of_mine hm]
        exact if_pos ⟨h.mine hm, hm⟩
    | false =>
        rw [Core.owned_of_not hm]
        exact if_neg fun h' => absurd (hm.symm.trans h'.2) (by decide)
  have hmine : g.flag.mybuf = true := by
    rw [hg]
    exact Bool.or_true _
  have hbase : g.base = a := by rw [hg]; rfl
  have hal : g.allocated = a :: f.allocated := by rw [hg]; rfl
  rw [← hg]
  refine ⟨hg ▸ h.opened, hg ▸ h.strg, ?_, fun _ => hbase.trans_ne ha, ?_⟩
  · intro hn
    rw [hg] at hn
    exact absurd (of_decide_eq_true hn) ht
  · rw [Core.owned_of_mine hmine]
    change g.allocated.Perm ([g.base] ++ g.freed)
    rw [hal, hbase, hfreed]
    exact h.blocks.cons a

theorem setvbuf_sound (h : f.core.Sound d) {buf len : ℕ} {type : Buffering}
    (hkeep : f.flag.mybuf = true → type ≠ .none ∧ (len = 0 ∨ buf = 0)) :
    (setvbuf d o buf type len f).1.core.Sound d := by
  have hg := (fflush_moves (d := d) (o := o) f).sound h
  have hmine : (fflush d o f).1.flag.mybuf = f.flag.mybuf := by
    rcases fflush_core (d := d) (o := o) f with hc | ⟨-, hc⟩
    · exact congrArg Core.mybuf hc
    · exact congrArg Core.mybuf hc
  unfold setvbuf
  generalize (fflush d o f).1 = g at hg hmine
  rw [← hmine] at hkeep
  dsimp only
  have hother : ¬ (type ≠ .none ∧ (len = 0 ∨ buf = 0)) → g.flag.mybuf = false := by
    intro hno
    by_contra hm
    exact hno (hkeep (by simpa using hm))
  split_ifs with ht h0 hb ha
  · exact install_other hg (hother fun h' => h'.1 ht) (fun _ => rfl) 0
  · exact hg
  · exact hg
  · exact install_mine hg ht ha _ len
  · exact install_other hg (hother fun h' => h'.2.elim h0 hb) (fun h' => absurd h' ht) len

/-- An unbuffered stream has no buffer while `fprintf` lends it one. -/
theorem fprintf_sound (h : f.core.Sound d) {localbuf : ℕ} (hl : localbuf ≠ 0)
    (text : List UInt8) : (fprintf d o localbuf text f).1.core.Sound d := by
  unfold fprintf
  dsimp only
  split_ifs with hn
  · obtain ⟨g, hg⟩ : ∃ g : Stream, g = { f with ptr := localbuf, base := localbuf, bufsiz := 16384
                                                flag := { f.flag with nbf := false } } := ⟨_, rfl⟩
    rw [← hg]
    have hm : f.core.mybuf = false := by
      by_contra hm
      exact h.mine (by simpa using hm) (h.unbuffered hn)
    have hlend : g.core = { f.core with base := localbuf, nbf := false } := by
      rw [hg]
      rfl
    have hG : g.core.Sound d := by
      rw [hlend]
      exact h.exchange hm fun hn' => nomatch hn'
    have hmoves : Moves g (fflush d o (doprnt d o text g).1).1 :=
      (doprnt_moves text g).trans (fflush_moves _)
    have hlent : (fflush d o (doprnt d o text g).1).1.core.base = localbuf ∧
        (fflush d o (doprnt d o text g).1).1.core.nbf = false ∧
        (fflush d o (doprnt d o text g).1).1.core.mybuf = false := by
      refine hmoves.keeps (P := fun k => k.base = localbuf ∧ k.nbf = false ∧ k.mybuf = false) ?_ ?_
      · intro k k' hmove hk
        cases hmove with
        | turn hrw read wrt => exact hk
        | allocate h0 hn' a ha => exact absurd (hk.1.symm.trans h0) hl
        | refuse h0 => exact absurd (hk.1.symm.trans h0) hl
        | drop hn' => exact absurd (hk.2.1.symm.trans hn') (by decide)
      · rw [hlend]
        exact ⟨rfl, rfl, hm⟩
    have hS := hmoves.sound hG
    generalize (fflush d o (doprnt d o text g).1).1 = k at hS hlent
    exact hS.exchange hlent.2.2 fun _ => rfl
  · exact (doprnt_moves text f).sound h

theorem output_sound (h : f.core.Sound d) {c : OutCall} (hkeep : KeepsOwner f (.output c)) :
    ∃ f', f.output d o c = .ok f' ∧ f'.core.Sound d := by
  cases c with
  | putc x => exact ⟨_, rfl, (putc_moves x f).sound h⟩
  | fwrite data size count => exact ⟨_, rfl, (fwrite_moves data size count f).sound h⟩
  | fflush => exact ⟨_, rfl, (fflush_moves f).sound h⟩
  | ftell => exact ⟨_, rfl, (Moves.of_core ftell_core).sound h⟩
  | fseek offset whence => exact ⟨_, rfl, (fseek_moves offset whence f).sound h⟩
  | setvbuf buf type len => exact ⟨_, rfl, setvbuf_sound h hkeep⟩

theorem input_sound (h : f.core.Sound d) {c : InCall} (hkeep : KeepsOwner f (.input c)) :
    ∃ f', f.input d o c = .ok f' ∧ f'.core.Sound d := by
  cases c with
  | read c =>
      cases c with
      | getc => exact ⟨_, rfl, (getc_moves f).sound h⟩
      | fread size count => exact ⟨_, rfl, (fread_moves size count f).sound h⟩
      | ungetc c => exact ⟨_, rfl, (Moves.of_core ungetc_core).sound h⟩
  | fseek offset whence => exact ⟨_, rfl, (fseek_moves offset whence f).sound h⟩
  | setvbuf buf type len => exact ⟨_, rfl, setvbuf_sound h hkeep⟩

theorem call_sound (h : f.core.Sound d) {c : StreamCall} (hv : c.Valid) (hkeep : KeepsOwner f c) :
    ∃ f', f.call d o c = .ok f' ∧ f'.core.Sound d := by
  cases c with
  | output c => exact output_sound h hkeep
  | input c => exact input_sound h hkeep
  | fprintf localbuf text => exact ⟨_, rfl, fprintf_sound h hv text⟩

theorem Stream.Fresh.sound (h : f.Fresh d) : f.core.Sound d := by
  refine ⟨h.opened, h.strg, fun _ => h.base, fun hm => ?_, ?_⟩
  · exact absurd (h.mybuf.symm.trans hm) (by decide)
  · rw [Core.owned_of_not h.mybuf]
    change f.allocated.Perm ([] ++ f.freed)
    rw [h.allocated, h.freed]
    exact .refl _

theorem count_blocks (h : f.core.Sound d) (a : ℕ) :
    f.allocated.count a = f.core.owned.count a + f.freed.count a := by
  have hcount := h.blocks.count_eq a
  rwa [List.count_append] at hcount

theorem bufferOwned_of_sound (h : f.core.Sound d) : BufferOwned f := by
  have hcount := count_blocks h f.base
  unfold BufferOwned
  cases hm : f.flag.mybuf with
  | true =>
      rw [Core.owned_of_mine hm] at hcount
      refine iff_of_true rfl ⟨h.mine hm, ?_⟩
      have hone : [f.core.base].count f.base = 1 := List.count_singleton_self
      omega
  | false =>
      rw [Core.owned_of_not hm, List.count_nil] at hcount
      refine iff_of_false (by decide) ?_
      rintro ⟨-, hlt⟩
      omega

theorem fclose_freed (h : f.core.Sound d) (close : ℤ) :
    (fclose d o close f).1.freed.Perm (fclose d o close f).1.allocated := by
  have hopen : ((f.flag.read || f.flag.wrt || f.flag.rw) && !f.flag.strg || d.directory) =
      true := by
    have hs : f.flag.strg = false := h.strg
    have ho : (f.flag.read || f.flag.wrt || f.flag.rw || d.directory) = true := h.opened
    rw [hs, Bool.not_false, Bool.and_true]
    exact ho
  have hg := (fflush_moves (d := d) (o := o) f).sound h
  unfold fclose
  rw [if_pos hopen]
  dsimp only
  generalize (fflush d o f).1 = g at hg
  have hb := hg.blocks
  split_ifs with hm
  · rw [Core.owned_of_mine hm] at hb
    exact hb.symm
  · have hm' : g.flag.mybuf = false := by simpa using hm
    rw [Core.owned_of_not hm'] at hb
    exact hb.symm

/-- As long as no buffer of the library is taken away from under the flag, the flag is right in
every state, nothing but the blocks of the library has been handed back, and after `fclose` every
block has been handed back once. -/
theorem run_bufferOwned (d : Fd) (o : Os) (f : Stream) (cs : List StreamCall) (close : ℤ)
    (hf : f.Fresh d) (hv : Runs.Along (Stream.call d o) (fun _ c => c.Valid) f cs)
    (hkeep : Runs.Along (Stream.call d o) KeepsOwner f cs) :
    ∃ g, Runs.exec (Stream.call d o) f cs = .ok g ∧ BufferOwned g ∧
      (∀ a, g.freed.count a ≤ g.allocated.count a) ∧
      BufferOwned (fclose d o close g).1 ∧
      (fclose d o close g).1.freed.Perm (fclose d o close g).1.allocated := by
  obtain ⟨g, hg, hs⟩ := Runs.exec_invariant (J := fun g : Stream => g.core.Sound d)
    (fun _ _ hs hv hkeep => call_sound hs hv hkeep) hf.sound hv hkeep
  refine ⟨g, hg, bufferOwned_of_sound hs, fun a => ?_, ?_, fclose_freed hs close⟩
  · rw [count_blocks hs a]
    exact Nat.le_add_left _ _
  · refine iff_of_false (by simp [fclose]) ?_
    rintro ⟨hb, -⟩
    exact hb rfl

/-- The caller's buffer is replaced by one of the library, and that one by another one. -/
def allocatedLast : List StreamCall :=
  [.output (.setvbuf 1000 .line 4), .output (.fwrite [97, 98, 10] 1 3),
    .output (.setvbuf 0 .full 8), .output (.putc 99), .output (.setvbuf 0 .line 16),
    .fprintf 2000 [100, 10]]

theorem run_bufferOwned_allocatedLast :
    (∃ g, Runs.exec (Stream.call sampleFd sampleOs) sampleStream allocatedLast = .ok g ∧
      BufferOwned g ∧ (∀ a, g.freed.count a ≤ g.allocated.count a) ∧
      BufferOwned (fclose sampleFd sampleOs 0 g).1 ∧
      (fclose sampleFd sampleOs 0 g).1.freed.Perm (fclose sampleFd sampleOs 0 g).1.allocated) ∧
      (Runs.exec (Stream.call sampleFd sampleOs) sampleStream allocatedLast).toOption.map
          (fun g => (g.flag.mybuf, (fclose sampleFd sampleOs 0 g).1.freed)) =
        some (true, [65536, 65536]) :=
  ⟨run_bufferOwned _ _ _ _ 0 ⟨rfl, rfl, rfl, rfl, rfl, rfl⟩ (by decide +kernel)
    (by decide +kernel), by decide +kernel⟩

def callersLast : List StreamCall :=
  [.output (.setvbuf 0 .full 8), .output (.setvbuf 1000 .full 8)]

theorem callersLast_freed :
    sampleStream.Fresh sampleFd ∧
      Runs.Along (Stream.call sampleFd sampleOs) (fun _ c => c.Valid) sampleStream callersLast ∧
      ¬ BufferOwned (endOf sampleStream
        (Runs.exec (Stream.call sampleFd sampleOs) sampleStream callersLast)) ∧
      (fclose sampleFd sampleOs 0 (endOf sampleStream
          (Runs.exec (Stream.call sampleFd sampleOs) sampleStream callersLast))).1.freed =
        [1000, 65536] ∧
      (fclose sampleFd sampleOs 0 (endOf sampleStream
          (Runs.exec (Stream.call sampleFd sampleOs) sampleStream callersLast))).1.allocated =
        [65536] :=
  ⟨⟨rfl, rfl, rfl, rfl, rfl, rfl⟩, by decide +kernel, by decide +kernel, by decide +kernel,
    by decide +kernel⟩

end DjgppLibc.Stdio
