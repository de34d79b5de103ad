import DjgppLibc.StdioBuffers

/-!
# fwrite against putc

Both ways of writing a string add the same bytes to the log, and flushing an
open stream sends the log, so their outputs agree whatever the sizes of the
writes are. The exceptions are exact: a length that is negative as an `int`, an
item size of zero, the byte 255 on the last free place of a binary line buffer,
and a line buffered update stream that no call of `_flsbuf` opens for output, so
that `fflush` forgets what was stored.
-/
namespace DjgppLibc.Stdio
open ByteMemory

variable {d : Fd} {o o' : Os} {f : Stream} {data : List UInt8} {size count : ℕ}

/-- `putc` of each byte in turn. -/
def putcs (d : Fd) (o : Os) : List UInt8 → Stream → Stream
  | [], f => f
  | x :: xs, f => putcs d o xs (putc d o x f).1

theorem putcs_spec (hos : o.Writes d) (data : List UInt8) (h : f.Ready) :
    (putcs d o data f).Ready ∧ (putcs d o data f).log = f.log ++ encode d.text data ∧
      (f.flag.wrt = true ∨ data ≠ [] → (putcs d o data f).flag.wrt = true) := by
  induction data generalizing f with
  | nil => exact ⟨h, by simp [putcs, encode], fun hw => hw.resolve_right (by simp)⟩
  | cons x xs ih =>
      obtain ⟨h₁, h₂, h₃⟩ := putc_spec (d := d) (o := o) (x := x) h
      obtain ⟨i₁, i₂, i₃⟩ := ih h₁
      refine ⟨i₁, ?_, fun _ => i₃ (.inl h₂)⟩
      rw [putcs, i₂, h₃ hos, List.append_assoc, ← encode_append, List.singleton_append]

theorem fwriteLoop_nil (f : Stream) : fwriteLoop d o [] f = (f, []) := by
  unfold fwriteLoop
  split_ifs <;> rfl

theorem length_le_encode (text : Bool) (xs : List UInt8) : xs.length ≤ (encode text xs).length := by
  induction xs with
  | nil => simp
  | cons x xs ih =>
      rw [← List.singleton_append, encode_append, List.length_append, List.length_append]
      have : 1 ≤ (encode text [x]).length := by
        simp only [encode, List.flatMap_singleton]
        split_ifs <;> simp
      simpa using Nat.add_le_add this ih

theorem itemsDone_zero (hs : size < 4294967296) (hc : count < 4294967296) :
    itemsDone size count 0 = count ↔ size ≠ 0 ∨ count = 0 := by
  unfold itemsDone
  by_cases h0 : size = 0
  · simp [h0, eq_comm]
  · rw [if_pos h0]
    refine iff_of_true ?_ (.inl h0)
    have h₁ : (((0 : ℤ) + size - 1) % 4294967296).toNat / size = 0 := by
      rw [show (((0 : ℤ) + size - 1) % 4294967296).toNat = size - 1 by omega]
      exact Nat.div_eq_of_lt (by omega)
    rw [h₁]
    omega

theorem itemsDone_ne {left : ℕ} (hpos : 0 < left) (hle : left ≤ size * count)
    (hlt : size * count < 2147483648) (hc : count < 4294967296) :
    itemsDone size count left ≠ count := by
  have hs0 : size ≠ 0 := by
    rintro rfl
    omega
  have hc0 : 0 < count := Nat.pos_of_ne_zero (by rintro rfl; omega)
  have hsize : size ≤ size * count := Nat.le_mul_of_pos_right size hc0
  unfold itemsDone
  rw [if_pos hs0, show (((left : ℤ) + size - 1) % 4294967296).toNat = left + size - 1 by omega]
  obtain ⟨q, hq⟩ : ∃ q, q = (left + size - 1) / size := ⟨_, rfl⟩
  have h₁ : 1 ≤ q := by
    rw [hq, Nat.le_div_iff_mul_le (by omega)]
    omega
  have h₂ : q ≤ count := by
    rw [hq]
    refine Nat.le_of_lt_succ (Nat.div_lt_of_lt_mul ?_)
    rw [Nat.mul_succ]
    omega
  rw [← hq]
  omega

/-- `fwrite` then `fflush` sends what `putc` of each byte then `fflush` sends, and
`fwrite` returns `count`. -/
def SameAsPutc (d : Fd) (o o' : Os) (data : List UInt8) (size count : ℕ) (f : Stream) : Prop :=
  (fflush d o (fwrite d o data size count f).1).1.sent =
      (fflush d o' (putcs d o' data f)).1.sent ∧
    (fwrite d o data size count f).2 = count

def Plain (d : Fd) (data : List UInt8) (size count : ℕ) (f : Stream) : Prop :=
  data.length < 2147483648 ∧ (size ≠ 0 ∨ count = 0) ∧
    (f.flag.lbf = true → ¬ (d.text = false ∧ Stops f.bufsiz f.level data)) ∧
    (f.flag.lbf = true →
      f.flag.wrt = true ∨ data = [] ∨ LF ∈ data ∨ f.bufsiz ≤ f.level + data.length)

instance (d : Fd) (data : List UInt8) (size count : ℕ) (f : Stream) :
    Decidable (Plain d data size count f) :=
  inferInstanceAs (Decidable (_ ∧ _ ∧ (_ → ¬ (_ ∧ _)) ∧ (_ → _)))

/-- What is sent by flushing, in terms of the log before. -/
theorem sent_putcs (hos : o.Writes d) (data : List UInt8) (h : f.Ready)
    (hw : f.flag.wrt = true ∨ data ≠ []) :
    (fflush d o (putcs d o data f)).1.sent = f.log ++ encode d.text data := by
  obtain ⟨h₁, h₂, h₃⟩ := putcs_spec hos data h
  rw [(fflush_spec h₁).2.2 hos, if_pos (h₃ hw), h₂]

/-- A length that is negative as an `int`, or wraps, loses bytes. -/
theorem sent_short (hos : o.Writes d) (hos' : o'.Writes d) (h : f.Ready) {k : ℕ}
    (hk : k < data.length) :
    (fflush d o (fwriteLoop d o (data.take k) f).1).1.sent ≠
      (fflush d o' (putcs d o' data f)).1.sent := by
  have hne : data ≠ [] := by
    rintro rfl
    simp at hk
  have hG := fwriteLoop_ready (d := d) (o := o) (data.take k) h
  have hlog : (fwriteLoop d o (data.take k) f).1.log.length ≤
      f.log.length + (encode d.text (data.take k)).length := by
    cases hl : f.flag.lbf with
    | false =>
        rw [(fwriteLoop_full hos _ h hl).log, List.length_append]
    | true => exact (fwriteLoop_line hos _ h hl).2.2
  have hsent : (fflush d o (fwriteLoop d o (data.take k) f).1).1.sent.length ≤
      (fwriteLoop d o (data.take k) f).1.log.length := by
    rw [(fflush_spec hG).2.2 hos]
    split_ifs
    · exact le_rfl
    · rw [Stream.log, List.length_append]
      exact Nat.le_add_right _ _
  have hsplit : (encode d.text data).length =
      (encode d.text (data.take k)).length + (encode d.text (data.drop k)).length := by
    rw [← List.length_append, ← encode_append, List.take_append_drop]
  have hdrop := length_le_encode d.text (data.drop k)
  rw [List.length_drop] at hdrop
  rw [sent_putcs hos' data h (.inr hne)]
  intro heq
  have := congrArg List.length heq
  rw [List.length_append] at this
  omega

theorem sameAsPutc_iff (hos : o.Writes d) (hos' : o'.Writes d) (h : f.Ready)
    (hs : size < 4294967296) (hc : count < 4294967296) (hlen : data.length = size * count) :
    SameAsPutc d o o' data size count f ↔ Plain d data size count f := by
  unfold SameAsPutc
  rw [fwrite_eq, ← hlen]
  dsimp only
  by_cases hbig : data.length < 2147483648
  swap
  · -- the loop sees a shorter string
    refine iff_of_false (fun hsame => ?_) (fun hp => hbig hp.1)
    refine sent_short hos hos' h ?_ hsame.1
    unfold toSigned
    split_ifs <;> omega
  have hsig : toSigned data.length = data.length := by
    unfold toSigned
    rw [if_pos (by omega), Nat.mod_eq_of_lt (by omega)]
  have hneg : ¬ (data.length : ℤ) < 0 := by omega
  rw [hsig, Int.toNat_natCast, List.take_length, if_neg hneg]
  have hG := fwriteLoop_ready (d := d) (o := o) data h
  by_cases hnil : data = []
  · -- nothing to write: only the item count matters
    subst hnil
    rw [fwriteLoop_nil, putcs, (fflush_spec h).2.2 hos, (fflush_spec h).2.2 hos']
    have hzero := itemsDone_zero hs hc
    refine ⟨fun hr => ⟨hbig, hzero.mp hr.2, fun _ hst => hst.2, fun _ => .inr (.inl rfl)⟩,
      fun hp => ⟨rfl, hzero.mpr hp.2.1⟩⟩
  have hpos : 0 < data.length := List.length_pos_iff.mpr hnil
  have hs0 : size ≠ 0 := by
    rintro rfl
    omega
  rw [sent_putcs hos' data h (.inr hnil), (fflush_spec hG).2.2 hos]
  cases hl : f.flag.lbf with
  | false =>
      have hw := fwriteLoop_full hos data h hl
      refine iff_of_true ⟨?_, ?_⟩ ⟨hbig, .inl hs0, fun hl' =>
        absurd (hl.symm.trans hl') (by decide),
        fun hl' => absurd (hl.symm.trans hl') (by decide)⟩
      · rw [if_pos (hw.wrt (.inr hnil)), hw.log]
      · rw [hw.done]
        exact (itemsDone_zero hs hc).mpr (.inl hs0)
  | true =>
      obtain ⟨h₁, h₂, -⟩ := fwriteLoop_line hos data h hl
      by_cases hstop : d.text = false ∧ Stops f.bufsiz f.level data
      · refine iff_of_false (fun hr => ?_) (fun hp => hp.2.2.1 hl hstop)
        obtain ⟨hleft, hle⟩ := h₂ hstop
        exact itemsDone_ne (List.length_pos_iff.mpr hleft) (hlen ▸ hle) (by omega) hc hr.2
      · have hw := h₁ hstop
        have hret : itemsDone size count (fwriteLoop d o data f).2.length = count := by
          rw [hw.done]
          exact (itemsDone_zero hs hc).mpr (.inl hs0)
        by_cases hwrt : (fwriteLoop d o data f).1.flag.wrt = true
        · rw [if_pos hwrt, hw.log]
          refine iff_of_true ⟨rfl, hret⟩ ⟨hbig, .inl hs0, fun _ => hstop, fun _ => ?_⟩
          rcases hw.wrt.mp hwrt with h' | h' | h'
          · exact .inl h'
          · exact .inr (.inr (.inl h'))
          · exact .inr (.inr (.inr h'))
        · -- the stream is still closed for output, and flushing forgets the bytes
          rw [if_neg hwrt, hw.sent (by simpa using hwrt)]
          refine iff_of_false (fun hr => ?_) (fun hp => ?_)
          · have := congrArg List.length hr.1
            have hle := length_le_encode d.text data
            rw [Stream.log, List.length_append, List.length_append] at this
            omega
          · rcases hp.2.2.2 hl with h' | h' | h' | h'
            · exact hwrt (hw.wrt.mpr (.inl h'))
            · exact hnil h'
            · exact hwrt (hw.wrt.mpr (.inr (.inl h')))
            · exact hwrt (hw.wrt.mpr (.inr (.inr h')))

theorem run_sameAsPutc_iff (d : Fd) (o₀ o o' : Os) (hos : o.Writes d) (hos' : o'.Writes d)
    (f₀ f : Stream) (cs : List OutCall) (hf : f₀.Opened)
    (hv : Runs.Along (Stream.output d o₀) (fun _ c => c.Valid) f₀ cs)
    (hq : Runs.Along (Stream.output d o₀) (Quiet d) f₀ cs)
    (hexec : Runs.exec (Stream.output d o₀) f₀ cs = .ok f) (data : List UInt8) (size count : ℕ)
    (hs : size < 4294967296) (hc : count < 4294967296) (hlen : data.length = size * count) :
    SameAsPutc d o o' data size count f ↔ Plain d data size count f := by
  obtain ⟨g, hg, hG⟩ := hf.exec hv hq
  rw [hexec] at hg
  obtain rfl := Except.ok.inj hg
  exact sameAsPutc_iff hos hos' hG hs hc hlen

/-- A file opened for writing in binary mode. -/
def binaryFd : Fd := ⟨false, false, false, true, false, false⟩

theorem sampleOs_writes (d : Fd) (hd : d.append = false) : sampleOs.Writes d :=
  ⟨fun _ => (by decide : (0 : ℤ) < 3), fun h => absurd (hd.symm.trans h) (by decide)⟩

def endOf (f : Stream) : Except Empty Stream → Stream
  | .ok f => f
  | .error _ => f

theorem run_sameAsPutc_iff_text :
    SameAsPutc sampleFd sampleOs sampleOs [97, 10, 255, 98, 98, 10] 2 3
      (endOf sampleStream (Runs.exec (Stream.output sampleFd sampleOs) sampleStream
        [.setvbuf 1000 .line 4, .putc 97])) :=
  (run_sameAsPutc_iff sampleFd sampleOs sampleOs sampleOs (sampleOs_writes _ rfl)
    (sampleOs_writes _ rfl) sampleStream _ [.setvbuf 1000 .line 4, .putc 97] ⟨.inl rfl, rfl, rfl,
      rfl, rfl, rfl, rfl⟩
    (by decide +kernel) (by decide +kernel) (by rfl) [97, 10, 255, 98, 98, 10] 2 3 (by decide)
    (by decide) (by decide)).mpr (by decide +kernel)

/-- The byte 255 falls on the last place of a buffer of two. -/
theorem fwrite_stops_at_255 :
    Runs.Along (Stream.output binaryFd sampleOs) (fun _ c => c.Valid) sampleStream
        [.setvbuf 1000 .line 2] ∧
      ¬ SameAsPutc binaryFd sampleOs sampleOs [97, 255, 98] 1 3
        (endOf sampleStream (Runs.exec (Stream.output binaryFd sampleOs) sampleStream
          [.setvbuf 1000 .line 2])) := by
  refine ⟨by decide +kernel, ?_⟩
  rintro ⟨-, hcount⟩
  revert hcount
  decide +kernel

end DjgppLibc.Stdio
