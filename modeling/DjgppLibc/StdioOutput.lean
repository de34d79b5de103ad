import DjgppLibc.Stdio
import DjgppLibc.Runs

/-!
# Output streams

`Sound` is what holds of an output stream whatever `_cnt` is, and `Ready` adds
what `_cnt` means in each mode. `_flsbuf` does not look at `_cnt`, so it leads
from a sound stream to a ready one; the fast paths look at nothing else, so they
need a ready one. `log` is what the program has written so far, sent or not:
every path that succeeds adds its byte to the log, and flushing leaves it alone.
-/
namespace DjgppLibc.Stdio
open ByteMemory

variable {d : Fd} {o : Os} {f : Stream} {c : ℤ} {x : UInt8} {data : List UInt8}

def Store.Inside (e : Store) : Prop :=
  e.len = 0 ∨ e.base ≠ 0 ∧ e.base ≤ e.addr ∧ e.addr + e.len ≤ e.base + e.bufsiz

instance (e : Store) : Decidable e.Inside := inferInstanceAs (Decidable (_ ∨ _ ∧ _))

structure Stream.Sound (f : Stream) : Prop where
  output : f.flag.wrt = true ∨ f.flag.rw = true
  noread : f.flag.read = false
  nostrg : f.flag.strg = false
  nbf : f.flag.nbf = true → f.base = 0
  lbf : f.flag.lbf = true → f.base ≠ 0 ∧ f.ptr < f.base + f.bufsiz
  buffer : f.base ≠ 0 → 0 < f.bufsiz ∧ f.bufsiz < 2147483648 ∧ f.base + f.bufsiz < 4294967296 ∧
    f.base ≤ f.ptr ∧ f.ptr ≤ f.base + f.bufsiz
  inside : ∀ e ∈ f.stores, e.Inside

def Stream.level (f : Stream) : ℕ := if f.base = 0 then 0 else f.ptr - f.base

structure Stream.Ready (f : Stream) : Prop where
  sound : f.Sound
  line : f.flag.lbf = true → f.cnt = -f.level
  full : f.flag.lbf = false → 0 ≤ f.cnt ∧ f.level + f.cnt ≤ f.bufsiz ∧ (f.base = 0 → f.cnt = 0)
  idle : f.flag.lbf = false → f.flag.wrt = false → f.cnt = 0 ∧ f.level = 0

def Stream.log (f : Stream) : List UInt8 := f.sent ++ bytes f.mem f.base f.level

/-- No write fails, and a descriptor in append mode can be positioned. -/
structure Os.Writes (d : Fd) (o : Os) : Prop where
  write : ∀ k, 0 < o.write k
  seek : d.append = true → d.seekable = true

structure Stream.Same (f f' : Stream) : Prop where
  cnt : f'.cnt = f.cnt
  ptr : f'.ptr = f.ptr
  base : f'.base = f.base
  bufsiz : f'.bufsiz = f.bufsiz
  mem : f'.mem = f.mem
  stores : f'.stores = f.stores
  flag : { f'.flag with err := f.flag.err } = f.flag

namespace Stream.Same
variable {f' f'' : Stream}

theorem refl (f : Stream) : f.Same f := ⟨rfl, rfl, rfl, rfl, rfl, rfl, rfl⟩

theorem trans (h : f.Same f') (h' : f'.Same f'') : f.Same f'' := by
  refine ⟨h'.cnt.trans h.cnt, h'.ptr.trans h.ptr, h'.base.trans h.base, h'.bufsiz.trans h.bufsiz,
    h'.mem.trans h.mem, h'.stores.trans h.stores, ?_⟩
  have := h.flag
  rw [← h'.flag] at this
  exact this

theorem read (h : f.Same f') : f'.flag.read = f.flag.read := (congrArg Flags.read h.flag :)

theorem wrt (h : f.Same f') : f'.flag.wrt = f.flag.wrt := (congrArg Flags.wrt h.flag :)

theorem strg (h : f.Same f') : f'.flag.strg = f.flag.strg := (congrArg Flags.strg h.flag :)

theorem rw (h : f.Same f') : f'.flag.rw = f.flag.rw := (congrArg Flags.rw h.flag :)

theorem nbf (h : f.Same f') : f'.flag.nbf = f.flag.nbf := (congrArg Flags.nbf h.flag :)

theorem lbf (h : f.Same f') : f'.flag.lbf = f.flag.lbf := (congrArg Flags.lbf h.flag :)

theorem level (h : f.Same f') : f'.level = f.level := by
  unfold Stream.level
  rw [h.base, h.ptr]

theorem sound (h : f.Same f') (hf : f.Sound) : f'.Sound := by
  refine ⟨?_, ?_, ?_, ?_, ?_, ?_, ?_⟩
  · rw [h.wrt, h.rw]
    exact hf.output
  · rw [h.read]
    exact hf.noread
  · rw [h.strg]
    exact hf.nostrg
  · rw [h.nbf, h.base]
    exact hf.nbf
  · rw [h.lbf, h.base, h.ptr, h.bufsiz]
    exact hf.lbf
  · rw [h.base, h.ptr, h.bufsiz]
    exact hf.buffer
  · rw [h.stores]
    exact hf.inside

theorem ready (h : f.Same f') (hf : f.Ready) : f'.Ready := by
  refine ⟨h.sound hf.sound, ?_, ?_, ?_⟩
  · rw [h.lbf, h.cnt, h.level]
    exact hf.line
  · rw [h.lbf, h.cnt, h.level, h.bufsiz, h.base]
    exact hf.full
  · rw [h.lbf, h.wrt, h.cnt, h.level]
    exact hf.idle

/-- What was pending is still pending. -/
theorem log (h : f.Same f') : f'.log = f'.sent ++ bytes f.mem f.base f.level := by
  unfold Stream.log
  rw [h.mem, h.base, h.level]

end Stream.Same

theorem lseek_same (f : Stream) (offset : ℤ) (whence : Whence) :
    f.Same (lseek d f offset whence).1 ∧ (lseek d f offset whence).1.sent = f.sent := by
  unfold lseek
  dsimp only
  split_ifs <;> exact ⟨⟨rfl, rfl, rfl, rfl, rfl, rfl, rfl⟩, rfl⟩

theorem lseek_end (h : d.seekable = true) (f : Stream) :
    lseek d f 0 .fromEnd = ({ f with pos := f.contents.length }, (f.contents.length : ℤ)) := by
  unfold lseek
  dsimp only
  rw [if_pos ⟨h, by omega⟩, add_zero, Int.toNat_natCast]

theorem write_same (f : Stream) (data : List UInt8) : f.Same (write o f data).1 := by
  unfold write
  dsimp only
  split_ifs <;> exact ⟨rfl, rfl, rfl, rfl, rfl, rfl, rfl⟩

theorem writeAll_same (seek : Bool) (fuel : ℕ) (data : List UInt8) (f : Stream) :
    f.Same (writeAll d o seek fuel data f).1 := by
  induction fuel generalizing data f with
  | zero => exact .refl f
  | succ fuel ih =>
      rw [writeAll]
      obtain ⟨g, q, hg, hsame⟩ : ∃ g q, (if seek ∧ d.append then lseek d f 0 .fromEnd else (f, 0)) =
          (g, q) ∧ f.Same g := by
        split_ifs
        · exact ⟨_, _, rfl, (lseek_same f 0 .fromEnd).1⟩
        · exact ⟨f, 0, rfl, .refl f⟩
      rw [hg]
      dsimp only
      split_ifs
      · exact .refl f
      · exact hsame
      · have := hsame.trans (write_same (o := o) g data)
        exact ⟨this.cnt, this.ptr, this.base, this.bufsiz, this.mem, this.stores, this.flag⟩
      · exact (hsame.trans (write_same g data)).trans (ih _ _)

theorem writeAll_sends (hos : o.Writes d) (seek : Bool) (fuel : ℕ) (data : List UInt8)
    (f : Stream) (hfuel : data.length ≤ fuel) :
    (writeAll d o seek fuel data f).2 = true ∧
      (writeAll d o seek fuel data f).1.sent = f.sent ++ data := by
  induction fuel generalizing data f with
  | zero =>
      obtain rfl := List.length_eq_zero_iff.mp (by omega : data.length = 0)
      simp [writeAll]
  | succ fuel ih =>
      rw [writeAll]
      by_cases hd : data = []
      · rw [if_pos hd]
        simp [hd]
      rw [if_neg hd]
      obtain ⟨p, q, hpq, hq⟩ : ∃ p q, (if seek ∧ d.append then lseek d f 0 .fromEnd
          else (f, 0)) = ({ f with pos := p }, q) ∧ q ≠ -1 := by
        split_ifs with hs
        · exact ⟨_, _, lseek_end (hos.seek hs.2) f, by omega⟩
        · exact ⟨f.pos, 0, rfl, by decide⟩
      rw [hpq]
      dsimp only
      rw [if_neg hq]
      -- the answer is positive, so at least one byte goes out
      have hpos := hos.write f.calls
      have hlen := List.length_pos_iff.mpr hd
      have hwr : write o { f with pos := p } data =
          ({ f with calls := f.calls + 1
                    contents := overwrite f.contents p (data.take (o.write f.calls).toNat)
                    pos := p + (data.take (o.write f.calls).toNat).length
                    sent := f.sent ++ data.take (o.write f.calls).toNat },
            ((data.take (o.write f.calls).toNat).length : ℤ)) := if_neg (by dsimp only; omega)
      rw [hwr]
      dsimp only
      have htake : 0 < (data.take (o.write f.calls).toNat).length := by
        rw [List.length_take]
        omega
      rw [if_neg (by omega)]
      obtain ⟨h₁, h₂⟩ := ih (data.drop ((data.take (o.write f.calls).toNat).length : ℤ).toNat) _
        (by rw [List.length_drop]; omega)
      refine ⟨h₁, h₂.trans ?_⟩
      rw [Int.toNat_natCast, List.append_assoc, List.length_take]
      congr 1
      rcases Nat.le_total (o.write f.calls).toNat data.length with hle | hge
      · rw [Nat.min_eq_left hle, List.take_append_drop]
      · rw [Nat.min_eq_right hge, List.take_of_length_le hge, List.drop_length, List.append_nil]

@[simp] theorem store_cnt (f : Stream) (data : List UInt8) : (f.store data).cnt = f.cnt := rfl

@[simp] theorem store_ptr (f : Stream) (data : List UInt8) :
    (f.store data).ptr = f.ptr + data.length := rfl

@[simp] theorem store_base (f : Stream) (data : List UInt8) : (f.store data).base = f.base := rfl

@[simp] theorem store_bufsiz (f : Stream) (data : List UInt8) :
    (f.store data).bufsiz = f.bufsiz := rfl

theorem Stream.level_eq (hb : f.base ≠ 0) : f.level = f.ptr - f.base := if_neg hb

theorem Stream.Sound.store (h : f.Sound) (hb : f.base ≠ 0)
    (hfit : f.level + data.length ≤ f.bufsiz)
    (hline : f.flag.lbf = true → f.level + data.length < f.bufsiz) : (f.store data).Sound := by
  obtain ⟨h₁, h₂, h₃, h₄, h₅⟩ := h.buffer hb
  rw [Stream.level_eq hb] at hfit hline
  refine ⟨h.output, h.noread, h.nostrg, h.nbf, fun hl => ⟨hb, ?_⟩, fun _ => ⟨h₁, h₂, h₃, ?_, ?_⟩,
    ?_⟩
  · have := hline hl
    simp only [store_ptr, store_base, store_bufsiz]
    omega
  · simp only [store_ptr, store_base]
    omega
  · simp only [store_ptr, store_base, store_bufsiz]
    omega
  · intro e he
    rcases List.mem_cons.mp he with rfl | he
    · exact .inr ⟨hb, h₄, by dsimp only; omega⟩
    · exact h.inside e he

theorem level_store (h : f.Sound) (hb : f.base ≠ 0) :
    (f.store data).level = f.level + data.length := by
  obtain ⟨-, -, -, h₄, -⟩ := h.buffer hb
  rw [Stream.level_eq hb, Stream.level_eq (f := f.store data) hb]
  simp only [store_ptr, store_base]
  omega

theorem log_store (h : f.Sound) (hb : f.base ≠ 0) : (f.store data).log = f.log ++ data := by
  obtain ⟨-, -, -, h₄, -⟩ := h.buffer hb
  unfold Stream.log
  rw [level_store h hb, Stream.level_eq hb, List.append_assoc]
  congr 1
  have := bytes_putAll_append f.mem f.base (f.ptr - f.base) data
  rwa [show f.base + (f.ptr - f.base) = f.ptr by omega] at this

/-- The buffer, the mode and the opening of the stream are as before. -/
structure Stream.Kept (f f' : Stream) : Prop where
  base : f'.base = f.base
  bufsiz : f'.bufsiz = f.bufsiz
  lbf : f'.flag.lbf = f.flag.lbf
  nbf : f'.flag.nbf = f.flag.nbf
  rw : f'.flag.rw = f.flag.rw

theorem Stream.Kept.trans {f' f'' : Stream} (h : f.Kept f') (h' : f'.Kept f'') : f.Kept f'' :=
  ⟨h'.base.trans h.base, h'.bufsiz.trans h.bufsiz, h'.lbf.trans h.lbf, h'.nbf.trans h.nbf,
    h'.rw.trans h.rw⟩

/-- What `_flsbuf` does with the character `c`, whatever `_cnt` was. -/
structure Took (d : Fd) (o : Os) (c : ℤ) (f : Stream) (r : Stream × ℤ) : Prop where
  ready : r.1.Ready
  kept : f.base ≠ 0 ∨ f.flag.nbf = true → f.Kept r.1
  wrt : r.1.flag.wrt = true
  sends : o.Writes d → r.2 = c ∧ r.1.log = f.log ++ [toByte c]
  level : f.flag.lbf = true →
    r.1.level = if c = 10 ∨ f.bufsiz ≤ f.level + 1 then 0 else f.level + 1

theorem Stream.Sound.rewound (h : f.Sound) (hb : f.base ≠ 0) (a : ℤ) : (f.rewound a).Sound := by
  obtain ⟨h₁, h₂, h₃, -, -⟩ := h.buffer hb
  refine ⟨h.output, h.noread, h.nostrg, h.nbf, fun _ => ⟨hb, ?_⟩,
    fun _ => ⟨h₁, h₂, h₃, le_rfl, ?_⟩, h.inside⟩
  · simp only [Stream.rewound]
    omega
  · simp only [Stream.rewound]
    omega

@[simp] theorem level_rewound (f : Stream) (a : ℤ) : (f.rewound a).level = 0 := by
  simp [Stream.level, Stream.rewound]

theorem pending_eq (hb : f.base ≠ 0) : f.pending = bytes f.mem f.base f.level := by
  rw [Stream.pending, Stream.level_eq hb]

/-- A write loop over the given up buffer sends what was pending. -/
theorem log_drained (hos : o.Writes d) (hb : f.base ≠ 0) (seek : Bool) (a : ℤ) :
    (writeAll d o seek (f.ptr - f.base) f.pending (f.rewound a)).2 = true ∧
      (writeAll d o seek (f.ptr - f.base) f.pending (f.rewound a)).1.log = f.log := by
  obtain ⟨h₁, h₂⟩ := writeAll_sends hos seek (f.ptr - f.base) f.pending (f.rewound a)
    (by simp [Stream.pending])
  refine ⟨h₁, ?_⟩
  rw [(writeAll_same seek _ _ _).log, h₂, level_rewound, pending_eq hb]
  simp [bytes, Stream.rewound, Stream.log]

theorem flsbufPut_line (h : f.Sound) (hw : f.flag.wrt = true) (hl : f.flag.lbf = true) :
    Took d o c f (flsbufPut d o c f) := by
  obtain ⟨hb, hroom⟩ := h.lbf hl
  obtain ⟨h₁, h₂, h₃, h₄, h₅⟩ := h.buffer hb
  have hlev := Stream.level_eq hb
  obtain ⟨g, hg⟩ : ∃ g, g = f.store [toByte c] := ⟨_, rfl⟩
  have hgb : g.base = f.base := hg ▸ rfl
  have hgl : g.flag.lbf = true := hg ▸ hl
  have hglev : g.level = f.level + 1 := hg ▸ level_store h hb
  have hglog : g.log = f.log ++ [toByte c] := hg ▸ log_store h hb
  have hnot : ∀ {P : Prop} {g' : Stream}, g'.flag.lbf = g.flag.lbf → g'.flag.lbf = false → P :=
    fun he hl' => absurd (hgl.symm.trans (he.symm.trans hl')) (by decide)
  have hrn : g.ptr - g.base = f.level + 1 := by rw [← hglev, Stream.level_eq (hgb ▸ hb)]
  have hkept : f.Kept g := hg ▸ ⟨rfl, rfl, rfl, rfl, rfl⟩
  unfold flsbufPut
  rw [if_pos hl, ← hg]
  dsimp only
  rw [hrn]
  have hbuf : g.bufsiz = f.bufsiz := hkept.bufsiz
  by_cases hc : c = 10 ∨ g.bufsiz ≤ f.level + 1
  · rw [if_pos hc]
    have hsame := writeAll_same (d := d) (o := o) true (f.level + 1) g.pending (g.rewound 0)
    have hS : (g.rewound 0).Sound := by
      -- the stored character may have filled the buffer, but not more
      have hS := h.rewound hb 0
      refine ⟨hg ▸ hS.output, hg ▸ hS.noread, hg ▸ hS.nostrg, hg ▸ hS.nbf, hg ▸ hS.lbf,
        hg ▸ hS.buffer, ?_⟩
      subst hg
      intro e he
      rcases List.mem_cons.mp he with rfl | he
      · exact .inr ⟨hb, h₄, by simp only [List.length_singleton]; omega⟩
      · exact h.inside e he
    refine ⟨⟨hsame.sound hS, fun _ => ?_, hnot hsame.lbf, hnot hsame.lbf⟩, fun _ => ?_, ?_,
      fun hos => ?_, fun _ => ?_⟩
    · rw [hsame.level, hsame.cnt, level_rewound]
      rfl
    · exact hkept.trans ⟨hsame.base, hsame.bufsiz, hsame.lbf, hsame.nbf, hsame.rw⟩
    · rw [hsame.wrt]
      exact hg ▸ hw
    · obtain ⟨hok, hlog⟩ := log_drained hos (hgb ▸ hb) true 0
      rw [hrn] at hok hlog
      exact ⟨by dsimp only; rw [if_pos hok], hlog.trans hglog⟩
    · dsimp only
      rw [hsame.level, level_rewound, if_pos (hbuf ▸ hc)]
  · rw [if_neg hc]
    obtain ⟨-, hlt⟩ := not_or.mp hc
    have hS : g.Sound := hg ▸ h.store hb (by rw [List.length_singleton]; omega)
      (fun _ => by rw [List.length_singleton]; omega)
    refine ⟨⟨⟨hS.output, hS.noread, hS.nostrg, hS.nbf, hS.lbf, hS.buffer, hS.inside⟩,
      fun _ => ?_, hnot rfl, hnot rfl⟩, fun _ => hkept.trans ⟨rfl, rfl, rfl, rfl, rfl⟩, hg ▸ hw,
      fun _ => ⟨rfl, hglog⟩, fun _ => ?_⟩
    · exact congrArg (fun n : ℕ => -(n : ℤ)) hglev.symm
    · dsimp only
      rw [if_neg (hbuf ▸ hc)]
      exact hglev

theorem flsbufPut_none (h : f.Sound) (hw : f.flag.wrt = true) (hn : f.flag.nbf = true) :
    Took d o c f (flsbufPut d o c f) := by
  have hb := h.nbf hn
  have hl : ¬ f.flag.lbf = true := fun hl => (h.lbf hl).1 hb
  obtain ⟨g, hg⟩ : ∃ g, g = ({ f with cnt := 0 } : Stream) := ⟨_, rfl⟩
  have hsame := writeAll_same (d := d) (o := o) true 1 [toByte c] g
  have hgb : g.base = 0 := hg ▸ hb
  have hgl : g.level = 0 := by rw [Stream.level, if_pos hgb]
  have hS : g.Sound := hg ▸ ⟨h.output, h.noread, h.nostrg, h.nbf, h.lbf, h.buffer, h.inside⟩
  unfold flsbufPut
  rw [if_neg hl, if_pos hn, ← hg]
  refine ⟨⟨hsame.sound hS, fun hl' => ?_, fun _ => ⟨?_, ?_, fun _ => ?_⟩, fun _ hw' => ?_⟩,
    fun _ => ?_, ?_, fun hos => ?_, fun hl' => absurd hl' hl⟩
  · rw [hsame.lbf, hg] at hl'
    exact absurd hl' hl
  · rw [hsame.cnt, hg]
  · rw [hsame.cnt, hsame.level, hgl, hg]
    simp
  · rw [hsame.cnt, hg]
  · rw [hsame.wrt, hg] at hw'
    exact absurd (hw.symm.trans hw') (by decide)
  · have hkept : f.Kept g := hg ▸ ⟨rfl, rfl, rfl, rfl, rfl⟩
    exact hkept.trans ⟨hsame.base, hsame.bufsiz, hsame.lbf, hsame.nbf, hsame.rw⟩
  · rw [hsame.wrt, hg]
    exact hw
  · obtain ⟨hok, hsent⟩ := writeAll_sends hos true 1 [toByte c] g (by simp)
    refine ⟨by dsimp only; rw [if_pos hok], ?_⟩
    dsimp only
    rw [hsame.log, hsent, hgl, hg]
    simp [Stream.log, Stream.level, hb, bytes]

theorem flsbufPut_full (h : f.Sound) (hw : f.flag.wrt = true) (hb : f.base ≠ 0)
    (hl : ¬ f.flag.lbf = true) : Took d o c f (flsbufPut d o c f) := by
  have hn : ¬ f.flag.nbf = true := fun hn => hb (h.nbf hn)
  obtain ⟨h₁, h₂, h₃, h₄, h₅⟩ := h.buffer hb
  unfold flsbufPut
  rw [if_neg hl, if_neg hn]
  dsimp only
  have hlogd : o.Writes d → _ := fun hos => log_drained (f := f) hos hb true f.bufsiz
  have hsame := writeAll_same (d := d) (o := o) true (f.ptr - f.base) f.pending
    (f.rewound f.bufsiz)
  generalize writeAll d o true (f.ptr - f.base) f.pending (f.rewound f.bufsiz) = r at hsame hlogd
  obtain ⟨g, ok⟩ := r
  dsimp only at hsame hlogd ⊢
  have hS := hsame.sound (h.rewound hb f.bufsiz)
  have hgb : g.base ≠ 0 := hsame.base ▸ hb
  have hlev : g.level = 0 := hsame.level.trans (level_rewound f _)
  have hcnt : g.cnt = f.bufsiz := hsame.cnt
  have hbuf : g.bufsiz = f.bufsiz := hsame.bufsiz
  have hgl : ¬ g.flag.lbf = true := by
    rw [hsame.lbf]
    exact hl
  have hgw : g.flag.wrt = true := hsame.wrt.trans hw
  have hkept : f.Kept g := ⟨hsame.base, hsame.bufsiz, hsame.lbf, hsame.nbf, hsame.rw⟩
  cases ok with
  | false =>
      refine ⟨⟨hS, fun hl' => absurd hl' hgl, fun _ => ⟨?_, ?_, fun hb' => absurd hb' hgb⟩,
        fun _ hw' => absurd (hgw.symm.trans hw') (by decide)⟩, fun _ => hkept, hgw, fun hos => ?_,
        fun hl' => absurd hl' hl⟩
      · simp only [Bool.false_eq_true, if_false]
        omega
      · simp only [Bool.false_eq_true, if_false]
        omega
      · exact absurd (hlogd hos).1 (by decide)
  | true =>
      obtain ⟨g', hg'⟩ : ∃ g', g' = ({ g with cnt := g.cnt - 1 } : Stream) := ⟨_, rfl⟩
      have hS' : g'.Sound := hg' ▸
        ⟨hS.output, hS.noread, hS.nostrg, hS.nbf, hS.lbf, hS.buffer, hS.inside⟩
      have hb' : g'.base ≠ 0 := hg' ▸ hgb
      have hlev' : g'.level = 0 := hg' ▸ hlev
      have hl' : ¬ g'.flag.lbf = true := hg' ▸ hgl
      have hcnt' : g'.cnt = f.bufsiz - 1 := by rw [hg', ← hcnt]
      have hbuf' : g'.bufsiz = f.bufsiz := hg' ▸ hbuf
      rw [if_pos rfl, ← hg']
      refine ⟨⟨hS'.store hb' ?_ (fun hl => absurd hl hl'), fun hl => absurd hl hl',
        fun _ => ⟨?_, ?_, fun hb => absurd hb hb'⟩, fun _ hw' => ?_⟩, fun _ => ?_, ?_,
        fun hos => ⟨rfl, ?_⟩, fun hl' => absurd hl' hl⟩
      · rw [hlev', List.length_singleton]
        omega
      · rw [store_cnt]
        omega
      · rw [level_store hS' hb', hlev', store_cnt, store_bufsiz, List.length_singleton]
        omega
      · exact absurd ((show g'.flag.wrt = true from hg' ▸ hgw).symm.trans hw') (by decide)
      · exact hkept.trans (hg' ▸ ⟨rfl, rfl, rfl, rfl, rfl⟩)
      · exact hg' ▸ hgw
      · rw [log_store hS' hb']
        congr 1
        exact hg' ▸ (hlogd hos).2

theorem flsbufPut_took (h : f.Sound) (hw : f.flag.wrt = true)
    (hb : f.base ≠ 0 ∨ f.flag.nbf = true) : Took d o c f (flsbufPut d o c f) := by
  by_cases hl : f.flag.lbf = true
  · exact flsbufPut_line h hw hl
  · rcases hb with hb | hn
    · exact flsbufPut_full h hw hb hl
    · exact flsbufPut_none h hw hn

/-- The stream that `_flsbuf` hands to its second half. -/
theorem allocOut_sound (h : f.Sound) (hb : f.base = 0) (hn : ¬ f.flag.nbf = true) :
    (allocOut d o f).Sound ∧ (allocOut d o f).flag.wrt = f.flag.wrt ∧
      ((allocOut d o f).base ≠ 0 ∨ (allocOut d o f).flag.nbf = true) ∧
      (allocOut d o f).log = f.log := by
  have hfits := o.malloc_fits f.calls o.tbSize
  have hpos := o.tbSize_pos
  have hlt := o.tbSize_lt
  unfold allocOut
  dsimp only
  split_ifs with ha
  · refine ⟨⟨h.output, h.noread, h.nostrg, fun _ => hb, fun hl' => absurd hl' Bool.false_ne_true,
      h.buffer, h.inside⟩, rfl, .inr rfl, ?_⟩
    simp [Stream.log, Stream.level, hb]
  · refine ⟨⟨h.output, h.noread, h.nostrg, fun hn' => absurd hn' hn, fun _ => ⟨ha, ?_⟩,
      fun _ => ⟨hpos, hlt, hfits ha, le_rfl, ?_⟩, h.inside⟩, rfl, .inl ha, ?_⟩
    · dsimp only
      omega
    · dsimp only
      omega
    · simp [Stream.log, Stream.level, hb, bytes]

theorem flsbuf_took (h : f.Sound) : Took d o c f (flsbuf d o c f) := by
  obtain ⟨g, hg⟩ : ∃ g, g = (if f.flag.rw then
    { f with flag := { f.flag with wrt := true, eof := false, read := false } } else f : Stream) :=
    ⟨_, rfl⟩
  -- opening an update stream for output changes nothing but flags
  have hgw : g.flag.wrt = true := by
    rw [hg]
    split_ifs with hrw
    · rfl
    · exact h.output.resolve_right hrw
  have hS : g.Sound := by
    rw [hg]
    split_ifs
    · exact ⟨.inl rfl, rfl, h.nostrg, h.nbf, h.lbf, h.buffer, h.inside⟩
    · exact h
  have hsame : g.base = f.base ∧ g.bufsiz = f.bufsiz ∧ g.flag.lbf = f.flag.lbf ∧
      g.flag.nbf = f.flag.nbf ∧ g.flag.rw = f.flag.rw ∧ g.level = f.level ∧ g.log = f.log := by
    rw [hg]
    split_ifs <;> exact ⟨rfl, rfl, rfl, rfl, rfl, rfl, rfl⟩
  obtain ⟨hb, hz, hl, hn, hrw, hlev, hlog⟩ := hsame
  have hdef : flsbuf d o c f =
      flsbufPut d o c (if g.base = 0 ∧ !g.flag.nbf then allocOut d o g else g) := by
    unfold flsbuf
    rw [← hg]
    dsimp only
    rw [hgw, hS.nostrg]
    rfl
  rw [hdef]
  by_cases hc : g.base = 0 ∧ (!g.flag.nbf) = true
  · rw [if_pos hc]
    obtain ⟨hS', hw', hb', hlog'⟩ := allocOut_sound (d := d) (o := o) hS hc.1 (by simpa using hc.2)
    have ht := flsbufPut_took (d := d) (o := o) (c := c) hS' (hw'.trans hgw) hb'
    refine ⟨ht.ready, fun hk => ?_, ht.wrt, fun hos => ?_, fun hl' => ?_⟩
    · exfalso
      rcases hk with hk | hk
      · exact hk (hb ▸ hc.1)
      · rw [hn, hk] at hc
        exact absurd hc.2 (by decide)
    · rw [← hlog, ← hlog']
      exact ht.sends hos
    · exact absurd (hb ▸ hc.1) (h.lbf hl').1
  · rw [if_neg hc]
    have hb' : g.base ≠ 0 ∨ g.flag.nbf = true := by
      by_contra hno
      push Not at hno
      exact hc ⟨hno.1, by simpa using hno.2⟩
    have ht := flsbufPut_took (d := d) (o := o) (c := c) hS hgw hb'
    refine ⟨ht.ready, fun _ => ?_, ht.wrt, fun hos => ?_, fun hl' => ?_⟩
    · have hk := ht.kept hb'
      exact ⟨hk.base.trans hb, hk.bufsiz.trans hz, hk.lbf.trans hl, hk.nbf.trans hn,
        hk.rw.trans hrw⟩
    · rw [← hlog]
      exact ht.sends hos
    · rw [← hlev, ← hz]
      exact ht.level (hl.trans hl')

/-- `_flsbuf` does not look at `_cnt`, and neither does the log. -/
theorem flsbuf_took_cnt (h : f.Sound) (a : ℤ) :
    Took d o c f (flsbuf d o c { f with cnt := a }) := by
  have ht := flsbuf_took (d := d) (o := o) (c := c) (f := { f with cnt := a })
    ⟨h.output, h.noread, h.nostrg, h.nbf, h.lbf, h.buffer, h.inside⟩
  refine ⟨ht.ready, fun hk => ?_, ht.wrt, ht.sends, ht.level⟩
  obtain ⟨h₁, h₂, h₃, h₄, h₅⟩ := ht.kept hk
  exact ⟨h₁, h₂, h₃, h₄, h₅⟩

theorem Stream.Ready.room (h : f.Ready) (hc : 0 < f.cnt) :
    f.base ≠ 0 ∧ f.flag.lbf = false ∧ f.flag.wrt = true ∧ f.level + f.cnt ≤ f.bufsiz := by
  have hl : f.flag.lbf = false := by
    rw [Bool.eq_false_iff]
    intro hl
    have := h.line hl
    omega
  obtain ⟨-, h₂, h₃⟩ := h.full hl
  refine ⟨fun hb => ?_, hl, ?_, h₂⟩
  · have := h₃ hb
    omega
  · rw [← Bool.not_eq_false]
    intro hw
    have := (h.idle hl hw).1
    omega

variable (data) in
theorem Stream.Ready.put (h : f.Ready) (hc : 0 < f.cnt) (hlen : (data.length : ℤ) ≤ f.cnt) :
    ({ f with cnt := f.cnt - data.length }.store data).Ready ∧
      ({ f with cnt := f.cnt - data.length }.store data).log = f.log ++ data := by
  obtain ⟨hb, hl, hw, hroom⟩ := h.room hc
  obtain ⟨g, hg⟩ : ∃ g, g = ({ f with cnt := f.cnt - data.length } : Stream) := ⟨_, rfl⟩
  have hS : g.Sound := hg ▸ ⟨h.sound.output, h.sound.noread, h.sound.nostrg, h.sound.nbf,
    h.sound.lbf, h.sound.buffer, h.sound.inside⟩
  have hgb : g.base ≠ 0 := hg ▸ hb
  have hgl : g.flag.lbf = false := hg ▸ hl
  have hgw : g.flag.wrt = true := hg ▸ hw
  have hlev : g.level = f.level := hg ▸ rfl
  have hcnt : g.cnt = f.cnt - data.length := hg ▸ rfl
  have hbuf : g.bufsiz = f.bufsiz := hg ▸ rfl
  rw [← hg]
  refine ⟨⟨hS.store hgb (by omega) (fun hl' => ?_), fun hl' => ?_, fun _ => ⟨?_, ?_, fun hb' => ?_⟩,
    fun _ hw' => ?_⟩, ?_⟩
  · exact absurd (hl'.symm.trans hgl) (by decide)
  · exact absurd (hl'.symm.trans hgl) (by decide)
  · rw [store_cnt]
    omega
  · rw [level_store hS hgb, store_cnt, store_bufsiz]
    omega
  · exact absurd hb' hgb
  · exact absurd (hw'.symm.trans hgw) (by decide)
  · rw [log_store hS hgb]
    exact congrArg (· ++ data) (hg ▸ rfl)

theorem putcRaw_took (h : f.Ready) : Took d o (uchar x) f (putcRaw d o x f) := by
  unfold putcRaw
  split_ifs with hc
  · obtain ⟨-, hl, hw, -⟩ := h.room hc
    obtain ⟨h₁, h₂⟩ := h.put [x] hc (by simp only [List.length_singleton]; omega)
    exact ⟨h₁, fun _ => ⟨rfl, rfl, rfl, rfl, rfl⟩, hw, fun _ =>
      ⟨rfl, by rw [toByte_uchar]; exact h₂⟩,
      fun hl' => absurd (hl'.symm.trans hl) (by decide)⟩
  · exact flsbuf_took h.sound

/-- The bytes that stand for a string in a file. -/
def encode (text : Bool) (data : List UInt8) : List UInt8 :=
  data.flatMap fun x => if text ∧ x = LF then [CR, LF] else [x]

theorem encode_append (text : Bool) (xs ys : List UInt8) :
    encode text (xs ++ ys) = encode text xs ++ encode text ys := List.flatMap_append

@[simp] theorem encode_false (xs : List UInt8) : encode false xs = xs := by
  simp [encode, List.flatMap_singleton']

theorem isTextFile_eq (h : f.Sound) : isTextFile d f = d.text := by
  simp [isTextFile, h.nostrg]

theorem putc_spec (h : f.Ready) :
    (putc d o x f).1.Ready ∧ (putc d o x f).1.flag.wrt = true ∧
      (o.Writes d → (putc d o x f).1.log = f.log ++ encode d.text [x]) := by
  unfold putc
  rw [isTextFile_eq h.sound]
  by_cases hx : x = LF ∧ d.text = true
  · rw [if_pos hx]
    have ht := putcRaw_took (d := d) (o := o) (x := CR) h
    have ht' := putcRaw_took (d := d) (o := o) (x := x) ht.ready
    refine ⟨ht'.ready, ht'.wrt, fun hos => ?_⟩
    rw [(ht'.sends hos).2, (ht.sends hos).2]
    simp [encode, hx]
  · rw [if_neg hx]
    have ht := putcRaw_took (d := d) (o := o) (x := x) h
    refine ⟨ht.ready, ht.wrt, fun hos => ?_⟩
    rw [(ht.sends hos).2, toByte_uchar]
    have : ¬ (d.text = true ∧ x = LF) := fun h' => hx h'.symm
    simp [encode, this]

end DjgppLibc.Stdio
