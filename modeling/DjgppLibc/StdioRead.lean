import DjgppLibc.StdioInput

/-!
# getc, ungetc, fread and fseek on input streams

Every call is described by what it does to `avail` and `blocked`. `getc` takes
one byte, or two when the first is the CR of a text file; `fread` takes bytes
one by one and leaves out every CR of a text file. The one call that does not
follow the lists is a binary `fread` of more than the buffered bytes after end of
file has been met: `_filbuf` returns early and leaves `_ptr` and `_cnt` alone.
-/
namespace DjgppLibc.Stdio
open ByteMemory

variable {d : Fd} {o : Os} {f f' : Stream} {s : ℕ} {t : List UInt8}

structure Popped (d : Fd) (f : Stream) (r : Stream × ℤ) : Prop where
  input : r.1.Input d
  blocked : r.1.blocked d = f.blocked d
  stop : f.avail d = [] → r.2 = EOF ∧ r.1.avail d = []
  next : ∀ b bs, f.avail d = b :: bs → r.2 = uchar b ∧ r.1.avail d = bs

theorem Stream.Input.reading (h : f.Input d) : f.reading.Input d :=
  ⟨h.fillable.reading.1, h.cnt, h.empty, h.inside⟩

theorem avail_of_cnt_zero (h : f.cnt = 0) : f.avail d = f.source d := by
  unfold Stream.avail
  rw [h]
  rfl

theorem avail_of_cnt_pos (h : 0 < f.cnt) :
    f.avail d =
      f.mem f.ptr :: (bytes f.mem (f.ptr + 1) (f.cnt - 1).toNat ++ f.source d) := by
  unfold Stream.avail
  rw [show f.cnt.toNat = (f.cnt - 1).toNat + 1 by omega, bytes, List.cons_append]

theorem source_of_eof (h : f.flag.eof = true) : f.source d = [] := if_pos h

def Stream.advance (f : Stream) (k : ℕ) : Stream := { f with ptr := f.ptr + k, cnt := f.cnt - k }

theorem Stream.Input.advance (h : f.Input d) {k : ℕ} (hk : (k : ℤ) ≤ f.cnt) :
    (f.advance k).Input d ∧ (f.advance k).blocked d = f.blocked d ∧
      (f.advance k).avail d = (f.avail d).drop k := by
  refine ⟨⟨⟨h.fillable.input, h.fillable.nowrt, h.fillable.nostrg, h.fillable.nbf,
    h.fillable.buffer, h.fillable.eof⟩, ?_, ?_, ?_⟩, rfl, ?_⟩
  · change 0 ≤ f.cnt - k
    omega
  · intro hb
    have := h.empty hb
    change f.cnt - k = 0
    omega
  · intro hb
    have := h.inside hb
    change f.base ≤ f.ptr + k ∧ ((f.ptr + k : ℕ) : ℤ) + (f.cnt - k) ≤ f.base + f.bufsiz
    omega
  · change bytes f.mem (f.ptr + k) (f.cnt - k).toNat ++ f.source d = _
    unfold Stream.avail
    rw [List.drop_append_of_le_length (by rw [bytes_length]; omega), bytes_drop _ _ (by omega),
      show f.cnt.toNat - k = (f.cnt - k).toNat by omega]

theorem getcRaw_spec (hos : o.Reads d) (h : f.Input d) : Popped d f (getcRaw d o f) := by
  unfold getcRaw
  split_ifs with hc
  · obtain ⟨h₁, h₂, h₃⟩ := h.advance (k := 1) (by omega)
    have hav := avail_of_cnt_pos (d := d) hc
    refine ⟨h₁, h₂, fun h0 => ?_, fun b bs hb => ?_⟩
    · rw [hav] at h0
      exact absurd h0 (by simp)
    · rw [hav] at hb
      obtain ⟨rfl, rfl⟩ := List.cons.inj hb
      exact ⟨rfl, h₃.trans (by rw [hav]; rfl)⟩
  · have h0 : f.cnt = 0 := le_antisymm (not_lt.mp hc) h.cnt
    have hav : f.avail d = f.source d := avail_of_cnt_zero h0
    cases he : f.flag.eof with
    | true =>
        have hsrc : f.source d = [] := source_of_eof he
        rw [filbuf_eof h.fillable he]
        refine ⟨h.reading, rfl, fun _ => ⟨rfl, hav.trans hsrc⟩, fun b bs hb => ?_⟩
        rw [hav, hsrc] at hb
        exact absurd hb (by simp)
    | false =>
        have hp := filbuf_spec hos h.fillable he
        refine ⟨hp.input, hp.blocked, fun h' => ?_, fun b bs hb => ?_⟩
        · obtain ⟨h₁, h₂, -⟩ := hp.stop (hav.symm.trans h')
          exact ⟨h₁, h₂⟩
        · obtain ⟨h₁, h₂, -⟩ := hp.next b bs (hav.symm.trans hb)
          exact ⟨h₁, h₂⟩

theorem uchar_eq_CR {b : UInt8} : uchar b = 13 ↔ b = CR := by
  unfold uchar
  rw [← UInt8.toNat_inj, show CR.toNat = 13 from rfl]
  omega

/-- What `getc` does to the bytes that are available. -/
def pull (text : Bool) : List UInt8 → Option UInt8 × List UInt8
  | [] => (none, [])
  | x :: xs => if text ∧ x = CR then (xs.head?, xs.tail) else (some x, xs)

/-- `getc` gives a byte or EOF. -/
structure Got (d : Fd) (f : Stream) (r : Stream × ℤ) : Prop where
  input : r.1.Input d
  blocked : r.1.blocked d = f.blocked d
  value : r.2 = ((pull d.text (f.avail d)).1.map uchar).getD EOF
  avail : r.1.avail d = (pull d.text (f.avail d)).2

theorem getc_spec (hos : o.Reads d) (h : f.Input d) : Got d f (getc d o f) := by
  have h₁ := getcRaw_spec hos h
  unfold getc
  obtain ⟨⟨g, c⟩, hgc⟩ : ∃ r, r = getcRaw d o f := ⟨_, rfl⟩
  rw [← hgc] at h₁ ⊢
  have hstrg : g.flag.strg = false := h₁.input.fillable.nostrg
  have htext : isTextFile d g = d.text := by
    simp [isTextFile, hstrg]
  dsimp only
  rw [htext]
  cases hav : f.avail d with
  | nil =>
      obtain ⟨rfl, hg⟩ := h₁.stop hav
      rw [if_neg fun h13 => absurd h13.1 (by decide)]
      exact ⟨h₁.input, h₁.blocked, by rw [hav]; rfl, by rw [hav]; exact hg⟩
  | cons x xs =>
      obtain ⟨rfl, hg⟩ := h₁.next x xs hav
      by_cases hcr : x = CR ∧ d.text = true
      · -- the CR is dropped and the next byte taken as it is
        rw [if_pos ⟨uchar_eq_CR.mpr hcr.1, hcr.2⟩]
        have hp : pull d.text (x :: xs) = (xs.head?, xs.tail) := if_pos ⟨hcr.2, hcr.1⟩
        have h₂ := getcRaw_spec hos h₁.input
        cases hxs : xs with
        | nil =>
            obtain ⟨h₃, h₄⟩ := h₂.stop (hg.trans hxs)
            refine ⟨h₂.input, h₂.blocked.trans h₁.blocked, ?_, ?_⟩
            · rw [hav, hp, hxs]
              exact h₃
            · rw [hav, hp, hxs]
              exact h₄
        | cons y ys =>
            obtain ⟨h₃, h₄⟩ := h₂.next y ys (hg.trans hxs)
            refine ⟨h₂.input, h₂.blocked.trans h₁.blocked, ?_, ?_⟩
            · rw [hav, hp, hxs]
              exact h₃
            · rw [hav, hp, hxs]
              exact h₄
      · have hp : pull d.text (x :: xs) = (some x, xs) := if_neg fun h' => hcr ⟨h'.2, h'.1⟩
        rw [if_neg fun h' => hcr ⟨uchar_eq_CR.mp h'.1, h'.2⟩]
        exact ⟨h₁.input, h₁.blocked, by rw [hav, hp]; rfl, by rw [hav, hp]; exact hg⟩

/-- `getc` until `n` bytes are there or end of file is met. -/
def getcs (d : Fd) (o : Os) : ℕ → Stream → Stream × List UInt8
  | 0, f => (f, [])
  | n + 1, f =>
      let (f, c) := getc d o f
      if c = EOF then (f, [])
      else
        let (f, bs) := getcs d o n f
        (f, toByte c :: bs)

/-- The bytes `n` calls of `getc` take, and those they leave. -/
def pulls (text : Bool) : ℕ → List UInt8 → List UInt8 × List UInt8
  | 0, xs => ([], xs)
  | n + 1, xs =>
      match pull text xs with
      | (none, ys) => ([], ys)
      | (some b, ys) => (b :: (pulls text n ys).1, (pulls text n ys).2)

theorem getcs_spec (hos : o.Reads d) (n : ℕ) (h : f.Input d) :
    (getcs d o n f).1.Input d ∧ (getcs d o n f).1.blocked d = f.blocked d ∧
      (getcs d o n f).2 = (pulls d.text n (f.avail d)).1 ∧
      (getcs d o n f).1.avail d = (pulls d.text n (f.avail d)).2 := by
  induction n generalizing f with
  | zero => exact ⟨h, rfl, rfl, rfl⟩
  | succ n ih =>
      have hg := getc_spec hos h
      obtain ⟨⟨g, c⟩, hgc⟩ : ∃ r, r = getc d o f := ⟨_, rfl⟩
      rw [← hgc] at hg
      have hval : c = _ := hg.value
      have hav : g.avail d = _ := hg.avail
      unfold getcs pulls
      rw [← hgc]
      dsimp only
      cases hp : pull d.text (f.avail d) with
      | mk b ys =>
          rw [hp] at hval hav
          cases b with
          | none =>
              rw [if_pos (show c = EOF from hval)]
              exact ⟨hg.input, hg.blocked, rfl, hav⟩
          | some b =>
              obtain ⟨h₁, h₂, h₃, h₄⟩ := ih hg.input
              rw [hav] at h₃ h₄
              have hne : c ≠ EOF := hval ▸ uchar_ne_EOF b
              rw [if_neg hne]
              refine ⟨h₁, h₂.trans hg.blocked, ?_, h₄⟩
              rw [h₃, show toByte c = b by rw [hval]; exact toByte_uchar b]

/-- What `fread` takes from the bytes of a text file: every CR is left out. -/
def strip : ℕ → List UInt8 → List UInt8 × List UInt8
  | 0, xs => ([], xs)
  | _ + 1, [] => ([], [])
  | n + 1, x :: xs => if x = CR then strip (n + 1) xs else (x :: (strip n xs).1, (strip n xs).2)

/-- Between two states of the loop the outcome to come does not change. -/
structure Strips (d : Fd) (f : Stream) (s : ℕ) (t : List UInt8)
    (r : Stream × List UInt8 × ℕ) : Prop where
  input : r.1.Input d
  blocked : r.1.blocked d = f.blocked d
  data : r.2.1 ++ (strip r.2.2 (r.1.avail d)).1 = t ++ (strip s (f.avail d)).1
  rest : (strip r.2.2 (r.1.avail d)).2 = (strip s (f.avail d)).2

theorem Strips.refl (h : f.Input d) : Strips d f s t (f, t, s) := ⟨h, rfl, rfl, rfl⟩

theorem Strips.trans {r : Stream × List UInt8 × ℕ} {r' : Stream × List UInt8 × ℕ}
    (h : Strips d f s t r) (h' : Strips d r.1 r.2.2 r.2.1 r') : Strips d f s t r' :=
  ⟨h'.input, h'.blocked.trans h.blocked, h'.data.trans h.data, h'.rest.trans h.rest⟩

/-- A byte that is not CR is delivered. -/
theorem Strips.keep {x : UInt8} {xs : List UInt8} (h : f'.Input d)
    (hb : f'.blocked d = f.blocked d) (hs : 0 < s) (hav : f.avail d = x :: xs)
    (hav' : f'.avail d = xs) (hx : x ≠ CR) : Strips d f s t (f', t ++ [x], s - 1) := by
  obtain ⟨n, rfl⟩ : ∃ n, s = n + 1 := ⟨s - 1, by omega⟩
  refine ⟨h, hb, ?_, ?_⟩
  · rw [hav, hav', strip, if_neg hx]
    simp
  · rw [hav, hav', strip, if_neg hx]
    rfl

theorem Strips.skip {xs : List UInt8} (h : f'.Input d) (hb : f'.blocked d = f.blocked d)
    (hs : 0 < s) (hav : f.avail d = CR :: xs) (hav' : f'.avail d = xs) :
    Strips d f s t (f', t, s) := by
  obtain ⟨n, rfl⟩ : ∃ n, s = n + 1 := ⟨s - 1, by omega⟩
  refine ⟨h, hb, ?_, ?_⟩
  all_goals rw [hav, hav', strip, if_pos rfl]

/-- An inner loop empties the buffer, unless `s` stops it. -/
structure Skimmed (d : Fd) (stop : Bool) (f : Stream) (s : ℕ) (t : List UInt8)
    (r : Stream × List UInt8 × ℕ) : Prop where
  strips : Strips d f s t r
  drained : r.1.cnt = 0 ∨ stop = true ∧ r.2.2 = 0
  left : stop = false → 0 < r.2.2
  shorter : (r.1.avail d).length ≤ (f.avail d).length - (if 0 < f.cnt ∧ 0 < s then 1 else 0)

theorem skim_spec (stop : Bool) (fuel : ℕ) (h : f.Input d) (hf : f.cnt ≤ fuel)
    (hs : stop = false → f.cnt < s) : Skimmed d stop f s t (skim stop fuel s t f) := by
  induction fuel generalizing f s t with
  | zero =>
      have h0 : f.cnt = 0 := le_antisymm hf h.cnt
      refine ⟨.refl h, .inl h0, fun hst => ?_, ?_⟩
      · have := hs hst
        change 0 < s
        omega
      · rw [if_neg (by omega)]
        exact le_rfl
  | succ fuel ih =>
      unfold skim
      split_ifs with hc
      · have hpos : 0 < s := by
          cases stop with
          | false =>
              have := hs rfl
              omega
          | true => exact hc.2 rfl
        obtain ⟨h₁, h₂, h₃⟩ := h.advance (k := 1) (by omega)
        have hav := avail_of_cnt_pos (d := d) hc.1
        have hcnt : (f.advance 1).cnt = f.cnt - 1 := rfl
        have hav' : (f.advance 1).avail d = (f.avail d).tail := by
          rw [h₃, List.drop_one]
        have hlen : (f.avail d).length = ((f.advance 1).avail d).length + 1 := by
          rw [hav', hav]
          rfl
        rw [hav] at hav'
        dsimp only
        split_ifs with hx
        · have hi := ih (s := s - 1) (t := t ++ [f.mem f.ptr]) h₁ (by omega)
            (fun hst => by have := hs hst; omega)
          refine ⟨.trans (Strips.keep h₁ h₂ hpos hav hav' hx) hi.strips, hi.drained, hi.left, ?_⟩
          have := hi.shorter
          rw [if_pos ⟨hc.1, hpos⟩]
          change (Stream.avail d (skim stop fuel (s - 1) _ (f.advance 1)).1).length ≤ _
          omega
        · have hi := ih (s := s) (t := t) h₁ (by omega)
            (fun hst => by have := hs hst; omega)
          rw [not_not.mp hx] at hav
          refine ⟨.trans (Strips.skip h₁ h₂ hpos hav hav') hi.strips, hi.drained, hi.left, ?_⟩
          have := hi.shorter
          rw [if_pos ⟨hc.1, hpos⟩]
          change (Stream.avail d (skim stop fuel s _ (f.advance 1)).1).length ≤ _
          omega
      · refine ⟨.refl h, ?_, fun hst => ?_, ?_⟩
        · by_cases h0 : 0 < f.cnt
          · right
            have hst : stop = true := by
              by_contra hst
              exact hc ⟨h0, fun h' => absurd h' hst⟩
            exact ⟨hst, Nat.eq_zero_of_not_pos fun hpos => hc ⟨h0, fun _ => hpos⟩⟩
          · exact .inl (le_antisymm (not_lt.mp h0) h.cnt)
        · have := hs hst
          have := h.cnt
          change 0 < s
          omega
        · rw [if_neg fun h' => hc ⟨h'.1, fun _ => h'.2⟩]
          exact le_rfl

/-- With an empty buffer `_filbuf` is a raw `getc`. -/
theorem filbuf_popped (hos : o.Reads d) (h : f.Input d) (h0 : f.cnt = 0) :
    Popped d f (filbuf d o f) := by
  have hp := getcRaw_spec hos h
  rwa [getcRaw, if_neg (by omega)] at hp

theorem strip_nil (s : ℕ) : strip s [] = ([], []) := by
  cases s <;> rfl

/-- The first half of a round: the buffer is emptied and one byte comes from `_filbuf`. -/
def textFill (d : Fd) (o : Os) (s : ℕ) (t : List UInt8) (f : Stream) :
    Stream × List UInt8 × ℕ × ℤ :=
  let (f, t, s) := skim false f.cnt.toNat s t f
  let (f, c) := filbuf d o f
  if c ≠ EOF ∧ c ≠ 13 then (f, t ++ [toByte c], s - 1, c) else (f, t, s, c)

theorem textFill_spec (hos : o.Reads d) (h : f.Input d) (hc : f.cnt < s) :
    ∃ g t' s' c, textFill d o s t f = (g, t', s', c) ∧
      Strips d f s t (g, t', s') ∧
      (c = EOF → g.avail d = []) ∧ (c ≠ EOF → (g.avail d).length < (f.avail d).length) := by
  have hk := skim_spec (t := t) false f.cnt.toNat h (by have := h.cnt; omega) fun _ => hc
  unfold textFill
  obtain ⟨⟨g, t', s'⟩, hg⟩ : ∃ r, r = skim false f.cnt.toNat s t f := ⟨_, rfl⟩
  rw [← hg] at hk ⊢
  have h0 : g.cnt = 0 := hk.drained.resolve_right (by simp)
  have hs' : 0 < s' := hk.left rfl
  have hlen : (g.avail d).length ≤ (f.avail d).length := le_trans hk.shorter (Nat.sub_le _ _)
  have hp := filbuf_popped hos hk.strips.input h0
  obtain ⟨⟨u, c⟩, hu⟩ : ∃ r, r = filbuf d o g := ⟨_, rfl⟩
  dsimp only at hp ⊢
  rw [← hu] at hp ⊢
  dsimp only
  cases hav : g.avail d with
  | nil =>
      obtain ⟨hc', hu'⟩ := hp.stop hav
      rw [if_neg fun h' => h'.1 hc']
      refine ⟨u, t', s', c, rfl, hk.strips.trans ⟨hp.input, hp.blocked, ?_, ?_⟩, fun _ => hu',
        fun h' => absurd hc' h'⟩
      all_goals
        change u.avail d = [] at hu'
        simp only [hu', hav]
  | cons x xs =>
      obtain ⟨rfl, hu'⟩ := hp.next x xs hav
      change u.avail d = xs at hu'
      have hlt : (u.avail d).length < (f.avail d).length := by
        rw [hav, List.length_cons] at hlen
        rw [hu']
        omega
      by_cases hx : x = CR
      · rw [if_neg fun h' => h'.2 (uchar_eq_CR.mpr hx)]
        refine ⟨u, t', s', uchar x, rfl, hk.strips.trans ?_, fun h' => absurd h' (uchar_ne_EOF x),
          fun _ => hlt⟩
        exact Strips.skip hp.input hp.blocked hs' (hx ▸ hav) hu'
      · rw [if_pos ⟨uchar_ne_EOF x, fun h' => hx (uchar_eq_CR.mp h')⟩, toByte_uchar]
        refine ⟨u, t' ++ [x], s' - 1, uchar x, rfl, hk.strips.trans ?_,
          fun h' => absurd h' (uchar_ne_EOF x), fun _ => hlt⟩
        exact Strips.keep hp.input hp.blocked hs' hav hu' hx

/-- The second half: what is still missing comes from the buffer. -/
def textTake (s : ℕ) (t : List UInt8) (f : Stream) : Stream × List UInt8 × ℕ :=
  if (s : ℤ) ≤ f.cnt then skim true f.cnt.toNat s t f else (f, t, s)

theorem textTake_spec (h : f.Input d) :
    Strips d f s t (textTake s t f) ∧
      ((textTake s t f).1.avail d).length ≤ (f.avail d).length ∧
      (0 < s → (s : ℤ) ≤ f.cnt →
        ((textTake s t f).1.avail d).length < (f.avail d).length) := by
  unfold textTake
  split_ifs with hc
  · have hk := skim_spec (s := s) (t := t) true f.cnt.toNat h (by have := h.cnt; omega)
      (fun hst => absurd hst (by decide))
    refine ⟨hk.strips, le_trans hk.shorter (Nat.sub_le _ _), fun hs _ => ?_⟩
    have hlen := hk.shorter
    rw [if_pos ⟨by omega, hs⟩] at hlen
    have hpos : 0 < (f.avail d).length := by
      rw [avail_of_cnt_pos (by omega)]
      exact Nat.succ_pos _
    omega
  · exact ⟨.refl h, le_rfl, fun _ h' => absurd h' hc⟩

theorem freadText_succ (fuel : ℕ) (hs : s ≠ 0) :
    freadText d o (fuel + 1) s t f =
      match if f.cnt < s then textFill d o s t f else (f, t, s, 0) with
      | (f, t, s, c) =>
          if c = EOF then (f, t, s)
          else
            match textTake s t f with
            | (f, t, s) => freadText d o fuel s t f := by
  rw [freadText, if_neg hs]
  unfold textFill textTake
  rfl

theorem freadText_spec (hos : o.Reads d) (fuel : ℕ) (h : f.Input d)
    (hf : (f.avail d).length < fuel) :
    (freadText d o fuel s t f).1.Input d ∧
      (freadText d o fuel s t f).1.blocked d = f.blocked d ∧
      (freadText d o fuel s t f).2.1 = t ++ (strip s (f.avail d)).1 ∧
      (freadText d o fuel s t f).1.avail d = (strip s (f.avail d)).2 := by
  induction fuel generalizing f s t with
  | zero => exact absurd hf (Nat.not_lt_zero _)
  | succ fuel ih =>
      by_cases hs : s = 0
      · subst hs
        rw [freadText, if_pos rfl]
        exact ⟨h, rfl, by simp [strip], by simp [strip]⟩
      · -- the rest of the loop, from any state on the way
        have key : ∀ r : Stream × List UInt8 × ℕ, Strips d f s t r →
            (r.1.avail d).length < fuel →
            (freadText d o fuel r.2.2 r.2.1 r.1).1.Input d ∧
              (freadText d o fuel r.2.2 r.2.1 r.1).1.blocked d = f.blocked d ∧
              (freadText d o fuel r.2.2 r.2.1 r.1).2.1 = t ++ (strip s (f.avail d)).1 ∧
              (freadText d o fuel r.2.2 r.2.1 r.1).1.avail d = (strip s (f.avail d)).2 := by
          intro r hr hlen
          obtain ⟨h₁, h₂, h₃, h₄⟩ := ih (s := r.2.2) (t := r.2.1) hr.input hlen
          exact ⟨h₁, h₂.trans hr.blocked, h₃.trans hr.data, h₄.trans hr.rest⟩
        rw [freadText_succ fuel hs]
        by_cases hc : f.cnt < s
        · obtain ⟨g, t', s', c, hfill, hst, hend, hlt⟩ := textFill_spec (t := t) hos h hc
          rw [if_pos hc, hfill]
          dsimp only
          by_cases hce : c = EOF
          · have hav := hend hce
            have hdata := hst.data
            have hrest := hst.rest
            simp only [hav, strip_nil, List.append_nil] at hdata hrest
            rw [if_pos hce]
            exact ⟨hst.input, hst.blocked, hdata, hav.trans hrest⟩
          · obtain ⟨h₁, h₂, -⟩ := textTake_spec (s := s') (t := t') hst.input
            have := hlt hce
            rw [if_neg hce]
            exact key _ (hst.trans h₁) (by dsimp only at h₂ ⊢; omega)
        · obtain ⟨h₁, -, h₂⟩ := textTake_spec (s := s) (t := t) h
          have := h₂ (Nat.pos_of_ne_zero hs) (not_lt.mp hc)
          rw [if_neg hc]
          dsimp only
          rw [if_neg (by decide)]
          exact key _ h₁ (by omega)

/-- End of file has been met, and `fread` asks for more than the buffer holds. -/
def Stuck (f : Stream) (s : ℕ) : Prop := f.flag.eof = true ∧ 0 < f.cnt ∧ f.cnt < s

instance (f : Stream) (s : ℕ) : Decidable (Stuck f s) := inferInstanceAs (Decidable (_ ∧ _ ∧ _))

/-- The loop delivers the next `s` bytes and leaves the others, or all of them. -/
structure BlockRead (d : Fd) (f : Stream) (s : ℕ) (t : List UInt8)
    (r : Stream × List UInt8 × ℕ) : Prop where
  input : r.1.Input d
  blocked : r.1.blocked d = f.blocked d
  data : r.2.1 = t ++ (f.avail d).take s
  stuck : Stuck f s → r.1.avail d = f.avail d
  rest : ¬ Stuck f s → r.1.avail d = (f.avail d).drop s

theorem avail_split (h : f.Input d) (hs : f.cnt ≤ s) :
    (f.avail d).take s = bytes f.mem f.ptr f.cnt.toNat ++ (f.source d).take (s - f.cnt.toNat) ∧
      (f.avail d).drop s = (f.source d).drop (s - f.cnt.toNat) := by
  have := h.cnt
  have hle : (bytes f.mem f.ptr f.cnt.toNat).length ≤ s := by
    rw [bytes_length]
    omega
  unfold Stream.avail
  rw [List.take_append, List.drop_append, List.take_of_length_le hle, List.drop_of_length_le hle,
    bytes_length]
  exact ⟨rfl, rfl⟩

/-- The bytes are all in the buffer. -/
theorem BlockRead.copy (h : f.Input d) (hs : (s : ℤ) ≤ f.cnt) (left : ℕ) :
    BlockRead d f s t (f.advance s, t ++ bytes f.mem f.ptr s, left) := by
  obtain ⟨h₁, h₂, h₃⟩ := h.advance hs
  refine ⟨h₁, h₂, ?_, fun hst => absurd hst.2.2 (by omega), fun _ => h₃⟩
  unfold Stream.avail
  rw [List.take_append_of_le_length (by rw [bytes_length]; omega), bytes_take _ _ (by omega)]

theorem freadBlock_spec (hos : o.Reads d) (fuel : ℕ) (h : f.Input d) (hf : s ≤ fuel) :
    BlockRead d f s t (freadBlock d o fuel s t f) := by
  have hcnt := h.cnt
  induction fuel generalizing f s t with
  | zero =>
      obtain rfl : s = 0 := Nat.le_zero.mp hf
      exact ⟨h, rfl, by simp [freadBlock], fun _ => rfl, fun _ => rfl⟩
  | succ fuel ih =>
      unfold freadBlock
      by_cases hs : s = 0
      · subst hs
        rw [if_pos rfl]
        exact ⟨h, rfl, by simp, fun _ => rfl, fun _ => rfl⟩
      rw [if_neg hs]
      by_cases hc : f.cnt < s
      swap
      · rw [if_neg hc]
        exact BlockRead.copy h (not_lt.mp hc) 0
      have hpart : (if 0 < f.cnt then (t ++ bytes f.mem f.ptr f.cnt.toNat, s - f.cnt.toNat)
          else (t, s)) = (t ++ bytes f.mem f.ptr f.cnt.toNat, s - f.cnt.toNat) := by
        split_ifs with h0
        · rfl
        · rw [show f.cnt.toNat = 0 by omega]
          simp [bytes]
      obtain ⟨htake, hdrop⟩ := avail_split (d := d) h hc.le
      obtain ⟨n, hn⟩ : ∃ n, s - f.cnt.toNat = n + 1 := ⟨s - f.cnt.toNat - 1, by omega⟩
      rw [if_pos hc, hpart, hn]
      rw [hn] at htake hdrop
      dsimp only
      cases he : f.flag.eof with
      | true =>
          -- `_filbuf` returns early
          have hsrc : f.source d = [] := source_of_eof he
          rw [hsrc, List.take_nil, List.append_nil] at htake
          rw [filbuf_eof h.fillable he]
          dsimp only
          rw [if_pos rfl]
          refine ⟨h.reading, rfl, by rw [htake], fun _ => rfl, fun hst => ?_⟩
          have h0 : f.cnt = 0 := by
            by_contra h0
            exact hst ⟨he, by omega, hc⟩
          rw [hdrop, hsrc]
          exact (avail_of_cnt_zero h0).trans hsrc
      | false =>
          have hst : ¬ Stuck f s := fun hst => absurd (hst.1.symm.trans he) (by decide)
          have hp := filbuf_spec hos h.fillable he
          obtain ⟨⟨g, c⟩, hg⟩ : ∃ r, r = filbuf d o f := ⟨_, rfl⟩
          rw [← hg] at hp ⊢
          dsimp only
          cases hsrc : f.source d with
          | nil =>
              obtain ⟨rfl, hav, -⟩ := hp.stop hsrc
              rw [hsrc, List.take_nil, List.append_nil] at htake
              rw [if_pos rfl]
              exact ⟨hp.input, hp.blocked, by rw [htake], fun h' => absurd h' hst,
                fun _ => by rw [hdrop, hsrc]; exact hav⟩
          | cons b bs =>
              obtain ⟨rfl, hav, heof⟩ := hp.next b bs hsrc
              change g.avail d = bs at hav
              change g.flag.eof = false at heof
              rw [hsrc] at htake hdrop
              rw [if_neg (uchar_ne_EOF b), toByte_uchar, Nat.add_sub_cancel]
              -- what is left comes from the new buffer or from the next round
              have hrest : BlockRead d g n (t ++ bytes f.mem f.ptr f.cnt.toNat ++ [b])
                  (if (n : ℤ) ≤ g.cnt then
                    (g.advance n, t ++ bytes f.mem f.ptr f.cnt.toNat ++ [b] ++
                      bytes g.mem g.ptr n, 0)
                  else freadBlock d o fuel n (t ++ bytes f.mem f.ptr f.cnt.toNat ++ [b]) g) := by
                split_ifs with hle
                · exact BlockRead.copy hp.input hle 0
                · exact ih hp.input (by omega) hp.input.cnt
              have hst' : ¬ Stuck g n := fun h' => absurd (h'.1.symm.trans heof) (by decide)
              refine ⟨hrest.input, hrest.blocked.trans hp.blocked, ?_, fun h' => absurd h' hst,
                fun _ => ?_⟩
              · rw [htake]
                refine hrest.data.trans ?_
                rw [hav]
                simp
              · rw [hdrop]
                exact (hrest.rest hst').trans (by rw [hav]; rfl)

variable {size count : ℕ}

def Stream.grown (f : Stream) (n : ℕ) : Stream :=
  { f with fillsize := growFill (n % 4294967296) f.bufsiz 32 f.fillsize }

theorem growFill_pos (want bufsiz : ℕ) {fuel fillsize : ℕ} (h : 0 < fillsize) :
    0 < growFill want bufsiz fuel fillsize := by
  induction fuel generalizing fillsize with
  | zero => exact h
  | succ fuel ih =>
      unfold growFill
      split_ifs with hc h512
      · exact ih (by decide)
      · exact ih (by omega)
      · exact h

theorem Stream.Input.grown (h : f.Input d) (n : ℕ) : (f.grown n).Input d :=
  ⟨⟨h.fillable.input, h.fillable.nowrt, h.fillable.nostrg, h.fillable.nbf,
    fun hb => ⟨(h.fillable.buffer hb).1, growFill_pos _ _ (h.fillable.buffer hb).2⟩,
    h.fillable.eof⟩, h.cnt, h.empty, h.inside⟩

theorem toSigned_small {n : ℕ} (h : n < 2147483648) : toSigned n = n := by
  unfold toSigned
  rw [if_pos (by omega), Nat.mod_eq_of_lt (by omega)]

theorem toSigned_large {n : ℕ} (h : 2147483648 ≤ n) (h' : n < 4294967296) :
    toSigned n = (n : ℤ) - 4294967296 := by
  unfold toSigned
  rw [if_neg (by omega), Nat.mod_eq_of_lt h']

/-- The loop of `fread` for the mode of the file. -/
def freadLoop (d : Fd) (o : Os) (n : ℕ) (f : Stream) : Stream × List UInt8 × ℕ :=
  if !isTextFile d f then freadBlock d o n n [] f
  else freadText d o (f.unread.length + 1) n [] f

theorem fread_eq (d : Fd) (o : Os) (size count : ℕ) (f : Stream) :
    fread d o size count f =
      if toSigned (size * count) ≤ 0 then
        (f.grown (size * count), [], itemsDone size count (toSigned (size * count)))
      else
        match freadLoop d o (toSigned (size * count)).toNat (f.grown (size * count)) with
        | (f, t, left) => (f, t, itemsDone size count left) := rfl

theorem fread_binary (hos : o.Reads d) (h : f.Input d) (ht : d.text = false)
    (hn : size * count < 2147483648) :
    BlockRead d f (size * count) [] (fread d o size count f) := by
  rw [fread_eq, toSigned_small hn, Int.toNat_natCast]
  by_cases h0 : size * count = 0
  · rw [if_pos (by omega), h0]
    exact ⟨h.grown 0, rfl, rfl, fun _ => rfl, fun _ => rfl⟩
  · have hb : (!isTextFile d (f.grown (size * count))) = true := by simp [isTextFile, ht]
    have hr := freadBlock_spec (t := []) hos (size * count) (h.grown (size * count)) le_rfl
    rw [if_neg (by omega), freadLoop, if_pos hb]
    exact ⟨hr.input, hr.blocked, hr.data, hr.stuck, hr.rest⟩

theorem fread_text (hos : o.Reads d) (h : f.Input d) (ht : d.text = true)
    (hn : size * count < 2147483648) :
    (fread d o size count f).1.Input d ∧
      (fread d o size count f).1.blocked d = f.blocked d ∧
      (fread d o size count f).2.1 = (strip (size * count) (f.avail d)).1 ∧
      (fread d o size count f).1.avail d = (strip (size * count) (f.avail d)).2 := by
  have hg := h.grown (size * count)
  rw [fread_eq, toSigned_small hn, Int.toNat_natCast]
  by_cases h0 : size * count = 0
  · rw [if_pos (by omega), h0]
    exact ⟨h.grown 0, rfl, by simp [strip], by rw [strip]; rfl⟩
  · have hb : ¬ (!isTextFile d (f.grown (size * count))) = true := by
      simp [isTextFile, ht, hg.fillable.nostrg]
    have hlen : (f.avail d).length < (f.grown (size * count)).unread.length + 1 := by
      rw [unread_eq d, List.length_append]
      change (f.avail d).length < (f.avail d).length + _ + 1
      omega
    rw [if_neg (by omega), freadLoop, if_neg hb]
    exact freadText_spec (t := []) hos _ hg hlen

/-- A length that is negative as an `int` delivers nothing. -/
theorem fread_large (hn : 2147483648 ≤ size * count) (hn' : size * count < 4294967296) :
    ∃ items, fread d o size count f = (f.grown (size * count), [], items) := by
  rw [fread_eq, toSigned_large hn hn', if_pos (by omega)]
  exact ⟨_, rfl⟩

/-- The stream with one more byte to read, at `p`, and the mark if it was written. -/
def Stream.pushed (f : Stream) (p : ℕ) (x : UInt8) (mark : Bool) : Stream :=
  { f with
    cnt := f.cnt + 1, ptr := p, mem := put f.mem p x
    flag := { f.flag with ungetc := f.flag.ungetc || mark }
    stores := if mark then ⟨p, 1, f.base, f.bufsiz⟩ :: f.stores else f.stores }

theorem put_self (m : Mem) (p : ℕ) : put m p (m p) = m := by
  funext x
  by_cases hx : x = p
  · rw [hx, put_same]
  · rw [put_ne _ _ hx]

/-- Where `ungetc` puts the byte. -/
theorem ungetc_eq {c : ℤ} (hc : c ≠ EOF) (hr : f.flag.read = true ∨ f.flag.rw = true)
    (hp : f.ptr ≠ 0) (hb : f.base ≠ 0) (h : f.ptr = f.base → f.cnt = 0) :
    ungetc c f = (f.pushed (if f.ptr = f.base then f.ptr else f.ptr - 1) (toByte c)
      (decide (char (f.mem (if f.ptr = f.base then f.ptr else f.ptr - 1)) ≠ c)), c) := by
  have h₁ : ¬ (c = EOF ∨ !(f.flag.read || f.flag.rw) ∨ f.ptr = 0 ∨ f.base = 0) := by
    rintro (h' | h' | h' | h')
    · exact hc h'
    · rcases hr with hr | hr <;> simp [hr] at h'
    · exact hp h'
    · exact hb h'
  unfold ungetc
  rw [if_neg h₁, if_neg fun h' => h'.2 (h h'.1)]
  dsimp only
  by_cases hbase : f.ptr = f.base
  all_goals
    simp only [hbase, if_true, if_false, Nat.add_sub_cancel]
    split_ifs with hm
    · simp [Stream.pushed, hm]
    · have hm := not_not.mp hm
      have hx : toByte c = f.mem _ := hm ▸ toByte_char _
      simp [Stream.pushed, hm, hx, put_self]

theorem ungetc_refused (c : ℤ) (f : Stream) :
    ungetc c f = (f, EOF) ∨
      c ≠ EOF ∧ f.ptr ≠ 0 ∧ f.base ≠ 0 ∧ (f.ptr = f.base → f.cnt = 0) := by
  unfold ungetc
  by_cases h₁ : c = EOF ∨ !(f.flag.read || f.flag.rw) ∨ f.ptr = 0 ∨ f.base = 0
  · exact .inl (if_pos h₁)
  rw [if_neg h₁]
  by_cases h₂ : f.ptr = f.base ∧ f.cnt ≠ 0
  · exact .inl (if_pos h₂)
  exact .inr ⟨fun h' => h₁ (.inl h'), fun h' => h₁ (.inr (.inr (.inl h'))),
    fun h' => h₁ (.inr (.inr (.inr h'))), fun h' => not_not.mp fun h0 => h₂ ⟨h', h0⟩⟩

theorem ungetc_spec (c : ℤ) (h : f.Input d) :
    ungetc c f = (f, EOF) ∨
      c ≠ EOF ∧ (ungetc c f).2 = c ∧ (ungetc c f).1.Input d ∧
        (ungetc c f).1.blocked d = f.blocked d ∧
        (ungetc c f).1.avail d = toByte c :: f.avail d := by
  rcases ungetc_refused c f with hr | ⟨hc, hp, hb, h0⟩
  · exact .inl hr
  right
  rw [ungetc_eq hc h.fillable.input hp hb h0]
  obtain ⟨p, hpdef⟩ : ∃ p, p = if f.ptr = f.base then f.ptr else f.ptr - 1 := ⟨_, rfl⟩
  rw [← hpdef]
  have hin := h.inside hb
  have hcnt := h.cnt
  have hroom := (h.fillable.buffer hb).1
  have hpos : f.base ≤ p ∧ (f.ptr = p + 1 ∨ f.cnt = 0 ∧ f.base = p) := by
    rw [hpdef]
    split_ifs with he
    · exact ⟨he.ge, .inr ⟨h0 he, he.symm⟩⟩
    · omega
  refine ⟨hc, rfl, ⟨⟨h.fillable.input, h.fillable.nowrt, h.fillable.nostrg, h.fillable.nbf,
    h.fillable.buffer, h.fillable.eof⟩, ?_, fun h' => absurd h' hb, fun _ => ?_⟩, rfl, ?_⟩
  · change 0 ≤ f.cnt + 1
    omega
  · change f.base ≤ p ∧ (p : ℤ) + (f.cnt + 1) ≤ f.base + f.bufsiz
    omega
  · change bytes (put f.mem p (toByte c)) p (f.cnt + 1).toNat ++ f.source d = _
    rw [show (f.cnt + 1).toNat = f.cnt.toNat + 1 by omega, bytes, put_same,
      bytes_congr fun x hx _ => put_ne _ _ (by omega)]
    unfold Stream.avail
    rcases hpos.2 with h' | ⟨h', -⟩
    · rw [h']
      rfl
    · rw [h']
      rfl

/-- `fseek` inside the buffer, from the position `p`. -/
def seekFast (p offset : ℤ) (f : Stream) : Stream :=
  { f with ptr := ((f.ptr : ℤ) + (offset - p)).toNat, cnt := f.cnt + (p - offset) }

/-- `fseek` through `lseek`, which drops the buffer. -/
def seekSlow (d : Fd) (offset : ℤ) (whence : Whence) (f : Stream) : Stream × ℤ :=
  let f := if f.flag.rw then { f with flag := { f.flag with read := false } } else f
  let (f, p) := lseek d f offset whence
  ({ f with cnt := 0, ptr := f.base, flag := { f.flag with ungetc := false } },
    if p = -1 then -1 else 0)

/-- The test of `fseek` for a target in the buffer. -/
def InBuffer (f : Stream) (p offset : ℤ) : Prop :=
  (f.flag.ungetc || f.flag.rw) = false ∧ p - offset ≤ (f.ptr : ℤ) - f.base ∧ offset - p ≤ f.cnt

instance (f : Stream) (p offset : ℤ) : Decidable (InBuffer f p offset) :=
  inferInstanceAs (Decidable (_ ∧ _ ∧ _))

theorem lseek_here (d : Fd) (f : Stream) : (lseek d f 0 .cur).1 = f := by
  unfold lseek
  dsimp only
  split_ifs
  · rw [show ((f.pos : ℤ) + 0).toNat = f.pos by omega]
  · rfl

theorem ftell_fst (h : 0 ≤ f.cnt) : (ftell d f).1 = f := by
  unfold ftell
  dsimp only
  rw [if_neg (not_lt.mpr h)]
  split_ifs
  · rfl
  · rfl
  all_goals exact lseek_here d f

/-- The position `fseek` counts from, if it looks at the buffer. -/
theorem fseek_buffered (hd : d.directory = false) (hr : f.flag.read = true) (hc : 0 ≤ f.cnt)
    (hb : f.base ≠ 0) (hn : f.flag.nbf = false) (offset : ℤ) (whence : Whence) :
    fseek d o offset whence f =
      let p := (ftell d f.restarted).2
      let (offset, whence) := if whence = .cur then (offset + p, Whence.set) else (offset, whence)
      if whence = .set ∧ InBuffer f.restarted p offset then
        (seekFast p offset f.restarted, 0)
      else seekSlow d offset whence f.restarted := by
  have hr' : f.restarted.flag.read = true := hr
  have hbuf : f.restarted.base ≠ 0 ∧ (!f.restarted.flag.nbf) = true := ⟨hb, by
    change (!f.flag.nbf) = true
    rw [hn]
    rfl⟩
  have htell : ftell d f.restarted = (f.restarted, (ftell d f.restarted).2) :=
    Prod.ext (ftell_fst hc) rfl
  unfold fseek
  simp only [hd, hr', Bool.false_eq_true, if_false, if_true]
  rw [if_pos hbuf, htell]
  obtain ⟨p, hp⟩ : ∃ p, p = (ftell d f.restarted).2 := ⟨_, rfl⟩
  rw [← hp]
  dsimp only
  have key : ∀ (x : ℤ) (w : Whence),
      (if ((f.restarted.base ≠ 0 ∧ (!f.restarted.flag.nbf) = true) ∧ w = .set ∧
          (!(f.restarted.flag.ungetc || f.restarted.flag.rw)) = true ∧
          p - x ≤ (f.restarted.ptr : ℤ) - f.restarted.base ∧ x - p ≤ f.restarted.cnt) then
        (seekFast p x f.restarted, (0 : ℤ)) else seekSlow d x w f.restarted) =
      if w = .set ∧ InBuffer f.restarted p x then (seekFast p x f.restarted, 0)
      else seekSlow d x w f.restarted := by
    intro x w
    refine if_congr ?_ rfl rfl
    unfold InBuffer
    rw [← Bool.not_eq_true' (f.restarted.flag.ungetc || f.restarted.flag.rw)]
    exact ⟨fun h => h.2, fun h => ⟨hbuf, h⟩⟩
  have hsel : (if (f.restarted.base ≠ 0 ∧ (!f.restarted.flag.nbf) = true) ∧ whence = .cur then
      (offset + p, Whence.set) else (offset, whence)) =
      if whence = .cur then (offset + p, Whence.set) else (offset, whence) :=
    if_congr ⟨fun h => h.2, fun h => ⟨hbuf, h⟩⟩ rfl rfl
  rw [hsel]
  exact key _ _

theorem fseek_unbuffered (hd : d.directory = false) (hr : f.flag.read = true)
    (hb : f.base = 0 ∨ f.flag.nbf = true) (offset : ℤ) (whence : Whence) :
    fseek d o offset whence f = seekSlow d offset whence f.restarted := by
  have hr' : f.restarted.flag.read = true := hr
  have hbuf : ¬ (f.restarted.base ≠ 0 ∧ (!f.restarted.flag.nbf) = true) := by
    rintro ⟨h₁, h₂⟩
    rcases hb with hb | hb
    · exact h₁ hb
    · rw [show f.restarted.flag.nbf = true from hb] at h₂
      exact absurd h₂ (by decide)
  unfold fseek
  simp only [hd, hr', hbuf, Bool.false_eq_true, false_and, if_false, if_true]
  rfl

theorem lseek_flag (d : Fd) (f : Stream) (offset : ℤ) (whence : Whence) :
    (lseek d f offset whence).1.flag = f.flag := by
  unfold lseek
  dsimp only
  split_ifs <;> rfl

variable (h : f.Input d)
include h

theorem Stream.Input.restarted : f.restarted.Input d :=
  ⟨⟨h.fillable.input, h.fillable.nowrt, h.fillable.nostrg, h.fillable.nbf,
    fun hb => ⟨(h.fillable.buffer hb).1, Nat.succ_pos 511⟩,
    fun he => absurd he (by simp [Stream.restarted])⟩, h.cnt, h.empty, h.inside⟩

theorem lseek_input (he : f.flag.eof = false) (offset : ℤ) (whence : Whence) :
    (lseek d f offset whence).1.Input d := by
  unfold lseek
  dsimp only
  split_ifs
  · exact ⟨⟨h.fillable.input, h.fillable.nowrt, h.fillable.nostrg, h.fillable.nbf,
      h.fillable.buffer, fun he' => absurd (he.symm.trans he')
        (by decide)⟩, h.cnt, h.empty, h.inside⟩
  · exact h

theorem Stream.Input.emptied :
    ({ f with cnt := 0, ptr := f.base, flag := { f.flag with ungetc := false } } : Stream).Input
    d :=
  ⟨⟨h.fillable.input, h.fillable.nowrt, h.fillable.nostrg, h.fillable.nbf, h.fillable.buffer,
    h.fillable.eof⟩, le_rfl, fun _ => rfl, fun _ => ⟨le_rfl, by simp⟩⟩

theorem seekSlow_input (he : f.flag.eof = false) (offset : ℤ) (whence : Whence) :
    (seekSlow d offset whence f).1.Input d := by
  unfold seekSlow
  dsimp only
  apply Stream.Input.emptied
  apply lseek_input
  · split_ifs with hrw
    · exact ⟨⟨.inr hrw, h.fillable.nowrt, h.fillable.nostrg, h.fillable.nbf, h.fillable.buffer,
        h.fillable.eof⟩, h.cnt, h.empty, h.inside⟩
    · exact h
  · split_ifs <;> exact he

theorem seekFast_input (hb : f.base ≠ 0) {p offset : ℤ}
    (hin : InBuffer f p offset) : (seekFast p offset f).Input d := by
  obtain ⟨-, h₁, h₂⟩ := hin
  have := h.inside hb
  refine ⟨⟨h.fillable.input, h.fillable.nowrt, h.fillable.nostrg, h.fillable.nbf,
    h.fillable.buffer, h.fillable.eof⟩, ?_, fun h' => absurd h' hb, fun _ => ?_⟩
  · change 0 ≤ f.cnt + (p - offset)
    omega
  · change f.base ≤ ((f.ptr : ℤ) + (offset - p)).toNat ∧
      ((((f.ptr : ℤ) + (offset - p)).toNat : ℕ) : ℤ) + (f.cnt + (p - offset)) ≤ f.base + f.bufsiz
    omega

theorem lseek_end_input : (lseek d f 0 .fromEnd).1.Input d := by
  unfold lseek
  dsimp only
  split_ifs
  · refine ⟨⟨h.fillable.input, h.fillable.nowrt, h.fillable.nostrg, h.fillable.nbf,
      h.fillable.buffer, fun _ _ => ?_⟩, h.cnt, h.empty, h.inside⟩
    simp
  · exact h

theorem fflush_input :
    (fflush d o f).1.Input d ∧ (fflush d o f).1.flag.eof = f.flag.eof := by
  have hstart : (if d.append then lseek d f 0 .fromEnd else (f, 0)).1.Input d ∧
      (if d.append then lseek d f 0 .fromEnd else (f, 0)).1.flag.eof = f.flag.eof := by
    split_ifs
    · exact ⟨lseek_end_input h, by rw [lseek_flag]⟩
    · exact ⟨h, rfl⟩
  obtain ⟨hstart, heof⟩ := hstart
  unfold fflush
  obtain ⟨⟨g, p⟩, hg⟩ : ∃ r, r = if d.append then lseek d f 0 .fromEnd else (f, 0) := ⟨_, rfl⟩
  rw [← hg] at hstart heof ⊢
  dsimp only
  have hbuf : fflushBuffer d o g.clearUngetc = (g.clearUngetc, true) :=
    if_neg fun h' => absurd (hstart.fillable.nowrt.symm.trans h'.1) (by decide)
  rw [hbuf]
  have hin := hstart.fillable
  dsimp only at hstart heof hin ⊢
  split_ifs with h₁ h₂ h₃
  · exact ⟨hstart, heof⟩
  · exact absurd h₂ (by decide)
  · exact ⟨⟨⟨.inr h₃, rfl, hin.nostrg, hin.nbf, hin.buffer, hin.eof⟩, le_rfl, fun _ => rfl,
      fun _ => ⟨le_rfl, by simp [Stream.clearUngetc]⟩⟩, heof⟩
  · exact ⟨⟨⟨hin.input, hin.nowrt, hin.nostrg, hin.nbf, hin.buffer, hin.eof⟩, hstart.cnt,
      hstart.empty, hstart.inside⟩, heof⟩

theorem fseek_input (offset : ℤ) (whence : Whence) :
    (fseek d o offset whence f).1.Input d := by
  have hS := h.restarted
  have he : f.restarted.flag.eof = false := rfl
  by_cases hd : d.directory = true
  · unfold fseek
    rw [if_pos hd]
    exact h
  have hd : d.directory = false := by simpa using hd
  cases hr : f.flag.read with
  | true =>
      by_cases hb : f.base = 0 ∨ f.flag.nbf = true
      · rw [fseek_unbuffered hd hr hb]
        exact seekSlow_input hS he offset whence
      · rw [not_or, Bool.not_eq_true] at hb
        rw [fseek_buffered hd hr h.cnt hb.1 hb.2]
        dsimp only
        split_ifs with h₁ h₂ h₂
        · exact seekFast_input hS hb.1 h₂.2
        · exact seekSlow_input hS he _ _
        · exact seekFast_input hS hb.1 h₂.2
        · exact seekSlow_input hS he _ _
  | false =>
      have hrw : f.flag.rw = true := h.fillable.input.resolve_left (by simp [hr])
      have hr' : f.restarted.flag.read = false := hr
      have hrw' : (f.restarted.flag.wrt || f.restarted.flag.rw) = true := by
        rw [show f.restarted.flag.rw = true from hrw, Bool.or_true]
      unfold fseek
      simp only [hd, hr', hrw', Bool.false_eq_true, if_false, if_true]
      exact lseek_input (fflush_input hS).1 ((fflush_input hS).2.trans he) offset whence

theorem setvbuf_input (buf : ℕ) (type : Buffering) (len : ℕ) :
    (setvbuf d o buf type len f).1.Input d := by
  have hG := (fflush_input (o := o) h).1
  unfold setvbuf
  generalize (fflush d o f).1 = g at hG
  have hin := hG.fillable
  -- the new buffer is empty
  have hnew : ∀ (g : Stream), g.Input d → ∀ base bufsiz mine,
      (type = .none ∧ base = 0 ∨ type ≠ .none ∧ base ≠ 0 ∧ bufsiz ≠ 0) →
      (g.install type base bufsiz mine).Input d := by
    intro g hG base bufsiz mine hb
    have hin := hG.fillable
    refine ⟨⟨hin.input, hin.nowrt, hin.nostrg, ?_, ?_, hin.eof⟩, le_rfl, fun _ => rfl, ?_⟩
    · intro hn
      exact (hb.resolve_right fun h' => h'.1 (of_decide_eq_true hn)).2
    · intro hne
      obtain ⟨ht, -, hs⟩ := hb.resolve_left fun h' => hne h'.2
      have hfill : (g.install type base bufsiz mine).fillsize = bufsiz := if_neg ht
      rw [hfill]
      exact ⟨Nat.pos_of_ne_zero hs, Nat.pos_of_ne_zero hs⟩
    · intro hne
      obtain ⟨ht, -, -⟩ := hb.resolve_left fun h' => hne h'.2
      have hptr : (g.install type base bufsiz mine).ptr = base := if_neg ht
      rw [hptr]
      exact ⟨le_rfl, by simp [Stream.install]⟩
  dsimp only
  split_ifs with ht h0 hb ha
  · exact hnew g hG _ _ _ (.inl ⟨ht, rfl⟩)
  · exact hG
  · exact ⟨⟨hin.input, hin.nowrt, hin.nostrg, hin.nbf, hin.buffer, hin.eof⟩, hG.cnt, hG.empty,
      hG.inside⟩
  · exact hnew { g with calls := g.calls + 1, allocated := o.malloc g.calls len :: g.allocated }
      ⟨⟨hin.input, hin.nowrt, hin.nostrg, hin.nbf, hin.buffer, hin.eof⟩, hG.cnt, hG.empty,
        hG.inside⟩ _ _ _ (.inr ⟨ht, ha, h0⟩)
  · exact hnew g hG _ _ _ (.inr ⟨ht, hb, h0⟩)

end DjgppLibc.Stdio
