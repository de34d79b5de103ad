import DjgppLibc.StdioRead
import DjgppLibc.StdioPutcs

/-!
# fread against getc

`fread` of `n` bytes and `n` calls of `getc` take bytes from the same list, so
they can be compared on it. They agree except in three cases, which are exact: a
length that is negative as an `int`; more bytes than are buffered asked of a
binary stream that has met end of file, where `fread` delivers the buffered bytes
and leaves them; and two CR in a row in a text file, of which `getc` delivers the
second one while `fread` leaves out both.
-/
namespace DjgppLibc.Stdio
open ByteMemory

variable {d : Fd} {o o' : Os} {f : Stream} {n size count : ℕ} {xs : List UInt8}

theorem pulls_false (n : ℕ) (xs : List UInt8) : pulls false n xs = (xs.take n, xs.drop n) := by
  induction n generalizing xs with
  | zero => rfl
  | succ n ih =>
      cases xs with
      | nil => rfl
      | cons x xs =>
          have hp : pull false (x :: xs) = (some x, xs) := by simp [pull]
          rw [pulls, hp]
          dsimp only
          rw [ih]
          rfl

/-- Two CR in a row come before the `n`-th other byte. -/
def DoubleCR (n : ℕ) (xs : List UInt8) : Prop :=
  ∃ pre post, xs = pre ++ CR :: CR :: post ∧ (pre.filter (· ≠ CR)).length < n

theorem doubleCR_zero (xs : List UInt8) : ¬ DoubleCR 0 xs := by
  rintro ⟨pre, post, -, h⟩
  exact absurd h (Nat.not_lt_zero _)

theorem doubleCR_nil (n : ℕ) : ¬ DoubleCR n [] := by
  rintro ⟨pre, post, h, -⟩
  exact absurd h (by simp)

theorem doubleCR_cons {x : UInt8} (hx : x ≠ CR) : DoubleCR (n + 1) (x :: xs) ↔ DoubleCR n xs := by
  constructor
  · rintro ⟨pre, post, h, hlen⟩
    cases pre with
    | nil => exact absurd (List.cons.inj h).1 hx
    | cons y pre =>
        obtain ⟨rfl, rfl⟩ := List.cons.inj h
        refine ⟨pre, post, rfl, ?_⟩
        rw [List.filter_cons_of_pos (by simpa using hx), List.length_cons] at hlen
        omega
  · rintro ⟨pre, post, rfl, hlen⟩
    refine ⟨x :: pre, post, rfl, ?_⟩
    rw [List.filter_cons_of_pos (by simpa using hx), List.length_cons]
    omega

theorem doubleCR_cr {y : UInt8} (hy : y ≠ CR) :
    DoubleCR (n + 1) (CR :: y :: xs) ↔ DoubleCR n xs := by
  refine Iff.trans ?_ (doubleCR_cons hy)
  constructor
  · rintro ⟨pre, post, h, hlen⟩
    cases pre with
    | nil => exact absurd (List.cons.inj (List.cons.inj h).2).1 hy
    | cons z pre =>
        obtain ⟨rfl, h'⟩ := List.cons.inj h
        refine ⟨pre, post, h', ?_⟩
        rwa [List.filter_cons_of_neg (by simp)] at hlen
  · rintro ⟨pre, post, h, hlen⟩
    refine ⟨CR :: pre, post, by rw [h]; rfl, ?_⟩
    rwa [List.filter_cons_of_neg (by simp)]

theorem CR_not_mem_strip (n : ℕ) (xs : List UInt8) : CR ∉ (strip n xs).1 := by
  induction xs generalizing n with
  | nil => rw [strip_nil]; simp
  | cons x xs ih =>
      cases n with
      | zero => simp [strip]
      | succ n =>
          rw [strip]
          split_ifs with hx
          · exact ih (n + 1)
          · rw [List.mem_cons, not_or]
            exact ⟨Ne.symm hx, ih n⟩

theorem pulls_text (n : ℕ) (xs : List UInt8) :
    (¬ DoubleCR n xs → pulls true n xs = strip n xs) ∧
      (DoubleCR n xs → CR ∈ (pulls true n xs).1) := by
  induction n generalizing xs with
  | zero => exact ⟨fun _ => by simp [pulls, strip], fun h => absurd h (doubleCR_zero xs)⟩
  | succ n ih =>
      cases xs with
      | nil => exact ⟨fun _ => rfl, fun h => absurd h (doubleCR_nil _)⟩
      | cons x xs =>
          by_cases hx : x = CR
          swap
          · have hp : pull true (x :: xs) = (some x, xs) := if_neg fun h => hx h.2
            rw [doubleCR_cons hx, pulls, hp, strip, if_neg hx]
            dsimp only
            exact ⟨fun h => by rw [(ih xs).1 h], fun h => List.mem_cons_of_mem _ ((ih xs).2 h)⟩
          subst hx
          have hp : pull true (CR :: xs) = (xs.head?, xs.tail) := by simp [pull]
          rw [pulls, hp, strip, if_pos rfl]
          cases xs with
          | nil =>
              refine ⟨fun _ => rfl, ?_⟩
              rintro ⟨pre, post, h, -⟩
              have hlen := congrArg List.length h
              simp only [List.length_append, List.length_cons, List.length_nil] at hlen
              omega
          | cons y ys =>
              dsimp only [List.head?_cons, List.tail_cons]
              by_cases hy : y = CR
              · -- `getc` delivers the second CR
                subst hy
                refine ⟨fun h => absurd ⟨[], ys, rfl, Nat.succ_pos n⟩ h, fun _ => ?_⟩
                exact List.mem_cons_self
              · rw [doubleCR_cr hy, strip, if_neg hy]
                exact ⟨fun h => by rw [(ih ys).1 h], fun h => List.mem_cons_of_mem _ ((ih ys).2 h)⟩

theorem pull_length (text : Bool) (xs : List UInt8) :
    (pull text xs).2.length ≤ xs.length - 1 := by
  cases xs with
  | nil => simp [pull]
  | cons x xs =>
      rw [pull]
      split_ifs <;> simp

theorem pulls_length (text : Bool) (n : ℕ) (xs : List UInt8) :
    (pulls text n xs).2.length ≤ xs.length := by
  induction n generalizing xs with
  | zero => exact le_rfl
  | succ n ih =>
      have hlen := pull_length text xs
      unfold pulls
      cases hp : pull text xs with
      | mk b ys =>
          rw [hp] at hlen
          dsimp only at hlen
          cases b with
          | none =>
              dsimp only
              omega
          | some b =>
              dsimp only
              exact le_trans (ih ys) (by omega)

/-- The first call takes a byte if there is one. -/
theorem pulls_length_lt (text : Bool) (hn : 0 < n) (hxs : xs ≠ []) :
    (pulls text n xs).2.length < xs.length := by
  obtain ⟨m, rfl⟩ : ∃ m, n = m + 1 := ⟨n - 1, by omega⟩
  have hpos := List.length_pos_iff.mpr hxs
  have hlen := pull_length text xs
  unfold pulls
  cases hp : pull text xs with
  | mk b ys =>
      rw [hp] at hlen
      dsimp only at hlen
      cases b with
      | none =>
          dsimp only
          omega
      | some b =>
          dsimp only
          exact lt_of_le_of_lt (pulls_length text m ys) (by omega)

/-- `fread` delivers what the calls of `getc` deliver, and leaves what they leave. -/
def SameAsGetc (d : Fd) (o o' : Os) (size count : ℕ) (f : Stream) : Prop :=
  (fread d o size count f).2.1 = (getcs d o' (size * count) f).2 ∧
    (fread d o size count f).1.unread = (getcs d o' (size * count) f).1.unread

def Followed (d : Fd) (n : ℕ) (f : Stream) : Prop :=
  (n < 2147483648 ∨ f.avail d = []) ∧ (d.text = false → ¬ Stuck f n) ∧
    (d.text = true → ¬ DoubleCR n (f.avail d))

/-- The comparison is one of lists. -/
theorem sameAsGetc_iff_lists (hos : o'.Reads d) (h : f.Input d)
    (hb : (fread d o size count f).1.blocked d = f.blocked d) :
    SameAsGetc d o o' size count f ↔
      (fread d o size count f).2.1 = (pulls d.text (size * count) (f.avail d)).1 ∧
        (fread d o size count f).1.avail d = (pulls d.text (size * count) (f.avail d)).2 := by
  obtain ⟨-, h₂, h₃, h₄⟩ := getcs_spec hos (size * count) h
  unfold SameAsGetc
  rw [unread_eq d, unread_eq d, hb, h₂, h₃, h₄, List.append_left_inj]

theorem sameAsGetc_iff (hos : o.Reads d) (hos' : o'.Reads d) (h : f.Input d)
    (hn : size * count < 4294967296) :
    SameAsGetc d o o' size count f ↔ Followed d (size * count) f := by
  by_cases hbig : 2147483648 ≤ size * count
  · -- nothing is delivered
    obtain ⟨items, hr⟩ := fread_large (d := d) (o := o) (f := f) hbig hn
    have hav : (f.grown (size * count)).avail d = f.avail d := rfl
    rw [sameAsGetc_iff_lists hos' h (by rw [hr]; rfl), hr, hav]
    constructor
    · rintro ⟨-, h₂⟩
      have hnil : f.avail d = [] := by
        by_contra hne
        have := pulls_length_lt d.text (n := size * count) (by omega) hne
        rw [← h₂] at this
        exact lt_irrefl _ this
      refine ⟨.inr hnil, fun _ hst => ?_, fun _ => by rw [hnil]; exact doubleCR_nil _⟩
      rw [avail_of_cnt_pos hst.2.1] at hnil
      exact absurd hnil (by simp)
    · rintro ⟨h₁, -, -⟩
      rw [h₁.resolve_left (by omega)]
      obtain ⟨m, hm⟩ : ∃ m, size * count = m + 1 := ⟨size * count - 1, by omega⟩
      rw [hm]
      exact ⟨rfl, rfl⟩
  have hlt : size * count < 2147483648 := not_le.mp hbig
  cases ht : d.text with
  | false =>
      have hr := fread_binary hos h ht hlt
      rw [sameAsGetc_iff_lists hos' h hr.blocked, ht, pulls_false, hr.data]
      constructor
      · rintro ⟨-, h₂⟩
        refine ⟨.inl hlt, fun _ hst => ?_, fun h' => absurd (ht.symm.trans h') (by decide)⟩
        rw [hr.stuck hst] at h₂
        have hlen := congrArg List.length h₂
        have hpos : 0 < (f.avail d).length := by
          rw [avail_of_cnt_pos hst.2.1]
          exact Nat.succ_pos _
        have := hst.2.1.trans hst.2.2
        rw [List.length_drop] at hlen
        omega
      · rintro ⟨-, h₂, -⟩
        exact ⟨rfl, hr.rest (h₂ ht)⟩
  | true =>
      obtain ⟨-, h₂, h₃, h₄⟩ := fread_text hos h ht hlt
      rw [sameAsGetc_iff_lists hos' h h₂, ht, h₃, h₄]
      have hp := pulls_text (size * count) (f.avail d)
      constructor
      · rintro ⟨h₅, -⟩
        refine ⟨.inl hlt, fun h' => absurd (ht.symm.trans h') (by decide), fun _ hdd => ?_⟩
        have := hp.2 hdd
        rw [← h₅] at this
        exact CR_not_mem_strip _ _ this
      · rintro ⟨-, -, h₅⟩
        rw [hp.1 (h₅ ht)]
        exact ⟨rfl, rfl⟩

inductive ReadCall where
  | getc
  | fread (size count : ℕ)
  | ungetc (c : ℤ)
  deriving DecidableEq, Repr

/-- What the program sees of a call. -/
inductive Delivery where
  | got (b : UInt8)
  | eof
  | read (bs : List UInt8)
  | pushed (b : UInt8)
  | refused
  deriving DecidableEq, Repr

def Stream.take (d : Fd) (o : Os) (f : Stream) : ReadCall → Stream × Delivery
  | .getc =>
      let (f, c) := Stdio.getc d o f
      (f, if c = EOF then .eof else .got (toByte c))
  | .fread size count =>
      let (f, bs, _) := Stdio.fread d o size count f
      (f, .read bs)
  | .ungetc c =>
      let (f, r) := Stdio.ungetc c f
      (f, if r = EOF then .refused else .pushed (toByte c))

inductive InCall where
  | read (c : ReadCall)
  | fseek (offset : ℤ) (whence : Whence)
  | setvbuf (buf : ℕ) (type : Buffering) (len : ℕ)
  deriving DecidableEq, Repr

def Stream.input (d : Fd) (o : Os) (f : Stream) : InCall → Except Empty Stream
  | .read c => .ok (f.take d o c).1
  | .fseek offset whence => .ok (Stdio.fseek d o offset whence f).1
  | .setvbuf buf type len => .ok (Stdio.setvbuf d o buf type len f).1

/-- The destination of `fread` lies in the address space. -/
def ReadCall.Valid : ReadCall → Prop
  | .fread size count => size * count < 4294967296
  | _ => True

instance : ∀ c : ReadCall, Decidable c.Valid
  | .fread _ _ => inferInstanceAs (Decidable (_ < _))
  | .getc => .isTrue trivial
  | .ungetc _ => .isTrue trivial

def InCall.Valid : InCall → Prop
  | .read c => c.Valid
  | _ => True

instance : ∀ c : InCall, Decidable c.Valid
  | .read _ => inferInstanceAs (Decidable (ReadCall.Valid _))
  | .fseek _ _ => .isTrue trivial
  | .setvbuf _ _ _ => .isTrue trivial

structure Stream.OpenedIn (f : Stream) : Prop where
  input : f.flag.read = true ∨ f.flag.rw = true
  nowrt : f.flag.wrt = false
  nostrg : f.flag.strg = false
  noeof : f.flag.eof = false
  base : f.base = 0
  cnt : f.cnt = 0

theorem Stream.OpenedIn.start (h : f.OpenedIn) : f.Input d :=
  ⟨⟨h.input, h.nowrt, h.nostrg, fun _ => h.base, fun hb => absurd h.base hb,
    fun he => absurd (h.noeof.symm.trans he) (by decide)⟩, h.cnt.ge, fun _ => h.cnt,
    fun hb => absurd h.base hb⟩

theorem fread_input (hos : o.Reads d) (h : f.Input d) (hn : size * count < 4294967296) :
    (fread d o size count f).1.Input d := by
  by_cases hbig : 2147483648 ≤ size * count
  · obtain ⟨items, hr⟩ := fread_large (d := d) (o := o) (f := f) hbig hn
    rw [hr]
    exact h.grown _
  · cases ht : d.text with
    | false => exact (fread_binary hos h ht (not_le.mp hbig)).input
    | true => exact (fread_text hos h ht (not_le.mp hbig)).1

theorem Stream.Input.take (hos : o.Reads d) (h : f.Input d) {c : ReadCall} (hv : c.Valid) :
    (f.take d o c).1.Input d := by
  cases c with
  | getc => exact (getc_spec hos h).input
  | fread size count => exact fread_input hos h hv
  | ungetc c =>
      rcases ungetc_spec c h with hr | ⟨-, -, hr, -⟩
      · simp only [Stream.take, hr]
        exact h
      · exact hr

theorem Stream.Input.step (hos : o.Reads d) (h : f.Input d) {c : InCall} (hv : c.Valid) :
    ∃ f', f.input d o c = .ok f' ∧ f'.Input d := by
  cases c with
  | read c => exact ⟨_, rfl, h.take hos hv⟩
  | fseek offset whence => exact ⟨_, rfl, fseek_input h offset whence⟩
  | setvbuf buf type len => exact ⟨_, rfl, setvbuf_input h buf type len⟩

/-- In every state that reading, seeking and changing the buffer lead to, `fread`
and `getc` agree unless one of the three exceptions is met. -/
theorem run_sameAsGetc_iff (d : Fd) (o o' : Os) (f : Stream) (cs : List InCall) (hf : f.OpenedIn)
    (hos : o.Reads d) (hos' : o'.Reads d)
    (hv : Runs.Along (Stream.input d o) (fun _ c => c.Valid) f cs) (g : Stream)
    (hexec : Runs.exec (Stream.input d o) f cs = .ok g) (size count : ℕ)
    (hn : size * count < 4294967296) :
    SameAsGetc d o o' size count g ↔ Followed d (size * count) g := by
  obtain ⟨g', hexec', hG⟩ := Runs.exec_invariant (J := Stream.Input d)
    (fun _ _ h _ hv => Stream.Input.step hos h hv) hf.start hv hv
  rw [hexec] at hexec'
  obtain rfl := Except.ok.inj hexec'
  exact sameAsGetc_iff hos hos' hG hn

/-- A file opened for reading. -/
def sampleInput (contents : List UInt8) : Stream :=
  ⟨0, 0, 0, 0, { read := true }, 0, fun _ => 0, contents, 0, 0, [], [], [], []⟩

theorem sampleInput_opened (contents : List UInt8) : (sampleInput contents).OpenedIn :=
  ⟨.inl rfl, rfl, rfl, rfl, rfl, rfl⟩

theorem sampleOs_reads (d : Fd) (hd : d.seekable = true) : sampleOs.Reads d :=
  ⟨fun _ => (by decide : (0 : ℤ) < 3), fun _ => hd⟩

theorem pulls_encode {text : Bool} {data : List UInt8} (hcr : text = true → CR ∉ data) {n : ℕ}
    (hn : data.length < n) : (pulls text n (encode text data)).1 = data := by
  induction data generalizing n with
  | nil =>
      obtain ⟨n, rfl⟩ := Nat.exists_eq_add_one.mpr hn
      rfl
  | cons x xs ih =>
      obtain ⟨n, rfl⟩ := Nat.exists_eq_add_one.mpr (Nat.zero_lt_of_lt hn)
      have hrest := ih (fun ht hm => hcr ht (List.mem_cons_of_mem x hm)) (Nat.lt_of_succ_lt_succ hn)
      have hpull : pull text (encode text (x :: xs)) = (some x, encode text xs) := by
        unfold encode
        rw [List.flatMap_cons]
        split_ifs with hline
        · exact (if_pos ⟨hline.1, rfl⟩).trans (by rw [hline.2]; rfl)
        · exact if_neg fun (h : text = true ∧ x = CR) => hcr h.1 (h.2 ▸ List.mem_cons_self)
      rw [pulls, hpull]
      dsimp only
      rw [hrest]

theorem visible_encode {data : List UInt8} (hz : d.text = true → ctrlZ ∉ data) :
    visible d (encode d.text data) = encode d.text data := by
  unfold visible
  split_ifs with htext
  · rw [List.takeWhile_eq_self_iff]
    intro b hb
    obtain ⟨x, hx, hbx⟩ := List.mem_flatMap.mp hb
    have hxz : x ≠ ctrlZ := fun h => hz htext (h ▸ hx)
    rw [decide_eq_true_eq]
    split_ifs at hbx with hline
    · rw [List.mem_cons, List.mem_singleton] at hbx
      obtain rfl | rfl := hbx <;> decide
    · rwa [List.mem_singleton.mp hbx]
  · rfl

/-- A line buffer of four bytes that holds one. -/
def sampleLine : Stream :=
  endOf sampleStream (Runs.exec (Stream.output sampleFd sampleOs) sampleStream
    [.setvbuf 1000 .line 4, .putc 97])

/-- The CR of a line end lies on the border of two buffers. -/
theorem run_sameAsGetc_iff_line :
    SameAsGetc sampleFd sampleOs sampleOs 1 3
      (endOf (sampleInput [97, 98, 13, 10, 99, 100])
        (Runs.exec (Stream.input sampleFd sampleOs) (sampleInput [97, 98, 13, 10, 99, 100])
          [.setvbuf 1000 .full 3, .read .getc])) := by
  refine (run_sameAsGetc_iff sampleFd sampleOs sampleOs (sampleInput [97, 98, 13, 10, 99, 100])
    [.setvbuf 1000 .full 3, .read .getc] (sampleInput_opened _) (sampleOs_reads _ rfl)
    (sampleOs_reads _ rfl) (by decide +kernel) _ (by rfl) 1 3 (by decide)).mpr
    ⟨.inl (by decide), fun h => absurd h (by decide), fun _ => ?_⟩
  have hav : (endOf (sampleInput [97, 98, 13, 10, 99, 100])
      (Runs.exec (Stream.input sampleFd sampleOs) (sampleInput [97, 98, 13, 10, 99, 100])
        [.setvbuf 1000 .full 3, .read .getc])).avail sampleFd = [98, 13, 10, 99, 100] := by
    decide +kernel
  rw [hav, doubleCR_cons (by decide)]
  change ¬ DoubleCR 2 (CR :: 10 :: [99, 100])
  rw [doubleCR_cr (by decide), doubleCR_cons (by decide)]
  exact doubleCR_zero _

/-- Of two CR in a row `getc` delivers the second. -/
theorem fread_drops_second_cr :
    Runs.Along (Stream.input sampleFd sampleOs) (fun _ c => c.Valid)
        (sampleInput [13, 13, 97, 98]) [] ∧
      ¬ SameAsGetc sampleFd sampleOs sampleOs 1 2 (sampleInput [13, 13, 97, 98]) := by
  refine ⟨trivial, ?_⟩
  rintro ⟨hdata, -⟩
  revert hdata
  decide +kernel

/-- The bytes still to come after the deliveries, if these follow the list: what
is pushed back goes in front. -/
def replay : List UInt8 → List Delivery → Option (List UInt8)
  | xs, [] => some xs
  | [], .got _ :: _ => none
  | x :: xs, .got b :: es => if x = b then replay xs es else none
  | [], .eof :: es => replay [] es
  | _ :: _, .eof :: _ => none
  | xs, .read bs :: es => if bs <+: xs then replay (xs.drop bs.length) es else none
  | xs, .pushed b :: es => replay (b :: xs) es
  | xs, .refused :: es => replay xs es

example : replay [97, 98] [.got 97, .pushed 99] = some [99, 98] := by decide +kernel

theorem replay_append (xs : List UInt8) (es es' : List Delivery) :
    replay xs (es ++ es') = (replay xs es).bind fun ys => replay ys es' := by
  induction es generalizing xs with
  | nil => rfl
  | cons e es ih =>
      cases e with
      | got b =>
          cases xs with
          | nil => rfl
          | cons x xs =>
              simp only [List.cons_append, replay]
              split_ifs
              · exact ih xs
              · rfl
      | eof =>
          cases xs with
          | nil => exact ih []
          | cons x xs => rfl
      | read bs =>
          simp only [List.cons_append, replay]
          split_ifs
          · exact ih _
          · rfl
      | pushed b => exact ih _
      | refused => exact ih _

/-- The call is no `fread` of more than the buffered bytes after end of file. -/
def Unstuck (f : Stream) (c : ReadCall) : Prop :=
  ∀ size count, c = .fread size count → ¬ Stuck f (size * count)

instance (f : Stream) : ∀ c : ReadCall, Decidable (Unstuck f c)
  | .fread size count =>
      decidable_of_iff (¬ Stuck f (size * count))
        ⟨fun h _ _ he => by cases he; exact h, fun h => h size count rfl⟩
  | .getc => .isTrue fun _ _ he => by cases he
  | .ungetc _ => .isTrue fun _ _ he => by cases he

theorem drop_length_take (n : ℕ) (xs : List UInt8) : xs.drop (xs.take n).length = xs.drop n := by
  rw [List.length_take]
  rcases Nat.le_total n xs.length with h | h
  · rw [Nat.min_eq_left h]
  · rw [Nat.min_eq_right h, List.drop_length, List.drop_of_length_le h]

/-- One call of a binary stream follows the list of unread bytes. -/
theorem Stream.Input.delivers (hos : o.Reads d) (ht : d.text = false) (h : f.Input d)
    {c : ReadCall} (hv : c.Valid) (hu : Unstuck f c) :
    replay (f.avail d) [(f.take d o c).2] = some ((f.take d o c).1.avail d) := by
  cases c with
  | getc =>
      have hg := getc_spec hos h
      have hval := hg.value
      have hav := hg.avail
      rw [ht] at hval hav
      simp only [Stream.take]
      rw [hav]
      cases hxs : f.avail d with
      | nil =>
          rw [hxs] at hval
          rw [if_pos (by rw [hval]; rfl)]
          rfl
      | cons x xs =>
          have hp : pull false (x :: xs) = (some x, xs) := by simp [pull]
          rw [hxs, hp] at hval
          have hval : (getc d o f).2 = uchar x := hval
          rw [hval, if_neg (uchar_ne_EOF x), toByte_uchar, hp, replay, if_pos rfl, replay]
  | fread size count =>
      simp only [Stream.take, replay]
      by_cases hbig : 2147483648 ≤ size * count
      · obtain ⟨items, hr⟩ := fread_large (d := d) (o := o) (f := f) hbig hv
        rw [hr, if_pos List.nil_prefix]
        rfl
      · have hr := fread_binary hos h ht (not_le.mp hbig)
        have hdata : (fread d o size count f).2.1 = (f.avail d).take (size * count) := hr.data
        rw [hdata, if_pos (List.take_prefix _ _), hr.rest (hu size count rfl), drop_length_take]
  | ungetc c =>
      simp only [Stream.take]
      rcases ungetc_spec c h with hr | ⟨hc, hr, -, -, hav⟩
      · rw [hr, if_pos rfl]
        rfl
      · rw [hr, if_neg hc, hav]
        rfl

/-- The calls with what they delivered. -/
def Stream.record (d : Fd) (o : Os) (r : Stream × List Delivery) (c : ReadCall) :
    Except Empty (Stream × List Delivery) :=
  .ok ((r.1.take d o c).1, r.2 ++ [(r.1.take d o c).2])

/-- A binary file has no blocked end. -/
theorem avail_eq_unread (ht : d.text = false) (h : f.Input d) : f.avail d = f.unread := by
  have hb : f.blocked d = [] := by
    unfold Stream.blocked Stream.source visible
    cases he : f.flag.eof with
    | true =>
        have := h.fillable.eof he ht
        simp [this]
    | false =>
        simp only [ht, Bool.false_eq_true, if_false]
        exact List.drop_length
  rw [unread_eq d, hb, List.append_nil]

/-- In every run of a binary stream the bytes delivered are those of the file,
with what is pushed back in its place. -/
theorem run_replays (d : Fd) (o : Os) (f : Stream) (cs : List ReadCall) (ht : d.text = false)
    (hf : f.OpenedIn) (hos : o.Reads d)
    (hv : Runs.Along (Stream.record d o) (fun _ c => c.Valid) (f, []) cs)
    (hu : Runs.Along (Stream.record d o) (fun r c => Unstuck r.1 c) (f, []) cs) :
    ∃ g es, Runs.exec (Stream.record d o) (f, []) cs = .ok (g, es) ∧
      replay (f.contents.drop f.pos) es = some g.unread := by
  have hstart : f.Input d := hf.start
  have hunread : f.contents.drop f.pos = f.unread := by
    unfold Stream.unread
    rw [hf.cnt]
    rfl
  have hstep : ∀ (r : Stream × List Delivery) (c : ReadCall),
      r.1.Input d ∧ replay f.unread r.2 = some r.1.unread → c.Valid → Unstuck r.1 c →
      ∃ r', Stream.record d o r c = .ok r' ∧ r'.1.Input d ∧
        replay f.unread r'.2 = some r'.1.unread := by
    intro r c hr hv hu
    have hg' := hr.1.take hos hv
    have hd := hr.1.delivers hos ht hv hu
    rw [avail_eq_unread ht hr.1, avail_eq_unread ht hg'] at hd
    refine ⟨_, rfl, hg', ?_⟩
    rw [replay_append, hr.2]
    exact hd
  obtain ⟨⟨g, es⟩, hexec, -, hrep⟩ := Runs.exec_invariant hstep ⟨hstart, rfl⟩ hv hu
  exact ⟨g, es, hexec, hunread ▸ hrep⟩

/-- A character pushed back after end of file is delivered by `fread`, with no more
asked for than is there. -/
theorem run_replays_pushed :
    ∃ g es, Runs.exec (Stream.record binaryFd sampleOs) (sampleInput [97, 13], [])
        [.getc, .getc, .getc, .ungetc 98, .fread 1 1, .getc] = .ok (g, es) ∧
      replay [97, 13] es = some g.unread :=
  run_replays binaryFd sampleOs (sampleInput [97, 13])
    [.getc, .getc, .getc, .ungetc 98, .fread 1 1, .getc] rfl (sampleInput_opened _)
    (sampleOs_reads _ rfl) (by decide +kernel) (by decide +kernel)

/-- `fread` of two bytes delivers the pushed-back character and `getc` delivers it again. -/
theorem pushed_delivered_twice :
    Runs.Along (Stream.record binaryFd sampleOs) (fun _ c => c.Valid) (sampleInput [97], [])
        [.getc, .getc, .ungetc 98, .fread 1 2, .getc] ∧
      ¬ ∃ g es, Runs.exec (Stream.record binaryFd sampleOs) (sampleInput [97], [])
          [.getc, .getc, .ungetc 98, .fread 1 2, .getc] = .ok (g, es) ∧
        replay [97] es = some g.unread := by
  refine ⟨by decide +kernel, ?_⟩
  rintro ⟨g, es, hexec, hrep⟩
  have hes : ((Runs.exec (Stream.record binaryFd sampleOs) (sampleInput [97], [])
      [.getc, .getc, .ungetc 98, .fread 1 2, .getc]).toOption.map fun r => r.2) =
      some [.got 97, .eof, .pushed 98, .read [98], .got 98] := by
    decide +kernel
  rw [hexec] at hes
  simp only [Except.toOption, Option.map_some, Option.some.injEq] at hes
  rw [hes] at hrep
  exact absurd hrep (by simp [replay])

end DjgppLibc.Stdio
