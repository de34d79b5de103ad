import DjgppLibc.Stdio
import DjgppLibc.Runs
import Mathlib.Data.List.TakeWhile

/-!
# Input streams

`avail` is what the stream can still deliver: the buffered bytes and, unless end
of file was met, what is left of the file, up to Ctrl-Z in a text file.
`blocked` is what lies behind. No reading call changes `blocked`, and each of
them takes bytes from the front of `avail`, so the two lists are all that a
comparison of reading calls has to follow. How much a single `_read` answers is
of no consequence.
-/
namespace DjgppLibc.Stdio
open ByteMemory

variable {d : Fd} {o : Os} {f f' : Stream}

/-- Reads make progress before the end of the file, and a text file can be
positioned back to its Ctrl-Z. -/
structure Os.Reads (d : Fd) (o : Os) : Prop where
  read : ∀ k, 0 < o.read k
  seek : d.text = true → d.seekable = true

/-- What holds of an input stream whatever `_cnt` and `_ptr` are. -/
structure Stream.Fillable (d : Fd) (f : Stream) : Prop where
  input : f.flag.read = true ∨ f.flag.rw = true
  nowrt : f.flag.wrt = false
  nostrg : f.flag.strg = false
  nbf : f.flag.nbf = true → f.base = 0
  buffer : f.base ≠ 0 → 0 < f.bufsiz ∧ 0 < f.fillsize
  eof : f.flag.eof = true → d.text = false → f.contents.length ≤ f.pos

structure Stream.Input (d : Fd) (f : Stream) : Prop where
  fillable : f.Fillable d
  cnt : 0 ≤ f.cnt
  empty : f.base = 0 → f.cnt = 0
  inside : f.base ≠ 0 → f.base ≤ f.ptr ∧ f.ptr + f.cnt ≤ f.base + f.bufsiz

def visible (d : Fd) (rest : List UInt8) : List UInt8 :=
  if d.text then rest.takeWhile (· ≠ ctrlZ) else rest

def Stream.source (d : Fd) (f : Stream) : List UInt8 :=
  if f.flag.eof then [] else visible d (f.contents.drop f.pos)

def Stream.avail (d : Fd) (f : Stream) : List UInt8 :=
  bytes f.mem f.ptr f.cnt.toNat ++ f.source d

def Stream.blocked (d : Fd) (f : Stream) : List UInt8 :=
  (f.contents.drop f.pos).drop (f.source d).length

theorem visible_eq_take (d : Fd) (rest : List UInt8) :
    visible d rest = rest.take (visible d rest).length := by
  unfold visible
  split_ifs
  · exact List.prefix_iff_eq_take.mp (List.takeWhile_prefix _)
  · exact (List.take_length).symm

theorem visible_drop (d : Fd) (rest : List UInt8) {k : ℕ} (hk : k ≤ (visible d rest).length) :
    visible d (rest.drop k) = (visible d rest).drop k := by
  unfold visible at hk ⊢
  split_ifs at hk ⊢
  · induction k generalizing rest with
    | zero => rfl
    | succ k ih =>
        cases rest with
        | nil => simp
        | cons x rest =>
            by_cases hx : x ≠ ctrlZ
            · rw [List.takeWhile_cons_of_pos (by simpa using hx)] at hk ⊢
              rw [List.drop_succ_cons, List.drop_succ_cons]
              exact ih rest (Nat.le_of_succ_le_succ hk)
            · rw [List.takeWhile_cons_of_neg (by simpa using hx)] at hk
              exact absurd hk (by simp)
  · rfl

theorem unread_eq (d : Fd) (f : Stream) : f.unread = f.avail d ++ f.blocked d := by
  unfold Stream.unread Stream.avail Stream.blocked
  rw [List.append_assoc]
  congr 1
  unfold Stream.source
  split_ifs
  · simp
  · conv_lhs => rw [← List.take_append_drop (visible d (f.contents.drop f.pos)).length
      (f.contents.drop f.pos)]
    rw [← visible_eq_take]

/-- The first `k` bytes of the rest of the file are in the buffer at `a`. -/
structure Filled (d : Fd) (a k : ℕ) (f f' : Stream) : Prop where
  cnt : f'.cnt = k
  pos : f'.pos = f.pos + k
  mem : bytes f'.mem a k = (f.contents.drop f.pos).take k
  some : k = 0 → visible d (f.contents.drop f.pos) = []
  le : k ≤ (visible d (f.contents.drop f.pos)).length
  contents : f'.contents = f.contents
  flag : f'.flag = f.flag
  base : f'.base = f.base
  bufsiz : f'.bufsiz = f.bufsiz
  fillsize : f'.fillsize = f.fillsize

theorem read_eq (hos : o.Reads d) (f : Stream) (a : ℕ) {size : ℕ} (hsize : 0 < size) :
    ∃ m, 0 < m ∧ m ≤ size ∧ read o f a size =
      ({ f with calls := f.calls + 1, mem := putAll f.mem a ((f.contents.drop f.pos).take m)
                pos := f.pos + ((f.contents.drop f.pos).take m).length },
        (((f.contents.drop f.pos).take m).length : ℤ)) := by
  have hpos := hos.read f.calls
  refine ⟨min (o.read f.calls).toNat size, by omega, by omega, ?_⟩
  unfold read
  dsimp only
  rw [if_neg (by omega), List.take_take]

/-- Bytes before the first Ctrl-Z are visible. -/
theorem le_visible {d : Fd} {rest chunk : List UInt8} (hp : chunk <+: rest)
    (hz : d.text = true → ctrlZ ∉ chunk) : chunk.length ≤ (visible d rest).length := by
  obtain ⟨more, rfl⟩ := hp
  unfold visible
  split_ifs with ht
  · have hall : ∀ x ∈ chunk, decide (x ≠ ctrlZ) = true := by
      intro x hx
      exact decide_eq_true fun h => hz ht (h ▸ hx)
    rw [List.takeWhile_append_of_pos hall]
    simp
  · simp

theorem visible_of_mem {d : Fd} {rest chunk : List UInt8} (hp : chunk <+: rest)
    (ht : d.text = true) (hz : ctrlZ ∈ chunk) :
    visible d rest = chunk.takeWhile (· ≠ ctrlZ) := by
  obtain ⟨more, rfl⟩ := hp
  have hne : (chunk.takeWhile fun x => decide (x ≠ ctrlZ)).length ≠ chunk.length := by
    intro h
    have hall : chunk.takeWhile (fun x => decide (x ≠ ctrlZ)) = chunk :=
      (List.takeWhile_prefix _).eq_of_length h
    have := List.takeWhile_eq_self_iff.mp hall ctrlZ hz
    simp at this
  unfold visible
  rw [if_pos ht, List.takeWhile_append, if_neg hne]

theorem fill_spec (hos : o.Reads d) (hS : f.flag.strg = false) {size : ℕ} (hsize : 0 < size) :
    ∃ k, k ≤ size ∧ Filled d f.base k f (fill d o size f) := by
  obtain ⟨m, hm, hms, hread⟩ := read_eq hos f f.base hsize
  obtain ⟨chunk, hchunk⟩ : ∃ chunk, chunk = (f.contents.drop f.pos).take m := ⟨_, rfl⟩
  rw [← hchunk] at hread
  have hpre : chunk <+: f.contents.drop f.pos := hchunk ▸ List.take_prefix _ _
  have hmem : bytes (putAll f.mem f.base chunk) f.base chunk.length = chunk := bytes_putAll _ _ _
  have hlen : chunk.length ≤ m := by
    rw [hchunk, List.length_take]
    omega
  have hnil : chunk = [] → f.contents.drop f.pos = [] := by
    intro h
    rw [hchunk, List.take_eq_nil_iff] at h
    exact h.resolve_left (by omega)
  unfold fill
  rw [hread]
  dsimp only
  rw [Int.toNat_natCast, hmem]
  have htext : ∀ g : Stream, g.flag = f.flag → isTextFile d g = d.text := by
    intro g hg
    simp [isTextFile, hg, hS]
  split_ifs with hz
  · -- the file goes back to the Ctrl-Z
    have ht : d.text = true := (htext _ rfl).symm.trans hz.1
    have hvis := visible_of_mem hpre ht hz.2.2
    obtain ⟨k, hk⟩ : ∃ k, k = (chunk.takeWhile (· ≠ ctrlZ)).length := ⟨_, rfl⟩
    have hkle : k ≤ chunk.length := hk ▸ (List.takeWhile_prefix _).length_le
    rw [← hk]
    have hseek : ∀ g : Stream, g.pos = f.pos + chunk.length →
        lseek d g (-((chunk.length : ℤ) - (k : ℕ))) .cur =
          ({ g with pos := f.pos + k }, ((f.pos + k : ℕ) : ℤ)) := by
      intro g hg
      unfold lseek
      dsimp only
      rw [if_pos ⟨hos.seek ht, by omega⟩, hg]
      have : ((f.pos + chunk.length : ℕ) : ℤ) + -((chunk.length : ℤ) - (k : ℕ)) =
          (f.pos + k : ℕ) := by
        omega
      rw [this, Int.toNat_natCast]
    rw [hseek _ rfl]
    have htake : (f.contents.drop f.pos).take k = chunk.take k := by
      rw [List.prefix_iff_eq_take.mp hpre, List.take_take, Nat.min_eq_left hkle]
    have hbytes : bytes (putAll f.mem f.base chunk) f.base k = chunk.take k := by
      rw [← bytes_take _ _ hkle, hmem]
    refine ⟨k, by omega, rfl, rfl, hbytes.trans htake.symm, ?_, ?_, rfl, rfl, rfl, rfl, rfl⟩
    · intro h0
      exact List.length_eq_zero_iff.mp (by rw [hvis, ← hk, h0])
    · exact le_of_eq (by rw [hvis, ← hk])
  · have hno : d.text = true → ctrlZ ∉ chunk := by
      intro ht hmem
      refine hz ⟨(htext _ rfl).trans ht, ?_, hmem⟩
      exact_mod_cast List.length_pos_of_mem hmem
    refine ⟨chunk.length, by omega, rfl, rfl, hmem.trans (List.prefix_iff_eq_take.mp hpre), ?_,
      le_visible hpre hno, rfl, rfl, rfl, rfl, rfl⟩
    intro h0
    unfold visible
    rw [hnil (List.length_eq_zero_iff.mp h0)]
    simp

/-- The stream gets a buffer, or becomes unbuffered. -/
def provide (o : Os) (f : Stream) : Stream := if f.base = 0 ∧ !f.flag.nbf then allocIn o f else f

def Stream.atCell (o : Os) (f : Stream) : Stream :=
  if f.flag.nbf then { f with base := o.cell } else f

def Stream.limited (f : Stream) : Stream :=
  if f.bufsiz < f.fillsize then { f with fillsize := f.bufsiz } else f

/-- The stream when `_filbuf` calls `_read`. -/
def prepare (o : Os) (f : Stream) : Stream := ((provide o f.clearUngetc).atCell o).limited

/-- The number of bytes `_filbuf` asks for. -/
def Stream.wanted (f : Stream) : ℕ :=
  if f.flag.nbf then 1 else if f.fillsize = 1024 ∧ 1536 ≤ f.bufsiz then 1536 else f.fillsize

/-- What `_filbuf` makes of the answer. -/
def deliver (f : Stream) : Stream × ℤ :=
  let f := if f.fillsize < f.bufsiz then { f with fillsize := f.fillsize * 2 } else f
  let f := { f with ptr := f.base, cnt := f.cnt - 1 }
  let f := if f.flag.nbf then { f with base := 0 } else f
  if f.cnt < 0 then
    let flag :=
      if f.cnt = -1 then { f.flag with eof := true, read := f.flag.read && !f.flag.rw }
      else { f.flag with err := true }
    ({ f with cnt := 0, flag := flag }, EOF)
  else ({ f with ptr := f.ptr + 1 }, uchar (f.mem f.ptr))

def Stream.reading (f : Stream) : Stream :=
  { f with flag := { f.flag with read := f.flag.read || f.flag.rw } }

theorem reading_eq (f : Stream) :
    (if f.flag.rw then { f with flag := { f.flag with read := true } } else f) = f.reading := by
  unfold Stream.reading
  split_ifs with hrw
  · simp [hrw]
  · rw [show (f.flag.read || f.flag.rw) = f.flag.read by simp [hrw]]

theorem Stream.Fillable.reading (h : f.Fillable d) :
    f.reading.Fillable d ∧ f.reading.flag.read = true := by
  have hread : (f.flag.read || f.flag.rw) = true := by simpa using h.input
  exact ⟨⟨.inl hread, h.nowrt, h.nostrg, h.nbf, h.buffer, h.eof⟩, hread⟩

theorem filbuf_eof (h : f.Fillable d) (he : f.flag.eof = true) :
    filbuf d o f = (f.reading, EOF) := by
  unfold filbuf
  simp only [reading_eq]
  rw [if_neg (by simp [h.reading.2]), if_pos (by simp [Stream.reading, he])]

theorem filbuf_open (hr : f.reading.flag.read = true)
    (hs : (f.reading.flag.strg || f.reading.flag.eof) = false) :
    filbuf d o f =
      deliver (fill d o (prepare o f.reading).wanted (prepare o f.reading)) := by
  unfold filbuf
  simp only [reading_eq]
  rw [if_neg (by simp [hr]), if_neg (by simp [hs])]
  rfl

theorem filbuf_eq (h : f.Fillable d) (he : f.flag.eof = false) :
    filbuf d o f =
      deliver (fill d o (prepare o f.reading).wanted (prepare o f.reading)) :=
  filbuf_open h.reading.2 (by simp [Stream.reading, he, h.nostrg])

/-- What is left alone on the way to `_read`. -/
structure SameFile (f p : Stream) : Prop where
  contents : p.contents = f.contents
  pos : p.pos = f.pos
  read : p.flag.read = f.flag.read
  wrt : p.flag.wrt = f.flag.wrt
  rw : p.flag.rw = f.flag.rw
  strg : p.flag.strg = f.flag.strg
  eof : p.flag.eof = f.flag.eof

theorem provide_spec (h : f.Fillable d) :
    SameFile f (provide o f.clearUngetc) ∧
      ((provide o f.clearUngetc).flag.nbf = false → (provide o f.clearUngetc).base ≠ 0 ∧
        0 < (provide o f.clearUngetc).bufsiz ∧ 0 < (provide o f.clearUngetc).fillsize) := by
  unfold provide allocIn
  dsimp only
  split_ifs with hb ha
  · exact ⟨⟨rfl, rfl, rfl, rfl, rfl, rfl, rfl⟩, fun hn => absurd hn (by simp)⟩
  · exact ⟨⟨rfl, rfl, rfl, rfl, rfl, rfl, rfl⟩, fun _ => ⟨ha, o.tbSize_pos, Nat.succ_pos 511⟩⟩
  · refine ⟨⟨rfl, rfl, rfl, rfl, rfl, rfl, rfl⟩, fun hn => ?_⟩
    have hbase : f.base ≠ 0 := by
      intro h0
      exact hb ⟨h0, by rw [hn]; rfl⟩
    exact ⟨hbase, h.buffer hbase⟩

theorem prepare_spec (h : f.Fillable d) :
    SameFile f (prepare o f) ∧ 0 < (prepare o f).wanted ∧
      ((prepare o f).flag.nbf = false → (prepare o f).base ≠ 0 ∧
        (prepare o f).wanted ≤ (prepare o f).bufsiz ∧ 0 < (prepare o f).fillsize) := by
  obtain ⟨hsame, hroom⟩ := provide_spec (o := o) h
  unfold prepare
  obtain ⟨g, hg⟩ : ∃ g, g = provide o f.clearUngetc := ⟨_, rfl⟩
  rw [← hg] at hsame hroom ⊢
  cases hn : g.flag.nbf with
  | true =>
      rw [show g.atCell o = { g with base := o.cell } from if_pos hn]
      unfold Stream.limited
      split_ifs
      all_goals
        refine ⟨⟨hsame.1, hsame.2, hsame.3, hsame.4, hsame.5, hsame.6, hsame.7⟩, ?_, fun h' => ?_⟩
        · simp [Stream.wanted, hn]
        · exact absurd (hn.symm.trans h') (by decide)
  | false =>
      obtain ⟨h₁, h₂, h₃⟩ := hroom hn
      rw [show g.atCell o = g from if_neg (by simp [hn])]
      unfold Stream.limited
      split_ifs with hlt
      · refine ⟨⟨hsame.1, hsame.2, hsame.3, hsame.4, hsame.5, hsame.6, hsame.7⟩, ?_,
          fun _ => ⟨h₁, ?_, h₂⟩⟩
        all_goals
          simp only [Stream.wanted, hn]
          split_ifs <;> omega
      · refine ⟨hsame, ?_, fun _ => ⟨h₁, ?_, h₃⟩⟩
        all_goals
          simp only [Stream.wanted, hn]
          split_ifs <;> omega

def Stream.ended (q : Stream) (fillsize : ℕ) : Stream :=
  { q with
    fillsize := fillsize, ptr := q.base, base := if q.flag.nbf then 0 else q.base, cnt := 0
    flag := { q.flag with eof := true, read := q.flag.read && !q.flag.rw } }

def Stream.begun (q : Stream) (fillsize : ℕ) : Stream :=
  { q with
    fillsize := fillsize, ptr := q.base + 1, base := if q.flag.nbf then 0 else q.base
    cnt := q.cnt - 1 }

theorem deliver_eq (q : Stream) :
    ∃ fillsize, (0 < q.fillsize → 0 < fillsize) ∧
      (q.cnt = 0 → deliver q = (q.ended fillsize, EOF)) ∧
      (0 < q.cnt → deliver q = (q.begun fillsize, uchar (q.mem q.base))) := by
  refine ⟨if q.fillsize < q.bufsiz then q.fillsize * 2 else q.fillsize, ?_, ?_, ?_⟩
  · intro h
    split_ifs <;> omega
  all_goals
    intro hc
    simp only [deliver, Stream.ended, Stream.begun]
    by_cases hlt : q.fillsize < q.bufsiz
    all_goals
      simp only [hlt, if_true, if_false]
      cases hn : q.flag.nbf
      all_goals
        simp only [hn, if_true, if_false, Bool.false_eq_true]
        first
        | rw [if_pos (by omega), if_pos (by omega)]
        | rw [if_neg (by omega)]

/-- `_filbuf` takes the next byte of the source, or meets the end of it. -/
structure Pulled (d : Fd) (f : Stream) (r : Stream × ℤ) : Prop where
  input : r.1.Input d
  blocked : r.1.blocked d = f.blocked d
  stop : f.source d = [] → r.2 = EOF ∧ r.1.avail d = [] ∧ r.1.flag.eof = true
  next : ∀ b bs, f.source d = b :: bs →
    r.2 = uchar b ∧ r.1.avail d = bs ∧ r.1.flag.eof = false
  same : r.1.contents = f.contents ∧ r.1.flag.strg = f.flag.strg ∧ r.1.flag.rw = f.flag.rw

theorem filbuf_spec (hos : o.Reads d) (h : f.Fillable d) (he : f.flag.eof = false) :
    Pulled d f (filbuf d o f) := by
  rw [filbuf_eq h he]
  obtain ⟨hg, hread⟩ := h.reading
  obtain ⟨hp, hwant, hroom⟩ := prepare_spec (o := o) hg
  obtain ⟨p, hpdef⟩ : ∃ p, p = prepare o f.reading := ⟨_, rfl⟩
  rw [← hpdef] at hp hwant hroom ⊢
  obtain ⟨k, hk, hfill⟩ := fill_spec hos (hp.strg.trans hg.nostrg) hwant
  obtain ⟨q, hqdef⟩ : ∃ q, q = fill d o p.wanted p := ⟨_, rfl⟩
  rw [← hqdef] at hfill ⊢
  obtain ⟨fillsize, hpos, hend, hbegin⟩ := deliver_eq q
  have hrest : p.contents.drop p.pos = f.contents.drop f.pos := by
    rw [hp.contents, hp.pos]
    rfl
  have hsrc : f.source d = visible d (f.contents.drop f.pos) := by
    unfold Stream.source
    rw [if_neg (by simp [he])]
  have hflag : q.flag = p.flag := hfill.flag
  have hqc : q.contents = f.contents := hfill.contents.trans hp.contents
  have hqp : q.pos = f.pos + k := by rw [hfill.pos, hp.pos]; rfl
  have hbuf : q.flag.nbf = false →
      q.base ≠ 0 ∧ k ≤ q.bufsiz ∧ 0 < q.bufsiz ∧ 0 < q.fillsize := by
    intro hn
    obtain ⟨h₁, h₂, h₃⟩ := hroom (hflag ▸ hn)
    rw [hfill.base, hfill.bufsiz, hfill.fillsize]
    exact ⟨h₁, by omega, by omega, h₃⟩
  have hdrop : q.contents.drop q.pos = (f.contents.drop f.pos).drop k := by
    rw [hqc, hqp, List.drop_drop]
  have hsome := hfill.some
  have hle := hfill.le
  have hmem := hfill.mem
  rw [hrest] at hsome hle hmem
  have hnbf : (if q.flag.nbf then 0 else q.base) ≠ 0 → q.flag.nbf = false := by
    intro hb
    by_contra hn
    exact hb (if_pos (by simpa using hn))
  have hwrt : q.flag.wrt = false := (congrArg Flags.wrt hflag).trans (hp.wrt.trans hg.nowrt)
  have hstrg : q.flag.strg = f.flag.strg := (congrArg Flags.strg hflag).trans hp.strg
  have hrw : q.flag.rw = f.flag.rw := (congrArg Flags.rw hflag).trans hp.rw
  have heof : q.flag.eof = false := (congrArg Flags.eof hflag).trans (hp.eof.trans he)
  have hqread : q.flag.read = true := (congrArg Flags.read hflag).trans (hp.read.trans hread)
  cases k with
  | zero =>
      -- the end of the source
      have hnil := hsome rfl
      rw [hend hfill.cnt]
      refine ⟨⟨⟨?_, hwrt, hstrg.trans h.nostrg, fun hn => if_pos hn, ?_, ?_⟩, le_rfl, fun _ => rfl,
        ?_⟩, ?_, ?_, ?_, hqc, hstrg, hrw⟩
      · cases hrw : q.flag.rw
        · exact .inl (by simp [Stream.ended, hrw, hqread])
        · exact .inr hrw
      · intro hb
        obtain ⟨-, -, h₂, h₃⟩ := hbuf (hnbf hb)
        exact ⟨h₂, hpos h₃⟩
      · intro _ ht
        unfold visible at hnil
        rw [if_neg (by simp [ht]), List.drop_eq_nil_iff] at hnil
        change q.contents.length ≤ q.pos
        rw [hqc, hqp]
        exact hnil
      · intro hb
        have hb' : (q.ended fillsize).base = q.base := if_neg (by simp [hnbf hb])
        rw [hb']
        exact ⟨le_rfl, by simp [Stream.ended]⟩
      · unfold Stream.blocked
        rw [hsrc, hnil]
        change (q.contents.drop q.pos).drop 0 = _
        rw [hdrop]
        rfl
      · intro _
        exact ⟨rfl, rfl, rfl⟩
      · intro b bs hb
        rw [hsrc, hnil] at hb
        exact absurd hb (by simp)
  | succ j =>
      rw [hbegin (by rw [hfill.cnt]; omega)]
      have hcnt : (q.begun fillsize).cnt = j := by
        change q.cnt - 1 = j
        rw [hfill.cnt]
        omega
      rw [← hfill.base, bytes] at hmem
      -- the source starts with what is in the buffer
      have hsplit : f.source d =
          q.mem q.base :: (bytes q.mem (q.base + 1) j ++ visible d (q.contents.drop q.pos)) := by
        rw [hsrc, hdrop, visible_drop d _ hle, ← List.cons_append, hmem]
        conv_lhs => rw [← List.take_append_drop (j + 1) (visible d (f.contents.drop f.pos))]
        congr 1
        conv_lhs => rw [visible_eq_take, List.take_take, Nat.min_eq_left hle]
      have hsource : (q.begun fillsize).source d = visible d (q.contents.drop q.pos) := by
        unfold Stream.source
        exact if_neg (by simp [Stream.begun, heof])
      refine ⟨⟨⟨.inl hqread, hwrt, hstrg.trans h.nostrg, fun hn => if_pos hn, ?_, ?_⟩, ?_, ?_, ?_⟩,
        ?_, ?_, ?_, hqc, hstrg, hrw⟩
      · intro hb
        obtain ⟨-, -, h₂, h₃⟩ := hbuf (hnbf hb)
        exact ⟨h₂, hpos h₃⟩
      · intro he'
        exact absurd (heof.symm.trans he') (by decide)
      · rw [hcnt]
        omega
      · intro hb
        rw [hcnt]
        cases hn : q.flag.nbf with
        | true =>
            -- an unbuffered stream asks for a single byte
            have hone : p.wanted = 1 := if_pos (by rw [← hflag]; exact hn)
            rw [hone] at hk
            omega
        | false =>
            have hb' : (q.begun fillsize).base = q.base := if_neg (by simp [hn])
            exact absurd (hb'.symm.trans hb) (hbuf hn).1
      · intro hb
        have hn := hnbf hb
        have hb' : (q.begun fillsize).base = q.base := if_neg (by simp [hn])
        obtain ⟨-, h₁, -, -⟩ := hbuf hn
        rw [hb', hcnt]
        change q.base ≤ q.base + 1 ∧ ((q.base + 1 : ℕ) : ℤ) + j ≤ q.base + q.bufsiz
        omega
      · unfold Stream.blocked
        rw [hsource, hsrc]
        change (q.contents.drop q.pos).drop _ = _
        rw [hdrop, visible_drop d _ hle, List.length_drop, List.drop_drop]
        congr 1
        omega
      · intro h0
        rw [hsplit] at h0
        exact absurd h0 (by simp)
      · intro b bs hb
        rw [hsplit] at hb
        obtain ⟨rfl, rfl⟩ := List.cons.inj hb
        refine ⟨rfl, ?_, heof⟩
        unfold Stream.avail
        rw [hsource, hcnt]
        rfl

end DjgppLibc.Stdio
