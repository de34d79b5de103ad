import Mathlib.Data.List.TakeWhile

/-!
# Line ends (`utils/dtou.c`)

`dtou` reads the file in pieces of `BUF_SIZE` bytes, drops bytes inside the
buffer and writes what is left. The bytes it keeps are moved down in the same
buffer; `k` never passes `i`, so they never overwrite bytes that are not yet
read, and the model collects them in a list of their own. The file offset of
the source is always `position`. Opening, backups, time stamps and messages are
left out, and every write is taken to write all its bytes.

Without `-s` a carriage return at the end of the buffer is read again with the
next piece, but only as long as fewer pieces than `st_size / BUF_SIZE` have been
read. Every such step back makes the later pieces start one byte earlier, so
that a long file takes more pieces than this: `dtou_writes_unix_iff` says
exactly which files come out wrong.
-/
namespace DjgppLibc.Dtou

def LF : UInt8 := 0x0A
def CR : UInt8 := 0x0D
def CntlZ : UInt8 := 0x1A

def bufSize : ℕ := 16384

structure Mode where
  strip : Bool
  repair : Bool
deriving DecidableEq

inductive Whence
  | set
  | cur
deriving DecidableEq

structure Vars where
  isCR : Bool
  isNCR : Bool
  isCRSequence : Bool
  mustRewind : Bool
  offset : ℤ
  cntlZFlag : Bool
  crFlag : Bool
  nCRFlag : Bool
  lfFlag : Bool
  lfCounter : ℕ
deriving DecidableEq

/-- What one byte does: the bytes it adds to the buffer, and whether it ends the loop. -/
structure Step where
  vars : Vars
  kept : List UInt8
  stop : Bool
deriving DecidableEq

def keep (m : Mode) (c : UInt8) (v : Vars) (kept : List UInt8) : Step :=
  if ¬ m.repair ∧ c = CntlZ then ⟨{ v with cntlZFlag := true }, kept, true⟩
  else ⟨v, kept ++ [c], false⟩

/-- A byte without `-s`. -/
def plainByte (m : Mode) (nbufs bufCounter l i : ℕ) (c : UInt8) (v : Vars) : Step :=
  let v :=
    if c = LF then
      { v with
        crFlag := v.crFlag || v.isCR, lfFlag := v.lfFlag || !v.isCR, lfCounter := v.lfCounter + 1 }
    else v
  let kept := if v.isCR ∧ c ≠ LF then [CR] else []
  if c = CR then
    if i + 1 = l then
      if bufCounter < nbufs then ⟨{ v with isCR := true, mustRewind := true }, kept, false⟩
      else ⟨{ v with isCR := true }, kept ++ [CR], false⟩
    else ⟨{ v with isCR := true }, kept, false⟩
  else keep m c { v with isCR := false } kept

/-- A byte with `-s`. -/
def stripByte (m : Mode) (size position i : ℕ) (c : UInt8) (v : Vars) : Step :=
  if c = LF then
    ⟨{ v with
      lfFlag := v.lfFlag || !(v.isCR || v.isNCR)
      nCRFlag := v.nCRFlag || v.isNCR, isNCR := false
      crFlag := v.crFlag || v.isCR, isCR := false
      lfCounter := v.lfCounter + 1, offset := 0, mustRewind := false }, [c], false⟩
  else if v.isCRSequence ∧ c = CR then ⟨v, [c], false⟩
  else
    let v := { v with isCRSequence := false }
    if v.isNCR then
      if c ≠ CR ∨ position + i + 1 = size then
        ⟨{ v with isCRSequence := true, mustRewind := true, isNCR := false }, [], true⟩
      else ⟨v, [], false⟩
    else if v.isCR ∧ c = CR then ⟨{ v with isNCR := true, isCR := false }, [], false⟩
    else if c = CR then
      if position + i + 1 = size then ⟨v, [c], true⟩
      else ⟨{ v with isCR := true, mustRewind := true, offset := position + i }, [], false⟩
    else keep m c v []

structure State where
  position : ℕ
  bufCounter : ℕ
  vars : Vars
  out : List UInt8
deriving DecidableEq

section Loop

variable (m : Mode) (size : ℕ)

def scanByte (s : State) (l i : ℕ) (c : UInt8) (v : Vars) : Step :=
  if m.strip then stripByte m size s.position i c v
  else plainByte m (size / bufSize) s.bufCounter l i c v

/-- The loop over the bytes of the buffer from `i` on. -/
def scan (s : State) (l : ℕ) : ℕ → List UInt8 → Vars → Vars × List UInt8
  | _, [], v => (v, [])
  | i, c :: cs, v =>
      let r := scanByte m size s l i c v
      if r.stop then (r.vars, r.kept)
      else
        let t := scan s l (i + 1) cs r.vars
        (t.1, r.kept ++ t.2)

def whence : Whence := if m.strip then .set else .cur

def lseek (position : ℕ) (offset : ℤ) : Whence → ℕ
  | .set => offset.toNat
  | .cur => (position + offset).toNat

def pass (s : State) (buf : List UInt8) : State :=
  let r := scan m size s buf.length 0 buf s.vars
  let v := { r.1 with isCR := false }
  let position := s.position + buf.length
  { position := if v.mustRewind then lseek position v.offset (whence m) else position
    bufCounter := s.bufCounter + 1
    vars := { v with mustRewind := false }
    out := s.out ++ r.2 }

end Loop

def loop (m : Mode) (file : List UInt8) : ℕ → State → Option State
  | 0, _ => none
  | n + 1, s =>
      let buf := (file.drop s.position).take bufSize
      if buf = [] then some s
      else
        let s' := pass m file.length s buf
        if s'.vars.cntlZFlag then some s' else loop m file n s'

def start (m : Mode) : State where
  position := 0
  bufCounter := 0
  vars :=
    { isCR := false, isNCR := false, isCRSequence := false, mustRewind := false
      offset := if m.strip then 0 else -1
      cntlZFlag := false, crFlag := false, nCRFlag := false, lfFlag := false, lfCounter := 0 }
  out := []

def dtou (m : Mode) (file : List UInt8) (n : ℕ) : Option (List UInt8) :=
  (loop m file n (start m)).map State.out

theorem two_le_bufSize : 2 ≤ bufSize := by decide

/-- Every carriage return in front of a line feed is dropped. -/
def unix : List UInt8 → List UInt8
  | [] => []
  | c :: s => if c = CR ∧ s.head? = some LF then unix s else c :: unix s

attribute [grind =] scan loop unix

/-- The text up to the first Ctrl-Z, or all of it with `-r`. -/
def cut (repair : Bool) (s : List UInt8) : List UInt8 :=
  if repair then s else s.takeWhile (· ≠ CntlZ)

def Whole (repair : Bool) (s : List UInt8) : Prop := repair = true ∨ CntlZ ∉ s

variable {repair : Bool} {s t : List UInt8} {c : UInt8}

theorem unix_cons_of_ne (h : c ≠ CR) : unix (c :: s) = c :: unix s := by
  rw [unix, if_neg (fun h' => h h'.1)]

theorem unix_cr_cons (h : s.head? ≠ some LF) : unix (CR :: s) = CR :: unix s := by
  rw [unix, if_neg (fun h' => h h'.2)]

theorem unix_cr_lf : unix (CR :: LF :: s) = LF :: unix s := by
  rw [unix, if_pos ⟨rfl, rfl⟩, unix_cons_of_ne (by decide)]

theorem unix_append (h : s.getLast? = some CR → t.head? ≠ some LF) :
    unix (s ++ t) = unix s ++ unix t := by
  induction s with
  | nil => rfl
  | cons c s ih =>
      rw [List.cons_append, unix, unix]
      cases s with
      | nil =>
          have hc : ¬ (c = CR ∧ t.head? = some LF) := by
            rintro ⟨rfl, ht⟩
            exact h rfl ht
          rw [List.nil_append, if_neg hc, if_neg (by simp)]
          rfl
      | cons d s =>
          have ih := ih (by simpa using h)
          rw [ih]
          split_ifs with h1 h2 h2
          · rfl
          · exact absurd h1 h2
          · exact absurd h2 h1
          · rfl

/-- Between a carriage return and a line feed a cut costs one byte. -/
theorem length_unix_append (hs : s.getLast? = some CR) (ht : t.head? = some LF) :
    (unix (s ++ t)).length + 1 = (unix s).length + (unix t).length := by
  obtain ⟨s, rfl⟩ := List.getLast?_eq_some_iff.mp hs
  obtain ⟨u, rfl⟩ := List.head?_eq_some_iff.mp ht
  have hcr : unix (s ++ [CR]) = unix s ++ [CR] := unix_append (by simp [CR, LF])
  have happ : unix (s ++ CR :: LF :: u) = unix s ++ unix (CR :: LF :: u) :=
    unix_append (by simp [CR, LF])
  rw [List.append_assoc, List.singleton_append, happ, unix_cr_lf, hcr,
    unix_cons_of_ne (c := LF) (by decide)]
  simp only [List.length_append, List.length_cons, List.length_nil]
  omega

theorem cut_append (h : Whole repair s) : cut repair (s ++ t) = s ++ cut repair t := by
  unfold cut
  rcases h with h | h
  · rw [if_pos h, if_pos h]
  · split_ifs
    · rfl
    · refine List.takeWhile_append_of_pos fun c hc => ?_
      have : c ≠ CntlZ := fun he => h (he ▸ hc)
      simpa using this

theorem cut_append_of_not (h : ¬ Whole repair s) : cut repair (s ++ t) = cut repair s := by
  obtain ⟨hr, hz⟩ := not_or.mp h
  unfold cut
  rw [if_neg hr, if_neg hr, List.takeWhile_append, if_neg]
  intro hlen
  have hs := List.takeWhile_eq_self_iff.mp ((List.takeWhile_prefix _).eq_of_length hlen)
  simpa using hs CntlZ (not_not.mp hz)

theorem head_cut (h : c ≠ CntlZ) : (cut repair t).head? = some c ↔ t.head? = some c := by
  cases t with
  | nil => cases repair <;> simp [cut]
  | cons d t =>
      cases repair with
      | true => simp [cut]
      | false =>
          by_cases hd : d = CntlZ
          · subst hd
            simpa [cut] using h.symm
          · simp [cut, hd]

section Plain

variable {m : Mode} {size : ℕ} {st : State} {l i : ℕ} {cs : List UInt8} {v : Vars}

/-- The carriage return that waits for the next byte. -/
def pending (v : Vars) : List UInt8 := if v.isCR then [CR] else []

theorem unix_pending (h : c ≠ LF) : unix (pending v ++ c :: cs) = pending v ++ unix (c :: cs) := by
  unfold pending
  split_ifs
  · exact unix_cr_cons (by simpa using h)
  · rfl

theorem unix_pending_lf : unix (pending v ++ LF :: cs) = LF :: unix cs := by
  unfold pending
  split_ifs
  · exact unix_cr_lf
  · exact unix_cons_of_ne (by decide)

def Quiet (v v' : Vars) : Prop :=
  v'.cntlZFlag = v.cntlZFlag ∧ v'.mustRewind = v.mustRewind ∧ v'.offset = v.offset

/-- A byte that is not a carriage return at the end of the buffer. -/
theorem plainByte_text (nbufs bufCounter : ℕ) (hz : Whole m.repair [c]) (h : i + 1 ≠ l ∨ c ≠ CR) :
    ∃ v' kept, plainByte m nbufs bufCounter l i c v = ⟨v', kept, false⟩ ∧ Quiet v v' ∧
      (v'.isCR = true → c = CR) ∧
      ∀ s, kept ++ unix (pending v' ++ s) = unix (pending v ++ c :: s) := by
  by_cases hcr : c = CR
  · subst hcr
    have hlast : i + 1 ≠ l := h.resolve_right fun h => h rfl
    refine ⟨{ v with isCR := true }, pending v, ?_, ⟨rfl, rfl, rfl⟩, fun _ => rfl, fun s => ?_⟩
    · simp [plainByte, pending, hlast, CR, LF]
    · rw [unix_pending (by decide)]
      rfl
  · have hz' : ¬ (¬ m.repair = true ∧ c = CntlZ) := by
      rintro ⟨hr, rfl⟩
      exact hz.elim hr (by simp)
    rw [plainByte, keep, if_neg hcr, if_neg hz']
    by_cases hlf : c = LF
    · subst hlf
      refine ⟨_, [LF], by simp; rfl, ?_, by simp, fun s => ?_⟩
      · exact ⟨rfl, rfl, rfl⟩
      · exact unix_pending_lf.symm
    · refine ⟨_, pending v ++ [c], by simp [hlf, pending]; rfl, ?_, by simp, fun s => ?_⟩
      · exact ⟨rfl, rfl, rfl⟩
      · rw [unix_pending hlf, unix_cons_of_ne hcr, List.append_assoc]
        rfl

theorem plainByte_last (nbufs bufCounter : ℕ) :
    ∃ v', plainByte m nbufs bufCounter (i + 1) i CR v =
        ⟨v', pending v ++ (if bufCounter < nbufs then [] else [CR]), false⟩ ∧
      v'.cntlZFlag = v.cntlZFlag ∧ v'.offset = v.offset ∧
      v'.mustRewind = (v.mustRewind || decide (bufCounter < nbufs)) := by
  have hne : CR ≠ LF := by decide
  unfold plainByte pending
  rw [if_neg hne, if_pos rfl, if_pos rfl]
  by_cases h : bufCounter < nbufs
  · exact ⟨{ v with isCR := true, mustRewind := true }, by simp [hne, h], rfl, rfl, by simp [h]⟩
  · exact ⟨{ v with isCR := true }, by simp [hne, h], rfl, rfl, by simp [h]⟩

theorem plainByte_ended {nbufs bufCounter : ℕ} (hr : m.repair = false) :
    plainByte m nbufs bufCounter l i CntlZ v =
      ⟨{ v with isCR := false, cntlZFlag := true }, pending v, true⟩ := by
  simp [plainByte, keep, pending, hr, CntlZ, CR, LF]

theorem scan_cons (hm : m.strip = false) :
    scan m size st l i (c :: cs) v =
      let r := plainByte m (size / bufSize) st.bufCounter l i c v
      if r.stop then (r.vars, r.kept)
      else ((scan m size st l (i + 1) cs r.vars).1,
        r.kept ++ (scan m size st l (i + 1) cs r.vars).2) := by
  rw [scan, scanByte, hm]
  rfl

/-- The buffer is put back by one byte. -/
def Rewinds (size bufCounter : ℕ) (buf : List UInt8) : Prop :=
  bufCounter < size / bufSize ∧ buf.getLast? = some CR

instance (size bufCounter : ℕ) (buf : List UInt8) : Decidable (Rewinds size bufCounter buf) :=
  inferInstanceAs (Decidable (_ ∧ _))

theorem rewinds_cons {bufCounter : ℕ} (h : cs ≠ [] ∨ c ≠ CR) :
    Rewinds size bufCounter (c :: cs) ↔ Rewinds size bufCounter cs := by
  unfold Rewinds
  cases cs with
  | nil =>
      have hc : c ≠ CR := h.resolve_left (fun h => h rfl)
      simp [hc]
  | cons d cs => simp

theorem scan_whole (size : ℕ) (st : State) (hm : m.strip = false) (hl : l = i + cs.length)
    (hcs : Whole m.repair cs)
    (hne : v.isCR = true → cs ≠ []) (hv : v.mustRewind = false) :
    ∃ v' kept, scan m size st l i cs v = (v', kept) ∧
      v'.cntlZFlag = v.cntlZFlag ∧ v'.offset = v.offset ∧
      v'.mustRewind = decide (Rewinds size st.bufCounter cs) ∧
      kept ++ (if Rewinds size st.bufCounter cs then [CR] else []) = unix (pending v ++ cs) := by
  induction cs generalizing i v with
  | nil =>
      have hcr : v.isCR = false := by
        cases h : v.isCR with
        | false => rfl
        | true => exact absurd rfl (hne h)
      refine ⟨v, [], rfl, rfl, rfl, ?_, ?_⟩
      · simp [Rewinds, hv]
      · simp [Rewinds, pending, hcr, unix]
  | cons c cs ih =>
      have hc : Whole m.repair [c] := hcs.imp id fun h => by simp_all
      have hcs' : Whole m.repair cs := hcs.imp id fun h => by simp_all
      rw [List.length_cons] at hl
      rw [scan_cons hm]
      dsimp only
      by_cases hlast : c = CR ∧ cs = []
      · obtain ⟨rfl, rfl⟩ := hlast
        rw [List.length_nil, Nat.zero_add] at hl
        subst hl
        obtain ⟨v', hp, hz, ho, hr⟩ := plainByte_last (m := m) (i := i) (v := v)
          (size / bufSize) st.bufCounter
        rw [hv, Bool.false_or] at hr
        rw [hp]
        refine ⟨v', _, rfl, hz, ho, ?_, ?_⟩
        · simp [hr, Rewinds]
        · rw [unix_pending (by decide)]
          by_cases hb : st.bufCounter < size / bufSize <;> simp [Rewinds, hb, scan, unix]
      · have hinner : cs ≠ [] ∨ c ≠ CR := (not_and_or.mp hlast).symm
        obtain ⟨v1, kept1, hp, ⟨hz1, hr1, ho1⟩, hcr1, hk1⟩ := plainByte_text (m := m) (l := l)
          (i := i) (v := v) (size / bufSize) st.bufCounter hc
          (hinner.imp_left fun h => by have := List.length_pos_iff.mpr h; omega)
        obtain ⟨v', kept, hs, hz, ho, hr, hk⟩ := ih (i := i + 1) (v := v1) (by omega) hcs'
          (fun h => hinner.resolve_right fun h' => h' (hcr1 h)) (hr1.trans hv)
        rw [hp]
        refine ⟨v', kept1 ++ kept, by simp [hs], hz.trans hz1, ho.trans ho1, ?_, ?_⟩
        · simp only [hr, rewinds_cons hinner]
        · simp only [rewinds_cons hinner]
          rw [List.append_assoc, hk, hk1]

theorem scan_ended (size : ℕ) (st : State) (hm : m.strip = false) (hl : l = i + cs.length)
    (hcs : ¬ Whole m.repair cs)
    (hv : v.mustRewind = false) :
    ∃ v' kept, scan m size st l i cs v = (v', kept) ∧ v'.cntlZFlag = true ∧
      v'.mustRewind = false ∧ kept = unix (cut m.repair (pending v ++ cs)) := by
  have hpend : ∀ v : Vars, Whole m.repair (pending v) := by
    intro v
    unfold pending
    split_ifs <;> simp [Whole, CR, CntlZ]
  induction cs generalizing i v with
  | nil => exact absurd (.inr (by simp)) hcs
  | cons c cs ih =>
      rw [List.length_cons] at hl
      rw [scan_cons hm]
      dsimp only
      by_cases hc : Whole m.repair [c]
      · have hcs' : ¬ Whole m.repair cs := by
          rintro (h | h)
          · exact hcs (.inl h)
          · refine hc.elim (fun h => hcs (.inl h)) fun hc => hcs (.inr ?_)
            simp_all
        have hlen : i + 1 ≠ l := by
          have : cs ≠ [] := fun h => hcs' (.inr (by simp [h]))
          have := List.length_pos_iff.mpr this
          omega
        have hcut : cut m.repair (pending v ++ c :: cs) = pending v ++ c :: cut m.repair cs := by
          rw [cut_append (hpend v)]
          exact congrArg _ (cut_append (s := [c]) hc)
        rw [hcut]
        obtain ⟨v1, kept1, hp, ⟨-, hr1, -⟩, -, hk1⟩ := plainByte_text (m := m) (l := l)
          (i := i) (v := v) (size / bufSize) st.bufCounter hc (.inl hlen)
        obtain ⟨v', kept, hs, hz, hr, hk⟩ :=
          ih (i := i + 1) (v := v1) (by omega) hcs' (hr1.trans hv)
        rw [hp]
        refine ⟨v', kept1 ++ kept, by simp [hs], hz, hr, ?_⟩
        rw [hk, cut_append (hpend _), hk1]
      · obtain ⟨hr, hz⟩ := not_or.mp hc
        have hz : c = CntlZ := by simpa [eq_comm] using hz
        subst hz
        rw [plainByte_ended (by simpa using hr)]
        refine ⟨_, _, rfl, rfl, hv, ?_⟩
        rw [cut_append (hpend v)]
        unfold pending cut
        split_ifs <;> simp [unix]

structure Ready (st : State) : Prop where
  isCR : st.vars.isCR = false
  mustRewind : st.vars.mustRewind = false
  cntlZFlag : st.vars.cntlZFlag = false
  offset : st.vars.offset = -1

theorem Ready.pending (h : Ready st) : pending st.vars = [] := by
  simp [Dtou.pending, h.isCR]

variable {buf : List UInt8}

theorem pass_ended (size : ℕ) (hm : m.strip = false) (h : Ready st) (hbuf : ¬ Whole m.repair buf) :
    (pass m size st buf).vars.cntlZFlag = true ∧
      (pass m size st buf).out = st.out ++ unix (cut m.repair buf) := by
  obtain ⟨v', kept, hs, hz, -, hk⟩ :=
    scan_ended size st hm (Nat.zero_add _).symm hbuf h.mustRewind
  unfold pass
  rw [hs]
  refine ⟨hz, ?_⟩
  rw [hk, h.pending]
  rfl

theorem pass_kept (size : ℕ) (hm : m.strip = false) (h : Ready st) (hbuf : Whole m.repair buf)
    (hr : ¬ Rewinds size st.bufCounter buf) :
    let st' := pass m size st buf
    Ready st' ∧ st'.bufCounter = st.bufCounter + 1 ∧
      st'.position = st.position + buf.length ∧ st'.out = st.out ++ unix buf := by
  obtain ⟨v', kept, hs, hz, ho, hrew, hk⟩ := scan_whole size st hm
    (Nat.zero_add _).symm hbuf (by simp [h.isCR]) h.mustRewind
  rw [if_neg hr, List.append_nil, h.pending, List.nil_append] at hk
  rw [decide_eq_false hr] at hrew
  dsimp only
  unfold pass
  rw [hs]
  refine ⟨⟨rfl, rfl, hz.trans h.cntlZFlag, ho.trans h.offset⟩, rfl, ?_, ?_⟩
  · simp [hrew]
  · simp [hk]

theorem pass_rewinds (size : ℕ) (hm : m.strip = false) (h : Ready st) (hbuf : Whole m.repair buf)
    (hr : Rewinds size st.bufCounter buf) :
    let st' := pass m size st buf
    Ready st' ∧ st'.bufCounter = st.bufCounter + 1 ∧
      st'.position = st.position + (buf.length - 1) ∧ st'.out = st.out ++ unix buf.dropLast := by
  obtain ⟨v', kept, hs, hz, ho, hrew, hk⟩ := scan_whole size st hm
    (Nat.zero_add _).symm hbuf (by simp [h.isCR]) h.mustRewind
  rw [if_pos hr, h.pending, List.nil_append] at hk
  rw [decide_eq_true hr] at hrew
  obtain ⟨b, rfl⟩ := List.getLast?_eq_some_iff.mp hr.2
  have hb : unix (b ++ [CR]) = unix b ++ [CR] := unix_append (by simp [CR, LF])
  rw [hb] at hk
  have hk := List.append_cancel_right hk
  dsimp only
  unfold pass
  rw [hs]
  refine ⟨⟨rfl, rfl, hz.trans h.cntlZFlag, ho.trans h.offset⟩, rfl, ?_, ?_⟩
  · simp only [hrew, ho, h.offset, whence, hm, lseek, List.length_append, List.length_singleton]
    simp
    omega
  · simp [hk]

/-- A line end of the file lies across the offset, and the output gets there. -/
def Straddles (repair : Bool) (file : List UInt8) (b : ℕ) : Prop :=
  file[b - 1]? = some CR ∧ file[b]? = some LF ∧ Whole repair (file.take b)

theorem whole_append : Whole repair (s ++ t) ↔ Whole repair s ∧ Whole repair t := by
  unfold Whole
  rw [List.mem_append, not_or, or_and_left]

theorem Whole.take (h : Whole repair s) (n : ℕ) : Whole repair (s.take n) :=
  h.imp id fun h hm => h (List.mem_of_mem_take hm)

theorem straddles_append {b : ℕ} (hs : Whole repair s) (hb : 1 ≤ b) :
    Straddles repair (s ++ t) (s.length + b) ↔ Straddles repair t b := by
  unfold Straddles
  rw [List.getElem?_append_right (by omega), List.getElem?_append_right (by omega),
    show s.length + b - 1 - s.length = b - 1 by omega, Nat.add_sub_cancel_left, List.take_append,
    List.take_of_length_le (by omega), Nat.add_sub_cancel_left, whole_append, and_iff_right hs]

theorem straddles_length (hs : Whole repair s) (hne : s ≠ []) :
    Straddles repair (s ++ t) s.length ↔ s.getLast? = some CR ∧ t.head? = some LF := by
  have hpos := List.length_pos_iff.mpr hne
  unfold Straddles
  rw [List.getElem?_append_left (by omega), List.getElem?_append_right (Nat.le_refl _),
    Nat.sub_self, List.take_left, and_iff_left hs, List.getLast?_eq_getElem?, List.head?_eq_getElem?]

/-- The line ends across the ends of buffers, for the first buffer and the others. -/
theorem straddles_buffers (hs : Whole repair s) (hne : s ≠ []) (hlen : s.length ≤ bufSize)
    (hfull : t = [] ∨ s.length = bufSize) :
    (∀ k, ¬ Straddles repair (s ++ t) ((k + 1) * bufSize)) ↔
      ¬ (s.getLast? = some CR ∧ t.head? = some LF) ∧
        ∀ k, ¬ Straddles repair t ((k + 1) * bufSize) := by
  have hB := two_le_bufSize
  rcases hfull with rfl | hfull
  · have hnone : ∀ u : List UInt8, u.length ≤ bufSize → ∀ k,
        ¬ Straddles repair u ((k + 1) * bufSize) := by
      rintro u hu k ⟨-, h, -⟩
      rw [Nat.succ_mul, List.getElem?_eq_none (by omega)] at h
      cases h
    rw [List.append_nil]
    refine iff_of_true (hnone s hlen) ⟨by simp, hnone [] (by simp)⟩
  · rw [← straddles_length hs hne, hfull]
    constructor
    · intro h
      refine ⟨by simpa using h 0, fun k => ?_⟩
      have := h (k + 1)
      rwa [Nat.succ_mul, Nat.add_comm, ← hfull,
        straddles_append hs (by rw [hfull, Nat.succ_mul]; omega), hfull] at this
    · rintro ⟨h0, h⟩ k
      cases k with
      | zero => simpa using h0
      | succ k =>
          rw [Nat.succ_mul, Nat.add_comm, ← hfull,
            straddles_append hs (by rw [hfull, Nat.succ_mul]; omega), hfull]
          exact h k

/-- The loop ends, and these bytes are written on the way. -/
def Delivers (m : Mode) (file : List UInt8) (st : State) (text : List UInt8) : Prop :=
  ∃ n st', loop m file n st = some st' ∧ st'.out = st.out ++ text

variable {file text : List UInt8}

theorem loop_add {n : ℕ} {st' : State} (h : loop m file n st = some st') (k : ℕ) :
    loop m file (n + k) st = some st' := by
  induction n generalizing st with
  | zero => cases h
  | succ n ih =>
      rw [Nat.succ_add]
      rw [loop] at h ⊢
      dsimp only at h ⊢
      split_ifs at h ⊢
      · exact h
      · exact h
      · exact ih h

theorem Delivers.unique {text' : List UInt8} (h : Delivers m file st text)
    (h' : Delivers m file st text') : text = text' := by
  obtain ⟨n, s₁, h₁, ho₁⟩ := h
  obtain ⟨k, s₂, h₂, ho₂⟩ := h'
  have h₁ := loop_add h₁ k
  have h₂ := loop_add h₂ n
  rw [Nat.add_comm, h₁] at h₂
  cases h₂
  exact List.append_cancel_left (ho₁.symm.trans ho₂)

theorem delivers_nil (h : (file.drop st.position).take bufSize = []) :
    Delivers m file st [] := by
  refine ⟨1, st, ?_, (List.append_nil _).symm⟩
  rw [loop]
  exact if_pos h

theorem delivers_ended (hm : m.strip = false) (h : Ready st)
    (hbuf : buf = (file.drop st.position).take bufSize) (hz : ¬ Whole m.repair buf) :
    Delivers m file st (unix (cut m.repair buf)) := by
  obtain ⟨hflag, hout⟩ := pass_ended file.length hm h hz
  have hne : buf ≠ [] := by
    rintro rfl
    exact hz (.inr (by simp))
  refine ⟨1, pass m file.length st buf, ?_, hout⟩
  rw [loop]
  dsimp only
  rw [← hbuf, if_neg hne, if_pos hflag]

theorem delivers_pass (hbuf : buf = (file.drop st.position).take bufSize) (hne : buf ≠ [])
    (hz : (pass m file.length st buf).vars.cntlZFlag = false) {u : List UInt8}
    (hu : (pass m file.length st buf).out = st.out ++ u)
    (h : Delivers m file (pass m file.length st buf) text) : Delivers m file st (u ++ text) := by
  obtain ⟨n, st', hn, ho⟩ := h
  refine ⟨n + 1, st', ?_, ?_⟩
  · rw [loop]
    dsimp only
    rw [← hbuf, if_neg hne, if_neg (by simp [hz]), hn]
  · rw [ho, hu, List.append_assoc]

/-- The text is no shorter than the transform of `rest`, and the same exactly if `P`. -/
def Exact (repair : Bool) (rest text : List UInt8) (P : Prop) : Prop :=
  (unix (cut repair rest)).length ≤ text.length ∧ (text = unix (cut repair rest) ↔ P)

/-- A cut that does not fall into a line end. -/
theorem Exact.append {P : Prop} (hs : Whole repair s)
    (hcut : ¬ (s.getLast? = some CR ∧ t.head? = some LF)) (h : Exact repair t text P) :
    Exact repair (s ++ t) (unix s ++ text) P := by
  have hspec : unix (cut repair (s ++ t)) = unix s ++ unix (cut repair t) := by
    rw [cut_append hs]
    refine unix_append fun hl => ?_
    rw [Ne, head_cut (by decide)]
    exact fun ht => hcut ⟨hl, ht⟩
  unfold Exact
  rw [hspec, List.length_append, List.length_append, List.append_right_inj]
  exact ⟨Nat.add_le_add_left h.1 _, h.2⟩

theorem Exact.append_straddled {P : Prop} (hs : Whole repair s)
    (hl : s.getLast? = some CR) (ht : t.head? = some LF) (h : Exact repair t text P) :
    Exact repair (s ++ t) (unix s ++ text) False := by
  have hspec : (unix (cut repair (s ++ t))).length + 1 =
      (unix s).length + (unix (cut repair t)).length := by
    rw [cut_append hs]
    exact length_unix_append hl ((head_cut (by decide)).mpr ht)
  have hle := h.1
  refine ⟨?_, iff_false_intro fun he => ?_⟩
  · rw [List.length_append]
    omega
  · have := congrArg List.length he
    rw [List.length_append] at this
    omega

theorem delivers_last (hm : m.strip = false) (h : Ready st)
    (hq : file.length / bufSize ≤ st.bufCounter) :
    ∃ text, Delivers m file st text ∧ Exact m.repair (file.drop st.position) text
      (∀ k, ¬ Straddles m.repair (file.drop st.position) ((k + 1) * bufSize)) := by
  have hB := two_le_bufSize
  generalize hn : (file.drop st.position).length = n
  induction n using Nat.strong_induction_on generalizing st with
  | _ n ih =>
      obtain ⟨buf, hbuf⟩ : ∃ buf, buf = (file.drop st.position).take bufSize := ⟨_, rfl⟩
      obtain ⟨rest, hrest⟩ : ∃ rest, rest = file.drop (st.position + bufSize) := ⟨_, rfl⟩
      have hsplit : file.drop st.position = buf ++ rest := by
        rw [hbuf, hrest, ← List.drop_drop, List.take_append_drop]
      have hfull : rest = [] ∨ buf.length = bufSize := by
        rw [hbuf, hrest, List.length_take, List.drop_eq_nil_iff, List.length_drop]
        omega
      have hlen : buf.length ≤ bufSize := hbuf ▸ List.length_take_le _ _
      rw [hsplit, List.length_append] at hn
      rw [hsplit]
      by_cases hne : buf = []
      · have hrest : rest = [] := by
          refine hfull.resolve_right fun h => ?_
          rw [hne, List.length_nil] at h
          omega
        refine ⟨[], delivers_nil (hbuf.symm.trans hne), ?_⟩
        rw [hne, hrest]
        unfold Exact cut
        simp [unix, Straddles]
      by_cases hz : Whole m.repair buf
      · obtain ⟨hready, hcount, hpos, hout⟩ :=
          pass_kept file.length hm h hz fun hr => Nat.not_lt.mpr hq hr.1
        have hdrop : file.drop (pass m file.length st buf).position = rest := by
          rw [hpos, ← List.drop_drop, hsplit, List.drop_left]
        obtain ⟨text, htext, hexact⟩ := ih rest.length (by
          have := List.length_pos_iff.mpr hne
          omega) hready (by omega) (congrArg _ hdrop)
        rw [hdrop] at hexact
        refine ⟨_, delivers_pass hbuf hne hready.cntlZFlag hout htext, ?_⟩
        rw [straddles_buffers hz hne hlen hfull]
        by_cases hcut : buf.getLast? = some CR ∧ rest.head? = some LF
        · simpa [hcut] using hexact.append_straddled hz hcut.1 hcut.2
        · simpa only [hcut, not_false_eq_true, true_and] using hexact.append hz hcut
      · refine ⟨_, delivers_ended hm h hbuf hz, ?_⟩
        unfold Exact
        rw [cut_append_of_not hz]
        refine ⟨Nat.le_refl _, iff_of_true rfl fun k hk => hz ?_⟩
        have := hk.2.2.take bufSize
        rw [List.take_take, Nat.min_eq_left, ← hsplit, ← hbuf] at this
        · exact this
        · rw [Nat.succ_mul]
          omega

/-- How many of the first `c` buffers end in a carriage return and are put back by it. -/
def pushed (file : List UInt8) : ℕ → ℕ
  | 0 => 0
  | c + 1 =>
      pushed file c + if file[(c + 1) * bufSize - pushed file c - 1]? = some CR then 1 else 0

theorem pushed_le_add (file : List UInt8) (c d : ℕ) : pushed file (c + d) ≤ pushed file c + d := by
  induction d with
  | zero => exact Nat.le_refl _
  | succ d ih =>
      rw [← Nat.add_assoc, pushed]
      split_ifs <;> omega

/-- A buffer that may be put back: the pieces are cut outside the line ends. -/
theorem pass_first (hm : m.strip = false) (h : Ready st)
    (hq : st.bufCounter < file.length / bufSize)
    (hbuf : buf = (file.drop st.position).take bufSize) (hlen : buf.length = bufSize)
    (hz : Whole m.repair buf) :
    let st' := pass m file.length st buf
    Ready st' ∧ st'.bufCounter = st.bufCounter + 1 ∧ ∃ s,
      file.drop st.position = s ++ file.drop st'.position ∧
      st'.position + (if file[st.position + bufSize - 1]? = some CR then 1 else 0) =
        st.position + bufSize ∧
      Whole m.repair s ∧ st'.out = st.out ++ unix s ∧
      ¬ (s.getLast? = some CR ∧ (file.drop st'.position).head? = some LF) := by
  have hB := two_le_bufSize
  have hlast : buf.getLast? = file[st.position + bufSize - 1]? := by
    rw [List.getLast?_eq_getElem?, hlen, hbuf, List.getElem?_take_of_lt (by omega),
      List.getElem?_drop, Nat.add_sub_assoc (by omega)]
  have hsplit : file.drop st.position = buf ++ file.drop (st.position + bufSize) := by
    rw [hbuf, ← List.drop_drop, List.take_append_drop]
  dsimp only
  by_cases hcr : buf.getLast? = some CR
  · obtain ⟨hready, hcount, hpos, hout⟩ := pass_rewinds file.length hm h hz ⟨hq, hcr⟩
    obtain ⟨b, hb⟩ := List.getLast?_eq_some_iff.mp hcr
    have hdrop : file.drop (pass m file.length st buf).position =
        CR :: file.drop (st.position + bufSize) := by
      rw [hpos, ← List.drop_drop, hsplit, hb]
      simp
    refine ⟨hready, hcount, b, ?_, ?_, ?_, ?_, ?_⟩
    · rw [hdrop, hsplit, hb, List.append_assoc]
      rfl
    · rw [← hlast, if_pos hcr, hpos, hlen]
      omega
    · rw [hb] at hz
      exact (whole_append.mp hz).1
    · rw [hout, hb, List.dropLast_concat]
    · rw [hdrop]
      rintro ⟨-, h⟩
      exact absurd h (by simp [CR, LF])
  · obtain ⟨hready, hcount, hpos, hout⟩ :=
      pass_kept file.length hm h hz fun hr => hcr hr.2
    rw [hlen] at hpos
    refine ⟨hready, hcount, buf, ?_, ?_, hz, hout, fun h => hcr h.1⟩
    · rw [hpos, hsplit]
    · rw [← hlast, if_neg hcr, hpos, Nat.add_zero]

theorem delivers_first (file : List UInt8) (hm : m.strip = false) (h : Ready st) {c d : ℕ}
    (hd : c + d = file.length / bufSize) (hc : st.bufCounter = c)
    (hpos : st.position + pushed file c = c * bufSize)
    (hwhole : Whole m.repair (file.take st.position)) :
    ∃ text, Delivers m file st text ∧ Exact m.repair (file.drop st.position) text
      (∀ k, ¬ Straddles m.repair file
        ((file.length / bufSize + k + 1) * bufSize - pushed file (file.length / bufSize))) := by
  have hB := two_le_bufSize
  have hsize : file.length / bufSize * bufSize ≤ file.length := Nat.div_mul_le_self _ _
  induction d generalizing c st with
  | zero =>
      rw [Nat.add_zero] at hd
      subst hd
      obtain ⟨text, htext, hle, hiff⟩ := delivers_last hm h hc.ge
      refine ⟨text, htext, hle, hiff.trans (forall_congr' fun k => not_congr ?_)⟩
      have hb : (file.length / bufSize + k + 1) * bufSize - pushed file (file.length / bufSize) =
          (file.take st.position).length + (k + 1) * bufSize := by
        rw [Nat.add_assoc, Nat.add_mul, List.length_take]
        omega
      have hshift := straddles_append (t := file.drop st.position) (b := (k + 1) * bufSize) hwhole
        (by rw [Nat.succ_mul]; omega)
      rw [List.take_append_drop] at hshift
      rw [hb, hshift]
  | succ d ih =>
      have hroom : (c + 1) * bufSize ≤ file.length / bufSize * bufSize :=
        Nat.mul_le_mul_right _ (by omega)
      rw [Nat.succ_mul] at hroom
      obtain ⟨buf, hbuf⟩ : ∃ buf, buf = (file.drop st.position).take bufSize := ⟨_, rfl⟩
      have hlen : buf.length = bufSize := by
        rw [hbuf, List.length_take, List.length_drop]
        omega
      by_cases hz : Whole m.repair buf
      · obtain ⟨hready, hcount, s, hsplit, hnext, hs, hout, hcut⟩ :=
          pass_first hm h (by omega) hbuf hlen hz
        have hpush : pushed file (c + 1) = pushed file c +
            if file[st.position + bufSize - 1]? = some CR then 1 else 0 := by
          rw [pushed, show (c + 1) * bufSize - pushed file c - 1 = st.position + bufSize - 1 by
            rw [Nat.succ_mul]
            omega]
        have hlens := congrArg List.length hsplit
        rw [List.length_drop, List.length_append, List.length_drop] at hlens
        have htake : file.take (pass m file.length st buf).position =
            file.take st.position ++ s := by
          have hadd : (pass m file.length st buf).position = st.position + s.length := by
            split_ifs at hnext <;> omega
          rw [hadd, List.take_add, hsplit, List.take_left]
        obtain ⟨text, htext, hexact⟩ := ih hready (c := c + 1) (by omega) (by omega)
          (by rw [hpush, Nat.succ_mul]; omega) (by rw [htake]; exact whole_append.mpr ⟨hwhole, hs⟩)
        refine ⟨_, delivers_pass hbuf ?_ hready.cntlZFlag hout htext, ?_⟩
        · rintro rfl
          rw [List.length_nil] at hlen
          omega
        · rw [hsplit]
          exact hexact.append hs hcut
      · refine ⟨_, delivers_ended hm h hbuf hz, ?_⟩
        have hcut : cut m.repair (file.drop st.position) = cut m.repair buf := by
          have hsplit : file.drop st.position = buf ++ file.drop (st.position + bufSize) := by
            rw [hbuf, ← List.drop_drop, List.take_append_drop]
          rw [hsplit, cut_append_of_not hz]
        unfold Exact
        rw [hcut]
        refine ⟨Nat.le_refl _, iff_of_true rfl fun k hk => hz ?_⟩
        have hb : st.position + bufSize ≤ (file.length / bufSize + k + 1) * bufSize -
            pushed file (file.length / bufSize) := by
          have hle := pushed_le_add file c (d + 1)
          have hmul : (d + 1 + k) * 1 ≤ (d + 1 + k) * bufSize := Nat.mul_le_mul_left _ (by omega)
          have hexp : (c + (d + 1) + k + 1) * bufSize =
              c * bufSize + bufSize + (d + 1 + k) * bufSize := by
            rw [← Nat.succ_mul, ← Nat.add_mul]
            congr 1
            omega
          rw [← hd, hexp]
          omega
        have := hk.2.2.take (st.position + bufSize)
        rw [List.take_take, Nat.min_eq_left hb, List.take_add] at this
        rw [hbuf]
        exact (whole_append.mp this).2

theorem delivers_start {t : List UInt8} :
    (∃ n, dtou m file n = some t) ↔ Delivers m file (start m) t := by
  unfold dtou Delivers
  simp only [Option.map_eq_some_iff]
  rfl

/-- The offsets at which the buffers end once none is put back any more. -/
def lastEnd (file : List UInt8) (k : ℕ) : ℕ :=
  (file.length / bufSize + k + 1) * bufSize - pushed file (file.length / bufSize)

theorem delivers_unix_iff (hm : m.strip = false) :
    Delivers m file (start m) (unix (cut m.repair file)) ↔
      ∀ k, ¬ Straddles m.repair file (lastEnd file k) := by
  have hready : Ready (start m) := ⟨rfl, rfl, rfl, by simp [start, hm]⟩
  obtain ⟨text, htext, -, hiff⟩ := delivers_first file hm hready (Nat.zero_add _) rfl
    (by simp [start, pushed]) (.inr (by simp [start]))
  refine Iff.trans ⟨fun h => htext.unique h, fun h => ?_⟩ hiff
  rw [← h]
  exact htext

end Plain

/-- Two buffers are put back, and the third one ends between the last carriage
return and the line feed. -/
def crRun : List UInt8 := List.replicate (3 * bufSize - 2) CR ++ [LF]

end DjgppLibc.Dtou
