import DjgppLibc.Dtou

/-!
# Stripping carriage returns (`utils/dtou.c` with `-s`)

With `-s` the loop leaves a run of carriage returns out until it sees what
follows, and goes back to its first byte if that is not a line feed, in order to
copy the run. `At` says what holds in the middle of a buffer: everything up to
some offset of the file is written, and the bytes from there to the current one
are a run whose fate is open. It carries a weight that every buffer lowers.

A carriage return that stands alone escapes this: what follows it is written
before anything is put back. From then on the output is no prefix of what it
should be.
-/
namespace DjgppLibc.Dtou

/-- The carriage returns at the start are followed by a line feed. -/
def BeforeLF (s : List UInt8) : Prop := (s.dropWhile (· = CR)).head? = some LF

instance (s : List UInt8) : Decidable (BeforeLF s) := inferInstanceAs (Decidable (_ = _))

/-- Every run of carriage returns in front of a line feed is dropped. -/
def strip : List UInt8 → List UInt8
  | [] => []
  | c :: s => if c = CR ∧ BeforeLF s then strip s else c :: strip s

/-- A carriage return alone, with something else than a line feed behind it. -/
def Lone (file : List UInt8) (i : ℕ) : Prop :=
  file[i]? = some CR ∧ (i = 0 ∨ file[i - 1]? ≠ some CR) ∧
    ∃ c, file[i + 1]? = some c ∧ c ≠ CR ∧ c ≠ LF

variable {file out s : List UInt8} {c : UInt8} {a d i : ℕ}

theorem beforeLF_cr : BeforeLF (CR :: s) ↔ BeforeLF s := by
  simp [BeforeLF]

theorem beforeLF_cons (h : c ≠ CR) : BeforeLF (c :: s) ↔ c = LF := by
  simp [BeforeLF, h]

theorem strip_cons_of_not (h : c = CR → ¬ BeforeLF s) : strip (c :: s) = c :: strip s := by
  rw [strip, if_neg fun h' => h h'.1 h'.2]

theorem strip_cr_cons (h : BeforeLF s) : strip (CR :: s) = strip s := by
  rw [strip, if_pos ⟨rfl, h⟩]

theorem mem_strip (h : c ≠ CR) : c ∈ strip s ↔ c ∈ s := by
  induction s with
  | nil => exact Iff.rfl
  | cons b s ih =>
      rw [strip]
      split_ifs with hb
      · rw [ih, hb.1]
        simp [h]
      · rw [List.mem_cons, List.mem_cons, ih]

theorem drop_of_getElem? (h : file[a]? = some c) : file.drop a = c :: file.drop (a + 1) := by
  obtain ⟨hlt, rfl⟩ := List.getElem?_eq_some_iff.mp h
  exact List.drop_eq_getElem_cons hlt

theorem lt_of_getElem? (h : file[a]? = some c) : a < file.length :=
  (List.getElem?_eq_some_iff.mp h).1

/-- The output is complete up to the offset, and no carriage return was alone so far. -/
structure Owed (file out : List UInt8) (d : ℕ) : Prop where
  text : out ++ strip (file.drop d) = strip file
  lone : ∀ i < d, ¬ Lone file i

theorem owed_zero (file : List UInt8) : Owed file [] 0 :=
  ⟨rfl, fun _ h => absurd h (Nat.not_lt_zero _)⟩

theorem Owed.keep (h : Owed file out a) (hc : file[a]? = some c)
    (hcr : c = CR → ¬ BeforeLF (file.drop (a + 1))) (hl : ¬ Lone file a) :
    Owed file (out ++ [c]) (a + 1) := by
  refine ⟨?_, fun i hi => ?_⟩
  · rw [← h.text, drop_of_getElem? hc, strip_cons_of_not hcr, List.append_assoc]
    rfl
  · rcases Nat.lt_succ_iff_lt_or_eq.mp hi with hi | rfl
    · exact h.lone i hi
    · exact hl

def CRs (file : List UInt8) (d a : ℕ) : Prop := ∀ i, d ≤ i → i < a → file[i]? = some CR

theorem CRs.succ (h : CRs file d a) (hc : file[a]? = some CR) : CRs file d (a + 1) := by
  intro i hd hi
  rcases Nat.lt_succ_iff_lt_or_eq.mp hi with hi | rfl
  · exact h i hd hi
  · exact hc

theorem CRs.beforeLF (h : CRs file d a) (hd : d ≤ a) :
    BeforeLF (file.drop d) ↔ BeforeLF (file.drop a) := by
  induction a, hd using Nat.le_induction with
  | base => exact Iff.rfl
  | succ a hd ih =>
      rw [ih fun i h1 h2 => h i h1 (by omega), drop_of_getElem? (h a hd (by omega)), beforeLF_cr]

theorem CRs.strip (h : CRs file d a) (hd : d ≤ a) (hb : BeforeLF (file.drop a)) :
    strip (file.drop d) = strip (file.drop a) := by
  induction a, hd using Nat.le_induction with
  | base => rfl
  | succ a hd ih =>
      have hdrop := drop_of_getElem? (h a hd (by omega))
      rw [ih (fun i h1 h2 => h i h1 (by omega)) (by rwa [hdrop, beforeLF_cr]), hdrop,
        strip_cr_cons hb]

/-- A run in front of a line feed is left out. -/
theorem Owed.lf (h : Owed file out d) (hr : CRs file d a) (hd : d ≤ a) (hc : file[a]? = some LF)
    (hl : ¬ Lone file d) : Owed file (out ++ [LF]) (a + 1) := by
  have hdrop := drop_of_getElem? hc
  refine ⟨?_, fun i hi => ?_⟩
  · rw [← h.text, hr.strip hd (by rw [hdrop, beforeLF_cons (by decide)]), hdrop,
      strip_cons_of_not (by simp [CR, LF]), List.append_assoc]
    rfl
  · rcases Nat.lt_trichotomy i d with hlt | rfl | hgt
    · exact h.lone i hlt
    · exact hl
    · rintro ⟨-, h | h, -⟩
      · omega
      · exact h (hr (i - 1) (by omega) (by omega))

/-- Something is written that should not be there. -/
def Spoiled (file out : List UInt8) : Prop := ¬ out <+: strip file ∧ ∃ i, Lone file i

theorem Spoiled.append (h : Spoiled file out) (s : List UInt8) : Spoiled file (out ++ s) :=
  ⟨fun hp => h.1 ((List.prefix_append out s).trans hp), h.2⟩

theorem Owed.spoiled (h : Owed file out d) (hd : Lone file d) (hc : file[d + 1]? = some c)
    (hcr : c ≠ CR) : Spoiled file (out ++ [c]) := by
  refine ⟨fun hp => ?_, d, hd⟩
  obtain ⟨c', hc', -, hlf⟩ := hd.2.2
  cases hc.symm.trans hc'
  have hdrop := drop_of_getElem? hd.1
  rw [drop_of_getElem? hc] at hdrop
  rw [← h.text, hdrop, strip_cons_of_not (by simp [beforeLF_cons hcr, hlf]),
    List.prefix_append_right_inj, List.cons_prefix_cons] at hp
  exact hcr hp.1

variable {m : Mode} {v : Vars} {position w : ℕ} {rewind : Bool}

def Flags (v : Vars) (isCR isNCR isCRSequence mustRewind : Bool) : Prop :=
  v.isCR = isCR ∧ v.isNCR = isNCR ∧ v.isCRSequence = isCRSequence ∧ v.mustRewind = mustRewind

def weight (file : List UInt8) (d x : ℕ) : ℕ := (file.length - d) * (file.length + 3) + x

theorem weight_lt {x y : ℕ} (hd : d < a) (ha : a ≤ file.length) (hx : x < file.length + 3) :
    weight file a x < weight file d y := by
  have hmul : (file.length - a + 1) * (file.length + 3) ≤ (file.length - d) * (file.length + 3) :=
    Nat.mul_le_mul_right _ (by omega)
  rw [Nat.succ_mul] at hmul
  unfold weight
  omega

def Start (file : List UInt8) (a : ℕ) : Prop :=
  file[a]? = some CR → a = 0 ∨ file[a - 1]? ≠ some CR

theorem start_succ (hc : file[a]? = some c) (h : c ≠ CR) : Start file (a + 1) := by
  refine fun _ => .inr ?_
  rw [Nat.add_sub_cancel, hc]
  simpa using h

/-- What holds in front of the byte at offset `a`. -/
inductive At (file out : List UInt8) (a : ℕ) (v : Vars) : ℕ → Prop
  | normal (hv : Flags v false false false false) (ho : Owed file out a) (hs : Start file a) :
      At file out a v (weight file a (file.length + 2))
  | single {d : ℕ} (ha : a = d + 1) (hv : Flags v true false false true) (hd : v.offset = d)
      (ho : Owed file out d) (hs : Start file d) (hc : file[d]? = some CR) (hlt : a < file.length) :
      At file out a v (weight file d (file.length + 1))
  | run {d : ℕ} {rewind : Bool} (hv : Flags v false true false rewind) (hd : v.offset = d)
      (ho : Owed file out d) (hc : file[d]? = some CR) (hc' : file[d + 1]? = some CR) (hda : d ≤ a)
      (hr : CRs file d a) (hlt : rewind = false → a < file.length) :
      At file out a v (weight file d ((if rewind then file.length - d else file.length - a) + 1))
  | sequence (hv : Flags v false false true false) (ho : Owed file out a)
      (hb : ¬ BeforeLF (file.drop a)) (hl : ¬ Lone file a) : At file out a v (weight file a 0)

/-- A run turned out not to be in front of a line feed and has to be copied. -/
structure Broken (file out : List UInt8) (v : Vars) (d : ℕ) : Prop where
  flags : Flags v false false true true
  offset : v.offset = d
  owed : Owed file out d
  notBefore : ¬ BeforeLF (file.drop d)
  notLone : ¬ Lone file d

theorem not_lone_of_cr (h : file[d + 1]? = some CR) : ¬ Lone file d := by
  rintro ⟨-, -, c, hc, hcr, -⟩
  rw [h] at hc
  cases hc
  exact hcr rfl

theorem stripByte_lf (m : Mode) (position i : ℕ) {seq : Bool} (hs : v.isCRSequence = seq)
    (size : ℕ) :
    ∃ v', stripByte m size position i LF v = ⟨v', [LF], false⟩ ∧
      Flags v' false false seq false ∧ v'.cntlZFlag = v.cntlZFlag := by
  unfold stripByte
  rw [if_pos rfl]
  exact ⟨_, rfl, ⟨rfl, rfl, hs, rfl⟩, rfl⟩

theorem stripByte_other (hlf : c ≠ LF) (hcr : c ≠ CR) (hz : Whole m.repair [c])
    (hv : v.isNCR = false) (size : ℕ) :
    stripByte m size position i c v = ⟨{ v with isCRSequence := false }, [c], false⟩ := by
  have hz' : ¬ (¬ m.repair = true ∧ c = CntlZ) := by
    rintro ⟨hr, rfl⟩
    exact hz.elim hr (by simp)
  unfold stripByte keep
  rw [if_neg hlf, if_neg fun h => hcr h.2]
  dsimp only
  rw [hv, if_neg Bool.false_ne_true, if_neg fun h => hcr h.2, if_neg hcr, if_neg hz']
  rfl

theorem stripByte_run {size : ℕ} (hlf : c ≠ LF) (hv : Flags v false true false rewind) :
    stripByte m size position i c v =
      if c ≠ CR ∨ position + i + 1 = size then
        ⟨{ v with isCRSequence := true, mustRewind := true, isNCR := false }, [], true⟩
      else ⟨v, [], false⟩ := by
  obtain ⟨isCR, isNCR, isCRSequence, mustRewind, offset, z, f1, f2, f3, n⟩ := v
  simp only [Flags] at hv
  obtain ⟨rfl, rfl, rfl, rfl⟩ := hv
  unfold stripByte
  rw [if_neg hlf, if_neg (by simp)]
  rfl

theorem stripByte_cr {size : ℕ} (hv : Flags v false false false rewind) :
    stripByte m size position i CR v =
      if position + i + 1 = size then ⟨v, [CR], true⟩
      else
        ⟨{ v with isCR := true, mustRewind := true, offset := ((position + i : ℕ) : ℤ) }, [],
          false⟩ := by
  obtain ⟨isCR, isNCR, isCRSequence, mustRewind, offset, z, f1, f2, f3, n⟩ := v
  simp only [Flags] at hv
  obtain ⟨rfl, rfl, rfl, rfl⟩ := hv
  unfold stripByte
  rw [if_neg (by decide), if_neg (by simp)]
  push_cast
  rfl

theorem stripByte_second {size : ℕ} (hv : Flags v true false false rewind) :
    stripByte m size position i CR v = ⟨{ v with isNCR := true, isCR := false }, [], false⟩ := by
  obtain ⟨isCR, isNCR, isCRSequence, mustRewind, offset, z, f1, f2, f3, n⟩ := v
  simp only [Flags] at hv
  obtain ⟨rfl, rfl, rfl, rfl⟩ := hv
  unfold stripByte
  rw [if_neg (by decide), if_neg (by simp)]
  rfl

theorem stripByte_sequence {size : ℕ} (hv : v.isCRSequence = true) :
    stripByte m size position i CR v = ⟨v, [CR], false⟩ := by
  unfold stripByte
  rw [if_neg (by decide), if_pos ⟨hv, rfl⟩]

/-- The loop over a buffer ends at offset `b`, or a run has to be copied. -/
def Outcome (file out : List UInt8) (b : ℕ) (v : Vars) (w : ℕ) : Prop :=
  At file out b v w ∨ ∃ d, Broken file out v d ∧ w = weight file d 0

structure Moved (file out : List UInt8) (a : ℕ) (v : Vars) (w : ℕ) (r : Step) : Prop where
  cntlZFlag : r.vars.cntlZFlag = v.cntlZFlag
  next : ∃ w' ≤ w, (v.mustRewind = false → w' < w) ∧
    if r.stop then
      a + 1 = file.length ∧ At file (out ++ r.kept) (a + 1) r.vars w' ∨
        ∃ d, Broken file (out ++ r.kept) r.vars d ∧ w' = weight file d 0
    else Spoiled file (out ++ r.kept) ∨ At file (out ++ r.kept) (a + 1) r.vars w'

theorem Moved.of_lt (w' : ℕ) {r : Step} (hz : r.vars.cntlZFlag = v.cntlZFlag) (hw : w' < w)
    (h : if r.stop then
        a + 1 = file.length ∧ At file (out ++ r.kept) (a + 1) r.vars w' ∨
          ∃ d, Broken file (out ++ r.kept) r.vars d ∧ w' = weight file d 0
      else Spoiled file (out ++ r.kept) ∨ At file (out ++ r.kept) (a + 1) r.vars w') :
    Moved file out a v w r :=
  ⟨hz, w', hw.le, fun _ => hw, h⟩

section Byte

variable (m)

theorem moved_normal (hc : file[a]? = some c) (hz : Whole m.repair [c]) (ha : position + i = a)
    (hv : Flags v false false false false) (ho : Owed file out a) (hs : Start file a) :
    Moved file out a v (weight file a (file.length + 2))
      (stripByte m file.length position i c v) := by
  have hlt := lt_of_getElem? hc
  have hw : weight file (a + 1) (file.length + 2) < weight file a (file.length + 2) :=
    weight_lt (Nat.lt_succ_self a) hlt (by omega)
  by_cases hlf : c = LF
  · subst hlf
    obtain ⟨v', hstep, hflags, hz'⟩ := stripByte_lf m position i hv.2.2.1 file.length
    rw [hstep]
    refine .of_lt _ hz' hw (.inr (.normal hflags ?_ ?_))
    · exact ho.keep hc (by simp [CR, LF]) (by simp [Lone, hc, CR, LF])
    · exact start_succ hc (by decide)
  by_cases hcr : c = CR
  · subst hcr
    rw [stripByte_cr hv, ha]
    split_ifs with hlast
    · have hnone : file[a + 1]? = none := List.getElem?_eq_none (by omega)
      have hkeep : Owed file (out ++ [CR]) (a + 1) := by
        refine ho.keep hc (fun _ => ?_) (by simp [Lone, hnone])
        rw [List.drop_eq_nil_of_le (by omega)]
        simp [BeforeLF]
      exact .of_lt _ rfl hw (.inl ⟨hlast, .normal hv hkeep (by simp [Start, hnone])⟩)
    · refine .of_lt (weight file a (file.length + 1)) rfl ?_ (.inr ?_)
      · exact Nat.add_lt_add_left (by omega) _
      · rw [List.append_nil]
        exact .single rfl ⟨rfl, hv.2.1, hv.2.2.1, rfl⟩ rfl ho hs hc (by omega)
  · rw [stripByte_other hlf hcr hz hv.2.1]
    refine .of_lt _ rfl hw (.inr (.normal ⟨hv.1, hv.2.1, rfl, hv.2.2.2⟩ ?_ ?_))
    · exact ho.keep hc (fun h => absurd h hcr) (by simp [Lone, hc, hcr])
    · exact start_succ hc hcr

theorem moved_sequence (hc : file[a]? = some c) (hz : Whole m.repair [c])
    (hv : Flags v false false true false) (ho : Owed file out a)
    (hb : ¬ BeforeLF (file.drop a)) (hl : ¬ Lone file a) :
    Moved file out a v (weight file a 0) (stripByte m file.length position i c v) := by
  have hlt := lt_of_getElem? hc
  rw [drop_of_getElem? hc] at hb
  by_cases hcr : c = CR
  · subst hcr
    rw [beforeLF_cr] at hb
    rw [stripByte_sequence hv.2.2.1]
    refine .of_lt (weight file (a + 1) 0) rfl (weight_lt (Nat.lt_succ_self a) hlt (by omega))
      (.inr (.sequence hv (ho.keep hc (fun _ => hb) hl) hb ?_))
    rintro ⟨-, h | h, -⟩
    · omega
    · exact h hc
  · rw [beforeLF_cons hcr] at hb
    rw [stripByte_other hb hcr hz hv.2.1]
    refine .of_lt (weight file (a + 1) (file.length + 2)) rfl
      (weight_lt (Nat.lt_succ_self a) hlt (by omega))
      (.inr (.normal ⟨hv.1, hv.2.1, rfl, hv.2.2.2⟩ ?_ (start_succ hc hcr)))
    exact ho.keep hc (fun h => absurd h hcr) hl

theorem moved_single (hc : file[a]? = some c) (hz : Whole m.repair [c]) (had : a = d + 1)
    (hv : Flags v true false false true) (hd : v.offset = d) (ho : Owed file out d)
    (hs : Start file d) (hc' : file[d]? = some CR) :
    Moved file out a v (weight file d (file.length + 1))
      (stripByte m file.length position i c v) := by
  have hlt := lt_of_getElem? hc
  subst had
  have hrun : CRs file d (d + 1) := by
    intro j h1 h2
    obtain rfl : j = d := by omega
    exact hc'
  by_cases hlf : c = LF
  · subst hlf
    obtain ⟨v', hstep, hflags, hz'⟩ := stripByte_lf m position i hv.2.2.1 file.length
    rw [hstep]
    refine .of_lt (weight file (d + 2) (file.length + 2)) hz'
      (weight_lt (by omega) hlt (by omega)) (.inr (.normal hflags ?_ (start_succ hc (by decide))))
    exact ho.lf hrun (Nat.le_succ d) hc (by simp [Lone, hc])
  by_cases hcr : c = CR
  · subst hcr
    rw [stripByte_second hv]
    refine ⟨rfl, weight file d (file.length - d + 1), ?_, fun h => ?_, .inr ?_⟩
    · exact Nat.add_le_add_left (by omega) _
    · rw [hv.2.2.2] at h
      cases h
    · rw [List.append_nil]
      have hflags : Flags { v with isNCR := true, isCR := false } false true false true :=
        ⟨rfl, rfl, hv.2.2⟩
      exact .run hflags hd ho hc' hc (by omega) (hrun.succ hc) (by simp)
  · rw [stripByte_other hlf hcr hz hv.2.1]
    refine ⟨rfl, _, Nat.le_refl _, fun h => ?_, .inl ?_⟩
    · rw [hv.2.2.2] at h
      cases h
    · exact ho.spoiled ⟨hc', hs hc', c, hc, hcr, hlf⟩ hc hcr

theorem moved_run (hc : file[a]? = some c) (ha : position + i = a)
    (hv : Flags v false true false rewind) (hd : v.offset = d) (ho : Owed file out d)
    (hc1 : file[d]? = some CR) (hc2 : file[d + 1]? = some CR) (hda : d ≤ a)
    (hr : CRs file d a) :
    Moved file out a v
      (weight file d ((if rewind then file.length - d else file.length - a) + 1))
      (stripByte m file.length position i c v) := by
  have hlt := lt_of_getElem? hc
  by_cases hlf : c = LF
  · subst hlf
    obtain ⟨v', hstep, hflags, hz'⟩ := stripByte_lf m position i hv.2.2.1 file.length
    rw [hstep]
    refine .of_lt (weight file (a + 1) (file.length + 2)) hz'
      (weight_lt (by omega) hlt (by omega)) (.inr (.normal hflags ?_ (start_succ hc (by decide))))
    exact ho.lf hr hda hc (not_lone_of_cr hc2)
  rw [stripByte_run hlf hv, ha]
  by_cases hend : c ≠ CR ∨ a + 1 = file.length
  · rw [if_pos hend]
    refine .of_lt (weight file d 0) rfl (Nat.add_lt_add_left (Nat.succ_pos _) _)
      (.inr ⟨d, ?_, rfl⟩)
    rw [List.append_nil]
    refine ⟨⟨hv.1, rfl, rfl, rfl⟩, hd, ho, ?_, not_lone_of_cr hc2⟩
    rw [hr.beforeLF hda, drop_of_getElem? hc]
    by_cases hcr : c = CR
    · have hlast := hend.resolve_left (not_not.mpr hcr)
      rw [hcr, beforeLF_cr, List.drop_eq_nil_of_le (by omega)]
      simp [BeforeLF]
    · rwa [beforeLF_cons hcr]
  · obtain ⟨hcr, hlast⟩ := not_or.mp hend
    have hcr := not_not.mp hcr
    subst hcr
    rw [if_neg hend]
    refine ⟨rfl, weight file d ((if rewind then file.length - d else file.length - (a + 1)) + 1),
      ?_, fun h => ?_, .inr ?_⟩
    · refine Nat.add_le_add_left ?_ _
      split_ifs <;> omega
    · rw [hv.2.2.2] at h
      subst h
      exact Nat.add_lt_add_left (by simp; omega) _
    · rw [List.append_nil]
      exact .run hv hd ho hc1 hc2 (by omega) (hr.succ hc) (fun _ => by omega)

theorem At.moved (h : At file out a v w) (hc : file[a]? = some c) (hz : Whole m.repair [c])
    (ha : position + i = a) : Moved file out a v w (stripByte m file.length position i c v) := by
  cases h with
  | normal hv ho hs => exact moved_normal m hc hz ha hv ho hs
  | single had hv hd ho hs hc' _ => exact moved_single m hc hz had hv hd ho hs hc'
  | run hv hd ho hc1 hc2 hda hr _ => exact moved_run m hc ha hv hd ho hc1 hc2 hda hr
  | sequence hv ho hb hl => exact moved_sequence m hc hz hv ho hb hl

end Byte

variable {st : State} {cs buf : List UInt8}

theorem scan_strip_cons (hm : m.strip = true) {size l : ℕ} :
    scan m size st l i (c :: cs) v =
      let r := stripByte m size st.position i c v
      if r.stop then (r.vars, r.kept)
      else ((scan m size st l (i + 1) cs r.vars).1,
        r.kept ++ (scan m size st l (i + 1) cs r.vars).2) := by
  rw [scan, scanByte, hm]
  rfl

/-- The rest of a buffer, from `a` to `b`. -/
theorem scan_outcome (hm : m.strip = true) {l b : ℕ} (h : At file out a v w)
    (ha : st.position + i = a) (hb : b = a + cs.length) (hcs : cs <+: file.drop a)
    (hz : Whole m.repair cs) :
    let r := scan m file.length st l i cs v
    Spoiled file (out ++ r.2) ∨
      r.1.cntlZFlag = v.cntlZFlag ∧ ∃ w' ≤ w, (v.mustRewind = false → cs ≠ [] → w' < w) ∧
        Outcome file (out ++ r.2) b r.1 w' := by
  dsimp only
  induction cs generalizing out a v w i with
  | nil =>
      refine .inr ⟨rfl, w, Nat.le_refl w, fun _ h => absurd rfl h, .inl ?_⟩
      rw [hb, List.length_nil, Nat.add_zero, scan, List.append_nil]
      exact h
  | cons c cs ih =>
      obtain ⟨rest, hrest⟩ := hcs
      have hc : file[a]? = some c := by
        rw [← List.head?_drop, ← hrest]
        rfl
      have hnext : file.drop (a + 1) = cs ++ rest := by
        rw [drop_of_getElem? hc, List.cons_append] at hrest
        exact (List.cons.inj hrest).2.symm
      obtain ⟨hz1, hz2⟩ := whole_append.mp (show Whole m.repair ([c] ++ cs) from hz)
      obtain ⟨hflag, w', hle, hlt, hmoved⟩ := h.moved m hc hz1 ha
      rw [scan_strip_cons hm]
      dsimp only
      split_ifs at hmoved with hstop
      · rw [if_pos hstop]
        refine .inr ⟨hflag, w', hle, fun hr _ => hlt hr, ?_⟩
        refine hmoved.imp (fun ⟨hlast, hat⟩ => ?_) id
        rw [List.drop_eq_nil_of_le (by omega)] at hnext
        rw [hb, List.length_cons, (List.append_eq_nil_iff.mp hnext.symm).1]
        exact hat
      · rw [if_neg hstop, ← List.append_assoc]
        rcases hmoved with hspoiled | hat
        · exact .inl (hspoiled.append _)
        · rw [List.length_cons] at hb
          have hrec := ih hat (i := i + 1) (by omega) (by omega) ⟨rest, hnext.symm⟩ hz2
          refine hrec.imp id fun ⟨hflag', w'', hle', _, hout⟩ => ?_
          exact ⟨hflag'.trans hflag, w'', hle'.trans hle,
            fun hr _ => hle'.trans_lt (hlt hr), hout⟩

/-- What holds between two buffers. -/
structure Head (file : List UInt8) (st : State) (w : ℕ) : Prop where
  state : At file st.out st.position st.vars w
  isCR : st.vars.isCR = false
  mustRewind : st.vars.mustRewind = false
  cntlZFlag : st.vars.cntlZFlag = false

theorem At.le_weight (h : At file out a v w) : weight file a 0 ≤ w := by
  have hmono : ∀ {d x : ℕ}, d ≤ a → weight file a 0 ≤ weight file d x := by
    intro d x hd
    exact Nat.add_le_add (Nat.mul_le_mul_right _ (by omega)) (Nat.zero_le x)
  cases h with
  | normal => exact hmono (Nat.le_refl a)
  | single had => exact hmono (by omega)
  | run _ _ _ _ _ hda => exact hmono hda
  | sequence => exact hmono (Nat.le_refl a)

theorem pass_strip (hm : m.strip = true) :
    pass m file.length st buf =
      let r := scan m file.length st buf.length 0 buf st.vars
      { position := if r.1.mustRewind then r.1.offset.toNat else st.position + buf.length
        bufCounter := st.bufCounter + 1
        vars := { r.1 with isCR := false, mustRewind := false }
        out := st.out ++ r.2 } := by
  unfold pass whence
  rw [hm]
  rfl

/-- After a buffer less is left to do, or the output is spoiled. -/
theorem pass_head (hm : m.strip = true) (h : Head file st w)
    (hbuf : buf = (file.drop st.position).take bufSize) (hne : buf ≠ [])
    (hz : Whole m.repair buf) :
    Spoiled file (pass m file.length st buf).out ∨
      ∃ w' < w, Head file (pass m file.length st buf) w' := by
  have hscan := scan_outcome (l := buf.length) hm h.state (Nat.add_zero _) rfl
    (hbuf ▸ List.take_prefix _ _) hz
  rw [pass_strip hm]
  revert hscan
  generalize scan m file.length st buf.length 0 buf st.vars = r
  dsimp only
  refine Or.imp id ?_
  rintro ⟨hflag, w', hle, hlt, hout⟩
  have hlt := hlt h.mustRewind hne
  have hflag := hflag.trans h.cntlZFlag
  rcases hout with hat | ⟨d, hbroken, rfl⟩
  · cases hat with
    | normal hv ho hs =>
        refine ⟨_, hlt, ?_, rfl, rfl, hflag⟩
        rw [hv.2.2.2]
        exact .normal ⟨rfl, hv.2.1, hv.2.2.1, rfl⟩ ho hs
    | @single d had hv hd ho hs hc hend =>
        -- the carriage return is the last byte of the buffer and is read again
        have hlen : 2 ≤ buf.length := by
          have := List.length_pos_iff.mpr hne
          have := two_le_bufSize
          rw [hbuf, List.length_take, List.length_drop] at *
          omega
        refine ⟨weight file d (file.length + 2), ?_, ?_, rfl, rfl, hflag⟩
        · exact (weight_lt (by omega) (lt_of_getElem? hc).le (by omega)).trans_le h.state.le_weight
        · rw [hv.2.2.2, hd]
          exact .normal ⟨rfl, hv.2.1, hv.2.2.1, rfl⟩ ho hs
    | @run d rewind hv hd ho hc1 hc2 hda hr hend =>
        refine ⟨_, hlt, ?_, rfl, rfl, hflag⟩
        have hflags : Flags { r.1 with isCR := false, mustRewind := false } false true false
          false := ⟨rfl, hv.2.1, hv.2.2.1, rfl⟩
        rw [hv.2.2.2]
        cases rewind with
        | false => exact .run hflags hd ho hc1 hc2 hda hr hend
        | true =>
            have hback : r.1.offset.toNat = d := by
              rw [hd]
              rfl
            rw [hback]
            exact .run hflags hd ho hc1 hc2 (Nat.le_refl d)
              (fun i h1 h2 => absurd h1 (Nat.not_le.mpr h2)) fun _ => lt_of_getElem? hc1
    | sequence hv ho hb hl =>
        refine ⟨_, hlt, ?_, rfl, rfl, hflag⟩
        rw [hv.2.2.2]
        exact .sequence ⟨rfl, hv.2.1, hv.2.2.1, rfl⟩ ho hb hl
  · refine ⟨_, hlt, ?_, rfl, rfl, hflag⟩
    rw [hbroken.flags.2.2.2, hbroken.offset]
    exact .sequence ⟨rfl, hbroken.flags.2.1, hbroken.flags.2.2.1, rfl⟩ hbroken.owed
      hbroken.notBefore hbroken.notLone

theorem Owed.done (h : Owed file out a) (ha : file.length ≤ a) :
    out = strip file ∧ ∀ i, ¬ Lone file i := by
  constructor
  · rw [← h.text, List.drop_eq_nil_of_le ha, strip, List.append_nil]
  · intro i hi
    exact h.lone i ((lt_of_getElem? hi.1).trans_le ha) hi

theorem Head.done (h : Head file st w) (hbuf : (file.drop st.position).take bufSize = []) :
    st.out = strip file ∧ ∀ i, ¬ Lone file i := by
  have hend : file.length ≤ st.position := by
    have := congrArg List.length hbuf
    have := two_le_bufSize
    rw [List.length_take, List.length_drop, List.length_nil] at *
    omega
  cases h.state with
  | normal _ ho _ => exact ho.done hend
  | single _ hv => exact absurd (h.isCR.symm.trans hv.1) Bool.false_ne_true
  | run hv _ _ _ _ _ _ hlt =>
      have := hlt (hv.2.2.2.symm.trans h.mustRewind)
      omega
  | sequence _ ho _ _ => exact ho.done hend

theorem loop_spoiled {n : ℕ} {st' : State} (h : Spoiled file st.out)
    (hn : loop m file n st = some st') : Spoiled file st'.out := by
  induction n generalizing st with
  | zero => cases hn
  | succ n ih =>
      rw [loop] at hn
      dsimp only at hn
      split_ifs at hn
      · cases hn
        exact h
      · cases hn
        exact h.append _
      · exact ih (h.append _) hn

theorem Whole.buffer {repair : Bool} (h : Whole repair file) (p n : ℕ) :
    Whole repair ((file.drop p).take n) :=
  h.imp id fun h hm => h (List.mem_of_mem_drop (List.mem_of_mem_take hm))

theorem loop_head (hm : m.strip = true) (hz : Whole m.repair file) {n : ℕ} {st' : State}
    (h : Head file st w) (hn : loop m file n st = some st') :
    Spoiled file st'.out ∨ st'.out = strip file ∧ ∀ i, ¬ Lone file i := by
  induction n generalizing st w with
  | zero => cases hn
  | succ n ih =>
      rw [loop] at hn
      dsimp only at hn
      split_ifs at hn with hbuf hflag
      · cases hn
        exact .inr (h.done hbuf)
      · cases hn
        refine (pass_head hm h rfl hbuf (hz.buffer _ _)).imp id fun ⟨w', _, h'⟩ => ?_
        exact absurd (h'.cntlZFlag.symm.trans hflag) Bool.false_ne_true
      · rcases pass_head hm h rfl hbuf (hz.buffer _ _) with hs | ⟨w', _, h'⟩
        · exact .inl (loop_spoiled hs hn)
        · exact ih h' hn

theorem loop_ends (hm : m.strip = true) (hz : Whole m.repair file) (hl : ∀ i, ¬ Lone file i)
    (h : Head file st w) : ∃ n st', loop m file n st = some st' := by
  induction w using Nat.strong_induction_on generalizing st with
  | _ w ih =>
      by_cases hbuf : (file.drop st.position).take bufSize = []
      · refine ⟨1, st, ?_⟩
        rw [loop]
        exact if_pos hbuf
      rcases pass_head hm h rfl hbuf (hz.buffer _ _) with hs | ⟨w', hlt, h'⟩
      · obtain ⟨i, hi⟩ := hs.2
        exact absurd hi (hl i)
      · obtain ⟨n, st', hn⟩ := ih w' hlt h'
        refine ⟨n + 1, st', ?_⟩
        rw [loop]
        dsimp only
        rw [if_neg hbuf, if_neg (by simp [h'.cntlZFlag]), hn]

theorem stripByte_kept {size : ℕ} (hr : m.repair = false) :
    CntlZ ∉ (stripByte m size position i c v).kept := by
  have hkeep : CntlZ ∉ (keep m c { v with isCRSequence := false } []).kept := by
    unfold keep
    split_ifs with hz
    · simp
    · have hne : CntlZ ≠ c := fun h => hz ⟨by simp [hr], h.symm⟩
      simpa using hne
  have hlf : CntlZ ∉ [LF] := by decide
  have hcr : CntlZ ∉ [CR] := by decide
  unfold stripByte
  by_cases h : c = LF
  · rw [if_pos h, h]
    exact hlf
  by_cases h : c = CR
  · subst h
    dsimp only
    split_ifs <;> first | exact hcr | exact hlf | exact hkeep | simp
  · simp only [h, and_false, if_false]
    split_ifs
    · simp
    · simp
    · exact hkeep

theorem scan_kept (hm : m.strip = true) (hr : m.repair = false) {size l : ℕ} :
    CntlZ ∉ (scan m size st l i cs v).2 := by
  induction cs generalizing i v with
  | nil => simp [scan]
  | cons c cs ih =>
      rw [scan_strip_cons hm]
      dsimp only
      split_ifs
      · exact stripByte_kept hr
      · rw [List.mem_append, not_or]
        exact ⟨stripByte_kept hr, ih⟩

theorem notMem_pass (hm : m.strip = true) (hr : m.repair = false) (h : CntlZ ∉ st.out)
    (buf : List UInt8) : CntlZ ∉ (pass m file.length st buf).out := by
  rw [pass, List.mem_append, not_or]
  exact ⟨h, scan_kept hm hr⟩

theorem notMem_loop (hm : m.strip = true) (hr : m.repair = false) {n : ℕ} {st' : State}
    (h : CntlZ ∉ st.out) (hn : loop m file n st = some st') : CntlZ ∉ st'.out := by
  induction n generalizing st with
  | zero => cases hn
  | succ n ih =>
      rw [loop] at hn
      dsimp only at hn
      split_ifs at hn
      · cases hn
        exact h
      · cases hn
        exact notMem_pass hm hr h _
      · exact ih (notMem_pass hm hr h _) hn

theorem head_start (m : Mode) (file : List UInt8) :
    Head file (start m) (weight file 0 (file.length + 2)) :=
  ⟨.normal ⟨rfl, rfl, rfl, rfl⟩ (owed_zero file) fun _ => .inl rfl, rfl, rfl, rfl⟩

theorem delivers_strip_iff (hm : m.strip = true) :
    Delivers m file (start m) (strip file) ↔ Whole m.repair file ∧ ∀ i, ¬ Lone file i := by
  constructor
  · rintro ⟨n, st', hn, hout⟩
    have hz : Whole m.repair file := by
      cases hr : m.repair with
      | true => exact .inl rfl
      | false =>
          refine .inr fun hmem => notMem_loop hm hr (by simp [start]) hn ?_
          rw [hout]
          exact (mem_strip (by decide)).mpr hmem
    refine ⟨hz, ?_⟩
    rcases loop_head hm hz (head_start m file) hn with hs | ⟨-, hl⟩
    · rw [hout] at hs
      exact absurd (List.prefix_refl _) hs.1
    · exact hl
  · rintro ⟨hz, hl⟩
    obtain ⟨n, st', hn⟩ := loop_ends hm hz hl (head_start m file)
    refine ⟨n, st', hn, ?_⟩
    rcases loop_head hm hz (head_start m file) hn with hs | ⟨hout, -⟩
    · obtain ⟨i, hi⟩ := hs.2
      exact absurd hi (hl i)
    · exact hout

end DjgppLibc.Dtou
