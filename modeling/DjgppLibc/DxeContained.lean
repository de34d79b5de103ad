import DjgppLibc.DxeStores

/-!
# Where the generator stores

The entries of unresolved symbols are inside their table in every run, and fill it. The table
of exported symbols is overrun where an entry is larger than what the table grows by. A run
without that leaves in memory what the module file is made of.
-/
namespace DjgppLibc.Dxe

open ByteTables CStrings StoreLogs

/-- The stores are inside the tables, and the offsets of each entry meet without overlapping. -/
structure Contained (t : GenTables) : Prop where
  unres : ∀ s ∈ t.unres.log, s.Inside
  expsym : ∀ s ∈ t.expsym.log, s.Inside
  meet : ∀ p ∈ t.ends, p.1 = p.2
  apart : t.unres.log.Pairwise Store.Apart

def tooMany (opts : Options) (relocs : List Reloc) (p : ℕ × Symbol) : Bool :=
  p.2.name.bytes ≠ [] ∧ p.2.undefined ∧ opts.unresolved ∧
    (0xffff < (unresEntry p.2.name (relocsTo p.1 relocs)).rel.length ∨
      0xffff < (unresEntry p.2.name (relocsTo p.1 relocs)).abs.length)

def reachedFrom (opts : Options) (relocs : List Reloc) (i : ℕ) (syms : List Symbol) : List Symbol :=
  ((indexed i syms).takeWhile fun p => !tooMany opts relocs p).map Prod.snd

def reachedExports (obj : Obj) (opts : Options) : List Export :=
  exportsFrom opts (opts.names.map some) (reachedFrom opts obj.relocs 0 obj.syms)

def extent (es : List Export) : ℕ := (es.map fun e => e.encode.length).sum

/-- Each entry ends within 1024 bytes of the next multiple of 1024 at its beginning. -/
def GrowsEnough (es : List Export) : Prop :=
  ∀ before e, before ++ [e] <+: es →
    extent (before ++ [e]) ≤ (extent before + 1023) / 1024 * 1024 + 1024

variable {opts : Options} {i : ℕ} {sym : Symbol} {t t' : GenTables}

inductive Stored (opts : Options) (i : ℕ) (sym : Symbol) (t : GenTables) : GenTables → Prop
  | skipped (he : exportOf opts t.names sym = none) : Stored opts i sym t t
  | unres (f : Filling) (he : exportOf opts t.names sym = none)
      (hf : storeEntry i sym.name t.relocs (countRelocs i t.relocs) t.unres = f) :
      Stored opts i sym t { t with
        relocs := markProcessed i t.relocs
        unres := f.table
        ends := t.ends ++ [(f.rel, f.abs)] }
  | exported (names : List (Option CString)) (he : exportOf opts t.names sym = some names) :
      Stored opts i sym t { t with
        names := names
        expsym := storeExport ⟨sym.value, sym.name.bytes⟩ t.expsym }

/-- The generator gives up if there are too many references of a kind. -/
theorem storeUnres_eq (opts : Options) (i : ℕ) (name : CString) (t : GenTables) :
    storeUnres opts i name t =
      if relocsTo i t.relocs = [] ∨ opts.unresolved = false then some t
      else if 0xffff < (unresEntry name (relocsTo i t.relocs)).rel.length ∨
        0xffff < (unresEntry name (relocsTo i t.relocs)).abs.length then none
      else
        let f := storeEntry i name t.relocs (countRelocs i t.relocs) t.unres
        some { t with
          relocs := markProcessed i t.relocs
          unres := f.table
          ends := t.ends ++ [(f.rel, f.abs)] } := by
  have hempty := @unresEntry_empty_iff name (relocsTo i t.relocs)
  rw [← List.length_eq_zero_iff, ← List.length_eq_zero_iff] at hempty
  have habs : (unresEntry name (relocsTo i t.relocs)).abs.length =
    (absOffsets (relocsTo i t.relocs)).length := List.length_reverse
  have hrel : (unresEntry name (relocsTo i t.relocs)).rel.length =
    (relOffsets (relocsTo i t.relocs)).length := rfl
  rw [hrel, habs] at hempty ⊢
  rw [storeUnres, countRelocs_eq]
  dsimp only
  rw [if_congr hempty rfl rfl]
  by_cases hnone : relocsTo i t.relocs = []
  · rw [if_pos hnone, if_pos (.inl hnone)]
  · rw [if_neg hnone]
    cases hopt : opts.unresolved with
    | false => exact (if_pos rfl).trans (if_pos (Or.inr rfl)).symm
    | true =>
        have hnot : ¬ (relocsTo i t.relocs = [] ∨ true = false) := fun h => h.elim hnone nofun
        exact (if_neg Bool.false_ne_true).trans (if_neg hnot).symm

theorem storeStep_cases (opts : Options) (i : ℕ) (sym : Symbol) (t : GenTables) :
    storeStep opts i sym t = none ∧ tooMany opts t.relocs (i, sym) = true ∨
      tooMany opts t.relocs (i, sym) = false ∧
        ∃ t', storeStep opts i sym t = some t' ∧ Stored opts i sym t t' := by
  have hfew : (sym.name.bytes = [] ∨ sym.undefined = false) →
      tooMany opts t.relocs (i, sym) = false := by
    intro h
    refine decide_eq_false fun hc => h.elim hc.1 fun hu => ?_
    rw [hc.2.1] at hu
    cases hu
  unfold storeStep
  by_cases hname : sym.name.bytes = []
  · rw [if_pos hname]
    exact .inr ⟨hfew (.inl hname), t, rfl, .skipped (if_neg fun hc => hc.1 hname)⟩
  rw [if_neg hname]
  by_cases hstat : sym.sclass = C_STAT
  · rw [if_pos hstat]
    refine .inr ⟨hfew (.inr (by simp [Symbol.undefined, hstat])), t, rfl, .skipped ?_⟩
    exact if_neg fun hc => by simp [hstat, C_STAT, C_EXT] at hc
  rw [if_neg hstat]
  by_cases hscn : sym.scnum = 0
  · have hundef : sym.undefined = true := by simp [Symbol.undefined, hstat, hscn]
    have he : exportOf opts t.names sym = none := if_neg fun hc => hc.2.2.1 hscn
    rw [if_pos hscn, storeUnres_eq]
    by_cases hskip : relocsTo i t.relocs = [] ∨ opts.unresolved = false
    · rw [if_pos hskip]
      refine .inr ⟨decide_eq_false fun hc => ?_, t, rfl, .skipped he⟩
      obtain hnone | hopt := hskip
      · have hcounts := hc.2.2.2
        dsimp only at hcounts
        rw [hnone] at hcounts
        exact hcounts.elim (Nat.not_lt_zero _) (Nat.not_lt_zero _)
      · exact absurd (hopt.symm.trans hc.2.2.1) Bool.false_ne_true
    rw [if_neg hskip]
    by_cases hmany : 0xffff < (unresEntry sym.name (relocsTo i t.relocs)).rel.length ∨
        0xffff < (unresEntry sym.name (relocsTo i t.relocs)).abs.length
    · rw [if_pos hmany]
      rw [not_or, Bool.not_eq_false] at hskip
      exact .inl ⟨rfl, decide_eq_true ⟨hname, hundef, hskip.2, hmany⟩⟩
    · rw [if_neg hmany]
      exact .inr ⟨decide_eq_false fun hc => hmany hc.2.2.2, _, rfl, .unres _ he rfl⟩
  rw [if_neg hscn]
  have hdefined := hfew (.inr (decide_eq_false fun hc => hscn hc.1))
  refine .inr ⟨hdefined, ?_⟩
  by_cases hext : sym.sclass = C_EXT
  · rw [if_pos hext]
    by_cases hinit : sym.name.bytes = ascii "_init"
    · rw [if_pos hinit]
      exact ⟨t, rfl, .skipped (if_neg fun hc => hc.2.2.2.1 hinit)⟩
    rw [if_neg hinit]
    by_cases hfini : sym.name.bytes = ascii "_fini"
    · rw [if_pos hfini]
      exact ⟨t, rfl, .skipped (if_neg fun hc => hc.2.2.2.2 hfini)⟩
    rw [if_neg hfini]
    have he : exportOf opts t.names sym = exportName opts t.names sym.name :=
      if_pos ⟨hname, hext, hscn, hinit, hfini⟩
    cases hexport : exportName opts t.names sym.name with
    | none => exact ⟨t, rfl, .skipped (he.trans hexport)⟩
    | some names => exact ⟨_, rfl, .exported names (he.trans hexport)⟩
  · rw [if_neg hext]
    exact ⟨t, rfl, .skipped (if_neg fun hc => hext hc.2.1)⟩

/-- Whatever becomes of the exports, the entries of unresolved symbols are as they should be. -/
structure UnresLaid (t : GenTables) (un : List UInt8) : Prop where
  holds : t.unres.Holds un
  safe : t.unres.Safe
  meet : ∀ p ∈ t.ends, p.1 = p.2

theorem Stored.unresLaid (h : Stored opts i sym t t') {un : List UInt8} (hl : UnresLaid t un) :
    ∃ un, UnresLaid t' un := by
  cases h with
  | skipped he => exact ⟨un, hl⟩
  | exported names he => exact ⟨un, hl.holds, hl.safe, hl.meet⟩
  | unres f he hf =>
      obtain ⟨hmeet, hholds, hsafe⟩ := storeEntry_spec hf hl.holds hl.safe
      exact ⟨_, hholds, hsafe,
        List.forall_mem_append.mpr ⟨hl.meet, List.forall_mem_singleton.mpr hmeet⟩⟩

theorem storeLoop_unresLaid {syms : List Symbol} {un : List UInt8} (hl : UnresLaid t un) :
    ∃ un, UnresLaid (storeLoop opts i syms t) un := by
  induction syms generalizing i t un with
  | nil => exact ⟨un, hl⟩
  | cons sym syms ih =>
      rw [storeLoop]
      obtain ⟨hstep, -⟩ | ⟨-, t', hstep, hstored⟩ := storeStep_cases opts i sym t
      · rw [hstep]
        exact ⟨un, hl⟩
      · rw [hstep]
        obtain ⟨un', hl'⟩ := hstored.unresLaid hl
        exact ih hl'

/-- What is reached does not depend on relocations of earlier symbols. -/
theorem reachedFrom_congr {relocs relocs' : List Reloc} {syms : List Symbol}
    (h : ∀ p ∈ indexed i syms, tooMany opts relocs p = tooMany opts relocs' p) :
    reachedFrom opts relocs i syms = reachedFrom opts relocs' i syms := by
  unfold reachedFrom
  induction syms generalizing i with
  | nil => rfl
  | cons sym syms ih =>
      rw [indexed] at h ⊢
      obtain ⟨hhead, htail⟩ := List.forall_mem_cons.mp h
      rw [List.takeWhile_cons, List.takeWhile_cons, hhead]
      split
      · rw [List.map_cons, List.map_cons, ih htail]
      · rfl

theorem Stored.reachedFrom_eq (h : Stored opts i sym t t') {j : ℕ} {syms : List Symbol}
    (hj : i < j) (hlt : j + (syms.map fun sym => 1 + sym.numaux.toNat).sum < 2 ^ 32) :
    reachedFrom opts t'.relocs j syms = reachedFrom opts t.relocs j syms := by
  cases h with
  | skipped he => rfl
  | exported names he => rfl
  | unres f he hf =>
      refine reachedFrom_congr fun p hp => ?_
      obtain ⟨hlo, hhi⟩ := mem_indexed hp
      have hne : decide (p.1 = i) = false := decide_eq_false fun hc => by omega
      unfold tooMany
      dsimp only
      rw [markProcessed_eq, relocsTo_markWhere hne (by omega)]

theorem storeLoop_expsym {syms : List Symbol}
    (hlt : i + (syms.map fun sym => 1 + sym.numaux.toNat).sum < 2 ^ 32) :
    (∀ s ∈ (storeLoop opts i syms t).expsym.log, s.Inside) ↔
      (∀ s ∈ t.expsym.log, s.Inside) ∧ FitTable t.expsym.size t.expsym.maxsize
        (exportsFrom opts t.names (reachedFrom opts t.relocs i syms)) := by
  induction syms generalizing i t with
  | nil => exact (and_iff_left trivial).symm
  | cons sym syms ih =>
      rw [List.map_cons, List.sum_cons, ← Nat.add_assoc] at hlt
      rw [storeLoop, reachedFrom, indexed, List.takeWhile_cons]
      obtain ⟨hstep, hmany⟩ | ⟨hfew, t', hstep, hstored⟩ := storeStep_cases opts i sym t
      · rw [hstep, hmany]
        exact (and_iff_left trivial).symm
      · rw [hstep, hfew]
        dsimp only
        have hreached := hstored.reachedFrom_eq (j := i + (1 + sym.numaux.toNat)) (by omega) hlt
        rw [ih hlt, hreached, Bool.not_false, if_pos rfl, List.map_cons]
        change _ ↔ _ ∧ FitTable _ _ (exportsFrom opts t.names
          (sym :: reachedFrom opts t.relocs (i + (1 + sym.numaux.toNat)) syms))
        rw [exportsFrom]
        cases hstored with
        | skipped he => rw [he]
        | unres f he hf => rw [he]
        | exported names he =>
            rw [he]
            obtain ⟨hsize, hmax⟩ := storeExport_size ⟨sym.value, sym.name.bytes⟩ t.expsym
            dsimp only
            rw [storeExport_inside, hsize, hmax, and_assoc]
            exact Iff.rfl

theorem extent_cons (e : Export) (es : List Export) :
    extent (e :: es) = e.encode.length + extent es := List.sum_cons

theorem blocks_of_le {m n : ℕ} (hle : m ≤ n) (hn : n ≤ (m + 1023) / 1024 * 1024) :
    (n + 1023) / 1024 = (m + 1023) / 1024 := by
  refine Nat.le_antisymm ?_ (Nat.div_le_div_right (Nat.add_le_add_right hle 1023))
  rw [Nat.div_le_iff_le_mul_add_pred (by decide)]
  omega

theorem blocks_of_lt {m n : ℕ} (hlt : (m + 1023) / 1024 * 1024 < n)
    (hn : n ≤ (m + 1023) / 1024 * 1024 + 1024) : (n + 1023) / 1024 = (m + 1023) / 1024 + 1 := by
  generalize (m + 1023) / 1024 = blocks at *
  omega

theorem fitTable_iff {size maxsize : ℕ} {es : List Export}
    (hmax : maxsize = (size + 1023) / 1024 * 1024) :
    FitTable size maxsize es ↔ ∀ before e, before ++ [e] <+: es →
      size + extent (before ++ [e]) ≤ (size + extent before + 1023) / 1024 * 1024 + 1024 := by
  induction es generalizing size maxsize with
  | nil =>
      refine iff_of_true trivial fun before e h => ?_
      exact absurd (List.prefix_nil.mp h)
        (List.append_ne_nil_of_right_ne_nil _ (List.cons_ne_nil _ _))
  | cons e es ih =>
      have hgrown (hfit : size + e.encode.length ≤ maxsize + 1024) :
          (if maxsize < size + e.encode.length then maxsize + 1024 else maxsize) =
            (size + e.encode.length + 1023) / 1024 * 1024 := by
        rw [hmax] at hfit ⊢
        split
        · next hlt => rw [blocks_of_lt hlt hfit, Nat.add_mul]
        · next hle => rw [blocks_of_le (Nat.le_add_right _ _) (Nat.le_of_not_lt hle)]
      rw [FitTable]
      constructor
      · rintro ⟨hfit, hrest⟩ before e' hprefix
        cases before with
        | nil =>
            obtain rfl : e' = e := (List.cons_prefix_cons.mp hprefix).1
            rw [List.nil_append, extent_cons, show extent [] = 0 from rfl, Nat.add_zero,
              Nat.add_zero, ← hmax]
            exact hfit
        | cons a before =>
            obtain ⟨rfl, htail⟩ := List.cons_prefix_cons.mp hprefix
            have hnext := (ih (hgrown hfit)).mp hrest before e' htail
            rw [List.cons_append, extent_cons, extent_cons, ← Nat.add_assoc, ← Nat.add_assoc]
            exact hnext
      · intro h
        have hfit : size + e.encode.length ≤ maxsize + 1024 := by
          have hhead := h [] e (List.cons_prefix_cons.mpr ⟨rfl, List.nil_prefix⟩)
          rw [List.nil_append, extent_cons, show extent [] = 0 from rfl, Nat.add_zero,
            Nat.add_zero, ← hmax] at hhead
          exact hhead
        refine ⟨hfit, (ih (hgrown hfit)).mpr fun before e' htail => ?_⟩
        have hnext := h (e :: before) e' (List.cons_prefix_cons.mpr ⟨rfl, htail⟩)
        rw [List.cons_append, extent_cons, extent_cons, ← Nat.add_assoc, ← Nat.add_assoc] at hnext
        exact hnext

theorem fitTable_zero_iff (es : List Export) : FitTable 0 0 es ↔ GrowsEnough es := by
  rw [fitTable_iff rfl]
  simp only [Nat.zero_add]
  exact Iff.rfl

theorem start_unresLaid (obj : Obj) (opts : Options) : UnresLaid (.start obj opts) [] where
  holds := ⟨rfl, .nil _ _⟩
  safe := ⟨Nat.le_refl _, fun _ h => absurd h List.not_mem_nil⟩
  meet := fun _ h => absurd h List.not_mem_nil

theorem genTables_expsym_iff (obj : Obj) (opts : Options) :
    (∀ s ∈ (genTables obj opts).expsym.log, s.Inside) ↔ GrowsEnough (reachedExports obj opts) := by
  have hlt := obj.nsyms_lt
  rw [genTables, storeLoop_expsym (by omega), ← fitTable_zero_iff]
  exact and_iff_right fun _ h => absurd h List.not_mem_nil

/-- The table of exported symbols is overrun just if an entry does not fit in 1024 more bytes. -/
theorem stores_contained_iff (obj : Obj) (opts : Options) :
    Contained (genTables obj opts) ↔ GrowsEnough (reachedExports obj opts) := by
  obtain ⟨un, hl⟩ : ∃ un, UnresLaid (genTables obj opts) un :=
    storeLoop_unresLaid (start_unresLaid obj opts)
  rw [← genTables_expsym_iff]
  exact ⟨fun h => h.expsym, fun h => ⟨hl.safe.inside, h, hl.meet, hl.holds.fills.apart⟩⟩

/-- The tables in memory are those of the generator. -/
structure Refines (t : GenTables) (g : Gen) : Prop where
  relocs : t.relocs = g.relocs
  names : t.names = g.names
  unres : UnresLaid t g.unres
  expsym : t.expsym.Holds g.expsym
  maxsize : t.expsym.maxsize = g.expsymMaxsize

variable {g g' : Gen}

theorem Refines.addUnres (hr : Refines t g) {name : CString}
    (h : addUnres opts i name g = .ok g') :
    ∃ t', storeUnres opts i name t = some t' ∧ Refines t' g' := by
  rw [storeUnres_eq, hr.relocs]
  unfold Dxe.addUnres at h
  dsimp only at h
  rw [if_congr unresEntry_empty_iff rfl rfl] at h
  by_cases hnone : relocsTo i g.relocs = []
  · rw [if_pos hnone] at h
    rw [if_pos (.inl hnone)]
    exact ⟨t, rfl, Except.ok.inj h ▸ hr⟩
  rw [if_neg hnone] at h
  cases hopt : opts.unresolved with
  | false =>
      rw [hopt] at h
      obtain rfl := Except.ok.inj h
      exact ⟨t, if_pos (.inr rfl), hr.relocs, hr.names, hr.unres, hr.expsym, hr.maxsize⟩
  | true =>
      rw [hopt] at h
      split at h
      · next hc => cases hc
      split at h
      · cases h
      next hfew =>
      obtain rfl := Except.ok.inj h
      have hnot : ¬ (relocsTo i g.relocs = [] ∨ true = false) := fun h => h.elim hnone nofun
      rw [if_neg hnot, if_neg hfew]
      obtain ⟨hmeet, hholds, hsafe⟩ := @storeEntry_spec i name _ _ _ _ rfl hr.unres.holds
        hr.unres.safe
      refine ⟨_, rfl, rfl, hr.names, ⟨hholds, hsafe, ?_⟩, hr.expsym, hr.maxsize⟩
      exact List.forall_mem_append.mpr ⟨hr.unres.meet, List.forall_mem_singleton.mpr hmeet⟩

theorem Refines.addExport (hr : Refines t g) {e : Export} {names : List (Option CString)}
    (h : addExport e { g with names := names } = .ok g') :
    Refines { t with names := names, expsym := storeExport e t.expsym } g' := by
  obtain ⟨-, rfl⟩ := addExport_ok h
  obtain ⟨-, hmax⟩ := storeExport_size e t.expsym
  refine ⟨hr.relocs, rfl, ⟨hr.unres.holds, hr.unres.safe, hr.unres.meet⟩,
    storeExport_holds e hr.expsym, ?_⟩
  rw [hmax, hr.maxsize, hr.expsym.size]

theorem Refines.symbolStep (hr : Refines t g) (h : symbolStep opts i sym g = .ok g') :
    ∃ t', storeStep opts i sym t = some t' ∧ Refines t' g' := by
  have hbss := updateBss_eq sym g
  have hkeep : ∀ a b : BitVec 32,
      Refines t { updateBss sym g with initOffset := a, finiOffset := b } := by
    rw [hbss]
    exact fun a b => ⟨hr.relocs, hr.names, hr.unres, hr.expsym, hr.maxsize⟩
  unfold Dxe.symbolStep at h
  dsimp only at h
  unfold storeStep
  split at h
  · next hname => exact ⟨t, if_pos hname, Except.ok.inj h ▸ hkeep _ _⟩
  next hname =>
  rw [if_neg hname]
  split at h
  · next hstat => exact ⟨t, if_pos hstat, Except.ok.inj h ▸ hkeep _ _⟩
  next hstat =>
  rw [if_neg hstat]
  split at h
  · next hscn =>
    rw [if_pos hscn]
    exact (hkeep _ _).addUnres h
  next hscn =>
  rw [if_neg hscn]
  split at h
  · next hext =>
    rw [if_pos hext]
    split at h
    · next hinit => exact ⟨t, if_pos hinit, Except.ok.inj h ▸ hkeep _ _⟩
    next hinit =>
    rw [if_neg hinit]
    split at h
    · next hfini => exact ⟨t, if_pos hfini, Except.ok.inj h ▸ hkeep _ _⟩
    next hfini =>
    rw [if_neg hfini, (hkeep g.initOffset g.finiOffset).names]
    cases hexport : exportName opts (updateBss sym g).names sym.name with
    | none =>
        rw [hexport] at h
        exact ⟨t, rfl, Except.ok.inj h ▸ hkeep _ _⟩
    | some names =>
        rw [hexport] at h
        exact ⟨_, rfl, (hkeep _ _).addExport h⟩
  · next hext => exact ⟨t, if_neg hext, Except.ok.inj h ▸ hkeep _ _⟩

theorem Refines.symbolLoop {syms : List Symbol} (hr : Refines t g)
    (h : symbolLoop opts i syms g = .ok g') : Refines (storeLoop opts i syms t) g' := by
  induction syms generalizing i t g with
  | nil => exact Except.ok.inj h ▸ hr
  | cons sym syms ih =>
      rw [Dxe.symbolLoop] at h
      cases hstep : Dxe.symbolStep opts i sym g with
      | error e =>
          rw [hstep] at h
          cases h
      | ok g₁ =>
          rw [hstep] at h
          obtain ⟨t₁, hstore, hr₁⟩ := hr.symbolStep hstep
          rw [storeLoop, hstore]
          exact ih hr₁ h

/-- What is in memory behind the loop is what goes into the file. -/
theorem genTables_refine {obj : Obj} (h : symbolLoop opts 0 obj.syms (.start obj opts) = .ok g) :
    Refines (genTables obj opts) g :=
  Refines.symbolLoop ⟨rfl, rfl, start_unresLaid obj opts, ⟨rfl, .nil _ _⟩, rfl⟩ h

theorem Table.Holds.memory {t : Table} {l : List UInt8} (h : t.Holds l) (mem : ℤ → UInt8) {n : ℕ}
    (hn : n < l.length) : l[n]? = some (t.log.foldl Store.perform mem n) :=
  h.fills.holds mem (Int.natCast_nonneg n) (Int.ofNat_lt.mpr hn)

theorem genTables_memory {obj : Obj} (h : symbolLoop opts 0 obj.syms (.start obj opts) = .ok g)
    (mem : ℤ → UInt8) :
    (∀ n < g.unres.length,
      g.unres[n]? = some ((genTables obj opts).unres.log.foldl Store.perform mem n)) ∧
    ∀ n < g.expsym.length,
      g.expsym[n]? = some ((genTables obj opts).expsym.log.foldl Store.perform mem n) :=
  have hr := genTables_refine h
  ⟨fun _ hn => hr.unres.holds.memory mem hn, fun _ hn => hr.expsym.memory mem hn⟩

/-- A reference to `_f`, and `_g` exported. -/
def shortExport : Obj where
  data := List.replicate 6 1
  syms := [⟨⟨[95, 102], by decide⟩, 0, 0, C_EXT, 0⟩, ⟨⟨[95, 103], by decide⟩, 2, 1, C_EXT, 0⟩]
  relocs := [⟨0, 0, RELOC_REL32⟩]
  size_lt := by decide
  nsyms_lt := by decide

def leaveUnresolved : Options := ⟨true, false, [], [], [], [], none⟩

theorem genTables_memory_short :
    (genTables shortExport leaveUnresolved).expsym.log.foldl Store.perform (fun _ => 0) 5 =
      103 := by
  obtain ⟨g, hloop, hbyte⟩ : ∃ g, symbolLoop leaveUnresolved 0 shortExport.syms
      (.start shortExport leaveUnresolved) = .ok g ∧ g.expsym[5]? = some 103 := ⟨_, rfl, rfl⟩
  have hmem := (genTables_memory hloop fun _ => 0).2 5 (List.getElem?_eq_some_iff.mp hbyte).1
  exact (Option.some.inj (hbyte.symm.trans hmem)).symm

def longExport : Obj where
  data := []
  syms := [⟨⟨List.replicate 1020 97, fun h => absurd (List.eq_of_mem_replicate h) (by decide)⟩, 0,
    1, C_EXT, 0⟩]
  relocs := []
  size_lt := by decide
  nsyms_lt := by decide

def exportAll : Options where
  unresolved := false
  nomissing := false
  names := []
  exportPrefixes := []
  exclPrefixes := []
  deps := []
  description := none

theorem not_growsEnough {offset : BitVec 32} {name : List UInt8} (h : 1020 ≤ name.length) :
    ¬ GrowsEnough [⟨offset, name⟩] := by
  intro hgrows
  have hfit := hgrows [] _ List.prefix_rfl
  rw [List.nil_append, extent_cons, Export.length_encode, show extent [] = 0 from rfl] at hfit
  dsimp only at hfit
  omega

theorem longExport_overrun : ¬ Contained (genTables longExport exportAll) := by
  have hexports : reachedExports longExport exportAll = [⟨0, List.replicate 1020 97⟩] := rfl
  intro h
  have hgrows := (genTables_expsym_iff longExport exportAll).mp h.expsym
  rw [hexports] at hgrows
  exact not_growsEnough (Nat.le_of_eq List.length_replicate.symm) hgrows

end DjgppLibc.Dxe
