import Mathlib.Algebra.BigOperators.Group.List.Basic
import DjgppLibc.Dxe3gen

/-!
# What the generator collects

The symbols have indices, since auxiliary entries stand between them. `unresolved`,
`remaining` and `exported` say what a module file is to contain, from the object file alone,
and `symbolLoop_collects` that the loop over the symbols collects it. The differences are
symbols without a name, which the loop leaves out, and entries of exported symbols that are
larger than the table grows.
-/
namespace DjgppLibc.Dxe

open ByteTables CStrings

def indexed : ℕ → List Symbol → List (ℕ × Symbol)
  | _, [] => []
  | i, sym :: syms => (i, sym) :: indexed (i + (1 + sym.numaux.toNat)) syms

def Symbol.undefined (sym : Symbol) : Bool := sym.scnum = 0 ∧ sym.sclass ≠ C_STAT

def entryOf (relocs : List Reloc) (p : ℕ × Symbol) : Option Unres :=
  if p.2.undefined ∧ relocsTo p.1 relocs ≠ [] then some (unresEntry p.2.name (relocsTo p.1 relocs))
    else none

def Obj.unresolved (obj : Obj) : List Unres := (indexed 0 obj.syms).filterMap (entryOf obj.relocs)

def Obj.undefinedAt (obj : Obj) (r : Reloc) : Option Symbol :=
  ((indexed 0 obj.syms).find? fun p => p.1 = r.symndx.toNat ∧ p.2.undefined).map Prod.snd

def Obj.remaining (obj : Obj) : List (BitVec 32) :=
  (obj.relocs.filter fun r => validReloc r ∧ obj.undefinedAt r = none).map Reloc.vaddr

/-- A symbol that is exported, with what is left of `export_names`. -/
def exportOf (opts : Options) (names : List (Option CString)) (sym : Symbol) :
    Option (List (Option CString)) :=
  if sym.name.bytes ≠ [] ∧ sym.sclass = C_EXT ∧ sym.scnum ≠ 0 ∧ sym.name.bytes ≠ ascii "_init" ∧
      sym.name.bytes ≠ ascii "_fini" then
    exportName opts names sym.name
  else none

def exportsFrom (opts : Options) : List (Option CString) → List Symbol → List Export
  | _, [] => []
  | names, sym :: syms =>
      match exportOf opts names sym with
      | none => exportsFrom opts names syms
      | some names => ⟨sym.value, sym.name.bytes⟩ :: exportsFrom opts names syms

def exported (obj : Obj) (opts : Options) : List Export :=
  exportsFrom opts (opts.names.map some) obj.syms

def bssFrom : ℕ → List Symbol → ℕ
  | start, [] => start
  | start, sym :: syms =>
      bssFrom (if sym.name.bytes = ascii ".bss" then min start sym.value.toNat else start) syms

def Obj.bssStart (obj : Obj) : ℕ := bssFrom obj.data.length obj.syms

/-- No entry is larger than what the table of exported symbols grows by. -/
def FitTable : ℕ → ℕ → List Export → Prop
  | _, _, [] => True
  | size, maxsize, e :: es =>
      size + e.encode.length ≤ maxsize + 1024 ∧
        FitTable (size + e.encode.length)
          (if maxsize < size + e.encode.length then maxsize + 1024 else maxsize) es

def Fits (obj : Obj) (opts : Options) : Prop := FitTable 0 0 (exported obj opts)

def Named (obj : Obj) : Prop :=
  ∀ p ∈ indexed 0 obj.syms, p.2.undefined = true → relocsTo p.1 obj.relocs ≠ [] →
    p.2.name.bytes ≠ []

def storedOf (relocs : List Reloc) (p : ℕ × Symbol) : Option Unres :=
  if p.2.name.bytes ≠ [] then entryOf relocs p else none

def marks (p : ℕ × Symbol) : Bool := p.2.undefined ∧ p.2.name.bytes ≠ []

def markWhere (done : ℕ → Bool) (relocs : List Reloc) : List Reloc :=
  relocs.map fun r => if done r.symndx.toNat then { r with symndx := PROCESSED } else r

def markedBy (l : List (ℕ × Symbol)) (n : ℕ) : Bool := l.any fun p => p.1 = n ∧ marks p

theorem markWhere_false (relocs : List Reloc) : markWhere (fun _ => false) relocs = relocs :=
  List.map_id'' (fun _ => rfl) relocs

theorem markWhere_markWhere (p q : ℕ → Bool) (relocs : List Reloc) :
    markWhere q (markWhere p relocs) = markWhere (fun n => p n || q n) relocs := by
  unfold markWhere
  rw [List.map_map]
  refine List.map_congr_left fun r _ => ?_
  cases hp : p r.symndx.toNat <;> simp [hp]

theorem markProcessed_eq (i : ℕ) (relocs : List Reloc) :
    markProcessed i relocs = markWhere (fun n => n = i) relocs := by
  simp [markProcessed, markWhere]

/-- Marks do not change the references to other symbols. -/
theorem relocsTo_markWhere {done : ℕ → Bool} {j : ℕ} (hj : done j = false) (hlt : j < 2 ^ 32 - 1)
    (relocs : List Reloc) : relocsTo j (markWhere done relocs) = relocsTo j relocs := by
  induction relocs with
  | nil => rfl
  | cons r relocs ih =>
      have htail : relocsTo j (markWhere done (r :: relocs)) =
          relocsTo j [if done r.symndx.toNat then { r with symndx := PROCESSED } else r] ++
            relocsTo j relocs := by
        rw [← ih]
        exact List.filter_append [_] _
      have hhead : relocsTo j [if done r.symndx.toNat then { r with symndx := PROCESSED } else r] =
          relocsTo j [r] := by
        by_cases hr : r.symndx.toNat = j
        · rw [hr, hj, if_neg Bool.false_ne_true]
        · split
          · have hne : PROCESSED.toNat ≠ j := by
              show 2 ^ 32 - 1 ≠ j
              omega
            simp [relocsTo, hr, hne]
          · rfl
      rw [htail, hhead]
      exact (List.filter_append [r] _).symm

theorem mem_indexed {i : ℕ} {syms : List Symbol} {p : ℕ × Symbol} (h : p ∈ indexed i syms) :
    i ≤ p.1 ∧ p.1 < i + (syms.map fun sym => 1 + sym.numaux.toNat).sum := by
  induction syms generalizing i with
  | nil => cases h
  | cons sym syms ih =>
      rw [List.map_cons, List.sum_cons]
      obtain rfl | h := List.mem_cons.mp h
      · dsimp only
        omega
      · have hih := ih h
        omega

variable {opts : Options} {i : ℕ} {sym : Symbol} {g g' : Gen}

/-- What a symbol does to the tables, if it is no error. -/
inductive Collects (opts : Options) (i : ℕ) (sym : Symbol) (g : Gen) : Gen → Prop
  | skipped (a b : BitVec 32) (hu : storedOf g.relocs (i, sym) = none)
      (he : exportOf opts g.names sym = none) :
      Collects opts i sym g { updateBss sym g with initOffset := a, finiOffset := b }
  | stored (u : Unres) (hu : storedOf g.relocs (i, sym) = some u)
    (he : exportOf opts g.names sym = none)
      (hrel : u.rel.length ≤ 0xffff) (habs : u.abs.length ≤ 0xffff) :
      Collects opts i sym g { updateBss sym g with
        nUnres := g.nUnres + 1
        unres := g.unres ++ u.encode
        relocs := markProcessed i g.relocs }
  | exported (names : List (Option CString)) (e : Export) (hu : storedOf g.relocs (i, sym) = none)
      (he : exportOf opts g.names sym = some names) (heq : e = ⟨sym.value, sym.name.bytes⟩)
      (hfit : g.expsym.length + e.encode.length ≤ g.expsymMaxsize + 1024) :
      Collects opts i sym g { updateBss sym g with
        names := names
        nExp := g.nExp + 1
        expsym := g.expsym ++ e.encode
        expsymMaxsize := if g.expsymMaxsize < g.expsym.length + e.encode.length
          then g.expsymMaxsize + 1024
          else g.expsymMaxsize }

theorem updateBss_eq (sym : Symbol) (g : Gen) :
    updateBss sym g = { g with
      startbss := if sym.name.bytes = ascii ".bss" then min g.startbss sym.value.toNat
      else g.startbss } := by
  unfold updateBss
  by_cases hname : sym.name.bytes = ascii ".bss"
  · by_cases hlt : sym.value.toNat < g.startbss
    · rw [if_pos ⟨hname, hlt⟩, if_pos hname, Nat.min_eq_right (Nat.le_of_lt hlt)]
    · rw [if_neg fun h => hlt h.2, if_pos hname, Nat.min_eq_left (Nat.le_of_not_lt hlt)]
  · rw [if_neg fun h => hname h.1, if_neg hname]

/-- The entry of a symbol without references. -/
theorem unresEntry_empty_iff {name : CString} {refs : List Reloc} :
    (unresEntry name refs).rel = [] ∧ (unresEntry name refs).abs = [] ↔ refs = [] := by
  constructor
  · rintro ⟨hrel, habs⟩
    cases refs with
    | nil => rfl
    | cons r refs => by_cases hr : r.type = RELOC_REL32 <;> simp [unresEntry, hr] at hrel habs
  · rintro rfl
    exact ⟨rfl, rfl⟩

theorem addUnres_cases {name : CString} (h : addUnres opts i name g = .ok g') :
    relocsTo i g.relocs = [] ∧ g' = g ∨
      g' = { g with nUnres := g.nUnres + 1, errcount := g.errcount + 1 } ∨
      relocsTo i g.relocs ≠ [] ∧ (unresEntry name (relocsTo i g.relocs)).rel.length ≤ 0xffff ∧
        (unresEntry name (relocsTo i g.relocs)).abs.length ≤ 0xffff ∧
        g' = { g with
          nUnres := g.nUnres + 1
          unres := g.unres ++ (unresEntry name (relocsTo i g.relocs)).encode
          relocs := markProcessed i g.relocs } := by
  unfold addUnres at h
  dsimp only at h
  rw [if_congr unresEntry_empty_iff rfl rfl] at h
  by_cases hrefs : relocsTo i g.relocs = []
  · rw [if_pos hrefs] at h
    exact .inl ⟨hrefs, (Except.ok.inj h).symm⟩
  rw [if_neg hrefs] at h
  split at h
  · exact .inr (.inl (Except.ok.inj h).symm)
  split at h
  · cases h
  next hcounts =>
  rw [not_or, Nat.not_lt, Nat.not_lt] at hcounts
  exact .inr (.inr ⟨hrefs, hcounts.1, hcounts.2, (Except.ok.inj h).symm⟩)

theorem addExport_ok {e : Export} (h : addExport e g = .ok g') :
    g.expsym.length + e.encode.length ≤ g.expsymMaxsize + 1024 ∧
      g' = { g with
        nExp := g.nExp + 1
        expsym := g.expsym ++ e.encode
        expsymMaxsize := if g.expsymMaxsize < g.expsym.length + e.encode.length
          then g.expsymMaxsize + 1024
          else g.expsymMaxsize } := by
  dsimp only [addExport] at h
  by_cases hgrow : g.expsymMaxsize < g.expsym.length + e.encode.length
  · rw [if_pos hgrow] at h ⊢
    by_cases hover : g.expsymMaxsize + 1024 < g.expsym.length + e.encode.length
    · rw [if_pos hover] at h
      cases h
    · rw [if_neg hover] at h
      exact ⟨Nat.le_of_not_lt hover, (Except.ok.inj h).symm⟩
  · rw [if_neg hgrow, if_neg hgrow] at h
    rw [if_neg hgrow]
    exact ⟨by omega, (Except.ok.inj h).symm⟩

theorem symbolStep_cases (h : symbolStep opts i sym g = .ok g') :
    exportOf opts g.names sym = none ∧
        g' = { updateBss sym g with nUnres := g.nUnres + 1, errcount := g.errcount + 1 } ∨
      g'.errcount = g.errcount ∧ Collects opts i sym g g' := by
  have hbss := updateBss_eq sym g
  have herr : (updateBss sym g).errcount = g.errcount := by rw [hbss]
  have hrelocs : (updateBss sym g).relocs = g.relocs := by rw [hbss]
  have hnames : (updateBss sym g).names = g.names := by rw [hbss]
  unfold symbolStep at h
  dsimp only at h
  have hskip : ∀ {g₁ : Gen} (a b : BitVec 32), storedOf g.relocs (i, sym) = none →
      exportOf opts g.names sym = none →
      g₁ = { updateBss sym g with initOffset := a, finiOffset := b } →
      g₁.errcount = g.errcount ∧ Collects opts i sym g g₁ := by
    rintro g₁ a b hu he rfl
    exact ⟨herr, .skipped a b hu he⟩
  by_cases hname : sym.name.bytes = []
  · rw [if_pos hname] at h
    exact .inr (hskip _ _ (if_neg (not_not.mpr hname)) (if_neg fun hc => hc.1 hname)
      (Except.ok.inj h).symm)
  rw [if_neg hname] at h
  have hstored : ∀ p, sym.undefined = p → storedOf g.relocs (i, sym) =
      if p ∧ relocsTo i g.relocs ≠ [] then some (unresEntry sym.name (relocsTo i g.relocs))
        else none := by
    rintro p rfl
    exact if_pos hname
  by_cases hstat : sym.sclass = C_STAT
  · rw [if_pos hstat] at h
    have hu := hstored false (by simp [Symbol.undefined, hstat])
    rw [if_neg fun hc => Bool.false_ne_true hc.1] at hu
    exact .inr (hskip _ _ hu (if_neg fun hc => by simp [hstat, C_STAT, C_EXT] at hc)
      (Except.ok.inj h).symm)
  rw [if_neg hstat] at h
  by_cases hscn : sym.scnum = 0
  · rw [if_pos hscn] at h
    have hu := hstored true (by simp [Symbol.undefined, hstat, hscn])
    have he : exportOf opts g.names sym = none := if_neg fun hc => hc.2.2.1 hscn
    obtain ⟨hrefs, rfl⟩ | rfl | ⟨hrefs, hrel, habs, rfl⟩ := addUnres_cases h
    · rw [hrelocs] at hrefs
      rw [if_neg fun hc => hc.2 hrefs] at hu
      exact .inr (hskip _ _ hu he rfl)
    · refine .inl ⟨he, ?_⟩
      rw [hbss]
    · rw [hrelocs] at hrefs hrel habs
      rw [if_pos ⟨rfl, hrefs⟩] at hu
      refine .inr ⟨herr, ?_⟩
      have hc := Collects.stored _ hu he hrel habs
      rw [hbss] at hc ⊢
      exact hc
  rw [if_neg hscn] at h
  have hu := hstored false (decide_eq_false fun hc => hscn hc.1)
  rw [if_neg fun hc => Bool.false_ne_true hc.1] at hu
  by_cases hext : sym.sclass = C_EXT
  · rw [if_pos hext] at h
    by_cases hinit : sym.name.bytes = ascii "_init"
    · rw [if_pos hinit] at h
      exact .inr (hskip _ _ hu (if_neg fun hc => hc.2.2.2.1 hinit) (Except.ok.inj h).symm)
    rw [if_neg hinit] at h
    by_cases hfini : sym.name.bytes = ascii "_fini"
    · rw [if_pos hfini] at h
      exact .inr (hskip _ _ hu (if_neg fun hc => hc.2.2.2.2 hfini) (Except.ok.inj h).symm)
    rw [if_neg hfini, hnames] at h
    have he : exportOf opts g.names sym = exportName opts g.names sym.name :=
      if_pos ⟨hname, hext, hscn, hinit, hfini⟩
    cases hexport : exportName opts g.names sym.name with
    | none =>
        rw [hexport] at h he
        exact .inr (hskip _ _ hu he (Except.ok.inj h).symm)
    | some names =>
        rw [hexport] at h he
        have hexport : addExport ⟨sym.value, sym.name.bytes⟩
          { updateBss sym g with names := names } = .ok g' := h
        rw [hbss] at hexport
        obtain ⟨hfit, rfl⟩ := addExport_ok hexport
        have hc := Collects.exported names _ hu he rfl hfit
        rw [hbss] at hc
        exact .inr ⟨rfl, hc⟩
  · rw [if_neg hext] at h
    exact .inr (hskip _ _ hu (if_neg fun hc => hext hc.2.1) (Except.ok.inj h).symm)

theorem markWhere_of_relocsTo {relocs : List Reloc} (h : relocsTo i relocs = []) :
    markWhere (fun n => n = i) relocs = relocs := by
  refine (List.map_congr_left fun r hr => ?_).trans (List.map_id relocs)
  have hne := List.filter_eq_nil_iff.mp h r hr
  rw [if_neg hne]
  rfl

theorem markedBy_cons (p : ℕ × Symbol) (l : List (ℕ × Symbol)) (n : ℕ) :
    markedBy (p :: l) n = (markedBy [p] n || markedBy l n) := by
  rw [markedBy, List.any_cons, markedBy, markedBy, List.any_cons, List.any_nil, Bool.or_false]

theorem Collects.relocs_eq (h : Collects opts i sym g g') :
    g'.relocs = markWhere (markedBy [(i, sym)]) g.relocs := by
  have hmarks : marks (i, sym) = true → markedBy [(i, sym)] = fun n => decide (n = i) := by
    intro hm
    funext n
    rw [markedBy, List.any_cons, List.any_nil, Bool.or_false]
    exact decide_eq_decide.mpr ⟨fun h => h.1.symm, fun h => ⟨h.symm, hm⟩⟩
  have hnot : marks (i, sym) = false → markedBy [(i, sym)] = fun _ => false := by
    intro hm
    funext n
    simp [markedBy, hm]
  have hskip : storedOf g.relocs (i, sym) = none → g.relocs =
      markWhere (markedBy [(i, sym)]) g.relocs := by
    intro hu
    cases hm : marks (i, sym) with
    | false => rw [hnot hm, markWhere_false]
    | true =>
        obtain ⟨hundef, hname⟩ := of_decide_eq_true hm
        rw [hmarks hm, markWhere_of_relocsTo]
        by_contra hrefs
        rw [storedOf, if_pos hname, entryOf, if_pos ⟨hundef, hrefs⟩] at hu
        cases hu
  have hbss := updateBss_eq sym g
  cases h with
  | skipped a b hu he =>
      rw [hbss]
      exact hskip hu
  | exported names e hu he heq hfit =>
      rw [hbss]
      exact hskip hu
  | stored u hu he hrel habs =>
      have hm : marks (i, sym) = true := by
        unfold storedOf entryOf at hu
        split at hu
        · next hname =>
          split at hu
          · next hc => exact decide_eq_true ⟨hc.1, hname⟩
          · cases hu
        · cases hu
      rw [hmarks hm]
      exact markProcessed_eq i g.relocs

/-- What the loop has added to the tables. -/
structure Collected (opts : Options) (i : ℕ) (syms : List Symbol) (g g' : Gen) : Prop where
  startbss : g'.startbss = bssFrom g.startbss syms
  relocs : g'.relocs = markWhere (markedBy (indexed i syms)) g.relocs
  nUnres : g'.nUnres = g.nUnres + ((indexed i syms).filterMap (storedOf g.relocs)).length
  unres : g'.unres = g.unres ++ ((indexed i syms).filterMap (storedOf g.relocs)).flatMap
    Unres.encode
  counts : ∀ u ∈ (indexed i syms).filterMap (storedOf g.relocs),
    u.rel.length ≤ 0xffff ∧ u.abs.length ≤ 0xffff
  nExp : g'.nExp = g.nExp + (exportsFrom opts g.names syms).length
  expsym : g'.expsym = g.expsym ++ (exportsFrom opts g.names syms).flatMap Export.encode
  fit : FitTable g.expsym.length g.expsymMaxsize (exportsFrom opts g.names syms)

/-- The marks do not change what is stored for later symbols. -/
theorem storedOf_congr {syms : List Symbol} {j : ℕ} (hj : i < j)
    (hlt : j + (syms.map fun sym => 1 + sym.numaux.toNat).sum < 2 ^ 32) (relocs : List Reloc) :
    (indexed j syms).filterMap (storedOf (markWhere (markedBy [(i, sym)]) relocs)) =
      (indexed j syms).filterMap (storedOf relocs) := by
  refine List.filterMap_congr fun p hp => ?_
  obtain ⟨hlo, hhi⟩ := mem_indexed hp
  have hne : markedBy [(i, sym)] p.1 = false := by
    rw [markedBy, List.any_cons, List.any_nil, Bool.or_false]
    exact decide_eq_false fun hc => by omega
  rw [storedOf, storedOf, entryOf, entryOf, relocsTo_markWhere hne (by omega)]

theorem Collected.cons {syms : List Symbol} {g₁ : Gen} (h : Collects opts i sym g g₁)
    (hlt : i + (1 + sym.numaux.toNat) + (syms.map fun sym => 1 + sym.numaux.toNat).sum < 2 ^ 32)
    (hc : Collected opts (i + (1 + sym.numaux.toNat)) syms g₁ g') :
    Collected opts i (sym :: syms) g g' := by
  have hrelocs := h.relocs_eq
  have hstored : (indexed (i + (1 + sym.numaux.toNat)) syms).filterMap (storedOf g₁.relocs) =
      (indexed (i + (1 + sym.numaux.toNat)) syms).filterMap (storedOf g.relocs) := by
    rw [hrelocs]
    exact storedOf_congr (by omega) hlt g.relocs
  have hmark : g'.relocs = markWhere (markedBy (indexed i (sym :: syms))) g.relocs := by
    rw [hc.relocs, hrelocs, markWhere_markWhere]
    exact congrArg (markWhere · g.relocs) (funext fun n => (markedBy_cons _ _ n).symm)
  have hbss := updateBss_eq sym g
  obtain ⟨hcbss, -, hcn, hcu, hccounts, hcne, hcexp, hcfit⟩ := hc
  rw [hstored] at hcn hcu hccounts
  cases h with
  | skipped a b hu he =>
      rw [hbss] at hcbss hcn hcu hcne hcexp hcfit
      refine ⟨hcbss, hmark, ?_, ?_, ?_, ?_, ?_, ?_⟩
      · rw [indexed, List.filterMap_cons, hu]
        exact hcn
      · rw [indexed, List.filterMap_cons, hu]
        exact hcu
      · rw [indexed, List.filterMap_cons, hu]
        exact hccounts
      · rw [exportsFrom, he]
        exact hcne
      · rw [exportsFrom, he]
        exact hcexp
      · rw [exportsFrom, he]
        exact hcfit
  | stored u hu he hrel habs =>
      rw [hbss] at hcbss hcn hcu hcne hcexp hcfit
      refine ⟨hcbss, hmark, ?_, ?_, ?_, ?_, ?_, ?_⟩
      · rw [indexed, List.filterMap_cons, hu, List.length_cons, hcn]
        exact Nat.add_right_comm ..
      · rw [indexed, List.filterMap_cons, hu, List.flatMap_cons, ← List.append_assoc]
        exact hcu
      · rw [indexed, List.filterMap_cons, hu]
        exact List.forall_mem_cons.mpr ⟨⟨hrel, habs⟩, hccounts⟩
      · rw [exportsFrom, he]
        exact hcne
      · rw [exportsFrom, he]
        exact hcexp
      · rw [exportsFrom, he]
        exact hcfit
  | exported names e hu he heq hfit =>
      rw [hbss] at hcbss hcn hcu hcne hcexp hcfit
      refine ⟨hcbss, hmark, ?_, ?_, ?_, ?_, ?_, ?_⟩
      · rw [indexed, List.filterMap_cons, hu]
        exact hcn
      · rw [indexed, List.filterMap_cons, hu]
        exact hcu
      · rw [indexed, List.filterMap_cons, hu]
        exact hccounts
      · rw [exportsFrom, he, List.length_cons, hcne]
        exact Nat.add_right_comm ..
      · rw [exportsFrom, he, List.flatMap_cons, ← List.append_assoc, ← heq]
        exact hcexp
      · rw [exportsFrom, he, ← heq]
        dsimp only at hcfit
        rw [List.length_append] at hcfit
        exact ⟨hfit, hcfit⟩

theorem symbolLoop_collects {syms : List Symbol}
    (hlt : i + (syms.map fun sym => 1 + sym.numaux.toNat).sum < 2 ^ 32)
    (h : symbolLoop opts i syms g = .ok g') :
    g.errcount ≤ g'.errcount ∧ (g'.errcount = g.errcount → Collected opts i syms g g') := by
  induction syms generalizing i g with
  | nil =>
      obtain rfl := Except.ok.inj h
      refine ⟨Nat.le_refl _, fun _ => ⟨rfl, (markWhere_false _).symm, rfl, ?_, ?_, rfl, ?_,
        trivial⟩⟩
      · exact (List.append_nil _).symm
      · exact fun u hu => absurd hu List.not_mem_nil
      · exact (List.append_nil _).symm
  | cons sym syms ih =>
      rw [List.map_cons, List.sum_cons, ← Nat.add_assoc] at hlt
      rw [symbolLoop] at h
      cases hstep : symbolStep opts i sym g with
      | error e =>
          rw [hstep] at h
          cases h
      | ok g₁ =>
          rw [hstep] at h
          obtain ⟨hle, hcollected⟩ := ih hlt h
          obtain ⟨-, rfl⟩ | ⟨herr, hcollects⟩ := symbolStep_cases hstep
          · dsimp only at hle
            exact ⟨by omega, fun heq => by omega⟩
          · refine ⟨by omega, fun heq => ?_⟩
            exact (hcollected (by omega)).cons hcollects hlt

theorem addUnres_ne_overrun {name : CString} : addUnres opts i name g ≠ .error .overrun := by
  intro h
  unfold addUnres at h
  dsimp only at h
  split at h
  · cases h
  split at h
  · cases h
  split at h
  · cases h
  · cases h

theorem symbolStep_overrun (h : symbolStep opts i sym g = .error .overrun) :
    ∃ names, exportOf opts g.names sym = some names ∧
      g.expsymMaxsize + 1024 < g.expsym.length +
      (Export.mk sym.value sym.name.bytes).encode.length := by
  have hbss := updateBss_eq sym g
  unfold symbolStep at h
  dsimp only at h
  split at h
  · cases h
  next hname =>
  split at h
  · cases h
  split at h
  · exact absurd h addUnres_ne_overrun
  next hscn =>
  split at h
  · next hext =>
    split at h
    · cases h
    next hinit =>
    split at h
    · cases h
    next hfini =>
    have he : exportOf opts g.names sym = exportName opts g.names sym.name :=
      if_pos ⟨hname, hext, hscn, hinit, hfini⟩
    rw [hbss] at h
    dsimp only at h
    cases hexport : exportName opts g.names sym.name with
    | none =>
        rw [hexport] at h
        cases h
    | some names =>
        rw [hexport] at h he
        refine ⟨names, he, ?_⟩
        by_contra hroom
        dsimp only [addExport] at h
        by_cases hgrow : g.expsymMaxsize < g.expsym.length +
          (Export.mk sym.value sym.name.bytes).encode.length
        · rw [if_pos hgrow, if_neg hroom] at h
          cases h
        · rw [if_neg hgrow, if_neg hgrow] at h
          cases h
  · cases h

theorem symbolLoop_overrun {syms : List Symbol} (h : symbolLoop opts i syms g = .error .overrun) :
    ¬ FitTable g.expsym.length g.expsymMaxsize (exportsFrom opts g.names syms) := by
  induction syms generalizing i g with
  | nil => cases h
  | cons sym syms ih =>
      rw [symbolLoop] at h
      cases hstep : symbolStep opts i sym g with
      | error e =>
          rw [hstep] at h
          obtain rfl := Except.error.inj h
          obtain ⟨names, he, hover⟩ := symbolStep_overrun hstep
          rw [exportsFrom, he]
          exact fun hfit => absurd hfit.1 (Nat.not_le_of_lt hover)
      | ok g₁ =>
          rw [hstep] at h
          have hih := ih h
          have hbss := updateBss_eq sym g
          rw [exportsFrom]
          obtain ⟨he, rfl⟩ | ⟨-, hcollects⟩ := symbolStep_cases hstep
          · rw [hbss] at hih
            rw [he]
            exact hih
          · cases hcollects with
            | skipped a b hu he =>
                rw [hbss] at hih
                rw [he]
                exact hih
            | stored u hu he hrel habs =>
                rw [hbss] at hih
                rw [he]
                exact hih
            | exported names e hu he heq hfit =>
                rw [hbss] at hih
                rw [he, ← heq]
                dsimp only at hih
                rw [List.length_append] at hih
                exact fun hall => hih hall.2

end DjgppLibc.Dxe
