import DjgppLibc.DxeImage

/-!
# From the object file to the loaded section

The generator and the loader agree on every module file that the generator can write without
storing beyond a table, but for undefined symbols without a name, whose relocations are not
taken out.
-/
namespace DjgppLibc.Dxe

open CStrings ByteMemory

structure ReadsBack (obj : Obj) (opts : Options) (m : Module) : Prop where
  deps : m.deps = opts.deps.map CString.bytes
  unres : m.unres = obj.unresolved
  relocs : m.relocs = obj.remaining
  exports : m.exports = exported obj opts
  image : ∀ base addr mem, (∀ u ∈ obj.unresolved, addr u.name ≠ 0) →
    ∃ mem', m.link base addr mem = some mem' ∧ Image obj base addr mem'

/-- The generator writes a file, and `dlopen` reads it back. -/
def Faithful (obj : Obj) (opts : Options) : Prop :=
  ∃ file m, writeDxe obj opts = .ok file ∧ readModule file = some m ∧ ReadsBack obj opts m

variable {obj : Obj} {opts : Options} {g : Gen}

theorem filterMap_eq_iff {α β : Type} {f f' : α → Option β} (hle : ∀ a, f a = none ∨ f a = f' a)
    {l : List α} :
    l.filterMap f = l.filterMap f' ↔ ∀ a ∈ l, f a = f' a := by
  have hlength : ∀ l : List α, (l.filterMap f).length ≤ (l.filterMap f').length := by
    intro l
    induction l with
    | nil => exact Nat.le_refl _
    | cons a l ih =>
        rw [List.filterMap_cons, List.filterMap_cons]
        obtain hnone | heq := hle a
        · rw [hnone]
          cases f' a with
          | none => exact ih
          | some b => exact Nat.le_succ_of_le ih
        · rw [heq]
          cases f' a with
          | none => exact ih
          | some b => exact Nat.succ_le_succ ih
  refine ⟨fun h => ?_, fun h => List.filterMap_congr h⟩
  induction l with
  | nil => exact fun a ha => absurd ha List.not_mem_nil
  | cons a l ih =>
      rw [List.filterMap_cons, List.filterMap_cons] at h
      obtain hnone | heq := hle a
      · rw [hnone] at h
        cases hf : f' a with
        | none =>
            rw [hf] at h
            exact List.forall_mem_cons.mpr ⟨hnone.trans hf.symm, ih h⟩
        | some b =>
            rw [hf] at h
            have hlen : (l.filterMap f).length = (l.filterMap f').length + 1 :=
              congrArg List.length h
            have hle := hlength l
            omega
      · rw [heq] at h
        refine List.forall_mem_cons.mpr ⟨heq, ih ?_⟩
        cases hf : f' a with
        | none =>
            rw [hf] at h
            exact h
        | some b =>
            rw [hf] at h
            exact (List.cons.inj h).2

theorem stored_eq_iff : obj.stored = obj.unresolved ↔ Named obj := by
  rw [Obj.stored, Obj.unresolved, filterMap_eq_iff]
  · refine forall_congr' fun p => forall_congr' fun _ => ?_
    rw [storedOf]
    constructor
    · intro h hundef hrefs hname
      rw [if_neg (not_not.mpr hname), entryOf, if_pos ⟨hundef, hrefs⟩] at h
      cases h
    · intro h
      by_cases hc : p.2.undefined = true ∧ relocsTo p.1 obj.relocs ≠ []
      · rw [if_pos (h hc.1 hc.2)]
      · rw [entryOf, if_neg hc, ite_self]
  · intro p
    rw [storedOf]
    split
    · exact .inr rfl
    · exact .inl rfl

theorem filter_markWhere (done : ℕ → Bool) (relocs : List Reloc) :
    ((markWhere done relocs).filter validReloc).map Reloc.vaddr =
      (relocs.filter fun r => validReloc r ∧ done r.symndx.toNat = false).map Reloc.vaddr := by
  induction relocs with
  | nil => rfl
  | cons r relocs ih =>
      rw [markWhere, List.map_cons, List.filter_cons, List.filter_cons]
      cases hdone : done r.symndx.toNat with
      | true =>
          have hprocessed : validReloc { r with symndx := PROCESSED } = false := by
            simp [validReloc]
          rw [if_pos rfl, hprocessed, if_neg Bool.false_ne_true, if_neg (by simp)]
          exact ih
      | false =>
          rw [if_neg Bool.false_ne_true]
          cases hvalid : validReloc r with
          | true =>
              rw [if_pos rfl, if_pos (by simp), List.map_cons, List.map_cons]
              exact congrArg (r.vaddr :: ·) ih
          | false =>
              rw [if_neg Bool.false_ne_true, if_neg (by simp)]
              exact ih

theorem remaining_eq (hg : Collected opts 0 obj.syms (.start obj opts) g) (hnamed : Named obj) :
    g.remaining = obj.remaining := by
  rw [Gen.remaining, hg.relocs, filter_markWhere, Obj.remaining]
  refine congrArg _ (List.filter_congr fun r hr => decide_eq_decide.mpr
    (and_congr_right fun _ => ?_))
  rw [undefinedAt_eq_none_iff]
  have heq : markedBy (indexed 0 obj.syms) r.symndx.toNat = refersTo (indexed 0 obj.syms) r := by
    rw [markedBy, refersTo, Bool.eq_iff_iff, List.any_eq_true, List.any_eq_true]
    refine exists_congr fun p => and_congr_right fun hp => ?_
    rw [decide_eq_true_iff, decide_eq_true_iff, marks, decide_eq_true_iff]
    refine and_congr_right fun hindex => ⟨fun h => h.1, fun hundef => ⟨hundef, ?_⟩⟩
    refine hnamed p hp hundef (List.ne_nil_of_mem (a := r) ?_)
    exact List.mem_filter.mpr ⟨hr, decide_eq_true hindex.symm⟩
  rw [heq]

theorem bssFrom_le (start : ℕ) (syms : List Symbol) : bssFrom start syms ≤ start := by
  induction syms generalizing start with
  | nil => exact Nat.le_refl _
  | cons sym syms ih =>
      refine (ih _).trans ?_
      split
      · exact Nat.min_le_left _ _
      · exact Nat.le_refl _

/-- A file has been written without errors. -/
theorem writeDxe_ok {file : List UInt8} (h : writeDxe obj opts = .ok file) :
    ∃ g, Collected opts 0 obj.syms (.start obj opts) g ∧ file = moduleFile obj opts g := by
  unfold writeDxe at h
  cases hloop : symbolLoop opts 0 obj.syms (.start obj opts) with
  | error e =>
      rw [hloop] at h
      cases h
  | ok g =>
      rw [hloop] at h
      dsimp only at h
      by_cases herr : errcount opts g = 0
      · rw [if_neg (not_not.mpr herr)] at h
        have hzero : g.errcount = 0 := by
          unfold errcount at herr
          split at herr
          · omega
          · exact Int.ofNat_eq_zero.mp herr
        have hlt := obj.nsyms_lt
        have hcollects := (symbolLoop_collects (by omega) hloop).2 hzero
        exact ⟨g, hcollects, (Except.ok.inj h).symm⟩
      · rw [if_pos herr] at h
        cases h

/-- When nothing is stored beyond the table, `write_dxe` ends in a file or with an exit. -/
theorem writeDxe_ne_overrun (hfits : Fits obj opts) : writeDxe obj opts ≠ .error .overrun := by
  intro h
  unfold writeDxe at h
  cases hloop : symbolLoop opts 0 obj.syms (.start obj opts) with
  | error e =>
      rw [hloop] at h
      rw [Except.error.inj h] at hloop
      exact symbolLoop_overrun hloop hfits
  | ok g =>
      rw [hloop] at h
      dsimp only at h
      split at h
      · cases h
      · cases h

/-- Where `write_dxe` does not give up, the module that is loaded is the one of the object
file, if and only if each exported symbol fits in the table and each referenced undefined
symbol has a name. -/
theorem writeDxe_faithful_iff (obj : Obj) (opts : Options) (hfields : obj.FieldsApart)
    (hexit : ∀ code, writeDxe obj opts ≠ .error (.exit code))
    (hsize : ∀ file, writeDxe obj opts = .ok file → file.length < 2 ^ 31) :
    Faithful obj opts ↔ Fits obj opts ∧ Named obj := by
  have hread : ∀ {file}, writeDxe obj opts = .ok file → ∃ g,
      Collected opts 0 obj.syms (.start obj opts) g ∧ readModule file =
        some (collected obj opts g) := by
    intro file hfile
    obtain ⟨g, hg, rfl⟩ := writeDxe_ok hfile
    refine ⟨g, hg, readModule_moduleFile hg ?_ (hsize _ hfile)⟩
    rw [hg.startbss]
    exact bssFrom_le _ _
  constructor
  · rintro ⟨file, m, hfile, hm, hback⟩
    obtain ⟨g, hg, hg'⟩ := hread hfile
    obtain rfl := Option.some.inj (hg'.symm.trans hm)
    exact ⟨hg.fit, stored_eq_iff.mp hback.unres⟩
  · rintro ⟨hfits, hnamed⟩
    cases hfile : writeDxe obj opts with
    | error e =>
        cases e with
        | exit code => exact absurd hfile (hexit code)
        | overrun => exact absurd hfile (writeDxe_ne_overrun hfits)
    | ok file =>
        obtain ⟨g, hg, hm⟩ := hread hfile
        have hunres : (collected obj opts g).unres = obj.unresolved := stored_eq_iff.mpr hnamed
        have hrelocs : (collected obj opts g).relocs = obj.remaining := remaining_eq hg hnamed
        have hdata : (collected obj opts g).data = obj.data.take obj.bssStart :=
          congrArg (obj.data.take ·) hg.startbss
        refine ⟨file, _, hfile, hm, rfl, hunres, hrelocs, rfl, fun base addr mem haddr => ?_⟩
        rw [← hunres] at haddr
        exact ⟨_, Module.link_eq haddr, link_image hfields hunres hrelocs hdata rfl⟩

theorem fits_of_short (hshort : ∀ e ∈ exported obj opts, e.name.length ≤ 1019) : Fits obj opts := by
  have hfit : ∀ (es : List Export) (size maxsize : ℕ), size ≤ maxsize →
      (∀ e ∈ es, e.name.length ≤ 1019) →
      FitTable size maxsize es := by
    intro es
    induction es with
    | nil => exact fun _ _ _ _ => trivial
    | cons e es ih =>
        intro size maxsize hle hes
        have hlen : e.encode.length = e.name.length + 5 := by simp [Export.encode, ByteTables.le32]
        have he := hes e (List.mem_cons_self ..)
        refine ⟨by omega, ih _ _ ?_ fun e' he' => hes e' (List.mem_cons_of_mem e he')⟩
        split <;> omega
  exact hfit _ 0 0 (Nat.le_refl 0) hshort

/-- A module with a relative reference to `_f`, the absolute address of `_g`, and a BSS. -/
def smallObj : Obj where
  data := List.replicate 12 1
  syms := [⟨⟨ascii "_f", by decide⟩, 0, 0, C_EXT, 0⟩, ⟨⟨ascii "_g", by decide⟩, 2, 1, C_EXT, 0⟩,
    ⟨⟨ascii ".bss", by decide⟩, 8, 1, C_STAT, 1⟩]
  relocs := [⟨0, 0, RELOC_REL32⟩, ⟨4, 1, 6⟩]
  size_lt := by decide
  nsyms_lt := by decide

def smallOptions : Options where
  unresolved := true
  nomissing := false
  names := []
  exportPrefixes := []
  exclPrefixes := []
  deps := [⟨ascii "d.dxe", by decide⟩]
  description := none

theorem writeDxe_faithful_small : Faithful smallObj smallOptions := by
  have hok : (writeDxe smallObj smallOptions).toOption.map List.length = some 125 := by
    decide +kernel
  have hnames : ((indexed 0 smallObj.syms).all fun p => decide (p.2.name.bytes ≠ [])) = true := by
    decide
  refine (writeDxe_faithful_iff smallObj smallOptions ⟨by decide, ?_⟩
    (fun code h => ?_) fun file h => ?_).mpr
    ⟨fits_of_short (by decide), fun p hp _ _ => of_decide_eq_true (List.all_eq_true.mp hnames p hp)⟩
  · exact List.pairwise_pair.mpr (.inl (by decide))
  · rw [h] at hok
    cases hok
  · rw [h] at hok
    rw [Option.some.inj hok]
    decide

def overruns {α : Type} : Except Stop α → Bool
  | .error .overrun => true
  | .error (.exit _) => false
  | .ok _ => false

theorem overruns_iff {α : Type} {x : Except Stop α} : overruns x = true ↔ x = .error .overrun := by
  unfold overruns
  split <;> simp_all

theorem longName_noNul : 0 ∉ List.replicate 1020 (97 : UInt8) :=
  fun h => absurd (List.eq_of_mem_replicate h) (by decide)

def longNameObj : Obj where
  data := List.replicate 4 1
  syms := [⟨⟨List.replicate 1020 97, longName_noNul⟩, 0, 1, C_EXT, 0⟩]
  relocs := []
  size_lt := by decide
  nsyms_lt := by decide

theorem writeDxe_longName :
    longNameObj.FieldsApart ∧ (∀ code, writeDxe longNameObj smallOptions ≠ .error (.exit code)) ∧
      writeDxe longNameObj smallOptions = .error .overrun ∧
      ¬ Faithful longNameObj smallOptions := by
  have hover : writeDxe longNameObj smallOptions = .error .overrun :=
    overruns_iff.mp (by decide +kernel)
  refine ⟨⟨by decide, List.Pairwise.nil⟩, fun code h => ?_, hover, ?_⟩
  · rw [hover] at h
    cases h
  · rintro ⟨file, m, hfile, -⟩
    rw [hover] at hfile
    cases hfile

end DjgppLibc.Dxe
