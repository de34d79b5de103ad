import Mathlib.Data.List.Pairwise
import DjgppLibc.DxeReading

/-!
# The loaded section

`Image` says what the section holds once the module has been linked: each relocation has been
applied once, and all other bytes are as in the object file, with zeros from the start of the
BSS on. It holds for what is read back from a module file, and the file is read back as it
should be exactly if the undefined symbols have names and the exported symbols fit in their
table (`writeDxe_faithful_iff`).
-/
namespace DjgppLibc.Dxe

open ByteTables ByteMemory CStrings

def word (mem : Mem) (a : ℕ) : BitVec 32 := .ofNat 32 (load32 mem a)

def Obj.initial (obj : Obj) : Mem := fun x => (obj.data.take obj.bssStart).getD x 0

/-- The fields of the relocations are in the section and apart from each other. -/
structure Obj.FieldsApart (obj : Obj) : Prop where
  inside : ∀ r ∈ obj.relocs, r.vaddr.toNat + 4 ≤ obj.data.length
  apart : obj.relocs.Pairwise fun r r' => Apart r.vaddr.toNat r'.vaddr.toNat

def Obj.relocated (obj : Obj) (base : BitVec 32) (addr : List UInt8 → BitVec 32) (r : Reloc)
    (old : BitVec 32) : BitVec 32 :=
  match obj.undefinedAt r with
  | some sym =>
      if r.type = RELOC_REL32 then addr sym.name.bytes - (base + r.vaddr + 4)
      else old + addr sym.name.bytes
  | none => if validReloc r then old + base else old

structure Image (obj : Obj) (base : BitVec 32) (addr : List UInt8 → BitVec 32) (mem : Mem) :
    Prop where
  words : ∀ r ∈ obj.relocs,
    word mem (fixaddr base r.vaddr) = obj.relocated base addr r (word obj.initial r.vaddr.toNat)
  bytes : ∀ x < obj.data.length, (∀ r ∈ obj.relocs, x < r.vaddr.toNat ∨ r.vaddr.toNat + 4 ≤ x) →
    mem (base.toNat + x) = obj.initial x

variable {obj : Obj} {base : BitVec 32} {addr : List UInt8 → BitVec 32} {mem : Mem} {m : Module}

def relPatch (base target offset : BitVec 32) : Patch :=
  ⟨fixaddr base offset, fun _ => (target - .ofNat 32 (fixaddr base offset) - 4).toNat⟩

def addPatch (base value offset : BitVec 32) : Patch :=
  ⟨fixaddr base offset, fun old => old + value.toNat⟩

def unresPatches (base : BitVec 32) (addr : List UInt8 → BitVec 32) (u : Unres) : List Patch :=
  u.rel.map (relPatch base (addr u.name)) ++ u.abs.map (addPatch base (addr u.name))

def Module.patches (m : Module) (base : BitVec 32) (addr : List UInt8 → BitVec 32) : List Patch :=
  m.unres.flatMap (unresPatches base addr) ++ m.relocs.map (addPatch base base)

theorem resolve_eq (u : Unres) : resolve base addr mem u =
    (unresPatches base addr u).foldl Patch.apply mem := by
  rw [unresPatches, List.foldl_append, List.foldl_map, List.foldl_map]
  rfl

theorem Module.link_eq (haddr : ∀ u ∈ m.unres, addr u.name ≠ 0) :
    m.link base addr mem = some ((m.patches base addr).foldl Patch.apply (m.load base mem)) := by
  have hall : ¬ (m.unres.any fun u => decide (addr u.name = 0)) = true := by
    rw [List.any_eq_true]
    rintro ⟨u, hu, hzero⟩
    exact haddr u hu (of_decide_eq_true hzero)
  rw [Module.link, if_neg hall, Module.patches, List.foldl_append, List.foldl_map,
    List.foldl_flatMap]
  simp only [← resolve_eq]
  rfl

def Unres.offsets (u : Unres) : List (BitVec 32) := u.rel ++ u.abs

def Module.offsets (m : Module) : List (BitVec 32) := m.unres.flatMap Unres.offsets ++ m.relocs

theorem Module.map_addr_patches (m : Module) :
    (m.patches base addr).map Patch.addr = m.offsets.map (fixaddr base) := by
  have hu : ∀ u, (unresPatches base addr u).map Patch.addr = u.offsets.map (fixaddr base) := by
    intro u
    rw [unresPatches, Unres.offsets, List.map_append, List.map_append, List.map_map, List.map_map]
    rfl
  rw [Module.patches, Module.offsets, List.map_append, List.map_append, List.map_flatMap,
    List.map_flatMap,
    List.map_map]
  simp only [hu]
  rfl

theorem filter_or_perm {α : Type} {p q : α → Bool} {l : List α}
    (h : ∀ a ∈ l, p a = true → q a = false) :
    (l.filter fun a => p a || q a).Perm (l.filter p ++ l.filter q) := by
  have hp : (l.filter fun a => p a || q a).filter p = l.filter p := by
    rw [List.filter_filter]
    refine List.filter_congr fun a _ => ?_
    cases p a <;> simp
  have hq : ((l.filter fun a => p a || q a).filter fun a => !p a) = l.filter q := by
    rw [List.filter_filter]
    refine List.filter_congr fun a ha => ?_
    cases hpa : p a with
    | false => simp
    | true => simp [h a ha hpa]
  rw [← hp, ← hq]
  exact (List.filter_append_perm p _).symm

theorem unresEntry_offsets_perm (name : CString) (refs : List Reloc) :
    (unresEntry name refs).offsets.Perm (refs.map Reloc.vaddr) := by
  have hsplit := (List.filter_append_perm (fun r => decide (r.type = RELOC_REL32)) refs).map
    Reloc.vaddr
  rw [List.map_append] at hsplit
  refine ((List.Perm.refl _).append (List.reverse_perm _)).trans (List.Perm.trans ?_ hsplit)
  refine List.Perm.of_eq (congrArg (_ ++ List.map _ ·) (List.filter_congr fun r _ => ?_))
  simp

def refersTo (l : List (ℕ × Symbol)) (r : Reloc) : Bool :=
  l.any fun p => p.1 = r.symndx.toNat ∧ p.2.undefined

theorem refersTo_cons (p : ℕ × Symbol) (l : List (ℕ × Symbol)) (r : Reloc) :
    refersTo (p :: l) r = (refersTo [p] r || refersTo l r) := by
  rw [refersTo, List.any_cons, refersTo, refersTo, List.any_cons, List.any_nil, Bool.or_false]

theorem entry_offsets_perm (relocs : List Reloc) (p : ℕ × Symbol) :
    ((entryOf relocs p).toList.flatMap Unres.offsets).Perm
      ((relocs.filter (refersTo [p])).map Reloc.vaddr) := by
  have hrefers : ∀ r, refersTo [p] r = (decide (p.1 = r.symndx.toNat ∧ p.2.undefined)) :=
    fun r => by
    rw [refersTo, List.any_cons, List.any_nil, Bool.or_false]
  cases hu : p.2.undefined with
  | false =>
      have hnone : relocs.filter (refersTo [p]) = [] :=
        List.filter_eq_nil_iff.mpr fun r _ => by simp [hrefers, hu]
      rw [hnone, entryOf, hu, if_neg fun hc => Bool.false_ne_true hc.1]
      exact List.Perm.refl _
  | true =>
      have hrefs : relocs.filter (refersTo [p]) = relocsTo p.1 relocs :=
        List.filter_congr fun r _ => by
          rw [hrefers, hu]
          exact decide_eq_decide.mpr ⟨fun hc => hc.1.symm, fun hc => ⟨hc.symm, rfl⟩⟩
      rw [hrefs, entryOf, hu]
      by_cases hempty : relocsTo p.1 relocs = []
      · rw [if_neg fun hc => hc.2 hempty, hempty]
        exact List.Perm.refl _
      · rw [if_pos ⟨rfl, hempty⟩, Option.toList_some, List.flatMap_singleton]
        exact unresEntry_offsets_perm p.2.name _

theorem entries_offsets_perm (relocs : List Reloc) (i : ℕ) (syms : List Symbol) :
    (((indexed i syms).filterMap (entryOf relocs)).flatMap Unres.offsets).Perm
      ((relocs.filter (refersTo (indexed i syms))).map Reloc.vaddr) := by
  induction syms generalizing i with
  | nil => simp [indexed, refersTo]
  | cons sym syms ih =>
      have hdisjoint : ∀ r ∈ relocs, refersTo [(i, sym)] r = true →
          refersTo (indexed (i + (1 + sym.numaux.toNat)) syms) r = false := by
        intro r _ hr
        rw [refersTo, List.any_cons, List.any_nil, Bool.or_false] at hr
        obtain ⟨hi, -⟩ := of_decide_eq_true hr
        refine List.any_eq_false.mpr fun p hp hc => ?_
        obtain ⟨hp', -⟩ := of_decide_eq_true hc
        have hlo := (mem_indexed hp).1
        dsimp only at hi
        omega
      have hsplit := (filter_or_perm hdisjoint).map Reloc.vaddr
      have hfilter : relocs.filter (refersTo (indexed i (sym :: syms))) = relocs.filter fun r =>
          refersTo [(i, sym)] r || refersTo (indexed (i + (1 + sym.numaux.toNat)) syms) r :=
        List.filter_congr fun r _ => refersTo_cons _ _ r
      rw [hfilter, indexed, ← List.singleton_append, List.filterMap_append, List.flatMap_append]
      have hone : [(i, sym)].filterMap (entryOf relocs) = (entryOf relocs (i, sym)).toList := by
        cases h : entryOf relocs (i, sym) <;> simp [h]
      rw [hone]
      rw [List.map_append] at hsplit
      exact ((entry_offsets_perm relocs (i, sym)).append (ih _)).trans hsplit.symm

theorem undefinedAt_eq_none_iff {r : Reloc} :
    obj.undefinedAt r = none ↔ refersTo (indexed 0 obj.syms) r = false := by
  rw [Obj.undefinedAt, Option.map_eq_none_iff, List.find?_eq_none, refersTo, List.any_eq_false]

def Obj.applies (obj : Obj) (r : Reloc) : Bool := refersTo (indexed 0 obj.syms) r || validReloc r

/-- The offsets of the tables are those of the relocations that are applied. -/
theorem offsets_perm (obj : Obj) : (obj.unresolved.flatMap Unres.offsets ++ obj.remaining).Perm
    ((obj.relocs.filter obj.applies).map Reloc.vaddr) := by
  have hor : obj.relocs.filter obj.applies = obj.relocs.filter fun r =>
      refersTo (indexed 0 obj.syms) r || decide (validReloc r ∧ obj.undefinedAt r = none) := by
    refine List.filter_congr fun r _ => ?_
    rw [Obj.applies]
    cases h : refersTo (indexed 0 obj.syms) r with
    | true => rfl
    | false => simp [undefinedAt_eq_none_iff, h]
  have hsplit := (@filter_or_perm Reloc (refersTo (indexed 0 obj.syms))
    (fun r => decide (validReloc r ∧ obj.undefinedAt r = none)) obj.relocs fun r _ h => by
      simp [undefinedAt_eq_none_iff, h]).map Reloc.vaddr
  rw [List.map_append] at hsplit
  rw [hor]
  exact ((entries_offsets_perm obj.relocs 0 obj.syms).append_right _).trans hsplit.symm

theorem putAll_getD (mem : Mem) (a : ℕ) (bs : List UInt8) {x : ℕ} (hx : x < bs.length) :
    putAll mem a bs (a + x) = bs.getD x 0 := by
  induction bs generalizing mem a x with
  | nil => exact absurd hx (Nat.not_lt_zero x)
  | cons b bs ih =>
      rw [putAll]
      cases x with
      | zero =>
          rw [putAll_out _ _ _ (Or.inl (show a + 0 < a + 1 from Nat.lt_succ_self a))]
          exact put_same mem a b
      | succ x =>
          rw [show a + (x + 1) = a + 1 + x by omega, ih _ _ (Nat.lt_of_succ_lt_succ hx)]
          rfl

theorem load_eq_initial (hdata : m.data = obj.data.take obj.bssStart)
    (hsize : m.secSize = obj.data.length)
    {x : ℕ} (hx : x < obj.data.length) : m.load base mem (base.toNat + x) = obj.initial x := by
  rw [Module.load, Obj.initial, ← hdata, fill]
  by_cases hlt : x < m.data.length
  · rw [if_neg (by omega)]
    exact putAll_getD mem _ _ hlt
  · rw [if_pos (by omega), List.getD_eq_getElem?_getD,
      List.getElem?_eq_none (Nat.le_of_not_lt hlt), Option.getD_none]

theorem load32_load (hdata : m.data = obj.data.take obj.bssStart)
    (hsize : m.secSize = obj.data.length)
    {offset : BitVec 32} (hin : offset.toNat + 4 ≤ obj.data.length) :
    load32 (m.load base mem) (fixaddr base offset) = load32 obj.initial offset.toNat := by
  have hbyte : ∀ k < 4, m.load base mem (fixaddr base offset + k) =
      obj.initial (offset.toNat + k) := by
    intro k hk
    rw [fixaddr, Nat.add_assoc]
    exact load_eq_initial hdata hsize (by omega)
  have h₀ := hbyte 0 (by decide)
  rw [Nat.add_zero, Nat.add_zero] at h₀
  rw [load32, load32, h₀, hbyte 1 (by decide), hbyte 2 (by decide), hbyte 3 (by decide)]

theorem apart_fixaddr {a b : BitVec 32} (h : Apart a.toNat b.toNat) :
    Apart (fixaddr base a) (fixaddr base b) := by
  unfold Apart fixaddr at *
  omega

theorem patches_apart (hfields : obj.FieldsApart) (hunres : m.unres = obj.unresolved)
    (hrelocs : m.relocs = obj.remaining) :
    (m.patches base addr).Pairwise fun p q => Apart p.addr q.addr := by
  have happly : ((obj.relocs.filter obj.applies).map Reloc.vaddr).Pairwise
      fun a b => Apart a.toNat b.toNat :=
    List.pairwise_map.mpr (hfields.apart.sublist List.filter_sublist)
  have hoffsets : m.offsets.Pairwise fun a b => Apart a.toNat b.toNat := by
    rw [Module.offsets, hunres, hrelocs]
    exact ((offsets_perm obj).pairwise_iff fun h => apart_symm h).mpr happly
  have haddr : ((m.patches base addr).map Patch.addr).Pairwise Apart := by
    rw [Module.map_addr_patches, List.pairwise_map]
    exact hoffsets.imp apart_fixaddr
  exact List.pairwise_map.mp haddr

theorem exists_of_mem_patches (hunres : m.unres = obj.unresolved)
    (hrelocs : m.relocs = obj.remaining)
    {p : Patch} (hp : p ∈ m.patches base addr) :
    ∃ r ∈ obj.relocs, obj.applies r = true ∧ p.addr = fixaddr base r.vaddr := by
  have haddr : p.addr ∈ m.offsets.map (fixaddr base) := by
    rw [← @Module.map_addr_patches base addr m]
    exact List.mem_map.mpr ⟨p, hp, rfl⟩
  obtain ⟨offset, hoffset, he⟩ := List.mem_map.mp haddr
  rw [Module.offsets, hunres, hrelocs, (offsets_perm obj).mem_iff] at hoffset
  obtain ⟨r, hr, rfl⟩ := List.mem_map.mp hoffset
  obtain ⟨hmem, happlies⟩ := List.mem_filter.mp hr
  exact ⟨r, hmem, happlies, he.symm⟩

theorem ofNat_fixaddr (base offset : BitVec 32) : BitVec.ofNat 32 (fixaddr base offset) =
    base + offset := by
  rw [fixaddr, BitVec.ofNat_add, BitVec.ofNat_toNat, BitVec.ofNat_toNat, BitVec.setWidth_eq,
    BitVec.setWidth_eq]

theorem ofNat_mod (n : ℕ) : BitVec.ofNat 32 (n % 4294967296) = BitVec.ofNat 32 n :=
  BitVec.eq_of_toNat_eq (by simp)

theorem mem_patches {r : Reloc} (hunres : m.unres = obj.unresolved)
    (hrelocs : m.relocs = obj.remaining)
    (hr : r ∈ obj.relocs) :
    match obj.undefinedAt r with
    | some sym =>
        (if r.type = RELOC_REL32 then relPatch base (addr sym.name.bytes) r.vaddr
          else addPatch base (addr sym.name.bytes) r.vaddr) ∈ m.patches base addr
    | none => validReloc r = true → addPatch base base r.vaddr ∈ m.patches base addr := by
  cases hsym : obj.undefinedAt r with
  | none =>
      dsimp only
      intro hvalid
      refine List.mem_append_right _ (List.mem_map.mpr ⟨r.vaddr, ?_, rfl⟩)
      rw [hrelocs]
      exact List.mem_map.mpr ⟨r, List.mem_filter.mpr ⟨hr, decide_eq_true ⟨hvalid, hsym⟩⟩, rfl⟩
  | some sym =>
      dsimp only
      obtain ⟨p, hfind, rfl⟩ := Option.map_eq_some_iff.mp hsym
      have hmem := List.mem_of_find?_eq_some hfind
      have hcond := List.find?_some hfind
      obtain ⟨hindex, hundef⟩ := of_decide_eq_true hcond
      have href : r ∈ relocsTo p.1 obj.relocs := List.mem_filter.mpr ⟨hr,
        decide_eq_true hindex.symm⟩
      have hentry : entryOf obj.relocs p = some (unresEntry p.2.name (relocsTo p.1 obj.relocs)) :=
        if_pos ⟨hundef, List.ne_nil_of_mem href⟩
      refine List.mem_append_left _
        (List.mem_flatMap.mpr ⟨unresEntry p.2.name (relocsTo p.1 obj.relocs), ?_, ?_⟩)
      · rw [hunres]
        exact List.mem_filterMap.mpr ⟨p, hmem, hentry⟩
      · by_cases hrel : r.type = RELOC_REL32
        · rw [if_pos hrel]
          refine List.mem_append_left _ (List.mem_map.mpr ⟨r.vaddr, List.mem_map.mpr ⟨r, ?_, rfl⟩,
            rfl⟩)
          exact List.mem_filter.mpr ⟨href, decide_eq_true hrel⟩
        · rw [if_neg hrel]
          refine List.mem_append_right _ (List.mem_map.mpr ⟨r.vaddr, List.mem_reverse.mpr ?_, rfl⟩)
          exact List.mem_map.mpr ⟨r, List.mem_filter.mpr ⟨href, decide_eq_true hrel⟩, rfl⟩

theorem link_image (hfields : obj.FieldsApart) (hunres : m.unres = obj.unresolved)
    (hrelocs : m.relocs = obj.remaining) (hdata : m.data = obj.data.take obj.bssStart)
    (hsize : m.secSize = obj.data.length) :
    Image obj base addr ((m.patches base addr).foldl Patch.apply (m.load base mem)) where
  words := fun r hr => by
    have hold : load32 (m.load base mem) (fixaddr base r.vaddr) =
      load32 obj.initial r.vaddr.toNat :=
      load32_load hdata hsize (hfields.inside r hr)
    have hmem := @mem_patches obj base addr m r hunres hrelocs hr
    have hchanged : ∀ p ∈ m.patches base addr, p.addr = fixaddr base r.vaddr →
        word ((m.patches base addr).foldl Patch.apply (m.load base mem)) (fixaddr base r.vaddr) =
          BitVec.ofNat 32 (p.value (load32 obj.initial r.vaddr.toNat)) := by
      intro p hp he
      rw [← he, word, load32_patches _ _ (patches_apart hfields hunres hrelocs) hp, ofNat_mod, he,
        hold]
    have hadd : ∀ v, addPatch base v r.vaddr ∈ m.patches base addr →
        word ((m.patches base addr).foldl Patch.apply (m.load base mem)) (fixaddr base r.vaddr) =
          word obj.initial r.vaddr.toNat + v := by
      intro v hv
      rw [hchanged _ hv rfl, addPatch, BitVec.ofNat_add, BitVec.ofNat_toNat, BitVec.setWidth_eq]
      rfl
    unfold Obj.relocated
    cases hsym : obj.undefinedAt r with
    | some sym =>
        rw [hsym] at hmem
        dsimp only at hmem ⊢
        by_cases hrel : r.type = RELOC_REL32
        · rw [if_pos hrel] at hmem ⊢
          rw [hchanged _ hmem rfl, relPatch, ofNat_fixaddr, BitVec.ofNat_toNat, BitVec.setWidth_eq]
          bv_omega
        · rw [if_neg hrel] at hmem ⊢
          exact hadd _ hmem
    | none =>
        rw [hsym] at hmem
        dsimp only at hmem ⊢
        by_cases hvalid : validReloc r = true
        · rw [if_pos hvalid]
          exact hadd base (hmem hvalid)
        · rw [if_neg hvalid, word, word, ← hold]
          refine congrArg _ (load32_patches_out _ _ fun p hp => ?_)
          -- no change is at the field of a relocation that is not applied
          obtain ⟨r', hr', happlies, he⟩ := exists_of_mem_patches hunres hrelocs hp
          have hne : r ≠ r' := by
            rintro rfl
            rw [Obj.applies, undefinedAt_eq_none_iff.mp hsym, Bool.false_or] at happlies
            exact hvalid happlies
          have hsymm : Std.Symm fun r r' : Reloc => Apart r.vaddr.toNat r'.vaddr.toNat :=
            ⟨fun _ _ h => apart_symm h⟩
          rw [he]
          exact apart_fixaddr (hfields.apart.forall hr hr' hne)
  bytes := fun x hx hout => by
    rw [patches_out, load_eq_initial hdata hsize hx]
    intro p hp
    obtain ⟨r, hr, -, he⟩ := exists_of_mem_patches hunres hrelocs hp
    have hrx := hout r hr
    rw [he, fixaddr]
    omega

end DjgppLibc.Dxe
