import Mathlib.Tactic.Ring
import DjgppLibc.DxeTables
import DjgppLibc.StoreLogs

/-!
# The stores into the tables of the generator

`write_dxe` fills the tables of unresolved and of exported symbols while they grow. The first
grows by what an entry needs, the second by 1024 bytes once. The offsets of the relocations are
stored from both ends of what a first pass has made room for. All of this is in memory at one
time, so that no size is as large as `2 ^ 32`.
-/
namespace DjgppLibc.Dxe

open ByteTables CStrings StoreLogs

/-- A table, with the size that was last passed to `realloc`. -/
structure Table where
  size : ℕ
  maxsize : ℕ
  log : List (Store UInt8)

def Table.store (offset : ℤ) (bytes : List UInt8) (t : Table) : Table :=
  { t with log := t.log ++ [⟨offset, bytes, t.maxsize⟩] }

structure GenTables where
  relocs : List Reloc
  names : List (Option CString)
  unres : Table
  expsym : Table
  /-- Where `rel_relocs` and `abs_relocs` have come to in each entry. -/
  ends : List (ℤ × ℤ)

def GenTables.start (obj : Obj) (opts : Options) : GenTables where
  relocs := obj.relocs
  names := opts.names.map some
  unres := ⟨0, 0, []⟩
  expsym := ⟨0, 0, []⟩
  ends := []

/-- The numbers of relative and of absolute references. -/
def countStep (i : ℕ) (n : ℕ × ℕ) (r : Reloc) : ℕ × ℕ :=
  if r.symndx.toNat = i then
    if r.type = RELOC_REL32 then (n.1 + 1, n.2) else (n.1, n.2 + 1)
  else n

def countRelocs (i : ℕ) (relocs : List Reloc) : ℕ × ℕ := relocs.foldl (countStep i) (0, 0)

structure Filling where
  rel : ℤ
  abs : ℤ
  table : Table

def fillStep (i : ℕ) (f : Filling) (r : Reloc) : Filling :=
  if r.symndx.toNat = i then
    if r.type = RELOC_REL32 then
      { f with rel := f.rel + 4, table := f.table.store f.rel (le32 r.vaddr) }
    else { f with abs := f.abs - 4, table := f.table.store (f.abs - 4) (le32 r.vaddr) }
  else f

def fillRelocs (i : ℕ) (relocs : List Reloc) (f : Filling) : Filling := relocs.foldl (fillStep i) f

def growUnres (newsize : ℕ) (t : Table) : Table :=
  if t.maxsize < newsize then
    let addlen := newsize - t.maxsize + 317
    let addlen := if (addlen + t.maxsize) % 2 = 0 then addlen + 1 else addlen
    { t with maxsize := t.maxsize + addlen }
  else t

def storeEntry (i : ℕ) (name : CString) (relocs : List Reloc) (n : ℕ × ℕ) (t : Table) : Filling :=
  let namelen := name.bytes.length + 1
  let newsize := t.size + 4 + namelen + (n.1 + n.2) * 4
  let table := (growUnres newsize t).store (t.size + 4) (name.bytes ++ [0])
  let table := table.store t.size (le16 (.ofNat 16 n.1))
  let table := table.store (t.size + 2) (le16 (.ofNat 16 n.2))
  fillRelocs i relocs ⟨t.size + 4 + namelen, newsize, { table with size := newsize }⟩

def storeUnres (opts : Options) (i : ℕ) (name : CString) (t : GenTables) : Option GenTables :=
  let n := countRelocs i t.relocs
  if n.1 = 0 ∧ n.2 = 0 then some t
  else if !opts.unresolved then some t
  else if 0xffff < n.1 ∨ 0xffff < n.2 then none
  else
    let f := storeEntry i name t.relocs n t.unres
    some { t with
      relocs := markProcessed i t.relocs
      unres := f.table
      ends := t.ends ++ [(f.rel, f.abs)] }

def growExpsym (newsize : ℕ) (t : Table) : Table :=
  if t.maxsize < newsize then { t with maxsize := t.maxsize + 1024 } else t

def storeExport (e : Export) (t : Table) : Table :=
  let newsize := t.size + 4 + (e.name.length + 1)
  let table := (growExpsym newsize t).store t.size (le32 e.offset)
  { table.store (t.size + 4) (e.name ++ [0]) with size := newsize }

def storeStep (opts : Options) (i : ℕ) (sym : Symbol) (t : GenTables) : Option GenTables :=
  if sym.name.bytes = [] then some t
  else if sym.sclass = C_STAT then some t
  else if sym.scnum = 0 then storeUnres opts i sym.name t
  else if sym.sclass = C_EXT then
    if sym.name.bytes = ascii "_init" then some t
    else if sym.name.bytes = ascii "_fini" then some t
    else
      match exportName opts t.names sym.name with
      | none => some t
      | some names =>
          some { t with
            names := names
            expsym := storeExport ⟨sym.value, sym.name.bytes⟩ t.expsym }
  else some t

def storeLoop (opts : Options) : ℕ → List Symbol → GenTables → GenTables
  | _, [], t => t
  | i, sym :: syms, t =>
      match storeStep opts i sym t with
      | some t => storeLoop opts (i + (1 + sym.numaux.toNat)) syms t
      | none => t

attribute [grind =] storeLoop

def genTables (obj : Obj) (opts : Options) : GenTables :=
  storeLoop opts 0 obj.syms (.start obj opts)

section Passes

variable {i : ℕ} {relocs : List Reloc}

def relOffsets (refs : List Reloc) : List (BitVec 32) :=
  (refs.filter fun r => r.type = RELOC_REL32).map Reloc.vaddr

def absOffsets (refs : List Reloc) : List (BitVec 32) :=
  (refs.filter fun r => r.type ≠ RELOC_REL32).map Reloc.vaddr

theorem countRelocs_eq (i : ℕ) (relocs : List Reloc) :
    countRelocs i relocs =
      ((relOffsets (relocsTo i relocs)).length, (absOffsets (relocsTo i relocs)).length) := by
  have hfold : ∀ (relocs : List Reloc) (n : ℕ × ℕ), relocs.foldl (countStep i) n =
      (n.1 + (relOffsets (relocsTo i relocs)).length,
        n.2 + (absOffsets (relocsTo i relocs)).length) := by
    intro relocs
    induction relocs with
    | nil => exact fun _ => rfl
    | cons r relocs ih =>
        intro n
        rw [List.foldl_cons, ih]
        by_cases hr : r.symndx.toNat = i
        · by_cases htype : r.type = RELOC_REL32
          · simp [countStep, relocsTo, relOffsets, absOffsets, hr, htype, Nat.add_assoc,
              Nat.add_comm]
          · simp [countStep, relocsTo, relOffsets, absOffsets, hr, htype, Nat.add_assoc,
              Nat.add_comm]
        · simp [countStep, relocsTo, relOffsets, absOffsets, hr]
  rw [countRelocs, hfold, Nat.zero_add, Nat.zero_add]

structure Filled (l : List UInt8) (refs : List Reloc) (f f' : Filling) (log : List (Store UInt8)) :
    Prop where
  table : f'.table = { f.table with log := f.table.log ++ log }
  rel : f'.rel = f.rel + 4 * (relOffsets refs).length
  abs : f'.abs = f.abs - 4 * (absOffsets refs).length
  fills : Fills l f.rel f.abs log
  size : ∀ s ∈ log, s.size = f.table.maxsize

theorem relative_cons {r : Reloc} (htype : r.type = RELOC_REL32) (refs : List Reloc) :
    relOffsets (r :: refs) = r.vaddr :: relOffsets refs ∧
      absOffsets (r :: refs) = absOffsets refs := by
  constructor
  · simp [relOffsets, htype]
  · simp [absOffsets, htype]

theorem absolute_cons {r : Reloc} (htype : r.type ≠ RELOC_REL32) (refs : List Reloc) :
    relOffsets (r :: refs) = relOffsets refs ∧
      absOffsets (r :: refs) = r.vaddr :: absOffsets refs := by
  constructor
  · simp [relOffsets, htype]
  · simp [absOffsets, htype]

variable {l : List UInt8} {refs : List Reloc} {r : Reloc} {f f' : Filling}
  {log : List (Store UInt8)}

/-- A relative offset is stored below the others. -/
theorem Filled.up (htype : r.type = RELOC_REL32)
    (hwrites : (Store.mk f.rel (le32 r.vaddr) f.table.maxsize).Writes l)
    (h : Filled l refs { f with rel := f.rel + 4, table := f.table.store f.rel (le32 r.vaddr) } f'
      log) :
    Filled l (r :: refs) f f' (⟨f.rel, le32 r.vaddr, f.table.maxsize⟩ :: log) := by
  obtain ⟨hrelative, habsolute⟩ := relative_cons htype refs
  refine ⟨?_, ?_, ?_, (Fills.single hwrites).append h.fills, ?_⟩
  · rw [h.table, Table.store]
    simp only [List.append_assoc, List.singleton_append]
  · rw [h.rel, hrelative, List.length_cons]
    push_cast
    rw [mul_add, add_assoc, add_comm (4 : ℤ), mul_one]
  · rw [h.abs, habsolute]
  · exact List.forall_mem_cons.mpr ⟨rfl, h.size⟩

theorem Filled.down (htype : r.type ≠ RELOC_REL32)
    (hwrites : (Store.mk (f.abs - 4) (le32 r.vaddr) f.table.maxsize).Writes l)
    (h : Filled l refs
      { f with abs := f.abs - 4, table := f.table.store (f.abs - 4) (le32 r.vaddr) } f' log) :
    Filled l (r :: refs) f f' (⟨f.abs - 4, le32 r.vaddr, f.table.maxsize⟩ :: log) := by
  obtain ⟨hrelative, habsolute⟩ := absolute_cons htype refs
  have hsingle := Fills.single hwrites
  have hstop : (Store.mk (f.abs - 4) (le32 r.vaddr) f.table.maxsize).stop = f.abs :=
    sub_add_cancel f.abs 4
  rw [hstop] at hsingle
  refine ⟨?_, ?_, ?_, hsingle.append_below h.fills, ?_⟩
  · rw [h.table, Table.store]
    simp only [List.append_assoc, List.singleton_append]
  · rw [h.rel, hrelative]
  · rw [h.abs, habsolute, List.length_cons]
    push_cast
    rw [mul_add, mul_one, add_comm, sub_sub]
  · exact List.forall_mem_cons.mpr ⟨rfl, h.size⟩

theorem fillRelocs_filled (i : ℕ) (relocs : List Reloc) (f : Filling) (before after : List UInt8)
    (hrel : f.rel = before.length)
    (habs : f.abs = f.rel + 4 * (((relOffsets (relocsTo i relocs)).length : ℤ) +
      (absOffsets (relocsTo i relocs)).length)) :
    ∃ log, Filled (before ++ ((relOffsets (relocsTo i relocs)).flatMap le32 ++
      ((absOffsets (relocsTo i relocs)).reverse.flatMap le32 ++ after))) (relocsTo i relocs) f
      (fillRelocs i relocs f) log := by
  induction relocs generalizing f before after with
  | nil =>
      refine ⟨[], ⟨?_, (add_zero _).symm, (sub_zero _).symm, ?_, ?_⟩⟩
      · rw [List.append_nil]
        rfl
      · have heq : f.abs = f.rel := habs.trans (add_zero _)
        rw [heq]
        exact .nil _ _
      · exact fun s hs => absurd hs List.not_mem_nil
  | cons r relocs ih =>
      by_cases hr : r.symndx.toNat = i
      · have hrefs : relocsTo i (r :: relocs) = r :: relocsTo i relocs :=
          List.filter_cons_of_pos (decide_eq_true hr)
        rw [hrefs] at habs ⊢
        by_cases htype : r.type = RELOC_REL32
        · obtain ⟨hrelative, habsolute⟩ := relative_cons htype (relocsTo i relocs)
          have hfill : fillRelocs i (r :: relocs) f = fillRelocs i relocs
              { f with rel := f.rel + 4, table := f.table.store f.rel (le32 r.vaddr) } := by
            rw [fillRelocs, List.foldl_cons, fillStep, if_pos hr, if_pos htype]
            rfl
          rw [hrelative, habsolute, List.length_cons] at habs
          rw [hrelative, habsolute, hfill, List.flatMap_cons]
          obtain ⟨log, h⟩ := ih { f with
              rel := f.rel + 4, table := f.table.store f.rel (le32 r.vaddr) }
            (before ++ le32 r.vaddr) after
            (by rw [List.length_append, length_le32]; push_cast; rw [← hrel])
            (by dsimp only; omega)
          simp only [List.append_assoc] at h ⊢
          exact ⟨_, h.up htype ⟨before, _, rfl, hrel⟩⟩
        · obtain ⟨hrelative, habsolute⟩ := absolute_cons htype (relocsTo i relocs)
          have hfill : fillRelocs i (r :: relocs) f = fillRelocs i relocs
              { f with abs := f.abs - 4, table := f.table.store (f.abs - 4) (le32 r.vaddr) } := by
            rw [fillRelocs, List.foldl_cons, fillStep, if_pos hr, if_neg htype]
            rfl
          rw [hrelative, habsolute, List.length_cons] at habs
          rw [hrelative, habsolute, hfill, List.reverse_cons, List.flatMap_append,
            List.flatMap_singleton]
          obtain ⟨log, h⟩ := ih { f with
              abs := f.abs - 4, table := f.table.store (f.abs - 4) (le32 r.vaddr) }
            before (le32 r.vaddr ++ after) hrel (by dsimp only; omega)
          simp only [List.append_assoc] at h ⊢
          refine ⟨_, h.down htype ⟨before ++ ((relOffsets (relocsTo i relocs)).flatMap le32 ++
            (absOffsets (relocsTo i relocs)).reverse.flatMap le32), after, ?_, ?_⟩⟩
          · simp only [List.append_assoc]
          · simp only [List.length_append, length_flatMap_le32, List.length_reverse]
            push_cast
            omega
      · have hrefs : relocsTo i (r :: relocs) = relocsTo i relocs :=
          List.filter_cons_of_neg (by simpa using hr)
        have hfill : fillRelocs i (r :: relocs) f = fillRelocs i relocs f :=
          congrArg (relocs.foldl (fillStep i)) (if_neg hr)
        rw [hrefs] at habs
        rw [hrefs, hfill]
        exact ih f before after hrel habs

end Passes

/-- The log fills the table with a list. -/
structure Table.Holds (t : Table) (l : List UInt8) : Prop where
  size : t.size = l.length
  fills : Fills l 0 l.length t.log

/-- The entries and the stores are inside what was allocated. -/
structure Table.Safe (t : Table) : Prop where
  room : t.size ≤ t.maxsize
  inside : ∀ s ∈ t.log, s.Inside

theorem growUnres_room (newsize : ℕ) (t : Table) :
    newsize ≤ (growUnres newsize t).maxsize ∧ (growUnres newsize t).log = t.log := by
  unfold growUnres
  split
  · refine ⟨?_, rfl⟩
    dsimp only
    split <;> omega
  · exact ⟨by omega, rfl⟩

theorem Unres.length_encode (u : Unres) :
    u.encode.length = 4 + (u.name.length + 1) + (u.rel.length + u.abs.length) * 4 := by
  simp only [Unres.encode, List.length_append, length_flatMap_le32, List.length_singleton]
  show 2 + (2 + _) = _
  omega

theorem unresEntry_encode (name : CString) (refs : List Reloc) :
    (unresEntry name refs).encode =
      le16 (.ofNat 16 (relOffsets refs).length) ++ (le16 (.ofNat 16 (absOffsets refs).length) ++
        (name.bytes ++ ([0] ++ ((relOffsets refs).flatMap le32 ++
          (absOffsets refs).reverse.flatMap le32)))) := by
  rw [Unres.encode, show (unresEntry name refs).abs.length = _ from List.length_reverse,
    List.append_assoc (unresEntry name refs).name]
  rfl

/-- The name and the two counts, in the order in which they are stored. -/
theorem header_fills (un tail name : List UInt8) (nRel nAbs : BitVec 16) (maxsize : ℕ) :
    Fills (un ++ (le16 nRel ++ (le16 nAbs ++ (name ++ tail)))) un.length
      (un.length + 4 + name.length)
      ([⟨un.length + 4, name, maxsize⟩] ++
        ([⟨un.length, le16 nRel, maxsize⟩] ++ [⟨un.length + 2, le16 nAbs, maxsize⟩])) := by
  have hname : (Store.mk (un.length + 4) name maxsize).Writes
      (un ++ (le16 nRel ++ (le16 nAbs ++ (name ++ tail)))) := by
    refine ⟨un ++ (le16 nRel ++ le16 nAbs), tail, ?_, ?_⟩
    · simp only [List.append_assoc]
    · simp only [List.length_append]
      rfl
  have hrel : (Store.mk un.length (le16 nRel) maxsize).Writes
      (un ++ (le16 nRel ++ (le16 nAbs ++ (name ++ tail)))) := ⟨un, _, rfl, rfl⟩
  have habs : (Store.mk (un.length + 2) (le16 nAbs) maxsize).Writes
      (un ++ (le16 nRel ++ (le16 nAbs ++ (name ++ tail)))) := by
    refine ⟨un ++ le16 nRel, name ++ tail, ?_, ?_⟩
    · simp only [List.append_assoc]
    · rw [List.length_append]
      rfl
  have hcounts := (Fills.single hrel).append (Fills.single habs)
  have hstop : (Store.mk (un.length + 2) (le16 nAbs) maxsize).stop = un.length + 4 :=
    add_assoc _ 2 2
  rw [hstop] at hcounts
  exact (Fills.single hname).append_below hcounts

theorem storeEntry_spec {i : ℕ} {name : CString} {relocs : List Reloc} {t : Table} {f : Filling}
    {un : List UInt8} (hf : storeEntry i name relocs (countRelocs i relocs) t = f)
    (hholds : t.Holds un) (hsafe : t.Safe) :
    f.rel = f.abs ∧ f.table.Holds (un ++ (unresEntry name (relocsTo i relocs)).encode) ∧
      f.table.Safe := by
  have hlength := Unres.length_encode (unresEntry name (relocsTo i relocs))
  rw [show (unresEntry name (relocsTo i relocs)).abs.length = _ from List.length_reverse]
    at hlength
  change _ = 4 + (name.bytes.length + 1) + ((relOffsets (relocsTo i relocs)).length +
    (absOffsets (relocsTo i relocs)).length) * 4 at hlength
  rw [storeEntry, countRelocs_eq, hholds.size] at hf
  dsimp only at hf
  generalize hnew : un.length + 4 + (name.bytes.length + 1) +
    ((relOffsets (relocsTo i relocs)).length + (absOffsets (relocsTo i relocs)).length) * 4 =
      newsize at hf
  obtain ⟨hroom, hlog⟩ := growUnres_room newsize t
  generalize growUnres newsize t = grown at hf hroom hlog
  -- the name and the counts, and above them the offsets
  have hheader := header_fills un
    ((relOffsets (relocsTo i relocs)).flatMap le32 ++
      ((absOffsets (relocsTo i relocs)).reverse.flatMap le32 ++ []))
    (name.bytes ++ [0]) (.ofNat 16 (relOffsets (relocsTo i relocs)).length)
    (.ofNat 16 (absOffsets (relocsTo i relocs)).length) grown.maxsize
  have hbelow : (un ++ (le16 (.ofNat 16 (relOffsets (relocsTo i relocs)).length) ++
      (le16 (.ofNat 16 (absOffsets (relocsTo i relocs)).length) ++ (name.bytes ++ [0])))).length =
      un.length + 4 + (name.bytes.length + 1) := by
    simp only [List.length_append, List.length_singleton]
    show _ + (2 + (2 + _)) = _
    omega
  generalize hf₀ : Filling.mk _ _ _ = f₀ at hf
  obtain ⟨log, hfill⟩ := fillRelocs_filled i relocs f₀ _ []
    (by rw [hbelow, ← hf₀]; push_cast; rfl)
    (by rw [← hf₀, ← hnew]; push_cast; ring)
  have hencode := unresEntry_encode name (relocsTo i relocs)
  have hend : (un ++ (unresEntry name (relocsTo i relocs)).encode).length = newsize := by
    rw [List.length_append, hlength, ← hnew]
    omega
  have hnewfills := hfill.fills
  simp only [List.append_assoc, List.append_nil, List.length_append, List.length_singleton,
    ← hencode]
    at hheader hnewfills
  have hf₀rel : f₀.rel = un.length + 4 + ((name.bytes.length + 1 : ℕ) : ℤ) := by rw [← hf₀]
  have hf₀abs : f₀.abs = newsize := by rw [← hf₀]
  have hf₀log : f₀.table.log = t.log ++ ([⟨un.length + 4, name.bytes ++ [0], grown.maxsize⟩] ++
      ([⟨un.length, le16 (.ofNat 16 (relOffsets (relocsTo i relocs)).length), grown.maxsize⟩] ++
        [⟨un.length + 2, le16 (.ofNat 16 (absOffsets (relocsTo i relocs)).length),
          grown.maxsize⟩])) := by
    rw [← hf₀, ← hlog]
    simp only [Table.store, List.append_assoc]
  have hf₀max : f₀.table.maxsize = grown.maxsize := by rw [← hf₀]; rfl
  have hf₀size : f₀.table.size = newsize := by rw [← hf₀]
  rw [← hf₀rel] at hheader
  have hentry := hheader.append hnewfills
  subst hf
  rw [hfill.table]
  refine ⟨?_, ⟨?_, ?_⟩, ?_, ?_⟩
  · rw [hfill.rel, hfill.abs, hf₀rel, hf₀abs, ← hnew]
    push_cast
    ring
  · rw [hend]
    exact hf₀size
  · dsimp only
    rw [hend, hf₀log, List.append_assoc, ← hf₀abs]
    exact (hholds.fills.extend _).append hentry
  · exact hf₀size ▸ hf₀max ▸ hroom
  · dsimp only
    rw [hf₀log, List.append_assoc]
    refine List.forall_mem_append.mpr ⟨hsafe.inside, fun s hs => ?_⟩
    have hmax : s.size = grown.maxsize := by
      obtain hs | hs := List.mem_append.mp hs
      · simp only [List.mem_append, List.mem_singleton] at hs
        obtain rfl | rfl | rfl := hs <;> rfl
      · exact (hfill.size s hs).trans hf₀max
    obtain ⟨hlo, hhi⟩ := hentry.within s hs
    rw [hf₀abs] at hhi
    exact ⟨by omega, by rw [hmax]; omega⟩

theorem Export.length_encode (e : Export) : e.encode.length = 4 + (e.name.length + 1) := by
  rw [Export.encode, List.length_append, List.length_append]
  rfl

theorem storeExport_size (e : Export) (t : Table) :
    (storeExport e t).size = t.size + e.encode.length ∧
      (storeExport e t).maxsize =
        if t.maxsize < t.size + e.encode.length then t.maxsize + 1024 else t.maxsize := by
  rw [e.length_encode, ← Nat.add_assoc]
  refine ⟨rfl, ?_⟩
  unfold storeExport growExpsym
  dsimp only [Table.store]
  split <;> rfl

theorem storeExport_log (e : Export) (t : Table) :
    (storeExport e t).log = t.log ++ ([⟨t.size, le32 e.offset, (storeExport e t).maxsize⟩] ++
      [⟨t.size + 4, e.name ++ [0], (storeExport e t).maxsize⟩]) := by
  unfold storeExport growExpsym
  dsimp only [Table.store]
  split <;> exact List.append_assoc ..

theorem storeExport_holds {t : Table} {ex : List UInt8} (e : Export) (h : t.Holds ex) :
    (storeExport e t).Holds (ex ++ e.encode) := by
  obtain ⟨hsize, -⟩ := storeExport_size e t
  have hlength := e.length_encode
  refine ⟨?_, ?_⟩
  · rw [hsize, h.size, List.length_append]
  · have hoffset : (Store.mk t.size (le32 e.offset) (storeExport e t).maxsize).Writes
        (ex ++ e.encode) := ⟨ex, e.name ++ [0], rfl, congrArg Nat.cast h.size⟩
    have hname : (Store.mk (t.size + 4) (e.name ++ [0]) (storeExport e t).maxsize).Writes
        (ex ++ e.encode) := by
      refine ⟨ex ++ le32 e.offset, [], ?_, ?_⟩
      · rw [List.append_nil, List.append_assoc]
        rfl
      · rw [List.length_append, ← h.size]
        rfl
    have hentry := (Fills.single hoffset).append (Fills.single hname)
    have hstop : (Store.mk (t.size + 4) (e.name ++ [0]) (storeExport e t).maxsize).stop =
        (ex ++ e.encode).length := by
      rw [Store.stop, List.length_append, List.length_append, hlength, h.size]
      push_cast
      rw [List.length_singleton]
      omega
    have hstart : (Store.mk t.size (le32 e.offset) (storeExport e t).maxsize).offset = ex.length :=
      congrArg Nat.cast h.size
    rw [hstop, hstart] at hentry
    rw [storeExport_log]
    exact (h.fills.extend _).append hentry

theorem storeExport_inside (e : Export) (t : Table) :
    (∀ s ∈ (storeExport e t).log, s.Inside) ↔
      (∀ s ∈ t.log, s.Inside) ∧ t.size + e.encode.length ≤ t.maxsize + 1024 := by
  obtain ⟨-, hmax⟩ := storeExport_size e t
  have hlength := e.length_encode
  rw [storeExport_log, List.forall_mem_append, List.forall_mem_append, List.forall_mem_singleton,
    List.forall_mem_singleton]
  refine and_congr_right fun _ => ?_
  generalize (storeExport e t).maxsize = maxsize at hmax
  unfold Store.Inside Store.stop
  dsimp only
  rw [List.length_append, List.length_singleton, length_le32]
  push_cast
  split at hmax <;> omega

end DjgppLibc.Dxe
