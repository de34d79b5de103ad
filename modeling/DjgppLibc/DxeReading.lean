import DjgppLibc.DxeLoad
import DjgppLibc.DxeTables

/-!
# What `dlopen` reads back

Each table of the module file is read as it was collected. The numbers of the header are
32-bit words, so the file is shorter than 2^31 bytes.
-/
namespace DjgppLibc.Dxe

open ByteTables CStrings

theorem reads_header (h : Header) : Reads readHeader h.encode h := by
  unfold Header.encode
  simp only [List.flatten_cons, List.flatten_nil]
  refine (reads_le32 _).bind ((reads_le32 _).bind ((reads_le32 _).bind ((reads_le32 _).bind ?_)))
  refine (reads_le32 _).bind ((reads_byte _).bind ((reads_byte _).bind ((reads_le16 _).bind ?_)))
  refine (reads_le32 _).bind ((reads_le32 _).bind ((reads_le32 _).bind ((reads_le32 _).bind ?_)))
  refine (reads_le32 _).bind ((reads_le32 _).bind ((reads_le32 _).bind ((reads_le32 _).bind ?_)))
  refine (reads_le32 _).bind ((reads_le32 _).bind ((reads_le32 _).bind ((reads_le32 _).bind ?_)))
  refine (reads_le32 _).bind ((reads_le32 _).bind ?_)
  exact .pure h

theorem length_header (h : Header) : h.encode.length = headerSize := rfl

theorem reads_export {e : Export} (he : 0 ∉ e.name) : Reads readExport e.encode e :=
  (reads_le32 _).bind ((reads_string he).bind_pure (Export.mk e.offset))

theorem reads_words (ws : List (BitVec 32)) {n : ℕ} (hn : n = ws.length) :
    Reads (readMany readLe32 n) (ws.flatMap le32) ws := by
  rw [hn]
  exact reads_many fun w _ => reads_le32 w

theorem reads_unres {u : Unres} (hname : 0 ∉ u.name) (hrel : u.rel.length ≤ 0xffff)
    (habs : u.abs.length ≤ 0xffff) : Reads readUnres u.encode u := by
  have hcount : ∀ n ≤ 0xffff, (BitVec.ofNat 16 n).toNat = n := fun n hn =>
    (BitVec.toNat_ofNat ..).trans (Nat.mod_eq_of_lt (Nat.lt_of_le_of_lt hn (by decide)))
  refine (reads_le16 _).bind ((reads_le16 _).bind ((reads_string hname).bind ?_))
  refine (reads_words u.rel (hcount _ hrel)).bind ?_
  exact (reads_words u.abs (hcount _ habs)).bind_pure (Unres.mk u.name u.rel)

variable {obj : Obj} {opts : Options} {g : Gen}

theorem toNat_ofNat_of_lt {n : ℕ} (h : n < 2 ^ 31) : (BitVec.ofNat 32 n).toNat = n :=
  (BitVec.toNat_ofNat ..).trans (Nat.mod_eq_of_lt (by omega))

theorem rounds_ofNat {n : ℕ} (h : n < 2 ^ 31) : rounds (.ofNat 32 n) = n := by
  have hnat := toNat_ofNat_of_lt h
  rw [rounds, BitVec.toInt_eq_toNat_of_lt (by rw [hnat]; omega), hnat, Int.toNat_natCast]

theorem readBytes_append {n : ℕ} {bs rest : List UInt8} (hn : n = bs.length) :
    readBytes n (bs ++ rest) = some (bs, rest) := by
  rw [hn]
  exact reads_bytes bs rest

theorem reads_tables {h : Header} {deps : List CString} {unres : List Unres}
    {relocs : List (BitVec 32)}
    (hdeps : rounds h.nDeps = deps.length) (hunres : rounds h.nUnresSyms = unres.length)
    (hrelocs : rounds h.nrelocs = relocs.length)
    (hnames : ∀ u ∈ unres, 0 ∉ u.name ∧ u.rel.length ≤ 0xffff ∧ u.abs.length ≤ 0xffff) :
    Reads (readTables h) ((deps.flatMap fun dep => dep.bytes ++ [0]) ++
        (unres.flatMap Unres.encode ++ relocs.flatMap le32))
        ⟨deps.map CString.bytes, unres, relocs⟩ := by
  have hread : Reads (readMany readString (rounds h.nDeps)) (deps.flatMap fun dep =>
    dep.bytes ++ [0])
      (deps.map CString.bytes) := by
    rw [hdeps, ← List.length_map CString.bytes,
      ← List.flatMap_map CString.bytes (fun bs => bs ++ [0])]
    refine reads_many fun bs hbs => ?_
    obtain ⟨dep, -, rfl⟩ := List.mem_map.mp hbs
    exact reads_string dep.nul_notMem
  refine hread.bind (Reads.bind ?_ ((reads_words relocs hrelocs).bind_pure (Tables.mk _ unres)))
  rw [hunres]
  exact reads_many fun u hu => reads_unres (hnames u hu).1 (hnames u hu).2.1 (hnames u hu).2.2

theorem storedOf_name {relocs : List Reloc} {p : ℕ × Symbol} {u : Unres}
    (h : storedOf relocs p = some u) :
    0 ∉ u.name := by
  unfold storedOf entryOf at h
  split at h
  · split at h
    · obtain rfl := Option.some.inj h
      exact p.2.name.nul_notMem
    · cases h
  · cases h

theorem exportsFrom_name {names : List (Option CString)} {syms : List Symbol} :
    ∀ e ∈ exportsFrom opts names syms, 0 ∉ e.name := by
  induction syms generalizing names with
  | nil => exact fun e he => absurd he List.not_mem_nil
  | cons sym syms ih =>
      rw [exportsFrom]
      split
      · exact ih
      · exact List.forall_mem_cons.mpr ⟨sym.name.nul_notMem, ih⟩

def Obj.stored (obj : Obj) : List Unres := (indexed 0 obj.syms).filterMap (storedOf obj.relocs)

def Gen.remaining (g : Gen) : List (BitVec 32) := (g.relocs.filter validReloc).map Reloc.vaddr

/-- What `dlopen` gets from the file. -/
def collected (obj : Obj) (opts : Options) (g : Gen) : Module where
  deps := opts.deps.map CString.bytes
  unres := obj.stored
  relocs := g.remaining
  exports := exported obj opts
  data := obj.data.take g.startbss
  secSize := obj.data.length
  initOffset := g.initOffset
  finiOffset := g.finiOffset

theorem length_le_flatMap {α : Type} {f : α → List UInt8} (as : List α)
    (h : ∀ a ∈ as, 1 ≤ (f a).length) :
    as.length ≤ (as.flatMap f).length := by
  induction as with
  | nil => exact Nat.le_refl _
  | cons a as ih =>
      have hhead := h a (List.mem_cons_self ..)
      have htail := ih fun b hb => h b (List.mem_cons_of_mem a hb)
      rw [List.flatMap_cons, List.length_append, List.length_cons]
      omega

theorem readModule_moduleFile (hg : Collected opts 0 obj.syms (.start obj opts) g)
    (hbss : g.startbss ≤ obj.data.length) (hsize : (moduleFile obj opts g).length < 2 ^ 31) :
    readModule (moduleFile obj opts g) = some (collected obj opts g) := by
  have hfile : moduleFile obj opts g = (header obj opts g).encode ++ (g.expsym ++
      (List.replicate (symbolOffset g - (headerSize + g.expsym.length)) 0 ++
        (obj.data.take g.startbss ++
        (depTable opts ++ (g.unres ++ (g.remaining.flatMap le32 ++
          opts.description.elim [] fun text => text.bytes ++ [0])))))) := by
    simp only [moduleFile, List.flatten_cons, List.flatten_nil, List.append_nil, Gen.remaining]
  have hlen := congrArg List.length hfile
  simp only [List.length_append, length_header, List.length_replicate, length_flatMap_le32,
    List.length_take_of_le hbss] at hlen
  have hoffset : headerSize + g.expsym.length ≤ symbolOffset g := by
    unfold symbolOffset
    omega
  have hexp : g.nExp = (exported obj opts).length := hg.nExp.trans (Nat.zero_add _)
  have hexpsym : g.expsym = (exported obj opts).flatMap Export.encode := hg.expsym
  have hun : g.nUnres = obj.stored.length := hg.nUnres.trans (Nat.zero_add _)
  have hunres : g.unres = obj.stored.flatMap Unres.encode := hg.unres
  have hexpLe : g.nExp ≤ g.expsym.length := by
    rw [hexp, hexpsym]
    refine length_le_flatMap _ fun e _ => ?_
    simp [Export.encode, le32]
  have hunLe : g.nUnres ≤ g.unres.length := by
    rw [hun, hunres]
    refine length_le_flatMap _ fun u _ => ?_
    simp [Unres.encode, le16]
  have hdepsLe : opts.deps.length ≤ (depTable opts).length :=
    length_le_flatMap _ fun dep _ => by simp
  have hrelocs : (g.relocs.filter validReloc).length = g.remaining.length :=
    (List.length_map _).symm
  have hhdr : ((header obj opts g).symbolOffset - .ofNat 32 headerSize).toNat =
      symbolOffset g - headerSize := by
    have hs : (header obj opts g).symbolOffset.toNat = symbolOffset g :=
      toNat_ofNat_of_lt (by omega)
    rw [BitVec.toNat_sub_of_le, hs]
    · rfl
    · rw [BitVec.le_def, hs]
      exact (Nat.le_add_right _ _).trans hoffset
  have hsecF : (header obj opts g).secFSize.toNat = g.startbss := toNat_ofNat_of_lt (by omega)
  have hdiscard : ((header obj opts g).depSize + (header obj opts g).unresSize +
      (header obj opts g).nrelocs * 4).toNat =
      (depTable opts).length + (g.unres.length + 4 * g.remaining.length) := by
    have hd : (header obj opts g).depSize.toNat = (depTable opts).length :=
      toNat_ofNat_of_lt (by omega)
    have hu : (header obj opts g).unresSize.toNat = g.unres.length := toNat_ofNat_of_lt (by omega)
    have hr : (header obj opts g).nrelocs.toNat = g.remaining.length := by
      rw [← hrelocs]
      exact toNat_ofNat_of_lt (by omega)
    rw [BitVec.toNat_add, BitVec.toNat_add, BitVec.toNat_mul, hd, hu, hr,
      show (4 : BitVec 32).toNat = 4 from rfl]
    omega
  have htables := @reads_tables (header obj opts g) opts.deps obj.stored g.remaining
    (rounds_ofNat (by omega)) ((rounds_ofNat (by omega)).trans hun)
    ((rounds_ofNat (by omega)).trans hrelocs) fun u hu => by
      obtain ⟨p, -, hp⟩ := List.mem_filterMap.mp hu
      exact ⟨storedOf_name hp, hg.counts u hu⟩
  have hexports : Reads (readMany readExport (rounds (header obj opts g).nExpSyms))
      ((exported obj opts).flatMap Export.encode) (exported obj opts) := by
    rw [show rounds (header obj opts g).nExpSyms = (exported obj opts).length from
      (rounds_ofNat (by omega)).trans hexp]
    exact reads_many fun e he => reads_export (exportsFrom_name e he)
  have hcheck : ¬ ((header obj opts g).magic ≠ DXE_MAGIC ∨
    (header obj opts g).elementSize ≠ 0xffffffff ∨
      1 < (header obj opts g).major.toInt8) := by
    rintro (h | h | h)
    · exact h rfl
    · exact h rfl
    · exact absurd h (by decide : ¬ 1 < (1 : UInt8).toInt8)
  have hblock : symbolOffset g - headerSize + g.startbss = (g.expsym ++
      (List.replicate (symbolOffset g - (headerSize + g.expsym.length)) 0 ++
        obj.data.take g.startbss)).length := by
    rw [List.length_append, List.length_append, List.length_replicate, List.length_take_of_le hbss]
    omega
  rw [readModule, hfile, reads_header]
  simp only [Option.bind_eq_bind, Option.bind_some]
  rw [if_neg hcheck, hhdr, hsecF, ← List.append_assoc (List.replicate _ 0),
    ← List.append_assoc g.expsym,
    readBytes_append hblock]
  simp only [Option.bind_some]
  rw [hdiscard, hunres, ← List.append_assoc (List.flatMap _ _), ← List.append_assoc (depTable opts),
    readBytes_append (by simp only [List.length_append, length_flatMap_le32])]
  simp only [Option.bind_some]
  have htab := htables []
  rw [List.append_nil] at htab
  rw [depTable, htab]
  simp only [Option.bind_some]
  have hdrop : (g.expsym ++ (List.replicate (symbolOffset g - (headerSize + g.expsym.length)) 0 ++
      obj.data.take g.startbss)).drop (symbolOffset g - headerSize) = obj.data.take g.startbss := by
    rw [← List.append_assoc]
    refine List.drop_left' ?_
    rw [List.length_append, List.length_replicate]
    omega
  have hsec : (header obj opts g).secSize.toNat = obj.data.length :=
    (BitVec.toNat_ofNat ..).trans (Nat.mod_eq_of_lt obj.size_lt)
  rw [hdrop, hsec, hexpsym, hexports]
  rfl

end DjgppLibc.Dxe
