import DjgppLibc.Djasm

/-!
# The symbol table of `djasm`

The calls that the parser makes, and what `get_symbol` and `set_symbol` do to the table
by the names of its symbols: which ones are defined, and which patches wait for them.
The loop of `set_symbol` adds the part of a definition to each field that waits for it.
-/
namespace DjgppLibc.Djasm

open X86

inductive Op
  /-- The next line, perhaps of another file. -/
  | line (place : Place)
  /-- Bytes without a symbol. -/
  | bytes (l : List Byte)
  | define (name : Name) (value : BitVec 32)
  | emits (name : Name) (offset : BitVec 32) (rel : Rel)
  | disp (mbyte : BitVec 32) (needsib regs addr32 : Bool) (offset : BitVec 32) (syms : List Name)

def step (st : Asm) : Op → Asm
  | .line place => { st with place := place }
  | .bytes l => emit st l
  | .define name value => setSymbol (getSymbol st name) name value
  | .emits name offset rel => emits (getSymbol st name) name offset rel
  | .disp mbyte needsib regs addr32 offset syms =>
      regDisp (syms.foldl getSymbol st) mbyte needsib regs addr32 offset syms

def run (st : Asm) (ops : List Op) : Asm := ops.foldl step st

/-- The loop over the symbols at the end of `main`. -/
def finish (st : Asm) : Asm := say st (st.symtab.flatMap undefinedMessages)

def emptyAsm : Asm := ⟨[], [], ⟨"", 0⟩, []⟩

def zeroName : Name := "__zero__".toList

/-- What `main` does: `__zero__` is set first. -/
def assemble (ops : List Op) : Asm := finish (run emptyAsm (.define zeroName 0 :: ops))

def lookup (symtab : List Symbol) (name : Name) : Option (BitVec 32) :=
  match findSymbol symtab name with
  | some s => if s.defined then some s.value else none
  | none => none

def pending (symtab : List Symbol) (name : Name) : List Patch :=
  match findSymbol symtab name with
  | some s => s.patches
  | none => []

/-- A symbol is in the table once, and waits for nothing if it is defined. -/
structure TableOk (symtab : List Symbol) : Prop where
  nodup : (symtab.map (·.name)).Nodup
  settled : ∀ s ∈ symtab, s.defined = true → s.patches = []

variable {st st' : Asm} {name n : Name} {symtab : List Symbol}

theorem findSymbol_updateSymbol (symtab : List Symbol) (name n : Name) (f : Symbol → Symbol)
    (hf : ∀ s, (f s).name = s.name) :
    findSymbol (updateSymbol symtab name f) n =
      (findSymbol symtab n).map fun s => if n = name then f s else s := by
  induction symtab with
  | nil => rfl
  | cons s symtab ih =>
    have hname : (if s.name = name then f s else s).name = s.name := by
      split
      · exact hf s
      · rfl
    simp only [findSymbol, updateSymbol, List.map_cons, List.find?_cons, hname] at ih ⊢
    by_cases h : s.name = n
    · simp [h]
    · simp [h, ih]

theorem findSymbol_filter (symtab : List Symbol) (p : Name → Bool) (n : Name) :
    findSymbol (symtab.filter fun s => p s.name) n = if p n then findSymbol symtab n else none := by
  induction symtab with
  | nil => simp [findSymbol]
  | cons s symtab ih =>
    unfold findSymbol at ih ⊢
    by_cases hn : s.name = n
    · subst hn
      by_cases hp : p s.name = true
      · simp [hp]
      · simp only [hp, Bool.false_eq_true, if_false] at ih ⊢
        simp [hp, ih]
    · by_cases hp : p s.name = true
      · simp [hp, hn, ih]
      · simp [hp, hn, ih]

theorem findSymbol_some {s : Symbol} (h : findSymbol symtab n = some s) :
    s ∈ symtab ∧ s.name = n := by
  have := List.find?_some h
  exact ⟨List.mem_of_find?_eq_some h, by simpa using this⟩

theorem map_name_updateSymbol (symtab : List Symbol) (name : Name) (f : Symbol → Symbol)
    (hf : ∀ s, (f s).name = s.name) :
    (updateSymbol symtab name f).map (·.name) = symtab.map (·.name) := by
  rw [updateSymbol, List.map_map]
  refine List.map_congr_left fun s _ => ?_
  simp only [Function.comp_apply]
  split
  · exact hf s
  · rfl

theorem TableOk.update (h : TableOk symtab) (name : Name) (f : Symbol → Symbol)
    (hf : ∀ s, (f s).name = s.name)
    (hs : ∀ s ∈ symtab, s.name = name → (f s).defined = true → (f s).patches = []) :
    TableOk (updateSymbol symtab name f) where
  nodup := by
    rw [map_name_updateSymbol _ _ _ hf]
    exact h.nodup
  settled s hm hd := by
    obtain ⟨t, ht, rfl⟩ := List.mem_map.1 hm
    by_cases hn : t.name = name
    · rw [if_pos hn] at hd ⊢
      exact hs t ht hn hd
    · rw [if_neg hn] at hd ⊢
      exact h.settled t ht hd

theorem TableOk.filter (h : TableOk symtab) (p : Symbol → Bool) : TableOk (symtab.filter p) where
  nodup := h.nodup.sublist (List.filter_sublist.map _)
  settled s hm := h.settled s (List.mem_of_mem_filter hm)

theorem getSymbol_spec (h : TableOk st.symtab) (name : Name) :
    TableOk (getSymbol st name).symtab ∧ (∀ n, lookup (getSymbol st name).symtab n =
      lookup st.symtab n) ∧
      (∀ n, pending (getSymbol st name).symtab n = pending st.symtab n) ∧
      (findSymbol (getSymbol st name).symtab name).isSome ∧
      (∀ n, (findSymbol st.symtab n).isSome → (findSymbol
        (getSymbol st name).symtab n).isSome) := by
  unfold getSymbol
  split
  · next s hs => exact ⟨h, fun _ => rfl, fun _ => rfl, by rw [hs]; rfl, fun _ => id⟩
  · next hnone =>
    have hfind (n : Name) : findSymbol (⟨name, 0, false, []⟩ :: st.symtab) n =
        if name = n then some ⟨name, 0, false, []⟩ else findSymbol st.symtab n := by
      unfold findSymbol
      by_cases hn : name = n <;> simp [hn]
    refine ⟨⟨?_, ?_⟩, fun n => ?_, fun n => ?_, ?_, fun n hn => ?_⟩
    · rw [List.map_cons, List.nodup_cons]
      refine ⟨fun hm => ?_, h.nodup⟩
      obtain ⟨s, hs, hsn⟩ := List.mem_map.1 hm
      exact absurd hsn (by simpa using List.find?_eq_none.1 hnone s hs)
    · intro s hs hd
      obtain rfl | hs := List.mem_cons.1 hs
      · cases hd
      · exact h.settled s hs hd
    · by_cases hn : name = n
      · subst hn
        simp only [lookup, hfind, hnone, if_true, Bool.false_eq_true, if_false]
      · simp only [lookup, hfind, if_neg hn]
    · by_cases hn : name = n
      · subst hn
        simp only [pending, hfind, hnone, if_true]
      · simp only [pending, hfind, if_neg hn]
    · rw [hfind, if_pos rfl]
      rfl
    · rw [hfind]
      split
      · rfl
      · exact hn

theorem getSymbol_frame (st : Asm) (name : Name) :
    (getSymbol st name).outbin = st.outbin ∧ (getSymbol st name).messages = st.messages ∧
      (getSymbol st name).place = st.place := by
  unfold getSymbol
  split <;> exact ⟨rfl, rfl, rfl⟩

def ends (name n : Name) : Bool := ordinary name && islocal n

theorem ends_self (name : Name) : ends name name = false := by
  unfold ends ordinary
  cases islocal name <;> simp

/-- The reports of a table. -/
theorem count_undefinedMessages (h : TableOk symtab) (p : Patch) (n : Name) :
    (symtab.flatMap undefinedMessages).count (.undefined p n) = (pending symtab n).count p := by
  induction symtab with
  | nil => rfl
  | cons s symtab ih =>
    have hok : TableOk symtab := by
      refine ⟨?_, fun t ht => h.settled t (List.mem_cons_of_mem _ ht)⟩
      exact (List.nodup_cons.1 h.nodup).2
    have hinj : Function.Injective fun p : Patch => Message.undefined p s.name := by
      intro p q hpq
      injection hpq
    rw [List.flatMap_cons, List.count_append, ih hok]
    by_cases hn : s.name = n
    · have hnone : pending symtab n = [] := by
        have hfind : findSymbol symtab n = none := by
          refine List.find?_eq_none.2 fun t ht htn => ?_
          refine (List.nodup_cons.1 h.nodup).1 (List.mem_map.2 ⟨t, ht, ?_⟩)
          exact (of_decide_eq_true htn).trans hn.symm
        rw [pending, hfind]
      have hself : pending (s :: symtab) n = s.patches := by
        simp [pending, findSymbol, hn]
      rw [hnone, hself, List.count_nil, Nat.add_zero, undefinedMessages]
      split
      · next hd => rw [h.settled s (by simp) hd]; rfl
      · rw [← hn, List.count_map_of_injective _ _ hinj]
    · have hself : pending (s :: symtab) n = pending symtab n := by
        simp [pending, findSymbol, hn]
      have hzero : (undefinedMessages s).count (.undefined p n) = 0 := by
        rw [List.count_eq_zero]
        intro hm
        unfold undefinedMessages at hm
        split at hm
        · cases hm
        · obtain ⟨q, -, hq⟩ := List.mem_map.1 hm
          injection hq with _ hq
          exact hn hq
      rw [hself, hzero, Nat.zero_add]

theorem pending_filter (symtab : List Symbol) (p : Name → Bool) (n : Name) :
    pending (symtab.filter fun s => p s.name) n = if p n then pending symtab n else [] := by
  unfold pending
  rw [findSymbol_filter]
  cases p n <;> rfl

/-- The locals go before an ordinary symbol is set. -/
def beforeSet (st : Asm) (name : Name) : Asm := if ordinary name then destroyLocals st else st

theorem findSymbol_beforeSet (st : Asm) (name n : Name) :
    findSymbol (beforeSet st name).symtab n = if ends name n then none
    else findSymbol st.symtab n := by
  unfold beforeSet
  cases hord : ordinary name with
  | false => simp [ends, hord]
  | true =>
    have hends : ends name n = islocal n := by simp [ends, hord]
    rw [if_pos rfl, destroyLocals, findSymbol_filter st.symtab (fun n => !islocal n), hends]
    cases islocal n <;> rfl

theorem mem_undefinedMessages {s : Symbol} {m : Message} (h : m ∈ undefinedMessages s) :
    ∃ p n, m = .undefined p n := by
  unfold undefinedMessages at h
  split at h
  · cases h
  · obtain ⟨q, -, rfl⟩ := List.mem_map.1 h
    exact ⟨q, s.name, rfl⟩

theorem beforeSet_frame (h : TableOk st.symtab) (name : Name) :
    TableOk (beforeSet st name).symtab ∧ (beforeSet st name).outbin = st.outbin ∧
      (∀ p v, Message.tooBig p v ∈ (beforeSet st name).messages ↔ .tooBig p v ∈ st.messages) ∧
      ∀ p o, Message.offsetTooBig p o ∈ (beforeSet st name).messages ↔
      .offsetTooBig p o ∈ st.messages := by
  unfold beforeSet
  cases ordinary name with
  | false => simp [h]
  | true =>
    have hall {m : Message} (hm : m ∈ (st.symtab.filter fun s =>
      islocal s.name).flatMap undefinedMessages) :
        ∃ p n, m = .undefined p n := by
      obtain ⟨s, -, hs⟩ := List.mem_flatMap.1 hm
      exact mem_undefinedMessages hs
    refine ⟨h.filter _, rfl, fun p v => ?_, fun p o => ?_⟩
    · simp only [if_true, destroyLocals, List.mem_append]
      exact or_iff_left fun hm => by simpa using hall hm
    · simp only [if_true, destroyLocals, List.mem_append]
      exact or_iff_left fun hm => by simpa using hall hm

/-- What is reported of the locals. -/
theorem count_beforeSet (h : TableOk st.symtab) (name : Name) (p : Patch) (n : Name) :
    (beforeSet st name).messages.count (.undefined p n) =
      st.messages.count (.undefined p n) + if ends name n then (pending st.symtab n).count p
      else 0 := by
  unfold beforeSet
  cases hord : ordinary name with
  | false => simp [ends, hord]
  | true =>
    have hends : ends name n = islocal n := by simp [ends, hord]
    rw [if_pos rfl, destroyLocals, List.count_append,
      count_undefinedMessages (h.filter _), pending_filter st.symtab islocal, hends]
    cases islocal n <;> rfl

/-- What a definition adds to a field. -/
def Patch.part (p : Patch) (value : BitVec 32) : BitVec 32 :=
  match p.rel with
  | .abs | .abs32 | .abs8 => value
  | .rel16 => value - BitVec.ofNat 32 p.location - 2
  | .rel8 => value - BitVec.ofNat 32 p.location - 1

def Rel.size : Rel → ℕ
  | .abs | .rel16 => 2
  | .abs32 => 4
  | .rel8 | .abs8 => 1

def Patch.stop (p : Patch) : ℕ := p.location + p.rel.size

theorem applyPatch_messages (value : BitVec 32) (out : List Byte) (p : Patch) :
    ∃ m', (∀ p' n, Message.undefined p' n ∉ m') ∧ (∀ p' v, Message.tooBig p' v ∈ m' → p' = p) ∧
      (∀ p' o, Message.offsetTooBig p' o ∉ m') ∧
      ∀ m, applyPatch value (out, m) p = ((applyPatch value (out, []) p).1, m ++ m') := by
  unfold applyPatch
  cases p.rel with
  | rel8 =>
    dsimp only
    refine ⟨_, fun p' n => ?_, fun p' v => ?_, fun p' o => ?_, fun m => rfl⟩
    · split <;> simp
    · split
      · simp
      · intro h
        simp only [List.mem_singleton, Message.tooBig.injEq] at h
        exact h.1
    · split <;> simp
  | _ => exact ⟨[], by simp, by simp, by simp, fun m => by simp⟩

theorem toNat_signExtend_mod (w : ℕ) (hw : w = 8 ∨ w = 16) (r : ℕ) (v : BitVec 32) :
    ((BitVec.ofNat w r).signExtend 32 + v).toNat % 2 ^ w = (r + v.toNat) % 2 ^ w := by
  have hext : ((BitVec.ofNat w r).signExtend 32).toNat % 2 ^ w = r % 2 ^ w := by
    obtain rfl | rfl := hw
    · rw [BitVec.toNat_signExtend, BitVec.toNat_setWidth, BitVec.toNat_ofNat]
      split <;> omega
    · rw [BitVec.toNat_signExtend, BitVec.toNat_setWidth, BitVec.toNat_ofNat]
      split <;> omega
  rw [BitVec.toNat_add]
  obtain rfl | rfl := hw <;> omega

/-- Where a patch writes, and what. -/
theorem applyPatch_eq (value : BitVec 32) (out : List Byte) (m : List Message) (p : Patch)
    (hp : p.rel ≠ .abs8) :
    ∃ o : BitVec 32, (applyPatch value (out, m) p).1 = writeField out p.location
    (lowBytes p.rel.size o) ∧
      o.toNat % 256 ^ p.rel.size =
        (readField out p.location p.rel.size + (p.part value).toNat) % 256 ^ p.rel.size := by
  unfold applyPatch Patch.part Rel.size
  cases hrel : p.rel with
  | abs => exact ⟨_, rfl, toNat_signExtend_mod 16 (.inr rfl) _ _⟩
  | abs32 =>
    refine ⟨_, rfl, ?_⟩
    dsimp only
    rw [BitVec.toNat_add, BitVec.toNat_ofNat]
    omega
  | rel16 => exact ⟨_, rfl, toNat_signExtend_mod 16 (.inr rfl) _ _⟩
  | rel8 => exact ⟨_, rfl, toNat_signExtend_mod 8 (.inl rfl) _ _⟩
  | abs8 => exact absurd hrel hp

/-- Two fields have no byte in common. -/
def Patch.Apart (p q : Patch) : Prop := p.stop ≤ q.location ∨ q.stop ≤ p.location

theorem Patch.Apart.ne {p q : Patch} (h : p.Apart q) : p ≠ q := by
  rintro rfl
  have : p.rel.size ≠ 0 := by cases p.rel <;> decide
  obtain hlt | hlt := h <;> unfold Patch.stop at hlt <;> omega

theorem length_applyPatch (value : BitVec 32) {out : List Byte} (m : List Message) {p : Patch}
    (h : p.stop ≤ out.length) (hp : p.rel ≠ .abs8) : (applyPatch value (out, m) p).1.length =
    out.length := by
  obtain ⟨o, ho, -⟩ := applyPatch_eq value out m p hp
  rw [ho, length_writeField h (length_lowBytes _ _)]

theorem readField_applyPatch_self (value : BitVec 32) {out : List Byte} (m : List Message)
    {p : Patch}
    (h : p.stop ≤ out.length) (hp : p.rel ≠ .abs8) :
    readField (applyPatch value (out, m) p).1 p.location p.rel.size =
      (readField out p.location p.rel.size + (p.part value).toNat) % 256 ^ p.rel.size := by
  obtain ⟨o, ho, hval⟩ := applyPatch_eq value out m p hp
  rw [ho, readField_writeField h (length_lowBytes _ _), littleEndian_lowBytes, hval]

theorem readField_applyPatch_apart (value : BitVec 32) {out : List Byte} (m : List Message)
    {p q : Patch}
    (h : q.stop ≤ out.length) (hq : q.rel ≠ .abs8) (hapart : p.Apart q) :
    readField (applyPatch value (out, m) q).1 p.location p.rel.size =
      readField out p.location p.rel.size := by
  obtain ⟨o, ho, -⟩ := applyPatch_eq value out m q hq
  rw [ho, readField_writeField_apart h (length_lowBytes _ _) hapart.symm]

/-- The patches of a list are in the image, and each is `p` or apart from it. -/
def Around (p : Patch) (out : List Byte) (ps : List Patch) : Prop :=
  ∀ q ∈ ps, q.stop ≤ out.length ∧ q.rel ≠ .abs8 ∧ (q = p ∨ p.Apart q)

theorem foldl_applyPatch (value : BitVec 32) {p : Patch} (out : List Byte) {ps : List Patch}
    (m : List Message)
    (h : Around p out ps) :
    (ps.foldl (applyPatch value) (out, m)).1.length = out.length ∧
      readField (ps.foldl (applyPatch value) (out, m)).1 p.location p.rel.size =
        (readField out p.location p.rel.size + ps.count p *
          (p.part value).toNat) % 256 ^ p.rel.size := by
  induction ps generalizing out m with
  | nil => simp [Nat.mod_eq_of_lt (readField_lt _ _ _)]
  | cons q ps ih =>
    obtain ⟨hin, hrel, hq⟩ := h q (by simp)
    have hlen := length_applyPatch value m hin hrel
    obtain ⟨ihl, ihr⟩ := ih (applyPatch value (out, m) q).1 (applyPatch value (out, m) q).2
      fun x hx => by
        rw [hlen]
        exact h x (by simp [hx])
    rw [List.foldl_cons]
    refine ⟨ihl.trans hlen, ihr.trans ?_⟩
    obtain rfl | hapart := hq
    · rw [readField_applyPatch_self value m hin hrel, List.count_cons_self, Nat.mod_add_mod,
        Nat.succ_mul]
      congr 1
      omega
    · have hne : q ≠ p := fun h => (hapart.ne h.symm).elim
      rw [readField_applyPatch_apart value m hin hrel hapart, List.count_cons_of_ne hne]

theorem foldl_applyPatch_messages (value : BitVec 32) (out : List Byte) (ps : List Patch)
    (m : List Message) :
    (∀ q n, (ps.foldl (applyPatch value) (out, m)).2.count (.undefined q n) =
      m.count (.undefined q n)) ∧
      (∀ q v, q ∉ ps →
        (.tooBig q v ∈ (ps.foldl (applyPatch value) (out, m)).2 ↔ Message.tooBig q v ∈ m)) ∧
      ∀ q o, .offsetTooBig q o ∈ (ps.foldl (applyPatch value) (out, m)).2 ↔
      Message.offsetTooBig q o ∈ m := by
  induction ps generalizing out m with
  | nil => simp
  | cons p ps ih =>
    obtain ⟨m', hund, hbig, hoff, heq⟩ := applyPatch_messages value out p
    obtain ⟨ihc, ihb, iho⟩ := ih (applyPatch value (out, m) p).1 (applyPatch value (out, m) p).2
    have h2 : (applyPatch value (out, m) p).2 = m ++ m' := by rw [heq m]
    rw [h2] at ihc
    rw [List.foldl_cons]
    refine ⟨?_, ?_, fun q o => ?_⟩
    · intro q n
      refine (Eq.trans ?_ (ihc q n)).trans ?_
      · rw [← h2]
      · rw [List.count_append, List.count_eq_zero.2 (hund q n), Nat.add_zero]
    · intro q v hq
      have hne : q ≠ p := fun h => hq (by simp [h])
      refine (ihb q v fun h => hq (by simp [h])).trans ?_
      rw [h2, List.mem_append]
      exact ⟨fun h => h.resolve_right fun h' => hne (hbig q v h'), .inl⟩
    · rw [iho, h2, List.mem_append, or_iff_left (hoff q o)]

/-- A short jump is refused when its patch is applied. -/
theorem foldl_applyPatch_tooBig (value : BitVec 32) {p : Patch} (out : List Byte) {ps : List Patch}
    (m : List Message) (h : Around p out ps) (hrel : p.rel = .rel8) (hone : ps.count p = 1) :
    (∃ v, .tooBig p v ∈ (ps.foldl (applyPatch value) (out, m)).2) ↔ (∃ v, Message.tooBig p v ∈ m) ∨
      fitsByte ((BitVec.ofNat 8 (readField out p.location 1)).signExtend 32 + p.part value) =
      false := by
  induction ps generalizing out m with
  | nil => simp at hone
  | cons q ps ih =>
    obtain ⟨hin, hq8, hq⟩ := h q (by simp)
    rw [List.foldl_cons]
    obtain rfl | hapart := hq
    · have hnot : q ∉ ps := by
        rw [List.count_cons_self] at hone
        exact List.count_eq_zero.1 (by omega)
      have hrun := foldl_applyPatch_messages value (applyPatch value (out, m) q).1 ps
        (applyPatch value (out, m) q).2
      rw [exists_congr fun v => hrun.2.1 q v hnot]
      simp only [applyPatch, hrel, Patch.part, List.mem_append, exists_or]
      refine or_congr_right ?_
      cases fitsByte _ <;> simp
    · have hne : q ≠ p := hapart.ne.symm
      have hlen := length_applyPatch value m hin hq8
      have hkeep := readField_applyPatch_apart value m hin hq8 hapart
      rw [hrel] at hkeep
      have hih := ih (applyPatch value (out, m) q).1 (applyPatch value (out, m) q).2
        (fun x hx => by rw [hlen]; exact h x (by simp [hx])) (by rwa [List.count_cons_of_ne hne] at hone)
      refine hih.trans ?_
      have hmsg (v : BitVec 32) : .tooBig p v ∈ (applyPatch value (out, m) q).2 ↔
          Message.tooBig p v ∈ m := by
        obtain ⟨m', -, hbig, -, heq⟩ := applyPatch_messages value out q
        rw [heq m, List.mem_append]
        exact ⟨fun h => h.resolve_right fun h' => hne (hbig p v h').symm, .inl⟩
      rw [exists_congr hmsg]
      exact or_congr_right (by rw [show (1 : ℕ) = Rel.size .rel8 from rfl, hkeep])

/-- What `set_symbol` does to the table, the image and the messages. -/
theorem setSymbol_spec (h : TableOk st.symtab) (hname : (findSymbol st.symtab name).isSome)
    (value : BitVec 32) :
    TableOk (setSymbol st name value).symtab ∧
      (∀ n, lookup (setSymbol st name value).symtab n =
        if n = name then (if istemp name 'f' then none else some value)
        else if ends name n then none else lookup st.symtab n) ∧
      (∀ n, pending (setSymbol st name value).symtab n =
        if n = name ∨ ends name n then [] else pending st.symtab n) ∧
      ∃ m, (∀ p n, m.count (Message.undefined p n) = (beforeSet st name).messages.count
        (.undefined p n)) ∧
        (∀ p v, Message.tooBig p v ∈ m ↔ .tooBig p v ∈ st.messages) ∧
        (∀ p o, Message.offsetTooBig p o ∈ m ↔ .offsetTooBig p o ∈ st.messages) ∧
        ((setSymbol st name value).outbin, (setSymbol st name value).messages) =
          (pending st.symtab name).foldl (applyPatch value) (st.outbin, m) := by
  obtain ⟨s, hs⟩ := Option.isSome_iff_exists.1 hname
  obtain ⟨hok, hout, hbig, hoff⟩ := beforeSet_frame h name
  have hs' : findSymbol (beforeSet st name).symtab name = some s := by
    rw [findSymbol_beforeSet, ends_self, if_neg (by simp), hs]
  let new (s : Symbol) : Symbol := { s with value := value, defined := !istemp name 'f',
                                            patches := [] }
  let said : List Message :=
    if s.defined && !istemp name 'b' then [.redefined (beforeSet st name).place name] else []
  have heq : setSymbol st name value =
      { say (beforeSet st name) said with
        outbin := (s.patches.foldl (applyPatch value) ((beforeSet st name).outbin,
          (beforeSet st name).messages ++ said)).1
        messages := (s.patches.foldl (applyPatch value) ((beforeSet st name).outbin,
          (beforeSet st name).messages ++ said)).2
        symtab := updateSymbol (beforeSet st name).symtab name new } := by
    have hbefore : (if !islocal name && !istemp name '\x00' then destroyLocals st else st) =
        beforeSet st name := rfl
    unfold setSymbol
    dsimp only
    rw [hbefore, hs']
    rfl
  have hfind (n : Name) : findSymbol (setSymbol st name value).symtab n =
      if ends name n then none else (findSymbol st.symtab n).map fun s => if n =
        name then new s else s := by
    rw [heq]
    show findSymbol (updateSymbol (beforeSet st name).symtab name new) n = _
    rw [findSymbol_updateSymbol _ _ _ new fun _ => rfl, findSymbol_beforeSet]
    cases ends name n <;> rfl
  refine ⟨?_, fun n => ?_, fun n => ?_, (beforeSet st name).messages ++ said, fun p n => ?_,
    fun p v => ?_,
    fun p o => ?_, ?_⟩
  · rw [heq]
    exact hok.update name new (fun _ => rfl) fun _ _ _ _ => rfl
  · unfold lookup
    rw [hfind]
    by_cases hn : n = name
    · subst hn
      rw [ends_self, if_neg (by simp), hs, if_pos rfl]
      simp only [Option.map_some, if_true, new]
      cases istemp n 'f' <;> rfl
    · rw [if_neg hn]
      simp only [if_neg hn, Option.map_id']
      cases ends name n <;> rfl
  · unfold pending
    rw [hfind]
    by_cases hn : n = name
    · subst hn
      rw [ends_self, if_neg (by simp), hs]
      simp [new]
    · simp only [hn, if_false, Option.map_id', false_or]
      cases ends name n <;> rfl
  · have hsaid : Message.undefined p n ∉ said := by
      simp only [said]
      split <;> simp
    rw [List.count_append, List.count_eq_zero.2 hsaid, Nat.add_zero]
  · rw [List.mem_append, hbig]
    simp only [said]
    split <;> simp
  · rw [List.mem_append, hoff]
    simp only [said]
    split <;> simp
  · have hpend : pending st.symtab name = s.patches := by rw [pending, hs]
    rw [heq, hpend, hout]

end DjgppLibc.Djasm
