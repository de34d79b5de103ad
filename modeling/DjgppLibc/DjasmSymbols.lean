import Mathlib.Tactic.Ring
import DjgppLibc.DjasmReferences

/-!
# The references of `djasm` are resolved

A run from the empty table to the reports at the end. `target` is the definition that a
reference should get, and `references_resolved` says that its field holds it.
-/
namespace DjgppLibc.Djasm

open X86

variable {st st' : Asm} {name n : Name} {symtab : List Symbol}

theorem step_cases (h : TableOk st.symtab) {op : Op} (hcall : Called st op) :
    (∃ name value, op = .define name value) ∨
      (∃ q names, Emission st (step st op) q names) ∧ ∀ ops n, next (op :: ops) n = next ops n := by
  cases op with
  | line place =>
    exact .inr ⟨⟨⟨0, place, .abs⟩, [], emission_of_out h rfl (List.append_nil _).symm rfl⟩,
      fun _ _ => rfl⟩
  | bytes l => exact .inr ⟨⟨⟨0, st.place, .abs⟩, [], emission_of_out h rfl rfl rfl⟩, fun _ _ => rfl⟩
  | define name value => exact .inl ⟨name, value, rfl⟩
  | emits name offset rel => exact .inr ⟨⟨_, _, (step_emits h hcall).1⟩, fun _ _ => rfl⟩
  | disp mbyte needsib regs addr32 offset syms =>
    exact .inr ⟨⟨_, _, (step_disp h mbyte needsib regs addr32 offset syms).1⟩, fun _ _ => rfl⟩

variable {p : Patch} {names : List Name} {ops : List Op}

theorem Tracks.run (h : Tracks st p names) (hc : AllCalled st ops) :
    readField (run st ops).outbin p.location p.rel.size =
      (readField st.outbin p.location p.rel.size + (names.map
        (share p ops)).sum) % 256 ^ p.rel.size := by
  induction ops generalizing st names with
  | nil =>
    have hzero : (names.map (share p [])).sum = 0 := by
      rw [show share p [] = fun _ => 0 from rfl]
      simp
    rw [hzero, Nat.add_zero, Nat.mod_eq_of_lt (readField_lt _ _ _)]
    rfl
  | cons op ops ih =>
    obtain ⟨name, value, rfl⟩ | ⟨⟨q, news, he⟩, hnext⟩ := step_cases h.table hc.1
    · obtain ⟨ht, hf⟩ := h.define name value
      refine (ih ht hc.2).trans ?_
      rw [hf, Nat.mod_add_mod, sum_share_define, Nat.add_assoc]
    · obtain ⟨ht, hf⟩ := h.emission he
      have hshare : share p (op :: ops) = share p ops := by
        funext n
        rw [share, hnext, share]
      refine (ih ht hc.2).trans ?_
      rw [hf, hshare]

theorem Tracks.run_undefined (h : Tracks st p names) (hc : AllCalled st ops) (n : Name) :
    (finish (Djasm.run st ops)).messages.count (.undefined p n) =
      st.messages.count (.undefined p n) + if (next ops n).isNone then names.count n else 0 := by
  induction ops generalizing st names with
  | nil =>
    show (st.messages ++ st.symtab.flatMap undefinedMessages).count _ = _
    rw [List.count_append, count_undefinedMessages h.table, h.count]
    rfl
  | cons op ops ih =>
    obtain ⟨name, value, rfl⟩ | ⟨⟨q, news, he⟩, hnext⟩ := step_cases h.table hc.1
    · refine (ih (h.define name value).1 hc.2).trans ?_
      rw [(h.define_messages name value).1 n, next, count_still]
      by_cases hn : n = name
      · subst hn
        simp [ends_self]
      · cases hends : ends name n <;> simp [hn]
    · refine (ih (h.emission he).1 hc.2).trans ?_
      rw [he.undefined, hnext]

theorem tooBig_finish (st : Asm) (p : Patch) (v : BitVec 32) :
    .tooBig p v ∈ (finish st).messages ↔ .tooBig p v ∈ st.messages := by
  have hnot : Message.tooBig p v ∉ st.symtab.flatMap undefinedMessages := by
    intro hm
    obtain ⟨s, -, hs⟩ := List.mem_flatMap.1 hm
    obtain ⟨q, n, hq⟩ := mem_undefinedMessages hs
    cases hq
  show _ ∈ st.messages ++ _ ↔ _
  rw [List.mem_append, or_iff_left hnot]

theorem Tracks.run_tooBig_nil (h : Tracks st p []) (hc : AllCalled st ops) (v : BitVec 32) :
    .tooBig p v ∈ (finish (Djasm.run st ops)).messages ↔ .tooBig p v ∈ st.messages := by
  induction ops generalizing st with
  | nil => exact tooBig_finish st p v
  | cons op ops ih =>
    obtain ⟨name, value, rfl⟩ | ⟨⟨q, news, he⟩, -⟩ := step_cases h.table hc.1
    · refine (ih (h.define name value).1 hc.2).trans ?_
      exact (h.define_messages name value).2.1 rfl v
    · refine (ih (h.emission he).1 hc.2).trans ?_
      exact he.tooBig p v (.inl (Nat.lt_of_lt_of_le p.location_lt_stop h.inside))

theorem Tracks.run_tooBig {n : Name} (h : Tracks st p [n]) (hrel : p.rel = .rel8)
    (hc : AllCalled st ops) :
    (∃ v, .tooBig p v ∈ (finish (Djasm.run st ops)).messages) ↔ (∃ v, .tooBig p v ∈ st.messages) ∨
      ∃ x, next ops n = some x ∧
        fitsByte ((BitVec.ofNat 8 (readField st.outbin p.location 1)).signExtend 32 + p.part x) =
        false := by
  induction ops generalizing st with
  | nil => simp [next, Djasm.run, tooBig_finish]
  | cons op ops ih =>
    obtain ⟨name, value, rfl⟩ | ⟨⟨q, news, he⟩, hnext⟩ := step_cases h.table hc.1
    · have ht := (h.define name value).1
      obtain ⟨-, hkeep, hone⟩ := h.define_messages name value
      by_cases hn : n = name
      · subst hn
        have ht' : Tracks (step st (.define n value)) p [] := by simpa [still] using ht
        rw [show Djasm.run st (.define n value :: ops) = Djasm.run
          (step st (.define n value)) ops from rfl,
          exists_congr fun v => ht'.run_tooBig_nil hc.2 v, hone hrel (by simp)]
        simp [next]
      · have hzero : [n].count name = 0 := by simp [hn]
        have hmsg := exists_congr (hkeep hzero)
        rw [show Djasm.run st (.define name value :: ops) = Djasm.run
          (step st (.define name value)) ops from rfl]
        cases hends : ends name n with
        | true =>
          have ht' : Tracks (step st (.define name value)) p [] := by
            simpa [still, hn, hends] using ht
          rw [exists_congr fun v => ht'.run_tooBig_nil hc.2 v, hmsg]
          simp [next, hn, hends]
        | false =>
          have ht' : Tracks (step st (.define name value)) p [n] := by
            simpa [still, hn, hends] using ht
          have hfield := (h.define name value).2
          rw [hzero, Nat.zero_mul, Nat.add_zero, Nat.mod_eq_of_lt (readField_lt _ _ _),
            hrel] at hfield
          rw [ih ht' hc.2, hmsg, show (1 : ℕ) = Rel.size .rel8 from rfl, hfield]
          simp [next, hn, hends]
    · obtain ⟨ht, hfield⟩ := h.emission he
      rw [hrel] at hfield
      have hmsg (v : BitVec 32) := he.tooBig p v
        (.inl (Nat.lt_of_lt_of_le p.location_lt_stop h.inside))
      rw [show Djasm.run st (op :: ops) = Djasm.run (step st op) ops from rfl, ih ht hc.2,
        exists_congr hmsg,
        show (1 : ℕ) = Rel.size .rel8 from rfl, hfield, hnext]

/-- What holds in every state: open references are in the image, and so are those that
messages are about. -/
structure Sound (st : Asm) : Prop where
  table : TableOk st.symtab
  inside : ∀ n, ∀ q ∈ pending st.symtab n, q.stop ≤ st.pc ∧ q.rel ≠ .abs8
  undefined : ∀ p n, st.pc ≤ p.location → .undefined p n ∉ st.messages
  tooBig : ∀ p v, st.pc ≤ p.location → .tooBig p v ∉ st.messages
  offset : ∀ p o, .offsetTooBig p o ∉ st.messages

theorem sound_emptyAsm : Sound emptyAsm where
  table := ⟨List.nodup_nil, by simp [emptyAsm]⟩
  inside n q hq := by simp [emptyAsm, pending, findSymbol] at hq
  undefined := by simp [emptyAsm]
  tooBig := by simp [emptyAsm]
  offset := by simp [emptyAsm]

theorem Sound.emission {q : Patch} (h : Sound st) (he : Emission st st' q names) : Sound st' where
  table := he.table
  inside n x hx := by
    rw [he.pending, List.mem_append] at hx
    obtain hx | hx := hx
    · obtain ⟨hne, rfl⟩ := List.mem_replicate.1 hx
      have hnames : names ≠ [] := by
        rintro rfl
        exact hne List.count_nil
      exact ⟨(he.fresh hnames).2.1, (he.fresh hnames).2.2⟩
    · exact ⟨(h.inside n x hx).1.trans he.pc_le, (h.inside n x hx).2⟩
  undefined p n hp := by
    rw [← List.count_eq_zero, he.undefined, List.count_eq_zero]
    exact h.undefined p n (he.pc_le.trans hp)
  tooBig p v hp := by
    rw [he.tooBig p v (.inr hp)]
    exact h.tooBig p v (he.pc_le.trans hp)
  offset p o := by
    rw [he.offset]
    exact h.offset p o

/-- The patches of the table are apart from a place behind the image. -/
theorem Sound.around (h : Sound st) (hp : st.pc ≤ p.location) (n : Name) :
    Around p st.outbin (pending st.symtab n) ∧ (pending st.symtab n).count p = 0 := by
  refine ⟨fun q hq => ⟨(h.inside n q hq).1, (h.inside n q hq).2,
    .inr (.inr ((h.inside n q hq).1.trans hp))⟩, ?_⟩
  rw [List.count_eq_zero]
  intro hm
  have := (h.inside n p hm).1
  have := p.location_lt_stop
  omega

theorem Sound.define (h : Sound st) (name : Name) (value : BitVec 32) :
    Sound (step st (.define name value)) ∧ (step st (.define name value)).pc = st.pc ∧
      ∀ n, lookup (step st (.define name value)).symtab n =
        if n = name then (if istemp name 'f' then none else some value)
        else if ends name n then none else lookup st.symtab n := by
  obtain ⟨hok, hl, hpend, hsome, -⟩ := getSymbol_spec h.table name
  obtain ⟨hout, hmsg, -⟩ := getSymbol_frame st name
  obtain ⟨hok', hl', hpend', m, hund, hbig, hoff, hrun⟩ := setSymbol_spec hok hsome value
  rw [hpend, hout] at hrun
  have hm : (step st (.define name value)).messages =
      ((pending st.symtab name).foldl (applyPatch value) (st.outbin, m)).2 := congrArg Prod.snd hrun
  have hpc : (step st (.define name value)).pc = st.pc := by
    have hlen := (foldl_applyPatch value st.outbin m (h.around (p := ⟨st.pc, st.place, .abs⟩)
      (Nat.le_refl _) name).1).1
    rw [← hrun] at hlen
    exact hlen
  obtain ⟨hkeep, hother, hoffs⟩ := foldl_applyPatch_messages value st.outbin
    (pending st.symtab name) m
  refine ⟨⟨hok', fun n q hq => ?_, fun p n hp => ?_, fun p v hp => ?_, fun p o => ?_⟩, hpc,
    fun n => ?_⟩
  · rw [hpc]
    rw [step, hpend'] at hq
    split at hq
    · cases hq
    · rw [hpend] at hq
      exact h.inside n q hq
  · rw [hpc] at hp
    rw [← List.count_eq_zero, hm, hkeep, hund, count_beforeSet hok, hmsg, hpend,
      List.count_eq_zero.2 (h.undefined p n hp), (h.around hp n).2]
    split <;> rfl
  · rw [hpc] at hp
    rw [hm, hother p v (List.count_eq_zero.1 (h.around hp name).2), hbig, hmsg]
    exact h.tooBig p v hp
  · rw [hm, hoffs, hoff, hmsg]
    exact h.offset p o
  · rw [step, hl']
    simp only [hl]

theorem Sound.step (h : Sound st) {op : Op} (hcall : Called st op) : Sound (step st op) := by
  obtain ⟨name, value, rfl⟩ | ⟨⟨q, news, he⟩, -⟩ := step_cases h.table hcall
  · exact (h.define name value).1
  · exact h.emission he

theorem Sound.run (h : Sound st) (hc : AllCalled st ops) : Sound (Djasm.run st ops) := by
  induction ops generalizing st with
  | nil => exact h
  | cons op ops ih => exact ih (h.step hc.1) hc.2

theorem allCalled_append {ops' : List Op} :
    AllCalled st (ops ++ ops') ↔ AllCalled st ops ∧ AllCalled (run st ops) ops' := by
  induction ops generalizing st with
  | nil => simp [AllCalled, run]
  | cons op ops ih =>
    rw [List.cons_append, AllCalled, AllCalled, ih, and_assoc]
    rfl

theorem lookup_run (hc : AllCalled emptyAsm ops) (n : Name) :
    lookup (run emptyAsm ops).symtab n = if istemp n 'f' then none else next ops.reverse n := by
  induction ops using List.reverseRecOn with
  | nil => simp [run, emptyAsm, lookup, findSymbol, next]
  | append_singleton ops op ih =>
    obtain ⟨hpre, hop⟩ := allCalled_append.1 hc
    have hs := sound_emptyAsm.run hpre
    rw [run, List.foldl_append, List.reverse_append]
    show lookup (step (run emptyAsm ops) op).symtab n = if istemp n 'f' then none
      else next (op :: ops.reverse) n
    obtain ⟨name, value, rfl⟩ | ⟨⟨q, news, he⟩, hnext⟩ := step_cases hs.table hop.1
    · rw [(hs.define name value).2.2, ih hpre, next]
      by_cases hn : n = name
      · subst hn
        simp
      · simp only [hn, if_false]
        cases ends name n <;> simp
    · rw [he.lookup, ih hpre, hnext]

/-- The value that a call gives to a symbol. -/
def definition (n : Name) : Op → Option (BitVec 32)
  | .define name value => if n = name then some value else none
  | _ => none

def definesOrdinary : Op → Bool
  | .define name _ => ordinary name
  | _ => false

def firstDef (ops : List Op) (n : Name) : Option (BitVec 32) := ops.findSome? (definition n)

def lastDef (ops : List Op) (n : Name) : Option (BitVec 32) := firstDef ops.reverse n

def untilOrdinary (ops : List Op) : List Op := ops.takeWhile fun op => !definesOrdinary op

def sinceOrdinary (ops : List Op) : List Op := (untilOrdinary ops.reverse).reverse

/-- The definition for a reference between the calls `pre` and `post`. -/
def target (pre post : List Op) (n : Name) : Option (BitVec 32) :=
  if istemp n 'f' then firstDef post n
  else if istemp n 'b' then (lastDef pre n).or (firstDef post n)
  else if islocal n then (lastDef (sinceOrdinary pre) n).or (firstDef (untilOrdinary post) n)
  else firstDef (pre ++ post) n

def DefinedOnce (ops : List Op) : Prop :=
  ∀ n, ordinary n = true → (ops.filterMap (definition n)).length ≤ 1

theorem next_eq (ops : List Op) (n : Name) :
    next ops n = if islocal n then firstDef (untilOrdinary ops) n else firstDef ops n := by
  induction ops with
  | nil => simp [next, firstDef, untilOrdinary]
  | cons op ops ih =>
    cases op with
    | define name value =>
      rw [next, ih]
      by_cases hn : n = name
      · subst hn
        cases hl : islocal n with
        | true => simp [firstDef, untilOrdinary, definition, definesOrdinary, ordinary, hl]
        | false => simp [firstDef, definition]
      · cases hl : islocal n <;> cases ho : ordinary name <;>
          simp [hn, firstDef, untilOrdinary, definition, definesOrdinary, ends, hl, ho]
    | _ => exact ih

theorem istemp_of_which {n : Name} {c : Char} (hc : c = 'f' ∨ c = 'b') (h : istemp n c = true) :
    istemp n '\x00' = true ∧ islocal n = false := by
  unfold istemp at h ⊢
  split at h
  · next a k d =>
    obtain rfl | rfl := hc
    · simp at h ⊢
      simp [h, islocal]
    · simp at h ⊢
      simp [h, islocal]
  · cases h

/-- With one definition at most, the last one is the first one. -/
theorem findSome?_reverse_of_length {α β : Type} {f : α → Option β} {l : List α}
    (h : (l.filterMap f).length ≤ 1) : l.reverse.findSome? f = l.findSome? f := by
  rw [← List.head?_filterMap, ← List.head?_filterMap, List.filterMap_reverse]
  match hl : l.filterMap f, h with
  | [], _ => rfl
  | [x], _ => rfl

theorem target_eq {pre post : List Op} (h : DefinedOnce (pre ++ post)) (n : Name) :
    (if istemp n 'f' then none else next pre.reverse n).or (next post n) = target pre post n := by
  unfold target
  cases hf : istemp n 'f' with
  | true =>
    have := istemp_of_which (.inl rfl) hf
    simp [next_eq, this.2]
  | false =>
    cases hb : istemp n 'b' with
    | true =>
      have := istemp_of_which (.inr rfl) hb
      simp [next_eq, this.2, lastDef]
    | false =>
      cases hl : islocal n with
      | true => simp [next_eq, hl, lastDef, sinceOrdinary]
      | false =>
        have hord : ordinary n = true := by
          have htemp : istemp n '\x00' = false := by
            unfold istemp at hf hb ⊢
            split at hf
            · simp at hf hb ⊢
              grind
            · rfl
          simp [ordinary, hl, htemp]
        have hpre : (pre.filterMap (definition n)).length ≤ 1 := by
          have := h n hord
          rw [List.filterMap_append, List.length_append] at this
          omega
        simp only [next_eq, hl, Bool.false_eq_true, if_false, firstDef, List.findSome?_append]
        rw [findSome?_reverse_of_length hpre]

/-- The field of a reference: its patch, its offset and its symbols. -/
def reference (st : Asm) : Op → Option (Patch × BitVec 32 × List Name)
  | .emits name offset rel => some (emitsPatch st rel, offset, [name])
  | .disp _ needsib regs addr32 offset syms => some (dispPatch st needsib regs addr32 offset syms,
      offset, syms)
  | _ => none

def fieldValue (p : Patch) (offset : BitVec 32) (values : List (BitVec 32)) : BitVec 32 :=
  match p.rel with
  | .rel16 | .rel8 => values.foldr (· + ·) 0 + offset - BitVec.ofNat 32 p.stop
  | _ => values.foldr (· + ·) 0 + offset

theorem Sound.tracks (h : Sound st) (he : Emission st st' p names) (hp : st.pc ≤ p.location)
    (hstop : p.stop ≤ st'.pc) : Tracks st' p names where
  table := he.table
  inside := hstop
  around n q hq := by
    rw [he.pending, List.mem_append] at hq
    obtain hq | hq := hq
    · obtain ⟨hne, rfl⟩ := List.mem_replicate.1 hq
      have hnames : names ≠ [] := by
        rintro rfl
        exact hne List.count_nil
      exact ⟨hstop, (he.fresh hnames).2.2, .inl rfl⟩
    · obtain ⟨hin, hrest⟩ := (h.around hp n).1 q hq
      exact ⟨Nat.le_trans hin he.pc_le, hrest⟩
  count n := by
    rw [he.pending, List.count_append, (h.around hp n).2, List.count_replicate_self, Nat.add_zero]

def partNow (symtab : List Symbol) (p : Patch) (n : Name) : BitVec 32 :=
  match lookup symtab n with
  | some v => p.part v
  | none => 0

/-- A reference behind its call: the field, and what it waits for. -/
theorem step_reference (h : Sound st) {op : Op} (hcall : Called st op) {offset : BitVec 32}
    {syms : List Name}
    (href : reference st op = some (p, offset, syms)) :
    Tracks (step st op) p (openNames st.symtab syms) ∧ st.pc ≤ p.location ∧
      (p.rel = .rel16 ∨ p.rel = .rel8 → ∃ name, op = .emits name offset p.rel ∧ syms = [name]) ∧
      readField (step st op).outbin p.location p.rel.size =
        (offset + (syms.map (partNow st.symtab p)).foldr (· + ·) 0).toNat % 256 ^ p.rel.size ∧
      ∀ n, (step st op).messages.count (.undefined p n) = 0 := by
  cases op with
  | emits name offset' rel =>
    obtain ⟨rfl, rfl, rfl⟩ : p = emitsPatch st rel ∧ offset = offset' ∧ syms = [name] := by
      simpa [reference, eq_comm] using href
    obtain ⟨he, hout, -⟩ := step_emits h.table hcall
    have hfield := readField_append_new st.outbin []
      (lowBytes rel.size (offset + partNow st.symtab (emitsPatch st rel) name)) []
    rw [List.nil_append, List.append_nil, length_lowBytes, littleEndian_lowBytes] at hfield
    refine ⟨h.tracks he (Nat.le_refl _) ?_, Nat.le_refl _, fun _ => ⟨name, rfl, rfl⟩, ?_,
      fun n => ?_⟩
    · rw [Asm.pc, hout, List.length_append, length_lowBytes]
      exact Nat.le_refl _
    · rw [hout]
      refine hfield.trans ?_
      rw [List.map_singleton, List.foldr_cons, List.foldr_nil]
      exact congrArg (fun v => (offset + v).toNat % _) (BitVec.add_zero _).symm
    · rw [he.undefined, List.count_eq_zero]
      exact h.undefined _ _ (Nat.le_refl _)
  | disp mbyte needsib regs addr32 offset' syms' =>
    obtain ⟨rfl, rfl, rfl⟩ : p = dispPatch st needsib regs addr32 offset' syms' ∧ offset = offset' ∧
        syms = syms' := by
      simpa [reference, eq_comm] using href
    obtain ⟨he, hout⟩ := step_disp h.table mbyte needsib regs addr32 offset syms
    have hpre := length_dispHead st mbyte needsib regs offset syms
    have hfield := readField_append_new st.outbin (dispHead st mbyte needsib regs offset syms)
      (lowBytes (dispRel st regs addr32 offset syms).size (offset + valueSum st.symtab syms)) []
    rw [List.append_nil, length_lowBytes, littleEndian_lowBytes, hpre, ← Nat.add_assoc] at hfield
    have hrel : dispRel st regs addr32 offset syms = .abs8 ∨
      dispRel st regs addr32 offset syms = .abs32 ∨
        dispRel st regs addr32 offset syms = .abs := by
      unfold dispRel
      split_ifs <;> simp
    have hpart (v : BitVec 32) : (dispPatch st needsib regs addr32 offset syms).part v = v := by
      unfold Patch.part
      have hp : (dispPatch st needsib regs addr32 offset syms).rel =
        dispRel st regs addr32 offset syms := rfl
      obtain hr | hr | hr := hrel <;> rw [hp, hr]
    have hsum : (syms.map (partNow st.symtab (dispPatch st needsib regs addr32 offset syms))).foldr
      (· + ·) 0 =
        valueSum st.symtab syms := by
      have hfun : partNow st.symtab (dispPatch st needsib regs addr32 offset syms) =
          fun n => (lookup st.symtab n).getD 0 := by
        funext n
        unfold partNow
        cases lookup st.symtab n with
        | none => rfl
        | some v => exact hpart v
      rw [hfun, valueSum, List.foldr_map]
    have hloc : st.pc ≤ (dispPatch st needsib regs addr32 offset syms).location := by
      show st.pc ≤ st.pc + 1 + needsib.toNat
      omega
    refine ⟨h.tracks he hloc ?_, hloc, fun hr => ?_, ?_, fun n => ?_⟩
    · show st.pc + 1 + needsib.toNat + (dispRel st regs addr32 offset syms).size ≤ _
      rw [Asm.pc, Asm.pc, hout, List.length_append, List.length_append, length_lowBytes, hpre]
      omega
    · have hp : (dispPatch st needsib regs addr32 offset syms).rel =
        dispRel st regs addr32 offset syms := rfl
      rw [hp] at hr
      obtain h1 | h1 | h1 := hrel <;> simp [h1] at hr
    · rw [hout, hsum]
      exact hfield
    · rw [he.undefined, List.count_eq_zero]
      exact h.undefined _ _ hloc
  | _ => simp [reference] at href

theorem toNat_add_modEq {M : ℕ} (hM : M ∣ 2 ^ 32) (a b : BitVec 32) :
    (a + b).toNat ≡ a.toNat + b.toNat [MOD M] := by
  rw [BitVec.toNat_add]
  exact Nat.mod_mod_of_dvd _ hM

theorem pow_size_dvd (rel : Rel) : 256 ^ rel.size ∣ 2 ^ 32 := by
  cases rel <;> decide

theorem parts_modEq {M : ℕ} (hM : M ∣ 2 ^ 32) (symtab : List Symbol) (p : Patch) (post : List Op)
    {syms : List Name} {values : List (BitVec 32)}
    (h : syms.map (fun n => (lookup symtab n).or (next post n)) = values.map some) :
    ((syms.map (partNow symtab p)).foldr (· + ·) 0).toNat + ((openNames symtab syms).map
      (share p post)).sum ≡
      ((values.map p.part).foldr (· + ·) 0).toNat [MOD M] := by
  induction syms generalizing values with
  | nil =>
    obtain rfl : values = [] := by simpa using h.symm
    exact Nat.ModEq.refl _
  | cons n syms ih =>
    obtain ⟨v, values, rfl⟩ : ∃ v vs, values = v :: vs := by
      cases values with
      | nil => simp at h
      | cons v vs => exact ⟨v, vs, rfl⟩
    simp only [List.map_cons, List.cons.injEq] at h
    have hih := ih h.2
    simp only [List.map_cons, List.foldr_cons]
    have hright := toNat_add_modEq hM (p.part v) ((values.map p.part).foldr (· + ·) 0)
    have hleft := toNat_add_modEq hM (partNow symtab p n)
      ((syms.map (partNow symtab p)).foldr (· + ·) 0)
    cases hlook : lookup symtab n with
    | some x =>
      obtain rfl : x = v := by simpa [hlook] using h.1
      have hopen : openNames symtab (n :: syms) = openNames symtab syms := by
        simp [openNames, hlook]
      have hpart : partNow symtab p n = p.part x := by rw [partNow, hlook]
      rw [hopen]
      refine (hleft.add_right _).trans (Nat.ModEq.trans ?_ hright.symm)
      rw [hpart, Nat.add_assoc]
      exact hih.add_left _
    | none =>
      have hnext : next post n = some v := by simpa [hlook] using h.1
      have hopen : openNames symtab (n :: syms) = n :: openNames symtab syms := by
        simp [openNames, hlook]
      have hpart : (partNow symtab p n).toNat = 0 := by rw [partNow, hlook]; rfl
      have hshare : share p post n = (p.part v).toNat := by rw [share, hnext]
      rw [hopen, List.map_cons, List.sum_cons, hshare]
      refine (hleft.add_right _).trans (Nat.ModEq.trans ?_ hright.symm)
      rw [hpart, Nat.zero_add, ← Nat.add_assoc, Nat.add_comm _ (p.part v).toNat, Nat.add_assoc]
      exact hih.add_left _

theorem fieldValue_eq (p : Patch) (offset : BitVec 32) (values : List (BitVec 32))
    (h : p.rel = .rel16 ∨ p.rel = .rel8 → ∃ v, values = [v]) :
    offset + (values.map p.part).foldr (· + ·) 0 = fieldValue p offset values := by
  have hplus (k : ℕ) : BitVec.ofNat 32 (p.location + k) =
    BitVec.ofNat 32 p.location + BitVec.ofNat 32 k :=
    BitVec.ofNat_add _ _
  have hstop : p.stop = p.location + p.rel.size := rfl
  cases hrel : p.rel with
  | rel16 =>
    obtain ⟨v, rfl⟩ := h (.inl hrel)
    simp only [Patch.part, fieldValue, hrel, hstop, hplus, Rel.size, List.map_cons, List.map_nil,
      List.foldr_cons,
      List.foldr_nil]
    rw [show BitVec.ofNat 32 2 = (2 : BitVec 32) from rfl]
    ring
  | rel8 =>
    obtain ⟨v, rfl⟩ := h (.inr hrel)
    simp only [Patch.part, fieldValue, hrel, hstop, hplus, Rel.size, List.map_cons, List.map_nil,
      List.foldr_cons,
      List.foldr_nil]
    rw [show BitVec.ofNat 32 1 = (1 : BitVec 32) from rfl]
    ring
  | _ =>
    have hpart : p.part = id := by
      funext v
      simp only [Patch.part, hrel, id]
    rw [hpart, List.map_id, BitVec.add_comm]
    simp only [fieldValue, hrel]

theorem readField_final (h : Sound st) (op : Op) (hcall : Called st op) {offset : BitVec 32}
    {syms : List Name}
    (href : reference st op = some (p, offset, syms)) {post : List Op}
    (hpost : AllCalled (step st op) post)
    {values : List (BitVec 32)}
    (hvalues : syms.map (fun n => (lookup st.symtab n).or (next post n)) = values.map some) :
    readField (run (step st op) post).outbin p.location p.rel.size =
      (fieldValue p offset values).toNat % 256 ^ p.rel.size := by
  obtain ⟨htr, -, hrel, hfield, -⟩ := step_reference h hcall href
  have hmod := parts_modEq (pow_size_dvd p.rel) st.symtab p post hvalues
  rw [← fieldValue_eq p offset values]
  · rw [htr.run hpost, hfield, Nat.mod_add_mod]
    refine ((toNat_add_modEq (pow_size_dvd p.rel) _ _).add_right _).trans
      (Nat.ModEq.trans ?_ (toNat_add_modEq (pow_size_dvd p.rel) _ _).symm)
    rw [Nat.add_assoc]
    exact hmod.add_left _
  · intro hr
    obtain ⟨name, -, rfl⟩ := hrel hr
    have hlen := congrArg List.length hvalues
    simp only [List.length_map, List.length_singleton] at hlen
    exact List.length_eq_one_iff.1 hlen.symm

theorem rel8_tooBig {name : Name} {offset : BitVec 32} {post : List Op} (h : Sound st)
    (hcall : Called st (.emits name offset p.rel))
    (href : reference st (.emits name offset p.rel) = some (p, offset, [name])) (h8 : p.rel = .rel8)
    (htr : Tracks (step st (.emits name offset p.rel)) p (openNames st.symtab [name]))
    (hpost : AllCalled (step st (.emits name offset p.rel)) post) {find : Name → Option (BitVec 32)}
    (hfind : find = fun n => (lookup st.symtab n).or (next post n)) :
    (∃ v, .tooBig p v ∈ (finish (run (step st (.emits name offset p.rel)) post)).messages) ↔
      ∃ x, [name].map find = [some x] ∧ fitsByte (fieldValue p offset [x]) = false := by
  have hp : emitsPatch st p.rel = p := by simpa [reference] using href
  obtain ⟨-, hout, hmsg⟩ := step_emits h.table hcall
  rw [hp] at hmsg hout
  have hold (v : BitVec 32) : .tooBig p v ∉ st.messages := by
    refine h.tooBig p v ?_
    rw [← hp]
    exact Nat.le_refl _
  have hval (x : BitVec 32) : fieldValue p offset [x] = p.part x + offset := by
    rw [← fieldValue_eq p offset [x] fun _ => ⟨x, rfl⟩, List.map_singleton, List.foldr_cons,
      List.foldr_nil,
      BitVec.add_comm]
    exact congrArg (· + offset) (BitVec.add_zero _)
  subst hfind
  cases hlook : lookup st.symtab name with
  | some x =>
    have hnone : openNames st.symtab [name] = [] := by simp [openNames, hlook]
    rw [hnone] at htr
    rw [exists_congr fun v => htr.run_tooBig_nil hpost v, exists_congr hmsg]
    simp [hold, hlook, h8, hval]
  | none =>
    have hnone : openNames st.symtab [name] = [name] := by simp [openNames, hlook]
    rw [hnone] at htr
    have hzero : offset = 0 := hcall.1 h8
    have hbyte : readField (step st (.emits name offset p.rel)).outbin p.location 1 = 0 := by
      have hfield := readField_append_new st.outbin [] (lowBytes 1 0) []
      have hloc : p.location = st.outbin.length := by rw [← hp]; rfl
      rw [hout, hlook, hzero, h8, hloc]
      exact hfield
    rw [htr.run_tooBig h8 hpost, hbyte, exists_congr hmsg]
    have hext (x : BitVec 32) : (BitVec.ofNat 8 0).signExtend 32 + p.part x = p.part x :=
      BitVec.zero_add _
    have hval' (x : BitVec 32) : fieldValue p offset [x] = p.part x := by
      rw [hval, hzero]
      exact BitVec.add_zero _
    simp only [hext, hval']
    simp [hold, hlook]

/-- Every reference gets the value of its definition, is reported if there is none, and
is refused as a short jump exactly if it is too far. -/
theorem references_resolved (ops pre post : List Op) (op : Op)
    (h : .define zeroName 0 :: ops = pre ++ op :: post)
    (honce : DefinedOnce (.define zeroName 0 :: ops))
    (hcall : AllCalled emptyAsm (.define zeroName 0 :: ops))
    (p : Patch) (offset : BitVec 32) (syms : List Name)
    (href : reference (run emptyAsm pre) op = some (p, offset, syms)) :
    (∀ values, syms.map (target pre post) = values.map some →
      readField (assemble ops).outbin p.location p.rel.size =
        (fieldValue p offset values).toNat % 256 ^ p.rel.size) ∧
      (∀ n, (assemble ops).messages.count (.undefined p n) =
        if (target pre post n).isNone then syms.count n else 0) ∧
      (p.rel = .rel8 → ((∃ v, .tooBig p v ∈ (assemble ops).messages) ↔
        ∃ x, syms.map (target pre post) = [some x] ∧ fitsByte (fieldValue p offset [x]) = false)) ∧
      ∀ o, .offsetTooBig p o ∉ (assemble ops).messages := by
  rw [h] at honce hcall
  obtain ⟨hcpre, hcop, hcpost⟩ := allCalled_append.1 hcall
  have hs := sound_emptyAsm.run hcpre
  obtain ⟨htr, hloc, hrel, hfield, hund⟩ := step_reference hs hcop href
  have hassemble : assemble ops = finish (run (step (run emptyAsm pre) op) post) := by
    rw [assemble, h, run, List.foldl_append]
    rfl
  have hnotdef : ∀ n, definition n op = none := by
    intro n
    cases op <;> first | rfl | simp [reference] at href
  have hor (n : Name) : target pre post n = (lookup (run emptyAsm pre).symtab n).or
      (next post n) := by
    rw [lookup_run hcpre]
    refine (target_eq (fun n hn => ?_) n).symm
    have := honce n hn
    rw [List.filterMap_append, List.filterMap_cons, hnotdef n] at this
    rwa [List.filterMap_append]
  have htarget : target pre post = fun n => (lookup (run emptyAsm pre).symtab n).or (next post n) :=
    funext hor
  refine ⟨fun values hvalues => ?_, fun n => ?_, fun h8 => ?_, fun o => ?_⟩
  · rw [hassemble]
    exact readField_final hs op hcop href hcpost (by rw [← htarget]; exact hvalues)
  · have hopen : (openNames (run emptyAsm pre).symtab syms).count n =
        if (lookup (run emptyAsm pre).symtab n).isNone then syms.count n else 0 := by
      unfold openNames
      split
      · next hn => exact List.count_filter hn
      · next hn =>
        rw [List.count_eq_zero]
        exact fun hm => hn (List.mem_filter.1 hm).2
    rw [hassemble, htr.run_undefined hcpost, hund, Nat.zero_add, hopen, hor]
    cases lookup (run emptyAsm pre).symtab n <;> cases next post n <;> rfl
  · obtain ⟨name, rfl, rfl⟩ := hrel (.inr h8)
    rw [hassemble]
    exact rel8_tooBig hs hcop href h8 htr hcpost htarget
  · rw [hassemble]
    have hsound := (hs.step hcop).run hcpost
    have hnot : Message.offsetTooBig p o ∉
        (run (step (run emptyAsm pre) op) post).symtab.flatMap undefinedMessages := by
      intro hm
      obtain ⟨s, -, hs⟩ := List.mem_flatMap.1 hm
      obtain ⟨q, n, hq⟩ := mem_undefinedMessages hs
      cases hq
    exact fun hm => (List.mem_append.1 hm).elim (hsound.offset p o) hnot

/-- A short jump over two bytes. -/
theorem references_resolved_jump :
    readField (assemble [.emits ['x'] 0 .rel8, .bytes [0x90, 0x90], .define ['x'] 3]).outbin 0 1 =
    2 ∧
      ¬ ∃ v, .tooBig ⟨0, ⟨"", 0⟩, .rel8⟩ v ∈
        (assemble [.emits ['x'] 0 .rel8, .bytes [0x90, 0x90], .define ['x'] 3]).messages := by
  have honce : DefinedOnce [.define zeroName 0, .emits ['x'] 0 .rel8, .bytes [0x90, 0x90],
      .define ['x'] 3] := by
    intro n _
    by_cases h0 : n = zeroName
    · subst h0
      decide
    · by_cases hx : n = ['x']
      · subst hx
        decide
      · have h₀ : definition n (.define zeroName 0) = none := if_neg h0
        have h₁ : definition n (.emits ['x'] 0 .rel8) = none := rfl
        have h₂ : definition n (.bytes [0x90, 0x90]) = none := rfl
        have h₃ : definition n (.define ['x'] 3) = none := if_neg hx
        simp only [List.filterMap_cons, h₀, h₁, h₂, h₃, List.filterMap_nil, List.length_nil,
          Nat.zero_le]
  obtain ⟨hfield, -, hbig, -⟩ := references_resolved [.emits ['x'] 0 .rel8, .bytes [0x90, 0x90],
    .define ['x'] 3]
    [.define zeroName 0] [.bytes [0x90, 0x90], .define ['x'] 3] (.emits ['x'] 0 .rel8) rfl honce
    (by simp [AllCalled, Called]) ⟨0, ⟨"", 0⟩, .rel8⟩ 0 [['x']] rfl
  refine ⟨hfield [3] rfl, fun h => ?_⟩
  obtain ⟨x, hx, hfit⟩ := (hbig rfl).1 h
  obtain rfl : 3 = x := by
    have : [some (3 : BitVec 32)] = [some x] := hx
    simpa using this
  exact absurd hfit (by decide)

end DjgppLibc.Djasm
