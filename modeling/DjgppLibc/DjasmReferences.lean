import DjgppLibc.DjasmTable

/-!
# References of `djasm`

A field of the image and the symbols it waits for are followed through the calls
(`Tracks`): a definition adds its part to the field, and every other call appends bytes
and perhaps leaves patches for a field of its own (`Emission`).
-/
namespace DjgppLibc.Djasm

open X86

variable {st st' : Asm} {name n : Name} {symtab : List Symbol}

/-- What the other calls do: bytes are appended, and the symbols `names` wait for `q`. -/
structure Emission (st st' : Asm) (q : Patch) (names : List Name) : Prop where
  out : ∃ l, st'.outbin = st.outbin ++ l
  table : TableOk st'.symtab
  lookup : ∀ n, lookup st'.symtab n = Djasm.lookup st.symtab n
  pending : ∀ n, pending st'.symtab n = List.replicate (names.count n) q ++
    Djasm.pending st.symtab n
  fresh : names ≠ [] → st.pc ≤ q.location ∧ q.stop ≤ st'.pc ∧ q.rel ≠ .abs8
  undefined : ∀ p n, st'.messages.count (.undefined p n) = st.messages.count (.undefined p n)
  tooBig : ∀ p v, p.location < st.pc ∨ st'.pc ≤ p.location →
    (.tooBig p v ∈ st'.messages ↔ .tooBig p v ∈ st.messages)
  offset : ∀ p o, .offsetTooBig p o ∈ st'.messages ↔ .offsetTooBig p o ∈ st.messages

/-- The field of `p` waits for the symbols `names`. -/
structure Tracks (st : Asm) (p : Patch) (names : List Name) : Prop where
  table : TableOk st.symtab
  inside : p.stop ≤ st.pc
  around : ∀ n, Around p st.outbin (pending st.symtab n)
  count : ∀ n, (pending st.symtab n).count p = names.count n

theorem Patch.location_lt_stop (p : Patch) : p.location < p.stop := by
  have : p.rel.size ≠ 0 := by cases p.rel <;> decide
  unfold Patch.stop
  omega

theorem Emission.pc_le {q : Patch} {news : List Name} (h : Emission st st' q news) :
    st.pc ≤ st'.pc := by
  obtain ⟨l, hl⟩ := h.out
  rw [Asm.pc, Asm.pc, hl, List.length_append]
  omega

theorem Tracks.emission {p q : Patch} {names news : List Name} (h : Tracks st p names)
    (he : Emission st st' q news) :
    Tracks st' p names ∧
      readField st'.outbin p.location p.rel.size = readField st.outbin p.location p.rel.size := by
  have hpc := he.pc_le
  obtain ⟨l, hl⟩ := he.out
  have hmem {n : Name} {x : Patch} (hx : x ∈ List.replicate (news.count n) q) :
      x = q ∧ st.pc ≤ q.location ∧ q.stop ≤ st'.pc ∧ q.rel ≠ .abs8 := by
    obtain ⟨hne, rfl⟩ := List.mem_replicate.1 hx
    refine ⟨rfl, he.fresh ?_⟩
    rintro rfl
    exact hne List.count_nil
  refine ⟨⟨he.table, h.inside.trans hpc, fun n x hx => ?_, fun n => ?_⟩, ?_⟩
  · rw [he.pending, List.mem_append] at hx
    obtain hx | hx := hx
    · obtain ⟨rfl, hloc, hstop, hrel⟩ := hmem hx
      exact ⟨hstop, hrel, .inr (.inl (h.inside.trans hloc))⟩
    · obtain ⟨hstop, hrest⟩ := h.around n x hx
      exact ⟨Nat.le_trans hstop hpc, hrest⟩
  · rw [he.pending, List.count_append, h.count, List.count_eq_zero.2, Nat.zero_add]
    intro hx
    obtain ⟨rfl, hloc, -⟩ := hmem hx
    have := p.location_lt_stop
    have := h.inside
    omega
  · rw [hl, readField_append]
    exact h.inside

def still (name : Name) (names : List Name) : List Name :=
    names.filter fun n => !(n = name || ends name n)

theorem count_still (name : Name) (names : List Name) (n : Name) :
    (still name names).count n = if n = name ∨ ends name n then 0 else names.count n := by
  unfold still
  split
  · next hn =>
    rw [List.count_eq_zero]
    intro hm
    have := (List.mem_filter.1 hm).2
    obtain hn | hn := hn <;> simp [hn] at this
  · next hn => exact List.count_filter (by simpa using hn)

theorem Tracks.define {p : Patch} {names : List Name} (h : Tracks st p names) (name : Name)
    (value : BitVec 32) :
    Tracks (step st (.define name value)) p (still name names) ∧
      readField (step st (.define name value)).outbin p.location p.rel.size =
        (readField st.outbin p.location p.rel.size + names.count name * (p.part value).toNat) %
          256 ^ p.rel.size := by
  obtain ⟨hok, hlook, hpend, hsome, -⟩ := getSymbol_spec h.table name
  obtain ⟨hout, -⟩ := getSymbol_frame st name
  obtain ⟨hok', -, hpend', m, -, -, -, hrun⟩ := setSymbol_spec hok hsome value
  rw [hpend, hout] at hrun
  obtain ⟨hlen, hfield⟩ := foldl_applyPatch value st.outbin m (h.around name)
  rw [← hrun] at hlen hfield
  rw [h.count] at hfield
  refine ⟨⟨hok', h.inside.trans (Nat.le_of_eq hlen.symm), fun n x hx => ?_, fun n => ?_⟩, hfield⟩
  · have hx' : x ∈ pending st.symtab n := by
      rw [step, hpend'] at hx
      split at hx
      · cases hx
      · rwa [hpend] at hx
    obtain ⟨hstop, hrest⟩ := h.around n x hx'
    exact ⟨hstop.trans (Nat.le_of_eq hlen.symm), hrest⟩
  · rw [step, hpend', count_still]
    split
    · rfl
    · rw [hpend, h.count]

/-- The reports and the short jump at a definition. -/
theorem Tracks.define_messages {p : Patch} {names : List Name} (h : Tracks st p names) (name : Name)
    (value : BitVec 32) :
    (∀ n, (step st (.define name value)).messages.count (.undefined p n) =
      st.messages.count (.undefined p n) + if ends name n then names.count n else 0) ∧
      (names.count name = 0 →
        ∀ v, .tooBig p v ∈ (step st (.define name value)).messages ↔ .tooBig p v ∈ st.messages) ∧
      (p.rel = .rel8 → names.count name = 1 →
        ((∃ v, .tooBig p v ∈ (step st (.define name value)).messages) ↔
          (∃ v, .tooBig p v ∈ st.messages) ∨
          fitsByte ((BitVec.ofNat 8 (readField st.outbin p.location 1)).signExtend 32 +
            p.part value) = false)) := by
  obtain ⟨hok, -, hpend, hsome, -⟩ := getSymbol_spec h.table name
  obtain ⟨hout, hmsg, -⟩ := getSymbol_frame st name
  obtain ⟨-, -, -, m, hund, hbig, -, hrun⟩ := setSymbol_spec hok hsome value
  rw [hpend, hout] at hrun
  have hm : (step st (.define name value)).messages =
      ((pending st.symtab name).foldl (applyPatch value) (st.outbin, m)).2 := congrArg Prod.snd hrun
  obtain ⟨hkeep, hother, hoffs⟩ := foldl_applyPatch_messages value st.outbin
    (pending st.symtab name) m
  refine ⟨fun n => ?_, fun hzero v => ?_, fun hrel hone => ?_⟩
  · rw [hm, hkeep, hund, count_beforeSet hok, hmsg, hpend, h.count]
  · rw [hm, hother p v (List.count_eq_zero.1 ((h.count name).trans hzero)), hbig, hmsg]
  · rw [hm, foldl_applyPatch_tooBig value st.outbin m (h.around name) hrel
      ((h.count name).trans hone)]
    simp only [hbig, hmsg]

/-- The definition that resolves a reference that is open. -/
def next : List Op → Name → Option (BitVec 32)
  | [], _ => none
  | .define name value :: ops, n =>
      if n = name then some value else if ends name n then none else next ops n
  | _ :: ops, n => next ops n

def share (p : Patch) (ops : List Op) (n : Name) : ℕ :=
  match next ops n with
  | some v => (p.part v).toNat
  | none => 0

theorem sum_share_define (p : Patch) (name : Name) (value : BitVec 32) (ops : List Op)
    (names : List Name) :
    (names.map (share p (.define name value :: ops))).sum =
      names.count name * (p.part value).toNat +
        ((still name names).map (share p ops)).sum := by
  induction names with
  | nil => simp [still]
  | cons n names ih =>
    rw [List.map_cons, List.sum_cons, ih]
    by_cases hn : n = name
    · subst hn
      simp [share, next, Nat.succ_mul, still]
      omega
    · have hcount : (n :: names).count name = names.count name := List.count_cons_of_ne hn
      cases he : ends name n with
      | true => simp [share, next, hn, he, hcount, still]
      | false =>
        simp [share, next, hn, he, hcount, still]
        omega

/-- A call of `emits` is one that the parser makes: a short jump has no offset, and a byte
is only emitted for a symbol that is defined. -/
def Called (st : Asm) : Op → Prop
  | .emits name offset rel => (rel = .rel8 → offset = 0) ∧ (rel = .abs8 →
      lookup st.symtab name ≠ none)
  | _ => True

def AllCalled (st : Asm) : List Op → Prop
  | [] => True
  | op :: ops => Called st op ∧ AllCalled (step st op) ops

theorem isSome_of_lookup {v : BitVec 32} (h : lookup symtab n = some v) :
    ∃ s, findSymbol symtab n = some s ∧ s.defined = true ∧ s.value = v := by
  unfold lookup at h
  cases hs : findSymbol symtab n with
  | none => simp [hs] at h
  | some s =>
    rw [hs] at h
    by_cases hd : s.defined = true
    · exact ⟨s, rfl, hd, by simpa [hd] using h⟩
    · simp [hd] at h

theorem defined_of_lookup {s : Symbol} (h : lookup symtab n = none)
    (hs : findSymbol symtab n = some s) :
    s.defined = false := by
  unfold lookup at h
  rw [hs] at h
  by_cases hd : s.defined = true
  · simp [hd] at h
  · simpa using hd

theorem addPatch_spec (h : TableOk st.symtab) (hname : (findSymbol st.symtab name).isSome)
    (hlook : lookup st.symtab name = none) (q : Patch) :
    TableOk (addPatch st name q).symtab ∧ (∀ n, lookup (addPatch st name q).symtab n =
      lookup st.symtab n) ∧
      (∀ n, pending (addPatch st name q).symtab n =
        List.replicate ([name].count n) q ++ pending st.symtab n) ∧
      ∀ n, (findSymbol (addPatch st name q).symtab n).isSome = (findSymbol st.symtab n).isSome := by
  obtain ⟨s, hs⟩ := Option.isSome_iff_exists.1 hname
  let add (s : Symbol) : Symbol := { s with patches := q :: s.patches }
  have hfind (n : Name) : findSymbol (addPatch st name q).symtab n =
      (findSymbol st.symtab n).map fun s => if n = name then add s else s :=
    findSymbol_updateSymbol _ _ _ add fun _ => rfl
  refine ⟨h.update name add (fun _ => rfl) fun t ht htn hd => ?_, fun n => ?_, fun n => ?_,
    fun n => ?_⟩
  · have hts : t = s := by
      have h1 := (findSymbol_some hs)
      exact List.inj_on_of_nodup_map h.nodup ht h1.1 (htn.trans h1.2.symm)
    rw [hts] at hd
    exact absurd (show s.defined = true from hd) (by simp [defined_of_lookup hlook hs])
  · unfold lookup
    rw [hfind]
    by_cases hn : n = name
    · subst hn
      rw [hs]
      simp [add]
    · simp only [if_neg hn, Option.map_id']
  · unfold pending
    rw [hfind]
    by_cases hn : n = name
    · subst hn
      rw [hs]
      simp [add]
    · have : [name].count n = 0 := by simp [Ne.symm hn]
      simp [if_neg hn, this]
  · rw [hfind, Option.isSome_map]

def openNames (symtab : List Symbol) (syms : List Name) : List Name :=
  syms.filter fun n => (lookup symtab n).isNone

def valueSum (symtab : List Symbol) (syms : List Name) : BitVec 32 :=
  syms.foldr (fun n acc => (lookup symtab n).getD 0 + acc) 0

theorem dispLoop_spec (location : ℕ) (rel : Rel) (syms : List Name) (st : Asm) (v : BitVec 32)
    (short : Bool)
    (h : TableOk st.symtab) (hsyms : ∀ n ∈ syms, (findSymbol st.symtab n).isSome) :
    ∃ st', dispLoop location rel syms (st, v, short) =
        (st', v + valueSum st.symtab syms, short && (openNames st.symtab syms).isEmpty) ∧
      st'.outbin = st.outbin ∧ st'.messages = st.messages ∧ st'.place = st.place ∧
      TableOk st'.symtab ∧
      (∀ n, lookup st'.symtab n = lookup st.symtab n) ∧
      ∀ n, pending st'.symtab n =
        List.replicate ((openNames st.symtab syms).count n) ⟨location, st.place,
          rel⟩ ++ pending st.symtab n := by
  induction syms generalizing st v short with
  | nil =>
      exact ⟨st, by simp [dispLoop, valueSum,
        openNames], rfl, rfl, rfl, h, fun _ => rfl, fun n => by simp [openNames]⟩
  | cons name syms ih =>
    obtain ⟨s, hs⟩ := Option.isSome_iff_exists.1 (hsyms name (by simp))
    rw [dispLoop, hs]
    cases hlook : lookup st.symtab name with
    | some x =>
      obtain ⟨s', hs', hd, hv⟩ := isSome_of_lookup hlook
      obtain rfl := Option.some.inj (hs.symm.trans hs')
      obtain ⟨st', heq, hrest⟩ := ih st (v + s.value) short h fun n hn => hsyms n (by simp [hn])
      refine ⟨st', ?_, ?_⟩
      · simp only [hd, if_true]
        rw [heq, hv]
        simp [valueSum, openNames, hlook, add_assoc]
      · simpa [openNames, hlook] using hrest
    | none =>
      have hd := defined_of_lookup hlook hs
      obtain ⟨hok, hl, hp, hsome⟩ := addPatch_spec h (hsyms name (by simp)) hlook ⟨location,
        st.place, rel⟩
      obtain ⟨st', heq, hout, hmsg, hplace, hok', hl', hp'⟩ := ih
        (addPatch st name ⟨location, st.place, rel⟩) v false hok fun n hn => by
          rw [hsome]
          exact hsyms n (by simp [hn])
      have hopen : openNames (addPatch st name ⟨location, st.place, rel⟩).symtab syms =
          openNames st.symtab syms := by
        unfold openNames
        simp only [hl]
      have hval : valueSum (addPatch st name ⟨location, st.place, rel⟩).symtab syms =
          valueSum st.symtab syms := by
        unfold valueSum
        simp only [hl]
      refine ⟨st', ?_, hout, hmsg, hplace, hok', fun n => (hl' n).trans (hl n), fun n => ?_⟩
      · simp only [hd, Bool.false_eq_true, if_false]
        rw [heq, hval]
        simp [valueSum, openNames, hlook]
      · have hcons : openNames st.symtab (name :: syms) = name :: openNames st.symtab syms := by
          simp [openNames, hlook]
        have hplace' : (addPatch st name ⟨location, st.place, rel⟩).place = st.place := rfl
        have hcount : (name :: openNames st.symtab syms).count n =
            (openNames st.symtab syms).count n + [name].count n := by
          rw [List.count_cons, List.count_singleton]
        rw [hp', hp, hopen, hplace', hcons, ← List.append_assoc, List.replicate_append_replicate,
          hcount]

/-- Bytes alone. -/
theorem emission_of_out {q : Patch} {l : List Byte} (h : TableOk st.symtab)
    (hsym : st'.symtab = st.symtab)
    (hout : st'.outbin = st.outbin ++ l) (hmsg : st'.messages = st.messages) :
    Emission st st' q [] where
  out := ⟨l, hout⟩
  table := hsym ▸ h
  lookup n := by rw [hsym]
  pending n := by simp [hsym]
  fresh := by simp
  undefined p n := by rw [hmsg]
  tooBig p v _ := by rw [hmsg]
  offset p o := by rw [hmsg]

/-- The patch of a reference by `emits`. -/
def emitsPatch (st : Asm) (rel : Rel) : Patch := ⟨st.pc, st.place, rel⟩

/-- The displacement of a short jump to a symbol that is defined does not fit. -/
def emitsTooBig (p : Patch) (v : BitVec 32) : List Message :=
  if p.rel = .rel8 ∧ fitsByte v = false then [.tooBig p v] else []

theorem undefined_not_mem_emitsTooBig (q p : Patch) (v : BitVec 32) (n : Name) :
    Message.undefined p n ∉ emitsTooBig q v := by
  unfold emitsTooBig
  split <;> simp

theorem mem_emitsTooBig (q p : Patch) (v w : BitVec 32) :
    Message.tooBig p w ∈ emitsTooBig q v ↔ p = q ∧ q.rel = .rel8 ∧ fitsByte v = false ∧ w = v := by
  unfold emitsTooBig
  split
  · next h => simp [h]
  · next h =>
    simp only [List.not_mem_nil, false_iff]
    exact fun h' => h ⟨h'.2.1, h'.2.2.1⟩

theorem emits_defined {v : BitVec 32} (hlook : lookup st.symtab name = some v) (offset : BitVec 32)
    (rel : Rel) :
    emits st name offset rel =
      emit (say st (emitsTooBig (emitsPatch st rel) ((emitsPatch st rel).part v + offset)))
        (lowBytes rel.size ((emitsPatch st rel).part v + offset)) := by
  obtain ⟨s, hs, hd, rfl⟩ := isSome_of_lookup hlook
  rw [emits, hs]
  simp only [hd, if_true]
  cases rel with
  | rel8 =>
    simp only [emitb, emitsTooBig, emitsPatch, Patch.part, Rel.size, true_and]
    congr 2
    cases fitsByte _ <;> rfl
  | _ => simp [emitsTooBig, emitsPatch, Patch.part, Rel.size, emitw, emitd, emitb, say]

theorem emits_open (hsome : (findSymbol st.symtab name).isSome)
    (hlook : lookup st.symtab name = none)
    {offset : BitVec 32} {rel : Rel} (h8 : rel = .rel8 → offset = 0) (ha : rel ≠ .abs8) :
    emits st name offset rel =
      emit (addPatch st name (emitsPatch st rel)) (lowBytes rel.size offset) := by
  obtain ⟨s, hs⟩ := Option.isSome_iff_exists.1 hsome
  have hd := defined_of_lookup hlook hs
  rw [emits, hs]
  simp only [hd, Bool.false_eq_true, if_false]
  cases rel with
  | rel8 =>
    rw [h8 rfl]
    simp [emitb, fitsByte, say, emitsPatch, Rel.size]
  | abs8 => exact absurd rfl ha
  | _ => rfl

/-- A reference by `emits`: what it leaves, what it waits for, and when it is refused. -/
theorem step_emits (h : TableOk st.symtab) {offset : BitVec 32} {rel : Rel}
    (hcall : Called st (.emits name offset rel)) :
    Emission st (step st (.emits name offset rel)) (emitsPatch st rel)
    (openNames st.symtab [name]) ∧
      (step st (.emits name offset rel)).outbin = st.outbin ++
        lowBytes rel.size (offset + (match lookup st.symtab name with
          | some v => (emitsPatch st rel).part v
          | none => 0)) ∧
      ∀ v, .tooBig (emitsPatch st rel) v ∈ (step st (.emits name offset rel)).messages ↔
        .tooBig (emitsPatch st rel) v ∈ st.messages ∨ ∃ x, lookup st.symtab name = some x ∧
          rel = .rel8 ∧ fitsByte ((emitsPatch st rel).part x + offset) = false ∧
          v = (emitsPatch st rel).part x + offset := by
  obtain ⟨hok, hl, hp, hsome, -⟩ := getSymbol_spec h name
  obtain ⟨hout, hmsg, hplace⟩ := getSymbol_frame st name
  have hpatch : emitsPatch (getSymbol st name) rel = emitsPatch st rel := by
    simp only [emitsPatch, Asm.pc, hout, hplace]
  rw [step]
  cases hlook : lookup st.symtab name with
  | some x =>
    rw [emits_defined ((hl name).trans hlook), hpatch]
    have hnone : openNames st.symtab [name] = [] := by simp [openNames, hlook]
    rw [hnone]
    refine ⟨⟨⟨_, congrArg (· ++ _) hout⟩, hok, hl, fun n => ?_,
      by simp, fun p n => ?_, fun p v hp' => ?_,
      fun p o => ?_⟩, ?_, fun v => ?_⟩
    · exact hp n
    · show ((getSymbol st name).messages ++ emitsTooBig _ _).count _ = _
      rw [hmsg, List.count_append, List.count_eq_zero.2 (undefined_not_mem_emitsTooBig _ _ _ _),
        Nat.add_zero]
    · show _ ∈ (getSymbol st name).messages ++ emitsTooBig _ _ ↔ _
      rw [hmsg, List.mem_append, mem_emitsTooBig]
      refine or_iff_left fun hbig => ?_
      obtain ⟨rfl, -⟩ := hbig
      have hsize : rel.size ≠ 0 := by cases rel <;> decide
      have hloc : (emitsPatch st rel).location = st.outbin.length := rfl
      simp only [Asm.pc, emit, say, hout, List.length_append, length_lowBytes, hloc] at hp'
      omega
    · show _ ∈ (getSymbol st name).messages ++ emitsTooBig _ _ ↔ _
      rw [hmsg, List.mem_append, or_iff_left]
      unfold emitsTooBig
      split <;> simp
    · show (getSymbol st name).outbin ++ _ = _
      rw [hout, BitVec.add_comm]
    · show _ ∈ (getSymbol st name).messages ++ emitsTooBig _ _ ↔ _
      rw [hmsg, List.mem_append, mem_emitsTooBig]
      refine or_congr_right ⟨fun hbig => ⟨x, rfl, hbig.2.1, hbig.2.2.1, hbig.2.2.2⟩, ?_⟩
      rintro ⟨y, hy, hrel, hfit, hv⟩
      obtain rfl := Option.some.inj hy
      exact ⟨rfl, hrel, hfit, hv⟩
  | none =>
    have ha : rel ≠ .abs8 := fun he => hcall.2 he hlook
    have hnone : openNames st.symtab [name] = [name] := by simp [openNames, hlook]
    rw [emits_open hsome ((hl name).trans hlook) hcall.1 ha, hpatch, hnone]
    obtain ⟨hok', hl', hp', -⟩ := addPatch_spec hok hsome ((hl name).trans hlook)
      (emitsPatch st rel)
    refine ⟨⟨⟨_, congrArg (· ++ _) hout⟩, hok', fun n => (hl' n).trans (hl n), fun n => ?_,
      fun _ => ?_,
      fun p n => congrArg (List.count _) hmsg, fun p v _ => ?_, fun p o => ?_⟩, ?_, fun v => ?_⟩
    · rw [← hp n]
      exact hp' n
    · refine ⟨Nat.le_refl _, ?_, ha⟩
      show st.pc + rel.size ≤ (((getSymbol st name).outbin) ++ lowBytes rel.size offset).length
      rw [hout, List.length_append, length_lowBytes]
      exact Nat.le_refl _
    · show _ ∈ (getSymbol st name).messages ↔ _
      rw [hmsg]
    · show _ ∈ (getSymbol st name).messages ↔ _
      rw [hmsg]
    · show (getSymbol st name).outbin ++ _ = _
      rw [hout]
      exact congrArg (fun v => st.outbin ++ lowBytes rel.size v) (BitVec.add_zero offset).symm
    · show _ ∈ (getSymbol st name).messages ↔ _
      rw [hmsg]
      simp

theorem getSymbols_spec (st : Asm) (h : TableOk st.symtab) (syms : List Name) :
    TableOk (syms.foldl getSymbol st).symtab ∧
      (∀ n, lookup (syms.foldl getSymbol st).symtab n = lookup st.symtab n) ∧
      (∀ n, pending (syms.foldl getSymbol st).symtab n = pending st.symtab n) ∧
      (∀ n ∈ syms, (findSymbol (syms.foldl getSymbol st).symtab n).isSome) ∧
      (∀ n, (findSymbol st.symtab n).isSome → (findSymbol
        (syms.foldl getSymbol st).symtab n).isSome) ∧
      (syms.foldl getSymbol st).outbin = st.outbin ∧ (syms.foldl getSymbol st).messages =
      st.messages ∧
      (syms.foldl getSymbol st).place = st.place := by
  induction syms generalizing st with
  | nil => exact ⟨h, fun _ => rfl, fun _ => rfl, by simp, fun _ => id, rfl, rfl, rfl⟩
  | cons name syms ih =>
    obtain ⟨hok, hl, hp, hsome, hmono⟩ := getSymbol_spec h name
    obtain ⟨hout, hmsg, hplace⟩ := getSymbol_frame st name
    obtain ⟨hok', hl', hp', hsome', hmono', hout', hmsg', hplace'⟩ := ih (getSymbol st name) hok
    rw [List.foldl_cons]
    refine ⟨hok', fun n => (hl' n).trans (hl n), fun n => (hp' n).trans (hp n), fun n hn => ?_,
      fun n hn => hmono' n (hmono n hn), hout'.trans hout, hmsg'.trans hmsg, hplace'.trans hplace⟩
    obtain rfl | hn := List.mem_cons.1 hn
    · exact hmono' n hsome
    · exact hsome' n hn

theorem regDisp_of_loop (mbyte : BitVec 32) {st₂ : Asm} {offset v : BitVec 32}
    {needsib regs addr32 short : Bool} {syms : List Name}
    (h : dispLoop (st.pc + 1 + needsib.toNat) (if addr32 then .abs32 else .abs) syms (st, offset,
      regs) =
      (st₂, v, short)) :
    regDisp st mbyte needsib regs addr32 offset syms =
      emit st₂ (lowBytes 1 (if short && fitsByte v then mbyte ^^^ 0o300 else mbyte) ++
        ((if needsib then lowBytes 1 (mbyte >>> 8) else []) ++
          lowBytes (if short && fitsByte v then 1 else if addr32 then 4 else 2) v)) := by
  unfold regDisp
  dsimp only
  rw [h]
  dsimp only
  cases short && fitsByte v <;> cases needsib <;> cases addr32 <;>
    simp [emitb, emitw, emitd, emit]

/-- A displacement in `reg` is short if nothing is open and it fits. -/
def isShort (st : Asm) (regs : Bool) (offset : BitVec 32) (syms : List Name) : Bool :=
  regs && (openNames st.symtab syms).isEmpty && fitsByte (offset + valueSum st.symtab syms)

def dispRel (st : Asm) (regs addr32 : Bool) (offset : BitVec 32) (syms : List Name) : Rel :=
  if isShort st regs offset syms then .abs8 else if addr32 then .abs32 else .abs

def dispHead (st : Asm) (mbyte : BitVec 32) (needsib regs : Bool) (offset : BitVec 32)
    (syms : List Name) :
    List Byte :=
  lowBytes 1 (if isShort st regs offset syms then mbyte ^^^ 0o300 else mbyte) ++
    if needsib then lowBytes 1 (mbyte >>> 8) else []

theorem length_dispHead (st : Asm) (mbyte : BitVec 32) (needsib regs : Bool) (offset : BitVec 32)
    (syms : List Name) : (dispHead st mbyte needsib regs offset syms).length =
    1 + needsib.toNat := by
  unfold dispHead
  cases needsib <;> simp

def dispPatch (st : Asm) (needsib regs addr32 : Bool) (offset : BitVec 32) (syms : List Name) :
    Patch :=
  ⟨st.pc + 1 + needsib.toNat, st.place, dispRel st regs addr32 offset syms⟩

/-- The displacement of an operand. -/
theorem step_disp (h : TableOk st.symtab) (mbyte : BitVec 32) (needsib regs addr32 : Bool)
    (offset : BitVec 32)
    (syms : List Name) :
    Emission st (step st (.disp mbyte needsib regs addr32 offset syms))
        (dispPatch st needsib regs addr32 offset syms) (openNames st.symtab syms) ∧
      (step st (.disp mbyte needsib regs addr32 offset syms)).outbin = st.outbin ++
        (dispHead st mbyte needsib regs offset syms ++
          lowBytes (dispRel st regs addr32 offset syms).size
          (offset + valueSum st.symtab syms)) := by
  obtain ⟨hok, hl, hp, hsome, -, hout, hmsg, hplace⟩ := getSymbols_spec st h syms
  let st₁ := syms.foldl getSymbol st
  let rel : Rel := if addr32 then .abs32 else .abs
  have hopen : openNames st₁.symtab syms = openNames st.symtab syms := by
    unfold openNames
    simp only [st₁, hl]
  have hval : valueSum st₁.symtab syms = valueSum st.symtab syms := by
    unfold valueSum
    simp only [st₁, hl]
  obtain ⟨st₂, heq, hout₂, hmsg₂, hplace₂, hok₂, hl₂, hp₂⟩ :=
    dispLoop_spec (st₁.pc + 1 + needsib.toNat) rel syms st₁ offset regs hok hsome
  rw [hopen, hval] at heq
  rw [hopen] at hp₂
  have hsize : (if isShort st regs offset syms then 1 else if addr32 then 4 else 2) =
      (dispRel st regs addr32 offset syms).size := by
    unfold dispRel
    split
    · rfl
    · cases addr32 <;> rfl
  have hstep : step st (.disp mbyte needsib regs addr32 offset syms) = _ :=
    regDisp_of_loop mbyte heq
  rw [← isShort, hsize] at hstep
  have hout' : st₂.outbin = st.outbin := hout₂.trans hout
  have hmsg' : st₂.messages = st.messages := hmsg₂.trans hmsg
  have hpatch : (⟨st₁.pc + 1 + needsib.toNat, st₁.place, rel⟩ : Patch) =
      ⟨st.pc + 1 + needsib.toNat, st.place, rel⟩ := by
    simp only [st₁, Asm.pc, hout, hplace]
  have hopenRel (hne : openNames st.symtab syms ≠ []) : dispRel st regs addr32 offset syms =
      rel := by
    unfold dispRel isShort
    rw [if_neg]
    simp [hne]
  have hgrow : (step st (.disp mbyte needsib regs addr32 offset syms)).outbin = st.outbin ++
      (dispHead st mbyte needsib regs offset syms ++
        lowBytes (dispRel st regs addr32 offset syms).size (offset + valueSum st.symtab syms)) := by
    rw [hstep, emit, hout', dispHead, List.append_assoc]
  have hpc : (step st (.disp mbyte needsib regs addr32 offset syms)).pc =
      st.pc + 1 + needsib.toNat + (dispRel st regs addr32 offset syms).size := by
    rw [Asm.pc, hgrow, List.length_append, List.length_append, length_dispHead, length_lowBytes,
      Asm.pc]
    omega
  refine ⟨?_, hgrow⟩
  · refine ⟨⟨_, hgrow⟩, ?_, fun n => ?_, fun n => ?_, fun hne => ⟨?_, ?_, ?_⟩, fun p n => ?_,
      fun p v _ => ?_,
      fun p o => ?_⟩
    · rw [hstep]
      exact hok₂
    · rw [hstep]
      exact (hl₂ n).trans (hl n)
    · rw [hstep]
      show pending st₂.symtab n = _
      rw [hp₂, hp, hpatch]
      by_cases hne : openNames st.symtab syms = []
      · rw [hne]
        rfl
      · rw [dispPatch, hopenRel hne]
    · show st.pc ≤ st.pc + 1 + needsib.toNat
      omega
    · exact Nat.le_of_eq hpc.symm
    · show dispRel st regs addr32 offset syms ≠ .abs8
      rw [hopenRel hne]
      cases addr32 <;> simp [rel]
    · rw [hstep]
      exact congrArg _ hmsg'
    · rw [hstep]
      show _ ∈ st₂.messages ↔ _
      rw [hmsg']
    · rw [hstep]
      show _ ∈ st₂.messages ↔ _
      rw [hmsg']

end DjgppLibc.Djasm
