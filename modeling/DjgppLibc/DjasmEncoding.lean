import DjgppLibc.DjasmOperands
import DjgppLibc.DjasmSymbols

/-!
# The operands of `djasm` are decoded

The bytes of an operand in the final image, with its symbols set by the calls that
follow, are decoded by the addressing rules.
-/
namespace DjgppLibc.Djasm

open X86

variable {st st' : Asm} {m : Modrm} {l : List (Fin 8 × ℕ)} {which : Fin 8} {movacc : BitVec 32}

theorem littleEndian_inj {l l' : List Byte} (h : l.length = l'.length)
    (he : littleEndian l = littleEndian l') :
    l = l' := by
  induction l generalizing l' with
  | nil => exact (List.eq_nil_of_length_eq_zero h.symm).symm
  | cons b l ih =>
    obtain ⟨b', l', rfl⟩ : ∃ b' t, l' = b' :: t := by
      cases l' with
      | nil => simp at h
      | cons b' t => exact ⟨b', t, rfl⟩
    rw [littleEndian, littleEndian] at he
    have htoNat : b.toNat = b'.toNat := by omega
    rw [BitVec.eq_of_toNat_eq htoNat, ih (by simpa using h) (by omega)]

theorem readField_one {out : List Byte} {i : ℕ} (h : i < out.length) :
    readField out i 1 = (out[i]).toNat := by
  rw [readField, List.drop_eq_getElem_cons h, List.take_succ_cons, List.take_zero, littleEndian,
    littleEndian,
    Nat.mul_zero, Nat.add_zero]

theorem pc_le_run {ops : List Op} (h : Sound st) (hc : AllCalled st ops) :
    st.pc ≤ (run st ops).pc := by
  induction ops generalizing st with
  | nil => exact Nat.le_refl _
  | cons op ops ih =>
    refine Nat.le_trans ?_ (ih (h.step hc.1) hc.2)
    obtain ⟨name, value, rfl⟩ | ⟨⟨q, news, he⟩, -⟩ := step_cases h.table hc.1
    · exact Nat.le_of_eq (h.define name value).2.1.symm
    · exact he.pc_le

theorem getElem?_run {q : Patch} {names : List Name} {ops : List Op} {i : ℕ} (h : Sound st)
    (he : Emission st st' q names) (hc : AllCalled st' ops) (hi : st.pc ≤ i) (hi' : i < st'.pc)
    (hq : names = [] ∨ i < q.location) : (run st' ops).outbin[i]? = st'.outbin[i]? := by
  let p : Patch := ⟨i, st.place, .abs8⟩
  have hfresh (n : Name) (x : Patch) (hx : x ∈ pending st'.symtab n) : p.Apart x := by
    rw [he.pending, List.mem_append] at hx
    obtain hx | hx := hx
    · obtain ⟨hne, rfl⟩ := List.mem_replicate.1 hx
      refine .inl ?_
      obtain rfl | hq := hq
      · exact absurd List.count_nil hne
      · exact hq
    · exact .inr ((h.inside n x hx).1.trans hi)
  have hs' := h.emission he
  have htr : Tracks st' p [] := by
    refine ⟨he.table, hi', fun n x hx => ⟨(hs'.inside n x hx).1, (hs'.inside n x hx).2,
      .inr (hfresh n x hx)⟩,
      fun n => ?_⟩
    rw [List.count_nil, List.count_eq_zero]
    exact fun hx => (hfresh n p hx).ne rfl
  have hrun := htr.run hc
  rw [List.map_nil, List.sum_nil, Nat.add_zero, Nat.mod_eq_of_lt (readField_lt _ _ _)] at hrun
  have hlen : i < (run st' ops).outbin.length := Nat.lt_of_lt_of_le hi' (pc_le_run hs' hc)
  have hrun' : readField (run st' ops).outbin i 1 = readField st'.outbin i 1 := hrun
  rw [readField_one hlen, readField_one hi'] at hrun'
  rw [List.getElem?_eq_getElem hlen, List.getElem?_eq_getElem hi', BitVec.eq_of_toNat_eq hrun']

def codeAt (out : List Byte) (start stop : ℕ) : List Byte := (out.drop start).take (stop - start)

/-- Bytes that no symbol waits for. -/
theorem codeAt_run {q : Patch} {names : List Name} {ops : List Op} {bytes : List Byte} {stop : ℕ}
    (h : Sound st)
    (he : Emission st st' q names) (hc : AllCalled st' ops) (hstop : stop = st.pc + bytes.length)
    (hout : ∃ rest, st'.outbin = st.outbin ++ (bytes ++ rest))
    (hq : names = [] ∨ stop ≤ q.location) :
    codeAt (run st' ops).outbin st.pc stop = bytes := by
  obtain ⟨rest, hout⟩ := hout
  apply List.ext_getElem?
  intro i
  have hpc : st.pc = st.outbin.length := rfl
  rw [codeAt]
  by_cases hi : i < bytes.length
  · rw [List.getElem?_take_of_lt (by omega), List.getElem?_drop,
      getElem?_run h he hc (Nat.le_add_right _ _) ?_ (hq.imp_right fun hq => by omega), hout, hpc,
      List.getElem?_append_right (Nat.le_add_right
        _ _), Nat.add_sub_cancel_left, List.getElem?_append_left hi]
    show _ < st'.outbin.length
    rw [hout, List.length_append, List.length_append]
    omega
  · rw [List.getElem?_eq_none (by rw [List.length_take]; omega), List.getElem?_eq_none (by omega)]

theorem codeAt_append {out : List Byte} {a b c : ℕ} (hab : a ≤ b) (hbc : b ≤ c) :
    codeAt out a c = codeAt out a b ++ codeAt out b c := by
  rw [codeAt, codeAt, codeAt, show c - a = (b - a) +
    (c - b) by omega, List.take_add, List.drop_drop,
    show a + (b - a) = b by omega]

theorem shiftRight_xor (x : BitVec 32) : (x ^^^ 0o300) >>> 8 = x >>> 8 := by
  rw [BitVec.ushiftRight_xor_distrib]
  exact BitVec.xor_zero

theorem dispHead_eq (st : Asm) (mbyte : BitVec 32) (needsib regs : Bool) (offset : BitVec 32)
    (syms : List Name) :
    dispHead st mbyte needsib regs offset syms =
      headBytes (if isShort st regs offset syms then mbyte ^^^ 0o300 else mbyte) needsib := by
  unfold dispHead headBytes
  cases isShort st regs offset syms
  · rfl
  · simp only [if_true, shiftRight_xor]

theorem codeAt_disp {mbyte offset : BitVec 32} {needsib regs wide : Bool} {syms : List Name}
    {post : List Op}
    {values : List (BitVec 32)} (h : Sound st)
    (hst : st' = step st (.disp mbyte needsib regs wide offset syms)) (hpost : AllCalled st' post)
    (hvalues : syms.map (fun n => (lookup st.symtab n).or (next post n)) = values.map some) :
    codeAt (run st' post).outbin st.pc st'.pc =
      headBytes (if isShort st regs offset syms then mbyte ^^^ 0o300 else mbyte) needsib ++
        lowBytes (dispRel st regs wide offset syms).size (offset + values.foldr (· + ·) 0) := by
  subst hst
  let p := dispPatch st needsib regs wide offset syms
  obtain ⟨he, hout⟩ := step_disp h.table mbyte needsib regs wide offset syms
  have hlen := length_dispHead st mbyte needsib regs offset syms
  have hloc : p.location = st.pc + (dispHead st mbyte needsib regs offset syms).length := by
    rw [hlen]
    exact Nat.add_assoc _ _ _
  have hpc : (step st (.disp mbyte needsib regs wide offset syms)).pc =
      p.location + (dispRel st regs wide offset syms).size := by
    rw [Asm.pc, hout, List.length_append, List.length_append, length_lowBytes, hloc, Asm.pc,
      Nat.add_assoc]
  have hfinal := readField_final h (.disp mbyte needsib regs wide offset syms) trivial rfl hpost
    hvalues
  have hfield : fieldValue p offset values = offset + values.foldr (· + ·) 0 := by
    have hrel : p.rel = dispRel st regs wide offset syms := rfl
    unfold fieldValue
    rw [hrel, dispRel, BitVec.add_comm]
    split_ifs <;> rfl
  rw [codeAt_append (b := p.location) (by omega) (by omega)]
  congr 1
  · rw [codeAt_run h he hpost hloc ⟨_, hout⟩ (.inr (Nat.le_refl _)), dispHead_eq]
  · have hmono : (step st (.disp mbyte needsib regs wide offset syms)).pc ≤ _ :=
      pc_le_run (h.emission he) hpost
    unfold Asm.pc at hmono hpc
    apply littleEndian_inj
    · rw [codeAt, List.length_take, List.length_drop, length_lowBytes]
      unfold Asm.pc
      omega
    · rw [littleEndian_lowBytes, ← hfield]
      refine Eq.trans ?_ hfinal
      rw [readField, codeAt, Asm.pc, hpc, Nat.add_sub_cancel_left]
      rfl

theorem getLsbD_bits16 (l : List (Fin 8 × ℕ)) (r : Fin 8) :
    (bits16 l).getLsbD r.val = true ↔ ∃ t ∈ l, t.1 = r := by
  have hbit : ∀ r s : Fin 8, (bit s.val).getLsbD r.val = decide (s = r) := by decide
  induction l using List.reverseRecOn with
  | nil => simp [bits16]
  | append_singleton l t ih =>
    have happ : bits16 (l ++ [t]) = bits16 l ||| bit t.1.val := by simp [bits16]
    rw [happ, BitVec.getLsbD_or, Bool.or_eq_true, hbit, or_congr_left ih]
    simp [or_and_right, exists_or]

theorem bits16_eq_zero {l : List (Fin 8 × ℕ)} : bits16 l = 0 ↔ l = [] := by
  refine ⟨fun h => ?_, fun h => by rw [h]; rfl⟩
  cases l with
  | nil => rfl
  | cons t l =>
    have := (getLsbD_bits16 (t :: l) t.1).2 ⟨t, List.mem_cons_self, rfl⟩
    rw [h] at this
    simp at this

theorem perm_iff_of_bits16 {l l' : List (Fin 8 × ℕ)} (hbits : bits16 l = bits16 l')
    (h : ∀ t ∈ l, t.2 = 1)
    (h' : ∀ t ∈ l', t.2 = 1) (hnd : l'.Nodup) : l'.Perm l ↔ l.Nodup := by
  have hsub {l l' : List (Fin 8 × ℕ)} (hbits : bits16 l = bits16 l') (h : ∀ t ∈ l, t.2 = 1)
      (h' : ∀ t ∈ l', t.2 = 1) (t : Fin 8 × ℕ) (ht : t ∈ l) : t ∈ l' := by
    have hget := (getLsbD_bits16 l t.1).2 ⟨t, ht, rfl⟩
    rw [hbits] at hget
    obtain ⟨s, hs, hfst⟩ := (getLsbD_bits16 l' t.1).1 hget
    have hst : s = t := Prod.ext hfst ((h' s hs).trans (h t ht).symm)
    exact hst ▸ hs
  refine ⟨fun hp => hp.nodup hnd, fun hn => ?_⟩
  rw [List.perm_ext_iff_of_nodup hnd hn]
  exact fun t => ⟨hsub hbits.symm h' h t, hsub hbits h h' t⟩

/-- The bytes are those of one operand, with the field for the other one. -/
def Decodes {w : ℕ} (decode : Byte → List Byte → Option (Address w × List Byte)) (which : Fin 8)
    (l : List (Fin 8 × ℕ)) (d : BitVec w) (code : List Byte) : Prop :=
  ∃ modrm rest a, code = modrm :: rest ∧ regOf modrm = which ∧ decode modrm rest = some (a, []) ∧
    a.terms.Perm l ∧ a.disp = d

theorem decodes_cons {w : ℕ} {decode : Byte → List Byte → Option (Address w × List Byte)}
    {d v : BitVec w}
    {l' : List (Fin 8 × ℕ)} {modrm : Byte} {rest : List Byte} (hreg : regOf modrm = which)
    (hdecode : decode modrm rest = some (⟨l', v⟩, [])) :
    Decodes decode which l d (modrm :: rest) ↔ l'.Perm l ∧ v = d := by
  constructor
  · rintro ⟨modrm', rest', a, he, -, hd, hperm, hdisp⟩
    obtain ⟨rfl, rfl⟩ := List.cons.inj he
    rw [hdecode] at hd
    obtain rfl := (Prod.mk.inj (Option.some.inj hd)).1
    exact ⟨hperm, hdisp⟩
  · rintro ⟨hperm, hdisp⟩
    exact ⟨modrm, rest, ⟨l', v⟩, rfl, hreg, hdecode, hperm, hdisp⟩

theorem not_decodes_cons {w : ℕ} {decode : Byte → List Byte → Option (Address w × List Byte)}
    {d : BitVec w}
    {modrm : Byte} {rest : List Byte} (hdecode : decode modrm rest = none) :
    ¬ Decodes decode which l d (modrm :: rest) := by
  rintro ⟨modrm', rest', a, he, -, hd, -⟩
  obtain ⟨rfl, rfl⟩ := List.cons.inj he
  rw [hdecode] at hd
  cases hd

theorem decodes_head32 {x : BitVec 32} {needsib : Bool} {size : ℕ} {l' : List (Fin 8 × ℕ)}
    {d v : BitVec 32}
    {bytes : List Byte} (h : head32 x needsib which size l' = true)
    (hdisp : withDisp 32 size l' bytes = some (⟨l', v⟩, [])) :
    Decodes decode32 which l d (headBytes x needsib ++ bytes) ↔ l'.Perm l ∧ v = d := by
  obtain ⟨modrm, rest, he, hreg, hd⟩ := decode_head32 h bytes
  rw [he]
  exact decodes_cons hreg (hd.trans hdisp)

/-- The symbols of an operand have these values, now or later. -/
def Valued (st : Asm) (post : List Op) (syms : List Name) (values : List (BitVec 32)) : Prop :=
  syms.map (fun n => (lookup st.symtab n).or (next post n)) = values.map some

variable {post : List Op} {values : List (BitVec 32)}

theorem valueSum_eq {syms : List Name} (h : Valued st post syms values)
    (hopen : openNames st.symtab syms = []) :
    valueSum st.symtab syms = values.foldr (· + ·) 0 := by
  unfold Valued at h
  induction syms generalizing values with
  | nil =>
    obtain rfl : values = [] := by simpa using h.symm
    rfl
  | cons n syms ih =>
    cases values with
    | nil => simp at h
    | cons v values =>
      simp only [List.map_cons, List.cons.injEq] at h
      obtain ⟨x, hx⟩ : ∃ x, lookup st.symtab n = some x := by
        cases hl : lookup st.symtab n with
        | none => simp [openNames, hl] at hopen
        | some x => exact ⟨x, rfl⟩
      have hopen' : openNames st.symtab syms = [] := by simpa [openNames, hx] using hopen
      have hv : x = v := by simpa [hx] using h.1
      show (lookup st.symtab n).getD 0 + valueSum st.symtab syms = v + values.foldr (· + ·) 0
      rw [ih h.2 hopen', hx, Option.getD_some, hv]

def Short (st : Asm) (syms : List Name) (d : BitVec 32) : Prop :=
  (∀ n ∈ syms, lookup st.symtab n ≠ none) ∧ fitsByte d = true

theorem isShort_iff {offset : BitVec 32} {syms : List Name} (h : Valued st post syms values) :
    isShort st true offset syms = true ↔ Short st syms (offset + values.foldr (· + ·) 0) := by
  have hopen : openNames st.symtab syms = [] ↔ ∀ n ∈ syms, lookup st.symtab n ≠ none := by
    simp [openNames, List.filter_eq_nil_iff]
  unfold isShort Short
  rw [Bool.true_and, Bool.and_eq_true, List.isEmpty_iff, ← hopen]
  refine and_congr_right fun ho => ?_
  rw [valueSum_eq h ho]

/-- Bytes alone in the final image. -/
theorem codeAt_emit {bytes : List Byte} (h : Sound st) (hpost : AllCalled (emit st bytes) post) :
    codeAt (run (emit st bytes) post).outbin st.pc (emit st bytes).pc = bytes := by
  have he : Emission st (emit st bytes) ⟨0, st.place, .abs⟩ [] :=
    emission_of_out h.table rfl rfl rfl
  refine codeAt_run h he hpost ?_ ⟨[], by simp [emit]⟩ (.inl rfl)
  simp [Asm.pc, emit]

theorem nooffset_eq (x : BitVec 32) (needsib : Bool) :
    nooffset x needsib = headBytes x needsib ++ if x &&& 0o100 ≠ 0 then [0] else [] :=
  (List.append_assoc _ _ _).symm

theorem bare_iff : m.bare = true ↔ m.offset = 0 ∧ m.syms = [] := by
  simp [Modrm.bare]

theorem withDisp_bare (w : ℕ) (x : BitVec 32) (l : List (Fin 8 × ℕ)) :
    withDisp w (if x &&& 0o100 ≠ 0 then 1 else 0) l (if x &&& 0o100 ≠ 0 then [0] else []) =
    some (⟨l, 0⟩, []) := by
  split
  · have hzero : (0 : Byte).signExtend w = 0 := by
      rw [BitVec.signExtend_eq_setWidth_of_msb_false rfl]
      simp
    rw [← hzero]
    rfl
  · exact withDisp_zero w l

variable {base : Option (Fin 8)} {index : Option (Fin 8 × Fin 4)}

theorem index_of_fits (h : fits32 none index = true) : ∃ r k, index = some (r, k) ∧ r ≠ 4 := by
  cases index with
  | none => simp [fits32] at h
  | some i =>
    simp only [fits32, Bool.and_eq_true, decide_eq_true_eq] at h
    exact ⟨i.1, i.2, rfl, h.1⟩

theorem decodes_wide (h : Sound st) (hregs : m.regs = -1) (hfit : fits32 base index = true)
    (h32 : m.addr32 = bits32 base index) (hperm : l.Perm (terms32 base index))
    (hreg : reg (m.syms.foldl getSymbol st) m which movacc = some st') (hpost : AllCalled st' post)
    (hvalues : Valued st post m.syms values) :
    Decodes decode32 which l (m.offset + values.foldr (· + ·) 0)
    (codeAt (run st' post).outbin st.pc st'.pc) ↔
      ¬ (base = none ∧ Short st m.syms (m.offset + values.foldr (· + ·) 0)) := by
  have hne : m.addr32 ≠ 0 := h32 ▸ bits32_ne_zero base index
  rw [reg_wide hregs hne, h32] at hreg
  replace hreg := (Option.some.inj hreg).symm
  cases hb : m.bare with
  | true =>
    obtain ⟨hoff, hsyms⟩ := bare_iff.1 hb
    obtain rfl : values = [] := by simpa [Valued, hsyms] using hvalues.symm
    rw [if_pos hb, hsyms] at hreg
    subst hreg
    have hd : m.offset + ([] : List (BitVec 32)).foldr (· + ·) 0 = 0 := by rw [hoff]; rfl
    have hshort : Short st m.syms 0 := ⟨by simp [hsyms], by decide⟩
    rw [hd, List.foldl_nil, codeAt_emit h hpost, nooffset_eq]
    cases base with
    | some b =>
      rw [decodes_head32 (form32_bare which hfit) (withDisp_bare 32 _ _)]
      exact iff_of_true ⟨hperm.symm, rfl⟩ (by simp)
    | none =>
      obtain ⟨r, k, rfl, hr⟩ := index_of_fits hfit
      obtain ⟨hsib, hmask, hhead, -⟩ := form32_index which hr k
      obtain ⟨modrm, rest, he, -, hdec⟩ := decode_head32 hhead []
      rw [hsib, if_neg (fun hne => hne hmask), he]
      exact iff_of_false (not_decodes_cons hdec) (fun hn => hn ⟨rfl, hshort⟩)
  | false =>
    rw [hb] at hreg
    have hst : st' = step st (.disp (form32 (bits32 base index) which).2.1
      (form32 (bits32 base index) which).2.2
      true true m.offset m.syms) := hreg
    rw [codeAt_disp h hst hpost hvalues]
    by_cases hshort : isShort st true m.offset m.syms = true
    · have hs := (isShort_iff hvalues).1 hshort
      have hsize : (dispRel st true true m.offset m.syms).size = 1 := by
        rw [dispRel, if_pos hshort]; rfl
      rw [if_pos hshort, hsize]
      cases base with
      | some b =>
        rw [decodes_head32 (form32_byte which hfit) (withDisp_byte hs.2 32 (.inr rfl) _)]
        exact iff_of_true ⟨hperm.symm, BitVec.setWidth_eq _⟩ (by simp)
      | none =>
        obtain ⟨r, k, rfl, hr⟩ := index_of_fits hfit
        obtain ⟨-, -, -, hmod⟩ := form32_index which hr k
        have hnone (rest : List Byte) :
            decode32 (((form32 (bits32 none (some (r, k))) which).2.1 ^^^ 0o300).setWidth 8) rest =
              none := by
          rw [decode32, if_pos hmod]
        exact iff_of_false (not_decodes_cons (hnone _)) (fun hn => hn ⟨rfl, hs⟩)
    · have hs := mt (isShort_iff hvalues).2 hshort
      have hsize : (dispRel st true true m.offset m.syms).size = 4 := by
        rw [dispRel, if_neg hshort]; rfl
      rw [if_neg hshort, hsize, decodes_head32 (form32_full which hfit)
        (withDisp_full (by decide) 32 rfl _ _)]
      exact iff_of_true ⟨hperm.symm, BitVec.setWidth_eq _⟩ (fun hn => hs hn.2)

theorem decodes_head16 {x : BitVec 32} {size : ℕ} {l' : List (Fin 8 × ℕ)} {d v : BitVec 16}
    {bytes : List Byte}
    (hreg : regOf (x.setWidth 8) = which) (hmod : modOf (x.setWidth 8) ≠ 3)
    (hlayout : layout16 (x.setWidth 8) = (size, l')) (hdisp : withDisp 16 size l' bytes =
      some (⟨l', v⟩, [])) :
    Decodes decode16 which l d (headBytes x false ++ bytes) ↔ l'.Perm l ∧ v = d := by
  have hdecode : decode16 (x.setWidth 8) bytes = some (⟨l', v⟩, []) := by
    rw [decode16_of_mod hmod, hlayout]
    exact hdisp
  exact decodes_cons hreg hdecode

theorem terms16_simple : ∀ i : Fin 8, (terms16 i).Nodup ∧ ∀ t ∈ terms16 i, t.2 = 1 := by decide

theorem decodes_narrow (h : Sound st) (h32 : m.addr32 = 0) (hbits : m.regs = bits16 l)
    (hone : ∀ t ∈ l, t.2 = 1)
    (h0 : m.regs ≠ 0) (hreg : reg (m.syms.foldl getSymbol st) m which movacc = some st')
    (hpost : AllCalled st' post) (hvalues : Valued st post m.syms values) :
    Decodes decode16 which l ((m.offset + values.foldr (· + ·) 0).setWidth 16)
      (codeAt (run st' post).outbin st.pc st'.pc) ↔ l.Nodup := by
  obtain ⟨i, hi, hst⟩ := reg_narrow h32 h0 hreg
  obtain ⟨hbare, hbyte, hfull⟩ := fields16 which i
  have hperm := perm_iff_of_bits16 (hbits.symm.trans hi) hone (terms16_simple i).2
    (terms16_simple i).1
  cases hb : m.bare with
  | true =>
    obtain ⟨hoff, hsyms⟩ := bare_iff.1 hb
    obtain rfl : values = [] := by simpa [Valued, hsyms] using hvalues.symm
    rw [if_pos hb, hsyms] at hst
    subst hst
    have hd : m.offset + ([] : List (BitVec 32)).foldr (· + ·) 0 = 0 := by rw [hoff]; rfl
    rw [hd, List.foldl_nil, codeAt_emit h hpost, nooffset_eq,
      decodes_head16 hbare.1 hbare.2.1 hbare.2.2 (withDisp_bare 16 _ _), hperm]
    exact and_iff_left rfl
  | false =>
    rw [hb] at hst
    have hst : st' = step st (.disp ((BitVec.ofNat 32 which.val <<< 3) ||| BitVec.ofNat 32 i.val ||| 0o200) false
      true false m.offset m.syms) := hst
    rw [codeAt_disp h hst hpost hvalues]
    by_cases hshort : isShort st true m.offset m.syms = true
    · have hs := (isShort_iff hvalues).1 hshort
      have hsize : (dispRel st true false m.offset m.syms).size = 1 := by
        rw [dispRel, if_pos hshort]; rfl
      rw [if_pos hshort, hsize,
        decodes_head16 hbyte.1 hbyte.2.1 hbyte.2.2 (withDisp_byte hs.2 16 (.inl rfl) _), hperm]
      exact and_iff_left rfl
    · have hsize : (dispRel st true false m.offset m.syms).size = 2 := by
        rw [dispRel, if_neg hshort]; rfl
      rw [if_neg hshort, hsize,
        decodes_head16 hfull.1 hfull.2.1 hfull.2.2 (withDisp_full (by decide) 16 rfl _ _), hperm]
      exact and_iff_left rfl

theorem code_disp_only (h : Sound st) (h32 : m.addr32 = 0) (h0 : m.regs = 0)
    (hreg : reg (m.syms.foldl getSymbol st) m which movacc = some st') (hpost : AllCalled st' post)
    (hvalues : Valued st post m.syms values) :
    codeAt (run st' post).outbin st.pc st'.pc =
      headBytes (if movacc ≠ 0 then movacc else (BitVec.ofNat 32 which.val <<< 3) + 6) false ++
        lowBytes 2 (m.offset + values.foldr (· + ·) 0) := by
  have hst : st' = step st (.disp (if movacc ≠ 0 then movacc
    else (BitVec.ofNat 32 which.val <<< 3) + 6) false
      false false m.offset m.syms) := by
    unfold reg at hreg
    simp only [h0, h32, if_true, ne_eq, not_true_eq_false, if_false, decide_false] at hreg
    exact (Option.some.inj hreg).symm
  have hshort : isShort st false m.offset m.syms = false := rfl
  rw [codeAt_disp h hst hpost hvalues, hshort]
  simp [dispRel, hshort, Rel.size]

/-- The opcode of a move of the accumulator, which the callers set only if there is no
register in the operand. -/
def accumulator (m : Modrm) (opcode : BitVec 32) : BitVec 32 := if m.regs = 0 then opcode else 0

/-- The prefixes and the bytes of an operand, by the rules of the processor, for registers
`l` and a displacement `d`. -/
def Meets (m : Modrm) (w : Bool) (which : Fin 8) (movacc : BitVec 32) (l : List (Fin 8 × ℕ))
    (d : BitVec 32)
    (code : List Byte) : Prop :=
  (0x67 ∈ m.prefixes ↔ w = true) ∧
    if w then movacc = 0 ∧ Decodes decode32 which l d code
    else if movacc = 0 then Decodes decode16 which l (d.setWidth 16) code
    else l = [] ∧ ∃ disp, code = movacc.setWidth 8 :: disp ∧
      takeDisp 16 2 disp = some (d.setWidth 16, [])

/-- A register of 16 bits is there twice, or an index is there without a base and the
displacement is known and fits into a byte. -/
def Misencoded (st : Asm) (items : List Item) (d : BitVec 32) : Prop :=
  (wide items = false ∧ ¬ (terms items).Nodup) ∨
    (wide items = true ∧ (∃ r k, terms items = [(r, k)] ∧ k ≠ 1) ∧ Short st (symbols items) d)

theorem index_alone_iff (hfit : fits32 base index = true) (hperm : l.Perm (terms32 base index)) :
    (∃ r k, l = [(r, k)] ∧ k ≠ 1) ↔ base = none := by
  constructor
  · rintro ⟨r, k, rfl, hk⟩
    have hl := List.perm_singleton.1 hperm.symm
    cases base with
    | none => rfl
    | some b =>
      have := (List.cons.inj hl).1
      exact absurd (congrArg Prod.snd this).symm hk
  · rintro rfl
    obtain ⟨r, k, rfl, -⟩ := index_of_fits hfit
    have hk : k ≠ 0 := by
      simp only [fits32, Bool.and_eq_true, Option.isSome_none, Bool.false_or,
        decide_eq_true_eq] at hfit
      exact hfit.2
    have hpow : ∀ k : Fin 4, k ≠ 0 → 2 ^ k.val ≠ 1 := by decide
    exact ⟨r, 2 ^ k.val, List.perm_singleton.1 hperm, hpow k hk⟩

/-- An operand in the final image is decoded as it was written, but for the two kinds that
are not encoded as the processor has them. -/
theorem reg_meets_iff (pre post : List Op) (items : List Item) (m : Modrm) (which : Fin 8)
    (opcode : BitVec 32)
    (st' : Asm) (values : List (BitVec 32)) (hpre : AllCalled emptyAsm pre)
    (hm : operand items = some m)
    (hreg : reg (m.syms.foldl getSymbol (run emptyAsm pre)) m which (accumulator m opcode) =
      some st')
    (hpost : AllCalled st' post) (hvalues : Valued (run emptyAsm pre) post (symbols items) values) :
    Meets m (wide items) which (accumulator m opcode) (terms items)
    (constants items + values.foldr (· + ·) 0)
        (codeAt (run st' post).outbin (run emptyAsm pre).pc st'.pc) ↔
      ¬ Misencoded (run emptyAsm pre) items (constants items + values.foldr (· + ·) 0) := by
  have hsound : Sound (run emptyAsm pre) := sound_emptyAsm.run hpre
  have hp := operand_parsed hm
  have hvalues : Valued (run emptyAsm pre) post m.syms values := hp.syms ▸ hvalues
  rw [Meets, Misencoded, ← hp.offset, ← hp.syms]
  obtain ⟨hw, h32, -, hbits, hone⟩ | ⟨hw, -, hregs, base, index, hfit, h32, hperm⟩ := hp.registers
  · rw [and_iff_right hp.prefixes, hw, if_neg Bool.false_ne_true]
    have hwrong : (false = false ∧ ¬ (terms items).Nodup ∨ false = true ∧
        (∃ r k, terms items = [(r, k)] ∧ k ≠ 1) ∧
        Short (run emptyAsm pre) m.syms (m.offset + values.foldr (· + ·) 0)) ↔
          ¬ (terms items).Nodup := by simp
    rw [hwrong, not_not]
    by_cases h0 : m.regs = 0
    · have hnil : terms items = [] := bits16_eq_zero.1 (hbits.symm.trans h0)
      have hcode := code_disp_only hsound h32 h0 hreg hpost hvalues
      refine iff_of_true ?_ (by rw [hnil]; exact List.nodup_nil)
      rw [hcode, hnil]
      by_cases hacc : accumulator m opcode = 0
      · obtain ⟨hf, hmod, hlayout⟩ := fields_disp which
        rw [if_pos hacc, if_neg (fun hn => hn hacc),
          decodes_head16 hf hmod hlayout (withDisp_full (by decide) 16 rfl _ _)]
        exact ⟨.refl _, rfl⟩
      · rw [if_neg hacc, if_pos hacc]
        refine ⟨rfl, lowBytes 2 (m.offset + values.foldr (· + ·) 0), rfl, ?_⟩
        have htwo : 2 ≠ 1 := by decide
        have hdisp := withDisp_full htwo 16 rfl (m.offset + values.foldr (· + ·) 0) []
        obtain ⟨⟨v, rest⟩, hv, he⟩ := Option.map_eq_some_iff.1 hdisp
        obtain ⟨ha, rfl⟩ := Prod.mk.inj he
        rw [hv, show v = _ from congrArg Address.disp ha]
    · have hacc : accumulator m opcode = 0 := if_neg h0
      rw [if_pos hacc]
      exact decodes_narrow hsound h32 hbits hone h0 hreg hpost hvalues
  · have h0 : m.regs ≠ 0 := by rw [hregs]; decide
    have hacc : accumulator m opcode = 0 := if_neg h0
    rw [and_iff_right hp.prefixes, hw, if_pos rfl, and_iff_right hacc,
      decodes_wide hsound hregs hfit h32 hperm hreg hpost hvalues, index_alone_iff hfit hperm]
    simp

/-- `[ebx+esi*4+x]`, with `x` set to 5 behind it. -/
theorem reg_meets_ebx_esi :
    ∃ m st', operand [.reg32 3, .scaled 6 4, .sym ['x']] = some m ∧
      reg (m.syms.foldl getSymbol (run emptyAsm [.bytes [0x67, 0x8b]])) m 0 (accumulator m 0) =
      some st' ∧
      Meets m true 0 (accumulator m 0) [(3, 1), (6, 4)] 5
        (codeAt (run st' [.define ['x'] 5]).outbin 2 st'.pc) := by
  refine ⟨_, _, rfl, rfl, ?_⟩
  refine (reg_meets_iff [.bytes [0x67, 0x8b]] [.define ['x'] 5]
    [.reg32 3, .scaled 6 4, .sym ['x']] _ 0 0 _ [5]
    ⟨trivial, trivial⟩ rfl rfl ⟨trivial, trivial⟩ (by rfl)).2 ?_
  rintro (⟨hw, -⟩ | ⟨-, ⟨r, k, ht, -⟩, -⟩)
  · cases hw
  · cases ht

/-- `[eax*2]`: the SIB byte has no base, but no displacement follows it. -/
theorem reg_index_alone :
    ∃ m st', operand [.scaled 0 2] = some m ∧
      reg (run emptyAsm [.bytes [0x67, 0x8b]]) m 0 (accumulator m 0) = some st' ∧
      codeAt st'.outbin 2 st'.pc = [0x04, 0x45] ∧
      ¬ Meets m true 0 (accumulator m 0) [(0, 2)] 0 (codeAt st'.outbin 2 st'.pc) := by
  refine ⟨_, _, rfl, rfl, by decide, ?_⟩
  rintro ⟨-, h⟩
  obtain ⟨modrm, rest, a, he, -, hd, -⟩ := h.2
  have hcode : modrm :: rest = [0x04, 0x45] := he.symm.trans (by decide)
  obtain ⟨rfl, rfl⟩ := List.cons.inj hcode
  have hnone : decode32 0x04 [0x45] = none := by decide
  rw [hnone] at hd
  cases hd

end DjgppLibc.Djasm
