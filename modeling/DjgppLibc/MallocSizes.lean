import DjgppLibc.MallocRecord
import DjgppLibc.MallocSafety

/-!
# Requests near the top of the address space

`roundup` adds twice before any test of the size. For the largest requests the
sum wraps to 0, 8 or 16, and the small value takes the ordinary paths: it is
accepted, and it is handed to `__nmalloc_split` below the size of a header. The
results say for which requests this happens. Only the record of the sizes that
are cut is followed through the damaged heap, where nothing else is known.
-/
namespace DjgppLibc.NewMalloc
open ByteMemory LinkedLists

section
variable [Image] {s s' : Heap} {G : Layout} {a b k m m' szneed : ℕ} {ans : Option ℕ}

/-- The block that is returned is short, or a cut below 24 bytes was made. -/
def Cheats (o : Except Heap (Heap × ℕ)) : Prop :=
  ∀ s' m, o = .ok (s', m) → m ≠ 0 ∧ (s'.get .sz m < 48 ∨ ∃ k, k < 24 ∧ .split k ∈ s'.trace)

omit [Image] in
theorem roundup_wrapped {size : ℕ} (h : 4294967272 < size) (hlt : size < 4294967296) :
    roundup (atLeastOne size) < 24 := by
  rw [atLeastOne, if_neg (by omega)]
  simp only [roundup, u32, alignMask, dataOffset]
  omega

omit [Image] in
theorem splitLastsbrk_cheats (hl : s.lastsbrk ≠ 0) (hk : szneed < 24) :
    Cheats (splitLastsbrk s szneed) := by
  intro s' m h
  obtain ⟨rfl, hmem, -⟩ := splitLastsbrk_logs h
  exact ⟨hl, .inr ⟨szneed, hk, hmem⟩⟩

/-- Cutting at a wrapped size and listing the rest, if that does not stop. -/
theorem split_list_cheats (hm : m ≠ 0) (hk : szneed < 24) :
    Cheats (do
      let (s, m, m1) ← nmallocSplit s m szneed
      let s ← mv2freelist s m1
      .ok (s, m)) := by
  intro s' m' h
  obtain ⟨rfl, hmem, -⟩ := split_list_logs h
  exact ⟨hm, .inr ⟨szneed, hk, hmem⟩⟩

theorem takefree_cheats (h : Good s G) (hk : szneed < 24) (hb : searchfree s szneed ≠ 0) :
    Cheats (takefree s (searchfree s szneed) szneed) := by
  obtain ⟨-, hmem, -⟩ := searchfree_spec h.inv (by omega) hb
  obtain ⟨s₁, hs₁, hmv, hxa, hsz⟩ := rmvfromfree_moves h.inv h.last hmem
  have hx0 := h.inv.legal.ne_zero hxa.1
  have hu : u32 (szneed + minSave) = szneed + 24 := by
    simp only [u32, minSave]
    omega
  unfold takefree
  simp only [hs₁, hu]
  by_cases hc : s₁.get .sz (s.freehdrs (searchfree s szneed)) < szneed + 24
  · intro s' m' ho
    simp only [bind, Except.bind, if_pos hc] at ho
    obtain ⟨rfl, rfl⟩ := Prod.mk.inj (Except.ok.inj ho)
    exact ⟨hx0, .inl (by omega)⟩
  · intro s' m' ho
    simp only [bind, Except.bind, if_neg hc] at ho
    exact split_list_cheats (s := s₁) hx0 hk s' m' ho

theorem trim_cheats (hm : m ≠ 0) (hk : szneed < 24) (hsz : 24 ≤ s.get .sz m) :
    Cheats (trim s m szneed) := by
  have hlt := get_lt s .sz m
  unfold trim
  split_ifs with hc
  · exact split_list_cheats hm hk
  · intro s' m' ho
    obtain ⟨rfl, rfl⟩ := Prod.mk.inj (Except.ok.inj ho)
    refine ⟨hm, .inl ?_⟩
    simp only [sub32, minSave] at hc
    omega

/-- No memory is found and sbrk has none. -/
def Refuses (s : Heap) (ans : Option ℕ) (szneed : ℕ) : Prop :=
  searchfree s szneed = 0 ∧
    (s.lastsbrk ≠ 0 → s.get .sz s.lastsbrk < u32 (szneed + dataOffset)) ∧ ans = none

theorem mallocBlock_refuses (h : Refuses s ans szneed) : mallocBlock s ans szneed = .ok (s, 0) := by
  obtain ⟨hb, hl, rfl⟩ := h
  unfold mallocBlock
  rw [if_neg (not_not.mpr hb), if_neg]
  · rfl
  · rintro ⟨h0, hle⟩
    exact absurd (hl h0) (by omega)

theorem mallocBlock_cheats (h : Good s G) (hk : szneed < 24) (hf : Answers s ans szneed)
    (hr : Roomy s ans) (hn : ¬ Refuses s ans szneed) : Cheats (mallocBlock s ans szneed) := by
  unfold mallocBlock
  split_ifs with hb hlast
  · exact takefree_cheats h hk hb
  · exact splitLastsbrk_cheats hlast.1 hk
  · rcases extendsbrk_grown h hf hr (by omega) with ⟨rfl, hs₁⟩ | ⟨s₁, G₁, hs₁, hgrown⟩
    · exfalso
      refine hn ⟨not_not.mp hb, fun h0 => ?_, rfl⟩
      by_contra hge
      exact hlast ⟨h0, by omega⟩
    · have hroom := hgrown.room
      have hroom' : ¬ s₁.get .sz G₁.last < u32 (szneed + minSave) := by
        simp only [u32, minSave]
        omega
      intro s' m ho
      simp only [hs₁, bind, Except.bind, if_neg hgrown.last_ne, if_neg hroom'] at ho
      exact splitLastsbrk_cheats (hgrown.last.symm ▸ hgrown.last_ne) hk s' m ho

/-- The outcome is NULL and the unchanged heap, or a block with `want` data
bytes, with no cut below 24 bytes on record. -/
def Honest (s : Heap) (want : ℕ) (o : Except Heap (Heap × ℕ)) : Prop :=
  ∃ s' p, o = .ok (s', p) ∧ (p = 0 ∧ s' = s ∨ p ≠ 0 ∧ want + 16 ≤ s'.get .sz (p - 16) ∧
    ∀ k, .split k ∈ s'.trace → 24 ≤ k)

omit [Image] in
/-- A block of an honest outcome, as a pointer. -/
theorem not_honest_of_cheats {o : Except Heap (Heap × ℕ)} {want : ℕ} (hw : 4294967272 < want)
    (h : Cheats o) : ¬ Honest s want (do
      let (s, m) ← o
      .ok (s, if m ≠ 0 then m + dataOffset else 0)) := by
  rintro ⟨s', p, ho, hp⟩
  cases o with
  | error t => simp [bind, Except.bind] at ho
  | ok o =>
      obtain ⟨t, m⟩ := o
      obtain ⟨hm0, hbad⟩ := h t m rfl
      simp only [bind, Except.bind, if_pos hm0] at ho
      obtain ⟨rfl, rfl⟩ := Prod.mk.inj (Except.ok.inj ho)
      have hm : m + dataOffset - 16 = m := Nat.add_sub_cancel m 16
      rcases hp with ⟨hp, -⟩ | ⟨-, hsz, hcut⟩
      · simp only [dataOffset] at hp
        omega
      · rw [hm] at hsz
        rcases hbad with hbad | ⟨k, hk, hmem⟩
        · omega
        · have := hcut k hmem
          omega

omit [Image] in
theorem Honest.refused (want : ℕ) : Honest s want (.ok (s, 0)) := ⟨s, 0, rfl, .inl ⟨rfl, rfl⟩⟩

theorem Served.honest {G' : Layout} {want : ℕ} (h : Served s G szneed s' G' m)
    (hw : want + 16 ≤ szneed) : Honest s want (.ok (s', m + 16)) := by
  refine ⟨s', m + 16, rfl, .inr ⟨by omega, ?_, fun k hk => h.good.inv.clean _ hk⟩⟩
  rw [Nat.add_sub_cancel]
  exact le_trans hw h.size

theorem nmalloc_honest_iff (h : Good s G) {size : ℕ} (hlt : size < 4294967296)
    (hf : Answers s ans (roundup (atLeastOne size))) (hr : Roomy s ans) :
    Honest s size (nmalloc s ans size) ↔
      size ≤ 4294967272 ∨ Refuses s ans (roundup (atLeastOne size)) := by
  by_cases hsize : size ≤ 4294967272
  · refine iff_of_true ?_ (.inl hsize)
    obtain ⟨-, -, hle, -⟩ := roundup_atLeastOne hsize
    rcases nmalloc_spec h hsize hf hr with hs | ⟨s', G', m, hs, -, hserve⟩
    · rw [hs]
      exact Honest.refused size
    · rw [hs]
      exact hserve.honest hle
  · have hk := roundup_wrapped (by omega) hlt
    rw [nmalloc_eq (by simp only [intMax]; omega)]
    by_cases hn : Refuses s ans (roundup (atLeastOne size))
    · rw [mallocBlock_refuses hn]
      exact iff_of_true (Honest.refused size) (.inr hn)
    · refine iff_of_false ?_ (by tauto)
      exact not_honest_of_cheats (by omega) (mallocBlock_cheats h hk hf hr hn)

theorem nrealloc_honest_iff (h : Good s G) (hm : m ∈ G.asg) {size : ℕ} (hlt : size < 4294967296)
    (hf : Answers s ans (roundup (atLeastOne size))) (hr : Roomy s ans) :
    Honest s size (nrealloc s ans (m + 16) size) ↔ size ≤ 4294967272 := by
  by_cases hsize : size ≤ 4294967272
  · refine iff_of_true ?_ hsize
    obtain ⟨-, -, hle, -⟩ := roundup_atLeastOne hsize
    rcases nrealloc_spec h hm hsize hf hr with hs | ⟨s', G', m', hs, -, hres⟩
    · rw [hs]
      exact Honest.refused size
    · rw [hs]
      refine ⟨s', m' + 16, rfl, .inr ⟨by omega, ?_, fun k hk => hres.good.inv.clean _ hk⟩⟩
      rw [Nat.add_sub_cancel]
      exact le_trans hle hres.size
  · -- a wrapped size counts as a reduction of any block
    refine iff_of_false ?_ hsize
    have hk := roundup_wrapped (by omega) hlt
    have hsz := h.inv.legal.large m hm.1 fun he => hm.2 (.inl he)
    rw [nrealloc_eq h hm]
    refine not_honest_of_cheats (by omega) ?_
    unfold reallocBlock
    rw [if_pos (by omega)]
    exact trim_cheats (h.inv.legal.ne_zero hm.1) hk hsz

theorem ncalloc_honest_iff (h : Good s G) {n size : ℕ}
    (hf : Answers s ans (roundup (atLeastOne (n * size)))) (hr : Roomy s ans) :
    Honest s (n * size) (ncalloc s ans n size) ↔
      ¬ (n = 0 ∨ (4294967296 - 1) / n > size) ∨ n * size ≤ 4294967272 ∨
        Refuses s ans (roundup (atLeastOne (n * size))) := by
  by_cases hacc : n = 0 ∨ (4294967296 - 1) / n > size
  swap
  · refine iff_of_true ?_ (.inl hacc)
    rw [ncalloc, if_neg hacc]
    exact Honest.refused _
  by_cases hsize : n * size ≤ 4294967272
  · refine iff_of_true ?_ (.inr (.inl hsize))
    obtain ⟨-, -, hle, -⟩ := roundup_atLeastOne hsize
    rcases ncalloc_spec h hsize hf hr with hs | ⟨s', G', m, hs, -, hserve, -⟩
    · rw [hs]
      exact Honest.refused _
    · rw [hs]
      exact hserve.honest hle
  have hprod := ncalloc_accepts hacc
  have hlt : n * size < 4294967296 := by
    rw [← hprod]
    exact Nat.mod_lt _ (by omega)
  have hk := roundup_wrapped (by omega) hlt
  unfold ncalloc
  rw [if_pos hacc]
  simp only [hprod]
  rw [nmalloc_eq (by simp only [intMax]; omega)]
  by_cases hn : Refuses s ans (roundup (atLeastOne (n * size)))
  · refine iff_of_true ?_ (.inr (.inr hn))
    rw [mallocBlock_refuses hn]
    exact Honest.refused _
  · refine iff_of_false ?_ (by tauto)
    rintro ⟨s', p, ho, hp⟩
    have hcheat := mallocBlock_cheats h hk hf hr hn
    cases hb : mallocBlock s ans (roundup (atLeastOne (n * size))) with
    | error t => simp [hb, bind, Except.bind] at ho
    | ok o =>
        obtain ⟨t, m⟩ := o
        obtain ⟨hm0, hbad⟩ := hcheat t m hb
        have hp0 : m + dataOffset ≠ 0 := by omega
        simp only [hb, bind, Except.bind, if_pos hm0, if_pos hp0] at ho
        obtain ⟨rfl, rfl⟩ := Prod.mk.inj (Except.ok.inj ho)
        have hm : m + dataOffset - 16 = m := Nat.add_sub_cancel m 16
        rcases hp with ⟨hp, -⟩ | ⟨-, hsz, hcut⟩
        · exact hp0 hp
        · -- clearing starts behind the header
          rw [hm, get_log, get_congr (s := t) (fun i h₁ h₂ => fill_out _ _ _ _ (by
            simp only [Field.offset] at h₂
            simp only [dataOffset]
            omega))] at hsz
          rcases hbad with hbad | ⟨k, hk', hmem⟩
          · omega
          · have := hcut k (List.mem_cons_of_mem _ hmem)
            omega

/-- The test with which `ncalloc` accepts its arguments. -/
def CallocAccepts (n size : ℕ) : Prop := n = 0 ∨ (4294967296 - 1) / n > size

theorem run_honest (mem : Mem) (cs : List (Call × Option ℕ))
    (hc : Runs.Along Run.step Allowed (Run.init mem) cs)
    (hr : Runs.Along Run.step Tame (Run.init mem) cs) (r : Run)
    (hexec : Runs.exec Run.step (Run.init mem) cs = .ok r) (ans : Option ℕ)
    (hr' : Roomy r.heap ans) :
    (∀ size, size < 4294967296 → Answers r.heap ans (roundup (atLeastOne size)) →
      (Honest r.heap size (nmalloc r.heap ans size) ↔
        size ≤ 4294967272 ∨ Refuses r.heap ans (roundup (atLeastOne size)))) ∧
    (∀ l ∈ r.live, ∀ size, size < 4294967296 →
      Answers r.heap ans (roundup (atLeastOne size)) →
      (Honest r.heap size (nrealloc r.heap ans l.1 size) ↔ size ≤ 4294967272)) ∧
    ∀ n size, (CallocAccepts n size → Answers r.heap ans (roundup (atLeastOne (n * size)))) →
      (Honest r.heap (n * size) (ncalloc r.heap ans n size) ↔
        ¬ CallocAccepts n size ∨ n * size ≤ 4294967272 ∨
          Refuses r.heap ans (roundup (atLeastOne (n * size)))) := by
  obtain ⟨r', G, hexec', hG⟩ := Run.Inv.exec hc hr
  rw [hexec] at hexec'
  obtain rfl := Except.ok.inj hexec'
  refine ⟨fun size hlt hf => nmalloc_honest_iff hG.good hlt hf hr', ?_, ?_⟩
  · intro l hl size hlt hf
    obtain ⟨h₁, h₂, -⟩ := hG.live l hl
    have := nrealloc_honest_iff hG.good h₂ hlt hf hr'
    rwa [Nat.sub_add_cancel h₁] at this
  · intro n size hf
    by_cases hacc : CallocAccepts n size
    · exact ncalloc_honest_iff hG.good (hf hacc) hr'
    · refine iff_of_true ?_ (.inl hacc)
      have hnull : ncalloc r.heap ans n size = .ok (r.heap, 0) := if_neg hacc
      rw [hnull]
      exact Honest.refused _

end

/-- The list headers at address 4096, for the runs on fixed inputs. -/
local instance sampleAddress : Image := ⟨4096, sampleStart_pos, sampleStart_fits⟩

theorem run_honest_started :
    Honest (endOf (Runs.exec Run.step (Run.init fun _ => 0) [(.malloc 8, some 65536)])).heap
      4000000000 (nmalloc
        (endOf (Runs.exec Run.step (Run.init fun _ => 0) [(.malloc 8, some 65536)])).heap none
        4000000000) :=
  ((run_honest (fun _ => 0) [(.malloc 8, some 65536)] (by decide +kernel) (by decide +kernel) _
    (by rfl) none (by decide +kernel)).1 4000000000 (by decide) (by decide +kernel)).mpr
    (.inl (by decide))

/-- The largest request is answered with a bare header. -/
theorem largest_request_accepted :
    Answers (Heap.init fun _ => 0) (some 65536) (roundup (atLeastOne 4294967295)) ∧
      ¬ Honest (Heap.init fun _ => 0) 4294967295
        (nmalloc (Heap.init fun _ => 0) (some 65536) 4294967295) := by
  refine ⟨by decide +kernel, ?_⟩
  have hrun : (nmalloc (Heap.init fun _ => 0) (some 65536) 4294967295).toOption.map
      (fun o => (o.1.get .sz (o.2 - 16), o.2)) = some (16, 65552) := by
    decide +kernel
  rintro ⟨s', p, hs, hp⟩
  rw [hs] at hrun
  simp only [Except.toOption, Option.map_some, Option.some.injEq, Prod.mk.injEq] at hrun
  rcases hp with ⟨hp, -⟩ | ⟨-, hsz, -⟩ <;> omega

end DjgppLibc.NewMalloc
