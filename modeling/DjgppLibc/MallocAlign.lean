import DjgppLibc.MallocRecord
import DjgppLibc.MallocSafety

/-!
# Aligned blocks

`nmemalign` asks `nmalloc` for more than it needs, cuts off the part below the
first aligned address and frees it. The design comment of the source wants that
part to be three units long, and the request is enlarged by three units for the
purpose, but the cut is made at the first aligned address all the same. The
part is too short exactly when the block that `nmalloc` finds starts one or two
units below it. `place` says where that block is, as a function of the heap.
-/
namespace DjgppLibc.NewMalloc
open ByteMemory LinkedLists

section
variable [Image] {s s' : Heap} {G G' : Layout} {a k m size alignment szneed : ℕ}
  {ans ans' : Option ℕ}

/-- Where `nmalloc` puts a block of `szneed` bytes; 0 if there is no memory. -/
def place (s : Heap) (ans : Option ℕ) (szneed : ℕ) : ℕ :=
  if searchfree s szneed ≠ 0 then s.freehdrs (searchfree s szneed)
  else if s.lastsbrk ≠ 0 ∧ s.get .sz s.lastsbrk ≥ u32 (szneed + dataOffset) then s.lastsbrk
  else
    match ans with
    | none => 0
    | some a => if a = expected s then s.lastsbrk else alignUp a

theorem mallocBlock_place (h : mallocBlock s ans szneed = .ok (s', m)) :
    m = place s ans szneed := by
  unfold mallocBlock at h
  unfold place
  split_ifs at h ⊢ with hb hl
  · exact (takefree_logs h).1
  · exact (splitLastsbrk_logs h).1
  · obtain ⟨⟨t, n⟩, ht, hn⟩ := Runs.bind_ok h
    dsimp only at hn
    rcases (extendsbrk_logs ht).2 with ⟨rfl, rfl⟩ | ⟨a, rfl, hlast, hplace⟩
    · obtain ⟨-, rfl⟩ := Prod.mk.inj (Except.ok.inj hn)
      rfl
    · refine Eq.trans ?_ hplace
      split_ifs at hn with h0 hroom
      · obtain ⟨-, rfl⟩ := Prod.mk.inj (Except.ok.inj hn)
        exact h0.symm
      · obtain ⟨-, rfl⟩ := Prod.mk.inj (Except.ok.inj hn)
        rfl
      · exact (splitLastsbrk_logs hn).1.trans hlast

variable (size ans) in
theorem nrealloc_shrinks (h : Good s G) (hm : m ∈ G.asg) (hsize : size ≤ 4294967272)
    (hle : roundup (atLeastOne size) ≤ s.get .sz m) :
    ∃ s' G', nrealloc s ans (m + 16) size = .ok (s', m + 16) ∧
      Resized s G m (roundup (atLeastOne size)) s' G' m := by
  obtain ⟨hk8, hk, -, -⟩ := roundup_atLeastOne hsize
  obtain ⟨s', G', hs', hres⟩ := trim_resized h hm hk8 hk hle
  refine ⟨s', G', ?_, hres⟩
  rw [nrealloc_eq h hm]
  unfold reallocBlock
  rw [if_pos hle, hs']
  simp only [bind, Except.bind, if_pos (h.inv.legal.ne_zero hm.1), dataOffset]

/-- Cut an assigned block and free its lower part. -/
theorem split_nfree (h : Good s G) (hm : m ∈ G.asg) (hk8 : k % 8 = 0) (hk : 24 ≤ k)
    (hle : k + 24 ≤ s.get .sz m) :
    ∃ s₁ s' G', nmallocSplit s m k = .ok (s₁, m, m + k) ∧ nfree s₁ (m + 16) = .ok s' ∧
      Good s' G' ∧ m + k ∈ G'.asg ∧ s'.get .sz (m + k) = s.get .sz m - k ∧ m + k ∉ G.blocks ∧
      ∀ x ∈ G.asg, x ≠ m → x ∈ G'.asg ∧ Keep s s' x := by
  have hml : ¬ G.Listed m := fun ho => hm.2 (.inr ho)
  have hmL : m ≠ G.last := fun he => hm.2 (.inl he)
  have hu := h.inv.legal.chain.cut_fresh hm.1 (k := k) (by omega) (by omega)
  obtain ⟨s₁, hs₁, hinv, hlast, hgrants, -, hszu, -, hma, -, hfr⟩ :=
    nmallocSplit_cut h.inv hm.1 hml (h.inv.nextfree_asg hm) hk8 hk (.inl ⟨rfl, hmL, hle⟩)
  have hgood : Good s₁ ((G.insert (m + k)).setLast G.last) :=
    ⟨hinv, hlast.trans h.last, fun h0 => hgrants.trans (h.empty h0)⟩
  have hua : m + k ∈ ((G.insert (m + k)).setLast G.last).asg := by
    refine ⟨.inl rfl, ?_⟩
    rintro (ho | ho)
    · have ho' : m + k = G.last := ho
      exact hu (ho' ▸ (h.inv.legal.last (h.last_ne hm.1)).1)
    · exact hu (h.inv.legal.listed_mem ho)
  obtain ⟨s', G', hs', hgood', hfr'⟩ := nfree_spec hgood hma
  obtain ⟨hua', hku⟩ := hfr' (m + k) hua (by omega)
  refine ⟨s₁, s', G', hs₁, hs', hgood', hua', hku.1.trans hszu, hu, ?_⟩
  intro x hx hxm
  obtain ⟨hx₁, hk₁⟩ := hfr x hx hxm
  obtain ⟨hx₂, hk₂⟩ := hfr' x hx₁ hxm
  exact ⟨hx₂, hk₁.trans hk₂⟩

omit [Image] in
theorem invalid_eq_zero (h : invalid alignment = 0) :
    0 < alignment ∧ alignment ≤ 65536 ∧ (alignment ∣ 8 ∨ 8 < alignment ∧ alignment % 16 = 0) := by
  unfold invalid at h
  split_ifs at h with hc
  obtain ⟨i, hi⟩ := (Nat.and_sub_one_eq_zero_iff_isPowerOfTwo hc.1).mp h
  refine ⟨Nat.pos_of_ne_zero hc.1, hc.2, ?_⟩
  rcases Nat.lt_or_ge i 4 with hlt | hge
  · left
    rw [hi]
    exact Nat.pow_dvd_pow 2 (show i ≤ 3 by omega)
  · right
    have hdvd : 2 ^ 4 ∣ alignment := hi ▸ Nat.pow_dvd_pow 2 hge
    omega

/-- The size that `nmemalign` asks `nmalloc` for. -/
def memalignRequest (alignment size : ℕ) : ℕ :=
  if alignment ≤ 8 then roundup (atLeastOne size)
  else u32 (roundup (atLeastOne size) + (alignment + 3 * 8))

/-- The block size that `nmalloc` then looks for. -/
def memalignNeed (alignment size : ℕ) : ℕ := roundup (atLeastOne (memalignRequest alignment size))

/-- No block is found, or the block is aligned where it is, or there are 24 bytes
below the first aligned address. -/
def Clears (s : Heap) (ans : Option ℕ) (alignment size : ℕ) : Prop :=
  alignment ≤ 8 ∨ intMax - 65536 ≤ memalignNeed alignment size ∨
    place s ans (memalignNeed alignment size) = 0 ∨
    (place s ans (memalignNeed alignment size) + 16) % alignment = 0 ∨
    (place s ans (memalignNeed alignment size) + 16) % alignment + 24 ≤ alignment

omit [Image] in
/-- Arithmetic of the requested sizes. -/
theorem memalignRequest_spec (hal : invalid alignment = 0) (hsize : size < 2147418111) :
    memalignRequest alignment size ≤ 4294967272 ∧
      roundup (atLeastOne size) ≤ memalignRequest alignment size ∧
      (8 < alignment →
        roundup (atLeastOne size) + alignment + 24 ≤ memalignRequest alignment size) := by
  obtain ⟨-, hmax, -⟩ := invalid_eq_zero hal
  have hr : roundup (atLeastOne size) ≤ size + 24 := by
    simp only [roundup, atLeastOne, u32, alignMask, dataOffset]
    split_ifs <;> omega
  unfold memalignRequest
  simp only [u32]
  split_ifs <;> omega

theorem nmemalign_small (hal : invalid alignment = 0) (hsize : size < 2147418111)
    (h8 : alignment ≤ 8) :
    nmemalign s ans ans' alignment size = nmalloc s ans (memalignRequest alignment size) := by
  unfold nmemalign
  dsimp only
  rw [if_pos ⟨hsize, hal⟩, if_pos h8, memalignRequest, if_pos h8]
  rfl

theorem nmemalign_large (hal : invalid alignment = 0) (hsize : size < 2147418111)
    (h8 : 8 < alignment) :
    nmemalign s ans ans' alignment size = (do
      let (s, minit) ← nmalloc s ans (memalignRequest alignment size)
      if minit = 0 then .ok (s, 0)
      else if minit % alignment = 0 then nrealloc s ans' minit size
      else do
        let (s, m, m1) ← nmallocSplit s (minit - dataOffset) (alignment - minit % alignment)
        let s ← nfree s (m + dataOffset)
        nrealloc s ans' (m1 + dataOffset) size) := by
  unfold nmemalign
  dsimp only
  have hnot : ¬ alignment ≤ 8 := by omega
  rw [if_pos ⟨hsize, hal⟩, if_neg hnot, memalignRequest, if_neg hnot]
  rfl

/-- What `nmalloc` answers to `nmemalign`, and where. -/
theorem memalign_nmalloc (h : Good s G) (hal : invalid alignment = 0) (hsize : size < 2147418111)
    (hf : Answers s ans (memalignNeed alignment size)) (hr : Roomy s ans) :
    (nmalloc s ans (memalignRequest alignment size) = .ok (s, 0) ∧
      (intMax - 65536 ≤ memalignNeed alignment size ∨
        place s ans (memalignNeed alignment size) = 0)) ∨
    ∃ s' G' m, nmalloc s ans (memalignRequest alignment size) = .ok (s', m + 16) ∧ m ≠ 0 ∧
      memalignNeed alignment size < intMax - 65536 ∧
      m = place s ans (memalignNeed alignment size) ∧
      Served s G (memalignRequest alignment size + 16) s' G' m := by
  obtain ⟨hmax, -, -⟩ := memalignRequest_spec hal hsize
  obtain ⟨hk8, hk, hle, -⟩ := roundup_atLeastOne hmax
  by_cases hlt : memalignNeed alignment size < intMax - 65536
  swap
  · exact .inl ⟨if_neg hlt, .inl (by omega)⟩
  rw [nmalloc_eq hlt]
  have hlt' := hlt
  simp only [intMax] at hlt'
  rcases mallocBlock_spec h hk8 hk (by unfold memalignNeed at hlt'; omega) hf hr with
    hs | ⟨s', G', m, hs, hserve⟩
  · refine .inl ⟨?_, .inr (mallocBlock_place hs).symm⟩
    rw [hs]
    rfl
  · have hm0 := hserve.good.inv.legal.ne_zero hserve.asg.1
    refine .inr ⟨s', G', m, ?_, hm0, hlt, mallocBlock_place hs, hserve.good, hserve.asg,
      hserve.fresh, le_trans hle hserve.size, hserve.frame⟩
    rw [hs]
    simp only [bind, Except.bind, if_pos hm0, dataOffset]

variable (ans') in
theorem nmemalign_spec (h : Good s G) (hal : invalid alignment = 0) (hsize : size < 2147418111)
    (hf : Answers s ans (memalignNeed alignment size)) (hr : Roomy s ans)
    (hclear : Clears s ans alignment size) :
    nmemalign s ans ans' alignment size = .ok (s, 0) ∨
      ∃ s' G' m, nmemalign s ans ans' alignment size = .ok (s', m + 16) ∧ m ≠ 0 ∧
        (m + 16) % alignment = 0 ∧ Served s G (size + 16) s' G' m := by
  obtain ⟨hpos, hmax, hpow⟩ := invalid_eq_zero hal
  obtain ⟨-, hreq, hroom⟩ := memalignRequest_spec hal hsize
  obtain ⟨hk8, hk, hle, -⟩ := roundup_atLeastOne (n := size) (by omega)
  have hserved := memalign_nmalloc h hal hsize hf hr
  rcases hpow with hpow | ⟨h8, h16⟩
  · rw [nmemalign_small hal hsize (Nat.le_of_dvd (by omega) hpow)]
    rcases hserved with ⟨hs, -⟩ | ⟨s₁, G₁, m, hs, hm0, -, -, hserve⟩
    · exact .inl hs
    · have hm8 := hserve.good.inv.legal.chain.aligned m hserve.asg.1
      refine .inr ⟨s₁, G₁, m, hs, hm0, ?_, hserve.good, hserve.asg, hserve.fresh,
        le_trans (by omega) hserve.size, hserve.frame⟩
      exact Nat.mod_eq_zero_of_dvd (hpow.trans (by omega))
  rw [nmemalign_large hal hsize h8]
  rcases hserved with ⟨hs, -⟩ | ⟨s₁, G₁, m, hs, hm0, hlt, hplace, hserve⟩
  · left
    rw [hs]
    rfl
  right
  have hm8 := hserve.good.inv.legal.chain.aligned m hserve.asg.1
  have hsz := hserve.size
  have hmod := Nat.mod_lt (m + 16) hpos
  have hp0 : m + 16 ≠ 0 := by omega
  simp only [hs, bind, Except.bind, if_neg hp0]
  by_cases hmis : (m + 16) % alignment = 0
  · -- only the excess is given back
    obtain ⟨s', G', hs', hres⟩ := nrealloc_shrinks size ans' hserve.good hserve.asg
      (by omega) (by have := hroom h8; omega)
    refine ⟨s', G', m, by rw [if_pos hmis, hs'], hm0, hmis, hres.good, hres.asg, hserve.fresh,
      le_trans hle hres.size, fun x hx => ?_⟩
    obtain ⟨hx₁, hk₁⟩ := hserve.frame x hx
    obtain ⟨hx₂, hk₂⟩ := hres.frame x hx₁ (fun he => hserve.fresh (he ▸ hx))
    exact ⟨hx₂, hk₁.trans hk₂⟩
  · -- the lower part is listed, and the upper part cut to size
    have hfrag : (m + 16) % alignment + 24 ≤ alignment := by
      unfold Clears at hclear
      rw [← hplace] at hclear
      omega
    obtain ⟨k, hkdef⟩ : ∃ k, k = alignment - (m + 16) % alignment := ⟨_, rfl⟩
    have hmod8 : (m + 16) % alignment % 8 = 0 := by
      rw [Nat.mod_mod_of_dvd _ (show 8 ∣ alignment by omega)]
      omega
    have hneed := hroom h8
    obtain ⟨s₂, s₃, G₃, hs₂, hs₃, hgood₃, hua, hszu, hnew, hfr⟩ := split_nfree (k := k) hserve.good
      hserve.asg (by omega) (by omega) (by omega)
    obtain ⟨s', G', hs', hres⟩ := nrealloc_shrinks size ans' hgood₃ hua
      (by omega) (by omega)
    refine ⟨s', G', m + k, ?_, by omega, ?_, hres.good, hres.asg,
      fun hx => hnew (hserve.frame _ hx).1.1, le_trans hle hres.size, fun x hx => ?_⟩
    · rw [if_neg hmis, ← hkdef]
      simp only [dataOffset, Nat.add_sub_cancel, hs₂, hs₃, hs']
    · have hsum : m + k + 16 = (m + 16) - (m + 16) % alignment + alignment := by
        have := Nat.mod_le (m + 16) alignment
        omega
      rw [hsum, Nat.add_mod_right]
      exact Nat.sub_mod_eq_zero_of_mod_eq (Nat.mod_mod _ _).symm
    · obtain ⟨hx₁, hk₁⟩ := hserve.frame x hx
      obtain ⟨hx₂, hk₂⟩ := hfr x hx₁ (fun he => hserve.fresh (he ▸ hx))
      obtain ⟨hx₃, hk₃⟩ := hres.frame x hx₂ (fun he => hnew (he ▸ hx₁.1))
      exact ⟨hx₃, (hk₁.trans hk₂).trans hk₃⟩

theorem nmemalign_short (h : Good s G) (hal : invalid alignment = 0) (hsize : size < 2147418111)
    (hf : Answers s ans (memalignNeed alignment size)) (hr : Roomy s ans)
    (hclear : ¬ Clears s ans alignment size)
    (ho : nmemalign s ans ans' alignment size = .ok (s', m)) :
    ∃ k, k < 24 ∧ .split k ∈ s'.trace := by
  unfold Clears at hclear
  push Not at hclear
  obtain ⟨h8, hlt, hp0, hmis, hfrag⟩ := hclear
  rw [nmemalign_large hal hsize h8] at ho
  rcases memalign_nmalloc h hal hsize hf hr with ⟨-, hs⟩ | ⟨s₁, G₁, n, hs, hn0, -, hplace, -⟩
  · omega
  rw [hs] at ho
  rw [← hplace] at hmis hfrag
  have hne : n + 16 ≠ 0 := by omega
  obtain ⟨⟨t, minit⟩, ht, ho⟩ := Runs.bind_ok ho
  obtain ⟨rfl, rfl⟩ := Prod.mk.inj (Except.ok.inj ht)
  dsimp only at ho
  rw [if_neg hne, if_neg hmis] at ho
  obtain ⟨⟨u, a, b⟩, hu, ho⟩ := Runs.bind_ok ho
  obtain ⟨v, hv, ho⟩ := Runs.bind_ok ho
  obtain ⟨-, hmem, -⟩ := nmallocSplit_logs hu
  refine ⟨_, ?_, nrealloc_logs ?_ ho _ (nfree_logs hv _ hmem)⟩
  · omega
  · simp only [dataOffset]
    omega

inductive Request where
  | call (c : Call)
  | memalign (alignment size : ℕ)
  deriving DecidableEq, Repr

/-- One request, with the answers of sbrk to the first and the second call that
may ask for memory. -/
def Run.request (r : Run) (c : Request × Option ℕ × Option ℕ) : Except Heap Run :=
  match c.1 with
  | .call c' => r.step (c', c.2.1)
  | .memalign alignment size => do
      let (s, p) ← nmemalign r.heap c.2.1 c.2.2 alignment size
      .ok ⟨s, if p = 0 then r.live else (p, size) :: r.live⟩

def AllowedRequest (r : Run) (c : Request × Option ℕ × Option ℕ) : Prop :=
  match c.1 with
  | .call c' => Allowed r (c', c.2.1)
  | .memalign alignment size =>
      invalid alignment = 0 ∧ size < intMax - 65536 ∧
        Answers r.heap c.2.1 (memalignNeed alignment size)

def TameRequest (r : Run) (c : Request × Option ℕ × Option ℕ) : Prop :=
  match c.1 with
  | .call c' => Tame r (c', c.2.1)
  | .memalign alignment size => Roomy r.heap c.2.1 ∧ Clears r.heap c.2.1 alignment size

instance (s : Heap) (ans : Option ℕ) (alignment size : ℕ) :
    Decidable (Clears s ans alignment size) :=
  inferInstanceAs (Decidable (_ ∨ _ ∨ _ ∨ _ ∨ _))

instance (r : Run) : ∀ c, Decidable (AllowedRequest r c)
  | (.call _, _, _) => inferInstanceAs (Decidable (Allowed _ _))
  | (.memalign _ _, _, _) => inferInstanceAs (Decidable (_ ∧ _ ∧ Answers _ _ _))

instance (r : Run) : ∀ c, Decidable (TameRequest r c)
  | (.call _, _, _) => inferInstanceAs (Decidable (Tame _ _))
  | (.memalign _ _, _, _) => inferInstanceAs (Decidable (Roomy _ _ ∧ Clears _ _ _ _))

variable {r : Run}

variable (ans') in
/-- A well placed aligned block joins the live blocks. -/
theorem Run.Inv.memalign (h : r.Inv G) (hal : invalid alignment = 0) (hsize : size < 2147418111)
    (hf : Answers r.heap ans (memalignNeed alignment size)) (hr : Roomy r.heap ans)
    (hclear : Clears r.heap ans alignment size) :
    ∃ s' G' p, nmemalign r.heap ans ans' alignment size = .ok (s', p) ∧
      (p ≠ 0 → 16 ≤ p ∧ p % alignment = 0 ∧ size + 16 ≤ s'.get .sz (p - 16)) ∧
      (⟨s', if p = 0 then r.live else (p, size) :: r.live⟩ : Run).Inv G' := by
  rcases nmemalign_spec ans' h.good hal hsize hf hr hclear with
    hs | ⟨s', G', m, hs, hm0, hmod, hserve⟩
  · exact ⟨r.heap, G, 0, hs, fun h0 => absurd rfl h0, h⟩
  · refine ⟨s', G', m + 16, hs, fun _ => ⟨by omega, hmod, ?_⟩, ?_⟩
    · rw [Nat.add_sub_cancel]
      exact hserve.size
    · rw [if_neg (by omega)]
      exact h.served hserve le_rfl

theorem Run.Inv.request (h : r.Inv G) {c : Request × Option ℕ × Option ℕ}
    (hc : AllowedRequest r c) (hr : TameRequest r c) :
    ∃ r' G', r.request c = .ok r' ∧ r'.Inv G' := by
  obtain ⟨c, ans, ans'⟩ := c
  cases c with
  | call c => exact h.step hc hr
  | memalign alignment size =>
      obtain ⟨hal, hsize, hf⟩ := hc
      obtain ⟨s', G', p, hs, -, hinv⟩ := h.memalign ans' hal hsize hf hr.1 hr.2
      exact ⟨_, G', by simp only [Run.request, hs, bind, Except.bind], hinv⟩

/-- The outcome is NULL or an aligned pointer to enough bytes, the chains and
the free lists are in order, and every part that was cut off has 24 bytes. -/
def AlignsWell (r : Run) (alignment size : ℕ) (o : Except Heap (Heap × ℕ)) : Prop :=
  ∃ s' p, o = .ok (s', p) ∧
    (p ≠ 0 → 16 ≤ p ∧ p % alignment = 0 ∧ size + 16 ≤ s'.get .sz (p - 16)) ∧
    ChainsInOrder (.ok ⟨s', if p = 0 then r.live else (p, size) :: r.live⟩) ∧
    ListsInOrder (.ok ⟨s', if p = 0 then r.live else (p, size) :: r.live⟩) ∧
    ∀ k, .split k ∈ s'.trace → minSave ≤ k

theorem run_alignsWell (mem : Mem) (cs : List (Request × Option ℕ × Option ℕ))
    (hc : Runs.Along Run.request AllowedRequest (Run.init mem) cs)
    (hr : Runs.Along Run.request TameRequest (Run.init mem) cs) (r : Run)
    (hexec : Runs.exec Run.request (Run.init mem) cs = .ok r) (ans ans' : Option ℕ)
    (alignment size : ℕ) (hc' : AllowedRequest r (.memalign alignment size, ans, ans'))
    (hr' : Roomy r.heap ans) :
    AlignsWell r alignment size (nmemalign r.heap ans ans' alignment size) ↔
      Clears r.heap ans alignment size := by
  obtain ⟨r', hexec', G, hG⟩ := Runs.exec_invariant (J := fun r : Run => ∃ G, r.Inv G)
    (fun r c ⟨G, hG⟩ h₁ h₂ =>
      let ⟨r', G', hr', hG'⟩ := hG.request h₁ h₂
      ⟨r', hr', G', hG'⟩)
    ⟨_, Run.Inv.init mem⟩ hc hr
  rw [hexec] at hexec'
  obtain rfl := Except.ok.inj hexec'
  obtain ⟨hal, hsize, hf⟩ := hc'
  constructor
  · rintro ⟨s', p, ho, -, -, -, hcut⟩
    by_contra hclear
    obtain ⟨k, hk, hmem⟩ := nmemalign_short hG.good hal hsize hf hr' hclear ho
    have := hcut k hmem
    simp only [minSave] at this
    omega
  · intro hclear
    obtain ⟨s', G', p, ho, hp, hinv⟩ := hG.memalign ans' hal hsize hf hr' hclear
    exact ⟨s', p, ho, hp, hinv.chainsInOrder, hinv.listsInOrder,
      fun k hk => hinv.good.inv.clean _ hk⟩

end

/-- The list headers at address 4096, for the runs on fixed inputs. -/
local instance sampleHeaders : Image := ⟨4096, sampleStart_pos, sampleStart_fits⟩

theorem run_alignsWell_page :
    AlignsWell (endOf (Runs.exec Run.request (Run.init fun _ => 0)
      [(.call (.malloc 8), some 65536, none)])) 512 40
      (nmemalign (endOf (Runs.exec Run.request (Run.init fun _ => 0)
        [(.call (.malloc 8), some 65536, none)])).heap none none 512 40) :=
  (run_alignsWell (fun _ => 0) [(.call (.malloc 8), some 65536, none)] (by decide +kernel)
    (by decide +kernel) _ (by rfl) none none 512 40 (by decide +kernel) (by decide +kernel)).mpr
    (by decide +kernel)

/-- After `malloc(8)` the next block starts eight bytes below a multiple of 16. -/
theorem memalign_sixteen_short :
    AllowedRequest (endOf (Runs.exec Run.request (Run.init fun _ => 0)
        [(.call (.malloc 8), some 65536, none)])) (.memalign 16 8, none, none) ∧
      ¬ AlignsWell (endOf (Runs.exec Run.request (Run.init fun _ => 0)
        [(.call (.malloc 8), some 65536, none)])) 16 8
        (nmemalign (endOf (Runs.exec Run.request (Run.init fun _ => 0)
          [(.call (.malloc 8), some 65536, none)])).heap none none 16 8) := by
  refine ⟨by decide +kernel, ?_⟩
  have hcut : ∀ o, nmemalign (endOf (Runs.exec Run.request (Run.init fun _ => 0)
      [(.call (.malloc 8), some 65536, none)])).heap none none 16 8 = .ok o →
      .split 8 ∈ o.1.trace := by
    intro o ho
    have hrun : ((nmemalign (endOf (Runs.exec Run.request (Run.init fun _ => 0)
        [(.call (.malloc 8), some 65536, none)])).heap none none 16 8).toOption.all fun o =>
          decide (.split 8 ∈ o.1.trace)) = true := by
      decide +kernel
    rw [ho] at hrun
    simpa [Except.toOption] using hrun
  rintro ⟨s', p, ho, -, -, -, hk⟩
  exact absurd (hk 8 (hcut _ ho)) (by decide)

end DjgppLibc.NewMalloc
