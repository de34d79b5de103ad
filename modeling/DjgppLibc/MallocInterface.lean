import DjgppLibc.MallocSources

/-!
# The interface routines keep the invariant

`Good` is the invariant between calls. Each of `nmalloc`, `nfree`, `nrealloc`
and `ncalloc` leads from a good heap to a good heap, provided the size does not
wrap in `roundup`, an answer of sbrk is fresh, and an end block that has to be
retired has room for its list links. A refused request leaves the heap itself
unchanged, not merely its layout.
-/
namespace DjgppLibc.NewMalloc
open ByteMemory LinkedLists

variable [Image] {s s' s'' s₁ : Heap} {G G' G'' G₁ : Layout} {M a b k m n x szneed : ℕ}
  {ans : Option ℕ}

structure Good (s : Heap) (G : Layout) : Prop where
  inv : Inv s G 0
  last : s.lastsbrk = G.last
  empty : G.last = 0 → s.grants = []

theorem Moves.good {K : Set ℕ} (h : Moves s G s' G' 0 K) (hG : Good s G) : Good s' G' :=
  ⟨h.inv, h.last, fun h0 => h.grants.trans (hG.empty (by
    by_contra hne
    exact h.alive hne h0))⟩

theorem Grown.good (h : Grown s G szneed s' G') : Good s' G' :=
  ⟨h.inv, h.last, fun h0 => absurd h0 h.last_ne⟩

theorem Good.last_ne (h : Good s G) (hm : m ∈ G.blocks) : G.last ≠ 0 := by
  intro h0
  obtain ⟨g, hg, -⟩ := h.inv.legal.chain.home m hm
  rw [h.empty h0] at hg
  simp [groupsOf] at hg

theorem Inv.write {e : Event} (h : Inv s G M) (mem : Mem)
    (hb : ∀ y ∈ G.blocks, ∀ i, y ≤ i → i < y + 16 → mem i = s.mem i)
    (hp : ∀ y, G.Listed y → ∀ i, y + 16 ≤ i → i < y + 20 → mem i = s.mem i) (he : e.Ok) :
    Inv ({ s with mem := mem }.log e) G M := by
  refine Inv.log ⟨?_, h.clean, h.valid⟩ he
  refine h.legal.congr ?_ ?_ (fun _ _ => rfl)
  · intro f hf y hy
    have := Field.offset_le_of_ne hf
    exact get_congr (s := s) (t := { s with mem := mem })
      fun i h₁ h₂ => hb y hy i (by omega) (by omega)
  · intro y hy
    exact get_congr (s := s) (t := { s with mem := mem }) fun i h₁ h₂ => hp y hy i h₁ h₂

theorem Inv.write_data {e : Event} (h : Inv s G M) (mem : Mem) (hx : x ∈ G.asg)
    (hout : ∀ i, i < x + 16 ∨ x + s.get .sz x ≤ i → mem i = s.mem i) (he : e.Ok) :
    Inv ({ s with mem := mem }.log e) G M ∧
      (∀ f, f ≠ .prevfree → ∀ y ∈ G.blocks, ({ s with mem := mem }.log e).get f y = s.get f y) ∧
      ∀ y ∈ G.asg, y ≠ x → Keep s ({ s with mem := mem }.log e) y := by
  have hc := h.legal.chain
  have hhdr : ∀ y ∈ G.blocks, ∀ i, y ≤ i → i < y + 16 → mem i = s.mem i := by
    intro y hy i h₁ h₂
    apply hout
    have hbig := hc.big y hy
    rcases Nat.lt_trichotomy y x with hlt | rfl | hgt
    · have := hc.spaced y hy x hx.1 hlt
      omega
    · omega
    · have := hc.spaced x hx.1 y hy hgt
      omega
  have hother : ∀ y ∈ G.blocks, y ≠ x → ∀ i, y ≤ i → i < y + s.get .sz y → mem i = s.mem i := by
    intro y hy hyx i h₁ h₂
    apply hout
    rcases Nat.lt_or_ge y x with hlt | hge
    · have := hc.spaced y hy x hx.1 hlt
      omega
    · have := hc.spaced x hx.1 y hy (by omega)
      omega
  have hget : ∀ f, f ≠ .prevfree → ∀ y ∈ G.blocks,
      ({ s with mem := mem }.log e).get f y = s.get f y := by
    intro f hf y hy
    have := Field.offset_le_of_ne hf
    exact get_congr (s := s) (t := { s with mem := mem })
      fun i h₁ h₂ => hhdr y hy i (by omega) (by omega)
  refine ⟨h.write mem hhdr ?_ he, hget, ?_⟩
  · intro y hy i h₁ h₂
    have h24 := h.legal.large_listed hy
    exact hother y (h.legal.listed_mem hy) (fun heq => hx.2 (.inr (heq ▸ hy))) i (by omega)
      (by omega)
  · intro y hy hyx
    exact ⟨hget .sz (by decide) y hy.1, fun i h₁ h₂ => hother y hy.1 hyx i (by omega) h₂⟩

omit [Image] in
theorem roundup_spec (h : n ≤ 4294967272) (h0 : 0 < n) :
    roundup n % 8 = 0 ∧ 24 ≤ roundup n ∧ n + 16 ≤ roundup n ∧ roundup n < 4294967296 := by
  simp only [roundup, u32, alignMask, dataOffset]
  omega

def atLeastOne (size : ℕ) : ℕ := if size = 0 then 1 else size

omit [Image] in
theorem atLeastOne_spec (h : n ≤ 4294967272) :
    0 < atLeastOne n ∧ n ≤ atLeastOne n ∧ atLeastOne n ≤ 4294967272 := by
  unfold atLeastOne
  split_ifs <;> omega

omit [Image] in
theorem roundup_atLeastOne (h : n ≤ 4294967272) :
    roundup (atLeastOne n) % 8 = 0 ∧ 24 ≤ roundup (atLeastOne n) ∧
      n + 16 ≤ roundup (atLeastOne n) ∧ roundup (atLeastOne n) < 4294967296 := by
  obtain ⟨h₁, h₂, h₃⟩ := atLeastOne_spec h
  obtain ⟨h₄, h₅, h₆, h₇⟩ := roundup_spec h₃ h₁
  exact ⟨h₄, h₅, by omega, h₇⟩

/-- If the region does not extend the end block, that block can be listed. -/
def Roomy (s : Heap) (ans : Option ℕ) : Prop :=
  ∀ a ∈ ans, s.lastsbrk ≠ 0 → a ≠ expected s → 24 ≤ s.get .sz s.lastsbrk

/-- The answer to a request of `extendsbrk szneed` is fresh. -/
def Answers (s : Heap) (ans : Option ℕ) (szneed : ℕ) : Prop :=
  ∀ a ∈ ans, Fresh s.grants a (sbrkSize s szneed)

omit [Image] in
instance (s : Heap) (ans : Option ℕ) : Decidable (Roomy s ans) :=
  inferInstanceAs (Decidable (∀ a ∈ ans, _ → _ → _))

instance (s : Heap) (ans : Option ℕ) (szneed : ℕ) : Decidable (Answers s ans szneed) :=
  inferInstanceAs (Decidable (∀ a ∈ ans, Fresh _ _ _))

theorem extendsbrk_grown (h : Good s G) (hf : Answers s ans szneed) (hr : Roomy s ans)
    (hmax : szneed < 2147483648) :
    (ans = none ∧ extendsbrk s ans szneed = .ok (s, 0)) ∨
      ∃ s' G', extendsbrk s ans szneed = .ok (s', G'.last) ∧ Grown s G szneed s' G' := by
  cases ans with
  | none => exact .inl ⟨rfl, rfl⟩
  | some a =>
      right
      by_cases ha : a = expected s
      · obtain ⟨s', hs', hg⟩ := extendsbrk_extends h.inv h.last (hf a rfl) hmax ha
        exact ⟨s', G, hs', hg⟩
      · exact extendsbrk_opens h.inv h.last h.empty (hf a rfl) hmax
          (fun h0 => h.last ▸ hr a rfl (h.last.symm ▸ h0) ha) ha

/-- An allocation: the block is newly assigned and large enough, and every
assigned block is kept. -/
structure Served (s : Heap) (G : Layout) (szneed : ℕ) (s' : Heap) (G' : Layout) (m : ℕ) :
    Prop where
  good : Good s' G'
  asg : m ∈ G'.asg
  fresh : m ∉ G.asg
  size : szneed ≤ s'.get .sz m
  frame : ∀ x ∈ G.asg, x ∈ G'.asg ∧ Keep s s' x

theorem takefree_served (h : Good s G) (hk8 : szneed % 8 = 0) (hk : 24 ≤ szneed)
    (hmax : szneed < 2147483648) (hb : searchfree s szneed ≠ 0) :
    ∃ s' G' m, takefree s (searchfree s szneed) szneed = .ok (s', m) ∧
      Served s G szneed s' G' m := by
  obtain ⟨-, hmem, hle⟩ := searchfree_spec h.inv (by omega) hb
  obtain ⟨s', G', hs', hmv, hma, hsz⟩ := takefree_moves h.inv h.last hmem hk8 hk hle hmax
  exact ⟨s', G', _, hs', hmv.good h, hma, fun hx => hx.2 (.inr ⟨_, hmem⟩), hsz,
    fun x hx => hmv.frame x trivial hx⟩

theorem splitLastsbrk_served (h : Good s G) (hl0 : G.last ≠ 0) (hk8 : szneed % 8 = 0)
    (hk : 24 ≤ szneed) (hle : szneed + 16 ≤ s.get .sz G.last) :
    ∃ s' G', splitLastsbrk s szneed = .ok (s', G.last) ∧ Served s G szneed s' G' G.last := by
  obtain ⟨s', G', hs', hmv, hma, hsz⟩ := splitLastsbrk_moves h.inv h.last hl0 hk8 hk hle
  exact ⟨s', G', hs', hmv.good h, hma, fun hx => hx.2 (.inl rfl), le_of_eq hsz.symm,
    fun x hx => hmv.frame x trivial hx⟩

theorem Served.after_grown (hg : Grown s G szneed s₁ G₁) (h : Served s₁ G₁ szneed s' G' m) :
    Served s G szneed s' G' m :=
  ⟨h.good, h.asg, fun hx => h.fresh (hg.frame m hx).1, h.size, fun x hx =>
    have h₁ := hg.frame x hx
    have h₂ := h.frame x h₁.1
    ⟨h₂.1, h₁.2.trans h₂.2⟩⟩

theorem mallocBlock_spec (h : Good s G) (hk8 : szneed % 8 = 0) (hk : 24 ≤ szneed)
    (hmax : szneed < 2147483648) (hf : Answers s ans szneed) (hr : Roomy s ans) :
    mallocBlock s ans szneed = .ok (s, 0) ∨
      ∃ s' G' m, mallocBlock s ans szneed = .ok (s', m) ∧ Served s G szneed s' G' m := by
  unfold mallocBlock
  split_ifs with hb hlast
  · right
    exact takefree_served h hk8 hk hmax hb
  · right
    have hu : u32 (szneed + dataOffset) = szneed + 16 := by
      simp only [u32, dataOffset]
      omega
    obtain ⟨s', G', hs', hserve⟩ := splitLastsbrk_served h (h.last ▸ hlast.1) hk8 hk
      (by rw [← h.last, ← hu]; exact hlast.2)
    exact ⟨s', G', _, hs', hserve⟩
  · rcases extendsbrk_grown h hf hr hmax with ⟨-, hs₁⟩ | ⟨s₁, G₁, hs₁, hgrown⟩
    · left
      simp only [hs₁, bind, Except.bind, if_true]
    · right
      have hroom := hgrown.room
      obtain ⟨s', G', hs', hserve⟩ := splitLastsbrk_served hgrown.good hgrown.last_ne hk8 hk
        (by omega)
      have hroom' : ¬ s₁.get .sz G₁.last < u32 (szneed + minSave) := by
        simp only [u32, minSave]
        omega
      refine ⟨s', G', _, ?_, Served.after_grown hgrown hserve⟩
      simp only [hs₁, bind, Except.bind, if_neg hgrown.last_ne, if_neg hroom', hs']

theorem nmalloc_eq {size : ℕ} (h : roundup (atLeastOne size) < intMax - 65536) :
    nmalloc s ans size = (do
      let (s, m) ← mallocBlock s ans (roundup (atLeastOne size))
      .ok (s, if m ≠ 0 then m + dataOffset else 0)) := if_pos h

theorem nmalloc_spec (h : Good s G) {size : ℕ} (hsize : size ≤ 4294967272)
    (hf : Answers s ans (roundup (atLeastOne size))) (hr : Roomy s ans) :
    nmalloc s ans size = .ok (s, 0) ∨
      ∃ s' G' m, nmalloc s ans size = .ok (s', m + 16) ∧ m ≠ 0 ∧
        Served s G (roundup (atLeastOne size)) s' G' m := by
  obtain ⟨hk8, hk, -, -⟩ := roundup_atLeastOne hsize
  by_cases hmax : roundup (atLeastOne size) < intMax - 65536
  · rw [nmalloc_eq hmax]
    simp only [intMax] at hmax
    rcases mallocBlock_spec h hk8 hk (by omega) hf hr with hs | ⟨s', G', m, hs, hserve⟩
    · left
      rw [hs]
      rfl
    · right
      have hm0 := hserve.good.inv.legal.ne_zero hserve.asg.1
      refine ⟨s', G', m, ?_, hm0, hserve⟩
      rw [hs]
      simp only [bind, Except.bind, if_pos hm0, dataOffset]
  · left
    exact if_neg hmax

/-- Neither test that guards `nfree` and `nrealloc` rejects an assigned block. -/
theorem Good.accepts (h : Good s G) (hm : m ∈ G.asg) : (isFree s m || fouled s m) = false := by
  have hnf := h.inv.nextfree_asg hm
  have hl : s.lastsbrk ≠ 0 := h.last.symm ▸ h.last_ne hm.1
  simp [isFree, fouled, hnf, hl]

theorem nfree_spec (h : Good s G) (hm : m ∈ G.asg) :
    ∃ s' G', nfree s (m + 16) = .ok s' ∧ Good s' G' ∧
      ∀ x ∈ G.asg, x ≠ m → x ∈ G'.asg ∧ Keep s s' x := by
  obtain ⟨s', G', hs', hmv⟩ := dofree_moves h.inv h.last hm
  refine ⟨s', G', ?_, hmv.good h, fun x hx hxm => hmv.frame x hxm hx⟩
  unfold nfree
  simp only [dataOffset, Nat.add_sub_cancel, h.accepts hm, Bool.false_eq_true, if_false]
  rw [if_pos (by omega)]
  exact hs'

omit [Image] in
theorem ncalloc_accepts {n size : ℕ} (h : n = 0 ∨ (4294967296 - 1) / n > size) :
    u32 (n * size) = n * size := by
  apply Nat.mod_eq_of_lt
  rcases h with rfl | h
  · simp
  · have h₁ : n * size ≤ n * ((4294967296 - 1) / n) := Nat.mul_le_mul_left _ (by omega)
    have h₂ := Nat.mul_div_le (4294967296 - 1) n
    omega

theorem ncalloc_spec (h : Good s G) {n size : ℕ} (hsize : n * size ≤ 4294967272)
    (hf : Answers s ans (roundup (atLeastOne (n * size)))) (hr : Roomy s ans) :
    ncalloc s ans n size = .ok (s, 0) ∨
      ∃ s' G' m, ncalloc s ans n size = .ok (s', m + 16) ∧ m ≠ 0 ∧
        Served s G (roundup (atLeastOne (n * size))) s' G' m ∧
        ∀ i, i < n * size → s'.mem (m + 16 + i) = 0 := by
  unfold ncalloc
  by_cases hacc : n = 0 ∨ (4294967296 - 1) / n > size
  swap
  · left
    rw [if_neg hacc]
  rw [if_pos hacc, ncalloc_accepts hacc]
  rcases nmalloc_spec h hsize hf hr with hs | ⟨s₁, G₁, m, hs, hm0, hserve⟩
  · left
    simp only [hs, bind, Except.bind]
    rfl
  · right
    obtain ⟨-, -, hle, -⟩ := roundup_atLeastOne hsize
    have hsz := hserve.size
    have hp : m + 16 ≠ 0 := by omega
    have hout : ∀ i, i < m + 16 ∨ m + s₁.get .sz m ≤ i →
        fill s₁.mem (m + 16) (n * size) 0 i = s₁.mem i :=
      fun i hi => fill_out _ _ _ _ (by omega)
    obtain ⟨hinv, hget, hkeep⟩ := hserve.good.inv.write_data _
      (e := .write m 16 (n * size) (s₁.get .sz m)) hserve.asg hout
      (by simp only [Event.Ok]; omega)
    refine ⟨_, G₁, m, by
      simp only [hs, bind, Except.bind, ne_eq, hp, not_false_eq_true, if_true, dataOffset,
        Nat.add_sub_cancel],
      hm0, ⟨⟨hinv, hserve.good.last, hserve.good.empty⟩, hserve.asg, hserve.fresh, ?_, ?_⟩, ?_⟩
    · exact le_of_le_of_eq hsz (hget .sz (by decide) m hserve.asg.1).symm
    · intro x hx
      obtain ⟨hx₁, hk⟩ := hserve.frame x hx
      have hxm : x ≠ m := fun he => hserve.fresh (he ▸ hx)
      obtain ⟨hk₁, hk₂⟩ := hkeep x hx₁ hxm
      exact ⟨hx₁, hk.trans ⟨hk₁, hk₂⟩⟩
    · intro i hi
      change fill s₁.mem (m + 16) (n * size) 0 (m + 16 + i) = 0
      rw [fill, if_pos (by omega)]

end DjgppLibc.NewMalloc
