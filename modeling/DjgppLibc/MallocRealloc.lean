import DjgppLibc.MallocInterface

/-!
# Reallocation

The strategies of `nrealloc` are treated one by one: cut in place, absorb a
listed upper neighbour, absorb the end block, slide down into a listed lower
neighbour, and copy to a block found elsewhere. Each of them leads to a good
heap in which the data survives up to the smaller of the two sizes. The slide
is an ascending move over itself, so its exactness rests on the direction.
-/
namespace DjgppLibc.NewMalloc
open ByteMemory LinkedLists

variable [Image] {s s' s₁ : Heap} {G G' G₁ : Layout} {M a b k m m2 n x szneed : ℕ}
  {ans : Option ℕ}

/-- A reallocation of `m`: the block `m'` is assigned and large enough, holds the
data of `m` up to the smaller size, and the other assigned blocks are kept. -/
structure Resized (s : Heap) (G : Layout) (m szneed : ℕ) (s' : Heap) (G' : Layout) (m' : ℕ) :
    Prop where
  good : Good s' G'
  asg : m' ∈ G'.asg
  fresh : m' = m ∨ m' ∉ G.asg
  size : szneed ≤ s'.get .sz m'
  data : ∀ i, 16 + i < s.get .sz m → 16 + i < szneed → s'.mem (m' + 16 + i) = s.mem (m + 16 + i)
  frame : ∀ x ∈ G.asg, x ≠ m → x ∈ G'.asg ∧ Keep s s' x

theorem Resized.after_grown (hg : Grown s G szneed s₁ G₁) {m' : ℕ} (hm : m ∈ G.asg)
    (h : Resized s₁ G₁ m szneed s' G' m') : Resized s G m szneed s' G' m' := by
  obtain ⟨-, hsz, hdata⟩ := hg.frame m hm
  refine ⟨h.good, h.asg, ?_, h.size, ?_, ?_⟩
  · exact h.fresh.imp_right fun hn hx => hn (hg.frame m' hx).1
  · intro i h₁ h₂
    rw [h.data i (hsz.symm ▸ h₁) h₂]
    exact hdata _ (by omega) (by omega)
  · intro x hx hxm
    obtain ⟨hx₁, hk₁⟩ := hg.frame x hx
    obtain ⟨hx₂, hk₂⟩ := h.frame x hx₁ hxm
    exact ⟨hx₂, hk₁.trans hk₂⟩

theorem trim_resized (h : Good s G) (hm : m ∈ G.asg) (hk8 : szneed % 8 = 0) (hk : 24 ≤ szneed)
    (hle : szneed ≤ s.get .sz m) :
    ∃ s' G', trim s m szneed = .ok (s', m) ∧ Resized s G m szneed s' G' m := by
  obtain ⟨s', G', hs', hmv, hma, hsz, hdata⟩ := trim_moves h.inv h.last hm hk8 hk hle
  exact ⟨s', G', hs', hmv.good h, hma, .inl rfl, hsz, fun i _ h₂ => hdata _ (by omega) (by omega),
    fun x hx hxm => hmv.frame x hxm hx⟩

theorem combinehi_resized (h : Good s G) (hm : m ∈ G.asg) (hnl : G.Listed (s.get .next m))
    (hk8 : szneed % 8 = 0) (hk : 24 ≤ szneed)
    (hle : szneed ≤ s.get .sz m + s.get .sz (s.get .next m)) :
    ∃ s₁ s' G', combinehi s m = .ok (s₁, m) ∧ trim s₁ m szneed = .ok (s', m) ∧
      Resized s G m szneed s' G' m := by
  obtain ⟨s₁, G₁, hs₁, hJ, hG₁⟩ := combinehi_listed h.inv h.last hm rfl hnl
  have hn0 := h.inv.legal.ne_zero (h.inv.legal.listed_mem hnl)
  have hm₁ := hJ.asg h.inv hm (Ne.symm (h.inv.next_mem hm.1 hn0).2.2.1)
  have hgood₁ : Good s₁ G₁ :=
    ⟨hJ.inv, by rw [hJ.lastsbrk, hG₁, h.last], fun h0 => hJ.grants.trans (h.empty (hG₁ ▸ h0))⟩
  obtain ⟨s', G', hs', hr⟩ := trim_resized hgood₁ hm₁ hk8 hk (hJ.sz.symm ▸ hle)
  refine ⟨s₁, s', G', hs₁, hs', hr.good, hr.asg, .inl rfl, hr.size, ?_, ?_⟩
  · intro i h₁ h₂
    rw [hr.data i (by rw [hJ.sz]; omega) h₂]
    exact hJ.data m hm _ (by omega) (by omega)
  · intro x hx hxm
    have hxn : x ≠ s.get .next m := fun he => hx.2 (.inr (he ▸ hnl))
    obtain ⟨hx₂, hk₂⟩ := hr.frame x (hJ.asg h.inv hx hxn) hxm
    exact ⟨hx₂, Keep.trans ⟨hJ.kept x hx.1 hxm, hJ.data x hx⟩ hk₂⟩

theorem growIntoLastsbrk_resized (h : Good s G) (hm : m ∈ G.asg) (hn : s.get .next m = G.last)
    (hk8 : szneed % 8 = 0) (hk : 24 ≤ szneed)
    (hle : szneed + 16 ≤ s.get .sz m + s.get .sz G.last) :
    ∃ s' G', growIntoLastsbrk s m szneed = .ok (s', m) ∧ Resized s G m szneed s' G' m := by
  have hl0 := h.last_ne hm.1
  obtain ⟨s₁, hs₁, hJ, -⟩ := combinehi_last h.inv h.last hm hn rfl hl0
  have hmL : m ≠ G.last := fun he => hm.2 (.inl he)
  have hm₁ := hJ.asg h.inv hm hmL
  obtain ⟨g, gs', hgs, hg₁, hg₂⟩ := h.inv.legal.below_last hm.1 hn hl0
  obtain ⟨s₂, hs₂, h₂, -, -, hsz, -, -, hma, hdata, hfr⟩ := nmallocSplit_cut hJ.inv hm₁.1
    (fun ho => hm₁.2 (.inr ho)) (hJ.inv.nextfree_asg hm₁) hk8 hk (l := m + szneed)
    (.inr ⟨rfl, .inr rfl, by rw [hJ.sz]; exact hle, by
      rw [hJ.next]
      exact (h.inv.legal.last hl0).2.1, g, gs', by rw [hJ.grants]; exact hgs, hg₁,
      by rw [hJ.sz]; exact hg₂⟩)
  refine ⟨s₂.setLastsbrk (m + szneed), _, ?_, ⟨⟨?_, h₂.clean, h₂.valid⟩, rfl, fun h0 => ?_⟩, hma,
    .inl rfl, le_of_eq hsz.symm, ?_, ?_⟩
  · unfold growIntoLastsbrk
    simp only [hs₁, hs₂, bind, Except.bind]
  · exact h₂.legal.congr (fun _ _ _ _ => rfl) (fun _ _ => rfl) (fun b hb => if_neg hb)
  · simp only [Layout.setLast] at h0
    omega
  · intro i h₁ h₃
    rw [← hJ.data m hm (m + 16 + i) (by omega) (by omega)]
    exact hdata _ (by omega) (by omega)
  · intro x hx hxm
    have hxl : x ≠ G.last := fun he => hx.2 (.inl he)
    obtain ⟨hx₂, hk₁, hk₂⟩ := hfr x (hJ.asg h.inv hx hxl) hxm
    exact ⟨hx₂, Keep.trans ⟨hJ.kept x hx.1 hxm, hJ.data x hx⟩ ⟨hk₁, hk₂⟩⟩

/-- The stores that join `b` to `a` in the order of `nrealloc`. -/
def slideJoin (s : Heap) (a b : ℕ) : Heap :=
  let s := s.set .sz a (u32 (s.get .sz a + s.get .sz b))
  let n := s.get .next b
  let s := s.set .next a n
  if n ≠ 0 then s.set .prev n a else s

theorem growIntoPrev_eq (s : Heap) (m szneed : ℕ) : growIntoPrev s m szneed =
    trim (moveData (slideJoin (extractfree s (s.get .prev m)) (s.get .prev m) m) (s.get .prev m) m)
      (s.get .prev m) szneed := rfl

theorem slideJoin_sim {V : View} {F : Fields} {H : ℕ → ℕ} {s₀ : Heap} (h : Sim V s₀ s F H)
    (hV : V.Proper) (ha : a ∈ V.blocks) (hb : b ∈ V.blocks)
    (hn : F .next b ≠ 0 → F .next b ∈ V.blocks) (hsz : ∀ a ∈ V.blocks, V.ext a ≤ F .sz a)
    (hlt : F .sz a + F .sz b < 4294967296) : Sim V s₀ (slideJoin s a b) (F.merge a b) H := by
  have hO := hV.ok
  have hc : ∀ {f x}, f ≠ .prevfree → x ∈ V.blocks → V.Cell f x :=
    fun hf hx => ⟨hx, fun he => absurd he hf⟩
  have hga := h.get _ _ (hc (f := .sz) (by decide) ha)
  have hgb := h.get _ _ (hc (f := .sz) (by decide) hb)
  unfold slideJoin
  simp only [hga, hgb, u32, Nat.mod_eq_of_lt hlt]
  have h₁ := h.put hO (hc (f := .sz) (by decide) ha) hlt (hsz a ha)
  have hgn := h₁.get _ _ (hc (f := .next) (by decide) hb)
  simp only [Fields.set_apply, reduceCtorEq, false_and, if_false] at hgn
  simp only [hgn]
  have hnlt : F .next b < 4294967296 := hgn ▸ get_lt _ _ _
  have h₂ := h₁.put hO (hc (f := .next) (by decide) ha) hnlt (by
    have := hsz a ha
    simp
    omega)
  have h₃ := h₂.put_if hO (f := .prev) (a := F .next b) (v := a) (F .next b ≠ 0) fun hne => by
    refine ⟨hc (by decide) (hn hne), hV.lt a ha, ?_⟩
    have h₄ := hsz _ (hn hne)
    have h₅ := hsz a ha
    by_cases he : F .next b = a <;> simp [he] at h₄ ⊢ <;> omega
  refine h₃.congr ?_ rfl
  intro f x hx
  have hx0 := hV.pos x hx.1
  by_cases h0 : F .next b = 0
  · cases f <;> simp [Fields.merge, h0, hx0]
  · cases f <;> simp [Fields.merge, h0]

theorem growIntoPrev_resized (h : Good s G) (hm : m ∈ G.asg) (hal : G.Listed (s.get .prev m))
    (hk8 : szneed % 8 = 0) (hk : 24 ≤ szneed)
    (hle : szneed ≤ s.get .sz m + s.get .sz (s.get .prev m)) :
    ∃ s' G', growIntoPrev s m szneed = .ok (s', s.get .prev m) ∧
      Resized s G m szneed s' G' (s.get .prev m) := by
  have hL := h.inv.legal
  obtain ⟨a, ha⟩ : ∃ a, a = s.get .prev m := ⟨_, rfl⟩
  have haB : a ∈ G.blocks := ha ▸ hL.listed_mem hal
  obtain ⟨-, hadj, hne, hnext⟩ := h.inv.prev_mem hm.1 (ha ▸ hL.ne_zero haB)
  rw [← ha] at hal hle hadj hne hnext ⊢
  have hF : ∀ f y, f ≠ .nextfree → f ≠ .prevfree → (Fields.unlink s.get a) f y = s.get f y := by
    intro f y h₁ h₂
    simp [Fields.unlink, h₁, h₂]
  have hmerge := hL.chain.merge_lt hL.ground haB hnext (hL.ne_zero hm.1)
  have hS := slideJoin_sim (a := a) (b := m) (h.inv.extract_sim hal) (hL.proper 0) haB hm.1
    (by
      rw [hF _ _ (by decide) (by decide)]
      exact fun h0 => (h.inv.next_mem hm.1 h0).1)
    (fun y _ => by rw [hF _ _ (by decide) (by decide)]; exact le_rfl)
    (by rw [hF _ _ (by decide) (by decide), hF _ _ (by decide) (by decide)]; omega)
  have hJ := h.inv.joined hal haB hnext (hL.ne_zero hm.1) (fun _ => rfl)
    (fun ho => absurd ho hm.2) hS
  obtain ⟨s₁, hs₁⟩ : ∃ s₁, s₁ = slideJoin (extractfree s a) a m := ⟨_, rfl⟩
  rw [← hs₁] at hJ
  obtain ⟨G₁, hG₁⟩ : ∃ G₁, G₁ = (G.unlist (size2bucket (s.get .sz a)) a).remove m := ⟨_, rfl⟩
  rw [← hG₁] at hJ
  have ha₁ : a ∈ G₁.asg :=
    ⟨hJ.blocks ▸ ⟨haB, hne⟩, fun ho => (hJ.open_of a (hL.ne_zero haB) ho).2.1 rfl⟩
  have hl₁ : s₁.lastsbrk = G₁.last := by
    rw [hJ.lastsbrk, hG₁]
    exact h.last
  have hszm : s₁.get .sz m = s.get .sz m := hJ.kept m hm.1 (Ne.symm hne)
  have hbig := hL.chain.big m hm.1
  have hbiga := hL.chain.big a haB
  have hn : sub32 (s₁.get .sz m) dataOffset = s.get .sz m - 16 := by
    rw [hszm]
    have := hL.chain.sz_lt hL.ground hm.1
    simp only [sub32, dataOffset]
    omega
  -- the move stays inside the joined block
  have hmove : moveData s₁ a m = { s₁ with
      mem := copyUp s₁.mem (a + 16) (m + 16) (s.get .sz m - 16) }.log
        (.write a 16 (s.get .sz m - 16) (s₁.get .sz a)) := by
    unfold moveData
    simp only [hn, if_pos (show a < m by omega)]
    rfl
  have hsza : s₁.get .sz a = s.get .sz a + s.get .sz m := hJ.sz
  obtain ⟨hinv₂, hget₂, hkeep₂⟩ := hJ.inv.write_data
    (copyUp s₁.mem (a + 16) (m + 16) (s.get .sz m - 16))
    (e := .write a 16 (s.get .sz m - 16) (s₁.get .sz a)) ha₁
    (fun i hi => copyUp_out _ _ _ _ (by omega)) (by simp only [Event.Ok]; omega)
  have hdata₂ : ∀ i, 16 + i < s.get .sz m →
      (moveData s₁ a m).mem (a + 16 + i) = s.mem (m + 16 + i) := by
    intro i hi
    rw [hmove, ← hJ.data m hm (m + 16 + i) (by omega) (by omega)]
    exact copyUp_apply _ _ _ _ (by omega) (by omega)
  rw [← hmove] at hinv₂ hget₂ hkeep₂
  have hgood₂ : Good (moveData s₁ a m) G₁ := by
    refine ⟨hinv₂, ?_, fun h0 => ?_⟩
    · rw [hmove]
      exact hl₁
    · rw [hmove]
      refine hJ.grants.trans (h.empty ?_)
      rw [hG₁] at h0
      exact h0
  obtain ⟨s', G', hs', hr⟩ := trim_resized hgood₂ ha₁ hk8 hk
    (by rw [hget₂ .sz (by decide) a ha₁.1, hsza]; omega)
  refine ⟨s', G', ?_, hr.good, hr.asg, .inr fun hx => hx.2 (.inr hal), hr.size, ?_, ?_⟩
  · rw [growIntoPrev_eq, ← ha, ← hs₁]
    exact hs'
  · intro i h₁ h₂
    rw [hr.data i (by rw [hget₂ .sz (by decide) a ha₁.1, hsza]; omega) h₂]
    exact hdata₂ i h₁
  · intro x hx hxm
    have hxa : x ≠ a := fun he => hx.2 (.inr (he ▸ hal))
    have hx₁ := hJ.asg h.inv hx hxm
    obtain ⟨hx₂, hk₂⟩ := hr.frame x hx₁ hxa
    exact ⟨hx₂, Keep.trans ⟨hJ.kept x hx.1 hxa, hJ.data x hx⟩ ((hkeep₂ x hx₁ hxa).trans hk₂)⟩

/-- Copy the data of `m` to the larger block `m2` and free `m`. -/
theorem copy_resized (h : Good s G) (hm : m ∈ G.asg) (hserve : Served s G szneed s₁ G₁ m2)
    (hle : s.get .sz m ≤ szneed) :
    ∃ s' G', dofree (copyData s₁ m2 m) m = .ok s' ∧ Resized s G m szneed s' G' m2 := by
  obtain ⟨hm₁, hsz, hdata⟩ := hserve.frame m hm
  have hne : m ≠ m2 := fun he => hserve.fresh (he ▸ hm)
  have hL := h.inv.legal
  have hL₁ := hserve.good.inv.legal
  have hbig := hL.chain.big m hm.1
  have hsize := hserve.size
  have hn : sub32 (s₁.get .sz m) dataOffset = s.get .sz m - 16 := by
    rw [hsz]
    have := hL.chain.sz_lt hL.ground hm.1
    simp only [sub32, dataOffset]
    omega
  have hcopy : copyData s₁ m2 m = { s₁ with
      mem := copyUp s₁.mem (m2 + 16) (m + 16) (s.get .sz m - 16) }.log
        (.write m2 16 (s.get .sz m - 16) (s₁.get .sz m2)) := by
    unfold copyData
    rw [hn]
    rfl
  obtain ⟨hinv₂, hget₂, hkeep₂⟩ := hserve.good.inv.write_data
    (copyUp s₁.mem (m2 + 16) (m + 16) (s.get .sz m - 16))
    (e := .write m2 16 (s.get .sz m - 16) (s₁.get .sz m2)) hserve.asg
    (fun i hi => copyUp_out _ _ _ _ (by omega)) (by simp only [Event.Ok]; omega)
  rw [← hcopy] at hinv₂ hget₂ hkeep₂
  -- the two blocks do not overlap
  have hfar : m2 + 16 ≤ m + 16 ∨ m + 16 + (s.get .sz m - 16) ≤ m2 + 16 := by
    rcases Nat.lt_or_ge m m2 with hlt | hge
    · have := hL₁.chain.spaced m hm₁.1 m2 hserve.asg.1 hlt
      omega
    · omega
  have hgood₂ : Good (copyData s₁ m2 m) G₁ :=
    ⟨hinv₂, by rw [hcopy]; exact hserve.good.last, by rw [hcopy]; exact hserve.good.empty⟩
  obtain ⟨s', G', hs', hmv⟩ := dofree_moves hinv₂ hgood₂.last hm₁
  obtain ⟨hm2, hk₁, hk₂⟩ := hmv.frame m2 (Ne.symm hne) hserve.asg
  have hsz₂ := hget₂ .sz (by decide) m2 hserve.asg.1
  refine ⟨s', G', hs', hmv.good hgood₂, hm2, .inr hserve.fresh, ?_, ?_, ?_⟩
  · rw [hk₁, hsz₂]
    exact hsize
  · intro i h₁ h₂
    rw [hk₂ _ (by omega) (by rw [hsz₂]; omega), hcopy, ← hdata (m + 16 + i) (by omega) (by omega)]
    exact copyUp_apply _ _ _ _ hfar (by omega)
  · intro x hx hxm
    obtain ⟨hx₁, hkx₁⟩ := hserve.frame x hx
    have hx2 : x ≠ m2 := fun he => hserve.fresh (he ▸ hx)
    obtain ⟨hx₂, hkx₂⟩ := hmv.frame x hxm hx₁
    exact ⟨hx₂, hkx₁.trans ((hkeep₂ x hx₁ hx2).trans hkx₂)⟩

theorem mv2lastsbrk_resized (h : Good s G) (hm : m ∈ G.asg) (hk8 : szneed % 8 = 0)
    (hk : 24 ≤ szneed) (hle : szneed + 16 ≤ s.get .sz G.last) (hgrow : s.get .sz m ≤ szneed) :
    ∃ s' G' m', mv2lastsbrk s m szneed = .ok (s', m') ∧ Resized s G m szneed s' G' m' := by
  obtain ⟨s₁, G₁, hs₁, hserve⟩ := splitLastsbrk_served h (h.last_ne hm.1) hk8 hk hle
  obtain ⟨s', G', hs', hr⟩ := copy_resized h hm hserve hgrow
  refine ⟨s', G', _, ?_, hr⟩
  unfold mv2lastsbrk
  simp only [hs₁, hs', bind, Except.bind]

theorem reallocBlock_spec (h : Good s G) (hm : m ∈ G.asg) (hk8 : szneed % 8 = 0)
    (hk : 24 ≤ szneed) (hf : Answers s ans szneed) (hr : Roomy s ans) :
    reallocBlock s ans m szneed = .ok (s, 0) ∨
      ∃ s' G' m', reallocBlock s ans m szneed = .ok (s', m') ∧ Resized s G m szneed s' G' m' := by
  have hL := h.inv.legal
  have hl0 := h.last_ne hm.1
  have hszlt : ∀ y ∈ G.blocks, s.get .sz y < 2147483648 := fun y hy => hL.chain.sz_lt hL.ground hy
  unfold reallocBlock
  by_cases hshrink : szneed ≤ s.get .sz m
  · -- shrink in place
    right
    rw [if_pos hshrink]
    obtain ⟨s', G', hs', hres⟩ := trim_resized h hm hk8 hk hshrink
    exact ⟨s', G', m, hs', hres⟩
  rw [if_neg hshrink]
  by_cases hover : szneed > intMax - 65536
  · left
    rw [if_pos hover]
  rw [if_neg hover]
  simp only [intMax] at hover
  have hu : u32 (szneed + minSave) = szneed + 24 := by
    simp only [u32, minSave]
    omega
  have hsum : ∀ y ∈ G.blocks, u32 (s.get .sz m + s.get .sz y) = s.get .sz m + s.get .sz y := by
    intro y hy
    have h₁ := hszlt m hm.1
    have h₂ := hszlt y hy
    exact Nat.mod_eq_of_lt (by omega)
  have hnext := h.inv.isFree_iff (x := s.get .next m)
    fun h0 => ⟨(h.inv.next_mem hm.1 h0).1, hL.ne_zero (h.inv.next_mem hm.1 h0).1⟩
  have hprev := h.inv.isFree_iff (x := s.get .prev m)
    fun h0 => ⟨(h.inv.prev_mem hm.1 h0).1, hL.ne_zero (h.inv.prev_mem hm.1 h0).1⟩
  split_ifs with hhi hlast hlo hb hcopy
  · -- absorb a free upper neighbour
    right
    have hnl := hnext.mp hhi.1
    have hle := hhi.2
    rw [hsum _ (hL.listed_mem hnl)] at hle
    obtain ⟨s₁, s', G', hs₁, hs', hres⟩ := combinehi_resized h hm hnl hk8 hk hle
    exact ⟨s', G', m, by simp only [hs₁, hs', bind, Except.bind], hres⟩
  · -- absorb the end block
    right
    have hle := hlast.2
    rw [hu, h.last, hsum _ (hL.last hl0).1] at hle
    obtain ⟨s', G', hs', hres⟩ := growIntoLastsbrk_resized h hm (hlast.1 ▸ h.last) hk8 hk
      (by omega)
    exact ⟨s', G', m, hs', hres⟩
  · -- slide into a free lower neighbour
    right
    have hpl := hprev.mp hlo.1
    have hle := hlo.2
    rw [hsum _ (hL.listed_mem hpl)] at hle
    obtain ⟨s', G', hs', hres⟩ := growIntoPrev_resized h hm hpl hk8 hk hle
    exact ⟨s', G', _, hs', hres⟩
  · -- copy to a free block
    right
    obtain ⟨s₁, G₁, m2, hs₁, hserve⟩ := takefree_served h hk8 hk (by omega) hb
    obtain ⟨s', G', hs', hres⟩ := copy_resized h hm hserve (by omega)
    exact ⟨s', G', m2, by simp only [hs₁, hs', bind, Except.bind], hres⟩
  · -- copy to the end block
    right
    have hle := hcopy.2
    rw [hu, h.last] at hle
    exact mv2lastsbrk_resized h hm hk8 hk (by omega) (by omega)
  · rcases extendsbrk_grown h hf hr (by omega) with ⟨-, hs₁⟩ | ⟨s₁, G₁, hs₁, hgrown⟩
    · left
      simp only [hs₁, bind, Except.bind, if_true]
    · right
      obtain ⟨hm₁, hsz, -⟩ := hgrown.frame m hm
      have hroom := hgrown.room
      simp only [hs₁, bind, Except.bind, if_neg hgrown.last_ne]
      split_ifs with hadj
      · -- the grown end block lies above the block
        obtain ⟨s', G', hs', hres⟩ := growIntoLastsbrk_resized hgrown.good hm₁
          (hadj ▸ hgrown.last) hk8 hk (by omega)
        exact ⟨s', G', m, hs', hres.after_grown hgrown hm⟩
      · obtain ⟨s', G', m', hs', hres⟩ := mv2lastsbrk_resized hgrown.good hm₁ hk8 hk (by omega)
          (by omega)
        exact ⟨s', G', m', hs', hres.after_grown hgrown hm⟩

theorem nrealloc_eq (h : Good s G) (hm : m ∈ G.asg) (ans : Option ℕ) (size : ℕ) :
    nrealloc s ans (m + 16) size = (do
      let (s, m) ← reallocBlock s ans m (roundup (atLeastOne size))
      .ok (s, if m ≠ 0 then m + dataOffset else 0)) := by
  unfold nrealloc
  rw [if_neg (by omega)]
  simp only [show m + 16 - dataOffset = m from Nat.add_sub_cancel _ _, h.accepts hm,
    Bool.false_eq_true, if_false]
  rfl

theorem nrealloc_spec (h : Good s G) (hm : m ∈ G.asg) {size : ℕ} (hsize : size ≤ 4294967272)
    (hf : Answers s ans (roundup (atLeastOne size))) (hr : Roomy s ans) :
    nrealloc s ans (m + 16) size = .ok (s, 0) ∨
      ∃ s' G' m', nrealloc s ans (m + 16) size = .ok (s', m' + 16) ∧ m' ≠ 0 ∧
        Resized s G m (roundup (atLeastOne size)) s' G' m' := by
  obtain ⟨hk8, hk, -, -⟩ := roundup_atLeastOne hsize
  rw [nrealloc_eq h hm]
  rcases reallocBlock_spec h hm hk8 hk hf hr with hs | ⟨s', G', m', hs, hres⟩
  · left
    rw [hs]
    rfl
  · right
    have hm0 := hres.good.inv.legal.ne_zero hres.asg.1
    refine ⟨s', G', m', ?_, hm0, hres⟩
    rw [hs]
    simp only [bind, Except.bind, if_pos hm0, dataOffset]

end DjgppLibc.NewMalloc
