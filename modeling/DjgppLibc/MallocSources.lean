import DjgppLibc.MallocOperations

/-!
# The three sources of memory

A request is served from the head of a free list, from the end block of the
newest group, or from a region that sbrk grants. Cutting a block is common to
all of them. Retiring the end block, when a region does not extend it, is the
one step that needs a hypothesis on the heap: the block must have room for the
`prevfree` field that a listed block carries.
-/
namespace DjgppLibc.NewMalloc
open ByteMemory LinkedLists

variable [Image] {s s' : Heap} {G G' : Layout} {M a b k m n x szneed : ℕ}

theorem nmallocSplit_cut {l : ℕ} (h : Inv s G M) (ha : a ∈ G.blocks) (hal : ¬ G.Listed a)
    (hf : s.get .nextfree a = 0) (hk8 : k % 8 = 0) (hk : 24 ≤ k)
    (hcase : (l = G.last ∧ a ≠ G.last ∧ k + 24 ≤ s.get .sz a) ∨
      (l = a + k ∧ (G.last = a ∨ G.last = 0) ∧ k + 16 ≤ s.get .sz a ∧ s.get .next a = 0 ∧
        ∃ g gs', groupsOf s.grants = g :: gs' ∧ g.1 ≤ a ∧ a + s.get .sz a = g.2)) :
    ∃ s', nmallocSplit s a k = .ok (s', a, a + k) ∧
      Inv s' ((G.insert (a + k)).setLast l) M ∧ s'.lastsbrk = s.lastsbrk ∧ s'.grants = s.grants ∧
      s'.get .sz a = k ∧ s'.get .sz (a + k) = s.get .sz a - k ∧ s'.get .prev (a + k) = a ∧
      a ∈ ((G.insert (a + k)).setLast l).asg ∧
      (∀ i, a + 16 ≤ i → i < a + k → s'.mem i = s.mem i) ∧
      ∀ x ∈ G.asg, x ≠ a → x ∈ ((G.insert (a + k)).setLast l).asg ∧ Keep s s' x := by
  have hL := h.legal
  have hk' : k + 16 ≤ s.get .sz a := by
    rcases hcase with h' | h'
    · omega
    · exact h'.2.2.1
  have hu := hL.chain.cut_fresh ha (by omega) hk'
  have hL₁ := hL.cut ha hal hf hk8 hk hcase
  have hV := hL₁.proper 0
  have hend := hL.chain.end_lt hL.ground ha
  have hsa : (Fields.split s.get a k) .sz a = k := by simp [Fields.split]
  have hsu : (Fields.split s.get a k) .sz (a + k) = s.get .sz a - k := by
    simp [Fields.split, show ¬ k = 0 by omega]
  have hsx : ∀ x ∈ G.blocks, x ≠ a → (Fields.split s.get a k) .sz x = s.get .sz x := by
    intro x hx hxa
    have : x ≠ a + k := fun he => hu (he ▸ hx)
    simp [Fields.split, hxa, this]
  obtain ⟨s', hs', hS⟩ := nmallocSplit_sim
    (Sim.refl (((G.insert (a + k)).setLast l).view (Fields.split s.get a k) 0) s) hV.ok
    (.inr ha) (.inl rfl) hend (fun x hx => hL₁.ne_zero hx) hk hk' hsa hsu
    (by
      intro h0
      obtain ⟨h₁, h₂, h₃, h₄⟩ := h.next_mem ha h0
      refine ⟨.inr h₁, h₄, h₃, fun he => hu (he ▸ h₁), ?_⟩
      exact le_of_eq (hsx _ h₁ h₃))
  have hla : l ≠ a := by
    rcases hcase with ⟨h₁, h₂, -⟩ | ⟨h₁, -⟩
    · exact h₁ ▸ Ne.symm h₂
    · omega
  have haa : a ∈ ((G.insert (a + k)).setLast l).asg := by
    refine ⟨.inr ha, ?_⟩
    rintro (ho | ho)
    · exact hla ho.symm
    · exact hal ho
  refine ⟨s', hs', h.after hS hL₁ (fun x hx => hx) (fun x hx => .inl hx), congrFun hS.hdr 0,
    hS.grants, ?_, ?_, ?_, haa, ?_, ?_⟩
  · rw [hS.get .sz a ⟨.inr ha, fun he => absurd he (by decide)⟩, hsa]
  · rw [hS.get .sz (a + k) ⟨.inl rfl, fun he => absurd he (by decide)⟩, hsu]
  · rw [hS.get .prev (a + k) ⟨.inl rfl, fun he => absurd he (by decide)⟩]
    have hna : s.get .next a ≠ a + k := by
      intro he
      exact hu (he ▸ (h.next_mem ha (by omega)).1)
    simp [Fields.split, Ne.symm hna]
  · intro i h₁ h₂
    exact hS.held i ⟨a, haa, hL.ne_zero ha, h₁, hsa.symm ▸ h₂⟩
  · intro x hx hxa
    have hxx : x ∈ ((G.insert (a + k)).setLast l).asg := by
      refine ⟨.inr hx.1, ?_⟩
      rintro (ho | ho)
      · have ho' : x = l := ho
        rcases hcase with ⟨h₁, -⟩ | ⟨h₁, -⟩
        · exact hx.2 (.inl (ho'.trans h₁))
        · exact hu (ho'.trans h₁ ▸ hx.1)
      · exact hx.2 (.inr ho)
    refine ⟨hxx, ?_, ?_⟩
    · rw [hS.get .sz x ⟨.inr hx.1, fun he => absurd he (by decide)⟩, hsx x hx.1 hxa]
    · intro i h₁ h₂
      exact hS.held i ⟨x, hxx, hL.ne_zero hx.1, h₁, (hsx x hx.1 hxa).symm ▸ h₂⟩

theorem Inv.nextfree_asg (h : Inv s G 0) (hm : m ∈ G.asg) : s.get .nextfree m = 0 := by
  by_contra hne
  exact hm.2 (.inr (h.legal.marked m hm.1 (h.legal.ne_zero hm.1) hne))

theorem split_free (h : Inv s G 0) (hl : s.lastsbrk = G.last) (hm : m ∈ G.asg)
    (hk8 : szneed % 8 = 0) (hk : 24 ≤ szneed) (hle : szneed + 24 ≤ s.get .sz m) :
    ∃ s₁ s' G', nmallocSplit s m szneed = .ok (s₁, m, m + szneed) ∧
      mv2freelist s₁ (m + szneed) = .ok s' ∧ Moves s G s' G' 0 {m}ᶜ ∧ m ∈ G'.asg ∧
      s'.get .sz m = szneed ∧ ∀ i, m + 16 ≤ i → i < m + szneed → s'.mem i = s.mem i := by
  have hml : ¬ G.Listed m := fun ho => hm.2 (.inr ho)
  have hmL : m ≠ G.last := fun he => hm.2 (.inl he)
  have hu := h.legal.chain.cut_fresh hm.1 (k := szneed) (by omega) (by omega)
  obtain ⟨s₁, hs₁, h₁, hl₁, hg₁, hsz, hszu, hpu, hma, hdata, hfr⟩ :=
    nmallocSplit_cut h hm.1 hml (h.nextfree_asg hm) hk8 hk (.inl ⟨rfl, hmL, hle⟩)
  have hua : m + szneed ∈ ((G.insert (m + szneed)).setLast G.last).asg := by
    refine ⟨.inl rfl, ?_⟩
    rintro (ho | ho)
    · have ho' : m + szneed = G.last := ho
      exact hu (ho' ▸ (h.legal.last (by omega)).1)
    · exact hu (h.legal.listed_mem ho)
  obtain ⟨s', G', hs', hmv⟩ := mv2freelist_moves h₁ (hl₁.trans hl) hua (.inr rfl)
    (fun _ => hpu.symm ▸ hma.2)
  have hne : m ≠ m + szneed := by omega
  obtain ⟨hma', hkm⟩ := hmv.frame m hne hma
  refine ⟨s₁, s', G', hs₁, hs', ⟨hmv.inv, hmv.last, hmv.grants.trans hg₁, hmv.alive, ?_⟩, hma',
    hkm.1.trans hsz, ?_⟩
  · intro x hx hxa
    obtain ⟨hx₁, hk₁⟩ := hfr x hxa hx
    have hxu : x ≠ m + szneed := fun he => hu (he ▸ hxa.1)
    obtain ⟨hx₂, hk₂⟩ := hmv.frame x hxu hx₁
    exact ⟨hx₂, hk₁.trans hk₂⟩
  · intro i h₂ h₃
    rw [hkm.2 i h₂ (hsz.symm ▸ h₃)]
    exact hdata i h₂ h₃

theorem trim_moves (h : Inv s G 0) (hl : s.lastsbrk = G.last) (hm : m ∈ G.asg)
    (hk8 : szneed % 8 = 0) (hk : 24 ≤ szneed) (hle : szneed ≤ s.get .sz m) :
    ∃ s' G', trim s m szneed = .ok (s', m) ∧ Moves s G s' G' 0 {m}ᶜ ∧ m ∈ G'.asg ∧
      szneed ≤ s'.get .sz m ∧ ∀ i, m + 16 ≤ i → i < m + szneed → s'.mem i = s.mem i := by
  have hlt := get_lt s .sz m
  have hsub : sub32 (s.get .sz m) szneed = s.get .sz m - szneed := by
    simp only [sub32]
    omega
  unfold trim
  rw [hsub]
  by_cases hc : s.get .sz m - szneed ≥ minSave
  · rw [if_pos hc]
    simp only [minSave] at hc
    obtain ⟨s₁, s', G', hs₁, hs', hmv, hma, hsz, hdata⟩ := split_free h hl hm hk8 hk (by omega)
    refine ⟨s', G', ?_, hmv, hma, le_of_eq hsz.symm, hdata⟩
    rw [hs₁]
    simp only [bind, Except.bind, hs']
  · rw [if_neg hc]
    exact ⟨s, G, rfl, ⟨h, hl, rfl, id, fun x _ hx => ⟨hx, rfl, fun _ _ _ => rfl⟩⟩, hm, hle,
      fun _ _ _ => rfl⟩

omit [Image] in
theorem searchUp_spec (s : Heap) (fuel b : ℕ) (hf : nfLists ≤ b + fuel) :
    b < searchUp s fuel b ∧
      (searchUp s fuel b < nfLists → s.freehdrs (searchUp s fuel b) ≠ 0) ∨ fuel = 0 := by
  induction fuel generalizing b with
  | zero => exact .inr rfl
  | succ fuel ih =>
      left
      unfold searchUp
      split_ifs with hc
      · rcases ih (b + 1) (by omega) with h | h
        · exact ⟨by omega, h.2⟩
        · subst h
          simp only [nfLists] at hf hc
          omega
      · exact ⟨by omega, fun hlt h0 => hc ⟨hlt, h0⟩⟩

theorem searchfree_spec (h : Inv s G M) (hlt : szneed < 4294967296)
    (hne : searchfree s szneed ≠ 0) :
    searchfree s szneed < 32 ∧
      s.freehdrs (searchfree s szneed) ∈ G.free (searchfree s szneed) ∧
      szneed ≤ s.get .sz (s.freehdrs (searchfree s szneed)) := by
  have hL := h.legal
  have hhead : ∀ b, b ≠ 0 → s.freehdrs b ≠ 0 → s.freehdrs b ∈ G.free b := by
    intro b hb hs
    rw [hL.lists.head b hb] at hs ⊢
    exact (headD_eq_or_mem _).resolve_left hs
  unfold searchfree at hne ⊢
  simp only at hne ⊢
  split_ifs at hne ⊢ with hc hlt' hlt'
  · obtain ⟨h₁, h₂⟩ := (searchUp_spec s nfLists (size2bucket szneed) (by omega)).resolve_right
      (by decide)
    have hmem := hhead _ hne (h₂ hlt')
    refine ⟨hlt', hmem, le_of_lt (lt_of_bucket_lt hlt (get_lt _ _ _) ?_)⟩
    rw [← (hL.listed _ _ hmem).2.1]
    exact h₁
  · exact absurd rfl hne
  · push Not at hc
    exact ⟨hlt', hhead _ hne hc.1, hc.2⟩
  · exact absurd rfl hne

theorem rmvfromfree_moves (h : Inv s G 0) (hl : s.lastsbrk = G.last)
    (hmem : s.freehdrs b ∈ G.free b) :
    ∃ s₁, rmvfromfree s (s.freehdrs b) = .ok s₁ ∧
      Moves s G s₁ (G.unlist b (s.freehdrs b)) 0 Set.univ ∧
      s.freehdrs b ∈ (G.unlist b (s.freehdrs b)).asg ∧
      s₁.get .sz (s.freehdrs b) = s.get .sz (s.freehdrs b) := by
  have hL := h.legal
  obtain ⟨x, hx⟩ : ∃ x, x = s.freehdrs b := ⟨_, rfl⟩
  rw [← hx] at hmem ⊢
  have hxl : G.Listed x := ⟨b, hmem⟩
  obtain ⟨hxB, hbk, -⟩ := hL.listed b x hmem
  have hb0 : b ≠ 0 := hbk ▸ hL.bucket_ne_zero hxB
  have hpx := (hL.lists.prevfree_eq_NONE hb0 hmem).mpr hx.symm
  obtain ⟨s₁, hs₁, hS⟩ := rmvfromfree_sim (Sim.refl (G.view s.get 0) s) (hL.proper 0)
    (hL.linkable hxl) hpx (hbk ▸ hx.symm) (fun _ _ => le_rfl) (hL.bucket_lt hxB)
  rw [← hbk] at hS
  have hopen : ∀ y, (G.unlist b x).Open y ↔ G.Open y ∧ y ≠ x := fun y => hL.unlist_open hmem
  refine ⟨s₁, hs₁, ⟨?_, ?_, hS.grants, id, ?_⟩, ⟨hxB, fun ho => ((hopen x).mp ho).2 rfl⟩, ?_⟩
  · exact h.after hS (hL.pop hmem hpx) (fun y hy => hy)
      (fun y hy => .inl ((hL.unlist_listed hmem).mp hy).1)
  · have := congrFun hS.hdr 0
    rw [Heap.lastsbrk, this, unlinkHdr, if_neg (Ne.symm hb0)]
    exact hl
  · intro y _ hy
    exact ⟨⟨hy.1, fun ho => hy.2 ((hopen y).mp ho).1⟩,
      hS.keep hy (hL.ne_zero hy.1) (by simp [Fields.pop])⟩
  · rw [hS.read (by decide) hxB]
    simp [Fields.pop]

theorem takefree_moves (h : Inv s G 0) (hl : s.lastsbrk = G.last) (hmem : s.freehdrs b ∈ G.free b)
    (hk8 : szneed % 8 = 0) (hk : 24 ≤ szneed) (hle : szneed ≤ s.get .sz (s.freehdrs b))
    (hmax : szneed < 2147483648) :
    ∃ s' G', takefree s b szneed = .ok (s', s.freehdrs b) ∧ Moves s G s' G' 0 Set.univ ∧
      s.freehdrs b ∈ G'.asg ∧ szneed ≤ s'.get .sz (s.freehdrs b) := by
  obtain ⟨s₁, hs₁, hmv₁, hxa, hsz⟩ := rmvfromfree_moves h hl hmem
  have hu : u32 (szneed + minSave) = szneed + 24 := by
    simp only [u32, minSave]
    omega
  unfold takefree
  simp only [hs₁, bind, Except.bind, hsz, hu]
  by_cases hc : s.get .sz (s.freehdrs b) < szneed + 24
  · rw [if_pos hc]
    exact ⟨s₁, _, rfl, hmv₁, hxa, hsz.symm ▸ hle⟩
  · rw [if_neg hc]
    obtain ⟨s₂, s', G', hs₂, hs', hmv, hma, hszx, -⟩ :=
      split_free hmv₁.inv hmv₁.last hxa hk8 hk (by rw [hsz]; omega)
    simp only [hs₂, hs']
    refine ⟨s', G', rfl, ⟨hmv.inv, hmv.last, hmv.grants.trans hmv₁.grants, hmv.alive, ?_⟩, hma,
      le_of_eq hszx.symm⟩
    intro y hy hya
    obtain ⟨hy₁, hk₁⟩ := hmv₁.frame y hy hya
    have hyx : y ≠ s.freehdrs b := fun he => hya.2 (.inr ⟨b, he ▸ hmem⟩)
    obtain ⟨hy₂, hk₂⟩ := hmv.frame y hyx hy₁
    exact ⟨hy₂, hk₁.trans hk₂⟩

theorem splitLastsbrk_moves (h : Inv s G 0) (hl : s.lastsbrk = G.last) (hl0 : G.last ≠ 0)
    (hk8 : szneed % 8 = 0) (hk : 24 ≤ szneed) (hle : szneed + 16 ≤ s.get .sz G.last) :
    ∃ s' G', splitLastsbrk s szneed = .ok (s', G.last) ∧ Moves s G s' G' 0 Set.univ ∧
      G.last ∈ G'.asg ∧ s'.get .sz G.last = szneed := by
  have hL := h.legal
  obtain ⟨hlB, hnext, hgrp⟩ := hL.last hl0
  have hll : ¬ G.Listed G.last := fun ho => hL.listed_ne_last ho rfl
  have hnf : s.get .nextfree G.last = 0 := by
    by_contra hne
    exact hll (hL.marked _ hlB hl0 hne)
  obtain ⟨s₁, hs₁, h₁, -, hg₁, hsz, -, -, hma, -, hfr⟩ := nmallocSplit_cut h hlB hll hnf hk8 hk
    (l := G.last + szneed) (.inr ⟨rfl, .inl rfl, hle, hnext, hgrp⟩)
  refine ⟨s₁.setLastsbrk (G.last + szneed), _, ?_, ⟨⟨?_, h₁.clean, h₁.valid⟩, rfl, hg₁, ?_, ?_⟩,
    hma, hsz⟩
  · unfold splitLastsbrk
    simp only [hl, hs₁, bind, Except.bind]
  · exact h₁.legal.congr (fun _ _ _ _ => rfl) (fun _ _ => rfl) (fun b hb => if_neg hb)
  · intro _
    simp only [Layout.setLast]
    omega
  · intro x _ hx
    exact hfr x hx fun he => hx.2 (.inl he)

/-- What a granted region leaves: a new or longer end block that can serve the
request, and every assigned block as it was. -/
structure Grown (s : Heap) (G : Layout) (szneed : ℕ) (s' : Heap) (G' : Layout) : Prop where
  inv : Inv s' G' 0
  last : s'.lastsbrk = G'.last
  last_ne : G'.last ≠ 0
  room : szneed + 24 ≤ s'.get .sz G'.last
  frame : ∀ x ∈ G.asg, x ∈ G'.asg ∧ Keep s s' x

omit [Image] in
theorem sbrkSize_bounds (s : Heap) (h : szneed < 2147483648) :
    szneed + 32 ≤ sbrkSize s szneed ∧ minSbrk ≤ sbrkSize s szneed := by
  have hu : u32 (szneed + (2 * 8 + dataOffset)) = szneed + 32 := by
    simp only [u32, dataOffset]
    omega
  unfold sbrkSize
  dsimp only
  split_ifs <;> simp only [u32, minSbrk, dataOffset] at * <;> omega

theorem Inv.expected_eq (h : Inv s G M) (hl : s.lastsbrk = G.last) (hl0 : G.last ≠ 0) :
    ∃ g gs, groupsOf s.grants = g :: gs ∧ expected s = g.2 := by
  obtain ⟨-, -, g, gs, hgs, -, hend⟩ := h.legal.last hl0
  refine ⟨g, gs, hgs, ?_⟩
  rw [expected, hl, if_pos hl0]
  exact hend

/-- A region that starts where the end block stops makes it longer. -/
theorem extendsbrk_extends (h : Inv s G 0) (hl : s.lastsbrk = G.last)
    (hf : Fresh s.grants a (sbrkSize s szneed)) (hmax : szneed < 2147483648)
    (ha : a = expected s) :
    ∃ s', extendsbrk s (some a) szneed = .ok (s', G.last) ∧ Grown s G szneed s' G := by
  obtain ⟨h₁, h₂⟩ := sbrkSize_bounds s hmax
  have hv : Valid ((a, sbrkSize s szneed) :: s.grants) := ⟨hf, h₂, h.valid⟩
  have hl0 : G.last ≠ 0 := by
    intro h0
    have hpos := hf.pos
    rw [ha, expected, hl, h0] at hpos
    simp at hpos
  obtain ⟨g, gs, hgs, hend⟩ := h.expected_eq hl hl0
  have hgs' := groupsOf_extend (n := sbrkSize s szneed) hgs (ha.trans hend)
  have hground := (ground_groupsOf hv).1
  rw [hgs'] at hground
  have hL := h.legal
  rw [hgs] at hL
  have hL₁ := hL.extend hground hl0
  obtain ⟨hlB, -, g₀, gs₀, hg₀, hga, hgb⟩ := hL.last hl0
  obtain ⟨rfl, rfl⟩ := List.cons.inj hg₀
  have hsmall := hground.small (g.1, g.2 + sbrkSize s szneed) (by simp)
  simp only at hsmall
  have hlt : s.get .sz G.last + sbrkSize s szneed < 4294967296 := by omega
  have hV := h.legal.proper 0
  have hS := (Sim.refl (G.view s.get 0)
    { s with grants := (a, sbrkSize s szneed) :: s.grants }).put hV.ok (f := .sz) (a := G.last)
      ⟨hlB, fun he => nomatch he⟩ hlt le_rfl
  refine ⟨_, ?_, ⟨Inv.of_sim hS h.clean hv ?_ (fun x hx => hx) (fun x hx => .inl hx), hl, hl0,
    ?_, ?_⟩⟩
  · unfold extendsbrk
    simp only [← ha, if_true, hl]
    congr 2
    rw [u32, Nat.mod_eq_of_lt]
    · rfl
    · exact hlt
  · rw [show groupsOf _ = _ from hgs']
    exact hL₁
  · rw [hS.get .sz G.last ⟨hlB, fun he => nomatch he⟩]
    simp only [Fields.set_apply, and_self, if_true]
    omega
  · intro x hx
    have hxl : x ≠ G.last := fun he => hx.2 (.inl he)
    refine ⟨hx, ?_, fun i h₃ h₄ => hS.held i ⟨x, hx, hL.ne_zero hx.1, h₃, h₄⟩⟩
    rw [hS.get .sz x ⟨hx.1, fun he => nomatch he⟩]
    simp only [Fields.set_apply, hxl, and_false, if_false]
    rfl

omit [Image] in
theorem setup_sim {V : View} {F : Fields} {H : ℕ → ℕ} {s₀ : Heap} (h : Sim V s₀ s F H) (hV : V.Ok)
    (hm : m ∈ V.blocks) (hn : n < 4294967296) (hn24 : 24 ≤ n) :
    Sim V s₀ ((((s.setIn n .sz m n).setIn n .next m 0).setIn n .prev m 0).setIn n .nextfree m 0)
      (F.create m n) H := by
  have hc : ∀ {f}, f ≠ .prevfree → V.Cell f m := fun hf => ⟨hm, fun he => absurd he hf⟩
  have hoff : ∀ {f : Field}, f ≠ .prevfree → f.offset + 4 ≤ n := by
    intro f hf
    have := Field.offset_le_of_ne hf
    omega
  exact (((h.setIn _ hV (hc (by decide)) hn (hoff (by decide))).setIn _ hV (hc (by decide))
    (by omega)
    (hoff (by decide))).setIn _ hV (hc (by decide)) (by omega) (hoff (by decide))).setIn _ hV
    (hc (by decide)) (by omega) (hoff (by decide))

theorem retire_last (h : Inv s (G.setLast 0) 0) (ha : a ∈ (G.setLast 0).asg)
    (hn : s.get .next a = 0)
    (hp : s.get .prev a ≠ 0 → ¬ (G.setLast 0).Open (s.get .prev a)) :
    ∃ s', mv2freelist s a = .ok s' ∧
      Inv s' ((G.setLast 0).list (size2bucket (s.get .sz a)) a) 0 ∧ s'.grants = s.grants ∧
      (∀ f, f ≠ .nextfree → f ≠ .prevfree → ∀ x ∈ G.blocks, s'.get f x = s.get f x) ∧
      ∀ x ∈ ({a}ᶜ : Set ℕ), x ∈ (G.setLast 0).asg →
        x ∈ ((G.setLast 0).list (size2bucket (s.get .sz a)) a).asg ∧ Keep s s' x := by
  have h₁ := h.log (e := .bucket (size2bucket (s.get .sz a))) (h.legal.bucket_lt ha.1)
  obtain ⟨hinv, -, hg, hget, hfr⟩ := pushfree_inv h₁ ha (.inr rfl) (fun h0 => absurd hn h0) hp
  refine ⟨_, ?_, hinv, hg, hget, hfr⟩
  have hc : (if isFree s (s.get .next a) then combinehi s a else .ok (s, a)) = .ok (s, a) := by
    rw [hn, if_neg]
    simp [isFree]
  rw [mv2freelist_eq (h.legal.ne_zero ha.1) hc, if_neg]
  rintro ⟨h0, he⟩
  exact h0 (he ▸ hn)

theorem extendsbrk_opens (h : Inv s G 0) (hl : s.lastsbrk = G.last)
    (hempty : G.last = 0 → s.grants = []) (hf : Fresh s.grants a (sbrkSize s szneed))
    (hmax : szneed < 2147483648) (hroom : G.last ≠ 0 → 24 ≤ s.get .sz G.last)
    (ha : a ≠ expected s) :
    ∃ s' G', extendsbrk s (some a) szneed = .ok (s', G'.last) ∧ Grown s G szneed s' G' := by
  obtain ⟨h₁, h₂⟩ := sbrkSize_bounds s hmax
  have hv : Valid ((a, sbrkSize s szneed) :: s.grants) := ⟨hf, h₂, h.valid⟩
  obtain ⟨hu₁, hu₂, -⟩ := alignUp_le a
  have hgs : groupsOf ((a, sbrkSize s szneed) :: s.grants) =
      (alignUp a, a + sbrkSize s szneed) :: groupsOf s.grants := by
    apply groupsOf_open
    intro b e gs hgs hae
    by_cases hl0 : G.last = 0
    · rw [hempty hl0] at hgs
      simp [groupsOf] at hgs
    · obtain ⟨g, gs', hg, hend⟩ := h.expected_eq hl hl0
      rw [hgs] at hg
      obtain ⟨rfl, -⟩ := List.cons.inj hg
      exact ha (hae.trans hend.symm)
  obtain ⟨m, hm⟩ : ∃ m, m = alignUp a := ⟨_, rfl⟩
  obtain ⟨n, hn⟩ : ∃ n, n = a + sbrkSize s szneed - m := ⟨_, rfl⟩
  have hmn : a + sbrkSize s szneed = m + n := by omega
  rw [← hm, hmn] at hgs
  have htot := hf.total
  have hsub : sub32 (sbrkSize s szneed) (m - a) = n := by
    simp only [sub32]
    omega
  have hground := (ground_groupsOf hv).1
  rw [hgs] at hground
  -- the layout: the end block counts as assigned until it is listed
  have hL₀ := h.legal.retire hroom
  obtain ⟨hmB, hL₁⟩ := hL₀.create hground (by omega) rfl
  have hV := hL₁.proper 0
  have hS := setup_sim (n := n) (Sim.refl (((G.setLast 0).insert m).view
    (Fields.create s.get m n) 0)
    { s with grants := (a, sbrkSize s szneed) :: s.grants }) hV.ok (.inl rfl) (by omega) (by omega)
  generalize hs₁ : Heap.setIn _ n .nextfree m 0 = s₁ at hS
  have hinv₁ : Inv s₁ ((G.setLast 0).insert m) 0 := Inv.of_sim hS h.clean hv
    (by rw [show groupsOf _ = _ from hgs]; exact hL₁) (fun x hx => hx) (fun x hx => .inl hx)
  have hcell : ∀ f, f ≠ .prevfree → ∀ x ∈ ((G.setLast 0).insert m).blocks,
      s₁.get f x = (Fields.create s.get m n) f x :=
    fun f hfp x hx => hS.get f x ⟨hx, fun he => absurd he hfp⟩
  have hold : ∀ f, f ≠ .prevfree → ∀ x ∈ G.blocks, s₁.get f x = s.get f x := by
    intro f hfp x hx
    have hxm : x ≠ m := fun he => hmB (he ▸ hx)
    rw [hcell f hfp x (.inr hx)]
    simp [Fields.create, hxm]
  have hma : m ∈ ((G.setLast 0).insert m).asg := by
    refine ⟨.inl rfl, ?_⟩
    rintro (ho | ho)
    · exact hinv₁.legal.ne_zero (.inl rfl : m ∈ ((G.setLast 0).insert m).blocks) ho
    · exact hmB (hL₀.listed_mem ho)
  have hasg : ∀ x ∈ (G.setLast 0).asg, x ∈ ((G.setLast 0).insert m).asg :=
    fun x hx => ⟨.inr hx.1, hx.2⟩
  have hkeep : ∀ x ∈ (G.setLast 0).asg, Keep s s₁ x := by
    intro x hx
    have hsz := hold .sz (by decide) x hx.1
    refine ⟨hsz, fun i h₃ h₄ => hS.held i ⟨x, hasg x hx, hL₀.ne_zero hx.1, h₃, ?_⟩⟩
    rw [← hcell .sz (by decide) x (.inr hx.1), hsz]
    exact h₄
  have hgrant : s₁.grants = (a, sbrkSize s szneed) :: s.grants := hS.grants
  have hmsz : s₁.get .sz m = n := by
    rw [hcell .sz (by decide) m (.inl rfl)]
    simp [Fields.create]
  have hmn0 : s₁.get .next m = 0 := by
    rw [hcell .next (by decide) m (.inl rfl)]
    simp [Fields.create]
  have hmp0 : s₁.get .prev m = 0 := by
    rw [hcell .prev (by decide) m (.inl rfl)]
    simp [Fields.create]
  have hcode : ∀ s₂, mv2freelist s₁ s.lastsbrk = .ok s₂ →
      extendsbrk s (some a) szneed = .ok (recordnewsbrk (s₂.setLastsbrk m) m, m) := by
    intro s₂ hs₂
    have hdelta : (if a % 8 ≠ 0 then 8 - a % 8 else 0) = m - a := by
      rw [hm, alignUp]
      omega
    unfold extendsbrk
    simp only [if_neg ha, hdelta, show a + (m - a) = m by omega, hsub, hs₁, bind, Except.bind,
      hs₂]
  -- in both cases the fresh block is made the end block of a legal layout
  have hfinal : ∀ (s₂ : Heap) (G₂ : Layout), Inv s₂ G₂ 0 → G₂.last = 0 →
      (∀ f, f ≠ .nextfree → f ≠ .prevfree → s₂.get f m = s₁.get f m) →
      s₂.grants = s₁.grants → m ∈ G₂.blocks → ¬ G₂.Listed m →
      (∀ x ∈ G.asg, x ∈ G₂.asg ∧ Keep s s₂ x) →
      Grown s G szneed (recordnewsbrk (s₂.setLastsbrk m) m) (G₂.setLast m) := by
    intro s₂ G₂ hi hl₂ hget hg₂ hmB₂ hml₂ hfr
    have hL₂ := hi.legal.appoint hl₂ hmB₂ hml₂ (by rw [hget _ (by decide) (by decide), hmn0])
      ⟨(m, m + n), groupsOf s.grants, by rw [hg₂, hgrant, hgs], le_rfl,
        by rw [hget _ (by decide) (by decide), hmsz]⟩
      (by rw [hget _ (by decide) (by decide), hmp0]; exact fun h0 => absurd rfl h0)
    have hrec : ∀ t : Heap, (recordnewsbrk t m).mem = t.mem ∧ (recordnewsbrk t m).freehdrs =
        t.freehdrs ∧ (recordnewsbrk t m).grants = t.grants ∧
          (recordnewsbrk t m).trace = t.trace := by
      intro t
      unfold recordnewsbrk
      split_ifs <;> exact ⟨rfl, rfl, rfl, rfl⟩
    obtain ⟨hr₁, hr₂, hr₃, hr₄⟩ := hrec (s₂.setLastsbrk m)
    have hg : (recordnewsbrk (s₂.setLastsbrk m) m).get = s₂.get := by
      funext f x
      unfold Heap.get
      rw [hr₁]
      rfl
    refine ⟨⟨?_, ?_, ?_⟩, ?_, hi.legal.ne_zero hmB₂, ?_, ?_⟩
    · rw [hg, hr₂, hr₃]
      exact hL₂.congr (fun _ _ _ _ => rfl) (fun _ _ => rfl) (fun b hb => if_neg hb)
    · rw [hr₄]
      exact hi.clean
    · rw [hr₃]
      exact hi.valid
    · rw [Heap.lastsbrk, hr₂]
      rfl
    · rw [hg, show (G₂.setLast m).last = m from rfl, hget _ (by decide) (by decide), hmsz]
      omega
    · intro x hx
      obtain ⟨hx₂, hk₁, hk₂⟩ := hfr x hx
      have hxm : x ≠ m := fun he => hmB (he ▸ hx.1)
      refine ⟨⟨hx₂.1, ?_⟩, by rw [hg, hk₁], fun i h₃ h₄ => ?_⟩
      · rintro (ho | ho)
        · exact hxm ho
        · exact hx₂.2 (.inr ho)
      · rw [hr₁]
        exact hk₂ i h₃ h₄
  by_cases hl0 : G.last = 0
  · refine ⟨_, _, hcode s₁ ?_, hfinal s₁ _ hinv₁ rfl (fun _ _ _ => rfl) rfl hma.1
      (fun ho => hma.2 (.inr ho)) ?_⟩
    · rw [hl, hl0]
      rfl
    · intro x hx
      have hx' : x ∈ (G.setLast 0).asg := by
        refine ⟨hx.1, ?_⟩
        rintro (ho | ho)
        · exact h.legal.ne_zero hx.1 ho
        · exact hx.2 (.inr ho)
      exact ⟨hasg x hx', hkeep x hx'⟩
  · obtain ⟨hlB, hln, -⟩ := h.legal.last hl0
    have hla : G.last ∈ (G.setLast 0).asg := by
      refine ⟨hlB, ?_⟩
      rintro (ho | ho)
      · exact hl0 ho
      · exact h.legal.listed_ne_last ho rfl
    have hlm : G.last ≠ m := fun he => hmB (he ▸ hlB)
    obtain ⟨s₂, hs₂, hinv₂, hg₂, hget₂, hfr₂⟩ := retire_last (G := (G.setLast 0).insert m)
      (a := G.last) hinv₁ (hasg _ hla) (by rw [hold _ (by decide) _ hlB, hln]) (by
        rw [hold _ (by decide) _ hlB]
        intro h0 ho
        obtain ⟨hpB, -, -, hpn⟩ := h.prev_mem hlB h0
        refine h.legal.apart _ hpB (hpn.symm ▸ hl0) ⟨?_, hpn.symm ▸ .inl rfl⟩
        rcases ho with ho | ho
        · exact absurd ho h0
        · exact .inr ho)
    refine ⟨_, _, hcode s₂ (hl ▸ hs₂), hfinal s₂ _ hinv₂ rfl
      (fun f h₃ h₄ => hget₂ f h₃ h₄ m (.inl rfl)) hg₂ (.inl rfl) ?_ ?_⟩
    · rintro ⟨i, hi⟩
      rcases mem_push.mp hi with hi | hi
      · exact hma.2 (.inr ⟨i, hi⟩)
      · exact hlm hi.2.symm
    · intro x hx
      have hxl : x ≠ G.last := fun he => hx.2 (.inl he)
      have hx' : x ∈ (G.setLast 0).asg := by
        refine ⟨hx.1, ?_⟩
        rintro (ho | ho)
        · exact h.legal.ne_zero hx.1 ho
        · exact hx.2 (.inr ho)
      obtain ⟨hx₂, hk₂⟩ := hfr₂ x hxl (hasg x hx')
      exact ⟨hx₂, (hkeep x hx').trans hk₂⟩

end DjgppLibc.NewMalloc
