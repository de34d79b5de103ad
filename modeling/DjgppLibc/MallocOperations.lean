import DjgppLibc.MallocInvariant
import DjgppLibc.MallocRegions

/-!
# The internal operations keep the invariant

`Inv` is the invariant of a heap with a given layout. Each internal routine is
shown to reach no diagnostic and to lead to a heap with a new layout in which
the assigned blocks it was not called for are still assigned, with the same
size and the same data. Freeing, cutting and joining are the only edits; the
routines of the interface are assembled from these results.
-/
namespace DjgppLibc.NewMalloc
open ByteMemory LinkedLists

variable [Image] {s s' s'' : Heap} {G G' G'' : Layout} {M M' a b m n x k : ℕ}

/-- The header fields and list headers fit the layout, and nothing the heap
recorded was out of order. -/
structure Inv (s : Heap) (G : Layout) (M : ℕ) : Prop where
  legal : Legal s.get s.freehdrs (groupsOf s.grants) G M
  clean : ∀ e ∈ s.trace, e.Ok
  valid : Valid s.grants

def Keep (s s' : Heap) (x : ℕ) : Prop :=
  s'.get .sz x = s.get .sz x ∧ ∀ i, x + 16 ≤ i → i < x + s.get .sz x → s'.mem i = s.mem i

omit [Image] in
theorem Keep.trans (h : Keep s s' x) (h' : Keep s' s'' x) : Keep s s'' x :=
  ⟨h'.1.trans h.1, fun i h₁ h₂ => (h'.2 i h₁ (h.1.symm ▸ h₂)).trans (h.2 i h₁ h₂)⟩

/-- The assigned blocks in `K` stay assigned and keep size and data. -/
structure Moves (s : Heap) (G : Layout) (s' : Heap) (G' : Layout) (M' : ℕ) (K : Set ℕ) : Prop where
  inv : Inv s' G' M'
  last : s'.lastsbrk = G'.last
  grants : s'.grants = s.grants
  alive : G.last ≠ 0 → G'.last ≠ 0
  frame : ∀ x ∈ K, x ∈ G.asg → x ∈ G'.asg ∧ Keep s s' x

theorem Moves.trans {K : Set ℕ} (h : Moves s G s' G' M K) (h' : Moves s' G' s'' G'' M' K) :
    Moves s G s'' G'' M' K :=
  ⟨h'.inv, h'.last, h'.grants.trans h.grants, fun h0 => h'.alive (h.alive h0), fun x hx hG =>
    have h₁ := h.frame x hx hG
    have h₂ := h'.frame x hx h₁.1
    ⟨h₂.1, h₁.2.trans h₂.2⟩⟩

/-- Listed blocks, and the block `m`, may hold `prevfree`; the data of the other
assigned blocks is held. -/
def Layout.view (G : Layout) (F : Fields) (m : ℕ) : View where
  blocks := G.blocks
  ext := F .sz
  spare := {x | G.Listed x ∨ x = m ∧ x ∈ G.blocks ∧ 24 ≤ F .sz x}
  held := {i | ∃ x ∈ G.asg, x ≠ m ∧ x + 16 ≤ i ∧ i < x + F .sz x}

theorem Legal.proper {F : Fields} {H : ℕ → ℕ} {gs : List (ℕ × ℕ)} (h : Legal F H gs G M)
    (m : ℕ) : (G.view F m).Proper := by
  have hc := h.chain
  refine ⟨⟨hc.big, hc.spaced, ?_, ?_, ?_⟩, fun a ha => h.ne_zero ha, ?_, fun hN => h.ne_NONE hN rfl⟩
  · rintro a (ha | ⟨-, ha⟩)
    · exact ⟨h.listed_mem ha, h.large_listed ha⟩
    · exact ha
  · rintro i ⟨x, hx, -, h₁, h₂⟩ a ha
    have hbig := hc.big a ha
    rcases Nat.lt_trichotomy a x with hlt | rfl | hgt
    · have := hc.spaced a ha x hx.1 hlt
      omega
    · exact .inr h₁
    · have := hc.spaced x hx.1 a ha hgt
      omega
  · rintro i ⟨x, hx, hxm, h₁, h₂⟩ a ha
    have ha' : a ∈ G.blocks ∧ 24 ≤ F .sz a ∧ a ≠ x := by
      rcases ha with ha | ⟨ha, hb, h24⟩
      · exact ⟨h.listed_mem ha, h.large_listed ha, fun he => hx.2 (.inr (he ▸ ha))⟩
      · exact ⟨hb, h24, fun he => hxm (he.symm.trans ha)⟩
    rcases Nat.lt_or_ge a x with hlt | hge
    · have := hc.spaced a ha'.1 x hx.1 hlt
      omega
    · have := hc.spaced x hx.1 a ha'.1 (by omega)
      omega
  · intro a ha
    have := hc.end_lt h.ground ha
    omega

theorem Legal.linkable {F : Fields} {H : ℕ → ℕ} {gs : List (ℕ × ℕ)} (h : Legal F H gs G M)
    (hx : G.Listed x) : Linkable (G.view F m) F x := by
  obtain ⟨hn, hp⟩ := h.links hx
  exact ⟨.inl hx, hn.imp_right fun h' => ⟨.inl h'.1, h'.2⟩,
    hp.imp_right fun h' => ⟨.inl h'.1, h'.2⟩⟩

/-- A replayed sequence of stores ends in a heap that fits the edited layout. -/
theorem Inv.of_sim {V : View} {F : Fields} {H : ℕ → ℕ} (hs : Sim V s s' F H)
    (hc : ∀ e ∈ s.trace, e.Ok) (hv : Valid s.grants)
    (hL : Legal F H (groupsOf s.grants) G' M') (hB : ∀ x ∈ G'.blocks, x ∈ V.blocks)
    (hsp : ∀ x, G'.Listed x → x ∈ V.spare) : Inv s' G' M' := by
  refine ⟨?_, fun e he => (hs.ok e he).elim (hc e) id, hs.grants ▸ hv⟩
  · rw [hs.grants]
    refine hL.congr ?_ ?_ ?_
    · intro f hf x hx
      exact hs.get f x ⟨hB x hx, fun he => absurd he hf⟩
    · intro x hx
      exact hs.get _ x ⟨hB x (hL.listed_mem hx), fun _ => hsp x hx⟩
    · intro b _
      rw [hs.hdr]

theorem Inv.after {V : View} {F : Fields} {H : ℕ → ℕ} (h : Inv s G M) (hs : Sim V s s' F H)
    (hL : Legal F H (groupsOf s.grants) G' M') (hB : ∀ x ∈ G'.blocks, x ∈ V.blocks)
    (hsp : ∀ x, G'.Listed x → x ∈ V.spare) : Inv s' G' M' :=
  Inv.of_sim hs h.clean h.valid hL hB hsp

omit [Image] in
theorem Sim.keep {F : Fields} {H : ℕ → ℕ} (hs : Sim (G.view s.get m) s s' F H)
    (hx : x ∈ G.asg) (hxm : x ≠ m) (hsz : F .sz x = s.get .sz x) : Keep s s' x :=
  ⟨(hs.get .sz x ⟨hx.1, fun he => nomatch he⟩).trans hsz,
    fun i h₁ h₂ => hs.held i ⟨x, hx, hxm, h₁, h₂⟩⟩

omit [Image] in
theorem Sim.read {F : Fields} {H : ℕ → ℕ} {f : Field} (hs : Sim (G.view s.get m) s s' F H)
    (hf : f ≠ .prevfree) (hx : x ∈ G.blocks) : s'.get f x = F f x :=
  hs.get f x ⟨hx, fun he => absurd he hf⟩

theorem Inv.isFree_iff (h : Inv s G M) (hx : x ≠ 0 → x ∈ G.blocks ∧ x ≠ M) :
    isFree s x = true ↔ G.Listed x := by
  have hL := h.legal
  constructor
  · intro hf
    simp only [isFree, Bool.and_eq_true, decide_eq_true_eq] at hf
    obtain ⟨hxB, hxM⟩ := hx hf.1.1.1
    exact hL.marked x hxB hxM hf.1.2
  · intro hl
    have hxB := hL.listed_mem hl
    obtain ⟨h₁, h₂⟩ := hL.links_ne_zero hl
    simp [isFree, hL.ne_zero hxB, hL.ne_NONE hxB, h₁, h₂]

theorem Inv.next_mem (h : Inv s G M) (hm : m ∈ G.blocks) (hn : s.get .next m ≠ 0) :
    s.get .next m ∈ G.blocks ∧ s.get .next m = m + s.get .sz m ∧ s.get .next m ≠ m ∧
      s.get .prev (s.get .next m) = m := by
  obtain ⟨h₁, h₂, h₃⟩ := h.legal.chain.up m hm hn
  have := h.legal.chain.big m hm
  exact ⟨h₂, h₁, by omega, h₃⟩

theorem Inv.prev_mem (h : Inv s G M) (hm : m ∈ G.blocks) (hp : s.get .prev m ≠ 0) :
    s.get .prev m ∈ G.blocks ∧ s.get .prev m + s.get .sz (s.get .prev m) = m ∧
      s.get .prev m ≠ m ∧ s.get .next (s.get .prev m) = m := by
  obtain ⟨h₁, h₂⟩ := h.legal.chain.down m hm hp
  have hm0 := h.legal.ne_zero hm
  obtain ⟨h₃, -⟩ := h.legal.chain.up _ h₁ (h₂.symm ▸ hm0)
  have := h.legal.chain.big _ h₁
  exact ⟨h₁, by omega, by omega, h₂⟩

/-- What joining the block `b` to its lower neighbour `a` leaves. -/
structure Joined (s : Heap) (G : Layout) (a b : ℕ) (s' : Heap) (G' : Layout) (M : ℕ) : Prop where
  inv : Inv s' G' M
  lastsbrk : s'.lastsbrk = s.lastsbrk
  grants : s'.grants = s.grants
  blocks : G'.blocks = G.blocks \ {b}
  open_of : ∀ x, x ≠ 0 → G'.Open x → G.Open x ∧ x ≠ a ∧ x ≠ b
  sz : s'.get .sz a = s.get .sz a + s.get .sz b
  next : s'.get .next a = s.get .next b
  prev : s'.get .prev a = s.get .prev a
  data : ∀ x ∈ G.asg, ∀ i, x + 16 ≤ i → i < x + s.get .sz x → s'.mem i = s.mem i
  kept : ∀ x ∈ G.blocks, x ≠ a → s'.get .sz x = s.get .sz x

theorem Joined.asg (h : Joined s G a b s' G' M) (hG : Inv s G M') (hx : x ∈ G.asg) (hxb : x ≠ b) :
    x ∈ G'.asg :=
  ⟨h.blocks ▸ ⟨hx.1, hxb⟩, fun ho => hx.2 (h.open_of x (hG.legal.ne_zero hx.1) ho).1⟩

/-- The stores are those of taking the listed block `x` off its list and of
joining `b` to `a`, of which at most `x` was open. -/
theorem Inv.joined (h : Inv s G M) (hx : G.Listed x) (ha : a ∈ G.blocks) (hab : s.get .next a = b)
    (hb0 : b ≠ 0) (hoa : G.Open a → a = x) (hob : G.Open b → b = x)
    (hS : Sim (G.view s.get 0) s s' ((Fields.unlink s.get x).merge a b)
      (unlinkHdr s.get s.freehdrs (size2bucket (s.get .sz x)) x)) :
    Joined s G a b s' ((G.unlist (size2bucket (s.get .sz x)) x).remove b) M := by
  have hL := h.legal
  have hxB := hL.listed_mem hx
  have hbk := hL.mem_bucket hx
  have ha0 := hL.ne_zero ha
  obtain ⟨hbB, hadj, -, -⟩ := h.next_mem ha (hab ▸ hb0)
  rw [hab] at hbB hadj
  have hopen : ∀ y, (G.unlist (size2bucket (s.get .sz x)) x).Open y ↔ G.Open y ∧ y ≠ x :=
    fun y => hL.unlist_open hbk
  have hL₂ := (hL.unlink hbk).merge (a := a) (b := b) ha
    (fun ho => ((hopen a).mp ho).2 (hoa ((hopen a).mp ho).1)) (by simp [Fields.unlink, hab]) hb0
    (fun ho => ((hopen b).mp (.inr ho)).2 (hob ((hopen b).mp (.inr ho)).1))
  have hbl : b ≠ (G.unlist (size2bucket (s.get .sz x)) x).last := by
    intro he
    exact hL.listed_ne_last hx (hob (.inl he) ▸ he)
  rw [if_neg hbl] at hL₂
  refine ⟨?_, ?_, hS.grants, rfl, ?_, ?_, ?_, ?_, ?_, ?_⟩
  · exact h.after hS hL₂ (fun y hy => hy.1) (fun y hy => .inl ((hL.unlist_listed hbk).mp hy).1)
  · have := congrFun hS.hdr 0
    rw [Heap.lastsbrk, this, unlinkHdr, if_neg (Ne.symm (hL.bucket_ne_zero hxB))]
    rfl
  · intro y _ hy
    obtain ⟨h₁, h₂⟩ := (hopen y).mp hy
    exact ⟨h₁, fun he => h₂ (he.trans (hoa (he ▸ h₁))), fun he => h₂ (he.trans (hob (he ▸ h₁)))⟩
  · rw [hS.read (by decide) ha]
    simp [Fields.merge, Fields.unlink]
  · rw [hS.read (by decide) ha]
    simp [Fields.merge, Fields.unlink]
  · rw [hS.read (by decide) ha]
    have hne : a ≠ s.get .next b := by
      intro he
      obtain ⟨-, h₁, -⟩ := h.next_mem hbB (he ▸ ha0)
      have := hL.chain.big a ha
      omega
    simp [Fields.merge, Fields.unlink, hne]
  · intro y hy i h₁ h₂
    exact hS.held i ⟨y, hy, hL.ne_zero hy.1, h₁, h₂⟩
  · intro y hy hya
    rw [hS.read (by decide) hy]
    simp [Fields.merge, Fields.unlink, hya]

/-- The stores of `extractfree`, and what they leave to join. -/
theorem Inv.extract_sim (h : Inv s G M) (hx : G.Listed x) :
    Sim (G.view s.get 0) s (extractfree s x) (Fields.unlink s.get x)
      (unlinkHdr s.get s.freehdrs (size2bucket (s.get .sz x)) x) :=
  extractfree_sim (Sim.refl _ s) (h.legal.proper 0) (h.legal.linkable hx) (fun _ _ => le_rfl)
    (h.legal.bucket_lt (h.legal.listed_mem hx))

theorem Inv.extract_join (h : Inv s G M) (hx : G.Listed x) (ha : a ∈ G.blocks)
    (hab : s.get .next a = b) (hb0 : b ≠ 0) (hoa : G.Open a → a = x) (hob : G.Open b → b = x) :
    Joined s G a b (joinBlocks (extractfree s x) a b)
      ((G.unlist (size2bucket (s.get .sz x)) x).remove b) M := by
  have hbB := (h.next_mem ha (hab ▸ hb0)).1
  rw [hab] at hbB
  apply h.joined hx ha hab hb0 hoa hob
  have hF : ∀ f y, f ≠ .nextfree → f ≠ .prevfree → (Fields.unlink s.get x) f y = s.get f y := by
    intro f y h₁ h₂
    simp [Fields.unlink, h₁, h₂]
  apply joinBlocks_sim (h.extract_sim hx) (h.legal.proper 0) ha hbB
  · rw [hF _ _ (by decide) (by decide)]
    exact fun h0 => (h.next_mem hbB h0).1
  · intro y _
    rw [hF _ _ (by decide) (by decide)]
    exact le_rfl
  · rw [hF _ _ (by decide) (by decide), hF _ _ (by decide) (by decide)]
    have := h.legal.chain.merge_lt h.legal.ground ha hab hb0
    omega

theorem combinehi_eq (h : m ≠ 0 ∧ s.get .next m ≠ 0) (hback : s.get .prev (s.get .next m) = m) :
    combinehi s m = .ok (joinBlocks (if s.get .next m ≠ s.lastsbrk then
      extractfree s (s.get .next m) else s) m (s.get .next m), m) := by
  unfold combinehi
  rw [if_pos h]
  simp only [hback, ne_eq, not_true, if_false]
  rfl

theorem combinehi_listed (h : Inv s G M) (hl : s.lastsbrk = G.last) (hm : m ∈ G.asg)
    (hn : s.get .next m = n) (hnl : G.Listed n) :
    ∃ s' G', combinehi s m = .ok (s', m) ∧ Joined s G m n s' G' M ∧ G'.last = G.last := by
  have hnB := h.legal.listed_mem hnl
  have hn0 := h.legal.ne_zero hnB
  have hback := (h.next_mem hm.1 (hn ▸ hn0)).2.2.2
  rw [hn] at hback
  refine ⟨_, _, ?_, h.extract_join hnl hm.1 hn hn0 (fun ho => absurd ho hm.2) (fun _ => rfl), rfl⟩
  rw [combinehi_eq ⟨h.legal.ne_zero hm.1, hn ▸ hn0⟩ (hn.symm ▸ hback), hn, hl,
    if_pos (h.legal.listed_ne_last hnl)]

theorem combinelo_listed (h : Inv s G M) (hm : m ∈ G.asg) (hp : s.get .prev m = a)
    (hal : G.Listed a) (haM : a ≠ M) :
    ∃ s' G', combinelo s m = .ok (s', a) ∧ Joined s G a m s' G' M ∧ G'.last = G.last ∧
      a ∈ G'.asg := by
  have haB := h.legal.listed_mem hal
  have hm0 := h.legal.ne_zero hm.1
  obtain ⟨-, -, hne, hnext⟩ := h.prev_mem hm.1 (hp ▸ h.legal.ne_zero haB)
  rw [hp] at hnext hne
  have hJ := h.extract_join hal haB hnext hm0 (fun _ => rfl) (fun ho => absurd ho hm.2)
  refine ⟨_, _, ?_, hJ, rfl, ⟨hJ.blocks ▸ ⟨haB, hne⟩, ?_⟩⟩
  · unfold combinelo
    rw [if_pos]
    · simp only [hp, hnext, ne_eq, not_true, if_false]
      rfl
    · rw [hp, h.isFree_iff fun _ => ⟨haB, haM⟩]
      exact hal
  · exact fun ho => (hJ.open_of a (h.legal.ne_zero haB) ho).2.1 rfl

theorem combinehi_last (h : Inv s G M) (hl : s.lastsbrk = G.last) (hm : m ∈ G.asg)
    (hn : s.get .next m = n) (hnl : n = G.last) (hn0 : n ≠ 0) :
    ∃ s', combinehi s m = .ok (s', m) ∧
      Joined s G m n s' ((G.remove n).setLast 0) M ∧
      Sim (G.view s.get 0) s s' (Fields.merge s.get m n) s.freehdrs := by
  have hL := h.legal
  have hnB : n ∈ G.blocks := hnl ▸ (hL.last (hnl ▸ hn0)).1
  have hm0 := hL.ne_zero hm.1
  obtain ⟨-, hadj, hnm, hback⟩ := h.next_mem hm.1 (hn ▸ hn0)
  rw [hn] at hadj hnm hback
  have hV := hL.proper 0
  have hnn : s.get .next n = 0 := hnl ▸ (hL.last (hnl ▸ hn0)).2.1
  have hL₂ := hL.merge hm.1 hm.2 hn hn0 (fun ho => hL.listed_ne_last ho hnl)
  rw [if_pos hnl] at hL₂
  have hS₂ := joinBlocks_sim (a := m) (b := n) (Sim.refl (G.view s.get 0) s) hV hm.1 hnB
    (fun h0 => absurd hnn h0) (fun a _ => le_rfl)
    (by
      have := hL.chain.merge_lt hL.ground hm.1 hn hn0
      omega)
  refine ⟨joinBlocks s m n, ?_, ⟨?_, ?_, hS₂.grants, rfl, ?_, ?_, ?_, ?_, ?_, ?_⟩, hS₂⟩
  rotate_left
  · exact h.after hS₂ hL₂ (fun x hx => hx.1) (fun x hx => .inl hx)
  · exact congrFun hS₂.hdr 0
  · rintro x h0 (hx | hx)
    · exact absurd hx h0
    · exact ⟨.inr hx, fun he => hm.2 (.inr (he ▸ hx)),
        fun he => hL.listed_ne_last hx (he.trans hnl)⟩
  · rw [hS₂.read (by decide) hm.1]
    simp [Fields.merge]
  · rw [hS₂.read (by decide) hm.1]
    simp [Fields.merge]
  · rw [hS₂.read (by decide) hm.1]
    simp [Fields.merge, hnn, hm0]
  · intro x hx i h₁ h₂
    exact hS₂.held i ⟨x, hx, hL.ne_zero hx.1, h₁, h₂⟩
  · intro x hx hxm
    rw [hS₂.read (by decide) hx]
    simp [Fields.merge, hxm]
  · rw [combinehi_eq ⟨hm0, hn ▸ hn0⟩ (hn.symm ▸ hback), hn, hl, if_neg (not_not.mpr hnl)]

theorem Inv.log {e : Event} (h : Inv s G M) (he : e.Ok) : Inv (s.log e) G M := by
  refine ⟨h.legal, ?_, h.valid⟩
  intro e' hmem
  rcases List.mem_cons.mp hmem with rfl | hmem
  · exact he
  · exact h.clean e' hmem

theorem pushfree_inv (h : Inv s G M) (hm : m ∈ G.asg)
    (hM : M = m ∨ M = 0) (hn : s.get .next m ≠ 0 → ¬ G.Open (s.get .next m))
    (hp : s.get .prev m ≠ 0 → ¬ G.Open (s.get .prev m)) :
    Inv (pushfree s m) (G.list (size2bucket (s.get .sz m)) m) 0 ∧
      (pushfree s m).lastsbrk = s.lastsbrk ∧ (pushfree s m).grants = s.grants ∧
      (∀ f, f ≠ .nextfree → f ≠ .prevfree → ∀ x ∈ G.blocks, (pushfree s m).get f x = s.get f x) ∧
      ∀ x ∈ ({m}ᶜ : Set ℕ), x ∈ G.asg →
        x ∈ (G.list (size2bucket (s.get .sz m)) m).asg ∧ Keep s (pushfree s m) x := by
  have hL := h.legal
  have hV := hL.proper m
  have hm24 := hL.large m hm.1 fun he => hm.2 (.inl he)
  have hb0 := hL.bucket_ne_zero hm.1
  have hhead : s.freehdrs (size2bucket (s.get .sz m)) ≠ 0 →
      G.Listed (s.freehdrs (size2bucket (s.get .sz m))) := by
    rw [hL.lists.head _ hb0]
    intro h0
    exact ⟨_, (headD_eq_or_mem _).resolve_left h0⟩
  have hS := pushfree_sim (Sim.refl (G.view s.get m) s) hV (.inr ⟨rfl, hm.1, hm24⟩)
    (fun h0 => .inl (hhead h0)) (fun _ _ => le_rfl)
  have hlisted : ∀ x, (G.list (size2bucket (s.get .sz m)) m).Listed x → G.Listed x ∨ x = m := by
    rintro x ⟨i, hi⟩
    rcases mem_push.mp hi with hi | hi
    · exact .inl ⟨i, hi⟩
    · exact .inr hi.2
  refine ⟨h.after hS (hL.link hm.1 hm.2 hM hn hp rfl) (fun x hx => hx) ?_, ?_, hS.grants, ?_, ?_⟩
  · intro x hx
    rcases hlisted x hx with hx | rfl
    · exact .inl hx
    · exact .inr ⟨rfl, hm.1, hm24⟩
  · have := congrFun hS.hdr 0
    rw [Heap.lastsbrk, this, if_neg (Ne.symm hb0)]
    rfl
  · intro f h₁ h₂ x hx
    rw [hS.read h₂ hx]
    simp [Fields.link, h₁, h₂]
  · intro x hx hxa
    refine ⟨⟨hxa.1, ?_⟩, hS.keep hxa hx (by simp [Fields.link])⟩
    rintro (ho | ho)
    · exact hxa.2 (.inl ho)
    · rcases hlisted x ho with ho | ho
      · exact hxa.2 (.inr ho)
      · exact hx ho

theorem absorb_last (h : Inv s G M) (hl : s.lastsbrk = G.last) (hm : m ∈ G.asg)
    (hM : M = m ∨ M = 0) (hn : s.get .next m = G.last) (hl0 : G.last ≠ 0)
    (hp : s.get .prev m ≠ 0 → ¬ G.Open (s.get .prev m)) :
    ∃ s₁ G', combinehi s m = .ok (s₁, m) ∧
      Moves s G (((s₁.setLastsbrk m).set .prevfree m 0).set .nextfree m 0) G' 0 {m}ᶜ := by
  obtain ⟨s₁, hs₁, hJ, -⟩ := combinehi_last h hl hm hn rfl hl0
  have hL₁ := hJ.inv.legal
  have hml : ¬ G.Listed m := fun ho => hm.2 (.inr ho)
  have hmn : m ≠ G.last := fun he => hm.2 (.inl he)
  have hmB : m ∈ ((G.remove G.last).setLast 0).blocks := ⟨hm.1, hmn⟩
  obtain ⟨g, gs', hgs, hg₁, hg₂⟩ := h.legal.below_last hm.1 hn hl0
  have hV := hL₁.proper m
  have hm24 : 24 ≤ s₁.get .sz m := hL₁.large m hmB (hL₁.ne_zero hmB)
  have hcm : ∀ f, (((G.remove G.last).setLast 0).view s₁.get m).Cell f m :=
    fun f => ⟨hmB, fun _ => .inr ⟨rfl, hmB, hm24⟩⟩
  have hL₂ := (hL₁.clear (m := m) hml hM).appoint (m := m) rfl hmB hml
    (by simp [hJ.next, (h.legal.last hl0).2.1])
    ⟨g, gs', by rw [hJ.grants]; exact hgs, hg₁, by simp [hJ.sz]; omega⟩
    (by
      simp only [Fields.set_apply, reduceCtorEq, false_and, if_false, hJ.prev]
      intro h0 ho
      exact hp h0 (hJ.open_of _ h0 ho).1)
  have hS := ((Sim.refl (((G.remove G.last).setLast 0).view s₁.get m)
    (s₁.setLastsbrk m)).put hV.ok (v := 0) (hcm .prevfree) (by omega) le_rfl).put hV.ok (v := 0)
      (hcm .nextfree) (by omega) (by simp; exact le_rfl)
  refine ⟨s₁, ((G.remove G.last).setLast 0).setLast m, hs₁, ?_, ?_, ?_,
    fun _ => h.legal.ne_zero hm.1, ?_⟩
  · refine Inv.after (s := s₁.setLastsbrk m) (G := (G.remove G.last).setLast 0) (M := M)
      ⟨?_, hJ.inv.clean, hJ.inv.valid⟩ hS ?_ (fun x hx => hx) (fun x hx => .inl hx)
    · exact hL₁.congr (fun _ _ _ _ => rfl) (fun _ _ => rfl) (fun b hb => if_neg hb)
    · exact hL₂.congr (fun _ _ _ _ => rfl) (fun _ _ => rfl) (fun b hb => if_neg hb)
  · exact congrFun hS.hdr 0
  · exact hS.grants.trans hJ.grants
  · intro x hx hxa
    have hxl : x ≠ G.last := fun he => hxa.2 (.inl he)
    have hxa₁ := hJ.asg h hxa hxl
    refine ⟨⟨hxa₁.1, ?_⟩, ?_⟩
    · rintro (ho | ho)
      · exact hx ho
      · exact hxa.2 (.inr ho)
    · have hk : Keep s s₁ x := ⟨hJ.kept x hxa.1 hx, hJ.data x hxa⟩
      exact hk.trans (Sim.keep (s := s₁.setLastsbrk m) hS hxa₁ hx (by simp))

/-- The first step of `mv2freelist` and `dofree`: a listed upper neighbour is joined. -/
theorem join_upper (h : Inv s G M) (hl : s.lastsbrk = G.last) (hm : m ∈ G.asg)
    (hM : M = m ∨ M = 0) :
    ∃ s' G', (if isFree s (s.get .next m) then combinehi s m else .ok (s, m)) = .ok (s', m) ∧
      Moves s G s' G' M {m}ᶜ ∧ m ∈ G'.asg ∧ s'.get .prev m = s.get .prev m ∧
      (∀ x, x ≠ 0 → G'.Open x → G.Open x) ∧ ¬ G'.Listed (s'.get .next m) := by
  have hL := h.legal
  have hfree := h.isFree_iff (x := s.get .next m) fun h0 => by
    obtain ⟨h₁, -, h₂, -⟩ := h.next_mem hm.1 h0
    refine ⟨h₁, ?_⟩
    rcases hM with rfl | rfl
    · exact h₂
    · exact hL.ne_zero h₁
  by_cases hf : isFree s (s.get .next m) = true
  · have hnl := hfree.mp hf
    have hnB := hL.listed_mem hnl
    obtain ⟨s₁, G₁, hs₁, hJ, hG₁⟩ := combinehi_listed h hl hm rfl hnl
    refine ⟨s₁, G₁, (if_pos hf).trans hs₁, ⟨hJ.inv, ?_, hJ.grants, hG₁ ▸ id, ?_⟩, ?_, hJ.prev,
      fun x hx ho => (hJ.open_of x hx ho).1, ?_⟩
    · rw [hJ.lastsbrk, hG₁, hl]
    · intro x hx hxa
      have hxn : x ≠ s.get .next m := fun he => hxa.2 (.inr (he ▸ hnl))
      exact ⟨hJ.asg h hxa hxn, hJ.kept x hxa.1 hx, hJ.data x hxa⟩
    · exact hJ.asg h hm (Ne.symm (h.next_mem hm.1 (hL.ne_zero hnB)).2.2.1)
    · -- two listed blocks are never neighbours
      intro ho
      have h0 := hJ.inv.legal.ne_zero (hJ.inv.legal.listed_mem ho)
      have ho' := (hJ.open_of _ h0 (.inr ho)).1
      rw [hJ.next] at h0 ho'
      exact hL.apart _ hnB h0 ⟨.inr hnl, ho'⟩
  · exact ⟨s, G, if_neg hf, ⟨h, hl, rfl, id, fun x _ hx => ⟨hx, rfl, fun _ _ _ => rfl⟩⟩, hm, rfl,
      fun _ _ ho => ho, fun ho => hf (hfree.mpr ho)⟩

/-- `mv2freelist` after the upper neighbour has been dealt with. -/
theorem mv2freelist_eq {s₁ : Heap} {m₁ : ℕ} (hm0 : m ≠ 0)
    (hc : (if isFree s (s.get .next m) then combinehi s m else .ok (s, m)) = .ok (s₁, m₁)) :
    mv2freelist s m =
      if s₁.lastsbrk ≠ 0 ∧ s₁.get .next m₁ = s₁.lastsbrk then do
        let (s, m) ← combinehi (s₁.log (.bucket (size2bucket (s₁.get .sz m₁)))) m₁
        .ok (((s.setLastsbrk m).set .prevfree m 0).set .nextfree m 0)
      else .ok (pushfree (s₁.log (.bucket (size2bucket (s₁.get .sz m₁)))) m₁) := by
  unfold mv2freelist
  rw [if_neg hm0]
  split_ifs at hc with hf
  · simp only [if_pos hf, hc]
    rfl
  · obtain ⟨rfl, rfl⟩ := Prod.mk.inj (Except.ok.inj hc)
    simp only [if_neg hf]
    rfl

theorem mv2freelist_moves (h : Inv s G M) (hl : s.lastsbrk = G.last) (hm : m ∈ G.asg)
    (hM : M = m ∨ M = 0) (hp : s.get .prev m ≠ 0 → ¬ G.Open (s.get .prev m)) :
    ∃ s' G', mv2freelist s m = .ok s' ∧ Moves s G s' G' 0 {m}ᶜ := by
  obtain ⟨s₁, G₁, hs₁, hmv₁, hm₁, hprev, hopen, hnl⟩ := join_upper h hl hm hM
  rw [mv2freelist_eq (h.legal.ne_zero hm.1) hs₁]
  have h₁ := hmv₁.inv.log (e := .bucket (size2bucket (s₁.get .sz m)))
    (hmv₁.inv.legal.bucket_lt hm₁.1)
  have hp₁ : s₁.get .prev m ≠ 0 → ¬ G₁.Open (s₁.get .prev m) := by
    rw [hprev]
    exact fun h0 ho => hp h0 (hopen _ h0 ho)
  by_cases hlast : s₁.lastsbrk ≠ 0 ∧ s₁.get .next m = s₁.lastsbrk
  · rw [if_pos hlast]
    obtain ⟨s₂, G₂, hs₂, hmv⟩ := absorb_last h₁ hmv₁.last hm₁ hM (hlast.2.trans hmv₁.last)
      (hmv₁.last ▸ hlast.1) hp₁
    rw [hs₂]
    exact ⟨_, _, rfl, hmv₁.trans ⟨hmv.inv, hmv.last, hmv.grants, hmv.alive, hmv.frame⟩⟩
  · rw [if_neg hlast]
    obtain ⟨hinv, hl₂, hg₂, -, hfr⟩ := pushfree_inv h₁ hm₁ hM
      (by
        rintro h0 (ho | ho)
        · have ho' : s₁.get .next m = G₁.last := ho
          exact hlast ⟨hmv₁.last ▸ ho' ▸ h0, ho'.trans hmv₁.last.symm⟩
        · exact hnl ho) hp₁
    exact ⟨_, _, rfl, hmv₁.trans ⟨hinv, hl₂.trans hmv₁.last, hg₂, id, hfr⟩⟩

theorem dofree_eq {s₁ s₂ s₃ : Heap} {m₂ m₃ : ℕ}
    (h₁ : s₁ = (s.set .prevfree m NONE).set .nextfree m NONE)
    (h₂ : (if isFree s₁ (s₁.get .next m) then combinehi s₁ m else .ok (s₁, m)) = .ok (s₂, m₂))
    (h₃ : (if isFree s₂ (s₂.get .prev m₂) then combinelo s₂ m₂ else .ok (s₂, m₂)) =
      .ok (s₃, m₃)) :
    dofree s m = if s₃.lastsbrk ≠ 0 ∧ s₃.lastsbrk = s₃.get .prev m₃ then .ok s₃
      else mv2freelist s₃ m₃ := by
  unfold dofree
  simp only [← h₁]
  split_ifs at h₂ with hf₂
  · simp only [if_pos hf₂, h₂]
    split_ifs at h₃ with hf₃
    · change (if isFree s₂ (s₂.get .prev m₂) = true then _ else _) = _
      rw [if_pos hf₃, h₃]
      rfl
    · obtain ⟨rfl, rfl⟩ := Prod.mk.inj (Except.ok.inj h₃)
      change (if isFree s₂ (s₂.get .prev m₂) = true then _ else _) = _
      rw [if_neg hf₃]
      rfl
  · obtain ⟨rfl, rfl⟩ := Prod.mk.inj (Except.ok.inj h₂)
    simp only [if_neg hf₂]
    split_ifs at h₃ with hf₃
    · change (if isFree s₁ (s₁.get .prev m) = true then _ else _) = _
      rw [if_pos hf₃, h₃]
      rfl
    · obtain ⟨rfl, rfl⟩ := Prod.mk.inj (Except.ok.inj h₃)
      change (if isFree s₁ (s₁.get .prev m) = true then _ else _) = _
      rw [if_neg hf₃]
      rfl

theorem dofree_moves (h : Inv s G 0) (hl : s.lastsbrk = G.last) (hm : m ∈ G.asg) :
    ∃ s' G', dofree s m = .ok s' ∧ Moves s G s' G' 0 {m}ᶜ := by
  have hL := h.legal
  have hml : ¬ G.Listed m := fun ho => hm.2 (.inr ho)
  -- the block is marked while it is on no list
  obtain ⟨s₁, hs₁⟩ : ∃ s₁, s₁ = (s.set .prevfree m NONE).set .nextfree m NONE := ⟨_, rfl⟩
  have hmv₁ : Moves s G s₁ G m {m}ᶜ := by
    have hV := hL.proper m
    have hcm : ∀ f, (G.view s.get m).Cell f m :=
      fun f => ⟨hm.1, fun _ => .inr ⟨rfl, hm.1, hL.large m hm.1 fun he => hm.2 (.inl he)⟩⟩
    have hS := ((Sim.refl (G.view s.get m) s).put hV.ok (hcm .prevfree) NONE_lt le_rfl).put hV.ok
      (hcm .nextfree) NONE_lt (by simp; exact le_rfl)
    rw [← hs₁] at hS
    refine ⟨h.after hS (hL.mark hml _ _) (fun x hx => hx) (fun x hx => .inl hx), ?_, hS.grants, id,
      ?_⟩
    · exact (congrFun hS.hdr 0).trans hl
    · exact fun x hx hxa => ⟨hxa, hS.keep hxa hx (by simp)⟩
  obtain ⟨s₂, G₂, hs₂, hmv₂, hm₂, hprev, hopen, -⟩ := join_upper hmv₁.inv hmv₁.last hm (.inl rfl)
  have hmv₁₂ := hmv₁.trans hmv₂
  have h₂ := hmv₂.inv
  have hne : s₂.get .prev m ≠ 0 → s₂.get .prev m ∈ G₂.blocks ∧ s₂.get .prev m ≠ m :=
    fun h0 => ⟨(h₂.prev_mem hm₂.1 h0).1, (h₂.prev_mem hm₂.1 h0).2.2.1⟩
  -- the end block has nothing above it, so it is no lower neighbour
  have hnlast : ∀ {t : Heap} {K : Layout} {N y : ℕ}, Inv t K N → t.lastsbrk = K.last →
      y ∈ K.blocks → ¬ (t.lastsbrk ≠ 0 ∧ t.lastsbrk = t.get .prev y) := by
    rintro t K N y ht htl hy ⟨h0, he⟩
    obtain ⟨-, -, -, h₃⟩ := ht.prev_mem hy (he ▸ h0)
    rw [← he, htl, (ht.legal.last (htl ▸ h0)).2.1] at h₃
    exact ht.legal.ne_zero hy h₃.symm
  by_cases hf : isFree s₂ (s₂.get .prev m) = true
  · have hal := (h₂.isFree_iff hne).mp hf
    have haB := h₂.legal.listed_mem hal
    obtain ⟨s₃, G₃, hs₃, hJ, hG₃, ha₃⟩ := combinelo_listed h₂ hm₂ rfl hal
      (hne (h₂.legal.ne_zero haB)).2
    have hinv₃ : Inv s₃ G₃ 0 :=
      ⟨hJ.inv.legal.unmark (by rw [hJ.blocks]; simp), hJ.inv.clean, hJ.inv.valid⟩
    have hl₃ : s₃.lastsbrk = G₃.last := by rw [hJ.lastsbrk, hG₃, hmv₂.last]
    obtain ⟨s₄, G₄, hs₄, hmv₄⟩ := mv2freelist_moves hinv₃ hl₃ ha₃ (.inr rfl) (by
      rw [hJ.prev]
      intro h0 ho
      obtain ⟨hpB, -, -, hpn⟩ := h₂.prev_mem haB h0
      refine h₂.legal.apart _ hpB (hpn.symm ▸ h₂.legal.ne_zero haB) ⟨(hJ.open_of _ h0 ho).1, ?_⟩
      rw [hpn]
      exact .inr hal)
    refine ⟨s₄, G₄, ?_, hmv₄.inv, hmv₄.last, ?_,
      fun h0 => hmv₄.alive (hG₃.symm ▸ hmv₁₂.alive h0), ?_⟩
    · rw [dofree_eq hs₁ hs₂ ((if_pos hf).trans hs₃), if_neg (hnlast hinv₃ hl₃ ha₃.1)]
      exact hs₄
    · rw [hmv₄.grants, hJ.grants, hmv₁₂.grants]
    · intro x hx hxa
      obtain ⟨hx₂, hk₂⟩ := hmv₁₂.frame x hx hxa
      have hxp : x ≠ s₂.get .prev m := fun he => hx₂.2 (.inr (he ▸ hal))
      have hx₃ := hJ.asg h₂ hx₂ hx
      obtain ⟨hx₄, hk₄⟩ := hmv₄.frame x hxp hx₃
      exact ⟨hx₄, hk₂.trans (Keep.trans ⟨hJ.kept x hx₂.1 hxp, hJ.data x hx₂⟩ hk₄)⟩
  · obtain ⟨s₄, G₄, hs₄, hmv₄⟩ := mv2freelist_moves h₂ hmv₂.last hm₂ (.inl rfl) (by
      rintro h0 (ho | ho)
      · exact hnlast h₂ hmv₂.last hm₂.1
          ⟨hmv₂.last ▸ ho ▸ h0, hmv₂.last.trans ho.symm⟩
      · exact hf ((h₂.isFree_iff hne).mpr ho))
    refine ⟨s₄, G₄, ?_, hmv₁₂.trans hmv₄⟩
    rw [dofree_eq hs₁ hs₂ (if_neg hf), if_neg (hnlast h₂ hmv₂.last hm₂.1)]
    exact hs₄

end DjgppLibc.NewMalloc
