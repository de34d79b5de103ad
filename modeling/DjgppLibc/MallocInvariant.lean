import DjgppLibc.MallocStores

/-!
# The heap invariant

A layout names the blocks of a heap, the members of its free lists and the
block at the end of the newest group. `Legal` says that header fields and list
headers fit a layout: the chains are in order, the lists are linked and sorted
by bucket, no two neighbours are both open, and only the end block may be
smaller than MINSAVE. It speaks of field functions, so each edit is checked
without mentioning memory. One block `M` may carry a free mark while it is on
no list; `dofree` passes through such a state.
-/
namespace DjgppLibc.NewMalloc
open LinkedLists

structure Layout where
  blocks : Set ℕ
  free : ℕ → List ℕ
  last : ℕ

namespace Layout

def Listed (G : Layout) (x : ℕ) : Prop := ∃ b, x ∈ G.free b

def Open (G : Layout) (x : ℕ) : Prop := x = G.last ∨ G.Listed x

def asg (G : Layout) : Set ℕ := {x | x ∈ G.blocks ∧ ¬ G.Open x}

/-- The layout without the block `x`, which was joined to its predecessor. -/
def remove (G : Layout) (x : ℕ) : Layout := { G with blocks := G.blocks \ {x} }

def insert (G : Layout) (x : ℕ) : Layout := { G with blocks := Insert.insert x G.blocks }

def unlist (G : Layout) (b x : ℕ) : Layout := { G with free := drop G.free b x }

def list (G : Layout) (b x : ℕ) : Layout := { G with free := push G.free b x }

def setLast (G : Layout) (x : ℕ) : Layout := { G with last := x }

end Layout

/-- The field functions `F` and list headers `H` fit the layout. -/
structure Legal [Image] (F : Fields) (H : ℕ → ℕ) (gs : List (ℕ × ℕ)) (G : Layout) (M : ℕ) :
    Prop where
  ground : Ground gs
  chain : Chain F gs G.blocks
  lists : Lists F H G.free
  listed : ∀ b, ∀ x ∈ G.free b, x ∈ G.blocks ∧ b = size2bucket (F .sz x) ∧ x ≠ G.last
  marked : ∀ x ∈ G.blocks, x ≠ M → F .nextfree x ≠ 0 → G.Listed x
  large : ∀ x ∈ G.blocks, x ≠ G.last → 24 ≤ F .sz x
  last : G.last ≠ 0 → G.last ∈ G.blocks ∧ F .next G.last = 0 ∧
    ∃ g gs', gs = g :: gs' ∧ g.1 ≤ G.last ∧ G.last + F .sz G.last = g.2
  apart : ∀ x ∈ G.blocks, F .next x ≠ 0 → ¬ (G.Open x ∧ G.Open (F .next x))

namespace Legal
variable [Image] {F F' : Fields} {H H' : ℕ → ℕ} {gs : List (ℕ × ℕ)} {G : Layout}
  {M a b x y m k : ℕ}

theorem congr (h : Legal F H gs G M)
    (hF : ∀ f, f ≠ .prevfree → ∀ x ∈ G.blocks, F' f x = F f x)
    (hp : ∀ x, G.Listed x → F' .prevfree x = F .prevfree x)
    (hH : ∀ b, b ≠ 0 → H' b = H b) : Legal F' H' gs G M := by
  have hB : ∀ b, ∀ x ∈ G.free b, x ∈ G.blocks := fun b x hx => (h.listed b x hx).1
  refine ⟨h.ground, ?_, ?_, ?_, ?_, ?_, ?_, ?_⟩
  · exact h.chain.congr (hF _ (by decide)) (hF _ (by decide)) (hF _ (by decide))
  · exact h.lists.congr (fun b x hx => hF _ (by decide) x (hB b x hx))
      (fun b x hx => hp x ⟨b, hx⟩) hH
  · intro b x hx
    rw [hF .sz (by decide) x (hB b x hx)]
    exact h.listed b x hx
  · intro x hx hM
    rw [hF .nextfree (by decide) x hx]
    exact h.marked x hx hM
  · intro x hx
    rw [hF .sz (by decide) x hx]
    exact h.large x hx
  · intro h0
    obtain ⟨h₁, h₂, h₃⟩ := h.last h0
    rw [hF .next (by decide) _ h₁, hF .sz (by decide) _ h₁]
    exact ⟨h₁, h₂, h₃⟩
  · intro x hx
    rw [hF .next (by decide) x hx]
    exact h.apart x hx

section
variable (h : Legal F H gs G M)
include h

theorem listed_mem (hx : G.Listed x) : x ∈ G.blocks := by
  obtain ⟨b, hb⟩ := hx
  exact (h.listed b x hb).1

theorem listed_ne_last (hx : G.Listed x) : x ≠ G.last := by
  obtain ⟨b, hb⟩ := hx
  exact (h.listed b x hb).2.2

theorem mem_bucket (hx : G.Listed x) :
    x ∈ G.free (size2bucket (F .sz x)) := by
  obtain ⟨b, hb⟩ := hx
  rw [← (h.listed b x hb).2.1]
  exact hb

theorem bucket_lt (hx : x ∈ G.blocks) : size2bucket (F .sz x) < 32 :=
  size2bucket_lt (h.chain.sz_lt h.ground hx)

theorem bucket_ne_zero (hx : x ∈ G.blocks) :
    size2bucket (F .sz x) ≠ 0 := by
  have h₁ := h.chain.sz_lt h.ground hx
  have h₂ := h.chain.big x hx
  exact size2bucket_ne_zero (by omega) (by omega)

theorem ne_zero (hx : x ∈ G.blocks) : x ≠ 0 := by
  have := h.chain.pos h.ground hx
  omega

theorem ne_NONE (hx : x ∈ G.blocks) : x ≠ NONE :=
  h.chain.ne_NONE h.ground hx

theorem large_listed (hx : G.Listed x) : 24 ≤ F .sz x :=
  h.large x (h.listed_mem hx) (h.listed_ne_last hx)

/-- The links of a listed block. -/
theorem links (hx : G.Listed x) :
    (F .nextfree x = NONE ∨ G.Listed (F .nextfree x) ∧ F .nextfree x ≠ x) ∧
      (F .prevfree x = NONE ∨ G.Listed (F .prevfree x) ∧ F .prevfree x ≠ x) := by
  obtain ⟨b, hb⟩ := hx
  obtain ⟨h₁, h₂⟩ := (h.lists.linked b).neighbours hb
  exact ⟨h₁.imp_right fun h' => ⟨⟨b, h'.1⟩, h'.2⟩, h₂.imp_right fun h' => ⟨⟨b, h'.1⟩, h'.2⟩⟩

theorem links_ne_zero (hx : G.Listed x) :
    F .nextfree x ≠ 0 ∧ F .prevfree x ≠ 0 := by
  have hN := NONE_ne_zero
  obtain ⟨h₁, h₂⟩ := h.links hx
  constructor
  · rcases h₁ with h₁ | h₁
    · exact h₁ ▸ hN
    · exact h.ne_zero (h.listed_mem h₁.1)
  · rcases h₂ with h₂ | h₂
    · exact h₂ ▸ hN
    · exact h.ne_zero (h.listed_mem h₂.1)

theorem below_last (hm : m ∈ G.blocks) (hn : F .next m = G.last) (hl : G.last ≠ 0) :
    ∃ g gs', gs = g :: gs' ∧ g.1 ≤ m ∧ m + (F .sz m + F .sz G.last) = g.2 := by
  obtain ⟨h₁, h₂, g, gs', hgs, h₃, h₄⟩ := h.last hl
  obtain ⟨g', hg', h₅, h₆, -⟩ := h.chain.pair_home h.ground hm hn hl
  have hadj := (h.chain.up m hm (hn.symm ▸ hl)).1
  have hbig := h.chain.big _ h₁
  have heq := h.ground.unique (g := g) (i := G.last) (by simp [hgs]) hg' h₃ (by omega) (by omega)
    (by omega)
  subst heq
  exact ⟨g, gs', hgs, h₅, by omega⟩

theorem unlist_listed (hx : x ∈ G.free b) :
    (G.unlist b x).Listed y ↔ G.Listed y ∧ y ≠ x := by
  have hd : ∀ i, (G.free i).Nodup := fun i => (h.lists.linked i).nodup
  constructor
  · rintro ⟨i, hi⟩
    rw [Layout.unlist, mem_drop hd] at hi
    refine ⟨⟨i, hi.1⟩, ?_⟩
    rintro rfl
    by_cases hib : i = b
    · exact hi.2 ⟨hib, rfl⟩
    · exact h.lists.apart i b hib _ hi.1 hx
  · rintro ⟨⟨i, hi⟩, hne⟩
    exact ⟨i, (mem_drop hd).mpr ⟨hi, fun hc => hne hc.2⟩⟩

theorem unlist_open (hx : x ∈ G.free b) :
    (G.unlist b x).Open y ↔ G.Open y ∧ y ≠ x := by
  unfold Layout.Open
  rw [h.unlist_listed hx]
  have hl := (h.listed b x hx).2.2
  constructor
  · rintro (hy | hy)
    · exact ⟨.inl hy, fun he => hl (he ▸ hy)⟩
    · exact ⟨.inr hy.1, hy.2⟩
  · rintro ⟨hy | hy, hne⟩
    · exact .inl hy
    · exact .inr ⟨hy, hne⟩

theorem delist (hx : x ∈ G.free b) (hc : ∀ f, f ≠ .nextfree → f ≠ .prevfree → F' f = F f)
    (hnp : F .prevfree x ≠ NONE → F' .nextfree (F .prevfree x) = F .nextfree x)
    (hpn : F .nextfree x ≠ NONE → F' .prevfree (F .nextfree x) = F .prevfree x)
    (hn : ∀ y, y ≠ x → y ≠ F .prevfree x → F' .nextfree y = F .nextfree y)
    (hp : ∀ y, y ≠ x → y ≠ F .nextfree x → F' .prevfree y = F .prevfree y)
    (hx0 : F' .nextfree x = 0) (hH : H' = unlinkHdr F H b x) :
    Legal F' H' gs (G.unlist b x) M := by
  have hl : G.Listed x := ⟨b, hx⟩
  have hb : b ≠ 0 := by
    rw [(h.listed b x hx).2.1]
    exact h.bucket_ne_zero (h.listed_mem hl)
  have hd : ∀ i, (G.free i).Nodup := fun i => (h.lists.linked i).nodup
  have hcn := hc .next (by decide) (by decide)
  have hcs := hc .sz (by decide) (by decide)
  have hcp := hc .prev (by decide) (by decide)
  refine ⟨h.ground, ?_, h.lists.remove hb hx hnp hpn hn hp hH, ?_, ?_, ?_, ?_, ?_⟩
  · exact h.chain.congr (fun x _ => by rw [hcp]) (fun x _ => by rw [hcn]) (fun x _ => by rw [hcs])
  · intro i y hy
    rw [hcs]
    exact h.listed i y ((mem_drop hd).mp hy).1
  · intro y hy hM hne
    have hyx : y ≠ x := by
      rintro rfl
      exact hne hx0
    rw [h.unlist_listed hx]
    refine ⟨?_, hyx⟩
    by_cases hyp : y = F .prevfree x
    · rcases (h.links hl).2 with hN | hN
      · exact absurd (hyp.trans hN) (h.ne_NONE hy)
      · exact hyp ▸ hN.1
    · rw [hn y hyx hyp] at hne
      exact h.marked y hy hM hne
  · rw [hcs]
    exact h.large
  · rw [hcn, hcs]
    exact h.last
  · intro y hy hne
    rw [hcn] at hne ⊢
    rw [h.unlist_open hx, h.unlist_open hx]
    exact fun ho => h.apart y hy hne ⟨ho.1.1, ho.2.1⟩

theorem unlink (hx : x ∈ G.free b) :
    Legal (F.unlink x) (unlinkHdr F H b x) gs (G.unlist b x) M := by
  obtain ⟨hn, hp⟩ := h.links ⟨b, hx⟩
  apply h.delist hx
  · intro f h₁ h₂
    funext y
    simp [Fields.unlink, h₁, h₂]
  · intro hne
    simp [Fields.unlink, (hp.resolve_left hne).2]
  · intro hne
    simp [Fields.unlink, (hn.resolve_left hne).2]
  · intro y h₁ h₂
    simp [Fields.unlink, h₁, h₂]
  · intro y h₁ h₂
    simp [Fields.unlink, h₁, h₂]
  · simp [Fields.unlink]
  · rfl

theorem pop (hx : x ∈ G.free b) (hhead : F .prevfree x = NONE) :
    Legal (F.pop x) (unlinkHdr F H b x) gs (G.unlist b x) M := by
  obtain ⟨hn, -⟩ := h.links ⟨b, hx⟩
  apply h.delist hx
  · intro f h₁ h₂
    funext y
    simp [Fields.pop, h₁, h₂]
  · exact fun hne => absurd hhead hne
  · intro hne
    simp [Fields.pop, hhead]
  · intro y h₁ h₂
    simp [Fields.pop, h₁]
  · intro y h₁ h₂
    simp [Fields.pop, h₂]
  · simp [Fields.pop]
  · rfl

theorem link (hm : m ∈ G.blocks) (hmO : ¬ G.Open m)
    (hM : M = m ∨ M = 0) (hnext : F .next m ≠ 0 → ¬ G.Open (F .next m))
    (hprev : F .prev m ≠ 0 → ¬ G.Open (F .prev m)) (hb : b = size2bucket (F .sz m)) :
    Legal (F.link m (H b)) (fun i => if i = b then m else H i) gs (G.list b m) 0 := by
  have hl : ∀ y, (G.list b m).Listed y ↔ G.Listed y ∨ y = m := by
    intro y
    unfold Layout.Listed Layout.list
    simp only [mem_push]
    constructor
    · rintro ⟨i, hi | hi⟩
      · exact .inl ⟨i, hi⟩
      · exact .inr hi.2
    · rintro (⟨i, hi⟩ | hi)
      · exact ⟨i, .inl hi⟩
      · exact ⟨b, .inr ⟨rfl, hi⟩⟩
  have ho : ∀ y, (G.list b m).Open y ↔ G.Open y ∨ y = m := by
    intro y
    unfold Layout.Open
    rw [hl, or_assoc]
    rfl
  have hml : ∀ i, m ∉ G.free i := fun i hi => hmO (.inr ⟨i, hi⟩)
  have hb0 : b ≠ 0 := hb ▸ h.bucket_ne_zero hm
  have hcn : (F.link m (H b)) .next = F .next := by
    funext y
    simp [Fields.link]
  have hcs : (F.link m (H b)) .sz = F .sz := by
    funext y
    simp [Fields.link]
  have hcp : (F.link m (H b)) .prev = F .prev := by
    funext y
    simp [Fields.link]
  refine ⟨h.ground, ?_, ?_, ?_, ?_, ?_, ?_, ?_⟩
  · exact h.chain.congr (fun x _ => by rw [hcp]) (fun x _ => by rw [hcn]) (fun x _ => by rw [hcs])
  · exact h.lists.link hb0 hml (h.ne_NONE hm) (h.ne_zero hm)
      fun i hi => h.ne_zero (h.listed i 0 hi).1 rfl
  · intro i y hy
    rw [hcs]
    rcases mem_push.mp hy with hy | ⟨rfl, rfl⟩
    · exact h.listed i y hy
    · exact ⟨hm, hb, fun he => hmO (.inl he)⟩
  · intro y hy hy0 hne
    rw [hl]
    by_cases hym : y = m
    · exact .inr hym
    · left
      have : (F.link m (H b)) .nextfree y = F .nextfree y := by simp [Fields.link, hym]
      rw [this] at hne
      refine h.marked y hy ?_ hne
      rcases hM with rfl | rfl
      · exact hym
      · exact hy0
  · rw [hcs]
    exact h.large
  · rw [hcn, hcs]
    exact h.last
  · intro y hy hne
    rw [hcn] at hne ⊢
    rw [ho, ho]
    rintro ⟨hy₁ | hy₁, hy₂ | hy₂⟩
    · exact h.apart y hy hne ⟨hy₁, hy₂⟩
    · -- the member lies above an open block
      have := (h.chain.up y hy hne).2.2
      rw [hy₂] at this
      rw [← this] at hy₁
      exact hprev (this.symm ▸ h.ne_zero hy) hy₁
    · rw [hy₁] at hy₂ hne
      exact hnext hne hy₂
    · have := (h.chain.up y hy hne).1
      have := h.chain.big y hy
      omega

theorem merge (ha : a ∈ G.blocks) (haO : ¬ G.Open a) (hb : F .next a = b)
    (hb0 : b ≠ 0) (hbl : ¬ G.Listed b) :
    Legal (F.merge a b) H gs ((G.remove b).setLast (if b = G.last then 0 else G.last)) M:= by
  obtain ⟨hb₁, hbB, hb₂⟩ := h.chain.up a ha (hb ▸ hb0)
  rw [hb] at hb₁ hbB hb₂
  have hal : a ≠ G.last := fun he => haO (.inl he)
  have hn : ∀ x, (F.merge a b) .next x = if x = a then F .next b else F .next x := by
    simp [Fields.merge]
  have hs : ∀ x, (F.merge a b) .sz x = if x = a then F .sz a + F .sz b else F .sz x := by
    simp [Fields.merge]
  have hf : (F.merge a b) .nextfree = F .nextfree := by
    funext x
    simp [Fields.merge]
  have hp : (F.merge a b) .prevfree = F .prevfree := by
    funext x
    simp [Fields.merge]
  have hla : ∀ i, a ∉ G.free i := fun i hi => haO (.inr ⟨i, hi⟩)
  have hlb : ∀ i, b ∉ G.free i := fun i hi => hbl ⟨i, hi⟩
  -- opening can only get lost
  have ho : ∀ x, x ≠ 0 →
      ((G.remove b).setLast (if b = G.last then 0 else G.last)).Open x → G.Open x := by
    rintro x hx0 (hx | hx)
    · simp only [Layout.setLast] at hx
      split_ifs at hx
      · exact absurd hx hx0
      · exact .inl hx
    · exact .inr hx
  refine ⟨h.ground, h.chain.merge h.ground ha hb hb0, ?_, ?_, ?_, ?_, ?_, ?_⟩
  · exact h.lists.congr (fun _ x _ => by rw [hf]) (fun _ x _ => by rw [hp]) (fun _ _ => rfl)
  · intro i x hx
    obtain ⟨h₁, h₂, h₃⟩ := h.listed i x hx
    have hxa : x ≠ a := fun he => hla i (he ▸ hx)
    rw [hs, if_neg hxa]
    refine ⟨⟨h₁, fun he => hlb i (Set.mem_singleton_iff.mp he ▸ hx)⟩, h₂, ?_⟩
    simp only [Layout.setLast]
    split_ifs
    · exact h.ne_zero h₁
    · exact h₃
  · intro x hx hM hne
    rw [hf] at hne
    exact h.marked x hx.1 hM hne
  · intro x hx hne
    have hxb : x ≠ b := hx.2
    have hxl : x ≠ G.last := by
      simp only [Layout.setLast] at hne
      split_ifs at hne with hbl'
      · exact hbl' ▸ hxb
      · exact hne
    have h₁ := h.large x hx.1 hxl
    rw [hs]
    split_ifs with he
    · subst he
      omega
    · exact h₁
  · simp only [Layout.setLast, Layout.remove]
    split_ifs with hbl'
    · exact fun h => absurd rfl h
    · intro h0
      obtain ⟨h₁, h₂, h₃⟩ := h.last h0
      rw [hn, if_neg (Ne.symm hal), hs, if_neg (Ne.symm hal)]
      exact ⟨⟨h₁, fun he => hbl' (Set.mem_singleton_iff.mp he).symm⟩, h₂, h₃⟩
  · intro x hx hne
    rw [hn] at hne ⊢
    rintro ⟨hx₁, hx₂⟩
    have hx₁' := ho x (h.ne_zero hx.1) hx₁
    by_cases he : x = a
    · exact haO (he ▸ hx₁')
    · rw [if_neg he] at hne hx₂
      exact h.apart x hx.1 hne ⟨hx₁', ho _ hne hx₂⟩

theorem cut (ha : a ∈ G.blocks) (hal : ¬ G.Listed a)
    (hf : F .nextfree a = 0) (hk8 : k % 8 = 0) (hk : 24 ≤ k) {l : ℕ}
    (hcase : (l = G.last ∧ a ≠ G.last ∧ k + 24 ≤ F .sz a) ∨
      (l = a + k ∧ (G.last = a ∨ G.last = 0) ∧ k + 16 ≤ F .sz a ∧ F .next a = 0 ∧
        ∃ g gs', gs = g :: gs' ∧ g.1 ≤ a ∧ a + F .sz a = g.2)) :
    Legal (F.split a k) H gs ((G.insert (a + k)).setLast l) M := by
  have hk' : k + 16 ≤ F .sz a := by
    rcases hcase with h' | h'
    · omega
    · exact h'.2.2.1
  have hu := h.chain.cut_fresh ha (by omega) hk'
  have hne : ∀ x ∈ G.blocks, x ≠ a + k := fun x hx he => hu (he ▸ hx)
  have hn : ∀ x, (F.split a k) .next x =
      if x = a then a + k else if x = a + k then F .next a else F .next x := by
    simp [Fields.split]
  have hs : ∀ x, (F.split a k) .sz x =
      if x = a then k else if x = a + k then F .sz a - k else F .sz x := by
    simp [Fields.split]
  have hfr : ∀ x, (F.split a k) .nextfree x =
      if x = a ∨ x = a + k then 0 else F .nextfree x := by
    intro x
    by_cases h₁ : x = a <;> by_cases h₂ : x = a + k <;> simp [Fields.split, h₁, h₂, hf]
  have hp : (F.split a k) .prevfree = F .prevfree := by
    funext x
    simp [Fields.split]
  have hla : ∀ i, a ∉ G.free i := fun i hi => hal ⟨i, hi⟩
  have hlu : ∀ i, a + k ∉ G.free i := fun i hi => hu (h.listed i _ hi).1
  have ha0 := h.ne_zero ha
  refine ⟨h.ground, h.chain.split h.ground ha hk8 (by omega) hk', ?_, ?_, ?_, ?_, ?_, ?_⟩
  · refine h.lists.congr (fun i x hx => ?_) (fun _ x _ => by rw [hp]) (fun _ _ => rfl)
    rw [hfr, if_neg]
    rintro (rfl | rfl)
    · exact hla i hx
    · exact hlu i hx
  · intro i x hx
    obtain ⟨h₁, h₂, h₃⟩ := h.listed i x hx
    have hxa : x ≠ a := fun he => hla i (he ▸ hx)
    rw [hs, if_neg hxa, if_neg (hne x h₁)]
    refine ⟨.inr h₁, h₂, ?_⟩
    rcases hcase with ⟨hl, -⟩ | ⟨hl, -⟩ <;> simp only [Layout.setLast, hl]
    · exact h₃
    · exact hne x h₁
  · rintro x (rfl | hx) hM hxf
    · rw [hfr] at hxf
      simp at hxf
    · rw [hfr] at hxf
      split_ifs at hxf
      · exact absurd rfl hxf
      · exact h.marked x hx hM hxf
  · rintro x (rfl | hx) hxl
    · rw [hs, if_neg (by omega), if_pos rfl]
      rcases hcase with ⟨-, -, h'⟩ | ⟨hl, -⟩
      · omega
      · exact absurd hl.symm hxl
    · rw [hs, if_neg (hne x hx)]
      split_ifs with he
      · exact hk
      · refine h.large x hx ?_
        rcases hcase with ⟨hl, -⟩ | ⟨-, hl | hl, -⟩
        · exact hl ▸ hxl
        · exact hl ▸ he
        · exact hl ▸ h.ne_zero hx
  · simp only [Layout.setLast, Layout.insert]
    rcases hcase with ⟨rfl, hal', -⟩ | ⟨rfl, -, -, hna, g, gs', hg, hga, hend⟩
    · intro h0
      obtain ⟨h₁, h₂, h₃⟩ := h.last h0
      rw [hn, hs, if_neg (Ne.symm hal'), if_neg (hne _ h₁), if_neg (Ne.symm hal'),
        if_neg (hne _ h₁)]
      exact ⟨.inr h₁, h₂, h₃⟩
    · intro _
      rw [hn, hs, if_neg (by omega), if_pos rfl, if_neg (by omega), if_pos rfl]
      exact ⟨.inl rfl, hna, g, gs', hg, by omega, by omega⟩
  · -- neither part of an assigned block is open; the end block stays alone
    have ho : ∀ x, x ≠ a + k → x ≠ a → x ≠ 0 →
        ((G.insert (a + k)).setLast l).Open x → G.Open x := by
      rintro x h₁ h₂ h₀ (hx | hx)
      · simp only [Layout.setLast] at hx
        rcases hcase with ⟨hl, -⟩ | ⟨hl, -⟩
        · exact .inl (hx.trans hl)
        · exact absurd (hx.trans hl) h₁
      · exact .inr hx
    have hoa : ¬ ((G.insert (a + k)).setLast l).Open a := by
      rintro (hx | hx)
      · simp only [Layout.setLast] at hx
        rcases hcase with ⟨hl, hl', -⟩ | ⟨hl, -⟩
        · exact hl' (hx.trans hl)
        · omega
      · exact hal hx
    rintro x (rfl | hx) hxn ⟨hx₁, hx₂⟩
    · rw [hn, if_neg (by omega), if_pos rfl] at hxn hx₂
      rcases hcase with ⟨hl, hl', -⟩ | ⟨-, -, -, h0, -⟩
      · rcases hx₁ with hx₁ | ⟨i, hi⟩
        · simp only [Layout.setLast] at hx₁
          have hl0 : G.last ≠ 0 := by omega
          exact hne _ (h.last hl0).1 (by omega)
        · exact hlu i hi
      · exact hxn h0
    · rw [hn] at hxn hx₂
      by_cases he : x = a
      · exact hoa (he ▸ hx₁)
      · rw [if_neg he, if_neg (hne x hx)] at hxn hx₂
        obtain ⟨-, h₂, h₃⟩ := h.chain.up x hx hxn
        by_cases hna : F .next x = a
        · exact hoa (hna ▸ hx₂)
        · exact h.apart x hx hxn ⟨ho x (hne x hx) he (h.ne_zero hx) hx₁,
            ho _ (hne _ h₂) hna hxn hx₂⟩

theorem retire (hl : G.last ≠ 0 → 24 ≤ F .sz G.last) :
    Legal F H gs (G.setLast 0) M := by
  have ho : ∀ x, x ≠ 0 → (G.setLast 0).Open x → G.Open x := by
    rintro x h0 (hx | hx)
    · exact absurd hx h0
    · exact .inr hx
  refine ⟨h.ground, h.chain, h.lists, ?_, h.marked, ?_, fun h0 => absurd rfl h0, ?_⟩
  · intro b x hx
    obtain ⟨h₁, h₂, -⟩ := h.listed b x hx
    exact ⟨h₁, h₂, h.ne_zero h₁⟩
  · intro x hx _
    by_cases hxl : x = G.last
    · exact hxl ▸ hl (hxl ▸ h.ne_zero hx)
    · exact h.large x hx hxl
  · intro x hx hn hxo
    exact h.apart x hx hn ⟨ho x (h.ne_zero hx) hxo.1, ho _ hn hxo.2⟩

theorem appoint (hl : G.last = 0) (hm : m ∈ G.blocks)
    (hml : ¬ G.Listed m) (hn : F .next m = 0) (hg : ∃ g gs',
      gs = g :: gs' ∧ g.1 ≤ m ∧ m + F .sz m = g.2)
    (hprev : F .prev m ≠ 0 → ¬ G.Open (F .prev m)) : Legal F H gs (G.setLast m) M := by
  have ho : ∀ x, (G.setLast m).Open x → G.Open x ∨ x = m := by
    rintro x (hx | hx)
    · exact .inr hx
    · exact .inl (.inr hx)
  refine ⟨h.ground, h.chain, h.lists, ?_, h.marked, ?_, fun _ => ⟨hm, hn, hg⟩, ?_⟩
  · intro b x hx
    obtain ⟨h₁, h₂, -⟩ := h.listed b x hx
    exact ⟨h₁, h₂, fun (he : x = m) => hml ⟨b, he ▸ hx⟩⟩
  · intro x hx _
    exact h.large x hx (hl ▸ h.ne_zero hx)
  · rintro x hx hxn ⟨hx₁, hx₂⟩
    obtain ⟨-, h₂, h₃⟩ := h.chain.up x hx hxn
    have hxm : x ≠ m := fun he => hxn (he ▸ hn)
    have hx₁' := (ho x hx₁).resolve_right hxm
    rcases ho _ hx₂ with hx₂ | hx₂
    · exact h.apart x hx hxn ⟨hx₁', hx₂⟩
    · rw [hx₂] at h₃
      exact hprev (h₃.symm ▸ h.ne_zero hx) (h₃.symm ▸ hx₁')

theorem setLinks {M' : ℕ} (hm : ¬ G.Listed m) (v w : ℕ)
    (hmarked : ∀ x ∈ G.blocks, x ≠ M' →
      ((F.set .prevfree m v).set .nextfree m w) .nextfree x ≠ 0 → G.Listed x) :
    Legal ((F.set .prevfree m v).set .nextfree m w) H gs G M' := by
  have hl : ∀ b, ∀ x ∈ G.free b, x ≠ m := fun b x hx he => hm ⟨b, he ▸ hx⟩
  refine ⟨h.ground, ?_, ?_, ?_, hmarked, ?_, ?_, ?_⟩
  · exact h.chain.congr (fun _ _ => by simp) (fun _ _ => by simp) (fun _ _ => by simp)
  · refine h.lists.congr (fun b x hx => ?_) (fun b x hx => ?_) (fun _ _ => rfl)
    · simp [hl b x hx]
    · simp [hl b x hx]
  · simpa using h.listed
  · simpa using h.large
  · simpa using h.last
  · simpa using h.apart

theorem clear (hm : ¬ G.Listed m) (hM : M = m ∨ M = 0) :
    Legal ((F.set .prevfree m 0).set .nextfree m 0) H gs G 0 := by
  refine h.setLinks hm 0 0 fun x hx _ hne => ?_
  by_cases hxm : x = m
  · simp [hxm] at hne
  · refine h.marked x hx ?_ (by simpa [hxm] using hne)
    rcases hM with rfl | rfl
    · exact hxm
    · exact h.ne_zero hx

end

theorem mark (h : Legal F H gs G 0) (hm : ¬ G.Listed m) (v w : ℕ) :
    Legal ((F.set .prevfree m v).set .nextfree m w) H gs G m :=
  h.setLinks hm v w fun x hx hxM hne =>
    h.marked x hx (h.ne_zero hx) (by simpa [hxM] using hne)

theorem unmark (h : Legal F H gs G M) (hM : M ∉ G.blocks) : Legal F H gs G 0 :=
  ⟨h.ground, h.chain, h.lists, h.listed,
    fun x hx _ hne => h.marked x hx (fun he => hM (he ▸ hx)) hne, h.large, h.last, h.apart⟩

theorem extend {g : ℕ × ℕ} {n : ℕ} (h : Legal F H (g :: gs) G M)
    (hg' : Ground ((g.1, g.2 + n) :: gs)) (hl : G.last ≠ 0) :
    Legal (F.set .sz G.last (F .sz G.last + n)) H ((g.1, g.2 + n) :: gs) G M := by
  obtain ⟨h₁, h₂, g₀, gs₀, hgs, hga, hend⟩ := h.last hl
  obtain ⟨rfl, rfl⟩ := List.cons.inj hgs
  have hs : ∀ x, x ≠ G.last → (F.set .sz G.last (F .sz G.last + n)) .sz x = F .sz x := by
    intro x hx
    simp [hx]
  refine ⟨hg', h.chain.extend hg' h₁ hga hend h₂, ?_, ?_, ?_, ?_, ?_, ?_⟩
  · exact h.lists.congr (fun _ _ _ => by simp) (fun _ _ _ => by simp) (fun _ _ => rfl)
  · intro b x hx
    have hxl := (h.listed b x hx).2.2
    rw [hs x hxl]
    exact h.listed b x hx
  · simpa using h.marked
  · intro x hx hxl
    rw [hs x hxl]
    exact h.large x hx hxl
  · intro _
    exact ⟨h₁, by simpa using h₂, _, _, rfl, hga, by simp; omega⟩
  · simpa using h.apart

theorem create {n : ℕ} (h : Legal F H gs G M) (hg' : Ground ((m, m + n) :: gs)) (hn : 24 ≤ n)
    (hl : G.last = 0) :
    m ∉ G.blocks ∧ Legal (F.create m n) H ((m, m + n) :: gs) (G.insert m) M := by
  obtain ⟨hm, hchain⟩ := h.chain.create hg' (by omega : 16 ≤ n)
  have hne : ∀ x ∈ G.blocks, x ≠ m := fun x hx he => hm (he ▸ hx)
  have hB : ∀ b, ∀ x ∈ G.free b, x ≠ m := fun b x hx => hne x (h.listed b x hx).1
  have hF : ∀ f, ∀ x, x ≠ m → (F.create m n) f x = F f x := by
    intro f x hx
    simp [Fields.create, hx]
  have hn0 : (F.create m n) .next m = 0 := by simp [Fields.create]
  refine ⟨hm, hg', hchain, ?_, ?_, ?_, ?_, fun h0 => absurd hl h0, ?_⟩
  · exact h.lists.congr (fun b x hx => hF _ x (hB b x hx)) (fun b x hx => hF _ x (hB b x hx))
      (fun _ _ => rfl)
  · intro b x hx
    rw [hF _ x (hB b x hx)]
    obtain ⟨h₁, h₂⟩ := h.listed b x hx
    exact ⟨.inr h₁, h₂⟩
  · rintro x (rfl | hx) hM hxn
    · simp [Fields.create] at hxn
    · rw [hF _ x (hne x hx)] at hxn
      exact h.marked x hx hM hxn
  · rintro x (rfl | hx) hxl
    · simpa [Fields.create] using hn
    · rw [hF _ x (hne x hx)]
      exact h.large x hx hxl
  · rintro x (rfl | hx) hxn
    · exact absurd hn0 hxn
    · rw [hF _ x (hne x hx)] at hxn ⊢
      exact h.apart x hx hxn

end Legal

end DjgppLibc.NewMalloc
