import DjgppLibc.MallocHeaders

/-!
# The block chains

`Chain F gs B` says that the blocks `B`, with header fields `F`, are linked by
`next` and `prev` in address order inside the sbrk groups `gs`, each given by
its first address and its end. It is a local statement: every clause speaks of
a block and its two neighbours, so splitting, merging and growing a block are
checked at the blocks they touch. `Chain.tiles` recovers the global statement,
that following `next` from a group's base visits adjacent blocks up to its end.
-/
namespace DjgppLibc.NewMalloc

structure Ground [Image] (gs : List (ℕ × ℕ)) : Prop where
  pos : ∀ g ∈ gs, 0 < g.1
  aligned : ∀ g ∈ gs, g.1 % 8 = 0
  nonempty : ∀ g ∈ gs, g.1 < g.2
  small : ∀ g ∈ gs, g.2 - g.1 < 2147483648
  top : ∀ g ∈ gs, g.2 < 4294967296
  away : ∀ g ∈ gs, NONE < g.1 ∨ g.2 ≤ NONE
  apart : gs.Pairwise fun g g' => g.2 ≤ g'.1 ∨ g'.2 ≤ g.1

theorem Ground.unique [Image] {gs : List (ℕ × ℕ)} (h : Ground gs) {g g' : ℕ × ℕ} {i : ℕ}
    (hg : g ∈ gs) (hg' : g' ∈ gs) (h₁ : g.1 ≤ i) (h₂ : i < g.2) (h₃ : g'.1 ≤ i)
    (h₄ : i < g'.2) : g = g' := by
  by_contra hne
  have : Std.Symm fun g g' : ℕ × ℕ => g.2 ≤ g'.1 ∨ g'.2 ≤ g.1 := ⟨fun _ _ h => h.symm⟩
  have := h.apart.forall hg hg' hne
  omega

structure Chain (F : Fields) (gs : List (ℕ × ℕ)) (B : Set ℕ) : Prop where
  aligned : ∀ x ∈ B, x % 8 = 0
  big : ∀ x ∈ B, 16 ≤ F .sz x
  spaced : ∀ x ∈ B, ∀ y ∈ B, x < y → x + F .sz x ≤ y
  up : ∀ x ∈ B, F .next x ≠ 0 →
    F .next x = x + F .sz x ∧ F .next x ∈ B ∧ F .prev (F .next x) = x
  down : ∀ x ∈ B, F .prev x ≠ 0 → F .prev x ∈ B ∧ F .next (F .prev x) = x
  home : ∀ x ∈ B, ∃ g ∈ gs, g.1 ≤ x ∧ x + F .sz x ≤ g.2 ∧ (F .next x = 0 ↔ x + F .sz x = g.2)
  base : ∀ g ∈ gs, g.1 ∈ B

/-- Join `b` to the block `a` below it. -/
def Fields.merge (F : Fields) (a b : ℕ) : Fields :=
  ((F.set .next a (F .next b)).set .prev (F .next b) a).set .sz a (F .sz a + F .sz b)

/-- Cut `a` after `k` bytes; the upper part takes over the free mark. -/
def Fields.split (F : Fields) (a k : ℕ) : Fields :=
  (((((((F.set .next (a + k) (F .next a)).set .nextfree (a + k) (F .nextfree a)).set
    .prev (a + k) a).set .sz (a + k) (F .sz a - k)).set .next a (a + k)).set .sz a k).set
    .nextfree a 0).set .prev (F .next a) (a + k)

def Fields.create (F : Fields) (m n : ℕ) : Fields :=
  (((F.set .sz m n).set .next m 0).set .prev m 0).set .nextfree m 0

namespace Chain
variable [Image] {F F' : Fields} {gs : List (ℕ × ℕ)} {B : Set ℕ} {a b x y k : ℕ}

omit [Image] in
theorem congr (h : Chain F gs B) (hp : ∀ x ∈ B, F' .prev x = F .prev x)
    (hn : ∀ x ∈ B, F' .next x = F .next x) (hs : ∀ x ∈ B, F' .sz x = F .sz x) :
    Chain F' gs B := by
  refine ⟨h.aligned, ?_, ?_, ?_, ?_, ?_, h.base⟩
  · intro x hx
    rw [hs x hx]
    exact h.big x hx
  · intro x hx y hy hlt
    rw [hs x hx]
    exact h.spaced x hx y hy hlt
  · intro x hx hne
    rw [hn x hx] at hne ⊢
    obtain ⟨h₁, h₂, h₃⟩ := h.up x hx hne
    rw [hs x hx, hp _ h₂]
    exact ⟨h₁, h₂, h₃⟩
  · intro x hx hne
    rw [hp x hx] at hne ⊢
    obtain ⟨h₁, h₂⟩ := h.down x hx hne
    rw [hn _ h₁]
    exact ⟨h₁, h₂⟩
  · intro x hx
    rw [hs x hx, hn x hx]
    exact h.home x hx

theorem pos (h : Chain F gs B) (hg : Ground gs) (hx : x ∈ B) : 0 < x := by
  obtain ⟨g, hgs, h₁, -⟩ := h.home x hx
  have := hg.pos g hgs
  omega

theorem ne_NONE (h : Chain F gs B) (hg : Ground gs) (hx : x ∈ B) : x ≠ NONE := by
  obtain ⟨g, hgs, h₁, h₂, -⟩ := h.home x hx
  have := hg.away g hgs
  have := h.big x hx
  omega

theorem sz_lt (h : Chain F gs B) (hg : Ground gs) (hx : x ∈ B) : F .sz x < 2147483648 := by
  obtain ⟨g, hgs, h₁, h₂, -⟩ := h.home x hx
  have := hg.small g hgs
  omega

theorem end_lt (h : Chain F gs B) (hg : Ground gs) (hx : x ∈ B) :
    x + F .sz x < 4294967296 := by
  obtain ⟨g, hgs, h₁, h₂, -⟩ := h.home x hx
  have := hg.top g hgs
  omega

/-- A block and its successor lie in one group. -/
theorem pair_home (h : Chain F gs B) (hg : Ground gs) (ha : a ∈ B) (hb : F .next a = b)
    (hb0 : b ≠ 0) : ∃ g ∈ gs, g.1 ≤ a ∧ b + F .sz b ≤ g.2 ∧
      (F .next b = 0 ↔ b + F .sz b = g.2) := by
  obtain ⟨hb₁, hbB, -⟩ := h.up a ha (hb ▸ hb0)
  rw [hb] at hb₁ hbB
  obtain ⟨g, hgs, h₁, h₂, h₃⟩ := h.home a ha
  obtain ⟨g', hgs', h₁', h₂', h₃'⟩ := h.home b hbB
  have hbig := h.big b hbB
  have hlt : b < g.2 := by
    have : a + F .sz a ≠ g.2 := fun he => hb0 (hb ▸ h₃.mpr he)
    omega
  have := hg.unique hgs hgs' (by omega) hlt h₁' (by omega)
  subst this
  exact ⟨g, hgs, h₁, h₂', h₃'⟩

theorem merge_lt (h : Chain F gs B) (hg : Ground gs) (ha : a ∈ B) (hb : F .next a = b)
    (hb0 : b ≠ 0) : F .sz a + F .sz b < 2147483648 := by
  obtain ⟨g, hgs, h₁, h₂, -⟩ := h.pair_home hg ha hb hb0
  have h₃ := (h.up a ha (hb ▸ hb0)).1
  have := hg.small g hgs
  omega

theorem merge (h : Chain F gs B) (hg : Ground gs) (ha : a ∈ B) (hb : F .next a = b)
    (hb0 : b ≠ 0) : Chain (F.merge a b) gs (B \ {b}) := by
  obtain ⟨hb₁, hbB, hb₂⟩ := h.up a ha (hb ▸ hb0)
  rw [hb] at hb₁ hbB hb₂
  have habig := h.big a ha
  have hbbig := h.big b hbB
  have hn : ∀ {x}, (F.merge a b) .next x = if x = a then F .next b else F .next x := by
    simp [Fields.merge]
  have hp : ∀ {x}, (F.merge a b) .prev x = if x = F .next b then a else F .prev x := by
    simp [Fields.merge]
  have hs : ∀ {x}, (F.merge a b) .sz x = if x = a then F .sz a + F .sz b else F .sz x := by
    simp [Fields.merge]
  have hnb : F .next b ≠ 0 → F .next b = b + F .sz b ∧ F .next b ∈ B ∧ F .prev (F .next b) = b :=
    h.up b hbB
  refine ⟨fun x hx => h.aligned x hx.1, ?_, ?_, ?_, ?_, ?_, ?_⟩
  · intro x hx
    rw [hs]
    split_ifs
    · omega
    · exact h.big x hx.1
  · intro x hx y hy hlt
    rw [hs]
    split_ifs with he
    · have hyb : y ≠ b := hy.2
      have h₁ := h.spaced a ha y hy.1 (by omega)
      have h₂ := h.spaced b hbB y hy.1 (by omega)
      omega
    · exact h.spaced x hx.1 y hy.1 hlt
  · intro x hx hne
    have hxb : x ≠ b := hx.2
    rw [hn] at hne ⊢
    rw [hp, hs]
    by_cases he : x = a
    · rw [if_pos he] at hne
      obtain ⟨h₁, h₂, -⟩ := hnb hne
      simp only [if_pos he, if_true]
      exact ⟨by omega, ⟨h₂, by simp only [Set.mem_singleton_iff]; omega⟩, he.symm⟩
    · rw [if_neg he] at hne
      obtain ⟨h₁, h₂, h₃⟩ := h.up x hx.1 hne
      -- a block with the same successor as `b` would be `b`
      have hnx : F .next x ≠ F .next b := by
        intro hnx
        rw [hnx] at h₃ hne
        exact hxb (h₃.symm.trans (hnb hne).2.2)
      simp only [if_neg he, if_neg hnx]
      refine ⟨h₁, ⟨h₂, ?_⟩, h₃⟩
      intro hxb'
      rw [Set.mem_singleton_iff.mp hxb'] at h₃
      exact he (h₃.symm.trans hb₂)
  · intro x hx hne
    have hxb : x ≠ b := hx.2
    rw [hp] at hne ⊢
    rw [hn]
    by_cases he : x = F .next b
    · simp only [if_pos he, if_true]
      exact ⟨⟨ha, by simp only [Set.mem_singleton_iff]; omega⟩, he.symm⟩
    · rw [if_neg he] at hne
      obtain ⟨h₁, h₂⟩ := h.down x hx.1 hne
      have hpa : F .prev x ≠ a := by
        intro hpa
        rw [hpa] at h₂
        exact hxb (h₂.symm.trans hb)
      simp only [if_neg he, if_neg hpa]
      refine ⟨⟨h₁, ?_⟩, h₂⟩
      intro hpb
      rw [Set.mem_singleton_iff.mp hpb] at h₂
      exact he h₂.symm
  · intro x hx
    rw [hs, hn]
    split_ifs with he
    · obtain ⟨g, hgs, h₁, h₂, h₃⟩ := h.pair_home hg ha hb hb0
      subst he
      exact ⟨g, hgs, h₁, by omega, by rw [h₃]; omega⟩
    · exact h.home x hx.1
  · intro g hgs
    refine ⟨h.base g hgs, ?_⟩
    intro he
    rw [Set.mem_singleton_iff] at he
    obtain ⟨g', hgs', h₁, h₂, -⟩ := h.pair_home hg ha hb hb0
    have h₄ := hg.nonempty g hgs
    have := hg.unique hgs hgs' (i := b) (by omega) (by omega) (by omega) (by omega)
    subst this
    omega

omit [Image] in
theorem cut_fresh (h : Chain F gs B) (ha : a ∈ B) (hk : 16 ≤ k) (hk' : k + 16 ≤ F .sz a) :
    a + k ∉ B := by
  intro hu
  have := h.spaced a ha _ hu (by omega)
  omega

theorem split (h : Chain F gs B) (hg : Ground gs) (ha : a ∈ B) (hk8 : k % 8 = 0)
    (hk : 16 ≤ k) (hk' : k + 16 ≤ F .sz a) :
    Chain (F.split a k) gs (insert (a + k) B) := by
  have hu := h.cut_fresh ha hk hk'
  have hapos := h.pos hg ha
  have hne : ∀ x ∈ B, x ≠ a + k := fun x hx he => hu (he ▸ hx)
  have hup := h.up a ha
  have hna : F .next a ≠ a + k := by
    intro he
    exact hu (he ▸ (hup (by omega)).2.1)
  have hn : ∀ {x}, (F.split a k) .next x =
      if x = a then a + k else if x = a + k then F .next a else F .next x := by
    simp [Fields.split]
  have hp : ∀ {x}, (F.split a k) .prev x =
      if x = F .next a then a + k else if x = a + k then a else F .prev x := by
    simp [Fields.split]
  have hs : ∀ {x}, (F.split a k) .sz x =
      if x = a then k else if x = a + k then F .sz a - k else F .sz x := by
    simp [Fields.split]
  refine ⟨?_, ?_, ?_, ?_, ?_, ?_, fun g hgs => .inr (h.base g hgs)⟩
  · rintro x (rfl | hx)
    · have := h.aligned a ha
      omega
    · exact h.aligned x hx
  · rintro x (rfl | hx)
    · rw [hs, if_neg (by omega), if_pos rfl]
      omega
    · rw [hs, if_neg (hne x hx)]
      split_ifs
      · exact hk
      · exact h.big x hx
  · rintro x (rfl | hx) y (rfl | hy) hlt
    · omega
    · rw [hs, if_neg (by omega), if_pos rfl]
      have := h.spaced a ha y hy (by omega)
      omega
    · rw [hs, if_neg (hne x hx)]
      split_ifs with he
      · omega
      · rcases Nat.lt_or_ge x a with hxa | hxa
        · have := h.spaced x hx a ha hxa
          omega
        · have := h.spaced a ha x hx (by omega)
          omega
    · rw [hs, if_neg (hne x hx)]
      have hxy := h.spaced x hx y hy hlt
      split_ifs with he
      · subst he
        omega
      · exact hxy
  · rintro x (rfl | hx)
    · rw [hn, if_neg (by omega), if_pos rfl, hs, if_neg (by omega), if_pos rfl, hp]
      intro hn0
      obtain ⟨h₁, h₂, -⟩ := hup hn0
      exact ⟨by omega, .inr h₂, if_pos rfl⟩
    · rw [hn, hs, hp, if_neg (hne x hx), if_neg (hne x hx)]
      by_cases he : x = a
      · subst he
        simp only [if_true]
        intro _
        rw [if_neg (Ne.symm hna)]
        exact ⟨trivial, .inl rfl, rfl⟩
      · simp only [if_neg he]
        intro hn0
        obtain ⟨h₁, h₂, h₃⟩ := h.up x hx hn0
        have hnx : F .next x ≠ F .next a := by
          intro hnx
          rw [hnx] at h₃ hn0
          exact he (h₃.symm.trans (hup hn0).2.2)
        rw [if_neg hnx, if_neg (hne _ h₂)]
        exact ⟨h₁, .inr h₂, h₃⟩
  · rintro x (rfl | hx)
    · rw [hp, if_neg (Ne.symm hna), if_pos rfl, hn, if_pos rfl]
      intro _
      exact ⟨.inr ha, rfl⟩
    · rw [hp, if_neg (hne x hx)]
      by_cases he : x = F .next a
      · simp only [if_pos he]
        intro _
        rw [hn, if_neg (by omega), if_pos rfl]
        exact ⟨.inl rfl, he.symm⟩
      · simp only [if_neg he]
        intro hp0
        obtain ⟨h₁, h₂⟩ := h.down x hx hp0
        have hpa : F .prev x ≠ a := by
          intro hpa
          rw [hpa] at h₂
          exact he h₂.symm
        rw [hn, if_neg hpa, if_neg (hne _ h₁)]
        exact ⟨.inr h₁, h₂⟩
  · rintro x (rfl | hx)
    · obtain ⟨g, hgs, h₁, h₂, h₃⟩ := h.home a ha
      rw [hs, if_neg (by omega), if_pos rfl, hn, if_neg (by omega), if_pos rfl]
      refine ⟨g, hgs, by omega, by omega, ?_⟩
      rw [h₃]
      omega
    · rw [hs, hn, if_neg (hne x hx), if_neg (hne x hx)]
      by_cases he : x = a
      · obtain ⟨g, hgs, h₁, h₂, -⟩ := h.home a ha
        simp only [if_pos he]
        exact ⟨g, hgs, by omega, by omega, by omega⟩
      · simp only [if_neg he]
        exact h.home x hx

theorem extend {g : ℕ × ℕ} {n : ℕ} (h : Chain F (g :: gs) B)
    (hg' : Ground ((g.1, g.2 + n) :: gs)) (ha : a ∈ B) (hag : g.1 ≤ a)
    (hend : a + F .sz a = g.2) (hnext : F .next a = 0) :
    Chain (F.set .sz a (F .sz a + n)) ((g.1, g.2 + n) :: gs) B := by
  have hbig := h.big a ha
  have hs : ∀ {x}, (F.set .sz a (F .sz a + n)) .sz x =
      if x = a then F .sz a + n else F .sz x := by simp
  have hn : ∀ {x}, (F.set .sz a (F .sz a + n)) .next x = F .next x := by simp
  have hp : ∀ {x}, (F.set .sz a (F .sz a + n)) .prev x = F .prev x := by simp
  have hother := (List.pairwise_cons.mp hg'.apart).1
  simp only at hother
  refine ⟨h.aligned, ?_, ?_, ?_, ?_, ?_, ?_⟩
  · intro x hx
    rw [hs]
    split_ifs
    · omega
    · exact h.big x hx
  · intro x hx y hy hlt
    rw [hs]
    split_ifs with he
    · have h₁ := h.spaced a ha y hy (by omega)
      obtain ⟨g', hgs', h₂, h₃, -⟩ := h.home y hy
      have hybig := h.big y hy
      rcases List.mem_cons.mp hgs' with rfl | hgs'
      · omega
      · have := hother g' hgs'
        omega
    · exact h.spaced x hx y hy hlt
  · intro x hx
    rw [hn, hs, hp]
    split_ifs with he
    · intro hne
      exact absurd (he ▸ hnext) hne
    · exact h.up x hx
  · intro x hx
    rw [hn, hp]
    exact h.down x hx
  · intro x hx
    rw [hs, hn]
    obtain ⟨g', hgs', h₁, h₂, h₃⟩ := h.home x hx
    split_ifs with he
    · subst he
      exact ⟨_, List.mem_cons_self, by simpa using hag, by simp only; omega,
        by simp only [hnext, true_iff]; omega⟩
    · rcases List.mem_cons.mp hgs' with rfl | hgs'
      · -- another block of this group ends below `a`
        have hxa : x < a := by
          rcases Nat.lt_or_ge x a with hlt | hge
          · exact hlt
          · have := h.spaced a ha x hx (by omega)
            have := h.big x hx
            omega
        have h₄ := h.spaced x hx a ha hxa
        refine ⟨_, List.mem_cons_self, by simpa using h₁, by simp only; omega, ?_⟩
        simp only [h₃]
        omega
      · exact ⟨g', List.mem_cons_of_mem _ hgs', h₁, h₂, h₃⟩
  · intro g' hgs'
    rcases List.mem_cons.mp hgs' with rfl | hgs'
    · exact h.base g (by simp)
    · exact h.base g' (by simp [hgs'])

theorem create {m n : ℕ} (h : Chain F gs B) (hg' : Ground ((m, m + n) :: gs)) (hn16 : 16 ≤ n) :
    m ∉ B ∧ Chain (F.create m n) ((m, m + n) :: gs) (insert m B) := by
  have hother := (List.pairwise_cons.mp hg'.apart).1
  simp only at hother
  have hfar : ∀ x ∈ B, x + F .sz x ≤ m ∨ m + n ≤ x := by
    intro x hx
    obtain ⟨g', hgs', h₁, h₂, -⟩ := h.home x hx
    have := hother g' hgs'
    omega
  have hm : m ∉ B := by
    intro hm
    have := hfar m hm
    have := h.big m hm
    omega
  have hne : ∀ x ∈ B, x ≠ m := fun x hx he => hm (he ▸ hx)
  have hs : ∀ {x}, (F.create m n) .sz x = if x = m then n else F .sz x := by
    simp [Fields.create]
  have hnx : ∀ {x}, (F.create m n) .next x = if x = m then 0 else F .next x := by
    simp [Fields.create]
  have hp : ∀ {x}, (F.create m n) .prev x = if x = m then 0 else F .prev x := by
    simp [Fields.create]
  refine ⟨hm, ?_, ?_, ?_, ?_, ?_, ?_, ?_⟩
  · rintro x (rfl | hx)
    · exact hg'.aligned (x, x + n) (by simp)
    · exact h.aligned x hx
  · rintro x (rfl | hx)
    · rw [hs, if_pos rfl]
      exact hn16
    · rw [hs, if_neg (hne x hx)]
      exact h.big x hx
  · rintro x (rfl | hx) y (rfl | hy) hlt
    · omega
    · have := hfar y hy
      have := h.big y hy
      rw [hs, if_pos rfl]
      omega
    · have := hfar x hx
      rw [hs, if_neg (hne x hx)]
      omega
    · rw [hs, if_neg (hne x hx)]
      exact h.spaced x hx y hy hlt
  · rintro x (rfl | hx)
    · rw [hnx, if_pos rfl]
      exact fun h => absurd rfl h
    · rw [hnx, if_neg (hne x hx), hs, if_neg (hne x hx)]
      intro h0
      obtain ⟨h₁, h₂, h₃⟩ := h.up x hx h0
      rw [hp, if_neg (hne _ h₂)]
      exact ⟨h₁, .inr h₂, h₃⟩
  · rintro x (rfl | hx)
    · rw [hp, if_pos rfl]
      exact fun h => absurd rfl h
    · rw [hp, if_neg (hne x hx)]
      intro h0
      obtain ⟨h₁, h₂⟩ := h.down x hx h0
      rw [hnx, if_neg (hne _ h₁)]
      exact ⟨.inr h₁, h₂⟩
  · rintro x (rfl | hx)
    · rw [hs, hnx, if_pos rfl, if_pos rfl]
      exact ⟨_, List.mem_cons_self, le_rfl, le_rfl, by simp⟩
    · rw [hs, hnx, if_neg (hne x hx), if_neg (hne x hx)]
      obtain ⟨g', hgs', h'⟩ := h.home x hx
      exact ⟨g', List.mem_cons_of_mem _ hgs', h'⟩
  · intro g' hgs'
    rcases List.mem_cons.mp hgs' with rfl | hgs'
    · exact .inl rfl
    · exact .inr (h.base g' hgs')

end Chain

/-- `Tiles F e a l`: the blocks reached from `a` through `next` are `l`; each one
ends where its successor starts, the successor points back, and the last one
ends at `e`. -/
inductive Tiles (F : Fields) (e : ℕ) : ℕ → List ℕ → Prop
  | last {a : ℕ} : F .next a = 0 → a + F .sz a = e → Tiles F e a [a]
  | cons {a : ℕ} {l : List ℕ} : F .next a ≠ 0 → F .next a = a + F .sz a →
      F .prev (F .next a) = a → Tiles F e (F .next a) l → Tiles F e a (a :: l)

namespace Chain
variable [Image] {F : Fields} {gs : List (ℕ × ℕ)} {B : Set ℕ}

theorem tiles_from (h : Chain F gs B) (hg : Ground gs) {g : ℕ × ℕ} (hgs : g ∈ gs) (d : ℕ) :
    ∀ a ∈ B, g.1 ≤ a → a < g.2 → g.2 - a ≤ d → ∃ l, Tiles F g.2 a l ∧ (∀ x ∈ l, x ∈ B) ∧
      ∀ x ∈ B, a ≤ x → x < g.2 → x ∈ l := by
  induction d with
  | zero =>
      intro a _ _ h₁ h₂
      omega
  | succ d ih =>
      intro a ha h₁ h₂ hd
      obtain ⟨g', hgs', h₁', h₂', h₃'⟩ := h.home a ha
      have hbig := h.big a ha
      have := hg.unique hgs hgs' h₁ h₂ h₁' (by omega)
      subst this
      by_cases hn : F .next a = 0
      · refine ⟨[a], .last hn (h₃'.mp hn), by simpa using ha, ?_⟩
        intro x hx hax hxg
        by_cases he : x = a
        · simp [he]
        · have := h.spaced a ha x hx (by omega)
          have := h₃'.mp hn
          omega
      · obtain ⟨hn₁, hn₂, hn₃⟩ := h.up a ha hn
        have hlt : F .next a < g.2 := by
          have : a + F .sz a ≠ g.2 := fun he => hn (h₃'.mpr he)
          omega
        obtain ⟨l, hl, hlB, hall⟩ := ih (F .next a) hn₂ (by omega) hlt (by omega)
        refine ⟨a :: l, .cons hn hn₁ hn₃ hl, by simpa using ⟨ha, hlB⟩, ?_⟩
        intro x hx hax hxg
        by_cases he : x = a
        · simp [he]
        · have := h.spaced a ha x hx (by omega)
          exact List.mem_cons_of_mem _ (hall x hx (by omega) hxg)

/-- The blocks of a group tile it, and are all its blocks. -/
theorem tiles (h : Chain F gs B) (hg : Ground gs) {g : ℕ × ℕ} (hgs : g ∈ gs) :
    ∃ l, Tiles F g.2 g.1 l ∧ ∀ x, x ∈ l ↔ x ∈ B ∧ g.1 ≤ x ∧ x < g.2 := by
  obtain ⟨l, hl, hlB, hall⟩ := h.tiles_from hg hgs _ g.1 (h.base g hgs) le_rfl
    (hg.nonempty g hgs) le_rfl
  refine ⟨l, hl, fun x => ⟨fun hx => ⟨hlB x hx, ?_⟩, fun hx => hall x hx.1 hx.2.1 hx.2.2⟩⟩
  have hmem : ∀ {a l}, Tiles F g.2 a l → (∀ x ∈ l, x ∈ B) → ∀ x ∈ l, a ≤ x ∧ x < g.2 := by
    intro a l hl
    induction hl with
    | @last a hn he =>
        intro hB x hx
        have := h.big a (hB a (by simp))
        obtain rfl := List.mem_singleton.mp hx
        omega
    | @cons a l hn hn₁ _ ht ih =>
        intro hB x hx
        have ha := h.big a (hB a (by simp))
        have hB' : ∀ x ∈ l, x ∈ B := fun x hx => hB x (by simp [hx])
        have hnl : F .next a ∈ l := by cases ht <;> simp
        have hn' := ih hB' _ hnl
        rcases List.mem_cons.mp hx with rfl | hx
        · omega
        · have := ih hB' x hx
          omega
  exact hmem hl hlB x hx

end Chain

end DjgppLibc.NewMalloc
