import DjgppLibc.MallocFreeLists

/-!
# The stores of the list and chain edits

Each routine that edits a free list or joins blocks is replayed on the field
functions. The result is an edit of `MallocFreeLists` or `MallocChain` on the
cells of the view, together with the bookkeeping of `Sim`: the held bytes are
untouched and every store lies inside the extent of its block.
-/
namespace DjgppLibc.NewMalloc
open ByteMemory LinkedLists

variable {V : View} {s₀ s : Heap} {F : Fields} {H : ℕ → ℕ} {a b x m m1 : ℕ}

theorem Sim.put {f : Field} {v : ℕ} (h : Sim V s₀ s F H) (hV : V.Ok) (hc : V.Cell f a)
    (hv : v < 4294967296) (hsz : V.ext a ≤ F .sz a) :
    Sim V s₀ (s.set f a v) (F.set f a v) H :=
  h.set hV hc hv (le_trans (hV.fits hc) hsz)

theorem Sim.put_if {f : Field} {v : ℕ} (h : Sim V s₀ s F H) (hV : V.Ok) (c : Prop) [Decidable c]
    (hc : c → V.Cell f a ∧ v < 4294967296 ∧ V.ext a ≤ F .sz a) :
    Sim V s₀ (if c then s.set f a v else s) (if c then F.set f a v else F) H :=
  h.set_if hV c fun hcc => ⟨(hc hcc).1, (hc hcc).2.1,
    le_trans (hV.fits (hc hcc).1) (hc hcc).2.2⟩

theorem get_set_self (s : Heap) (f g : Field) (a v : ℕ) :
    (s.set f a v).get g a = if g = f then v % 4294967296 else s.get g a := by
  split_ifs with he
  · subst he
    exact get_setIn_same
  · have := Field.offset_far he
    exact get_setIn_far (by omega)

theorem View.Ok.cell (hV : V.Ok) {f : Field} (h : x ∈ V.spare) : V.Cell f x :=
  ⟨(hV.spare x h).1, fun _ => h⟩

section
variable [Image]

structure Linkable (V : View) (F : Fields) (x : ℕ) : Prop where
  spare : x ∈ V.spare
  nextfree : F .nextfree x = NONE ∨ F .nextfree x ∈ V.spare ∧ F .nextfree x ≠ x
  prevfree : F .prevfree x = NONE ∨ F .prevfree x ∈ V.spare ∧ F .prevfree x ≠ x

structure View.Proper (V : View) : Prop where
  ok : V.Ok
  pos : ∀ a ∈ V.blocks, a ≠ 0
  lt : ∀ a ∈ V.blocks, a < 4294967296
  ne_NONE : NONE ∉ V.blocks

theorem extractfree_sim (h : Sim V s₀ s F H) (hV : V.Proper) (hx : Linkable V F x)
    (hsz : ∀ a ∈ V.blocks, V.ext a ≤ F .sz a) (hb : size2bucket (F .sz x) < 32) :
    Sim V s₀ (extractfree s x) (F.unlink x) (unlinkHdr F H (size2bucket (F .sz x)) x) := by
  have hO := hV.ok
  have hcx : ∀ f, V.Cell f x := fun f => hO.cell hx.spare
  have hx0 := hV.pos x (hcx .sz).1
  have hxsz := hsz x (hcx .sz).1
  have hNlt := NONE_lt
  have hcell : ∀ f a, V.Cell f a → a ≠ NONE := fun f a hc he => hV.ne_NONE (he ▸ hc.1)
  have h₁ := h.log (e := .bucket (size2bucket (F .sz x))) hb
  have hgn := h.get _ _ (hcx .nextfree)
  have hgp := h.get _ _ (hcx .prevfree)
  have hgs := h.get _ _ (hcx .sz)
  unfold extractfree
  rw [if_neg hx0]
  simp only [get_log, hgs, hgn]
  -- one case for each way the block can stand at the ends of its list
  by_cases hn : F .nextfree x = NONE <;> by_cases hp : F .prevfree x = NONE
  · simp only [hn, hp, get_set_self, get_log, hgp, if_true, reduceCtorEq, if_false, Nat.zero_mod,
      ne_eq, not_true]
    refine (((((h₁.put hO (hcx .nextfree) ?_ ?_).put hO (hcx .prevfree) ?_ ?_).setHdr _ 0).put
      hO (hcx .prevfree) ?_ ?_).put hO (hcx .nextfree) ?_ ?_).congr ?_ ?_
    all_goals first | omega | skip
    all_goals first | simpa using hxsz | skip
    · intro f a hc
      have := hcell f a hc
      by_cases hax : a = x <;> cases f <;> simp [Fields.unlink, hn, hp, this, hax]
    · funext i
      simp [unlinkHdr, hn, hp]
  · obtain ⟨hps, hpx⟩ := hx.prevfree.resolve_left hp
    have hpc : ∀ f, V.Cell f (F .prevfree x) := fun f => hO.cell hps
    have hp0 := hV.pos _ (hpc .sz).1
    simp only [hn, hp, get_set_self, get_log, hgp, hgn, if_true, reduceCtorEq, if_false,
      Nat.zero_mod, ne_eq, not_true, hp0, not_false_eq_true]
    refine ((((h₁.put hO (hcx .nextfree) ?_ ?_).put hO (hpc .nextfree) ?_ ?_).put
      hO (hcx .prevfree) ?_ ?_).put hO (hcx .nextfree) ?_ ?_).congr ?_ ?_
    all_goals first | omega | skip
    all_goals first | simpa using hxsz | simpa using hsz _ (hpc .sz).1 | skip
    · intro f a hc
      have := hcell f a hc
      by_cases hax : a = x <;> cases f <;> simp [Fields.unlink, hn, this, hax]
    · funext i
      by_cases hi : i = size2bucket (F .sz x) <;> simp [unlinkHdr, hp, hi]
  · obtain ⟨hns, hnx⟩ := hx.nextfree.resolve_left hn
    have hnc : ∀ f, V.Cell f (F .nextfree x) := fun f => hO.cell hns
    have hn0 := hV.pos _ (hnc .sz).1
    have h₂ := h₁.put hO (hcx .prevfree) (v := 0) (by omega) hxsz
    have h₃ := h₂.put hO (hnc .prevfree) (v := NONE) hNlt (by simpa using hsz _ (hnc .sz).1)
    have hgp₃ := h₃.get _ _ (hcx .prevfree)
    have hgn₃ := h₃.get _ _ (hcx .nextfree)
    simp only [Fields.set_apply, Ne.symm hnx, and_false, if_false, and_true, if_true,
      reduceCtorEq] at hgp₃ hgn₃
    simp only [hn, hp, get_set_self, get_log, hgp, hgn, hgp₃, hgn₃, if_true, reduceCtorEq,
      if_false, ne_eq, not_true, hn0, not_false_eq_true]
    refine (((h₃.setHdr _ _).put hO (hcx .prevfree) ?_ ?_).put hO (hcx .nextfree) ?_ ?_).congr ?_ ?_
    all_goals first | omega | skip
    all_goals first | simpa using hxsz | skip
    · intro f a hc
      have := hcell f a hc
      by_cases hax : a = x <;> cases f <;> simp [Fields.unlink, hp, this, hax]
    · funext i
      simp [unlinkHdr, hn, hp]
  · obtain ⟨hps, hpx⟩ := hx.prevfree.resolve_left hp
    obtain ⟨hns, hnx⟩ := hx.nextfree.resolve_left hn
    have hpc : ∀ f, V.Cell f (F .prevfree x) := fun f => hO.cell hps
    have hnc : ∀ f, V.Cell f (F .nextfree x) := fun f => hO.cell hns
    have hp0 := hV.pos _ (hpc .sz).1
    have hn0 := hV.pos _ (hnc .sz).1
    have h₂ := h₁.put hO (hnc .prevfree) (hV.lt _ (hpc .sz).1) (hsz _ (hnc .sz).1)
    have hgp₂ := h₂.get _ _ (hcx .prevfree)
    simp only [Fields.set_apply, Ne.symm hnx, and_false, if_false] at hgp₂
    simp only [hn, hp, get_log, hgp, hgn, hgp₂, if_false, ne_eq, hn0, hp0, not_false_eq_true,
      if_true]
    refine (((h₂.put hO (hpc .nextfree) (hV.lt _ (hnc .sz).1) ?_).put hO (hcx .prevfree) ?_ ?_).put
      hO (hcx .nextfree) ?_ ?_).congr ?_ ?_
    all_goals first | omega | skip
    all_goals first | simpa using hxsz | simpa using hsz _ (hpc .sz).1 | skip
    · intro f a hc
      by_cases hax : a = x <;> cases f <;> simp [Fields.unlink, hax]
    · funext i
      by_cases hi : i = size2bucket (F .sz x) <;> simp [unlinkHdr, hp, hi]

/-- The stores that join `b` to the block `a` below it, as `combinehi` and `combinelo` make them. -/
def joinBlocks (s : Heap) (a b : ℕ) : Heap :=
  let n := s.get .next b
  let s := s.set .next a n
  let s := if n ≠ 0 then s.set .prev n a else s
  s.set .sz a (u32 (s.get .sz a + s.get .sz b))

theorem joinBlocks_sim (h : Sim V s₀ s F H) (hV : V.Proper) (ha : a ∈ V.blocks) (hb : b ∈ V.blocks)
    (hn : F .next b ≠ 0 → F .next b ∈ V.blocks) (hsz : ∀ a ∈ V.blocks, V.ext a ≤ F .sz a)
    (hlt : F .sz a + F .sz b < 4294967296) : Sim V s₀ (joinBlocks s a b) (F.merge a b) H := by
  have hO := hV.ok
  have hc : ∀ {f x}, f ≠ .prevfree → x ∈ V.blocks → V.Cell f x :=
    fun hf hx => ⟨hx, fun he => absurd he hf⟩
  have hgn := h.get _ _ (hc (f := .next) (by decide) hb)
  unfold joinBlocks
  simp only [hgn]
  have hnlt : F .next b < 4294967296 := hgn ▸ get_lt _ _ _
  have h₁ := h.put hO (hc (f := .next) (by decide) ha) hnlt (hsz a ha)
  have h₂ := h₁.put_if hO (f := .prev) (a := F .next b) (v := a) (F .next b ≠ 0)
    fun hne => ⟨hc (by decide) (hn hne), hV.lt a ha, by simpa using hsz _ (hn hne)⟩
  generalize (if F .next b ≠ 0 then _ else _ : Heap) = s₂ at h₂ ⊢
  have hga : s₂.get .sz a = F .sz a := by
    rw [h₂.get _ _ (hc (by decide) ha)]
    split_ifs <;> simp
  have hgb : s₂.get .sz b = F .sz b := by
    rw [h₂.get _ _ (hc (by decide) hb)]
    split_ifs <;> simp
  rw [hga, hgb, u32, Nat.mod_eq_of_lt hlt]
  refine (h₂.put hO (hc (by decide) ha) hlt ?_).congr ?_ rfl
  · split_ifs <;> simpa using hsz a ha
  · intro f x hx
    have hx0 := hV.pos x hx.1
    by_cases h0 : F .next b = 0
    · simp only [Fields.merge, h0, ne_eq, not_true, if_false, Fields.set_apply, hx0, and_false]
    · simp only [Fields.merge, h0, ne_eq, not_false_eq_true, if_true]

theorem pushfree_sim (h : Sim V s₀ s F H) (hV : V.Proper) (hm : m ∈ V.spare)
    (hh : H (size2bucket (F .sz m)) ≠ 0 → H (size2bucket (F .sz m)) ∈ V.spare)
    (hsz : ∀ a ∈ V.blocks, V.ext a ≤ F .sz a) :
    Sim V s₀ (pushfree s m) (F.link m (H (size2bucket (F .sz m))))
      (fun i => if i = size2bucket (F .sz m) then m else H i) := by
  have hO := hV.ok
  have hcm : ∀ f, V.Cell f m := fun f => hO.cell hm
  have hmsz := hsz m (hcm .sz).1
  have hm24 := (hO.spare m hm).2
  have hmlt := hV.lt m (hcm .sz).1
  have hgs := h.get _ _ (hcm .sz)
  have hNlt := NONE_lt
  unfold pushfree
  simp only [hgs, h.hdr]
  generalize size2bucket (F .sz m) = b at hh ⊢
  by_cases h0 : H b = 0
  · have h₁ := h.put hO (hcm .nextfree) hNlt hmsz
    have h₂ := h₁.put hO (hcm .prevfree) hNlt (by simpa using hmsz)
    have hg₂ := h₂.get _ _ (hcm .sz)
    have hH₂ := h₂.hdr
    simp only [Fields.set_apply, reduceCtorEq, false_and, if_false] at hg₂
    simp only [h0, ne_eq, not_true, if_false, hH₂, hg₂]
    refine ((h₂.setHdr b m).log (e := .listed m (F .sz m)) ?_).congr ?_ rfl
    · exact le_trans hm24 hmsz
    · intro f x hx
      have := hV.pos x hx.1
      simp [Fields.link, this]
  · have hhs := hh h0
    have hch : ∀ f, V.Cell f (H b) := fun f => hO.cell hhs
    have hhsz := hsz _ (hch .sz).1
    have h₁ := h.put hO (hcm .nextfree) (hV.lt _ (hch .sz).1) hmsz
    have h₂ := h₁.put hO (hch .prevfree) hmlt (by simpa using hhsz)
    have h₃ := h₂.put hO (hcm .prevfree) hNlt (by simpa using hmsz)
    have h₄ := h₃.put hO (hch .prevfree) hmlt (by simpa using hhsz)
    have hg₄ := h₄.get _ _ (hcm .sz)
    have hH₃ := h₃.hdr
    simp only [Fields.set_apply, reduceCtorEq, false_and, if_false] at hg₄
    simp only [h0, ne_eq, not_false_eq_true, if_true, hH₃, hg₄]
    refine ((h₄.setHdr b m).log (e := .listed m (F .sz m)) ?_).congr ?_ rfl
    · exact le_trans hm24 hmsz
    · intro f x hx
      by_cases hxh : x = H b <;> cases f <;> simp [Fields.link, h0, hxh]

/-- The stores of `rmvfromfree`; `prevfree` of the block keeps NONE, as data. -/
def Fields.pop (F : Fields) (x : ℕ) : Fields :=
  (F.set .prevfree (F .nextfree x) NONE).set .nextfree x 0

theorem rmvfromfree_sim (h : Sim V s₀ s F H) (hV : V.Proper) (hx : Linkable V F x)
    (hp : F .prevfree x = NONE) (hh : H (size2bucket (F .sz x)) = x)
    (hsz : ∀ a ∈ V.blocks, V.ext a ≤ F .sz a) (hb : size2bucket (F .sz x) < 32) :
    ∃ s', rmvfromfree s x = .ok s' ∧
      Sim V s₀ s' (F.pop x) (unlinkHdr F H (size2bucket (F .sz x)) x) := by
  have hO := hV.ok
  have hcx : ∀ f, V.Cell f x := fun f => hO.cell hx.spare
  have hx0 := hV.pos x (hcx .sz).1
  have hxsz := hsz x (hcx .sz).1
  have hgs := h.get _ _ (hcx .sz)
  have hgn := h.get _ _ (hcx .nextfree)
  have hNlt := NONE_lt
  have h₁ := h.log (e := .bucket (size2bucket (F .sz x))) hb
  unfold rmvfromfree
  rw [if_neg hx0]
  simp only [hgs, get_log, hgn, h₁.hdr, hh, ne_eq, not_true, if_false]
  refine ⟨_, rfl, ?_⟩
  by_cases hn : F .nextfree x = NONE
  · rw [if_pos hn]
    refine ((h₁.setHdr _ 0).put hO (hcx .nextfree) (by omega) hxsz).congr ?_ ?_
    · intro f a hc
      have : a ≠ NONE := fun he => hV.ne_NONE (he ▸ hc.1)
      simp [Fields.pop, hn, this]
    · funext i
      simp [unlinkHdr, hp, hn]
  · obtain ⟨hns, hnx⟩ := hx.nextfree.resolve_left hn
    have hnc : ∀ f, V.Cell f (F .nextfree x) := fun f => hO.cell hns
    rw [if_neg hn]
    have h₂ := h₁.setHdr (size2bucket (F .sz x)) (F .nextfree x)
    have hH₂ := h₂.hdr
    simp only [hH₂, if_true]
    refine ((h₂.put hO (hnc .prevfree) hNlt (hsz _ (hnc .sz).1)).put hO (hcx .nextfree)
      (by omega) (by simpa using hxsz)).congr (fun f a _ => rfl) ?_
    · funext i
      simp [unlinkHdr, hp, hn]

omit [Image] in
/-- Copying the sixteen header bytes copies every field but `prevfree`. -/
theorem Sim.copyHeader {u : ℕ} (h : Sim V s₀ s F H) (ext : ℕ) (hV : V.Ok) (ha : a ∈ V.blocks)
    (hu : u ∈ V.blocks) (hne : a ≠ u) (hext : 16 ≤ ext) :
    Sim V s₀ ({ s with mem := copyUp s.mem u a dataOffset }.log (.write u 0 dataOffset ext))
      (fun f x => if f ≠ .prevfree ∧ x = u then F f a else F f x) H := by
  have hbig := hV.big u hu
  have hfar : a + 16 ≤ u ∨ u + 16 ≤ a := by
    have hbig' := hV.big a ha
    rcases Nat.lt_or_ge a u with hlt | hge
    · have := hV.spaced a ha u hu hlt
      omega
    · have := hV.spaced u hu a ha (by omega)
      omega
  refine ⟨?_, h.hdr, ?_, ?_, h.grants, h.sbrkbgn⟩
  · intro f x hx
    split_ifs with hc
    · obtain ⟨hf, rfl⟩ := hc
      have hoff := Field.offset_le_of_ne hf
      rw [← h.get f a ⟨ha, fun he => absurd he hf⟩]
      -- each byte of the word is copied from the same place in `a`
      unfold Heap.get load32
      simp only [Heap.log, dataOffset]
      have hb : ∀ i, i < 16 → copyUp s.mem x a 16 (x + i) = s.mem (a + i) :=
        fun i hi => copyUp_apply _ _ _ _ (by omega) hi
      have h₀ := hb f.offset (by omega)
      have h₁ := hb (f.offset + 1) (by omega)
      have h₂ := hb (f.offset + 2) (by omega)
      have h₃ := hb (f.offset + 3) (by omega)
      simp only [← Nat.add_assoc] at h₁ h₂ h₃
      rw [h₀, h₁, h₂, h₃]
    · rw [← h.get f x hx]
      apply get_congr
      intro i h₁ h₂
      apply copyUp_out
      simp only [dataOffset]
      have hfit := hV.fits hx
      have hux : u ∈ V.blocks := hu
      rcases Nat.lt_trichotomy x u with hlt | heq | hgt
      · have := hV.spaced x hx.1 u hu hlt
        omega
      · subst heq
        have hf : f = .prevfree := by
          by_contra hf
          exact hc ⟨hf, rfl⟩
        subst hf
        simp only [Field.offset] at h₁
        omega
      · have := hV.spaced u hu x hx.1 hgt
        omega
  · intro i hi
    have := hV.held_block i hi u hu
    rw [← h.held i hi]
    exact copyUp_out _ _ _ _ (by simp only [dataOffset]; omega)
  · intro e he
    rcases List.mem_cons.mp he with rfl | he
    · exact .inr (by simpa [Event.Ok, dataOffset] using hext)
    · exact h.ok e he

omit [Image] in
/-- `__nmalloc_split`, in a view that already has the upper part as a block. -/
theorem nmallocSplit_sim {k : ℕ} (h : Sim V s₀ s F H) (hV : V.Ok) (ha : a ∈ V.blocks)
    (hu : a + k ∈ V.blocks) (hlt : a + F .sz a < 4294967296) (hpos : ∀ a ∈ V.blocks, a ≠ 0)
    (hk : 24 ≤ k) (hk' : k + 16 ≤ F .sz a) (hea : V.ext a = k)
    (hext : V.ext (a + k) = F .sz a - k)
    (hn : F .next a ≠ 0 → F .next a ∈ V.blocks ∧ F .prev (F .next a) = a ∧ F .next a ≠ a ∧
      F .next a ≠ a + k ∧ V.ext (F .next a) ≤ F .sz (F .next a)) :
    ∃ s', nmallocSplit s a k = .ok (s', a, a + k) ∧ Sim V s₀ s' (F.split a k) H := by
  have hc : ∀ {f x}, f ≠ .prevfree → x ∈ V.blocks → V.Cell f x :=
    fun hf hx => ⟨hx, fun he => absurd he hf⟩
  have hgs := h.get .sz a (hc (by decide) ha)
  have h₁ := h.log (e := .split k) hk
  unfold nmallocSplit
  simp only [get_log, hgs]
  have hchk : ¬ F .sz a < u32 (k + dataOffset) := by
    simp only [u32, dataOffset]
    omega
  rw [if_neg hchk]
  have hsub : sub32 (F .sz a) k = F .sz a - k := by
    simp only [sub32]
    omega
  rw [hsub]
  have h₂ := h₁.copyHeader (F .sz a - k) hV ha hu (by omega) (by omega)
  have h₃ := h₂.setIn (F .sz a - k) hV (f := .prev) (v := a) (hc (by decide) hu) (by omega)
    (by simp only [Field.offset]; omega)
  have hg₃ := h₃.get .sz a (hc (by decide) ha)
  simp only [Fields.set_apply, reduceCtorEq, if_false, show ¬ a = a + k by omega,
    and_false] at hg₃
  rw [hg₃, hsub]
  have h₄ := h₃.setIn (F .sz a - k) hV (f := .sz) (v := F .sz a - k) (hc (by decide) hu)
    (by omega) (by simp only [Field.offset]; omega)
  have h₅ := h₄.put hV (f := .next) (v := a + k) (hc (by decide) ha) (by omega)
    (by simp [show ¬ k = 0 by omega]; omega)
  have h₆ := h₅.put hV (f := .sz) (v := k) (hc (by decide) ha) (by omega)
    (by simp [show ¬ k = 0 by omega]; omega)
  have h₇ := h₆.put hV (f := .nextfree) (v := 0) (hc (by decide) ha) (by omega)
    (by simp; omega)
  have hg₇ := h₇.get .next (a + k) (hc (by decide) hu)
  simp only [Fields.set_apply, reduceCtorEq, false_and, if_false, show ¬ a + k = a by omega,
    and_false, ne_eq, not_false_eq_true, and_self, if_true] at hg₇
  simp only [hg₇]
  by_cases h0 : F .next a = 0
  · simp only [h0, ne_eq, not_true, if_false]
    refine ⟨_, rfl, h₇.congr ?_ rfl⟩
    intro f x hx
    have hx0 := hpos x hx.1
    by_cases hxa : x = a <;> by_cases hxu : x = a + k <;> cases f <;>
      simp [Fields.split, h0, hx0, hxa, hxu] <;> omega
  · obtain ⟨hnB, hnp, hna, hnu, hne⟩ := hn h0
    have hg₇' := h₇.get .prev (F .next a) (hc (by decide) hnB)
    simp only [Fields.set_apply, reduceCtorEq, if_false, hnu, hna, and_false,
      hnp] at hg₇'
    simp only [h0, ne_eq, not_false_eq_true, if_true, hg₇', not_true, if_false]
    refine ⟨_, rfl, (h₇.put hV (hc (by decide) hnB) (by omega) ?_).congr ?_ rfl⟩
    · simpa [hna, hnu] using hne
    · intro f x hx
      by_cases hxa : x = a <;> by_cases hxu : x = a + k <;> cases f <;>
        simp [Fields.split, hxa, hxu, Ne.symm hna, Ne.symm hnu]

end

end DjgppLibc.NewMalloc
