import DjgppLibc.MallocChain

/-!
# Regions granted by sbrk

A region that starts where the newest group ends extends that group; any other
region opens a group at its first aligned address. The answers of sbrk are
assumed fresh: a region lies above address zero and below 2^32, meets neither
an earlier region nor the static list headers, and keeps the total under 2 GB.
Nothing is assumed about its alignment or its place in the order of addresses.
-/
namespace DjgppLibc.NewMalloc

/-- The address `extendsbrk` uses for a region that starts at `a`. -/
def alignUp (a : ℕ) : ℕ := a + if a % 8 ≠ 0 then 8 - a % 8 else 0

def groupsOf : List (ℕ × ℕ) → List (ℕ × ℕ)
  | [] => []
  | (a, n) :: rs =>
      match groupsOf rs with
      | [] => [(alignUp a, a + n)]
      | (b, e) :: gs => if a = e then (b, e + n) :: gs else (alignUp a, a + n) :: (b, e) :: gs

theorem groupsOf_extend {a n : ℕ} {b e : ℕ} {rs gs : List (ℕ × ℕ)} (h : groupsOf rs = (b, e) :: gs)
    (ha : a = e) : groupsOf ((a, n) :: rs) = (b, e + n) :: gs := by
  simp [groupsOf, h, ha]

theorem groupsOf_open {a n : ℕ} {rs : List (ℕ × ℕ)}
    (h : ∀ b e gs, groupsOf rs = (b, e) :: gs → a ≠ e) :
    groupsOf ((a, n) :: rs) = (alignUp a, a + n) :: groupsOf rs := by
  cases hg : groupsOf rs with
  | nil => simp [groupsOf, hg]
  | cons g gs =>
      obtain ⟨b, e⟩ := g
      simp [groupsOf, hg, h b e gs hg]

theorem alignUp_le (a : ℕ) : a ≤ alignUp a ∧ alignUp a ≤ a + 7 ∧ alignUp a % 8 = 0 := by
  unfold alignUp
  split_ifs <;> omega

/-- A group consists of granted bytes. -/
theorem groupsOf_cover {rs : List (ℕ × ℕ)} :
    ∀ g ∈ groupsOf rs, ∀ i, g.1 ≤ i → i < g.2 → ∃ r ∈ rs, r.1 ≤ i ∧ i < r.1 + r.2 := by
  induction rs with
  | nil => simp [groupsOf]
  | cons r rs ih =>
      obtain ⟨a, n⟩ := r
      have hnew : ∀ i, alignUp a ≤ i → i < a + n → ∃ r ∈ (a, n) :: rs, r.1 ≤ i ∧ i < r.1 + r.2 := by
        intro i h₁ h₂
        have := alignUp_le a
        exact ⟨(a, n), by simp, by simp only; omega, h₂⟩
      have hold : ∀ g ∈ groupsOf rs, ∀ i, g.1 ≤ i → i < g.2 →
          ∃ r ∈ (a, n) :: rs, r.1 ≤ i ∧ i < r.1 + r.2 := by
        intro g hg i h₁ h₂
        obtain ⟨r, hr, hri⟩ := ih g hg i h₁ h₂
        exact ⟨r, by simp [hr], hri⟩
      intro g hg i h₁ h₂
      by_cases hadj : ∃ b e gs, groupsOf rs = (b, e) :: gs ∧ a = e
      · obtain ⟨b, e, gs, hgs, rfl⟩ := hadj
        rw [groupsOf_extend hgs rfl] at hg
        rcases List.mem_cons.mp hg with rfl | hg
        · rcases Nat.lt_or_ge i a with hia | hia
          · exact hold (b, a) (by simp [hgs]) i h₁ hia
          · exact ⟨(a, n), by simp, hia, h₂⟩
        · exact hold g (by simp [hgs, hg]) i h₁ h₂
      · rw [groupsOf_open (fun b e gs hgs ha => hadj ⟨b, e, gs, hgs, ha⟩)] at hg
        rcases List.mem_cons.mp hg with rfl | hg
        · exact hnew i h₁ h₂
        · exact hold g hg i h₁ h₂

section
variable [Image]

/-- A region of `n` bytes at `a` that sbrk may grant after the regions `rs`. -/
structure Fresh (rs : List (ℕ × ℕ)) (a n : ℕ) : Prop where
  pos : 0 < a
  top : a + n < 4294967296
  away : a + n ≤ Image.freehdrs ∨ Image.freehdrs + 128 ≤ a
  apart : ∀ r ∈ rs, r.1 + r.2 ≤ a ∨ a + n ≤ r.1
  total : n + (rs.map Prod.snd).sum < 2147483648

instance (rs : List (ℕ × ℕ)) (a n : ℕ) : Decidable (Fresh rs a n) :=
  decidable_of_iff
    (0 < a ∧ a + n < 4294967296 ∧ (a + n ≤ Image.freehdrs ∨ Image.freehdrs + 128 ≤ a) ∧
      (∀ r ∈ rs, r.1 + r.2 ≤ a ∨ a + n ≤ r.1) ∧ n + (rs.map Prod.snd).sum < 2147483648)
    ⟨fun ⟨h₁, h₂, h₃, h₄, h₅⟩ => ⟨h₁, h₂, h₃, h₄, h₅⟩,
      fun h => ⟨h.pos, h.top, h.away, h.apart, h.total⟩⟩

/-- A history of fresh regions of the sizes that `extendsbrk` asks for. -/
def Valid : List (ℕ × ℕ) → Prop
  | [] => True
  | (a, n) :: rs => Fresh rs a n ∧ minSbrk ≤ n ∧ Valid rs

/-- A fresh region lies apart from every group. -/
theorem Fresh.apart_group {rs : List (ℕ × ℕ)} {a n : ℕ} (h : Fresh rs a n) (hn : 0 < n)
    {g : ℕ × ℕ} (hg : g ∈ groupsOf rs) (hne : g.1 < g.2) : a + n ≤ g.1 ∨ g.2 ≤ a := by
  by_contra hc
  push Not at hc
  -- the larger of the two starts would lie in both
  obtain ⟨r, hr, h₁, h₂⟩ := groupsOf_cover g hg (max a g.1) (le_max_right _ _)
    (max_lt hc.2 hne)
  have := h.apart r hr
  have h₃ : max a g.1 < a + n := max_lt (by omega) hc.1
  have h₄ := le_max_left a g.1
  omega

theorem ground_groupsOf {rs : List (ℕ × ℕ)} (h : Valid rs) :
    Ground (groupsOf rs) ∧
      ((groupsOf rs).map fun g => g.2 - g.1).sum ≤ (rs.map Prod.snd).sum := by
  induction rs with
  | nil => exact ⟨⟨by simp [groupsOf], by simp [groupsOf], by simp [groupsOf], by simp [groupsOf],
      by simp [groupsOf], by simp [groupsOf], by simp [groupsOf]⟩, by simp [groupsOf]⟩
  | cons r rs ih =>
      obtain ⟨a, n⟩ := r
      obtain ⟨hf, hn, hv⟩ := h
      obtain ⟨hg, hs⟩ := ih hv
      have hn' : 1024 ≤ n := hn
      have htop := hf.top
      have htot := hf.total
      have haway := hf.away
      have hpos := hf.pos
      have hNONE : NONE = Image.freehdrs + 4 := rfl
      have hfar := fun g hgm => hf.apart_group (by omega) hgm (hg.nonempty g hgm)
      simp only [List.map_cons, List.sum_cons]
      by_cases hadj : ∃ b e gs, groupsOf rs = (b, e) :: gs ∧ a = e
      · obtain ⟨b, e, gs, hgs, rfl⟩ := hadj
        rw [groupsOf_extend hgs rfl]
        rw [hgs] at hg hs hfar
        have hsum := hs
        simp only [List.map_cons, List.sum_cons] at hsum ⊢
        have h₁ := hg.nonempty (b, a) (by simp)
        simp only at h₁
        have h₂ := hg.away (b, a) (by simp)
        simp only at h₂
        have hin : ∀ g ∈ gs, g ∈ (b, a) :: gs := fun g hgm => List.mem_cons_of_mem _ hgm
        have hap := List.pairwise_cons.mp hg.apart
        have h₃ := hg.pos (b, a) (by simp)
        have h₄ := hg.aligned (b, a) (by simp)
        refine ⟨⟨?_, ?_, ?_, ?_, ?_, ?_, ?_⟩, by omega⟩
        · exact List.forall_mem_cons.mpr ⟨h₃, fun g hgm => hg.pos g (hin g hgm)⟩
        · exact List.forall_mem_cons.mpr ⟨h₄, fun g hgm => hg.aligned g (hin g hgm)⟩
        · exact List.forall_mem_cons.mpr ⟨by simp only; omega, fun g hgm => hg.nonempty g (hin g hgm)⟩
        · exact List.forall_mem_cons.mpr ⟨by simp only; omega, fun g hgm => hg.small g (hin g hgm)⟩
        · exact List.forall_mem_cons.mpr ⟨by simp only; omega, fun g hgm => hg.top g (hin g hgm)⟩
        · exact List.forall_mem_cons.mpr ⟨by simp only; omega, fun g hgm => hg.away g (hin g hgm)⟩
        · refine List.pairwise_cons.mpr ⟨?_, hap.2⟩
          intro g hgm
          have h₅ := hap.1 g hgm
          have h₆ := hfar g (hin g hgm)
          have h₇ := hg.nonempty g (hin g hgm)
          simp only at h₅ ⊢
          omega
      · rw [groupsOf_open (fun b e gs hgs ha => hadj ⟨b, e, gs, hgs, ha⟩)]
        obtain ⟨h₁, h₂, h₃⟩ := alignUp_le a
        simp only [List.map_cons, List.sum_cons]
        refine ⟨⟨?_, ?_, ?_, ?_, ?_, ?_, ?_⟩, by omega⟩
        · exact List.forall_mem_cons.mpr ⟨by simp only; omega, hg.pos⟩
        · exact List.forall_mem_cons.mpr ⟨h₃, hg.aligned⟩
        · exact List.forall_mem_cons.mpr ⟨by simp only; omega, hg.nonempty⟩
        · exact List.forall_mem_cons.mpr ⟨by simp only; omega, hg.small⟩
        · exact List.forall_mem_cons.mpr ⟨by simp only; omega, hg.top⟩
        · exact List.forall_mem_cons.mpr ⟨by simp only; omega, hg.away⟩
        · refine List.pairwise_cons.mpr ⟨?_, hg.apart⟩
          intro g hgm
          have := hfar g hgm
          simp only
          omega

end

end DjgppLibc.NewMalloc
