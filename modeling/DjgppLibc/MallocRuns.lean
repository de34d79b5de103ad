import DjgppLibc.MallocRealloc
import DjgppLibc.Runs

/-!
# Runs of the allocator

A run starts from the static data as loaded, over any memory contents, and
mixes the four calls with stores of the program: into the requested bytes of a
live block, or into memory that sbrk never granted. `Allowed` is what the
interface and sbrk promise. The steps that are merely possible and the steps
after which the heap stays in order differ in one condition, `Roomy`.
-/
namespace DjgppLibc.NewMalloc
open ByteMemory LinkedLists

inductive Call where
  | malloc (size : ℕ)
  | free (ptr : ℕ)
  | realloc (ptr size : ℕ)
  | calloc (n size : ℕ)
  | store (addr : ℕ) (value : UInt8)
  deriving DecidableEq, Repr

/-- A heap with the live pointers and the sizes requested for them. -/
structure Run where
  heap : Heap
  live : List (ℕ × ℕ)

def Run.init (mem : Mem) : Run := ⟨Heap.init mem, []⟩

variable [Image]

/-- One call, with the answer of sbrk in case it is asked. -/
def Run.step (r : Run) (c : Call × Option ℕ) : Except Heap Run :=
  match c.1 with
  | .malloc size => do
      let (s, p) ← nmalloc r.heap c.2 size
      .ok ⟨s, if p = 0 then r.live else (p, size) :: r.live⟩
  | .free ptr => do
      let s ← nfree r.heap ptr
      .ok ⟨s, r.live.filter fun l => l.1 ≠ ptr⟩
  | .realloc ptr size => do
      let (s, p) ← nrealloc r.heap c.2 ptr size
      .ok ⟨s, if p = 0 then r.live else (p, size) :: r.live.filter fun l => l.1 ≠ ptr⟩
  | .calloc n size => do
      let (s, p) ← ncalloc r.heap c.2 n size
      .ok ⟨s, if p = 0 then r.live else (p, n * size) :: r.live⟩
  | .store addr value => .ok ⟨{ r.heap with mem := put r.heap.mem addr value }, r.live⟩

def Run.Holds (r : Run) (ptr : ℕ) : Prop := ptr = 0 ∨ ∃ l ∈ r.live, l.1 = ptr

/-- Sizes that `roundup` does not wrap, pointers that are live, fresh regions. -/
def Allowed (r : Run) (c : Call × Option ℕ) : Prop :=
  match c.1 with
  | .malloc size => size ≤ 4294967272 ∧ Answers r.heap c.2 (roundup (atLeastOne size))
  | .free ptr => r.Holds ptr
  | .realloc ptr size =>
      r.Holds ptr ∧ size ≤ 4294967272 ∧ Answers r.heap c.2 (roundup (atLeastOne size))
  | .calloc n size =>
      n * size ≤ 4294967272 ∧ Answers r.heap c.2 (roundup (atLeastOne (n * size)))
  | .store addr _ =>
      (∃ l ∈ r.live, l.1 ≤ addr ∧ addr < l.1 + l.2) ∨
        ∀ g ∈ r.heap.grants, addr < g.1 ∨ g.1 + g.2 ≤ addr

/-- The step does not retire an end block that is too small to be listed. -/
def Tame (r : Run) (c : Call × Option ℕ) : Prop := Roomy r.heap c.2

instance (r : Run) (ptr : ℕ) : Decidable (r.Holds ptr) :=
  inferInstanceAs (Decidable (_ ∨ ∃ l ∈ r.live, _))

instance (r : Run) : ∀ c, Decidable (Allowed r c)
  | (.malloc _, _) => inferInstanceAs (Decidable (_ ∧ Answers _ _ _))
  | (.free _, _) => inferInstanceAs (Decidable (r.Holds _))
  | (.realloc _ _, _) => inferInstanceAs (Decidable (r.Holds _ ∧ _ ∧ Answers _ _ _))
  | (.calloc _ _, _) => inferInstanceAs (Decidable (_ ∧ Answers _ _ _))
  | (.store _ _, _) => inferInstanceAs (Decidable ((∃ l ∈ r.live, _) ∨ ∀ g ∈ r.heap.grants, _))

instance (r : Run) (c : Call × Option ℕ) : Decidable (Tame r c) :=
  inferInstanceAs (Decidable (Roomy _ _))

structure Run.Inv (r : Run) (G : Layout) : Prop where
  good : Good r.heap G
  live : ∀ l ∈ r.live, 16 ≤ l.1 ∧ l.1 - 16 ∈ G.asg ∧ l.2 + 16 ≤ r.heap.get .sz (l.1 - 16)
  distinct : (r.live.map Prod.fst).Nodup

namespace Run.Inv
variable {r : Run} {G G' : Layout} {s' : Heap}

/-- Drop the entries of one pointer and keep the others. -/
theorem keep (h : r.Inv G) (hG : Good s' G') (ptr : ℕ)
    (hfr : ∀ x ∈ G.asg, x + 16 ≠ ptr → x ∈ G'.asg ∧ Keep r.heap s' x) :
    (⟨s', r.live.filter fun l => l.1 ≠ ptr⟩ : Run).Inv G' := by
  refine ⟨hG, ?_, ?_⟩
  · intro l hl
    simp only [List.mem_filter, decide_eq_true_eq] at hl
    obtain ⟨h₁, h₂, h₃⟩ := h.live l hl.1
    obtain ⟨h₄, h₅, -⟩ := hfr _ h₂ (by have := hl.2; omega)
    exact ⟨h₁, h₄, by rw [h₅]; exact h₃⟩
  · exact h.distinct.sublist (List.Sublist.map _ List.filter_sublist)

theorem keep_all (h : r.Inv G) (hG : Good s' G')
    (hfr : ∀ x ∈ G.asg, x ∈ G'.asg ∧ Keep r.heap s' x) : (⟨s', r.live⟩ : Run).Inv G' := by
  refine ⟨hG, ?_, h.distinct⟩
  intro l hl
  obtain ⟨h₁, h₂, h₃⟩ := h.live l hl
  obtain ⟨h₄, h₅, -⟩ := hfr _ h₂
  exact ⟨h₁, h₄, by rw [h₅]; exact h₃⟩

theorem add (h : r.Inv G) {m n : ℕ} (hm : m ∈ G.asg) (hn : n + 16 ≤ r.heap.get .sz m)
    (hnew : ∀ l ∈ r.live, l.1 ≠ m + 16) : (⟨r.heap, (m + 16, n) :: r.live⟩ : Run).Inv G := by
  refine ⟨h.good, ?_, ?_⟩
  · intro l hl
    rcases List.mem_cons.mp hl with rfl | hl
    · exact ⟨by simp, by simpa using hm, by simpa using hn⟩
    · exact h.live l hl
  · simp only [List.map_cons, List.nodup_cons]
    refine ⟨?_, h.distinct⟩
    simp only [List.mem_map, not_exists, not_and]
    exact hnew

theorem served (h : r.Inv G) {m size szneed : ℕ} (hs : Served r.heap G szneed s' G' m)
    (hle : size + 16 ≤ szneed) : (⟨s', (m + 16, size) :: r.live⟩ : Run).Inv G' := by
  refine (h.keep_all hs.good hs.frame).add hs.asg (le_trans hle hs.size) ?_
  intro l hl he
  obtain ⟨h₁, h₂, -⟩ := h.live l hl
  exact hs.fresh (by rwa [he, Nat.add_sub_cancel] at h₂)

theorem resized (h : r.Inv G) {m m' size szneed : ℕ}
    (hs : Resized r.heap G m szneed s' G' m') (hle : size + 16 ≤ szneed) :
    (⟨s', (m' + 16, size) :: r.live.filter fun l => l.1 ≠ m + 16⟩ : Run).Inv G' := by
  refine (h.keep hs.good _ (fun x hx hne => hs.frame x hx (by omega))).add hs.asg
    (le_trans hle hs.size) ?_
  intro l hl he
  simp only [List.mem_filter, decide_eq_true_eq] at hl
  obtain ⟨h₁, h₂, -⟩ := h.live l hl.1
  rcases hs.fresh with hf | hf
  · exact hl.2 (he.trans (by rw [hf]))
  · exact hf (by rwa [he, Nat.add_sub_cancel] at h₂)

theorem store (h : r.Inv G) {addr : ℕ} {value : UInt8}
    (ha : (∃ l ∈ r.live, l.1 ≤ addr ∧ addr < l.1 + l.2) ∨
      ∀ g ∈ r.heap.grants, addr < g.1 ∨ g.1 + g.2 ≤ addr) :
    (⟨{ r.heap with mem := put r.heap.mem addr value }, r.live⟩ : Run).Inv G := by
  have hL := h.good.inv.legal
  have hne : (∀ y ∈ G.blocks, addr < y ∨ y + 16 ≤ addr) ∧
      ∀ y, G.Listed y → addr < y ∨ y + 20 ≤ addr := by
    rcases ha with ⟨l, hl, h₁, h₂⟩ | ha
    · obtain ⟨h₃, h₄, h₅⟩ := h.live l hl
      have hheld : addr ∈ (G.view r.heap.get 0).held :=
        ⟨l.1 - 16, h₄, hL.ne_zero h₄.1, by omega, by omega⟩
      have hV := (hL.proper 0).ok
      exact ⟨hV.held_block addr hheld, fun y hy => hV.held_spare addr hheld y (.inl hy)⟩
    · have hout : ∀ y ∈ G.blocks, addr < y ∨ y + r.heap.get .sz y ≤ addr := by
        intro y hy
        obtain ⟨g, hg, h₁, h₂, -⟩ := hL.chain.home y hy
        by_contra hc
        push Not at hc
        obtain ⟨g', hg', h₃, h₄⟩ := groupsOf_cover g hg addr (by omega) (by omega)
        have := ha g' hg'
        omega
      refine ⟨fun y hy => ?_, fun y hy => ?_⟩
      · have := hout y hy
        have := hL.chain.big y hy
        omega
      · have := hout y (hL.listed_mem hy)
        have := hL.large_listed hy
        omega
  have hinv := h.good.inv.write (put r.heap.mem addr value) (e := .bucket 0)
    (fun y hy i h₁ h₂ => put_ne _ _ (by have := hne.1 y hy; omega))
    (fun y hy i h₁ h₂ => put_ne _ _ (by have := hne.2 y hy; omega)) (by decide)
  refine ⟨⟨⟨hinv.legal, h.good.inv.clean, hinv.valid⟩, h.good.last, h.good.empty⟩, ?_, h.distinct⟩
  intro l hl
  obtain ⟨h₁, h₂, h₃⟩ := h.live l hl
  refine ⟨h₁, h₂, le_of_le_of_eq h₃ ?_⟩
  refine (get_congr fun i h₄ h₅ => put_ne _ _ ?_).symm
  have := hne.1 _ h₂.1
  simp only [Field.offset] at h₄ h₅
  omega

theorem step (h : r.Inv G) {c : Call × Option ℕ} (hc : Allowed r c) (hr : Tame r c) :
    ∃ r' G', r.step c = .ok r' ∧ r'.Inv G' := by
  obtain ⟨c, ans⟩ := c
  have hmalloc : ∀ size, size ≤ 4294967272 → Answers r.heap ans (roundup (atLeastOne size)) →
      ∃ r' G', r.step (.malloc size, ans) = .ok r' ∧ r'.Inv G' := by
    intro size hsize hans
    obtain ⟨-, -, hle, -⟩ := roundup_atLeastOne hsize
    simp only [Run.step]
    rcases nmalloc_spec h.good hsize hans hr with hs | ⟨s', G', m, hs, hm0, hserve⟩
    · exact ⟨r, G, by simp only [hs, bind, Except.bind, if_true], h⟩
    · refine ⟨_, G', ?_, h.served hserve hle⟩
      simp only [hs, bind, Except.bind, if_neg (show ¬ m + 16 = 0 by omega)]
  cases c with
  | malloc size => exact hmalloc size hc.1 hc.2
  | free ptr =>
      simp only [Run.step]
      rcases hc with rfl | ⟨l, hl, rfl⟩
      · refine ⟨_, G, rfl, h.keep h.good _ fun x hx _ => ⟨hx, rfl, fun _ _ _ => rfl⟩⟩
      · obtain ⟨h₁, h₂, -⟩ := h.live l hl
        obtain ⟨s', G', hs, hG, hfr⟩ := nfree_spec h.good h₂
        rw [Nat.sub_add_cancel h₁] at hs
        exact ⟨_, G', by simp only [hs, bind, Except.bind],
          h.keep hG l.1 fun x hx hne => hfr x hx (by omega)⟩
  | realloc ptr size =>
      obtain ⟨hptr, hsize, hans⟩ := hc
      obtain ⟨-, -, hle, -⟩ := roundup_atLeastOne hsize
      rcases hptr with rfl | ⟨l, hl, rfl⟩
      · -- a null pointer makes it a malloc, and no live pointer is null
        obtain ⟨r', G', hr', hinv⟩ := hmalloc size hsize hans
        have hlive : (r.live.filter fun l => l.1 ≠ 0) = r.live := by
          refine List.filter_eq_self.mpr fun l hl => ?_
          have := (h.live l hl).1
          simp only [decide_eq_true_eq]
          omega
        refine ⟨r', G', ?_, hinv⟩
        rw [← hr']
        simp only [Run.step, hlive, nrealloc, if_true]
      · obtain ⟨h₁, h₂, -⟩ := h.live l hl
        simp only [Run.step]
        rcases nrealloc_spec h.good h₂ hsize hans hr with hs | ⟨s', G', m', hs, hm0, hres⟩
        · rw [Nat.sub_add_cancel h₁] at hs
          exact ⟨r, G, by simp only [hs, bind, Except.bind, if_true], h⟩
        · rw [Nat.sub_add_cancel h₁] at hs
          have hinv := h.resized hres hle
          rw [Nat.sub_add_cancel h₁] at hinv
          refine ⟨_, G', ?_, hinv⟩
          simp only [hs, bind, Except.bind, if_neg (show ¬ m' + 16 = 0 by omega)]
  | calloc n size =>
      obtain ⟨-, -, hle, -⟩ := roundup_atLeastOne hc.1
      simp only [Run.step]
      rcases ncalloc_spec h.good hc.1 hc.2 hr with hs | ⟨s', G', m, hs, hm0, hserve, -⟩
      · exact ⟨r, G, by simp only [hs, bind, Except.bind, if_true], h⟩
      · refine ⟨_, G', ?_, h.served hserve hle⟩
        simp only [hs, bind, Except.bind, if_neg (show ¬ m + 16 = 0 by omega)]
  | store addr value => exact ⟨_, G, rfl, h.store hc⟩

end Run.Inv

theorem Run.Inv.init (mem : Mem) : (Run.init mem).Inv ⟨∅, fun _ => [], 0⟩ := by
  have hground := (ground_groupsOf (show Valid [] from trivial)).1
  refine ⟨⟨⟨⟨hground, ?_, ?_, ?_, ?_, ?_, ?_, ?_⟩, ?_, trivial⟩, rfl, fun _ => rfl⟩, ?_, ?_⟩
  · exact ⟨by simp, by simp, by simp, by simp, by simp, by simp, by simp [Run.init, Heap.init,
      groupsOf]⟩
  · exact ⟨fun b => linked_nil _ _ _, fun b _ => rfl, fun b b' _ x hx => by simp at hx⟩
  · intro b x hx
    simp at hx
  · simp
  · simp
  · exact fun h0 => absurd rfl h0
  · simp
  · simp [Run.init, Heap.init]
  · simp [Run.init]
  · simp [Run.init]

theorem Run.Inv.exec {mem : Mem} {cs : List (Call × Option ℕ)}
    (hc : Runs.Along Run.step Allowed (Run.init mem) cs)
    (hr : Runs.Along Run.step Tame (Run.init mem) cs) :
    ∃ r G, Runs.exec Run.step (Run.init mem) cs = .ok r ∧ r.Inv G := by
  obtain ⟨r, hr, G, hG⟩ := Runs.exec_invariant (J := fun r : Run => ∃ G, r.Inv G)
    (fun r c ⟨G, hG⟩ h₁ h₂ =>
      let ⟨r', G', hr', hG'⟩ := hG.step h₁ h₂
      ⟨r', hr', G', hG'⟩)
    ⟨_, Run.Inv.init mem⟩ hc hr
  exact ⟨r, G, hr, hG⟩

end DjgppLibc.NewMalloc
