import DjgppLibc.MallocRealloc
import DjgppLibc.Runs

/-!
# The record of a heap

A routine adds to the record and drops nothing from it. This holds on every
heap, also on one that is no longer in order, so it is the way to tell what a
routine did before the heap was damaged.
-/
namespace DjgppLibc.NewMalloc
open ByteMemory

def Heap.Logs (s s' : Heap) : Prop := ∀ e ∈ s.trace, e ∈ s'.trace

namespace Heap.Logs
variable {s s' s'' : Heap} {f : Field} {a v ext : ℕ} {e : Event}

theorem refl (s : Heap) : s.Logs s := fun _ he => he

theorem trans (h : s.Logs s') (h' : s'.Logs s'') : s.Logs s'' := fun e he => h' e (h e he)

theorem log (h : s.Logs s') : s.Logs (s'.log e) := fun e he => List.mem_cons_of_mem _ (h e he)

theorem setIn (h : s.Logs s') : s.Logs (s'.setIn ext f a v) :=
  fun e he => List.mem_cons_of_mem _ (h e he)

theorem set (h : s.Logs s') : s.Logs (s'.set f a v) := h.setIn

theorem setHdr (h : s.Logs s') : s.Logs (s'.setHdr a v) := h

theorem ite (c : Prop) [Decidable c] (h : s.Logs s') (h' : s.Logs s'') :
    s.Logs (if c then s' else s'') := by
  split_ifs
  · exact h
  · exact h'

end Heap.Logs

open Heap (Logs)

variable [Image] {s s' : Heap} {a b k m m' ptr size szneed : ℕ} {ans : Option ℕ}

theorem extractfree_logs (s : Heap) (m : ℕ) : s.Logs (extractfree s m) := by
  unfold extractfree
  refine Logs.ite _ (Logs.refl s) ?_
  refine Logs.set (Logs.set ?_)
  have h₁ : s.Logs (s.log (.bucket (size2bucket (s.get .sz m)))) := (Logs.refl s).log
  refine Logs.ite _ (Logs.set ?_) (Logs.ite _ (Logs.setHdr ?_) (Logs.setHdr ?_)) <;>
    exact Logs.ite _ (Logs.set (Logs.ite _ (Logs.set (Logs.ite _ (Logs.set h₁) h₁))
      (Logs.ite _ (Logs.set h₁) h₁))) (Logs.ite _ (Logs.set (Logs.ite _ (Logs.set h₁) h₁))
      (Logs.ite _ (Logs.set h₁) h₁))

omit [Image] in
theorem joinBlocks_logs (s : Heap) (a b : ℕ) : s.Logs (joinBlocks s a b) := by
  unfold joinBlocks
  exact Logs.set (Logs.ite _ (Logs.set (Logs.refl s).set) (Logs.refl s).set)

theorem combinehi_logs (h : combinehi s m = .ok (s', m')) : s.Logs s' := by
  by_cases h₁ : m ≠ 0 ∧ s.get .next m ≠ 0
  · by_cases h₂ : s.get .prev (s.get .next m) ≠ m
    · rw [combinehi, if_pos h₁] at h
      simp only [if_pos h₂, reduceCtorEq] at h
    · rw [combinehi_eq h₁ (not_not.mp h₂)] at h
      obtain ⟨rfl, -⟩ := Prod.mk.inj (Except.ok.inj h)
      exact Logs.trans (Logs.ite _ (extractfree_logs s _) (Logs.refl s)) (joinBlocks_logs _ _ _)
  · rw [combinehi, if_neg h₁] at h
    obtain ⟨rfl, -⟩ := Prod.mk.inj (Except.ok.inj h)
    exact Logs.refl s

theorem pushfree_logs (s : Heap) (m : ℕ) : s.Logs (pushfree s m) := by
  unfold pushfree
  refine Logs.log (Logs.setHdr (Logs.ite _ (Logs.set (Logs.set ?_)) (Logs.set ?_))) <;>
    exact Logs.ite _ (Logs.set (Logs.refl s).set) (Logs.refl s).set

theorem mv2freelist_logs (h : mv2freelist s m = .ok s') : s.Logs s' := by
  by_cases hm0 : m = 0
  · unfold mv2freelist at h
    rw [if_pos hm0] at h
    obtain rfl := Except.ok.inj h
    exact Logs.refl s
  obtain ⟨o, ho⟩ : ∃ o, (if isFree s (s.get .next m) then combinehi s m else .ok (s, m)) = o :=
    ⟨_, rfl⟩
  cases o with
  | error t =>
      unfold mv2freelist at h
      rw [if_neg hm0] at h
      split_ifs at ho with hf
      simp only [if_pos hf, ho, bind, Except.bind, reduceCtorEq] at h
  | ok o =>
      obtain ⟨s₁, m₁⟩ := o
      rw [mv2freelist_eq hm0 ho] at h
      have h₁ : s.Logs s₁ := by
        split_ifs at ho with hf
        · exact combinehi_logs ho
        · obtain ⟨rfl, -⟩ := Prod.mk.inj (Except.ok.inj ho)
          exact Logs.refl s
      refine h₁.trans (Logs.trans
        ((Logs.refl s₁).log (e := .bucket (size2bucket (s₁.get .sz m₁)))) ?_)
      split_ifs at h with hl
      · cases hc : combinehi (s₁.log (.bucket (size2bucket (s₁.get .sz m₁)))) m₁ with
        | error t =>
            rw [hc] at h
            simp [bind, Except.bind] at h
        | ok o =>
            obtain ⟨s₂, m₂⟩ := o
            rw [hc] at h
            obtain rfl := Except.ok.inj h
            exact (combinehi_logs hc).trans (Logs.set (Logs.set (Logs.setHdr (Logs.refl s₂))))
      · obtain rfl := Except.ok.inj h
        exact pushfree_logs _ m₁

omit [Image] in
theorem nmallocSplit_logs (h : nmallocSplit s m k = .ok (s', a, b)) :
    a = m ∧ .split k ∈ s'.trace ∧ s.Logs s' := by
  unfold nmallocSplit at h
  dsimp only at h
  have key : ∀ t : Heap, (s.log (.split k)).Logs t → .split k ∈ t.trace ∧ s.Logs t :=
    fun t ht => ⟨ht _ List.mem_cons_self, Logs.trans (Logs.refl s).log ht⟩
  have h₀ : (s.log (.split k)).Logs { s.log (.split k) with
      mem := copyUp (s.log (.split k)).mem (m + k) m dataOffset } := fun e he => he
  split_ifs at h
  · obtain ⟨rfl, rfl, -⟩ := Except.ok.inj h
    exact ⟨rfl, key _ (Logs.set (Logs.set (Logs.set (Logs.set (Logs.setIn (Logs.setIn (Logs.log h₀)))))))⟩
  · obtain ⟨rfl, rfl, -⟩ := Except.ok.inj h
    exact ⟨rfl, key _ (Logs.set (Logs.set (Logs.set (Logs.setIn (Logs.setIn (Logs.log h₀))))))⟩

theorem combinelo_logs (h : combinelo s m = .ok (s', m')) : s.Logs s' := by
  unfold combinelo at h
  dsimp only at h
  split_ifs at h with hf hn hz
  · obtain ⟨rfl, -⟩ := Prod.mk.inj (Except.ok.inj h)
    exact Logs.set (Logs.set (Logs.set (extractfree_logs s _)))
  · obtain ⟨rfl, -⟩ := Prod.mk.inj (Except.ok.inj h)
    exact Logs.set (Logs.set (extractfree_logs s _))
  · obtain ⟨rfl, -⟩ := Prod.mk.inj (Except.ok.inj h)
    exact Logs.refl s

theorem dofree_logs (h : dofree s m = .ok s') : s.Logs s' := by
  have h₀ : s.Logs ((s.set .prevfree m NONE).set .nextfree m NONE) := Logs.set (Logs.refl s).set
  have hend : ∀ t n, (if t.lastsbrk ≠ 0 ∧ t.lastsbrk = t.get .prev n then .ok t
      else mv2freelist t n) = .ok s' → t.Logs s' := by
    intro t n ht
    split_ifs at ht
    · obtain rfl := Except.ok.inj ht
      exact Logs.refl t
    · exact mv2freelist_logs ht
  have hlo : ∀ t n, (if isFree t (t.get .prev n) then do
        let p ← combinelo t n
        if p.1.lastsbrk ≠ 0 ∧ p.1.lastsbrk = p.1.get .prev p.2 then .ok p.1 else mv2freelist p.1 p.2
      else if t.lastsbrk ≠ 0 ∧ t.lastsbrk = t.get .prev n then .ok t else mv2freelist t n) =
        .ok s' → t.Logs s' := by
    intro t n ht
    by_cases hc : isFree t (t.get .prev n)
    · rw [if_pos hc] at ht
      obtain ⟨⟨u, k⟩, hu, hk⟩ := Runs.bind_ok ht
      exact (combinelo_logs hu).trans (hend u k hk)
    · rw [if_neg hc] at ht
      exact hend t n ht
  unfold dofree at h
  dsimp only at h
  by_cases hc : isFree ((s.set .prevfree m NONE).set .nextfree m NONE)
      (((s.set .prevfree m NONE).set .nextfree m NONE).get .next m)
  · rw [if_pos hc] at h
    obtain ⟨⟨u, k⟩, hu, hk⟩ := Runs.bind_ok h
    exact h₀.trans ((combinehi_logs hu).trans (hlo u k hk))
  · rw [if_neg hc] at h
    exact h₀.trans (hlo _ m h)

theorem rmvfromfree_logs (h : rmvfromfree s m = .ok s') : s.Logs s' := by
  unfold rmvfromfree at h
  dsimp only at h
  have h₀ : ∀ b, s.Logs (s.log (.bucket b)) := fun b => (Logs.refl s).log
  split_ifs at h
  · obtain rfl := Except.ok.inj h
    exact Logs.refl s
  · obtain rfl := Except.ok.inj h
    exact Logs.set (Logs.setHdr (h₀ _))
  · obtain rfl := Except.ok.inj h
    exact Logs.set (Logs.set (Logs.setHdr (h₀ _)))

theorem split_list_logs (h : (do
      let (s, m, m1) ← nmallocSplit s m szneed
      let s ← mv2freelist s m1
      .ok (s, m)) = .ok (s', m')) : m' = m ∧ .split szneed ∈ s'.trace ∧ s.Logs s' := by
  obtain ⟨⟨t, a, b⟩, ht, h⟩ := Runs.bind_ok h
  obtain ⟨u, hu, h⟩ := Runs.bind_ok h
  obtain ⟨rfl, rfl⟩ := Prod.mk.inj (Except.ok.inj h)
  obtain ⟨rfl, hmem, hlog⟩ := nmallocSplit_logs ht
  have hlog' := mv2freelist_logs hu
  exact ⟨rfl, hlog' _ hmem, hlog.trans hlog'⟩

theorem takefree_logs (h : takefree s b szneed = .ok (s', m')) :
    m' = s.freehdrs b ∧ s.Logs s' := by
  unfold takefree at h
  obtain ⟨t, ht, h⟩ := Runs.bind_ok h
  dsimp only at h
  split_ifs at h
  · obtain ⟨rfl, rfl⟩ := Prod.mk.inj (Except.ok.inj h)
    exact ⟨rfl, rmvfromfree_logs ht⟩
  · obtain ⟨rfl, -, hlog⟩ := split_list_logs h
    exact ⟨rfl, (rmvfromfree_logs ht).trans hlog⟩

omit [Image] in
theorem splitLastsbrk_logs (h : splitLastsbrk s szneed = .ok (s', m')) :
    m' = s.lastsbrk ∧ .split szneed ∈ s'.trace ∧ s.Logs s' := by
  unfold splitLastsbrk at h
  obtain ⟨⟨t, a, b⟩, ht, h⟩ := Runs.bind_ok h
  obtain ⟨rfl, rfl⟩ := Prod.mk.inj (Except.ok.inj h)
  obtain ⟨rfl, hmem, hlog⟩ := nmallocSplit_logs ht
  exact ⟨rfl, hmem, hlog⟩

omit [Image] in
theorem recordnewsbrk_eq (s : Heap) (bk : ℕ) :
    (recordnewsbrk s bk).lastsbrk = s.lastsbrk ∧ (recordnewsbrk s bk).trace = s.trace := by
  unfold recordnewsbrk
  split_ifs <;> exact ⟨rfl, rfl⟩

theorem extendsbrk_logs {m : ℕ} (h : extendsbrk s ans szneed = .ok (s', m)) :
    s.Logs s' ∧ (ans = none ∧ m = 0 ∨ ∃ a, ans = some a ∧ s'.lastsbrk = m ∧
      m = if a = expected s then s.lastsbrk else alignUp a) := by
  unfold extendsbrk at h
  cases ans with
  | none =>
      obtain ⟨rfl, rfl⟩ := Prod.mk.inj (Except.ok.inj h)
      exact ⟨Logs.refl s, .inl ⟨rfl, rfl⟩⟩
  | some a =>
      dsimp only at h
      by_cases ha : a = expected s
      · rw [if_pos ha] at h
        obtain ⟨rfl, rfl⟩ := Prod.mk.inj (Except.ok.inj h)
        exact ⟨Logs.set (fun e he => he), .inr ⟨a, rfl, rfl, (if_pos ha).symm⟩⟩
      · rw [if_neg ha] at h
        obtain ⟨t, ht, h⟩ := Runs.bind_ok h
        obtain ⟨rfl, rfl⟩ := Prod.mk.inj (Except.ok.inj h)
        have hlog := mv2freelist_logs ht
        obtain ⟨h₁, h₂⟩ := recordnewsbrk_eq (t.setLastsbrk (alignUp a)) (alignUp a)
        refine ⟨?_, .inr ⟨a, rfl, h₁, (if_neg ha).symm⟩⟩
        intro e he
        change e ∈ (recordnewsbrk (t.setLastsbrk (alignUp a)) (alignUp a)).trace
        rw [h₂]
        exact hlog e (Logs.setIn (Logs.setIn (Logs.setIn (Logs.setIn (fun e he => he)))) e he)

theorem trim_logs (h : trim s m szneed = .ok (s', m')) : s.Logs s' := by
  unfold trim at h
  split_ifs at h
  · exact (split_list_logs h).2.2
  · obtain ⟨rfl, -⟩ := Prod.mk.inj (Except.ok.inj h)
    exact Logs.refl s

theorem growIntoLastsbrk_logs (h : growIntoLastsbrk s m szneed = .ok (s', m')) : s.Logs s' := by
  unfold growIntoLastsbrk at h
  obtain ⟨⟨t, n⟩, ht, h⟩ := Runs.bind_ok h
  obtain ⟨⟨u, a, b⟩, hu, h⟩ := Runs.bind_ok h
  obtain ⟨rfl, -⟩ := Prod.mk.inj (Except.ok.inj h)
  exact (combinehi_logs ht).trans (nmallocSplit_logs hu).2.2

theorem growIntoPrev_logs (h : growIntoPrev s m szneed = .ok (s', m')) : s.Logs s' := by
  rw [growIntoPrev_eq] at h
  refine Logs.trans ?_ (trim_logs h)
  refine Logs.log ?_
  refine Logs.trans (extractfree_logs s (s.get .prev m)) ?_
  unfold slideJoin
  exact Logs.ite _ (Logs.set (Logs.set (Logs.refl _).set)) (Logs.set (Logs.refl _).set)

theorem copy_free_logs (h : dofree (copyData s a b) m = .ok s') : s.Logs s' := by
  refine Logs.trans (fun e he => ?_) (dofree_logs h)
  unfold copyData
  exact List.mem_cons_of_mem _ he

theorem mv2lastsbrk_logs (h : mv2lastsbrk s m szneed = .ok (s', m')) : s.Logs s' := by
  unfold mv2lastsbrk at h
  obtain ⟨⟨t, n⟩, ht, h⟩ := Runs.bind_ok h
  obtain ⟨u, hu, h⟩ := Runs.bind_ok h
  obtain ⟨rfl, -⟩ := Prod.mk.inj (Except.ok.inj h)
  exact (splitLastsbrk_logs ht).2.2.trans (copy_free_logs hu)

theorem reallocBlock_logs (h : reallocBlock s ans m szneed = .ok (s', m')) : s.Logs s' := by
  unfold reallocBlock at h
  split_ifs at h
  · exact trim_logs h
  · obtain ⟨rfl, -⟩ := Prod.mk.inj (Except.ok.inj h)
    exact Logs.refl s
  · obtain ⟨⟨t, n⟩, ht, h⟩ := Runs.bind_ok h
    exact (combinehi_logs ht).trans (trim_logs h)
  · exact growIntoLastsbrk_logs h
  · exact growIntoPrev_logs h
  · obtain ⟨⟨t, n⟩, ht, h⟩ := Runs.bind_ok h
    obtain ⟨u, hu, h⟩ := Runs.bind_ok h
    obtain ⟨rfl, -⟩ := Prod.mk.inj (Except.ok.inj h)
    exact (takefree_logs ht).2.trans (copy_free_logs hu)
  · exact mv2lastsbrk_logs h
  · obtain ⟨⟨t, n⟩, ht, h⟩ := Runs.bind_ok h
    refine (extendsbrk_logs ht).1.trans ?_
    dsimp only at h
    split_ifs at h
    · obtain ⟨rfl, -⟩ := Prod.mk.inj (Except.ok.inj h)
      exact Logs.refl _
    · exact growIntoLastsbrk_logs h
    · exact mv2lastsbrk_logs h

theorem nrealloc_logs (hptr : ptr ≠ 0) (h : nrealloc s ans ptr size = .ok (s', m')) :
    s.Logs s' := by
  unfold nrealloc at h
  rw [if_neg hptr] at h
  dsimp only at h
  split_ifs at h
  · obtain ⟨rfl, -⟩ := Prod.mk.inj (Except.ok.inj h)
    exact (Logs.refl s).log
  all_goals
    obtain ⟨⟨t, n⟩, ht, h⟩ := Runs.bind_ok h
    obtain ⟨rfl, -⟩ := Prod.mk.inj (Except.ok.inj h)
    exact reallocBlock_logs ht

theorem nfree_logs (h : nfree s ptr = .ok s') : s.Logs s' := by
  unfold nfree at h
  dsimp only at h
  split_ifs at h
  · obtain rfl := Except.ok.inj h
    exact (Logs.refl s).log
  · exact dofree_logs h
  · obtain rfl := Except.ok.inj h
    exact Logs.refl s

end DjgppLibc.NewMalloc
