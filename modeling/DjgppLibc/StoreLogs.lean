import Mathlib.Tactic.Linarith

/-!
# Logs of stores into a block of memory

A block grows while it is filled. The log of its stores keeps with each of them the size that
the block had then. Stores that fill a part of a list are apart from each other and leave
nothing out, so that the block holds this part of the list, in whatever order they were made.
-/
namespace DjgppLibc.StoreLogs

variable {α : Type}

structure Store (α : Type) where
  offset : ℤ
  cells : List α
  size : ℕ

namespace Store

def stop (s : Store α) : ℤ := s.offset + s.cells.length

def Inside (s : Store α) : Prop := 0 ≤ s.offset ∧ s.stop ≤ s.size

def Apart (s t : Store α) : Prop := s.stop ≤ t.offset ∨ t.stop ≤ s.offset

def Writes (l : List α) (s : Store α) : Prop :=
  ∃ before after, l = before ++ (s.cells ++ after) ∧ s.offset = before.length

def perform (mem : ℤ → α) (s : Store α) (k : ℤ) : α :=
  if s.offset ≤ k ∧ k < s.stop then s.cells.getD (k - s.offset).toNat (mem k) else mem k

theorem Apart.symm {s t : Store α} (h : s.Apart t) : t.Apart s := Or.symm h

theorem Writes.append {l : List α} {s : Store α} (h : s.Writes l) (m : List α) :
    s.Writes (l ++ m) := by
  obtain ⟨before, after, rfl, hoffset⟩ := h
  exact ⟨before, after ++ m, by simp only [List.append_assoc], hoffset⟩

/-- A store of cells of the list leaves them in the block. -/
theorem Writes.perform_eq {l : List α} {s : Store α} (h : s.Writes l) (mem : ℤ → α) {k : ℤ}
    (hlo : s.offset ≤ k) (hhi : k < s.stop) : l[k.toNat]? = some (s.perform mem k) := by
  obtain ⟨before, after, rfl, hoffset⟩ := h
  have hstop : s.stop = s.offset + s.cells.length := rfl
  have hk : k.toNat = before.length + (k - s.offset).toNat := by omega
  have hlt : (k - s.offset).toNat < s.cells.length := by omega
  rw [perform, if_pos ⟨hlo, hhi⟩, hk, List.getElem?_append_right (Nat.le_add_right _ _),
    Nat.add_sub_cancel_left, List.getElem?_append_left hlt, List.getD_eq_getElem?_getD,
    List.getElem?_eq_getElem hlt]
  rfl

theorem foldl_perform_of_forall {log : List (Store α)} {k : ℤ}
    (h : ∀ s ∈ log, ¬ (s.offset ≤ k ∧ k < s.stop)) (mem : ℤ → α) :
    log.foldl perform mem k = mem k := by
  induction log generalizing mem with
  | nil => rfl
  | cons s log ih =>
      obtain ⟨hs, hlog⟩ := List.forall_mem_cons.mp h
      rw [List.foldl_cons, ih hlog, perform, if_neg hs]

end Store

open Store

/-- The stores fill the cells from `lo` to `hi` with those of a list. -/
structure Fills (l : List α) (lo hi : ℤ) (log : List (Store α)) : Prop where
  le : lo ≤ hi
  writes : ∀ s ∈ log, s.Writes l
  within : ∀ s ∈ log, lo ≤ s.offset ∧ s.stop ≤ hi
  apart : log.Pairwise Apart
  covers : ∀ k, lo ≤ k → k < hi → ∃ s ∈ log, s.offset ≤ k ∧ k < s.stop

namespace Fills

variable {l : List α} {lo mid hi : ℤ} {log log₁ log₂ : List (Store α)}

theorem nil (l : List α) (lo : ℤ) : Fills l lo lo [] where
  le := le_refl lo
  writes := fun _ h => absurd h List.not_mem_nil
  within := fun _ h => absurd h List.not_mem_nil
  apart := .nil
  covers := fun _ hlo hhi => absurd hhi (not_lt.mpr hlo)

theorem single {s : Store α} (h : s.Writes l) : Fills l s.offset s.stop [s] where
  le := le_add_of_nonneg_right (Int.natCast_nonneg _)
  writes := List.forall_mem_singleton.mpr h
  within := List.forall_mem_singleton.mpr ⟨le_refl _, le_refl _⟩
  apart := List.pairwise_singleton _ _
  covers := fun _ hlo hhi => ⟨s, List.mem_singleton_self s, hlo, hhi⟩

/-- Stores that are made in any order may be looked at in another. -/
theorem perm (h : Fills l lo hi log₁) (hp : log₁.Perm log₂) : Fills l lo hi log₂ where
  le := h.le
  writes := fun s hs => h.writes s (hp.mem_iff.mpr hs)
  within := fun s hs => h.within s (hp.mem_iff.mpr hs)
  apart := (hp.pairwise_iff Apart.symm).mp h.apart
  covers := fun k hlo hhi =>
    have ⟨s, hs, hk⟩ := h.covers k hlo hhi
    ⟨s, hp.mem_iff.mp hs, hk⟩

theorem append (h₁ : Fills l lo mid log₁) (h₂ : Fills l mid hi log₂) :
    Fills l lo hi (log₁ ++ log₂) where
  le := le_trans h₁.le h₂.le
  writes := fun s hs => (List.mem_append.mp hs).elim (h₁.writes s) (h₂.writes s)
  within := fun s hs => (List.mem_append.mp hs).elim
    (fun hs => ⟨(h₁.within s hs).1, le_trans (h₁.within s hs).2 h₂.le⟩)
    (fun hs => ⟨le_trans h₁.le (h₂.within s hs).1, (h₂.within s hs).2⟩)
  apart := List.pairwise_append.mpr ⟨h₁.apart, h₂.apart, fun s hs t ht =>
    .inl (le_trans (h₁.within s hs).2 (h₂.within t ht).1)⟩
  covers := by
    intro k hlo hhi
    obtain hk | hk := lt_or_ge k mid
    · obtain ⟨s, hs, hcover⟩ := h₁.covers k hlo hk
      exact ⟨s, List.mem_append_left _ hs, hcover⟩
    · obtain ⟨s, hs, hcover⟩ := h₂.covers k hk hhi
      exact ⟨s, List.mem_append_right _ hs, hcover⟩

theorem append_below (h₂ : Fills l mid hi log₂) (h₁ : Fills l lo mid log₁) :
    Fills l lo hi (log₂ ++ log₁) :=
  (h₁.append h₂).perm List.perm_append_comm

theorem extend (h : Fills l lo hi log) (m : List α) : Fills (l ++ m) lo hi log :=
  { h with writes := fun s hs => (h.writes s hs).append m }

theorem holds (h : Fills l lo hi log) (mem : ℤ → α) {k : ℤ} (hlo : lo ≤ k) (hhi : k < hi) :
    l[k.toNat]? = some (log.foldl perform mem k) := by
  obtain ⟨s, hs, hcover⟩ := h.covers k hlo hhi
  have hwrites := h.writes
  clear h
  -- a later store that covers the cell, too, writes the same
  induction log generalizing mem s with
  | nil => exact absurd hs List.not_mem_nil
  | cons t log ih =>
      have hlater : ∀ s ∈ log, s.Writes l := fun s hs => hwrites s (List.mem_cons_of_mem _ hs)
      by_cases hexists : ∃ s ∈ log, s.offset ≤ k ∧ k < s.stop
      · obtain ⟨s, hs, hcover⟩ := hexists
        exact ih _ s hs hcover hlater
      · have hlast : s = t :=
          (List.mem_cons.mp hs).resolve_right fun hs => hexists ⟨s, hs, hcover⟩
        rw [List.foldl_cons, foldl_perform_of_forall fun s hs hc => hexists ⟨s, hs, hc⟩, ← hlast]
        exact (hwrites s hs).perform_eq mem hcover.1 hcover.2

end Fills

end DjgppLibc.StoreLogs
