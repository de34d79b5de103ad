import Mathlib.Data.List.Nodup

/-!
# Doubly linked lists threaded through two link functions

The links are arbitrary functions `nx` and `pv` on a type of nodes; the list
of nodes is a ghost. A distinguished node `z` ends the list on both sides and
carries no links of its own. The three edits below (unlinking a member,
linking a new first node, and transport to other functions) are stated by the
values of the new link functions on the members alone, so they apply to any
store that updates the two links in any order.
-/
namespace DjgppLibc.LinkedLists

variable {α : Type*} {nx pv nx' pv' : α → α} {z : α}

/-- `Seg nx pv p l e`: the nodes `l` are linked in order, the first one back to
`p` and the last one forward to `e`. -/
def Seg (nx pv : α → α) : α → List α → α → Prop
  | _, [], _ => True
  | p, x :: l, e => pv x = p ∧ nx x = l.headD e ∧ Seg nx pv x l e

theorem seg_append (p e : α) (l₁ l₂ : List α) :
    Seg nx pv p (l₁ ++ l₂) e ↔
      Seg nx pv p l₁ (l₂.headD e) ∧ Seg nx pv (l₁.getLastD p) l₂ e := by
  induction l₁ generalizing p with
  | nil => simp [Seg]
  | cons x l₁ ih =>
      have hh : (l₁ ++ l₂).headD e = l₁.headD (l₂.headD e) := by cases l₁ <;> rfl
      have hl : (x :: l₁).getLastD p = l₁.getLastD x := by cases l₁ <;> simp [List.getLastD]
      simp only [List.cons_append, Seg, ih, hh, hl]
      tauto

/-- Only the last node of a segment points to its right end. -/
theorem Seg.relink_end {p e n : α} {l : List α} (h : Seg nx pv p l e) (he : e ∉ l)
    (hlast : ∀ y ∈ l, nx y = e → nx' y = n) (hn : ∀ y ∈ l, nx y ≠ e → nx' y = nx y)
    (hp : ∀ y ∈ l, pv' y = pv y) : Seg nx' pv' p l n := by
  induction l generalizing p with
  | nil => trivial
  | cons x l ih =>
      obtain ⟨hx, hnx, ht⟩ := h
      simp only [List.mem_cons, not_or] at he
      refine ⟨(hp x (by simp)).trans hx, ?_, ih ht he.2 (fun y hy => hlast y (by simp [hy]))
        (fun y hy => hn y (by simp [hy])) (fun y hy => hp y (by simp [hy]))⟩
      cases l with
      | nil => exact hlast x (by simp) hnx
      | cons y l =>
          simp only [List.headD_cons, List.mem_cons, not_or] at he hnx ⊢
          rw [hn x (by simp) (by rw [hnx]; exact Ne.symm he.2.1), hnx]

theorem Seg.relink_start {p q e : α} {l : List α} (h : Seg nx pv p l e) (hd : l.Nodup)
    (hn : ∀ y ∈ l, nx' y = nx y) (hfirst : ∀ x ∈ l.head?, pv' x = q)
    (hp : ∀ y ∈ l.tail, pv' y = pv y) : Seg nx' pv' q l e := by
  induction l generalizing p q with
  | nil => trivial
  | cons x l ih =>
      obtain ⟨hx, hnx, ht⟩ := h
      refine ⟨hfirst x rfl, (hn x (by simp)).trans hnx,
        ih ht hd.of_cons (fun y hy => hn y (by simp [hy])) ?_ ?_⟩
      · intro y hy
        cases l with
        | nil => simp at hy
        | cons w l =>
            simp only [List.head?_cons, Option.mem_def, Option.some.injEq] at hy
            subst hy
            exact (hp w (by simp)).trans ht.1
      · intro y hy
        exact hp y (List.mem_of_mem_tail hy)

theorem Seg.congr {p e : α} {l : List α} (h : Seg nx pv p l e)
    (hn : ∀ y ∈ l, nx' y = nx y) (hp : ∀ y ∈ l, pv' y = pv y) : Seg nx' pv' p l e := by
  induction l generalizing p with
  | nil => trivial
  | cons x l ih =>
      obtain ⟨hx, hnx, ht⟩ := h
      exact ⟨(hp x (by simp)).trans hx, (hn x (by simp)).trans hnx,
        ih ht (fun y hy => hn y (by simp [hy])) (fun y hy => hp y (by simp [hy]))⟩

/-- A proper list between two occurrences of its end mark. -/
structure Linked (nx pv : α → α) (z : α) (l : List α) : Prop where
  nodup : l.Nodup
  fresh : z ∉ l
  seg : Seg nx pv z l z

theorem linked_nil (nx pv : α → α) (z : α) : Linked nx pv z [] :=
  ⟨List.nodup_nil, by simp, trivial⟩

theorem Linked.congr {l : List α} (h : Linked nx pv z l)
    (hn : ∀ y ∈ l, nx' y = nx y) (hp : ∀ y ∈ l, pv' y = pv y) : Linked nx' pv' z l :=
  ⟨h.nodup, h.fresh, h.seg.congr hn hp⟩

theorem headD_eq_or_mem (l : List α) : l.headD z = z ∨ l.headD z ∈ l := by
  cases l <;> simp

theorem getLastD_eq_or_mem (l : List α) : l.getLastD z = z ∨ l.getLastD z ∈ l := by
  cases l with
  | nil => simp
  | cons x l =>
      right
      rw [List.getLastD_cons]
      rcases List.eq_nil_or_concat l with rfl | ⟨l', y, rfl⟩ <;> simp

/-- The two neighbours of a member, as its own links name them. -/
theorem Linked.around {l₁ l₂ : List α} {x : α} (h : Linked nx pv z (l₁ ++ x :: l₂)) :
    pv x = l₁.getLastD z ∧ nx x = l₂.headD z :=
  let h' := ((seg_append z z l₁ (x :: l₂)).mp h.seg).2
  ⟨h'.1, h'.2.1⟩

theorem Linked.eq_append_of_next {l : List α} {x : α} (h : Linked nx pv z l) (hx : x ∈ l)
    (hn : nx x = z) : ∃ l₁, l = l₁ ++ [x] := by
  obtain ⟨l₁, l₂, rfl⟩ := List.append_of_mem hx
  have hnext := h.around.2
  rw [hn] at hnext
  cases l₂ with
  | nil => exact ⟨l₁, rfl⟩
  | cons y l₂ =>
      rw [List.headD_cons] at hnext
      exact absurd (by simp [hnext]) h.fresh

theorem Linked.neighbours {l : List α} {x : α} (h : Linked nx pv z l) (hx : x ∈ l) :
    (nx x = z ∨ nx x ∈ l ∧ nx x ≠ x) ∧ (pv x = z ∨ pv x ∈ l ∧ pv x ≠ x) := by
  obtain ⟨l₁, l₂, rfl⟩ := List.append_of_mem hx
  obtain ⟨hp, hn⟩ := h.around
  have hd := h.nodup
  simp only [List.nodup_append, List.nodup_cons, List.mem_cons] at hd
  rw [hp, hn]
  constructor
  · rcases headD_eq_or_mem (z := z) l₂ with h₂ | h₂
    · exact .inl h₂
    · exact .inr ⟨List.mem_append_right _ (List.mem_cons_of_mem _ h₂),
        fun he => hd.2.1.1 (he ▸ h₂)⟩
  · rcases getLastD_eq_or_mem (z := z) l₁ with h₁ | h₁
    · exact .inl h₁
    · exact .inr ⟨List.mem_append_left _ h₁, fun he => hd.2.2 _ h₁ x (.inl rfl) he⟩

theorem Seg.eq_last_of_next {l : List α} {x y : α} (h : Seg nx pv z l x) (hx : x ∉ l)
    (hy : y ∈ l) (hn : nx y = x) : y = l.getLastD z := by
  obtain ⟨a, b, rfl⟩ := List.append_of_mem hy
  have hs := ((seg_append z x a (y :: b)).mp h).2.2.1
  cases b with
  | nil => simp
  | cons w b =>
      rw [hn] at hs
      exact absurd (hs ▸ by simp : x ∈ a ++ y :: w :: b) hx

theorem Linked.remove {l₁ l₂ : List α} {x : α} (h : Linked nx pv z (l₁ ++ x :: l₂))
    (hnp : pv x ≠ z → nx' (pv x) = nx x) (hpn : nx x ≠ z → pv' (nx x) = pv x)
    (hn : ∀ y ∈ l₁ ++ l₂, y ≠ pv x → nx' y = nx y)
    (hp : ∀ y ∈ l₁ ++ l₂, y ≠ nx x → pv' y = pv y) : Linked nx' pv' z (l₁ ++ l₂) := by
  obtain ⟨hpx, hnx⟩ := h.around
  have hd := h.nodup
  have hf := h.fresh
  obtain ⟨h₁, -, -, h₂⟩ := (seg_append z z l₁ (x :: l₂)).mp h.seg
  have hd' := hd
  simp only [List.nodup_append, List.nodup_cons, List.mem_cons] at hd'
  obtain ⟨hd₁, ⟨hx₂, hd₂⟩, hd₃⟩ := hd'
  have hx₁ : x ∉ l₁ := fun hm => hd₃ x hm x (.inl rfl) rfl
  simp only [List.mem_append, List.mem_cons, not_or] at hf
  refine ⟨?_, ?_, (seg_append z z l₁ l₂).mpr ⟨?_, ?_⟩⟩
  · exact List.nodup_append.mpr ⟨hd₁, hd₂, fun a ha b hb => hd₃ a ha b (.inr hb)⟩
  · simp [hf.1, hf.2.2]
  · -- left of the gap: the last node now points at the first node of the rest
    rw [List.headD_cons] at h₁
    apply h₁.relink_end hx₁
    · intro y hy hlast
      have hy' := (Seg.eq_last_of_next h₁ hx₁ hy hlast).trans hpx.symm
      have hyz : pv x ≠ z := fun he => hf.1 (by rw [← he, ← hy']; exact hy)
      rw [hy', hnp hyz, hnx]
    · intro y hy hne
      apply hn y (by simp [hy])
      rintro rfl
      obtain ⟨l', w, rfl⟩ := (List.eq_nil_or_concat l₁).resolve_left (by rintro rfl; simp at hy)
      have hs := ((seg_append z x l' [w]).mp (by simpa using h₁)).2.2.1
      exact hne (by rw [hpx]; simpa using hs)
    · intro y hy
      apply hp y (by simp [hy])
      rw [hnx]
      rintro rfl
      rcases headD_eq_or_mem (z := z) l₂ with he | hm
      · exact hf.1 (he ▸ hy)
      · exact hd₃ _ hy _ (.inr hm) rfl
  · -- right of the gap: the first node now points back at the last node before it
    rw [← hpx]
    apply h₂.relink_start hd₂
    · intro y hy
      apply hn y (by simp [hy])
      rw [hpx]
      rintro rfl
      rcases getLastD_eq_or_mem (z := z) l₁ with he | hm
      · exact hf.2.2 (he ▸ hy)
      · exact hd₃ _ hm _ (.inr hy) rfl
    · intro y hy
      cases l₂ with
      | nil => simp at hy
      | cons w l₂ =>
          simp only [List.head?_cons, Option.mem_def, Option.some.injEq] at hy
          subst hy
          have hw : nx x = w := by rw [hnx]; rfl
          have hwz : nx x ≠ z := by
            rw [hw]
            rintro rfl
            exact hf.2.2 (by simp)
          rw [← hw]
          exact hpn hwz
    · intro y hy
      apply hp y (by simp [List.mem_of_mem_tail hy])
      rw [hnx]
      cases l₂ with
      | nil => simp at hy
      | cons w l₂ =>
          rintro rfl
          exact (List.nodup_cons.mp hd₂).1 (by simpa using hy)

theorem Linked.push {l : List α} {x : α} (h : Linked nx pv z l) (hx : x ∉ l) (hz : x ≠ z)
    (hnx : nx' x = l.headD z) (hpx : pv' x = z) (hfirst : ∀ y ∈ l.head?, pv' y = x)
    (hn : ∀ y ∈ l, nx' y = nx y) (hp : ∀ y ∈ l.tail, pv' y = pv y) :
    Linked nx' pv' z (x :: l) :=
  ⟨List.nodup_cons.mpr ⟨hx, h.nodup⟩, by simp [Ne.symm hz, h.fresh],
    hpx, hnx, h.seg.relink_start h.nodup hn hfirst hp⟩

end DjgppLibc.LinkedLists
