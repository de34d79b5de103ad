import DjgppLibc.FdProps

/-!
# The two lists of `fd_props.c`

Both lists are doubly linked lists in the sense of `LinkedLists`, through the
links of the objects. Inserting is always right; removing is right for the last
object of a list.
-/
namespace DjgppLibc.FdProps
open LinkedLists

variable {m : Objects} {a head : ℕ} {l : List ℕ}

@[simp] theorem modify_same (m : Objects) (a : ℕ) (g : FdProperties → FdProperties) :
    modify m a g a = g (m a) :=
  Function.update_self ..

@[simp] theorem modify_other {x : ℕ} (h : x ≠ a) (g : FdProperties → FdProperties) :
    modify m a g x = m x :=
  Function.update_of_ne h ..

/-- The list that starts at `head`. -/
structure IsList (m : Objects) (head : ℕ) (l : List ℕ) : Prop where
  linked : Linked (fun a => (m a).next) (fun a => (m a).prev) 0 l
  head : head = l.headD 0

def FdProperties.data (o : FdProperties) : ℕ × Option (List Char) × Bool × Bool :=
  (o.refCount, o.filename, o.temporary, o.append)

structure SameData (s : List ℕ) (m m' : Objects) : Prop where
  data : ∀ x, (m' x).data = (m x).data
  other : ∀ x, x ∉ s → m' x = m x

theorem SameData.refCount {s : List ℕ} {m' : Objects} (h : SameData s m m') (x : ℕ) :
    (m' x).refCount = (m x).refCount :=
  congrArg Prod.fst (h.data x)

theorem SameData.filename {s : List ℕ} {m' : Objects} (h : SameData s m m') (x : ℕ) :
    (m' x).filename = (m x).filename :=
  congrArg (fun d => d.2.1) (h.data x)

theorem SameData.temporary {s : List ℕ} {m' : Objects} (h : SameData s m m') (x : ℕ) :
    (m' x).temporary = (m x).temporary :=
  congrArg (fun d => d.2.2.1) (h.data x)

theorem isList_nil (m : Objects) : IsList m 0 [] := ⟨linked_nil _ _ _, rfl⟩

/-- A list does not depend on other objects, and not on the data. -/
theorem IsList.congr {m' : Objects} (h : IsList m head l)
    (hl : ∀ x ∈ l, (m' x).next = (m x).next ∧ (m' x).prev = (m x).prev) : IsList m' head l :=
  ⟨h.linked.congr (fun x hx => (hl x hx).1) (fun x hx => (hl x hx).2), h.head⟩

theorem insertList_isList (h : IsList m head l) (ha : a ∉ l) (h0 : a ≠ 0) :
    IsList (insertList head a m).2 (insertList head a m).1 (a :: l) := by
  unfold insertList
  refine ⟨?_, rfl⟩
  have hhead := h.head
  cases l with
  | nil =>
      rw [List.headD_nil] at hhead
      subst hhead
      refine h.linked.push ha h0 ?_ ?_ (by simp) (by simp) (by simp)
      · simp
      · simp
  | cons y l =>
      rw [List.headD_cons] at hhead
      subst hhead
      have hh0 : head ≠ 0 := fun he => h.linked.fresh (by simp [he])
      have hha : head ≠ a := fun he => ha (by simp [he])
      have hd := List.nodup_cons.mp h.linked.nodup
      dsimp only
      rw [if_pos hh0]
      apply h.linked.push ha h0
      · simp [modify_other (Ne.symm hha)]
      · simp [modify_other (Ne.symm hha)]
      · intro x hx
        obtain rfl : head = x := by simpa using hx
        simp
      · intro x hx
        have hxa : x ≠ a := fun he => ha (he ▸ hx)
        by_cases hxh : x = head
        · subst hxh
          simp [modify_other hxa]
        · simp [modify_other hxh, modify_other hxa]
      · intro x hx
        have hxl : x ∈ l := by simpa using hx
        have hxa : x ≠ a := fun he => ha (he ▸ List.mem_cons_of_mem head hxl)
        have hxh : x ≠ head := fun he => hd.1 (he ▸ hxl)
        simp [modify_other hxh, modify_other hxa]

theorem modify_data {g : FdProperties → FdProperties} (hg : ∀ o, (g o).data = o.data) (x : ℕ) :
    (modify m a g x).data = (m x).data := by
  by_cases hx : x = a
  · subst hx
    rw [modify_same]
    exact hg _
  · rw [modify_other hx]

theorem insertList_sameData (h : IsList m head l) :
    SameData (a :: l) m (insertList head a m).2 := by
  have hhead : head = 0 ∨ head ∈ l := by
    rw [h.head]
    exact headD_eq_or_mem l
  unfold insertList
  constructor
  · intro x
    dsimp only
    split_ifs with h0
    · exact (modify_data (by intro _; rfl) x).trans (modify_data (by intro _; rfl) x)
    · exact modify_data (by intro _; rfl) x
  · intro x hx
    simp only [List.mem_cons, not_or] at hx
    dsimp only
    split_ifs with h0
    · have hxh : x ≠ head := by
        rintro rfl
        exact hx.2 (hhead.resolve_left h0)
      rw [modify_other hxh, modify_other hx.1]
    · rw [modify_other hx.1]

theorem removeList_of_next (hnext : (m a).next = 0) :
    removeList head a m =
      (if head = a then 0 else head,
        if (m a).prev ≠ 0 then
          modify (modify m (m a).prev fun o => { o with next := 0 }) a fun o => { o with prev := 0 }
        else m) := by
  unfold removeList
  by_cases hprev : (m a).prev = 0
  · simp only [hprev, ne_eq, not_true_eq_false, if_false, hnext]
    by_cases hh : head = a
    · rw [if_pos hh, if_pos hh, hh, hnext]
    · rw [if_neg hh, if_neg hh]
  · simp only [hprev, ne_eq, not_false_eq_true, if_true, hnext]
    have hnext' : (modify (modify m (m a).prev fun o => { o with next := 0 }) a
        (fun o => { o with prev := 0 }) a).next = 0 := by
      rw [modify_same]
      by_cases hpa : a = (m a).prev
      · conv_lhs => rw [← hpa]
        simp
      · rw [modify_other hpa]
        exact hnext
    rw [hnext']
    simp only [not_true_eq_false, if_false]
    by_cases hh : head = a
    · rw [if_pos hh, if_pos hh, hh, hnext']
    · rw [if_neg hh, if_neg hh]

theorem removeList_isList (h : IsList m head (l ++ [a])) :
    IsList (removeList head a m).2 (removeList head a m).1 l := by
  have hnext : (m a).next = 0 := h.linked.around.2
  have hprev : (m a).prev = l.getLastD 0 := h.linked.around.1
  have hd := h.linked.nodup
  have hfresh := h.linked.fresh
  have hal : a ∉ l := by
    rw [List.nodup_append] at hd
    exact fun hm => hd.2.2 a hm a (by simp) rfl
  rw [removeList_of_next hnext]
  constructor
  · have hl : Linked (fun x => (m x).next) (fun x => (m x).prev) 0 (l ++ a :: []) := h.linked
    rw [← List.append_nil l]
    apply hl.remove
    · intro hp
      dsimp only at hp ⊢
      have hpa : (m a).prev ≠ a := by
        rw [hprev] at hp ⊢
        rcases getLastD_eq_or_mem (z := 0) l with he | hm
        · exact absurd he hp
        · exact fun he => hal (he ▸ hm)
      rw [if_pos hp, modify_other hpa, modify_same, hnext]
    · intro hn
      exact absurd hnext hn
    · intro x hx hne
      rw [List.append_nil] at hx
      have hxa : x ≠ a := fun he => hal (he ▸ hx)
      dsimp only at hne ⊢
      split_ifs with hp
      · rw [modify_other hxa, modify_other hne]
      · rfl
    · intro x hx hne
      rw [List.append_nil] at hx
      have hxa : x ≠ a := fun he => hal (he ▸ hx)
      dsimp only
      split_ifs with hp
      · rw [modify_other hxa]
        by_cases hxp : x = (m a).prev
        · rw [hxp, modify_same]
        · rw [modify_other hxp]
      · rfl
  · have hhead := h.head
    cases l with
    | nil =>
        rw [if_pos (by simpa using hhead)]
        rfl
    | cons y l =>
        have hya : y ≠ a := fun he => hal (by simp [he])
        rw [List.cons_append, List.headD_cons] at hhead
        rw [if_neg (by rw [hhead]; exact hya), hhead]
        rfl

theorem removeList_sameData (h : IsList m head (l ++ [a])) :
    SameData (l ++ [a]) m (removeList head a m).2 := by
  have hnext : (m a).next = 0 := h.linked.around.2
  have hprev : (m a).prev = l.getLastD 0 := h.linked.around.1
  rw [removeList_of_next hnext]
  constructor
  · intro x
    dsimp only
    split_ifs with hp
    · exact (modify_data (by intro _; rfl) x).trans (modify_data (by intro _; rfl) x)
    · rfl
  · intro x hx
    simp only [List.mem_append, List.mem_singleton, not_or] at hx
    dsimp only
    split_ifs with hp
    · have hxp : x ≠ (m a).prev := by
        rintro rfl
        rw [hprev] at hp hx
        exact hx.1 ((getLastD_eq_or_mem l).resolve_left hp)
      rw [modify_other hx.2, modify_other hxp]
    · rfl

end DjgppLibc.FdProps
