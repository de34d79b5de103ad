import DjgppLibc.MallocChain
import DjgppLibc.LinkedLists

/-!
# The free lists

The list of bucket `b` is the ghost list `fl b`, threaded through `nextfree`
and `prevfree` and ended by NONE. The list edits of the source (`extractfree`,
`rmvfromfree` and the end of `mv2freelist`) are matched with the edits of a
doubly linked list; their stores are first replayed on the field functions.
-/
namespace DjgppLibc.NewMalloc
open LinkedLists

theorem size2bucketLoop_spec (fuel size b : ℕ) (h : size < 2 ^ fuel) :
    ∃ k, size2bucketLoop fuel size b = b + k ∧ size < 2 ^ k ∧
      (size ≠ 0 → 0 < k ∧ 2 ^ (k - 1) ≤ size) := by
  induction fuel generalizing size b with
  | zero => exact ⟨0, rfl, h, fun h0 => absurd h (by simpa using h0)⟩
  | succ fuel ih =>
      by_cases h0 : size = 0
      · exact ⟨0, by simp [size2bucketLoop, h0], by simp [h0], fun h => absurd h0 h⟩
      · rw [Nat.pow_succ] at h
        obtain ⟨k, hk, hlt, hge⟩ := ih (size / 2) (b + 1) (by omega)
        refine ⟨k + 1, by rw [size2bucketLoop, if_neg h0, hk]; omega, ?_, fun _ => ⟨by omega, ?_⟩⟩
        · rw [Nat.pow_succ]
          omega
        · by_cases h1 : size / 2 = 0
          · have : k = 0 := by
              by_contra hk0
              rw [h1] at hk
              have : size2bucketLoop fuel 0 (b + 1) = b + 1 := by
                cases fuel <;> simp [size2bucketLoop]
              omega
            subst this
            simp only [Nat.zero_add, Nat.sub_self, Nat.pow_zero]
            omega
          · obtain ⟨hk0, hk1⟩ := hge h1
            have : 2 ^ k = 2 ^ (k - 1) * 2 := by
              rw [← Nat.pow_succ]
              congr 1
              omega
            simp only [Nat.add_sub_cancel]
            omega

theorem size2bucket_spec {size : ℕ} (h : size < 4294967296) :
    size < 2 ^ size2bucket size ∧
      (size ≠ 0 → 0 < size2bucket size ∧ 2 ^ (size2bucket size - 1) ≤ size) := by
  obtain ⟨k, hk, h₁, h₂⟩ := size2bucketLoop_spec 32 size 0 (by simpa using h)
  have : size2bucket size = k := by rw [size2bucket, hk, Nat.zero_add]
  rw [this]
  exact ⟨h₁, h₂⟩

theorem lt_of_bucket_lt {a b : ℕ} (ha : a < 4294967296) (hb : b < 4294967296)
    (h : size2bucket a < size2bucket b) : a < b := by
  have hb0 : b ≠ 0 := by
    rintro rfl
    exact absurd h (by simp [size2bucket, size2bucketLoop])
  obtain ⟨h₁, h₂⟩ := (size2bucket_spec hb).2 hb0
  calc a < 2 ^ size2bucket a := (size2bucket_spec ha).1
    _ ≤ 2 ^ (size2bucket b - 1) := Nat.pow_le_pow_right (by omega) (by omega)
    _ ≤ b := h₂

theorem size2bucket_lt {size : ℕ} (h : size < 2147483648) : size2bucket size < 32 := by
  by_cases h0 : size = 0
  · subst h0
    decide
  · obtain ⟨h₁, h₂⟩ := (size2bucket_spec (by omega)).2 h0
    by_contra hge
    have : 2 ^ 31 ≤ 2 ^ (size2bucket size - 1) := Nat.pow_le_pow_right (by omega) (by omega)
    omega

theorem size2bucket_ne_zero {size : ℕ} (h : size < 4294967296) (h0 : size ≠ 0) :
    size2bucket size ≠ 0 := by
  have := ((size2bucket_spec h).2 h0).1
  omega

def drop (fl : ℕ → List ℕ) (b x : ℕ) : ℕ → List ℕ := fun i => if i = b then (fl b).erase x else fl i

def push (fl : ℕ → List ℕ) (b x : ℕ) : ℕ → List ℕ := fun i => if i = b then x :: fl b else fl i

theorem mem_drop {fl : ℕ → List ℕ} {b x i y : ℕ} (h : ∀ i, (fl i).Nodup) :
    y ∈ drop fl b x i ↔ y ∈ fl i ∧ ¬ (i = b ∧ y = x) := by
  unfold drop
  split_ifs with he
  · subst he
    rw [(h i).mem_erase_iff]
    tauto
  · tauto

theorem mem_push {fl : ℕ → List ℕ} {b x i y : ℕ} :
    y ∈ push fl b x i ↔ y ∈ fl i ∨ i = b ∧ y = x := by
  unfold push
  split_ifs with he
  · subst he
    simp only [List.mem_cons, true_and]
    tauto
  · tauto

section
variable [Image]

structure Lists (F : Fields) (H : ℕ → ℕ) (fl : ℕ → List ℕ) : Prop where
  linked : ∀ b, Linked (F .nextfree) (F .prevfree) NONE (fl b)
  head : ∀ b, b ≠ 0 → H b = (fl b).headD 0
  apart : ∀ b b', b ≠ b' → ∀ x ∈ fl b, x ∉ fl b'

/-- The stores of `extractfree`. -/
def Fields.unlink (F : Fields) (x : ℕ) : Fields :=
  (((F.set .prevfree (F .nextfree x) (F .prevfree x)).set .nextfree (F .prevfree x)
    (F .nextfree x)).set .prevfree x 0).set .nextfree x 0

/-- The list headers after a block with these links has left list `b`. -/
def unlinkHdr (F : Fields) (H : ℕ → ℕ) (b x : ℕ) : ℕ → ℕ := fun i =>
  if i = b then
    if F .prevfree x = NONE then if F .nextfree x = NONE then 0 else F .nextfree x else H b
  else H i

/-- The stores that put a block in front of the list headed by `h`. -/
def Fields.link (F : Fields) (x h : ℕ) : Fields :=
  ((F.set .nextfree x (if h ≠ 0 then h else NONE)).set .prevfree x NONE).set .prevfree h x

namespace Lists
variable {F F' : Fields} {H H' : ℕ → ℕ} {fl : ℕ → List ℕ} {b x : ℕ}

theorem congr (h : Lists F H fl) (hn : ∀ b, ∀ x ∈ fl b, F' .nextfree x = F .nextfree x)
    (hp : ∀ b, ∀ x ∈ fl b, F' .prevfree x = F .prevfree x)
    (hH : ∀ b, b ≠ 0 → H' b = H b) : Lists F' H' fl :=
  ⟨fun b => (h.linked b).congr (hn b) (hp b), fun b hb => (hH b hb).trans (h.head b hb), h.apart⟩

/-- The head of a list, and only it, has NONE behind it. -/
theorem prevfree_eq_NONE (h : Lists F H fl) (hb : b ≠ 0) (hx : x ∈ fl b) :
    F .prevfree x = NONE ↔ H b = x := by
  have hl := h.linked b
  rw [h.head b hb]
  obtain ⟨l₁, l₂, he⟩ := List.append_of_mem hx
  rw [he] at hl ⊢
  rw [hl.around.1]
  have hd := hl.nodup
  have hf := hl.fresh
  cases l₁ with
  | nil => simp
  | cons y l₁ =>
      simp only [List.cons_append, List.headD_cons]
      constructor
      · intro hn
        rcases getLastD_eq_or_mem (z := y) l₁ with h₁ | h₁ <;>
          rw [List.getLastD_cons] at hn <;> rw [hn] at h₁
        · exact absurd (by simp [h₁]) hf
        · exact absurd (by simp [h₁]) hf
      · rintro rfl
        simp at hd

theorem remove (h : Lists F H fl) (hb : b ≠ 0) (hx : x ∈ fl b)
    (hnp : F .prevfree x ≠ NONE → F' .nextfree (F .prevfree x) = F .nextfree x)
    (hpn : F .nextfree x ≠ NONE → F' .prevfree (F .nextfree x) = F .prevfree x)
    (hn : ∀ y, y ≠ x → y ≠ F .prevfree x → F' .nextfree y = F .nextfree y)
    (hp : ∀ y, y ≠ x → y ≠ F .nextfree x → F' .prevfree y = F .prevfree y)
    (hH : H' = unlinkHdr F H b x) : Lists F' H' (drop fl b x) := by
  have hl := h.linked b
  have hd : ∀ i, (fl i).Nodup := fun i => (h.linked i).nodup
  have hnb := hl.neighbours hx
  refine ⟨?_, ?_, ?_⟩
  · intro i
    unfold drop
    split_ifs with hi
    · obtain ⟨l₁, l₂, he⟩ := List.append_of_mem hx
      rw [he] at hl
      have hx₁ : x ∉ l₁ := by
        have := hl.nodup
        simp only [List.nodup_append, List.mem_cons] at this
        exact fun hm => this.2.2 x hm x (.inl rfl) rfl
      have hx₂ : x ∉ l₂ := by
        have := hl.nodup
        simp only [List.nodup_append, List.nodup_cons] at this
        exact this.2.1.1
      rw [he, List.erase_append_right _ hx₁, List.erase_cons_head]
      have hyx : ∀ y ∈ l₁ ++ l₂, y ≠ x := by
        rintro y hy rfl
        rcases List.mem_append.mp hy with hy | hy
        · exact hx₁ hy
        · exact hx₂ hy
      exact hl.remove hnp hpn (fun y hy => hn y (hyx y hy)) (fun y hy => hp y (hyx y hy))
    · apply (h.linked i).congr
      · intro y hy
        apply hn y
        · rintro rfl
          exact h.apart i b hi _ hy hx
        · rintro rfl
          rcases hnb.2 with h₁ | h₁
          · exact (h.linked i).fresh (h₁ ▸ hy)
          · exact h.apart i b hi _ hy h₁.1
      · intro y hy
        apply hp y
        · rintro rfl
          exact h.apart i b hi _ hy hx
        · rintro rfl
          rcases hnb.1 with h₁ | h₁
          · exact (h.linked i).fresh (h₁ ▸ hy)
          · exact h.apart i b hi _ hy h₁.1
  · intro i hi
    rw [hH, unlinkHdr, drop]
    split_ifs with hib hpx hnx
    · -- the first and only member leaves
      have hhead := (h.prevfree_eq_NONE hb hx).mp hpx
      rw [h.head b hb] at hhead
      obtain ⟨l, hl'⟩ : ∃ l, fl b = x :: l := by
        cases hf : fl b with
        | nil => rw [hf] at hx; simp at hx
        | cons y l => rw [hf] at hhead; exact ⟨l, by simpa using hhead⟩
      have hnext := (hl' ▸ hl : Linked _ _ NONE ([] ++ x :: l)).around.2
      rw [hl', List.erase_cons_head]
      cases l with
      | nil => rfl
      | cons y l =>
          rw [hnx] at hnext
          exact absurd (by rw [hl', hnext]; simp) hl.fresh
    · have hhead := (h.prevfree_eq_NONE hb hx).mp hpx
      rw [h.head b hb] at hhead
      obtain ⟨l, hl'⟩ : ∃ l, fl b = x :: l := by
        cases hf : fl b with
        | nil => rw [hf] at hx; simp at hx
        | cons y l => rw [hf] at hhead; exact ⟨l, by simpa using hhead⟩
      have hnext := (hl' ▸ hl : Linked _ _ NONE ([] ++ x :: l)).around.2
      rw [hl', List.erase_cons_head, hnext]
      cases l with
      | nil => exact absurd hnext hnx
      | cons y l => rfl
    · have hhead := mt (h.prevfree_eq_NONE hb hx).mpr hpx
      rw [h.head b hb] at hhead ⊢
      cases hf : fl b with
      | nil => simp
      | cons y l =>
          rw [hf] at hhead
          simp only [List.headD_cons] at hhead ⊢
          rw [List.erase_cons_tail (by simpa using hhead)]
          rfl
    · exact h.head i hi
  · intro i j hij y hy
    rw [mem_drop hd] at hy ⊢
    exact fun hj => h.apart i j hij y hy.1 hj.1

theorem link (h : Lists F H fl) (hb : b ≠ 0) (hx : ∀ i, x ∉ fl i) (hxN : x ≠ NONE)
    (hx0 : x ≠ 0) (h0 : ∀ i, 0 ∉ fl i) :
    Lists (F.link x (H b)) (fun i => if i = b then x else H i) (push fl b x) := by
  have hhead := h.head b hb
  have hxh : x ≠ H b := by
    rw [hhead]
    rcases headD_eq_or_mem (z := 0) (fl b) with he | he
    · rw [he]
      exact hx0
    · exact fun hc => hx b (hc ▸ he)
  refine ⟨?_, ?_, ?_⟩
  · intro i
    unfold push
    split_ifs with hi
    · apply (h.linked b).push (hx b) hxN
      · cases hf : fl b with
        | nil => simp [Fields.link, hhead, hf]
        | cons y l =>
            have hy : y ≠ 0 := by
              rintro rfl
              exact h0 b (by simp [hf])
            simp [Fields.link, hhead, hf, hy]
      · simp [Fields.link, hxh]
      · intro y hy
        have : H b = y := by
          rw [hhead, List.headD_eq_head?_getD, Option.mem_def.mp hy]
          rfl
        simp [Fields.link, this]
      · intro y hy
        have : y ≠ x := fun he => hx b (he ▸ hy)
        simp [Fields.link, this]
      · intro y hy
        have h₁ : y ≠ x := fun he => hx b (he ▸ List.mem_of_mem_tail hy)
        have h₂ : y ≠ H b := by
          rintro rfl
          have hd := (h.linked b).nodup
          cases hf : fl b with
          | nil => simp [hf] at hy
          | cons w l =>
              rw [hf] at hd hy
              rw [hhead, hf] at hy
              exact (List.nodup_cons.mp hd).1 (by simpa using hy)
        simp [Fields.link, h₁, h₂]
    · apply (h.linked i).congr
      · intro y hy
        have : y ≠ x := fun he => hx i (he ▸ hy)
        simp [Fields.link, this]
      · intro y hy
        have h₁ : y ≠ x := fun he => hx i (he ▸ hy)
        by_cases h₂ : y = H b
        · exfalso
          rcases headD_eq_or_mem (z := 0) (fl b) with he | he
          · rw [h₂, hhead, he] at hy
            exact h0 i hy
          · exact h.apart b i (Ne.symm hi) _ (hhead ▸ he) (h₂ ▸ hy)
        · simp [Fields.link, h₁, h₂]
  · intro i hi
    unfold push
    split_ifs
    · rfl
    · exact h.head i hi
  · intro i j hij y hy
    rw [mem_push] at hy ⊢
    rintro (hj | ⟨rfl, rfl⟩)
    · rcases hy with hy | ⟨rfl, rfl⟩
      · exact h.apart i j hij y hy hj
      · exact hx j hj
    · rcases hy with hy | ⟨rfl, _⟩
      · exact hx i hy
      · exact hij rfl

end Lists
end

end DjgppLibc.NewMalloc
