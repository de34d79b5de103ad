import Mathlib.Data.Multiset.AddSub

/-!
# Reference counts

Nodes hold references to nodes that are older than they are, and further references are
held from outside. `Counted` says that the count of every node is the number of the
references to it. It is kept when a reference is taken or given back, when a node is added,
and when a node that nobody refers to is taken out, whose own references are then held from
outside.

Since references go to older nodes only, nothing stays that is not held:
`Counted.added_eq_nil` is what makes an undone operation leave no trace.
-/
namespace DjgppLibc.ReferenceCounts

variable {α : Type*}

def inner (nodes : List α) (out : α → List α) : Multiset α := nodes.flatMap out

/-- The references of a node go to nodes behind it. -/
def Older (out : α → List α) : List α → Prop
  | [] => True
  | g :: nodes => (∀ d ∈ out g, d ∈ nodes) ∧ Older out nodes

structure Counted [DecidableEq α] (nodes : List α) (out : α → List α) (count : α → ℤ)
    (held : Multiset α) : Prop where
  nodup : nodes.Nodup
  older : Older out nodes
  held_mem : ∀ g ∈ held, g ∈ nodes
  referred : ∀ g ∈ nodes, 0 < (held + inner nodes out).count g
  count_eq : ∀ g ∈ nodes, count g = (held + inner nodes out).count g

variable {nodes : List α} {out : α → List α} {count : α → ℤ} {held : Multiset α} {g : α}

theorem inner_cons (g : α) (nodes : List α) (out : α → List α) :
    inner (g :: nodes) out = out g + inner nodes out := rfl

theorem inner_append (l l' : List α) (out : α → List α) :
    inner (l ++ l') out = inner l out + inner l' out := by
  rw [inner, List.flatMap_append]
  rfl

theorem inner_congr {out' : α → List α} (h : ∀ g ∈ nodes, out' g = out g) :
    inner nodes out' = inner nodes out := by
  rw [inner, inner]
  exact congrArg _ (List.flatMap_congr h)

theorem Older.mem_inner (h : Older out nodes) (hg : g ∈ inner nodes out) : g ∈ nodes := by
  induction nodes with
  | nil => exact absurd hg (Multiset.notMem_zero g)
  | cons k nodes ih =>
      rw [inner_cons, Multiset.mem_add] at hg
      obtain hg | hg := hg
      · exact List.mem_cons_of_mem k (h.1 g hg)
      · exact List.mem_cons_of_mem k (ih h.2 hg)

theorem Older.congr {out' : α → List α} (h : Older out nodes) (hout : ∀ g ∈ nodes, out' g = out g) :
    Older out' nodes := by
  induction nodes with
  | nil => trivial
  | cons k nodes ih =>
      refine ⟨?_, ih h.2 fun g hg => hout g (List.mem_cons_of_mem k hg)⟩
      rw [hout k (List.mem_cons_self ..)]
      exact h.1

/-- Nobody refers to the first node from inside. -/
theorem Older.notMem_inner_head {l : List α} (h : Older out (g :: l)) (hnodup : (g :: l).Nodup) :
    g ∉ inner (g :: l) out := by
  have hg : g ∉ l := (List.nodup_cons.mp hnodup).1
  rw [inner_cons, Multiset.mem_add, not_or]
  exact ⟨fun hd => hg (h.1 g hd), fun hd => hg (h.2.mem_inner hd)⟩

variable [DecidableEq α]

theorem Older.erase (h : Older out nodes) (hg : g ∉ inner nodes out) :
    Older out (nodes.erase g) := by
  induction nodes with
  | nil => trivial
  | cons k nodes ih =>
      rw [inner_cons, Multiset.mem_add, not_or] at hg
      rw [List.erase_cons]
      split
      · exact h.2
      · refine ⟨fun d hd => ?_, ih h.2 hg.2⟩
        have hne : d ≠ g := fun he => hg.1 (he ▸ hd)
        exact (List.mem_erase_of_ne hne).mpr (h.1 d hd)

theorem inner_erase (hg : g ∈ nodes) : inner nodes out = out g + inner (nodes.erase g) out := by
  induction nodes with
  | nil => cases hg
  | cons k nodes ih =>
      rw [List.erase_cons]
      split
      · next h => rw [inner_cons, eq_of_beq h]
      · next h =>
        have hmem : g ∈ nodes := (List.mem_cons.mp hg).resolve_left fun he => h (by rw [he]; simp)
        rw [inner_cons, ih hmem, inner_cons, ← Multiset.add_assoc,
          Multiset.add_comm (out k : Multiset α),
          Multiset.add_assoc]

theorem Counted.empty (out : α → List α) (count : α → ℤ) : Counted [] out count 0 where
  nodup := List.nodup_nil
  older := trivial
  held_mem := fun _ hg => absurd hg (Multiset.notMem_zero _)
  referred := fun _ hg => absurd hg List.not_mem_nil
  count_eq := fun _ hg => absurd hg List.not_mem_nil

theorem Counted.congr {out' : α → List α} {count' : α → ℤ} (h : Counted nodes out count held)
    (hout : ∀ g ∈ nodes, out' g = out g) (hcount : ∀ g ∈ nodes, count' g = count g) :
    Counted nodes out' count' held where
  nodup := h.nodup
  older := h.older.congr hout
  held_mem := h.held_mem
  referred := fun g hg => by
    rw [inner_congr hout]
    exact h.referred g hg
  count_eq := fun g hg => by
    rw [inner_congr hout, hcount g hg]
    exact h.count_eq g hg

theorem Counted.acquire (h : Counted nodes out count held) (hg : g ∈ nodes) {count' : α → ℤ}
    (hcount : ∀ k ∈ nodes, count' k = if k = g then count k + 1 else count k) :
    Counted nodes out count' (g ::ₘ held) where
  nodup := h.nodup
  older := h.older
  held_mem := fun k hk => by
    obtain rfl | hk := Multiset.mem_cons.mp hk
    · exact hg
    · exact h.held_mem k hk
  referred := fun k hk => by
    rw [Multiset.cons_add]
    exact (h.referred k hk).trans_le (Multiset.count_le_count_cons k g _)
  count_eq := fun k hk => by
    rw [hcount k hk, h.count_eq k hk, Multiset.cons_add, Multiset.count_cons]
    split_ifs <;> simp

theorem Counted.release_keep (h : Counted nodes out count (g ::ₘ held)) (hne : count g ≠ 1)
    {count' : α → ℤ} (hcount : ∀ k ∈ nodes, count' k = if k = g then count k - 1 else count k) :
    Counted nodes out count' held where
  nodup := h.nodup
  older := h.older
  held_mem := fun k hk => h.held_mem k (Multiset.mem_cons_of_mem hk)
  referred := fun k hk => by
    have hpos := h.referred k hk
    have hceq := h.count_eq k hk
    rw [Multiset.cons_add, Multiset.count_cons] at hpos hceq
    by_cases hkg : k = g
    · rw [if_pos hkg] at hpos hceq
      rw [hkg] at hceq ⊢
      omega
    · rw [if_neg hkg] at hpos
      omega
  count_eq := fun k hk => by
    rw [hcount k hk, h.count_eq k hk, Multiset.cons_add, Multiset.count_cons]
    split_ifs <;> simp

theorem Counted.last (h : Counted nodes out count (g ::ₘ held)) (hone : count g = 1) :
    g ∉ held ∧ g ∉ inner nodes out := by
  have hg : g ∈ nodes := h.held_mem g (Multiset.mem_cons_self g held)
  have hceq := h.count_eq g hg
  rw [hone, Multiset.cons_add, Multiset.count_cons_self, Multiset.count_add] at hceq
  rw [← Multiset.count_eq_zero, ← Multiset.count_eq_zero]
  omega

theorem Counted.release_drop (h : Counted nodes out count (g ::ₘ held)) (hone : count g = 1) :
    Counted (nodes.erase g) out count (out g + held) := by
  have hg : g ∈ nodes := h.held_mem g (Multiset.mem_cons_self g held)
  obtain ⟨hheld, hinner⟩ := h.last hone
  have hsplit : inner nodes out = out g + inner (nodes.erase g) out := inner_erase hg
  have hrefs : ∀ k, k ≠ g → ((out g + held : Multiset α) + inner (nodes.erase g) out).count k =
      (g ::ₘ held + inner nodes out).count k := by
    intro k hk
    rw [hsplit, Multiset.cons_add, Multiset.count_cons_of_ne hk]
    simp only [Multiset.count_add]
    omega
  have hne : ∀ {k}, k ∈ nodes.erase g → k ≠ g := fun hk => ((h.nodup.mem_erase_iff).mp hk).1
  refine ⟨h.nodup.erase g, h.older.erase hinner, fun k hk => ?_, fun k hk => ?_, fun k hk => ?_⟩
  · have hkg : k ≠ g := by
      rintro rfl
      obtain hk | hk := Multiset.mem_add.mp hk
      · exact hinner (by rw [hsplit]; exact Multiset.mem_add.mpr (.inl hk))
      · exact hheld hk
    refine (List.mem_erase_of_ne hkg).mpr ?_
    obtain hk | hk := Multiset.mem_add.mp hk
    · exact h.older.mem_inner (by rw [hsplit]; exact Multiset.mem_add.mpr (.inl hk))
    · exact h.held_mem k (Multiset.mem_cons_of_mem hk)
  · rw [hrefs k (hne hk)]
    exact h.referred k (List.mem_of_mem_erase hk)
  · rw [hrefs k (hne hk)]
    exact h.count_eq k (List.mem_of_mem_erase hk)

theorem Counted.add (h : Counted nodes out count ((out g : Multiset α) + held)) (hg : g ∉ nodes)
    (hone : count g = 1) : Counted (g :: nodes) out count (g ::ₘ held) := by
  have hout : ∀ d ∈ out g, d ∈ nodes := fun d hd => h.held_mem d (Multiset.mem_add.mpr (.inl hd))
  have hself : g ∉ out g := fun hd => hg (hout g hd)
  have hheld : g ∉ held := fun hd => hg (h.held_mem g (Multiset.mem_add.mpr (.inr hd)))
  have hinner : g ∉ inner nodes out := fun hd => hg (h.older.mem_inner hd)
  have hrefs : ∀ k, k ≠ g → (g ::ₘ held + inner (g :: nodes) out).count k =
      ((out g : Multiset α) + held + inner nodes out).count k := by
    intro k hk
    rw [inner_cons, Multiset.cons_add, Multiset.count_cons_of_ne hk]
    simp only [Multiset.count_add]
    omega
  have hnew : (g ::ₘ held + inner (g :: nodes) out).count g = 1 := by
    rw [inner_cons, Multiset.cons_add, Multiset.count_cons_self, Multiset.count_add,
      Multiset.count_add,
      Multiset.count_eq_zero.mpr hheld, Multiset.count_eq_zero.mpr hinner,
      Multiset.count_eq_zero.mpr (show g ∉ (out g : Multiset α) from hself)]
  refine ⟨List.nodup_cons.mpr ⟨hg, h.nodup⟩, ⟨hout, h.older⟩, fun k hk => ?_, fun k hk => ?_,
    fun k hk => ?_⟩
  · obtain rfl | hk := Multiset.mem_cons.mp hk
    · exact List.mem_cons_self ..
    · exact List.mem_cons_of_mem g (h.held_mem k (Multiset.mem_add.mpr (.inr hk)))
  · by_cases hkg : k = g
    · rw [hkg, hnew]
      exact Nat.one_pos
    · rw [hrefs k hkg]
      exact h.referred k ((List.mem_cons.mp hk).resolve_left hkg)
  · by_cases hkg : k = g
    · rw [hkg, hnew, hone]
      rfl
    · rw [hrefs k hkg]
      exact h.count_eq k ((List.mem_cons.mp hk).resolve_left hkg)

variable {added base : List α} {count₀ : α → ℤ} {held₀ : Multiset α}

theorem Counted.notMem_base (h : Counted (added ++ base) out count (g ::ₘ (held + held₀)))
    (h₀ : Counted base out count₀ held₀) (hone : count g = 1) : g ∉ base := by
  intro hg
  obtain ⟨hheld, hinner⟩ := h.last hone
  have hpos := h₀.referred g hg
  rw [Multiset.count_add] at hpos
  rw [inner_append, Multiset.mem_add, not_or] at hinner
  rw [Multiset.mem_add, not_or] at hheld
  rw [Multiset.count_eq_zero.mpr hheld.2, Multiset.count_eq_zero.mpr hinner.2] at hpos
  exact absurd hpos (by decide)

theorem Counted.added_eq_nil (h : Counted (added ++ base) out count held₀)
    (h₀ : Counted base out count₀ held₀) : added = [] := by
  cases added with
  | nil => rfl
  | cons g added =>
      have hg : g ∈ g :: added ++ base := List.mem_cons_self ..
      have hinner : g ∉ inner (g :: added ++ base) out := h.older.notMem_inner_head h.nodup
      have hheld : g ∉ held₀ := fun hd =>
        (List.nodup_cons.mp h.nodup).1 (List.mem_append_right added (h₀.held_mem g hd))
      have hpos := h.referred g hg
      rw [Multiset.count_add, Multiset.count_eq_zero.mpr hheld,
        Multiset.count_eq_zero.mpr hinner] at hpos
      exact absurd hpos (by decide)

theorem Counted.count_unique (h : Counted nodes out count held) (h₀ : Counted nodes out count₀ held)
    (hg : g ∈ nodes) : count g = count₀ g :=
  (h.count_eq g hg).trans (h₀.count_eq g hg).symm

end DjgppLibc.ReferenceCounts
