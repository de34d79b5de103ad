import Mathlib.Data.List.Basic

/-!
# Names of paths

A path over any alphabet is a word with separators, and what it names is given by
the names between them. Its normal form is the list of names that is left when the
names are pushed one after another on the names of a directory: `.` changes
nothing, and `..` takes the last name away. `induction_names` is the induction
that a program follows which reads a path from left to right.
-/
namespace DjgppLibc.PathNames

variable {α : Type*}

def names (sep : α → Bool) (path : List α) : List (List α) :=
  (path.splitOnP sep).filter (!·.isEmpty)

variable {sep : α → Bool} {n p r : List α} {c : α}

@[simp] theorem names_nil : names sep [] = [] := rfl

@[simp] theorem names_sep (h : sep c = true) : names sep (c :: p) = names sep p := by
  simp [names, List.splitOnP_cons_eq_if_modifyHead, h]

theorem names_append (hne : n ≠ []) (hn : ∀ c ∈ n, sep c = false)
    (hr : ∀ c ∈ r.head?, sep c = true) : names sep (n ++ r) = n :: names sep r := by
  cases r with
  | nil =>
      rw [List.append_nil, names, List.splitOnP_eq_singleton hn]
      simp [hne]
  | cons c r =>
      have hc : sep c = true := hr c rfl
      rw [names_sep hc, names, List.splitOnP_append_cons_of_forall_mem hn c hc]
      simp [hne, names]

theorem induction_names {P : List α → Prop} (sep : α → Bool) (nil : P [])
    (slash : ∀ c p, sep c = true → P p → P (c :: p))
    (name : ∀ n r, n ≠ [] → (∀ c ∈ n, sep c = false) → (∀ c ∈ r.head?, sep c = true) →
      P r → P (n ++ r)) (p : List α) : P p := by
  induction hl : p.length using Nat.strongRecOn generalizing p with
  | ind l ih =>
    subst hl
    cases p with
    | nil => exact nil
    | cons c p =>
        by_cases hc : sep c = true
        · exact slash c p hc (ih _ (by simp) p rfl)
        · have hsplit := List.takeWhile_append_dropWhile (p := fun c => !sep c) (l := c :: p)
          have hne : (c :: p).takeWhile (fun c => !sep c) ≠ [] := by simp [hc]
          have hlen := congrArg List.length hsplit
          rw [List.length_append] at hlen
          have hpos := List.length_pos_iff.mpr hne
          rw [← hsplit]
          refine name _ _ hne (fun x hx => ?_) (fun x hx => ?_) (ih _ (by omega) _ rfl)
          · simpa using List.all_eq_true.mp List.all_takeWhile x hx
          · have := List.head?_dropWhile_not (fun c => !sep c) (c :: p)
            rw [Option.mem_def.mp hx] at this
            simpa using this

variable [DecidableEq α] (dot : α)

def push (dirs : List (List α)) (n : List α) : List (List α) :=
  if n = [dot] then dirs else if n = [dot, dot] then dirs.dropLast else dirs ++ [n]

variable (sep) in
def normalForm (dirs : List (List α)) (path : List α) : List (List α) :=
  (names sep path).foldl (push dot) dirs

variable (sep) in
structure IsName (n : List α) : Prop where
  ne_nil : n ≠ []
  ne_dot : n ≠ [dot]
  ne_dotdot : n ≠ [dot, dot]
  sep_eq_false : ∀ c ∈ n, sep c = false

instance (n : List α) : Decidable (IsName sep dot n) :=
  decidable_of_iff (n ≠ [] ∧ n ≠ [dot] ∧ n ≠ [dot, dot] ∧ ∀ c ∈ n, sep c = false)
    ⟨fun ⟨h₁, h₂, h₃, h₄⟩ => ⟨h₁, h₂, h₃, h₄⟩, fun ⟨h₁, h₂, h₃, h₄⟩ => ⟨h₁, h₂, h₃, h₄⟩⟩

/-- Something holds of the directory and the name, each time a name is added. -/
def EachAdded (P : List (List α) → List α → Prop) : List (List α) → List (List α) → Prop
  | _, [] => True
  | dirs, n :: ns => (n ≠ [dot] → n ≠ [dot, dot] → P dirs n) ∧ EachAdded P (push dot dirs n) ns

instance EachAdded.decidable (P : List (List α) → List α → Prop) [∀ dirs n, Decidable (P dirs n)] :
    (dirs ns : List (List α)) → Decidable (EachAdded dot P dirs ns)
  | _, [] => inferInstanceAs (Decidable True)
  | dirs, n :: ns =>
      have := EachAdded.decidable P (push dot dirs n) ns
      inferInstanceAs (Decidable (_ ∧ _))

variable {dot} {dirs ns : List (List α)}

@[simp] theorem push_dot : push dot dirs [dot] = dirs := by simp [push]

@[simp] theorem push_dotdot : push dot dirs [dot, dot] = dirs.dropLast := by simp [push]

theorem push_name (h₁ : n ≠ [dot]) (h₂ : n ≠ [dot, dot]) : push dot dirs n = dirs ++ [n] := by
  simp [push, h₁, h₂]

theorem isName_push (hne : n ≠ []) (hn : ∀ c ∈ n, sep c = false)
    (h : ∀ m ∈ dirs, IsName sep dot m) : ∀ m ∈ push dot dirs n, IsName sep dot m := by
  intro m hm
  unfold push at hm
  split_ifs at hm with h₁ h₂
  · exact h m hm
  · exact h m (List.dropLast_subset dirs hm)
  · rcases List.mem_append.mp hm with hm | hm
    · exact h m hm
    · rw [List.mem_singleton.mp hm]
      exact ⟨hne, h₁, h₂, hn⟩

/-- Nothing but names is left. -/
theorem isName_normalForm (p : List α) (h : ∀ m ∈ dirs, IsName sep dot m) :
    ∀ m ∈ normalForm sep dot dirs p, IsName sep dot m := by
  induction p using induction_names sep generalizing dirs with
  | nil => exact h
  | slash c p hc ih =>
      rw [normalForm, names_sep hc]
      exact ih h
  | name n r hne hn hr ih =>
      rw [normalForm, names_append hne hn hr]
      exact ih (isName_push hne hn h)

omit [DecidableEq α] in
theorem names_flatMap (hc : sep c = true) (h : ∀ m ∈ ns, IsName sep dot m) :
    names sep (ns.flatMap (c :: ·)) = ns := by
  induction ns with
  | nil => rfl
  | cons n ns ih =>
      obtain ⟨hn, hns⟩ := List.forall_mem_cons.mp h
      have hr : ∀ x ∈ (ns.flatMap (c :: ·)).head?, sep x = true := by
        intro x hx
        cases ns with
        | nil => cases hx
        | cons m ns =>
            cases hx
            exact hc
      rw [List.flatMap_cons, List.cons_append, names_sep hc,
        names_append hn.ne_nil hn.sep_eq_false hr, ih hns]

theorem foldl_push (h : ∀ m ∈ ns, IsName sep dot m) : ns.foldl (push dot) dirs = dirs ++ ns := by
  induction ns generalizing dirs with
  | nil => simp
  | cons n ns ih =>
      obtain ⟨hn, hns⟩ := List.forall_mem_cons.mp h
      rw [List.foldl_cons, push_name hn.ne_dot hn.ne_dotdot, ih hns]
      simp

theorem eachAdded_of_prefix {P : List (List α) → List α → Prop} (h : ∀ m ∈ ns, IsName sep dot m)
    (hP : ∀ pre n, pre ++ [n] <+: ns → P (dirs ++ pre) n) : EachAdded dot P dirs ns := by
  induction ns generalizing dirs with
  | nil => trivial
  | cons n ns ih =>
      obtain ⟨hn, hns⟩ := List.forall_mem_cons.mp h
      refine ⟨fun _ _ => by simpa using hP [] n (by simp), ?_⟩
      rw [push_name hn.ne_dot hn.ne_dotdot]
      refine ih hns fun pre m hpre => ?_
      simpa using hP (n :: pre) m (by simpa using hpre)

end DjgppLibc.PathNames
