import DjgppLibc.GlobSearch
import DjgppLibc.Outcomes

/-!
# The buffer of the search (`posix/glob/glob.c`)

What `path_buffer` holds is followed up to the kind of the slashes: `glob_dirs` puts the
slash that was seen last, and DOS does not mind. A store says exactly when it is inside;
what is in front of it is kept, and the string at `pathbuf` is known up to its NUL.
-/
namespace DjgppLibc.GlobSearch

open CStrings Fnmatch Outcomes

def turn (c : UInt8) : UInt8 := if c = '\\'.toUInt8 then slashByte else c

def Reads (buf : ℕ → UInt8) (i : ℕ) (t : List UInt8) : Prop :=
  ∀ k (h : k < t.length), turn (buf (i + k)) = t[k]

structure Kept (n : ℕ) (s s' : State) : Prop where
  buf : ∀ k < n, s'.buf k = s.buf k
  nesting : s'.wildcardNesting = s.wildcardNesting
  slash : isslash s.slash = true → isslash s'.slash = true

structure Stored (s : State) (i : ℕ) (text : List UInt8) (s' : State) : Prop where
  fields : s' = { s with buf := s'.buf }
  outside : ∀ k, k < i ∨ i + text.length ≤ k → s'.buf k = s.buf k
  inside : ∀ k (h : k < text.length), s'.buf (i + k) = text[k]

variable {s s' s'' : State} {i j k n : ℕ} {c : UInt8} {t u p text : List UInt8}
  {buf buf' : ℕ → UInt8}

theorem forward_eq (t : List UInt8) : forward t = t.map turn := rfl

@[simp] theorem length_forward (t : List UInt8) : (forward t).length = t.length := by
  rw [forward_eq, List.length_map]

theorem turn_turn (c : UInt8) : turn (turn c) = turn c := by
  have hturn : turn c = slashByte ∨ turn c = c := by
    unfold turn
    split_ifs
    · exact .inl rfl
    · exact .inr rfl
  rcases hturn with h | h
  · rw [h]
    decide
  · rw [h, h]

theorem forward_append (t u : List UInt8) : forward (t ++ u) = forward t ++ forward u := by
  rw [forward_eq, forward_eq, forward_eq, List.map_append]

theorem turn_eq_zero (h : turn c = 0) : c = 0 := by
  unfold turn at h
  split_ifs at h
  · exact absurd h (by decide)
  · exact h

theorem zero_notMem_forward (h : 0 ∉ t) : 0 ∉ forward t := by
  rw [forward_eq, List.mem_map]
  rintro ⟨c, hc, h0⟩
  exact h (turn_eq_zero h0 ▸ hc)

theorem Reads.congr (h : Reads buf i t) (hbuf : ∀ k, i ≤ k → k < i + t.length → buf' k = buf k) :
    Reads buf' i t := by
  intro k hk
  rw [hbuf (i + k) (by omega) (by omega)]
  exact h k hk

theorem Reads.append (ht : Reads buf i t) (hu : Reads buf (i + t.length) u) :
    Reads buf i (t ++ u) := by
  intro k hk
  rw [List.getElem_append]
  split_ifs with hlt
  · exact ht k hlt
  · rw [List.length_append] at hk
    have := hu (k - t.length) (by omega)
    rwa [show i + t.length + (k - t.length) = i + k by omega] at this

theorem turn_of_isslash (h : isslash c = true) : turn c = slashByte := by
  unfold turn
  split_ifs with hc
  · rfl
  · exact (of_decide_eq_true ((Bool.or_eq_true_iff.mp h).resolve_left (by simp [hc])))

/-- A text that is read has its slashes turned already. -/
theorem Reads.forward_eq_self (h : Reads buf i t) : forward t = t := by
  refine List.ext_getElem (length_forward t) fun k hk hk' => ?_
  simp only [forward_eq, List.getElem_map]
  rw [← h k hk', turn_turn]

theorem Reads.left (h : Reads buf i (t ++ u)) : Reads buf i t := by
  intro k hk
  rw [h k (by rw [List.length_append]; omega), List.getElem_append_left hk]

theorem Stored.reads (h : Stored s i text s') : Reads s'.buf i (forward text) := by
  intro k hk
  rw [length_forward] at hk
  rw [h.inside k hk]
  simp only [forward_eq, List.getElem_map]

theorem Stored.kept (h : Stored s i text s') (hn : n ≤ i) : Kept n s s' :=
  ⟨fun k hk => h.outside k (.inl (by omega)), by rw [h.fields], by rw [h.fields]; exact id⟩

theorem Kept.refl (n : ℕ) (s : State) : Kept n s s := ⟨fun _ _ => rfl, rfl, id⟩

theorem Kept.trans (h : Kept n s s') (h' : Kept n s' s'') : Kept n s s'' :=
  ⟨fun k hk => (h'.buf k hk).trans (h.buf k hk), h'.nesting.trans h.nesting, h'.slash ∘ h.slash⟩

theorem Kept.of_le (h : Kept n s s') (hi : i ≤ n) : Kept i s s' :=
  ⟨fun k hk => h.buf k (by omega), h.nesting, h.slash⟩

theorem Reads.kept (h : Reads s.buf i t) (hk : Kept n s s') (hn : i + t.length ≤ n) :
    Reads s'.buf i t :=
  h.congr fun k _ hlt => hk.buf k (by omega)

theorem takeWhile_range (f : ℕ → UInt8) (hn : n < j) (h : ∀ k < n, f k ≠ 0) (h0 : f n = 0) :
    ((List.range j).map f).takeWhile (· ≠ 0) = (List.range n).map f := by
  obtain ⟨m, rfl⟩ : ∃ m, j = n + (m + 1) := ⟨j - n - 1, by omega⟩
  rw [List.range_add, List.map_append, List.takeWhile_append_of_pos]
  · rw [List.range_succ_eq_map, List.map_cons, List.map_cons, Nat.add_zero,
      List.takeWhile_cons_of_neg (by simp [h0]), List.append_nil]
  · intro c hc
    obtain ⟨k, hk, rfl⟩ := List.mem_map.mp hc
    simpa using h k (List.mem_range.mp hk)

/-- The string at `pathbuf` is what stands in front of a NUL. -/
theorem forward_text (h : Reads s.buf pathbuf t) (hnul : 0 ∉ t) (hlen : t.length < PATHBUF_LEN)
    (h0 : s.buf (pathbuf + t.length) = 0) : forward s.text = t := by
  have hne : ∀ k < t.length, s.buf (pathbuf + k) ≠ 0 := by
    intro k hk hz
    have hread := h k hk
    rw [hz] at hread
    exact hnul (by rw [show (0 : UInt8) = t[k] from hread]; exact List.getElem_mem hk)
  rw [State.text, takeWhile_range _ hlen hne h0, forward_eq, List.map_map]
  refine List.ext_getElem (by simp) fun k hk hk' => ?_
  rw [List.getElem_map, List.getElem_range]
  exact h k hk'

/-- A store outside of the buffer. -/
abbrev IsOutside (e : Stop) : Prop := e = .outside

theorem outcome_store (s : State) (i : ℕ) (c : UInt8) :
    Outcome IsOutside (i ≤ PATHBUF_LEN) (Stored s i [c]) (s.store i c) := by
  unfold State.store
  split_ifs with hi
  · refine (Outcome.pure (P := Stored s i [c]) ⟨rfl, fun k hk => ?_, fun k hk => ?_⟩).congr
      (iff_of_true trivial (Nat.le_of_lt_succ hi))
    · rw [List.length_singleton] at hk
      have hne : k ≠ i := by omega
      exact Function.update_of_ne hne c s.buf
    · rw [List.length_singleton] at hk
      obtain rfl : k = 0 := by omega
      exact Function.update_self i c s.buf
  · exact .stop (by omega)

theorem Stored.trans (h : Stored s i t s') (h' : Stored s' (i + t.length) u s'') :
    Stored s i (t ++ u) s'' where
  fields := by rw [h'.fields, h.fields]
  outside k hk := by
    rw [List.length_append] at hk
    rw [h'.outside k (by omega), h.outside k (by omega)]
  inside k hk := by
    rw [List.length_append] at hk
    rw [List.getElem_append]
    split_ifs with hlt
    · rw [h'.outside (i + k) (by omega), h.inside k hlt]
    · have := h'.inside (k - t.length) (by omega)
      rwa [show i + t.length + (k - t.length) = i + k by omega] at this

theorem outcome_storeAll (s : State) (i : ℕ) (text : List UInt8) :
    Outcome IsOutside (text = [] ∨ i + text.length ≤ PATHBUF_LEN + 1) (Stored s i text)
      (s.storeAll i text) := by
  induction text generalizing s i with
  | nil =>
      refine (Outcome.pure ⟨rfl, fun _ _ => rfl, fun k hk => ?_⟩).congr
        (iff_of_true trivial (.inl rfl))
      cases hk
  | cons c text ih =>
      refine ((outcome_store s i c).bind fun s₁ _ h₁ => (ih s₁ (i + 1)).mono fun s₂ h₂ =>
        Stored.trans h₁ h₂).congr ⟨fun h => ?_, fun h => ?_⟩
      · refine .inr ?_
        rcases h.2 with rfl | hlen
        · rw [List.length_singleton]
          omega
        · rw [List.length_cons]
          omega
      · have hlen := h.resolve_left (List.cons_ne_nil c text)
        rw [List.length_cons] at hlen
        exact ⟨by omega, .inr (by omega)⟩

theorem outcome_strcpy (s : State) (i : ℕ) (text : List UInt8) :
    Outcome IsOutside (i + text.length ≤ PATHBUF_LEN) (Stored s i (text ++ [0]))
    (s.strcpy i text) :=
  (outcome_storeAll s i (text ++ [0])).congr (by simp; omega)

end DjgppLibc.GlobSearch
