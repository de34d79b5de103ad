import Mathlib.Data.List.Pairwise
import Mathlib.Data.List.TakeWhile
import DjgppLibc.CStrings
import DjgppLibc.Runs

/-!
# The environment (`compat/stdlib/putenv.c`, `ansi/stdlib/getenv.c`)

The vector of the environment is the array it was allocated as, slot by slot,
so that a store behind its last slot is visible: it is not in the array and
stops the run, as does the use of a slot that was never written. The counters
are the code's own. Whether an allocation succeeds is an input of the call; a
call that returns -1 has set `errno` to `ENOMEM`.

`counted` says that the counters belong to this run of the program, and `mine`
that the vector is one which `putenv` may free (`_environ == prev_environ`).
-/
namespace DjgppLibc.Putenv

open CStrings

inductive Slot
  | junk
  | null
  | str (s : CString)
deriving DecidableEq

structure State where
  environ : List Slot
  ecount : ℕ
  emax : ℕ
  counted : Bool
  mine : Bool
  changed : UInt32
deriving DecidableEq

structure Alloc where
  vector : Bool
  string : Bool
deriving DecidableEq

/-- `epos`, as a truth value. -/
def epos (val : List UInt8) : Bool := val.contains '='.toUInt8

/-- The name with its `=`, or all of a text without one. -/
def nlen (val : List UInt8) : ℕ :=
  if epos val then (val.takeWhile (· ≠ '='.toUInt8)).length + 1 else val.length

/-- The entry is for the name in `val`. -/
def isFor (val entry : List UInt8) : Bool :=
  (val.take (nlen val)).isPrefixOf entry && (epos val || entry[nlen val]? = some '='.toUInt8)

def entries : List Slot → Option (List CString)
  | [] => none
  | .junk :: _ => none
  | .null :: _ => some []
  | .str s :: slots => (entries slots).map (s :: ·)

def put (environ : List Slot) (i : ℕ) (x : Slot) : Except Unit (List Slot) :=
  if i < environ.length then .ok (environ.set i x) else .error ()

/-- The counters are computed anew if they are not of this run or not of this vector. -/
def recount (s : State) : Except Unit State :=
  if s.counted ∧ s.mine then .ok s
  else
    match entries s.environ with
    | none => .error ()
    | some strs =>
        .ok { s with
          ecount := strs.length, emax := strs.length, changed := s.changed + 1,
          counted := true, mine := if s.counted then s.mine else true }

def delete (s : State) (eindex : ℕ) : Except Unit (State × ℤ) := do
  let environ ← put s.environ eindex (s.environ.getD (s.ecount - 1) .junk)
  let environ ← put environ (s.ecount - 1) .null
  .ok ({ s with environ := environ, ecount := s.ecount - 1, changed := s.changed + 1 }, 0)

def replace (s : State) (eindex : ℕ) (old val : CString) (a : Alloc) : Except Unit (State × ℤ) :=
  if old.bytes.drop (nlen val.bytes) = val.bytes.drop (nlen val.bytes) then .ok (s, 0)
  else if val.bytes.length ≠ old.bytes.length ∧ ¬ a.string then .ok (s, -1)
  else do
    let environ ← put s.environ eindex (.str val)
    .ok ({ s with environ := environ, changed := s.changed + 1 }, 0)

def grow (s : State) (a : Alloc) : State × Bool :=
  if s.ecount < s.emax then (s, true)
  else
    let emax := s.emax + 10
    if ¬ a.vector then ({ s with emax := emax }, false)
    else
      ({ s with
        emax := emax, mine := true,
        environ := s.environ.take s.ecount ++ List.replicate (emax + 1 - s.ecount) .junk }, true)

def create (s : State) (val : CString) (a : Alloc) : Except Unit (State × ℤ) :=
  match grow s a with
  | (s, false) => .ok (s, -1)
  | (s, true) =>
      if ¬ a.string then do
        let environ ← put s.environ s.ecount .null
        .ok ({ s with environ := environ }, -1)
      else do
        let environ ← put s.environ s.ecount (.str val)
        let environ ← put environ (s.ecount + 1) .null
        .ok ({ s with environ := environ, ecount := s.ecount + 1, changed := s.changed + 1 }, 0)

def putenv (s : State) (val : CString) (a : Alloc) : Except Unit (State × ℤ) := do
  let s ← recount s
  match entries s.environ with
  | none => .error ()
  | some strs =>
      match strs.findIdx? (fun e => isFor val.bytes e.bytes) with
      | some eindex =>
          if ¬ epos val.bytes then delete s eindex
          else replace s eindex (strs.getD eindex val) val a
      | none => if ¬ epos val.bytes then .ok (s, 0) else create s val a

/-- The loop of `getenv` over one entry. -/
def getenvEntry : List UInt8 → List UInt8 → Option (List UInt8)
  | e :: ep, n :: np => if e = n ∧ n ≠ '='.toUInt8 then getenvEntry ep np else none
  | e :: ep, [] => if e = '='.toUInt8 then some ep else none
  | [], _ => none

def getenv (s : State) (name : List UInt8) : Option (List UInt8) :=
  match entries s.environ with
  | none => none
  | some strs => strs.findSome? fun e => getenvEntry e.bytes name

variable {val entry name value : List UInt8}

def Defines (entry name value : List UInt8) : Prop :=
  entry = name ++ '='.toUInt8 :: value ∧ '='.toUInt8 ∉ name

theorem Defines.unique {name' value' : List UInt8} (h : Defines entry name value)
    (h' : Defines entry name' value') : name = name' ∧ value = value' := by
  have htake : ∀ n v, Defines entry n v → entry.takeWhile (· ≠ '='.toUInt8) = n := by
    rintro n v ⟨rfl, hn⟩
    rw [List.takeWhile_append_of_pos, List.takeWhile_cons_of_neg (by simp), List.append_nil]
    intro c hc
    have : c ≠ '='.toUInt8 := fun he => hn (he ▸ hc)
    simpa using this
  have hname := (htake _ _ h).symm.trans (htake _ _ h')
  subst hname
  have happ := h.1.symm.trans h'.1
  exact ⟨rfl, (List.cons.inj (List.append_cancel_left happ)).2⟩

theorem getenvEntry_eq_some : getenvEntry entry name = some value ↔ Defines entry name value := by
  fun_induction getenvEntry entry name with
  | case1 e ep n np hne ih =>
      obtain ⟨rfl, hne⟩ := hne
      rw [ih]
      unfold Defines
      constructor
      · rintro ⟨rfl, hn⟩
        exact ⟨rfl, by simpa [hne.symm] using hn⟩
      · rintro ⟨h, hn⟩
        exact ⟨(List.cons.inj h).2, fun hm => hn (List.mem_cons_of_mem _ hm)⟩
  | case2 e ep n np hne =>
      refine iff_of_false (by simp) ?_
      rintro ⟨h, hn⟩
      refine hne ⟨(List.cons.inj h).1, fun he => hn ?_⟩
      rw [← he]
      exact List.mem_cons_self
  | case3 ep => simp [Defines, eq_comm]
  | case4 e ep he =>
      refine iff_of_false (by simp) ?_
      rintro ⟨h, -⟩
      exact he (List.cons.inj h).1
  | case5 name =>
      refine iff_of_false (by simp) ?_
      rintro ⟨h, -⟩
      simp at h

/-- A text with an `=` defines its name; one without is a name. -/
theorem defines_or_notMem (val : List UInt8) :
    (epos val = true ∧ ∃ n v, Defines val n v) ∨ (epos val = false ∧ '='.toUInt8 ∉ val) := by
  by_cases h : '='.toUInt8 ∈ val
  · obtain ⟨n, v, hval, hn⟩ := List.eq_append_cons_of_mem h
    exact .inl ⟨by simp [epos, h], n, v, hval, hn⟩
  · exact .inr ⟨by simp [epos, h], h⟩

theorem nlen_of_defines (h : Defines val name value) :
    epos val = true ∧ nlen val = name.length + 1 := by
  obtain ⟨rfl, hn⟩ := h
  have hpos : epos (name ++ '='.toUInt8 :: value) = true := by simp [epos]
  have htake : (name ++ '='.toUInt8 :: value).takeWhile (· ≠ '='.toUInt8) = name := by
    rw [List.takeWhile_append_of_pos, List.takeWhile_cons_of_neg (by simp), List.append_nil]
    intro c hc
    have : c ≠ '='.toUInt8 := fun he => hn (he ▸ hc)
    simpa using this
  exact ⟨hpos, by rw [nlen, if_pos hpos, htake]⟩

theorem isFor_of_defines (h : Defines val name value) :
    isFor val entry = true ↔ ∃ v, Defines entry name v := by
  obtain ⟨hpos, hlen⟩ := nlen_of_defines h
  obtain ⟨rfl, hn⟩ := h
  have htake : (name ++ '='.toUInt8 :: value).take (name.length + 1) = name ++ ['='.toUInt8] := by
    rw [List.take_append, List.take_of_length_le (by omega), Nat.add_sub_cancel_left]
    rfl
  rw [isFor, hlen, hpos, htake, Bool.true_or, Bool.and_true, List.isPrefixOf_iff_prefix]
  constructor
  · rintro ⟨v, rfl⟩
    exact ⟨v, by simp, hn⟩
  · rintro ⟨v, rfl, -⟩
    exact ⟨v, by simp⟩

theorem isFor_of_notMem (h : '='.toUInt8 ∉ val) :
    isFor val entry = true ↔ ∃ v, Defines entry val v := by
  have hpos : epos val = false := by simp [epos, h]
  have hlen : nlen val = val.length := by rw [nlen, if_neg (by simp [hpos])]
  rw [isFor, hlen, hpos, List.take_length, Bool.false_or, Bool.and_eq_true,
    List.isPrefixOf_iff_prefix, decide_eq_true_iff]
  constructor
  · rintro ⟨⟨w, rfl⟩, he⟩
    rw [List.getElem?_append_right (Nat.le_refl _), Nat.sub_self] at he
    cases w with
    | nil => cases he
    | cons c w =>
        cases he
        exact ⟨w, rfl, h⟩
  · rintro ⟨v, rfl, -⟩
    exact ⟨⟨_, rfl⟩, by simp⟩

variable {strs : List CString} {rest : List Slot}

theorem entries_eq_some {slots : List Slot} :
    entries slots = some strs ↔ ∃ rest, slots = strs.map .str ++ .null :: rest := by
  induction slots generalizing strs with
  | nil => simp [entries]
  | cons x slots ih =>
      cases x with
      | junk =>
          refine iff_of_false (by simp [entries]) ?_
          rintro ⟨rest, h⟩
          cases strs <;> simp at h
      | null =>
          constructor
          · intro h
            cases h
            exact ⟨slots, rfl⟩
          · rintro ⟨rest, h⟩
            cases strs with
            | nil => rfl
            | cons s strs => simp at h
      | str s =>
          rw [entries, Option.map_eq_some_iff]
          constructor
          · rintro ⟨l, hl, rfl⟩
            obtain ⟨rest, rfl⟩ := ih.mp hl
            exact ⟨rest, rfl⟩
          · rintro ⟨rest, h⟩
            cases strs with
            | nil => simp at h
            | cons s' strs =>
                simp only [List.map_cons, List.cons_append, List.cons.injEq, Slot.str.injEq] at h
                exact ⟨strs, ih.mpr ⟨rest, h.2⟩, by rw [h.1]⟩

theorem entries_vector (strs : List CString) (rest : List Slot) :
    entries (strs.map .str ++ .null :: rest) = some strs :=
  entries_eq_some.mpr ⟨rest, rfl⟩

/-- No name is defined twice. -/
def NamesOnce (strs : List CString) : Prop :=
  strs.Pairwise fun a b => ∀ n v w, Defines a.bytes n v → ¬ Defines b.bytes n w

theorem findSome_eq_some (h : NamesOnce strs) (n v : List UInt8) :
    (strs.findSome? fun e => getenvEntry e.bytes n) = some v ↔ ∃ e ∈ strs, Defines e.bytes n v := by
  induction strs with
  | nil => simp
  | cons e strs ih =>
      obtain ⟨he, hs⟩ := List.pairwise_cons.mp h
      rw [List.findSome?_cons]
      cases hg : getenvEntry e.bytes n with
      | none =>
          dsimp only
          rw [ih hs]
          constructor
          · rintro ⟨e', he', hd⟩
            exact ⟨e', List.mem_cons_of_mem _ he', hd⟩
          · rintro ⟨e', he', hd⟩
            rcases List.mem_cons.mp he' with rfl | he'
            · rw [getenvEntry_eq_some.mpr hd] at hg
              cases hg
            · exact ⟨e', he', hd⟩
      | some w =>
          have hw := getenvEntry_eq_some.mp hg
          dsimp only
          constructor
          · intro hv
            cases hv
            exact ⟨e, List.mem_cons_self, hw⟩
          · rintro ⟨e', he', hd⟩
            rcases List.mem_cons.mp he' with rfl | he'
            · rw [(hw.unique hd).2]
            · exact absurd hd (he e' he' n w v hw)

theorem put_at {α : Type*} (a : List α) (x y : α) (b : List α) :
    (a ++ x :: b).set a.length y = a ++ y :: b := by
  rw [List.set_append_right _ _ (Nat.le_refl _), Nat.sub_self, List.set_cons_zero]

theorem put_ok (a : List Slot) (x y : Slot) (b : List Slot) {i : ℕ} (hi : i = a.length) :
    put (a ++ x :: b) i y = .ok (a ++ y :: b) := by
  subst hi
  rw [put, if_pos (by simp), put_at]

/-- The vector holds the strings and a null pointer, and the counters count them. -/
structure Counted (s : State) (strs : List CString) : Prop where
  environ : ∃ rest, s.environ = strs.map .str ++ .null :: rest
  counted : s.counted = true
  mine : s.mine = true
  ecount : s.ecount = strs.length
  emax : strs.length ≤ s.emax

theorem delete_spec {s : State} {a b : List CString} {x : CString}
    (h : Counted s (a ++ x :: b)) :
    ∃ s' strs, delete s a.length = .ok (s', 0) ∧ strs.Perm (a ++ b) ∧ Counted s' strs := by
  obtain ⟨⟨rest, hs⟩, hcounted, hmine, hc, hmax⟩ := h
  have hmax' : (a ++ b).length ≤ s.emax := by
    rw [List.length_append, List.length_cons] at hmax
    rw [List.length_append]
    omega
  unfold delete
  rcases List.eq_nil_or_concat b with rfl | ⟨b, y, rfl⟩
  · have henv : s.environ = a.map .str ++ .str x :: .null :: rest := by simp [hs]
    have hlen : s.ecount - 1 = (a.map Slot.str).length := by simp [hc]
    have hget : s.environ.getD (s.ecount - 1) .junk = .str x := by
      rw [henv, hlen]
      simp
    rw [hget, henv, put_ok _ _ _ _ (by simp)]
    simp only [bind, Except.bind]
    rw [put_ok _ _ _ _ hlen]
    rw [List.append_nil] at hmax' ⊢
    exact ⟨_, a, rfl, List.Perm.refl a, ⟨_, rfl⟩, hcounted, hmine, by simp [hc], hmax'⟩
  · have hperm : List.Perm (a ++ y :: b) (a ++ b.concat y) := by
      rw [List.concat_eq_append, ← List.append_assoc]
      exact List.perm_middle.trans (List.perm_append_singleton y (a ++ b)).symm
    have henv : s.environ = a.map .str ++ .str x :: (b.map .str ++ .str y :: .null :: rest) := by
      simp [hs]
    have hlen : s.ecount - 1 = (a.map Slot.str ++ .str y :: b.map Slot.str).length := by
      simp [hc]
    have hget : s.environ.getD (s.ecount - 1) .junk = .str y := by
      rw [henv, hc, List.getD_eq_getElem?_getD, List.getElem?_append_right (by simp)]
      simp
    rw [hget, henv, put_ok _ _ _ _ (by simp)]
    simp only [bind, Except.bind]
    rw [← List.cons_append, ← List.append_assoc, put_ok _ _ _ _ hlen]
    exact ⟨_, a ++ y :: b, rfl, hperm, ⟨_, by simp; rfl⟩, hcounted, hmine, by simp [hc],
      by rwa [hperm.length_eq]⟩

theorem replace_spec {s : State} {a b : List CString} {x val : CString} (al : Alloc)
    (h : Counted s (a ++ x :: b)) :
    ∃ s' r, replace s a.length x val al = .ok (s', r) ∧
      (r = 0 ∧ x.bytes.drop (nlen val.bytes) = val.bytes.drop (nlen val.bytes) ∧
          Counted s' (a ++ x :: b) ∨
        r = 0 ∧ Counted s' (a ++ val :: b) ∨ r = -1 ∧ Counted s' (a ++ x :: b)) := by
  unfold replace
  split_ifs with hsame hfail
  · exact ⟨s, 0, rfl, .inl ⟨rfl, hsame, h⟩⟩
  · exact ⟨s, -1, rfl, .inr (.inr ⟨rfl, h⟩)⟩
  · obtain ⟨⟨rest, hs⟩, hcounted, hmine, hc, hmax⟩ := h
    have henv : s.environ = a.map .str ++ .str x :: (b.map .str ++ .null :: rest) := by simp [hs]
    rw [henv, put_ok _ _ _ _ (by simp)]
    rw [List.length_append, List.length_cons] at hc hmax
    refine ⟨_, 0, rfl, .inr (.inl ⟨rfl, ⟨rest, by simp⟩, hcounted, hmine, ?_, ?_⟩)⟩
    · rw [List.length_append, List.length_cons]
      exact hc
    · rw [List.length_append, List.length_cons]
      exact hmax

/-- The vector is full although the counters say it is not. -/
def Overfull (s : State) : Prop := s.ecount < s.emax ∧ s.environ.length ≤ s.ecount + 1

structure Spare (s : State) (strs : List CString) : Prop where
  environ : ∃ x y rest, s.environ = strs.map .str ++ x :: y :: rest
  counted : s.counted = true
  mine : s.mine = true
  ecount : s.ecount = strs.length
  emax : strs.length < s.emax

theorem Counted.spare {s : State} (h : Counted s strs) (hlt : s.ecount < s.emax)
    (hroom : s.ecount + 1 < s.environ.length) : Spare s strs := by
  obtain ⟨⟨rest, hs⟩, hcounted, hmine, hc, hmax⟩ := h
  refine ⟨?_, hcounted, hmine, hc, by omega⟩
  cases rest with
  | nil =>
      rw [hs, hc] at hroom
      simp at hroom
  | cons y rest => exact ⟨_, y, rest, hs⟩

/-- What a new vector has room for. -/
theorem grow_full {s : State} (al : Alloc) (h : Counted s strs) (hfull : s.emax ≤ s.ecount) :
    (grow s al).2 = false ∧ Counted (grow s al).1 strs ∨
      (grow s al).2 = true ∧ Spare (grow s al).1 strs := by
  obtain ⟨⟨rest, hs⟩, hcounted, hmine, hc, hmax⟩ := h
  unfold grow
  rw [if_neg (Nat.not_lt.mpr hfull)]
  dsimp only
  split_ifs with hv
  · have hnew : s.emax + 10 + 1 - s.ecount = 11 := by omega
    refine .inr ⟨rfl, ⟨.junk, .junk, List.replicate 9 .junk, ?_⟩, hcounted, rfl, hc, ?_⟩
    · dsimp only
      rw [hnew, hs, hc, List.take_append_of_le_length (by simp), List.take_of_length_le (by simp)]
      rfl
    · dsimp only
      omega
  · exact .inl ⟨rfl, ⟨rest, hs⟩, hcounted, hmine, hc, Nat.le_add_right_of_le hmax⟩

theorem Spare.store {s : State} (h : Spare s strs) (val : CString) :
    ∃ environ₁ environ₂, put s.environ s.ecount (.str val) = .ok environ₁ ∧
      put environ₁ (s.ecount + 1) .null = .ok environ₂ ∧
      Counted { s with
        environ := environ₂, ecount := s.ecount + 1, changed := s.changed + 1 }
        (strs ++ [val]) := by
  obtain ⟨⟨x, y, rest, hs⟩, hcounted, hmine, hc, hmax⟩ := h
  refine ⟨_, _, by rw [hs, put_ok _ _ _ _ (by simp [hc])], ?_, ⟨rest, rfl⟩, hcounted, hmine, ?_, ?_⟩
  · rw [show strs.map Slot.str ++ Slot.str val :: y :: rest =
      (strs ++ [val]).map Slot.str ++ y :: rest by simp, put_ok _ _ _ _ (by simp [hc])]
  · simp [hc]
  · rw [List.length_append, List.length_singleton]
    exact hmax

theorem create_fails {s : State} (val : CString) {al : Alloc} (h : Counted s strs)
    (ha : al.string = false) :
    ∃ s', create s val al = .ok (s', -1) ∧ Counted s' strs := by
  unfold create
  by_cases hlt : s.ecount < s.emax
  · obtain ⟨⟨rest, hs⟩, hcounted, hmine, hc, hmax⟩ := h
    rw [grow, if_pos hlt]
    simp only [ha, Bool.false_eq_true, not_false_eq_true, if_true, bind, Except.bind]
    rw [hs, put_ok _ _ _ _ (by simp [hc])]
    exact ⟨_, rfl, ⟨rest, rfl⟩, hcounted, hmine, hc, hmax⟩
  · rcases grow_full al h (Nat.le_of_not_lt hlt) with ⟨hg, hcount⟩ | ⟨hg, hspare⟩
    · rw [show grow s al = ((grow s al).1, false) from Prod.ext rfl hg]
      exact ⟨_, rfl, hcount⟩
    · rw [show grow s al = ((grow s al).1, true) from Prod.ext rfl hg]
      obtain ⟨⟨x, y, rest, hs⟩, hcounted, hmine, hc, hmax⟩ := hspare
      simp only [ha, Bool.false_eq_true, not_false_eq_true, if_true, bind, Except.bind]
      rw [hs, put_ok _ _ _ _ (by simp [hc])]
      exact ⟨_, rfl, ⟨_, rfl⟩, hcounted, hmine, hc, Nat.le_of_lt hmax⟩

theorem create_spec {s : State} (val : CString) {al : Alloc} (h : Counted s strs)
    (hroom : ¬ Overfull s) (ha : al.string = true) :
    ∃ s' r, create s val al = .ok (s', r) ∧
      (r = 0 ∧ Counted s' (strs ++ [val]) ∨ r = -1 ∧ Counted s' strs) := by
  have hstore : ∀ s₁, Spare s₁ strs → grow s al = (s₁, true) → ∃ s' r,
      create s val al = .ok (s', r) ∧
        (r = 0 ∧ Counted s' (strs ++ [val]) ∨ r = -1 ∧ Counted s' strs) := by
    intro s₁ hspare hg
    obtain ⟨environ₁, environ₂, h₁, h₂, hcount⟩ := hspare.store val
    unfold create
    rw [hg]
    simp only [ha, not_true_eq_false, if_false, bind, Except.bind, h₁, h₂]
    exact ⟨_, 0, rfl, .inl ⟨rfl, hcount⟩⟩
  by_cases hlt : s.ecount < s.emax
  · refine hstore s (h.spare hlt ?_) (by rw [grow, if_pos hlt])
    by_contra hc
    exact hroom ⟨hlt, by omega⟩
  · rcases grow_full al h (Nat.le_of_not_lt hlt) with ⟨hg, hcount⟩ | ⟨hg, hspare⟩
    · have hgrow : grow s al = ((grow s al).1, false) := Prod.ext rfl hg
      exact ⟨_, -1, by rw [create, hgrow], .inr ⟨rfl, hcount⟩⟩
    · exact hstore _ hspare (Prod.ext rfl hg)

theorem create_overfull {s : State} (val : CString) {al : Alloc} (h : Counted s strs)
    (hroom : Overfull s) (ha : al.string = true) : create s val al = .error () := by
  obtain ⟨⟨rest, hs⟩, -, -, hc, -⟩ := h
  unfold create
  rw [grow, if_pos hroom.1]
  simp only [ha, not_true_eq_false, if_false, bind, Except.bind]
  rw [hs, put_ok _ _ _ _ (by simp [hc])]
  dsimp only
  have hlen := hroom.2
  rw [hs, hc] at hlen
  rw [put, if_neg]
  simp only [List.length_append, List.length_map, List.length_cons] at hlen ⊢
  omega

theorem recount_spec {s : State} (hs : ∃ rest, s.environ = strs.map .str ++ .null :: rest)
    (hc : s.counted = true → Counted s strs) :
    ∃ s', recount s = .ok s' ∧ Counted s' strs ∧ s'.environ = s.environ ∧
      (s.counted = true → s' = s) ∧ (s.counted = false → ¬ Overfull s') := by
  unfold recount
  cases hcount : s.counted with
  | true =>
      have h := hc hcount
      exact ⟨s, by simp [h.mine], h, rfl, fun _ => rfl, by simp⟩
  | false =>
      obtain ⟨rest, hs⟩ := hs
      rw [hs, entries_vector]
      refine ⟨_, rfl, ⟨⟨rest, rfl⟩, rfl, rfl, rfl, Nat.le_refl _⟩, rfl, by simp, ?_⟩
      intro _ hover
      exact absurd hover.1 (Nat.lt_irrefl _)

abbrev Map := List UInt8 → Option (List UInt8)

/-- The mapping after a call that succeeds: a text with an `=` gives a name its
value, any other takes a name away. -/
def told (val : List UInt8) (m : Map) : Map :=
  if epos val then
    Function.update m (val.takeWhile (· ≠ '='.toUInt8)) (some (val.drop (nlen val)))
  else Function.update m val none

theorem told_of_defines (h : Defines val name value) (m : Map) :
    told val m = Function.update m name (some value) := by
  obtain ⟨hpos, hlen⟩ := nlen_of_defines h
  rw [told, if_pos hpos, hlen]
  obtain ⟨rfl, hn⟩ := h
  rw [List.takeWhile_append_of_pos, List.takeWhile_cons_of_neg (by simp), List.append_nil,
    List.drop_append, List.drop_of_length_le (by omega), Nat.add_sub_cancel_left]
  · rfl
  · intro c hc
    have : c ≠ '='.toUInt8 := fun he => hn (he ▸ hc)
    simpa using this

def Gives (strs : List CString) (m : Map) : Prop :=
  ∀ n v, m n = some v ↔ ∃ e ∈ strs, Defines e.bytes n v

variable {strs' : List CString} {m : Map} {x y : CString}

theorem Gives.perm (h : Gives strs m) (hp : strs.Perm strs') : Gives strs' m := by
  intro n v
  rw [h n v]
  simp only [hp.mem_iff]

theorem NamesOnce.perm (h : NamesOnce strs) (hp : strs.Perm strs') : NamesOnce strs' := by
  refine (hp.pairwise_iff ?_).mp h
  intro a b hab n v w hb ha
  exact hab n w v ha hb

/-- An entry leaves. -/
theorem Gives.tail (h : Gives (x :: strs) m) (ho : NamesOnce (x :: strs))
    (hx : Defines x.bytes name value) : Gives strs (Function.update m name none) := by
  obtain ⟨hx', -⟩ := List.pairwise_cons.mp ho
  intro n v
  by_cases hn : n = name
  · subst hn
    rw [Function.update_self]
    refine iff_of_false (by simp) ?_
    rintro ⟨e, he, hd⟩
    exact hx' e he n value v hx hd
  · rw [Function.update_of_ne hn, h n v]
    constructor
    · rintro ⟨e, he, hd⟩
      rcases List.mem_cons.mp he with rfl | he
      · exact absurd (hd.unique hx).1 hn
      · exact ⟨e, he, hd⟩
    · rintro ⟨e, he, hd⟩
      exact ⟨e, List.mem_cons_of_mem _ he, hd⟩

theorem Gives.cons (h : Gives strs m) (ho : NamesOnce strs) (hx : Defines x.bytes name value)
    (hno : ∀ e ∈ strs, ∀ v, ¬ Defines e.bytes name v) :
    Gives (x :: strs) (Function.update m name (some value)) ∧ NamesOnce (x :: strs) := by
  constructor
  · intro n v
    by_cases hn : n = name
    · subst hn
      rw [Function.update_self]
      constructor
      · intro hv
        cases hv
        exact ⟨x, List.mem_cons_self, hx⟩
      · rintro ⟨e, he, hd⟩
        rcases List.mem_cons.mp he with rfl | he
        · rw [(hx.unique hd).2]
        · exact absurd hd (hno e he v)
    · rw [Function.update_of_ne hn, h n v]
      constructor
      · rintro ⟨e, he, hd⟩
        exact ⟨e, List.mem_cons_of_mem _ he, hd⟩
      · rintro ⟨e, he, hd⟩
        rcases List.mem_cons.mp he with rfl | he
        · exact absurd (hd.unique hx).1 hn
        · exact ⟨e, he, hd⟩
  · refine List.pairwise_cons.mpr ⟨?_, ho⟩
    intro e he n v w hn hw
    obtain rfl := (hx.unique hn).1
    exact hno e he w hw

theorem Gives.replace (h : Gives (x :: strs) m) (ho : NamesOnce (x :: strs)) {old : List UInt8}
    (hx : Defines x.bytes name old) (hy : Defines y.bytes name value) :
    Gives (y :: strs) (Function.update m name (some value)) ∧ NamesOnce (y :: strs) := by
  obtain ⟨hx', ho'⟩ := List.pairwise_cons.mp ho
  have := (h.tail ho hx).cons ho' hy fun e he v hd => hx' e he name old v hx hd
  rwa [Function.update_idem] at this

theorem findIdx?_split {p : CString → Bool} {k : ℕ} (h : strs.findIdx? p = some k) :
    ∃ a x b, strs = a ++ x :: b ∧ a.length = k ∧ p x = true := by
  induction strs generalizing k with
  | nil => cases h
  | cons e strs ih =>
      rw [List.findIdx?_cons] at h
      split_ifs at h with he
      · cases h
        exact ⟨[], e, strs, rfl, rfl, he⟩
      · obtain ⟨j, hj, rfl⟩ := Option.map_eq_some_iff.mp h
        obtain ⟨a, x, b, rfl, rfl, hx⟩ := ih hj
        exact ⟨e :: a, x, b, rfl, rfl, hx⟩

/-- The call defines a name that has no entry. -/
def adds (s : State) (val : CString) : Bool :=
  epos val.bytes &&
    match entries s.environ with
    | none => false
    | some strs => strs.all fun e => !isFor val.bytes e.bytes

theorem putenv_eq {s s' : State} (val : CString) (al : Alloc) (hr : recount s = .ok s')
    (hs : entries s'.environ = some strs) :
    putenv s val al =
      match strs.findIdx? (fun e => isFor val.bytes e.bytes) with
      | some eindex =>
          if ¬ epos val.bytes then delete s' eindex
          else replace s' eindex (strs.getD eindex val) val al
      | none => if ¬ epos val.bytes then .ok (s', 0) else create s' val al := by
  unfold putenv
  rw [hr]
  simp only [bind, Except.bind]
  rw [hs]

/-- A call for a name with an entry. -/
theorem change_spec {s : State} {val : CString} {a b : List CString} (al : Alloc)
    (h : Counted s (a ++ x :: b)) (ho : NamesOnce (a ++ x :: b)) (hm : Gives (a ++ x :: b) m)
    (hval : Defines val.bytes name value) {old : List UInt8} (hx : Defines x.bytes name old) :
    ∃ s' r strs', replace s a.length x val al = .ok (s', r) ∧ Counted s' strs' ∧
      NamesOnce strs' ∧ Gives strs' (if r = 0 then told val.bytes m else m) := by
  have ho' : NamesOnce (x :: (a ++ b)) := ho.perm List.perm_middle
  have hm' : Gives (x :: (a ++ b)) m := hm.perm List.perm_middle
  obtain ⟨s', r, hr, ⟨rfl, hsame, hc⟩ | ⟨rfl, hc⟩ | ⟨rfl, hc⟩⟩ := replace_spec al h
  · -- the value is the old one
    have hv : old = value := by
      have hlen := (nlen_of_defines hval).2
      rw [hlen, hx.1, hval.1] at hsame
      simpa using hsame
    subst hv
    obtain ⟨hg, -⟩ := hm'.replace ho' hx hx
    refine ⟨s', 0, _, hr, hc, ho, ?_⟩
    rw [if_pos rfl, told_of_defines hval]
    exact hg.perm List.perm_middle.symm
  · obtain ⟨hg, ho''⟩ := hm'.replace ho' hx hval
    refine ⟨s', 0, _, hr, hc, ho''.perm List.perm_middle.symm, ?_⟩
    rw [if_pos rfl, told_of_defines hval]
    exact hg.perm List.perm_middle.symm
  · exact ⟨s', -1, _, hr, hc, ho, by simpa using hm⟩

theorem add_spec {s : State} {val : CString} {al : Alloc} (h : Counted s strs)
    (ho : NamesOnce strs) (hm : Gives strs m) (hval : Defines val.bytes name value)
    (hno : ∀ e ∈ strs, ∀ v, ¬ Defines e.bytes name v) (hroom : al.string = true → ¬ Overfull s) :
    ∃ s' r strs', create s val al = .ok (s', r) ∧ Counted s' strs' ∧ NamesOnce strs' ∧
      Gives strs' (if r = 0 then told val.bytes m else m) := by
  cases ha : al.string with
  | false =>
      obtain ⟨s', hr, hc⟩ := create_fails val h ha
      exact ⟨s', -1, strs, hr, hc, ho, by simpa using hm⟩
  | true =>
      obtain ⟨s', r, hr, ⟨rfl, hc⟩ | ⟨rfl, hc⟩⟩ := create_spec val h (hroom ha) ha
      · have hp : (val :: strs).Perm (strs ++ [val]) := (List.perm_append_singleton val strs).symm
        obtain ⟨hg, ho'⟩ := hm.cons ho hval hno
        refine ⟨s', 0, _, hr, hc, ho'.perm hp, ?_⟩
        rw [if_pos rfl, told_of_defines hval]
        exact hg.perm hp
      · exact ⟨s', -1, strs, hr, hc, ho, by simpa using hm⟩

theorem remove_spec {s : State} {val : CString} {a b : List CString}
    (h : Counted s (a ++ x :: b)) (ho : NamesOnce (a ++ x :: b)) (hm : Gives (a ++ x :: b) m)
    (hval : epos val.bytes = false) (hx : Defines x.bytes val.bytes value) :
    ∃ s' r strs', delete s a.length = .ok (s', r) ∧ Counted s' strs' ∧ NamesOnce strs' ∧
      Gives strs' (if r = 0 then told val.bytes m else m) := by
  have ho' : NamesOnce (x :: (a ++ b)) := ho.perm List.perm_middle
  have hm' : Gives (x :: (a ++ b)) m := hm.perm List.perm_middle
  have hrest : NamesOnce (a ++ b) := (List.pairwise_cons.mp ho').2
  obtain ⟨s', strs', hr, hp, hc⟩ := delete_spec h
  refine ⟨s', 0, strs', hr, hc, hrest.perm hp.symm, ?_⟩
  rw [if_pos rfl, told, if_neg (by simp [hval])]
  exact (hm'.tail ho' hx).perm hp.symm

theorem putenv_spec {s : State} (val : CString) (al : Alloc)
    (hs : ∃ rest, s.environ = strs.map .str ++ .null :: rest)
    (hc : s.counted = true → Counted s strs) (ho : NamesOnce strs) (hm : Gives strs m)
    (hroom : ¬ (s.counted = true ∧ adds s val = true ∧ al.string = true ∧ Overfull s)) :
    ∃ s' r strs', putenv s val al = .ok (s', r) ∧ Counted s' strs' ∧ NamesOnce strs' ∧
      Gives strs' (if r = 0 then told val.bytes m else m) := by
  obtain ⟨s₁, hr, hcount, henv, hkeep, hnew⟩ := recount_spec hs hc
  have hentries : entries s₁.environ = some strs := entries_eq_some.mpr hcount.environ
  rw [putenv_eq val al hr hentries]
  rcases defines_or_notMem val.bytes with ⟨hpos, n, v, hval⟩ | ⟨hneg, hno⟩
  · cases hf : strs.findIdx? (fun e => isFor val.bytes e.bytes) with
    | some k =>
        obtain ⟨a, x, b, rfl, rfl, hx⟩ := findIdx?_split hf
        obtain ⟨w, hw⟩ := (isFor_of_defines hval).mp hx
        have hget : (a ++ x :: b).getD a.length val = x := by simp
        dsimp only
        rw [if_neg (by simp [hpos]), hget]
        exact change_spec al hcount ho hm hval hw
    | none =>
        have hnone := List.findIdx?_eq_none_iff.mp hf
        dsimp only
        rw [if_neg (by simp [hpos])]
        apply add_spec hcount ho hm hval
        · intro e he w hd
          have := (isFor_of_defines hval).mpr ⟨w, hd⟩
          rw [hnone e he] at this
          cases this
        · intro ha hover
          cases hcd : s.counted with
          | false => exact hnew hcd hover
          | true =>
              obtain rfl := hkeep hcd
              refine hroom ⟨hcd, ?_, ha, hover⟩
              rw [adds, hpos, hentries]
              simpa using hnone
  · cases hf : strs.findIdx? (fun e => isFor val.bytes e.bytes) with
    | some k =>
        obtain ⟨a, x, b, rfl, rfl, hx⟩ := findIdx?_split hf
        obtain ⟨w, hw⟩ := (isFor_of_notMem hno).mp hx
        dsimp only
        rw [if_pos (by simp [hneg])]
        exact remove_spec hcount ho hm hneg hw
    | none =>
        have hnone := List.findIdx?_eq_none_iff.mp hf
        dsimp only
        rw [if_pos (by simp [hneg])]
        refine ⟨s₁, 0, strs, rfl, hcount, ho, ?_⟩
        have habsent : m val.bytes = none := by
          cases hv : m val.bytes with
          | none => rfl
          | some v =>
              obtain ⟨e, he, hd⟩ := (hm _ v).mp hv
              have := (isFor_of_notMem hno).mpr ⟨v, hd⟩
              rw [hnone e he] at this
              cases this
        rwa [if_pos rfl, told, if_neg (by simp [hneg]), ← habsent, Function.update_eq_self]

/-- The environment of the process, and the mapping that the calls have told. -/
structure Run where
  state : State
  map : Map

/-- One call; one that returns -1 is to leave the mapping as it is. -/
def Run.step (r : Run) (c : CString × Alloc) : Except Unit Run :=
  match putenv r.state c.1 c.2 with
  | .error e => .error e
  | .ok (s, result) => .ok ⟨s, if result = 0 then told c.1.bytes r.map else r.map⟩

structure Environment where
  strings : List CString
  once : NamesOnce strings

/-- The vector as the start-up code allocates it. The counters are computed by
the first call. -/
def start (E : Environment) : Run where
  state :=
    { environ := E.strings.map .str ++ [.null], ecount := E.strings.length,
      emax := E.strings.length, counted := false, mine := false, changed := 1 }
  map := fun n => E.strings.findSome? fun e => getenvEntry e.bytes n

/-- The vector ends inside its array and has at most `emax` entries, no name
occurs twice, and `getenv` answers what the calls have told. -/
structure Run.InOrder (r : Run) : Prop where
  vector : ∃ (strs : List CString) (rest : List Slot),
    r.state.environ = strs.map .str ++ .null :: rest ∧ strs.length ≤ r.state.emax ∧ NamesOnce strs
  getenv : ∀ n, getenv r.state n = r.map n

/-- The call adds no entry to a full vector whose counters say that it is not full. -/
def Roomy (r : Run) (c : CString × Alloc) : Prop :=
  ¬ (r.state.counted = true ∧ adds r.state c.1 = true ∧ c.2.string = true ∧ Overfull r.state)

structure Run.Inv (r : Run) (strs : List CString) : Prop where
  environ : ∃ rest, r.state.environ = strs.map .str ++ .null :: rest
  counted : r.state.counted = true → Counted r.state strs
  emax : strs.length ≤ r.state.emax
  once : NamesOnce strs
  gives : Gives strs r.map

theorem Run.Inv.inOrder {r : Run} (h : r.Inv strs) : r.InOrder := by
  obtain ⟨rest, hs⟩ := h.environ
  refine ⟨⟨strs, rest, hs, h.emax, h.once⟩, fun n => ?_⟩
  rw [Putenv.getenv, hs, entries_vector]
  dsimp only
  apply Option.ext
  intro v
  rw [findSome_eq_some h.once, h.gives]

theorem Run.Inv.start (E : Environment) : (start E).Inv E.strings :=
  ⟨⟨[], rfl⟩, fun h => Bool.noConfusion h, Nat.le_refl _, E.once,
    fun n v => findSome_eq_some E.once n v⟩

theorem Run.Inv.step {r : Run} (h : r.Inv strs) {c : CString × Alloc} (hc : Roomy r c) :
    ∃ r', r.step c = .ok r' ∧ ∃ strs', r'.Inv strs' := by
  obtain ⟨s', result, strs', hput, hcount, ho, hg⟩ :=
    putenv_spec c.1 c.2 h.environ h.counted h.once h.gives hc
  refine ⟨_, by rw [Run.step, hput], strs', hcount.environ, fun _ => hcount, hcount.emax, ho, hg⟩

/-- A new entry in a full vector is the end of the run. -/
theorem Run.Inv.step_overfull {r : Run} (h : r.Inv strs) {c : CString × Alloc} (hc : ¬ Roomy r c) :
    r.step c = .error () := by
  obtain ⟨hcounted, hadds, hstring, hover⟩ := Classical.not_not.mp hc
  have hcount := h.counted hcounted
  have hentries : entries r.state.environ = some strs := entries_eq_some.mpr hcount.environ
  obtain ⟨s₁, hr, -, -, hkeep, -⟩ := recount_spec h.environ h.counted
  rw [hkeep hcounted] at hr
  rw [adds, hentries, Bool.and_eq_true] at hadds
  have hnone : strs.findIdx? (fun e => isFor c.1.bytes e.bytes) = none := by
    rw [List.findIdx?_eq_none_iff]
    simpa using hadds.2
  rw [Run.step, putenv_eq c.1 c.2 hr hentries, hnone]
  dsimp only
  rw [if_neg (by simp [hadds.1]), create_overfull c.1 hcount hover hstring]

/-- The environment is in order after every call of a run exactly when no call
adds an entry to a vector that is full although `ecount` is below `emax`. -/
theorem run_inOrder_iff (E : Environment) (calls : List (CString × Alloc)) :
    (∀ n, ∃ r, Runs.exec Run.step (start E) (calls.take n) = .ok r ∧ r.InOrder) ↔
      Runs.Along Run.step Roomy (start E) calls := by
  apply Runs.exec_prefixes_iff (J := fun r => ∃ strs, r.Inv strs)
  · rintro r ⟨strs, h⟩
    exact h.inOrder
  · rintro r c ⟨strs, h⟩ hc
    exact h.step hc
  · rintro r c r' ⟨strs, h⟩ hc hstep
    rw [h.step_overfull hc] at hstep
    cases hstep
  · exact ⟨E.strings, Run.Inv.start E⟩

/-- One variable. -/
def oneVariable : Environment where
  strings := [⟨['A', '=', '1'].map Char.toUInt8, by decide⟩]
  once := List.pairwise_singleton _ _

def retriedCalls : List (CString × Alloc) :=
  [(⟨['B', '=', '2'].map Char.toUInt8, by decide⟩, ⟨false, true⟩),
    (⟨['B', '=', '2'].map Char.toUInt8, by decide⟩, ⟨true, true⟩)]

theorem retriedCalls_overrun :
    ¬ ∀ n, ∃ r, Runs.exec Run.step (start oneVariable) (retriedCalls.take n) = .ok r ∧
      r.InOrder := by
  intro h
  obtain ⟨r, hr, -⟩ := h 2
  have hstop : (Runs.exec Run.step (start oneVariable)
      (retriedCalls.take 2)).toOption.isNone = true := by
    decide +kernel
  rw [hr] at hstop
  exact absurd hstop (by simp [Except.toOption])

end DjgppLibc.Putenv
