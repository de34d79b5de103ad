import DjgppLibc.FdPropsLists

/-!
# Temporary files

What the properties are for, in their own terms: every descriptor has the name
of its file, a name is temporary when a file of that name has been opened with
`O_TEMPORARY`, and the file is removed when the last descriptor with the name
is cleared. The code keeps the descriptors in a table of counted objects, and
the flag on one of the objects with the name. It does so as long as objects are
taken out of the lists at their end only, and the flags of an object that is
already there are not lost.
-/
namespace DjgppLibc.FdProps
open LinkedLists

def fold (name : List Char) : List Char := name.map Char.toLower

structure Spec where
  file : ℕ → Option (Option (List Char))
  temporary : List (List Char)
  removed : List (List Char)

def Spec.start : Spec := ⟨fun _ => none, [], []⟩

variable (truename : Option (List Char) → Option (List Char))

def Spec.clear (fd : ℕ) (s : Spec) : Spec :=
  let file := Function.update s.file fd none
  match s.file fd with
  | some (some name) =>
      if name ∈ s.temporary ∧ ∀ fd' < nfds, file fd' ≠ some (some name) then
        ⟨file, s.temporary.filter (· ≠ name), s.removed ++ [name]⟩
      else { s with file := file }
  | _ => { s with file := file }

def Spec.step (s : Spec) : Op → Spec
  | .set fd file temporary _ _ =>
      let name := (truename file).map fold
      { s with
        file := if (s.file fd).isSome then s.file else Function.update s.file fd (some name),
        temporary := if temporary then name.toList ++ s.temporary else s.temporary }
  | .dup fd newfd =>
      { s with
        file :=
          if (s.file fd).isSome then Function.update s.file newfd (s.file fd) else s.file }
  | .clear fd => s.clear fd

def descriptors (table : ℕ → ℕ) (a : ℕ) : Finset ℕ :=
  (Finset.range nfds).filter fun fd => table fd = a

/-- The lists are well formed and hold the objects with and without descriptors, and the
counts are the numbers of descriptors. -/
structure WellFormed (st : Fds) : Prop where
  lists : ∃ active cached,
    IsList st.objects st.activeFds active ∧ IsList st.objects st.cachedFds cached ∧
      (∀ a, a ∈ active ↔ a ≠ 0 ∧ ∃ fd < nfds, st.table fd = a) ∧
      ∀ a, a ∈ cached ↔ a ∈ st.allocated ∧ ∀ fd < nfds, st.table fd ≠ a
  counts : ∀ fd < nfds, st.table fd ≠ 0 →
    (st.objects (st.table fd)).refCount = (descriptors st.table (st.table fd)).card

/-- A call that the program can make, with an answer of `malloc` that is not in use. -/
def Op.Valid (st : Fds) : Op → Prop
  | .set fd _ _ _ p => fd < nfds ∧ p ≠ 0 ∧ p ∉ st.allocated
  | .dup fd newfd => st.ready = true ∧ fd < nfds ∧ newfd < nfds ∧ st.table newfd = 0
  | .clear fd => st.ready = true ∧ fd < nfds

/-- The calls that take nothing out of the middle or the front of a list, do not compare
with a missing name, and do not change the flags or the file of an object that is there. -/
def Op.Harmless (st : Fds) : Op → Prop
  | .set fd file temporary _ _ =>
      let st := st.init
      if st.table fd = 0 then st.cachedFds = 0 ∨ (st.objects st.cachedFds).next = 0
      else if temporary then
        (truename file).map fold = (st.objects (st.table fd)).filename.map fold
      else (st.objects (st.table fd)).temporary = false
  | .dup _ _ => True
  | .clear fd =>
      let a := st.table fd
      a ≠ 0 → (st.objects a).refCount = 1 →
        (st.objects a).next = 0 ∧
          ((st.objects a).temporary = true →
            findEqFilename st.objects a (st.allocated.length + 1) st.activeFds ≠
              .error .nullName)

instance decidableValid (st : Fds) : ∀ op, Decidable (Op.Valid st op)
  | .set fd _ _ _ p => inferInstanceAs (Decidable (fd < nfds ∧ p ≠ 0 ∧ p ∉ st.allocated))
  | .dup fd newfd => inferInstanceAs
      (Decidable (st.ready = true ∧ fd < nfds ∧ newfd < nfds ∧ st.table newfd = 0))
  | .clear fd => inferInstanceAs (Decidable (st.ready = true ∧ fd < nfds))

instance decidableHarmless (st : Fds) : ∀ op, Decidable (Op.Harmless truename st op)
  | .set fd file temporary _ _ => inferInstanceAs
      (Decidable
        (if st.init.table fd = 0 then
          st.init.cachedFds = 0 ∨ (st.init.objects st.init.cachedFds).next = 0
        else if temporary then
          (truename file).map fold = (st.init.objects (st.init.table fd)).filename.map fold
        else (st.init.objects (st.init.table fd)).temporary = false))
  | .dup _ _ => .isTrue trivial
  | .clear fd => inferInstanceAs
      (Decidable
        (st.table fd ≠ 0 → (st.objects (st.table fd)).refCount = 1 →
          (st.objects (st.table fd)).next = 0 ∧
            ((st.objects (st.table fd)).temporary = true →
              findEqFilename st.objects (st.table fd) (st.allocated.length + 1) st.activeFds ≠
                .error .nullName)))

structure Both where
  fds : Fds
  spec : Spec

def Both.step (s : Both) (op : Op) : Except Stop Both :=
  match s.fds.step truename op with
  | .ok fds => .ok ⟨fds, s.spec.step truename op⟩
  | .error e => .error e

def fileOf (m : Objects) (a : ℕ) : Option (Option (List Char)) :=
  if a = 0 then none else some ((m a).filename.map fold)

/-- How the two belong together, with the objects of the lists. -/
structure Inv (l c : List ℕ) (st : Fds) (sp : Spec) : Prop where
  active : IsList st.objects st.activeFds l
  cached : IsList st.objects st.cachedFds c
  attached : ∀ a, a ∈ l ↔ a ≠ 0 ∧ ∃ fd < nfds, st.table fd = a
  retired : ∀ a, a ∈ c ↔ a ∈ st.allocated ∧ a ∉ l
  allocated : ∀ a ∈ l, a ∈ st.allocated
  counts : ∀ a ∈ l, (st.objects a).refCount = (descriptors st.table a).card
  file : ∀ fd < nfds, sp.file fd = fileOf st.objects (st.table fd)
  named : ∀ a ∈ l, (st.objects a).temporary = true → (st.objects a).filename.isSome = true
  temporary : ∀ name, name ∈ sp.temporary ↔
    ∃ a ∈ l, (st.objects a).temporary = true ∧ (st.objects a).filename.map fold = some name
  removed : st.removed.map fold = sp.removed
  unready : st.ready = false → l = [] ∧ c = [] ∧ ∀ fd, st.table fd = 0

variable {truename} {l c : List ℕ} {st : Fds} {sp : Spec}

theorem fileOf_zero (m : Objects) : fileOf m 0 = none := rfl

theorem fileOf_ne {m : Objects} {a : ℕ} (h : a ≠ 0) :
    fileOf m a = some ((m a).filename.map fold) :=
  if_neg h

/-- Objects with the same names. -/
theorem fileOf_congr {m m' : Objects} {a : ℕ}
    (h : a ≠ 0 → (m' a).filename = (m a).filename) : fileOf m' a = fileOf m a := by
  by_cases h0 : a = 0
  · rw [h0, fileOf_zero, fileOf_zero]
  · rw [fileOf_ne h0, fileOf_ne h0, h h0]

theorem Inv.wellFormed (h : Inv l c st sp) : WellFormed st where
  lists := by
    refine ⟨l, c, h.active, h.cached, h.attached, fun a => ?_⟩
    rw [h.retired a, h.attached a]
    constructor
    · rintro ⟨ha, hn⟩
      refine ⟨ha, fun fd hfd he => hn ⟨?_, fd, hfd, he⟩⟩
      rintro rfl
      exact h.cached.linked.fresh ((h.retired 0).mpr ⟨ha, h.active.linked.fresh⟩)
    · rintro ⟨ha, hn⟩
      refine ⟨ha, ?_⟩
      rintro ⟨-, fd, hfd, he⟩
      exact hn fd hfd he
  counts := by
    intro fd hfd h0
    exact h.counts _ ((h.attached _).mpr ⟨h0, fd, hfd, rfl⟩)

theorem inv_start (m : Objects) : Inv [] [] (.start m) .start where
  active := isList_nil m
  cached := isList_nil m
  attached := by
    intro a
    refine iff_of_false (by simp) ?_
    rintro ⟨h0, fd, -, he⟩
    exact h0 he.symm
  retired := by
    intro a
    simp [Fds.start]
  allocated := by simp
  counts := by simp
  file := fun _ _ => rfl
  named := by simp
  temporary := by simp [Spec.start]
  removed := rfl
  unready := fun _ => ⟨rfl, rfl, fun _ => rfl⟩

theorem mem_descriptors {table : ℕ → ℕ} {a fd : ℕ} :
    fd ∈ descriptors table a ↔ fd < nfds ∧ table fd = a := by
  rw [descriptors, Finset.mem_filter, Finset.mem_range]

theorem descriptors_update_same {table : ℕ → ℕ} {a fd : ℕ} (hfd : fd < nfds) :
    descriptors (Function.update table fd a) a = insert fd (descriptors table a) := by
  ext x
  rw [mem_descriptors, Finset.mem_insert, mem_descriptors]
  by_cases hx : x = fd
  · subst hx
    simp [hfd]
  · rw [Function.update_of_ne hx]
    simp [hx]

theorem descriptors_update_other {table : ℕ → ℕ} {a b fd : ℕ} (hab : a ≠ b) :
    descriptors (Function.update table fd b) a = (descriptors table a).erase fd := by
  ext x
  rw [mem_descriptors, Finset.mem_erase, mem_descriptors]
  by_cases hx : x = fd
  · subst hx
    simp [Ne.symm hab]
  · rw [Function.update_of_ne hx]
    simp [hx]

theorem descriptors_card_le (table : ℕ → ℕ) (a : ℕ) : (descriptors table a).card ≤ nfds := by
  have h := Finset.card_filter_le (Finset.range nfds) (fun fd => table fd = a)
  rwa [Finset.card_range] at h

/-- The count of one object may have changed, and nothing else. -/
structure Recounted (a : ℕ) (m m' : Objects) : Prop where
  next : ∀ x, (m' x).next = (m x).next
  prev : ∀ x, (m' x).prev = (m x).prev
  filename : ∀ x, (m' x).filename = (m x).filename
  temporary : ∀ x, (m' x).temporary = (m x).temporary
  other : ∀ x, x ≠ a → m' x = m x

theorem recounted_modify (m : Objects) (a : ℕ) (g : ℕ → ℕ) :
    Recounted a m (modify m a fun o => { o with refCount := g o.refCount }) := by
  constructor
  all_goals intro x
  all_goals by_cases hx : x = a
  all_goals simp_all

theorem Inv.init (h : Inv l c st sp) : Inv l c st.init sp := by
  unfold Fds.init
  cases hr : st.ready with
  | true =>
      rw [if_pos rfl]
      exact h
  | false =>
      rw [if_neg (by simp)]
      obtain ⟨rfl, rfl, htable⟩ := h.unready hr
      have hfun : st.table = fun _ => 0 := funext htable
      exact
        { active := isList_nil _
          cached := isList_nil _
          attached := hfun ▸ h.attached
          retired := h.retired
          allocated := h.allocated
          counts := by simp
          file := hfun ▸ h.file
          named := by simp
          temporary := h.temporary
          removed := h.removed
          unready := fun _ => ⟨rfl, rfl, fun _ => rfl⟩ }

theorem Inv.mem_of_table (h : Inv l c st sp) {fd : ℕ} (hfd : fd < nfds) (h0 : st.table fd ≠ 0) :
    st.table fd ∈ l :=
  (h.attached _).mpr ⟨h0, fd, hfd, rfl⟩

theorem openFd_links (a : ℕ) (temporary append : Bool) (m : Objects) (x : ℕ) :
    (openFd a temporary append m x).next = (m x).next ∧
      (openFd a temporary append m x).prev = (m x).prev := by
  by_cases hx : x = a
  · rw [hx, openFd, modify_same]
    exact ⟨rfl, rfl⟩
  · rw [openFd, modify_other hx]
    exact ⟨rfl, rfl⟩

/-- The flags of an object that is there already. -/
theorem Inv.setAgain (h : Inv l c st sp) {fd : ℕ} (hfd : fd < nfds) (h0 : st.table fd ≠ 0)
    {file : Option (List Char)} {temporary append : Bool} {p : ℕ}
    (hflags : if temporary then
        (truename file).map fold = (st.objects (st.table fd)).filename.map fold
      else (st.objects (st.table fd)).temporary = false) :
    Inv l c { st with objects := openFd (st.table fd) temporary append st.objects }
      (sp.step truename (.set fd file temporary append p)) := by
  have ha := h.mem_of_table hfd h0
  obtain ⟨a, hadef⟩ : ∃ q, q = st.table fd := ⟨_, rfl⟩
  rw [← hadef] at ha h0 hflags ⊢
  have hother : ∀ x, x ≠ a → openFd a temporary append st.objects x = st.objects x :=
    fun x hx => modify_other hx _
  have hlinks : ∀ x, (openFd a temporary append st.objects x).next = (st.objects x).next ∧
      (openFd a temporary append st.objects x).prev = (st.objects x).prev ∧
      (openFd a temporary append st.objects x).refCount = (st.objects x).refCount ∧
      (openFd a temporary append st.objects x).filename = (st.objects x).filename := by
    intro x
    by_cases hx : x = a
    · rw [hx, openFd, modify_same]
      exact ⟨rfl, rfl, rfl, rfl⟩
    · rw [hother x hx]
      exact ⟨rfl, rfl, rfl, rfl⟩
  have htemp : (openFd a temporary append st.objects a).temporary =
      (temporary && (st.objects a).filename.isSome) := by
    rw [openFd, modify_same]
  have hsome : (sp.file fd).isSome = true := by
    rw [h.file fd hfd, ← hadef, fileOf_ne h0]
    rfl
  exact
    { active := h.active.congr fun x _ => ⟨(hlinks x).1, (hlinks x).2.1⟩
      cached := h.cached.congr fun x _ => ⟨(hlinks x).1, (hlinks x).2.1⟩
      attached := h.attached
      retired := h.retired
      allocated := h.allocated
      counts := fun x hx => (hlinks x).2.2.1.trans (h.counts x hx)
      file := by
        intro fd' hfd'
        rw [Spec.step]
        dsimp only
        rw [if_pos hsome, h.file fd' hfd']
        exact (fileOf_congr fun _ => (hlinks _).2.2.2).symm
      named := by
        intro x hx ht
        dsimp only at ht ⊢
        rw [(hlinks x).2.2.2]
        by_cases hxa : x = a
        · rw [hxa] at ht ⊢
          rw [htemp, Bool.and_eq_true] at ht
          exact ht.2
        · rw [hother x hxa] at ht
          exact h.named x hx ht
      temporary := by
        intro name
        rw [Spec.step]
        dsimp only
        cases temporary with
        | false =>
            rw [if_neg (by simp), h.temporary]
            refine exists_congr fun x => and_congr_right fun _ => ?_
            rw [(hlinks x).2.2.2]
            by_cases hxa : x = a
            · rw [hxa, htemp, show (st.objects a).temporary = false from hflags, Bool.false_and]
            · rw [hother x hxa]
        | true =>
            rw [if_pos rfl] at hflags ⊢
            rw [List.mem_append, Option.mem_toList, hflags, h.temporary]
            constructor
            · rintro (hn | ⟨x, hx, ht, hn⟩)
              · refine ⟨a, ha, ?_, by rw [(hlinks a).2.2.2]; exact hn⟩
                rw [htemp, Bool.true_and, ← Option.isSome_map (f := fold), hn]
                rfl
              · by_cases hxa : x = a
                · refine ⟨a, ha, ?_, by rw [(hlinks a).2.2.2, ← hxa]; exact hn⟩
                  rw [htemp, Bool.true_and, ← hxa]
                  exact h.named x hx ht
                · exact ⟨x, hx, by rw [hother x hxa]; exact ht, by rw [hother x hxa]; exact hn⟩
            · rintro ⟨x, hx, ht, hn⟩
              rw [(hlinks x).2.2.2] at hn
              by_cases hxa : x = a
              · exact .inl (by rw [← hxa]; exact hn)
              · rw [hother x hxa] at ht
                exact .inr ⟨x, hx, ht, hn⟩
      removed := h.removed
      unready := fun hr => absurd ((h.unready hr).2.2 fd) (by rw [← hadef]; exact h0) }

/-- A new object: one from `malloc`, or the only one in the cache. -/
theorem Inv.alloc (h : Inv l c st sp) {p : ℕ} (hp : p ≠ 0 ∧ p ∉ st.allocated)
    (hc : st.cachedFds = 0 ∨ (st.objects st.cachedFds).next = 0) :
    ∃ a al m, allocFdProperties p st =
        (a, { st with cachedFds := 0, allocated := al, objects := m }) ∧
      a ≠ 0 ∧ a ∉ l ∧ (∀ x, x ∈ al ↔ x = a ∨ x ∈ l) ∧ ∀ x, x ≠ a → m x = st.objects x := by
  have hhead := h.cached.head
  have hfresh := h.cached.linked.fresh
  unfold allocFdProperties
  cases c with
  | nil =>
      rw [List.headD_nil] at hhead
      rw [if_pos hhead]
      have hpl : p ∉ l := fun hm => hp.2 (h.allocated p hm)
      refine ⟨p, p :: st.allocated,
        modify st.objects p fun o => { o with prev := 0, next := 0, refCount := 1 }, ?_, hp.1, hpl,
        ?_, fun x hx => modify_other hx _⟩
      · dsimp only
        rw [hhead]
      · intro x
        rw [List.mem_cons]
        refine or_congr_right ⟨fun hx => ?_, h.allocated x⟩
        by_contra hxl
        exact absurd ((h.retired x).mpr ⟨hx, hxl⟩) (by simp)
  | cons a c =>
      rw [List.headD_cons] at hhead
      have ha0 : a ≠ 0 := fun he => hfresh (by simp [he])
      have hac := (h.retired a).mp (by simp)
      -- the head of the cache is its only object
      have hprev : (st.objects a).prev = 0 := h.cached.linked.seg.1
      have hnext0 : (st.objects a).next = 0 := by
        rw [← hhead]
        exact hc.resolve_left (by rw [hhead]; exact ha0)
      have hcnil : c = [] := by
        obtain ⟨c₁, hc₁⟩ := h.cached.linked.eq_append_of_next (List.mem_cons_self ..) hnext0
        cases c₁ with
        | nil => exact (List.cons.inj hc₁).2
        | cons y c₁ =>
            have hmem : a ∈ c := by
              rw [(List.cons.inj hc₁).2]
              exact List.mem_append_right c₁ (List.mem_singleton_self a)
            exact absurd hmem (List.nodup_cons.mp h.cached.linked.nodup).1
      subst hcnil
      rw [if_neg (by rw [hhead]; exact ha0), hhead, removeList_of_next hnext0]
      rw [if_pos rfl, if_neg (by simp [hprev])]
      refine ⟨a, st.allocated, _, rfl, ha0, hac.2, ?_, fun x hx => modify_other hx _⟩
      intro x
      constructor
      · intro hx
        by_cases hxl : x ∈ l
        · exact .inr hxl
        · exact .inl (by simpa using (h.retired x).mpr ⟨hx, hxl⟩)
      · rintro (rfl | hx)
        · exact hac.1
        · exact h.allocated x hx

theorem Inv.setNew (h : Inv l c st sp) {fd : ℕ} (hfd : fd < nfds) (h0 : st.table fd = 0)
    (hready : st.ready = true) {file : Option (List Char)} {temporary append : Bool} {p : ℕ}
    (hp : p ≠ 0 ∧ p ∉ st.allocated)
    (hc : st.cachedFds = 0 ∨ (st.objects st.cachedFds).next = 0) :
    ∃ l', Inv l' [] (setFdProperties truename fd file temporary append p st)
      (sp.step truename (.set fd file temporary append p)) := by
  obtain ⟨a, al, m, halloc, ha0, hal, hmem, hother⟩ := h.alloc hp hc
  have hinit : st.init = st := by
    rw [Fds.init, if_pos hready]
  obtain ⟨m₁, hm₁⟩ : ∃ q, q = modify m a fun o =>
      { o with refCount := 1, filename := truename file } := ⟨_, rfl⟩
  have hm₁other : ∀ x ∈ l, m₁ x = st.objects x := by
    intro x hx
    have hxa : x ≠ a := fun he => hal (he ▸ hx)
    rw [hm₁, modify_other hxa, hother x hxa]
  have hlist : IsList m₁ st.activeFds l :=
    h.active.congr fun x hx => by rw [hm₁other x hx]; exact ⟨rfl, rfl⟩
  have hins := insertList_isList hlist hal ha0
  have hdata := insertList_sameData (a := a) hlist
  obtain ⟨m₂, hm₂⟩ : ∃ q, q = (insertList st.activeFds a m₁).2 := ⟨_, rfl⟩
  rw [← hm₂] at hins hdata
  have hset : setFdProperties truename fd file temporary append p st =
      { st with
        cachedFds := 0, allocated := al, table := Function.update st.table fd a,
        activeFds := a, objects := openFd a temporary append m₂ } := by
    unfold setFdProperties
    rw [hinit]
    dsimp only
    rw [if_pos h0, halloc]
    dsimp only
    rw [← hm₁, ← hm₂, Function.update_self]
    rfl
  rw [hset]
  have hne : ∀ x ∈ l, x ≠ a := fun x hx he => hal (he ▸ hx)
  obtain ⟨m₃, hm₃⟩ : ∃ q, q = openFd a temporary append m₂ := ⟨_, rfl⟩
  rw [← hm₃]
  have hlinks : ∀ x, (m₃ x).next = (m₂ x).next ∧ (m₃ x).prev = (m₂ x).prev := by
    intro x
    rw [hm₃]
    exact openFd_links a temporary append m₂ x
  have hold : ∀ x ∈ l, (m₃ x).refCount = (st.objects x).refCount ∧
      (m₃ x).filename = (st.objects x).filename ∧
      (m₃ x).temporary = (st.objects x).temporary := by
    intro x hx
    rw [hm₃, openFd, modify_other (hne x hx), ← hm₁other x hx]
    exact ⟨hdata.refCount x, hdata.filename x, hdata.temporary x⟩
  have hnew : (m₃ a).refCount = 1 ∧ (m₃ a).filename = truename file ∧
      (m₃ a).temporary = (temporary && (truename file).isSome) := by
    rw [hm₃, openFd, modify_same]
    dsimp only
    rw [hdata.refCount a, hdata.filename a, hm₁, modify_same]
    exact ⟨rfl, rfl, rfl⟩
  have hnone : sp.file fd = none := by
    rw [h.file fd hfd, h0, fileOf_zero]
  have htable : ∀ fd' < nfds, fd' ≠ fd → st.table fd' ≠ a := by
    intro fd' hfd' _ he
    exact hal ((h.attached a).mpr ⟨ha0, fd', hfd', he⟩)
  refine ⟨a :: l, ?_⟩
  exact
    { active := (show IsList m₂ a (a :: l) from hins).congr fun x _ => hlinks x
      cached := isList_nil m₃
      attached := by
        intro x
        rw [List.mem_cons, h.attached x]
        constructor
        · rintro (rfl | ⟨hx0, fd', hfd', he⟩)
          · exact ⟨ha0, fd, hfd, Function.update_self ..⟩
          · have hne' : fd' ≠ fd := by
              rintro rfl
              exact hx0 (he.symm.trans h0)
            exact ⟨hx0, fd', hfd', by dsimp only; rw [Function.update_of_ne hne', he]⟩
        · rintro ⟨hx0, fd', hfd', he⟩
          dsimp only at he
          by_cases hf : fd' = fd
          · rw [hf, Function.update_self] at he
            exact .inl he.symm
          · rw [Function.update_of_ne hf] at he
            exact .inr ⟨hx0, fd', hfd', he⟩
      retired := by
        intro x
        refine iff_of_false (by simp) ?_
        rintro ⟨hx, hn⟩
        rw [List.mem_cons] at hn
        exact hn ((hmem x).mp hx)
      allocated := by
        intro x hx
        exact (hmem x).mpr (List.mem_cons.mp hx)
      counts := by
        intro x hx
        dsimp only
        rcases List.mem_cons.mp hx with rfl | hx
        · have hempty : descriptors st.table x = ∅ := by
            apply Finset.eq_empty_of_forall_notMem
            intro fd' hf
            obtain ⟨hfd', he⟩ := mem_descriptors.mp hf
            exact hal ((h.attached x).mpr ⟨ha0, fd', hfd', he⟩)
          rw [hnew.1, descriptors_update_same hfd, hempty]
          rfl
        · have hnot : fd ∉ descriptors st.table x := by
            intro hf
            have he := (mem_descriptors.mp hf).2
            rw [h0] at he
            exact ((h.attached x).mp hx).1 he.symm
          rw [(hold x hx).1, h.counts x hx, descriptors_update_other (hne x hx),
            Finset.erase_eq_of_notMem hnot]
      file := by
        intro fd' hfd'
        rw [Spec.step]
        dsimp only
        rw [if_neg (by simp [hnone])]
        by_cases hf : fd' = fd
        · rw [hf, Function.update_self, Function.update_self, fileOf_ne ha0, hnew.2.1]
        · rw [Function.update_of_ne hf, Function.update_of_ne hf, h.file fd' hfd']
          exact (fileOf_congr fun ht => (hold _ (h.mem_of_table hfd' ht)).2.1).symm
      named := by
        intro x hx ht
        dsimp only at ht ⊢
        rcases List.mem_cons.mp hx with rfl | hx
        · rw [hnew.2.2, Bool.and_eq_true] at ht
          rw [hnew.2.1]
          exact ht.2
        · rw [(hold x hx).2.2] at ht
          rw [(hold x hx).2.1]
          exact h.named x hx ht
      temporary := by
        intro name
        have hrest : (∃ x ∈ l, (m₃ x).temporary = true ∧ (m₃ x).filename.map fold = some name) ↔
            name ∈ sp.temporary := by
          rw [h.temporary]
          refine exists_congr fun x => and_congr_right fun hx => ?_
          rw [(hold x hx).2.2, (hold x hx).2.1]
        rw [Spec.step]
        dsimp only
        rw [List.exists_mem_cons_iff, hrest, hnew.2.2, hnew.2.1]
        cases temporary with
        | false => simp
        | true =>
            rw [if_pos rfl, List.mem_append, Option.mem_toList, Bool.true_and]
            refine or_congr_left ⟨fun hn => ⟨?_, hn⟩, fun hn => hn.2⟩
            rw [← Option.isSome_map (f := fold), hn]
            rfl
      removed := h.removed
      unready := fun hr => absurd hr (by simp [hready]) }

theorem Inv.recount (h : Inv l c st sp) {a e fd : ℕ} {m : Objects}
    (hkeep : Recounted a st.objects m) (hused : ∃ fd', st.table fd' ≠ 0)
    (hattached : ∀ x, x ≠ 0 → ((∃ fd' < nfds, st.table fd' = x) ↔
      ∃ fd' < nfds, Function.update st.table fd e fd' = x))
    (hcounts : ∀ x ∈ l,
      (m x).refCount = (descriptors (Function.update st.table fd e) x).card) :
    Inv l c { st with objects := m, table := Function.update st.table fd e }
      { sp with file := Function.update sp.file fd (fileOf st.objects e) } where
  active := h.active.congr fun x _ => ⟨hkeep.next x, hkeep.prev x⟩
  cached := h.cached.congr fun x _ => ⟨hkeep.next x, hkeep.prev x⟩
  attached := fun x => (h.attached x).trans (and_congr_right (hattached x))
  retired := h.retired
  allocated := h.allocated
  counts := hcounts
  file := by
    intro fd' hfd'
    dsimp only
    by_cases hf : fd' = fd
    · rw [hf, Function.update_self, Function.update_self]
      exact (fileOf_congr fun _ => hkeep.filename _).symm
    · rw [Function.update_of_ne hf, Function.update_of_ne hf, h.file fd' hfd']
      exact (fileOf_congr fun _ => hkeep.filename _).symm
  named := by
    intro x hx ht
    dsimp only at ht ⊢
    rw [hkeep.temporary x] at ht
    rw [hkeep.filename x]
    exact h.named x hx ht
  temporary := by
    intro name
    rw [h.temporary]
    refine exists_congr fun x => and_congr_right fun _ => ?_
    dsimp only
    rw [hkeep.temporary x, hkeep.filename x]
  removed := h.removed
  unready := fun hr => by
    obtain ⟨fd', hne⟩ := hused
    exact absurd ((h.unready hr).2.2 fd') hne

theorem Inv.dup (h : Inv l c st sp) {fd newfd : ℕ} (hfd : fd < nfds) (hnew : newfd < nfds)
    (hfree : st.table newfd = 0) :
    Inv l c (dupFdProperties fd newfd st) (sp.step truename (.dup fd newfd)) := by
  unfold dupFdProperties
  rw [Spec.step]
  by_cases h0 : st.table fd = 0
  · rw [if_neg (by simp [h0]), if_neg (by rw [h.file fd hfd, h0, fileOf_zero]; simp)]
    exact h
  · have hsome : (sp.file fd).isSome = true := by
      rw [h.file fd hfd, fileOf_ne h0]
      rfl
    rw [if_pos h0, if_pos hsome, h.file fd hfd]
    obtain ⟨a, hadef⟩ : ∃ q, q = st.table fd := ⟨_, rfl⟩
    rw [← hadef]
    have hnot : ∀ x ∈ l, newfd ∉ descriptors st.table x := by
      intro x hx hf
      have he := (mem_descriptors.mp hf).2
      rw [hfree] at he
      exact ((h.attached x).mp hx).1 he.symm
    refine h.recount (recounted_modify st.objects a fun n => (n + 1) % 256) ⟨fd, h0⟩ ?_ ?_
    · intro x hx0
      constructor
      · rintro ⟨fd', hfd', he⟩
        have hne : fd' ≠ newfd := by
          rintro rfl
          exact hx0 (he.symm.trans hfree)
        exact ⟨fd', hfd', by rw [Function.update_of_ne hne, he]⟩
      · rintro ⟨fd', hfd', he⟩
        by_cases hf : fd' = newfd
        · rw [hf, Function.update_self] at he
          exact ⟨fd, hfd, by rw [← hadef, he]⟩
        · rw [Function.update_of_ne hf] at he
          exact ⟨fd', hfd', he⟩
    · intro x hx
      by_cases hxa : x = a
      · subst hxa
        have hcard := descriptors_card_le (Function.update st.table newfd x) x
        rw [descriptors_update_same hnew, Finset.card_insert_of_notMem (hnot x hx)] at hcard ⊢
        rw [modify_same]
        dsimp only
        rw [h.counts x hx, Nat.mod_eq_of_lt]
        unfold nfds at hcard
        omega
      · rw [modify_other hxa, h.counts x hx, descriptors_update_other hxa,
          Finset.erase_eq_of_notMem (hnot x hx)]

end DjgppLibc.FdProps
