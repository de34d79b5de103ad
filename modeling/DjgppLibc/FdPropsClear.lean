import DjgppLibc.FdPropsRuns

/-!
# Clearing a descriptor

The last descriptor of an object retires it. If the object carries the
temporary flag, the flag moves to another object with the same name, or the
file is removed.
-/
namespace DjgppLibc.FdProps
open LinkedLists

variable {truename : Option (List Char) → Option (List Char)} {l c : List ℕ} {st : Fds}
  {sp : Spec} {m m' : Objects} {a : ℕ}

theorem findEqFilename_congr (h : ∀ x, (m' x).next = (m x).next ∧ (m' x).filename = (m x).filename)
    (a n ptr : ℕ) : findEqFilename m' a n ptr = findEqFilename m a n ptr := by
  induction n generalizing ptr with
  | zero => rfl
  | succ n ih =>
      rw [findEqFilename, findEqFilename, (h a).2, (h ptr).2, (h ptr).1, ih]

theorem sameName_iff (x y : List Char) : sameName x y = true ↔ fold x = fold y := by
  simp [sameName, fold]

theorem findEqFilename_spec {name : List Char} (hname : (m a).filename = some name) {p n : ℕ}
    (hseg : Seg (fun x => (m x).next) (fun x => (m x).prev) p l 0) (h0 : 0 ∉ l)
    (hn : l.length < n) :
    findEqFilename m a n (l.headD 0) = .error .nullName ∨
      (findEqFilename m a n (l.headD 0) = .ok 0 ∧
        ∀ x ∈ l, x ≠ a → (m x).filename.map fold ≠ some (fold name)) ∨
      ∃ x ∈ l, x ≠ a ∧ findEqFilename m a n (l.headD 0) = .ok x ∧
        (m x).filename.map fold = some (fold name) := by
  induction l generalizing p n with
  | nil =>
      obtain ⟨n, rfl⟩ := Nat.exists_eq_add_one.mpr (Nat.zero_lt_of_lt hn)
      refine .inr (.inl ⟨?_, by simp⟩)
      rw [List.headD_nil, findEqFilename, if_pos rfl]
  | cons y l ih =>
      obtain ⟨n, rfl⟩ := Nat.exists_eq_add_one.mpr (Nat.zero_lt_of_lt hn)
      obtain ⟨-, hnext, hseg⟩ := hseg
      have hy0 : y ≠ 0 := fun he => h0 (by simp [he])
      have hrest := ih hseg (fun hm => h0 (by simp [hm])) (Nat.lt_of_succ_lt_succ hn)
      rw [← show (m y).next = l.headD 0 from hnext] at hrest
      rw [List.headD_cons, findEqFilename, if_neg hy0]
      -- an object that is passed over leaves the answer to the rest of the list
      have hpass : (y ≠ a → (m y).filename.map fold ≠ some (fold name)) →
          findEqFilename m a n (m y).next = .error .nullName ∨
            (findEqFilename m a n (m y).next = .ok 0 ∧
              ∀ x ∈ y :: l, x ≠ a → (m x).filename.map fold ≠ some (fold name)) ∨
            ∃ x ∈ y :: l, x ≠ a ∧ findEqFilename m a n (m y).next = .ok x ∧
              (m x).filename.map fold = some (fold name) := by
        intro hy
        rcases hrest with he | ⟨he, hnone⟩ | ⟨x, hx, hxa, he, hxn⟩
        · exact .inl he
        · refine .inr (.inl ⟨he, fun x hx => ?_⟩)
          rcases List.mem_cons.mp hx with rfl | hx
          · exact hy
          · exact hnone x hx
        · exact .inr (.inr ⟨x, List.mem_cons_of_mem y hx, hxa, he, hxn⟩)
      by_cases hya : y = a
      · rw [if_pos hya]
        exact hpass fun hne => absurd hya hne
      · rw [if_neg hya, hname]
        cases hyn : (m y).filename with
        | none => exact .inl rfl
        | some other =>
            dsimp only
            by_cases hsame : sameName name other = true
            · rw [if_pos hsame]
              refine .inr (.inr ⟨y, by simp, hya, rfl, ?_⟩)
              rw [hyn, Option.map_some, (sameName_iff _ _).mp hsame]
            · rw [if_neg hsame]
              refine hpass fun _ he => hsame ?_
              rw [hyn, Option.map_some, Option.some.injEq] at he
              exact (sameName_iff _ _).mpr he.symm

theorem freeFdProperties_spec (hact : IsList st.objects st.activeFds (l ++ [a]))
    (hcach : IsList st.objects st.cachedFds c) (hdis : ∀ x ∈ c, x ∉ l ++ [a]) :
    ∃ m head, freeFdProperties a st =
        { st with activeFds := head, cachedFds := a, objects := m } ∧
      IsList m head l ∧ IsList m a (a :: c) ∧ ∀ x, (m x).data = (st.objects x).data := by
  have ha0 : a ≠ 0 := fun he => hact.linked.fresh (by simp [he])
  have hal : a ∉ l := by
    have hd := hact.linked.nodup
    rw [List.nodup_append] at hd
    exact fun hm => hd.2.2 a hm a (by simp) rfl
  have hac : a ∉ c := fun hm => hdis a hm (by simp)
  have hrem := removeList_isList hact
  have hremD := removeList_sameData hact
  have hcach' : IsList (removeList st.activeFds a st.objects).2 st.cachedFds c :=
    hcach.congr fun x hx => by rw [hremD.other x (hdis x hx)]; exact ⟨rfl, rfl⟩
  have hins := insertList_isList hcach' hac ha0
  have hinsD := insertList_sameData (a := a) hcach'
  refine ⟨_, _, rfl, ?_, hins, fun x => (hinsD.data x).trans (hremD.data x)⟩
  apply hrem.congr
  intro x hx
  have hx' : x ∉ a :: c := by
    rw [List.mem_cons, not_or]
    refine ⟨fun he => hal (he ▸ hx), fun hm => hdis x hm (by simp [hx])⟩
  rw [hinsD.other x hx']
  exact ⟨rfl, rfl⟩

theorem Spec.clear_keep {fd : ℕ}
    (h : ∀ name, sp.file fd = some (some name) → name ∈ sp.temporary →
      ∃ fd' < nfds, Function.update sp.file fd none fd' = some (some name)) :
    sp.clear fd = { sp with file := Function.update sp.file fd none } := by
  unfold Spec.clear
  dsimp only
  cases hf : sp.file fd with
  | none => rfl
  | some o =>
      cases o with
      | none => rfl
      | some name =>
          dsimp only
          rw [if_neg]
          rintro ⟨hmem, hall⟩
          obtain ⟨fd', hfd', he⟩ := h name hf hmem
          exact hall fd' hfd' he

theorem Spec.clear_remove {fd : ℕ} {name : List Char} (hf : sp.file fd = some (some name))
    (hmem : name ∈ sp.temporary)
    (hall : ∀ fd' < nfds, Function.update sp.file fd none fd' ≠ some (some name)) :
    sp.clear fd =
      ⟨Function.update sp.file fd none, sp.temporary.filter (· ≠ name), sp.removed ++ [name]⟩ := by
  unfold Spec.clear
  dsimp only
  rw [hf]
  dsimp only
  rw [if_pos ⟨hmem, hall⟩]

def Marks (m : Objects) (name : List Char) (x : ℕ) : Prop :=
  (m x).temporary = true ∧ (m x).filename.map fold = some name

/-- The flag stays on some object with the name, or the name goes with the object. -/
inductive Closed (l : List ℕ) (a : ℕ) (st : Fds) : Except Stop Fds → Prop
  | keep (m : Objects)
      (hsame : ∀ x, (m x).next = (st.objects x).next ∧ (m x).prev = (st.objects x).prev ∧
        (m x).refCount = (st.objects x).refCount ∧ (m x).filename = (st.objects x).filename)
      (hold : ∀ x name, Marks st.objects name x → Marks m name x)
      (hmoved : ∀ name, Marks st.objects name a → ∃ x ∈ l, x ≠ a ∧ Marks m name x)
      (hnew : ∀ x, (m x).temporary = true → (st.objects x).temporary = true ∨
        ∃ name, Marks st.objects name a ∧ (st.objects x).filename.map fold = some name) :
      Closed l a st (.ok { st with objects := m })
  | remove (name : List Char) (htemp : (st.objects a).temporary = true)
      (hname : (st.objects a).filename = some name)
      (hlast : ∀ x ∈ l, x ≠ a → (st.objects x).filename.map fold ≠ some (fold name)) :
      Closed l a st (.ok { st with removed := st.removed ++ [name] })

theorem closeFd_closed (hact : IsList st.objects st.activeFds l)
    (hlen : l.length ≤ st.allocated.length)
    (hnamed : (st.objects a).temporary = true → (st.objects a).filename.isSome = true)
    (hnull : (st.objects a).temporary = true →
      findEqFilename st.objects a (st.allocated.length + 1) st.activeFds ≠ .error .nullName) :
    Closed l a st (closeFd a st) := by
  unfold closeFd
  cases ht : (st.objects a).temporary with
  | false =>
      rw [if_neg (by simp)]
      refine .keep st.objects (fun _ => ⟨rfl, rfl, rfl, rfl⟩)
        (fun _ _ h => h) ?_ (fun _ h => .inl h)
      intro name hm
      rw [Marks, ht] at hm
      exact absurd hm.1 (by simp)
  | true =>
      rw [if_pos rfl]
      obtain ⟨name, hname⟩ := Option.isSome_iff_exists.mp (hnamed ht)
      have hfind := findEqFilename_spec hname hact.linked.seg hact.linked.fresh
        (Nat.lt_succ_of_le hlen)
      rw [← hact.head] at hfind
      rcases hfind with he | ⟨he, hnone⟩ | ⟨x, hx, hxa, he, hxn⟩
      · exact absurd he (hnull ht)
      · rw [he]
        dsimp only
        rw [if_neg (by simp), hname]
        exact .remove name ht hname hnone
      · have hx0 : x ≠ 0 := fun h0 => hact.linked.fresh (h0 ▸ hx)
        rw [he]
        dsimp only
        rw [if_pos hx0]
        have hmark : Marks st.objects (fold name) a := ⟨ht, by rw [hname]; rfl⟩
        apply Closed.keep
        · intro y
          by_cases hy : y = x
          · rw [hy, modify_same]
            exact ⟨rfl, rfl, rfl, rfl⟩
          · rw [modify_other hy]
            exact ⟨rfl, rfl, rfl, rfl⟩
        · intro y name' hm
          by_cases hy : y = x
          · rw [hy] at hm ⊢
            rw [Marks, modify_same]
            exact ⟨rfl, hm.2⟩
          · rw [Marks, modify_other hy]
            exact hm
        · intro name' hm
          have hsame : fold name = name' := Option.some.inj (hmark.2.symm.trans hm.2)
          refine ⟨x, hx, hxa, ?_⟩
          rw [Marks, modify_same]
          exact ⟨rfl, hsame ▸ hxn⟩
        · intro y hy
          by_cases hyx : y = x
          · exact .inr ⟨fold name, hmark, by rw [hyx]; exact hxn⟩
          · rw [modify_other hyx] at hy
            exact .inl hy

/-- The state after the last descriptor `fd` of `a` is gone. -/
def retireLast (a fd : ℕ) (m : Objects) (removed : List (List Char)) (st : Fds) : Fds :=
  let st := freeFdProperties a
    { st with objects := modify m a fun o => { o with filename := none }, removed := removed }
  { st with table := Function.update st.table fd 0 }

theorem Recounted.marks {m₁ : Objects} (h : Recounted a m m₁) (name : List Char) (x : ℕ) :
    Marks m₁ name x ↔ Marks m name x := by
  rw [Marks, Marks, h.temporary x, h.filename x]

theorem Inv.ne_last (h : Inv (l ++ [a]) c st sp) {x : ℕ} (hx : x ∈ l) : x ≠ a := by
  have hd := h.active.linked.nodup
  rw [List.nodup_append] at hd
  exact hd.2.2 x hx a (List.mem_singleton_self a)

theorem Inv.retire (h : Inv (l ++ [a]) c st sp) {fd : ℕ} (htable : st.table fd = a)
    (honly : descriptors st.table a = {fd})
    (hsame : ∀ x, (m x).next = (st.objects x).next ∧ (m x).prev = (st.objects x).prev ∧
      (m x).filename = (st.objects x).filename)
    (hcount : ∀ x, x ≠ a → (m x).refCount = (st.objects x).refCount)
    (hnamed : ∀ x ∈ l, (m x).temporary = true → (m x).filename.isSome = true)
    {removed names gone : List (List Char)} (hnames : ∀ name, name ∈ names ↔ ∃ x ∈ l,
      Marks m name x)
    (hgone : removed.map fold = gone) :
    Inv l (a :: c) (retireLast a fd m removed st)
      ⟨Function.update sp.file fd none, names, gone⟩ := by
  have ha0 : a ≠ 0 := fun he => h.active.linked.fresh (by simp [he])
  have hal : ∀ x ∈ l, x ≠ a := fun x hx => h.ne_last hx
  have hlinks : ∀ x, (modify m a (fun o => { o with filename := none }) x).next =
        (st.objects x).next ∧
      (modify m a (fun o => { o with filename := none }) x).prev = (st.objects x).prev := by
    intro x
    by_cases hx : x = a
    · rw [hx, modify_same]
      exact ⟨(hsame a).1, (hsame a).2.1⟩
    · rw [modify_other hx]
      exact ⟨(hsame x).1, (hsame x).2.1⟩
  obtain ⟨s, hs⟩ : ∃ q : Fds, q = { st with
      objects := modify m a fun o => { o with filename := none }, removed := removed } := ⟨_, rfl⟩
  have hobj : s.objects = modify m a fun o => { o with filename := none } := by rw [hs]
  have hact' : IsList s.objects s.activeFds (l ++ [a]) := by
    rw [hs]
    exact h.active.congr fun x _ => hlinks x
  have hcach' : IsList s.objects s.cachedFds c := by
    rw [hs]
    exact h.cached.congr fun x _ => hlinks x
  obtain ⟨m', head, hfree, hact, hcach, hdata⟩ :=
    freeFdProperties_spec hact' hcach' fun x hx => ((h.retired x).mp hx).2
  have hdata' : ∀ x, x ≠ a → (m' x).data = (m x).data := by
    intro x hx
    rw [hdata x, hobj, modify_other hx]
  have hfile : ∀ x, x ≠ a → (m' x).filename = (m x).filename :=
    fun x hx => congrArg (fun d => d.2.1) (hdata' x hx)
  have htemp : ∀ x, x ≠ a → (m' x).temporary = (m x).temporary :=
    fun x hx => congrArg (fun d => d.2.2.1) (hdata' x hx)
  have hret : retireLast a fd m removed st =
      { st with
        activeFds := head, cachedFds := a, objects := m', removed := removed,
        table := Function.update st.table fd 0 } := by
    rw [retireLast, ← hs, hfree, hs]
  rw [hret]
  have hfd' : ∀ fd', fd' < nfds → st.table fd' = a → fd' = fd := by
    intro fd' hlt he
    have hm : fd' ∈ descriptors st.table a := mem_descriptors.mpr ⟨hlt, he⟩
    rwa [honly, Finset.mem_singleton] at hm
  exact
    { active := hact
      cached := hcach
      attached := by
        intro x
        constructor
        · intro hx
          obtain ⟨hx0, fd', hlt, he⟩ := (h.attached x).mp (by simp [hx])
          refine ⟨hx0, fd', hlt, ?_⟩
          have hne : fd' ≠ fd := by
            rintro rfl
            exact hal x hx (he.symm.trans htable)
          dsimp only
          rw [Function.update_of_ne hne, he]
        · rintro ⟨hx0, fd', hlt, he⟩
          dsimp only at he
          by_cases hf : fd' = fd
          · rw [hf, Function.update_self] at he
            exact absurd he.symm hx0
          · rw [Function.update_of_ne hf] at he
            have hm := (h.attached x).mpr ⟨hx0, fd', hlt, he⟩
            rcases List.mem_append.mp hm with hm | hm
            · exact hm
            · exact absurd (hfd' fd' hlt (he.trans (List.mem_singleton.mp hm))) hf
      retired := by
        intro x
        rw [List.mem_cons, h.retired x, List.mem_append, List.mem_singleton, not_or]
        constructor
        · rintro (rfl | ⟨hx, hn, -⟩)
          · exact ⟨h.allocated x (by simp), fun hm => hal x hm rfl⟩
          · exact ⟨hx, hn⟩
        · rintro ⟨hx, hn⟩
          by_cases hxa : x = a
          · exact .inl hxa
          · exact .inr ⟨hx, hn, hxa⟩
      allocated := fun x hx => h.allocated x (by simp [hx])
      counts := by
        intro x hx
        have hxa := hal x hx
        have hx0 : x ≠ 0 := ((h.attached x).mp (by simp [hx])).1
        have hnot : fd ∉ descriptors st.table x := by
          intro hm
          exact hxa ((mem_descriptors.mp hm).2.symm.trans htable)
        dsimp only
        rw [show (m' x).refCount = (m x).refCount from congrArg Prod.fst (hdata' x hxa),
          hcount x hxa, h.counts x (by simp [hx]), descriptors_update_other hx0,
          Finset.erase_eq_of_notMem hnot]
      file := by
        intro fd' hlt
        dsimp only
        by_cases hf : fd' = fd
        · rw [hf, Function.update_self, Function.update_self, fileOf_zero]
        · rw [Function.update_of_ne hf, Function.update_of_ne hf, h.file fd' hlt]
          have hne : st.table fd' ≠ a := fun he => hf (hfd' fd' hlt he)
          refine (fileOf_congr fun _ => ?_).symm
          rw [hfile _ hne, (hsame _).2.2]
      named := by
        intro x hx ht
        dsimp only at ht ⊢
        rw [htemp x (hal x hx)] at ht
        rw [hfile x (hal x hx)]
        exact hnamed x hx ht
      temporary := by
        intro name
        rw [hnames name]
        refine exists_congr fun x => and_congr_right fun hx => ?_
        rw [Marks]
        dsimp only
        rw [htemp x (hal x hx), hfile x (hal x hx)]
      removed := hgone
      unready := fun hr => absurd ((h.unready hr).2.2 fd) (by rw [htable]; exact ha0) }

/-- One of several descriptors of an object. -/
theorem Inv.clearOne (h : Inv l c st sp) {fd : ℕ} (hfd : fd < nfds) (h0 : st.table fd ≠ 0)
    (hmany : (st.objects (st.table fd)).refCount ≠ 1) :
    ∃ st', clearFdProperties fd st = .ok st' ∧ Inv l c st' (sp.clear fd) := by
  have ha := h.mem_of_table hfd h0
  obtain ⟨a, hadef⟩ : ∃ q, q = st.table fd := ⟨_, rfl⟩
  rw [← hadef] at ha h0 hmany
  have hmem : fd ∈ descriptors st.table a := mem_descriptors.mpr ⟨hfd, hadef.symm⟩
  have hcard : (st.objects a).refCount = (descriptors st.table a).card := h.counts a ha
  have hle : (descriptors st.table a).card ≤ 255 := descriptors_card_le st.table a
  have hpos : 0 < (descriptors st.table a).card := Finset.card_pos.mpr ⟨fd, hmem⟩
  have hdown : ((st.objects a).refCount + 255) % 256 =
      ((descriptors st.table a).erase fd).card := by
    rw [Finset.card_erase_of_mem hmem]
    omega
  -- another descriptor keeps the file in use
  have herase : 0 < ((descriptors st.table a).erase fd).card := by
    rw [Finset.card_erase_of_mem hmem]
    omega
  obtain ⟨fd₂, hfd₂⟩ := Finset.card_pos.mp herase
  rw [Finset.mem_erase, mem_descriptors] at hfd₂
  obtain ⟨hne₂, hlt₂, htable₂⟩ := hfd₂
  have hspec : sp.clear fd = { sp with file := Function.update sp.file fd none } := by
    apply Spec.clear_keep
    intro name hname _
    refine ⟨fd₂, hlt₂, ?_⟩
    rw [Function.update_of_ne hne₂, h.file fd₂ hlt₂, htable₂, hadef, ← h.file fd hfd]
    exact hname
  obtain ⟨m, hm⟩ : ∃ q, q = modify st.objects a fun o =>
    { o with refCount := (o.refCount + 255) % 256 } := ⟨_, rfl⟩
  have hcount : (m a).refCount = ((descriptors st.table a).erase fd).card := by
    rw [hm, modify_same]
    exact hdown
  refine ⟨{ st with objects := m, table := Function.update st.table fd 0 }, ?_, ?_⟩
  · unfold clearFdProperties
    dsimp only
    rw [← hadef, if_neg h0, ← hm, if_neg (by rw [hcount]; exact Nat.ne_of_gt herase)]
  have hkeep : Recounted a st.objects m := by
    rw [hm]
    exact recounted_modify st.objects a fun n => (n + 255) % 256
  rw [hspec, ← fileOf_zero st.objects]
  refine h.recount hkeep ⟨fd, by rw [← hadef]; exact h0⟩ ?_ ?_
  · intro x hx0
    constructor
    · rintro ⟨fd', hlt, he⟩
      by_cases hf : fd' = fd
      · refine ⟨fd₂, hlt₂, ?_⟩
        rw [Function.update_of_ne hne₂, htable₂, hadef, ← hf, he]
      · exact ⟨fd', hlt, by rw [Function.update_of_ne hf, he]⟩
    · rintro ⟨fd', hlt, he⟩
      by_cases hf : fd' = fd
      · rw [hf, Function.update_self] at he
        exact absurd he.symm hx0
      · rw [Function.update_of_ne hf] at he
        exact ⟨fd', hlt, he⟩
  · intro x hx
    have hx0 : x ≠ 0 := ((h.attached x).mp hx).1
    rw [descriptors_update_other hx0]
    by_cases hxa : x = a
    · rw [hxa]
      exact hcount
    · have hnot : fd ∉ descriptors st.table x := fun hf =>
        hxa ((mem_descriptors.mp hf).2.symm.trans hadef.symm)
      rw [hkeep.other x hxa, h.counts x hx, Finset.erase_eq_of_notMem hnot]

theorem Inv.file_others (h : Inv (l ++ [a]) c st sp) {fd x : ℕ} (htable : st.table fd = a)
    (hx : x ∈ l) {name : List Char} (hn : (st.objects x).filename.map fold = some name) :
    ∃ fd' < nfds, Function.update sp.file fd none fd' = some (some name) := by
  obtain ⟨hx0, fd', hlt, he⟩ := (h.attached x).mp (List.mem_append_left [a] hx)
  have hne : fd' ≠ fd := by
    rintro rfl
    exact h.ne_last hx (he.symm.trans htable)
  refine ⟨fd', hlt, ?_⟩
  rw [Function.update_of_ne hne, h.file fd' hlt, he, fileOf_ne hx0, hn]

theorem Inv.retireKeep (h : Inv (l ++ [a]) c st sp) {fd : ℕ} (htable : st.table fd = a)
    (honly : descriptors st.table a = {fd}) {m₁ : Objects} (hm₁ : Recounted a st.objects m₁)
    (hsame : ∀ x, (m x).next = (m₁ x).next ∧ (m x).prev = (m₁ x).prev ∧
      (m x).refCount = (m₁ x).refCount ∧ (m x).filename = (m₁ x).filename)
    (hold : ∀ x name, Marks m₁ name x → Marks m name x)
    (hmoved : ∀ name, Marks m₁ name a → ∃ x ∈ l ++ [a], x ≠ a ∧ Marks m name x)
    (hnew : ∀ x, (m x).temporary = true → (m₁ x).temporary = true ∨
      ∃ name, Marks m₁ name a ∧ (m₁ x).filename.map fold = some name) :
    Inv l (a :: c) (retireLast a fd m st.removed st) (sp.clear fd) := by
  have hfile : ∀ x, (m x).filename = (st.objects x).filename :=
    fun x => (hsame x).2.2.2.trans (hm₁.filename x)
  have hnames : ∀ name, name ∈ sp.temporary ↔ ∃ x ∈ l, Marks m name x := by
    intro name
    rw [h.temporary name]
    constructor
    · rintro ⟨x, hx, hm⟩
      have hm' := (hm₁.marks name x).mpr hm
      rcases List.mem_append.mp hx with hx | hx
      · exact ⟨x, hx, hold x name hm'⟩
      · rw [List.mem_singleton.mp hx] at hm'
        obtain ⟨y, hy, hya, hym⟩ := hmoved name hm'
        refine ⟨y, (List.mem_append.mp hy).resolve_right ?_, hym⟩
        exact fun hy => hya (List.mem_singleton.mp hy)
    · rintro ⟨x, hx, ht, hn⟩
      rw [hfile x] at hn
      rcases hnew x ht with ht | ⟨name', hm, hn'⟩
      · rw [hm₁.temporary x] at ht
        exact ⟨x, List.mem_append_left [a] hx, ht, hn⟩
      · rw [hm₁.filename x] at hn'
        obtain rfl : name = name' := Option.some.inj (hn.symm.trans hn')
        exact ⟨a, by simp, (hm₁.marks name a).mp hm⟩
  have hspec : sp.clear fd = { sp with file := Function.update sp.file fd none } := by
    apply Spec.clear_keep
    intro name _ hmem
    obtain ⟨x, hx, -, hn⟩ := (hnames name).mp hmem
    rw [hfile x] at hn
    exact h.file_others htable hx hn
  rw [hspec]
  refine h.retire htable honly ?_ ?_ ?_ hnames h.removed
  · intro x
    exact ⟨(hsame x).1.trans (hm₁.next x), (hsame x).2.1.trans (hm₁.prev x), hfile x⟩
  · intro x hx
    rw [(hsame x).2.2.1, hm₁.other x hx]
  · intro x hx ht
    rw [hfile x]
    rcases hnew x ht with ht | ⟨name', -, hn'⟩
    · rw [hm₁.temporary x] at ht
      exact h.named x (List.mem_append_left [a] hx) ht
    · rw [hm₁.filename x] at hn'
      rw [← Option.isSome_map (f := fold), hn']
      rfl

theorem Inv.retireRemove (h : Inv (l ++ [a]) c st sp) {fd : ℕ} (hfd : fd < nfds)
    (htable : st.table fd = a) (honly : descriptors st.table a = {fd}) {m₁ : Objects}
    (hm₁ : Recounted a st.objects m₁) {name : List Char} (htemp : (m₁ a).temporary = true)
    (hname : (m₁ a).filename = some name)
    (hlast : ∀ x ∈ l ++ [a], x ≠ a → (m₁ x).filename.map fold ≠ some (fold name)) :
    Inv l (a :: c) (retireLast a fd m₁ (st.removed ++ [name]) st) (sp.clear fd) := by
  have ha : a ∈ l ++ [a] := by simp
  have ha0 : a ≠ 0 := fun he => h.active.linked.fresh (he ▸ ha)
  rw [hm₁.temporary a] at htemp
  rw [hm₁.filename a] at hname
  have hfold : (st.objects a).filename.map fold = some (fold name) := by rw [hname, Option.map_some]
  have hlast' : ∀ x ∈ l, (st.objects x).filename.map fold ≠ some (fold name) := by
    intro x hx
    rw [← hm₁.filename x]
    exact hlast x (List.mem_append_left [a] hx) (h.ne_last hx)
  have hspec : sp.clear fd = ⟨Function.update sp.file fd none,
      sp.temporary.filter (· ≠ fold name), sp.removed ++ [fold name]⟩ := by
    apply Spec.clear_remove
    · rw [h.file fd hfd, htable, fileOf_ne ha0, hfold]
    · exact (h.temporary _).mpr ⟨a, ha, htemp, hfold⟩
    · intro fd' hlt
      by_cases hf : fd' = fd
      · rw [hf, Function.update_self]
        exact fun he => nomatch he
      · rw [Function.update_of_ne hf, h.file fd' hlt]
        by_cases h0 : st.table fd' = 0
        · rw [h0, fileOf_zero]
          exact fun he => nomatch he
        · rw [fileOf_ne h0]
          have hne : st.table fd' ≠ a := by
            intro he
            have hm : fd' ∈ descriptors st.table a := mem_descriptors.mpr ⟨hlt, he⟩
            rw [honly, Finset.mem_singleton] at hm
            exact hf hm
          have hm := (List.mem_append.mp (h.mem_of_table hlt h0)).resolve_right
            fun hm => hne (List.mem_singleton.mp hm)
          exact fun he => hlast' _ hm (Option.some.inj he)
  rw [hspec]
  refine h.retire htable honly ?_ ?_ ?_ ?_ ?_
  · intro x
    exact ⟨hm₁.next x, hm₁.prev x, hm₁.filename x⟩
  · intro x hx
    rw [hm₁.other x hx]
  · intro x hx
    rw [hm₁.temporary x, hm₁.filename x]
    exact h.named x (List.mem_append_left [a] hx)
  · intro name'
    rw [List.mem_filter, h.temporary, decide_eq_true_iff]
    constructor
    · rintro ⟨⟨x, hx, ht, hn⟩, hne⟩
      rcases List.mem_append.mp hx with hx | hx
      · exact ⟨x, hx, (hm₁.marks name' x).mpr ⟨ht, hn⟩⟩
      · rw [List.mem_singleton.mp hx, hfold] at hn
        exact absurd (Option.some.inj hn).symm hne
    · rintro ⟨x, hx, hm⟩
      have hm := (hm₁.marks name' x).mp hm
      refine ⟨⟨x, List.mem_append_left [a] hx, hm⟩, ?_⟩
      rintro rfl
      exact hlast' x hx hm.2
  · rw [List.map_append, h.removed]
    rfl

theorem Inv.clearLast (h : Inv l c st sp) {fd : ℕ} (hfd : fd < nfds) (h0 : st.table fd ≠ 0)
    (hone : (st.objects (st.table fd)).refCount = 1)
    (hnext : (st.objects (st.table fd)).next = 0)
    (hnull : (st.objects (st.table fd)).temporary = true →
      findEqFilename st.objects (st.table fd) (st.allocated.length + 1) st.activeFds ≠
        .error .nullName) :
    ∃ st' l' c', clearFdProperties fd st = .ok st' ∧ Inv l' c' st' (sp.clear fd) := by
  have ha := h.mem_of_table hfd h0
  obtain ⟨a, hadef⟩ : ∃ q, q = st.table fd := ⟨_, rfl⟩
  rw [← hadef] at ha h0 hone hnext hnull
  obtain ⟨l, rfl⟩ := h.active.linked.eq_append_of_next ha hnext
  have honly : descriptors st.table a = {fd} := by
    have hmem : fd ∈ descriptors st.table a := mem_descriptors.mpr ⟨hfd, hadef.symm⟩
    obtain ⟨x, hx⟩ := Finset.card_eq_one.mp ((h.counts a ha).symm.trans hone)
    rw [hx, Finset.mem_singleton] at hmem
    rw [hx, hmem]
  have hlen : (l ++ [a]).length ≤ st.allocated.length :=
    (h.active.linked.nodup.subperm h.allocated).length_le
  obtain ⟨m₁, hm₁⟩ : ∃ q, q = modify st.objects a fun o =>
    { o with refCount := (o.refCount + 255) % 256 } := ⟨_, rfl⟩
  have hkeep : Recounted a st.objects m₁ := by
    rw [hm₁]
    exact recounted_modify st.objects a fun n => (n + 255) % 256
  have hzero : (m₁ a).refCount = 0 := by
    rw [hm₁, modify_same]
    dsimp only
    rw [hone]
  have hclear : clearFdProperties fd st =
      (closeFd a { st with objects := m₁ }).map fun s => retireLast a fd s.objects s.removed s := by
    unfold clearFdProperties
    dsimp only
    rw [← hadef, if_neg h0, ← hm₁, if_pos hzero]
    cases closeFd a { st with objects := m₁ } <;> rfl
  have hclosed : Closed (l ++ [a]) a { st with objects := m₁ }
      (closeFd a { st with objects := m₁ }) := by
    apply closeFd_closed
    · exact h.active.congr fun x _ => ⟨hkeep.next x, hkeep.prev x⟩
    · exact hlen
    · dsimp only
      rw [hkeep.temporary a, hkeep.filename a]
      exact h.named a ha
    · dsimp only
      rw [hkeep.temporary a, findEqFilename_congr fun x => ⟨hkeep.next x, hkeep.filename x⟩]
      exact hnull
  rw [hclear]
  generalize closeFd a { st with objects := m₁ } = r at hclosed
  cases hclosed with
  | keep m hsame hold hmoved hnew =>
      exact ⟨retireLast a fd m st.removed st, l, a :: c, rfl,
        h.retireKeep hadef.symm honly hkeep hsame hold hmoved hnew⟩
  | remove name htemp hname hlast =>
      exact ⟨retireLast a fd m₁ (st.removed ++ [name]) st, l, a :: c, rfl,
        h.retireRemove hfd hadef.symm honly hkeep htemp hname hlast⟩

theorem Inv.clear (h : Inv l c st sp) {fd : ℕ} (hfd : fd < nfds)
    (hharmless : Op.Harmless truename st (.clear fd)) :
    ∃ st' l' c', clearFdProperties fd st = .ok st' ∧ Inv l' c' st' (sp.clear fd) := by
  by_cases h0 : st.table fd = 0
  · have hnone : sp.file fd = none := by
      rw [h.file fd hfd, h0, fileOf_zero]
    have hspec : sp.clear fd = sp := by
      rw [Spec.clear_keep, ← hnone, Function.update_eq_self]
      intro name hn
      rw [hnone] at hn
      exact nomatch hn
    refine ⟨st, l, c, ?_, ?_⟩
    · rw [clearFdProperties, if_pos h0]
    · rw [hspec]
      exact h
  · by_cases hone : (st.objects (st.table fd)).refCount = 1
    · obtain ⟨hnext, hnull⟩ := hharmless h0 hone
      exact h.clearLast hfd h0 hone hnext hnull
    · obtain ⟨st', hst', h'⟩ := h.clearOne hfd h0 hone
      exact ⟨st', l, c, hst', h'⟩

theorem Inv.step (h : Inv l c st sp) {op : Op} (hvalid : Op.Valid st op)
    (hharmless : Op.Harmless truename st op) :
    ∃ st' l' c', st.step truename op = .ok st' ∧ Inv l' c' st' (sp.step truename op) := by
  cases op with
  | set fd file temporary append p =>
      obtain ⟨hfd, hp⟩ := hvalid
      have hready : st.init.ready = true := by
        unfold Fds.init
        split_ifs with hr
        · exact hr
        · rfl
      have hinit : st.init.init = st.init := by
        rw [Fds.init, if_pos hready]
      have hsame : setFdProperties truename fd file temporary append p st =
          setFdProperties truename fd file temporary append p st.init := by
        rw [setFdProperties, setFdProperties, hinit]
      have hal : st.init.allocated = st.allocated := by
        unfold Fds.init
        split_ifs <;> rfl
      unfold Op.Harmless at hharmless
      dsimp only at hharmless
      rw [Fds.step, hsame]
      by_cases h0 : st.init.table fd = 0
      · rw [if_pos h0] at hharmless
        obtain ⟨l', h'⟩ := h.init.setNew hfd h0 hready (hal.symm ▸ hp) hharmless
        exact ⟨_, l', [], rfl, h'⟩
      · rw [if_neg h0] at hharmless
        refine ⟨_, l, c, rfl, ?_⟩
        rw [setFdProperties, hinit]
        dsimp only
        rw [if_neg h0]
        exact h.init.setAgain hfd h0 hharmless
  | dup fd newfd =>
      obtain ⟨hready, hfd, hnew, hfree⟩ := hvalid
      refine ⟨dupFdProperties fd newfd st, l, c, ?_, h.dup hfd hnew hfree⟩
      rw [Fds.step, if_pos hready]
  | clear fd =>
      obtain ⟨hready, hfd⟩ := hvalid
      rw [Fds.step, if_pos hready]
      exact h.clear hfd hharmless

/-- As long as every call is harmless, the lists and the counts are right after every call, and
the files that have been removed are those of which the last descriptor has been cleared. -/
theorem fdProperties_harmless (m : Objects) (ops : List Op)
    (hvalid : Runs.Along (Both.step truename) (fun s op => Op.Valid s.fds op)
      ⟨.start m, .start⟩ ops)
    (hharmless : Runs.Along (Both.step truename) (fun s op => Op.Harmless truename s.fds op)
      ⟨.start m, .start⟩ ops) :
    ∃ s, Runs.exec (Both.step truename) ⟨.start m, .start⟩ ops = .ok s ∧ WellFormed s.fds ∧
      s.fds.removed.map fold = s.spec.removed := by
  have hstart : ∃ l c, Inv l c (Fds.start m) .start := ⟨[], [], inv_start m⟩
  have hstep : ∀ (s : Both) (op : Op), (∃ l c, Inv l c s.fds s.spec) → Op.Valid s.fds op →
      Op.Harmless truename s.fds op →
      ∃ s', s.step truename op = .ok s' ∧ ∃ l c, Inv l c s'.fds s'.spec := by
    intro s op ⟨l, c, h⟩ hv hh
    obtain ⟨st', l', c', hst', h'⟩ := h.step hv hh
    refine ⟨⟨st', s.spec.step truename op⟩, ?_, l', c', h'⟩
    rw [Both.step, hst']
  obtain ⟨s, hs, l, c, h⟩ := Runs.exec_invariant hstep hstart hvalid hharmless
  exact ⟨s, hs, h.wellFormed, h.removed⟩

/-- The heap before any object has been set up. -/
def blank : Objects := fun _ => ⟨0, none, false, false, 0, 0⟩

/-- A temporary file that is opened twice, with a duplicate of the first descriptor, and closed
in the order in which it was opened. -/
def inOrder : List Op :=
  [.set 3 (some ['x']) true false 8, .dup 3 5, .set 4 (some ['X']) false false 16, .clear 3,
    .clear 5, .clear 4]

theorem fdProperties_harmless_inOrder :
    (∃ s, Runs.exec (Both.step id) ⟨.start blank, .start⟩ inOrder = .ok s ∧ WellFormed s.fds ∧
      s.fds.removed.map fold = s.spec.removed) ∧
      (Runs.exec (Both.step id) ⟨.start blank, .start⟩ inOrder).toOption.map (·.fds.removed) =
        some [['X']] :=
  ⟨fdProperties_harmless blank inOrder (by decide) (by decide), by decide⟩

/-- The same file is opened twice, and a third one is opened last and closed first. -/
def lastFirst : List Op :=
  [.set 3 (some ['x']) true false 8, .set 4 (some ['x']) false false 16,
    .set 5 (some ['y']) false false 24, .clear 5, .clear 3]

/-- Closing the third file loses the list, so that the file is removed while descriptor 4 is
open. -/
theorem fdProperties_lastFirst :
    Runs.Along (Both.step id) (fun s op => Op.Valid s.fds op) ⟨.start blank, .start⟩ lastFirst ∧
      (Runs.exec (Both.step id) ⟨.start blank, .start⟩ lastFirst).toOption.map
          (fun s => (s.fds.table 4, s.fds.activeFds, s.fds.removed, s.spec.removed)) =
        some (16, 0, [['x']], []) ∧
      ¬ ∃ s, Runs.exec (Both.step id) ⟨.start blank, .start⟩ lastFirst = .ok s ∧
        WellFormed s.fds ∧ s.fds.removed.map fold = s.spec.removed := by
  have hrun : (Runs.exec (Both.step id) ⟨.start blank, .start⟩ lastFirst).toOption.map
      (fun s => (s.fds.table 4, s.fds.activeFds, s.fds.removed, s.spec.removed)) =
        some (16, 0, [['x']], []) := by decide +kernel
  refine ⟨by decide, hrun, ?_⟩
  rintro ⟨s, hs, -, hremoved⟩
  rw [hs] at hrun
  obtain ⟨-, -, hcode, hspec⟩ :
      s.fds.table 4 = 16 ∧ s.fds.activeFds = 0 ∧ s.fds.removed = [['x']] ∧ s.spec.removed = [] := by
    simpa using Option.some.inj hrun
  rw [hcode, hspec] at hremoved
  exact nomatch hremoved

end DjgppLibc.FdProps
