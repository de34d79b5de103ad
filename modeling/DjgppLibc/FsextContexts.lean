import DjgppLibc.Fsext

/-!
# The contexts of `/dev/zero` and their descriptors

What a run of calls keeps: a context counts its descriptors, and no descriptor has a
context that is free. An `open` for which `malloc` fails leaves its descriptor behind, and
a `close` does not set `*rv`; `run_contexts` says in which runs all is well.
-/
namespace DjgppLibc.Fsext

def attached (st : Ext) (a : ℕ) : Finset ℕ := (Finset.range st.numFds).filter fun fd => getData st
    fd = some a

/-- A context counts its descriptors, and no descriptor has a context that is free. -/
structure Consistent (st : Ext) : Prop where
  live : ∀ fd a, getData st fd = some a → st.heap a ≠ none
  count : ∀ a d, st.heap a = some d → d.dupCount = (attached st a).card

/-- A call that does not return a descriptor leaves no new one, neither in DOS nor in
the table. -/
def NoLeak (st : Ext) (op : Op) : Prop :=
  (¬ ∃ n : ℕ, (step st op).1 = some (n : ℤ)) → ∀ fd,
    ((step st op).2.handles fd = true → st.handles fd = true) ∧
      (getFunction (step st op).2 fd = true → getFunction st fd = true)

def ClosesContext (st : Ext) : Op → Prop
  | .close fd => getFunction st fd = true ∧ getData st fd ≠ none
  | _ => False

def Every (P : Ext → Op → Prop) : Ext → List Op → Prop
  | _, [] => True
  | st, op :: ops => P st op ∧ Every P (step st op).2 ops

/-- Once DOS has given a handle, an `open` gets its memory and the table grows for the
function, and for a `dup` the table grows for the function or not at all; the first call
that opens NUL gets a duplicate of it. -/
def Steady (st : Ext) : Op → Prop
  | .open filename openMode ans =>
      isOurs st filename = true → openMode &&& O_CREAT = 0 →
        match dosDup (openNul st ans) ans with
        | none => st.nullDevFd ≠ none ∨ freshHandle st ans.nul = none
        | some fd => freshAddress st ans.malloc ≠ none ∧ (fd < st.numFds ∨ ans.growFunction = true)
  | .dup fd ans =>
      getFunction st fd = true →
        match dosDup st ans with
        | none => True
        | some newFd => newFd < st.numFds ∨ ans.growFunction = true ∨ ans.growData = false
  | .close _ => True

variable {st st' : Ext} {fd fd' a : ℕ} {ok : Bool}

theorem mem_attached : fd ∈ attached st a ↔ getData st fd = some a := by
  unfold attached
  rw [Finset.mem_filter, Finset.mem_range]
  refine ⟨fun h => h.2, fun h => ⟨?_, h⟩⟩
  by_contra hlt
  rw [getData, if_neg hlt] at h
  cases h

def entryAt (st : Ext) (fd : ℕ) : Entry := if fd < st.numFds then st.fsextList fd else .empty

theorem getFunction_eq (st : Ext) (fd : ℕ) : getFunction st fd = (entryAt st fd).function := by
  unfold getFunction entryAt
  split
  · next h => simp [h]
  · next h => simp [h, Entry.empty]

theorem getData_eq (st : Ext) (fd : ℕ) : getData st fd = (entryAt st fd).data := by
  unfold getData entryAt
  split <;> rfl

def Has (st : Ext) (fd : ℕ) (ok : Bool) : Prop := fd < st.numFds ∨ ok = true

theorem growTable_of_not_has (h : ¬ Has st fd ok) : growTable st fd ok = none := by
  obtain ⟨hlt, hok⟩ := not_or.1 h
  rw [growTable, if_pos (by omega), if_neg hok]

/-- A larger table has the same entries. -/
theorem growTable_of_has (h : Has st fd ok) :
    ∃ n f, growTable st fd ok = some { st with numFds := n, fsextList := f } ∧ fd < n ∧
      ∀ i, entryAt { st with numFds := n, fsextList := f } i = entryAt st i := by
  unfold growTable
  by_cases hle : st.numFds ≤ fd
  · have hok : ok = true := h.resolve_left (by omega)
    rw [if_pos hle, if_pos hok]
    refine ⟨_, _, rfl, by omega, fun i => ?_⟩
    unfold entryAt
    dsimp only
    by_cases hlt : i < st.numFds
    · rw [if_pos hlt, if_pos (by omega), if_neg (by omega)]
    · rw [if_neg hlt]
      split
      · next hi => rw [if_pos ⟨by omega, hi⟩]
      · rfl
  · rw [if_neg hle]
    exact ⟨st.numFds, st.fsextList, rfl, by omega, fun i => rfl⟩

theorem update_of_has (h : Has st fd ok) (g : Entry → Entry) :
    ∃ n f, ((growTable st fd ok).map fun st =>
        { st with fsextList := Function.update st.fsextList fd (g (st.fsextList fd)) }) =
          some { st with numFds := n, fsextList := f } ∧ fd < n ∧
      ∀ i, entryAt { st with numFds := n, fsextList := f } i = if i =
        fd then g (entryAt st i) else entryAt st i := by
  obtain ⟨n, f, hgrow, hfd, hentry⟩ := growTable_of_has h
  refine ⟨n, Function.update f fd (g (f fd)), by rw [hgrow]; rfl, hfd, fun i => ?_⟩
  rw [← hentry i]
  unfold entryAt
  dsimp only
  by_cases hi : i = fd
  · subst hi
    rw [if_pos hfd, if_pos rfl, if_pos hfd, Function.update_self]
  · rw [if_neg hi, Function.update_of_ne hi]

theorem setFunction_of_not_has (h : ¬ Has st fd ok) (function : Bool) :
    setFunction st fd function ok = st := by
  rw [setFunction, growTable_of_not_has h]

theorem setData_of_not_has (h : ¬ Has st fd ok) (data : Option ℕ) :
    setData st fd data ok = none := by
  rw [setData, growTable_of_not_has h]
  rfl

/-- Only the table changes. -/
structure Frame (st st' : Ext) : Prop where
  heap : st'.heap = st.heap
  handles : st'.handles = st.handles
  nullDevFd : st'.nullDevFd = st.nullDevFd
  emulated : st'.emulated = st.emulated

/-- The function of one descriptor changes. -/
theorem setFunction_of_has (h : Has st fd ok) (function : Bool) :
    Frame st (setFunction st fd function ok) ∧ fd < (setFunction st fd function ok).numFds ∧
      ∀ i, entryAt (setFunction st fd function ok) i =
        if i = fd then { entryAt st i with function := function } else entryAt st i := by
  obtain ⟨n, f, hset, hfd, hentry⟩ := update_of_has h fun e => { e with function := function }
  obtain ⟨st₁, hgrow, hst₁⟩ := Option.map_eq_some_iff.1 hset
  have heq : setFunction st fd function ok = { st with numFds := n, fsextList := f } := by
    rw [← hst₁, setFunction, hgrow]
  rw [heq]
  exact ⟨⟨rfl, rfl, rfl, rfl⟩, hfd, hentry⟩

theorem setData_of_has (h : Has st fd ok) (data : Option ℕ) :
    ∃ st', setData st fd data ok = some st' ∧ Frame st st' ∧ fd < st'.numFds ∧
      ∀ i, entryAt st' i = if i = fd then { entryAt st i with data := data } else entryAt st i := by
  obtain ⟨n, f, hset, hfd, hentry⟩ := update_of_has h fun e => { e with data := data }
  exact ⟨_, hset, ⟨rfl, rfl, rfl, rfl⟩, hfd, hentry⟩

/-- A descriptor has the function when it has a context, and then it is a handle of DOS. -/
structure Inv (st : Ext) : Prop extends Consistent st where
  function : ∀ fd, getFunction st fd = true ↔ getData st fd ≠ none
  handles : ∀ fd, getFunction st fd = true → st.handles fd = true
  nul : ∀ fd, getFunction st fd = true → st.nullDevFd ≠ none

theorem inv_start (handles : ℕ → Bool) (zero full : Bool) : Inv (start handles zero full) where
  live fd a h := by simp [getData, start] at h
  count a d h := by simp [start] at h
  function fd := by simp [getFunction, getData, start]
  handles fd h := by simp [getFunction, start] at h
  nul fd h := by simp [getFunction, start] at h

theorem attached_congr (hentry : ∀ i, entryAt st' i = entryAt st i) (a : ℕ) :
    attached st' a = attached st a := by
  ext fd
  rw [mem_attached, mem_attached, getData_eq, getData_eq, hentry]

/-- The table and the contexts stay, and no handle of theirs is closed. -/
theorem Inv.congr (h : Inv st) (hentry : ∀ i, entryAt st' i = entryAt st i)
    (hheap : st'.heap = st.heap)
    (hhandles : ∀ i, getFunction st i = true → st'.handles i = true)
    (hnul : st.nullDevFd ≠ none → st'.nullDevFd ≠ none) : Inv st' := by
  have hfun (i : ℕ) : getFunction st' i = getFunction st i := by
    rw [getFunction_eq, getFunction_eq, hentry]
  have hdata (i : ℕ) : getData st' i = getData st i := by rw [getData_eq, getData_eq, hentry]
  refine ⟨⟨fun fd a hd => ?_, fun a d hd => ?_⟩, fun fd => ?_, fun fd hf => ?_, fun fd hf => ?_⟩
  · rw [hheap]
    exact h.live fd a (hdata fd ▸ hd)
  · rw [attached_congr hentry]
    exact h.count a d (hheap ▸ hd)
  · rw [hfun, hdata]
    exact h.function fd
  · exact hhandles fd (hfun fd ▸ hf)
  · exact hnul (h.nul fd (hfun fd ▸ hf))

theorem Inv.attach {d : DevData} (h : Inv st) (hfree : getFunction st fd = false)
    (hentry : ∀ i, entryAt st' i = if i = fd then ⟨true, some a⟩ else entryAt st i)
    (hheap : st'.heap = Function.update st.heap a (some d)) (hcount : d.dupCount =
      (attached st a).card + 1)
    (hhandles : ∀ i, st'.handles i = true ↔ i = fd ∨ st.handles i = true)
    (hnul : st'.nullDevFd ≠ none) :
    Inv st' := by
  have hfun (i : ℕ) : getFunction st' i = if i = fd then true else getFunction st i := by
    rw [getFunction_eq, getFunction_eq, hentry]
    split <;> rfl
  have hdata (i : ℕ) : getData st' i = if i = fd then some a else getData st i := by
    rw [getData_eq, getData_eq, hentry]
    split <;> rfl
  have hnone : getData st fd = none := by
    by_contra hne
    rw [(h.function fd).2 hne] at hfree
    cases hfree
  refine ⟨⟨fun i b hd => ?_, fun b e he => ?_⟩, fun i => ?_, fun i hf => ?_, fun _ _ => hnul⟩
  · rw [hheap, Function.update_apply]
    split
    · simp
    · next hb =>
      rw [hdata] at hd
      split at hd
      · exact absurd (Option.some.inj hd).symm hb
      · exact h.live i b hd
  · rw [hheap, Function.update_apply] at he
    split at he
    · next hb =>
      subst hb
      obtain rfl := Option.some.inj he
      have hset : attached st' b = insert fd (attached st b) := by
        ext i
        rw [mem_attached, Finset.mem_insert, mem_attached, hdata]
        split
        · next hi => simp [hi]
        · next hi => simp [hi]
      have hnot : fd ∉ attached st b := by
        rw [mem_attached, hnone]
        simp
      rw [hset, Finset.card_insert_of_notMem hnot, hcount]
      push_cast
      rfl
    · next hb =>
      have hset : attached st' b = attached st b := by
        ext i
        rw [mem_attached, mem_attached, hdata]
        split
        · next hi =>
          rw [hi, hnone]
          simp [Ne.symm hb]
        · rfl
      rw [hset]
      exact h.count b e he
  · rw [hfun, hdata]
    split
    · simp
    · exact h.function i
  · rw [hfun] at hf
    rw [hhandles]
    split at hf
    · next hi => exact .inl hi
    · exact .inr (h.handles i hf)

theorem Inv.detach {d : DevData} (h : Inv st) (hfd : getData st fd = some a)
    (hd : st.heap a = some d)
    (hentry : ∀ i, entryAt st' i = if i = fd then .empty else entryAt st i)
    (hheap : st'.heap = Function.update st.heap a
      (if d.dupCount - 1 ≤ 0 then none else some { d with dupCount := d.dupCount - 1 }))
    (hhandles : ∀ i, i ≠ fd → st'.handles i = st.handles i) (hnul : st'.nullDevFd = st.nullDevFd) :
      Inv st' := by
  have hfun (i : ℕ) : getFunction st' i = if i = fd then false else getFunction st i := by
    rw [getFunction_eq, getFunction_eq, hentry]
    split <;> rfl
  have hdata (i : ℕ) : getData st' i = if i = fd then none else getData st i := by
    rw [getData_eq, getData_eq, hentry]
    split <;> rfl
  have hcount := h.count a d hd
  have hset (b : ℕ) : attached st' b = (attached st b).erase fd := by
    ext i
    rw [mem_attached, Finset.mem_erase, mem_attached, hdata]
    split
    · next hi => simp [hi]
    · next hi => simp [hi]
  have hcard : (attached st' a).card + 1 = (attached st a).card := by
    rw [hset]
    exact Finset.card_erase_add_one (mem_attached.2 hfd)
  refine ⟨⟨fun i b hb => ?_, fun b e he => ?_⟩, fun i => ?_, fun i hf => ?_, fun i hf => ?_⟩
  · have hmem : i ∈ attached st' b := mem_attached.2 hb
    have hold : i ∈ attached st b := by
      rw [hset] at hmem
      exact Finset.mem_of_mem_erase hmem
    rw [hheap, Function.update_apply]
    split
    · next hab =>
      subst hab
      have hpos := Finset.card_pos.2 ⟨i, hmem⟩
      rw [if_neg (by omega)]
      simp
    · exact h.live i b (mem_attached.1 hold)
  · rw [hheap, Function.update_apply] at he
    split at he
    · next hab =>
      subst hab
      split at he
      · cases he
      · obtain rfl := Option.some.inj he
        show d.dupCount - 1 = _
        omega
    · next hab =>
      have hnot : fd ∉ attached st b := by
        rw [mem_attached, hfd]
        simpa using Ne.symm hab
      rw [hset, Finset.erase_eq_of_notMem hnot]
      exact h.count b e he
  · rw [hfun, hdata]
    split
    · simp
    · exact h.function i
  · rw [hfun] at hf
    split at hf
    · cases hf
    · next hi =>
      rw [hhandles i hi]
      exact h.handles i hf
  · rw [hfun] at hf
    rw [hnul]
    split at hf
    · cases hf
    · exact h.nul i hf

variable {ans : Answers}

theorem freshHandle_some {answer : Option ℕ} (h : freshHandle st answer = some fd) :
    st.handles fd = false := by
  have := Option.filter_eq_some_iff.1 h
  simpa using this.2

theorem dosDup_some (h : dosDup st ans = some fd) : st.nullDevFd ≠ none ∧
    st.handles fd = false := by
  unfold dosDup at h
  split at h
  · next nul hnul =>
    split at h
    · exact ⟨by simp [hnul], freshHandle_some h⟩
    · cases h
  · cases h

theorem openNul_cases (st : Ext) (ans : Answers) :
    openNul st ans = st ∨ ∃ nul, st.nullDevFd = none ∧ freshHandle st ans.nul = some nul ∧
      openNul st ans = { openHandle st nul with nullDevFd := some nul } := by
  unfold openNul
  split
  · next fd h0 h1 => exact .inr ⟨fd, h0, h1, rfl⟩
  · exact .inl rfl

theorem Inv.openNul (h : Inv st) (ans : Answers) : Inv (openNul st ans) := by
  obtain he | ⟨nul, -, -, he⟩ := openNul_cases st ans
  · rw [he]
    exact h
  · rw [he]
    refine h.congr (fun _ => rfl) rfl (fun i hi => ?_) (fun _ => by simp)
    show Function.update st.handles nul true i = true
    rw [Function.update_apply]
    split
    · rfl
    · exact h.handles i hi

theorem openNul_frame (st : Ext) (ans : Answers) :
    (openNul st ans).numFds = st.numFds ∧ (openNul st ans).fsextList = st.fsextList ∧
      (openNul st ans).heap = st.heap ∧ (openNul st ans).emulated = st.emulated := by
  obtain he | ⟨nul, -, -, he⟩ := openNul_cases st ans
  · rw [he]
    exact ⟨rfl, rfl, rfl, rfl⟩
  · rw [he]
    exact ⟨rfl, rfl, rfl, rfl⟩

theorem allocFd_none (hdup : dosDup (openNul st ans) ans = none) :
    allocFd st ans = (none, { openNul st ans with errno := some .dos }) := by
  rw [allocFd, hdup]

theorem allocFd_some (hdup : dosDup (openNul st ans) ans = some fd)
    (hhas : Has st fd ans.growFunction) :
    ∃ st', allocFd st ans = (some fd, st') ∧ st'.heap = st.heap ∧
      st'.handles = Function.update (openNul st ans).handles fd true ∧
      st'.nullDevFd = (openNul st ans).nullDevFd ∧ st'.emulated = st.emulated ∧ fd < st'.numFds ∧
      ∀ i, entryAt st' i = if i = fd then { entryAt st i with function := true }
      else entryAt st i := by
  obtain ⟨hnum, hlist, hheap, hemul⟩ := openNul_frame st ans
  have hhas' : Has (openHandle (openNul st ans) fd) fd ans.growFunction := by
    unfold Has at hhas ⊢
    rw [← hnum] at hhas
    exact hhas
  obtain ⟨hframe, hfd, hentry⟩ := setFunction_of_has hhas' true
  refine ⟨_, by rw [allocFd, hdup], hframe.heap.trans hheap, hframe.handles, hframe.nullDevFd,
    hframe.emulated.trans hemul, hfd, fun i => ?_⟩
  have hold : entryAt (openHandle (openNul st ans) fd) i = entryAt st i := by
    show (if i < (openNul st ans).numFds then (openNul st ans).fsextList i else .empty) = _
    rw [hnum, hlist]
    rfl
  rw [hentry, hold]

theorem Inv.function_eq_false (h : Inv st) (hclosed : st.handles fd = false) :
    getFunction st fd = false := by
  by_contra hf
  rw [h.handles fd (by simpa using hf)] at hclosed
  cases hclosed

/-- What a call leaves: a descriptor, or no new one. -/
structure Kept (st : Ext) (r : ℤ × Ext) : Prop where
  inv : Inv r.2
  emulated : r.2.emulated = st.emulated
  noLeak : (∃ n : ℕ, r.1 = n) ∨
    ∀ fd, (r.2.handles fd = true → st.handles fd = true) ∧ (getFunction r.2 fd = true →
      getFunction st fd = true)

theorem devOpen_kept (h : Inv st) {filename : List Char} {openMode : BitVec 32}
    (hours : isOurs st filename = true) (hs : Steady st (.open filename openMode ans)) :
    Kept st (devOpen st filename openMode ans) := by
  have herrno (e : Errno) : Inv { st with errno := some e } :=
    h.congr (fun _ => rfl) rfl h.handles id
  unfold devOpen
  by_cases hcreat : openMode &&& O_CREAT = 0
  · rw [if_neg (not_not.2 hcreat)]
    have hs := hs hours hcreat
    cases hdup : dosDup (openNul st ans) ans with
    | none =>
      rw [hdup] at hs
      have hsame : openNul st ans = st := by
        obtain he | ⟨nul, h0, h1, -⟩ := openNul_cases st ans
        · exact he
        · exact absurd hs (by simp [h0, h1])
      rw [allocFd_none hdup, hsame]
      exact ⟨herrno .dos, rfl, .inr fun _ => ⟨id, id⟩⟩
    | some fd =>
      rw [hdup] at hs
      obtain ⟨hnul, hclosed⟩ := dosDup_some hdup
      obtain ⟨st₁, halloc, hheap, hhandles, hnul₁, hemul, hfd, hentry⟩ := allocFd_some hdup hs.2
      obtain ⟨a, ha⟩ := Option.ne_none_iff_exists'.1 hs.1
      have hfresh : freshAddress st₁ ans.malloc = some a := by
        rw [← ha, freshAddress, freshAddress, hheap]
      rw [halloc]
      simp only [hfresh]
      generalize hd : (⟨_, _, 1⟩ : DevData) = d
      have hhas : Has { st₁ with heap := Function.update st₁.heap a (some d) } fd ans.growData :=
        .inl hfd
      obtain ⟨st₂, hset, hframe, -, hentry'⟩ := setData_of_has hhas (some a)
      rw [hset]
      have hnone : st.heap a = none := by
        have := (Option.filter_eq_some_iff.1 ha).2
        simpa using this
      have hheap₀ : (openNul st ans).heap = st.heap := (openNul_frame st ans).2.2.1
      have hempty : (attached (openNul st ans) a).card = 0 := by
        rw [Finset.card_eq_zero, Finset.eq_empty_iff_forall_notMem]
        intro i hi
        exact (h.openNul ans).live i a (mem_attached.1 hi) (hheap₀ ▸ hnone)
      have hentries (i : ℕ) : entryAt st₂ i = if i = fd then ⟨true, some a⟩
          else entryAt (openNul st ans) i := by
        have hold : entryAt (openNul st ans) i = entryAt st i := by
          rw [entryAt, (openNul_frame st ans).1, (openNul_frame st ans).2.1, entryAt]
        have hmid : entryAt { st₁ with heap := Function.update st₁.heap a (some d) } i =
          entryAt st₁ i := rfl
        rw [hentry', hmid, hentry, hold]
        split <;> rfl
      refine ⟨(h.openNul ans).attach (d := d) ((h.openNul ans).function_eq_false hclosed) hentries
        ?_ ?_
        (fun i => ?_) ?_, hframe.emulated.trans hemul, .inl ⟨fd, rfl⟩⟩
      · rw [hframe.heap, hheap₀, hheap]
      · rw [hempty, ← hd]
        rfl
      · rw [hframe.handles]
        show st₁.handles i = true ↔ _
        rw [hhandles, Function.update_apply]
        split
        · next hi => simp [hi]
        · next hi => simp [hi]
      · rw [hframe.nullDevFd]
        exact hnul₁ ▸ hnul
  · rw [if_pos hcreat]
    exact ⟨herrno .EEXIST, rfl, .inr fun _ => ⟨id, id⟩⟩

/-- A handle that the extension has no function for. -/
theorem close_of_not_function (h : getFunction st fd = false) (depth : ℕ) :
    close (depth + 1) st fd = dosClose st fd := by
  rw [close, h]
  rfl

theorem internalDup_kept (h : Inv st) (hfd : getFunction st fd = true)
    (hs : Steady st (.dup fd ans)) :
    Kept st (internalDup st fd ans) := by
  have hsame : openNul st ans = st := by
    obtain he | ⟨nul, h0, -, -⟩ := openNul_cases st ans
    · exact he
    · exact absurd h0 (h.nul fd hfd)
  obtain ⟨a, ha⟩ := Option.ne_none_iff_exists'.1 ((h.function fd).1 hfd)
  obtain ⟨d, hd⟩ := Option.ne_none_iff_exists'.1 (h.live fd a ha)
  have hs := hs hfd
  unfold internalDup
  cases hdup : dosDup st ans with
  | none =>
    rw [allocFd_none (hsame.symm ▸ hdup), hsame]
    exact ⟨h.congr (fun _ => rfl) rfl h.handles id, rfl, .inr fun _ => ⟨id, id⟩⟩
  | some newFd =>
    rw [hdup] at hs
    obtain ⟨hnul, hclosed⟩ := dosDup_some hdup
    have hdup' : dosDup (openNul st ans) ans = some newFd := hsame.symm ▸ hdup
    by_cases hhas : Has st newFd ans.growFunction
    · obtain ⟨st₁, halloc, hheap, hhandles, hnul₁, hemul, hlt, hentry⟩ := allocFd_some hdup' hhas
      have hne : fd ≠ newFd := by
        rintro rfl
        rw [h.handles fd hfd] at hclosed
        cases hclosed
      have hdata : getData st₁ fd = some a := by
        rw [getData_eq, hentry, if_neg hne, ← getData_eq]
        exact ha
      have hhas' : Has st₁ newFd ans.growData := .inl hlt
      obtain ⟨st₂, hset, hframe, -, hentry'⟩ := setData_of_has hhas' (some a)
      rw [halloc]
      simp only [hdata, hset]
      have hentries (i : ℕ) : entryAt st₂ i = if i = newFd then ⟨true, some a⟩
          else entryAt st i := by
        rw [hentry', hentry]
        split <;> rfl
      refine ⟨h.attach (d := { d with dupCount := d.dupCount + 1 })
        (h.function_eq_false hclosed) hentries ?_ ?_
        (fun i => ?_) ?_, hframe.emulated.trans hemul, .inl ⟨newFd, rfl⟩⟩
      · show Function.update st₂.heap a _ = _
        rw [hframe.heap, hheap, hd]
        rfl
      · rw [← h.count a d hd]
      · show st₂.handles i = true ↔ _
        rw [hframe.handles, hhandles, hsame, Function.update_apply]
        split
        · next hi => simp [hi]
        · next hi => simp [hi]
      · show st₂.nullDevFd ≠ none
        rw [hframe.nullDevFd, hnul₁, hsame]
        exact hnul
    · -- the table did not grow for the function, so it does not grow for the data
      have hgrow : ans.growData = false := by
        obtain hlt | hgrow | hgrow := hs
        · exact absurd (.inl hlt) hhas
        · exact absurd (.inr hgrow) hhas
        · exact hgrow
      have hnot : ¬ Has (openHandle st newFd) newFd ans.growData := by
        rintro (hlt | hok)
        · exact hhas (.inl hlt)
        · rw [hgrow] at hok
          cases hok
      have halloc : allocFd st ans = (some newFd, openHandle st newFd) := by
        have hhas' : ¬ Has (openHandle st newFd) newFd ans.growFunction := hhas
        rw [allocFd, hsame, hdup]
        exact Prod.ext rfl (setFunction_of_not_has hhas' true)
      have hdata : getData (openHandle st newFd) fd = some a := ha
      have hfun : getFunction { openHandle st newFd with errno := some .ENOMEM } newFd = false :=
        h.function_eq_false hclosed
      have hopen : (openHandle st newFd).handles newFd = true := Function.update_self _ _ _
      rw [halloc]
      simp only [hdata, setData_of_not_has hnot, close_of_not_function hfun 1, dosClose, hopen,
        if_true]
      have hback : Function.update (openHandle st newFd).handles newFd false = st.handles := by
        funext i
        rw [openHandle, Function.update_apply]
        split
        · next hi => rw [hi, hclosed]
        · next hi => exact Function.update_of_ne hi _ _
      refine ⟨h.congr (fun _ => rfl) rfl (fun i hi => ?_) id, rfl, .inr fun i => ⟨fun hi => ?_, id⟩⟩
      · exact (congrFun hback i).trans (h.handles i hi)
      · exact (congrFun hback i).symm.trans hi

theorem devDup_kept (h : Inv st) (hfd : getFunction st fd = true) (hs : Steady st (.dup fd ans)) :
    Kept st (devDup st fd ans) := by
  obtain ⟨a, ha⟩ := Option.ne_none_iff_exists'.1 ((h.function fd).1 hfd)
  rw [devDup, ha]
  exact internalDup_kept h hfd hs

/-- A descriptor with a context is closed, and `*rv` is not set. -/
theorem close_context (h : Inv st) (hfd : getFunction st fd = true) :
    (close 2 st fd).1 = none ∧ Inv (close 2 st fd).2 ∧ (close 2 st fd).2.emulated =
    st.emulated ++ [none] ∧
      ∀ i, ((close 2 st fd).2.handles i = true → st.handles i = true) ∧
        (getFunction (close 2 st fd).2 i = true → getFunction st i = true) := by
  obtain ⟨a, ha⟩ := Option.ne_none_iff_exists'.1 ((h.function fd).1 hfd)
  obtain ⟨d, hd⟩ := Option.ne_none_iff_exists'.1 (h.live fd a ha)
  have hhas : Has st fd true := .inr rfl
  obtain ⟨st₁, hset, hframe₁, hlt₁, hentry₁⟩ := setData_of_has hhas none
  have hhas₁ : Has st₁ fd true := .inr rfl
  obtain ⟨hframe₂, -, hentry₂⟩ := setFunction_of_has hhas₁ false
  let st₂ := setFunction st₁ fd false true
  let st₃ := release st₂ a
  let rest : Option DevData := if d.dupCount - 1 ≤ 0 then none
    else some { d with dupCount := d.dupCount - 1 }
  have hheap₂ : st₂.heap a = some d := by rw [hframe₂.heap, hframe₁.heap, hd]
  have hst₃ : st₃ = { st₂ with heap := Function.update st₂.heap a rest } := by
    show release st₂ a = _
    rw [release, hheap₂]
  have hentry₃ (i : ℕ) : entryAt st₃ i = if i = fd then .empty else entryAt st i := by
    have : entryAt st₃ i = entryAt st₂ i := by rw [hst₃]; rfl
    rw [this, hentry₂, hentry₁]
    split <;> rfl
  have hfun₃ : getFunction st₃ fd = false := by
    rw [getFunction_eq, hentry₃, if_pos rfl]
    rfl
  have hhandles₃ : st₃.handles = st.handles := by
    rw [hst₃]
    exact hframe₂.handles.trans hframe₁.handles
  have hopen : st₃.handles fd = true := by
    rw [hhandles₃]
    exact h.handles fd hfd
  -- the handler closes the handle by `_close`, which finds no function any more
  let st₄ : Ext := { st₃ with handles := Function.update st₃.handles fd false,
                              emulated := st₃.emulated ++ [none] }
  have hclose : close 2 st fd = (none, setFunction st₄ fd false true) := by
    have hinner : close 1 st₃ fd = (some 0, { st₃ with handles := Function.update st₃.handles fd false }) := by
      rw [close_of_not_function hfun₃ 0, dosClose, if_pos hopen]
    rw [close, if_pos hfd, ha, hset]
    show (none, setFunction { (close 1 st₃ fd).2 with
      emulated := (close 1 st₃ fd).2.emulated ++ [none] } fd false true) = _
    rw [hinner]
  have hlt₄ : Has st₄ fd true := .inr rfl
  obtain ⟨hframe₅, -, hentry₅⟩ := setFunction_of_has hlt₄ false
  have hentry (i : ℕ) : entryAt (setFunction st₄ fd false true) i = if i =
      fd then .empty else entryAt st i := by
    have : entryAt st₄ i = entryAt st₃ i := rfl
    rw [hentry₅, this, hentry₃]
    split <;> rfl
  have hhandles : (setFunction st₄ fd false true).handles =
      Function.update st.handles fd false := by
    rw [hframe₅.handles, ← hhandles₃]
  rw [hclose]
  refine ⟨rfl, h.detach ha hd hentry ?_ (fun i hi => ?_) ?_, ?_,
    fun i => ⟨fun hi => ?_, fun hi => ?_⟩⟩
  · rw [hframe₅.heap]
    show st₃.heap = _
    rw [hst₃, hframe₂.heap, hframe₁.heap]
  · rw [hhandles, Function.update_of_ne hi]
  · rw [hframe₅.nullDevFd]
    show st₃.nullDevFd = _
    rw [hst₃]
    exact hframe₂.nullDevFd.trans hframe₁.nullDevFd
  · rw [hframe₅.emulated]
    show st₃.emulated ++ [none] = _
    rw [hst₃]
    exact congrArg (· ++ [none]) (hframe₂.emulated.trans hframe₁.emulated)
  · rw [hhandles, Function.update_apply] at hi
    split at hi
    · cases hi
    · exact hi
  · rw [getFunction_eq, hentry] at hi
    split at hi
    · cases hi
    · rw [getFunction_eq]
      exact hi

theorem close_other (h : Inv st) (hfd : getFunction st fd = false) :
    Inv (close 2 st fd).2 ∧ (close 2 st fd).2.emulated = st.emulated ∧
      ∀ i, ((close 2 st fd).2.handles i = true → st.handles i = true) ∧
        (getFunction (close 2 st fd).2 i = true → getFunction st i = true) := by
  rw [close_of_not_function hfd 1, dosClose]
  split
  · refine ⟨h.congr (fun _ => rfl) rfl (fun i hi => ?_) id, rfl, fun i => ⟨fun hi => ?_, id⟩⟩
    · have hne : i ≠ fd := by
        rintro rfl
        rw [hi] at hfd
        cases hfd
      show Function.update st.handles fd false i = true
      rw [Function.update_of_ne hne]
      exact h.handles i hi
    · have hi : Function.update st.handles fd false i = true := hi
      rw [Function.update_apply] at hi
      split at hi
      · cases hi
      · exact hi
  · exact ⟨h.congr (fun _ => rfl) rfl h.handles id, rfl, fun _ => ⟨id, id⟩⟩

theorem step_inv {op : Op} (h : Inv st) (hs : Steady st op) :
    Inv (step st op).2 ∧ NoLeak st op ∧
      ((∀ rv ∈ (step st op).2.emulated, rv ≠ none) ↔ (∀ rv ∈ st.emulated, rv ≠ none) ∧
        ¬ ClosesContext st op) := by
  have hkept {r : ℤ × Ext} {op : Op} (hr : Kept st r) (hstep : step st op = emulate r)
      (hop : ¬ ClosesContext st op) : Inv (step st op).2 ∧ NoLeak st op ∧
        ((∀ rv ∈ (step st op).2.emulated, rv ≠ none) ↔ (∀ rv ∈ st.emulated, rv ≠ none) ∧
          ¬ ClosesContext st op) := by
    have hinv : Inv (emulate r).2 := hr.inv.congr (fun _ => rfl) rfl hr.inv.handles id
    refine ⟨hstep ▸ hinv, fun hfail => ?_, ?_⟩
    · obtain ⟨n, hn⟩ | hsame := hr.noLeak
      · exact absurd ⟨n, by rw [hstep, emulate, hn]⟩ hfail
      · rw [hstep]
        exact hsame
    · rw [hstep, emulate, hr.emulated, List.forall_mem_append, List.forall_mem_singleton]
      exact and_congr_right fun _ => iff_of_true (by simp) hop
  cases op with
  | «open» filename openMode ans =>
    by_cases hours : isOurs st filename = true
    · refine hkept (devOpen_kept h hours hs) ?_ not_false
      rw [step, if_pos hours]
    · have hstep : step st (.open filename openMode ans) = (none, st) := by rw [step, if_neg hours]
      refine ⟨hstep ▸ h, fun _ => ?_, ?_⟩
      · rw [hstep]
        exact fun _ => ⟨id, id⟩
      · rw [hstep]
        exact (and_iff_left not_false).symm
  | dup fd ans =>
    by_cases hopen : st.handles fd = true
    · by_cases hfd : getFunction st fd = true
      · refine hkept (devDup_kept h hfd hs) ?_ not_false
        simp [step, hopen, hfd]
      · have hstep : step st (.dup fd ans) = (none, st) := by simp [step, hopen, hfd]
        refine ⟨hstep ▸ h, fun _ => ?_, ?_⟩
        · rw [hstep]
          exact fun _ => ⟨id, id⟩
        · rw [hstep]
          exact (and_iff_left not_false).symm
    · have hstep : step st (.dup fd ans) = (some (-1), { st with errno := some .EBADF }) := by
        simp [step, hopen]
      refine ⟨hstep ▸ h.congr (fun _ => rfl) rfl h.handles id, fun _ => ?_, ?_⟩
      · rw [hstep]
        exact fun _ => ⟨id, id⟩
      · rw [hstep]
        exact (and_iff_left not_false).symm
  | close fd =>
    cases hfd : getFunction st fd with
    | true =>
      obtain ⟨-, hinv, hemul, hsame⟩ := close_context h hfd
      refine ⟨hinv, fun _ => hsame, iff_of_false ?_ ?_⟩
      · show ¬ ∀ rv ∈ (close 2 st fd).2.emulated, rv ≠ none
        simp [hemul]
      · exact fun hn => hn.2 ⟨hfd, (h.function fd).1 hfd⟩
    | false =>
      obtain ⟨hinv, hemul, hsame⟩ := close_other h hfd
      refine ⟨hinv, fun _ => hsame, ?_⟩
      show (∀ rv ∈ (close 2 st fd).2.emulated, rv ≠ none) ↔ _
      rw [hemul]
      refine (and_iff_left ?_).symm
      rintro ⟨hf, -⟩
      rw [hf] at hfd
      cases hfd

theorem run_inv {ops : List Op} (h : Inv st) (hs : Every Steady st ops) :
    Every (fun st op => Consistent (step st op).2 ∧ NoLeak st op) st ops ∧
      ((∀ rv ∈ (run st ops).emulated, rv ≠ none) ↔
        (∀ rv ∈ st.emulated, rv ≠ none) ∧ Every (fun st op => ¬ ClosesContext st op) st ops) := by
  induction ops generalizing st with
  | nil => exact ⟨trivial, (and_iff_left trivial).symm⟩
  | cons op ops ih =>
    obtain ⟨hinv, hleak, hrv⟩ := step_inv h hs.1
    obtain ⟨hrest, hset⟩ := ih hinv hs.2
    refine ⟨⟨⟨hinv.toConsistent, hleak⟩, hrest⟩, ?_⟩
    show (∀ rv ∈ (run (step st op).2 ops).emulated, rv ≠ none) ↔ _
    rw [hset, hrv, and_assoc]
    rfl

/-- In a run whose calls get their memory, contexts and descriptors go together and a call
that fails leaves nothing; `*rv` is always set if no descriptor with a context is closed. -/
theorem run_contexts (handles : ℕ → Bool) (zero full : Bool) (ops : List Op)
    (h : Every Steady (start handles zero full) ops) :
    Every (fun st op => Consistent (step st op).2 ∧ NoLeak st op) (start handles zero full) ops ∧
      ((∀ rv ∈ (run (start handles zero full) ops).emulated, rv ≠ none) ↔
        Every (fun st op => ¬ ClosesContext st op) (start handles zero full) ops) := by
  obtain ⟨hrun, hrv⟩ := run_inv (inv_start handles zero full) h
  refine ⟨hrun, hrv.trans (and_iff_right ?_)⟩
  intro rv hrv
  cases hrv

/-- The handles of a program at its start. -/
def standardHandles (fd : ℕ) : Bool := fd < 5

/-- DOS gives the handles 5 and 6 and `malloc` has memory. -/
def goodAnswers : Answers := ⟨some 5, some 6, some 100, true, true⟩

/-- `/dev/zero` is opened, duplicated and closed. -/
theorem run_contexts_dup :
    Every (fun st op => Consistent (step st op).2 ∧ NoLeak st op) (start standardHandles true true)
      [.open devZeroPath 0 goodAnswers, .dup 6 { goodAnswers with dup := some 7 }, .close 6] := by
  have hs : Every Steady (start standardHandles true true)
      [.open devZeroPath 0 goodAnswers, .dup 6 { goodAnswers with dup := some 7 }, .close 6] :=
    ⟨fun _ _ => ⟨by decide, .inr rfl⟩, fun _ => .inr (.inl rfl), trivial, trivial⟩
  exact (run_contexts standardHandles true true _ hs).1

/-- Without memory for the context an `open` fails, and its descriptor stays; `*rv` of a
`close` is not set. -/
theorem open_leaks_close_forgets :
    ¬ NoLeak (start standardHandles true true)
    (.open devZeroPath 0 { goodAnswers with malloc := none }) ∧
      (run (start standardHandles true true) [.open devZeroPath 0 goodAnswers, .close 6]).emulated =
        [some 6, none] := by
  refine ⟨fun h => ?_, by decide⟩
  have hfail : (step (start standardHandles true true)
      (.open devZeroPath 0 { goodAnswers with malloc := none })).1 = some (-1) := by decide
  have hnew := (h (by rw [hfail]; rintro ⟨n, hn⟩; simp at hn) 6).2 (by decide)
  exact absurd hnew (by decide)

end DjgppLibc.Fsext
