import DjgppLibc.Dlopen

/-!
# The counts of the loaded modules

`Inv` says that the handles in memory are counted: `nodes` are all the handles that have
not been freed, which are those of the chain unless some have been lost, and `held` are the
references from outside of them, from callers and from lists that are not complete yet.
`dlclose` gives back one reference, and `dlopen` takes one, or none if it fails.
-/
namespace DjgppLibc.Dlopen

open ReferenceCounts

def State.out (s : State) (h : Addr) : List Addr := (s.heap h).elim [] Handle.deps

def State.count (s : State) (h : Addr) : ℤ := (s.heap h).elim 0 Handle.inuse

def State.fname (s : State) (h : Addr) : Option String := (s.heap h).map Handle.fname

def State.frame (s : State) (h : Addr) : Option Handle :=
  (s.heap h).map fun d => { d with inuse := 0 }

structure Inv (s : State) (nodes : List Addr) (held : Multiset Addr) : Prop where
  counted : Counted nodes s.out s.count held
  live : ∀ h ∈ nodes, ∃ d, s.heap h = some d
  below : ∀ h ∈ nodes, h < s.brk
  chain : s.chain.Sublist nodes
  whole : s.lost = false → s.chain = nodes
  names : (s.chain.map s.fname).Nodup

theorem start_inv : Inv start [] 0 where
  counted := Counted.empty _ _
  live := fun _ hh => absurd hh List.not_mem_nil
  below := fun _ hh => absurd hh List.not_mem_nil
  chain := List.Sublist.slnil
  whole := fun _ => rfl
  names := List.nodup_nil

variable {s s' : State} {nodes nodes' : List Addr} {held : Multiset Addr} {h : Addr}

theorem out_of_frame {s s' : State} (hf : s'.frame h = s.frame h) : s'.out h = s.out h := by
  have hout : ∀ s : State, s.out h = (s.frame h).elim [] Handle.deps := fun s => by
    rw [State.out, State.frame]
    cases s.heap h <;> rfl
  rw [hout, hout, hf]

theorem fname_of_frame {s s' : State} (hf : s'.frame h = s.frame h) : s'.fname h = s.fname h := by
  have hfname : ∀ s : State, s.fname h = (s.frame h).map Handle.fname := fun s => by
    rw [State.fname, State.frame]
    cases s.heap h <;> rfl
  rw [hfname, hfname, hf]

theorem heap_of_frame {s s' : State} (hf : s'.frame h = s.frame h) (hc : s'.count h = s.count h) :
    s'.heap h = s.heap h := by
  unfold State.frame at hf
  unfold State.count at hc
  cases hs : s.heap h with
  | none =>
      rw [hs] at hf
      exact Option.map_eq_none_iff.mp hf
  | some d =>
      rw [hs] at hf hc
      obtain ⟨d', hd', he⟩ := Option.map_eq_some_iff.mp hf
      rw [hd'] at hc ⊢
      cases d
      cases d'
      simp_all

theorem Inv.lt_brk_length (hi : Inv s nodes held) : nodes.length ≤ s.brk := by
  have hsub : nodes ⊆ List.range s.brk := fun k hk => List.mem_range.mpr (hi.below k hk)
  have hle := (List.subperm_of_subset hi.counted.nodup hsub).length_le
  rwa [List.length_range] at hle

theorem frame_store {d : Handle} (hd : s.heap h = some d) (n : ℤ) (k : Addr) :
    (s.store h { d with inuse := n }).frame k = s.frame k := by
  unfold State.frame State.store
  dsimp only
  split
  · next hk => rw [hk, hd]; rfl
  · rfl

theorem count_store (d : Handle) (k : Addr) :
    (s.store h d).count k = if k = h then d.inuse else s.count k := by
  unfold State.count State.store
  dsimp only
  split <;> rfl

theorem Inv.store {d : Handle} {held' : Multiset Addr} {n : ℤ} (hi : Inv s nodes held)
    (hd : s.heap h = some d)
    (hcounted : Counted nodes (s.store h { d with inuse := n }).out
      (s.store h { d with inuse := n }).count held') :
    Inv (s.store h { d with inuse := n }) nodes held' where
  counted := hcounted
  live := fun k hk => by
    obtain ⟨d', hd'⟩ := hi.live k hk
    show ∃ x, (if k = h then _ else s.heap k) = some x
    split
    · exact ⟨_, rfl⟩
    · exact ⟨d', hd'⟩
  below := hi.below
  chain := hi.chain
  whole := hi.whole
  names := by
    have hnames : (s.store h { d with inuse := n }).fname = s.fname :=
      funext fun k => fname_of_frame (frame_store hd n k)
    rw [hnames]
    exact hi.names

theorem Inv.congr (hi : Inv s nodes held) (hheap : ∀ k ∈ nodes, s'.heap k = s.heap k)
    (hchain : s'.chain = s.chain) (hbrk : s'.brk = s.brk) (hlost : s'.lost = s.lost) :
    Inv s' nodes held := by
  refine ⟨?_, fun k hk => ?_, fun k hk => hbrk ▸ hi.below k hk, hchain ▸ hi.chain, fun hl => ?_, ?_⟩
  · exact hi.counted.congr (fun k hk => by rw [State.out, hheap k hk]; rfl)
      fun k hk => by rw [State.count, hheap k hk]; rfl
  · rw [hheap k hk]
    exact hi.live k hk
  · rw [hchain]
    exact hi.whole (hlost ▸ hl)
  · have hnames : s.chain.map s'.fname = s.chain.map s.fname :=
      List.map_congr_left fun k hk => by rw [State.fname, hheap k (hi.chain.subset hk)]; rfl
    rw [hchain, hnames]
    exact hi.names

structure Shrinks (s : State) (nodes : List Addr) (s' : State) (nodes' : List Addr) : Prop where
  nodes : nodes'.Sublist nodes
  chain : s'.chain.Sublist s.chain
  brk : s'.brk = s.brk
  tick : s'.tick = s.tick
  lost : s'.lost = s.lost
  frame : ∀ k ∈ nodes', s'.frame k = s.frame k

theorem Shrinks.refl (s : State) (nodes : List Addr) : Shrinks s nodes s nodes :=
  ⟨List.Sublist.refl _, List.Sublist.refl _, rfl, rfl, rfl, fun _ _ => rfl⟩

theorem Shrinks.trans {s'' : State} {nodes'' : List Addr} (h₁ : Shrinks s nodes s' nodes')
    (h₂ : Shrinks s' nodes' s'' nodes'') : Shrinks s nodes s'' nodes'' where
  nodes := h₂.nodes.trans h₁.nodes
  chain := h₂.chain.trans h₁.chain
  brk := h₂.brk.trans h₁.brk
  tick := h₂.tick.trans h₁.tick
  lost := h₂.lost.trans h₁.lost
  frame := fun k hk => (h₂.frame k hk).trans (h₁.frame k (h₂.nodes.subset hk))

/-- The handles `base` were there before, and are held by `held₀`. -/
def Kept (base : List Addr) (held₀ : Multiset Addr) (s : State) (nodes : List Addr) : Prop :=
  ∃ added count₀, nodes = added ++ base ∧ Counted base s.out count₀ held₀

def Keeps (held : Multiset Addr) (s : State) (nodes : List Addr) (s' : State)
    (nodes' : List Addr) : Prop :=
  ∀ base held₀, held₀ ≤ held → Kept base held₀ s nodes → Kept base held₀ s' nodes'

theorem Kept.congr {base : List Addr} {held₀ : Multiset Addr} (hk : Kept base held₀ s nodes)
    (hout : ∀ k ∈ base, s'.out k = s.out k) : Kept base held₀ s' nodes := by
  obtain ⟨added, count₀, hnodes, hcounted⟩ := hk
  exact ⟨added, count₀, hnodes, hcounted.congr hout fun _ _ => rfl⟩

theorem Kept.subset {base : List Addr} {held₀ : Multiset Addr} (hk : Kept base held₀ s nodes) :
    ∀ k ∈ base, k ∈ nodes := by
  obtain ⟨added, -, rfl, -⟩ := hk
  exact fun k hk => List.mem_append_right added hk

/-- A function gives back one reference, with up to `n` handles. -/
def Releases (n : ℕ) (f : Addr → State → Option State) : Prop :=
  ∀ {s nodes held g}, nodes.length ≤ n → Inv s nodes (g ::ₘ held) →
    ∃ s' nodes', f g s = some s' ∧ Inv s' nodes' held ∧ Shrinks s nodes s' nodes' ∧
      Keeps held s nodes s' nodes'

/-- References that are given back one after the other. -/
theorem Releases.foldlM {n : ℕ} {f : Addr → State → Option State} (hf : Releases n f)
    (gs : List Addr) (hn : nodes.length ≤ n) (hi : Inv s nodes ((gs : Multiset Addr) + held)) :
    ∃ s' nodes', gs.foldlM (fun s g => f g s) s = some s' ∧ Inv s' nodes' held ∧
      Shrinks s nodes s' nodes' ∧ Keeps held s nodes s' nodes' := by
  induction gs generalizing s nodes with
  | nil =>
      rw [Multiset.coe_nil, Multiset.zero_add] at hi
      exact ⟨s, nodes, rfl, hi, .refl s nodes, fun _ _ _ h => h⟩
  | cons g gs ih =>
      rw [← Multiset.cons_coe, Multiset.cons_add] at hi
      obtain ⟨s₁, nodes₁, hrun₁, hi₁, hshrinks₁, hkeeps₁⟩ := hf hn hi
      obtain ⟨s', nodes', hrun', hi', hshrinks', hkeeps'⟩ :=
        ih (hshrinks₁.nodes.length_le.trans hn) hi₁
      refine ⟨s', nodes', ?_, hi', hshrinks₁.trans hshrinks', fun base held₀ hle hk => ?_⟩
      · rw [List.foldlM_cons, hrun₁]
        exact hrun'
      · refine hkeeps' base held₀ hle (hkeeps₁ base held₀ (hle.trans ?_) hk)
        exact Multiset.le_add_left _ _

theorem Inv.drop {d : Handle} (hi : Inv s nodes (h ::ₘ held)) (hd : s.heap h = some d)
    (hone : d.inuse = 1) :
    Inv { s with chain := s.chain.erase h } (nodes.erase h) ((d.deps : Multiset Addr) + held) where
  counted := by
    have hout : s.out h = d.deps := by rw [State.out, hd]; rfl
    rw [← hout]
    exact hi.counted.release_drop (by rw [State.count, hd]; exact hone)
  live := fun k hk => hi.live k (List.mem_of_mem_erase hk)
  below := fun k hk => hi.below k (List.mem_of_mem_erase hk)
  chain := hi.chain.erase h
  whole := fun hl => congrArg (·.erase h) (hi.whole hl)
  names := hi.names.sublist (List.Sublist.map _ List.erase_sublist)

theorem Keeps.drop {d : Handle} (hi : Inv s nodes (h ::ₘ held)) (hd : s.heap h = some d)
    (hone : d.inuse = 1) :
    Keeps held s nodes { s with chain := s.chain.erase h } (nodes.erase h) := by
  rintro base held₀ hle ⟨added, count₀, rfl, hcounted⟩
  obtain ⟨held₁, rfl⟩ := Multiset.le_iff_exists_add.mp hle
  have hcount : s.count h = 1 := by rw [State.count, hd]; exact hone
  have hbase : h ∉ base := by
    have hc := hi.counted
    rw [Multiset.add_comm] at hc
    exact hc.notMem_base hcounted hcount
  have hmem : h ∈ added := by
    have := hi.counted.held_mem h (Multiset.mem_cons_self h _)
    exact (List.mem_append.mp this).resolve_right hbase
  exact ⟨added.erase h, count₀, List.erase_append_left _ hmem, hcounted⟩

theorem closeHandle_releases (fuel : ℕ) : Releases fuel (closeHandle (fuel + 1)) := by
  induction fuel with
  | zero =>
      intro s nodes held g hn hi
      have hg := hi.counted.held_mem g (Multiset.mem_cons_self g held)
      rw [List.eq_nil_of_length_eq_zero (Nat.le_zero.mp hn)] at hg
      exact absurd hg List.not_mem_nil
  | succ fuel ih =>
      intro s nodes held g hn hi
      have hg := hi.counted.held_mem g (Multiset.mem_cons_self g held)
      obtain ⟨d, hd⟩ := hi.live g hg
      have hcount : s.count g = d.inuse := by rw [State.count, hd]; rfl
      have hframe := @frame_store s g d hd (d.inuse - 1)
      rw [closeHandle, hd]
      dsimp only
      by_cases hlast : d.inuse - 1 = 0
      · rw [if_neg (not_not.mpr hlast)]
        have hone : d.inuse = 1 := by omega
        have hgone : g ∉ nodes.erase g := hi.counted.nodup.not_mem_erase
        have hne : ∀ k ∈ nodes.erase g, k ≠ g := fun k hk he => hgone (he ▸ hk)
        -- the count that is stored belongs to no handle of the list any more
        have hi₁ : Inv { s.store g { d with inuse := d.inuse - 1 } with chain := s.chain.erase g }
            (nodes.erase g) ((d.deps : Multiset Addr) + held) :=
          (hi.drop hd hone).congr (fun k hk => if_neg (hne k hk)) rfl rfl rfl
        have hlen : (nodes.erase g).length ≤ fuel := by
          rw [List.length_erase_of_mem hg]
          omega
        obtain ⟨s₂, nodes₂, hrun, hi₂, hshrinks, hkeeps⟩ := ih.foldlM d.deps hlen hi₁
        have hne₂ : ∀ k ∈ nodes₂, k ≠ g := fun k hk => hne k (hshrinks.nodes.subset hk)
        have hfree : ∀ k ∈ nodes₂, (s₂.free g).heap k = s₂.heap k := fun k hk => if_neg (hne₂ k hk)
        refine ⟨s₂.free g, nodes₂, congrArg (Option.map _) hrun, hi₂.congr hfree rfl rfl rfl, ?_,
          ?_⟩
        · refine ⟨hshrinks.nodes.trans List.erase_sublist, hshrinks.chain.trans List.erase_sublist,
            hshrinks.brk, hshrinks.tick, hshrinks.lost, fun k hk => ?_⟩
          have hframe₂ : (s₂.free g).frame k = s₂.frame k := by rw [State.frame, hfree k hk]; rfl
          exact hframe₂.trans ((hshrinks.frame k hk).trans (hframe k))
        · intro base held₀ hle hk
          have hdrop := Keeps.drop hi hd hone base held₀ hle hk
          have hkept := hkeeps base held₀ hle (hdrop.congr fun k _ => out_of_frame (hframe k))
          exact hkept.congr fun k hk => by rw [State.out, hfree k (hkept.subset k hk)]; rfl
      · rw [if_pos hlast]
        have hcounted : Counted nodes s.out (s.store g { d with inuse := d.inuse - 1 }).count
            held := by
          refine hi.counted.release_keep (by rw [hcount]; omega) fun k _ => ?_
          rw [count_store]
          split
          · next he => rw [he, hcount]
          · rfl
        refine ⟨_, nodes, rfl, hi.store hd ?_, ?_, ?_⟩
        · exact hcounted.congr (fun k _ => out_of_frame (hframe k)) fun _ _ => rfl
        · exact ⟨List.Sublist.refl _, List.Sublist.refl _, rfl, rfl, rfl, fun k _ => hframe k⟩
        · exact fun base held₀ _ hk => hk.congr fun k _ => out_of_frame (hframe k)

theorem dlclose_releases (n : ℕ) : Releases n dlclose := by
  intro s nodes held g _ hi
  exact closeHandle_releases s.brk hi.lt_brk_length hi

variable {env : Env} {stk : List String}

/-- The reference that a `dlopen` returns. -/
def refs (res : Option Addr) : Multiset Addr := res.elim 0 fun h => {h}

/-- What `dlopen` leaves: it holds what it returns, and what was loaded before is still
there. It loads no module that is being loaded already. -/
structure Opens (stk : List String) (s : State) (nodes : List Addr) (held : Multiset Addr)
    (held' : Multiset Addr) (s' : State) : Prop where
  inv : ∃ added, Inv s' (added ++ nodes) (held' + held)
  frame : ∀ k ∈ nodes, s'.frame k = s.frame k
  lost : s'.lost = false → s.lost = false
  names : ∀ k ∈ s'.chain, k ∈ s.chain ∨ ∀ name ∈ stk, s'.fname k ≠ some name

theorem failsOneOf_eq (n : ℕ) (s : State) :
    ∃ t, (failsOneOf env n s).2 = { s with tick := t } := by
  induction n generalizing s with
  | zero => exact ⟨s.tick, rfl⟩
  | succ n ih =>
      rw [failsOneOf]
      split
      · exact ⟨_, rfl⟩
      · obtain ⟨t, ht⟩ := ih { s with tick := s.tick + 1 }
        exact ⟨t, ht⟩

theorem resolveAll_eq (symnames : List String) (s : State) :
    ∃ t, (resolveAll env symnames s).2 = { s with tick := t } := by
  induction symnames generalizing s with
  | nil => exact ⟨s.tick, rfl⟩
  | cons symname rest ih =>
      rw [resolveAll]
      split
      · exact ih s
      · obtain ⟨t, ht⟩ := ih { s with tick := s.tick + 1 }
        exact ⟨t, ht⟩

/-- `dlopen` has failed before it has changed anything. -/
theorem Opens.refl (stk : List String) (hi : Inv s nodes held) : Opens stk s nodes held 0 s :=
  ⟨⟨[], by simpa using hi⟩, fun _ _ => rfl, fun hl => hl, fun _ hk => .inl hk⟩

theorem Opens.tick {held' : Multiset Addr} (ho : Opens stk s nodes held held' s') (t : ℕ) :
    Opens stk s nodes held held' { s' with tick := t } := by
  obtain ⟨added, hi⟩ := ho.inv
  exact ⟨⟨added, hi.congr (fun _ _ => rfl) rfl rfl rfl⟩, ho.frame, ho.lost, ho.names⟩

theorem Opens.weaken {held' : Multiset Addr} {name : String}
    (ho : Opens (name :: stk) s nodes held held' s') : Opens stk s nodes held held' s' :=
  ⟨ho.inv, ho.frame, ho.lost, fun k hk =>
    (ho.names k hk).imp_right fun hn n hmem => hn n (List.mem_cons_of_mem name hmem)⟩

theorem Opens.trans {held₁ held₂ : Multiset Addr} {s₁ s₂ : State} {added : List Addr}
    (ho₁ : Opens stk s nodes held held₁ s₁) (hi₁ : Inv s₁ (added ++ nodes) (held₁ + held))
    (ho₂ : Opens stk s₁ (added ++ nodes) (held₁ + held) held₂ s₂) :
    Opens stk s nodes held (held₂ + held₁) s₂ := by
  obtain ⟨added₂, hi₂⟩ := ho₂.inv
  refine ⟨⟨added₂ ++ added, ?_⟩, fun k hk => ?_, fun hl => ho₁.lost (ho₂.lost hl), fun k hk => ?_⟩
  · rw [List.append_assoc, Multiset.add_assoc]
    exact hi₂
  · exact (ho₂.frame k (List.mem_append_right added hk)).trans (ho₁.frame k hk)
  · obtain hk | hk := ho₂.names k hk
    · rw [fname_of_frame (ho₂.frame k (hi₁.chain.subset hk))]
      exact ho₁.names k hk
    · exact .inr hk

theorem Opens.release {held' : Multiset Addr} {s₁ : State} (hi : Inv s nodes held) (gs : List Addr)
    (ho : Opens stk s nodes held ((gs : Multiset Addr) + held') s₁) :
    ∃ s', gs.foldlM (fun s g => dlclose g s) s₁ = some s' ∧ Opens stk s nodes held held' s' := by
  obtain ⟨added, hi₁⟩ := ho.inv
  rw [Multiset.add_assoc] at hi₁
  obtain ⟨s', nodes', hrun, hi', hshrinks, hkeeps⟩ :=
    Releases.foldlM (dlclose_releases (added ++ nodes).length) gs le_rfl hi₁
  have hkept : Kept nodes held s₁ (added ++ nodes) :=
    ⟨added, s.count, rfl, hi.counted.congr (fun k hk => out_of_frame (ho.frame k hk)) fun _ _ =>
      rfl⟩
  obtain ⟨added', -, rfl, -⟩ := hkeeps nodes held (Multiset.le_add_left _ _) hkept
  refine ⟨s', hrun, ⟨added', hi'⟩, fun k hk => ?_, fun hl => ho.lost (hshrinks.lost ▸ hl),
    fun k hk => ?_⟩
  · exact (hshrinks.frame k (List.mem_append_right added' hk)).trans (ho.frame k hk)
  · rw [fname_of_frame (hshrinks.frame k (hi'.chain.subset hk))]
    exact ho.names k (hshrinks.chain.subset hk)

theorem giveUp_opens {deps : List Addr} {s₁ : State} (hi : Inv s nodes held)
    (ho : Opens stk s nodes held deps s₁) :
    ∃ s', giveUp deps s₁ = some (none, s') ∧ Opens stk s nodes held 0 s' := by
  obtain ⟨s', hrun, ho'⟩ := Opens.release hi deps (by rw [Multiset.add_zero]; exact ho)
  exact ⟨s', by rw [giveUp, hrun]; rfl, ho'⟩

theorem loadDeps_opens {opn : String → State → Option (Option Addr × State)} (hi : Inv s nodes held)
    (hopn : ∀ name {s nodes held}, Inv s nodes held →
      ∃ res s', opn name s = some (res, s') ∧ Opens stk s nodes held (refs res) s')
    (names : List String) {deps : List Addr} {s₁ : State} (ho : Opens stk s nodes held deps s₁) :
    ∃ ok deps' s', loadDeps env opn names deps s₁ = some (ok, deps', s') ∧
      Opens stk s nodes held deps' s' := by
  induction names generalizing deps s₁ with
  | nil => exact ⟨true, deps, s₁, rfl, ho⟩
  | cons name names ih =>
      obtain ⟨added, hi₁⟩ := ho.inv
      obtain ⟨res, s₂, hrun, ho₂⟩ := hopn name hi₁
      have hboth := ho.trans hi₁ ho₂
      rw [loadDeps, hrun]
      cases res with
      | none =>
          exact ⟨false, deps, s₂, rfl, by rwa [refs, Option.elim_none, Multiset.zero_add] at hboth⟩
      | some h =>
          obtain ⟨t, ht⟩ := @failsOneOf_eq env 1 s₂
          have hsnd := hboth.tick t
          rw [← ht] at hsnd
          dsimp only
          split
          · next s₃ heq =>
            rw [heq] at hsnd
            have hheld : refs (some h) + (deps : Multiset Addr) =
              (([h] : List Addr) : Multiset Addr) + deps := rfl
            rw [hheld] at hsnd
            obtain ⟨s', hclose, ho'⟩ := hsnd.release hi [h]
            have hone : dlclose h s₃ = some s' := by
              rw [List.foldlM_cons] at hclose
              simpa using hclose
            exact ⟨false, deps, s', by rw [hone]; rfl, ho'⟩
          · next s₃ heq =>
            rw [heq] at hsnd
            refine ih ?_
            have hlist : ((deps ++ [h] : List Addr) : Multiset Addr) =
                refs (some h) + (deps : Multiset Addr) := by
              rw [Multiset.add_comm, ← Multiset.coe_add]
              rfl
            rw [hlist]
            exact hsnd

theorem Inv.push {d : Handle} (hi : Inv s nodes ((d.deps : Multiset Addr) + held))
    (hone : d.inuse = 1)
    (hname : ∀ k ∈ s.chain, s.fname k ≠ some d.fname) :
    Inv (s.push d) (s.brk :: nodes) (s.brk ::ₘ held) := by
  have hnew : s.brk ∉ nodes := fun hmem => lt_irrefl _ (hi.below _ hmem)
  have hheap : ∀ k ∈ nodes, (s.push d).heap k = s.heap k := by
    intro k hk
    have hne : k ≠ s.brk := fun he => hnew (he ▸ hk)
    exact if_neg hne
  have hbrk : (s.push d).heap s.brk = some d := if_pos rfl
  refine ⟨?_, fun k hk => ?_, fun k hk => ?_, hi.chain.cons_cons _, fun hl => ?_, ?_⟩
  · refine Counted.add ?_ hnew (by rw [State.count, hbrk]; exact hone)
    have hout : (s.push d).out s.brk = d.deps := by rw [State.out, hbrk]; rfl
    rw [hout]
    exact hi.counted.congr (fun k hk => by rw [State.out, hheap k hk]; rfl)
      fun k hk => by rw [State.count, hheap k hk]; rfl
  · obtain rfl | hk := List.mem_cons.mp hk
    · exact ⟨d, hbrk⟩
    · rw [hheap k hk]
      exact hi.live k hk
  · obtain rfl | hk := List.mem_cons.mp hk
    · exact Nat.lt_succ_self _
    · exact (hi.below k hk).trans (Nat.lt_succ_self _)
  · exact congrArg (s.brk :: ·) (hi.whole hl)
  · have hnames : s.chain.map (s.push d).fname = s.chain.map s.fname :=
      List.map_congr_left fun k hk => by rw [State.fname, hheap k (hi.chain.subset hk)]; rfl
    show ((s.push d).fname s.brk :: s.chain.map (s.push d).fname).Nodup
    rw [hnames, List.nodup_cons, State.fname, hbrk]
    refine ⟨fun hmem => ?_, hi.names⟩
    obtain ⟨k, hk, he⟩ := List.mem_map.mp hmem
    exact hname k hk he

theorem link_opens {file : ModuleFile} {realfn : String} {mode : BitVec 32} {deps : List Addr}
    {s₁ : State} (hi : Inv s nodes held) (hstk : realfn ∉ stk)
    (hnew : ∀ k ∈ s.chain, s.fname k ≠ some realfn)
    (ho : Opens (realfn :: stk) s nodes held deps s₁) :
    ∃ res s', link env file realfn mode deps s₁ = some (res, s') ∧
      Opens stk s nodes held (refs res) s' := by
  have hgive : ∀ {s₂}, Opens (realfn :: stk) s nodes held deps s₂ →
      ∃ res s', giveUp deps s₂ = some (res, s') ∧ Opens stk s nodes held (refs res) s' := by
    intro s₂ ho₂
    obtain ⟨s', hrun, ho'⟩ := giveUp_opens hi ho₂
    exact ⟨none, s', hrun, ho'.weaken⟩
  obtain ⟨t₂, ht₂⟩ := @resolveAll_eq env file.unres s₁
  have ho₂ := ho.tick t₂
  rw [← ht₂] at ho₂
  unfold link
  generalize resolveAll env file.unres s₁ = resolved at ho₂
  obtain ⟨unresolved, s₂⟩ := resolved
  dsimp only at ho₂ ⊢
  split
  · exact hgive ho₂
  obtain ⟨t₃, ht₃⟩ := @failsOneOf_eq env 1 s₂
  have ho₃ := ho₂.tick t₃
  rw [← ht₃] at ho₃
  split
  · next s₃ heq =>
    rw [heq] at ho₃
    exact hgive ho₃
  next s₃ heq =>
  rw [heq] at ho₃
  obtain ⟨t₄, ht₄⟩ := @failsOneOf_eq env 1 s₃
  have ho₄ := ho₃.tick t₄
  rw [← ht₄] at ho₄
  split
  · -- the chain is gone, but not the handles
    next s₄ heq₄ =>
    rw [heq₄] at ho₄
    obtain ⟨added, hi₄⟩ := ho₄.inv
    refine hgive ⟨⟨added, hi₄.counted, hi₄.live, hi₄.below, List.nil_sublist _, fun hl => ?_,
      List.nodup_nil⟩, ho₄.frame, fun hl => ?_, fun k hk => absurd hk List.not_mem_nil⟩
    · obtain ⟨hlost, hempty⟩ := Bool.or_eq_false_iff.mp hl
      rw [← hi₄.whole hlost]
      exact (List.isEmpty_iff.mp (by simpa using hempty)).symm
    · exact ho₄.lost (Bool.or_eq_false_iff.mp hl).1
  · next s₄ heq₄ =>
    rw [heq₄] at ho₄
    obtain ⟨added, hi₄⟩ := ho₄.inv
    have hname : ∀ k ∈ s₄.chain, s₄.fname k ≠ some realfn := by
      intro k hk
      obtain hmem | hne := ho₄.names k hk
      · rw [fname_of_frame (ho₄.frame k (hi.chain.subset hmem))]
        exact hnew k hmem
      · exact hne realfn (List.mem_cons_self ..)
    have hpush := @Inv.push s₄ (added ++ nodes) held ⟨realfn, mode, 1, file.exports,
      deps⟩ hi₄ rfl hname
    have hheap : ∀ k ∈ added ++ nodes, k ≠ s₄.brk := fun k hk he => lt_irrefl _
      (he ▸ hi₄.below k hk)
    refine ⟨some s₄.brk, _, rfl, ⟨s₄.brk :: added, ?_⟩, fun k hk => ?_, ho₄.lost, fun k hk => ?_⟩
    · rw [refs, Option.elim_some, Multiset.singleton_add]
      exact hpush
    · rw [← ho₄.frame k hk, State.frame, State.frame]
      exact congrArg _ (if_neg (hheap k (List.mem_append_right added hk)))
    · obtain rfl | hk := List.mem_cons.mp hk
      · refine .inr fun name hmem he => hstk ?_
        have hfname : (s₄.push ⟨realfn, mode, 1, file.exports, deps⟩).fname s₄.brk = some realfn :=
          congrArg (Option.map Handle.fname) (if_pos rfl)
        rw [hfname] at he
        exact Option.some.inj he ▸ hmem
      · have hfname : (s₄.push ⟨realfn, mode, 1, file.exports, deps⟩).fname k = s₄.fname k :=
          congrArg (Option.map Handle.fname) (if_neg (hheap k (hi₄.chain.subset hk)))
        rw [hfname]
        exact ho₄.weaken.names k hk

/-- The files that are not being loaded. -/
def filesLeft (env : Env) (stk : List String) : ℕ :=
  ((env.files.map Prod.fst).filter fun name => name ∉ stk).length

theorem filesLeft_cons {realfn : String} (hfile : realfn ∈ env.files.map Prod.fst)
    (hstk : realfn ∉ stk) :
    filesLeft env (realfn :: stk) < filesLeft env stk := by
  have hfilter : (env.files.map Prod.fst).filter (fun name => name ∉ realfn :: stk) =
      ((env.files.map Prod.fst).filter fun name => name ∉ stk).filter fun name => name ≠
        realfn := by
    rw [List.filter_filter]
    refine List.filter_congr fun name _ => ?_
    simp [not_or]
  rw [filesLeft, filesLeft, hfilter]
  refine List.length_filter_lt_length_iff_exists.mpr ⟨realfn, ?_, by simp⟩
  exact List.mem_filter.mpr ⟨hfile, by simpa using hstk⟩

theorem mem_of_lookup {realfn : String} {file : ModuleFile} (h : env.files.lookup realfn =
      some file) :
    realfn ∈ env.files.map Prod.fst := by
  obtain ⟨l₁, l₂, hfiles, -⟩ := List.lookup_eq_some_iff.mp h
  rw [hfiles]
  simp

/-- A module that is there already gets one more use. -/
theorem Inv.addUse {d : Handle} (hi : Inv s nodes held) (hh : h ∈ nodes) (hd : s.heap h = some d) :
    Inv (s.store h { d with inuse := d.inuse + 1 }) nodes (h ::ₘ held) := by
  refine hi.store hd ?_
  have hframe := @frame_store s h d hd (d.inuse + 1)
  have hcounted : Counted nodes s.out (s.store h { d with inuse := d.inuse + 1 }).count
      (h ::ₘ held) := by
    refine hi.counted.acquire hh fun k _ => ?_
    rw [count_store]
    split
    · next he => rw [he, State.count, hd]; rfl
    · rfl
  exact hcounted.congr (fun k _ => out_of_frame (hframe k)) fun _ _ => rfl

/-- `dlopen` returns, and takes one reference to what it returns. -/
theorem openModule_opens (fuel : ℕ) {stk : List String} {s : State} {nodes : List Addr}
    {held : Multiset Addr} (filename : String) (mode : BitVec 32) (hi : Inv s nodes held)
    (hfuel : filesLeft env stk < fuel) :
    ∃ res s', openModule env fuel stk filename mode s = some (res, s') ∧
      Opens stk s nodes held (refs res) s' := by
  induction fuel generalizing stk s nodes held filename mode with
  | zero => exact absurd hfuel (Nat.not_lt_zero _)
  | succ fuel ih =>
      have hfail : ∃ res s', some (none, s) = some (res, s') ∧
        Opens stk s nodes held (refs res) s' :=
        ⟨none, s, rfl, .refl stk hi⟩
      rw [openModule]
      split
      · exact hfail
      next realfn hsearch =>
      split
      · exact hfail
      next hstk =>
      split
      · next cur hfind =>
        have hcur : cur ∈ nodes := hi.chain.subset (List.mem_of_find?_eq_some hfind)
        obtain ⟨d, hd⟩ := hi.live cur hcur
        rw [hd]
        refine ⟨some cur, _, rfl, ⟨[], ?_⟩, fun k _ => frame_store hd _ k, fun hl => hl,
          fun k hk => .inl hk⟩
        rw [refs, Option.elim_some, Multiset.singleton_add]
        exact hi.addUse hcur hd
      next hfind =>
      split
      · exact hfail
      next file hfile =>
      obtain ⟨t, ht⟩ := @failsOneOf_eq env 5 s
      have ho := (Opens.refl (realfn :: stk) hi).tick t
      rw [← ht] at ho
      have hnew : ∀ k ∈ s.chain, s.fname k ≠ some realfn := by
        intro k hk hname
        refine List.find?_eq_none.mp hfind k hk ?_
        obtain ⟨d, hd, rfl⟩ := Option.map_eq_some_iff.mp hname
        simp [hd]
      split
      · next s₁ heq =>
        rw [heq] at ho
        exact ⟨none, s₁, rfl, ho.weaken⟩
      next s₁ heq =>
      rw [heq] at ho
      have hleft := filesLeft_cons (mem_of_lookup hfile) hstk
      obtain ⟨ok, deps, s₂, hload, ho₂⟩ := @loadDeps_opens s nodes held env (realfn :: stk)
        (fun name s => openModule env fuel (realfn :: stk) name RTLD_GLOBAL s) hi
        (fun name {_ _ _} hi' => ih name RTLD_GLOBAL hi' (by omega)) file.deps [] s₁ ho
      dsimp only
      rw [hload]
      cases ok with
      | false =>
          obtain ⟨s', hrun, ho'⟩ := giveUp_opens hi ho₂
          exact ⟨none, s', hrun, ho'.weaken⟩
      | true => exact link_opens hi hstk hnew ho₂

/-- `dlopen` returns, and takes one reference to what it returns. -/
theorem dlopen_opens (filename : String) (mode : BitVec 32) (hi : Inv s nodes held) :
    ∃ res s', dlopen env filename mode s = some (res, s') ∧ Opens [] s nodes held
    (refs res) s' := by
  refine openModule_opens _ filename mode hi ?_
  refine (List.length_filter_le _ _).trans_lt ?_
  rw [List.length_map]
  exact Nat.lt_succ_self _

end DjgppLibc.Dlopen
