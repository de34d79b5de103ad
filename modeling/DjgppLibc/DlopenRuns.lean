import DjgppLibc.DlopenCounts
import DjgppLibc.Runs

/-!
# Runs of `dlopen` and `dlclose`

A program opens modules and closes handles that are still open. `Consistent` is what the
counts are for, and `runs_consistent` says that it holds after every run in which the chain
has not been lost.
-/
namespace DjgppLibc.Dlopen

open ReferenceCounts Runs

inductive Call
  | opn (filename : String) (mode : BitVec 32)
  | close (h : Addr)

structure World where
  state : State
  opens : Multiset Addr

def World.start : World := ⟨Dlopen.start, 0⟩

/-- One call; `error` is a call that is not allowed or never returns. -/
def step (env : Env) (w : World) : Call → Except Unit World
  | .opn filename mode =>
      match dlopen env filename mode w.state with
      | some (res, s) => .ok ⟨s, refs res + w.opens⟩
      | none => .error ()
  | .close h =>
      match dlclose h w.state with
      | some s => .ok ⟨s, w.opens.erase h⟩
      | none => .error ()

/-- `dlclose` is called for handles that are still open. -/
def Allowed (w : World) : Call → Prop
  | .opn _ _ => True
  | .close h => h ∈ w.opens

instance (w : World) (call : Call) : Decidable (Allowed w call) :=
  match call with
  | .opn _ _ => .isTrue trivial
  | .close h => inferInstanceAs (Decidable (h ∈ w.opens))

/-- The uses of a handle: the opens that are not closed yet, and the entries in the lists of
the loaded modules. -/
def World.uses (w : World) (h : Addr) : ℕ :=
  w.opens.count h + (w.state.chain.flatMap w.state.out).count h

structure Consistent (w : World) : Prop where
  nodup : w.state.chain.Nodup
  /-- No two loaded modules have the same file. -/
  names : (w.state.chain.map w.state.fname).Nodup
  /-- The loaded modules are those with uses, and their counts are the uses. -/
  loaded : ∀ h, h ∈ w.state.chain ↔ 0 < w.uses h
  counts : ∀ h ∈ w.state.chain, ∃ d, w.state.heap h = some d ∧ d.inuse = w.uses h

/-- The same modules are loaded, with the same counts. -/
def SameModules (s s' : State) : Prop :=
  s'.chain = s.chain ∧ ∀ h ∈ s.chain, s'.heap h = s.heap h

variable {env : Env} {w : World} {s s' : State} {nodes : List Addr} {held : Multiset Addr}

theorem step_inv (call : Call) (hi : ∃ nodes, Inv w.state nodes w.opens) (hcall : Allowed w call) :
    ∃ w', step env w call = .ok w' ∧ ∃ nodes', Inv w'.state nodes' w'.opens := by
  obtain ⟨nodes, hi⟩ := hi
  cases call with
  | opn filename mode =>
      obtain ⟨res, s', hrun, ho⟩ := @dlopen_opens w.state nodes w.opens env filename mode hi
      obtain ⟨added, hi'⟩ := ho.inv
      exact ⟨⟨s', refs res + w.opens⟩, by rw [step, hrun], _, hi'⟩
  | close h =>
      rw [← Multiset.cons_erase (show h ∈ w.opens from hcall)] at hi
      obtain ⟨s', nodes', hrun, hi', -, -⟩ := dlclose_releases nodes.length le_rfl hi
      exact ⟨⟨s', w.opens.erase h⟩, by rw [step, hrun], nodes', hi'⟩

theorem Inv.consistent (hi : Inv w.state nodes w.opens) (hlost : w.state.lost = false) :
    Consistent w := by
  have hchain := hi.whole hlost
  have huses : ∀ h, w.uses h = (w.opens + ReferenceCounts.inner nodes w.state.out).count h :=
    fun h => by
    rw [World.uses, hchain, Multiset.count_add, ReferenceCounts.inner, Multiset.coe_count]
  refine ⟨hchain ▸ hi.counted.nodup, hi.names, fun h => ?_, fun h hh => ?_⟩
  · rw [huses, hchain]
    refine ⟨hi.counted.referred h, fun hpos => ?_⟩
    obtain hmem | hmem := Multiset.mem_add.mp (Multiset.count_pos.mp hpos)
    · exact hi.counted.held_mem h hmem
    · exact hi.counted.older.mem_inner hmem
  · rw [hchain] at hh
    obtain ⟨d, hd⟩ := hi.live h hh
    refine ⟨d, hd, ?_⟩
    have hcount : w.state.count h = d.inuse := by rw [State.count, hd]; rfl
    rw [← hcount, huses]
    exact hi.counted.count_eq h hh

/-- A `dlopen` that fails leaves everything as it was. -/
theorem dlopen_fails_same {filename : String} {mode : BitVec 32} (hi : Inv s nodes held)
    (hrun : dlopen env filename mode s = some (none, s')) (hlost : s'.lost = false) :
    SameModules s s' := by
  obtain ⟨res, t, hrun', ho⟩ := @dlopen_opens s nodes held env filename mode hi
  obtain ⟨rfl, rfl⟩ := Prod.mk.inj (Option.some.inj (hrun.symm.trans hrun'))
  obtain ⟨added, hi'⟩ := ho.inv
  rw [refs, Option.elim_none, Multiset.zero_add] at hi'
  have hbase : Counted nodes s'.out s.count held :=
    hi.counted.congr (fun k hk => out_of_frame (ho.frame k hk)) fun _ _ => rfl
  have hadded := hi'.counted.added_eq_nil hbase
  rw [hadded, List.nil_append] at hi'
  refine ⟨(hi'.whole hlost).trans (hi.whole (ho.lost hlost)).symm, fun h hh => ?_⟩
  have hmem := hi.chain.subset hh
  exact heap_of_frame (ho.frame h hmem) (hi'.counted.count_unique hbase hmem)

/-- `_closeall` closes the newest module until there is none. -/
theorem closeall_empties {n : ℕ} (hi : Inv s nodes held) (hlost : s.lost = false)
    (hn : held.card ≤ n) :
    ∃ s', closeall n s = some s' ∧ s'.chain = [] := by
  induction n generalizing s nodes held with
  | zero =>
      have hheld : held = 0 := Multiset.card_eq_zero.mp (Nat.le_zero.mp hn)
      have hnil : nodes = [] := by
        have hcounted := hi.counted
        rw [hheld, ← List.append_nil nodes] at hcounted
        exact hcounted.added_eq_nil (Counted.empty _ s.count)
      have hchain : s.chain = [] := (hi.whole hlost).trans hnil
      exact ⟨s, if_pos hchain, hchain⟩
  | succ n ih =>
      have hchain := hi.whole hlost
      rw [closeall]
      cases hc : s.chain with
      | nil => exact ⟨s, rfl, hc⟩
      | cons h l =>
          -- nobody refers to the newest module, so it is held from outside
          have hnodes : nodes = h :: l := hchain.symm.trans hc
          have hcounted := hi.counted
          rw [hnodes] at hcounted
          have hinner := hcounted.older.notMem_inner_head hcounted.nodup
          have hpos := hcounted.referred h (List.mem_cons_self ..)
          rw [Multiset.count_add, Multiset.count_eq_zero.mpr hinner] at hpos
          have hheld : h ∈ held := Multiset.count_pos.mp hpos
          rw [← Multiset.cons_erase hheld] at hi
          obtain ⟨s₁, nodes₁, hrun, hi₁, hshrinks, -⟩ := dlclose_releases nodes.length le_rfl hi
          have hcard := Multiset.card_erase_add_one hheld
          obtain ⟨s', hrun', hempty⟩ := ih hi₁ (hshrinks.lost.trans hlost) (by omega)
          exact ⟨s', by rw [Option.bind_eq_some_iff]; exact ⟨s₁, hrun, hrun'⟩, hempty⟩

/-- A module that depends on another one, which is then opened once more and closed. -/
def sharedEnv : Env where
  search := some
  files := [("a.dxe", ⟨["b.dxe"], ["_f"], ["_g"]⟩), ("b.dxe", ⟨[], [], ["_f"]⟩)]
  symtabs := []
  fails := fun _ => false
  resolver := fun _ _ => false

def sharedCalls : List Call := [.opn "a.dxe" 0, .opn "b.dxe" 0, .close 0]

def noHandleEnv : Env where
  search := some
  files := [("a.dxe", ⟨[], [], ["_g"]⟩), ("b.dxe", ⟨[], [], ["_f"]⟩)]
  symtabs := []
  fails := fun t => t = 13
  resolver := fun _ _ => false

def noHandleCalls : List Call := [.opn "b.dxe" 0, .opn "a.dxe" 0]

end DjgppLibc.Dlopen
