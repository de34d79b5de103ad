import DjgppLibc.DlopenRuns

/-!
# Which modules can be loaded

When nothing else fails, `dlopen` fails for an undefined symbol that is not found. The
modules that one call has to load are known before: `loadOrder` goes through the lists of
dependencies and leaves out what is loaded. `Resolved` says that the symbols of each of them
are found, in what was loaded before the call with `RTLD_GLOBAL`, or in what the call has
loaded before it.

A dependency that is there already in another mode is not made visible.
-/
namespace DjgppLibc.Dlopen

open Runs

variable (env : Env)

def Env.exportsOf (name : String) : List String :=
  (env.files.lookup name).elim [] ModuleFile.exports

def Env.unresOf (name : String) : List String :=
  (env.files.lookup name).elim [] ModuleFile.unres

def DependsOn (name target : String) : Prop :=
  ∃ file, env.files.lookup name = some file ∧ ∃ dep ∈ file.deps, env.search dep = some target

/-- The files of the modules are there, and no module depends on itself. -/
structure WellFormed : Prop where
  files : ∀ name file, env.files.lookup name = some file →
    ∀ dep ∈ file.deps, ∃ target, env.search dep = some target ∧ (env.files.lookup target).isSome
  acyclic : ∀ name, ¬ Relation.TransGen (DependsOn env) name name

def SelfContained : Prop :=
  ∀ name, ∀ symname ∈ env.unresOf name, ∃ target, DependsOn env name target ∧
    symname ∈ env.exportsOf target

/-- The modules that are loaded for a name, newest first, on top of `new`. -/
def loadOrder (loaded : List String) : ℕ → List String → String → List String
  | 0, new, _ => new
  | fuel + 1, new, name =>
      match env.search name with
      | none => new
      | some realfn =>
          if realfn ∈ new ++ loaded then new
          else
            match env.files.lookup realfn with
            | none => new
            | some file => realfn :: file.deps.foldl (loadOrder loaded fuel) new

def State.loaded (s : State) : List String := s.chain.filterMap s.fname

/-- A symbol is found in the state before the call, or in the modules that are new. -/
def Found (s : State) (new : List String) (symname : String) : Prop :=
  dlsym env s symname ∨ ∃ name ∈ new, symname ∈ env.exportsOf name

def Resolved (s : State) : List String → Prop
  | [] => True
  | name :: new => (∀ symname ∈ env.unresOf name, Found env s new symname) ∧ Resolved s new

/-- The condition for `dlopen`, on the state before it. -/
def Resolvable (s : State) (filename : String) : Prop :=
  Resolved env s (loadOrder env s.loaded (env.files.length + 1) [] filename)

/-- `new` are the modules that were loaded after the state `s`. -/
structure Loading (s : State) (new : List String) (s' : State) : Prop where
  chain : ∃ added, s'.chain = added ++ s.chain ∧ added.map s'.fname = new.map some ∧
    ∀ h ∈ added, ∀ d, s'.heap h = some d → d.mode &&& RTLD_GLOBAL ≠ 0 ∧
      d.exports = env.exportsOf d.fname
  frame : ∀ h ∈ s.chain, s'.frame h = s.frame h
  below : ∀ h ∈ s'.chain, h < s'.brk

variable {env} {s s' : State} {new : List String}

theorem Loading.start (hbelow : ∀ h ∈ s.chain, h < s.brk) : Loading env s [] s :=
  ⟨⟨[], rfl, rfl, fun _ hh => absurd hh List.not_mem_nil⟩, fun _ _ => rfl, hbelow⟩

theorem Loading.tick (hl : Loading env s new s') (t : ℕ) :
    Loading env s new { s' with tick := t } :=
  ⟨hl.chain, hl.frame, hl.below⟩

def Provides (s : State) (symname : String) (h : Addr) : Prop :=
  ∃ d, s.heap h = some d ∧ d.mode &&& RTLD_GLOBAL ≠ 0 ∧ symname ∈ d.exports

theorem dlsym_iff {symname : String} :
    dlsym env s symname = true ↔ symname ∈ env.symtabs ∨ ∃ h ∈ s.chain, Provides s symname h := by
  unfold dlsym Provides
  simp [Option.any_eq_true]

theorem provides_of_frame {h : Addr} {symname : String} (hf : s'.frame h = s.frame h)
    (hp : Provides s symname h) : Provides s' symname h := by
  obtain ⟨d, hd, hmode, hsym⟩ := hp
  rw [State.frame, State.frame, hd] at hf
  obtain ⟨d', hd', he⟩ := Option.map_eq_some_iff.mp hf
  obtain ⟨-, hm, -, hx, -⟩ := Handle.mk.inj he
  exact ⟨d', hd', hm ▸ hmode, hx ▸ hsym⟩

/-- `dlsym` during the call. -/
theorem Loading.dlsym_iff_found (hl : Loading env s new s') (symname : String) :
    dlsym env s' symname = true ↔ Found env s new symname := by
  obtain ⟨added, hchain, hnames, hnew⟩ := hl.chain
  rw [Found, dlsym_iff, dlsym_iff, hchain, or_assoc]
  refine or_congr_right ?_
  constructor
  · rintro ⟨h, hh, hp⟩
    obtain hh | hh := List.mem_append.mp hh
    · obtain ⟨d, hd, -, hsym⟩ := hp
      rw [(hnew h hh d hd).2] at hsym
      have hname : some d.fname ∈ new.map some := by
        rw [← hnames]
        exact List.mem_map.mpr ⟨h, hh, by rw [State.fname, hd]; rfl⟩
      exact .inr ⟨d.fname, by simpa using hname, hsym⟩
    · exact .inl ⟨h, hh, provides_of_frame (hl.frame h hh).symm hp⟩
  · rintro (⟨h, hh, hp⟩ | ⟨name, hname, hsym⟩)
    · exact ⟨h, List.mem_append_right _ hh, provides_of_frame (hl.frame h hh) hp⟩
    · have hmem : some name ∈ added.map s'.fname := by
        rw [hnames]
        exact List.mem_map.mpr ⟨name, hname, rfl⟩
      obtain ⟨h, hh, hfname⟩ := List.mem_map.mp hmem
      obtain ⟨d, hd, rfl⟩ := Option.map_eq_some_iff.mp hfname
      obtain ⟨hmode, hexports⟩ := hnew h hh d hd
      exact ⟨h, List.mem_append_left _ hh, d, hd, hmode, hexports ▸ hsym⟩

theorem Loading.mem_names_iff (hl : Loading env s new s') (name : String) :
    (∃ h ∈ s'.chain, s'.fname h = some name) ↔ name ∈ new ++ s.loaded := by
  obtain ⟨added, hchain, hnames, -⟩ := hl.chain
  have hnew : (∃ h ∈ added, s'.fname h = some name) ↔ name ∈ new := by
    rw [← List.mem_map, hnames]
    simp
  have hold : (∃ h ∈ s.chain, s'.fname h = some name) ↔ name ∈ s.loaded := by
    rw [State.loaded, List.mem_filterMap]
    refine exists_congr fun h => and_congr_right fun hh => ?_
    rw [fname_of_frame (hl.frame h hh)]
  rw [List.mem_append, ← hnew, ← hold, hchain]
  simp only [List.mem_append, or_and_right, exists_or]

theorem Loading.store {h : Addr} {d : Handle} (hl : Loading env s new s') (hd : s'.heap h = some d)
    (n : ℤ) : Loading env s new (s'.store h { d with inuse := n }) := by
  have hframe := @frame_store s' h d hd n
  obtain ⟨added, hchain, hnames, hnew⟩ := hl.chain
  refine ⟨⟨added, hchain, ?_, fun k hk d' hd' => ?_⟩, fun k hk => (hframe k).trans (hl.frame k hk),
    hl.below⟩
  · rw [← hnames]
    exact List.map_congr_left fun k _ => fname_of_frame (hframe k)
  · unfold State.store at hd'
    dsimp only at hd'
    split at hd'
    · next he =>
      obtain rfl := Option.some.inj hd'
      exact hnew h (he ▸ hk) d hd
    · exact hnew k hk d' hd'

theorem Loading.push {d : Handle} (hl : Loading env s new s') (hmode : d.mode &&& RTLD_GLOBAL ≠ 0)
    (hexports : d.exports = env.exportsOf d.fname) : Loading env s (d.fname :: new)
    (s'.push d) := by
  obtain ⟨added, hchain, hnames, hnew⟩ := hl.chain
  have hheap : ∀ k ∈ s'.chain, (s'.push d).heap k = s'.heap k := fun k hk =>
    if_neg fun he => lt_irrefl _ (he ▸ hl.below k hk)
  have hbrk : (s'.push d).heap s'.brk = some d := if_pos rfl
  rw [hchain] at hheap
  refine ⟨⟨s'.brk :: added, ?_, ?_, fun k hk d' hd' => ?_⟩, fun k hk => ?_, fun k hk => ?_⟩
  · exact congrArg (s'.brk :: ·) hchain
  · rw [List.map_cons, List.map_cons, State.fname, hbrk, ← hnames]
    refine congrArg (some d.fname :: ·) (List.map_congr_left fun k hk => ?_)
    rw [State.fname, hheap k (List.mem_append_left _ hk)]
    rfl
  · obtain rfl | hk := List.mem_cons.mp hk
    · rw [hbrk] at hd'
      obtain rfl := Option.some.inj hd'
      exact ⟨hmode, hexports⟩
    · rw [hheap k (List.mem_append_left _ hk)] at hd'
      exact hnew k hk d' hd'
  · rw [State.frame, hheap k (List.mem_append_right _ hk)]
    exact hl.frame k hk
  · obtain rfl | hk := List.mem_cons.mp hk
    · exact Nat.lt_succ_self _
    · exact (hl.below k hk).trans (Nat.lt_succ_self _)

theorem resolveAll_eq_zero {symnames : List String} (h : ∀ symname ∈ symnames,
      dlsym env s symname = true) :
    (resolveAll env symnames s).1 = 0 := by
  induction symnames with
  | nil => rfl
  | cons symname rest ih =>
      rw [resolveAll, if_pos (h symname (List.mem_cons_self ..))]
      exact ih fun k hk => h k (List.mem_cons_of_mem symname hk)

theorem dlsym_of_resolveAll (hresolver : ∀ t symname, env.resolver t symname = false)
    {symnames : List String} (h : (resolveAll env symnames s).1 = 0) :
    ∀ symname ∈ symnames, dlsym env s symname = true := by
  induction symnames generalizing s with
  | nil => exact fun _ hk => absurd hk List.not_mem_nil
  | cons symname rest ih =>
      rw [resolveAll] at h
      by_cases hsym : dlsym env s symname = true
      · rw [if_pos hsym] at h
        exact List.forall_mem_cons.mpr ⟨hsym, ih h⟩
      · rw [if_neg hsym, hresolver] at h
        exact absurd h (Nat.succ_ne_zero _)

theorem Resolved.of_suffix {new' : List String} (hsuffix : new <:+ new') (h : Resolved env s new') :
    Resolved env s new := by
  induction new' with
  | nil =>
      rw [List.suffix_nil.mp hsuffix]
      trivial
  | cons name new' ih =>
      obtain rfl | hsuffix := List.suffix_cons_iff.mp hsuffix
      · exact h
      · exact ih hsuffix h.2

theorem suffix_foldl {order : List String → String → List String}
    (horder : ∀ new name, new <:+ order new name)
    (names new : List String) : new <:+ names.foldl order new := by
  induction names generalizing new with
  | nil => exact List.suffix_rfl
  | cons name names ih => exact (horder new name).trans (ih (order new name))

theorem suffix_loadOrder (loaded : List String) (fuel : ℕ) (new : List String) (name : String) :
    new <:+ loadOrder env loaded fuel new name := by
  induction fuel generalizing new name with
  | zero => exact List.suffix_rfl
  | succ fuel ih =>
      rw [loadOrder]
      split
      · exact List.suffix_rfl
      split
      · exact List.suffix_rfl
      split
      · exact List.suffix_rfl
      · exact (suffix_foldl ih _ new).trans (List.suffix_cons ..)

theorem failsOneOf_of_not (hfails : ∀ t, env.fails t = false) (n : ℕ) (s : State) :
    failsOneOf env n s = (false, { s with tick := s.tick + n }) := by
  induction n generalizing s with
  | zero => rfl
  | succ n ih =>
      rw [failsOneOf, hfails, if_neg Bool.false_ne_true, ih]
      exact congrArg (fun t => (false, { s with tick := t })) (Nat.add_right_comm ..)

/-- A part of the call that makes `new` to `new'` succeeds if and only if the symbols are
found. -/
structure Outcome (env : Env) (s : State) (new new' : List String) (ok : Bool) : Prop where
  succeeds : Resolved env s new' → ok = true
  resolved : (∀ t symname, env.resolver t symname = false) → Resolved env s new → ok = true →
    Resolved env s new'

theorem loadDeps_outcome (hfails : ∀ t, env.fails t = false)
    {opn : String → State → Option (Option Addr × State)} {order : List String → String →
      List String}
    (horder : ∀ new name, new <:+ order new name) {names : List String}
    (hopn : ∀ name ∈ names, ∀ {new s₁ res s₂}, Loading env s new s₁ → opn name s₁ = some (res, s₂) →
      Outcome env s new (order new name) res.isSome ∧
        (res.isSome = true → Loading env s (order new name) s₂))
    {deps deps' : List Addr} {s₁ s₂ : State} {ok : Bool} (hl : Loading env s new s₁)
    (hrun : loadDeps env opn names deps s₁ = some (ok, deps', s₂)) :
    Outcome env s new (names.foldl order new) ok ∧
      (ok = true → Loading env s (names.foldl order new) s₂) := by
  induction names generalizing new deps s₁ with
  | nil =>
      obtain ⟨rfl, -, rfl⟩ : true = ok ∧ deps = deps' ∧ s₁ = s₂ := by simpa [loadDeps] using hrun
      exact ⟨⟨fun _ => rfl, fun _ h _ => h⟩, fun _ => hl⟩
  | cons name names ih =>
      rw [loadDeps] at hrun
      cases hone : opn name s₁ with
      | none =>
          rw [hone] at hrun
          cases hrun
      | some out =>
          obtain ⟨res, s₃⟩ := out
          obtain ⟨hout, hload⟩ := hopn name (List.mem_cons_self ..) hl hone
          rw [hone] at hrun
          cases res with
          | none =>
              obtain ⟨rfl, -, -⟩ : false = ok ∧ deps = deps' ∧ s₃ = s₂ := by simpa using hrun
              refine ⟨⟨fun h => ?_, fun _ _ h => absurd h Bool.false_ne_true⟩,
                fun h => absurd h Bool.false_ne_true⟩
              exact hout.succeeds (h.of_suffix (suffix_foldl horder names _))
          | some h =>
              dsimp only at hrun
              rw [failsOneOf_of_not hfails] at hrun
              obtain ⟨hout', hload'⟩ := ih (fun name hname =>
                hopn name (List.mem_cons_of_mem _ hname))
                ((hload rfl).tick _) hrun
              exact ⟨⟨hout'.succeeds, fun hres hnew hok =>
                hout'.resolved hres (hout.resolved hres hnew rfl) hok⟩, hload'⟩

theorem giveUp_eq_none {deps : List Addr} {s₁ s₂ : State} {res : Option Addr}
    (hrun : giveUp deps s₁ = some (res, s₂)) : res = none := by
  obtain ⟨_, _, he⟩ := Option.map_eq_some_iff.mp hrun
  exact (Prod.mk.inj he).1.symm

theorem link_outcome (hfails : ∀ t, env.fails t = false) {file : ModuleFile} {realfn : String}
    (hfile : env.files.lookup realfn = some file) {mode : BitVec 32} {deps : List Addr}
    {s₁ s₂ : State}
    {res : Option Addr} (hl : Loading env s new s₁)
    (hrun : link env file realfn mode deps s₁ = some (res, s₂)) :
    Outcome env s new (realfn :: new) res.isSome ∧
      (res.isSome = true → mode &&& RTLD_GLOBAL ≠ 0 → Loading env s (realfn :: new) s₂) := by
  have hunres : env.unresOf realfn = file.unres := by rw [Env.unresOf, hfile]; rfl
  have hexports : env.exportsOf realfn = file.exports := by rw [Env.exportsOf, hfile]; rfl
  obtain ⟨t, ht⟩ := @resolveAll_eq env file.unres s₁
  have hzero := @resolveAll_eq_zero env s₁ file.unres
  have hfound := fun hres => @dlsym_of_resolveAll env s₁ hres file.unres
  unfold link at hrun
  generalize resolveAll env file.unres s₁ = resolved at hrun ht hzero hfound
  obtain ⟨unresolved, s₃⟩ := resolved
  obtain rfl : s₃ = { s₁ with tick := t } := ht
  dsimp only at hrun hzero hfound
  by_cases hu : unresolved = 0
  · rw [if_neg (not_not.mpr hu), failsOneOf_of_not hfails] at hrun
    dsimp only at hrun
    rw [failsOneOf_of_not hfails] at hrun
    obtain ⟨rfl, rfl⟩ := Prod.mk.inj (Option.some.inj hrun)
    refine ⟨⟨fun _ => rfl, fun hres hnew _ => ⟨fun symname hsym => ?_, hnew⟩⟩, fun _ hmode => ?_⟩
    · rw [hunres] at hsym
      exact (hl.dlsym_iff_found symname).mp (hfound hres hu symname hsym)
    · exact (hl.tick _).push (d := ⟨realfn, mode, 1, file.exports, deps⟩) hmode hexports.symm
  · rw [if_pos hu] at hrun
    obtain rfl := giveUp_eq_none hrun
    refine ⟨⟨fun h => absurd (hzero fun symname hsym => ?_) hu,
      fun _ _ h => absurd h Bool.false_ne_true⟩,
      fun h => absurd h Bool.false_ne_true⟩
    rw [← hunres] at hsym
    exact (hl.dlsym_iff_found symname).mpr (h.1 symname hsym)

/-- `dlopen` succeeds if and only if the symbols of all that it has to load are found. -/
theorem openModule_outcome (hfails : ∀ t, env.fails t = false) (henv : WellFormed env) {fuel : ℕ}
    {stk : List String} {name realfn : String} {mode : BitVec 32} {s₁ s₂ : State}
    {res : Option Addr}
    (hname : env.search name = some realfn) (hfile : (env.files.lookup realfn).isSome = true)
    (hstk : ∀ n ∈ stk, Relation.TransGen (DependsOn env) n realfn) (hl : Loading env s new s₁)
    (hrun : openModule env fuel stk name mode s₁ = some (res, s₂)) :
    Outcome env s new (loadOrder env s.loaded fuel new name) res.isSome ∧
      (res.isSome = true → mode &&& RTLD_GLOBAL ≠ 0 →
        Loading env s (loadOrder env s.loaded fuel new name) s₂) := by
  induction fuel generalizing stk name realfn mode s₁ s₂ res new with
  | zero => cases hrun
  | succ fuel ih =>
      have hnotin : realfn ∉ stk := fun hmem => henv.acyclic realfn (hstk realfn hmem)
      rw [openModule, hname] at hrun
      dsimp only at hrun
      rw [if_neg hnotin] at hrun
      rw [loadOrder, hname]
      dsimp only
      cases hfind : s₁.chain.find? fun h => (s₁.heap h).any fun d => d.fname = realfn with
      | some cur =>
          have hmem : realfn ∈ new ++ s.loaded := by
            refine (hl.mem_names_iff realfn).mp ⟨cur, List.mem_of_find?_eq_some hfind, ?_⟩
            have hany := List.find?_some hfind
            obtain ⟨d, hd, he⟩ := (Option.any_eq_true _ _).mp hany
            rw [State.fname, hd]
            exact congrArg some (of_decide_eq_true he)
          rw [if_pos hmem]
          rw [hfind] at hrun
          dsimp only at hrun
          cases hd : s₁.heap cur with
          | none =>
              rw [hd] at hrun
              cases hrun
          | some d =>
              rw [hd] at hrun
              obtain ⟨rfl, rfl⟩ := Prod.mk.inj (Option.some.inj hrun)
              exact ⟨⟨fun _ => rfl, fun _ h _ => h⟩, fun _ _ => hl.store hd _⟩
      | none =>
          have hmem : realfn ∉ new ++ s.loaded := by
            rw [← hl.mem_names_iff]
            rintro ⟨h, hh, hfname⟩
            obtain ⟨d, hd, he⟩ := Option.map_eq_some_iff.mp hfname
            exact List.find?_eq_none.mp hfind h hh ((Option.any_eq_true _ _).mpr ⟨d, hd,
              decide_eq_true he⟩)
          obtain ⟨file, hfile⟩ := Option.isSome_iff_exists.mp hfile
          rw [if_neg hmem, hfile]
          rw [hfind, hfile] at hrun
          dsimp only at hrun ⊢
          rw [failsOneOf_of_not hfails] at hrun
          dsimp only at hrun
          -- the dependencies are on the way down from all that is being loaded
          have hopn : ∀ dep ∈ file.deps, ∀ {new s₁ res s₂}, Loading env s new s₁ →
              openModule env fuel (realfn :: stk) dep RTLD_GLOBAL s₁ = some (res, s₂) →
              Outcome env s new (loadOrder env s.loaded fuel new dep) res.isSome ∧
                (res.isSome = true → Loading env s (loadOrder env s.loaded fuel new dep) s₂) := by
            intro dep hdep new s₁ res s₂ hl' hrun'
            obtain ⟨target, htarget, hthere⟩ := henv.files realfn file hfile dep hdep
            have hdepends : DependsOn env realfn target := ⟨file, hfile, dep, hdep, htarget⟩
            obtain ⟨hout, hload⟩ := ih htarget hthere (fun n hn => by
              obtain rfl | hn := List.mem_cons.mp hn
              · exact .single hdepends
              · exact (hstk n hn).tail hdepends) hl' hrun'
            exact ⟨hout, fun hok => hload hok (by decide)⟩
          cases hdeps : loadDeps env (fun name s => openModule env fuel
            (realfn :: stk) name RTLD_GLOBAL s)
              file.deps [] { s₁ with tick := s₁.tick + 5 } with
          | none =>
              rw [hdeps] at hrun
              cases hrun
          | some out =>
              obtain ⟨ok, deps, s₃⟩ := out
              obtain ⟨hout, hload⟩ := loadDeps_outcome hfails (suffix_loadOrder s.loaded fuel) hopn
                (hl.tick _) hdeps
              rw [hdeps] at hrun
              cases ok with
              | false =>
                  obtain rfl := giveUp_eq_none hrun
                  refine ⟨⟨fun h => ?_, fun _ _ h => absurd h Bool.false_ne_true⟩,
                    fun h => absurd h Bool.false_ne_true⟩
                  exact hout.succeeds h.2
              | true =>
                  obtain ⟨hout', hload'⟩ := link_outcome hfails hfile (hload rfl) hrun
                  exact ⟨⟨hout'.succeeds, fun hres hnew hok =>
                    hout'.resolved hres (hout.resolved hres hnew rfl) hok⟩, hload'⟩

/-- In every state that is reached, `dlopen` of a module succeeds if the symbols of all that
it has to load are found, and only then if the last resort finds nothing. -/
theorem dlopen_succeeds_iff (env : Env) (hfails : ∀ t, env.fails t = false) (henv : WellFormed env)
    (calls : List Call) (hcalls : Along (step env) Allowed World.start calls)
    (filename realfn : String)
    (hname : env.search filename = some realfn) (hfile : (env.files.lookup realfn).isSome = true)
    (mode : BitVec 32) :
    ∃ w, exec (step env) World.start calls = .ok w ∧
      ∃ res s', dlopen env filename mode w.state = some (res, s') ∧
        (Resolvable env w.state filename → res.isSome = true) ∧
        ((∀ t symname, env.resolver t symname = false) → res.isSome = true →
          Resolvable env w.state filename) := by
  obtain ⟨w, hrun, nodes, hi⟩ := exec_invariant (J := fun w => ∃ nodes, Inv w.state nodes w.opens)
    (fun w call hi hcall _ => step_inv call hi hcall) ⟨[], start_inv⟩ hcalls hcalls
  obtain ⟨res, s', hopen, -⟩ := @dlopen_opens w.state nodes w.opens env filename mode hi
  have hl : Loading env w.state [] w.state := .start fun h hh => hi.below h (hi.chain.subset hh)
  obtain ⟨hout, -⟩ := openModule_outcome hfails henv hname hfile
    (fun n hn => absurd hn List.not_mem_nil) hl hopen
  exact ⟨w, hrun, res, s', hopen, hout.succeeds, fun hres hok => hout.resolved hres trivial hok⟩

theorem sharedEnv_lookup {name : String} {file : ModuleFile}
    (h : sharedEnv.files.lookup name = some file) :
    name = "a.dxe" ∧ file = ⟨["b.dxe"], ["_f"], ["_g"]⟩ ∨ name = "b.dxe" ∧
    file = ⟨[], [], ["_f"]⟩ := by
  rw [sharedEnv, List.lookup_cons, List.lookup_cons, List.lookup_nil] at h
  split at h
  · next he => exact .inl ⟨eq_of_beq he, (Option.some.inj h).symm⟩
  split at h
  · next he => exact .inr ⟨eq_of_beq he, (Option.some.inj h).symm⟩
  · cases h

theorem sharedEnv_dependsOn {name target : String} (h : DependsOn sharedEnv name target) :
    name = "a.dxe" ∧ target = "b.dxe" := by
  obtain ⟨file, hfile, dep, hdep, hsearch⟩ := h
  obtain rfl : dep = target := Option.some.inj hsearch
  obtain ⟨rfl, rfl⟩ | ⟨rfl, rfl⟩ := sharedEnv_lookup hfile
  · exact ⟨rfl, List.mem_singleton.mp hdep⟩
  · exact absurd hdep List.not_mem_nil

theorem sharedEnv_wellFormed : WellFormed sharedEnv where
  files := fun name file hfile dep hdep => by
    obtain ⟨rfl, rfl⟩ | ⟨rfl, rfl⟩ := sharedEnv_lookup hfile
    · exact ⟨"b.dxe", congrArg some (List.mem_singleton.mp hdep), by decide +kernel⟩
    · exact absurd hdep List.not_mem_nil
  acyclic := fun name h => by
    have hend : ∀ {name target}, Relation.TransGen (DependsOn sharedEnv) name target →
        name = "a.dxe" ∧ target = "b.dxe" := by
      intro name target h
      induction h with
      | single h => exact sharedEnv_dependsOn h
      | tail _ h ih => exact ⟨ih.1, (sharedEnv_dependsOn h).2⟩
    obtain ⟨rfl, he⟩ := hend h
    exact absurd he (by decide)

/-- The dependency has been opened with `RTLD_GLOBAL`. -/
theorem dlopen_succeeds_shared :
    ∃ w, exec (step sharedEnv) World.start [.opn "b.dxe" RTLD_GLOBAL] = .ok w ∧
      Resolvable sharedEnv w.state "a.dxe" ∧
      ∃ res s', dlopen sharedEnv "a.dxe" 0 w.state = some (res, s') ∧ res.isSome = true := by
  obtain ⟨w, hrun, res, s', hopen, hok, -⟩ := dlopen_succeeds_iff sharedEnv (fun _ => rfl)
    sharedEnv_wellFormed [.opn "b.dxe" RTLD_GLOBAL] (by decide +kernel) "a.dxe" "a.dxe" rfl
    (by decide +kernel) 0
  have hend : (exec (step sharedEnv) World.start [.opn "b.dxe" RTLD_GLOBAL]).toOption.map
      (fun w => (w.state.loaded, dlsym sharedEnv w.state "_f")) = some (["b.dxe"], true) := by
        decide +kernel
  rw [hrun] at hend
  obtain ⟨hloaded, hf⟩ := Prod.mk.inj (Option.some.inj hend)
  have horder : loadOrder sharedEnv w.state.loaded (sharedEnv.files.length + 1) [] "a.dxe" =
      ["a.dxe"] := by
    have hloaded : w.state.loaded = ["b.dxe"] := hloaded
    rw [hloaded]
    decide +kernel
  have hresolvable : Resolvable sharedEnv w.state "a.dxe" := by
    rw [Resolvable, horder]
    refine ⟨fun symname hsym => .inl ?_, trivial⟩
    obtain rfl : symname = "_f" := List.mem_singleton.mp hsym
    exact hf
  exact ⟨w, hrun, hresolvable, res, s', hopen, hok hresolvable⟩

/-- The dependency has been opened with `RTLD_LOCAL`. -/
theorem dlopen_local_dependency_fails :
    WellFormed sharedEnv ∧ SelfContained sharedEnv ∧ (∀ t, sharedEnv.fails t = false) ∧
      Along (step sharedEnv) Allowed World.start [.opn "b.dxe" 0] ∧
      ∃ w, exec (step sharedEnv) World.start [.opn "b.dxe" 0] = .ok w ∧
        ∃ s', dlopen sharedEnv "a.dxe" 0 w.state = some (none, s') := by
  refine ⟨sharedEnv_wellFormed, fun name symname hsym => ?_, fun _ => rfl, by decide +kernel, ?_⟩
  · cases hfile : sharedEnv.files.lookup name with
    | none =>
        rw [Env.unresOf, hfile] at hsym
        exact absurd hsym List.not_mem_nil
    | some file =>
        rw [Env.unresOf, hfile] at hsym
        obtain ⟨rfl, rfl⟩ | ⟨rfl, rfl⟩ := sharedEnv_lookup hfile
        · obtain rfl : symname = "_f" := List.mem_singleton.mp hsym
          exact ⟨"b.dxe", ⟨_, hfile, "b.dxe", List.mem_singleton_self _, rfl⟩, by decide +kernel⟩
        · exact absurd hsym List.not_mem_nil
  · have hend : (exec (step sharedEnv) World.start [.opn "b.dxe" 0]).toOption.bind
        (fun w => (dlopen sharedEnv "a.dxe" 0 w.state).map Prod.fst) = some none := by
          decide +kernel
    cases hrun : exec (step sharedEnv) World.start [.opn "b.dxe" 0] with
    | error _ =>
        rw [hrun] at hend
        cases hend
    | ok w =>
        rw [hrun] at hend
        obtain ⟨⟨res, s'⟩, hopen, hres⟩ := Option.map_eq_some_iff.mp hend
        obtain rfl : res = none := hres
        exact ⟨w, rfl, s', hopen⟩

end DjgppLibc.Dlopen
