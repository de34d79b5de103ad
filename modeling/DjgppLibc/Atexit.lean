import Mathlib.Data.Int.Notation
import Mathlib.Data.List.Nodup

/-!
# Functions registered with `atexit` (`stdlib/atexit.c`, `stdlib/exit.c`)

The list of registered functions is the list of the blocks that `atexit` got
from `malloc`, each by its address. A function that `exit` calls is a tree of
the `atexit` calls it makes, whose answers it may look at, and it ends in a new
state of the program; the program up to its call of `exit` is such a tree too.
The answers of `malloc` are a parameter. What happens is recorded in a trace.
-/
namespace DjgppLibc.Atexit

variable {σ : Type}

/-- `struct __atexit`. -/
structure Node where
  next : ℕ
  function : ℕ
deriving DecidableEq

inductive Event
  | registered (f : ℕ)
  | called (f : ℕ)
  | destructor (f : ℕ)
  | stdioCleanup
  | fdPropertiesCleanup
  | fsextExit
  | setmode
  | exited (status : ℤ)
deriving DecidableEq

structure State where
  atexitPtr : ℕ
  blocks : List (ℕ × Node)
  mallocs : ℕ
  trace : List Event
deriving DecidableEq

def State.start : State := ⟨0, [], 0, []⟩

def State.live (st : State) : List ℕ := st.blocks.map Prod.fst

def State.log (e : Event) (st : State) : State := { st with trace := st.trace ++ [e] }

/-- `free`. -/
def State.free (a : ℕ) (st : State) : State :=
  { st with blocks := st.blocks.filter fun b => b.1 ≠ a }

/-- A function of the program, as far as `atexit` is concerned. -/
inductive Body (σ : Type)
  | ret (s : σ)
  | atexit (f : ℕ) (k : ℤ → Body σ)

/-- `malloc n live` answers the `n`-th call of `malloc` while the blocks `live` are in use. -/
abbrev Malloc := ℕ → List ℕ → ℕ

def Malloc.Fresh (malloc : Malloc) : Prop :=
  ∀ n live, malloc n live ≠ 0 → malloc n live ∉ live

variable (malloc : Malloc)

def atexit (a : ℕ) (st : State) : State × ℤ :=
  if a = 0 then (st, -1)
  else
    let ap := malloc st.mallocs st.live
    let st := { st with mallocs := st.mallocs + 1 }
    if ap = 0 then (st, -1)
    else
      (({ st with blocks := (ap, ⟨st.atexitPtr, a⟩) :: st.blocks, atexitPtr := ap }).log
        (.registered a), 0)

def call : Body σ → State → σ × State
  | .ret s, st => (s, st)
  | .atexit f k, st => call (k (atexit malloc f st).2) (atexit malloc f st).1

inductive Stop
  | badPointer
  | outOfFuel
deriving DecidableEq

variable (body : ℕ → σ → Body σ)

/-- The loop of `exit`. The next block is read after the function has returned. -/
def exitLoop : ℕ → ℕ → σ × State → Except Stop (σ × State)
  | 0, _, _ => .error .outOfFuel
  | n + 1, a, (s, st) =>
      if a = 0 then .ok (s, st)
      else
        match st.blocks.lookup a with
        | none => .error .badPointer
        | some o =>
            let r := call malloc (body o.function s) (st.log (.called o.function))
            match r.2.blocks.lookup a with
            | none => .error .badPointer
            | some o => exitLoop n o.next (r.1, r.2.free a)

/-- The destructors of the program and the hooks that are installed when it exits. -/
structure Ending where
  destructors : List ℕ
  stdioCleanupHook : Bool
  fdPropertiesCleanupHook : Bool
  fsextExitHook : Bool

def runDestructors : List ℕ → σ × State → σ × State
  | [], p => p
  | f :: fs, p => runDestructors fs (call malloc (body f p.1) (p.2.log (.destructor f)))

def State.logIf (hook : Bool) (e : Event) (st : State) : State :=
  if hook then st.log e else st

/-- What `exit` does when the list is done. -/
def cleanup (e : Ending) (status : ℤ) (p : σ × State) : State :=
  let st := (runDestructors malloc body e.destructors p).2
  let st := st.logIf e.stdioCleanupHook .stdioCleanup
  let st := st.logIf e.fdPropertiesCleanupHook .fdPropertiesCleanup
  let st := st.logIf e.fsextExitHook .fsextExit
  (st.log .setmode).log (.exited status)

def exit (e : Ending) (status : ℤ) (p : σ × State) : Except Stop State :=
  (exitLoop malloc body (p.2.blocks.length + 1) p.2.atexitPtr
    (p.1, { p.2 with atexitPtr := 0 })).map (cleanup malloc body e status)

def Event.running : Event → Bool
  | .registered _ | .called _ => true
  | _ => false

def Event.callee : Event → Option ℕ
  | .called f => some f
  | _ => none

def Event.registree : Event → Option ℕ
  | .registered f => some f
  | _ => none

/-- Every call is of the newest function that is registered and not yet called. -/
def replay : List ℕ → List Event → Option (List ℕ)
  | fs, [] => some fs
  | fs, .registered f :: es => replay (f :: fs) es
  | g :: fs, .called f :: es => if g = f then replay fs es else none
  | [], .called _ :: _ => none
  | fs, _ :: es => replay fs es

/-- Before the final cleanup every registered function has been called once, the
newest first, and none is called later. -/
def Drained (es : List Event) : Prop :=
  replay [] (es.takeWhile Event.running) = some [] ∧
    ∀ f, Event.called f ∉ es.dropWhile Event.running

instance (es : List Event) : Decidable (Drained es) :=
  decidable_of_iff
    (replay [] (es.takeWhile Event.running) = some [] ∧
      (es.dropWhile Event.running).all fun e => match e with | .called _ => false | _ => true)
    (by
      refine and_congr_right fun _ => ?_
      rw [List.all_eq_true]
      constructor
      · intro h f hf
        exact absurd (h _ hf) (by simp)
      · intro h e he
        cases e with
        | called f => exact absurd he (h f)
        | _ => rfl)

/-- What a function does when each of its `atexit` calls is refused, and nothing
when one of them succeeds. -/
def Body.refused (live : List ℕ) : ℕ → Body σ → Option (ℕ × σ)
  | n, .ret s => some (n, s)
  | n, .atexit f k =>
      if f = 0 then (k (-1)).refused live n
      else if malloc n live = 0 then (k (-1)).refused live (n + 1) else none

/-- No function of the list registers another one when its turn comes. -/
def Silent : List (ℕ × Node) → ℕ → σ → Prop
  | [], _, _ => True
  | b :: l, n, s =>
      match (body b.2.function s).refused malloc ((b :: l).map Prod.fst) n with
      | none => False
      | some (n, s) => Silent l n s

variable {malloc}

/-- The blocks are linked in their order, the first one from `p`. -/
def Listed : ℕ → List (ℕ × Node) → Prop
  | p, [] => p = 0
  | p, b :: l => p = b.1 ∧ b.1 ≠ 0 ∧ Listed b.2.next l

def registrations (l : List (ℕ × Node)) : List Event :=
  (l.map fun b => Event.registered b.2.function).reverse

theorem registrations_append (l₁ l₂ : List (ℕ × Node)) :
    registrations (l₁ ++ l₂) = registrations l₂ ++ registrations l₁ := by
  simp [registrations]

/-- `atexit` refuses and leaves the list alone, or puts one new block in front. -/
theorem atexit_cases (hm : malloc.Fresh) (f : ℕ) (st : State) :
    ((f = 0 ∨ malloc st.mallocs st.live = 0) ∧
        atexit malloc f st =
          ({ st with mallocs := if f = 0 then st.mallocs else st.mallocs + 1 }, -1)) ∨
      (f ≠ 0 ∧ malloc st.mallocs st.live ≠ 0 ∧
        ∃ ap, ap ≠ 0 ∧ ap ∉ st.live ∧
          atexit malloc f st =
            (⟨ap, (ap, ⟨st.atexitPtr, f⟩) :: st.blocks, st.mallocs + 1,
              st.trace ++ [.registered f]⟩, 0)) := by
  unfold atexit
  by_cases hf : f = 0
  · left
    refine ⟨.inl hf, ?_⟩
    rw [if_pos hf, if_pos hf]
  · by_cases hap : malloc st.mallocs st.live = 0
    · left
      refine ⟨.inr hap, ?_⟩
      rw [if_neg hf, if_neg hf]
      dsimp only
      rw [if_pos hap]
    · right
      refine ⟨hf, hap, malloc st.mallocs st.live, hap, hm _ _ hap, ?_⟩
      rw [if_neg hf]
      dsimp only
      rw [if_neg hap]
      rfl

/-- A call registers the functions of some new blocks. None is new exactly if every
`atexit` call was refused. -/
structure Called (malloc : Malloc) (b : Body σ) (st : State) (new : List (ℕ × Node)) : Prop where
  blocks : (call malloc b st).2.blocks = new ++ st.blocks
  nodup : (call malloc b st).2.live.Nodup
  trace : (call malloc b st).2.trace = st.trace ++ registrations new
  refused : new = [] →
    b.refused malloc st.live st.mallocs = some ((call malloc b st).2.mallocs, (call malloc b st).1)
  taken : new ≠ [] → b.refused malloc st.live st.mallocs = none

theorem call_spec (hm : malloc.Fresh) (b : Body σ) (st : State) (hd : st.live.Nodup) :
    ∃ new, Called malloc b st new := by
  induction b generalizing st with
  | ret s =>
      refine ⟨[], rfl, hd, ?_, fun _ => rfl, fun h => absurd rfl h⟩
      rw [registrations, List.map_nil, List.reverse_nil, List.append_nil]
      rfl
  | atexit f k ih =>
      obtain ⟨href, heq⟩ | ⟨hf, hap, ap, hap₀, hnew, heq⟩ := atexit_cases hm f st
      · -- refused: the rest of the function decides
        obtain ⟨new, h⟩ := ih (-1) { st with
          mallocs := if f = 0 then st.mallocs else st.mallocs + 1 } hd
        have hcall : call malloc (.atexit f k) st = call malloc (k (-1)) { st with
            mallocs := if f = 0 then st.mallocs else st.mallocs + 1 } := by
          rw [call, heq]
        have hrefused : (Body.atexit f k).refused malloc st.live st.mallocs =
            (k (-1)).refused malloc st.live (if f = 0 then st.mallocs else st.mallocs + 1) := by
          rw [Body.refused]
          by_cases hf : f = 0
          · rw [if_pos hf, if_pos hf]
          · rw [if_neg hf, if_neg hf, if_pos (href.resolve_left hf)]
        refine ⟨new, ?_, ?_, ?_, ?_, ?_⟩
        · rw [hcall]; exact h.blocks
        · rw [hcall]; exact h.nodup
        · rw [hcall]; exact h.trace
        · rw [hcall, hrefused]; exact h.refused
        · rw [hrefused]; exact h.taken
      · -- taken: at least this block is new
        obtain ⟨new, h⟩ := ih 0 ⟨ap, (ap, ⟨st.atexitPtr, f⟩) :: st.blocks, st.mallocs + 1,
          st.trace ++ [.registered f]⟩ (List.nodup_cons.mpr ⟨hnew, hd⟩)
        have hcall : call malloc (.atexit f k) st = call malloc (k 0) ⟨ap,
            (ap, ⟨st.atexitPtr, f⟩) :: st.blocks, st.mallocs + 1, st.trace ++ [.registered f]⟩ := by
          rw [call, heq]
        refine ⟨new ++ [(ap, ⟨st.atexitPtr, f⟩)], ?_, ?_, ?_, fun hnil => ?_, fun _ => ?_⟩
        · rw [hcall, h.blocks, List.append_assoc, List.singleton_append]
        · rw [hcall]; exact h.nodup
        · rw [hcall, h.trace, registrations_append, List.append_assoc]
          rfl
        · exact absurd hnil (by simp)
        · rw [Body.refused, if_neg hf, if_neg hap]

/-- Before `exit` the list is the list of all blocks. -/
theorem call_listed (hm : malloc.Fresh) (b : Body σ) (st : State)
    (h : Listed st.atexitPtr st.blocks) :
    Listed (call malloc b st).2.atexitPtr (call malloc b st).2.blocks := by
  induction b generalizing st with
  | ret s => exact h
  | atexit f k ih =>
      rw [call]
      apply ih
      obtain ⟨-, heq⟩ | ⟨-, -, ap, hap, -, heq⟩ := atexit_cases hm f st
      · rw [heq]
        exact h
      · rw [heq]
        exact ⟨rfl, hap, h⟩

def calls (l : List (ℕ × Node)) : List Event :=
  l.map fun b => Event.called b.2.function

theorem lookup_append {new old : List (ℕ × Node)} {b : ℕ × Node}
    (hd : ((new ++ b :: old).map Prod.fst).Nodup) : (new ++ b :: old).lookup b.1 = some b.2 := by
  induction new with
  | nil => exact List.lookup_cons_self
  | cons c new ih =>
      simp only [List.cons_append, List.map_cons, List.nodup_cons, List.map_append,
        List.mem_append, List.mem_cons, not_or] at hd
      rw [List.cons_append, List.lookup_cons]
      have hne : (b.1 == c.1) = false := by
        rw [beq_eq_false_iff_ne]
        exact Ne.symm hd.1.2.1
      rw [hne]
      apply ih
      simpa using hd.2

theorem filter_append {new old : List (ℕ × Node)} {b : ℕ × Node}
    (hd : ((new ++ b :: old).map Prod.fst).Nodup) :
    (new ++ b :: old).filter (fun c => c.1 ≠ b.1) = new ++ old := by
  simp only [List.map_append, List.map_cons, List.nodup_append, List.nodup_cons, List.mem_map,
    List.mem_cons] at hd
  obtain ⟨-, ⟨hb, -⟩, hdis⟩ := hd
  rw [List.filter_append, List.filter_cons_of_neg (by simp)]
  congr 1
  · apply List.filter_eq_self.mpr
    intro c hc
    exact decide_eq_true (hdis c.1 ⟨c, hc, rfl⟩ b.1 (.inl rfl))
  · apply List.filter_eq_self.mpr
    intro c hc
    apply decide_eq_true
    intro he
    exact hb ⟨c, hc, he⟩

theorem filterMap_registrations (l : List (ℕ × Node)) :
    (registrations l).filterMap Event.callee = [] ∧
      (registrations l).filterMap Event.registree = (l.map fun b => b.2.function).reverse := by
  rw [registrations, List.filterMap_reverse, List.filterMap_reverse, List.filterMap_map,
    List.filterMap_map]
  constructor
  · rw [List.reverse_eq_nil_iff, List.filterMap_eq_nil_iff]
    intro b _
    rfl
  · rw [show Event.registree ∘ (fun b : ℕ × Node => Event.registered b.2.function) =
      some ∘ fun b => b.2.function from rfl, List.filterMap_eq_map]

theorem running_registrations (l : List (ℕ × Node)) : ∀ e ∈ registrations l, e.running = true := by
  intro e he
  rw [registrations, List.mem_reverse, List.mem_map] at he
  obtain ⟨b, -, rfl⟩ := he
  rfl

/-- The loop calls the function of each block of `old` in turn. As long as no other block
is there, some registration is among its events exactly if a function is not silent. -/
structure Looped (new old : List (ℕ × Node)) (silent : Prop) (mid : List Event) : Prop where
  running : ∀ e ∈ mid, e.running = true
  called : mid.filterMap Event.callee = old.map fun b => b.2.function
  quiet : new = [] → silent → mid = calls old
  noisy : new = [] → ¬ silent → mid.filterMap Event.registree ≠ []

theorem Looped.step {old new more : List (ℕ × Node)} {b : ℕ × Node} {silent silent' : Prop}
    {mid : List Event} (h : Looped (more ++ new) old silent mid)
    (hs : new = [] → silent' → more = [] ∧ silent)
    (hn : new = [] → ¬ silent' → more = [] → ¬ silent) :
    Looped new (b :: old) silent' (.called b.2.function :: registrations more ++ mid) where
  running := by
    intro e he
    rcases List.mem_append.mp he with he | he
    · rcases List.mem_cons.mp he with rfl | he
      · rfl
      · exact running_registrations more e he
    · exact h.running e he
  called := by
    rw [List.filterMap_append, h.called, List.filterMap_cons]
    simp only [Event.callee, (filterMap_registrations more).1]
    rfl
  quiet := by
    rintro rfl hsil
    obtain ⟨rfl, hsil⟩ := hs rfl hsil
    rw [h.quiet rfl hsil]
    rfl
  noisy := by
    rintro rfl hsil
    rw [List.filterMap_append, List.filterMap_cons_none rfl, (filterMap_registrations more).2]
    cases more with
    | nil => exact h.noisy rfl (hn rfl hsil rfl)
    | cons c more => simp

theorem exitLoop_spec (hm : malloc.Fresh) (old new : List (ℕ × Node)) (fuel a : ℕ) (s : σ)
    (st : State) (hfuel : old.length < fuel) (hlist : Listed a old)
    (hblocks : st.blocks = new ++ old) (hd : st.live.Nodup) :
    ∃ p mid, exitLoop malloc body fuel a (s, st) = .ok p ∧ p.2.trace = st.trace ++ mid ∧
      Looped new old (Silent malloc body old st.mallocs s) mid := by
  induction old generalizing new fuel a s st with
  | nil =>
      obtain ⟨fuel, rfl⟩ := Nat.exists_eq_succ_of_ne_zero (Nat.ne_of_gt hfuel)
      refine ⟨(s, st), [], ?_, (List.append_nil _).symm, ?_, rfl, fun _ _ => rfl, ?_⟩
      · rw [exitLoop, if_pos (show a = 0 from hlist)]
      · intro e he
        exact absurd he (by simp)
      · intro _ hsil
        exact absurd trivial hsil
  | cons b old ih =>
      obtain ⟨fuel, rfl⟩ := Nat.exists_eq_add_one.mpr (Nat.zero_lt_of_lt hfuel)
      obtain ⟨rfl, hb, hnext⟩ := hlist
      have hd₁ : ((new ++ b :: old).map Prod.fst).Nodup := by
        rw [← hblocks]
        exact hd
      -- the call leaves the block of the function in place
      obtain ⟨more, hcall⟩ := call_spec hm (body b.2.function s) (st.log (.called b.2.function)) hd
      obtain ⟨r, hr⟩ : ∃ r, r = call malloc (body b.2.function s) (st.log (.called b.2.function)) :=
        ⟨_, rfl⟩
      have hblocks' : r.2.blocks = (more ++ new) ++ b :: old := by
        rw [hr, hcall.blocks, List.append_assoc]
        exact congrArg _ hblocks
      have hd₂ : (((more ++ new) ++ b :: old).map Prod.fst).Nodup := by
        rw [← hblocks', hr]
        exact hcall.nodup
      have hfree : (r.2.free b.1).blocks = (more ++ new) ++ old := by
        rw [State.free, hblocks']
        exact filter_append hd₂
      have hd₃ : (r.2.free b.1).live.Nodup := by
        rw [State.live, hfree]
        simp only [List.map_append, List.map_cons] at hd₂ ⊢
        exact hd₂.sublist (List.Sublist.append_left (List.sublist_cons_self _ _) _)
      obtain ⟨p, mid, hp, htrace, hloop⟩ := ih (more ++ new) fuel b.2.next r.1 (r.2.free b.1)
        (Nat.lt_of_succ_lt_succ hfuel) hnext hfree hd₃
      refine ⟨p, .called b.2.function :: registrations more ++ mid, ?_, ?_, ?_⟩
      · rw [exitLoop, if_neg hb, hblocks, lookup_append hd₁]
        dsimp only
        rw [← hr, hblocks', lookup_append hd₂]
        exact hp
      · rw [htrace]
        change r.2.trace ++ mid = _
        rw [hr, hcall.trace]
        simp [State.log]
      · have hlive : new = [] → (st.log (.called b.2.function)).live = (b :: old).map Prod.fst := by
          rintro rfl
          change st.blocks.map Prod.fst = _
          rw [hblocks, List.nil_append]
        apply hloop.step
        · intro hnew hsil
          rw [Silent, ← hlive hnew] at hsil
          by_cases hmore : more = []
          · have href := hcall.refused hmore
            change (body b.2.function s).refused malloc _ st.mallocs = _ at href
            rw [href, ← hr] at hsil
            exact ⟨hmore, hsil⟩
          · have htaken := hcall.taken hmore
            change (body b.2.function s).refused malloc _ st.mallocs = _ at htaken
            rw [htaken] at hsil
            exact absurd hsil id
        · intro hnew hsil hmore hsil'
          apply hsil
          have href := hcall.refused hmore
          change (body b.2.function s).refused malloc _ st.mallocs = _ at href
          rw [Silent, ← hlive hnew, href, ← hr]
          exact hsil'

/-- Events that a running list does not have in front, and no call of the list at all. -/
def Final (es : List Event) : Prop :=
  (∃ e es', es = e :: es' ∧ e.running = false) ∧ ∀ f, Event.called f ∉ es

theorem call_trace (hm : malloc.Fresh) (b : Body σ) (st : State) :
    ∃ new, (call malloc b st).2.trace = st.trace ++ registrations new := by
  induction b generalizing st with
  | ret s => exact ⟨[], (List.append_nil _).symm⟩
  | atexit f k ih =>
      rw [call]
      obtain ⟨new, hnew⟩ := ih (atexit malloc f st).2 (atexit malloc f st).1
      rw [hnew]
      obtain ⟨-, heq⟩ | ⟨-, -, ap, -, -, heq⟩ := atexit_cases hm f st
      · rw [heq]
        exact ⟨new, rfl⟩
      · rw [heq]
        refine ⟨new ++ [(ap, ⟨st.atexitPtr, f⟩)], ?_⟩
        rw [registrations_append, List.append_assoc]
        rfl

theorem not_called_registrations (l : List (ℕ × Node)) (f : ℕ) :
    Event.called f ∉ registrations l := by
  simp [registrations]

theorem runDestructors_trace (hm : malloc.Fresh) (fs : List ℕ) (p : σ × State) :
    ∃ es, (runDestructors malloc body fs p).2.trace = p.2.trace ++ es ∧ (es = [] ∨ Final es) := by
  induction fs generalizing p with
  | nil => exact ⟨[], (List.append_nil _).symm, .inl rfl⟩
  | cons f fs ih =>
      rw [runDestructors]
      obtain ⟨new, hnew⟩ := call_trace hm (body f p.1) (p.2.log (.destructor f))
      obtain ⟨es, hes, hfinal⟩ := ih (call malloc (body f p.1) (p.2.log (.destructor f)))
      refine ⟨.destructor f :: (registrations new ++ es), ?_, .inr ⟨⟨_, _, rfl, rfl⟩, ?_⟩⟩
      · rw [hes, hnew]
        simp [State.log]
      · intro g hg
        rw [List.mem_cons, List.mem_append] at hg
        rcases hg with hg | hg | hg
        · exact absurd hg (by simp)
        · exact not_called_registrations new g hg
        · rcases hfinal with rfl | hfinal
          · exact absurd hg (by simp)
          · exact hfinal.2 g hg

/-- One more event of the cleanup. -/
theorem Final.snoc {es : List Event} (h : es = [] ∨ Final es) {e : Event}
    (he : e.running = false) : Final (es ++ [e]) := by
  have hne : ∀ f, Event.called f ≠ e := by
    rintro f rfl
    exact absurd he (by simp [Event.running])
  rcases h with rfl | ⟨⟨e', es', rfl, he'⟩, hcalled⟩
  · refine ⟨⟨e, [], rfl, he⟩, fun f hf => hne f ?_⟩
    simpa using hf
  · refine ⟨⟨e', es' ++ [e], rfl, he'⟩, fun f hf => ?_⟩
    rcases List.mem_append.mp hf with hf | hf
    · exact hcalled f hf
    · exact hne f (by simpa using hf)

theorem logIf_trace {tr : List Event} {st : State} (hook : Bool) {e : Event}
    (he : e.running = false) (h : ∃ es, st.trace = tr ++ es ∧ (es = [] ∨ Final es)) :
    ∃ es, (st.logIf hook e).trace = tr ++ es ∧ (es = [] ∨ Final es) := by
  obtain ⟨es, hes, hfinal⟩ := h
  cases hook with
  | false => exact ⟨es, hes, hfinal⟩
  | true =>
      refine ⟨es ++ [e], ?_, .inr (.snoc hfinal he)⟩
      change st.trace ++ [e] = _
      rw [hes, List.append_assoc]

theorem cleanup_trace (hm : malloc.Fresh) (e : Ending) (status : ℤ) (p : σ × State) :
    ∃ es, (cleanup malloc body e status p).trace = p.2.trace ++ es ∧ Final es := by
  have h := logIf_trace e.fsextExitHook (e := .fsextExit) rfl
    (logIf_trace e.fdPropertiesCleanupHook (e := .fdPropertiesCleanup) rfl
      (logIf_trace e.stdioCleanupHook (e := .stdioCleanup) rfl
        (runDestructors_trace body hm e.destructors p)))
  obtain ⟨es, hes, hfinal⟩ := h
  refine ⟨es ++ [.setmode] ++ [.exited status], ?_, .snoc (.inr (.snoc hfinal rfl)) rfl⟩
  change (_ ++ [Event.setmode]) ++ [Event.exited status] = _
  rw [hes]
  simp

theorem takeWhile_append_final {es es' : List Event} (h : ∀ e ∈ es, e.running = true)
    (h' : Final es') :
    (es ++ es').takeWhile Event.running = es ∧ (es ++ es').dropWhile Event.running = es' := by
  obtain ⟨⟨e, es', rfl, he⟩, -⟩ := h'
  induction es with
  | nil => simp [he]
  | cons x es ih =>
      have hx := h x (by simp)
      obtain ⟨ih₁, ih₂⟩ := ih fun y hy => h y (by simp [hy])
      simp only [List.cons_append, List.takeWhile_cons, List.dropWhile_cons, hx, if_true]
      exact ⟨by rw [ih₁], ih₂⟩

theorem replay_count {fs gs : List ℕ} {es : List Event} (h : replay fs es = some gs) :
    fs.length + (es.filterMap Event.registree).length =
      gs.length + (es.filterMap Event.callee).length := by
  fun_induction replay fs es with
  | case1 fs =>
      obtain rfl := Option.some.inj h
      rfl
  | case2 fs f es ih =>
      have := ih h
      simp only [List.filterMap_cons, Event.registree, Event.callee, List.length_cons] at this ⊢
      omega
  | case3 fs f es ih =>
      have := ih h
      simp only [List.filterMap_cons, Event.registree, Event.callee, List.length_cons]
      omega
  | case4 g fs f es hne => exact absurd h (by simp)
  | case5 f es => exact absurd h (by simp)
  | case6 fs e es hreg hcall₁ hcall₂ ih =>
      cases e with
      | registered f => exact absurd rfl (hreg f)
      | called f =>
          cases fs with
          | nil => exact absurd rfl (hcall₂ f rfl)
          | cons g fs => exact absurd rfl (hcall₁ g fs f rfl)
      | _ => exact ih h

theorem replay_registrations (fs : List ℕ) (l : List (ℕ × Node)) (es : List Event) :
    replay fs (registrations l ++ es) = replay (l.map (fun b => b.2.function) ++ fs) es := by
  induction l generalizing es with
  | nil => rfl
  | cons b l ih =>
      rw [show b :: l = [b] ++ l from rfl, registrations_append, List.append_assoc, ih]
      rfl

theorem replay_calls (l : List (ℕ × Node)) :
    replay (l.map fun b => b.2.function) (calls l) = some [] := by
  induction l with
  | nil => rfl
  | cons b l ih =>
      rw [List.map_cons, calls, List.map_cons, replay, if_pos rfl]
      exact ih

/-- `exit` calls the functions registered before it exactly once, the newest first and
before the final cleanup, and no other function; these are all that are ever
registered before the cleanup if and only if none of them registers another one when
its turn comes. -/
theorem exit_calls_registered (malloc : Malloc) (hm : malloc.Fresh) (body : ℕ → σ → Body σ)
    (program : Body σ) (e : Ending) (status : ℤ) :
    let r := call malloc program .start
    ∃ st, exit malloc body e status r = .ok st ∧
      (st.trace.takeWhile Event.running).filterMap Event.callee =
        (r.2.trace.filterMap Event.registree).reverse ∧
      (∀ f, Event.called f ∉ st.trace.dropWhile Event.running) ∧
      (Drained st.trace ↔ Silent malloc body r.2.blocks r.2.mallocs r.1) := by
  intro r
  obtain ⟨l, hl⟩ := call_spec hm program .start List.nodup_nil
  have hlist := call_listed hm program .start rfl
  obtain ⟨⟨s, st⟩, hst⟩ : ∃ q, q = call malloc program .start := ⟨_, rfl⟩
  have hr : r = (s, st) := hst.symm
  have hblocks : st.blocks = l := by
    have h := hl.blocks
    rw [← hst] at h
    exact h.trans (List.append_nil l)
  have htrace : st.trace = registrations l := by
    have h := hl.trace
    rw [← hst] at h
    exact h
  rw [← hst] at hlist
  have hd := hl.nodup
  rw [← hst] at hd
  rw [hr]
  obtain ⟨p, mid, hp, hptrace, hloop⟩ := exitLoop_spec body hm st.blocks [] (st.blocks.length + 1)
    st.atexitPtr s { st with atexitPtr := 0 } (Nat.lt_succ_self _) hlist rfl hd
  obtain ⟨es, hes, hfinal⟩ := cleanup_trace body hm e status p
  have hrunning : ∀ e ∈ registrations l ++ mid, e.running = true := by
    intro e he
    rcases List.mem_append.mp he with he | he
    · exact running_registrations l e he
    · exact hloop.running e he
  change p.2.trace = st.trace ++ mid at hptrace
  refine ⟨cleanup malloc body e status p, by rw [exit, hp]; rfl, ?_, ?_, ?_⟩
  · rw [hes, hptrace, htrace, (takeWhile_append_final hrunning hfinal).1, List.filterMap_append,
      (filterMap_registrations l).1, (filterMap_registrations l).2, hloop.called, hblocks,
      List.reverse_reverse, List.nil_append]
  · rw [hes, hptrace, htrace, (takeWhile_append_final hrunning hfinal).2]
    exact hfinal.2
  rw [Drained, hes, hptrace, htrace, (takeWhile_append_final hrunning hfinal).1,
    (takeWhile_append_final hrunning hfinal).2]
  constructor
  · rintro ⟨hreplay, -⟩
    -- as many registrations as calls, so none while the list was running
    by_contra hsil
    have hcount := replay_count hreplay
    rw [List.filterMap_append, List.filterMap_append, (filterMap_registrations l).1,
      (filterMap_registrations l).2, hloop.called, hblocks] at hcount
    have hpos := List.length_pos_of_ne_nil (hloop.noisy rfl hsil)
    simp only [List.length_nil, List.length_append, List.length_reverse, List.length_map] at hcount
    omega
  · intro hsil
    refine ⟨?_, hfinal.2⟩
    rw [hloop.quiet rfl hsil, hblocks, replay_registrations, List.append_nil]
    exact replay_calls l

/-- Blocks of 16 bytes, never the same twice. -/
def sampleMalloc : Malloc := fun n live =>
  if 65536 + 16 * n ∈ live then 0 else 65536 + 16 * n

theorem sampleMalloc_fresh : sampleMalloc.Fresh := by
  intro n live h
  unfold sampleMalloc at h ⊢
  split_ifs at h ⊢ with hmem
  · exact absurd rfl h
  · exact hmem

/-- Registers `g`, whatever the answer. -/
def registering (g : ℕ) : Body Unit := .atexit g fun _ => .ret ()

/-- Two functions that register nothing are called, the second one first. -/
theorem exit_calls_registered_two :
    ∃ st, exit sampleMalloc (fun _ _ => .ret ()) ⟨[], true, false, false⟩ 0
        (call sampleMalloc (.atexit 1 fun _ => registering 2) .start) = .ok st ∧
      (st.trace.takeWhile Event.running).filterMap Event.callee = [2, 1] ∧ Drained st.trace := by
  obtain ⟨st, hst, hcalls, -, h⟩ := exit_calls_registered sampleMalloc sampleMalloc_fresh
    (fun _ _ => .ret ()) (.atexit 1 fun _ => registering 2) ⟨[], true, false, false⟩ 0
  exact ⟨st, hst, hcalls, h.mpr trivial⟩

/-- Function 1 registers function 2, which is never called. -/
theorem exit_misses_registration :
    ∃ st, exit sampleMalloc (fun f _ => if f = 1 then registering 2 else .ret ())
        ⟨[], true, false, false⟩ 0 (call sampleMalloc (registering 1) .start) = .ok st ∧
      st.trace = [.registered 1, .called 1, .registered 2, .stdioCleanup, .setmode, .exited 0] ∧
      ¬ Drained st.trace := by
  refine ⟨_, rfl, ?_, ?_⟩
  · decide
  · decide

end DjgppLibc.Atexit
