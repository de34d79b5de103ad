import Mathlib.Data.List.Range
import Mathlib.Logic.Function.Basic

/-!
# Blocked signals (`posix/signal/sigprocm.c`, `go32/dpmiexcp.c`)

`sigprocmask` puts a handler of its own in the place of the handler of a signal that it blocks.
This handler marks the signal as pending, and the program's one comes back when the signal is
unblocked. A pending signal is raised then.

A set of signals is its bits, and `SIG_ERR` is `none`. The program does not install `SIG_ERR` or
an address below 4096, and its handlers come back and call none of these functions. A signal
without a handler ends the run.
-/
namespace DjgppLibc.Signals

def SIGMAX : ℕ := 320
def SIGKILL : ℕ := 296
def SIGQUIT : ℕ := 298

inductive Handler
  | SIG_DFL
  | SIG_IGN
  | suspender
  /-- A function of the program. -/
  | function (address : ℕ)
deriving DecidableEq

inductive How
  | block
  | unblock
  | setmask
  /-- `EINVAL` -/
  | other
deriving DecidableEq

/-- The calls of handlers, each with its signal. -/
abbrev Log := List (ℕ × ℕ)

structure Exit where
  log : Log
  signal : ℕ

@[ext] structure State where
  /-- `sigprocmask_count == __bss_count` -/
  ready : Bool
  /-- `signal_list`, by the number of the signal. -/
  handlers : ℕ → Handler
  mask : ℕ → Bool
  pending : ℕ → Bool
  prev : ℕ → Option Handler
  /-- `new_mask` -/
  new : ℕ → Bool
  log : Log

/-- A handler gets a signal. -/
def deliver (handler : Handler) (sig : ℕ) (log : Log) : Except Exit Log :=
  match handler with
  | .SIG_DFL => if sig = SIGQUIT then .ok log else .error ⟨log, sig⟩
  | .function address => .ok (log ++ [(address, sig)])
  | _ => .ok log

def raise (sig : ℕ) (s : State) : Except Exit State :=
  if sig = 0 ∨ SIGMAX < sig then .ok s
  else if s.handlers sig = .suspender then
    .ok { s with pending := if sig < SIGMAX then Function.update s.pending sig true else s.pending }
  else (deliver (s.handlers sig) sig s.log).map fun log => { s with log := log }

def signal (sig : ℕ) (func : Handler) (s : State) : State × Option Handler :=
  if sig = 0 ∨ SIGMAX < sig ∨ sig = SIGKILL then (s, none)
  else ({ s with handlers := Function.update s.handlers sig func }, some (s.handlers sig))

/-- The sets are static variables, and are emptied by the first call. -/
def init (s : State) : State :=
  if s.ready then s
  else { s with ready := true, mask := fun _ => false, pending := fun _ => false,
                prev := fun _ => none }

def suspend (signo : ℕ) (s : State) : State :=
  if signo ≠ SIGKILL ∧ s.prev signo = none then
    { (signal signo .suspender s).1 with
      prev := Function.update s.prev signo (signal signo .suspender s).2 }
  else s

def restore (signo : ℕ) (s : State) : State :=
  match s.prev signo with
  | none => s
  | some handler =>
      { (signal signo handler s).1 with prev := Function.update s.prev signo none }

/-- The signal is blocked if it is in the old mask, or gets there. -/
def enter (how : How) (set : ℕ → Bool) (s : State) (signo : ℕ) : State :=
  if s.mask signo then { s with new := Function.update s.new signo true }
  else if set signo ∧ how ≠ .unblock then
    suspend signo { s with new := Function.update s.new signo true }
  else s

def leave (how : How) (set : ℕ → Bool) (s : State) (signo : ℕ) : Except Exit State :=
  if (how = .unblock ∧ s.new signo ∧ set signo) ∨ (how = .setmask ∧ s.new signo ∧ ¬ set signo) then
    let s := restore signo { s with new := Function.update s.new signo false }
    if s.pending signo then
      raise signo { s with pending := Function.update s.pending signo false }
    else .ok s
  else .ok s

def turn (how : How) (set : ℕ → Bool) (s : State) (signo : ℕ) : Except Exit State :=
  leave how set (enter how set s signo) signo

/-- `sigprocmask`; without a set the mask is only asked for. -/
def sigprocmask (how : How) (newSet : Option (ℕ → Bool)) (s : State) : Except Exit State :=
  match newSet with
  | none => .ok (init s)
  | some set =>
      if how = .other then .ok (init s)
      else
        ((List.range SIGMAX).foldlM (turn how set) { init s with new := fun _ => false }).map
          fun s => { s with mask := s.new }

inductive Op
  | raise (sig : ℕ)
  | signal (sig : ℕ) (func : Handler)
  | sigprocmask (how : How) (newSet : Option (ℕ → Bool))

def State.step (s : State) : Op → Except Exit State
  | .raise sig => Signals.raise sig s
  | .signal sig func => .ok (Signals.signal sig func s).1
  | .sigprocmask how newSet => Signals.sigprocmask how newSet s

/-- A new program; the pointers in `prev_handlers` are null. -/
def State.start : State where
  ready := false
  handlers _ := .SIG_DFL
  mask _ := false
  pending _ := false
  prev _ := some .SIG_DFL
  new _ := false
  log := []

/-- Signals as a program sees them: what happens on a signal, and a mask that holds signals
back. -/
structure Spec where
  action : ℕ → Handler
  mask : ℕ → Bool
  pending : ℕ → Bool
  log : Log

/-- The mask holds the signal back. Nothing holds `SIGKILL` back. -/
def held (mask : ℕ → Bool) (sig : ℕ) : Bool :=
  mask sig && sig ≠ 0 && sig < SIGMAX && sig ≠ SIGKILL

def How.next : How → Bool → Bool → Bool
  | .block, old, new => old || new
  | .unblock, old, new => old && !new
  | .setmask, _, new => new
  | .other, old, _ => old

def Spec.deliver (sig : ℕ) (a : Spec) : Except Exit Spec :=
  (Signals.deliver (a.action sig) sig a.log).map fun log => { a with log := log }

/-- A signal that leaves the mask is delivered if it is pending, and is not pending any more. -/
def Spec.release (how : How) (set : ℕ → Bool) (a : Spec) (signo : ℕ) : Except Exit Spec :=
  if a.mask signo && !how.next (a.mask signo) (set signo) && a.pending signo then
    Spec.deliver signo { a with pending := Function.update a.pending signo false }
  else .ok a

def Spec.step (a : Spec) : Op → Except Exit Spec
  | .raise sig =>
      if sig = 0 ∨ SIGMAX < sig then .ok a
      else if held a.mask sig then .ok { a with pending := Function.update a.pending sig true }
      else a.deliver sig
  | .signal sig func =>
      if sig = 0 ∨ SIGMAX < sig ∨ sig = SIGKILL then .ok a
      else .ok { a with action := Function.update a.action sig func }
  | .sigprocmask _ none => .ok a
  | .sigprocmask how (some set) =>
      if how = .other then .ok a
      else
        ((List.range SIGMAX).foldlM (Spec.release how set) a).map fun a =>
          { a with mask := fun i => i < SIGMAX && how.next (a.mask i) (set i) }

def Spec.start : Spec := ⟨fun _ => .SIG_DFL, fun _ => false, fun _ => false, []⟩

/-- The program changes the handlers only of signals that are not held back. -/
def Allowed : List Op → Spec → Prop
  | [], _ => True
  | op :: ops, a =>
      (∀ sig func, op = .signal sig func → held a.mask sig = false ∧ func ≠ .suspender) ∧
        ∀ a', a.step op = .ok a' → Allowed ops a'

/-- What a program can see: `sigprocmask` gives the mask, `sigpending` the pending signals, and
its handlers have been called. -/
def State.seen (s : State) : (ℕ → Bool) × (ℕ → Bool) × Log := (s.mask, s.pending, s.log)

def Spec.seen (a : Spec) : (ℕ → Bool) × (ℕ → Bool) × Log := (a.mask, a.pending, a.log)

/-- The variables of the library for a state of the specification. Inside of the loop the signals
held back are not those of the mask. -/
def embed (a : Spec) (m new : ℕ → Bool) : State where
  ready := true
  handlers i := if held m i then .suspender else a.action i
  mask := a.mask
  pending := a.pending
  prev i := if held m i then some (a.action i) else none
  new := new
  log := a.log

structure Spec.Sound (a : Spec) : Prop where
  action : ∀ i, a.action i ≠ .suspender
  pending : ∀ i, a.pending i = true → held a.mask i = true

variable {a : Spec} {m new set : ℕ → Bool} {n : ℕ} {b : Bool} {how : How}

theorem held_update (m : ℕ → Bool) (n : ℕ) (b : Bool) (i : ℕ) :
    held (Function.update m n b) i = if i = n then b && held (fun _ => true) n else held m i := by
  unfold held
  split_ifs with h
  · rw [h, Function.update_self]
    simp only [Bool.true_and, Bool.and_assoc]
  · rw [Function.update_of_ne h]

theorem held_eq (m : ℕ → Bool) (n : ℕ) : held m n = (m n && held (fun _ => true) n) := by
  unfold held
  simp only [Bool.true_and, Bool.and_assoc]

theorem held_true_iff : held (fun _ => true) n = true ↔ n ≠ 0 ∧ n < SIGMAX ∧ n ≠ SIGKILL := by
  simp [held, and_assoc]

theorem not_refused (h : held (fun _ => true) n = true) :
    ¬ (n = 0 ∨ SIGMAX < n ∨ n = SIGKILL) := by
  rw [held_true_iff] at h
  omega

theorem embed_update (a : Spec) (m new : ℕ → Bool) (n : ℕ) (b : Bool) :
    embed a (Function.update m n b) new =
      { embed a m new with
        handlers := Function.update (embed a m new).handlers n
          (if b && held (fun _ => true) n then .suspender else a.action n)
        prev := Function.update (embed a m new).prev n
          (if b && held (fun _ => true) n then some (a.action n) else none) } := by
  refine State.ext rfl (funext fun i => ?_) rfl rfl (funext fun i => ?_) rfl rfl
  all_goals
    dsimp only [embed]
    rw [held_update]
    by_cases hi : i = n
    · rw [hi, Function.update_self, if_pos rfl]
    · rw [Function.update_of_ne hi, if_neg hi]

/-- A signal that is refused, or that is not held back, keeps its handler. -/
theorem embed_update_same (hb : (b && held (fun _ => true) n) = held m n) :
    embed a (Function.update m n b) new = embed a m new := by
  rw [embed_update, hb]
  exact State.ext rfl (Function.update_eq_self n _) rfl rfl (Function.update_eq_self n _) rfl rfl

theorem suspend_embed (hm : m n = false) (hn : n < SIGMAX) :
    suspend n (embed a m new) = embed a (Function.update m n true) new := by
  have hnot : held m n = false := by rw [held_eq, hm, Bool.false_and]
  have hprev : (embed a m new).prev n = none := by simp [embed, hnot]
  by_cases hheld : held (fun _ => true) n = true
  · have hrefused := not_refused hheld
    have hold : (embed a m new).handlers n = a.action n := by simp [embed, hnot]
    rw [suspend, if_pos ⟨fun h => hrefused (.inr (.inr h)), hprev⟩, signal, if_neg hrefused, hold,
      embed_update, hheld]
    rfl
  · rw [embed_update_same (by rw [hnot]; simpa using hheld), suspend]
    split_ifs with hkill
    · have hrefused : n = 0 ∨ SIGMAX < n ∨ n = SIGKILL := by
        rw [held_true_iff] at hheld
        omega
      rw [signal, if_pos hrefused]
      refine State.ext rfl rfl rfl rfl ?_ rfl rfl
      rw [← hprev]
      exact Function.update_eq_self n _
    · rfl

theorem restore_embed (n : ℕ) :
    restore n (embed a m new) = embed a (Function.update m n false) new := by
  unfold restore
  cases hheld : held m n with
  | true =>
      have hprev : (embed a m new).prev n = some (a.action n) := by simp [embed, hheld]
      have hrefused := not_refused (Bool.and_eq_true_iff.mp ((held_eq m n).symm.trans hheld)).2
      rw [hprev, embed_update]
      dsimp only
      rw [signal, if_neg hrefused]
      rfl
  | false =>
      have hprev : (embed a m new).prev n = none := by simp [embed, hheld]
      rw [hprev, embed_update_same (by rw [hheld, Bool.false_and])]

/-- The signal is in `new_mask` between the two halves of a turn. -/
def How.reached (how : How) (old new : Bool) : Bool := old || new && how ≠ .unblock

theorem enter_embed (hm : m n = a.mask n) (hnew : new n = false) (hn : n < SIGMAX) :
    enter how set (embed a m new) n =
      embed a (Function.update m n (how.reached (a.mask n) (set n)))
        (Function.update new n (how.reached (a.mask n) (set n))) := by
  show (if a.mask n then embed a m (Function.update new n true)
    else if set n ∧ how ≠ .unblock then suspend n (embed a m (Function.update new n true))
    else embed a m new) = _
  unfold How.reached
  cases hmask : a.mask n with
  | true =>
      rw [if_pos rfl, Bool.true_or]
      nth_rewrite 2 [← hmask]
      rw [← hm, Function.update_eq_self]
  | false =>
      rw [if_neg Bool.false_ne_true, Bool.false_or]
      by_cases hset : set n ∧ how ≠ .unblock
      · rw [if_pos hset, decide_eq_true hset.2, Bool.and_true, hset.1]
        exact suspend_embed (hm.trans hmask) hn
      · have hout : (set n && decide (how ≠ .unblock)) = false := by
          simpa [Bool.and_eq_true] using hset
        rw [if_neg hset, hout, ← hnew, Function.update_eq_self, hnew, ← hmask, ← hm,
          Function.update_eq_self]

theorem leaves_iff (hhow : how ≠ .other) (old new : Bool) :
    ((how = .unblock ∧ how.reached old new ∧ new) ∨
        (how = .setmask ∧ how.reached old new ∧ ¬ new)) ↔ (old && !how.next old new) = true := by
  revert hhow
  cases how <;> cases old <;> cases new <;> decide

theorem next_of_stays (hhow : how ≠ .other) {old new : Bool}
    (h : ¬ (old && !how.next old new) = true) : how.reached old new = how.next old new := by
  revert hhow h
  cases how <;> cases old <;> cases new <;> decide

theorem raise_embed (h : ∀ i, a.action i ≠ .suspender) (hheld : held (fun _ => true) n = true)
    (hm : m n = false) :
    raise n (embed a m new) = (a.deliver n).map fun a' => embed a' m new := by
  have hnot : held m n = false := by rw [held_eq, hm, Bool.false_and]
  have hold : (embed a m new).handlers n = a.action n := by simp [embed, hnot]
  have hrefused := not_refused hheld
  rw [raise, if_neg (by omega), hold, if_neg (h n), Spec.deliver]
  show Except.map _ (deliver (a.action n) n a.log) = _
  cases deliver (a.action n) n a.log <;> rfl

theorem leave_embed (how : How) (set : ℕ → Bool) (n : ℕ) : leave how set (embed a m new) n =
    if (how = .unblock ∧ new n ∧ set n) ∨ (how = .setmask ∧ new n ∧ ¬ set n) then
      if a.pending n then
        raise n (embed { a with pending := Function.update a.pending n false }
          (Function.update m n false) (Function.update new n false))
      else .ok (embed a (Function.update m n false) (Function.update new n false))
    else .ok (embed a m new) := by
  have hnew : { embed a m new with new := Function.update (embed a m new).new n false } =
      embed a m (Function.update new n false) := rfl
  unfold leave
  rw [hnew, restore_embed]
  rfl

theorem turn_embed (h : a.Sound) (hm : m n = a.mask n) (hnew : new n = false) (hn : n < SIGMAX)
    (hhow : how ≠ .other) :
    turn how set (embed a m new) n = (a.release how set n).map fun a' =>
      embed a' (Function.update m n (how.next (a.mask n) (set n)))
        (Function.update new n (how.next (a.mask n) (set n))) := by
  rw [turn, enter_embed hm hnew hn, leave_embed, Function.update_self, Function.update_idem,
    Function.update_idem, Spec.release]
  by_cases hleaves : (a.mask n && !how.next (a.mask n) (set n)) = true
  · have hnext : how.next (a.mask n) (set n) = false := by
      simpa using (Bool.and_eq_true_iff.mp hleaves).2
    rw [if_pos ((leaves_iff hhow _ _).mpr hleaves), hleaves, Bool.true_and, hnext]
    by_cases hpending : a.pending n = true
    · have hheld := h.pending n hpending
      rw [held_eq] at hheld
      rw [if_pos hpending, if_pos hpending]
      exact raise_embed h.action (Bool.and_eq_true_iff.mp hheld).2 (Function.update_self ..)
    · rw [if_neg hpending, if_neg hpending]
      rfl
  · rw [if_neg (mt (leaves_iff hhow _ _).mp hleaves), next_of_stays hhow hleaves,
      if_neg (fun hall => hleaves (Bool.and_eq_true_iff.mp hall).1)]
    rfl

/-- What the loop leaves of a specification's state: no signal that has been passed and is not in
the new mask is pending. -/
structure Spec.Released (how : How) (set : ℕ → Bool) (a a' : Spec) (k : ℕ) : Prop where
  mask : a'.mask = a.mask
  action : a'.action = a.action
  pending : ∀ i, a'.pending i = true →
    a.pending i = true ∧ (i < k → how.next (a.mask i) (set i) = true)

theorem Spec.Released.step {a' a'' : Spec} {k : ℕ} (h : Spec.Released how set a a' k)
    (ha : a.Sound) (hstep : a'.release how set k = .ok a'') :
    Spec.Released how set a a'' (k + 1) := by
  unfold Spec.release at hstep
  rw [h.mask] at hstep
  split_ifs at hstep with hleaves
  · unfold Spec.deliver at hstep
    cases hlog : Signals.deliver (a'.action k) k a'.log with
    | error e =>
        rw [hlog] at hstep
        cases hstep
    | ok log =>
    rw [hlog] at hstep
    obtain rfl := Except.ok.inj hstep
    refine ⟨rfl, h.action, fun i hi => ?_⟩
    by_cases hik : i = k
    · rw [hik] at hi
      exact absurd ((Function.update_self (f := a'.pending) k false).symm.trans hi)
        Bool.false_ne_true
    · have hi' : a'.pending i = true := (Function.update_of_ne hik false a'.pending).symm.trans hi
      exact ⟨(h.pending i hi').1, fun hlt => (h.pending i hi').2 (by omega)⟩
  · obtain rfl := Except.ok.inj hstep
    refine ⟨h.mask, h.action, fun i hi => ⟨(h.pending i hi).1, fun hlt => ?_⟩⟩
    obtain hik | rfl := Nat.lt_or_eq_of_le (Nat.le_of_lt_succ hlt)
    · exact (h.pending i hi).2 hik
    · have hmask := ha.pending i (h.pending i hi).1
      rw [held_eq] at hmask
      rw [hi, (Bool.and_eq_true_iff.mp hmask).1] at hleaves
      rw [(Bool.and_eq_true_iff.mp hmask).1]
      simpa using hleaves

theorem Spec.Released.sound {a' : Spec} {k : ℕ} (h : Spec.Released how set a a' k)
    (ha : a.Sound) : a'.Sound :=
  ⟨fun i => by rw [h.action]; exact ha.action i,
    fun i hi => by rw [h.mask]; exact ha.pending i (h.pending i hi).1⟩

theorem foldlM_range_succ {ε σ : Type} (f : σ → ℕ → Except ε σ) (s : σ) (k : ℕ) :
    (List.range (k + 1)).foldlM f s = ((List.range k).foldlM f s).bind fun s => f s k := by
  rw [List.range_succ, List.foldlM_append]
  refine congrArg (Except.bind _) (funext fun s => ?_)
  show (f s k).bind pure = f s k
  cases f s k <;> rfl

theorem loop_embed (ha : a.Sound) (hhow : how ≠ .other) {k : ℕ} (hk : k ≤ SIGMAX) :
    (List.range k).foldlM (turn how set) (embed a a.mask fun _ => false) =
      ((List.range k).foldlM (Spec.release how set) a).map (fun a' =>
        embed a' (fun i => if i < k then how.next (a.mask i) (set i) else a.mask i)
          fun i => i < k && how.next (a.mask i) (set i)) ∧
    ∀ a', (List.range k).foldlM (Spec.release how set) a = .ok a' →
      Spec.Released how set a a' k := by
  induction k with
  | zero =>
      refine ⟨?_, fun a' h => ?_⟩
      · show Except.ok _ = Except.ok _
        simp only [Nat.not_lt_zero, if_false, decide_false, Bool.false_and]
      · obtain rfl := Except.ok.inj h
        exact ⟨rfl, rfl, fun i hi => ⟨hi, fun h => absurd h (Nat.not_lt_zero i)⟩⟩
  | succ k ih =>
      obtain ⟨hloop, hreleased⟩ := ih (by omega)
      rw [foldlM_range_succ, foldlM_range_succ, hloop]
      cases hrun : (List.range k).foldlM (Spec.release how set) a with
      | error e => exact ⟨rfl, fun a' h => by cases h⟩
      | ok a' =>
          have hrel := hreleased a' hrun
          refine ⟨?_, fun a'' h => hrel.step ha h⟩
          show turn how set (embed a' _ _) k = (a'.release how set k).map _
          rw [turn_embed (hrel.sound ha) (by rw [if_neg (Nat.lt_irrefl k), hrel.mask])
            (by simp) (by omega) hhow, hrel.mask]
          congr 2
          funext a''
          congr 1 <;> funext i <;> by_cases hi : i = k
          · rw [hi, Function.update_self, if_pos (Nat.lt_succ_self k)]
          · rw [Function.update_of_ne hi, if_congr (show i < k ↔ i < k + 1 by omega) rfl rfl]
          · simp [hi]
          · rw [Function.update_of_ne hi, decide_eq_decide.mpr (show i < k ↔ i < k + 1 by omega)]

structure Shows (s : State) (a : Spec) : Prop where
  sound : a.Sound
  mask : s.mask = a.mask
  pending : s.pending = a.pending
  embedded : ∃ new, init s = embed a a.mask new

def Agree (x : Except Exit State) (y : Except Exit Spec) : Prop :=
  (∃ e, x = .error e ∧ y = .error e) ∨ ∃ s a, x = .ok s ∧ y = .ok a ∧ Shows s a

variable {s : State}

theorem Shows.handlers (h : Shows s a) (i : ℕ) :
    s.handlers i = if held a.mask i then .suspender else a.action i := by
  obtain ⟨new, hinit⟩ := h.embedded
  have hsame : (init s).handlers = s.handlers := by
    unfold init
    split_ifs <;> rfl
  rw [← hsame, hinit]
  rfl

theorem Shows.log (h : Shows s a) : s.log = a.log := by
  obtain ⟨new, hinit⟩ := h.embedded
  have hsame : (init s).log = s.log := by
    unfold init
    split_ifs <;> rfl
  rw [← hsame, hinit]
  rfl

theorem sigprocmask_agrees (h : Shows s a) (how : How) (newSet : Option (ℕ → Bool)) :
    Agree (sigprocmask how newSet s) (a.step (.sigprocmask how newSet)) := by
  obtain ⟨new, hinit⟩ := h.embedded
  have hidle : Agree (.ok (init s)) (.ok a) := by
    refine .inr ⟨init s, a, rfl, rfl, h.sound, by rw [hinit]; rfl, by rw [hinit]; rfl, new, ?_⟩
    rw [hinit]
    rfl
  cases newSet with
  | none => exact hidle
  | some set =>
      unfold sigprocmask Spec.step
      dsimp only
      by_cases hhow : how = .other
      · rw [if_pos hhow, if_pos hhow]
        exact hidle
      · rw [if_neg hhow, if_neg hhow, hinit]
        obtain ⟨hloop, hreleased⟩ := @loop_embed a set how h.sound hhow _ le_rfl
        rw [show ({ embed a a.mask new with new := fun _ => false } : State) =
          embed a a.mask fun _ => false from rfl, hloop]
        cases hrun : (List.range SIGMAX).foldlM (Spec.release how set) a with
        | error e => exact .inl ⟨e, rfl, rfl⟩
        | ok a' =>
            have hrel := hreleased a' hrun
            obtain ⟨action, mask, pending, log⟩ := a'
            obtain rfl : mask = a.mask := hrel.mask
            obtain rfl : action = a.action := hrel.action
            refine .inr ⟨_, _, rfl, rfl, ⟨h.sound.action, fun i hi => ?_⟩, rfl, rfl,
              fun i => decide (i < SIGMAX) && how.next (a.mask i) (set i), ?_⟩
            · obtain ⟨hold, hnext⟩ := hrel.pending i hi
              have hheld := h.sound.pending i hold
              rw [held_eq, Bool.and_eq_true] at hheld
              have hlt := (held_true_iff.mp hheld.2).2.1
              rw [held_eq, hheld.2, Bool.and_true]
              show (decide (i < SIGMAX) && how.next (a.mask i) (set i)) = true
              rw [hnext hlt, decide_eq_true hlt]
              rfl
            · have hheld (i : ℕ) : held (fun i => if i < SIGMAX then how.next (a.mask i) (set i)
                  else a.mask i) i =
                  held (fun i => decide (i < SIGMAX) && how.next (a.mask i) (set i)) i := by
                unfold held
                dsimp only
                by_cases hlt : i < SIGMAX
                · rw [if_pos hlt, decide_eq_true hlt, Bool.true_and]
                · simp [hlt]
              refine State.ext rfl (funext fun i => ?_) rfl rfl (funext fun i => ?_) rfl rfl
              · exact if_congr (by rw [hheld]) rfl rfl
              · exact if_congr (by rw [hheld]) rfl rfl

theorem raise_agrees (h : Shows s a) (sig : ℕ) : Agree (raise sig s) (a.step (.raise sig)) := by
  unfold raise Spec.step
  dsimp only
  by_cases hrange : sig = 0 ∨ SIGMAX < sig
  · rw [if_pos hrange, if_pos hrange]
    exact .inr ⟨s, a, rfl, rfl, h⟩
  rw [if_neg hrange, if_neg hrange, h.handlers]
  cases hheld : held a.mask sig with
  | true =>
      have hheld' := Bool.and_eq_true_iff.mp ((held_eq _ _).symm.trans hheld)
      have hlt := (held_true_iff.mp hheld'.2).2.1
      obtain ⟨new, hinit⟩ := h.embedded
      have hready : s.ready = true := by
        by_contra hnot
        rw [init, if_neg hnot] at hinit
        have hmask : (fun _ => false) = a.mask := congrArg State.mask hinit
        rw [← hmask, held_eq] at hheld
        cases hheld
      rw [init, if_pos hready] at hinit
      rw [if_pos rfl, if_pos rfl, if_pos hlt]
      refine .inr ⟨_, _, rfl, rfl, ⟨h.sound.action, fun i hi => ?_⟩, h.mask, ?_, new, ?_⟩
      · by_cases hi' : i = sig
        · rw [hi']
          exact hheld
        · exact h.sound.pending i ((Function.update_of_ne hi' true a.pending).symm.trans hi)
      · rw [← h.pending]
      · rw [init, if_pos hready, hinit]
        rfl
  | false =>
      rw [if_neg Bool.false_ne_true, if_neg (h.sound.action sig), if_neg Bool.false_ne_true, h.log,
        Spec.deliver]
      cases deliver (a.action sig) sig a.log with
      | error e => exact .inl ⟨e, rfl, rfl⟩
      | ok log =>
          obtain ⟨new, hinit⟩ := h.embedded
          refine .inr ⟨_, _, rfl, rfl, ⟨h.sound.action, h.sound.pending⟩, h.mask, h.pending, new,
            ?_⟩
          have hlog : init { s with log := log } = { init s with log := log } := by
            unfold init
            split_ifs <;> rfl
          rw [hlog, hinit]
          rfl

theorem signal_agrees (h : Shows s a) {sig : ℕ} {func : Handler} (hheld : held a.mask sig = false)
    (hfunc : func ≠ .suspender) :
    Agree (.ok (signal sig func s).1) (a.step (.signal sig func)) := by
  unfold signal Spec.step
  dsimp only
  by_cases hrange : sig = 0 ∨ SIGMAX < sig ∨ sig = SIGKILL
  · rw [if_pos hrange, if_pos hrange]
    exact .inr ⟨s, a, rfl, rfl, h⟩
  rw [if_neg hrange, if_neg hrange]
  obtain ⟨new, hinit⟩ := h.embedded
  refine .inr ⟨_, _, rfl, rfl, ⟨fun i => ?_, h.sound.pending⟩, h.mask, h.pending, new, ?_⟩
  · show Function.update a.action sig func i ≠ _
    by_cases hi : i = sig
    · rw [hi, Function.update_self]
      exact hfunc
    · rw [Function.update_of_ne hi]
      exact h.sound.action i
  · have hsame (f : ℕ → Handler) : init { s with handlers := f } =
        { init s with handlers := f } := by
      unfold init
      split_ifs <;> rfl
    rw [hsame, hinit]
    refine State.ext rfl (funext fun i => ?_) rfl rfl (funext fun i => ?_) rfl rfl
    all_goals
      dsimp only [embed]
      by_cases hi : i = sig
    · rw [hi, Function.update_self, hheld, Function.update_self]
      rfl
    · rw [Function.update_of_ne hi, h.handlers, Function.update_of_ne hi]
    · rw [hi, hheld]
      rfl
    · rw [Function.update_of_ne hi]

theorem start_shows : Shows State.start Spec.start where
  sound := ⟨fun _ => Handler.noConfusion, fun _ hi => by cases hi⟩
  mask := rfl
  pending := rfl
  embedded := ⟨fun _ => false, rfl⟩

end DjgppLibc.Signals
