import Mathlib.Data.Nat.Prime.Basic
import DjgppLibc.CStrings
import DjgppLibc.OpenAddressing

/-!
# The hash table (`posix/search/hcreate.c`, `_hash2v.c`)

Keys are strings, compared by `strcmp`, and the data of an entry is of any
type. A slot without a key is free. A search gives the slot whose address the
code returns and the slots it has looked at; it is bounded by the number of
buckets, and a search that would go on is a stop, not a result.
-/
namespace DjgppLibc.Hsearch

open CStrings OpenAddressing

def mix (a b c : UInt32) : UInt32 × UInt32 × UInt32 :=
  let a := a - b; let a := a - c; let a := a ^^^ (c >>> 13)
  let b := b - c; let b := b - a; let b := b ^^^ (a <<< 8)
  let c := c - a; let c := c - b; let c := c ^^^ (b >>> 13)
  let a := a - b; let a := a - c; let a := a ^^^ (c >>> 12)
  let b := b - c; let b := b - a; let b := b ^^^ (a <<< 16)
  let c := c - a; let c := c - b; let c := c ^^^ (b >>> 5)
  let a := a - b; let a := a - c; let a := a ^^^ (c >>> 3)
  let b := b - c; let b := b - a; let b := b ^^^ (a <<< 10)
  let c := c - a; let c := c - b; let c := c ^^^ (b >>> 15)
  (a, b, c)

def word (k0 k1 k2 k3 : UInt8) : UInt32 :=
  k0.toUInt32 + (k1.toUInt32 <<< 8) + (k2.toUInt32 <<< 16) + (k3.toUInt32 <<< 24)

/-- The loop of `_hash2v`, twelve characters a round, and its last eleven
characters; those that are not there add nothing. -/
def hashLoop (a b c len : UInt32) : List UInt8 → UInt32 × UInt32
  | k0 :: k1 :: k2 :: k3 :: k4 :: k5 :: k6 :: k7 :: k8 :: k9 :: k10 :: k11 :: k =>
      let r := mix (a + word k0 k1 k2 k3) (b + word k4 k5 k6 k7) (c + word k8 k9 k10 k11)
      hashLoop r.1 r.2.1 r.2.2 (len + 12) k
  | k =>
      let len := len + UInt32.ofNat k.length
      let c := c + len + word 0 (k.getD 8 0) (k.getD 9 0) (k.getD 10 0)
      let b := b + word (k.getD 4 0) (k.getD 5 0) (k.getD 6 0) (k.getD 7 0)
      let a := a + word (k.getD 0 0) (k.getD 1 0) (k.getD 2 0) (k.getD 3 0)
      let r := mix a b c
      (r.2.2, r.2.1)

/-- `_hash2v`: the hash value and the second one. -/
def hash2v (k : List UInt8) : UInt32 × UInt32 := hashLoop 0x9e3779b9 0x9e3779b9 0 0 k

structure Entry (D : Type) where
  key : CString
  data : D
deriving DecidableEq

inductive Action
  | FIND
  | ENTER
deriving DecidableEq

structure Table (D : Type) where
  hash : ℕ → Option (Entry D)
  buckets : UInt32
  mask : UInt32

variable {D : Type}

def MAX_BUCKETS : ℕ := 0x20000000

/-- The loop that rounds up to the next power of two, from `i` on. -/
def log2Up (nel : ℕ) : ℕ → ℕ → ℕ
  | 0, i => i
  | n + 1, i => if 2 ^ i < nel then log2Up nel n (i + 1) else i

def slotsFor (nel : ℕ) : ℕ :=
  let nel := nel + nel / 3
  let nel := if MAX_BUCKETS < nel then MAX_BUCKETS else nel
  if nel < 0x80 then 0x80 else nel

/-- `hcreate`; the second argument is whether `calloc` succeeds. -/
def hcreate (nel : ℕ) (calloc : Bool) : Option (Table D) :=
  if MAX_BUCKETS < nel then none
  else
    let buckets := UInt32.ofNat (2 ^ log2Up (slotsFor nel) 25 7)
    if calloc then some ⟨fun _ => none, buckets, buckets - 1⟩ else none

/-- What `hsearch` leaves: the table, the slot it returns and those it has visited. -/
structure Found (D : Type) where
  table : Table D
  slot : Option ℕ
  visited : List ℕ

/-- The loop of `hsearch`. -/
def probe (t : Table D) (item : Entry D) (action : Action) (start increment : UInt32) :
    ℕ → UInt32 → List ℕ → Option (Found D)
  | 0, _, _ => none
  | n + 1, v, visited =>
      match t.hash v.toNat with
      | none =>
          match action with
          | .FIND => some ⟨t, none, visited ++ [v.toNat]⟩
          | .ENTER =>
              some ⟨{ t with hash := Function.update t.hash v.toNat (some item) }, some v.toNat,
                visited ++ [v.toNat]⟩
      | some e =>
          if e.key = item.key then some ⟨t, some v.toNat, visited ++ [v.toNat]⟩
          else
            let v' := (v + increment) &&& t.mask
            if v' ≠ start then probe t item action start increment n v' (visited ++ [v.toNat])
            else some ⟨t, none, visited ++ [v.toNat]⟩

def hsearch (t : Table D) (item : Entry D) (action : Action) : Option (Found D) :=
  let h := hash2v item.key.bytes
  let start := h.1 &&& t.mask
  probe t item action start (2 * h.2 + 1) t.buckets.toNat start []

theorem le_log2Up {nel n i : ℕ} (h : nel ≤ 2 ^ (i + n)) : nel ≤ 2 ^ log2Up nel n i := by
  induction n generalizing i with
  | zero => exact h
  | succ n ih =>
      rw [log2Up]
      split_ifs with hlt
      · exact ih (by rwa [show i + 1 + n = i + (n + 1) by omega])
      · exact Nat.le_of_not_lt hlt

theorem log2Up_le {nel n i m : ℕ} (hm : nel ≤ 2 ^ m) (hi : i ≤ m) : log2Up nel n i ≤ m := by
  induction n generalizing i with
  | zero => exact hi
  | succ n ih =>
      rw [log2Up]
      split_ifs with hlt
      · exact ih ((Nat.pow_lt_pow_iff_right (by decide)).mp (Nat.lt_of_lt_of_le hlt hm))
      · exact hi

/-- Never more than `MAX_BUCKETS` and never fewer than `nel`. -/
theorem slotsFor_spec {nel : ℕ} (h : nel ≤ MAX_BUCKETS) :
    nel ≤ slotsFor nel ∧ slotsFor nel ≤ MAX_BUCKETS := by
  unfold slotsFor MAX_BUCKETS at *
  dsimp only
  split_ifs <;> omega

/-- The number of buckets is a power of two and the mask takes the rest. -/
structure Table.Sized (t : Table D) (i : ℕ) : Prop where
  lt : i < 32
  buckets : t.buckets.toNat = 2 ^ i
  mask : t.mask.toNat = 2 ^ i - 1

theorem Table.Sized.and_mask {t : Table D} {i : ℕ} (h : t.Sized i) (x : UInt32) :
    (x &&& t.mask).toNat = x.toNat % 2 ^ i := by
  rw [UInt32.toNat_and, h.mask, Nat.and_two_pow_sub_one_eq_mod]

/-- The loop ends before its shift count leaves the word. -/
theorem hcreate_spec {nel : ℕ} {calloc : Bool} {t : Table D} (h : hcreate nel calloc = some t) :
    (∃ i, t.Sized i) ∧ nel ≤ t.buckets.toNat ∧ t.hash = fun _ => none := by
  unfold hcreate at h
  dsimp only at h
  split_ifs at h with hmax hc
  cases h
  obtain ⟨hle, hmax'⟩ := slotsFor_spec (Nat.le_of_not_lt hmax)
  have hup : slotsFor nel ≤ 2 ^ log2Up (slotsFor nel) 25 7 :=
    le_log2Up (Nat.le_trans hmax' (by decide))
  have hlog : log2Up (slotsFor nel) 25 7 ≤ 29 := log2Up_le hmax' (by decide)
  generalize log2Up (slotsFor nel) 25 7 = i at hup hlog
  have hlt : 2 ^ i < 4294967296 :=
    Nat.lt_of_le_of_lt (Nat.pow_le_pow_right (by decide) hlog) (by decide)
  have hpos := Nat.two_pow_pos i
  have hb : (UInt32.ofNat (2 ^ i)).toNat = 2 ^ i := by
    rw [UInt32.toNat_ofNat']
    exact Nat.mod_eq_of_lt hlt
  refine ⟨⟨i, by omega, hb, ?_⟩, ?_, rfl⟩
  · rw [UInt32.toNat_sub_of_le _ _ ?_, hb]
    · rfl
    · rw [UInt32.le_iff_toNat_le, hb]
      exact hpos
  · rw [hb]
    exact Nat.le_trans hle hup

/-- The order in which the slots are visited for a key. -/
def path (N : ℕ) (k : CString) : ℕ → ℕ :=
  stride N ((hash2v k.bytes).1.toNat % N) (2 * (hash2v k.bytes).2 + 1).toNat

theorem increment_odd (h : UInt32) : (2 * h + 1).toNat % 2 = 1 := by
  rw [UInt32.toNat_add, UInt32.toNat_mul]
  have h2 : (2 : UInt32).toNat = 2 := rfl
  have h1 : (1 : UInt32).toNat = 1 := rfl
  rw [h2, h1]
  omega

theorem isPath_path (i : ℕ) (k : CString) : IsPath (2 ^ i) (path (2 ^ i) k) := by
  apply isPath_stride (Nat.two_pow_pos i)
  apply Nat.Coprime.pow_right
  rw [Nat.coprime_two_right]
  exact Nat.odd_iff.mpr (increment_odd _)

variable {t : Table D} {i j n : ℕ} {item e : Entry D} {action : Action}

def trail (N : ℕ) (k : CString) (j : ℕ) : List ℕ := (List.range j).map (path N k)

theorem trail_succ (N : ℕ) (k : CString) (j : ℕ) :
    trail N k (j + 1) = trail N k j ++ [path N k j] := by
  rw [trail, trail, List.range_succ, List.map_append]
  rfl

/-- How a search can end: at the entry of the key, at a free slot, or where it began. -/
inductive Ends (t : Table D) (i : ℕ) (item : Entry D) (action : Action) : Found D → Prop
  | found {j : ℕ} {e : Entry D} (hj : j < 2 ^ i)
      (hp : Passed Entry.key (path (2 ^ i)) t.hash item.key j)
      (he : t.hash (path (2 ^ i) item.key j) = some e) (hk : e.key = item.key) :
      Ends t i item action
        ⟨t, some (path (2 ^ i) item.key j), trail (2 ^ i) item.key (j + 1)⟩
  | absent {j : ℕ} (ha : action = .FIND) (hj : j < 2 ^ i)
      (hp : Passed Entry.key (path (2 ^ i)) t.hash item.key j)
      (he : t.hash (path (2 ^ i) item.key j) = none) :
      Ends t i item action ⟨t, none, trail (2 ^ i) item.key (j + 1)⟩
  | entered {j : ℕ} (ha : action = .ENTER) (hj : j < 2 ^ i)
      (hp : Passed Entry.key (path (2 ^ i)) t.hash item.key j)
      (he : t.hash (path (2 ^ i) item.key j) = none) :
      Ends t i item action
        ⟨{ t with hash := Function.update t.hash (path (2 ^ i) item.key j) (some item) },
          some (path (2 ^ i) item.key j), trail (2 ^ i) item.key (j + 1)⟩
  | full (hp : Passed Entry.key (path (2 ^ i)) t.hash item.key (2 ^ i)) :
      Ends t i item action ⟨t, none, trail (2 ^ i) item.key (2 ^ i)⟩

/-- The loop follows the path of the key. -/
theorem probe_ends (h : t.Sized i) {start increment v : UInt32} (hj : j < 2 ^ i)
    (hn : 2 ^ i ≤ j + n) (hstart : start.toNat = path (2 ^ i) item.key 0)
    (hinc : increment = 2 * (hash2v item.key.bytes).2 + 1)
    (hv : v.toNat = path (2 ^ i) item.key j)
    (hp : Passed Entry.key (path (2 ^ i)) t.hash item.key j) :
    ∃ r, probe t item action start increment n v (trail (2 ^ i) item.key j) = some r ∧
      Ends t i item action r := by
  induction n generalizing j v with
  | zero => omega
  | succ n ih =>
      have htrail : trail (2 ^ i) item.key j ++ [v.toNat] = trail (2 ^ i) item.key (j + 1) := by
        rw [trail_succ, hv]
      rw [probe.eq_def]
      dsimp only
      rw [htrail, hv]
      cases he : t.hash (path (2 ^ i) item.key j) with
      | none =>
          cases action with
          | FIND => exact ⟨_, rfl, .absent rfl hj hp he⟩
          | ENTER => exact ⟨_, rfl, .entered rfl hj hp he⟩
      | some e =>
          dsimp only
          split_ifs with hk hne
          · exact ⟨_, rfl, .found hj hp he hk⟩
          all_goals
            have hnext : ((v + increment) &&& t.mask).toNat = path (2 ^ i) item.key (j + 1) := by
              rw [h.and_mask, UInt32.toNat_add, hv, path, stride_succ, hinc,
                Nat.mod_mod_of_dvd _ (Nat.pow_dvd_pow 2 (Nat.le_of_lt h.lt))]
          · -- the search goes on
            have hj' : j + 1 < 2 ^ i := by
              refine Nat.lt_of_le_of_ne hj fun heq => hne (UInt32.toNat_inj.mp ?_)
              rw [hnext, heq, hstart]
              exact stride_size _ _ _
            exact ih hj' (by omega) hnext (hp.succ he hk)
          · -- back where it began
            have hlast : j + 1 = 2 ^ i := by
              by_contra hlt
              have hj' : j + 1 < 2 ^ i := by omega
              have h0 := (isPath_path i item.key).inj (j + 1) hj' 0 (Nat.two_pow_pos i)
                (by rw [← hnext, Classical.not_not.mp hne, hstart])
              omega
            rw [hlast]
            exact ⟨_, rfl, .full (hlast ▸ hp.succ he hk)⟩

theorem hsearch_ends (h : t.Sized i) (item : Entry D) (action : Action) :
    ∃ r, hsearch t item action = some r ∧ Ends t i item action r := by
  have hpos := Nat.two_pow_pos i
  have hstart : ((hash2v item.key.bytes).1 &&& t.mask).toNat = path (2 ^ i) item.key 0 := by
    rw [h.and_mask, path, stride_zero (Nat.mod_lt _ hpos)]
  have hp : Passed Entry.key (path (2 ^ i)) t.hash item.key 0 := fun j hj => absurd hj (by omega)
  exact probe_ends h hpos (by rw [h.buckets]; omega) hstart rfl hstart hp

/-- A map with room for `N` keys, as the list of its entries in the order in
which they were entered. The data of a key is the first that was entered. -/
def mapStep (N : ℕ) (m : List (Entry D)) (item : Entry D) (action : Action) :
    List (Entry D) × Option (Entry D) :=
  match m.find? (fun e => e.key = item.key) with
  | some e => (m, some e)
  | none =>
      match action with
      | .FIND => (m, none)
      | .ENTER => if m.length < N then (m ++ [item], some item) else (m, none)

def mapRun (N : ℕ) (m : List (Entry D)) :
    List (Entry D × Action) → List (Entry D) × List (Option (Entry D))
  | [] => (m, [])
  | (item, action) :: calls =>
      let r := mapRun N (mapStep N m item action).1 calls
      (r.1, (mapStep N m item action).2 :: r.2)

/-- A run of calls: of each, the entry it returns and the slots it visits. -/
def run (t : Table D) :
    List (Entry D × Action) → Option (Table D × List (Option (Entry D) × List ℕ))
  | [] => some (t, [])
  | (item, action) :: calls =>
      match hsearch t item action with
      | none => none
      | some r =>
          (run r.table calls).map fun x => (x.1, (r.slot.bind r.table.hash, r.visited) :: x.2)

structure Table.Has (t : Table D) (i : ℕ) (l : List (ℕ × Entry D)) : Prop where
  sized : t.Sized i
  holds : Holds Entry.key (path (2 ^ i)) (2 ^ i) t.hash l

theorem trail_nodup (k : CString) (hj : j ≤ 2 ^ i) : (trail (2 ^ i) k j).Nodup := by
  refine List.Nodup.map_on ?_ List.nodup_range
  intro x hx y hy hxy
  have hx' := List.mem_range.mp hx
  have hy' := List.mem_range.mp hy
  exact (isPath_path i k).inj x (by omega) y (by omega) hxy

theorem mem_trail (k : CString) {s : ℕ} (hs : s ∈ trail (2 ^ i) k j) : s < 2 ^ i := by
  obtain ⟨x, -, rfl⟩ := List.mem_map.mp hs
  exact (isPath_path i k).lt x

variable {l : List (ℕ × Entry D)}

theorem Table.Has.find_some (h : t.Has i l) {x : ℕ × Entry D} (hx : x ∈ l) :
    (l.map Prod.snd).find? (fun e => e.key = x.2.key) = some x.2 := by
  cases hf : (l.map Prod.snd).find? (fun e => e.key = x.2.key) with
  | none =>
      have := List.find?_eq_none.mp hf x.2 (List.mem_map.mpr ⟨x, hx, rfl⟩)
      simp at this
  | some e =>
      obtain ⟨y, hy, rfl⟩ := List.mem_map.mp (List.mem_of_find?_eq_some hf)
      have hk := List.find?_some hf
      rw [h.holds.unique hy hx (by simpa using hk) rfl]

theorem find_none {k : CString} (h : ∀ x ∈ l, x.2.key ≠ k) :
    (l.map Prod.snd).find? (fun e => e.key = k) = none := by
  rw [List.find?_eq_none]
  intro e he
  obtain ⟨x, hx, rfl⟩ := List.mem_map.mp he
  simpa using h x hx

/-- One call does what the map does. -/
theorem hsearch_spec (h : t.Has i l) (item : Entry D) (action : Action) :
    ∃ r l', hsearch t item action = some r ∧ r.table.Has i l' ∧
      mapStep (2 ^ i) (l.map Prod.snd) item action =
        (l'.map Prod.snd, r.slot.bind r.table.hash) ∧
      r.visited.Nodup ∧ ∀ s ∈ r.visited, s < 2 ^ i := by
  obtain ⟨r, hr, hends⟩ := hsearch_ends h.sized item action
  cases hends with
  | @found j e hj hp he hk =>
      have hmem := (h.holds.slots _ e).mp he
      refine ⟨_, l, hr, h, ?_, trail_nodup _ (by omega), fun s hs => mem_trail _ hs⟩
      unfold mapStep
      rw [← hk, h.find_some hmem, hk]
      simp [he]
  | @absent j ha hj hp he =>
      refine ⟨_, l, hr, h, ?_, trail_nodup _ (by omega), fun s hs => mem_trail _ hs⟩
      unfold mapStep
      rw [find_none (h.holds.absent_of_free hp he), ha]
      rfl
  | @entered j ha hj hp he =>
      have hins := h.holds.insert hj (isPath_path i item.key) hp he
      refine ⟨_, _, hr, ⟨⟨h.sized.lt, h.sized.buckets, h.sized.mask⟩, hins⟩, ?_,
        trail_nodup _ (by omega), fun s hs => mem_trail _ hs⟩
      have hroom : l.length < 2 ^ i := by
        have := hins.length_le
        rw [List.length_append, List.length_singleton] at this
        omega
      unfold mapStep
      rw [find_none (h.holds.absent_of_free hp he), ha]
      simp [hroom]
  | full hp =>
      refine ⟨_, l, hr, h, ?_, trail_nodup _ (Nat.le_refl _), fun s hs => mem_trail _ hs⟩
      have hfull := h.holds.full_of_passed (isPath_path i item.key) hp
      unfold mapStep
      rw [find_none (h.holds.absent_of_passed hp)]
      cases action with
      | FIND => rfl
      | ENTER => simp [hfull]

theorem run_spec (h : t.Has i l) (calls : List (Entry D × Action)) :
    ∃ t' l' answers, run t calls = some (t', answers) ∧ t'.Has i l' ∧
      mapRun (2 ^ i) (l.map Prod.snd) calls = (l'.map Prod.snd, answers.map Prod.fst) ∧
      ∀ a ∈ answers, a.2.Nodup ∧ ∀ s ∈ a.2, s < 2 ^ i := by
  induction calls generalizing t l with
  | nil => exact ⟨t, l, [], rfl, h, rfl, fun a ha => absurd ha List.not_mem_nil⟩
  | cons call calls ih =>
      obtain ⟨item, action⟩ := call
      obtain ⟨r, l₁, hr, h₁, hstep, hnodup, hlt⟩ := hsearch_spec h item action
      obtain ⟨t', l', answers, hrun, h', hmap, hall⟩ := ih h₁
      refine ⟨t', l', _, by rw [run, hr]; dsimp only; rw [hrun]; rfl, h', ?_, ?_⟩
      · rw [mapRun, hstep]
        dsimp only
        rw [hmap]
        rfl
      · intro a ha
        rcases List.mem_cons.mp ha with rfl | ha
        · exact ⟨hnodup, hlt⟩
        · exact hall a ha

/-- Every run of `hsearch` calls on a table that `hcreate` has made for `nel`
keys is a run of the finite map with room for at least `nel` keys: no search
goes on for ever or looks at a slot twice, every call returns what the map
does, and in the end the slots hold the entries of the map, each once. -/
theorem hsearch_refines_map {nel : ℕ} {calloc : Bool} {t : Table D}
    (h : hcreate nel calloc = some t) (calls : List (Entry D × Action)) :
    nel ≤ t.buckets.toNat ∧
      ∃ t' answers, run t calls = some (t', answers) ∧
        (mapRun t.buckets.toNat [] calls).2 = answers.map Prod.fst ∧
        (∀ a ∈ answers, a.2.Nodup ∧ ∀ s ∈ a.2, s < t.buckets.toNat) ∧
        (∀ e, e ∈ (mapRun t.buckets.toNat [] calls).1 ↔
          ∃ s < t.buckets.toNat, t'.hash s = some e) ∧
        ∀ s s' e e', t'.hash s = some e → t'.hash s' = some e' → e.key = e'.key → s = s' := by
  obtain ⟨⟨i, hi⟩, hnel, hempty⟩ := hcreate_spec h
  have h₀ : t.Has i [] := ⟨hi, by rw [hempty]; exact Holds.empty⟩
  obtain ⟨t', l', answers, hrun, h', hmap, hall⟩ := run_spec h₀ calls
  rw [List.map_nil] at hmap
  rw [hi.buckets, hmap] at *
  refine ⟨hnel, t', answers, hrun, rfl, hall, ?_, ?_⟩
  · intro e
    constructor
    · intro he
      obtain ⟨x, hx, rfl⟩ := List.mem_map.mp he
      exact ⟨x.1, h'.holds.lt x hx, (h'.holds.slots _ _).mpr hx⟩
    · rintro ⟨s, -, hs⟩
      exact List.mem_map.mpr ⟨(s, e), (h'.holds.slots s e).mp hs, rfl⟩
  · intro s s' e e' hs hs' hk
    have heq := h'.holds.unique ((h'.holds.slots s e).mp hs) ((h'.holds.slots s' e').mp hs') rfl
      hk.symm
    exact (Prod.mk.inj heq).1

/-- Two keys; one is entered twice, the other is only looked for. -/
def sampleCalls : List (Entry ℕ × Action) :=
  [(⟨⟨[97], by decide⟩, 1⟩, .ENTER), (⟨⟨[97], by decide⟩, 2⟩, .ENTER),
    (⟨⟨[98], by decide⟩, 0⟩, .FIND)]

theorem hsearch_refines_map_first :
    ∃ t t' answers, (hcreate 3 true : Option (Table ℕ)) = some t ∧ 3 ≤ t.buckets.toNat ∧
      run t sampleCalls = some (t', answers) ∧
      answers.map Prod.fst = [some ⟨⟨[97], by decide⟩, 1⟩, some ⟨⟨[97], by decide⟩, 1⟩, none] := by
  have h : (hcreate 3 true : Option (Table ℕ)) = some ⟨fun _ => none, 128, 127⟩ := rfl
  obtain ⟨hn, t', answers, hrun, hans, -⟩ := hsearch_refines_map h sampleCalls
  exact ⟨_, t', answers, h, hn, hrun, hans.symm.trans (by decide)⟩

end DjgppLibc.Hsearch
