import Mathlib.Data.List.Induction
import DjgppLibc.Fixpath

/-!
# The copy of a path

While a path is copied, the buffer holds the drive and the names of a directory,
each behind a slash of one kind or the other. A name of the path changes this list
as `PathNames.push` does, as long as there is room for it. `walk_spec` says so for
the whole loop, with the bytes of the buffer that it reaches.
-/
namespace DjgppLibc.Fixpath

open PathNames

def Out.Reads (out : Out) : ℕ → List Char → Prop
  | _, [] => True
  | i, c :: s => out.mem i = c ∧ out.Reads (i + 1) s

def Out.Holds (out : Out) (s : List Char) : Prop := out.Reads 0 (s ++ [nul])

structure Out.Within (out : Out) (lo hi : ℕ) (out' : Out) : Prop where
  mem : ∀ i, i < lo ∨ hi ≤ i → out'.mem i = out.mem i
  written : out'.written ≤ max out.written hi

variable {out out' : Out} {i j k lo hi : ℕ} {s t : List Char} {c : Char}

theorem reads_append : out.Reads i (s ++ t) ↔ out.Reads i s ∧ out.Reads (i + s.length) t := by
  induction s generalizing i with
  | nil => simp [Out.Reads]
  | cons c s ih =>
      rw [List.cons_append, Out.Reads, ih, Out.Reads, List.length_cons, and_assoc]
      simp only [Nat.add_assoc, Nat.add_comm 1]

theorem Out.Reads.congr (h : out.Reads i s)
    (hmem : ∀ k, i ≤ k → k < i + s.length → out'.mem k = out.mem k) : out'.Reads i s := by
  induction s generalizing i with
  | nil => trivial
  | cons c s ih =>
      rw [List.length_cons] at hmem
      exact ⟨(hmem i (Nat.le_refl i) (by omega)).trans h.1,
        ih h.2 fun k hk hk' => hmem k (by omega) (by omega)⟩

theorem Out.Within.refl (out : Out) (lo hi : ℕ) : out.Within lo hi out :=
  ⟨fun _ _ => rfl, by omega⟩

theorem Out.Within.trans {out'' : Out} (h : out.Within lo hi out') (h' : out'.Within lo hi out'') :
    out.Within lo hi out'' :=
  ⟨fun i hi => (h'.mem i hi).trans (h.mem i hi), by have := h.written; have := h'.written; omega⟩

theorem Out.Within.mono {lo' hi' : ℕ} (h : out.Within lo hi out') (hlo : lo' ≤ lo)
    (hhi : hi ≤ hi') :
    out.Within lo' hi' out' :=
  ⟨fun i hi => h.mem i (by omega), by have := h.written; omega⟩

theorem Out.within_store (out : Out) (i : ℕ) (c : Char) : out.Within i (i + 1) (out.store i c) := by
  refine ⟨fun k hk => ?_, Nat.le_refl _⟩
  have hne : k ≠ i := by omega
  simp [Out.store, hne]

theorem Out.within_storeAll (out : Out) (i : ℕ) (s : List Char) :
    out.Within i (i + s.length) (out.storeAll i s) := by
  induction s generalizing out i with
  | nil => exact .refl out i _
  | cons c s ih =>
      rw [List.length_cons]
      exact .trans ((out.within_store i c).mono (Nat.le_refl i) (by omega))
        ((ih (out.store i c) (i + 1)).mono (by omega) (by omega))

/-- What stands before the changed bytes is left. -/
theorem Out.Reads.before (h : out.Reads i s) (hw : out.Within lo hi out') (hs : i + s.length ≤ lo) :
    out'.Reads i s :=
  h.congr fun k _ hk => hw.mem k (by omega)

theorem Out.Reads.behind (h : out.Reads i s) (hw : out.Within lo hi out') (hs : hi ≤ i) :
    out'.Reads i s :=
  h.congr fun k hk _ => hw.mem k (by omega)

@[simp] theorem Out.store_mem (out : Out) (i : ℕ) (c : Char) : (out.store i c).mem i = c := by
  simp [Out.store]

theorem Out.reads_storeAll (out : Out) (i : ℕ) (s : List Char) : (out.storeAll i s).Reads i s := by
  induction s generalizing out i with
  | nil => trivial
  | cons c s ih =>
      refine ⟨?_, ih _ (i + 1)⟩
      rw [Out.storeAll, ((out.store i c).within_storeAll (i + 1) s).mem i (by omega), Out.store_mem]

theorem Out.Reads.slice (h : out.Reads i s) : out.slice i (i + s.length) = s := by
  induction s generalizing i with
  | nil => simp [Out.slice]
  | cons c s ih =>
      have ih := ih h.2
      unfold Out.slice at ih ⊢
      rw [List.length_cons, show i + (s.length + 1) - i = s.length + 1 by omega,
        List.range_succ_eq_map]
      rw [show i + 1 + s.length - (i + 1) = s.length by omega] at ih
      simp only [List.map_cons, List.map_map, Nat.add_zero, h.1]
      refine congrArg (c :: ·) (Eq.trans (List.map_congr_left fun k _ => ?_) ih)
      simp only [Function.comp_apply]
      rw [Nat.add_assoc, Nat.add_comm 1]

theorem backUp_reads {n : List Char} (h : out.Reads 0 (t ++ c :: n)) (hc : isSlash c = true)
    (hn : ∀ x ∈ n, isSlash x = false) : backUp out.mem (t.length + 1 + n.length) =
    some t.length := by
  induction n using List.reverseRecOn with
  | nil =>
      have hmem := (reads_append.mp h).2.1
      rw [Nat.zero_add] at hmem
      rw [List.length_nil, Nat.add_zero, backUp, hmem, if_pos hc]
  | append_singleton n x ih =>
      have h' : out.Reads 0 ((t ++ c :: n) ++ [x]) := by simpa using h
      obtain ⟨hread, hx, -⟩ := reads_append.mp h'
      have hlen : 0 + (t ++ c :: n).length = t.length + 1 + n.length := by
        simp only [List.length_append, List.length_cons]
        omega
      rw [hlen] at hx
      rw [List.length_append, List.length_singleton, ← Nat.add_assoc, backUp, hx,
        if_neg (by simp [hn x (by simp)])]
      exact ih hread fun y hy => hn y (by simp [hy])

/-- The names of a directory, each with the slash before it. -/
abbrev Entries := List (Char × List Char)

def body (es : Entries) : List Char := es.flatMap fun e => e.1 :: e.2

structure Proper (e : Char × List Char) : Prop where
  slash : isSlash e.1 = true
  name : IsName isSlash '.' e.2
  nul_notMem : nul ∉ e.2

/-- The buffer holds the drive and the names up to `op`. -/
structure Copied (letter : Char) (out : Out) (op : ℕ) (es : Entries) : Prop where
  reads : out.Reads 0 (letter :: ':' :: body es)
  op_eq : op = 2 + (body es).length
  proper : ∀ e ∈ es, Proper e
  first : ∀ e ∈ es.head?, e.1 = '/'

def width (ns : List (List Char)) : ℕ := (ns.flatMap ('/' :: ·)).length

def Fits (limit : ℕ) : List (List Char) → List (List Char) → Prop :=
  EachAdded '.' fun dirs n => 2 + width (dirs ++ [n]) < limit

instance (limit : ℕ) (dirs ns : List (List Char)) : Decidable (Fits limit dirs ns) :=
  EachAdded.decidable '.' _ dirs ns

def Clear (limit : ℕ) : List (List Char) → List (List Char) → Prop :=
  EachAdded '.' fun dirs _ => 2 + width dirs + 1 ≠ limit

theorem length_body (es : Entries) : (body es).length = width (es.map Prod.snd) := by
  simp [body, width, List.length_flatMap, List.flatMap_map]

theorem body_cons (e : Char × List Char) (es : Entries) :
    body (e :: es) = e.1 :: (e.2 ++ body es) := rfl

theorem body_concat (es : Entries) (e : Char × List Char) :
    body (es ++ [e]) = body es ++ e.1 :: e.2 := by
  simp [body]

variable {letter : Char} {op limit : ℕ} {es : Entries} {n r tail : List Char}

theorem isTerm_eq (c : Char) : isTerm c = (isSlash c || decide (c = nul)) := rfl

theorem Proper.isTerm_eq_false {e : Char × List Char} (h : Proper e) :
    ∀ c ∈ e.2, isTerm c = false := by
  intro c hc
  rw [isTerm_eq, h.name.sep_eq_false c hc, Bool.false_or, decide_eq_false_iff_not]
  exact fun he => h.nul_notMem (he ▸ hc)

/-- A name is copied as long as it does not reach the end of the buffer. -/
theorem copyName_append (limit : ℕ) (out : Out) (op : ℕ) (r : List Char)
    (hn : ∀ c ∈ n, isTerm c = false) :
    (n = [] ∨ op + n.length < limit →
      copyName limit out op (n ++ r) = copyName limit (out.storeAll op n) (op + n.length) r) ∧
    (n ≠ [] → limit ≤ op + n.length →
      ∃ out', copyName limit out op (n ++ r) = .error (.enametoolong, out') ∧
        out'.written ≤ max out.written (max limit (op + 1))) := by
  induction n generalizing out op with
  | nil => exact ⟨fun _ => rfl, fun h => absurd rfl h⟩
  | cons c n ih =>
      obtain ⟨hc, hn⟩ := List.forall_mem_cons.mp hn
      rw [List.cons_append, copyName, if_neg (by simp [hc]), List.length_cons]
      have hw := (out.within_store op c).written
      obtain ⟨hok, herr⟩ := ih (out.store op c) (op + 1) hn
      refine ⟨fun h => ?_, fun _ hle => ?_⟩
      · have hlt := h.resolve_left (List.cons_ne_nil c n)
        rw [if_neg (by omega), hok (.inr (by omega)), Out.storeAll, Nat.add_assoc, Nat.add_comm 1]
      · by_cases hl : limit ≤ op + 1
        · exact ⟨_, if_pos hl, by omega⟩
        · have hne : n ≠ [] := by
            rintro rfl
            exact hl hle
          obtain ⟨out', he, hw'⟩ := herr hne (by omega)
          exact ⟨out', by rw [if_neg hl, he], by omega⟩

theorem copyName_spec (limit : ℕ) (out : Out) (op : ℕ) (hn : ∀ c ∈ n, isTerm c = false)
    (hr : startsTerm r = true) :
    (copyName limit out op (n ++ r) = .ok (out.storeAll op n, op + n.length, r) ∧
      (n ≠ [] → op + n.length < limit)) ∨
    ∃ out', copyName limit out op (n ++ r) = .error (.enametoolong, out') ∧
      limit ≤ op + n.length ∧ (op < limit → out'.written ≤ max out.written limit) := by
  obtain ⟨hok, herr⟩ := copyName_append limit out op r hn
  by_cases hroom : n = [] ∨ op + n.length < limit
  · refine .inl ⟨?_, fun hne => hroom.resolve_left hne⟩
    rw [hok hroom]
    cases r with
    | nil => cases hr
    | cons c r => exact if_pos (by simpa [startsTerm] using hr)
  · rw [not_or, Nat.not_lt] at hroom
    obtain ⟨out', he, hw⟩ := herr hroom.1 hroom.2
    exact .inr ⟨out', he, hroom.2, fun _ => by omega⟩

theorem walk_nul (limit : ℕ) (out : Out) (op : ℕ) (tail : List Char) :
    walk limit out op (nul :: tail) = .ok (out, op) := by
  rw [walk, if_pos rfl]

theorem walk_slash (hc : isSlash c = true) (s : List Char) :
    walk limit out op (c :: s) = walk limit out op s := by
  have hne : c ≠ nul := by
    rintro rfl
    cases hc
  rw [walk, if_neg hne, if_pos hc]

theorem walk_dot (hr : startsTerm r = true) :
    walk limit out op ('.' :: r) = walk limit out op r := by
  have hne : ¬ (r = [] ∨ r = ['.']) := by
    rintro (rfl | rfl) <;> cases hr
  rw [walk, if_neg (by decide), if_neg (by decide), if_neg (fun h => hne h.2), if_pos ⟨rfl, hr⟩]

theorem walk_dotdot (h : Copied letter out op es) (hr : startsTerm r = true) :
    walk limit out op ('.' :: '.' :: r) = walk limit out (2 + (body es.dropLast).length) r := by
  have hlast : ¬ (out.mem 2 = '.' ∧ out.mem (op - 1) = '.') := by
    rintro ⟨h₂, hop⟩
    obtain ⟨-, hcolon, hread⟩ := h.reads
    cases es with
    | nil =>
        rw [h.op_eq] at hop
        exact absurd (hcolon.symm.trans hop) (by decide)
    | cons e es =>
        have hslash := h.first e rfl
        exact absurd (hslash.symm.trans (hread.1.symm.trans h₂)) (by decide)
  have hne : ¬ ('.' :: r = [] ∨ '.' :: r = ['.']) := by
    rintro (h | h)
    · cases h
    · rw [(List.cons.inj h).2] at hr
      cases hr
  rw [walk, if_neg (by decide), if_neg (by decide), if_neg (fun h => hne h.2),
    if_neg (fun h => absurd h.2 (by simp [startsTerm, isTerm, nul])), if_pos ⟨rfl, rfl, hr⟩,
    if_neg hlast]
  rcases List.eq_nil_or_concat' es with rfl | ⟨es, e, rfl⟩
  · rw [if_neg (by rw [h.op_eq]; simp [body]), h.op_eq]
    rfl
  · have he := h.proper e (by simp)
    have hop := h.op_eq
    have hread := h.reads
    rw [body_concat] at hop hread
    simp only [List.length_append, List.length_cons] at hop
    have hback : backUp out.mem op = some (2 + (body es).length) := by
      have := backUp_reads (t := letter :: ':' :: body es) hread he.slash he.name.sep_eq_false
      simp only [List.length_cons] at this
      rw [hop, show 2 + ((body es).length + (e.2.length + 1)) =
        (body es).length + 1 + 1 + 1 + e.2.length by omega, this, Nat.add_comm 2]
    rw [if_pos (by omega), hback, List.dropLast_concat]
    rfl

/-- A name that is neither `.` nor `..` is copied behind a slash. -/
theorem walk_name (hn : ∀ c ∈ n, isTerm c = false) (hne : n ≠ []) (hdot : n ≠ ['.'])
    (hdotdot : n ≠ ['.', '.']) (hr : ∀ c ∈ r.head?, isTerm c = true) :
    walk limit out op (n ++ r) =
      if limit ≤ op then .error (.enametoolong, out)
      else copyName limit (out.store op '/') (op + 1) (n ++ r) >>= fun x =>
        walk limit x.1 x.2.1 x.2.2 := by
  cases n with
  | nil => exact absurd rfl hne
  | cons c n =>
      obtain ⟨hc, hn'⟩ := List.forall_mem_cons.mp hn
      rw [isTerm_eq, Bool.or_eq_false_iff, decide_eq_false_iff_not] at hc
      have hhead : ∀ m, (∀ c ∈ m, isTerm c = false) → startsTerm (m ++ r) = true → m = [] := by
        intro m hm hs
        cases m with
        | nil => rfl
        | cons x m =>
            rw [startsTerm, List.cons_append, List.head?_cons, Option.any_some,
              hm x List.mem_cons_self] at hs
            cases hs
      have hend : ¬ (c = '.' ∧ (n ++ r = [] ∨ n ++ r = ['.'])) := by
        rintro ⟨rfl, h | h⟩
        · rw [(List.append_eq_nil_iff.mp h).1] at hdot
          exact hdot rfl
        · rcases List.append_eq_singleton_iff.mp h with ⟨-, rfl⟩ | ⟨rfl, -⟩
          · exact absurd (hr '.' rfl) (by decide)
          · exact hdotdot rfl
      have hone : ¬ (c = '.' ∧ startsTerm (n ++ r) = true) := by
        rintro ⟨rfl, h⟩
        rw [hhead n hn' h] at hdot
        exact hdot rfl
      have htwo : ¬ (c = '.' ∧ (n ++ r).head? = some '.' ∧ startsTerm (n ++ r).tail = true) := by
        rintro ⟨rfl, h, h'⟩
        cases n with
        | nil => exact absurd (hr '.' h) (by decide)
        | cons x n =>
            cases h
            rw [hhead n (fun y hy => hn' y (List.mem_cons_of_mem _ hy)) h'] at hdotdot
            exact hdotdot rfl
      rw [List.cons_append, walk, if_neg hc.2, if_neg (by simp [hc.1]), if_neg hend, if_neg hone,
        if_neg htwo]
      split_ifs
      · rfl
      · split <;> rename_i heq <;> rw [heq] <;> rfl

/-- What the loop makes of a path, behind the names that have been copied. -/
structure Walked (letter : Char) (limit : ℕ) (out : Out) (dirs ns : List (List Char))
    (res : Result (Out × ℕ)) : Prop where
  ok : Fits limit dirs ns → ∃ out' op' es, res = .ok (out', op') ∧ Copied letter out' op' es ∧
    es.map Prod.snd = ns.foldl (push '.') dirs ∧ out'.written ≤ max out.written limit
  error : ¬ Fits limit dirs ns → ∃ out', res = .error (.enametoolong, out') ∧
    (Clear limit dirs ns → out'.written ≤ max out.written limit)

variable {dirs ns : List (List Char)} {res : Result (Out × ℕ)}

theorem width_concat (dirs : List (List Char)) (n : List Char) :
    width (dirs ++ [n]) = width dirs + 1 + n.length := by
  simp [width, Nat.add_assoc, Nat.add_comm 1]

theorem Walked.skip (hn : n = ['.'] ∨ n = ['.', '.'])
    (h : Walked letter limit out (push '.' dirs n) ns res) :
    Walked letter limit out dirs (n :: ns) res := by
  have hvac : n ≠ ['.'] → n ≠ ['.', '.'] → False := fun h₁ h₂ => hn.elim h₁ h₂
  exact ⟨fun hf => h.ok hf.2, fun hf => (h.error fun hf' => hf ⟨fun h₁ h₂ => (hvac h₁ h₂).elim,
    hf'⟩).imp
    fun out' ⟨he, hw⟩ => ⟨he, fun hc => hw hc.2⟩⟩

theorem Walked.add (h : Walked letter limit out' (push '.' dirs n) ns res)
    (hn : 2 + width (dirs ++ [n]) < limit) (hw : out'.written ≤ max out.written limit) :
    Walked letter limit out dirs (n :: ns) res := by
  constructor
  · intro hf
    obtain ⟨out'', op, es, hres, hc, hes, hw'⟩ := h.ok hf.2
    exact ⟨out'', op, es, hres, hc, hes, by omega⟩
  · intro hf
    obtain ⟨out'', hres, hw'⟩ := h.error fun hf' => hf ⟨fun _ _ => hn, hf'⟩
    exact ⟨out'', hres, fun hclear => by have := hw' hclear.2; omega⟩

theorem Walked.stop (hdot : n ≠ ['.']) (hdotdot : n ≠ ['.', '.'])
    (hn : limit ≤ 2 + width (dirs ++ [n]))
    (hw : 2 + width dirs + 1 ≠ limit → out'.written ≤ max out.written limit) :
    Walked letter limit out dirs (n :: ns) (.error (.enametoolong, out')) :=
  ⟨fun hf => absurd (hf.1 hdot hdotdot) (by omega),
    fun _ => ⟨out', rfl, fun hclear => hw (hclear.1 hdot hdotdot)⟩⟩

theorem Copied.dropLast (h : Copied letter out op es) :
    Copied letter out (2 + (body es.dropLast).length) es.dropLast := by
  rcases List.eq_nil_or_concat' es with rfl | ⟨es, e, rfl⟩
  · exact ⟨h.reads, rfl, h.proper, h.first⟩
  · have hread := h.reads
    rw [body_concat, ← List.cons_append, ← List.cons_append] at hread
    rw [List.dropLast_concat]
    refine ⟨(reads_append.mp hread).1, rfl, fun e' he' => h.proper e' (by simp [he']),
      fun e' he' => ?_⟩
    refine h.first e' ?_
    rw [List.head?_append, Option.mem_def.mp he']
    rfl

theorem Copied.concat (h : Copied letter out op es) (hn : Proper ('/', n)) :
    Copied letter ((out.store op '/').storeAll (op + 1) n) (op + 1 + n.length)
      (es ++ [('/', n)]) := by
  refine ⟨?_, ?_, ?_, ?_⟩
  · have hstore : (out.storeAll op ('/' :: n)).Reads 0 (letter :: ':' :: body es) :=
      h.reads.before (out.within_storeAll op _) (by rw [h.op_eq]; simp; omega)
    rw [body_concat, ← List.cons_append, ← List.cons_append]
    refine reads_append.mpr ⟨hstore, ?_⟩
    have hlen : 0 + (letter :: ':' :: body es).length = op := by
      rw [h.op_eq]
      simp
      omega
    rw [hlen]
    exact out.reads_storeAll op ('/' :: n)
  · rw [body_concat, h.op_eq]
    simp
    omega
  · intro e he
    rcases List.mem_append.mp he with he | he
    · exact h.proper e he
    · rw [List.mem_singleton.mp he]
      exact hn
  · intro e he
    cases es with
    | nil =>
        cases he
        rfl
    | cons e' es => exact h.first e he

/-- The loop over a whole path. -/
theorem walk_spec (tail : List Char) {p : List Char} (hp : nul ∉ p) (h : Copied letter out op es) :
    Walked letter limit out (es.map Prod.snd) (names isSlash p)
      (walk limit out op (p ++ nul :: tail)) := by
  induction p using induction_names isSlash generalizing out op es with
  | nil =>
      rw [List.nil_append, walk_nul]
      exact ⟨fun _ => ⟨out, op, es, rfl, h, rfl, by omega⟩, fun hf => absurd trivial hf⟩
  | slash c p hc ih =>
      rw [names_sep hc, List.cons_append, walk_slash hc]
      exact ih (fun hm => hp (List.mem_cons_of_mem _ hm)) h
  | name n r hne hn hr ih =>
      rw [names_append hne hn hr, List.append_assoc]
      have hpn : nul ∉ n := fun hm => hp (List.mem_append_left _ hm)
      have ih := fun {out op es} => @ih out op es (fun hm => hp (List.mem_append_right _ hm))
      have hterm : startsTerm (r ++ nul :: tail) = true := by
        cases r with
        | nil => rfl
        | cons c r =>
            rw [startsTerm, List.cons_append, List.head?_cons, Option.any_some, isTerm_eq, hr c rfl]
            rfl
      by_cases hdot : n = ['.']
      · refine .skip (.inl hdot) ?_
        rw [hdot, push_dot, List.cons_append, List.nil_append, walk_dot hterm]
        exact ih h
      by_cases hdotdot : n = ['.', '.']
      · refine .skip (.inr hdotdot) ?_
        rw [hdotdot, push_dotdot, List.cons_append, List.cons_append, List.nil_append,
          walk_dotdot h hterm, ← List.map_dropLast]
        exact ih h.dropLast
      have hproper : Proper ('/', n) := ⟨rfl, ⟨hne, hdot, hdotdot, hn⟩, hpn⟩
      have hnterm : ∀ c ∈ n, isTerm c = false := hproper.isTerm_eq_false
      have hop : op = 2 + width (es.map Prod.snd) := h.op_eq.trans (by rw [length_body])
      have hwide := width_concat (es.map Prod.snd) n
      have hhead : ∀ c ∈ (r ++ nul :: tail).head?, isTerm c = true := by
        intro c hc
        rwa [startsTerm, Option.mem_def.mp hc, Option.any_some] at hterm
      rw [walk_name hnterm hne hdot hdotdot hhead]
      split_ifs with hl
      · exact .stop hdot hdotdot (by omega) fun _ => by omega
      have hstore := (out.within_store op '/').written
      rcases copyName_spec limit (out.store op '/') (op + 1) hnterm hterm with
        ⟨hok, hlt⟩ | ⟨out', herr, hle, hw⟩
      · rw [hok]
        have hall := ((out.store op '/').within_storeAll (op + 1) n).written
        have hlt := hlt hne
        have ih := ih (h.concat hproper)
        rw [List.map_append] at ih
        refine .add (?_ : Walked letter limit ((out.store op '/').storeAll (op + 1) n) _ _ _)
          (by omega) (by omega)
        rw [push_name hdot hdotdot]
        exact ih
      · rw [herr]
        refine .stop hdot hdotdot (by omega) fun hclear => ?_
        have := hw (by omega)
        omega

end DjgppLibc.Fixpath
