import Mathlib.Data.List.TakeWhile
import DjgppLibc.FixpathNormal

/-!
# The bounds of `__canonicalize_path` (`posix/sys/stat/fixpath.c`)

For all paths and all answers of DOS. A check of the end of the buffer stands before each
name and behind each of its characters. Nothing is checked before the drive, the current
directory, the slash of the root, the first character of a name, and a `..` that is kept
because the current directory is not known. `in1` takes a fixed number of bytes, so that
the NUL of a long path is not among them; the end of `in1` is then noticed only if a name
reaches the end of the buffer before. `canonicalizePath_sound_iff` has the exact condition.
-/
namespace DjgppLibc.Fixpath

open PathNames

/-- A `..` is kept: the current directory is not known, and no name can be taken away. -/
def KeepsUp (t : List Char) : Prop := t.head? = some '.' ∧ t.getLast? = some '.'

instance (t : List Char) : Decidable (KeepsUp t) := inferInstanceAs (Decidable (_ ∧ _))

def parent (t : List Char) : List Char := ((t.reverse.dropWhile fun c => !isSlash c).drop 1).reverse

def nextCopy (t n : List Char) : List Char :=
  if n = ['.'] then t
  else if n = ['.', '.'] then if KeepsUp t then t ++ '/' :: n else parent t
  else t ++ '/' :: n

/-- The current directory as it is copied, and the bytes that are stored for it. -/
def directoryCopy (dos : Dos) (drive : ℕ) : List Char × ℕ :=
  match (askDirectory dos drive).1 with
  | none => (['.'], 3)
  | some dir =>
      if dir ≠ [] then ('/' :: dir, 4 + dir.length)
      else if ¬ dos.winNT ∨ ¬ (askDirectory dos drive).2 then ([], 4)
      else
        match dos.longPathName drive with
        | some path =>
            if isDriveSpecifier drive path then
              if isRootDir path then ([], 4) else (path.drop 2, max 4 (3 + (path.drop 2).length))
            else (['.'], 4)
        | none => (['.'], 4)

def startCopy (dos : Dos) (drive : ℕ) (ip : List Char) : List Char × ℕ :=
  if isRelative ip then directoryCopy dos drive else ([], 2)

/-- The copy of all names stays in `room` bytes, and the NUL of the path is read unless a name
reaches `limit` before. -/
def Contained (limit room : ℕ) (ended : Prop) : List Char → List (List Char) → Prop
  | t, [] => ended ∧ (t = [] → 3 ≤ room)
  | t, n :: ns =>
      if n = ['.'] ∨ n = ['.', '.'] then
        (n = ['.', '.'] → KeepsUp t → 2 + t.length + 3 ≤ room) ∧
          Contained limit room ended (nextCopy t n) ns
      else limit ≤ 2 + t.length ∨
        2 + t.length + 2 ≤ room ∧
          (limit ≤ 2 + t.length + 1 + n.length ∨ Contained limit room ended (nextCopy t n) ns)

/-- DOS answers with a full path: a slash stands behind the drive. -/
def FullNames (dos : Dos) : Prop :=
  ∀ drive, ∀ path ∈ dos.longPathName drive, isDriveSpecifier drive path = true →
    ∃ c ∈ (path.drop 2).head?, isSlash c = true

def transferred (dos : Dos) (path : List Char) : List Char := putPath dos path ++ nul :: dos.behind

def canonical (dos : Dos) (path : List Char) : List Char :=
  let (drive, _, ip) := driveOf dos (transferred dos path)
  (names isSlash (ip.takeWhile (· ≠ nul))).foldl nextCopy (startCopy dos drive ip).1

/-- No read is outside of `in1`, no store is outside of the first `path_max` bytes, and a
copy that does not fit there is an error. -/
structure Sound (dos : Dos) (path : List Char) (pathMax : ℕ) (res : Result Out) : Prop where
  inside : ∀ out, res ≠ .error (.outside, out)
  written : (bufferOf res).written ≤ pathMax
  enametoolong : min pathMax FILENAME_MAX ≤ 2 + max 1 (canonical dos path).length →
    ∃ out, res = .error (.enametoolong, out)

/-- There is room for the current directory and for the names behind it. -/
def Guarded (dos : Dos) (path : List Char) (pathMax : ℕ) : Prop :=
  let (drive, _, ip) := driveOf dos ((transferred dos path).take FILENAME_MAX)
  (startCopy dos drive ip).2 ≤ pathMax ∧
    Contained (min pathMax FILENAME_MAX) pathMax (nul ∈ ip) (startCopy dos drive ip).1
      (names isSlash (ip.takeWhile (· ≠ nul)))

instance Contained.decidable (limit room : ℕ) (ended : Prop) [Decidable ended] :
    (t : List Char) → (ns : List (List Char)) → Decidable (Contained limit room ended t ns)
  | _, [] => inferInstanceAs (Decidable (_ ∧ _))
  | t, n :: ns =>
      have := Contained.decidable limit room ended (nextCopy t n) ns
      inferInstanceAs (Decidable (if n = ['.'] ∨ n = ['.', '.'] then _ else _))

instance (dos : Dos) (path : List Char) (pathMax : ℕ) : Decidable (Guarded dos path pathMax) :=
  inferInstanceAs (Decidable (_ ∧ _))

/-- The copy begins with a slash, or with the `.` of a directory that is not known. -/
structure Rooted (t : List Char) : Prop where
  head : ∀ c ∈ t.head?, isSlash c = true ∨ c = '.'
  tail : t.head? = some '.' → ∀ c ∈ t.tail.head?, isSlash c = true

variable {t u n r tail : List Char} {c letter : Char} {out out' : Out} {op limit room : ℕ}

theorem rooted_nil : Rooted [] := ⟨fun _ hc => (nomatch hc), fun hc => (nomatch hc)⟩

theorem Rooted.of_prefix (h : Rooted t) (hu : u <+: t) : Rooted u := by
  obtain ⟨v, rfl⟩ := hu
  cases u with
  | nil => exact rooted_nil
  | cons c u =>
      refine ⟨h.head, fun hc d (hd : d ∈ u.head?) => h.tail hc d ?_⟩
      rw [List.cons_append, List.tail_cons, List.head?_append, Option.mem_def.mp hd]
      rfl

theorem Rooted.append (h : Rooted t) (n : List Char) : Rooted (t ++ '/' :: n) := by
  cases t with
  | nil =>
      refine ⟨fun c hc => ?_, fun hc => (nomatch hc)⟩
      cases hc
      exact .inl rfl
  | cons c t =>
      refine ⟨h.head, fun hc d hd => ?_⟩
      cases t with
      | nil =>
          cases hd
          rfl
      | cons e t => exact h.tail hc d hd

theorem parent_append (hc : isSlash c = true) (hn : ∀ x ∈ n, isSlash x = false) :
    parent (t ++ c :: n) = t := by
  have hrev : (t ++ c :: n).reverse = n.reverse ++ c :: t.reverse := by simp
  have hdrop : (n.reverse ++ c :: t.reverse).dropWhile (fun c => !isSlash c) = c :: t.reverse := by
    rw [List.dropWhile_append_of_pos, List.dropWhile_cons_of_neg (by simp [hc])]
    intro x hx
    simp [hn x (List.mem_reverse.mp hx)]
  rw [parent, hrev, hdrop, List.drop_one, List.tail_cons, List.reverse_reverse]

/-- The last slash of a text. -/
theorem exists_last_slash (h : ∃ c ∈ t, isSlash c = true) :
    ∃ u c n, t = u ++ c :: n ∧ isSlash c = true ∧ ∀ x ∈ n, isSlash x = false := by
  induction t using List.reverseRecOn with
  | nil =>
      obtain ⟨c, hc, -⟩ := h
      cases hc
  | append_singleton t d ih =>
      by_cases hd : isSlash d = true
      · exact ⟨t, d, [], rfl, hd, fun x hx => by cases hx⟩
      · have ht : ∃ c ∈ t, isSlash c = true := by
          obtain ⟨c, hc, hslash⟩ := h
          rcases List.mem_append.mp hc with hc | hc
          · exact ⟨c, hc, hslash⟩
          · rw [List.mem_singleton.mp hc] at hslash
            exact absurd hslash hd
        obtain ⟨u, c, n, rfl, hc, hn⟩ := ih ht
        refine ⟨u, c, n ++ [d], by simp, hc, fun x hx => ?_⟩
        rcases List.mem_append.mp hx with hx | hx
        · exact hn x hx
        · rw [List.mem_singleton.mp hx]
          simpa using hd

theorem Rooted.exists_slash (h : Rooted t) (ht : t ≠ []) (hkeep : ¬ KeepsUp t) :
    ∃ c ∈ t, isSlash c = true := by
  obtain ⟨c, t, rfl⟩ := List.exists_cons_of_ne_nil ht
  rcases h.head c rfl with hc | rfl
  · exact ⟨c, List.mem_cons_self, hc⟩
  · cases t with
    | nil => exact absurd ⟨rfl, rfl⟩ hkeep
    | cons d t => exact ⟨d, by simp, h.tail rfl d rfl⟩

theorem Rooted.parent (h : Rooted t) (hkeep : ¬ KeepsUp t) : Rooted (parent t) := by
  by_cases ht : t = []
  · rw [ht]
    exact rooted_nil
  · obtain ⟨u, c, n, rfl, hc, hn⟩ := exists_last_slash (h.exists_slash ht hkeep)
    rw [parent_append hc hn]
    exact h.of_prefix (List.prefix_append u _)

theorem written_le_store (out : Out) (i : ℕ) (c : Char) : out.written ≤ (out.store i c).written :=
  Nat.le_max_left _ _

theorem written_le_storeAll (out : Out) (i : ℕ) (s : List Char) :
    out.written ≤ (out.storeAll i s).written := by
  induction s generalizing out i with
  | nil => exact Nat.le_refl _
  | cons c s ih => exact Nat.le_trans (written_le_store out i c) (ih _ _)

theorem lt_written_storeAll (out : Out) (i : ℕ) (c : Char) (s : List Char) :
    i + (c :: s).length ≤ (out.storeAll i (c :: s)).written := by
  induction s generalizing out i c with
  | nil => exact Nat.le_max_right _ _
  | cons d s ih =>
      have := ih (out.store i c) (i + 1) d
      rw [List.length_cons, Out.storeAll]
      omega

/-- A function that has started with some bytes stored does not end with fewer. -/
structure Reaches {α : Type} (get : α → Out) (written : ℕ) (res : Result α) : Prop where
  ok : ∀ x, res = .ok x → written ≤ (get x).written
  error : ∀ e, res = .error e → written ≤ e.2.written

theorem reaches_ok {α : Type} (get : α → Out) (x : α) : Reaches get (get x).written (.ok x) :=
  ⟨fun y hy => by cases hy; exact Nat.le_refl _, fun e he => (nomatch he)⟩

theorem reaches_error {α : Type} (get : α → Out) (e : Stop × Out) :
    Reaches get e.2.written (.error e) :=
  ⟨fun y hy => (nomatch hy), fun e he => by cases he; exact Nat.le_refl _⟩

theorem Reaches.of_le {α : Type} {get : α → Out} {w w' : ℕ} {res : Result α} (h : Reaches get w res)
    (hle : w' ≤ w) : Reaches get w' res :=
  ⟨fun x hx => Nat.le_trans hle (h.ok x hx), fun e he => Nat.le_trans hle (h.error e he)⟩

theorem reaches_copyName (limit : ℕ) (out : Out) (op : ℕ) (ip : List Char) :
    Reaches Prod.fst out.written (copyName limit out op ip) := by
  induction ip generalizing out op with
  | nil => exact reaches_error _ (.outside, out)
  | cons c ip ih =>
      rw [copyName]
      split_ifs
      · exact reaches_ok Prod.fst (out, op, c :: ip)
      · exact (reaches_error _ (.enametoolong, out.store op c)).of_le (written_le_store out op c)
      · exact (ih _ _).of_le (written_le_store out op c)

/-- The first character is stored without a check. -/
theorem lt_written_copyName (limit : ℕ) (out : Out) (op : ℕ) (ip : List Char)
    (hc : isTerm c = false) : Reaches Prod.fst (op + 1) (copyName limit out op (c :: ip)) := by
  have hle : op + 1 ≤ (out.store op c).written := Nat.le_max_right _ _
  rw [copyName, if_neg (by simp [hc])]
  split_ifs
  · exact (reaches_error _ (.enametoolong, out.store op c)).of_le hle
  · exact (reaches_copyName limit (out.store op c) (op + 1) ip).of_le hle

theorem reaches_walk (limit : ℕ) (out : Out) (op : ℕ) (ip : List Char) :
    Reaches Prod.fst out.written (walk limit out op ip) := by
  fun_induction walk limit out op ip with
  | case1 out => exact reaches_error _ (.outside, out)
  | case2 out op => exact reaches_ok Prod.fst (out, op)
  | case3 _ _ _ _ _ _ ih => exact ih
  | case4 out => exact reaches_error _ (.outside, out)
  | case5 _ _ _ _ _ _ _ _ ih => exact ih
  | case6 out op _ _ _ _ _ _ _ _ ih => exact ih.of_le (written_le_storeAll out op _)
  | case7 out => exact reaches_error _ (.outside, out)
  | case8 _ _ _ _ _ _ _ _ _ _ _ _ _ ih => exact ih
  | case9 _ _ _ _ _ _ _ _ _ _ _ ih => exact ih
  | case10 out => exact reaches_error _ (.enametoolong, out)
  | case11 out op c ip _ _ _ _ _ _ e heq =>
      have hcopy := (reaches_copyName limit (out.store op '/') (op + 1) (c :: ip)).error e heq
      exact (reaches_error _ e).of_le (Nat.le_trans (written_le_store out op '/') hcopy)
  | case12 out op c ip _ _ _ _ _ _ out' op' ip' heq ih =>
      have hcopy := (reaches_copyName limit (out.store op '/') (op + 1) (c :: ip)).ok _ heq
      exact ih.of_le (Nat.le_trans (written_le_store out op '/') hcopy)

theorem within_lowerName (out : Out) (i n : ℕ) : out.Within i (i + n) (lowerName out i n) := by
  induction n generalizing out i with
  | zero => exact .refl out i _
  | succ n ih =>
      rw [lowerName]
      split_ifs
      · exact .trans ((out.within_store i _).mono (Nat.le_refl _) (by omega))
          ((ih _ (i + 1)).mono (by omega) (by omega))
      · exact (ih out (i + 1)).mono (by omega) (by omega)

theorem written_le_lowerName (out : Out) (i n : ℕ) : out.written ≤ (lowerName out i n).written := by
  induction n generalizing out i with
  | zero => exact Nat.le_refl _
  | succ n ih =>
      rw [lowerName]
      split_ifs
      · exact Nat.le_trans (written_le_store out i _) (ih _ _)
      · exact ih out (i + 1)

theorem written_le_switchLoop (preserveCase : Bool) (fuel : ℕ) (out : Out) (nameStart op : ℕ) :
    out.written ≤ (switchLoop preserveCase fuel out nameStart op).written := by
  induction fuel generalizing out nameStart op with
  | zero => exact Nat.le_refl _
  | succ fuel ih =>
      have hturn : out.written ≤ (if out.mem op = '\\' then out.store op '/' else out).written := by
        split_ifs
        · exact written_le_store out op '/'
        · exact Nat.le_refl _
      rw [switchLoop]
      generalize (if out.mem op = '\\' then out.store op '/' else out) = out₁ at hturn
      dsimp only
      split_ifs
      · exact Nat.le_refl _
      · exact Nat.le_trans (Nat.le_trans hturn (written_le_lowerName out₁ _ _)) (ih _ _ _)
      · exact Nat.le_trans hturn (ih _ _ _)
      · exact hturn
      · exact Nat.le_trans hturn (ih _ _ _)

theorem switchLoop_written (preserveCase : Bool) (fuel : ℕ) {nameStart e : ℕ}
    (hstart : nameStart < op)
    (hop : op ≤ e) (he : out.mem e = nul) :
    (switchLoop preserveCase fuel out nameStart op).written ≤ max out.written e := by
  induction fuel generalizing out nameStart op with
  | zero => exact Nat.le_max_left _ _
  | succ fuel ih =>
      rw [switchLoop]
      by_cases hend : out.mem nameStart = nul
      · rw [if_pos hend]
        exact Nat.le_max_left _ _
      rw [if_neg hend]
      obtain ⟨out₁, hout₁⟩ :
          ∃ out₁, out₁ = if out.mem op = '\\' then out.store op '/' else out := ⟨_, rfl⟩
      have h₁ : out₁.mem e = nul ∧ out₁.written ≤ max out.written e := by
        by_cases hback : out.mem op = '\\'
        · have hlt : op ≠ e := by
            rintro rfl
            exact absurd (he.symm.trans hback) (by decide)
          have hw := (out.within_store op '/').written
          rw [hout₁, if_pos hback]
          exact ⟨((out.within_store op '/').mem e (by omega)).trans he, by omega⟩
        · rw [hout₁, if_neg hback]
          exact ⟨he, Nat.le_max_left _ _⟩
      obtain ⟨he₁, hle₁⟩ := h₁
      -- what is done with the next name, if there is one
      have hnext : ∀ out₂ : Out, out₂.mem e = nul → out₂.written ≤ max out.written e →
          (switchLoop preserveCase fuel out₂ op (op + 1)).written ≤ max out.written e := by
        intro out₂ he₂ hle₂
        by_cases hlt : op < e
        · have := ih (show op < op + 1 by omega) hlt he₂
          omega
        · have hope : op = e := by omega
          rw [switchLoop_done preserveCase fuel (by rw [hope]; exact he₂)]
          exact hle₂
      rw [← hout₁]
      dsimp only
      split_ifs with hname h83 hnul
      · have hw := within_lowerName out₁ (nameStart + 1) (op - nameStart - 1)
        have hle := hw.written
        exact hnext _ ((hw.mem e (by omega)).trans he₁) (by omega)
      · exact hnext out₁ he₁ hle₁
      · exact hle₁
      · have hlt : op ≠ e := by
          rintro rfl
          exact hnul he₁
        have := ih (show nameStart < op + 1 by omega) (show op + 1 ≤ e by omega) he₁
        omega

/-- The buffer holds the drive and a copy up to `op`. -/
structure Copy (letter : Char) (out : Out) (op : ℕ) (t : List Char) : Prop where
  reads : out.Reads 0 (letter :: ':' :: t)
  op_eq : op = 2 + t.length
  rooted : Rooted t

theorem Copy.store (h : Copy letter out op t) (n : List Char) :
    Copy letter (out.storeAll op ('/' :: n)) (op + 1 + n.length) (t ++ '/' :: n) where
  reads := by
    have hkeep : (out.storeAll op ('/' :: n)).Reads 0 (letter :: ':' :: t) :=
      h.reads.before (out.within_storeAll op _) (by rw [h.op_eq]; simp; omega)
    refine reads_append.mpr ⟨hkeep, ?_⟩
    have hlen : 0 + (letter :: ':' :: t).length = op := by
      rw [h.op_eq]
      simp
      omega
    rw [hlen]
    exact out.reads_storeAll op ('/' :: n)
  op_eq := by
    rw [h.op_eq, List.length_append, List.length_cons]
    omega
  rooted := h.rooted.append n

/-- The test for a `..` that is kept looks at the buffer. -/
theorem Copy.keepsUp_iff (h : Copy letter out op t) :
    (out.mem 2 = '.' ∧ out.mem (op - 1) = '.') ↔ KeepsUp t := by
  obtain ⟨-, hcolon, hread⟩ := h.reads
  rw [KeepsUp, h.op_eq]
  cases t using List.reverseRecOn with
  | nil =>
      refine iff_of_false (fun hd => ?_) (fun hd => nomatch hd.1)
      exact absurd (hcolon.symm.trans hd.2) (by decide)
  | append_singleton t d =>
      have hlast : out.mem (2 + (t ++ [d]).length - 1) = d := by
        have hd := (reads_append.mp hread).2.1
        rwa [List.length_append, List.length_singleton,
          show 2 + (t.length + 1) - 1 = 0 + 1 + 1 + t.length by omega]
      have hfirst : (t ++ [d]).head? = some (out.mem 2) := by
        cases t with
        | nil => rw [hread.1]; rfl
        | cons e t => rw [hread.1]; rfl
      rw [hlast, hfirst, List.getLast?_concat, Option.some.injEq, Option.some.injEq]

theorem Copy.parent (h : Copy letter out op t) (hkeep : ¬ KeepsUp t) :
    Copy letter out (2 + (Fixpath.parent t).length) (Fixpath.parent t) ∧
      (op > 2 → backUp out.mem op = some (2 + (Fixpath.parent t).length)) ∧
      (¬ op > 2 → op = 2 + (Fixpath.parent t).length) := by
  by_cases ht : t = []
  · subst ht
    have hop := h.op_eq
    exact ⟨⟨h.reads, rfl, rooted_nil⟩, fun hlt => absurd hlt (by simp [hop]), fun _ => hop⟩
  · have hroot := h.rooted.parent hkeep
    obtain ⟨u, c, n, rfl, hc, hn⟩ := exists_last_slash (h.rooted.exists_slash ht hkeep)
    rw [parent_append hc hn] at hroot ⊢
    have hread := h.reads
    rw [← List.cons_append, ← List.cons_append] at hread
    have hop := h.op_eq
    rw [List.length_append, List.length_cons] at hop
    refine ⟨⟨(reads_append.mp hread).1, rfl, hroot⟩, fun _ => ?_,
      fun hge => absurd (show op > 2 by omega) hge⟩
    have hback := backUp_reads hread hc hn
    rw [List.length_cons, List.length_cons] at hback
    rw [hop, show 2 + (u.length + (n.length + 1)) = u.length + 1 + 1 + 1 + n.length by omega, hback]
    exact congrArg some (by omega)

theorem walk_dotdot_copy (h : Copy letter out op t) (hr : startsTerm r = true) :
    walk limit out op ('.' :: '.' :: r) =
      if KeepsUp t then walk limit (out.storeAll op ['/', '.', '.']) (op + 3) r
      else walk limit out (2 + (parent t).length) r := by
  have hne : ¬ ('.' :: r = [] ∨ '.' :: r = ['.']) := by
    rintro (h | h)
    · cases h
    · rw [(List.cons.inj h).2] at hr
      cases hr
  rw [walk, if_neg (by decide), if_neg (by decide), if_neg (fun h => hne h.2),
    if_neg (fun h => absurd h.2 (by simp [startsTerm, isTerm, nul])), if_pos ⟨rfl, rfl, hr⟩]
  by_cases hkeep : KeepsUp t
  · rw [if_pos (h.keepsUp_iff.mpr hkeep), if_pos hkeep]
    rfl
  · rw [if_neg (mt h.keepsUp_iff.mp hkeep), if_neg hkeep]
    obtain ⟨-, hback, hroot⟩ := h.parent hkeep
    by_cases hop : op > 2
    · rw [if_pos hop, hback hop]
      rfl
    · rw [if_neg hop, ← hroot hop]
      rfl

/-- The function from the loop on. -/
def rest (preserveCase : Bool) (limit : ℕ) (out : Out) (op : ℕ) (ip : List Char) : Result Out :=
  walk limit out op ip >>= fun x => finish preserveCase limit x.1 x.2

/-- Nothing is read outside, and all stores are to the first `room` bytes. -/
structure Bounded (room : ℕ) (res : Result Out) : Prop where
  inside : ∀ out, res ≠ .error (.outside, out)
  written : (bufferOf res).written ≤ room

theorem Reaches.bind {α : Type} {get : α → Out} {w : ℕ} {x : Result α} {f : α → Result Out}
    (h : Reaches get w x) (hf : ∀ a, (get a).written ≤ (bufferOf (f a)).written) :
    w ≤ (bufferOf (x >>= f)).written := by
  cases hx : x with
  | ok a => exact Nat.le_trans (h.ok a hx) (hf a)
  | error e => exact h.error e hx

theorem written_le_finish (preserveCase : Bool) (limit : ℕ) (out : Out) (op : ℕ) :
    out.written ≤ (bufferOf (finish preserveCase limit out op)).written := by
  have hend : ∀ (out₁ : Out) (op₁ : ℕ), out₁.written ≤
      (bufferOf (if limit ≤ op₁ then .error (.enametoolong, out₁)
        else .ok (switchLoop preserveCase (limit + 1) (out₁.store op₁ nul) 2 3))).written := by
    intro out₁ op₁
    split_ifs
    · exact Nat.le_refl _
    · exact Nat.le_trans (written_le_store out₁ op₁ nul) (written_le_switchLoop _ _ _ _ _)
  unfold finish
  split_ifs
  · exact Nat.le_trans (written_le_store out 2 '/') (hend _ 3)
  · exact hend out op

theorem written_le_rest (preserveCase : Bool) (limit : ℕ) (out : Out) (op : ℕ) (ip : List Char) :
    out.written ≤ (bufferOf (rest preserveCase limit out op ip)).written :=
  (reaches_walk limit out op ip).bind fun x => written_le_finish preserveCase limit x.1 x.2

theorem Bounded.of_rest {preserveCase : Bool} {ip : List Char}
    (h : Bounded room (rest preserveCase limit out op ip)) : out.written ≤ room :=
  Nat.le_trans (written_le_rest preserveCase limit out op ip) h.written

theorem not_bounded_outside (out : Out) : ¬ Bounded room (.error (.outside, out)) :=
  fun h => h.inside out rfl

theorem bounded_enametoolong (hw : out.written ≤ room) :
    Bounded room (.error (.enametoolong, out)) :=
  ⟨fun _ he => (nomatch he), hw⟩

/-- What a result says about a list of names: whether they are contained, and that the copy
fits where the call succeeds. -/
structure Verdict (limit room : ℕ) (ended : Prop) (t : List Char) (ns : List (List Char))
    (res : Result Out) : Prop where
  bounded : Bounded room res ↔ Contained limit room ended t ns
  fits : Bounded room res → ∀ out, res = .ok out →
    ended ∧ 2 + max 1 (ns.foldl nextCopy t).length < limit

variable {preserveCase : Bool} {ended : Prop} {ns : List (List Char)} {res : Result Out}

theorem verdict_finish (hended : ended) (h : Copy letter out op t) (hw : out.written ≤ room)
    (hlimit : limit ≤ room) :
    Verdict limit room ended t [] (finish preserveCase limit out op) := by
  have hend : ∀ (out₁ : Out) (op₁ : ℕ), 3 ≤ op₁ → out₁.written ≤ room →
      Bounded room (if limit ≤ op₁ then .error (.enametoolong, out₁)
        else .ok (switchLoop preserveCase (limit + 1) (out₁.store op₁ nul) 2 3)) := by
    intro out₁ op₁ hop₁ hw₁
    split_ifs with hl
    · exact bounded_enametoolong hw₁
    · refine ⟨fun out' he => (nomatch he), ?_⟩
      have hsw := switchLoop_written preserveCase (limit + 1) (show 2 < 3 by omega) hop₁
        (out₁.store_mem op₁ nul)
      have hst := (out₁.within_store op₁ nul).written
      exact Nat.le_trans hsw (by omega)
  have hop := h.op_eq
  unfold finish
  by_cases ht : t = []
  · subst ht
    have hop : op = 2 := hop
    have hw' := (out.within_store 2 '/').written
    rw [if_pos hop]
    dsimp only
    refine ⟨⟨fun hb => ⟨hended, fun _ => ?_⟩, fun hc => hend _ 3 (Nat.le_refl _) ?_⟩,
      fun _ out' he => ?_⟩
    · have hle := hb.written
      have hlast : 3 ≤ (out.store 2 '/').written := Nat.le_max_right _ _
      split_ifs at hle
      · exact Nat.le_trans hlast hle
      · exact Nat.le_trans (Nat.le_trans hlast (Nat.le_trans (written_le_store _ 3 nul)
          (written_le_switchLoop _ _ _ _ _))) hle
    · have := hc.2 rfl
      omega
    · split_ifs at he with hl
      exact ⟨hended, Nat.not_le.mp hl⟩
  · have hpos := List.length_pos_iff.mpr ht
    rw [if_neg (by omega)]
    refine ⟨⟨fun _ => ⟨hended, fun hnil => absurd hnil ht⟩, fun _ => hend out op (by omega) hw⟩,
      fun _ out' he => ⟨hended, ?_⟩⟩
    dsimp only at he
    split_ifs at he with hl
    rw [List.foldl_nil]
    omega

theorem verdict_outside (hc : ¬ Contained limit room ended t ns) :
    Verdict limit room ended t ns (.error (.outside, out)) :=
  ⟨iff_of_false (not_bounded_outside out) hc, fun _ _ he => (nomatch he)⟩

theorem contained_dot : Contained limit room ended t (['.'] :: ns) ↔
    Contained limit room ended t ns := by
  rw [Contained, if_pos (.inl rfl), nextCopy, if_pos rfl]
  exact ⟨fun h => h.2, fun h => ⟨fun he => absurd he (by decide), h⟩⟩

theorem contained_dotdot : Contained limit room ended t (['.', '.'] :: ns) ↔
    (KeepsUp t → 2 + t.length + 3 ≤ room) ∧
      Contained limit room ended (nextCopy t ['.', '.']) ns := by
  rw [Contained, if_pos (.inr rfl)]
  exact ⟨fun h => ⟨h.1 rfl, h.2⟩, fun h => ⟨fun _ => h.1, h.2⟩⟩

theorem contained_name (hdot : n ≠ ['.']) (hdotdot : n ≠ ['.', '.']) :
    Contained limit room ended t (n :: ns) ↔ limit ≤ 2 + t.length ∨ 2 + t.length + 2 ≤ room ∧
      (limit ≤ 2 + t.length + 1 + n.length ∨ Contained limit room ended (t ++ '/' :: n) ns) := by
  rw [Contained, if_neg (not_or.mpr ⟨hdot, hdotdot⟩), nextCopy, if_neg hdot, if_neg hdotdot]

/-- Where the text ends, the inner loop and the outer one stop at the same place. -/
theorem copyName_end (hr : ∀ c ∈ r.head?, isTerm c = true) :
    (copyName limit out op r >>= fun x => walk limit x.1 x.2.1 x.2.2) = walk limit out op r := by
  cases r with
  | nil =>
      rw [copyName, walk]
      rfl
  | cons c r =>
      rw [copyName, if_pos (hr c rfl)]
      rfl

theorem walk_dot_end (hr : ∀ c ∈ r.head?, isTerm c = true) :
    walk limit out op ('.' :: r) = walk limit out op r := by
  cases r with
  | nil =>
      have hnil : walk limit out op [] = .error (.outside, out) := by rw [walk]
      rw [hnil, walk, if_neg (by decide), if_neg (by decide), if_pos ⟨rfl, .inl rfl⟩]
  | cons c r => exact walk_dot (hr c rfl)

theorem Verdict.dot (h : Verdict limit room ended t ns res) :
    Verdict limit room ended t (['.'] :: ns) res :=
  ⟨h.bounded.trans contained_dot.symm, h.fits⟩

theorem verdict_dotdot (h : Copy letter out op t) (hw : out.written ≤ room)
    (hr : startsTerm r = true)
    (ih : ∀ {out' op' t'}, Copy letter out' op' t' → out'.written ≤ room →
      Verdict limit room ended t' ns (rest preserveCase limit out' op' r)) :
    Verdict limit room ended t (['.', '.'] :: ns)
      (rest preserveCase limit out op ('.' :: '.' :: r)) := by
  have hnext : nextCopy t ['.', '.'] = if KeepsUp t then t ++ ['/', '.', '.'] else parent t := by
    rw [nextCopy, if_neg (by decide), if_pos rfl]
  have hop := h.op_eq
  have hrest : rest preserveCase limit out op ('.' :: '.' :: r) =
      if KeepsUp t then rest preserveCase limit (out.storeAll op ['/', '.', '.']) (op + 3) r
      else rest preserveCase limit out (2 + (parent t).length) r := by
    unfold rest
    rw [walk_dotdot_copy h hr]
    split_ifs <;> rfl
  rw [hrest]
  by_cases hkeep : KeepsUp t
  · rw [if_pos hkeep] at hnext ⊢
    have hstore := (out.within_storeAll op ['/', '.', '.']).written
    have hlt := lt_written_storeAll out op '/' ['.', '.']
    simp only [List.length_cons, List.length_nil] at hstore hlt
    by_cases hroom : 2 + t.length + 3 ≤ room
    · have ih := ih (h.store ['.', '.']) (by omega)
      rw [← hnext] at ih
      refine ⟨ih.bounded.trans ?_, ih.fits⟩
      rw [contained_dotdot]
      exact ⟨fun hc => ⟨fun _ => hroom, hc⟩, fun hc => hc.2⟩
    · have hout : ¬ Bounded room
          (rest preserveCase limit (out.storeAll op ['/', '.', '.']) (op + 3) r) := by
        intro hb
        have := hb.of_rest
        omega
      refine ⟨iff_of_false hout ?_, fun hb => absurd hb hout⟩
      rw [contained_dotdot]
      exact fun hc => hroom (hc.1 hkeep)
  · rw [if_neg hkeep] at hnext ⊢
    have ih := ih (h.parent hkeep).1 hw
    refine ⟨ih.bounded.trans ?_, by rw [List.foldl_cons, hnext]; exact ih.fits⟩
    rw [contained_dotdot, hnext]
    exact ⟨fun hc => ⟨fun hk => absurd hk hkeep, hc⟩, fun hc => hc.2⟩

theorem verdict_name (h : Copy letter out op t) (hw : out.written ≤ room) (hlimit : limit ≤ room)
    (hn : ∀ c ∈ n, isTerm c = false) (hne : n ≠ []) (hdot : n ≠ ['.']) (hdotdot : n ≠ ['.', '.'])
    (hr : ∀ c ∈ r.head?, isTerm c = true)
    (ih : ∀ {out' op' t'}, Copy letter out' op' t' → out'.written ≤ room →
      Verdict limit room ended t' ns (rest preserveCase limit out' op' r)) :
    Verdict limit room ended t (n :: ns) (rest preserveCase limit out op (n ++ r)) := by
  have hop := h.op_eq
  have hpos := List.length_pos_iff.mpr hne
  have hnext : nextCopy t n = t ++ '/' :: n := by rw [nextCopy, if_neg hdot, if_neg hdotdot]
  have hcontained : Contained limit room ended t (n :: ns) ↔ _ := contained_name hdot hdotdot
  have hwalk : walk limit out op (n ++ r) = _ := walk_name hn hne hdot hdotdot hr
  obtain ⟨hok, herr⟩ := copyName_append limit (out.store op '/') (op + 1) r hn
  unfold rest
  by_cases hfull : limit ≤ op
  · rw [if_pos hfull] at hwalk
    rw [hwalk]
    refine ⟨iff_of_true (bounded_enametoolong hw) ?_, fun _ _ he => (nomatch he)⟩
    exact hcontained.mpr (.inl (by omega))
  rw [if_neg hfull] at hwalk
  rw [hwalk]
  have hslash := (out.within_store op '/').written
  by_cases hlong : limit ≤ op + 1 + n.length
  · obtain ⟨out', he, hw'⟩ := herr hne hlong
    have hfirst : op + 1 + 1 ≤ out'.written := by
      obtain ⟨c, m, rfl⟩ := List.exists_cons_of_ne_nil hne
      exact (lt_written_copyName limit (out.store op '/') (op + 1) (m ++ r)
        (hn c List.mem_cons_self)).error _ he
    rw [he]
    refine ⟨Iff.trans ⟨fun hb => ?_, fun hroom => ?_⟩ hcontained.symm, fun _ _ he => (nomatch he)⟩
    · have hle : out'.written ≤ room := hb.written
      exact .inr ⟨by omega, .inl (by omega)⟩
    · have hroom : op + 2 ≤ room := by
        rcases hroom with hfull' | ⟨hroom, -⟩ <;> omega
      exact bounded_enametoolong (by omega)
  · have hstore := (out.within_storeAll op ('/' :: n)).written
    rw [List.length_cons] at hstore
    have ih := ih (h.store n) (by omega)
    rw [← hnext] at ih
    rw [hok (.inr (by omega)), copyName_end hr]
    refine ⟨ih.bounded.trans (Iff.trans ⟨fun hc => ?_, fun hc => ?_⟩ hcontained.symm), ih.fits⟩
    · exact .inr ⟨by omega, .inr (hnext ▸ hc)⟩
    · rcases hc with hfull' | ⟨-, hlong' | hc⟩
      · omega
      · omega
      · exact hnext ▸ hc

/-- The loop over a whole path, which ends at a NUL or at the end of `in1`. -/
theorem rest_verdict (hlimit : limit ≤ room) (tail : List Char) (htail : ∀ c ∈ tail.head?, c = nul)
    {p : List Char} (hp : nul ∉ p) (h : Copy letter out op t) (hw : out.written ≤ room) :
    Verdict limit room (tail ≠ []) t (names isSlash p)
      (rest preserveCase limit out op (p ++ tail)) := by
  induction p using induction_names isSlash generalizing out op t with
  | nil =>
      cases tail with
      | nil =>
          rw [List.nil_append, rest, walk]
          exact verdict_outside fun hc => hc.1 rfl
      | cons c tail =>
          cases htail c rfl
          rw [List.nil_append, rest, walk_nul]
          exact verdict_finish (List.cons_ne_nil nul tail) h hw hlimit
  | slash c p hc ih =>
      rw [names_sep hc, List.cons_append, rest, walk_slash hc]
      exact ih (fun hm => hp (List.mem_cons_of_mem _ hm)) h hw
  | name n r hne hn hr ih =>
      rw [names_append hne hn hr, List.append_assoc]
      have hpn : nul ∉ n := fun hm => hp (List.mem_append_left _ hm)
      have ih := fun {out op t} => @ih out op t (fun hm => hp (List.mem_append_right _ hm))
      have hterm : ∀ c ∈ (r ++ tail).head?, isTerm c = true := by
        intro c hc
        rw [isTerm_eq]
        cases r with
        | nil => simp [htail c hc]
        | cons d r =>
            rw [hr c hc]
            rfl
      by_cases hdot : n = ['.']
      · subst hdot
        rw [List.singleton_append, rest, walk_dot_end hterm]
        exact (ih h hw).dot
      by_cases hdotdot : n = ['.', '.']
      · subst hdotdot
        cases hrt : r ++ tail with
        | nil =>
            obtain ⟨rfl, rfl⟩ := List.append_eq_nil_iff.mp hrt
            rw [List.append_nil, rest, walk, if_neg (by decide), if_neg (by decide),
              if_pos ⟨rfl, .inr rfl⟩]
            refine verdict_outside fun hc => ?_
            exact (contained_dotdot.mp hc).2.1 rfl
        | cons c s =>
            rw [hrt] at hterm ih
            exact verdict_dotdot h hw (hterm c rfl) ih
      · have hnterm : ∀ c ∈ n, isTerm c = false := by
          intro c hc
          rw [isTerm_eq, hn c hc, Bool.false_or, decide_eq_false_iff_not]
          exact fun he => hpn (he ▸ hc)
        exact verdict_name h hw hlimit hnterm hne hdot hdotdot hterm ih

theorem written_storeAll (out : Out) (i : ℕ) (c : Char) (s : List Char) :
    (out.storeAll i (c :: s)).written = max out.written (i + (c :: s).length) := by
  have hle := (out.within_storeAll i (c :: s)).written
  have hge := lt_written_storeAll out i c s
  have hout := written_le_storeAll out i (c :: s)
  omega

theorem written_strcpy (out : Out) (i : ℕ) (s : List Char) :
    (out.strcpy i s).written = max out.written (i + (s.length + 1)) := by
  rw [Out.strcpy]
  cases s with
  | nil => exact written_storeAll out i nul []
  | cons c s =>
      rw [List.cons_append, written_storeAll]
      simp

theorem Copy.strcpy (h : Copy letter out op []) (ht : Rooted t) :
    Copy letter (out.strcpy 2 t) (2 + t.length) t where
  reads := by
    have hkeep : (out.strcpy 2 t).Reads 0 [letter, ':'] :=
      h.reads.before (out.within_storeAll 2 _) (Nat.le_refl _)
    exact reads_append.mpr ⟨hkeep, (reads_append.mp (out.reads_storeAll 2 (t ++ [nul]))).1⟩
  op_eq := rfl
  rooted := ht

theorem rooted_cons (hc : isSlash c = true) (s : List Char) : Rooted (c :: s) := by
  refine ⟨fun d hd => ?_, fun hd => ?_⟩
  · cases hd
    exact .inl hc
  · cases hd
    cases hc

theorem Copy.dot (h : Copy letter out op []) : Copy letter (out.store 2 '.') 3 ['.'] where
  reads := ⟨by simp [Out.store, h.reads.1], by simp [Out.store, h.reads.2.1], by simp, trivial⟩
  op_eq := rfl
  rooted := ⟨fun c hc => by cases hc; exact .inr rfl, fun _ c hc => (nomatch hc)⟩

theorem Copy.slash_strcpy (h : Copy letter out op []) (dir : List Char) :
    Copy letter ((out.strcpy 3 dir).store 2 '/') (3 + dir.length) ('/' :: dir) where
  reads := by
    have hstrcpy := out.within_storeAll 3 (dir ++ [nul])
    have hstore := (out.strcpy 3 dir).within_store 2 '/'
    have hdir := (reads_append.mp (out.reads_storeAll 3 (dir ++ [nul]))).1
    have hkeep : ((out.strcpy 3 dir).store 2 '/').Reads 0 [letter, ':'] :=
      (h.reads.before hstrcpy (Nat.le_succ 2)).before hstore (Nat.le_refl _)
    have hslash : ((out.strcpy 3 dir).store 2 '/').Reads 2 ('/' :: dir) :=
      ⟨Out.store_mem _ 2 '/', hdir.behind hstore (Nat.le_refl _)⟩
    exact reads_append.mpr ⟨hkeep, hslash⟩
  op_eq := by
    rw [List.length_cons]
    omega
  rooted := rooted_cons rfl dir

theorem Copy.of_within (h : Copy letter out op []) (hw : out.Within 3 hi out') :
    Copy letter out' op [] :=
  ⟨h.reads.before hw (Nat.le_succ 2), h.op_eq, h.rooted⟩

theorem getCurrentDirectory_copy {dos : Dos} (hfull : FullNames dos) (drive : ℕ)
    (h : Copy letter out 2 []) (hw : out.written = 2) :
    Copy letter (getCurrentDirectory dos drive out 2).1 (getCurrentDirectory dos drive out 2).2
        (directoryCopy dos drive).1 ∧
      (getCurrentDirectory dos drive out 2).1.written = (directoryCopy dos drive).2 := by
  have hdot : ∀ out₁ : Out, (out₁.store 2 '.').written = max out₁.written 3 := fun _ => rfl
  unfold getCurrentDirectory directoryCopy
  obtain ⟨answer, lfn⟩ := askDirectory dos drive
  cases answer with
  | none => exact ⟨h.dot, by simp [hdot, hw]⟩
  | some dir =>
      have hdir := written_strcpy out 3 dir
      simp only [Nat.reduceAdd]
      by_cases hne : dir ≠ []
      · rw [if_pos hne, if_pos hne]
        refine ⟨h.slash_strcpy dir, ?_⟩
        have hslash : ((out.strcpy 3 dir).store 2 '/').written =
            max (out.strcpy 3 dir).written 3 := rfl
        dsimp only
        omega
      · rw [if_neg hne, if_neg hne]
        have hnil : dir = [] := not_not.mp hne
        subst hnil
        have h : Copy letter (out.strcpy 3 []) 2 [] := h.of_within (out.within_storeAll 3 [nul])
        have hw : (out.strcpy 3 []).written = 4 := by rw [hdir, hw]; rfl
        split_ifs with hroot
        · exact ⟨h, hw⟩
        cases hpath : dos.longPathName drive with
        | none => exact ⟨h.dot, by rw [hdot, hw]; rfl⟩
        | some path =>
            dsimp only
            split_ifs with hdrive hone
            · exact ⟨h, hw⟩
            · have hrooted : Rooted (path.drop 2) := by
                obtain ⟨c, hc, hslash⟩ := hfull drive path hpath hdrive
                obtain ⟨s, hs⟩ := List.head?_eq_some_iff.mp hc
                rw [hs]
                exact rooted_cons hslash s
              refine ⟨h.strcpy hrooted, ?_⟩
              rw [written_strcpy, hw]
              omega
            · exact ⟨h.dot, by rw [hdot, hw]; rfl⟩

theorem driveOf_take (dos : Dos) (text : List Char) (k : ℕ) :
    ∃ m, driveOf dos (text.take (k + 3)) =
      ((driveOf dos text).1, (driveOf dos text).2.1, (driveOf dos text).2.2.take (m + 1)) := by
  cases text with
  | nil => exact ⟨k, rfl⟩
  | cons c text =>
      cases text with
      | nil => exact ⟨k + 1, rfl⟩
      | cons d text =>
          by_cases hd : d = ':'
          · subst hd
            rw [List.take_succ_cons, List.take_succ_cons, driveOf, driveOf]
            split_ifs
            · exact ⟨k, rfl⟩
            · exact ⟨k, rfl⟩
            · exact ⟨k + 2, rfl⟩
          · refine ⟨k + 2, ?_⟩
            rw [List.take_succ_cons, List.take_succ_cons, driveOf, driveOf]
            · rfl
            all_goals
              intro _ _ he
              exact hd (List.cons.inj (List.cons.inj he).2).1

theorem startCopy_take (dos : Dos) (drive m : ℕ) (ip : List Char) :
    startCopy dos drive (ip.take (m + 1)) = startCopy dos drive ip := by
  have hhead : (ip.take (m + 1)).head? = ip.head? := by cases ip <;> rfl
  rw [startCopy, isRelative, hhead]
  rfl

theorem takeWhile_take {ip : List Char} {m : ℕ} (h : nul ∈ ip.take m) :
    (ip.take m).takeWhile (· ≠ nul) = ip.takeWhile (· ≠ nul) := by
  have hne : ((ip.take m).takeWhile (· ≠ nul)).length ≠ (ip.take m).length := by
    intro hlen
    have hall := (List.takeWhile_prefix (fun x : Char => decide (x ≠ nul))).eq_of_length hlen
    have := List.all_eq_true.mp (hall ▸ List.all_takeWhile) nul h
    simp at this
  conv_rhs => rw [← List.take_append_drop m ip, List.takeWhile_append, if_neg hne]

/-- What the buffer holds before the loop, and up to where. -/
def startBuffer (dos : Dos) (drive : ℕ) (letter : Char) (ip : List Char) (out : ℕ → Char) :
    Out × ℕ :=
  let start := ((⟨out, 0⟩ : Out).store 0 letter).store 1 ':'
  if isRelative ip then getCurrentDirectory dos drive start 2 else (start, 2)

theorem startBuffer_copy {dos : Dos} (hfull : FullNames dos) (drive : ℕ) (letter : Char)
    (ip : List Char) (out : ℕ → Char) :
    Copy letter (startBuffer dos drive letter ip out).1 (startBuffer dos drive letter ip out).2
        (startCopy dos drive ip).1 ∧
      (startBuffer dos drive letter ip out).1.written = (startCopy dos drive ip).2 := by
  have hstart : Copy letter (((⟨out, 0⟩ : Out).store 0 letter).store 1 ':') 2 [] :=
    ⟨⟨by simp [Out.store], by simp [Out.store], trivial⟩, rfl, rooted_nil⟩
  rw [startCopy, startBuffer]
  by_cases hrel : isRelative ip = true
  · rw [if_pos hrel, if_pos hrel]
    exact getCurrentDirectory_copy hfull drive hstart rfl
  · rw [if_neg hrel, if_neg hrel]
    exact ⟨hstart, rfl⟩

section

variable {dos : Dos} {path ip : List Char} {drive : ℕ}

theorem canonicalizePath_eq (out : ℕ → Char) (pathMax : ℕ)
    (h : driveOf dos ((transferred dos path).take FILENAME_MAX) = (drive, letter, ip)) :
    canonicalizePath dos path out pathMax = rest dos.preserveCase (min pathMax FILENAME_MAX)
      (startBuffer dos drive letter ip out).1 (startBuffer dos drive letter ip out).2 ip := by
  unfold transferred at h
  simp only [canonicalizePath, h]
  rfl

theorem guarded_iff (pathMax : ℕ)
    (h : driveOf dos ((transferred dos path).take FILENAME_MAX) = (drive, letter, ip)) :
    Guarded dos path pathMax ↔ (startCopy dos drive ip).2 ≤ pathMax ∧
      Contained (min pathMax FILENAME_MAX) pathMax (nul ∈ ip) (startCopy dos drive ip).1
        (names isSlash (ip.takeWhile (· ≠ nul))) := by
  rw [Guarded, h]

/-- The path is copied as a whole where its NUL is among the bytes of `in1`. -/
theorem canonical_eq
    (h : driveOf dos ((transferred dos path).take FILENAME_MAX) = (drive, letter, ip))
    (hnul : nul ∈ ip) :
    canonical dos path =
      (names isSlash (ip.takeWhile (· ≠ nul))).foldl nextCopy (startCopy dos drive ip).1 := by
  obtain ⟨m, hm⟩ := driveOf_take dos (transferred dos path) 257
  obtain ⟨hdrive, hrest⟩ := Prod.mk.inj (h.symm.trans hm)
  have hip := (Prod.mk.inj hrest).2
  rw [hip] at hnul
  rw [hip, hdrive, takeWhile_take hnul, startCopy_take]
  rfl

end

/-- Exactly when there is room for what is stored without a check, and the end of `in1`
is not reached before the end of the buffer, the function stays in its bounds. -/
theorem canonicalizePath_sound_iff (dos : Dos) (hfull : FullNames dos) (path : List Char)
    (out : ℕ → Char) (pathMax : ℕ) :
    Sound dos path pathMax (canonicalizePath dos path out pathMax) ↔ Guarded dos path pathMax := by
  obtain ⟨⟨drive, letter, ip⟩, h⟩ :
      ∃ x, driveOf dos ((transferred dos path).take FILENAME_MAX) = x := ⟨_, rfl⟩
  obtain ⟨hcopy, hwritten⟩ := startBuffer_copy hfull drive letter ip out
  rw [canonicalizePath_eq out pathMax h, guarded_iff pathMax h]
  by_cases hroom : (startCopy dos drive ip).2 ≤ pathMax
  · have hsplit := List.takeWhile_append_dropWhile (p := fun c => decide (c ≠ nul)) (l := ip)
    have hp : nul ∉ ip.takeWhile (· ≠ nul) := fun hm => by
      simpa using List.all_eq_true.mp List.all_takeWhile nul hm
    have htail : ∀ c ∈ (ip.dropWhile (· ≠ nul)).head?, c = nul := by
      intro c hc
      have := List.head?_dropWhile_not (fun c => decide (c ≠ nul)) ip
      rw [Option.mem_def.mp hc] at this
      simpa using this
    have hended : ip.dropWhile (· ≠ nul) ≠ [] ↔ nul ∈ ip := by
      simp [List.dropWhile_eq_nil_iff]
    have hverdict : Verdict (min pathMax FILENAME_MAX) pathMax _ _ _ (rest dos.preserveCase _ _ _ _) :=
      rest_verdict (Nat.min_le_left pathMax FILENAME_MAX) _ htail hp hcopy (hwritten ▸ hroom)
    rw [hsplit, propext hended] at hverdict
    refine Iff.trans ⟨fun hs => ?_, fun hc => ?_⟩ (and_iff_right hroom).symm
    · exact hverdict.bounded.mp ⟨hs.inside, hs.written⟩
    · have hb := hverdict.bounded.mpr hc
      refine ⟨hb.inside, hb.written, fun hlong => ?_⟩
      cases hres : rest dos.preserveCase (min pathMax FILENAME_MAX)
        (startBuffer dos drive letter ip out).1 (startBuffer dos drive letter ip out).2 ip with
      | ok out' =>
          obtain ⟨hnul, hfits⟩ := hverdict.fits hb out' hres
          rw [canonical_eq h hnul] at hlong
          omega
      | error e =>
          obtain ⟨stop, out'⟩ := e
          cases stop with
          | enametoolong => exact ⟨out', rfl⟩
          | outside => exact absurd hres (hb.inside out')
  · refine iff_of_false (fun hs => hroom ?_) fun hg => hroom hg.1
    rw [← hwritten]
    exact Nat.le_trans (written_le_rest _ _ _ _ ip) hs.written

theorem canonicalizePath_sound_sample :
    Sound (sampleDos ['X', 'y']) ['b', '/', '/', '.', '.', '\\', 'd'] 8
      (canonicalizePath (sampleDos ['X', 'y']) ['b', '/', '/', '.', '.', '\\', 'd']
        (fun _ => nul) 8) :=
  (canonicalizePath_sound_iff (sampleDos ['X', 'y']) (fun _ _ hpath => (nomatch hpath)) _ _ 8).mpr
    (by decide)

/-- A path of 270 slashes and dots is cut behind its first 260 bytes, and read on. -/
theorem canonicalizePath_not_sound :
    ¬ Sound (sampleDos ['x']) ('a' :: (List.replicate 135 ['/', '.']).flatten) 260
      (canonicalizePath (sampleDos ['x']) ('a' :: (List.replicate 135 ['/', '.']).flatten)
        (fun _ => nul) 260) := by
  intro h
  have hout : (match canonicalizePath (sampleDos ['x'])
      ('a' :: (List.replicate 135 ['/', '.']).flatten) (fun _ => nul) 260 with
    | .error (.outside, _) => true
    | _ => false) = true := by decide +kernel
  split at hout
  · exact h.inside _ ‹_›
  · cases hout

end DjgppLibc.Fixpath
