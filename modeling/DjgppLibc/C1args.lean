import Mathlib.Algebra.GroupWithZero.Nat
import Mathlib.Data.Fintype.EquivFin

/-!
# The arguments of a program (`crt0/c1args.c`)

The start-up code splits the command line and every response file into
arguments and expands response files within response files. A text is the list
of its characters up to `last`; what follows it in memory is a parameter, as
the test for a wildcard looks two characters ahead.
-/
namespace DjgppLibc.C1args

/-- `isspace` in the C locale. -/
def isspace (c : Char) : Bool :=
  c = ' ' || c = '\t' || c = '\n' || c = '\x0b' || c = '\x0c' || c = '\r'

structure Arg where
  arg : List Char
  wasQuoted : Bool
deriving DecidableEq

/-- What `parse_arg` gives: the argument and the text behind it. -/
structure Parsed extends Arg where
  rest : List Char
deriving DecidableEq

def Parsed.emit (cs : List Char) (wildcard : Bool) (p : Parsed) : Parsed :=
  { p with arg := cs ++ p.arg, wasQuoted := wildcard || p.wasQuoted }

/-- `strchr ("'\"", c)`, which also finds the end of its string. -/
def isQuoteOrNul (c : Char) : Bool := c = '\'' || c = '"' || c = '\x00'

/-- The characters that mark a quoted argument: `strchr ("[?*", *ep)` and `...`. -/
def isWildcard (text : List Char) : Bool :=
  text.head?.any (fun c => c = '[' || c = '?' || c = '*' || c = '\x00') ||
    ['.', '.', '.'].isPrefixOf text

/-- `parse_arg`, with the quote it is in. -/
def parseArg (unquote : Bool) (beyond : List Char) : Option Char → List Char → Parsed
  | _, [] => ⟨⟨[], false⟩, []⟩
  | quote, c :: text =>
      if quote = none ∧ isspace c then ⟨⟨[], false⟩, c :: text⟩
      else if quote = some c then
        (parseArg unquote beyond none text).emit (if unquote then [] else [c]) false
      else if quote = none ∧ (c = '\'' ∨ c = '"') then
        (parseArg unquote beyond (some c) text).emit (if unquote then [] else [c]) false
      else
        let wildcard := quote.isSome && isWildcard (c :: text ++ beyond) && unquote
        match text with
        | [] => (parseArg unquote beyond quote []).emit [c] wildcard
        | d :: text =>
            if c = '\\' ∧ isQuoteOrNul d then
              (parseArg unquote beyond quote text).emit (if unquote then [d] else [c, d]) false
            else (parseArg unquote beyond quote (d :: text)).emit [c] wildcard

/-- The loop of `parse_bytes`; every round takes at least one character. -/
def parseArgs (unquote : Bool) (beyond : List Char) : ℕ → List Char → List Arg
  | 0, _ => []
  | n + 1, text =>
      match text.dropWhile isspace with
      | [] => []
      | c :: text =>
          let r := parseArg unquote beyond none (c :: text)
          r.toArg :: parseArgs unquote beyond n (r.rest.drop 1)

def parseBytes (unquote : Bool) (beyond text : List Char) : List Arg :=
  parseArgs unquote beyond text.length text

/-- The output of `find -print0`: every name ends in a NUL. -/
def parsePrint0 (text : List Char) : List Arg :=
  (text.splitOn '\x00').dropLast.map fun name => ⟨name, true⟩

/-- The response files that can be opened, by name, and what is read from each. -/
structure Files (ι : Type) where
  openFile : List Char → Option ι
  bytes : ι → List Char
  beyond : List Char

variable {ι : Type} (fs : Files ι) (unquote : Bool)

def Files.response (a : Arg) : Option ι :=
  match a.arg with
  | '@' :: name => if a.wasQuoted then none else fs.openFile (name.takeWhile (· ≠ '\x00'))
  | _ => none

/-- The arguments in a file, without a last `^Z`. -/
def Files.args (i : ι) : List Arg :=
  let bytes := fs.bytes i
  let len := if bytes.getLast? = some '\x1a' then bytes.length - 1 else bytes.length
  let text := bytes.take len
  if text.getLast? = some '\x00' then parsePrint0 text
  else parseBytes unquote (bytes.drop len ++ fs.beyond) text

/-- An argument with the list of its response file. -/
inductive Expanded
  | word (a : Arg)
  | file (a : Arg) (argFile : List Expanded)

/-- `expand_response_files`, when files are nested at most `n` deep. -/
def expandResponseFiles : ℕ → List Arg → Option (List Expanded)
  | 0, al =>
      al.mapM fun a =>
        match fs.response a with
        | none => some (.word a)
        | some _ => none
  | n + 1, al =>
      al.mapM fun a =>
        match fs.response a with
        | none => some (.word a)
        | some i => (expandResponseFiles n (fs.args unquote i)).map (.file a)

theorem parseArg_rest_length (unquote : Bool) (beyond : List Char) (quote : Option Char)
    (text : List Char) : (parseArg unquote beyond quote text).rest.length ≤ text.length := by
  fun_induction parseArg unquote beyond quote text with
  | case1 => exact Nat.le_refl _
  | case2 => exact Nat.le_refl _
  | case3 c text _ ih => exact Nat.le_succ_of_le ih
  | case4 quote c text _ _ _ ih => exact Nat.le_succ_of_le ih
  | case5 quote c _ _ _ _ ih => exact Nat.le_succ_of_le ih
  | case6 quote _ _ _ d text _ _ ih => exact Nat.le_succ_of_le (Nat.le_succ_of_le ih)
  | case7 quote c _ _ _ _ d text _ ih => exact Nat.le_succ_of_le ih

theorem parseArgs_enough (unquote : Bool) (beyond : List Char) {n m : ℕ} {text : List Char}
    (hn : text.length ≤ n) (hm : text.length ≤ m) :
    parseArgs unquote beyond n text = parseArgs unquote beyond m text := by
  induction n generalizing m text with
  | zero =>
      obtain rfl := List.length_eq_zero_iff.mp (Nat.le_zero.mp hn)
      cases m <;> rfl
  | succ n ih =>
      cases m with
      | zero =>
          obtain rfl := List.length_eq_zero_iff.mp (Nat.le_zero.mp hm)
          rfl
      | succ m =>
          rw [parseArgs, parseArgs]
          have hlen : (text.dropWhile isspace).length ≤ text.length :=
            (List.dropWhile_suffix isspace).length_le
          cases hd : text.dropWhile isspace with
          | nil => rfl
          | cons c rest =>
              have hrest := parseArg_rest_length unquote beyond none (c :: rest)
              rw [hd] at hlen
              dsimp only
              rw [ih]
              · rw [List.length_drop]
                omega
              · rw [List.length_drop]
                omega

/-- One round of the loop. The bound on the rounds is never felt. -/
theorem parseBytes_cons (unquote : Bool) (beyond : List Char) {text rest : List Char} {c : Char}
    (h : text.dropWhile isspace = c :: rest) :
    parseBytes unquote beyond text =
      (parseArg unquote beyond none (c :: rest)).toArg ::
        parseBytes unquote beyond ((parseArg unquote beyond none (c :: rest)).rest.drop 1) := by
  have hlen : (text.dropWhile isspace).length ≤ text.length :=
    (List.dropWhile_suffix isspace).length_le
  have hrest := parseArg_rest_length unquote beyond none (c :: rest)
  rw [h, List.length_cons] at hlen
  rw [List.length_cons] at hrest
  rw [parseBytes, parseArgs_enough unquote beyond (Nat.le_refl _) (Nat.le_succ text.length),
    parseArgs, h]
  dsimp only
  congr 1
  apply parseArgs_enough
  · rw [List.length_drop]
    omega
  · exact Nat.le_refl _

variable {fs unquote}

theorem isSome_mapM {α β : Type} (f : α → Option β) (l : List α) :
    (l.mapM f).isSome ↔ ∀ a ∈ l, (f a).isSome := by
  induction l with
  | nil => simp
  | cons a l ih =>
      rw [List.mapM_cons, List.forall_mem_cons, ← ih]
      cases f a with
      | none => simp
      | some b =>
          cases l.mapM f with
          | none => simp
          | some bs => simp

theorem expandResponseFiles_zero (al : List Arg) :
    (expandResponseFiles fs unquote 0 al).isSome ↔ ∀ a ∈ al, fs.response a = none := by
  rw [expandResponseFiles, isSome_mapM]
  refine forall₂_congr fun a _ => ?_
  cases fs.response a <;> simp

theorem expandResponseFiles_succ (n : ℕ) (al : List Arg) :
    (expandResponseFiles fs unquote (n + 1) al).isSome ↔
      ∀ a ∈ al, ∀ i, fs.response a = some i →
        (expandResponseFiles fs unquote n (fs.args unquote i)).isSome := by
  rw [expandResponseFiles, isSome_mapM]
  refine forall₂_congr fun a _ => ?_
  cases fs.response a <;> simp

theorem expandResponseFiles_mono {n m : ℕ} (hnm : n ≤ m) {al : List Arg}
    (h : (expandResponseFiles fs unquote n al).isSome) :
    (expandResponseFiles fs unquote m al).isSome := by
  induction n generalizing m al with
  | zero =>
      rw [expandResponseFiles_zero] at h
      cases m with
      | zero => exact (expandResponseFiles_zero al).mpr h
      | succ m =>
          rw [expandResponseFiles_succ]
          intro a ha i hi
          rw [h a ha] at hi
          exact absurd hi (by simp)
  | succ n ih =>
      obtain ⟨m, rfl⟩ := Nat.exists_eq_add_of_lt (Nat.lt_of_succ_le hnm)
      rw [expandResponseFiles_succ] at h ⊢
      intro a ha i hi
      exact ih (Nat.le_add_right n m) (h a ha i hi)

variable (fs unquote)

/-- File `i` has an argument that stands for file `j`. -/
def Refers (i j : ι) : Prop := ∃ a ∈ fs.args unquote i, fs.response a = some j

/-- File `i` is opened for one of the arguments, or for one in a file that is. -/
def Opened (al : List Arg) (i : ι) : Prop :=
  ∃ a ∈ al, ∃ j, fs.response a = some j ∧ Relation.ReflTransGen (Refers fs unquote) j i

variable {fs unquote}

/-- What the files refer to is expanded with one level less. -/
theorem expand_of_refers {n : ℕ} {i j : ι} (hij : Refers fs unquote i j)
    (h : (expandResponseFiles fs unquote n (fs.args unquote i)).isSome) :
    ∃ m < n, (expandResponseFiles fs unquote m (fs.args unquote j)).isSome := by
  obtain ⟨a, ha, hj⟩ := hij
  cases n with
  | zero =>
      rw [(expandResponseFiles_zero _).mp h a ha] at hj
      exact absurd hj (by simp)
  | succ n => exact ⟨n, Nat.lt_succ_self n, (expandResponseFiles_succ n _).mp h a ha j hj⟩

theorem expand_of_transGen {n : ℕ} {i j : ι} (hij : Relation.TransGen (Refers fs unquote) i j)
    (h : (expandResponseFiles fs unquote n (fs.args unquote i)).isSome) :
    ∃ m < n, (expandResponseFiles fs unquote m (fs.args unquote j)).isSome := by
  induction hij with
  | single hij => exact expand_of_refers hij h
  | tail _ hjk ih =>
      obtain ⟨m, hm, hj⟩ := ih
      obtain ⟨k, hk, hkj⟩ := expand_of_refers hjk hj
      exact ⟨k, hk.trans hm, hkj⟩

theorem not_expand_of_cycle {i : ι} (hi : Relation.TransGen (Refers fs unquote) i i) (n : ℕ) :
    ¬ (expandResponseFiles fs unquote n (fs.args unquote i)).isSome := by
  induction n using Nat.strong_induction_on with
  | _ n ih =>
      intro h
      obtain ⟨m, hm, hm'⟩ := expand_of_transGen hi h
      exact ih m hm hm'

theorem expand_of_opened {n : ℕ} {al : List Arg} {i : ι} (hi : Opened fs unquote al i)
    (h : (expandResponseFiles fs unquote n al).isSome) :
    ∃ m, (expandResponseFiles fs unquote m (fs.args unquote i)).isSome := by
  obtain ⟨a, ha, j, hj, hji⟩ := hi
  have hstart : ∃ m, (expandResponseFiles fs unquote m (fs.args unquote j)).isSome := by
    cases n with
    | zero =>
        rw [(expandResponseFiles_zero _).mp h a ha] at hj
        exact absurd hj (by simp)
    | succ n => exact ⟨n, (expandResponseFiles_succ n _).mp h a ha j hj⟩
  induction hji with
  | refl => exact hstart
  | tail _ hkl ih =>
      obtain ⟨m, hm⟩ := ih
      obtain ⟨m', -, hm'⟩ := expand_of_refers hkl hm
      exact ⟨m', hm'⟩

theorem expand_of_forall {al : List Arg}
    (h : ∀ a ∈ al, ∀ i, fs.response a = some i →
      ∃ n, (expandResponseFiles fs unquote n (fs.args unquote i)).isSome) :
    ∃ n, (expandResponseFiles fs unquote n al).isSome := by
  induction al with
  | nil => exact ⟨0, rfl⟩
  | cons a al ih =>
      obtain ⟨n, hn⟩ := ih fun b hb => h b (List.mem_cons_of_mem a hb)
      have ha : ∃ m, ∀ i, fs.response a = some i →
          (expandResponseFiles fs unquote m (fs.args unquote i)).isSome := by
        cases hr : fs.response a with
        | none => exact ⟨0, fun i hi => absurd hi (by simp)⟩
        | some i =>
            obtain ⟨m, hm⟩ := h a (by simp) i hr
            refine ⟨m, fun j hj => ?_⟩
            obtain rfl := Option.some.inj hj
            exact hm
      obtain ⟨m, hm⟩ := ha
      refine ⟨max n m + 1, (expandResponseFiles_succ _ _).mpr ?_⟩
      intro b hb i hi
      rcases List.mem_cons.mp hb with rfl | hb
      · exact expandResponseFiles_mono (Nat.le_max_right n m) (hm i hi)
      · have hn' := expandResponseFiles_mono (Nat.le_succ_of_le (Nat.le_max_left n m)) hn
        exact (expandResponseFiles_succ _ _).mp hn' b hb i hi

theorem expand_of_acyclic [Finite ι] {al : List Arg}
    (h : ∀ i, Opened fs unquote al i → ¬ Relation.TransGen (Refers fs unquote) i i) {i : ι}
    (hi : Opened fs unquote al i) :
    ∃ n, (expandResponseFiles fs unquote n (fs.args unquote i)).isSome := by
  let r : { i // Opened fs unquote al i } → { i // Opened fs unquote al i } → Prop :=
    fun j i => Relation.TransGen (Refers fs unquote) i.1 j.1
  have : IsTrans _ r := ⟨fun _ _ _ hjk hkl => hkl.trans hjk⟩
  have : Std.Irrefl r := ⟨fun j => h j.1 j.2⟩
  have hwf : WellFounded r := Finite.wellFounded_of_trans_of_irrefl r
  obtain ⟨x, hx⟩ : ∃ x : { i // Opened fs unquote al i }, x = ⟨i, hi⟩ := ⟨_, rfl⟩
  suffices ∃ n, (expandResponseFiles fs unquote n (fs.args unquote x.1)).isSome by
    rw [hx] at this
    exact this
  clear hx
  induction x using hwf.induction with
  | _ x ih =>
      apply expand_of_forall
      intro a ha j hj
      have hxj : Refers fs unquote x.1 j := ⟨a, ha, hj⟩
      obtain ⟨b, hb, k, hk, hkx⟩ := x.2
      exact ih ⟨j, b, hb, k, hk, hkx.tail hxj⟩ (.single hxj)

/-- Two files: `a` names `b`, and `b` has a quoted `@a`. -/
def sampleFiles : Files Bool where
  openFile name := if name = ['a'] then some true else if name = ['b'] then some false else none
  bytes i := if i then ['x', '\n', '@', 'b', '\r', '\n'] else ['"', '@', 'a', '*', '"']
  beyond := []

/-- A file that names itself. -/
def selfFile : Files Unit where
  openFile name := if name = ['a'] then some () else none
  bytes _ := ['@', 'a']
  beyond := []

end DjgppLibc.C1args
