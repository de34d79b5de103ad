import Mathlib.Data.List.Range
import DjgppLibc.C1args

/-!
# The array of the arguments

`parse_arg` leaves the argument where it has found it, without its quotes or with them, and
returns where it ends. The lists of the arguments and of the response files in them are then
counted, an array is made, and it is filled.
-/
namespace DjgppLibc.C1args

@[simp] theorem rest_emit (cs : List Char) (w : Bool) (p : Parsed) : (p.emit cs w).rest = p.rest :=
  rfl

theorem parseArg_rest (beyond : List Char) (quote : Option Char) (text : List Char) :
    (parseArg true beyond quote text).rest = (parseArg false beyond quote text).rest := by
  fun_induction parseArg true beyond quote text with
  | case1 => rw [parseArg]
  | case2 quote c text hspace => rw [parseArg, if_pos hspace]
  | case3 c text hspace ih =>
      conv_rhs => rw [parseArg, if_neg hspace, if_pos rfl]
      exact ih
  | case4 quote c text hspace hclose hopen ih =>
      conv_rhs => rw [parseArg, if_neg hspace, if_neg hclose, if_pos hopen]
      exact ih
  | case5 quote c hspace hclose hopen wildcard ih =>
      conv_rhs => rw [parseArg, if_neg hspace, if_neg hclose, if_neg hopen]
      exact ih
  | case6 quote c hspace hclose hopen d text hescape ih =>
      conv_rhs => rw [parseArg, if_neg hspace, if_neg hclose, if_neg hopen]
      dsimp only
      rw [if_pos hescape]
      exact ih
  | case7 quote c hspace hclose hopen d text hescape wildcard ih =>
      conv_rhs => rw [parseArg, if_neg hspace, if_neg hclose, if_neg hopen]
      dsimp only
      rw [if_neg hescape]
      exact ih

/-- The variables of the loop of `parse_arg`. -/
structure Scan where
  mem : ℕ → Char
  ep : ℕ
  epp : ℕ
  quote : Option Char
  wasQuoted : Bool

/-- `*epp++ = c`. -/
def Scan.put (s : Scan) (c : Char) : Scan :=
  { s with mem := Function.update s.mem s.epp c, epp := s.epp + 1 }

def Scan.next (s : Scan) : Scan := { s with ep := s.ep + 1 }

def scanStep (unquote : Bool) (last : ℕ) (s : Scan) : Scan :=
  let c := s.mem s.ep
  if s.quote = some c then
    let s := { s with quote := none }
    (if unquote then s else s.put c).next
  else if s.quote = none ∧ (c = '\'' ∨ c = '"') then
    let s := { s with quote := some c }.next
    if unquote then s else s.put c
  else if c = '\\' ∧ isQuoteOrNul (s.mem (s.ep + 1)) ∧ s.ep + 1 < last then
    let s := (if unquote then s else s.put c).next
    (s.put (s.mem s.ep)).next
  else
    let wildcard := s.quote.isSome && isWildcard [c, s.mem (s.ep + 1), s.mem (s.ep + 2)] && unquote
    ({ s with wasQuoted := wildcard || s.wasQuoted }.put c).next

def scanLoop (unquote : Bool) (last : ℕ) : ℕ → Scan → Scan
  | 0, s => s
  | n + 1, s =>
      if (s.quote.isSome ∨ ¬ isspace (s.mem s.ep)) ∧ s.ep < last then
        scanLoop unquote last n (scanStep unquote last s)
      else s

attribute [grind =] scanLoop

/-- `parse_arg`, where the text is. -/
def scanArg (unquote : Bool) (last : ℕ) (mem : ℕ → Char) (bp : ℕ) : Scan :=
  scanLoop unquote last (last - bp) ⟨mem, bp, bp, none, false⟩

/-- `n` characters of memory. -/
def slice (mem : ℕ → Char) (p n : ℕ) : List Char := (List.range' p n).map mem

@[simp] theorem length_slice (mem : ℕ → Char) (p n : ℕ) : (slice mem p n).length = n := by
  rw [slice, List.length_map, List.length_range']

theorem slice_succ (mem : ℕ → Char) (p n : ℕ) :
    slice mem p (n + 1) = mem p :: slice mem (p + 1) n := rfl

theorem slice_append (mem : ℕ → Char) (p n k : ℕ) :
    slice mem p (n + k) = slice mem p n ++ slice mem (p + n) k := by
  rw [slice, slice, slice, ← List.map_append, List.range'_append_1]

theorem slice_congr {mem mem' : ℕ → Char} {p n : ℕ} (h : ∀ i, p ≤ i → i < p + n → mem i = mem' i) :
    slice mem p n = slice mem' p n := by
  refine List.map_congr_left fun i hi => ?_
  rw [List.mem_range'_1] at hi
  exact h i hi.1 hi.2

/-- Three characters say whether an argument is marked as quoted. -/
theorem isWildcard_three (a b c : Char) (text : List Char) :
    isWildcard (a :: b :: c :: text) = isWildcard [a, b, c] := by
  simp [isWildcard, List.isPrefixOf]

/-- The characters that are written between two states. -/
structure Wrote (s s' : Scan) (cs : List Char) : Prop where
  epp : s'.epp = s.epp + cs.length
  written : slice s'.mem s.epp cs.length = cs
  outside : ∀ i, i < s.epp ∨ s'.epp ≤ i → s'.mem i = s.mem i

theorem Wrote.nil {s s' : Scan} (hmem : s'.mem = s.mem) (hepp : s'.epp = s.epp) : Wrote s s' [] :=
  ⟨hepp, rfl, fun i _ => congrFun hmem i⟩

theorem Wrote.snoc {s s' s'' : Scan} {cs : List Char} {c : Char} (h : Wrote s s' cs)
    (hmem : s''.mem = Function.update s'.mem s'.epp c) (hepp : s''.epp = s'.epp + 1) :
    Wrote s s'' (cs ++ [c]) := by
  have hlen := h.epp
  refine ⟨?_, ?_, ?_⟩
  · rw [hepp, hlen, List.length_append, List.length_singleton, Nat.add_assoc]
  · rw [List.length_append, List.length_singleton, slice_append, hmem, ← hlen]
    congr 1
    · refine Eq.trans (slice_congr fun i _ hi => ?_) h.written
      exact Function.update_of_ne (by omega) _ _
    · rw [slice_succ, Function.update_self]
      rfl
  · intro i hi
    rw [hmem, Function.update_of_ne (by omega)]
    exact h.outside i (by omega)

theorem Wrote.trans {s s' s'' : Scan} {cs cs' : List Char} (h : Wrote s s' cs)
    (h' : Wrote s' s'' cs') : Wrote s s'' (cs ++ cs') := by
  have hlen := h.epp
  have hlen' := h'.epp
  refine ⟨?_, ?_, ?_⟩
  · rw [hlen', hlen, List.length_append, Nat.add_assoc]
  · rw [List.length_append, slice_append, ← hlen, h'.written]
    congr 1
    refine Eq.trans (slice_congr fun i _ hi => ?_) h.written
    exact h'.outside i (by omega)
  · intro i hi
    rw [h'.outside i (by omega)]
    exact h.outside i (by omega)

/-- A turn of the loop takes some characters and writes no more than these, where they are not
read any more. -/
structure Turn (unquote : Bool) (last : ℕ) (s s' : Scan) (cs : List Char) (w : Bool) : Prop where
  after : s.ep < s'.ep
  within : s'.ep ≤ last
  behind : s'.epp ≤ s'.ep
  wrote : Wrote s s' cs
  quoted : s'.wasQuoted = (w || s.wasQuoted)
  parsed : parseArg unquote (slice s.mem last 2) s.quote (slice s.mem s.ep (last - s.ep)) =
    (parseArg unquote (slice s.mem last 2) s'.quote (slice s.mem s'.ep (last - s'.ep))).emit cs w

theorem scanStep_turn (unquote : Bool) {last : ℕ} {s : Scan} (hle : s.epp ≤ s.ep)
    (hlt : s.ep < last) (hgo : s.quote.isSome ∨ ¬ isspace (s.mem s.ep)) :
    ∃ cs w, Turn unquote last s (scanStep unquote last s) cs w := by
  have hspace : ¬ (s.quote = none ∧ isspace (s.mem s.ep)) := by
    rintro ⟨hnone, hsp⟩
    rw [hnone] at hgo
    exact hgo.elim (by decide) fun h => h hsp
  have htext : slice s.mem s.ep (last - s.ep) =
      s.mem s.ep :: slice s.mem (s.ep + 1) (last - (s.ep + 1)) := by
    rw [← slice_succ]
    congr 1
    omega
  have hnil : Wrote s s [] := .nil rfl rfl
  unfold scanStep
  dsimp only
  by_cases hclose : s.quote = some (s.mem s.ep)
  · have hparse : parseArg unquote (slice s.mem last 2) s.quote (slice s.mem s.ep (last - s.ep)) =
        (parseArg unquote (slice s.mem last 2) none (slice s.mem (s.ep + 1)
          (last - (s.ep + 1)))).emit (if unquote then [] else [s.mem s.ep]) false := by
      rw [htext, parseArg, if_neg hspace, if_pos hclose]
    rw [if_pos hclose]
    cases unquote with
    | false =>
        exact ⟨_, _, Nat.lt_succ_self _, hlt, Nat.succ_le_succ hle, hnil.snoc rfl rfl, rfl, hparse⟩
    | true =>
        exact ⟨_, _, Nat.lt_succ_self _, hlt, Nat.le_succ_of_le hle, .nil rfl rfl, rfl, hparse⟩
  rw [if_neg hclose]
  by_cases hopen : s.quote = none ∧ (s.mem s.ep = '\'' ∨ s.mem s.ep = '"')
  · have hparse : parseArg unquote (slice s.mem last 2) s.quote (slice s.mem s.ep (last - s.ep)) =
        (parseArg unquote (slice s.mem last 2) (some (s.mem s.ep)) (slice s.mem (s.ep + 1)
          (last - (s.ep + 1)))).emit (if unquote then [] else [s.mem s.ep]) false := by
      rw [htext, parseArg, if_neg hspace, if_neg hclose, if_pos hopen]
    rw [if_pos hopen]
    cases unquote with
    | false =>
        exact ⟨_, _, Nat.lt_succ_self _, hlt, Nat.succ_le_succ hle, hnil.snoc rfl rfl, rfl, hparse⟩
    | true =>
        exact ⟨_, _, Nat.lt_succ_self _, hlt, Nat.le_succ_of_le hle, .nil rfl rfl, rfl, hparse⟩
  rw [if_neg hopen]
  by_cases hescape : s.mem s.ep = '\\' ∧ isQuoteOrNul (s.mem (s.ep + 1)) ∧ s.ep + 1 < last
  · have htext' : slice s.mem (s.ep + 1) (last - (s.ep + 1)) =
        s.mem (s.ep + 1) :: slice s.mem (s.ep + 2) (last - (s.ep + 2)) := by
      rw [← slice_succ]
      congr 1
      omega
    have hparse : parseArg unquote (slice s.mem last 2) s.quote (slice s.mem s.ep (last - s.ep)) =
        (parseArg unquote (slice s.mem last 2) s.quote (slice s.mem (s.ep + 2)
          (last - (s.ep + 2)))).emit
            (if unquote then [s.mem (s.ep + 1)] else [s.mem s.ep, s.mem (s.ep + 1)]) false := by
      rw [htext, parseArg, if_neg hspace, if_neg hclose, if_neg hopen, htext']
      exact if_pos ⟨hescape.1, hescape.2.1⟩
    rw [if_pos hescape]
    cases unquote with
    | false =>
        have hkept : Function.update s.mem s.epp (s.mem s.ep) (s.ep + 1) = s.mem (s.ep + 1) :=
          Function.update_of_ne (by omega) _ _
        have hfirst : Wrote s (s.put (s.mem s.ep)).next [s.mem s.ep] := hnil.snoc rfl rfl
        refine ⟨_, _, Nat.lt_add_of_pos_right Nat.two_pos, hescape.2.2, Nat.add_le_add_right hle 2,
          hfirst.snoc (c := s.mem (s.ep + 1)) ?_ rfl, rfl, hparse⟩
        exact congrArg (Function.update _ _) hkept
    | true =>
        exact ⟨_, _, Nat.lt_add_of_pos_right Nat.two_pos, hescape.2.2,
          (Nat.add_le_add_right hle 1).trans (Nat.le_succ _), hnil.snoc rfl rfl, rfl, hparse⟩
  rw [if_neg hescape]
  have hparse : parseArg unquote (slice s.mem last 2) s.quote (slice s.mem s.ep (last - s.ep)) =
      (parseArg unquote (slice s.mem last 2) s.quote (slice s.mem (s.ep + 1)
        (last - (s.ep + 1)))).emit [s.mem s.ep] (s.quote.isSome &&
          isWildcard [s.mem s.ep, s.mem (s.ep + 1), s.mem (s.ep + 2)] && unquote) := by
    have hthree : isWildcard (s.mem s.ep :: slice s.mem (s.ep + 1) (last - (s.ep + 1)) ++
        slice s.mem last 2) = isWildcard [s.mem s.ep, s.mem (s.ep + 1), s.mem (s.ep + 2)] := by
      have hend : s.ep + 1 + (last - (s.ep + 1)) = last := by omega
      have hjoin := slice_append s.mem (s.ep + 1) (last - (s.ep + 1)) 2
      rw [hend] at hjoin
      rw [List.cons_append, ← hjoin, slice_succ, slice_succ, isWildcard_three]
    rw [htext, parseArg, if_neg hspace, if_neg hclose, if_neg hopen, hthree]
    cases hrest : last - (s.ep + 1) with
    | zero => rfl
    | succ n => exact if_neg fun h => hescape ⟨h.1, h.2, by omega⟩
  exact ⟨_, _, Nat.lt_succ_self _, hlt, Nat.succ_le_succ hle, hnil.snoc rfl rfl, rfl, hparse⟩

/-- What has been written is behind what is still to be read. -/
theorem Wrote.slice_eq {s s' : Scan} {cs : List Char} (h : Wrote s s' cs) {p : ℕ}
    (hp : s'.epp ≤ p) (n : ℕ) : slice s'.mem p n = slice s.mem p n :=
  slice_congr fun i hi _ => h.outside i (.inr (hp.trans hi))

/-- The loop ends where `parse_arg` ends on the text, with its argument, and leaves the text
behind it as it is. -/
structure Scanned (unquote : Bool) (last : ℕ) (s r : Scan) (p : Parsed) : Prop where
  ended : ¬ ((r.quote.isSome ∨ ¬ isspace (r.mem r.ep)) ∧ r.ep < last)
  within : s.ep ≤ r.ep ∧ r.ep ≤ last
  behind : r.epp ≤ r.ep
  wrote : Wrote s r p.arg
  quoted : r.wasQuoted = (p.wasQuoted || s.wasQuoted)
  rest : p.rest = slice s.mem r.ep (last - r.ep)

theorem Scanned.stop {unquote : Bool} {last : ℕ} {s : Scan} (hle : s.epp ≤ s.ep)
    (hlast : s.ep ≤ last) (hstop : ¬ ((s.quote.isSome ∨ ¬ isspace (s.mem s.ep)) ∧ s.ep < last)) :
    Scanned unquote last s s (parseArg unquote (slice s.mem last 2) s.quote
      (slice s.mem s.ep (last - s.ep))) := by
  have hparse : parseArg unquote (slice s.mem last 2) s.quote (slice s.mem s.ep (last - s.ep)) =
      ⟨⟨[], false⟩, slice s.mem s.ep (last - s.ep)⟩ := by
    cases hrest : last - s.ep with
    | zero => exact parseArg.eq_1 _ _ _
    | succ n =>
        rw [not_and_or, not_or, not_not, Bool.not_eq_true, Option.isSome_eq_false_iff,
          Option.isNone_iff_eq_none] at hstop
        rw [slice_succ s.mem s.ep n, parseArg, if_pos (hstop.resolve_right (by omega))]
  rw [hparse]
  exact ⟨hstop, ⟨le_rfl, hlast⟩, hle, .nil rfl rfl, rfl, rfl⟩

theorem Scanned.turn {unquote : Bool} {last : ℕ} {s s' r : Scan} {cs : List Char} {w : Bool}
    (ht : Turn unquote last s s' cs w) (h : Scanned unquote last s' r
      (parseArg unquote (slice s'.mem last 2) s'.quote (slice s'.mem s'.ep (last - s'.ep)))) :
    Scanned unquote last s r (parseArg unquote (slice s.mem last 2) s.quote
      (slice s.mem s.ep (last - s.ep))) := by
  have hbehind := ht.behind
  rw [ht.wrote.slice_eq (hbehind.trans ht.within), ht.wrote.slice_eq hbehind] at h
  rw [ht.parsed]
  refine ⟨h.ended, ⟨ht.after.le.trans h.within.1, h.within.2⟩, h.behind, ht.wrote.trans h.wrote,
    ?_, ?_⟩
  · rw [h.quoted, ht.quoted]
    exact (Bool.or_left_comm _ _ _).trans (Bool.or_assoc _ _ _).symm
  · rw [rest_emit, h.rest, ht.wrote.slice_eq (hbehind.trans h.within.1)]

theorem scanLoop_spec {unquote : Bool} {last n : ℕ} {s : Scan} (hle : s.epp ≤ s.ep)
    (hlast : s.ep ≤ last) (hn : last - s.ep ≤ n) :
    Scanned unquote last s (scanLoop unquote last n s) (parseArg unquote (slice s.mem last 2)
      s.quote (slice s.mem s.ep (last - s.ep))) := by
  induction n generalizing s with
  | zero => exact .stop hle hlast fun h => by omega
  | succ n ih =>
      rw [scanLoop]
      split_ifs with hgo
      · obtain ⟨cs, w, ht⟩ := scanStep_turn unquote hle hgo.2 hgo.1
        have hafter := ht.after
        exact .turn ht (ih ht.behind ht.within (by omega))
      · exact .stop hle hlast hgo

/-- `parse_arg` in memory is `parse_arg` on the text. -/
theorem scanArg_spec (unquote : Bool) {last bp : ℕ} (mem : ℕ → Char) (h : bp ≤ last) :
    Scanned unquote last ⟨mem, bp, bp, none, false⟩ (scanArg unquote last mem bp)
      (parseArg unquote (slice mem last 2) none (slice mem bp (last - bp))) :=
  scanLoop_spec le_rfl h le_rfl

theorem scanArg_ep (unquote : Bool) {last bp : ℕ} (mem : ℕ → Char) (h : bp ≤ last) :
    (scanArg unquote last mem bp).ep + (parseArg true (slice mem last 2) none
      (slice mem bp (last - bp))).rest.length = last := by
  have hspec := scanArg_spec unquote mem h
  have hend := hspec.within.2
  have hrest := hspec.rest
  cases unquote
  · rw [parseArg_rest, hrest, length_slice]
    omega
  · rw [hrest, length_slice]
    omega

theorem scanArg_ep_eq {last bp : ℕ} {mem mem' : ℕ → Char} (h : bp ≤ last)
    (hsame : ∀ i, bp ≤ i → mem i = mem' i) :
    (scanArg true last mem bp).ep = (scanArg false last mem' bp).ep := by
  have htrue := scanArg_ep true mem h
  have hfalse := scanArg_ep false mem' h
  rw [← slice_congr fun i hi _ => hsame i hi,
    ← slice_congr fun i hi _ => hsame i (h.trans hi)] at hfalse
  omega

theorem scanArg_mem {unquote : Bool} {last bp : ℕ} (mem : ℕ → Char) (h : bp ≤ last) {i : ℕ}
    (hi : (scanArg unquote last mem bp).ep ≤ i) : (scanArg unquote last mem bp).mem i = mem i := by
  have hspec := scanArg_spec unquote mem h
  exact hspec.wrote.outside i (.inr (hspec.behind.trans hi))

/-- An argument as `parse_bytes` finds it: where it begins and ends in the text, and what it is. -/
structure Piece extends Arg where
  bp : ℕ
  ep : ℕ
deriving DecidableEq

/-- The loop of `parse_bytes`, which takes a character in every turn. -/
def scanPieces (unquote : Bool) (last : ℕ) : ℕ → (ℕ → Char) → ℕ → List Piece
  | 0, _, _ => []
  | n + 1, mem, p =>
      let bp := p + ((slice mem p (last - p)).takeWhile isspace).length
      if bp < last then
        let r := scanArg unquote last mem bp
        ⟨⟨slice r.mem bp (r.epp - bp), r.wasQuoted⟩, bp, r.ep⟩ ::
          scanPieces unquote last n r.mem (r.ep + 1)
      else []

attribute [grind =] scanPieces

theorem dropWhile_slice (f : Char → Bool) (mem : ℕ → Char) (p n : ℕ) :
    (slice mem p n).dropWhile f = slice mem (p + ((slice mem p n).takeWhile f).length)
      (n - ((slice mem p n).takeWhile f).length) := by
  induction n generalizing p with
  | zero => rfl
  | succ n ih =>
      rw [slice_succ, List.takeWhile_cons, List.dropWhile_cons]
      split_ifs
      · rw [ih, List.length_cons]
        congr 1 <;> omega
      · rfl

/-- The arguments are those of `parse_bytes` on the text. -/
theorem scanPieces_args (unquote : Bool) (last n : ℕ) (mem : ℕ → Char) (p : ℕ) :
    (scanPieces unquote last n mem p).map Piece.toArg =
      parseArgs unquote (slice mem last 2) n (slice mem p (last - p)) := by
  induction n generalizing mem p with
  | zero => rfl
  | succ n ih =>
      rw [scanPieces, parseArgs, dropWhile_slice]
      dsimp only
      obtain ⟨k, hk⟩ : ∃ k, k = ((slice mem p (last - p)).takeWhile isspace).length := ⟨_, rfl⟩
      rw [← hk]
      have hsub : last - p - k = last - (p + k) := Nat.sub_sub last p k
      rw [hsub]
      by_cases hlt : p + k < last
      · have hspec := scanArg_spec unquote mem hlt.le
        have hrest : (parseArg unquote (slice mem last 2) none
            (slice mem (p + k) (last - (p + k)))).rest.drop 1 =
              slice mem ((scanArg unquote last mem (p + k)).ep + 1)
                (last - ((scanArg unquote last mem (p + k)).ep + 1)) := by
          rw [hspec.rest, slice, ← List.map_drop, List.drop_range', Nat.sub_sub]
          rfl
        have hmem : ∀ q c, (scanArg unquote last mem (p + k)).ep ≤ q →
            slice (scanArg unquote last mem (p + k)).mem q c = slice mem q c :=
          fun q c hq => slice_congr fun i hi _ => scanArg_mem mem hlt.le (hq.trans hi)
        have harg : (⟨slice (scanArg unquote last mem (p + k)).mem (p + k)
              ((scanArg unquote last mem (p + k)).epp - (p + k)),
              (scanArg unquote last mem (p + k)).wasQuoted⟩ : Arg) =
            (parseArg unquote (slice mem last 2) none
              (slice mem (p + k) (last - (p + k)))).toArg := by
          rw [hspec.wrote.epp, hspec.quoted, Nat.add_sub_cancel_left, hspec.wrote.written,
            Bool.or_false]
        rw [if_pos hlt, List.map_cons, ih, hmem _ _ hspec.within.2, hmem _ _ (Nat.le_succ _),
          ← hrest]
        refine (congrArg (· :: _) harg).trans ?_
        obtain ⟨m, hm⟩ : ∃ m, last - (p + k) = m + 1 := ⟨last - (p + k) - 1, by omega⟩
        rw [hm, slice_succ mem (p + k)]
      · rw [if_neg hlt, Nat.sub_eq_zero_of_le (not_lt.mp hlt)]
        rfl

theorem scanPieces_boundaries (last n : ℕ) {mem mem' : ℕ → Char} {p : ℕ}
    (hsame : ∀ i, p ≤ i → mem i = mem' i) :
    (scanPieces true last n mem p).map (fun a => (a.bp, a.ep)) =
      (scanPieces false last n mem' p).map (fun a => (a.bp, a.ep)) := by
  induction n generalizing mem mem' p with
  | zero => rfl
  | succ n ih =>
      have hslice : slice mem p (last - p) = slice mem' p (last - p) :=
        slice_congr fun i hi _ => hsame i hi
      rw [scanPieces, scanPieces, hslice]
      dsimp only
      obtain ⟨bp, hbp⟩ : ∃ bp, bp = p + ((slice mem' p (last - p)).takeWhile isspace).length :=
        ⟨_, rfl⟩
      rw [← hbp]
      split_ifs with hlt
      · have hep := scanArg_ep_eq hlt.le fun i hi => hsame i (by omega)
        have hbound : bp ≤ (scanArg true last mem bp).ep := (scanArg_spec true mem hlt.le).within.1
        rw [hep] at hbound
        rw [List.map_cons, List.map_cons, hep]
        congr 1
        refine ih fun i hi => ?_
        rw [scanArg_mem mem hlt.le (by omega), scanArg_mem mem' hlt.le (by omega)]
        exact hsame i (by omega)
      · rfl

/-- An `Arg` with what has been expanded: `arg`, `arg_globbed` and `arg_file`. -/
inductive Entry
  | mk (a : Arg) (argGlobbed : Option (List (List Char))) (argFile : Option (List Entry))

structure Filled where
  argv : ℕ → Option (List Char)
  largv : ℕ

/-- `*largv++ = arg`. -/
def Filled.put (s : Filled) (arg : List Char) : Filled :=
  ⟨Function.update s.argv s.largv (some arg), s.largv + 1⟩

mutual

/-- The body of the loop of `count_args`. -/
def countArg : Entry → ℕ
  | .mk _ (some words) _ => words.length
  | .mk _ none (some al) => countArgs al
  | .mk _ none none => 1

/-- `count_args` -/
def countArgs : List Entry → ℕ
  | [] => 0
  | e :: al => countArg e + countArgs al

end

mutual

/-- The body of the loop of `fill_args`. -/
def fillArg (s : Filled) : Entry → Filled
  | .mk _ (some words) _ => words.foldl Filled.put s
  | .mk _ none (some al) => fillArgs s al
  | .mk a none none => s.put a.arg

/-- `fill_args` -/
def fillArgs (s : Filled) : List Entry → Filled
  | [] => s
  | e :: al => fillArgs (fillArg s e) al

end

mutual

def Entry.words : Entry → List (List Char)
  | .mk _ (some words) _ => words
  | .mk _ none (some al) => allWords al
  | .mk a none none => [a.arg]

def allWords : List Entry → List (List Char)
  | [] => []
  | e :: al => e.words ++ allWords al

end

attribute [grind =] countArg countArgs fillArg fillArgs Entry.words allWords

/-- The end of `__crt0_setup_arguments`: the number of the arguments, and the array. -/
def setupArguments (argv0 : Option (List Char)) (al : List Entry)
    (argv : ℕ → Option (List Char)) : ℕ × (ℕ → Option (List Char)) :=
  let prepend := argv0.toList.length
  let argc := prepend + countArgs al
  let argv := if argv0.isSome then Function.update argv 0 argv0 else argv
  let s := fillArgs ⟨argv, prepend⟩ al
  (argc, Function.update s.argv s.largv none)

mutual

theorem countArg_eq : ∀ e : Entry, countArg e = e.words.length
  | .mk _ (some words) _ => by rw [countArg, Entry.words]
  | .mk _ none (some al) => by rw [countArg, Entry.words, countArgs_eq al]
  | .mk _ none none => by rw [countArg, Entry.words, List.length_singleton]

/-- `count_args` counts the arguments. -/
theorem countArgs_eq : ∀ al : List Entry, countArgs al = (allWords al).length
  | [] => by rw [countArgs, allWords, List.length_nil]
  | e :: al => by rw [countArgs, allWords, List.length_append, countArg_eq e, countArgs_eq al]

end

mutual

theorem fillArg_eq (s : Filled) : ∀ e : Entry, fillArg s e = e.words.foldl Filled.put s
  | .mk _ (some words) _ => by rw [fillArg, Entry.words]
  | .mk _ none (some al) => by rw [fillArg, Entry.words, fillArgs_eq s al]
  | .mk _ none none => by rw [fillArg, Entry.words, List.foldl_cons, List.foldl_nil]

/-- `fill_args` stores the arguments, one behind the other. -/
theorem fillArgs_eq (s : Filled) : ∀ al : List Entry,
    fillArgs s al = (allWords al).foldl Filled.put s
  | [] => by rw [fillArgs, allWords, List.foldl_nil]
  | e :: al => by
      rw [fillArgs, allWords, List.foldl_append, ← fillArg_eq s e, fillArgs_eq (fillArg s e) al]

end

theorem largv_puts (words : List (List Char)) (s : Filled) :
    (words.foldl Filled.put s).largv = s.largv + words.length := by
  induction words generalizing s with
  | nil => rfl
  | cons w words ih =>
      rw [List.foldl_cons, ih, List.length_cons]
      exact Nat.succ_add_eq_add_succ s.largv words.length

theorem argv_puts (words : List (List Char)) (s : Filled) (i : ℕ) :
    (words.foldl Filled.put s).argv i =
      if s.largv ≤ i ∧ i < s.largv + words.length then words[i - s.largv]? else s.argv i := by
  induction words generalizing s with
  | nil => rw [if_neg (by simp), List.foldl_nil]
  | cons w words ih =>
      have hnext : (s.put w).largv = s.largv + 1 := rfl
      rw [List.foldl_cons, ih, List.length_cons, hnext]
      by_cases hfirst : i = s.largv
      · rw [if_neg (by omega), if_pos (by omega), hfirst, Nat.sub_self]
        exact Function.update_self _ _ _
      · have hput : (s.put w).argv i = s.argv i := Function.update_of_ne hfirst _ _
        rw [hput]
        by_cases hin : s.largv ≤ i ∧ i < s.largv + (words.length + 1)
        · have hindex : i - s.largv = i - (s.largv + 1) + 1 := by omega
          rw [if_pos (by omega), if_pos hin, hindex, List.getElem?_cons_succ]
        · rw [if_neg (by omega), if_neg hin]

theorem setupArguments_fills (argv0 : Option (List Char)) (al : List Entry)
    (argv : ℕ → Option (List Char)) :
    (setupArguments argv0 al argv).1 = (argv0.toList ++ allWords al).length ∧
    (setupArguments argv0 al argv).2 (setupArguments argv0 al argv).1 = none ∧
    (∀ i < (setupArguments argv0 al argv).1,
      (setupArguments argv0 al argv).2 i = (argv0.toList ++ allWords al)[i]?) ∧
    ∀ i, (setupArguments argv0 al argv).1 < i → (setupArguments argv0 al argv).2 i = argv i := by
  have hcount := countArgs_eq al
  obtain ⟨s, hs⟩ : ∃ s : Filled, s = ⟨if argv0.isSome then Function.update argv 0 argv0 else argv,
    argv0.toList.length⟩ := ⟨_, rfl⟩
  have hfill := fillArgs_eq s al
  have hlargv := largv_puts (allWords al) s
  have hargv := argv_puts (allWords al) s
  rw [← hfill] at hlargv hargv
  have hstart : s.largv = argv0.toList.length := by rw [hs]
  rw [hstart, ← hcount] at hlargv
  have hresult : setupArguments argv0 al argv = (argv0.toList.length + countArgs al,
      Function.update (fillArgs s al).argv (argv0.toList.length + countArgs al) none) := by
    rw [setupArguments, ← hs, hlargv]
  rw [hresult]
  refine ⟨?_, Function.update_self _ _ _, fun i hi => ?_, fun i hi => ?_⟩
  · rw [hcount, List.length_append]
  · dsimp only at hi ⊢
    rw [Function.update_of_ne hi.ne, hargv, hstart, ← hcount]
    by_cases hfirst : i < argv0.toList.length
    · rw [if_neg (by omega), List.getElem?_append_left hfirst, hs]
      cases argv0 with
      | none => exact absurd hfirst (Nat.not_lt_zero i)
      | some a =>
          obtain rfl : i = 0 := Nat.lt_one_iff.mp hfirst
          have hself : Function.update argv 0 (some a) 0 = some a := Function.update_self _ _ _
          exact hself
    · rw [if_pos (by omega), List.getElem?_append_right (not_lt.mp hfirst)]
  · dsimp only at hi ⊢
    rw [Function.update_of_ne hi.ne', hargv, hstart, ← hcount, if_neg (by omega), hs]
    cases argv0 with
    | none => rfl
    | some a =>
        have hne : i ≠ 0 := Nat.ne_zero_of_lt hi
        exact Function.update_of_ne hne (some a) argv

/-- `parse_arg` finds the same boundaries with and without the quotes, and the array that is made
for the number of the arguments is filled exactly. -/
theorem arguments_agree :
    (∀ (last : ℕ) (mem : ℕ → Char) (bp : ℕ),
      (scanArg true last mem bp).ep = (scanArg false last mem bp).ep) ∧
    (∀ (last n : ℕ) (mem : ℕ → Char) (p : ℕ),
      (scanPieces true last n mem p).map (fun a => (a.bp, a.ep)) =
        (scanPieces false last n mem p).map (fun a => (a.bp, a.ep))) ∧
    (∀ (s : Filled) (al : List Entry), (fillArgs s al).largv = s.largv + countArgs al) ∧
    ∀ (argv0 : Option (List Char)) (al : List Entry) (argv : ℕ → Option (List Char)),
      (setupArguments argv0 al argv).1 = (argv0.toList ++ allWords al).length ∧
      (setupArguments argv0 al argv).2 (setupArguments argv0 al argv).1 = none ∧
      (∀ i < (setupArguments argv0 al argv).1,
        (setupArguments argv0 al argv).2 i = (argv0.toList ++ allWords al)[i]?) ∧
      ∀ i, (setupArguments argv0 al argv).1 < i → (setupArguments argv0 al argv).2 i = argv i := by
  refine ⟨fun last mem bp => ?_, fun last n mem p => scanPieces_boundaries last n fun _ _ => rfl,
    fun s al => ?_, setupArguments_fills⟩
  · by_cases h : bp ≤ last
    · exact scanArg_ep_eq h fun _ _ => rfl
    · rw [scanArg, scanArg, Nat.sub_eq_zero_of_le (not_le.mp h).le]
      rfl
  · rw [fillArgs_eq, largv_puts, countArgs_eq]

end DjgppLibc.C1args
