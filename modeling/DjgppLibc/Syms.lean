import Mathlib.Data.Finset.Max
import Mathlib.Data.List.Permutation
import Mathlib.Data.List.TakeWhile
import DjgppLibc.BinarySearches
import DjgppLibc.QsortSorting
import DjgppLibc.Strtol

/-!
# The symbols of the debugger (`debug/common/syms.c`)

The symbols are sorted twice, by names and by addresses, and searched by bisection. The difference
of two unsigned addresses is an `int`, and a search by name takes the first symbol that begins
with the name.
-/
namespace DjgppLibc.Syms

open BinarySearches Strtol

abbrev Name := List UInt8

structure SymNode where
  name : Name
  address : BitVec 32
deriving DecidableEq

/-- The sign of `strcmp`. -/
def strcmp (a b : Name) : ℤ := if a < b then -1 else if b < a then 1 else 0

def strncmp (a b : Name) (n : ℕ) : ℤ := strcmp (a.take n) (b.take n)

def symsSortBn (sa sb : SymNode) : ℤ := strcmp sa.name sb.name

/-- The difference of the addresses is returned as an `int`. -/
def symsSortBv (sa sb : SymNode) : ℤ := (sa.address - sb.address).toInt

def word (bs : List UInt8) : ℕ :=
  (bs.getD 0 0).toNat + 256 * (bs.getD 1 0).toNat + 65536 * (bs.getD 2 0).toNat +
    16777216 * (bs.getD 3 0).toNat

/-- A node in memory: the address of its name, its own address, and `type_c`. -/
def SymNode.read (strings : ℕ → Name) (bs : List UInt8) : SymNode :=
  ⟨strings (word bs), .ofNat 32 (word (bs.drop 4))⟩

/-- `qsort` makes `sorted` of `table`. -/
def SortedBy (strings : ℕ → Name) (cmp : SymNode → SymNode → ℤ)
    (table sorted : List SymNode) : Prop :=
  ∃ (q : Qsort.Call) (s s' : Qsort.State) (fuel : ℕ),
    (∀ n x y, q.compare n x y = cmp (.read strings x) (.read strings y)) ∧
    q.num < fuel ∧ q.qsort fuel s = some ((), s') ∧
    table = (q.contents s).map (SymNode.read strings) ∧
    sorted = (q.contents s').map (SymNode.read strings)

def compareVal (syms : List SymNode) (val : BitVec 32) (i : ℕ) : ℤ :=
  match syms[i]? with
  | none => 0
  | some s => if s.address = val then 0 else if s.address > val then -1 else 1

/-- The symbol that `syms_val2name` has arrived at, before its name is looked at. -/
def pick (syms : List SymNode) (val : BitVec 32) : Option SymNode :=
  if syms.length = 0 then none
  else
    let mid := (bisect (compareVal syms val) (syms.length + 1) (-1) syms.length 0).1
    match syms[mid.toNat]? with
    | none => none
    | some s =>
        if s.address > val then if mid = 0 then none else syms[(mid - 1).toNat]?
        else some s

/-- `_end`, `__end` and `_etext` -/
def endNames : List Name :=
  ["_end", "__end", "_etext"].map fun s => s.toList.map Char.toUInt8

inductive Val2name
  | symbol (name : Name) (delta : BitVec 32)
  | noname (val : BitVec 32)
deriving DecidableEq

def symsVal2name (syms : List SymNode) (val : BitVec 32) : Val2name :=
  match pick syms val with
  | none => .noname val
  | some s => if s.name ∈ endNames then .noname val else .symbol s.name (val - s.address)

def underscore : UInt8 := 0x5F

/-- A `char` has a sign. -/
def signed (c : UInt8) : ℤ := if c.toNat < 128 then c.toNat else c.toNat - 256

/-- What a comparison of `lookup_sym_byname` says about an element. -/
def compareName (byname : List SymNode) (name : Name) (idx : ℕ) (ofs : Bool) (i : ℕ) : ℤ :=
  match byname[i]? with
  | none => 0
  | some s =>
      let c := if ofs then signed underscore - signed (s.name.headD 0) else 0
      if c = 0 then strncmp name (s.name.drop ofs.toNat) idx else c

/-- The first of the elements before which the comparison goes on to be zero. -/
def walkBack (byname : List SymNode) (name : Name) (idx : ℕ) (ofs : Bool) : ℕ → ℕ
  | 0 => 0
  | mid + 1 =>
      match byname[mid]? with
      | none => mid + 1
      | some s =>
          if strncmp name (s.name.drop ofs.toNat) idx = 0 then walkBack byname name idx ofs mid
          else mid + 1

attribute [grind =] walkBack

def lookupSymByname (byname : List SymNode) (name : Name) (idx : ℕ) (ofs : Bool) :
    Option SymNode :=
  let r := bisect (compareName byname name idx ofs) (byname.length + 1) (-1) byname.length 0
  if r.2 then byname[walkBack byname name idx ofs r.1.toNat]? else none

/-- Both searches of `syms_name2val`. -/
def lookup (byname : List SymNode) (name : Name) (idx : ℕ) : Option SymNode :=
  (lookupSymByname byname name idx false).or (lookupSymByname byname name idx true)

/-- The names in `regs`. -/
def regs : List Name :=
  ["eip", "eflags", "eax", "ebx", "ecx", "edx", "esp", "ebp", "esi", "edi", "ax", "bx", "cx", "dx",
    "ah", "bh", "ch", "dh", "al", "bl", "cl", "dl"].map fun s => s.toList.map Char.toUInt8

/-- A register that begins with the name, or is the name behind a percent sign. -/
def register (name : Name) (idx : ℕ) : Option Name :=
  let p := if name.head? = some 0x25 then name.drop 1 else name
  regs.find? fun reg => strncmp p reg idx = 0

structure FileNode where
  filename : Name
  lines : List (ℤ × BitVec 32)

/-- What else `syms_name2val` reads: the sorted symbols, the files with their lines, the
registers, and the number that `sscanf` finds at the start of a text. -/
structure Tables where
  byname : List SymNode
  files : List FileNode
  reg : Name → BitVec 32
  scanNumber : Name → ℤ

/-- `sscanf (cp, "%s", cp)`: the first word of the text, if it has one. -/
def firstWord (text : Name) : Name :=
  let word := (text.dropWhile isspace).takeWhile fun c => !isspace c
  if word = [] then text else word

def plus : UInt8 := 0x2B
def minus : UInt8 := 0x2D
def hash : UInt8 := 0x23

/-- The address of a line in a file, as `file#line`. -/
def lineAddress (t : Tables) (name : Name) (i : ℕ) : Option (BitVec 32) := do
  let file ← t.files.find? fun f => f.filename = name.take i
  let lnum := t.scanNumber (name.drop (i + 1))
  let line ← file.lines.find? fun l => l.1 = lnum
  return line.2

inductive Addend
  | none
  | number (val : BitVec 32)
  | line (addr : BitVec 32)
  | symbol (s : SymNode)
  | register (reg : Name)
  | undefined

def firstAddend (t : Tables) (text : Name) : Addend × BitVec 32 × Name :=
  let name := firstWord text
  if name = [] then (.none, 1, [])
  else
    let sign : BitVec 32 := if name.head? = some minus then -1 else 1
    let name := if name.head? = some minus ∨ name.head? = some plus then name.drop 1 else name
    if isdigit (name.headD 0) then (.number (sign * .ofInt 32 (strtoul name 0 0).value), 1, [])
    else
      let idx := (name.takeWhile fun c => c ≠ plus ∧ c ≠ minus).length
      let i := (name.takeWhile fun c => c ≠ hash).length
      let addend :=
        if i < idx then
          match lineAddress t name i with
          | some addr => .line addr
          | none => .undefined
        else
          match lookup t.byname name idx with
          | some s => .symbol s
          | none =>
              match register name idx with
              | some reg => .register reg
              | none => .undefined
      (addend, sign, name.drop idx)

/-- `syms_name2val`, with `undefined_symbol`. Every call of it has one addend less. -/
def symsName2val (t : Tables) : ℕ → Name → BitVec 32 × Bool
  | 0, _ => (0, false)
  | n + 1, text =>
      let (addend, sign, text) := firstAddend t text
      let rest := symsName2val t n text
      match addend with
      | .none => (0, false)
      | .number val => (val, false)
      | .line addr => (addr + rest.1, rest.2)
      | .symbol s => (s.address * sign + rest.1, rest.2)
      | .register reg => (t.reg reg + rest.1, rest.2)
      | .undefined => (0, true)

attribute [grind =] symsName2val

/-- The signs of the answers are those of a total preorder. -/
structure Consistent (cmp : SymNode → SymNode → ℤ) (table : List SymNode) : Prop where
  opposite : ∀ x ∈ table, ∀ y ∈ table, cmp x y ≤ 0 ↔ 0 ≤ cmp y x
  trans : ∀ x ∈ table, ∀ y ∈ table, ∀ z ∈ table, cmp x y ≤ 0 → cmp y z ≤ 0 → cmp x z ≤ 0

variable {strings : ℕ → Name} {cmp : SymNode → SymNode → ℤ} {table sorted syms : List SymNode}
  {val : BitVec 32}

theorem SortedBy.perm (h : SortedBy strings cmp table sorted) : sorted.Perm table := by
  obtain ⟨q, s, s', fuel, -, hfuel, hrun, rfl, rfl⟩ := h
  obtain ⟨s'', hrun', hperm⟩ := q.qsort_rearranges fuel hfuel s
  obtain ⟨-, rfl⟩ := Prod.mk.inj (Option.some.inj (hrun.symm.trans hrun'))
  exact hperm.map _

theorem SortedBy.pairwise (h : SortedBy strings cmp table sorted) (hcmp : Consistent cmp table) :
    sorted.Pairwise fun x y => cmp x y ≤ 0 := by
  obtain ⟨q, s, s', fuel, hq, hfuel, hrun, rfl, rfl⟩ := h
  have horders : Qsort.Orders (fun x y => cmp (.read strings x) (.read strings y))
      (q.contents s) := by
    constructor
    · intro x hx y hy
      exact hcmp.opposite _ (List.mem_map_of_mem hx) _ (List.mem_map_of_mem hy)
    · intro x hx y hy z hz
      exact hcmp.trans _ (List.mem_map_of_mem hx) _ (List.mem_map_of_mem hy) _
        (List.mem_map_of_mem hz)
  obtain ⟨s'', hrun', -, hsorted⟩ :=
    Qsort.Call.qsort_ordered (fun n => funext fun x => funext fun y => hq n x y) horders hfuel
  obtain ⟨-, rfl⟩ := Prod.mk.inj (Option.some.inj (hrun.symm.trans hrun'))
  exact List.pairwise_map.mpr hsorted

/-- A symbol of the greatest address that is not above the value. -/
def PicksGreatest (table : List SymNode) (val : BitVec 32) : Option SymNode → Prop
  | none => ∀ s ∈ table, val < s.address
  | some s => s ∈ table ∧ s.address ≤ val ∧
      ∀ t ∈ table, t.address ≤ val → t.address ≤ s.address

theorem PicksGreatest.perm (h : sorted.Perm table) {o : Option SymNode} :
    PicksGreatest sorted val o ↔ PicksGreatest table val o := by
  cases o <;> simp only [PicksGreatest, h.mem_iff]

theorem compareVal_cases (val : BitVec 32) {i : ℕ} (hi : i < syms.length) :
    (0 < compareVal syms val i ↔ syms[i].address.toNat < val.toNat) ∧
      (compareVal syms val i < 0 ↔ val.toNat < syms[i].address.toNat) ∧
      (compareVal syms val i = 0 ↔ syms[i].address.toNat = val.toNat) := by
  rw [compareVal, List.getElem?_eq_getElem hi]
  dsimp only
  split_ifs with heq hgt
  · rw [heq]
    exact ⟨iff_of_false (by decide) (lt_irrefl _), iff_of_false (by decide) (lt_irrefl _),
      iff_of_true rfl rfl⟩
  · rw [gt_iff_lt, BitVec.lt_def] at hgt
    exact ⟨iff_of_false (by decide) (by omega), iff_of_true (by decide) hgt,
      iff_of_false (by decide) (by omega)⟩
  · rw [gt_iff_lt, BitVec.lt_def] at hgt
    rw [← BitVec.toNat_inj] at heq
    exact ⟨iff_of_true (by decide) (by omega), iff_of_false (by decide) hgt,
      iff_of_false (by decide) heq⟩

def Ascending (syms : List SymNode) : Prop :=
  syms.Pairwise fun s t => s.address.toNat ≤ t.address.toNat

theorem Ascending.le (h : Ascending syms) {i j : ℕ} (hij : i ≤ j) (hi : i < syms.length)
    (hj : j < syms.length) : syms[i].address.toNat ≤ syms[j].address.toNat := by
  obtain hlt | rfl := Nat.lt_or_eq_of_le hij
  · exact List.pairwise_iff_getElem.mp h i j _ hj hlt
  · exact le_rfl

theorem ascends_compareVal (h : Ascending syms) (val : BitVec 32) :
    Ascends (compareVal syms val) syms.length := by
  constructor
  · intro i j hij hj hpos
    have hle := h.le hij.le (hij.trans hj) hj
    have hi := compareVal_cases val (hij.trans hj)
    have hj := compareVal_cases val hj
    omega
  · intro i j hij hj hneg
    have hle := h.le hij.le (hij.trans hj) hj
    have hi := compareVal_cases val (hij.trans hj)
    have hj := compareVal_cases val hj
    omega

/-- Where the addresses ascend, the right symbol is picked. -/
theorem pick_ascending (h : Ascending syms) (val : BitVec 32) :
    PicksGreatest syms val (pick syms val) := by
  by_cases hnil : syms.length = 0
  · rw [pick, if_pos hnil, List.length_eq_zero_iff.mp hnil]
    exact fun s hs => absurd hs List.not_mem_nil
  · have hsettled := bisect_settles (ascends_compareVal h val)
      (bounds_start _ (Nat.pos_of_ne_zero hnil)) (n := syms.length + 1) (by omega)
    rw [pick, if_neg hnil]
    dsimp only
    generalize bisect (compareVal syms val) (syms.length + 1) (-1) syms.length 0 = r at hsettled ⊢
    obtain ⟨m, hm⟩ : ∃ m : ℕ, (m : ℤ) = r.1 := ⟨r.1.toNat, by have := hsettled.range; omega⟩
    rw [← hm] at hsettled ⊢
    have hlt : m < syms.length := by
      have := hsettled.range
      omega
    have hcase := compareVal_cases val hlt
    have hsought := hsettled.sought
    rw [Int.toNat_natCast, List.getElem?_eq_getElem hlt]
    rw [Int.toNat_natCast] at hsought
    dsimp only
    simp only [gt_iff_lt, BitVec.lt_def]
    split_ifs with habove hfirst
    · intro s hs
      obtain ⟨i, hi, rfl⟩ := List.mem_iff_getElem.mp hs
      have hle := h.le (show m ≤ i by omega) hlt hi
      rw [BitVec.lt_def]
      omega
    · have hprev : m - 1 < syms.length := by omega
      have hindex : ((m : ℤ) - 1).toNat = m - 1 := by omega
      have hnot : r.2 = false := by
        rw [← Bool.not_eq_true, hsought, hcase.2.2]
        omega
      have hbefore := hsettled.before hnot (m - 1) (by omega)
      rw [(compareVal_cases val hprev).1] at hbefore
      rw [hindex, List.getElem?_eq_getElem hprev]
      refine ⟨List.getElem_mem hprev, hbefore.le, fun t ht hle => ?_⟩
      obtain ⟨i, hi, rfl⟩ := List.mem_iff_getElem.mp ht
      by_cases him : i ≤ m - 1
      · exact h.le him hi hprev
      · have hge := h.le (show m ≤ i by omega) hlt hi
        rw [BitVec.le_def] at hle
        omega
    · refine ⟨List.getElem_mem hlt, not_lt.mp habove, fun t ht hle => ?_⟩
      obtain ⟨i, hi, rfl⟩ := List.mem_iff_getElem.mp ht
      by_cases him : i ≤ m
      · exact h.le him hi hlt
      · rw [BitVec.le_def] at hle ⊢
        by_cases heq : syms[m].address.toNat = val.toNat
        · omega
        · have hnot : r.2 = false := by
            rw [← Bool.not_eq_true, hsought, hcase.2.2]
            exact heq
          have hbehind := hsettled.behind hnot i (by omega) hi
          rw [(compareVal_cases val hi).2.1] at hbehind
          omega

/-- No two addresses are 2 GB or more apart. -/
def Near (table : List SymNode) : Prop :=
  ∀ x ∈ table, ∀ y ∈ table, x.address.toNat < y.address.toNat + 2 ^ 31

theorem symsSortBv_cases (x y : SymNode) :
    (symsSortBv x y ≤ 0 ↔ x.address.toNat ≤ y.address.toNat ∧
        y.address.toNat ≤ x.address.toNat + 2 ^ 31 ∨
      y.address.toNat + 2 ^ 31 ≤ x.address.toNat) ∧
    (0 ≤ symsSortBv x y ↔ y.address.toNat ≤ x.address.toNat ∧
        x.address.toNat < y.address.toNat + 2 ^ 31 ∨
      x.address.toNat + 2 ^ 31 < y.address.toNat) := by
  have hx := x.address.isLt
  have hy := y.address.isLt
  rw [symsSortBv, BitVec.toInt_eq_toNat_cond, BitVec.toNat_sub]
  split_ifs <;> omega

theorem consistent_of_near (h : Near table) : Consistent symsSortBv table := by
  constructor
  · intro x hx y hy
    have hxy := h x hx y hy
    have hyx := h y hy x hx
    rw [(symsSortBv_cases x y).1, (symsSortBv_cases y x).2]
    omega
  · intro x hx y hy z hz
    have hxy := h x hx y hy
    have hyz := h y hy z hz
    have hxz := h x hx z hz
    have hzx := h z hz x hx
    rw [(symsSortBv_cases x y).1, (symsSortBv_cases y z).1, (symsSortBv_cases x z).1]
    omega

/-- The comparison gives the order of addresses that are near one another. -/
theorem SortedBy.ascending (h : SortedBy strings symsSortBv table syms) (hnear : Near table) :
    Ascending syms := by
  refine (h.pairwise (consistent_of_near hnear)).imp_of_mem fun {x y} hx hy hle => ?_
  have hxy := hnear x (h.perm.mem_iff.mp hx) y (h.perm.mem_iff.mp hy)
  rw [(symsSortBv_cases x y).1] at hle
  omega

theorem least_in_front {s : SymNode} (hs : s ∈ syms)
    (hleast : ∀ t ∈ syms, s.address.toNat ≤ t.address.toNat)
    (hright : PicksGreatest syms s.address (pick syms s.address)) :
    ∃ (i : ℕ) (hi : i < syms.length), i ≤ (syms.length - 1) / 2 ∧ syms[i].address = s.address := by
  have hpos := List.length_pos_of_mem hs
  have hc : ∀ i < syms.length, compareVal syms s.address i ≤ 0 := by
    intro i hi
    have hcase := (compareVal_cases s.address hi).1
    have hle := hleast _ (List.getElem_mem hi)
    omega
  obtain ⟨hle, hzero⟩ := bisect_front hc hpos (Nat.le_succ _)
  have hfound : (bisect (compareVal syms s.address) (syms.length + 1) (-1) syms.length 0).2 = true →
      compareVal syms s.address
        (bisect (compareVal syms s.address) (syms.length + 1) (-1) syms.length 0).1.toNat = 0 :=
    bisect_found
  rw [pick, if_neg hpos.ne'] at hright
  dsimp only at hright
  generalize bisect (compareVal syms s.address) (syms.length + 1) (-1) syms.length 0 = r at *
  have hlt : r.1.toNat < syms.length := by omega
  have hcase := compareVal_cases s.address hlt
  refine ⟨r.1.toNat, hlt, hle, ?_⟩
  rw [List.getElem?_eq_getElem hlt] at hright
  dsimp only at hright
  split_ifs at hright with habove hfirst
  · exact absurd (hright s hs) (BitVec.lt_irrefl _)
  · rw [gt_iff_lt, BitVec.lt_def] at habove
    have hnot : r.2 ≠ true := fun htrue => by
      have := hfound htrue
      omega
    exact absurd (hzero (Bool.eq_false_iff.mpr hnot)) hfirst
  · have hge := hleast _ hright.1
    rw [gt_iff_lt, BitVec.lt_def] at habove
    exact BitVec.eq_of_toNat_eq (by omega)

theorem greatest_behind {s : SymNode} (hs : s ∈ syms)
    (hgreatest : ∀ t ∈ syms, t.address.toNat ≤ s.address.toNat)
    (hright : PicksGreatest syms s.address (pick syms s.address)) :
    ∃ (i : ℕ) (hi : i < syms.length), (syms.length - 1) / 2 ≤ i ∧ syms[i].address = s.address := by
  have hpos := List.length_pos_of_mem hs
  have hc : ∀ i < syms.length, 0 ≤ compareVal syms s.address i := by
    intro i hi
    have hcase := (compareVal_cases s.address hi).2.1
    have hle := hgreatest _ (List.getElem_mem hi)
    omega
  obtain ⟨hle, hlt, -⟩ := bisect_back hc hpos (Nat.le_succ _)
  rw [pick, if_neg hpos.ne'] at hright
  dsimp only at hright
  generalize bisect (compareVal syms s.address) (syms.length + 1) (-1) syms.length 0 = r at *
  refine ⟨r.1.toNat, hlt, hle, ?_⟩
  have hbelow := hgreatest _ (List.getElem_mem hlt)
  rw [List.getElem?_eq_getElem hlt] at hright
  dsimp only at hright
  rw [if_neg (by rw [gt_iff_lt, BitVec.lt_def]; omega)] at hright
  have habove := hright.2.2 s hs (BitVec.le_refl _)
  rw [BitVec.le_def] at habove
  exact BitVec.eq_of_toNat_eq (by omega)

/-- The comparison is one by which `qsort` can sort, and the searches for all addresses are right,
exactly if no two addresses are 2 GB or more apart. -/
theorem pick_right_iff (h : SortedBy strings symsSortBv table syms) :
    (Consistent symsSortBv table ∧ ∀ val, PicksGreatest table val (pick syms val)) ↔
      Near table := by
  constructor
  · rintro ⟨hcons, hright⟩ x hx y hy
    by_contra hfar
    have hmem := fun s => h.perm.mem_iff (a := s)
    obtain ⟨lo, hlo, hleast⟩ := syms.toFinset.exists_min_image (fun s => s.address.toNat)
      ⟨x, List.mem_toFinset.mpr ((hmem x).mpr hx)⟩
    obtain ⟨hi, hhi, hgreatest⟩ := syms.toFinset.exists_max_image (fun s => s.address.toNat)
      ⟨x, List.mem_toFinset.mpr ((hmem x).mpr hx)⟩
    simp only [List.mem_toFinset] at hlo hhi hleast hgreatest
    have hle := hleast y ((hmem y).mpr hy)
    have hge := hgreatest x ((hmem x).mpr hx)
    obtain ⟨i, hil, him, hilo⟩ := least_in_front hlo hleast
      ((PicksGreatest.perm h.perm).mpr (hright lo.address))
    obtain ⟨j, hjl, hmj, hjhi⟩ := greatest_behind hhi hgreatest
      ((PicksGreatest.perm h.perm).mpr (hright hi.address))
    have hij : i < j := by
      refine lt_of_le_of_ne (him.trans hmj) fun heq => ?_
      subst heq
      rw [hilo] at hjhi
      rw [hjhi] at hle
      omega
    -- The greatest address is behind the least one, although the comparison puts it in front.
    have hsorted := List.pairwise_iff_getElem.mp (h.pairwise hcons) i j hil hjl hij
    have hopposite := hcons.opposite lo ((hmem lo).mp hlo) hi ((hmem hi).mp hhi)
    rw [(symsSortBv_cases _ _).1, hilo, hjhi] at hsorted
    rw [(symsSortBv_cases _ _).1, (symsSortBv_cases _ _).2] at hopposite
    omega
  · intro hnear
    refine ⟨consistent_of_near hnear, fun val => ?_⟩
    rw [← PicksGreatest.perm h.perm]
    exact pick_ascending (h.ascending hnear) val

theorem strcmp_cases (a b : Name) :
    (0 < strcmp a b ↔ b < a) ∧ (strcmp a b < 0 ↔ a < b) ∧ (strcmp a b = 0 ↔ a = b) := by
  unfold strcmp
  split_ifs with hlt hgt
  · refine ⟨iff_of_false (by decide) (List.lt_asymm hlt), iff_of_true (by decide) hlt,
      iff_of_false (by decide) ?_⟩
    rintro rfl
    exact List.lt_irrefl a hlt
  · refine ⟨iff_of_true (by decide) hgt, iff_of_false (by decide) hlt,
      iff_of_false (by decide) ?_⟩
    rintro rfl
    exact List.lt_irrefl a hgt
  · exact ⟨iff_of_false (by decide) hgt, iff_of_false (by decide) hlt,
      iff_of_true rfl (List.le_antisymm (List.not_lt.mp hgt) (List.not_lt.mp hlt))⟩

theorem take_le_take {a b : Name} (h : a ≤ b) (n : ℕ) : a.take n ≤ b.take n := by
  induction n generalizing a b with
  | zero =>
      rw [List.take_zero]
      exact List.nil_le _
  | succ n ih =>
      cases a with
      | nil =>
          rw [List.take_nil]
          exact List.nil_le _
      | cons x a =>
          cases b with
          | nil => exact absurd h (List.not_le.mpr (List.nil_lt_cons x a))
          | cons y b =>
              rw [List.take_succ_cons, List.take_succ_cons, List.cons_le_cons_iff]
              obtain hlt | ⟨heq, hle⟩ := List.cons_le_cons_iff.mp h
              · exact .inl hlt
              · exact .inr ⟨heq, ih hle⟩

theorem consistent_symsSortBn (table : List SymNode) : Consistent symsSortBn table := by
  have hle : ∀ x y, symsSortBn x y ≤ 0 ↔ x.name ≤ y.name := by
    intro x y
    rw [← List.not_lt, ← (strcmp_cases x.name y.name).1, not_lt]
    rfl
  have hge : ∀ x y, 0 ≤ symsSortBn x y ↔ y.name ≤ x.name := by
    intro x y
    rw [← List.not_lt, ← (strcmp_cases x.name y.name).2.1, not_lt]
    rfl
  constructor
  · intro x _ y _
    rw [hle, hge]
  · intro x _ y _ z _
    rw [hle, hle, hle]
    exact List.le_trans

/-- What of a name is compared. -/
def key (idx : ℕ) (ofs : Bool) (s : SymNode) : Name := (s.name.drop ofs.toNat).take idx

/-- The symbols are in the order of their names, and these begin with an underscore. -/
structure ByName (byname : List SymNode) : Prop where
  ascending : byname.Pairwise fun s t => s.name ≤ t.name
  underscored : ∀ s ∈ byname, s.name.head? = some underscore

variable {byname : List SymNode} {name : Name} {idx : ℕ} {ofs : Bool}

theorem SortedBy.byName (h : SortedBy strings symsSortBn table byname)
    (hunder : ∀ s ∈ table, s.name.head? = some underscore) : ByName byname := by
  refine ⟨(h.pairwise (consistent_symsSortBn table)).imp fun {x y} hle => ?_,
    fun s hs => hunder s (h.perm.mem_iff.mp hs)⟩
  rw [← List.not_lt, ← (strcmp_cases x.name y.name).1, not_lt]
  exact hle

theorem key_le {s t : SymNode} (hs : s.name.head? = some underscore)
    (ht : t.name.head? = some underscore) (hle : s.name ≤ t.name) (idx : ℕ) (ofs : Bool) :
    key idx ofs s ≤ key idx ofs t := by
  cases ofs with
  | false => exact take_le_take hle idx
  | true =>
      obtain ⟨a, ha⟩ := List.head?_eq_some_iff.mp hs
      obtain ⟨b, hb⟩ := List.head?_eq_some_iff.mp ht
      rw [ha, hb, List.cons_le_cons_iff] at hle
      have htail : a ≤ b := (hle.resolve_left (by decide)).2
      rw [key, key, ha, hb]
      exact take_le_take htail idx

theorem ByName.key_le (h : ByName byname) (idx : ℕ) (ofs : Bool) {i j : ℕ} (hij : i ≤ j)
    (hi : i < byname.length) (hj : j < byname.length) :
    key idx ofs byname[i] ≤ key idx ofs byname[j] := by
  obtain hlt | rfl := Nat.lt_or_eq_of_le hij
  · exact Syms.key_le (h.underscored _ (List.getElem_mem hi))
      (h.underscored _ (List.getElem_mem hj))
      (List.pairwise_iff_getElem.mp h.ascending i j hi hj hlt) idx ofs
  · exact List.le_refl _

theorem compareName_cases (h : ByName byname) (name : Name) (idx : ℕ) (ofs : Bool)
    {i : ℕ} (hi : i < byname.length) :
    (0 < compareName byname name idx ofs i ↔ key idx ofs byname[i] < name.take idx) ∧
      (compareName byname name idx ofs i < 0 ↔ name.take idx < key idx ofs byname[i]) ∧
      (compareName byname name idx ofs i = 0 ↔ key idx ofs byname[i] = name.take idx) := by
  have hcompare : compareName byname name idx ofs i =
      strcmp (name.take idx) (key idx ofs byname[i]) := by
    rw [compareName, List.getElem?_eq_getElem hi]
    refine if_pos ?_
    have hhead := h.underscored _ (List.getElem_mem hi)
    rw [List.headD_eq_head?_getD, hhead]
    cases ofs <;> rfl
  rw [hcompare, eq_comm (a := key idx ofs byname[i])]
  exact strcmp_cases _ _

theorem ascends_compareName (h : ByName byname) (name : Name) (idx : ℕ) (ofs : Bool) :
    Ascends (compareName byname name idx ofs) byname.length := by
  constructor
  · intro i j hij hj hpos
    have hle := h.key_le idx ofs hij.le (hij.trans hj) hj
    rw [(compareName_cases h name idx ofs hj).1] at hpos
    rw [(compareName_cases h name idx ofs (hij.trans hj)).1]
    exact List.lt_of_le_of_lt hle hpos
  · intro i j hij hj hneg
    have hle := h.key_le idx ofs hij.le (hij.trans hj) hj
    rw [(compareName_cases h name idx ofs (hij.trans hj)).2.1] at hneg
    rw [(compareName_cases h name idx ofs hj).2.1]
    exact List.not_le.mp fun hge => List.not_le.mpr hneg (List.le_trans hle hge)

/-- The walk ends at an element that compares equal, behind one that does not. -/
theorem walkBack_spec (h : ByName byname) {m : ℕ} (hm : m < byname.length)
    (heq : key idx ofs byname[m] = name.take idx) :
    ∃ (k : ℕ) (hk : k < byname.length), walkBack byname name idx ofs m = k ∧
      key idx ofs byname[k] = name.take idx ∧
      ∀ (i : ℕ) (hi : i < byname.length), i < k → key idx ofs byname[i] ≠ name.take idx := by
  induction m with
  | zero => exact ⟨0, hm, rfl, heq, fun i _ hi => absurd hi (Nat.not_lt_zero i)⟩
  | succ m ih =>
      have hm' : m < byname.length := Nat.lt_of_succ_lt hm
      rw [walkBack, List.getElem?_eq_getElem hm']
      dsimp only
      have hzero : strncmp name (byname[m].name.drop ofs.toNat) idx = 0 ↔
          key idx ofs byname[m] = name.take idx := by
        rw [eq_comm (a := key idx ofs byname[m])]
        exact (strcmp_cases _ _).2.2
      split_ifs with hprev
      · exact ih hm' (hzero.mp hprev)
      · refine ⟨m + 1, hm, rfl, heq, fun i hi him hkey => hprev (hzero.mpr ?_)⟩
        have hle := h.key_le idx ofs (Nat.lt_succ_iff.mp him) hi hm'
        have hge := h.key_le idx ofs (Nat.le_succ m) hm' hm
        rw [hkey] at hle
        rw [heq] at hge
        exact List.le_antisymm hge hle

/-- The first of the symbols that pass a test. -/
def IsFirst (table : List SymNode) (p : SymNode → Prop) (s : SymNode) : Prop :=
  s ∈ table ∧ p s ∧ ∀ t ∈ table, p t → s.name ≤ t.name

theorem lookupSymByname_spec (h : ByName byname) (name : Name) (idx : ℕ) (ofs : Bool) :
    (lookupSymByname byname name idx ofs = none ∧
      ∀ s ∈ byname, key idx ofs s ≠ name.take idx) ∨
    ∃ s, lookupSymByname byname name idx ofs = some s ∧
      IsFirst byname (fun s => key idx ofs s = name.take idx) s := by
  by_cases hnil : byname.length = 0
  · left
    rw [List.length_eq_zero_iff.mp hnil]
    exact ⟨rfl, fun s hs => absurd hs List.not_mem_nil⟩
  · have hsettled := bisect_settles (ascends_compareName h name idx ofs)
      (bounds_start _ (Nat.pos_of_ne_zero hnil)) (n := byname.length + 1) (by omega)
    rw [lookupSymByname]
    generalize bisect (compareName byname name idx ofs) (byname.length + 1) (-1) byname.length 0 = r
      at hsettled ⊢
    obtain ⟨m, hm⟩ : ∃ m : ℕ, (m : ℤ) = r.1 := ⟨r.1.toNat, by have := hsettled.range; omega⟩
    rw [← hm] at hsettled ⊢
    have hlt : m < byname.length := by
      have := hsettled.range
      omega
    have hcase := (compareName_cases h name idx ofs hlt).2.2
    have hsought := hsettled.sought
    rw [Int.toNat_natCast, hcase] at hsought
    rw [Int.toNat_natCast]
    by_cases hfound : r.2 = true
    · right
      obtain ⟨k, hk, hwalk, hkey, hfirst⟩ := walkBack_spec h hlt (hsought.mp hfound)
      refine ⟨byname[k], ?_, List.getElem_mem hk, hkey, fun t ht htkey => ?_⟩
      · rw [if_pos hfound, hwalk, List.getElem?_eq_getElem hk]
      · obtain ⟨j, hj, rfl⟩ := List.mem_iff_getElem.mp ht
        obtain hkj | rfl := Nat.lt_or_eq_of_le (not_lt.mp fun hjk => hfirst j hj hjk htkey)
        · exact List.pairwise_iff_getElem.mp h.ascending k j hk hj hkj
        · exact List.le_refl _
    · left
      refine ⟨if_neg hfound, fun s hs hkey => ?_⟩
      obtain ⟨i, hi, rfl⟩ := List.mem_iff_getElem.mp hs
      have hci := compareName_cases h name idx ofs hi
      have hzero := hci.2.2.mpr hkey
      have hnot := Bool.eq_false_iff.mpr hfound
      obtain hlt' | heq | hgt := lt_trichotomy i m
      · have := hsettled.before hnot i (by omega)
        omega
      · subst heq
        exact hfound (hsought.mpr hkey)
      · have := hsettled.behind hnot i (by omega) hi
        omega

theorem key_prefix (s : SymNode) (name : Name) :
    key name.length false s = name.take name.length ↔ name <+: s.name := by
  rw [List.take_length, List.prefix_iff_eq_take, eq_comm]
  rfl

theorem key_underscored {s : SymNode} (h : s.name.head? = some underscore) (name : Name) :
    key name.length true s = name.take name.length ↔ underscore :: name <+: s.name := by
  obtain ⟨a, ha⟩ := List.head?_eq_some_iff.mp h
  rw [List.take_length, key, ha, List.cons_prefix_cons, and_iff_right rfl, List.prefix_iff_eq_take,
    eq_comm]
  rfl

/-- The symbol that is found begins with the name, or if there is none, with an underscore and
the name, and is the first of these. -/
theorem lookup_spec (h : ByName byname) (name : Name) :
    match lookup byname name name.length with
    | some s => IsFirst byname (fun s => name <+: s.name) s ∨
        (∀ t ∈ byname, ¬ name <+: t.name) ∧
          IsFirst byname (fun s => underscore :: name <+: s.name) s
    | none =>
        (∀ t ∈ byname, ¬ name <+: t.name) ∧ ∀ t ∈ byname, ¬ underscore :: name <+: t.name := by
  have hplain := fun s => key_prefix s name
  rw [lookup]
  obtain ⟨hnone, hno⟩ | ⟨s, hs, hmem, hkey, hfirst⟩ :=
    lookupSymByname_spec h name name.length false
  · simp only [Ne, hplain] at hno
    rw [hnone, Option.none_or]
    obtain ⟨hnone', hno'⟩ | ⟨s, hs, hmem, hkey, hfirst⟩ :=
      lookupSymByname_spec h name name.length true
    · rw [hnone']
      refine ⟨hno, fun t ht => ?_⟩
      rw [← key_underscored (h.underscored t ht)]
      exact hno' t ht
    · rw [hs]
      refine .inr ⟨hno, hmem, (key_underscored (h.underscored s hmem) name).mp hkey,
        fun t ht htkey => hfirst t ht ?_⟩
      exact (key_underscored (h.underscored t ht) name).mpr htkey
  · rw [hs, Option.some_or]
    exact .inl ⟨hmem, (hplain s).mp hkey, fun t ht htkey => hfirst t ht ((hplain t).mpr htkey)⟩

/-- A name that is one addend, and no line of a file. -/
structure Plain (name : Name) : Prop where
  plus : plus ∉ name
  minus : minus ∉ name
  hash : hash ∉ name
  digit : isdigit (name.headD 0) = false

def lookedUp (byname : List SymNode) (name : Name) : Addend :=
  match lookup byname name name.length with
  | some s => .symbol s
  | none =>
      match register name name.length with
      | some reg => .register reg
      | none => .undefined

theorem takeWhile_ne {c : UInt8} {name : Name} (h : c ∉ name) :
    name.takeWhile (fun x => x ≠ c) = name := by
  rw [List.takeWhile_eq_self_iff]
  intro x hx
  rw [decide_eq_true_eq]
  rintro rfl
  exact h hx

theorem firstAddend_plain {t : Tables} {text : Name} (h : Plain (firstWord text))
    (hne : firstWord text ≠ []) :
    firstAddend t text = (lookedUp t.byname (firstWord text), 1, []) := by
  obtain ⟨name, hname⟩ : ∃ name, name = firstWord text := ⟨_, rfl⟩
  rw [← hname] at h hne ⊢
  have hminus : ¬ name.head? = some minus := fun hh => h.minus (List.mem_of_mem_head? hh)
  have hplus : ¬ (name.head? = some minus ∨ name.head? = some plus) := by
    rintro (hh | hh)
    · exact hminus hh
    · exact h.plus (List.mem_of_mem_head? hh)
  have hidx : (name.takeWhile fun c => c ≠ plus ∧ c ≠ minus).length = name.length := by
    rw [List.takeWhile_eq_self_iff.mpr]
    intro x hx
    rw [decide_eq_true_eq]
    constructor
    · rintro rfl
      exact h.plus hx
    · rintro rfl
      exact h.minus hx
  have hdigit : ¬ isdigit (name.headD 0) = true := Bool.eq_false_iff.mp h.digit
  rw [firstAddend, ← hname]
  dsimp only
  rw [if_neg hne, if_neg hplus, if_neg hdigit, if_neg hminus, hidx, takeWhile_ne h.hash,
    if_neg (lt_irrefl _), List.drop_length]
  rfl

/-- A text has a value, with the flag for an undefined symbol, as the name of something. -/
def Means (t : Tables) (text : Name) (a : Addend) (r : BitVec 32 × Bool) : Prop :=
  (firstAddend t text).1 = a ∧ ∀ n ≥ 2, symsName2val t n text = r

theorem means_plain {t : Tables} {text : Name} (h : Plain (firstWord text))
    (hne : firstWord text ≠ []) :
    Means t text (lookedUp t.byname (firstWord text)) (match lookedUp t.byname (firstWord text) with
      | .symbol s => (s.address, false)
      | .register reg => (t.reg reg, false)
      | _ => (0, true)) := by
  refine ⟨congrArg Prod.fst (firstAddend_plain h hne), fun n hn => ?_⟩
  obtain ⟨n, rfl⟩ : ∃ k, n = k + 2 := ⟨n - 2, by omega⟩
  have hend : symsName2val t (n + 1) [] = (0, false) := rfl
  rw [symsName2val, firstAddend_plain h hne]
  dsimp only
  rw [hend, lookedUp]
  cases lookup t.byname (firstWord text) (firstWord text).length with
  | some s => simp
  | none =>
      cases register (firstWord text) (firstWord text).length with
      | some reg => simp
      | none => rfl

structure NameAgrees (table : List SymNode) (t : Tables) (text name : Name) : Prop where
  exact : (∃ s ∈ table, s.name = name) →
    ∃ s ∈ table, s.name = name ∧ Means t text (.symbol s) (s.address, false)
  underscored : (¬ ∃ s ∈ table, s.name = name) → (∃ s ∈ table, s.name = underscore :: name) →
    ∃ s ∈ table, s.name = underscore :: name ∧ Means t text (.symbol s) (s.address, false)
  undefined : (¬ ∃ s ∈ table, s.name = name) → (¬ ∃ s ∈ table, s.name = underscore :: name) →
    Means t text .undefined (0, true) ∨
      ∃ reg ∈ regs, Means t text (.register reg) (t.reg reg, false)

/-- There is a symbol of the name, or no symbol begins with it. In the second case there is one
of the name with an underscore, or no symbol begins with that. There may also be one of the name
with an underscore that is itself the first one that begins with the name. -/
def NameFits (table : List SymNode) (name : Name) : Prop :=
  name ≠ [] ∧ ((∃ s ∈ table, s.name = name) ∨
    (∀ s ∈ table, ¬ name <+: s.name) ∧ ((∃ s ∈ table, s.name = underscore :: name) ∨
      ∀ s ∈ table, ¬ underscore :: name <+: s.name) ∨
    ∃ s, IsFirst table (fun s => name <+: s.name) s ∧ s.name = underscore :: name)

/-- Of the symbols that begin with a name, one of exactly this name is the first. -/
theorem IsFirst.exact {s t : SymNode} (h : IsFirst table (fun s => name <+: s.name) s)
    (ht : t ∈ table) (hname : t.name = name) : s.name = name := by
  obtain ⟨-, hprefix, hfirst⟩ := h
  have hle := hfirst t ht (hname ▸ List.prefix_rfl)
  rw [hname] at hle
  exact List.le_antisymm hle hprefix.le

theorem means_cases {t : Tables} {text : Name} (hplain : Plain (firstWord text))
    (hne : firstWord text ≠ []) :
    (∃ s, lookup t.byname (firstWord text) (firstWord text).length = some s ∧
      Means t text (.symbol s) (s.address, false)) ∨
    lookup t.byname (firstWord text) (firstWord text).length = none ∧
      (Means t text .undefined (0, true) ∨
        ∃ reg ∈ regs, Means t text (.register reg) (t.reg reg, false)) := by
  have hmeans := means_plain (t := t) hplain hne
  rw [lookedUp] at hmeans
  cases hlook : lookup t.byname (firstWord text) (firstWord text).length with
  | some s =>
      rw [hlook] at hmeans
      exact .inl ⟨s, rfl, hmeans⟩
  | none =>
      rw [hlook] at hmeans
      refine .inr ⟨rfl, ?_⟩
      cases hreg : register (firstWord text) (firstWord text).length with
      | some reg =>
          rw [hreg] at hmeans
          rw [register] at hreg
          exact .inr ⟨reg, List.mem_of_find?_eq_some hreg, hmeans⟩
      | none =>
          rw [hreg] at hmeans
          exact .inl hmeans

theorem Means.inj {t : Tables} {text : Name} {a a' : Addend} {r r' : BitVec 32 × Bool}
    (h : Means t text a r) (h' : Means t text a' r') : a = a' :=
  h.1.symm.trans h'.1

theorem not_agrees_nil {t : Tables} {text : Name} (hnil : firstWord text = []) (name : Name) :
    ¬ NameAgrees table t text name := by
  intro hagrees
  have hnone : (firstAddend t text).1 = .none := by
    rw [firstAddend]
    dsimp only
    rw [if_pos hnil]
  by_cases hexact : ∃ s ∈ table, s.name = name
  · obtain ⟨s, -, -, hmeans⟩ := hagrees.exact hexact
    exact Addend.noConfusion (hnone.symm.trans hmeans.1)
  by_cases hunder : ∃ s ∈ table, s.name = underscore :: name
  · obtain ⟨s, -, -, hmeans⟩ := hagrees.underscored hexact hunder
    exact Addend.noConfusion (hnone.symm.trans hmeans.1)
  obtain hmeans | ⟨reg, -, hmeans⟩ := hagrees.undefined hexact hunder
  · exact Addend.noConfusion (hnone.symm.trans hmeans.1)
  · exact Addend.noConfusion (hnone.symm.trans hmeans.1)

theorem nameAgrees_iff {t : Tables} (text : Name) (h : SortedBy strings symsSortBn table t.byname)
    (hunder : ∀ s ∈ table, s.name.head? = some underscore) (hplain : Plain (firstWord text)) :
    NameAgrees table t text (firstWord text) ↔ NameFits table (firstWord text) := by
  have hmem := fun s => h.perm.mem_iff (a := s)
  have hfirst : ∀ p s, IsFirst t.byname p s ↔ IsFirst table p s := by
    intro p s
    simp only [IsFirst, hmem]
  have hspec := lookup_spec (h.byName hunder) (firstWord text)
  simp only [hfirst, hmem] at hspec
  by_cases hne : firstWord text = []
  · exact iff_of_false (not_agrees_nil hne _) fun hfits => hfits.1 hne
  have hmeans := means_cases (t := t) hplain hne
  generalize firstWord text = name at *
  constructor
  · intro hagrees
    refine ⟨hne, ?_⟩
    by_cases hexact : ∃ s ∈ table, s.name = name
    · exact .inl hexact
    right
    by_cases hund : ∃ s ∈ table, s.name = underscore :: name
    · obtain ⟨s, hs, hsname, hsmeans⟩ := hagrees.underscored hexact hund
      obtain ⟨s', hlook, hsmeans'⟩ | ⟨-, hother⟩ := hmeans
      · obtain rfl := Addend.symbol.inj (hsmeans.inj hsmeans')
        rw [hlook] at hspec
        obtain hprefix | ⟨hno, -⟩ := hspec
        · exact .inr ⟨s, hprefix, hsname⟩
        · exact .inl ⟨hno, .inl hund⟩
      · obtain hundef | ⟨reg, -, hreg⟩ := hother
        · exact Addend.noConfusion (hsmeans.inj hundef)
        · exact Addend.noConfusion (hsmeans.inj hreg)
    · obtain ⟨s, hlook, hsmeans⟩ | ⟨hlook, -⟩ := hmeans
      · obtain hundef | ⟨reg, -, hreg⟩ := hagrees.undefined hexact hund
        · exact Addend.noConfusion (hsmeans.inj hundef)
        · exact Addend.noConfusion (hsmeans.inj hreg)
      · rw [hlook] at hspec
        exact .inl ⟨hspec.1, .inr hspec.2⟩
  · rintro ⟨-, hfits⟩
    refine ⟨?_, fun hexact => ?_, fun hexact hund => ?_⟩
    · rintro ⟨s₀, hs₀, hname⟩
      have hbegins : name <+: s₀.name := hname ▸ List.prefix_rfl
      obtain ⟨s, hlook, hsmeans⟩ | ⟨hlook, -⟩ := hmeans <;> rw [hlook] at hspec
      · obtain hprefix | ⟨hno, -⟩ := hspec
        · exact ⟨s, hprefix.1, hprefix.exact hs₀ hname, hsmeans⟩
        · exact absurd hbegins (hno s₀ hs₀)
      · exact absurd hbegins (hspec.1 s₀ hs₀)
    · rintro ⟨s₀, hs₀, hname⟩
      obtain ⟨s, hlook, hsmeans⟩ | ⟨hlook, -⟩ := hmeans <;> rw [hlook] at hspec
      · obtain hprefix | ⟨-, hprefix⟩ := hspec
        · obtain hyes | ⟨hno, -⟩ | ⟨s₁, hfirst₁, hname₁⟩ := hfits
          · exact absurd hyes hexact
          · exact absurd hprefix.2.1 (hno s hprefix.1)
          · refine ⟨s, hprefix.1, ?_, hsmeans⟩
            rw [← hname₁]
            exact List.le_antisymm ( hprefix.2.2 s₁ hfirst₁.1 hfirst₁.2.1)
              (hfirst₁.2.2 s hprefix.1 hprefix.2.1)
        · exact ⟨s, hprefix.1, hprefix.exact hs₀ hname, hsmeans⟩
      · exact absurd (hname ▸ List.prefix_rfl) (hspec.2 s₀ hs₀)
    · obtain ⟨s, hlook, -⟩ | ⟨-, hother⟩ := hmeans
      · rw [hlook] at hspec
        obtain hyes | ⟨hno, hnext⟩ | ⟨s₁, hfirst₁, hname₁⟩ := hfits
        · exact absurd hyes hexact
        · obtain hprefix | ⟨-, hprefix⟩ := hspec
          · exact absurd hprefix.2.1 (hno s hprefix.1)
          · exact absurd hprefix.2.1 (hnext.resolve_left hund s hprefix.1)
        · exact absurd ⟨s₁, hfirst₁.1, hname₁⟩ hund
      · exact hother

/-- What is to be printed for an address: a name and a distance, or the value itself. -/
inductive AddressAgrees (table : List SymNode) (val : BitVec 32) : Val2name → Prop
  | symbol (s : SymNode) (h : PicksGreatest table val (some s)) (hname : s.name ∉ endNames) :
      AddressAgrees table val (.symbol s.name (val - s.address))
  | ending (s : SymNode) (h : PicksGreatest table val (some s)) (hname : s.name ∈ endNames) :
      AddressAgrees table val (.noname val)
  | none (h : PicksGreatest table val none) : AddressAgrees table val (.noname val)

theorem symsVal2name_agrees (h : PicksGreatest table val (pick syms val)) :
    AddressAgrees table val (symsVal2name syms val) := by
  rw [symsVal2name]
  cases hpick : pick syms val with
  | none =>
      rw [hpick] at h
      exact .none h
  | some s =>
      rw [hpick] at h
      dsimp only
      split_ifs with hname
      · exact .ending s h hname
      · exact .symbol s h hname

/-- The searches in a table that `syms_init` has sorted agree with searches through all of it: for
all addresses, exactly if the comparison is one to sort by and no two addresses are 2 GB or more
apart; for a name, exactly if the first symbol that begins with it is the right one. -/
theorem searches_agree_iff {t : Tables} (hval : SortedBy strings symsSortBv table syms)
    (hname : SortedBy strings symsSortBn table t.byname)
    (hunder : ∀ s ∈ table, s.name.head? = some underscore) :
    ((Consistent symsSortBv table ∧ ∀ val, PicksGreatest table val (pick syms val) ∧
        AddressAgrees table val (symsVal2name syms val)) ↔ Near table) ∧
    ∀ text, Plain (firstWord text) →
      (NameAgrees table t text (firstWord text) ↔ NameFits table (firstWord text)) := by
  refine ⟨?_, fun text hplain => nameAgrees_iff text hname hunder hplain⟩
  rw [← pick_right_iff hval]
  constructor
  · rintro ⟨hcons, hright⟩
    exact ⟨hcons, fun val => (hright val).1⟩
  · rintro ⟨hcons, hright⟩
    exact ⟨hcons, fun val => ⟨hright val, symsVal2name_agrees (hright val)⟩⟩

def foobar : Name := [0x5F, 0x66, 0x6F, 0x6F, 0x62, 0x61, 0x72]

def main : Name := [0x5F, 0x6D, 0x61, 0x69, 0x6E]

def twoStrings (p : ℕ) : Name := if p = 0 then foobar else main

/-- Two nodes at address 16. -/
def twoCall (cmp : SymNode → SymNode → ℤ) : Qsort.Call where
  myBase := 16
  num := 2
  dataWidth := 12
  compare _ x y := cmp (.read twoStrings x) (.read twoStrings y)
  end_lt := by decide
  width_lt := by decide
  num_lt := by decide

def twoState (high : UInt8) : Qsort.State where
  mem := ByteMemory.putAll (fun _ => 0) 16
    [0, 0, 0, 0, 0, 0, 0, 0, 0x54, 0, 0, 0, 1, 0, 0, 0, 0, 0, 0, high, 0x54, 0, 0, 0]
  calls := 0

theorem sortedBy_exists (cmp : SymNode → SymNode → ℤ) (high : UInt8) (table : List SymNode)
    (h : table = ((twoCall cmp).contents (twoState high)).map (SymNode.read twoStrings)) :
    ∃ sorted, SortedBy twoStrings cmp table sorted := by
  have hfuel : (twoCall cmp).num < 3 := Nat.lt_succ_self 2
  obtain ⟨s', hrun, -⟩ := (twoCall cmp).qsort_rearranges 3 hfuel (twoState high)
  exact ⟨_, twoCall cmp, twoState high, s', 3, fun _ _ _ => rfl, hfuel, hrun, h, rfl⟩

def nearTable : List SymNode := [⟨foobar, 0⟩, ⟨main, 0x10000000⟩]

def farTable : List SymNode := [⟨foobar, 0⟩, ⟨main, 0x90000000⟩]

theorem searches_agree_near : ∃ (syms : List SymNode) (t : Tables),
    (∀ val, AddressAgrees nearTable val (symsVal2name syms val)) ∧
      NameAgrees nearTable t main main := by
  obtain ⟨syms, hval⟩ := sortedBy_exists symsSortBv 0x10 nearTable rfl
  obtain ⟨byname, hname⟩ := sortedBy_exists symsSortBn 0x10 nearTable rfl
  have hagree := searches_agree_iff (t := ⟨byname, [], fun _ => 0, fun _ => 0⟩) hval hname
    (by decide)
  have hmain : firstWord main = main := by decide
  have hnames := hagree.2 main
  rw [hmain] at hnames
  refine ⟨syms, _, fun val => ((hagree.1.mpr ?_).2 val).2,
    (hnames ⟨by decide, by decide, by decide, by decide⟩).mpr ⟨by decide, .inl (by decide)⟩⟩
  unfold Near
  decide

theorem consistent_far : Consistent symsSortBv farTable := ⟨by decide, by decide⟩

/-- `_foo` -/
def foo : Name := [0x5F, 0x66, 0x6F, 0x6F]

/-- The symbol at 0 is not found for the address 5, and `_foobar` is found for `_foo`. -/
theorem searches_disagree_far : ∃ (syms : List SymNode) (t : Tables),
    SortedBy twoStrings symsSortBv farTable syms ∧
    SortedBy twoStrings symsSortBn farTable t.byname ∧
    ¬ AddressAgrees farTable 5 (symsVal2name syms 5) ∧ ¬ NameAgrees farTable t foo foo := by
  obtain ⟨syms, hval⟩ := sortedBy_exists symsSortBv 0x90 farTable rfl
  obtain ⟨byname, hname⟩ := sortedBy_exists symsSortBn 0x90 farTable rfl
  refine ⟨syms, ⟨byname, [], fun _ => 0, fun _ => 0⟩, hval, hname, ?_, ?_⟩
  · have hsorted := hval.pairwise consistent_far
    have hperm := List.mem_permutations'.mpr hval.perm
    have hboth : farTable.permutations' = [farTable, farTable.reverse] := by decide
    have hnone : symsVal2name farTable.reverse 5 = .noname 5 := by decide
    have hnames : ∀ s ∈ farTable, s.name ∉ endNames := by decide
    rw [hboth, List.mem_cons, List.mem_singleton] at hperm
    obtain rfl | rfl := hperm
    · exact absurd hsorted (by decide)
    · rw [hnone]
      intro hagrees
      cases hagrees with
      | ending s h hname => exact hnames s h.1 hname
      | none h => exact absurd (h ⟨foobar, 0⟩ (by decide)) (by decide)
  · have hfoo : firstWord foo = foo := by decide
    have hiff := nameAgrees_iff (t := ⟨byname, [], fun _ => 0, fun _ => 0⟩) foo hname
      (by decide) ⟨by decide, by decide, by decide, by decide⟩
    rw [hfoo] at hiff
    rw [hiff]
    rintro ⟨-, hexact | ⟨hno, -⟩ | ⟨s, hfirst, hs⟩⟩
    · exact absurd hexact (by decide)
    · exact absurd hno (by decide)
    · have hall : ∀ s ∈ farTable, s.name ≠ underscore :: foo := by decide
      exact hall s hfirst.1 hs

end DjgppLibc.Syms
