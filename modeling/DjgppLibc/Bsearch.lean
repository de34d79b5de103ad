import DjgppLibc.BinarySearches
import DjgppLibc.QsortSorting

/-!
# Searching a sorted array (`bsearch.c`)

`bsearch` keeps the address of the first element that is left and the number of those. With a
comparison function that is a total preorder on the key and the elements, it finds in an array
that `qsort` has sorted what was in the array before.
-/
namespace DjgppLibc.Qsort

open BinarySearches ByteMemory

/-- The loop with `lim`; the first argument is at least that. `compare` is called with the key. -/
def bsearchLoop (compare : List UInt8 → ℤ) (mem : Mem) (size : ℕ) : ℕ → ℕ → ℕ → Option ℕ
  | 0, _, _ => none
  | fuel + 1, base, lim =>
      if lim = 0 then none
      else
        let p := base + lim / 2 * size
        let cmpval := compare (bytes mem p size)
        if cmpval = 0 then some p
        else if cmpval > 0 then bsearchLoop compare mem size fuel (p + size) ((lim - 1) / 2)
        else bsearchLoop compare mem size fuel base (lim / 2)

/-- `bsearch`: the address of an element, or NULL. -/
def bsearch (cmp : List UInt8 → List UInt8 → ℤ) (key : List UInt8) (mem : Mem)
    (base nelem size : ℕ) : Option ℕ :=
  bsearchLoop (cmp key) mem size nelem base nelem

theorem bsearchLoop_eq (compare : List UInt8 → ℤ) (mem : Mem) (size base fuel lo lim : ℕ) :
    bsearchLoop compare mem size fuel (base + lo * size) lim =
      (narrow (fun i => compare (bytes mem (base + i * size) size)) fuel lo lim).map
        fun i => base + i * size := by
  induction fuel generalizing lo lim with
  | zero => rfl
  | succ fuel ih =>
      have hmid : base + lo * size + lim / 2 * size = base + (lo + lim / 2) * size := by
        rw [Nat.add_mul, Nat.add_assoc]
      have hnext : base + (lo + lim / 2) * size + size = base + (lo + lim / 2 + 1) * size := by
        rw [Nat.succ_mul, Nat.add_assoc]
      rw [bsearchLoop, narrow]
      dsimp only
      rw [hmid, hnext]
      split_ifs
      · rfl
      · rfl
      · exact ih _ _
      · exact ih _ _

variable {q : Call} {s : State} {cmp : List UInt8 → List UInt8 → ℤ} {key : List UInt8}

theorem Orders.mono {xs ys : List (List UInt8)} (h : Orders cmp xs) (hsub : ∀ x ∈ ys, x ∈ xs) :
    Orders cmp ys where
  opposite x hx y hy := h.opposite x (hsub x hx) y (hsub y hy)
  trans x hx y hy z hz := h.trans x (hsub x hx) y (hsub y hy) z (hsub z hz)

namespace Call

theorem contents_getElem {i : ℕ} (hi : i < q.num) : (q.contents s)[i]? =
    some (bytes s.mem (q.myBase + i * q.dataWidth) q.dataWidth) := by
  rw [contents, List.getElem?_map, List.getElem?_range' hi, Option.map_some,
    q.base_eq (by omega) (by omega), show 1 + 1 * i - 1 = i by omega]

/-- The answers for the key, in a sorted array. -/
theorem ascends_contents (h : Orders cmp (key :: q.contents s))
    (hsorted : (q.contents s).Pairwise fun x y => cmp x y ≤ 0) :
    Ascends (fun i => cmp key (bytes s.mem (q.myBase + i * q.dataWidth) q.dataWidth)) q.num := by
  have hmem {i : ℕ} (hi : i < q.num) :
      bytes s.mem (q.myBase + i * q.dataWidth) q.dataWidth ∈ q.contents s :=
    List.mem_of_getElem? (contents_getElem hi)
  have hkey : key ∈ key :: q.contents s := List.mem_cons_self
  have hle {i j : ℕ} (hij : i < j) (hj : j < q.num) :
      cmp (bytes s.mem (q.myBase + i * q.dataWidth) q.dataWidth)
        (bytes s.mem (q.myBase + j * q.dataWidth) q.dataWidth) ≤ 0 := by
    obtain ⟨hi', hx⟩ := List.getElem?_eq_some_iff.mp (contents_getElem (s := s) (hij.trans hj))
    obtain ⟨hj', hy⟩ := List.getElem?_eq_some_iff.mp (contents_getElem (s := s) hj)
    rw [← hx, ← hy]
    exact List.pairwise_iff_getElem.mp hsorted i j hi' hj' hij
  refine ⟨fun i j hij hj hpos => ?_, fun i j hij hj hneg => ?_⟩
  all_goals
    have hx := List.mem_cons_of_mem key (hmem (hij.trans hj))
    have hy := List.mem_cons_of_mem key (hmem hj)
    have hle := hle hij hj
  · have htrans := h.trans _ hkey _ hx _ hy
    omega
  · have htrans := h.trans _ hx _ hy _ hkey
    have hfirst := h.opposite _ hx _ hkey
    have hsecond := h.opposite _ hy _ hkey
    omega

/-- What `bsearch` finds behind `qsort` is an element of the array that is equal to the key. It
finds none exactly if there was none before. -/
theorem qsort_bsearch (q : Call) (s : State) (cmp : List UInt8 → List UInt8 → ℤ)
    (key : List UInt8) (hq : ∀ n, q.compare n = cmp) (h : Orders cmp (key :: q.contents s))
    {fuel : ℕ} (hfuel : q.num < fuel) :
    ∃ s', q.qsort fuel s = some ((), s') ∧
      (∀ p, bsearch cmp key s'.mem q.myBase q.num q.dataWidth = some p →
        ∃ i, 1 ≤ i ∧ i ≤ q.num ∧ p = q.base i ∧ cmp key (q.elements s' i) = 0) ∧
      (bsearch cmp key s'.mem q.myBase q.num q.dataWidth = none ↔
        ∀ x ∈ q.contents s, cmp key x ≠ 0) := by
  obtain ⟨s', hrun, hperm, hsorted⟩ :=
    qsort_ordered hq (h.mono fun x hx => List.mem_cons_of_mem key hx) hfuel
  have hascends := ascends_contents (h.mono (hperm.cons key).subset) hsorted
  have heq := bsearchLoop_eq (cmp key) s'.mem q.dataWidth q.myBase q.num 0 q.num
  rw [Nat.zero_mul, Nat.add_zero] at heq
  refine ⟨s', hrun, fun p hp => ?_, fun hnone x hx => ?_, fun hall => ?_⟩
  · rw [bsearch, heq] at hp
    obtain ⟨i, hi, rfl⟩ := Option.map_eq_some_iff.mp hp
    obtain ⟨-, hlt, hzero⟩ := narrow_some hi
    have hbase := q.base_eq (i := i + 1) (by omega) (by omega)
    refine ⟨i + 1, by omega, by omega, hbase.symm, ?_⟩
    rw [q.elements_eq s' (by omega) (by omega), hbase]
    exact hzero
  · rw [bsearch, heq, Option.map_eq_none_iff] at hnone
    obtain ⟨i, hi⟩ := List.mem_iff_getElem?.mp (hperm.mem_iff.mpr hx)
    have hlt : i < q.num := by
      have := (List.getElem?_eq_some_iff.mp hi).1
      rwa [contents, List.length_map, List.length_range'] at this
    obtain rfl := Option.some.inj ((contents_getElem hlt).symm.trans hi)
    exact narrow_none hascends (by omega) le_rfl hnone (Nat.zero_le i) (by omega)
  · rw [bsearch, heq, Option.map_eq_none_iff, Option.eq_none_iff_forall_ne_some]
    intro i hi
    obtain ⟨-, hlt, hzero⟩ := narrow_some hi
    have hmem := List.mem_of_getElem? (contents_getElem (s := s') (by omega : i < q.num))
    exact hall _ (hperm.mem_iff.mp hmem) hzero

theorem qsort_bsearch_threeBytes :
    ∃ s', threeBytes.qsort 4 threeState = some ((), s') ∧
      (∀ p, bsearch (fun x y => ((x.headD 0).toNat : ℤ) - (y.headD 0).toNat) [2] s'.mem 16 3 1 =
        some p → ∃ i, 1 ≤ i ∧ i ≤ 3 ∧ p = threeBytes.base i ∧
          ((2 : ℕ) : ℤ) - ((threeBytes.elements s' i).headD 0).toNat = 0) ∧
      (bsearch (fun x y => ((x.headD 0).toNat : ℤ) - (y.headD 0).toNat) [2] s'.mem 16 3 1 = none ↔
        ∀ x ∈ threeBytes.contents threeState, ((2 : ℕ) : ℤ) - (x.headD 0).toNat ≠ 0) :=
  qsort_bsearch threeBytes threeState (fun x y => ((x.headD 0).toNat : ℤ) - (y.headD 0).toNat) [2]
    (fun _ => rfl) ⟨fun x _ y _ => by omega, fun x _ y _ z _ => by omega⟩ (by decide)

end Call

end DjgppLibc.Qsort
