import DjgppLibc.ByteMemory
import DjgppLibc.Rearrangements
import DjgppLibc.TotalCorrectness

/-!
# The sort of `qsort.c`

The sort runs over byte memory. Every comparison and every exchange first checks that both of its
addresses are those of elements of the array, and fails when one is not; a loop that would go on
for longer than its array allows fails as well. The comparison function gets the number of the
calls made before it, so its answers may change from call to call.

Addresses are 32 bits wide, and so are the sums of two indices.
-/
namespace DjgppLibc.Qsort
open ByteMemory Rearrangements TotalCorrectness

abbrev ulongSize : ℕ := 4294967296

def qmin : ℕ := 9

/-- A call of the sort: its static variables, and the array they describe. The array and its end
lie in the address space, and it has fewer than 2 GB elements. -/
structure Call where
  myBase : ℕ
  num : ℕ
  dataWidth : ℕ
  compare : ℕ → List UInt8 → List UInt8 → ℤ
  end_lt : myBase + num * dataWidth < ulongSize
  width_lt : dataWidth < ulongSize
  num_lt : num < 2147483648

structure State where
  mem : Mem
  /-- How often the comparison function has been called. -/
  calls : ℕ

abbrev Sorting := StateT State Option

namespace Call

def base (q : Call) (i : ℕ) : ℕ :=
  (q.myBase + (i + ulongSize - 1) % ulongSize * q.dataWidth) % ulongSize

def inc (q : Call) (a : ℕ) : ℕ := (a + q.dataWidth) % ulongSize

def dec (q : Call) (a : ℕ) : ℕ := (a + ulongSize - q.dataWidth) % ulongSize

/-- The address is that of one of the elements `1..num`. -/
def IsElement (q : Call) (a : ℕ) : Prop := ∃ i, i < q.num ∧ a = q.base (i + 1)

instance (q : Call) (a : ℕ) : Decidable (q.IsElement a) :=
  inferInstanceAs (Decidable (∃ i, i < q.num ∧ a = q.base (i + 1)))

def cmpr (q : Call) (a b : ℕ) : Sorting ℤ := fun s =>
  if q.IsElement a ∧ q.IsElement b then
    some (q.compare s.calls (bytes s.mem a q.dataWidth) (bytes s.mem b q.dataWidth),
      { s with calls := s.calls + 1 })
  else none

end Call

/-- Take `n` bytes of the first element aside, copy those of the second over them, and put the
first ones in their place. -/
def transfer (m : Mem) (elem1 elem2 n : ℕ) : Mem :=
  putAll (putAll m elem1 (bytes m elem2 n)) elem2 (bytes m elem1 n)

/-- The default case of `Swap`: as much as fits into `TempBuf` on each pass. -/
def transferLoop : ℕ → Mem → ℕ → ℕ → ℕ → Mem
  | 0, m, _, _, _ => m
  | fuel + 1, m, elem1, elem2, xferSize =>
      if 0 < xferSize then
        let copySize := if xferSize < 256 then xferSize else 256
        transferLoop fuel (transfer m elem1 elem2 copySize) (elem1 + copySize)
          (elem2 + copySize) (xferSize - copySize)
      else m

/-- A `char`, a `short` and a `long` are moved at once. -/
def exchanged (dataWidth : ℕ) (m : Mem) (elem1 elem2 : ℕ) : Mem :=
  match dataWidth with
  | 1 => transfer m elem1 elem2 1
  | 2 => transfer m elem1 elem2 2
  | 4 => transfer m elem1 elem2 4
  | n => transferLoop n m elem1 elem2 n

namespace Call

def swap (q : Call) (a b : ℕ) : Sorting Unit := fun s =>
  if q.IsElement a ∧ q.IsElement b then
    some ((), { s with mem := exchanged q.dataWidth s.mem a b })
  else none

/-! ### `InsertionSort` -/

/-- The inner loop: the element `nextIdx` goes down until one before it is not greater. -/
def sinkLoop (q : Call) : ℕ → ℕ → Sorting Unit
  | 0, _ => pure ()
  | 1, _ => pure ()
  | nextIdx + 2, nextAdr => do
      let prevAdr := q.dec nextAdr
      let c ← q.cmpr prevAdr nextAdr
      if 0 ≥ c then pure ()
      else do
        q.swap prevAdr nextAdr
        sinkLoop q (nextIdx + 1) prevAdr

def insertionLoop (q : Call) (last : ℕ) : ℕ → ℕ → ℕ → Sorting Unit
  | 0, _, _ => fun _ => none
  | fuel + 1, startIdx, startAdr =>
      if startIdx ≤ last then do
        sinkLoop q startIdx startAdr
        insertionLoop q last fuel (startIdx + 1) (q.inc startAdr)
      else pure ()

def insertionSort (q : Call) (first last : ℕ) : Sorting Unit :=
  insertionLoop q last (last + 1) (first + 1) (q.base (first + 1))

/-! ### `Partition3` -/

/-- `GET_PIVOT_ADDR`, the median of three elements. -/
def getPivotAddr (q : Call) (first mid last : ℕ) : Sorting ℕ := do
  let c ← q.cmpr mid first
  if c > 0 then do
    let c ← q.cmpr first last
    if c ≥ 0 then return first
    else do
      let c ← q.cmpr last mid
      if c ≥ 0 then return mid else return last
  else do
    let c ← q.cmpr last first
    if c > 0 then return first
    else do
      let c ← q.cmpr mid last
      if c > 0 then return mid else return last

/-- The selection variables of `Partition3`. -/
structure Selection where
  left : ℕ
  leftAddr : ℕ
  right : ℕ
  rightAddr : ℕ
  hiFatPvt : Bool
  hiFatPvtAddr : ℕ
  cmprLeft : ℤ
  fatPvtCtr : ℕ

/-- An item above the pivot is at `rightAddr`: if there is a fat pivot, move its top element. -/
def moveFatPivot (q : Call) (v : Selection) : Sorting Selection :=
  if v.hiFatPvt then do
    q.swap v.hiFatPvtAddr v.rightAddr
    return { v with hiFatPvtAddr := q.dec v.hiFatPvtAddr }
  else return v

/-- An item equal to the pivot is at `rightAddr`. -/
def bumpFatPivot (v : Selection) : Selection :=
  { v with
    fatPvtCtr := v.fatPvtCtr + 1
    hiFatPvt := true
    hiFatPvtAddr := if v.hiFatPvt then v.hiFatPvtAddr else v.rightAddr }

def searchLeft (q : Call) (pivotAddr : ℕ) : ℕ → Selection → Sorting Selection
  | 0, _ => fun _ => none
  | fuel + 1, v =>
      if v.left ≤ v.right then do
        let cmprLeft ← q.cmpr v.leftAddr pivotAddr
        if 0 ≤ cmprLeft then return { v with cmprLeft := cmprLeft }
        else
          searchLeft q pivotAddr fuel
            { v with cmprLeft := cmprLeft, left := v.left + 1, leftAddr := q.inc v.leftAddr }
      else return v

def decRight (q : Call) (v : Selection) : Selection :=
  { v with right := v.right - 1, rightAddr := q.dec v.rightAddr }

def searchRight (q : Call) (pivotAddr : ℕ) : ℕ → Selection → Sorting Selection
  | 0, _ => fun _ => none
  | fuel + 1, v =>
      if v.right ≥ v.left then do
        let cmprRight ← q.cmpr v.rightAddr pivotAddr
        if 0 > cmprRight then return v
        else if 0 < cmprRight then do
          let v ← q.moveFatPivot v
          searchRight q pivotAddr fuel (q.decRight v)
        else searchRight q pivotAddr fuel (q.decRight (bumpFatPivot v))
      else return v

/-- The two selected items have changed places, and the one now at `rightAddr` is not below the
pivot. -/
def settleRight (q : Call) (v : Selection) : Sorting Selection :=
  if 0 < v.cmprLeft then q.moveFatPivot v else return bumpFatPivot v

def partitionLoop (q : Call) (pivotAddr : ℕ) : ℕ → Selection → Sorting Selection
  | 0, _ => fun _ => none
  | fuel + 1, v =>
      if v.left ≤ v.right then do
        let v ← searchLeft q pivotAddr (v.right + 1) v
        let v ← searchRight q pivotAddr (v.right + 1) v
        if v.left < v.right then do
          q.swap v.leftAddr v.rightAddr
          let v ← q.settleRight v
          partitionLoop q pivotAddr fuel
            (q.decRight { v with left := v.left + 1, leftAddr := q.inc v.leftAddr })
        else return v
      else return v

def swapApart (q : Call) (a b : ℕ) : Sorting Unit := if a ≠ b then q.swap a b else pure ()

def partition3 (q : Call) (first last : ℕ) : Sorting (ℕ × ℕ) := do
  let mid := (first + last + 1) % ulongSize / 2
  let leftAddr := q.base ((first + mid) % ulongSize / 2)
  let rightAddr := q.base ((mid + last) % ulongSize / 2)
  let firstAddr := q.base first
  let pivotAddr ← q.getPivotAddr leftAddr (q.base mid) rightAddr
  q.swapApart firstAddr pivotAddr
  let v ← q.partitionLoop firstAddr (last + 1)
    { left := first + 1, leftAddr := q.base (first + 1), right := last,
      rightAddr := q.base last, hiFatPvt := false, hiFatPvtAddr := 0, cmprLeft := 0,
      fatPvtCtr := 1 }
  q.swapApart firstAddr v.rightAddr
  return (v.right, v.right + (v.fatPvtCtr - 1))

/-! ### `QuickSort` -/

def quickSort (q : Call) : ℕ → ℕ → ℕ → Sorting Unit
  | 0, _, _ => fun _ => none
  | fuel + 1, first, last =>
      if first < last then
        if last - first < qmin then q.insertionSort first last
        else do
          let (leftPivot, rightPivot) ← q.partition3 first last
          -- The smaller partition is sorted first.
          if leftPivot - first < last - rightPivot then do
            quickSort q fuel first (leftPivot - 1)
            quickSort q fuel (rightPivot + 1) last
          else do
            quickSort q fuel (rightPivot + 1) last
            quickSort q fuel first (leftPivot - 1)
      else pure ()

def qsort (q : Call) (fuel : ℕ) : Sorting Unit := q.quickSort fuel 1 q.num

end Call

end DjgppLibc.Qsort
