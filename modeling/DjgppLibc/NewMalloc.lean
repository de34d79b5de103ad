import DjgppLibc.ByteMemory

/-!
# The allocator of nmalloc.c and nmalign.c

Headers live in the same byte memory as the user's data. With SAVEMEMORY the
field `prevfree` lies at offset 16, which is the first data word of an
assigned block, so a header write can reach past a block that is too short.
All unsigned arithmetic is modulo 2^32, as `ulong` is.

A routine returns `.error` exactly where the source calls `exit` after
`badcallabort`; the heap carried by the error is the one at that point. The
trace is a ghost: it records, for each header or data store, the block it was
made for and the number of bytes that block owns, the sizes handed to
`__nmalloc_split`, every block put on a free list, the computed indices into
`freehdrs`, and each reached diagnostic. No routine reads it. The hooks of the
debugging package are initialised to NULL and are left out.
-/
namespace DjgppLibc.NewMalloc
open ByteMemory

/-- The address of the static array `freehdrs`, fixed by the linker. -/
class Image where
  freehdrs : ℕ
  freehdrs_pos : 0 < freehdrs
  freehdrs_fits : freehdrs + 128 < 4294967296

theorem sampleStart_pos : 0 < 4096 := by decide

theorem sampleStart_fits : 4096 + 128 < 4294967296 := by decide

/-- `(memblockp)&freehdrs[1]`, the NULL of the free lists. -/
def NONE [Image] : ℕ := Image.freehdrs + 4

theorem NONE_ne_zero [Image] : NONE ≠ 0 := by
  unfold NONE
  omega

theorem NONE_lt [Image] : NONE < 4294967296 := by
  have h := Image.freehdrs_fits
  unfold NONE
  omega

def dataOffset : ℕ := 16
def alignMask : ℕ := 7
def minSave : ℕ := 24
def minSbrk : ℕ := 1024
def nfLists : ℕ := 32
def maxSbrks : ℕ := 100
def intMax : ℕ := 2147483647

def u32 (n : ℕ) : ℕ := n % 4294967296

def sub32 (a b : ℕ) : ℕ := (a + 4294967296 - b) % 4294967296

/-- The five fields of `memblock`. -/
inductive Field where
  | prev | next | sz | nextfree | prevfree
  deriving DecidableEq, Repr

def Field.offset : Field → ℕ
  | .prev => 0
  | .next => 4
  | .sz => 8
  | .nextfree => 12
  | .prevfree => 16

/-- `write blk off len ext` stores `len` bytes at offset `off` of a block that
owns `ext` bytes; `listed blk size` puts a block on a free list. -/
inductive Event where
  | write (blk off len ext : ℕ)
  | listed (blk size : ℕ)
  | bucket (index : ℕ)
  | split (size : ℕ)
  | badcall (msg : String)
  | fouledLastsbrk
  deriving DecidableEq, Repr

/-- `grants` is the ghost history of successful sbrk answers, newest first. -/
structure Heap where
  mem : Mem
  freehdrs : ℕ → ℕ
  sbrkbgn : List ℕ
  grants : List (ℕ × ℕ)
  trace : List Event

/-- The static data as loaded: no free list, no region, no recorded base. -/
def Heap.init (m : Mem) : Heap := ⟨m, fun _ => 0, [], [], []⟩

namespace Heap

def get (s : Heap) (f : Field) (a : ℕ) : ℕ := load32 s.mem (a + f.offset)

def log (s : Heap) (e : Event) : Heap := { s with trace := e :: s.trace }

/-- A field store for a block known to own `ext` bytes. -/
def setIn (s : Heap) (ext : ℕ) (f : Field) (a v : ℕ) : Heap :=
  { s with mem := store32 s.mem (a + f.offset) v
           trace := .write a f.offset 4 ext :: s.trace }

def set (s : Heap) (f : Field) (a v : ℕ) : Heap := s.setIn (s.get .sz a) f a v

def setHdr (s : Heap) (b v : ℕ) : Heap :=
  { s with freehdrs := fun i => if i = b then v else s.freehdrs i }

def lastsbrk (s : Heap) : ℕ := s.freehdrs 0

def setLastsbrk (s : Heap) (v : ℕ) : Heap := s.setHdr 0 v

def badcallabort (s : Heap) (msg : String) : Heap := s.log (.badcall msg)

end Heap

/-- `roundup`: both additions wrap before any size test is made. -/
def roundup (size : ℕ) : ℕ := u32 (u32 (size + alignMask) / 8 * 8 + dataOffset)

def size2bucketLoop : ℕ → ℕ → ℕ → ℕ
  | 0, _, b => b
  | fuel + 1, size, b => if size = 0 then b else size2bucketLoop fuel (size / 2) (b + 1)

/-- Thirty-two shifts exhaust every `ulong`. -/
def size2bucket (size : ℕ) : ℕ := size2bucketLoop 32 size 0

def recordnewsbrk (s : Heap) (bk : ℕ) : Heap :=
  if s.sbrkbgn.length < maxSbrks - 1 ∧ bk ∉ s.sbrkbgn then
    { s with sbrkbgn := s.sbrkbgn ++ [bk] }
  else s

section
variable [Image]

def isFree (s : Heap) (m : ℕ) : Bool :=
  m ≠ 0 && m ≠ NONE && s.get .nextfree m ≠ 0 && s.get .prevfree m ≠ 0

def fouled (s : Heap) (m : ℕ) : Bool := s.lastsbrk = 0 || s.get .nextfree m ≠ 0

def extractfree (s : Heap) (m : ℕ) : Heap :=
  if m = 0 then s else
    let b := size2bucket (s.get .sz m)
    let s := s.log (.bucket b)
    let mnxtf := s.get .nextfree m
    let s := if mnxtf = NONE then s.set .nextfree m 0 else s
    let mprvf := s.get .prevfree m
    let s := if mprvf = NONE then s.set .prevfree m 0 else s
    let s := if s.get .nextfree m ≠ 0 then s.set .prevfree (s.get .nextfree m) mprvf else s
    let s :=
      if s.get .prevfree m ≠ 0 then s.set .nextfree (s.get .prevfree m) mnxtf
      else if s.get .nextfree m ≠ 0 then s.setHdr b mnxtf
      else s.setHdr b 0
    (s.set .prevfree m 0).set .nextfree m 0

def combinelo (s : Heap) (m : ℕ) : Except Heap (Heap × ℕ) :=
  if isFree s (s.get .prev m) then
    let m1 := s.get .prev m
    if s.get .next m1 ≠ m then .error (s.badcallabort "combinelo")
    else
      let s := extractfree s m1
      let n := s.get .next m
      let s := s.set .next m1 n
      let s := if n ≠ 0 then s.set .prev n m1 else s
      .ok (s.set .sz m1 (u32 (s.get .sz m1 + s.get .sz m)), m1)
  else .ok (s, m)

/-- Also used to combine with `lastsbrk`, which is on no free list. -/
def combinehi (s : Heap) (m : ℕ) : Except Heap (Heap × ℕ) :=
  if m ≠ 0 ∧ s.get .next m ≠ 0 then
    let m1 := s.get .next m
    if s.get .prev m1 ≠ m then .error (s.badcallabort "combinehi")
    else
      let s := if m1 ≠ s.lastsbrk then extractfree s m1 else s
      let n := s.get .next m1
      let s := s.set .next m n
      let s := if n ≠ 0 then s.set .prev n m else s
      .ok (s.set .sz m (u32 (s.get .sz m + s.get .sz m1)), m)
  else .ok (s, m)

/-- The last part of `mv2freelist`, for a block not below `lastsbrk`. -/
def pushfree (s : Heap) (m : ℕ) : Heap :=
  let b := size2bucket (s.get .sz m)
  let s :=
    if s.freehdrs b ≠ 0 then (s.set .nextfree m (s.freehdrs b)).set .prevfree (s.freehdrs b) m
    else s.set .nextfree m NONE
  let s := s.set .prevfree m NONE
  let s := if s.freehdrs b ≠ 0 then s.set .prevfree (s.freehdrs b) m else s
  (s.setHdr b m).log (.listed m (s.get .sz m))

def mv2freelist (s : Heap) (m : ℕ) : Except Heap Heap :=
  if m = 0 then .ok s else do
    let (s, m) ← if isFree s (s.get .next m) then combinehi s m else .ok (s, m)
    let s := s.log (.bucket (size2bucket (s.get .sz m)))
    if s.lastsbrk ≠ 0 ∧ s.get .next m = s.lastsbrk then
      let (s, m) ← combinehi s m
      let s := s.setLastsbrk m
      .ok ((s.set .prevfree m 0).set .nextfree m 0)
    else .ok (pushfree s m)

def rmvfromfree (s : Heap) (m : ℕ) : Except Heap Heap :=
  if m = 0 then .ok s else
    let b := size2bucket (s.get .sz m)
    let s := s.log (.bucket b)
    if m ≠ s.freehdrs b then .error (s.badcallabort "rmvfromfree")
    else
      let s :=
        if s.get .nextfree m = NONE then s.setHdr b 0
        else
          let s := s.setHdr b (s.get .nextfree m)
          s.set .prevfree (s.freehdrs b) NONE
      .ok (s.set .nextfree m 0)

/-- The `do b++ while` loop of `searchfree`. -/
def searchUp (s : Heap) : ℕ → ℕ → ℕ
  | 0, b => b
  | fuel + 1, b =>
      if b + 1 < nfLists ∧ s.freehdrs (b + 1) = 0 then searchUp s fuel (b + 1) else b + 1

def searchfree (s : Heap) (szneed : ℕ) : ℕ :=
  let b := size2bucket szneed
  let b :=
    if s.freehdrs b = 0 ∨ s.get .sz (s.freehdrs b) < szneed then searchUp s nfLists b else b
  if b < nfLists then b else 0

/-- `__nmalloc_split`: the lower portion and then the higher one, which the
source stores through its argument `mp`. -/
def nmallocSplit (s : Heap) (m size : ℕ) : Except Heap (Heap × ℕ × ℕ) :=
  let s := s.log (.split size)
  let m1 := m + size
  if s.get .sz m < u32 (size + dataOffset) then .error (s.badcallabort "memblockpsz")
  else
    let ext := sub32 (s.get .sz m) size
    let s := { s with mem := copyUp s.mem m1 m dataOffset }.log (.write m1 0 dataOffset ext)
    let s := s.setIn ext .prev m1 m
    let s := s.setIn ext .sz m1 (sub32 (s.get .sz m) size)
    let s := s.set .next m m1
    let s := s.set .sz m size
    let s := s.set .nextfree m 0
    if s.get .next m1 ≠ 0 then
      if s.get .prev (s.get .next m1) ≠ m then .error (s.badcallabort "memblockpnxt")
      else .ok (s.set .prev (s.get .next m1) m1, m, m1)
    else .ok (s, m, m1)

/-- `expected`: where a region has to start to extend `lastsbrk`. -/
def expected (s : Heap) : ℕ := if s.lastsbrk ≠ 0 then s.lastsbrk + s.get .sz s.lastsbrk else 0

/-- The bytes `extendsbrk` asks for: room to realign and to leave a header when
split, and what a misaligned end of `lastsbrk` lacks. -/
def sbrkSize (s : Heap) (szxtra : ℕ) : ℕ :=
  let szxtra := u32 (szxtra + (2 * 8 + dataOffset))
  let szxtra := if szxtra < minSbrk then minSbrk else szxtra
  if expected s % 8 ≠ 0 then u32 (szxtra + (8 - expected s % 8)) else szxtra

/-- `none` stands for the answer -1 of sbrk. -/
def extendsbrk (s : Heap) (ans : Option ℕ) (szxtra : ℕ) : Except Heap (Heap × ℕ) :=
  let szxtra := sbrkSize s szxtra
  let expected := expected s
  let last := s.lastsbrk
  match ans with
  | none => .ok (s, 0)
  | some m =>
      let s := { s with grants := (m, szxtra) :: s.grants }
      if m = expected then
        .ok (s.set .sz last (u32 (s.get .sz last + szxtra)), last)
      else do
        let aligndelta := if m % 8 ≠ 0 then 8 - m % 8 else 0
        let m := m + aligndelta
        let ext := sub32 szxtra aligndelta
        let s := s.setIn ext .sz m ext
        let s := s.setIn ext .next m 0
        let s := s.setIn ext .prev m 0
        let s := s.setIn ext .nextfree m 0
        let s ← mv2freelist s last
        .ok (recordnewsbrk (s.setLastsbrk m) m, m)

/-- Take the head of list `b`, breaking off what is left if it is usable. -/
def takefree (s : Heap) (b szneed : ℕ) : Except Heap (Heap × ℕ) := do
  let m1 := s.freehdrs b
  let s ← rmvfromfree s m1
  if s.get .sz m1 < u32 (szneed + minSave) then .ok (s, m1)
  else
    let (s, m, m1) ← nmallocSplit s m1 szneed
    let s ← mv2freelist s m1
    .ok (s, m)

/-- `__nmalloc_split (&lastsbrk, szneed)`. -/
def splitLastsbrk (s : Heap) (szneed : ℕ) : Except Heap (Heap × ℕ) := do
  let (s, m, m1) ← nmallocSplit s s.lastsbrk szneed
  .ok (s.setLastsbrk m1, m)

/-- The three sources of `nmalloc`, in order; block 0 stands for a failure. -/
def mallocBlock (s : Heap) (ans : Option ℕ) (szneed : ℕ) : Except Heap (Heap × ℕ) :=
  if searchfree s szneed ≠ 0 then takefree s (searchfree s szneed) szneed
  else if s.lastsbrk ≠ 0 ∧ s.get .sz s.lastsbrk ≥ u32 (szneed + dataOffset) then
    splitLastsbrk s szneed
  else do
    let (s, m1) ← extendsbrk s ans szneed
    if m1 = 0 then .ok (s, 0)
    else if s.get .sz m1 < u32 (szneed + minSave) then .ok (s.log .fouledLastsbrk, m1)
    else splitLastsbrk s szneed

def nmalloc (s : Heap) (ans : Option ℕ) (size : ℕ) : Except Heap (Heap × ℕ) :=
  let sz := if size = 0 then 1 else size
  let szneed := roundup sz
  if szneed < intMax - 65536 then do
    let (s, m) ← mallocBlock s ans szneed
    .ok (s, if m ≠ 0 then m + dataOffset else 0)
  else .ok (s, 0)

def dofree (s : Heap) (m : ℕ) : Except Heap Heap := do
  let s := (s.set .prevfree m NONE).set .nextfree m NONE
  let (s, m) ← if isFree s (s.get .next m) then combinehi s m else .ok (s, m)
  let (s, m) ← if isFree s (s.get .prev m) then combinelo s m else .ok (s, m)
  if s.lastsbrk ≠ 0 ∧ s.lastsbrk = s.get .prev m then .ok s else mv2freelist s m

def nfree (s : Heap) (ptr : ℕ) : Except Heap Heap :=
  if ptr ≠ 0 then
    let m := ptr - dataOffset
    if isFree s m || fouled s m then .ok (s.badcallabort "free") else dofree s m
  else .ok s

/-- `memcpy` and `memmove` of the data of `m` into the data of `m1`. -/
def copyData (s : Heap) (m1 m : ℕ) : Heap :=
  let n := sub32 (s.get .sz m) dataOffset
  { s with mem := copyUp s.mem (m1 + dataOffset) (m + dataOffset) n }.log
    (.write m1 dataOffset n (s.get .sz m1))

def moveData (s : Heap) (m1 m : ℕ) : Heap :=
  let n := sub32 (s.get .sz m) dataOffset
  { s with mem :=
      if m1 < m then copyUp s.mem (m1 + dataOffset) (m + dataOffset) n
      else copyDown s.mem (m1 + dataOffset) (m + dataOffset) n }.log
    (.write m1 dataOffset n (s.get .sz m1))

def mv2lastsbrk (s : Heap) (m szneed : ℕ) : Except Heap (Heap × ℕ) := do
  let (s, m1) ← splitLastsbrk s szneed
  let s ← dofree (copyData s m1 m) m
  .ok (s, m1)

/-- Split off what `m` has beyond `szneed`, when that is a usable block. -/
def trim (s : Heap) (m szneed : ℕ) : Except Heap (Heap × ℕ) :=
  if sub32 (s.get .sz m) szneed ≥ minSave then do
    let (s, m, m1) ← nmallocSplit s m szneed
    let s ← mv2freelist s m1
    .ok (s, m)
  else .ok (s, m)

/-- Combine with `lastsbrk` above, and split off a new `lastsbrk`. -/
def growIntoLastsbrk (s : Heap) (m szneed : ℕ) : Except Heap (Heap × ℕ) := do
  let (s, m1) ← combinehi s m
  let (s, m, m1) ← nmallocSplit s m1 szneed
  .ok (s.setLastsbrk m1, m)

def growIntoPrev (s : Heap) (m szneed : ℕ) : Except Heap (Heap × ℕ) :=
  let m1 := s.get .prev m
  let s := extractfree s m1
  let s := s.set .sz m1 (u32 (s.get .sz m1 + s.get .sz m))
  let n := s.get .next m
  let s := s.set .next m1 n
  let s := if n ≠ 0 then s.set .prev n m1 else s
  trim (moveData s m1 m) m1 szneed

/-- The choice of a strategy by `nrealloc`; block 0 stands for a failure. -/
def reallocBlock (s : Heap) (ans : Option ℕ) (m szneed : ℕ) : Except Heap (Heap × ℕ) :=
  if szneed ≤ s.get .sz m then trim s m szneed
  else if szneed > intMax - 65536 then .ok (s, 0)
  else if isFree s (s.get .next m) ∧ szneed ≤ u32 (s.get .sz m + s.get .sz (s.get .next m)) then do
    let (s, m) ← combinehi s m
    trim s m szneed
  else if s.lastsbrk = s.get .next m ∧
      u32 (szneed + minSave) ≤ u32 (s.get .sz m + s.get .sz s.lastsbrk) then
    growIntoLastsbrk s m szneed
  else if isFree s (s.get .prev m) ∧ szneed ≤ u32 (s.get .sz m + s.get .sz (s.get .prev m)) then
    growIntoPrev s m szneed
  else if searchfree s szneed ≠ 0 then do
    let (s, m2) ← takefree s (searchfree s szneed) szneed
    let s ← dofree (copyData s m2 m) m
    .ok (s, m2)
  else if s.lastsbrk ≠ 0 ∧ u32 (szneed + minSave) ≤ s.get .sz s.lastsbrk then
    mv2lastsbrk s m szneed
  else do
    let (s, m1) ← extendsbrk s ans szneed
    if m1 = 0 then .ok (s, 0)
    else if s.lastsbrk = s.get .next m then growIntoLastsbrk s m szneed
    else mv2lastsbrk s m szneed

def nrealloc (s : Heap) (ans : Option ℕ) (ptr size : ℕ) : Except Heap (Heap × ℕ) :=
  if ptr = 0 then nmalloc s ans size else
    let m := ptr - dataOffset
    let sz := if size = 0 then 1 else size
    let szneed := roundup sz
    if isFree s m || fouled s m then .ok (s.badcallabort "realloc", 0)
    else do
      let (s, m) ← reallocBlock s ans m szneed
      .ok (s, if m ≠ 0 then m + dataOffset else 0)

def ncalloc (s : Heap) (ans : Option ℕ) (n size : ℕ) : Except Heap (Heap × ℕ) :=
  if n = 0 ∨ (4294967296 - 1) / n > size then do
    let sz := u32 (n * size)
    let (s, p) ← nmalloc s ans sz
    if p ≠ 0 then
      .ok ({ s with mem := fill s.mem p sz 0 }.log
        (.write (p - dataOffset) dataOffset sz (s.get .sz (p - dataOffset))), p)
    else .ok (s, p)
  else .ok (s, 0)

/-- `invalid`: zero for a power of two from 1 to 65536. -/
def invalid (alignment : ℕ) : ℕ :=
  if alignment ≠ 0 ∧ alignment ≤ 65536 then alignment &&& (alignment - 1) else 1

/-- `ans` answers the sbrk call of `nmalloc`, `ans'` one that `nrealloc` may make. -/
def nmemalign (s : Heap) (ans ans' : Option ℕ) (alignment size : ℕ) :
    Except Heap (Heap × ℕ) :=
  let sz := if size = 0 then 1 else size
  let szneed := roundup sz
  if size < intMax - 65536 ∧ invalid alignment = 0 then
    if alignment ≤ 8 then nmalloc s ans szneed
    else do
      let (s, minit) ← nmalloc s ans (u32 (szneed + (alignment + 3 * 8)))
      if minit = 0 then .ok (s, 0)
      else
        let misalign := minit % alignment
        if misalign = 0 then nrealloc s ans' minit size
        else do
          let (s, m, m1) ← nmallocSplit s (minit - dataOffset) (alignment - misalign)
          let s ← nfree s (m + dataOffset)
          nrealloc s ans' (m1 + dataOffset) size
  else .ok (s, 0)

end

end DjgppLibc.NewMalloc
