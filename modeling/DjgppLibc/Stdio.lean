import DjgppLibc.ByteMemory

/-!
# Streams: flsbuf.c, filbuf.c and the calls around them

One stream is modelled with its buffer in byte memory and with the file behind
its descriptor. `_cnt` is signed: in a fully buffered output stream it counts
the free places, in a line buffered one it is minus the number of pending
characters, in an input stream it counts the unread characters.

The system answers through `Os`: each call of `malloc`, `_write` or `_read`
takes the next answer, so writes and reads may be short or fail. The termios
hooks are NULL unless a program installs them and are left out, and so is the
flushing of the other standard streams when stdin is filled. `sent`, `stores`,
`freed` and `allocated` are ghosts: the bytes that `_write` accepted, the stores
through `_ptr`, the buffers handed back, and the blocks that `malloc` gave.
-/
namespace DjgppLibc.Stdio
open ByteMemory

/-- The bits of `_flag`. -/
structure Flags where
  read : Bool := false
  wrt : Bool := false
  mybuf : Bool := false
  eof : Bool := false
  err : Bool := false
  strg : Bool := false
  rw : Bool := false
  ungetc : Bool := false
  fbf : Bool := false
  nbf : Bool := false
  lbf : Bool := false
  deriving DecidableEq, Repr

/-- What the library knows about the descriptor, and whether the stream is stdout. -/
structure Fd where
  text : Bool
  append : Bool
  directory : Bool
  seekable : Bool
  isatty : Bool
  isStdout : Bool
  deriving DecidableEq, Repr

/-- The answers of the system, by the number of the call. `cell` is the address
of the local variable that `_filbuf` reads an unbuffered character into. -/
structure Os where
  tbSize : ℕ
  cell : ℕ
  malloc : ℕ → ℕ → ℕ
  write : ℕ → ℤ
  read : ℕ → ℤ
  tbSize_pos : 0 < tbSize
  tbSize_lt : tbSize < 2147483648
  malloc_fits : ∀ k n, malloc k n ≠ 0 → malloc k n + n < 4294967296

/-- A store of `len` bytes at `addr` into a buffer of `bufsiz` bytes at `base`. -/
structure Store where
  addr : ℕ
  len : ℕ
  base : ℕ
  bufsiz : ℕ
  deriving DecidableEq, Repr

structure Stream where
  cnt : ℤ
  ptr : ℕ
  base : ℕ
  bufsiz : ℕ
  flag : Flags
  fillsize : ℕ
  mem : Mem
  contents : List UInt8
  pos : ℕ
  calls : ℕ
  sent : List UInt8
  stores : List Store
  freed : List ℕ
  allocated : List ℕ

def EOF : ℤ := -1
def CR : UInt8 := 13
def LF : UInt8 := 10
def ctrlZ : UInt8 := 26

/-- The value of a plain `char`, which is signed. -/
def char (b : UInt8) : ℤ := if b.toNat < 128 then b.toNat else (b.toNat : ℤ) - 256

/-- The value of an `unsigned char`. -/
def uchar (b : UInt8) : ℤ := b.toNat

/-- An `int` stored into a `char`. -/
def toByte (c : ℤ) : UInt8 := UInt8.ofNat (c % 256).toNat

@[simp] theorem toByte_uchar (x : UInt8) : toByte (uchar x) = x := by
  have := x.toNat_lt
  unfold toByte uchar
  rw [show ((x.toNat : ℤ) % 256).toNat = x.toNat by omega, UInt8.ofNat_toNat]

@[simp] theorem toByte_char (x : UInt8) : toByte (char x) = x := by
  have := x.toNat_lt
  unfold toByte char
  split_ifs
  · rw [show ((x.toNat : ℤ) % 256).toNat = x.toNat by omega, UInt8.ofNat_toNat]
  · rw [show (((x.toNat : ℤ) - 256) % 256).toNat = x.toNat by omega, UInt8.ofNat_toNat]

theorem uchar_ne_EOF (x : UInt8) : uchar x ≠ EOF := by
  unfold uchar EOF
  omega

/-- A `size_t` product taken as a signed 32-bit value. -/
def toSigned (n : ℕ) : ℤ :=
  if n % 4294967296 < 2147483648 then (n % 4294967296 : ℕ) else (n % 4294967296 : ℕ) - 4294967296

inductive Whence where
  | set | cur | fromEnd
  deriving DecidableEq, Repr

/-- The file after `data` is written at `pos`; a gap is filled with zeros. -/
def overwrite (contents : List UInt8) (pos : ℕ) (data : List UInt8) : List UInt8 :=
  (contents ++ List.replicate (pos - contents.length) 0).take pos ++ data ++
    contents.drop (pos + data.length)

/-- `_write`: an answer that is not positive is a failure, any other one says how
many bytes are taken at most. -/
def write (os : Os) (f : Stream) (data : List UInt8) : Stream × ℤ :=
  let a := os.write f.calls
  let f := { f with calls := f.calls + 1 }
  if a ≤ 0 then (f, a)
  else
    let now := data.take a.toNat
    ({ f with contents := overwrite f.contents f.pos now, pos := f.pos + now.length
              sent := f.sent ++ now }, now.length)

/-- `_read` into memory at `a`. -/
def read (os : Os) (f : Stream) (a size : ℕ) : Stream × ℤ :=
  let n := os.read f.calls
  let f := { f with calls := f.calls + 1 }
  if n < 0 then (f, n)
  else
    let now := ((f.contents.drop f.pos).take size).take n.toNat
    ({ f with mem := putAll f.mem a now, pos := f.pos + now.length }, now.length)

def lseek (d : Fd) (f : Stream) (offset : ℤ) (whence : Whence) : Stream × ℤ :=
  let origin : ℤ :=
    match whence with
    | .set => 0
    | .cur => f.pos
    | .fromEnd => f.contents.length
  if d.seekable ∧ 0 ≤ origin + offset then
    ({ f with pos := (origin + offset).toNat }, origin + offset)
  else (f, -1)

/-- `*f->_ptr++ = …`, for one byte or for the bytes of a `memcpy`. -/
def Stream.store (f : Stream) (data : List UInt8) : Stream :=
  { f with mem := putAll f.mem f.ptr data, ptr := f.ptr + data.length
           stores := ⟨f.ptr, data.length, f.base, f.bufsiz⟩ :: f.stores }

/-- The characters between `_base` and `_ptr`. -/
def Stream.pending (f : Stream) : List UInt8 := bytes f.mem f.base (f.ptr - f.base)

/-- The buffer is given up to a write loop: `_ptr` goes back, `_cnt` is set. -/
def Stream.rewound (f : Stream) (cnt : ℤ) : Stream := { f with ptr := f.base, cnt := cnt }

/-- The write loop of `_flsbuf`, which seeks to the end before each write to a
descriptor in append mode, and that of `fflush`, which does not. `fuel` counts
bytes: each round writes at least one. -/
def writeAll (d : Fd) (os : Os) (seek : Bool) : ℕ → List UInt8 → Stream → Stream × Bool
  | 0, _, f => (f, true)
  | fuel + 1, data, f =>
      if data = [] then (f, true)
      else
        let (f, p) := if seek ∧ d.append then lseek d f 0 .fromEnd else (f, 0)
        if p = -1 then (f, false)
        else
          let (f, n) := write os f data
          if n ≤ 0 then ({ f with flag := { f.flag with err := true } }, false)
          else writeAll d os seek fuel (data.drop n.toNat) f

/-- The buffer that `_flsbuf` allocates on the first character. -/
def allocOut (d : Fd) (os : Os) (f : Stream) : Stream :=
  let size := os.tbSize
  let a := os.malloc f.calls size
  let f := { f with calls := f.calls + 1 }
  if a = 0 then { f with flag := { f.flag with nbf := true, fbf := false, lbf := false } }
  else
    { f with base := a, cnt := size, bufsiz := size, ptr := a, allocated := a :: f.allocated
             flag := { f.flag with mybuf := true, lbf := f.flag.lbf || d.isStdout && d.isatty } }

/-- The second half of `_flsbuf`, for a stream that is open for writing and has
its buffer. -/
def flsbufPut (d : Fd) (os : Os) (c : ℤ) (f : Stream) : Stream × ℤ :=
  if f.flag.lbf then
    let f := f.store [toByte c]
    let rn := f.ptr - f.base
    if c = 10 ∨ f.bufsiz ≤ rn then
      let (f, ok) := writeAll d os true rn f.pending (f.rewound 0)
      (f, if ok then c else EOF)
    else ({ f with cnt := -rn }, c)
  else if f.flag.nbf then
    let (f, ok) := writeAll d os true 1 [toByte c] { f with cnt := 0 }
    (f, if ok then c else EOF)
  else
    let rn := f.ptr - f.base
    let (f, ok) := writeAll d os true rn f.pending (f.rewound f.bufsiz)
    if ok then ({ f with cnt := f.cnt - 1 }.store [toByte c], c) else (f, EOF)

def flsbuf (d : Fd) (os : Os) (c : ℤ) (f : Stream) : Stream × ℤ :=
  let f :=
    if f.flag.rw then { f with flag := { f.flag with wrt := true, eof := false, read := false } }
    else f
  if !f.flag.wrt then ({ f with flag := { f.flag with err := true } }, EOF)
  else if f.flag.strg then (f, c)
  else flsbufPut d os c (if f.base = 0 ∧ !f.flag.nbf then allocOut d os f else f)

def isTextFile (d : Fd) (f : Stream) : Bool := !f.flag.strg && d.text

def putcRaw (d : Fd) (os : Os) (x : UInt8) (f : Stream) : Stream × ℤ :=
  if 0 < f.cnt then ({ f with cnt := f.cnt - 1 }.store [x], uchar x)
  else flsbuf d os (uchar x) f

def putc (d : Fd) (os : Os) (x : UInt8) (f : Stream) : Stream × ℤ :=
  if x = LF ∧ isTextFile d f then putcRaw d os x (putcRaw d os CR f).1 else putcRaw d os x f

/-- The step of the two line buffering loops of `fwrite`: store `x` if the buffer
keeps a free place and `fast` allows it, and call `_flsbuf` on `c` otherwise. -/
def emitLine (d : Fd) (os : Os) (fast : Bool) (x : UInt8) (c : ℤ) (f : Stream) : Stream × ℤ :=
  let f := { f with cnt := f.cnt - 1 }
  if -(f.bufsiz : ℤ) < f.cnt ∧ fast then (f.store [x], 0) else flsbuf d os c f

def emitFull (d : Fd) (os : Os) (x : UInt8) (f : Stream) : Stream × ℤ :=
  let f := { f with cnt := f.cnt - 1 }
  if 0 ≤ f.cnt then (f.store [x], 0) else flsbuf d os (uchar x) f

/-! The loops of `fwrite` return what they leave unwritten; its length is the
final value of `s`. -/

/-- Binary and line buffered: `_flsbuf` is given a plain `char`. -/
def fwriteLine (d : Fd) (os : Os) : List UInt8 → Stream → Stream × List UInt8
  | [], f => (f, [])
  | x :: xs, f =>
      let (f, r) := emitLine d os (x ≠ LF) x (char x) f
      if r = EOF then (f, x :: xs) else fwriteLine d os xs f

/-- Binary, fully buffered or unbuffered. An early return of `count` leaves nothing. -/
def fwriteBlock (d : Fd) (os : Os) : ℕ → List UInt8 → Stream → Stream × List UInt8
  | 0, xs, f => (f, xs)
  | fuel + 1, xs, f =>
      if xs = [] then (f, [])
      else if f.cnt < xs.length then
        let (f, xs) :=
          if 0 < f.cnt then (f.store (xs.take f.cnt.toNat), xs.drop f.cnt.toNat) else (f, xs)
        match xs with
        | [] => (f, [])
        | x :: xs =>
            let (f, r) := flsbuf d os (uchar x) f
            if r = EOF then (f, x :: xs)
            else if xs.length ≤ f.cnt then
              ({ f with cnt := f.cnt - xs.length }.store xs, [])
            else fwriteBlock d os fuel xs f
      else ({ f with cnt := f.cnt - xs.length }.store xs, [])

def fwriteTextLine (d : Fd) (os : Os) : List UInt8 → Stream → Stream × List UInt8
  | [], f => (f, [])
  | x :: xs, f =>
      let (f, r) := if x = LF then emitLine d os true CR (uchar CR) f else (f, 0)
      if r = EOF then (f, x :: xs)
      else
        let (f, r) := emitLine d os (x ≠ LF) x (uchar x) f
        if r = EOF then (f, x :: xs) else fwriteTextLine d os xs f

def fwriteText (d : Fd) (os : Os) : List UInt8 → Stream → Stream × List UInt8
  | [], f => (f, [])
  | x :: xs, f =>
      let (f, r) := if x = LF then emitFull d os CR f else (f, 0)
      if r = EOF then (f, x :: xs)
      else
        let (f, r) := emitFull d os x f
        if r = EOF then (f, x :: xs) else fwriteText d os xs f

/-- `count - ((s + size - 1) / size)` in unsigned arithmetic. -/
def itemsDone (size count : ℕ) (s : ℤ) : ℕ :=
  if size ≠ 0 then
    ((count : ℤ) - (((s + size - 1) % 4294967296).toNat / size : ℕ)) % 4294967296 |>.toNat
  else 0

def fwrite (d : Fd) (os : Os) (data : List UInt8) (size count : ℕ) (f : Stream) : Stream × ℕ :=
  let s := toSigned (size * count)
  -- a negative length skips the loops
  let todo := data.take s.toNat
  let (f, left) :=
    if !isTextFile d f then
      if f.flag.lbf then fwriteLine d os todo f else fwriteBlock d os todo.length todo f
    else if f.flag.lbf then fwriteTextLine d os todo f
    else fwriteText d os todo f
  (f, itemsDone size count (if s < 0 then s else left.length))

/-- `f->_flag &= ~_IOUNGETC`. -/
def Stream.clearUngetc (f : Stream) : Stream := { f with flag := { f.flag with ungetc := false } }

/-- The write loop of `fflush`, if there is something to write. -/
def fflushBuffer (d : Fd) (os : Os) (f : Stream) : Stream × Bool :=
  if f.flag.wrt ∧ !f.flag.nbf ∧ f.base ≠ 0 ∧ f.base < f.ptr then
    writeAll d os false (f.ptr - f.base) f.pending
      (f.rewound (if f.flag.lbf || f.flag.nbf then 0 else f.bufsiz))
  else (f, true)

def fflush (d : Fd) (os : Os) (f : Stream) : Stream × ℤ :=
  let (f, p) := if d.append then lseek d f 0 .fromEnd else (f, 0)
  if p = -1 then (f, -1)
  else
    let (f, ok) := fflushBuffer d os f.clearUngetc
    if !ok then (f, EOF)
    else if f.flag.rw then
      ({ f with cnt := 0, flag := { f.flag with wrt := false, read := false }, ptr := f.base }, 0)
    else (f, 0)

def ftell (d : Fd) (f : Stream) : Stream × ℤ :=
  if d.directory then (f, 0)
  else
    let f := if f.cnt < 0 then { f with cnt := 0 } else f
    if !f.flag.read && !(f.flag.wrt || f.flag.rw) then (f, -1)
    else
      let adjust : ℤ :=
        if f.flag.read then -f.cnt
        else if f.flag.wrt ∧ f.base ≠ 0 ∧ !f.flag.nbf then (f.ptr : ℤ) - f.base
        else 0
      let (f, tres) := lseek d f 0 .cur
      (f, if tres < 0 then tres else tres + adjust)

/-- What `fseek` resets on any stream. -/
def Stream.restarted (f : Stream) : Stream :=
  { f with fillsize := 512, flag := { f.flag with eof := false } }

def fseek (d : Fd) (os : Os) (offset : ℤ) (whence : Whence) (f : Stream) : Stream × ℤ :=
  if d.directory then (f, 0)
  else
    let f := f.restarted
    if f.flag.read then
      let buffered := f.base ≠ 0 ∧ !f.flag.nbf
      let (f, p) := if buffered then ftell d f else (f, -1)
      let (offset, whence) :=
        if buffered ∧ whence = .cur then (offset + p, Whence.set) else (offset, whence)
      if buffered ∧ whence = .set ∧ !(f.flag.ungetc || f.flag.rw) ∧
          p - offset ≤ (f.ptr : ℤ) - f.base ∧ offset - p ≤ f.cnt then
        ({ f with ptr := ((f.ptr : ℤ) + (offset - p)).toNat, cnt := f.cnt + (p - offset) }, 0)
      else
        let f := if f.flag.rw then { f with flag := { f.flag with read := false } } else f
        let (f, p) := lseek d f offset whence
        ({ f with cnt := 0, ptr := f.base, flag := { f.flag with ungetc := false } },
          if p = -1 then -1 else 0)
    else if f.flag.wrt || f.flag.rw then
      let (f, p) := fflush d os f
      let (f, q) := lseek d f offset whence
      (f, if q = -1 ∨ p = EOF then -1 else 0)
    else (f, -1)

inductive Buffering where
  | full | line | none
  deriving DecidableEq, Repr

/-- The new buffer and mode. The old buffer goes back only if the library
allocated it. -/
def Stream.install (f : Stream) (type : Buffering) (base bufsiz : ℕ) (mine : Bool) : Stream :=
  { f with
    freed := if f.base ≠ 0 ∧ f.flag.mybuf then f.base :: f.freed else f.freed
    cnt := 0, base := base, bufsiz := bufsiz
    ptr := if type = .none then f.ptr else base
    fillsize := if type = .none then f.fillsize else bufsiz
    flag := { f.flag with
      nbf := decide (type = .none), fbf := decide (type = .full), lbf := decide (type = .line)
      ungetc := false, mybuf := f.flag.mybuf || mine } }

/-- `buf = 0` asks `setvbuf` to allocate the buffer. -/
def setvbuf (d : Fd) (os : Os) (buf : ℕ) (type : Buffering) (len : ℕ) (f : Stream) :
    Stream × ℤ :=
  let f := (fflush d os f).1
  if type = .none then (f.install type 0 0 false, 0)
  else if len = 0 then (f, -1)
  else if buf = 0 then
    let a := os.malloc f.calls len
    let f := { f with calls := f.calls + 1 }
    if a = 0 then (f, -1)
    else ({ f with allocated := a :: f.allocated }.install type a len true, 0)
  else (f.install type buf len false, 0)

/-- The buffer that `_filbuf` allocates on the first character. -/
def allocIn (os : Os) (f : Stream) : Stream :=
  let size := os.tbSize
  let a := os.malloc f.calls size
  let f := { f with calls := f.calls + 1, base := a }
  if a = 0 then { f with flag := { f.flag with nbf := true, fbf := false, lbf := false } }
  else
    { f with bufsiz := size, fillsize := 512, flag := { f.flag with mybuf := true }
             allocated := a :: f.allocated }

/-- `_read` into the buffer, with a text file cut at the first Ctrl-Z. -/
def fill (d : Fd) (os : Os) (size : ℕ) (f : Stream) : Stream :=
  let (f, n) := read os f f.base size
  let f := { f with cnt := n }
  if isTextFile d f ∧ 0 < n ∧ ctrlZ ∈ bytes f.mem f.base n.toNat then
    let newcnt := ((bytes f.mem f.base n.toNat).takeWhile (· ≠ ctrlZ)).length
    { (lseek d f (-(n - newcnt)) .cur).1 with cnt := newcnt }
  else f

def filbuf (d : Fd) (os : Os) (f : Stream) : Stream × ℤ :=
  let f := if f.flag.rw then { f with flag := { f.flag with read := true } } else f
  if !f.flag.read then ({ f with flag := { f.flag with err := true } }, EOF)
  else if f.flag.strg || f.flag.eof then (f, EOF)
  else
    let f := f.clearUngetc
    let f := if f.base = 0 ∧ !f.flag.nbf then allocIn os f else f
    let f := if f.flag.nbf then { f with base := os.cell } else f
    let f := if f.bufsiz < f.fillsize then { f with fillsize := f.bufsiz } else f
    let fillsize := if f.fillsize = 1024 ∧ 1536 ≤ f.bufsiz then 1536 else f.fillsize
    let f := fill d os (if f.flag.nbf then 1 else fillsize) f
    let f := if f.fillsize < f.bufsiz then { f with fillsize := f.fillsize * 2 } else f
    let f := { f with ptr := f.base, cnt := f.cnt - 1 }
    let f := if f.flag.nbf then { f with base := 0 } else f
    if f.cnt < 0 then
      let flag :=
        if f.cnt = -1 then { f.flag with eof := true, read := f.flag.read && !f.flag.rw }
        else { f.flag with err := true }
      ({ f with cnt := 0, flag := flag }, EOF)
    else ({ f with ptr := f.ptr + 1 }, uchar (f.mem f.ptr))

def getcRaw (d : Fd) (os : Os) (f : Stream) : Stream × ℤ :=
  if 0 < f.cnt then ({ f with cnt := f.cnt - 1, ptr := f.ptr + 1 }, uchar (f.mem f.ptr))
  else filbuf d os f

def getc (d : Fd) (os : Os) (f : Stream) : Stream × ℤ :=
  let (f, c) := getcRaw d os f
  if c = 13 ∧ isTextFile d f then getcRaw d os f else (f, c)

def ungetc (c : ℤ) (f : Stream) : Stream × ℤ :=
  if c = EOF ∨ !(f.flag.read || f.flag.rw) ∨ f.ptr = 0 ∨ f.base = 0 then (f, EOF)
  else if f.ptr = f.base ∧ f.cnt ≠ 0 then (f, EOF)
  else
    let f := if f.ptr = f.base then { f with ptr := f.ptr + 1 } else f
    let f := { f with cnt := f.cnt + 1, ptr := f.ptr - 1 }
    if char (f.mem f.ptr) ≠ c then
      ({ f with flag := { f.flag with ungetc := true }, mem := put f.mem f.ptr (toByte c)
                stores := ⟨f.ptr, 1, f.base, f.bufsiz⟩ :: f.stores }, c)
    else (f, c)

/-- The growth of `_fillsize` in `fread`; it at least doubles in each round. -/
def growFill (want bufsiz : ℕ) : ℕ → ℕ → ℕ
  | 0, fillsize => fillsize
  | fuel + 1, fillsize =>
      if fillsize < want ∧ fillsize < bufsiz then
        growFill want bufsiz fuel ((if fillsize < 512 then 512 else fillsize) * 2)
      else fillsize

/-! The loops of `fread` carry `s` and the bytes stored so far. -/

/-- Binary. `_filbuf` is relied upon to reset `_cnt` and `_ptr`. -/
def freadBlock (d : Fd) (os : Os) : ℕ → ℕ → List UInt8 → Stream → Stream × List UInt8 × ℕ
  | 0, s, done, f => (f, done, s)
  | fuel + 1, s, done, f =>
      if s = 0 then (f, done, s)
      else if f.cnt < s then
        let (done, s) :=
          if 0 < f.cnt then (done ++ bytes f.mem f.ptr f.cnt.toNat, s - f.cnt.toNat) else (done, s)
        let (f, c) := filbuf d os f
        if c = EOF then (f, done, s)
        else
          let done := done ++ [toByte c]
          let s := s - 1
          if (s : ℤ) ≤ f.cnt then
            ({ f with ptr := f.ptr + s, cnt := f.cnt - s }, done ++ bytes f.mem f.ptr s, 0)
          else freadBlock d os fuel s done f
      else ({ f with ptr := f.ptr + s, cnt := f.cnt - s }, done ++ bytes f.mem f.ptr s, 0)

/-- The two inner loops of the text case; the second one also stops at `s = 0`. -/
def skim (stop : Bool) : ℕ → ℕ → List UInt8 → Stream → Stream × List UInt8 × ℕ
  | 0, s, done, f => (f, done, s)
  | fuel + 1, s, done, f =>
      if 0 < f.cnt ∧ (stop → 0 < s) then
        let c := f.mem f.ptr
        let f := { f with ptr := f.ptr + 1, cnt := f.cnt - 1 }
        if c ≠ CR then skim stop fuel (s - 1) (done ++ [c]) f else skim stop fuel s done f
      else (f, done, s)

/-- Text. Each round takes a byte from the buffer or from the file, which bounds
their number. -/
def freadText (d : Fd) (os : Os) : ℕ → ℕ → List UInt8 → Stream → Stream × List UInt8 × ℕ
  | 0, s, done, f => (f, done, s)
  | fuel + 1, s, done, f =>
      if s = 0 then (f, done, s)
      else
        let (f, done, s, c) :=
          if f.cnt < s then
            let (f, done, s) := skim false f.cnt.toNat s done f
            let (f, c) := filbuf d os f
            if c ≠ EOF ∧ c ≠ 13 then (f, done ++ [toByte c], s - 1, c) else (f, done, s, c)
          else (f, done, s, 0)
        if c = EOF then (f, done, s)
        else
          let (f, done, s) :=
            if (s : ℤ) ≤ f.cnt then skim true f.cnt.toNat s done f else (f, done, s)
          freadText d os fuel s done f

def Stream.unread (f : Stream) : List UInt8 :=
  bytes f.mem f.ptr f.cnt.toNat ++ f.contents.drop f.pos

def fread (d : Fd) (os : Os) (size count : ℕ) (f : Stream) : Stream × List UInt8 × ℕ :=
  let f := { f with fillsize := growFill (size * count % 4294967296) f.bufsiz 32 f.fillsize }
  let s := toSigned (size * count)
  if s ≤ 0 then (f, [], itemsDone size count s)
  else
    let (f, done, left) :=
      if !isTextFile d f then freadBlock d os s.toNat s.toNat [] f
      else freadText d os (f.unread.length + 1) s.toNat [] f
    (f, done, itemsDone size count left)

end DjgppLibc.Stdio
