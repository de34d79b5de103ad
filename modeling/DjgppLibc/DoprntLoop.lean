import DjgppLibc.Doprnt
import DjgppLibc.Stdio
import Mathlib.Data.Int.ModEq

/-!
# The loop of `_doprnt` and `vsnprintf`

`_doprnt` reads a format and the words of an argument list. Its text is what it
hands to `PUTC`, in order, and its count is what it returns; the stream never
comes back into it, so the text is put into the stream afterwards. Every `int` is
kept to 32 bits. Positions in the argument list are counted in words; NULL as
`to_be_printed` is `none`. Floating-point conversions and `%n` are left out, and
the locale is the one a program starts in. Memory is as it was at the call: the
buffer and the strings that are printed do not overlap.
-/
namespace DjgppLibc.DoprntLoop
open Doprnt (Flags isdigit todigit argSigned argUnsigned figures)
open ByteMemory
open Stdio (Stream Fd Os)

def int (n : ℤ) : ℤ := n.bmod 4294967296

def INT_MAX : ℕ := 2147483647

/-- The number at the front of a format, read into an `int`. -/
def number (fmt : List Char) : ℤ :=
  (fmt.takeWhile isdigit).foldl (fun n c => int (10 * n + todigit c)) 0

/-- The words of the argument list, and the memory that its pointers lead to. -/
structure Args where
  word : ℕ → BitVec 32
  mem : Mem

/-- `argp`, `using_numeric_conv_spec` and `to_be_printed`. -/
structure Lists where
  argp : ℕ := 0
  numeric : Bool := false
  toBePrinted : Option ℕ := none
  deriving DecidableEq, Repr

/-- What the characters of a directive set. The width is an `int` of its own, because a
number that is too long for one can make it negative. -/
structure Directive where
  flags : Flags := {}
  width : ℤ := 0
  lists : Lists := {}
  deriving DecidableEq, Repr

variable (a : Args) (trav : ℤ → Option ℕ)

/-- The `int` behind a star: that of the position between the star and a dollar sign, or
else the next one. -/
def starArg (fmt : List Char) (l : Lists) : Option (ℤ × Lists × List Char) :=
  match fmt.dropWhile isdigit with
  | '$' :: rest =>
      (trav (number fmt)).map fun p =>
        ((a.word p).toInt, { l with argp := p + 1, numeric := true }, rest)
  | _ => some ((a.word l.argp).toInt, { l with argp := l.argp + 1 }, fmt)

/-- `prec = n < 0 ? -1 : n`. -/
def precision (n : ℤ) : Option ℕ := if n < 0 then none else some n.toNat

/-- From the label `rflag` to the conversion, which is NUL at the end of the format. -/
def rflag : ℕ → List Char → Directive → Option (Directive × Char × List Char)
  | 0, _, _ => none
  | _, [], d => some (d, '\x00', [])
  | n + 1, ch :: fmt, d =>
      let f := d.flags
      match ch with
      | '\'' => rflag n fmt { d with flags := { f with grouping := true } }
      | ' ' =>
          rflag n fmt
            { d with flags := { f with sign := if f.sign = none then some ' ' else f.sign } }
      | '#' => rflag n fmt { d with flags := { f with alt := true } }
      | '*' =>
          match starArg a trav fmt d.lists with
          | none => none
          | some (width, lists, fmt) =>
              if 0 ≤ width then rflag n fmt { d with width, lists }
              else
                rflag n fmt ⟨{ f with ladjust := true }, int (-width), lists⟩
      | '-' => rflag n fmt { d with flags := { f with ladjust := true } }
      | '+' => rflag n fmt { d with flags := { f with sign := some '+' } }
      | '.' =>
          match fmt with
          | '*' :: fmt =>
              match starArg a trav fmt d.lists with
              | none => none
              | some (prec, lists, fmt) =>
                  rflag n fmt { d with flags := { f with prec := precision prec }, lists }
          | fmt =>
              rflag n (fmt.dropWhile isdigit)
                { d with flags := { f with prec := precision (number fmt) } }
      | '0' => rflag n fmt { d with flags := { f with zeropad := true } }
      | 'L' => rflag n fmt { d with flags := { f with longdbl := true } }
      | 'h' =>
          rflag n fmt { d with flags :=
            if f.shortint then { f with charint := true, shortint := false }
            else { f with shortint := true } }
      | 'l' =>
          rflag n fmt { d with flags :=
            if f.longint then { f with longdbl := true } else { f with longint := true } }
      | 'j' => rflag n fmt { d with flags := { f with longdbl := true } }
      | 'z' => rflag n fmt { d with flags := { f with longint := true } }
      | 't' => rflag n fmt d
      | ch =>
          if isdigit ch then
            match (ch :: fmt).dropWhile isdigit with
            | '$' :: rest =>
                match trav (number (ch :: fmt)) with
                | none => none
                | some p =>
                    let lists := { d.lists with numeric := true, toBePrinted := some p }
                    rflag n rest { d with lists }
            | rest => rflag n rest { d with width := number (ch :: fmt) }
          else some (d, ch, fmt)

attribute [grind =] rflag

/-- `realsz`: the size of the field without the padding. -/
def realSize (sign hex : Option Char) (dprec fieldsz : ℤ) : ℤ :=
  let realsz := max dprec fieldsz
  let realsz := if sign ≠ none then int (realsz + 1) else realsz
  if hex ≠ none then int (realsz + 2) else realsz

def hexPrefix (hex : Option Char) : List Char :=
  match hex with
  | none => []
  | some ch => ['0', ch]

/-- From the label `pforw` to the end of the directive: the text, and what `cnt` grows by. -/
def pforw (f : Flags) (width dprec : ℤ) (hex : Option Char) (t : List Char) : List Char × ℤ :=
  let fieldsz : ℤ := t.length
  let realsz := realSize f.sign hex dprec fieldsz
  let padding := (width - realsz).toNat
  ((if !f.ladjust && !f.zeropad && width ≠ 0 then List.replicate padding ' ' else []) ++
    f.sign.toList ++
    hexPrefix hex ++
    (if !f.ladjust && f.zeropad then List.replicate padding '0' else []) ++
    List.replicate (dprec - fieldsz).toNat '0' ++
    t ++
    (if f.ladjust then List.replicate padding ' ' else []),
   max width realsz)

/-- The label `number`. -/
def numberField (f : Flags) (width : ℤ) (ch : Char) (base : ℕ) (hex : Bool) (v : BitVec 64) :
    List Char × ℤ :=
  let f := if f.prec ≠ none then { f with zeropad := false } else f
  let dprec : ℤ :=
    match f.prec with
    | none => -1
    | some prec => prec
  pforw f width dprec (if hex then some ch else none) (figures f (ch = 'X') base v)

def signedField (f : Flags) (width : ℤ) (ch : Char) (arg : BitVec 64) : List Char × ℤ :=
  let v := argSigned f arg
  if v.slt 0 then numberField { f with sign := some '-' } width ch 10 false (-v)
  else numberField f width ch 10 false v

def unsignedField (f : Flags) (width : ℤ) (ch : Char) (base : ℕ) (arg : BitVec 64) :
    List Char × ℤ :=
  let v := argUnsigned f arg
  numberField { f with sign := none } width ch base (base = 16 && f.alt && v ≠ 0) v

/-- The first NUL of a string, from the character `i` on. -/
def findNul (t : ℕ → Char) : ℕ → ℕ → Option ℕ
  | 0, _ => none
  | n + 1, i => if t i = '\x00' then some i else findNul t n (i + 1)

/-- The character `i` of the string at `p`. -/
def Args.char (p : BitVec 32) (i : ℕ) : Char :=
  Char.ofNat (a.mem ((p.toNat + i) % 4294967296)).toNat

def NULL_REP (i : ℕ) : Char := ['(', 'n', 'u', 'l', 'l', ')'].getD i '\x00'

/-- The `size` of a string: `memchr` looks at `prec` characters only, and `strlen` goes
through the memory. -/
def stringSize (prec : Option ℕ) (t : ℕ → Char) : Option ℤ :=
  match prec with
  | some prec =>
      match findNul t prec 0 with
      | some size => some size
      | none => some prec
  | none => (findNul t 4294967296 0).map fun size => int size

def stringField (f : Flags) (width : ℤ) (p : BitVec 32) : Option (List Char × ℤ) :=
  let t := if p = 0 then NULL_REP else a.char p
  (stringSize f.prec t).map fun size =>
    pforw { f with sign := none } width 0 none ((List.range size.toNat).map t)

/-- `if (using_numeric_conv_spec) argp = to_be_printed`. -/
def Lists.place (l : Lists) : Option ℕ := if l.numeric then l.toBePrinted else some l.argp

/-- The two words of a `long long`; for the other types the first one counts. -/
def Args.wide (p : ℕ) : BitVec 64 := a.word (p + 1) ++ a.word p

/-- The words that `ARG` steps over. -/
def argWords (f : Flags) : ℕ := if f.longdbl then 2 else 1

/-- A conversion with its argument at `p`: the text, what `cnt` grows by, and the words used. -/
def field (f : Flags) (width : ℤ) (ch : Char) (p : ℕ) : Option ((List Char × ℤ) × ℕ) :=
  match ch with
  | 'D' => some (signedField { f with longint := true } width ch (a.wide p), argWords f)
  | 'd' => some (signedField f width ch (a.wide p), argWords f)
  | 'i' => some (signedField f width ch (a.wide p), argWords f)
  | 'O' => some (unsignedField { f with longint := true } width ch 8 (a.wide p), argWords f)
  | 'o' => some (unsignedField f width ch 8 (a.wide p), argWords f)
  | 'U' => some (unsignedField { f with longint := true } width ch 10 (a.wide p), argWords f)
  | 'u' => some (unsignedField f width ch 10 (a.wide p), argWords f)
  | 'X' => some (unsignedField f width ch 16 (a.wide p), argWords f)
  | 'x' => some (unsignedField f width ch 16 (a.wide p), argWords f)
  | 'p' =>
      some (numberField { f with sign := none } width ch 16 false ((a.word p).setWidth 64), 1)
  | 's' => (stringField a f width (a.word p)).map fun r => (r, 1)
  | _ => none

def unmodelled : List Char := ['A', 'E', 'F', 'G', 'a', 'e', 'f', 'g', 'n']

/-- A directive from its conversion on. `%c` takes the next argument; a character that is
no conversion is put as it is. -/
def conversion (d : Directive) (ch : Char) : Option ((List Char × ℤ) × Lists) :=
  if ch = 'c' then
    let c := Char.ofNat ((a.word d.lists.argp).toNat % 256)
    some (pforw { d.flags with sign := none } d.width 0 none [c],
      { d.lists with argp := d.lists.argp + 1 })
  else if ch ∈ unmodelled then none
  else if ch ∈ ['D', 'd', 'i', 'O', 'o', 'U', 'u', 'X', 'x', 'p', 's'] then
    match d.lists.place with
    | none => none
    | some p => (field a d.flags d.width ch p).map fun r => (r.1, { d.lists with argp := p + r.2 })
  else some (([ch], 1), d.lists)

/-- The loop over the format, from a count on: the text and the count at the end. -/
def loop : ℕ → List Char → Lists → ℤ → Option (List Char × ℤ)
  | 0, _, _, _ => none
  | _, [], _, cnt => some ([], cnt)
  | n + 1, ch :: fmt, l, cnt =>
      if ch ≠ '%' then (loop n fmt l (int (cnt + 1))).map fun r => (ch :: r.1, r.2)
      else
        match rflag a trav (fmt.length + 1) fmt { lists := l } with
        | none => none
        | some (d, ch, fmt) =>
            if ch = '\x00' then some ([], cnt)
            else
              match conversion a d ch with
              | none => none
              | some (r, l) =>
                  (loop n fmt l (int (cnt + r.2))).map fun rest => (r.1 ++ rest.1, rest.2)

/-- The variables of the scan; `argp` counts the words that are stepped over. -/
structure Scan where
  listIndex : ℤ := 1
  argIndex : ℤ := 0
  precIndex : ℤ := 0
  longint : Bool := false
  longdbl : Bool := false
  argp : ℕ := 0
  deriving DecidableEq, Repr

/-- A reference to the argument `i`: `none` ends the scan at the argument that is looked
for. -/
def Scan.refer (s : Scan) (index i : ℤ) (words : ℕ) : Option Scan :=
  if i = index ∧ s.listIndex = index then none
  else if i = s.listIndex then
    some { s with argp := s.argp + words, listIndex := s.listIndex + 1 }
  else some s

/-- The words of the argument of a conversion; `none` for a character that is none. -/
def scanWords (longdbl : Bool) (ch : Char) : Option ℕ :=
  if ch ∈ ['c', 'n', 'p', 's'] then some 1
  else if ch ∈ ['D', 'd', 'i', 'O', 'U', 'X', 'o', 'u', 'x'] then
    some (if longdbl then 2 else 1)
  else if ch ∈ ['A', 'E', 'F', 'G', 'a', 'e', 'f', 'g'] then some (if longdbl then 3 else 2)
  else none

/-- The characters behind the next percent sign. At the end the scan starts again, and then
the first character of the format is taken for the percent sign. -/
def nextBody (fmt0 fmt : List Char) : List Char :=
  match fmt.dropWhile (· ≠ '%') with
  | [] => fmt0.tail
  | _ :: body => body

/-- The scan from the label `rflag` on. Each round takes a character; `none` also stands for
a read behind the end of the format. -/
def scan (fmt0 : List Char) (index : ℤ) : ℕ → List Char → Scan → Option ℕ
  | 0, _, _ => none
  | _, [], s => some s.argp
  | n + 1, ch :: fmt, s =>
      if ch ∈ [' ', '#', '\'', '-', '+', 'h', 't', 'z'] then scan fmt0 index n fmt s
      else if ch = 'L' ∨ ch = 'j' then scan fmt0 index n fmt { s with longdbl := true }
      else if ch = 'l' then
        scan fmt0 index n fmt
          (if s.longint then { s with longdbl := true } else { s with longint := true })
      else if ch = '*' ∨ ch = '.' ∧ fmt.head? = some '*' then
        let fmt := if ch = '*' then fmt else fmt.tail
        let s := { s with precIndex := number fmt }
        match s.refer index s.precIndex 1 with
        | none => some s.argp
        | some s =>
            match fmt.dropWhile isdigit with
            | [] => none
            | _ :: fmt => scan fmt0 index n fmt s
      else if ch = '.' then
        match fmt with
        | [] => none
        | _ :: fmt => scan fmt0 index n fmt s
      else if isdigit ch then
        let s := { s with argIndex := number (ch :: fmt) }
        match (ch :: fmt).dropWhile isdigit with
        | [] => none
        | _ :: fmt => scan fmt0 index n fmt s
      else
        let s' :=
          match scanWords s.longdbl ch with
          | none => some s
          | some words => s.refer index s.argIndex words
        match s' with
        | none => some s.argp
        | some s =>
            if s.listIndex < int (index + 1) then
              scan fmt0 index n (nextBody fmt0 (ch :: fmt))
                { s with longint := false, longdbl := false }
            else some s.argp

def traverseArgumentList (fuel : ℕ) (fmt0 : List Char) (index : ℤ) : Option ℕ :=
  if 1 < int (index + 1) then scan fmt0 index fuel (nextBody fmt0 fmt0) {} else some 0

/-- `fuel` bounds the rounds of each scan for a position. -/
def doprnt (fuel : ℕ) (fmt : List Char) : Option (List Char × ℤ) :=
  loop a (traverseArgumentList fuel fmt) (fmt.length + 1) fmt {} 0

def byteOf (c : Char) : UInt8 := UInt8.ofNat c.toNat

/-- `PUTC` of one character after the other. -/
def puts (d : Fd) (os : Os) (text : List Char) (f : Stream) : Stream :=
  text.foldl (fun f c => (Stdio.putc d os (byteOf c) f).1) f

/-- `_doprnt` with its stream. -/
def doprntTo (d : Fd) (os : Os) (fuel : ℕ) (fmt : List Char) (f : Stream) :
    Option (Stream × ℤ) :=
  let f :=
    if f.flag.rw then { f with flag := { f.flag with wrt := true, eof := false, read := false } }
    else f
  if !f.flag.wrt then some (f, Stdio.EOF)
  else (doprnt a fuel fmt).map fun r => (puts d os r.1 f, r.2)

def stropenw (mem : Mem) (str : ℕ) (len : ℤ) : Stream :=
  ⟨len, str, 0, 0, { wrt := true, strg := true }, 0, mem, [], 0, 0, [], [], [], []⟩

def strclosew (f : Stream) : Mem := put f.mem f.ptr 0

def vsnprintf (d : Fd) (os : Os) (fuel : ℕ) (str n : ℕ) (fmt : List Char) : Option (Mem × ℤ) :=
  if INT_MAX < n then some (a.mem, -1)
  else
    let f := if 0 < n then stropenw a.mem str (n - 1 : ℕ) else stropenw a.mem 0 0
    (doprntTo a d os fuel fmt f).map fun r =>
      (if 0 < n then strclosew r.1 else r.1.mem, r.2)

end DjgppLibc.DoprntLoop
