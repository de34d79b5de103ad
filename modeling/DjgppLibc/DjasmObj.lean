import Mathlib.Data.BitVec
import Mathlib.Tactic.Abel
import DjgppLibc.X86Addressing

/-!
# The object files of `djasm` (`djasm.y`)

An object file is a sequence of records: a type, the length of what follows, the
contents and a checksum. The writers leave two bytes for the length, count what they
write, and go back in the file to store it, while the checksum runs along.
`writeObj_records` reads the file again.
-/
namespace DjgppLibc.Djasm

open X86

/-- The file, its position, and the variable `checksum` of a writer. -/
structure Out where
  data : List Byte
  pos : ℕ
  checksum : Byte

abbrev Writer := StateM Out

def fputc (b : Byte) : Writer Unit :=
  modify fun s => { s with data := s.data.take s.pos ++ b :: s.data.drop (s.pos + 1),
                           pos := s.pos + 1 }

def ftell : Writer ℕ := return (← get).pos

def fseek (pos : ℕ) : Writer Unit := modify fun s => { s with pos := pos }

/-- `unsigned char checksum=0` -/
def newChecksum : Writer Unit := modify fun s => { s with checksum := 0 }

def writeBYTE (byte : Byte) : Writer ℕ := do
  fputc byte
  modify fun s => { s with checksum := s.checksum - byte }
  return 1

def writeWORD (word : BitVec 16) : Writer ℕ := do
  let lo ← writeBYTE (word.setWidth 8)
  let hi ← writeBYTE ((word >>> 8).setWidth 8)
  return lo + hi

/-- `while (len--) length+=write_BYTE(*str++,outfile,checksum)` -/
def writeBytes : List Byte → ℕ → Writer ℕ
  | [], length => return length
  | b :: str, length => do
      let n ← writeBYTE b
      writeBytes str (length + n)

def nameLength (str : List Byte) : ℕ := if str.length > 254 then 254 else str.length

def writeSTRING (str : List Byte) : Writer ℕ := do
  let length ← writeBYTE (BitVec.ofNat 8 (nameLength str))
  writeBytes (str.take (nameLength str)) length

def writeINDEX (index : ℕ) : Writer ℕ :=
  if index > 127 then writeWORD (BitVec.ofNat 16 (index + 0x8000))
  else writeBYTE (BitVec.ofNat 8 index)

/-- The type of a record and the space for its length, where the writers begin one. -/
def startRecord (type : Byte) : Writer ℕ := do
  let _ ← writeBYTE type
  let lenptr ← ftell
  let _ ← writeWORD 0
  return lenptr

def finishRecord (lenptr length : ℕ) : Writer Unit := do
  let cptr ← ftell
  fseek lenptr
  let _ ← writeWORD (BitVec.ofNat 16 (length + 1))
  fseek cptr
  let _ ← writeBYTE (← get).checksum

def writeTHEADR (inname : List Byte) : Writer Unit := do
  newChecksum
  let lptr ← startRecord 0x80
  let length ← writeSTRING inname
  finishRecord lptr length

/-- The loop of `write_LNAMES` and `write_EXTDEF`. -/
def writeNames : List (List Byte) → Bool → ℕ → ℕ → Writer Unit
  | [], written, length, lenptr => if written then finishRecord lenptr length else pure ()
  | name :: names, written, length, lenptr => do
      let (written, length) ←
        if length + nameLength name > 1020 then do
          finishRecord lenptr length
          pure (false, 0)
        else pure (written, length)
      let lenptr ← if written then pure lenptr else startRecord 0x96
      let n ← writeSTRING name
      writeNames names true (length + n) lenptr

def writeLNAMES (names : List (List Byte)) : Writer Unit := do
  newChecksum
  writeNames names false 0 0

def writeSEGDEF (size : ℤ) (name cls overlay : ℕ) : Writer Unit := do
  newChecksum
  let _ ← writeBYTE 0x98
  let _ ← writeWORD (BitVec.ofNat 16 (7 + (if name > 127 then 1 else 0) + (if cls > 127 then 1 else 0) +
    (if overlay > 127 then 1 else 0)))
  let _ ← writeBYTE (0x48 ||| if size = 0x1000 then 2 else 0)
  let _ ← writeWORD (BitVec.ofInt 16 size)
  let _ ← writeINDEX name
  let _ ← writeINDEX cls
  let _ ← writeINDEX overlay
  let _ ← writeBYTE (← get).checksum

structure ObjSymbol where
  name : List Byte
  value : ℤ
  defined : Bool
  external : Bool
  isPublic : Bool
  isAbs : Bool

def writeEXTDEF (symtab : List ObjSymbol) : Writer Unit := do
  newChecksum
  writeNames ((symtab.filter (·.external)).map (·.name)) false 0 0

/-- The body of the loop of `write_PUBDEF`; the last index is not counted. -/
def writePublic (sym : ObjSymbol) (bssStart : ℤ) : Writer Unit := do
  let lenptr ← startRecord 0x96
  let group ← writeINDEX 0
  let length ←
    if sym.isAbs then do
      let index ← writeINDEX 0
      let word ← writeWORD 0
      let str ← writeSTRING sym.name
      pure (index + word + str)
    else do
      let index ← writeINDEX (if sym.value ≥ bssStart then 5 else 4)
      let str ← writeSTRING sym.name
      let word ← writeWORD (BitVec.ofInt 16 (if sym.value ≥ bssStart then sym.value - bssStart
        else sym.value))
      pure (index + str + word)
  let _ ← writeINDEX 0
  finishRecord lenptr (group + length)

def publics : List ObjSymbol → ℤ → Writer Unit
  | [], _ => pure ()
  | sym :: symtab, bssStart => do
      if sym.isPublic && sym.defined then writePublic sym bssStart
      publics symtab bssStart

def writePUBDEF (symtab : List ObjSymbol) (bssStart : ℤ) : Writer Unit := do
  newChecksum
  publics symtab bssStart

/-- The loop of `write_LEDATA` over the rest of `outbin`. -/
def ledataLoop (segment offset : ℕ) (outbin : List Byte) : Writer Unit :=
  if _h : outbin = [] then pure ()
  else do
    let maxlen := 1020 - if segment > 127 then 1 else 0
    let len := if outbin.length > maxlen then maxlen else outbin.length
    let lenptr ← startRecord 0xa0
    let index ← writeINDEX segment
    let word ← writeWORD (BitVec.ofNat 16 offset)
    let length ← writeBytes (outbin.take len) (index + word)
    finishRecord lenptr length
    ledataLoop segment (offset + len) (outbin.drop len)
termination_by outbin.length
decreasing_by
  have := List.length_pos_of_ne_nil _h
  rw [List.length_drop]
  split_ifs <;> omega

def writeLEDATA (segment : ℕ) (outbin : List Byte) : Writer Unit := do
  newChecksum
  ledataLoop segment 0 outbin

def writeMODEND (mainObj : Bool) (startPtr : ℤ) : Writer Unit := do
  newChecksum
  let _ ← writeBYTE 0x8a
  if mainObj then
    let _ ← writeWORD 6
    let _ ← writeBYTE 0xc1
    let _ ← writeBYTE 0x50
    let _ ← writeINDEX 1
    let _ ← writeWORD (BitVec.ofInt 16 startPtr)
  else
    let _ ← writeWORD 2
    let _ ← writeBYTE 1
  let _ ← writeBYTE (← get).checksum

def literal (s : String) : List Byte := s.toList.map fun c => BitVec.ofNat 8 c.toNat

/-- The case `OUT_obj` of `main`, with `outbin` up to `bsspc`. -/
def writeObj (inname outbin : List Byte) (pc : ℤ) (symtab : List ObjSymbol) (mainObj : Bool)
    (startPtr : ℤ) : Writer Unit := do
  writeTHEADR inname
  writeLNAMES [literal "", literal "CODE", literal "BSS", literal "TEXT", literal "DATA"]
  writeSEGDEF outbin.length 4 2 1
  writeSEGDEF (pc - outbin.length) 5 3 1
  writeEXTDEF symtab
  writePUBDEF symtab outbin.length
  writeLEDATA 1 outbin
  writeMODEND mainObj startPtr

def objFile (inname outbin : List Byte) (pc : ℤ) (symtab : List ObjSymbol) (mainObj : Bool)
    (startPtr : ℤ) : List Byte :=
  (writeObj inname outbin pc symtab mainObj startPtr ⟨[], 0, 0⟩).2.data

/-- A record; its length is that of the contents, the checksum among them. -/
structure Record where
  type : Byte
  contents : List Byte
deriving DecidableEq

def Record.bytes (r : Record) : List Byte :=
  r.type :: BitVec.ofNat 8 r.contents.length :: BitVec.ofNat 8
    (r.contents.length / 256) :: r.contents

def parseRecords : List Byte → Option (List Record)
  | [] => some []
  | type :: lo :: hi :: rest =>
      let length := lo.toNat + 256 * hi.toNat
      if length ≤ rest.length then
        (parseRecords (rest.drop length)).map (⟨type, rest.take length⟩ :: ·)
      else none
  | _ => none
termination_by bytes => bytes.length
decreasing_by
  simp only [List.length_drop, List.length_cons]
  omega

/-- The segment, the offset and the data of an `LEDATA` record. -/
def Record.ledata (r : Record) : Option (ℕ × ℕ × List Byte) :=
  if r.type = 0xa0 then
    match r.contents with
    | index :: rest =>
        let (segment, rest) := match rest with
          | low :: rest' =>
              if index.msb then ((index.toNat - 128) * 256 + low.toNat, rest')
                else (index.toNat, rest)
          | [] => (index.toNat, [])
        match rest with
        | lo :: hi :: data => some (segment, lo.toNat + 256 * hi.toNat, data.dropLast)
        | _ => none
    | [] => none
  else none

def Record.placed (r : Record) : List (ℕ × Byte × ℕ) :=
  match r.ledata with
  | some (segment, offset, data) => (data.zipIdx offset).map (segment, ·)
  | none => []

def Record.Checked (r : Record) : Prop := (r.bytes.map (·.toNat)).sum % 256 = 0

theorem toNat_word {n : ℕ} (h : n < 65536) :
    (BitVec.ofNat 8 n).toNat + 256 * (BitVec.ofNat 8 (n / 256)).toNat = n := by
  simp only [BitVec.toNat_ofNat]
  omega

theorem parseRecords_bytes {r : Record} (h : r.contents.length < 65536) (rest : List Byte) :
    parseRecords (r.bytes ++ rest) = (parseRecords rest).map (r :: ·) := by
  rw [Record.bytes, List.cons_append, List.cons_append, List.cons_append, parseRecords]
  simp only [toNat_word h]
  rw [if_pos (by simp), List.drop_left, List.take_left]

theorem parseRecords_flatMap {rs : List Record} (h : ∀ r ∈ rs, r.contents.length < 65536) :
    parseRecords (rs.flatMap Record.bytes) = some rs := by
  induction rs with
  | nil => simp [parseRecords]
  | cons r rs ih =>
    rw [List.flatMap_cons, parseRecords_bytes (h r (by simp)), ih fun x hx => h x (by simp [hx])]
    rfl

def byteSum (l : List Byte) : Byte := l.foldr (· + ·) 0

@[simp]
theorem byteSum_nil : byteSum [] = 0 := rfl

@[simp]
theorem byteSum_cons (b : Byte) (l : List Byte) : byteSum (b :: l) = b + byteSum l := rfl

@[simp]
theorem byteSum_append (l l' : List Byte) : byteSum (l ++ l') = byteSum l + byteSum l' := by
  induction l with
  | nil => simp
  | cons b l ih => simp [ih, add_assoc]

theorem toNat_byteSum (l : List Byte) : (byteSum l).toNat = (l.map (·.toNat)).sum % 256 := by
  induction l with
  | nil => rfl
  | cons b l ih => simp [BitVec.toNat_add, ih]

def Out.grow (s : Out) (l : List Byte) : Out :=
  ⟨s.data ++ l, (s.data ++ l).length, s.checksum - byteSum l⟩

def Out.AtEnd (s : Out) : Prop := s.pos = s.data.length

variable {α : Type} {s : Out}

/-- A part of a writer that appends the bytes `l` and returns `a`. -/
def Appends (w : Writer α) (a : α) (l : List Byte) : Prop :=
    ∀ s : Out, s.AtEnd → w s = (a, s.grow l)

theorem grow_atEnd (s : Out) (l : List Byte) : (s.grow l).AtEnd := rfl

theorem grow_grow (s : Out) (l l' : List Byte) : (s.grow l).grow l' = s.grow (l ++ l') := by
  simp [Out.grow, sub_sub]

theorem Appends.bind {β : Type} {w : Writer α} {a : α} {l l' : List Byte} {f : α → Writer β} {b : β}
    (h : Appends w a l) (h' : Appends (f a) b l') : Appends (w >>= f) b (l ++ l') := by
  intro s hs
  show f (w s).1 (w s).2 = _
  rw [h s hs, h' _ (grow_atEnd s l), grow_grow]

theorem Appends.seq {β : Type} {w : Writer α} {w' : Writer β} {a : α} {b : β} {l l' : List Byte}
    (h : Appends w a l) (h' : Appends w' b l') : Appends (do let _ ← w; w') b (l ++ l') :=
  Appends.bind h h'

theorem Appends.pure (a : α) : Appends (Pure.pure a) a [] := by
  intro s hs
  show (a, s) = _
  obtain ⟨data, pos, checksum⟩ := s
  have hp : pos = data.length := hs
  simp [Out.grow, hp]

theorem writeBYTE_appends (b : Byte) : Appends (writeBYTE b) 1 [b] := by
  intro s hs
  have hp : s.pos = s.data.length := hs
  show (1, _) = _
  simp [Out.grow, hp]

def wordBytes (w : BitVec 16) : List Byte := [w.setWidth 8, (w >>> 8).setWidth 8]

theorem writeWORD_appends (w : BitVec 16) : Appends (writeWORD w) 2 (wordBytes w) :=
  (writeBYTE_appends _).bind ((writeBYTE_appends _).bind (.pure _))

theorem writeBytes_appends (l : List Byte) (n : ℕ) : Appends (writeBytes l n) (n + l.length) l := by
  induction l generalizing n with
  | nil => exact .pure n
  | cons b l ih =>
    rw [List.length_cons, show n + (l.length + 1) = n + 1 + l.length by omega]
    exact Appends.bind (writeBYTE_appends b) (ih (n + 1))

def stringBytes (str : List Byte) : List Byte :=
  BitVec.ofNat 8 (nameLength str) :: str.take (nameLength str)

theorem nameLength_le (str : List Byte) : nameLength str ≤ 254 ∧ nameLength str ≤ str.length := by
  unfold nameLength
  split <;> omega

theorem length_stringBytes (str : List Byte) : (stringBytes str).length = 1 + nameLength str := by
  have := nameLength_le str
  simp only [stringBytes, List.length_cons, List.length_take]
  omega

theorem writeSTRING_appends (str : List Byte) :
    Appends (writeSTRING str) (stringBytes str).length (stringBytes str) := by
  have h := (writeBYTE_appends (BitVec.ofNat 8 (nameLength str))).bind
    (writeBytes_appends (str.take (nameLength str)) 1)
  rw [show (stringBytes str).length = 1 + (str.take (nameLength str)).length by
    simp [stringBytes, Nat.add_comm]]
  exact h

def indexBytes (index : ℕ) : List Byte :=
  if index > 127 then wordBytes (BitVec.ofNat 16 (index + 0x8000)) else [BitVec.ofNat 8 index]

theorem writeINDEX_appends (index : ℕ) :
    Appends (writeINDEX index) (indexBytes index).length (indexBytes index) := by
  unfold writeINDEX indexBytes
  split
  · exact writeWORD_appends _
  · exact writeBYTE_appends _

/-- The record with a type and some bytes, which `finish_record` completes. -/
def recordOf (type : Byte) (l : List Byte) : Record :=
  ⟨type, l ++ [0 - byteSum (type :: wordBytes (BitVec.ofNat 16 (l.length + 1)) ++ l)]⟩

theorem wordBytes_ofNat {n : ℕ} (h : n < 65536) :
    wordBytes (BitVec.ofNat 16 n) = [BitVec.ofNat 8 n, BitVec.ofNat 8 (n / 256)] := by
  have hlo : (BitVec.ofNat 16 n).setWidth 8 = BitVec.ofNat 8 n := by
    apply BitVec.eq_of_toNat_eq
    simp only [BitVec.toNat_setWidth, BitVec.toNat_ofNat]
    omega
  have hhi : (BitVec.ofNat 16 n >>> 8).setWidth 8 = BitVec.ofNat 8 (n / 256) := by
    apply BitVec.eq_of_toNat_eq
    simp only [BitVec.toNat_setWidth, BitVec.toNat_ushiftRight, BitVec.toNat_ofNat,
      Nat.shiftRight_eq_div_pow]
    omega
  rw [wordBytes, hlo, hhi]

theorem bytes_recordOf (type : Byte) {l : List Byte} (h : l.length + 1 < 65536) :
    (recordOf type l).bytes = type :: wordBytes (BitVec.ofNat 16 (l.length + 1)) ++ l ++
      [0 - byteSum (type :: wordBytes (BitVec.ofNat 16 (l.length + 1)) ++ l)] := by
  have hlen : (recordOf type l).contents.length = l.length + 1 := by simp [recordOf]
  rw [Record.bytes, hlen, wordBytes_ofNat h, recordOf, wordBytes_ofNat h]
  rfl

theorem byteSum_recordOf (type : Byte) {l : List Byte} (h : l.length + 1 < 65536) :
    byteSum (recordOf type l).bytes = 0 := by
  rw [bytes_recordOf type h, byteSum_append, byteSum_cons, byteSum_nil]
  abel

theorem startRecord_run (type : Byte) (hs : s.AtEnd) :
    startRecord type s = (s.data.length + 1, s.grow [type, 0, 0]) := by
  show ((writeBYTE type s).2.pos, (writeWORD 0 (writeBYTE type s).2).2) = _
  rw [writeBYTE_appends type s hs, writeWORD_appends 0 _ (grow_atEnd s _), grow_grow,
    show wordBytes 0 = [0, 0] from rfl]
  simp [Out.grow]

/-- A byte inside of the file. -/
theorem writeBYTE_inside (b x : Byte) (l l' : List Byte) (c : Byte) :
    writeBYTE b ⟨l ++ x :: l', l.length, c⟩ = (1, ⟨l ++ b :: l', l.length + 1, c - b⟩) := by
  show (1, (⟨List.take l.length (l ++ x :: l') ++ b :: List.drop (l.length + 1) (l ++ x :: l'),
    l.length + 1, c - b⟩ : Out)) = _
  simp

theorem writeWORD_eq (w : BitVec 16) (s : Out) :
    writeWORD w s = (2, (writeBYTE ((w >>> 8).setWidth 8) (writeBYTE (w.setWidth 8) s).2).2) := rfl

theorem writeWORD_inside (w : BitVec 16) (x y : Byte) (l l' : List Byte) (c : Byte) :
    writeWORD w ⟨l ++ x :: y :: l', l.length, c⟩ =
      (2, ⟨l ++ (wordBytes w ++ l'), l.length + 2, c - byteSum (wordBytes w)⟩) := by
  have hlo := writeBYTE_inside (w.setWidth 8) x l (y :: l') c
  have hhi := writeBYTE_inside ((w >>> 8).setWidth 8) y (l ++ [w.setWidth 8]) l' (c - w.setWidth 8)
  simp only [List.append_assoc, List.singleton_append, List.length_append,
    List.length_singleton] at hhi
  rw [writeWORD_eq, hlo, hhi]
  simp [wordBytes, sub_sub]

theorem finishRecord_eq (lenptr length : ℕ) (s t : Out)
    (h : (writeWORD (BitVec.ofNat 16 (length + 1)) { s with pos := lenptr }).2 = t) :
    finishRecord lenptr length s = ((), (writeBYTE t.checksum { t with pos := s.pos }).2) := by
  subst h
  rfl

theorem finishRecord_run {type : Byte} {l : List Byte} (hc : s.checksum = 0)
    (h : l.length + 1 < 65536) :
    finishRecord (s.data.length + 1) l.length (s.grow (type :: 0 :: 0 :: l)) =
      ((), s.grow (recordOf type l).bytes) := by
  have hword := writeWORD_inside (BitVec.ofNat 16 (l.length + 1)) 0 0 (s.data ++ [type]) l
    (s.checksum - byteSum (type :: 0 :: 0 :: l))
  simp only [List.append_assoc, List.singleton_append, List.length_append,
    List.length_singleton] at hword
  have hlen : (type :: wordBytes (BitVec.ofNat 16 (l.length + 1)) ++ l).length =
      (type :: 0 :: 0 :: l).length := by simp [wordBytes]
  have hsum : s.checksum - byteSum (type :: 0 :: 0 :: l) - byteSum
    (wordBytes (BitVec.ofNat 16 (l.length + 1))) =
      s.checksum - byteSum (type :: wordBytes (BitVec.ofNat 16 (l.length + 1)) ++ l) := by
    rw [byteSum_append]
    simp only [byteSum_cons]
    rw [show (0 : Byte) + (0 + byteSum l) = byteSum l by abel]
    abel
  let s' := s.grow (type :: wordBytes (BitVec.ofNat 16 (l.length + 1)) ++ l)
  have hrun : finishRecord (s.data.length + 1) l.length (s.grow (type :: 0 :: 0 :: l)) =
      ((), (writeBYTE s'.checksum s').2) := by
    rw [finishRecord_eq _ _ _ _ (congrArg Prod.snd hword)]
    simp only [hsum, s', Out.grow, List.length_append, hlen]
    rfl
  rw [hrun, writeBYTE_appends _ s' (grow_atEnd _ _), grow_grow, bytes_recordOf type h]
  simp only [s', Out.grow, hc]

/-- What holds of every record of a file. -/
def Record.Good (r : Record) : Prop := byteSum r.bytes = 0 ∧ r.contents.length ≤ 1024

/-- A writer that appends records, and leaves the checksum zero. -/
structure WritesRecords (w : Writer Unit) (rs : List Record) : Prop where
  good : ∀ r ∈ rs, r.Good
  run : ∀ s : Out, s.AtEnd → s.checksum = 0 → w s = ((), s.grow (rs.flatMap Record.bytes))

theorem byteSum_flatMap {rs : List Record} (h : ∀ r ∈ rs, r.Good) :
    byteSum (rs.flatMap Record.bytes) = 0 := by
  induction rs with
  | nil => rfl
  | cons r rs ih =>
    rw [List.flatMap_cons, byteSum_append, (h r (by simp)).1, ih fun x hx => h x (by simp [hx])]
    rfl

theorem checksum_grow {l : List Byte} (hc : s.checksum = 0) (h : byteSum l = 0) :
    (s.grow l).checksum = 0 := by
  rw [Out.grow, hc, h]
  rfl

theorem WritesRecords.nil : WritesRecords (pure ()) [] where
  good := by simp
  run s hs _ := Appends.pure () s hs

theorem WritesRecords.bind {w w' : Writer Unit} {rs rs' : List Record} (h : WritesRecords w rs)
    (h' : WritesRecords w' rs') : WritesRecords (do w; w') (rs ++ rs') where
  good r hr := (List.mem_append.1 hr).elim (h.good r) (h'.good r)
  run s hs hc := by
    show w' (w s).2 = _
    rw [h.run s hs hc, h'.run _ (grow_atEnd s _) (checksum_grow hc (byteSum_flatMap h.good)),
      grow_grow,
      List.flatMap_append]

/-- The variable is zero in any case. -/
theorem WritesRecords.newChecksum {w : Writer Unit} {rs : List Record} (h : WritesRecords w rs) :
    WritesRecords (do Djasm.newChecksum; w) rs where
  good := h.good
  run s hs hc := by
    have : (Djasm.newChecksum s).2 = s := by
      obtain ⟨data, pos, checksum⟩ := s
      have h0 : checksum = 0 := hc
      subst h0
      rfl
    show w (Djasm.newChecksum s).2 = _
    rw [this, h.run s hs hc]

theorem good_recordOf (type : Byte) {l : List Byte} (h : l.length ≤ 1023) :
    (recordOf type l).Good :=
  ⟨byteSum_recordOf type (by omega), by simp [recordOf]; omega⟩

theorem writesRecords_record (type : Byte) {body : Writer ℕ} {l : List Byte}
    (h : Appends body l.length l)
    (hl : l.length ≤ 1023) :
    WritesRecords (do let lenptr ← startRecord type; let length ← body; finishRecord lenptr length)
      [recordOf type l] where
  good r hr := by
    rw [List.mem_singleton.1 hr]
    exact good_recordOf type hl
  run s hs hc := by
    show finishRecord (startRecord type s).1 (body (startRecord type s).2).1
      (body (startRecord type s).2).2 = _
    rw [startRecord_run type hs, h _ (grow_atEnd s _), grow_grow]
    simpa using finishRecord_run hc (by omega)

theorem writesRecords_fixed (type : Byte) {w : Writer ℕ} {n : ℕ} {l : List Byte}
    (h : Appends w n (type :: wordBytes (BitVec.ofNat 16 (l.length + 1)) ++ l))
    (hl : l.length ≤ 1023) :
    WritesRecords (do let _ ← w; let _ ← writeBYTE (← get).checksum) [recordOf type l] where
  good r hr := by
    rw [List.mem_singleton.1 hr]
    exact good_recordOf type hl
  run s hs hc := by
    show ((), (writeBYTE (w s).2.checksum (w s).2).2) = _
    rw [h s hs, writeBYTE_appends _ _ (grow_atEnd s _), grow_grow, List.flatMap_singleton,
      bytes_recordOf type (by omega)]
    simp only [Out.grow, hc]

theorem writeTHEADR_records (inname : List Byte) :
    WritesRecords (writeTHEADR inname) [recordOf 0x80 (stringBytes inname)] := by
  have := nameLength_le inname
  refine .newChecksum (writesRecords_record 0x80 (writeSTRING_appends inname) ?_)
  rw [length_stringBytes]
  omega

theorem length_indexBytes (index : ℕ) : (indexBytes index).length =
    1 + if index > 127 then 1 else 0 := by
  unfold indexBytes
  split <;> rfl

theorem writeSEGDEF_records (size : ℤ) (name cls overlay : ℕ) :
    ∃ l, WritesRecords (writeSEGDEF size name cls overlay) [recordOf 0x98 l] := by
  let l := [0x48 ||| if size = 0x1000 then 2 else 0] ++ (wordBytes (BitVec.ofInt 16 size) ++
    (indexBytes name ++ (indexBytes cls ++ indexBytes overlay)))
  have hlen : 7 + (if name > 127 then 1 else 0) + (if cls > 127 then 1 else 0) +
      (if overlay > 127 then 1 else 0) = l.length + 1 := by
    simp only [l, List.length_append, length_indexBytes, wordBytes, List.length_cons,
      List.length_nil]
    omega
  have hle : l.length ≤ 1023 := by
    split_ifs at hlen <;> omega
  have hbody := (writeBYTE_appends 0x98).seq <| (writeWORD_appends
    (BitVec.ofNat 16 (l.length + 1))).seq <|
    (writeBYTE_appends (0x48 ||| if size = 0x1000 then 2 else 0)).seq <|
    (writeWORD_appends (BitVec.ofInt 16 size)).seq <| (writeINDEX_appends name).seq <|
    (writeINDEX_appends cls).seq (writeINDEX_appends overlay)
  have h := (writesRecords_fixed 0x98 hbody hle).newChecksum
  rw [← hlen] at h
  exact ⟨l, h⟩

theorem writeMODEND_records (mainObj : Bool) (startPtr : ℤ) :
    ∃ l, WritesRecords (writeMODEND mainObj startPtr) [recordOf 0x8a l] := by
  cases mainObj with
  | true =>
    let l : List Byte := [0xc1] ++ ([0x50] ++ (indexBytes 1 ++ wordBytes
      (BitVec.ofInt 16 startPtr)))
    have hlen : l.length + 1 = 6 := rfl
    have hbody := (writeBYTE_appends 0x8a).seq <| (writeWORD_appends
      (BitVec.ofNat 16 (l.length + 1))).seq <|
      (writeBYTE_appends 0xc1).seq <| (writeBYTE_appends 0x50).seq <| (writeINDEX_appends 1).seq
      (writeWORD_appends (BitVec.ofInt 16 startPtr))
    have h := (writesRecords_fixed 0x8a hbody (by omega)).newChecksum
    rw [hlen] at h
    exact ⟨l, h⟩
  | false =>
    let l : List Byte := [1]
    have hlen : l.length + 1 = 2 := rfl
    have hbody := (writeBYTE_appends 0x8a).seq <| (writeWORD_appends
      (BitVec.ofNat 16 (l.length + 1))).seq
      (writeBYTE_appends 1)
    have h := (writesRecords_fixed 0x8a hbody (by omega)).newChecksum
    rw [hlen] at h
    exact ⟨l, h⟩

theorem writeNames_records (names : List (List Byte)) :
    (∃ rs : List Record, (∀ r ∈ rs, r.type = 0x96) ∧ ∀ lenptr,
      WritesRecords (writeNames names false 0 lenptr) rs) ∧
      ∀ l : List Byte, l.length ≤ 1021 → ∃ rs : List Record, (∀ r ∈ rs, r.type = 0x96 ∧ r.Good) ∧
        ∀ s : Out, s.AtEnd → s.checksum = 0 →
          writeNames names true l.length (s.data.length + 1) (s.grow (0x96 :: 0 :: 0 :: l)) =
            ((), s.grow (rs.flatMap Record.bytes)) := by
  induction names with
  | nil =>
    refine ⟨⟨[], by simp, fun _ => .nil⟩, fun l hl => ⟨[recordOf 0x96 l], ?_, fun s hs hc => ?_⟩⟩
    · simp only [List.mem_singleton, forall_eq]
      exact ⟨rfl, good_recordOf _ (by omega)⟩
    · rw [writeNames, if_pos rfl, List.flatMap_singleton]
      exact finishRecord_run hc (by omega)
  | cons name names ih =>
    have hname := nameLength_le name
    have hstr := length_stringBytes name
    obtain ⟨-, ih⟩ := ih
    -- a record that begins with this name
    obtain ⟨rs, hrs, hrun⟩ := ih (stringBytes name) (by omega)
    have hfirst (s : Out) (hs : s.AtEnd) (hc : s.checksum = 0) :
        (do
          let lenptr ← startRecord 0x96
          let n ← writeSTRING name
          writeNames names true (0 + n) lenptr) s =
          ((), s.grow (rs.flatMap Record.bytes)) := by
      show writeNames names true (0 + (writeSTRING name (startRecord 0x96 s).2).1)
        (startRecord 0x96 s).1
        (writeSTRING name (startRecord 0x96 s).2).2 = _
      rw [startRecord_run 0x96 hs, writeSTRING_appends name _ (grow_atEnd s _), grow_grow,
        Nat.zero_add]
      exact hrun s hs hc
    constructor
    · refine ⟨rs, fun r hr => (hrs r hr).1, fun lenptr => ⟨fun r hr => (hrs r hr).2,
        fun s hs hc => ?_⟩⟩
      rw [writeNames, if_neg (by omega)]
      exact hfirst s hs hc
    · intro l hl
      by_cases hover : l.length + nameLength name > 1020
      · refine ⟨recordOf 0x96 l :: rs, ?_, fun s hs hc => ?_⟩
        · simp only [List.mem_cons, forall_eq_or_imp]
          exact ⟨⟨rfl, good_recordOf _ (by omega)⟩, hrs⟩
        · rw [writeNames, if_pos hover]
          have hsum := byteSum_recordOf 0x96 (l := l) (by omega)
          have h := hfirst (s.grow (recordOf 0x96 l).bytes) (grow_atEnd s _) (checksum_grow hc hsum)
          have hfin : finishRecord (s.data.length + 1) l.length (s.grow (0x96 :: 0 :: 0 :: l)) =
              ((), s.grow (recordOf 0x96 l).bytes) := finishRecord_run hc (by omega)
          rw [grow_grow, ← List.flatMap_cons] at h
          show (do
            let lenptr ← startRecord 0x96
            let n ← writeSTRING name
            writeNames names true (0 + n) lenptr)
            (finishRecord (s.data.length + 1) l.length (s.grow (0x96 :: 0 :: 0 :: l))).2 = _
          rw [hfin]
          exact h
      · obtain ⟨rs', hrs', hrun'⟩ := ih (l ++ stringBytes name) (by rw [List.length_append]; omega)
        refine ⟨rs', hrs', fun s hs hc => ?_⟩
        rw [writeNames, if_neg hover]
        show writeNames names true (l.length + (writeSTRING name (s.grow (0x96 :: 0 :: 0 :: l))).1)
          (s.data.length + 1) (writeSTRING name (s.grow (0x96 :: 0 :: 0 :: l))).2 = _
        rw [writeSTRING_appends name _ (grow_atEnd s _), grow_grow, ← List.length_append]
        exact hrun' s hs hc

theorem placed_recordOf {segment offset : ℕ} (hseg : segment ≤ 127) (hoff : offset < 65536)
    (data : List Byte) :
    (recordOf 0xa0 (indexBytes segment ++ (wordBytes (BitVec.ofNat 16 offset) ++ data))).placed =
      (data.zipIdx offset).map (segment, ·) := by
  have hmsb : (BitVec.ofNat 8 segment).msb = false := by
    rw [BitVec.msb_eq_decide, BitVec.toNat_ofNat]
    exact decide_eq_false (by omega)
  have hnat : (BitVec.ofNat 8 segment).toNat = segment := by
    rw [BitVec.toNat_ofNat]
    omega
  have hword := toNat_word hoff
  simp only [BitVec.toNat_ofNat] at hword
  simp only [Record.placed, Record.ledata, recordOf, wordBytes_ofNat hoff, indexBytes,
    if_neg (Nat.not_lt.2 hseg),
    List.cons_append, List.nil_append, hmsb, hnat]
  simp [hword]

theorem placed_of_type {r : Record} (h : r.type ≠ 0xa0) : r.placed = [] := by
  rw [Record.placed, Record.ledata, if_neg h]

theorem ledataLoop_records (segment : ℕ) (hseg : segment ≤ 127) (offset : ℕ) (outbin : List Byte)
    (h : offset + outbin.length ≤ 65536) :
    ∃ rs, WritesRecords (ledataLoop segment offset outbin) rs ∧
      rs.flatMap Record.placed = (outbin.zipIdx offset).map (segment, ·) := by
  induction hn : outbin.length using Nat.strong_induction_on generalizing offset outbin with
  | h n ih =>
    by_cases hnil : outbin = []
    · subst hnil
      rw [ledataLoop, dif_pos rfl]
      exact ⟨[], .nil, rfl⟩
    · have hpos := List.length_pos_of_ne_nil hnil
      obtain ⟨len, hlen⟩ : ∃ len, len = if outbin.length > 1020 - (if segment > 127 then 1 else 0)
        then
          1020 - (if segment > 127 then 1 else 0) else outbin.length := ⟨_, rfl⟩
      rw [if_neg (Nat.not_lt.2 hseg)] at hlen
      have hle : 0 < len ∧ len ≤ 1020 ∧ len ≤ outbin.length := by
        split at hlen <;> omega
      let l := indexBytes segment ++ (wordBytes (BitVec.ofNat 16 offset) ++ outbin.take len)
      have hindex : (indexBytes segment).length = 1 := by
        rw [length_indexBytes, if_neg (Nat.not_lt.2 hseg)]
      have hl : l.length = (indexBytes segment).length + 2 + (outbin.take len).length := by
        simp only [l, List.length_append, wordBytes, List.length_cons, List.length_nil]
        omega
      have hbody : Appends (do
          let index ← writeINDEX segment
          let word ← writeWORD (BitVec.ofNat 16 offset)
          writeBytes (outbin.take len) (index + word)) l.length l := by
        rw [hl]
        exact Appends.bind (writeINDEX_appends segment)
          (Appends.bind (writeWORD_appends _) (writeBytes_appends _ _))
      have hrec := writesRecords_record 0xa0 hbody (by rw [hl, hindex, List.length_take]; omega)
      obtain ⟨rs, hrs, hplaced⟩ := ih (outbin.drop len).length
        (by rw [List.length_drop]; omega) (offset + len)
        (outbin.drop len) (by rw [List.length_drop]; omega) rfl
      refine ⟨recordOf 0xa0 l :: rs, ?_, ?_⟩
      · rw [ledataLoop, dif_neg hnil]
        simp only [if_neg (Nat.not_lt.2 hseg), ← hlen]
        exact hrec.bind hrs
      · rw [List.flatMap_cons, hplaced, placed_recordOf hseg (by omega), ← List.map_append]
        congr 1
        conv_rhs => rw [← List.take_append_drop len outbin, List.zipIdx_append, List.length_take,
          Nat.min_eq_left hle.2.2]

theorem publics_records {symtab : List ObjSymbol} (h : ∀ sym ∈ symtab, sym.isPublic = false)
    (bssStart : ℤ) :
    WritesRecords (publics symtab bssStart) [] := by
  induction symtab with
  | nil => exact .nil
  | cons sym symtab ih =>
    rw [publics, h sym (by simp)]
    exact WritesRecords.nil.bind (ih fun x hx => h x (by simp [hx]))

theorem checked_of_good {r : Record} (h : r.Good) : r.Checked := by
  rw [Record.Checked, ← toNat_byteSum, h.1]
  rfl

theorem WritesRecords.parse {w : Writer Unit} {rs : List Record} (h : WritesRecords w rs) :
    parseRecords (w ⟨[], 0, 0⟩).2.data = some rs ∧ ∀ r ∈ rs, r.Checked ∧ r.bytes.length ≤ 1027 := by
  constructor
  · rw [h.run ⟨[], 0, 0⟩ rfl rfl]
    exact parseRecords_flatMap fun r hr => Nat.lt_of_le_of_lt (h.good r hr).2 (by decide)
  · intro r hr
    have hlen := (h.good r hr).2
    refine ⟨checked_of_good (h.good r hr), ?_⟩
    simp only [Record.bytes, List.length_cons]
    omega

/-- The object file is a sequence of records, each with its length and its checksum, and
the data records place each byte of the image once. -/
theorem writeObj_records (inname outbin : List Byte) (pc : ℤ) (symtab : List ObjSymbol)
    (mainObj : Bool)
    (startPtr : ℤ) (h : outbin.length ≤ 65535)
    (hsym : ∀ sym ∈ symtab, sym.external = false ∧ sym.isPublic = false) :
    ∃ rs, parseRecords (objFile inname outbin pc symtab mainObj startPtr) = some rs ∧
      (∀ r ∈ rs, r.Checked ∧ r.bytes.length ≤ 1027) ∧
      rs.flatMap Record.placed = outbin.zipIdx.map (1, ·) := by
  obtain ⟨l₁, h₁⟩ := writeSEGDEF_records outbin.length 4 2 1
  obtain ⟨l₂, h₂⟩ := writeSEGDEF_records (pc - outbin.length) 5 3 1
  obtain ⟨⟨names, hnames, hlnames⟩, -⟩ := writeNames_records
    [literal "", literal "CODE", literal "BSS", literal "TEXT", literal "DATA"]
  obtain ⟨data, hdata, hplaced⟩ := ledataLoop_records 1 (by omega) 0 outbin (by omega)
  obtain ⟨l₃, h₃⟩ := writeMODEND_records mainObj startPtr
  have hext : WritesRecords (writeEXTDEF symtab) [] := by
    have hnone : symtab.filter (·.external) = [] :=
      List.filter_eq_nil_iff.2 fun sym hm => by simp [(hsym sym hm).1]
    rw [writeEXTDEF, hnone]
    exact WritesRecords.nil.newChecksum
  have hpub : WritesRecords (writePUBDEF symtab outbin.length) [] :=
    (publics_records (fun sym hm => (hsym sym hm).2) _).newChecksum
  have hall := (writeTHEADR_records inname).bind <|
    (hlnames 0).newChecksum.bind <| h₁.bind <| h₂.bind <|
    hext.bind <| hpub.bind <| hdata.newChecksum.bind h₃
  refine ⟨_, hall.parse.1, hall.parse.2, ?_⟩
  · have hnone : names.flatMap Record.placed = [] :=
      List.flatMap_eq_nil_iff.2 fun r hr => placed_of_type (by rw [hnames r hr]; decide)
    simp only [List.flatMap_append, List.flatMap_cons, List.flatMap_nil, hnone, hplaced,
      List.nil_append,
      List.append_nil]
    have hother (type : Byte) (l : List Byte) (ht : type ≠ 0xa0) : (recordOf type l).placed = [] :=
      placed_of_type ht
    rw [hother 0x80 _ (by decide), hother 0x98 _ (by decide), hother 0x98 _ (by decide),
      hother 0x8a _ (by decide)]
    simp

/-- Three bytes and one label. -/
theorem writeObj_three_bytes :
    ∃ rs, parseRecords (objFile (literal "a.asm") [0xb8, 0, 0x4c] 3
        [⟨literal "start", 0, true, false, false, false⟩] true 0) = some rs ∧
      (∀ r ∈ rs, r.Checked ∧ r.bytes.length ≤ 1027) ∧
      rs.flatMap Record.placed = [(1, 0xb8, 0), (1, 0, 1), (1, 0x4c, 2)] :=
  writeObj_records (literal "a.asm") [0xb8, 0, 0x4c] 3 [⟨literal "start", 0, true, false, false,
    false⟩] true 0
    (by decide) (by simp)

end DjgppLibc.Djasm
