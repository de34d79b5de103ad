import Mathlib.Algebra.GroupWithZero.Nat
import Mathlib.Data.Int.Notation
import DjgppLibc.ByteTables
import DjgppLibc.CStrings

/-!
# The generator of module files (`src/dxe/dxe3gen.c`)

`write_dxe` turns an object file with one section into a module file, here in DXE3 mode. The
names of the symbols have been looked up in the string table, and the extended number of
relocations has been read.

The table of exported symbols grows by 1024 bytes when an entry does not fit. An entry that
does not fit then is stored beyond the end of the table, and nothing is said about a run that
does so.
-/
namespace DjgppLibc.Dxe

open ByteTables CStrings

def ascii (s : String) : List UInt8 := s.toList.map Char.toUInt8

structure Symbol where
  name : CString
  value : BitVec 32
  scnum : BitVec 16
  sclass : UInt8
  numaux : UInt8

structure Reloc where
  vaddr : BitVec 32
  symndx : BitVec 32
  type : BitVec 16
deriving DecidableEq

/-- An object file; its numbers of bytes and of symbols are 32-bit words. -/
structure Obj where
  data : List UInt8
  syms : List Symbol
  relocs : List Reloc
  size_lt : data.length < 2 ^ 32
  nsyms_lt : (syms.map fun sym => 1 + sym.numaux.toNat).sum < 2 ^ 32

structure Options where
  unresolved : Bool
  nomissing : Bool
  names : List CString
  exportPrefixes : List CString
  exclPrefixes : List CString
  deps : List CString
  description : Option CString

def C_EXT : UInt8 := 2

def C_STAT : UInt8 := 3

def RELOC_REL32 : BitVec 16 := 20

def PROCESSED : BitVec 32 := 0xffffffff

def validReloc (r : Reloc) : Bool := r.type ≠ RELOC_REL32 ∧ r.symndx ≠ PROCESSED

inductive Stop
  | exit (code : ℤ)
  | overrun
deriving DecidableEq

def hasOneOf (prefixes : List CString) (name : CString) : Bool :=
  prefixes.any fun p => p.bytes.isPrefixOf name.bytes

local instance instLawfulName : LawfulBEq (List UInt8) := inferInstance

/-- The names that the linker script and the compiler make. -/
def isReserved (name : CString) : Bool :=
  (ascii "__GLOBAL_$").isPrefixOf name.bytes ||
    name.bytes ∈ [ascii "djgpp_first_ctor", ascii "djgpp_last_ctor", ascii "djgpp_first_dtor",
      ascii "djgpp_last_dtor", ascii "___EH_FRAME_BEGIN__", ascii "___EH_FRAME_END__"]

/-- The first of the names that is equal is taken off the list of `export_names`. -/
def takeName (name : CString) : List (Option CString) → Option (List (Option CString))
  | [] => none
  | none :: names => (takeName name names).map (none :: ·)
  | some n :: names =>
      if n = name then some (none :: names) else (takeName name names).map (some n :: ·)

/-- What is left of `export_names` if the symbol is exported. -/
def exportName (opts : Options) (names : List (Option CString)) (name : CString) :
    Option (List (Option CString)) :=
  if isReserved name then none
  else if hasOneOf opts.exclPrefixes name then none
  else if opts.exportPrefixes ≠ [] ∧ !hasOneOf opts.exportPrefixes name then none
  else if opts.names ≠ [] then takeName name names
  else some names

structure Export where
  offset : BitVec 32
  name : List UInt8
deriving DecidableEq

def Export.encode (e : Export) : List UInt8 := le32 e.offset ++ (e.name ++ [0])

structure Unres where
  name : List UInt8
  rel : List (BitVec 32)
  abs : List (BitVec 32)
deriving DecidableEq

def Unres.encode (u : Unres) : List UInt8 :=
  le16 (.ofNat 16 u.rel.length) ++ (le16 (.ofNat 16 u.abs.length) ++
    (u.name ++ [0] ++ (u.rel.flatMap le32 ++ u.abs.flatMap le32)))

def relocsTo (i : ℕ) (relocs : List Reloc) : List Reloc := relocs.filter fun r => r.symndx.toNat = i

/-- The offsets are stored upwards from the name, and downwards from the end of the entry. -/
def unresEntry (name : CString) (refs : List Reloc) : Unres where
  name := name.bytes
  rel := (refs.filter fun r => r.type = RELOC_REL32).map Reloc.vaddr
  abs := ((refs.filter fun r => r.type ≠ RELOC_REL32).map Reloc.vaddr).reverse

def markProcessed (i : ℕ) (relocs : List Reloc) : List Reloc :=
  relocs.map fun r => if r.symndx.toNat = i then { r with symndx := PROCESSED } else r

structure Gen where
  startbss : ℕ
  relocs : List Reloc
  nUnres : ℕ
  unres : List UInt8
  nExp : ℕ
  expsym : List UInt8
  expsymMaxsize : ℕ
  names : List (Option CString)
  initOffset : BitVec 32
  finiOffset : BitVec 32
  errcount : ℕ

def Gen.start (obj : Obj) (opts : Options) : Gen where
  startbss := obj.data.length
  relocs := obj.relocs
  nUnres := 0
  unres := []
  nExp := 0
  expsym := []
  expsymMaxsize := 0
  names := opts.names.map some
  initOffset := 0xffffffff
  finiOffset := 0xffffffff
  errcount := 0

def addUnres (opts : Options) (i : ℕ) (name : CString) (g : Gen) : Except Stop Gen :=
  let u := unresEntry name (relocsTo i g.relocs)
  if u.rel = [] ∧ u.abs = [] then .ok g
  else
    let g := { g with nUnres := g.nUnres + 1 }
    if !opts.unresolved then .ok { g with errcount := g.errcount + 1 }
    else if 0xffff < u.rel.length ∨ 0xffff < u.abs.length then .error (.exit (-4))
    else .ok { g with unres := g.unres ++ u.encode, relocs := markProcessed i g.relocs }

def addExport (e : Export) (g : Gen) : Except Stop Gen :=
  let newsize := g.expsym.length + e.encode.length
  let maxsize := if g.expsymMaxsize < newsize then g.expsymMaxsize + 1024 else g.expsymMaxsize
  if maxsize < newsize then .error .overrun
  else .ok { g with nExp := g.nExp + 1, expsym := g.expsym ++ e.encode, expsymMaxsize := maxsize }

def updateBss (sym : Symbol) (g : Gen) : Gen :=
  if sym.name.bytes = ascii ".bss" ∧ sym.value.toNat < g.startbss then
    { g with startbss := sym.value.toNat }
  else g

def symbolStep (opts : Options) (i : ℕ) (sym : Symbol) (g : Gen) : Except Stop Gen :=
  let g := updateBss sym g
  if sym.name.bytes = [] then .ok g
  else if sym.sclass = C_STAT then .ok g
  else if sym.scnum = 0 then addUnres opts i sym.name g
  else if sym.sclass = C_EXT then
    if sym.name.bytes = ascii "_init" then .ok { g with initOffset := sym.value }
    else if sym.name.bytes = ascii "_fini" then .ok { g with finiOffset := sym.value }
    else
      match exportName opts g.names sym.name with
      | none => .ok g
      | some names => addExport ⟨sym.value, sym.name.bytes⟩ { g with names := names }
  else .ok g

def symbolLoop (opts : Options) : ℕ → List Symbol → Gen → Except Stop Gen
  | _, [], g => .ok g
  | i, sym :: syms, g =>
      match symbolStep opts i sym g with
      | .ok g => symbolLoop opts (i + (1 + sym.numaux.toNat)) syms g
      | .error e => .error e

def DXE_MAGIC : BitVec 32 := 0x31455844

/-- `dxe3_header` -/
structure Header where
  magic : BitVec 32
  symbolOffset : BitVec 32
  elementSize : BitVec 32
  nrelocs : BitVec 32
  hdrSize : BitVec 32
  major : UInt8
  minor : UInt8
  flags : BitVec 16
  relocTable : BitVec 32
  nExpSyms : BitVec 32
  expTable : BitVec 32
  expSize : BitVec 32
  nDeps : BitVec 32
  depTable : BitVec 32
  depSize : BitVec 32
  nUnresSyms : BitVec 32
  unresTable : BitVec 32
  unresSize : BitVec 32
  secSize : BitVec 32
  secFSize : BitVec 32
  initOffset : BitVec 32
  finiOffset : BitVec 32

/-- `sizeof(dxe3_header)` -/
def headerSize : ℕ := 80

def Header.encode (h : Header) : List UInt8 :=
  [le32 h.magic, le32 h.symbolOffset, le32 h.elementSize, le32 h.nrelocs, le32 h.hdrSize,
    [h.major], [h.minor], le16 h.flags, le32 h.relocTable, le32 h.nExpSyms, le32 h.expTable,
    le32 h.expSize, le32 h.nDeps, le32 h.depTable, le32 h.depSize, le32 h.nUnresSyms,
    le32 h.unresTable, le32 h.unresSize, le32 h.secSize, le32 h.secFSize, le32 h.initOffset,
    le32 h.finiOffset].flatten

/-- The number of errors behind the loop, where missing exports replace the errors before. -/
def errcount (opts : Options) (g : Gen) : ℤ :=
  if opts.names ≠ [] ∧ opts.names.length ≠ g.nExp ∧ opts.nomissing then
    (opts.names.length : ℤ) - g.nExp
  else g.errcount

def symbolOffset (g : Gen) : ℕ := (headerSize + g.expsym.length + 15) / 16 * 16

def depTable (opts : Options) : List UInt8 := opts.deps.flatMap fun dep => dep.bytes ++ [0]

def header (obj : Obj) (opts : Options) (g : Gen) : Header where
  magic := DXE_MAGIC
  symbolOffset := .ofNat 32 (symbolOffset g)
  elementSize := 0xffffffff
  nrelocs := .ofNat 32 (g.relocs.filter validReloc).length
  hdrSize := .ofNat 32 headerSize
  major := 1
  minor := 0
  flags := 0
  relocTable := .ofNat 32 (symbolOffset g + g.startbss + (depTable opts).length + g.unres.length)
  nExpSyms := .ofNat 32 g.nExp
  expTable := .ofNat 32 headerSize
  expSize := .ofNat 32 g.expsym.length
  nDeps := .ofNat 32 opts.deps.length
  depTable := .ofNat 32 (symbolOffset g + g.startbss)
  depSize := .ofNat 32 (depTable opts).length
  nUnresSyms := .ofNat 32 g.nUnres
  unresTable := .ofNat 32 (symbolOffset g + g.startbss + (depTable opts).length)
  unresSize := .ofNat 32 g.unres.length
  secSize := .ofNat 32 obj.data.length
  secFSize := .ofNat 32 g.startbss
  initOffset := g.initOffset
  finiOffset := g.finiOffset

def moduleFile (obj : Obj) (opts : Options) (g : Gen) : List UInt8 :=
  [(header obj opts g).encode, g.expsym,
    List.replicate (symbolOffset g - (headerSize + g.expsym.length)) 0, obj.data.take g.startbss,
    depTable opts, g.unres, ((g.relocs.filter validReloc).map Reloc.vaddr).flatMap le32,
    opts.description.elim [] fun text => text.bytes ++ [0]].flatten

/-- `write_dxe` -/
def writeDxe (obj : Obj) (opts : Options) : Except Stop (List UInt8) :=
  match symbolLoop opts 0 obj.syms (.start obj opts) with
  | .error e => .error e
  | .ok g => if errcount opts g ≠ 0 then .error (.exit (-3)) else .ok (moduleFile obj opts g)

end DjgppLibc.Dxe
