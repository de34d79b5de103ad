import DjgppLibc.ByteMemory
import DjgppLibc.Dxe3gen

/-!
# How `dlopen` reads a module file (`libc/dxe/dlopen.c`)

The resident part of the file, which is the table of exported symbols and the section, is read
to one block, and the tables of the dependencies, the unresolved symbols and the relocations
to another one. Each table is found where the one before it ends.

`link` is what `dlopen` does to the section, once it has an address for each of the unresolved
symbols.
-/
namespace DjgppLibc.Dxe

open ByteTables ByteMemory

def readHeader : Reader Header := do
  let magic ← readLe32
  let symbolOffset ← readLe32
  let elementSize ← readLe32
  let nrelocs ← readLe32
  let hdrSize ← readLe32
  let major ← readByte
  let minor ← readByte
  let flags ← readLe16
  let relocTable ← readLe32
  let nExpSyms ← readLe32
  let expTable ← readLe32
  let expSize ← readLe32
  let nDeps ← readLe32
  let depTable ← readLe32
  let depSize ← readLe32
  let nUnresSyms ← readLe32
  let unresTable ← readLe32
  let unresSize ← readLe32
  let secSize ← readLe32
  let secFSize ← readLe32
  let initOffset ← readLe32
  let finiOffset ← readLe32
  return {
    magic, symbolOffset, elementSize, nrelocs, hdrSize, major, minor, flags, relocTable, nExpSyms,
    expTable, expSize, nDeps, depTable, depSize, nUnresSyms, unresTable, unresSize, secSize,
    secFSize, initOffset, finiOffset }

def readExport : Reader Export := do
  let offset ← readLe32
  let name ← readString
  return ⟨offset, name⟩

def readUnres : Reader Unres := do
  let nRel ← readLe16
  let nAbs ← readLe16
  let name ← readString
  let rel ← readMany readLe32 nRel.toNat
  let abs ← readMany readLe32 nAbs.toNat
  return ⟨name, rel, abs⟩

def rounds (n : BitVec 32) : ℕ := n.toInt.toNat

structure Tables where
  deps : List (List UInt8)
  unres : List Unres
  relocs : List (BitVec 32)

def readTables (h : Header) : Reader Tables := do
  let deps ← readMany readString (rounds h.nDeps)
  let unres ← readMany readUnres (rounds h.nUnresSyms)
  let relocs ← readMany readLe32 (rounds h.nrelocs)
  return ⟨deps, unres, relocs⟩

structure Module extends Tables where
  exports : List Export
  /-- The part of the section that is in the file. -/
  data : List UInt8
  secSize : ℕ
  initOffset : BitVec 32
  finiOffset : BitVec 32

def readModule (file : List UInt8) : Option Module := do
  let (h, file) ← readHeader file
  if h.magic ≠ DXE_MAGIC ∨ h.elementSize ≠ 0xffffffff ∨ 1 < h.major.toInt8 then none
  else
    let hdrsize := (h.symbolOffset - .ofNat 32 headerSize).toNat
    let discardsize := (h.depSize + h.unresSize + h.nrelocs * 4).toNat
    let (block, file) ← readBytes (hdrsize + h.secFSize.toNat) file
    let (discardable, _) ← readBytes discardsize file
    let (tables, _) ← readTables h discardable
    let (exports, _) ← readMany readExport (rounds h.nExpSyms) block
    return {
      tables with
      exports
      data := block.drop hdrsize
      secSize := h.secSize.toNat
      initOffset := h.initOffset
      finiOffset := h.finiOffset }

/-- The address of a byte of the section. -/
def fixaddr (base : BitVec 32) (offset : BitVec 32) : ℕ := base.toNat + offset.toNat

/-- `*(long *)fixaddr = offset - (long)fixaddr - sizeof(long)` -/
def setRelative (base target : BitVec 32) (mem : Mem) (offset : BitVec 32) : Mem :=
  store32 mem (fixaddr base offset) (target - .ofNat 32 (fixaddr base offset) - 4).toNat

/-- `*(long *)fixaddr += value` -/
def addTo (base value : BitVec 32) (mem : Mem) (offset : BitVec 32) : Mem :=
  store32 mem (fixaddr base offset) (load32 mem (fixaddr base offset) + value.toNat)

def resolve (base : BitVec 32) (addr : List UInt8 → BitVec 32) (mem : Mem) (u : Unres) : Mem :=
  u.abs.foldl (addTo base (addr u.name)) (u.rel.foldl (setRelative base (addr u.name)) mem)

def Module.load (m : Module) (base : BitVec 32) (mem : Mem) : Mem :=
  fill (putAll mem base.toNat m.data) (base.toNat + m.data.length) (m.secSize - m.data.length) 0

/-- The section at an address; `none` if a symbol has no address. -/
def Module.link (m : Module) (base : BitVec 32) (addr : List UInt8 → BitVec 32) (mem : Mem) :
    Option Mem :=
  if m.unres.any fun u => addr u.name = 0 then none
  else some (m.relocs.foldl (addTo base base) (m.unres.foldl (resolve base addr) (m.load base mem)))

end DjgppLibc.Dxe
