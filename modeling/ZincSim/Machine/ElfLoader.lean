/-
  ZincSim.Machine.ElfLoader — `elf_loader.h` / `elf_loader.cpp`, and how `main` puts an
  image into the memory.

  The file is read by ELFIO.  `ElfReader` has what the loader asks of it: the entry point,
  for each section its type and its symbols by name, and for each segment its type,
  addresses, sizes and bytes.
-/
import ZincSim.Machine.Ram
import ZincSim.Machine.Step

namespace ZincSim

/-! ## §1. The image -/

/-- `class ElfSegment`. -/
structure ElfSegment where
  addr : BitVec 64
  size : BitVec 64
  data : List (BitVec 8)
  deriving DecidableEq, Repr

/-- `class ElfImage`. -/
structure ElfImage where
  entry : BitVec 64
  tohost : BitVec 64
  segments : List ElfSegment
  deriving DecidableEq, Repr

/-! ## §2. `ElfLoader::load` -/

/-- An `ELFIO::section`, with the symbols that its accessor finds. -/
structure ElfSection where
  type : BitVec 32
  symbol : String → Option (BitVec 64)

/-- An `ELFIO::segment`; `data` is what `get_data()` points to. -/
structure ProgramHeader where
  type : BitVec 32
  virtualAddress : BitVec 64
  fileSize : BitVec 64
  memorySize : BitVec 64
  data : List (BitVec 8)

/-- An `ELFIO::elfio` that has loaded a file. -/
structure ElfReader where
  entry : BitVec 64
  sections : List ElfSection
  segments : List ProgramHeader

namespace ElfLoader

/-- `ELFIO::SHT_SYMTAB`. -/
def shtSymtab : BitVec 32 := 2

/-- `ELFIO::SHT_DYNSYM`. -/
def shtDynsym : BitVec 32 := 11

/-- `ELFIO::PT_LOAD`. -/
def ptLoad : BitVec 32 := 1

/-- The loop over the sections: the first symbol table that knows `tohost`. -/
def findTohost : List ElfSection → Option (BitVec 64)
  | [] => none
  | sec :: sections =>
      if sec.type ≠ shtSymtab ∧ sec.type ≠ shtDynsym then findTohost sections
      else
        match sec.symbol "tohost" with
        | some value => some value
        | none => findTohost sections

/-- The `ElfSegment` that the loop over the segments emplaces for one. -/
def elfSegment (segment : ProgramHeader) : Except Fault ElfSegment :=
  if segment.fileSize.toNat ≤ segment.data.length then
    .ok
      { addr := segment.virtualAddress
        size := segment.memorySize
        data := segment.data.take segment.fileSize.toNat }
  else .error .undefined

/-- The loop over the segments. -/
def elfSegments (segments : List ProgramHeader) : Except Fault (List ElfSegment) :=
  (segments.filter (·.type = ptLoad)).mapM elfSegment

/-- `ElfLoader::load`; the reader is `none` when ELFIO cannot load the file.  `ElfImage image;`
leaves `tohost` unassigned, and the test for 0 reads it when no symbol table has one. -/
def load (unassigned : BitVec 64) (reader : Option ElfReader) : Except Fault ElfImage := do
  let some reader := reader | throw (.runtimeError "Failed to load ELF")
  let tohost := (findTohost reader.sections).getD unassigned
  if tohost = 0 then
    throw (.runtimeError "tohost symbol is not defined")
  let segments ← elfSegments reader.segments
  return { entry := reader.entry, tohost := tohost, segments := segments }

end ElfLoader

/-! ## §3. The segment loop of `main` -/

/-- `MEM_BASE`. -/
def memBase : BitVec 64 := 0x80000000

/-- `MEM_SIZE`. -/
def memSize : Nat := 128 * 1024 * 1024

/-- One round of the loop. -/
def loadSegment (mem : Memory) (seg : ElfSegment) : Except Fault Memory := do
  let dataSize := BitVec.ofNat 64 seg.data.length
  let mem ← mem.load seg.addr seg.data
  mem.clear (seg.addr + dataSize) (seg.size - dataSize)

/-- The loop over `image.segments`. -/
def loadSegments (mem : Memory) (segments : List ElfSegment) : Except Fault Memory :=
  segments.foldlM loadSegment mem

/-- The machine with which `main` enters its loop. -/
def Machine.start (unassigned : BitVec 12 → BitVec 64) (image : ElfImage) :
    Except Fault Machine := do
  let mem ← loadSegments (Memory.init memBase memSize) image.segments
  return { core := Core.init unassigned image.entry, mem := mem }

end ZincSim
