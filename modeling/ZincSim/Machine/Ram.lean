/-
  ZincSim.Machine.Ram — `class Memory` of `ram.h` / `ram.cpp`.

  A memory is its base address and the bytes of `std::vector<std::uint8_t> data`.
  The wide accessors of the source reinterpret the vector as an array of 2-, 4-
  or 8-byte cells and index it with `offset / size`; the host is little-endian.
  The accessors differ only in the cell size, so each is one of the parametric
  definitions `Memory.getCell` / `Memory.setCell` at its own size.  An index
  outside the vector is undefined behaviour in the source and `Fault.undefined`
  here.
-/
import ZincSim.Machine.Fault

namespace ZincSim

/-! ## §1. Little-endian bytes -/

/-- The number that little-endian `bytes` spell. -/
def fromLE : List (BitVec 8) → Nat
  | [] => 0
  | b :: bytes => b.toNat + 256 * fromLE bytes

/-- The `size` low bytes of `value`, least significant first. -/
def toLE : (size value : Nat) → List (BitVec 8)
  | 0, _ => []
  | size + 1, value => BitVec.ofNat 8 value :: toLE size (value / 256)

/-! ## §2. The memory -/

/-- `class Memory`. -/
structure Memory where
  base : BitVec 64
  data : List (BitVec 8)
  deriving DecidableEq, Repr

namespace Memory

/-- `Memory::Memory(base, size)`: a zero-filled vector. -/
def init (base : BitVec 64) (size : Nat) : Memory where
  base := base
  data := List.replicate size 0

/-- `addr - this->base`, wrapping. -/
def offset (mem : Memory) (addr : BitVec 64) : Nat := (addr - mem.base).toNat

/-- The vector index of the first byte of the cell that an access of `size`
bytes at `addr` touches: cell number `offset / size`. -/
def cellStart (mem : Memory) (size : Nat) (addr : BitVec 64) : Nat :=
  size * (mem.offset addr / size)

/-- The cell of an access of `size` bytes at `addr` lies inside the vector. -/
def Contains (mem : Memory) (size : Nat) (addr : BitVec 64) : Prop :=
  mem.cellStart size addr + size ≤ mem.data.length

instance (mem : Memory) (size : Nat) (addr : BitVec 64) : Decidable (mem.Contains size addr) :=
  inferInstanceAs (Decidable (_ ≤ _))

/-! ## §3. Loads -/

/-- `reinterpret_cast<const T*>(data.data())[offset / sizeof(T)]`. -/
def getCell (mem : Memory) (size : Nat) (addr : BitVec 64) : Except Fault Nat :=
  if addr.toNat % size ≠ 0 then .error (.assertion addr size)
  else if mem.Contains size addr then
    .ok (fromLE ((mem.data.drop (mem.cellStart size addr)).take size))
  else .error .undefined

/-- `Memory::get_8`: indexes the vector itself, with nothing to assert. -/
def get8 (mem : Memory) (addr : BitVec 64) : Except Fault (BitVec 8) :=
  match mem.data[mem.offset addr]? with
  | some byte => .ok byte
  | none => .error .undefined

/-- `Memory::get_16`. -/
def get16 (mem : Memory) (addr : BitVec 64) : Except Fault (BitVec 16) :=
  (BitVec.ofNat 16 ·) <$> mem.getCell 2 addr

/-- `Memory::get_32`. -/
def get32 (mem : Memory) (addr : BitVec 64) : Except Fault (BitVec 32) :=
  (BitVec.ofNat 32 ·) <$> mem.getCell 4 addr

/-- `Memory::get_64`. -/
def get64 (mem : Memory) (addr : BitVec 64) : Except Fault (BitVec 64) :=
  (BitVec.ofNat 64 ·) <$> mem.getCell 8 addr

/-! ## §4. Stores -/

/-- Overwrite the bytes from `start` on. -/
def overwrite (mem : Memory) (start : Nat) (bytes : List (BitVec 8)) : Memory :=
  { mem with
    data := mem.data.take start ++ bytes ++ mem.data.drop (start + bytes.length) }

/-- `reinterpret_cast<T*>(data.data())[offset / sizeof(T)] = value`. -/
def setCell (mem : Memory) (size : Nat) (addr : BitVec 64) (value : Nat) : Except Fault Memory :=
  if addr.toNat % size ≠ 0 then .error (.assertion addr size)
  else if mem.Contains size addr then
    .ok (mem.overwrite (mem.cellStart size addr) (toLE size value))
  else .error .undefined

/-- `Memory::set_8`. -/
def set8 (mem : Memory) (addr : BitVec 64) (value : BitVec 8) : Except Fault Memory :=
  if mem.offset addr < mem.data.length then
    .ok { mem with data := mem.data.set (mem.offset addr) value }
  else .error .undefined

/-- `Memory::set_16`. -/
def set16 (mem : Memory) (addr : BitVec 64) (value : BitVec 16) : Except Fault Memory :=
  mem.setCell 2 addr value.toNat

/-- `Memory::set_32`. -/
def set32 (mem : Memory) (addr : BitVec 64) (value : BitVec 32) : Except Fault Memory :=
  mem.setCell 4 addr value.toNat

/-- `Memory::set_64`. -/
def set64 (mem : Memory) (addr : BitVec 64) (value : BitVec 64) : Except Fault Memory :=
  mem.setCell 8 addr value.toNat

/-! ## §5. Program loading -/

/-- `Memory::load`: `std::copy` into the vector. -/
def load (mem : Memory) (addr : BitVec 64) (data : List (BitVec 8)) : Except Fault Memory :=
  if mem.offset addr + data.length ≤ mem.data.length then
    .ok (mem.overwrite (mem.offset addr) data)
  else .error .undefined

/-- `Memory::clear`: `std::fill` with zeros. -/
def clear (mem : Memory) (addr size : BitVec 64) : Except Fault Memory :=
  if mem.offset addr + size.toNat ≤ mem.data.length then
    .ok (mem.overwrite (mem.offset addr) (List.replicate size.toNat 0))
  else .error .undefined

end Memory

end ZincSim
