/-
  ZincSim.Machine.Cpu — `class Core` of `cpu.h` / `cpu.cpp`.

  The register files are private to the class, so `Core` carries the class
  invariant as a field: the constructor zeroes `gprs` and `set_gpr` refuses
  index 0, hence `gprs[0]` is 0 in every object.  The constructor does not
  initialise `csrs` (apart from mstatus): those contents are the argument
  `unassigned` of `Core.init`.
-/
import ZincSim.Machine.Insn
import Mathlib

namespace ZincSim

/-! ## §1. Constants and enumerations -/

def mstatusMieMask : BitVec 64 := 1#64 <<< 3
def mstatusMpieMask : BitVec 64 := 1#64 <<< 7
def mstatusMppMask : BitVec 64 := 0b11#64 <<< 11
def mstatusMprvMask : BitVec 64 := 1#64 <<< 17
def mstatusUxlMask : BitVec 64 := 0b11#64 <<< 32
def mstatusUxlRv64 : BitVec 64 := 0b10#64 <<< 32

def mstatusFsMask : BitVec 64 := 0b11#64 <<< 13
def mstatusFsDirty : BitVec 64 := 0b11#64 <<< 13
def mstatusSdMask : BitVec 64 := 1#64 <<< 63

def mstatusWritableMask : BitVec 64 :=
  mstatusMieMask ||| mstatusMpieMask ||| mstatusMppMask ||| mstatusFsMask ||| mstatusMprvMask

/-- `enum class RegType`. -/
inductive RegType where
  | x | csr | f
  deriving DecidableEq, Repr

/-- `enum class Csr`; `other` is any number without an enumerator. -/
inductive Csr where
  | fflags | frm | fcsr | mstatus | mie | mtvec | mscratch | mepc | mcause | mtval
  | pmpcfg0 | pmpaddr0 | mhartid
  | other (num : BitVec 32)
  deriving DecidableEq, Repr

/-- `static_cast<std::uint32_t>(csr)`. -/
def Csr.num : Csr → BitVec 32
  | .fflags => 0x001
  | .frm => 0x002
  | .fcsr => 0x003
  | .mstatus => 0x300
  | .mie => 0x304
  | .mtvec => 0x305
  | .mscratch => 0x340
  | .mepc => 0x341
  | .mcause => 0x342
  | .mtval => 0x343
  | .pmpcfg0 => 0x3a0
  | .pmpaddr0 => 0x3b0
  | .mhartid => 0xf14
  | .other num => num

/-- `static_cast<Csr>(num)`. -/
def Csr.ofNum (num : BitVec 32) : Csr :=
  match num with
  | 0x001#32 => .fflags
  | 0x002#32 => .frm
  | 0x003#32 => .fcsr
  | 0x300#32 => .mstatus
  | 0x304#32 => .mie
  | 0x305#32 => .mtvec
  | 0x340#32 => .mscratch
  | 0x341#32 => .mepc
  | 0x342#32 => .mcause
  | 0x343#32 => .mtval
  | 0x3a0#32 => .pmpcfg0
  | 0x3b0#32 => .pmpaddr0
  | 0xf14#32 => .mhartid
  | _ => .other num

/-- `enum class Privilege`.  The enum has three enumerators; `unknown` is the
fourth value a `static_cast<Privilege>` of the two-bit field MPP can give. -/
inductive Privilege where
  | user | supervisor | unknown | machine
  deriving DecidableEq, Repr

/-- `static_cast<std::uint64_t>(priv)`. -/
def Privilege.code : Privilege → BitVec 64
  | .user => 0b00
  | .supervisor => 0b01
  | .unknown => 0b10
  | .machine => 0b11

/-- `static_cast<Privilege>(mpp)` for the two-bit value `mpp`. -/
def Privilege.ofCode (mpp : BitVec 64) : Privilege :=
  if mpp = 0b00 then .user
  else if mpp = 0b01 then .supervisor
  else if mpp = 0b10 then .unknown
  else .machine

/-- `class Exception`. -/
structure Exception where
  mcause : BitVec 64
  mtval : BitVec 64
  deriving DecidableEq, Repr

/-- `class RegWrite`. -/
structure RegWrite where
  type : RegType
  num : BitVec 32
  value : BitVec 64
  deriving DecidableEq, Repr

/-- `class MemAccess`. -/
structure MemAccess where
  addr : BitVec 64
  value : BitVec 64
  size : BitVec 32
  deriving DecidableEq, Repr

/-- `class Commit`. -/
structure Commit where
  pc : BitVec 64
  insn : BitVec 32
  priv : Privilege
  regWrites : List RegWrite
  memReads : List MemAccess
  memWrites : List MemAccess
  deriving DecidableEq, Repr

/-! ## §2. The core -/

/-- `class Core`, with its class invariant. -/
@[ext] structure Core where
  priv : Privilege
  pc : BitVec 64
  gprs : BitVec 5 → BitVec 64
  fprs : BitVec 5 → BitVec 32
  csrs : BitVec 12 → BitVec 64
  gprs_zero : gprs 0 = 0

namespace Core

/-- `Core::Core(init_pc)`. -/
def init (unassigned : BitVec 12 → BitVec 64) (initPc : BitVec 64) : Core where
  priv := .machine
  pc := initPc
  gprs := fun _ => 0
  fprs := fun _ => 0
  csrs := Function.update unassigned 0x300 mstatusUxlRv64
  gprs_zero := rfl

/-- `Core::set_pc`. -/
def setPc (core : Core) (newPc : BitVec 64) : Core := { core with pc := newPc }

/-- `Core::set_priv`. -/
def setPriv (core : Core) (priv : Privilege) : Core := { core with priv := priv }

/-- `Core::get_gpr`. -/
def getGpr (core : Core) (index : RegIndex) : BitVec 64 := core.gprs index

/-- `Core::set_gpr`. -/
def setGpr (core : Core) (index : RegIndex) (value : BitVec 64) : Core :=
  if h : index = 0 then core
  else
    { core with
      gprs := Function.update core.gprs index value
      gprs_zero := by rw [Function.update_of_ne (Ne.symm h)]; exact core.gprs_zero }

/-- `Core::get_fpr`: the 32-bit register, zero-extended. -/
def getFpr (core : Core) (index : RegIndex) : BitVec 64 := (core.fprs index).setWidth 64

/-- `Core::set_fpr`. -/
def setFpr (core : Core) (index : RegIndex) (value : BitVec 32) : Core :=
  { core with fprs := Function.update core.fprs index value }

/-- `this->csrs[num]`.  Only numbers below 4096 are ever looked up; the array
has no other entry. -/
def csrEntry (core : Core) (num : BitVec 32) : BitVec 64 :=
  if num.toNat < 4096 then core.csrs (num.setWidth 12) else 0

/-- `this->csrs[num] = value`. -/
def setCsrEntry (core : Core) (num : BitVec 32) (value : BitVec 64) : Core :=
  { core with csrs := Function.update core.csrs (num.setWidth 12) value }

/-- `Core::has_csr`. -/
def hasCsr (csr : BitVec 32) : Bool :=
  match Csr.ofNum csr with
  | .fcsr | .fflags | .frm | .mstatus | .mie | .mtvec | .mscratch | .mepc | .mcause
  | .mtval | .pmpcfg0 | .pmpaddr0 | .mhartid => true
  | .other _ => false

/-- `Core::get_csr`. -/
def getCsr (core : Core) (csr : Csr) : BitVec 64 :=
  match csr with
  | .fflags => core.csrEntry Csr.fcsr.num &&& 0x1f
  -- no mask: bits of the entry above the eight of fcsr would show in frm
  | .frm => core.csrEntry Csr.fcsr.num >>> 5
  | csr => core.csrEntry csr.num

/-- The value `case Csr::Mstatus` of `set_csr` stores over `old`. -/
def maskMstatus (old value : BitVec 64) : BitVec 64 :=
  let newValue := (old &&& ~~~mstatusWritableMask) ||| (value &&& mstatusWritableMask)
  let newValue := newValue &&& ~~~mstatusSdMask
  if newValue &&& mstatusFsMask = mstatusFsDirty then newValue ||| mstatusSdMask else newValue

/-- `Core::set_csr`: the value that was stored, read back in the CSR's own
position, and the new core. -/
def setCsr (core : Core) (csr : Csr) (value : BitVec 64) : Except Fault (BitVec 64 × Core) :=
  match csr with
  | .fflags =>
      let fcsr := (core.csrEntry Csr.fcsr.num &&& ~~~0x1f#64) ||| (value &&& 0x1f)
      -- both views write the one entry fcsr and leave its other field alone
      .ok (fcsr &&& 0x1f, core.setCsrEntry Csr.fcsr.num fcsr)
  | .frm =>
      let fcsr := (core.csrEntry Csr.fcsr.num &&& ~~~0xe0#64) ||| ((value &&& 0x7) <<< 5)
      .ok ((fcsr >>> 5) &&& 0x7#64, core.setCsrEntry Csr.fcsr.num fcsr)
  | .fcsr =>
      .ok (value &&& 0xff, core.setCsrEntry Csr.fcsr.num (value &&& 0xff))
  | .mstatus =>
      let newValue := maskMstatus (core.csrEntry Csr.mstatus.num) value
      .ok (newValue, core.setCsrEntry Csr.mstatus.num newValue)
  | .mepc =>
      .ok (value &&& ~~~0b11#64, core.setCsrEntry Csr.mepc.num (value &&& ~~~0b11#64))
  | .mtvec =>
      .ok (value &&& ~~~0b11#64, core.setCsrEntry Csr.mtvec.num (value &&& ~~~0b11#64))
  | .pmpcfg0 | .pmpaddr0 | .mie | .mscratch | .mcause | .mtval =>
      .ok (value, core.setCsrEntry csr.num value)
  | .mhartid => .error (.logicError "attempted to write read-only mhartid")
  | .other num =>
      .error (.logicError ("attempted to write unsupported CSR 0x" ++ fmtHex 3 num.toNat))

/-- The mstatus that `take_exception` passes to `set_csr`. -/
def exceptionMstatus (core : Core) : BitVec 64 :=
  let mstatus := core.getCsr .mstatus
  let mstatus :=
    if mstatus &&& mstatusMieMask ≠ 0 then mstatus ||| mstatusMpieMask
    else mstatus &&& ~~~mstatusMpieMask
  let mstatus :=
    if mstatus &&& mstatusFsMask = mstatusFsDirty then mstatus ||| mstatusSdMask
    else mstatus &&& ~~~mstatusSdMask
  let mstatus := mstatus &&& ~~~mstatusMieMask
  let mstatus := mstatus &&& ~~~mstatusMppMask
  mstatus ||| (core.priv.code <<< 11)

/-- `Core::take_exception`. -/
def takeException (core : Core) (exception : Exception) : Except Fault Core := do
  let mstatus := core.exceptionMstatus
  let (_, core) ← core.setCsr .mcause exception.mcause
  let (_, core) ← core.setCsr .mtval exception.mtval
  let (_, core) ← core.setCsr .mepc core.pc
  -- masked once more by `set_csr`
  let (_, core) ← core.setCsr .mstatus mstatus
  let core := core.setPc (core.getCsr .mtvec &&& ~~~0b11#64)
  return core.setPriv .machine

end Core

end ZincSim
