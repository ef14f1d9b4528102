/-
  ZincSim.Machine.Insn — the decoded instructions of `decode.h`.

  The scoped enumerations of `decode.h` are filled by `static_cast` from
  instruction bits, so besides their enumerators they hold every other bit
  pattern: the constructor `other` keeps such a pattern.  Register fields are
  five bits wide and the CSR field twelve; the signed 64-bit immediates are
  two's complement words.
-/
import ZincSim.Machine.Fault

namespace ZincSim

/-- A register number, as `get_rd`, `get_rs1`, `get_rs2`, `get_rs3` cut it out. -/
abbrev RegIndex := BitVec 5

/-! ## §1. Enumerations -/

/-- `enum class BranchType`. -/
inductive BranchType where
  | eq | ne | lt | ge | ltu | geu
  | other (code : BitVec 32)
  deriving DecidableEq, Repr

/-- `static_cast<BranchType>(code)`. -/
def BranchType.ofCode (code : BitVec 32) : BranchType :=
  match code with
  | 0b000#32 => .eq
  | 0b001#32 => .ne
  | 0b100#32 => .lt
  | 0b101#32 => .ge
  | 0b110#32 => .ltu
  | 0b111#32 => .geu
  | _ => .other code

/-- `static_cast<std::uint32_t>(type)`. -/
def BranchType.code : BranchType → BitVec 32
  | .eq => 0b000 | .ne => 0b001 | .lt => 0b100
  | .ge => 0b101 | .ltu => 0b110 | .geu => 0b111
  | .other code => code

/-- `enum class MemAccessType`. -/
inductive MemAccessType where
  | b | h | w | d | bu | hu | wu
  | other (code : BitVec 32)
  deriving DecidableEq, Repr

/-- `static_cast<MemAccessType>(code)`. -/
def MemAccessType.ofCode (code : BitVec 32) : MemAccessType :=
  match code with
  | 0b000#32 => .b
  | 0b001#32 => .h
  | 0b010#32 => .w
  | 0b011#32 => .d
  | 0b100#32 => .bu
  | 0b101#32 => .hu
  | 0b110#32 => .wu
  | _ => .other code

/-- `static_cast<std::uint32_t>(type)`. -/
def MemAccessType.code : MemAccessType → BitVec 32
  | .b => 0b000 | .h => 0b001 | .w => 0b010 | .d => 0b011
  | .bu => 0b100 | .hu => 0b101 | .wu => 0b110
  | .other code => code

/-- `enum class OpType`: `funct7` above `funct3`. -/
inductive OpType where
  | add | sub | sll | slt | sltu | xor | srl | sra | or | and
  | mul | mulh | mulhsu | mulhu | div | divu | rem | remu
  | other (code : BitVec 32)
  deriving DecidableEq, Repr

/-- `static_cast<OpType>(code)`. -/
def OpType.ofCode (code : BitVec 32) : OpType :=
  match code with
  | 0b0000000000#32 => .add
  | 0b0100000000#32 => .sub
  | 0b0000000001#32 => .sll
  | 0b0000000010#32 => .slt
  | 0b0000000011#32 => .sltu
  | 0b0000000100#32 => .xor
  | 0b0000000101#32 => .srl
  | 0b0100000101#32 => .sra
  | 0b0000000110#32 => .or
  | 0b0000000111#32 => .and
  | 0b0000001000#32 => .mul
  | 0b0000001001#32 => .mulh
  | 0b0000001010#32 => .mulhsu
  | 0b0000001011#32 => .mulhu
  | 0b0000001100#32 => .div
  | 0b0000001101#32 => .divu
  | 0b0000001110#32 => .rem
  | 0b0000001111#32 => .remu
  | _ => .other code

/-- `static_cast<std::uint32_t>(type)`. -/
def OpType.code : OpType → BitVec 32
  | .add => 0b0000000000 | .sub => 0b0100000000 | .sll => 0b0000000001
  | .slt => 0b0000000010 | .sltu => 0b0000000011 | .xor => 0b0000000100
  | .srl => 0b0000000101 | .sra => 0b0100000101 | .or => 0b0000000110
  | .and => 0b0000000111
  | .mul => 0b0000001000 | .mulh => 0b0000001001 | .mulhsu => 0b0000001010
  | .mulhu => 0b0000001011 | .div => 0b0000001100 | .divu => 0b0000001101
  | .rem => 0b0000001110 | .remu => 0b0000001111
  | .other code => code

/-- `enum class SystemInsnType`, whose underlying type is `int`. -/
inductive SystemInsnType where
  | ecall | ebreak | csrrw | csrrs | csrrc | csrrwi | csrrsi | csrrci | mret
  | other (code : BitVec 32)
  deriving DecidableEq, Repr

/-- `static_cast<SystemInsnType>(code)`. -/
def SystemInsnType.ofCode (code : BitVec 32) : SystemInsnType :=
  match code with
  | 0b000000000000000#32 => .ecall
  | 0b000000000001000#32 => .ebreak
  | 0b001#32 => .csrrw
  | 0b010#32 => .csrrs
  | 0b011#32 => .csrrc
  | 0b101#32 => .csrrwi
  | 0b110#32 => .csrrsi
  | 0b111#32 => .csrrci
  | 0b001100000010000#32 => .mret
  | _ => .other code

/-- `static_cast<uint32_t>(type)`. -/
def SystemInsnType.code : SystemInsnType → BitVec 32
  | .ecall => 0b000000000000000 | .ebreak => 0b000000000001000
  | .csrrw => 0b001 | .csrrs => 0b010 | .csrrc => 0b011
  | .csrrwi => 0b101 | .csrrsi => 0b110 | .csrrci => 0b111
  | .mret => 0b001100000010000
  | .other code => code

/-- `enum class MiscMemInsnType`. -/
inductive MiscMemInsnType where
  | fence | fenceI
  | other (code : BitVec 32)
  deriving DecidableEq, Repr

/-- `static_cast<MiscMemInsnType>(code)`. -/
def MiscMemInsnType.ofCode (code : BitVec 32) : MiscMemInsnType :=
  match code with
  | 0b000#32 => .fence
  | 0b001#32 => .fenceI
  | _ => .other code

/-- `enum class OpFpType`. -/
inductive OpFpType where
  | add | sub | mul | div | sqrt
  | min | max
  | sgnj | sgnjn | sgnjx
  | eq | lt | le | fclass
  | moveToX | moveFromX
  | cvtWFromS | cvtWuFromS | cvtLFromS | cvtLuFromS
  | cvtSToW | cvtSToWu | cvtSToL | cvtSToLu
  deriving DecidableEq, Repr

/-- `enum class FmaFpType`. -/
inductive FmaFpType where
  | mAdd | mSub | nmSub | nmAdd
  deriving DecidableEq, Repr

/-- `enum class RoundingMode`. -/
inductive RoundingMode where
  | rne | rtz | rdn | rup | rmm | dynamic
  | other (code : BitVec 32)
  deriving DecidableEq, Repr

/-- `static_cast<RoundingMode>(code)`. -/
def RoundingMode.ofCode (code : BitVec 32) : RoundingMode :=
  match code with
  | 0b000#32 => .rne
  | 0b001#32 => .rtz
  | 0b010#32 => .rdn
  | 0b011#32 => .rup
  | 0b100#32 => .rmm
  | 0b111#32 => .dynamic
  | _ => .other code

/-! ## §2. Instructions -/

structure LuiInsn where
  imm : BitVec 64
  rd : RegIndex
  deriving DecidableEq, Repr

structure AuipcInsn where
  imm : BitVec 64
  rd : RegIndex
  deriving DecidableEq, Repr

structure JalInsn where
  imm : BitVec 64
  rd : RegIndex
  deriving DecidableEq, Repr

structure JalrInsn where
  imm : BitVec 64
  rs1 : RegIndex
  rd : RegIndex
  deriving DecidableEq, Repr

structure BranchInsn where
  type : BranchType
  imm : BitVec 64
  rs1 : RegIndex
  rs2 : RegIndex
  deriving DecidableEq, Repr

structure LoadInsn where
  type : MemAccessType
  imm : BitVec 64
  rs1 : RegIndex
  rd : RegIndex
  deriving DecidableEq, Repr

structure StoreInsn where
  type : MemAccessType
  imm : BitVec 64
  rs1 : RegIndex
  rs2 : RegIndex
  deriving DecidableEq, Repr

structure OpImmInsn where
  type : OpType
  imm : BitVec 64
  rs1 : RegIndex
  rd : RegIndex
  deriving DecidableEq, Repr

structure OpInsn where
  type : OpType
  rs1 : RegIndex
  rs2 : RegIndex
  rd : RegIndex
  deriving DecidableEq, Repr

structure MiscMemInsn where
  type : MiscMemInsnType
  deriving DecidableEq, Repr

structure SystemInsn where
  type : SystemInsnType
  csr : BitVec 12
  rs1 : RegIndex
  uimm : BitVec 5
  rd : RegIndex
  deriving DecidableEq, Repr

structure OpImm32Insn where
  type : OpType
  imm : BitVec 64
  rs1 : RegIndex
  rd : RegIndex
  deriving DecidableEq, Repr

structure Op32Insn where
  type : OpType
  rs1 : RegIndex
  rs2 : RegIndex
  rd : RegIndex
  deriving DecidableEq, Repr

structure LoadFpInsn where
  imm : BitVec 64
  rs1 : RegIndex
  rd : RegIndex
  deriving DecidableEq, Repr

structure StoreFpInsn where
  imm : BitVec 64
  rs1 : RegIndex
  rs2 : RegIndex
  deriving DecidableEq, Repr

structure OpFpInsn where
  type : OpFpType
  rm : RoundingMode
  rs1 : RegIndex
  rs2 : RegIndex
  rd : RegIndex
  deriving DecidableEq, Repr

structure FmaFpInsn where
  type : FmaFpType
  rm : RoundingMode
  rs1 : RegIndex
  rs2 : RegIndex
  rs3 : RegIndex
  rd : RegIndex
  deriving DecidableEq, Repr

/-- `using DecodedInsn = std::variant<...>`. -/
inductive DecodedInsn where
  | lui (insn : LuiInsn)
  | auipc (insn : AuipcInsn)
  | jal (insn : JalInsn)
  | jalr (insn : JalrInsn)
  | branch (insn : BranchInsn)
  | load (insn : LoadInsn)
  | store (insn : StoreInsn)
  | opImm (insn : OpImmInsn)
  | op (insn : OpInsn)
  | miscMem (insn : MiscMemInsn)
  | system (insn : SystemInsn)
  | opImm32 (insn : OpImm32Insn)
  | op32 (insn : Op32Insn)
  | loadFp (insn : LoadFpInsn)
  | storeFp (insn : StoreFpInsn)
  | opFp (insn : OpFpInsn)
  | fmaFp (insn : FmaFpInsn)
  | invalid
  deriving DecidableEq, Repr

end ZincSim
