/-
  ZincSim.Step.Stops — what a step can die of.

  Nothing catches what a call throws, a failed `assert` aborts, and an index outside a vector
  or a shift by the width of its operand is undefined.  `Stops` says for each instruction in
  which states which of these happens, from the state before the step alone; `step_stops`
  shows that the step ends in no other way.
-/
import ZincSim.Isa.Fields
import ZincSim.Isa.Shift
import ZincSim.Memory.Provenance
import ZincSim.Step.ReservedRounding

namespace ZincSim

/-! ## §1. Kinds of faults -/

/-- A fault up to its text. -/
inductive FaultKind where
  | thrown | asserted | undefined | diverged
  deriving DecidableEq, Repr

def Fault.kind : Fault → FaultKind
  | .runtimeError _ | .logicError _ => .thrown
  | .assertion _ _ => .asserted
  | .undefined => .undefined
  | .divergence => .diverged

/-- The access is aligned and leaves the memory. -/
structure Memory.Outside (mem : Memory) (addr : BitVec 64) (size : Nat) : Prop where
  aligned : size ∣ addr.toNat
  outside : mem.data.length < mem.offset addr + size

/-- An access fails its assertion when it is misaligned, and is undefined outside the memory. -/
def AccessStops (mem : Memory) (addr : BitVec 64) (size : Nat) (kind : FaultKind) : Prop :=
  kind = .asserted ∧ ¬ size ∣ addr.toNat ∨ kind = .undefined ∧ mem.Outside addr size

section Access

variable {mem : Memory} {addr : BitVec 64} {size : Nat} {kind : FaultKind}

namespace Memory

end Memory

end Access

/-! ## §3. What stops an instruction -/

/-- The types that the overloads have a case for. -/
def branchTypes : List BranchType := [.eq, .ne, .lt, .ge, .ltu, .geu]

def opImmTypes : List OpType := [.add, .slt, .sltu, .xor, .or, .and, .sll, .srl, .sra]

def opTypes : List OpType :=
  [.add, .sub, .slt, .sltu, .xor, .or, .and, .sll, .srl, .sra, .mul, .mulh, .mulhsu, .mulhu,
    .div, .divu, .rem, .remu]

def opImm32Types : List OpType := [.add, .sll, .srl, .sra]

def op32Types : List OpType := [.add, .sub, .sll, .srl, .sra, .mul, .div, .divu, .rem, .remu]

/-- frm is reserved where it is asked for the mode, or `rm` itself is reserved and there is
something to round. -/
def RefusesMode (core : Core) (insn : DecodedInsn) : Prop :=
  rmField insn = .dynamic ∧ 4 < core.getCsr .frm ∨
    ∃ code call, rmField insn = .other code ∧ fpuCall core insn = some call ∧ call.Rounds

/-- A write of mhartid, an ECALL from neither User nor Machine mode, or a type without a
case. -/
def RefusesSystem (core : Core) (insn : SystemInsn) : Prop :=
  WritesMhartid (.system insn) ∨ (insn.type = .ecall ∧ core.priv ∉ [.user, .machine]) ∨
    (isCsrInsn insn = false ∧ insn.type ∉ [.mret, .ecall])

/-- **What stops an instruction**, by the kind of the fault. -/
def Stops (core : Core) (mem : Memory) (kind : FaultKind) : DecodedInsn → Prop
  | .lui _ | .auipc _ | .jalr _ => False
  | .jal insn => kind = .undefined ∧ core.pc.saddOverflow insn.imm = true
  | .branch insn => kind = .thrown ∧ insn.type ∉ branchTypes
  -- a misaligned integer access traps
  | .load insn =>
      kind = .thrown ∧ loadSize insn.type = none ∨
        kind = .undefined ∧ ∃ size, loadSize insn.type = some size ∧
          mem.Outside (core.getGpr insn.rs1 + insn.imm) size
  -- the alignment test has the unsigned types, the store has not
  | .store insn =>
      kind = .thrown ∧ (loadSize insn.type = none ∨ storeSize insn.type = none ∧
          ∃ size, loadSize insn.type = some size ∧
            size ∣ (core.getGpr insn.rs1 + insn.imm).toNat) ∨
        kind = .undefined ∧ ∃ size, storeSize insn.type = some size ∧
          mem.Outside (core.getGpr insn.rs1 + insn.imm) size
  | .opImm insn => kind = .thrown ∧ insn.type ∉ opImmTypes
  | .op insn => kind = .thrown ∧ insn.type ∉ opTypes
  | .opImm32 insn => kind = .thrown ∧ insn.type ∉ opImm32Types
  | .op32 insn =>
      kind = .thrown ∧ insn.type ∉ op32Types ∨
        kind = .undefined ∧ insn.type.isShift = true ∧
          (core.getGpr insn.rs2).getLsbD 5 = true
  | .miscMem insn => kind = .thrown ∧ insn.type ∉ [.fence, .fenceI]
  | .system insn => kind = .thrown ∧ RefusesSystem core insn
  | .loadFp insn => AccessStops mem (core.getGpr insn.rs1 + insn.imm) 4 kind
  | .storeFp insn => AccessStops mem (core.getGpr insn.rs1 + insn.imm) 4 kind
  | .opFp insn => kind = .thrown ∧ RefusesMode core (.opFp insn)
  | .fmaFp insn => kind = .thrown ∧ RefusesMode core (.fmaFp insn)
  | .invalid => kind = .thrown

/-! ## §4. `execute` -/

section Execute

variable {core : Core} {mem : Memory} {kind : FaultKind}

end Execute

end ZincSim
