/-
  ZincSim.Machine.Execute — the `Executor::execute` overloads of `execute.cpp`.

  Each overload reads the core and the memory and returns either a `NormalStep`
  (what is to be written) or an architectural `Exception`; nothing is changed
  before `Executor::step` applies the result.
-/
import ZincSim.Machine.Cpu
import ZincSim.Machine.Ram
import ZincSim.Machine.MulDiv
import ZincSim.Machine.Fpu.Convert

namespace ZincSim

/-! ## §1. Step results -/

/-- `struct NormalStep`. -/
structure NormalStep where
  nextPc : Option (BitVec 64) := none
  nextPrivilege : Option Privilege := none
  regWrites : List RegWrite := []
  memReads : List MemAccess := []
  memWrites : List MemAccess := []
  deriving DecidableEq, Repr

/-- `using StepResult = std::variant<NormalStep, Exception>`. -/
inductive StepResult where
  | normal (step : NormalStep)
  | exception (exception : Exception)
  deriving DecidableEq, Repr

/-- `emplace_back(RegType::X, rd, value)`. -/
def xWrite (rd : RegIndex) (value : BitVec 64) : RegWrite where
  type := .x
  num := rd.setWidth 32
  value := value

/-- `emplace_back(RegType::F, rd, value)`. -/
def fWrite (rd : RegIndex) (value : BitVec 64) : RegWrite where
  type := .f
  num := rd.setWidth 32
  value := value

/-- `emplace_back(RegType::Csr, num, value)`. -/
def csrWrite (num : BitVec 32) (value : BitVec 64) : RegWrite where
  type := .csr
  num := num
  value := value

/-- A step whose only effect is the write of one X register. -/
def NormalStep.ofX (rd : RegIndex) (value : BitVec 64) : NormalStep :=
  { regWrites := [xWrite rd value] }

/-! ## §2. Upper immediates, jumps and branches -/

/-- `Executor::execute(LuiInsn)`. -/
def executeLui (insn : LuiInsn) : Except Fault StepResult :=
  .ok (.normal (.ofX insn.rd insn.imm))

/-- `Executor::execute(AuipcInsn)`. -/
def executeAuipc (core : Core) (insn : AuipcInsn) : Except Fault StepResult :=
  .ok (.normal (.ofX insn.rd (core.pc + insn.imm)))

/-- `Executor::execute(JalInsn)`. -/
def executeJal (core : Core) (insn : JalInsn) : Except Fault StepResult :=
  -- the target alone is a sum of two `int64_t`s, undefined when it leaves their range
  if core.pc.saddOverflow insn.imm then .error .undefined
  else
    .ok (.normal
      { nextPc := some (core.pc + insn.imm)
        regWrites := [xWrite insn.rd (core.pc + 4)] })

/-- `Executor::execute(JalrInsn)`. -/
def executeJalr (core : Core) (insn : JalrInsn) : Except Fault StepResult :=
  .ok (.normal
    -- bit 0 of the sum is kept
    { nextPc := some (core.getGpr insn.rs1 + insn.imm)
      regWrites := [xWrite insn.rd (core.pc + 4)] })

/-- `should_branch` of `Executor::execute(BranchInsn)`. -/
def shouldBranch (core : Core) (insn : BranchInsn) : Except Fault Bool :=
  let rs1Val := core.getGpr insn.rs1
  let rs2Val := core.getGpr insn.rs2
  match insn.type with
  | .eq => .ok (decide (rs1Val = rs2Val))
  | .ge => .ok (decide (rs1Val.toInt ≥ rs2Val.toInt))
  | .geu => .ok (decide (rs1Val ≥ rs2Val))
  | .lt => .ok (decide (rs1Val.toInt < rs2Val.toInt))
  | .ltu => .ok (decide (rs1Val < rs2Val))
  | .ne => .ok (decide (rs1Val ≠ rs2Val))
  | .other _ =>
      .error (.runtimeError
        ("Not a valid BranchType for Branch instruction: " ++ fmtHex 8 core.pc.toNat ++ ": "
          ++ fmtBin 10 insn.type.code.toNat))

/-- `Executor::execute(BranchInsn)`. -/
def executeBranch (core : Core) (insn : BranchInsn) : Except Fault StepResult := do
  let taken ← shouldBranch core insn
  return .normal { nextPc := if taken then some (core.pc + insn.imm) else none }

/-! ## §3. Loads and stores -/

/-- `mem_access_aligned`. -/
def memAccessAligned (addr : BitVec 64) (type : MemAccessType) : Except Fault Bool :=
  match type with
  | .b | .bu => .ok true
  | .h | .hu => .ok (decide (addr.toNat % 2 = 0))
  | .w | .wu => .ok (decide (addr.toNat % 4 = 0))
  | .d => .ok (decide (addr.toNat % 8 = 0))
  | .other _ => .error (.runtimeError "Not a valid memory access type")

/-- The `switch (insn.type)` of `Executor::execute(LoadInsn)`: the loaded value
and the size of the access. -/
def loadData (mem : Memory) (addr : BitVec 64) (type : MemAccessType) :
    Except Fault (BitVec 64 × BitVec 32) :=
  match type with
  | .b => (fun raw => (raw.signExtend 64, 1)) <$> mem.get8 addr
  | .bu => (fun raw => (raw.setWidth 64, 1)) <$> mem.get8 addr
  | .h => (fun raw => (raw.signExtend 64, 2)) <$> mem.get16 addr
  | .hu => (fun raw => (raw.setWidth 64, 2)) <$> mem.get16 addr
  | .w => (fun raw => (raw.signExtend 64, 4)) <$> mem.get32 addr
  | .wu => (fun raw => (raw.setWidth 64, 4)) <$> mem.get32 addr
  | .d => (fun raw => (raw, 8)) <$> mem.get64 addr
  -- not reached: `mem_access_aligned` has thrown on such a type
  | .other _ => .error .undefined

/-- `Executor::execute(LoadInsn)`. -/
def executeLoad (core : Core) (mem : Memory) (insn : LoadInsn) : Except Fault StepResult := do
  let addr := core.getGpr insn.rs1 + insn.imm
  let aligned ← memAccessAligned addr insn.type
  if !aligned then
    return .exception { mcause := 4, mtval := addr }
  let (data, size) ← loadData mem addr insn.type
  return .normal
    { regWrites := [xWrite insn.rd data]
      memReads := [{ addr := addr, value := data, size := size }] }

/-- The `switch (insn.type)` of `Executor::execute(StoreInsn)`: the stored value
and the size of the access. -/
def storeData (core : Core) (insn : StoreInsn) (val : BitVec 64) :
    Except Fault (BitVec 64 × BitVec 32) :=
  match insn.type with
  | .b => .ok (val &&& 0xff, 1)
  | .h => .ok (val &&& 0xffff, 2)
  | .w => .ok (val &&& 0xffffffff, 4)
  | .d => .ok (val, 8)
  | _ =>
      .error (.runtimeError
        ("Invalid STORE type at " ++ fmtHex 16 core.pc.toNat ++ ": "
          ++ fmtBin 3 insn.type.code.toNat))

/-- `Executor::execute(StoreInsn)`. -/
def executeStore (core : Core) (insn : StoreInsn) : Except Fault StepResult := do
  let addr := core.getGpr insn.rs1 + insn.imm
  let aligned ← memAccessAligned addr insn.type
  if !aligned then
    return .exception { mcause := 6, mtval := addr }
  let (val, size) ← storeData core insn (core.getGpr insn.rs2)
  return .normal { memWrites := [{ addr := addr, value := val, size := size }] }

/-- `Executor::execute(LoadFpInsn)`. -/
def executeLoadFp (core : Core) (mem : Memory) (insn : LoadFpInsn) :
    Except Fault StepResult := do
  let addr := core.getGpr insn.rs1 + insn.imm
  -- no `mem_access_aligned` here: a misaligned address meets the assertion of `get_32`
  let data ← mem.get32 addr
  return .normal
    { regWrites := [fWrite insn.rd (data.setWidth 64)]
      memReads := [{ addr := addr, value := data.setWidth 64, size := 4 }] }

/-- `Executor::execute(StoreFpInsn)`. -/
def executeStoreFp (core : Core) (insn : StoreFpInsn) : Except Fault StepResult :=
  .ok (.normal
    -- as in the load, the address is not tested
    { memWrites :=
        [{ addr := core.getGpr insn.rs1 + insn.imm
           value := core.getFpr insn.rs2
           size := 4 }] })

/-! ## §4. Integer arithmetic -/

/-- The text of the two `default` branches of the 64-bit arithmetic overloads. -/
def invalidOpImm (core : Core) (type : OpType) : Fault :=
  .runtimeError ("Not a valid OpType for OpImm instruction: " ++ fmtHex 8 core.pc.toNat ++ ": "
    ++ fmtBin 10 type.code.toNat)

/-- The text of the two `default` branches of the 32-bit arithmetic overloads. -/
def invalidOpImm32 (core : Core) (type : OpType) : Fault :=
  .runtimeError ("Not a valid OpType for OpImm32 instruction: " ++ fmtHex 8 core.pc.toNat ++ ": "
    ++ fmtBin 10 type.code.toNat)

/-- The `switch (insn.type)` of `Executor::execute(OpImmInsn)`. -/
def opImmResult (core : Core) (insn : OpImmInsn) : Except Fault (BitVec 64) :=
  let immVal := insn.imm
  let rs1Val := core.getGpr insn.rs1
  let shamt := (insn.imm &&& 0x3f).toNat
  match insn.type with
  | .add => .ok (immVal + rs1Val)
  | .slt => .ok (if rs1Val.toInt < immVal.toInt then 1 else 0)
  | .sltu => .ok (if rs1Val < immVal then 1 else 0)
  | .xor => .ok (rs1Val ^^^ immVal)
  | .or => .ok (rs1Val ||| immVal)
  | .and => .ok (rs1Val &&& immVal)
  | .sll => .ok (rs1Val <<< shamt)
  | .srl => .ok (rs1Val >>> shamt)
  | .sra => .ok (rs1Val.sshiftRight shamt)
  | type => .error (invalidOpImm core type)

/-- `Executor::execute(OpImmInsn)`. -/
def executeOpImm (core : Core) (insn : OpImmInsn) : Except Fault StepResult := do
  let rdVal ← opImmResult core insn
  return .normal (.ofX insn.rd rdVal)

/-- The `switch (insn.type)` of `Executor::execute(OpInsn)`. -/
def opResult (core : Core) (insn : OpInsn) : Except Fault (BitVec 64) :=
  let rs1Val := core.getGpr insn.rs1
  let rs2Val := core.getGpr insn.rs2
  let shamt := (rs2Val &&& 0x3f).toNat
  match insn.type with
  | .add => .ok (rs1Val + rs2Val)
  | .sub => .ok (rs1Val - rs2Val)
  | .slt => .ok (if rs1Val.toInt < rs2Val.toInt then 1 else 0)
  | .sltu => .ok (if rs1Val < rs2Val then 1 else 0)
  | .xor => .ok (rs1Val ^^^ rs2Val)
  | .or => .ok (rs1Val ||| rs2Val)
  | .and => .ok (rs1Val &&& rs2Val)
  | .sll => .ok (rs1Val <<< shamt)
  | .srl => .ok (rs1Val >>> shamt)
  | .sra => .ok (rs1Val.sshiftRight shamt)
  | .mul | .mulh | .mulhsu | .mulhu | .div | .divu | .rem | .remu =>
      MulDivUnit.execute insn.type rs1Val rs2Val
  | .other code => .error (invalidOpImm core (.other code))

/-- `Executor::execute(OpInsn)`. -/
def executeOp (core : Core) (insn : OpInsn) : Except Fault StepResult := do
  let rdVal ← opResult core insn
  return .normal (.ofX insn.rd rdVal)

/-- The `switch (insn.type)` of `Executor::execute(OpImm32Insn)`. -/
def opImm32Result (core : Core) (insn : OpImm32Insn) : Except Fault (BitVec 32) :=
  let immVal : BitVec 32 := insn.imm.setWidth 32
  let rs1Val : BitVec 32 := (core.getGpr insn.rs1).setWidth 32
  let shamt := (insn.imm.setWidth 32 &&& 0x1f#32).toNat
  match insn.type with
  | .add => .ok (immVal + rs1Val)
  | .sll => .ok (rs1Val <<< shamt)
  | .srl => .ok (rs1Val >>> shamt)
  | .sra => .ok (rs1Val.sshiftRight shamt)
  | type => .error (invalidOpImm32 core type)

/-- `Executor::execute(OpImm32Insn)`. -/
def executeOpImm32 (core : Core) (insn : OpImm32Insn) : Except Fault StepResult := do
  let rdVal ← opImm32Result core insn
  return .normal (.ofX insn.rd (rdVal.signExtend 64))

/-- The `switch (insn.type)` of `Executor::execute(Op32Insn)`.  The shift amount
keeps six bits, and a shift of the 32-bit word by 32 or more is undefined. -/
def op32Result (core : Core) (insn : Op32Insn) : Except Fault (BitVec 32) :=
  let rs1Val : BitVec 32 := (core.getGpr insn.rs1).setWidth 32
  let rs2Val : BitVec 32 := (core.getGpr insn.rs2).setWidth 32
  let shamt := (rs2Val &&& 0x3f).toNat
  let shifted (value : BitVec 32) : Except Fault (BitVec 32) :=
    if shamt < 32 then .ok value else .error .undefined
  match insn.type with
  | .add => .ok (rs1Val + rs2Val)
  | .sub => .ok (rs1Val - rs2Val)
  | .sll => shifted (rs1Val <<< shamt)
  | .srl => shifted (rs1Val >>> shamt)
  | .sra => shifted (rs1Val.sshiftRight shamt)
  | .mul | .div | .divu | .rem | .remu =>
      (·.setWidth 32) <$>
        MulDivUnit.executeWord insn.type (rs1Val.setWidth 64) (rs2Val.setWidth 64)
  | type => .error (invalidOpImm32 core type)

/-- `Executor::execute(Op32Insn)`. -/
def executeOp32 (core : Core) (insn : Op32Insn) : Except Fault StepResult := do
  let rdVal ← op32Result core insn
  return .normal (.ofX insn.rd (rdVal.signExtend 64))

/-! ## §5. Fences and system instructions -/

/-- `Executor::execute(MiscMemInsn)`. -/
def executeMiscMem (core : Core) (insn : MiscMemInsn) : Except Fault StepResult :=
  match insn.type with
  | .fence => .ok (.normal {})
  | .fenceI => .ok (.normal {})
  | .other code =>
      .error (.runtimeError
        ("Unimplemented MiscMem Instruction: " ++ fmtBin 15 code.toNat ++ " at "
          ++ fmtHex 8 core.pc.toNat))

/-- `is_csr_insn`. -/
def isCsrInsn (insn : SystemInsn) : Bool :=
  match insn.type with
  | .csrrc | .csrrw | .csrrs | .csrrci | .csrrwi | .csrrsi => true
  | _ => false

/-- The `reg_writes` of a CSR instruction: rd gets the old value and, when
`write` is set, the CSR gets the new one. -/
def csrRegWrites (insn : SystemInsn) (oldCsrVal newCsrVal : BitVec 64) (write : Bool) :
    NormalStep :=
  -- rd comes before the CSR, in the write-back and in the log
  { regWrites := xWrite insn.rd oldCsrVal ::
      if write then [csrWrite (insn.csr.setWidth 32) newCsrVal] else [] }

/-- The new mstatus of `case SystemInsnType::Mret`. -/
def mretMstatus (oldMstatus : BitVec 64) : BitVec 64 :=
  let mpp := (oldMstatus &&& mstatusMppMask) >>> 11
  let newMstatus :=
    if oldMstatus &&& mstatusMpieMask ≠ 0 then oldMstatus ||| mstatusMieMask
    else oldMstatus &&& ~~~mstatusMieMask
  let newMstatus := newMstatus ||| mstatusMpieMask
  let newMstatus := newMstatus &&& ~~~mstatusMppMask
  if Privilege.ofCode mpp ≠ .machine then newMstatus &&& ~~~mstatusMprvMask else newMstatus

/-- `case SystemInsnType::Mret`. -/
def executeMret (core : Core) : NormalStep :=
  let oldMstatus := core.getCsr .mstatus
  let mpp := (oldMstatus &&& mstatusMppMask) >>> 11
  { nextPc := some (core.getCsr .mepc)
    -- MPP may hold the code of no privilege
    nextPrivilege := some (Privilege.ofCode mpp)
    regWrites := [csrWrite Csr.mstatus.num (mretMstatus oldMstatus)] }

/-- `case SystemInsnType::Ecall`. -/
def executeEcall (core : Core) : Except Fault StepResult :=
  match core.priv with
  | .user => .ok (.exception { mcause := 8, mtval := 0 })
  | .supervisor => .error (.runtimeError "We have not implemented S mode")
  | .machine => .ok (.exception { mcause := 11, mtval := 0 })
  | .unknown =>
      .error (.runtimeError ("Ecall at unknown priviledge " ++ fmtDec core.priv.code.toNat))

/-- `Executor::execute(SystemInsn)`. -/
def executeSystem (core : Core) (insn : SystemInsn) : Except Fault StepResult :=
  -- the privilege of the caller is not consulted
  if isCsrInsn insn && !Core.hasCsr (insn.csr.setWidth 32) then
    .ok (.exception { mcause := 2, mtval := 0 })
  else
    let value := core.getGpr insn.rs1
    let oldCsrVal := core.getCsr (Csr.ofNum (insn.csr.setWidth 32))
    let uimm : BitVec 32 := insn.uimm.setWidth 32
    match insn.type with
    | .csrrs =>
        .ok (.normal (csrRegWrites insn oldCsrVal (oldCsrVal ||| value) (insn.rs1 != 0)))
    | .csrrc =>
        .ok (.normal (csrRegWrites insn oldCsrVal (oldCsrVal &&& ~~~value) (insn.rs1 != 0)))
    | .csrrw => .ok (.normal (csrRegWrites insn oldCsrVal value true))
    | .csrrwi => .ok (.normal (csrRegWrites insn oldCsrVal (uimm.setWidth 64) true))
    | .csrrsi =>
        .ok (.normal (csrRegWrites insn oldCsrVal (oldCsrVal ||| uimm.setWidth 64)
          (insn.uimm != 0)))
    | .csrrci =>
        -- the complement is taken of the 32-bit `uimm`, before it is widened
        .ok (.normal (csrRegWrites insn oldCsrVal (oldCsrVal &&& (~~~uimm).setWidth 64)
          (insn.uimm != 0)))
    | .mret => .ok (.normal (executeMret core))
    | .ecall => executeEcall core
    | type =>
        .error (.runtimeError
          ("Unimplemented System Instruction: " ++ fmtBin 15 type.code.toNat ++ " at "
            ++ fmtHex 8 core.pc.toNat))

/-! ## §6. Floating point -/

/-- The rounding mode of an OP-FP or FMA instruction: `rm`, or frm when it is
dynamic. -/
def resolveRounding (core : Core) (rm : RoundingMode) : Except Fault RoundingMode :=
  if rm = .dynamic then
    let frm := core.getCsr .frm
    if frm > 0b100 then
      .error (.runtimeError ("Invalid dynamic rounding mode " ++ fmtDec frm.toNat))
    else .ok (RoundingMode.ofCode (frm.setWidth 32))
  else .ok rm

/-- The lambda `append_fp_flags`: accrue the flags, if there are any. -/
def fpFlagWrites (core : Core) (result : FpResult) : List RegWrite :=
  if result.flags ≠ 0 then
    [csrWrite Csr.fflags.num (core.getCsr .fflags ||| result.flags.setWidth 64)]
  else []

/-- `case OpFpType::Class`: the class bit of an unpacked operand. -/
def classBit (operand : UnpackedFp32) : BitVec 64 :=
  match operand.fpClass with
  | .infinity => if operand.sign then 1#64 <<< 0 else 1#64 <<< 7
  | .normal => if operand.sign then 1#64 <<< 1 else 1#64 <<< 6
  | .subnormal => if operand.sign then 1#64 <<< 2 else 1#64 <<< 5
  | .zero => if operand.sign then 1#64 <<< 3 else 1#64 <<< 4
  | .signalingNaN => 1#64 <<< 8
  | .quietNaN => 1#64 <<< 9

/-- `get_fpr`, passed as a `std::uint32_t` argument. -/
def fprWord (core : Core) (index : RegIndex) : BitVec 32 := (core.getFpr index).setWidth 32

/-- `Executor::execute(OpFpInsn)`. -/
def executeOpFp (core : Core) (insn : OpFpInsn) : Except Fault StepResult := do
  let rm ← resolveRounding core insn.rm
  -- the flags come before the destination, as `append_fp_flags` is called first
  let toF (result : FpResult) : StepResult := .normal
    { regWrites := fpFlagWrites core result ++ [fWrite insn.rd result.value] }
  let toX (result : FpResult) : StepResult := .normal
    { regWrites := fpFlagWrites core result ++ [xWrite insn.rd result.value] }
  match insn.type with
  | .add | .sub | .mul | .div | .min | .max | .sgnj | .sgnjn | .sgnjx =>
      toF <$> Fpu.binary insn.type (fprWord core insn.rs1) (fprWord core insn.rs2) rm
  | .sqrt => toF <$> Fpu.unary insn.type (fprWord core insn.rs1) rm
  | .cvtWFromS | .cvtWuFromS | .cvtLFromS | .cvtLuFromS =>
      toX <$> Fpu.convert insn.type (core.getFpr insn.rs1) rm
  | .eq | .lt | .le =>
      toX <$> Fpu.binary insn.type (fprWord core insn.rs1) (fprWord core insn.rs2) rm
  | .cvtSToW | .cvtSToWu | .cvtSToL | .cvtSToLu =>
      toF <$> Fpu.convert insn.type (core.getGpr insn.rs1) rm
  | .fclass => do
      let operand ← UnpackedFp32.ofRaw (fprWord core insn.rs1)
      return .normal { regWrites := [xWrite insn.rd (classBit operand)] }
  | .moveToX =>
      .ok (.normal { regWrites := [xWrite insn.rd ((fprWord core insn.rs1).signExtend 64)] })
  | .moveFromX =>
      .ok (.normal
        { regWrites :=
            [fWrite insn.rd (((core.getGpr insn.rs1).setWidth 32 : BitVec 32).setWidth 64)] })

/-- `Executor::execute(FmaFpInsn)`. -/
def executeFmaFp (core : Core) (insn : FmaFpInsn) : Except Fault StepResult := do
  let rm ← resolveRounding core insn.rm
  let result ← Fpu.fma insn.type (fprWord core insn.rs1) (fprWord core insn.rs2)
    (fprWord core insn.rs3) rm
  return .normal { regWrites := fpFlagWrites core result ++ [fWrite insn.rd result.value] }

/-! ## §7. The visitor -/

/-- `std::visit` of the overloads of `Executor::execute`. -/
def execute (core : Core) (mem : Memory) : DecodedInsn → Except Fault StepResult
  | .lui insn => executeLui insn
  | .auipc insn => executeAuipc core insn
  | .jal insn => executeJal core insn
  | .jalr insn => executeJalr core insn
  | .branch insn => executeBranch core insn
  | .load insn => executeLoad core mem insn
  | .store insn => executeStore core insn
  | .opImm insn => executeOpImm core insn
  | .op insn => executeOp core insn
  | .miscMem insn => executeMiscMem core insn
  | .system insn => executeSystem core insn
  | .opImm32 insn => executeOpImm32 core insn
  | .op32 insn => executeOp32 core insn
  | .loadFp insn => executeLoadFp core mem insn
  | .storeFp insn => executeStoreFp core insn
  | .opFp insn => executeOpFp core insn
  | .fmaFp insn => executeFmaFp core insn
  | .invalid =>
      .error (.runtimeError
        ("Execute for INVALID is not implemented at " ++ fmtHex 8 core.pc.toNat))

end ZincSim
