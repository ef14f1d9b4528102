/-
  ZincSim.Machine.Decode — `Decoder::decode` of `decode.cpp`.

  The field getters keep the shifts and masks of the source.  A register or CSR
  getter masks its field to five or twelve bits, so it is truncated to that
  width without loss.
-/
import ZincSim.Machine.Insn

namespace ZincSim

/-! ## §1. Opcode and function constants -/

def opcodeLui : BitVec 32 := 0b0110111
def opcodeAuipc : BitVec 32 := 0b0010111
def opcodeJal : BitVec 32 := 0b1101111
def opcodeJalr : BitVec 32 := 0b1100111
def opcodeBranch : BitVec 32 := 0b1100011
def opcodeLoad : BitVec 32 := 0b0000011
def opcodeStore : BitVec 32 := 0b0100011
def opcodeOpImm : BitVec 32 := 0b0010011
def opcodeOp : BitVec 32 := 0b0110011
def opcodeMiscMem : BitVec 32 := 0b0001111
def opcodeSystem : BitVec 32 := 0b1110011
def opcodeOpImm32 : BitVec 32 := 0b0011011
def opcodeOp32 : BitVec 32 := 0b0111011

def opcodeLoadFp : BitVec 32 := 0b0000111
def opcodeStoreFp : BitVec 32 := 0b0100111
def opcodeMaddFp : BitVec 32 := 0b1000011
def opcodeMsubFp : BitVec 32 := 0b1000111
def opcodeNmsubFp : BitVec 32 := 0b1001011
def opcodeNmaddFp : BitVec 32 := 0b1001111
def opcodeOpFp : BitVec 32 := 0b1010011

def opFpFunct7AddS : BitVec 32 := 0b0000000
def opFpFunct7SubS : BitVec 32 := 0b0000100
def opFpFunct7MulS : BitVec 32 := 0b0001000
def opFpFunct7DivS : BitVec 32 := 0b0001100
def opFpFunct7SgnjS : BitVec 32 := 0b0010000
def opFpFunct7MinMaxS : BitVec 32 := 0b0010100
def opFpFunct7SqrtS : BitVec 32 := 0b0101100
def opFpFunct7CompareS : BitVec 32 := 0b1010000
def opFpFunct7CvtToIntS : BitVec 32 := 0b1100000
def opFpFunct7CvtFromIntS : BitVec 32 := 0b1101000
def opFpFunct7MoveToIntOrClassS : BitVec 32 := 0b1110000
def opFpFunct7MoveFromIntS : BitVec 32 := 0b1111000

def opSgnjFunct3Inject : BitVec 32 := 0b000
def opSgnjFunct3InjectNegated : BitVec 32 := 0b001
def opSgnjFunct3InjectXor : BitVec 32 := 0b010

def opFmvFunct3 : BitVec 32 := 0b000
def opFclassFunct3 : BitVec 32 := 0b001
def opEqFunct3 : BitVec 32 := 0b010
def opLtFunct3 : BitVec 32 := 0b001
def opLeFunct3 : BitVec 32 := 0b000

def opMinFunct3 : BitVec 32 := 0b000
def opMaxFunct3 : BitVec 32 := 0b001

def opFcvtRs2W : BitVec 32 := 0b00000
def opFcvtRs2Wu : BitVec 32 := 0b00001
def opFcvtRs2L : BitVec 32 := 0b00010
def opFcvtRs2Lu : BitVec 32 := 0b00011

/-! ## §2. Field getters -/

def getOpcode (insn : BitVec 32) : BitVec 32 := insn &&& 0b1111111

/-- The `int32_t` cast sign-extends bit 31. -/
def getUTypeImm (insn : BitVec 32) : BitVec 64 :=
  (insn &&& 0b11111111111111111111000000000000).signExtend 64

/-- `static_cast<std::int64_t>(value << n_shift) >> n_shift`. -/
def signExtendBits (value : BitVec 64) (nBits : Nat) : BitVec 64 :=
  let nShift := 64 - nBits
  (value <<< nShift).sshiftRight nShift

def getJTypeImm (insn : BitVec 32) : BitVec 64 :=
  let uImm : BitVec 32 :=
    (((insn >>> 31) &&& 0x1#32) <<< 20) |||
    (((insn >>> 21) &&& 0x3ff#32) <<< 1) |||
    (((insn >>> 20) &&& 0x1#32) <<< 11) |||
    (((insn >>> 12) &&& 0xff#32) <<< 12)
  signExtendBits (uImm.setWidth 64) 21

def getRd (insn : BitVec 32) : RegIndex := (0x1f#32 &&& (insn >>> 7)).setWidth 5

def getFunct3 (insn : BitVec 32) : BitVec 32 := 0x7#32 &&& (insn >>> 12)

def getFunct7 (insn : BitVec 32) : BitVec 32 := 0x7f#32 &&& (insn >>> 25)

def getShamt (insn : BitVec 32) : BitVec 32 := 0x3f#32 &&& (insn >>> 20)

def getRs2 (insn : BitVec 32) : RegIndex := (0x1f#32 &&& (insn >>> 20)).setWidth 5

def getRs3 (insn : BitVec 32) : RegIndex := (0x1f#32 &&& (insn >>> 27)).setWidth 5

def getFmt (insn : BitVec 32) : BitVec 32 := 0x3#32 &&& (insn >>> 25)

def getZicsrCsr (insn : BitVec 32) : BitVec 12 := (0xfff#32 &&& (insn >>> 20)).setWidth 12

def getRs1 (insn : BitVec 32) : RegIndex := (0x1f#32 &&& (insn >>> 15)).setWidth 5

def getZicsrUimm (insn : BitVec 32) : BitVec 5 := (0x1f#32 &&& (insn >>> 15)).setWidth 5

def getITypeImm (insn : BitVec 32) : BitVec 64 :=
  signExtendBits ((0xfff#32 &&& (insn >>> 20)).setWidth 64) 12

def getSTypeImm (insn : BitVec 32) : BitVec 64 :=
  let uImm : BitVec 32 :=
    (((insn >>> 25) &&& 0x7f#32) <<< 5) |||
    ((insn >>> 7) &&& 0x1f#32)
  signExtendBits (uImm.setWidth 64) 12

def getBTypeImm (insn : BitVec 32) : BitVec 64 :=
  let uImm : BitVec 32 :=
    (((insn >>> 31) &&& 0x1#32) <<< 12) |||
    (((insn >>> 25) &&& 0x3f#32) <<< 5) |||
    (((insn >>> 8) &&& 0xf#32) <<< 1) |||
    (((insn >>> 7) &&& 0x1#32) <<< 11)
  signExtendBits (uImm.setWidth 64) 13

/-! ## §3. The floating-point operation of an OP-FP word -/

/-- The `switch (funct7)` of `case OPCODE_OP_FP`. -/
def decodeOpFpType (insn : BitVec 32) : Except Fault OpFpType :=
  let funct7 := getFunct7 insn
  let funct3 := getFunct3 insn
  let rs2 : BitVec 32 := (getRs2 insn).setWidth 32
  if funct7 = opFpFunct7AddS then .ok .add
  else if funct7 = opFpFunct7SubS then .ok .sub
  else if funct7 = opFpFunct7MulS then .ok .mul
  else if funct7 = opFpFunct7DivS then .ok .div
  else if funct7 = opFpFunct7MinMaxS then
    if funct3 = opMinFunct3 then .ok .min
    else if funct3 = opMaxFunct3 then .ok .max
    else .error (.runtimeError
      ("Invalid funct3 " ++ fmtBin 3 funct3.toNat ++ " for FMIN.S/FMAX.S instruction"))
  else if funct7 = opFpFunct7SqrtS then
    if rs2 ≠ 0 then
      .error (.runtimeError ("Invalid FSQRT.S instruction " ++ fmtHex 8 insn.toNat))
    else .ok .sqrt
  else if funct7 = opFpFunct7SgnjS then
    if funct3 = opSgnjFunct3Inject then .ok .sgnj
    else if funct3 = opSgnjFunct3InjectNegated then .ok .sgnjn
    else if funct3 = opSgnjFunct3InjectXor then .ok .sgnjx
    else .error (.runtimeError
      ("Invalid funct3 " ++ fmtBin 3 funct3.toNat ++ " for Sign Injection instruction."))
  else if funct7 = opFpFunct7MoveToIntOrClassS then
    if rs2 ≠ 0 then
      .error (.runtimeError ("Invalid FMV.X.W/FCLASS.S instruction " ++ fmtHex 8 insn.toNat))
    else if funct3 = opFmvFunct3 then .ok .moveToX
    else if funct3 = opFclassFunct3 then .ok .fclass
    else .error (.runtimeError
      ("Invalid funct3 " ++ fmtBin 3 funct3.toNat ++ " for FMV.X.W/FCLASS.S instruction"))
  else if funct7 = opFpFunct7MoveFromIntS then
    if funct3 ≠ opFmvFunct3 ∨ rs2 ≠ 0 then
      .error (.runtimeError ("Invalid FMV.W.X instruction " ++ fmtHex 8 insn.toNat))
    else .ok .moveFromX
  else if funct7 = opFpFunct7CompareS then
    if funct3 = opEqFunct3 then .ok .eq
    else if funct3 = opLtFunct3 then .ok .lt
    else if funct3 = opLeFunct3 then .ok .le
    else .error (.runtimeError
      ("Invalid funct3 " ++ fmtBin 3 funct3.toNat ++ " for FP compare instruction"))
  else if funct7 = opFpFunct7CvtToIntS then
    if rs2 = opFcvtRs2W then .ok .cvtWFromS
    else if rs2 = opFcvtRs2Wu then .ok .cvtWuFromS
    else if rs2 = opFcvtRs2L then .ok .cvtLFromS
    else if rs2 = opFcvtRs2Lu then .ok .cvtLuFromS
    else .error (.runtimeError
      ("Invalid rs2 " ++ fmtBin 5 rs2.toNat ++ " for FP-to-integer conversion"))
  else if funct7 = opFpFunct7CvtFromIntS then
    if rs2 = opFcvtRs2W then .ok .cvtSToW
    else if rs2 = opFcvtRs2Wu then .ok .cvtSToWu
    else if rs2 = opFcvtRs2L then .ok .cvtSToL
    else if rs2 = opFcvtRs2Lu then .ok .cvtSToLu
    else .error (.runtimeError
      ("Invalid rs2 " ++ fmtBin 5 rs2.toNat ++ " for integer-to-FP conversion"))
  else .error (.runtimeError
    ("Funct7 " ++ fmtBin 7 funct7.toNat ++ " for OpFpInsn not implemented, cannot decode"))

/-! ## §4. `Decoder::decode` -/

/-- The instruction built by `case OPCODE_SYSTEM`. -/
def decodeSystem (insn : BitVec 32) : SystemInsn :=
  let funct3 := getFunct3 insn
  { type :=
      -- ecall, ebreak and mret are told apart by the immediate
      if funct3 = 0 then
        SystemInsnType.ofCode (((getITypeImm insn <<< 3) ||| funct3.setWidth 64).setWidth 32)
      else SystemInsnType.ofCode funct3
    csr := getZicsrCsr insn
    rs1 := getRs1 insn
    uimm := getZicsrUimm insn
    rd := getRd insn }

/-- The instruction built by `case OPCODE_OP_IMM`. -/
def decodeOpImm (insn : BitVec 32) : OpImmInsn :=
  let funct3 := getFunct3 insn
  if funct3 = 0b101 ∨ funct3 = 0b001 then
    -- a shift: bit 25 belongs to the amount, so only six bits name the operation
    { type := OpType.ofCode ((((insn >>> 26) &&& 0x3f#32) <<< 4) ||| funct3)
      imm := ((insn >>> 20) &&& 0x3f#32).setWidth 64
      rs1 := getRs1 insn
      rd := getRd insn }
  else
    { type := OpType.ofCode funct3
      imm := getITypeImm insn
      rs1 := getRs1 insn
      rd := getRd insn }

/-- The instruction built by `case OPCODE_OP_IMM_32`. -/
def decodeOpImm32 (insn : BitVec 32) : OpImm32Insn :=
  let funct3 := getFunct3 insn
  if funct3 = 0b101 ∨ funct3 = 0b001 then
    -- a word shift: all seven bits of funct7, bit 25 also in the amount
    { type := OpType.ofCode ((getFunct7 insn <<< 3) ||| funct3)
      imm := (getShamt insn).setWidth 64
      rs1 := getRs1 insn
      rd := getRd insn }
  else
    { type := OpType.ofCode funct3
      imm := getITypeImm insn
      rs1 := getRs1 insn
      rd := getRd insn }

/-- The instruction built by `case OPCODE_MADD_FP` and its three siblings. -/
def decodeFmaFp (insn : BitVec 32) : Except Fault FmaFpInsn :=
  if getFmt insn ≠ 0b00 then
    .error (.runtimeError ("Unsupported FMA format " ++ fmtBin 2 (getFmt insn).toNat))
  else
    let opcode := getOpcode insn
    -- the four operations share their fields and differ in the opcode only
    let build (type : FmaFpType) : FmaFpInsn :=
      { type := type
        rm := RoundingMode.ofCode (getFunct3 insn)
        rs1 := getRs1 insn
        rs2 := getRs2 insn
        rs3 := getRs3 insn
        rd := getRd insn }
    if opcode = opcodeMaddFp then .ok (build .mAdd)
    else if opcode = opcodeMsubFp then .ok (build .mSub)
    else if opcode = opcodeNmsubFp then .ok (build .nmSub)
    else if opcode = opcodeNmaddFp then .ok (build .nmAdd)
    else .error (.logicError "Invalid FMA opcode")

/-- `Decoder::decode`. -/
def decode (insn : BitVec 32) : Except Fault DecodedInsn :=
  let opcode := getOpcode insn
  if opcode = opcodeJal then
    .ok (.jal { imm := getJTypeImm insn, rd := getRd insn })
  else if opcode = opcodeSystem then .ok (.system (decodeSystem insn))
  else if opcode = opcodeOpImm then .ok (.opImm (decodeOpImm insn))
  else if opcode = opcodeBranch then
    .ok (.branch
      { type := BranchType.ofCode (getFunct3 insn)
        imm := getBTypeImm insn
        rs1 := getRs1 insn
        rs2 := getRs2 insn })
  else if opcode = opcodeJalr then
    .ok (.jalr { imm := getITypeImm insn, rs1 := getRs1 insn, rd := getRd insn })
  else if opcode = opcodeAuipc then
    .ok (.auipc { imm := getUTypeImm insn, rd := getRd insn })
  else if opcode = opcodeStore then
    .ok (.store
      { type := MemAccessType.ofCode (getFunct3 insn)
        imm := getSTypeImm insn
        rs1 := getRs1 insn
        rs2 := getRs2 insn })
  else if opcode = opcodeLoad then
    .ok (.load
      { type := MemAccessType.ofCode (getFunct3 insn)
        imm := getITypeImm insn
        rs1 := getRs1 insn
        rd := getRd insn })
  else if opcode = opcodeOpImm32 then .ok (.opImm32 (decodeOpImm32 insn))
  else if opcode = opcodeMiscMem then
    .ok (.miscMem { type := MiscMemInsnType.ofCode (getFunct3 insn) })
  else if opcode = opcodeLui then
    .ok (.lui { imm := getUTypeImm insn, rd := getRd insn })
  else if opcode = opcodeOp then
    .ok (.op
      { type := OpType.ofCode ((getFunct7 insn <<< 3) ||| getFunct3 insn)
        rs1 := getRs1 insn
        rs2 := getRs2 insn
        rd := getRd insn })
  else if opcode = opcodeOp32 then
    .ok (.op32
      { type := OpType.ofCode ((getFunct7 insn <<< 3) ||| getFunct3 insn)
        rs1 := getRs1 insn
        rs2 := getRs2 insn
        rd := getRd insn })
  else if opcode = opcodeLoadFp then
    .ok (.loadFp { imm := getITypeImm insn, rs1 := getRs1 insn, rd := getRd insn })
  else if opcode = opcodeStoreFp then
    .ok (.storeFp { imm := getSTypeImm insn, rs1 := getRs1 insn, rs2 := getRs2 insn })
  else if opcode = opcodeMaddFp ∨ opcode = opcodeMsubFp ∨ opcode = opcodeNmsubFp ∨
      opcode = opcodeNmaddFp then
    .fmaFp <$> decodeFmaFp insn
  else if opcode = opcodeOpFp then do
    let type ← decodeOpFpType insn
    return .opFp
      { type := type
        rm := RoundingMode.ofCode (getFunct3 insn)
        rs1 := getRs1 insn
        rs2 := getRs2 insn
        rd := getRd insn }
  else .ok .invalid

end ZincSim
