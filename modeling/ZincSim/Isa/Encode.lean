/-
  ZincSim.Isa.Encode — decoding loses nothing.

  `encode` writes the fields of a decoded instruction back into the standard formats.
  On every word of `Covered` it undoes `decode`, and the immediate is the signed value of
  its field (`decode_lossless`).
-/
import ZincSim.Isa.Decode
import ZincSim.Lib.Returns
import ZincSim.Lib.TwosComplement

namespace ZincSim

open Rv64im
open Except (Returns returns_ok returns_error returns_bind returns_bind_any returns_ite)

/-! ## §1. Codes -/

/-- `static_cast<std::uint32_t>(rm)`. -/
def RoundingMode.code : RoundingMode → BitVec 32
  | .rne => 0b000 | .rtz => 0b001 | .rdn => 0b010 | .rup => 0b011 | .rmm => 0b100
  | .dynamic => 0b111
  | .other code => code

theorem BranchType.code_ofCode (code : BitVec 32) : (BranchType.ofCode code).code = code := by
  unfold BranchType.ofCode
  split <;> rfl

theorem MemAccessType.code_ofCode (code : BitVec 32) :
    (MemAccessType.ofCode code).code = code := by
  unfold MemAccessType.ofCode
  split <;> rfl

theorem OpType.code_ofCode (code : BitVec 32) : (OpType.ofCode code).code = code := by
  unfold OpType.ofCode
  split <;> rfl

theorem SystemInsnType.code_ofCode (code : BitVec 32) :
    (SystemInsnType.ofCode code).code = code := by
  unfold SystemInsnType.ofCode
  split <;> rfl

theorem RoundingMode.code_ofCode (code : BitVec 32) : (RoundingMode.ofCode code).code = code := by
  unfold RoundingMode.ofCode
  split <;> rfl

/-- The `funct7` of an OP-FP operation. -/
def opFpFunct7 : OpFpType → BitVec 7
  | .add => 0b0000000 | .sub => 0b0000100 | .mul => 0b0001000 | .div => 0b0001100
  | .sqrt => 0b0101100
  | .min | .max => 0b0010100
  | .sgnj | .sgnjn | .sgnjx => 0b0010000
  | .eq | .lt | .le => 0b1010000
  | .fclass | .moveToX => 0b1110000
  | .moveFromX => 0b1111000
  | .cvtWFromS | .cvtWuFromS | .cvtLFromS | .cvtLuFromS => 0b1100000
  | .cvtSToW | .cvtSToWu | .cvtSToL | .cvtSToLu => 0b1101000

/-- The `funct3` of an OP-FP operation that has one; in the others the field holds the
rounding mode. -/
def opFpFunct3 : OpFpType → Option (BitVec 3)
  | .sgnj | .min | .le | .moveToX | .moveFromX => some 0b000
  | .sgnjn | .max | .lt | .fclass => some 0b001
  | .sgnjx | .eq => some 0b010
  | _ => none

/-- The rs2 field of an OP-FP operation that has one operand. -/
def opFpRs2 : OpFpType → Option (BitVec 5)
  | .sqrt | .fclass | .moveToX | .moveFromX => some 0b00000
  | .cvtWFromS | .cvtSToW => some 0b00000
  | .cvtWuFromS | .cvtSToWu => some 0b00001
  | .cvtLFromS | .cvtSToL => some 0b00010
  | .cvtLuFromS | .cvtSToLu => some 0b00011
  | _ => none

/-- The opcode of an FMA operation. -/
def fmaOpcode : FmaFpType → BitVec 7
  | .mAdd => 0b1000011 | .mSub => 0b1000111 | .nmSub => 0b1001011 | .nmAdd => 0b1001111

/-! ## §2. The encoder -/

/-- The shifts of OP-IMM and OP-IMM-32: their `funct3` is 001 or 101. -/
def IsShift (funct3 : BitVec 3) : Prop := funct3 = 0b101 ∨ funct3 = 0b001

instance (funct3 : BitVec 3) : Decidable (IsShift funct3) := inferInstanceAs (Decidable (_ ∨ _))

/-- The twelve bits above rs1 of an OP-IMM word: a shift has its six-bit amount and
`funct6` there. -/
def opImmField (insn : OpImmInsn) : BitVec 12 :=
  if IsShift (insn.type.code.setWidth 3) then
    (insn.type.code >>> 4).setWidth 6 ++ insn.imm.setWidth 6
  else insn.imm.setWidth 12

/-- The same for OP-IMM-32, where `funct7` overlaps the sixth bit of the amount. -/
def opImm32Field (insn : OpImm32Insn) : BitVec 12 :=
  if IsShift (insn.type.code.setWidth 3) then
    (insn.type.code >>> 3).setWidth 7 ++ insn.imm.setWidth 5
  else insn.imm.setWidth 12

/-- **The fields of an instruction in its format.**  MISC-MEM keeps too few fields to be
written back, and `InvalidInsn` none. -/
def encode : DecodedInsn → Option (BitVec 32)
  | .lui insn => some (formatU insn.rd 0b0110111 (insn.imm.setWidth 32))
  | .auipc insn => some (formatU insn.rd 0b0010111 (insn.imm.setWidth 32))
  | .jal insn => some (formatJ insn.rd 0b1101111 (insn.imm.setWidth 21))
  | .jalr insn => some (formatI insn.rs1 insn.rd 0b000 0b1100111 (insn.imm.setWidth 12))
  | .branch insn =>
      some (formatB insn.rs2 insn.rs1 (insn.type.code.setWidth 3) 0b1100011
        (insn.imm.setWidth 13))
  | .load insn =>
      some (formatI insn.rs1 insn.rd (insn.type.code.setWidth 3) 0b0000011
        (insn.imm.setWidth 12))
  | .store insn =>
      some (formatS insn.rs2 insn.rs1 (insn.type.code.setWidth 3) 0b0100011
        (insn.imm.setWidth 12))
  | .opImm insn =>
      some (formatI insn.rs1 insn.rd (insn.type.code.setWidth 3) 0b0010011 (opImmField insn))
  | .op insn =>
      some (formatR insn.rs2 insn.rs1 insn.rd (insn.type.code.setWidth 3) 0b0110011
        ((insn.type.code >>> 3).setWidth 7))
  | .opImm32 insn =>
      some (formatI insn.rs1 insn.rd (insn.type.code.setWidth 3) 0b0011011 (opImm32Field insn))
  | .op32 insn =>
      some (formatR insn.rs2 insn.rs1 insn.rd (insn.type.code.setWidth 3) 0b0111011
        ((insn.type.code >>> 3).setWidth 7))
  | .system insn =>
      some (formatI insn.rs1 insn.rd (insn.type.code.setWidth 3) 0b1110011 insn.csr)
  | .loadFp insn => some (formatI insn.rs1 insn.rd 0b010 0b0000111 (insn.imm.setWidth 12))
  | .storeFp insn => some (formatS insn.rs2 insn.rs1 0b010 0b0100111 (insn.imm.setWidth 12))
  | .opFp insn =>
      some (formatR insn.rs2 insn.rs1 insn.rd (insn.rm.code.setWidth 3) 0b1010011
        (opFpFunct7 insn.type))
  | .fmaFp insn =>
      some (formatR4 insn.rs3 insn.rs2 insn.rs1 insn.rd (insn.rm.code.setWidth 3)
        (fmaOpcode insn.type) 0b00)
  | .miscMem _ | .invalid => none

/-! ## §3. Packed operation codes -/

section Packed

variable {n : Nat} (high : BitVec n) (funct3 : BitVec 3)

/-- `funct3` at the bottom of a packed code. -/
theorem packed_low (k : Nat) (hk : 3 ≤ k) :
    ((high.setWidth 32 <<< k) ||| funct3.setWidth 32).setWidth 3 = funct3 := by
  apply BitVec.eq_of_getLsbD_eq
  intro i hi
  have hlow : i < k := by omega
  simp [hi, hlow]

/-- The field above it. -/
theorem packed_high (k : Nat) (hk : 3 ≤ k) (hn : n + k ≤ 32) :
    (((high.setWidth 32 <<< k) ||| funct3.setWidth 32) >>> k).setWidth n = high := by
  apply BitVec.eq_of_getLsbD_eq
  intro i hi
  have hword : k + i < 32 := by omega
  have hfunct3 : funct3.getLsbD (k + i) = false := BitVec.getLsbD_of_ge _ _ (by omega)
  have hsub : i < 32 := by omega
  simp [hi, hword, hfunct3, hsub]

theorem setWidth_funct3 : (funct3.setWidth 32).setWidth 3 = funct3 := by
  rw [BitVec.setWidth_setWidth_of_le _ (by decide), BitVec.setWidth_eq]

end Packed

/-! ## §4. The rows of the decoder -/

/-- The immediate of the decoded instruction is the one its format defines: the signed
value of a field of 12, 13, 21 or 32 bits, even for branches and JAL; six unsigned bits
for the shifts of OP-IMM and OP-IMM-32. -/
def SpecImmediate (word : BitVec 32) : DecodedInsn → Prop
  | .lui insn => insn.imm.toInt = (fieldU word).toInt
  | .auipc insn => insn.imm.toInt = (fieldU word).toInt
  | .jal insn => insn.imm.toInt = (fieldJ word).toInt ∧ 2 ∣ insn.imm.toInt
  | .branch insn => insn.imm.toInt = (fieldB word).toInt ∧ 2 ∣ insn.imm.toInt
  | .jalr insn => insn.imm.toInt = (fieldI word).toInt
  | .load insn => insn.imm.toInt = (fieldI word).toInt
  | .loadFp insn => insn.imm.toInt = (fieldI word).toInt
  | .store insn => insn.imm.toInt = (fieldS word).toInt
  | .storeFp insn => insn.imm.toInt = (fieldS word).toInt
  | .opImm insn =>
      if IsShift (funct3 word) then insn.imm.toInt = (shamt6 word).toNat
      else insn.imm.toInt = (fieldI word).toInt
  | .opImm32 insn =>
      if IsShift (funct3 word) then insn.imm.toInt = (shamt6 word).toNat
      else insn.imm.toInt = (fieldI word).toInt
  | .system insn => insn.csr = fieldI word ∧ insn.uimm = rs1 word
  | .op _ | .op32 _ | .opFp _ | .fmaFp _ | .miscMem _ | .invalid => True

/-- The word decodes without loss. -/
def Lossless (word : BitVec 32) : Prop :=
  ∃ insn, decode word = .ok insn ∧ encode insn = some word ∧ SpecImmediate word insn

section Rows

variable {word : BitVec 32}

theorem toInt_imm {n : Nat} (field : BitVec n) (h : n ≤ 64) :
    (field.signExtend 64).toInt = field.toInt := BitVec.toInt_signExtend_of_le h

/-- A row of the table. -/
theorem lossless_of_row (insn : DecodedInsn)
    (hrow : decodeRow (opcode word) word = .ok insn) (hencode : encode insn = some word)
    (himm : SpecImmediate word insn) : Lossless word :=
  ⟨insn, (decode_eq_row word).trans hrow, hencode, himm⟩

/-- LUI and AUIPC. -/
theorem lossless_upper (h : opcode word = 0b0110111 ∨ opcode word = 0b0010111) :
    Lossless word := by
  have hfield : (immU word).setWidth 32 = fieldU word :=
    TwosComplement.setWidth_signExtend (fieldU word) (by decide)
  have himm := toInt_imm (fieldU word) (by decide)
  rcases h with h | h
  · refine lossless_of_row (.lui { imm := immU word, rd := rd word })
      (by rw [h]; rfl) ?_ himm
    rw [encode, hfield, ← h, formatU_fields]
  · refine lossless_of_row (.auipc { imm := immU word, rd := rd word })
      (by rw [h]; rfl) ?_ himm
    rw [encode, hfield, ← h, formatU_fields]

theorem lossless_jal (h : opcode word = 0b1101111) : Lossless word := by
  have hfield : (immJ word).setWidth 21 = fieldJ word :=
    TwosComplement.setWidth_signExtend (fieldJ word) (by decide)
  have himm : (immJ word).toInt = (fieldJ word).toInt := toInt_imm (fieldJ word) (by decide)
  refine lossless_of_row (.jal { imm := immJ word, rd := rd word }) (by rw [h]; rfl) ?_
    ⟨himm, ?_⟩
  · rw [encode, hfield, ← h, formatJ_fields]
  · rw [himm]
    exact two_dvd_toInt_append _

theorem lossless_branch (h : opcode word = 0b1100011) : Lossless word := by
  have hfield : (immB word).setWidth 13 = fieldB word :=
    TwosComplement.setWidth_signExtend (fieldB word) (by decide)
  have himm : (immB word).toInt = (fieldB word).toInt := toInt_imm (fieldB word) (by decide)
  refine lossless_of_row (.branch ⟨.ofCode ((funct3 word).setWidth 32), immB word,
    rs1 word, rs2 word⟩) (by rw [h]; rfl) ?_ ⟨himm, ?_⟩
  · rw [encode, BranchType.code_ofCode, setWidth_funct3, hfield, ← h, formatB_fields]
  · rw [himm]
    exact two_dvd_toInt_append _

theorem setWidth_immI : (immI word).setWidth 12 = fieldI word :=
  TwosComplement.setWidth_signExtend (fieldI word) (by decide)

theorem setWidth_immS : (immS word).setWidth 12 = fieldS word :=
  TwosComplement.setWidth_signExtend (fieldS word) (by decide)

theorem toInt_immI : (immI word).toInt = (fieldI word).toInt :=
  toInt_imm (fieldI word) (by decide)

theorem toInt_immS : (immS word).toInt = (fieldS word).toInt :=
  toInt_imm (fieldS word) (by decide)

theorem lossless_load (h : opcode word = 0b0000011) : Lossless word := by
  refine lossless_of_row (.load ⟨.ofCode ((funct3 word).setWidth 32), immI word,
    rs1 word, rd word⟩) (by rw [h]; rfl) ?_ toInt_immI
  rw [encode, MemAccessType.code_ofCode, setWidth_funct3, setWidth_immI, ← h, formatI_fields]

theorem lossless_store (h : opcode word = 0b0100011) : Lossless word := by
  refine lossless_of_row (.store ⟨.ofCode ((funct3 word).setWidth 32), immS word,
    rs1 word, rs2 word⟩) (by rw [h]; rfl) ?_ toInt_immS
  rw [encode, MemAccessType.code_ofCode, setWidth_funct3, setWidth_immS, ← h, formatS_fields]

/-- JALR keeps no `funct3`, so it is written back as 000. -/
theorem lossless_jalr (h : opcode word = 0b1100111) (h3 : funct3 word = 0b000) :
    Lossless word := by
  refine lossless_of_row (.jalr ⟨immI word, rs1 word, rd word⟩) (by rw [h]; rfl) ?_
    toInt_immI
  rw [encode, setWidth_immI, ← h, ← h3, formatI_fields]

/-- LOAD-FP and STORE-FP keep none either: 010, the width of a single. -/
theorem lossless_fpAccess (h : opcode word = 0b0000111 ∨ opcode word = 0b0100111)
    (h3 : funct3 word = 0b010) : Lossless word := by
  rcases h with h | h
  · refine lossless_of_row (.loadFp ⟨immI word, rs1 word, rd word⟩) (by rw [h]; rfl) ?_
      toInt_immI
    rw [encode, setWidth_immI, ← h, ← h3, formatI_fields]
  · refine lossless_of_row (.storeFp ⟨immS word, rs1 word, rs2 word⟩) (by rw [h]; rfl) ?_
      toInt_immS
    rw [encode, setWidth_immS, ← h, ← h3, formatS_fields]

/-- OP and OP-32. -/
theorem lossless_op (h : opcode word = 0b0110011 ∨ opcode word = 0b0111011) :
    Lossless word := by
  have hlow := packed_low (funct7 word) (funct3 word) 3 (by decide)
  have hhigh := packed_high (funct7 word) (funct3 word) 3 (by decide) (by decide)
  rcases h with h | h
  · refine lossless_of_row (.op ⟨.ofCode (((funct7 word).setWidth 32 <<< 3) |||
      (funct3 word).setWidth 32), rs1 word, rs2 word, rd word⟩) (by rw [h]; rfl) ?_ trivial
    rw [encode, OpType.code_ofCode, hlow, hhigh, ← h, formatR_fields]
  · refine lossless_of_row (.op32 ⟨.ofCode (((funct7 word).setWidth 32 <<< 3) |||
      (funct3 word).setWidth 32), rs1 word, rs2 word, rd word⟩) (by rw [h]; rfl) ?_ trivial
    rw [encode, OpType.code_ofCode, hlow, hhigh, ← h, formatR_fields]

/-- The decoder tests the widened `funct3`. -/
theorem isShift_iff (funct3 : BitVec 3) :
    (funct3.setWidth 32 = (0b101 : BitVec 32) ∨ funct3.setWidth 32 = (0b001 : BitVec 32)) ↔
      IsShift funct3 := by
  revert funct3
  decide

/-- An unsigned amount is its own value. -/
theorem toInt_shamt : ((shamt6 word).setWidth 64).toInt = (shamt6 word).toNat := by
  have hlt := (shamt6 word).isLt
  rw [BitVec.toInt_eq_toNat_of_lt]
  · rw [BitVec.toNat_setWidth_of_le (by decide)]
  · rw [BitVec.toNat_setWidth_of_le (by decide)]
    omega

theorem lossless_opImm (h : opcode word = 0b0010011) : Lossless word := by
  have hfunct6 : (word >>> 26) &&& 0x3f#32 = (funct6 word).setWidth 32 :=
    BitField.shiftRight_and_lowMask word 26 6 (by decide)
  refine lossless_of_row (.opImm (decodeOpImm word)) (by rw [h]; rfl) ?_ ?_
  all_goals
    unfold decodeOpImm
    dsimp only
    rw [getFunct3_eq, getRs1_eq, getRd_eq, getITypeImm_eq, shamt6_imm_eq, hfunct6]
    by_cases hshift : IsShift (funct3 word)
  · -- a shift: `funct6` and the amount
    rw [if_pos ((isShift_iff _).mpr hshift)]
    have hlow := packed_low (funct6 word) (funct3 word) 4 (by decide)
    have hhigh := packed_high (funct6 word) (funct3 word) 4 (by decide) (by decide)
    have hamount : ((shamt6 word).setWidth 64).setWidth 6 = shamt6 word := by
      rw [BitVec.setWidth_setWidth_of_le _ (by decide), BitVec.setWidth_eq]
    rw [encode, opImmField, OpType.code_ofCode, hlow, if_pos hshift, hhigh, hamount,
      funct6_append_shamt6, ← h, formatI_fields]
  · rw [if_neg (mt (isShift_iff _).mp hshift)]
    rw [encode, opImmField, OpType.code_ofCode, setWidth_funct3, if_neg hshift, setWidth_immI,
      ← h, formatI_fields]
  · rw [if_pos ((isShift_iff _).mpr hshift)]
    exact (if_pos hshift).mpr toInt_shamt
  · rw [if_neg (mt (isShift_iff _).mp hshift)]
    exact (if_neg hshift).mpr toInt_immI

theorem lossless_opImm32 (h : opcode word = 0b0011011) : Lossless word := by
  refine lossless_of_row (.opImm32 (decodeOpImm32 word)) (by rw [h]; rfl) ?_ ?_
  all_goals
    unfold decodeOpImm32
    dsimp only
    rw [getFunct3_eq, getFunct7_eq, getRs1_eq, getRd_eq, getITypeImm_eq, getShamt_eq]
    by_cases hshift : IsShift (funct3 word)
  · -- a shift: `funct7` and the five low bits of the amount
    rw [if_pos ((isShift_iff _).mpr hshift)]
    have hlow := packed_low (funct7 word) (funct3 word) 3 (by decide)
    have hhigh := packed_high (funct7 word) (funct3 word) 3 (by decide) (by decide)
    have hamount : (((shamt6 word).setWidth 32).setWidth 64).setWidth 5 = shamt5 word := by
      rw [BitVec.setWidth_setWidth (by decide), BitVec.setWidth_setWidth_of_le _ (by decide)]
      apply BitVec.eq_of_getLsbD_eq
      intro i hi
      have hi6 : i < 6 := by omega
      simp [shamt6, shamt5, hi, hi6]
    rw [encode, opImm32Field, OpType.code_ofCode, hlow, if_pos hshift, hhigh, hamount,
      funct7_append_shamt5, ← h, formatI_fields]
  · rw [if_neg (mt (isShift_iff _).mp hshift)]
    rw [encode, opImm32Field, OpType.code_ofCode, setWidth_funct3, if_neg hshift, setWidth_immI,
      ← h, formatI_fields]
  · rw [if_pos ((isShift_iff _).mpr hshift), BitVec.setWidth_setWidth (by decide)]
    exact (if_pos hshift).mpr toInt_shamt
  · rw [if_neg (mt (isShift_iff _).mp hshift)]
    exact (if_neg hshift).mpr toInt_immI

/-- ECALL, EBREAK and MRET share `funct3` = 000: the type then holds the immediate above
it. -/
theorem lossless_system (h : opcode word = 0b1110011) : Lossless word := by
  have hfunct3 : (decodeSystem word).type.code.setWidth 3 = funct3 word := by
    unfold decodeSystem
    dsimp only
    rw [getFunct3_eq]
    by_cases hzero : (funct3 word).setWidth 32 = (0 : BitVec 32)
    · rw [if_pos hzero, SystemInsnType.code_ofCode, hzero]
      have hf3 : funct3 word = 0 := by
        rw [← setWidth_funct3 (funct3 word), hzero]
        rfl
      rw [hf3]
      apply BitVec.eq_of_getLsbD_eq
      intro i hi
      simp [hi]
    · rw [if_neg hzero, SystemInsnType.code_ofCode, setWidth_funct3]
  refine lossless_of_row (.system (decodeSystem word)) (by rw [h]; rfl) ?_
    ⟨getZicsrCsr_eq word, getZicsrUimm_eq word⟩
  rw [encode, hfunct3]
  show some (formatI (getRs1 word) (getRd word) _ _ (getZicsrCsr word)) = _
  rw [getRs1_eq, getRd_eq, getZicsrCsr_eq, ← h, formatI_fields]

/-! ## §5. Floating point -/

/-- The fields of an OP-FP word that select its operation. -/
structure OpFpFields (word : BitVec 32) (type : OpFpType) : Prop where
  funct7 : funct7 word = opFpFunct7 type
  funct3 : ∀ value ∈ opFpFunct3 type, funct3 word = value
  rs2 : ∀ value ∈ opFpRs2 type, rs2 word = value

/-- **The operation that is decoded** is the one of the fields. -/
theorem decodeOpFpType_fields (word : BitVec 32) :
    (decodeOpFpType word).Returns (OpFpFields word) := by
  -- the decoder compares widened fields
  have field {n : Nat} {x : BitVec n} (literal : BitVec n) (hn : n ≤ 32)
      (h : x.setWidth 32 = literal.setWidth 32) : ∀ value ∈ some literal, x = value := by
    intro value hvalue
    cases hvalue
    exact BitField.setWidth_inj hn h
  have fields (type : OpFpType)
      (h7 : (Rv64im.funct7 word).setWidth 32 = (opFpFunct7 type).setWidth 32)
      (h3 : ∀ value ∈ opFpFunct3 type, Rv64im.funct3 word = value)
      (h2 : ∀ value ∈ opFpRs2 type, Rv64im.rs2 word = value) :
      (Except.ok type : Except Fault OpFpType).Returns (OpFpFields word) :=
    returns_ok ⟨BitField.setWidth_inj (by decide) h7, h3, h2⟩
  unfold decodeOpFpType
  dsimp only
  rw [getFunct7_eq, getFunct3_eq, getRs2_eq]
  -- one test of `funct7` after the other; those below it choose among its operations
  refine returns_ite (fun h7 => fields .add h7 nofun nofun) fun _ => ?_
  refine returns_ite (fun h7 => fields .sub h7 nofun nofun) fun _ => ?_
  refine returns_ite (fun h7 => fields .mul h7 nofun nofun) fun _ => ?_
  refine returns_ite (fun h7 => fields .div h7 nofun nofun) fun _ => ?_
  refine returns_ite (fun h7 =>
    returns_ite (fun h3 => fields .min h7 (field 0b000 (by decide) h3) nofun) fun _ =>
    returns_ite (fun h3 => fields .max h7 (field 0b001 (by decide) h3) nofun) fun _ =>
      returns_error _) fun _ => ?_
  refine returns_ite (fun h7 => returns_ite (fun _ => returns_error _) fun h2 =>
    fields .sqrt h7 nofun (field 0b00000 (by decide) (not_not.mp h2))) fun _ => ?_
  refine returns_ite (fun h7 =>
    returns_ite (fun h3 => fields .sgnj h7 (field 0b000 (by decide) h3) nofun) fun _ =>
    returns_ite (fun h3 => fields .sgnjn h7 (field 0b001 (by decide) h3) nofun) fun _ =>
    returns_ite (fun h3 => fields .sgnjx h7 (field 0b010 (by decide) h3) nofun) fun _ =>
      returns_error _) fun _ => ?_
  refine returns_ite (fun h7 => returns_ite (fun _ => returns_error _) fun h2 =>
    have h2 := field 0b00000 (by decide) (not_not.mp h2)
    returns_ite (fun h3 => fields .moveToX h7 (field 0b000 (by decide) h3) h2) fun _ =>
    returns_ite (fun h3 => fields .fclass h7 (field 0b001 (by decide) h3) h2) fun _ =>
      returns_error _) fun _ => ?_
  refine returns_ite (fun h7 => returns_ite (fun _ => returns_error _) fun h =>
    fields .moveFromX h7
      (field 0b000 (by decide) (not_not.mp (not_or.mp h).1))
      (field 0b00000 (by decide) (not_not.mp (not_or.mp h).2))) fun _ => ?_
  refine returns_ite (fun h7 =>
    returns_ite (fun h3 => fields .eq h7 (field 0b010 (by decide) h3) nofun) fun _ =>
    returns_ite (fun h3 => fields .lt h7 (field 0b001 (by decide) h3) nofun) fun _ =>
    returns_ite (fun h3 => fields .le h7 (field 0b000 (by decide) h3) nofun) fun _ =>
      returns_error _) fun _ => ?_
  -- the conversions choose by rs2
  refine returns_ite (fun h7 =>
    returns_ite (fun h2 => fields .cvtWFromS h7 nofun (field 0b00000 (by decide) h2))
      fun _ =>
    returns_ite (fun h2 => fields .cvtWuFromS h7 nofun (field 0b00001 (by decide) h2))
      fun _ =>
    returns_ite (fun h2 => fields .cvtLFromS h7 nofun (field 0b00010 (by decide) h2))
      fun _ =>
    returns_ite (fun h2 => fields .cvtLuFromS h7 nofun (field 0b00011 (by decide) h2))
      fun _ => returns_error _) fun _ => ?_
  exact returns_ite (fun h7 =>
    returns_ite (fun h2 => fields .cvtSToW h7 nofun (field 0b00000 (by decide) h2))
      fun _ =>
    returns_ite (fun h2 => fields .cvtSToWu h7 nofun (field 0b00001 (by decide) h2))
      fun _ =>
    returns_ite (fun h2 => fields .cvtSToL h7 nofun (field 0b00010 (by decide) h2))
      fun _ =>
    returns_ite (fun h2 => fields .cvtSToLu h7 nofun (field 0b00011 (by decide) h2))
      fun _ => returns_error _) fun _ => returns_error _

/-- Those fields suffice: the operation is decoded from nothing else. -/
theorem decodeOpFpType_of_fields {type : OpFpType} (h : OpFpFields word type) :
    decodeOpFpType word = .ok type := by
  obtain ⟨h7, h3, h2⟩ := h
  unfold decodeOpFpType
  dsimp only
  rw [getFunct7_eq, getFunct3_eq, getRs2_eq, h7]
  cases type with
  | add | sub | mul | div => rfl
  | min | max | sgnj | sgnjn | sgnjx | eq | lt | le =>
    rw [h3 _ rfl]
    rfl
  | sqrt | cvtWFromS | cvtWuFromS | cvtLFromS | cvtLuFromS | cvtSToW | cvtSToWu | cvtSToL
    | cvtSToLu =>
    rw [h2 _ rfl]
    rfl
  | fclass | moveToX | moveFromX =>
    rw [h3 _ rfl, h2 _ rfl]
    rfl

theorem lossless_opFp (h : opcode word = 0b1010011) (hok : ∃ insn, decode word = .ok insn) :
    Lossless word := by
  obtain ⟨insn, hinsn⟩ := hok
  rw [decode_eq_row, h] at hinsn
  dsimp only [decodeRow] at hinsn
  cases htype : decodeOpFpType word with
  | error fault =>
    rw [htype] at hinsn
    cases hinsn
  | ok type =>
    refine lossless_of_row (.opFp ⟨type, .ofCode ((funct3 word).setWidth 32), rs1 word,
      rs2 word, rd word⟩) ?_ ?_ trivial
    · rw [h]
      dsimp only [decodeRow]
      rw [htype]
      rfl
    · rw [encode, RoundingMode.code_ofCode, setWidth_funct3,
        ← (decodeOpFpType_fields word _ htype).funct7, ← h, formatR_fields]

/-- An FMA word that is decoded has format S, and its opcode is that of its operation. -/
theorem decodeFmaFp_fields {insn : FmaFpInsn} (h : decodeFmaFp word = .ok insn) :
    fmt word = 0b00 ∧ fmaOpcode insn.type = opcode word ∧
      insn.rm = .ofCode ((funct3 word).setWidth 32) ∧ insn.rs1 = rs1 word ∧
      insn.rs2 = rs2 word ∧ insn.rs3 = rs3 word ∧ insn.rd = rd word := by
  have hopcode (literal : BitVec 7) (heq : getOpcode word = literal.setWidth 32) :
      literal = opcode word := by
    rw [getOpcode_eq] at heq
    exact (BitField.setWidth_inj (by decide) heq).symm
  have hfields := And.intro (getRs1_eq word) (And.intro (getRs2_eq word)
    (And.intro (getRs3_eq word) (getRd_eq word)))
  have hrm : RoundingMode.ofCode (getFunct3 word) = .ofCode ((funct3 word).setWidth 32) := by
    rw [getFunct3_eq]
  unfold decodeFmaFp at h
  split at h
  · cases h
  next hfmt =>
    have hfmt : fmt word = 0b00 := by
      rw [getFmt_eq, not_not] at hfmt
      exact BitField.setWidth_inj (m := 2) (n := 32) (by decide) hfmt
    dsimp only at h
    split_ifs at h with hadd hsub hnsub hnadd
    · cases h
      exact ⟨hfmt, hopcode 0b1000011 hadd, hrm, hfields⟩
    · cases h
      exact ⟨hfmt, hopcode 0b1000111 hsub, hrm, hfields⟩
    · cases h
      exact ⟨hfmt, hopcode 0b1001011 hnsub, hrm, hfields⟩
    · cases h
      exact ⟨hfmt, hopcode 0b1001111 hnadd, hrm, hfields⟩

/-- The four FMA opcodes. -/
def fmaOpcodes : List (BitVec 7) := [0b1000011, 0b1000111, 0b1001011, 0b1001111]

/-- Format S is all that the decoder asks of an FMA word. -/
theorem decodeFmaFp_of_fields (h : opcode word ∈ fmaOpcodes) (hfmt : fmt word = 0b00) :
    ∃ insn, decodeFmaFp word = .ok insn := by
  simp only [fmaOpcodes, List.mem_cons, List.not_mem_nil, or_false] at h
  unfold decodeFmaFp
  rw [getFmt_eq, hfmt, getOpcode_eq]
  rcases h with h | h | h | h <;> rw [h] <;> exact ⟨_, rfl⟩

theorem decodeRow_fma (h : opcode word ∈ fmaOpcodes) :
    decodeRow (opcode word) word = .fmaFp <$> decodeFmaFp word := by
  simp only [fmaOpcodes, List.mem_cons, List.not_mem_nil, or_false] at h
  rcases h with h | h | h | h <;> rw [h] <;> rfl

theorem lossless_fmaFp (h : opcode word ∈ fmaOpcodes) (hok : ∃ insn, decode word = .ok insn) :
    Lossless word := by
  obtain ⟨insn, hinsn⟩ := hok
  rw [decode_eq_row, decodeRow_fma h] at hinsn
  cases hfma : decodeFmaFp word with
  | error fault =>
    rw [hfma] at hinsn
    cases hinsn
  | ok fma =>
    obtain ⟨hfmt, hopcode, hrm, hrs1, hrs2, hrs3, hrd⟩ := decodeFmaFp_fields hfma
    refine lossless_of_row (.fmaFp fma) (by rw [decodeRow_fma h, hfma]; rfl) ?_ trivial
    rw [encode, hrm, hrs1, hrs2, hrs3, hrd, RoundingMode.code_ofCode, setWidth_funct3, hopcode,
      ← hfmt, formatR4_fields]

end Rows

/-! ## §6. All covered words -/

/-- LUI, AUIPC, JAL, BRANCH, LOAD, STORE, OP-IMM, OP, OP-IMM-32, OP-32 and SYSTEM. -/
def integerOpcodes : List (BitVec 7) :=
  [0b0110111, 0b0010111, 0b1101111, 0b1100011, 0b0000011, 0b0100011, 0b0010011, 0b0110011,
    0b0011011, 0b0111011, 0b1110011]

/-- The words that are decoded in full: those opcodes, JALR and the FP accesses with the
`funct3` they are written back with, and the OP-FP and FMA words that are not thrown at. -/
def Covered (word : BitVec 32) : Prop :=
  opcode word ∈ integerOpcodes ∨
    (opcode word = 0b1100111 ∧ funct3 word = 0b000) ∨
    ((opcode word = 0b0000111 ∨ opcode word = 0b0100111) ∧ funct3 word = 0b010) ∨
    ((opcode word = 0b1010011 ∨ opcode word ∈ fmaOpcodes) ∧ ∃ insn, decode word = .ok insn)

/-- The register numbers of an instruction. -/
def registers : DecodedInsn → List RegIndex
  | .lui insn => [insn.rd]
  | .auipc insn => [insn.rd]
  | .jal insn => [insn.rd]
  | .jalr insn => [insn.rs1, insn.rd]
  | .branch insn => [insn.rs1, insn.rs2]
  | .load insn => [insn.rs1, insn.rd]
  | .store insn => [insn.rs1, insn.rs2]
  | .opImm insn => [insn.rs1, insn.rd]
  | .op insn => [insn.rs1, insn.rs2, insn.rd]
  | .system insn => [insn.rs1, insn.rd]
  | .opImm32 insn => [insn.rs1, insn.rd]
  | .op32 insn => [insn.rs1, insn.rs2, insn.rd]
  | .loadFp insn => [insn.rs1, insn.rd]
  | .storeFp insn => [insn.rs1, insn.rs2]
  | .opFp insn => [insn.rs1, insn.rs2, insn.rd]
  | .fmaFp insn => [insn.rs1, insn.rs2, insn.rs3, insn.rd]
  | .miscMem _ | .invalid => []

/-- The getters of `decode.cpp` return words: a register number below 32, a CSR number
below 4096. -/
structure GettersInRange (word : BitVec 32) : Prop where
  rd : (0x1f#32 &&& (word >>> 7)) = (getRd word).setWidth 32 ∧ (getRd word).toNat < 32
  rs1 : (0x1f#32 &&& (word >>> 15)) = (getRs1 word).setWidth 32 ∧ (getRs1 word).toNat < 32
  rs2 : (0x1f#32 &&& (word >>> 20)) = (getRs2 word).setWidth 32 ∧ (getRs2 word).toNat < 32
  rs3 : (0x1f#32 &&& (word >>> 27)) = (getRs3 word).setWidth 32 ∧ (getRs3 word).toNat < 32
  csr : (0xfff#32 &&& (word >>> 20)) = (getZicsrCsr word).setWidth 32 ∧
    (getZicsrCsr word).toNat < 4096

theorem gettersInRange (word : BitVec 32) : GettersInRange word where
  rd := ⟨by rw [getRd_eq]; exact mask_and_shiftRight word 7 5 (by decide), (getRd word).isLt⟩
  rs1 := ⟨by rw [getRs1_eq]; exact mask_and_shiftRight word 15 5 (by decide), (getRs1 word).isLt⟩
  rs2 := ⟨by rw [getRs2_eq]; exact mask_and_shiftRight word 20 5 (by decide), (getRs2 word).isLt⟩
  rs3 := ⟨by rw [getRs3_eq]; exact mask_and_shiftRight word 27 5 (by decide), (getRs3 word).isLt⟩
  csr := ⟨by rw [getZicsrCsr_eq]; exact mask_and_shiftRight word 20 12 (by decide),
    (getZicsrCsr word).isLt⟩

theorem lossless_of_covered {word : BitVec 32} (h : Covered word) : Lossless word := by
  rcases h with h | ⟨h, h3⟩ | ⟨h, h3⟩ | ⟨h | h, hok⟩
  · simp only [integerOpcodes, List.mem_cons, List.not_mem_nil, or_false] at h
    rcases h with h | h | h | h | h | h | h | h | h | h | h
    · exact lossless_upper (.inl h)
    · exact lossless_upper (.inr h)
    · exact lossless_jal h
    · exact lossless_branch h
    · exact lossless_load h
    · exact lossless_store h
    · exact lossless_opImm h
    · exact lossless_op (.inl h)
    · exact lossless_opImm32 h
    · exact lossless_op (.inr h)
    · exact lossless_system h
  · exact lossless_jalr h h3
  · exact lossless_fpAccess h h3
  · exact lossless_opFp h hok
  · exact lossless_fmaFp h hok

/-- **Decoding loses nothing**: a covered word decodes, its fields in their format give the
word back, the immediate is the signed value of its field, and the register and CSR numbers
are in range. -/
theorem decode_lossless {word : BitVec 32} (h : Covered word) :
    (∃ insn, decode word = .ok insn ∧ encode insn = some word ∧ SpecImmediate word insn ∧
        ∀ index ∈ registers insn, index.toNat < 32) ∧
      GettersInRange word := by
  obtain ⟨insn, hdecode, hencode, himm⟩ := lossless_of_covered h
  exact ⟨⟨insn, hdecode, hencode, himm, fun index _ => index.isLt⟩, gettersInRange word⟩

/-- `beq x1, x2, -4`: the scattered offset comes back, with its sign. -/
theorem decode_lossless_beq :
    ∃ insn, decode 0xfe208ee3 = .ok insn ∧ encode insn = some 0xfe208ee3 ∧
      SpecImmediate 0xfe208ee3 insn ∧ ∀ index ∈ registers insn, index.toNat < 32 :=
  (@decode_lossless 0xfe208ee3 (.inl (by decide))).1

end ZincSim
