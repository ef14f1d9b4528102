/-
  ZincSim.Isa.Fields — the fields that select an instruction.

  `AssignedFields` says which values of opcode, funct3, funct6, funct7, rs2, fmt and the
  privileged immediate are assigned to a decoded instruction.  The decoder does not check
  all of them: it packs some into an enumeration (`static_cast`), and the default branches
  of `execute` throw on the codes that no enumerator has.  §2 goes through these types; each
  is a row of the assigned table, or every core throws on it.
-/
import ZincSim.Isa.Encode
import ZincSim.Machine.Execute

namespace ZincSim

open Rv64im
open Except (fails_ok fails_error fails_ite)

/-! ## §1. Assigned values -/

def loadFunct3 : MemAccessType → Option (BitVec 3)
  | .b => some 0b000 | .h => some 0b001 | .w => some 0b010 | .d => some 0b011
  | .bu => some 0b100 | .hu => some 0b101 | .wu => some 0b110
  | .other _ => none

def storeFunct3 : MemAccessType → Option (BitVec 3)
  | .b => some 0b000 | .h => some 0b001 | .w => some 0b010 | .d => some 0b011
  | _ => none

/-- ECALL, EBREAK and MRET: the immediate selects, and the registers are x0. -/
def PrivilegedFields (word : BitVec 32) (imm : BitVec 12) : Prop :=
  funct3 word = 0b000 ∧ fieldI word = imm ∧ rs1 word = 0 ∧ rd word = 0

/-- The fields of a SYSTEM word below its opcode. -/
def SystemFields (word : BitVec 32) : SystemInsnType → Prop
  | .csrrw => funct3 word = 0b001
  | .csrrs => funct3 word = 0b010
  | .csrrc => funct3 word = 0b011
  | .csrrwi => funct3 word = 0b101
  | .csrrsi => funct3 word = 0b110
  | .csrrci => funct3 word = 0b111
  | .ecall => PrivilegedFields word 0x000
  | .ebreak => PrivilegedFields word 0x001
  | .mret => PrivilegedFields word 0x302
  | .other _ => False

/-- **All fields of the word that select a function have the values assigned to the
instruction.** -/
def AssignedFields (word : BitVec 32) : DecodedInsn → Prop
  | .lui _ => opcode word = 0b0110111
  | .auipc _ => opcode word = 0b0010111
  | .jal _ => opcode word = 0b1101111
  | .jalr _ => opcode word = 0b1100111 ∧ funct3 word = 0b000
  | .branch insn =>
      opcode word = 0b1100011 ∧
        ∃ cond, branchCond (funct3 word) = some cond ∧ insn.type = condType cond
  | .load insn => opcode word = 0b0000011 ∧ loadFunct3 insn.type = some (funct3 word)
  | .store insn => opcode word = 0b0100011 ∧ storeFunct3 insn.type = some (funct3 word)
  | .opImm insn =>
      opcode word = 0b0010011 ∧ ∃ p, opImmAlu word = some p ∧ insn.type = aluType p.1
  | .op insn =>
      opcode word = 0b0110011 ∧
        ∃ op, opAlu (funct7 word) (funct3 word) = some op ∧ insn.type = aluType op
  | .opImm32 insn =>
      opcode word = 0b0011011 ∧ ∃ p, opImm32Alu word = some p ∧ insn.type = aluType p.1
  | .op32 insn =>
      opcode word = 0b0111011 ∧
        ∃ op, op32Alu (funct7 word) (funct3 word) = some op ∧ insn.type = aluType op
  | .system insn => opcode word = 0b1110011 ∧ SystemFields word insn.type
  | .loadFp _ => opcode word = 0b0000111 ∧ funct3 word = 0b010
  | .storeFp _ => opcode word = 0b0100111 ∧ funct3 word = 0b010
  | .opFp insn => opcode word = 0b1010011 ∧ OpFpFields word insn.type
  | .fmaFp insn => opcode word = fmaOpcode insn.type ∧ fmt word = 0b00
  | .miscMem _ | .invalid => False

/-! ## §2. Types that are cast from bits -/

/-- The computation ends in a C++ exception. -/
def Throws {α : Type} (x : Except Fault α) : Prop :=
  ∃ fault, x = .error fault ∧ fault.isThrow = true

theorem Throws.bind {α β : Type} {x : Except Fault α} (h : Throws x) (f : α → Except Fault β) :
    Throws (x >>= f) := by
  obtain ⟨fault, rfl, hthrow⟩ := h
  exact ⟨fault, rfl, hthrow⟩

section Rows

variable {word : BitVec 32}

/-- A type cast from `funct3` alone determines it. -/
theorem funct3_of_code {code : BitVec 32} (h : code = (funct3 word).setWidth 32) :
    funct3 word = code.setWidth 3 := by
  rw [h, setWidth_funct3]

theorem branch_row {type : BranchType} (h : type.code = (funct3 word).setWidth 32) :
    (∃ cond, branchCond (funct3 word) = some cond ∧ type = condType cond) ∨
      ∀ core insn, insn.type = type → Throws (shouldBranch core insn) := by
  have h3 := funct3_of_code h
  cases type with
  | other code =>
    right
    intro core insn htype
    unfold shouldBranch
    rw [htype]
    exact ⟨_, rfl, rfl⟩
  | _ =>
    left
    rw [h3]
    exact ⟨_, rfl, rfl⟩

theorem load_row {type : MemAccessType} (h : type.code = (funct3 word).setWidth 32) :
    loadFunct3 type = some (funct3 word) ∨ ∀ addr, Throws (memAccessAligned addr type) := by
  have h3 := funct3_of_code h
  cases type with
  | other code => exact .inr fun _ => ⟨_, rfl, rfl⟩
  | _ =>
    left
    rw [h3]
    rfl

/-- A store of an unsigned type throws, but only after the alignment test. -/
theorem store_row {type : MemAccessType} (h : type.code = (funct3 word).setWidth 32) :
    storeFunct3 type = some (funct3 word) ∨ (∀ addr, Throws (memAccessAligned addr type)) ∨
      ((type = .bu ∨ type = .hu ∨ type = .wu) ∧
        ∀ core insn value, insn.type = type → Throws (storeData core insn value)) := by
  have h3 := funct3_of_code h
  cases type with
  | other code => exact .inr (.inl fun _ => ⟨_, rfl, rfl⟩)
  | bu | hu | wu =>
    refine .inr (.inr ⟨by simp, fun core insn value htype => ?_⟩)
    unfold storeData
    rw [htype]
    exact ⟨_, rfl, rfl⟩
  | _ =>
    left
    rw [h3]
    rfl

/-- OP and OP-32 pack `funct7` above `funct3`. -/
theorem functs_of_code {code : BitVec 32}
    (h : code = ((funct7 word).setWidth 32 <<< 3) ||| (funct3 word).setWidth 32) :
    funct7 word = (code >>> 3).setWidth 7 ∧ funct3 word = code.setWidth 3 := by
  rw [h, packed_low _ _ 3 (by decide), packed_high _ _ 3 (by decide) (by decide)]
  exact ⟨rfl, rfl⟩

theorem op_row {type : OpType}
    (h : type.code = ((funct7 word).setWidth 32 <<< 3) ||| (funct3 word).setWidth 32) :
    (∃ op, opAlu (funct7 word) (funct3 word) = some op ∧ type = aluType op) ∨
      ∀ core insn, insn.type = type → Throws (opResult core insn) := by
  obtain ⟨h7, h3⟩ := functs_of_code h
  cases type with
  | other code =>
    right
    intro core insn htype
    unfold opResult
    rw [htype]
    exact ⟨_, rfl, rfl⟩
  | _ =>
    left
    rw [h7, h3]
    exact ⟨_, rfl, rfl⟩

theorem op32_row {type : OpType}
    (h : type.code = ((funct7 word).setWidth 32 <<< 3) ||| (funct3 word).setWidth 32) :
    (∃ op, op32Alu (funct7 word) (funct3 word) = some op ∧ type = aluType op) ∨
      ∀ core insn, insn.type = type → Throws (op32Result core insn) := by
  obtain ⟨h7, h3⟩ := functs_of_code h
  cases type with
  | slt | sltu | xor | or | and | mulh | mulhsu | mulhu | other =>
    -- no word operation has this type
    right
    intro core insn htype
    unfold op32Result
    rw [htype]
    exact ⟨_, rfl, rfl⟩
  | _ =>
    left
    rw [h7, h3]
    exact ⟨_, rfl, rfl⟩

variable (word) in
/-- OP-IMM: a shift packs `funct6` above `funct3`, the rest is cast from `funct3`. -/
theorem opImm_row :
    (∃ p, opImmAlu word = some p ∧ (decodeOpImm word).type = aluType p.1) ∨
      ∀ core insn, insn.type = (decodeOpImm word).type → Throws (opImmResult core insn) := by
  have hfunct6 : (word >>> 26) &&& 0x3f#32 = (funct6 word).setWidth 32 :=
    BitField.shiftRight_and_lowMask word 26 6 (by decide)
  -- the types that the switch of `execute` does not have
  have hthrows (type : OpType) (h : type ∉ [OpType.add, .sll, .slt, .sltu, .xor, .srl, .sra, .or,
      .and]) (core : Core) (insn : OpImmInsn) (htype : insn.type = type) :
      Throws (opImmResult core insn) := by
    unfold opImmResult
    rw [htype]
    cases type <;> first | exact absurd (by decide) h | exact ⟨_, rfl, rfl⟩
  by_cases hshift : IsShift (funct3 word)
  · have htype : (decodeOpImm word).type =
        OpType.ofCode (((funct6 word).setWidth 32 <<< 4) ||| (funct3 word).setWidth 32) := by
      unfold decodeOpImm
      rw [getFunct3_eq, if_pos ((isShift_iff _).mpr hshift), hfunct6]
    have hcode := congrArg OpType.code htype
    rw [OpType.code_ofCode] at hcode
    have h3 : funct3 word = (decodeOpImm word).type.code.setWidth 3 := by
      rw [hcode, packed_low _ _ 4 (by decide)]
    have h6 : funct6 word = ((decodeOpImm word).type.code >>> 4).setWidth 6 := by
      rw [hcode, packed_high _ _ 4 (by decide) (by decide)]
    unfold opImmAlu
    cases h : (decodeOpImm word).type <;> rw [h] at h3 h6
    case sll | srl | sra =>
      left
      rw [h3, h6]
      exact ⟨_, rfl, rfl⟩
    case add | slt | sltu | xor | or | and =>
      rw [h3] at hshift
      exact absurd hshift (by decide)
    all_goals exact .inr (hthrows _ (by simp))
  · have htype : (decodeOpImm word).type = OpType.ofCode ((funct3 word).setWidth 32) := by
      unfold decodeOpImm
      rw [getFunct3_eq, if_neg (mt (isShift_iff _).mp hshift)]
    have hcode := congrArg OpType.code htype
    rw [OpType.code_ofCode] at hcode
    have h3 := funct3_of_code hcode
    unfold opImmAlu
    cases h : (decodeOpImm word).type <;> rw [h] at h3
    case sll | srl | sra =>
      rw [h3] at hshift
      exact absurd (by decide) hshift
    case add | slt | sltu | xor | or | and =>
      left
      rw [h3]
      exact ⟨_, rfl, rfl⟩
    all_goals exact .inr (hthrows _ (by simp))

variable (word) in
/-- OP-IMM-32: a shift packs `funct7`. -/
theorem opImm32_row :
    (∃ p, opImm32Alu word = some p ∧ (decodeOpImm32 word).type = aluType p.1) ∨
      ∀ core insn, insn.type = (decodeOpImm32 word).type → Throws (opImm32Result core insn) := by
  have hthrows (type : OpType) (h : type ∉ [OpType.add, .sll, .srl, .sra]) (core : Core)
      (insn : OpImm32Insn) (htype : insn.type = type) : Throws (opImm32Result core insn) := by
    unfold opImm32Result
    rw [htype]
    cases type <;> first | exact absurd (by decide) h | exact ⟨_, rfl, rfl⟩
  by_cases hshift : IsShift (funct3 word)
  · have htype : (decodeOpImm32 word).type =
        OpType.ofCode (((funct7 word).setWidth 32 <<< 3) ||| (funct3 word).setWidth 32) := by
      unfold decodeOpImm32
      rw [getFunct3_eq, getFunct7_eq, if_pos ((isShift_iff _).mpr hshift)]
    have hcode := congrArg OpType.code htype
    rw [OpType.code_ofCode] at hcode
    obtain ⟨h7, h3⟩ := functs_of_code hcode
    unfold opImm32Alu
    cases h : (decodeOpImm32 word).type <;> rw [h] at h3 h7
    case sll | srl | sra =>
      left
      rw [h3, h7]
      exact ⟨_, rfl, rfl⟩
    case add =>
      rw [h3] at hshift
      exact absurd hshift (by decide)
    all_goals exact .inr (hthrows _ (by simp))
  · have htype : (decodeOpImm32 word).type = OpType.ofCode ((funct3 word).setWidth 32) := by
      unfold decodeOpImm32
      rw [getFunct3_eq, if_neg (mt (isShift_iff _).mp hshift)]
    have hcode := congrArg OpType.code htype
    rw [OpType.code_ofCode] at hcode
    have h3 := funct3_of_code hcode
    unfold opImm32Alu
    cases h : (decodeOpImm32 word).type <;> rw [h] at h3
    case sll | srl | sra =>
      rw [h3] at hshift
      exact absurd (by decide) hshift
    case add =>
      left
      rw [h3]
      exact ⟨_, rfl, rfl⟩
    all_goals exact .inr (hthrows _ (by simp))

/-- Below `funct3` = 000 the type holds the sign-extended immediate above three zeros. -/
theorem systemType_privileged (h : funct3 word = 0b000) :
    (decodeSystem word).type = .ofCode ((((fieldI word).signExtend 64) <<< 3).setWidth 32) := by
  have hzero : getFunct3 word = 0 := by
    rw [getFunct3_eq, h]
    rfl
  unfold decodeSystem
  dsimp only
  rw [if_pos hzero, hzero, getITypeImm_eq]
  congr 2
  simp [immI, fieldI]

/-- The immediate is read back from the type. -/
theorem fieldI_of_code {code : BitVec 32}
    (h : code = (((fieldI word).signExtend 64) <<< 3).setWidth 32) :
    fieldI word = (code >>> 3).setWidth 12 ∧ code.setWidth 3 = 0b000 := by
  have hfield := TwosComplement.setWidth_signExtend (v := 64) (fieldI word) (by decide)
  generalize (fieldI word).signExtend 64 = imm at h hfield
  rw [h, ← hfield]
  constructor
  · apply BitVec.eq_of_getLsbD_eq
    intro i hi
    have hword : 3 + i < 32 := by omega
    have hwide : i < 64 := by omega
    simp [hi, hword, hwide]
  · apply BitVec.eq_of_getLsbD_eq
    intro i hi
    simp [hi]

/-- Any other `funct3` is the type. -/
theorem systemType_csr (h : funct3 word ≠ 0b000) :
    (decodeSystem word).type.code = (funct3 word).setWidth 32 := by
  have hzero : getFunct3 word ≠ 0 := by
    rw [getFunct3_eq]
    exact fun heq => h (BitField.setWidth_inj (m := 3) (n := 32) (by decide) heq)
  unfold decodeSystem
  dsimp only
  rw [if_neg hzero, SystemInsnType.code_ofCode, getFunct3_eq]

/-- An ECALL or MRET whose registers are not x0. -/
def StrayRegisters (word : BitVec 32) : Prop :=
  funct3 word = 0b000 ∧ (fieldI word = 0x000 ∨ fieldI word = 0x302) ∧
    (rs1 word ≠ 0 ∨ rd word ≠ 0)

variable (word) in
theorem system_row :
    SystemFields word (decodeSystem word).type ∨
      (∀ core, Throws (executeSystem core (decodeSystem word))) ∨ StrayRegisters word := by
  have hthrows (insn : SystemInsn) (h : insn.type = .ebreak ∨ ∃ code, insn.type = .other code)
      (core : Core) : Throws (executeSystem core insn) := by
    unfold executeSystem isCsrInsn
    rcases h with h | ⟨code, h⟩ <;> rw [h] <;> exact ⟨_, rfl, rfl⟩
  -- the registers of ECALL and MRET are not looked at
  have hprivileged {imm : BitVec 12} (h3 : funct3 word = 0b000) (himm : fieldI word = imm)
      (hmem : imm = 0x000 ∨ imm = 0x302) : PrivilegedFields word imm ∨ StrayRegisters word := by
    by_cases h1 : rs1 word = 0
    · by_cases hd : rd word = 0
      · exact .inl ⟨h3, himm, h1, hd⟩
      · exact .inr ⟨h3, by rwa [himm], .inr hd⟩
    · exact .inr ⟨h3, by rwa [himm], .inl h1⟩
  by_cases hzero : funct3 word = 0b000
  · have hcode := congrArg SystemInsnType.code (systemType_privileged hzero)
    rw [SystemInsnType.code_ofCode] at hcode
    obtain ⟨himm, hlow⟩ := fieldI_of_code hcode
    cases h : (decodeSystem word).type <;> rw [h] at himm hlow
    case ecall =>
      rcases hprivileged hzero himm (.inl rfl) with hfields | hstray
      · exact .inl hfields
      · exact .inr (.inr hstray)
    case mret =>
      rcases hprivileged hzero himm (.inr rfl) with hfields | hstray
      · exact .inl hfields
      · exact .inr (.inr hstray)
    case ebreak => exact .inr (.inl (hthrows _ (.inl h)))
    case other code => exact .inr (.inl (hthrows _ (.inr ⟨code, h⟩)))
    all_goals exact absurd hlow (by decide)
  · have h3 := funct3_of_code (systemType_csr hzero)
    cases h : (decodeSystem word).type <;> rw [h] at h3
    case other code => exact .inr (.inl (hthrows _ (.inr ⟨code, h⟩)))
    case ecall | ebreak | mret => exact absurd h3 hzero
    all_goals exact .inl h3

theorem decodeOpFpType_throws (word : BitVec 32) :
    (decodeOpFpType word).Fails fun fault => fault.isThrow = true := by
  unfold decodeOpFpType
  dsimp only
  repeat
    first
    | exact fails_ok _
    | exact fails_error rfl
    | refine fails_ite (fun _ => ?_) fun _ => ?_

theorem decodeFmaFp_throws (word : BitVec 32) :
    (decodeFmaFp word).Fails fun fault => fault.isThrow = true := by
  unfold decodeFmaFp
  dsimp only
  repeat
    first
    | exact fails_ok _
    | exact fails_error rfl
    | refine fails_ite (fun _ => ?_) fun _ => ?_

end Rows

end ZincSim
