/-
  ZincSim.Lib.Rv64im — the integer instructions of RV64IM.

  What the unprivileged specification says about LUI, AUIPC, JAL, the branches and
  the register-immediate and register-register instructions of RV64I and RV64M:
  the fields of a word, which words are legal (`decode`), the results (`alu`, over
  the integers that the operands stand for) and the effect on pc and the X
  registers (`exec`).  Nothing here knows how a simulator does it.
-/
import Mathlib

namespace Rv64im

/-! ## §1. Fields of a word -/

section Fields

variable (word : BitVec 32)

def opcode : BitVec 7 := word.extractLsb' 0 7
def rd : BitVec 5 := word.extractLsb' 7 5
def funct3 : BitVec 3 := word.extractLsb' 12 3
def rs1 : BitVec 5 := word.extractLsb' 15 5
def rs2 : BitVec 5 := word.extractLsb' 20 5
def funct7 : BitVec 7 := word.extractLsb' 25 7
def funct6 : BitVec 6 := word.extractLsb' 26 6
def shamt6 : BitVec 6 := word.extractLsb' 20 6
def shamt5 : BitVec 5 := word.extractLsb' 20 5

/-- `imm[11:0]`. -/
def immI : BitVec 64 := (word.extractLsb' 20 12).signExtend 64

/-- `imm[12|10:5|4:1|11]`. -/
def immB : BitVec 64 :=
  (word.extractLsb' 31 1 ++ word.extractLsb' 7 1 ++ word.extractLsb' 25 6 ++
    word.extractLsb' 8 4 ++ 0#1).signExtend 64

/-- `imm[31:12]`. -/
def immU : BitVec 64 := (word.extractLsb' 12 20 ++ 0#12).signExtend 64

/-- `imm[20|10:1|11|19:12]`. -/
def immJ : BitVec 64 :=
  (word.extractLsb' 31 1 ++ word.extractLsb' 12 8 ++ word.extractLsb' 20 1 ++
    word.extractLsb' 21 10 ++ 0#1).signExtend 64

end Fields

/-! ## §2. Instructions -/

/-- The operations of OP, OP-IMM and their word forms. -/
inductive AluOp where
  | add | sub | sll | slt | sltu | xor | srl | sra | or | and
  | mul | mulh | mulhsu | mulhu | div | divu | rem | remu
  deriving DecidableEq, Repr

/-- The conditions of BRANCH. -/
inductive Cond where
  | eq | ne | lt | ge | ltu | geu
  deriving DecidableEq, Repr

inductive Insn where
  | lui (rd : BitVec 5) (imm : BitVec 64)
  | auipc (rd : BitVec 5) (imm : BitVec 64)
  | jal (rd : BitVec 5) (imm : BitVec 64)
  | branch (cond : Cond) (rs1 rs2 : BitVec 5) (imm : BitVec 64)
  | aluImm (op : AluOp) (rd rs1 : BitVec 5) (imm : BitVec 64)
  | alu (op : AluOp) (rd rs1 rs2 : BitVec 5)
  | aluImmW (op : AluOp) (rd rs1 : BitVec 5) (imm : BitVec 64)
  | aluW (op : AluOp) (rd rs1 rs2 : BitVec 5)
  deriving DecidableEq, Repr

/-! ## §3. Legal words -/

/-- OP. -/
def opAlu (funct7 : BitVec 7) (funct3 : BitVec 3) : Option AluOp :=
  match funct7, funct3 with
  | 0b0000000#7, 0b000#3 => some .add
  | 0b0000000#7, 0b001#3 => some .sll
  | 0b0000000#7, 0b010#3 => some .slt
  | 0b0000000#7, 0b011#3 => some .sltu
  | 0b0000000#7, 0b100#3 => some .xor
  | 0b0000000#7, 0b101#3 => some .srl
  | 0b0000000#7, 0b110#3 => some .or
  | 0b0000000#7, 0b111#3 => some .and
  | 0b0100000#7, 0b000#3 => some .sub
  | 0b0100000#7, 0b101#3 => some .sra
  | 0b0000001#7, 0b000#3 => some .mul
  | 0b0000001#7, 0b001#3 => some .mulh
  | 0b0000001#7, 0b010#3 => some .mulhsu
  | 0b0000001#7, 0b011#3 => some .mulhu
  | 0b0000001#7, 0b100#3 => some .div
  | 0b0000001#7, 0b101#3 => some .divu
  | 0b0000001#7, 0b110#3 => some .rem
  | 0b0000001#7, 0b111#3 => some .remu
  | _, _ => none

/-- OP-32. -/
def op32Alu (funct7 : BitVec 7) (funct3 : BitVec 3) : Option AluOp :=
  match funct7, funct3 with
  | 0b0000000#7, 0b000#3 => some .add
  | 0b0000000#7, 0b001#3 => some .sll
  | 0b0000000#7, 0b101#3 => some .srl
  | 0b0100000#7, 0b000#3 => some .sub
  | 0b0100000#7, 0b101#3 => some .sra
  | 0b0000001#7, 0b000#3 => some .mul
  | 0b0000001#7, 0b100#3 => some .div
  | 0b0000001#7, 0b101#3 => some .divu
  | 0b0000001#7, 0b110#3 => some .rem
  | 0b0000001#7, 0b111#3 => some .remu
  | _, _ => none

/-- OP-IMM, by `funct3`; the two shifts by `funct6` as well. -/
def opImmAlu (word : BitVec 32) : Option (AluOp × BitVec 64) :=
  match funct3 word with
  | 0b000#3 => some (.add, immI word)
  | 0b010#3 => some (.slt, immI word)
  | 0b011#3 => some (.sltu, immI word)
  | 0b100#3 => some (.xor, immI word)
  | 0b110#3 => some (.or, immI word)
  | 0b111#3 => some (.and, immI word)
  | 0b001#3 =>
      if funct6 word = 0b000000 then some (.sll, (shamt6 word).setWidth 64) else none
  | 0b101#3 =>
      if funct6 word = 0b000000 then some (.srl, (shamt6 word).setWidth 64)
      else if funct6 word = 0b010000 then some (.sra, (shamt6 word).setWidth 64)
      else none
  | _ => none

/-- OP-IMM-32, by `funct3`; the shifts by `funct7` as well. -/
def opImm32Alu (word : BitVec 32) : Option (AluOp × BitVec 64) :=
  match funct3 word with
  | 0b000#3 => some (.add, immI word)
  | 0b001#3 =>
      if funct7 word = 0b0000000 then some (.sll, (shamt5 word).setWidth 64) else none
  | 0b101#3 =>
      if funct7 word = 0b0000000 then some (.srl, (shamt5 word).setWidth 64)
      else if funct7 word = 0b0100000 then some (.sra, (shamt5 word).setWidth 64)
      else none
  | _ => none

/-- BRANCH. -/
def branchCond (funct3 : BitVec 3) : Option Cond :=
  match funct3 with
  | 0b000#3 => some .eq
  | 0b001#3 => some .ne
  | 0b100#3 => some .lt
  | 0b101#3 => some .ge
  | 0b110#3 => some .ltu
  | 0b111#3 => some .geu
  | _ => none

/-- The instruction that a legal word of one of the eight opcodes spells. -/
def decode (word : BitVec 32) : Option Insn :=
  match opcode word with
  | 0b0110111#7 => some (.lui (rd word) (immU word))
  | 0b0010111#7 => some (.auipc (rd word) (immU word))
  | 0b1101111#7 => some (.jal (rd word) (immJ word))
  | 0b1100011#7 =>
      (branchCond (funct3 word)).map fun cond => .branch cond (rs1 word) (rs2 word) (immB word)
  | 0b0010011#7 =>
      (opImmAlu word).map fun p => .aluImm p.1 (rd word) (rs1 word) p.2
  | 0b0110011#7 =>
      (opAlu (funct7 word) (funct3 word)).map fun op => .alu op (rd word) (rs1 word) (rs2 word)
  | 0b0011011#7 =>
      (opImm32Alu word).map fun p => .aluImmW p.1 (rd word) (rs1 word) p.2
  | 0b0111011#7 =>
      (op32Alu (funct7 word) (funct3 word)).map fun op =>
        .aluW op (rd word) (rs1 word) (rs2 word)
  | _ => none

/-! ## §4. Which operations have which form -/

/-- The operations of OP-IMM. -/
def AluOp.hasImm : AluOp → Bool
  | .add | .sll | .slt | .sltu | .xor | .srl | .sra | .or | .and => true
  | _ => false

/-- The operations of OP-IMM-32. -/
def AluOp.hasImmW : AluOp → Bool
  | .add | .sll | .srl | .sra => true
  | _ => false

/-- The operations of OP-32. -/
def AluOp.hasW : AluOp → Bool
  | .add | .sub | .sll | .srl | .sra | .mul | .div | .divu | .rem | .remu => true
  | _ => false

/-- The operations of the M extension. -/
def AluOp.isM : AluOp → Bool
  | .mul | .mulh | .mulhsu | .mulhu | .div | .divu | .rem | .remu => true
  | _ => false

/-- The operations that shift. -/
def AluOp.isShift : AluOp → Bool
  | .sll | .srl | .sra => true
  | _ => false

/-- SLLW, SRLW or SRAW. -/
def Insn.isShiftW : Insn → Bool
  | .aluW op _ _ _ => op.isShift
  | _ => false

/-- The instruction exists. -/
def Insn.Legal : Insn → Prop
  | .aluImm op _ _ _ => op.hasImm = true
  | .aluImmW op _ _ _ => op.hasImmW = true
  | .aluW op _ _ _ => op.hasW = true
  | _ => True

theorem hasImm_of_opImmAlu {word : BitVec 32} {p : AluOp × BitVec 64}
    (h : opImmAlu word = some p) : p.1.hasImm = true := by
  unfold opImmAlu at h
  split at h
  case h_7 | h_8 =>
    split_ifs at h <;> cases h <;> rfl
  all_goals cases h <;> rfl

theorem hasImmW_of_opImm32Alu {word : BitVec 32} {p : AluOp × BitVec 64}
    (h : opImm32Alu word = some p) : p.1.hasImmW = true := by
  unfold opImm32Alu at h
  split at h
  case h_2 | h_3 =>
    split_ifs at h <;> cases h <;> rfl
  all_goals cases h <;> rfl

theorem hasW_of_op32Alu {funct7 : BitVec 7} {funct3 : BitVec 3} {op : AluOp}
    (h : op32Alu funct7 funct3 = some op) : op.hasW = true := by
  unfold op32Alu at h
  split at h <;> cases h <;> rfl

/-- **A legal word spells an instruction that exists.** -/
theorem decode_legal {word : BitVec 32} {insn : Insn} (h : decode word = some insn) :
    insn.Legal := by
  unfold decode at h
  split at h
  case h_5 =>
    obtain ⟨p, hp, rfl⟩ := Option.map_eq_some_iff.mp h
    exact hasImm_of_opImmAlu hp
  case h_7 =>
    obtain ⟨p, hp, rfl⟩ := Option.map_eq_some_iff.mp h
    exact hasImmW_of_opImm32Alu hp
  case h_8 =>
    obtain ⟨op, hop, rfl⟩ := Option.map_eq_some_iff.mp h
    exact hasW_of_op32Alu hop
  case h_4 | h_6 =>
    obtain ⟨_, _, rfl⟩ := Option.map_eq_some_iff.mp h
    trivial
  case h_1 | h_2 | h_3 =>
    obtain rfl := Option.some.inj h
    trivial
  case h_9 => cases h

/-- The immediate of a JAL. -/
theorem imm_of_decode_jal {word : BitVec 32} {rd : BitVec 5} {imm : BitVec 64}
    (h : decode word = some (.jal rd imm)) : imm = immJ word := by
  unfold decode at h
  split at h
  case h_3 =>
    cases h
    rfl
  case h_4 | h_5 | h_6 | h_7 | h_8 =>
    obtain ⟨_, _, h⟩ := Option.map_eq_some_iff.mp h
    cases h
  case h_1 | h_2 | h_9 => cases h

/-- A word operation is an operation of OP with the same fields. -/
theorem opAlu_of_op32Alu {funct7 : BitVec 7} {funct3 : BitVec 3} {op : AluOp}
    (h : op32Alu funct7 funct3 = some op) : opAlu funct7 funct3 = some op := by
  unfold op32Alu at h
  split at h <;> cases h <;> rfl

/-! ## §5. Results -/

/-- The result of an operation on `w`-bit operands: two's complement integers for
the signed operations, naturals for the unsigned ones. -/
def alu {w : Nat} (op : AluOp) (a b : BitVec w) : BitVec w :=
  match op with
  | .add => a + b
  | .sub => a - b
  | .sll => a <<< (b.toNat % w)
  | .slt => if a.toInt < b.toInt then 1 else 0
  | .sltu => if a.toNat < b.toNat then 1 else 0
  | .xor => a ^^^ b
  | .srl => a >>> (b.toNat % w)
  | .sra => a.sshiftRight (b.toNat % w)
  | .or => a ||| b
  | .and => a &&& b
  | .mul => a * b
  | .mulh => BitVec.ofInt w (a.toInt * b.toInt / 2 ^ w)
  | .mulhsu => BitVec.ofInt w (a.toInt * b.toNat / 2 ^ w)
  | .mulhu => BitVec.ofNat w (a.toNat * b.toNat / 2 ^ w)
  | .div => if b = 0 then BitVec.ofInt w (-1) else BitVec.ofInt w (a.toInt.tdiv b.toInt)
  | .divu => if b = 0 then BitVec.allOnes w else BitVec.ofNat w (a.toNat / b.toNat)
  | .rem => if b = 0 then a else BitVec.ofInt w (a.toInt.tmod b.toInt)
  | .remu => if b = 0 then a else BitVec.ofNat w (a.toNat % b.toNat)

/-- The word form: the low words of the operands, the result sign-extended. -/
def aluW (op : AluOp) (a b : BitVec 64) : BitVec 64 :=
  (alu op (a.setWidth 32 : BitVec 32) (b.setWidth 32)).signExtend 64

/-- The branch is taken. -/
def Cond.Holds (cond : Cond) (a b : BitVec 64) : Prop :=
  match cond with
  | .eq => a = b
  | .ne => a ≠ b
  | .lt => a.toInt < b.toInt
  | .ge => b.toInt ≤ a.toInt
  | .ltu => a.toNat < b.toNat
  | .geu => b.toNat ≤ a.toNat

instance (cond : Cond) (a b : BitVec 64) : Decidable (cond.Holds a b) :=
  match cond with
  | .eq => inferInstanceAs (Decidable (a = b))
  | .ne => inferInstanceAs (Decidable (a ≠ b))
  | .lt => inferInstanceAs (Decidable (a.toInt < b.toInt))
  | .ge => inferInstanceAs (Decidable (b.toInt ≤ a.toInt))
  | .ltu => inferInstanceAs (Decidable (a.toNat < b.toNat))
  | .geu => inferInstanceAs (Decidable (b.toNat ≤ a.toNat))

/-! ## §6. Execution -/

/-- The state these instructions work on. -/
structure State where
  pc : BitVec 64
  x : BitVec 5 → BitVec 64

/-- The X registers after a write of `rd`; x0 stays as it is. -/
def State.write (s : State) (rd : BitVec 5) (value : BitVec 64) : BitVec 5 → BitVec 64 :=
  fun i => if i = rd ∧ rd ≠ 0 then value else s.x i

/-- The address that a jump or a branch names. -/
def target (pc : BitVec 64) : Insn → Option (BitVec 64)
  | .jal _ imm | .branch _ _ _ imm => some (pc + imm)
  | _ => none

/-- The state after an instruction; `none` where it raises
instruction-address-misaligned. -/
def exec (s : State) : Insn → Option State
  | .lui rd imm => some { pc := s.pc + 4, x := s.write rd imm }
  | .auipc rd imm => some { pc := s.pc + 4, x := s.write rd (s.pc + imm) }
  | .jal rd imm =>
      if 4 ∣ (s.pc + imm).toNat then some { pc := s.pc + imm, x := s.write rd (s.pc + 4) }
      else none
  | .branch cond rs1 rs2 imm =>
      if cond.Holds (s.x rs1) (s.x rs2) then
        if 4 ∣ (s.pc + imm).toNat then some { s with pc := s.pc + imm } else none
      else some { s with pc := s.pc + 4 }
  | .aluImm op rd rs1 imm =>
      some { pc := s.pc + 4, x := s.write rd (alu op (s.x rs1) imm) }
  | .alu op rd rs1 rs2 =>
      some { pc := s.pc + 4, x := s.write rd (alu op (s.x rs1) (s.x rs2)) }
  | .aluImmW op rd rs1 imm =>
      some { pc := s.pc + 4, x := s.write rd (aluW op (s.x rs1) imm) }
  | .aluW op rd rs1 rs2 =>
      some { pc := s.pc + 4, x := s.write rd (aluW op (s.x rs1) (s.x rs2)) }

end Rv64im
