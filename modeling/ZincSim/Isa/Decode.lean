/-
  ZincSim.Isa.Decode — the decoder against the specified instruction formats.

  §1 reads each getter of `decode.cpp` as a field of the word, §2 unscrambles the
  immediates, §3 turns the chain of tests of `decode` into a table over the opcode
  (`decode_eq_row`), §4 compares the tables of operations, and §5 puts them together: a
  legal word decodes to the instruction it spells (`decode_of_legal`).
-/
import ZincSim.Lib.RvFormat
import ZincSim.Lib.BitField
import ZincSim.Machine.Decode

namespace ZincSim

/-! ## §1. Fields -/

/-- A getter masks `k` bits from bit `i` on. -/
theorem mask_and_shiftRight (insn : BitVec 32) (i k : Nat) (hk : k ≤ 32) :
    BitVec.ofNat 32 (2 ^ k - 1) &&& (insn >>> i) = (insn.extractLsb' i k).setWidth 32 := by
  rw [BitVec.and_comm]
  exact BitField.shiftRight_and_lowMask insn i k hk

/-- A register number is read back without loss. -/
theorem setWidth_mask_and_shiftRight (insn : BitVec 32) (i k : Nat) (hk : k ≤ 32) :
    (BitVec.ofNat 32 (2 ^ k - 1) &&& (insn >>> i)).setWidth k = insn.extractLsb' i k := by
  rw [mask_and_shiftRight insn i k hk, BitVec.setWidth_setWidth_of_le _ hk, BitVec.setWidth_eq]

section Fields

variable (insn : BitVec 32)

theorem getOpcode_eq : getOpcode insn = (Rv64im.opcode insn).setWidth 32 := by
  have h := mask_and_shiftRight insn 0 7 (by decide)
  rw [BitVec.ushiftRight_zero, BitVec.and_comm] at h
  exact h

theorem getRd_eq : getRd insn = Rv64im.rd insn :=
  setWidth_mask_and_shiftRight insn 7 5 (by decide)

theorem getRs1_eq : getRs1 insn = Rv64im.rs1 insn :=
  setWidth_mask_and_shiftRight insn 15 5 (by decide)

theorem getRs2_eq : getRs2 insn = Rv64im.rs2 insn :=
  setWidth_mask_and_shiftRight insn 20 5 (by decide)

theorem getFunct3_eq : getFunct3 insn = (Rv64im.funct3 insn).setWidth 32 :=
  mask_and_shiftRight insn 12 3 (by decide)

theorem getFunct7_eq : getFunct7 insn = (Rv64im.funct7 insn).setWidth 32 :=
  mask_and_shiftRight insn 25 7 (by decide)

theorem getShamt_eq : getShamt insn = (Rv64im.shamt6 insn).setWidth 32 :=
  mask_and_shiftRight insn 20 6 (by decide)

theorem getRs3_eq : getRs3 insn = Rv64im.rs3 insn :=
  setWidth_mask_and_shiftRight insn 27 5 (by decide)

theorem getFmt_eq : getFmt insn = (Rv64im.fmt insn).setWidth 32 :=
  mask_and_shiftRight insn 25 2 (by decide)

theorem getZicsrCsr_eq : getZicsrCsr insn = Rv64im.fieldI insn :=
  setWidth_mask_and_shiftRight insn 20 12 (by decide)

theorem getZicsrUimm_eq : getZicsrUimm insn = Rv64im.rs1 insn := getRs1_eq insn

end Fields

/-! ## §2. Immediates -/

/-- `sign_extend` replicates bit `n - 1` of the value. -/
theorem signExtendBits_eq (value : BitVec 64) (n : Nat) (hn : 0 < n) (hn' : n ≤ 64) :
    signExtendBits value n = (value.setWidth n).signExtend 64 := by
  apply BitVec.eq_of_getLsbD_eq
  intro i hi
  unfold signExtendBits
  dsimp only
  rw [BitVec.getLsbD_sshiftRight, BitVec.getLsbD_signExtend]
  by_cases h : i < n
  · have h1 : 64 - n + i < 64 := by omega
    have h2 : ¬ 64 - n + i < 64 - n := by omega
    simp [h, h1, h2, hi]
  · -- the top bit of the shifted value is bit `n - 1` of the value
    have h1 : ¬ 64 - n + i < 64 := by omega
    have h2 : ¬ 63 < 64 - n := by omega
    have h3 : 63 - (64 - n) = n - 1 := by omega
    have h4 : ¬ 64 ≤ i := by omega
    have h5 : n - 1 < 64 := by omega
    simp [h, h1, h2, h3, h4, hi, hn, BitVec.msb_eq_getLsbD_last, BitVec.getLsbD_eq_getElem h5]

section Immediates

variable (insn : BitVec 32)

theorem getITypeImm_eq : getITypeImm insn = Rv64im.immI insn := by
  unfold getITypeImm
  rw [signExtendBits_eq _ 12 (by decide) (by decide), Rv64im.immI]
  congr 1
  apply BitVec.eq_of_getLsbD_eq
  intro i hi
  interval_cases i <;> simp

theorem getSTypeImm_eq : getSTypeImm insn = Rv64im.immS insn := by
  unfold getSTypeImm
  dsimp only
  rw [signExtendBits_eq _ 12 (by decide) (by decide), Rv64im.immS]
  congr 1
  refine BitVec.eq_of_getLsbD_eq (w := 7 + 5) fun i hi => ?_
  simp only [Rv64im.fieldS, BitVec.getLsbD_append]
  interval_cases i <;> simp

theorem getUTypeImm_eq : getUTypeImm insn = Rv64im.immU insn := by
  -- the mask keeps the upper twenty bits where they are
  have hmask : insn &&& 0b11111111111111111111000000000000 =
      insn.extractLsb' 12 20 ++ 0#12 := by
    refine BitVec.eq_of_getLsbD_eq (w := 20 + 12) fun i hi => ?_
    rw [BitVec.getLsbD_append]
    interval_cases i <;> simp
  rw [getUTypeImm, hmask, Rv64im.immU]

theorem getBTypeImm_eq : getBTypeImm insn = Rv64im.immB insn := by
  unfold getBTypeImm
  dsimp only
  rw [signExtendBits_eq _ 13 (by decide) (by decide), Rv64im.immB]
  -- both sides scatter the same bits: compare them one by one
  congr 1
  refine BitVec.eq_of_getLsbD_eq (w := 1 + 1 + 6 + 4 + 1) fun i hi => ?_
  simp only [BitVec.getLsbD_append]
  interval_cases i <;> simp

theorem getJTypeImm_eq : getJTypeImm insn = Rv64im.immJ insn := by
  unfold getJTypeImm
  dsimp only
  rw [signExtendBits_eq _ 21 (by decide) (by decide), Rv64im.immJ]
  congr 1
  refine BitVec.eq_of_getLsbD_eq (w := 1 + 8 + 1 + 10 + 1) fun i hi => ?_
  simp only [BitVec.getLsbD_append]
  interval_cases i <;> simp

/-- The six-bit amount of OP-IMM. -/
theorem shamt6_imm_eq :
    ((insn >>> 20) &&& 0x3f#32).setWidth 64 = (Rv64im.shamt6 insn).setWidth 64 := by
  have h : (insn >>> 20) &&& 0x3f#32 = (insn.extractLsb' 20 6).setWidth 32 :=
    BitField.shiftRight_and_lowMask insn 20 6 (by decide)
  rw [h, BitVec.setWidth_setWidth (by decide)]
  rfl

/-- OP-IMM-32 keeps six bits as well; the sixth is bit 0 of `funct7`, which is clear
in every legal shift. -/
theorem getShamt_setWidth (h : (Rv64im.funct7 insn).getLsbD 0 = false) :
    (getShamt insn).setWidth 64 = (Rv64im.shamt5 insn).setWidth 64 := by
  have hbit : insn.getLsbD 25 = false := by
    rw [Rv64im.funct7, BitVec.getLsbD_extractLsb'] at h
    simpa only [show 0 < 7 by decide, decide_true, Bool.true_and] using h
  rw [getShamt_eq, BitVec.setWidth_setWidth (by decide)]
  apply BitVec.eq_of_getLsbD_eq
  intro i hi
  simp only [BitVec.getLsbD_setWidth, Rv64im.shamt6, Rv64im.shamt5, BitVec.getLsbD_extractLsb', hi]
  obtain h5 | rfl | h5 : i < 5 ∨ i = 5 ∨ 5 < i := by omega
  · have h6 : i < 6 := by omega
    simp [h5, h6]
  · simp only [hbit, Bool.and_false, show ¬ 5 < 5 by decide, decide_false]
  · have h6 : ¬ i < 6 := by omega
    have h7 : ¬ i < 5 := by omega
    simp [h6, h7]

end Immediates

/-! ## §3. The table of opcodes -/

/-- What `decode` builds from a word with a given opcode. -/
def decodeRow (opcode : BitVec 7) (insn : BitVec 32) : Except Fault DecodedInsn :=
  match opcode with
  | 0b1101111#7 => .ok (.jal { imm := Rv64im.immJ insn, rd := Rv64im.rd insn })
  | 0b1110011#7 => .ok (.system (decodeSystem insn))
  | 0b0010011#7 => .ok (.opImm (decodeOpImm insn))
  | 0b1100011#7 =>
      .ok (.branch
        { type := BranchType.ofCode ((Rv64im.funct3 insn).setWidth 32)
          imm := Rv64im.immB insn
          rs1 := Rv64im.rs1 insn
          rs2 := Rv64im.rs2 insn })
  | 0b1100111#7 =>
      .ok (.jalr { imm := Rv64im.immI insn, rs1 := Rv64im.rs1 insn, rd := Rv64im.rd insn })
  | 0b0010111#7 => .ok (.auipc { imm := Rv64im.immU insn, rd := Rv64im.rd insn })
  | 0b0100011#7 =>
      .ok (.store
        { type := MemAccessType.ofCode ((Rv64im.funct3 insn).setWidth 32)
          imm := Rv64im.immS insn
          rs1 := Rv64im.rs1 insn
          rs2 := Rv64im.rs2 insn })
  | 0b0000011#7 =>
      .ok (.load
        { type := MemAccessType.ofCode ((Rv64im.funct3 insn).setWidth 32)
          imm := Rv64im.immI insn
          rs1 := Rv64im.rs1 insn
          rd := Rv64im.rd insn })
  | 0b0011011#7 => .ok (.opImm32 (decodeOpImm32 insn))
  | 0b0001111#7 =>
      .ok (.miscMem { type := MiscMemInsnType.ofCode ((Rv64im.funct3 insn).setWidth 32) })
  | 0b0110111#7 => .ok (.lui { imm := Rv64im.immU insn, rd := Rv64im.rd insn })
  | 0b0110011#7 =>
      .ok (.op
        { type := OpType.ofCode
            (((Rv64im.funct7 insn).setWidth 32 <<< 3) ||| (Rv64im.funct3 insn).setWidth 32)
          rs1 := Rv64im.rs1 insn
          rs2 := Rv64im.rs2 insn
          rd := Rv64im.rd insn })
  | 0b0111011#7 =>
      .ok (.op32
        { type := OpType.ofCode
            (((Rv64im.funct7 insn).setWidth 32 <<< 3) ||| (Rv64im.funct3 insn).setWidth 32)
          rs1 := Rv64im.rs1 insn
          rs2 := Rv64im.rs2 insn
          rd := Rv64im.rd insn })
  | 0b0000111#7 =>
      .ok (.loadFp { imm := Rv64im.immI insn, rs1 := Rv64im.rs1 insn, rd := Rv64im.rd insn })
  | 0b0100111#7 =>
      .ok (.storeFp { imm := Rv64im.immS insn, rs1 := Rv64im.rs1 insn, rs2 := Rv64im.rs2 insn })
  | 0b1000011#7 | 0b1000111#7 | 0b1001011#7 | 0b1001111#7 => .fmaFp <$> decodeFmaFp insn
  | 0b1010011#7 => do
      let type ← decodeOpFpType insn
      return .opFp
        { type := type
          rm := RoundingMode.ofCode ((Rv64im.funct3 insn).setWidth 32)
          rs1 := Rv64im.rs1 insn
          rs2 := Rv64im.rs2 insn
          rd := Rv64im.rd insn }
  | _ => .ok .invalid

/-- **`decode` as a table.** -/
theorem decode_eq_row (insn : BitVec 32) : decode insn = decodeRow (Rv64im.opcode insn) insn := by
  unfold decode
  rw [getOpcode_eq, getJTypeImm_eq, getBTypeImm_eq, getITypeImm_eq, getSTypeImm_eq, getUTypeImm_eq,
    getFunct3_eq, getFunct7_eq, getRs1_eq, getRs2_eq, getRd_eq]
  generalize Rv64im.opcode insn = opcode
  unfold decodeRow
  split
  -- on a literal opcode the chain of tests computes
  case h_21 =>
    -- any other opcode fails every test
    have hne (literal : BitVec 7) (h : opcode ≠ literal) :
        ¬ opcode.setWidth 32 = literal.setWidth 32 :=
      fun heq => h (BitField.setWidth_inj (by decide) heq)
    rw [if_neg (show ¬ _ = opcodeJal from hne 0b1101111#7 ‹_›),
      if_neg (show ¬ _ = opcodeSystem from hne 0b1110011#7 ‹_›),
      if_neg (show ¬ _ = opcodeOpImm from hne 0b0010011#7 ‹_›),
      if_neg (show ¬ _ = opcodeBranch from hne 0b1100011#7 ‹_›),
      if_neg (show ¬ _ = opcodeJalr from hne 0b1100111#7 ‹_›),
      if_neg (show ¬ _ = opcodeAuipc from hne 0b0010111#7 ‹_›),
      if_neg (show ¬ _ = opcodeStore from hne 0b0100011#7 ‹_›),
      if_neg (show ¬ _ = opcodeLoad from hne 0b0000011#7 ‹_›),
      if_neg (show ¬ _ = opcodeOpImm32 from hne 0b0011011#7 ‹_›),
      if_neg (show ¬ _ = opcodeMiscMem from hne 0b0001111#7 ‹_›),
      if_neg (show ¬ _ = opcodeLui from hne 0b0110111#7 ‹_›),
      if_neg (show ¬ _ = opcodeOp from hne 0b0110011#7 ‹_›),
      if_neg (show ¬ _ = opcodeOp32 from hne 0b0111011#7 ‹_›),
      if_neg (show ¬ _ = opcodeLoadFp from hne 0b0000111#7 ‹_›),
      if_neg (show ¬ _ = opcodeStoreFp from hne 0b0100111#7 ‹_›),
      if_neg (show ¬ (_ = opcodeMaddFp ∨ _ = opcodeMsubFp ∨ _ = opcodeNmsubFp ∨
          _ = opcodeNmaddFp) from not_or.mpr ⟨hne 0b1000011#7 ‹_›, not_or.mpr
            ⟨hne 0b1000111#7 ‹_›, not_or.mpr ⟨hne 0b1001011#7 ‹_›, hne 0b1001111#7 ‹_›⟩⟩⟩),
      if_neg (show ¬ _ = opcodeOpFp from hne 0b1010011#7 ‹_›)]
  all_goals rfl

/-! ## §4. Tables -/

/-- The `OpType` of an operation. -/
def aluType : Rv64im.AluOp → OpType
  | .add => .add | .sub => .sub | .sll => .sll | .slt => .slt | .sltu => .sltu
  | .xor => .xor | .srl => .srl | .sra => .sra | .or => .or | .and => .and
  | .mul => .mul | .mulh => .mulh | .mulhsu => .mulhsu | .mulhu => .mulhu
  | .div => .div | .divu => .divu | .rem => .rem | .remu => .remu

/-- The `BranchType` of a condition. -/
def condType : Rv64im.Cond → BranchType
  | .eq => .eq | .ne => .ne | .lt => .lt | .ge => .ge | .ltu => .ltu | .geu => .geu

/-- The instruction that `Decoder::decode` builds for a specified one. -/
def toDecoded : Rv64im.Insn → DecodedInsn
  | .lui rd imm => .lui { imm := imm, rd := rd }
  | .auipc rd imm => .auipc { imm := imm, rd := rd }
  | .jal rd imm => .jal { imm := imm, rd := rd }
  | .branch cond rs1 rs2 imm =>
      .branch { type := condType cond, imm := imm, rs1 := rs1, rs2 := rs2 }
  | .aluImm op rd rs1 imm => .opImm { type := aluType op, imm := imm, rs1 := rs1, rd := rd }
  | .alu op rd rs1 rs2 => .op { type := aluType op, rs1 := rs1, rs2 := rs2, rd := rd }
  | .aluImmW op rd rs1 imm => .opImm32 { type := aluType op, imm := imm, rs1 := rs1, rd := rd }
  | .aluW op rd rs1 rs2 => .op32 { type := aluType op, rs1 := rs1, rs2 := rs2, rd := rd }

theorem ofCode_of_branchCond {funct3 : BitVec 3} {cond : Rv64im.Cond}
    (h : Rv64im.branchCond funct3 = some cond) :
    BranchType.ofCode (funct3.setWidth 32) = condType cond := by
  unfold Rv64im.branchCond at h
  split at h <;> cases h <;> rfl

/-- `funct7` above `funct3`, as the cases of OP and OP-32 pack them. -/
theorem ofCode_of_opAlu {funct7 : BitVec 7} {funct3 : BitVec 3} {op : Rv64im.AluOp}
    (h : Rv64im.opAlu funct7 funct3 = some op) :
    OpType.ofCode ((funct7.setWidth 32 <<< 3) ||| funct3.setWidth 32) = aluType op := by
  unfold Rv64im.opAlu at h
  -- one case per defined pair, on literals on both sides
  split at h <;> cases h <;> rfl

/-- `funct6` above an empty bit and `funct3`, as the shifts of OP-IMM pack them. -/
theorem decodeOpImm_eq {insn : BitVec 32} {p : Rv64im.AluOp × BitVec 64}
    (h : Rv64im.opImmAlu insn = some p) :
    decodeOpImm insn =
      { type := aluType p.1, imm := p.2, rs1 := Rv64im.rs1 insn, rd := Rv64im.rd insn } := by
  have hfunct6 : (insn >>> 26) &&& 0x3f#32 = (Rv64im.funct6 insn).setWidth 32 :=
    BitField.shiftRight_and_lowMask insn 26 6 (by decide)
  unfold decodeOpImm
  rw [getFunct3_eq, getRs1_eq, getRd_eq, getITypeImm_eq, shamt6_imm_eq, hfunct6]
  unfold Rv64im.opImmAlu at h
  split at h
  case h_7 hfunct3 =>
    split_ifs at h with h6
    cases h
    rw [hfunct3, h6]
    rfl
  case h_8 hfunct3 =>
    -- `funct6` tells the logical from the arithmetic shift
    split_ifs at h with h6 h6'
    · cases h
      rw [hfunct3, h6]
      rfl
    · cases h
      rw [hfunct3, h6']
      rfl
  case h_9 => cases h
  all_goals
    rename_i hfunct3
    cases h
    rw [hfunct3]
    rfl

theorem decodeOpImm32_eq {insn : BitVec 32} {p : Rv64im.AluOp × BitVec 64}
    (h : Rv64im.opImm32Alu insn = some p) :
    decodeOpImm32 insn =
      { type := aluType p.1, imm := p.2, rs1 := Rv64im.rs1 insn, rd := Rv64im.rd insn } := by
  unfold decodeOpImm32
  rw [getFunct3_eq, getFunct7_eq, getRs1_eq, getRd_eq, getITypeImm_eq]
  unfold Rv64im.opImm32Alu at h
  split at h
  case h_2 hfunct3 =>
    split_ifs at h with h7
    cases h
    rw [hfunct3, getShamt_setWidth insn (by rw [h7]; rfl), h7]
    rfl
  -- `funct7` tells the logical from the arithmetic shift
  case h_3 hfunct3 =>
    split_ifs at h with h7 h7'
    · cases h
      rw [hfunct3, getShamt_setWidth insn (by rw [h7]; rfl), h7]
      rfl
    · cases h
      rw [hfunct3, getShamt_setWidth insn (by rw [h7']; rfl), h7']
      rfl
  case h_1 hfunct3 =>
    cases h
    rw [hfunct3]
    rfl
  case h_4 => cases h

/-! ## §5. The decoder -/

/-- **A legal word decodes to the instruction it spells.** -/
theorem decode_of_legal {word : BitVec 32} {insn : Rv64im.Insn}
    (h : Rv64im.decode word = some insn) : decode word = .ok (toDecoded insn) := by
  rw [decode_eq_row]
  unfold Rv64im.decode at h
  split at h
  -- the cases of the opcode table; the last one is no legal word
  case h_9 => cases h
  all_goals
    rename_i hopcode
    rw [hopcode]
    dsimp only [decodeRow]
  case h_1 | h_2 | h_3 =>
    cases h
    rfl
  case h_4 =>
    obtain ⟨cond, hcond, rfl⟩ := Option.map_eq_some_iff.mp h
    rw [ofCode_of_branchCond hcond]
    rfl
  case h_5 =>
    obtain ⟨p, hp, rfl⟩ := Option.map_eq_some_iff.mp h
    exact congrArg (fun i => Except.ok (DecodedInsn.opImm i)) (decodeOpImm_eq hp)
  case h_6 =>
    obtain ⟨op, hop, rfl⟩ := Option.map_eq_some_iff.mp h
    rw [ofCode_of_opAlu hop]
    rfl
  case h_7 =>
    obtain ⟨p, hp, rfl⟩ := Option.map_eq_some_iff.mp h
    exact congrArg (fun i => Except.ok (DecodedInsn.opImm32 i)) (decodeOpImm32_eq hp)
  case h_8 =>
    obtain ⟨op, hop, rfl⟩ := Option.map_eq_some_iff.mp h
    rw [ofCode_of_opAlu (Rv64im.opAlu_of_op32Alu hop)]
    rfl

end ZincSim
