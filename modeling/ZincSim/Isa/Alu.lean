/-
  ZincSim.Isa.Alu — the results of the integer instructions.

  Each `switch` over `OpType` computes what the specification names: `MulDivUnit`
  in §1, the 64-bit forms in §2 and the word forms in §3.
-/
import ZincSim.Lib.TwosComplement
import ZincSim.Isa.Decode
import ZincSim.Machine.Execute

namespace ZincSim

/-! ## §1. `MulDivUnit` -/

namespace MulDivUnit

theorem toNat_lowWord (x : BitVec 64) : (lowWord x).toNat = x.toNat % 2 ^ 32 := by
  rw [lowWord, BitVec.toNat_setWidth, BitVec.toNat_setWidth]
  omega

theorem toNat_highWord (x : BitVec 64) : (x >>> 32).toNat = x.toNat / 2 ^ 32 := by
  rw [BitVec.toNat_ushiftRight, Nat.shiftRight_eq_div_pow]

/-- A product of two half words does not wrap. -/
theorem toNat_mul_of_half {x y : BitVec 64} (hx : x.toNat < 2 ^ 32) (hy : y.toNat < 2 ^ 32) :
    (x * y).toNat = x.toNat * y.toNat := by
  have hlt : x.toNat * y.toNat < 2 ^ 32 * 2 ^ 32 := Nat.mul_lt_mul'' hx hy
  rw [BitVec.toNat_mul, Nat.mod_eq_of_lt (by omega)]

/-- `multiply_high_unsigned` loses no carry. -/
theorem multiplyHighUnsigned_eq (lhs rhs : BitVec 64) :
    multiplyHighUnsigned lhs rhs = BitVec.ofNat 64 (lhs.toNat * rhs.toNat / 2 ^ 64) := by
  have hlhs := lhs.isLt
  have hrhs := rhs.isLt
  have hll : (lowWord lhs).toNat < 2 ^ 32 := by rw [toNat_lowWord]; omega
  have hrl : (lowWord rhs).toNat < 2 ^ 32 := by rw [toNat_lowWord]; omega
  have hlh : (lhs >>> 32).toNat < 2 ^ 32 := by rw [toNat_highWord]; omega
  have hrh : (rhs >>> 32).toNat < 2 ^ 32 := by rw [toNat_highWord]; omega
  have hhigh := TwosComplement.high_of_halves (k := 2 ^ 32) (by decide) (lhs.toNat / 2 ^ 32)
    (lhs.toNat % 2 ^ 32) (rhs.toNat / 2 ^ 32) (rhs.toNat % 2 ^ 32)
  rw [Nat.div_add_mod', Nat.div_add_mod'] at hhigh
  rw [show (2 ^ 64 : Nat) = 2 ^ 32 * 2 ^ 32 from rfl, ← hhigh]
  apply BitVec.eq_of_toNat_eq
  unfold multiplyHighUnsigned
  dsimp only
  rw [BitVec.toNat_ofNat, BitVec.toNat_add, BitVec.toNat_add, BitVec.toNat_add,
    toNat_highWord, toNat_highWord, toNat_highWord, BitVec.toNat_add, BitVec.toNat_add,
    toNat_highWord, toNat_lowWord, toNat_lowWord, toNat_mul_of_half hll hrl,
    toNat_mul_of_half hll hrh, toNat_mul_of_half hlh hrl, toNat_mul_of_half hlh hrh,
    toNat_lowWord, toNat_lowWord, toNat_highWord, toNat_highWord]
  rw [toNat_lowWord] at hll hrl
  rw [toNat_highWord] at hlh hrh
  -- the carry is at most two above a half word, so only the whole sum is reduced
  have hP := Nat.mul_lt_mul'' hll hrl
  generalize lhs.toNat % 2 ^ 32 * (rhs.toNat % 2 ^ 32) = P at *
  generalize lhs.toNat % 2 ^ 32 * (rhs.toNat / 2 ^ 32) = Q at *
  generalize lhs.toNat / 2 ^ 32 * (rhs.toNat % 2 ^ 32) = R at *
  generalize lhs.toNat / 2 ^ 32 * (rhs.toNat / 2 ^ 32) = S at *
  clear hhigh
  omega

theorem signExtendWord_eq (value : BitVec 32) : signExtendWord value = value.signExtend 64 := by
  rw [TwosComplement.signExtend_eq_or]
  unfold signExtendWord
  exact if_congr (TwosComplement.and_signBit_ne_zero value (by decide)) rfl rfl

/-- The two guards of the signed divisions: the zero divisor, and the quotient that
does not fit, which the guarded operation delivers anyway. -/
theorem guarded_division {w : Nat} (f : BitVec w → BitVec w → BitVec w) (g : BitVec w → BitVec 64)
    {lhs rhs zero : BitVec w} {onZero onOverflow : BitVec 64} (hzero : onZero = g zero)
    (hoverflow : lhs = BitVec.intMin w → rhs = -1 → onOverflow = g (f lhs rhs)) :
    (if rhs = 0 then Except.ok onZero
      else if lhs = BitVec.intMin w ∧ rhs = -1 then Except.ok onOverflow
      else Except.ok (g (f lhs rhs)) : Except Fault (BitVec 64)) =
      .ok (g (if rhs = 0 then zero else f lhs rhs)) := by
  split_ifs with h0 hmin
  · rw [hzero]
  · rw [hoverflow hmin.1 hmin.2]
  · rfl

/-- The 64-bit products, quotients and remainders. -/
theorem execute_eq {op : Rv64im.AluOp} (hop : op.isM = true) (lhs rhs : BitVec 64) :
    execute (aluType op) lhs rhs = .ok (Rv64im.alu op lhs rhs) := by
  have hsign (x : BitVec 64) : x &&& (1#64 <<< 63) ≠ 0 ↔ x.msb = true :=
    TwosComplement.and_signBit_ne_zero x (by decide)
  cases op with
  | mul => rfl
  | mulhu => exact congrArg _ (multiplyHighUnsigned_eq lhs rhs)
  | mulhsu =>
    show Except.ok _ = Except.ok (BitVec.ofInt 64 _)
    -- the subtraction of the source is the correction for a negative factor
    rw [multiplyHighUnsigned_eq, TwosComplement.high_mulhsu]
    exact congrArg _ (if_congr (hsign lhs) rfl rfl)
  | mulh =>
    show Except.ok _ = Except.ok (BitVec.ofInt 64 _)
    rw [multiplyHighUnsigned_eq, TwosComplement.high_mulh, TwosComplement.high_mulhsu]
    simp only [hsign]
  | div =>
    show (if rhs = 0 then _ else _) = Except.ok (if rhs = 0 then _ else _)
    rw [TwosComplement.ofInt_neg_one, ← TwosComplement.sdiv_eq_ofInt]
    refine guarded_division BitVec.sdiv id rfl ?_
    rintro rfl rfl
    rfl
  | divu =>
    show Except.ok (if rhs = 0 then _ else _) = Except.ok (if rhs = 0 then _ else _)
    rw [TwosComplement.udiv_eq_ofNat]
  | rem =>
    show (if rhs = 0 then _ else _) = Except.ok (if rhs = 0 then _ else _)
    rw [← TwosComplement.srem_eq_ofInt]
    refine guarded_division BitVec.srem id rfl ?_
    rintro rfl rfl
    rfl
  | remu =>
    show Except.ok (if rhs = 0 then _ else _) = Except.ok (if rhs = 0 then _ else _)
    rw [TwosComplement.umod_eq_ofNat]
  | _ => cases hop

/-- The word products, quotients and remainders, on operands that were widened from
words. -/
theorem executeWord_eq {op : Rv64im.AluOp} (hop : op.isM = true) (hw : op.hasW = true)
    (lhs rhs : BitVec 32) :
    executeWord (aluType op) (lhs.setWidth 64) (rhs.setWidth 64) =
      .ok ((Rv64im.alu op lhs rhs).signExtend 64) := by
  have hword (x : BitVec 32) : (x.setWidth 64).setWidth 32 = x := by
    rw [BitVec.setWidth_setWidth_of_le _ (by decide), BitVec.setWidth_eq]
  unfold executeWord
  -- the operands come widened, and are narrowed again at once
  rw [hword, hword]
  simp only [signExtendWord_eq]
  cases op with
  | mul => rfl
  | div =>
    show (if rhs = 0 then _ else _) =
      Except.ok ((if rhs = 0 then _ else _ : BitVec 32).signExtend 64)
    rw [TwosComplement.ofInt_neg_one, ← TwosComplement.sdiv_eq_ofInt]
    refine guarded_division BitVec.sdiv (BitVec.signExtend 64) rfl ?_
    rintro rfl rfl
    rfl
  | divu =>
    show Except.ok ((if rhs = 0 then _ else _ : BitVec 32).signExtend 64) =
      Except.ok ((if rhs = 0 then _ else _ : BitVec 32).signExtend 64)
    rw [TwosComplement.udiv_eq_ofNat]
  | rem =>
    show (if rhs = 0 then _ else _) =
      Except.ok ((if rhs = 0 then _ else _ : BitVec 32).signExtend 64)
    rw [← TwosComplement.srem_eq_ofInt]
    refine guarded_division BitVec.srem (BitVec.signExtend 64) rfl ?_
    rintro rfl rfl
    rfl
  | remu =>
    show Except.ok ((if rhs = 0 then _ else _ : BitVec 32).signExtend 64) =
      Except.ok ((if rhs = 0 then _ else _ : BitVec 32).signExtend 64)
    rw [TwosComplement.umod_eq_ofNat]
  | mulh | mulhsu | mulhu => cases hw
  | _ => cases hop

end MulDivUnit

/-! ## §2. The 64-bit forms -/

/-- A masked shift amount is the amount modulo the width. -/
theorem toNat_and_shiftMask (x : BitVec 64) : (x &&& 0x3f).toNat = x.toNat % 64 :=
  BitField.toNat_and_lowMask x 6 (by decide)

/-- OP-IMM: the switch adds the immediate on the left, and takes the low six bits of
the immediate as the shift amount. -/
theorem opImmResult_eq (core : Core) {op : Rv64im.AluOp} (hop : op.hasImm = true)
    (imm : BitVec 64) (rs1 rd : RegIndex) :
    opImmResult core { type := aluType op, imm := imm, rs1 := rs1, rd := rd } =
      .ok (Rv64im.alu op (core.getGpr rs1) imm) := by
  unfold opImmResult
  simp only [toNat_and_shiftMask]
  cases op with
  | add => exact congrArg _ (BitVec.add_comm _ _)
  | sll | slt | sltu | xor | srl | sra | or | and => rfl
  | _ => cases hop

/-- OP. -/
theorem opResult_eq (core : Core) (op : Rv64im.AluOp) (rs1 rs2 rd : RegIndex) :
    opResult core { type := aluType op, rs1 := rs1, rs2 := rs2, rd := rd } =
      .ok (Rv64im.alu op (core.getGpr rs1) (core.getGpr rs2)) := by
  unfold opResult
  simp only [toNat_and_shiftMask]
  cases op with
  | mul | mulh | mulhsu | mulhu | div | divu | rem | remu => exact MulDivUnit.execute_eq rfl _ _
  | _ => rfl

/-! ## §3. The word forms -/

theorem toNat_and_wordShiftMask (x : BitVec 32) : (x &&& 0x1f#32).toNat = x.toNat % 32 :=
  BitField.toNat_and_lowMask x 5 (by decide)

/-- OP-IMM-32: the low five bits of the immediate are the shift amount. -/
theorem opImm32Result_eq (core : Core) {op : Rv64im.AluOp} (hop : op.hasImmW = true)
    (imm : BitVec 64) (rs1 rd : RegIndex) :
    opImm32Result core { type := aluType op, imm := imm, rs1 := rs1, rd := rd } =
      .ok (Rv64im.alu op ((core.getGpr rs1).setWidth 32) (imm.setWidth 32)) := by
  unfold opImm32Result
  simp only [toNat_and_wordShiftMask]
  cases op with
  | add => exact congrArg _ (BitVec.add_comm _ _)
  | sll | srl | sra => rfl
  | _ => cases hop

/-- OP-32, the three shifts apart: their amount keeps six bits, and is past the word
when bit 5 of the register is set. -/
theorem op32Result_eq (core : Core) {op : Rv64im.AluOp} (hop : op.hasW = true)
    (hshift : op.isShift = false) (rs1 rs2 rd : RegIndex) :
    op32Result core { type := aluType op, rs1 := rs1, rs2 := rs2, rd := rd } =
      .ok (Rv64im.alu op ((core.getGpr rs1).setWidth 32) ((core.getGpr rs2).setWidth 32)) := by
  have htrunc (x : BitVec 32) : (x.signExtend 64).setWidth 32 = x := by
    rw [TwosComplement.setWidth_signExtend x (by decide)]
  cases op with
  | add | sub => rfl
  | mul | div | divu | rem | remu =>
    show (·.setWidth 32) <$> MulDivUnit.executeWord _ _ _ = _
    rw [MulDivUnit.executeWord_eq rfl rfl]
    exact congrArg _ (htrunc _)
  | sll | srl | sra => cases hshift
  | _ => cases hop

end ZincSim
