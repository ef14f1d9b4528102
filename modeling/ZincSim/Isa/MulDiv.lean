/-
  ZincSim.Isa.MulDiv — `MulDivUnit` in the integers.

  The words of the exact products and the quotients and remainders of truncating division
  (`mulDiv_exact`), and the word forms from the 64-bit ones (`executeWord_of_execute`).
-/
import ZincSim.Machine.CheckedMulDiv
import ZincSim.Isa.Alu

namespace ZincSim.MulDivUnit

open Checked TwosComplement

/-! ## §1. No undefined division -/

section Clean

variable (lhs rhs : BitVec 64)

/-- The two guards before a signed division keep the divisor zero and the one quotient
that does not fit away from it. -/
theorem clean_guards {w : ℕ} {x y : BitVec w} {a b d : BitVec 64}
    {c : Except (Violation Fault) (BitVec 64)}
    (hc : y ≠ 0 → x ≠ BitVec.intMin w ∨ y ≠ -1 → c = .ok d) :
    Clean (if y = 0 then .ok a else if x = BitVec.intMin w ∧ y = -1 then .ok b else c)
      (if y = 0 then .ok a else if x = BitVec.intMin w ∧ y = -1 then .ok b else .ok d) := by
  refine clean_ite (fun _ => clean_ok _) fun hzero => ?_
  refine clean_ite (fun _ => clean_ok _) fun hmin => ?_
  exact hc hzero (not_and_or.mp hmin)

/-- The guards of `execute` leave no signed division that C++ does not define. -/
theorem execute_clean (op : OpType) :
    Clean (CheckedMulDivUnit.execute op lhs rhs) (execute op lhs rhs) := by
  cases op with
  | div => exact clean_guards fun hzero hmin => signedDivision_of _ hzero hmin
  | rem => exact clean_guards fun hzero hmin => signedDivision_of _ hzero hmin
  | _ => rfl

/-- Those of `execute_word` neither. -/
theorem executeWord_clean (op : OpType) :
    Clean (CheckedMulDivUnit.executeWord op lhs rhs) (executeWord op lhs rhs) := by
  cases op with
  | div =>
    refine clean_guards fun hzero hmin => ?_
    rw [signedDivision_of _ hzero hmin]
    rfl
  | rem =>
    refine clean_guards fun hzero hmin => ?_
    rw [signedDivision_of _ hzero hmin]
    rfl
  | _ => rfl

end Clean

/-! ## §2. Products -/

section Products

variable (lhs rhs : BitVec 64)

/-- Both factors signed. -/
theorem product_signed : ∃ high, execute .mulh lhs rhs = .ok high ∧
    lhs.toInt * rhs.toInt = high.toInt * 2 ^ 64 + (lhs * rhs).toNat := by
  refine ⟨_, @execute_eq .mulh rfl lhs rhs, ?_⟩
  have hlow := BitVec.le_toInt_mul_toInt (x := lhs) (y := rhs)
  have hhigh := BitVec.toInt_mul_toInt_le (x := lhs) (y := rhs)
  have hwords := eq_words (w := 64) (p := lhs.toInt * rhs.toInt) (by decide) (by omega) (by omega)
  rwa [(ofInt_product lhs rhs).1] at hwords

/-- The left factor signed. -/
theorem product_mixed : ∃ high, execute .mulhsu lhs rhs = .ok high ∧
    lhs.toInt * rhs.toNat = high.toInt * 2 ^ 64 + (lhs * rhs).toNat := by
  refine ⟨_, @execute_eq .mulhsu rfl lhs rhs, ?_⟩
  have hl' := BitVec.toInt_lt (x := lhs)
  have hr : (rhs.toNat : ℤ) < 2 ^ 64 := by exact_mod_cast rhs.isLt
  have hr0 : (0 : ℤ) ≤ rhs.toNat := Int.natCast_nonneg _
  have hlow := mul_le_mul_of_nonneg_right (BitVec.le_toInt lhs) hr0
  have hhigh := mul_le_mul_of_nonneg_right (Int.le_sub_one_of_lt hl') hr0
  have hwords := eq_words (w := 64) (p := lhs.toInt * rhs.toNat) (by decide) (by omega) (by omega)
  rwa [(ofInt_product lhs rhs).2] at hwords

/-- Both factors unsigned. -/
theorem product_unsigned : ∃ high, execute .mulhu lhs rhs = .ok high ∧
    lhs.toNat * rhs.toNat = high.toNat * 2 ^ 64 + (lhs * rhs).toNat := by
  refine ⟨_, rfl, ?_⟩
  have hlt : lhs.toNat * rhs.toNat < 2 ^ 64 * 2 ^ 64 := Nat.mul_lt_mul'' lhs.isLt rhs.isLt
  rw [multiplyHighUnsigned_eq, BitVec.toNat_ofNat, BitVec.toNat_mul,
    Nat.mod_eq_of_lt (Nat.div_lt_of_lt_mul hlt)]
  exact (Nat.div_add_mod' _ _).symm

end Products

/-! ## §3. Division -/

/-- **`MulDivUnit::execute` in the integers**: two words of each product, truncating
division, and the results of the RISC-V specification where there is no quotient. -/
theorem mulDiv_exact (lhs rhs : BitVec 64) :
    (∃ low high highSu highU, execute .mul lhs rhs = .ok low ∧ execute .mulh lhs rhs = .ok high ∧
      execute .mulhsu lhs rhs = .ok highSu ∧ execute .mulhu lhs rhs = .ok highU ∧
      lhs.toInt * rhs.toInt = high.toInt * 2 ^ 64 + low.toNat ∧
      lhs.toInt * rhs.toNat = highSu.toInt * 2 ^ 64 + low.toNat ∧
      lhs.toNat * rhs.toNat = highU.toNat * 2 ^ 64 + low.toNat) ∧
    (rhs ≠ 0 → lhs ≠ BitVec.intMin 64 ∨ rhs ≠ -1 → ∃ q r, execute .div lhs rhs = .ok q ∧
      execute .rem lhs rhs = .ok r ∧ Truncates lhs.toInt rhs.toInt q.toInt r.toInt) ∧
    (lhs = BitVec.intMin 64 → rhs = -1 → execute .div lhs rhs = .ok (BitVec.intMin 64) ∧
      execute .rem lhs rhs = .ok 0) ∧
    (rhs ≠ 0 → ∃ q r, execute .divu lhs rhs = .ok q ∧ execute .remu lhs rhs = .ok r ∧
      lhs.toNat = q.toNat * rhs.toNat + r.toNat ∧ r.toNat < rhs.toNat) ∧
    (rhs = 0 → execute .div lhs rhs = .ok (BitVec.allOnes 64) ∧
      execute .divu lhs rhs = .ok (BitVec.allOnes 64) ∧ execute .rem lhs rhs = .ok lhs ∧
      execute .remu lhs rhs = .ok lhs) ∧
    ∀ op, Clean (CheckedMulDivUnit.execute op lhs rhs) (execute op lhs rhs) := by
  obtain ⟨high, hhigh, hsigned⟩ := product_signed lhs rhs
  obtain ⟨highSu, hhighSu, hmixed⟩ := product_mixed lhs rhs
  obtain ⟨highU, hhighU, hunsigned⟩ := product_unsigned lhs rhs
  refine ⟨⟨lhs * rhs, high, highSu, highU, rfl, hhigh, hhighSu, hhighU, hsigned, hmixed,
    hunsigned⟩, ?_, ?_, ?_, ?_, execute_clean lhs rhs⟩
  · intro hzero hmin
    refine ⟨lhs.sdiv rhs, lhs.srem rhs, ?_, ?_, truncates_sdiv hzero hmin⟩
    · exact (if_neg hzero).trans (if_neg (not_and_or.mpr hmin))
    · exact (if_neg hzero).trans (if_neg (not_and_or.mpr hmin))
  · rintro rfl rfl
    exact ⟨rfl, rfl⟩
  · intro hzero
    have hpos : 0 < rhs.toNat := BitVec.toNat_pos_of_ne_zero hzero
    refine ⟨lhs / rhs, lhs % rhs, congrArg Except.ok (if_neg hzero),
      congrArg Except.ok (if_neg hzero), ?_, ?_⟩
    · rw [BitVec.toNat_udiv, BitVec.toNat_umod]
      exact (Nat.div_add_mod' _ _).symm
    · rw [BitVec.toNat_umod]
      exact Nat.mod_lt _ hpos
  · rintro rfl
    exact ⟨rfl, rfl, rfl, rfl⟩

/-! ## §4. Word forms -/

section Words

variable {op : Rv64im.AluOp} (a b : BitVec 32)

/-- The signed word operations are those of the sign-extended words, cut. -/
theorem alu_signExtend (hop : op ∈ [.mul, .div, .rem]) :
    (Rv64im.alu op (a.signExtend 64) (b.signExtend 64)).setWidth 32 = Rv64im.alu op a b := by
  have hzero := signExtend_eq_zero_iff (v := 64) b (by decide)
  have htoInt (x : BitVec 32) : (x.signExtend 64).toInt = x.toInt :=
    BitVec.toInt_signExtend_of_le (by decide)
  have hcut (x : BitVec 32) : (x.signExtend 64).setWidth 32 = x :=
    setWidth_signExtend x (by decide)
  simp only [List.mem_cons, List.not_mem_nil, or_false] at hop
  rcases hop with rfl | rfl | rfl
  · show (a.signExtend 64 * b.signExtend 64).setWidth 32 = a * b
    rw [BitVec.setWidth_mul _ _ (by decide), hcut, hcut]
  · show (if b.signExtend 64 = 0 then _ else _ : BitVec 64).setWidth 32 = if b = 0 then _ else _
    rw [apply_ite (BitVec.setWidth 32), setWidth_ofInt _ (by decide), setWidth_ofInt _ (by decide),
      htoInt, htoInt]
    exact if_congr hzero rfl rfl
  · show (if b.signExtend 64 = 0 then _ else _ : BitVec 64).setWidth 32 = if b = 0 then _ else _
    rw [apply_ite (BitVec.setWidth 32), setWidth_ofInt _ (by decide), hcut, htoInt, htoInt]
    exact if_congr hzero rfl rfl

/-- The unsigned ones those of the zero-extended words. -/
theorem alu_setWidth (hop : op ∈ [.divu, .remu]) :
    (Rv64im.alu op (a.setWidth 64) (b.setWidth 64)).setWidth 32 = Rv64im.alu op a b := by
  have hzero := setWidth_eq_zero_iff (v := 64) b (by decide)
  have htoNat (x : BitVec 32) : (x.setWidth 64).toNat = x.toNat :=
    BitVec.toNat_setWidth_of_le (by decide)
  have hcut (x : BitVec 32) : (x.setWidth 64).setWidth 32 = x := by
    rw [BitVec.setWidth_setWidth_of_le _ (by decide), BitVec.setWidth_eq]
  simp only [List.mem_cons, List.not_mem_nil, or_false] at hop
  rcases hop with rfl | rfl
  · show (if b.setWidth 64 = 0 then _ else _ : BitVec 64).setWidth 32 = if b = 0 then _ else _
    rw [apply_ite (BitVec.setWidth 32), BitVec.setWidth_ofNat_of_le (by decide), htoNat, htoNat]
    exact if_congr hzero rfl rfl
  · show (if b.setWidth 64 = 0 then _ else _ : BitVec 64).setWidth 32 = if b = 0 then _ else _
    rw [apply_ite (BitVec.setWidth 32), BitVec.setWidth_ofNat_of_le (by decide), htoNat, htoNat,
      hcut]
    exact if_congr hzero rfl rfl

end Words

/-- `execute_word` reads the low words only. -/
theorem executeWord_low (op : OpType) (lhs rhs : BitVec 64) :
    executeWord op lhs rhs = executeWord op (lowWord lhs) (lowWord rhs) := by
  have hlow (x : BitVec 64) : (lowWord x).setWidth 32 = x.setWidth 32 := by
    rw [lowWord, BitVec.setWidth_setWidth_of_le _ (by decide), BitVec.setWidth_eq]
  unfold executeWord
  rw [hlow, hlow]

/-- The sign extension of the low word. -/
def extendLow (value : BitVec 64) : BitVec 64 := (value.setWidth 32).signExtend 64

theorem executeWord_alu {op : Rv64im.AluOp} (hop : op.isM = true) (hw : op.hasW = true)
    (lhs rhs : BitVec 64) : executeWord (aluType op) lhs rhs =
      .ok ((Rv64im.alu op (lhs.setWidth 32 : BitVec 32) (rhs.setWidth 32)).signExtend 64) := by
  rw [executeWord_low]
  exact executeWord_eq hop hw _ _

/-- OP-32 cuts the result to a word and extends it again: that is the result. -/
theorem executeOp32_word (core : Core) (op : Rv64im.AluOp) (hop : op.isM = true)
    (hw : op.hasW = true) (hshift : op.isShift = false) (rs1 rs2 rd : RegIndex) :
    executeOp32 core { type := aluType op, rs1 := rs1, rs2 := rs2, rd := rd } =
      (fun value => .normal (.ofX rd value)) <$>
        executeWord (aluType op) (core.getGpr rs1) (core.getGpr rs2) := by
  unfold executeOp32
  rw [op32Result_eq core hw hshift, executeWord_alu hop hw]
  rfl

/-- **The word operations are the 64-bit ones** on extended words, and OP-32 hands their
results on as they are. -/
theorem executeWord_of_execute (lhs rhs : BitVec 64) :
    (∀ op ∈ [OpType.mul, .div, .rem], executeWord op lhs rhs =
      extendLow <$> execute op (extendLow lhs) (extendLow rhs)) ∧
    (∀ op ∈ [OpType.divu, .remu], executeWord op lhs rhs =
      extendLow <$> execute op (lowWord lhs) (lowWord rhs)) ∧
    ∀ (core : Core) (insn : Op32Insn), insn.type ∈ [OpType.mul, .div, .divu, .rem, .remu] →
      executeOp32 core insn = (fun value => .normal (.ofX insn.rd value)) <$>
        executeWord insn.type (core.getGpr insn.rs1) (core.getGpr insn.rs2) := by
  have hsigned (op : Rv64im.AluOp) (hop : op ∈ [.mul, .div, .rem]) (hm : op.isM = true)
      (hw : op.hasW = true) : executeWord (aluType op) lhs rhs =
        extendLow <$> execute (aluType op) (extendLow lhs) (extendLow rhs) := by
    rw [executeWord_alu hm hw, execute_eq hm, ← alu_signExtend _ _ hop]
    rfl
  have hunsigned (op : Rv64im.AluOp) (hop : op ∈ [.divu, .remu]) (hm : op.isM = true)
      (hw : op.hasW = true) : executeWord (aluType op) lhs rhs =
        extendLow <$> execute (aluType op) (lowWord lhs) (lowWord rhs) := by
    rw [executeWord_alu hm hw, execute_eq hm, ← alu_setWidth _ _ hop]
    rfl
  refine ⟨?_, ?_, ?_⟩
  · intro op hop
    simp only [List.mem_cons, List.not_mem_nil, or_false] at hop
    rcases hop with rfl | rfl | rfl
    · exact hsigned .mul (by decide) rfl rfl
    · exact hsigned .div (by decide) rfl rfl
    · exact hsigned .rem (by decide) rfl rfl
  · intro op hop
    simp only [List.mem_cons, List.not_mem_nil, or_false] at hop
    rcases hop with rfl | rfl
    · exact hunsigned .divu (by decide) rfl rfl
    · exact hunsigned .remu (by decide) rfl rfl
  · intro core insn hop
    obtain ⟨type, rs1, rs2, rd⟩ := insn
    simp only [List.mem_cons, List.not_mem_nil, or_false] at hop
    rcases hop with rfl | rfl | rfl | rfl | rfl
    · exact executeOp32_word core .mul rfl rfl rfl rs1 rs2 rd
    · exact executeOp32_word core .div rfl rfl rfl rs1 rs2 rd
    · exact executeOp32_word core .divu rfl rfl rfl rs1 rs2 rd
    · exact executeOp32_word core .rem rfl rfl rfl rs1 rs2 rd
    · exact executeOp32_word core .remu rfl rfl rfl rs1 rs2 rd

end ZincSim.MulDivUnit
