/-
  ZincSim.Lib.RvFormat — the instruction formats of RISC-V.

  A format puts the fields of an instruction at their places in the word
  (`formatR`, `formatR4`, `formatI`, `formatS`, `formatB`, `formatU`, `formatJ`); put back
  together, the fields of a word give the word (`formatR_fields` and its siblings).  The
  immediates are the signed values of their fields.
-/
import ZincSim.Lib.Rv64im

namespace Rv64im

/-! ## §1. Immediate fields -/

section Fields

variable (word : BitVec 32)

def rs3 : BitVec 5 := word.extractLsb' 27 5
def fmt : BitVec 2 := word.extractLsb' 25 2

/-- `imm[11:0]`. -/
def fieldI : BitVec 12 := word.extractLsb' 20 12

/-- `imm[11:5|4:0]`. -/
def fieldS : BitVec 12 := word.extractLsb' 25 7 ++ word.extractLsb' 7 5

/-- `imm[12|10:5|4:1|11]`. -/
def fieldB : BitVec 13 :=
  word.extractLsb' 31 1 ++ word.extractLsb' 7 1 ++ word.extractLsb' 25 6 ++
    word.extractLsb' 8 4 ++ 0#1

/-- `imm[31:12]`. -/
def fieldU : BitVec 32 := word.extractLsb' 12 20 ++ 0#12

/-- `imm[20|10:1|11|19:12]`. -/
def fieldJ : BitVec 21 :=
  word.extractLsb' 31 1 ++ word.extractLsb' 12 8 ++ word.extractLsb' 20 1 ++
    word.extractLsb' 21 10 ++ 0#1

/-- `imm[11:5|4:0]`, as the value it stands for. -/
def immS : BitVec 64 := (fieldS word).signExtend 64

end Fields

/-! ## §2. Formats -/

section Formats

variable (rs3 rs2 rs1 rd : BitVec 5) (funct3 : BitVec 3) (opcode : BitVec 7)

def formatR (funct7 : BitVec 7) : BitVec 32 := funct7 ++ rs2 ++ rs1 ++ funct3 ++ rd ++ opcode

def formatR4 (fmt : BitVec 2) : BitVec 32 :=
  rs3 ++ fmt ++ rs2 ++ rs1 ++ funct3 ++ rd ++ opcode

def formatI (imm : BitVec 12) : BitVec 32 := imm ++ rs1 ++ funct3 ++ rd ++ opcode

def formatS (imm : BitVec 12) : BitVec 32 :=
  imm.extractLsb' 5 7 ++ rs2 ++ rs1 ++ funct3 ++ imm.extractLsb' 0 5 ++ opcode

def formatB (imm : BitVec 13) : BitVec 32 :=
  imm.extractLsb' 12 1 ++ imm.extractLsb' 5 6 ++ rs2 ++ rs1 ++ funct3 ++
    imm.extractLsb' 1 4 ++ imm.extractLsb' 11 1 ++ opcode

def formatU (imm : BitVec 32) : BitVec 32 := imm.extractLsb' 12 20 ++ rd ++ opcode

def formatJ (imm : BitVec 21) : BitVec 32 :=
  imm.extractLsb' 20 1 ++ imm.extractLsb' 1 10 ++ imm.extractLsb' 11 1 ++
    imm.extractLsb' 12 8 ++ rd ++ opcode

end Formats

/-! ## §3. Putting the fields of a word back -/

section RoundTrips

variable (word : BitVec 32)

theorem formatR_fields :
    formatR (rs2 word) (rs1 word) (rd word) (funct3 word) (opcode word) (funct7 word) = word := by
  unfold formatR rs2 rs1 rd funct3 opcode funct7
  simp (disch := rfl) only [BitVec.extractLsb'_append_extractLsb'_eq_extractLsb']
  exact BitVec.extractLsb'_eq_self

theorem formatR4_fields :
    formatR4 (rs3 word) (rs2 word) (rs1 word) (rd word) (funct3 word) (opcode word) (fmt word) =
      word := by
  unfold formatR4 rs3 rs2 rs1 rd funct3 opcode fmt
  simp (disch := rfl) only [BitVec.extractLsb'_append_extractLsb'_eq_extractLsb']
  exact BitVec.extractLsb'_eq_self

theorem formatI_fields :
    formatI (rs1 word) (rd word) (funct3 word) (opcode word) (fieldI word) = word := by
  unfold formatI rs1 rd funct3 opcode fieldI
  simp (disch := rfl) only [BitVec.extractLsb'_append_extractLsb'_eq_extractLsb']
  exact BitVec.extractLsb'_eq_self

theorem formatS_fields :
    formatS (rs2 word) (rs1 word) (funct3 word) (opcode word) (fieldS word) = word := by
  have hhigh : (fieldS word).extractLsb' 5 7 = word.extractLsb' 25 7 := by
    apply BitVec.eq_of_getLsbD_eq
    intro i hi
    simp only [fieldS, BitVec.getLsbD_extractLsb', BitVec.getLsbD_append]
    interval_cases i <;> simp
  have hlow : (fieldS word).extractLsb' 0 5 = word.extractLsb' 7 5 := by
    apply BitVec.eq_of_getLsbD_eq
    intro i hi
    simp only [fieldS, BitVec.getLsbD_extractLsb', BitVec.getLsbD_append]
    interval_cases i <;> simp
  unfold formatS rs2 rs1 funct3 opcode
  rw [hhigh, hlow]
  simp (disch := rfl) only [BitVec.extractLsb'_append_extractLsb'_eq_extractLsb']
  exact BitVec.extractLsb'_eq_self

theorem formatU_fields : formatU (rd word) (opcode word) (fieldU word) = word := by
  have himm : (fieldU word).extractLsb' 12 20 = word.extractLsb' 12 20 := by
    apply BitVec.eq_of_getLsbD_eq
    intro i hi
    simp only [fieldU, BitVec.getLsbD_extractLsb', BitVec.getLsbD_append]
    interval_cases i <;> simp
  unfold formatU rd opcode
  rw [himm]
  simp (disch := rfl) only [BitVec.extractLsb'_append_extractLsb'_eq_extractLsb']
  exact BitVec.extractLsb'_eq_self

/-- The four pieces of a branch offset. -/
theorem fieldB_pieces :
    (fieldB word).extractLsb' 12 1 = word.extractLsb' 31 1 ∧
      (fieldB word).extractLsb' 5 6 = word.extractLsb' 25 6 ∧
      (fieldB word).extractLsb' 1 4 = word.extractLsb' 8 4 ∧
      (fieldB word).extractLsb' 11 1 = word.extractLsb' 7 1 := by
  refine ⟨?_, ?_, ?_, ?_⟩ <;>
    · apply BitVec.eq_of_getLsbD_eq
      intro i hi
      simp only [fieldB, BitVec.getLsbD_extractLsb', BitVec.getLsbD_append]
      interval_cases i <;> simp

theorem formatB_fields :
    formatB (rs2 word) (rs1 word) (funct3 word) (opcode word) (fieldB word) = word := by
  obtain ⟨h12, h10, h4, h11⟩ := fieldB_pieces word
  unfold formatB rs2 rs1 funct3 opcode
  rw [h12, h10, h4, h11]
  simp (disch := rfl) only [BitVec.extractLsb'_append_extractLsb'_eq_extractLsb']
  exact BitVec.extractLsb'_eq_self

/-- The four pieces of a jump offset. -/
theorem fieldJ_pieces :
    (fieldJ word).extractLsb' 20 1 = word.extractLsb' 31 1 ∧
      (fieldJ word).extractLsb' 1 10 = word.extractLsb' 21 10 ∧
      (fieldJ word).extractLsb' 11 1 = word.extractLsb' 20 1 ∧
      (fieldJ word).extractLsb' 12 8 = word.extractLsb' 12 8 := by
  refine ⟨?_, ?_, ?_, ?_⟩ <;>
    · apply BitVec.eq_of_getLsbD_eq
      intro i hi
      simp only [fieldJ, BitVec.getLsbD_extractLsb', BitVec.getLsbD_append]
      interval_cases i <;> simp

theorem formatJ_fields : formatJ (rd word) (opcode word) (fieldJ word) = word := by
  obtain ⟨h20, h10, h11, h19⟩ := fieldJ_pieces word
  unfold formatJ rd opcode
  rw [h20, h10, h11, h19]
  simp (disch := rfl) only [BitVec.extractLsb'_append_extractLsb'_eq_extractLsb']
  exact BitVec.extractLsb'_eq_self

/-- A shift amount and the six bits above it make the immediate field. -/
theorem funct6_append_shamt6 : funct6 word ++ shamt6 word = fieldI word :=
  BitVec.extractLsb'_append_extractLsb'_eq_extractLsb' rfl

/-- The same with the five bits of a word shift. -/
theorem funct7_append_shamt5 : funct7 word ++ shamt5 word = fieldI word :=
  BitVec.extractLsb'_append_extractLsb'_eq_extractLsb' rfl

end RoundTrips

/-! ## §4. The values of the immediates -/

section Values

variable {n : Nat}

/-- An offset with a clear low bit is even. -/
theorem two_dvd_toInt_append (x : BitVec n) : (2 : ℤ) ∣ (x ++ 0#1).toInt := by
  have hnat : (x ++ 0#1).toNat = x.toNat * 2 := by
    rw [BitVec.toNat_append, Nat.shiftLeft_eq]
    simp
  have hpow : (2 : ℤ) ∣ ((2 ^ (n + 1) : Nat) : ℤ) := ⟨((2 ^ n : Nat) : ℤ), by push_cast; ring⟩
  rw [BitVec.toInt_eq_toNat_cond, hnat]
  split
  · exact ⟨x.toNat, by push_cast; ring⟩
  · exact Dvd.dvd.sub ⟨x.toNat, by push_cast; ring⟩ hpow

/-- How far a JAL reaches. -/
theorem immJ_range (word : BitVec 32) :
    -2 ^ 20 ≤ (immJ word).toInt ∧ (immJ word).toInt < 2 ^ 20 := by
  have hvalue : (immJ word).toInt = (fieldJ word).toInt :=
    BitVec.toInt_signExtend_of_le (by decide)
  rw [hvalue]
  exact ⟨(fieldJ word).le_toInt, (fieldJ word).toInt_lt⟩

end Values

end Rv64im
