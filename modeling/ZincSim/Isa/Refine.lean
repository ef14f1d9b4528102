/-
  ZincSim.Isa.Refine — `Executor::step` refines the specified integer instructions.

  The machine stands for the state of `Rv64im` that has its pc and its X registers
  (`Machine.isaState`).  A step on a decoded legal word commits, reaches the state
  that `Rv64im.exec` gives, and leaves the rest of the machine as it was
  (`step_refines_exec`).  The target of JAL is a sum of two `int64_t`s, which a RAM
  that ends well below the sign bit, as the one of `main` does, keeps in range (§3).
-/
import ZincSim.Isa.Alu
import ZincSim.Memory.Bytes
import ZincSim.Step.FinalWrites
import ZincSim.Step.Run

namespace ZincSim

/-! ## §1. The abstraction -/

/-- What the specified instructions see of the machine. -/
def Machine.isaState (m : Machine) : Rv64im.State where
  pc := m.core.pc
  x := m.core.gprs

/-- `m'` is `m` moved on to `s`: the F registers, the CSRs, the privilege and the
memory are unchanged. -/
structure Moved (m : Machine) (s : Rv64im.State) (m' : Machine) : Prop where
  state : m'.isaState = s
  fprs : m'.core.fprs = m.core.fprs
  csrs : m'.core.csrs = m.core.csrs
  priv : m'.core.priv = m.core.priv
  mem : m'.mem = m.mem

/-- The step on `insn` commits and moves the machine on to `s`. -/
def CommitsTo (insn : DecodedInsn) (m : Machine) (s : Rv64im.State) : Prop :=
  ∃ commit m', step insn m = .ok (some commit) m' ∧ Moved m s m'

/-! ## §2. Steps with one register result -/

/-- `set_gpr` is the specified write of `rd`. -/
theorem gprs_setGpr (core : Core) (rd : RegIndex) (value : BitVec 64) (i : RegIndex) :
    (core.setGpr rd value).gprs i = if i = rd ∧ rd ≠ 0 then value else core.gprs i := by
  by_cases hi : i = rd
  · subst hi
    by_cases hzero : i = 0
    · subst hzero
      rw [Core.setGpr_zero, if_neg (fun h => h.2 rfl)]
    · rw [core.setGpr_gprs_self hzero, if_pos ⟨rfl, hzero⟩]
  · rw [core.setGpr_gprs_of_ne hi, if_neg (fun h => hi h.1)]

section Steps

variable {m : Machine} {insn : DecodedInsn}

/-- A result with at most one X write, and no other effect than the next pc. -/
theorem commitsTo_of_rd (haligned : 4 ∣ m.core.pc.toNat) (hram : m.mem.Contains 4 m.core.pc)
    (next : Option (BitVec 64)) {rd : RegIndex} {value : BitVec 64}
    (hexec : execute m.core m.mem insn =
      .ok (.normal { nextPc := next, regWrites := [xWrite rd value] })) :
    CommitsTo insn m
      { pc := next.getD (m.core.pc + 4), x := m.isaState.write rd value } := by
  obtain ⟨raw, hraw⟩ := (get32_of_contains hram).1 haligned
  let result : NormalStep := { nextPc := next, regWrites := [xWrite rd value] }
  have hstep : step insn m = .ok (some (commitOf m raw (rdWrites rd value) result))
      { m with core := (advance m.core result).setGpr rd value } := by
    rw [step_of_normal hexec, hraw]
    dsimp only
    rw [finalRegWrites_ofX, writeRegs_rdWrites]
    rfl
  refine ⟨_, _, hstep, ?_⟩
  constructor
  case state =>
    unfold Machine.isaState
    congr 1
    · exact Core.setGpr_pc ..
    · funext i
      exact gprs_setGpr ..
  case fprs => exact Core.setGpr_fprs ..
  case csrs => exact Core.setGpr_csrs ..
  case priv => exact Core.setGpr_priv ..
  case mem => rfl

/-- A result that only names the next pc. -/
theorem commitsTo_of_pc (haligned : 4 ∣ m.core.pc.toNat) (hram : m.mem.Contains 4 m.core.pc)
    {next : Option (BitVec 64)}
    (hexec : execute m.core m.mem insn = .ok (.normal { nextPc := next })) :
    CommitsTo insn m { pc := next.getD (m.core.pc + 4), x := m.isaState.x } := by
  obtain ⟨raw, hraw⟩ := (get32_of_contains hram).1 haligned
  let result : NormalStep := { nextPc := next }
  have hstep : step insn m = .ok (some (commitOf m raw [] result))
      { m with core := advance m.core result } := by
    rw [step_of_normal hexec, hraw]
    rfl
  refine ⟨_, _, hstep, ?_⟩
  constructor <;> rfl

end Steps

/-- `should_branch` decides the specified condition. -/
theorem shouldBranch_eq (core : Core) (cond : Rv64im.Cond) (imm : BitVec 64)
    (rs1 rs2 : RegIndex) :
    shouldBranch core { type := condType cond, imm := imm, rs1 := rs1, rs2 := rs2 } =
      .ok (decide (cond.Holds (core.getGpr rs1) (core.getGpr rs2))) := by
  cases cond <;> rfl

/-! ## §3. JAL from inside the RAM -/

/-- The memory ends below the sign bit, by at least what a JAL reaches. -/
def Memory.BelowSign (mem : Memory) : Prop :=
  mem.base.toNat + mem.data.length + 2 ^ 20 ≤ 2 ^ 63

instance (mem : Memory) : Decidable mem.BelowSign := inferInstanceAs (Decidable (_ ≤ _))

/-- What is in the memory lies before its end. -/
theorem Memory.Contains.lt {mem : Memory} {addr : BitVec 64} (h : mem.Contains 4 addr) :
    addr.toNat < mem.base.toNat + mem.data.length := by
  have hcell : 4 * ((addr - mem.base).toNat / 4) + 4 ≤ mem.data.length := h
  have hsub : (addr - mem.base).toNat = (2 ^ 64 - mem.base.toNat + addr.toNat) % 2 ^ 64 :=
    BitVec.toNat_sub ..
  have haddr := addr.isLt
  have hbase := mem.base.isLt
  omega

/-- **No JAL in such a memory overflows.** -/
theorem saddOverflow_immJ {mem : Memory} {pc : BitVec 64} (hbelow : mem.BelowSign)
    (hram : mem.Contains 4 pc) (word : BitVec 32) :
    pc.saddOverflow (Rv64im.immJ word) = false := by
  have hend : mem.base.toNat + mem.data.length + 2 ^ 20 ≤ 2 ^ 63 := hbelow
  have hpc := hram.lt
  have hvalue : pc.toInt = pc.toNat := BitVec.toInt_eq_toNat_of_lt (by omega)
  obtain ⟨hlow, hhigh⟩ := Rv64im.immJ_range word
  simp only [BitVec.saddOverflow, Bool.or_eq_false_iff, decide_eq_false_iff_not, hvalue]
  omega

theorem executeJal_of_fits {core : Core} {insn : JalInsn}
    (h : core.pc.saddOverflow insn.imm = false) :
    executeJal core insn = .ok (.normal
      { nextPc := some (core.pc + insn.imm)
        regWrites := [xWrite insn.rd (core.pc + 4)] }) := by
  rw [executeJal, h, if_neg Bool.false_ne_true]

/-! ## §4. The refinement -/

/-- The target of a JAL fits `int64_t`. -/
def JalFits (pc : BitVec 64) (insn : Rv64im.Insn) : Prop :=
  ∀ rd imm, insn = .jal rd imm → pc.saddOverflow imm = false

/-- One instruction, from the specified side. -/
theorem commitsTo_exec {m : Machine} (haligned : 4 ∣ m.core.pc.toNat)
    (hram : m.mem.Contains 4 m.core.pc) {insn : Rv64im.Insn} (hlegal : insn.Legal)
    (hshift : insn.isShiftW = false) (hfits : JalFits m.core.pc insn)
    (htarget : ∀ t, Rv64im.target m.core.pc insn = some t → 4 ∣ t.toNat) :
    ∃ s, Rv64im.exec m.isaState insn = some s ∧ CommitsTo (toDecoded insn) m s := by
  cases insn with
  | lui rd imm => exact ⟨_, rfl, commitsTo_of_rd haligned hram none rfl⟩
  | auipc rd imm => exact ⟨_, rfl, commitsTo_of_rd haligned hram none rfl⟩
  | jal rd imm =>
    -- the specification traps on a misaligned target, the simulator does not look
    have hdvd : 4 ∣ (m.core.pc + imm).toNat := htarget _ rfl
    exact ⟨_, if_pos hdvd, commitsTo_of_rd haligned hram (some (m.core.pc + imm))
      (executeJal_of_fits (hfits rd imm rfl))⟩
  | branch cond rs1 rs2 imm =>
    have hdvd : 4 ∣ (m.core.pc + imm).toNat := htarget _ rfl
    -- the condition is a `Bool` in the source and a proposition in the specification
    let next : Option (BitVec 64) :=
      if decide (cond.Holds (m.core.getGpr rs1) (m.core.getGpr rs2)) then some (m.core.pc + imm)
      else none
    have hexec : execute m.core m.mem (toDecoded (.branch cond rs1 rs2 imm)) =
        .ok (.normal { nextPc := next }) := by
      show executeBranch _ _ = _
      unfold executeBranch
      rw [shouldBranch_eq]
      rfl
    refine ⟨_, ?_, commitsTo_of_pc haligned hram hexec⟩
    show (if cond.Holds (m.core.gprs rs1) (m.core.gprs rs2) then _ else _) = _
    by_cases hcond : cond.Holds (m.core.gprs rs1) (m.core.gprs rs2)
    · have hnext : next = some (m.core.pc + imm) := if_pos (decide_eq_true hcond)
      rw [if_pos hcond, if_pos (show 4 ∣ (m.isaState.pc + imm).toNat from hdvd), hnext]
      rfl
    · have hnext : next = none := if_neg fun h => hcond (of_decide_eq_true h)
      rw [if_neg hcond, hnext]
      rfl
  -- the operations come down to the equations of the four `switch`es
  | aluImm op rd rs1 imm =>
    refine ⟨_, rfl, commitsTo_of_rd haligned hram none ?_⟩
    show executeOpImm _ _ = _
    unfold executeOpImm
    rw [opImmResult_eq _ hlegal]
    rfl
  | alu op rd rs1 rs2 =>
    refine ⟨_, rfl, commitsTo_of_rd haligned hram none ?_⟩
    show executeOp _ _ = _
    unfold executeOp
    rw [opResult_eq]
    rfl
  | aluImmW op rd rs1 imm =>
    refine ⟨_, rfl, commitsTo_of_rd haligned hram none ?_⟩
    show executeOpImm32 _ _ = _
    unfold executeOpImm32
    rw [opImm32Result_eq _ hlegal]
    rfl
  | aluW op rd rs1 rs2 =>
    refine ⟨_, rfl, commitsTo_of_rd haligned hram none ?_⟩
    show executeOp32 _ _ = _
    unfold executeOp32
    rw [op32Result_eq _ hlegal hshift]
    rfl

/-- **From the word to the state**: a step on a decoded legal word that is no word
shift by a register, and jumps to no misaligned target, does what the specification
says and nothing else.  The RAM may be any that ends as far below the sign bit as the
one of `main`. -/
theorem step_refines_exec {m : Machine} (hbelow : m.mem.BelowSign)
    (haligned : 4 ∣ m.core.pc.toNat) (hram : m.mem.Contains 4 m.core.pc)
    {word : BitVec 32} {insn : Rv64im.Insn}
    (hword : Rv64im.decode word = some insn) (hshift : insn.isShiftW = false)
    (htarget : ∀ t, Rv64im.target m.core.pc insn = some t → 4 ∣ t.toNat) :
    ∃ decoded s, decode word = .ok decoded ∧ Rv64im.exec m.isaState insn = some s ∧
      CommitsTo decoded m s := by
  have hfits : JalFits m.core.pc insn := by
    rintro rd imm rfl
    rw [Rv64im.imm_of_decode_jal hword]
    exact saddOverflow_immJ hbelow hram word
  obtain ⟨s, hs, hcommit⟩ :=
    commitsTo_exec haligned hram (Rv64im.decode_legal hword) hshift hfits htarget
  exact ⟨_, s, decode_of_legal hword, hs, hcommit⟩

/-- `jal x1, 8` from the reset pc. -/
theorem step_refines_exec_jal :
    ∃ decoded s, decode 0x008000ef = .ok decoded ∧
      Rv64im.exec (Machine.boot [0x008000ef]).isaState (.jal 1 8) = some s ∧
      CommitsTo decoded (Machine.boot [0x008000ef]) s :=
  step_refines_exec (m := Machine.boot [0x008000ef]) (by decide) (by decide) (by decide)
    (show Rv64im.decode 0x008000ef = some (.jal 1 8) by decide) rfl
    (fun t h => by
      cases h
      decide)

end ZincSim
