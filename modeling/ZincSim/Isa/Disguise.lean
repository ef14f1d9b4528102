/-
  ZincSim.Isa.Disguise — no word is executed as another instruction, and where that fails.

  A word whose selecting fields are not those of the instruction it decodes to should be
  rejected in every state.  `word_cases` goes through the opcodes: the fields are assigned,
  or `execute` throws in every state, or the word is one of `Disguised`, where neither the
  decoder nor `execute` looks at the field.
-/
import ZincSim.Isa.Fields
import ZincSim.Step.Atomic
import ZincSim.Step.DataAccess
import ZincSim.Step.ReservedRounding

namespace ZincSim

open Rv64im
open Except (fails_ok fails_error fails_bind)

/-! ## §1. Accepted and rejected -/

/-- There is a state in which the step commits or takes an exception. -/
def Accepted (insn : DecodedInsn) : Prop := ∃ r m m', step insn m = .ok r m'

/-- `InvalidInsn`, a throw of the decoder, or a throw of the step in every state. -/
def Rejected (word : BitVec 32) : Prop :=
  Throws (decode word) ∨ decode word = .ok .invalid ∨
    ∃ insn, decode word = .ok insn ∧
      ∀ m, ∃ fault m', step insn m = .error fault m' ∧ fault.isThrow = true

/-- The word is not executed in disguise: when it is accepted its fields are those of the
instruction, and when they are not it is rejected. -/
structure Honest (fields : BitVec 32 → DecodedInsn → Prop) (word : BitVec 32) : Prop where
  accepted : ∀ insn, decode word = .ok insn → insn ≠ .invalid → Accepted insn → fields word insn
  rejected : (∀ insn, decode word = .ok insn → insn ≠ .invalid → ¬ fields word insn) →
    Rejected word

/-- `AssignedFields`, with the rounding mode counted among the fields: 101 and 110 are
reserved. -/
def AssignedEncoding (word : BitVec 32) (insn : DecodedInsn) : Prop :=
  AssignedFields word insn ∧ (RoundsResult insn → funct3 word ≠ 0b101 ∧ funct3 word ≠ 0b110)

/-- A store of an unsigned type throws after the alignment test, so it traps at a misaligned
address.  There is one unless the address is an aligned constant. -/
def UnsignedStore (word : BitVec 32) : Prop :=
  (funct3 word = 0b101 ∧ (rs1 word ≠ 0 ∨ ¬ 2 ∣ (immS word).toNat)) ∨
    (funct3 word = 0b110 ∧ (rs1 word ≠ 0 ∨ ¬ 4 ∣ (immS word).toNat))

/-- The words that are executed as another instruction: `funct3` of JALR, FLW and FSW and
the registers of ECALL and MRET are not checked, that of a store is checked late. -/
def Disguised (word : BitVec 32) : Prop :=
  (opcode word = 0b1100111 ∧ funct3 word ≠ 0b000) ∨
    ((opcode word = 0b0000111 ∨ opcode word = 0b0100111) ∧ funct3 word ≠ 0b010) ∨
    (opcode word = 0b1110011 ∧ StrayRegisters word) ∨
    (opcode word = 0b0100011 ∧ UnsignedStore word)

instance (word : BitVec 32) : Decidable (StrayRegisters word) :=
  inferInstanceAs (Decidable (_ ∧ _))

instance (word : BitVec 32) : Decidable (UnsignedStore word) :=
  inferInstanceAs (Decidable (_ ∨ _))

instance (word : BitVec 32) : Decidable (Disguised word) := inferInstanceAs (Decidable (_ ∨ _))

/-- An instruction that rounds, with a reserved mode in its own field. -/
def ReservedRm (word : BitVec 32) : Prop :=
  (funct3 word = 0b101 ∨ funct3 word = 0b110) ∧
    ((opcode word = 0b1010011 ∧ ∃ type ∈ roundingOps, OpFpFields word type) ∨
      (opcode word ∈ fmaOpcodes ∧ fmt word = 0b00))

/-! ## §2. Rejection in every state -/

section Rows

variable {word : BitVec 32}

theorem rejected_of_throws {insn : DecodedInsn}
    (hrow : decodeRow (opcode word) word = .ok insn)
    (h : ∀ core mem, Throws (execute core mem insn)) : Rejected word := by
  refine .inr (.inr ⟨insn, (decode_eq_row word).trans hrow, fun m => ?_⟩)
  obtain ⟨fault, hx, hthrow⟩ := h m.core m.mem
  exact ⟨fault, m, step_of_fault hx, hthrow⟩

/-- The word is one that a row accounts for. -/
def Accounted (word : BitVec 32) : Prop :=
  Rejected word ∨ (∃ insn, decode word = .ok insn ∧ AssignedFields word insn) ∨ Disguised word

theorem accounted_of_fields {insn : DecodedInsn}
    (hrow : decodeRow (opcode word) word = .ok insn) (h : AssignedFields word insn) :
    Accounted word := .inr (.inl ⟨insn, (decode_eq_row word).trans hrow, h⟩)

/-- A store of an unsigned type that is always aligned. -/
theorem executeStore_throws {insn : StoreInsn} {size : Nat} (hsize : loadSize insn.type = some size)
    (haligned : ∀ core : Core, size ∣ (core.getGpr insn.rs1 + insn.imm).toNat)
    (hdata : ∀ core value, Throws (storeData core insn value)) (core : Core) :
    Throws (executeStore core insn) := by
  unfold executeStore
  dsimp only
  rw [memAccessAligned_load hsize, decide_eq_true (haligned core)]
  exact (hdata core _).bind _

theorem accounted_store (h : opcode word = 0b0100011) : Accounted word := by
  have hrow : decodeRow (opcode word) word = .ok (.store
      ⟨.ofCode ((funct3 word).setWidth 32), immS word, rs1 word, rs2 word⟩) := by
    rw [h]
    rfl
  have hcode := MemAccessType.code_ofCode ((funct3 word).setWidth 32)
  have h3 := funct3_of_code hcode
  rcases store_row hcode with hfields | hthrows | ⟨htype, hthrows⟩
  · exact accounted_of_fields hrow ⟨h, hfields⟩
  · exact .inl (rejected_of_throws hrow fun core _ => (hthrows _).bind _)
  · -- rejected where the test never fails
    have hconst {size : Nat} (hsize : loadSize (.ofCode ((funct3 word).setWidth 32)) = some size)
        (haligned : ∀ core : Core, size ∣ (core.getGpr (rs1 word) + immS word).toNat) :
        Accounted word :=
      .inl (rejected_of_throws hrow fun core _ =>
        executeStore_throws hsize haligned (fun core value => hthrows core _ value rfl) core)
    have hzero {size : Nat} (h1 : rs1 word = 0) (hdvd : size ∣ (immS word).toNat) (core : Core) :
        size ∣ (core.getGpr (rs1 word) + immS word).toNat := by
      rw [h1, Core.getGpr, core.gprs_zero, zero_add]
      exact hdvd
    have hdisguised (hstore : UnsignedStore word) : Accounted word :=
      .inr (.inr (.inr (.inr (.inr ⟨h, hstore⟩))))
    rcases htype with htype | htype | htype <;> rw [htype] at h3 hconst
    · exact hconst rfl fun _ => one_dvd _
    · by_cases h1 : rs1 word = 0
      · by_cases hdvd : 2 ∣ (immS word).toNat
        · exact hconst rfl (hzero h1 hdvd)
        · exact hdisguised (.inl ⟨h3, .inr hdvd⟩)
      · exact hdisguised (.inl ⟨h3, .inl h1⟩)
    · by_cases h1 : rs1 word = 0
      · by_cases hdvd : 4 ∣ (immS word).toNat
        · exact hconst rfl (hzero h1 hdvd)
        · exact hdisguised (.inr ⟨h3, .inr hdvd⟩)
      · exact hdisguised (.inr ⟨h3, .inl h1⟩)

/-- **Every word outside MISC-MEM** has its assigned fields, is rejected or is disguised. -/
theorem word_cases (h : opcode word ≠ 0b0001111) : Accounted word := by
  have hrow : decodeRow (opcode word) word = decodeRow (opcode word) word := rfl
  conv at hrow => rhs; unfold decodeRow
  split at hrow
  case h_1 hop | h_6 hop | h_11 hop => exact accounted_of_fields hrow hop
  case h_2 hop =>
    rcases system_row word with hfields | hthrows | hstray
    · exact accounted_of_fields hrow ⟨hop, hfields⟩
    · exact .inl (rejected_of_throws hrow fun core _ => hthrows core)
    · exact .inr (.inr (.inr (.inr (.inl ⟨hop, hstray⟩))))
  case h_3 hop =>
    rcases opImm_row word with hfields | hthrows
    · exact accounted_of_fields hrow ⟨hop, hfields⟩
    · exact .inl (rejected_of_throws hrow fun core _ => (hthrows core _ rfl).bind _)
  case h_4 hop =>
    rcases branch_row (BranchType.code_ofCode ((funct3 word).setWidth 32)) with hfields | hthrows
    · exact accounted_of_fields hrow ⟨hop, hfields⟩
    · exact .inl (rejected_of_throws hrow fun core _ => (hthrows core _ rfl).bind _)
  case h_5 hop =>
    by_cases h3 : funct3 word = 0b000
    · exact accounted_of_fields hrow ⟨hop, h3⟩
    · exact .inr (.inr (.inl ⟨hop, h3⟩))
  case h_7 hop => exact accounted_store hop
  case h_8 hop =>
    rcases load_row (MemAccessType.code_ofCode ((funct3 word).setWidth 32)) with hfields | hthrows
    · exact accounted_of_fields hrow ⟨hop, hfields⟩
    · exact .inl (rejected_of_throws hrow fun core _ => (hthrows _).bind _)
  case h_9 hop =>
    rcases opImm32_row word with hfields | hthrows
    · exact accounted_of_fields hrow ⟨hop, hfields⟩
    · exact .inl (rejected_of_throws hrow fun core _ => (hthrows core _ rfl).bind _)
  case h_10 hop => exact absurd hop h
  case h_12 hop =>
    rcases op_row (OpType.code_ofCode (((funct7 word).setWidth 32 <<< 3) |||
      (funct3 word).setWidth 32)) with hfields | hthrows
    · exact accounted_of_fields hrow ⟨hop, hfields⟩
    · exact .inl (rejected_of_throws hrow fun core _ => (hthrows core _ rfl).bind _)
  case h_13 hop =>
    rcases op32_row (OpType.code_ofCode (((funct7 word).setWidth 32 <<< 3) |||
      (funct3 word).setWidth 32)) with hfields | hthrows
    · exact accounted_of_fields hrow ⟨hop, hfields⟩
    · exact .inl (rejected_of_throws hrow fun core _ => (hthrows core _ rfl).bind _)
  case h_14 hop =>
    by_cases h3 : funct3 word = 0b010
    · exact accounted_of_fields hrow ⟨hop, h3⟩
    · exact .inr (.inr (.inr (.inl ⟨.inl hop, h3⟩)))
  case h_15 hop =>
    by_cases h3 : funct3 word = 0b010
    · exact accounted_of_fields hrow ⟨hop, h3⟩
    · exact .inr (.inr (.inr (.inl ⟨.inr hop, h3⟩)))
  case h_20 hop =>
    cases htype : decodeOpFpType word with
    | error fault =>
      have hthrow := decodeOpFpType_throws word fault htype
      refine .inl (.inl ⟨fault, ?_, hthrow⟩)
      rw [decode_eq_row, hrow, htype]
      rfl
    | ok type =>
      rw [htype] at hrow
      exact accounted_of_fields hrow ⟨hop, decodeOpFpType_fields word type htype⟩
  case h_21 => exact .inl (.inr (.inl ((decode_eq_row word).trans hrow)))
  all_goals
    rename_i hop
    cases hfma : decodeFmaFp word with
    | error fault =>
      have hthrow := decodeFmaFp_throws word fault hfma
      refine .inl (.inl ⟨fault, ?_, hthrow⟩)
      rw [decode_eq_row, hrow, hfma]
      rfl
    | ok insn =>
      obtain ⟨hfmt, hopcode, -⟩ := decodeFmaFp_fields hfma
      rw [hfma] at hrow
      exact accounted_of_fields hrow ⟨hopcode.symm, hfmt⟩

/-! ## §3. Disguises -/

/-- A fetch ends in no throw. -/
theorem get32_fails (mem : Memory) (addr : BitVec 64) :
    (mem.get32 addr).Fails fun fault => fault.isThrow = false := by
  intro fault h
  have hcell : mem.getCell 4 addr = .error fault := map_error h
  unfold Memory.getCell at hcell
  split_ifs at hcell
  · cases hcell
    rfl
  · cases hcell
    rfl

/-- A step that `execute` does not throw in ends in no throw, unless it writes mhartid. -/
theorem step_no_throw {insn : DecodedInsn} {m : Machine}
    (hx : (execute m.core m.mem insn).Fails fun fault => fault.isThrow = false)
    (hwrites : ¬ WritesMhartid insn) {fault : Fault} {m' : Machine}
    (h : step insn m = .error fault m') : fault.isThrow = false := by
  rcases step_error_cases h with ⟨hfault, -⟩ | ⟨hfetch, -⟩ |
    ⟨result, raw, core, hresult, -, hregs, -⟩ | ⟨result, raw, logged, hresult, -, -, hmems⟩
  · exact hx fault hfault
  · exact get32_fails m.mem m.core.pc fault hfetch
  · by_contra hthrow
    rw [Bool.not_eq_false] at hthrow
    exact hwrites ((writeback_throw_iff hresult).mp ⟨fault, core, hregs, hthrow⟩)
  · exact writeMems_no_throw hresult hmems

/-- In some state the word is executed without a throw, as an instruction that it is not. -/
theorem not_honest {fields : BitVec 32 → DecodedInsn → Prop} {insn : DecodedInsn}
    (hdecode : decode word = .ok insn) (hinsn : insn ≠ .invalid) (hfields : ¬ fields word insn)
    {m : Machine} (hx : (execute m.core m.mem insn).Fails fun fault => fault.isThrow = false)
    (hwrites : ¬ WritesMhartid insn) : ¬ Honest fields word := by
  intro hhonest
  have hother (insn' : DecodedInsn) (hdecode' : decode word = .ok insn') (_ : insn' ≠ .invalid) :
      ¬ fields word insn' := by
    rw [hdecode] at hdecode'
    cases hdecode'
    exact hfields
  rcases hhonest.rejected hother with ⟨fault, herror, -⟩ | hinvalid | ⟨insn', hdecode', hall⟩
  · rw [hdecode] at herror
    cases herror
  · rw [hdecode] at hinvalid
    exact hinsn (Except.ok.inj hinvalid)
  · rw [hdecode] at hdecode'
    cases hdecode'
    obtain ⟨fault, m', hstep, hthrow⟩ := hall m
    rw [step_no_throw hx hwrites hstep] at hthrow
    cases hthrow

/-- An address register, or a misaligned constant, gives a misaligned address. -/
theorem exists_misaligned {index : RegIndex} {imm : BitVec 64} {size : Nat} (hsize : 1 < size)
    (h : index ≠ 0 ∨ ¬ size ∣ imm.toNat) :
    ∃ core : Core, ¬ size ∣ (core.getGpr index + imm).toNat := by
  by_cases hzero : index = 0
  · refine ⟨(Machine.boot []).core, ?_⟩
    rw [hzero, Core.getGpr, Core.gprs_zero, zero_add]
    exact h.resolve_left (not_not.mpr hzero)
  · refine ⟨(Machine.boot []).core.setGpr index (1 - imm), ?_⟩
    rw [Core.getGpr, Core.setGpr_gprs_self _ hzero, sub_add_cancel]
    exact fun hdvd => absurd (Nat.le_of_dvd (by decide) hdvd) (by simp; omega)

theorem not_honest_store {fields : BitVec 32 → DecodedInsn → Prop}
    (hfields : ∀ insn, fields word insn → AssignedFields word insn)
    (h : opcode word = 0b0100011) (hstore : UnsignedStore word) : ¬ Honest fields word := by
  have hdecode : decode word = .ok (.store
      ⟨.ofCode ((funct3 word).setWidth 32), immS word, rs1 word, rs2 word⟩) := by
    rw [decode_eq_row, h]
    rfl
  -- the size that is tested, and an address that fails the test
  have htrap {type : MemAccessType} {size : Nat}
      (htype : MemAccessType.ofCode ((funct3 word).setWidth 32) = type)
      (hsize : loadSize type = some size) (hnone : storeFunct3 type = none) (hone : 1 < size)
      (haddr : rs1 word ≠ 0 ∨ ¬ size ∣ (immS word).toNat) : ¬ Honest fields word := by
    rw [htype] at hdecode
    obtain ⟨core, hcore⟩ := exists_misaligned hone haddr
    refine not_honest hdecode nofun (fun hf => ?_) (m := { Machine.boot [] with core := core })
      ?_ id
    · have hfunct3 := (hfields _ hf).2
      rw [hnone] at hfunct3
      cases hfunct3
    · show (executeStore core _).Fails _
      unfold executeStore
      dsimp only
      rw [memAccessAligned_load hsize, decide_eq_false hcore]
      exact fails_ok _
  rcases hstore with ⟨h3, haddr⟩ | ⟨h3, haddr⟩
  · exact htrap (by rw [h3]) rfl rfl (by decide) haddr
  · exact htrap (by rw [h3]) rfl rfl (by decide) haddr

/-- ECALL takes its exception and MRET commits, whatever their registers are. -/
theorem not_honest_privileged {fields : BitVec 32 → DecodedInsn → Prop}
    (hfields : ∀ insn, fields word insn → AssignedFields word insn)
    (h : opcode word = 0b1110011) (hstray : StrayRegisters word) : ¬ Honest fields word := by
  obtain ⟨h3, himm, hregs⟩ := hstray
  have hdecode : decode word = .ok (.system (decodeSystem word)) := by
    rw [decode_eq_row, h]
    rfl
  have hstrays {imm : BitVec 12} (hf : PrivilegedFields word imm) : False := by
    obtain ⟨-, -, h1, hd⟩ := hf
    exact hregs.elim (fun hne => hne h1) fun hne => hne hd
  have htype := systemType_privileged h3
  have hrun {type : SystemInsnType} (htype : (decodeSystem word).type = type)
      (hmem : type = .ecall ∨ type = .mret) : ¬ Honest fields word := by
    refine not_honest hdecode nofun (fun hf => ?_) (m := Machine.boot [word]) ?_ ?_
    · have hsystem := (hfields _ hf).2
      rw [htype] at hsystem
      rcases hmem with rfl | rfl <;> exact hstrays hsystem
    · show (executeSystem (Machine.boot [word]).core (decodeSystem word)).Fails _
      unfold executeSystem isCsrInsn
      rw [htype]
      rcases hmem with rfl | rfl <;> exact fails_ok _
    · rintro ⟨hcsr, -⟩
      rw [isCsrInsn, htype] at hcsr
      rcases hmem with rfl | rfl <;> cases hcsr
  rcases himm with himm | himm <;> rw [himm] at htype
  · exact hrun (htype.trans rfl) (.inl rfl)
  · exact hrun (htype.trans rfl) (.inr rfl)

theorem not_honest_of_disguised {fields : BitVec 32 → DecodedInsn → Prop}
    (hfields : ∀ insn, fields word insn → AssignedFields word insn) (h : Disguised word) :
    ¬ Honest fields word := by
  rcases h with ⟨hop, h3⟩ | ⟨hop | hop, h3⟩ | ⟨hop, hstray⟩ | ⟨hop, hstore⟩
  · have hdecode : decode word = .ok (.jalr ⟨immI word, rs1 word, rd word⟩) := by
      rw [decode_eq_row, hop]
      rfl
    exact not_honest hdecode nofun (fun hf => h3 (hfields _ hf).2) (m := Machine.boot [word])
      (fails_ok _) id
  · have hdecode : decode word = .ok (.loadFp ⟨immI word, rs1 word, rd word⟩) := by
      rw [decode_eq_row, hop]
      rfl
    exact not_honest hdecode nofun (fun hf => h3 (hfields _ hf).2) (m := Machine.boot [word])
      (fails_bind (get32_fails _ _) fun _ => fails_ok _) id
  · have hdecode : decode word = .ok (.storeFp ⟨immS word, rs1 word, rs2 word⟩) := by
      rw [decode_eq_row, hop]
      rfl
    exact not_honest hdecode nofun (fun hf => h3 (hfields _ hf).2) (m := Machine.boot [word])
      (fails_ok _) id
  · exact not_honest_privileged hfields hop hstray
  · exact not_honest_store hfields hop hstore

/-- On registers that hold zero nothing is rounded. -/
theorem not_rounds_zero {insn : DecodedInsn} {call : FpuCall}
    (h : fpuCall (Machine.boot [word]).core insn = some call) : ¬ call.Rounds := by
  have hzero : ¬ IsNonzero 0 := by
    rintro ⟨x, hx, hne⟩
    rw [(Binary32.value_eq_zero_iff 0).mpr (by decide)] at hx
    exact hne (Option.some.inj hx).symm
  have hsum (subtract : Bool) : ¬ SumRounds 0 0 subtract := by
    rintro ⟨x, y, hx, -, hne, -⟩
    exact hzero ⟨x, hx, hne⟩
  have hfma (type : FmaFpType) : ¬ FmaRounds type 0 0 0 := by
    rintro ⟨x, y, z, hx, -, -, hne, -⟩
    exact hzero ⟨x, hx, hne⟩
  have hroot : ¬ IsPositive 0 := by
    rintro ⟨x, hx, hpos⟩
    exact hzero ⟨x, hx, hpos.ne'⟩
  cases insn with
  | opFp insn =>
    obtain ⟨type, rm, rs1, rs2, rd⟩ := insn
    cases type with
    | add =>
      cases h
      exact hsum false
    | sub =>
      cases h
      exact hsum true
    | mul | div =>
      cases h
      exact fun hboth => hzero hboth.1
    | sqrt =>
      cases h
      exact hroot
    | cvtSToW | cvtSToWu | cvtSToL | cvtSToLu =>
      cases h
      exact fun hne => hne rfl
    | fclass | moveToX | moveFromX => cases h
    | _ =>
      cases h
      exact id
  | fmaFp insn =>
    cases h
    exact hfma insn.type
  | _ => cases h

theorem not_honest_of_reservedRm (h : ReservedRm word) : ¬ Honest AssignedEncoding word := by
  obtain ⟨hrm, hinsn⟩ := h
  have hother : ∃ code, RoundingMode.ofCode ((funct3 word).setWidth 32) = .other code := by
    rcases hrm with h3 | h3 <;> rw [h3] <;> exact ⟨_, rfl⟩
  obtain ⟨code, hcode⟩ := hother
  have hrun {insn : DecodedInsn} (hdecode : decode word = .ok insn) (hinsn : insn ≠ .invalid)
      (hrounds : RoundsResult insn) (hfield : rmField insn = .other code)
      (hwrites : ¬ WritesMhartid insn) : ¬ Honest AssignedEncoding word := by
    obtain ⟨call, hcall⟩ := fpuCall_of_rounds (Machine.boot [word]).core hrounds
    obtain ⟨result, hresult⟩ :=
      (FpuCall.run_reserved (fpuCall_offered hcall) code).mpr (not_rounds_zero hcall)
    refine not_honest hdecode hinsn (fun hf => ?_) (m := Machine.boot [word]) ?_ hwrites
    · obtain ⟨h5, h6⟩ := hf.2 hrounds
      exact hrm.elim h5 h6
    · rw [execute_of_fpuCall hcall, hfield]
      simp only [resolveRounding, reduceCtorEq, if_false, bind, Except.bind, hresult]
      exact fails_ok _
  rcases hinsn with ⟨hop, type, htype, hfields⟩ | ⟨hop, hfmt⟩
  · have hdecode : decode word = .ok (.opFp ⟨type, .ofCode ((funct3 word).setWidth 32), rs1 word,
        rs2 word, rd word⟩) := by
      rw [decode_eq_row, hop]
      dsimp only [decodeRow]
      rw [decodeOpFpType_of_fields hfields]
      rfl
    exact hrun hdecode nofun htype hcode id
  · obtain ⟨insn, hfma⟩ := decodeFmaFp_of_fields hop hfmt
    have hdecode : decode word = .ok (.fmaFp insn) := by
      rw [decode_eq_row, decodeRow_fma hop, hfma]
      rfl
    obtain ⟨-, -, hmode, -⟩ := decodeFmaFp_fields hfma
    exact hrun hdecode nofun trivial (hmode.trans hcode) id

/-! ## §4. The rule -/

/-- A word that is rejected, or has the fields of its instruction, is honest. -/
theorem honest_of {fields : BitVec 32 → DecodedInsn → Prop} (hinvalid : ¬ fields word .invalid)
    (h : Rejected word ∨ ∃ insn, decode word = .ok insn ∧ fields word insn) :
    Honest fields word := by
  rcases h with hrejected | ⟨insn, hdecode, hfields⟩
  · refine ⟨fun insn hdecode hinsn haccepted => ?_, fun _ => hrejected⟩
    obtain ⟨r, m, m', hstep⟩ := haccepted
    -- a rejected word is decoded to nothing that returns
    rcases hrejected with ⟨fault, herror, -⟩ | hinv | ⟨insn', hdecode', hall⟩
    · rw [hdecode] at herror
      cases herror
    · rw [hdecode] at hinv
      exact absurd (Except.ok.inj hinv) hinsn
    · rw [hdecode] at hdecode'
      cases hdecode'
      obtain ⟨fault, m'', hfault, -⟩ := hall m
      rw [hstep] at hfault
      cases hfault
  · refine ⟨fun insn' hdecode' _ _ => ?_, fun hnone => absurd hfields (hnone insn hdecode ?_)⟩
    · rw [hdecode] at hdecode'
      cases hdecode'
      exact hfields
    · rintro rfl
      exact hinvalid hfields

/-- A word with assigned fields has a reserved mode exactly if it is one of `ReservedRm`. -/
theorem assignedEncoding_of_fields {insn : DecodedInsn} (hfields : AssignedFields word insn)
    (hrm : ¬ ReservedRm word) : AssignedEncoding word insn := by
  refine ⟨hfields, fun hrounds => not_or.mp fun h3 => hrm ⟨h3, ?_⟩⟩
  cases insn with
  | opFp insn => exact .inl ⟨hfields.1, insn.type, hrounds, hfields.2⟩
  | fmaFp insn =>
    refine .inr ⟨?_, hfields.2⟩
    rw [hfields.1]
    cases insn.type <;> decide
  | _ => exact hrounds.elim

/-- **No other instruction is executed in disguise**, except by the words of `Disguised`; when
the rounding mode is counted among the selecting fields, except by those of `ReservedRm` too. -/
theorem honest_iff (h : opcode word ≠ 0b0001111) :
    (Honest AssignedFields word ↔ ¬ Disguised word) ∧
      (Honest AssignedEncoding word ↔ ¬ Disguised word ∧ ¬ ReservedRm word) := by
  constructor
  · refine ⟨fun hhonest hword => not_honest_of_disguised (fun _ hf => hf) hword hhonest,
      fun hword => honest_of id ?_⟩
    rcases word_cases h with hrejected | hfields | hdisguised
    · exact .inl hrejected
    · exact .inr hfields
    · exact absurd hdisguised hword
  · refine ⟨fun hhonest => ⟨fun hword => not_honest_of_disguised (fun _ hf => hf.1) hword hhonest,
      fun hrm => not_honest_of_reservedRm hrm hhonest⟩, fun ⟨hword, hrm⟩ => honest_of (·.1) ?_⟩
    rcases word_cases h with hrejected | ⟨insn, hdecode, hfields⟩ | hdisguised
    · exact .inl hrejected
    · exact .inr ⟨insn, hdecode, assignedEncoding_of_fields hfields hrm⟩
    · exact absurd hdisguised hword

end Rows

/-- `add x1, x2, x3` is itself. -/
theorem honest_add : Honest AssignedFields 0x003100b3 ∧ Honest AssignedEncoding 0x003100b3 := by
  have hrule := @honest_iff 0x003100b3 (by decide)
  have hword : ¬ Disguised 0x003100b3 := by decide
  have hrm : ¬ ReservedRm 0x003100b3 := fun h => absurd h.1 (by decide)
  exact ⟨hrule.1.mpr hword, hrule.2.mpr ⟨hword, hrm⟩⟩

/-- `fld f1, 0(x1)`, a load of a double, as it is decoded. -/
def fldInsn : DecodedInsn := .loadFp { imm := 0, rs1 := 1, rd := 1 }

/-- It commits the load of a single. -/
theorem fld_disguised :
    decode 0x0000b087 = .ok fldInsn ∧ ¬ AssignedFields 0x0000b087 fldInsn ∧
    (∃ commit m', step fldInsn
      { Machine.boot [0x0000b087] with
        core := (Core.init (fun _ => 0) 0x80000000).setGpr 1 0x80000000 } = .ok (some commit) m') ∧
    ¬ ∀ word, opcode word ≠ 0b0001111 → Honest AssignedFields word := by
  have hcommits : ∃ commit m', step fldInsn
      { Machine.boot [0x0000b087] with
        core := (Core.init (fun _ => 0) 0x80000000).setGpr 1 0x80000000 } =
          .ok (some commit) m' :=
    (isCommit_iff _).mp (by decide +kernel)
  have hfields : ¬ AssignedFields 0x0000b087 fldInsn := fun h => absurd h.2 (by decide)
  refine ⟨rfl, hfields, hcommits, fun hall => ?_⟩
  obtain ⟨commit, m', hstep⟩ := hcommits
  exact hfields ((hall 0x0000b087 (by decide)).accepted fldInsn rfl nofun ⟨_, _, _, hstep⟩)

end ZincSim
