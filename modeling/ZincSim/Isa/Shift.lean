/-
  ZincSim.Isa.Shift — the distances of the shifts.

  Four overloads shift, each with a mask of its own, and a shift by the width of its
  operand or more is undefined in C++ (`execute_shift`).  The masks of three of them keep
  the distance below the width.  `Op32Insn` keeps six bits for a word of 32, so its shifts
  use the low five bits only when bit 5 of rs2 is clear (`shiftSound_iff`).
-/
import ZincSim.Isa.Refine

namespace ZincSim

/-! ## §1. The shifts -/

/-- The shifts among the operations. -/
def OpType.isShift : OpType → Bool
  | .sll | .srl | .sra => true
  | _ => false

/-- The shift of an operand. -/
def OpType.shift {w : ℕ} (type : OpType) (x : BitVec w) (distance : ℕ) : BitVec w :=
  match type with
  | .sll => x <<< distance
  | .srl => x >>> distance
  | _ => x.sshiftRight distance

/-- What one of the overloads shifts, by its `shamt`. -/
structure Shift where
  type : OpType
  width : ℕ
  operand : BitVec 64
  distance : ℕ
  rd : RegIndex

/-- The low bits of the operand, shifted and sign-extended. -/
def Shift.result (s : Shift) : BitVec 64 :=
  (s.type.shift (s.operand.setWidth s.width) s.distance).signExtend 64

/-- The shift that an instruction is, with the `shamt` of its overload. -/
def shiftOf (core : Core) : DecodedInsn → Option Shift
  | .opImm insn =>
      if insn.type.isShift then
        some { type := insn.type, width := 64, operand := core.getGpr insn.rs1
               distance := (insn.imm &&& 0x3f).toNat, rd := insn.rd }
      else none
  | .op insn =>
      if insn.type.isShift then
        some { type := insn.type, width := 64, operand := core.getGpr insn.rs1
               distance := (core.getGpr insn.rs2 &&& 0x3f).toNat, rd := insn.rd }
      else none
  | .opImm32 insn =>
      if insn.type.isShift then
        some { type := insn.type, width := 32, operand := core.getGpr insn.rs1
               distance := (insn.imm.setWidth 32 &&& 0x1f#32).toNat, rd := insn.rd }
      else none
  | .op32 insn =>
      if insn.type.isShift then
        some { type := insn.type, width := 32, operand := core.getGpr insn.rs1
               distance := ((core.getGpr insn.rs2).setWidth 32 &&& (0x3f : BitVec 32)).toNat
               rd := insn.rd }
      else none
  | _ => none

theorem OpType.isShift_cases {type : OpType} (h : type.isShift = true) :
    type = .sll ∨ type = .srl ∨ type = .sra := by
  cases type <;> simp_all [OpType.isShift]

section Execute

variable {core : Core} {mem : Memory}

/-- Three masks keep the distance below the width. -/
theorem distance_lt {insn : DecodedInsn} {s : Shift} (h : shiftOf core insn = some s)
    (hword : ∀ i, insn ≠ .op32 i) : s.distance < s.width := by
  unfold shiftOf at h
  split at h
  case h_4 i => exact absurd rfl (hword i)
  case h_5 => cases h
  all_goals
    split at h
    · obtain rfl := Option.some.inj h
      dsimp only
      first
        | rw [toNat_and_shiftMask]
          exact Nat.mod_lt _ (by decide)
        | exact (toNat_and_wordShiftMask _).symm ▸ Nat.mod_lt _ (by decide)
    · cases h

/-- **A shift is carried out when its distance is below the width**, and undefined
otherwise. -/
theorem execute_shift {insn : DecodedInsn} {s : Shift} (h : shiftOf core insn = some s) :
    execute core mem insn =
      if s.distance < s.width then .ok (.normal (.ofX s.rd s.result))
      else .error .undefined := by
  cases insn with
  | opImm insn =>
    have hlt := distance_lt h nofun
    obtain ⟨htype, hs⟩ := Option.ite_none_right_eq_some.mp h
    obtain rfl := Option.some.inj hs
    rw [if_pos hlt, Shift.result, BitVec.setWidth_eq, BitVec.signExtend_eq]
    show executeOpImm core insn = _
    unfold executeOpImm opImmResult
    rcases OpType.isShift_cases htype with htype | htype | htype <;> rw [htype] <;> rfl
  | op insn =>
    have hlt := distance_lt h nofun
    obtain ⟨htype, hs⟩ := Option.ite_none_right_eq_some.mp h
    obtain rfl := Option.some.inj hs
    rw [if_pos hlt, Shift.result, BitVec.setWidth_eq, BitVec.signExtend_eq]
    show executeOp core insn = _
    unfold executeOp opResult
    rcases OpType.isShift_cases htype with htype | htype | htype <;> rw [htype] <;> rfl
  | opImm32 insn =>
    have hlt := distance_lt h nofun
    obtain ⟨htype, hs⟩ := Option.ite_none_right_eq_some.mp h
    obtain rfl := Option.some.inj hs
    rw [if_pos hlt]
    show executeOpImm32 core insn = _
    unfold executeOpImm32 opImm32Result Shift.result
    rcases OpType.isShift_cases htype with htype | htype | htype <;> rw [htype] <;> rfl
  | op32 insn =>
    obtain ⟨htype, hs⟩ := Option.ite_none_right_eq_some.mp h
    obtain rfl := Option.some.inj hs
    show executeOp32 core insn = _
    unfold executeOp32 op32Result Shift.result
    -- the one overload where the test can fail
    by_cases hlt : ((core.getGpr insn.rs2).setWidth 32 &&& (0x3f : BitVec 32)).toNat < 32
    · simp only [if_pos hlt]
      rcases OpType.isShift_cases htype with htype | htype | htype <;> rw [htype] <;> rfl
    · simp only [if_neg hlt]
      rcases OpType.isShift_cases htype with htype | htype | htype <;> rw [htype] <;> rfl
  | _ => cases h

end Execute

/-! ## §2. Word shifts -/

/-- What is asked of a shift, or any other instruction: its distance is below the width,
and the word shift by a register moves the machine on by the low five bits of rs2, as the
word shift by an immediate does. -/
structure ShiftSound (insn : DecodedInsn) (m : Machine) : Prop where
  defined : ∀ s, shiftOf m.core insn = some s → s.distance < s.width
  word : ∀ i, insn = .op32 i → i.type.isShift = true →
    CommitsTo insn m
      { pc := m.core.pc + 4
        x := m.isaState.write i.rd ((i.type.shift ((m.core.getGpr i.rs1).setWidth 32 : BitVec 32)
          ((m.core.getGpr i.rs2).toNat % 32)).signExtend 64) }
  immediate : ∀ i, insn = .op32 i → i.type.isShift = true →
    step insn m = step
      (.opImm32 { type := i.type, rs1 := i.rs1, rd := i.rd
                  imm := BitVec.ofNat 64 ((m.core.getGpr i.rs2).toNat % 32) }) m

/-- The mask of `Op32Insn`, as a remainder. -/
theorem op32_distance (x : BitVec 64) :
    ((x.setWidth 32 : BitVec 32) &&& 0x3f).toNat = x.toNat % 64 := by
  have hmask : ((x.setWidth 32 : BitVec 32) &&& 0x3f).toNat = (x.setWidth 32).toNat % 2 ^ 6 :=
    BitField.toNat_and_lowMask (x.setWidth 32) 6 (by decide)
  rw [hmask, BitVec.toNat_setWidth]
  omega

theorem bit_five_iff (x : BitVec 64) : x.getLsbD 5 = false ↔ x.toNat % 64 < 32 := by
  rw [BitVec.getLsbD, Nat.testBit_eq_decide_div_mod_eq, decide_eq_false_iff_not]
  omega

section Word

variable {m : Machine} {i : Op32Insn} (htype : i.type.isShift = true)

include htype

/-- The word shift by a register, when its distance is below 32. -/
theorem execute_op32_shift (hbit : (m.core.getGpr i.rs2).getLsbD 5 = false) :
    execute m.core m.mem (.op32 i) = .ok (.normal (.ofX i.rd
      ((i.type.shift ((m.core.getGpr i.rs1).setWidth 32 : BitVec 32)
        ((m.core.getGpr i.rs2).toNat % 32)).signExtend 64))) := by
  have hlt := (bit_five_iff _).mp hbit
  have hmod : (m.core.getGpr i.rs2).toNat % 64 = (m.core.getGpr i.rs2).toNat % 32 := by omega
  have hs : shiftOf m.core (.op32 i) = some _ := if_pos htype
  rw [execute_shift hs]
  dsimp only [Shift.result]
  rw [op32_distance, if_pos hlt, hmod]

/-- The word shift by an immediate of five bits. -/
theorem execute_opImm32_shift (n : ℕ) :
    execute m.core m.mem (.opImm32 { type := i.type, rs1 := i.rs1, rd := i.rd
                                     imm := BitVec.ofNat 64 (n % 32) }) =
      .ok (.normal (.ofX i.rd ((i.type.shift ((m.core.getGpr i.rs1).setWidth 32 : BitVec 32)
        (n % 32)).signExtend 64))) := by
  have hmod : ((BitVec.ofNat 64 (n % 32)).setWidth 32).toNat % 32 = n % 32 := by
    rw [BitVec.toNat_setWidth, BitVec.toNat_ofNat]
    omega
  have hs : shiftOf m.core (.opImm32 ⟨i.type, BitVec.ofNat 64 (n % 32), i.rs1, i.rd⟩) = some _ :=
    if_pos htype
  rw [execute_shift hs]
  dsimp only [Shift.result]
  rw [toNat_and_wordShiftMask, hmod, if_pos (Nat.mod_lt _ (by decide))]

end Word

/-- **A shift is sound exactly when it is no word shift with bit 5 of rs2 set.** -/
theorem shiftSound_iff {m : Machine} (haligned : 4 ∣ m.core.pc.toNat)
    (hram : m.mem.Contains 4 m.core.pc) (insn : DecodedInsn) :
    ShiftSound insn m ↔ ∀ i, insn = .op32 i → i.type.isShift = true →
      (m.core.getGpr i.rs2).getLsbD 5 = false := by
  constructor
  · rintro hsound i rfl htype
    have hlt := hsound.defined _ (if_pos htype)
    dsimp only at hlt
    rw [op32_distance] at hlt
    exact (bit_five_iff _).mpr hlt
  · intro hbit
    constructor
    case defined =>
      intro s hs
      by_cases hword : ∃ i, insn = .op32 i
      · obtain ⟨i, rfl⟩ := hword
        obtain ⟨htype, h⟩ := Option.ite_none_right_eq_some.mp hs
        obtain rfl := Option.some.inj h
        dsimp only
        rw [op32_distance]
        exact (bit_five_iff _).mp (hbit i rfl htype)
      · exact distance_lt hs (not_exists.mp hword)
    case word =>
      rintro i rfl htype
      exact commitsTo_of_rd haligned hram none (execute_op32_shift htype (hbit i rfl htype))
    case immediate =>
      rintro i rfl htype
      rw [step_of_normal (execute_op32_shift htype (hbit i rfl htype)),
        step_of_normal (execute_opImm32_shift htype _)]

/-- `sllw x1, x2, x3`. -/
def sllw : DecodedInsn := .op32 { type := .sll, rs1 := 2, rs2 := 3, rd := 1 }

/-- It is sound when x3 is 5. -/
theorem shiftSound_sllw : ShiftSound sllw { Machine.boot [0x003110bb] with
    core := (Core.init (fun _ => 0) 0x80000000).setGpr 3 5 } := by
  refine (shiftSound_iff (by decide) (by decide) sllw).mpr ?_
  intro i hi _
  cases hi
  decide

/-- When x3 is 32 it is undefined, although the low five bits ask for no shift. -/
theorem sllw_undefined :
    decode 0x003110bb = .ok sllw ∧
    (∃ m', step sllw { Machine.boot [0x003110bb] with
      core := (Core.init (fun _ => 0) 0x80000000).setGpr 3 32 } = .error .undefined m') ∧
    ¬ ∀ (insn : DecodedInsn) (m : Machine), 4 ∣ m.core.pc.toNat → m.mem.Contains 4 m.core.pc →
      ShiftSound insn m := by
  refine ⟨rfl, ⟨_, rfl⟩, fun hall => ?_⟩
  have hsound := hall sllw { Machine.boot [0x003110bb] with
    core := (Core.init (fun _ => 0) 0x80000000).setGpr 3 32 } (by decide) (by decide)
  exact absurd (hsound.defined _ rfl) (by decide)

end ZincSim
