/-
  ZincSim.Lib.Rv64Hart — an RV64IM hart and its memory.

  `Rv64im` has the instructions that compute.  With JALR, the loads, the stores and the
  fences, and with words that are fetched from the memory they may write, a hart executes
  programs: `Hart.Step` is one instruction of it.  A step that raises an exception, or meets
  a word that is no RV64IM instruction, is none.
-/
import ZincSim.Lib.ByteMap
import ZincSim.Lib.RvFormat

namespace Rv64im

/-! ## §1. Instructions -/

/-- The instructions of RV64IM, by what they act on. -/
inductive Action where
  | compute (insn : Insn)
  | jalr (rd rs1 : BitVec 5) (imm : BitVec 64)
  | load (size : ℕ) (signed : Bool) (rd rs1 : BitVec 5) (imm : BitVec 64)
  | store (size : ℕ) (rs1 rs2 : BitVec 5) (imm : BitVec 64)
  /-- FENCE and FENCE.I. -/
  | fence
  deriving DecidableEq, Repr

/-- The size of a load, and whether it extends the sign. -/
def loadKind (funct3 : BitVec 3) : Option (ℕ × Bool) :=
  match funct3 with
  | 0b000#3 => some (1, true)
  | 0b001#3 => some (2, true)
  | 0b010#3 => some (4, true)
  | 0b011#3 => some (8, true)
  | 0b100#3 => some (1, false)
  | 0b101#3 => some (2, false)
  | 0b110#3 => some (4, false)
  | _ => none

/-- The size of a store. -/
def storeKind (funct3 : BitVec 3) : Option ℕ :=
  match funct3 with
  | 0b000#3 => some 1
  | 0b001#3 => some 2
  | 0b010#3 => some 4
  | 0b011#3 => some 8
  | _ => none

/-- The instruction that a legal word spells.  The fields of a fence are hints. -/
def Action.ofWord (word : BitVec 32) : Option Action :=
  match opcode word with
  | 0b1100111#7 =>
      if funct3 word = 0b000 then some (.jalr (rd word) (rs1 word) (immI word)) else none
  | 0b0000011#7 =>
      (loadKind (funct3 word)).map fun p => .load p.1 p.2 (rd word) (rs1 word) (immI word)
  | 0b0100011#7 =>
      (storeKind (funct3 word)).map fun size => .store size (rs1 word) (rs2 word) (immS word)
  | 0b0001111#7 =>
      if funct3 word = 0b000 ∨ funct3 word = 0b001 then some .fence else none
  | _ => (decode word).map .compute

theorem size_of_loadKind {funct3 : BitVec 3} {p : ℕ × Bool} (h : loadKind funct3 = some p) :
    p.1 ∣ 8 := by
  unfold loadKind at h
  split at h <;> cases h <;> decide

theorem size_of_storeKind {funct3 : BitVec 3} {size : ℕ} (h : storeKind funct3 = some size) :
    size ∣ 8 := by
  unfold storeKind at h
  split at h <;> cases h <;> decide

/-! ## §2. Execution -/

/-- The state of a hart. -/
structure Hart where
  pc : BitVec 64
  x : BitVec 5 → BitVec 64
  mem : ByteMap 64

namespace Hart

/-- The part that computing instructions work on. -/
def state (h : Hart) : State where
  pc := h.pc
  x := h.x

/-- The register value of a load. -/
def extend (signed : Bool) (size n : ℕ) : BitVec 64 :=
  if signed then (BitVec.ofNat (8 * size) n).signExtend 64
  else (BitVec.ofNat (8 * size) n).setWidth 64

/-- The hart after an instruction; `none` where it raises an exception. -/
def act (h : Hart) : Action → Option Hart
  | .compute insn => (exec h.state insn).map fun s => { h with pc := s.pc, x := s.x }
  | .jalr rd rs1 imm =>
      let target := (h.x rs1 + imm) &&& ~~~1#64
      if 4 ∣ target.toNat then some { h with pc := target, x := h.state.write rd (h.pc + 4) }
      else none
  | .load size signed rd rs1 imm =>
      let addr := h.x rs1 + imm
      if size ∣ addr.toNat then
        (h.mem.load addr size).map fun n =>
          { h with pc := h.pc + 4, x := h.state.write rd (extend signed size n) }
      else none
  | .store size rs1 rs2 imm =>
      let addr := h.x rs1 + imm
      if size ∣ addr.toNat ∧ (h.mem.load addr size).isSome then
        let store : ByteMap.Store 64 := { addr := addr, size := size, value := (h.x rs2).toNat }
        some { h with pc := h.pc + 4, mem := h.mem.store store }
      else none
  | .fence => some { h with pc := h.pc + 4 }

/-- The instruction at pc. -/
def fetch (h : Hart) : Option Action :=
  if 4 ∣ h.pc.toNat then
    (h.mem.load h.pc 4).bind fun n => Action.ofWord (BitVec.ofNat 32 n)
  else none

theorem fetch_iff {h : Hart} {action : Action} :
    h.fetch = some action ↔ 4 ∣ h.pc.toNat ∧
      ∃ n, h.mem.load h.pc 4 = some n ∧ Action.ofWord (BitVec.ofNat 32 n) = some action := by
  rw [fetch, Option.ite_none_right_eq_some, Option.bind_eq_some_iff]

/-- One instruction. -/
def Step (h : Hart) (action : Action) (h' : Hart) : Prop :=
  h.fetch = some action ∧ h.act action = some h'

/-- The specification never leaves an instruction boundary. -/
theorem act_aligned {h h' : Hart} {action : Action} (hpc : 4 ∣ h.pc.toNat)
    (hact : h.act action = some h') : 4 ∣ h'.pc.toNat := by
  have hnext : 4 ∣ (h.pc + 4).toNat := by
    have hadd : (h.pc + 4).toNat = (h.pc.toNat + 4) % 2 ^ 64 := BitVec.toNat_add ..
    omega
  cases action with
  | compute insn =>
    obtain ⟨s, hexec, rfl⟩ := Option.map_eq_some_iff.mp hact
    cases insn with
    | jal rd imm =>
      obtain ⟨htarget, hexec⟩ := Option.ite_none_right_eq_some.mp hexec
      cases hexec
      exact htarget
    | branch cond rs1 rs2 imm =>
      simp only [exec] at hexec
      split at hexec
      · obtain ⟨htarget, hexec⟩ := Option.ite_none_right_eq_some.mp hexec
        cases hexec
        exact htarget
      · cases hexec
        exact hnext
    | _ =>
      cases hexec
      exact hnext
  | jalr rd rs1 imm =>
    obtain ⟨htarget, hact⟩ := Option.ite_none_right_eq_some.mp hact
    cases hact
    exact htarget
  | load size signed rd rs1 imm =>
    obtain ⟨-, hact⟩ := Option.ite_none_right_eq_some.mp hact
    obtain ⟨n, -, rfl⟩ := Option.map_eq_some_iff.mp hact
    exact hnext
  | store size rs1 rs2 imm =>
    obtain ⟨-, hact⟩ := Option.ite_none_right_eq_some.mp hact
    cases hact
    exact hnext
  | fence =>
    cases hact
    exact hnext

end Hart

end Rv64im
