/-
  ZincSim.Step.Fetch — the program counter over runs of the fetch-decode-step
  loop.

  pc is set from the fall-through, from JAL, JALR, a taken branch and MRET, and by
  trap entry.  Trap entry masks mtvec; none of the others tests or masks its
  target, so the loop keeps pc a multiple of 4 exactly as long as every target is
  one (`run_pcRule_iff`).
-/
import ZincSim.Csr.Invariant
import ZincSim.Step.Atomic
import ZincSim.Step.DataAccess

namespace ZincSim

open TransitionSystem

/-! ## §1. The loop -/

/-- One iteration of the loop of `main` that returned: `insn` was fetched. -/
def FetchStep (m : Machine) (insn : DecodedInsn) (m' : Machine) : Prop :=
  (∃ word, m.mem.get32 m.core.pc = .ok word ∧ decode word = .ok insn) ∧
    ∃ r, fetchDecodeStep m = .ok r m'

theorem fetchDecodeStep_of_fault {m : Machine} {fault : Fault}
    (h : m.mem.get32 m.core.pc = .error fault) : fetchDecodeStep m = .error fault m := by
  simp only [fetchDecodeStep, Proc.ofExcept, bind, EStateM.bind, get, getThe, MonadStateOf.get,
    EStateM.get, h]

/-- An iteration whose fetch succeeds: the word is decoded, refused when it is invalid,
and executed. -/
theorem fetchDecodeStep_of_word {m : Machine} {word : BitVec 32}
    (h : m.mem.get32 m.core.pc = .ok word) :
    fetchDecodeStep m =
      match decode word with
      | .error fault => .error fault m
      | .ok insn =>
        if insn = .invalid then
          .error (.runtimeError ("Invalid instruction at " ++ fmtHex 16 m.core.pc.toNat ++ ": "
            ++ fmtHex 8 word.toNat)) m
        else step insn m := by
  simp only [fetchDecodeStep, Proc.ofExcept, bind, EStateM.bind, get, getThe, MonadStateOf.get,
    EStateM.get, h]
  cases decode word with
  | error fault => rfl
  | ok insn =>
    dsimp only
    split <;> rfl

theorem FetchStep.step {m m' : Machine} {insn : DecodedInsn} (h : FetchStep m insn m') :
    ∃ r, ZincSim.step insn m = .ok r m' := by
  obtain ⟨⟨word, hword, hinsn⟩, r, hstep⟩ := h
  refine ⟨r, ?_⟩
  rw [fetchDecodeStep_of_word hword, hinsn] at hstep
  dsimp only at hstep
  split at hstep
  · cases hstep
  · exact hstep

/-! ## §2. What is asked of pc -/

/-- The fetch at pc can fail no `assert`. -/
structure Fetchable (m : Machine) : Prop where
  aligned : 4 ∣ m.core.pc.toNat
  no_assertion : ∀ fault, m.mem.get32 m.core.pc = .error fault → fault.isAssertion = false

theorem fetchable_iff (m : Machine) : Fetchable m ↔ 4 ∣ m.core.pc.toNat :=
  ⟨fun h => h.aligned, fun h => ⟨h, fun _ => get32_aligned h⟩⟩

/-- The architectural target of a jump or of a taken branch; JALR clears bit 0. -/
def jumpTarget (core : Core) : DecodedInsn → Option (BitVec 64)
  | .jal insn => some (core.pc + insn.imm)
  | .jalr insn => some ((core.getGpr insn.rs1 + insn.imm) &&& ~~~1#64)
  | .branch insn =>
      if shouldBranch core insn = .ok true then some (core.pc + insn.imm) else none
  | _ => none

/-- A jump goes to its target when that is a multiple of 4, and raises
instruction-address-misaligned otherwise. -/
def JumpRule (m : Machine) (insn : DecodedInsn) (m' : Machine) : Prop :=
  ∀ target, jumpTarget m.core insn = some target →
    (4 ∣ target.toNat → m'.core.pc = target) ∧
    (¬ 4 ∣ target.toNat →
      m.core.takeException { mcause := 0, mtval := target } = .ok m'.core)

/-- The address that a jump, a taken branch or MRET puts into pc as it is: a
multiple of 4. -/
def TargetAligned (core : Core) (insn : DecodedInsn) : Prop :=
  ∀ target, jumpTo core insn = some target → 4 ∣ target.toNat

/-! ## §3. One step -/

/-- An instruction that raises an exception is no jump. -/
theorem jumpTo_of_exception {core : Core} {mem : Memory} {insn : DecodedInsn}
    {exception : Exception} (h : execute core mem insn = .ok (.exception exception)) :
    jumpTo core insn = none := by
  cases insn with
  -- neither jump tests its target, so neither raises an exception
  | jalr insn => cases h
  | jal insn =>
    have hexec : executeJal core insn = .ok (.exception exception) := h
    rw [executeJal] at hexec
    split at hexec <;> cases hexec
  | branch insn =>
    have hexec : executeBranch core insn = .ok (.exception exception) := h
    rw [executeBranch] at hexec
    cases hbranch : shouldBranch core insn <;> rw [hbranch] at hexec <;> cases hexec
  | system insn =>
    refine if_neg fun hmret => ?_
    obtain ⟨type, csr, rs1, uimm, rd⟩ := insn
    cases hmret
    cases h
  | _ => rfl

/-- A normal result goes on at `jumpTo`. -/
theorem nextPc_eq_jumpTo {core : Core} {mem : Memory} {insn : DecodedInsn}
    {result : NormalStep} (h : execute core mem insn = .ok (.normal result)) :
    result.nextPc = jumpTo core insn := by
  rcases execute_normal_cases h with ⟨si, rfl, hcsr, -, rfl⟩ | ⟨si, rfl, hmret, rfl⟩ |
    ⟨-, hplain⟩
  · refine (if_neg fun hmret => ?_).symm
    rw [isCsrInsn, hmret] at hcsr
    cases hcsr
  · exact (if_pos hmret).symm
  · exact hplain.pc

/-- The pc that a returning step leaves. -/
theorem step_pc {insn : DecodedInsn} {m m' : Machine} {r : Option Commit}
    (h : step insn m = .ok r m') :
    (jumpTo m.core insn = none ∧ m'.core.pc = m.core.csrs 0x305 &&& ~~~0b11#64) ∨
      m'.core.pc = (jumpTo m.core insn).getD (m.core.pc + 4) := by
  rcases step_ok_cases h with ⟨exception, hx, -, rfl⟩ | ⟨result, raw, logged, hx, -, hregs, -, -⟩
  · exact .inl ⟨jumpTo_of_exception hx, rfl⟩
  · rw [← nextPc_eq_jumpTo hx]
    exact .inr (writeRegs_pc_priv hregs).1

/-- The next word of an aligned pc is aligned. -/
theorem aligned_add_four {pc : BitVec 64} (h : 4 ∣ pc.toNat) : 4 ∣ (pc + 4).toNat := by
  have hadd : (pc + 4).toNat = (pc.toNat + 4) % 2 ^ 64 := BitVec.toNat_add ..
  omega

/-- **One step keeps pc a multiple of 4 exactly when its target is one.** -/
theorem step_aligned_iff {insn : DecodedInsn} {m m' : Machine} {r : Option Commit}
    (hpc : 4 ∣ m.core.pc.toNat) (h : step insn m = .ok r m') :
    4 ∣ m'.core.pc.toNat ↔ TargetAligned m.core insn := by
  -- the trap handler is 4-aligned by the mask of `take_exception`
  rcases step_pc h with ⟨hnone, hpc'⟩ | hpc'
  · rw [hpc']
    refine iff_of_true ((dvd_four_iff _).mp (clearLow_and _)) fun target htarget => ?_
    rw [hnone] at htarget
    cases htarget
  · rw [hpc', TargetAligned]
    cases hjump : jumpTo m.core insn with
    | none => exact iff_of_true (aligned_add_four hpc) fun _ htarget => by cases htarget
    | some target =>
      refine ⟨fun haligned _ htarget => ?_, fun haligned => haligned target rfl⟩
      cases htarget
      exact haligned

/-- Clearing bit 0 changes no multiple of 4. -/
theorem clearBit0_of_aligned {value : BitVec 64} (h : 4 ∣ value.toNat) :
    value &&& ~~~1#64 = value := by
  have hlow := (dvd_four_iff value).mpr h
  rw [BitField.and_eq_self_iff, BitVec.not_not]
  exact and_eq_zero_of_part hlow (by decide)

/-- A jump to a multiple of 4 obeys the rule. -/
theorem jumpRule_of_aligned {insn : DecodedInsn} {m m' : Machine} {r : Option Commit}
    (haligned : TargetAligned m.core insn) (h : step insn m = .ok r m') :
    JumpRule m insn m' := by
  intro target htarget
  -- the architectural target and the one of the source differ in bit 0 of JALR only
  have hjump : jumpTo m.core insn = some target := by
    cases insn with
    | jal insn | branch insn => exact htarget
    | jalr insn =>
      cases htarget
      exact congrArg some (clearBit0_of_aligned (haligned _ rfl)).symm
    | _ => cases htarget
  have hpc : m'.core.pc = target := by
    rcases step_pc h with ⟨hnone, -⟩ | hpc
    · rw [hjump] at hnone
      cases hnone
    · rw [hpc, hjump]
      rfl
  exact ⟨fun _ => hpc, fun hne => absurd (haligned target hjump) hne⟩

/-! ## §4. Every run -/

/-- **pc stays fetchable and every jump obeys the rule exactly along the runs all
of whose targets are multiples of 4.**  (MRET's target is one as soon as mepc was
zeroed or written: `Architectural.mepc`.) -/
theorem run_pcRule_iff {m₀ m : Machine} {trace : List (Machine × DecodedInsn)}
    {unassigned : BitVec 12 → BitVec 64} {initPc : BitVec 64}
    (boots : m₀.core = Core.init unassigned initPc) (hinit : 4 ∣ initPc.toNat)
    (run : Run FetchStep m₀ trace m) :
    ((∀ p ∈ trace, Fetchable p.1 ∧ ∀ m', FetchStep p.1 p.2 m' → JumpRule p.1 p.2 m') ∧
      Fetchable m) ↔ ∀ p ∈ trace, TargetAligned p.1.core p.2 := by
  have hstart : Fetchable m₀ := (fetchable_iff m₀).mpr (by rw [boots]; exact hinit)
  -- alignment alone is an invariant of the step under the condition, and equivalent to it
  have hiff := run.invariant_iff (C := fun m insn => TargetAligned m.core insn)
    (fun s insn t hs h => by
      obtain ⟨r, hstep⟩ := h.step
      rw [fetchable_iff]
      exact step_aligned_iff hs.aligned hstep) hstart
  constructor
  · exact fun h => hiff.mp ⟨fun p hp => (h.1 p hp).1, h.2⟩
  · intro htrace
    obtain ⟨hvisited, hend⟩ := hiff.mpr htrace
    refine ⟨fun p hp => ⟨hvisited p hp, fun m' h => ?_⟩, hend⟩
    obtain ⟨r, hstep⟩ := h.step
    exact jumpRule_of_aligned (htrace p hp) hstep

/-- One round of the loop `jal x0, 0`. -/
theorem run_pcRule_iff_jal :
    ∃ m, Run FetchStep (Machine.boot [0x0000006f])
      [(Machine.boot [0x0000006f], .jal ⟨0, 0⟩)] m ∧ Fetchable m := by
  have hstep : ∃ m, FetchStep (Machine.boot [0x0000006f]) (.jal ⟨0, 0⟩) m :=
    ⟨_, ⟨0x0000006f, rfl, rfl⟩, _, rfl⟩
  obtain ⟨m, hstep⟩ := hstep
  have run : Run FetchStep (Machine.boot [0x0000006f])
      [(Machine.boot [0x0000006f], .jal ⟨0, 0⟩)] m := .cons hstep (.nil m)
  refine ⟨m, run, ((run_pcRule_iff rfl (by decide) run).mpr fun p hp => ?_).2⟩
  rw [List.mem_singleton.mp hp]
  intro target htarget
  cases htarget
  decide

/-- `jalr x0, 2(x0)` leaves pc = 2, where the next fetch fails its assertion. -/
theorem jalr_misaligned_pc :
    ¬ ∀ m₀ m trace unassigned initPc, m₀.core = Core.init unassigned initPc →
      4 ∣ initPc.toNat → Run FetchStep m₀ trace m → Fetchable m := by
  intro h
  have hstep : ∃ m, FetchStep (Machine.boot [0x00200067]) (.jalr ⟨2, 0, 0⟩) m ∧
      m.core.pc = 2 := ⟨_, ⟨⟨0x00200067, rfl, rfl⟩, _, rfl⟩, rfl⟩
  obtain ⟨m, hstep, hpc⟩ := hstep
  have hfetch := h (Machine.boot [0x00200067]) m _ _ _ rfl (by decide) (.cons hstep (.nil m))
  have haligned := hfetch.aligned
  rw [hpc] at haligned
  revert haligned
  decide

end ZincSim
