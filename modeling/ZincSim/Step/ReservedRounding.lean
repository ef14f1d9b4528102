/-
  ZincSim.Step.ReservedRounding — reserved rounding modes.

  The executor refuses a reserved frm when the mode is dynamic.  A reserved mode in the
  instruction itself goes on to the FPU, which refuses it in `should_round_up` only: a
  result that needs no rounding is committed.
-/
import ZincSim.Step.FinalWrites
import ZincSim.Step.Run

namespace ZincSim

open Rounding

/-! ## §1. Instructions and modes -/

/-- The OP-FP operations that round. -/
def roundingOps : List OpFpType :=
  [.add, .sub, .mul, .div, .sqrt, .cvtWFromS, .cvtWuFromS, .cvtLFromS, .cvtLuFromS, .cvtSToW,
    .cvtSToWu, .cvtSToL, .cvtSToLu]

/-- The instruction rounds. -/
def RoundsResult : DecodedInsn → Prop
  | .opFp insn => insn.type ∈ roundingOps
  | .fmaFp _ => True
  | _ => False

/-- `rm` is 5 or 6, or it is dynamic and frm is 5, 6 or 7. -/
def ReservedMode (core : Core) (rm : RoundingMode) : Prop :=
  rm = .other 5 ∨ rm = .other 6 ∨ (rm = .dynamic ∧ core.getCsr .frm ∈ [5, 6, 7])

/-- The step does not commit. -/
def NeverCommits (insn : DecodedInsn) (m : Machine) : Prop :=
  ∀ commit m', step insn m ≠ .ok (some commit) m'

theorem fpuCall_of_rounds (core : Core) {insn : DecodedInsn} (h : RoundsResult insn) :
    ∃ call, fpuCall core insn = some call := by
  cases insn with
  | opFp insn =>
    have hop : insn.type ∈ roundingOps := h
    cases htype : insn.type <;> rw [htype] at hop <;>
      first
      | exact ⟨_, by simp only [fpuCall, htype]; rfl⟩
      | exact absurd hop (by decide)
  | fmaFp insn => exact ⟨_, rfl⟩
  | _ => exact absurd h id

/-! ## §2. Rejection -/

/-- A call under a reserved mode returns unless its result has to be rounded. -/
theorem FpuCall.run_reserved {call : FpuCall} (hoffered : call.Offered) (code : BitVec 32) :
    (∃ result, call.run (.other code) = .ok result) ↔ ¬ call.Rounds := by
  by_cases hinteger : call.ToInteger
  · -- `float_to_integer` has no case for the mode and no default
    refine iff_of_true (toInteger_total hinteger RoundingMode.noConfusion) ?_
    cases call with
    | convert op operand =>
      have hop : op ∈ integerTargets := hinteger
      cases op <;> first | exact id | exact absurd hop (by decide)
    | _ => exact absurd hinteger id
  · obtain ⟨p, hwithin, hrounds, hrun⟩ := prepares hoffered hinteger
    rw [hrun, p.finish_reserved hwithin, hrounds]

/-- A reserved frm is refused by the executor. -/
theorem resolveRounding_reserved {core : Core} (h : core.getCsr .frm ∈ [5, 6, 7]) :
    ∃ fault, resolveRounding core .dynamic = .error fault := by
  have hgt : core.getCsr .frm > 0b100 := by
    simp only [List.mem_cons, List.not_mem_nil, or_false] at h
    rcases h with h | h | h <;> rw [h] <;> decide
  unfold resolveRounding
  rw [if_pos rfl]
  dsimp only
  rw [if_pos hgt]
  exact ⟨_, rfl⟩

/-- An instruction whose call returned commits when its word can be read. -/
theorem commits_iff {insn : DecodedInsn} {m : Machine} {call : FpuCall} {result : FpResult}
    (hcall : fpuCall m.core insn = some call)
    (hx : execute m.core m.mem insn = .ok (.normal (fpStep m.core insn result))) :
    NeverCommits insn m ↔ ¬ Fetches m := by
  have hplain : (fpStep m.core insn result).Plain none :=
    execute_fpuCall_plain hcall m.mem _ hx
  constructor
  · rintro hnever ⟨word, hword⟩
    obtain ⟨logged, core, -, hstep⟩ := @step_of_plain _ m _ _ _ m.mem hx hplain hword rfl
    exact hnever _ _ hstep
  · intro hfetch commit m' hstep
    rcases step_ok_cases hstep with ⟨exception, hx', -⟩ | ⟨result', word, logged, -, hword, -⟩
    · rw [hx] at hx'
      cases hx'
    · exact hfetch ⟨word, hword⟩

/-- **Reserved rounding modes**: the step does not commit exactly when the mode comes from
frm, the word at pc cannot be read, or the result has to be rounded. -/
theorem neverCommits_iff {insn : DecodedInsn} {m : Machine} (hinsn : RoundsResult insn)
    (hmode : ReservedMode m.core (rmField insn)) :
    NeverCommits insn m ↔ rmField insn = .dynamic ∨ ¬ Fetches m ∨
      ∃ call, fpuCall m.core insn = some call ∧ call.Rounds := by
  obtain ⟨call, hcall⟩ := fpuCall_of_rounds m.core hinsn
  have hx := @execute_of_fpuCall m.core m.mem insn call hcall
  -- a fault of `execute` ends the step
  have hfault {fault : Fault} (h : execute m.core m.mem insn = .error fault) :
      NeverCommits insn m := by
    intro commit m' hstep
    rw [step_of_fault h] at hstep
    cases hstep
  by_cases hdynamic : rmField insn = .dynamic
  · have hfrm : m.core.getCsr .frm ∈ [5, 6, 7] := by
      rcases hmode with h | h | h
      · rw [hdynamic] at h
        cases h
      · rw [hdynamic] at h
        cases h
      · exact h.2
    obtain ⟨fault, hresolve⟩ := resolveRounding_reserved hfrm
    rw [hdynamic, hresolve] at hx
    exact iff_of_true (hfault hx) (.inl hdynamic)
  · obtain ⟨code, hcode⟩ : ∃ code, rmField insn = .other code := by
      rcases hmode with h | h | h
      · exact ⟨5, h⟩
      · exact ⟨6, h⟩
      · exact absurd h.1 hdynamic
    have hresolve : resolveRounding m.core (rmField insn) = .ok (.other code) := by
      rw [hcode]
      exact if_neg RoundingMode.noConfusion
    have hreserved := FpuCall.run_reserved (fpuCall_offered hcall) code
    rw [hresolve] at hx
    have hcallRounds : (∃ call, fpuCall m.core insn = some call ∧ call.Rounds) ↔ call.Rounds := by
      rw [hcall]
      simp
    rw [or_iff_right hdynamic, hcallRounds]
    by_cases hrounds : call.Rounds
    · refine iff_of_true ?_ (.inr hrounds)
      cases hrun : call.run (.other code) with
      | ok result => exact absurd hrounds (hreserved.mp ⟨result, hrun⟩)
      | error fault =>
        simp only [bind, Except.bind, hrun] at hx
        exact hfault hx
    · obtain ⟨result, hrun⟩ := hreserved.mpr hrounds
      simp only [bind, Except.bind, hrun] at hx
      rw [or_iff_left hrounds]
      exact commits_iff hcall hx

/-- `fcvt.s.w f1, x1` with `rm` 5. -/
def convertReserved : DecodedInsn :=
  .opFp { type := .cvtSToW, rm := .other 5, rs1 := 1, rs2 := 0, rd := 1 }

/-- It does not convert 1. -/
theorem neverCommits_convertReserved :
    NeverCommits convertReserved
      { core := (Core.init (fun _ => 0) 0).setGpr 1 1, mem := Memory.init 0 4 } := by
  have hcall : IntegerNonzero .cvtSToW 1 := by
    show ((1 : BitVec 64).setWidth 32 : BitVec 32) ≠ 0
    decide
  have hinsn : RoundsResult convertReserved := by
    show OpFpType.cvtSToW ∈ roundingOps
    decide
  exact (neverCommits_iff hinsn (.inl rfl)).mpr (.inr (.inr ⟨_, rfl, hcall⟩))

/-- `fadd.s f1, f0, f0` with `rm` 5. -/
def addReserved : DecodedInsn := .opFp { type := .add, rm := .other 5, rs1 := 0, rs2 := 0, rd := 1 }

/-- It commits the sum of two zeros, and throws on the sum of two ones. -/
theorem addReserved_commits :
    decode 0x000050d3 = .ok addReserved ∧
    (∃ commit m', step addReserved (Machine.boot [0x000050d3]) = .ok (some commit) m') ∧
    (∃ fault m', step addReserved
      { Machine.boot [0x000050d3] with
        core := (Core.init (fun _ => 0) 0x80000000).setFpr 0 0x3f800000 } = .error fault m') ∧
    ¬ ∀ (insn : DecodedInsn) (m : Machine), RoundsResult insn →
      ReservedMode m.core (rmField insn) → NeverCommits insn m := by
  have hcommits : ∃ commit m',
      step addReserved (Machine.boot [0x000050d3]) = .ok (some commit) m' :=
    (isCommit_iff _).mp (by decide +kernel)
  refine ⟨rfl, hcommits, ⟨_, _, rfl⟩, fun hall => ?_⟩
  obtain ⟨commit, m', hstep⟩ := hcommits
  have hinsn : RoundsResult addReserved := by
    show OpFpType.add ∈ roundingOps
    decide
  exact hall addReserved _ hinsn (.inl rfl) commit m' hstep

end ZincSim
