/-
  ZincSim.Step.FpCall — the calls of `class Fpu` that instructions make.

  Every OP-FP instruction but three, and every FMA instruction, resolves its rounding
  mode, makes one call (`fpuCall`), accrues the flags of the result and writes its value
  to rd (`execute_of_fpuCall`).
-/
import ZincSim.Step.FpWord
import ZincSim.Machine.Execute

namespace ZincSim

/-! ## §1. The call and its destination -/

/-- The call that the instruction makes. -/
def fpuCall (core : Core) : DecodedInsn → Option FpuCall
  | .opFp insn =>
      match insn.type with
      | .add | .sub | .mul | .div | .min | .max | .sgnj | .sgnjn | .sgnjx | .eq | .lt | .le =>
          some (.binary insn.type (fprWord core insn.rs1) (fprWord core insn.rs2))
      | .sqrt => some (.unary insn.type (fprWord core insn.rs1))
      | .cvtWFromS | .cvtWuFromS | .cvtLFromS | .cvtLuFromS =>
          some (.convert insn.type (core.getFpr insn.rs1))
      | .cvtSToW | .cvtSToWu | .cvtSToL | .cvtSToLu =>
          some (.convert insn.type (core.getGpr insn.rs1))
      | .fclass | .moveToX | .moveFromX => none
  | .fmaFp insn =>
      some (.fma insn.type (fprWord core insn.rs1) (fprWord core insn.rs2)
        (fprWord core insn.rs3))
  | _ => none

/-- The `rm` field. -/
def rmField : DecodedInsn → RoundingMode
  | .opFp insn => insn.rm
  | .fmaFp insn => insn.rm
  | _ => .rne

/-- The operations whose result goes to an X register. -/
def xResults : List OpFpType := [.cvtWFromS, .cvtWuFromS, .cvtLFromS, .cvtLuFromS, .eq, .lt, .le]

/-- The write of rd. -/
def fpDest (insn : DecodedInsn) (value : BitVec 64) : RegWrite :=
  match insn with
  | .opFp insn =>
      if insn.type ∈ xResults then xWrite insn.rd value else fWrite insn.rd value
  | .fmaFp insn => fWrite insn.rd value
  | _ => xWrite 0 value

/-- What `execute` makes of the result of the call. -/
def fpStep (core : Core) (insn : DecodedInsn) (result : FpResult) : NormalStep :=
  { regWrites := fpFlagWrites core result ++ [fpDest insn result.value] }

/-! ## §2. `execute` -/

/-- **An instruction that calls the FPU**: the mode, the call, the writes. -/
theorem execute_of_fpuCall {core : Core} {mem : Memory} {insn : DecodedInsn} {call : FpuCall}
    (h : fpuCall core insn = some call) :
    execute core mem insn = (do
      let rm ← resolveRounding core (rmField insn)
      let result ← call.run rm
      return .normal (fpStep core insn result)) := by
  cases insn with
  | opFp insn =>
    show executeOpFp core insn = _
    unfold executeOpFp
    cases hrm : resolveRounding core insn.rm with
    | error fault => simp only [rmField, hrm, bind, Except.bind]
    | ok rm =>
      simp only [rmField, hrm, bind, Except.bind]
      have hmap (x : Except Fault FpResult) (f : FpResult → StepResult) :
          f <$> x = x >>= fun result => .ok (f result) := by cases x <;> rfl
      obtain ⟨type, mode, rs1, rs2, rd⟩ := insn
      -- one case for each operation
      cases type <;> cases h <;> exact hmap _ _
  | fmaFp insn =>
    cases h
    rfl
  | _ => cases h

theorem fpuCall_offered {core : Core} {insn : DecodedInsn} {call : FpuCall}
    (h : fpuCall core insn = some call) : call.Offered := by
  cases insn with
  | opFp insn =>
    have hbinary (op : OpFpType) (hop : op ∈ FpuCall.binaryOps) (lhs rhs : BitVec 32) :
        (FpuCall.binary op lhs rhs).Offered := hop
    have hconvert (op : OpFpType) (hop : op ∈ integerTargets ∨ op ∈ integerSources)
        (operand : BitVec 64) : (FpuCall.convert op operand).Offered := hop
    cases htype : insn.type <;> simp only [fpuCall, htype] at h <;> cases h <;>
      first
      | exact hbinary _ (by decide) _ _
      | exact hconvert _ (by decide) _
      | rfl
  | fmaFp insn =>
    cases h
    trivial
  | _ => cases h

/-- A result for an F register is not that of a conversion to an integer. -/
theorem fpDest_cases {core : Core} {insn : DecodedInsn} {call : FpuCall}
    (h : fpuCall core insn = some call) :
    (∃ rd, fpDest insn = xWrite rd) ∨ (∃ rd, fpDest insn = fWrite rd ∧ ¬ call.ToInteger) := by
  cases insn with
  | opFp insn =>
    by_cases hx : insn.type ∈ xResults
    · exact .inl ⟨insn.rd, funext fun _ => if_pos hx⟩
    · refine .inr ⟨insn.rd, funext fun _ => if_neg hx, ?_⟩
      have hsource (op : OpFpType) (hop : op ∉ integerTargets) (operand : BitVec 64) :
          ¬ (FpuCall.convert op operand).ToInteger := hop
      cases htype : insn.type <;> rw [htype] at hx <;> simp only [fpuCall, htype] at h <;>
        cases h <;>
        first
        | exact hsource _ (by decide) _
        | exact absurd (by decide) hx
        | exact id
  | fmaFp insn =>
    cases h
    exact .inr ⟨insn.rd, rfl, id⟩
  | _ => cases h

end ZincSim
