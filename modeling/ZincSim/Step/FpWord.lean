/-
  ZincSim.Step.FpWord — every F-register result of the FPU is a 32-bit word.

  `FpResult::value` has 64 bits because the conversions to integers return one;
  `Executor::step` narrows it when it writes an F register.  The narrowing loses
  nothing, since every operation that targets an F register ends in a special
  result or in `round_and_pack`, and both build their value from a 32-bit word.
-/
import ZincSim.Fpu.Calls

namespace ZincSim

open Except (returns_ok returns_pure returns_bind_any returns_ite)

/-- The value fits an F register. -/
def FpResult.IsWord (result : FpResult) : Prop := result.value.toNat < 2 ^ 32

theorem FpResult.isWord_ofWord (value flags : BitVec 32) :
    (FpResult.ofWord value flags).IsWord := by
  have h := value.isLt
  simp only [FpResult.IsWord, FpResult.ofWord, BitVec.toNat_setWidth]
  omega

theorem returns_ofWord (value flags : BitVec 32) :
    (Except.ok (FpResult.ofWord value flags) : Except Fault FpResult).Returns FpResult.IsWord :=
  returns_ok (FpResult.isWord_ofWord value flags)

theorem packRounded_isWord (sign : Bool) (exponent : Int) (roundedSignificand : BitVec 64)
    (inexact : Bool) : (packRounded sign exponent roundedSignificand inexact).IsWord := by
  unfold packRounded
  dsimp only
  split <;> exact FpResult.isWord_ofWord _ _

theorem roundAndPack_isWord (sign : Bool) (exponent : Int) (significand : BitVec 64)
    (rm : RoundingMode) :
    (roundAndPack sign exponent significand rm).Returns FpResult.IsWord := by
  unfold roundAndPack
  refine returns_ite (fun _ => returns_ofWord _ _) fun _ => ?_
  refine returns_bind_any fun down => returns_bind_any fun up => returns_bind_any fun roundUp => ?_
  refine returns_ite (fun _ => returns_ofWord _ _) fun _ => returns_pure ?_
  exact packRounded_isWord _ _ _ _

/-- However an operation ends, its result is a word. -/
theorem Prepared.finish_isWord (p : Prepared) (rm : RoundingMode) :
    (p.finish rm).Returns FpResult.IsWord := by
  cases p with
  | special value flags => exact returns_ofWord value flags
  | zeroOfMode => exact returns_ofWord _ 0
  | round sign exponent significand => exact roundAndPack_isWord sign exponent significand rm

/-- **Every call but a conversion to an integer** returns a word. -/
theorem FpuCall.run_isWord {call : FpuCall} (h : ¬ call.ToInteger) (rm : RoundingMode) :
    (call.run rm).Returns FpResult.IsWord := by
  by_cases hoffered : call.Offered
  · obtain ⟨p, -, -, hrun⟩ := FpuCall.prepares hoffered h
    rw [hrun]
    exact p.finish_isWord rm
  · exact (FpuCall.run_not_offered hoffered rm).mono fun _ => False.elim

end ZincSim
