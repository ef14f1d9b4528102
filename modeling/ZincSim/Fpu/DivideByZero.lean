/-
  ZincSim.Fpu.DivideByZero — the divide-by-zero flag.

  DZ comes from one branch of `divide`.  The branch is taken for every dividend that is
  neither a NaN nor zero, so an infinite dividend raises DZ as well: the test for it
  comes too late.
-/
import ZincSim.Fpu.Calls

namespace ZincSim

open Rounding

/-! ## §1. The two divisions -/

/-- The call divides a finite number other than zero by a zero. -/
def FpuCall.IsDivisionByZero : FpuCall → Prop
  | .binary .div lhs rhs => IsNonzero lhs ∧ Binary32.value rhs = some 0
  | _ => False

/-- The call divides an infinity by a zero. -/
def FpuCall.IsInfinityByZero : FpuCall → Prop
  | .binary .div lhs rhs => Binary32.IsInfinite lhs ∧ Binary32.value rhs = some 0
  | _ => False

theorem FpuCall.raisesDz_iff (call : FpuCall) :
    call.RaisesDz ↔ call.IsDivisionByZero ∨ call.IsInfinityByZero := by
  cases call with
  | binary op lhs rhs =>
    cases op with
    | div => exact or_and_right
    | _ => exact (or_self_iff).symm
  | _ => exact (or_self_iff).symm

/-- A division by zero in the sense of the source. -/
theorem divide_zero_divisor {lhsRaw rhsRaw : BitVec 32} (h : DividesByZero lhsRaw rhsRaw)
    (rm : RoundingMode) :
    divide lhsRaw rhsRaw rm = .ok (.ofWord
      (signBits (Binary32.sign lhsRaw ^^ Binary32.sign rhsRaw) ||| fp32Infinity) fpFlagDz) := by
  obtain ⟨lhs, hl⟩ := Operand.of_raw lhsRaw
  obtain ⟨rhs, hr⟩ := Operand.of_raw rhsRaw
  obtain ⟨hlhs, hrhs⟩ := h
  have hrzero := hr.zero_iff.mpr hrhs
  have hlclass : lhs.fpClass.isNan = false ∧ lhs.fpClass ≠ .zero := by
    rcases hlhs with hnonzero | hinf
    · obtain ⟨hnan, -, hzero⟩ := (hl.unpacked hnonzero).class_facts
      exact ⟨hnan, hzero⟩
    · rw [hl.infinity_iff.mpr hinf]
      exact ⟨rfl, FpClass.noConfusion⟩
  rw [← hl.sign, ← hr.sign]
  unfold divide
  simp only [hl.unpack, hr.unpack, bind, Except.bind, pure, Except.pure, hrzero, hlclass.1,
    hlclass.2, decide_false, decide_true, Bool.false_or, Bool.and_true, if_true]
  simp [FpClass.isNan]

/-! ## §2. The flag -/

/-- The result raises DZ. -/
def FpResult.RaisesDz (result : FpResult) : Prop := result.flags &&& fpFlagDz ≠ 0

theorem FpResult.raisesDz_ofWord (value : BitVec 32) : (ofWord value fpFlagDz).RaisesDz := by
  show fpFlagDz &&& fpFlagDz ≠ 0
  decide

/-- Without a division by zero the flag stays down. -/
theorem FpuCall.not_raisesDz {call : FpuCall} (h : ¬ call.RaisesDz) {rm : RoundingMode}
    {result : FpResult} (hrun : call.run rm = .ok result) : ¬ result.RaisesDz := by
  have hclear (flags : BitVec 32) (hmem : flags ∈ roundingFlags ∨ flags = fpFlagNv) :
      flags &&& fpFlagDz = 0 := by
    rw [roundingFlags] at hmem
    simp only [List.mem_cons, List.not_mem_nil, or_false] at hmem
    rcases hmem with (rfl | rfl | rfl | rfl) | rfl <;> decide
  rcases call.run_flags rm result hrun with hflags | hflags | ⟨-, hdz⟩
  · exact not_not.mpr (hclear _ (.inl hflags))
  · exact not_not.mpr (hclear _ (.inr hflags))
  · exact absurd hdz h

/-- The call handles DZ as the format asks: the flag is raised by the division of a finite
number other than zero by a zero and by nothing else, and an infinity over a zero is a
signed infinity without a flag. -/
def DzCorrect (call : FpuCall) (mode : Mode) : Prop :=
  ∃ result, call.run (roundingMode mode) = .ok result ∧
    (result.RaisesDz ↔ call.IsDivisionByZero) ∧
    ∀ lhs rhs, call = .binary .div lhs rhs → call.IsInfinityByZero →
      result = .ofWord (signBits (Binary32.sign lhs ^^ Binary32.sign rhs) ||| fp32Infinity) 0

/-- **The divide-by-zero flag** is right except for an infinity over a zero. -/
theorem dzCorrect_iff {call : FpuCall} (hoffered : call.Offered) (mode : Mode) :
    DzCorrect call mode ↔ ¬ call.IsInfinityByZero := by
  obtain ⟨result, hrun⟩ := FpuCall.run_total hoffered mode
  by_cases hdz : call.RaisesDz
  · cases call with
    | binary op lhs rhs =>
      cases op with
      | div =>
        -- the branch for a zero divisor raises the flag, whatever the dividend
        have heval := divide_zero_divisor hdz (roundingMode mode)
        have hinf (hzero : IsNonzero lhs) : ¬ Binary32.IsInfinite lhs := by
          obtain ⟨x, hx, -⟩ := hzero
          exact fun h => (value_eq_signed hx).1 h.1
        constructor
        · rintro ⟨result', hrun', hflag, -⟩ hinfinity
          cases heval.symm.trans hrun'
          exact hinf (hflag.mp (FpResult.raisesDz_ofWord _)).1 hinfinity.1
        · intro hfinite
          have hzero := ((FpuCall.raisesDz_iff _).mp hdz).resolve_right hfinite
          refine ⟨_, heval, iff_of_true (FpResult.raisesDz_ofWord _) hzero, ?_⟩
          exact fun _ _ _ h => absurd h hfinite
      | _ => exact absurd hdz id
    | _ => exact absurd hdz id
  · have hnone := (not_congr call.raisesDz_iff).mp hdz
    rw [not_or] at hnone
    refine iff_of_true ⟨result, hrun, ?_, fun _ _ _ h => absurd h hnone.2⟩ hnone.2
    exact iff_of_false (FpuCall.not_raisesDz hdz hrun) hnone.1

/-- 1 / 0 raises the flag. -/
theorem dzCorrect_one_zero : DzCorrect (.binary .div 0x3f800000 0x00000000) .tiesToEven :=
  (dzCorrect_iff (by decide) .tiesToEven).mpr fun h => absurd h.1 (by decide)

/-- ∞ / 0 raises it too. -/
theorem divide_infinity_zero :
    Fpu.binary .div 0x7f800000 0x00000000 .rne = .ok (.ofWord 0x7f800000 fpFlagDz) ∧
      ¬ ∀ (call : FpuCall) (mode : Mode), call.Offered → DzCorrect call mode := by
  have heval : Fpu.binary .div 0x7f800000 0x00000000 .rne =
      .ok (.ofWord 0x7f800000 fpFlagDz) := by decide
  refine ⟨heval, fun hall => ?_⟩
  obtain ⟨result, hrun, -, hquiet⟩ :=
    hall (.binary .div 0x7f800000 0x00000000) .tiesToEven (by decide)
  cases heval.symm.trans hrun
  have hzero := (Binary32.value_eq_zero_iff 0x00000000).mpr ⟨by decide, by decide⟩
  have hwrong := hquiet 0x7f800000 0x00000000 rfl ⟨by decide, hzero⟩
  exact absurd (congrArg FpResult.flags hwrong) (by decide)

end ZincSim
