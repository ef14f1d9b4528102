/-
  ZincSim.Fpu.Prepare — what an operation does before it looks at the rounding mode.

  Every operation of `fpu.cpp` that rounds ends in one of three ways: it returns a
  special result, it returns a zero whose sign depends on the mode, or it hands a
  significand to `round_and_pack`.  Which of the three is decided by the operands
  alone (`Prepares`); the rules follow the branches of the source.
-/
import ZincSim.Fpu.Operand
import ZincSim.Lib.Returns

namespace ZincSim

open Rounding
open Except (returns_ok returns_pure returns_error returns_bind_any returns_ite)

/-! ## §1. The three endings -/

/-- How an operation ends. -/
inductive Prepared where
  | special (value flags : BitVec 32)
  | zeroOfMode
  | round (sign : Bool) (exponent : ℤ) (significand : BitVec 64)

namespace Prepared

/-- The result under a rounding mode. -/
def finish (rm : RoundingMode) : Prepared → Except Fault FpResult
  | special value flags => .ok (.ofWord value flags)
  | zeroOfMode => .ok (.ofWord (signBits (decide (rm = .rdn))) 0)
  | round sign exponent significand => roundAndPack sign exponent significand rm

/-- The ending is a rounding. -/
def Rounds : Prepared → Prop
  | round .. => True
  | _ => False

/-- A special result raises nothing or NV, or DZ where that is allowed, and
`round_and_pack` gets a significand of at most 28 bits that is not zero. -/
def Within (dz : Prop) : Prepared → Prop
  | special _ flags => flags = 0 ∨ flags = fpFlagNv ∨ (flags = fpFlagDz ∧ dz)
  | zeroOfMode => True
  | round _ _ significand => 0 < significand.toNat ∧ significand.toNat < 2 ^ 28

end Prepared

/-- The operation ends in one way under all rounding modes, and `rounds` says when
that is a rounding. -/
def Prepares (dz rounds : Prop) (run : RoundingMode → Except Fault FpResult) : Prop :=
  ∃ p : Prepared, p.Within dz ∧ (p.Rounds ↔ rounds) ∧ ∀ rm, run rm = p.finish rm

section Rules

variable {dz rounds : Prop} {run run' : RoundingMode → Except Fault FpResult}

/-- A quiet special result. -/
theorem Prepares.quiet (value : BitVec 32) (h : ¬ rounds) :
    Prepares dz rounds fun _ => .ok (.ofWord value 0) :=
  ⟨.special value 0, .inl rfl, iff_of_false id h, fun _ => rfl⟩

/-- A special result that may be invalid. -/
theorem Prepares.invalid (value : BitVec 32) (c : Bool) (h : ¬ rounds) :
    Prepares dz rounds fun _ => .ok (.ofWord value (if c then fpFlagNv else 0)) := by
  refine ⟨.special value (if c then fpFlagNv else 0), ?_, iff_of_false id h, fun _ => rfl⟩
  cases c
  · exact .inl rfl
  · exact .inr (.inl rfl)

theorem Prepares.nan (h : ¬ rounds) :
    Prepares dz rounds fun _ => .ok (.ofWord fp32CanonicalNaN fpFlagNv) :=
  Prepares.invalid _ true h

/-- A division by zero. -/
theorem Prepares.divideByZero (value : BitVec 32) (hdz : dz) (h : ¬ rounds) :
    Prepares dz rounds fun _ => .ok (.ofWord value fpFlagDz) :=
  ⟨.special value fpFlagDz, .inr (.inr ⟨rfl, hdz⟩), iff_of_false id h, fun _ => rfl⟩

theorem Prepares.zeroOfMode (h : ¬ rounds) :
    Prepares dz rounds fun rm => .ok (.ofWord (signBits (decide (rm = .rdn))) 0) :=
  ⟨.zeroOfMode, trivial, iff_of_false id h, fun _ => rfl⟩

theorem Prepares.round (sign : Bool) (exponent : ℤ) (significand : BitVec 64)
    (hpos : 0 < significand.toNat) (hlt : significand.toNat < 2 ^ 28) (h : rounds) :
    Prepares dz rounds fun rm => roundAndPack sign exponent significand rm :=
  ⟨.round sign exponent significand, ⟨hpos, hlt⟩, iff_of_true trivial h, fun _ => rfl⟩

/-- A test of the operands. -/
theorem Prepares.ite {c : Prop} [Decidable c] (hthen : c → Prepares dz rounds run)
    (helse : ¬c → Prepares dz rounds run') :
    Prepares dz rounds fun rm => if c then run rm else run' rm := by
  by_cases h : c
  · simpa only [if_pos h] using hthen h
  · simpa only [if_neg h] using helse h

theorem Prepares.congr (h : Prepares dz rounds run) (heq : ∀ rm, run' rm = run rm) :
    Prepares dz rounds run' := by
  obtain ⟨p, hwithin, hrounds, hrun⟩ := h
  exact ⟨p, hwithin, hrounds, fun rm => (heq rm).trans (hrun rm)⟩

end Rules

/-! ## §2. What the ending says about the result -/

/-- `round_and_pack` of a nonzero significand needs one of the five modes. -/
theorem roundAndPack_reserved (code : BitVec 32) (sign : Bool) (exponent : ℤ)
    {significand : BitVec 64} (hpos : 0 < significand.toNat) :
    (roundAndPack sign exponent significand (.other code)).Returns fun _ => False := by
  have hne : significand ≠ 0 := by
    rintro rfl
    exact absurd hpos (by decide)
  unfold roundAndPack
  refine returns_ite (fun h => absurd h hne) fun _ => ?_
  exact returns_bind_any fun down => returns_bind_any fun up => returns_error _

/-- The flags of a rounding: none, inexact, and with it underflow or overflow. -/
def roundingFlags : List (BitVec 32) :=
  [0, fpFlagNx, fpFlagNx ||| fpFlagUf, fpFlagOf ||| fpFlagNx]

theorem packRounded_flags (sign : Bool) (exponent : ℤ) (roundedSignificand : BitVec 64)
    (inexact : Bool) :
    (packRounded sign exponent roundedSignificand inexact).flags ∈ roundingFlags := by
  unfold packRounded
  dsimp only
  generalize (decide (exponent = -126) && decide (roundedSignificand < fp32HiddenBit)) = subnormal
  cases subnormal <;> cases inexact <;> split <;> simp [FpResult.ofWord, roundingFlags]

theorem roundAndPack_flags (sign : Bool) (exponent : ℤ) (significand : BitVec 64)
    (rm : RoundingMode) :
    (roundAndPack sign exponent significand rm).Returns fun r => r.flags ∈ roundingFlags := by
  unfold roundAndPack
  refine returns_ite (fun _ => returns_ok ?_) fun _ => ?_
  · simp [FpResult.ofWord, roundingFlags]
  refine returns_bind_any fun down => returns_bind_any fun up => returns_bind_any fun roundUp => ?_
  refine returns_ite (fun _ => returns_ok ?_) fun _ => returns_pure ?_
  · simp [overflowResult, FpResult.ofWord, roundingFlags]
  · exact packRounded_flags _ _ _ _

namespace Prepared

variable {dz : Prop} {p : Prepared}

/-- Under each of the five modes there is a result. -/
theorem finish_total (h : p.Within dz) (mode : Mode) :
    ∃ result, p.finish (roundingMode mode) = .ok result := by
  cases p with
  | special value flags => exact ⟨_, rfl⟩
  | zeroOfMode => exact ⟨_, rfl⟩
  | round sign exponent significand => exact ⟨_, roundAndPack_exact sign mode exponent h.1 h.2⟩

/-- Under a reserved mode there is a result unless it has to be rounded. -/
theorem finish_reserved (h : p.Within dz) (code : BitVec 32) :
    (∃ result, p.finish (.other code) = .ok result) ↔ ¬ p.Rounds := by
  cases p with
  | special value flags => exact iff_of_true ⟨_, rfl⟩ id
  | zeroOfMode => exact iff_of_true ⟨_, rfl⟩ id
  | round sign exponent significand =>
    refine iff_of_false ?_ (not_not.mpr trivial)
    rintro ⟨result, hresult⟩
    exact roundAndPack_reserved code sign exponent h.1 result hresult

/-- The flags of a result. -/
theorem finish_flags (h : p.Within dz) (rm : RoundingMode) :
    (p.finish rm).Returns fun r =>
      r.flags ∈ roundingFlags ∨ r.flags = fpFlagNv ∨ (r.flags = fpFlagDz ∧ dz) := by
  cases p with
  | special value flags =>
    refine returns_ok ?_
    rcases h with hquiet | hflags
    · exact .inl (by simp [FpResult.ofWord, hquiet, roundingFlags])
    · exact .inr hflags
  | zeroOfMode => exact returns_ok (.inl (by simp [FpResult.ofWord, roundingFlags]))
  | round sign exponent significand =>
    exact (roundAndPack_flags sign exponent significand rm).mono fun _ => .inl

end Prepared

end ZincSim
