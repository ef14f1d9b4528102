/-
  ZincSim.Fpu.FromInteger — conversions from an integer are correctly rounded.

  The magnitude of the integer is moved to bit 26 of a significand: up without a loss, or
  down with a sticky bit (`roundAndPack_integer`).  An integer of 64 bits is in the normal
  range of the format, so rounding it raises NX or nothing.
-/
import ZincSim.Fpu.Integer
import ZincSim.Fpu.Deliver

namespace ZincSim

open Rounding
open Sticky (agree_jam)
open Binary32 (StandsFor roundReal)

section Magnitude

variable {magnitude : BitVec 64} {k : ℕ} (hlow : 2 ^ k ≤ magnitude.toNat)
  (hhigh : magnitude.toNat < 2 ^ (k + 1))

include hlow hhigh

/-- **The aligned magnitude is rounded as the magnitude itself.** -/
theorem roundAndPack_integer (sign : Bool) (mode : Mode) :
    roundAndPack sign k (alignInteger magnitude k) (roundingMode mode) =
      .ok (packExact sign mode magnitude.toNat) := by
  obtain ⟨hlow', hhigh'⟩ := alignInteger_range hlow hhigh
  unfold alignInteger at hlow' hhigh' ⊢
  by_cases hk : 26 < k
  · rw [if_pos (by omega), show ((k : ℤ) - 26).toNat = k - 26 by omega] at hlow' hhigh' ⊢
    -- the bits below bit 26 are jammed into it
    have hagree := agree_jam (K := ℝ) magnitude.toNat (k - 26)
    rw [← toNat_shiftRightJam] at hagree
    rw [roundAndPack_of_agree sign mode k (by omega) (by omega) hagree,
      show (k : ℤ) - 26 = (k - 26 : ℕ) by omega, zpow_natCast,
      div_mul_cancel₀ _ (by positivity)]
  · rw [if_neg (by omega), show (26 - (k : ℤ)).toNat = 26 - k by omega] at hlow' hhigh' ⊢
    obtain ⟨hshift, -⟩ := toNat_shift_integer (not_lt.mp hk) hhigh
    rw [roundAndPack_exact sign mode k (by omega) (by omega), hshift,
      show (k : ℤ) - 26 = -((26 - k : ℕ) : ℤ) by omega, zpow_neg, zpow_natCast]
    push_cast
    rw [mul_inv_cancel_right₀ (by positivity)]

end Magnitude

/-- A nonzero integer of 64 bits is in range. -/
theorem integer_in_range {n : ℕ} (hpos : 0 < n) (hlt : n < 2 ^ 64) : InRange n := by
  have hone : (1 : ℝ) ≤ n := by exact_mod_cast hpos
  have hmax : (n : ℝ) < 2 ^ (64 : ℤ) := by exact_mod_cast hlt
  constructor
  · refine le_trans ?_ hone
    norm_num
  · refine hmax.trans ?_
    norm_num

/-- **A nonzero operand is rounded as the integer that it denotes.** -/
theorem integerToFloat_rounds {op : OpFpType} (hop : op ∈ integerSources) (operand : BitVec 64)
    (mode : Mode) (hne : denotedInteger op operand ≠ 0) :
    InRange (denotedInteger op operand).natAbs ∧
      integerToFloat op operand (roundingMode mode) =
        .ok (packExact (decide (denotedInteger op operand < 0)) mode
          (denotedInteger op operand).natAbs) := by
  obtain ⟨magnitude, hoperand, hvalue⟩ := integerOperand_value hop operand
  have hpos : 0 < magnitude.toNat := by
    rw [hvalue]
    exact Int.natAbs_pos.mpr hne
  have h0 : magnitude ≠ 0 := by
    rintro rfl
    exact absurd hpos (by decide)
  obtain ⟨k, -, hrun, hlow, hhigh⟩ := leadingExponent_spec 64 magnitude 0 hpos magnitude.isLt
  rw [zero_add] at hrun
  rw [← hvalue]
  refine ⟨integer_in_range hpos magnitude.isLt, ?_⟩
  unfold integerToFloat
  simp only [hoperand, bind, Except.bind, h0, hrun, if_false]
  exact roundAndPack_integer hlow hhigh _ mode

/-- A zero operand is the positive zero. -/
theorem integerToFloat_zero {op : OpFpType} (hop : op ∈ integerSources) (operand : BitVec 64)
    (rm : RoundingMode) (hzero : denotedInteger op operand = 0) :
    integerToFloat op operand rm = .ok (.ofWord 0 0) := by
  obtain ⟨magnitude, hoperand, hvalue⟩ := integerOperand_value hop operand
  have h0 : magnitude = 0 := by
    apply BitVec.eq_of_toNat_eq
    rw [hvalue, hzero]
    rfl
  unfold integerToFloat
  rw [hoperand]
  exact if_pos h0

theorem convert_source {op : OpFpType} (hop : op ∈ integerSources) (operand : BitVec 64)
    (rm : RoundingMode) : Fpu.convert op operand rm = integerToFloat op operand rm := by
  simp only [integerSources, List.mem_cons, List.not_mem_nil, or_false] at hop
  rcases hop with rfl | rfl | rfl | rfl <;> rfl

/-- The magnitude of an integer, with its sign. -/
theorem signed_natAbs (n : ℤ) : signed (decide (n < 0)) n.natAbs = (n : ℝ) := by
  by_cases hneg : n < 0
  · rw [decide_eq_true hneg, signed, if_pos rfl, Nat.cast_natAbs, abs_of_neg hneg, Int.cast_neg,
      neg_neg]
  · rw [decide_eq_false hneg, signed, if_neg Bool.false_ne_true, Nat.cast_natAbs,
      abs_of_nonneg (not_lt.mp hneg)]

/-- **Conversion from an integer is correctly rounded.**  The flags are NX or none, as the
format has no word for the integer or has one. -/
theorem integerToFloat_correctly_rounded {op : OpFpType} (hop : op ∈ integerSources)
    (operand : BitVec 64) (mode : Mode) :
    ∃ word flags, Fpu.convert op operand (roundingMode mode) = .ok (.ofWord word flags) ∧
      Binary32.sign word = decide (denotedInteger op operand < 0) ∧
      StandsFor word (roundReal mode (denotedInteger op operand)) ∧
      ((∃ w, StandsFor w (denotedInteger op operand)) ∧ flags = 0 ∨
        ¬ (∃ w, StandsFor w (denotedInteger op operand)) ∧ flags = fpFlagNx) := by
  rw [convert_source hop]
  by_cases hzero : denotedInteger op operand = 0
  · have hstands : StandsFor 0 0 :=
      ⟨0, (Binary32.value_eq_zero_iff 0).mpr (by decide), Rat.cast_zero⟩
    rw [integerToFloat_zero hop operand _ hzero, hzero, Int.cast_zero, roundReal_zero]
    exact ⟨0, 0, rfl, by decide, hstands, .inl ⟨⟨0, hstands⟩, rfl⟩⟩
  · obtain ⟨hrange, hrun⟩ := integerToFloat_rounds hop operand mode hzero
    obtain ⟨word, flags, hok, hsign, hstands, hflags⟩ := delivered_in_range hrange hrun
    rw [signed_natAbs] at hstands hflags
    exact ⟨word, flags, hok, hsign, hstands, hflags⟩

/-- The most negative word is a power of two. -/
theorem integerToFloat_correctly_rounded_min :
    ∃ word flags, Fpu.convert .cvtSToW 0x80000000 .rne = .ok (.ofWord word flags) ∧
      Binary32.sign word = decide (denotedInteger .cvtSToW 0x80000000 < 0) ∧
      StandsFor word (roundReal .tiesToEven (denotedInteger .cvtSToW 0x80000000)) ∧
      ((∃ w, StandsFor w (denotedInteger .cvtSToW 0x80000000)) ∧ flags = 0 ∨
        ¬ (∃ w, StandsFor w (denotedInteger .cvtSToW 0x80000000)) ∧ flags = fpFlagNx) :=
  integerToFloat_correctly_rounded (by decide) 0x80000000 .tiesToEven

end ZincSim
