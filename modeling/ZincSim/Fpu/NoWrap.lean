/-
  ZincSim.Fpu.NoWrap — no call of the FPU loops forever or wraps.

  The conversions are shown clean, and with them every call: with all checks on it returns
  what it returns without them (`fpu_terminates_without_wrap`).
-/
import ZincSim.Fpu.CheckedArith

namespace ZincSim

open Checked
open CheckedFpu (int32)

/-! ## §1. Conversions -/

theorem leadingExponent_clean (fuel : ℕ) (value : BitVec 64) {e : ℤ} (hlow : -2 ^ 31 ≤ e)
    (hhigh : e + fuel < 2 ^ 31) :
    Clean (CheckedFpu.leadingExponent fuel value e) (leadingExponent fuel value e) := by
  induction fuel generalizing value e with
  | zero => exact clean_error _
  | succ fuel ih =>
    push_cast at hhigh
    unfold CheckedFpu.leadingExponent leadingExponent
    refine clean_ite (fun _ => ?_) fun _ => clean_ok _
    exact clean_check (int32_of_range (by omega) (by omega)) (ih _ (by omega) (by omega))

/-- The two's complement of a number other than zero does not carry. -/
theorem add_one_not {x : BitVec 64} (hx : x ≠ 0) :
    (add (~~~x) 1 : CheckedFpu.Run _) = .ok (~~~x + 1) := by
  have hpos : 0 < x.toNat := BitVec.toNat_pos_of_ne_zero hx
  have hone : (1 : BitVec 64).toNat = 1 := rfl
  apply add_of_lt
  rw [BitVec.toNat_not, hone]
  omega

theorem integerOperand_clean {op : OpFpType} (hop : op ∈ integerSources) (operand : BitVec 64) :
    Clean (CheckedFpu.integerOperand op operand) (integerOperand op operand) := by
  -- a number with its sign bit set is not zero
  have hsign {x : BitVec 64} {n : ℕ} (h : x &&& (1#64 <<< n) ≠ 0) : x ≠ 0 := by
    rintro rfl
    exact h BitVec.zero_and
  simp only [integerSources, List.mem_cons, List.not_mem_nil, or_false] at hop
  rcases hop with rfl | rfl | rfl | rfl
  · unfold CheckedFpu.integerOperand integerOperand
    dsimp only
    split
    case isTrue h => exact clean_check (add_one_not (hsign (of_decide_eq_true h))) (clean_ok _)
    case isFalse => exact clean_ok _
  · exact clean_ok _
  · unfold CheckedFpu.integerOperand integerOperand
    dsimp only
    split
    case isTrue h => exact clean_check (add_one_not (hsign (of_decide_eq_true h))) (clean_ok _)
    case isFalse => exact clean_ok _
  · exact clean_ok _

theorem alignInteger_clean {magnitude : BitVec 64} {k : ℕ} (hk : k < 64)
    (hhigh : magnitude.toNat < 2 ^ (k + 1)) :
    Clean (CheckedFpu.alignInteger magnitude k) (.ok (alignInteger magnitude k)) := by
  unfold CheckedFpu.alignInteger alignInteger
  refine clean_ite_ok (fun _ => ?_) fun _ => ?_
  · exact clean_check (int32_of_range (by omega) (by omega)) (shiftRightJam_checked _ _)
  · refine clean_check (int32_of_range (by omega) (by omega)) (shl_of_lt ?_)
    rw [show (26 - (k : ℤ)).toNat = 26 - k by omega]
    exact (toNat_shift_integer (by omega) hhigh).2.trans (by decide)

/-- **`integer_to_float` is clean** for every operand. -/
theorem integerToFloat_clean {op : OpFpType} (hop : op ∈ integerSources) (operand : BitVec 64)
    (rm : RoundingMode) :
    Clean (CheckedFpu.integerToFloat op operand rm) (integerToFloat op operand rm) := by
  unfold CheckedFpu.integerToFloat integerToFloat
  refine clean_bind (integerOperand_clean hop operand) fun r _ => ?_
  obtain ⟨sign, magnitude⟩ := r
  refine clean_ite (fun _ => clean_ok _) fun hne => ?_
  have hpos : 0 < magnitude.toNat := BitVec.toNat_pos_of_ne_zero hne
  obtain ⟨k, hk, hrun, hlow, hhigh⟩ := leadingExponent_spec 64 magnitude 0 hpos magnitude.isLt
  rw [zero_add] at hrun
  obtain ⟨-, hrange⟩ := alignInteger_range hlow hhigh
  refine clean_bind (leadingExponent_clean 64 magnitude (by decide) (by decide)) fun e he => ?_
  cases hrun.symm.trans he
  refine clean_check (alignInteger_clean hk hhigh) ?_
  exact roundAndPack_clean sign ⟨hrange.trans (by decide), by omega, by omega⟩ rm

theorem fractionOf_clean (significand : BitVec 64) (shift : ℕ) :
    Clean (CheckedFpu.fractionOf significand shift)
      (.ok (if shift ≥ 64 then 0 else significand >>> shift,
        if shift ≥ 64 then significand else significand &&& ((1#64 <<< shift) - 1),
        if shift ≥ 64 then 0 else 1#64 <<< (shift - 1))) := by
  unfold CheckedFpu.fractionOf
  by_cases hge : shift ≥ 64
  · simp only [if_pos hge]
    exact clean_ok _
  · simp only [if_neg hge]
    exact clean_check (shl_one (by omega)) (clean_check (shl_one (by omega)) (clean_ok _))

/-- The guard of `++magnitude`. -/
theorem add_one_of_ne {x : BitVec 64} (hx : x ≠ BitVec.allOnes 64) :
    (add x 1 : CheckedFpu.Run _) = .ok (x + 1) := by
  have hlt := x.isLt
  have hone : (1 : BitVec 64).toNat = 1 := rfl
  have hne : x.toNat ≠ 2 ^ 64 - 1 := fun h => hx (BitVec.eq_of_toNat_eq h)
  apply add_of_lt
  omega

theorem integerMagnitude_clean {u : UnpackedFp32} (hlow : -149 ≤ u.exponent)
    (hhigh : u.exponent ≤ 127) (rm : RoundingMode) :
    Clean (CheckedFpu.integerMagnitude u rm) (integerMagnitude u rm) := by
  unfold CheckedFpu.integerMagnitude integerMagnitude
  refine clean_ite (fun _ => ?_) fun _ => ?_
  · refine clean_check (int32_of_range (by omega) (by omega)) ?_
    refine clean_ite (fun _ => clean_ok _) fun hfits => ?_
    refine clean_check (shl_of_lt ?_) (clean_ok _)
    rw [not_or] at hfits
    -- the guard of the source: the significand is at most the shifted ones
    have hle : (u.significand.setWidth 64 : BitVec 64).toNat ≤
        (2 ^ 64 - 1) / 2 ^ (u.exponent - 23).toNat := by
      have hguard := BitVec.not_lt.mp hfits.2
      rw [BitVec.le_def, BitVec.toNat_ushiftRight, BitVec.toNat_allOnes,
        Nat.shiftRight_eq_div_pow] at hguard
      exact hguard
    exact ((Nat.le_div_iff_mul_le (Nat.two_pow_pos _)).mp hle).trans_lt (by decide)
  · refine clean_check (int32_of_range (by omega) (by omega)) ?_
    refine clean_check (fractionOf_clean _ _) (clean_bind (clean_lift _) fun up _ => ?_)
    refine clean_ite (fun _ => clean_ite (fun _ => clean_ok _) fun hne => ?_) fun _ => clean_ok _
    exact clean_check (add_one_of_ne hne) (clean_ok _)

/-- **`float_to_integer` is clean** for every operand. -/
theorem floatToInteger_clean (op : OpFpType) (raw : BitVec 32) (rm : RoundingMode) :
    Clean (CheckedFpu.floatToInteger op raw rm) (floatToInteger op raw rm) := by
  obtain ⟨u, hu⟩ := Operand.of_raw raw
  unfold CheckedFpu.floatToInteger floatToInteger
  rw [hu.unpack]
  refine clean_bind (clean_lift _) fun target _ => ?_
  obtain ⟨signedResult, width⟩ := target
  refine clean_check ((ofRaw_clean raw).eq_ok hu.unpack) ?_
  refine clean_ite (fun _ => clean_ok _) fun hspecial => ?_
  refine clean_ite (fun _ => clean_ok _) fun hzero => ?_
  simp only [Bool.or_eq_true, decide_eq_true_eq, not_or] at hspecial
  have hunpacked := hu.unpacked (hu.nonzero_of_class hspecial.1 hspecial.2 hzero)
  refine clean_bind (integerMagnitude_clean hunpacked.exponent_low hunpacked.exponent_high rm)
    fun r _ => ?_
  obtain ⟨magnitude, inexact, overflow⟩ := r
  exact clean_ite (fun _ => clean_ok _) fun _ => clean_ok _

/-! ## §2. Calls -/

theorem compareFp_clean (op : OpFpType) (lhsRaw rhsRaw : BitVec 32) :
    Clean (CheckedFpu.compareFp op lhsRaw rhsRaw) (compareFp op lhsRaw rhsRaw) := by
  obtain ⟨lhs, hl⟩ := Operand.of_raw lhsRaw
  obtain ⟨rhs, hr⟩ := Operand.of_raw rhsRaw
  unfold CheckedFpu.compareFp
  refine clean_check ((ofRaw_clean lhsRaw).eq_ok hl.unpack) ?_
  exact clean_check ((ofRaw_clean rhsRaw).eq_ok hr.unpack) (clean_lift _)

theorem minOrMax_clean (lhsRaw rhsRaw : BitVec 32) (maximum : Bool) :
    Clean (CheckedFpu.minOrMax lhsRaw rhsRaw maximum) (minOrMax lhsRaw rhsRaw maximum) := by
  obtain ⟨lhs, hl⟩ := Operand.of_raw lhsRaw
  obtain ⟨rhs, hr⟩ := Operand.of_raw rhsRaw
  unfold CheckedFpu.minOrMax
  refine clean_check ((ofRaw_clean lhsRaw).eq_ok hl.unpack) ?_
  exact clean_check ((ofRaw_clean rhsRaw).eq_ok hr.unpack) (clean_lift _)

namespace FpuCall

/-- The call with every arithmetic step checked. -/
def checkedRun (call : FpuCall) (rm : RoundingMode) : CheckedFpu.Run FpResult :=
  match call with
  | binary op lhs rhs => CheckedFpu.binary op lhs rhs rm
  | unary op operand => CheckedFpu.unary op operand rm
  | convert op operand => CheckedFpu.convert op operand rm
  | fma type lhs rhs addend => CheckedFpu.fma type lhs rhs addend rm

/-- **Every offered call is clean.** -/
theorem checkedRun_clean {call : FpuCall} (hoffered : call.Offered) (rm : RoundingMode) :
    Clean (call.checkedRun rm) (call.run rm) := by
  cases call with
  | binary op lhs rhs =>
    simp only [Offered, binaryOps, List.mem_cons, List.not_mem_nil, or_false] at hoffered
    rcases hoffered with rfl | rfl | rfl | rfl | rfl | rfl | rfl | rfl | rfl | rfl | rfl | rfl
    · exact addOrSub_clean lhs rhs false rm
    · exact addOrSub_clean lhs rhs true rm
    · exact multiply_clean lhs rhs rm
    · exact divide_clean lhs rhs rm
    · exact minOrMax_clean lhs rhs false
    · exact minOrMax_clean lhs rhs true
    · exact clean_lift (Fpu.binary .sgnj lhs rhs rm)
    · exact clean_lift (Fpu.binary .sgnjn lhs rhs rm)
    · exact clean_lift (Fpu.binary .sgnjx lhs rhs rm)
    · exact compareFp_clean .eq lhs rhs
    · exact compareFp_clean .lt lhs rhs
    · exact compareFp_clean .le lhs rhs
  | unary op operand =>
    obtain rfl : op = .sqrt := hoffered
    exact squareRoot_clean operand rm
  | convert op operand =>
    obtain htarget | hsource := hoffered
    · have hclean := floatToInteger_clean op (operand.setWidth 32) rm
      simp only [integerTargets, List.mem_cons, List.not_mem_nil, or_false] at htarget
      rcases htarget with rfl | rfl | rfl | rfl <;> exact hclean
    · have hclean := integerToFloat_clean hsource operand rm
      simp only [integerSources, List.mem_cons, List.not_mem_nil, or_false] at hsource
      rcases hsource with rfl | rfl | rfl | rfl <;> exact hclean
  | fma type lhs rhs addend => exact fma_clean type lhs rhs addend rm

end FpuCall

/-- **The FPU always terminates and never wraps**: with every loop, word and exponent checked,
each call under each of the five rounding modes returns the result it returns unchecked.  A
significand beyond those that `round_and_pack` is called with may keep its loop running. -/
theorem fpu_terminates_without_wrap (call : FpuCall) (hoffered : call.Offered)
    (mode : Rounding.Mode) :
    (∃ result, call.checkedRun (roundingMode mode) = .ok result ∧
      call.run (roundingMode mode) = .ok result) ∧
    ∀ (sign : Bool) (e : ℤ) (s : BitVec 64) (rm : RoundingMode), s ≠ 0 → 2 ^ 28 ∣ s.toNat →
      roundAndPack sign e s rm = .error .divergence := by
  obtain ⟨result, hrun⟩ := call.run_total hoffered mode
  refine ⟨⟨result, (call.checkedRun_clean hoffered _).eq_ok hrun, hrun⟩, ?_⟩
  intro sign e s rm hne hs
  exact roundAndPack_diverges sign e hne hs rm

/-- The smallest subnormal numbers, whose loops run longest, and the first significand that
keeps the loop of `round_and_pack` running. -/
theorem fpu_terminates_without_wrap_subnormal :
    (∃ result, (FpuCall.fma .mAdd 1 1 0x80000001).checkedRun .rne = .ok result ∧
      (FpuCall.fma .mAdd 1 1 0x80000001).run .rne = .ok result) ∧
    roundAndPack false 0 0x10000000 .rne = .error .divergence := by
  obtain ⟨hrun, hdiverges⟩ :=
    fpu_terminates_without_wrap (.fma .mAdd 1 1 0x80000001) trivial .tiesToEven
  exact ⟨hrun, hdiverges false 0 0x10000000 .rne (by decide) (by decide)⟩

end ZincSim
