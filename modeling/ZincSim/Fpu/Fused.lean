/-
  ZincSim.Fpu.Fused — the fused path agrees with the separate ones.

  Where an exact result is rounded both paths round the same number once.  The rest are
  zeros and the tables of special operands, which agree entry by entry.
-/
import ZincSim.Fpu.Calls

namespace ZincSim

open Rounding

/-! ## §1. The constants -/

/-- 1.0. -/
def fp32One : BitVec 32 := 0x3f800000

theorem value_fp32One : Binary32.value fp32One = some 1 := by
  have hexp : Binary32.exponent fp32One = 127 := by decide
  have hfrac : Binary32.fraction fp32One = 0 := by decide
  have hsign : Binary32.sign fp32One = false := by decide
  rw [Binary32.value, hexp, if_neg (by decide), hsign, if_neg Bool.false_ne_true,
    Binary32.magnitude, hexp, if_neg (by decide), hfrac, show (127 : BitVec 8).toNat = 127 from rfl]
  norm_num

/-- The zero of a sign. -/
theorem value_signBits (sign : Bool) : Binary32.value (signBits sign) = some 0 := by
  rw [Binary32.value_eq_zero_iff, signBits_eq_pack, Binary32.exponent_pack,
    Binary32.fraction_pack]
  exact ⟨rfl, rfl⟩

theorem sign_signBits (sign : Bool) : Binary32.sign (signBits sign) = sign := by
  rw [signBits_eq_pack, Binary32.sign_pack]

/-! ## §2. Multiplication -/

/-- The two roundings of one number. -/
theorem RoundsTo.eq {result result' : Except Fault FpResult} {mode : Mode} {x y : ℝ}
    (h : RoundsTo result mode x) (h' : RoundsTo result' mode y) (hxy : x = y) :
    result = result' := by
  rw [h, h', hxy]

/-- **Adding a zero of its sign to a product changes nothing.** -/
theorem fma_zero_eq_multiply (a b : BitVec 32) (mode : Mode) :
    Fpu.fma .mAdd a b (signBits (Binary32.sign a ^^ Binary32.sign b)) (roundingMode mode) =
      multiply a b (roundingMode mode) := by
  by_cases hnonzero : IsNonzero a ∧ IsNonzero b
  · obtain ⟨⟨x, hx, hx0⟩, y, hy, hy0⟩ := hnonzero
    have hvalue : ((fmaValue .mAdd (x * y) 0 : ℚ) : ℝ) = x * y := by
      rw [fmaValue, add_zero, Rat.cast_mul]
    have hne : (x : ℝ) * y ≠ 0 := by
      exact_mod_cast mul_ne_zero hx0 hy0
    exact (fma_rounds .mAdd hx hy (value_signBits _) mode (hvalue ▸ hne)).eq
      (multiply_rounds hx hy mode hne) hvalue
  · obtain ⟨lhs, hl⟩ := Operand.of_raw a
    obtain ⟨rhs, hr⟩ := Operand.of_raw b
    obtain ⟨addend, ha⟩ := Operand.of_raw (signBits (Binary32.sign a ^^ Binary32.sign b))
    have hazero := ha.zero_iff.mpr (value_signBits _)
    have hasign : addend.sign = (lhs.sign ^^ rhs.sign) := by
      rw [ha.sign, sign_signBits, hl.sign, hr.sign]
    rw [hl.nonzero_iff, hr.nonzero_iff] at hnonzero
    unfold multiply Fpu.fma
    simp only [hl.unpack, hr.unpack, ha.unpack, bind, Except.bind, pure, Except.pure, hazero,
      hasign, fmaNegations, propagateNan]
    -- one operand is special; the tables of the two paths by its class
    cases hcl : lhs.fpClass <;> cases hcr : rhs.fpClass <;>
      simp [hcl, hcr, FpClass.isNan, FpClass.isSignalingNan] at hnonzero ⊢

/-! ## §3. Addition -/

/-- **A product by 1.0 is no product**: the fused sum is the sum. -/
theorem fma_one_eq_addOrSub {type : FmaFpType} {subtract : Bool}
    (hneg : fmaNegations type = (false, subtract)) (a c : BitVec 32) (mode : Mode) :
    Fpu.fma type a fp32One c (roundingMode mode) = addOrSub a c subtract (roundingMode mode) := by
  obtain ⟨lhs, hl⟩ := Operand.of_raw a
  obtain ⟨addend, ha⟩ := Operand.of_raw c
  obtain ⟨one, ho⟩ := Operand.of_raw fp32One
  by_cases hfinite : (∃ x, Binary32.value a = some x) ∧ (∃ z, Binary32.value c = some z) ∧
      ¬ (Binary32.value a = some 0 ∧ Binary32.value c = some 0)
  · obtain ⟨⟨x, hx⟩, ⟨z, hz⟩, hnonzero⟩ := hfinite
    have hvalue : ((fmaValue type (x * 1) z : ℚ) : ℝ) = x + signed subtract z := by
      rw [fmaValue_eq_signed, hneg, mul_one]
      rfl
    by_cases hzero : (x : ℝ) + signed subtract z = 0
    · -- the operands cancel, so neither is zero
      have hx0 : x ≠ 0 := by
        rintro rfl
        rw [Rat.cast_zero, zero_add, ← signed_zero subtract, signed_inj, Rat.cast_eq_zero] at hzero
        exact hnonzero ⟨hx, hzero ▸ hz⟩
      have hz0 : z ≠ 0 := by
        rintro rfl
        rw [Rat.cast_zero, signed_zero, add_zero, Rat.cast_eq_zero] at hzero
        exact hx0 hzero
      have hlfin := hl.finite x hx
      have hafin := ha.finite z hz
      have hfma : fmaValue type (x * 1) z = 0 := by
        rw [hzero] at hvalue
        exact_mod_cast hvalue
      rw [hlfin.value hx0, hafin.value hz0, signed_signed] at hzero
      rw [fma_cancel hlfin (ho.finite 1 value_fp32One) hafin hx0 one_ne_zero hfma,
        addOrSub_finite hl.unpack ha.unpack (hlfin.unpacked hx0) (hafin.unpacked hz0),
        addFinite_cancel (hlfin.unpacked hx0) (hafin.unpacked hz0) hzero]
    · exact (fma_rounds type hx value_fp32One hz mode (hvalue ▸ hzero)).eq
        (addOrSub_rounds hx hz subtract mode hzero) hvalue
  · have hone : one.fpClass = .normal ∧ one.sign = false := by
      have hunpack := ho.unpack
      rw [show UnpackedFp32.ofRaw fp32One = .ok ⟨false, 0, 0x800000, .normal⟩ by decide] at hunpack
      cases hunpack
      exact ⟨rfl, rfl⟩
    rw [hl.finite_iff, ha.finite_iff, ← hl.zero_iff, ← ha.zero_iff] at hfinite
    unfold addOrSub Fpu.fma
    simp only [hl.unpack, ho.unpack, ha.unpack, bind, Except.bind, pure, Except.pure, hneg,
      propagateNan, hone]
    -- one operand is special or both are zeros; the tables of the two paths by class
    cases hcl : lhs.fpClass <;> cases hca : addend.fpClass <;>
      simp [hcl, hca, FpClass.isNan, FpClass.isSignalingNan] at hfinite ⊢

/-! ## §4. The two paths -/

/-- **The fused path agrees with the separate paths**, in the value and in the flags. -/
theorem fma_agrees (a b c : BitVec 32) (mode : Mode) :
    (∃ result,
      Fpu.fma .mAdd a b (signBits (Binary32.sign a ^^ Binary32.sign b)) (roundingMode mode) =
        .ok result ∧
      Fpu.binary .mul a b (roundingMode mode) = .ok result) ∧
    (∃ result, Fpu.fma .mAdd a fp32One c (roundingMode mode) = .ok result ∧
      Fpu.binary .add a c (roundingMode mode) = .ok result) ∧
    (∃ result, Fpu.fma .mSub a fp32One c (roundingMode mode) = .ok result ∧
      Fpu.binary .sub a c (roundingMode mode) = .ok result) := by
  have hoffered (op : OpFpType) (hop : op ∈ FpuCall.binaryOps) (rhs : BitVec 32) :
      ∃ result, Fpu.binary op a rhs (roundingMode mode) = .ok result :=
    @FpuCall.run_total (.binary op a rhs) hop mode
  obtain ⟨product, hmul⟩ := hoffered .mul (by decide) b
  obtain ⟨sum, hadd⟩ := hoffered .add (by decide) c
  obtain ⟨difference, hsub⟩ := hoffered .sub (by decide) c
  exact ⟨⟨product, (fma_zero_eq_multiply a b mode).trans hmul, hmul⟩,
    ⟨sum, (fma_one_eq_addOrSub rfl a c mode).trans hadd, hadd⟩,
    ⟨difference, (fma_one_eq_addOrSub rfl a c mode).trans hsub, hsub⟩⟩

end ZincSim
