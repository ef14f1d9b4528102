/-
  ZincSim.Fpu.Correct — the rounded operations are those of the format.

  Each operation delivers the exact datum of its operands: a special result from the
  tables of the source, a zero with its sign, or a number that is rounded once.
-/
import ZincSim.Fpu.Calls
import ZincSim.Fpu.Deliver

namespace ZincSim

open Rounding
open Binary32 (Datum Delivers StandsFor Overflows roundReal datum)

/-- A number that is rounded once, with the sign that the operation gives it. -/
theorem delivered_signed {result : Except Fault FpResult} {mode : Mode} {s : Bool} {x m : ℝ}
    (hm : 0 < m) (hx : x = signed s m) (h : RoundsTo result mode x) :
    Delivered result mode (.finite s x) := by
  have hs : decide (x < 0) = s := by
    rw [hx, Bool.eq_iff_iff, decide_eq_true_iff, signed_lt_zero_iff s hm]
  have hx0 : x ≠ 0 := by
    rw [hx, ← abs_pos, abs_signed s hm]
    exact hm
  exact hs ▸ delivered_of_rounds hx0 h

@[simp] theorem FpClass.isNan_infinity : FpClass.infinity.isNan = false := rfl
@[simp] theorem FpClass.isNan_zero : FpClass.zero.isNan = false := rfl

/-! ## §1. Multiplication -/

section Multiply

variable {lhsRaw rhsRaw : BitVec 32} {lhs rhs : UnpackedFp32} {x y : ℚ}

/-- The product of two finite operands. -/
theorem multiply_delivered_finite (hl : FiniteOperand lhsRaw x lhs)
    (hr : FiniteOperand rhsRaw y rhs) (hx : Binary32.value lhsRaw = some x)
    (hy : Binary32.value rhsRaw = some y) (mode : Mode) :
    Delivered (multiply lhsRaw rhsRaw (roundingMode mode)) mode
      (.finite (lhs.sign ^^ rhs.sign) (x * y)) := by
  by_cases hxy : x = 0 ∨ y = 0
  · have hproduct : (x : ℝ) * y = 0 := by exact_mod_cast mul_eq_zero.mpr hxy
    have hzeros : (decide (lhs.fpClass = .zero) || decide (rhs.fpClass = .zero)) = true := by
      rw [Bool.or_eq_true, decide_eq_true_iff, decide_eq_true_iff, hl.zero_iff, hr.zero_iff]
      exact hxy
    have hrun : multiply lhsRaw rhsRaw (roundingMode mode) =
        .ok (.ofWord (signBits (lhs.sign ^^ rhs.sign)) 0) := by
      unfold multiply
      simp only [hl.unpack, hr.unpack, bind, Except.bind, pure, Except.pure, hl.isNan, hr.isNan,
        hl.not_infinity, hr.not_infinity, hzeros, decide_false, Bool.and_false, Bool.false_and,
        Bool.or_self, Bool.false_eq_true, if_false, if_true]
    rw [hrun, hproduct]
    exact delivered_zero mode _
  · obtain ⟨hx0, hy0⟩ := not_or.mp hxy
    have hlu := hl.unpacked hx0
    have hru := hr.unpacked hy0
    have hne : (x : ℝ) * y ≠ 0 := by exact_mod_cast mul_ne_zero hx0 hy0
    refine delivered_signed (mul_pos hlu.magnitude_pos hru.magnitude_pos) ?_
      (multiply_rounds hx hy mode hne)
    rw [hl.value hx0, hr.value hy0, signed_mul]

end Multiply

/-- **Multiplication delivers the exact product.** -/
theorem multiply_delivered (lhsRaw rhsRaw : BitVec 32) (mode : Mode) :
    Delivered (multiply lhsRaw rhsRaw (roundingMode mode)) mode
      ((datum lhsRaw).mul (datum rhsRaw)) := by
  obtain ⟨lhs, hl⟩ := Operand.of_raw lhsRaw
  obtain ⟨rhs, hr⟩ := Operand.of_raw rhsRaw
  by_cases hnan : (lhs.fpClass.isNan || rhs.fpClass.isNan) = true
  · have hrun : multiply lhsRaw rhsRaw (roundingMode mode) = .ok (propagateNan lhs rhs) := by
      unfold multiply
      simp only [hl.unpack, hr.unpack, bind, Except.bind, pure, Except.pure, hnan, if_true]
    rw [hl.nan_tests.1, hr.nan_tests.1] at hnan
    rw [hrun, Datum.mul_of_nan hnan]
    exact delivered_propagateNan hl hr mode
  · rw [Bool.not_eq_true, Bool.or_eq_false_iff] at hnan
    obtain ⟨hlnan, hrnan⟩ := hnan
    rcases hl.reads_number hlnan with ⟨hlinf, hld⟩ | ⟨x, hx, hlfin, hld⟩ <;>
      rcases hr.reads_number hrnan with ⟨hrinf, hrd⟩ | ⟨y, hy, hrfin, hrd⟩ <;> rw [hld, hrd]
    · have hrun : multiply lhsRaw rhsRaw (roundingMode mode) =
          .ok (.ofWord (signBits (lhs.sign ^^ rhs.sign) ||| fp32Infinity) 0) := by
        simp [multiply, hl.unpack, hr.unpack, bind, Except.bind, pure, Except.pure, hlinf, hrinf]
      rw [hrun]
      exact delivered_infinite mode _ (.inl rfl)
    · by_cases hy0 : y = 0
      · have hrun : multiply lhsRaw rhsRaw (roundingMode mode) =
            .ok (.ofWord fp32CanonicalNaN fpFlagNv) := by
          simp [multiply, hl.unpack, hr.unpack, bind, Except.bind, pure, Except.pure, hlinf,
            hrfin.zero_iff.mpr hy0]
        rw [hrun, Datum.mul, if_pos (by exact_mod_cast hy0)]
        exact delivered_nan mode true
      · have hrun : multiply lhsRaw rhsRaw (roundingMode mode) =
            .ok (.ofWord (signBits (lhs.sign ^^ rhs.sign) ||| fp32Infinity) 0) := by
          simp [multiply, hl.unpack, hr.unpack, bind, Except.bind, pure, Except.pure, hlinf, hrnan,
            mt hrfin.zero_iff.mp hy0, hrfin.not_infinity]
        rw [hrun, Datum.mul, if_neg (by exact_mod_cast hy0)]
        exact delivered_infinite mode _ (.inl rfl)
    · by_cases hx0 : x = 0
      · have hrun : multiply lhsRaw rhsRaw (roundingMode mode) =
            .ok (.ofWord fp32CanonicalNaN fpFlagNv) := by
          simp [multiply, hl.unpack, hr.unpack, bind, Except.bind, pure, Except.pure, hrinf,
            hlfin.zero_iff.mpr hx0]
        rw [hrun, Datum.mul, if_pos (by exact_mod_cast hx0)]
        exact delivered_nan mode true
      · have hrun : multiply lhsRaw rhsRaw (roundingMode mode) =
            .ok (.ofWord (signBits (lhs.sign ^^ rhs.sign) ||| fp32Infinity) 0) := by
          simp [multiply, hl.unpack, hr.unpack, bind, Except.bind, pure, Except.pure, hrinf, hlnan,
            mt hlfin.zero_iff.mp hx0, hlfin.not_infinity]
        rw [hrun, Datum.mul, if_neg (by exact_mod_cast hx0)]
        exact delivered_infinite mode _ (.inl rfl)
    · exact multiply_delivered_finite hlfin hrfin hx hy mode

/-! ## §2. Addition and subtraction -/

/-- The rule for a zero sum asks for the mode by its name in the source. -/
theorem decide_rdn (mode : Mode) :
    decide (roundingMode mode = .rdn) = decide (mode = .towardNegative) := by
  cases mode <;> rfl

theorem sumSign_of_ne {mode : Mode} {a b : Bool} {z : ℝ} (hz : z ≠ 0) :
    Datum.sumSign mode a b z = decide (z < 0) := by
  unfold Datum.sumSign
  rw [if_neg hz]

section Add

variable {lhsRaw rhsRaw : BitVec 32} {lhs rhs : UnpackedFp32} {x y : ℚ} (subtract : Bool)
  (mode : Mode)

/-- The sum of two finite operands. -/
theorem addOrSub_delivered_finite (hl : FiniteOperand lhsRaw x lhs)
    (hr : FiniteOperand rhsRaw y rhs) (hx : Binary32.value lhsRaw = some x)
    (hy : Binary32.value rhsRaw = some y) :
    Delivered (addOrSub lhsRaw rhsRaw subtract (roundingMode mode)) mode
      (.finite (Datum.sumSign mode lhs.sign (rhs.sign ^^ subtract) (x + signed subtract y))
        (x + signed subtract y)) := by
  by_cases hz : (x : ℝ) + signed subtract y = 0
  · by_cases hx0 : x = 0
    · -- two zeros
      have hy0 : y = 0 := by
        rw [hx0, Rat.cast_zero, zero_add, ← signed_zero subtract, signed_inj] at hz
        exact_mod_cast hz
      have hrun : addOrSub lhsRaw rhsRaw subtract (roundingMode mode) =
          .ok (.ofWord (signBits (if lhs.sign = (rhs.sign ^^ subtract) then lhs.sign
            else decide (roundingMode mode = .rdn))) 0) := by
        simp [addOrSub, hl.unpack, hr.unpack, bind, Except.bind, pure, Except.pure,
          hl.zero_iff.mpr hx0, hr.zero_iff.mpr hy0]
      rw [hrun, hz, Datum.sumSign, if_pos rfl, decide_rdn]
      exact delivered_zero mode _
    · -- cancellation
      have hy0 : y ≠ 0 := by
        rintro rfl
        rw [Rat.cast_zero, signed_zero, add_zero] at hz
        exact hx0 (by exact_mod_cast hz)
      have hlu := hl.unpacked hx0
      have hru := hr.unpacked hy0
      have hcancel : signed lhs.sign lhs.magnitude +
          signed (rhs.sign ^^ subtract) rhs.magnitude = 0 := by
        rw [← hz, hl.value hx0, hr.value hy0, signed_signed]
      have hsign : lhs.sign ≠ (rhs.sign ^^ subtract) := by
        intro hsign
        rw [← hsign, signed_add, ← signed_zero lhs.sign, signed_inj] at hcancel
        exact (add_pos hlu.magnitude_pos hru.magnitude_pos).ne' hcancel
      rw [addOrSub_finite hl.unpack hr.unpack hlu hru, addFinite_cancel hlu hru hcancel, hz,
        Datum.sumSign, if_pos rfl, if_neg hsign, decide_rdn]
      exact delivered_zero mode _
  · rw [sumSign_of_ne hz]
    exact delivered_of_rounds hz (addOrSub_rounds hx hy subtract mode hz)

end Add

/-- **Addition and subtraction deliver the exact sum.** -/
theorem addOrSub_delivered (lhsRaw rhsRaw : BitVec 32) (subtract : Bool) (mode : Mode) :
    Delivered (addOrSub lhsRaw rhsRaw subtract (roundingMode mode)) mode
      ((datum lhsRaw).add mode ((datum rhsRaw).negIf subtract)) := by
  obtain ⟨lhs, hl⟩ := Operand.of_raw lhsRaw
  obtain ⟨rhs, hr⟩ := Operand.of_raw rhsRaw
  by_cases hnan : (lhs.fpClass.isNan || rhs.fpClass.isNan) = true
  · have hrun : addOrSub lhsRaw rhsRaw subtract (roundingMode mode) =
        .ok (propagateNan lhs rhs) := by
      unfold addOrSub
      simp only [hl.unpack, hr.unpack, bind, Except.bind, pure, Except.pure, hnan, if_true]
    rw [hl.nan_tests.1, hr.nan_tests.1, ← Datum.isNaN_negIf subtract (datum rhsRaw)] at hnan
    rw [hrun, Datum.add_of_nan hnan, Datum.signaling_negIf]
    exact delivered_propagateNan hl hr mode
  · rw [Bool.not_eq_true, Bool.or_eq_false_iff] at hnan
    obtain ⟨hlnan, hrnan⟩ := hnan
    rcases hl.reads_number hlnan with ⟨hlinf, hld⟩ | ⟨x, hx, hlfin, hld⟩ <;>
      rcases hr.reads_number hrnan with ⟨hrinf, hrd⟩ | ⟨y, hy, hrfin, hrd⟩ <;> rw [hld, hrd]
    · -- two infinities
      rw [Datum.negIf_infinite, Datum.add]
      by_cases hsign : lhs.sign = (rhs.sign ^^ subtract)
      · have hrun : addOrSub lhsRaw rhsRaw subtract (roundingMode mode) =
            .ok (.ofWord (signBits lhs.sign ||| fp32Infinity) 0) := by
          simp [addOrSub, hl.unpack, hr.unpack, bind, Except.bind, pure, Except.pure, hlinf,
            hrinf, hsign]
        rw [hrun, if_pos hsign]
        exact delivered_infinite mode _ (.inl rfl)
      · have hrun : addOrSub lhsRaw rhsRaw subtract (roundingMode mode) =
            .ok (.ofWord fp32CanonicalNaN fpFlagNv) := by
          simp [addOrSub, hl.unpack, hr.unpack, bind, Except.bind, pure, Except.pure, hlinf,
            hrinf, hsign]
        rw [hrun, if_neg hsign]
        exact delivered_nan mode true
    · have hrun : addOrSub lhsRaw rhsRaw subtract (roundingMode mode) =
          .ok (.ofWord (signBits lhs.sign ||| fp32Infinity) 0) := by
        simp [addOrSub, hl.unpack, hr.unpack, bind, Except.bind, pure, Except.pure, hlinf, hrnan,
          hrfin.not_infinity]
      rw [hrun, Datum.negIf_finite]
      exact delivered_infinite mode _ (.inl rfl)
    · have hrun : addOrSub lhsRaw rhsRaw subtract (roundingMode mode) =
          .ok (.ofWord (signBits (rhs.sign ^^ subtract) ||| fp32Infinity) 0) := by
        simp [addOrSub, hl.unpack, hr.unpack, bind, Except.bind, pure, Except.pure, hrinf, hlnan,
          hlfin.not_infinity]
      rw [hrun, Datum.negIf_infinite]
      exact delivered_infinite mode _ (.inl rfl)
    · rw [Datum.negIf_finite]
      exact addOrSub_delivered_finite subtract mode hlfin hrfin hx hy

/-! ## §3. Division -/

section Divide

variable {lhsRaw rhsRaw : BitVec 32} {lhs rhs : UnpackedFp32} {x y : ℚ} (mode : Mode)

/-- The quotient of two finite operands. -/
theorem divide_delivered_finite (hl : FiniteOperand lhsRaw x lhs)
    (hr : FiniteOperand rhsRaw y rhs) (hx : Binary32.value lhsRaw = some x)
    (hy : Binary32.value rhsRaw = some y) :
    Delivered (divide lhsRaw rhsRaw (roundingMode mode)) mode
      ((Datum.finite lhs.sign x).div (.finite rhs.sign y)) := by
  by_cases hy0 : y = 0
  · rw [Datum.div, if_pos (by exact_mod_cast hy0)]
    by_cases hx0 : x = 0
    · have hrun : divide lhsRaw rhsRaw (roundingMode mode) =
          .ok (.ofWord fp32CanonicalNaN fpFlagNv) := by
        simp [divide, hl.unpack, hr.unpack, bind, Except.bind, pure, Except.pure,
          hl.zero_iff.mpr hx0, hr.zero_iff.mpr hy0]
      rw [hrun, if_pos (by exact_mod_cast hx0)]
      exact delivered_nan mode true
    · have hrun : divide lhsRaw rhsRaw (roundingMode mode) =
          .ok (.ofWord (signBits (lhs.sign ^^ rhs.sign) ||| fp32Infinity) fpFlagDz) := by
        simp [divide, hl.unpack, hr.unpack, bind, Except.bind, pure, Except.pure, hl.isNan,
          hl.not_infinity, mt hl.zero_iff.mp hx0, hr.zero_iff.mpr hy0]
      rw [hrun, if_neg (by exact_mod_cast hx0)]
      exact delivered_infinite mode _ (.inr rfl)
  · rw [Datum.div, if_neg (by exact_mod_cast hy0)]
    by_cases hx0 : x = 0
    · have hrun : divide lhsRaw rhsRaw (roundingMode mode) =
          .ok (.ofWord (signBits (lhs.sign ^^ rhs.sign)) 0) := by
        simp [divide, hl.unpack, hr.unpack, bind, Except.bind, pure, Except.pure, hr.isNan,
          hl.zero_iff.mpr hx0, mt hr.zero_iff.mp hy0]
      rw [hrun, hx0, Rat.cast_zero, zero_div]
      exact delivered_zero mode _
    · have hne : (x : ℝ) / y ≠ 0 := by exact_mod_cast div_ne_zero hx0 hy0
      refine delivered_signed (div_pos (hl.unpacked hx0).magnitude_pos
        (hr.unpacked hy0).magnitude_pos) ?_ (divide_rounds hx hy mode hy0 hne)
      rw [hl.value hx0, hr.value hy0, signed_div]

end Divide

/-- **Division delivers the exact quotient.** -/
theorem divide_delivered (lhsRaw rhsRaw : BitVec 32) (mode : Mode) :
    Delivered (divide lhsRaw rhsRaw (roundingMode mode)) mode
      ((datum lhsRaw).div (datum rhsRaw)) := by
  obtain ⟨lhs, hl⟩ := Operand.of_raw lhsRaw
  obtain ⟨rhs, hr⟩ := Operand.of_raw rhsRaw
  by_cases hnan : (lhs.fpClass.isNan || rhs.fpClass.isNan) = true
  · have hrun : divide lhsRaw rhsRaw (roundingMode mode) = .ok (propagateNan lhs rhs) := by
      unfold divide
      simp only [hl.unpack, hr.unpack, bind, Except.bind, pure, Except.pure, hnan, if_true]
    rw [hl.nan_tests.1, hr.nan_tests.1] at hnan
    rw [hrun, Datum.div_of_nan hnan]
    exact delivered_propagateNan hl hr mode
  · rw [Bool.not_eq_true, Bool.or_eq_false_iff] at hnan
    obtain ⟨hlnan, hrnan⟩ := hnan
    rcases hl.reads_number hlnan with ⟨hlinf, hld⟩ | ⟨x, hx, hlfin, hld⟩ <;>
      rcases hr.reads_number hrnan with ⟨hrinf, hrd⟩ | ⟨y, hy, hrfin, hrd⟩ <;> rw [hld, hrd]
    · have hrun : divide lhsRaw rhsRaw (roundingMode mode) =
          .ok (.ofWord fp32CanonicalNaN fpFlagNv) := by
        simp [divide, hl.unpack, hr.unpack, bind, Except.bind, pure, Except.pure, hlinf, hrinf]
      rw [hrun]
      exact delivered_nan mode true
    · -- the source calls a division of an infinity by zero a division by zero too
      have hrun : ∃ flags, (flags = 0 ∨ flags = fpFlagDz) ∧
          divide lhsRaw rhsRaw (roundingMode mode) =
            .ok (.ofWord (signBits (lhs.sign ^^ rhs.sign) ||| fp32Infinity) flags) := by
        by_cases hy0 : rhs.fpClass = .zero
        · refine ⟨fpFlagDz, .inr rfl, ?_⟩
          simp [divide, hl.unpack, hr.unpack, bind, Except.bind, pure, Except.pure, hlinf, hy0]
        · refine ⟨0, .inl rfl, ?_⟩
          simp [divide, hl.unpack, hr.unpack, bind, Except.bind, pure, Except.pure, hlinf, hrnan,
            hrfin.not_infinity, hy0]
      obtain ⟨flags, hflags, hrun⟩ := hrun
      rw [hrun]
      exact delivered_infinite mode _ hflags
    · have hrun : divide lhsRaw rhsRaw (roundingMode mode) =
          .ok (.ofWord (signBits (lhs.sign ^^ rhs.sign)) 0) := by
        simp [divide, hl.unpack, hr.unpack, bind, Except.bind, pure, Except.pure, hrinf, hlnan,
          hlfin.not_infinity]
      rw [hrun]
      exact delivered_zero mode _
    · exact divide_delivered_finite mode hlfin hrfin hx hy

/-! ## §4. Square root -/

section SquareRoot

variable {raw : BitVec 32} {u : UnpackedFp32} (hunpack : UnpackedFp32.ofRaw raw = .ok u)
  (rm : RoundingMode)

include hunpack

/-! The special results of `square_root`. -/

theorem squareRoot_of_nan (hnan : u.fpClass.isNan = true) : squareRoot raw rm =
    .ok (.ofWord fp32CanonicalNaN (if u.fpClass.isSignalingNan then fpFlagNv else 0)) := by
  unfold squareRoot
  simp only [hunpack, bind, Except.bind, pure, Except.pure, hnan, if_true]

theorem squareRoot_of_zero (hzero : u.fpClass = .zero) :
    squareRoot raw rm = .ok (.ofWord raw 0) := by
  simp [squareRoot, hunpack, bind, Except.bind, pure, Except.pure, hzero]

theorem squareRoot_of_negative (hnan : u.fpClass.isNan = false) (hzero : u.fpClass ≠ .zero)
    (hsign : u.sign = true) : squareRoot raw rm = .ok (.ofWord fp32CanonicalNaN fpFlagNv) := by
  simp [squareRoot, hunpack, bind, Except.bind, pure, Except.pure, hnan, hzero, hsign]

theorem squareRoot_of_infinity (hinf : u.fpClass = .infinity) (hsign : u.sign = false) :
    squareRoot raw rm = .ok (.ofWord fp32Infinity 0) := by
  simp [squareRoot, hunpack, bind, Except.bind, pure, Except.pure, hinf, hsign]

end SquareRoot

/-- **The square root delivers the exact root.** -/
theorem squareRoot_delivered (raw : BitVec 32) (mode : Mode) :
    Delivered (squareRoot raw (roundingMode mode)) mode (datum raw).sqrt := by
  obtain ⟨u, hu⟩ := Operand.of_raw raw
  rcases hu.reads with ⟨hnan, hd⟩ | ⟨hinf, hd⟩ | ⟨v, hv, hfin, hd⟩ <;> rw [hd]
  · rw [squareRoot_of_nan hu.unpack _ hnan]
    exact delivered_nan mode _
  · rw [Datum.sqrt]
    cases hsign : u.sign with
    | false =>
      rw [squareRoot_of_infinity hu.unpack _ hinf hsign]
      exact delivered_infinite mode false (.inl rfl)
    | true =>
      rw [squareRoot_of_negative hu.unpack _ (by rw [hinf]; rfl) (by rw [hinf]; decide) hsign]
      exact delivered_nan mode true
  · rw [Datum.sqrt]
    by_cases hv0 : v = 0
    · have hraw : raw = signBits u.sign := by
        rw [hfin.sign]
        exact eq_signBits_of_zero (hv0 ▸ hv)
      rw [squareRoot_of_zero hu.unpack _ (hfin.zero_iff.mpr hv0), hv0, Rat.cast_zero,
        if_neg (lt_irrefl _), Real.sqrt_zero, hraw]
      exact delivered_zero mode _
    · have hlu := hfin.unpacked hv0
      have hneg : (v : ℝ) < 0 ↔ u.sign = true := by
        rw [hfin.value hv0, signed_lt_zero_iff _ hlu.magnitude_pos]
      cases hsign : u.sign with
      | false =>
        have hnonneg : ¬ (v : ℝ) < 0 := by rw [hneg, hsign]; decide
        have hpos : (0 : ℝ) < v :=
          lt_of_le_of_ne (not_lt.mp hnonneg) (by exact_mod_cast Ne.symm hv0)
        have hroot := Real.sqrt_pos.mpr hpos
        rw [if_neg hnonneg]
        exact delivered_signed hroot rfl
          (squareRoot_rounds hv mode (by exact_mod_cast hnonneg) hroot.ne')
      | true =>
        rw [squareRoot_of_negative hu.unpack _ hfin.isNan (mt hfin.zero_iff.mp hv0) hsign,
          if_pos (hneg.mpr hsign)]
        exact delivered_nan mode true

/-! ## §5. Fused multiply-add -/

/-- The exact datum of a fused operation, with the signs it gives to product and addend. -/
noncomputable def fmaDatum (mode : Mode) (type : FmaFpType) (product addend : Datum) : Datum :=
  match type with
  | .mAdd => product.add mode addend
  | .mSub => product.add mode addend.neg
  | .nmSub => product.neg.add mode addend
  | .nmAdd => product.neg.add mode addend.neg

theorem fmaDatum_eq (mode : Mode) (type : FmaFpType) (product addend : Datum) :
    fmaDatum mode type product addend =
      (product.negIf (fmaNegations type).1).add mode (addend.negIf (fmaNegations type).2) := by
  cases type <;> rfl

section Classes

variable {raw : BitVec 32} {u : UnpackedFp32} (h : Operand raw u)

include h

/-- The tests of the source, as tests of the datum. -/
theorem Operand.class_infinity_iff : u.fpClass = .infinity ↔ ∃ a, datum raw = .infinite a := by
  rcases h.reads with ⟨hnan, hd⟩ | ⟨hinf, hd⟩ | ⟨v, -, hfin, hd⟩ <;> rw [hd]
  · refine iff_of_false ?_ (by simp)
    intro hinf
    rw [hinf] at hnan
    cases hnan
  · exact iff_of_true hinf ⟨_, rfl⟩
  · exact iff_of_false hfin.not_infinity (by simp)

theorem Operand.class_zero_iff : u.fpClass = .zero ↔ ∃ a, datum raw = .finite a 0 := by
  rcases h.reads with ⟨hnan, hd⟩ | ⟨hinf, hd⟩ | ⟨v, -, hfin, hd⟩ <;> rw [hd]
  · refine iff_of_false ?_ (by simp)
    intro hzero
    rw [hzero] at hnan
    cases hnan
  · refine iff_of_false ?_ (by simp)
    rw [hinf]
    exact FpClass.noConfusion
  · rw [hfin.zero_iff]
    simp

end Classes

section FmaSpecial

variable {type : FmaFpType} {lhsRaw rhsRaw addendRaw : BitVec 32}
  {lhs rhs addend : UnpackedFp32} {negateProduct negateAddend invalidProduct : Bool}
  (hneg : fmaNegations type = (negateProduct, negateAddend))
  (hl : UnpackedFp32.ofRaw lhsRaw = .ok lhs) (hr : UnpackedFp32.ofRaw rhsRaw = .ok rhs)
  (ha : UnpackedFp32.ofRaw addendRaw = .ok addend)
  (hip : (decide (lhs.fpClass = .zero) && decide (rhs.fpClass = .infinity) ||
    decide (lhs.fpClass = .infinity) && decide (rhs.fpClass = .zero)) = invalidProduct)
  (rm : RoundingMode)

include hneg hl hr ha hip

/-! The special results of `fma`. -/

theorem fma_of_nan (htest : (lhs.fpClass.isNan || rhs.fpClass.isNan || addend.fpClass.isNan ||
    invalidProduct) = true) :
    Fpu.fma type lhsRaw rhsRaw addendRaw rm =
      .ok (.ofWord fp32CanonicalNaN (if lhs.fpClass.isSignalingNan ||
        rhs.fpClass.isSignalingNan || addend.fpClass.isSignalingNan || invalidProduct
          then fpFlagNv else 0)) := by
  unfold Fpu.fma
  simp only [hneg, hl, hr, ha, bind, Except.bind, pure, Except.pure, hip, htest, if_true]

variable (htest : (lhs.fpClass.isNan || rhs.fpClass.isNan || addend.fpClass.isNan ||
  invalidProduct) = false)

include htest

theorem fma_of_infinite_product
    (hinf : (decide (lhs.fpClass = .infinity) || decide (rhs.fpClass = .infinity)) = true)
    (hsign : (decide (addend.fpClass = .infinity) &&
      ((lhs.sign ^^ rhs.sign ^^ negateProduct) != (addend.sign ^^ negateAddend))) = false) :
    Fpu.fma type lhsRaw rhsRaw addendRaw rm =
      .ok (.ofWord (signBits (lhs.sign ^^ rhs.sign ^^ negateProduct) ||| fp32Infinity) 0) := by
  unfold Fpu.fma
  simp only [hneg, hl, hr, ha, bind, Except.bind, pure, Except.pure, hip, htest, hinf, hsign,
    Bool.false_eq_true, if_false, if_true]

theorem fma_of_opposite_infinities
    (hinf : (decide (lhs.fpClass = .infinity) || decide (rhs.fpClass = .infinity)) = true)
    (hsign : (decide (addend.fpClass = .infinity) &&
      ((lhs.sign ^^ rhs.sign ^^ negateProduct) != (addend.sign ^^ negateAddend))) = true) :
    Fpu.fma type lhsRaw rhsRaw addendRaw rm = .ok (.ofWord fp32CanonicalNaN fpFlagNv) := by
  unfold Fpu.fma
  simp only [hneg, hl, hr, ha, bind, Except.bind, pure, Except.pure, hip, htest, hinf, hsign,
    Bool.false_eq_true, if_false, if_true]

theorem fma_of_infinite_addend
    (hfin : (decide (lhs.fpClass = .infinity) || decide (rhs.fpClass = .infinity)) = false)
    (hinf : addend.fpClass = .infinity) :
    Fpu.fma type lhsRaw rhsRaw addendRaw rm =
      .ok (.ofWord (signBits (addend.sign ^^ negateAddend) ||| fp32Infinity) 0) := by
  unfold Fpu.fma
  simp only [hneg, hl, hr, ha, bind, Except.bind, pure, Except.pure, hip, htest, hfin,
    decide_eq_true hinf, Bool.false_eq_true, if_false, if_true]

end FmaSpecial

section Fma

variable {type : FmaFpType} {lhsRaw rhsRaw addendRaw : BitVec 32}
  {lhs rhs addend : UnpackedFp32}

/-- `invalid_product` of `Fpu::fma`. -/
theorem invalidProduct_iff (hl : Operand lhsRaw lhs) (hr : Operand rhsRaw rhs) :
    (decide (lhs.fpClass = .zero) && decide (rhs.fpClass = .infinity) ||
      decide (lhs.fpClass = .infinity) && decide (rhs.fpClass = .zero)) = true ↔
      (datum lhsRaw).InvalidProduct (datum rhsRaw) := by
  simp only [Bool.or_eq_true, Bool.and_eq_true, decide_eq_true_eq, hl.class_zero_iff,
    hr.class_zero_iff, hl.class_infinity_iff, hr.class_infinity_iff, Datum.InvalidProduct,
    exists_and_left, exists_and_right]
  exact or_comm

variable {x y z : ℚ} (mode : Mode) {negateProduct negateAddend : Bool}
  (hneg : fmaNegations type = (negateProduct, negateAddend))

include hneg

/-- The sum of a finite product and a finite addend. -/
theorem fma_delivered_finite (hl : FiniteOperand lhsRaw x lhs) (hr : FiniteOperand rhsRaw y rhs)
    (ha : FiniteOperand addendRaw z addend) (hx : Binary32.value lhsRaw = some x)
    (hy : Binary32.value rhsRaw = some y) (hz : Binary32.value addendRaw = some z) :
    Delivered (Fpu.fma type lhsRaw rhsRaw addendRaw (roundingMode mode)) mode
      (.finite (Datum.sumSign mode (lhs.sign ^^ rhs.sign ^^ negateProduct)
          (addend.sign ^^ negateAddend) (signed negateProduct (x * y) + signed negateAddend z))
        (signed negateProduct (x * y) + signed negateAddend z)) := by
  have hexact : ((fmaValue type (x * y) z : ℚ) : ℝ) =
      signed negateProduct (x * y) + signed negateAddend z := by
    rw [fmaValue_eq_signed, hneg, Rat.cast_mul]
  by_cases hsum : fmaValue type (x * y) z = 0
  · rw [← hexact, hsum, Rat.cast_zero, Datum.sumSign, if_pos rfl, ← decide_rdn]
    by_cases hxy : x * y = 0
    · -- zero plus zero
      have hz0 : z = 0 := by
        rw [hsum, ← Rat.cast_mul, hxy, Rat.cast_zero, signed_zero, zero_add, eq_comm,
          ← signed_zero negateAddend, signed_inj] at hexact
        exact_mod_cast hexact
      have hzeros : (decide (lhs.fpClass = .zero) || decide (rhs.fpClass = .zero)) = true := by
        rw [Bool.or_eq_true, decide_eq_true_iff, decide_eq_true_iff, hl.zero_iff, hr.zero_iff]
        exact mul_eq_zero.mp hxy
      have hrun : Fpu.fma type lhsRaw rhsRaw addendRaw (roundingMode mode) =
          .ok (.ofWord (signBits (if (lhs.sign ^^ rhs.sign ^^ negateProduct) =
              (addend.sign ^^ negateAddend) then lhs.sign ^^ rhs.sign ^^ negateProduct
            else decide (roundingMode mode = .rdn))) 0) := by
        have hazero : (addend.fpClass = .zero) = True := eq_true (ha.zero_iff.mpr hz0)
        unfold Fpu.fma
        simp only [hneg, hl.unpack, hr.unpack, ha.unpack, bind, Except.bind, pure, Except.pure,
          hl.isNan, hr.isNan, ha.isNan, hl.not_infinity, hr.not_infinity, ha.not_infinity, hzeros,
          hazero, decide_false, decide_true, Bool.and_false, Bool.false_and, Bool.or_self,
          Bool.false_eq_true, if_false, if_true]
      rw [hrun]
      exact delivered_zero mode _
    · -- the product cancels the addend
      obtain ⟨hx0, hy0⟩ := mul_ne_zero_iff.mp hxy
      have hsign : (lhs.sign ^^ rhs.sign ^^ negateProduct) ≠ (addend.sign ^^ negateAddend) := by
        intro hsign
        have hcast : ((x : ℝ) * y) ≠ 0 := by exact_mod_cast hxy
        have hz0 : z ≠ 0 := by
          rintro rfl
          rw [hsum, Rat.cast_zero, signed_zero, add_zero, eq_comm,
            ← signed_zero negateProduct, signed_inj] at hexact
          exact hcast hexact
        have hlu := hl.unpacked hx0
        have hru := hr.unpacked hy0
        have hau := ha.unpacked hz0
        rw [hsum, Rat.cast_zero, hl.value hx0, hr.value hy0, ha.value hz0, signed_mul,
          signed_signed, signed_signed, hsign, signed_add, eq_comm,
          ← signed_zero (addend.sign ^^ negateAddend), signed_inj] at hexact
        exact (add_pos (mul_pos hlu.magnitude_pos hru.magnitude_pos) hau.magnitude_pos).ne' hexact
      rw [fma_cancel hl hr ha hx0 hy0 hsum, if_neg hsign]
      exact delivered_zero mode _
  · have hne : ((fmaValue type (x * y) z : ℚ) : ℝ) ≠ 0 := by exact_mod_cast hsum
    rw [← hexact, sumSign_of_ne hne]
    exact delivered_of_rounds hne (fma_rounds type hx hy hz mode hne)

end Fma

/-- The product of two operands that are not NaNs, when it is valid. -/
theorem product_reads {lhsRaw rhsRaw : BitVec 32} {lhs rhs : UnpackedFp32}
    (hl : Operand lhsRaw lhs) (hr : Operand rhsRaw rhs) (hlnan : lhs.fpClass.isNan = false)
    (hrnan : rhs.fpClass.isNan = false)
    (hvalid : ¬ (datum lhsRaw).InvalidProduct (datum rhsRaw)) :
    ((decide (lhs.fpClass = .infinity) || decide (rhs.fpClass = .infinity)) = true ∧
      (datum lhsRaw).mul (datum rhsRaw) = .infinite (lhs.sign ^^ rhs.sign)) ∨
    ∃ x y, Binary32.value lhsRaw = some x ∧ Binary32.value rhsRaw = some y ∧
      FiniteOperand lhsRaw x lhs ∧ FiniteOperand rhsRaw y rhs ∧
      (datum lhsRaw).mul (datum rhsRaw) = .finite (lhs.sign ^^ rhs.sign) (x * y) := by
  rcases hl.reads_number hlnan with ⟨hlinf, hld⟩ | ⟨x, hx, hlfin, hld⟩ <;>
    rcases hr.reads_number hrnan with ⟨hrinf, hrd⟩ | ⟨y, hy, hrfin, hrd⟩ <;>
    rw [hld, hrd] at hvalid ⊢
  · exact .inl ⟨by simp [hlinf], rfl⟩
  · have hy0 : (y : ℝ) ≠ 0 := fun h0 => hvalid (.inl ⟨_, _, rfl, by rw [h0]⟩)
    exact .inl ⟨by simp [hlinf], if_neg hy0⟩
  · have hx0 : (x : ℝ) ≠ 0 := fun h0 => hvalid (.inr ⟨_, _, by rw [h0], rfl⟩)
    exact .inl ⟨by simp [hrinf], if_neg hx0⟩
  · exact .inr ⟨x, y, hx, hy, hlfin, hrfin, rfl⟩

/-- **A fused operation delivers the exact sum** of its exact product and its addend. -/
theorem fma_delivered (type : FmaFpType) (lhsRaw rhsRaw addendRaw : BitVec 32) (mode : Mode) :
    Delivered (Fpu.fma type lhsRaw rhsRaw addendRaw (roundingMode mode)) mode
      (fmaDatum mode type ((datum lhsRaw).mul (datum rhsRaw)) (datum addendRaw)) := by
  obtain ⟨lhs, hl⟩ := Operand.of_raw lhsRaw
  obtain ⟨rhs, hr⟩ := Operand.of_raw rhsRaw
  obtain ⟨addend, ha⟩ := Operand.of_raw addendRaw
  rw [fmaDatum_eq]
  generalize hneg : fmaNegations type = negations
  obtain ⟨negateProduct, negateAddend⟩ := negations
  dsimp only
  have hinvalid := invalidProduct_iff hl hr
  generalize hip : (decide (lhs.fpClass = .zero) && decide (rhs.fpClass = .infinity) ||
    decide (lhs.fpClass = .infinity) && decide (rhs.fpClass = .zero)) = invalidProduct at hinvalid
  cases htest : lhs.fpClass.isNan || rhs.fpClass.isNan || addend.fpClass.isNan ||
      invalidProduct with
  | true =>
    -- a NaN operand or an invalid product
    have hnan : ((((datum lhsRaw).mul (datum rhsRaw)).negIf negateProduct).isNaN ||
        ((datum addendRaw).negIf negateAddend).isNaN) = true := by
      rw [hl.nan_tests.1, hr.nan_tests.1, ha.nan_tests.1] at htest
      rw [Datum.isNaN_negIf, Datum.isNaN_negIf, Bool.or_eq_true, Datum.isNaN_mul_iff, ← hinvalid]
      simp only [Bool.or_eq_true] at htest
      tauto
    have hsignaling : (lhs.fpClass.isSignalingNan || rhs.fpClass.isSignalingNan ||
        addend.fpClass.isSignalingNan || invalidProduct) =
        (((datum lhsRaw).mul (datum rhsRaw)).signaling || (datum addendRaw).signaling) := by
      rw [hl.nan_tests.2, hr.nan_tests.2, ha.nan_tests.2, Bool.eq_iff_iff]
      simp only [Bool.or_eq_true, Datum.signaling_mul_iff, ← hinvalid]
      tauto
    rw [fma_of_nan hneg hl.unpack hr.unpack ha.unpack hip _ htest, Datum.add_of_nan hnan,
      Datum.signaling_negIf, Datum.signaling_negIf, hsignaling]
    exact delivered_nan mode _
  | false =>
    have hnumbers := htest
    simp only [Bool.or_eq_false_iff] at hnumbers
    obtain ⟨⟨⟨hlnan, hrnan⟩, hanan⟩, hip0⟩ := hnumbers
    have hvalid : ¬ (datum lhsRaw).InvalidProduct (datum rhsRaw) := by
      rw [← hinvalid, hip0]
      exact Bool.false_ne_true
    rcases product_reads hl hr hlnan hrnan hvalid with
        ⟨hpinf, hpd⟩ | ⟨x, y, hx, hy, hlfin, hrfin, hpd⟩ <;>
      rcases ha.reads_number hanan with ⟨hainf, had⟩ | ⟨z, hz, hafin, had⟩ <;> rw [hpd, had]
    · -- two infinities
      rw [Datum.negIf_infinite, Datum.negIf_infinite, Datum.add]
      by_cases hsign : (lhs.sign ^^ rhs.sign ^^ negateProduct) = (addend.sign ^^ negateAddend)
      · rw [fma_of_infinite_product hneg hl.unpack hr.unpack ha.unpack hip _ htest hpinf
          (by simp [hsign]), if_pos hsign]
        exact delivered_infinite mode _ (.inl rfl)
      · rw [fma_of_opposite_infinities hneg hl.unpack hr.unpack ha.unpack hip _ htest hpinf
          (by simp only [hainf, decide_true, Bool.true_and, bne_iff_ne, ne_eq, hsign,
            not_false_eq_true]), if_neg hsign]
        exact delivered_nan mode true
    · rw [fma_of_infinite_product hneg hl.unpack hr.unpack ha.unpack hip _ htest hpinf
        (by simp [hafin.not_infinity]), Datum.negIf_infinite, Datum.negIf_finite]
      exact delivered_infinite mode _ (.inl rfl)
    · rw [fma_of_infinite_addend hneg hl.unpack hr.unpack ha.unpack hip _ htest
        (by simp [hlfin.not_infinity, hrfin.not_infinity]) hainf, Datum.negIf_finite,
        Datum.negIf_infinite]
      exact delivered_infinite mode _ (.inl rfl)
    · rw [Datum.negIf_finite, Datum.negIf_finite]
      exact fma_delivered_finite mode hneg hlfin hrfin hafin hx hy hz

end ZincSim
