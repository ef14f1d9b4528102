/-
  ZincSim.Fpu.Divide — division is rounded once.

  `divide_unsigned` is restoring division: after the rounds down to `bit`, quotient
  and remainder are those of the dividend without its `bit` low bits
  (`divideLoop_spec`).  The quotient of the scaled significands has 27 bits, and the
  remainder only counts as a sticky bit.
-/
import ZincSim.Fpu.Exact

namespace ZincSim

open Rounding Sticky

/-! ## §1. Restoring division -/

/-- The next bit of the dividend, shifted into the remainder. -/
theorem toNat_shift_in (remainder dividend : BitVec 64) (bit : ℕ)
    (hr : remainder.toNat < 2 ^ 63) :
    ((remainder <<< 1) ||| ((dividend >>> bit) &&& 1#64)).toNat =
      2 * remainder.toNat + dividend.toNat / 2 ^ bit % 2 := by
  have hbit : ((dividend >>> bit) &&& 1#64).toNat = dividend.toNat / 2 ^ bit % 2 := by
    have hmask := BitField.toNat_and_lowMask (dividend >>> bit) 1 (by decide)
    rwa [BitVec.toNat_ushiftRight, Nat.shiftRight_eq_div_pow] at hmask
  have hlt : dividend.toNat / 2 ^ bit % 2 < 2 ^ 1 := Nat.mod_lt _ (by decide)
  have hdouble : (remainder <<< 1).toNat = remainder.toNat <<< 1 := by
    rw [BitVec.toNat_shiftLeft, Nat.shiftLeft_eq, Nat.mod_eq_of_lt (by omega)]
  rw [BitVec.toNat_or, hbit, hdouble, ← Nat.shiftLeft_add_eq_or_of_lt hlt, Nat.shiftLeft_eq,
    pow_one, mul_comm]

/-- A fresh bit of the quotient. -/
theorem toNat_set_bit {quotient : BitVec 64} {q bit : ℕ} (hbit : bit < 64)
    (hq : quotient.toNat = q * 2 ^ (bit + 1)) :
    (quotient ||| (1#64 <<< bit)).toNat = (2 * q + 1) * 2 ^ bit := by
  have hpow : 2 ^ bit < 2 ^ (bit + 1) := Nat.pow_lt_pow_right (by decide) (Nat.lt_succ_self bit)
  rw [BitVec.toNat_or, hq, toNat_bit hbit, ← Nat.shiftLeft_eq, ← Nat.shiftLeft_add_eq_or_of_lt hpow,
    Nat.shiftLeft_eq, Nat.pow_succ]
  ring

/-- **The invariant of the loop**: `q` and the remainder divide the dividend without
its `bit` low bits.  Induction on the rounds that are left. -/
theorem divideLoop_spec {dividend divisor : BitVec 64} (hdivisor : divisor.toNat ≤ 2 ^ 63)
    (bit : ℕ) (hbit : bit ≤ 64) (result : DivisionResult) (q : ℕ)
    (hq : result.quotient.toNat = q * 2 ^ bit)
    (hvalue : dividend.toNat / 2 ^ bit = q * divisor.toNat + result.remainder.toNat)
    (hrem : result.remainder.toNat < divisor.toNat) :
    (divideLoop dividend divisor bit result).quotient.toNat = dividend.toNat / divisor.toNat ∧
      (divideLoop dividend divisor bit result).remainder.toNat =
        dividend.toNat % divisor.toNat := by
  induction bit generalizing result q with
  | zero =>
    rw [pow_zero, Nat.div_one] at hvalue
    rw [pow_zero, mul_one] at hq
    -- no bits left: quotient and remainder are unique
    have huniq := (Nat.div_mod_unique (by omega)).mpr
      ⟨(by rw [hvalue]; ring : result.remainder.toNat + divisor.toNat * q = dividend.toNat), hrem⟩
    exact ⟨hq.trans huniq.1.symm, huniq.2.symm⟩
  | succ bit ih =>
    have hshift := toNat_shift_in result.remainder dividend bit (by omega)
    -- one more bit of the dividend
    have hscanned : dividend.toNat / 2 ^ bit = 2 * (q * divisor.toNat + result.remainder.toNat) +
        dividend.toNat / 2 ^ bit % 2 := by
      rw [← hvalue, Nat.pow_succ, ← Nat.div_div_eq_div_mul]
      omega
    rw [divideLoop]
    generalize (result.remainder <<< 1) ||| ((dividend >>> bit) &&& 1#64) = remainder at hshift ⊢
    split
    case isTrue hge =>
      have hge' : divisor.toNat ≤ remainder.toNat := hge
      have hsub : (remainder - divisor).toNat = remainder.toNat - divisor.toNat :=
        BitVec.toNat_sub_of_le hge
      apply ih (by omega) _ (2 * q + 1) (toNat_set_bit (by omega) hq)
      · rw [hscanned, hsub, add_mul, mul_assoc]
        omega
      · rw [hsub]
        omega
    case isFalse hlt =>
      have hlt' : remainder.toNat < divisor.toNat := Nat.not_le.mp hlt
      apply ih (by omega) _ (2 * q) (by rw [hq, Nat.pow_succ]; ring)
      · rw [hscanned, hshift, mul_assoc]
        omega
      · exact hlt'

/-- **`divide_unsigned` divides.** -/
theorem divideUnsigned_spec (dividend : BitVec 64) {divisor : BitVec 64}
    (hpos : 0 < divisor.toNat) (hdivisor : divisor.toNat ≤ 2 ^ 63) :
    (divideUnsigned dividend divisor).quotient.toNat = dividend.toNat / divisor.toNat ∧
      (divideUnsigned dividend divisor).remainder.toNat = dividend.toNat % divisor.toNat := by
  -- before the first round nothing of the dividend has been scanned
  refine divideLoop_spec hdivisor 64 le_rfl { quotient := 0, remainder := 0 } 0 (zero_mul _).symm
    ?_ hpos
  rw [Nat.div_eq_of_lt dividend.isLt, zero_mul]
  rfl

/-- The quotient that `divide` rounds. -/
theorem toNat_sticky_quotient (dividend : BitVec 64) {divisor : BitVec 64}
    (hpos : 0 < divisor.toNat) (hdivisor : divisor.toNat ≤ 2 ^ 63) :
    (if (divideUnsigned dividend divisor).remainder ≠ 0 then
        (divideUnsigned dividend divisor).quotient ||| 1
      else (divideUnsigned dividend divisor).quotient).toNat =
      quotient dividend.toNat divisor.toNat := by
  obtain ⟨hquot, hrem⟩ := divideUnsigned_spec dividend hpos hdivisor
  have hzero : (divideUnsigned dividend divisor).remainder = 0 ↔
      dividend.toNat % divisor.toNat = 0 := by
    rw [← hrem]
    exact ⟨fun h => by rw [h]; rfl, fun h => BitVec.eq_of_toNat_eq h⟩
  unfold quotient
  by_cases hexact : dividend.toNat % divisor.toNat = 0
  · rw [if_pos hexact, if_neg (not_not.mpr (hzero.mpr hexact)), hquot]
  · rw [if_neg hexact, if_pos fun h => hexact (hzero.mp h), BitVec.toNat_or, hquot]
    rfl

/-! ## §2. `divide` -/

/-- A quotient in [1, 2) scaled by 2 ^ 26 has its leading bit at 26. -/
theorem quotient_range {n d : ℕ} (hd : 0 < d) (hge : d ≤ n) (hlt : n < 2 * d) :
    2 ^ 26 ≤ quotient (n * 2 ^ 26) d ∧ quotient (n * 2 ^ 26) d < 2 ^ 27 := by
  have hpos : (0 : ℝ) < d := by exact_mod_cast hd
  constructor
  · refine le_trans ?_ (le_quotient _ _)
    rw [Nat.le_div_iff_mul_le hd, mul_comm]
    exact Nat.mul_le_mul_right _ hge
  · have hagree := agree_quotient (K := ℝ) (n * 2 ^ 26) hd
    have hcast : ((n * 2 ^ 26 : ℕ) : ℝ) / d < 2 ^ 27 := by
      rw [div_lt_iff₀ hpos]
      exact_mod_cast (by omega : n * 2 ^ 26 < 2 ^ 27 * d)
    exact_mod_cast (hagree.lt_two_pow_iff (by decide)).mpr hcast

/-- A sticky quotient of 27 bits. -/
theorem round_quotient (sign : Bool) (mode : Mode) (e : ℤ) {n d : ℕ} {s : BitVec 64} (hd : 0 < d)
    (hge : d ≤ n) (hlt : n < 2 * d) (hs : s.toNat = quotient (n * 2 ^ 26) d) :
    roundAndPack sign e s (roundingMode mode) = .ok (packExact sign mode (n / d * 2 ^ e)) := by
  have hpos : (0 : ℝ) < d := by exact_mod_cast hd
  have hagree := agree_quotient (K := ℝ) (n * 2 ^ 26) hd
  obtain ⟨hlow, hhigh⟩ := quotient_range hd hge hlt
  rw [← hs] at hagree hlow hhigh
  rw [roundAndPack_of_agree sign mode e (by omega) (by omega) hagree, zpow_sub₀ (by norm_num)]
  congr 2
  push_cast
  field_simp
  norm_num

/-- `numerator` and `exponent` of `divide`: the numerator is brought above the divisor. -/
def scaledNumerator (lhs rhs : UnpackedFp32) : BitVec 64 × ℤ :=
  let numerator : BitVec 64 := lhs.significand.setWidth 64
  let exponent := lhs.exponent - rhs.exponent
  if numerator < rhs.significand.setWidth 64 then (numerator <<< 1, exponent - 1)
  else (numerator, exponent)

/-- The quotient that `divide` hands to `round_and_pack`. -/
def stickyQuotient (dividend divisor : BitVec 64) : BitVec 64 :=
  let division := divideUnsigned dividend divisor
  if division.remainder ≠ 0 then division.quotient ||| 1 else division.quotient

theorem divideFinite_eq (lhs rhs : UnpackedFp32) (rm : RoundingMode) :
    divideFinite lhs rhs rm =
      roundAndPack (lhs.sign ^^ rhs.sign) (scaledNumerator lhs rhs).2
        (stickyQuotient ((scaledNumerator lhs rhs).1 <<< 26) (rhs.significand.setWidth 64)) rm :=
  rfl

section Quotient

variable {rawL rawR : BitVec 32} {lhs rhs : UnpackedFp32} (hl : Unpacked rawL lhs)
  (hr : Unpacked rawR rhs)

/-- A significand of 24 bits in a word. -/
theorem Unpacked.toNat_word {raw : BitVec 32} {u : UnpackedFp32} (h : Unpacked raw u) :
    (u.significand.setWidth 64 : BitVec 64).toNat = u.significand.toNat := by
  have hhigh := h.high
  rw [BitVec.toNat_setWidth]
  omega

include hl hr

/-- **The scaled numerator** is in [divisor, 2 * divisor), so the quotient is in [1, 2). -/
theorem scaledNumerator_spec :
    rhs.significand.toNat ≤ (scaledNumerator lhs rhs).1.toNat ∧
    (scaledNumerator lhs rhs).1.toNat < 2 * rhs.significand.toNat ∧
    ((scaledNumerator lhs rhs).2 = lhs.exponent - rhs.exponent ∨
      (scaledNumerator lhs rhs).2 = lhs.exponent - rhs.exponent - 1) ∧
    lhs.magnitude / rhs.magnitude = (scaledNumerator lhs rhs).1.toNat / rhs.significand.toNat *
      2 ^ (scaledNumerator lhs rhs).2 := by
  have hllow := hl.low
  have hlhigh := hl.high
  have hrlow := hr.low
  have hrhigh := hr.high
  have hmagnitudes : lhs.magnitude / rhs.magnitude =
      lhs.significand.toNat / rhs.significand.toNat * 2 ^ (lhs.exponent - rhs.exponent) := by
    rw [UnpackedFp32.magnitude, UnpackedFp32.magnitude, mul_div_mul_comm, two_zpow_div]
    congr 2
    ring
  have hcmp : (lhs.significand.setWidth 64 < (rhs.significand.setWidth 64 : BitVec 64)) ↔
      lhs.significand.toNat < rhs.significand.toNat := by
    rw [BitVec.lt_def, hl.toNat_word, hr.toNat_word]
  unfold scaledNumerator
  dsimp only
  by_cases h : lhs.significand.toNat < rhs.significand.toNat
  · -- the numerator is doubled
    have hdouble : (lhs.significand.setWidth 64 <<< 1 : BitVec 64).toNat =
        2 * lhs.significand.toNat := by
      rw [BitVec.toNat_shiftLeft, hl.toNat_word, Nat.shiftLeft_eq]
      omega
    rw [if_pos (hcmp.mpr h)]
    dsimp only
    rw [hdouble]
    refine ⟨by omega, by omega, .inr rfl, ?_⟩
    rw [hmagnitudes, zpow_sub_one₀ (by norm_num)]
    push_cast
    ring
  · rw [if_neg (mt hcmp.mp h)]
    dsimp only
    rw [hl.toNat_word]
    exact ⟨by omega, by omega, .inl rfl, hmagnitudes⟩

/-- The quotient, from the scaled numerator. -/
theorem toNat_stickyQuotient :
    (stickyQuotient ((scaledNumerator lhs rhs).1 <<< 26) (rhs.significand.setWidth 64)).toNat =
      quotient ((scaledNumerator lhs rhs).1.toNat * 2 ^ 26) rhs.significand.toNat := by
  have hrlow := hr.low
  have hrhigh := hr.high
  have hrnat := hr.toNat_word
  obtain ⟨-, hlt, -⟩ := scaledNumerator_spec hl hr
  have hdividend : ((scaledNumerator lhs rhs).1 <<< 26).toNat =
      (scaledNumerator lhs rhs).1.toNat * 2 ^ 26 := by
    rw [BitVec.toNat_shiftLeft, Nat.shiftLeft_eq]
    omega
  rw [← hdividend, ← hrnat]
  exact toNat_sticky_quotient _ (by omega) (by omega)

/-- `round_and_pack` gets a quotient of 27 bits. -/
theorem stickyQuotient_range :
    2 ^ 26 ≤ (stickyQuotient ((scaledNumerator lhs rhs).1 <<< 26)
      (rhs.significand.setWidth 64)).toNat ∧
    (stickyQuotient ((scaledNumerator lhs rhs).1 <<< 26)
      (rhs.significand.setWidth 64)).toNat < 2 ^ 27 := by
  have hrlow := hr.low
  obtain ⟨hge, hlt, -⟩ := scaledNumerator_spec hl hr
  rw [toNat_stickyQuotient hl hr]
  exact quotient_range (by omega) hge hlt

/-- The quotient of two nonzero operands. -/
theorem divideFinite_rounds (mode : Mode) :
    divideFinite lhs rhs (roundingMode mode) =
      .ok (packExact (lhs.sign ^^ rhs.sign) mode (lhs.magnitude / rhs.magnitude)) := by
  have hrlow := hr.low
  obtain ⟨hge, hlt, -, hvalue⟩ := scaledNumerator_spec hl hr
  rw [divideFinite_eq, hvalue]
  exact round_quotient _ mode _ (by omega) hge hlt (toNat_stickyQuotient hl hr)

end Quotient

/-- The part of `divide` for two nonzero finite operands. -/
theorem divide_finite {lhsRaw rhsRaw : BitVec 32} {lhs rhs : UnpackedFp32}
    (hlunpack : UnpackedFp32.ofRaw lhsRaw = .ok lhs)
    (hrunpack : UnpackedFp32.ofRaw rhsRaw = .ok rhs)
    (hl : Unpacked lhsRaw lhs) (hr : Unpacked rhsRaw rhs) (rm : RoundingMode) :
    divide lhsRaw rhsRaw rm = divideFinite lhs rhs rm := by
  obtain ⟨hlnan, hlinf, hlzero⟩ := hl.class_facts
  obtain ⟨hrnan, hrinf, hrzero⟩ := hr.class_facts
  unfold divide
  simp only [hlunpack, hrunpack, bind, Except.bind, pure, Except.pure, hlnan, hrnan, hlinf, hrinf,
    hlzero, hrzero, Bool.or_self, Bool.and_self, decide_false, Bool.false_eq_true, if_false]

/-- **`divide` rounds the exact quotient once.** -/
theorem divide_rounds {lhsRaw rhsRaw : BitVec 32} {x y : ℚ}
    (hx : Binary32.value lhsRaw = some x) (hy : Binary32.value rhsRaw = some y) (mode : Mode)
    (hy0 : y ≠ 0) (hne : (x : ℝ) / y ≠ 0) :
    RoundsTo (divide lhsRaw rhsRaw (roundingMode mode)) mode (x / y) := by
  obtain ⟨lhs, hl⟩ := FiniteOperand.of_value hx
  obtain ⟨rhs, hr⟩ := FiniteOperand.of_value hy
  have hx0 : x ≠ 0 := by
    rintro rfl
    exact hne (by rw [Rat.cast_zero, zero_div])
  have hul := hl.unpacked hx0
  have hur := hr.unpacked hy0
  rw [hl.value hx0, hr.value hy0, signed_div]
  apply roundsTo_signed (div_pos hul.magnitude_pos hur.magnitude_pos)
  rw [divide_finite hl.unpack hr.unpack hul hur]
  exact divideFinite_rounds hul hur mode

end ZincSim
