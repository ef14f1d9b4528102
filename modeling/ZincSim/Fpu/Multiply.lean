/-
  ZincSim.Fpu.Multiply — multiplication is rounded once.

  The 48-bit product of two significands has its leading bit at 46 or 47; the jam
  to 27 bits is all that is lost.
-/
import ZincSim.Fpu.Exact

namespace ZincSim

open Rounding Sticky

/-! ## §1. The product of two significands -/

/-- `product` of `multiply` and `compute_fma`. -/
def productOf (lhs rhs : UnpackedFp32) : BitVec 64 :=
  lhs.significand.setWidth 64 * rhs.significand.setWidth 64

/-- `product_at_least_two`. -/
def productAtLeastTwo (lhs rhs : UnpackedFp32) : Bool :=
  decide (productOf lhs rhs &&& (1#64 <<< 47) ≠ 0)

/-- The exponent of the product. -/
def productExponent (lhs rhs : UnpackedFp32) : ℤ :=
  lhs.exponent + rhs.exponent + (if productAtLeastTwo lhs rhs then 1 else 0)

section Product

variable {rawL rawR : BitVec 32} {lhs rhs : UnpackedFp32} (hl : Unpacked rawL lhs)
  (hr : Unpacked rawR rhs)

include hl hr

theorem toNat_productOf :
    (productOf lhs rhs).toNat = lhs.significand.toNat * rhs.significand.toNat := by
  have hlt : lhs.significand.toNat * rhs.significand.toNat < 2 ^ 24 * 2 ^ 24 :=
    Nat.mul_lt_mul'' hl.high hr.high
  have hlw := lhs.significand.isLt
  have hrw := rhs.significand.isLt
  rw [productOf, BitVec.toNat_mul, BitVec.toNat_setWidth, BitVec.toNat_setWidth,
    Nat.mod_eq_of_lt (a := lhs.significand.toNat) (by omega),
    Nat.mod_eq_of_lt (a := rhs.significand.toNat) (by omega), Nat.mod_eq_of_lt (by omega)]

theorem productOf_bounds :
    2 ^ 46 ≤ (productOf lhs rhs).toNat ∧ (productOf lhs rhs).toNat < 2 ^ 48 := by
  have hlow : 2 ^ 23 * 2 ^ 23 ≤ lhs.significand.toNat * rhs.significand.toNat :=
    Nat.mul_le_mul hl.low hr.low
  have hhigh : lhs.significand.toNat * rhs.significand.toNat < 2 ^ 24 * 2 ^ 24 :=
    Nat.mul_lt_mul'' hl.high hr.high
  rw [toNat_productOf hl hr]
  omega

/-- The product in the two cases, with the place of its leading bit. -/
theorem product_cases :
    (productAtLeastTwo lhs rhs = true ∧ productExponent lhs rhs = lhs.exponent + rhs.exponent + 1 ∧
      2 ^ 47 ≤ (productOf lhs rhs).toNat ∧ (productOf lhs rhs).toNat < 2 ^ 48) ∨
    (productAtLeastTwo lhs rhs = false ∧ productExponent lhs rhs = lhs.exponent + rhs.exponent ∧
      2 ^ 46 ≤ (productOf lhs rhs).toNat ∧ (productOf lhs rhs).toNat < 2 ^ 47) := by
  obtain ⟨hlow, hhigh⟩ := productOf_bounds hl hr
  have hbit := BitField.and_bit_eq_zero_iff_lt (n := 47) (productOf lhs rhs) (by decide) hhigh
  -- bit 47 decides where the leading bit is
  by_cases hlt : (productOf lhs rhs).toNat < 2 ^ 47
  · have htwo : productAtLeastTwo lhs rhs = false :=
      decide_eq_false (not_not.mpr (hbit.mpr hlt))
    refine .inr ⟨htwo, ?_, hlow, hlt⟩
    rw [productExponent, htwo]
    exact add_zero _
  · have htwo : productAtLeastTwo lhs rhs = true := decide_eq_true fun h => hlt (hbit.mp h)
    refine .inl ⟨htwo, ?_, not_lt.mp hlt, hhigh⟩
    rw [productExponent, htwo]
    rfl

/-- The product of the magnitudes, from the integer product. -/
theorem magnitude_mul :
    lhs.magnitude * rhs.magnitude =
      (productOf lhs rhs).toNat * 2 ^ (lhs.exponent + rhs.exponent - 46) := by
  rw [toNat_productOf hl hr, UnpackedFp32.magnitude, UnpackedFp32.magnitude,
    show lhs.exponent + rhs.exponent - 46 = (lhs.exponent - 23) + (rhs.exponent - 23) by ring,
    zpow_add₀ (by norm_num)]
  push_cast
  ring

end Product

/-! ## §2. `multiply` -/

/-- A jam that leaves 27 bits keeps the leading one in place. -/
theorem jam_range {s : BitVec 64} {n : ℕ} (hn : 26 ≤ n) (hlow : 2 ^ n ≤ s.toNat)
    (hhigh : s.toNat < 2 ^ (n + 1)) :
    2 ^ 26 ≤ (shiftRightJam s (n - 26)).toNat ∧ (shiftRightJam s (n - 26)).toNat < 2 ^ 27 := by
  constructor
  · rw [toNat_shiftRightJam]
    refine le_trans ?_ (le_jam _ _)
    rw [Nat.le_div_iff_mul_le (Nat.two_pow_pos _), ← pow_add]
    rwa [show 26 + (n - 26) = n by omega]
  · have hagree := agree_jam (K := ℝ) s.toNat (n - 26)
    rw [← toNat_shiftRightJam] at hagree
    have hcast : (s.toNat : ℝ) / 2 ^ (n - 26) < 2 ^ 27 := by
      rw [div_lt_iff₀ (by positivity), ← pow_add, show 27 + (n - 26) = n + 1 by omega]
      exact_mod_cast hhigh
    exact_mod_cast (hagree.lt_two_pow_iff (by decide)).mpr hcast

/-- The jammed product of two nonzero operands. -/
theorem round_product {rawL rawR : BitVec 32} {lhs rhs : UnpackedFp32} (hl : Unpacked rawL lhs)
    (hr : Unpacked rawR rhs) (sign : Bool) (mode : Mode) :
    roundAndPack sign (productExponent lhs rhs)
        (shiftRightJam (productOf lhs rhs) (if productAtLeastTwo lhs rhs then 21 else 20))
        (roundingMode mode) =
      .ok (packExact sign mode (lhs.magnitude * rhs.magnitude)) := by
  -- one proof for both shifts: `n` is the place of the leading bit of the product
  have hround (n : ℕ) (hn : n = 46 ∨ n = 47) (hlow : 2 ^ n ≤ (productOf lhs rhs).toNat)
      (hhigh : (productOf lhs rhs).toNat < 2 ^ (n + 1)) (e : ℤ)
      (he : e = lhs.exponent + rhs.exponent + n - 46) :
      roundAndPack sign e (shiftRightJam (productOf lhs rhs) (n - 26)) (roundingMode mode) =
        .ok (packExact sign mode (lhs.magnitude * rhs.magnitude)) := by
    obtain ⟨d, hd⟩ : ∃ d, n = d + 26 := ⟨n - 26, by omega⟩
    have hagree := agree_jam (K := ℝ) (productOf lhs rhs).toNat (n - 26)
    rw [← toNat_shiftRightJam] at hagree
    obtain ⟨hlow', hhigh'⟩ := jam_range (by omega) hlow hhigh
    rw [roundAndPack_of_agree sign mode e (by omega) (by omega) hagree, magnitude_mul hl hr, he, hd,
      show d + 26 - 26 = d by omega,
      show lhs.exponent + rhs.exponent + ((d + 26 : ℕ) : ℤ) - 46 - 26 =
        (lhs.exponent + rhs.exponent - 46) + d by push_cast; ring,
      zpow_add₀ (by norm_num), zpow_natCast]
    congr 2
    field_simp
  obtain ⟨htwo, he, hlow, hhigh⟩ | ⟨htwo, he, hlow, hhigh⟩ := product_cases hl hr
  · rw [htwo]
    exact hround 47 (.inr rfl) hlow hhigh _ (by rw [he]; push_cast; ring)
  · rw [htwo]
    exact hround 46 (.inl rfl) hlow hhigh _ (by rw [he]; push_cast; ring)

/-- `round_and_pack` gets the product in 27 bits. -/
theorem jam_product_range {rawL rawR : BitVec 32} {lhs rhs : UnpackedFp32}
    (hl : Unpacked rawL lhs) (hr : Unpacked rawR rhs) :
    2 ^ 26 ≤ (shiftRightJam (productOf lhs rhs)
      (if productAtLeastTwo lhs rhs then 21 else 20)).toNat ∧
    (shiftRightJam (productOf lhs rhs)
      (if productAtLeastTwo lhs rhs then 21 else 20)).toNat < 2 ^ 27 := by
  obtain ⟨htwo, -, hlow, hhigh⟩ | ⟨htwo, -, hlow, hhigh⟩ := product_cases hl hr
  · rw [htwo]
    exact jam_range (n := 47) (by decide) hlow hhigh
  · rw [htwo]
    exact jam_range (n := 46) (by decide) hlow hhigh

/-- The part of `multiply` for two nonzero finite operands. -/
theorem multiply_finite {lhsRaw rhsRaw : BitVec 32} {lhs rhs : UnpackedFp32}
    (hlunpack : UnpackedFp32.ofRaw lhsRaw = .ok lhs)
    (hrunpack : UnpackedFp32.ofRaw rhsRaw = .ok rhs)
    (hl : Unpacked lhsRaw lhs) (hr : Unpacked rhsRaw rhs) (rm : RoundingMode) :
    multiply lhsRaw rhsRaw rm =
      roundAndPack (lhs.sign ^^ rhs.sign) (productExponent lhs rhs)
        (shiftRightJam (productOf lhs rhs) (if productAtLeastTwo lhs rhs then 21 else 20)) rm := by
  obtain ⟨hlnan, hlinf, hlzero⟩ := hl.class_facts
  obtain ⟨hrnan, hrinf, hrzero⟩ := hr.class_facts
  unfold multiply
  simp only [hlunpack, hrunpack, bind, Except.bind, pure, Except.pure, hlnan, hrnan, hlinf, hrinf,
    hlzero, hrzero, Bool.or_self, Bool.and_self, decide_false, Bool.false_eq_true, if_false]
  rfl

/-- **`multiply` rounds the exact product once.** -/
theorem multiply_rounds {lhsRaw rhsRaw : BitVec 32} {x y : ℚ}
    (hx : Binary32.value lhsRaw = some x) (hy : Binary32.value rhsRaw = some y) (mode : Mode)
    (hne : (x : ℝ) * y ≠ 0) :
    RoundsTo (multiply lhsRaw rhsRaw (roundingMode mode)) mode (x * y) := by
  obtain ⟨lhs, hl⟩ := FiniteOperand.of_value hx
  obtain ⟨rhs, hr⟩ := FiniteOperand.of_value hy
  have hx0 : x ≠ 0 := by
    rintro rfl
    exact hne (by rw [Rat.cast_zero, zero_mul])
  have hy0 : y ≠ 0 := by
    rintro rfl
    exact hne (by rw [Rat.cast_zero, mul_zero])
  have hul := hl.unpacked hx0
  have hur := hr.unpacked hy0
  rw [hl.value hx0, hr.value hy0, signed_mul]
  apply roundsTo_signed (mul_pos hul.magnitude_pos hur.magnitude_pos)
  rw [multiply_finite hl.unpack hr.unpack hul hur]
  exact round_product hul hur _ mode

end ZincSim
