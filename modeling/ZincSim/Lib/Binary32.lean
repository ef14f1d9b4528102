/-
  ZincSim.Lib.Binary32 — the binary32 interchange format.

  A pattern is a sign bit, eight exponent bits and 23 fraction bits (`pack`); the
  finite ones stand for rational numbers (`value`).
-/
import Mathlib

namespace Binary32

/-! ## §1. Fields -/

section Fields

variable (pattern : BitVec 32)

def sign : Bool := pattern.msb
def exponent : BitVec 8 := pattern.extractLsb' 23 8
def fraction : BitVec 23 := pattern.extractLsb' 0 23

end Fields

def pack (sign : Bool) (exponent : BitVec 8) (fraction : BitVec 23) : BitVec 32 :=
  BitVec.ofBool sign ++ exponent ++ fraction

section Pack

variable (s : Bool) (e : BitVec 8) (f : BitVec 23)

@[simp] theorem sign_pack : sign (pack s e f) = s := by
  unfold sign pack
  rw [BitVec.msb_append, BitVec.msb_append]
  simp

@[simp] theorem exponent_pack : exponent (pack s e f) = e := by
  apply BitVec.eq_of_getLsbD_eq
  intro i hi
  unfold exponent pack
  rw [BitVec.getLsbD_extractLsb', BitVec.getLsbD_append, BitVec.getLsbD_append]
  simp [hi]

@[simp] theorem fraction_pack : fraction (pack s e f) = f := by
  apply BitVec.eq_of_getLsbD_eq
  intro i hi
  unfold fraction pack
  rw [BitVec.getLsbD_extractLsb', BitVec.getLsbD_append]
  simp [hi]

theorem toNat_pack :
    (pack s e f).toNat = (if s then 2 ^ 31 else 0) + (e.toNat * 2 ^ 23 + f.toNat) := by
  have he := e.isLt
  have hf := f.isLt
  unfold pack
  rw [BitVec.toNat_append, BitVec.toNat_append, ← Nat.shiftLeft_add_eq_or_of_lt hf,
    ← Nat.shiftLeft_add_eq_or_of_lt he, Nat.shiftLeft_eq, Nat.shiftLeft_eq, BitVec.toNat_ofBool]
  cases s with
  | false => simp
  | true =>
    simp only [Bool.toNat_true, if_true]
    omega

end Pack

/-- A pattern is its three fields. -/
theorem pack_fields (pattern : BitVec 32) :
    pack (sign pattern) (exponent pattern) (fraction pattern) = pattern := by
  refine BitVec.eq_of_getLsbD_eq (w := 1 + 8 + 23) fun i hi => ?_
  unfold pack sign exponent fraction
  rw [BitVec.getLsbD_append, BitVec.getLsbD_append]
  obtain h | h | rfl : i < 23 ∨ (23 ≤ i ∧ i < 31) ∨ i = 31 := by omega
  · simp [h]
  · have h1 : ¬ i < 23 := by omega
    have h2 : i - 23 < 8 := by omega
    have h3 : 23 + (i - 23) = i := by omega
    simp [h1, h2, h3]
  · simp [BitVec.msb_eq_getLsbD_last]

/-! ## §2. Values -/

/-- The magnitude of a finite pattern: subnormals have no hidden bit and the exponent
of the smallest normal numbers. -/
def magnitude (pattern : BitVec 32) : ℚ :=
  if exponent pattern = 0 then (fraction pattern).toNat * 2 ^ (-149 : ℤ)
  else (2 ^ 23 + (fraction pattern).toNat) * 2 ^ (((exponent pattern).toNat : ℤ) - 150)

/-- The value of a pattern; infinities and NaNs have none. -/
def value (pattern : BitVec 32) : Option ℚ :=
  if exponent pattern = 255 then none
  else some (if sign pattern then -magnitude pattern else magnitude pattern)

theorem magnitude_nonneg (pattern : BitVec 32) : 0 ≤ magnitude pattern := by
  unfold magnitude
  split <;> positivity

theorem magnitude_eq_zero_iff (pattern : BitVec 32) :
    magnitude pattern = 0 ↔ exponent pattern = 0 ∧ fraction pattern = 0 := by
  unfold magnitude
  split
  case isTrue h =>
    have hpow : (2 : ℚ) ^ (-149 : ℤ) ≠ 0 := by positivity
    rw [mul_eq_zero_iff_right hpow, Nat.cast_eq_zero]
    exact ⟨fun hf => ⟨h, BitVec.eq_of_toNat_eq hf⟩, fun hf => congrArg BitVec.toNat hf.2⟩
  case isFalse h =>
    refine iff_of_false (ne_of_gt ?_) fun hzero => h hzero.1
    positivity

theorem value_eq_zero_iff (pattern : BitVec 32) :
    value pattern = some 0 ↔ exponent pattern = 0 ∧ fraction pattern = 0 := by
  rw [← magnitude_eq_zero_iff]
  unfold value
  by_cases h : exponent pattern = 255
  · rw [if_pos h]
    refine iff_of_false (Option.some_ne_none _).symm fun hzero => ?_
    rw [((magnitude_eq_zero_iff pattern).mp hzero).1] at h
    exact absurd h (by decide)
  · rw [if_neg h, Option.some.injEq]
    split
    · exact neg_eq_zero
    · exact Iff.rfl

/-! ## §3. Infinities and NaNs -/

/-- The pattern is one of the two infinities. -/
def IsInfinite (pattern : BitVec 32) : Prop := exponent pattern = 255 ∧ fraction pattern = 0

/-- The pattern is a NaN. -/
def IsNaN (pattern : BitVec 32) : Prop := exponent pattern = 255 ∧ fraction pattern ≠ 0

instance (pattern : BitVec 32) : Decidable (IsInfinite pattern) :=
  inferInstanceAs (Decidable (_ ∧ _))

instance (pattern : BitVec 32) : Decidable (IsNaN pattern) :=
  inferInstanceAs (Decidable (_ ∧ _))

theorem value_eq_none_iff (pattern : BitVec 32) :
    value pattern = none ↔ IsInfinite pattern ∨ IsNaN pattern := by
  by_cases h : exponent pattern = 255
  · refine iff_of_true (if_pos h) ?_
    by_cases hf : fraction pattern = 0
    · exact .inl ⟨h, hf⟩
    · exact .inr ⟨h, hf⟩
  · rw [value, if_neg h]
    refine iff_of_false (Option.some_ne_none _) ?_
    rintro (hc | hc)
    · exact h hc.1
    · exact h hc.1

/-! ## §4. The ten classes -/

/-- The number of a pattern's class, in the order of the RISC-V class mask: the negative
numbers upwards from -∞, the positive ones up to +∞, and the NaNs. -/
def classNumber (pattern : BitVec 32) : ℕ :=
  if exponent pattern = 255 then
    if fraction pattern = 0 then if sign pattern then 0 else 7
    else if (fraction pattern).msb then 9 else 8
  else if exponent pattern = 0 then
    if fraction pattern = 0 then if sign pattern then 3 else 4
    else if sign pattern then 2 else 5
  else if sign pattern then 1 else 6

end Binary32
