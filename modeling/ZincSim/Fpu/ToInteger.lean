/-
  ZincSim.Fpu.ToInteger — conversions to an integer round the exact value once.

  Below 2^23 the significand is split at the binary point, and the part behind it is
  compared with one half (`integerRoundUp_decides`); above, the number is an integer
  already.  The range is checked after the rounding (`range_check`).
-/
import ZincSim.Fpu.Integer
import ZincSim.Fpu.Deliver
import ZincSim.Lib.TwosComplement

namespace ZincSim

open Rounding
open Binary32 (IsInfinite IsNaN)

/-! ## §1. Types of integers -/

/-- A type of integers, signed or not, of a width in bits. -/
structure IntegerType where
  signed : Bool
  width : ℕ
  deriving DecidableEq, Repr

namespace IntegerType

variable (t : IntegerType)

def min : ℤ := if t.signed then -2 ^ (t.width - 1) else 0

def max : ℤ := if t.signed then 2 ^ (t.width - 1) - 1 else 2 ^ t.width - 1

/-- The type has the integer. -/
def Holds (n : ℤ) : Prop := t.min ≤ n ∧ n ≤ t.max

/-- The integer in a register.  One of 32 bits is sign-extended, whatever its type. -/
def register (n : ℤ) : BitVec 64 := (BitVec.ofInt t.width n).signExtend 64

end IntegerType

/-- The type that a conversion goes to. -/
def integerType : OpFpType → IntegerType
  | .cvtWFromS => ⟨true, 32⟩
  | .cvtWuFromS => ⟨false, 32⟩
  | .cvtLFromS => ⟨true, 64⟩
  | _ => ⟨false, 64⟩

/-! ## §2. Rounding -/

/-- **The `switch` of `float_to_integer`** decides the rounding of the quotient of the
significand by a power of two. -/
theorem integerRoundUp_decides (mode : Mode) (sign : Bool) {a shift : ℕ} (hshift : 0 < shift)
    (ha : a < 2 ^ 24) {magnitude remainder halfway : BitVec 64}
    (hmagnitude : magnitude.toNat = a / 2 ^ shift) (hremainder : remainder.toNat = a % 2 ^ shift)
    (hhalfway : shift < 64 → halfway.toNat = 2 ^ (shift - 1)) :
    ∃ up, integerRoundUp (roundingMode mode) sign (decide (remainder ≠ 0)) shift magnitude remainder
        halfway = .ok up ∧
      roundInt (mode.direction sign) (a / 2 ^ shift : ℚ) =
        (a / 2 ^ shift : ℕ) + (if up then 1 else 0) := by
  obtain ⟨n, rfl⟩ : ∃ n, shift = n + 1 := ⟨shift - 1, by omega⟩
  have hpow : 2 ^ (n + 1) = 2 * 2 ^ n := by rw [pow_succ, mul_comm]
  have hcast : (2 : ℚ) ^ (n + 1) = ((2 * 2 ^ n : ℕ) : ℚ) := by
    push_cast
    rw [pow_succ, mul_comm]
  rw [Nat.add_sub_cancel] at hhalfway
  rw [hpow] at hmagnitude hremainder ⊢
  obtain ⟨hpos, hge, hgt, heq⟩ := fraction_cmp (K := ℚ) (Nat.two_pow_pos n) (a % (2 * 2 ^ n))
  rw [hcast]
  have hdecide {up : Bool} (hup : up = true ↔ RoundsUp (mode.direction sign)
      ((a / (2 * 2 ^ n) : ℕ) : ℤ) ((a % (2 * 2 ^ n) : ℕ) / (2 * 2 ^ n : ℕ) : ℚ)) :=
    roundInt_div (mode.direction sign) a (by positivity) hup
  have hne : remainder ≠ 0 ↔ 0 < a % (2 * 2 ^ n) := by
    rw [← hremainder, Ne, ← BitVec.toNat_inj, Nat.pos_iff_ne_zero]
    rfl
  -- a shift of 64 or more leaves less than one half
  have hfar : ¬ n + 1 < 64 → a % (2 * 2 ^ n) < 2 ^ n := by
    intro hlarge
    have hle : 2 ^ 24 ≤ 2 ^ n := Nat.pow_le_pow_right (by decide) (by omega)
    exact (Nat.mod_le _ _).trans_lt (by omega)
  have hodd : magnitude &&& 1 ≠ 0 ↔ Odd ((a / (2 * 2 ^ n) : ℕ) : ℤ) := by
    have hmask : (magnitude &&& 1).toNat = magnitude.toNat % 2 ^ 1 :=
      BitField.toNat_and_lowMask magnitude 1 (by decide)
    rw [Ne, ← BitVec.toNat_inj, hmask, hmagnitude, Int.odd_iff]
    simp only [BitVec.ofNat_eq_ofNat, BitVec.toNat_ofNat]
    omega
  -- one case of the switch per mode; the directed ones look at the sign
  cases mode with
  | tiesToEven =>
    refine ⟨_, rfl, hdecide ?_⟩
    show _ ↔ _ ∨ _
    rw [hgt, heq, ← hodd]
    by_cases hnear : n + 1 < 64
    · rw [← hremainder, ← hhalfway hnear, BitVec.toNat_inj, ← BitVec.lt_def]
      simp [hnear]
    · have hlt := hfar hnear
      simp only [hnear, decide_false, Bool.false_and, Bool.false_eq_true, false_iff]
      omega
  | tiesToAway =>
    refine ⟨_, rfl, hdecide ?_⟩
    show _ ↔ _ ≤ _
    rw [hge]
    by_cases hnear : n + 1 < 64
    · rw [← hremainder, ← hhalfway hnear, ← BitVec.le_def]
      simp [hnear]
    · have hlt := hfar hnear
      simp only [hnear, decide_false, Bool.false_and, Bool.false_eq_true, false_iff]
      omega
  | towardZero =>
    refine ⟨_, rfl, hdecide ?_⟩
    exact iff_of_false (by decide) id
  | towardNegative =>
    refine ⟨_, rfl, hdecide ?_⟩
    cases sign with
    | false => exact iff_of_false (by simp) id
    | true =>
      show _ ↔ _ < _
      rw [hpos, ← hne, Bool.true_and, decide_eq_true_iff]
  | towardPositive =>
    refine ⟨_, rfl, hdecide ?_⟩
    cases sign with
    | true => exact iff_of_false (by simp) id
    | false =>
      show _ ↔ _ < _
      rw [hpos, ← hne, Bool.not_false, Bool.true_and, decide_eq_true_iff]

/-- A quotient of naturals is an integer when nothing remains. -/
theorem div_eq_int_iff (a : ℕ) {d : ℕ} (hd : 0 < d) :
    (∃ n : ℤ, (a / d : ℚ) = n) ↔ a % d = 0 := by
  have hunit : ((d : ℕ) : ℚ) ≠ 0 := by exact_mod_cast hd.ne'
  constructor
  · rintro ⟨n, hn⟩
    rw [div_eq_iff hunit] at hn
    have hint : (a : ℤ) = n * d := by exact_mod_cast hn
    exact Nat.mod_eq_zero_of_dvd (Int.natCast_dvd_natCast.mp ⟨n, by rw [hint, mul_comm]⟩)
  · intro hmod
    refine ⟨(a / d : ℕ), ?_⟩
    rw [Int.cast_natCast, Nat.cast_div (Nat.dvd_of_mod_eq_zero hmod) hunit]

/-- Both branches of `float_to_integer` split the significand at the binary point. -/
theorem split_at_point (a : BitVec 64) (shift : ℕ) :
    (if shift ≥ 64 then 0 else a >>> shift : BitVec 64).toNat = a.toNat / 2 ^ shift ∧
      (if shift ≥ 64 then a else a &&& ((1#64 <<< shift) - 1)).toNat = a.toNat % 2 ^ shift := by
  by_cases hfar : shift ≥ 64
  · have hlt : a.toNat < 2 ^ shift := a.isLt.trans_le (Nat.pow_le_pow_right (by decide) hfar)
    rw [if_pos hfar, if_pos hfar, Nat.div_eq_of_lt hlt, Nat.mod_eq_of_lt hlt]
    exact ⟨rfl, rfl⟩
  · rw [if_neg hfar, if_neg hfar]
    constructor
    · rw [BitVec.toNat_ushiftRight, Nat.shiftRight_eq_div_pow]
    · rw [bit_sub_one (not_le.mp hfar)]
      exact BitField.toNat_and_lowMask _ shift (not_le.mp hfar).le

section Magnitude

variable {raw : BitVec 32} {u : UnpackedFp32} (hu : Unpacked raw u)

include hu

/-- From 2^23 on the significand is shifted up, unless it leaves 64 bits. -/
theorem integerMagnitude_of_large (rm : RoundingMode) (hlarge : u.exponent ≥ 23) :
    ∃ n : ℕ, Binary32.magnitude raw = n ∧
      ((2 ^ 64 ≤ n ∧ integerMagnitude u rm = .ok (0, false, true)) ∨
        ∃ magnitude, magnitude.toNat = n ∧
          integerMagnitude u rm = .ok (magnitude, false, false)) := by
  obtain ⟨shift, hshift⟩ : ∃ shift : ℕ, u.exponent - 23 = shift :=
    ⟨(u.exponent - 23).toNat, by omega⟩
  have hlow := hu.low
  have hhigh := hu.high
  have hnat : (u.significand.setWidth 64 : BitVec 64).toNat = u.significand.toNat := by
    rw [BitVec.toNat_setWidth]
    omega
  refine ⟨u.significand.toNat * 2 ^ shift, ?_, ?_⟩
  · rw [hu.magnitude, hshift, zpow_natCast]
    push_cast
    rfl
  unfold integerMagnitude
  rw [if_pos hlarge, hshift, Int.toNat_natCast]
  dsimp only
  by_cases hfar : shift ≥ 64
  · refine .inl ⟨?_, if_pos (.inl hfar)⟩
    have hpow : 2 ^ 64 ≤ 2 ^ shift := Nat.pow_le_pow_right (by decide) hfar
    have hle : 1 * 2 ^ shift ≤ u.significand.toNat * 2 ^ shift :=
      Nat.mul_le_mul_right _ (by omega)
    omega
  · -- the bits that the shift would lose
    have hlost : (u.significand.setWidth 64 > BitVec.allOnes 64 >>> shift) ↔
        2 ^ 64 ≤ u.significand.toNat * 2 ^ shift := by
      rw [gt_iff_lt, BitVec.lt_def, BitVec.toNat_ushiftRight, BitVec.toNat_allOnes, hnat,
        Nat.shiftRight_eq_div_pow, Nat.div_lt_iff_lt_mul (Nat.two_pow_pos _)]
      omega
    by_cases hover : 2 ^ 64 ≤ u.significand.toNat * 2 ^ shift
    · exact .inl ⟨hover, if_pos (.inr (hlost.mpr hover))⟩
    · refine .inr ⟨_, ?_, if_neg (not_or.mpr ⟨hfar, mt hlost.mp hover⟩)⟩
      rw [BitVec.toNat_shiftLeft, hnat, Nat.shiftLeft_eq, Nat.mod_eq_of_lt (not_le.mp hover)]

/-- Below 2^23 the significand is divided, and the quotient is rounded. -/
theorem integerMagnitude_of_small (mode : Mode) (hsmall : ¬ u.exponent ≥ 23) :
    ∃ magnitude inexact, integerMagnitude u (roundingMode mode) = .ok (magnitude, inexact, false) ∧
      (magnitude.toNat : ℤ) = roundInt (mode.direction u.sign) (Binary32.magnitude raw) ∧
      (inexact = true ↔ ¬ ∃ n : ℤ, Binary32.magnitude raw = n) := by
  obtain ⟨shift, hshift⟩ : ∃ shift : ℕ, 23 - u.exponent = shift :=
    ⟨(23 - u.exponent).toNat, by omega⟩
  have hpos : 0 < shift := by omega
  have hhigh := hu.high
  have hnat : (u.significand.setWidth 64 : BitVec 64).toNat = u.significand.toNat := by
    rw [BitVec.toNat_setWidth]
    omega
  obtain ⟨a, ha⟩ : ∃ a, u.significand.toNat = a := ⟨_, rfl⟩
  have hvalue : Binary32.magnitude raw = a / 2 ^ shift := by
    rw [hu.magnitude, show u.exponent - 23 = -(shift : ℤ) by omega, zpow_neg, zpow_natCast,
      div_eq_mul_inv, ha]
  rw [ha] at hhigh hnat
  obtain ⟨hquotient, hrest⟩ := split_at_point (u.significand.setWidth 64) shift
  rw [hnat] at hquotient hrest
  generalize hmagnitude : (if shift ≥ 64 then 0 else u.significand.setWidth 64 >>> shift) =
    magnitude at hquotient
  generalize hremainder : (if shift ≥ 64 then u.significand.setWidth 64 else
    u.significand.setWidth 64 &&& ((1#64 <<< shift) - 1)) = remainder at hrest
  have hhalfway : shift < 64 → (if shift ≥ 64 then 0 else 1#64 <<< (shift - 1) : BitVec 64).toNat =
      2 ^ (shift - 1) := by
    intro h
    rw [if_neg (not_le.mpr h)]
    exact toNat_bit (by omega)
  obtain ⟨up, hup, hround⟩ := integerRoundUp_decides mode u.sign hpos hhigh hquotient hrest hhalfway
  rw [← hvalue] at hround
  have hinexact : decide (remainder ≠ 0) = true ↔ ¬ ∃ n : ℤ, Binary32.magnitude raw = n := by
    have hcast : (2 : ℚ) ^ shift = ((2 ^ shift : ℕ) : ℚ) := by
      push_cast
      rfl
    rw [hvalue, hcast, div_eq_int_iff a (Nat.two_pow_pos shift), decide_eq_true_iff, Ne,
      ← BitVec.toNat_inj, hrest]
    rfl
  have hsmaller : magnitude.toNat < 2 ^ 24 := by
    rw [hquotient]
    exact (Nat.div_le_self _ _).trans_lt hhigh
  have hroom : magnitude ≠ BitVec.allOnes 64 := by
    intro hall
    rw [hall, BitVec.toNat_allOnes] at hsmaller
    omega
  refine ⟨if up then magnitude + 1 else magnitude, decide (remainder ≠ 0), ?_, ?_, hinexact⟩
  · unfold integerMagnitude
    rw [if_neg hsmall, hshift, Int.toNat_natCast]
    dsimp only
    rw [hmagnitude, hremainder, hup]
    cases up with
    | false => rfl
    | true => exact if_neg hroom
  · rw [hround, ← hquotient]
    cases up with
    | false => simp
    | true =>
      have hnext : (magnitude + 1).toNat = magnitude.toNat + 1 :=
        Nat.mod_eq_of_lt (by rw [show (1 : BitVec 64).toNat = 1 from rfl]; omega)
      rw [if_pos rfl, if_pos rfl, hnext]
      rfl

end Magnitude

/-! ## §3. Range and encoding -/

section Encoding

variable {t : IntegerType} (hwidth : t.width = 32 ∨ t.width = 64)

include hwidth

/-- **`encode_integer_result`** negates and sign-extends. -/
theorem encodeIntegerResult_eq (sign : Bool) (magnitude : BitVec 64) :
    encodeIntegerResult sign magnitude t.width =
      t.register (if sign then -magnitude.toNat else magnitude.toNat) := by
  have hvalue (w : ℕ) (hw : w ≤ 64) :
      (if sign then 0 - magnitude else magnitude).setWidth w =
        BitVec.ofInt w (if sign then -magnitude.toNat else magnitude.toNat) := by
    cases sign with
    | false => exact (BitVec.ofNat_toNat w magnitude).symm
    | true =>
      show (0 - magnitude).setWidth w = BitVec.ofInt w (-magnitude.toNat)
      rw [BitVec.ofInt_neg, BitVec.ofInt_natCast, BitVec.ofNat_toNat,
        ← BitVec.setWidth_neg_of_le hw]
      exact congrArg _ (BitVec.zero_sub magnitude)
  unfold encodeIntegerResult IntegerType.register
  rcases hwidth with hw | hw <;> rw [hw]
  · have hsign := TwosComplement.and_signBit_ne_zero
      ((if sign then 0 - magnitude else magnitude).setWidth 32 : BitVec 32) (by decide)
    rw [← hvalue 32 (by decide), TwosComplement.signExtend_eq_or, if_neg (by decide)]
    simp only [Nat.add_one_sub_one] at hsign
    simp only [hsign]
    rfl
  · have hsame := hvalue 64 le_rfl
    rw [BitVec.setWidth_eq] at hsame
    rw [BitVec.signExtend_eq, ← hsame]
    rfl

/-- The bounds of the source. -/
theorem limits : ((signedMax t.width).toNat : ℤ) = 2 ^ (t.width - 1) - 1 ∧
    ((signedMinMagnitude t.width).toNat : ℤ) = 2 ^ (t.width - 1) ∧
    ((unsignedMax t.width).toNat : ℤ) = 2 ^ t.width - 1 := by
  rcases hwidth with hw | hw <;> rw [hw] <;> decide

/-- **`invalid_result`** is the end of the range on the side of the operand; a NaN is on
the side of the maximum. -/
theorem invalidResult_eq (nan sign : Bool) : invalidResult nan sign t.signed t.width =
    { value := t.register (if nan || !sign then t.max else t.min), flags := fpFlagNv } := by
  obtain ⟨hmax, hmin, humax⟩ := limits hwidth
  unfold invalidResult IntegerType.max IntegerType.min
  cases nan || !sign with
  | true =>
    rw [if_pos rfl, if_pos rfl, encodeIntegerResult_eq hwidth, if_neg Bool.false_ne_true]
    cases t.signed with
    | true => rw [if_pos rfl, if_pos rfl, hmax]
    | false => rw [if_neg Bool.false_ne_true, if_neg Bool.false_ne_true, humax]
  | false =>
    rw [if_neg Bool.false_ne_true, if_neg Bool.false_ne_true]
    cases t.signed with
    | true => rw [if_pos rfl, if_pos rfl, encodeIntegerResult_eq hwidth, if_pos rfl, hmin]
    | false =>
      rw [if_neg Bool.false_ne_true, if_neg Bool.false_ne_true]
      unfold IntegerType.register
      rcases hwidth with hw | hw <;> rw [hw] <;> rfl

/-- **The range check** is about the signed number. -/
theorem range_check (sign : Bool) (magnitude : BitVec 64) :
    (if t.signed then
        decide (magnitude > (if sign then signedMinMagnitude t.width else signedMax t.width))
      else (sign && decide (magnitude ≠ 0)) || decide (magnitude > unsignedMax t.width)) = true ↔
      ¬ t.Holds (if sign then -magnitude.toNat else magnitude.toNat) := by
  obtain ⟨hmax, hmin, humax⟩ := limits hwidth
  have hnonneg : (0 : ℤ) ≤ magnitude.toNat := Int.natCast_nonneg _
  have hpow (n : ℕ) : (0 : ℤ) < 2 ^ n := by positivity
  have hhalf := hpow (t.width - 1)
  have hfull := hpow t.width
  have hzero : magnitude ≠ 0 ↔ (magnitude.toNat : ℤ) ≠ 0 := by
    rw [Ne, ← BitVec.toNat_inj, Ne, Nat.cast_eq_zero]
    rfl
  have habove (limit : BitVec 64) : magnitude > limit ↔ (limit.toNat : ℤ) < magnitude.toNat := by
    rw [gt_iff_lt, BitVec.lt_def, Nat.cast_lt]
  unfold IntegerType.Holds IntegerType.min IntegerType.max
  cases t.signed <;> cases sign <;>
    simp only [Bool.false_eq_true, if_false, if_true, Bool.true_and, Bool.false_and, Bool.false_or,
      Bool.or_eq_true, decide_eq_true_iff, hzero, habove, hmax, hmin, humax] <;>
    omega

end Encoding

/-! ## §4. Conversion -/

/-- The result of a number that rounds to `n`: the integer, with NX unless the number was one,
or the end of the range on its side, with NV. -/
def Converted (t : IntegerType) (result : Except Fault FpResult) (n : ℤ) (exact : Prop)
    (negative : Bool) : Prop :=
  (t.Holds n → ∃ flags, result = .ok { value := t.register n, flags := flags } ∧
    (exact ∧ flags = 0 ∨ ¬ exact ∧ flags = fpFlagNx)) ∧
  (¬ t.Holds n → result =
    .ok { value := t.register (if negative then t.min else t.max), flags := fpFlagNv })

section Convert

variable {op : OpFpType} (hop : op ∈ integerTargets)

include hop

theorem integerTarget_eq :
    integerTarget op = .ok ((integerType op).signed, (integerType op).width) ∧
      ((integerType op).width = 32 ∨ (integerType op).width = 64) := by
  simp only [integerTargets, List.mem_cons, List.not_mem_nil, or_false] at hop
  rcases hop with rfl | rfl | rfl | rfl <;> exact ⟨rfl, by decide⟩

/-- What 64 bits do not hold is in no range. -/
theorem not_holds_of_large (sign : Bool) {n : ℤ} (h : 2 ^ 64 ≤ n) :
    ¬ (integerType op).Holds (if sign then -n else n) := by
  unfold IntegerType.Holds IntegerType.min IntegerType.max
  simp only [integerTargets, List.mem_cons, List.not_mem_nil, or_false] at hop
  rcases hop with rfl | rfl | rfl | rfl <;> cases sign <;> simp [integerType] <;> omega

section Number

variable {raw : BitVec 32} {u : UnpackedFp32} (hunpack : UnpackedFp32.ofRaw raw = .ok u)
  (hu : Unpacked raw u)

include hunpack hu

/-- The function after its special cases. -/
theorem floatToInteger_of_magnitude {rm : RoundingMode} {magnitude : BitVec 64}
    {inexact overflow : Bool} (h : integerMagnitude u rm = .ok (magnitude, inexact, overflow)) :
    floatToInteger op raw rm =
      if (if overflow then true
        else if (integerType op).signed then decide (magnitude > (if u.sign
          then signedMinMagnitude (integerType op).width else signedMax (integerType op).width))
        else (u.sign && decide (magnitude ≠ 0)) ||
          decide (magnitude > unsignedMax (integerType op).width)) = true then
        .ok { value := (integerType op).register
                (if u.sign then (integerType op).min else (integerType op).max)
              flags := fpFlagNv }
      else .ok { value := encodeIntegerResult u.sign magnitude (integerType op).width
                 flags := if inexact then fpFlagNx else 0 } := by
  obtain ⟨htarget, hwidth⟩ := integerTarget_eq hop
  obtain ⟨hnan, hinf, hzero⟩ := hu.class_facts
  have hinvalid : invalidResult false u.sign (integerType op).signed (integerType op).width =
      { value := (integerType op).register
          (if u.sign then (integerType op).min else (integerType op).max)
        flags := fpFlagNv } := by
    rw [invalidResult_eq hwidth]
    cases u.sign <;> rfl
  unfold floatToInteger
  simp only [htarget, hunpack, bind, Except.bind, pure, Except.pure, hnan, decide_eq_false hinf,
    Bool.or_self, Bool.false_eq_true, if_false, hzero, h, hinvalid]

/-- A magnitude that fits 64 bits is checked against the range. -/
theorem converted_of_magnitude {rm : RoundingMode} {magnitude : BitVec 64} {inexact : Bool}
    (h : integerMagnitude u rm = .ok (magnitude, inexact, false)) {exact : Prop}
    (hinexact : inexact = true ↔ ¬ exact) :
    Converted (integerType op) (floatToInteger op raw rm)
      (if u.sign then -magnitude.toNat else magnitude.toNat) exact u.sign := by
  obtain ⟨-, hwidth⟩ := integerTarget_eq hop
  have hcheck := range_check hwidth u.sign magnitude
  rw [floatToInteger_of_magnitude hop hunpack hu h, if_neg Bool.false_ne_true]
  constructor
  · intro hholds
    refine ⟨if inexact then fpFlagNx else 0, ?_, ?_⟩
    · rw [if_neg fun hover => hcheck.mp hover hholds, encodeIntegerResult_eq hwidth]
    · cases inexact with
      | false => exact .inl ⟨not_not.mp fun h => Bool.false_ne_true (hinexact.mpr h), rfl⟩
      | true => exact .inr ⟨hinexact.mp rfl, rfl⟩
  · intro hout
    rw [if_pos (hcheck.mpr hout)]

/-- **A number is rounded, then checked against the range.** -/
theorem floatToInteger_number (mode : Mode) :
    Converted (integerType op) (floatToInteger op raw (roundingMode mode))
      (if u.sign then -roundInt (mode.direction u.sign) (Binary32.magnitude raw)
        else roundInt (mode.direction u.sign) (Binary32.magnitude raw))
      (∃ k : ℤ, Binary32.magnitude raw = k) u.sign := by
  by_cases hlarge : u.exponent ≥ 23
  · obtain ⟨m, hm, ⟨hover, hmagnitude⟩ | ⟨magnitude, hnat, hmagnitude⟩⟩ :=
      integerMagnitude_of_large hu (roundingMode mode) hlarge
    · rw [hm, ← Int.cast_natCast, roundInt_intCast]
      have hout : ¬ (integerType op).Holds (if u.sign then -(m : ℤ) else m) :=
        not_holds_of_large hop u.sign (by exact_mod_cast hover)
      refine ⟨fun h => absurd h hout, fun _ => ?_⟩
      rw [floatToInteger_of_magnitude hop hunpack hu hmagnitude]
      rfl
    · rw [hm, ← Int.cast_natCast, roundInt_intCast, ← hnat]
      exact converted_of_magnitude hop hunpack hu hmagnitude
        (iff_of_false Bool.false_ne_true (not_not.mpr ⟨magnitude.toNat, rfl⟩))
  · obtain ⟨magnitude, inexact, hmagnitude, hnat, hinexact⟩ :=
      integerMagnitude_of_small hu mode hlarge
    rw [← hnat]
    exact converted_of_magnitude hop hunpack hu hmagnitude hinexact

end Number

/-- A zero is the integer zero. -/
theorem floatToInteger_zero {raw : BitVec 32} {u : UnpackedFp32}
    (hfin : FiniteOperand raw 0 u) (rm : RoundingMode) (negative : Bool) :
    Converted (integerType op) (floatToInteger op raw rm) 0 (∃ k : ℤ, (0 : ℚ) = k) negative := by
  obtain ⟨htarget, hwidth⟩ := integerTarget_eq hop
  have hholds : (integerType op).Holds 0 := by
    unfold IntegerType.Holds IntegerType.min IntegerType.max
    simp only [integerTargets, List.mem_cons, List.not_mem_nil, or_false] at hop
    rcases hop with rfl | rfl | rfl | rfl <;> decide
  have hregister : (integerType op).register 0 = 0 := by
    unfold IntegerType.register
    rcases hwidth with hw | hw <;> rw [hw] <;> rfl
  refine ⟨fun _ => ⟨0, ?_, .inl ⟨⟨0, rfl⟩, rfl⟩⟩, fun hout => absurd hholds hout⟩
  unfold floatToInteger
  simp only [htarget, hfin.unpack, bind, Except.bind, pure, Except.pure, hfin.zero_iff.mpr rfl,
    hregister]
  rfl

/-- A NaN or an infinity is out of range. -/
theorem floatToInteger_special {raw : BitVec 32} {u : UnpackedFp32} (hu : Operand raw u)
    (rm : RoundingMode) (h : u.fpClass.isNan = true ∨ u.fpClass = .infinity) :
    floatToInteger op raw rm =
      .ok { value := (integerType op).register (if u.fpClass.isNan || !u.sign
              then (integerType op).max else (integerType op).min)
            flags := fpFlagNv } := by
  obtain ⟨htarget, hwidth⟩ := integerTarget_eq hop
  have hspecial : (u.fpClass.isNan || decide (u.fpClass = .infinity)) = true := by
    rw [Bool.or_eq_true, decide_eq_true_iff]
    exact h
  unfold floatToInteger
  simp only [htarget, hu.unpack, bind, Except.bind, pure, Except.pure, hspecial, if_true,
    invalidResult_eq hwidth]

/-- **Conversion to an integer is correctly rounded**: the exact value is rounded first, and
the range is checked after that. -/
theorem floatToInteger_correctly_rounded (operand : BitVec 64) (mode : Mode) :
    (∀ v : ℚ, Binary32.value (operand.setWidth 32) = some v →
      Converted (integerType op) (Fpu.convert op operand (roundingMode mode)) (roundToInt mode v)
        (∃ k : ℤ, v = k) (decide (v < 0))) ∧
    (IsInfinite (operand.setWidth 32) → Fpu.convert op operand (roundingMode mode) =
      .ok { value := (integerType op).register (if Binary32.sign (operand.setWidth 32)
              then (integerType op).min else (integerType op).max)
            flags := fpFlagNv }) ∧
    (IsNaN (operand.setWidth 32) → Fpu.convert op operand (roundingMode mode) =
      .ok { value := (integerType op).register (integerType op).max, flags := fpFlagNv }) := by
  have hconvert : Fpu.convert op operand (roundingMode mode) =
      floatToInteger op (operand.setWidth 32) (roundingMode mode) := by
    simp only [integerTargets, List.mem_cons, List.not_mem_nil, or_false] at hop
    rcases hop with rfl | rfl | rfl | rfl <;> rfl
  rw [hconvert]
  generalize (operand.setWidth 32 : BitVec 32) = raw
  obtain ⟨u, hu⟩ := Operand.of_raw raw
  refine ⟨fun v hv => ?_, fun hinf => ?_, fun hnan => ?_⟩
  · have hfin := hu.finite v hv
    by_cases hv0 : v = 0
    · subst hv0
      have hround : roundToInt mode (0 : ℚ) = 0 := by
        rw [roundToInt, if_neg (lt_irrefl _), ← Int.cast_zero, roundInt_intCast]
      rw [hround]
      exact floatToInteger_zero hop hfin _ _
    · have hlu := hfin.unpacked hv0
      have hpos : 0 < Binary32.magnitude raw := by
        rw [hlu.magnitude]
        have hlow := hlu.low
        have hsig : (0 : ℚ) < u.significand.toNat := by exact_mod_cast (by omega : 0 < _)
        positivity
      have hnumber := floatToInteger_number hop hu.unpack hlu mode
      rw [Binary32.value, if_neg hlu.finite, ← hlu.sign] at hv
      obtain rfl := Option.some.inj hv
      cases hsign : u.sign with
      | false =>
        rw [hsign] at hnumber
        rw [if_neg Bool.false_ne_true, roundToInt, if_neg hpos.not_gt, decide_eq_false hpos.not_gt]
        exact hnumber
      | true =>
        have hneg : -Binary32.magnitude raw < 0 := neg_lt_zero.mpr hpos
        have hexact : (∃ k : ℤ, -Binary32.magnitude raw = k) ↔
            ∃ k : ℤ, Binary32.magnitude raw = k := by
          constructor
          · rintro ⟨k, hk⟩
            exact ⟨-k, by rw [Int.cast_neg, ← hk, neg_neg]⟩
          · rintro ⟨k, hk⟩
            exact ⟨-k, by rw [Int.cast_neg, ← hk]⟩
        rw [hsign] at hnumber
        rw [if_pos rfl, roundToInt, if_pos hneg, neg_neg, decide_eq_true hneg, hexact]
        exact hnumber
  · rw [floatToInteger_special hop hu _ (.inr (hu.infinity_iff.mpr hinf)), hu.sign,
      hu.infinity_iff.mpr hinf]
    cases Binary32.sign raw <;> rfl
  · have hclass := hu.isNan_iff.mpr hnan
    rw [floatToInteger_special hop hu _ (.inl hclass), hclass]
    rfl

end Convert

/-- 2.5 goes to the even neighbour. -/
theorem floatToInteger_correctly_rounded_tie :
    Fpu.convert .cvtWFromS 0x40200000 .rne = .ok { value := 2, flags := fpFlagNx } := by
  have hvalue : Binary32.value 0x40200000 = some (5 / 2) := by
    have hpack : (0x40200000 : BitVec 32) =
        Binary32.pack false (exponentField 1 0xa00000) (BitVec.ofNat 23 0xa00000) := by decide
    rw [hpack, value_pack_rounded false (by decide) (by decide) (by decide) (by decide)]
    norm_num
  have hfloor : ⌊(5 / 2 : ℚ)⌋ = 2 := by norm_num
  have hround : roundToInt .tiesToEven (5 / 2 : ℚ) = 2 := by
    have htie : Int.fract (5 / 2 : ℚ) = 1 / 2 := by
      rw [Int.fract, hfloor]
      norm_num
    rw [roundToInt, if_neg (by norm_num)]
    show (if Int.fract (5 / 2 : ℚ) = 1 / 2 ∧ Even ⌊(5 / 2 : ℚ)⌋ then ⌊(5 / 2 : ℚ)⌋ else _) = 2
    rw [hfloor, if_pos ⟨htie, even_two⟩]
  have hconverted := (floatToInteger_correctly_rounded
    (by decide : .cvtWFromS ∈ integerTargets) 0x40200000 .tiesToEven).1 (5 / 2) hvalue
  rw [hround] at hconverted
  obtain ⟨flags, hrun, ⟨⟨k, hk⟩, -⟩ | ⟨-, rfl⟩⟩ :=
    hconverted.1 ⟨by decide, by decide⟩
  · -- 5 would be even
    have hdouble : (5 : ℚ) = 2 * k := by linarith
    have hdouble' : (5 : ℤ) = 2 * k := by exact_mod_cast hdouble
    omega
  · exact hrun

end ZincSim
