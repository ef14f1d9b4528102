/-
  ZincSim.Fpu.Integer — conversions from and to integers.

  `integer_to_float` finds the leading bit of the magnitude and moves it to bit 26
  (`alignInteger_range`); only a zero has none.  `float_to_integer` rounds by a
  `switch` of its own, which has a case for every mode that is resolved.
-/
import ZincSim.Fpu.Multiply
import ZincSim.Fpu.Prepare

namespace ZincSim

open Rounding
open Except (returns_pure returns_bind_any returns_ite yields_ok yields_bind yields_ite)

/-! ## §1. Integer to float -/

/-- **The loop of `integer_to_float`** counts up to the leading bit. -/
theorem leadingExponent_spec (fuel : ℕ) (value : BitVec 64) (exponent : ℤ)
    (hpos : 0 < value.toNat) (hlt : value.toNat < 2 ^ fuel) :
    ∃ k : ℕ, k < fuel ∧ leadingExponent fuel value exponent = .ok (exponent + k) ∧
      2 ^ k ≤ value.toNat ∧ value.toNat < 2 ^ (k + 1) := by
  induction fuel generalizing value exponent with
  | zero =>
    rw [pow_zero] at hlt
    omega
  | succ fuel ih =>
    unfold leadingExponent
    have hone : (1 : BitVec 64).toNat = 1 := rfl
    by_cases h : value > 1
    · have hnat : 1 < value.toNat := h
      have hhalf : (value >>> 1).toNat = value.toNat / 2 := by
        rw [BitVec.toNat_ushiftRight, Nat.shiftRight_eq_div_pow, pow_one]
      rw [pow_succ] at hlt
      obtain ⟨k, hk, hrun, hlow, hhigh⟩ :=
        ih (value >>> 1) (exponent + 1) (by omega) (by omega)
      refine ⟨k + 1, by omega, ?_, ?_, ?_⟩
      · rw [if_pos h, hrun]
        push_cast
        congr 1
        ring
      · rw [pow_succ]
        omega
      · rw [pow_succ]
        omega
    · have hnat : ¬ 1 < value.toNat := h
      refine ⟨0, by omega, ?_, ?_, ?_⟩
      · rw [if_neg h, Nat.cast_zero, add_zero]
      · rw [pow_zero]
        omega
      · rw [zero_add, pow_one]
        omega

/-- `significand` of `integer_to_float`. -/
def alignInteger (magnitude : BitVec 64) (exponent : ℤ) : BitVec 64 :=
  if exponent > 26 then shiftRightJam magnitude (exponent - 26).toNat
  else magnitude <<< (26 - exponent).toNat

/-- The shift up loses nothing. -/
theorem toNat_shift_integer {magnitude : BitVec 64} {k : ℕ} (hk : k ≤ 26)
    (hhigh : magnitude.toNat < 2 ^ (k + 1)) :
    (magnitude <<< (26 - k)).toNat = magnitude.toNat * 2 ^ (26 - k) ∧
      magnitude.toNat * 2 ^ (26 - k) < 2 ^ 27 := by
  have hlt : magnitude.toNat * 2 ^ (26 - k) < 2 ^ (k + 1) * 2 ^ (26 - k) :=
    Nat.mul_lt_mul_of_pos_right hhigh (Nat.two_pow_pos _)
  rw [← pow_add, show k + 1 + (26 - k) = 27 by omega] at hlt
  rw [BitVec.toNat_shiftLeft, Nat.shiftLeft_eq, Nat.mod_eq_of_lt (by omega)]
  exact ⟨rfl, hlt⟩

theorem alignInteger_range {magnitude : BitVec 64} {k : ℕ} (hlow : 2 ^ k ≤ magnitude.toNat)
    (hhigh : magnitude.toNat < 2 ^ (k + 1)) :
    2 ^ 26 ≤ (alignInteger magnitude k).toNat ∧ (alignInteger magnitude k).toNat < 2 ^ 27 := by
  unfold alignInteger
  by_cases hk : 26 < k
  · rw [if_pos (by omega), show ((k : ℤ) - 26).toNat = k - 26 by omega]
    exact jam_range hk.le hlow hhigh
  · rw [if_neg (by omega), show (26 - (k : ℤ)).toNat = 26 - k by omega]
    obtain ⟨hshift, hlt⟩ := toNat_shift_integer (not_lt.mp hk) hhigh
    have hle : 2 ^ k * 2 ^ (26 - k) ≤ magnitude.toNat * 2 ^ (26 - k) :=
      Nat.mul_le_mul_right _ hlow
    rw [← pow_add, show k + (26 - k) = 26 by omega] at hle
    rw [hshift]
    exact ⟨hle, hlt⟩

/-- The operand of a conversion from an integer is not zero, in the width that it has. -/
def IntegerNonzero (op : OpFpType) (operand : BitVec 64) : Prop :=
  match op with
  | .cvtSToW | .cvtSToWu => operand.setWidth 32 ≠ (0 : BitVec 32)
  | .cvtSToL | .cvtSToLu => operand ≠ 0
  | _ => False

/-- The conversions from an integer. -/
def integerSources : List OpFpType := [.cvtSToW, .cvtSToWu, .cvtSToL, .cvtSToLu]

/-- The integer that an operand denotes in the type of the conversion. -/
def denotedInteger (op : OpFpType) (operand : BitVec 64) : ℤ :=
  match op with
  | .cvtSToW => (operand.setWidth 32 : BitVec 32).toInt
  | .cvtSToWu => (operand.setWidth 32 : BitVec 32).toNat
  | .cvtSToL => operand.toInt
  | .cvtSToLu => operand.toNat
  | _ => 0

theorem integerNonzero_iff {op : OpFpType} (hop : op ∈ integerSources) (operand : BitVec 64) :
    IntegerNonzero op operand ↔ denotedInteger op operand ≠ 0 := by
  simp only [integerSources, List.mem_cons, List.not_mem_nil, or_false] at hop
  have hnat {w : ℕ} (x : BitVec w) : x ≠ 0 ↔ ((x.toNat : ℕ) : ℤ) ≠ 0 := by
    rw [Ne, ← BitVec.toNat_inj, Ne, Nat.cast_eq_zero]
    rfl
  have hint {w : ℕ} (x : BitVec w) : x ≠ 0 ↔ x.toInt ≠ 0 := by
    rw [Ne, ← BitVec.toInt_inj, show (0 : BitVec w).toInt = 0 from BitVec.toInt_zero]
  rcases hop with rfl | rfl | rfl | rfl
  · exact hint _
  · exact hnat _
  · exact hint _
  · exact hnat _

/-- The source negates by the complement. -/
theorem not_add_one (operand : BitVec 64) : ~~~operand + 1 = -operand :=
  (BitVec.neg_eq_not_add operand).symm

/-- Sign and magnitude of a 32-bit operand.  The complement is cut to 32 bits again. -/
theorem signed_word (word : BitVec 32) :
    (decide ((word.setWidth 64 : BitVec 64) &&& (1#64 <<< 31) ≠ 0) = decide (word.toInt < 0)) ∧
      (if decide ((word.setWidth 64 : BitVec 64) &&& (1#64 <<< 31) ≠ 0)
        then (~~~(word.setWidth 64 : BitVec 64) + 1) &&& 0xffffffff
        else word.setWidth 64).toNat = word.toInt.natAbs := by
  have hword := word.isLt
  have hnat : (word.setWidth 64 : BitVec 64).toNat = word.toNat := by
    rw [BitVec.toNat_setWidth]
    omega
  have hbit := BitField.and_bit_eq_zero_iff_lt (word.setWidth 64 : BitVec 64) (n := 31) (by decide)
    (by omega)
  rw [hnat] at hbit
  rw [decide_eq_decide.mpr (not_congr hbit), BitVec.toInt_eq_toNat_cond]
  by_cases hsign : word.toNat < 2 ^ 31
  · rw [if_pos (by omega), decide_eq_false (not_not.mpr hsign), if_neg Bool.false_ne_true]
    refine ⟨(decide_eq_false (by omega)).symm, ?_⟩
    rw [hnat, Int.natAbs_natCast]
  · rw [if_neg (by omega), decide_eq_true hsign, if_pos rfl]
    refine ⟨(decide_eq_true (by omega)).symm, ?_⟩
    have hmask : (0xffffffff : BitVec 64) = BitVec.ofNat 64 (2 ^ 32 - 1) := rfl
    rw [not_add_one, hmask, BitVec.toNat_and, BitVec.toNat_neg, hnat, BitVec.toNat_ofNat,
      Nat.mod_eq_of_lt (a := 2 ^ 32 - 1) (by decide), Nat.and_two_pow_sub_one_eq_mod]
    omega

/-- Sign and magnitude of a 64-bit operand. -/
theorem signed_doubleword (operand : BitVec 64) :
    (decide (operand &&& (1#64 <<< 63) ≠ 0) = decide (operand.toInt < 0)) ∧
      (if decide (operand &&& (1#64 <<< 63) ≠ 0) then ~~~operand + 1 else operand).toNat =
        operand.toInt.natAbs := by
  have hoperand := operand.isLt
  have hbit := BitField.and_bit_eq_zero_iff_lt operand (n := 63) (by decide) (by omega)
  rw [decide_eq_decide.mpr (not_congr hbit), BitVec.toInt_eq_toNat_cond]
  by_cases hsign : operand.toNat < 2 ^ 63
  · rw [if_pos (by omega), decide_eq_false (not_not.mpr hsign), if_neg Bool.false_ne_true]
    refine ⟨(decide_eq_false (by omega)).symm, ?_⟩
    rw [Int.natAbs_natCast]
  · rw [if_neg (by omega), decide_eq_true hsign, if_pos rfl]
    refine ⟨(decide_eq_true (by omega)).symm, ?_⟩
    rw [not_add_one, BitVec.toNat_neg]
    omega

/-- **The operand is read as the integer that it denotes.** -/
theorem integerOperand_value {op : OpFpType} (hop : op ∈ integerSources) (operand : BitVec 64) :
    ∃ magnitude, integerOperand op operand =
        .ok (decide (denotedInteger op operand < 0), magnitude) ∧
      magnitude.toNat = (denotedInteger op operand).natAbs := by
  simp only [integerSources, List.mem_cons, List.not_mem_nil, or_false] at hop
  rcases hop with rfl | rfl | rfl | rfl
  · obtain ⟨hsign, hmagnitude⟩ := signed_word (operand.setWidth 32)
    exact ⟨_, congrArg Except.ok (Prod.ext hsign rfl), hmagnitude⟩
  · have hword := (operand.setWidth 32 : BitVec 32).isLt
    have hsign : decide (((operand.setWidth 32 : BitVec 32).toNat : ℤ) < 0) = false :=
      decide_eq_false (by omega)
    refine ⟨_, congrArg Except.ok (Prod.ext hsign.symm rfl), ?_⟩
    show (BitVec.setWidth 64 _).toNat = Int.natAbs (BitVec.toNat _)
    rw [BitVec.toNat_setWidth, Int.natAbs_natCast]
    omega
  · obtain ⟨hsign, hmagnitude⟩ := signed_doubleword operand
    exact ⟨_, congrArg Except.ok (Prod.ext hsign rfl), hmagnitude⟩
  · have hsign : decide ((operand.toNat : ℤ) < 0) = false := decide_eq_false (by omega)
    refine ⟨_, congrArg Except.ok (Prod.ext hsign.symm rfl), ?_⟩
    exact (Int.natAbs_natCast _).symm

/-- **`integer_to_float`** rounds every nonzero integer. -/
theorem integerToFloat_prepares {op : OpFpType} (hop : op ∈ integerSources)
    (operand : BitVec 64) :
    Prepares False (IntegerNonzero op operand) (integerToFloat op operand) := by
  obtain ⟨magnitude, hoperand, hvalue⟩ := integerOperand_value hop operand
  have hnonzero : magnitude ≠ 0 ↔ IntegerNonzero op operand := by
    rw [integerNonzero_iff hop, ← Int.natAbs_ne_zero, ← hvalue]
    exact not_congr BitVec.toNat_inj.symm
  by_cases h0 : magnitude = 0
  · refine (Prepares.quiet 0 fun h => hnonzero.mpr h h0).congr fun rm => ?_
    unfold integerToFloat
    rw [hoperand]
    exact if_pos h0
  · have hpos : 0 < magnitude.toNat := BitVec.toNat_pos_of_ne_zero h0
    obtain ⟨k, -, hrun, hlow, hhigh⟩ := leadingExponent_spec 64 magnitude 0 hpos magnitude.isLt
    rw [zero_add] at hrun
    obtain ⟨hlow', hhigh'⟩ := alignInteger_range hlow hhigh
    refine (Prepares.round (decide (denotedInteger op operand < 0)) k (alignInteger magnitude k)
      (by omega) (by omega) (hnonzero.mp h0)).congr fun rm => ?_
    unfold integerToFloat
    simp only [hoperand, bind, Except.bind, h0, hrun, if_false]
    rfl

/-! ## §2. Float to integer -/

/-- The conversions to an integer. -/
def integerTargets : List OpFpType := [.cvtWFromS, .cvtWuFromS, .cvtLFromS, .cvtLuFromS]

/-- **The flags of `float_to_integer`**: none, NX or NV. -/
theorem floatToInteger_flags (op : OpFpType) (raw : BitVec 32) (rm : RoundingMode) :
    (floatToInteger op raw rm).Returns fun result =>
      result.flags = 0 ∨ result.flags = fpFlagNx ∨ result.flags = fpFlagNv := by
  have hinvalid (nan sign : Bool) (target : Bool × ℕ) :
      (invalidResult nan sign target.1 target.2).flags = fpFlagNv := by
    unfold invalidResult
    split <;> rfl
  unfold floatToInteger
  refine returns_bind_any fun target => returns_bind_any fun operand => ?_
  refine returns_ite (fun _ => returns_pure (.inr (.inr (hinvalid _ _ _)))) fun _ => ?_
  refine returns_ite (fun _ => returns_pure (.inl rfl)) fun _ => ?_
  refine returns_bind_any fun magnitude => ?_
  refine returns_ite (fun _ => returns_pure (.inr (.inr (hinvalid _ _ _)))) fun _ => ?_
  refine returns_pure ?_
  dsimp only
  split
  · exact .inr (.inl rfl)
  · exact .inl rfl

section FloatToInteger

variable {rm : RoundingMode} (hrm : rm ≠ .dynamic)

include hrm

/-- The `switch (rm)` refuses nothing but the dynamic mode. -/
theorem integerRoundUp_yields (sign inexact : Bool) (shift : ℕ)
    (magnitude remainder halfway : BitVec 64) :
    (integerRoundUp rm sign inexact shift magnitude remainder halfway).Yields fun _ => True := by
  cases rm with
  | dynamic => exact absurd rfl hrm
  | _ => exact yields_ok trivial

theorem integerMagnitude_yields (operand : UnpackedFp32) :
    (integerMagnitude operand rm).Yields fun _ => True := by
  unfold integerMagnitude
  refine yields_ite (fun _ => yields_ite (fun _ => yields_ok trivial) fun _ => yields_ok trivial)
    fun _ => ?_
  refine yields_bind (integerRoundUp_yields hrm _ _ _ _ _ _) fun up _ => ?_
  exact yields_ite (fun _ => yields_ite (fun _ => yields_ok trivial) fun _ => yields_ok trivial)
    fun _ => yields_ok trivial

/-- **`float_to_integer` returns** under every mode that is resolved. -/
theorem floatToInteger_yields {op : OpFpType} (hop : op ∈ integerTargets) (raw : BitVec 32) :
    (floatToInteger op raw rm).Yields fun _ => True := by
  have htarget : (integerTarget op).Yields fun _ => True := by
    simp only [integerTargets, List.mem_cons, List.not_mem_nil, or_false] at hop
    rcases hop with rfl | rfl | rfl | rfl <;> exact yields_ok trivial
  have hunpack : (UnpackedFp32.ofRaw raw).Yields fun _ => True := by
    obtain ⟨u, hu⟩ := Operand.of_raw raw
    exact ⟨u, hu.unpack, trivial⟩
  unfold floatToInteger
  refine yields_bind htarget fun target _ => yields_bind hunpack fun operand _ => ?_
  refine yields_ite (fun _ => yields_ok trivial) fun _ => ?_
  refine yields_ite (fun _ => yields_ok trivial) fun _ => ?_
  refine yields_bind (integerMagnitude_yields hrm operand) fun magnitude _ => ?_
  exact yields_ite (fun _ => yields_ok trivial) fun _ => yields_ok trivial

end FloatToInteger

end ZincSim
