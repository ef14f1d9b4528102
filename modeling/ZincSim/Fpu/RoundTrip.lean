/-
  ZincSim.Fpu.RoundTrip — conversions and operations that undo each other.

  A conversion that raises no flag loses nothing, so converting back restores the operand:
  from an integer through a float, and from a float through an integer.  The square root of
  a rounded square is the operand again, and a difference that is not larger than its
  operands is exact.
-/
import ZincSim.Fpu.FromInteger
import ZincSim.Fpu.ToInteger
import ZincSim.Fpu.CorrectlyRounded
import ZincSim.Lib.NearRounding

namespace ZincSim

open Rounding
open Binary32 (Datum StandsFor Overflows datum largest roundReal ulpExponent)

/-! ## §1. Representable numbers -/

/-- The format has a word for what is on the grid of its size and in range. -/
theorem standsFor_of_onGrid {x : ℝ} (h : OnGrid (ulpExponent x) x) (hx : |x| ≤ largest) :
    ∃ w, StandsFor w x := by
  rcases eq_or_ne x 0 with rfl | hne
  · exact ⟨0, 0, (Binary32.value_eq_zero_iff 0).mpr (by decide), Rat.cast_zero⟩
  · -- the word that rounding in any mode packs
    obtain ⟨s, m, hm, rfl⟩ : ∃ s m, 0 < m ∧ x = signed s m := by
      rcases lt_or_gt_of_ne hne with hneg | hpos
      · exact ⟨true, -x, neg_pos.mpr hneg, (neg_neg x).symm⟩
      · exact ⟨false, x, hpos, rfl⟩
    obtain ⟨word, flags, -, hdelivers⟩ :=
      delivered_of_packed hm (rfl : Except.ok (packExact s .tiesToEven m) = _)
    have hword := (hdelivers.encodes.1 (Binary32.not_overflows_of_abs_le .tiesToEven hx)).2
    rw [Binary32.roundReal_of_onGrid .tiesToEven h] at hword
    exact ⟨word, hword⟩

/-- Integers of 24 bits, and the next one, are representable. -/
theorem standsFor_of_natAbs_le {n : ℤ} (hn : n.natAbs ≤ 2 ^ 24) : ∃ w, StandsFor w (n : ℝ) := by
  have habs : |(n : ℝ)| ≤ 2 ^ 24 := by
    rw [← Int.cast_abs, Int.abs_eq_natAbs]
    exact_mod_cast hn
  have hgrid : OnGrid (ulpExponent (n : ℝ)) (n : ℝ) := by
    rcases habs.lt_or_eq with hlt | heq
    · refine Binary32.onGrid_of_digits (g := 0) (by norm_num) ⟨n, ?_⟩ ?_
      · rw [zpow_zero, mul_one]
      · exact hlt.trans_eq (by norm_num)
    · -- the next one is a power of two
      have htwo : OnGrid 1 (2 ^ 24 : ℝ) := ⟨2 ^ 23, by norm_num⟩
      have hone : OnGrid 1 (n : ℝ) := by
        rcases eq_or_eq_neg_of_abs_eq heq with h | h <;> rw [h]
        · exact htwo
        · exact htwo.neg
      refine Binary32.onGrid_of_digits (g := 1) (by norm_num) hone ?_
      rw [heq]
      norm_num
  refine standsFor_of_onGrid hgrid (habs.trans ?_)
  rw [largest]
  norm_num

/-! ## §2. Integers -/

/-- The conversion back to the type of integers that a conversion comes from. -/
def opposite : OpFpType → OpFpType
  | .cvtSToW => .cvtWFromS
  | .cvtSToWu => .cvtWuFromS
  | .cvtSToL => .cvtLFromS
  | _ => .cvtLuFromS

/-- The operand as a conversion to its type leaves it in a register: one of 32 bits is
sign-extended. -/
def operandRegister (op : OpFpType) (operand : BitVec 64) : BitVec 64 :=
  match op with
  | .cvtSToW | .cvtSToWu => (operand.setWidth 32 : BitVec 32).signExtend 64
  | _ => operand

section Types

variable {op : OpFpType} (hop : op ∈ integerSources)

include hop

theorem opposite_mem : opposite op ∈ integerTargets := by
  simp only [integerSources, List.mem_cons, List.not_mem_nil, or_false] at hop
  rcases hop with rfl | rfl | rfl | rfl <;> decide

/-- The type holds what its operands denote, and the register is the operand again. -/
theorem register_denotedInteger (operand : BitVec 64) :
    (integerType (opposite op)).Holds (denotedInteger op operand) ∧
      (integerType (opposite op)).register (denotedInteger op operand) =
        operandRegister op operand := by
  simp only [integerSources, List.mem_cons, List.not_mem_nil, or_false] at hop
  unfold IntegerType.Holds IntegerType.min IntegerType.max IntegerType.register
  rcases hop with rfl | rfl | rfl | rfl <;>
    simp only [opposite, integerType, denotedInteger, operandRegister, if_true,
      Bool.false_eq_true, if_false]
  · refine ⟨⟨BitVec.le_toInt _, Int.le_sub_one_of_lt (BitVec.toInt_lt)⟩, ?_⟩
    rw [BitVec.ofInt_toInt]
  · have hlt := (operand.setWidth 32 : BitVec 32).isLt
    refine ⟨⟨Int.natCast_nonneg _, by omega⟩, ?_⟩
    rw [BitVec.ofInt_natCast, BitVec.ofNat_toNat, BitVec.setWidth_eq]
  · refine ⟨⟨BitVec.le_toInt _, Int.le_sub_one_of_lt (BitVec.toInt_lt)⟩, ?_⟩
    rw [BitVec.ofInt_toInt, BitVec.signExtend_eq]
  · have hlt := operand.isLt
    refine ⟨⟨Int.natCast_nonneg _, by omega⟩, ?_⟩
    rw [BitVec.ofInt_natCast, BitVec.ofNat_toNat, BitVec.setWidth_eq, BitVec.signExtend_eq]

/-- A register denotes the integer that the type put there. -/
theorem denotedInteger_register {n : ℤ} (hn : (integerType (opposite op)).Holds n) :
    denotedInteger op ((integerType (opposite op)).register n) = n := by
  simp only [integerSources, List.mem_cons, List.not_mem_nil, or_false] at hop
  unfold IntegerType.Holds IntegerType.min IntegerType.max at hn
  unfold IntegerType.register
  have hcut (word : BitVec 32) : ((word.signExtend 64).setWidth 32 : BitVec 32) = word :=
    TwosComplement.setWidth_signExtend word (by decide)
  rcases hop with rfl | rfl | rfl | rfl <;>
    simp only [opposite, integerType, denotedInteger, if_true, Bool.false_eq_true,
      if_false] at hn ⊢
  · rw [hcut, BitVec.toInt_ofInt, Int.bmod_eq_of_le (by omega) (by omega)]
  · rw [hcut, BitVec.toNat_ofInt, Int.toNat_of_nonneg (by omega)]
    omega
  · rw [BitVec.signExtend_eq, BitVec.toInt_ofInt, Int.bmod_eq_of_le (by omega) (by omega)]
  · rw [BitVec.signExtend_eq, BitVec.toNat_ofInt, Int.toNat_of_nonneg (by omega)]
    omega

end Types

/-! ## §3. Exact conversions -/

/-- **A representable integer is converted exactly**, and no other without a flag. -/
theorem integerToFloat_exact {op : OpFpType} (hop : op ∈ integerSources) (operand : BitVec 64)
    (mode : Mode) : ∃ word flags,
      integerToFloat op operand (roundingMode mode) = .ok (.ofWord word flags) ∧
      ((∃ w, StandsFor w (denotedInteger op operand)) ∧ flags = 0 ∧
          Binary32.value word = some (denotedInteger op operand : ℚ) ∧
          Binary32.sign word = decide (denotedInteger op operand < 0) ∨
        ¬ (∃ w, StandsFor w (denotedInteger op operand)) ∧ flags ≠ 0) := by
  have hvalue {word : BitVec 32} {n : ℤ} (h : StandsFor word (n : ℝ)) :
      Binary32.value word = some (n : ℚ) := by
    obtain ⟨v, hv, hvn⟩ := h
    rw [hv, show v = n by exact_mod_cast hvn]
  by_cases hzero : denotedInteger op operand = 0
  · have hstands : StandsFor 0 ((0 : ℤ) : ℝ) :=
      ⟨0, (Binary32.value_eq_zero_iff 0).mpr (by decide), by simp⟩
    rw [integerToFloat_zero hop operand _ hzero, hzero]
    exact ⟨0, 0, rfl, .inl ⟨⟨0, hstands⟩, rfl, hvalue hstands, by decide⟩⟩
  · obtain ⟨hrange, hrun⟩ := integerToFloat_rounds hop operand mode hzero
    obtain ⟨word, flags, hok, hsign, hstands, hflags⟩ := delivered_in_range hrange hrun
    rw [signed_natAbs] at hstands hflags
    refine ⟨word, flags, hok, ?_⟩
    rcases hflags with ⟨⟨w, hw⟩, hzero⟩ | ⟨hno, hnx⟩
    · rw [(roundReal_of_standsFor hw mode).1] at hstands
      exact .inl ⟨⟨w, hw⟩, hzero, hvalue hstands, hsign⟩
    · exact .inr ⟨hno, hnx ▸ by decide⟩

/-- **The word of an integer in range is converted to it**, without a flag. -/
theorem floatToInteger_of_integer {op : OpFpType} (hop : op ∈ integerTargets) {raw : BitVec 32}
    {n : ℤ} (hv : Binary32.value raw = some (n : ℚ)) (hn : (integerType op).Holds n)
    (mode : Mode) : floatToInteger op raw (roundingMode mode) =
      .ok { value := (integerType op).register n, flags := 0 } := by
  obtain ⟨u, hu⟩ := Operand.of_raw raw
  have hfin := hu.finite _ hv
  by_cases h0 : n = 0
  · subst h0
    rw [Int.cast_zero] at hfin
    obtain ⟨flags, hrun, hflags⟩ := (floatToInteger_zero hop hfin (roundingMode mode) false).1 hn
    rcases hflags with ⟨-, rfl⟩ | ⟨hno, -⟩
    · exact hrun
    · exact absurd ⟨0, rfl⟩ hno
  · have hlu := hfin.unpacked (by exact_mod_cast h0)
    -- the magnitude is an integer, which no direction moves
    have hmagnitude : Binary32.magnitude raw = ((if u.sign then -n else n : ℤ) : ℚ) := by
      rw [Binary32.value, if_neg hlu.finite, ← hlu.sign] at hv
      have hsigned := Option.some.inj hv
      cases hs : u.sign with
      | false =>
        rw [hs, if_neg Bool.false_ne_true] at hsigned
        rw [hsigned, if_neg Bool.false_ne_true]
      | true =>
        rw [hs, if_pos rfl] at hsigned
        rw [if_pos rfl, Int.cast_neg, ← hsigned, neg_neg]
    have hnumber := floatToInteger_number hop hu.unpack hlu mode
    rw [hmagnitude, roundInt_intCast] at hnumber
    have hinteger : (if u.sign then -(if u.sign then -n else n) else if u.sign then -n else n) =
        n := by
      cases u.sign with
      | false => rfl
      | true => exact neg_neg n
    rw [hinteger] at hnumber
    obtain ⟨flags, hrun, hflags⟩ := hnumber.1 hn
    rcases hflags with ⟨-, rfl⟩ | ⟨hno, -⟩
    · exact hrun
    · exact absurd ⟨_, rfl⟩ hno

/-- What is converted without a flag is an integer of the type. -/
theorem integer_of_floatToInteger {op : OpFpType} (hop : op ∈ integerTargets) {raw : BitVec 32}
    {mode : Mode} {r : FpResult} (hrun : floatToInteger op raw (roundingMode mode) = .ok r)
    (hexact : r.flags = 0) :
    ∃ n : ℤ, Binary32.value raw = some (n : ℚ) ∧ (integerType op).Holds n ∧
      r.value = (integerType op).register n := by
  obtain ⟨u, hu⟩ := Operand.of_raw raw
  have hnv : fpFlagNv ≠ 0 := by decide
  rcases hu.cases with hnan | hinf | ⟨v, hv, hfin⟩
  · rw [floatToInteger_special hop hu _ (.inl (hu.isNan_iff.mpr hnan))] at hrun
    cases hrun
    exact absurd hexact hnv
  · rw [floatToInteger_special hop hu _ (.inr (hu.infinity_iff.mpr hinf))] at hrun
    cases hrun
    exact absurd hexact hnv
  · -- the integer that the number rounds to, which is the number
    obtain ⟨n, hconverted, hinteger⟩ : ∃ n, Converted (integerType op)
        (floatToInteger op raw (roundingMode mode)) n (∃ k : ℤ, Binary32.magnitude raw = k)
          u.sign ∧ ((∃ k : ℤ, Binary32.magnitude raw = k) → v = (n : ℚ)) := by
      by_cases hv0 : v = 0
      · subst hv0
        have hzero := floatToInteger_zero hop hfin (roundingMode mode) u.sign
        have hmagnitude : Binary32.magnitude raw = 0 :=
          (Binary32.magnitude_eq_zero_iff raw).mpr ((Binary32.value_eq_zero_iff raw).mp hv)
        rw [hmagnitude]
        exact ⟨0, hzero, fun _ => Int.cast_zero.symm⟩
      · have hlu := hfin.unpacked hv0
        refine ⟨_, floatToInteger_number hop hu.unpack hlu mode, ?_⟩
        rintro ⟨k, hk⟩
        rw [Binary32.value, if_neg hlu.finite, ← hlu.sign, hk] at hv
        rw [hk, roundInt_intCast, ← Option.some.inj hv]
        cases u.sign with
        | false => rfl
        | true => exact (Int.cast_neg k).symm
    by_cases hn : (integerType op).Holds n
    · obtain ⟨flags, hok, hflags⟩ := hconverted.1 hn
      obtain rfl := Except.ok.inj (hok.symm.trans hrun)
      rcases hflags with ⟨hexact', -⟩ | ⟨-, hnx⟩
      · exact ⟨n, hinteger hexact' ▸ hv, hn, rfl⟩
      · rw [show flags = 0 from hexact] at hnx
        exact absurd hnx (by decide)
    · obtain rfl := Except.ok.inj ((hconverted.2 hn).symm.trans hrun)
      exact absurd hexact hnv

/-! ## §4. Round trips -/

section RoundTrip

variable {source : OpFpType} (hs : source ∈ integerSources)

include hs

theorem convert_opposite (operand : BitVec 64) (rm : RoundingMode) :
    Fpu.convert (opposite source) operand rm =
      floatToInteger (opposite source) (operand.setWidth 32) rm := by
  simp only [integerSources, List.mem_cons, List.not_mem_nil, or_false] at hs
  rcases hs with rfl | rfl | rfl | rfl <;> rfl

/-- **An integer that becomes a float without a flag comes back**, in any two modes; the ones
of 24 bits all do. -/
theorem integer_round_trip (operand : BitVec 64) (mode mode' : Mode) {r : FpResult}
    (hrun : Fpu.convert source operand (roundingMode mode) = .ok r)
    (hexact : r.flags = 0 ∨ (denotedInteger source operand).natAbs ≤ 2 ^ 24) :
    Fpu.convert (opposite source) r.value (roundingMode mode') =
      .ok { value := operandRegister source operand, flags := 0 } := by
  obtain ⟨hholds, hregister⟩ := register_denotedInteger hs operand
  obtain ⟨word, flags, hok, hcases⟩ := integerToFloat_exact hs operand mode
  rw [convert_source hs, hok] at hrun
  obtain rfl := Except.ok.inj hrun
  have hvalue : Binary32.value word = some (denotedInteger source operand : ℚ) := by
    rcases hcases with ⟨-, -, hvalue, -⟩ | ⟨hno, hflags⟩
    · exact hvalue
    · rcases hexact with hzero | hsmall
      · exact absurd hzero hflags
      · exact absurd (standsFor_of_natAbs_le hsmall) hno
  have hword : (FpResult.ofWord word flags).value.setWidth 32 = word :=
    FpResult.word_ofWord word flags
  rw [convert_opposite hs, hword, floatToInteger_of_integer (opposite_mem hs) hvalue hholds,
    hregister]

/-- **A float that becomes an integer without a flag comes back**, in any two modes; a zero
loses its sign. -/
theorem float_round_trip (operand : BitVec 64) (mode mode' : Mode) {r : FpResult}
    (hrun : Fpu.convert (opposite source) operand (roundingMode mode) = .ok r)
    (hexact : r.flags = 0) :
    Fpu.convert source r.value (roundingMode mode') =
      .ok (.ofWord (if Binary32.value (operand.setWidth 32) = some 0 then 0
        else operand.setWidth 32) 0) := by
  rw [convert_opposite hs] at hrun
  generalize (operand.setWidth 32 : BitVec 32) = raw at hrun ⊢
  obtain ⟨n, hv, hholds, hvalue⟩ := integer_of_floatToInteger (opposite_mem hs) hrun hexact
  obtain ⟨word, flags, hok, hcases⟩ := integerToFloat_exact hs r.value mode'
  rw [hvalue, denotedInteger_register hs hholds] at hcases
  have hstands : StandsFor raw (n : ℝ) := ⟨n, hv, Rat.cast_intCast n⟩
  rcases hcases with ⟨-, rfl, hword, hsign⟩ | ⟨hno, -⟩
  · have hstands' : StandsFor word (n : ℝ) := ⟨n, hword, Rat.cast_intCast n⟩
    rw [convert_source hs, hok]
    split
    next hzero =>
      have hn : n = 0 := by exact_mod_cast Option.some.inj (hv.symm.trans hzero)
      subst hn
      rw [Binary32.eq_of_standsFor (q := 0) hsign hstands'
        ⟨0, (Binary32.value_eq_zero_iff 0).mpr (by decide), by simp⟩]
    next hnonzero =>
      have hn : (n : ℝ) ≠ 0 := by
        intro h0
        rw [hv, show n = 0 by exact_mod_cast h0, Int.cast_zero] at hnonzero
        exact hnonzero rfl
      have hraw := Binary32.wellSigned_datum raw
      rw [Binary32.datum_of_value hv, Rat.cast_intCast] at hraw
      have hsame : Binary32.sign word = Binary32.sign raw := by
        rw [hsign, Bool.eq_iff_iff, decide_eq_true_iff, hraw hn, Int.cast_lt_zero]
      rw [Binary32.eq_of_standsFor hsame hstands' hstands]
  · exact absurd ⟨raw, hstands⟩ hno

end RoundTrip

/-- The integer -5 through a float. -/
theorem integer_round_trip_negative :
    Fpu.convert .cvtWFromS 0xc0a00000 .rtz = .ok { value := -5, flags := 0 } :=
  @integer_round_trip .cvtSToW (by decide) (-5) .tiesToEven .towardZero (.ofWord 0xc0a00000 0)
    (by decide) (.inl rfl)

/-- 5.0 through an integer. -/
theorem float_round_trip_five :
    Fpu.convert .cvtSToLu 5 .rne = .ok (.ofWord 0x40a00000 0) := by
  have hback := @float_round_trip .cvtSToLu (by decide) 0x40a00000 .towardZero .tiesToEven
    { value := 5, flags := 0 } (by decide) rfl
  have hnonzero : ¬ Binary32.value ((0x40a00000 : BitVec 64).setWidth 32) = some 0 := by
    rw [Binary32.value_eq_zero_iff]
    decide
  rw [if_neg hnonzero] at hback
  exact hback

/-! ## §5. Differences -/

/-- The exceptions are clear when each of the five is. -/
theorem flags_clear {flags : BitVec 32} (hnv : ¬ flags &&& fpFlagNv ≠ 0)
    (hdz : flags &&& fpFlagDz = 0) (hof : ¬ flags &&& fpFlagOf ≠ 0)
    (huf : flags &&& fpFlagUf = 0) (hnx : ¬ flags &&& fpFlagNx ≠ 0) : flags &&& 0x1f = 0 := by
  have hsplit : (0x1f : BitVec 32) =
      fpFlagNv ||| fpFlagDz ||| fpFlagOf ||| fpFlagUf ||| fpFlagNx := by decide
  rw [hsplit, BitVec.and_or_distrib_left, BitVec.and_or_distrib_left, BitVec.and_or_distrib_left,
    BitVec.and_or_distrib_left, not_not.mp hnv, hdz, not_not.mp hof, huf, not_not.mp hnx]
  rfl

/-- **A difference that is not larger than its operands is exact**, in every mode and without
a flag; so it is when the operands have one sign and neither is more than twice the other. -/
theorem difference_exact {a b : BitVec 32} {x y : ℚ} (hx : Binary32.value a = some x)
    (hy : Binary32.value b = some y) (hleft : |x - y| ≤ |x|) (hright : |x - y| ≤ |y|)
    (mode : Mode) : ∃ r, Fpu.binary .sub a b (roundingMode mode) = .ok r ∧
      Binary32.value r.word = some (x - y) ∧ r.flags &&& 0x1f = 0 := by
  have hsx : StandsFor a (x : ℝ) := ⟨x, hx, rfl⟩
  have hsy : StandsFor b (y : ℝ) := ⟨y, hy, rfl⟩
  have hgrid := Binary32.onGrid_sub hsx hsy (by exact_mod_cast hleft) (by exact_mod_cast hright)
  have hround := Binary32.roundReal_of_onGrid mode hgrid
  -- it is in range, as the operand is
  have hover : ¬ Overflows mode ((x : ℝ) - y) := by
    obtain ⟨hxround, hxover⟩ := roundReal_of_standsFor hsx mode
    rw [Overflows, hxround, not_lt] at hxover
    refine Binary32.not_overflows_of_abs_le mode (le_trans ?_ hxover)
    exact_mod_cast hleft
  obtain ⟨word, flags, hrun, hdelivers⟩ := addOrSub_delivered a b true mode
  have hunder := addOrSub_no_underflow a b true mode _ hrun
  rw [Binary32.datum_of_value hx, Binary32.datum_of_value hy, Datum.negIf_finite, if_pos rfl,
    Datum.add, ← sub_eq_add_neg] at hdelivers
  have hword : StandsFor word ((x : ℝ) - y) := hround ▸ (hdelivers.encodes.1 hover).2
  refine ⟨_, hrun, ?_, flags_clear ?_ hunder.2 ?_ hunder.1 ?_⟩
  · obtain ⟨v, hv, hvxy⟩ := hword
    rw [FpResult.word_ofWord, hv, show v = x - y by exact_mod_cast hvxy]
  · exact mt hdelivers.invalid.mp Datum.noConfusion
  · refine mt hdelivers.overflow.mp ?_
    rintro ⟨s, z, hd, hz⟩
    cases hd
    exact hover hz
  · refine mt hdelivers.inexact.mp ?_
    rintro ⟨s, z, hd, hz⟩
    cases hd
    exact hz hword

/-- The smallest number less its double. -/
theorem difference_exact_smallest : ∃ r, Fpu.binary .sub 1 2 .rdn = .ok r ∧
    Binary32.value r.word = some (2 ^ (-149 : ℤ) - 2 * 2 ^ (-149 : ℤ)) ∧ r.flags &&& 0x1f = 0 := by
  have hvalue {raw : BitVec 32} (hsign : Binary32.sign raw = false)
      (hexponent : Binary32.exponent raw = 0) : Binary32.value raw =
        some (((Binary32.fraction raw).toNat : ℚ) * 2 ^ (-149 : ℤ)) := by
    rw [Binary32.value, hexponent, if_neg (by decide), hsign, if_neg Bool.false_ne_true,
      Binary32.magnitude, if_pos hexponent]
  have hone := @hvalue 1 (by decide) (by decide)
  have htwo := @hvalue 2 (by decide) (by decide)
  rw [show (Binary32.fraction 1).toNat = 1 by decide, Nat.cast_one, one_mul] at hone
  rw [show (Binary32.fraction 2).toNat = 2 by decide] at htwo
  exact difference_exact hone htwo (by norm_num) (by norm_num) .towardNegative

/-! ## §6. Squares -/

/-- Clearing the sign bit makes the magnitude. -/
theorem standsFor_magnitudeMask {a : BitVec 32} (hfinite : Binary32.exponent a ≠ 255) :
    Binary32.sign (a &&& fp32MagnitudeMask) = false ∧
      StandsFor (a &&& fp32MagnitudeMask) ((Binary32.magnitude a : ℚ) : ℝ) := by
  have hpack := masked_eq_pack a false
  rw [show signBits false = 0#32 from rfl, BitVec.or_zero] at hpack
  rw [hpack, Binary32.sign_pack]
  refine ⟨rfl, _, ?_, rfl⟩
  rw [Binary32.value, Binary32.exponent_pack, if_neg hfinite, Binary32.sign_pack,
    if_neg Bool.false_ne_true, Binary32.magnitude, Binary32.magnitude, Binary32.exponent_pack,
    Binary32.fraction_pack]

/-- An operand whose square is normal, in units of its last place. -/
theorem magnitude_units {a : BitVec 32} (hlow : 64 ≤ (Binary32.exponent a).toNat)
    (hhigh : (Binary32.exponent a).toNat ≤ 190) :
    ∃ (q : ℕ) (g : ℤ), (2 ^ 23 ≤ q ∧ q < 2 ^ 24) ∧ (-86 ≤ g ∧ g ≤ 40) ∧
      ((Binary32.magnitude a : ℚ) : ℝ) = q * 2 ^ g := by
  have hnormal : Binary32.exponent a ≠ 0 := by
    intro h
    rw [h] at hlow
    exact absurd hlow (by decide)
  have hf := (Binary32.fraction a).isLt
  refine ⟨2 ^ 23 + (Binary32.fraction a).toNat, (Binary32.exponent a).toNat - 150, by omega,
    by omega, ?_⟩
  rw [Binary32.magnitude, if_neg hnormal]
  push_cast
  norm_num

/-- The number and its square are in range. -/
theorem square_le_largest {q : ℕ} {g : ℤ} (hq : q < 2 ^ 24) (hg : g ≤ 40) :
    |(q : ℝ) * 2 ^ g| ≤ largest ∧ |(q : ℝ) * 2 ^ g * (q * 2 ^ g)| ≤ largest := by
  have hx : (0 : ℝ) ≤ (q : ℝ) * 2 ^ g := by positivity
  have hunit : (2 : ℝ) ^ g ≤ 2 ^ (40 : ℤ) := zpow_le_zpow_right₀ (by norm_num) hg
  have hdigits : (q : ℝ) ≤ 2 ^ 24 - 1 := by
    rw [le_sub_iff_add_le]
    exact_mod_cast (by omega : q + 1 ≤ 2 ^ 24)
  have hbound : (q : ℝ) * 2 ^ g ≤ (2 ^ 24 - 1) * 2 ^ (40 : ℤ) :=
    mul_le_mul hdigits hunit (by positivity) (by norm_num)
  rw [abs_of_nonneg hx, abs_of_nonneg (mul_nonneg hx hx)]
  constructor
  · refine hbound.trans ?_
    rw [largest]
    norm_num
  · refine (mul_le_mul hbound hbound hx (by positivity)).trans ?_
    rw [largest]
    norm_num

/-- The product of a finite operand with itself. -/
theorem datum_mul_self {a : BitVec 32} (hfinite : Binary32.exponent a ≠ 255) :
    (datum a).mul (datum a) =
      .finite false ((Binary32.magnitude a : ℚ) * (Binary32.magnitude a : ℚ) : ℝ) := by
  have hvalue : Binary32.value a =
      some (if Binary32.sign a then -Binary32.magnitude a else Binary32.magnitude a) :=
    if_neg hfinite
  rw [Binary32.datum_of_value hvalue, Datum.mul, Bool.xor_self]
  congr 1
  cases Binary32.sign a <;> simp

/-- **The root of a square is the magnitude of the operand**, in the two modes that round to
nearest, when the square is in the normal range. -/
theorem square_root_of_square {a : BitVec 32} (hlow : 64 ≤ (Binary32.exponent a).toNat)
    (hhigh : (Binary32.exponent a).toNat ≤ 190) {mode mode' : Mode}
    (hmode : Binary32.Nearest mode) (hmode' : Binary32.Nearest mode') :
    ∃ square root, Fpu.binary .mul a a (roundingMode mode) = .ok square ∧
      Fpu.unary .sqrt square.word (roundingMode mode') = .ok root ∧
      root.word = a &&& fp32MagnitudeMask := by
  have hfinite : Binary32.exponent a ≠ 255 := by
    intro h
    rw [h] at hhigh
    exact absurd hhigh (by decide)
  obtain ⟨q, g, ⟨hq, hq'⟩, ⟨hg, hg'⟩, hmagnitude⟩ := magnitude_units hlow hhigh
  obtain ⟨hrange, hrange'⟩ := square_le_largest hq' hg'
  have hx : (0 : ℝ) ≤ (q : ℝ) * 2 ^ g := by positivity
  -- the square
  obtain ⟨square, flags, hmul, hdelivers⟩ := multiply_delivered a a mode
  rw [datum_mul_self hfinite, hmagnitude] at hdelivers
  obtain ⟨hsign, v, hv, hvy⟩ :=
    hdelivers.encodes.1 (Binary32.not_overflows_of_abs_le mode hrange')
  have hnonneg : ¬ (v : ℝ) < 0 := by
    rw [hvy, Binary32.roundReal_of_nonneg mode (mul_nonneg hx hx), not_lt]
    exact Binary32.roundMagnitude_nonneg _ (mul_nonneg hx hx)
  -- its root
  have hroot := Binary32.roundReal_sqrt_square hq' hg hq hmode hmode'
  obtain ⟨root, flags', hsqrt, hdelivers'⟩ := squareRoot_delivered square mode'
  rw [Binary32.datum_of_value hv, Datum.sqrt, if_neg hnonneg, hvy, hsign] at hdelivers'
  have hover : ¬ Overflows mode' √(roundReal mode ((q : ℝ) * 2 ^ g * (q * 2 ^ g))) := by
    rw [Overflows, hroot]
    exact not_lt.mpr hrange
  obtain ⟨hsign', hstands⟩ := hdelivers'.encodes.1 hover
  obtain ⟨hclear, hmasked⟩ := standsFor_magnitudeMask hfinite
  rw [hroot] at hstands
  rw [hmagnitude] at hmasked
  refine ⟨_, .ofWord root flags', hmul, ?_, ?_⟩
  · rw [FpResult.word_ofWord]
    exact hsqrt
  · rw [FpResult.word_ofWord]
    exact Binary32.eq_of_standsFor (hsign'.trans hclear.symm) hstands hmasked

/-- The number -3.0. -/
theorem square_root_of_square_negative :
    ∃ square root, Fpu.binary .mul 0xc0400000 0xc0400000 .rne = .ok square ∧
      Fpu.unary .sqrt square.word .rmm = .ok root ∧
      root.word = 0xc0400000 &&& fp32MagnitudeMask :=
  @square_root_of_square 0xc0400000 (by decide) (by decide) .tiesToEven .tiesToAway (.inl rfl)
    (.inr rfl)

end ZincSim
