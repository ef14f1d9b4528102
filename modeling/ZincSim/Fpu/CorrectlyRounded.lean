/-
  ZincSim.Fpu.CorrectlyRounded — the rounded operations, with their exceptions.

  An operation that delivers an exact datum raises NV when the datum is an invalid one,
  OF when it is out of range and NX when the word does not stand for it.  Here the
  exceptions are said of the operand patterns.
-/
import ZincSim.Fpu.Correct
import ZincSim.Fpu.Underflow

namespace ZincSim

open Rounding
open Binary32 (Datum StandsFor Overflows Encodes IsSignaling IsInfinite IsNaN datum roundReal)
open Except (returns_ok)

/-! ## §1. Exceptions of a delivered datum -/

/-- The exceptions, where `E P` says that the datum is a number with the property. -/
theorem Delivered.flags {result : Except Fault FpResult} {mode : Mode} {d : Datum}
    (h : Delivered result mode d) {Invalid : Prop} (hinvalid : d.signaling = true ↔ Invalid)
    {E : (ℝ → Prop) → Prop} (hexact : ∀ P, (∃ s z, d = .finite s z ∧ P z) ↔ E P) :
    ∃ word flags, result = .ok (.ofWord word flags) ∧ Encodes mode word d ∧
      (flags &&& fpFlagNv ≠ 0 ↔ Invalid) ∧ (flags &&& fpFlagOf ≠ 0 ↔ E (Overflows mode)) ∧
      (flags &&& fpFlagNx ≠ 0 ↔ E fun z => ¬ StandsFor word z) := by
  obtain ⟨word, flags, hrun, hdelivers⟩ := h
  refine ⟨word, flags, hrun, hdelivers.encodes, ?_, ?_, ?_⟩
  · rw [hdelivers.invalid, Datum.eq_nan_true_iff, hinvalid]
  · rw [hdelivers.overflow, hexact]
  · rw [hdelivers.inexact, hexact]

section Values

variable (lhs rhs : BitVec 32)

/-- Two finite operands, by their values. -/
theorem exists_finite_iff (P : ℝ → ℝ → Prop) :
    (∃ a x b y, datum lhs = .finite a x ∧ datum rhs = .finite b y ∧ P x y) ↔
      ∃ x y : ℚ, Binary32.value lhs = some x ∧ Binary32.value rhs = some y ∧ P x y := by
  simp only [Binary32.datum_eq_finite_iff]
  constructor
  · rintro ⟨a, _, b, _, ⟨-, x, hx, rfl⟩, ⟨-, y, hy, rfl⟩, h⟩
    exact ⟨x, y, hx, hy, h⟩
  · rintro ⟨x, y, hx, hy, h⟩
    exact ⟨_, _, _, _, ⟨rfl, x, hx, rfl⟩, ⟨rfl, y, hy, rfl⟩, h⟩

/-- A zero, by its value. -/
theorem datum_zero_iff (raw : BitVec 32) :
    (∃ a, datum raw = .finite a 0) ↔ Binary32.value raw = some 0 := by
  simp only [Binary32.datum_eq_finite_iff, exists_eq_left', StandsFor]
  constructor
  · rintro ⟨v, hv, h0⟩
    rw [hv, show v = 0 by exact_mod_cast h0]
  · exact fun h => ⟨0, h, Rat.cast_zero⟩

theorem datum_infinite_iff (raw : BitVec 32) :
    (∃ a, datum raw = .infinite a) ↔ IsInfinite raw := by
  simp only [Binary32.datum_eq_infinite_iff, exists_and_left, exists_eq', and_true]

theorem datum_nan_iff (raw : BitVec 32) : (∃ c, datum raw = .nan c) ↔ IsNaN raw := by
  rcases Binary32.datum_cases raw with ⟨hnan, hd⟩ | ⟨hinf, hd⟩ | ⟨v, hv, hd⟩ <;> rw [hd]
  · exact iff_of_true ⟨_, rfl⟩ hnan
  · exact iff_of_false (by simp) fun h => h.2 hinf.2
  · refine iff_of_false (by simp) fun h => ?_
    cases hd.symm.trans (Binary32.datum_of_nan h)

end Values

/-! ## §2. Multiplication -/

/-- **Multiplication is correctly rounded.** -/
theorem multiplication_correctly_rounded (lhs rhs : BitVec 32) (mode : Mode) :
    ∃ word flags, Fpu.binary .mul lhs rhs (roundingMode mode) = .ok (.ofWord word flags) ∧
      Encodes mode word ((datum lhs).mul (datum rhs)) ∧
      (flags &&& fpFlagNv ≠ 0 ↔ IsSignaling lhs ∨ IsSignaling rhs ∨
        (IsInfinite lhs ∧ Binary32.value rhs = some 0) ∨
        (Binary32.value lhs = some 0 ∧ IsInfinite rhs)) ∧
      (flags &&& fpFlagOf ≠ 0 ↔ ∃ x y : ℚ, Binary32.value lhs = some x ∧
        Binary32.value rhs = some y ∧ Overflows mode (x * y)) ∧
      (flags &&& fpFlagNx ≠ 0 ↔ ∃ x y : ℚ, Binary32.value lhs = some x ∧
        Binary32.value rhs = some y ∧ ¬ StandsFor word (x * y)) := by
  refine (multiply_delivered lhs rhs mode).flags ?_
    (E := fun P => ∃ x y : ℚ, Binary32.value lhs = some x ∧ Binary32.value rhs = some y ∧
      P (x * y)) fun P => ?_
  · rw [Datum.signaling_mul_iff, Binary32.signaling_datum_iff, Binary32.signaling_datum_iff,
      Datum.InvalidProduct]
    simp only [exists_and_left, exists_and_right, datum_zero_iff, datum_infinite_iff]
  · rw [Datum.exists_mul_iff]
    exact exists_finite_iff lhs rhs fun x y => P (x * y)

/-! ## §3. Addition and subtraction -/

/-- The values of the format are multiples of the unit of the subnormals. -/
theorem value_onGrid {raw : BitVec 32} {v : ℚ} (h : Binary32.value raw = some v) :
    OnGrid (-149) (v : ℝ) := by
  have hmagnitude : OnGrid (-149) ((Binary32.magnitude raw : ℚ) : ℝ) := by
    unfold Binary32.magnitude
    split
    · exact ⟨(Binary32.fraction raw).toNat, by push_cast; rfl⟩
    next hne =>
      have hpos : 0 < (Binary32.exponent raw).toNat := BitVec.toNat_pos_of_ne_zero hne
      obtain ⟨k, hk⟩ : ∃ k : ℕ, (Binary32.exponent raw).toNat = k + 1 :=
        ⟨(Binary32.exponent raw).toNat - 1, by omega⟩
      refine ⟨(2 ^ 23 + (Binary32.fraction raw).toNat) * 2 ^ k, ?_⟩
      rw [hk, show ((k + 1 : ℕ) : ℤ) - 150 = k + -149 by push_cast; ring]
      push_cast
      rw [zpow_add₀ (by norm_num), zpow_natCast]
      ring
  obtain ⟨-, hv⟩ := value_eq_signed h
  rw [hv]
  unfold signed
  split
  · exact hmagnitude.neg
  · exact hmagnitude

/-- A number on the subnormal grid does not underflow. -/
theorem packExact_flags_of_grid (sign : Bool) (mode : Mode) {m : ℝ} (hm : 0 < m)
    (hgrid : OnGrid (-149) m) : (packExact sign mode m).flags &&& fpFlagUf = 0 := by
  by_cases hlog : Int.log 2 m < -126
  · by_contra hne
    exact ((underflow_of_tiny sign mode hm hlog).mp hne).2 hgrid
  · exact packExact_flags_of_normal sign mode hm (not_lt.mp hlog)

/-- What does not reach `round_and_pack` raises nothing but NV. -/
theorem Prepared.finish_special {p : Prepared} (h : p.Within False) (hspecial : ¬ p.Rounds)
    (rm : RoundingMode) :
    (p.finish rm).Returns fun result => result.flags = 0 ∨ result.flags = fpFlagNv := by
  cases p with
  | special value flags =>
    refine returns_ok ?_
    obtain hflags | hflags | ⟨-, hdz⟩ := h
    · exact .inl hflags
    · exact .inr hflags
    · exact hdz.elim
  | zeroOfMode => exact returns_ok (.inl rfl)
  | round sign exponent significand => exact absurd trivial hspecial

/-- A call that cannot divide by zero, and whose rounded results do not underflow. -/
theorem Prepares.no_underflow {rounds : Prop} {run : RoundingMode → Except Fault FpResult}
    (h : Prepares False rounds run) {mode : Mode}
    (hrounds : rounds → (run (roundingMode mode)).Returns fun r => r.flags &&& fpFlagUf = 0) :
    (run (roundingMode mode)).Returns fun result =>
      result.flags &&& fpFlagUf = 0 ∧ result.flags &&& fpFlagDz = 0 := by
  obtain ⟨p, hwithin, hiff, hrun⟩ := h
  intro result hresult
  have hfinish : p.finish (roundingMode mode) = .ok result := hrun _ ▸ hresult
  by_cases hr : rounds
  · refine ⟨hrounds hr result hresult, ?_⟩
    obtain hflags | hflags | ⟨-, hdz⟩ := p.finish_flags hwithin (roundingMode mode) result hfinish
    · simp only [roundingFlags, List.mem_cons, List.not_mem_nil, or_false] at hflags
      rcases hflags with hflags | hflags | hflags | hflags <;> rw [hflags] <;> decide
    · rw [hflags]
      decide
    · exact hdz.elim
  · rcases Prepared.finish_special hwithin (mt hiff.mp hr) _ result hfinish with hflags | hflags <;>
      rw [hflags] <;> decide

/-- A sum that is tiny is exact. -/
theorem addOrSub_no_underflow (lhs rhs : BitVec 32) (subtract : Bool) (mode : Mode) :
    (addOrSub lhs rhs subtract (roundingMode mode)).Returns fun result =>
      result.flags &&& fpFlagUf = 0 ∧ result.flags &&& fpFlagDz = 0 := by
  refine (addOrSub_prepares lhs rhs subtract).no_underflow ?_
  rintro ⟨x, y, hx, hy, -, -, hsum⟩ result hresult
  have hne : (x : ℝ) + signed subtract y ≠ 0 := by
    rw [← sumValue_eq_signed]
    exact_mod_cast hsum
  have hsigned : OnGrid (-149) (signed subtract (y : ℝ)) := by
    cases subtract with
    | false => exact value_onGrid hy
    | true => exact (value_onGrid hy).neg
  have hgrid : OnGrid (-149) |(x : ℝ) + signed subtract y| := by
    rcases abs_choice ((x : ℝ) + signed subtract y) with habs | habs <;> rw [habs]
    · exact (value_onGrid hx).add hsigned
    · exact ((value_onGrid hx).add hsigned).neg
  have hrun := addOrSub_rounds hx hy subtract mode hne
  rw [RoundsTo, hresult] at hrun
  rw [Except.ok.inj hrun]
  exact packExact_flags_of_grid _ mode (abs_pos.mpr hne) hgrid

/-- The operands of a sum. -/
theorem exists_sum_iff (lhs rhs : BitVec 32) (subtract : Bool) (mode : Mode) (P : ℝ → Prop) :
    (∃ s z, (datum lhs).add mode ((datum rhs).negIf subtract) = .finite s z ∧ P z) ↔
      ∃ x y : ℚ, Binary32.value lhs = some x ∧ Binary32.value rhs = some y ∧
        P (sumValue subtract x y : ℚ) := by
  simp only [sumValue_eq_signed]
  rw [Datum.exists_add_iff, ← exists_finite_iff lhs rhs fun x y => P (x + signed subtract y)]
  simp only [exists_and_left, Datum.exists_negIf_iff]
  exact Iff.rfl

/-- **Addition and subtraction are correctly rounded**, and never underflow. -/
theorem sum_correctly_rounded (lhs rhs : BitVec 32) (subtract : Bool) (mode : Mode) :
    ∃ word flags,
      Fpu.binary (if subtract then .sub else .add) lhs rhs (roundingMode mode) =
        .ok (.ofWord word flags) ∧
      Encodes mode word ((datum lhs).add mode
        (if subtract then (datum rhs).neg else datum rhs)) ∧
      (flags &&& fpFlagNv ≠ 0 ↔ IsSignaling lhs ∨ IsSignaling rhs ∨
        (IsInfinite lhs ∧ IsInfinite rhs ∧
          Binary32.sign lhs ≠ (Binary32.sign rhs ^^ subtract))) ∧
      (flags &&& fpFlagOf ≠ 0 ↔ ∃ x y : ℚ, Binary32.value lhs = some x ∧
        Binary32.value rhs = some y ∧ Overflows mode (sumValue subtract x y : ℚ)) ∧
      (flags &&& fpFlagNx ≠ 0 ↔ ∃ x y : ℚ, Binary32.value lhs = some x ∧
        Binary32.value rhs = some y ∧ ¬ StandsFor word (sumValue subtract x y : ℚ)) ∧
      flags &&& fpFlagUf = 0 ∧ flags &&& fpFlagDz = 0 := by
  have hdelivered := addOrSub_delivered lhs rhs subtract mode
  have hinvalid : ((datum lhs).add mode ((datum rhs).negIf subtract)).signaling = true ↔
      IsSignaling lhs ∨ IsSignaling rhs ∨ (IsInfinite lhs ∧ IsInfinite rhs ∧
        Binary32.sign lhs ≠ (Binary32.sign rhs ^^ subtract)) := by
    rw [Datum.signaling_add_iff, Datum.signaling_negIf, Binary32.signaling_datum_iff,
      Binary32.signaling_datum_iff]
    refine or_congr_right (or_congr_right ?_)
    simp only [Datum.negIf_eq_infinite_iff, Binary32.datum_eq_infinite_iff]
    constructor
    · rintro ⟨a, b, ⟨hl, rfl⟩, ⟨hr, hb⟩, hne⟩
      refine ⟨hl, hr, ?_⟩
      rw [hb]
      simpa using hne
    · rintro ⟨hl, hr, hne⟩
      exact ⟨_, Binary32.sign rhs ^^ subtract, ⟨hl, rfl⟩, ⟨hr, by simp⟩, hne⟩
  obtain ⟨word, flags, hrun, hencodes, hnv, hof, hnx⟩ := hdelivered.flags hinvalid
    (exists_sum_iff lhs rhs subtract mode)
  have hunder := addOrSub_no_underflow lhs rhs subtract mode _ hrun
  refine ⟨word, flags, ?_, hencodes, hnv, hof, hnx, hunder⟩
  cases subtract <;> exact hrun

/-! ## §4. Division -/

section Quotient

variable (lhs rhs : BitVec 32)

/-- An invalid division: of infinities, or of zeros. -/
theorem signaling_quotient_iff : ((datum lhs).div (datum rhs)).signaling = true ↔
    IsSignaling lhs ∨ IsSignaling rhs ∨
      (Binary32.value lhs = some 0 ∧ Binary32.value rhs = some 0) ∨
      (IsInfinite lhs ∧ IsInfinite rhs) := by
  rw [Datum.signaling_div_iff, Binary32.signaling_datum_iff, Binary32.signaling_datum_iff]
  simp only [exists_and_left, exists_and_right, datum_zero_iff, datum_infinite_iff]
  rw [or_comm (a := IsInfinite lhs ∧ _)]

/-- The operands of a quotient.  Over an infinity it is the number zero. -/
theorem exists_quotient_iff (P : ℝ → Prop) :
    (∃ s z, (datum lhs).div (datum rhs) = .finite s z ∧ P z) ↔
      (∃ x y : ℚ, Binary32.value lhs = some x ∧ Binary32.value rhs = some y ∧ y ≠ 0 ∧
        P (x / y)) ∨
      (∃ s, (datum lhs).div (datum rhs) = .finite s 0 ∧ IsInfinite rhs) ∧ P 0 := by
  rw [Datum.exists_div_iff]
  refine or_congr ?_ (and_congr_left' ?_)
  · rw [exists_finite_iff lhs rhs fun x y => y ≠ 0 ∧ P (x / y)]
    simp only [ne_eq, Rat.cast_eq_zero]
  · constructor
    · rintro ⟨a, x, b, hl, hr⟩
      rw [hl, hr]
      exact ⟨_, rfl, (datum_infinite_iff rhs).mp ⟨b, hr⟩⟩
    · rintro ⟨s, hquotient, hinf⟩
      obtain ⟨b, hr⟩ := (datum_infinite_iff rhs).mpr hinf
      rw [hr] at hquotient ⊢
      cases hl : datum lhs with
      | nan c => rw [hl] at hquotient; cases hquotient
      | infinite a => rw [hl] at hquotient; cases hquotient
      | finite a x => exact ⟨a, x, b, rfl, rfl⟩

end Quotient

/-- **Division is correctly rounded.** -/
theorem division_correctly_rounded (lhs rhs : BitVec 32) (mode : Mode) :
    ∃ word flags, Fpu.binary .div lhs rhs (roundingMode mode) = .ok (.ofWord word flags) ∧
      Encodes mode word ((datum lhs).div (datum rhs)) ∧
      (flags &&& fpFlagNv ≠ 0 ↔ IsSignaling lhs ∨ IsSignaling rhs ∨
        (Binary32.value lhs = some 0 ∧ Binary32.value rhs = some 0) ∨
        (IsInfinite lhs ∧ IsInfinite rhs)) ∧
      (flags &&& fpFlagOf ≠ 0 ↔ ∃ x y : ℚ, Binary32.value lhs = some x ∧
        Binary32.value rhs = some y ∧ y ≠ 0 ∧ Overflows mode (x / y)) ∧
      (flags &&& fpFlagNx ≠ 0 ↔ ∃ x y : ℚ, Binary32.value lhs = some x ∧
        Binary32.value rhs = some y ∧ y ≠ 0 ∧ ¬ StandsFor word (x / y)) := by
  obtain ⟨word, flags, hrun, hencodes, hnv, hof, hnx⟩ :=
    (divide_delivered lhs rhs mode).flags (signaling_quotient_iff lhs rhs)
      (exists_quotient_iff lhs rhs)
  refine ⟨word, flags, hrun, hencodes, hnv, ?_, ?_⟩
  · rw [hof]
    exact or_iff_left fun h => not_overflows_zero mode h.2
  · rw [hnx]
    refine or_iff_left fun ⟨⟨s, hzero, _⟩, hinexact⟩ => hinexact ?_
    rw [hzero] at hencodes
    have hstands := (hencodes.1 (not_overflows_zero mode)).2
    rwa [roundReal_zero] at hstands

/-! ## §5. Square root -/

/-- The square root of a positive number is in range. -/
theorem Unpacked.sqrt_in_range {raw : BitVec 32} {u : UnpackedFp32} (h : Unpacked raw u) :
    InRange √u.magnitude := by
  have hlow : (2 ^ (-149 : ℤ) : ℝ) ≤ u.magnitude := by
    have hsig : (2 : ℝ) ^ (23 : ℤ) ≤ u.significand.toNat := by exact_mod_cast h.low
    have hexp := h.exponent_low
    calc (2 : ℝ) ^ (-149 : ℤ) ≤ 2 ^ (23 + (u.exponent - 23)) :=
          zpow_le_zpow_right₀ (by norm_num) (by omega)
      _ = 2 ^ (23 : ℤ) * 2 ^ (u.exponent - 23) := zpow_add₀ (by norm_num) _ _
      _ ≤ u.magnitude := mul_le_mul_of_nonneg_right hsig (by positivity)
  have hhigh : u.magnitude < 2 ^ (128 : ℤ) := by
    have hsig : (u.significand.toNat : ℝ) < 2 ^ (24 : ℤ) := by exact_mod_cast h.high
    have hexp := h.exponent_high
    calc u.magnitude < 2 ^ (24 : ℤ) * 2 ^ (u.exponent - 23) :=
          mul_lt_mul_of_pos_right hsig (by positivity)
      _ = 2 ^ (24 + (u.exponent - 23)) := (zpow_add₀ (by norm_num) _ _).symm
      _ ≤ 2 ^ (128 : ℤ) := zpow_le_zpow_right₀ (by norm_num) (by omega)
  constructor
  · apply Real.le_sqrt_of_sq_le
    refine le_trans ?_ hlow
    norm_num
  · rw [Real.sqrt_lt' (by positivity)]
    refine hhigh.trans ?_
    norm_num

section Root

variable {raw : BitVec 32} (mode : Mode)

theorem squareRoot_positive {v : ℚ} (hv : Binary32.value raw = some v) (hpos : 0 < v) :
    ∃ word flags, squareRoot raw (roundingMode mode) = .ok (.ofWord word flags) ∧
      Binary32.sign word = false ∧ StandsFor word (roundReal mode √(v : ℝ)) ∧
      ((∃ w, StandsFor w √(v : ℝ)) ∧ flags = 0 ∨
        ¬ (∃ w, StandsFor w √(v : ℝ)) ∧ flags = fpFlagNx) := by
  obtain ⟨u, hfin⟩ := FiniteOperand.of_value hv
  have hlu := hfin.unpacked hpos.ne'
  have hsign : u.sign = false := by
    rw [← Bool.not_eq_true, ← signed_lt_zero_iff _ hlu.magnitude_pos, ← hfin.value hpos.ne']
    exact not_lt.mpr (by exact_mod_cast hpos.le)
  have hmagnitude : (v : ℝ) = u.magnitude := by
    rw [hfin.value hpos.ne', hsign]
    rfl
  obtain ⟨_, -, -, -, -, hround⟩ := squareRoot_finite hfin.unpack hlu hsign
  rw [hmagnitude]
  exact delivered_in_range hlu.sqrt_in_range (hround mode)

/-- Zeros and the positive infinity are their own roots. -/
theorem squareRoot_unchanged (h : Binary32.value raw = some 0 ∨ raw = 0x7f800000) :
    squareRoot raw (roundingMode mode) = .ok (.ofWord raw 0) := by
  obtain ⟨u, hu⟩ := Operand.of_raw raw
  rcases h with hv | hraw
  · exact squareRoot_of_zero hu.unpack _ ((hu.finite 0 hv).zero_iff.mpr rfl)
  · have hinf : u.fpClass = .infinity := hu.infinity_iff.mpr (by rw [hraw]; decide)
    have hsign : u.sign = false := by rw [hu.sign, hraw]; decide
    rw [squareRoot_of_infinity hu.unpack _ hinf hsign, hraw]
    rfl

/-- There is no root of a negative number. -/
theorem squareRoot_invalid
    (h : IsSignaling raw ∨ raw = 0xff800000 ∨ ∃ v : ℚ, Binary32.value raw = some v ∧ v < 0) :
    squareRoot raw (roundingMode mode) = .ok (.ofWord 0x7fc00000 fpFlagNv) := by
  obtain ⟨u, hu⟩ := Operand.of_raw raw
  rcases h with hsignaling | hraw | ⟨v, hv, hneg⟩
  · have hs := (Binary32.signaling_datum_iff raw).mpr hsignaling
    rw [squareRoot_of_nan hu.unpack _ (hu.isNan_iff.mpr hsignaling.1), hu.nan_tests.2, if_pos hs]
    rfl
  · have hinf : u.fpClass = .infinity := hu.infinity_iff.mpr (by rw [hraw]; decide)
    have hsign : u.sign = true := by rw [hu.sign, hraw]; decide
    exact squareRoot_of_negative hu.unpack _ (by rw [hinf]; rfl) (by rw [hinf]; decide) hsign
  · have hfin := hu.finite v hv
    have hsign : u.sign = true := by
      rw [← signed_lt_zero_iff _ (hfin.unpacked hneg.ne).magnitude_pos, ← hfin.value hneg.ne]
      exact_mod_cast hneg
    exact squareRoot_of_negative hu.unpack _ hfin.isNan (mt hfin.zero_iff.mp hneg.ne) hsign

theorem squareRoot_quiet (h : IsNaN raw ∧ ¬ IsSignaling raw) :
    squareRoot raw (roundingMode mode) = .ok (.ofWord 0x7fc00000 0) := by
  obtain ⟨u, hu⟩ := Operand.of_raw raw
  have hs : ¬ (datum raw).signaling = true := mt (Binary32.signaling_datum_iff raw).mp h.2
  rw [squareRoot_of_nan hu.unpack _ (hu.isNan_iff.mpr h.1), hu.nan_tests.2, if_neg hs]
  rfl

end Root

/-- **The square root is correctly rounded**, and neither overflows nor underflows. -/
theorem squareRoot_correctly_rounded (raw : BitVec 32) (mode : Mode) :
    (∀ v : ℚ, Binary32.value raw = some v → 0 < v →
      ∃ word flags, Fpu.unary .sqrt raw (roundingMode mode) = .ok (.ofWord word flags) ∧
        Binary32.sign word = false ∧ StandsFor word (roundReal mode √(v : ℝ)) ∧
        ((∃ w, StandsFor w √(v : ℝ)) ∧ flags = 0 ∨
          ¬ (∃ w, StandsFor w √(v : ℝ)) ∧ flags = fpFlagNx)) ∧
    (Binary32.value raw = some 0 ∨ raw = 0x7f800000 →
      Fpu.unary .sqrt raw (roundingMode mode) = .ok (.ofWord raw 0)) ∧
    (IsSignaling raw ∨ raw = 0xff800000 ∨ (∃ v : ℚ, Binary32.value raw = some v ∧ v < 0) →
      Fpu.unary .sqrt raw (roundingMode mode) = .ok (.ofWord 0x7fc00000 fpFlagNv)) ∧
    (IsNaN raw ∧ ¬ IsSignaling raw →
      Fpu.unary .sqrt raw (roundingMode mode) = .ok (.ofWord 0x7fc00000 0)) :=
  ⟨fun _ hv hpos => squareRoot_positive mode hv hpos, squareRoot_unchanged mode,
    squareRoot_invalid mode, squareRoot_quiet mode⟩

/-! ## §6. Fused multiply-add -/

section Fused

variable (type : FmaFpType) (lhs rhs addend : BitVec 32) (mode : Mode)

/-- A valid product with an infinity. -/
theorem infinite_product_iff (s : Bool) : (datum lhs).mul (datum rhs) = .infinite s ↔
    ¬ (datum lhs).InvalidProduct (datum rhs) ∧ ¬ IsNaN lhs ∧ ¬ IsNaN rhs ∧
      (IsInfinite lhs ∨ IsInfinite rhs) ∧ (Binary32.sign lhs ^^ Binary32.sign rhs) = s := by
  simp only [← datum_nan_iff, ← datum_infinite_iff]
  rcases Binary32.datum_cases lhs with ⟨-, hl⟩ | ⟨-, hl⟩ | ⟨x, -, hl⟩ <;>
    rcases Binary32.datum_cases rhs with ⟨-, hr⟩ | ⟨-, hr⟩ | ⟨y, -, hr⟩ <;>
    simp [hl, hr, Datum.mul, Datum.InvalidProduct, ite_eq_iff]

/-- The operation subtracts one of its terms from the other. -/
def FmaFpType.Subtracts : FmaFpType → Prop
  | .mSub | .nmSub => True
  | .mAdd | .nmAdd => False

/-- The product and the addend are infinities of opposite effective signs. -/
def InfinityMinusInfinity : Prop :=
  ¬ IsNaN lhs ∧ ¬ IsNaN rhs ∧ (IsInfinite lhs ∨ IsInfinite rhs) ∧ IsInfinite addend ∧
    (type.Subtracts ↔ (Binary32.sign lhs ^^ Binary32.sign rhs) = Binary32.sign addend)

/-- An invalid fused operation. -/
theorem signaling_fma_iff :
    (fmaDatum mode type ((datum lhs).mul (datum rhs)) (datum addend)).signaling = true ↔
      IsSignaling lhs ∨ IsSignaling rhs ∨ IsSignaling addend ∨
        (IsInfinite lhs ∧ Binary32.value rhs = some 0) ∨
        (Binary32.value lhs = some 0 ∧ IsInfinite rhs) ∨
        InfinityMinusInfinity type lhs rhs addend := by
  have hproduct : (datum lhs).InvalidProduct (datum rhs) ↔
      (IsInfinite lhs ∧ Binary32.value rhs = some 0) ∨
        (Binary32.value lhs = some 0 ∧ IsInfinite rhs) := by
    simp only [Datum.InvalidProduct, exists_and_left, exists_and_right, datum_zero_iff,
      datum_infinite_iff]
  have hsum : (∃ a b, ((datum lhs).mul (datum rhs)).negIf (fmaNegations type).1 = .infinite a ∧
      (datum addend).negIf (fmaNegations type).2 = .infinite b ∧ a ≠ b) ↔
      ¬ (datum lhs).InvalidProduct (datum rhs) ∧ InfinityMinusInfinity type lhs rhs addend := by
    simp only [Datum.negIf_eq_infinite_iff, infinite_product_iff, Binary32.datum_eq_infinite_iff,
      InfinityMinusInfinity]
    -- the signs that the operation gives to its terms
    have hsigns (a b : Bool) : (type.Subtracts ↔
        (a ^^ (fmaNegations type).1) = (b ^^ (fmaNegations type).2)) ↔ a ≠ b := by
      cases type <;> cases a <;> cases b <;> simp [FmaFpType.Subtracts, fmaNegations]
    constructor
    · rintro ⟨a, b, ⟨hvalid, hl, hr, hinf, hproduct⟩, ⟨ha, haddend⟩, hne⟩
      refine ⟨hvalid, hl, hr, hinf, ha, ?_⟩
      rw [hproduct, haddend]
      exact (hsigns a b).mpr hne
    · rintro ⟨hvalid, hl, hr, hinf, ha, hopposite⟩
      have hself (s t : Bool) : s = (s ^^ t ^^ t) := by cases s <;> cases t <;> rfl
      refine ⟨_, _, ⟨hvalid, hl, hr, hinf, hself _ _⟩, ⟨ha, hself _ _⟩, (hsigns _ _).mp ?_⟩
      rwa [← hself, ← hself]
  rw [fmaDatum_eq, Datum.signaling_add_iff, Datum.signaling_negIf, Datum.signaling_negIf,
    Datum.signaling_mul_iff, Binary32.signaling_datum_iff, Binary32.signaling_datum_iff,
    Binary32.signaling_datum_iff, hsum, hproduct]
  grind

/-- The operands of a fused operation. -/
theorem exists_fma_iff (P : ℝ → Prop) :
    (∃ s w, fmaDatum mode type ((datum lhs).mul (datum rhs)) (datum addend) = .finite s w ∧ P w) ↔
      ∃ x y z : ℚ, Binary32.value lhs = some x ∧ Binary32.value rhs = some y ∧
        Binary32.value addend = some z ∧ P (fmaValue type (x * y) z : ℚ) := by
  rw [fmaDatum_eq, Datum.exists_add_iff]
  simp only [exists_and_left]
  rw [Datum.exists_negIf_iff, Datum.exists_mul_iff]
  simp only [Datum.exists_negIf_iff]
  constructor
  · rintro ⟨_, _, _, _, hl, hr, _, _, ha, h⟩
    obtain ⟨-, x, hx, rfl⟩ := (Binary32.datum_eq_finite_iff _ _ _).mp hl
    obtain ⟨-, y, hy, rfl⟩ := (Binary32.datum_eq_finite_iff _ _ _).mp hr
    obtain ⟨-, z, hz, rfl⟩ := (Binary32.datum_eq_finite_iff _ _ _).mp ha
    refine ⟨x, hx, y, hy, z, hz, ?_⟩
    rw [fmaValue_eq_signed, Rat.cast_mul]
    exact h
  · rintro ⟨x, hx, y, hy, z, hz, h⟩
    rw [fmaValue_eq_signed, Rat.cast_mul] at h
    exact ⟨_, x, _, y, Binary32.datum_of_value hx, Binary32.datum_of_value hy, _, z,
      Binary32.datum_of_value hz, h⟩

end Fused

/-- **Fused multiply-add is correctly rounded**: the product is exact, and the sum is
rounded once. -/
theorem fma_correctly_rounded (type : FmaFpType) (lhs rhs addend : BitVec 32) (mode : Mode) :
    ∃ word flags,
      Fpu.fma type lhs rhs addend (roundingMode mode) = .ok (.ofWord word flags) ∧
      Encodes mode word (fmaDatum mode type ((datum lhs).mul (datum rhs)) (datum addend)) ∧
      (flags &&& fpFlagNv ≠ 0 ↔ IsSignaling lhs ∨ IsSignaling rhs ∨ IsSignaling addend ∨
        (IsInfinite lhs ∧ Binary32.value rhs = some 0) ∨
        (Binary32.value lhs = some 0 ∧ IsInfinite rhs) ∨
        InfinityMinusInfinity type lhs rhs addend) ∧
      (flags &&& fpFlagOf ≠ 0 ↔ ∃ x y z : ℚ, Binary32.value lhs = some x ∧
        Binary32.value rhs = some y ∧ Binary32.value addend = some z ∧
        Overflows mode (fmaValue type (x * y) z : ℚ)) ∧
      (flags &&& fpFlagNx ≠ 0 ↔ ∃ x y z : ℚ, Binary32.value lhs = some x ∧
        Binary32.value rhs = some y ∧ Binary32.value addend = some z ∧
        ¬ StandsFor word (fmaValue type (x * y) z : ℚ)) :=
  (fma_delivered type lhs rhs addend mode).flags (signaling_fma_iff type lhs rhs addend mode)
    (exists_fma_iff type lhs rhs addend mode)

end ZincSim
