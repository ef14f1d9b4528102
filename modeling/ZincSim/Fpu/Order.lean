/-
  ZincSim.Fpu.Order — what the comparisons say about results.

  The value of a delivered word is a monotone function of the exact one, so the arithmetic
  of the FPU keeps the order that its comparisons see, in every mode and across overflow.
  A difference is never rounded to zero, so it has the sign that a comparison of the
  operands predicts.
-/
import ZincSim.Fpu.Compare
import ZincSim.Fpu.CorrectlyRounded
import ZincSim.Lib.DatumOrder

namespace ZincSim

open Rounding
open Binary32 (Datum IsNaN Compare datum extended roundExtended limit)

/-! ## §1. Values of results -/

section Delivered

variable {result : Except Fault FpResult} {r : FpResult} {mode : Mode} {d : Datum}
  (h : Delivered result mode d) (hd : d.WellSigned) (hrun : result = .ok r)

include h hd hrun

/-- The value of a delivered word. -/
theorem Delivered.extended : extended r.word = d.extended.map (roundExtended mode) := by
  obtain ⟨word, flags, hok, hdelivers⟩ := h
  obtain rfl := Except.ok.inj (hrun.symm.trans hok)
  rw [FpResult.word_ofWord]
  exact Binary32.extended_of_encodes hd hdelivers.encodes

theorem Delivered.isNaN_iff : IsNaN r.word ↔ d.isNaN = true := by
  rw [← Binary32.extended_eq_none_iff, h.extended hd hrun, Option.map_eq_none_iff,
    Datum.extended_eq_none_iff]

end Delivered

@[simp] theorem extended_zero : extended 0 = some 0 := by
  rw [Binary32.extended_of_standsFor ⟨0, (Binary32.value_eq_zero_iff 0).mpr (by decide), rfl⟩,
    Rat.cast_zero]
  rfl

/-- The datum of an operand that is not a NaN. -/
theorem extended_of_not_nan {raw : BitVec 32} (h : ¬ IsNaN raw) :
    ∃ x, extended raw = some x ∧ (datum raw).extended = some x := by
  obtain ⟨x, hx⟩ := Option.ne_none_iff_exists'.mp (mt (Binary32.extended_eq_none_iff raw).mp h)
  exact ⟨x, hx, (Binary32.extended_datum raw).trans hx⟩

/-! ## §2. Comparisons -/

/-- A relation of values holds of numbers only, so nothing is invalid. -/
theorem not_invalidComparison (op : OpFpType) {lhs rhs : BitVec 32} (hl : ¬ IsNaN lhs)
    (hr : ¬ IsNaN rhs) : ¬ InvalidComparison op lhs rhs := by
  unfold InvalidComparison
  split
  · rintro (h | h)
    · exact hl h.1
    · exact hr h.1
  · rintro (h | h)
    · exact hl h
    · exact hr h

/-- One answer, for one relation and one condition of the exception. -/
theorem Answers.eq {result result' : Except Fault FpResult} {holds holds' invalid invalid' : Prop}
    (h : Answers result holds invalid) (h' : Answers result' holds' invalid')
    (hholds : holds ↔ holds') (hinvalid : invalid ↔ invalid') : result = result' := by
  obtain ⟨word, flags, rfl, hword, hflags⟩ := h
  obtain ⟨word', flags', rfl, hword', hflags'⟩ := h'
  have hw : word = word' := by
    rcases hword with ⟨rfl, hw⟩ | ⟨rfl, hw⟩ <;> rcases hword' with ⟨rfl, hw'⟩ | ⟨rfl, hw'⟩
    · rfl
    · exact absurd (hholds.mp hw) hw'
    · exact absurd (hholds.mpr hw') hw
    · rfl
  have hf : flags = flags' := by
    rcases hflags with ⟨rfl, hf⟩ | ⟨rfl, hf⟩ <;> rcases hflags' with ⟨rfl, hf'⟩ | ⟨rfl, hf'⟩
    · rfl
    · exact absurd (hinvalid.mp hf) hf'
    · exact absurd (hinvalid.mpr hf') hf
    · rfl
  rw [hw, hf]

/-- `fle` answers with one, without an exception. -/
def SaysLe (lhs rhs : BitVec 32) : Prop := compareFp .le lhs rhs = .ok (.ofWord 1 0)

instance (lhs rhs : BitVec 32) : Decidable (SaysLe lhs rhs) :=
  inferInstanceAs (Decidable (compareFp .le lhs rhs = .ok (.ofWord 1 0)))

theorem saysLe_iff (lhs rhs : BitVec 32) : SaysLe lhs rhs ↔ Compare (· ≤ ·) lhs rhs := by
  obtain ⟨word, flags, hrun, hword, hflags⟩ := @compareFp_answers .le (by decide) lhs rhs
  rw [SaysLe, hrun]
  constructor
  · intro h
    have h1 := congrArg FpResult.word (Except.ok.inj h)
    rw [FpResult.word_ofWord, FpResult.word_ofWord] at h1
    rcases hword with ⟨-, hholds⟩ | ⟨h0, -⟩
    · exact hholds
    · rw [h1] at h0
      exact absurd h0 (by decide)
  · intro h
    have hnumbers : ¬ IsNaN lhs ∧ ¬ IsNaN rhs :=
      not_or.mp fun hnan => Binary32.not_compare_of_nan _ hnan h
    rcases hword with ⟨rfl, -⟩ | ⟨-, hno⟩
    · rcases hflags with ⟨-, hinvalid⟩ | ⟨rfl, -⟩
      · exact absurd hinvalid (not_invalidComparison .le hnumbers.1 hnumbers.2)
      · rfl
    · exact absurd h hno

/-- Results are ordered as the exact data. -/
theorem saysLe_of_delivered {result result' : Except Fault FpResult} {r r' : FpResult}
    {mode : Mode} {d e : Datum} {x y : EReal} (h : Delivered result mode d)
    (h' : Delivered result' mode e) (hd : d.WellSigned) (he : e.WellSigned)
    (hrun : result = .ok r) (hrun' : result' = .ok r') (hx : d.extended = some x)
    (hy : e.extended = some y) (hxy : x ≤ y) : SaysLe r.word r'.word := by
  rw [saysLe_iff]
  refine ⟨roundExtended mode x, roundExtended mode y, ?_, ?_, Binary32.roundExtended_mono mode hxy⟩
  · rw [h.extended hd hrun, hx, Option.map_some]
  · rw [h'.extended he hrun', hy, Option.map_some]

/-! ## §3. Monotone operations -/

/-- In the order of `fle`, or in the reverse one for an operand that is subtracted. -/
def InOrder (reversed : Bool) (p q : BitVec 32) : Prop :=
  if reversed then SaysLe q p else SaysLe p q

instance (reversed : Bool) (p q : BitVec 32) : Decidable (InOrder reversed p q) :=
  inferInstanceAs (Decidable (if reversed then SaysLe q p else SaysLe p q))

/-- Two operands in order, by their values. -/
theorem SaysLe.values {p q : BitVec 32} (h : SaysLe p q) :
    ∃ x y, (datum p).extended = some x ∧ (datum q).extended = some y ∧ x ≤ y := by
  simp only [Binary32.extended_datum]
  exact (saysLe_iff p q).mp h

theorem InOrder.values {reversed : Bool} {p q : BitVec 32} (h : InOrder reversed p q) :
    ∃ x y, (datum p).extended = some x ∧ (datum q).extended = some y ∧
      if reversed then y ≤ x else x ≤ y := by
  cases reversed with
  | false => exact SaysLe.values h
  | true =>
    obtain ⟨x, y, hx, hy, hle⟩ := SaysLe.values h
    exact ⟨y, x, hy, hx, hle⟩

/-- What is subtracted in reverse order is added in order. -/
theorem negIf_le {reversed : Bool} {x y : EReal} (h : if reversed then y ≤ x else x ≤ y) :
    (if reversed then -x else x) ≤ if reversed then -y else y := by
  cases reversed with
  | false => exact h
  | true => exact EReal.neg_le_neg_iff.mpr h

/-- The operands of a sum that is not a NaN. -/
theorem not_nan_of_add {mode : Mode} {d e : Datum} (h : ¬ (d.add mode e).isNaN = true) :
    d.isNaN = false ∧ e.isNaN = false := by
  cases d <;> cases e <;> first | exact ⟨rfl, rfl⟩ | exact absurd rfl h

section Sum

variable {mode : Mode} {subtract : Bool} {a a' b b' : BitVec 32} {r r' : FpResult}

/-- **Addition and subtraction are monotone.** -/
theorem addOrSub_monotone (ha : SaysLe a a') (hb : InOrder subtract b b')
    (hrun : addOrSub a b subtract (roundingMode mode) = .ok r)
    (hrun' : addOrSub a' b' subtract (roundingMode mode) = .ok r')
    (hr : ¬ IsNaN r.word) (hr' : ¬ IsNaN r'.word) : SaysLe r.word r'.word := by
  have hdelivered := addOrSub_delivered a b subtract mode
  have hdelivered' := addOrSub_delivered a' b' subtract mode
  have hsigned := Datum.wellSigned_add mode (datum a) ((datum b).negIf subtract)
  have hsigned' := Datum.wellSigned_add mode (datum a') ((datum b').negIf subtract)
  rw [hdelivered.isNaN_iff hsigned hrun, Bool.not_eq_true] at hr
  rw [hdelivered'.isNaN_iff hsigned' hrun', Bool.not_eq_true] at hr'
  obtain ⟨x, x', hx, hx', hxx⟩ := ha.values
  obtain ⟨y, y', hy, hy', hyy⟩ := hb.values
  exact saysLe_of_delivered hdelivered hdelivered' hsigned hsigned' hrun hrun'
    (Datum.extended_add mode hx (Datum.extended_negIf subtract hy) hr)
    (Datum.extended_add mode hx' (Datum.extended_negIf subtract hy') hr')
    (add_le_add hxx (negIf_le hyy))

end Sum

section Fused

variable {type : FmaFpType} {negateProduct negateAddend : Bool} {mode : Mode}
  {a a' b c c' : BitVec 32} {r r' : FpResult}

/-- The value of a fused operation, before rounding. -/
theorem fma_extended {x y z : EReal} (hneg : fmaNegations type = (negateProduct, negateAddend))
    (hx : (datum a).extended = some x) (hy : (datum b).extended = some y)
    (hz : (datum c).extended = some z)
    (hnan : (fmaDatum mode type ((datum a).mul (datum b)) (datum c)).isNaN = false) :
    (fmaDatum mode type ((datum a).mul (datum b)) (datum c)).extended =
      some ((if negateProduct then -(x * y) else x * y) + if negateAddend then -z else z) := by
  rw [fmaDatum_eq, hneg] at hnan ⊢
  have hproduct := (not_nan_of_add (ne_true_of_eq_false hnan)).1
  rw [Datum.isNaN_negIf] at hproduct
  exact Datum.extended_add mode
    (Datum.extended_negIf _ (Datum.extended_mul (Binary32.wellSigned_datum a)
      (Binary32.wellSigned_datum b) hx hy hproduct))
    (Datum.extended_negIf _ hz) hnan

theorem fma_wellSigned (mode : Mode) (type : FmaFpType) (product addend : Datum) :
    (fmaDatum mode type product addend).WellSigned := by
  rw [fmaDatum_eq]
  exact Datum.wellSigned_add mode _ _

/-- **Fused operations are monotone** in a factor and in the addend, when the other factor
is not negative. -/
theorem fma_monotone (hneg : fmaNegations type = (negateProduct, negateAddend))
    (hb : SaysLe 0 b) (ha : InOrder negateProduct a a') (hc : InOrder negateAddend c c')
    (hrun : Fpu.fma type a b c (roundingMode mode) = .ok r)
    (hrun' : Fpu.fma type a' b c' (roundingMode mode) = .ok r')
    (hr : ¬ IsNaN r.word) (hr' : ¬ IsNaN r'.word) : SaysLe r.word r'.word := by
  have hdelivered := fma_delivered type a b c mode
  have hdelivered' := fma_delivered type a' b c' mode
  have hsigned := fma_wellSigned mode type ((datum a).mul (datum b)) (datum c)
  have hsigned' := fma_wellSigned mode type ((datum a').mul (datum b)) (datum c')
  rw [hdelivered.isNaN_iff hsigned hrun, Bool.not_eq_true] at hr
  rw [hdelivered'.isNaN_iff hsigned' hrun', Bool.not_eq_true] at hr'
  obtain ⟨x, x', hx, hx', hxx⟩ := ha.values
  obtain ⟨z, z', hz, hz', hzz⟩ := hc.values
  obtain ⟨zero, y, hzero, hy, hnonneg⟩ := hb.values
  have hzero' : zero = 0 := by
    rw [Binary32.extended_datum, extended_zero] at hzero
    exact (Option.some.inj hzero).symm
  subst hzero'
  have hproduct : if negateProduct then x' * y ≤ x * y else x * y ≤ x' * y := by
    cases negateProduct with
    | false => exact mul_le_mul_of_nonneg_right hxx hnonneg
    | true => exact mul_le_mul_of_nonneg_right hxx hnonneg
  exact saysLe_of_delivered hdelivered hdelivered' hsigned hsigned' hrun hrun'
    (fma_extended hneg hx hy hz hr) (fma_extended hneg hx' hy hz' hr')
    (add_le_add (negIf_le hproduct) (negIf_le hzz))

end Fused

/-- From 1.0 * 2.0 - 3.0 to 2.0 * 2.0 - 1.0. -/
theorem fma_monotone_msub : SaysLe 0xbf800000 0x40400000 :=
  @fma_monotone .mSub false true .tiesToEven 0x3f800000 0x40000000 0x40000000 0x40400000 0x3f800000
    (.ofWord 0xbf800000 0) (.ofWord 0x40400000 0) rfl (by decide) (by decide) (by decide)
    (by decide) (by decide) (by decide) (by decide)

/-! ## §4. The sign of a difference -/

/-- The number of a pattern is a multiple of the smallest one. -/
theorem datum_onGrid (raw : BitVec 32) : ∀ s v, datum raw = .finite s v → OnGrid (-149) v := by
  intro s v h
  rw [Binary32.datum_eq_finite_iff] at h
  obtain ⟨-, w, hw, rfl⟩ := h
  exact value_onGrid hw

/-- **A comparison of a difference with zero is the comparison of its operands**, in every
mode and with the same answer and flags. -/
theorem difference_compares {op : OpFpType} (hop : op ∈ [OpFpType.eq, .lt, .le])
    {a b : BitVec 32} {mode : Mode} {r : FpResult}
    (hrun : Fpu.binary .sub a b (roundingMode mode) = .ok r) (hr : ¬ IsNaN r.word)
    (rm : RoundingMode) : Fpu.binary op r.word 0 rm = Fpu.binary op a b rm := by
  have hdelivered := addOrSub_delivered a b true mode
  have hsigned := Datum.wellSigned_add mode (datum a) ((datum b).negIf true)
  have hsum := hr
  rw [hdelivered.isNaN_iff hsigned hrun, Bool.not_eq_true] at hsum
  -- the operands are numbers too
  have hoperands := not_nan_of_add (ne_true_of_eq_false hsum)
  rw [Datum.isNaN_negIf, ← Bool.not_eq_true, ← Bool.not_eq_true, ← Datum.extended_eq_none_iff,
    ← Datum.extended_eq_none_iff, Binary32.extended_datum, Binary32.extended_datum,
    Binary32.extended_eq_none_iff, Binary32.extended_eq_none_iff] at hoperands
  obtain ⟨x, hax, hx⟩ := extended_of_not_nan hoperands.1
  obtain ⟨y, hby, hy⟩ := extended_of_not_nan hoperands.2
  have hvalue := hdelivered.extended hsigned hrun
  rw [Datum.extended_add mode hx (Datum.extended_negIf true hy) hsum, Option.map_some,
    if_pos rfl] at hvalue
  obtain ⟨hlt, heq⟩ := Datum.sub_cmp mode hx hy (datum_onGrid a) (datum_onGrid b) hsum
  have hzero : ¬ IsNaN 0 := by decide
  have hrelation (R : EReal → EReal → Prop)
      (h : R (roundExtended mode (x + -y)) 0 ↔ R x y) : Compare R r.word 0 ↔ Compare R a b := by
    rw [Binary32.compare_iff R hr hzero (K := R x y), Binary32.compare_iff R hoperands.1
      hoperands.2 (K := R x y)]
    · intro x' y' hx' hy'
      rw [Option.some.inj (hx'.symm.trans hax), Option.some.inj (hy'.symm.trans hby)]
    · intro x' y' hx' hy'
      rw [Option.some.inj (hx'.symm.trans hvalue), Option.some.inj (hy'.symm.trans extended_zero)]
      exact h
  have hcompare : Compare (relation op) r.word 0 ↔ Compare (relation op) a b := by
    simp only [List.mem_cons, List.not_mem_nil, or_false] at hop
    rcases hop with rfl | rfl | rfl
    · exact hrelation (· = ·) heq
    · exact hrelation (· < ·) hlt
    · exact hrelation (· ≤ ·) (by rw [le_iff_lt_or_eq, le_iff_lt_or_eq, hlt, heq])
  have hrun (p q : BitVec 32) : Fpu.binary op p q rm = compareFp op p q := by
    simp only [List.mem_cons, List.not_mem_nil, or_false] at hop
    rcases hop with rfl | rfl | rfl <;> rfl
  rw [hrun, hrun]
  exact (compareFp_answers hop r.word 0).eq (compareFp_answers hop a b) hcompare
    (iff_of_false (not_invalidComparison op hr hzero)
      (not_invalidComparison op hoperands.1 hoperands.2))

/-- 1.0 is less than 2.0, and 1.0 - 2.0 is less than zero. -/
theorem difference_compares_lt :
    Fpu.binary .lt 0xbf800000 0 .rne = Fpu.binary .lt 0x3f800000 0x40000000 .rne :=
  @difference_compares .lt (by decide) 0x3f800000 0x40000000 .tiesToEven (.ofWord 0xbf800000 0)
    (by decide) (by decide) .rne

end ZincSim
