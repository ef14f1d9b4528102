/-
  ZincSim.Fpu.Deliver — what the results of the FPU are in the terms of the format.

  `packExact` is built from pieces of the source.  Its words and flags are those that the
  format asks for (`delivered_of_rounds`): the number rounded on the binary32 grid, or
  the value of the mode when that is out of range.  The special results of the
  operations are delivered too, so an operation is correct when its result is the one of
  the exact datum (`Delivered`).
-/
import ZincSim.Fpu.Operand
import ZincSim.Lib.Datum

namespace ZincSim

open Rounding
open Binary32 (Datum Delivers StandsFor Overflows roundReal datum)

/-- The call delivers the datum: its word, with NV, OF and NX as the datum has them. -/
def Delivered (result : Except Fault FpResult) (mode : Mode) (d : Datum) : Prop :=
  ∃ word flags, result = .ok (.ofWord word flags) ∧
    Delivers mode d word (flags &&& fpFlagNv ≠ 0) (flags &&& fpFlagOf ≠ 0)
      (flags &&& fpFlagNx ≠ 0)

/-! ## §1. Special results -/

theorem delivered_nan (mode : Mode) (signaling : Bool) :
    Delivered (.ok (.ofWord fp32CanonicalNaN (if signaling then fpFlagNv else 0))) mode
      (.nan signaling) := by
  refine ⟨fp32CanonicalNaN, if signaling then fpFlagNv else 0, rfl, rfl, ?_, ?_, ?_⟩
  · cases signaling with
    | false => exact iff_of_false (by decide) (by simp)
    | true => exact iff_of_true (by decide) rfl
  · refine iff_of_false ?_ (by simp)
    cases signaling <;> decide
  · refine iff_of_false ?_ (by simp)
    cases signaling <;> decide

/-- An infinity may come with the flag of a division by zero. -/
theorem delivered_infinite (mode : Mode) (s : Bool) {flags : BitVec 32}
    (hflags : flags = 0 ∨ flags = fpFlagDz) :
    Delivered (.ok (.ofWord (signBits s ||| fp32Infinity) flags)) mode (.infinite s) := by
  have hword : signBits s ||| fp32Infinity = Binary32.pack s 255 0 := by
    cases s <;> decide
  have hclear : ¬ flags &&& fpFlagNv ≠ 0 ∧ ¬ flags &&& fpFlagOf ≠ 0 ∧
      ¬ flags &&& fpFlagNx ≠ 0 := by
    rcases hflags with rfl | rfl <;> decide
  obtain ⟨hnv, hof, hnx⟩ := hclear
  refine ⟨_, _, rfl, hword, ?_, ?_, ?_⟩
  · exact iff_of_false hnv (by simp)
  · exact iff_of_false hof (by simp)
  · exact iff_of_false hnx (by simp)

/-! ## §2. Zeros -/

@[simp] theorem roundReal_zero (mode : Mode) : roundReal mode 0 = 0 := by
  rw [roundReal, if_neg (lt_irrefl _), roundAt, zero_div]
  have h := roundInt_intCast (K := ℝ) (mode.direction false) 0
  rw [Int.cast_zero] at h
  rw [h, Int.cast_zero, zero_mul]

theorem not_overflows_zero (mode : Mode) : ¬ Overflows mode 0 := by
  rw [Overflows, roundReal_zero, abs_zero, not_lt, Binary32.largest]
  norm_num

/-- A number that is delivered as it is. -/
theorem delivered_exact {mode : Mode} {s : Bool} {x : ℝ} {word : BitVec 32}
    (hsign : Binary32.sign word = s) (hword : StandsFor word x) (hround : roundReal mode x = x)
    (hrange : ¬ Overflows mode x) : Delivered (.ok (.ofWord word 0)) mode (.finite s x) := by
  refine ⟨word, 0, rfl, ⟨fun _ => ⟨hsign, hround.symm ▸ hword⟩, fun h => absurd h hrange⟩, ?_, ?_,
    ?_⟩
  · exact iff_of_false (by decide) (by simp)
  · refine iff_of_false (by decide) ?_
    rintro ⟨s', x', hd, hover⟩
    cases hd
    exact hrange hover
  · refine iff_of_false (by decide) ?_
    rintro ⟨s', x', hd, hinexact⟩
    cases hd
    exact hinexact hword

theorem delivered_zero (mode : Mode) (s : Bool) :
    Delivered (.ok (.ofWord (signBits s) 0)) mode (.finite s 0) := by
  have hvalue : Binary32.value (signBits s) = some 0 := by
    rw [Binary32.value_eq_zero_iff, signBits_eq_pack, Binary32.exponent_pack,
      Binary32.fraction_pack]
    exact ⟨rfl, rfl⟩
  refine delivered_exact ?_ ⟨0, hvalue, Rat.cast_zero⟩ (roundReal_zero mode)
    (not_overflows_zero mode)
  rw [signBits_eq_pack, Binary32.sign_pack]

/-! ## §3. Rounded results -/

/-- The rounding of a signed number is the one of its magnitude. -/
theorem roundReal_signed (mode : Mode) (s : Bool) {x : ℝ} (hx : 0 < x) :
    roundReal mode (signed s x) =
      signed s (roundAt (mode.direction s) (fp32Exponent x - 23) x) := by
  have hulp : Binary32.ulpExponent (signed s x) = fp32Exponent x - 23 := by
    rw [Binary32.ulpExponent, abs_signed s hx]
    rfl
  rw [roundReal, hulp]
  cases s with
  | false => exact if_neg (not_lt.mpr hx.le)
  | true =>
    refine (if_pos (neg_lt_zero.mpr hx)).trans ?_
    show -roundAt (mode.direction true) (fp32Exponent x - 23) (- -x) = _
    rw [neg_neg]
    rfl

/-- The rounded number is out of range when its exponent is. -/
theorem largest_lt_iff {e : ℤ} {q : ℕ} (hq : q < 2 ^ 24) (hnorm : e ≠ -126 → 2 ^ 23 ≤ q) :
    Binary32.largest < (q : ℝ) * 2 ^ (e - 23) ↔ e > 127 := by
  have hq' : (q : ℝ) ≤ 2 ^ 24 - 1 := by
    have h : ((q : ℕ) : ℝ) ≤ ((2 ^ 24 - 1 : ℕ) : ℝ) := by
      exact_mod_cast (by omega : q ≤ 2 ^ 24 - 1)
    refine h.trans ?_
    push_cast
    norm_num
  rw [Binary32.largest, ← zpow_natCast (2 : ℝ) 104]
  constructor
  · intro hlarge
    by_contra hmax
    have hpow : (2 : ℝ) ^ (e - 23) ≤ 2 ^ ((104 : ℕ) : ℤ) :=
      zpow_le_zpow_right₀ (by norm_num) (by push_cast; omega)
    have hle : (q : ℝ) * 2 ^ (e - 23) ≤ (2 ^ 24 - 1) * 2 ^ ((104 : ℕ) : ℤ) :=
      mul_le_mul hq' hpow (by positivity) (by norm_num)
    linarith
  · intro hmax
    have hge : (2 : ℝ) ^ 23 ≤ q := by exact_mod_cast hnorm (by omega)
    have hpow : (2 : ℝ) ^ ((104 : ℕ) : ℤ) * 2 ≤ 2 ^ (e - 23) := by
      rw [← zpow_add_one₀ (by norm_num)]
      exact zpow_le_zpow_right₀ (by norm_num) (by push_cast; omega)
    have hunit : (0 : ℝ) < 2 ^ ((104 : ℕ) : ℤ) := by positivity
    have hlt : ((2 : ℝ) ^ 24 - 1) * 2 ^ ((104 : ℕ) : ℤ) < 2 ^ 23 * (2 ^ ((104 : ℕ) : ℤ) * 2) := by
      linarith
    exact hlt.trans_le (mul_le_mul hge hpow (by positivity) (by positivity))

/-- The word of an overflow is the one that the mode asks for. -/
theorem overflowResult_word (sign : Bool) (mode : Mode) :
    overflowResult sign (roundingMode mode) =
      .ofWord (if mode.direction sign = .toZero then Binary32.pack sign 254 (BitVec.allOnes 23)
        else Binary32.pack sign 255 0) (fpFlagOf ||| fpFlagNx) := by
  cases mode <;> cases sign <;> decide

/-- The flags of a result that did not overflow. -/
theorem roundFlags_bits (subnormal inexact : Bool) :
    ¬ roundFlags subnormal inexact &&& fpFlagNv ≠ 0 ∧
      ¬ roundFlags subnormal inexact &&& fpFlagOf ≠ 0 ∧
      (roundFlags subnormal inexact &&& fpFlagNx ≠ 0 ↔ inexact = true) := by
  cases subnormal <;> cases inexact <;> decide

/-- A number that the rounding changes is inexact. -/
theorem fp32Inexact_iff_ne (dir : Direction) (x : ℝ) :
    fp32Inexact x = true ↔ roundAt dir (fp32Exponent x - 23) x ≠ x := by
  rw [fp32Inexact_iff, ← roundAt_eq_self_iff dir]

/-- The largest number is on its grid. -/
theorem roundAt_largest (dir : Direction) :
    roundAt dir (fp32Exponent Binary32.largest - 23) Binary32.largest = Binary32.largest := by
  have hlog : Int.log 2 Binary32.largest = 127 := by
    apply log_eq_of_binade
    · rw [Binary32.largest]
      norm_num
    · rw [Binary32.largest]
      norm_num
  rw [roundAt_eq_self_iff, fp32Exponent, hlog]
  refine ⟨2 ^ 24 - 1, ?_⟩
  rw [Binary32.largest]
  norm_num

/-- What is out of range is not what the overflow delivers. -/
theorem not_standsFor_overflow {mode : Mode} {s : Bool} {x : ℝ}
    (hlarge : Binary32.largest < roundAt (mode.direction s) (fp32Exponent x - 23) x) :
    ¬ StandsFor (if mode.direction s = .toZero then Binary32.pack s 254 (BitVec.allOnes 23)
      else Binary32.pack s 255 0) (signed s x) := by
  rintro ⟨v, hv, hvx⟩
  split at hv
  · -- the largest number, which does not overflow
    have hvalue := value_pack_rounded s (e := 127) (q := 2 ^ 24 - 1) (by decide) le_rfl (by decide)
      (fun _ => by decide)
    have hfields : exponentField 127 (2 ^ 24 - 1) = 254 ∧
        BitVec.ofNat 23 (2 ^ 24 - 1) = BitVec.allOnes 23 := by decide
    rw [hfields.1, hfields.2, hv] at hvalue
    have hcast : (v : ℝ) = signed s Binary32.largest := by
      rw [Option.some.inj hvalue, Binary32.largest]
      cases s <;> simp [signed] <;> norm_num
    rw [hcast, signed_inj] at hvx
    rw [← hvx, roundAt_largest] at hlarge
    exact lt_irrefl _ hlarge
  · rw [Binary32.value, Binary32.exponent_pack, if_pos rfl] at hv
    cases hv

/-- **A number that is rounded once is delivered.** -/
theorem delivered_of_rounds {result : Except Fault FpResult} {mode : Mode} {x : ℝ} (hx : x ≠ 0)
    (h : RoundsTo result mode x) : Delivered result mode (.finite (decide (x < 0)) x) := by
  -- sign and magnitude
  obtain ⟨s, m, hm, rfl⟩ : ∃ s m, 0 < m ∧ x = signed s m := by
    rcases lt_or_gt_of_ne hx with hneg | hpos
    · exact ⟨true, -x, neg_pos.mpr hneg, (neg_neg x).symm⟩
    · exact ⟨false, x, hpos, rfl⟩
  have hs : decide (signed s m < 0) = s := by
    rw [Bool.eq_iff_iff, decide_eq_true_iff, signed_lt_zero_iff s hm]
  rw [RoundsTo, hs, abs_signed s hm] at h
  rw [hs, h]
  obtain ⟨e, q, hlow, hq, hnormal, hround, hpack⟩ := packExact_encoded s mode hm
  have hnorm : e ≠ -126 → 2 ^ 23 ≤ q := fun hne => hnormal (.inl hne)
  have hnonneg : (0 : ℝ) ≤ q * 2 ^ (e - 23) := by positivity
  have hover : Overflows mode (signed s m) ↔ e > 127 := by
    rw [Overflows, roundReal_signed mode s hm, hround, ← largest_lt_iff hq hnorm]
    have habs : |signed s ((q : ℝ) * 2 ^ (e - 23))| = q * 2 ^ (e - 23) := by
      cases s with
      | false => exact abs_of_nonneg hnonneg
      | true => exact (abs_neg _).trans (abs_of_nonneg hnonneg)
    rw [habs]
  rw [hpack]
  by_cases hmax : e > 127
  · have hlarge := (largest_lt_iff hq hnorm).mpr hmax
    rw [← hround] at hlarge
    rw [if_pos hmax, overflowResult_word]
    refine ⟨_, _, rfl, ⟨fun hno => absurd (hover.mpr hmax) hno, fun _ => rfl⟩, ?_, ?_, ?_⟩
    · exact iff_of_false (by decide) (by simp)
    · exact iff_of_true (by decide) ⟨_, _, rfl, hover.mpr hmax⟩
    · exact iff_of_true (by decide) ⟨_, _, rfl, not_standsFor_overflow hlarge⟩
  · obtain ⟨hnv, hof, hnx⟩ := roundFlags_bits (isSubnormal e q) (fp32Inexact m)
    have hvalue := value_pack_rounded s hlow (not_lt.mp hmax) hq hnorm
    have hcast : (((if s then -((q : ℚ) * 2 ^ (e - 23)) else (q : ℚ) * 2 ^ (e - 23)) : ℚ) : ℝ) =
        signed s (q * 2 ^ (e - 23)) := by
      cases s <;> simp [signed]
    rw [if_neg hmax]
    refine ⟨_, _, rfl, ⟨fun _ => ⟨Binary32.sign_pack _ _ _, _, hvalue, ?_⟩,
      fun hover' => absurd (hover.mp hover') hmax⟩, ?_, ?_, ?_⟩
    · rw [hcast, roundReal_signed mode s hm, hround]
    · exact iff_of_false hnv (by simp)
    · refine iff_of_false hof ?_
      rintro ⟨s', x', hd, hover'⟩
      cases hd
      exact hmax (hover.mp hover')
    · rw [hnx, fp32Inexact_iff_ne (mode.direction s), hround]
      constructor
      · rintro hne
        refine ⟨_, _, rfl, ?_⟩
        rintro ⟨v, hv, hvx⟩
        rw [hvalue] at hv
        rw [← Option.some.inj hv, hcast, signed_inj] at hvx
        exact hne hvx
      · rintro ⟨s', x', hd, hinexact⟩ heq
        cases hd
        exact hinexact ⟨_, hvalue, by rw [hcast, heq]⟩

/-- The same, for a sign and a magnitude. -/
theorem delivered_of_packed {result : Except Fault FpResult} {mode : Mode} {s : Bool} {x : ℝ}
    (hx : 0 < x) (h : result = .ok (packExact s mode x)) :
    Delivered result mode (.finite s (signed s x)) := by
  have hne : signed s x ≠ 0 := by
    rw [← abs_pos, abs_signed s hx]
    exact hx
  have hs : decide (signed s x < 0) = s := by
    rw [Bool.eq_iff_iff, decide_eq_true_iff, signed_lt_zero_iff s hx]
  have hdelivered := delivered_of_rounds hne (roundsTo_signed hx h)
  rwa [hs] at hdelivered

/-! ## §4. Numbers in range -/

/-- The numbers that cannot overflow or be subnormal, whatever the mode. -/
def InRange (x : ℝ) : Prop := 2 ^ (-126 : ℤ) ≤ x ∧ x < 2 ^ (127 : ℤ)

/-- **In range a result raises nothing or NX.** -/
theorem packExact_in_range (sign : Bool) (mode : Mode) {x : ℝ} (hrange : InRange x) :
    (packExact sign mode x).flags = 0 ∨ (packExact sign mode x).flags = fpFlagNx := by
  obtain ⟨hlow, hhigh⟩ := hrange
  have hx : 0 < x := lt_of_lt_of_le (by positivity) hlow
  have hlog : -126 ≤ Int.log 2 x :=
    (Int.zpow_le_iff_le_log (by norm_num) hx).mp (by exact_mod_cast hlow)
  have hlog' : Int.log 2 x < 127 :=
    (Int.lt_zpow_iff_log_lt (by norm_num) hx).mp (by exact_mod_cast hhigh)
  have hunder := packExact_flags_of_normal sign mode hx hlog
  obtain ⟨e, q, -, hq, hnormal, hround, hpack⟩ := packExact_encoded sign mode hx
  have hnorm : e ≠ -126 → 2 ^ 23 ≤ q := fun hne => hnormal (.inl hne)
  have hmax : ¬ e > 127 := by
    rw [← largest_lt_iff hq hnorm, ← hround, not_lt]
    -- the rounded number stays in the binade or reaches its end
    have hle : roundAt (mode.direction sign) (fp32Exponent x - 23) x ≤ 2 ^ (127 : ℤ) := by
      refine roundAt_le ?_ hhigh.le
      rw [fp32Exponent]
      omega
    refine hle.trans ?_
    rw [Binary32.largest]
    norm_num
  rw [hpack, if_neg hmax] at hunder ⊢
  show roundFlags _ _ = 0 ∨ roundFlags _ _ = fpFlagNx
  change roundFlags _ _ &&& fpFlagUf = 0 at hunder
  revert hunder
  generalize isSubnormal e q = subnormal
  cases subnormal <;> cases fp32Inexact x <;> decide

/-- A number that the format has keeps its value under every mode. -/
theorem roundReal_of_standsFor {word : BitVec 32} {x : ℝ} (h : StandsFor word x) (mode : Mode) :
    roundReal mode x = x ∧ ¬ Overflows mode x := by
  obtain ⟨v, hv, rfl⟩ := h
  by_cases hv0 : v = 0
  · rw [hv0, Rat.cast_zero]
    exact ⟨roundReal_zero mode, not_overflows_zero mode⟩
  · obtain ⟨hfinite, hsigned⟩ := value_eq_signed hv
    have hm0 : Binary32.magnitude word ≠ 0 := by
      intro h0
      rw [h0, Rat.cast_zero, signed_zero] at hsigned
      exact hv0 (by exact_mod_cast hsigned)
    have hm : (0 : ℝ) < (Binary32.magnitude word : ℚ) := by
      exact_mod_cast lt_of_le_of_ne (Binary32.magnitude_nonneg word) (Ne.symm hm0)
    have hpacked := packExact_magnitude (Binary32.sign word) mode hfinite hm0
    obtain ⟨e, q, -, hq, hnormal, hround, hpack⟩ :=
      packExact_encoded (Binary32.sign word) mode hm
    have hnorm : e ≠ -126 → 2 ^ 23 ≤ q := fun hne => hnormal (.inl hne)
    have hflags := congrArg FpResult.flags (hpack.symm.trans hpacked)
    by_cases hmax : e > 127
    · rw [if_pos hmax, overflowResult_word] at hflags
      have hraised : fpFlagOf ||| fpFlagNx = 0 := hflags
      exact absurd hraised (by decide)
    · rw [if_neg hmax] at hflags
      have hexact : fp32Inexact ((Binary32.magnitude word : ℚ) : ℝ) = false := by
        by_contra hne
        rw [Bool.not_eq_false] at hne
        have hraised : roundFlags (isSubnormal e q) true = 0 := hne ▸ hflags
        exact absurd hraised (by cases isSubnormal e q <;> decide)
      rw [← Bool.not_eq_true, fp32Inexact_iff_ne (mode.direction (Binary32.sign word)),
        not_not] at hexact
      have hreal : roundReal mode v = v := by
        rw [hsigned, roundReal_signed mode _ hm, hexact]
      refine ⟨hreal, ?_⟩
      rw [Overflows, hreal, hsigned, abs_signed _ hm, ← hexact, hround, largest_lt_iff hq hnorm]
      exact hmax

/-- The word of a datum is the datum when the format has it. -/
theorem standsFor_iff_of_encodes {mode : Mode} {word : BitVec 32} {s : Bool} {x : ℝ}
    (h : Binary32.Encodes mode word (.finite s x)) :
    StandsFor word x ↔ ∃ w, StandsFor w x := by
  refine ⟨fun hword => ⟨word, hword⟩, ?_⟩
  rintro ⟨w, hw⟩
  obtain ⟨hreal, hover⟩ := roundReal_of_standsFor hw mode
  exact hreal ▸ (h.1 hover).2

/-- **A positive or negative number in range is delivered with nothing or NX**, as the
format has it or not. -/
theorem delivered_in_range {result : Except Fault FpResult} {mode : Mode} {s : Bool} {x : ℝ}
    (hrange : InRange x) (h : result = .ok (packExact s mode x)) :
    ∃ word flags, result = .ok (.ofWord word flags) ∧ Binary32.sign word = s ∧
      StandsFor word (roundReal mode (signed s x)) ∧
      ((∃ w, StandsFor w (signed s x)) ∧ flags = 0 ∨
        ¬ (∃ w, StandsFor w (signed s x)) ∧ flags = fpFlagNx) := by
  have hx : 0 < x := lt_of_lt_of_le (by positivity) hrange.1
  obtain ⟨word, flags, hrun, hdelivers⟩ := delivered_of_packed hx h
  have hflags : flags = 0 ∨ flags = fpFlagNx := by
    rw [h] at hrun
    have hpacked := congrArg FpResult.flags (Except.ok.inj hrun)
    rw [show flags = (packExact s mode x).flags from hpacked.symm]
    exact packExact_in_range s mode hrange
  have hover : ¬ Overflows mode (signed s x) := by
    intro hover
    have hof := hdelivers.overflow.mpr ⟨_, _, rfl, hover⟩
    rcases hflags with hflags | hflags <;> rw [hflags] at hof <;> exact absurd hof (by decide)
  have hencodes := hdelivers.encodes.1 hover
  refine ⟨word, flags, hrun, hencodes.1, hencodes.2, ?_⟩
  rw [← standsFor_iff_of_encodes hdelivers.encodes]
  rcases hflags with hflags | hflags
  · refine .inl ⟨?_, hflags⟩
    by_contra hno
    have hnx := hdelivers.inexact.mpr ⟨_, _, rfl, hno⟩
    rw [hflags] at hnx
    exact hnx rfl
  · refine .inr ⟨?_, hflags⟩
    intro hyes
    obtain ⟨_, _, hd, hno⟩ := hdelivers.inexact.mp (by rw [hflags]; decide)
    cases hd
    exact hno hyes

/-! ## §5. Operands -/

/-- The class of a NaN. -/
theorem ofRaw_nan {raw : BitVec 32} (h : Binary32.IsNaN raw) :
    ∃ u, UnpackedFp32.ofRaw raw = .ok u ∧
      u.fpClass = if (Binary32.fraction raw).msb then .quietNaN else .signalingNaN := by
  obtain ⟨u, hu, hreads⟩ := ofRaw_reads raw
  refine ⟨u, hu, ?_⟩
  cases hreads with
  | infinity he hf => exact absurd hf h.2
  | nan => rfl
  | zero he => exact absurd (he.symm.trans h.1) (by decide)
  | subnormal he => exact absurd (he.symm.trans h.1) (by decide)
  | normal he => exact absurd h.1 he

/-- **What the constructor reads** is the datum: a NaN, an infinity or a finite operand. -/
theorem Operand.reads {raw : BitVec 32} {u : UnpackedFp32} (h : Operand raw u) :
    (u.fpClass.isNan = true ∧ datum raw = .nan u.fpClass.isSignalingNan) ∨
    (u.fpClass = .infinity ∧ datum raw = .infinite u.sign) ∨
    (∃ v, Binary32.value raw = some v ∧ FiniteOperand raw v u ∧
      datum raw = .finite u.sign v) := by
  rcases h.cases with hnan | hinf | ⟨v, hv, hfinite⟩
  · obtain ⟨u', hu', hclass⟩ := ofRaw_nan hnan
    obtain rfl := Except.ok.inj (hu'.symm.trans h.unpack)
    refine .inl ⟨h.isNan_iff.mpr hnan, ?_⟩
    rw [Binary32.datum_of_nan hnan, hclass]
    cases (Binary32.fraction raw).msb <;> rfl
  · refine .inr (.inl ⟨h.infinity_iff.mpr hinf, ?_⟩)
    rw [Binary32.datum_of_infinite hinf, h.sign]
  · refine .inr (.inr ⟨v, hv, hfinite, ?_⟩)
    rw [Binary32.datum_of_value hv, h.sign]

/-- The two tests for a NaN are those of the datum. -/
theorem Operand.nan_tests {raw : BitVec 32} {u : UnpackedFp32} (h : Operand raw u) :
    u.fpClass.isNan = (datum raw).isNaN ∧ u.fpClass.isSignalingNan = (datum raw).signaling := by
  have hquiet {fpClass : FpClass} (hclass : fpClass.isNan = false) :
      fpClass.isSignalingNan = false := by
    cases fpClass <;> first | rfl | exact absurd hclass (by decide)
  rcases h.reads with ⟨hnan, hd⟩ | ⟨hinf, hd⟩ | ⟨v, -, hfinite, hd⟩
  · rw [hd]
    exact ⟨hnan, rfl⟩
  · rw [hd, hinf]
    exact ⟨rfl, rfl⟩
  · rw [hd]
    exact ⟨hfinite.isNan, hquiet hfinite.isNan⟩

/-- What an operand that is not a NaN reads. -/
theorem Operand.reads_number {raw : BitVec 32} {u : UnpackedFp32} (h : Operand raw u)
    (hnan : u.fpClass.isNan = false) :
    (u.fpClass = .infinity ∧ datum raw = .infinite u.sign) ∨
    (∃ v, Binary32.value raw = some v ∧ FiniteOperand raw v u ∧
      datum raw = .finite u.sign v) := by
  rcases h.reads with ⟨hnan', -⟩ | h | h
  · rw [hnan] at hnan'
    cases hnan'
  · exact .inl h
  · exact .inr h

/-- `propagate_nan` delivers the NaN of two operands. -/
theorem delivered_propagateNan {lhsRaw rhsRaw : BitVec 32} {lhs rhs : UnpackedFp32}
    (hl : Operand lhsRaw lhs) (hr : Operand rhsRaw rhs) (mode : Mode) :
    Delivered (.ok (propagateNan lhs rhs)) mode
      (.nan ((datum lhsRaw).signaling || (datum rhsRaw).signaling)) := by
  rw [← hl.nan_tests.2, ← hr.nan_tests.2]
  exact delivered_nan mode _

end ZincSim
