/-
  ZincSim.Fpu.CheckedArith — the rounded operations pass their checks.

  Each operation is shown clean from the ranges of its unpacked operands, 24 bits of
  significand and an exponent in [-149, 127], and from there on what each function hands to
  the next, down to the significand that `round_and_pack` is called with.
-/
import ZincSim.Fpu.Calls
import ZincSim.Fpu.CheckedRound

namespace ZincSim

open Checked Sticky
open CheckedFpu (int32)

/-! ## §1. Addition -/

section Add

variable {rawL rawR : BitVec 32} {lhs rhs : UnpackedFp32} (hl : Unpacked rawL lhs)
  (hr : Unpacked rawR rhs)

/-- A significand of 24 bits may be shifted up by 40. -/
theorem Unpacked.shl_word {raw : BitVec 32} {u : UnpackedFp32} (h : Unpacked raw u) {n : ℕ}
    (hn : n ≤ 40) : (shl (u.significand.setWidth 64 : BitVec 64) n : CheckedFpu.Run _) =
      .ok (u.significand.setWidth 64 <<< n) := by
  have hhigh := h.high
  have hpow : 2 ^ n ≤ 2 ^ 40 := Nat.pow_le_pow_right (by decide) hn
  apply shl_of_lt
  rw [h.toNat_word]
  calc u.significand.toNat * 2 ^ n ≤ (2 ^ 24 - 1) * 2 ^ 40 := Nat.mul_le_mul (by omega) hpow
    _ < 2 ^ 64 := by decide

/-- The significand with three bits more. -/
theorem Unpacked.extended_lt {raw : BitVec 32} {u : UnpackedFp32} (h : Unpacked raw u) :
    (u.significand.setWidth 64 <<< 3 : BitVec 64).toNat < 2 ^ 27 := h.extended.high

include hl hr

theorem alignAddends_clean :
    Clean (CheckedFpu.alignAddends lhs rhs) (.ok (alignAddends lhs rhs)) := by
  have hllow := hl.exponent_low
  have hlhigh := hl.exponent_high
  have hrlow := hr.exponent_low
  have hrhigh := hr.exponent_high
  unfold CheckedFpu.alignAddends alignAddends
  refine clean_check (hl.shl_word (by decide)) (clean_check (hr.shl_word (by decide)) ?_)
  refine clean_ite_ok (fun _ => ?_) fun _ => clean_ite_ok (fun _ => ?_) fun _ => clean_ok _
  · exact clean_check (int32_of_range (by omega) (by omega))
      (clean_check (shiftRightJam_checked _ _) (clean_ok _))
  · exact clean_check (int32_of_range (by omega) (by omega))
      (clean_check (shiftRightJam_checked _ _) (clean_ok _))

theorem alignAddends_range : ∃ e l r, alignAddends lhs rhs = (e, l, r) ∧ l.toNat < 2 ^ 27 ∧
    r.toNat < 2 ^ 27 ∧ -149 ≤ e ∧ e ≤ 127 := by
  have hlext := hl.extended_lt
  have hrext := hr.extended_lt
  unfold alignAddends
  dsimp only
  split
  · exact ⟨_, _, _, rfl, hlext, shiftRightJam_lt (by decide) hrext _, hl.exponent_low,
      hl.exponent_high⟩
  split
  · exact ⟨_, _, _, rfl, shiftRightJam_lt (by decide) hlext _, hrext, hr.exponent_low,
      hr.exponent_high⟩
  · exact ⟨_, _, _, rfl, hlext, hrext, hl.exponent_low, hl.exponent_high⟩

theorem addFinite_clean (rhsSign : Bool) (rm : RoundingMode) :
    Clean (CheckedFpu.addFinite lhs rhs rhsSign rm) (addFinite lhs rhs rhsSign rm) := by
  obtain ⟨e, l, r, halign, hlhigh, hrhigh, helow, hehigh⟩ := alignAddends_range hl hr
  have hchecked := alignAddends_clean hl hr
  rw [halign] at hchecked
  unfold CheckedFpu.addFinite addFinite
  rw [halign]
  refine clean_check hchecked ?_
  dsimp only
  refine clean_ite (fun _ => ?_) fun _ => clean_ite (fun _ => clean_ok _) fun hne => ?_
  · have hsum : (l + r).toNat < 2 ^ 28 := by
      rw [BitVec.toNat_add]
      omega
    exact clean_check (add_of_lt (by omega))
      (roundAndPack_clean _ ⟨hsum, by omega, by omega⟩ rm)
  · refine roundAndPack_clean _ ⟨?_, by omega, by omega⟩ rm
    -- the smaller significand is taken from the larger one
    by_cases hgt : l > r
    · have hsub := BitVec.toNat_sub_of_le (Nat.le_of_lt hgt)
      rw [if_pos (decide_eq_true hgt), hsub]
      omega
    · have hsub := BitVec.toNat_sub_of_le (BitVec.not_lt.mp hgt)
      rw [if_neg (by rw [decide_eq_false hgt]; decide), hsub]
      omega

end Add

/-- **`add_or_sub` is clean** for all operands. -/
theorem addOrSub_clean (lhsRaw rhsRaw : BitVec 32) (subtract : Bool) (rm : RoundingMode) :
    Clean (CheckedFpu.addOrSub lhsRaw rhsRaw subtract rm) (addOrSub lhsRaw rhsRaw subtract rm) := by
  obtain ⟨lhs, hl⟩ := Operand.of_raw lhsRaw
  obtain ⟨rhs, hr⟩ := Operand.of_raw rhsRaw
  unfold CheckedFpu.addOrSub addOrSub
  rw [hl.unpack, hr.unpack]
  refine clean_check ((ofRaw_clean lhsRaw).eq_ok hl.unpack) ?_
  refine clean_check ((ofRaw_clean rhsRaw).eq_ok hr.unpack) ?_
  refine clean_ite (fun _ => clean_ok _) fun hnan => ?_
  refine clean_ite (fun _ => clean_ite (fun _ => clean_ok _) fun _ => clean_ok _) fun hinf => ?_
  refine clean_ite (fun _ => clean_ok _) fun _ => ?_
  refine clean_ite (fun _ => clean_ok _) fun hlzero => ?_
  refine clean_ite (fun _ => clean_ok _) fun hrzero => ?_
  rw [Bool.or_eq_true, not_or] at hnan
  rw [not_or] at hinf
  exact addFinite_clean (hl.unpacked (hl.nonzero_of_class hnan.1 hinf.1 hlzero))
    (hr.unpacked (hr.nonzero_of_class hnan.2 hinf.2 hrzero)) _ rm

/-! ## §2. Multiplication and fused multiply-add -/

section Multiply

variable {rawL rawR : BitVec 32} {lhs rhs : UnpackedFp32} (hl : Unpacked rawL lhs)
  (hr : Unpacked rawR rhs)

include hl hr

theorem productOf_checked : (mul (lhs.significand.setWidth 64 : BitVec 64)
    (rhs.significand.setWidth 64) : CheckedFpu.Run _) = .ok (productOf lhs rhs) := by
  apply mul_of_lt
  have hlhigh := hl.high
  have hrhigh := hr.high
  rw [hl.toNat_word, hr.toNat_word]
  calc lhs.significand.toNat * rhs.significand.toNat ≤ 2 ^ 24 * 2 ^ 24 :=
        Nat.mul_le_mul (by omega) (by omega)
    _ < 2 ^ 64 := by decide

theorem productExponent_checked :
    CheckedFpu.productExponent lhs rhs (productAtLeastTwo lhs rhs) =
      .ok (productExponent lhs rhs) := by
  have hllow := hl.exponent_low
  have hlhigh := hl.exponent_high
  have hrlow := hr.exponent_low
  have hrhigh := hr.exponent_high
  unfold CheckedFpu.productExponent productExponent
  rw [int32_of_range (by omega) (by omega)]
  refine int32_of_range ?_ ?_
  all_goals
    split <;> omega

theorem productExponent_range :
    -298 ≤ productExponent lhs rhs ∧ productExponent lhs rhs ≤ 255 := by
  have hllow := hl.exponent_low
  have hlhigh := hl.exponent_high
  have hrlow := hr.exponent_low
  have hrhigh := hr.exponent_high
  unfold productExponent
  split <;> omega

end Multiply

/-- **`multiply` is clean** for all operands. -/
theorem multiply_clean (lhsRaw rhsRaw : BitVec 32) (rm : RoundingMode) :
    Clean (CheckedFpu.multiply lhsRaw rhsRaw rm) (multiply lhsRaw rhsRaw rm) := by
  obtain ⟨lhs, hl⟩ := Operand.of_raw lhsRaw
  obtain ⟨rhs, hr⟩ := Operand.of_raw rhsRaw
  unfold CheckedFpu.multiply multiply
  rw [hl.unpack, hr.unpack]
  refine clean_check ((ofRaw_clean lhsRaw).eq_ok hl.unpack) ?_
  refine clean_check ((ofRaw_clean rhsRaw).eq_ok hr.unpack) ?_
  refine clean_ite (fun _ => clean_ok _) fun hnan => ?_
  refine clean_ite (fun _ => clean_ok _) fun _ => ?_
  refine clean_ite (fun _ => clean_ok _) fun hinf => ?_
  refine clean_ite (fun _ => clean_ok _) fun hzero => ?_
  rw [Bool.or_eq_true, not_or] at hnan
  rw [Bool.or_eq_true, decide_eq_true_iff, decide_eq_true_iff, not_or] at hinf hzero
  have hul := hl.unpacked (hl.nonzero_of_class hnan.1 hinf.1 hzero.1)
  have hur := hr.unpacked (hr.nonzero_of_class hnan.2 hinf.2 hzero.2)
  obtain ⟨helow, hehigh⟩ := productExponent_range hul hur
  obtain ⟨-, hjam⟩ := jam_product_range hul hur
  refine clean_check (productOf_checked hul hur) ?_
  refine clean_check (productExponent_checked hul hur) ?_
  refine clean_check (shiftRightJam_checked _ _) ?_
  exact roundAndPack_clean _ ⟨hjam.trans (by decide), by omega, by omega⟩ rm

section Fma

/-- The addend of a fused multiply-add that takes none of the special branches. -/
def IsAddend (addend : UnpackedFp32) : Prop :=
  addend.significand = 0 ∨ ∃ raw, Unpacked raw addend

theorem wideAddend_checked {addend : UnpackedFp32} (h : IsAddend addend) :
    (shl (addend.significand.setWidth 64 : BitVec 64) 39 : CheckedFpu.Run _) =
      .ok (wideAddend addend) := by
  obtain hzero | ⟨raw, hraw⟩ := h
  · unfold wideAddend
    rw [hzero]
    exact shl_of_lt (by decide)
  · exact hraw.shl_word (by decide)

theorem wideAddend_lt {addend : UnpackedFp32} (h : IsAddend addend) :
    (wideAddend addend).toNat < 2 ^ 63 := by
  obtain hzero | ⟨raw, hraw⟩ := h
  · unfold wideAddend
    rw [hzero]
    decide
  · exact (wideAddend_exact hraw).high

variable {rawL rawR : BitVec 32} {lhs rhs addend : UnpackedFp32} (hl : Unpacked rawL lhs)
  (hr : Unpacked rawR rhs) (ha : IsAddend addend)

include hl hr

theorem wideProduct_checked :
    (shl (productOf lhs rhs) (if productAtLeastTwo lhs rhs then 15 else 16) :
      CheckedFpu.Run _) = .ok (wideProduct lhs rhs) := by
  apply shl_of_lt
  obtain ⟨htwo, -, -, hhigh⟩ | ⟨htwo, -, -, hhigh⟩ := product_cases hl hr
  · rw [if_pos htwo]
    omega
  · rw [if_neg (by rw [htwo]; decide)]
    omega

include ha

/-- The exponent of an addend, or of the product it is added to when it is zero. -/
theorem addendExponent_range :
    -298 ≤ (if wideAddend addend = 0 then productExponent lhs rhs else addend.exponent) ∧
      (if wideAddend addend = 0 then productExponent lhs rhs else addend.exponent) ≤ 255 := by
  have hproduct := productExponent_range hl hr
  split
  case isTrue => exact hproduct
  case isFalse hne =>
    obtain hzero | ⟨raw, hraw⟩ := ha
    · refine absurd ?_ hne
      unfold wideAddend
      rw [hzero]
      rfl
    · have hlow := hraw.exponent_low
      have hhigh := hraw.exponent_high
      omega

omit hl hr ha in
theorem alignFma_clean {e f : ℤ} (he : -298 ≤ e ∧ e ≤ 255) (hf : -298 ≤ f ∧ f ≤ 255)
    (p a : BitVec 64) : Clean (CheckedFpu.alignFma e f p a) (.ok (alignFma e f p a)) := by
  unfold CheckedFpu.alignFma alignFma
  refine clean_ite_ok (fun _ => ?_) fun _ => clean_ite_ok (fun _ => ?_) fun _ => clean_ok _
  · exact clean_check (int32_of_range (by omega) (by omega))
      (clean_check (shiftRightJam_checked _ _) (clean_ok _))
  · exact clean_check (int32_of_range (by omega) (by omega))
      (clean_check (shiftRightJam_checked _ _) (clean_ok _))

omit hl hr ha in
theorem alignFma_range {e f : ℤ} (he : -298 ≤ e ∧ e ≤ 255) (hf : -298 ≤ f ∧ f ≤ 255)
    {p a : BitVec 64} (hp : p.toNat < 2 ^ 63) (ha : a.toNat < 2 ^ 63) :
    ∃ g l r, alignFma e f p a = (g, l, r) ∧ l.toNat < 2 ^ 63 ∧ r.toNat < 2 ^ 63 ∧
      -298 ≤ g ∧ g ≤ 255 := by
  unfold alignFma
  split
  · exact ⟨_, _, _, rfl, hp, shiftRightJam_lt (by decide) ha _, he.1, he.2⟩
  split
  · exact ⟨_, _, _, rfl, shiftRightJam_lt (by decide) hp _, ha, hf.1, hf.2⟩
  · exact ⟨_, _, _, rfl, hp, ha, he.1, he.2⟩

omit hl hr ha in
/-- **The sum in `compute_fma` loses no bit.** -/
theorem combineFma_clean {l r : BitVec 64} (hl : l.toNat < 2 ^ 63) (hr : r.toNat < 2 ^ 63)
    (s t : Bool) : Clean (CheckedFpu.combineFma s t l r) (.ok (combineFma s t l r)) := by
  unfold CheckedFpu.combineFma combineFma
  refine clean_ite_ok (fun _ => ?_) fun _ => clean_ite_ok (fun _ => clean_ok _) fun _ => clean_ok _
  exact clean_check (add_of_lt (by omega)) (clean_ok _)

/-- **`compute_fma` is clean**. -/
theorem computeFma_clean (s t : Bool) :
    Clean (CheckedFpu.computeFma lhs rhs addend s t) (computeFma lhs rhs addend s t) := by
  have hexp := productExponent_range hl hr
  have haexp := addendExponent_range hl hr ha
  have halign := alignFma_clean hexp haexp (wideProduct lhs rhs) (wideAddend addend)
  obtain ⟨g, l, r, hpair, hlhigh, hrhigh, hglow, hghigh⟩ :=
    alignFma_range hexp haexp (wideProduct_exact hl hr).high (wideAddend_lt ha)
  have hcombine := combineFma_clean hlhigh hrhigh s t
  rw [hpair] at halign
  obtain ⟨significand, sign, hsum⟩ : ∃ x y, combineFma s t l r = (x, y) := ⟨_, _, rfl⟩
  rw [hsum] at hcombine
  rw [computeFma_eq hpair hsum]
  unfold CheckedFpu.computeFma
  refine clean_check (productOf_checked hl hr) ?_
  refine clean_check (wideProduct_checked hl hr) ?_
  refine clean_check (productExponent_checked hl hr) ?_
  refine clean_check (wideAddend_checked ha) ?_
  refine clean_check halign (clean_check hcombine ?_)
  refine clean_ite (fun _ => clean_ok _) fun hne => ?_
  refine clean_check (require_of hne) ?_
  refine clean_bind (shiftUpToWideHidden_clean (by omega) (by omega)) fun _ _ => ?_
  exact clean_check (shiftRightJam_checked _ _) (clean_ok _)

/-- What `compute_fma` returns can be rounded. -/
theorem computeFma_roundable (s t : Bool) : (computeFma lhs rhs addend s t).Returns
    fun result => Roundable result.significand result.exponent := by
  have hexp := productExponent_range hl hr
  have haexp := addendExponent_range hl hr ha
  obtain ⟨g, l, r, hpair, -, -, hglow, hghigh⟩ :=
    alignFma_range hexp haexp (wideProduct_exact hl hr).high (wideAddend_lt ha)
  obtain ⟨significand, sign, hsum⟩ : ∃ x y, combineFma s t l r = (x, y) := ⟨_, _, rfl⟩
  rw [computeFma_eq hpair hsum]
  have hzero : Roundable 0 g := ⟨by decide, by omega, by omega⟩
  refine Except.returns_ite (fun _ => Except.returns_ok hzero) fun hne => ?_
  have hpos : 0 < significand.toNat := BitVec.toNat_pos_of_ne_zero hne
  obtain ⟨s', k, hrun, hval, -, -⟩ := shiftUpToWideHidden_spec g hpos
  -- the word has room for fewer than 64 doublings
  have hk : k < 64 := by
    rw [← Nat.pow_lt_pow_iff_right (a := 2) (by decide)]
    exact (Nat.le_mul_of_pos_left _ hpos).trans_lt (hval ▸ s'.isLt)
  rw [hrun]
  refine Except.returns_ok ⟨?_, ?_, ?_⟩
  · show (shiftRightJam s' 36).toNat < 2 ^ 28
    rw [toNat_shiftRightJam]
    exact jam_lt_two_pow (by decide) (Nat.div_lt_of_lt_mul s'.isLt)
  · show -1000 ≤ g - k
    omega
  · show g - k ≤ 1000
    omega

end Fma

/-- The addend that is neither a NaN nor infinite. -/
theorem Operand.isAddend {raw : BitVec 32} {u : UnpackedFp32} (h : Operand raw u)
    (hn : ¬ u.fpClass.isNan = true) (hi : u.fpClass ≠ .infinity) : IsAddend u := by
  obtain ⟨v, -, hfin⟩ := h.finite_of_class hn hi
  by_cases hv : v = 0
  · exact .inl (hfin.significand_of_zero hv)
  · exact .inr ⟨raw, hfin.unpacked hv⟩

/-- **`Fpu::fma` is clean** for all operands. -/
theorem fma_clean (type : FmaFpType) (lhsRaw rhsRaw addendRaw : BitVec 32) (rm : RoundingMode) :
    Clean (CheckedFpu.fma type lhsRaw rhsRaw addendRaw rm)
      (Fpu.fma type lhsRaw rhsRaw addendRaw rm) := by
  obtain ⟨lhs, hl⟩ := Operand.of_raw lhsRaw
  obtain ⟨rhs, hr⟩ := Operand.of_raw rhsRaw
  obtain ⟨addend, ha⟩ := Operand.of_raw addendRaw
  unfold CheckedFpu.fma Fpu.fma
  rw [hl.unpack, hr.unpack, ha.unpack]
  refine clean_check ((ofRaw_clean lhsRaw).eq_ok hl.unpack) ?_
  refine clean_check ((ofRaw_clean rhsRaw).eq_ok hr.unpack) ?_
  refine clean_check ((ofRaw_clean addendRaw).eq_ok ha.unpack) ?_
  refine clean_ite (fun _ => clean_ok _) fun hnan => ?_
  refine clean_ite (fun _ => clean_ite (fun _ => clean_ok _) fun _ => clean_ok _) fun hinf => ?_
  refine clean_ite (fun _ => clean_ok _) fun hainf => ?_
  refine clean_ite (fun _ => clean_ite (fun _ => clean_ok _) fun _ => clean_ok _) fun hzero => ?_
  simp only [Bool.or_eq_true, decide_eq_true_eq, not_or] at hnan hinf hainf hzero
  have hul := hl.unpacked (hl.nonzero_of_class hnan.1.1.1 hinf.1 hzero.1)
  have hur := hr.unpacked (hr.nonzero_of_class hnan.1.1.2 hinf.2 hzero.2)
  have hadd := ha.isAddend hnan.1.2 hainf
  refine clean_bind (computeFma_clean hul hur hadd _ _) fun result hresult => ?_
  exact roundAndPack_clean _ (computeFma_roundable hul hur hadd _ _ result hresult) rm

/-! ## §3. Division -/

/-- The partial remainder is below the divisor, so the shift by one loses no bit. -/
theorem divideLoop_clean {dividend divisor : BitVec 64} (hdivisor : divisor.toNat ≤ 2 ^ 63)
    (bit : ℕ) (hbit : bit ≤ 64) (result : DivisionResult)
    (hrem : result.remainder.toNat < divisor.toNat) :
    Clean (CheckedFpu.divideLoop dividend divisor bit result)
      (.ok (divideLoop dividend divisor bit result)) := by
  induction bit generalizing result with
  | zero => exact clean_ok _
  | succ bit ih =>
    have hshift := toNat_shift_in result.remainder dividend bit (by omega)
    unfold CheckedFpu.divideLoop divideLoop
    refine clean_check (shl_of_lt (by omega)) ?_
    dsimp only
    generalize (result.remainder <<< 1) ||| ((dividend >>> bit) &&& 1#64) = remainder at hshift ⊢
    by_cases hge : remainder ≥ divisor
    · rw [if_pos hge, if_pos hge]
      have hsub : (remainder - divisor).toNat = remainder.toNat - divisor.toNat :=
        BitVec.toNat_sub_of_le hge
      refine clean_check (shl_one (by omega)) (ih (by omega) _ ?_)
      rw [hsub]
      omega
    · rw [if_neg hge, if_neg hge]
      exact ih (by omega) _ (Nat.not_le.mp hge)

section Divide

variable {rawL rawR : BitVec 32} {lhs rhs : UnpackedFp32} (hl : Unpacked rawL lhs)
  (hr : Unpacked rawR rhs)

include hl hr

theorem scaleNumerator_clean :
    Clean (CheckedFpu.scaleNumerator (lhs.significand.setWidth 64) (rhs.significand.setWidth 64)
      (lhs.exponent - rhs.exponent)) (.ok (scaledNumerator lhs rhs)) := by
  have hllow := hl.exponent_low
  have hlhigh := hl.exponent_high
  have hrlow := hr.exponent_low
  have hrhigh := hr.exponent_high
  unfold CheckedFpu.scaleNumerator scaledNumerator
  refine clean_ite_ok (fun _ => ?_) fun _ => clean_ok _
  exact clean_check (hl.shl_word (by decide))
    (clean_check (int32_of_range (by omega) (by omega)) (clean_ok _))

theorem divideFinite_clean (rm : RoundingMode) :
    Clean (CheckedFpu.divideFinite lhs rhs rm) (divideFinite lhs rhs rm) := by
  have hllow := hl.exponent_low
  have hlhigh := hl.exponent_high
  have hrlow := hr.exponent_low
  have hrhigh := hr.exponent_high
  have hdivisor := hr.high
  have hdivlow := hr.low
  have hword := hr.toNat_word
  obtain ⟨-, hnumerator, hexp, -⟩ := scaledNumerator_spec hl hr
  obtain ⟨-, hquotient⟩ := stickyQuotient_range hl hr
  have hscale := scaleNumerator_clean hl hr
  rw [divideFinite_eq]
  unfold CheckedFpu.divideFinite
  generalize scaledNumerator lhs rhs = scaled at hnumerator hexp hquotient hscale ⊢
  obtain ⟨numerator, exponent⟩ := scaled
  dsimp only at hnumerator hexp hquotient ⊢
  have hdividend : (shl numerator 26 : CheckedFpu.Run _) = .ok (numerator <<< 26) :=
    shl_of_lt (by omega)
  refine clean_check (int32_of_range (by omega) (by omega)) (clean_check hscale ?_)
  refine clean_check hdividend ?_
  refine clean_check (divideLoop_clean (by omega) 64 le_rfl _ ?_) ?_
  · show 0 < _
    omega
  · exact roundAndPack_clean _ ⟨hquotient.trans (by decide), by omega, by omega⟩ rm

end Divide

/-- **`divide` is clean** for all operands. -/
theorem divide_clean (lhsRaw rhsRaw : BitVec 32) (rm : RoundingMode) :
    Clean (CheckedFpu.divide lhsRaw rhsRaw rm) (divide lhsRaw rhsRaw rm) := by
  obtain ⟨lhs, hl⟩ := Operand.of_raw lhsRaw
  obtain ⟨rhs, hr⟩ := Operand.of_raw rhsRaw
  unfold CheckedFpu.divide divide
  rw [hl.unpack, hr.unpack]
  refine clean_check ((ofRaw_clean lhsRaw).eq_ok hl.unpack) ?_
  refine clean_check ((ofRaw_clean rhsRaw).eq_ok hr.unpack) ?_
  refine clean_ite (fun _ => clean_ok _) fun hnan => ?_
  refine clean_ite (fun _ => clean_ok _) fun _ => ?_
  refine clean_ite (fun _ => clean_ok _) fun hrzero => ?_
  refine clean_ite (fun _ => clean_ok _) fun hlinf => ?_
  refine clean_ite (fun _ => clean_ok _) fun hrest => ?_
  simp only [Bool.or_eq_true, decide_eq_true_eq, not_or] at hnan hrzero hlinf hrest
  exact divideFinite_clean (hl.unpacked (hl.nonzero_of_class hnan.1 hlinf hrest.1))
    (hr.unpacked (hr.nonzero_of_class hnan.2 hrest.2 hrzero)) rm

/-! ## §4. Square root -/

/-- No sum of a round of `square_root_unsigned` overflows. -/
theorem squareRootLoop_clean (k fuel : ℕ) (hfuel : k < fuel) (value root bit : BitVec 64) (p : ℕ)
    (hbit : bit.toNat = 4 ^ k / 4) (hroot : root.toNat = p * 2 ^ k) (hword : p + 2 ^ k ≤ 2 ^ 32) :
    Clean (CheckedFpu.squareRootLoop fuel value root bit) (squareRootLoop fuel value root bit) := by
  induction k generalizing fuel value root bit p with
  | zero =>
    obtain ⟨fuel, rfl⟩ : ∃ g, fuel = g + 1 := ⟨fuel - 1, by omega⟩
    have hzero : bit = 0 := BitVec.eq_of_toNat_eq hbit
    unfold CheckedFpu.squareRootLoop squareRootLoop
    rw [if_neg (not_not.mpr hzero), if_neg (not_not.mpr hzero)]
    exact clean_ok _
  | succ k ih =>
    obtain ⟨fuel, rfl⟩ : ∃ g, fuel = g + 1 := ⟨fuel - 1, by omega⟩
    have hbit' : bit.toNat = 4 ^ k := by
      rw [hbit, pow_succ, Nat.mul_div_cancel _ (by decide)]
    have hsucc : 2 ^ (k + 1) = 2 ^ k + 2 ^ k := by rw [pow_succ, mul_two]
    have hdigit := Nat.two_pow_pos k
    obtain ⟨hfits, hhalf, hsum, hdown⟩ := round_words hbit' hroot hword
    have hle_root : (root >>> 1).toNat ≤ root.toNat := by
      rw [BitVec.toNat_ushiftRight, Nat.shiftRight_eq_div_pow]
      exact Nat.div_le_self _ _
    unfold CheckedFpu.squareRootLoop squareRootLoop
    refine clean_ite (fun _ => ?_) fun _ => clean_ok _
    refine clean_check (add_of_lt hfits) (clean_ite (fun _ => ?_) fun _ => ?_)
    · -- the digit is set
      refine clean_check (add_of_lt (by omega)) (ih fuel (by omega) _ _ _ (p + 2 ^ k) hdown ?_ ?_)
      · rw [BitVec.toNat_add, Nat.mod_eq_of_lt (by omega), hsum]
      · omega
    · exact ih fuel (by omega) _ _ _ p hdown hhalf (by omega)

theorem squareRootUnsigned_clean (value : BitVec 64) :
    Clean (CheckedFpu.squareRootUnsigned value) (squareRootUnsigned value) := by
  by_cases hzero : value = 0
  · -- the first loop runs until `bit` is zero too
    subst hzero
    have hrun : CheckedFpu.squareRootUnsigned 0 = .ok ⟨0, 0⟩ := by decide
    have hplain : squareRootUnsigned 0 = .ok ⟨0, 0⟩ := by decide
    rw [hrun, hplain]
    exact clean_ok _
  have hpos : 0 < value.toNat := BitVec.toNat_pos_of_ne_zero hzero
  obtain ⟨bit, j, hstart, hbit, -, hj, hword⟩ := squareRootStart_of_pos hpos
  unfold CheckedFpu.squareRootUnsigned squareRootUnsigned
  refine clean_check (shl_of_lt (by decide)) (clean_bind (clean_lift _) fun start hrun => ?_)
  cases hstart.symm.trans hrun
  exact squareRootLoop_clean (j + 1) 64 (by omega) value 0 bit 0 hbit (zero_mul _).symm hword

theorem scaleRadicand_clean {raw : BitVec 32} {u : UnpackedFp32} (hu : Unpacked raw u) :
    Clean (CheckedFpu.scaleRadicand (u.significand.setWidth 64) u.exponent)
      (.ok (scaledRadicand u)) := by
  have hlow := hu.exponent_low
  have hhigh := hu.exponent_high
  unfold CheckedFpu.scaleRadicand scaledRadicand
  refine clean_ite_ok (fun _ => ?_) fun _ => clean_ok _
  exact clean_check (hu.shl_word (by decide))
    (clean_check (int32_of_range (by omega) (by omega)) (clean_ok _))

theorem scaledRadicand_exponent {raw : BitVec 32} {u : UnpackedFp32} (hu : Unpacked raw u) :
    -150 ≤ (scaledRadicand u).2 ∧ (scaledRadicand u).2 ≤ 127 := by
  have hlow := hu.exponent_low
  have hhigh := hu.exponent_high
  unfold scaledRadicand
  dsimp only
  split
  · show -150 ≤ u.exponent - 1 ∧ u.exponent - 1 ≤ 127
    omega
  · show -150 ≤ u.exponent ∧ u.exponent ≤ 127
    omega

/-- **`square_root` is clean** for every operand. -/
theorem squareRoot_clean (raw : BitVec 32) (rm : RoundingMode) :
    Clean (CheckedFpu.squareRoot raw rm) (squareRoot raw rm) := by
  obtain ⟨u, hu⟩ := Operand.of_raw raw
  unfold CheckedFpu.squareRoot squareRoot
  rw [hu.unpack]
  refine clean_check ((ofRaw_clean raw).eq_ok hu.unpack) ?_
  refine clean_ite (fun _ => clean_ok _) fun hnan => ?_
  refine clean_ite (fun _ => clean_ok _) fun hzero => ?_
  refine clean_ite (fun _ => clean_ok _) fun hsign => ?_
  refine clean_ite (fun _ => clean_ok _) fun hinf => ?_
  have hunpacked := hu.unpacked (hu.nonzero_of_class hnan hinf hzero)
  have hscale := scaleRadicand_clean hunpacked
  have hrange := scaledRadicand_exponent hunpacked
  obtain ⟨hlow, hhigh, k, hexp, hhalf, -⟩ := scaledRadicand_spec hunpacked
  obtain ⟨result, hrun, -, hroot, -⟩ := round_root k hlow hhigh
  show Clean _ (squareRootUnsigned ((scaledRadicand u).1 <<< 29) >>= fun result =>
    roundAndPack false ((scaledRadicand u).2.tdiv 2) (stickyRoot result) rm)
  generalize scaledRadicand u = scaled at hscale hrange hlow hhigh hexp hhalf hrun ⊢
  obtain ⟨significand, exponent⟩ := scaled
  dsimp only at hrange hlow hhigh hexp hhalf hrun ⊢
  have hradicand : (shl significand 29 : CheckedFpu.Run _) = .ok (significand <<< 29) :=
    shl_of_lt (by omega)
  refine clean_check hscale (clean_check hradicand ?_)
  refine clean_bind (squareRootUnsigned_clean _) fun result' hrun' => ?_
  cases hrun.symm.trans hrun'
  have hroundable : Roundable (stickyRoot result) (exponent.tdiv 2) :=
    ⟨hroot.trans (by decide), by omega, by omega⟩
  exact roundAndPack_clean _ hroundable rm

end ZincSim
