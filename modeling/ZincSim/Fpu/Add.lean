/-
  ZincSim.Fpu.Add — addition and subtraction are rounded once.

  Two nonzero operands are aligned (`alignAddends_aligned`), and `round_and_pack` of
  the aligned sum or difference rounds the exact one.  A zero operand passes the
  other one on.
-/
import ZincSim.Fpu.Align

namespace ZincSim

open Rounding Sticky

/-- `round_and_pack` of a significand that stands for `x`. -/
theorem StickySignificand.roundAndPack {s : BitVec 64} {e : ℤ} {x : ℝ}
    (h : StickySignificand 25 s e x) (sign : Bool) (mode : Mode) :
    roundAndPack sign e s (roundingMode mode) = .ok (packExact sign mode x) := by
  have hunits : x / 2 ^ (e - ((25 : ℕ) + 1)) * 2 ^ (e - 26) = x := by
    rw [show e - ((25 : ℕ) + 1) = e - 26 by push_cast; ring, div_mul_cancel₀ _ (by positivity)]
  obtain hexact | ⟨hagree, hlow⟩ := h.standsFor
  · rw [roundAndPack_exact sign mode e h.nonzero h.high, hexact, hunits]
  · rw [roundAndPack_of_agree sign mode e hlow h.high hagree, hunits]

/-! ## §1. Alignment -/

/-- An operand with three round bits below its significand. -/
theorem Unpacked.extended {raw : BitVec 32} {u : UnpackedFp32} (h : Unpacked raw u) :
    ExactSignificand 3 25 (u.significand.setWidth 64 <<< 3) u.exponent u.magnitude := by
  have hlow := h.low
  have hhigh := h.high
  have hnat : (u.significand.setWidth 64 <<< 3 : BitVec 64).toNat = u.significand.toNat * 8 := by
    rw [BitVec.toNat_shiftLeft, BitVec.toNat_setWidth, Nat.shiftLeft_eq]
    omega
  refine ⟨?_, ?_, ?_, ?_⟩
  · rw [hnat]
    exact dvd_mul_left _ _
  · rw [hnat]
    omega
  · rw [hnat]
    omega
  · rw [hnat, UnpackedFp32.magnitude, show u.exponent - 23 = u.exponent - (25 + 1) + 3 by ring,
      zpow_add₀ (by norm_num)]
    push_cast
    ring

theorem alignAddends_aligned {rawL rawR : BitVec 32} {lhs rhs : UnpackedFp32}
    (hl : Unpacked rawL lhs) (hr : Unpacked rawR rhs) :
    ∃ e l r, alignAddends lhs rhs = (e, l, r) ∧
      Aligned 25 l r e lhs.magnitude rhs.magnitude := by
  unfold alignAddends
  dsimp only
  split_ifs with hgt hlt
  · exact ⟨_, _, _, rfl, hl.extended.aligned hr.extended hgt.le (by decide) (by decide)
      (by decide)⟩
  · exact ⟨_, _, _, rfl, (hr.extended.aligned hl.extended hlt.le (by decide) (by decide)
      (by decide)).symm⟩
  · -- equal exponents: a shift by nothing
    have heq : rhs.exponent = lhs.exponent := by omega
    have haligned := hl.extended.aligned hr.extended heq.le (by decide) (by decide) (by decide)
    rw [heq, sub_self] at haligned
    exact ⟨_, _, _, rfl, haligned⟩

/-! ## §2. `add_or_sub` -/

/-- The sum of two nonzero operands. -/
theorem addFinite_rounds {rawL rawR : BitVec 32} {lhs rhs : UnpackedFp32}
    (hl : Unpacked rawL lhs) (hr : Unpacked rawR rhs) (rhsSign : Bool) (mode : Mode)
    (hne : signed lhs.sign lhs.magnitude + signed rhsSign rhs.magnitude ≠ 0) :
    RoundsTo (addFinite lhs rhs rhsSign (roundingMode mode)) mode
      (signed lhs.sign lhs.magnitude + signed rhsSign rhs.magnitude) := by
  obtain ⟨e, l, r, halign, haligned⟩ := alignAddends_aligned hl hr
  unfold addFinite
  rw [halign]
  dsimp only
  obtain ⟨hsign, hsum, hexact⟩ | ⟨hsign, hcmp, hdiff, hexact⟩ | ⟨hsign, hcmp, hdiff, hexact⟩ :=
    haligned.signed_cases lhs.sign rhsSign hne
  · rw [hexact, if_pos hsign]
    exact roundsTo_signed hsum.pos (hsum.roundAndPack _ mode)
  · -- opposite signs: the source tests for cancellation before it compares
    have hlr : l ≠ r := fun heq => absurd hcmp (heq ▸ Nat.lt_irrefl l.toNat)
    rw [hexact, if_neg hsign, if_neg hlr]
    simp only [gt_iff_lt, hcmp, decide_true, if_true]
    exact roundsTo_signed hdiff.pos (hdiff.roundAndPack _ mode)
  · have hlr : l ≠ r := fun heq => absurd hcmp (heq ▸ Nat.lt_irrefl l.toNat)
    have hcmp' : ¬ r < l := Nat.not_lt.mpr (Nat.le_of_lt hcmp)
    rw [hexact, if_neg hsign, if_neg hlr]
    simp only [gt_iff_lt, hcmp', decide_false, Bool.false_eq_true, if_false]
    exact roundsTo_signed hdiff.pos (hdiff.roundAndPack _ mode)

/-- Two nonzero finite operands are added. -/
theorem addOrSub_finite {lhsRaw rhsRaw : BitVec 32} {lhs rhs : UnpackedFp32}
    (hlunpack : UnpackedFp32.ofRaw lhsRaw = .ok lhs)
    (hrunpack : UnpackedFp32.ofRaw rhsRaw = .ok rhs)
    (hl : Unpacked lhsRaw lhs) (hr : Unpacked rhsRaw rhs) (subtract : Bool) (rm : RoundingMode) :
    addOrSub lhsRaw rhsRaw subtract rm = addFinite lhs rhs (rhs.sign ^^ subtract) rm := by
  obtain ⟨hlnan, hlinf, hlzero⟩ := hl.class_facts
  obtain ⟨hrnan, hrinf, hrzero⟩ := hr.class_facts
  unfold addOrSub
  simp only [hlunpack, hrunpack, bind, Except.bind, pure, Except.pure, hlnan, hrnan, hlinf, hrinf,
    hlzero, hrzero, Bool.or_self, Bool.false_eq_true, or_self, and_self, if_false]

/-- **`add_or_sub` rounds the exact sum once.** -/
theorem addOrSub_rounds {lhsRaw rhsRaw : BitVec 32} {x y : ℚ}
    (hx : Binary32.value lhsRaw = some x) (hy : Binary32.value rhsRaw = some y)
    (subtract : Bool) (mode : Mode) (hne : (x : ℝ) + signed subtract y ≠ 0) :
    RoundsTo (addOrSub lhsRaw rhsRaw subtract (roundingMode mode)) mode
      (x + signed subtract y) := by
  obtain ⟨lhs, hl⟩ := FiniteOperand.of_value hx
  obtain ⟨rhs, hr⟩ := FiniteOperand.of_value hy
  by_cases hx0 : x = 0
  · by_cases hy0 : y = 0
    · -- two zeros have no nonzero sum
      rw [hx0, hy0] at hne
      simp at hne
    · -- the right operand is passed on, with the sign of the operation
      have hlzero : (lhs.fpClass = .zero) = True := eq_true (hl.zero_iff.mpr hx0)
      have hrzero : rhs.fpClass ≠ .zero := fun h => hy0 (hr.zero_iff.mp h)
      have hpass := hr.passed_on hy0 subtract mode
      rw [hx0, Rat.cast_zero, zero_add]
      unfold addOrSub
      simpa only [hl.unpack, hr.unpack, bind, Except.bind, pure, Except.pure, hl.isNan, hr.isNan,
        hl.not_infinity, hr.not_infinity, hlzero, hrzero, Bool.or_self, Bool.false_eq_true,
        or_self, and_false, if_false, if_true] using hpass
  · have hlzero : lhs.fpClass ≠ .zero := fun h => hx0 (hl.zero_iff.mp h)
    by_cases hy0 : y = 0
    · -- the left operand is passed on as it is
      have hrzero : (rhs.fpClass = .zero) = True := eq_true (hr.zero_iff.mpr hy0)
      have hpass := hl.passed_on hx0 false mode
      rw [Bool.xor_false, hl.masked_self, show signed false (x : ℝ) = x from rfl] at hpass
      rw [hy0, Rat.cast_zero, signed_zero, add_zero]
      unfold addOrSub
      simpa only [hl.unpack, hr.unpack, bind, Except.bind, pure, Except.pure, hl.isNan, hr.isNan,
        hl.not_infinity, hr.not_infinity, hlzero, hrzero, Bool.or_self, Bool.false_eq_true,
        or_self, false_and, if_false, if_true] using hpass
    · rw [hl.value hx0, hr.value hy0, signed_signed] at hne ⊢
      rw [addOrSub_finite hl.unpack hr.unpack (hl.unpacked hx0) (hr.unpacked hy0)]
      exact addFinite_rounds (hl.unpacked hx0) (hr.unpacked hy0) _ mode hne

end ZincSim
