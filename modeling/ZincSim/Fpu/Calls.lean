/-
  ZincSim.Fpu.Calls — the calls of `class Fpu`, and how each of them ends.

  `FpuCall` is a call of one of the four entry points.  Apart from the conversions to
  an integer every offered call is prepared by its operands (`FpuCall.prepares`), and
  `FpuCall.Rounds` says for which operands that ends in a rounding.
-/
import ZincSim.Fpu.FusedMultiply
import ZincSim.Fpu.Divide
import ZincSim.Fpu.SquareRoot
import ZincSim.Fpu.Integer

namespace ZincSim

open Rounding
open Except (returns_error)

/-! ## §1. Operands of a rounding -/

/-- The pattern is a finite number other than zero. -/
def IsNonzero (raw : BitVec 32) : Prop := ∃ x, Binary32.value raw = some x ∧ x ≠ 0

theorem Operand.unpacked {raw : BitVec 32} {u : UnpackedFp32} (h : Operand raw u)
    (hraw : IsNonzero raw) : Unpacked raw u := by
  obtain ⟨v, hv, h0⟩ := hraw
  exact (h.finite v hv).unpacked h0

/-- An operand that takes none of the special branches is a number other than zero. -/
theorem Operand.nonzero_of_class {raw : BitVec 32} {u : UnpackedFp32} (h : Operand raw u)
    (hn : ¬ u.fpClass.isNan = true) (hi : u.fpClass ≠ .infinity) (hz : u.fpClass ≠ .zero) :
    IsNonzero raw := by
  obtain ⟨v, hv, hfin⟩ := h.finite_of_class hn hi
  exact ⟨v, hv, fun h0 => hz (hfin.zero_iff.mpr h0)⟩

theorem Operand.nonzero_iff {raw : BitVec 32} {u : UnpackedFp32} (h : Operand raw u) :
    IsNonzero raw ↔ u.fpClass = .normal ∨ u.fpClass = .subnormal := by
  refine ⟨fun hraw => (h.unpacked hraw).fpClass, fun hclass => ?_⟩
  apply h.nonzero_of_class <;> rcases hclass with hc | hc <;> rw [hc] <;> decide

/-- Aligned significands are equal exactly when the numbers are. -/
theorem Aligned.eq_iff {n : ℕ} {l r : BitVec 64} {e : ℤ} {x y : ℝ} (h : Aligned n l r e x y) :
    l = r ↔ x = y := by
  refine ⟨h.eq, fun heq => ?_⟩
  obtain hlt | hnat | hgt := Nat.lt_trichotomy l.toNat r.toNat
  · have hpos := (h.rsub hlt).pos
    linarith
  · exact BitVec.eq_of_toNat_eq hnat
  · have hpos := (h.sub hgt).pos
    linarith

/-- Opposite signs cancel exactly when the magnitudes are equal. -/
theorem signed_add_eq_zero_iff {s t : Bool} (h : s ≠ t) (x y : ℝ) :
    signed s x + signed t y = 0 ↔ x = y := by
  rw [(signed_add_of_ne h).1, ← signed_zero s, signed_inj, sub_eq_zero]

/-! ## §2. Addition and subtraction -/

/-- The sum or the difference. -/
def sumValue (subtract : Bool) (x y : ℚ) : ℚ := if subtract then x - y else x + y

theorem sumValue_eq_signed (subtract : Bool) (x y : ℚ) :
    ((sumValue subtract x y : ℚ) : ℝ) = x + signed subtract y := by
  cases subtract <;> simp [sumValue, signed, sub_eq_add_neg]

/-- The operands of `add_or_sub` are finite, not zero, and do not cancel. -/
def SumRounds (lhsRaw rhsRaw : BitVec 32) (subtract : Bool) : Prop :=
  ∃ x y, Binary32.value lhsRaw = some x ∧ Binary32.value rhsRaw = some y ∧ x ≠ 0 ∧ y ≠ 0 ∧
    sumValue subtract x y ≠ 0

/-- Exact cancellation leaves a zero, negative when rounding down. -/
theorem addFinite_cancel {rawL rawR : BitVec 32} {lhs rhs : UnpackedFp32}
    (hl : Unpacked rawL lhs) (hr : Unpacked rawR rhs) {rhsSign : Bool}
    (hzero : signed lhs.sign lhs.magnitude + signed rhsSign rhs.magnitude = 0)
    (rm : RoundingMode) :
    addFinite lhs rhs rhsSign rm = .ok (.ofWord (signBits (decide (rm = .rdn))) 0) := by
  obtain ⟨e, l, r, halign, haligned⟩ := alignAddends_aligned hl hr
  have hsign : lhs.sign ≠ rhsSign := by
    intro hsign
    rw [← hsign, signed_add, ← signed_zero lhs.sign, signed_inj] at hzero
    exact haligned.add.pos.ne' hzero
  have heq : l = r := haligned.eq_iff.mpr ((signed_add_eq_zero_iff hsign _ _).mp hzero)
  unfold addFinite
  rw [halign]
  dsimp only
  rw [if_neg hsign, if_pos heq]

theorem addFinite_prepares {rawL rawR : BitVec 32} {lhs rhs : UnpackedFp32}
    (hl : Unpacked rawL lhs) (hr : Unpacked rawR rhs) (rhsSign : Bool) :
    Prepares False (signed lhs.sign lhs.magnitude + signed rhsSign rhs.magnitude ≠ 0)
      (addFinite lhs rhs rhsSign) := by
  by_cases hzero : signed lhs.sign lhs.magnitude + signed rhsSign rhs.magnitude = 0
  · exact (Prepares.zeroOfMode (not_not.mpr hzero)).congr (addFinite_cancel hl hr hzero)
  obtain ⟨e, l, r, halign, haligned⟩ := alignAddends_aligned hl hr
  show Prepares _ _ fun rm => addFinite lhs rhs rhsSign rm
  simp only [addFinite, halign]
  obtain ⟨hsign, hsum, -⟩ | ⟨hsign, hcmp, hdiff, -⟩ | ⟨hsign, hcmp, hdiff, -⟩ :=
    haligned.signed_cases lhs.sign rhsSign hzero
  · simp only [if_pos hsign]
    exact .round _ _ _ hsum.nonzero hsum.high hzero
  · have hlr : l ≠ r := fun heq => absurd hcmp (heq ▸ Nat.lt_irrefl l.toNat)
    simp only [if_neg hsign, if_neg hlr, gt_iff_lt, hcmp, decide_true, if_true]
    exact .round _ _ _ hdiff.nonzero hdiff.high hzero
  · have hlr : l ≠ r := fun heq => absurd hcmp (heq ▸ Nat.lt_irrefl l.toNat)
    have hcmp' : ¬ r < l := Nat.not_lt.mpr (Nat.le_of_lt hcmp)
    simp only [if_neg hsign, if_neg hlr, gt_iff_lt, hcmp', decide_false, Bool.false_eq_true,
      if_false]
    exact .round _ _ _ hdiff.nonzero hdiff.high hzero

theorem addOrSub_prepares (lhsRaw rhsRaw : BitVec 32) (subtract : Bool) :
    Prepares False (SumRounds lhsRaw rhsRaw subtract) (addOrSub lhsRaw rhsRaw subtract) := by
  obtain ⟨lhs, hl⟩ := Operand.of_raw lhsRaw
  obtain ⟨rhs, hr⟩ := Operand.of_raw rhsRaw
  by_cases hnonzero : IsNonzero lhsRaw ∧ IsNonzero rhsRaw
  · obtain ⟨⟨x, hx, hx0⟩, y, hy, hy0⟩ := hnonzero
    have hlfin := hl.finite x hx
    have hrfin := hr.finite y hy
    have hrounds : SumRounds lhsRaw rhsRaw subtract ↔
        signed lhs.sign lhs.magnitude + signed (rhs.sign ^^ subtract) rhs.magnitude ≠ 0 := by
      rw [← signed_signed, ← hlfin.value hx0, ← hrfin.value hy0, ← sumValue_eq_signed,
        Rat.cast_ne_zero]
      refine ⟨?_, fun h => ⟨x, y, hx, hy, hx0, hy0, h⟩⟩
      rintro ⟨x', y', hx', hy', -, -, h⟩
      rw [hx] at hx'
      rw [hy] at hy'
      cases hx'
      cases hy'
      exact h
    rw [hrounds]
    exact (addFinite_prepares (hlfin.unpacked hx0) (hrfin.unpacked hy0) _).congr
      (addOrSub_finite hl.unpack hr.unpack (hlfin.unpacked hx0) (hrfin.unpacked hy0) subtract)
  · -- one operand is special, and so is the result
    have hspecial : ¬ SumRounds lhsRaw rhsRaw subtract := by
      rintro ⟨x, y, hx, hy, hx0, hy0, -⟩
      exact hnonzero ⟨⟨x, hx, hx0⟩, y, hy, hy0⟩
    show Prepares _ _ fun rm => addOrSub lhsRaw rhsRaw subtract rm
    simp only [addOrSub, hl.unpack, hr.unpack, bind, Except.bind, pure, Except.pure]
    refine .ite (fun _ => .invalid _ _ hspecial) fun hnan => ?_
    refine .ite (fun _ => .ite (fun _ => .nan hspecial) fun _ => .quiet _ hspecial) fun hinf => ?_
    refine .ite (fun _ => ?_) fun _ => ?_
    · by_cases hsign : lhs.sign = (rhs.sign ^^ subtract)
      · simp only [if_pos hsign]
        exact .quiet _ hspecial
      · simp only [if_neg hsign]
        exact .zeroOfMode hspecial
    refine .ite (fun _ => .quiet _ hspecial) fun hlzero => ?_
    refine .ite (fun _ => .quiet _ hspecial) fun hrzero => ?_
    rw [Bool.or_eq_true, not_or] at hnan
    rw [not_or] at hinf
    exact absurd ⟨hl.nonzero_of_class hnan.1 hinf.1 hlzero,
      hr.nonzero_of_class hnan.2 hinf.2 hrzero⟩ hnonzero

/-! ## §3. Multiplication, division and square root -/

theorem multiply_prepares (lhsRaw rhsRaw : BitVec 32) :
    Prepares False (IsNonzero lhsRaw ∧ IsNonzero rhsRaw) (multiply lhsRaw rhsRaw) := by
  obtain ⟨lhs, hl⟩ := Operand.of_raw lhsRaw
  obtain ⟨rhs, hr⟩ := Operand.of_raw rhsRaw
  by_cases hnonzero : IsNonzero lhsRaw ∧ IsNonzero rhsRaw
  · have hlu := hl.unpacked hnonzero.1
    have hru := hr.unpacked hnonzero.2
    obtain ⟨hlow, hhigh⟩ := jam_product_range hlu hru
    exact (Prepares.round _ _ _ (by omega) (by omega) hnonzero).congr
      (multiply_finite hl.unpack hr.unpack hlu hru)
  · show Prepares _ _ fun rm => multiply lhsRaw rhsRaw rm
    simp only [multiply, hl.unpack, hr.unpack, bind, Except.bind, pure, Except.pure]
    refine .ite (fun _ => .invalid _ _ hnonzero) fun hnan => ?_
    refine .ite (fun _ => .nan hnonzero) fun _ => ?_
    refine .ite (fun _ => .quiet _ hnonzero) fun hinf => ?_
    refine .ite (fun _ => .quiet _ hnonzero) fun hzero => ?_
    simp only [Bool.or_eq_true, decide_eq_true_eq, not_or] at hnan hinf hzero
    exact absurd ⟨hl.nonzero_of_class hnan.1 hinf.1 hzero.1,
      hr.nonzero_of_class hnan.2 hinf.2 hzero.2⟩ hnonzero

/-- The operands with which `divide` takes the branch for a zero divisor: a dividend that
is neither a NaN nor zero over a zero. -/
def DividesByZero (lhsRaw rhsRaw : BitVec 32) : Prop :=
  (IsNonzero lhsRaw ∨ Binary32.IsInfinite lhsRaw) ∧ Binary32.value rhsRaw = some 0

theorem divide_prepares (lhsRaw rhsRaw : BitVec 32) :
    Prepares (DividesByZero lhsRaw rhsRaw) (IsNonzero lhsRaw ∧ IsNonzero rhsRaw)
      (divide lhsRaw rhsRaw) := by
  obtain ⟨lhs, hl⟩ := Operand.of_raw lhsRaw
  obtain ⟨rhs, hr⟩ := Operand.of_raw rhsRaw
  by_cases hnonzero : IsNonzero lhsRaw ∧ IsNonzero rhsRaw
  · have hlu := hl.unpacked hnonzero.1
    have hru := hr.unpacked hnonzero.2
    obtain ⟨hlow, hhigh⟩ := stickyQuotient_range hlu hru
    have hrun (rm : RoundingMode) :=
      (divide_finite hl.unpack hr.unpack hlu hru rm).trans (divideFinite_eq lhs rhs rm)
    exact (Prepares.round _ _ _ (by omega) (by omega) hnonzero).congr hrun
  · show Prepares _ _ fun rm => divide lhsRaw rhsRaw rm
    simp only [divide, hl.unpack, hr.unpack, bind, Except.bind, pure, Except.pure]
    refine .ite (fun _ => .invalid _ _ hnonzero) fun hnan => ?_
    refine .ite (fun _ => .nan hnonzero) fun hinvalid => ?_
    simp only [Bool.or_eq_true, Bool.and_eq_true, decide_eq_true_eq, not_or] at hnan hinvalid
    refine .ite (fun hrzero => .divideByZero _ ?_ hnonzero) fun hrzero => ?_
    · rw [decide_eq_true_eq] at hrzero
      refine ⟨?_, hr.zero_iff.mp hrzero⟩
      have hlzero : lhs.fpClass ≠ .zero := fun h => hinvalid.1 ⟨h, hrzero⟩
      by_cases hlinf : lhs.fpClass = .infinity
      · exact .inr (hl.infinity_iff.mp hlinf)
      · exact .inl (hl.nonzero_of_class hnan.1 hlinf hlzero)
    refine .ite (fun _ => .quiet _ hnonzero) fun hlinf => ?_
    refine .ite (fun _ => .quiet _ hnonzero) fun hzero => ?_
    simp only [Bool.or_eq_true, decide_eq_true_eq, not_or] at hrzero hlinf hzero
    exact absurd ⟨hl.nonzero_of_class hnan.1 hlinf hzero.1,
      hr.nonzero_of_class hnan.2 hzero.2 hrzero⟩ hnonzero

/-- The operand of `square_root` is finite and positive. -/
def IsPositive (raw : BitVec 32) : Prop := ∃ x, Binary32.value raw = some x ∧ 0 < x

/-- A positive operand has no sign. -/
theorem FiniteOperand.pos_iff {raw : BitVec 32} {v : ℚ} {u : UnpackedFp32}
    (h : FiniteOperand raw v u) (hv : v ≠ 0) : 0 < v ↔ u.sign = false := by
  have hlt : (v : ℝ) < 0 ↔ u.sign = true := by
    rw [h.value hv, signed_lt_zero_iff _ (h.unpacked hv).magnitude_pos]
  rw [Rat.cast_lt_zero] at hlt
  rw [← Bool.not_eq_true, ← hlt, not_lt]
  exact ⟨le_of_lt, fun hle => lt_of_le_of_ne hle hv.symm⟩

theorem squareRoot_prepares (raw : BitVec 32) :
    Prepares False (IsPositive raw) (squareRoot raw) := by
  obtain ⟨u, hu⟩ := Operand.of_raw raw
  by_cases hpositive : IsPositive raw
  · obtain ⟨v, hv, hpos⟩ := hpositive
    have hfin := hu.finite v hv
    obtain ⟨result, -, hlow, hhigh, hrun, -⟩ := squareRoot_finite hu.unpack
      (hfin.unpacked hpos.ne') ((hfin.pos_iff hpos.ne').mp hpos)
    exact (Prepares.round _ _ _ (by omega) (by omega) ⟨v, hv, hpos⟩).congr hrun
  · show Prepares _ _ fun rm => squareRoot raw rm
    simp only [squareRoot, hu.unpack, bind, Except.bind, pure, Except.pure]
    refine .ite (fun _ => .invalid _ _ hpositive) fun hnan => ?_
    refine .ite (fun _ => .quiet _ hpositive) fun hzero => ?_
    refine .ite (fun _ => .nan hpositive) fun hsign => ?_
    refine .ite (fun _ => .quiet _ hpositive) fun hinf => ?_
    obtain ⟨v, hv, h0⟩ := hu.nonzero_of_class hnan hinf hzero
    exact absurd ⟨v, hv, ((hu.finite v hv).pos_iff h0).mpr (Bool.eq_false_iff.mpr hsign)⟩ hpositive

/-! ## §4. The fused operations -/

/-- The operands of a fused operation are finite, and neither the product nor the sum is
zero. -/
def FmaRounds (type : FmaFpType) (lhsRaw rhsRaw addendRaw : BitVec 32) : Prop :=
  ∃ x y z, Binary32.value lhsRaw = some x ∧ Binary32.value rhsRaw = some y ∧
    Binary32.value addendRaw = some z ∧ x ≠ 0 ∧ y ≠ 0 ∧ fmaValue type (x * y) z ≠ 0

/-- Equal and opposite operands of `compute_fma` leave nothing. -/
theorem computeFma_cancel {rawL rawR rawA : BitVec 32} {lhs rhs addend : UnpackedFp32}
    (hl : Unpacked rawL lhs) (hr : Unpacked rawR rhs) (ha : Unpacked rawA addend) {s t : Bool}
    (hsign : s ≠ t) (heq : lhs.magnitude * rhs.magnitude = addend.magnitude) :
    ∃ result, computeFma lhs rhs addend s t = .ok result ∧ result.significand = 0 := by
  have hproduct := wideProduct_exact hl hr
  have haddend := wideAddend_exact ha
  have hwide : wideAddend addend ≠ 0 := by
    intro hzero
    have hlow := haddend.low
    rw [hzero] at hlow
    exact absurd hlow (by decide)
  obtain ⟨g, l, r, halign, haligned⟩ := alignFma_aligned hproduct haddend
  have hlr : l = r := haligned.eq_iff.mpr heq
  have hge : r ≥ r := Nat.le_refl _
  have hcombine : combineFma s t l r = (0, s) := by
    rw [hlr, combineFma, if_neg hsign, if_pos hge, BitVec.sub_self]
    rfl
  refine ⟨⟨false, g, 0⟩, ?_, rfl⟩
  have halign' : alignFma (productExponent lhs rhs)
      (if wideAddend addend = 0 then productExponent lhs rhs else addend.exponent)
      (wideProduct lhs rhs) (wideAddend addend) = (g, l, r) := by
    rw [if_neg hwide]
    exact halign
  rw [computeFma_eq halign' hcombine, if_pos rfl]

section FmaOperands

variable {type : FmaFpType} {lhsRaw rhsRaw addendRaw : BitVec 32} {x y z : ℚ}
  {lhs rhs addend : UnpackedFp32} (hl : FiniteOperand lhsRaw x lhs)
  (hr : FiniteOperand rhsRaw y rhs) (ha : FiniteOperand addendRaw z addend) (hx : x ≠ 0)
  (hy : y ≠ 0)

include hl hr ha hx hy

/-- A product that cancels the addend leaves a zero, negative when rounding down. -/
theorem fma_cancel (hzero : fmaValue type (x * y) z = 0) (rm : RoundingMode) :
    Fpu.fma type lhsRaw rhsRaw addendRaw rm =
      .ok (.ofWord (signBits (decide (rm = .rdn))) 0) := by
  generalize hneg : fmaNegations type = negations
  obtain ⟨negateProduct, negateAddend⟩ := negations
  obtain ⟨c, hc, hsum⟩ := fma_sum hl hr ha negateProduct negateAddend hx hy
  have hvalue := fmaValue_eq_signed type (x * y) z
  rw [hneg, hsum, hzero, Rat.cast_zero] at hvalue
  have hpos := mul_pos (hl.unpacked hx).magnitude_pos (hr.unpacked hy).magnitude_pos
  have hsign : (lhs.sign ^^ rhs.sign ^^ negateProduct) ≠ (addend.sign ^^ negateAddend) := by
    intro heq
    have hnonneg : 0 ≤ c := by
      rcases hc with ⟨-, rfl⟩ | ⟨raw, hu, rfl⟩
      · exact le_rfl
      · exact hu.magnitude_pos.le
    rw [heq, signed_add, eq_comm, ← signed_zero (addend.sign ^^ negateAddend), signed_inj]
      at hvalue
    linarith
  have heq := (signed_add_eq_zero_iff hsign _ _).mp hvalue.symm
  obtain ⟨-, hc0⟩ | ⟨raw, hu, hcmag⟩ := hc
  · exact absurd (heq.trans hc0) hpos.ne'
  · obtain ⟨result, hresult, hsig⟩ := computeFma_cancel (hl.unpacked hx) (hr.unpacked hy) hu hsign
      (heq.trans hcmag)
    rw [fma_finite hl hr ha hneg hx hy, hresult]
    simp only [bind, Except.bind, hsig, if_true]
    exact if_pos rfl

/-- The operands that reach `compute_fma`. -/
theorem fma_prepares_finite :
    Prepares False (fmaValue type (x * y) z ≠ 0) (Fpu.fma type lhsRaw rhsRaw addendRaw) := by
  by_cases hzero : fmaValue type (x * y) z = 0
  · exact (Prepares.zeroOfMode (not_not.mpr hzero)).congr (fma_cancel hl hr ha hx hy hzero)
  generalize hneg : fmaNegations type = negations
  obtain ⟨negateProduct, negateAddend⟩ := negations
  obtain ⟨c, hc, hsum⟩ := fma_sum hl hr ha negateProduct negateAddend hx hy
  have hne : ((fmaValue type (x * y) z : ℚ) : ℝ) ≠ 0 := Rat.cast_ne_zero.mpr hzero
  rw [fmaValue_eq_signed, hneg, hsum] at hne
  obtain ⟨result, w, hresult, hlow, hhigh, -⟩ :=
    computeFma_of_operands (hl.unpacked hx) (hr.unpacked hy) hc _ _ hne
  have hnz : result.significand ≠ 0 := by
    intro h0
    rw [h0] at hlow
    exact absurd hlow (by decide)
  refine (Prepares.round result.sign result.exponent _ (by omega) hhigh hzero).congr fun rm => ?_
  rw [fma_finite hl hr ha hneg hx hy, hresult]
  simp only [bind, Except.bind, if_neg hnz]

end FmaOperands

theorem fma_prepares (type : FmaFpType) (lhsRaw rhsRaw addendRaw : BitVec 32) :
    Prepares False (FmaRounds type lhsRaw rhsRaw addendRaw)
      (Fpu.fma type lhsRaw rhsRaw addendRaw) := by
  obtain ⟨lhs, hl⟩ := Operand.of_raw lhsRaw
  obtain ⟨rhs, hr⟩ := Operand.of_raw rhsRaw
  obtain ⟨addend, ha⟩ := Operand.of_raw addendRaw
  by_cases hfinite : (IsNonzero lhsRaw ∧ IsNonzero rhsRaw) ∧
      ∃ z, Binary32.value addendRaw = some z
  · obtain ⟨⟨⟨x, hx, hx0⟩, y, hy, hy0⟩, z, hz⟩ := hfinite
    have hrounds : FmaRounds type lhsRaw rhsRaw addendRaw ↔ fmaValue type (x * y) z ≠ 0 := by
      refine ⟨?_, fun h => ⟨x, y, z, hx, hy, hz, hx0, hy0, h⟩⟩
      rintro ⟨x', y', z', hx', hy', hz', -, -, h⟩
      rw [hx] at hx'
      rw [hy] at hy'
      rw [hz] at hz'
      cases hx'
      cases hy'
      cases hz'
      exact h
    rw [hrounds]
    exact fma_prepares_finite (hl.finite x hx) (hr.finite y hy) (ha.finite z hz) hx0 hy0
  · have hspecial : ¬ FmaRounds type lhsRaw rhsRaw addendRaw := by
      rintro ⟨x, y, z, hx, hy, hz, hx0, hy0, -⟩
      exact hfinite ⟨⟨⟨x, hx, hx0⟩, y, hy, hy0⟩, z, hz⟩
    show Prepares _ _ fun rm => Fpu.fma type lhsRaw rhsRaw addendRaw rm
    simp only [Fpu.fma, hl.unpack, hr.unpack, ha.unpack, bind, Except.bind, pure, Except.pure]
    refine .ite (fun _ => .invalid _ _ hspecial) fun hnan => ?_
    refine .ite (fun _ => .ite (fun _ => .nan hspecial) fun _ => .quiet _ hspecial) fun hinf => ?_
    refine .ite (fun _ => .quiet _ hspecial) fun hainf => ?_
    refine .ite (fun _ => .ite (fun _ => ?_) fun _ => .quiet _ hspecial) fun hzero => ?_
    · by_cases hsign : (lhs.sign ^^ rhs.sign ^^ (fmaNegations type).1) =
          (addend.sign ^^ (fmaNegations type).2)
      · simp only [if_pos hsign]
        exact .quiet _ hspecial
      · simp only [if_neg hsign]
        exact .zeroOfMode hspecial
    simp only [Bool.or_eq_true, decide_eq_true_eq, not_or] at hnan hinf hainf hzero
    obtain ⟨z, hz, -⟩ := ha.finite_of_class hnan.1.2 hainf
    exact absurd ⟨⟨hl.nonzero_of_class hnan.1.1.1 hinf.1 hzero.1,
      hr.nonzero_of_class hnan.1.1.2 hinf.2 hzero.2⟩, z, hz⟩ hfinite

/-! ## §5. Operations that do not round -/

theorem compareFp_prepares {op : OpFpType} (hop : op ∈ [OpFpType.eq, .lt, .le])
    (lhsRaw rhsRaw : BitVec 32) : Prepares False False fun _ => compareFp op lhsRaw rhsRaw := by
  obtain ⟨lhs, hl⟩ := Operand.of_raw lhsRaw
  obtain ⟨rhs, hr⟩ := Operand.of_raw rhsRaw
  have hswitch (bothZero equal less : Bool) :
      ∃ result, compareSwitch op bothZero equal less = .ok result := by
    simp only [List.mem_cons, List.not_mem_nil, or_false] at hop
    rcases hop with rfl | rfl | rfl <;> exact ⟨_, rfl⟩
  obtain ⟨result, hresult⟩ := hswitch
    (decide (lhs.fpClass = .zero) && decide (rhs.fpClass = .zero))
    ((decide (lhs.fpClass = .zero) && decide (rhs.fpClass = .zero)) || decide (lhsRaw = rhsRaw))
    (lessThan lhsRaw rhsRaw)
  simp only [compareFp, hl.unpack, hr.unpack, bind, Except.bind, pure, Except.pure, hresult]
  exact .ite (fun _ => .invalid _ _ id) fun _ => .quiet _ id

theorem minOrMax_prepares (lhsRaw rhsRaw : BitVec 32) (maximum : Bool) :
    Prepares False False fun _ => minOrMax lhsRaw rhsRaw maximum := by
  obtain ⟨lhs, hl⟩ := Operand.of_raw lhsRaw
  obtain ⟨rhs, hr⟩ := Operand.of_raw rhsRaw
  simp only [minOrMax, hl.unpack, hr.unpack, bind, Except.bind, pure, Except.pure]
  refine .ite (fun _ => .invalid _ _ id) fun _ => .ite (fun _ => .invalid _ _ id) fun _ => ?_
  exact .ite (fun _ => .invalid _ _ id) fun _ => .ite (fun _ => .invalid _ _ id) fun _ =>
    .invalid _ _ id

/-! ## §6. The calls -/

/-- A call of `Fpu::binary`, `Fpu::unary`, `Fpu::convert` or `Fpu::fma`. -/
inductive FpuCall where
  | binary (op : OpFpType) (lhs rhs : BitVec 32)
  | unary (op : OpFpType) (operand : BitVec 32)
  | convert (op : OpFpType) (operand : BitVec 64)
  | fma (type : FmaFpType) (lhs rhs addend : BitVec 32)
  deriving DecidableEq, Repr

namespace FpuCall

/-- The result of the call. -/
def run (call : FpuCall) (rm : RoundingMode) : Except Fault FpResult :=
  match call with
  | binary op lhs rhs => Fpu.binary op lhs rhs rm
  | unary op operand => Fpu.unary op operand rm
  | convert op operand => Fpu.convert op operand rm
  | fma type lhs rhs addend => Fpu.fma type lhs rhs addend rm

/-- The operations that `Fpu::binary` has a case for. -/
def binaryOps : List OpFpType :=
  [.add, .sub, .mul, .div, .min, .max, .sgnj, .sgnjn, .sgnjx, .eq, .lt, .le]

/-- The entry point has a case for the operation. -/
def Offered : FpuCall → Prop
  | binary op _ _ => op ∈ binaryOps
  | unary op _ => op = .sqrt
  | convert op _ => op ∈ integerTargets ∨ op ∈ integerSources
  | fma .. => True

instance (call : FpuCall) : Decidable call.Offered := by
  cases call <;> unfold Offered <;> infer_instance

/-- The call is a conversion to an integer. -/
def ToInteger : FpuCall → Prop
  | convert op _ => op ∈ integerTargets
  | _ => False

/-- The call is a division with the operands of a division by zero. -/
def RaisesDz : FpuCall → Prop
  | binary .div lhs rhs => DividesByZero lhs rhs
  | _ => False

/-- The call reaches `should_round_up`: its exact result is a number other than zero
that is not one of the operands. -/
def Rounds : FpuCall → Prop
  | binary .add lhs rhs => SumRounds lhs rhs false
  | binary .sub lhs rhs => SumRounds lhs rhs true
  | binary .mul lhs rhs | binary .div lhs rhs => IsNonzero lhs ∧ IsNonzero rhs
  | unary .sqrt operand => IsPositive operand
  | convert op operand => IntegerNonzero op operand
  | fma type lhs rhs addend => FmaRounds type lhs rhs addend
  | _ => False

/-- **Every call but a conversion to an integer** is prepared by its operands. -/
theorem prepares {call : FpuCall} (hoffered : call.Offered) (hinteger : ¬ call.ToInteger) :
    Prepares call.RaisesDz call.Rounds call.run := by
  cases call with
  | binary op lhs rhs =>
    simp only [Offered, binaryOps, List.mem_cons, List.not_mem_nil, or_false] at hoffered
    rcases hoffered with rfl | rfl | rfl | rfl | rfl | rfl | rfl | rfl | rfl | rfl | rfl | rfl
    · exact addOrSub_prepares lhs rhs false
    · exact addOrSub_prepares lhs rhs true
    · exact multiply_prepares lhs rhs
    · exact divide_prepares lhs rhs
    · exact minOrMax_prepares lhs rhs false
    · exact minOrMax_prepares lhs rhs true
    · exact .quiet _ id
    · exact .quiet _ id
    · exact .quiet _ id
    · exact compareFp_prepares (by decide) lhs rhs
    · exact compareFp_prepares (by decide) lhs rhs
    · exact compareFp_prepares (by decide) lhs rhs
  | unary op operand =>
    obtain rfl : op = .sqrt := hoffered
    exact squareRoot_prepares operand
  | convert op operand =>
    have hsource := hoffered.resolve_left hinteger
    have hrun (rm : RoundingMode) :
        (convert op operand).run rm = integerToFloat op operand rm := by
      simp only [integerSources, List.mem_cons, List.not_mem_nil, or_false] at hsource
      rcases hsource with rfl | rfl | rfl | rfl <;> rfl
    exact (integerToFloat_prepares hsource operand).congr hrun
  | fma type lhs rhs addend => exact fma_prepares type lhs rhs addend

/-- A call of `float_to_integer`. -/
theorem run_toInteger {op : OpFpType} (hop : op ∈ integerTargets) (operand : BitVec 64)
    (rm : RoundingMode) :
    (convert op operand).run rm = floatToInteger op (operand.setWidth 32) rm := by
  simp only [integerTargets, List.mem_cons, List.not_mem_nil, or_false] at hop
  rcases hop with rfl | rfl | rfl | rfl <;> rfl

/-- **A conversion to an integer** returns under every mode that is resolved. -/
theorem toInteger_total {call : FpuCall} (hinteger : call.ToInteger) {rm : RoundingMode}
    (hrm : rm ≠ .dynamic) : ∃ result, call.run rm = .ok result := by
  cases call with
  | convert op operand =>
    obtain ⟨result, hrun, -⟩ := floatToInteger_yields hrm hinteger (operand.setWidth 32)
    exact ⟨result, (run_toInteger hinteger operand rm).trans hrun⟩
  | _ => exact absurd hinteger id

theorem roundingMode_ne_dynamic (mode : Mode) : roundingMode mode ≠ .dynamic := by
  cases mode <;> exact RoundingMode.noConfusion

/-- **Every offered call returns** under each of the five modes. -/
theorem run_total {call : FpuCall} (hoffered : call.Offered) (mode : Mode) :
    ∃ result, call.run (roundingMode mode) = .ok result := by
  by_cases hinteger : call.ToInteger
  · exact toInteger_total hinteger (roundingMode_ne_dynamic mode)
  · obtain ⟨p, hwithin, -, hrun⟩ := prepares hoffered hinteger
    rw [hrun]
    exact p.finish_total hwithin mode

/-- A call that is not offered throws. -/
theorem run_not_offered {call : FpuCall} (h : ¬ call.Offered) (rm : RoundingMode) :
    (call.run rm).Returns fun _ => False := by
  cases call with
  | binary op lhs rhs =>
    have hop : op ∉ binaryOps := h
    cases op <;> first | exact returns_error _ | exact absurd (by decide) hop
  | unary op operand =>
    have hop : op ≠ .sqrt := h
    cases op <;> first | exact returns_error _ | exact absurd rfl hop
  | convert op operand =>
    have hop : ¬ (op ∈ integerTargets ∨ op ∈ integerSources) := h
    cases op <;> first | exact returns_error _ | exact absurd (by decide) hop
  | fma type lhs rhs addend => exact absurd trivial h

/-- **The flags of a call.** -/
theorem run_flags (call : FpuCall) (rm : RoundingMode) :
    (call.run rm).Returns fun result =>
      result.flags ∈ roundingFlags ∨ result.flags = fpFlagNv ∨
        (result.flags = fpFlagDz ∧ call.RaisesDz) := by
  by_cases hoffered : call.Offered
  · by_cases hinteger : call.ToInteger
    · cases call with
      | convert op operand =>
        rw [run_toInteger hinteger]
        refine (floatToInteger_flags op _ rm).mono fun result hflags => ?_
        rcases hflags with hflags | hflags | hflags
        · exact .inl (by simp [hflags, roundingFlags])
        · exact .inl (by simp [hflags, roundingFlags])
        · exact .inr (.inl hflags)
      | _ => exact absurd hinteger id
    · obtain ⟨p, hwithin, -, hrun⟩ := prepares hoffered hinteger
      rw [hrun]
      exact p.finish_flags hwithin rm
  · exact (run_not_offered hoffered rm).mono fun _ => False.elim

end FpuCall

end ZincSim
