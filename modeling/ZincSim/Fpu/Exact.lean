/-
  ZincSim.Fpu.Exact — the exact results of the rounded operations.

  `RoundedOp` lists the nine operations that round, with their operand patterns:
  `exact` is the real number that each stands for and `run` the call of `class Fpu`
  that computes it.  `RoundsTo` says that a call delivers a real number rounded once.
-/
import ZincSim.Fpu.Encode
import ZincSim.Machine.Fpu.Convert

namespace ZincSim

open Rounding

/-! ## §1. Signed numbers -/

/-- The number of a magnitude and a sign. -/
def signed (negative : Bool) (x : ℝ) : ℝ := if negative then -x else x

section Signed

variable {x y : ℝ} (s t : Bool)

theorem abs_signed (hx : 0 < x) : |signed s x| = x := by
  cases s with
  | false => exact abs_of_pos hx
  | true => exact (abs_neg x).trans (abs_of_pos hx)

theorem signed_lt_zero_iff (hx : 0 < x) : signed s x < 0 ↔ s = true := by
  cases s with
  | false => exact iff_of_false (not_lt.mpr hx.le) (by decide)
  | true => exact iff_of_true (neg_lt_zero.mpr hx) rfl

theorem signed_mul : signed s x * signed t y = signed (s ^^ t) (x * y) := by
  cases s <;> cases t <;> simp [signed]

theorem signed_div : signed s x / signed t y = signed (s ^^ t) (x / y) := by
  cases s <;> cases t <;> simp [signed, neg_div, div_neg]

theorem signed_add : signed s x + signed s y = signed s (x + y) := by
  cases s <;> simp [signed, add_comm]

/-- Opposite signs: the difference, with the sign of either. -/
theorem signed_add_of_ne {s t : Bool} (h : s ≠ t) :
    signed s x + signed t y = signed s (x - y) ∧ signed s x + signed t y = signed t (y - x) := by
  cases s <;> cases t <;> first | exact absurd rfl h | constructor <;> simp [signed] <;> ring

/-- A sign change moves into the sign. -/
theorem signed_signed : signed s (signed t x) = signed (t ^^ s) x := by
  cases s <;> cases t <;> simp [signed]

@[simp] theorem signed_zero : signed s 0 = 0 := by cases s <;> simp [signed]

theorem signed_inj : signed s x = signed s y ↔ x = y := by cases s <;> simp [signed]

end Signed

/-! ## §2. Operands -/

/-- The real value of a finite pattern. -/
theorem value_eq_signed {raw : BitVec 32} {v : ℚ} (h : Binary32.value raw = some v) :
    Binary32.exponent raw ≠ 255 ∧
      (v : ℝ) = signed (Binary32.sign raw) (Binary32.magnitude raw : ℚ) := by
  unfold Binary32.value at h
  split at h
  · cases h
  case isFalse hfinite =>
    refine ⟨hfinite, ?_⟩
    obtain rfl := Option.some.inj h
    unfold signed
    split
    · push_cast
      rfl
    · rfl

/-- The magnitude of an unpacked number. -/
noncomputable def UnpackedFp32.magnitude (u : UnpackedFp32) : ℝ :=
  u.significand.toNat * 2 ^ (u.exponent - 23)

theorem Unpacked.magnitude_pos {raw : BitVec 32} {u : UnpackedFp32} (h : Unpacked raw u) :
    0 < u.magnitude := by
  have hpos : (0 : ℝ) < u.significand.toNat := by
    exact_mod_cast (by have := h.low; omega : 0 < u.significand.toNat)
  unfold UnpackedFp32.magnitude
  positivity

/-- Unpacked numbers take none of the special branches. -/
theorem Unpacked.class_facts {raw : BitVec 32} {u : UnpackedFp32} (h : Unpacked raw u) :
    u.fpClass.isNan = false ∧ u.fpClass ≠ .infinity ∧ u.fpClass ≠ .zero := by
  rcases h.fpClass with hc | hc <;> rw [hc] <;> decide

/-- `u` is the unpacked form of a finite pattern of value `v`. -/
structure FiniteOperand (raw : BitVec 32) (v : ℚ) (u : UnpackedFp32) : Prop where
  unpack : UnpackedFp32.ofRaw raw = .ok u
  sign : u.sign = Binary32.sign raw
  isNan : u.fpClass.isNan = false
  not_infinity : u.fpClass ≠ .infinity
  zero_iff : u.fpClass = .zero ↔ v = 0
  significand_of_zero : v = 0 → u.significand = 0
  unpacked : v ≠ 0 → Unpacked raw u
  value : v ≠ 0 → (v : ℝ) = signed u.sign u.magnitude

theorem FiniteOperand.of_value {raw : BitVec 32} {v : ℚ} (h : Binary32.value raw = some v) :
    ∃ u, FiniteOperand raw v u := by
  obtain ⟨hfinite, hv⟩ := value_eq_signed h
  -- zeros and nonzero numbers come from different branches of the constructor
  by_cases hzero : Binary32.magnitude raw = 0
  · rw [hzero, Rat.cast_zero, signed_zero] at hv
    have hv0 : v = 0 := by exact_mod_cast hv
    exact ⟨_, ofRaw_zero hzero, rfl, rfl, FpClass.noConfusion, iff_of_true rfl hv0, fun _ => rfl,
      fun hne => absurd hv0 hne, fun hne => absurd hv0 hne⟩
  · obtain ⟨u, hu, hunpacked⟩ := ofRaw_finite hfinite hzero
    obtain ⟨hnan, hinf, hclass⟩ := hunpacked.class_facts
    have hmag : ((Binary32.magnitude raw : ℚ) : ℝ) = u.magnitude := by
      rw [hunpacked.magnitude, UnpackedFp32.magnitude]
      push_cast
      rfl
    rw [← hunpacked.sign, hmag] at hv
    have hv0 : v ≠ 0 := by
      rintro rfl
      have hpos := abs_signed u.sign hunpacked.magnitude_pos
      rw [← hv, Rat.cast_zero, abs_zero] at hpos
      exact absurd hpos hunpacked.magnitude_pos.ne
    exact ⟨u, hu, hunpacked.sign, hnan, hinf, iff_of_false hclass hv0, fun h0 => absurd h0 hv0,
      fun _ => hunpacked, fun _ => hv⟩

/-! ## §3. The nine operations -/

/-- An operation that rounds, with its operand patterns. -/
inductive RoundedOp where
  | add (lhs rhs : BitVec 32)
  | sub (lhs rhs : BitVec 32)
  | mul (lhs rhs : BitVec 32)
  | div (lhs rhs : BitVec 32)
  | sqrt (operand : BitVec 32)
  | fma (type : FmaFpType) (lhs rhs addend : BitVec 32)
  deriving DecidableEq, Repr

/-- The product and the addend of a fused operation, with the signs it gives them. -/
def fmaValue (type : FmaFpType) (product addend : ℚ) : ℚ :=
  match type with
  | .mAdd => product + addend
  | .mSub => product - addend
  | .nmSub => -product + addend
  | .nmAdd => -product - addend

/-- The exact result, where it is a real number. -/
noncomputable def RoundedOp.exact : RoundedOp → Option ℝ
  | .add lhs rhs => do
      let x ← Binary32.value lhs
      let y ← Binary32.value rhs
      return ((x + y : ℚ) : ℝ)
  | .sub lhs rhs => do
      let x ← Binary32.value lhs
      let y ← Binary32.value rhs
      return ((x - y : ℚ) : ℝ)
  | .mul lhs rhs => do
      let x ← Binary32.value lhs
      let y ← Binary32.value rhs
      return ((x * y : ℚ) : ℝ)
  | .div lhs rhs => do
      let x ← Binary32.value lhs
      let y ← Binary32.value rhs
      if y = 0 then none else return ((x / y : ℚ) : ℝ)
  | .sqrt operand => do
      let x ← Binary32.value operand
      if x < 0 then none else return √(x : ℝ)
  | .fma type lhs rhs addend => do
      let x ← Binary32.value lhs
      let y ← Binary32.value rhs
      let z ← Binary32.value addend
      return ((fmaValue type (x * y) z : ℚ) : ℝ)

/-- The call of `class Fpu`. -/
def RoundedOp.run (rm : RoundingMode) : RoundedOp → Except Fault FpResult
  | .add lhs rhs => Fpu.binary .add lhs rhs rm
  | .sub lhs rhs => Fpu.binary .sub lhs rhs rm
  | .mul lhs rhs => Fpu.binary .mul lhs rhs rm
  | .div lhs rhs => Fpu.binary .div lhs rhs rm
  | .sqrt operand => Fpu.unary .sqrt operand rm
  | .fma type lhs rhs addend => Fpu.fma type lhs rhs addend rm

/-- The call delivers the real number `x`, rounded once. -/
def RoundsTo (result : Except Fault FpResult) (mode : Mode) (x : ℝ) : Prop :=
  result = .ok (packExact (decide (x < 0)) mode |x|)

/-- From a sign and a magnitude. -/
theorem roundsTo_signed {result : Except Fault FpResult} {mode : Mode} {s : Bool} {x : ℝ}
    (hx : 0 < x) (h : result = .ok (packExact s mode x)) :
    RoundsTo result mode (signed s x) := by
  have hs : decide (signed s x < 0) = s := by
    rw [Bool.eq_iff_iff, decide_eq_true_iff, signed_lt_zero_iff s hx]
  rw [RoundsTo, hs, abs_signed s hx]
  exact h

section PassedOn

variable {raw : BitVec 32} {v : ℚ} {u : UnpackedFp32}

/-- An operand with its own sign is the operand. -/
theorem FiniteOperand.masked_self (h : FiniteOperand raw v u) :
    (raw &&& fp32MagnitudeMask) ||| signBits u.sign = raw := by
  rw [h.sign, masked_eq_pack, Binary32.pack_fields]

/-- **A nonzero operand that is passed on**, with its sign or the other one, is exact. -/
theorem FiniteOperand.passed_on (h : FiniteOperand raw v u) (hv : v ≠ 0) (t : Bool)
    (mode : Mode) :
    RoundsTo (.ok (.ofWord ((raw &&& fp32MagnitudeMask) ||| signBits (u.sign ^^ t)) 0)) mode
      (signed t v) := by
  have hu := h.unpacked hv
  have hmag : ((Binary32.magnitude raw : ℚ) : ℝ) = u.magnitude := by
    rw [hu.magnitude, UnpackedFp32.magnitude]
    push_cast
    rfl
  have hnz : Binary32.magnitude raw ≠ 0 := by
    intro h0
    rw [h0, Rat.cast_zero] at hmag
    exact hu.magnitude_pos.ne hmag
  rw [h.value hv, signed_signed]
  apply roundsTo_signed hu.magnitude_pos
  rw [← hmag, packExact_magnitude _ mode hu.finite hnz, masked_eq_pack]

end PassedOn

end ZincSim
