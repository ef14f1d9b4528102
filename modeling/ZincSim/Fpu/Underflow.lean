/-
  ZincSim.Fpu.Underflow — the underflow flag.

  Tininess after rounding is about a rounding with an unbounded exponent, but
  `round_and_pack` tests the value that it has rounded on the subnormal grid.  Below
  the normal range both are decisions about `y`, the magnitude in units of
  `2 ^ -149`: the code asks whether `y` rounds below `2 ^ 23`, and tininess whether
  `2 * y` rounds below `2 ^ 24`.  They differ in a window under the smallest normal
  number (`window_iff`).
-/
import ZincSim.Fpu.FusedMultiply
import ZincSim.Fpu.Divide
import ZincSim.Fpu.SquareRoot

namespace ZincSim

open Rounding

/-! ## §1. All operations round once -/

/-- **Every rounded operation delivers its exact result, rounded once.** -/
theorem RoundedOp.run_rounds (op : RoundedOp) (mode : Mode) {x : ℝ} (hexact : op.exact = some x)
    (hx : x ≠ 0) : RoundsTo (op.run (roundingMode mode)) mode x := by
  -- the operands are finite, and the divisor and the radicand are admissible
  cases op <;> simp only [RoundedOp.exact, Option.bind_eq_bind, Option.bind_eq_some_iff,
    Option.pure_def, Option.ite_none_left_eq_some, Option.some.injEq] at hexact
  case add lhs rhs =>
    obtain ⟨a, ha, b, hb, rfl⟩ := hexact
    rw [Rat.cast_add] at hx ⊢
    exact addOrSub_rounds ha hb false mode hx
  case sub lhs rhs =>
    obtain ⟨a, ha, b, hb, rfl⟩ := hexact
    rw [Rat.cast_sub, sub_eq_add_neg] at hx ⊢
    exact addOrSub_rounds ha hb true mode hx
  case mul lhs rhs =>
    obtain ⟨a, ha, b, hb, rfl⟩ := hexact
    rw [Rat.cast_mul] at hx ⊢
    exact multiply_rounds ha hb mode hx
  case div lhs rhs =>
    obtain ⟨a, ha, b, hb, hb0, rfl⟩ := hexact
    rw [Rat.cast_div] at hx ⊢
    exact divide_rounds ha hb mode hb0 hx
  case sqrt operand =>
    obtain ⟨a, ha, hnonneg, rfl⟩ := hexact
    exact squareRoot_rounds ha mode hnonneg hx
  case fma type lhs rhs addend =>
    obtain ⟨a, ha, b, hb, c, hc, rfl⟩ := hexact
    exact fma_rounds type ha hb hc mode hx

/-! ## §2. Tininess after rounding -/

/-- The result is finite and exact. -/
def Delivers (result : FpResult) (x : ℝ) : Prop :=
  ∃ d : ℚ, Binary32.value result.word = some d ∧ (d : ℝ) = x

/-- `x` rounded to 24 significant bits, with an unbounded exponent range. -/
noncomputable def roundedTo24 (mode : Mode) (x : ℝ) : ℝ :=
  signed (decide (x < 0)) (roundPrec (mode.direction (decide (x < 0))) 24 |x|)

/-- The operation returns, with the underflow flag set exactly for inexact results
that are tiny after rounding. -/
def UnderflowCorrect (op : RoundedOp) (mode : Mode) (x : ℝ) : Prop :=
  ∃ result, op.run (roundingMode mode) = .ok result ∧
    (result.flags &&& fpFlagUf ≠ 0 ↔
      ¬ Delivers result x ∧ |roundedTo24 mode x| < 2 ^ (-126 : ℤ))

/-- The magnitudes that round up to the smallest normal number on the subnormal grid,
but not with one more bit. -/
def UnderflowWindow (dir : Direction) (m : ℝ) : Prop :=
  match dir with
  | .tiesToEven | .tiesToAway =>
    (2 : ℝ) ^ (-126 : ℤ) - 2 ^ (-150 : ℤ) ≤ m ∧ m < 2 ^ (-126 : ℤ) - 2 ^ (-151 : ℤ)
  | .away => (2 : ℝ) ^ (-126 : ℤ) - 2 ^ (-149 : ℤ) < m ∧ m ≤ 2 ^ (-126 : ℤ) - 2 ^ (-150 : ℤ)
  | .toZero => False

/-! ## §3. The window -/

section Window

variable {m : ℝ} (dir : Direction)

/-- The window in units of the subnormal grid. -/
theorem window_units (y : ℝ) : UnderflowWindow dir (y * 2 ^ (-149 : ℤ)) ↔
    match dir with
    | .tiesToEven | .tiesToAway => (2 : ℝ) ^ 23 - 1 / 2 ≤ y ∧ y < 2 ^ 23 - 1 / 4
    | .away => (2 : ℝ) ^ 23 - 1 < y ∧ y ≤ 2 ^ 23 - 1 / 2
    | .toZero => False := by
  have hunit : (0 : ℝ) < 2 ^ (-149 : ℤ) := by positivity
  have hnormal : (2 : ℝ) ^ (-126 : ℤ) = 2 ^ 23 * 2 ^ (-149 : ℤ) := by
    rw [← zpow_natCast, ← zpow_add₀ (by norm_num)]
    rfl
  have hhalf : (2 : ℝ) ^ (-150 : ℤ) = 1 / 2 * 2 ^ (-149 : ℤ) := by
    rw [show (-150 : ℤ) = -149 - 1 by rfl, zpow_sub_one₀ (by norm_num)]
    ring
  have hquarter : (2 : ℝ) ^ (-151 : ℤ) = 1 / 4 * 2 ^ (-149 : ℤ) := by
    rw [show (-151 : ℤ) = -149 - 1 - 1 by rfl, zpow_sub_one₀ (by norm_num),
      zpow_sub_one₀ (by norm_num)]
    ring
  -- the bounds of the window, in units
  unfold UnderflowWindow
  rw [hnormal, hhalf, hquarter, ← sub_mul, ← sub_mul, ← sub_one_mul]
  cases dir with
  | toZero => rfl
  | away => exact and_congr (mul_lt_mul_iff_left₀ hunit) (mul_le_mul_iff_left₀ hunit)
  | tiesToAway => exact and_congr (mul_le_mul_iff_left₀ hunit) (mul_lt_mul_iff_left₀ hunit)
  | tiesToEven => exact and_congr (mul_le_mul_iff_left₀ hunit) (mul_lt_mul_iff_left₀ hunit)

/-- What rounds below `2 ^ 23` rounds below `2 ^ 24` when doubled, except in the window. -/
theorem window_iff (y : ℝ) :
    (roundInt dir y < 2 ^ 23 → roundInt dir (2 * y) < 2 ^ 24) ∧
      (UnderflowWindow dir (y * 2 ^ (-149 : ℤ)) ↔
        ¬ roundInt dir y < 2 ^ 23 ∧ roundInt dir (2 * y) < 2 ^ 24) := by
  rw [window_units]
  -- in each direction both roundings are comparisons of `y` with a constant
  cases dir with
  | toZero =>
    show (⌊y⌋ < 2 ^ 23 → ⌊2 * y⌋ < 2 ^ 24) ∧ (False ↔ ¬ ⌊y⌋ < 2 ^ 23 ∧ ⌊2 * y⌋ < 2 ^ 24)
    rw [Int.floor_lt, Int.floor_lt]
    push_cast
    refine ⟨fun h => by linarith, iff_of_false id fun h => ?_⟩
    exact h.1 (by linarith [h.2])
  | away =>
    rw [roundInt_away_lt_iff y, roundInt_away_lt_iff (2 * y), not_le]
    push_cast
    refine ⟨fun h => by linarith, and_congr ?_ ?_⟩
    all_goals constructor <;> intro h <;> linarith
  | tiesToAway =>
    rw [roundInt_tiesToAway_lt_iff y, roundInt_tiesToAway_lt_iff (2 * y), not_lt]
    push_cast
    refine ⟨fun h => by linarith, and_congr ?_ ?_⟩
    all_goals constructor <;> intro h <;> linarith
  | tiesToEven =>
    rw [roundInt_tiesToEven_lt_iff y (by decide), roundInt_tiesToEven_lt_iff (2 * y) (by decide),
      not_lt]
    push_cast
    refine ⟨fun h => by linarith, and_congr ?_ ?_⟩
    all_goals constructor <;> intro h <;> linarith

/-- Nothing in the window is a multiple of the unit. -/
theorem window_inexact {y : ℝ} (h : UnderflowWindow dir (y * 2 ^ (-149 : ℤ))) (n : ℤ) :
    y ≠ n := by
  rintro rfl
  rw [window_units] at h
  -- the window lies strictly between two integers
  cases dir with
  | toZero => exact h
  | away =>
    obtain ⟨hlow, hhigh⟩ := h
    have h1 : (2 ^ 23 - 1 : ℤ) < n := by exact_mod_cast hlow
    have h2 : (n : ℝ) < (2 ^ 23 : ℤ) := by
      push_cast
      linarith
    have h2' := Int.cast_lt.mp h2
    omega
  | tiesToAway | tiesToEven =>
    obtain ⟨hlow, hhigh⟩ := h
    have h1 : ((2 ^ 23 - 1 : ℤ) : ℝ) < n := by
      push_cast
      linarith
    have h2 : (n : ℝ) < (2 ^ 23 : ℤ) := by
      push_cast
      linarith
    have h1' := Int.cast_lt.mp h1
    have h2' := Int.cast_lt.mp h2
    omega

/-- The window lies below the normal range. -/
theorem window_lt (h : UnderflowWindow dir m) : m < 2 ^ (-126 : ℤ) := by
  have h149 : (0 : ℝ) < 2 ^ (-149 : ℤ) := by positivity
  have h150 : (0 : ℝ) < 2 ^ (-150 : ℤ) := by positivity
  have h151 : (0 : ℝ) < 2 ^ (-151 : ℤ) := by positivity
  cases dir with
  | toZero => exact h.elim
  | away =>
    have hhigh := h.2
    linarith
  | tiesToAway | tiesToEven =>
    have hhigh := h.2
    linarith

/-- Tininess, below the normal range, as a decision in half units. -/
theorem roundPrec_lt_iff (hm : 0 < m) (hlog : Int.log 2 m < -126) :
    roundPrec dir 24 m < 2 ^ (-126 : ℤ) ↔ roundInt dir (2 * (m / 2 ^ (-149 : ℤ))) < 2 ^ 24 := by
  have hunit : (0 : ℝ) < 2 ^ (-150 : ℤ) := by positivity
  have hhalf : 2 * (m / 2 ^ (-149 : ℤ)) = m / 2 ^ (-150 : ℤ) := by
    rw [show (-150 : ℤ) = -149 - 1 by rfl, zpow_sub_one₀ (by norm_num)]
    field_simp
  have hnormal : (2 : ℝ) ^ (-126 : ℤ) = ((2 ^ 24 : ℤ) : ℝ) * 2 ^ (-150 : ℤ) := by
    rw [Int.cast_pow, Int.cast_ofNat, ← zpow_natCast, ← zpow_add₀ (by norm_num)]
    rfl
  rw [hhalf]
  obtain hlow | hlow : Int.log 2 m < -127 ∨ Int.log 2 m = -127 := by omega
  · -- far below, both sides round below the bound
    have hle : m ≤ 2 ^ (-127 : ℤ) := (lt_zpow_log_add_one m).le.trans
      (zpow_le_zpow_right₀ (by norm_num) (by omega))
    refine iff_of_true ?_ ?_
    · have hround : roundPrec dir 24 m ≤ 2 ^ (Int.log 2 m + 1) :=
        roundAt_le (by omega) (lt_zpow_log_add_one m).le
      exact hround.trans_lt (zpow_lt_zpow_right₀ (by norm_num) (by omega))
    · have hround : roundInt dir (m / 2 ^ (-150 : ℤ)) ≤ 2 ^ 23 := by
        apply roundInt_le
        rw [div_le_iff₀ hunit]
        refine hle.trans_eq ?_
        rw [Int.cast_pow, Int.cast_ofNat, ← zpow_natCast, ← zpow_add₀ (by norm_num)]
        rfl
      exact hround.trans_lt (by decide)
  · rw [roundPrec, roundAt, hlow, show (-127 + 1 - (24 : ℕ) : ℤ) = -150 by rfl, hnormal,
      mul_lt_mul_iff_left₀ hunit, Int.cast_lt]

end Window

/-! ## §4. The flag -/

theorem signed_abs (x : ℝ) : signed (decide (x < 0)) |x| = x := by
  unfold signed
  split
  case isTrue h => rw [abs_of_neg (decide_eq_true_iff.mp h), neg_neg]
  case isFalse h => exact abs_of_nonneg (not_lt.mp fun hx => h (decide_eq_true hx))

theorem abs_roundedTo24 (mode : Mode) {x : ℝ} (hx : x ≠ 0) :
    |roundedTo24 mode x| = roundPrec (mode.direction (decide (x < 0))) 24 |x| := by
  have hle : 2 ^ Int.log 2 |x| ≤ roundPrec (mode.direction (decide (x < 0))) 24 |x| :=
    le_roundAt (by omega) (zpow_log_le (abs_pos.mpr hx))
  rw [roundedTo24, abs_signed]
  exact (zpow_pos (by norm_num) _).trans_le hle

section Tiny

variable {m : ℝ} (sign : Bool) (mode : Mode) (hm : 0 < m) (hlog : Int.log 2 m < -126)

include hlog in
theorem fp32Significand_of_tiny (dir : Direction) :
    fp32Significand dir m = roundInt dir (m / 2 ^ (-149 : ℤ)) := by
  rw [fp32Significand, fp32Exponent, max_eq_right hlog.le]
  rfl

include hlog in
theorem fp32Inexact_of_tiny : fp32Inexact m = true ↔ ¬ OnGrid (-149) m := by
  rw [fp32Inexact_iff, fp32Exponent, max_eq_right hlog.le]
  rfl

include hm hlog

/-- The code tests the significand that it has rounded on the subnormal grid. -/
theorem underflow_of_tiny :
    (packExact sign mode m).flags &&& fpFlagUf ≠ 0 ↔
      roundInt (mode.direction sign) (m / 2 ^ (-149 : ℤ)) < 2 ^ 23 ∧ ¬ OnGrid (-149) m := by
  obtain ⟨q, hq, hle, hpack⟩ := packExact_of_tiny sign mode hm hlog
  have hflags (subnormal inexact : Bool) : roundFlags subnormal inexact &&& fpFlagUf ≠ 0 ↔
      subnormal = true ∧ inexact = true := by
    cases subnormal <;> cases inexact <;> decide
  rw [hpack]
  refine (hflags _ _).trans ?_
  rw [fp32Inexact_of_tiny hlog, decide_eq_true_iff, ← fp32Significand_of_tiny hlog, hq]
  norm_cast

/-- What is delivered is the number rounded on the subnormal grid. -/
theorem delivers_of_tiny :
    Delivers (packExact sign mode m) (signed sign m) ↔ OnGrid (-149) m := by
  obtain ⟨q, hq, hle, hpack⟩ := packExact_of_tiny sign mode hm hlog
  have hround : roundAt (mode.direction sign) (-149) m = q * 2 ^ (-149 : ℤ) := by
    rw [roundAt, ← fp32Significand_of_tiny hlog, hq, Int.cast_natCast]
  have hvalue := value_pack_rounded sign (e := -126) (q := q) le_rfl (by decide) (by omega)
    (fun h => absurd rfl h)
  rw [← roundAt_eq_self_iff (mode.direction sign), hround, hpack, Delivers, FpResult.word_ofWord,
    hvalue]
  have hcast : (((if sign then -((q : ℚ) * 2 ^ (-126 - 23 : ℤ))
      else (q : ℚ) * 2 ^ (-126 - 23 : ℤ)) : ℚ) : ℝ) = signed sign (q * 2 ^ (-149 : ℤ)) := by
    unfold signed
    split
    · push_cast
      rfl
    · push_cast
      rfl
  -- the word stands for the rounded number, which is `m` on the grid only
  rw [← signed_inj sign, ← hcast]
  constructor
  · rintro ⟨d, hd, hdx⟩
    obtain rfl := Option.some.inj hd
    exact hdx
  · exact fun h => ⟨_, rfl, h⟩

end Tiny

/-- **The underflow flag is right, except in the window.** -/
theorem underflowFlag_iff (op : RoundedOp) (mode : Mode) {x : ℝ} (hexact : op.exact = some x)
    (hx : x ≠ 0) :
    UnderflowCorrect op mode x ↔
      ¬ UnderflowWindow (mode.direction (decide (x < 0))) |x| := by
  have hm : 0 < |x| := abs_pos.mpr hx
  have hrun := op.run_rounds mode hexact hx
  unfold RoundsTo at hrun
  have hcorrect : UnderflowCorrect op mode x ↔
      ((packExact (decide (x < 0)) mode |x|).flags &&& fpFlagUf ≠ 0 ↔
        ¬ Delivers (packExact (decide (x < 0)) mode |x|) x ∧
          roundPrec (mode.direction (decide (x < 0))) 24 |x| < 2 ^ (-126 : ℤ)) := by
    unfold UnderflowCorrect
    rw [hrun, abs_roundedTo24 mode hx]
    constructor
    · rintro ⟨result, hresult, hiff⟩
      obtain rfl := Except.ok.inj hresult
      exact hiff
    · exact fun hiff => ⟨_, rfl, hiff⟩
  rw [hcorrect]
  by_cases hlog : Int.log 2 |x| < -126
  · -- with `y` the magnitude in units, both sides are about the rounding of `y` and `2 * y`
    obtain ⟨y, hy⟩ : ∃ y, |x| / 2 ^ (-149 : ℤ) = y := ⟨_, rfl⟩
    have hunits : |x| = y * 2 ^ (-149 : ℤ) := by
      rw [← hy, div_mul_cancel₀ _ (by positivity)]
    have hdelivers := delivers_of_tiny (decide (x < 0)) mode hm hlog
    rw [signed_abs] at hdelivers
    rw [underflow_of_tiny _ mode hm hlog, hdelivers, roundPrec_lt_iff _ hm hlog, hy]
    obtain ⟨himp, hwindow⟩ := window_iff (mode.direction (decide (x < 0))) y
    have hgrid : UnderflowWindow (mode.direction (decide (x < 0))) (y * 2 ^ (-149 : ℤ)) →
        ¬ OnGrid (-149) |x| := by
      rintro hin ⟨n, hn⟩
      rw [hn, mul_div_cancel_right₀ _ (by positivity)] at hy
      exact window_inexact _ hin n hy.symm
    rw [← hunits] at hwindow hgrid
    constructor
    · intro hiff hin
      obtain ⟨hnot, htiny⟩ := hwindow.mp hin
      exact hnot (hiff.mpr ⟨hgrid hin, htiny⟩).1
    · intro hout
      constructor
      · rintro ⟨hlow, hinexact⟩
        exact ⟨hinexact, himp hlow⟩
      · rintro ⟨hinexact, htiny⟩
        exact ⟨not_not.mp fun hnot => hout (hwindow.mpr ⟨hnot, htiny⟩), hinexact⟩
  · -- a normal result never underflows
    have hge := not_lt.mp hlog
    have hbound : (2 : ℝ) ^ (-126 : ℤ) ≤ |x| :=
      (zpow_le_zpow_right₀ (by norm_num) hge).trans (zpow_log_le hm)
    have hprec : ¬ roundPrec (mode.direction (decide (x < 0))) 24 |x| < 2 ^ (-126 : ℤ) :=
      not_lt.mpr ((zpow_le_zpow_right₀ (by norm_num) hge).trans
        (le_roundAt (by omega) (zpow_log_le hm)))
    refine iff_of_true ?_ fun hin => absurd (window_lt _ hin) (not_lt.mpr hbound)
    exact iff_of_false (not_not.mpr (packExact_flags_of_normal _ mode hm hge))
      fun h => hprec h.2

/-- Half of the number after the smallest normal one is tiny and inexact, far from the
window. -/
theorem underflowFlag_iff_half :
    UnderflowCorrect (.mul 0x00800001 0x3f000000) .tiesToEven (0x800001 * 2 ^ (-150 : ℤ)) := by
  have hlhs : (0x00800001 : BitVec 32) =
      Binary32.pack false (exponentField (-126) 0x800001) (BitVec.ofNat 23 0x800001) := by decide
  have hrhs : (0x3f000000 : BitVec 32) =
      Binary32.pack false (exponentField (-1) 0x800000) (BitVec.ofNat 23 0x800000) := by decide
  have hx : Binary32.value 0x00800001 = some (0x800001 * 2 ^ (-149 : ℤ)) := by
    rw [hlhs, value_pack_rounded false (by decide) (by decide) (by decide) (by decide)]
    rfl
  have hy : Binary32.value 0x3f000000 = some (0x800000 * 2 ^ (-24 : ℤ)) := by
    rw [hrhs, value_pack_rounded false (by decide) (by decide) (by decide) (by decide)]
    rfl
  have hpos : (0 : ℝ) < 0x800001 * 2 ^ (-150 : ℤ) := by positivity
  refine (underflowFlag_iff _ .tiesToEven ?_ hpos.ne').mpr ?_
  · simp only [RoundedOp.exact, hx, hy, Option.bind_eq_bind, Option.bind_some, Option.pure_def]
    norm_num
  · rw [abs_of_pos hpos]
    rintro ⟨hlow, -⟩
    norm_num at hlow

/-- In the window the flag is missed: the product is inexact and tiny, but its
significand carries into the normal range on the subnormal grid. -/
theorem mul_underflow_missed :
    (RoundedOp.mul 0x20000800 0x1ffff000).exact =
        some ((2 : ℝ) ^ (-126 : ℤ) - 2 ^ (-150 : ℤ)) ∧
      ¬ UnderflowCorrect (.mul 0x20000800 0x1ffff000) .tiesToEven
        ((2 : ℝ) ^ (-126 : ℤ) - 2 ^ (-150 : ℤ)) := by
  have hlhs : (0x20000800 : BitVec 32) =
      Binary32.pack false (exponentField (-63) 0x800800) (BitVec.ofNat 23 0x800800) := by decide
  have hrhs : (0x1ffff000 : BitVec 32) =
      Binary32.pack false (exponentField (-64) 0xfff000) (BitVec.ofNat 23 0xfff000) := by decide
  constructor
  · have hx : Binary32.value 0x20000800 = some (0x800800 * 2 ^ (-86 : ℤ)) := by
      rw [hlhs, value_pack_rounded false (by decide) (by decide) (by decide) (by decide)]
      rfl
    have hy : Binary32.value 0x1ffff000 = some (0xfff000 * 2 ^ (-87 : ℤ)) := by
      rw [hrhs, value_pack_rounded false (by decide) (by decide) (by decide) (by decide)]
      rfl
    simp only [RoundedOp.exact, hx, hy, Option.bind_eq_bind, Option.bind_some, Option.pure_def]
    norm_num
  · -- the result is the smallest normal number, with only the inexact flag
    rintro ⟨result, hrun, hiff⟩
    have hval : (RoundedOp.mul 0x20000800 0x1ffff000).run (roundingMode .tiesToEven) =
        .ok (.ofWord 0x00800000 fpFlagNx) := by decide
    obtain rfl := Except.ok.inj (hval.symm.trans hrun)
    have hunit : (2 : ℝ) ^ (-126 : ℤ) = 2 ^ 24 * 2 ^ (-150 : ℤ) := by norm_num
    have hpos : (0 : ℝ) < 2 ^ (-150 : ℤ) := by positivity
    have hx : (0 : ℝ) < 2 ^ (-126 : ℤ) - 2 ^ (-150 : ℤ) := by
      rw [hunit]
      linarith
    refine absurd (hiff.mpr ⟨?_, ?_⟩) (not_not.mpr (by decide))
    · rintro ⟨d, hd, hdx⟩
      have hword : (0x00800000 : BitVec 32) =
          Binary32.pack false (exponentField (-126) 0x800000) (BitVec.ofNat 23 0x800000) := by
        decide
      rw [FpResult.word_ofWord, hword,
        value_pack_rounded false (by decide) (by decide) (by decide) (by decide)] at hd
      obtain rfl := Option.some.inj hd
      norm_num at hdx
    · rw [abs_roundedTo24 _ hx.ne', abs_of_pos hx, roundPrec_lt_iff _ hx
        ((Int.lt_zpow_iff_log_lt (by norm_num) hx).mp (by push_cast; linarith))]
      have hodd : 2 * (((2 : ℝ) ^ (-126 : ℤ) - 2 ^ (-150 : ℤ)) / 2 ^ (-149 : ℤ)) =
          ((2 ^ 24 - 1 : ℤ) : ℝ) := by norm_num
      rw [hodd, roundInt_intCast]
      decide

end ZincSim
