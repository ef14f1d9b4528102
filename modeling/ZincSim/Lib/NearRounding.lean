/-
  ZincSim.Lib.NearRounding — what rounding keeps, and how far it moves the rest.

  A multiple of a unit with at most 24 digits is on the grid of its size and stays as it is.
  Rounding to nearest moves a number by half a unit at most, and returns to an integer from
  anywhere nearer than that.
-/
import ZincSim.Lib.DatumOrder

namespace Rounding

variable {K : Type*} [Field K] [LinearOrder K] [IsStrictOrderedRing K] [FloorRing K]

/-! ## §1. Rounding to nearest -/

/-- **A number near an integer is rounded to it**, by the rules that break ties. -/
theorem roundInt_of_near {dir : Direction} (hdir : dir = .tiesToEven ∨ dir = .tiesToAway) {x : K}
    {n : ℤ} (h : |x - n| < 1 / 2) : roundInt dir x = n := by
  obtain ⟨hlow, hhigh⟩ := abs_lt.mp h
  have haway : ⌊x + 1 / 2⌋ = n := by
    rw [Int.floor_eq_iff]
    constructor <;> linarith
  rcases hdir with rfl | rfl
  · show (if _ then _ else _) = n
    split
    next htie =>
      -- at a tie the integer would be half a unit away
      have hx : x = ⌊x⌋ + 1 / 2 := by
        have hfract := Int.floor_add_fract x
        rw [htie.1] at hfract
        exact hfract.symm
      have hfloor : ⌊x + 1 / 2⌋ = ⌊x⌋ + 1 := by
        rw [Int.floor_eq_iff]
        push_cast
        constructor <;> linarith
      have hn : n = ⌊x⌋ + 1 := by omega
      rw [hn] at hhigh hlow
      push_cast at hlow
      linarith
    next => exact haway
  · exact haway

/-- Rounding to nearest moves by half a unit at most. -/
theorem abs_roundInt_sub_le {dir : Direction} (hdir : dir = .tiesToEven ∨ dir = .tiesToAway)
    (x : K) : |(roundInt dir x : K) - x| ≤ 1 / 2 := by
  have hfract := Int.floor_add_fract x
  rcases roundInt_cases dir x with ⟨hup, hround⟩ | ⟨hdown, hround⟩
  · have hhalf : 1 / 2 ≤ Int.fract x := by
      rcases hdir with rfl | rfl
      · exact hup.elim le_of_lt fun h => h.1.ge
      · exact hup
    have hone := Int.fract_lt_one x
    rw [hround, abs_le]
    push_cast
    constructor <;> linarith
  · have hhalf : Int.fract x ≤ 1 / 2 := by
      rcases hdir with rfl | rfl
      · exact not_lt.mp fun h => hdown (.inl h)
      · exact (not_le.mp hdown).le
    have hnonneg := Int.fract_nonneg x
    rw [hround, abs_le]
    constructor <;> linarith

theorem abs_roundAt_sub_le {dir : Direction} (hdir : dir = .tiesToEven ∨ dir = .tiesToAway)
    (e : ℤ) (x : K) : |roundAt dir e x - x| ≤ 2 ^ e / 2 := by
  have hunit : (0 : K) < 2 ^ e := zpow_pos (by norm_num) e
  have hsplit : roundAt dir e x - x = (roundInt dir (x / 2 ^ e) - x / 2 ^ e) * 2 ^ e := by
    rw [roundAt, sub_mul, div_mul_cancel₀ x hunit.ne']
  calc |roundAt dir e x - x| = |(roundInt dir (x / 2 ^ e) : K) - x / 2 ^ e| * 2 ^ e := by
        rw [hsplit, abs_mul, abs_of_pos hunit]
    _ ≤ 1 / 2 * 2 ^ e := mul_le_mul_of_nonneg_right (abs_roundInt_sub_le hdir _) hunit.le
    _ = 2 ^ e / 2 := one_div_mul_eq_div 2 _

/-! ## §2. Grids -/

omit [LinearOrder K] [IsStrictOrderedRing K] [FloorRing K] in
/-- A grid contains the coarser ones. -/
theorem OnGrid.refine [CharZero K] {e f : ℤ} {x : K} (h : OnGrid f x) (hef : e ≤ f) :
    OnGrid e x := by
  obtain ⟨n, rfl⟩ := h
  refine ⟨n * 2 ^ (f - e).toNat, ?_⟩
  rw [Int.cast_mul, ← Int.cast_ofNat (R := K) 2, Int.cast_pow, mul_assoc]
  congr 1
  push_cast
  rw [← zpow_natCast, Int.toNat_of_nonneg (by omega), ← zpow_add₀ (by norm_num)]
  congr 1
  ring

end Rounding

namespace Binary32

open Rounding

/-! ## §3. Numbers of the format -/

/-- **A multiple of a unit with at most 24 digits** is on the grid of its size. -/
theorem onGrid_of_digits {x : ℝ} {g : ℤ} (hg : -149 ≤ g) (h : OnGrid g x)
    (hx : |x| < 2 ^ (g + 24)) : OnGrid (ulpExponent x) x := by
  by_cases h0 : x = 0
  · rw [h0]
    exact ⟨0, by rw [Int.cast_zero, zero_mul]⟩
  · have hlog : Int.log 2 |x| < g + 24 :=
      (Int.lt_zpow_iff_log_lt (by norm_num) (abs_pos.mpr h0)).mp (by exact_mod_cast hx)
    exact h.refine (by rw [ulpExponent]; omega)

/-- The magnitude of a pattern has at most 24 digits. -/
theorem magnitude_digits (pattern : BitVec 32) :
    ∃ (q : ℕ) (g : ℤ), q < 2 ^ 24 ∧ -149 ≤ g ∧ magnitude pattern = q * 2 ^ g := by
  have hf := (fraction pattern).isLt
  by_cases h : exponent pattern = 0
  · exact ⟨(fraction pattern).toNat, -149, by omega, le_rfl, by rw [magnitude, if_pos h]⟩
  · have hpos : 0 < (exponent pattern).toNat := BitVec.toNat_pos_of_ne_zero h
    refine ⟨2 ^ 23 + (fraction pattern).toNat, (exponent pattern).toNat - 150, by omega, by omega,
      ?_⟩
    rw [magnitude, if_neg h]
    push_cast
    rfl

/-- The pattern of a number is fixed by its sign. -/
theorem eq_of_standsFor {p q : BitVec 32} {x : ℝ} (hsign : sign p = sign q) (hp : StandsFor p x)
    (hq : StandsFor q x) : p = q :=
  eq_of_orderKey ((extended_eq_iff (extended_of_standsFor hp) (extended_of_standsFor hq)).mp rfl)
    hsign

/-- What is not beyond the largest number is not rounded beyond it. -/
theorem not_overflows_of_abs_le (mode : Mode) {x : ℝ} (hx : |x| ≤ largest) :
    ¬ Overflows mode x := by
  have hgrid : OnGrid (ulpExponent largest) largest := by
    refine onGrid_of_digits (g := 104) (by norm_num) ⟨2 ^ 24 - 1, ?_⟩ ?_
    · rw [largest]
      norm_num
    · rw [abs_of_pos largest_pos, largest]
      norm_num
  obtain ⟨hlow, hhigh⟩ := abs_le.mp hx
  have hround_high := roundReal_mono mode hhigh
  have hround_low := roundReal_mono mode hlow
  rw [roundReal_of_onGrid mode hgrid] at hround_high
  rw [roundReal_of_onGrid mode (by rw [ulpExponent_neg]; exact hgrid.neg)] at hround_low
  exact not_lt.mpr (abs_le.mpr ⟨hround_low, hround_high⟩)

/-- The digits of a number of the format. -/
theorem StandsFor.digits {pattern : BitVec 32} {x : ℝ} (h : StandsFor pattern x) :
    ∃ g : ℤ, -149 ≤ g ∧ OnGrid g x ∧ |x| < 2 ^ (g + 24) := by
  obtain ⟨v, hv, rfl⟩ := h
  obtain ⟨q, g, hq, hg, hmagnitude⟩ := magnitude_digits pattern
  have hunit : (0 : ℝ) < 2 ^ g := by positivity
  have hreal : ((magnitude pattern : ℚ) : ℝ) = q * 2 ^ g := by
    rw [hmagnitude]
    push_cast
    rfl
  have hgrid : OnGrid g ((magnitude pattern : ℚ) : ℝ) := ⟨q, by rw [hreal, Int.cast_natCast]⟩
  have habs : |((magnitude pattern : ℚ) : ℝ)| < 2 ^ (g + 24) := by
    rw [hreal, abs_of_nonneg (by positivity), add_comm, zpow_add₀ (by norm_num)]
    refine mul_lt_mul_of_pos_right ?_ hunit
    exact_mod_cast hq
  unfold value at hv
  split at hv
  · cases hv
  obtain rfl := Option.some.inj hv
  refine ⟨g, hg, ?_⟩
  split
  · rw [Rat.cast_neg, abs_neg]
    exact ⟨hgrid.neg, habs⟩
  · exact ⟨hgrid, habs⟩

/-- **A difference that is not larger than its operands** is on the grid of its size. -/
theorem onGrid_sub {p q : BitVec 32} {x y : ℝ} (hx : StandsFor p x) (hy : StandsFor q y)
    (hleft : |x - y| ≤ |x|) (hright : |x - y| ≤ |y|) : OnGrid (ulpExponent (x - y)) (x - y) := by
  obtain ⟨g, hg, hxg, hxlt⟩ := hx.digits
  obtain ⟨f, hf, hyf, hylt⟩ := hy.digits
  rw [sub_eq_add_neg] at hleft hright ⊢
  -- the finer of the two grids has both, and its operand bounds the digits
  rcases le_total g f with hgf | hfg
  · exact onGrid_of_digits hg (hxg.add (hyf.refine hgf).neg) (hleft.trans_lt hxlt)
  · exact onGrid_of_digits hf ((hxg.refine hfg).add hyf.neg) (hright.trans_lt hylt)

/-! ## §4. Squares -/

/-- The two modes that round to nearest. -/
def Nearest (mode : Mode) : Prop := mode = .tiesToEven ∨ mode = .tiesToAway

theorem Nearest.direction {mode : Mode} (h : Nearest mode) (negative : Bool) :
    mode.direction negative = .tiesToEven ∨ mode.direction negative = .tiesToAway := by
  rcases h with rfl | rfl
  · exact .inl rfl
  · exact .inr rfl

section Square

variable {q : ℕ} {g : ℤ} (hhigh : q < 2 ^ 24) (hg : -86 ≤ g)

include hhigh hg

/-- A number of 24 digits is kept. -/
theorem roundReal_of_digits (mode : Mode) : roundReal mode ((q : ℝ) * 2 ^ g) = q * 2 ^ g := by
  have hunit : (0 : ℝ) < 2 ^ g := by positivity
  refine roundReal_of_onGrid mode
    (onGrid_of_digits (g := g) (by omega) ⟨q, by rw [Int.cast_natCast]⟩ ?_)
  rw [abs_of_nonneg (by positivity), add_comm, zpow_add₀ (by norm_num)]
  refine mul_lt_mul_of_pos_right ?_ hunit
  exact_mod_cast hhigh

/-- A number nearer than half a unit is rounded to it, when the unit is the one of its size. -/
theorem roundReal_of_near {mode : Mode} (hmode : Nearest mode) (hfoot : 2 ^ 23 < q) {s : ℝ}
    (hbelow : ((q : ℝ) - 1 / 2) * 2 ^ g < s) (habove : s < ((q : ℝ) + 1 / 2) * 2 ^ g) :
    roundReal mode s = q * 2 ^ g := by
  have hunit : (0 : ℝ) < 2 ^ g := by positivity
  have hq : (2 : ℝ) ^ 23 + 1 ≤ q := by exact_mod_cast hfoot
  have hq' : (q : ℝ) + 1 ≤ 2 ^ 24 := by exact_mod_cast hhigh
  have hspos : 0 < s := lt_of_le_of_lt (mul_nonneg (by linarith) hunit.le) hbelow
  have hlog : Int.log 2 s = g + 23 := by
    apply log_eq_of_binade
    · rw [add_comm, zpow_add₀ (by norm_num)]
      refine le_trans (mul_le_mul_of_nonneg_right ?_ hunit.le) hbelow.le
      rw [zpow_ofNat]
      linarith
    · rw [add_assoc, add_comm, zpow_add₀ (by norm_num)]
      refine habove.trans_le (mul_le_mul_of_nonneg_right ?_ hunit.le)
      norm_num at hq' ⊢
      linarith
  have hulp : ulpExponent s = g := by
    rw [ulpExponent, abs_of_pos hspos, hlog, max_eq_left (by omega)]
    ring
  have hnear : |s / 2 ^ g - ((q : ℤ) : ℝ)| < 1 / 2 := by
    rw [Int.cast_natCast, abs_lt]
    constructor
    · rw [lt_sub_iff_add_lt, lt_div_iff₀ hunit]
      exact lt_of_eq_of_lt (by ring) hbelow
    · rw [sub_lt_iff_lt_add, div_lt_iff₀ hunit]
      exact habove.trans_eq (by ring)
  rw [roundReal_of_nonneg mode hspos.le, roundMagnitude, hulp, roundAt,
    roundInt_of_near (hmode.direction false) hnear, Int.cast_natCast]

/-- **The root of a square that was rounded to nearest is rounded to the number again.** -/
theorem roundReal_sqrt_square (hlow : 2 ^ 23 ≤ q) {mode mode' : Mode} (hmode : Nearest mode)
    (hmode' : Nearest mode') :
    roundReal mode' √(roundReal mode ((q : ℝ) * 2 ^ g * (q * 2 ^ g))) = q * 2 ^ g := by
  have hunit : (0 : ℝ) < 2 ^ g := by positivity
  have hsquare : (2 : ℝ) ^ (2 * g) = 2 ^ g * 2 ^ g := by
    rw [two_mul, zpow_add₀ (by norm_num)]
  have hx : (0 : ℝ) ≤ (q : ℝ) * 2 ^ g := by positivity
  rcases hlow.eq_or_lt with heq | hfoot
  · -- the square of a power of two is exact
    have hgrid : OnGrid (ulpExponent ((q : ℝ) * 2 ^ g * (q * 2 ^ g)))
        ((q : ℝ) * 2 ^ g * (q * 2 ^ g)) := by
      have hcast : (q : ℝ) = 2 ^ 23 := by exact_mod_cast heq.symm
      have hvalue : (q : ℝ) * 2 ^ g * (q * 2 ^ g) = 2 ^ 46 * 2 ^ (2 * g) := by
        rw [hsquare, hcast]
        ring
      refine onGrid_of_digits (g := 2 * g + 23) (by omega) ⟨2 ^ 23, ?_⟩ ?_
      · rw [hvalue, zpow_add₀ (by norm_num)]
        norm_num
        ring
      · rw [hvalue, abs_of_nonneg (by positivity),
          show 2 * g + 23 + 24 = 47 + 2 * g by ring, zpow_add₀ (by norm_num)]
        exact mul_lt_mul_of_pos_right (by norm_num) (by positivity)
    rw [roundReal_of_onGrid mode hgrid, Real.sqrt_mul_self hx]
    exact roundReal_of_digits hhigh hg mode'
  · have hq : (2 : ℝ) ^ 23 + 1 ≤ q := by exact_mod_cast hfoot
    have hq' : (q : ℝ) < 2 ^ 24 := by exact_mod_cast hhigh
    -- rounding moves the square by less than the number itself, in units squared
    have hmoved : |roundReal mode ((q : ℝ) * 2 ^ g * (q * 2 ^ g)) - (q : ℝ) * 2 ^ g * (q * 2 ^ g)| ≤
        2 ^ 23 * (2 ^ g * 2 ^ g) := by
      have hpos : 0 < (q : ℝ) * 2 ^ g * (q * 2 ^ g) := by positivity
      have hlog : Int.log 2 ((q : ℝ) * 2 ^ g * (q * 2 ^ g)) < 48 + 2 * g := by
        refine (Int.lt_zpow_iff_log_lt (by norm_num) hpos).mp ?_
        rw [Nat.cast_ofNat, zpow_add₀ (by norm_num), hsquare]
        have hqq : (q : ℝ) * q < 2 ^ 24 * 2 ^ 24 :=
          mul_lt_mul'' hq' hq' (by positivity) (by positivity)
        calc (q : ℝ) * 2 ^ g * (q * 2 ^ g) = q * q * (2 ^ g * 2 ^ g) := by ring
          _ < 2 ^ (48 : ℤ) * (2 ^ g * 2 ^ g) :=
            mul_lt_mul_of_pos_right (hqq.trans_eq (by norm_num)) (by positivity)
      have hulp : ulpExponent ((q : ℝ) * 2 ^ g * (q * 2 ^ g)) ≤ 24 + 2 * g := by
        rw [ulpExponent, abs_of_pos hpos]
        omega
      rw [roundReal_of_nonneg mode hpos.le, roundMagnitude]
      refine (abs_roundAt_sub_le (hmode.direction false) _ _).trans ?_
      have hpow := zpow_le_zpow_right₀ (by norm_num : (1 : ℝ) ≤ 2) hulp
      rw [zpow_add₀ (by norm_num), hsquare] at hpow
      norm_num at hpow ⊢
      linarith
    obtain ⟨hdown, hup⟩ := abs_le.mp hmoved
    generalize roundReal mode ((q : ℝ) * 2 ^ g * (q * 2 ^ g)) = y at hdown hup ⊢
    have hwide : (2 : ℝ) ^ 23 * (2 ^ g * 2 ^ g) < (q - 1 / 4) * (2 ^ g * 2 ^ g) :=
      mul_lt_mul_of_pos_right (by linarith) (by positivity)
    have hfine : 0 < 2 ^ g * (2 : ℝ) ^ g := by positivity
    refine roundReal_of_near hhigh hg hmode' hfoot ?_ ?_
    · refine (Real.lt_sqrt (mul_nonneg (by linarith) hunit.le)).mpr ?_
      nlinarith only [hdown, hwide]
    · refine (Real.sqrt_lt' (by positivity)).mpr ?_
      nlinarith only [hup, hwide, hfine]

end Square

end Binary32
