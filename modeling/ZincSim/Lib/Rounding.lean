/-
  ZincSim.Lib.Rounding — rounding of positive numbers, over any field with a floor.

  A number is rounded to an integer in one of four directions (`roundInt`), to a
  multiple of `2 ^ e` (`roundAt`), or to a number of significant bits with an
  unbounded exponent (`roundPrec`).  A rounding mode of signed numbers picks the
  direction for the magnitude from the sign.
-/
import Mathlib

namespace Rounding

/-- The directions in which a magnitude is rounded. -/
inductive Direction where
  | tiesToEven | tiesToAway | toZero | away
  deriving DecidableEq, Repr

/-- The rounding modes of signed numbers. -/
inductive Mode where
  | tiesToEven | tiesToAway | towardZero | towardNegative | towardPositive
  deriving DecidableEq, Repr

/-- How a mode rounds the magnitude of a number of the given sign. -/
def Mode.direction (mode : Mode) (negative : Bool) : Direction :=
  match mode with
  | .tiesToEven => .tiesToEven
  | .tiesToAway => .tiesToAway
  | .towardZero => .toZero
  | .towardNegative => if negative then .away else .toZero
  | .towardPositive => if negative then .toZero else .away

/-- The bound behind the numeral `2` of every field, as a constant. -/
instance atLeastTwo_two : Nat.AtLeastTwo 2 := ⟨Nat.le_refl 2⟩

section Powers

variable {K : Type*} [Field K] [CharZero K]

theorem two_zpow_div (a e : ℤ) : (2 : K) ^ a / 2 ^ e = 2 ^ (a - e) :=
  (zpow_sub₀ (by norm_num) a e).symm

omit [CharZero K] in
/-- A power of two at or above the grid is an integer in its units. -/
theorem two_zpow_eq_intCast {a e : ℤ} (h : e ≤ a) :
    (2 : K) ^ (a - e) = ((2 ^ (a - e).toNat : ℤ) : K) := by
  rw [Int.cast_pow, Int.cast_ofNat, ← zpow_natCast, Int.toNat_of_nonneg (by omega)]

end Powers

variable {K : Type*} [Field K] [LinearOrder K] [IsStrictOrderedRing K] [FloorRing K]

/-! ## §1. Rounding to an integer -/

def roundInt (dir : Direction) (x : K) : ℤ :=
  match dir with
  | .toZero => ⌊x⌋
  | .away => ⌈x⌉
  | .tiesToAway => ⌊x + 1 / 2⌋
  | .tiesToEven => if Int.fract x = 1 / 2 ∧ Even ⌊x⌋ then ⌊x⌋ else ⌊x + 1 / 2⌋

theorem floor_le_floor_add_half (x : K) : ⌊x⌋ ≤ ⌊x + 1 / 2⌋ :=
  Int.floor_le_floor (by linarith)

theorem floor_add_half_le_ceil (x : K) : ⌊x + 1 / 2⌋ ≤ ⌈x⌉ := by
  have hceil := Int.le_ceil x
  -- an integer below ⌈x⌉ + 1 is at most ⌈x⌉
  have hlt : ⌊x + 1 / 2⌋ < ⌈x⌉ + 1 := by
    rw [Int.floor_lt]
    push_cast
    linarith
  omega

theorem floor_le_roundInt (dir : Direction) (x : K) : ⌊x⌋ ≤ roundInt dir x := by
  cases dir with
  | toZero => exact le_refl _
  | away => exact Int.floor_le_ceil x
  | tiesToAway => exact floor_le_floor_add_half x
  | tiesToEven =>
    show ⌊x⌋ ≤ if _ then _ else _
    split_ifs
    · exact le_refl _
    · exact floor_le_floor_add_half x

theorem roundInt_le_ceil (dir : Direction) (x : K) : roundInt dir x ≤ ⌈x⌉ := by
  cases dir with
  | toZero => exact Int.floor_le_ceil x
  | away => exact le_refl _
  | tiesToAway => exact floor_add_half_le_ceil x
  | tiesToEven =>
    show (if _ then _ else _) ≤ ⌈x⌉
    split_ifs
    · exact Int.floor_le_ceil x
    · exact floor_add_half_le_ceil x

@[simp] theorem roundInt_intCast (dir : Direction) (n : ℤ) : roundInt dir (n : K) = n := by
  -- squeezed between floor and ceiling, which coincide at an integer
  have hlow := floor_le_roundInt dir (n : K)
  have hhigh := roundInt_le_ceil dir (n : K)
  rw [Int.floor_intCast] at hlow
  rw [Int.ceil_intCast] at hhigh
  omega

theorem le_roundInt {dir : Direction} {x : K} {n : ℤ} (h : n ≤ x) : n ≤ roundInt dir x :=
  (Int.le_floor.mpr h).trans (floor_le_roundInt dir x)

theorem roundInt_le {dir : Direction} {x : K} {n : ℤ} (h : x ≤ n) : roundInt dir x ≤ n :=
  (roundInt_le_ceil dir x).trans (Int.ceil_le.mpr h)

/-- Rounding stays an integer away only at integers. -/
theorem roundInt_eq_self_iff (dir : Direction) (x : K) :
    (roundInt dir x : K) = x ↔ ∃ n : ℤ, x = n := by
  constructor
  · intro h
    exact ⟨_, h.symm⟩
  · rintro ⟨n, rfl⟩
    rw [roundInt_intCast]

/-- The fraction `f` above the integer `q` is rounded up. -/
def RoundsUp (dir : Direction) (q : ℤ) (f : K) : Prop :=
  match dir with
  | .toZero => False
  | .away => 0 < f
  | .tiesToAway => 1 / 2 ≤ f
  | .tiesToEven => 1 / 2 < f ∨ (f = 1 / 2 ∧ Odd q)

theorem floor_add_half_of_lt {q : ℤ} {f : K} (h0 : 0 ≤ f) (h : f < 1 / 2) :
    ⌊(q : K) + f + 1 / 2⌋ = q := by
  rw [Int.floor_eq_iff]
  constructor <;> linarith

theorem floor_add_half_of_le {q : ℤ} {f : K} (h1 : f < 1) (h : 1 / 2 ≤ f) :
    ⌊(q : K) + f + 1 / 2⌋ = q + 1 := by
  rw [Int.floor_eq_iff]
  push_cast
  constructor <;> linarith

/-- **Rounding is a decision about the fraction.** -/
theorem roundInt_add_fract (dir : Direction) (q : ℤ) {f : K} (h0 : 0 ≤ f) (h1 : f < 1) :
    (RoundsUp dir q f → roundInt dir (q + f) = q + 1) ∧
      (¬ RoundsUp dir q f → roundInt dir (q + f) = q) := by
  -- `f` is the fractional part, so `q` is what truncation gives
  have hfloor : ⌊(q : K) + f⌋ = q := by
    rw [Int.floor_eq_iff]
    constructor <;> linarith
  have hfract : Int.fract ((q : K) + f) = f := by
    rw [Int.fract, hfloor, add_sub_cancel_left]
  cases dir with
  | toZero => exact ⟨False.elim, fun _ => hfloor⟩
  | away =>
    constructor
    · intro hup
      have hup' : 0 < f := hup
      show ⌈(q : K) + f⌉ = q + 1
      rw [Int.ceil_eq_iff]
      push_cast
      constructor <;> linarith
    · intro hdown
      have hzero : f = 0 := le_antisymm (not_lt.mp hdown) h0
      show ⌈(q : K) + f⌉ = q
      rw [hzero, add_zero, Int.ceil_intCast]
  | tiesToAway =>
    exact ⟨fun hup => floor_add_half_of_le h1 hup,
      fun hdown => floor_add_half_of_lt h0 (not_le.mp hdown)⟩
  | tiesToEven =>
    show (_ → (if _ then _ else _) = _) ∧ (_ → (if _ then _ else _) = _)
    rw [hfract, hfloor]
    constructor
    · -- above the half or at a tie with `q` odd: the next integer, which is even
      rintro (hup | ⟨htie, hodd⟩)
      · rw [if_neg fun h => hup.ne' h.1]
        exact floor_add_half_of_le h1 hup.le
      · rw [if_neg fun h => (Int.not_even_iff_odd.mpr hodd) h.2]
        exact floor_add_half_of_le h1 htie.ge
    · intro hdown
      -- below the half, or at a tie with `q` even, which stays
      have hle : f ≤ 1 / 2 := not_lt.mp fun h => hdown (.inl h)
      rcases hle.lt_or_eq with hlt | heq
      · rw [if_neg fun h => hlt.ne h.1]
        exact floor_add_half_of_lt h0 hlt
      · have heven : Even q := Int.not_odd_iff_even.mp fun h => hdown (.inr ⟨heq, h⟩)
        rw [if_pos ⟨heq, heven⟩]

/-- The comparisons of a fraction with zero and one half, in halves of the unit. -/
theorem fraction_cmp {h : ℕ} (hh : 0 < h) (r : ℕ) :
    ((0 : K) < r / (2 * h : ℕ) ↔ 0 < r) ∧ ((1 / 2 : K) ≤ r / (2 * h : ℕ) ↔ h ≤ r) ∧
      ((1 / 2 : K) < r / (2 * h : ℕ) ↔ h < r) ∧ ((r / (2 * h : ℕ) : K) = 1 / 2 ↔ r = h) := by
  have hunit : (0 : K) < (2 * h : ℕ) := by exact_mod_cast Nat.mul_pos (by decide) hh
  have hhalf : (1 / 2 : K) * (2 * h : ℕ) = h := by
    push_cast
    ring
  refine ⟨?_, ?_, ?_, ?_⟩
  · rw [lt_div_iff₀ hunit, zero_mul, Nat.cast_pos]
  · rw [le_div_iff₀ hunit, hhalf, Nat.cast_le]
  · rw [lt_div_iff₀ hunit, hhalf, Nat.cast_lt]
  · rw [div_eq_iff hunit.ne', hhalf, Nat.cast_inj]

/-- **Rounding a quotient of naturals**, by a decision about its remainder. -/
theorem roundInt_div (dir : Direction) (a : ℕ) {d : ℕ} (hd : 0 < d) {up : Bool}
    (hup : up = true ↔ RoundsUp dir (a / d : ℕ) ((a % d : ℕ) / d : K)) :
    roundInt dir (a / d : K) = (a / d : ℕ) + (if up then 1 else 0) := by
  have hunit : (0 : K) < d := by exact_mod_cast hd
  have hsplit : (a / d : K) = ((a / d : ℕ) : ℤ) + (a % d : ℕ) / d := by
    have hdecomp : (a : K) = d * (a / d : ℕ) + (a % d : ℕ) := by
      exact_mod_cast (Nat.div_add_mod a d).symm
    rw [Int.cast_natCast, div_eq_iff hunit.ne', add_mul, div_mul_cancel₀ _ hunit.ne', mul_comm]
    exact hdecomp
  have hlt : ((a % d : ℕ) / d : K) < 1 := by
    rw [div_lt_one hunit, Nat.cast_lt]
    exact Nat.mod_lt a hd
  obtain ⟨hstep, hstay⟩ := roundInt_add_fract dir (a / d : ℕ)
    (f := ((a % d : ℕ) / d : K)) (by positivity) hlt
  rw [hsplit]
  cases up with
  | false =>
    rw [hstay fun h => Bool.false_ne_true (hup.mpr h), if_neg Bool.false_ne_true, add_zero]
  | true => rw [hstep (hup.mp rfl), if_pos rfl]

/-- A number rounded to an integer, in the direction that the mode has for its sign. -/
def roundToInt (mode : Mode) (x : K) : ℤ :=
  if x < 0 then -roundInt (mode.direction true) (-x) else roundInt (mode.direction false) x

/-! ## §2. Which numbers stay below an even integer -/

omit [IsStrictOrderedRing K] in
theorem roundInt_away_lt_iff (x : K) (n : ℤ) : roundInt .away x < n ↔ x ≤ n - 1 := by
  rw [roundInt, ← Int.le_sub_one_iff, Int.ceil_le]
  push_cast
  rfl

theorem roundInt_tiesToAway_lt_iff (x : K) (n : ℤ) :
    roundInt .tiesToAway x < n ↔ x < n - 1 / 2 := by
  rw [roundInt, Int.floor_lt]
  constructor <;> intro h <;> linarith

/-- A tie below an even integer rounds up to it. -/
theorem roundInt_tiesToEven_lt_iff (x : K) {n : ℤ} (hn : Even n) :
    roundInt .tiesToEven x < n ↔ x < n - 1 / 2 := by
  rw [← roundInt_tiesToAway_lt_iff, roundInt, roundInt]
  split
  case isFalse => rfl
  case isTrue htie =>
    -- at a tie the two candidates are ⌊x⌋, which is even, and ⌊x⌋ + 1
    have hx : x = ⌊x⌋ + 1 / 2 := by
      have h := Int.floor_add_fract x
      rw [htie.1] at h
      exact h.symm
    have hup : ⌊x + 1 / 2⌋ = ⌊x⌋ + 1 := by
      rw [Int.floor_eq_iff]
      push_cast
      constructor <;> linarith
    rw [hup]
    obtain ⟨a, ha⟩ := htie.2
    obtain ⟨b, hb⟩ := hn
    omega

/-! ## §3. Rounding to multiples of a power of two -/

/-- Rounding to a multiple of `2 ^ e`. -/
def roundAt (dir : Direction) (e : ℤ) (x : K) : K := roundInt dir (x / 2 ^ e) * 2 ^ e

/-- `x` is a multiple of `2 ^ e`. -/
def OnGrid (e : ℤ) (x : K) : Prop := ∃ n : ℤ, x = n * 2 ^ e

section Grid

variable {e : ℤ} {x y : K}

omit [LinearOrder K] [IsStrictOrderedRing K] [FloorRing K]

theorem OnGrid.add (hx : OnGrid e x) (hy : OnGrid e y) : OnGrid e (x + y) := by
  obtain ⟨m, rfl⟩ := hx
  obtain ⟨n, rfl⟩ := hy
  exact ⟨m + n, by push_cast; ring⟩

theorem OnGrid.neg (hx : OnGrid e x) : OnGrid e (-x) := by
  obtain ⟨m, rfl⟩ := hx
  exact ⟨-m, by push_cast; ring⟩

end Grid

theorem roundAt_eq_self_iff (dir : Direction) (e : ℤ) (x : K) :
    roundAt dir e x = x ↔ OnGrid e x := by
  have hpos : (0 : K) < 2 ^ e := zpow_pos (by norm_num) e
  rw [roundAt, ← eq_div_iff hpos.ne', roundInt_eq_self_iff]
  exact exists_congr fun n => div_eq_iff hpos.ne'

theorem le_roundAt {dir : Direction} {e a : ℤ} {x : K} (he : e ≤ a) (h : 2 ^ a ≤ x) :
    2 ^ a ≤ roundAt dir e x := by
  have hpos : (0 : K) < 2 ^ e := zpow_pos (by norm_num) e
  -- in units of the grid the power is an integer, which rounding does not cross
  rw [roundAt, ← div_le_iff₀ hpos, two_zpow_div, two_zpow_eq_intCast he, Int.cast_le]
  apply le_roundInt
  rw [← two_zpow_eq_intCast he, ← two_zpow_div]
  exact div_le_div_of_nonneg_right h hpos.le

theorem roundAt_le {dir : Direction} {e a : ℤ} {x : K} (he : e ≤ a) (h : x ≤ 2 ^ a) :
    roundAt dir e x ≤ 2 ^ a := by
  have hpos : (0 : K) < 2 ^ e := zpow_pos (by norm_num) e
  rw [roundAt, ← le_div_iff₀ hpos, two_zpow_div, two_zpow_eq_intCast he, Int.cast_le]
  apply roundInt_le
  rw [← two_zpow_eq_intCast he, ← two_zpow_div]
  exact div_le_div_of_nonneg_right h hpos.le

/-! ## §4. Rounding to a precision -/

/-- The binade of a positive number. -/
theorem log_eq_of_binade {x : K} {a : ℤ} (hlow : 2 ^ a ≤ x) (hhigh : x < 2 ^ (a + 1)) :
    Int.log 2 x = a := by
  have hx : 0 < x := (zpow_pos (by norm_num) a).trans_le hlow
  -- `Int.log` is adjoint to the powers, from both sides
  have h1 : a ≤ Int.log 2 x := (Int.zpow_le_iff_le_log (by norm_num) hx).mp (by exact_mod_cast hlow)
  have h2 : Int.log 2 x < a + 1 :=
    (Int.lt_zpow_iff_log_lt (by norm_num) hx).mp (by exact_mod_cast hhigh)
  omega

theorem zpow_log_le {x : K} (hx : 0 < x) : 2 ^ Int.log 2 x ≤ x := by
  exact_mod_cast Int.zpow_log_le_self (by norm_num : 1 < 2) hx

theorem lt_zpow_log_add_one (x : K) : x < 2 ^ (Int.log 2 x + 1) := by
  exact_mod_cast Int.lt_zpow_succ_log_self (by norm_num : 1 < 2) x

/-- Rounding to `p` significant bits with an unbounded exponent range. -/
def roundPrec (dir : Direction) (p : ℕ) (x : K) : K := roundAt dir (Int.log 2 x + 1 - p) x

end Rounding
