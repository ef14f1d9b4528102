/-
  ZincSim.Fpu.SquareRoot — the square root is rounded once.

  `square_root_unsigned` finds the root bit by bit: with `k` bits to go the root so
  far is `p`, the word `root` holds `p * 2 ^ k` and the word `value` what `p ^ 2`
  leaves of the operand (`squareRootLoop_spec`).  The root has 27 bits, and the
  remainder only counts as a sticky bit.
-/
import ZincSim.Fpu.Exact

namespace ZincSim

open Rounding Sticky

/-! ## §1. `square_root_unsigned` -/

/-- The first loop finds the place of the leading digit.  Induction on the place it
starts at. -/
theorem squareRootStart_spec {value : BitVec 64} (hpos : 0 < value.toNat) (m fuel : ℕ)
    (hfuel : m < fuel) (bit : BitVec 64) (hbit : bit.toNat = 4 ^ m)
    (hvalue : value.toNat < 4 ^ (m + 1)) :
    ∃ (bit' : BitVec 64) (j : ℕ), squareRootStart fuel value bit = .ok bit' ∧
      bit'.toNat = 4 ^ j ∧ 4 ^ j ≤ value.toNat ∧ value.toNat < 4 ^ (j + 1) := by
  induction m generalizing fuel bit with
  | zero =>
    obtain ⟨fuel, rfl⟩ : ∃ g, fuel = g + 1 := ⟨fuel - 1, by omega⟩
    have hle : ¬ bit > value := by
      intro hgt
      have hnat : value.toNat < bit.toNat := hgt
      omega
    refine ⟨bit, 0, ?_, hbit, hpos, hvalue⟩
    rw [squareRootStart, if_neg hle]
  | succ m ih =>
    obtain ⟨fuel, rfl⟩ : ∃ g, fuel = g + 1 := ⟨fuel - 1, by omega⟩
    rw [squareRootStart]
    by_cases hgt : bit > value
    · have hnat : value.toNat < bit.toNat := hgt
      have hshift : (bit >>> 2).toNat = 4 ^ m := by
        rw [BitVec.toNat_ushiftRight, hbit, Nat.shiftRight_eq_div_pow, pow_succ]
        omega
      rw [if_pos hgt]
      exact ih fuel (by omega) (bit >>> 2) hshift (hbit ▸ hnat)
    · have hnat : bit.toNat ≤ value.toNat := Nat.not_lt.mp hgt
      rw [if_neg hgt]
      exact ⟨bit, m + 1, rfl, hbit, hbit ▸ hnat, hvalue⟩

/-- The square of the root with one more digit. -/
theorem square_add_digit (p k : ℕ) :
    (p + 2 ^ k) ^ 2 = p ^ 2 + (p * 2 ^ (k + 1) + 4 ^ k) := by
  rw [show (4 : ℕ) = 2 ^ 2 by rfl, ← pow_mul, mul_comm 2 k, pow_mul, pow_succ]
  ring

/-- The next digit of the root: it is set exactly when its square still fits. -/
theorem next_digit (p k rest v : ℕ) (hrest : rest + p ^ 2 = v)
    (hv : v < (p + 2 ^ (k + 1)) ^ 2) :
    (p * 2 ^ (k + 1) + 4 ^ k ≤ rest →
      rest - (p * 2 ^ (k + 1) + 4 ^ k) + (p + 2 ^ k) ^ 2 = v ∧ v < (p + 2 ^ k + 2 ^ k) ^ 2) ∧
    (rest < p * 2 ^ (k + 1) + 4 ^ k → v < (p + 2 ^ k) ^ 2) := by
  have hsquare := square_add_digit p k
  constructor
  · intro hle
    rw [add_assoc, ← two_mul, ← pow_succ', hsquare]
    exact ⟨by omega, hv⟩
  · intro hlt
    omega

/-- The words of a round that adds the digit `2 ^ k` to the root `p`. -/
theorem round_words {k p : ℕ} {root bit : BitVec 64} (hbit : bit.toNat = 4 ^ k)
    (hroot : root.toNat = p * 2 ^ (k + 1)) (hword : p + 2 ^ (k + 1) ≤ 2 ^ 32) :
    root.toNat + bit.toNat < 2 ^ 64 ∧ (root >>> 1).toNat = p * 2 ^ k ∧
      (root >>> 1).toNat + bit.toNat = (p + 2 ^ k) * 2 ^ k ∧ (bit >>> 2).toNat = 4 ^ k / 4 := by
  have hdigit := Nat.two_pow_pos k
  have hsucc : 2 ^ (k + 1) = 2 ^ k + 2 ^ k := by rw [pow_succ, mul_two]
  have hhalf : (root >>> 1).toNat = p * 2 ^ k := by
    rw [BitVec.toNat_ushiftRight, hroot, Nat.shiftRight_eq_div_pow, pow_succ, ← mul_assoc,
      pow_one, Nat.mul_div_cancel _ (by decide)]
  refine ⟨?_, hhalf, ?_, ?_⟩
  · -- the trial value is below the square of `p + 2 ^ k`
    have hsquare : (p + 2 ^ k) ^ 2 < (2 ^ 32) ^ 2 := Nat.pow_lt_pow_left (by omega) (by decide)
    rw [square_add_digit] at hsquare
    rw [hroot, hbit]
    omega
  · rw [hhalf, hbit, add_mul, ← mul_pow]
    rfl
  · rw [BitVec.toNat_ushiftRight, hbit, Nat.shiftRight_eq_div_pow]

/-- **The invariant of the second loop**, by induction on the digits that are left. -/
theorem squareRootLoop_spec {v : ℕ} (k fuel : ℕ) (hfuel : k < fuel)
    (value root bit : BitVec 64) (p : ℕ) (hbit : bit.toNat = 4 ^ k / 4)
    (hroot : root.toNat = p * 2 ^ k) (hvalue : value.toNat + p ^ 2 = v)
    (hhigh : v < (p + 2 ^ k) ^ 2) (hword : p + 2 ^ k ≤ 2 ^ 32) :
    ∃ result, squareRootLoop fuel value root bit = .ok result ∧
      result.root.toNat = Nat.sqrt v ∧ result.remainder.toNat + Nat.sqrt v ^ 2 = v := by
  induction k generalizing fuel value root bit p with
  | zero =>
    obtain ⟨fuel, rfl⟩ : ∃ g, fuel = g + 1 := ⟨fuel - 1, by omega⟩
    have hzero : bit = 0 := BitVec.eq_of_toNat_eq hbit
    -- no digits left: `p` is the largest number whose square fits
    have hsqrt : p = Nat.sqrt v := by
      rw [Nat.eq_sqrt', ← hvalue]
      exact ⟨Nat.le_add_left _ _, hvalue ▸ hhigh⟩
    refine ⟨⟨root, value⟩, ?_, ?_, ?_⟩
    · rw [squareRootLoop, if_neg (not_not.mpr hzero)]
    · rw [hroot, pow_zero, mul_one, hsqrt]
    · rw [← hsqrt]
      exact hvalue
  | succ k ih =>
    obtain ⟨fuel, rfl⟩ : ∃ g, fuel = g + 1 := ⟨fuel - 1, by omega⟩
    have hbit' : bit.toNat = 4 ^ k := by
      rw [hbit, pow_succ, Nat.mul_div_cancel _ (by decide)]
    have hpos : 0 < 4 ^ k := Nat.pow_pos (by decide)
    have hne : bit ≠ 0 := by
      rintro rfl
      rw [← hbit'] at hpos
      exact absurd hpos (by decide)
    have hsucc : 2 ^ (k + 1) = 2 ^ k + 2 ^ k := by rw [pow_succ, mul_two]
    have hdigit := Nat.two_pow_pos k
    obtain ⟨hfits, hhalf, hsum, hdown⟩ := round_words hbit' hroot hword
    -- the trial value is what one more digit adds to the square
    have htrial : (root + bit).toNat = p * 2 ^ (k + 1) + 4 ^ k := by
      rw [BitVec.toNat_add, Nat.mod_eq_of_lt hfits, hroot, hbit']
    obtain ⟨hset, hclear⟩ := next_digit p k value.toNat v hvalue hhigh
    rw [squareRootLoop, if_pos hne]
    by_cases hge : value ≥ root + bit
    · have hle : p * 2 ^ (k + 1) + 4 ^ k ≤ value.toNat := htrial ▸ hge
      obtain ⟨hrest, hbound⟩ := hset hle
      rw [if_pos hge]
      refine ih fuel (by omega) _ _ _ (p + 2 ^ k) hdown ?_ ?_ hbound (by omega)
      · have hle_root : p * 2 ^ k ≤ p * 2 ^ (k + 1) :=
          Nat.mul_le_mul_left _ (Nat.pow_le_pow_right (by decide) (by omega))
        rw [BitVec.toNat_add, Nat.mod_eq_of_lt (by omega), hsum]
      · rw [BitVec.toNat_sub_of_le hge, htrial]
        exact hrest
    · have hlt : value.toNat < p * 2 ^ (k + 1) + 4 ^ k := by
        rw [← htrial]
        exact Nat.not_le.mp hge
      rw [if_neg hge]
      exact ih fuel (by omega) _ _ _ p hdown hhalf hvalue (hclear hlt) (by omega)

/-- Where the first loop leaves `bit`, as a digit of a root of 32 bits. -/
theorem squareRootStart_of_pos {value : BitVec 64} (hpos : 0 < value.toNat) :
    ∃ (bit : BitVec 64) (j : ℕ), squareRootStart 64 value (1#64 <<< 62) = .ok bit ∧
      bit.toNat = 4 ^ (j + 1) / 4 ∧ value.toNat < 4 ^ (j + 1) ∧ j < 32 ∧
      0 + 2 ^ (j + 1) ≤ 2 ^ 32 := by
  obtain ⟨bit, j, hstart, hbit, hlow, hhigh⟩ := squareRootStart_spec hpos 31 64 (by decide)
    (1#64 <<< 62) (by decide) (value.isLt.trans_le (by decide))
  have hj : j ≤ 31 := by
    have hpow : 4 ^ j < 4 ^ 32 := hlow.trans_lt (value.isLt.trans_le (by decide))
    have hj' := (Nat.pow_lt_pow_iff_right (by decide)).mp hpow
    omega
  refine ⟨bit, j, hstart, ?_, hhigh, by omega, ?_⟩
  · rw [hbit, pow_succ, Nat.mul_div_cancel _ (by decide)]
  · rw [zero_add]
    exact Nat.pow_le_pow_right (by decide) (by omega)

/-- **`square_root_unsigned` computes the integer square root.** -/
theorem squareRootUnsigned_spec (value : BitVec 64) :
    ∃ result, squareRootUnsigned value = .ok result ∧
      result.root.toNat = Nat.sqrt value.toNat ∧
      result.remainder.toNat + Nat.sqrt value.toNat ^ 2 = value.toNat := by
  by_cases hzero : value = 0
  · -- the first loop runs until `bit` is zero too
    subst hzero
    exact ⟨⟨0, 0⟩, by decide, by decide, by decide⟩
  have hpos : 0 < value.toNat := BitVec.toNat_pos_of_ne_zero hzero
  obtain ⟨bit, j, hstart, hbit, hhigh, hj, hword⟩ := squareRootStart_of_pos hpos
  obtain ⟨result, hloop, hroot, hrem⟩ := squareRootLoop_spec (j + 1) 64 (by omega) value 0 bit 0
    hbit (zero_mul _).symm (by ring) (by rwa [zero_add, ← pow_mul, mul_comm, pow_mul]) hword
  refine ⟨result, ?_, hroot, hrem⟩
  unfold squareRootUnsigned
  simp only [hstart, hloop, bind, Except.bind]

/-- The root that `square_root` rounds. -/
theorem agree_sticky_root {v : ℕ} {result : SquareRootResult}
    (hroot : result.root.toNat = Nat.sqrt v)
    (hrem : result.remainder.toNat + Nat.sqrt v ^ 2 = v) :
    Agree 2 ((if result.remainder ≠ 0 then result.root ||| 1 else result.root).toNat : ℝ) √v := by
  have hcast : (v : ℝ) = result.remainder.toNat + (Nat.sqrt v : ℝ) ^ 2 := by
    exact_mod_cast hrem.symm
  by_cases hzero : result.remainder = 0
  · have hexact : √(v : ℝ) = Nat.sqrt v := by
      have hsquare : (v : ℝ) = (Nat.sqrt v : ℝ) ^ 2 := by
        rw [hcast, hzero, show (((0 : BitVec 64).toNat : ℕ) : ℝ) = 0 from Nat.cast_zero, zero_add]
      rw [hsquare, Real.sqrt_sq (Nat.cast_nonneg _)]
    rw [if_neg (not_not.mpr hzero), hroot, hexact]
    exact Agree.refl _ _
  · have hnat : 0 < result.remainder.toNat := BitVec.toNat_pos_of_ne_zero hzero
    have hor : (result.root ||| 1).toNat = Nat.sqrt v ||| 1 := by
      rw [BitVec.toNat_or, hroot]
      rfl
    rw [if_pos hzero, hor]
    -- a nonzero remainder puts the root strictly between two integers
    apply agree_or_one
    · apply Real.lt_sqrt_of_sq_lt
      have hpos : (0 : ℝ) < result.remainder.toNat := by exact_mod_cast hnat
      linarith
    · rw [Real.sqrt_lt' (by positivity)]
      exact_mod_cast (Nat.lt_succ_sqrt' v)

/-! ## §2. `square_root` -/

/-- Half of the exponent comes out of the root. -/
theorem sqrt_scaled (h : ℤ) (n : ℕ) :
    √((n * 2 ^ 29 : ℕ) : ℝ) * 2 ^ (h - 26) = √(n * 2 ^ (2 * h - 23)) := by
  have hexp : (2 : ℝ) ^ (2 * h - 23) = 2 ^ (29 : ℤ) * (2 ^ (h - 26) * 2 ^ (h - 26)) := by
    rw [← zpow_add₀ (by norm_num), ← zpow_add₀ (by norm_num)]
    congr 1
    ring
  have hsquare : (n : ℝ) * 2 ^ (2 * h - 23) = ((n * 2 ^ 29 : ℕ) : ℝ) * (2 ^ (h - 26)) ^ 2 := by
    rw [hexp]
    push_cast
    norm_num
    ring
  rw [hsquare, Real.sqrt_mul (Nat.cast_nonneg _), Real.sqrt_sq (by positivity)]

/-- The root that `square_root` hands to `round_and_pack`. -/
def stickyRoot (result : SquareRootResult) : BitVec 64 :=
  if result.remainder ≠ 0 then result.root ||| 1 else result.root

/-- 53 or 54 bits under the root leave 27 of it. -/
theorem stickyRoot_range {v : ℕ} {result : SquareRootResult}
    (hroot : result.root.toNat = Nat.sqrt v)
    (hrem : result.remainder.toNat + Nat.sqrt v ^ 2 = v) (hlow : 2 ^ 52 ≤ v) (hhigh : v < 2 ^ 54) :
    2 ^ 26 ≤ (stickyRoot result).toNat ∧ (stickyRoot result).toNat < 2 ^ 27 := by
  have hagree := agree_sticky_root hroot hrem
  have hlow' : (2 : ℝ) ^ 26 ≤ √(v : ℝ) := by
    apply Real.le_sqrt_of_sq_le
    exact_mod_cast (by omega : (2 ^ 26) ^ 2 ≤ v)
  have hhigh' : √(v : ℝ) < 2 ^ 27 := by
    rw [Real.sqrt_lt' (by positivity)]
    exact_mod_cast (by omega : v < (2 ^ 27) ^ 2)
  constructor
  · have hcmp := hagree.lt_two_pow_iff (n := 26) (by decide)
    exact not_lt.mp fun hlt => absurd (hcmp.mp (by exact_mod_cast hlt)) (not_lt.mpr hlow')
  · exact_mod_cast (hagree.lt_two_pow_iff (by decide)).mpr hhigh'

/-- A sticky root of 27 bits, from an even exponent. -/
theorem round_root (h : ℤ) {s : BitVec 64} (hlow : 2 ^ 23 ≤ s.toNat)
    (hhigh : s.toNat < 2 ^ 25) :
    ∃ result, squareRootUnsigned (s <<< 29) = .ok result ∧
      2 ^ 26 ≤ (stickyRoot result).toNat ∧ (stickyRoot result).toNat < 2 ^ 27 ∧
      ∀ mode, roundAndPack false h (stickyRoot result) (roundingMode mode) =
        .ok (packExact false mode √(s.toNat * 2 ^ (2 * h - 23))) := by
  have hvalue : (s <<< 29).toNat = s.toNat * 2 ^ 29 := by
    rw [BitVec.toNat_shiftLeft, Nat.shiftLeft_eq]
    omega
  obtain ⟨result, hrun, hroot, hrem⟩ := squareRootUnsigned_spec (s <<< 29)
  have hagree := agree_sticky_root hroot hrem
  obtain ⟨hroot_low, hroot_high⟩ := stickyRoot_range hroot hrem (by omega) (by omega)
  refine ⟨result, hrun, hroot_low, hroot_high, fun mode => ?_⟩
  unfold stickyRoot at hroot_low hroot_high ⊢
  rw [roundAndPack_of_agree false mode h (by omega) (by omega) hagree]
  rw [hvalue, sqrt_scaled]

/-- `significand` and `exponent` of `square_root`: an odd exponent gives one factor to the
significand. -/
def scaledRadicand (operand : UnpackedFp32) : BitVec 64 × ℤ :=
  let significand : BitVec 64 := operand.significand.setWidth 64
  if operand.exponent % 2 ≠ 0 then (significand <<< 1, operand.exponent - 1)
  else (significand, operand.exponent)

theorem scaledRadicand_spec {raw : BitVec 32} {u : UnpackedFp32} (hu : Unpacked raw u) :
    2 ^ 23 ≤ (scaledRadicand u).1.toNat ∧ (scaledRadicand u).1.toNat < 2 ^ 25 ∧
    ∃ k, (scaledRadicand u).2 = 2 * k ∧ (scaledRadicand u).2.tdiv 2 = k ∧
      u.magnitude = (scaledRadicand u).1.toNat * 2 ^ (2 * k - 23) := by
  have hlow := hu.low
  have hhigh := hu.high
  have hnat : (u.significand.setWidth 64 : BitVec 64).toNat = u.significand.toNat := by
    rw [BitVec.toNat_setWidth]
    omega
  unfold scaledRadicand
  dsimp only
  by_cases hodd : u.exponent % 2 ≠ 0
  · obtain ⟨k, hk⟩ : ∃ k, u.exponent = 2 * k + 1 := ⟨u.exponent / 2, by omega⟩
    have hdouble : (u.significand.setWidth 64 <<< 1 : BitVec 64).toNat =
        u.significand.toNat * 2 := by
      rw [BitVec.toNat_shiftLeft, hnat, Nat.shiftLeft_eq]
      omega
    rw [if_pos hodd]
    dsimp only
    rw [hdouble, hk, add_sub_cancel_right]
    refine ⟨by omega, by omega, k, rfl, Int.mul_tdiv_cancel_left _ (by decide), ?_⟩
    rw [UnpackedFp32.magnitude, hk, show 2 * k + 1 - 23 = 2 * k - 23 + 1 by ring,
      zpow_add_one₀ (by norm_num)]
    push_cast
    ring
  · obtain ⟨k, hk⟩ : ∃ k, u.exponent = 2 * k := ⟨u.exponent / 2, by omega⟩
    rw [if_neg hodd]
    dsimp only
    rw [hnat, hk]
    refine ⟨by omega, by omega, k, rfl, Int.mul_tdiv_cancel_left _ (by decide), ?_⟩
    rw [UnpackedFp32.magnitude, hk]

/-- The part of `square_root` for a positive finite operand. -/
theorem squareRoot_finite {raw : BitVec 32} {u : UnpackedFp32}
    (hunpack : UnpackedFp32.ofRaw raw = .ok u) (hu : Unpacked raw u) (hsign : u.sign = false) :
    ∃ result, squareRootUnsigned ((scaledRadicand u).1 <<< 29) = .ok result ∧
      2 ^ 26 ≤ (stickyRoot result).toNat ∧ (stickyRoot result).toNat < 2 ^ 27 ∧
      (∀ rm, squareRoot raw rm =
        roundAndPack false ((scaledRadicand u).2.tdiv 2) (stickyRoot result) rm) ∧
      ∀ mode, squareRoot raw (roundingMode mode) = .ok (packExact false mode √u.magnitude) := by
  obtain ⟨hlow, hhigh, k, -, hhalf, hvalue⟩ := scaledRadicand_spec hu
  obtain ⟨hnan, hinf, hzero⟩ := hu.class_facts
  obtain ⟨result, hrun, hroot_low, hroot_high, hround⟩ := round_root k hlow hhigh
  have heq (rm : RoundingMode) : squareRoot raw rm =
      roundAndPack false ((scaledRadicand u).2.tdiv 2) (stickyRoot result) rm := by
    unfold scaledRadicand at hrun ⊢
    unfold squareRoot
    simp only [hunpack, bind, Except.bind, pure, Except.pure, hnan, hzero, hinf, hsign, hrun,
      Bool.false_eq_true, if_false]
    rfl
  refine ⟨result, hrun, hroot_low, hroot_high, heq, fun mode => ?_⟩
  rw [heq, hhalf, hvalue]
  exact hround mode

/-- **`square_root` rounds the exact root once.** -/
theorem squareRoot_rounds {raw : BitVec 32} {v : ℚ} (hv : Binary32.value raw = some v)
    (mode : Mode) (hnonneg : ¬ v < 0) (hne : √(v : ℝ) ≠ 0) :
    RoundsTo (squareRoot raw (roundingMode mode)) mode √(v : ℝ) := by
  obtain ⟨u, h⟩ := FiniteOperand.of_value hv
  have hv0 : v ≠ 0 := by
    rintro rfl
    exact hne (by rw [Rat.cast_zero, Real.sqrt_zero])
  have hzero : u.fpClass ≠ .zero := fun hz => hv0 (h.zero_iff.mp hz)
  have hu := h.unpacked hv0
  have hsigned := h.value hv0
  have hsign : u.sign = false := by
    rw [← Bool.not_eq_true, ← signed_lt_zero_iff u.sign hu.magnitude_pos, ← hsigned]
    exact_mod_cast hnonneg
  have hmag : (v : ℝ) = u.magnitude := by
    rw [hsigned, hsign]
    rfl
  rw [hmag]
  refine roundsTo_signed (s := false) (Real.sqrt_pos.mpr hu.magnitude_pos) ?_
  obtain ⟨result, -, -, -, -, hround⟩ := squareRoot_finite h.unpack hu hsign
  exact hround mode

end ZincSim
