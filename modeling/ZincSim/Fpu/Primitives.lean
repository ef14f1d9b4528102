/-
  ZincSim.Fpu.Primitives — the helpers of `fpu.cpp`, on every argument they accept.

  The operations call `round_and_pack`, `shift_right_jam`, `divide_unsigned` and
  `square_root_unsigned` with the few words that unpacked operands give.  Here the
  four are functions of their own: what they return on any argument, and that their
  loops end without losing a bit on the way.
-/
import ZincSim.Fpu.CheckedArith
import ZincSim.Fpu.CorrectlyRounded

namespace ZincSim

open Checked Sticky Rounding
open Binary32 (StandsFor Overflows Encodes)

/-! ## §1. The loops -/

/-- **`square_root_unsigned`** ends for every word, with the integer root and what is
left of the word, and no sum of its loop overflows. -/
theorem squareRootUnsigned_exact (value : BitVec 64) :
    ∃ result, squareRootUnsigned value = .ok result ∧
      CheckedFpu.squareRootUnsigned value = .ok result ∧
      result.root.toNat * result.root.toNat + result.remainder.toNat = value.toNat ∧
      result.remainder.toNat ≤ 2 * result.root.toNat := by
  obtain ⟨result, hrun, hroot, hrem⟩ := squareRootUnsigned_spec value
  have hbelow := Nat.lt_succ_sqrt' value.toNat
  rw [← hroot] at hrem hbelow
  refine ⟨result, hrun, (squareRootUnsigned_clean value).eq_ok hrun, ?_, ?_⟩
  · rw [← pow_two, add_comm]
    exact hrem
  · -- the next square is out of reach
    have hnext : (result.root.toNat + 1) ^ 2 =
        result.root.toNat ^ 2 + 2 * result.root.toNat + 1 := by
      ring
    rw [Nat.succ_eq_add_one, hnext] at hbelow
    omega

/-- **`divide_unsigned`** divides any word by any divisor up to 2^63, and its shift of the
remainder loses nothing. -/
theorem divideUnsigned_exact (dividend : BitVec 64) {divisor : BitVec 64}
    (hpos : 0 < divisor.toNat) (hdivisor : divisor.toNat ≤ 2 ^ 63) :
    CheckedFpu.divideUnsigned dividend divisor = .ok (divideUnsigned dividend divisor) ∧
      dividend.toNat = (divideUnsigned dividend divisor).quotient.toNat * divisor.toNat +
        (divideUnsigned dividend divisor).remainder.toNat ∧
      (divideUnsigned dividend divisor).remainder.toNat < divisor.toNat := by
  obtain ⟨hquot, hrem⟩ := divideUnsigned_spec dividend hpos hdivisor
  rw [hquot, hrem]
  refine ⟨?_, (Nat.div_add_mod' _ _).symm, Nat.mod_lt _ hpos⟩
  exact divideLoop_clean hdivisor 64 le_rfl { quotient := 0, remainder := 0 } hpos

/-- The largest word by the largest divisor: the shifted remainder fills the word. -/
theorem divideUnsigned_exact_largest :
    CheckedFpu.divideUnsigned (-1) (1#64 <<< 63) = .ok (divideUnsigned (-1) (1#64 <<< 63)) ∧
      (-1 : BitVec 64).toNat = (divideUnsigned (-1) (1#64 <<< 63)).quotient.toNat *
        (1#64 <<< 63).toNat + (divideUnsigned (-1) (1#64 <<< 63)).remainder.toNat ∧
      (divideUnsigned (-1) (1#64 <<< 63)).remainder.toNat < (1#64 <<< 63).toNat :=
  divideUnsigned_exact (-1) (by decide) (by decide)

/-! ## §2. The jamming shift -/

/-- **Jamming shifts compose**, and jamming keeps the place of a word among the even
numbers of the new unit. -/
theorem shiftRightJam_composes (value : BitVec 64) (a b : ℕ) :
    shiftRightJam (shiftRightJam value a) b = shiftRightJam value (a + b) ∧
      ∀ k : ℤ,
        ((value.toNat : ℤ) < 2 * k * 2 ^ a ↔ ((shiftRightJam value a).toNat : ℤ) < 2 * k) ∧
        ((value.toNat : ℤ) = 2 * k * 2 ^ a ↔ ((shiftRightJam value a).toNat : ℤ) = 2 * k) ∧
        ((value.toNat : ℤ) > 2 * k * 2 ^ a ↔ ((shiftRightJam value a).toNat : ℤ) > 2 * k) := by
  constructor
  · apply BitVec.eq_of_toNat_eq
    rw [toNat_shiftRightJam, toNat_shiftRightJam, toNat_shiftRightJam, jam_jam]
  · intro k
    have hlt := jam_lt_even_iff value.toNat a k
    have hle := jam_le_even_iff value.toNat a k
    rw [← toNat_shiftRightJam] at hlt hle
    refine ⟨hlt.symm, ?_, ?_⟩
    · rw [eq_iff_le_not_lt, eq_iff_le_not_lt, hlt, hle]
    · rw [gt_iff_lt, gt_iff_lt, ← not_le, ← not_le, hle]

/-! ## §3. Rounding -/

/-- The significand `s` may be handed to `round_and_pack` for `m`: exactly, or with its
last bit as a sticky bit below 25 others. -/
def StickyFor (s : ℕ) (m : ℚ) : Prop := m = s ∨ (Odd s ∧ 2 ^ 25 ≤ s ∧ |m - s| < 1)

/-- An odd number and what is less than one away from it lie between two even numbers. -/
theorem agree_of_odd {s : ℕ} {m : ℚ} (hodd : Odd s) (hnear : |m - s| < 1) :
    Agree 2 (s : ℝ) (m : ℝ) := by
  obtain ⟨j, rfl⟩ := hodd
  have hnear' : |(m : ℝ) - (2 * j + 1)| < 1 := by exact_mod_cast hnear
  obtain ⟨hlow, hhigh⟩ := abs_lt.mp hnear'
  push_cast
  apply Agree.of_gap (by norm_num) j <;> rw [Int.cast_natCast] <;> linarith

theorem StickyFor.pos {s : ℕ} {m : ℚ} (h : StickyFor s m) (hpos : 0 < s) : 0 < m := by
  rcases h with rfl | ⟨-, hlow, hnear⟩
  · exact_mod_cast hpos
  · have hs : (2 : ℚ) ^ 25 ≤ s := by exact_mod_cast hlow
    obtain ⟨hbelow, -⟩ := abs_lt.mp hnear
    linarith

/-- What `round_and_pack` packs. -/
theorem roundAndPack_sticky (sign : Bool) (mode : Mode) (e : ℤ) {s : BitVec 64} {m : ℚ}
    (hpos : 0 < s.toNat) (hs : s.toNat < 2 ^ 28) (h : StickyFor s.toNat m) :
    roundAndPack sign e s (roundingMode mode) =
      .ok (packExact sign mode ((m : ℝ) * 2 ^ (e - 26))) := by
  rcases h with rfl | ⟨hodd, hlow, hnear⟩
  · rw [Rat.cast_natCast]
    exact roundAndPack_exact sign mode e hpos hs
  · exact roundAndPack_of_agree sign mode e hlow hs (agree_of_odd hodd hnear)

/-- **`round_and_pack` rounds correctly**, whatever number its significand stands for. -/
theorem roundAndPack_correct (sign : Bool) (mode : Mode) {e : ℤ} (he : |e| ≤ 1000)
    {s : BitVec 64} (hpos : 1 ≤ s.toNat) (hs : s.toNat < 2 ^ 28) {m : ℚ}
    (hm : StickyFor s.toNat m) :
    ∃ word flags, roundAndPack sign e s (roundingMode mode) = .ok (.ofWord word flags) ∧
      CheckedFpu.roundAndPack sign e s (roundingMode mode) = .ok (.ofWord word flags) ∧
      Encodes mode word (.finite sign (signed sign (m * 2 ^ (e - 26)))) ∧
      (flags &&& fpFlagOf ≠ 0 ↔ Overflows mode (signed sign (m * 2 ^ (e - 26)))) ∧
      (flags &&& fpFlagNx ≠ 0 ↔ ¬ StandsFor word (signed sign (m * 2 ^ (e - 26)))) := by
  have hmpos : (0 : ℝ) < m := by exact_mod_cast hm.pos hpos
  have hx : 0 < (m : ℝ) * 2 ^ (e - 26) := by positivity
  obtain ⟨helow, hehigh⟩ := abs_le.mp he
  have hrun := roundAndPack_sticky sign mode e hpos hs hm
  obtain ⟨word, flags, hword, hencodes, -, hoverflow, hinexact⟩ :=
    (delivered_of_packed hx hrun).flags Iff.rfl
      (E := fun P => P (signed sign (m * 2 ^ (e - 26)))) fun P => by simp
  exact ⟨word, flags, hword, (roundAndPack_clean sign ⟨hs, helow, hehigh⟩ _).eq_ok hword, hencodes,
    hoverflow, hinexact⟩

/-- A sticky significand of 26 bits, for a number three halves above its last even one. -/
theorem roundAndPack_correct_sticky :
    ∃ word flags, roundAndPack true 0 33554433 (roundingMode .tiesToEven) =
        .ok (.ofWord word flags) ∧
      Encodes .tiesToEven word
        (.finite true (signed true ((33554432 + 3 / 2 : ℚ) * 2 ^ ((0 : ℤ) - 26)))) ∧
      flags &&& fpFlagNx ≠ 0 := by
  have hm : StickyFor (33554433 : BitVec 64).toNat (33554432 + 3 / 2) := by
    refine .inr ⟨by decide, by decide, ?_⟩
    have hword : (33554433 : BitVec 64).toNat = 33554433 := by decide
    rw [hword, abs_lt]
    norm_num
  obtain ⟨word, flags, hrun, -, hencodes, -, -⟩ :=
    roundAndPack_correct (e := 0) true .tiesToEven (by decide) (by decide) (by decide) hm
  have hpacked : roundAndPack true 0 33554433 (roundingMode .tiesToEven) =
      .ok (.ofWord 0xbf000000 fpFlagNx) := by decide
  have hflags := congrArg FpResult.flags (Except.ok.inj (hrun.symm.trans hpacked))
  exact ⟨word, flags, hrun, hencodes, by rw [show flags = fpFlagNx from hflags]; decide⟩

end ZincSim
