/-
  ZincSim.Fpu.Unpack — `UnpackedFp32` of a finite pattern.

  §1 is the loop that `fpu.cpp` writes three times, shifting a significand up to
  its leading bit.  §2 reads the fields, and §3 states what the constructor makes
  of a pattern (`ofRaw_reads`), and in particular of a nonzero finite one
  (`ofRaw_finite`).
-/
import ZincSim.Lib.BitField
import ZincSim.Lib.Binary32
import ZincSim.Machine.Fpu.Round

namespace ZincSim

/-! ## §1. Normalising loops -/

/-- A loop that doubles a significand of at least one bit until bit `n` is reached:
it leaves within `fuel + 1` rounds, and lowers the exponent by the distance. -/
theorem normalize_loop {w n b : ℕ} {p : BitVec w → Prop} [DecidablePred p]
    {loop : ℕ → BitVec w → ℤ → Except Fault (BitVec w × ℤ)}
    (hloop : ∀ fuel s e, loop (fuel + 1) s e =
      if p s then loop fuel (s <<< 1) (e - 1) else .ok (s, e))
    (hp : ∀ s : BitVec w, s.toNat < 2 ^ b → (p s ↔ s.toNat < 2 ^ n))
    (hnb : n < b) (hbw : b ≤ w) (fuel : ℕ) (s : BitVec w) (e : ℤ)
    (hs : s.toNat < 2 ^ b) (hfuel : 2 ^ n ≤ s.toNat * 2 ^ fuel) :
    ∃ (s' : BitVec w) (k : ℕ), loop (fuel + 1) s e = .ok (s', e - k) ∧
      s'.toNat = s.toNat * 2 ^ k ∧ 2 ^ n ≤ s'.toNat ∧ (k = 0 ∨ s'.toNat < 2 ^ (n + 1)) := by
  induction fuel generalizing s e with
  | zero =>
    have hstop : ¬ p s := fun h => by
      have hlt := (hp s hs).mp h
      omega
    refine ⟨s, 0, ?_, by simp, by simpa using hfuel, .inl rfl⟩
    rw [hloop, if_neg hstop]
    simp
  | succ fuel ih =>
    by_cases hlt : s.toNat < 2 ^ n
    · -- one more round: the doubled significand still fits
      have hnb' : 2 ^ (n + 1) ≤ 2 ^ b := Nat.pow_le_pow_right (by decide) hnb
      have hbw' : 2 ^ b ≤ 2 ^ w := Nat.pow_le_pow_right (by decide) hbw
      have hpow : 2 ^ (n + 1) = 2 * 2 ^ n := Nat.pow_succ'
      have hdouble : (s <<< 1).toNat = s.toNat * 2 := by
        rw [BitVec.toNat_shiftLeft, Nat.shiftLeft_eq, pow_one, Nat.mod_eq_of_lt (by omega)]
      have hfuel' : 2 ^ n ≤ (s <<< 1).toNat * 2 ^ fuel := by
        rw [hdouble, mul_assoc, ← Nat.pow_succ']
        exact hfuel
      obtain ⟨s', k, hrun, hval, hlow, hhigh⟩ := ih (s <<< 1) (e - 1) (by omega) hfuel'
      refine ⟨s', k + 1, ?_, ?_, hlow, .inr ?_⟩
      · rw [hloop, if_pos ((hp s hs).mpr hlt), hrun]
        congr 2
        push_cast
        ring
      · rw [hval, hdouble, Nat.pow_succ', mul_assoc]
      · rcases hhigh with rfl | hhigh
        · rw [hval, hdouble, pow_zero, mul_one]
          omega
        · exact hhigh
    · refine ⟨s, 0, ?_, by simp, by omega, .inl rfl⟩
      rw [hloop, if_neg fun h => hlt ((hp s hs).mp h)]
      simp

/-! ## §2. Fields -/

section Fields

variable (raw : BitVec 32)

theorem raw_sign : decide ((raw >>> 31) &&& 1#32 ≠ 0) = Binary32.sign raw := by
  unfold Binary32.sign
  have hfield : (raw >>> 31) &&& 1#32 = (raw.extractLsb' 31 1).setWidth 32 :=
    BitField.shiftRight_and_lowMask raw 31 1 (by decide)
  rw [hfield, BitVec.msb_eq_getLsbD_last]
  have hbit : raw.extractLsb' 31 1 = BitVec.ofBool (raw.getLsbD 31) := by
    apply BitVec.eq_of_getLsbD_eq
    intro i hi
    obtain rfl : i = 0 := by omega
    simp
  rw [hbit]
  cases raw.getLsbD 31 <;> rfl

theorem raw_exponent :
    (raw >>> 23) &&& 0xff#32 = (Binary32.exponent raw).setWidth 32 :=
  BitField.shiftRight_and_lowMask raw 23 8 (by decide)

theorem raw_fraction : raw &&& 0x7fffff = (Binary32.fraction raw).setWidth 32 := by
  have h := BitField.shiftRight_and_lowMask raw 0 23 (by decide)
  rwa [BitVec.ushiftRight_zero] at h

end Fields

theorem setWidth_exponent_eq_iff (e c : BitVec 8) :
    (e.setWidth 32 : BitVec 32) = c.setWidth 32 ↔ e = c := by
  constructor
  · intro h
    have hnat := congrArg BitVec.toNat h
    apply BitVec.eq_of_toNat_eq
    simp only [BitVec.toNat_setWidth] at hnat
    omega
  · exact fun h => congrArg _ h

theorem setWidth_fraction_eq_zero_iff (f : BitVec 23) :
    (f.setWidth 32 : BitVec 32) = 0 ↔ f = 0 := by
  constructor
  · intro h
    have hnat := congrArg BitVec.toNat h
    apply BitVec.eq_of_toNat_eq
    simp only [BitVec.toNat_setWidth] at hnat
    simp only [BitVec.ofNat_eq_ofNat, BitVec.toNat_ofNat] at hnat ⊢
    omega
  · rintro rfl
    rfl

theorem toNat_setWidth_exponent (e : BitVec 8) : (e.setWidth 32 : BitVec 32).toNat = e.toNat := by
  have he := e.isLt
  rw [BitVec.toNat_setWidth]
  omega

theorem toNat_setWidth_fraction (f : BitVec 23) : (f.setWidth 32 : BitVec 32).toNat = f.toNat := by
  have hf := f.isLt
  rw [BitVec.toNat_setWidth]
  omega

/-- The quiet bit, as the constructor tests it. -/
theorem quiet_bit_iff (f : BitVec 23) :
    (f.setWidth 32 : BitVec 32) &&& (1#32 <<< 22) ≠ 0 ↔ f.msb = true := by
  rw [Ne, BitField.and_bit_eq_zero_iff _ (by decide), BitVec.msb_eq_getLsbD_last,
    BitVec.getLsbD_setWidth]
  simp

/-! ## §3. The constructor -/

/-- What a pattern of the fields `sign`, `e` and `f` is unpacked to: one branch of the
constructor of `UnpackedFp32` after the other. -/
inductive Reads (sign : Bool) (e : BitVec 8) (f : BitVec 23) : UnpackedFp32 → Prop where
  | infinity (he : e = 255) (hf : f = 0) :
      Reads sign e f { sign := sign, exponent := 0, significand := 0, fpClass := .infinity }
  | nan (he : e = 255) (hf : f ≠ 0) :
      Reads sign e f
        { sign := sign
          exponent := 0
          significand := f.setWidth 32
          fpClass := if f.msb then .quietNaN else .signalingNaN }
  | zero (he : e = 0) (hf : f = 0) :
      Reads sign e f { sign := sign, exponent := -126, significand := 0, fpClass := .zero }
  | subnormal (he : e = 0) (hf : f ≠ 0) (s : BitVec 32) (k : ℕ) (hk : k < 24)
      (hs : s.toNat = f.toNat * 2 ^ k) (hlow : 2 ^ 23 ≤ s.toNat) (hhigh : s.toNat < 2 ^ 24) :
      Reads sign e f
        { sign := sign, exponent := -126 - k, significand := s, fpClass := .subnormal }
  | normal (he : e ≠ 255) (he' : e ≠ 0) :
      Reads sign e f
        { sign := sign
          exponent := (e.toNat : ℤ) - 127
          significand := (1#32 <<< 23) ||| f.setWidth 32
          fpClass := .normal }

/-- The loop moves the leading bit of a fraction to bit 23, in 23 rounds at most. -/
theorem normalizeSubnormal_spec {fraction : BitVec 32} (hne : fraction ≠ 0)
    (hlt : fraction.toNat < 2 ^ 23) :
    ∃ (s : BitVec 32) (k : ℕ), normalizeSubnormal 32 fraction (-126) = .ok (s, -126 - k) ∧
      k < 24 ∧ s.toNat = fraction.toNat * 2 ^ k ∧ 2 ^ 23 ≤ s.toNat ∧ s.toNat < 2 ^ 24 := by
  have hpos : 0 < fraction.toNat := BitVec.toNat_pos_of_ne_zero hne
  have hloop (fuel : ℕ) (s : BitVec 32) (e : ℤ) : normalizeSubnormal (fuel + 1) s e =
      if s &&& (1#32 <<< 23) = 0 then normalizeSubnormal fuel (s <<< 1) (e - 1)
      else .ok (s, e) := rfl
  obtain ⟨s, k, hrun, hval, hlow, hhigh⟩ := normalize_loop (n := 23) (b := 24) hloop
    (fun s hs => BitField.and_bit_eq_zero_iff_lt s (by decide) hs) (by decide) (by decide) 31
    fraction (-126) (by omega) (by omega)
  have hhigh' : s.toNat < 2 ^ 24 := by
    rcases hhigh with rfl | hhigh
    · rw [hval, pow_zero, mul_one]
      omega
    · exact hhigh
  -- with more rounds the fraction would leave its field
  have hk : k < 24 := by
    rw [← Nat.pow_lt_pow_iff_right (a := 2) (by decide)]
    exact (Nat.le_mul_of_pos_left _ hpos).trans_lt (hval ▸ hhigh')
  exact ⟨s, k, hrun, hk, hval, hlow, hhigh'⟩

/-- **Every pattern unpacks**, in the branch of its fields. -/
theorem ofRaw_reads (raw : BitVec 32) :
    ∃ u, UnpackedFp32.ofRaw raw = .ok u ∧
      Reads (Binary32.sign raw) (Binary32.exponent raw) (Binary32.fraction raw) u := by
  unfold UnpackedFp32.ofRaw
  rw [raw_sign, raw_exponent, raw_fraction]
  generalize Binary32.exponent raw = e
  generalize Binary32.fraction raw = f
  dsimp only
  have hmax : e.setWidth 32 = (0xff : BitVec 32) ↔ e = 255 := setWidth_exponent_eq_iff e 0xff#8
  have hmin : e.setWidth 32 = (0 : BitVec 32) ↔ e = 0 := setWidth_exponent_eq_iff e 0#8
  have hzero := setWidth_fraction_eq_zero_iff f
  by_cases he : e = 255
  · rw [if_pos (hmax.mpr he)]
    by_cases hf : f = 0
    · rw [if_pos (hzero.mpr hf)]
      exact ⟨_, rfl, .infinity he hf⟩
    · rw [if_neg fun h => hf (hzero.mp h), if_congr (quiet_bit_iff f) rfl rfl]
      exact ⟨_, rfl, .nan he hf⟩
  rw [if_neg fun h => he (hmax.mp h)]
  by_cases he' : e = 0
  · rw [if_pos (hmin.mpr he')]
    by_cases hf : f = 0
    · rw [if_pos (hzero.mpr hf)]
      exact ⟨_, rfl, .zero he' hf⟩
    · have hlt := f.isLt
      rw [if_neg fun h => hf (hzero.mp h)]
      obtain ⟨s, k, hrun, hk, hval, hlow, hhigh⟩ := normalizeSubnormal_spec
        (fun h => hf (hzero.mp h)) (by rw [toNat_setWidth_fraction]; exact hlt)
      rw [toNat_setWidth_fraction] at hval
      rw [hrun]
      exact ⟨_, rfl, .subnormal he' hf s k hk hval hlow hhigh⟩
  · rw [if_neg fun h => he' (hmin.mp h), toNat_setWidth_exponent]
    exact ⟨_, rfl, .normal he he'⟩

/-- `u` is the unpacked form of a finite nonzero pattern: a significand of exactly 24
bits, whose unit is `2 ^ (exponent - 23)`. -/
structure Unpacked (raw : BitVec 32) (u : UnpackedFp32) : Prop where
  finite : Binary32.exponent raw ≠ 255
  sign : u.sign = Binary32.sign raw
  fpClass : u.fpClass = .normal ∨ u.fpClass = .subnormal
  low : 2 ^ 23 ≤ u.significand.toNat
  high : u.significand.toNat < 2 ^ 24
  exponent_low : -149 ≤ u.exponent
  exponent_high : u.exponent ≤ 127
  magnitude : Binary32.magnitude raw = u.significand.toNat * 2 ^ (u.exponent - 23)

theorem ofRaw_zero {raw : BitVec 32}
    (hzero : Binary32.magnitude raw = 0) :
    UnpackedFp32.ofRaw raw = .ok
      { sign := Binary32.sign raw, exponent := -126, significand := 0, fpClass := .zero } := by
  obtain ⟨he, hf⟩ := (Binary32.magnitude_eq_zero_iff raw).mp hzero
  unfold UnpackedFp32.ofRaw
  rw [raw_sign, raw_exponent, raw_fraction, he, hf]
  rfl

/-- A subnormal pattern: the shift of the fraction is in the exponent. -/
theorem unpacked_subnormal {raw : BitVec 32} (he : Binary32.exponent raw = 0) {s : BitVec 32}
    {k : ℕ} (hk : k < 24) (hs : s.toNat = (Binary32.fraction raw).toNat * 2 ^ k)
    (hlow : 2 ^ 23 ≤ s.toNat) (hhigh : s.toNat < 2 ^ 24) :
    Unpacked raw
      { sign := Binary32.sign raw, exponent := -126 - k, significand := s,
        fpClass := .subnormal } := by
  refine ⟨he ▸ by decide, rfl, .inr rfl, hlow, hhigh, ?_, ?_, ?_⟩
  · show -149 ≤ (-126 - k : ℤ)
    omega
  · show (-126 - k : ℤ) ≤ 127
    omega
  · show _ = (s.toNat : ℚ) * 2 ^ ((-126 - k : ℤ) - 23)
    rw [Binary32.magnitude, if_pos he, hs, Nat.cast_mul, Nat.cast_pow, Nat.cast_ofNat,
      mul_assoc, ← zpow_natCast, ← zpow_add₀ (by norm_num)]
    congr 2
    ring

/-- A normal pattern: the hidden bit joins the fraction. -/
theorem unpacked_normal {raw : BitVec 32} (he : Binary32.exponent raw ≠ 255)
    (he' : Binary32.exponent raw ≠ 0) :
    Unpacked raw
      { sign := Binary32.sign raw
        exponent := ((Binary32.exponent raw).toNat : ℤ) - 127
        significand := (1#32 <<< 23) ||| (Binary32.fraction raw).setWidth 32
        fpClass := .normal } := by
  have hexp := (Binary32.exponent raw).isLt
  have hfrac := (Binary32.fraction raw).isLt
  have hpos : 0 < (Binary32.exponent raw).toNat := BitVec.toNat_pos_of_ne_zero he'
  have hmax : (Binary32.exponent raw).toNat ≠ 255 := fun h0 => he (BitVec.eq_of_toNat_eq h0)
  -- the fraction lies below the hidden bit, so `|||` adds
  have hsig : (1#32 <<< 23 ||| (Binary32.fraction raw).setWidth 32).toNat =
      2 ^ 23 + (Binary32.fraction raw).toNat := by
    rw [BitVec.toNat_or, toNat_setWidth_fraction]
    exact Nat.two_pow_add_eq_or_of_lt hfrac 1 |>.symm
  refine ⟨he, rfl, .inl rfl, ?_, ?_, ?_, ?_, ?_⟩
  · show 2 ^ 23 ≤ (1#32 <<< 23 ||| (Binary32.fraction raw).setWidth 32).toNat
    omega
  · show (1#32 <<< 23 ||| (Binary32.fraction raw).setWidth 32).toNat < 2 ^ 24
    omega
  · show -149 ≤ ((Binary32.exponent raw).toNat : ℤ) - 127
    omega
  · show ((Binary32.exponent raw).toNat : ℤ) - 127 ≤ 127
    omega
  · show _ = ((1#32 <<< 23 ||| (Binary32.fraction raw).setWidth 32).toNat : ℚ) *
      2 ^ (((Binary32.exponent raw).toNat : ℤ) - 127 - 23)
    rw [Binary32.magnitude, if_neg he', hsig]
    push_cast
    congr 2
    ring

theorem ofRaw_finite {raw : BitVec 32} (h : Binary32.exponent raw ≠ 255)
    (hnz : Binary32.magnitude raw ≠ 0) :
    ∃ u, UnpackedFp32.ofRaw raw = .ok u ∧ Unpacked raw u := by
  obtain ⟨u, hu, hreads⟩ := ofRaw_reads raw
  refine ⟨u, hu, ?_⟩
  cases hreads with
  | infinity he => exact absurd he h
  | nan he => exact absurd he h
  | zero he hf => exact absurd ((Binary32.magnitude_eq_zero_iff raw).mpr ⟨he, hf⟩) hnz
  | subnormal he _ s k hk hs hlow hhigh => exact unpacked_subnormal he hk hs hlow hhigh
  | normal he he' => exact unpacked_normal he he'

end ZincSim
