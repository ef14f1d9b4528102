/-
  ZincSim.Fpu.Pack — `round_and_pack` rounds correctly.

  The specification is `packExact`: the encoding of a positive real rounded on the
  binary32 grid.  §1 reads the rounding decision off the three round bits, §2 brings
  the significand to 27 bits, §3 moves it to the subnormal grid, and §4 puts them
  together: for an exact significand (`roundAndPack_exact`) and for one with a sticky
  bit (`roundAndPack_of_agree`).
-/
import ZincSim.Lib.Sticky
import ZincSim.Fpu.Unpack

namespace ZincSim

open Rounding Sticky

/-! ## §1. The rounding decision -/

/-- The source's name of a rounding mode. -/
def roundingMode : Mode → RoundingMode
  | .tiesToEven => .rne
  | .towardZero => .rtz
  | .towardNegative => .rdn
  | .towardPositive => .rup
  | .tiesToAway => .rmm

theorem toNat_bit {n : ℕ} (hn : n < 64) : (1#64 <<< n).toNat = 2 ^ n := by
  have hpow : 2 ^ n < 2 ^ 64 := Nat.pow_lt_pow_right (by decide) hn
  rw [BitVec.toNat_shiftLeft, Nat.shiftLeft_eq, show (1#64).toNat = 1 from rfl, one_mul,
    Nat.mod_eq_of_lt hpow]

/-- The mask of the bits below a bit. -/
theorem bit_sub_one {n : ℕ} (hn : n < 64) : (1#64 <<< n) - 1 = BitVec.ofNat 64 (2 ^ n - 1) := by
  have hpos := Nat.two_pow_pos n
  have hpow : 2 ^ n < 2 ^ 64 := Nat.pow_lt_pow_right (by decide) hn
  apply BitVec.eq_of_toNat_eq
  rw [BitVec.toNat_sub, toNat_bit hn]
  simp only [BitVec.ofNat_eq_ofNat, BitVec.toNat_ofNat]
  omega

theorem toNat_shiftRightJam (value : BitVec 64) (distance : ℕ) :
    (shiftRightJam value distance).toNat = jam value.toNat distance := by
  have hvalue := value.isLt
  unfold shiftRightJam jam quotient
  by_cases hzero : distance = 0
  · rw [if_pos hzero, hzero, pow_zero, Nat.mod_one, if_pos rfl, Nat.div_one]
  · rw [if_neg hzero]
    by_cases hlt : distance < 64
    · rw [if_pos hlt]
      -- `discarded_mask` is the low mask, so `discarded` is a test of the remainder
      have hdisc : value &&& ((1#64 <<< distance) - 1) = 0 ↔ value.toNat % 2 ^ distance = 0 := by
        rw [bit_sub_one hlt, ← BitField.toNat_and_lowMask value distance hlt.le]
        exact ⟨fun h => by rw [h]; rfl, fun h => BitVec.eq_of_toNat_eq h⟩
      dsimp only
      simp only [decide_eq_true_iff, Ne, hdisc]
      by_cases hexact : value.toNat % 2 ^ distance = 0
      · rw [if_pos hexact, if_neg (not_not.mpr hexact)]
        simp [Nat.shiftRight_eq_div_pow]
      · rw [if_neg hexact, if_pos hexact]
        simp [Nat.shiftRight_eq_div_pow]
    · rw [if_neg hlt]
      -- everything is shifted out
      have hpow : 2 ^ 64 ≤ 2 ^ distance := Nat.pow_le_pow_right (by decide) (by omega)
      rw [Nat.mod_eq_of_lt (by omega), Nat.div_eq_of_lt (by omega)]
      by_cases hval : value = 0
      · rw [hval]
        rfl
      · have hnat : ¬ value.toNat = 0 := fun h => hval (BitVec.eq_of_toNat_eq h)
        rw [if_pos hval, if_neg hnat]
        rfl

/-- The comparisons of the round bits, as comparisons of the fraction they spell. -/
theorem eighth_cmp (r : ℕ) :
    ((0 : ℝ) < r / 8 ↔ 0 < r) ∧ ((1 / 2 : ℝ) ≤ r / 8 ↔ 4 ≤ r) ∧ ((1 / 2 : ℝ) < r / 8 ↔ 4 < r) ∧
      ((r / 8 : ℝ) = 1 / 2 ↔ r = 4) := by
  have hcmp := fraction_cmp (K := ℝ) (show 0 < 4 by decide) r
  rwa [show ((2 * 4 : ℕ) : ℝ) = 8 by norm_num] at hcmp

/-- **The decision of `should_round_up`**: a significand with three round bits is
rounded to units of its last place. -/
theorem round_eighths (mode : Mode) (sign : Bool) (s : BitVec 64) :
    ∃ up, shouldRoundUp (roundingMode mode) sign (s >>> 3) ((s &&& 0b111).setWidth 32) = .ok up ∧
      roundInt (mode.direction sign) ((s.toNat : ℝ) / 8) =
        (s.toNat / 8 : ℕ) + (if up then 1 else 0) := by
  have hbits : ((s &&& 0b111).setWidth 32 : BitVec 32).toNat = s.toNat % 8 := by
    have hmask : (s &&& 0b111).toNat = s.toNat % 2 ^ 3 :=
      BitField.toNat_and_lowMask s 3 (by decide)
    rw [BitVec.toNat_setWidth, hmask]
    omega
  -- the tie-breaking bit is the parity of the integral part
  have hodd : (s >>> 3) &&& 1 ≠ 0 ↔ Odd ((s.toNat / 8 : ℕ) : ℤ) := by
    have hmask : ((s >>> 3) &&& 1).toNat = (s >>> 3).toNat % 2 ^ 1 :=
      BitField.toNat_and_lowMask (s >>> 3) 1 (by decide)
    rw [BitVec.toNat_ushiftRight, Nat.shiftRight_eq_div_pow] at hmask
    rw [Ne, ← BitVec.toNat_inj, hmask, Int.odd_iff]
    simp only [BitVec.ofNat_eq_ofNat, BitVec.toNat_ofNat]
    omega
  generalize hrb : ((s &&& 0b111).setWidth 32 : BitVec 32) = rb at *
  obtain ⟨hpos, hge, hgt, heq⟩ := eighth_cmp (s.toNat % 8)
  -- it remains to read the decision of the switch as the one about the fraction
  have hdecide (up : Bool) (hiff : up = true ↔
      RoundsUp (mode.direction sign) ((s.toNat / 8 : ℕ) : ℤ) (((s.toNat % 8 : ℕ) : ℝ) / 8)) :
      roundInt (mode.direction sign) ((s.toNat : ℝ) / 8) =
        (s.toNat / 8 : ℕ) + (if up then 1 else 0) := by
    rw [← Nat.cast_ofNat (R := ℝ) (n := 8)] at hiff ⊢
    exact roundInt_div (mode.direction sign) s.toNat (by decide) hiff
  have hne : rb ≠ 0 ↔ 0 < s.toNat % 8 := by
    rw [← hbits, Ne, ← BitVec.toNat_inj, Nat.pos_iff_ne_zero]
    rfl
  -- one case of the switch per mode; the directed ones look at the sign
  cases mode with
  | tiesToEven =>
    refine ⟨_, rfl, hdecide _ ?_⟩
    show _ ↔ _ ∨ _
    rw [hgt, heq, ← hodd, Bool.or_eq_true, Bool.and_eq_true, decide_eq_true_iff,
      decide_eq_true_iff, decide_eq_true_iff, ← hbits, ← BitVec.toNat_inj]
    rfl
  | tiesToAway =>
    refine ⟨_, rfl, hdecide _ ?_⟩
    show _ ↔ _ ≤ _
    rw [hge, decide_eq_true_iff, ← hbits]
    rfl
  | towardZero =>
    refine ⟨_, rfl, hdecide _ ?_⟩
    exact iff_of_false (by decide) id
  | towardNegative =>
    refine ⟨_, rfl, hdecide _ ?_⟩
    cases sign with
    | false => exact iff_of_false (by simp) id
    | true =>
      show _ ↔ _ < _
      rw [hpos, ← hne, Bool.true_and, decide_eq_true_iff]
  | towardPositive =>
    refine ⟨_, rfl, hdecide _ ?_⟩
    cases sign with
    | true => exact iff_of_false (by simp) id
    | false =>
      show _ ↔ _ < _
      rw [hpos, ← hne, Bool.not_false, Bool.true_and, decide_eq_true_iff]

/-! ## §2. Twenty-seven bits -/

theorem shiftDownToHidden_spec {s : BitVec 64} (e : ℤ) (hs : s.toNat < 2 ^ 28) :
    ∃ (s' : BitVec 64) (d : ℕ), shiftDownToHidden 64 s e = .ok (s', e + d) ∧
      s'.toNat = jam s.toNat d ∧ s'.toNat < 2 ^ 27 ∧
      (d = 0 ∨ (d = 1 ∧ 2 ^ 26 ≤ s'.toNat)) := by
  have hbit (t : BitVec 64) (ht : t.toNat < 2 ^ 28) :
      t &&& (fp32ExtendedHiddenBit <<< 1) = 0 ↔ t.toNat < 2 ^ 27 :=
    BitField.and_bit_eq_zero_iff_lt (n := 27) t (by decide) ht
  by_cases hlow : s.toNat < 2 ^ 27
  · refine ⟨s, 0, ?_, by rw [jam_zero], hlow, .inl rfl⟩
    rw [shiftDownToHidden, if_neg (not_not.mpr ((hbit s hs).mpr hlow))]
    simp
  · -- one round: the jammed half has its leading bit at 26
    have hjam := toNat_shiftRightJam s 1
    have hagree : Agree 2 ((jam s.toNat 1 : ℕ) : ℝ) (s.toNat / 2 ^ 1) := agree_jam s.toNat 1
    have hhigh : (shiftRightJam s 1).toNat < 2 ^ 27 := by
      have hhalf : (s.toNat : ℝ) / 2 ^ 1 < 2 ^ 27 := by
        have hcast : (s.toNat : ℝ) < 2 ^ 28 := by exact_mod_cast hs
        linarith
      rw [hjam]
      exact_mod_cast (hagree.lt_two_pow_iff (n := 27) (by decide)).mpr hhalf
    have hge : 2 ^ 26 ≤ (shiftRightJam s 1).toNat := by
      have hle := le_jam s.toNat 1
      rw [← hjam] at hle
      omega
    refine ⟨shiftRightJam s 1, 1, ?_, hjam, hhigh, .inr ⟨rfl, hge⟩⟩
    rw [shiftDownToHidden, if_pos fun h => hlow ((hbit s hs).mp h), shiftDownToHidden,
      if_neg (not_not.mpr ((hbit _ (by omega)).mpr hhigh))]
    simp

theorem shiftUpToHidden_spec {s : BitVec 64} (e : ℤ) (hpos : 0 < s.toNat)
    (hs : s.toNat < 2 ^ 27) :
    ∃ (s' : BitVec 64) (k : ℕ), shiftUpToHidden 64 s e = .ok (s', e - k) ∧
      s'.toNat = s.toNat * 2 ^ k ∧ 2 ^ 26 ≤ s'.toNat ∧ s'.toNat < 2 ^ 27 := by
  have hloop (fuel : ℕ) (t : BitVec 64) (e : ℤ) : shiftUpToHidden (fuel + 1) t e =
      if t &&& fp32ExtendedHiddenBit = 0 then shiftUpToHidden fuel (t <<< 1) (e - 1)
      else .ok (t, e) := rfl
  -- the loop tests bit 26 of a word of 27 bits
  obtain ⟨s', k, hrun, hval, hlow, hhigh⟩ := normalize_loop (n := 26) (b := 27) hloop
    (fun t ht => BitField.and_bit_eq_zero_iff_lt (n := 26) t (by decide) ht) (by decide)
    (by decide) 63 s e hs (by omega)
  refine ⟨s', k, hrun, hval, hlow, ?_⟩
  rcases hhigh with rfl | hhigh
  · rw [hval, pow_zero, mul_one]
    exact hs
  · exact hhigh

/-- **The two loops** bring the leading bit to bit 26, and lose nothing that
comparisons with even numbers could see. -/
theorem normalize_spec {s : BitVec 64} (e : ℤ) (hpos : 0 < s.toNat) (hs : s.toNat < 2 ^ 28) :
    ∃ s₁ e₁ s₂ e₂, shiftDownToHidden 64 s e = .ok (s₁, e₁) ∧
      shiftUpToHidden 64 s₁ e₁ = .ok (s₂, e₂) ∧ 2 ^ 26 ≤ s₂.toNat ∧ s₂.toNat < 2 ^ 27 ∧
      Agree 2 (s₂.toNat : ℝ) (s.toNat * 2 ^ (e - 26) / 2 ^ (e₂ - 26)) := by
  obtain ⟨s₁, d, hdown, hval₁, hlt₁, hd⟩ := shiftDownToHidden_spec e hs
  have hpos₁ : 0 < s₁.toNat := by
    rcases hd with rfl | ⟨-, hge⟩
    · rwa [hval₁, jam_zero]
    · omega
  obtain ⟨s₂, k, hup, hval₂, hlow, hhigh⟩ := shiftUpToHidden_spec (e + d) hpos₁ hlt₁
  refine ⟨s₁, e + d, s₂, e + d - k, hdown, hup, hlow, hhigh, ?_⟩
  -- both sides in units of the new exponent
  have hunits : (s.toNat : ℝ) * 2 ^ (e - 26) / 2 ^ (e + d - k - 26) =
      s.toNat * 2 ^ k / 2 ^ d := by
    rw [mul_div_assoc, two_zpow_div, show e - 26 - (e + d - k - 26) = (k : ℤ) - d by ring,
      zpow_sub₀ (by norm_num), zpow_natCast, zpow_natCast, mul_div_assoc]
  rw [hunits, hval₂, hval₁]
  rcases hd with rfl | ⟨rfl, hge⟩
  · rw [jam_zero, pow_zero, div_one]
    push_cast
    exact Agree.refl _ _
  · -- after a shift down the leading bit is in place, so the second loop does nothing
    have hk : k = 0 := by
      by_contra hk
      have htwo : 2 ^ 1 ≤ 2 ^ k := Nat.pow_le_pow_right (by decide) (Nat.pos_of_ne_zero hk)
      have hmul : s₁.toNat * 2 ^ 1 ≤ s₁.toNat * 2 ^ k := Nat.mul_le_mul_left _ htwo
      omega
    rw [hk, pow_zero, mul_one, pow_zero, mul_one]
    exact agree_jam s.toNat 1

/-! ## §3. The specification -/

/-- The exponent of the grid that a positive number is rounded on: its own binade, or
the subnormal one. -/
noncomputable def fp32Exponent (x : ℝ) : ℤ := max (Int.log 2 x) (-126)

/-- A positive number in units of the last place of that grid, rounded. -/
noncomputable def fp32Significand (dir : Direction) (x : ℝ) : ℤ :=
  roundInt dir (x / 2 ^ (fp32Exponent x - 23))

/-- The end of `round_and_pack`: carry, overflow and encoding. -/
def finishRound (sign : Bool) (rm : RoundingMode) (exponent : ℤ)
    (roundedSignificand : BitVec 64) (inexact : Bool) : FpResult :=
  let (roundedSignificand, exponent) :=
    if roundedSignificand ≥ fp32HiddenBit <<< 1 then (roundedSignificand >>> 1, exponent + 1)
    else (roundedSignificand, exponent)
  if exponent > 127 then overflowResult sign rm
  else packRounded sign exponent roundedSignificand inexact

open Classical in
/-- The number is off its grid. -/
noncomputable def fp32Inexact (x : ℝ) : Bool := decide (¬ OnGrid (fp32Exponent x - 23) x)

theorem fp32Inexact_iff (x : ℝ) : fp32Inexact x = true ↔ ¬ OnGrid (fp32Exponent x - 23) x := by
  simp only [fp32Inexact, decide_eq_true_eq]

/-- **What `round_and_pack` is for**: the encoding of a positive number of the given
sign, rounded once. -/
noncomputable def packExact (sign : Bool) (mode : Mode) (x : ℝ) : FpResult :=
  finishRound sign (roundingMode mode) (fp32Exponent x)
    (BitVec.ofInt 64 (fp32Significand (mode.direction sign) x)) (fp32Inexact x)

/-! ## §4. Rounding a normalised significand -/

/-- A normalised significand shows the binade. -/
theorem log_of_normalized {s : BitVec 64} {x : ℝ} {e : ℤ} (hlow : 2 ^ 26 ≤ s.toNat)
    (hhigh : s.toNat < 2 ^ 27) (h : Agree 2 (s.toNat : ℝ) (x / 2 ^ (e - 26))) :
    Int.log 2 x = e := by
  have hpos : (0 : ℝ) < 2 ^ (e - 26) := by positivity
  have hlow' : ¬ x / 2 ^ (e - 26) < 2 ^ 26 := by
    rw [← h.lt_two_pow_iff (by decide), not_lt]
    exact_mod_cast hlow
  have hhigh' : x / 2 ^ (e - 26) < 2 ^ 27 := by
    rw [← h.lt_two_pow_iff (by decide)]
    exact_mod_cast hhigh
  have hscale (n : ℕ) : (2 : ℝ) ^ n * 2 ^ (e - 26) = 2 ^ (e + n - 26) := by
    rw [← zpow_natCast, ← zpow_add₀ (by norm_num)]
    congr 1
    ring
  apply log_eq_of_binade
  · rw [not_lt, le_div_iff₀ hpos, hscale] at hlow'
    rwa [show e + (26 : ℕ) - 26 = e by push_cast; ring] at hlow'
  · rw [div_lt_iff₀ hpos, hscale] at hhigh'
    rwa [show e + (27 : ℕ) - 26 = e + 1 by push_cast; ring] at hhigh'

/-- The shift onto the subnormal grid. -/
theorem agree_shift {s : BitVec 64} {x : ℝ} {e : ℤ} (hlow : 2 ^ 26 ≤ s.toNat)
    (hhigh : s.toNat < 2 ^ 27) (h : Agree 2 (s.toNat : ℝ) (x / 2 ^ (e - 26))) :
    ∃ s' : BitVec 64, s'.toNat < 2 ^ 27 ∧
      (if e < -126 then (shiftRightJam s (-126 - e).toNat, -126) else (s, e)) =
        (s', fp32Exponent x) ∧
      Agree 2 (s'.toNat : ℝ) (x / 2 ^ (fp32Exponent x - 26)) := by
  have hlog := log_of_normalized hlow hhigh h
  unfold fp32Exponent
  rw [hlog]
  -- only a binade below the normal range is shifted
  by_cases he : e < -126
  · rw [if_pos he, max_eq_right he.le]
    obtain ⟨d, hd⟩ : ∃ d : ℕ, (-126 - e).toNat = d + 1 := ⟨(-126 - e).toNat - 1, by omega⟩
    -- scaling by the shift keeps agreement with multiples of the coarser unit
    have hscaled : Agree 2 ((s.toNat : ℝ) / 2 ^ (d + 1)) (x / 2 ^ ((-126 : ℤ) - 26)) := by
      have hpos : (0 : ℝ) < 2 ^ (d + 1) := by positivity
      have hdiv := (h.div hpos).coarsen (2 ^ (d + 1))
      have hunit : (2 : ℝ) / 2 ^ (d + 1) * ((2 ^ (d + 1) : ℤ) : ℝ) = 2 := by
        push_cast
        exact div_mul_cancel₀ _ hpos.ne'
      have hx : x / 2 ^ (e - 26) / 2 ^ (d + 1) = x / 2 ^ ((-126 : ℤ) - 26) := by
        rw [div_div, ← zpow_natCast, ← zpow_add₀ (by norm_num)]
        congr 2
        push_cast
        omega
      rwa [hunit, hx] at hdiv
    have hagree : Agree 2 ((shiftRightJam s (d + 1)).toNat : ℝ) (x / 2 ^ ((-126 : ℤ) - 26)) := by
      rw [toNat_shiftRightJam]
      exact (agree_jam s.toNat (d + 1)).trans hscaled
    refine ⟨_, ?_, by rw [hd], hagree⟩
    have hlt : (s.toNat : ℝ) / 2 ^ (d + 1) < 2 ^ 27 := by
      have hcast : (s.toNat : ℝ) < 2 ^ 27 := by exact_mod_cast hhigh
      exact (div_le_self (by positivity) (one_le_pow₀ (by norm_num))).trans_lt hcast
    have hjam := ((agree_jam (K := ℝ) s.toNat (d + 1)).lt_two_pow_iff (by decide)).mpr hlt
    rw [toNat_shiftRightJam]
    exact_mod_cast hjam
  · rw [if_neg he, max_eq_left (by omega)]
    exact ⟨s, hhigh, rfl, h⟩

/-- The rounding of a significand that agrees with `x`, and its inexactness. -/
theorem round_of_agree (mode : Mode) (sign : Bool) {s : BitVec 64} {x : ℝ} {e : ℤ}
    (h : Agree 2 (s.toNat : ℝ) (x / 2 ^ (e - 26))) :
    roundInt (mode.direction sign) (x / 2 ^ (e - 23)) =
        roundInt (mode.direction sign) ((s.toNat : ℝ) / 8) ∧
      (OnGrid (e - 23) x ↔ s.toNat % 8 = 0) := by
  have hpow : (0 : ℝ) < 2 ^ (e - 23) := by positivity
  -- even numbers of eighths are quarters: finer than the halves that decide rounding
  have heighth : Agree (1 / 4) ((s.toNat : ℝ) / 8) (x / 2 ^ (e - 23)) := by
    have hdiv := h.div (c := 8) (by norm_num)
    rw [div_div, show (8 : ℝ) = 2 ^ (3 : ℤ) by norm_num, ← zpow_add₀ (by norm_num),
      show e - 26 + 3 = e - 23 by ring] at hdiv
    norm_num at hdiv ⊢
    exact hdiv
  have hhalf : Agree (1 / 2) ((s.toNat : ℝ) / 8) (x / 2 ^ (e - 23)) := by
    have hc := heighth.coarsen 2
    norm_num at hc ⊢
    exact hc
  have hone : Agree 1 ((s.toNat : ℝ) / 8) (x / 2 ^ (e - 23)) := by
    have hc := heighth.coarsen 4
    norm_num at hc ⊢
    exact hc
  refine ⟨(hhalf.roundInt_eq _).symm, ?_⟩
  constructor
  · -- on the grid all three round bits are clear, and conversely
    rintro ⟨n, hn⟩
    have hs := (hone.eq_intCast_iff n).mpr ((div_eq_iff hpow.ne').mpr hn)
    rw [div_eq_iff (by norm_num)] at hs
    have hint : (s.toNat : ℤ) = n * 8 := by exact_mod_cast hs
    omega
  · intro hs
    have hint : (s.toNat : ℝ) / 8 = ((s.toNat / 8 : ℤ) : ℝ) := by
      rw [div_eq_iff (by norm_num)]
      exact_mod_cast (show (s.toNat : ℤ) = s.toNat / 8 * 8 by omega)
    exact ⟨_, (div_eq_iff hpow.ne').mp ((hone.eq_intCast_iff _).mp hint)⟩

/-- `round_and_pack` as far as `should_round_up`, once the loops have run. -/
theorem roundAndPack_of_normalized {sign : Bool} {rm : RoundingMode} {e e₁ e₂ e₃ : ℤ}
    {s s₁ s₂ s₃ : BitVec 64} {up : Bool} (hne : s ≠ 0)
    (hdown : shiftDownToHidden 64 s e = .ok (s₁, e₁))
    (hup : shiftUpToHidden 64 s₁ e₁ = .ok (s₂, e₂))
    (hshift : (if e₂ < -126 then (shiftRightJam s₂ (-126 - e₂).toNat, -126) else (s₂, e₂)) =
      (s₃, e₃))
    (hround : shouldRoundUp rm sign (s₃ >>> 3) ((s₃ &&& 0b111).setWidth 32) = .ok up) :
    roundAndPack sign e s rm = .ok
      (finishRound sign rm e₃ (if up then (s₃ >>> 3) + 1 else s₃ >>> 3)
        (decide ((s₃ &&& 0b111).setWidth 32 ≠ (0 : BitVec 32)))) := by
  unfold roundAndPack
  simp only [if_neg hne, hdown, hup, hshift, hround, bind, Except.bind, pure, Except.pure]
  unfold finishRound
  exact (apply_ite Except.ok _ _ _).symm

/-- **`round_and_pack` is correct on exact significands.** -/
theorem roundAndPack_exact (sign : Bool) (mode : Mode) (e : ℤ) {s : BitVec 64}
    (hpos : 0 < s.toNat) (hs : s.toNat < 2 ^ 28) :
    roundAndPack sign e s (roundingMode mode) =
      .ok (packExact sign mode (s.toNat * 2 ^ (e - 26))) := by
  obtain ⟨s₁, e₁, s₂, e₂, hdown, hup, hlow, hhigh, hagree⟩ := normalize_spec e hpos hs
  obtain ⟨s₃, hlt, hshift, hagree'⟩ := agree_shift hlow hhigh hagree
  obtain ⟨hround, hgrid⟩ := round_of_agree mode sign hagree'
  obtain ⟨up, hdecide, hval⟩ := round_eighths mode sign s₃
  have hne : s ≠ 0 := by
    rintro rfl
    exact absurd hpos (by decide)
  rw [roundAndPack_of_normalized hne hdown hup hshift hdecide]
  -- the two descriptions of the result, field by field
  have hsig : (if up then (s₃ >>> 3) + 1 else s₃ >>> 3) =
      BitVec.ofInt 64 (fp32Significand (mode.direction sign) (s.toNat * 2 ^ (e - 26))) := by
    have hquot : (s₃ >>> 3) = BitVec.ofInt 64 ((s₃.toNat / 8 : ℕ) : ℤ) := by
      apply BitVec.eq_of_toNat_eq
      rw [BitVec.ofInt_natCast, BitVec.toNat_ushiftRight, BitVec.toNat_ofNat,
        Nat.shiftRight_eq_div_pow]
      omega
    rw [fp32Significand, hround, hval, BitVec.ofInt_add, ← hquot]
    cases up with
    | false => simp
    | true => rfl
  have hinexact : decide ((s₃ &&& 0b111).setWidth 32 ≠ (0 : BitVec 32)) =
      fp32Inexact (s.toNat * 2 ^ (e - 26)) := by
    have hmask : (s₃ &&& 0b111).toNat = s₃.toNat % 2 ^ 3 :=
      BitField.toNat_and_lowMask s₃ 3 (by decide)
    rw [Bool.eq_iff_iff, fp32Inexact_iff, hgrid, decide_eq_true_iff, Ne, ← BitVec.toNat_inj,
      BitVec.toNat_setWidth, hmask]
    simp only [BitVec.ofNat_eq_ofNat, BitVec.toNat_ofNat]
    omega
  rw [hsig, hinexact]
  rfl

/-! ## §5. Sticky significands -/

section Sticky

variable {a x : ℝ} (e : ℤ)

/-- Two numbers that no even number tells apart, with at least 26 bits before the
sticky one, are in the same binade. -/
theorem log_congr_of_agree (h : Agree 2 a x) (hlow : 2 ^ 25 ≤ a) :
    e - 1 ≤ Int.log 2 (a * 2 ^ (e - 26)) ∧
      Int.log 2 (x * 2 ^ (e - 26)) = Int.log 2 (a * 2 ^ (e - 26)) := by
  have hunit : (0 : ℝ) < 2 ^ (e - 26) := by positivity
  have hscale (m : ℕ) : (2 : ℝ) ^ (e - 26 + m) = 2 ^ m * 2 ^ (e - 26) := by
    rw [zpow_add₀ (by norm_num), zpow_natCast, mul_comm]
  have hbase : (2 : ℝ) ^ (e - 1) ≤ a * 2 ^ (e - 26) := by
    rw [show e - 1 = e - 26 + (25 : ℕ) by push_cast; ring, hscale]
    exact mul_le_mul_of_nonneg_right hlow hunit.le
  have hapos : 0 < a * 2 ^ (e - 26) := (zpow_pos (by norm_num) (e - 1)).trans_le hbase
  obtain ⟨L, hL⟩ : ∃ L, Int.log 2 (a * 2 ^ (e - 26)) = L := ⟨_, rfl⟩
  have hbin1 := zpow_log_le hapos
  have hbin2 := lt_zpow_log_add_one (a * 2 ^ (e - 26))
  rw [hL] at hbin1 hbin2 ⊢
  have hge : e - 1 ≤ L := by
    have hlt := (zpow_lt_zpow_iff_right₀ (by norm_num : (1 : ℝ) < 2)).mp (hbase.trans_lt hbin2)
    omega
  refine ⟨hge, ?_⟩
  -- the ends of the binade are even numbers of units
  obtain ⟨n, hn⟩ : ∃ n : ℕ, L = e - 26 + (n + 1 : ℕ) := ⟨(L - e + 25).toNat, by omega⟩
  have hL1 : (2 : ℝ) ^ L = 2 ^ (n + 1) * 2 ^ (e - 26) := by rw [hn, hscale]
  have hL2 : (2 : ℝ) ^ (L + 1) = 2 ^ (n + 2) * 2 ^ (e - 26) := by
    rw [show L + 1 = e - 26 + (n + 2 : ℕ) by omega, hscale]
  rw [hL1, mul_le_mul_iff_left₀ hunit, ← not_lt, h.lt_two_pow_iff (by omega), not_lt] at hbin1
  rw [hL2, mul_lt_mul_iff_left₀ hunit, h.lt_two_pow_iff (by omega)] at hbin2
  apply log_eq_of_binade
  · rw [hL1]
    exact mul_le_mul_of_nonneg_right hbin1 hunit.le
  · rw [hL2]
    exact mul_lt_mul_of_pos_right hbin2 hunit

/-- They also compare alike with the halves of the grid they are rounded on. -/
theorem agree_half_of_agree (h : Agree 2 a x) {E : ℤ} (hE : e - 1 ≤ E) :
    Agree (2 ^ (-1 : ℤ)) (a * 2 ^ (e - 26) / 2 ^ (E - 23)) (x * 2 ^ (e - 26) / 2 ^ (E - 23)) := by
  have hc := (h.scale (c := 2 ^ (e - 26)) (by positivity)).div (c := 2 ^ (E - 23)) (by positivity)
  have hunit : (2 : ℝ) ^ (e - 26) * 2 / 2 ^ (E - 23) = 2 ^ (e - 2 - E) := by
    rw [← zpow_add_one₀ (by norm_num), two_zpow_div]
    congr 1
    ring
  rw [hunit, mul_comm _ a, mul_comm _ x] at hc
  exact hc.coarsen_zpow (by omega)

theorem packExact_congr (sign : Bool) (mode : Mode) (h : Agree 2 a x) (hlow : 2 ^ 25 ≤ a) :
    packExact sign mode (a * 2 ^ (e - 26)) = packExact sign mode (x * 2 ^ (e - 26)) := by
  obtain ⟨hge, hlog⟩ := log_congr_of_agree e h hlow
  have hexp : fp32Exponent (x * 2 ^ (e - 26)) = fp32Exponent (a * 2 ^ (e - 26)) := by
    rw [fp32Exponent, fp32Exponent, hlog]
  have hE : e - 1 ≤ fp32Exponent (a * 2 ^ (e - 26)) := hge.trans (le_max_left _ _)
  have hhalf := agree_half_of_agree e h hE
  have hone := hhalf.coarsen_zpow (j := 0) (by decide)
  rw [zpow_zero] at hone
  rw [zpow_neg_one, ← one_div] at hhalf
  -- being on the grid is a comparison with multiples of the whole unit
  have hinexact : fp32Inexact (x * 2 ^ (e - 26)) = fp32Inexact (a * 2 ^ (e - 26)) := by
    rw [Bool.eq_iff_iff, fp32Inexact_iff, fp32Inexact_iff, hexp, not_iff_not]
    have hpos : (2 : ℝ) ^ (fp32Exponent (a * 2 ^ (e - 26)) - 23) ≠ 0 := by positivity
    refine exists_congr fun k => ?_
    rw [← div_eq_iff hpos, ← div_eq_iff hpos]
    exact (hone.eq_intCast_iff k).symm
  unfold packExact fp32Significand
  rw [hexp, hinexact, hhalf.roundInt_eq]

end Sticky

/-- **`round_and_pack` is correct on significands with a sticky bit.** -/
theorem roundAndPack_of_agree (sign : Bool) (mode : Mode) (e : ℤ) {s : BitVec 64} {x : ℝ}
    (hlow : 2 ^ 25 ≤ s.toNat) (hs : s.toNat < 2 ^ 28) (h : Agree 2 (s.toNat : ℝ) x) :
    roundAndPack sign e s (roundingMode mode) = .ok (packExact sign mode (x * 2 ^ (e - 26))) := by
  have hlow' : (2 : ℝ) ^ 25 ≤ s.toNat := by exact_mod_cast hlow
  rw [roundAndPack_exact sign mode e (by omega) hs, packExact_congr e sign mode h hlow']

end ZincSim
