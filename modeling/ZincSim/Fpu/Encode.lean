/-
  ZincSim.Fpu.Encode — the words that `round_and_pack` delivers.

  `packRounded` writes the three fields of a binary32 pattern (`packRounded_eq`), so
  its word has the value of the rounded significand (`value_pack_rounded`), and a
  number that is already representable comes back as its own pattern
  (`packExact_magnitude`).
-/
import ZincSim.Fpu.Pack

namespace ZincSim

open Rounding

/-! ## §1. Fields -/

/-- The 32-bit word of a result. -/
def FpResult.word (result : FpResult) : BitVec 32 := result.value.setWidth 32

@[simp] theorem FpResult.word_ofWord (value flags : BitVec 32) :
    (FpResult.ofWord value flags).word = value := by
  unfold FpResult.word FpResult.ofWord
  rw [BitVec.setWidth_setWidth_of_le _ (by decide), BitVec.setWidth_eq]

/-- `sign_bits | (raw_exponent << 23) | fraction` is a pattern. -/
theorem fields_eq_pack (sign : Bool) (e : BitVec 8) (f : BitVec 23) :
    signBits sign ||| (e.setWidth 32 <<< 23) ||| f.setWidth 32 = Binary32.pack sign e f := by
  apply BitVec.eq_of_getLsbD_eq
  intro i hi
  have hsign : (signBits sign).getLsbD i = (sign && decide (i = 31)) := by
    cases sign with
    | false => simp [signBits]
    | true =>
      rw [signBits, if_pos rfl, fp32SignMask, ← BitVec.twoPow_eq, BitVec.getLsbD_twoPow]
      simp [eq_comm]
  have hpack : (Binary32.pack sign e f).getLsbD i =
      if i < 23 then f.getLsbD i else
        if i - 23 < 8 then e.getLsbD (i - 23) else (BitVec.ofBool sign).getLsbD (i - 23 - 8) := by
    unfold Binary32.pack
    rw [BitVec.getLsbD_append, BitVec.getLsbD_append]
  rw [BitVec.getLsbD_or, BitVec.getLsbD_or, hsign, hpack]
  -- the three fields do not overlap: bit by bit
  obtain h | ⟨h, h'⟩ | rfl : i < 23 ∨ (23 ≤ i ∧ i < 31) ∨ i = 31 := by omega
  · have h31 : i ≠ 31 := by omega
    simp [h, hi, h31]
  · have h1 : ¬ i < 23 := by omega
    have h2 : i - 23 < 8 := by omega
    have h31 : i ≠ 31 := by omega
    simp [h1, h2, hi, h31, BitVec.getLsbD_of_ge f i h]
  · simp

theorem signBits_eq_pack (sign : Bool) : signBits sign = Binary32.pack sign 0 0 := by
  cases sign <;> decide

/-- A zero is its sign. -/
theorem eq_signBits_of_zero {raw : BitVec 32} (h : Binary32.value raw = some 0) :
    raw = signBits (Binary32.sign raw) := by
  obtain ⟨he, hf⟩ := (Binary32.value_eq_zero_iff raw).mp h
  rw [signBits_eq_pack, ← Binary32.pack_fields raw, Binary32.sign_pack, he, hf]

/-- The word that an operand is passed on as, with a sign of its own. -/
theorem masked_eq_pack (raw : BitVec 32) (sign : Bool) :
    (raw &&& fp32MagnitudeMask) ||| signBits sign =
      Binary32.pack sign (Binary32.exponent raw) (Binary32.fraction raw) := by
  have hmagnitude : raw &&& fp32MagnitudeMask =
      Binary32.pack false (Binary32.exponent raw) (Binary32.fraction raw) := by
    apply BitVec.eq_of_toNat_eq
    have hmask : (raw &&& fp32MagnitudeMask).toNat = raw.toNat % 2 ^ 31 :=
      BitField.toNat_and_lowMask raw 31 (by decide)
    have he := (Binary32.exponent raw).isLt
    have hf := (Binary32.fraction raw).isLt
    have hraw := congrArg BitVec.toNat (Binary32.pack_fields raw)
    rw [Binary32.toNat_pack] at hraw
    rw [hmask, Binary32.toNat_pack, if_neg Bool.false_ne_true, zero_add, ← hraw]
    split <;> omega
  have hzero : signBits false = 0#32 := rfl
  rw [hmagnitude, ← fields_eq_pack, ← fields_eq_pack, hzero, BitVec.zero_or, BitVec.or_comm,
    BitVec.or_assoc]

/-! ## §2. Encoding a rounded significand -/

/-- The flags of a result that did not overflow. -/
def roundFlags (subnormal inexact : Bool) : BitVec 32 :=
  let flags : BitVec 32 := if inexact then fpFlagNx else 0
  if subnormal && inexact then flags ||| fpFlagUf else flags

/-- The rounded significand has no hidden bit on the subnormal grid. -/
def isSubnormal (exponent : ℤ) (significand : ℕ) : Bool :=
  decide (exponent = -126) && decide (significand < 2 ^ 23)

/-- The exponent field. -/
def exponentField (exponent : ℤ) (significand : ℕ) : BitVec 8 :=
  if isSubnormal exponent significand then 0 else BitVec.ofInt 8 (exponent + 127)

theorem packRounded_eq (sign : Bool) {e : ℤ} {q : ℕ} (inexact : Bool) (he : -126 ≤ e)
    (he' : e ≤ 127) (hq : q < 2 ^ 24) (hnorm : e ≠ -126 → 2 ^ 23 ≤ q) :
    packRounded sign e (BitVec.ofNat 64 q) inexact =
      .ofWord (Binary32.pack sign (exponentField e q) (BitVec.ofNat 23 q))
        (roundFlags (isSubnormal e q) inexact) := by
  have hnat : (BitVec.ofNat 64 q).toNat = q := by
    rw [BitVec.toNat_ofNat]
    omega
  have hhidden : BitVec.ofNat 64 q < fp32HiddenBit ↔ q < 2 ^ 23 := by
    rw [BitVec.lt_def, hnat]
    rfl
  have hfraction : (BitVec.ofNat 64 q).setWidth 32 &&& 0x7fffff =
      (BitVec.ofNat 23 q).setWidth 32 := by
    apply BitVec.eq_of_toNat_eq
    have hmask := BitField.toNat_and_lowMask ((BitVec.ofNat 64 q).setWidth 32 : BitVec 32) 23
      (by decide)
    rw [show (0x7fffff : BitVec 32) = BitVec.ofNat 32 (2 ^ 23 - 1) from rfl, hmask,
      BitVec.toNat_setWidth, hnat, BitVec.toNat_setWidth, BitVec.toNat_ofNat]
    omega
  -- the two tests of the source are those of `isSubnormal`
  have hsub : (decide (e = -126) && decide (BitVec.ofNat 64 q < fp32HiddenBit)) =
      isSubnormal e q := by
    rw [isSubnormal, decide_eq_decide.mpr hhidden]
  unfold packRounded
  simp only [hsub, hfraction]
  by_cases hzero : q = 0
  · -- the signed zero
    subst hzero
    have he0 : e = -126 := by
      by_contra hne
      exact absurd (hnorm hne) (by decide)
    subst he0
    rw [if_pos (show BitVec.ofNat 64 0 = 0 from rfl), signBits_eq_pack]
    rfl
  · have hne : ¬ BitVec.ofNat 64 q = 0 := fun h => hzero (hnat ▸ congrArg BitVec.toNat h)
    -- a normal exponent is between 1 and 254, so eight bits hold it
    have hexp : (if isSubnormal e q then 0 else BitVec.ofInt 32 (e + 127)) =
        (exponentField e q).setWidth 32 := by
      unfold exponentField
      split
      · rfl
      · obtain ⟨k, hk⟩ : ∃ k : ℕ, e + 127 = k := ⟨(e + 127).toNat, by omega⟩
        apply BitVec.eq_of_toNat_eq
        rw [hk, BitVec.ofInt_natCast, BitVec.ofInt_natCast, BitVec.toNat_setWidth,
          BitVec.toNat_ofNat, BitVec.toNat_ofNat]
        omega
    rw [if_neg hne, hexp, fields_eq_pack]
    rfl

/-- **The value of the encoded word.** -/
theorem value_pack_rounded (sign : Bool) {e : ℤ} {q : ℕ} (he : -126 ≤ e) (he' : e ≤ 127)
    (hq : q < 2 ^ 24) (hnorm : e ≠ -126 → 2 ^ 23 ≤ q) :
    Binary32.value (Binary32.pack sign (exponentField e q) (BitVec.ofNat 23 q)) =
      some (if sign then -((q : ℚ) * 2 ^ (e - 23)) else (q : ℚ) * 2 ^ (e - 23)) := by
  have hmag : Binary32.exponent (Binary32.pack sign (exponentField e q) (BitVec.ofNat 23 q)) ≠
      255 ∧ Binary32.magnitude (Binary32.pack sign (exponentField e q) (BitVec.ofNat 23 q)) =
        q * 2 ^ (e - 23) := by
    rw [Binary32.magnitude, Binary32.exponent_pack, Binary32.fraction_pack, BitVec.toNat_ofNat]
    -- subnormal: no hidden bit; normal: the hidden bit is 2 ^ 23 and leaves the fraction
    by_cases hsub : isSubnormal e q = true
    · rw [exponentField, if_pos hsub]
      unfold isSubnormal at hsub
      obtain ⟨h1, h2⟩ := Bool.and_eq_true_iff.mp hsub
      rw [of_decide_eq_true h1, Nat.mod_eq_of_lt (of_decide_eq_true h2), if_pos rfl]
      exact ⟨by decide, by norm_num⟩
    · rw [exponentField, if_neg hsub]
      have hge : 2 ^ 23 ≤ q := by
        by_contra hlt
        have hsub' : e = -126 := by
          by_contra hne
          exact hlt (hnorm hne)
        exact hsub (by rw [isSubnormal, decide_eq_true hsub', decide_eq_true (not_le.mp hlt)]; rfl)
      obtain ⟨k, hk⟩ : ∃ k : ℕ, e + 127 = k := ⟨(e + 127).toNat, by omega⟩
      have hnat : (BitVec.ofInt 8 (e + 127)).toNat = k := by
        rw [hk, BitVec.ofInt_natCast, BitVec.toNat_ofNat]
        omega
      have hne0 : BitVec.ofInt 8 (e + 127) ≠ 0 := fun h => by
        rw [h] at hnat
        have : (0 : BitVec 8).toNat = 0 := rfl
        omega
      have hne255 : BitVec.ofInt 8 (e + 127) ≠ 255 := fun h => by
        rw [h] at hnat
        have : (255 : BitVec 8).toNat = 255 := rfl
        omega
      refine ⟨hne255, ?_⟩
      rw [if_neg hne0, hnat]
      have hmod : q % 2 ^ 23 = q - 2 ^ 23 := by omega
      rw [hmod, Nat.cast_sub hge, show (k : ℤ) - 150 = e - 23 by omega]
      push_cast
      ring
  rw [Binary32.value, if_neg hmag.1, Binary32.sign_pack, hmag.2]

/-! ## §3. The range of the rounded significand -/

section Range

variable {x : ℝ} (dir : Direction)

theorem units_pos (hx : 0 < x) : 0 < x / 2 ^ (fp32Exponent x - 23) := by positivity

/-- `2 ^ a` in units of the grid. -/
theorem two_zpow_units (a : ℤ) {n : ℕ} (h : a - (fp32Exponent x - 23) = n) :
    (2 : ℝ) ^ a / 2 ^ (fp32Exponent x - 23) = ((2 ^ n : ℤ) : ℝ) := by
  rw [two_zpow_div, h, zpow_natCast]
  push_cast
  rfl

theorem fp32Significand_nonneg (hx : 0 < x) : 0 ≤ fp32Significand dir x :=
  le_roundInt (by exact_mod_cast (units_pos hx).le)

theorem fp32Significand_le (x : ℝ) : fp32Significand dir x ≤ 2 ^ 24 := by
  apply roundInt_le
  rw [← two_zpow_units (fp32Exponent x + 1) (n := 24) (by push_cast; ring)]
  have hlog : Int.log 2 x + 1 ≤ fp32Exponent x + 1 := by
    have hmax : Int.log 2 x ≤ fp32Exponent x := le_max_left _ _
    omega
  exact div_le_div_of_nonneg_right ((lt_zpow_log_add_one x).le.trans
    (zpow_le_zpow_right₀ (by norm_num) hlog)) (by positivity)

/-- A number in a normal binade keeps its hidden bit. -/
theorem le_fp32Significand (hx : 0 < x) (hlog : -126 ≤ Int.log 2 x) :
    2 ^ 23 ≤ fp32Significand dir x := by
  apply le_roundInt
  rw [← two_zpow_units (fp32Exponent x) (n := 23) (by push_cast; ring), fp32Exponent,
    max_eq_left hlog]
  exact div_le_div_of_nonneg_right (zpow_log_le hx) (by positivity)

/-- A smaller one rounds to the smallest normal number at most. -/
theorem fp32Significand_le_of_lt (hlog : Int.log 2 x < -126) :
    fp32Significand dir x ≤ 2 ^ 23 := by
  apply roundInt_le
  rw [← two_zpow_units (fp32Exponent x) (n := 23) (by push_cast; ring), fp32Exponent,
    max_eq_right hlog.le]
  exact div_le_div_of_nonneg_right ((lt_zpow_log_add_one x).le.trans
    (zpow_le_zpow_right₀ (by norm_num) (by omega))) (by positivity)

end Range

/-! ## §4. Results by range -/

/-- No carry: the rounded significand is encoded as it is. -/
theorem finishRound_of_lt (sign : Bool) (rm : RoundingMode) {e : ℤ} {q : ℕ} (inexact : Bool)
    (hq : q < 2 ^ 24) (he : e ≤ 127) :
    finishRound sign rm e (BitVec.ofNat 64 q) inexact =
      packRounded sign e (BitVec.ofNat 64 q) inexact := by
  have hcarry : ¬ BitVec.ofNat 64 q ≥ fp32HiddenBit <<< 1 := by
    rw [ge_iff_le, BitVec.le_def, BitVec.toNat_ofNat]
    have hconst : (fp32HiddenBit <<< 1).toNat = 2 ^ 24 := by decide
    omega
  unfold finishRound
  rw [if_neg hcarry]
  exact if_neg (by omega)

/-- **Below the normal range** the significand is rounded on the subnormal grid. -/
theorem packExact_of_tiny (sign : Bool) (mode : Mode) {x : ℝ} (hx : 0 < x)
    (hlog : Int.log 2 x < -126) :
    ∃ q : ℕ, fp32Significand (mode.direction sign) x = q ∧ q ≤ 2 ^ 23 ∧
      packExact sign mode x =
        .ofWord (Binary32.pack sign (exponentField (-126) q) (BitVec.ofNat 23 q))
          (roundFlags (decide (q < 2 ^ 23)) (fp32Inexact x)) := by
  obtain ⟨q, hq⟩ : ∃ q : ℕ, fp32Significand (mode.direction sign) x = q :=
    ⟨_, (Int.toNat_of_nonneg (fp32Significand_nonneg _ hx)).symm⟩
  have hle : q ≤ 2 ^ 23 := by
    have h := fp32Significand_le_of_lt (mode.direction sign) hlog
    omega
  refine ⟨q, hq, hle, ?_⟩
  have hexp : fp32Exponent x = -126 := max_eq_right hlog.le
  have hsub : isSubnormal (-126) q = decide (q < 2 ^ 23) := Bool.true_and _
  rw [packExact, hq, hexp, BitVec.ofInt_natCast, finishRound_of_lt _ _ _ (by omega) (by decide),
    packRounded_eq _ _ (by decide) (by decide) (by omega) (fun h => absurd rfl h), hsub]

/-- **`packExact` by its rounded number**: a significand of 24 bits over an exponent,
which is out of range or encoded. -/
theorem packExact_encoded (sign : Bool) (mode : Mode) {x : ℝ} (hx : 0 < x) :
    ∃ (e : ℤ) (q : ℕ), -126 ≤ e ∧ q < 2 ^ 24 ∧ (e ≠ -126 ∨ -126 ≤ Int.log 2 x → 2 ^ 23 ≤ q) ∧
      roundAt (mode.direction sign) (fp32Exponent x - 23) x = q * 2 ^ (e - 23) ∧
      packExact sign mode x =
        if e > 127 then overflowResult sign (roundingMode mode)
        else .ofWord (Binary32.pack sign (exponentField e q) (BitVec.ofNat 23 q))
          (roundFlags (isSubnormal e q) (fp32Inexact x)) := by
  have hle := fp32Significand_le (mode.direction sign) x
  have hexp : -126 ≤ fp32Exponent x := le_max_right _ _
  obtain ⟨q, hq⟩ : ∃ q : ℕ, fp32Significand (mode.direction sign) x = q :=
    ⟨_, (Int.toNat_of_nonneg (fp32Significand_nonneg _ hx)).symm⟩
  have hround : roundAt (mode.direction sign) (fp32Exponent x - 23) x =
      q * 2 ^ (fp32Exponent x - 23) := by
    show (fp32Significand (mode.direction sign) x : ℝ) * _ = _
    rw [hq, Int.cast_natCast]
  have hnorm : fp32Exponent x ≠ -126 ∨ -126 ≤ Int.log 2 x → 2 ^ 23 ≤ q := by
    intro hnormal
    have hlog : -126 ≤ Int.log 2 x := by
      by_contra hlt
      exact hnormal.elim (fun hne => hne (max_eq_right (not_le.mp hlt).le)) hlt
    have hge := le_fp32Significand (mode.direction sign) hx hlog
    omega
  have hnat : (BitVec.ofNat 64 q).toNat = q := by
    rw [BitVec.toNat_ofNat]
    omega
  have hconst : (fp32HiddenBit <<< 1).toNat = 2 ^ 24 := by decide
  rw [packExact, hq, BitVec.ofInt_natCast]
  unfold finishRound
  by_cases hcarry : BitVec.ofNat 64 q ≥ fp32HiddenBit <<< 1
  · -- the carry: one bit less over the next exponent
    have hhalf : BitVec.ofNat 64 q >>> 1 = BitVec.ofNat 64 8388608 := by
      rw [ge_iff_le, BitVec.le_def, hnat, hconst] at hcarry
      obtain rfl : q = 16777216 := by omega
      rfl
    have hq24 : q = 2 * 8388608 := by
      rw [ge_iff_le, BitVec.le_def, hnat, hconst] at hcarry
      omega
    refine ⟨fp32Exponent x + 1, 8388608, by omega, by decide, fun _ => by decide, ?_, ?_⟩
    · rw [hround, hq24, show fp32Exponent x + 1 - 23 = fp32Exponent x - 23 + 1 by ring,
        zpow_add_one₀ (by norm_num)]
      push_cast
      ring
    · rw [if_pos hcarry, hhalf]
      dsimp only
      refine ite_congr rfl (fun _ => rfl) fun hmax => ?_
      exact packRounded_eq _ _ (by omega) (by omega) (by decide) fun _ => by decide
  · have hlt : q < 2 ^ 24 := by
      rw [ge_iff_le, BitVec.le_def, hnat, hconst] at hcarry
      omega
    refine ⟨fp32Exponent x, q, hexp, hlt, hnorm, hround, ?_⟩
    rw [if_neg hcarry]
    dsimp only
    exact ite_congr rfl (fun _ => rfl) fun hmax => packRounded_eq _ _ hexp (by omega) hlt
      fun hne => hnorm (.inl hne)

/-- **In the normal range** the underflow flag stays clear. -/
theorem packExact_flags_of_normal (sign : Bool) (mode : Mode) {x : ℝ} (hx : 0 < x)
    (hlog : -126 ≤ Int.log 2 x) : (packExact sign mode x).flags &&& fpFlagUf = 0 := by
  obtain ⟨e, q, -, -, hnormal, -, hpack⟩ := packExact_encoded sign mode hx
  -- what is encoded, carried or not, has its hidden bit
  have hsub : isSubnormal e q = false := by
    rw [isSubnormal, decide_eq_false (not_lt.mpr (hnormal (.inr hlog))), Bool.and_false]
  rw [hpack, hsub]
  split
  case isTrue =>
    show (fpFlagOf ||| fpFlagNx) &&& fpFlagUf = 0
    decide
  case isFalse =>
    show roundFlags false (fp32Inexact x) &&& fpFlagUf = 0
    cases fp32Inexact x <;> decide

/-! ## §5. Representable numbers -/

/-- A number on its grid is encoded without a flag. -/
theorem packExact_of_grid (sign : Bool) (mode : Mode) {x : ℝ} {e : ℤ} {q : ℕ}
    (hexp : fp32Exponent x = e) (hx : x = q * 2 ^ (e - 23)) (he : e ≤ 127) (hq : q < 2 ^ 24)
    (hnorm : e ≠ -126 → 2 ^ 23 ≤ q) :
    packExact sign mode x =
      .ofWord (Binary32.pack sign (exponentField e q) (BitVec.ofNat 23 q)) 0 := by
  have hpos : (2 : ℝ) ^ (e - 23) ≠ 0 := by positivity
  -- in units of the grid the number is the integer `q`, which rounding keeps
  have hunits : x / 2 ^ (fp32Exponent x - 23) = ((q : ℤ) : ℝ) := by
    rw [hexp, hx, mul_div_cancel_right₀ _ hpos, Int.cast_natCast]
  have hexact : fp32Inexact x = false := by
    rw [← Bool.not_eq_true, fp32Inexact_iff, not_not]
    exact ⟨q, by rw [hexp, hx, Int.cast_natCast]⟩
  have hlow : -126 ≤ e := hexp ▸ le_max_right _ _
  have hflags : roundFlags (isSubnormal e q) false = 0 := by
    rw [roundFlags, Bool.and_false]
    rfl
  rw [packExact, fp32Significand, hunits, roundInt_intCast, hexact, hexp, BitVec.ofInt_natCast,
    finishRound_of_lt _ _ _ hq he, packRounded_eq _ _ hlow he hq hnorm, hflags]

section Magnitude

variable (sign : Bool) (mode : Mode) {raw : BitVec 32}

theorem ofNat_fraction (raw : BitVec 32) :
    BitVec.ofNat 23 (Binary32.fraction raw).toNat = Binary32.fraction raw := by
  rw [BitVec.ofNat_toNat, BitVec.setWidth_eq]

theorem packExact_subnormal (hzero : Binary32.exponent raw = 0)
    (hnz : Binary32.magnitude raw ≠ 0) :
    packExact sign mode (Binary32.magnitude raw : ℚ) =
      .ofWord (Binary32.pack sign (Binary32.exponent raw) (Binary32.fraction raw)) 0 := by
  have hf := (Binary32.fraction raw).isLt
  have hpos : (0 : ℝ) < (Binary32.magnitude raw : ℚ) := by
    exact_mod_cast lt_of_le_of_ne (Binary32.magnitude_nonneg raw) (Ne.symm hnz)
  have hval : ((Binary32.magnitude raw : ℚ) : ℝ) =
      (Binary32.fraction raw).toNat * 2 ^ ((-126 : ℤ) - 23) := by
    rw [Binary32.magnitude, if_pos hzero]
    push_cast
    norm_num
  -- 23 bits stay below the normal range
  have hlt : ((Binary32.magnitude raw : ℚ) : ℝ) < 2 ^ (-126 : ℤ) := by
    rw [hval, show (-126 : ℤ) = 23 + (-126 - 23) by norm_num, zpow_add₀ (by norm_num)]
    have hcast : ((Binary32.fraction raw).toNat : ℝ) < 2 ^ (23 : ℤ) := by exact_mod_cast hf
    exact mul_lt_mul_of_pos_right hcast (by positivity)
  have hexp : fp32Exponent (Binary32.magnitude raw : ℚ) = -126 := by
    have hlog : Int.log 2 ((Binary32.magnitude raw : ℚ) : ℝ) < -126 :=
      (Int.lt_zpow_iff_log_lt (by norm_num) hpos).mp (by exact_mod_cast hlt)
    exact max_eq_right hlog.le
  rw [packExact_of_grid sign mode hexp hval (by decide) (by omega) (fun h => absurd rfl h),
    ofNat_fraction, exponentField, isSubnormal, decide_eq_true (by omega : _ < 2 ^ 23), hzero]
  rfl

theorem packExact_normal (hfinite : Binary32.exponent raw ≠ 255)
    (hzero : Binary32.exponent raw ≠ 0) :
    packExact sign mode (Binary32.magnitude raw : ℚ) =
      .ofWord (Binary32.pack sign (Binary32.exponent raw) (Binary32.fraction raw)) 0 := by
  have hf := (Binary32.fraction raw).isLt
  have hpos : 0 < (Binary32.exponent raw).toNat := BitVec.toNat_pos_of_ne_zero hzero
  have hmax : (Binary32.exponent raw).toNat ≠ 255 :=
    fun h0 => hfinite (BitVec.eq_of_toNat_eq h0)
  have hlt := (Binary32.exponent raw).isLt
  obtain ⟨e, he⟩ : ∃ e : ℤ, ((Binary32.exponent raw).toNat : ℤ) - 127 = e := ⟨_, rfl⟩
  have hval : ((Binary32.magnitude raw : ℚ) : ℝ) =
      (2 ^ 23 + (Binary32.fraction raw).toNat : ℕ) * 2 ^ (e - 23) := by
    rw [Binary32.magnitude, if_neg hzero, show ((Binary32.exponent raw).toNat : ℤ) - 150 = e - 23
      by omega]
    push_cast
    norm_num
  -- the significand has exactly 24 bits, so the binade is that of the field
  have hlog : Int.log 2 ((Binary32.magnitude raw : ℚ) : ℝ) = e := by
    have hlow : (2 : ℝ) ^ (23 : ℤ) ≤ (2 ^ 23 + (Binary32.fraction raw).toNat : ℕ) := by
      push_cast
      norm_num
    have hhigh : ((2 ^ 23 + (Binary32.fraction raw).toNat : ℕ) : ℝ) < 2 ^ (24 : ℤ) := by
      exact_mod_cast (by omega : 2 ^ 23 + (Binary32.fraction raw).toNat < 2 ^ 24)
    apply log_eq_of_binade
    · rw [hval, show e = 23 + (e - 23) by ring, zpow_add₀ (by norm_num),
        show 23 + (e - 23) - 23 = e - 23 by ring]
      exact mul_le_mul_of_nonneg_right hlow (by positivity)
    · rw [hval, show e + 1 = 24 + (e - 23) by ring, zpow_add₀ (by norm_num)]
      exact mul_lt_mul_of_pos_right hhigh (by positivity)
  have hexp : fp32Exponent (Binary32.magnitude raw : ℚ) = e := by
    rw [fp32Exponent, hlog]
    exact max_eq_left (by omega)
  have hfrac : BitVec.ofNat 23 (2 ^ 23 + (Binary32.fraction raw).toNat) =
      Binary32.fraction raw := by
    apply BitVec.eq_of_toNat_eq
    rw [BitVec.toNat_ofNat]
    omega
  have hfieldE : exponentField e (2 ^ 23 + (Binary32.fraction raw).toNat) =
      Binary32.exponent raw := by
    rw [exponentField, isSubnormal, decide_eq_false (by omega : ¬ _ < 2 ^ 23), Bool.and_false]
    apply BitVec.eq_of_toNat_eq
    rw [← he, if_neg (by decide), show ((Binary32.exponent raw).toNat : ℤ) - 127 + 127 =
      ((Binary32.exponent raw).toNat : ℤ) by ring, BitVec.ofInt_natCast, BitVec.toNat_ofNat]
    omega
  rw [packExact_of_grid sign mode hexp hval (by omega) (by omega) (fun _ => by omega), hfrac,
    hfieldE]

/-- **A finite pattern rounds to itself**, with the sign it is packed with. -/
theorem packExact_magnitude (hfinite : Binary32.exponent raw ≠ 255)
    (hnz : Binary32.magnitude raw ≠ 0) :
    packExact sign mode (Binary32.magnitude raw : ℚ) =
      .ofWord (Binary32.pack sign (Binary32.exponent raw) (Binary32.fraction raw)) 0 := by
  by_cases hzero : Binary32.exponent raw = 0
  · exact packExact_subnormal sign mode hzero hnz
  · exact packExact_normal sign mode hfinite hzero

end Magnitude

end ZincSim
