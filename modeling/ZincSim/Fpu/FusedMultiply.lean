/-
  ZincSim.Fpu.FusedMultiply — the fused operations are rounded once.

  Product and addend are widened until their leading bits are at 62, where the
  48 bits of the product end in fifteen zeros: they align like the operands of an
  addition (`alignFma_aligned`).  The sum is shifted up, jammed to 28 bits and
  handed to `round_and_pack` (`finish_fma`).
-/
import ZincSim.Fpu.Add
import ZincSim.Fpu.Multiply

namespace ZincSim

open Rounding Sticky

/-! ## §1. Wide significands -/

/-- `product_significand` before the alignment. -/
def wideProduct (lhs rhs : UnpackedFp32) : BitVec 64 :=
  productOf lhs rhs <<< (if productAtLeastTwo lhs rhs then 15 else 16)

/-- `addend_significand` before the alignment. -/
def wideAddend (addend : UnpackedFp32) : BitVec 64 := addend.significand.setWidth 64 <<< 39

theorem wideProduct_exact {rawL rawR : BitVec 32} {lhs rhs : UnpackedFp32}
    (hl : Unpacked rawL lhs) (hr : Unpacked rawR rhs) :
    ExactSignificand 15 61 (wideProduct lhs rhs) (productExponent lhs rhs)
      (lhs.magnitude * rhs.magnitude) := by
  -- one proof for both shifts: `n` is the place of the leading bit of the product
  have hwide (n k : ℕ) (hk : n + k = 62) (hk' : 15 ≤ k)
      (hlow : 2 ^ n ≤ (productOf lhs rhs).toNat) (hhigh : (productOf lhs rhs).toNat < 2 ^ (n + 1))
      (e : ℤ) (he : e = lhs.exponent + rhs.exponent + n - 46) :
      ExactSignificand 15 61 (productOf lhs rhs <<< k) e (lhs.magnitude * rhs.magnitude) := by
    have hpos := Nat.two_pow_pos k
    have hlow' : 2 ^ n * 2 ^ k ≤ (productOf lhs rhs).toNat * 2 ^ k := Nat.mul_le_mul_right _ hlow
    have hhigh' : (productOf lhs rhs).toNat * 2 ^ k < 2 ^ (n + 1) * 2 ^ k :=
      Nat.mul_lt_mul_of_pos_right hhigh hpos
    rw [← pow_add, hk] at hlow'
    rw [← pow_add, show n + 1 + k = 63 by omega] at hhigh'
    have hnat : (productOf lhs rhs <<< k).toNat = (productOf lhs rhs).toNat * 2 ^ k := by
      rw [BitVec.toNat_shiftLeft, Nat.shiftLeft_eq, Nat.mod_eq_of_lt (by omega)]
    refine ⟨?_, hnat ▸ hlow', hnat ▸ hhigh', ?_⟩
    · rw [hnat]
      exact dvd_mul_of_dvd_right (pow_dvd_pow 2 hk') _
    · rw [hnat, magnitude_mul hl hr, he,
        show lhs.exponent + rhs.exponent - 46 =
          lhs.exponent + rhs.exponent + n - 46 - ((61 : ℕ) + 1) + k by push_cast; omega,
        zpow_add₀ (by norm_num), zpow_natCast]
      push_cast
      ring
  unfold wideProduct
  obtain ⟨htwo, he, hlow, hhigh⟩ | ⟨htwo, he, hlow, hhigh⟩ := product_cases hl hr
  · rw [htwo]
    exact hwide 47 15 rfl le_rfl hlow hhigh _ (by rw [he]; push_cast; ring)
  · rw [htwo]
    exact hwide 46 16 rfl (by decide) hlow hhigh _ (by rw [he]; push_cast; ring)

theorem wideAddend_exact {raw : BitVec 32} {u : UnpackedFp32} (h : Unpacked raw u) :
    ExactSignificand 15 61 (wideAddend u) u.exponent u.magnitude := by
  have hlow := h.low
  have hhigh := h.high
  have hnat : (wideAddend u).toNat = u.significand.toNat * 2 ^ 39 := by
    rw [wideAddend, BitVec.toNat_shiftLeft, BitVec.toNat_setWidth, Nat.shiftLeft_eq]
    omega
  refine ⟨?_, ?_, ?_, ?_⟩
  · rw [hnat]
    exact dvd_mul_of_dvd_right (pow_dvd_pow 2 (by decide)) _
  · rw [hnat]
    omega
  · rw [hnat]
    omega
  · rw [hnat, UnpackedFp32.magnitude,
      show u.exponent - 23 = u.exponent - ((61 : ℕ) + 1) + (39 : ℕ) by push_cast; ring,
      zpow_add₀ (by norm_num), zpow_natCast]
    push_cast
    ring

/-! ## §2. Alignment and sign -/

theorem alignFma_aligned {p a : BitVec 64} {e f : ℤ} {x y : ℝ}
    (hp : ExactSignificand 15 61 p e x) (ha : ExactSignificand 15 61 a f y) :
    ∃ g l r, alignFma e f p a = (g, l, r) ∧ Aligned 61 l r g x y := by
  unfold alignFma
  split_ifs with hgt hlt
  · exact ⟨_, _, _, rfl, hp.aligned ha hgt.le (by decide) (by decide) le_rfl⟩
  · exact ⟨_, _, _, rfl, (ha.aligned hp hlt.le (by decide) (by decide) le_rfl).symm⟩
  · -- equal exponents: a shift by nothing
    obtain rfl : e = f := by omega
    have haligned := hp.aligned ha le_rfl (by decide) (by decide) le_rfl
    rw [sub_self] at haligned
    exact ⟨_, _, _, rfl, haligned⟩

/-- The signed sum of `compute_fma`. -/
def combineFma (productSign addendSign : Bool) (product addend : BitVec 64) : BitVec 64 × Bool :=
  if productSign = addendSign then (product + addend, productSign)
  else if product ≥ addend then (product - addend, productSign)
  else (addend - product, addendSign)

theorem Aligned.combineFma {l r : BitVec 64} {e : ℤ} {x y : ℝ} (h : Aligned 61 l r e x y)
    (s t : Bool) (hne : signed s x + signed t y ≠ 0) :
    ∃ significand sign z, combineFma s t l r = (significand, sign) ∧
      StickySignificand 61 significand e z ∧ signed s x + signed t y = signed sign z := by
  -- equal significands of opposite sign would cancel, which the hypothesis excludes
  unfold ZincSim.combineFma
  obtain ⟨hsign, hsum, hexact⟩ | ⟨hsign, hcmp, hdiff, hexact⟩ | ⟨hsign, hcmp, hdiff, hexact⟩ :=
    h.signed_cases s t hne
  · rw [if_pos hsign]
    exact ⟨_, _, _, rfl, hsum, hexact⟩
  · have hge : l ≥ r := Nat.le_of_lt hcmp
    rw [if_neg hsign, if_pos hge]
    exact ⟨_, _, _, rfl, hdiff, hexact⟩
  · have hlt : ¬ l ≥ r := Nat.not_le.mpr hcmp
    rw [if_neg hsign, if_neg hlt]
    exact ⟨_, _, _, rfl, hdiff, hexact⟩

/-! ## §3. Normalisation -/

/-- The loop condition: neither of the two highest bits is set. -/
theorem wide_bits_clear_iff (s : BitVec 64) :
    s &&& (fp32WideHiddenBit ||| (1#64 <<< 63)) = 0 ↔ s.toNat < 2 ^ 62 := by
  have hmask : fp32WideHiddenBit ||| (1#64 <<< 63) = ~~~BitVec.ofNat 64 (2 ^ 62 - 1) := by decide
  rw [hmask, ← BitField.and_eq_self_iff, BitField.and_lowMask_eq_iff s 62 (by decide)]

theorem shiftUpToWideHidden_spec {s : BitVec 64} (e : ℤ) (hpos : 0 < s.toNat) :
    ∃ (s' : BitVec 64) (k : ℕ), shiftUpToWideHidden 64 s e = .ok (s', e - k) ∧
      s'.toNat = s.toNat * 2 ^ k ∧ 2 ^ 62 ≤ s'.toNat ∧ (k = 0 ∨ s'.toNat < 2 ^ 63) :=
  normalize_loop (fun _ _ _ => rfl) (fun t _ => wide_bits_clear_iff t) (by decide) le_rfl 63 s e
    s.isLt (by omega)

/-- **The end of `compute_fma`**, with the rounding of its result. -/
theorem finish_fma {s : BitVec 64} {e : ℤ} {x : ℝ} (h : StickySignificand 61 s e x) :
    ∃ s' e', shiftUpToWideHidden 64 s e = .ok (s', e') ∧
      2 ^ 26 ≤ (shiftRightJam s' 36).toNat ∧ (shiftRightJam s' 36).toNat < 2 ^ 28 ∧
      ∀ sign mode, roundAndPack sign e' (shiftRightJam s' 36) (roundingMode mode) =
        .ok (packExact sign mode x) := by
  obtain ⟨s', k, hrun, hval, hlow, hk⟩ := shiftUpToWideHidden_spec e h.nonzero
  have hjam := toNat_shiftRightJam s' 36
  have hs' := s'.isLt
  have hunit : (0 : ℝ) < 2 ^ (e - ((61 : ℕ) + 1)) := by positivity
  have hagree_jam := agree_jam (K := ℝ) s'.toNat 36
  have hlow' : 2 ^ 26 ≤ (shiftRightJam s' 36).toNat := by
    have hle := le_jam s'.toNat 36
    omega
  have hhigh' : (shiftRightJam s' 36).toNat < 2 ^ 28 := by
    have hcast : (s'.toNat : ℝ) < 2 ^ 64 := by exact_mod_cast hs'
    have hquot : (s'.toNat : ℝ) / 2 ^ 36 < 2 ^ 28 := by linarith
    rw [hjam]
    exact_mod_cast (hagree_jam.lt_two_pow_iff (by decide)).mpr hquot
  -- the bits above the jam are those of the number, shifted by the loop
  have hagree : Agree 2 ((s'.toNat : ℝ) / 2 ^ 36)
      (x / 2 ^ (e - ((61 : ℕ) + 1)) * 2 ^ k / 2 ^ 36) := by
    have hcast : (s'.toNat : ℝ) = s.toNat * 2 ^ k := by exact_mod_cast hval
    rw [hcast]
    obtain hexact | ⟨hsticky, hbits⟩ := h.standsFor
    · rw [hexact]
      exact Agree.refl _ _
    · -- with a sticky bit the loop makes at most one round
      have hk1 : k ≤ 1 := by
        by_contra hgt
        have htwo : 2 ^ 2 ≤ 2 ^ k := Nat.pow_le_pow_right (by decide) (by omega)
        have hmul : s.toNat * 2 ^ 2 ≤ s.toNat * 2 ^ k := Nat.mul_le_mul_left _ htwo
        omega
      have hscaled := (hsticky.scale (c := 2 ^ k) (by positivity)).div (c := 2 ^ 36) (by positivity)
      rw [mul_comm _ (s.toNat : ℝ), mul_comm _ (x / _), ← pow_succ,
        show (2 : ℝ) ^ (k + 1) / 2 ^ 36 = 2 ^ ((k : ℤ) - 35) by
          rw [← zpow_natCast, ← zpow_natCast, two_zpow_div]
          congr 1
          push_cast
          ring] at hscaled
      have hcoarse := hscaled.coarsen_zpow (j := 1) (by omega)
      rwa [zpow_one] at hcoarse
  refine ⟨s', e - k, hrun, hlow', hhigh', fun sign mode => ?_⟩
  have hround := hjam ▸ hagree_jam.trans hagree
  rw [roundAndPack_of_agree sign mode (e - k) (by omega) hhigh' hround]
  -- the exponent went down by `k` and the jam took 36 bits off
  have hexp : (2 : ℝ) ^ (e - k - 26) = 2 ^ (e - ((61 : ℕ) + 1)) * 2 ^ 36 / 2 ^ k := by
    rw [← zpow_natCast, ← zpow_natCast, ← zpow_add₀ (by norm_num), two_zpow_div]
    congr 1
    push_cast
    ring
  rw [hexp]
  congr 2
  field_simp

/-! ## §4. `Fpu::fma` -/

/-- `compute_fma` after the alignment and the sum. -/
theorem computeFma_eq {lhs rhs addend : UnpackedFp32} {s t : Bool} {g : ℤ} {l r : BitVec 64}
    {significand : BitVec 64} {sign : Bool}
    (halign : alignFma (productExponent lhs rhs)
      (if wideAddend addend = 0 then productExponent lhs rhs else addend.exponent)
      (wideProduct lhs rhs) (wideAddend addend) = (g, l, r))
    (hcombine : combineFma s t l r = (significand, sign)) :
    computeFma lhs rhs addend s t =
      if significand = 0 then .ok { sign := false, exponent := g, significand := 0 }
      else do
        let (significand, exponent) ← shiftUpToWideHidden 64 significand g
        return {
          sign := sign, exponent := exponent, significand := shiftRightJam significand 36 } := by
  unfold wideAddend wideProduct productExponent productAtLeastTwo productOf at halign
  unfold combineFma at hcombine
  unfold computeFma
  dsimp only
  rw [halign]
  dsimp only
  rw [hcombine]
  rfl

/-- `compute_fma` followed by `round_and_pack`, from the aligned operands. -/
theorem computeFma_rounds {lhs rhs addend : UnpackedFp32} {s t : Bool} {g : ℤ} {l r : BitVec 64}
    {significand : BitVec 64} {sign : Bool} {z : ℝ}
    (halign : alignFma (productExponent lhs rhs)
      (if wideAddend addend = 0 then productExponent lhs rhs else addend.exponent)
      (wideProduct lhs rhs) (wideAddend addend) = (g, l, r))
    (hcombine : combineFma s t l r = (significand, sign))
    (hsticky : StickySignificand 61 significand g z) :
    ∃ result, computeFma lhs rhs addend s t = .ok result ∧
      2 ^ 26 ≤ result.significand.toNat ∧ result.significand.toNat < 2 ^ 28 ∧
      result.sign = sign ∧ ∀ mode,
        roundAndPack sign result.exponent result.significand (roundingMode mode) =
          .ok (packExact sign mode z) := by
  obtain ⟨s', e', hrun, hlow, hhigh, hround⟩ := finish_fma hsticky
  have hne : significand ≠ 0 := by
    rintro rfl
    exact absurd hsticky.nonzero (by decide)
  refine ⟨⟨sign, e', shiftRightJam s' 36⟩, ?_, hlow, hhigh, rfl, hround sign⟩
  rw [computeFma_eq halign hcombine, if_neg hne, hrun]
  rfl

/-- The nonzero product and any addend. -/
theorem computeFma_of_operands {rawL rawR : BitVec 32} {lhs rhs addend : UnpackedFp32}
    (hl : Unpacked rawL lhs) (hr : Unpacked rawR rhs) {c : ℝ}
    (haddend : (addend.significand = 0 ∧ c = 0) ∨
      ∃ raw, Unpacked raw addend ∧ c = addend.magnitude) (s t : Bool)
    (hne : signed s (lhs.magnitude * rhs.magnitude) + signed t c ≠ 0) :
    ∃ result z, computeFma lhs rhs addend s t = .ok result ∧
      2 ^ 26 ≤ result.significand.toNat ∧ result.significand.toNat < 2 ^ 28 ∧ 0 < z ∧
      signed s (lhs.magnitude * rhs.magnitude) + signed t c = signed result.sign z ∧ ∀ mode,
        roundAndPack result.sign result.exponent result.significand (roundingMode mode) =
          .ok (packExact result.sign mode z) := by
  have hproduct := wideProduct_exact hl hr
  obtain ⟨hzero, rfl⟩ | ⟨raw, ha, rfl⟩ := haddend
  · -- a zero addend takes the exponent of the product and changes nothing
    have hwide : wideAddend addend = 0 := by
      rw [wideAddend, hzero]
      rfl
    have halign : alignFma (productExponent lhs rhs)
        (if wideAddend addend = 0 then productExponent lhs rhs else addend.exponent)
        (wideProduct lhs rhs) (wideAddend addend) =
        (productExponent lhs rhs, wideProduct lhs rhs, 0) := by
      rw [if_pos hwide, hwide]
      unfold alignFma
      rw [if_neg (lt_irrefl _), if_neg (lt_irrefl _)]
    -- 0 is the smaller operand, whichever sign it has
    have hcombine : combineFma s t (wideProduct lhs rhs) 0 = (wideProduct lhs rhs, s) := by
      have hge : wideProduct lhs rhs ≥ 0 := Nat.zero_le _
      unfold combineFma
      rw [if_pos hge]
      split_ifs
      · rw [show wideProduct lhs rhs + 0 = wideProduct lhs rhs from BitVec.add_zero _]
      · rw [show wideProduct lhs rhs - 0 = wideProduct lhs rhs from BitVec.sub_zero _]
    obtain ⟨result, hrun, hlow, hhigh, hsign, hround⟩ :=
      computeFma_rounds halign hcombine hproduct.sticky
    subst hsign
    exact ⟨result, _, hrun, hlow, hhigh, hproduct.pos, by rw [signed_zero, add_zero], hround⟩
  · have haddend := wideAddend_exact ha
    have hwide : wideAddend addend ≠ 0 := by
      intro hzero
      have hlow := haddend.low
      rw [hzero] at hlow
      exact absurd hlow (by decide)
    obtain ⟨g, l, r, halign, haligned⟩ := alignFma_aligned hproduct haddend
    obtain ⟨significand, sign, z, hcombine, hsticky, hexact⟩ := haligned.combineFma s t hne
    have halign' : alignFma (productExponent lhs rhs)
        (if wideAddend addend = 0 then productExponent lhs rhs else addend.exponent)
        (wideProduct lhs rhs) (wideAddend addend) = (g, l, r) := by
      rw [if_neg hwide]
      exact halign
    obtain ⟨result, hrun, hlow, hhigh, hsign, hround⟩ :=
      computeFma_rounds halign' hcombine hsticky
    subst hsign
    exact ⟨result, z, hrun, hlow, hhigh, hsticky.pos, hexact, hround⟩

theorem fmaValue_eq_signed (type : FmaFpType) (p a : ℚ) :
    ((fmaValue type p a : ℚ) : ℝ) =
      signed (fmaNegations type).1 p + signed (fmaNegations type).2 a := by
  cases type <;> simp [fmaValue, fmaNegations, signed, sub_eq_add_neg]

section Operands

variable {type : FmaFpType} {lhsRaw rhsRaw addendRaw : BitVec 32} {x y z : ℚ}
  {lhs rhs addend : UnpackedFp32} (hl : FiniteOperand lhsRaw x lhs)
  (hr : FiniteOperand rhsRaw y rhs)
  (ha : FiniteOperand addendRaw z addend) {negateProduct negateAddend : Bool}
  (hneg : fmaNegations type = (negateProduct, negateAddend)) (mode : Mode)

include hl hr ha hneg

/-- A zero product passes the addend on. -/
theorem fma_of_zero_product (hxy : x * y = 0) (hz : z ≠ 0) :
    RoundsTo (Fpu.fma type lhsRaw rhsRaw addendRaw (roundingMode mode)) mode
      (signed negateAddend z) := by
  have hpass := ha.passed_on hz negateAddend mode
  have hazero : addend.fpClass ≠ .zero := fun h => hz (ha.zero_iff.mp h)
  have hzeros : (decide (lhs.fpClass = .zero) || decide (rhs.fpClass = .zero)) = true := by
    rcases mul_eq_zero.mp hxy with h0 | h0
    · rw [decide_eq_true (hl.zero_iff.mpr h0), Bool.true_or]
    · rw [decide_eq_true (hr.zero_iff.mpr h0), Bool.or_true]
  unfold Fpu.fma
  simpa only [hneg, hl.unpack, hr.unpack, ha.unpack, bind, Except.bind, pure, Except.pure,
    hl.isNan, hr.isNan, ha.isNan, hl.not_infinity, hr.not_infinity, ha.not_infinity, hazero,
    hzeros, decide_false, Bool.and_false, Bool.false_and, Bool.or_self, Bool.false_eq_true,
    if_false, if_true] using hpass

/-- Past the special branches: `compute_fma` and the rounding of its result. -/
theorem fma_finite (hx : x ≠ 0) (hy : y ≠ 0) (rm : RoundingMode) :
    Fpu.fma type lhsRaw rhsRaw addendRaw rm = (do
      let result ← computeFma lhs rhs addend (lhs.sign ^^ rhs.sign ^^ negateProduct)
        (addend.sign ^^ negateAddend)
      let sign := if result.significand = 0 then decide (rm = .rdn) else result.sign
      roundAndPack sign result.exponent result.significand rm) := by
  have hlzero : lhs.fpClass ≠ .zero := fun h => hx (hl.zero_iff.mp h)
  have hrzero : rhs.fpClass ≠ .zero := fun h => hy (hr.zero_iff.mp h)
  unfold Fpu.fma
  simp only [hneg, hl.unpack, hr.unpack, ha.unpack, bind, Except.bind, pure, Except.pure,
    hl.isNan, hr.isNan, ha.isNan, hl.not_infinity, hr.not_infinity, ha.not_infinity, hlzero,
    hrzero, decide_false, Bool.and_self, Bool.or_self, Bool.false_eq_true, if_false]

variable (negateProduct negateAddend) in
omit hneg in
/-- The exact sum in signs and magnitudes; a zero addend has no magnitude. -/
theorem fma_sum (hx : x ≠ 0) (hy : y ≠ 0) :
    ∃ c, ((addend.significand = 0 ∧ c = 0) ∨
        ∃ raw, Unpacked raw addend ∧ c = addend.magnitude) ∧
      signed negateProduct ((x * y : ℚ) : ℝ) + signed negateAddend z =
        signed (lhs.sign ^^ rhs.sign ^^ negateProduct) (lhs.magnitude * rhs.magnitude) +
          signed (addend.sign ^^ negateAddend) c := by
  have hproduct : signed negateProduct ((x * y : ℚ) : ℝ) =
      signed (lhs.sign ^^ rhs.sign ^^ negateProduct) (lhs.magnitude * rhs.magnitude) := by
    rw [Rat.cast_mul, hl.value hx, hr.value hy, signed_mul, signed_signed]
  rw [hproduct]
  by_cases hz : z = 0
  · refine ⟨0, .inl ⟨ha.significand_of_zero hz, rfl⟩, ?_⟩
    rw [hz, Rat.cast_zero, signed_zero, signed_zero]
  · exact ⟨_, .inr ⟨_, ha.unpacked hz, rfl⟩, by rw [ha.value hz, signed_signed]⟩

/-- A nonzero product goes through `compute_fma`. -/
theorem fma_of_product (hx : x ≠ 0) (hy : y ≠ 0)
    (hne : signed negateProduct ((x * y : ℚ) : ℝ) + signed negateAddend z ≠ 0) :
    RoundsTo (Fpu.fma type lhsRaw rhsRaw addendRaw (roundingMode mode)) mode
      (signed negateProduct ((x * y : ℚ) : ℝ) + signed negateAddend z) := by
  obtain ⟨c, hc, hsum⟩ := fma_sum hl hr ha negateProduct negateAddend hx hy
  rw [hsum] at hne ⊢
  obtain ⟨result, w, hrun, hlow, -, hw, hexact, hround⟩ :=
    computeFma_of_operands (hl.unpacked hx) (hr.unpacked hy) hc _ _ hne
  have hnz : result.significand ≠ 0 := by
    intro hzero
    rw [hzero] at hlow
    exact absurd hlow (by decide)
  rw [hexact]
  apply roundsTo_signed hw
  rw [← hround mode, fma_finite hl hr ha hneg hx hy, hrun]
  simp only [bind, Except.bind, if_neg hnz]

end Operands

/-- **`fma` rounds product and sum once.** -/
theorem fma_rounds (type : FmaFpType) {lhsRaw rhsRaw addendRaw : BitVec 32} {x y z : ℚ}
    (hx : Binary32.value lhsRaw = some x) (hy : Binary32.value rhsRaw = some y)
    (hz : Binary32.value addendRaw = some z) (mode : Mode)
    (hne : ((fmaValue type (x * y) z : ℚ) : ℝ) ≠ 0) :
    RoundsTo (Fpu.fma type lhsRaw rhsRaw addendRaw (roundingMode mode)) mode
      ((fmaValue type (x * y) z : ℚ) : ℝ) := by
  obtain ⟨lhs, hl⟩ := FiniteOperand.of_value hx
  obtain ⟨rhs, hr⟩ := FiniteOperand.of_value hy
  obtain ⟨addend, ha⟩ := FiniteOperand.of_value hz
  rw [fmaValue_eq_signed] at hne ⊢
  generalize hneg : fmaNegations type = negations at hne ⊢
  obtain ⟨negateProduct, negateAddend⟩ := negations
  by_cases hxy : x * y = 0
  · rw [hxy, Rat.cast_zero, signed_zero, zero_add] at hne ⊢
    have hz0 : z ≠ 0 := by
      rintro rfl
      rw [Rat.cast_zero, signed_zero] at hne
      exact hne rfl
    exact fma_of_zero_product hl hr ha hneg mode hxy hz0
  · obtain ⟨hx0, hy0⟩ := mul_ne_zero_iff.mp hxy
    exact fma_of_product hl hr ha hneg mode hx0 hy0 hne

end ZincSim
