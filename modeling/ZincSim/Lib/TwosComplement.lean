/-
  ZincSim.Lib.TwosComplement — bit vectors as the integers they stand for.

  Division and remainder as integer operations, the high word of a product and its
  signed corrections, and sign extension by a mask.  Generic in the width.
-/
import ZincSim.Lib.BitField

namespace TwosComplement

variable {w : Nat}

/-! ## §1. Division -/

theorem sdiv_eq_ofInt (a b : BitVec w) : a.sdiv b = BitVec.ofInt w (a.toInt.tdiv b.toInt) := by
  apply BitVec.eq_of_toInt_eq
  rw [BitVec.toInt_sdiv, BitVec.toInt_ofInt]

theorem srem_eq_ofInt (a b : BitVec w) : a.srem b = BitVec.ofInt w (a.toInt.tmod b.toInt) := by
  rw [← BitVec.toInt_srem, BitVec.ofInt_toInt]

theorem udiv_eq_ofNat (a b : BitVec w) : a / b = BitVec.ofNat w (a.toNat / b.toNat) := by
  rw [← BitVec.toNat_udiv, BitVec.ofNat_toNat, BitVec.setWidth_eq]

theorem umod_eq_ofNat (a b : BitVec w) : a % b = BitVec.ofNat w (a.toNat % b.toNat) := by
  rw [← BitVec.toNat_umod, BitVec.ofNat_toNat, BitVec.setWidth_eq]

theorem ofInt_neg_one : BitVec.ofInt w (-1) = BitVec.allOnes w := by
  rw [BitVec.ofInt_neg]
  exact BitVec.neg_one_eq_allOnes

/-- Division that truncates toward zero. -/
structure Truncates (a b q r : ℤ) : Prop where
  value : a = q * b + r
  bound : |r| < |b|
  sign : r = 0 ∨ r.sign = a.sign

theorem truncates_tdiv (a : ℤ) {b : ℤ} (hb : b ≠ 0) : Truncates a b (a.tdiv b) (a.tmod b) where
  value := (Int.tdiv_mul_add_tmod a b).symm
  bound := by
    rw [Int.abs_eq_natAbs, Int.abs_eq_natAbs, Int.natAbs_tmod]
    exact_mod_cast Nat.mod_lt _ (Int.natAbs_pos.mpr hb)
  sign := by
    by_cases hdvd : b ∣ a
    · exact .inl (Int.tmod_eq_zero_of_dvd hdvd)
    · exact .inr ((Int.sign_tmod a b).trans (if_neg hdvd))

/-- Signed division of words truncates, unless the quotient does not fit. -/
theorem truncates_sdiv {a b : BitVec w} (hb : b ≠ 0) (h : a ≠ BitVec.intMin w ∨ b ≠ -1) :
    Truncates a.toInt b.toInt (a.sdiv b).toInt (a.srem b).toInt := by
  have hb' : b.toInt ≠ 0 := fun h0 => hb (BitVec.eq_of_toInt_eq (h0.trans BitVec.toInt_zero.symm))
  rw [BitVec.toInt_sdiv_of_ne_or_ne a b h, BitVec.toInt_srem]
  exact truncates_tdiv _ hb'

/-! ## §2. The high word of a product -/

/-- The high word of a product from the four products of the half words. -/
theorem high_of_halves {k : Nat} (hk : 0 < k) (ah al bh bl : Nat) :
    ah * bh + al * bh / k + ah * bl / k + (al * bl / k + al * bh % k + ah * bl % k) / k =
      (ah * k + al) * (bh * k + bl) / (k * k) := by
  have hexpand : (ah * k + al) * (bh * k + bl) =
      al * bl + k * (al * bh + ah * bl + k * (ah * bh)) := by ring
  -- quotient and remainder of the middle products, regrouped around one carry
  have hmid : al * bl / k + (al * bh + ah * bl + k * (ah * bh)) =
      (al * bl / k + al * bh % k + ah * bl % k) +
        k * (al * bh / k + ah * bl / k + ah * bh) := by
    have hlh := Nat.div_add_mod (al * bh) k
    have hhl := Nat.div_add_mod (ah * bl) k
    rw [Nat.mul_add, Nat.mul_add]
    omega
  rw [hexpand, ← Nat.div_div_eq_div_mul, Nat.add_mul_div_left _ _ hk, hmid,
    Nat.add_mul_div_left _ _ hk]
  omega

/-- The two's-complement value of a word is its natural value less `2 ^ w` when
negative. -/
theorem toInt_eq_sub (a : BitVec w) :
    a.toInt = a.toNat - 2 ^ w * (if a.msb then 1 else 0 : Int) := by
  rw [BitVec.toInt_eq_msb_cond]
  split <;> simp

/-- Dropping a multiple of the modulus below a high word. -/
theorem ofInt_high_sub (p c : Int) :
    BitVec.ofInt w ((p - 2 ^ w * c) / 2 ^ w) = BitVec.ofInt w (p / 2 ^ w) - BitVec.ofInt w c := by
  have hpos : (2 : Int) ^ w ≠ 0 := by positivity
  rw [sub_eq_add_neg, ← mul_neg, Int.add_mul_ediv_left _ _ hpos, BitVec.ofInt_add,
    BitVec.ofInt_neg, BitVec.sub_eq_add_neg]

theorem ofInt_natCast_mul_div (m n : Nat) :
    BitVec.ofInt w ((m : Int) * n / 2 ^ w) = BitVec.ofNat w (m * n / 2 ^ w) := by
  rw [← BitVec.ofInt_natCast]
  push_cast
  rfl

/-- A negative factor takes the other one off the high word. -/
theorem high_mulhsu (a b : BitVec w) :
    BitVec.ofInt w (a.toInt * b.toNat / 2 ^ w) =
      if a.msb then BitVec.ofNat w (a.toNat * b.toNat / 2 ^ w) - b
      else BitVec.ofNat w (a.toNat * b.toNat / 2 ^ w) := by
  have hprod : a.toInt * b.toNat =
      (a.toNat : Int) * b.toNat - 2 ^ w * ((if a.msb then 1 else 0 : Int) * b.toNat) := by
    rw [toInt_eq_sub]
    ring
  -- the multiple of 2^w leaves the high word as a subtraction
  rw [hprod, ofInt_high_sub, ofInt_natCast_mul_div]
  cases a.msb with
  | false => simp
  | true => simp

/-- Both factors signed: one correction each. -/
theorem high_mulh (a b : BitVec w) :
    BitVec.ofInt w (a.toInt * b.toInt / 2 ^ w) =
      if b.msb then BitVec.ofInt w (a.toInt * b.toNat / 2 ^ w) - a
      else BitVec.ofInt w (a.toInt * b.toNat / 2 ^ w) := by
  have hprod : a.toInt * b.toInt =
      a.toInt * b.toNat - 2 ^ w * ((if b.msb then 1 else 0 : Int) * a.toInt) := by
    rw [toInt_eq_sub b]
    ring
  rw [hprod, ofInt_high_sub]
  cases b.msb with
  | false => simp
  | true => simp

/-- The two words of a number: a signed high word over an unsigned low one. -/
theorem eq_words {p : ℤ} (hw : 0 < w) (hlow : -2 ^ (w - 1) * 2 ^ w ≤ p)
    (hhigh : p < 2 ^ (w - 1) * 2 ^ w) :
    p = (BitVec.ofInt w (p / 2 ^ w)).toInt * 2 ^ w + (BitVec.ofInt w p).toNat := by
  have hpos : (0 : ℤ) < 2 ^ w := by positivity
  have hfits : (BitVec.ofInt w (p / 2 ^ w)).toInt = p / 2 ^ w :=
    BitVec.toInt_ofInt_eq_self hw (Int.le_ediv_of_mul_le hpos hlow)
      (Int.ediv_lt_of_lt_mul hpos hhigh)
  rw [hfits, BitVec.toNat_ofInt, Int.toNat_of_nonneg (Int.emod_nonneg _ (by positivity))]
  push_cast
  rw [mul_comm]
  exact (Int.mul_ediv_add_emod p (2 ^ w)).symm

/-- The low word of a product does not depend on how the factors are read. -/
theorem ofInt_product (a b : BitVec w) : BitVec.ofInt w (a.toInt * b.toInt) = a * b ∧
    BitVec.ofInt w (a.toInt * b.toNat) = a * b := by
  have hnat : BitVec.ofInt w (b.toNat : ℤ) = b := by
    rw [BitVec.ofInt_natCast, BitVec.ofNat_toNat, BitVec.setWidth_eq]
  constructor
  · rw [BitVec.ofInt_mul, BitVec.ofInt_toInt, BitVec.ofInt_toInt]
  · rw [BitVec.ofInt_mul, BitVec.ofInt_toInt, hnat]

/-! ## §3. The sign bit -/

theorem and_signBit_ne_zero (x : BitVec w) (hw : 0 < w) :
    x &&& (1#w <<< (w - 1)) ≠ 0 ↔ x.msb = true := by
  rw [Ne, BitField.and_bit_eq_zero_iff x (by omega), ← BitVec.msb_eq_getLsbD_last,
    Bool.not_eq_false]

/-- Sign extension sets the bits above a negative word. -/
theorem signExtend_eq_or {v : Nat} (x : BitVec w) :
    x.signExtend v =
      if x.msb then (BitVec.allOnes v <<< w) ||| x.setWidth v else x.setWidth v := by
  apply BitVec.eq_of_getLsbD_eq
  intro i hi
  rw [BitVec.getLsbD_signExtend]
  -- below the width the bits of `x`, above it copies of its sign
  by_cases hiw : i < w
  · cases x.msb <;> simp [hi, hiw]
  · cases x.msb <;> simp [hi, hiw, BitVec.getLsbD_of_ge x i (by omega)]

theorem setWidth_signExtend {v : Nat} (x : BitVec w) (h : w ≤ v) :
    (x.signExtend v).setWidth w = x := by
  apply BitVec.eq_of_getLsbD_eq
  intro i hi
  have hiv : i < v := by omega
  rw [BitVec.getLsbD_setWidth, BitVec.getLsbD_signExtend]
  simp [hi, hiv]

/-- Cutting the word of an integer cuts nothing else. -/
theorem setWidth_ofInt {v : Nat} (x : ℤ) (h : w ≤ v) :
    (BitVec.ofInt v x).setWidth w = BitVec.ofInt w x := by
  have hdvd : ((2 ^ w : ℕ) : ℤ) ∣ ((2 ^ v : ℕ) : ℤ) := Int.natCast_dvd_natCast.mpr (pow_dvd_pow 2 h)
  have hpos (n : ℕ) : ((2 ^ n : ℕ) : ℤ) ≠ 0 := by positivity
  apply BitVec.eq_of_toNat_eq
  rw [BitVec.toNat_setWidth, BitVec.toNat_ofInt, BitVec.toNat_ofInt]
  apply Int.ofNat_inj.mp
  rw [Int.natCast_mod, Int.toNat_of_nonneg (Int.emod_nonneg _ (hpos v)),
    Int.toNat_of_nonneg (Int.emod_nonneg _ (hpos w)), Int.emod_emod_of_dvd _ hdvd]

theorem signExtend_eq_zero_iff {v : Nat} (x : BitVec w) (h : w ≤ v) :
    x.signExtend v = 0 ↔ x = 0 := by
  constructor
  · intro hzero
    rw [← setWidth_signExtend x h, hzero]
    exact BitVec.setWidth_zero ..
  · rintro rfl
    apply BitVec.eq_of_toInt_eq
    rw [BitVec.toInt_signExtend_of_le h]
    exact BitVec.toInt_zero.trans BitVec.toInt_zero.symm

theorem setWidth_eq_zero_iff {v : Nat} (x : BitVec w) (h : w ≤ v) :
    x.setWidth v = 0 ↔ x = 0 := by
  rw [← BitVec.toNat_inj, ← BitVec.toNat_inj, BitVec.toNat_setWidth_of_le h]
  exact Iff.rfl

end TwosComplement
