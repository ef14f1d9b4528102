/-
  ZincSim.Lib.NumericOrder — the numeric order of binary32 patterns, read off their bits.

  `extended` is the value of a pattern, with the two infinities; a NaN has none.  The
  exponent and fraction fields, as one number, order the magnitudes (`magnitude_lt_iff`),
  so the sign and that number order the values (`extended_lt_iff`): only the two zeros are
  equal without being the same pattern.  `AtMost` is the order that puts -0 below +0.
-/
import ZincSim.Lib.Binary32

namespace Binary32

/-! ## §1. Magnitudes -/

/-- Exponent and fraction as one number. -/
def magnitudeBits (pattern : BitVec 32) : ℕ :=
  (exponent pattern).toNat * 2 ^ 23 + (fraction pattern).toNat

/-- The exponent field of a subnormal stands for the one of the smallest normal numbers. -/
theorem magnitude_eq (pattern : BitVec 32) : magnitude pattern =
    ((if exponent pattern = 0 then 0 else 2 ^ 23) + (fraction pattern).toNat : ℕ) *
      2 ^ ((max (exponent pattern).toNat 1 : ℤ) - 150) := by
  unfold magnitude
  by_cases h : exponent pattern = 0
  · have hmax : (max (exponent pattern).toNat 1 : ℤ) - 150 = -149 := by
      rw [h]
      rfl
    rw [if_pos h, if_pos h, zero_add, hmax]
  · have hpos : 0 < (exponent pattern).toNat := BitVec.toNat_pos_of_ne_zero h
    have hmax : (max (exponent pattern).toNat 1 : ℤ) = (exponent pattern).toNat :=
      max_eq_left (by omega)
    rw [if_neg h, if_neg h, hmax]
    push_cast
    rfl

/-- Below the next exponent field. -/
theorem magnitude_lt_next (pattern : BitVec 32) :
    magnitude pattern < 2 ^ 23 * 2 ^ (((exponent pattern).toNat : ℤ) + 1 - 150) := by
  have hfrac := (fraction pattern).isLt
  rw [magnitude_eq]
  by_cases h : exponent pattern = 0
  · rw [if_pos h, h, zero_add]
    have hlt : ((fraction pattern).toNat : ℚ) < 2 ^ 23 := by exact_mod_cast hfrac
    exact mul_lt_mul_of_pos_right hlt (by positivity)
  · have hpos : 0 < (exponent pattern).toNat := BitVec.toNat_pos_of_ne_zero h
    have hmax : (max (exponent pattern).toNat 1 : ℤ) = (exponent pattern).toNat :=
      max_eq_left (by omega)
    have hlt : ((2 ^ 23 + (fraction pattern).toNat : ℕ) : ℚ) < 2 ^ 23 * 2 := by
      exact_mod_cast (by omega : 2 ^ 23 + (fraction pattern).toNat < 2 ^ 23 * 2)
    rw [if_neg h, hmax, show ((exponent pattern).toNat : ℤ) + 1 - 150 =
      ((exponent pattern).toNat : ℤ) - 150 + 1 by ring, zpow_add_one₀ (by norm_num), mul_comm _ 2,
      ← mul_assoc]
    exact mul_lt_mul_of_pos_right hlt (by positivity)

/-- From a normal exponent field on. -/
theorem le_magnitude {pattern : BitVec 32} (h : exponent pattern ≠ 0) :
    2 ^ 23 * 2 ^ (((exponent pattern).toNat : ℤ) - 150) ≤ magnitude pattern := by
  have hge : (2 : ℚ) ^ 23 ≤ 2 ^ 23 + (fraction pattern).toNat :=
    le_add_of_nonneg_right (Nat.cast_nonneg _)
  rw [magnitude, if_neg h]
  exact mul_le_mul_of_nonneg_right hge (by positivity)

theorem magnitude_lt_of_bits {p q : BitVec 32} (h : magnitudeBits p < magnitudeBits q) :
    magnitude p < magnitude q := by
  have hp := (fraction p).isLt
  have hq := (fraction q).isLt
  unfold magnitudeBits at h
  rcases Nat.lt_or_ge (exponent p).toNat (exponent q).toNat with hlt | hge
  · -- the magnitudes of different exponent fields do not overlap
    have hne : exponent q ≠ 0 := by
      intro h0
      rw [h0] at hlt
      exact absurd hlt (Nat.not_lt_zero _)
    have hpow : (2 : ℚ) ^ (((exponent p).toNat : ℤ) + 1 - 150) ≤
        2 ^ (((exponent q).toNat : ℤ) - 150) :=
      zpow_le_zpow_right₀ (by norm_num) (by omega)
    calc magnitude p < 2 ^ 23 * 2 ^ (((exponent p).toNat : ℤ) + 1 - 150) := magnitude_lt_next p
      _ ≤ 2 ^ 23 * 2 ^ (((exponent q).toNat : ℤ) - 150) :=
          mul_le_mul_of_nonneg_left hpow (by positivity)
      _ ≤ magnitude q := le_magnitude hne
  · have hexp : exponent p = exponent q := BitVec.eq_of_toNat_eq (by omega)
    rw [hexp] at h
    have hfrac : (if exponent q = 0 then 0 else 2 ^ 23) + (fraction p).toNat <
        (if exponent q = 0 then 0 else 2 ^ 23) + (fraction q).toNat := by omega
    rw [magnitude_eq, magnitude_eq, hexp]
    exact mul_lt_mul_of_pos_right (Nat.cast_lt.mpr hfrac) (by positivity)

theorem magnitude_eq_of_bits {p q : BitVec 32} (h : magnitudeBits p = magnitudeBits q) :
    exponent p = exponent q ∧ fraction p = fraction q := by
  have hp := (fraction p).isLt
  have hq := (fraction q).isLt
  unfold magnitudeBits at h
  exact ⟨BitVec.eq_of_toNat_eq (by omega), BitVec.eq_of_toNat_eq (by omega)⟩

/-- **The bits below the sign order the magnitudes.** -/
theorem magnitude_lt_iff (p q : BitVec 32) :
    magnitude p < magnitude q ↔ magnitudeBits p < magnitudeBits q := by
  refine ⟨fun h => ?_, magnitude_lt_of_bits⟩
  by_contra hge
  rcases Nat.lt_or_eq_of_le (not_lt.mp hge) with hlt | heq
  · exact absurd (magnitude_lt_of_bits hlt) (not_lt.mpr h.le)
  · obtain ⟨he, hf⟩ := magnitude_eq_of_bits heq
    rw [magnitude, magnitude, he, hf] at h
    exact lt_irrefl _ h

/-! ## §2. Signs -/

/-- The number of a pattern; for an infinity the next power of two after the finite ones. -/
def number (pattern : BitVec 32) : ℚ :=
  if sign pattern then -magnitude pattern else magnitude pattern

/-- Sign and magnitude as an integer. -/
def orderKey (pattern : BitVec 32) : ℤ :=
  if sign pattern then -magnitudeBits pattern else magnitudeBits pattern

theorem magnitude_pos_iff (pattern : BitVec 32) :
    0 < magnitude pattern ↔ 0 < magnitudeBits pattern := by
  have h := magnitude_lt_iff (pack false 0 0) pattern
  have hzero : magnitude (pack false 0 0) = 0 :=
    (magnitude_eq_zero_iff _).mpr ⟨exponent_pack _ _ _, fraction_pack _ _ _⟩
  have hbits : magnitudeBits (pack false 0 0) = 0 := by
    rw [magnitudeBits, exponent_pack, fraction_pack]
    rfl
  rwa [hzero, hbits] at h

/-- **Sign and bits order the numbers.** -/
theorem number_lt_iff (p q : BitVec 32) : number p < number q ↔ orderKey p < orderKey q := by
  have hp := magnitude_nonneg p
  have hq := magnitude_nonneg q
  have hpos_p := magnitude_pos_iff p
  have hpos_q := magnitude_pos_iff q
  unfold number orderKey
  cases sign p <;> cases sign q <;> simp only [Bool.false_eq_true, if_true, if_false]
  · exact (magnitude_lt_iff p q).trans Nat.cast_lt.symm
  · exact iff_of_false (by linarith) (by omega)
  · -- a negative number is below a positive one, unless both are zero
    rw [show -magnitude p < magnitude q ↔ 0 < magnitude p ∨ 0 < magnitude q by
      constructor
      · intro h
        by_contra hzero
        rw [not_or, not_lt, not_lt] at hzero
        linarith
      · rintro (h | h) <;> linarith, hpos_p, hpos_q]
    omega
  · rw [neg_lt_neg_iff, neg_lt_neg_iff]
    exact (magnitude_lt_iff q p).trans Nat.cast_lt.symm

/-- The key and the sign are the pattern. -/
theorem eq_of_orderKey {p q : BitVec 32} (hkey : orderKey p = orderKey q)
    (hsign : sign p = sign q) : p = q := by
  have hbits : magnitudeBits p = magnitudeBits q := by
    unfold orderKey at hkey
    rw [hsign] at hkey
    cases hs : sign q with
    | false =>
      rw [hs, if_neg Bool.false_ne_true, if_neg Bool.false_ne_true] at hkey
      exact Nat.cast_injective hkey
    | true =>
      rw [hs, if_pos rfl, if_pos rfl] at hkey
      exact Nat.cast_injective (neg_injective hkey)
  obtain ⟨he, hf⟩ := magnitude_eq_of_bits hbits
  rw [← pack_fields p, ← pack_fields q, hsign, he, hf]

/-! ## §3. Values -/

/-- The value of a pattern, with the two infinities.  A NaN has none. -/
noncomputable def extended (pattern : BitVec 32) : Option EReal :=
  if exponent pattern = 255 then
    if fraction pattern = 0 then some (if sign pattern then ⊥ else ⊤) else none
  else some ((number pattern : ℝ) : EReal)

theorem extended_eq_none_iff (pattern : BitVec 32) :
    extended pattern = none ↔ IsNaN pattern := by
  unfold extended IsNaN
  split_ifs with he hf
  · exact iff_of_false id fun h => h.2 hf
  · exact iff_of_true rfl ⟨he, hf⟩
  · exact iff_of_false id fun h => he h.1

/-- The magnitude that the pattern of an infinity spells. -/
theorem magnitude_of_infinite {pattern : BitVec 32} (h : IsInfinite pattern) :
    magnitude pattern = 2 ^ 128 := by
  rw [magnitude, h.1, h.2, if_neg (by decide)]
  show ((2 : ℚ) ^ 23 + (0 : ℕ)) * 2 ^ (((255 : ℕ) : ℤ) - 150) = 2 ^ 128
  norm_num

theorem magnitude_lt_of_finite {pattern : BitVec 32} (h : exponent pattern ≠ 255) :
    magnitude pattern < 2 ^ 128 := by
  have hexp := (exponent pattern).isLt
  have hne : (exponent pattern).toNat ≠ 255 := fun h0 => h (BitVec.eq_of_toNat_eq h0)
  have hpow : (2 : ℚ) ^ (((exponent pattern).toNat : ℤ) + 1 - 150) ≤ 2 ^ (105 : ℤ) :=
    zpow_le_zpow_right₀ (by norm_num) (by omega)
  calc magnitude pattern < 2 ^ 23 * 2 ^ (((exponent pattern).toNat : ℤ) + 1 - 150) :=
        magnitude_lt_next pattern
    _ ≤ 2 ^ 23 * 2 ^ (105 : ℤ) := mul_le_mul_of_nonneg_left hpow (by positivity)
    _ = 2 ^ 128 := by norm_num

/-- The value of a pattern beside its number. -/
theorem extended_cases {pattern : BitVec 32} {x : EReal} (h : extended pattern = some x) :
    (x = ((number pattern : ℝ) : EReal) ∧ -2 ^ 128 < number pattern ∧ number pattern < 2 ^ 128) ∨
    (x = ⊤ ∧ number pattern = 2 ^ 128) ∨ (x = ⊥ ∧ number pattern = -2 ^ 128) := by
  unfold extended at h
  split_ifs at h with he hf hs
  · refine .inr (.inr ⟨(Option.some.inj h).symm, ?_⟩)
    rw [number, if_pos hs, magnitude_of_infinite ⟨he, hf⟩]
  · refine .inr (.inl ⟨(Option.some.inj h).symm, ?_⟩)
    rw [number, if_neg hs, magnitude_of_infinite ⟨he, hf⟩]
  · have hnonneg := magnitude_nonneg pattern
    have hlt := magnitude_lt_of_finite he
    refine .inl ⟨(Option.some.inj h).symm, ?_⟩
    unfold number
    split <;> constructor <;> linarith

/-- **The values are ordered as the numbers.** -/
theorem extended_lt_iff {p q : BitVec 32} {x y : EReal} (hx : extended p = some x)
    (hy : extended q = some y) : x < y ↔ orderKey p < orderKey q := by
  rw [← number_lt_iff]
  have hlimit : (0 : ℚ) < 2 ^ 128 := by positivity
  rcases extended_cases hx with ⟨rfl, hp, hp'⟩ | ⟨rfl, hp⟩ | ⟨rfl, hp⟩ <;>
    rcases extended_cases hy with ⟨rfl, hq, hq'⟩ | ⟨rfl, hq⟩ | ⟨rfl, hq⟩
  · rw [EReal.coe_lt_coe_iff, Rat.cast_lt]
  · exact iff_of_true (EReal.coe_lt_top _) (hq ▸ hp')
  · exact iff_of_false not_lt_bot (by linarith)
  · exact iff_of_false not_top_lt (by linarith)
  · exact iff_of_false (lt_irrefl _) (by linarith)
  · exact iff_of_false not_lt_bot (by linarith)
  · exact iff_of_true (EReal.bot_lt_coe _) (hp ▸ hq)
  · exact iff_of_true bot_lt_top (by linarith)
  · exact iff_of_false (lt_irrefl _) (by linarith)

theorem extended_eq_iff {p q : BitVec 32} {x y : EReal} (hx : extended p = some x)
    (hy : extended q = some y) : x = y ↔ orderKey p = orderKey q := by
  rw [eq_iff_le_not_lt, eq_iff_le_not_lt, ← not_lt, ← not_lt, extended_lt_iff hx hy,
    extended_lt_iff hy hx]

/-! ## §4. The order of all numbers -/

/-- The values of two patterns, neither of which is a NaN, stand in the relation. -/
def Compare (R : EReal → EReal → Prop) (p q : BitVec 32) : Prop :=
  ∃ x y, extended p = some x ∧ extended q = some y ∧ R x y

/-- Numerically at most, with -0 below +0. -/
def AtMost (p q : BitVec 32) : Prop :=
  Compare (· < ·) p q ∨ Compare (· = ·) p q ∧ (sign q = true → sign p = true)

theorem compare_iff (R : EReal → EReal → Prop) {p q : BitVec 32} (hp : ¬ IsNaN p)
    (hq : ¬ IsNaN q) {K : Prop}
    (h : ∀ {x y}, extended p = some x → extended q = some y → (R x y ↔ K)) :
    Compare R p q ↔ K := by
  obtain ⟨x, hx⟩ := Option.ne_none_iff_exists'.mp (mt (extended_eq_none_iff p).mp hp)
  obtain ⟨y, hy⟩ := Option.ne_none_iff_exists'.mp (mt (extended_eq_none_iff q).mp hq)
  constructor
  · rintro ⟨x', y', hx', hy', hR⟩
    exact (h hx' hy').mp hR
  · exact fun hK => ⟨x, y, hx, hy, (h hx hy).mpr hK⟩

/-- A NaN stands in no relation. -/
theorem not_compare_of_nan (R : EReal → EReal → Prop) {p q : BitVec 32} (h : IsNaN p ∨ IsNaN q) :
    ¬ Compare R p q := by
  rintro ⟨x, y, hx, hy, -⟩
  rcases h with h | h
  · rw [(extended_eq_none_iff p).mpr h] at hx
    cases hx
  · rw [(extended_eq_none_iff q).mpr h] at hy
    cases hy

section NotNaN

variable {p q : BitVec 32} (hp : ¬ IsNaN p) (hq : ¬ IsNaN q)

include hp hq

theorem compare_lt_iff : Compare (· < ·) p q ↔ orderKey p < orderKey q :=
  compare_iff _ hp hq extended_lt_iff

theorem compare_eq_iff : Compare (· = ·) p q ↔ orderKey p = orderKey q :=
  compare_iff _ hp hq extended_eq_iff

theorem compare_le_iff : Compare (· ≤ ·) p q ↔ orderKey p ≤ orderKey q :=
  compare_iff _ hp hq fun hx hy => by rw [← not_lt, ← not_lt, extended_lt_iff hy hx]

theorem atMost_iff : AtMost p q ↔
    orderKey p < orderKey q ∨ orderKey p = orderKey q ∧ (sign q = true → sign p = true) := by
  rw [AtMost, compare_lt_iff hp hq, compare_eq_iff hp hq]

theorem atMost_total : AtMost p q ∨ AtMost q p := by
  rw [atMost_iff hp hq, atMost_iff hq hp]
  rcases lt_trichotomy (orderKey p) (orderKey q) with hlt | heq | hgt
  · exact .inl (.inl hlt)
  · cases hs : sign p with
    | false => exact .inr (.inr ⟨heq.symm, fun h => absurd h Bool.false_ne_true⟩)
    | true => exact .inl (.inr ⟨heq, fun _ => rfl⟩)
  · exact .inr (.inl hgt)

/-- **The order tells all patterns of numbers apart.** -/
theorem atMost_antisymm (h : AtMost p q) (h' : AtMost q p) : p = q := by
  rw [atMost_iff hp hq] at h
  rw [atMost_iff hq hp] at h'
  rcases h with hlt | ⟨hkey, hsign⟩
  · rcases h' with hlt' | ⟨hkey', -⟩ <;> omega
  · rcases h' with hlt' | ⟨-, hsign'⟩
    · omega
    · exact eq_of_orderKey hkey (Bool.eq_iff_iff.mpr ⟨hsign', hsign⟩)

end NotNaN

/-! ## §5. The first of two patterns -/

/-- The first of two numbers in an order of the patterns; a NaN stands back. -/
structure Select (first : BitVec 32 → BitVec 32 → Prop) (p q word : BitVec 32) : Prop where
  both_nan : IsNaN p → IsNaN q → word = 0x7fc00000
  left_nan : IsNaN p → ¬ IsNaN q → word = q
  right_nan : ¬ IsNaN p → IsNaN q → word = p
  numbers : ¬ IsNaN p → ¬ IsNaN q → word = p ∧ first p q ∨ word = q ∧ first q p

/-- **The order of the operands does not matter**, where the order of the patterns is
antisymmetric. -/
theorem Select.comm {first : BitVec 32 → BitVec 32 → Prop} {p q word word' : BitVec 32}
    (hfirst : ¬ IsNaN p → ¬ IsNaN q → first p q → first q p → p = q)
    (h : Select first p q word) (h' : Select first q p word') : word = word' := by
  by_cases hp : IsNaN p <;> by_cases hq : IsNaN q
  · rw [h.both_nan hp hq, h'.both_nan hq hp]
  · rw [h.left_nan hp hq, h'.right_nan hq hp]
  · rw [h.right_nan hp hq, h'.left_nan hq hp]
  · rcases h.numbers hp hq with ⟨rfl, hpq⟩ | ⟨rfl, hqp⟩ <;>
      rcases h'.numbers hq hp with ⟨rfl, hqp'⟩ | ⟨rfl, hpq'⟩
    · exact hfirst hp hq hpq hqp'
    · rfl
    · rfl
    · exact (hfirst hp hq hpq' hqp).symm

end Binary32
