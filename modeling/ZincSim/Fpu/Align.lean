/-
  ZincSim.Fpu.Align — two significands over one exponent.

  `add_or_sub` and `compute_fma` align their operands in the same way: the one with
  the larger exponent keeps its significand, the other one is shifted down with a
  sticky bit, and then the signs decide between the sum and the two differences.
  They only differ in the place of the leading bit, here `n + 1`.
-/
import ZincSim.Fpu.Exact

namespace ZincSim

open Rounding Sticky

/-! ## §1. Significands of a number -/

/-- `s` is the significand of `x` with leading bit `n + 1`, in units of
`2 ^ (e - (n + 1))`, and ends in `z` zeros. -/
structure ExactSignificand (z n : ℕ) (s : BitVec 64) (e : ℤ) (x : ℝ) : Prop where
  dvd : 2 ^ z ∣ s.toNat
  low : 2 ^ (n + 1) ≤ s.toNat
  high : s.toNat < 2 ^ (n + 2)
  value : x = s.toNat * 2 ^ (e - (n + 1))

/-- `s` stands for the positive number `x` in the same units. -/
structure StickySignificand (n : ℕ) (s : BitVec 64) (e : ℤ) (x : ℝ) : Prop where
  pos : 0 < x
  nonzero : 0 < s.toNat
  high : s.toNat < 2 ^ (n + 3)
  standsFor : StandsFor n s.toNat (x / 2 ^ (e - (n + 1)))

/-- `l` and `r` are aligned significands of `x` and `y`: what their sum and their
differences stand for. -/
structure Aligned (n : ℕ) (l r : BitVec 64) (e : ℤ) (x y : ℝ) : Prop where
  add : StickySignificand n (l + r) e (x + y)
  sub : r < l → StickySignificand n (l - r) e (x - y)
  rsub : l < r → StickySignificand n (r - l) e (y - x)
  eq : l = r → x = y

theorem Aligned.symm {n : ℕ} {l r : BitVec 64} {e : ℤ} {x y : ℝ} (h : Aligned n l r e x y) :
    Aligned n r l e y x where
  add := by
    rw [BitVec.add_comm, add_comm y]
    exact h.add
  sub := h.rsub
  rsub := h.sub
  eq := fun heq => (h.eq heq.symm).symm

/-! ## §2. The alignment -/

section Shift

variable {z n : ℕ} {p q : BitVec 64} {e f : ℤ} {x y : ℝ} (hp : ExactSignificand z n p e x)
  (hq : ExactSignificand z n q f y) (hfe : f ≤ e)

include hq hfe in
/-- The shifted operand in the units of the other one. -/
theorem ExactSignificand.value_shifted :
    y / 2 ^ (e - (n + 1)) = q.toNat / 2 ^ (e - f).toNat := by
  obtain ⟨d, hd⟩ : ∃ d : ℕ, e - f = d := ⟨_, (Int.toNat_of_nonneg (by omega)).symm⟩
  rw [hq.value, hd, Int.toNat_natCast, mul_div_assoc, two_zpow_div,
    show f - (n + 1) - (e - (n + 1)) = -(d : ℤ) by omega, zpow_neg, zpow_natCast, ← div_eq_mul_inv]

include hq in
theorem ExactSignificand.jam_lt (d : ℕ) : jam q.toNat d < 2 ^ (n + 2) := by
  have hlt : ((q.toNat : ℝ) / 2 ^ d) < 2 ^ (n + 2) := by
    have hcast : (q.toNat : ℝ) < 2 ^ (n + 2) := by exact_mod_cast hq.high
    exact (div_le_self (by positivity) (one_le_pow₀ (by norm_num))).trans_lt hcast
  exact_mod_cast ((agree_jam (K := ℝ) q.toNat d).lt_two_pow_iff (by omega)).mpr hlt

include hp in
theorem ExactSignificand.pos : 0 < x := by
  have hnat : 0 < p.toNat := (Nat.two_pow_pos (n + 1)).trans_le hp.low
  have hcast : (0 : ℝ) < p.toNat := by exact_mod_cast hnat
  rw [hp.value]
  positivity

include hp in
/-- An exact significand stands for its number. -/
theorem ExactSignificand.sticky : StickySignificand n p e x := by
  have hunit : (2 : ℝ) ^ (e - (n + 1)) ≠ 0 := by positivity
  refine ⟨hp.pos, (Nat.two_pow_pos (n + 1)).trans_le hp.low, ?_, .inl ?_⟩
  · exact hp.high.trans (Nat.pow_lt_pow_right (by decide) (by omega))
  · rw [hp.value, mul_div_cancel_right₀ _ hunit]

include hp hq hfe in
/-- **The shift keeps what sums and differences need.** -/
theorem ExactSignificand.aligned (hz : 1 ≤ z) (hn : 0 < n) (hn' : n ≤ 61) :
    Aligned n p (shiftRightJam q (e - f).toNat) e x y := by
  have hunit : (0 : ℝ) < 2 ^ (e - (n + 1)) := by positivity
  have hdvd : 2 ∣ p.toNat := even_of_dvd hp.dvd hz
  have hx : x / 2 ^ (e - (n + 1)) = p.toNat := by
    rw [hp.value, mul_div_cancel_right₀ _ hunit.ne']
  have hy := hq.value_shifted hfe
  have hlow := hp.low
  have hjam := toNat_shiftRightJam q (e - f).toNat
  have hjam_lt := hq.jam_lt (e - f).toNat
  -- no word overflows: both operands have at most `n + 2` bits
  have hpow : 2 ^ (n + 2) + 2 ^ (n + 2) = 2 ^ (n + 3) := by rw [← two_mul, ← pow_succ']
  have hword : 2 ^ (n + 3) ≤ 2 ^ 64 := Nat.pow_le_pow_right (by decide) (by omega)
  have hhigh := hp.high
  have hnonzero : 0 < p.toNat := (Nat.two_pow_pos (n + 1)).trans_le hlow
  generalize shiftRightJam q (e - f).toNat = lower at hjam ⊢
  have hsum : (p + lower).toNat = p.toNat + lower.toNat := by
    rw [BitVec.toNat_add, Nat.mod_eq_of_lt (by omega)]
  refine ⟨?_, fun hlt => ?_, fun hlt => ?_, fun heq => ?_⟩
  · -- the sum: a sticky bit far enough below
    have hagree := agree_add_jam (K := ℝ) q.toNat (e - f).toNat hdvd
    refine ⟨add_pos hp.pos hq.pos, by omega, by omega, .inr ⟨?_, ?_⟩⟩
    · rwa [add_div, hx, hy, hsum, hjam]
    · have hhalf : 2 ^ n ≤ 2 ^ (n + 1) := Nat.pow_le_pow_right (by decide) (by omega)
      omega
  · -- the shifted operand is smaller: the difference is exact or keeps `n` bits
    have hnat : lower.toNat < p.toNat := hlt
    obtain ⟨hstands, hpos⟩ := standsFor_sub_jam (K := ℝ) (e - f).toNat hp.dvd hq.dvd hz hp.low
      hq.high hn (by omega)
    have hsub : (p - lower).toNat = p.toNat - jam q.toNat (e - f).toNat := by
      rw [BitVec.toNat_sub_of_le (Nat.le_of_lt hlt), hjam]
    rw [← hsub, ← hx, ← hy, ← sub_div] at hstands
    rw [← hx, ← hy, ← sub_div] at hpos
    exact ⟨(div_pos_iff_of_pos_right hunit).mp hpos, by omega, by omega, hstands⟩
  · -- the shifted operand is larger: then the shift was short and lost nothing
    have hnat : p.toNat < lower.toNat := hlt
    have hexact := jam_sub_exact (K := ℝ) (e - f).toNat hq.dvd hz hp.low hq.high hn (by omega)
    have hsub : (lower - p).toNat = jam q.toNat (e - f).toNat - p.toNat := by
      rw [BitVec.toNat_sub_of_le (Nat.le_of_lt hlt), hjam]
    have hpos : 0 < (lower - p).toNat := by omega
    rw [← hsub, ← hx, ← hy, ← sub_div] at hexact
    have hcast : (0 : ℝ) < (lower - p).toNat := by exact_mod_cast hpos
    exact ⟨(div_pos_iff_of_pos_right hunit).mp (hexact ▸ hcast), hpos, by omega, .inl hexact⟩
  · have hnat : jam q.toNat (e - f).toNat = p.toNat := by rw [← hjam, ← heq]
    have hexact := jam_sub_exact (K := ℝ) (e - f).toNat hq.dvd hz hp.low hq.high hn hnat.ge
    rw [hnat, Nat.sub_self, Nat.cast_zero, ← hx, ← hy, ← sub_div] at hexact
    have hdiff := (div_eq_zero_iff.mp hexact.symm).resolve_right hunit.ne'
    exact (sub_eq_zero.mp hdiff).symm

end Shift

/-! ## §3. Signs -/

/-- The three ways to a nonzero result: equal signs add, else the larger magnitude
gives the sign. -/
theorem Aligned.signed_cases {n : ℕ} {l r : BitVec 64} {e : ℤ} {x y : ℝ}
    (h : Aligned n l r e x y) (s t : Bool) (hne : signed s x + signed t y ≠ 0) :
    (s = t ∧ StickySignificand n (l + r) e (x + y) ∧
      signed s x + signed t y = signed s (x + y)) ∨
    (s ≠ t ∧ r < l ∧ StickySignificand n (l - r) e (x - y) ∧
      signed s x + signed t y = signed s (x - y)) ∨
    (s ≠ t ∧ l < r ∧ StickySignificand n (r - l) e (y - x) ∧
      signed s x + signed t y = signed t (y - x)) := by
  by_cases hsign : s = t
  · subst hsign
    exact .inl ⟨rfl, h.add, signed_add s⟩
  · obtain ⟨hleft, hright⟩ := signed_add_of_ne (x := x) (y := y) hsign
    obtain hlt | heq | hgt := Nat.lt_trichotomy l.toNat r.toNat
    · exact .inr (.inr ⟨hsign, hlt, h.rsub hlt, hright⟩)
    · -- equal significands cancel
      rw [hleft, h.eq (BitVec.eq_of_toNat_eq heq), sub_self, signed_zero] at hne
      exact absurd rfl hne
    · exact .inr (.inl ⟨hsign, hgt, h.sub hgt, hleft⟩)

end ZincSim
