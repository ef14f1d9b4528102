/-
  ZincSim.Lib.Sticky — sticky bits.

  A significand with a sticky bit stands for any number on the same side of every
  even integer.  `Agree u s x` says that `s` and `x` compare alike with all
  multiples of `u`; it survives scaling, the sums and differences with multiples
  of `u`, and passing to a coarser unit, and from unit `1 / 2` on it fixes the
  rounding (`Agree.roundInt_eq`).  §2 are the operations that make such
  significands: the jamming right shift and the quotient or root with a nonzero
  remainder.
-/
import ZincSim.Lib.Rounding

namespace Sticky

open Rounding

/-! ## §1. Numbers that compare alike -/

section Agree

variable {K : Type*} [Field K] [LinearOrder K]

/-- `s` and `x` are on the same side of every multiple of `u`. -/
def Agree (u s x : K) : Prop :=
  ∀ k : ℤ, (s < u * k ↔ x < u * k) ∧ (s ≤ u * k ↔ x ≤ u * k)

variable {u s x y : K}

theorem Agree.refl (u s : K) : Agree u s s := fun _ => ⟨Iff.rfl, Iff.rfl⟩

theorem Agree.symm (h : Agree u s x) : Agree u x s := fun k => ⟨(h k).1.symm, (h k).2.symm⟩

theorem Agree.trans (h : Agree u s x) (h' : Agree u x y) : Agree u s y :=
  fun k => ⟨(h k).1.trans (h' k).1, (h k).2.trans (h' k).2⟩

/-- The multiples of a multiple of `u` are multiples of `u`. -/
theorem Agree.coarsen (h : Agree u s x) (n : ℤ) : Agree (u * n) s x := by
  intro k
  have hk := h (n * k)
  rw [Int.cast_mul, ← mul_assoc] at hk
  exact hk

variable [IsStrictOrderedRing K]

theorem Agree.coarsen_zpow {i j : ℤ} (h : Agree ((2 : K) ^ i) s x) (hij : i ≤ j) :
    Agree ((2 : K) ^ j) s x := by
  have hc := h.coarsen (2 ^ (j - i).toNat)
  rwa [← two_zpow_eq_intCast hij, ← zpow_add₀ (by norm_num), add_sub_cancel] at hc

theorem Agree.scale (h : Agree u s x) {c : K} (hc : 0 < c) : Agree (c * u) (c * s) (c * x) := by
  intro k
  rw [mul_assoc, mul_lt_mul_iff_right₀ hc, mul_lt_mul_iff_right₀ hc, mul_le_mul_iff_right₀ hc,
    mul_le_mul_iff_right₀ hc]
  exact h k

theorem Agree.div (h : Agree u s x) {c : K} (hc : 0 < c) : Agree (u / c) (s / c) (x / c) := by
  have hscaled := h.scale (inv_pos.mpr hc)
  rwa [inv_mul_eq_div, inv_mul_eq_div, inv_mul_eq_div] at hscaled

/-- A sum with a multiple of `u`. -/
theorem Agree.add (h : Agree u s x) (j : ℤ) : Agree u (u * j + s) (u * j + x) := by
  intro k
  have hk := h (k - j)
  rw [Int.cast_sub, mul_sub] at hk
  constructor
  · rw [← lt_sub_iff_add_lt', ← lt_sub_iff_add_lt']
    exact hk.1
  · rw [← le_sub_iff_add_le', ← le_sub_iff_add_le']
    exact hk.2

/-- A difference from a multiple of `u`: the order turns around. -/
theorem Agree.sub (h : Agree u s x) (j : ℤ) : Agree u (u * j - s) (u * j - x) := by
  intro k
  have hk := h (j - k)
  rw [Int.cast_sub, mul_sub] at hk
  constructor
  · rw [sub_lt_comm, sub_lt_comm (b := x), ← not_le, ← not_le, hk.2]
  · rw [sub_le_comm, sub_le_comm (b := x), ← not_lt, ← not_lt, hk.1]

/-- Two numbers strictly inside the same gap between multiples of `u`. -/
theorem Agree.of_gap (hu : 0 < u) (j : ℤ) (hs : u * j < s) (hs' : s < u * (j + 1))
    (hx : u * j < x) (hx' : x < u * (j + 1)) : Agree u s x := by
  intro k
  obtain hk | hk : k ≤ j ∨ j + 1 ≤ k := by omega
  · have hle : u * k ≤ u * j := mul_le_mul_of_nonneg_left (Int.cast_le.mpr hk) hu.le
    exact ⟨iff_of_false (by linarith) (by linarith), iff_of_false (by linarith) (by linarith)⟩
  · have hcast : ((j + 1 : ℤ) : K) ≤ k := Int.cast_le.mpr hk
    rw [Int.cast_add, Int.cast_one] at hcast
    have hle : u * (j + 1) ≤ u * k := mul_le_mul_of_nonneg_left hcast hu.le
    exact ⟨iff_of_true (by linarith) (by linarith), iff_of_true (by linarith) (by linarith)⟩

omit [IsStrictOrderedRing K] in
/-- Multiples of the unit agree only with themselves. -/
theorem Agree.eq_intCast_iff (h : Agree 1 s x) (n : ℤ) : s = n ↔ x = n := by
  have hn := h n
  rw [one_mul] at hn
  rw [eq_iff_le_not_lt, eq_iff_le_not_lt, hn.1, hn.2]

omit [IsStrictOrderedRing K] in
/-- Agreement through even numbers keeps the place of the leading bit. -/
theorem Agree.lt_two_pow_iff (h : Agree 2 s x) {n : ℕ} (hn : 0 < n) : s < 2 ^ n ↔ x < 2 ^ n := by
  obtain ⟨m, rfl⟩ : ∃ m, n = m + 1 := ⟨n - 1, by omega⟩
  have hk := (h (2 ^ m)).1
  push_cast at hk
  rwa [← pow_succ'] at hk

variable [FloorRing K]

omit [IsStrictOrderedRing K] in
theorem Agree.floor_eq (h : Agree 1 s x) : ⌊s⌋ = ⌊x⌋ := by
  apply Int.floor_eq_iff.mpr
  have hlow := (h ⌊x⌋).1
  have hhigh := (h (⌊x⌋ + 1)).1
  rw [one_mul] at hlow hhigh
  constructor
  · exact not_lt.mp fun hlt => absurd (hlow.mp hlt) (not_lt.mpr (Int.floor_le x))
  · have hx := Int.lt_floor_add_one x
    push_cast at hhigh
    exact hhigh.mpr hx

theorem Agree.ceil_eq (h : Agree 1 s x) : ⌈s⌉ = ⌈x⌉ := by
  have hneg : Agree 1 (-s) (-x) := by
    have h0 := h.sub 0
    rwa [Int.cast_zero, mul_zero, zero_sub, zero_sub] at h0
  have hfloor := hneg.floor_eq
  rw [Int.floor_neg, Int.floor_neg] at hfloor
  omega

/-- **Comparisons with halves decide the rounding.** -/
theorem Agree.roundInt_eq (h : Agree (1 / 2) s x) (dir : Direction) :
    roundInt dir s = roundInt dir x := by
  have hone : Agree 1 s x := by
    have h2 := h.coarsen 2
    norm_num at h2
    exact h2
  have hshift : Agree 1 (s + 1 / 2) (x + 1 / 2) := by
    have h2 := (h.add 1).coarsen 2
    norm_num at h2
    rwa [add_comm s, add_comm x]
  cases dir with
  | toZero => exact hone.floor_eq
  | away => exact hone.ceil_eq
  | tiesToAway => exact hshift.floor_eq
  | tiesToEven =>
    have hfract : Int.fract s = 1 / 2 ↔ Int.fract x = 1 / 2 := by
      -- the tie is the odd multiple of 1 / 2 above the common floor
      have htie := h (2 * ⌊x⌋ + 1)
      have hmid : (1 / 2 : K) * ((2 * ⌊x⌋ + 1 : ℤ) : K) = ⌊x⌋ + 1 / 2 := by
        push_cast
        ring
      rw [hmid] at htie
      rw [Int.fract, Int.fract, hone.floor_eq, sub_eq_iff_eq_add', sub_eq_iff_eq_add',
        eq_iff_le_not_lt, eq_iff_le_not_lt, htie.1, htie.2]
    unfold roundInt
    simp only [hfract, hone.floor_eq, hshift.floor_eq]

end Agree

/-! ## §2. Making a sticky bit -/

theorem or_one_eq (n : ℕ) : n ||| 1 = 2 * (n / 2) + 1 := by
  have hdiv : (n ||| 1) / 2 = n / 2 ||| 0 := Nat.or_div_two
  have hmod : (n ||| 1) % 2 = 1 := Nat.or_mod_two_eq_one.mpr (.inr rfl)
  rw [Nat.or_zero] at hdiv
  omega

/-- The integral part of `s / d`, with a sticky bit for the remainder. -/
def quotient (s d : ℕ) : ℕ := if s % d = 0 then s / d else s / d ||| 1

/-- The right shift by `d` bits that keeps whether bits were lost in the last one. -/
def jam (s d : ℕ) : ℕ := quotient s (2 ^ d)

@[simp] theorem jam_zero (s : ℕ) : jam s 0 = s := by simp [jam, quotient, Nat.mod_one]

theorem le_quotient (s d : ℕ) : s / d ≤ quotient s d := by
  unfold quotient
  split
  · exact le_refl _
  · exact Nat.left_le_or

theorem le_jam (s d : ℕ) : s / 2 ^ d ≤ jam s d := le_quotient s (2 ^ d)

/-- The sticky bit stays in the word. -/
theorem jam_lt_two_pow {s d k : ℕ} (hk : 0 < k) (h : s / 2 ^ d < 2 ^ k) : jam s d < 2 ^ k := by
  unfold jam quotient
  split
  · exact h
  · exact Nat.or_lt_two_pow h (Nat.one_lt_two_pow hk.ne')

/-- The sticky bit is below everything an even division keeps. -/
theorem quotient_div (s d : ℕ) {e : ℕ} (he : 2 ∣ e) : quotient s d / e = s / (d * e) := by
  obtain ⟨f, rfl⟩ := he
  have hhalf : quotient s d / 2 = s / d / 2 := by
    unfold quotient
    split
    · rfl
    · rw [or_one_eq]
      omega
  rw [← Nat.div_div_eq_div_mul, hhalf, Nat.div_div_eq_div_mul, Nat.div_div_eq_div_mul]

/-- An even division is exact on a sticky quotient when nothing was lost before, either. -/
theorem dvd_quotient_iff (s d : ℕ) {e : ℕ} (he : 2 ∣ e) : e ∣ quotient s d ↔ d * e ∣ s := by
  unfold quotient
  split
  case isTrue hexact => exact Nat.dvd_div_iff_mul_dvd (Nat.dvd_of_mod_eq_zero hexact)
  case isFalse hlost =>
    refine iff_of_false (fun h => ?_) fun h => ?_
    · have heven := he.trans h
      rw [or_one_eq] at heven
      omega
    · exact hlost (Nat.mod_eq_zero_of_dvd ((Nat.dvd_mul_right d e).trans h))

/-- **Sticky divisions compose.** -/
theorem quotient_quotient (s d : ℕ) {e : ℕ} (he : 2 ∣ e) :
    quotient (quotient s d) e = quotient s (d * e) := by
  have hexact : quotient s d % e = 0 ↔ s % (d * e) = 0 := by
    rw [← Nat.dvd_iff_mod_eq_zero, ← Nat.dvd_iff_mod_eq_zero, dvd_quotient_iff s d he]
  rw [quotient, quotient_div s d he, if_congr hexact rfl rfl]
  rfl

theorem jam_jam (s a b : ℕ) : jam (jam s a) b = jam s (a + b) := by
  cases b with
  | zero => rw [jam_zero, Nat.add_zero]
  | succ b =>
    rw [jam, jam, quotient_quotient s _ (dvd_pow_self 2 (Nat.succ_ne_zero b)), ← pow_add]
    rfl

section Make

variable {K : Type*} [Field K] [LinearOrder K] [IsStrictOrderedRing K]

/-- A number between `n` and `n + 1`, from its integral part. -/
theorem agree_or_one {n : ℕ} {x : K} (hlow : n < x) (hhigh : x < n + 1) :
    Agree 2 ((n ||| 1 : ℕ) : K) x := by
  rw [or_one_eq]
  obtain ⟨j, hj⟩ : ∃ j, n / 2 = j := ⟨_, rfl⟩
  have hn1 : (2 * j : K) ≤ n := by exact_mod_cast (show 2 * j ≤ n by omega)
  have hn2 : (n : K) ≤ 2 * j + 1 := by exact_mod_cast (show n ≤ 2 * j + 1 by omega)
  rw [hj, Nat.cast_add, Nat.cast_mul, Nat.cast_ofNat, Nat.cast_one]
  apply Agree.of_gap (by norm_num) j <;> rw [Int.cast_natCast] <;> linarith

/-- **A sticky quotient is exact up to comparisons with even numbers.** -/
theorem agree_quotient (s : ℕ) {d : ℕ} (hd : 0 < d) :
    Agree 2 ((quotient s d : ℕ) : K) (s / d) := by
  have hpos : (0 : K) < d := by exact_mod_cast hd
  have hdecomp : (s : K) = d * (s / d : ℕ) + (s % d : ℕ) := by
    exact_mod_cast (Nat.div_add_mod s d).symm
  unfold quotient
  split
  case isTrue hexact =>
    rw [hexact, Nat.cast_zero, add_zero] at hdecomp
    rw [hdecomp, mul_div_cancel_left₀ _ hpos.ne']
    exact Agree.refl _ _
  case isFalse hlost =>
    have hr : (0 : K) < (s % d : ℕ) := by exact_mod_cast Nat.pos_of_ne_zero hlost
    have hr' : ((s % d : ℕ) : K) < d := by exact_mod_cast Nat.mod_lt s hd
    apply agree_or_one
    · rw [lt_div_iff₀ hpos]
      linarith
    · rw [div_lt_iff₀ hpos]
      linarith

theorem agree_jam (s d : ℕ) : Agree 2 ((jam s d : ℕ) : K) (s / 2 ^ d) := by
  have h := agree_quotient (K := K) s (Nat.two_pow_pos d)
  rwa [Nat.cast_pow, Nat.cast_ofNat] at h

end Make

/-- The same among the integers: `s` is compared with the numbers `jam s d` stands for. -/
theorem jam_lt_even_iff (s d : ℕ) (k : ℤ) : (jam s d : ℤ) < 2 * k ↔ (s : ℤ) < 2 * k * 2 ^ d := by
  have h := (agree_jam (K := ℚ) s d k).1
  rw [div_lt_iff₀ (by positivity)] at h
  exact_mod_cast h

theorem jam_le_even_iff (s d : ℕ) (k : ℤ) : (jam s d : ℤ) ≤ 2 * k ↔ (s : ℤ) ≤ 2 * k * 2 ^ d := by
  have h := (agree_jam (K := ℚ) s d k).2
  rw [div_le_iff₀ (by positivity)] at h
  exact_mod_cast h

/-! ## §3. Significands with at most a sticky bit lost -/

section StandsFor

variable {K : Type*} [Field K] [LinearOrder K] [IsStrictOrderedRing K]

/-- `s` stands for `x`: exactly, or with a sticky bit below `n` bits or more. -/
def StandsFor (n s : ℕ) (x : K) : Prop := (s : K) = x ∨ (Agree 2 (s : K) x ∧ 2 ^ n ≤ s)

/-- A significand with low zeros survives the jamming shift, or becomes small. -/
theorem jam_exact_or_small {s z n : ℕ} (d : ℕ) (hz : 2 ^ z ∣ s) (hz1 : 1 ≤ z)
    (hs : s < 2 ^ (n + 2)) (hn : 0 < n) :
    ((jam s d : ℕ) : K) = s / 2 ^ d ∨ jam s d < 2 ^ n := by
  by_cases hd : d ≤ z
  · have hdvd : 2 ^ d ∣ s := (Nat.pow_dvd_pow 2 hd).trans hz
    left
    rw [jam, quotient, if_pos (Nat.mod_eq_zero_of_dvd hdvd), Nat.cast_div hdvd (by positivity)]
    push_cast
    rfl
  · right
    have hpow : (2 : K) ^ 2 ≤ 2 ^ d := pow_le_pow_right₀ (by norm_num) (by omega)
    have hlt : (s : K) / 2 ^ d < 2 ^ n := by
      have hcast : (s : K) < 2 ^ (n + 2) := by exact_mod_cast hs
      rw [div_lt_iff₀ (by positivity)]
      calc (s : K) < 2 ^ n * 2 ^ 2 := by rwa [← pow_add]
        _ ≤ 2 ^ n * 2 ^ d := mul_le_mul_of_nonneg_left hpow (by positivity)
    exact_mod_cast ((agree_jam (K := K) s d).lt_two_pow_iff hn).mpr hlt

/-- A sum with an even number. -/
theorem agree_add_jam {p : ℕ} (q d : ℕ) (hp : 2 ∣ p) :
    Agree 2 ((p + jam q d : ℕ) : K) (p + q / 2 ^ d) := by
  obtain ⟨j, rfl⟩ := hp
  have h := (agree_jam (K := K) q d).add j
  push_cast
  rwa [Int.cast_natCast] at h

section Difference

variable {p q z n : ℕ} (d : ℕ) (hpz : 2 ^ z ∣ p) (hqz : 2 ^ z ∣ q) (hz : 1 ≤ z)
  (hp : 2 ^ (n + 1) ≤ p) (hq : q < 2 ^ (n + 2)) (hn : 0 < n)

include hpz hz in
theorem even_of_dvd : 2 ∣ p := (dvd_pow_self 2 (by omega)).trans hpz

include hpz hqz hz hp hq hn in
/-- The shifted operand is the smaller one. -/
theorem standsFor_sub_jam (hle : jam q d < p) :
    StandsFor n (p - jam q d) ((p : K) - q / 2 ^ d) ∧ (0 : K) < p - q / 2 ^ d := by
  obtain ⟨j, hj⟩ := even_of_dvd hpz hz
  have hagree := agree_jam (K := K) q d
  have hpos : (q : K) / 2 ^ d < p := by
    have hcmp := (hagree j).1
    rw [Int.cast_natCast] at hcmp
    have hpj : (p : K) = 2 * j := by exact_mod_cast hj
    rw [hpj]
    refine hcmp.mp ?_
    rw [← hpj]
    exact_mod_cast hle
  refine ⟨?_, sub_pos.mpr hpos⟩
  rcases jam_exact_or_small (K := K) d hqz hz hq hn with hexact | hsmall
  · left
    rw [Nat.cast_sub hle.le, hexact]
  · right
    constructor
    · have h := hagree.sub j
      rw [Nat.cast_sub hle.le]
      have hpj : (p : K) = 2 * ((j : ℤ) : K) := by
        rw [Int.cast_natCast]
        exact_mod_cast hj
      rwa [hpj]
    · rw [Nat.pow_succ] at hp
      omega

include hqz hz hp hq hn in
/-- The shifted operand is the larger one: then nothing was lost. -/
theorem jam_sub_exact (hlt : p ≤ jam q d) :
    ((jam q d - p : ℕ) : K) = q / 2 ^ d - p := by
  rcases jam_exact_or_small (K := K) d hqz hz hq hn with hexact | hsmall
  · rw [Nat.cast_sub hlt, hexact]
  · rw [Nat.pow_succ] at hp
    omega

end Difference

end StandsFor

end Sticky
