/-
  ZincSim.Fpu.CheckedRound — unpacking and rounding pass their checks.

  The loops of `fpu.cpp` test single bits, and its words and exponents are machine
  integers.  The constructor of `UnpackedFp32` is clean for every pattern, and
  `round_and_pack` for every significand below `2 ^ 28` (`Roundable`), which is what its
  callers keep to; for larger ones its loop may not end (`roundAndPack_diverges`).
-/
import ZincSim.Fpu.FusedMultiply
import ZincSim.Machine.Fpu.Checked

namespace ZincSim

open Checked Sticky
open CheckedFpu (int32)

/-! ## §1. Loops -/

theorem int32_of_range {x : ℤ} (hlow : -2 ^ 31 ≤ x) (hhigh : x < 2 ^ 31) : int32 x = .ok x :=
  signedInt_of_range hlow hhigh

/-- A loop that doubles a significand below bit `n` loses no bit of it. -/
theorem normalize_clean {w n b : ℕ} {p : BitVec w → Prop} [DecidablePred p]
    (checked : ℕ → BitVec w → ℤ → CheckedFpu.Run (BitVec w × ℤ))
    (loop : ℕ → BitVec w → ℤ → Except Fault (BitVec w × ℤ))
    (hzero : ∀ s e, Clean (checked 0 s e) (loop 0 s e))
    (hloop : ∀ fuel s e, loop (fuel + 1) s e =
      if p s then loop fuel (s <<< 1) (e - 1) else .ok (s, e))
    (hchecked : ∀ fuel s e, checked (fuel + 1) s e =
      if p s then (do
        let s ← shl s 1
        let e ← int32 (e - 1)
        checked fuel s e)
      else .ok (s, e))
    (hp : ∀ s : BitVec w, s.toNat < 2 ^ b → p s → s.toNat < 2 ^ n) (hnb : n < b) (hbw : b ≤ w)
    (fuel : ℕ) {s : BitVec w} {e : ℤ} (hs : s.toNat < 2 ^ b) (hlow : -2 ^ 31 + fuel ≤ e)
    (hhigh : e < 2 ^ 31) : Clean (checked fuel s e) (loop fuel s e) := by
  induction fuel generalizing s e with
  | zero => exact hzero s e
  | succ fuel ih =>
    rw [hloop, hchecked]
    refine clean_ite (fun htest => ?_) fun _ => clean_ok _
    -- the bit that is tested is the only one that could be lost
    have hlt := hp s hs htest
    have hnb' : 2 ^ (n + 1) ≤ 2 ^ b := Nat.pow_le_pow_right (by decide) hnb
    have hbw' : 2 ^ b ≤ 2 ^ w := Nat.pow_le_pow_right (by decide) hbw
    have hpow : 2 ^ (n + 1) = 2 * 2 ^ n := Nat.pow_succ'
    have hdouble : (s <<< 1).toNat = s.toNat * 2 := by
      rw [BitVec.toNat_shiftLeft, Nat.shiftLeft_eq, pow_one, Nat.mod_eq_of_lt (by omega)]
    push_cast at hlow
    refine clean_check (shl_of_lt (by omega)) (clean_check (int32_of_range ?_ ?_) (ih ?_ ?_ ?_))
    all_goals omega

/-- `shift_right_jam` only shifts a one into the word. -/
theorem shiftRightJam_checked (value : BitVec 64) (distance : ℕ) :
    CheckedFpu.shiftRightJam value distance = .ok (shiftRightJam value distance) := by
  unfold CheckedFpu.shiftRightJam shiftRightJam
  by_cases hzero : distance = 0
  · rw [if_pos hzero, if_pos hzero]
  rw [if_neg hzero, if_neg hzero]
  by_cases hlt : distance < 64
  · rw [if_pos hlt, if_pos hlt]
    rw [shl_one hlt]
    rfl
  · rw [if_neg hlt, if_neg hlt]

/-- `shift_right_jam` keeps a word of `k` bits one. -/
theorem shiftRightJam_lt {value : BitVec 64} {k : ℕ} (hk : 0 < k) (hvalue : value.toNat < 2 ^ k)
    (distance : ℕ) : (shiftRightJam value distance).toNat < 2 ^ k := by
  rw [toNat_shiftRightJam]
  exact jam_lt_two_pow hk ((Nat.div_le_self _ _).trans_lt hvalue)

/-- The subnormal loop starts with a nonzero fraction and loses no bit of it. -/
theorem normalizeSubnormal_clean {fraction : BitVec 32} (hlt : fraction.toNat < 2 ^ 24) :
    Clean (CheckedFpu.normalizeSubnormal 32 fraction (-126))
      (normalizeSubnormal 32 fraction (-126)) :=
  normalize_clean (n := 23) CheckedFpu.normalizeSubnormal normalizeSubnormal (fun _ _ => rfl)
    (fun _ _ _ => rfl) (fun _ _ _ => rfl)
    (fun s hs => (BitField.and_bit_eq_zero_iff_lt s (by decide) hs).mp) (by decide) (by decide) 32
    hlt (by decide) (by decide)

theorem shiftDownToHidden_clean (fuel : ℕ) (s : BitVec 64) {e : ℤ} (hlow : -2 ^ 31 ≤ e)
    (hhigh : e + fuel < 2 ^ 31) :
    Clean (CheckedFpu.shiftDownToHidden fuel s e) (shiftDownToHidden fuel s e) := by
  induction fuel generalizing s e with
  | zero => exact clean_error _
  | succ fuel ih =>
    unfold CheckedFpu.shiftDownToHidden shiftDownToHidden
    refine clean_ite (fun _ => ?_) fun _ => clean_ok _
    push_cast at hhigh
    refine clean_check (shiftRightJam_checked s 1) (clean_check (int32_of_range ?_ ?_) (ih _ ?_ ?_))
    all_goals omega

theorem shiftUpToHidden_clean {s : BitVec 64} {e : ℤ} (hs : s.toNat < 2 ^ 27)
    (hlow : -2 ^ 31 + 64 ≤ e) (hhigh : e < 2 ^ 31) :
    Clean (CheckedFpu.shiftUpToHidden 64 s e) (shiftUpToHidden 64 s e) :=
  normalize_clean (n := 26) CheckedFpu.shiftUpToHidden shiftUpToHidden (fun _ _ => rfl)
    (fun _ _ _ => rfl) (fun _ _ _ => rfl)
    (fun s hs => (BitField.and_bit_eq_zero_iff_lt s (by decide) hs).mp) (by decide) (by decide) 64
    hs hlow hhigh

theorem shiftUpToWideHidden_clean {s : BitVec 64} {e : ℤ} (hlow : -2 ^ 31 + 64 ≤ e)
    (hhigh : e < 2 ^ 31) :
    Clean (CheckedFpu.shiftUpToWideHidden 64 s e) (shiftUpToWideHidden 64 s e) :=
  normalize_clean (n := 62) (b := 64) CheckedFpu.shiftUpToWideHidden shiftUpToWideHidden
    (fun _ _ => rfl) (fun _ _ _ => rfl) (fun _ _ _ => rfl)
    (fun s _ => (wide_bits_clear_iff s).mp) (by decide) (by decide) 64 s.isLt hlow hhigh

/-! ## §2. Unpacking -/

/-- **The constructor of `UnpackedFp32` is clean** for every pattern. -/
theorem ofRaw_clean (raw : BitVec 32) : Clean (CheckedFpu.ofRaw raw) (UnpackedFp32.ofRaw raw) := by
  have hexponent : ((raw >>> 23) &&& 0xff#32).toNat ≤ 255 := by
    rw [BitVec.toNat_and]
    exact Nat.and_le_right
  have hfraction : (raw &&& 0x7fffff).toNat < 2 ^ 24 := by
    rw [BitVec.toNat_and]
    exact Nat.and_le_right.trans_lt (by decide)
  unfold CheckedFpu.ofRaw UnpackedFp32.ofRaw
  refine clean_ite (fun _ => clean_ite (fun _ => clean_ok _) fun _ => clean_ok _) fun _ => ?_
  refine clean_ite (fun _ => clean_ite (fun _ => clean_ok _) fun hne => ?_) fun _ => ?_
  · refine clean_check (require_of hne) (clean_bind (normalizeSubnormal_clean hfraction) ?_)
    exact fun _ _ => clean_ok _
  · exact clean_check (int32_of_range (by omega) (by omega)) (clean_ok _)

/-! ## §3. Rounding -/

/-- What `round_and_pack` is called with: a significand below `2 ^ 28`, and an exponent far
from the ends of its type. -/
structure Roundable (significand : BitVec 64) (exponent : ℤ) : Prop where
  high : significand.toNat < 2 ^ 28
  exponent_low : -1000 ≤ exponent
  exponent_high : exponent ≤ 1000

theorem shiftToSubnormal_clean {s : BitVec 64} {e : ℤ} (hlow : -2000 ≤ e) :
    Clean (CheckedFpu.shiftToSubnormal s e)
      (.ok (if e < -126 then (shiftRightJam s (-126 - e).toNat, -126) else (s, e))) := by
  unfold CheckedFpu.shiftToSubnormal
  refine clean_ite_ok (fun _ => ?_) fun _ => clean_ok _
  exact clean_check (int32_of_range (by omega) (by omega))
    (clean_check (shiftRightJam_checked s _) (clean_ok _))

theorem roundSignificand_clean (roundUp : Bool) {s : BitVec 64} (hs : s.toNat < 2 ^ 63) :
    Clean (CheckedFpu.roundSignificand roundUp s)
      (.ok (if roundUp then (s >>> 3) + 1 else s >>> 3)) := by
  have hone : (1 : BitVec 64).toNat = 1 := rfl
  have hshift : (s >>> 3).toNat ≤ s.toNat := by
    rw [BitVec.toNat_ushiftRight, Nat.shiftRight_eq_div_pow]
    exact Nat.div_le_self _ _
  unfold CheckedFpu.roundSignificand
  cases roundUp
  · exact clean_ok _
  · exact add_of_lt (by omega)

theorem carryRounded_clean (r : BitVec 64) {e : ℤ} (hlow : -2000 ≤ e) (hhigh : e ≤ 2000) :
    Clean (CheckedFpu.carryRounded r e)
      (.ok (if r ≥ fp32HiddenBit <<< 1 then (r >>> 1, e + 1) else (r, e))) := by
  unfold CheckedFpu.carryRounded
  refine clean_ite_ok (fun _ => ?_) fun _ => clean_ok _
  exact clean_check (int32_of_range (by omega) (by omega)) (clean_ok _)

theorem packRounded_clean (sign : Bool) {e : ℤ} (hlow : -126 ≤ e) (hhigh : e ≤ 127)
    (s : BitVec 64) (inexact : Bool) :
    Clean (CheckedFpu.packRounded sign e s inexact) (.ok (packRounded sign e s inexact)) := by
  -- the biased exponent has eight bits, which the field takes
  have hfield (c : Bool) :
      (if c then 0 else BitVec.ofInt 32 (e + 127) : BitVec 32).toNat * 2 ^ 23 < 2 ^ 32 := by
    cases c
    · rw [if_neg Bool.false_ne_true, BitVec.toNat_ofInt]
      omega
    · rw [if_pos rfl]
      decide
  unfold CheckedFpu.packRounded packRounded
  refine clean_ite_ok (fun _ => clean_ok _) fun _ => ?_
  refine clean_check (int32_of_range (by omega) (by omega)) ?_
  exact clean_check (shl_of_lt (hfield _)) (clean_ok _)

/-- Where the two loops of `round_and_pack` leave the significand and the exponent. -/
theorem normalized_range {s s₁ s₂ : BitVec 64} {e e₁ e₂ : ℤ} (h : Roundable s e) (hne : s ≠ 0)
    (hdown : shiftDownToHidden 64 s e = .ok (s₁, e₁))
    (hup : shiftUpToHidden 64 s₁ e₁ = .ok (s₂, e₂)) :
    s₁.toNat < 2 ^ 27 ∧ -1000 ≤ e₁ ∧ e₁ ≤ 1001 ∧ s₂.toNat < 2 ^ 27 ∧ -1027 ≤ e₂ ∧ e₂ ≤ 1001 := by
  have hpos : 0 < s.toNat := BitVec.toNat_pos_of_ne_zero hne
  have hlow := h.exponent_low
  have hhigh := h.exponent_high
  obtain ⟨t, d, hrun, ht, htlt, hd⟩ := shiftDownToHidden_spec e h.high
  cases hdown.symm.trans hrun
  have hpos₁ : 0 < s₁.toNat := by
    obtain rfl | ⟨-, hge⟩ := hd
    · rwa [ht, jam_zero]
    · omega
  obtain ⟨t, k, hrun, ht, -, htlt₂⟩ := shiftUpToHidden_spec (e + d) hpos₁ htlt
  cases hup.symm.trans hrun
  -- each round doubles a significand of 27 bits
  have hk : k < 27 := by
    rw [← Nat.pow_lt_pow_iff_right (a := 2) (by decide)]
    exact (Nat.le_mul_of_pos_left _ hpos₁).trans_lt (ht ▸ htlt₂)
  refine ⟨htlt, ?_, ?_, htlt₂, ?_, ?_⟩
  all_goals omega

/-- The two loops end, one after the other. -/
theorem normalize_ok {s : BitVec 64} {e : ℤ} (h : Roundable s e) (hne : s ≠ 0) :
    ∃ s₁ e₁ s₂ e₂, shiftDownToHidden 64 s e = .ok (s₁, e₁) ∧
      shiftUpToHidden 64 s₁ e₁ = .ok (s₂, e₂) := by
  have hpos : 0 < s.toNat := BitVec.toNat_pos_of_ne_zero hne
  obtain ⟨s₁, e₁, s₂, e₂, hdown, hup, -⟩ := normalize_spec e hpos h.high
  exact ⟨s₁, e₁, s₂, e₂, hdown, hup⟩

/-- **`round_and_pack` is clean** on what it is called with. -/
theorem roundAndPack_clean (sign : Bool) {s : BitVec 64} {e : ℤ} (h : Roundable s e)
    (rm : RoundingMode) :
    Clean (CheckedFpu.roundAndPack sign e s rm) (roundAndPack sign e s rm) := by
  have hlow := h.exponent_low
  have hhigh := h.exponent_high
  have hrange : s = 0 ∨ 1 ≤ s.toNat ∧ s.toNat < 2 ^ 28 := by
    by_cases hzero : s = 0
    · exact .inl hzero
    · exact .inr ⟨BitVec.toNat_pos_of_ne_zero hzero, h.high⟩
  unfold CheckedFpu.roundAndPack roundAndPack
  refine clean_check (require_of hrange) (clean_ite (fun _ => clean_ok _) fun hne => ?_)
  obtain ⟨s₁, e₁, s₂, e₂, hdown, hup⟩ := normalize_ok h hne
  obtain ⟨hs₁, hlow₁, hhigh₁, hs₂, hlow₂, hhigh₂⟩ := normalized_range h hne hdown hup
  rw [hdown]
  refine clean_check ((shiftDownToHidden_clean 64 s (by omega) (by omega)).eq_ok hdown) ?_
  show Clean _ (shiftUpToHidden 64 s₁ e₁ >>= _)
  rw [hup]
  refine clean_check ((shiftUpToHidden_clean hs₁ (by omega) (by omega)).eq_ok hup) ?_
  refine clean_check (shiftToSubnormal_clean (by omega)) ?_
  -- on the grid the exponent is at least the least one
  have hgrid : ∃ s₃ e₃, (if e₂ < -126 then (shiftRightJam s₂ (-126 - e₂).toNat, -126)
      else (s₂, e₂)) = (s₃, e₃) ∧ s₃.toNat < 2 ^ 27 ∧ -126 ≤ e₃ ∧ e₃ ≤ 1001 := by
    split
    · exact ⟨_, _, rfl, shiftRightJam_lt (by decide) hs₂ _, by decide, by decide⟩
    · exact ⟨_, _, rfl, hs₂, by omega, by omega⟩
  obtain ⟨s₃, e₃, hpair, hs₃, hlow₃, hhigh₃⟩ := hgrid
  dsimp only [bind, Except.bind]
  rw [hpair]
  dsimp only
  refine clean_bind (clean_lift _) fun up _ => ?_
  refine clean_check (roundSignificand_clean up (by omega)) ?_
  generalize (if up = true then (s₃ >>> 3) + 1 else s₃ >>> 3) = rounded
  refine clean_check (carryRounded_clean rounded (by omega) (by omega)) ?_
  have hcarried : ∃ r e₄, (if rounded ≥ fp32HiddenBit <<< 1 then (rounded >>> 1, e₃ + 1)
      else (rounded, e₃)) = (r, e₄) ∧ -126 ≤ e₄ := by
    split
    · exact ⟨_, _, rfl, by omega⟩
    · exact ⟨_, _, rfl, hlow₃⟩
  obtain ⟨r, e₄, hpair₄, hlow₄⟩ := hcarried
  rw [hpair₄]
  refine clean_ite (fun _ => clean_ok _) fun hle => ?_
  exact packRounded_clean sign hlow₄ (by omega) r _

/-- A bit below the last one of a number is not set. -/
theorem and_bit_eq_zero_of_dvd {s : BitVec 64} {n : ℕ} (hn : n < 64) (h : 2 ^ (n + 1) ∣ s.toNat) :
    s &&& (1#64 <<< n) = 0 := by
  obtain ⟨k, hk⟩ := h
  rw [BitField.and_bit_eq_zero_iff s hn, BitVec.getLsbD, Nat.testBit_eq_decide_div_mod_eq,
    decide_eq_false_iff_not, hk, Nat.pow_succ, Nat.mul_assoc,
    Nat.mul_div_cancel_left _ (Nat.two_pow_pos n)]
  omega

/-- A multiple of `2 ^ 27` never shifts a bit up to bit 26. -/
theorem shiftUpToHidden_diverges (fuel : ℕ) {s : BitVec 64} (e : ℤ) (hs : 2 ^ 27 ∣ s.toNat) :
    shiftUpToHidden fuel s e = .error .divergence := by
  induction fuel generalizing s e with
  | zero => rfl
  | succ fuel ih =>
    have hdouble : 2 ^ 27 ∣ (s <<< 1).toNat := by
      rw [BitVec.toNat_shiftLeft, Nat.shiftLeft_eq]
      exact (Nat.dvd_mod_iff (by decide)).mpr (hs.mul_right _)
    have hbit : s &&& fp32ExtendedHiddenBit = 0 := and_bit_eq_zero_of_dvd (n := 26) (by decide) hs
    rw [shiftUpToHidden, if_pos hbit]
    exact ih (e - 1) hdouble

/-- **Outside its range `round_and_pack` may loop forever.** -/
theorem roundAndPack_diverges (sign : Bool) {s : BitVec 64} (e : ℤ) (hne : s ≠ 0)
    (hs : 2 ^ 28 ∣ s.toNat) (rm : RoundingMode) :
    roundAndPack sign e s rm = .error .divergence := by
  have hbit : s &&& (fp32ExtendedHiddenBit <<< 1) = 0 := and_bit_eq_zero_of_dvd (n := 27)
    (by decide) hs
  have hdown : shiftDownToHidden 64 s e = .ok (s, e) := by
    rw [shiftDownToHidden, if_neg (not_not.mpr hbit)]
  have hdvd : 2 ^ 27 ∣ s.toNat := (Nat.pow_dvd_pow 2 (by decide)).trans hs
  unfold roundAndPack
  rw [if_neg hne, hdown]
  show (shiftUpToHidden 64 s e >>= _) = _
  rw [shiftUpToHidden_diverges 64 e hdvd]
  rfl

end ZincSim
