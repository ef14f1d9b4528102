/-
  ZincSim.Fpu.Compare — comparisons, minimum and maximum.

  `less_than` is the strict order of the bits, which puts -0 below +0 (`lessThan_iff`).
  Where neither operand is a NaN that is the order of the values, up to the two zeros.
-/
import ZincSim.Lib.NumericOrder
import ZincSim.Lib.TwosComplement
import ZincSim.Fpu.Deliver

namespace ZincSim

open Binary32 (IsNaN IsSignaling AtMost Compare datum magnitudeBits orderKey)

/-! ## §1. `less_than` -/

theorem sign_test (raw : BitVec 32) :
    decide (raw &&& fp32SignMask ≠ 0) = Binary32.sign raw := by
  rw [Bool.eq_iff_iff, decide_eq_true_iff]
  exact TwosComplement.and_signBit_ne_zero raw (by decide)

theorem toNat_magnitudeMask (raw : BitVec 32) :
    (raw &&& fp32MagnitudeMask).toNat = magnitudeBits raw := by
  have h := masked_eq_pack raw false
  rw [show signBits false = 0#32 from rfl, BitVec.or_zero] at h
  rw [h, Binary32.toNat_pack, if_neg Bool.false_ne_true, zero_add]
  rfl

/-- **`less_than` orders all patterns**, the zeros by their signs. -/
theorem lessThan_iff (lhs rhs : BitVec 32) : lessThan lhs rhs = true ↔
    orderKey lhs < orderKey rhs ∨
      orderKey lhs = orderKey rhs ∧ Binary32.sign lhs = true ∧ Binary32.sign rhs = false := by
  have hless : (lhs &&& fp32MagnitudeMask < rhs &&& fp32MagnitudeMask) ↔
      magnitudeBits lhs < magnitudeBits rhs := by
    rw [BitVec.lt_def, toNat_magnitudeMask, toNat_magnitudeMask]
  have hgreater : (lhs &&& fp32MagnitudeMask > rhs &&& fp32MagnitudeMask) ↔
      magnitudeBits rhs < magnitudeBits lhs := by
    rw [gt_iff_lt, BitVec.lt_def, toNat_magnitudeMask, toNat_magnitudeMask]
  unfold lessThan orderKey
  rw [sign_test, sign_test]
  -- different signs decide; equal ones leave it to the magnitudes
  cases Binary32.sign lhs <;> cases Binary32.sign rhs
  · show decide (lhs &&& fp32MagnitudeMask < rhs &&& fp32MagnitudeMask) = true ↔ _
    rw [decide_eq_true_iff, hless]
    simp
  · show false = true ↔ _
    simp
  · show true = true ↔ _
    simp
    omega
  · show decide (lhs &&& fp32MagnitudeMask > rhs &&& fp32MagnitudeMask) = true ↔ _
    rw [decide_eq_true_iff, hgreater]
    simp

/-- The order that `min_or_max` goes by. -/
theorem lessThan_iff_not_atMost {lhs rhs : BitVec 32} (hl : ¬ IsNaN lhs) (hr : ¬ IsNaN rhs) :
    lessThan lhs rhs = true ↔ ¬ AtMost rhs lhs := by
  rw [lessThan_iff, Binary32.atMost_iff hr hl]
  cases Binary32.sign lhs <;> cases Binary32.sign rhs <;> simp <;> omega

/-! ## §2. Operands -/

theorem Operand.isSignaling_iff {raw : BitVec 32} {u : UnpackedFp32} (h : Operand raw u) :
    u.fpClass.isSignalingNan = true ↔ IsSignaling raw := by
  rw [h.nan_tests.2, Binary32.signaling_datum_iff]

/-- Only the zeros share a key. -/
theorem Operand.orderKey_eq_iff {lhsRaw rhsRaw : BitVec 32} {lhs rhs : UnpackedFp32}
    (hl : Operand lhsRaw lhs) (hr : Operand rhsRaw rhs) : orderKey lhsRaw = orderKey rhsRaw ↔
      (lhs.fpClass = .zero ∧ rhs.fpClass = .zero) ∨ lhsRaw = rhsRaw := by
  have hzero {raw : BitVec 32} {u : UnpackedFp32} (h : Operand raw u) :
      u.fpClass = .zero ↔ magnitudeBits raw = 0 := by
    rw [h.zero_iff, Binary32.value_eq_zero_iff, ← Binary32.magnitude_eq_zero_iff,
      ← not_iff_not, ← ne_eq, ← ne_eq, ← Nat.pos_iff_ne_zero, ← Binary32.magnitude_pos_iff,
      lt_iff_le_and_ne, ne_comm]
    exact (and_iff_right (Binary32.magnitude_nonneg raw)).symm
  rw [hzero hl, hzero hr]
  constructor
  · intro hkey
    by_cases hsign : Binary32.sign lhsRaw = Binary32.sign rhsRaw
    · exact .inr (Binary32.eq_of_orderKey hkey hsign)
    · left
      unfold orderKey at hkey
      cases hls : Binary32.sign lhsRaw <;> cases hrs : Binary32.sign rhsRaw <;>
        rw [hls, hrs] at hkey hsign <;> simp at hkey hsign <;> omega
  · rintro (⟨hlz, hrz⟩ | rfl)
    · unfold orderKey
      rw [hlz, hrz]
      simp
    · rfl

/-! ## §3. Comparisons -/

/-- The relation of values that a comparison is about. -/
def relation : OpFpType → EReal → EReal → Prop
  | .eq => (· = ·)
  | .lt => (· < ·)
  | .le => (· ≤ ·)
  | _ => fun _ _ => False

/-- The operands for which a comparison raises NV: feq is quiet. -/
def InvalidComparison (op : OpFpType) (lhs rhs : BitVec 32) : Prop :=
  if op = .eq then IsSignaling lhs ∨ IsSignaling rhs else IsNaN lhs ∨ IsNaN rhs

/-- The call answers with 1 when `holds`, else with 0, and raises NV when `invalid` and
nothing else. -/
def Answers (result : Except Fault FpResult) (holds invalid : Prop) : Prop :=
  ∃ word flags, result = .ok (.ofWord word flags) ∧ (word = 1 ∧ holds ∨ word = 0 ∧ ¬ holds) ∧
    (flags = fpFlagNv ∧ invalid ∨ flags = 0 ∧ ¬ invalid)

theorem nv_of_test {test : Bool} {invalid : Prop} (h : test = true ↔ invalid) :
    ((if test then fpFlagNv else 0) = fpFlagNv ∧ invalid ∨
      (if test then fpFlagNv else 0) = 0 ∧ ¬ invalid) := by
  rw [← h]
  cases test with
  | false => exact .inr ⟨rfl, Bool.false_ne_true⟩
  | true => exact .inl ⟨rfl, rfl⟩

section Compare

variable {op : OpFpType} (hop : op ∈ [OpFpType.eq, .lt, .le]) {lhsRaw rhsRaw : BitVec 32}

include hop

/-- The three cases of the `switch`, on two numbers. -/
theorem compareSwitch_iff {lhs rhs : UnpackedFp32} (hl : Operand lhsRaw lhs)
    (hr : Operand rhsRaw rhs) (hlnan : ¬ IsNaN lhsRaw) (hrnan : ¬ IsNaN rhsRaw) :
    ∃ holds, compareSwitch op (decide (lhs.fpClass = .zero) && decide (rhs.fpClass = .zero))
        ((decide (lhs.fpClass = .zero) && decide (rhs.fpClass = .zero)) || decide (lhsRaw = rhsRaw))
        (lessThan lhsRaw rhsRaw) = .ok holds ∧
      (holds = true ↔ Compare (relation op) lhsRaw rhsRaw) := by
  have hkey := hl.orderKey_eq_iff hr
  have hless := lessThan_iff lhsRaw rhsRaw
  simp only [List.mem_cons, List.not_mem_nil, or_false] at hop
  rcases hop with rfl | rfl | rfl
  · refine ⟨_, rfl, ?_⟩
    rw [relation, Binary32.compare_eq_iff hlnan hrnan, hkey]
    simp
  · refine ⟨_, rfl, ?_⟩
    rw [relation, Binary32.compare_lt_iff hlnan hrnan, Bool.and_eq_true, Bool.not_eq_true',
      Bool.and_eq_false_iff, decide_eq_false_iff_not, decide_eq_false_iff_not, ← not_and_or, hless]
    constructor
    · -- `less_than` tells the two zeros apart, which the first test excludes
      rintro ⟨hzero, hlt | ⟨heq, hsign⟩⟩
      · exact hlt
      · rcases hkey.mp heq with hzero' | rfl
        · exact absurd hzero' hzero
        · rw [hsign.1] at hsign
          exact absurd hsign.2 (by decide)
    · exact fun hlt => ⟨fun hzero => hlt.ne (hkey.mpr (.inl hzero)), .inl hlt⟩
  · refine ⟨_, rfl, ?_⟩
    rw [relation, Binary32.compare_le_iff hlnan hrnan, le_iff_lt_or_eq, Bool.or_eq_true, hless,
      hkey]
    simp only [Bool.or_eq_true, Bool.and_eq_true, decide_eq_true_eq]
    constructor
    · rintro (heq | hlt | ⟨heq, -⟩)
      · exact .inr heq
      · exact .inl hlt
      · exact .inr heq
    · rintro (hlt | heq)
      · exact .inr (.inl hlt)
      · exact .inl heq

/-- **Comparisons are those of the values.** -/
theorem compareFp_answers (lhsRaw rhsRaw : BitVec 32) :
    Answers (compareFp op lhsRaw rhsRaw) (Compare (relation op) lhsRaw rhsRaw)
      (InvalidComparison op lhsRaw rhsRaw) := by
  obtain ⟨lhs, hl⟩ := Operand.of_raw lhsRaw
  obtain ⟨rhs, hr⟩ := Operand.of_raw rhsRaw
  have hnan : (lhs.fpClass.isNan || rhs.fpClass.isNan) = true ↔ IsNaN lhsRaw ∨ IsNaN rhsRaw := by
    rw [Bool.or_eq_true, hl.isNan_iff, hr.isNan_iff]
  simp only [compareFp, hl.unpack, hr.unpack, bind, Except.bind, pure, Except.pure]
  by_cases h : IsNaN lhsRaw ∨ IsNaN rhsRaw
  · rw [if_pos (hnan.mpr h)]
    refine ⟨0, _, rfl, .inr ⟨rfl, Binary32.not_compare_of_nan _ h⟩, nv_of_test ?_⟩
    rw [InvalidComparison, Bool.or_eq_true, Bool.or_eq_true, hl.isSignaling_iff,
      hr.isSignaling_iff, decide_eq_true_iff, or_assoc]
    split
    case isTrue heq => simp [heq]
    case isFalse hne => exact iff_of_true (.inl hne) h
  · rw [if_neg (mt hnan.mp h)]
    obtain ⟨hlnan, hrnan⟩ := not_or.mp h
    obtain ⟨holds, hrun, hiff⟩ := compareSwitch_iff hop hl hr hlnan hrnan
    rw [hrun]
    refine ⟨_, 0, rfl, ?_, .inr ⟨rfl, ?_⟩⟩
    · rw [← hiff]
      cases holds <;> simp
    · rw [InvalidComparison]
      split
      · rintro (hs | hs)
        · exact hlnan hs.1
        · exact hrnan hs.1
      · exact h

end Compare

/-! ## §4. Minimum and maximum -/

/-- The order in which `min_or_max` takes the first number. -/
def first (maximum : Bool) (p q : BitVec 32) : Prop := if maximum then AtMost q p else AtMost p q

theorem first_antisymm (maximum : Bool) {p q : BitVec 32} (hp : ¬ IsNaN p) (hq : ¬ IsNaN q)
    (h : first maximum p q) (h' : first maximum q p) : p = q := by
  cases maximum with
  | false => exact Binary32.atMost_antisymm hp hq h h'
  | true => exact Binary32.atMost_antisymm hp hq h' h

/-- The bitwise choice between two zeros is the one of `less_than`. -/
theorem zeros_select (a b maximum : Bool) :
    (if maximum then signBits a &&& signBits b else signBits a ||| signBits b) =
      if maximum then (if lessThan (signBits a) (signBits b) then signBits b else signBits a)
      else (if lessThan (signBits a) (signBits b) then signBits a else signBits b) := by
  cases a <;> cases b <;> cases maximum <;> decide

/-- The choice of `less_than` between two numbers. -/
theorem lessThan_selects (maximum : Bool) {lhs rhs : BitVec 32} (hl : ¬ IsNaN lhs)
    (hr : ¬ IsNaN rhs) {word : BitVec 32}
    (hword : word = if maximum then (if lessThan lhs rhs then rhs else lhs)
      else (if lessThan lhs rhs then lhs else rhs)) :
    word = lhs ∧ first maximum lhs rhs ∨ word = rhs ∧ first maximum rhs lhs := by
  have hless := lessThan_iff_not_atMost hl hr
  by_cases h : AtMost rhs lhs
  · rw [if_neg fun ht => hless.mp ht h, if_neg fun ht => hless.mp ht h] at hword
    cases maximum with
    | false => exact .inr ⟨hword, h⟩
    | true => exact .inl ⟨hword, h⟩
  · have h' := (Binary32.atMost_total hl hr).resolve_right h
    rw [if_pos (hless.mpr h), if_pos (hless.mpr h)] at hword
    cases maximum with
    | false => exact .inl ⟨hword, h'⟩
    | true => exact .inr ⟨hword, h'⟩

/-- **Minimum and maximum** are operands, chosen by the order of the values. -/
theorem minOrMax_selects (lhsRaw rhsRaw : BitVec 32) (maximum : Bool) :
    ∃ word flags, minOrMax lhsRaw rhsRaw maximum = .ok (.ofWord word flags) ∧
      Binary32.Select (first maximum) lhsRaw rhsRaw word ∧
      (flags = fpFlagNv ∧ (IsSignaling lhsRaw ∨ IsSignaling rhsRaw) ∨
        flags = 0 ∧ ¬ (IsSignaling lhsRaw ∨ IsSignaling rhsRaw)) := by
  obtain ⟨lhs, hl⟩ := Operand.of_raw lhsRaw
  obtain ⟨rhs, hr⟩ := Operand.of_raw rhsRaw
  have hflags : (lhs.fpClass.isSignalingNan || rhs.fpClass.isSignalingNan) = true ↔
      IsSignaling lhsRaw ∨ IsSignaling rhsRaw := by
    rw [Bool.or_eq_true, hl.isSignaling_iff, hr.isSignaling_iff]
  have hnv := nv_of_test hflags
  have hlnan := hl.isNan_iff
  have hrnan := hr.isNan_iff
  simp only [minOrMax, hl.unpack, hr.unpack, bind, Except.bind, pure, Except.pure,
    Bool.and_eq_true]
  by_cases hln : IsNaN lhsRaw <;> by_cases hrn : IsNaN rhsRaw
  · rw [if_pos ⟨hlnan.mpr hln, hrnan.mpr hrn⟩]
    exact ⟨_, _, rfl, ⟨fun _ _ => rfl, fun _ h => absurd hrn h, fun h => absurd hln h,
      fun h => absurd hln h⟩, hnv⟩
  · rw [if_neg fun h => hrn (hrnan.mp h.2), if_pos (hlnan.mpr hln)]
    exact ⟨_, _, rfl, ⟨fun _ h => absurd h hrn, fun _ _ => rfl, fun h => absurd hln h,
      fun h => absurd hln h⟩, hnv⟩
  · rw [if_neg fun h => hln (hlnan.mp h.1), if_neg (mt hlnan.mp hln), if_pos (hrnan.mpr hrn)]
    exact ⟨_, _, rfl, ⟨fun h => absurd h hln, fun h => absurd h hln, fun _ _ => rfl,
      fun _ h => absurd hrn h⟩, hnv⟩
  · rw [if_neg fun h => hln (hlnan.mp h.1), if_neg (mt hlnan.mp hln), if_neg (mt hrnan.mp hrn)]
    split
    case isTrue hzero =>
      have hlraw := eq_signBits_of_zero (hl.zero_iff.mp hzero.1)
      have hrraw := eq_signBits_of_zero (hr.zero_iff.mp hzero.2)
      refine ⟨_, _, rfl, ⟨fun h => absurd h hln, fun h => absurd h hln, fun _ h => absurd h hrn,
        fun _ _ => lessThan_selects maximum hln hrn ?_⟩, hnv⟩
      rw [hlraw, hrraw]
      exact zeros_select _ _ maximum
    case isFalse =>
      exact ⟨_, _, rfl, ⟨fun h => absurd h hln, fun h => absurd h hln, fun _ h => absurd h hrn,
        fun _ _ => lessThan_selects maximum hln hrn rfl⟩, hnv⟩

/-- The order of the operands does not matter. -/
theorem minOrMax_comm (lhsRaw rhsRaw : BitVec 32) (maximum : Bool) :
    minOrMax lhsRaw rhsRaw maximum = minOrMax rhsRaw lhsRaw maximum := by
  obtain ⟨word, flags, hrun, hselect, hflags⟩ := minOrMax_selects lhsRaw rhsRaw maximum
  obtain ⟨word', flags', hrun', hselect', hflags'⟩ := minOrMax_selects rhsRaw lhsRaw maximum
  rw [hrun, hrun', hselect.comm (first_antisymm maximum) hselect']
  rw [or_comm (a := IsSignaling rhsRaw)] at hflags'
  rcases hflags with ⟨rfl, h⟩ | ⟨rfl, h⟩ <;> rcases hflags' with ⟨rfl, h'⟩ | ⟨rfl, h'⟩
  · rfl
  · exact absurd h h'
  · exact absurd h' h
  · rfl

/-! ## §5. The five operations -/

/-- **Comparisons, minimum and maximum follow the numeric order.** -/
theorem comparisons_follow_order (lhs rhs : BitVec 32) (rm : RoundingMode) :
    Answers (Fpu.binary .eq lhs rhs rm) (Compare (· = ·) lhs rhs)
        (IsSignaling lhs ∨ IsSignaling rhs) ∧
      Answers (Fpu.binary .lt lhs rhs rm) (Compare (· < ·) lhs rhs) (IsNaN lhs ∨ IsNaN rhs) ∧
      Answers (Fpu.binary .le lhs rhs rm) (Compare (· ≤ ·) lhs rhs) (IsNaN lhs ∨ IsNaN rhs) ∧
      (∃ word flags, Fpu.binary .min lhs rhs rm = .ok (.ofWord word flags) ∧
        Fpu.binary .min rhs lhs rm = .ok (.ofWord word flags) ∧
        Binary32.Select AtMost lhs rhs word ∧
        (flags = fpFlagNv ∧ (IsSignaling lhs ∨ IsSignaling rhs) ∨
          flags = 0 ∧ ¬ (IsSignaling lhs ∨ IsSignaling rhs))) ∧
      (∃ word flags, Fpu.binary .max lhs rhs rm = .ok (.ofWord word flags) ∧
        Fpu.binary .max rhs lhs rm = .ok (.ofWord word flags) ∧
        Binary32.Select (fun p q => AtMost q p) lhs rhs word ∧
        (flags = fpFlagNv ∧ (IsSignaling lhs ∨ IsSignaling rhs) ∨
          flags = 0 ∧ ¬ (IsSignaling lhs ∨ IsSignaling rhs))) := by
  refine ⟨compareFp_answers (by decide) lhs rhs, compareFp_answers (by decide) lhs rhs,
    compareFp_answers (by decide) lhs rhs, ?_, ?_⟩
  · obtain ⟨word, flags, hrun, hselect, hflags⟩ := minOrMax_selects lhs rhs false
    exact ⟨word, flags, hrun, (minOrMax_comm rhs lhs false).trans hrun, hselect, hflags⟩
  · obtain ⟨word, flags, hrun, hselect, hflags⟩ := minOrMax_selects lhs rhs true
    exact ⟨word, flags, hrun, (minOrMax_comm rhs lhs true).trans hrun, hselect, hflags⟩

end ZincSim
