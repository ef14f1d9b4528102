/-
  ZincSim.Lib.Datum — what the patterns of binary32 stand for, and arithmetic on that.

  A datum is a NaN, an infinity or a real number with a sign.  The operations of the
  format are exact on data: an invalid operation makes a signaling NaN, and any datum is
  delivered once, at the end (`Delivers`), rounded to the grid of the format.
-/
import ZincSim.Lib.Binary32
import ZincSim.Lib.Rounding

namespace Binary32

open Rounding

/-! ## §1. Data -/

/-- What a pattern stands for; a zero has a sign of its own. -/
inductive Datum where
  | nan (signaling : Bool)
  | infinite (negative : Bool)
  | finite (negative : Bool) (x : ℝ)

/-- The datum of a pattern.  The first bit of the fraction makes a NaN quiet. -/
noncomputable def datum (pattern : BitVec 32) : Datum :=
  if exponent pattern = 255 then
    if fraction pattern = 0 then .infinite (sign pattern) else .nan (!(fraction pattern).msb)
  else
    .finite (sign pattern)
      ((if sign pattern then -magnitude pattern else magnitude pattern : ℚ) : ℝ)

/-- The pattern stands for a real number. -/
def StandsFor (pattern : BitVec 32) (x : ℝ) : Prop :=
  ∃ v : ℚ, value pattern = some v ∧ (v : ℝ) = x

theorem datum_of_value {pattern : BitVec 32} {v : ℚ} (h : value pattern = some v) :
    datum pattern = .finite (sign pattern) v := by
  unfold value at h
  split at h
  · cases h
  next hfinite =>
    obtain rfl := Option.some.inj h
    exact if_neg hfinite

theorem datum_of_infinite {pattern : BitVec 32} (h : IsInfinite pattern) :
    datum pattern = .infinite (sign pattern) := by
  rw [datum, if_pos h.1, if_pos h.2]

theorem datum_of_nan {pattern : BitVec 32} (h : IsNaN pattern) :
    datum pattern = .nan (!(fraction pattern).msb) := by
  rw [datum, if_pos h.1, if_neg h.2]

/-- The pattern is a NaN whose quiet bit is clear. -/
def IsSignaling (pattern : BitVec 32) : Prop := IsNaN pattern ∧ (fraction pattern).msb = false

/-! ## §2. Exact arithmetic -/

namespace Datum

def isNaN : Datum → Bool
  | nan _ => true
  | _ => false

def signaling : Datum → Bool
  | nan s => s
  | _ => false

section Tests

variable (s a : Bool) (x : ℝ)

@[simp] theorem isNaN_nan : (nan s).isNaN = true := rfl
@[simp] theorem isNaN_infinite : (infinite a).isNaN = false := rfl
@[simp] theorem isNaN_finite : (finite a x).isNaN = false := rfl
@[simp] theorem signaling_nan : (nan s).signaling = s := rfl
@[simp] theorem signaling_infinite : (infinite a).signaling = false := rfl
@[simp] theorem signaling_finite : (finite a x).signaling = false := rfl

end Tests

open Classical in
/-- The sign of a sum.  A zero sum of opposite signs is positive, unless rounding is
downwards. -/
noncomputable def sumSign (mode : Mode) (a b : Bool) (sum : ℝ) : Bool :=
  if sum = 0 then if a = b then a else decide (mode = .towardNegative) else decide (sum < 0)

def neg : Datum → Datum
  | nan s => nan s
  | infinite a => infinite (!a)
  | finite a x => finite (!a) (-x)

/-- The operand of an operation that subtracts it. -/
def negIf (negate : Bool) (d : Datum) : Datum := if negate then d.neg else d

noncomputable def add (mode : Mode) : Datum → Datum → Datum
  | infinite a, infinite b => if a = b then infinite a else nan true
  | infinite a, finite _ _ => infinite a
  | finite _ _, infinite b => infinite b
  | finite a x, finite b y => finite (sumSign mode a b (x + y)) (x + y)
  -- a NaN operand
  | d, e => nan (d.signaling || e.signaling)

open Classical in
noncomputable def mul : Datum → Datum → Datum
  | infinite a, infinite b => infinite (a ^^ b)
  | infinite a, finite b y => if y = 0 then nan true else infinite (a ^^ b)
  | finite a x, infinite b => if x = 0 then nan true else infinite (a ^^ b)
  | finite a x, finite b y => finite (a ^^ b) (x * y)
  | d, e => nan (d.signaling || e.signaling)

open Classical in
noncomputable def div : Datum → Datum → Datum
  | infinite _, infinite _ => nan true
  | infinite a, finite b _ => infinite (a ^^ b)
  | finite a _, infinite b => finite (a ^^ b) 0
  | finite a x, finite b y =>
      if y = 0 then if x = 0 then nan true else infinite (a ^^ b)
      else finite (a ^^ b) (x / y)
  | d, e => nan (d.signaling || e.signaling)

open Classical in
noncomputable def sqrt : Datum → Datum
  | infinite a => if a then nan true else infinite false
  | finite a x => if x < 0 then nan true else finite a √x
  | nan s => nan s

@[simp] theorem isNaN_negIf (c : Bool) (d : Datum) : (d.negIf c).isNaN = d.isNaN := by
  cases c <;> cases d <;> rfl

@[simp] theorem signaling_negIf (c : Bool) (d : Datum) :
    (d.negIf c).signaling = d.signaling := by
  cases c <;> cases d <;> rfl

@[simp] theorem negIf_infinite (c a : Bool) : (infinite a).negIf c = infinite (a ^^ c) := by
  cases c <;> cases a <;> rfl

@[simp] theorem negIf_finite (c a : Bool) (x : ℝ) :
    (finite a x).negIf c = finite (a ^^ c) (if c then -x else x) := by
  cases c <;> cases a <;> rfl

theorem negIf_eq_infinite_iff (c : Bool) (d : Datum) (b : Bool) :
    d.negIf c = infinite b ↔ d = infinite (b ^^ c) := by
  cases c <;> cases d <;> simp [negIf, neg, Bool.not_eq_eq_eq_not]

section OfNaN

variable {d e : Datum} (h : (d.isNaN || e.isNaN) = true)

include h

theorem add_of_nan (mode : Mode) : d.add mode e = nan (d.signaling || e.signaling) := by
  cases d <;> cases e <;> first | rfl | exact absurd h Bool.false_ne_true

theorem mul_of_nan : d.mul e = nan (d.signaling || e.signaling) := by
  cases d <;> cases e <;> first | rfl | exact absurd h Bool.false_ne_true

theorem div_of_nan : d.div e = nan (d.signaling || e.signaling) := by
  cases d <;> cases e <;> first | rfl | exact absurd h Bool.false_ne_true

end OfNaN

/-! When an operation is invalid, and when its result is finite. -/

theorem eq_nan_true_iff (d : Datum) : d = nan true ↔ d.signaling = true := by
  cases d <;> simp

/-- Zero times infinity. -/
def InvalidProduct (d e : Datum) : Prop :=
  (∃ a b, d = infinite a ∧ e = finite b 0) ∨ ∃ a b, d = finite a 0 ∧ e = infinite b

theorem isNaN_mul_iff (d e : Datum) :
    (d.mul e).isNaN = true ↔ d.isNaN = true ∨ e.isNaN = true ∨ InvalidProduct d e := by
  cases d <;> cases e <;> simp [mul, InvalidProduct, apply_ite Datum.isNaN]

theorem signaling_mul_iff (d e : Datum) : (d.mul e).signaling = true ↔
    d.signaling = true ∨ e.signaling = true ∨ InvalidProduct d e := by
  cases d <;> cases e <;> simp [mul, InvalidProduct, apply_ite Datum.signaling]

theorem signaling_add_iff (mode : Mode) (d e : Datum) : (d.add mode e).signaling = true ↔
    d.signaling = true ∨ e.signaling = true ∨
      ∃ a b, d = infinite a ∧ e = infinite b ∧ a ≠ b := by
  cases d <;> cases e <;> simp [add, apply_ite Datum.signaling]

theorem signaling_div_iff (d e : Datum) : (d.div e).signaling = true ↔
    d.signaling = true ∨ e.signaling = true ∨ (∃ a b, d = infinite a ∧ e = infinite b) ∨
      ∃ a b, d = finite a 0 ∧ e = finite b 0 := by
  cases d <;> cases e <;> simp [div, apply_ite Datum.signaling, and_comm]

section Finite

variable (d e : Datum) (P : ℝ → Prop)

theorem exists_add_iff (mode : Mode) : (∃ s z, d.add mode e = finite s z ∧ P z) ↔
    ∃ a x b y, d = finite a x ∧ e = finite b y ∧ P (x + y) := by
  cases d <;> cases e <;> simp [add, ite_eq_iff]

theorem exists_mul_iff : (∃ s z, d.mul e = finite s z ∧ P z) ↔
    ∃ a x b y, d = finite a x ∧ e = finite b y ∧ P (x * y) := by
  cases d <;> cases e <;> simp [mul, ite_eq_iff]

theorem exists_negIf_iff (c : Bool) : (∃ s z, d.negIf c = finite s z ∧ P z) ↔
    ∃ a x, d = finite a x ∧ P (if c then -x else x) := by
  cases d <;> cases c <;> simp [negIf, neg]

theorem exists_div_iff : (∃ s z, d.div e = finite s z ∧ P z) ↔
    (∃ a x b y, d = finite a x ∧ e = finite b y ∧ y ≠ 0 ∧ P (x / y)) ∨
      (∃ a x b, d = finite a x ∧ e = infinite b) ∧ P 0 := by
  cases d <;> cases e <;> simp [div, ite_eq_iff]

end Finite

end Datum

section Patterns

variable (pattern : BitVec 32)

/-- A pattern is of one of the three kinds. -/
theorem datum_cases : (IsNaN pattern ∧ datum pattern = .nan (!(fraction pattern).msb)) ∨
    (IsInfinite pattern ∧ datum pattern = .infinite (sign pattern)) ∨
    ∃ v, value pattern = some v ∧ datum pattern = .finite (sign pattern) v := by
  cases hv : value pattern with
  | none =>
    rcases (value_eq_none_iff pattern).mp hv with hinf | hnan
    · exact .inr (.inl ⟨hinf, datum_of_infinite hinf⟩)
    · exact .inl ⟨hnan, datum_of_nan hnan⟩
  | some v => exact .inr (.inr ⟨v, rfl, datum_of_value hv⟩)

theorem signaling_datum_iff : (datum pattern).signaling = true ↔ IsSignaling pattern := by
  unfold IsSignaling
  rcases datum_cases pattern with ⟨hnan, hd⟩ | ⟨hinf, hd⟩ | ⟨v, hv, hd⟩ <;> rw [hd]
  · simp [hnan]
  · refine iff_of_false Bool.false_ne_true fun h => h.1.2 hinf.2
  · refine iff_of_false Bool.false_ne_true fun h => ?_
    rw [(value_eq_none_iff pattern).mpr (.inr h.1)] at hv
    cases hv

theorem datum_eq_infinite_iff (s : Bool) :
    datum pattern = .infinite s ↔ IsInfinite pattern ∧ sign pattern = s := by
  rcases datum_cases pattern with ⟨hnan, hd⟩ | ⟨hinf, hd⟩ | ⟨v, hv, hd⟩ <;> rw [hd]
  · exact iff_of_false (by simp) fun h => hnan.2 h.1.2
  · simp [hinf]
  · refine iff_of_false (by simp) fun h => ?_
    rw [(value_eq_none_iff pattern).mpr (.inl h.1)] at hv
    cases hv

theorem datum_eq_finite_iff (s : Bool) (x : ℝ) :
    datum pattern = .finite s x ↔ sign pattern = s ∧ StandsFor pattern x := by
  unfold StandsFor
  rcases datum_cases pattern with ⟨hnan, hd⟩ | ⟨hinf, hd⟩ | ⟨v, hv, hd⟩ <;> rw [hd]
  · refine iff_of_false (by simp) fun ⟨_, v, hv, _⟩ => ?_
    rw [(value_eq_none_iff pattern).mpr (.inr hnan)] at hv
    cases hv
  · refine iff_of_false (by simp) fun ⟨_, v, hv, _⟩ => ?_
    rw [(value_eq_none_iff pattern).mpr (.inl hinf)] at hv
    cases hv
  · simp [hv]

end Patterns

/-! ## §3. The grid -/

/-- The exponent of the last place that a number of this size keeps: 24 bits, and no
bit below those of the subnormals. -/
noncomputable def ulpExponent (x : ℝ) : ℤ := max (Int.log 2 |x|) (-126) - 23

/-- `x` rounded to the grid, as if the exponent range had no upper end. -/
noncomputable def roundReal (mode : Mode) (x : ℝ) : ℝ :=
  if x < 0 then -roundAt (mode.direction true) (ulpExponent x) (-x)
  else roundAt (mode.direction false) (ulpExponent x) x

/-- The largest finite number. -/
def largest : ℝ := (2 ^ 24 - 1) * 2 ^ 104

/-- The rounded number is out of range. -/
def Overflows (mode : Mode) (x : ℝ) : Prop := largest < |roundReal mode x|

/-! ## §4. Delivery -/

/-- The pattern is the one of the datum, rounded. -/
def Encodes (mode : Mode) (pattern : BitVec 32) : Datum → Prop
  | .nan _ => pattern = 0x7fc00000
  | .infinite s => pattern = pack s 255 0
  | .finite s x =>
      (¬ Overflows mode x → sign pattern = s ∧ StandsFor pattern (roundReal mode x)) ∧
      (Overflows mode x → pattern =
        -- a mode that rounds the magnitude down stays at the largest number
        if mode.direction s = .toZero then pack s 254 (BitVec.allOnes 23) else pack s 255 0)

/-- The datum is delivered as a pattern and three exceptions. -/
structure Delivers (mode : Mode) (d : Datum) (pattern : BitVec 32)
    (invalid overflow inexact : Prop) : Prop where
  encodes : Encodes mode pattern d
  invalid : invalid ↔ d = .nan true
  overflow : overflow ↔ ∃ s x, d = .finite s x ∧ Overflows mode x
  inexact : inexact ↔ ∃ s x, d = .finite s x ∧ ¬ StandsFor pattern x

end Binary32
