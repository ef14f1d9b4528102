/-
  ZincSim.Lib.Checked — machine arithmetic that stops where it would lose something.

  A checked computation fails in one way more than the plain one: at an unsigned operation
  whose word is not the exact number, at a signed one that leaves its type, and where a
  stated precondition does not hold.  `Clean c x` says that `c` meets none of these and
  ends as the plain computation `x` does.  The rules follow the shapes of `do` blocks.
-/
import Mathlib

namespace Checked

/-! ## §1. Operations -/

/-- Why a checked computation stops. -/
inductive Violation (ε : Type) where
  /-- The plain computation fails, too. -/
  | fault (e : ε)
  /-- A precondition does not hold. -/
  | precondition
  /-- An unsigned result is not the exact number. -/
  | lostBits
  /-- A signed result is not a number of its type. -/
  | overflow
  deriving DecidableEq, Repr

variable {ε α β : Type} {w : ℕ}

/-- The plain computation, as a checked one. -/
def lift : Except ε α → Except (Violation ε) α
  | .ok a => .ok a
  | .error e => .error (.fault e)

/-- A precondition. -/
def require (p : Prop) [Decidable p] : Except (Violation ε) Unit :=
  if p then .ok () else .error .precondition

/-- The word of a number. -/
def exact (word : BitVec w) (n : ℕ) : Except (Violation ε) (BitVec w) :=
  if word.toNat = n then .ok word else .error .lostBits

/-- `x + y`. -/
def add (x y : BitVec w) : Except (Violation ε) (BitVec w) := exact (x + y) (x.toNat + y.toNat)

/-- `x * y`. -/
def mul (x y : BitVec w) : Except (Violation ε) (BitVec w) := exact (x * y) (x.toNat * y.toNat)

/-- `x << n`. -/
def shl (x : BitVec w) (n : ℕ) : Except (Violation ε) (BitVec w) :=
  exact (x <<< n) (x.toNat * 2 ^ n)

/-- A signed number of `bits` bits. -/
def signedInt (bits : ℕ) (x : ℤ) : Except (Violation ε) ℤ :=
  if -2 ^ (bits - 1) ≤ x ∧ x < 2 ^ (bits - 1) then .ok x else .error .overflow

/-- `f x y`, a signed division or remainder: the divisor is not zero, and the quotient,
which truncates toward zero, is a number of the type. -/
def signedDivision (f : BitVec w → BitVec w → BitVec w) (x y : BitVec w) :
    Except (Violation ε) (BitVec w) := do
  require (y ≠ 0)
  let _quotient ← signedInt w (x.toInt.tdiv y.toInt)
  return f x y

theorem require_of {p : Prop} [Decidable p] (h : p) :
    (require p : Except (Violation ε) Unit) = .ok () := if_pos h

theorem exact_of_eq {word : BitVec w} {n : ℕ} (h : word.toNat = n) :
    (exact word n : Except (Violation ε) (BitVec w)) = .ok word := if_pos h

theorem add_of_lt {x y : BitVec w} (h : x.toNat + y.toNat < 2 ^ w) :
    (add x y : Except (Violation ε) (BitVec w)) = .ok (x + y) := by
  apply exact_of_eq
  rw [BitVec.toNat_add]
  exact Nat.mod_eq_of_lt h

theorem mul_of_lt {x y : BitVec w} (h : x.toNat * y.toNat < 2 ^ w) :
    (mul x y : Except (Violation ε) (BitVec w)) = .ok (x * y) := by
  apply exact_of_eq
  rw [BitVec.toNat_mul]
  exact Nat.mod_eq_of_lt h

theorem shl_of_lt {x : BitVec w} {n : ℕ} (h : x.toNat * 2 ^ n < 2 ^ w) :
    (shl x n : Except (Violation ε) (BitVec w)) = .ok (x <<< n) := by
  apply exact_of_eq
  rw [BitVec.toNat_shiftLeft, Nat.shiftLeft_eq]
  exact Nat.mod_eq_of_lt h

/-- A single bit in its place. -/
theorem shl_one {n : ℕ} (hn : n < w) :
    (shl 1#w n : Except (Violation ε) (BitVec w)) = .ok (1#w <<< n) := by
  have hpow : 2 ^ n < 2 ^ w := Nat.pow_lt_pow_right (by decide) hn
  have hone : (1#w).toNat ≤ 1 := Nat.mod_le 1 (2 ^ w)
  apply shl_of_lt
  exact (Nat.mul_le_mul_right _ hone).trans_lt (by rwa [one_mul])

theorem signedInt_of_range {bits : ℕ} {x : ℤ} (hlow : -2 ^ (bits - 1) ≤ x)
    (hhigh : x < 2 ^ (bits - 1)) :
    (signedInt bits x : Except (Violation ε) ℤ) = .ok x := if_pos ⟨hlow, hhigh⟩

/-- The only quotient that does not fit is the one of the smallest number by -1. -/
theorem signedDivision_of (f : BitVec w → BitVec w → BitVec w) {x y : BitVec w} (hzero : y ≠ 0)
    (hmin : x ≠ BitVec.intMin w ∨ y ≠ -1) :
    (signedDivision f x y : Except (Violation ε) (BitVec w)) = .ok (f x y) := by
  have hquotient := BitVec.toInt_sdiv_of_ne_or_ne x y hmin
  have hfits : (signedInt w (x.toInt.tdiv y.toInt) : Except (Violation ε) ℤ) =
      .ok (x.toInt.tdiv y.toInt) := by
    rw [← hquotient]
    exact signedInt_of_range (BitVec.le_toInt _) BitVec.toInt_lt
  unfold signedDivision
  rw [require_of hzero, hfits]
  rfl

/-! ## §2. Clean computations -/

/-- The checked computation violates nothing and ends as the plain one does. -/
def Clean (c : Except (Violation ε) α) (x : Except ε α) : Prop := c = lift x

theorem clean_ok (a : α) : Clean (.ok a : Except (Violation ε) α) (.ok a) := rfl

theorem clean_error (e : ε) : Clean (.error (.fault e) : Except (Violation ε) α) (.error e) := rfl

/-- A plain computation in a checked one. -/
theorem clean_lift (x : Except ε α) : Clean (lift x) x := rfl

/-- What a clean computation returns. -/
theorem Clean.eq_ok {c : Except (Violation ε) α} {x : Except ε α} {a : α} (h : Clean c x)
    (hx : x = .ok a) : c = .ok a := by
  rw [h, hx]
  rfl

/-- The rule of sequencing. -/
theorem clean_bind {c : Except (Violation ε) α} {x : Except ε α}
    {f : α → Except (Violation ε) β} {g : α → Except ε β} (hx : Clean c x)
    (hf : ∀ a, x = .ok a → Clean (f a) (g a)) : Clean (c >>= f) (x >>= g) := by
  cases x with
  | error e =>
    rw [hx]
    rfl
  | ok a =>
    rw [hx]
    exact hf a rfl

/-- A check that passes. -/
theorem clean_check {c : Except (Violation ε) α} {f : α → Except (Violation ε) β}
    {x : Except ε β} {a : α} (hc : c = .ok a) (hf : Clean (f a) x) : Clean (c >>= f) x := by
  rw [hc]
  exact hf

theorem clean_ite {p : Prop} [Decidable p] {c d : Except (Violation ε) α} {x y : Except ε α}
    (hc : p → Clean c x) (hd : ¬p → Clean d y) :
    Clean (if p then c else d) (if p then x else y) := by
  by_cases h : p
  · rw [if_pos h, if_pos h]
    exact hc h
  · rw [if_neg h, if_neg h]
    exact hd h

/-- The same for a plain value that is chosen by the test. -/
theorem clean_ite_ok {p : Prop} [Decidable p] {c d : Except (Violation ε) α} {a b : α}
    (hc : p → Clean c (.ok a)) (hd : ¬p → Clean d (.ok b)) :
    Clean (if p then c else d) (.ok (if p then a else b)) := by
  rw [apply_ite Except.ok]
  exact clean_ite hc hd

end Checked
