/-
  ZincSim.Lib.Returns — partial and total correctness of computations in `Except`.

  `x.Returns P` says that every value `x` returns satisfies `P`; a computation
  that fails returns nothing.  `x.Yields P` says that `x` does return a value, and
  that it satisfies `P`.  `x.Fails P` says that `P` holds of every failure.  The rules
  follow the shapes of `do` blocks, so a property of the result is proved along the text
  of the computation.
-/

namespace Except

variable {ε α β : Type}

/-- Every returned value satisfies `P`. -/
def Returns (x : Except ε α) (P : α → Prop) : Prop := ∀ a, x = .ok a → P a

theorem returns_ok {P : α → Prop} {a : α} (h : P a) : (Except.ok a : Except ε α).Returns P := by
  intro b hb
  cases hb
  exact h

theorem returns_pure {P : α → Prop} {a : α} (h : P a) : (pure a : Except ε α).Returns P :=
  returns_ok h

theorem returns_error {P : α → Prop} (e : ε) : (Except.error e : Except ε α).Returns P := by
  intro b hb
  cases hb

/-- The rule of sequencing, with the intermediate assertion `Q`. -/
theorem returns_bind {x : Except ε α} {f : α → Except ε β} {P : β → Prop} {Q : α → Prop}
    (hx : x.Returns Q) (hf : ∀ a, Q a → (f a).Returns P) : (x >>= f).Returns P := by
  intro b hb
  cases x with
  | error e => cases hb
  | ok a => exact hf a (hx a rfl) b hb

/-- Sequencing after a computation nothing is known about. -/
theorem returns_bind_any {x : Except ε α} {f : α → Except ε β} {P : β → Prop}
    (hf : ∀ a, (f a).Returns P) : (x >>= f).Returns P :=
  returns_bind (Q := fun _ => True) (fun _ _ => trivial) (fun a _ => hf a)

theorem returns_ite {c : Prop} [Decidable c] {x y : Except ε α} {P : α → Prop}
    (hx : c → x.Returns P) (hy : ¬c → y.Returns P) : (if c then x else y).Returns P := by
  by_cases h : c
  · rw [if_pos h]
    exact hx h
  · rw [if_neg h]
    exact hy h

/-- Weakening the assertion. -/
theorem Returns.mono {x : Except ε α} {P Q : α → Prop} (hx : x.Returns P)
    (h : ∀ a, P a → Q a) : x.Returns Q :=
  fun a ha => h a (hx a ha)

/-- A value is returned, and it satisfies `P`. -/
def Yields (x : Except ε α) (P : α → Prop) : Prop := ∃ a, x = .ok a ∧ P a

theorem yields_ok {P : α → Prop} {a : α} (h : P a) : (Except.ok a : Except ε α).Yields P :=
  ⟨a, rfl, h⟩

theorem yields_bind {x : Except ε α} {f : α → Except ε β} {P : β → Prop} {Q : α → Prop}
    (hx : x.Yields Q) (hf : ∀ a, Q a → (f a).Yields P) : (x >>= f).Yields P := by
  obtain ⟨a, rfl, ha⟩ := hx
  exact hf a ha

theorem yields_ite {c : Prop} [Decidable c] {x y : Except ε α} {P : α → Prop}
    (hx : c → x.Yields P) (hy : ¬c → y.Yields P) : (if c then x else y).Yields P := by
  by_cases h : c
  · rw [if_pos h]
    exact hx h
  · rw [if_neg h]
    exact hy h

/-- Every failure satisfies `P`. -/
def Fails (x : Except ε α) (P : ε → Prop) : Prop := ∀ e, x = .error e → P e

theorem fails_ok {P : ε → Prop} (a : α) : (Except.ok a : Except ε α).Fails P := by
  intro e he
  cases he

theorem fails_error {P : ε → Prop} {e : ε} (h : P e) : (Except.error e : Except ε α).Fails P := by
  intro e' he
  cases he
  exact h

/-- The rule of sequencing: either part may fail. -/
theorem fails_bind {x : Except ε α} {f : α → Except ε β} {P : ε → Prop} (hx : x.Fails P)
    (hf : ∀ a, (f a).Fails P) : (x >>= f).Fails P := by
  intro e he
  cases x with
  | error e' =>
    cases he
    exact hx e rfl
  | ok a => exact hf a e he

theorem fails_ite {c : Prop} [Decidable c] {x y : Except ε α} {P : ε → Prop}
    (hx : c → x.Fails P) (hy : ¬c → y.Fails P) : (if c then x else y).Fails P := by
  by_cases h : c
  · rw [if_pos h]
    exact hx h
  · rw [if_neg h]
    exact hy h

end Except
