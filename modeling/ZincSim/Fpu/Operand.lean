/-
  ZincSim.Fpu.Operand — the operands of the FPU, of every class.

  `FiniteOperand` is about finite patterns.  `Operand` says for any pattern which
  class the constructor of `UnpackedFp32` gives it: the constructor never fails, and
  its classes are those of the format.
-/
import ZincSim.Fpu.Exact

namespace ZincSim

/-- `u` is the unpacked form of the pattern. -/
structure Operand (raw : BitVec 32) (u : UnpackedFp32) : Prop where
  unpack : UnpackedFp32.ofRaw raw = .ok u
  sign : u.sign = Binary32.sign raw
  isNan_iff : u.fpClass.isNan = true ↔ Binary32.IsNaN raw
  infinity_iff : u.fpClass = .infinity ↔ Binary32.IsInfinite raw
  finite : ∀ v, Binary32.value raw = some v → FiniteOperand raw v u

/-- **Every pattern unpacks.** -/
theorem Operand.of_raw (raw : BitVec 32) : ∃ u, Operand raw u := by
  obtain ⟨u, hu, hreads⟩ := ofRaw_reads raw
  refine ⟨u, hu, ?_, ?_, ?_, fun v hv => ?_⟩
  · cases hreads <;> rfl
  · unfold Binary32.IsNaN
    cases hreads with
    | infinity he hf => exact iff_of_false Bool.false_ne_true fun h => h.2 hf
    | nan he hf =>
      refine iff_of_true ?_ ⟨he, hf⟩
      dsimp only
      split <;> rfl
    | zero he | subnormal he =>
      refine iff_of_false Bool.false_ne_true fun h => ?_
      exact absurd (he.symm.trans h.1) (by decide)
    | normal he => exact iff_of_false Bool.false_ne_true fun h => he h.1
  · unfold Binary32.IsInfinite
    cases hreads with
    | infinity he hf => exact iff_of_true rfl ⟨he, hf⟩
    | nan he hf =>
      refine iff_of_false ?_ fun h => hf h.2
      dsimp only
      split <;> exact FpClass.noConfusion
    | zero he | subnormal he =>
      refine iff_of_false nofun fun h => ?_
      exact absurd (he.symm.trans h.1) (by decide)
    | normal he => exact iff_of_false nofun fun h => he h.1
  · obtain ⟨u', hu'⟩ := FiniteOperand.of_value hv
    obtain rfl := Except.ok.inj (hu.symm.trans hu'.unpack)
    exact hu'

section Classes

variable {raw : BitVec 32} {u : UnpackedFp32} (h : Operand raw u)

include h

/-- Of the three kinds, the pattern is one. -/
theorem Operand.cases : Binary32.IsNaN raw ∨ Binary32.IsInfinite raw ∨
    ∃ v, Binary32.value raw = some v ∧ FiniteOperand raw v u := by
  cases hv : Binary32.value raw with
  | none =>
    rcases (Binary32.value_eq_none_iff raw).mp hv with hinf | hnan
    · exact .inr (.inl hinf)
    · exact .inl hnan
  | some v => exact .inr (.inr ⟨v, rfl, h.finite v hv⟩)

/-- What is neither a NaN nor infinite is finite. -/
theorem Operand.finite_of_class (hn : ¬ u.fpClass.isNan = true) (hi : u.fpClass ≠ .infinity) :
    ∃ v, Binary32.value raw = some v ∧ FiniteOperand raw v u := by
  rcases h.cases with hc | hc | hc
  · exact absurd (h.isNan_iff.mpr hc) hn
  · exact absurd (h.infinity_iff.mpr hc) hi
  · exact hc

theorem Operand.finite_iff : (∃ v, Binary32.value raw = some v) ↔
    u.fpClass.isNan = false ∧ u.fpClass ≠ .infinity := by
  constructor
  · rintro ⟨v, hv⟩
    exact ⟨(h.finite v hv).isNan, (h.finite v hv).not_infinity⟩
  · rintro ⟨hn, hi⟩
    obtain ⟨v, hv, -⟩ := h.finite_of_class (Bool.eq_false_iff.mp hn) hi
    exact ⟨v, hv⟩

theorem Operand.zero_iff : u.fpClass = .zero ↔ Binary32.value raw = some 0 := by
  constructor
  · intro hz
    obtain ⟨v, hv, hfin⟩ := h.finite_of_class (by rw [hz]; decide) (by rw [hz]; decide)
    rw [hv, hfin.zero_iff.mp hz]
  · intro hv
    exact (h.finite 0 hv).zero_iff.mpr rfl

end Classes

end ZincSim
