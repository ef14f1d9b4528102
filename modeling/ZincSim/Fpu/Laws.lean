/-
  ZincSim.Fpu.Laws — equations between the operations.

  The constructor of `UnpackedFp32` reads the sign apart from the rest, so an operation that
  negates an operand is the plain one on the negated pattern, and the four fused kinds are
  one.  Sums and products do not depend on the order of their operands.  Both hold of the
  value and of all flags, in every mode and for every pattern.
-/
import ZincSim.Fpu.Correct

namespace ZincSim

/-! ## §1. Negated operands -/

/-- The pattern with its sign bit flipped when asked for, as `fsgnjn` of an operand with
itself flips it. -/
def negateIf (negate : Bool) (raw : BitVec 32) : BitVec 32 :=
  if negate then (raw &&& fp32MagnitudeMask) ||| (~~~raw &&& fp32SignMask) else raw

theorem negateIf_true (raw : BitVec 32) : negateIf true raw = raw ^^^ fp32SignMask := by
  show (raw &&& fp32MagnitudeMask) ||| (~~~raw &&& fp32SignMask) = raw ^^^ fp32SignMask
  apply BitVec.eq_of_getLsbD_eq
  intro i hi
  have hmask : fp32MagnitudeMask.getLsbD i = !fp32SignMask.getLsbD i := by
    interval_cases i <;> rfl
  rw [BitVec.getLsbD_or, BitVec.getLsbD_and, BitVec.getLsbD_and, BitVec.getLsbD_not,
    BitVec.getLsbD_xor, hmask, decide_eq_true hi]
  cases raw.getLsbD i <;> cases fp32SignMask.getLsbD i <;> rfl

/-- A mask does not see what is flipped outside it. -/
theorem xor_and_of_disjoint {w : ℕ} (x : BitVec w) {flip mask : BitVec w} (h : flip &&& mask = 0) :
    (x ^^^ flip) &&& mask = x &&& mask := by
  apply BitVec.eq_of_getLsbD_eq
  intro i hi
  have hbit : (flip.getLsbD i && mask.getLsbD i) = false := by
    rw [← BitVec.getLsbD_and, h]
    exact BitVec.getLsbD_zero
  rw [BitVec.getLsbD_and, BitVec.getLsbD_and, BitVec.getLsbD_xor]
  revert hbit
  cases x.getLsbD i <;> cases flip.getLsbD i <;> cases mask.getLsbD i <;> decide

/-- The fields of a negated pattern. -/
theorem fields_negate (raw : BitVec 32) :
    Binary32.sign (raw ^^^ fp32SignMask) = !Binary32.sign raw ∧
      ((raw ^^^ fp32SignMask) >>> 23) &&& 0xff#32 = (raw >>> 23) &&& 0xff#32 ∧
      (raw ^^^ fp32SignMask) &&& 0x7fffff = raw &&& 0x7fffff ∧
      (raw ^^^ fp32SignMask) &&& fp32MagnitudeMask = raw &&& fp32MagnitudeMask := by
  rw [BitVec.ushiftRight_xor_distrib]
  refine ⟨?_, xor_and_of_disjoint _ (by decide), xor_and_of_disjoint _ (by decide),
    xor_and_of_disjoint _ (by decide)⟩
  rw [Binary32.sign, Binary32.sign, BitVec.msb_xor, show fp32SignMask.msb = true by decide,
    Bool.xor_true]

/-- **A negated pattern unpacks with the other sign.** -/
theorem Operand.negate {raw : BitVec 32} {u : UnpackedFp32} (h : UnpackedFp32.ofRaw raw = .ok u)
    (negate : Bool) :
    UnpackedFp32.ofRaw (negateIf negate raw) = .ok { u with sign := u.sign ^^ negate } ∧
      negateIf negate raw &&& fp32MagnitudeMask = raw &&& fp32MagnitudeMask := by
  cases negate with
  | false =>
    rw [Bool.xor_false]
    exact ⟨h, rfl⟩
  | true =>
    obtain ⟨hsign, hexponent, hfraction, hmagnitude⟩ := fields_negate raw
    rw [negateIf_true, Bool.xor_true]
    refine ⟨?_, hmagnitude⟩
    unfold UnpackedFp32.ofRaw at h ⊢
    rw [raw_sign] at h ⊢
    rw [hsign, hexponent, hfraction]
    dsimp only at h ⊢
    -- one constructor for each class
    split
    next hmax =>
      rw [if_pos hmax] at h
      split
      next hzero =>
        rw [if_pos hzero] at h
        cases h
        rfl
      next hnan =>
        rw [if_neg hnan] at h
        cases h
        rfl
    next hfinite =>
      rw [if_neg hfinite] at h
      split
      next hsmall =>
        rw [if_pos hsmall] at h
        split
        next hzero =>
          rw [if_pos hzero] at h
          cases h
          rfl
        next hnonzero =>
          rw [if_neg hnonzero] at h
          cases hloop : normalizeSubnormal 32 (raw &&& 0x7fffff) (-126) with
          | error fault =>
            rw [hloop] at h
            cases h
          | ok normalized =>
            rw [hloop] at h
            cases h
            rfl
      next hnormal =>
        rw [if_neg hnormal] at h
        cases h
        rfl

/-! ## §2. One kind -/

/-- **The four fused kinds are one**: an operand that a kind negates may be negated before. -/
theorem fma_eq_fmAdd (type : FmaFpType) (a b c : BitVec 32) (rm : RoundingMode) :
    Fpu.fma type a b c rm =
      Fpu.fma .mAdd (negateIf (fmaNegations type).1 a) b (negateIf (fmaNegations type).2 c) rm := by
  obtain ⟨lhs, hl⟩ := Operand.of_raw a
  obtain ⟨rhs, hr⟩ := Operand.of_raw b
  obtain ⟨addend, ha⟩ := Operand.of_raw c
  generalize hneg : fmaNegations type = negations
  obtain ⟨negateProduct, negateAddend⟩ := negations
  obtain ⟨hl', -⟩ := Operand.negate hl.unpack negateProduct
  obtain ⟨ha', hmagnitude⟩ := Operand.negate ha.unpack negateAddend
  have hsign :
      (lhs.sign ^^ negateProduct ^^ rhs.sign) = (lhs.sign ^^ rhs.sign ^^ negateProduct) := by
    rw [Bool.xor_assoc, Bool.xor_comm negateProduct, ← Bool.xor_assoc]
  have hplain : fmaNegations .mAdd = (false, false) := rfl
  unfold Fpu.fma
  simp only [hneg, hplain, hl.unpack, hr.unpack, ha.unpack, hl', ha', hmagnitude, bind,
    Except.bind, pure, Except.pure, Bool.xor_false, hsign]
  rfl

/-- **Subtraction is addition** of the negated operand. -/
theorem sub_eq_add (a b : BitVec 32) (rm : RoundingMode) :
    addOrSub a b true rm = addOrSub a (negateIf true b) false rm := by
  obtain ⟨lhs, hl⟩ := Operand.of_raw a
  obtain ⟨rhs, hr⟩ := Operand.of_raw b
  obtain ⟨hr', hmagnitude⟩ := Operand.negate hr.unpack true
  unfold addOrSub
  simp only [hl.unpack, hr.unpack, hr', hmagnitude, bind, Except.bind, pure, Except.pure,
    Bool.xor_false]
  rfl

/-- **Negations move into the operands**, where `fsgnjn` makes them: of the fused kinds and
of subtraction only the plain ones are left. -/
theorem negations_move (type : FmaFpType) (a b c : BitVec 32) (rm : RoundingMode) :
    Fpu.fma type a b c rm =
        Fpu.fma .mAdd (negateIf (fmaNegations type).1 a) b (negateIf (fmaNegations type).2 c) rm ∧
      Fpu.binary .sub a b rm = Fpu.binary .add a (negateIf true b) rm ∧
      Fpu.binary .sgnjn b b rm = .ok (.ofWord (negateIf true b) 0) :=
  ⟨fma_eq_fmAdd type a b c rm, sub_eq_add a b rm, rfl⟩

/-! ## §3. The order of operands -/

theorem propagateNan_comm (lhs rhs : UnpackedFp32) :
    propagateNan lhs rhs = propagateNan rhs lhs := by
  unfold propagateNan
  rw [Bool.or_comm]

/-- The alignment of two addends in the other order. -/
theorem alignAddends_comm (lhs rhs : UnpackedFp32) :
    alignAddends rhs lhs =
      ((alignAddends lhs rhs).1, (alignAddends lhs rhs).2.2, (alignAddends lhs rhs).2.1) := by
  unfold alignAddends
  rcases lt_trichotomy lhs.exponent rhs.exponent with hlt | heq | hgt
  · simp only [gt_iff_lt, hlt, hlt.not_gt, if_true, if_false]
  · simp only [gt_iff_lt, heq, lt_irrefl, if_false]
  · simp only [gt_iff_lt, hgt, hgt.not_gt, if_true, if_false]

theorem addFinite_comm (lhs rhs : UnpackedFp32) (rm : RoundingMode) :
    addFinite lhs rhs rhs.sign rm = addFinite rhs lhs lhs.sign rm := by
  unfold addFinite
  rw [alignAddends_comm lhs rhs]
  obtain ⟨exponent, l, r⟩ := alignAddends lhs rhs
  dsimp only
  by_cases hsign : lhs.sign = rhs.sign
  · rw [if_pos hsign, if_pos hsign.symm, hsign, BitVec.add_comm]
  · rw [if_neg hsign, if_neg (Ne.symm hsign)]
    by_cases hcancel : l = r
    · rw [if_pos hcancel, if_pos hcancel.symm]
    · rw [if_neg hcancel, if_neg (Ne.symm hcancel)]
      -- the larger magnitude gives the sign in both orders
      rcases lt_or_gt_of_ne (mt BitVec.eq_of_toNat_eq hcancel) with hlt | hgt
      · have hl : ¬ l > r := fun h => absurd (BitVec.lt_def.mp h) hlt.not_gt
        have hr : r > l := BitVec.lt_def.mpr hlt
        simp only [hl, hr, decide_false, decide_true, Bool.false_eq_true, if_false, if_true]
      · have hl : l > r := BitVec.lt_def.mpr hgt
        have hr : ¬ r > l := fun h => absurd (BitVec.lt_def.mp h) hgt.not_gt
        simp only [hl, hr, decide_false, decide_true, Bool.false_eq_true, if_false, if_true]

/-- The test for zero times infinity, in the other order. -/
theorem invalidProduct_comm (lhsZero lhsInfinity rhsZero rhsInfinity : Bool) :
    (lhsZero && rhsInfinity || lhsInfinity && rhsZero) =
      (rhsZero && lhsInfinity || rhsInfinity && lhsZero) := by
  rw [Bool.or_comm, Bool.and_comm lhsInfinity, Bool.and_comm lhsZero]

/-- **Multiplication is commutative**, in the value and in all flags. -/
theorem multiply_comm (a b : BitVec 32) (rm : RoundingMode) :
    multiply a b rm = multiply b a rm := by
  obtain ⟨lhs, hl⟩ := Operand.of_raw a
  obtain ⟨rhs, hr⟩ := Operand.of_raw b
  unfold multiply
  simp only [hl.unpack, hr.unpack, bind, Except.bind, pure, Except.pure]
  rw [propagateNan_comm lhs, Bool.or_comm lhs.fpClass.isNan, Bool.xor_comm lhs.sign,
    invalidProduct_comm (decide (lhs.fpClass = .zero)), Bool.or_comm (decide (lhs.fpClass = .zero)),
    Bool.or_comm (decide (lhs.fpClass = .infinity)), BitVec.mul_comm (lhs.significand.setWidth 64),
    Int.add_comm lhs.exponent]

/-- **Addition is commutative**, in the value and in all flags. -/
theorem addOrSub_comm (a b : BitVec 32) (rm : RoundingMode) :
    addOrSub a b false rm = addOrSub b a false rm := by
  obtain ⟨lhs, hl⟩ := Operand.of_raw a
  obtain ⟨rhs, hr⟩ := Operand.of_raw b
  unfold addOrSub
  simp only [hl.unpack, hr.unpack, bind, Except.bind, pure, Except.pure, Bool.xor_false]
  rw [propagateNan_comm lhs, Bool.or_comm lhs.fpClass.isNan, addFinite_comm lhs rhs]
  have hsame {raw : BitVec 32} {u : UnpackedFp32} (h : Operand raw u) :
      (raw &&& fp32MagnitudeMask) ||| signBits u.sign = raw := by
    rw [h.sign, masked_eq_pack, Binary32.pack_fields]
  rw [hsame hl, hsame hr]
  -- equal signs decide alike; different ones leave the sign to the class or to the mode
  by_cases hsign : lhs.sign = rhs.sign
  · rw [hsign]
    cases lhs.fpClass <;> cases rhs.fpClass <;> rfl
  · have hsign' : ¬ rhs.sign = lhs.sign := Ne.symm hsign
    cases lhs.fpClass <;> cases rhs.fpClass <;> simp [hsign, hsign']

/-- **The factors of a fused operation commute**, in the value and in all flags. -/
theorem fma_comm (type : FmaFpType) (a b c : BitVec 32) (rm : RoundingMode) :
    Fpu.fma type a b c rm = Fpu.fma type b a c rm := by
  obtain ⟨lhs, hl⟩ := Operand.of_raw a
  obtain ⟨rhs, hr⟩ := Operand.of_raw b
  obtain ⟨addend, ha⟩ := Operand.of_raw c
  unfold Fpu.fma computeFma
  simp only [hl.unpack, hr.unpack, ha.unpack, bind, Except.bind, pure, Except.pure]
  rw [Bool.or_comm lhs.fpClass.isNan, Bool.or_comm lhs.fpClass.isSignalingNan,
    Bool.xor_comm lhs.sign, invalidProduct_comm (decide (lhs.fpClass = .zero)),
    Bool.or_comm (decide (lhs.fpClass = .zero)), Bool.or_comm (decide (lhs.fpClass = .infinity)),
    BitVec.mul_comm (lhs.significand.setWidth 64), Int.add_comm lhs.exponent]

/-- **Sums and products do not depend on the order of their operands.** -/
theorem operands_commute (type : FmaFpType) (a b c : BitVec 32) (rm : RoundingMode) :
    Fpu.binary .add a b rm = Fpu.binary .add b a rm ∧
      Fpu.binary .mul a b rm = Fpu.binary .mul b a rm ∧
      Fpu.fma type a b c rm = Fpu.fma type b a c rm :=
  ⟨addOrSub_comm a b rm, multiply_comm a b rm, fma_comm type a b c rm⟩

end ZincSim
