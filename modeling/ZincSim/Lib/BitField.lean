/-
  ZincSim.Lib.BitField — masks and bit fields of machine words.

  A read-modify-write of a register stores `(old &&& ~~~mask) ||| (new &&& mask)`.
  Seen through a field `f`, that is the new value when `f` lies inside the mask
  and the old one when the two are disjoint.  The side conditions are closed
  facts about constants, so each use discharges them by `rfl` or `decide`.
-/
import Mathlib

namespace BitField

variable {w : Nat}

/-! ## §1. Read-modify-write through a field -/

/-- A field inside the mask shows the new value. -/
theorem merge_and_of_subset (mask old new f : BitVec w) (h : f &&& mask = f) :
    ((old &&& ~~~mask) ||| (new &&& mask)) &&& f = new &&& f := by
  ext i hi
  have hbit : (f &&& mask)[i] = f[i] := by rw [h]
  simp only [BitVec.getElem_and, BitVec.getElem_or, BitVec.getElem_not] at hbit ⊢
  grind

/-- A field outside the mask shows the old value. -/
theorem merge_and_of_disjoint (mask old new f : BitVec w) (h : f &&& mask = 0) :
    ((old &&& ~~~mask) ||| (new &&& mask)) &&& f = old &&& f := by
  ext i hi
  have hbit : (f &&& mask)[i] = false := by rw [h]; simp
  simp only [BitVec.getElem_and, BitVec.getElem_or, BitVec.getElem_not] at hbit ⊢
  grind

/-- Clearing bits outside a field does not show in it. -/
theorem clear_and_of_disjoint (x bits f : BitVec w) (h : f &&& bits = 0) :
    (x &&& ~~~bits) &&& f = x &&& f := by
  ext i hi
  have hbit : (f &&& bits)[i] = false := by rw [h]; simp
  simp only [BitVec.getElem_and, BitVec.getElem_not] at hbit ⊢
  grind

/-- Clearing a whole field leaves zero in it. -/
theorem clear_and_of_subset (x bits f : BitVec w) (h : f &&& bits = f) :
    (x &&& ~~~bits) &&& f = 0 := by
  ext i hi
  have hbit : (f &&& bits)[i] = f[i] := by rw [h]
  simp only [BitVec.getElem_and, BitVec.getElem_not, BitVec.ofNat_eq_ofNat,
    BitVec.getElem_zero] at hbit ⊢
  grind

/-- Setting bits outside a field does not show in it. -/
theorem set_and_of_disjoint (x bits f : BitVec w) (h : f &&& bits = 0) :
    (x ||| bits) &&& f = x &&& f := by
  ext i hi
  have hbit : (f &&& bits)[i] = false := by rw [h]; simp
  simp only [BitVec.getElem_and, BitVec.getElem_or] at hbit ⊢
  grind

/-- Setting a whole field fills it. -/
theorem set_and_of_subset (x bits f : BitVec w) (h : f &&& bits = f) :
    (x ||| bits) &&& f = f := by
  ext i hi
  have hbit : (f &&& bits)[i] = f[i] := by rw [h]
  simp only [BitVec.getElem_and, BitVec.getElem_or] at hbit ⊢
  grind

/-- A value inserted into a cleared field is what the field shows. -/
theorem insert_and (x field value : BitVec w) (h : value &&& field = value) :
    ((x &&& ~~~field) ||| value) &&& field = value := by
  ext i hi
  have hbit : (value &&& field)[i] = value[i] := by rw [h]
  simp only [BitVec.getElem_and, BitVec.getElem_or, BitVec.getElem_not] at hbit ⊢
  grind

/-- A merge of a word that lies inside `f`, under a mask inside `f`, lies
inside `f`. -/
theorem merge_and_eq_self {mask old new f : BitVec w} (hold : old &&& f = old)
    (hmask : mask &&& f = mask) :
    ((old &&& ~~~mask) ||| (new &&& mask)) &&& f = (old &&& ~~~mask) ||| (new &&& mask) := by
  ext i hi
  have hbit : (old &&& f)[i] = old[i] := by rw [hold]
  have hbit' : (mask &&& f)[i] = mask[i] := by rw [hmask]
  simp only [BitVec.getElem_and, BitVec.getElem_or, BitVec.getElem_not] at hbit hbit' ⊢
  grind

/-- Merges into words that agree on `known` agree on `known` and on the mask. -/
theorem merge_and_or_of_agree {mask old old' known : BitVec w} (new : BitVec w)
    (h : old &&& known = old' &&& known) :
    ((old &&& ~~~mask) ||| (new &&& mask)) &&& (known ||| mask) =
      ((old' &&& ~~~mask) ||| (new &&& mask)) &&& (known ||| mask) := by
  ext i hi
  have hbit : (old &&& known)[i] = (old' &&& known)[i] := by rw [h]
  simp only [BitVec.getElem_and, BitVec.getElem_or, BitVec.getElem_not] at hbit ⊢
  grind

/-- A merge below bit `k` does not show above it. -/
theorem merge_shiftRight (mask old new : BitVec w) (k : Nat) (h : mask >>> k = 0) :
    ((old &&& ~~~mask) ||| (new &&& mask)) >>> k = old >>> k := by
  ext i hi
  have hbit : (mask >>> k)[i] = false := by rw [h]; simp
  simp only [BitVec.getElem_ushiftRight, BitVec.getLsbD_or, BitVec.getLsbD_and,
    BitVec.getLsbD_not] at hbit ⊢
  rw [hbit]
  by_cases hk : k + i < w
  · simp [hk]
  · simp [BitVec.getLsbD_of_ge _ _ (Nat.le_of_not_lt hk)]

/-! ## §2. Logical operations through a field -/

/-- Over a clear field, `|||` shows the other operand. -/
theorem or_and_of_clear {x f : BitVec w} (y : BitVec w) (h : x &&& f = 0) :
    (x ||| y) &&& f = y &&& f := by
  ext i hi
  have hbit : (x &&& f)[i] = false := by rw [h]; simp
  simp only [BitVec.getElem_and, BitVec.getElem_or] at hbit ⊢
  grind

/-- Over a full field, `|||` shows a full one. -/
theorem or_and_of_full {x f : BitVec w} (y : BitVec w) (h : x &&& f = f) :
    (x ||| y) &&& f = f := by
  ext i hi
  have hbit : (x &&& f)[i] = f[i] := by rw [h]
  simp only [BitVec.getElem_and, BitVec.getElem_or] at hbit ⊢
  grind

/-- Words that lie inside `f` have their union inside `f`. -/
theorem or_and_eq_self {x y f : BitVec w} (hx : x &&& f = x) (hy : y &&& f = y) :
    (x ||| y) &&& f = x ||| y := by
  ext i hi
  have hbit : (x &&& f)[i] = x[i] := by rw [hx]
  have hbit' : (y &&& f)[i] = y[i] := by rw [hy]
  simp only [BitVec.getElem_and, BitVec.getElem_or] at hbit hbit' ⊢
  grind

/-- Over a clear field, `&&&` shows a clear one. -/
theorem and_and_of_clear {x f : BitVec w} (y : BitVec w) (h : x &&& f = 0) :
    (x &&& y) &&& f = 0 := by
  ext i hi
  have hbit : (x &&& f)[i] = false := by rw [h]; simp
  simp only [BitVec.getElem_and, BitVec.ofNat_eq_ofNat, BitVec.getElem_zero] at hbit ⊢
  grind

/-- Over a full field, `&&&` shows the other operand. -/
theorem and_and_of_full {x f : BitVec w} (y : BitVec w) (h : x &&& f = f) :
    (x &&& y) &&& f = y &&& f := by
  ext i hi
  have hbit : (x &&& f)[i] = f[i] := by rw [h]
  simp only [BitVec.getElem_and] at hbit ⊢
  grind

/-- The complement shows a clear field exactly over a full one. -/
theorem not_and_eq_zero_iff {x f : BitVec w} : ~~~x &&& f = 0 ↔ x &&& f = f := by
  simp only [BitVec.eq_of_getElem_eq_iff, BitVec.getElem_and, BitVec.getElem_not,
    BitVec.ofNat_eq_ofNat, BitVec.getElem_zero]
  grind

/-- The complement shows a full field exactly over a clear one. -/
theorem not_and_eq_self_iff {x f : BitVec w} : ~~~x &&& f = f ↔ x &&& f = 0 := by
  simp only [BitVec.eq_of_getElem_eq_iff, BitVec.getElem_and, BitVec.getElem_not,
    BitVec.ofNat_eq_ofNat, BitVec.getElem_zero]
  grind

/-- A word lies inside a field when nothing of it shows outside. -/
theorem and_eq_self_iff {x f : BitVec w} : x &&& f = x ↔ x &&& ~~~f = 0 := by
  simp only [BitVec.eq_of_getElem_eq_iff, BitVec.getElem_and, BitVec.getElem_not,
    BitVec.ofNat_eq_ofNat, BitVec.getElem_zero]
  grind

/-- Setting bits that are set. -/
theorem or_eq_self_iff {x f : BitVec w} : x ||| f = x ↔ x &&& f = f := by
  simp only [BitVec.eq_of_getElem_eq_iff, BitVec.getElem_and, BitVec.getElem_or]
  grind

/-- Words that agree through a field agree through every part of it. -/
theorem and_eq_of_subset {x y f part : BitVec w} (h : x &&& f = y &&& f)
    (hpart : part &&& f = part) : x &&& part = y &&& part := by
  rw [← hpart, BitVec.and_comm part f, ← BitVec.and_assoc, ← BitVec.and_assoc, h]

/-! ## §3. Low masks -/

/-- The `k` low bits of a word as a number. -/
theorem toNat_and_lowMask (x : BitVec w) (k : Nat) (hk : k ≤ w) :
    (x &&& BitVec.ofNat w (2 ^ k - 1)).toNat = x.toNat % 2 ^ k := by
  have hpow : 2 ^ k ≤ 2 ^ w := Nat.pow_le_pow_right (by decide) hk
  have hpos : 0 < 2 ^ k := Nat.two_pow_pos k
  rw [BitVec.toNat_and, BitVec.toNat_ofNat, Nat.mod_eq_of_lt (by omega),
    Nat.and_two_pow_sub_one_eq_mod]

/-- A word is below `2 ^ k` when the low mask keeps it. -/
theorem and_lowMask_eq_iff (x : BitVec w) (k : Nat) (hk : k ≤ w) :
    x &&& BitVec.ofNat w (2 ^ k - 1) = x ↔ x.toNat < 2 ^ k := by
  rw [← BitVec.toNat_inj, toNat_and_lowMask x k hk]
  constructor
  · intro h
    rw [← h]
    exact Nat.mod_lt _ (Nat.two_pow_pos k)
  · exact fun h => Nat.mod_eq_of_lt h

/-- Shifting down and masking cuts a field out. -/
theorem shiftRight_and_lowMask (x : BitVec w) (i k : Nat) (hk : k ≤ w) :
    (x >>> i) &&& BitVec.ofNat w (2 ^ k - 1) = (x.extractLsb' i k).setWidth w := by
  apply BitVec.eq_of_toNat_eq
  have hpow : 2 ^ k ≤ 2 ^ w := Nat.pow_le_pow_right (by decide) hk
  rw [toNat_and_lowMask _ k hk, BitVec.toNat_ushiftRight, BitVec.toNat_setWidth,
    BitVec.extractLsb'_toNat]
  refine (Nat.mod_eq_of_lt (lt_of_lt_of_le ?_ hpow)).symm
  exact Nat.mod_lt _ (Nat.two_pow_pos k)

/-- Widening loses nothing. -/
theorem setWidth_inj {m n : Nat} (hmn : m ≤ n) {a b : BitVec m}
    (h : a.setWidth n = b.setWidth n) : a = b := by
  rw [← BitVec.setWidth_eq a, ← BitVec.setWidth_eq b, ← BitVec.setWidth_setWidth_of_le a hmn,
    ← BitVec.setWidth_setWidth_of_le b hmn, h]

/-! ## §4. Single bits -/

theorem and_bit_eq_zero_iff (x : BitVec w) {n : Nat} (hn : n < w) :
    x &&& (1#w <<< n) = 0 ↔ x.getLsbD n = false := by
  rw [← BitVec.twoPow_eq, BitVec.and_twoPow]
  cases x.getLsbD n with
  | false => simp
  | true =>
    have hone : BitVec.twoPow w n ≠ 0#w := by
      intro h
      have hbit := congrArg (fun y => BitVec.getLsbD y n) h
      simp [hn] at hbit
    simp [hone]

/-- The top bit of a field of `n + 1` bits, as a bound. -/
theorem and_bit_eq_zero_iff_lt (x : BitVec w) {n : Nat} (hn : n < w)
    (hx : x.toNat < 2 ^ (n + 1)) : x &&& (1#w <<< n) = 0 ↔ x.toNat < 2 ^ n := by
  have hpos := Nat.two_pow_pos n
  have hquot : x.toNat / 2 ^ n < 2 := by
    rw [Nat.div_lt_iff_lt_mul hpos]
    rw [Nat.pow_succ] at hx
    omega
  rw [and_bit_eq_zero_iff x hn, BitVec.getLsbD, Nat.testBit_eq_decide_div_mod_eq,
    decide_eq_false_iff_not, Nat.mod_eq_of_lt hquot]
  constructor
  · intro h
    have hzero : x.toNat / 2 ^ n = 0 :=
      Nat.lt_one_iff.mp (Nat.lt_of_le_of_ne (Nat.le_of_lt_succ hquot) h)
    exact (Nat.div_eq_zero_iff_lt hpos).mp hzero
  · intro h
    rw [Nat.div_eq_of_lt h]
    decide

end BitField
