/-
  ZincSim.Fpu.Repack — unpacking is exact, and `to_bits` undoes it.

  From the branches of the constructor of `UnpackedFp32` (`Reads`) follow the pattern
  itself, which `to_bits` puts together again, and its class bit.
-/
import ZincSim.Fpu.Deliver
import ZincSim.Isa.Encode
import ZincSim.Machine.Execute

namespace ZincSim

/-! ## §1. `to_bits` -/

section Fields

variable (s : Bool) (f : BitVec 23)

theorem fraction_and_mask : (f.setWidth 32 : BitVec 32) &&& 0x7fffff = f.setWidth 32 := by
  apply (BitField.and_lowMask_eq_iff (f.setWidth 32 : BitVec 32) 23 (by decide)).mpr
  rw [toNat_setWidth_fraction]
  exact f.isLt

/-- The fraction of a NaN, as `to_bits` rebuilds it. -/
theorem toBits_nan (hf : f ≠ 0) :
    (⟨s, 0, f.setWidth 32, if f.msb then .quietNaN else .signalingNaN⟩ : UnpackedFp32).toBits =
      signBits s ||| (0xff#32 <<< 23) ||| f.setWidth 32 := by
  have hquiet := quiet_bit_iff f
  unfold UnpackedFp32.toBits
  by_cases hmsb : f.msb = true
  · have hset : (f.setWidth 32 : BitVec 32) ||| (1#32 <<< 22) = f.setWidth 32 := by
      apply BitField.or_eq_self_iff.mpr
      rw [← BitVec.twoPow_eq, BitVec.and_twoPow, if_pos]
      rw [BitVec.msb_eq_getLsbD_last] at hmsb
      simpa using hmsb
    rw [if_pos hmsb]
    dsimp only
    rw [fraction_and_mask, hset]
  · have hclear : (f.setWidth 32 : BitVec 32) &&& ~~~(1#32 <<< 22) = f.setWidth 32 := by
      rw [BitField.and_eq_self_iff, BitVec.not_not]
      exact not_not.mp fun h => hmsb (hquiet.mp h)
    rw [if_neg hmsb]
    dsimp only
    rw [fraction_and_mask, hclear, if_neg fun h => hf ((setWidth_fraction_eq_zero_iff f).mp h)]

/-- The hidden bit of a normal number is masked out. -/
theorem toBits_normal (e : BitVec 8) :
    (⟨s, (e.toNat : ℤ) - 127, (1#32 <<< 23) ||| f.setWidth 32, .normal⟩ : UnpackedFp32).toBits =
      signBits s ||| (e.setWidth 32 <<< 23) ||| f.setWidth 32 := by
  have hexponent : BitVec.ofInt 32 ((e.toNat : ℤ) - 127 + 127) = e.setWidth 32 := by
    rw [sub_add_cancel, BitVec.ofInt_natCast, BitVec.ofNat_toNat]
  have hhidden : ((1#32 <<< 23) ||| f.setWidth 32 : BitVec 32) &&& 0x7fffff = f.setWidth 32 := by
    rw [BitField.or_and_of_clear _ (by decide), fraction_and_mask]
  unfold UnpackedFp32.toBits
  dsimp only
  rw [hexponent, hhidden]

/-- The exponent of a subnormal number tells how far its fraction was shifted. -/
theorem toBits_subnormal {x : BitVec 32} {k : ℕ} (hk : k < 24) (hx : x.toNat = f.toNat * 2 ^ k) :
    (⟨s, -126 - k, x, .subnormal⟩ : UnpackedFp32).toBits = signBits s ||| f.setWidth 32 := by
  have hshift : (BitVec.ofInt 32 (-126 - (-126 - k))).toNat = k := by
    rw [sub_sub_cancel, BitVec.ofInt_natCast, BitVec.toNat_ofNat]
    omega
  have hdown : x >>> k = f.setWidth 32 := by
    apply BitVec.eq_of_toNat_eq
    rw [BitVec.toNat_ushiftRight, Nat.shiftRight_eq_div_pow, hx, toNat_setWidth_fraction,
      Nat.mul_div_cancel _ (Nat.two_pow_pos k)]
  unfold UnpackedFp32.toBits
  dsimp only
  rw [hshift, hdown, fraction_and_mask]

end Fields

/-- **`to_bits` undoes the constructor**, for every pattern. -/
theorem Reads.toBits {s : Bool} {e : BitVec 8} {f : BitVec 23} {u : UnpackedFp32}
    (h : Reads s e f u) : u.toBits = Binary32.pack s e f := by
  rw [← fields_eq_pack]
  cases h with
  | infinity he hf =>
    rw [he, hf]
    exact (BitVec.or_zero).symm
  | nan he hf =>
    rw [he]
    exact toBits_nan s f hf
  | zero he hf =>
    rw [he, hf]
    exact (BitVec.or_zero.trans BitVec.or_zero).symm
  | subnormal he hf x k hk hx _ _ =>
    rw [he, toBits_subnormal s f hk hx]
    exact (congrArg (· ||| _) BitVec.or_zero).symm
  | normal => exact toBits_normal s f e

/-! ## §2. Value and class -/

/-- The class bit is that of the fields. -/
theorem Reads.classBit {s : Bool} {e : BitVec 8} {f : BitVec 23} {u : UnpackedFp32}
    (h : Reads s e f u) :
    ZincSim.classBit u = 1#64 <<< Binary32.classNumber (Binary32.pack s e f) := by
  unfold Binary32.classNumber
  rw [Binary32.sign_pack, Binary32.exponent_pack, Binary32.fraction_pack]
  cases h with
  | infinity he hf =>
    rw [if_pos he, if_pos hf]
    cases s <;> rfl
  | nan he hf =>
    rw [if_pos he, if_neg hf]
    cases f.msb <;> rfl
  | zero he hf =>
    rw [if_neg (by rw [he]; decide), if_pos he, if_pos hf]
    cases s <;> rfl
  | subnormal he hf =>
    rw [if_neg (by rw [he]; decide), if_pos he, if_neg hf]
    cases s <;> rfl
  | normal he he' =>
    rw [if_neg he, if_neg he']
    cases s <;> rfl

/-- The value of a nonzero finite pattern, from its unpacked form. -/
theorem Unpacked.value_eq {raw : BitVec 32} {u : UnpackedFp32} (h : Unpacked raw u) {v : ℚ}
    (hv : Binary32.value raw = some v) :
    v = (if u.sign then -1 else 1) * u.significand.toNat * 2 ^ (u.exponent - 23) := by
  rw [Binary32.value, if_neg h.finite, ← h.sign, h.magnitude] at hv
  rw [← Option.some.inj hv]
  split <;> ring

/-- What `FCLASS.S` does: the class bit of rs1 goes to rd. -/
theorem execute_fclass {word : BitVec 32} (hopcode : Rv64im.opcode word = 0b1010011)
    (hfields : OpFpFields word .fclass) (core : Core) (mem : Memory) {u : UnpackedFp32}
    (hu : UnpackedFp32.ofRaw (fprWord core (Rv64im.rs1 word)) = .ok u) :
    (decode word >>= execute core mem) =
      .ok (.normal { regWrites := [xWrite (Rv64im.rd word) (classBit u)] }) := by
  -- `funct3` also stands in the field of the rounding mode, where it is RTZ
  have hrm : RoundingMode.ofCode ((Rv64im.funct3 word).setWidth 32) = .rtz := by
    rw [hfields.funct3 _ rfl]
    rfl
  rw [decode_eq_row, hopcode]
  dsimp only [decodeRow]
  rw [decodeOpFpType_of_fields hfields, hrm]
  show executeOpFp core ⟨.fclass, .rtz, Rv64im.rs1 word, Rv64im.rs2 word, Rv64im.rd word⟩ = _
  unfold executeOpFp
  rw [hu]
  rfl

/-- **Unpacking is exact and reversible**: the pattern, the value of a nonzero finite
pattern and the class bit are those of the unpacked form. -/
theorem unpack_exact (raw : BitVec 32) :
    ∃ u, UnpackedFp32.ofRaw raw = .ok u ∧ u.toBits = raw ∧
      (∀ v : ℚ, Binary32.value raw = some v → v ≠ 0 →
        2 ^ 23 ≤ u.significand.toNat ∧ u.significand.toNat < 2 ^ 24 ∧
        -149 ≤ u.exponent ∧ u.exponent ≤ 127 ∧
        v = (if u.sign then -1 else 1) * u.significand.toNat * 2 ^ (u.exponent - 23)) ∧
      ∀ (core : Core) (mem : Memory) (word : BitVec 32),
        Rv64im.opcode word = 0b1010011 → OpFpFields word .fclass →
        fprWord core (Rv64im.rs1 word) = raw →
        (decode word >>= execute core mem) =
          .ok (.normal
            { regWrites := [xWrite (Rv64im.rd word) (1#64 <<< Binary32.classNumber raw)] }) := by
  obtain ⟨u, hu, hreads⟩ := ofRaw_reads raw
  refine ⟨u, hu, ?_, ?_, ?_⟩
  · rw [hreads.toBits, Binary32.pack_fields]
  · intro v hv hne
    obtain ⟨u', hoperand⟩ := Operand.of_raw raw
    obtain rfl := Except.ok.inj (hu.symm.trans hoperand.unpack)
    have hunpacked := (hoperand.finite v hv).unpacked hne
    exact ⟨hunpacked.low, hunpacked.high, hunpacked.exponent_low, hunpacked.exponent_high,
      hunpacked.value_eq hv⟩
  · rintro core mem word hopcode hfields rfl
    rw [execute_fclass hopcode hfields core mem hu, hreads.classBit, Binary32.pack_fields]

/-- The smallest subnormal number takes 23 rounds of the loop, and `fclass.s a0, fa0` finds
class 5. -/
theorem unpack_exact_smallest :
    UnpackedFp32.ofRaw 1 = .ok ⟨false, -149, 1#32 <<< 23, .subnormal⟩ ∧
      (⟨false, -149, 1#32 <<< 23, .subnormal⟩ : UnpackedFp32).toBits = 1 ∧
      Binary32.value 1 = some (2 ^ 23 * 2 ^ (-149 - 23 : ℤ)) ∧
      (decode 0xe0051553 >>= execute ((Core.init (fun _ => 0) 0).setFpr 10 1) (.init 0 0)) =
        .ok (.normal { regWrites := [xWrite 10 (1#64 <<< 5)] }) := by
  obtain ⟨u, hu, hbits, hvalue, hclass⟩ := unpack_exact 1
  have hrun : UnpackedFp32.ofRaw 1 = .ok ⟨false, -149, 1#32 <<< 23, .subnormal⟩ := by decide
  obtain rfl := Except.ok.inj (hu.symm.trans hrun)
  have hfields : OpFpFields 0xe0051553 .fclass :=
    ⟨by decide, by rintro _ ⟨⟩; decide, by rintro _ ⟨⟩; decide⟩
  refine ⟨hu, hbits, ?_, hclass _ _ 0xe0051553 (by decide) hfields (by decide)⟩
  have hsome : Binary32.value 1 = some (1 * 2 ^ (-149 : ℤ)) := by
    have hone : (Binary32.fraction 1).toNat = 1 := by decide
    rw [Binary32.value, if_neg (by decide), if_neg (by decide), Binary32.magnitude,
      if_pos (by decide), hone, Nat.cast_one]
  obtain ⟨-, -, -, -, heq⟩ := hvalue _ hsome (by positivity)
  have hword : (1#32 <<< 23).toNat = 2 ^ 23 := by decide
  rw [hsome, heq, hword]
  norm_num

end ZincSim
