/-
  ZincSim.Machine.Fpu.Round — unpacking and rounding of `fpu.h` / `fpu.cpp`.

  Significands are the 64-bit (or 32-bit) words of the source; exponents are
  `std::int32_t` values and are modelled by `Int`.  Each `while` loop is a
  recursion on a fuel that is at least the number of rounds after which the
  shifted word can no longer change, so running out of it (`Fault.divergence`)
  means that the loop of the source never leaves.
-/
import ZincSim.Machine.Insn

namespace ZincSim

/-! ## §1. Results, classes and constants -/

/-- `struct FpResult`. -/
structure FpResult where
  value : BitVec 64
  flags : BitVec 32
  deriving DecidableEq, Repr

/-- A result whose value is a 32-bit word, widened to the field's 64 bits. -/
def FpResult.ofWord (value : BitVec 32) (flags : BitVec 32) : FpResult where
  value := value.setWidth 64
  flags := flags

/-- `enum class FpClass`. -/
inductive FpClass where
  | zero | subnormal | normal | infinity | signalingNaN | quietNaN
  deriving DecidableEq, Repr

/-- `class UnpackedFp32`. -/
structure UnpackedFp32 where
  sign : Bool
  exponent : Int
  significand : BitVec 32
  fpClass : FpClass
  deriving DecidableEq, Repr

/-- `struct UnroundedFp32`. -/
structure UnroundedFp32 where
  sign : Bool
  exponent : Int
  significand : BitVec 64
  deriving DecidableEq, Repr

def fp32SignMask : BitVec 32 := 1#32 <<< 31
def fp32MagnitudeMask : BitVec 32 := ~~~fp32SignMask
def fp32Infinity : BitVec 32 := 0x7f800000
def fp32MaxFinite : BitVec 32 := 0x7f7fffff
def fp32CanonicalNaN : BitVec 32 := 0x7fc00000

def fpFlagNx : BitVec 32 := 1#32 <<< 0
def fpFlagUf : BitVec 32 := 1#32 <<< 1
def fpFlagOf : BitVec 32 := 1#32 <<< 2
def fpFlagDz : BitVec 32 := 1#32 <<< 3
def fpFlagNv : BitVec 32 := 1#32 <<< 4

def fp32HiddenBit : BitVec 64 := 1#64 <<< 23
def fp32ExtendedHiddenBit : BitVec 64 := 1#64 <<< 26
def fp32WideHiddenBit : BitVec 64 := 1#64 <<< 62

/-- `sign ? FP32_SIGN_MASK : 0`. -/
def signBits (sign : Bool) : BitVec 32 := if sign then fp32SignMask else 0

namespace FpClass

/-- `is_nan`. -/
def isNan (fpClass : FpClass) : Bool := fpClass == .signalingNaN || fpClass == .quietNaN

/-- `is_signaling_nan`. -/
def isSignalingNan (fpClass : FpClass) : Bool := fpClass == .signalingNaN

end FpClass

/-! ## §2. Unpacking -/

/-- `while ((significand & (1U << 23)) == 0) { significand <<= 1; --exponent; }` -/
def normalizeSubnormal : Nat → BitVec 32 → Int → Except Fault (BitVec 32 × Int)
  -- at most 23 rounds bring a nonzero fraction up
  | 0, _, _ => .error .divergence
  | fuel + 1, significand, exponent =>
      if significand &&& (1#32 <<< 23) = 0 then
        normalizeSubnormal fuel (significand <<< 1) (exponent - 1)
      else .ok (significand, exponent)

/-- `UnpackedFp32::UnpackedFp32(raw)`. -/
def UnpackedFp32.ofRaw (raw : BitVec 32) : Except Fault UnpackedFp32 :=
  let sign := decide ((raw >>> 31) &&& 1#32 ≠ 0)
  let rawExponent := (raw >>> 23) &&& 0xff#32
  let fraction := raw &&& 0x7fffff
  if rawExponent = 0xff then
    if fraction = 0 then
      .ok { sign := sign, exponent := 0, significand := 0, fpClass := .infinity }
    else
      let quiet := fraction &&& (1#32 <<< 22) ≠ 0
      .ok
        { sign := sign
          exponent := 0
          significand := fraction
          fpClass := if quiet then .quietNaN else .signalingNaN }
  else if rawExponent = 0 then
    if fraction = 0 then
      -- a zero keeps the exponent of the subnormals
      .ok { sign := sign, exponent := -126, significand := 0, fpClass := .zero }
    else do
      let (significand, exponent) ← normalizeSubnormal 32 fraction (-126)
      return { sign := sign, exponent := exponent, significand := significand,
               fpClass := .subnormal }
  else
    .ok
      { sign := sign
        exponent := (rawExponent.toNat : Int) - 127
        significand := (1#32 <<< 23) ||| fraction
        fpClass := .normal }

/-- `UnpackedFp32::to_bits`.  The `switch` has a case for each class, so the `throw` behind
it is not reached. -/
def UnpackedFp32.toBits (u : UnpackedFp32) : BitVec 32 :=
  let exponentMask : BitVec 32 := 0xff#32 <<< 23
  let fractionMask : BitVec 32 := 0x7fffff
  let quietNanMask : BitVec 32 := 1#32 <<< 22
  match u.fpClass with
  | .zero => signBits u.sign
  | .infinity => signBits u.sign ||| exponentMask
  | .quietNaN =>
      let fraction := (u.significand &&& fractionMask) ||| quietNanMask
      signBits u.sign ||| exponentMask ||| fraction
  | .signalingNaN =>
      let fraction := (u.significand &&& fractionMask) &&& ~~~quietNanMask
      -- a fraction of zero would be an infinity
      let fraction := if fraction = 0 then 1 else fraction
      signBits u.sign ||| exponentMask ||| fraction
  | .normal =>
      let rawExponent : BitVec 32 := BitVec.ofInt 32 (u.exponent + 127)
      let fraction := u.significand &&& fractionMask
      signBits u.sign ||| (rawExponent <<< 23) ||| fraction
  | .subnormal =>
      -- the constructor shifted up from -126 and counted the exponent down
      let shift : BitVec 32 := BitVec.ofInt 32 (-126 - u.exponent)
      let fraction := u.significand >>> shift.toNat
      signBits u.sign ||| (fraction &&& fractionMask)

/-! ## §3. Rounding -/

/-- `shift_right_jam`. -/
def shiftRightJam (value : BitVec 64) (distance : Nat) : BitVec 64 :=
  if distance = 0 then value
  else if distance < 64 then
    let discardedMask : BitVec 64 := (1#64 <<< distance) - 1
    let discarded := decide (value &&& discardedMask ≠ 0)
    (value >>> distance) ||| (if discarded then 1 else 0)
  else if value ≠ 0 then 1 else 0

/-- `should_round_up`. -/
def shouldRoundUp (rm : RoundingMode) (sign : Bool) (roundedSignificand : BitVec 64)
    (roundBits : BitVec 32) : Except Fault Bool :=
  match rm with
  | .rne =>
      .ok (decide (roundBits > 0b100) ||
        (decide (roundBits = 0b100) && decide (roundedSignificand &&& 1 ≠ 0)))
  | .rtz => .ok false
  | .rdn => .ok (sign && decide (roundBits ≠ 0))
  | .rup => .ok (!sign && decide (roundBits ≠ 0))
  | .rmm => .ok (decide (roundBits ≥ 0b100))
  | .dynamic => .error (.logicError "dynamic rounding mode was not resolved")
  | .other _ => .error (.logicError "invalid floating-point rounding mode")

/-- The loop of `round_and_pack` that shifts a too long significand down. -/
def shiftDownToHidden : Nat → BitVec 64 → Int → Except Fault (BitVec 64 × Int)
  | 0, _, _ => .error .divergence
  | fuel + 1, significand, exponent =>
      if significand &&& (fp32ExtendedHiddenBit <<< 1) ≠ 0 then
        shiftDownToHidden fuel (shiftRightJam significand 1) (exponent + 1)
      else .ok (significand, exponent)

/-- The loop of `round_and_pack` that shifts a too short significand up. -/
def shiftUpToHidden : Nat → BitVec 64 → Int → Except Fault (BitVec 64 × Int)
  | 0, _, _ => .error .divergence
  | fuel + 1, significand, exponent =>
      if significand &&& fp32ExtendedHiddenBit = 0 then
        shiftUpToHidden fuel (significand <<< 1) (exponent - 1)
      else .ok (significand, exponent)

/-- The overflow branch of `round_and_pack`. -/
def overflowResult (sign : Bool) (rm : RoundingMode) : FpResult :=
  let roundToInfinity :=
    decide (rm = .rne) || decide (rm = .rmm) || (decide (rm = .rup) && !sign) ||
      (decide (rm = .rdn) && sign)
  .ofWord (signBits sign ||| (if roundToInfinity then fp32Infinity else fp32MaxFinite))
    (fpFlagOf ||| fpFlagNx)

/-- The last part of `round_and_pack`: encode a rounded significand. -/
def packRounded (sign : Bool) (exponent : Int) (roundedSignificand : BitVec 64)
    (inexact : Bool) : FpResult :=
  -- tested on the significand that has been rounded already
  let subnormal := decide (exponent = -126) && decide (roundedSignificand < fp32HiddenBit)
  let flags : BitVec 32 := if inexact then fpFlagNx else 0
  let flags := if subnormal && inexact then flags ||| fpFlagUf else flags
  if roundedSignificand = 0 then .ofWord (signBits sign) flags
  else
    let fraction : BitVec 32 := roundedSignificand.setWidth 32 &&& 0x7fffff
    let rawExponent : BitVec 32 := if subnormal then 0 else BitVec.ofInt 32 (exponent + 127)
    .ofWord (signBits sign ||| (rawExponent <<< 23) ||| fraction) flags

/-- `round_and_pack`. -/
def roundAndPack (sign : Bool) (exponent : Int) (significand : BitVec 64) (rm : RoundingMode) :
    Except Fault FpResult := do
  if significand = 0 then return .ofWord (signBits sign) 0
  let (significand, exponent) ← shiftDownToHidden 64 significand exponent
  let (significand, exponent) ← shiftUpToHidden 64 significand exponent
  -- too small for its binade: shifted onto the subnormal grid
  let (significand, exponent) :=
    if exponent < -126 then (shiftRightJam significand (-126 - exponent).toNat, -126)
    else (significand, exponent)
  let roundBits : BitVec 32 := (significand &&& 0b111).setWidth 32
  let inexact := decide (roundBits ≠ 0)
  let roundUp ← shouldRoundUp rm sign (significand >>> 3) roundBits
  let roundedSignificand := if roundUp then (significand >>> 3) + 1 else significand >>> 3
  -- rounding up carried into the next binade
  let (roundedSignificand, exponent) :=
    if roundedSignificand ≥ fp32HiddenBit <<< 1 then (roundedSignificand >>> 1, exponent + 1)
    else (roundedSignificand, exponent)
  if exponent > 127 then return overflowResult sign rm
  return packRounded sign exponent roundedSignificand inexact

end ZincSim
