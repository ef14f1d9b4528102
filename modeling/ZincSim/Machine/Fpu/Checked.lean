/-
  ZincSim.Machine.Fpu.Checked — `fpu.cpp` with its arithmetic checked.

  Each definition is the one of the same name in `Machine.Fpu`, statement by statement,
  with the sums, products and left shifts of words, the `std::int32_t` exponents and the
  entries of the loops checked.  The branches for special operands do no arithmetic.
-/
import ZincSim.Lib.Checked
import ZincSim.Machine.Fpu.Convert

namespace ZincSim.CheckedFpu

open Checked

/-- A computation of the FPU with checks. -/
abbrev Run (α : Type) : Type := Except (Violation Fault) α

/-- A `std::int32_t`. -/
def int32 (x : Int) : Run Int := signedInt 32 x

/-! ## §1. Unpacking -/

/-- `while ((significand & (1U << 23)) == 0) { significand <<= 1; --exponent; }` -/
def normalizeSubnormal : Nat → BitVec 32 → Int → Run (BitVec 32 × Int)
  | 0, _, _ => .error (.fault .divergence)
  | fuel + 1, significand, exponent =>
      if significand &&& (1#32 <<< 23) = 0 then do
        let significand ← shl significand 1
        let exponent ← int32 (exponent - 1)
        normalizeSubnormal fuel significand exponent
      else .ok (significand, exponent)

/-- `UnpackedFp32::UnpackedFp32(raw)`. -/
def ofRaw (raw : BitVec 32) : Run UnpackedFp32 :=
  let sign := decide ((raw >>> 31) &&& 1#32 ≠ 0)
  let rawExponent := (raw >>> 23) &&& 0xff#32
  let fraction := raw &&& 0x7fffff
  if rawExponent = 0xff then
    if fraction = 0 then
      .ok { sign := sign, exponent := 0, significand := 0, fpClass := .infinity }
    else
      let quiet := fraction &&& (1#32 <<< 22) ≠ 0
      .ok
        { sign := sign
          exponent := 0
          significand := fraction
          fpClass := if quiet then .quietNaN else .signalingNaN }
  else if rawExponent = 0 then
    if fraction = 0 then
      .ok { sign := sign, exponent := -126, significand := 0, fpClass := .zero }
    else do
      require (fraction ≠ 0)
      let (significand, exponent) ← normalizeSubnormal 32 fraction (-126)
      return { sign := sign, exponent := exponent, significand := significand,
               fpClass := .subnormal }
  else do
    let exponent ← int32 ((rawExponent.toNat : Int) - 127)
    return { sign := sign
             exponent := exponent
             significand := (1#32 <<< 23) ||| fraction
             fpClass := .normal }

/-! ## §2. Rounding -/

/-- `shift_right_jam`. -/
def shiftRightJam (value : BitVec 64) (distance : Nat) : Run (BitVec 64) :=
  if distance = 0 then .ok value
  else if distance < 64 then do
    let bit ← shl 1#64 distance
    let discardedMask := bit - 1
    let discarded := decide (value &&& discardedMask ≠ 0)
    return (value >>> distance) ||| (if discarded then 1 else 0)
  else .ok (if value ≠ 0 then 1 else 0)

/-- The loop of `round_and_pack` that shifts a too long significand down. -/
def shiftDownToHidden : Nat → BitVec 64 → Int → Run (BitVec 64 × Int)
  | 0, _, _ => .error (.fault .divergence)
  | fuel + 1, significand, exponent =>
      if significand &&& (fp32ExtendedHiddenBit <<< 1) ≠ 0 then do
        let significand ← shiftRightJam significand 1
        let exponent ← int32 (exponent + 1)
        shiftDownToHidden fuel significand exponent
      else .ok (significand, exponent)

/-- The loop of `round_and_pack` that shifts a too short significand up. -/
def shiftUpToHidden : Nat → BitVec 64 → Int → Run (BitVec 64 × Int)
  | 0, _, _ => .error (.fault .divergence)
  | fuel + 1, significand, exponent =>
      if significand &&& fp32ExtendedHiddenBit = 0 then do
        let significand ← shl significand 1
        let exponent ← int32 (exponent - 1)
        shiftUpToHidden fuel significand exponent
      else .ok (significand, exponent)

/-- `if (exponent < -126) { ... }` of `round_and_pack`. -/
def shiftToSubnormal (significand : BitVec 64) (exponent : Int) : Run (BitVec 64 × Int) :=
  if exponent < -126 then do
    let distance ← int32 (-126 - exponent)
    let significand ← shiftRightJam significand distance.toNat
    return (significand, -126)
  else .ok (significand, exponent)

/-- `if (should_round_up(...)) { ++rounded_significand; }` of `round_and_pack`. -/
def roundSignificand (roundUp : Bool) (significand : BitVec 64) : Run (BitVec 64) :=
  if roundUp then add (significand >>> 3) 1 else .ok (significand >>> 3)

/-- The carry of `round_and_pack` into the next binade. -/
def carryRounded (roundedSignificand : BitVec 64) (exponent : Int) : Run (BitVec 64 × Int) :=
  if roundedSignificand ≥ fp32HiddenBit <<< 1 then do
    let exponent ← int32 (exponent + 1)
    return (roundedSignificand >>> 1, exponent)
  else .ok (roundedSignificand, exponent)

/-- The last part of `round_and_pack`: encode a rounded significand. -/
def packRounded (sign : Bool) (exponent : Int) (roundedSignificand : BitVec 64)
    (inexact : Bool) : Run FpResult :=
  let subnormal := decide (exponent = -126) && decide (roundedSignificand < fp32HiddenBit)
  let flags : BitVec 32 := if inexact then fpFlagNx else 0
  let flags := if subnormal && inexact then flags ||| fpFlagUf else flags
  if roundedSignificand = 0 then .ok (.ofWord (signBits sign) flags)
  else do
    let fraction : BitVec 32 := roundedSignificand.setWidth 32 &&& 0x7fffff
    let biased ← int32 (exponent + 127)
    let rawExponent : BitVec 32 := if subnormal then 0 else BitVec.ofInt 32 biased
    let exponentBits ← shl rawExponent 23
    return .ofWord (signBits sign ||| exponentBits ||| fraction) flags

/-- `round_and_pack`, which is only called with a significand below `2 ^ 28`. -/
def roundAndPack (sign : Bool) (exponent : Int) (significand : BitVec 64) (rm : RoundingMode) :
    Run FpResult := do
  require (significand = 0 ∨ 1 ≤ significand.toNat ∧ significand.toNat < 2 ^ 28)
  if significand = 0 then return .ofWord (signBits sign) 0
  let (significand, exponent) ← shiftDownToHidden 64 significand exponent
  let (significand, exponent) ← shiftUpToHidden 64 significand exponent
  let (significand, exponent) ← shiftToSubnormal significand exponent
  let roundBits : BitVec 32 := (significand &&& 0b111).setWidth 32
  let inexact := decide (roundBits ≠ 0)
  let roundUp ← lift (shouldRoundUp rm sign (significand >>> 3) roundBits)
  let roundedSignificand ← roundSignificand roundUp significand
  let (roundedSignificand, exponent) ← carryRounded roundedSignificand exponent
  if exponent > 127 then return overflowResult sign rm
  packRounded sign exponent roundedSignificand inexact

/-! ## §3. Addition and subtraction -/

/-- The alignment of `add_or_sub`: common exponent and the two significands. -/
def alignAddends (lhs rhs : UnpackedFp32) : Run (Int × BitVec 64 × BitVec 64) := do
  let lhsSignificand ← shl (lhs.significand.setWidth 64) 3
  let rhsSignificand ← shl (rhs.significand.setWidth 64) 3
  if lhs.exponent > rhs.exponent then
    let distance ← int32 (lhs.exponent - rhs.exponent)
    let rhsSignificand ← shiftRightJam rhsSignificand distance.toNat
    return (lhs.exponent, lhsSignificand, rhsSignificand)
  else if rhs.exponent > lhs.exponent then
    let distance ← int32 (rhs.exponent - lhs.exponent)
    let lhsSignificand ← shiftRightJam lhsSignificand distance.toNat
    return (rhs.exponent, lhsSignificand, rhsSignificand)
  else return (lhs.exponent, lhsSignificand, rhsSignificand)

/-- The part of `add_or_sub` for two nonzero finite operands. -/
def addFinite (lhs rhs : UnpackedFp32) (rhsSign : Bool) (rm : RoundingMode) : Run FpResult := do
  let (exponent, lhsSignificand, rhsSignificand) ← alignAddends lhs rhs
  if lhs.sign = rhsSign then
    let sum ← add lhsSignificand rhsSignificand
    roundAndPack lhs.sign exponent sum rm
  else if lhsSignificand = rhsSignificand then
    .ok (.ofWord (signBits (decide (rm = .rdn))) 0)
  else
    let lhsHasLargerMagnitude := decide (lhsSignificand > rhsSignificand)
    let resultSignificand :=
      if lhsHasLargerMagnitude then lhsSignificand - rhsSignificand
      else rhsSignificand - lhsSignificand
    let resultSign := if lhsHasLargerMagnitude then lhs.sign else rhsSign
    roundAndPack resultSign exponent resultSignificand rm

/-- `add_or_sub`. -/
def addOrSub (lhsRaw rhsRaw : BitVec 32) (subtract : Bool) (rm : RoundingMode) :
    Run FpResult := do
  let lhs ← ofRaw lhsRaw
  let rhs ← ofRaw rhsRaw
  let rhsSign := rhs.sign ^^ subtract
  if lhs.fpClass.isNan || rhs.fpClass.isNan then return propagateNan lhs rhs
  if lhs.fpClass = .infinity ∨ rhs.fpClass = .infinity then
    if lhs.fpClass = .infinity ∧ rhs.fpClass = .infinity ∧ lhs.sign ≠ rhsSign then
      return .ofWord fp32CanonicalNaN fpFlagNv
    let resultSign := if lhs.fpClass = .infinity then lhs.sign else rhsSign
    return .ofWord (signBits resultSign ||| fp32Infinity) 0
  if lhs.fpClass = .zero ∧ rhs.fpClass = .zero then
    let resultSign := if lhs.sign = rhsSign then lhs.sign else decide (rm = .rdn)
    return .ofWord (signBits resultSign) 0
  if lhs.fpClass = .zero then
    return .ofWord ((rhsRaw &&& fp32MagnitudeMask) ||| signBits rhsSign) 0
  if rhs.fpClass = .zero then
    return .ofWord lhsRaw 0
  addFinite lhs rhs rhsSign rm

/-! ## §4. Multiplication and fused multiply-add -/

/-- `lhs.unbiased_exponent() + rhs.unbiased_exponent() + product_at_least_two`. -/
def productExponent (lhs rhs : UnpackedFp32) (productAtLeastTwo : Bool) : Run Int := do
  let exponent ← int32 (lhs.exponent + rhs.exponent)
  int32 (exponent + (if productAtLeastTwo then 1 else 0))

/-- `multiply`. -/
def multiply (lhsRaw rhsRaw : BitVec 32) (rm : RoundingMode) : Run FpResult := do
  let lhs ← ofRaw lhsRaw
  let rhs ← ofRaw rhsRaw
  let sign := lhs.sign ^^ rhs.sign
  if lhs.fpClass.isNan || rhs.fpClass.isNan then return propagateNan lhs rhs
  let lhsZero := decide (lhs.fpClass = .zero)
  let rhsZero := decide (rhs.fpClass = .zero)
  let lhsInfinity := decide (lhs.fpClass = .infinity)
  let rhsInfinity := decide (rhs.fpClass = .infinity)
  if (lhsZero && rhsInfinity) || (lhsInfinity && rhsZero) then
    return .ofWord fp32CanonicalNaN fpFlagNv
  if lhsInfinity || rhsInfinity then
    return .ofWord (signBits sign ||| fp32Infinity) 0
  if lhsZero || rhsZero then
    return .ofWord (signBits sign) 0
  let product ← mul (lhs.significand.setWidth 64) (rhs.significand.setWidth 64 : BitVec 64)
  let productAtLeastTwo := decide (product &&& (1#64 <<< 47) ≠ 0)
  let shift := if productAtLeastTwo then 21 else 20
  let exponent ← productExponent lhs rhs productAtLeastTwo
  let significand ← shiftRightJam product shift
  roundAndPack sign exponent significand rm

/-- The normalising loop of `compute_fma`. -/
def shiftUpToWideHidden : Nat → BitVec 64 → Int → Run (BitVec 64 × Int)
  | 0, _, _ => .error (.fault .divergence)
  | fuel + 1, significand, exponent =>
      if significand &&& (fp32WideHiddenBit ||| (1#64 <<< 63)) = 0 then do
        let significand ← shl significand 1
        let exponent ← int32 (exponent - 1)
        shiftUpToWideHidden fuel significand exponent
      else .ok (significand, exponent)

/-- The alignment of `compute_fma`: common exponent, product and addend. -/
def alignFma (productExponent addendExponent : Int)
    (productSignificand addendSignificand : BitVec 64) : Run (Int × BitVec 64 × BitVec 64) := do
  if productExponent > addendExponent then
    let distance ← int32 (productExponent - addendExponent)
    let addendSignificand ← shiftRightJam addendSignificand distance.toNat
    return (productExponent, productSignificand, addendSignificand)
  else if addendExponent > productExponent then
    let distance ← int32 (addendExponent - productExponent)
    let productSignificand ← shiftRightJam productSignificand distance.toNat
    return (addendExponent, productSignificand, addendSignificand)
  else return (productExponent, productSignificand, addendSignificand)

/-- The sum or the difference of `compute_fma`, and its sign. -/
def combineFma (productSign addendSign : Bool) (productSignificand addendSignificand : BitVec 64) :
    Run (BitVec 64 × Bool) :=
  if productSign = addendSign then do
    let sum ← add productSignificand addendSignificand
    return (sum, productSign)
  else if productSignificand ≥ addendSignificand then
    .ok (productSignificand - addendSignificand, productSign)
  else .ok (addendSignificand - productSignificand, addendSign)

/-- `compute_fma`. -/
def computeFma (lhs rhs addend : UnpackedFp32) (productSign addendSign : Bool) :
    Run UnroundedFp32 := do
  let product ← mul (lhs.significand.setWidth 64) (rhs.significand.setWidth 64 : BitVec 64)
  let productAtLeastTwo := decide (product &&& (1#64 <<< 47) ≠ 0)
  let productSignificand ← shl product (if productAtLeastTwo then 15 else 16)
  let productExponent ← productExponent lhs rhs productAtLeastTwo
  let addendSignificand ← shl (addend.significand.setWidth 64 : BitVec 64) 39
  let addendExponent := if addendSignificand = 0 then productExponent else addend.exponent
  let (exponent, productSignificand, addendSignificand) ←
    alignFma productExponent addendExponent productSignificand addendSignificand
  let (significand, sign) ←
    combineFma productSign addendSign productSignificand addendSignificand
  if significand = 0 then return { sign := false, exponent := exponent, significand := 0 }
  require (significand ≠ 0)
  let (significand, exponent) ← shiftUpToWideHidden 64 significand exponent
  let significand ← shiftRightJam significand 36
  return { sign := sign, exponent := exponent, significand := significand }

/-- `Fpu::fma`. -/
def fma (op : FmaFpType) (lhsRaw rhsRaw addendRaw : BitVec 32) (rm : RoundingMode) :
    Run FpResult := do
  let (negateProduct, negateAddend) := fmaNegations op
  let lhs ← ofRaw lhsRaw
  let rhs ← ofRaw rhsRaw
  let addend ← ofRaw addendRaw
  let productSign := lhs.sign ^^ rhs.sign ^^ negateProduct
  let addendSign := addend.sign ^^ negateAddend
  let lhsZero := decide (lhs.fpClass = .zero)
  let rhsZero := decide (rhs.fpClass = .zero)
  let lhsInfinity := decide (lhs.fpClass = .infinity)
  let rhsInfinity := decide (rhs.fpClass = .infinity)
  let addendInfinity := decide (addend.fpClass = .infinity)
  let invalidProduct := (lhsZero && rhsInfinity) || (lhsInfinity && rhsZero)
  let anyNan := lhs.fpClass.isNan || rhs.fpClass.isNan || addend.fpClass.isNan
  let signalingNan := lhs.fpClass.isSignalingNan || rhs.fpClass.isSignalingNan ||
    addend.fpClass.isSignalingNan
  if anyNan || invalidProduct then
    return .ofWord fp32CanonicalNaN (if signalingNan || invalidProduct then fpFlagNv else 0)
  let productInfinity := lhsInfinity || rhsInfinity
  if productInfinity then
    if addendInfinity && (productSign != addendSign) then
      return .ofWord fp32CanonicalNaN fpFlagNv
    return .ofWord (signBits productSign ||| fp32Infinity) 0
  if addendInfinity then
    return .ofWord (signBits addendSign ||| fp32Infinity) 0
  let productZero := lhsZero || rhsZero
  let addendZero := decide (addend.fpClass = .zero)
  if productZero then
    if addendZero then
      let zeroSign := if productSign = addendSign then productSign else decide (rm = .rdn)
      return .ofWord (signBits zeroSign) 0
    return .ofWord ((addendRaw &&& fp32MagnitudeMask) ||| signBits addendSign) 0
  let result ← computeFma lhs rhs addend productSign addendSign
  let sign := if result.significand = 0 then decide (rm = .rdn) else result.sign
  roundAndPack sign result.exponent result.significand rm

/-! ## §5. Division -/

/-- The rounds `bit - 1, …, 0` of the loop of `divide_unsigned`. -/
def divideLoop (dividend divisor : BitVec 64) : Nat → DivisionResult → Run DivisionResult
  | 0, result => .ok result
  | bit + 1, result => do
      let shifted ← shl result.remainder 1
      let remainder := shifted ||| ((dividend >>> bit) &&& 1#64)
      if remainder ≥ divisor then
        let digit ← shl 1#64 bit
        divideLoop dividend divisor bit
          { quotient := result.quotient ||| digit, remainder := remainder - divisor }
      else divideLoop dividend divisor bit { result with remainder := remainder }

/-- `divide_unsigned`. -/
def divideUnsigned (dividend divisor : BitVec 64) : Run DivisionResult :=
  divideLoop dividend divisor 64 { quotient := 0, remainder := 0 }

/-- `if (numerator < divisor) { numerator <<= 1; --exponent; }` of `divide`. -/
def scaleNumerator (numerator divisor : BitVec 64) (exponent : Int) : Run (BitVec 64 × Int) :=
  if numerator < divisor then do
    let numerator ← shl numerator 1
    let exponent ← int32 (exponent - 1)
    return (numerator, exponent)
  else .ok (numerator, exponent)

/-- The part of `divide` for two nonzero finite operands. -/
def divideFinite (lhs rhs : UnpackedFp32) (rm : RoundingMode) : Run FpResult := do
  let numerator : BitVec 64 := lhs.significand.setWidth 64
  let divisor : BitVec 64 := rhs.significand.setWidth 64
  let exponent ← int32 (lhs.exponent - rhs.exponent)
  let (numerator, exponent) ← scaleNumerator numerator divisor exponent
  let dividend ← shl numerator 26
  let division ← divideUnsigned dividend divisor
  let quotient :=
    if division.remainder ≠ 0 then division.quotient ||| 1 else division.quotient
  roundAndPack (lhs.sign ^^ rhs.sign) exponent quotient rm

/-- `divide`. -/
def divide (lhsRaw rhsRaw : BitVec 32) (rm : RoundingMode) : Run FpResult := do
  let lhs ← ofRaw lhsRaw
  let rhs ← ofRaw rhsRaw
  let sign := lhs.sign ^^ rhs.sign
  let lhsZero := decide (lhs.fpClass = .zero)
  let rhsZero := decide (rhs.fpClass = .zero)
  let lhsInfinity := decide (lhs.fpClass = .infinity)
  let rhsInfinity := decide (rhs.fpClass = .infinity)
  if lhs.fpClass.isNan || rhs.fpClass.isNan then return propagateNan lhs rhs
  if (lhsZero && rhsZero) || (lhsInfinity && rhsInfinity) then
    return .ofWord fp32CanonicalNaN fpFlagNv
  if rhsZero then
    return .ofWord (signBits sign ||| fp32Infinity) fpFlagDz
  if lhsInfinity then
    return .ofWord (signBits sign ||| fp32Infinity) 0
  if lhsZero || rhsInfinity then
    return .ofWord (signBits sign) 0
  divideFinite lhs rhs rm

/-! ## §6. Square root -/

/-- `while (bit != 0) { ... }` of `square_root_unsigned`. -/
def squareRootLoop : Nat → (value root bit : BitVec 64) → Run SquareRootResult
  | 0, _, _, _ => .error (.fault .divergence)
  | fuel + 1, value, root, bit =>
      if bit ≠ 0 then do
        let trial ← add root bit
        if value ≥ trial then
          let root ← add (root >>> 1) bit
          squareRootLoop fuel (value - trial) root (bit >>> 2)
        else squareRootLoop fuel value (root >>> 1) (bit >>> 2)
      else .ok { root := root, remainder := value }

/-- `square_root_unsigned`; its first loop only shifts down. -/
def squareRootUnsigned (value : BitVec 64) : Run SquareRootResult := do
  let bit ← shl 1#64 62
  let bit ← lift (squareRootStart 64 value bit)
  squareRootLoop 64 value 0 bit

/-- `if ((exponent & 1) != 0) { significand <<= 1; --exponent; }` of `square_root`. -/
def scaleRadicand (significand : BitVec 64) (exponent : Int) : Run (BitVec 64 × Int) :=
  if exponent % 2 ≠ 0 then do
    let significand ← shl significand 1
    let exponent ← int32 (exponent - 1)
    return (significand, exponent)
  else .ok (significand, exponent)

/-- `square_root`. -/
def squareRoot (raw : BitVec 32) (rm : RoundingMode) : Run FpResult := do
  let operand ← ofRaw raw
  if operand.fpClass.isNan then
    return .ofWord fp32CanonicalNaN (if operand.fpClass.isSignalingNan then fpFlagNv else 0)
  if operand.fpClass = .zero then return .ofWord raw 0
  if operand.sign then return .ofWord fp32CanonicalNaN fpFlagNv
  if operand.fpClass = .infinity then return .ofWord fp32Infinity 0
  let (significand, exponent) ← scaleRadicand (operand.significand.setWidth 64) operand.exponent
  let radicand ← shl significand 29
  let result ← squareRootUnsigned radicand
  let roundedSignificand :=
    if result.remainder ≠ 0 then result.root ||| 1 else result.root
  roundAndPack false (exponent.tdiv 2) roundedSignificand rm

/-! ## §7. Conversions -/

/-- `for (value = magnitude; value > 1; value >>= 1) { ++exponent; }` -/
def leadingExponent : Nat → BitVec 64 → Int → Run Int
  | 0, _, _ => .error (.fault .divergence)
  | fuel + 1, value, exponent =>
      if value > 1 then do
        let exponent ← int32 (exponent + 1)
        leadingExponent fuel (value >>> 1) exponent
      else .ok exponent

/-- Sign and magnitude of the operand of `integer_to_float`. -/
def integerOperand (op : OpFpType) (operand : BitVec 64) : Run (Bool × BitVec 64) :=
  match op with
  | .cvtSToW => do
      let word : BitVec 64 := (operand.setWidth 32).setWidth 64
      let sign := decide (word &&& (1#64 <<< 31) ≠ 0)
      if sign then
        let negated ← add (~~~word) 1
        return (sign, negated &&& 0xffffffff)
      else return (sign, word)
  | .cvtSToWu => .ok (false, (operand.setWidth 32).setWidth 64)
  | .cvtSToL => do
      let sign := decide (operand &&& (1#64 <<< 63) ≠ 0)
      if sign then
        let negated ← add (~~~operand) 1
        return (sign, negated)
      else return (sign, operand)
  | .cvtSToLu => .ok (false, operand)
  | _ => .error (.fault (.logicError "operation is not an integer-to-FP32 conversion"))

/-- The significand of `integer_to_float`. -/
def alignInteger (magnitude : BitVec 64) (exponent : Int) : Run (BitVec 64) :=
  if exponent > 26 then do
    let distance ← int32 (exponent - 26)
    shiftRightJam magnitude distance.toNat
  else do
    let distance ← int32 (26 - exponent)
    shl magnitude distance.toNat

/-- `integer_to_float`. -/
def integerToFloat (op : OpFpType) (operand : BitVec 64) (rm : RoundingMode) :
    Run FpResult := do
  let (sign, magnitude) ← integerOperand op operand
  if magnitude = 0 then return .ofWord 0 0
  let exponent ← leadingExponent 64 magnitude 0
  let significand ← alignInteger magnitude exponent
  roundAndPack sign exponent significand rm

/-- `(1ULL << shift) - 1` and `1ULL << (shift - 1)` of `float_to_integer`, for the fraction. -/
def fractionOf (significand : BitVec 64) (shift : Nat) :
    Run (BitVec 64 × BitVec 64 × BitVec 64) :=
  if shift ≥ 64 then .ok (0, significand, 0)
  else do
    let unit ← shl 1#64 shift
    let halfway ← shl 1#64 (shift - 1)
    return (significand >>> shift, significand &&& (unit - 1), halfway)

/-- Magnitude, `inexact` and `overflow` of `float_to_integer` before the range
check. -/
def integerMagnitude (operand : UnpackedFp32) (rm : RoundingMode) :
    Run (BitVec 64 × Bool × Bool) :=
  let significand : BitVec 64 := operand.significand.setWidth 64
  if operand.exponent ≥ 23 then do
    let distance ← int32 (operand.exponent - 23)
    let shift := distance.toNat
    if shift ≥ 64 ∨ significand > BitVec.allOnes 64 >>> shift then return (0, false, true)
    else
      let magnitude ← shl significand shift
      return (magnitude, false, false)
  else do
    let distance ← int32 (23 - operand.exponent)
    let shift := distance.toNat
    let (magnitude, remainder, halfway) ← fractionOf significand shift
    let inexact := decide (remainder ≠ 0)
    let roundUp ←
      lift (integerRoundUp rm operand.sign inexact shift magnitude remainder halfway)
    if roundUp then
      if magnitude = BitVec.allOnes 64 then return (magnitude, inexact, true)
      let rounded ← add magnitude 1
      return (rounded, inexact, false)
    return (magnitude, inexact, false)

/-- `float_to_integer`; encoding its result is the negation of a word, modulo `2 ^ 64`. -/
def floatToInteger (op : OpFpType) (operandRaw : BitVec 32) (rm : RoundingMode) :
    Run FpResult := do
  let (signedResult, width) ← lift (integerTarget op)
  let operand ← ofRaw operandRaw
  let nan := operand.fpClass.isNan
  let sign := operand.sign
  if nan || decide (operand.fpClass = .infinity) then
    return invalidResult nan sign signedResult width
  if operand.fpClass = .zero then return { value := 0, flags := 0 }
  let (magnitude, inexact, overflow) ← integerMagnitude operand rm
  let overflow :=
    if overflow then true
    else if signedResult then
      decide (magnitude > (if sign then signedMinMagnitude width else signedMax width))
    else (sign && decide (magnitude ≠ 0)) || decide (magnitude > unsignedMax width)
  if overflow then return invalidResult nan sign signedResult width
  return { value := encodeIntegerResult sign magnitude width
           flags := if inexact then fpFlagNx else 0 }

/-! ## §8. The dispatchers of `class Fpu` -/

/-- `compare`, which only unpacks. -/
def compareFp (op : OpFpType) (lhsRaw rhsRaw : BitVec 32) : Run FpResult := do
  let _ ← ofRaw lhsRaw
  let _ ← ofRaw rhsRaw
  lift (ZincSim.compareFp op lhsRaw rhsRaw)

/-- `min_or_max`, which only unpacks. -/
def minOrMax (lhsRaw rhsRaw : BitVec 32) (maximum : Bool) : Run FpResult := do
  let _ ← ofRaw lhsRaw
  let _ ← ofRaw rhsRaw
  lift (ZincSim.minOrMax lhsRaw rhsRaw maximum)

/-- `Fpu::binary`; the sign injections do no arithmetic. -/
def binary (op : OpFpType) (lhs rhs : BitVec 32) (rm : RoundingMode) : Run FpResult :=
  match op with
  | .add => addOrSub lhs rhs false rm
  | .sub => addOrSub lhs rhs true rm
  | .mul => multiply lhs rhs rm
  | .div => divide lhs rhs rm
  | .min => minOrMax lhs rhs false
  | .max => minOrMax lhs rhs true
  | .eq | .lt | .le => compareFp op lhs rhs
  | _ => lift (Fpu.binary op lhs rhs rm)

/-- `Fpu::unary`. -/
def unary (op : OpFpType) (operand : BitVec 32) (rm : RoundingMode) : Run FpResult :=
  match op with
  | .sqrt => squareRoot operand rm
  | _ => lift (Fpu.unary op operand rm)

/-- `Fpu::convert`. -/
def convert (op : OpFpType) (operand : BitVec 64) (rm : RoundingMode) : Run FpResult :=
  match op with
  | .cvtWFromS | .cvtWuFromS | .cvtLFromS | .cvtLuFromS =>
      floatToInteger op (operand.setWidth 32) rm
  | .cvtSToW | .cvtSToWu | .cvtSToL | .cvtSToLu => integerToFloat op operand rm
  | _ => lift (Fpu.convert op operand rm)

end ZincSim.CheckedFpu
