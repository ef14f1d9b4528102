/-
  ZincSim.Machine.Fpu.Arith — the rounded operations of `fpu.cpp`: addition,
  multiplication, fused multiply-add, division and square root.
-/
import ZincSim.Machine.Fpu.Round

namespace ZincSim

/-! ## §1. Addition and subtraction -/

/-- `propagate_nan`. -/
def propagateNan (lhs rhs : UnpackedFp32) : FpResult :=
  let invalid := lhs.fpClass.isSignalingNan || rhs.fpClass.isSignalingNan
  .ofWord fp32CanonicalNaN (if invalid then fpFlagNv else 0)

/-- The alignment of `add_or_sub`: common exponent and the two significands. -/
def alignAddends (lhs rhs : UnpackedFp32) : Int × BitVec 64 × BitVec 64 :=
  let lhsSignificand : BitVec 64 := lhs.significand.setWidth 64 <<< 3
  let rhsSignificand : BitVec 64 := rhs.significand.setWidth 64 <<< 3
  if lhs.exponent > rhs.exponent then
    (lhs.exponent, lhsSignificand,
      shiftRightJam rhsSignificand (lhs.exponent - rhs.exponent).toNat)
  else if rhs.exponent > lhs.exponent then
    (rhs.exponent, shiftRightJam lhsSignificand (rhs.exponent - lhs.exponent).toNat,
      rhsSignificand)
  else (lhs.exponent, lhsSignificand, rhsSignificand)

/-- The part of `add_or_sub` for two nonzero finite operands. -/
def addFinite (lhs rhs : UnpackedFp32) (rhsSign : Bool) (rm : RoundingMode) :
    Except Fault FpResult :=
  let (exponent, lhsSignificand, rhsSignificand) := alignAddends lhs rhs
  if lhs.sign = rhsSign then
    roundAndPack lhs.sign exponent (lhsSignificand + rhsSignificand) rm
  else if lhsSignificand = rhsSignificand then
    -- exact cancellation: +0, or -0 when rounding down
    .ok (.ofWord (signBits (decide (rm = .rdn))) 0)
  else
    let lhsHasLargerMagnitude := decide (lhsSignificand > rhsSignificand)
    let resultSignificand :=
      if lhsHasLargerMagnitude then lhsSignificand - rhsSignificand
      else rhsSignificand - lhsSignificand
    let resultSign := if lhsHasLargerMagnitude then lhs.sign else rhsSign
    roundAndPack resultSign exponent resultSignificand rm

/-- `add_or_sub`. -/
def addOrSub (lhsRaw rhsRaw : BitVec 32) (subtract : Bool) (rm : RoundingMode) :
    Except Fault FpResult := do
  let lhs ← UnpackedFp32.ofRaw lhsRaw
  let rhs ← UnpackedFp32.ofRaw rhsRaw
  let rhsSign := rhs.sign ^^ subtract
  if lhs.fpClass.isNan || rhs.fpClass.isNan then return propagateNan lhs rhs
  if lhs.fpClass = .infinity ∨ rhs.fpClass = .infinity then
    if lhs.fpClass = .infinity ∧ rhs.fpClass = .infinity ∧ lhs.sign ≠ rhsSign then
      return .ofWord fp32CanonicalNaN fpFlagNv
    let resultSign := if lhs.fpClass = .infinity then lhs.sign else rhsSign
    return .ofWord (signBits resultSign ||| fp32Infinity) 0
  if lhs.fpClass = .zero ∧ rhs.fpClass = .zero then
    let resultSign := if lhs.sign = rhsSign then lhs.sign else decide (rm = .rdn)
    return .ofWord (signBits resultSign) 0
  if lhs.fpClass = .zero then
    return .ofWord ((rhsRaw &&& fp32MagnitudeMask) ||| signBits rhsSign) 0
  if rhs.fpClass = .zero then
    return .ofWord lhsRaw 0
  addFinite lhs rhs rhsSign rm

/-! ## §2. Multiplication and fused multiply-add -/

/-- `multiply`. -/
def multiply (lhsRaw rhsRaw : BitVec 32) (rm : RoundingMode) : Except Fault FpResult := do
  let lhs ← UnpackedFp32.ofRaw lhsRaw
  let rhs ← UnpackedFp32.ofRaw rhsRaw
  let sign := lhs.sign ^^ rhs.sign
  if lhs.fpClass.isNan || rhs.fpClass.isNan then return propagateNan lhs rhs
  let lhsZero := decide (lhs.fpClass = .zero)
  let rhsZero := decide (rhs.fpClass = .zero)
  let lhsInfinity := decide (lhs.fpClass = .infinity)
  let rhsInfinity := decide (rhs.fpClass = .infinity)
  if (lhsZero && rhsInfinity) || (lhsInfinity && rhsZero) then
    return .ofWord fp32CanonicalNaN fpFlagNv
  if lhsInfinity || rhsInfinity then
    return .ofWord (signBits sign ||| fp32Infinity) 0
  if lhsZero || rhsZero then
    return .ofWord (signBits sign) 0
  let product : BitVec 64 := lhs.significand.setWidth 64 * rhs.significand.setWidth 64
  let productAtLeastTwo := decide (product &&& (1#64 <<< 47) ≠ 0)
  let shift := if productAtLeastTwo then 21 else 20
  let exponent := lhs.exponent + rhs.exponent + (if productAtLeastTwo then 1 else 0)
  roundAndPack sign exponent (shiftRightJam product shift) rm

/-- The normalising loop of `compute_fma`. -/
def shiftUpToWideHidden : Nat → BitVec 64 → Int → Except Fault (BitVec 64 × Int)
  | 0, _, _ => .error .divergence
  | fuel + 1, significand, exponent =>
      if significand &&& (fp32WideHiddenBit ||| (1#64 <<< 63)) = 0 then
        shiftUpToWideHidden fuel (significand <<< 1) (exponent - 1)
      else .ok (significand, exponent)

/-- The alignment of `compute_fma`: common exponent, product and addend. -/
def alignFma (productExponent addendExponent : Int)
    (productSignificand addendSignificand : BitVec 64) : Int × BitVec 64 × BitVec 64 :=
  if productExponent > addendExponent then
    (productExponent, productSignificand,
      shiftRightJam addendSignificand (productExponent - addendExponent).toNat)
  else if addendExponent > productExponent then
    (addendExponent,
      shiftRightJam productSignificand (addendExponent - productExponent).toNat,
      addendSignificand)
  else (productExponent, productSignificand, addendSignificand)

/-- `compute_fma`. -/
def computeFma (lhs rhs addend : UnpackedFp32) (productSign addendSign : Bool) :
    Except Fault UnroundedFp32 := do
  let product : BitVec 64 := lhs.significand.setWidth 64 * rhs.significand.setWidth 64
  let productAtLeastTwo := decide (product &&& (1#64 <<< 47) ≠ 0)
  let productSignificand := product <<< (if productAtLeastTwo then 15 else 16)
  let productExponent := lhs.exponent + rhs.exponent + (if productAtLeastTwo then 1 else 0)
  let addendSignificand : BitVec 64 := addend.significand.setWidth 64 <<< 39
  -- a zero addend takes part in no alignment
  let addendExponent := if addendSignificand = 0 then productExponent else addend.exponent
  let (exponent, productSignificand, addendSignificand) :=
    alignFma productExponent addendExponent productSignificand addendSignificand
  let (significand, sign) :=
    if productSign = addendSign then (productSignificand + addendSignificand, productSign)
    else if productSignificand ≥ addendSignificand then
      (productSignificand - addendSignificand, productSign)
    else (addendSignificand - productSignificand, addendSign)
  -- exact cancellation; the caller chooses the sign of the zero
  if significand = 0 then return { sign := false, exponent := exponent, significand := 0 }
  let (significand, exponent) ← shiftUpToWideHidden 64 significand exponent
  return { sign := sign, exponent := exponent, significand := shiftRightJam significand 36 }

/-- `negate_product` and `negate_addend` of `Fpu::fma`. -/
def fmaNegations : FmaFpType → Bool × Bool
  | .mAdd => (false, false)
  | .mSub => (false, true)
  | .nmSub => (true, false)
  | .nmAdd => (true, true)

/-- `Fpu::fma`. -/
def Fpu.fma (op : FmaFpType) (lhsRaw rhsRaw addendRaw : BitVec 32) (rm : RoundingMode) :
    Except Fault FpResult := do
  let (negateProduct, negateAddend) := fmaNegations op
  let lhs ← UnpackedFp32.ofRaw lhsRaw
  let rhs ← UnpackedFp32.ofRaw rhsRaw
  let addend ← UnpackedFp32.ofRaw addendRaw
  let productSign := lhs.sign ^^ rhs.sign ^^ negateProduct
  let addendSign := addend.sign ^^ negateAddend
  let lhsZero := decide (lhs.fpClass = .zero)
  let rhsZero := decide (rhs.fpClass = .zero)
  let lhsInfinity := decide (lhs.fpClass = .infinity)
  let rhsInfinity := decide (rhs.fpClass = .infinity)
  let addendInfinity := decide (addend.fpClass = .infinity)
  let invalidProduct := (lhsZero && rhsInfinity) || (lhsInfinity && rhsZero)
  let anyNan := lhs.fpClass.isNan || rhs.fpClass.isNan || addend.fpClass.isNan
  let signalingNan := lhs.fpClass.isSignalingNan || rhs.fpClass.isSignalingNan ||
    addend.fpClass.isSignalingNan
  -- inf * 0 is invalid also beside a quiet NaN
  if anyNan || invalidProduct then
    return .ofWord fp32CanonicalNaN (if signalingNan || invalidProduct then fpFlagNv else 0)
  let productInfinity := lhsInfinity || rhsInfinity
  if productInfinity then
    if addendInfinity && (productSign != addendSign) then
      return .ofWord fp32CanonicalNaN fpFlagNv
    return .ofWord (signBits productSign ||| fp32Infinity) 0
  if addendInfinity then
    return .ofWord (signBits addendSign ||| fp32Infinity) 0
  let productZero := lhsZero || rhsZero
  let addendZero := decide (addend.fpClass = .zero)
  if productZero then
    if addendZero then
      let zeroSign := if productSign = addendSign then productSign else decide (rm = .rdn)
      return .ofWord (signBits zeroSign) 0
    return .ofWord ((addendRaw &&& fp32MagnitudeMask) ||| signBits addendSign) 0
  let result ← computeFma lhs rhs addend productSign addendSign
  let sign := if result.significand = 0 then decide (rm = .rdn) else result.sign
  roundAndPack sign result.exponent result.significand rm

/-! ## §3. Division -/

/-- `struct DivisionResult`. -/
structure DivisionResult where
  quotient : BitVec 64
  remainder : BitVec 64
  deriving DecidableEq, Repr

/-- The rounds `bit - 1, …, 0` of the loop of `divide_unsigned`. -/
def divideLoop (dividend divisor : BitVec 64) : Nat → DivisionResult → DivisionResult
  | 0, result => result
  | bit + 1, result =>
      let remainder := (result.remainder <<< 1) ||| ((dividend >>> bit) &&& 1#64)
      let result :=
        if remainder ≥ divisor then
          { quotient := result.quotient ||| (1#64 <<< bit), remainder := remainder - divisor }
        else { result with remainder := remainder }
      divideLoop dividend divisor bit result

/-- `divide_unsigned`. -/
def divideUnsigned (dividend divisor : BitVec 64) : DivisionResult :=
  divideLoop dividend divisor 64 { quotient := 0, remainder := 0 }

/-- The part of `divide` for two nonzero finite operands. -/
def divideFinite (lhs rhs : UnpackedFp32) (rm : RoundingMode) : Except Fault FpResult :=
  let numerator : BitVec 64 := lhs.significand.setWidth 64
  let divisor : BitVec 64 := rhs.significand.setWidth 64
  let exponent := lhs.exponent - rhs.exponent
  let (numerator, exponent) :=
    if numerator < divisor then (numerator <<< 1, exponent - 1) else (numerator, exponent)
  let division := divideUnsigned (numerator <<< 26) divisor
  let quotient :=
    if division.remainder ≠ 0 then division.quotient ||| 1 else division.quotient
  roundAndPack (lhs.sign ^^ rhs.sign) exponent quotient rm

/-- `divide`. -/
def divide (lhsRaw rhsRaw : BitVec 32) (rm : RoundingMode) : Except Fault FpResult := do
  let lhs ← UnpackedFp32.ofRaw lhsRaw
  let rhs ← UnpackedFp32.ofRaw rhsRaw
  let sign := lhs.sign ^^ rhs.sign
  let lhsZero := decide (lhs.fpClass = .zero)
  let rhsZero := decide (rhs.fpClass = .zero)
  let lhsInfinity := decide (lhs.fpClass = .infinity)
  let rhsInfinity := decide (rhs.fpClass = .infinity)
  if lhs.fpClass.isNan || rhs.fpClass.isNan then return propagateNan lhs rhs
  if (lhsZero && rhsZero) || (lhsInfinity && rhsInfinity) then
    return .ofWord fp32CanonicalNaN fpFlagNv
  -- the divide-by-zero test comes before the test for an infinite dividend
  if rhsZero then
    return .ofWord (signBits sign ||| fp32Infinity) fpFlagDz
  if lhsInfinity then
    return .ofWord (signBits sign ||| fp32Infinity) 0
  if lhsZero || rhsInfinity then
    return .ofWord (signBits sign) 0
  divideFinite lhs rhs rm

/-! ## §4. Square root -/

/-- `struct SquareRootResult`. -/
structure SquareRootResult where
  root : BitVec 64
  remainder : BitVec 64
  deriving DecidableEq, Repr

/-- `while (bit > value) { bit >>= 2; }` -/
def squareRootStart : Nat → BitVec 64 → BitVec 64 → Except Fault (BitVec 64)
  | 0, _, _ => .error .divergence
  | fuel + 1, value, bit =>
      if bit > value then squareRootStart fuel value (bit >>> 2) else .ok bit

/-- `while (bit != 0) { ... }` of `square_root_unsigned`. -/
def squareRootLoop : Nat → (value root bit : BitVec 64) → Except Fault SquareRootResult
  | 0, _, _, _ => .error .divergence
  | fuel + 1, value, root, bit =>
      if bit ≠ 0 then
        if value ≥ root + bit then
          squareRootLoop fuel (value - (root + bit)) ((root >>> 1) + bit) (bit >>> 2)
        else squareRootLoop fuel value (root >>> 1) (bit >>> 2)
      else .ok { root := root, remainder := value }

/-- `square_root_unsigned`. -/
def squareRootUnsigned (value : BitVec 64) : Except Fault SquareRootResult := do
  let bit ← squareRootStart 64 value (1#64 <<< 62)
  squareRootLoop 64 value 0 bit

/-- `square_root`. -/
def squareRoot (raw : BitVec 32) (rm : RoundingMode) : Except Fault FpResult := do
  let operand ← UnpackedFp32.ofRaw raw
  if operand.fpClass.isNan then
    return .ofWord fp32CanonicalNaN (if operand.fpClass.isSignalingNan then fpFlagNv else 0)
  -- the root of -0 is -0, so this comes before the sign
  if operand.fpClass = .zero then return .ofWord raw 0
  if operand.sign then return .ofWord fp32CanonicalNaN fpFlagNv
  if operand.fpClass = .infinity then return .ofWord fp32Infinity 0
  let significand : BitVec 64 := operand.significand.setWidth 64
  let (significand, exponent) :=
    if operand.exponent % 2 ≠ 0 then (significand <<< 1, operand.exponent - 1)
    else (significand, operand.exponent)
  let result ← squareRootUnsigned (significand <<< 29)
  let roundedSignificand :=
    if result.remainder ≠ 0 then result.root ||| 1 else result.root
  roundAndPack false (exponent.tdiv 2) roundedSignificand rm

end ZincSim
