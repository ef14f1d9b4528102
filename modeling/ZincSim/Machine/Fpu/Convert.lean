/-
  ZincSim.Machine.Fpu.Convert — comparisons, minimum / maximum and integer
  conversions of `fpu.cpp`, and the dispatchers `Fpu::binary`, `Fpu::unary` and
  `Fpu::convert`.
-/
import ZincSim.Machine.Fpu.Arith

namespace ZincSim

/-! ## §1. Comparison -/

/-- `less_than`. -/
def lessThan (lhs rhs : BitVec 32) : Bool :=
  let lhsSign := decide (lhs &&& fp32SignMask ≠ 0)
  let rhsSign := decide (rhs &&& fp32SignMask ≠ 0)
  if lhsSign ≠ rhsSign then lhsSign
  else
    let lhsMagnitude := lhs &&& fp32MagnitudeMask
    let rhsMagnitude := rhs &&& fp32MagnitudeMask
    if lhsSign then decide (lhsMagnitude > rhsMagnitude)
    else decide (lhsMagnitude < rhsMagnitude)

/-- The `switch (op)` of `compare`. -/
def compareSwitch (op : OpFpType) (bothZero equal less : Bool) : Except Fault Bool :=
  match op with
  | .eq => .ok equal
  | .lt => .ok (!bothZero && less)
  | .le => .ok (equal || less)
  | _ => .error (.logicError "operation is not an FP32 comparison")

/-- `compare`. -/
def compareFp (op : OpFpType) (lhsRaw rhsRaw : BitVec 32) : Except Fault FpResult := do
  let lhs ← UnpackedFp32.ofRaw lhsRaw
  let rhs ← UnpackedFp32.ofRaw rhsRaw
  if lhs.fpClass.isNan || rhs.fpClass.isNan then
    -- feq is quiet, flt and fle signal on any NaN
    let invalid := decide (op ≠ .eq) || lhs.fpClass.isSignalingNan || rhs.fpClass.isSignalingNan
    return .ofWord 0 (if invalid then fpFlagNv else 0)
  let bothZero := decide (lhs.fpClass = .zero) && decide (rhs.fpClass = .zero)
  let equal := bothZero || decide (lhsRaw = rhsRaw)
  let result ← compareSwitch op bothZero equal (lessThan lhsRaw rhsRaw)
  return .ofWord (if result then 1 else 0) 0

/-- `min_or_max`. -/
def minOrMax (lhsRaw rhsRaw : BitVec 32) (maximum : Bool) : Except Fault FpResult := do
  let lhs ← UnpackedFp32.ofRaw lhsRaw
  let rhs ← UnpackedFp32.ofRaw rhsRaw
  let lhsNan := lhs.fpClass.isNan
  let rhsNan := rhs.fpClass.isNan
  let flags : BitVec 32 :=
    if lhs.fpClass.isSignalingNan || rhs.fpClass.isSignalingNan then fpFlagNv else 0
  if lhsNan && rhsNan then return .ofWord fp32CanonicalNaN flags
  if lhsNan then return .ofWord rhsRaw flags
  if rhsNan then return .ofWord lhsRaw flags
  if lhs.fpClass = .zero ∧ rhs.fpClass = .zero then
    -- zeros compare equal: the sign bits decide
    return .ofWord (if maximum then lhsRaw &&& rhsRaw else lhsRaw ||| rhsRaw) flags
  let lhsLess := lessThan lhsRaw rhsRaw
  let value :=
    if maximum then (if lhsLess then rhsRaw else lhsRaw)
    else (if lhsLess then lhsRaw else rhsRaw)
  return .ofWord value flags

/-! ## §2. Integer to float -/

/-- `for (value = magnitude; value > 1; value >>= 1) { ++exponent; }` -/
def leadingExponent : Nat → BitVec 64 → Int → Except Fault Int
  | 0, _, _ => .error .divergence
  | fuel + 1, value, exponent =>
      if value > 1 then leadingExponent fuel (value >>> 1) (exponent + 1) else .ok exponent

/-- Sign and magnitude of the operand of `integer_to_float`. -/
def integerOperand (op : OpFpType) (operand : BitVec 64) : Except Fault (Bool × BitVec 64) :=
  match op with
  | .cvtSToW =>
      let word : BitVec 64 := (operand.setWidth 32).setWidth 64
      let sign := decide (word &&& (1#64 <<< 31) ≠ 0)
      .ok (sign, if sign then (~~~word + 1) &&& 0xffffffff else word)
  | .cvtSToWu => .ok (false, (operand.setWidth 32).setWidth 64)
  | .cvtSToL =>
      let sign := decide (operand &&& (1#64 <<< 63) ≠ 0)
      .ok (sign, if sign then ~~~operand + 1 else operand)
  | .cvtSToLu => .ok (false, operand)
  | _ => .error (.logicError "operation is not an integer-to-FP32 conversion")

/-- `integer_to_float`. -/
def integerToFloat (op : OpFpType) (operand : BitVec 64) (rm : RoundingMode) :
    Except Fault FpResult := do
  let (sign, magnitude) ← integerOperand op operand
  if magnitude = 0 then return .ofWord 0 0
  let exponent ← leadingExponent 64 magnitude 0
  let significand :=
    if exponent > 26 then shiftRightJam magnitude (exponent - 26).toNat
    else magnitude <<< (26 - exponent).toNat
  roundAndPack sign exponent significand rm

/-! ## §3. Float to integer -/

/-- `encode_integer_result`. -/
def encodeIntegerResult (sign : Bool) (magnitude : BitVec 64) (width : Nat) : BitVec 64 :=
  let value := if sign then 0 - magnitude else magnitude
  if width = 64 then value
  else
    let word : BitVec 32 := value.setWidth 32
    if word &&& (1#32 <<< 31) ≠ 0 then 0xffffffff00000000 ||| word.setWidth 64
    else word.setWidth 64

/-- `signed_result` and `width` of `float_to_integer`. -/
def integerTarget : OpFpType → Except Fault (Bool × Nat)
  | .cvtWFromS => .ok (true, 32)
  | .cvtWuFromS => .ok (false, 32)
  | .cvtLFromS => .ok (true, 64)
  | .cvtLuFromS => .ok (false, 64)
  | _ => .error (.logicError "operation is not an FP32-to-integer conversion")

def signedMax (width : Nat) : BitVec 64 :=
  if width = 32 then 0x7fffffff else 0x7fffffffffffffff

def signedMinMagnitude (width : Nat) : BitVec 64 :=
  if width = 32 then 0x80000000 else 0x8000000000000000

def unsignedMax (width : Nat) : BitVec 64 :=
  if width = 32 then 0xffffffff else 0xffffffffffffffff

/-- The lambda `invalid_result` of `float_to_integer`. -/
def invalidResult (nan sign signedResult : Bool) (width : Nat) : FpResult :=
  if nan || !sign then
    { value := encodeIntegerResult false
        (if signedResult then signedMax width else unsignedMax width) width
      flags := fpFlagNv }
  else
    { value :=
        if signedResult then encodeIntegerResult true (signedMinMagnitude width) width else 0
      flags := fpFlagNv }

/-- The `switch (rm)` of `float_to_integer`.  It has no default: a rounding mode
without a case leaves `round_up` false. -/
def integerRoundUp (rm : RoundingMode) (sign inexact : Bool) (shift : Nat)
    (magnitude remainder halfway : BitVec 64) : Except Fault Bool :=
  match rm with
  | .rne =>
      .ok (decide (shift < 64) &&
        (decide (remainder > halfway) ||
          (decide (remainder = halfway) && decide (magnitude &&& 1 ≠ 0))))
  | .rtz => .ok false
  | .rdn => .ok (sign && inexact)
  | .rup => .ok (!sign && inexact)
  | .rmm => .ok (decide (shift < 64) && decide (remainder ≥ halfway))
  | .dynamic => .error (.logicError "dynamic rounding mode was not resolved")
  | .other _ => .ok false

/-- Magnitude, `inexact` and `overflow` of `float_to_integer` before the range
check. -/
def integerMagnitude (operand : UnpackedFp32) (rm : RoundingMode) :
    Except Fault (BitVec 64 × Bool × Bool) :=
  let significand : BitVec 64 := operand.significand.setWidth 64
  if operand.exponent ≥ 23 then
    let shift := (operand.exponent - 23).toNat
    if shift ≥ 64 ∨ significand > BitVec.allOnes 64 >>> shift then .ok (0, false, true)
    else .ok (significand <<< shift, false, false)
  else do
    let shift := (23 - operand.exponent).toNat
    let magnitude := if shift ≥ 64 then 0 else significand >>> shift
    let remainder := if shift ≥ 64 then significand else significand &&& ((1#64 <<< shift) - 1)
    -- with `shift ≥ 64` the operand is below one half, and `halfway` decides nothing
    let halfway : BitVec 64 := if shift ≥ 64 then 0 else 1#64 <<< (shift - 1)
    let inexact := decide (remainder ≠ 0)
    let roundUp ← integerRoundUp rm operand.sign inexact shift magnitude remainder halfway
    if roundUp then
      if magnitude = BitVec.allOnes 64 then return (magnitude, inexact, true)
      return (magnitude + 1, inexact, false)
    return (magnitude, inexact, false)

/-- `float_to_integer`. -/
def floatToInteger (op : OpFpType) (operandRaw : BitVec 32) (rm : RoundingMode) :
    Except Fault FpResult := do
  let (signedResult, width) ← integerTarget op
  let operand ← UnpackedFp32.ofRaw operandRaw
  let nan := operand.fpClass.isNan
  let sign := operand.sign
  -- NaN and infinity are out of the range of either width
  if nan || decide (operand.fpClass = .infinity) then
    return invalidResult nan sign signedResult width
  if operand.fpClass = .zero then return { value := 0, flags := 0 }
  let (magnitude, inexact, overflow) ← integerMagnitude operand rm
  let overflow :=
    if overflow then true
    else if signedResult then
      decide (magnitude > (if sign then signedMinMagnitude width else signedMax width))
    else (sign && decide (magnitude ≠ 0)) || decide (magnitude > unsignedMax width)
  if overflow then return invalidResult nan sign signedResult width
  return { value := encodeIntegerResult sign magnitude width
           flags := if inexact then fpFlagNx else 0 }

/-! ## §4. The dispatchers of `class Fpu` -/

/-- `Fpu::binary`. -/
def Fpu.binary (op : OpFpType) (lhs rhs : BitVec 32) (rm : RoundingMode) :
    Except Fault FpResult :=
  match op with
  | .add => addOrSub lhs rhs false rm
  | .sub => addOrSub lhs rhs true rm
  | .mul => multiply lhs rhs rm
  | .div => divide lhs rhs rm
  | .min => minOrMax lhs rhs false
  | .max => minOrMax lhs rhs true
  | .sgnj =>
      .ok (.ofWord ((lhs &&& fp32MagnitudeMask) ||| (rhs &&& fp32SignMask)) 0)
  | .sgnjn =>
      .ok (.ofWord ((lhs &&& fp32MagnitudeMask) ||| (~~~rhs &&& fp32SignMask)) 0)
  | .sgnjx =>
      .ok (.ofWord ((lhs &&& fp32MagnitudeMask) ||| ((lhs ^^^ rhs) &&& fp32SignMask)) 0)
  | .eq | .lt | .le => compareFp op lhs rhs
  | _ => .error (.logicError "operation is not a binary FP32 operation")

/-- `Fpu::unary`. -/
def Fpu.unary (op : OpFpType) (operand : BitVec 32) (rm : RoundingMode) :
    Except Fault FpResult :=
  match op with
  | .sqrt => squareRoot operand rm
  | _ => .error (.logicError "operation is not a unary FP32 operation")

/-- `Fpu::convert`. -/
def Fpu.convert (op : OpFpType) (operand : BitVec 64) (rm : RoundingMode) :
    Except Fault FpResult :=
  match op with
  | .cvtWFromS | .cvtWuFromS | .cvtLFromS | .cvtLuFromS =>
      floatToInteger op (operand.setWidth 32) rm
  | .cvtSToW | .cvtSToWu | .cvtSToL | .cvtSToLu => integerToFloat op operand rm
  | _ => .error (.logicError "operation is not an FP32 conversion")

end ZincSim
