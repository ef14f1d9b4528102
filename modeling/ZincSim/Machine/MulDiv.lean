/-
  ZincSim.Machine.MulDiv — `class MulDivUnit` of `mul_div.cpp`.

  C++ signed division truncates toward zero, as `BitVec.sdiv` and `BitVec.srem`
  do; the two inputs on which it is undefined are guarded in the source and the
  guards are kept.
-/
import ZincSim.Machine.Insn

namespace ZincSim.MulDivUnit

/-- `static_cast<std::uint32_t>` of a 64-bit word, widened again. -/
def lowWord (value : BitVec 64) : BitVec 64 := (value.setWidth 32).setWidth 64

/-- `multiply_high_unsigned`: the high word of the product from four 32-bit
partial products. -/
def multiplyHighUnsigned (lhs rhs : BitVec 64) : BitVec 64 :=
  let lhsLow := lowWord lhs
  let lhsHigh := lhs >>> 32
  let rhsLow := lowWord rhs
  let rhsHigh := rhs >>> 32
  let lowLow := lhsLow * rhsLow
  let lowHigh := lhsLow * rhsHigh
  let highLow := lhsHigh * rhsLow
  let highHigh := lhsHigh * rhsHigh
  let carry := (lowLow >>> 32) + lowWord lowHigh + lowWord highLow
  highHigh + (lowHigh >>> 32) + (highLow >>> 32) + (carry >>> 32)

/-- `sign_extend_word`. -/
def signExtendWord (value : BitVec 32) : BitVec 64 :=
  if value &&& (1#32 <<< 31) ≠ 0 then 0xffffffff00000000 ||| value.setWidth 64
  else value.setWidth 64

/-- `MulDivUnit::execute`. -/
def execute (op : OpType) (lhs rhs : BitVec 64) : Except Fault (BitVec 64) :=
  match op with
  | .mul => .ok (lhs * rhs)
  | .mulh =>
      let high := multiplyHighUnsigned lhs rhs
      let high := if lhs &&& (1#64 <<< 63) ≠ 0 then high - rhs else high
      let high := if rhs &&& (1#64 <<< 63) ≠ 0 then high - lhs else high
      .ok high
  | .mulhsu =>
      let high := multiplyHighUnsigned lhs rhs
      .ok (if lhs &&& (1#64 <<< 63) ≠ 0 then high - rhs else high)
  | .mulhu => .ok (multiplyHighUnsigned lhs rhs)
  | .div =>
      if rhs = 0 then .ok (BitVec.allOnes 64)
      else if lhs = BitVec.intMin 64 ∧ rhs = -1 then .ok lhs
      else .ok (lhs.sdiv rhs)
  | .divu => .ok (if rhs = 0 then BitVec.allOnes 64 else lhs / rhs)
  | .rem =>
      if rhs = 0 then .ok lhs
      else if lhs = BitVec.intMin 64 ∧ rhs = -1 then .ok 0
      else .ok (lhs.srem rhs)
  | .remu => .ok (if rhs = 0 then lhs else lhs % rhs)
  | _ => .error (.logicError "operation is not an RV64M instruction")

/-- `MulDivUnit::execute_word`. -/
def executeWord (op : OpType) (lhs rhs : BitVec 64) : Except Fault (BitVec 64) :=
  let lhsWord : BitVec 32 := lhs.setWidth 32
  let rhsWord : BitVec 32 := rhs.setWidth 32
  match op with
  | .mul => .ok (signExtendWord (lhsWord * rhsWord))
  | .div =>
      if rhsWord = 0 then .ok (BitVec.allOnes 64)
      else if lhsWord = BitVec.intMin 32 ∧ rhsWord = -1 then .ok (signExtendWord lhsWord)
      else .ok (signExtendWord (lhsWord.sdiv rhsWord))
  | .divu =>
      .ok (signExtendWord (if rhsWord = 0 then BitVec.allOnes 32 else lhsWord / rhsWord))
  | .rem =>
      if rhsWord = 0 then .ok (signExtendWord lhsWord)
      else if lhsWord = BitVec.intMin 32 ∧ rhsWord = -1 then .ok 0
      else .ok (signExtendWord (lhsWord.srem rhsWord))
  | .remu => .ok (signExtendWord (if rhsWord = 0 then lhsWord else lhsWord % rhsWord))
  | _ => .error (.logicError "operation is not an RV64M word instruction")

end ZincSim.MulDivUnit
