/-
  ZincSim.Machine.CheckedMulDiv — `class MulDivUnit` with its signed divisions checked.

  The products wrap by design and the unsigned divisions are total on their branches; what
  C++ leaves undefined are `/` and `%` of signed operands.
-/
import ZincSim.Lib.Checked
import ZincSim.Machine.MulDiv

namespace ZincSim.CheckedMulDivUnit

open Checked

/-- `MulDivUnit::execute`. -/
def execute (op : OpType) (lhs rhs : BitVec 64) : Except (Violation Fault) (BitVec 64) :=
  match op with
  | .div =>
      if rhs = 0 then .ok (BitVec.allOnes 64)
      else if lhs = BitVec.intMin 64 ∧ rhs = -1 then .ok lhs
      else signedDivision BitVec.sdiv lhs rhs
  | .rem =>
      if rhs = 0 then .ok lhs
      else if lhs = BitVec.intMin 64 ∧ rhs = -1 then .ok 0
      else signedDivision BitVec.srem lhs rhs
  | _ => lift (MulDivUnit.execute op lhs rhs)

/-- `MulDivUnit::execute_word`. -/
def executeWord (op : OpType) (lhs rhs : BitVec 64) : Except (Violation Fault) (BitVec 64) :=
  let lhsWord : BitVec 32 := lhs.setWidth 32
  let rhsWord : BitVec 32 := rhs.setWidth 32
  match op with
  | .div =>
      if rhsWord = 0 then .ok (BitVec.allOnes 64)
      else if lhsWord = BitVec.intMin 32 ∧ rhsWord = -1 then
        .ok (MulDivUnit.signExtendWord lhsWord)
      else do
        let quotient ← signedDivision BitVec.sdiv lhsWord rhsWord
        return MulDivUnit.signExtendWord quotient
  | .rem =>
      if rhsWord = 0 then .ok (MulDivUnit.signExtendWord lhsWord)
      else if lhsWord = BitVec.intMin 32 ∧ rhsWord = -1 then .ok 0
      else do
        let remainder ← signedDivision BitVec.srem lhsWord rhsWord
        return MulDivUnit.signExtendWord remainder
  | _ => lift (MulDivUnit.executeWord op lhs rhs)

end ZincSim.CheckedMulDivUnit
