/-
  ZincSim.Machine.Fault — the ways a call into the simulator ends without
  returning a value.

  The sources end a call early in four ways: they throw `std::runtime_error` or
  `std::logic_error` with a formatted text, an `assert` of `ram.cpp` fails and
  the process aborts, an operation is undefined (a `std::vector` indexed past its
  end, a shift by the width, a signed sum that overflows), or a `while` loop of
  `fpu.cpp` never leaves.  `Fault` keeps them apart, so that "throws", "aborts"
  and "does not end" stay different outcomes.
-/

namespace ZincSim

/-! ## §1. The fields of `std::format` -/

/-- Zero-padded digits of `n`, as `std::format` prints an unsigned integer. -/
def fmtPadded (base width n : Nat) : String :=
  String.ofList (List.leftpad width '0' (Nat.toDigits base n))

/-- `{:0<width>x}`. -/
def fmtHex (width n : Nat) : String := fmtPadded 16 width n

/-- `{:0<width>b}`. -/
def fmtBin (width n : Nat) : String := fmtPadded 2 width n

/-- `{}`. -/
def fmtDec (n : Nat) : String := fmtPadded 10 0 n

/-! ## §2. Faults -/

/-- Why a call did not return. -/
inductive Fault where
  /-- `throw std::runtime_error(what)`. -/
  | runtimeError (what : String)
  /-- `throw std::logic_error(what)`. -/
  | logicError (what : String)
  /-- The `assert(!(addr % size))` of `ram.cpp` failed and the process aborts. -/
  | assertion (addr : BitVec 64) (size : Nat)
  /-- An operation was undefined: an index, a shift amount or a signed sum out of range. -/
  | undefined
  /-- A loop that never leaves. -/
  | divergence
  deriving DecidableEq, Repr

/-- The C++ exceptions among the faults. -/
def Fault.isThrow : Fault → Bool
  | .runtimeError _ | .logicError _ => true
  | _ => false

/-- The failed alignment assertions among the faults. -/
def Fault.isAssertion : Fault → Bool
  | .assertion _ _ => true
  | _ => false

end ZincSim
