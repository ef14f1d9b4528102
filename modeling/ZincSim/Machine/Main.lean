/-
  ZincSim.Machine.Main — `main` of `main.cpp`.

  `main` prints a line for every commit before it looks at `tohost`, so the lines stay
  printed when the look fails.  The process is the machine and the lines on `std::cout`.
  The `while (true)` runs for as many iterations as it is given; with the last of them the
  process is still running.
-/
import ZincSim.Machine.ElfLoader
import ZincSim.Machine.LogLine

namespace ZincSim

/-! ## §1. The loop -/

/-- What the loop works on. -/
structure Process where
  machine : Machine
  lines : List String

/-- A procedure on the machine. -/
def onMachine {α : Type} (proc : Proc Machine α) : Proc Process α :=
  fun p => match proc p.machine with
    | .ok a m => .ok a { p with machine := m }
    | .error fault m => .error fault { p with machine := m }

/-- `std::cout << line << std::endl`. -/
def printLine (line : String) : Proc Process Unit :=
  modify fun p => { p with lines := p.lines ++ [line] }

/-- One iteration; the result says whether it ends in `break`. -/
def iteration (tohost : BitVec 64) : Proc Process Bool := do
  let stepCommit ← onMachine fetchDecodeStep
  if let some commit := stepCommit then
    printLine commit.toString
  let value ← Proc.ofExcept ((← get).machine.mem.get64 tohost)
  return value != 0

/-- The loop; the result says whether it was left by `break` within `n` iterations. -/
def mainLoop (tohost : BitVec 64) : Nat → Proc Process Bool
  | 0 => return false
  | n + 1 => do
      if ← iteration tohost then return true
      mainLoop tohost n

/-! ## §2. `main` -/

/-- How far the process is. -/
inductive Status where
  /-- `main` returned an exit code. -/
  | returned (code : Nat)
  /-- Nothing catches what a call throws. -/
  | failed (fault : Fault)
  | running
  deriving DecidableEq, Repr

/-- What is seen of the process from outside. -/
structure Execution where
  status : Status
  lines : List String
  deriving DecidableEq, Repr

/-- The process after the loop, or in it. -/
def Execution.ofLoop : EStateM.Result Fault Process Bool → Execution
  | .ok true p => { status := .returned 0, lines := p.lines }
  | .ok false p => { status := .running, lines := p.lines }
  | .error fault p => { status := .failed fault, lines := p.lines }

/-- `main`, for `n` iterations of its loop.  `tohost` is what `ElfImage image;` leaves in
the member, `csrs` what `Core core` leaves in the array. -/
def main (argc : Nat) (tohost : BitVec 64) (csrs : BitVec 12 → BitVec 64)
    (reader : Option ElfReader) (n : Nat) : Execution :=
  -- the usage text goes to `std::cerr`
  if argc ≠ 2 then { status := .returned 1, lines := [] }
  else
    match ElfLoader.load tohost reader with
    | .error fault => { status := .failed fault, lines := [] }
    | .ok image =>
        match Machine.start csrs image with
        | .error fault => { status := .failed fault, lines := [] }
        | .ok machine =>
            .ofLoop (mainLoop image.tohost n { machine := machine, lines := [] })

end ZincSim
