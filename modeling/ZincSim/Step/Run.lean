/-
  ZincSim.Step.Run — runs of `Executor::step` on decoded words.

  The words come from anywhere, not only from the memory: a run fixes no
  program.  A step that throws or aborts ends the simulation and is no step of a
  run.
-/
import ZincSim.Machine.Step
import ZincSim.Lib.Run

namespace ZincSim

open TransitionSystem

/-! ## §1. The step relation -/

/-- `insn` is what the decoder makes of some instruction word. -/
def Decoded (insn : DecodedInsn) : Prop := ∃ word, decode word = .ok insn

/-- One call of `Executor::step` on a decoded word, which returned. -/
def StepOn (m : Machine) (insn : DecodedInsn) (m' : Machine) : Prop :=
  Decoded insn ∧ ∃ r, step insn m = .ok r m'

/-- The states in which `main` has just built `Core(init_pc)`, whatever the
unassigned CSR entries hold. -/
def Boots (m : Machine) : Prop :=
  ∃ unassigned initPc, m.core = Core.init unassigned initPc

/-- The same with every unassigned CSR entry zero. -/
def BootsZeroed (m : Machine) : Prop := ∃ initPc, m.core = Core.init (fun _ => 0) initPc

theorem BootsZeroed.boots {m : Machine} (h : BootsZeroed m) : Boots m := by
  obtain ⟨initPc, h⟩ := h
  exact ⟨_, initPc, h⟩

/-- The machine `main` starts with when the image is `words`, loaded at the
base of the memory. -/
def Machine.boot (words : List (BitVec 32)) : Machine where
  core := Core.init (fun _ => 0) 0x80000000
  mem :=
    { base := 0x80000000
      data := words.flatMap fun word => toLE 4 word.toNat }

theorem bootsZeroed_boot (words : List (BitVec 32)) : BootsZeroed (Machine.boot words) :=
  ⟨0x80000000, rfl⟩

/-! ## §2. Executable runs -/

/-- Step through `words`, stopping with `none` at the first failure. -/
def runWords : List (BitVec 32) → Machine → Option Machine
  | [], m => some m
  | word :: words, m =>
      match decode word with
      | .error _ => none
      | .ok insn =>
          match step insn m with
          | .error _ _ => none
          | .ok _ m' => runWords words m'

theorem runWords_cons {word : BitVec 32} {words : List (BitVec 32)} {m m' : Machine}
    (h : runWords (word :: words) m = some m') :
    ∃ insn mid, decode word = .ok insn ∧ StepOn m insn mid ∧ runWords words mid = some m' := by
  unfold runWords at h
  split at h
  · cases h
  next insn hinsn =>
    split at h
    · cases h
    next r mid hstep => exact ⟨insn, mid, hinsn, ⟨⟨word, hinsn⟩, r, hstep⟩, h⟩

/-- **An executable run is a run.** -/
theorem reachable_runWords {init : Machine → Prop} {words : List (BitVec 32)} {m m' : Machine}
    (hm : Reachable init StepOn m) (h : runWords words m = some m') :
    Reachable init StepOn m' := by
  induction words generalizing m with
  | nil =>
    cases h
    exact hm
  | cons word words ih =>
    obtain ⟨insn, mid, -, hstep, hrest⟩ := runWords_cons h
    exact ih (hm.snoc hstep) hrest

/-- The single step of a one-word run. -/
theorem stepOn_of_runWords {word : BitVec 32} {insn : DecodedInsn} {m m' : Machine}
    (hinsn : decode word = .ok insn) (h : runWords [word] m = some m') : StepOn m insn m' := by
  obtain ⟨insn', mid, hinsn', hstep, hrest⟩ := runWords_cons h
  cases hrest
  rw [hinsn] at hinsn'
  cases hinsn'
  exact hstep

end ZincSim
