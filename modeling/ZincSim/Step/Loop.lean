/-
  ZincSim.Step.Loop — the loop of `main` as a run.

  A run of the loop carries what each iteration committed, so its log is read off the
  trace.  `mainLoop` is then the run up to the first iteration that finds something at
  `tohost`, and its lines are those of the log (`mainLoop_run`).
-/
import ZincSim.Machine.Main
import ZincSim.Step.Fetch

namespace ZincSim

open TransitionSystem

/-! ## §1. The run -/

/-- One iteration that fetched, decoded and stepped; `r` is what it committed. -/
def LoopStep (m : Machine) (r : Option Commit) (m' : Machine) : Prop :=
  fetchDecodeStep m = .ok r m'

/-- The commits of a run, in order. -/
def logOf (trace : List (Machine × Option Commit)) : List Commit :=
  trace.flatMap fun p => p.2.toList

/-- The lines that the loop prints on the way. -/
def linesOf (trace : List (Machine × Option Commit)) : List String :=
  (logOf trace).map Commit.toString

/-- An iteration executes the instruction it decoded. -/
theorem LoopStep.step {m m' : Machine} {r : Option Commit} (h : LoopStep m r m') :
    ∃ word insn, m.mem.get32 m.core.pc = .ok word ∧ decode word = .ok insn ∧
      insn ≠ .invalid ∧ ZincSim.step insn m = .ok r m' := by
  rw [LoopStep] at h
  cases hword : m.mem.get32 m.core.pc with
  | error fault =>
    rw [fetchDecodeStep_of_fault hword] at h
    cases h
  | ok word =>
    rw [fetchDecodeStep_of_word hword] at h
    cases hinsn : decode word with
    | error fault =>
      rw [hinsn] at h
      cases h
    | ok insn =>
      rw [hinsn] at h
      dsimp only at h
      split at h
      · cases h
      next hvalid => exact ⟨word, insn, rfl, hinsn, hvalid, h⟩

/-- The word is fetched, decoded and executed. -/
theorem loopStep_of_word {word : BitVec 32} {insn : DecodedInsn} {m m' : Machine}
    {r : Option Commit} (hword : m.mem.get32 m.core.pc = .ok word)
    (hdecode : decode word = .ok insn) (hvalid : insn ≠ .invalid)
    (hstep : step insn m = .ok r m') : LoopStep m r m' := by
  rw [LoopStep, fetchDecodeStep_of_word hword, hdecode]
  exact (if_neg hvalid).trans hstep

/-- `n` iterations, with their trace; `none` at the first failure. -/
def loopTrace : Nat → Machine → Option (List (Machine × Option Commit) × Machine)
  | 0, m => some ([], m)
  | n + 1, m =>
      match fetchDecodeStep m with
      | .error _ _ => none
      | .ok r m' => (loopTrace n m').map fun p => ((m, r) :: p.1, p.2)

/-- **An executable run is a run.** -/
theorem run_of_loopTrace {n : Nat} {m : Machine} {p : List (Machine × Option Commit) × Machine}
    (h : loopTrace n m = some p) : Run LoopStep m p.1 p.2 := by
  induction n generalizing m p with
  | zero =>
    cases h
    exact .nil m
  | succ n ih =>
    unfold loopTrace at h
    split at h
    · cases h
    next r mid hstep =>
      obtain ⟨q, hq, rfl⟩ := Option.map_eq_some_iff.mp h
      exact .cons hstep (ih hq)

/-! ## §2. The loop of `main` -/

/-- The process after an iteration that found no fault: its line is printed. -/
def Process.after (p : Process) (r : Option Commit) (m : Machine) : Process where
  machine := m
  lines := p.lines ++ (r.map Commit.toString).toList

/-- **One iteration**: step, print, look at `tohost`. -/
theorem iteration_eq (tohost : BitVec 64) (p : Process) :
    iteration tohost p =
      match fetchDecodeStep p.machine with
      | .error fault m => .error fault { p with machine := m }
      | .ok r m =>
        match m.mem.get64 tohost with
        | .error fault => .error fault (p.after r m)
        | .ok value => .ok (value != 0) (p.after r m) := by
  simp only [iteration, onMachine, bind, EStateM.bind]
  cases fetchDecodeStep p.machine with
  | error fault m => rfl
  | ok r m =>
    cases r with
    | none =>
      -- nothing is printed, so the lines are the old ones
      have hafter : p.after none m = { p with machine := m } := by simp [Process.after]
      dsimp only [get, getThe, MonadStateOf.get, EStateM.get, EStateM.bind]
      rw [hafter]
      cases m.mem.get64 tohost <;> rfl
    | some commit =>
      dsimp only [printLine, modify, modifyGet, MonadStateOf.modifyGet, EStateM.modifyGet, get,
        getThe, MonadStateOf.get, EStateM.get, EStateM.bind]
      cases m.mem.get64 tohost <;> rfl

theorem mainLoop_succ (tohost : BitVec 64) (n : Nat) (p : Process) :
    mainLoop tohost (n + 1) p =
      match iteration tohost p with
      | .error fault p => .error fault p
      | .ok true p => .ok true p
      | .ok false p => mainLoop tohost n p := by
  simp only [mainLoop, bind, EStateM.bind]
  cases iteration tohost p with
  | error fault p => rfl
  | ok stop p => cases stop <;> rfl

/-- An iteration that finds something at `tohost` is the last. -/
theorem mainLoop_break {tohost value : BitVec 64} {p : Process} {r : Option Commit} {m : Machine}
    (n : Nat) (hstep : LoopStep p.machine r m) (hlook : m.mem.get64 tohost = .ok value)
    (hvalue : value ≠ 0) : mainLoop tohost (n + 1) p = .ok true (p.after r m) := by
  have hit : fetchDecodeStep p.machine = .ok r m := hstep
  rw [mainLoop_succ, iteration_eq]
  simp only [hit, hlook, bne_iff_ne.mpr hvalue]

/-- The loop, in two parts. -/
theorem mainLoop_add (tohost : BitVec 64) (n k : Nat) (p : Process) :
    mainLoop tohost (n + k) p =
      match mainLoop tohost n p with
      | .ok false p' => mainLoop tohost k p'
      | result => result := by
  induction n generalizing p with
  | zero =>
    rw [Nat.zero_add]
    rfl
  | succ n ih =>
    rw [show n + 1 + k = n + k + 1 by omega, mainLoop_succ, mainLoop_succ]
    cases iteration tohost p with
    | error fault p' => rfl
    | ok stop p' =>
      cases stop with
      | true => rfl
      | false => exact ih p'

/-- An iteration after which the loop goes on. -/
def GoesOn (tohost : BitVec 64) (m : Machine) (r : Option Commit) (m' : Machine) : Prop :=
  LoopStep m r m' ∧ m'.mem.get64 tohost = .ok 0

theorem GoesOn.run {tohost : BitVec 64} {m m' : Machine}
    {trace : List (Machine × Option Commit)} (h : Run (GoesOn tohost) m trace m') :
    Run LoopStep m trace m' := by
  induction h with
  | nil s => exact .nil s
  | cons hstep _ ih => exact .cons hstep.1 ih

/-- A run goes on where every look finds zero. -/
theorem GoesOn.of_run {tohost : BitVec 64} {m m' : Machine}
    {trace : List (Machine × Option Commit)} (run : Run LoopStep m trace m')
    (h : ∀ s ∈ m' :: trace.map Prod.fst, s.mem.get64 tohost = .ok 0) :
    Run (GoesOn tohost) m trace m' := by
  induction run with
  | nil s => exact .nil s
  | @cons s t u r trace hstep run ih =>
    have hrest (v : Machine) (hv : v ∈ u :: trace.map Prod.fst) : v.mem.get64 tohost = .ok 0 := by
      refine h v ?_
      rw [List.map_cons, List.mem_cons, List.mem_cons]
      exact (List.mem_cons.mp hv).imp_right .inr
    refine .cons ⟨hstep, hrest t ?_⟩ (ih hrest)
    cases run with
    | nil => exact List.mem_cons_self
    | cons _ _ => exact List.mem_cons_of_mem _ List.mem_cons_self

/-- What `n` iterations from `p` come to: all of them went on, or those before the last did,
which ended in `break` or in a fault. -/
def Unrolls (tohost : BitVec 64) (n : Nat) (p : Process) :
    EStateM.Result Fault Process Bool → Prop
  | .ok false p' => ∃ trace, trace.length = n ∧
      Run (GoesOn tohost) p.machine trace p'.machine ∧ p'.lines = p.lines ++ linesOf trace
  | .ok true p' => ∃ trace m r value, trace.length < n ∧
      Run (GoesOn tohost) p.machine trace m ∧ LoopStep m r p'.machine ∧
      p'.machine.mem.get64 tohost = .ok value ∧ value ≠ 0 ∧
      p'.lines = p.lines ++ linesOf (trace ++ [(m, r)])
  | .error fault p' => ∃ trace m, trace.length < n ∧ Run (GoesOn tohost) p.machine trace m ∧
      ((fetchDecodeStep m = .error fault p'.machine ∧ p'.lines = p.lines ++ linesOf trace) ∨
        ∃ r, LoopStep m r p'.machine ∧ p'.machine.mem.get64 tohost = .error fault ∧
          p'.lines = p.lines ++ linesOf (trace ++ [(m, r)]))

/-- A run that goes on is what the loop does. -/
theorem mainLoop_of_run {tohost : BitVec 64} {m m' : Machine}
    {trace : List (Machine × Option Commit)} (run : Run (GoesOn tohost) m trace m') (p : Process)
    (hp : p.machine = m) :
    ∃ p', mainLoop tohost trace.length p = .ok false p' ∧ p'.machine = m' := by
  induction run generalizing p with
  | nil s => exact ⟨p, rfl, hp⟩
  | @cons m mid m' r trace hstep _ ih =>
    obtain ⟨p', hloop, hp'⟩ := ih (p.after r mid) rfl
    have hit : fetchDecodeStep p.machine = .ok r mid := hp ▸ hstep.1
    refine ⟨p', ?_, hp'⟩
    rw [List.length_cons, mainLoop_succ, iteration_eq]
    simp only [hit, hstep.2]
    exact hloop

theorem linesOf_cons (m : Machine) (r : Option Commit) (trace : List (Machine × Option Commit)) :
    linesOf ((m, r) :: trace) = (r.map Commit.toString).toList ++ linesOf trace := by
  cases r <;> rfl

/-- The lines of an iteration come before those of the rest. -/
theorem after_lines {p : Process} {r : Option Commit} {m : Machine} {lines : List String}
    {trace : List (Machine × Option Commit)} (h : lines = (p.after r m).lines ++ linesOf trace) :
    lines = p.lines ++ linesOf ((p.machine, r) :: trace) := by
  rw [h, linesOf_cons, ← List.append_assoc]
  rfl

/-- An iteration that goes on, in front of what the rest comes to. -/
theorem Unrolls.cons {tohost : BitVec 64} {n : Nat} {p : Process} {r : Option Commit}
    {m : Machine} {result : EStateM.Result Fault Process Bool}
    (hgo : GoesOn tohost p.machine r m) (h : Unrolls tohost n (p.after r m) result) :
    Unrolls tohost (n + 1) p result := by
  cases result with
  | error fault p' =>
    obtain ⟨trace, last, hlength, run, hend⟩ := h
    refine ⟨(p.machine, r) :: trace, last, Nat.succ_lt_succ hlength, .cons hgo run, ?_⟩
    rcases hend with ⟨hfault, hlines⟩ | ⟨r', hstep, hlook, hlines⟩
    · exact .inl ⟨hfault, after_lines hlines⟩
    · exact .inr ⟨r', hstep, hlook, after_lines hlines⟩
  | ok stop p' =>
    cases stop with
    | false =>
      obtain ⟨trace, hlength, run, hlines⟩ := h
      exact ⟨_ :: trace, congrArg (· + 1) hlength, .cons hgo run, after_lines hlines⟩
    | true =>
      obtain ⟨trace, last, r', value, hlength, run, hstep, hlook, hvalue, hlines⟩ := h
      exact ⟨_ :: trace, last, r', value, Nat.succ_lt_succ hlength, .cons hgo run, hstep, hlook,
        hvalue, after_lines hlines⟩

/-- **The loop of `main` is a run**, and its lines are those of the run's log. -/
theorem mainLoop_run (tohost : BitVec 64) (n : Nat) (p : Process) :
    Unrolls tohost n p (mainLoop tohost n p) := by
  induction n generalizing p with
  | zero => exact ⟨[], rfl, .nil _, (List.append_nil _).symm⟩
  | succ n ih =>
    rw [mainLoop_succ, iteration_eq]
    cases hit : fetchDecodeStep p.machine with
    | error fault m =>
      exact ⟨[], p.machine, Nat.succ_pos n, .nil _, .inl ⟨hit, (List.append_nil _).symm⟩⟩
    | ok r m =>
      have hstep : LoopStep p.machine r m := hit
      have hlast : (p.after r m).lines = p.lines ++ linesOf [(p.machine, r)] :=
        after_lines (List.append_nil _).symm
      dsimp only
      cases hlook : m.mem.get64 tohost with
      | error fault =>
        exact ⟨[], p.machine, Nat.succ_pos n, .nil _, .inr ⟨r, hstep, hlook, hlast⟩⟩
      | ok value =>
        dsimp only
        by_cases hvalue : value = 0
        · rw [hvalue] at hlook ⊢
          exact Unrolls.cons ⟨hstep, hlook⟩ (ih _)
        · rw [bne_iff_ne.mpr hvalue]
          exact ⟨[], p.machine, r, value, Nat.succ_pos n, .nil _, hstep, hlook, hvalue, hlast⟩

end ZincSim
