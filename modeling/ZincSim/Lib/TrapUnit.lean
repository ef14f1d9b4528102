/-
  ZincSim.Lib.TrapUnit — the trap state of a hart with one level of saved context.

  A trap saves the mode, the interrupt enable and the pc and goes to the handler; a return
  takes them back.  Besides, a program can set each of them.  A return goes where the latest
  of these said (`returns_to_latest`), so a handler that sets nothing returns to what was
  interrupted (`handler_returns`).
-/
import ZincSim.Lib.Run

open TransitionSystem

/-- The mode, the pc and the interrupt enable, what a trap saved of them, and where the
handler is. -/
@[ext] structure TrapUnit (μ α : Type) where
  mode : μ
  pc : α
  enabled : Bool
  savedMode : μ
  savedPc : α
  savedEnabled : Bool
  vector : α

namespace TrapUnit

variable {μ α : Type}

/-! ## §1. Actions -/

inductive Action (μ α : Type) where
  | trap
  | ret
  /-- Anything that leaves the trap state alone. -/
  | proceed (pc : α)
  | setStatus (enabled savedEnabled : Bool) (savedMode : μ) (pc : α)
  | setReturn (addr pc : α)
  | setVector (addr pc : α)

/-- Traps are handled in mode `top`; a return leaves `bottom` as the saved mode. -/
def act (top bottom : μ) (s : TrapUnit μ α) : Action μ α → TrapUnit μ α
  | .trap =>
      { s with
        mode := top, pc := s.vector, enabled := false
        savedMode := s.mode, savedPc := s.pc, savedEnabled := s.enabled }
  | .ret =>
      { s with
        mode := s.savedMode, pc := s.savedPc, enabled := s.savedEnabled
        savedMode := bottom, savedEnabled := true }
  | .proceed pc => { s with pc := pc }
  | .setStatus enabled savedEnabled savedMode pc =>
      { s with enabled := enabled, savedEnabled := savedEnabled, savedMode := savedMode, pc := pc }
  | .setReturn addr pc => { s with savedPc := addr, pc := pc }
  | .setVector addr pc => { s with vector := addr, pc := pc }

def Step (top bottom : μ) (s : TrapUnit μ α) (a : Action μ α) (t : TrapUnit μ α) : Prop :=
  t = s.act top bottom a

/-! ## §2. What an action saves -/

def savesPc (s : TrapUnit μ α) : Action μ α → Option α
  | .trap => some s.pc
  | .setReturn addr _ => some addr
  | _ => none

def savesMode (bottom : μ) (s : TrapUnit μ α) : Action μ α → Option μ
  | .trap => some s.mode
  | .ret => some bottom
  | .setStatus _ _ savedMode _ => some savedMode
  | _ => none

def savesEnabled (s : TrapUnit μ α) : Action μ α → Option Bool
  | .trap => some s.enabled
  | .ret => some true
  | .setStatus _ savedEnabled _ _ => some savedEnabled
  | _ => none

/-- The action leaves the saved context alone. -/
def Action.Keeps : Action μ α → Prop
  | .proceed _ | .setVector _ _ => True
  | _ => False

variable {top bottom : μ} {s t : TrapUnit μ α} {trace : List (TrapUnit μ α × Action μ α)}

/-! ## §3. Where a return goes -/

/-- **A return goes to what was saved last.** -/
theorem returns_to_latest (run : Run (Step top bottom) s trace t) :
    (t.act top bottom .ret).pc = latest savesPc trace s.savedPc ∧
      (t.act top bottom .ret).mode = latest (savesMode bottom) trace s.savedMode ∧
      (t.act top bottom .ret).enabled = latest savesEnabled trace s.savedEnabled := by
  refine ⟨run.latest (f := savedPc) ?_, run.latest (f := savedMode) ?_,
    run.latest (f := savedEnabled) ?_⟩
  all_goals
    rintro s a t rfl
    cases a <;> rfl

/-- An action that keeps the saved context saves nothing. -/
theorem saves_of_keeps {a : Action μ α} (h : a.Keeps) :
    savesPc s a = none ∧ savesMode bottom s a = none ∧ savesEnabled s a = none := by
  cases a with
  | proceed pc => exact ⟨rfl, rfl, rfl⟩
  | setVector addr pc => exact ⟨rfl, rfl, rfl⟩
  | _ => cases h

/-- **A handler that keeps the saved context** returns to what was interrupted. -/
theorem handler_returns {body : List (TrapUnit μ α × Action μ α)}
    (run : Run (Step top bottom) s ((s, .trap) :: body) t) (hbody : ∀ p ∈ body, p.2.Keeps) :
    (t.act top bottom .ret).pc = s.pc ∧ (t.act top bottom .ret).mode = s.mode ∧
      (t.act top bottom .ret).enabled = s.enabled := by
  obtain ⟨hpc, hmode, henabled⟩ := returns_to_latest run
  have hnone (p) (hp : p ∈ body) := @saves_of_keeps _ _ bottom p.1 _ (hbody p hp)
  rw [latest_cons, latest_of_none fun p hp => (hnone p hp).1] at hpc
  rw [latest_cons, latest_of_none fun p hp => (hnone p hp).2.1] at hmode
  rw [latest_cons, latest_of_none fun p hp => (hnone p hp).2.2] at henabled
  exact ⟨hpc, hmode, henabled⟩

/-- Meanwhile the mode and the interrupt enable stay as they are. -/
theorem act_of_keeps {a : Action μ α} (h : a.Keeps) :
    (s.act top bottom a).mode = s.mode ∧ (s.act top bottom a).enabled = s.enabled := by
  cases a with
  | proceed pc => exact ⟨rfl, rfl⟩
  | setVector addr pc => exact ⟨rfl, rfl⟩
  | _ => cases h

end TrapUnit
