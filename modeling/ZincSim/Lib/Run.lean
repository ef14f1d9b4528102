/-
  ZincSim.Lib.Run — finite runs of a labelled transition relation.

  A run records, for each step, the state it left and the input it consumed.
  The rules package the inductions over a run: an invariant that every step
  keeps (`Run.invariant`), one that every step meeting a side condition keeps
  (`Run.invariant_of`), and one that a step keeps exactly when it meets the
  condition (`Run.invariant_iff`).  What the steps emit is folded along the run
  (`Run.accumulate`, `Run.related`); of what they set, the latest value stays
  (`Run.latest`).  A run that is matched step by step is matched as a whole
  (`Run.forward`, `Run.map`).
-/
namespace TransitionSystem

variable {σ ι : Type}

/-- `Run step s trace t`: the steps of `trace` lead from `s` to `t`. -/
inductive Run (step : σ → ι → σ → Prop) : σ → List (σ × ι) → σ → Prop where
  | nil (s : σ) : Run step s [] s
  | cons {s t u : σ} {i : ι} {trace : List (σ × ι)} :
      step s i t → Run step t trace u → Run step s ((s, i) :: trace) u

/-- The states some run leads to from an initial state. -/
def Reachable (init : σ → Prop) (step : σ → ι → σ → Prop) (t : σ) : Prop :=
  ∃ s trace, init s ∧ Run step s trace t

variable {step : σ → ι → σ → Prop} {s t u : σ} {i : ι} {trace : List (σ × ι)}

theorem Run.snoc (run : Run step s trace t) (h : step t i u) :
    Run step s (trace ++ [(t, i)]) u := by
  induction run with
  | nil s => exact .cons h (.nil u)
  | cons hstep _ ih => exact .cons hstep (ih h)

/-- A run passes through each state of its trace. -/
theorem Run.split (run : Run step s trace t) {p : σ × ι} (hp : p ∈ trace) :
    ∃ before after u, trace = before ++ p :: after ∧ Run step s before p.1 ∧
      step p.1 p.2 u ∧ Run step u after t := by
  induction run with
  | nil s => cases hp
  | cons h run ih =>
    rcases List.mem_cons.mp hp with rfl | hmem
    · exact ⟨[], _, _, rfl, .nil _, h, run⟩
    · obtain ⟨before, after, u, rfl, hbefore, hstep, hafter⟩ := ih hmem
      exact ⟨_ :: before, after, u, rfl, .cons h hbefore, hstep, hafter⟩

theorem Reachable.of_init {init : σ → Prop} (h : init s) : Reachable init step s :=
  ⟨s, [], h, .nil s⟩

theorem Reachable.snoc {init : σ → Prop} (h : Reachable init step s) (hstep : step s i t) :
    Reachable init step t := by
  obtain ⟨s₀, trace, hinit, run⟩ := h
  exact ⟨s₀, trace ++ [(s, i)], hinit, run.snoc hstep⟩

/-- A property that a step meeting the condition `C` keeps holds in every state
of a run whose steps all meet it. -/
theorem Run.invariant_of {P : σ → Prop} {C : σ → ι → Prop}
    (hstep : ∀ s i t, P s → C s i → step s i t → P t)
    (run : Run step s trace t) (hC : ∀ p ∈ trace, C p.1 p.2) (hs : P s) :
    (∀ p ∈ trace, P p.1) ∧ P t := by
  induction run with
  | nil s => exact ⟨fun p hp => absurd hp List.not_mem_nil, hs⟩
  | cons h _ ih =>
    obtain ⟨hC0, hC⟩ := List.forall_mem_cons.mp hC
    obtain ⟨htrace, hend⟩ := ih hC (hstep _ _ _ hs hC0 h)
    exact ⟨List.forall_mem_cons.mpr ⟨hs, htrace⟩, hend⟩

/-- A property that every step keeps holds at the end of a run. -/
theorem Run.invariant {P : σ → Prop} (hstep : ∀ s i t, P s → step s i t → P t)
    (run : Run step s trace t) (hs : P s) : P t :=
  (run.invariant_of (C := fun _ _ => True) (fun s i t hP _ => hstep s i t hP)
    (fun _ _ => trivial) hs).2

theorem Reachable.invariant {init P : σ → Prop} (hinit : ∀ s, init s → P s)
    (hstep : ∀ s i t, P s → step s i t → P t) (h : Reachable init step t) : P t := by
  obtain ⟨s, trace, hs, run⟩ := h
  exact run.invariant hstep (hinit s hs)

/-- What holds in every state a run visits holds where it starts. -/
theorem Run.start_of {P : σ → Prop} (run : Run step s trace t)
    (h : (∀ p ∈ trace, P p.1) ∧ P t) : P s := by
  cases run with
  | nil => exact h.2
  | cons _ _ => exact h.1 _ List.mem_cons_self

/-- When a step keeps the property exactly if it meets the condition, a run
stays inside the property exactly if all its steps meet the condition. -/
theorem Run.invariant_iff {P : σ → Prop} {C : σ → ι → Prop}
    (hstep : ∀ s i t, P s → step s i t → (P t ↔ C s i))
    (run : Run step s trace t) (hs : P s) :
    ((∀ p ∈ trace, P p.1) ∧ P t) ↔ ∀ p ∈ trace, C p.1 p.2 := by
  constructor
  · intro h
    induction run with
    | nil s => exact fun p hp => absurd hp List.not_mem_nil
    | cons h0 run ih =>
      obtain ⟨⟨_, htrace⟩, hend⟩ := And.imp_left List.forall_mem_cons.mp h
      have hmid := run.start_of ⟨htrace, hend⟩
      exact List.forall_mem_cons.mpr
        ⟨(hstep _ _ _ hs h0).mp hmid, ih hmid ⟨htrace, hend⟩⟩
  · intro hC
    exact run.invariant_of (fun s i t hP hc h => (hstep s i t hP h).mpr hc) hC hs

/-- **What the steps emit adds up**: when every step meeting the condition folds what it
emits into `f`, the run folds what it emits as a whole. -/
theorem Run.accumulate {α β : Type} {f : σ → α} {emit : σ → ι → List β} {o : α → β → α}
    {C : σ → ι → Prop}
    (hstep : ∀ s i t, C s i → step s i t → f t = (emit s i).foldl o (f s))
    (run : Run step s trace t) (hC : ∀ p ∈ trace, C p.1 p.2) :
    f t = (trace.flatMap fun p => emit p.1 p.2).foldl o (f s) := by
  induction run with
  | nil s => rfl
  | cons h _ ih =>
    obtain ⟨hC0, hC⟩ := List.forall_mem_cons.mp hC
    rw [ih hC, hstep _ _ _ hC0 h, List.flatMap_cons, List.foldl_append]

/-- **A relation to a fold of what the steps emit**, kept by every step meeting the
condition, holds at the end of the run. -/
theorem Run.related {α β : Type} {R : α → σ → Prop} {emit : σ → ι → List β} {o : α → β → α}
    {C : σ → ι → Prop}
    (hstep : ∀ a s i t, R a s → C s i → step s i t → R ((emit s i).foldl o a) t)
    (run : Run step s trace t) (hC : ∀ p ∈ trace, C p.1 p.2) {a : α} (ha : R a s) :
    R ((trace.flatMap fun p => emit p.1 p.2).foldl o a) t := by
  induction run generalizing a with
  | nil s => exact ha
  | cons h _ ih =>
    obtain ⟨hC0, hC⟩ := List.forall_mem_cons.mp hC
    rw [List.flatMap_cons, List.foldl_append]
    exact ih hC (hstep _ _ _ _ ha hC0 h)

/-- What the last step that sets something has set, else `first`. -/
def latest {β : Type} (sets : σ → ι → Option β) (trace : List (σ × ι)) (first : β) : β :=
  (trace.reverse.findSome? fun p => sets p.1 p.2).getD first

theorem latest_cons {β : Type} (sets : σ → ι → Option β) (p : σ × ι) (trace : List (σ × ι))
    (first : β) :
    latest sets (p :: trace) first = latest sets trace ((sets p.1 p.2).getD first) := by
  unfold latest
  rw [List.reverse_cons, List.findSome?_append, List.findSome?_singleton]
  cases trace.reverse.findSome? fun p => sets p.1 p.2 <;> rfl

/-- Steps that set nothing leave what was there. -/
theorem latest_of_none {β : Type} {sets : σ → ι → Option β} {trace : List (σ × ι)} {first : β}
    (h : ∀ p ∈ trace, sets p.1 p.2 = none) : latest sets trace first = first := by
  induction trace with
  | nil => rfl
  | cons p trace ih =>
    obtain ⟨hp, htrace⟩ := List.forall_mem_cons.mp h
    rw [latest_cons, hp]
    exact ih htrace

/-- The latest value along a run under a map. -/
theorem latest_map {σ' ι' β : Type} {f : σ → σ'} {g : σ → ι → ι'} (sets : σ' → ι' → Option β)
    (trace : List (σ × ι)) (first : β) :
    latest sets (trace.map fun p => (f p.1, g p.1 p.2)) first =
      latest (fun s i => sets (f s) (g s i)) trace first := by
  unfold latest
  rw [← List.map_reverse, List.findSome?_map]
  rfl

/-- **A variable holds what was last set**, when a step that does not set it keeps it. -/
theorem Run.latest {β : Type} {f : σ → β} {sets : σ → ι → Option β}
    (hstep : ∀ s i t, step s i t → f t = (sets s i).getD (f s)) (run : Run step s trace t) :
    f t = latest sets trace (f s) := by
  induction run with
  | nil s => rfl
  | cons h _ ih => rw [ih, latest_cons, hstep _ _ _ h]

/-- **A run under a map**, of the states and of the inputs. -/
theorem Run.map {σ' ι' : Type} {step' : σ' → ι' → σ' → Prop} {f : σ → σ'} {g : σ → ι → ι'}
    (hstep : ∀ s i t, step s i t → step' (f s) (g s i) (f t)) (run : Run step s trace t) :
    Run step' (f s) (trace.map fun p => (f p.1, g p.1 p.2)) (f t) := by
  induction run with
  | nil s => exact .nil (f s)
  | cons h _ ih => exact .cons (hstep _ _ _ h) ih

/-- Every step meeting `C` is matched from every related state, by a step that meets `C'` and
goes to a related state. -/
def Matched {σ' ι' : Type} (step : σ → ι → σ → Prop) (step' : σ' → ι' → σ' → Prop)
    (R : σ → σ' → Prop) (C : σ → ι → Prop) (C' : σ' → ι' → Prop) : Prop :=
  ∀ s i t s', R s s' → C s i → step s i t → ∃ i' t', step' s' i' t' ∧ C' s' i' ∧ R t t'

/-- **Forward simulation**: runs of matched steps are matched, step by step. -/
theorem Run.forward {σ' ι' : Type} {step' : σ' → ι' → σ' → Prop} {R : σ → σ' → Prop}
    {C : σ → ι → Prop} {C' : σ' → ι' → Prop} (hstep : Matched step step' R C C')
    (run : Run step s trace t) (hC : ∀ p ∈ trace, C p.1 p.2) {s' : σ'} (hs : R s s') :
    ∃ trace' t', trace'.length = trace.length ∧ Run step' s' trace' t' ∧
      (∀ p ∈ trace', C' p.1 p.2) ∧ R t t' := by
  induction run generalizing s' with
  | nil s => exact ⟨[], s', rfl, .nil s', fun p hp => absurd hp List.not_mem_nil, hs⟩
  | cons h _ ih =>
    obtain ⟨hC0, hC⟩ := List.forall_mem_cons.mp hC
    obtain ⟨i', mid', hstep', hC0', hmid⟩ := hstep _ _ _ _ hs hC0 h
    obtain ⟨trace', t', hlength, hrun', hC', ht⟩ := ih hC hmid
    exact ⟨_ :: trace', t', congrArg (· + 1) hlength, .cons hstep' hrun',
      List.forall_mem_cons.mpr ⟨hC0', hC'⟩, ht⟩

end TransitionSystem
