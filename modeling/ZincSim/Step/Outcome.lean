/-
  ZincSim.Step.Outcome — the outcomes of one `Executor::step`, said once.

  `step_of_fault`, `step_of_exception` and `step_of_normal` evaluate a step from
  the result of `execute`; `step_ok_cases` is the inversion that every invariant
  proof uses in place of unfolding `step`.
-/
import ZincSim.Machine.Step

namespace ZincSim

/-! ## §1. `take_exception` in closed form -/

/-- The core after trap entry. -/
def Core.trapped (core : Core) (exception : Exception) : Core :=
  { core with
    priv := .machine
    pc := core.csrs 0x305 &&& ~~~0b11#64
    csrs :=
      Function.update
        (Function.update
          (Function.update (Function.update core.csrs 0x342 exception.mcause)
            0x343 exception.mtval)
          0x341 (core.pc &&& ~~~0b11#64))
        0x300 (Core.maskMstatus (core.csrs 0x300) core.exceptionMstatus) }

/-- Trap entry always succeeds: each of its four CSRs is writable. -/
theorem takeException_eq (core : Core) (exception : Exception) :
    core.takeException exception = .ok (core.trapped exception) := rfl

/-! ## §2. Evaluating a step -/

theorem step_of_fault {insn : DecodedInsn} {m : Machine} {fault : Fault}
    (h : execute m.core m.mem insn = .error fault) : step insn m = .error fault m := by
  simp [step, Proc.ofExcept, h, bind, EStateM.bind, get, getThe, MonadStateOf.get, EStateM.get]

theorem step_of_exception {insn : DecodedInsn} {m : Machine} {exception : Exception}
    (h : execute m.core m.mem insn = .ok (.exception exception)) :
    step insn m = .ok none { m with core := m.core.trapped exception } := by
  simp [step, Proc.ofExcept, h, bind, EStateM.bind, get, getThe, MonadStateOf.get, EStateM.get,
    onCore, takeException_eq, set, MonadStateOf.set, EStateM.set, pure, EStateM.pure]

/-- The word at pc can be read. -/
def Fetches (m : Machine) : Prop := ∃ word, m.mem.get32 m.core.pc = .ok word

/-- The commit of a completed normal step. -/
def commitOf (m : Machine) (rawInsn : BitVec 32) (regWrites : List RegWrite)
    (result : NormalStep) : Commit where
  pc := m.core.pc
  insn := rawInsn
  priv := m.core.priv
  regWrites := regWrites
  memReads := result.memReads
  memWrites := result.memWrites

/-- A normal result: fetch the raw word, write the registers, then the memory. -/
theorem step_of_normal {insn : DecodedInsn} {m : Machine} {result : NormalStep}
    (h : execute m.core m.mem insn = .ok (.normal result)) :
    step insn m =
      match m.mem.get32 m.core.pc with
      | .error fault => .error fault m
      | .ok rawInsn =>
        match writeRegs (finalRegWrites m.core result.regWrites) (advance m.core result) with
        | .error fault core => .error fault { m with core := core }
        | .ok regWrites core =>
          match writeMems result.memWrites m.mem with
          | .error fault mem => .error fault { core := core, mem := mem }
          | .ok _ mem => .ok (some (commitOf m rawInsn regWrites result))
              { core := core, mem := mem } := by
  simp only [step, Proc.ofExcept, h, bind, EStateM.bind, get, getThe, MonadStateOf.get,
    EStateM.get, onCore, set, MonadStateOf.set, EStateM.set]
  cases m.mem.get32 m.core.pc with
  | error fault => rfl
  | ok rawInsn =>
    simp only
    cases writeRegs (finalRegWrites m.core result.regWrites) (advance m.core result) with
    | error fault core => rfl
    | ok regWrites core =>
      simp only [onMem]
      cases writeMems result.memWrites m.mem <;> rfl

/-- The test for a result that is a commit. -/
def isCommit : EStateM.Result Fault Machine (Option Commit) → Bool
  | .ok (some _) _ => true
  | _ => false

theorem isCommit_iff (result : EStateM.Result Fault Machine (Option Commit)) :
    isCommit result = true ↔ ∃ commit m', result = .ok (some commit) m' := by
  constructor
  · intro h
    unfold isCommit at h
    split at h
    next commit m' => exact ⟨commit, m', rfl⟩
    · cases h
  · rintro ⟨commit, m', rfl⟩
    rfl

/-! ## §3. Inversion -/

/-- **What a returning step did**: it took an exception, or it committed. -/
theorem step_ok_cases {insn : DecodedInsn} {m m' : Machine} {r : Option Commit}
    (h : step insn m = .ok r m') :
    (∃ exception, execute m.core m.mem insn = .ok (.exception exception) ∧ r = none ∧
      m' = { m with core := m.core.trapped exception }) ∨
    (∃ result rawInsn regWrites, execute m.core m.mem insn = .ok (.normal result) ∧
      m.mem.get32 m.core.pc = .ok rawInsn ∧
      writeRegs (finalRegWrites m.core result.regWrites) (advance m.core result)
        = .ok regWrites m'.core ∧
      writeMems result.memWrites m.mem = .ok () m'.mem ∧
      r = some (commitOf m rawInsn regWrites result)) := by
  cases hx : execute m.core m.mem insn with
  | error fault =>
    rw [step_of_fault hx] at h
    cases h
  | ok outcome =>
    cases outcome with
    | exception exception =>
      rw [step_of_exception hx] at h
      cases h
      exact .inl ⟨exception, rfl, rfl, rfl⟩
    | normal result =>
      -- fetch, registers, memory: any failure of the three ends in an error result
      rw [step_of_normal hx] at h
      split at h
      · cases h
      next rawInsn hraw =>
        split at h
        · cases h
        next regWrites core hregs =>
          split at h
          · cases h
          next mem hmems =>
            cases h
            exact .inr ⟨result, rawInsn, regWrites, rfl, hraw, hregs, hmems, rfl⟩

/-- **Where a failing step failed**: before any change, or during write-back. -/
theorem step_error_cases {insn : DecodedInsn} {m m' : Machine} {fault : Fault}
    (h : step insn m = .error fault m') :
    (execute m.core m.mem insn = .error fault ∧ m' = m) ∨
    (m.mem.get32 m.core.pc = .error fault ∧ m' = m) ∨
    (∃ result rawInsn core, execute m.core m.mem insn = .ok (.normal result) ∧
      m.mem.get32 m.core.pc = .ok rawInsn ∧
      writeRegs (finalRegWrites m.core result.regWrites) (advance m.core result)
        = .error fault core ∧ m' = { m with core := core }) ∨
    (∃ result rawInsn regWrites, execute m.core m.mem insn = .ok (.normal result) ∧
      m.mem.get32 m.core.pc = .ok rawInsn ∧
      writeRegs (finalRegWrites m.core result.regWrites) (advance m.core result)
        = .ok regWrites m'.core ∧
      writeMems result.memWrites m.mem = .error fault m'.mem) := by
  cases hx : execute m.core m.mem insn with
  | error f =>
    rw [step_of_fault hx] at h
    cases h
    exact .inl ⟨rfl, rfl⟩
  | ok outcome =>
    cases outcome with
    | exception exception =>
      rw [step_of_exception hx] at h
      cases h
    | normal result =>
      rw [step_of_normal hx] at h
      split at h
      next f hraw =>
        cases h
        -- the fetch fails before any change
        exact .inr (.inl ⟨hraw, rfl⟩)
      next rawInsn hraw =>
        split at h
        next f core hregs =>
          cases h
          -- registers: pc, the privilege and the earlier writes stay changed
          exact .inr (.inr (.inl ⟨result, rawInsn, core, rfl, hraw, hregs, rfl⟩))
        next regWrites core hregs =>
          split at h
          next f mem hmems =>
            cases h
            -- memory: all registers have been written
            exact .inr (.inr (.inr ⟨result, rawInsn, regWrites, rfl, hraw, hregs, hmems⟩))
          · cases h

/-! ## §4. The write-back loops -/

@[simp] theorem writeRegs_nil (core : Core) : writeRegs [] core = .ok [] core := rfl

theorem writeRegs_cons (write : RegWrite) (writes : List RegWrite) (core : Core) :
    writeRegs (write :: writes) core =
      match writeReg core write with
      | .error fault => .error fault core
      | .ok (logged, core) =>
        match writeRegs writes core with
        | .error fault core => .error fault core
        | .ok rest core => .ok (logged :: rest) core := by
  simp only [writeRegs, Proc.ofExcept, bind, EStateM.bind, get, getThe, MonadStateOf.get,
    EStateM.get, set, MonadStateOf.set, EStateM.set, pure, EStateM.pure]
  cases writeReg core write with
  | error fault => rfl
  | ok p =>
    simp only
    cases writeRegs writes p.2 <;> rfl

@[simp] theorem writeMems_nil (mem : Memory) : writeMems [] mem = .ok () mem := rfl

theorem writeMems_cons (write : MemAccess) (writes : List MemAccess) (mem : Memory) :
    writeMems (write :: writes) mem =
      match writeMem mem write with
      | .error fault => .error fault mem
      | .ok mem => writeMems writes mem := by
  simp only [writeMems, Proc.ofExcept, bind, EStateM.bind, get, getThe, MonadStateOf.get,
    EStateM.get, set, MonadStateOf.set, EStateM.set]
  cases writeMem mem write <;> rfl

/-- A completed loop over a nonempty list: its first round and the rest. -/
theorem writeRegs_cons_ok {write : RegWrite} {writes logged : List RegWrite} {core core' : Core}
    (h : writeRegs (write :: writes) core = .ok logged core') :
    ∃ first mid rest, writeReg core write = .ok (first, mid) ∧
      writeRegs writes mid = .ok rest core' ∧ logged = first :: rest := by
  rw [writeRegs_cons] at h
  split at h
  · cases h
  next first mid hfirst =>
    split at h
    · cases h
    next rest core'' hrest =>
      cases h
      exact ⟨first, mid, rest, hfirst, hrest, rfl⟩

/-- **The write-back rule**: what every single write keeps, the loop keeps. -/
theorem writeRegs_invariant {P : Core → Prop} {writes logged : List RegWrite}
    {core core' : Core} (hstep : ∀ write ∈ writes, ∀ c c' first, P c →
      writeReg c write = .ok (first, c') → P c')
    (h : writeRegs writes core = .ok logged core') (hP : P core) : P core' := by
  induction writes generalizing core logged with
  | nil =>
    cases h
    exact hP
  | cons write writes ih =>
    -- `P` holds of the state between the rounds, where the induction goes on
    obtain ⟨first, mid, rest, hfirst, hrest, -⟩ := writeRegs_cons_ok h
    exact ih (fun w hw => hstep w (List.mem_cons_of_mem _ hw)) hrest
      (hstep write List.mem_cons_self _ _ _ hP hfirst)

end ZincSim
