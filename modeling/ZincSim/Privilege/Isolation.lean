/-
  ZincSim.Privilege.Isolation — what User-mode code can do to Machine mode.

  The simulator has no privilege check: MRET and every CSR instruction execute in
  User mode as they do in Machine mode.  Apart from MRET and from CSR writes of a
  machine-level CSR, a step taken in User mode either traps to mtvec or stays in
  User mode and leaves the machine-level CSRs alone (`step_user_isolated`), and
  so does a run of such steps (`user_mode_isolated`).
-/
import ZincSim.Privilege.Legal

namespace ZincSim

open TransitionSystem

/-! ## §1. The machine-level state -/

/-- The machine-level CSRs besides mstatus. -/
def machineCsrs : List Csr :=
  [.mie, .mtvec, .mscratch, .mepc, .mcause, .mtval, .pmpcfg0, .pmpaddr0]

/-- Every machine-level CSR is unchanged, mstatus in the bits other than FS
and SD. -/
structure SameMachineCsrs (core core' : Core) : Prop where
  csrs : ∀ csr ∈ machineCsrs, core'.getCsr csr = core.getCsr csr
  mstatus : core'.getCsr .mstatus &&& ~~~(mstatusFsMask ||| mstatusSdMask) =
    core.getCsr .mstatus &&& ~~~(mstatusFsMask ||| mstatusSdMask)

theorem SameMachineCsrs.refl (core : Core) : SameMachineCsrs core core :=
  ⟨fun _ _ => rfl, rfl⟩

theorem SameMachineCsrs.trans {a b c : Core} (hab : SameMachineCsrs a b)
    (hbc : SameMachineCsrs b c) : SameMachineCsrs a c :=
  ⟨fun csr h => (hbc.csrs csr h).trans (hab.csrs csr h), hbc.mstatus.trans hab.mstatus⟩

/-- The base of the trap handler. -/
def mtvecBase (core : Core) : BitVec 64 := core.getCsr .mtvec &&& ~~~0b11#64

theorem SameMachineCsrs.mtvecBase_eq {core core' : Core} (h : SameMachineCsrs core core') :
    mtvecBase core' = mtvecBase core := by
  rw [mtvecBase, mtvecBase, h.csrs .mtvec (by decide)]

/-- The step went through `take_exception` and is at the base of the handler. -/
def EntersTrap (m m' : Machine) : Prop :=
  ∃ exception, m.core.takeException exception = .ok m'.core ∧
    m'.core.priv = .machine ∧ m'.core.pc = mtvecBase m.core

/-- MRET, or a CSR instruction that writes a machine-level CSR. -/
def Privileged : DecodedInsn → Prop
  | .system insn =>
      insn.type = .mret ∨
        (isCsrInsn insn = true ∧ csrWritesBack insn = true ∧
          Csr.ofNum (insn.csr.setWidth 32) ∈ Csr.mstatus :: machineCsrs)
  | _ => False

/-! ## §2. One step in User mode -/

/-- The machine-level CSRs have entries of their own. -/
theorem eq_of_slot_machine {csr csr' : Csr} (hw : csr.writable = true)
    (hmachine : csr' ∈ machineCsrs) (h : csr.slot = csr'.slot) : csr = csr' := by
  simp only [machineCsrs, List.mem_cons, List.not_mem_nil, or_false] at hmachine
  rcases hmachine with rfl | rfl | rfl | rfl | rfl | rfl | rfl | rfl <;>
    revert h hw <;> cases csr <;> simp [Csr.writable, Csr.slot, Csr.num]

/-- A loop that writes no machine-level CSR but mstatus keeps them. -/
theorem writeRegs_machineCsrs {writes logged : List RegWrite} {core core' : Core}
    (h : writeRegs writes core = .ok logged core')
    (hwrites : ∀ write ∈ writes, write.type = .csr → Csr.ofNum write.num ∉ machineCsrs)
    {csr : Csr} (hcsr : csr ∈ machineCsrs) : core'.getCsr csr = core.getCsr csr := by
  refine Core.getCsr_congr (writeRegs_csrs_of_not_mem h fun write hmem htype hw hslot => ?_)
  refine hwrites write hmem htype ?_
  rw [eq_of_slot_machine hw hcsr hslot]
  exact hcsr

/-- **One step in User mode** that is not privileged traps, or stays in User mode
with the machine-level CSRs unchanged. -/
theorem step_user_isolated {insn : DecodedInsn} {m m' : Machine} {r : Option Commit}
    (huser : m.core.priv = .user) (hinsn : ¬ Privileged insn)
    (h : step insn m = .ok r m') :
    EntersTrap m m' ∨ (m'.core.priv = .user ∧ SameMachineCsrs m.core m'.core) := by
  rcases step_ok_cases h with ⟨exception, hx, -, rfl⟩ | ⟨result, raw, logged, hx, -, hregs, -, -⟩
  · exact .inl ⟨exception, takeException_eq _ _, rfl, rfl⟩
  -- no trap: pc and the privilege are those of the result, since write-back keeps both
  refine .inr ?_
  obtain ⟨-, hpriv⟩ := writeRegs_pc_priv hregs
  rw [advance_priv] at hpriv
  rcases execute_normal_cases hx with ⟨si, rfl, hcsr, -, rfl⟩ | ⟨si, rfl, hmret, rfl⟩ |
    ⟨-, hplain⟩
  · -- a CSR instruction: by hypothesis it writes back to none of the machine-level CSRs
    have hnot (hwb : csrWritesBack si = true) :
        Csr.ofNum (si.csr.setWidth 32) ∉ Csr.mstatus :: machineCsrs :=
      fun hmem => hinsn (.inr ⟨hcsr, hwb, hmem⟩)
    refine ⟨hpriv.trans huser, fun csr hmachine => ?_, ?_⟩
    · refine writeRegs_machineCsrs hregs (fun write hmem htype => ?_) hmachine
      -- the other CSRs of its final list are the halves of fcsr and mstatus
      rcases csrStep_csr_mem hmem htype with ⟨hwb, rfl⟩ | ⟨-, hnum | hnum⟩ | rfl
      · exact fun hmem => hnot hwb (List.mem_cons_of_mem _ hmem)
      · rw [hnum]
        decide
      · rw [hnum]
        decide
      · exact (by decide : Csr.mstatus ∉ machineCsrs)
    · -- mstatus is written by the FS = Dirty rewrite only, which stays inside FS and SD
      refine csrStep_mstatus_field (by decide) (by decide) ?_ hregs
      cases hwb : csrWritesBack si with
      | false => exact .inr rfl
      | true =>
        refine .inl fun hnum => hnot hwb ?_
        rw [hnum]
        decide
  · -- MRET is privileged
    exact absurd (.inl hmret) hinsn
  · -- any other instruction writes fflags at most, besides the rewrite of mstatus
    rw [hplain.priv] at hpriv
    refine ⟨hpriv.trans huser, fun csr hmachine => ?_, ?_⟩
    · refine writeRegs_machineCsrs hregs (fun write hmem htype => ?_) hmachine
      rcases hplain.regs.csr_mem hmem htype with hnum | rfl
      · rw [hnum]
        decide
      · exact (by decide : Csr.mstatus ∉ machineCsrs)
    · exact plain_mstatus_field (by decide) (by decide) hplain hregs

/-! ## §3. Every run -/

/-- Reachable from the User-mode state `m₀` by unprivileged User-mode steps:
still in User mode with the machine-level CSRs of `m₀`, or at its handler. -/
def UserConfined (m₀ m : Machine) : Prop :=
  (m.core.priv = .user ∧ SameMachineCsrs m₀.core m.core) ∨
    (m.core.priv = .machine ∧ m.core.pc = mtvecBase m₀.core)

theorem UserConfined.step {m₀ m m' : Machine} {insn : DecodedInsn} {r : Option Commit}
    (hm : UserConfined m₀ m) (huser : m.core.priv = .user) (hinsn : ¬ Privileged insn)
    (h : ZincSim.step insn m = .ok r m') : UserConfined m₀ m' := by
  -- the second case is the handler, in Machine mode, where the hypothesis on the mode fails
  have hsame : SameMachineCsrs m₀.core m.core := by
    rcases hm with ⟨-, hsame⟩ | ⟨hmachine, -⟩
    · exact hsame
    · rw [huser] at hmachine
      cases hmachine
  rcases step_user_isolated huser hinsn h with ⟨-, -, hpriv, hpc⟩ | ⟨hpriv, hstep⟩
  · exact .inr ⟨hpriv, hpc.trans hsame.mtvecBase_eq⟩
  · exact .inl ⟨hpriv, hsame.trans hstep⟩

/-- **User-mode isolation without privileged instructions**: one step in User
mode traps or leaves the machine-level state alone, and over any run of such
steps Machine mode begins only at the mtvec address. -/
theorem user_mode_isolated {m₀ : Machine} (huser : m₀.core.priv = .user) :
    (∀ insn m, StepOn m₀ insn m → ¬ Privileged insn →
      EntersTrap m₀ m ∨ (m.core.priv = .user ∧ SameMachineCsrs m₀.core m.core)) ∧
    (∀ trace m, Run StepOn m₀ trace m →
      (∀ p ∈ trace, p.1.core.priv = .user ∧ ¬ Privileged p.2) → UserConfined m₀ m) := by
  constructor
  · rintro insn m ⟨-, r, h⟩ hinsn
    exact step_user_isolated huser hinsn h
  · intro trace m run htrace
    refine (run.invariant_of (P := UserConfined m₀)
      (C := fun s insn => s.core.priv = .user ∧ ¬ Privileged insn) ?_ htrace
      (.inl ⟨huser, .refl _⟩)).2
    rintro s insn t hs ⟨hs_user, hinsn⟩ ⟨-, r, h⟩
    exact hs.step hs_user hinsn h

/-! ## §4. A User-mode state -/

/-- `auipc x1, 0; csrrw x0, mepc, x1; mret`: back to the start, in User mode. -/
def toUserMode : List (BitVec 32) := [0x00000097, 0x34109073, 0x30200073]

/-- `toUserMode` reaches User mode; there `csrrwi x0, mscratch, 1` is carried out
and ECALL returns. -/
theorem toUserMode_reaches :
    ∃ m m₁ m₂, Reachable Boots StepOn m ∧ m.core.priv = .user ∧
      StepOn m (.system ⟨.csrrwi, 0x340, 1, 1, 0⟩) m₁ ∧ m₁.core.priv = .user ∧
      m₁.core.getCsr .mscratch ≠ m.core.getCsr .mscratch ∧
      StepOn m (.system ⟨.ecall, 0, 0, 0, 0⟩) m₂ := by
  -- evaluated once; the conjuncts are then read off the states it goes through
  have hrun : (runWords toUserMode (Machine.boot toUserMode)).any (fun m =>
      decide (m.core.priv = .user) && (runWords [0x3400d073] m).any (fun m₁ =>
        decide (m₁.core.priv = .user) &&
          decide (m₁.core.getCsr .mscratch ≠ m.core.getCsr .mscratch)) &&
      (runWords [0x00000073] m).isSome) = true := by decide +kernel
  obtain ⟨m, hm, hp⟩ := (Option.any_eq_true ..).mp hrun
  simp only [Bool.and_eq_true, decide_eq_true_eq, Option.any_eq_true] at hp
  obtain ⟨⟨huser, m₁, hm₁, huser₁, hmscratch⟩, hecall⟩ := hp
  obtain ⟨m₂, hm₂⟩ := Option.isSome_iff_exists.mp hecall
  exact ⟨m, m₁, m₂, reachable_runWords (.of_init (bootsZeroed_boot _).boots) hm, huser,
    stepOn_of_runWords rfl hm₁, huser₁, hmscratch, stepOn_of_runWords rfl hm₂⟩

/-- ECALL in User mode ends at mtvec. -/
theorem user_mode_isolated_ecall :
    ∃ m₀ m, m₀.core.priv = .user ∧ StepOn m₀ (.system ⟨.ecall, 0, 0, 0, 0⟩) m ∧
      UserConfined m₀ m := by
  obtain ⟨m₀, -, m, -, huser, -, -, -, hstep⟩ := toUserMode_reaches
  refine ⟨m₀, m, huser, hstep, (user_mode_isolated huser).2 _ _ (.cons hstep (.nil m)) ?_⟩
  intro p hp
  rw [List.mem_singleton.mp hp]
  exact ⟨huser, by simp [Privileged, isCsrInsn]⟩

/-- User-mode code changes a machine-level CSR without a trap. -/
theorem user_writes_mscratch :
    ¬ ∀ m, Reachable Boots StepOn m → m.core.priv = .user → ∀ insn m', StepOn m insn m' →
      EntersTrap m m' ∨ (m'.core.priv = .user ∧ SameMachineCsrs m.core m'.core) := by
  intro h
  obtain ⟨m, m₁, -, hreach, huser, hstep, huser', hmscratch, -⟩ := toUserMode_reaches
  rcases h m hreach huser _ m₁ hstep with ⟨-, -, hpriv, -⟩ | ⟨-, hsame⟩
  · rw [huser'] at hpriv
    cases hpriv
  · exact hmscratch (hsame.csrs .mscratch (by decide))

end ZincSim
