/-
  ZincSim.Csr.Immediate — the immediate CSR forms against the register forms.

  Both families go through `csrStep`, so two forms that compute the same value
  have the same outcome on cores that agree outside the source register
  (`writeRegs_agree`).  CSRRCI alone computes another value: it complements the
  32-bit immediate before widening, which clears bits 63..32 of the CSR.
-/
import ZincSim.Step.FinalWrites
import ZincSim.Step.Run

namespace ZincSim

/-! ## §1. The two forms -/

/-- The three operations on a CSR. -/
inductive CsrOp where
  | write | set | clear
  deriving DecidableEq, Repr

/-- CSRRWI, CSRRSI, CSRRCI: one field of the word is both `rs1` and `uimm`. -/
def immForm (op : CsrOp) (csr : BitVec 12) (uimm : BitVec 5) (rd : RegIndex) : SystemInsn where
  type := match op with
    | .write => .csrrwi
    | .set => .csrrsi
    | .clear => .csrrci
  csr := csr
  rs1 := uimm
  uimm := uimm
  rd := rd

/-- CSRRW, CSRRS, CSRRC. -/
def regForm (op : CsrOp) (csr : BitVec 12) (rs rd : RegIndex) : SystemInsn where
  type := match op with
    | .write => .csrrw
    | .set => .csrrs
    | .clear => .csrrc
  csr := csr
  rs1 := rs
  uimm := rs
  rd := rd

theorem isCsrInsn_immForm (op : CsrOp) (csr : BitVec 12) (uimm : BitVec 5) (rd : RegIndex) :
    isCsrInsn (immForm op csr uimm rd) = true := by
  cases op <;> rfl

theorem isCsrInsn_regForm (op : CsrOp) (csr : BitVec 12) (rs rd : RegIndex) :
    isCsrInsn (regForm op csr rs rd) = true := by
  cases op <;> rfl

/-- Both forms write back, or neither does. -/
theorem csrWritesBack_forms (op : CsrOp) (csr : BitVec 12) {uimm : BitVec 5}
    {rs rd : RegIndex} (hrs : rs = 0 ↔ uimm = 0) :
    csrWritesBack (regForm op csr rs rd) = csrWritesBack (immForm op csr uimm rd) := by
  have hbne : (rs != 0) = (uimm != 0) := by
    rw [Bool.eq_iff_iff, bne_iff_ne, bne_iff_ne]
    exact not_congr hrs
  cases op <;> first | rfl | exact hbne

/-! ## §2. Cores that agree on some registers -/

/-- The cores agree, in the X registers on `S`. -/
structure AgreeOn (S : RegIndex → Prop) (core core' : Core) : Prop where
  priv : core'.priv = core.priv
  pc : core'.pc = core.pc
  gprs : ∀ i, S i → core'.gprs i = core.gprs i
  fprs : core'.fprs = core.fprs
  csrs : core'.csrs = core.csrs

/-- Setting one X register to one value on both sides. -/
theorem AgreeOn.setGpr {S : RegIndex → Prop} {core core' : Core} (h : AgreeOn S core core')
    (rd : RegIndex) (value : BitVec 64) :
    AgreeOn (fun i => S i ∨ i = rd) (core.setGpr rd value) (core'.setGpr rd value) where
  priv := by simpa using h.priv
  pc := by simpa using h.pc
  fprs := by simpa using h.fprs
  csrs := by simpa using h.csrs
  gprs := by
    intro i hi
    by_cases hrd : i = rd
    · subst hrd
      by_cases hzero : i = 0
      · -- x0 ignores the write and is zero on both sides
        subst hzero
        rw [Core.setGpr_zero, Core.setGpr_zero, core.gprs_zero, core'.gprs_zero]
      · rw [Core.setGpr_gprs_self _ hzero, Core.setGpr_gprs_self _ hzero]
    · rw [Core.setGpr_gprs_of_ne _ hrd, Core.setGpr_gprs_of_ne _ hrd]
      exact h.gprs i (hi.resolve_right hrd)

/-- Agreeing ends of the write-back loop. -/
def LoopAgrees (S : RegIndex → Prop) :
    EStateM.Result Fault Core (List RegWrite) → EStateM.Result Fault Core (List RegWrite) → Prop
  | .ok logged core, .ok logged' core' => logged = logged' ∧ AgreeOn S core core'
  | .error fault core, .error fault' core' => fault = fault' ∧ AgreeOn S core core'
  | _, _ => False

/-- The masked value depends on the old entries alone. -/
theorem AgreeOn.withCsr {S : RegIndex → Prop} {core core' : Core} (h : AgreeOn S core core')
    (csr : Csr) (value : BitVec 64) :
    core'.loggedValue csr value = core.loggedValue csr value ∧
      AgreeOn S (core.withCsr csr value) (core'.withCsr csr value) := by
  have hstored : core'.storedEntry csr value = core.storedEntry csr value := by
    unfold Core.storedEntry
    rw [h.csrs]
  constructor
  · cases csr with
    | fflags => exact congrArg (· &&& 0x1f) hstored
    | frm => exact congrArg (fun entry : BitVec 64 => (entry >>> 5) &&& 0x7#64) hstored
    | _ => exact hstored
  · refine ⟨h.priv, h.pc, h.gprs, h.fprs, ?_⟩
    unfold Core.withCsr
    dsimp only
    rw [hstored, h.csrs]

/-- A round that writes a CSR preserves agreement. -/
theorem AgreeOn.writeReg {S : RegIndex → Prop} {core core' : Core} (h : AgreeOn S core core')
    {write : RegWrite} (hcsr : write.type = .csr) :
    RoundRel (fun _ : Unit => AgreeOn S) (fun _ _ => ()) () (writeReg core write)
      (writeReg core' write) := by
  obtain ⟨type, num, value⟩ := write
  cases hcsr
  cases hw : (Csr.ofNum num).writable with
  | false =>
    -- `set_csr` throws, with a text that depends on the number alone
    obtain ⟨fault, hfault⟩ := writeReg_csr_refused hw value
    rw [hfault core, hfault core']
    rfl
  | true =>
    obtain ⟨hlogged, hwith⟩ := h.withCsr (Csr.ofNum num) value
    rw [writeReg_csr hw value core, writeReg_csr hw value core', hlogged]
    exact ⟨rfl, hwith⟩

/-- **A loop of CSR writes preserves agreement.** -/
theorem writeRegs_agree {S : RegIndex → Prop} {writes : List RegWrite} {core core' : Core}
    (hcsr : ∀ write ∈ writes, write.type = .csr) (h : AgreeOn S core core') :
    LoopAgrees S (writeRegs writes core) (writeRegs writes core') := by
  have hloop := writeRegs_rel (R := fun _ : Unit => AgreeOn S) (n := fun _ _ => ()) (a := ())
    (fun write hmem _ c c' hc => hc.writeReg (hcsr write hmem)) h
  revert hloop
  cases writeRegs writes core <;> cases writeRegs writes core' <;> intro hloop
  · exact hloop
  · exact hloop
  · exact hloop
  · exact ⟨hloop.1, hloop.2.choose_spec⟩

/-! ## §3. Values with the same effect -/

/-- The low half of a word. -/
def lowHalf : BitVec 64 := 0xffffffff

/-- fflags, frm, fcsr and mstatus have no writable bit above bit 31. -/
theorem setCsr_low {csr : Csr} (hcsr : csr ∈ [Csr.fflags, .frm, .fcsr, .mstatus])
    {value value' : BitVec 64} (h : value &&& lowHalf = value' &&& lowHalf) (core : Core) :
    core.setCsr csr value = core.setCsr csr value' := by
  refine Core.setCsr_masked (BitField.and_eq_of_subset h ?_) core
  simp only [List.mem_cons, List.not_mem_nil, or_false] at hcsr
  rcases hcsr with rfl | rfl | rfl | rfl <;> decide

theorem sameEffect_csrWrite {num : BitVec 32}
    (hcsr : Csr.ofNum num ∈ [Csr.fflags, .frm, .fcsr, .mstatus])
    {value value' : BitVec 64} (h : value &&& lowHalf = value' &&& lowHalf) :
    SameEffect (csrWrite num value) (csrWrite num value') := by
  intro core
  simp only [writeReg, csrWrite, setCsr_low hcsr h core]

/-- What follows the write of rd in the final list of a CSR instruction that writes
`value`. -/
def csrRest (core : Core) (num : BitVec 32) (writesBack : Bool) (value : BitVec 64) :
    List RegWrite :=
  let part := if writesBack then expandFcsrWrite (csrWrite num value) else []
  part ++ dirtyFsWrites core part

theorem csrRest_congr {core core' : Core} (h : core'.csrs = core.csrs) (num : BitVec 32)
    (writesBack : Bool) (value : BitVec 64) :
    csrRest core' num writesBack value = csrRest core num writesBack value := by
  unfold csrRest
  dsimp only
  rw [dirtyFsWrites_congr h]

theorem csrRest_type {core : Core} {num : BitVec 32} {writesBack : Bool} {value : BitVec 64}
    {write : RegWrite} (hmem : write ∈ csrRest core num writesBack value) : write.type = .csr := by
  rcases List.mem_append.mp hmem with hpart | hdirty
  · split at hpart
    · unfold expandFcsrWrite at hpart
      split at hpart
      · simp only [List.mem_cons, List.not_mem_nil, or_false] at hpart
        rcases hpart with rfl | rfl <;> rfl
      · rw [List.mem_singleton.mp hpart]
        rfl
    · exact absurd hpart List.not_mem_nil
  · rw [eq_of_mem_dirtyFsWrites hdirty]
    rfl

/-- The rest of the list has the same effect for values with equal low halves, on
the CSRs without a high one. -/
theorem csrRest_low {csr : BitVec 12} (hcsr : csr ∈ [0x001, 0x002, 0x003, 0x300])
    {value value' : BitVec 64} (h : value &&& lowHalf = value' &&& lowHalf) (core : Core)
    (writesBack : Bool) :
    List.Forall₂ SameEffect (csrRest core (csr.setWidth 32) writesBack value)
      (csrRest core (csr.setWidth 32) writesBack value') := by
  cases writesBack with
  | false => exact forall₂_sameEffect_refl _
  | true =>
    simp only [List.mem_cons, List.not_mem_nil, or_false] at hcsr
    rcases hcsr with rfl | rfl | rfl | rfl
    · exact .cons (sameEffect_csrWrite (by decide) h) (forall₂_sameEffect_refl _)
    · exact .cons (sameEffect_csrWrite (by decide) h) (forall₂_sameEffect_refl _)
    · -- a write of fcsr is split into one of fflags and one of frm
      have hfflags : value &&& 0x1f = value' &&& 0x1f :=
        BitField.and_eq_of_subset h (by decide)
      have hfrm : (value >>> 5) &&& 0x7#64 = (value' >>> 5) &&& 0x7#64 := by
        have hfield : value &&& 0xe0 = value' &&& 0xe0 :=
          BitField.and_eq_of_subset h (by decide)
        rw [Core.frm_read, Core.frm_read, hfield]
      have hparts : expandFcsrWrite (csrWrite ((0x003 : BitVec 12).setWidth 32) value) =
          expandFcsrWrite (csrWrite ((0x003 : BitVec 12).setWidth 32) value') := by
        show [csrWrite _ (value &&& 0x1f), csrWrite _ ((value >>> 5) &&& 0x7#64)] =
          [csrWrite _ (value' &&& 0x1f), csrWrite _ ((value' >>> 5) &&& 0x7#64)]
        rw [hfflags, hfrm]
      rw [csrRest, csrRest, if_pos rfl, if_pos rfl, hparts]
      exact forall₂_sameEffect_refl _
    · exact .cons (sameEffect_csrWrite (by decide) h) (forall₂_sameEffect_refl _)

/-! ## §4. The values the two forms compute -/

/-- The core of the register form: the source register holds `uimm`. -/
def withSource (core : Core) (rs : RegIndex) (uimm : BitVec 5) : Core :=
  core.setGpr rs (uimm.setWidth 64)

theorem withSource_source (core : Core) {rs : RegIndex} {uimm : BitVec 5}
    (hrs : rs = 0 ↔ uimm = 0) : (withSource core rs uimm).getGpr rs = uimm.setWidth 64 := by
  by_cases h : rs = 0
  · have huimm := hrs.mp h
    subst h huimm
    exact (withSource core 0 0).gprs_zero
  · exact Core.setGpr_gprs_self _ h _

theorem agreeOn_withSource (core : Core) (rs : RegIndex) (uimm : BitVec 5) :
    AgreeOn (fun i => i ≠ rs) core (withSource core rs uimm) where
  priv := Core.setGpr_priv ..
  pc := Core.setGpr_pc ..
  gprs := fun _ hi => Core.setGpr_gprs_of_ne _ hi _
  fprs := Core.setGpr_fprs ..
  csrs := Core.setGpr_csrs ..

/-- What CSRRCI keeps of a CSR, as a mask. -/
theorem not_uimm (uimm : BitVec 5) :
    (~~~(uimm.setWidth 32 : BitVec 32)).setWidth 64 = ~~~(uimm.setWidth 64) &&& lowHalf := by
  revert uimm
  decide

theorem uimm_low (uimm : BitVec 5) : ~~~lowHalf &&& uimm.setWidth 64 = 0 := by
  revert uimm
  decide

theorem setWidth_uimm (uimm : BitVec 5) :
    (uimm.setWidth 32 : BitVec 32).setWidth 64 = uimm.setWidth 64 := by
  revert uimm
  decide

section

variable (core : Core) (op : CsrOp) (csr : BitVec 12) (uimm : BitVec 5) {rs : RegIndex}
  (rd : RegIndex)

/-- CSRRCI computes the low half of what CSRRC does. -/
theorem csrNewValue_clear (hrs : rs = 0 ↔ uimm = 0) :
    csrNewValue core (immForm .clear csr uimm rd) =
      csrNewValue (withSource core rs uimm) (regForm .clear csr rs rd) &&& lowHalf := by
  have hold : (withSource core rs uimm).getCsr (Csr.ofNum (csr.setWidth 32)) =
      core.getCsr (Csr.ofNum (csr.setWidth 32)) :=
    Core.getCsr_congr (by rw [(agreeOn_withSource core rs uimm).csrs])
  show core.getCsr (Csr.ofNum (csr.setWidth 32)) &&&
      (~~~(uimm.setWidth 32 : BitVec 32)).setWidth 64 =
    ((withSource core rs uimm).getCsr (Csr.ofNum (csr.setWidth 32)) &&&
      ~~~(withSource core rs uimm).getGpr rs) &&& lowHalf
  rw [withSource_source core hrs, hold, not_uimm, BitVec.and_assoc]

/-- The other immediate forms compute what the register forms do. -/
theorem csrNewValue_eq (hrs : rs = 0 ↔ uimm = 0) (hop : op ≠ .clear) :
    csrNewValue core (immForm op csr uimm rd) =
      csrNewValue (withSource core rs uimm) (regForm op csr rs rd) := by
  have hold : (withSource core rs uimm).getCsr (Csr.ofNum (csr.setWidth 32)) =
      core.getCsr (Csr.ofNum (csr.setWidth 32)) :=
    Core.getCsr_congr (by rw [(agreeOn_withSource core rs uimm).csrs])
  cases op with
  | write =>
    show (uimm.setWidth 32 : BitVec 32).setWidth 64 = (withSource core rs uimm).getGpr rs
    rw [withSource_source core hrs, setWidth_uimm]
  | set =>
    show core.getCsr (Csr.ofNum (csr.setWidth 32)) |||
        (uimm.setWidth 32 : BitVec 32).setWidth 64 =
      (withSource core rs uimm).getCsr (Csr.ofNum (csr.setWidth 32)) |||
        (withSource core rs uimm).getGpr rs
    rw [withSource_source core hrs, hold, setWidth_uimm]
  | clear => exact absurd rfl hop

/-- **CSRRCI clears only the bits of `uimm`** exactly when the high half of the CSR
is zero already. -/
theorem csrrci_clears_iff :
    csrNewValue core (immForm .clear csr uimm rd) =
        core.getCsr (Csr.ofNum (csr.setWidth 32)) &&& ~~~(uimm.setWidth 64) ↔
      (core.getCsr (Csr.ofNum (csr.setWidth 32))).toNat < 2 ^ 32 := by
  show core.getCsr (Csr.ofNum (csr.setWidth 32)) &&&
    (~~~(uimm.setWidth 32 : BitVec 32)).setWidth 64 = _ ↔ _
  generalize core.getCsr (Csr.ofNum (csr.setWidth 32)) = old
  rw [not_uimm, ← BitVec.and_assoc, BitField.and_eq_self_iff,
    BitField.clear_and_of_disjoint _ _ _ (uimm_low uimm), ← BitField.and_eq_self_iff]
  exact BitField.and_lowMask_eq_iff old 32 (by decide)

end

/-! ## §5. The two steps -/

/-- The loop over what follows the write of rd. -/
def csrLoop (core : Core) (insn : SystemInsn) : EStateM.Result Fault Core (List RegWrite) :=
  writeRegs
    (csrRest core (insn.csr.setWidth 32) (csrWritesBack insn) (csrNewValue core insn))
    ((advance core (csrStep core insn)).setGpr insn.rd
      (core.getCsr (Csr.ofNum (insn.csr.setWidth 32))))

/-- **A step of a CSR instruction on an existing CSR.** -/
theorem step_csr {m : Machine} {insn : SystemInsn} (hcsr : isCsrInsn insn = true)
    (hhas : Core.hasCsr (insn.csr.setWidth 32) = true) :
    step (.system insn) m =
      match m.mem.get32 m.core.pc with
      | .error fault => .error fault m
      | .ok rawInsn =>
        match csrLoop m.core insn with
        | .error fault core => .error fault { m with core := core }
        | .ok rest core =>
          .ok (some (commitOf m rawInsn
              (rdWrites insn.rd (m.core.getCsr (Csr.ofNum (insn.csr.setWidth 32))) ++ rest)
              (csrStep m.core insn)))
            { m with core := core } := by
  have hx : execute m.core m.mem (.system insn) = .ok (.normal (csrStep m.core insn)) :=
    executeSystem_of_csr hcsr hhas
  rw [step_of_normal hx]
  cases m.mem.get32 m.core.pc with
  | error fault => rfl
  | ok rawInsn =>
    dsimp only
    rw [finalRegWrites_csrStep, writeRegs_append, writeRegs_rdWrites]
    dsimp only
    rw [show csrPart m.core insn ++ dirtyFsWrites m.core (csrPart m.core insn) =
      csrRest m.core (insn.csr.setWidth 32) (csrWritesBack insn) (csrNewValue m.core insn)
      from rfl, ← csrLoop]
    cases csrLoop m.core insn <;> rfl

/-- The outcomes agree outside the source register, which counts again once it
holds the result of the instruction. -/
def SameOutcome (rs rd : RegIndex) :
    EStateM.Result Fault Machine (Option Commit) →
      EStateM.Result Fault Machine (Option Commit) → Prop
  | .ok _ m, .ok _ m' => AgreeOn (fun i => i ≠ rs ∨ i = rd) m.core m'.core ∧ m'.mem = m.mem
  | .error fault m, .error fault' m' =>
      fault = fault' ∧ AgreeOn (fun i => i ≠ rs) m.core m'.core ∧ m'.mem = m.mem
  | _, _ => False

section

variable {m : Machine} {op : CsrOp} {csr : BitVec 12} {uimm : BitVec 5} {rs rd : RegIndex}

/-- The machine of the register form. -/
def Machine.withSource (m : Machine) (rs : RegIndex) (uimm : BitVec 5) : Machine :=
  { m with core := ZincSim.withSource m.core rs uimm }

/-- Forms that ask for the same effect have agreeing loops. -/
theorem csrLoop_agrees (hrs : rs = 0 ↔ uimm = 0)
    (heffect : List.Forall₂ SameEffect
      (csrRest m.core (csr.setWidth 32) (csrWritesBack (immForm op csr uimm rd))
        (csrNewValue m.core (immForm op csr uimm rd)))
      (csrRest m.core (csr.setWidth 32) (csrWritesBack (immForm op csr uimm rd))
        (csrNewValue (withSource m.core rs uimm) (regForm op csr rs rd)))) :
    LoopAgrees (fun i => i ≠ rs ∨ i = rd) (csrLoop m.core (immForm op csr uimm rd))
      (csrLoop (withSource m.core rs uimm) (regForm op csr rs rd)) := by
  have hagree := agreeOn_withSource m.core rs uimm
  have hold : (withSource m.core rs uimm).getCsr (Csr.ofNum (csr.setWidth 32)) =
      m.core.getCsr (Csr.ofNum (csr.setWidth 32)) := Core.getCsr_congr (by rw [hagree.csrs])
  have hadvance : AgreeOn (fun i => i ≠ rs)
      (advance m.core (csrStep m.core (immForm op csr uimm rd)))
      (advance (withSource m.core rs uimm)
        (csrStep (withSource m.core rs uimm) (regForm op csr rs rd))) :=
    ⟨hagree.priv, congrArg (· + 4) hagree.pc, hagree.gprs, hagree.fprs, hagree.csrs⟩
  -- the register form asks for the same list, from the core with the source set
  have hreg : csrLoop (withSource m.core rs uimm) (regForm op csr rs rd) =
      writeRegs (csrRest m.core (csr.setWidth 32) (csrWritesBack (immForm op csr uimm rd))
        (csrNewValue (withSource m.core rs uimm) (regForm op csr rs rd)))
        ((advance (withSource m.core rs uimm)
          (csrStep (withSource m.core rs uimm) (regForm op csr rs rd))).setGpr rd
          (m.core.getCsr (Csr.ofNum (csr.setWidth 32)))) := by
    rw [← hold, ← csrWritesBack_forms op csr hrs, ← csrRest_congr hagree.csrs]
    rfl
  rw [hreg]
  have himm : csrLoop m.core (immForm op csr uimm rd) = _ := writeRegs_congr heffect _
  rw [himm]
  exact writeRegs_agree (fun _ hmem => csrRest_type hmem) (hadvance.setGpr rd _)

/-- Agreeing loops make agreeing steps. -/
theorem sameOutcome_of_loops (hhas : Core.hasCsr (csr.setWidth 32) = true)
    (hloops : LoopAgrees (fun i => i ≠ rs ∨ i = rd) (csrLoop m.core (immForm op csr uimm rd))
      (csrLoop (withSource m.core rs uimm) (regForm op csr rs rd))) :
    SameOutcome rs rd (step (.system (immForm op csr uimm rd)) m)
      (step (.system (regForm op csr rs rd)) (m.withSource rs uimm)) := by
  have hagree := agreeOn_withSource m.core rs uimm
  -- both steps fetch the raw word at the same pc
  have hfetch : (m.withSource rs uimm).mem.get32 (m.withSource rs uimm).core.pc =
      m.mem.get32 m.core.pc := congrArg m.mem.get32 hagree.pc
  rw [step_csr (isCsrInsn_immForm ..) hhas, step_csr (isCsrInsn_regForm ..) hhas, hfetch]
  cases m.mem.get32 m.core.pc with
  | error fault => exact ⟨rfl, hagree, rfl⟩
  | ok rawInsn =>
    dsimp only
    revert hloops
    rw [show (m.withSource rs uimm).core = withSource m.core rs uimm from rfl]
    cases csrLoop m.core (immForm op csr uimm rd) <;>
      cases csrLoop (withSource m.core rs uimm) (regForm op csr rs rd) <;> intro hloops
    · exact ⟨hloops.2, rfl⟩
    · exact hloops
    · exact hloops
    · obtain ⟨hfault, hcore⟩ := hloops
      exact ⟨hfault, ⟨hcore.priv, hcore.pc, fun i hi => hcore.gprs i (.inl hi), hcore.fprs,
        hcore.csrs⟩, rfl⟩

/-- Forms that agree on the value, or on its low half where there is no other. -/
theorem csrLoop_agrees_of (hrs : rs = 0 ↔ uimm = 0)
    (h : op ≠ .clear ∨ uimm = 0 ∨
      (m.core.getCsr (Csr.ofNum (csr.setWidth 32))).toNat < 2 ^ 32 ∨
      csr ∈ [0x001, 0x002, 0x003, 0x300]) :
    LoopAgrees (fun i => i ≠ rs ∨ i = rd) (csrLoop m.core (immForm op csr uimm rd))
      (csrLoop (withSource m.core rs uimm) (regForm op csr rs rd)) := by
  refine csrLoop_agrees hrs ?_
  by_cases hop : op = .clear
  · subst hop
    have hlow := csrNewValue_clear m.core csr uimm rd hrs
    rcases h with hne | hzero | hsmall | hcsr
    · exact absurd rfl hne
    · -- `uimm = 0`: neither form writes back
      rw [show csrWritesBack (immForm .clear csr uimm rd) = false by rw [hzero]; rfl]
      exact forall₂_sameEffect_refl _
    · -- the high half is zero already: CSRRCI computes what CSRRC does
      have hvalue := (csrrci_clears_iff m.core csr uimm rd).mpr hsmall
      have hreg : csrNewValue (withSource m.core rs uimm) (regForm .clear csr rs rd) =
          m.core.getCsr (Csr.ofNum (csr.setWidth 32)) &&& ~~~(uimm.setWidth 64) := by
        show (withSource m.core rs uimm).getCsr (Csr.ofNum (csr.setWidth 32)) &&&
          ~~~(withSource m.core rs uimm).getGpr rs = _
        rw [withSource_source _ hrs,
          Core.getCsr_congr (congrFun (agreeOn_withSource m.core rs uimm).csrs _)]
      rw [hvalue, hreg]
      exact forall₂_sameEffect_refl _
    · -- the CSR has no high half: the two values have the same effect
      refine csrRest_low hcsr ?_ _ _
      rw [hlow, BitVec.and_assoc, BitVec.and_self]
  · rw [csrNewValue_eq m.core op csr uimm rd hrs hop]
    exact forall₂_sameEffect_refl _

/-- The CSRs outside `[fflags, frm, fcsr, mstatus]` keep every high bit that is
written to them. -/
theorem storedEntry_high {core : Core} (hcsr : csr ∉ [0x001, 0x002, 0x003, 0x300])
    (value : BitVec 64) :
    core.storedEntry (Csr.ofNum (csr.setWidth 32)) value &&& ~~~lowHalf =
      value &&& ~~~lowHalf := by
  have hne (c : BitVec 12) (hc : c ∈ [0x001, 0x002, 0x003, (0x300 : BitVec 12)]) :
      Csr.ofNum (csr.setWidth 32) ≠ Csr.ofNum (c.setWidth 32) := by
    intro heq
    have hnum := congrArg Csr.num heq
    rw [Csr.num_ofNum, Csr.num_ofNum] at hnum
    rw [csrNum_inj hnum] at hcsr
    exact hcsr hc
  have hfflags := hne 0x001 (by simp)
  have hfrm := hne 0x002 (by simp)
  have hfcsr := hne 0x003 (by simp)
  have hmstatus := hne 0x300 (by simp)
  revert hfflags hfrm hfcsr hmstatus
  cases Csr.ofNum (csr.setWidth 32) <;> intro hfflags hfrm hfcsr hmstatus
  case fflags => exact absurd rfl hfflags
  case frm => exact absurd rfl hfrm
  case fcsr => exact absurd rfl hfcsr
  case mstatus => exact absurd rfl hmstatus
  case mepc | mtvec => exact BitField.clear_and_of_disjoint _ _ _ (by decide)
  all_goals rfl

/-- On such a CSR the loop stores the high half of the value. -/
theorem csrLoop_high (hhas : Core.hasCsr (csr.setWidth 32) = true) (hne : csr ≠ 0xf14)
    (hcsr : csr ∉ [0x001, 0x002, 0x003, 0x300]) (core : Core) (insn : SystemInsn)
    (hnum : insn.csr = csr) (hwb : csrWritesBack insn = true) :
    ∃ rest core', csrLoop core insn = .ok rest core' ∧
      core'.csrs (Csr.ofNum (csr.setWidth 32)).slot &&& ~~~lowHalf =
        csrNewValue core insn &&& ~~~lowHalf := by
  have hw : (Csr.ofNum (csr.setWidth 32)).writable = true :=
    writable_of_hasCsr hhas fun heq => hne (csrNum_inj heq)
  -- fcsr and the CSRs that set FS are not among them, so there is one write only
  have hrest : csrRest core (insn.csr.setWidth 32) (csrWritesBack insn)
      (csrNewValue core insn) = _ := csrPart_of_not_fp hwb (by
        rw [hnum]
        exact fun hmem => hcsr (by simp only [List.mem_cons] at hmem ⊢; tauto))
  generalize hstart : (advance core (csrStep core insn)).setGpr insn.rd
    (core.getCsr (Csr.ofNum (insn.csr.setWidth 32))) = start
  have hone : writeReg start (csrWrite (csr.setWidth 32) (csrNewValue core insn)) =
      .ok (⟨.csr, csr.setWidth 32,
          start.loggedValue (Csr.ofNum (csr.setWidth 32)) (csrNewValue core insn)⟩,
        start.withCsr (Csr.ofNum (csr.setWidth 32)) (csrNewValue core insn)) := by
    simp only [writeReg, csrWrite, Core.setCsr_of_writable start _ _ hw]
    rfl
  refine ⟨[⟨.csr, csr.setWidth 32,
      start.loggedValue (Csr.ofNum (csr.setWidth 32)) (csrNewValue core insn)⟩],
    start.withCsr (Csr.ofNum (csr.setWidth 32)) (csrNewValue core insn), ?_, ?_⟩
  · rw [csrLoop, hrest, hstart, hnum, writeRegs_cons, hone]
    rfl
  · rw [Core.withCsr_csrs_slot, storedEntry_high hcsr]

/-- CSRRCI that clears high bits which the CSR holds and keeps. -/
theorem not_sameOutcome (hhas : Core.hasCsr (csr.setWidth 32) = true) (hne : csr ≠ 0xf14)
    (hrs : rs = 0 ↔ uimm = 0) (huimm : uimm ≠ 0)
    (hhigh : ¬ (m.core.getCsr (Csr.ofNum (csr.setWidth 32))).toNat < 2 ^ 32)
    (hcsr : csr ∉ [0x001, 0x002, 0x003, 0x300]) {rawInsn : BitVec 32}
    (hfetch : m.mem.get32 m.core.pc = .ok rawInsn) :
    ¬ SameOutcome rs rd (step (.system (immForm .clear csr uimm rd)) m)
      (step (.system (regForm .clear csr rs rd)) (m.withSource rs uimm)) := by
  obtain ⟨rest, core, himm, himm_high⟩ := csrLoop_high hhas hne hcsr m.core
    (immForm .clear csr uimm rd) rfl (bne_iff_ne.mpr huimm)
  obtain ⟨rest', core', hreg, hreg_high⟩ := csrLoop_high hhas hne hcsr (withSource m.core rs uimm)
    (regForm .clear csr rs rd) rfl (bne_iff_ne.mpr (mt hrs.mp huimm))
  have hagree := agreeOn_withSource m.core rs uimm
  have hfetch' : (m.withSource rs uimm).mem.get32 (m.withSource rs uimm).core.pc =
      .ok rawInsn := (congrArg m.mem.get32 hagree.pc).trans hfetch
  rw [step_csr (isCsrInsn_immForm ..) hhas, step_csr (isCsrInsn_regForm ..) hhas, hfetch,
    hfetch', himm, show (m.withSource rs uimm).core = withSource m.core rs uimm from rfl, hreg]
  rintro ⟨hcores, -⟩
  -- equal entries would have equal high halves: the old one, and zero
  have hcsrs : core'.csrs = core.csrs := hcores.csrs
  rw [hcsrs, himm_high] at hreg_high
  have hold : csrNewValue (withSource m.core rs uimm) (regForm .clear csr rs rd) &&& ~~~lowHalf =
      m.core.getCsr (Csr.ofNum (csr.setWidth 32)) &&& ~~~lowHalf := by
    show ((withSource m.core rs uimm).getCsr (Csr.ofNum (csr.setWidth 32)) &&&
      ~~~(withSource m.core rs uimm).getGpr rs) &&& ~~~lowHalf = _
    rw [withSource_source _ hrs, Core.getCsr_congr (congrFun hagree.csrs _),
      BitField.clear_and_of_disjoint _ _ _ (uimm_low uimm)]
  rw [hold, csrNewValue_clear m.core csr uimm rd hrs, BitVec.and_assoc] at hreg_high
  refine hhigh ((BitField.and_lowMask_eq_iff _ 32 (by decide)).mp
    (BitField.and_eq_self_iff.mpr (hreg_high.symm.trans ?_)))
  rw [show lowHalf &&& ~~~lowHalf = 0#64 by decide, BitVec.and_zero]
  rfl

end

/-! ## §6. When the forms agree -/

/-- The immediate form agrees with the register form, and CSRRCI clears no bit but
those of `uimm` before `set_csr` masks the value. -/
structure FormsAgree (m : Machine) (op : CsrOp) (csr : BitVec 12) (uimm : BitVec 5)
    (rs rd : RegIndex) : Prop where
  outcome : SameOutcome rs rd (step (.system (immForm op csr uimm rd)) m)
    (step (.system (regForm op csr rs rd)) (m.withSource rs uimm))
  clears : op = .clear → uimm ≠ 0 → csrNewValue m.core (immForm .clear csr uimm rd) =
    m.core.getCsr (Csr.ofNum (csr.setWidth 32)) &&& ~~~(uimm.setWidth 64)

section

variable (m : Machine) (op : CsrOp) {csr : BitVec 12} {uimm : BitVec 5} {rs : RegIndex}
  (rd : RegIndex) (hhas : Core.hasCsr (csr.setWidth 32) = true)
  (hrs : rs = 0 ↔ uimm = 0)

include hhas hrs

/-- Where the value agrees, so does the outcome. -/
theorem formsAgree_value_iff :
    FormsAgree m op csr uimm rs rd ↔
      op ≠ .clear ∨ uimm = 0 ∨
        (m.core.getCsr (Csr.ofNum (csr.setWidth 32))).toNat < 2 ^ 32 := by
  constructor
  · intro h
    by_cases hop : op = .clear
    · by_cases huimm : uimm = 0
      · exact .inr (.inl huimm)
      · exact .inr (.inr ((csrrci_clears_iff m.core csr uimm rd).mp (h.clears hop huimm)))
    · exact .inl hop
  · intro h
    refine ⟨sameOutcome_of_loops hhas (csrLoop_agrees_of hrs ?_), fun hop huimm => ?_⟩
    · rcases h with h | h | h
      · exact .inl h
      · exact .inr (.inl h)
      · exact .inr (.inr (.inl h))
    · rcases h with h | h | h
      · exact absurd hop h
      · exact absurd h huimm
      · exact (csrrci_clears_iff m.core csr uimm rd).mpr h

/-- The outcome agrees also where the high half is dropped, or nothing is executed. -/
theorem sameOutcome_iff (hne : csr ≠ 0xf14) :
    SameOutcome rs rd (step (.system (immForm op csr uimm rd)) m)
        (step (.system (regForm op csr rs rd)) (m.withSource rs uimm)) ↔
      op ≠ .clear ∨ uimm = 0 ∨
        (m.core.getCsr (Csr.ofNum (csr.setWidth 32))).toNat < 2 ^ 32 ∨
        csr ∈ [0x001, 0x002, 0x003, 0x300] ∨
        ∃ fault, m.mem.get32 m.core.pc = .error fault := by
  constructor
  · intro h
    by_contra hnot
    rw [not_or, not_or, not_or, not_or] at hnot
    obtain ⟨hop, huimm, hhigh, hcsr, hfetch⟩ := hnot
    cases hraw : m.mem.get32 m.core.pc with
    | error fault => exact hfetch ⟨fault, hraw⟩
    | ok rawInsn =>
      rw [not_not] at hop
      subst hop
      exact not_sameOutcome hhas hne hrs huimm hhigh hcsr hraw h
  · intro h
    have hloops (h : op ≠ .clear ∨ uimm = 0 ∨
        (m.core.getCsr (Csr.ofNum (csr.setWidth 32))).toNat < 2 ^ 32 ∨
        csr ∈ [0x001, 0x002, 0x003, 0x300]) :
        SameOutcome rs rd (step (.system (immForm op csr uimm rd)) m)
          (step (.system (regForm op csr rs rd)) (m.withSource rs uimm)) :=
      sameOutcome_of_loops hhas (csrLoop_agrees_of hrs h)
    rcases h with h | h | h | h | ⟨fault, hraw⟩
    · exact hloops (.inl h)
    · exact hloops (.inr (.inl h))
    · exact hloops (.inr (.inr (.inl h)))
    · exact hloops (.inr (.inr (.inr h)))
    · -- the fetch of the raw word fails on both sides, before any write
      have hagree := agreeOn_withSource m.core rs uimm
      have hraw' : (m.withSource rs uimm).mem.get32 (m.withSource rs uimm).core.pc =
          .error fault := (congrArg m.mem.get32 hagree.pc).trans hraw
      rw [step_csr (isCsrInsn_immForm ..) hhas, step_csr (isCsrInsn_regForm ..) hhas, hraw,
        hraw']
      exact ⟨rfl, hagree, rfl⟩

end

/-- **The immediate forms agree with the register forms**, except CSRRCI of a
nonzero immediate on a CSR with a bit above bit 31.  The states after such a
CSRRCI still agree when `set_csr` drops the high bits, or when the fetch inside
`step` fails. -/
theorem formsAgree_iff (m : Machine) (op : CsrOp) {csr : BitVec 12} {uimm : BitVec 5}
    {rs : RegIndex} (rd : RegIndex) (hhas : Core.hasCsr (csr.setWidth 32) = true)
    (hne : csr ≠ 0xf14) (hrs : rs = 0 ↔ uimm = 0) :
    (FormsAgree m op csr uimm rs rd ↔
      (op ≠ .clear ∨ uimm = 0 ∨
        (m.core.getCsr (Csr.ofNum (csr.setWidth 32))).toNat < 2 ^ 32)) ∧
    (SameOutcome rs rd (step (.system (immForm op csr uimm rd)) m)
        (step (.system (regForm op csr rs rd)) (m.withSource rs uimm)) ↔
      (op ≠ .clear ∨ uimm = 0 ∨
        (m.core.getCsr (Csr.ofNum (csr.setWidth 32))).toNat < 2 ^ 32 ∨
        csr ∈ [0x001, 0x002, 0x003, 0x300] ∨
        ∃ fault, m.mem.get32 m.core.pc = .error fault)) :=
  ⟨formsAgree_value_iff m op rd hhas hrs, sameOutcome_iff m op rd hhas hrs hne⟩

/-- `csrrsi x1, mscratch, 3` agrees with `csrrs x1, mscratch, x2` where x2 = 3. -/
theorem formsAgree_csrrsi : FormsAgree (Machine.boot [0x3401e0f3]) .set 0x340 3 2 1 :=
  (formsAgree_iff (Machine.boot [0x3401e0f3]) .set 1 (by decide) (by decide) (by decide)).1.mpr
    (.inl (by decide))

/-- `lui x1, 0x80000; csrrw x0, mscratch, x1` sets the high half of mscratch, which
`csrrci x0, mscratch, 1` then clears and `csrrc x0, mscratch, x2` with x2 = 1
keeps. -/
theorem csrrci_clears_high_half :
    ¬ ∀ m op (csr : BitVec 12) uimm rs rd, Core.hasCsr (csr.setWidth 32) = true →
      csr ≠ 0xf14 → (rs = 0 ↔ uimm = 0) →
      SameOutcome rs rd (step (.system (immForm op csr uimm rd)) m)
        (step (.system (regForm op csr rs rd)) (m.withSource rs uimm)) := by
  intro h
  have hrun : (runWords [0x800000b7, 0x34009073]
      (Machine.boot [0x800000b7, 0x34009073, 0x3400f073])).any (fun m =>
        !decide ((m.core.getCsr (Csr.ofNum 0x340)).toNat < 2 ^ 32) &&
          decide (m.mem.get32 m.core.pc = .ok 0x3400f073)) = true := by decide +kernel
  obtain ⟨m, -, hp⟩ := (Option.any_eq_true ..).mp hrun
  simp only [Bool.and_eq_true, Bool.not_eq_true', decide_eq_false_iff_not,
    decide_eq_true_eq] at hp
  have hdiffer : ¬ SameOutcome 2 0 (step (.system (immForm .clear 0x340 1 0)) m)
      (step (.system (regForm .clear 0x340 2 0)) (m.withSource 2 1)) :=
    not_sameOutcome (by decide) (by decide) (by decide) (by decide) hp.1 (by decide) hp.2
  exact hdiffer (h m .clear 0x340 1 2 0 (by decide) (by decide) (by decide))

end ZincSim
