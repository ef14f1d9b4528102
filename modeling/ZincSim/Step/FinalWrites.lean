/-
  ZincSim.Step.FinalWrites — the list the write-back loop really runs over.

  `Executor::step` rewrites the list that `execute` returned: writes of x0 are
  dropped, a write of fcsr is split, and a write of mstatus may be appended.
  `mem_finalRegWrites` says where an element of the final list comes from, and
  `finalRegWrites_csrStep`, `_mret`, `_x` and `_f` are the closed forms for the
  kinds of result of `execute_normal_cases`.
-/
import ZincSim.Step.Writes
import ZincSim.Step.WriteBack

namespace ZincSim

/-! ## §1. The single rewrites -/

@[simp] theorem xWrite_type (rd : RegIndex) (value : BitVec 64) :
    (xWrite rd value).type = .x := rfl
@[simp] theorem fWrite_type (rd : RegIndex) (value : BitVec 64) :
    (fWrite rd value).type = .f := rfl
@[simp] theorem csrWrite_type (num : BitVec 32) (value : BitVec 64) :
    (csrWrite num value).type = .csr := rfl
@[simp] theorem csrWrite_num (num : BitVec 32) (value : BitVec 64) :
    (csrWrite num value).num = num := rfl

theorem xWrite_num (rd : RegIndex) (value : BitVec 64) : (xWrite rd value).num.toNat < 32 := by
  show (rd.setWidth 32).toNat < 32
  rw [BitVec.toNat_setWidth]
  omega

theorem setWidth_rd (rd : RegIndex) : (rd.setWidth 32).setWidth 5 = rd := by
  apply BitVec.eq_of_toNat_eq
  rw [BitVec.toNat_setWidth, BitVec.toNat_setWidth]
  omega

/-- CSR numbers keep apart when they are widened. -/
theorem csrNum_inj {csr csr' : BitVec 12}
    (h : (csr.setWidth 32 : BitVec 32) = csr'.setWidth 32) : csr = csr' :=
  BitField.setWidth_inj (by decide) h

theorem isX0Write_xWrite (rd : RegIndex) (value : BitVec 64) :
    isX0Write (xWrite rd value) = (rd == 0) := by
  have hnum : (xWrite rd value).num.setWidth 5 = rd := setWidth_rd rd
  by_cases h : rd = 0
  · subst h
    rfl
  · rw [beq_eq_false_iff_ne.mpr h, isX0Write, Bool.and_eq_false_iff]
    -- `write.num == 0` is on the 32-bit number, which determines the register
    refine .inr (beq_eq_false_iff_ne.mpr fun hzero => h ?_)
    rw [← hnum, hzero]
    rfl

/-- The write of rd that remains once writes of x0 are dropped. -/
def rdWrites (rd : RegIndex) (value : BitVec 64) : List RegWrite :=
  if rd = 0 then [] else [xWrite rd value]

theorem dropX0Writes_cons_xWrite (rd : RegIndex) (value : BitVec 64) (writes : List RegWrite) :
    dropX0Writes (xWrite rd value :: writes) = rdWrites rd value ++ dropX0Writes writes := by
  unfold dropX0Writes rdWrites
  rw [List.filter_cons, isX0Write_xWrite]
  by_cases h : rd = 0
  · rw [h]
    rfl
  · rw [beq_eq_false_iff_ne.mpr h, if_neg h]
    rfl

theorem dropX0Writes_append (writes writes' : List RegWrite) :
    dropX0Writes (writes ++ writes') = dropX0Writes writes ++ dropX0Writes writes' :=
  List.filter_append ..

@[simp] theorem dropX0Writes_csrWrite (num : BitVec 32) (value : BitVec 64) :
    dropX0Writes [csrWrite num value] = [csrWrite num value] := rfl

@[simp] theorem dropX0Writes_flagWrites (flags : Option (BitVec 64)) :
    dropX0Writes (flagWrites flags) = flagWrites flags := by
  cases flags <;> rfl

theorem expandFcsrWrites_append (writes writes' : List RegWrite) :
    expandFcsrWrites (writes ++ writes') =
      expandFcsrWrites writes ++ expandFcsrWrites writes' :=
  List.flatMap_append

@[simp] theorem expandFcsrWrites_rdWrites (rd : RegIndex) (value : BitVec 64) :
    expandFcsrWrites (rdWrites rd value) = rdWrites rd value := by
  unfold rdWrites
  split <;> rfl

@[simp] theorem expandFcsrWrites_flagWrites (flags : Option (BitVec 64)) :
    expandFcsrWrites (flagWrites flags) = flagWrites flags := by
  cases flags <;> rfl

theorem expandFcsrWrites_csrWrite (num : BitVec 32) (value : BitVec 64) :
    expandFcsrWrites [csrWrite num value] = expandFcsrWrite (csrWrite num value) :=
  List.append_nil _

theorem expandFcsrWrite_of_ne {num : BitVec 32} (h : num ≠ Csr.fcsr.num) (value : BitVec 64) :
    expandFcsrWrite (csrWrite num value) = [csrWrite num value] :=
  if_neg fun hc => h hc.2

@[simp] theorem writesFpState_append (writes writes' : List RegWrite) :
    writesFpState (writes ++ writes') = (writesFpState writes || writesFpState writes') :=
  List.any_append

@[simp] theorem writesFpState_rdWrites (rd : RegIndex) (value : BitVec 64) :
    writesFpState (rdWrites rd value) = false := by
  unfold rdWrites
  split <;> rfl

/-! ## §2. Where a final write comes from -/

/-- The only write that `step` appends. -/
theorem eq_of_mem_dirtyFsWrites {core : Core} {writes : List RegWrite} {write : RegWrite}
    (h : write ∈ dirtyFsWrites core writes) :
    write = csrWrite Csr.mstatus.num (dirtyMstatus (core.getCsr .mstatus)) := by
  unfold dirtyFsWrites at h
  dsimp only at h
  split at h
  · exact List.mem_singleton.mp h
  · exact absurd h List.not_mem_nil

/-- The appended write depends on mstatus alone. -/
theorem dirtyFsWrites_congr {core core' : Core} (h : core'.csrs = core.csrs)
    (writes : List RegWrite) : dirtyFsWrites core' writes = dirtyFsWrites core writes := by
  have hmstatus : core'.getCsr .mstatus = core.getCsr .mstatus :=
    Core.getCsr_congr (congrFun h _)
  rw [dirtyFsWrites, dirtyFsWrites, hmstatus]

/-- **A final write** was asked for, or is a half of a write of fcsr, or is the
FS = Dirty write of mstatus. -/
theorem mem_finalRegWrites {core : Core} {writes : List RegWrite} {write : RegWrite}
    (h : write ∈ finalRegWrites core writes) :
    (write ∈ writes ∧ isX0Write write = false ∧
      ¬ (write.type = .csr ∧ write.num = Csr.fcsr.num)) ∨
    (∃ whole ∈ writes, whole.type = .csr ∧ whole.num = Csr.fcsr.num ∧
      (write = csrWrite Csr.fflags.num (whole.value &&& 0x1f) ∨
        write = csrWrite Csr.frm.num ((whole.value >>> 5) &&& 0x7#64))) ∨
    write = csrWrite Csr.mstatus.num (dirtyMstatus (core.getCsr .mstatus)) := by
  rcases List.mem_append.mp h with h | h
  · obtain ⟨whole, hwhole, hmem⟩ := List.mem_flatMap.mp h
    obtain ⟨hwhole, hx0⟩ := List.mem_filter.mp hwhole
    -- `whole` survived the filter; a write of fcsr leaves two, any other itself
    unfold expandFcsrWrite at hmem
    split at hmem
    next hfcsr =>
      refine .inr (.inl ⟨whole, hwhole, hfcsr.1, hfcsr.2, ?_⟩)
      simpa using hmem
    next hfcsr =>
      rw [List.mem_singleton] at hmem
      subst hmem
      exact .inl ⟨hwhole, by simpa using hx0, hfcsr⟩
  · exact .inr (.inr (eq_of_mem_dirtyFsWrites h))

/-- The CSR numbers that a final list can write, given those asked for. -/
theorem csr_mem_finalRegWrites {core : Core} {writes : List RegWrite} {write : RegWrite}
    (h : write ∈ finalRegWrites core writes) (hcsr : write.type = .csr) :
    write ∈ writes ∨
    ((∃ whole ∈ writes, whole.type = .csr ∧ whole.num = Csr.fcsr.num) ∧
      (write.num = Csr.fflags.num ∨ write.num = Csr.frm.num)) ∨
    write = csrWrite Csr.mstatus.num (dirtyMstatus (core.getCsr .mstatus)) := by
  rcases mem_finalRegWrites h with ⟨h, -⟩ | ⟨whole, hmem, htype, hnum, hw⟩ | h
  · exact .inl h
  · refine .inr (.inl ⟨⟨whole, hmem, htype, hnum⟩, ?_⟩)
    rcases hw with rfl | rfl
    · exact .inl rfl
    · exact .inr rfl
  · exact .inr (.inr h)

/-- The CSR writes of a plain result: fflags, and mstatus made Dirty. -/
theorem PlainWrites.csr_mem {writes : List RegWrite} (h : PlainWrites writes) {core : Core}
    {write : RegWrite} (hmem : write ∈ finalRegWrites core writes) (hcsr : write.type = .csr) :
    write.num = Csr.fflags.num ∨
      write = csrWrite Csr.mstatus.num (dirtyMstatus (core.getCsr .mstatus)) := by
  -- the only CSR write that is asked for is the accrual of fflags
  have hasked (w : RegWrite) (hw : w ∈ writes) (hc : w.type = .csr) :
      w.num = Csr.fflags.num := by
    have hflag (flags : Option (BitVec 64)) (hf : w ∈ flagWrites flags) :
        w.num = Csr.fflags.num := by
      obtain ⟨value, -, rfl⟩ := List.mem_map.mp hf
      rfl
    cases h with
    | none => exact absurd hw List.not_mem_nil
    | x flags rd value | f flags rd value word =>
      rcases List.mem_append.mp hw with hf | hr
      · exact hflag flags hf
      · rw [List.mem_singleton.mp hr] at hc
        cases hc
  rcases csr_mem_finalRegWrites hmem hcsr with h' | ⟨⟨whole, hw, hc, hnum⟩, -⟩ | h'
  · exact .inl (hasked write h' hcsr)
  · -- so no write of fcsr was there to be split
    rw [hasked whole hw hc] at hnum
    exact absurd hnum (by decide)
  · exact .inr h'

/-- The CSR writes of a CSR instruction: its CSR, the halves of fcsr, and
mstatus made Dirty. -/
theorem csrStep_csr_mem {core : Core} {insn : SystemInsn} {write : RegWrite}
    (hmem : write ∈ finalRegWrites core (csrStep core insn).regWrites)
    (hcsr : write.type = .csr) :
    (csrWritesBack insn = true ∧
      write = csrWrite (insn.csr.setWidth 32) (csrNewValue core insn)) ∨
    ((csrWritesBack insn = true ∧ insn.csr = 0x003) ∧
      (write.num = Csr.fflags.num ∨ write.num = Csr.frm.num)) ∨
    write = csrWrite Csr.mstatus.num (dirtyMstatus (core.getCsr .mstatus)) := by
  have hasked (w : RegWrite) (hw : w ∈ (csrStep core insn).regWrites) (hc : w.type = .csr) :
      csrWritesBack insn = true ∧
        w = csrWrite (insn.csr.setWidth 32) (csrNewValue core insn) := by
    rcases List.mem_cons.mp hw with rfl | hw
    · cases hc
    · split at hw
      next hwb => exact ⟨hwb, List.mem_singleton.mp hw⟩
      · exact absurd hw List.not_mem_nil
  rcases csr_mem_finalRegWrites hmem hcsr with h' | ⟨⟨whole, hw, hc, hnum⟩, hhalf⟩ | h'
  · exact .inl (hasked write h' hcsr)
  · obtain ⟨hwb, rfl⟩ := hasked whole hw hc
    exact .inr (.inl ⟨⟨hwb, csrNum_inj hnum⟩, hhalf⟩)
  · exact .inr (.inr h')

/-! ## §3. Closed forms -/

/-- What a plain X result leaves of its list, before mstatus is made Dirty. -/
theorem expandFcsrWrites_x (flags : Option (BitVec 64)) (rd : RegIndex) (value : BitVec 64) :
    expandFcsrWrites (dropX0Writes (flagWrites flags ++ [xWrite rd value])) =
      flagWrites flags ++ rdWrites rd value := by
  rw [dropX0Writes_append, dropX0Writes_flagWrites, dropX0Writes_cons_xWrite,
    expandFcsrWrites_append, expandFcsrWrites_append, expandFcsrWrites_flagWrites,
    expandFcsrWrites_rdWrites]
  exact congrArg (flagWrites flags ++ ·) (List.append_nil _)

/-- The final list of a plain X result. -/
theorem finalRegWrites_x (core : Core) (flags : Option (BitVec 64)) (rd : RegIndex)
    (value : BitVec 64) :
    finalRegWrites core (flagWrites flags ++ [xWrite rd value]) =
      flagWrites flags ++ rdWrites rd value ++ dirtyFsWrites core (flagWrites flags) := by
  -- a write of an X register makes no floating-point state dirty
  unfold finalRegWrites
  dsimp only
  rw [expandFcsrWrites_x]
  simp [dirtyFsWrites]

/-- The final list of a result that writes one X register. -/
theorem finalRegWrites_ofX (core : Core) (rd : RegIndex) (value : BitVec 64) :
    finalRegWrites core [xWrite rd value] = rdWrites rd value := by
  have h := finalRegWrites_x core none rd value
  have hdirty : dirtyFsWrites core (flagWrites none) = [] := rfl
  rw [hdirty, List.append_nil] at h
  exact h

/-- The same for a plain F result. -/
theorem expandFcsrWrites_f (flags : Option (BitVec 64)) (rd : RegIndex) (value : BitVec 64) :
    expandFcsrWrites (dropX0Writes (flagWrites flags ++ [fWrite rd value])) =
      flagWrites flags ++ [fWrite rd value] := by
  rw [dropX0Writes_append, dropX0Writes_flagWrites, expandFcsrWrites_append,
    expandFcsrWrites_flagWrites]
  rfl

/-- The final list of a plain F result. -/
theorem finalRegWrites_f (core : Core) (flags : Option (BitVec 64)) (rd : RegIndex)
    (value : BitVec 64) :
    finalRegWrites core (flagWrites flags ++ [fWrite rd value]) =
      flagWrites flags ++ [fWrite rd value] ++ dirtyFsWrites core [fWrite rd value] := by
  unfold finalRegWrites
  dsimp only
  rw [expandFcsrWrites_f]
  simp [dirtyFsWrites, writesFpState, isFpStateWrite, fWrite]

/-- The CSR part of the final list of a CSR instruction. -/
def csrPart (core : Core) (insn : SystemInsn) : List RegWrite :=
  if csrWritesBack insn then
    expandFcsrWrite (csrWrite (insn.csr.setWidth 32) (csrNewValue core insn))
  else []

/-- The same for a CSR instruction. -/
theorem expandFcsrWrites_csrStep (core : Core) (insn : SystemInsn) :
    expandFcsrWrites (dropX0Writes (csrStep core insn).regWrites) =
      rdWrites insn.rd (core.getCsr (Csr.ofNum (insn.csr.setWidth 32))) ++
        csrPart core insn := by
  unfold csrStep csrRegWrites csrPart
  dsimp only
  rw [dropX0Writes_cons_xWrite, expandFcsrWrites_append, expandFcsrWrites_rdWrites]
  split
  · rw [dropX0Writes_csrWrite, expandFcsrWrites_csrWrite]
  · rfl

/-- The final list of a CSR instruction. -/
theorem finalRegWrites_csrStep (core : Core) (insn : SystemInsn) :
    finalRegWrites core (csrStep core insn).regWrites =
      rdWrites insn.rd (core.getCsr (Csr.ofNum (insn.csr.setWidth 32))) ++
        (csrPart core insn ++ dirtyFsWrites core (csrPart core insn)) := by
  unfold finalRegWrites
  dsimp only
  rw [expandFcsrWrites_csrStep, List.append_assoc]
  simp [dirtyFsWrites]

/-- A CSR instruction that writes a CSR outside the floating-point ones. -/
theorem csrPart_of_not_fp {core : Core} {insn : SystemInsn}
    (hwb : csrWritesBack insn = true) (hfp : insn.csr ∉ [0x001, 0x002, 0x003]) :
    csrPart core insn ++ dirtyFsWrites core (csrPart core insn) =
      [csrWrite (insn.csr.setWidth 32) (csrNewValue core insn)] := by
  have hne (n : BitVec 12) (hn : n ∈ [0x001, 0x002, (0x003 : BitVec 12)]) :
      insn.csr.setWidth 32 ≠ n.setWidth 32 := by
    intro heq
    rw [csrNum_inj heq] at hfp
    exact hfp hn
  have hfcsr : insn.csr.setWidth 32 ≠ Csr.fcsr.num := hne 0x003 (by simp)
  have hfflags : insn.csr.setWidth 32 ≠ Csr.fflags.num := hne 0x001 (by simp)
  have hfrm : insn.csr.setWidth 32 ≠ Csr.frm.num := hne 0x002 (by simp)
  have hpart : csrPart core insn =
      [csrWrite (insn.csr.setWidth 32) (csrNewValue core insn)] := by
    rw [csrPart, if_pos hwb, expandFcsrWrite_of_ne hfcsr]
  rw [hpart]
  simp [dirtyFsWrites, writesFpState, isFpStateWrite, csrWrite, hfflags, hfrm]

/-- MRET writes mstatus and nothing else. -/
theorem finalRegWrites_mret (core : Core) :
    finalRegWrites core (executeMret core).regWrites =
      [csrWrite Csr.mstatus.num (mretMstatus (core.getCsr .mstatus))] := rfl

/-! ## §4. Running the loop over a closed form -/

/-- Two loops in sequence. -/
theorem writeRegs_append (writes writes' : List RegWrite) (core : Core) :
    writeRegs (writes ++ writes') core =
      match writeRegs writes core with
      | .error fault core => .error fault core
      | .ok first mid =>
        match writeRegs writes' mid with
        | .error fault core => .error fault core
        | .ok rest core => .ok (first ++ rest) core := by
  induction writes generalizing core with
  | nil =>
    rw [List.nil_append, writeRegs_nil]
    dsimp only
    cases writeRegs writes' core <;> rfl
  | cons write writes ih =>
    rw [List.cons_append, writeRegs_cons, writeRegs_cons]
    cases writeReg core write with
    | error fault => rfl
    | ok p =>
      dsimp only
      rw [ih p.2]
      cases writeRegs writes p.2 with
      | error fault c => rfl
      | ok first mid =>
        dsimp only
        cases writeRegs writes' mid <;> rfl

theorem writeRegs_append_ok {writes writes' logged : List RegWrite} {core core' : Core}
    (h : writeRegs (writes ++ writes') core = .ok logged core') :
    ∃ mid first rest, writeRegs writes core = .ok first mid ∧
      writeRegs writes' mid = .ok rest core' ∧ logged = first ++ rest := by
  rw [writeRegs_append] at h
  split at h
  · cases h
  next first mid hfirst =>
    split at h
    · cases h
    next rest c hrest =>
      cases h
      exact ⟨mid, first, rest, hfirst, hrest, rfl⟩

/-- A loop over one CSR write. -/
theorem writeRegs_csr_ok {num : BitVec 32} {value : BitVec 64} {logged : List RegWrite}
    {core core' : Core} (h : writeRegs [csrWrite num value] core = .ok logged core') :
    (Csr.ofNum num).writable = true ∧ core' = core.withCsr (Csr.ofNum num) value ∧
      logged = [csrWrite num (core.loggedValue (Csr.ofNum num) value)] := by
  obtain ⟨first, mid, rest, hfirst, hrest, rfl⟩ := writeRegs_cons_ok h
  rw [writeRegs_nil] at hrest
  cases hrest
  rcases writeReg_ok_cases hfirst with ⟨htype, -⟩ | ⟨htype, -⟩ | ⟨-, hw, rfl, rfl⟩
  · cases htype
  · cases htype
  · exact ⟨hw, rfl, rfl⟩

/-- A loop over a write of rd. -/
theorem writeRegs_rdWrites (rd : RegIndex) (value : BitVec 64) (core : Core) :
    writeRegs (rdWrites rd value) core = .ok (rdWrites rd value) (core.setGpr rd value) := by
  unfold rdWrites
  by_cases h : rd = 0
  · rw [if_pos h, h, Core.setGpr_zero]
    rfl
  · rw [if_neg h, writeRegs_cons]
    have hone : writeReg core (xWrite rd value) =
        .ok (xWrite rd value, core.setGpr rd value) := by
      have hset : core.setGpr ((xWrite rd value).num.setWidth 5) value =
          core.setGpr rd value := by
        rw [show (xWrite rd value).num.setWidth 5 = rd from setWidth_rd rd]
      rw [← hset]
      exact if_pos (xWrite_num rd value)
    rw [hone]
    rfl

/-- CSR writes leave the register files alone. -/
theorem writeRegs_csr_frame {writes logged : List RegWrite} {core core' : Core}
    (h : writeRegs writes core = .ok logged core') (hcsr : ∀ write ∈ writes, write.type = .csr) :
    core'.gprs = core.gprs ∧ core'.fprs = core.fprs := by
  refine writeRegs_invariant (P := fun c => c.gprs = core.gprs ∧ c.fprs = core.fprs) ?_ h
    ⟨rfl, rfl⟩
  intro write hmem c c' first hc hw
  rcases writeReg_ok_cases hw with ⟨hx, -⟩ | ⟨hf, -⟩ | ⟨-, -, -, rfl⟩
  · rw [hcsr write hmem] at hx
    cases hx
  · rw [hcsr write hmem] at hf
    cases hf
  · exact hc

theorem flagWrites_type {flags : Option (BitVec 64)} {write : RegWrite}
    (h : write ∈ flagWrites flags) : write.type = .csr := by
  obtain ⟨value, -, rfl⟩ := List.mem_map.mp h
  rfl

theorem dirtyFsWrites_type {core : Core} {writes : List RegWrite} {write : RegWrite}
    (h : write ∈ dirtyFsWrites core writes) : write.type = .csr := by
  rw [eq_of_mem_dirtyFsWrites h]
  rfl

/-- A loop over a write of an F register. -/
theorem writeRegs_fWrite (rd : RegIndex) (value : BitVec 64) (core : Core) :
    writeRegs [fWrite rd value] core =
      .ok [fWrite rd value] (core.setFpr rd (value.setWidth 32)) := by
  have hone : writeReg core (fWrite rd value) =
      .ok (fWrite rd value, core.setFpr rd (value.setWidth 32)) := by
    have hset : core.setFpr ((fWrite rd value).num.setWidth 5) (value.setWidth 32) =
        core.setFpr rd (value.setWidth 32) := by
      rw [show (fWrite rd value).num.setWidth 5 = rd from setWidth_rd rd]
    rw [← hset]
    exact if_pos (xWrite_num rd value)
  rw [writeRegs_cons, hone]
  rfl

/-- **The register files after a plain F result**: only rd has changed. -/
theorem writeRegs_plain_f {core c c' : Core} {flags : Option (BitVec 64)} {rd : RegIndex}
    {value : BitVec 64} {logged : List RegWrite}
    (h : writeRegs (finalRegWrites core (flagWrites flags ++ [fWrite rd value])) c =
      .ok logged c') :
    c'.gprs = c.gprs ∧ c'.fprs = (c.setFpr rd (value.setWidth 32)).fprs := by
  rw [finalRegWrites_f, List.append_assoc] at h
  -- CSR writes before and after the write of rd
  obtain ⟨mid, first, rest, hflags, hrest, -⟩ := writeRegs_append_ok h
  obtain ⟨mid', second, dirty, hrd, hdirty, -⟩ := writeRegs_append_ok hrest
  rw [writeRegs_fWrite] at hrd
  cases hrd
  obtain ⟨hgprs, hfprs⟩ := writeRegs_csr_frame hflags fun _ => flagWrites_type
  obtain ⟨hgprs', hfprs'⟩ := writeRegs_csr_frame hdirty fun _ => dirtyFsWrites_type
  refine ⟨hgprs'.trans hgprs, hfprs'.trans ?_⟩
  rw [Core.setFpr, Core.setFpr, hfprs]

/-- What a plain result asks for is accepted. -/
theorem PlainWrites.accepted {writes : List RegWrite} (h : PlainWrites writes) {write : RegWrite}
    (hmem : write ∈ writes) : write.Accepted := by
  have hflag (flags : Option (BitVec 64)) (hf : write ∈ flagWrites flags) : write.Accepted := by
    obtain ⟨value, -, rfl⟩ := List.mem_map.mp hf
    rfl
  cases h with
  | none => exact absurd hmem List.not_mem_nil
  | x flags rd value =>
    rcases List.mem_append.mp hmem with hf | hr
    · exact hflag flags hf
    · rw [List.mem_singleton.mp hr]
      exact xWrite_num rd value
  | f flags rd value word =>
    rcases List.mem_append.mp hmem with hf | hr
    · exact hflag flags hf
    · rw [List.mem_singleton.mp hr]
      exact xWrite_num rd value

/-- A final list is accepted when the list asked for is. -/
theorem finalRegWrites_accepted (core : Core) {writes : List RegWrite}
    (h : ∀ write ∈ writes, write.Accepted) :
    ∀ write ∈ finalRegWrites core writes, write.Accepted := by
  intro write hmem
  rcases mem_finalRegWrites hmem with ⟨hw, -⟩ | ⟨whole, -, -, -, rfl | rfl⟩ | rfl
  · exact h write hw
  · rfl
  · rfl
  · rfl

/-- **A plain result is committed**, once the word at pc is there and the stores
succeed. -/
theorem step_of_plain {insn : DecodedInsn} {m : Machine} {nextPc : Option (BitVec 64)}
    {result : NormalStep} {rawInsn : BitVec 32} {mem : Memory}
    (hx : execute m.core m.mem insn = .ok (.normal result)) (hplain : result.Plain nextPc)
    (hraw : m.mem.get32 m.core.pc = .ok rawInsn)
    (hmems : writeMems result.memWrites m.mem = .ok () mem) :
    ∃ logged core, writeRegs (finalRegWrites m.core result.regWrites) (advance m.core result) =
        .ok logged core ∧
      step insn m = .ok (some (commitOf m rawInsn logged result)) { core := core, mem := mem } := by
  obtain ⟨logged, core, hregs⟩ := writeRegs_of_accepted
    (finalRegWrites_accepted m.core fun _ => hplain.regs.accepted) (advance m.core result)
  refine ⟨logged, core, hregs, ?_⟩
  rw [step_of_normal hx, hraw]
  simp only [hregs, hmems]

/-! ## §5. Entries the loop leaves alone -/

/-- An entry that no CSR write of the list addresses is unchanged. -/
theorem writeRegs_csrs_of_not_mem {writes logged : List RegWrite} {core core' : Core}
    {slot : BitVec 12} (h : writeRegs writes core = .ok logged core')
    (hslot : ∀ write ∈ writes, write.type = .csr → (Csr.ofNum write.num).writable = true →
      (Csr.ofNum write.num).slot ≠ slot) :
    core'.csrs slot = core.csrs slot := by
  refine writeRegs_invariant (P := fun c => c.csrs slot = core.csrs slot) ?_ h rfl
  intro write hmem c c' first hc hw
  rcases writeReg_ok_cases hw with ⟨-, -, -, rfl⟩ | ⟨-, -, -, rfl⟩ | ⟨htype, hwr, -, rfl⟩
  · simpa using hc
  · exact hc
  · rw [Core.withCsr_csrs_of_ne _ _ _ (hslot write hmem htype hwr).symm]
    exact hc

/-- A writable CSR whose entry is that of mstatus is mstatus. -/
theorem eq_mstatus_of_slot {csr : Csr} (hw : csr.writable = true) (h : csr.slot = 0x300) :
    csr = .mstatus := by
  revert h hw
  cases csr <;> simp [Csr.writable, Csr.slot, Csr.num]

/-- **A field of mstatus outside SD** that no write of the list changes is
unchanged. -/
theorem writeRegs_mstatus_field {writes logged : List RegWrite} {core core' : Core}
    {f x : BitVec 64} (hsd : f &&& mstatusSdMask = 0)
    (h : writeRegs writes core = .ok logged core')
    (hwrites : ∀ write ∈ writes, write.type = .csr → write.num = Csr.mstatus.num →
      write.value &&& f = x)
    (hcore : core.csrs 0x300 &&& f = x) : core'.csrs 0x300 &&& f = x := by
  refine writeRegs_invariant (P := fun c => c.csrs 0x300 &&& f = x) ?_ h hcore
  intro write hmem c c' first hc hw
  rcases writeReg_ok_cases hw with ⟨-, -, -, rfl⟩ | ⟨-, -, -, rfl⟩ | ⟨htype, hwr, -, rfl⟩
  · simpa using hc
  · exact hc
  · -- `set_csr` on mstatus recomputes SD, hence the hypothesis that `f` avoids it
    by_cases hslot : (Csr.ofNum write.num).slot = 0x300
    · have hcsr := eq_mstatus_of_slot hwr hslot
      have hnum : write.num = Csr.mstatus.num := by
        rw [← Csr.num_ofNum write.num, hcsr]
      rw [hcsr]
      exact maskMstatus_and_of_eq hsd hc (hwrites write hmem htype hnum)
    · rw [Core.withCsr_csrs_of_ne _ _ _ (Ne.symm hslot)]
      exact hc

/-! ## §6. Entries that a result leaves alone -/

section Kept

variable {core core' : Core} {logged : List RegWrite} {slot : BitVec 12}

/-- A plain instruction writes no CSR but fcsr and mstatus. -/
theorem plain_csrs {result : NormalStep} {nextPc : Option (BitVec 64)}
    (hfcsr : slot ≠ 0x003) (hmstatus : slot ≠ 0x300) (hplain : result.Plain nextPc)
    (h : writeRegs (finalRegWrites core result.regWrites) (advance core result)
      = .ok logged core') : core'.csrs slot = core.csrs slot := by
  refine (writeRegs_csrs_of_not_mem h fun write hmem htype _ hslot => ?_).trans rfl
  rcases hplain.regs.csr_mem hmem htype with hnum | rfl
  · rw [hnum] at hslot
    exact hfcsr hslot.symm
  · exact hmstatus hslot.symm

/-- A CSR instruction writes no other CSR than its own and these two. -/
theorem csrStep_csrs {insn : SystemInsn} (hfcsr : slot ≠ 0x003) (hmstatus : slot ≠ 0x300)
    (hnot : (Csr.ofNum (insn.csr.setWidth 32)).slot ≠ slot ∨ csrWritesBack insn = false)
    (h : writeRegs (finalRegWrites core (csrStep core insn).regWrites)
      (advance core (csrStep core insn)) = .ok logged core') :
    core'.csrs slot = core.csrs slot := by
  refine (writeRegs_csrs_of_not_mem h fun write hmem htype _ hslot => ?_).trans rfl
  rcases csrStep_csr_mem hmem htype with ⟨hwb, rfl⟩ | ⟨-, hnum | hnum⟩ | rfl
  · rcases hnot with hne | hkeep
    · exact hne hslot
    · rw [hwb] at hkeep
      cases hkeep
  · rw [hnum] at hslot
    exact hfcsr hslot.symm
  · rw [hnum] at hslot
    exact hfcsr hslot.symm
  · exact hmstatus hslot.symm

/-- The entry that a CSR instruction leaves in its own CSR. -/
theorem csrStep_entry {insn : SystemInsn} (hfp : insn.csr ∉ [0x001, 0x002, 0x003])
    (hwb : csrWritesBack insn = true)
    (h : writeRegs (finalRegWrites core (csrStep core insn).regWrites)
      (advance core (csrStep core insn)) = .ok logged core') :
    core'.csrs (Csr.ofNum (insn.csr.setWidth 32)).slot =
      ((advance core (csrStep core insn)).setGpr insn.rd
        (core.getCsr (Csr.ofNum (insn.csr.setWidth 32)))).storedEntry
        (Csr.ofNum (insn.csr.setWidth 32)) (csrNewValue core insn) := by
  rw [finalRegWrites_csrStep, csrPart_of_not_fp hwb hfp] at h
  obtain ⟨mid, first, rest, hfirst, hrest, -⟩ := writeRegs_append_ok h
  rw [writeRegs_rdWrites] at hfirst
  cases hfirst
  obtain ⟨-, rfl, -⟩ := writeRegs_csr_ok hrest
  exact Core.withCsr_csrs_slot ..

end Kept

end ZincSim
