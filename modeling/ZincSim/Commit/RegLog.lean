/-
  ZincSim.Commit.RegLog — the register half of the commit log.

  A round of the write-back loop touches what it writes and nothing else
  (`writeReg_frame`), and what it logs reads back after it (`writeReg_reads`).
  No two writes of a final list touch the same register (`finalRegWrites_indep`),
  so after the loop every logged value still reads back.
-/
import ZincSim.Step.FinalWrites

namespace ZincSim

/-! ## §1. Reading a register by type and number -/

/-- `get_gpr`, `get_fpr` or `get_csr`. -/
def Core.readReg (core : Core) (type : RegType) (num : BitVec 32) : BitVec 64 :=
  match type with
  | .x => core.getGpr (num.setWidth 5)
  | .f => core.getFpr (num.setWidth 5)
  | .csr => core.getCsr (Csr.ofNum num)

/-- Two CSRs share storage: they have one entry, and are not the two halves
of fcsr. -/
def Csr.Overlaps (csr csr' : Csr) : Prop :=
  csr.slot = csr'.slot ∧ ¬ (csr = .fflags ∧ csr' = .frm) ∧ ¬ (csr = .frm ∧ csr' = .fflags)

instance (csr csr' : Csr) : Decidable (csr.Overlaps csr') :=
  inferInstanceAs (Decidable (_ ∧ _ ∧ _))

/-- Writing `write` can change what register `num` of `type` reads as. -/
def RegWrite.Touches (write : RegWrite) (type : RegType) (num : BitVec 32) : Prop :=
  write.type = type ∧
    match type with
    | .x | .f => write.num.setWidth 5 = (num.setWidth 5 : RegIndex)
    | .csr => (Csr.ofNum write.num).Overlaps (Csr.ofNum num)

/-! ## §2. CSRs that share fcsr -/

namespace Core

/-- fflags does not see a write of frm. -/
theorem getCsr_fflags_withCsr_frm (core : Core) (value : BitVec 64) :
    (core.withCsr .frm value).getCsr .fflags = core.getCsr .fflags := by
  show ((core.csrs 0x003 &&& ~~~0xe0#64) ||| ((value &&& 0x7) <<< 5)) &&& 0x1f =
    core.csrs 0x003 &&& 0x1f
  rw [frm_field]
  exact BitField.merge_and_of_disjoint _ _ _ _ (by decide)

/-- frm does not see a write of fflags. -/
theorem getCsr_frm_withCsr_fflags (core : Core) (value : BitVec 64) :
    (core.withCsr .fflags value).getCsr .frm = core.getCsr .frm :=
  BitField.merge_shiftRight _ _ _ 5 (by decide)

/-- **A written CSR reads back as logged.** -/
theorem getCsr_withCsr {core : Core} (hsmall : core.FcsrSmall) {csr : Csr} (value : BitVec 64)
    (hw : csr.writable = true) :
    (core.withCsr csr value).getCsr csr = core.loggedValue csr value := by
  have hslot := withCsr_csrs_slot core csr value
  cases csr with
  | fflags => exact congrArg (· &&& 0x1f) hslot
  -- the log masks frm to three bits, `get_csr` does not: they agree as fcsr has eight bits
  | frm =>
    have hnew : (core.withCsr .frm value).FcsrSmall := hsmall.withCsr rfl
    rw [fcsrSmall_iff, BitVec.le_def] at hnew
    show (core.withCsr .frm value).csrs 0x003 >>> 5 =
      ((core.withCsr .frm value).csrs 0x003 >>> 5) &&& 0x7#64
    refine ((BitField.and_lowMask_eq_iff _ 3 (by decide)).mpr ?_).symm
    rw [BitVec.toNat_ushiftRight, Nat.shiftRight_eq_div_pow]
    have h255 : ((core.withCsr .frm value).csrs 0x003).toNat ≤ 255 := hnew
    omega
  | mhartid | other => cases hw
  | _ => exact hslot

/-- A CSR that shares no storage with the written one reads as before. -/
theorem getCsr_withCsr_of_not_overlaps (core : Core) {csr csr' : Csr} (value : BitVec 64)
    (h : ¬ csr.Overlaps csr') : (core.withCsr csr value).getCsr csr' = core.getCsr csr' := by
  -- one entry without overlap: the two are the halves of fcsr
  by_cases hslot : csr.slot = csr'.slot
  · have hhalves : (csr = .fflags ∧ csr' = .frm) ∨ (csr = .frm ∧ csr' = .fflags) := by
      by_contra hno
      rw [not_or] at hno
      exact h ⟨hslot, hno⟩
    rcases hhalves with ⟨rfl, rfl⟩ | ⟨rfl, rfl⟩
    · exact getCsr_frm_withCsr_fflags core value
    · exact getCsr_fflags_withCsr_frm core value
  · exact getCsr_congr (withCsr_csrs_of_ne core csr value (Ne.symm hslot))

end Core

/-! ## §3. One round -/

/-- A final write: it does not address x0, an F value fits the register, and fcsr
has been split. -/
def RegWrite.Final (write : RegWrite) : Prop :=
  match write.type with
  | .x => write.num.setWidth 5 ≠ (0 : RegIndex)
  | .f => write.value.toNat < 2 ^ 32
  | .csr => write.num ≠ Csr.fcsr.num

/-- A round leaves what it does not touch. -/
theorem writeReg_frame {core core' : Core} {write logged : RegWrite}
    (h : writeReg core write = .ok (logged, core')) {type : RegType} {num : BitVec 32}
    (htouch : ¬ write.Touches type num) : core'.readReg type num = core.readReg type num := by
  rcases writeReg_ok_cases h with ⟨htype, -, -, rfl⟩ | ⟨htype, -, -, rfl⟩ | ⟨htype, -, -, rfl⟩
  · cases type with
    | x => exact Core.setGpr_gprs_of_ne _ (fun heq => htouch ⟨htype, heq.symm⟩) _
    | f =>
      rw [Core.readReg, Core.getFpr, Core.setGpr_fprs]
      rfl
    | csr => exact Core.getCsr_congr (by rw [Core.setGpr_csrs])
  · cases type with
    | x | csr => rfl
    | f =>
      have hkeep := Core.setFpr_fprs_of_ne core (fun heq => htouch ⟨htype, heq.symm⟩)
        (write.value.setWidth 32)
      exact congrArg (BitVec.setWidth 64) hkeep
  · cases type with
    | x | f => rfl
    | csr => exact Core.getCsr_withCsr_of_not_overlaps _ _ fun hov => htouch ⟨htype, hov⟩

/-- **What a round logs reads back after it.** -/
theorem writeReg_reads {core core' : Core} {write logged : RegWrite}
    (h : writeReg core write = .ok (logged, core')) (hfinal : write.Final)
    (hsmall : core.FcsrSmall) :
    logged.type = write.type ∧ logged.num = write.num ∧
      core'.readReg write.type write.num = logged.value := by
  obtain ⟨type, num, value⟩ := write
  rcases writeReg_ok_cases h with ⟨htype, -, rfl, rfl⟩ | ⟨htype, -, rfl, rfl⟩ |
    ⟨htype, hw, rfl, rfl⟩ <;> cases htype
  · exact ⟨rfl, rfl, Core.setGpr_gprs_self _ hfinal _⟩
  · -- an F write is narrowed to 32 bits, which loses nothing of a final one
    refine ⟨rfl, rfl, ?_⟩
    show ((core.setFpr _ _).fprs _).setWidth 64 = value
    rw [Core.setFpr_fprs_self]
    apply BitVec.eq_of_toNat_eq
    have hword : value.toNat < 2 ^ 32 := hfinal
    dsimp only
    rw [BitVec.toNat_setWidth, BitVec.toNat_setWidth]
    omega
  · exact ⟨rfl, rfl, Core.getCsr_withCsr hsmall value hw⟩

theorem writeReg_fcsrSmall {core core' : Core} {write logged : RegWrite}
    (h : writeReg core write = .ok (logged, core')) (hsmall : core.FcsrSmall) :
    core'.FcsrSmall := by
  rcases writeReg_ok_cases h with ⟨-, -, -, rfl⟩ | ⟨-, -, -, rfl⟩ | ⟨-, hw, -, rfl⟩
  · rw [Core.FcsrSmall, Core.setGpr_csrs]
    exact hsmall
  · exact hsmall
  · exact hsmall.withCsr hw

/-! ## §4. The loop -/

/-- `later` does not disturb what `first` wrote. -/
def RegWrite.Indep (first later : RegWrite) : Prop := ¬ later.Touches first.type first.num

/-- The loop leaves what none of its writes touches. -/
theorem writeRegs_frame {writes logged : List RegWrite} {core core' : Core}
    (h : writeRegs writes core = .ok logged core') {type : RegType} {num : BitVec 32}
    (htouch : ∀ write ∈ writes, ¬ write.Touches type num) :
    core'.readReg type num = core.readReg type num := by
  refine writeRegs_invariant (P := fun c => c.readReg type num = core.readReg type num) ?_ h rfl
  intro write hmem c c' first hc hw
  rw [writeReg_frame hw (htouch write hmem)]
  exact hc

/-- The logged registers are those of the list. -/
theorem writeRegs_logged {writes logged : List RegWrite} {core core' : Core}
    (h : writeRegs writes core = .ok logged core') :
    logged.map (fun w => (w.type, w.num)) = writes.map fun w => (w.type, w.num) := by
  induction writes generalizing core logged with
  | nil =>
    cases h
    rfl
  | cons write writes ih =>
    obtain ⟨first, mid, rest, hfirst, hrest, rfl⟩ := writeRegs_cons_ok h
    have hhead : (first.type, first.num) = (write.type, write.num) := by
      rcases writeReg_ok_cases hfirst with ⟨-, -, rfl, -⟩ | ⟨-, -, rfl, -⟩ | ⟨-, -, rfl, -⟩ <;> rfl
    rw [List.map_cons, List.map_cons, ih hrest, hhead]

/-- **Every logged value reads back after the loop.** -/
theorem writeRegs_reads {writes logged : List RegWrite} {core core' : Core}
    (h : writeRegs writes core = .ok logged core') (hfinal : ∀ write ∈ writes, write.Final)
    (hindep : writes.Pairwise RegWrite.Indep) (hsmall : core.FcsrSmall) :
    ∀ write ∈ logged, core'.readReg write.type write.num = write.value := by
  induction writes generalizing core logged with
  | nil =>
    cases h
    exact fun write hmem => absurd hmem List.not_mem_nil
  | cons head writes ih =>
    obtain ⟨first, mid, rest, hfirst, hrest, rfl⟩ := writeRegs_cons_ok h
    obtain ⟨hhead, htail⟩ := List.pairwise_cons.mp hindep
    obtain ⟨hfinal0, hfinal⟩ := List.forall_mem_cons.mp hfinal
    obtain ⟨htype, hnum, hread⟩ := writeReg_reads hfirst hfinal0 hsmall
    refine List.forall_mem_cons.mpr
      ⟨?_, ih hrest hfinal htail (writeReg_fcsrSmall hfirst hsmall)⟩
    -- the head reads back after its round; independence carries that to the end
    rw [htype, hnum, writeRegs_frame hrest fun write hmem => hhead write hmem]
    exact hread

/-! ## §5. Final lists -/

/-- The write of mstatus that `step` appends, if any, as a sublist. -/
theorem dirtyFsWrites_sublist (core : Core) (writes : List RegWrite) :
    (dirtyFsWrites core writes).Sublist
      [csrWrite Csr.mstatus.num (dirtyMstatus (core.getCsr .mstatus))] := by
  unfold dirtyFsWrites
  dsimp only
  split
  · exact .refl _
  · exact List.nil_sublist _

theorem rdWrites_sublist (rd : RegIndex) (value : BitVec 64) :
    (rdWrites rd value).Sublist [xWrite rd value] := by
  unfold rdWrites
  split
  · exact List.nil_sublist _
  · exact .refl _

theorem flagWrites_sublist (flags : Option (BitVec 64)) :
    (flagWrites flags).Sublist [csrWrite Csr.fflags.num (flags.getD 0)] := by
  cases flags with
  | none => exact List.nil_sublist _
  | some value => exact .refl _

/-- The CSR part of an instruction on fflags, frm or fcsr. -/
theorem csrPart_sublist (core : Core) {insn : SystemInsn}
    (hfp : insn.csr ∈ [0x001, 0x002, 0x003]) :
    ∃ fflags frm, (csrPart core insn).Sublist
      [csrWrite Csr.fflags.num fflags, csrWrite Csr.frm.num frm] := by
  obtain ⟨type, csr, rs1, uimm, rd⟩ := insn
  simp only [List.mem_cons, List.not_mem_nil, or_false] at hfp
  unfold csrPart
  split
  · rcases hfp with rfl | rfl | rfl
    · exact ⟨_, 0, List.sublist_append_left [_] [_]⟩
    · exact ⟨0, _, List.sublist_append_right [_] [_]⟩
    · exact ⟨_, _, .refl _⟩
  · exact ⟨0, 0, List.nil_sublist _⟩

theorem indep_of_type_ne {first later : RegWrite} (h : first.type ≠ later.type) :
    first.Indep later := fun htouch => h htouch.1.symm

/-- CSR writes that share no storage are independent. -/
theorem indep_csrWrite {num num' : BitVec 32} (value value' : BitVec 64)
    (h : ¬ (Csr.ofNum num').Overlaps (Csr.ofNum num)) :
    (csrWrite num value).Indep (csrWrite num' value') := fun htouch => h htouch.2

theorem indep_fflags_frm (value value' : BitVec 64) :
    (csrWrite Csr.fflags.num value).Indep (csrWrite Csr.frm.num value') :=
  indep_csrWrite _ _ (by decide)

theorem indep_fflags_mstatus (value value' : BitVec 64) :
    (csrWrite Csr.fflags.num value).Indep (csrWrite Csr.mstatus.num value') :=
  indep_csrWrite _ _ (by decide)

theorem indep_frm_mstatus (value value' : BitVec 64) :
    (csrWrite Csr.frm.num value).Indep (csrWrite Csr.mstatus.num value') :=
  indep_csrWrite _ _ (by decide)

/-- fflags, one X or F register, mstatus. -/
theorem pairwise_plain (write : RegWrite) (htype : write.type ≠ .csr) (fflags mstatus : BitVec 64) :
    [csrWrite Csr.fflags.num fflags, write, csrWrite Csr.mstatus.num mstatus].Pairwise
      RegWrite.Indep := by
  have hfirst : (csrWrite Csr.fflags.num fflags).Indep write :=
    indep_of_type_ne (Ne.symm htype)
  have hlast : write.Indep (csrWrite Csr.mstatus.num mstatus) := indep_of_type_ne htype
  simp only [List.pairwise_cons, List.forall_mem_cons, List.not_mem_nil, false_implies,
    implies_true, and_true, List.Pairwise.nil]
  exact ⟨⟨hfirst, indep_fflags_mstatus _ _⟩, hlast⟩

/-- rd, fflags, frm, mstatus. -/
theorem pairwise_fcsr (rd : RegIndex) (old fflags frm mstatus : BitVec 64) :
    [xWrite rd old, csrWrite Csr.fflags.num fflags, csrWrite Csr.frm.num frm,
      csrWrite Csr.mstatus.num mstatus].Pairwise RegWrite.Indep := by
  have hrd (num : BitVec 32) (value : BitVec 64) :
      (xWrite rd old).Indep (csrWrite num value) := indep_of_type_ne (by simp)
  simp only [List.pairwise_cons, List.forall_mem_cons, List.not_mem_nil, false_implies,
    implies_true, and_true, List.Pairwise.nil]
  exact ⟨⟨hrd _ _, hrd _ _, hrd _ _⟩, ⟨indep_fflags_frm _ _, indep_fflags_mstatus _ _⟩,
    indep_frm_mstatus _ _⟩

theorem plain_pairwise {core : Core} {writes : List RegWrite} (h : PlainWrites writes) :
    (finalRegWrites core writes).Pairwise RegWrite.Indep := by
  cases h with
  | none => exact .nil
  | x flags rd value =>
    rw [finalRegWrites_x]
    exact (pairwise_plain (xWrite rd value) (by simp) _ _).sublist
      (((flagWrites_sublist flags).append (rdWrites_sublist rd value)).append
        (dirtyFsWrites_sublist core _))
  | f flags rd value word =>
    rw [finalRegWrites_f]
    exact (pairwise_plain (fWrite rd value) (by simp) _ _).sublist
      (((flagWrites_sublist flags).append (.refl [fWrite rd value])).append
        (dirtyFsWrites_sublist core _))

theorem csrStep_pairwise (core : Core) (insn : SystemInsn) :
    (finalRegWrites core (csrStep core insn).regWrites).Pairwise RegWrite.Indep := by
  rw [finalRegWrites_csrStep]
  -- only the floating-point CSRs can bring the mstatus write along
  by_cases hfp : insn.csr ∈ [0x001, 0x002, 0x003]
  · obtain ⟨fflags, frm, hpart⟩ := csrPart_sublist core hfp
    exact (pairwise_fcsr insn.rd _ fflags frm _).sublist
      ((rdWrites_sublist insn.rd _).append (hpart.append (dirtyFsWrites_sublist core _)))
  · -- outside them the list is rd and at most the CSR itself
    cases hwb : csrWritesBack insn with
    | true =>
      rw [csrPart_of_not_fp hwb hfp]
      have hpair : [xWrite insn.rd (core.getCsr (Csr.ofNum (insn.csr.setWidth 32))),
          csrWrite (insn.csr.setWidth 32) (csrNewValue core insn)].Pairwise RegWrite.Indep := by
        simp only [List.pairwise_cons, List.forall_mem_cons, List.not_mem_nil, false_implies,
          implies_true, and_true, List.Pairwise.nil]
        exact indep_of_type_ne (by simp)
      exact hpair.sublist ((rdWrites_sublist insn.rd _).append (.refl _))
    | false =>
      have hpart : csrPart core insn = [] := by rw [csrPart, hwb]; rfl
      rw [hpart]
      exact (List.pairwise_singleton _ _).sublist
        ((rdWrites_sublist insn.rd _).append (.refl []))

/-- **No two writes of a final list touch the same register.** -/
theorem finalRegWrites_indep {core : Core} {mem : Memory} {insn : DecodedInsn}
    {result : NormalStep} (h : execute core mem insn = .ok (.normal result)) :
    (finalRegWrites core result.regWrites).Pairwise RegWrite.Indep := by
  rcases execute_normal_cases h with ⟨si, -, -, -, rfl⟩ | ⟨si, -, -, rfl⟩ | ⟨-, hplain⟩
  · exact csrStep_pairwise core si
  · exact List.pairwise_singleton _ _
  · exact plain_pairwise hplain.regs

/-- An X or F write that an instruction asks for is of a register number, and an F
value is a word. -/
theorem asked_of_mem {core : Core} {mem : Memory} {insn : DecodedInsn} {result : NormalStep}
    (h : execute core mem insn = .ok (.normal result)) {write : RegWrite}
    (hmem : write ∈ result.regWrites) :
    (∃ rd value, write = xWrite rd value) ∨
    (∃ rd value, write = fWrite rd value ∧ value.toNat < 2 ^ 32) ∨ write.type = .csr := by
  rcases execute_normal_cases h with ⟨si, -, -, -, rfl⟩ | ⟨si, -, -, rfl⟩ | ⟨-, hplain⟩
  · rcases List.mem_cons.mp hmem with rfl | hmem
    · exact .inl ⟨_, _, rfl⟩
    · split at hmem
      · rw [List.mem_singleton.mp hmem]
        exact .inr (.inr rfl)
      · exact absurd hmem List.not_mem_nil
  · rw [List.mem_singleton.mp hmem]
    exact .inr (.inr rfl)
  · have hflag {flags : Option (BitVec 64)} (hf : write ∈ flagWrites flags) :
        write.type = .csr := by
      obtain ⟨value, -, rfl⟩ := List.mem_map.mp hf
      rfl
    -- the write list is a field of `result`: generalise it to split on its shape
    have hregs := hplain.regs
    generalize result.regWrites = writes at hmem hregs
    cases hregs with
    | none => exact absurd hmem List.not_mem_nil
    | x flags rd value =>
      rcases List.mem_append.mp hmem with hf | hr
      · exact .inr (.inr (hflag hf))
      · exact .inl ⟨rd, value, List.mem_singleton.mp hr⟩
    | f flags rd value word =>
      rcases List.mem_append.mp hmem with hf | hr
      · exact .inr (.inr (hflag hf))
      · exact .inr (.inl ⟨rd, value, List.mem_singleton.mp hr, word⟩)

/-- **Every element of a final list is a final write.** -/
theorem final_of_mem {core : Core} {mem : Memory} {insn : DecodedInsn} {result : NormalStep}
    (h : execute core mem insn = .ok (.normal result)) {write : RegWrite}
    (hmem : write ∈ finalRegWrites core result.regWrites) : write.Final := by
  rcases mem_finalRegWrites hmem with ⟨hasked, hx0, hfcsr⟩ | ⟨whole, -, -, -, rfl | rfl⟩ | rfl
  · rcases asked_of_mem h hasked with ⟨rd, value, rfl⟩ | ⟨rd, value, rfl, hword⟩ | htype
    · show (rd.setWidth 32).setWidth 5 ≠ (0 : RegIndex)
      rw [isX0Write_xWrite, beq_eq_false_iff_ne] at hx0
      rw [setWidth_rd]
      exact hx0
    · exact hword
    · obtain ⟨type, num, value⟩ := write
      cases htype
      exact fun hnum => hfcsr ⟨rfl, hnum⟩
  · show Csr.fflags.num ≠ Csr.fcsr.num
    decide
  · show Csr.frm.num ≠ Csr.fcsr.num
    decide
  · show Csr.mstatus.num ≠ Csr.fcsr.num
    decide

end ZincSim
