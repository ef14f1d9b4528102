/-
  ZincSim.Csr.Assigned — two CSR arrays that agree on the bits assigned so far.

  The constructor assigns mstatus and leaves the other entries to chance.  `Same` relates
  two cores that differ in bits nobody has assigned.  A write of a CSR settles the bits it
  stores (`Same.withCsr`), and so the write-back loop settles what it logs
  (`writeRegs_same`).
-/
import ZincSim.Csr.Dirty

namespace ZincSim

/-! ## §1. Assigned bits -/

/-- For each entry of `csrs`, the bits that have been assigned. -/
abbrev AssignedBits := BitVec 12 → BitVec 64

/-- What `get_csr` shows of an array. -/
def Csr.shown (csrs : BitVec 12 → BitVec 64) : Csr → BitVec 64
  | .fflags => csrs 0x003 &&& 0x1f
  | .frm => csrs 0x003 >>> 5
  | .other num => if num.toNat < 4096 then csrs (num.setWidth 12) else 0
  | csr => csrs csr.slot

theorem getCsr_eq_shown (core : Core) (csr : Csr) : core.getCsr csr = csr.shown core.csrs := by
  cases csr <;> rfl

/-- The bits of its entry that a write of the CSR stores. -/
def Csr.storedMask : Csr → BitVec 64
  | .fflags => 0x1f
  | .frm => 0xe0
  | _ => BitVec.allOnes 64

/-- The bits assigned after a write of the CSR. -/
def AssignedBits.assign (assigned : AssignedBits) (csr : Csr) : AssignedBits :=
  Function.update assigned csr.slot (assigned csr.slot ||| csr.storedMask)

/-- The bits that `get_csr` shows under `mask` have all been assigned. -/
def AssignedBits.Covers (assigned : AssignedBits) (csr : Csr) (mask : BitVec 64) : Prop :=
  csr.shown assigned &&& mask = csr.shown (fun _ => BitVec.allOnes 64) &&& mask

instance (assigned : AssignedBits) (csr : Csr) (mask : BitVec 64) :
    Decidable (assigned.Covers csr mask) := inferInstanceAs (Decidable (_ = _))

/-- The arrays agree on the assigned bits. -/
def AgreeOnBits (assigned : AssignedBits) (csrs csrs' : BitVec 12 → BitVec 64) : Prop :=
  ∀ slot, csrs slot &&& assigned slot = csrs' slot &&& assigned slot

section Shown

variable {assigned : AssignedBits} {csrs csrs' : BitVec 12 → BitVec 64}

/-- What is shown of arrays that agree agrees. -/
theorem AgreeOnBits.shown (h : AgreeOnBits assigned csrs csrs') (csr : Csr) :
    csr.shown csrs &&& csr.shown assigned = csr.shown csrs' &&& csr.shown assigned := by
  cases csr with
  | fflags =>
    have hpart (x : BitVec 64) :
        (x &&& 0x1f) &&& (assigned 0x003 &&& 0x1f) = (x &&& assigned 0x003) &&& 0x1f := by
      ext i hi
      simp only [BitVec.getElem_and]
      grind
    exact (hpart _).trans ((congrArg (· &&& 0x1f) (h 0x003)).trans (hpart _).symm)
  | frm =>
    show (csrs 0x003 >>> 5) &&& (assigned 0x003 >>> 5) =
      (csrs' 0x003 >>> 5) &&& (assigned 0x003 >>> 5)
    rw [← BitVec.ushiftRight_and_distrib, ← BitVec.ushiftRight_and_distrib, h 0x003]
  | other num =>
    simp only [Csr.shown]
    split
    · exact h _
    · rfl
  | _ => exact h _

/-- A CSR shows no bit outside those it has. -/
theorem Csr.shown_and_full (csrs : BitVec 12 → BitVec 64) (csr : Csr) :
    csr.shown csrs &&& csr.shown (fun _ => BitVec.allOnes 64) = csr.shown csrs := by
  cases csr with
  | fflags =>
    show (csrs 0x003 &&& 0x1f) &&& (BitVec.allOnes 64 &&& 0x1f) = csrs 0x003 &&& 0x1f
    rw [BitVec.allOnes_and, BitVec.and_assoc, BitVec.and_self]
  | frm =>
    show (csrs 0x003 >>> 5) &&& (BitVec.allOnes 64 >>> 5) = csrs 0x003 >>> 5
    rw [← BitVec.ushiftRight_and_distrib, BitVec.and_allOnes]
  | other num =>
    simp only [Csr.shown]
    split
    · exact BitVec.and_allOnes
    · rfl
  | _ => exact BitVec.and_allOnes

/-- **Covered bits agree.** -/
theorem AssignedBits.Covers.agree {csr : Csr} {mask : BitVec 64} (h : assigned.Covers csr mask)
    (hcsrs : AgreeOnBits assigned csrs csrs') :
    csr.shown csrs &&& mask = csr.shown csrs' &&& mask := by
  have hcut (array : BitVec 12 → BitVec 64) :
      csr.shown array &&& mask = (csr.shown array &&& csr.shown assigned) &&& mask := by
    calc csr.shown array &&& mask
        = csr.shown array &&& (csr.shown (fun _ => BitVec.allOnes 64) &&& mask) := by
          rw [← BitVec.and_assoc, Csr.shown_and_full]
      _ = (csr.shown array &&& csr.shown assigned) &&& mask := by
          rw [← h, BitVec.and_assoc]
  rw [hcut csrs, hcut csrs', hcsrs.shown csr]

end Shown

/-! ## §2. Cores that differ in unassigned bits -/

/-- The cores are the same up to CSR bits nobody has assigned. -/
structure Same (assigned : AssignedBits) (core core' : Core) : Prop where
  priv : core'.priv = core.priv
  pc : core'.pc = core.pc
  gprs : core'.gprs = core.gprs
  fprs : core'.fprs = core.fprs
  mstatus : core'.csrs 0x300 = core.csrs 0x300
  csrs : AgreeOnBits assigned core'.csrs core.csrs

section Setters

variable {assigned : AssignedBits} {core core' : Core}

theorem Same.setGpr (h : Same assigned core core') (rd : RegIndex) (value : BitVec 64) :
    Same assigned (core.setGpr rd value) (core'.setGpr rd value) where
  priv := by simpa using h.priv
  pc := by simpa using h.pc
  gprs := by
    funext i
    by_cases hzero : rd = 0
    · rw [hzero, Core.setGpr_zero, Core.setGpr_zero, h.gprs]
    by_cases hi : i = rd
    · rw [hi, Core.setGpr_gprs_self _ hzero, Core.setGpr_gprs_self _ hzero]
    · rw [Core.setGpr_gprs_of_ne _ hi, Core.setGpr_gprs_of_ne _ hi, h.gprs]
  fprs := by simpa using h.fprs
  mstatus := by simpa using h.mstatus
  csrs := by simpa using h.csrs

theorem Same.setFpr (h : Same assigned core core') (rd : RegIndex) (value : BitVec 32) :
    Same assigned (core.setFpr rd value) (core'.setFpr rd value) where
  priv := h.priv
  pc := h.pc
  gprs := h.gprs
  fprs := by rw [Core.setFpr, Core.setFpr, h.fprs]
  mstatus := h.mstatus
  csrs := h.csrs

/-- The stored entries agree on the bits that the write settles. -/
theorem Same.storedEntry (h : Same assigned core core') {csr : Csr} (value : BitVec 64)
    (hw : csr.writable = true) :
    core'.storedEntry csr value &&& (assigned csr.slot ||| csr.storedMask) =
      core.storedEntry csr value &&& (assigned csr.slot ||| csr.storedMask) := by
  cases csr with
  | fflags => exact BitField.merge_and_or_of_agree value (h.csrs 0x003)
  | frm =>
    simp only [Core.storedEntry, Core.frm_field]
    exact BitField.merge_and_or_of_agree (value <<< 5) (h.csrs 0x003)
  | mstatus =>
    simp only [Core.storedEntry]
    rw [h.mstatus]
  | mhartid | other => cases hw
  | _ => rfl

/-- The log does not show an unassigned bit. -/
theorem Same.loggedValue (h : Same assigned core core') {csr : Csr} (value : BitVec 64)
    (hw : csr.writable = true) : core'.loggedValue csr value = core.loggedValue csr value := by
  cases csr with
  | fflags =>
    have hfield (c : Core) : c.loggedValue .fflags value = value &&& 0x1f :=
      BitField.merge_and_of_subset _ _ _ _ (by decide)
    rw [hfield core, hfield core']
  | frm =>
    have hfield (c : Core) : c.loggedValue .frm value = ((value <<< 5) &&& 0xe0) >>> 5 := by
      show (((c.csrs 0x003 &&& ~~~0xe0#64) ||| ((value &&& 0x7) <<< 5)) >>> 5) &&& 0x7#64 = _
      rw [Core.frm_read, Core.frm_field]
      exact congrArg (fun x : BitVec 64 => x >>> 5)
        (BitField.merge_and_of_subset 0xe0#64 _ _ 0xe0 (by decide))
    rw [hfield core, hfield core']
  | mstatus =>
    show Core.maskMstatus (core'.csrs 0x300) value = Core.maskMstatus (core.csrs 0x300) value
    rw [h.mstatus]
  | mhartid | other => cases hw
  | _ => rfl

/-- **A write of a CSR settles the bits it stores.** -/
theorem Same.withCsr (h : Same assigned core core') (csr : Csr) (value : BitVec 64)
    (hw : csr.writable = true) :
    Same (assigned.assign csr) (core.withCsr csr value) (core'.withCsr csr value) where
  priv := h.priv
  pc := h.pc
  gprs := h.gprs
  fprs := h.fprs
  mstatus := by
    by_cases hslot : csr.slot = 0x300
    · rw [eq_mstatus_of_slot hw hslot]
      show Core.maskMstatus (core'.csrs 0x300) value = Core.maskMstatus (core.csrs 0x300) value
      rw [h.mstatus]
    · rw [Core.withCsr_csrs_of_ne _ _ _ (Ne.symm hslot),
        Core.withCsr_csrs_of_ne _ _ _ (Ne.symm hslot)]
      exact h.mstatus
  csrs := by
    intro slot
    by_cases hslot : slot = csr.slot
    · subst hslot
      rw [Core.withCsr_csrs_slot, Core.withCsr_csrs_slot, AssignedBits.assign,
        Function.update_self]
      exact h.storedEntry value hw
    · rw [Core.withCsr_csrs_of_ne _ _ _ hslot, Core.withCsr_csrs_of_ne _ _ _ hslot,
        AssignedBits.assign, Function.update_of_ne hslot]
      exact h.csrs slot

end Setters

/-! ## §3. The write-back loop -/

/-- The bits assigned after a logged write. -/
def AssignedBits.log (assigned : AssignedBits) (write : RegWrite) : AssignedBits :=
  if write.type = .csr then assigned.assign (Csr.ofNum write.num) else assigned

/-- One round in cores that are the same. -/
theorem Same.writeReg {assigned : AssignedBits} {core core' : Core}
    (h : Same assigned core core') (write : RegWrite) :
    RoundRel Same AssignedBits.log assigned (writeReg core write) (writeReg core' write) := by
  obtain ⟨type, num, value⟩ := write
  cases type with
  | x =>
    simp only [ZincSim.writeReg]
    by_cases hnum : num.toNat < 32
    · rw [if_pos hnum, if_pos hnum]
      exact ⟨rfl, h.setGpr _ _⟩
    · rw [if_neg hnum, if_neg hnum]
      rfl
  | f =>
    simp only [ZincSim.writeReg]
    by_cases hnum : num.toNat < 32
    · rw [if_pos hnum, if_pos hnum]
      exact ⟨rfl, h.setFpr _ _⟩
    · rw [if_neg hnum, if_neg hnum]
      rfl
  | csr =>
    cases hw : (Csr.ofNum num).writable with
    | false =>
      obtain ⟨fault, hfault⟩ := writeReg_csr_refused hw value
      rw [hfault core, hfault core']
      rfl
    | true =>
      rw [writeReg_csr hw value core, writeReg_csr hw value core', h.loggedValue value hw]
      exact ⟨rfl, h.withCsr _ value hw⟩

/-- **The loop in cores that are the same.** -/
theorem writeRegs_same {assigned : AssignedBits} {core core' : Core} (writes : List RegWrite)
    (h : Same assigned core core') :
    LoopRel Same AssignedBits.log assigned (writeRegs writes core) (writeRegs writes core') :=
  writeRegs_rel (fun write _ _ _ _ hc => hc.writeReg write) h

/-! ## §4. Lists with the same effect -/

/-- The bits of the value that the write stores. -/
def RegWrite.mask (write : RegWrite) : BitVec 64 :=
  match write.type with
  | .csr => (Csr.ofNum write.num).writeMask
  | _ => BitVec.allOnes 64

/-- The writes address one register, with values that agree on the bits stored. -/
structure SameWrite (write write' : RegWrite) : Prop where
  type : write'.type = write.type
  num : write'.num = write.num
  value : write'.value &&& write.mask = write.value &&& write.mask

theorem SameWrite.refl (write : RegWrite) : SameWrite write write := ⟨rfl, rfl, rfl⟩

theorem forall₂_sameWrite_refl (writes : List RegWrite) : List.Forall₂ SameWrite writes writes :=
  List.forall₂_same.mpr fun write _ => .refl write

theorem SameWrite.sameEffect {write write' : RegWrite} (h : SameWrite write write') :
    SameEffect write' write := by
  obtain ⟨type, num, value⟩ := write
  obtain ⟨type', num', value'⟩ := write'
  obtain ⟨htype, hnum, hvalue⟩ := h
  dsimp only at htype hnum
  subst htype hnum
  intro core
  cases type' with
  | csr => simp only [ZincSim.writeReg, Core.setCsr_masked hvalue core]
  | x | f =>
    have heq : value' &&& BitVec.allOnes 64 = value &&& BitVec.allOnes 64 := hvalue
    rw [BitVec.and_allOnes, BitVec.and_allOnes] at heq
    rw [heq]

/-- What an instruction asks for: a write of x0 may differ, as it is dropped. -/
def SameAsked (write write' : RegWrite) : Prop :=
  SameWrite write write' ∨ isX0Write write = true ∧ isX0Write write' = true

theorem SameWrite.isX0Write {write write' : RegWrite} (h : SameWrite write write') :
    isX0Write write' = isX0Write write := by
  rw [ZincSim.isX0Write, ZincSim.isX0Write, h.type, h.num]

theorem SameWrite.isFpStateWrite {write write' : RegWrite} (h : SameWrite write write') :
    isFpStateWrite write' = isFpStateWrite write := by
  rw [ZincSim.isFpStateWrite, ZincSim.isFpStateWrite, h.type, h.num]

theorem dropX0Writes_same {writes writes' : List RegWrite}
    (h : List.Forall₂ SameAsked writes writes') :
    List.Forall₂ SameWrite (dropX0Writes writes) (dropX0Writes writes') := by
  unfold dropX0Writes
  induction h with
  | nil => exact .nil
  | @cons write write' writes writes' hhead _ ih =>
    rcases hhead with hsame | ⟨hx0, hx0'⟩
    · cases hx : isX0Write write with
      | true =>
        rw [List.filter_cons_of_neg (by simp [hx]),
          List.filter_cons_of_neg (by simp [hsame.isX0Write, hx])]
        exact ih
      | false =>
        rw [List.filter_cons_of_pos (by simp [hx]),
          List.filter_cons_of_pos (by simp [hsame.isX0Write, hx])]
        exact .cons hsame ih
    · rw [List.filter_cons_of_neg (by simp [hx0]), List.filter_cons_of_neg (by simp [hx0'])]
      exact ih

theorem expandFcsrWrite_same {write write' : RegWrite} (h : SameWrite write write') :
    List.Forall₂ SameWrite (expandFcsrWrite write) (expandFcsrWrite write') := by
  unfold expandFcsrWrite
  rw [h.type, h.num]
  by_cases hfcsr : write.type = .csr ∧ write.num = Csr.fcsr.num
  · -- both halves lie within the eight bits that a write of fcsr stores
    rw [if_pos hfcsr, if_pos hfcsr]
    have hmask : write.mask = 0xff := by
      rw [RegWrite.mask, hfcsr.1, hfcsr.2]
      rfl
    have hvalue : write'.value &&& 0xff = write.value &&& 0xff := by
      have hvalue := h.value
      rw [hmask] at hvalue
      exact hvalue
    have hfflags : write'.value &&& 0x1f = write.value &&& 0x1f :=
      BitField.and_eq_of_subset hvalue (by decide)
    have hfrm : write'.value &&& 0xe0 = write.value &&& 0xe0 :=
      BitField.and_eq_of_subset hvalue (by decide)
    rw [hfflags, Core.frm_read, Core.frm_read, hfrm]
    exact forall₂_sameWrite_refl _
  · rw [if_neg hfcsr, if_neg hfcsr]
    exact .cons h .nil

theorem expandFcsrWrites_same {writes writes' : List RegWrite}
    (h : List.Forall₂ SameWrite writes writes') :
    List.Forall₂ SameWrite (expandFcsrWrites writes) (expandFcsrWrites writes') := by
  unfold expandFcsrWrites
  induction h with
  | nil => exact .nil
  | cons hhead _ ih =>
    rw [List.flatMap_cons, List.flatMap_cons]
    exact List.rel_append (expandFcsrWrite_same hhead) ih

theorem writesFpState_same {writes writes' : List RegWrite}
    (h : List.Forall₂ SameWrite writes writes') : writesFpState writes' = writesFpState writes := by
  unfold writesFpState
  induction h with
  | nil => rfl
  | cons hhead _ ih => rw [List.any_cons, List.any_cons, hhead.isFpStateWrite, ih]

/-- **The final lists have the same effect**, when the lists asked for have. -/
theorem finalRegWrites_same {core core' : Core} {writes writes' : List RegWrite}
    (hmstatus : core'.getCsr .mstatus = core.getCsr .mstatus)
    (h : List.Forall₂ SameAsked writes writes') :
    List.Forall₂ SameEffect (finalRegWrites core' writes') (finalRegWrites core writes) := by
  have hexpanded := expandFcsrWrites_same (dropX0Writes_same h)
  have hdirty : dirtyFsWrites core' (expandFcsrWrites (dropX0Writes writes')) =
      dirtyFsWrites core (expandFcsrWrites (dropX0Writes writes)) := by
    rw [dirtyFsWrites, dirtyFsWrites, hmstatus, writesFpState_same hexpanded]
  have hfinal : List.Forall₂ SameWrite (finalRegWrites core writes)
      (finalRegWrites core' writes') := by
    unfold finalRegWrites
    dsimp only
    rw [hdirty]
    exact List.rel_append hexpanded (forall₂_sameWrite_refl _)
  exact (hfinal.imp fun _ _ hw => hw.sameEffect).flip

end ZincSim
