/-
  ZincSim.Csr.Access — what `get_csr` and `set_csr` do to the CSR array.

  `setCsr_ok_iff` is the one place where `set_csr` is unfolded: a write succeeds
  on a writable CSR, stores `storedEntry` in the CSR's slot and returns
  `loggedValue`.  fflags and frm have no entry of their own; their slot is that
  of fcsr.
-/
import ZincSim.Machine.Cpu
import ZincSim.Lib.BitField

namespace ZincSim

/-! ## §1. Numbers and slots -/

@[simp] theorem Csr.num_ofNum (num : BitVec 32) : (Csr.ofNum num).num = num := by
  unfold Csr.ofNum
  split <;> rfl

/-- The array entry that holds a CSR. -/
def Csr.slot : Csr → BitVec 12
  | .fflags | .frm => 0x003
  | csr => csr.num.setWidth 12

/-- `set_csr` accepts the CSR. -/
def Csr.writable : Csr → Bool
  | .mhartid | .other _ => false
  | _ => true

theorem hasCsr_eq (num : BitVec 32) :
    Core.hasCsr num = ((Csr.ofNum num).writable || decide (Csr.ofNum num = .mhartid)) := by
  unfold Core.hasCsr
  cases Csr.ofNum num <;> rfl

/-- The CSRs that `has_csr` accepts and `set_csr` refuses: mhartid alone. -/
theorem writable_of_hasCsr {num : BitVec 32} (h : Core.hasCsr num = true)
    (hne : num ≠ Csr.mhartid.num) : (Csr.ofNum num).writable = true := by
  rw [hasCsr_eq, Bool.or_eq_true, decide_eq_true_eq] at h
  refine h.resolve_right fun heq => hne ?_
  rw [← Csr.num_ofNum num, heq]

/-! ## §2. Writing -/

/-- The bits of a written value that `set_csr` keeps. -/
def Csr.writeMask : Csr → BitVec 64
  | .fflags => 0x1f
  | .frm => 0x7
  | .fcsr => 0xff
  | .mstatus => mstatusWritableMask
  | .mepc | .mtvec => ~~~0b11#64
  | .mhartid | .other _ => 0
  | _ => BitVec.allOnes 64

namespace Core

/-- The array entry that a write of `value` to `csr` stores. -/
def storedEntry (core : Core) (csr : Csr) (value : BitVec 64) : BitVec 64 :=
  match csr with
  | .fflags => (core.csrs 0x003 &&& ~~~0x1f#64) ||| (value &&& 0x1f)
  | .frm => (core.csrs 0x003 &&& ~~~0xe0#64) ||| ((value &&& 0x7) <<< 5)
  | .fcsr => value &&& 0xff
  | .mstatus => maskMstatus (core.csrs 0x300) value
  | .mepc | .mtvec => value &&& ~~~0b11#64
  | _ => value

/-- The value that `set_csr` returns, which the commit logs. -/
def loggedValue (core : Core) (csr : Csr) (value : BitVec 64) : BitVec 64 :=
  match csr with
  | .fflags => core.storedEntry .fflags value &&& 0x1f
  | .frm => (core.storedEntry .frm value >>> 5) &&& 0x7#64
  | csr => core.storedEntry csr value

/-- The core after a write of `value` to `csr`. -/
def withCsr (core : Core) (csr : Csr) (value : BitVec 64) : Core :=
  { core with csrs := Function.update core.csrs csr.slot (core.storedEntry csr value) }

variable (core : Core) (csr : Csr) (value : BitVec 64)

@[simp] theorem withCsr_pc : (core.withCsr csr value).pc = core.pc := rfl
@[simp] theorem withCsr_priv : (core.withCsr csr value).priv = core.priv := rfl
@[simp] theorem withCsr_gprs : (core.withCsr csr value).gprs = core.gprs := rfl
@[simp] theorem withCsr_fprs : (core.withCsr csr value).fprs = core.fprs := rfl

@[simp] theorem withCsr_csrs_slot :
    (core.withCsr csr value).csrs csr.slot = core.storedEntry csr value :=
  Function.update_self ..

theorem withCsr_csrs_of_ne {slot : BitVec 12} (h : slot ≠ csr.slot) :
    (core.withCsr csr value).csrs slot = core.csrs slot :=
  Function.update_of_ne h ..

theorem setCsr_of_writable (h : csr.writable = true) :
    core.setCsr csr value = .ok (core.loggedValue csr value, core.withCsr csr value) := by
  cases csr <;> first | rfl | cases h

theorem setCsr_of_not_writable (h : csr.writable = false) :
    ∃ what, core.setCsr csr value = .error (.logicError what) := by
  cases csr <;> first | exact ⟨_, rfl⟩ | cases h

variable {core csr value}

/-- **`set_csr`, inverted.** -/
theorem setCsr_ok_iff {logged : BitVec 64} {core' : Core} :
    core.setCsr csr value = .ok (logged, core') ↔
      csr.writable = true ∧ logged = core.loggedValue csr value ∧
        core' = core.withCsr csr value := by
  cases h : csr.writable with
  | true =>
    rw [setCsr_of_writable core csr value h]
    simp only [Except.ok.injEq, Prod.mk.injEq, true_and]
    exact ⟨fun ⟨h₁, h₂⟩ => ⟨h₁.symm, h₂.symm⟩, fun ⟨h₁, h₂⟩ => ⟨h₁.symm, h₂.symm⟩⟩
  | false =>
    obtain ⟨what, heq⟩ := setCsr_of_not_writable core csr value h
    simp [heq]

/-- **Values that agree on the bits kept** are the same to `set_csr`. -/
theorem setCsr_masked {csr : Csr} {value value' : BitVec 64}
    (h : value &&& csr.writeMask = value' &&& csr.writeMask) (core : Core) :
    core.setCsr csr value = core.setCsr csr value' := by
  have hfull (heq : csr.writeMask = BitVec.allOnes 64) : value = value' := by
    rw [heq, BitVec.and_allOnes, BitVec.and_allOnes] at h
    exact h
  cases csr with
  | fflags | frm | fcsr | mepc | mtvec =>
    simp only [Csr.writeMask] at h
    simp only [setCsr, h]
  | mstatus =>
    simp only [Csr.writeMask] at h
    simp only [setCsr, maskMstatus, h]
  | mhartid | other => rfl
  | _ => rw [hfull rfl]

/-! ## §3. Reading -/

/-- Reading a CSR depends on the entry in its slot alone. -/
theorem getCsr_congr {core core' : Core} {csr : Csr}
    (h : core'.csrs csr.slot = core.csrs csr.slot) : core'.getCsr csr = core.getCsr csr := by
  cases csr with
  | other num =>
    simp only [getCsr, csrEntry, Csr.num]
    rw [show core'.csrs (num.setWidth 12) = core.csrs (num.setWidth 12) from h]
  | fflags => exact congrArg (· &&& 0x1f) h
  | frm => exact congrArg (fun entry : BitVec 64 => entry >>> 5) h
  | _ => exact h

/-! ## §4. fcsr stays within its eight bits -/

/-- fcsr has no bit above bit 7. -/
def FcsrSmall (core : Core) : Prop := core.csrs 0x003 &&& 0xff = core.csrs 0x003

theorem fcsrSmall_iff (core : Core) : core.FcsrSmall ↔ core.csrs 0x003 ≤ 0xff := by
  rw [FcsrSmall, show (0xff : BitVec 64) = BitVec.ofNat 64 (2 ^ 8 - 1) from rfl,
    BitField.and_lowMask_eq_iff _ 8 (by decide), BitVec.le_def]
  simp
  omega

/-- The field of frm, masked before or after the shift. -/
theorem frm_field (value : BitVec 64) : (value &&& 0x7) <<< 5 = (value <<< 5) &&& 0xe0 := by
  rw [BitVec.shiftLeft_and_distrib]
  rfl

/-- The same field, masked after or before the shift down. -/
theorem frm_read (value : BitVec 64) : (value >>> 5) &&& 0x7#64 = (value &&& 0xe0) >>> 5 := by
  rw [BitVec.ushiftRight_and_distrib]
  rfl

/-- A write of any CSR keeps fcsr within eight bits. -/
theorem FcsrSmall.withCsr (h : core.FcsrSmall) (hw : csr.writable = true) :
    (core.withCsr csr value).FcsrSmall := by
  have hother : (0x003 : BitVec 12) ≠ csr.slot → (core.withCsr csr value).FcsrSmall := by
    intro hne
    rw [FcsrSmall, withCsr_csrs_of_ne core csr value hne]
    exact h
  cases csr with
  | fflags => exact BitField.merge_and_eq_self h (by decide)
  | frm =>
    show ((core.csrs 0x003 &&& ~~~0xe0#64) ||| ((value &&& 0x7) <<< 5)) &&& 0xff =
      (core.csrs 0x003 &&& ~~~0xe0#64) ||| ((value &&& 0x7) <<< 5)
    rw [frm_field]
    exact BitField.merge_and_eq_self h (by decide)
  | fcsr =>
    show (value &&& 0xff) &&& 0xff = value &&& 0xff
    rw [BitVec.and_assoc, BitVec.and_self]
  | mhartid | other => cases hw
  | _ => exact hother (by decide)

end Core

end ZincSim
