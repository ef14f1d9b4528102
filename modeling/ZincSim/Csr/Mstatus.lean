/-
  ZincSim.Csr.Mstatus — the fields of mstatus through each of its writers.

  Four pieces of code compute an mstatus: `set_csr` (`maskMstatus`), trap entry
  (`exceptionMstatus`), MRET (`mretMstatus`) and the automatic FS = Dirty write
  (`dirtyMstatus`).  The last three are stored through `set_csr`, so every
  stored mstatus is a `maskMstatus`; each lemma below reads one field of one
  writer's result.
-/
import ZincSim.Csr.Access
import ZincSim.Machine.Step

namespace ZincSim

open ZincSim.Core (maskMstatus)

/-! ## §1. `set_csr` -/

/-- A field other than SD shows the masked merge. -/
theorem maskMstatus_and (old value f : BitVec 64) (h : f &&& mstatusSdMask = 0) :
    maskMstatus old value &&& f =
      ((old &&& ~~~mstatusWritableMask) ||| (value &&& mstatusWritableMask)) &&& f := by
  unfold maskMstatus
  dsimp only
  split
  · rw [BitField.set_and_of_disjoint _ _ _ h, BitField.clear_and_of_disjoint _ _ _ h]
  · rw [BitField.clear_and_of_disjoint _ _ _ h]

/-- A writable field shows the written value. -/
theorem maskMstatus_and_writable (old value f : BitVec 64) (hsd : f &&& mstatusSdMask = 0)
    (hw : f &&& mstatusWritableMask = f) : maskMstatus old value &&& f = value &&& f := by
  rw [maskMstatus_and old value f hsd, BitField.merge_and_of_subset _ _ _ _ hw]

/-- A read-only field other than SD keeps the old value. -/
theorem maskMstatus_and_readOnly (old value f : BitVec 64) (hsd : f &&& mstatusSdMask = 0)
    (hw : f &&& mstatusWritableMask = 0) : maskMstatus old value &&& f = old &&& f := by
  rw [maskMstatus_and old value f hsd, BitField.merge_and_of_disjoint _ _ _ _ hw]

/-- A field on which the old and the written value agree keeps it. -/
theorem maskMstatus_and_of_eq {old value f x : BitVec 64} (hsd : f &&& mstatusSdMask = 0)
    (hold : old &&& f = x) (hvalue : value &&& f = x) : maskMstatus old value &&& f = x := by
  rw [maskMstatus_and old value f hsd]
  subst hold
  ext i hi
  have hbit : (value &&& f)[i] = (old &&& f)[i] := by rw [hvalue]
  simp only [BitVec.getElem_and, BitVec.getElem_or, BitVec.getElem_not] at hbit ⊢
  grind

/-- FS shows the written value. -/
theorem maskMstatus_fs (old value : BitVec 64) :
    maskMstatus old value &&& mstatusFsMask = value &&& mstatusFsMask :=
  maskMstatus_and_writable old value mstatusFsMask (by decide) (by decide)

/-- MPP shows the written value. -/
theorem maskMstatus_mpp (old value : BitVec 64) :
    maskMstatus old value &&& mstatusMppMask = value &&& mstatusMppMask :=
  maskMstatus_and_writable old value mstatusMppMask (by decide) (by decide)

/-- **SD is computed from FS**, whatever was written to it. -/
theorem maskMstatus_sd (old value : BitVec 64) :
    maskMstatus old value &&& mstatusSdMask =
      if value &&& mstatusFsMask = mstatusFsDirty then mstatusSdMask else 0 := by
  have hfs : (((old &&& ~~~mstatusWritableMask) ||| (value &&& mstatusWritableMask)) &&&
      ~~~mstatusSdMask) &&& mstatusFsMask = value &&& mstatusFsMask := by
    rw [BitField.clear_and_of_disjoint _ _ _ (by decide),
      BitField.merge_and_of_subset _ _ _ _ (by decide)]
  unfold maskMstatus
  dsimp only
  rw [hfs]
  split
  · exact BitField.set_and_of_subset _ _ _ (by decide)
  · exact BitField.clear_and_of_subset _ _ _ (by decide)

/-! ## §2. The other writers -/

/-- FS = Dirty shows in no field outside FS. -/
theorem dirtyMstatus_and (mstatus f : BitVec 64) (h : f &&& mstatusFsMask = 0) :
    dirtyMstatus mstatus &&& f = mstatus &&& f := by
  have hmask : f &&& mstatusFsDirty = 0 := h
  rw [dirtyMstatus, BitField.set_and_of_disjoint _ _ _ hmask,
    BitField.clear_and_of_disjoint _ _ _ h]

/-- The stack of interrupt enable and privilege. -/
def mstatusStack : BitVec 64 := mstatusMieMask ||| mstatusMpieMask ||| mstatusMppMask

section Assign

variable {w : Nat} {x bits f : BitVec w} {c : Prop} [Decidable c]

/-- Setting or clearing bits outside a field. -/
theorem assign_and_of_disjoint (h : f &&& bits = 0) :
    (if c then x ||| bits else x &&& ~~~bits) &&& f = x &&& f := by
  by_cases hc : c
  · rw [if_pos hc, BitField.set_and_of_disjoint _ _ _ h]
  · rw [if_neg hc, BitField.clear_and_of_disjoint _ _ _ h]

/-- The bits themselves. -/
theorem assign_and_self : (if c then x ||| bits else x &&& ~~~bits) &&& bits =
    if c then bits else 0 := by
  by_cases hc : c
  · rw [if_pos hc, if_pos hc, BitField.set_and_of_subset _ _ _ BitVec.and_self]
  · rw [if_neg hc, if_neg hc, BitField.clear_and_of_subset _ _ _ BitVec.and_self]

/-- What is outside a field is outside its parts. -/
theorem and_eq_zero_of_part {field part : BitVec w} (h : f &&& field = 0)
    (hpart : part &&& field = part) : f &&& part = 0 := by
  calc f &&& part = f &&& field &&& part := by
        rw [BitVec.and_assoc, BitVec.and_comm field part, hpart]
    _ = 0 := by
        rw [h]
        exact BitVec.zero_and

end Assign

section Exception

variable (core : Core)

/-- The privilege stays in its field. -/
theorem code_mpp (priv : Privilege) :
    (priv.code <<< 11) &&& mstatusMppMask = priv.code <<< 11 := by
  cases priv <;> decide

/-- Trap entry keeps the bits outside the stack and SD. -/
theorem exceptionMstatus_and {f : BitVec 64} (hstack : f &&& mstatusStack = 0)
    (hsd : f &&& mstatusSdMask = 0) :
    core.exceptionMstatus &&& f = core.getCsr .mstatus &&& f := by
  have hmpp : f &&& mstatusMppMask = 0 := and_eq_zero_of_part hstack (by decide)
  have hmie : f &&& mstatusMieMask = 0 := and_eq_zero_of_part hstack (by decide)
  have hmpie : f &&& mstatusMpieMask = 0 := and_eq_zero_of_part hstack (by decide)
  unfold Core.exceptionMstatus
  dsimp only
  -- from the last bits that were written to the first: MPP, MIE, SD, MPIE
  rw [BitField.set_and_of_disjoint _ _ _ (and_eq_zero_of_part hmpp (code_mpp core.priv)),
    BitField.clear_and_of_disjoint _ _ _ hmpp, BitField.clear_and_of_disjoint _ _ _ hmie,
    assign_and_of_disjoint hsd, assign_and_of_disjoint hmpie]

/-- Trap entry puts the old privilege into MPP. -/
theorem exceptionMstatus_mpp :
    core.exceptionMstatus &&& mstatusMppMask = core.priv.code <<< 11 :=
  BitField.insert_and _ _ _ (code_mpp core.priv)

/-- Trap entry disables interrupts. -/
theorem exceptionMstatus_mie : core.exceptionMstatus &&& mstatusMieMask = 0 := by
  unfold Core.exceptionMstatus
  dsimp only
  rw [BitField.set_and_of_disjoint _ _ _ (and_eq_zero_of_part (by decide) (code_mpp core.priv)),
    BitField.clear_and_of_disjoint _ _ _ (by decide),
    BitField.clear_and_of_subset _ _ _ (by decide)]

/-- Trap entry puts the old MIE into MPIE. -/
theorem exceptionMstatus_mpie : core.exceptionMstatus &&& mstatusMpieMask =
    if core.getCsr .mstatus &&& mstatusMieMask ≠ 0 then mstatusMpieMask else 0 := by
  unfold Core.exceptionMstatus
  dsimp only
  rw [BitField.set_and_of_disjoint _ _ _ (and_eq_zero_of_part (by decide) (code_mpp core.priv)),
    BitField.clear_and_of_disjoint _ _ _ (by decide),
    BitField.clear_and_of_disjoint _ _ _ (by decide), assign_and_of_disjoint (by decide),
    assign_and_self]

/-- Trap entry keeps FS. -/
theorem exceptionMstatus_fs :
    core.exceptionMstatus &&& mstatusFsMask = core.getCsr .mstatus &&& mstatusFsMask :=
  exceptionMstatus_and core (by decide) (by decide)

end Exception

section Mret

variable (mstatus : BitVec 64)

/-- Outside MPRV, MRET pops the stack. -/
theorem mretMstatus_pops {f : BitVec 64} (hmprv : f &&& mstatusMprvMask = 0) :
    mretMstatus mstatus &&& f =
      ((if mstatus &&& mstatusMpieMask ≠ 0 then mstatus ||| mstatusMieMask
        else mstatus &&& ~~~mstatusMieMask) ||| mstatusMpieMask) &&& ~~~mstatusMppMask &&& f := by
  unfold mretMstatus
  dsimp only
  split
  · exact BitField.clear_and_of_disjoint _ _ _ hmprv
  · rfl

/-- MRET keeps the bits outside the stack and MPRV. -/
theorem mretMstatus_and {f : BitVec 64} (hstack : f &&& mstatusStack = 0)
    (hmprv : f &&& mstatusMprvMask = 0) : mretMstatus mstatus &&& f = mstatus &&& f := by
  rw [mretMstatus_pops mstatus hmprv,
    BitField.clear_and_of_disjoint _ _ _ (and_eq_zero_of_part hstack (by decide)),
    BitField.set_and_of_disjoint _ _ _ (and_eq_zero_of_part hstack (by decide)),
    assign_and_of_disjoint (and_eq_zero_of_part hstack (by decide))]

/-- MRET leaves MPP = User. -/
theorem mretMstatus_mpp : mretMstatus mstatus &&& mstatusMppMask = 0 := by
  rw [mretMstatus_pops mstatus (by decide), BitField.clear_and_of_subset _ _ _ (by decide)]

/-- MRET takes MIE from MPIE. -/
theorem mretMstatus_mie : mretMstatus mstatus &&& mstatusMieMask =
    if mstatus &&& mstatusMpieMask ≠ 0 then mstatusMieMask else 0 := by
  rw [mretMstatus_pops mstatus (by decide), BitField.clear_and_of_disjoint _ _ _ (by decide),
    BitField.set_and_of_disjoint _ _ _ (by decide), assign_and_self]

theorem mretMstatus_mpie : mretMstatus mstatus &&& mstatusMpieMask = mstatusMpieMask := by
  rw [mretMstatus_pops mstatus (by decide), BitField.clear_and_of_disjoint _ _ _ (by decide),
    BitField.set_and_of_subset _ _ _ (by decide)]

/-- MPRV survives a return to Machine mode alone. -/
theorem mretMstatus_mprv : mretMstatus mstatus &&& mstatusMprvMask =
    if Privilege.ofCode ((mstatus &&& mstatusMppMask) >>> 11) = .machine
    then mstatus &&& mstatusMprvMask else 0 := by
  unfold mretMstatus
  dsimp only
  by_cases hmachine : Privilege.ofCode ((mstatus &&& mstatusMppMask) >>> 11) = .machine
  · rw [if_neg (not_not.mpr hmachine), if_pos hmachine,
      BitField.clear_and_of_disjoint _ _ _ (by decide),
      BitField.set_and_of_disjoint _ _ _ (by decide), assign_and_of_disjoint (by decide)]
  · rw [if_pos hmachine, if_neg hmachine, BitField.clear_and_of_subset _ _ _ (by decide)]

/-- MRET keeps FS. -/
theorem mretMstatus_fs : mretMstatus mstatus &&& mstatusFsMask = mstatus &&& mstatusFsMask :=
  mretMstatus_and mstatus (by decide) (by decide)

end Mret

/-! ## §3. MPP and privilege -/

/-- MPP names an implemented privilege mode: User or Machine. -/
def MppLegal (mstatus : BitVec 64) : Prop :=
  mstatus &&& mstatusMppMask = 0 ∨ mstatus &&& mstatusMppMask = mstatusMppMask

instance (mstatus : BitVec 64) : Decidable (MppLegal mstatus) :=
  inferInstanceAs (Decidable (_ ∨ _))

theorem MppLegal.congr {a b : BitVec 64} (h : a &&& mstatusMppMask = b &&& mstatusMppMask) :
    MppLegal a ↔ MppLegal b := by
  rw [MppLegal, MppLegal, h]

/-- The mode MRET enters when MPP is legal. -/
theorem ofCode_of_mppLegal {mstatus : BitVec 64} (h : MppLegal mstatus) :
    Privilege.ofCode ((mstatus &&& mstatusMppMask) >>> 11) = .user ∨
      Privilege.ofCode ((mstatus &&& mstatusMppMask) >>> 11) = .machine := by
  rcases h with h | h
  · exact .inl (by rw [h]; rfl)
  · exact .inr (by rw [h]; rfl)

end ZincSim
