/-
  ZincSim.Commit.Log — the commit log is faithful and complete.

  `Executor::step` rewrites its write list, changes the state and replaces the
  listed values, in that order.  `commit_faithful` says that the commit it returns
  names the state before, and that the state after differs from it in the listed
  registers and bytes only, which hold the listed values.
-/
import ZincSim.Commit.RegLog
import ZincSim.Memory.Bytes
import ZincSim.Step.Atomic

namespace ZincSim

/-! ## §1. The statement -/

/-- A CSR counts as listed when it is, and fcsr also when a half of it is. -/
def CsrListed (writes : List RegWrite) (csr : BitVec 12) : Prop :=
  ∃ write ∈ writes, write.type = .csr ∧
    (write.num = csr.setWidth 32 ∨
      csr = 0x003 ∧ (write.num = Csr.fflags.num ∨ write.num = Csr.frm.num))

/-- An X or F register is listed. -/
def RegListed (writes : List RegWrite) (type : RegType) (index : RegIndex) : Prop :=
  ∃ write ∈ writes, write.type = type ∧ write.num = index.setWidth 32

/-- `commit` accounts for the step from `m` to `m'`. -/
structure CommitFaithful (m m' : Machine) (commit : Commit) : Prop where
  pc : commit.pc = m.core.pc
  priv : commit.priv = m.core.priv
  insn : ∀ i < 4,
    m.mem.byteAt (m.core.pc + BitVec.ofNat 64 i) = some (byteOf commit.insn i)
  reads_back : ∀ write ∈ commit.regWrites,
    m'.core.readReg write.type write.num = write.value
  no_x0 : ∀ write ∈ commit.regWrites, ¬ (write.type = .x ∧ write.num = 0)
  frame_x : ∀ index, ¬ RegListed commit.regWrites .x index →
    m'.core.getGpr index = m.core.getGpr index
  frame_f : ∀ index, ¬ RegListed commit.regWrites .f index →
    m'.core.getFpr index = m.core.getFpr index
  frame_csr : ∀ csr : BitVec 12, ¬ CsrListed commit.regWrites csr →
    m'.core.getCsr (Csr.ofNum (csr.setWidth 32)) = m.core.getCsr (Csr.ofNum (csr.setWidth 32))
  mem_written : ∀ write ∈ commit.memWrites, ∀ i < write.size.toNat,
    m'.mem.byteAt (write.addr + BitVec.ofNat 64 i) = some (byteOf write.value i)
  mem_frame : ∀ addr, (∀ write ∈ commit.memWrites, ∀ i < write.size.toNat,
      addr ≠ write.addr + BitVec.ofNat 64 i) → m'.mem.byteAt addr = m.mem.byteAt addr

/-! ## §2. Registers that are not listed -/

/-- A logged register is a register of the final list, and conversely. -/
theorem logged_of_mem {writes logged : List RegWrite} {core core' : Core}
    (h : writeRegs writes core = .ok logged core') {write : RegWrite} (hmem : write ∈ writes) :
    ∃ entry ∈ logged, entry.type = write.type ∧ entry.num = write.num := by
  have hkey : (write.type, write.num) ∈ logged.map fun w => (w.type, w.num) := by
    rw [writeRegs_logged h]
    exact List.mem_map_of_mem hmem
  obtain ⟨entry, hentry, heq⟩ := List.mem_map.mp hkey
  exact ⟨entry, hentry, congrArg Prod.fst heq, congrArg Prod.snd heq⟩

theorem mem_of_logged {writes logged : List RegWrite} {core core' : Core}
    (h : writeRegs writes core = .ok logged core') {entry : RegWrite} (hentry : entry ∈ logged) :
    ∃ write ∈ writes, write.type = entry.type ∧ write.num = entry.num := by
  have hkey : (entry.type, entry.num) ∈ writes.map fun w => (w.type, w.num) := by
    rw [← writeRegs_logged h]
    exact List.mem_map_of_mem hentry
  obtain ⟨write, hmem, heq⟩ := List.mem_map.mp hkey
  exact ⟨write, hmem, congrArg Prod.fst heq, congrArg Prod.snd heq⟩

/-- An X or F write of a final list is of a register number. -/
theorem final_num {core : Core} {mem : Memory} {insn : DecodedInsn} {result : NormalStep}
    (h : execute core mem insn = .ok (.normal result)) {write : RegWrite}
    (hmem : write ∈ finalRegWrites core result.regWrites) (htype : write.type ≠ .csr) :
    ∃ rd : RegIndex, write.num = rd.setWidth 32 := by
  rcases mem_finalRegWrites hmem with ⟨hasked, -⟩ | ⟨whole, -, -, -, rfl | rfl⟩ | rfl
  · rcases asked_of_mem h hasked with ⟨rd, value, rfl⟩ | ⟨rd, value, rfl, -⟩ | hcsr
    · exact ⟨rd, rfl⟩
    · exact ⟨rd, rfl⟩
    · exact absurd hcsr htype
  · exact absurd rfl htype
  · exact absurd rfl htype
  · exact absurd rfl htype

/-- The entry that a CSR number reads. -/
theorem slot_ofNum (csr : BitVec 12) :
    (Csr.ofNum (csr.setWidth 32)).slot = if csr = 0x001 ∨ csr = 0x002 then 0x003 else csr := by
  have hback : (csr.setWidth 32 : BitVec 32).setWidth 12 = csr := by
    apply BitVec.eq_of_toNat_eq
    rw [BitVec.toNat_setWidth, BitVec.toNat_setWidth]
    omega
  -- `h_14` is the default case of `static_cast<Csr>`; every other case is one fixed number
  unfold Csr.ofNum
  split
  case h_14 hfflags hfrm _ _ _ _ _ _ _ _ _ _ _ =>
    rw [if_neg]
    · exact hback
    · rintro (rfl | rfl)
      · exact hfflags rfl
      · exact hfrm rfl
  all_goals
    next heq =>
      rw [heq] at hback
      rw [← hback]
      decide

/-- A writable CSR that shares storage with an unlisted one is itself listed, or a
half of it is. -/
theorem listed_of_overlaps {num : BitVec 32} {csr : BitVec 12}
    (hw : (Csr.ofNum num).writable = true) (hfcsr : num ≠ Csr.fcsr.num)
    (h : (Csr.ofNum num).Overlaps (Csr.ofNum (csr.setWidth 32))) :
    num = csr.setWidth 32 ∨ csr = 0x003 ∧ (num = Csr.fflags.num ∨ num = Csr.frm.num) := by
  obtain ⟨hslot, hfflags, hfrm⟩ := h
  have hnum := Csr.num_ofNum num
  rw [slot_ofNum] at hslot
  cases hcsr : Csr.ofNum num <;> rw [hcsr] at hnum hslot hfflags hfrm hw <;> subst hnum
  -- the entry of fcsr is read by three numbers: fflags, frm and fcsr itself
  case fflags =>
    split at hslot
    next hhalf =>
      rcases hhalf with rfl | rfl
      · exact .inl rfl
      · exact absurd ⟨rfl, rfl⟩ hfflags
    · exact .inr ⟨hslot.symm, .inl rfl⟩
  case frm =>
    split at hslot
    next hhalf =>
      rcases hhalf with rfl | rfl
      · exact absurd ⟨rfl, rfl⟩ hfrm
      · exact .inl rfl
    · exact .inr ⟨hslot.symm, .inr rfl⟩
  -- a write of fcsr has been split before the loop
  case fcsr => exact absurd rfl hfcsr
  case mhartid | other => cases hw
  -- every other CSR is alone in its entry
  all_goals
    split at hslot
    · exact absurd hslot (by decide)
    · rw [← hslot]
      exact .inl rfl

/-! ## §3. The theorem -/

section

variable {core core' : Core} {mem : Memory} {insn : DecodedInsn} {result : NormalStep}
  {logged : List RegWrite}

/-- An X or F register that is not listed is touched by no write. -/
theorem not_touches_of_not_listed (hx : execute core mem insn = .ok (.normal result))
    (hregs : writeRegs (finalRegWrites core result.regWrites) (advance core result)
      = .ok logged core') {type : RegType} (htype : type ≠ .csr) {index : RegIndex}
    (hlisted : ¬ RegListed logged type index) :
    ∀ write ∈ finalRegWrites core result.regWrites,
      ¬ write.Touches type (index.setWidth 32) := by
  rintro write hmem ⟨hwtype, htouch⟩
  obtain ⟨rd, hrd⟩ := final_num hx hmem (hwtype ▸ htype)
  obtain ⟨entry, hentry, hetype, henum⟩ := logged_of_mem hregs hmem
  -- registers are compared as five-bit numbers, the log has 32-bit ones
  have hindex : rd = index := by
    have hnum : write.num.setWidth 5 = ((index.setWidth 32).setWidth 5 : RegIndex) := by
      cases type with
      | x | f => exact htouch
      | csr => exact absurd rfl htype
    rw [hrd, setWidth_rd, setWidth_rd] at hnum
    exact hnum
  exact hlisted ⟨entry, hentry, hetype.trans hwtype, by rw [henum, hrd, hindex]⟩

/-- A CSR that is not listed is touched by no write. -/
theorem not_touches_of_not_csrListed (hx : execute core mem insn = .ok (.normal result))
    (hregs : writeRegs (finalRegWrites core result.regWrites) (advance core result)
      = .ok logged core') {csr : BitVec 12} (hlisted : ¬ CsrListed logged csr) :
    ∀ write ∈ finalRegWrites core result.regWrites,
      ¬ write.Touches .csr (csr.setWidth 32) := by
  rintro write hmem ⟨hwtype, htouch⟩
  obtain ⟨entry, hentry, hetype, henum⟩ := logged_of_mem hregs hmem
  have hfinal := final_of_mem hx hmem
  rw [RegWrite.Final, hwtype] at hfinal
  have hnum := listed_of_overlaps (writeRegs_ok_writable hregs hmem hwtype) hfinal htouch
  exact hlisted ⟨entry, hentry, hetype.trans hwtype, by rw [henum]; exact hnum⟩

end

/-- The loop over `mem_writes` on a list of at most one store. -/
theorem writeMems_stored {mem mem' : Memory} {writes : List MemAccess}
    (hbase : 8 ∣ mem.base.toNat) (hwrites : PlainStores writes)
    (h : writeMems writes mem = .ok () mem') :
    (∀ write ∈ writes, ∀ i < write.size.toNat,
      mem'.byteAt (write.addr + BitVec.ofNat 64 i) = some (byteOf write.value i)) ∧
    (∀ addr, (∀ write ∈ writes, ∀ i < write.size.toNat,
      addr ≠ write.addr + BitVec.ofNat 64 i) → mem'.byteAt addr = mem.byteAt addr) := by
  cases hwrites with
  | none =>
    cases h
    exact ⟨fun write hmem => absurd hmem List.not_mem_nil, fun _ _ => rfl⟩
  | store access size fits =>
    rw [writeMems_cons] at h
    split at h
    · cases h
    next mid hwrite =>
      cases h
      have hstored := writeMem_stored hbase size fits hwrite
      refine ⟨fun write hmem => ?_, fun addr haddr => ?_⟩
      · rw [List.mem_singleton.mp hmem]
        exact hstored.written
      · exact hstored.frame addr (haddr access List.mem_cons_self)

/-- The stores of every instruction are plain. -/
theorem plainStores_of_execute {core : Core} {mem : Memory} {insn : DecodedInsn}
    {result : NormalStep} (h : execute core mem insn = .ok (.normal result)) :
    PlainStores result.memWrites := by
  rcases execute_normal_cases h with ⟨si, -, -, -, rfl⟩ | ⟨si, -, -, rfl⟩ | ⟨-, hplain⟩
  · exact .none
  · exact .none
  · exact hplain.stores

/-- **The commit log is faithful and complete**, for every core with fcsr within
its eight bits and every memory with an 8-aligned base. -/
theorem commit_faithful {insn : DecodedInsn} {m m' : Machine} {commit : Commit}
    (hfcsr : m.core.getCsr .fcsr ≤ 0xff) (hbase : 8 ∣ m.mem.base.toNat)
    (h : step insn m = .ok (some commit) m') : CommitFaithful m m' commit := by
  rcases step_ok_cases h with ⟨_, -, hr, -⟩ | ⟨result, raw, logged, hx, hraw, hregs, hmems, hr⟩
  · cases hr
  cases hr
  -- frm is read by an unmasked shift, hence the bound on fcsr
  have hsmall : (advance m.core result).FcsrSmall := (Core.fcsrSmall_iff m.core).mpr hfcsr
  have hstores := writeMems_stored hbase (plainStores_of_execute hx) hmems
  constructor
  case pc => rfl
  case priv => rfl
  case insn => exact fun i hi => Memory.get32_bytes hbase hraw hi
  -- no later write of the list touches what an earlier one wrote
  case reads_back =>
    exact writeRegs_reads hregs (fun write hmem => final_of_mem hx hmem)
      (finalRegWrites_indep hx) hsmall
  -- the log has the keys of the final list, from which x0 was dropped
  case no_x0 =>
    rintro entry hentry ⟨htype, hnum⟩
    obtain ⟨write, hmem, hwtype, hwnum⟩ := mem_of_logged hregs hentry
    have hfinal := final_of_mem hx hmem
    rw [RegWrite.Final, hwtype, htype, hwnum, hnum] at hfinal
    exact hfinal rfl
  -- not listed in the log, so touched by no write of the final list
  case frame_x =>
    intro index hlisted
    have hkeep := writeRegs_frame hregs
      (not_touches_of_not_listed hx hregs (by simp) hlisted)
    rw [Core.readReg, Core.readReg, setWidth_rd] at hkeep
    exact hkeep
  case frame_f =>
    intro index hlisted
    have hkeep := writeRegs_frame hregs
      (not_touches_of_not_listed hx hregs (by simp) hlisted)
    rw [Core.readReg, Core.readReg, setWidth_rd] at hkeep
    exact hkeep
  case frame_csr =>
    exact fun csr hlisted =>
      writeRegs_frame hregs (not_touches_of_not_csrListed hx hregs hlisted)
  case mem_written => exact hstores.1
  case mem_frame => exact hstores.2

/-- The commit of `csrrwi x5, fcsr, 31` lists x5, both halves of fcsr and mstatus. -/
theorem commit_faithful_csrrwi :
    ∃ m commit, CommitFaithful (Machine.boot [0x003fd2f3]) m commit ∧
      commit.regWrites.length = 4 := by
  have hstep : ∃ m commit, step (.system ⟨.csrrwi, 3, 31, 31, 5⟩)
      (Machine.boot [0x003fd2f3]) = .ok (some commit) m ∧ commit.regWrites.length = 4 :=
    ⟨_, _, rfl, rfl⟩
  obtain ⟨m, commit, hstep, hlength⟩ := hstep
  exact ⟨m, commit, commit_faithful (by decide) (by decide) hstep, hlength⟩

end ZincSim
