/-
  ZincSim.Isa.Lockstep — the simulator and the specified hart, over whole runs.

  The machine stands for the RV64IM hart with its pc, its X registers and its bytes
  (`Machine.hart`).  Where the instruction is no JALR to an odd address, no word shift whose
  amount has bit 5 set and no JAL whose signed sum overflows, the fetch-decode-step part of
  an iteration and a step of the hart match in both directions (`loopStep_of_hart`,
  `hart_of_loopStep`), so the runs do, of any length and with programs that write themselves
  (`lockstep_iff`).
-/
import ZincSim.Isa.Shift
import ZincSim.Lib.Rv64Hart
import ZincSim.Memory.Provenance

namespace ZincSim

open Rv64im (Action Hart)
open TransitionSystem

/-! ## §1. The abstraction -/

/-- The hart that the machine simulates. -/
def Machine.hart (m : Machine) : Hart where
  pc := m.core.pc
  x := m.core.gprs
  mem := m.mem.bytes

/-- Everything else is as it was. -/
structure Beside (m m' : Machine) : Prop where
  fprs : m'.core.fprs = m.core.fprs
  csrs : m'.core.csrs = m.core.csrs
  priv : m'.core.priv = m.core.priv
  base : m'.mem.base = m.mem.base
  length : m'.mem.data.length = m.mem.data.length

theorem Beside.refl (m : Machine) : Beside m m := ⟨rfl, rfl, rfl, rfl, rfl⟩

theorem Beside.trans {m mid m' : Machine} (h : Beside m mid) (h' : Beside mid m') :
    Beside m m' where
  fprs := h'.fprs.trans h.fprs
  csrs := h'.csrs.trans h.csrs
  priv := h'.priv.trans h.priv
  base := h'.base.trans h.base
  length := h'.length.trans h.length

/-- Where the simulator departs from the specification: JALR keeps bit 0 of its target, a
word shift by a register looks at six bits of the amount, and the target of JAL is a signed
sum. -/
def Departs (h : Hart) : Action → Prop
  | .jalr _ rs1 imm => (h.x rs1 + imm).getLsbD 0 = true
  | .compute (.jal _ imm) => h.pc.saddOverflow imm = true
  | .compute (.aluW op _ _ rs2) => op.isShift = true ∧ (h.x rs2).getLsbD 5 = true
  | _ => False

/-! ## §2. Decoding -/

/-- The decoded instruction is the action. -/
def Spells : Action → DecodedInsn → Prop
  | .compute insn, decoded => decoded = toDecoded insn ∧ insn.Legal
  | .jalr rd rs1 imm, decoded => decoded = .jalr { imm := imm, rs1 := rs1, rd := rd }
  | .load size signed rd rs1 imm, decoded => ∃ type,
      decoded = .load { type := type, imm := imm, rs1 := rs1, rd := rd } ∧
        loadSize type = some size ∧ size ∣ 8 ∧ ∀ n, loadedValue type n = Hart.extend signed size n
  | .store size rs1 rs2 imm, decoded => ∃ type,
      decoded = .store { type := type, imm := imm, rs1 := rs1, rs2 := rs2 } ∧
        storeSize type = some size ∧ size ∣ 8
  | .fence, decoded => ∃ type,
      decoded = .miscMem { type := type } ∧ (type = .fence ∨ type = .fenceI)

theorem loadSize_of_kind {funct3 : BitVec 3} {p : ℕ × Bool}
    (h : Rv64im.loadKind funct3 = some p) :
    loadSize (MemAccessType.ofCode (funct3.setWidth 32)) = some p.1 ∧
      ∀ n, loadedValue (MemAccessType.ofCode (funct3.setWidth 32)) n =
        Hart.extend p.2 p.1 n := by
  unfold Rv64im.loadKind at h
  split at h <;> cases h
  -- LD extends nothing
  case h_4 => exact ⟨rfl, fun n => (BitVec.signExtend_eq _).symm⟩
  all_goals exact ⟨rfl, fun n => rfl⟩

theorem storeSize_of_kind {funct3 : BitVec 3} {size : ℕ}
    (h : Rv64im.storeKind funct3 = some size) :
    storeSize (MemAccessType.ofCode (funct3.setWidth 32)) = some size := by
  unfold Rv64im.storeKind at h
  split at h <;> cases h <;> rfl

/-- **A legal word decodes to what it spells.** -/
theorem spells_of_word {word : BitVec 32} {action : Action}
    (h : Action.ofWord word = some action) :
    ∃ decoded, decode word = .ok decoded ∧ Spells action decoded := by
  unfold Action.ofWord at h
  split at h
  case h_1 hopcode =>
    obtain ⟨-, h⟩ := Option.ite_none_right_eq_some.mp h
    cases h
    rw [decode_eq_row, hopcode]
    exact ⟨_, rfl, rfl⟩
  case h_2 hopcode =>
    obtain ⟨p, hp, rfl⟩ := Option.map_eq_some_iff.mp h
    rw [decode_eq_row, hopcode]
    obtain ⟨hsize, hvalue⟩ := loadSize_of_kind hp
    exact ⟨_, rfl, _, rfl, hsize, Rv64im.size_of_loadKind hp, hvalue⟩
  case h_3 hopcode =>
    obtain ⟨size, hsize, rfl⟩ := Option.map_eq_some_iff.mp h
    rw [decode_eq_row, hopcode]
    exact ⟨_, rfl, _, rfl, storeSize_of_kind hsize, Rv64im.size_of_storeKind hsize⟩
  case h_4 hopcode =>
    obtain ⟨hfunct3, h⟩ := Option.ite_none_right_eq_some.mp h
    cases h
    rw [decode_eq_row, hopcode]
    refine ⟨_, rfl, _, rfl, ?_⟩
    rcases hfunct3 with hfunct3 | hfunct3 <;> rw [hfunct3]
    · exact .inl rfl
    · exact .inr rfl
  case h_5 =>
    obtain ⟨insn, hinsn, rfl⟩ := Option.map_eq_some_iff.mp h
    exact ⟨_, decode_of_legal hinsn, rfl, Rv64im.decode_legal hinsn⟩

/-! ## §3. From the hart to the simulator -/

section Forward

variable {m : Machine} {raw : BitVec 32}

/-- `m'` is `m` moved on to the hart `h`. -/
structure Follows (m : Machine) (h : Hart) (m' : Machine) : Prop where
  hart : m'.hart = h
  beside : Beside m m'

/-- The step commits and moves the machine on to `h`. -/
def CommitsAs (decoded : DecodedInsn) (m : Machine) (h : Hart) : Prop :=
  ∃ commit m', step decoded m = .ok (some commit) m' ∧ Follows m h m'

/-- A computing instruction changes no memory. -/
theorem CommitsTo.commitsAs {decoded : DecodedInsn} {s : Rv64im.State}
    (h : CommitsTo decoded m s) :
    CommitsAs decoded m { pc := s.pc, x := s.x, mem := m.mem.bytes } := by
  obtain ⟨commit, m', hstep, hmoved⟩ := h
  refine ⟨commit, m', hstep, ?_, hmoved.fprs, hmoved.csrs, hmoved.priv, ?_, ?_⟩
  · rw [← hmoved.state, ← hmoved.mem]
    rfl
  · rw [hmoved.mem]
  · rw [hmoved.mem]

/-- A branch commits where the specification does not trap: its target is misaligned only
when it is not taken. -/
theorem commitsTo_branch (hpc : 4 ∣ m.core.pc.toNat) (hram : m.mem.Contains 4 m.core.pc)
    {cond : Rv64im.Cond} {rs1 rs2 : RegIndex} {imm : BitVec 64} {s : Rv64im.State}
    (hexec : Rv64im.exec m.isaState (.branch cond rs1 rs2 imm) = some s) :
    CommitsTo (toDecoded (.branch cond rs1 rs2 imm)) m s := by
  let next (taken : Bool) : Option (BitVec 64) := if taken then some (m.core.pc + imm) else none
  have hbranch : execute m.core m.mem (toDecoded (.branch cond rs1 rs2 imm)) =
      .ok (.normal
        { nextPc := next (decide (cond.Holds (m.core.getGpr rs1) (m.core.getGpr rs2))) }) := by
    show executeBranch _ _ = _
    unfold executeBranch
    rw [shouldBranch_eq]
    rfl
  have hcommit := commitsTo_of_pc hpc hram hbranch
  simp only [Rv64im.exec] at hexec
  by_cases hcond : cond.Holds (m.isaState.x rs1) (m.isaState.x rs2)
  · rw [if_pos hcond] at hexec
    obtain ⟨-, hexec⟩ := Option.ite_none_right_eq_some.mp hexec
    rw [decide_eq_true (show cond.Holds (m.core.getGpr rs1) (m.core.getGpr rs2) from hcond)]
      at hcommit
    cases hexec
    exact hcommit
  · rw [if_neg hcond] at hexec
    rw [decide_eq_false (show ¬ cond.Holds (m.core.getGpr rs1) (m.core.getGpr rs2) from hcond)]
      at hcommit
    cases hexec
    exact hcommit

/-- The word shifts, with the amount below 32. -/
theorem commitsTo_shiftW (hpc : 4 ∣ m.core.pc.toNat) (hram : m.mem.Contains 4 m.core.pc)
    {op : Rv64im.AluOp} {rd rs1 rs2 : RegIndex} (hop : op.isShift = true)
    (hbit : (m.core.getGpr rs2).getLsbD 5 = false) :
    CommitsTo (toDecoded (.aluW op rd rs1 rs2)) m
      { pc := m.core.pc + 4
        x := m.isaState.write rd (Rv64im.aluW op (m.core.getGpr rs1) (m.core.getGpr rs2)) } := by
  have htype : (aluType op).isShift = true := by
    cases op <;> first | rfl | cases hop
  have hexec := @execute_op32_shift m { type := aluType op, rs1 := rs1, rs2 := rs2, rd := rd }
    htype hbit
  have hcommit := commitsTo_of_rd hpc hram none hexec
  have hamount : ((m.core.getGpr rs2).setWidth 32 : BitVec 32).toNat % 32 =
      (m.core.getGpr rs2).toNat % 32 := by
    rw [BitVec.toNat_setWidth]
    omega
  have hresult : Rv64im.aluW op (m.core.getGpr rs1) (m.core.getGpr rs2) =
      ((aluType op).shift ((m.core.getGpr rs1).setWidth 32 : BitVec 32)
        ((m.core.getGpr rs2).toNat % 32)).signExtend 64 := by
    rw [← hamount]
    cases op <;> first | rfl | cases hop
  rw [hresult]
  exact hcommit

/-- **A computing instruction**, branches and word shifts included. -/
theorem commitsTo_compute (hpc : 4 ∣ m.core.pc.toNat) (hram : m.mem.Contains 4 m.core.pc)
    {insn : Rv64im.Insn} {s : Rv64im.State} (hlegal : insn.Legal)
    (hdeparts : ¬ Departs m.hart (.compute insn)) (hexec : Rv64im.exec m.isaState insn = some s) :
    CommitsTo (toDecoded insn) m s := by
  -- where neither rule applies, the target is none or an aligned one
  have general (hshift : insn.isShiftW = false) (hfits : JalFits m.core.pc insn)
      (htarget : ∀ t, Rv64im.target m.core.pc insn = some t → 4 ∣ t.toNat) :
      CommitsTo (toDecoded insn) m s := by
    obtain ⟨s', hs', hcommit⟩ := commitsTo_exec hpc hram hlegal hshift hfits htarget
    rw [hexec] at hs'
    cases hs'
    exact hcommit
  cases insn with
  | branch cond rs1 rs2 imm => exact commitsTo_branch hpc hram hexec
  | aluW op rd rs1 rs2 =>
    by_cases hop : op.isShift = true
    · have hbit : (m.core.getGpr rs2).getLsbD 5 = false := by
        by_contra hne
        exact hdeparts ⟨hop, Bool.not_eq_false _ ▸ hne⟩
      cases hexec
      exact commitsTo_shiftW hpc hram hop hbit
    · exact general (Bool.not_eq_true _ ▸ hop) nofun fun t ht => by cases ht
  | jal rd imm =>
    refine general rfl (fun rd' imm' heq => ?_) fun t ht => ?_
    · cases heq
      exact Bool.eq_false_of_not_eq_true hdeparts
    · cases ht
      exact (Option.ite_none_right_eq_some.mp hexec).1
  | lui | auipc | aluImm | alu | aluImmW => exact general rfl nofun fun t ht => by cases ht

/-- A load: one X write, and the memory as it was. -/
theorem commitsAs_load {type : MemAccessType} {size n : Nat} {signed : Bool}
    {rd rs1 : RegIndex} {imm : BitVec 64} (hbase : 8 ∣ m.mem.base.toNat)
    (hraw : m.mem.get32 m.core.pc = .ok raw) (htype : loadSize type = some size)
    (hsize : size ∣ 8) (hvalue : loadedValue type n = Hart.extend signed size n)
    (haligned : size ∣ (m.core.getGpr rs1 + imm).toNat)
    (hload : m.mem.bytes.load (m.core.getGpr rs1 + imm) size = some n) :
    CommitsAs (.load { type := type, imm := imm, rs1 := rs1, rd := rd }) m
      { pc := m.core.pc + 4
        x := m.hart.state.write rd (Hart.extend signed size n)
        mem := m.mem.bytes } := by
  have hcell := (Memory.getCell_ok_iff hbase hsize).mpr ⟨haligned, hload⟩
  let insn : LoadInsn := { type := type, imm := imm, rs1 := rs1, rd := rd }
  have hexec : execute m.core m.mem (.load insn) = .ok (loadResult insn (m.core.getGpr rs1 + imm)
      (Hart.extend signed size n, BitVec.ofNat 32 size)) := by
    have heq : execute m.core m.mem (.load insn) = _ := executeLoad_eq htype
    rw [heq, if_pos haligned, loadData_eq _ _ htype, hcell, ← hvalue]
    rfl
  -- the result lists the read, which the step does not look at
  have hstep := step_of_normal hexec
  rw [hraw] at hstep
  dsimp only at hstep
  rw [finalRegWrites_ofX, writeRegs_rdWrites] at hstep
  refine ⟨_, _, hstep, ?_, Core.setGpr_fprs .., Core.setGpr_csrs .., Core.setGpr_priv .., rfl, rfl⟩
  unfold Machine.hart
  congr 1
  · exact Core.setGpr_pc ..
  · funext i
    exact gprs_setGpr ..

/-- A store: no register, and the bytes of one store. -/
theorem commitsAs_store {type : MemAccessType} {size : Nat} {rs1 rs2 : RegIndex}
    {imm : BitVec 64} (hbase : 8 ∣ m.mem.base.toNat) (hraw : m.mem.get32 m.core.pc = .ok raw)
    (htype : storeSize type = some size) (hsize : size ∣ 8)
    (haligned : size ∣ (m.core.getGpr rs1 + imm).toNat)
    (hload : (m.mem.bytes.load (m.core.getGpr rs1 + imm) size).isSome) :
    CommitsAs (.store { type := type, imm := imm, rs1 := rs1, rs2 := rs2 }) m
      { pc := m.core.pc + 4
        x := m.core.gprs
        mem := m.mem.bytes.store
          { addr := m.core.getGpr rs1 + imm, size := size
            value := (m.core.getGpr rs2).toNat } } := by
  have hnatural := Memory.natural_of_load hbase hsize haligned hload
  have hstore : storeOf m.core (.store { type := type, imm := imm, rs1 := rs1, rs2 := rs2 }) =
      some { addr := m.core.getGpr rs1 + imm, size := size
             value := (m.core.getGpr rs2).toNat } := by
    simp only [storeOf, dataAccess, htype, storeValue, Option.map_some, Option.bind_eq_bind,
      Option.bind_some, Option.pure_def]
  obtain ⟨write, hperforms, hexec⟩ := execute_of_storeOf m.mem hstore haligned
  obtain ⟨mem, hwrite⟩ := writeMem_of_natural write hbase hperforms.supported
    (by rw [hperforms.addr, hperforms.size]; exact hnatural)
  have hmems : writeMems [write] m.mem = .ok () mem := by
    rw [writeMems_cons, hwrite]
    rfl
  have hfits : write.value.toNat < 256 ^ write.size.toNat := by
    rw [hperforms.value, hperforms.size]
    exact Nat.mod_lt _ (by positivity)
  have hstep := step_of_normal hexec
  rw [hraw] at hstep
  dsimp only at hstep
  rw [hmems] at hstep
  obtain ⟨hbase', hbytes⟩ := hperforms.writeMem hbase hwrite
  refine ⟨_, _, hstep, ?_, rfl, rfl, rfl, hbase', ?_⟩
  · unfold Machine.hart
    rw [hbytes]
    rfl
  · exact (writeMem_stored hbase hperforms.supported hfits hwrite).length

/-- **What the hart does, the simulator commits.** -/
theorem commitsAs_of_act {action : Action} {decoded : DecodedInsn} {h : Hart}
    (hbase : 8 ∣ m.mem.base.toNat) (hraw : m.mem.get32 m.core.pc = .ok raw)
    (hspells : Spells action decoded) (hdeparts : ¬ Departs m.hart action)
    (hact : m.hart.act action = some h) : CommitsAs decoded m h := by
  have hpc : 4 ∣ m.core.pc.toNat := ((Memory.get32_ok_iff hbase).mp hraw).1
  have hram := contains_of_get32 hraw
  cases action with
  | compute insn =>
    obtain ⟨rfl, hlegal⟩ := hspells
    obtain ⟨s, hexec, rfl⟩ := Option.map_eq_some_iff.mp hact
    exact (commitsTo_compute hpc hram hlegal hdeparts hexec).commitsAs
  | jalr rd rs1 imm =>
    obtain rfl := hspells
    obtain ⟨haligned, hact⟩ := Option.ite_none_right_eq_some.mp hact
    -- bit 0 is clear, so clearing it changes nothing
    have hclear : (m.core.getGpr rs1 + imm) &&& ~~~1#64 = m.core.getGpr rs1 + imm := by
      ext i hi
      have hbit : (m.core.getGpr rs1 + imm).getLsbD 0 = false := Bool.not_eq_true _ ▸ hdeparts
      simp only [BitVec.getElem_and, BitVec.getElem_not, BitVec.getElem_one]
      rcases Nat.eq_zero_or_pos i with rfl | hpos
      · rw [BitVec.getLsbD_eq_getElem (by decide)] at hbit
        simp [hbit]
      · simp [Nat.pos_iff_ne_zero.mp hpos]
    have hcommit := @commitsTo_of_rd m (.jalr { imm := imm, rs1 := rs1, rd := rd }) hpc hram
      (some (m.core.getGpr rs1 + imm)) rd (m.core.pc + 4) rfl
    cases hact
    rw [show (m.hart.x rs1 + imm) &&& ~~~1#64 = m.core.getGpr rs1 + imm from hclear]
    exact hcommit.commitsAs
  | load size signed rd rs1 imm =>
    obtain ⟨type, rfl, htype, hsize, hvalue⟩ := hspells
    obtain ⟨haligned, hact⟩ := Option.ite_none_right_eq_some.mp hact
    obtain ⟨n, hload, rfl⟩ := Option.map_eq_some_iff.mp hact
    exact commitsAs_load hbase hraw htype hsize (hvalue n) haligned hload
  | store size rs1 rs2 imm =>
    obtain ⟨type, rfl, htype, hsize⟩ := hspells
    obtain ⟨⟨haligned, hload⟩, hact⟩ := Option.ite_none_right_eq_some.mp hact
    cases hact
    exact commitsAs_store hbase hraw htype hsize haligned hload
  | fence =>
    obtain ⟨type, rfl, htype⟩ := hspells
    cases hact
    rcases htype with rfl | rfl
    · exact (@commitsTo_of_pc m _ hpc hram none rfl).commitsAs
    · exact (@commitsTo_of_pc m _ hpc hram none rfl).commitsAs

end Forward

/-! ## §4. From the simulator to the hart -/

section Backward

variable {m m' : Machine} {decoded : DecodedInsn} {commit : Commit}

/-- The pc that a commit leaves. -/
theorem commit_pc (h : step decoded m = .ok (some commit) m') :
    m'.core.pc = (jumpTo m.core decoded).getD (m.core.pc + 4) := by
  rcases step_ok_cases h with ⟨_, -, hr, -⟩ | ⟨result, raw, logged, hx, -, hregs, -, -⟩
  · cases hr
  · rw [← nextPc_eq_jumpTo hx]
    exact (writeRegs_pc_priv hregs).1

/-- A step that commits was no exception. -/
theorem not_exception_of_commit (h : step decoded m = .ok (some commit) m')
    {exception : Exception} : execute m.core m.mem decoded ≠ .ok (.exception exception) := by
  intro hx
  rw [step_of_exception hx] at h
  cases h

/-- A load that commits found its bytes. -/
theorem load_of_commit {insn : LoadInsn} {size : Nat} (hbase : 8 ∣ m.mem.base.toNat)
    (htype : loadSize insn.type = some size) (hsize : size ∣ 8)
    (h : step (.load insn) m = .ok (some commit) m') :
    size ∣ (m.core.getGpr insn.rs1 + insn.imm).toNat ∧
      ∃ n, m.mem.bytes.load (m.core.getGpr insn.rs1 + insn.imm) size = some n := by
  have hexec : execute m.core m.mem (.load insn) = _ := executeLoad_eq htype
  by_cases haligned : size ∣ (m.core.getGpr insn.rs1 + insn.imm).toNat
  · refine ⟨haligned, ?_⟩
    rw [if_pos haligned, loadData_eq _ _ htype] at hexec
    cases hcell : m.mem.getCell size (m.core.getGpr insn.rs1 + insn.imm) with
    | error fault =>
      rw [hcell] at hexec
      rw [step_of_fault hexec] at h
      cases h
    | ok n => exact ⟨n, ((Memory.getCell_ok_iff hbase hsize).mp hcell).2⟩
  · rw [if_neg haligned] at hexec
    exact absurd hexec (not_exception_of_commit h)

/-- A store that commits found its bytes. -/
theorem store_of_commit {insn : StoreInsn} {size : Nat} (hbase : 8 ∣ m.mem.base.toNat)
    (htype : storeSize insn.type = some size) (h : step (.store insn) m = .ok (some commit) m') :
    size ∣ (m.core.getGpr insn.rs1 + insn.imm).toNat ∧
      (m.mem.bytes.load (m.core.getGpr insn.rs1 + insn.imm) size).isSome := by
  have hexec : execute m.core m.mem (.store insn) = _ := executeStore_eq htype
  by_cases haligned : size ∣ (m.core.getGpr insn.rs1 + insn.imm).toNat
  · refine ⟨haligned, ?_⟩
    obtain ⟨p, hdata, hp, hsupported, hvalue⟩ :=
      storeData_ok m.core (m.core.getGpr insn.rs2) htype
    rw [if_pos haligned, hdata] at hexec
    rcases step_ok_cases h with ⟨_, hx, -, -⟩ | ⟨result, raw, logged, hx, -, -, hmems, -⟩
    · exact absurd hx (not_exception_of_commit h)
    · rw [hexec] at hx
      cases hx
      have hfits : p.1.toNat < 256 ^ p.2.toNat := by
        rw [hvalue, hp]
        exact Nat.mod_lt _ (by positivity)
      rw [writeMems_cons] at hmems
      split at hmems
      · cases hmems
      next mid hwrite =>
        have hstored := writeMem_stored hbase hsupported hfits hwrite
        have hload := hstored.isSome_load
        rwa [hp] at hload
  · rw [if_neg haligned] at hexec
    exact absurd hexec (not_exception_of_commit h)

/-- **What the simulator commits, the hart does**, when pc stays at an instruction boundary. -/
theorem act_of_commit {action : Action} (hbase : 8 ∣ m.mem.base.toNat)
    (hspells : Spells action decoded)
    (h : step decoded m = .ok (some commit) m') (hpc : 4 ∣ m'.core.pc.toNat) :
    ∃ h', m.hart.act action = some h' := by
  rw [commit_pc h] at hpc
  cases action with
  | compute insn =>
    obtain ⟨rfl, -⟩ := hspells
    cases insn with
    | jal rd imm => exact ⟨_, congrArg (Option.map _) (if_pos hpc)⟩
    | branch cond rs1 rs2 imm =>
      have hjump : jumpTo m.core (toDecoded (.branch cond rs1 rs2 imm)) =
          if cond.Holds (m.core.getGpr rs1) (m.core.getGpr rs2) then some (m.core.pc + imm)
          else none := by
        show (if shouldBranch m.core _ = .ok true then _ else _) = _
        rw [shouldBranch_eq]
        simp only [Except.ok.injEq, decide_eq_true_eq]
      rw [hjump] at hpc
      by_cases hcond : cond.Holds (m.isaState.x rs1) (m.isaState.x rs2)
      · rw [if_pos (show cond.Holds (m.core.getGpr rs1) (m.core.getGpr rs2) from hcond)] at hpc
        exact ⟨_, congrArg (Option.map _) ((if_pos hcond).trans (if_pos hpc))⟩
      · exact ⟨_, congrArg (Option.map _) (if_neg hcond)⟩
    | _ => exact ⟨_, rfl⟩
  | jalr rd rs1 imm =>
    obtain rfl := hspells
    have hjump : 4 ∣ (m.core.getGpr rs1 + imm).toNat := hpc
    refine ⟨_, if_pos ?_⟩
    -- a multiple of 4 has bit 0 clear
    show 4 ∣ ((m.core.getGpr rs1 + imm) &&& ~~~1#64).toNat
    rwa [clearBit0_of_aligned hjump]
  | load size signed rd rs1 imm =>
    obtain ⟨type, rfl, htype, hsize, -⟩ := hspells
    obtain ⟨haligned, n, hload⟩ := load_of_commit hbase htype hsize h
    exact ⟨_, (if_pos haligned).trans (congrArg (Option.map _) hload)⟩
  | store size rs1 rs2 imm =>
    obtain ⟨type, rfl, htype, -⟩ := hspells
    exact ⟨_, if_pos (store_of_commit hbase htype h)⟩
  | fence => exact ⟨_, rfl⟩

end Backward

/-! ## §5. One iteration -/

section Iteration

variable {m m' : Machine} {action : Action}

/-- The hart fetches what the simulator does. -/
theorem fetch_iff (hbase : 8 ∣ m.mem.base.toNat) :
    m.hart.fetch = some action ↔
      ∃ word, m.mem.get32 m.core.pc = .ok word ∧ Action.ofWord word = some action := by
  rw [Hart.fetch_iff]
  constructor
  · rintro ⟨haligned, n, hload, hword⟩
    have hcell := (Memory.getCell_ok_iff hbase (by decide)).mpr ⟨haligned, hload⟩
    refine ⟨BitVec.ofNat 32 n, ?_, hword⟩
    unfold Memory.get32
    rw [show m.mem.getCell 4 m.core.pc = .ok n from hcell]
    rfl
  · rintro ⟨word, hraw, hword⟩
    obtain ⟨haligned, hload⟩ := (Memory.get32_ok_iff hbase).mp hraw
    refine ⟨haligned, word.toNat, hload, ?_⟩
    rw [BitVec.ofNat_toNat, BitVec.setWidth_eq]
    exact hword

theorem Spells.valid {decoded : DecodedInsn} (h : Spells action decoded) :
    decoded ≠ .invalid := by
  rintro rfl
  cases action with
  | compute insn =>
    obtain ⟨h, -⟩ := h
    cases insn <;> cases h
  | jalr => cases h
  | load | store | fence =>
    obtain ⟨_, h, -⟩ := h
    cases h

/-- **A step of the hart** is an iteration that commits it. -/
theorem loopStep_of_hart {h : Hart} (hbase : 8 ∣ m.mem.base.toNat)
    (hstep : m.hart.Step action h) (hdeparts : ¬ Departs m.hart action) :
    ∃ commit m', LoopStep m (some commit) m' ∧ Action.ofWord commit.insn = some action ∧
      Follows m h m' := by
  obtain ⟨word, hraw, hword⟩ := (fetch_iff hbase).mp hstep.1
  obtain ⟨decoded, hdecode, hspells⟩ := spells_of_word hword
  obtain ⟨commit, m', hcommit, hfollows⟩ :=
    commitsAs_of_act hbase hraw hspells hdeparts hstep.2
  have hloop := loopStep_of_word hraw hdecode hspells.valid hcommit
  refine ⟨commit, m', hloop, ?_, hfollows⟩
  -- the commit names the word that was fetched
  have hfetched := hloop.fetched.2.1
  rw [hraw] at hfetched
  cases hfetched
  exact hword

/-- **An iteration that commits an instruction of RV64IM** is a step of the hart. -/
theorem hart_of_loopStep {commit : Commit} (hbase : 8 ∣ m.mem.base.toNat)
    (hloop : LoopStep m (some commit) m') (hword : Action.ofWord commit.insn = some action)
    (hdeparts : ¬ Departs m.hart action) (hpc : 4 ∣ m'.core.pc.toNat) :
    m.hart.Step action m'.hart ∧ Beside m m' := by
  have hraw := hloop.fetched.2.1
  have hfetch := (fetch_iff hbase).mpr ⟨_, hraw, hword⟩
  obtain ⟨decoded, hdecode, hspells⟩ := spells_of_word hword
  obtain ⟨word, insn, hraw', hinsn, -, hstep⟩ := hloop.step
  rw [hraw] at hraw'
  cases hraw'
  rw [hdecode] at hinsn
  cases hinsn
  obtain ⟨h, hact⟩ := act_of_commit hbase hspells hstep hpc
  -- the simulator is deterministic, so it went where the hart goes
  obtain ⟨commit', mid, hstep', hfollows⟩ := commitsAs_of_act hbase hraw hspells hdeparts hact
  rw [hstep] at hstep'
  cases hstep'
  rw [hfollows.hart]
  exact ⟨⟨hfetch, hact⟩, hfollows.beside⟩

end Iteration

/-! ## §6. Runs -/

/-- The iteration committed an instruction of RV64IM, and one on which the simulator does not
depart from the specification. -/
def CommitsInteger (m : Machine) (r : Option Commit) : Prop :=
  ∃ commit action, r = some commit ∧ Action.ofWord commit.insn = some action ∧
    ¬ Departs m.hart action

/-- An iteration that leaves pc at an instruction boundary. -/
def AlignedStep (m : Machine) (r : Option Commit) (m' : Machine) : Prop :=
  LoopStep m r m' ∧ 4 ∣ m'.core.pc.toNat

section Runs

variable {m m' : Machine} {trace : List (Machine × Option Commit)}

/-- In a run only the last pc can be misaligned: the others were fetched from. -/
theorem aligned_run (hbase : 8 ∣ m.mem.base.toNat) (run : Run LoopStep m trace m')
    (hpc : 4 ∣ m'.core.pc.toNat) : Run AlignedStep m trace m' := by
  induction run with
  | nil s => exact .nil s
  | cons hstep rest ih =>
    obtain ⟨word, insn, -, -, -, hinsn⟩ := hstep.step
    have hbase' := (step_over hbase hinsn).base ▸ hbase
    refine .cons ⟨hstep, ?_⟩ (ih hbase' hpc)
    cases rest with
    | nil => exact hpc
    | cons hnext _ =>
      obtain ⟨word', -, hraw, -⟩ := hnext.step
      exact ((Memory.get32_ok_iff hbase').mp hraw).1

/-- The hart's steps, matched by iterations. -/
theorem hart_matched (hbase : 8 ∣ m.mem.base.toNat) :
    Matched Hart.Step LoopStep (fun h s => Follows m h s ∧ 4 ∣ h.pc.toNat)
      (fun h action => ¬ Departs h action) CommitsInteger := by
  rintro _ action t s ⟨⟨rfl, hbeside⟩, haligned⟩ hdeparts hstep
  have hbase' : 8 ∣ s.mem.base.toNat := hbeside.base ▸ hbase
  obtain ⟨commit, s', hloop, hword, hfollows⟩ := loopStep_of_hart hbase' hstep hdeparts
  exact ⟨_, s', hloop, ⟨commit, action, rfl, hword, hdeparts⟩,
    ⟨hfollows.hart, hbeside.trans hfollows.beside⟩, Hart.act_aligned haligned hstep.2⟩

/-- Iterations, matched by the hart's steps. -/
theorem loop_matched (hbase : 8 ∣ m.mem.base.toNat) :
    Matched AlignedStep Hart.Step (fun s h => s.hart = h ∧ Beside m s) CommitsInteger
      fun h action => ¬ Departs h action := by
  rintro s _ t _ ⟨rfl, hbeside⟩ ⟨commit, action, rfl, hword, hdeparts⟩ ⟨hloop, haligned⟩
  obtain ⟨hstep, hnext⟩ :=
    hart_of_loopStep (hbeside.base ▸ hbase) hloop hword hdeparts haligned
  exact ⟨action, _, hstep, hdeparts, rfl, hbeside.trans hnext⟩

/-- **The simulator refines the specified hart, and the hart the simulator**, for runs of any
length from any machine, as long as no instruction of the run is one on which they depart: `n`
steps of the hart lead to `h` exactly when `n` iterations that commit instructions of RV64IM
lead to a machine that stands for `h`; and these iterations change nothing else of the
machine. -/
theorem lockstep_iff (hbase : 8 ∣ m.mem.base.toNat) (hpc : 4 ∣ m.core.pc.toNat) (n : Nat)
    (h : Hart) :
    ((∃ actions, actions.length = n ∧ Run Hart.Step m.hart actions h ∧
      ∀ p ∈ actions, ¬ Departs p.1 p.2) ↔
    ∃ trace m', trace.length = n ∧ Run LoopStep m trace m' ∧
      (∀ p ∈ trace, CommitsInteger p.1 p.2) ∧ 4 ∣ m'.core.pc.toNat ∧ m'.hart = h) ∧
    ∀ trace m', Run LoopStep m trace m' → (∀ p ∈ trace, CommitsInteger p.1 p.2) →
      4 ∣ m'.core.pc.toNat → Beside m m' := by
  have backward {trace : List (Machine × Option Commit)} {m' : Machine}
      (run : Run LoopStep m trace m') (hinteger : ∀ p ∈ trace, CommitsInteger p.1 p.2)
      (hpc' : 4 ∣ m'.core.pc.toNat) :=
    (aligned_run hbase run hpc').forward (loop_matched hbase) hinteger ⟨rfl, .refl m⟩
  refine ⟨⟨?_, ?_⟩, ?_⟩
  · rintro ⟨actions, hlength, run, hdeparts⟩
    obtain ⟨trace, m', hlength', run', hinteger, ⟨rfl, -⟩, haligned⟩ :=
      run.forward (hart_matched hbase) hdeparts ⟨⟨rfl, .refl m⟩, hpc⟩
    exact ⟨trace, m', hlength'.trans hlength, run', hinteger, haligned, rfl⟩
  · rintro ⟨trace, m', hlength, run, hinteger, hpc', rfl⟩
    obtain ⟨actions, h', hlength', run', hdeparts, rfl, -⟩ := backward run hinteger hpc'
    exact ⟨actions, hlength'.trans hlength, run', hdeparts⟩
  · intro trace m' run hinteger hpc'
    obtain ⟨actions, h', -, -, -, -, hbeside⟩ := backward run hinteger hpc'
    exact hbeside

end Runs

/-- The hart executes both instructions. -/
theorem lockstep_iff_store :
    ∃ (actions : List (Hart × Action)) (m' : Machine), actions.length = 2 ∧
      Run Hart.Step (Machine.boot storeOverItself).hart actions m'.hart ∧
      m'.mem.get32 0x80000004 = .ok 0x80000000 := by
  have hrun : (loopTrace 2 (Machine.boot storeOverItself)).any (fun p =>
      decide (p.1.length = 2 ∧ (∀ q ∈ p.1, (q.2.bind fun c => Action.ofWord c.insn) ∈
          [some (.compute (.auipc 1 0)), some (.store 4 1 1 4)]) ∧
        p.2.core.pc = 0x80000008 ∧ p.2.mem.get32 0x80000004 = .ok 0x80000000)) = true := by
    decide +kernel
  obtain ⟨⟨trace, m'⟩, htrace, hp⟩ := (Option.any_eq_true ..).mp hrun
  obtain ⟨hlength, hactions, hpc, hword⟩ := of_decide_eq_true hp
  have hinteger : ∀ q ∈ trace, CommitsInteger q.1 q.2 := by
    rintro ⟨s, r⟩ hq
    have hmem := hactions _ hq
    simp only [List.mem_cons, List.not_mem_nil, or_false] at hmem
    rcases hmem with h | h <;> obtain ⟨commit, hr, haction⟩ := Option.bind_eq_some_iff.mp h
    · exact ⟨commit, _, hr, haction, id⟩
    · exact ⟨commit, _, hr, haction, id⟩
  obtain ⟨actions, hlength', run', -⟩ :=
    (lockstep_iff (by decide) (by decide) 2 m'.hart).1.mpr
      ⟨trace, m', hlength, run_of_loopTrace htrace, hinteger, by rw [hpc]; decide, rfl⟩
  exact ⟨actions, m', hlength', run', hword⟩

end ZincSim
