/-
  ZincSim.Step.DataAccess — alignment of loads and stores.

  The integer loads and stores test the alignment of their address before the
  memory is touched, which discharges the `assert`s of `ram.cpp`.  FLW and FSW go
  to the memory without the test, so they meet the same rule only at aligned
  addresses (`trapsOnMisaligned_iff`).
-/
import ZincSim.Step.Run
import ZincSim.Step.Outcome
import ZincSim.Lib.BitField

namespace ZincSim

open TransitionSystem

/-! ## §1. Data accesses -/

/-- The memory access of a load or store: its address, its size in bytes and the
mcause of its misaligned exception. -/
structure DataAccess where
  addr : BitVec 64
  size : Nat
  mcause : BitVec 64
  deriving DecidableEq, Repr

/-- The size of a load of a defined type. -/
def loadSize : MemAccessType → Option Nat
  | .b | .bu => some 1
  | .h | .hu => some 2
  | .w | .wu => some 4
  | .d => some 8
  | .other _ => none

/-- The size of a store of a defined type. -/
def storeSize : MemAccessType → Option Nat
  | .b => some 1
  | .h => some 2
  | .w => some 4
  | .d => some 8
  | _ => none

/-- The access of a load or store of a defined type. -/
def dataAccess (core : Core) : DecodedInsn → Option DataAccess
  | .load insn => (loadSize insn.type).map fun size =>
      { addr := core.getGpr insn.rs1 + insn.imm, size := size, mcause := 4 }
  | .store insn => (storeSize insn.type).map fun size =>
      { addr := core.getGpr insn.rs1 + insn.imm, size := size, mcause := 6 }
  | .loadFp insn => some
      { addr := core.getGpr insn.rs1 + insn.imm, size := 4, mcause := 4 }
  | .storeFp insn => some
      { addr := core.getGpr insn.rs1 + insn.imm, size := 4, mcause := 6 }
  | _ => none

/-- The access itself fails: a load inside `execute`, a store in the loop over
`mem_writes`. -/
def AccessFails (m : Machine) (insn : DecodedInsn) (fault : Fault) : Prop :=
  execute m.core m.mem insn = .error fault ∨
    ∃ result mem, execute m.core m.mem insn = .ok (.normal result) ∧
      writeMems result.memWrites m.mem = .error fault mem

/-- The step takes the misaligned exception exactly at misaligned addresses,
changes no register and no memory there, and its access fails no `assert`. -/
structure TrapsOnMisaligned (m : Machine) (insn : DecodedInsn) (access : DataAccess) : Prop where
  traps_iff :
    (∃ m', step insn m = .ok none m' ∧
      m.core.takeException { mcause := access.mcause, mtval := access.addr } = .ok m'.core) ↔
      ¬ access.size ∣ access.addr.toNat
  frame : ¬ access.size ∣ access.addr.toNat → ∀ r m', step insn m = .ok r m' →
    m'.core.gprs = m.core.gprs ∧ m'.core.fprs = m.core.fprs ∧ m'.mem = m.mem
  no_assertion : ∀ fault, AccessFails m insn fault → fault.isAssertion = false

/-! ## §2. The memory at aligned addresses -/

theorem getCell_aligned {mem : Memory} {size : Nat} {addr : BitVec 64} {fault : Fault}
    (haligned : size ∣ addr.toNat) (h : mem.getCell size addr = .error fault) :
    fault.isAssertion = false := by
  unfold Memory.getCell at h
  rw [if_neg (fun hne => hne (Nat.mod_eq_zero_of_dvd haligned))] at h
  split at h
  · cases h
  · cases h
    rfl

theorem setCell_aligned {mem : Memory} {size value : Nat} {addr : BitVec 64} {fault : Fault}
    (haligned : size ∣ addr.toNat) (h : mem.setCell size addr value = .error fault) :
    fault.isAssertion = false := by
  unfold Memory.setCell at h
  rw [if_neg (fun hne => hne (Nat.mod_eq_zero_of_dvd haligned))] at h
  split at h
  · cases h
  · cases h
    rfl

/-- The error of a mapped computation is that of the computation. -/
theorem map_error {ε α β : Type} {f : α → β} {x : Except ε α} {e : ε}
    (h : f <$> x = .error e) : x = .error e := by
  cases x with
  | error e' =>
    cases h
    rfl
  | ok a => cases h

theorem get32_aligned {mem : Memory} {addr : BitVec 64} {fault : Fault}
    (haligned : 4 ∣ addr.toNat) (h : mem.get32 addr = .error fault) :
    fault.isAssertion = false :=
  getCell_aligned haligned (map_error h)

/-- An aligned load fails no `assert`. -/
theorem loadData_aligned {mem : Memory} {addr : BitVec 64} {type : MemAccessType} {size : Nat}
    {fault : Fault} (hsize : loadSize type = some size) (haligned : size ∣ addr.toNat)
    (h : loadData mem addr type = .error fault) : fault.isAssertion = false := by
  have hbyte (h : mem.get8 addr = .error fault) : fault.isAssertion = false := by
    unfold Memory.get8 at h
    split at h
    · cases h
    · cases h
      rfl
  -- the extension of the loaded value fails nothing
  cases type <;> cases hsize <;> replace h := map_error h
  case b | bu => exact hbyte h
  all_goals exact getCell_aligned haligned (map_error h)

/-- A store at an aligned address fails no `assert`. -/
theorem writeMem_aligned {mem : Memory} {access : MemAccess} {fault : Fault}
    (haligned : access.size.toNat ∣ access.addr.toNat)
    (h : writeMem mem access = .error fault) : fault.isAssertion = false := by
  obtain ⟨addr, value, size⟩ := access
  unfold writeMem at h
  dsimp only at h haligned
  split at h
  · -- a byte store asserts nothing; the cells assert what is given
    unfold Memory.set8 at h
    split at h
    · cases h
    · cases h
      rfl
  · split at h
    next hsize => exact setCell_aligned (by rw [hsize] at haligned; exact haligned) h
    · split at h
      next hsize => exact setCell_aligned (by rw [hsize] at haligned; exact haligned) h
      · split at h
        next hsize => exact setCell_aligned (by rw [hsize] at haligned; exact haligned) h
        · cases h
          rfl

/-- A single store at an aligned address fails no `assert`. -/
theorem writeMems_aligned {mem mem' : Memory} {access : MemAccess} {fault : Fault}
    (haligned : access.size.toNat ∣ access.addr.toNat)
    (h : writeMems [access] mem = .error fault mem') : fault.isAssertion = false := by
  rw [writeMems_cons] at h
  split at h
  next f hwrite =>
    cases h
    exact writeMem_aligned haligned hwrite
  · cases h

/-! ## §3. The two outcomes of a checked access -/

/-- A step returns no commit exactly when `execute` returned an exception. -/
theorem step_none_iff {insn : DecodedInsn} {m m' : Machine} :
    step insn m = .ok none m' ↔ ∃ exception,
      execute m.core m.mem insn = .ok (.exception exception) ∧
        m' = { m with core := m.core.trapped exception } := by
  constructor
  · intro h
    rcases step_ok_cases h with ⟨exception, hx, -, hm⟩ | ⟨_, _, _, -, -, -, -, hr⟩
    · exact ⟨exception, hx, hm⟩
    · cases hr
  · rintro ⟨exception, hx, rfl⟩
    exact step_of_exception hx

/-- An access that raises its exception when misaligned meets the rule there. -/
theorem trapsOnMisaligned_of_exception {m : Machine} {insn : DecodedInsn}
    {access : DataAccess} (haligned : ¬ access.size ∣ access.addr.toNat)
    (hx : execute m.core m.mem insn =
      .ok (.exception { mcause := access.mcause, mtval := access.addr })) :
    TrapsOnMisaligned m insn access where
  -- trap entry writes CSRs, pc and the privilege only
  traps_iff := iff_of_true ⟨_, step_of_exception hx, takeException_eq _ _⟩ haligned
  frame := by
    intro _ r m' h
    rw [step_of_exception hx] at h
    cases h
    exact ⟨rfl, rfl, rfl⟩
  no_assertion := by
    rintro fault (h | ⟨result, mem, h, -⟩) <;> rw [hx] at h <;> cases h

/-- At an aligned address an access that raises no exception and fails no
`assert` meets the rule. -/
theorem trapsOnMisaligned_of_aligned {m : Machine} {insn : DecodedInsn}
    {access : DataAccess} (haligned : access.size ∣ access.addr.toNat)
    (hx : ∀ exception, execute m.core m.mem insn ≠ .ok (.exception exception))
    (hfault : ∀ fault, AccessFails m insn fault → fault.isAssertion = false) :
    TrapsOnMisaligned m insn access where
  traps_iff := by
    refine iff_of_false ?_ (not_not.mpr haligned)
    rintro ⟨m', h, -⟩
    obtain ⟨exception, he, -⟩ := step_none_iff.mp h
    exact hx exception he
  frame := fun h => absurd haligned h
  no_assertion := hfault

/-- An access that raises no exception misses the rule at a misaligned address. -/
theorem not_trapsOnMisaligned {m : Machine} {insn : DecodedInsn} {access : DataAccess}
    (haligned : ¬ access.size ∣ access.addr.toNat)
    (hx : ∀ exception, execute m.core m.mem insn ≠ .ok (.exception exception)) :
    ¬ TrapsOnMisaligned m insn access := by
  intro h
  obtain ⟨m', hstep, -⟩ := h.traps_iff.mpr haligned
  obtain ⟨exception, he, -⟩ := step_none_iff.mp hstep
  exact hx exception he

/-! ## §4. The four overloads -/

theorem memAccessAligned_load {addr : BitVec 64} {type : MemAccessType} {size : Nat}
    (h : loadSize type = some size) :
    memAccessAligned addr type = .ok (decide (size ∣ addr.toNat)) := by
  cases type <;> cases h <;> simp [memAccessAligned, Nat.dvd_iff_mod_eq_zero]

theorem memAccessAligned_store {addr : BitVec 64} {type : MemAccessType} {size : Nat}
    (h : storeSize type = some size) :
    memAccessAligned addr type = .ok (decide (size ∣ addr.toNat)) :=
  memAccessAligned_load (by cases type <;> first | exact h | cases h)

/-- The result of a load that goes to the memory. -/
def loadResult (insn : LoadInsn) (addr : BitVec 64) (p : BitVec 64 × BitVec 32) : StepResult :=
  .normal
    { regWrites := [xWrite insn.rd p.1]
      memReads := [{ addr := addr, value := p.1, size := p.2 }] }

theorem executeLoad_eq {core : Core} {mem : Memory} {insn : LoadInsn} {size : Nat}
    (hsize : loadSize insn.type = some size) :
    executeLoad core mem insn =
      if size ∣ (core.getGpr insn.rs1 + insn.imm).toNat then
        loadResult insn (core.getGpr insn.rs1 + insn.imm) <$>
          loadData mem (core.getGpr insn.rs1 + insn.imm) insn.type
      else .ok (.exception { mcause := 4, mtval := core.getGpr insn.rs1 + insn.imm }) := by
  unfold executeLoad
  dsimp only
  rw [memAccessAligned_load hsize]
  by_cases haligned : size ∣ (core.getGpr insn.rs1 + insn.imm).toNat
  · rw [if_pos haligned, decide_eq_true haligned]
    cases loadData mem (core.getGpr insn.rs1 + insn.imm) insn.type <;> rfl
  · rw [if_neg haligned, decide_eq_false haligned]
    rfl

theorem load_trapsOnMisaligned {m : Machine} {insn : LoadInsn} {size : Nat}
    (hsize : loadSize insn.type = some size) :
    TrapsOnMisaligned m (.load insn)
      { addr := m.core.getGpr insn.rs1 + insn.imm, size := size, mcause := 4 } := by
  have hexec : execute m.core m.mem (.load insn) = _ := executeLoad_eq hsize
  by_cases haligned : size ∣ (m.core.getGpr insn.rs1 + insn.imm).toNat
  · rw [if_pos haligned] at hexec
    refine trapsOnMisaligned_of_aligned haligned ?_ ?_
    · intro exception h
      rw [hexec] at h
      cases hdata : loadData m.mem (m.core.getGpr insn.rs1 + insn.imm) insn.type <;>
        rw [hdata] at h <;> cases h
    · rintro fault (h | ⟨result, mem, h, hmems⟩) <;> rw [hexec] at h
      · exact loadData_aligned hsize haligned (map_error h)
      · cases hdata : loadData m.mem (m.core.getGpr insn.rs1 + insn.imm) insn.type <;>
          rw [hdata] at h <;> cases h
        cases hmems
  · rw [if_neg haligned] at hexec
    exact trapsOnMisaligned_of_exception haligned hexec

/-- The result of a store that goes to the memory. -/
def storeResult (addr : BitVec 64) (p : BitVec 64 × BitVec 32) : StepResult :=
  .normal { memWrites := [{ addr := addr, value := p.1, size := p.2 }] }

/-- The bytes that a store of a defined type writes: the low ones of the value. -/
theorem storeData_ok (core : Core) {insn : StoreInsn} {size : Nat} (val : BitVec 64)
    (hsize : storeSize insn.type = some size) :
    ∃ p, storeData core insn val = .ok p ∧ p.2.toNat = size ∧ p.2 ∈ [1, 2, 4, 8] ∧
      p.1.toNat = val.toNat % 256 ^ size := by
  obtain ⟨type, imm, rs1, rs2⟩ := insn
  cases type <;> cases hsize
  case b => exact ⟨_, rfl, rfl, by simp, BitField.toNat_and_lowMask val 8 (by decide)⟩
  case h => exact ⟨_, rfl, rfl, by simp, BitField.toNat_and_lowMask val 16 (by decide)⟩
  case w => exact ⟨_, rfl, rfl, by simp, BitField.toNat_and_lowMask val 32 (by decide)⟩
  case d => exact ⟨_, rfl, rfl, by simp, (Nat.mod_eq_of_lt val.isLt).symm⟩

theorem executeStore_eq {core : Core} {insn : StoreInsn} {size : Nat}
    (hsize : storeSize insn.type = some size) :
    executeStore core insn =
      if size ∣ (core.getGpr insn.rs1 + insn.imm).toNat then
        storeResult (core.getGpr insn.rs1 + insn.imm) <$>
          storeData core insn (core.getGpr insn.rs2)
      else .ok (.exception { mcause := 6, mtval := core.getGpr insn.rs1 + insn.imm }) := by
  unfold executeStore
  dsimp only
  rw [memAccessAligned_store hsize]
  by_cases haligned : size ∣ (core.getGpr insn.rs1 + insn.imm).toNat
  · rw [if_pos haligned, decide_eq_true haligned]
    cases storeData core insn (core.getGpr insn.rs2) <;> rfl
  · rw [if_neg haligned, decide_eq_false haligned]
    rfl

theorem store_trapsOnMisaligned {m : Machine} {insn : StoreInsn} {size : Nat}
    (hsize : storeSize insn.type = some size) :
    TrapsOnMisaligned m (.store insn)
      { addr := m.core.getGpr insn.rs1 + insn.imm, size := size, mcause := 6 } := by
  have hexec : execute m.core m.mem (.store insn) = _ := executeStore_eq hsize
  by_cases haligned : size ∣ (m.core.getGpr insn.rs1 + insn.imm).toNat
  · -- `execute` only records the store; the loop over `mem_writes` performs it
    obtain ⟨p, hdata, hp, -⟩ := storeData_ok m.core (m.core.getGpr insn.rs2) hsize
    rw [if_pos haligned, hdata] at hexec
    refine trapsOnMisaligned_of_aligned haligned ?_ ?_
    · intro exception h
      rw [hexec] at h
      cases h
    · rintro fault (h | ⟨result, mem, h, hmems⟩) <;> rw [hexec] at h
      · cases h
      · cases h
        exact writeMems_aligned (by rw [hp]; exact haligned) hmems
  · rw [if_neg haligned] at hexec
    exact trapsOnMisaligned_of_exception haligned hexec

/-- FLW tests nothing: it meets the rule at aligned addresses alone. -/
theorem loadFp_trapsOnMisaligned_iff {m : Machine} {insn : LoadFpInsn} :
    TrapsOnMisaligned m (.loadFp insn)
      { addr := m.core.getGpr insn.rs1 + insn.imm, size := 4, mcause := 4 } ↔
      4 ∣ (m.core.getGpr insn.rs1 + insn.imm).toNat := by
  -- no branch of FLW returns an exception
  have hx : ∀ exception, execute m.core m.mem (.loadFp insn) ≠ .ok (.exception exception) := by
    intro exception h
    have hexec : execute m.core m.mem (.loadFp insn) = executeLoadFp m.core m.mem insn := rfl
    rw [hexec, executeLoadFp] at h
    cases hdata : m.mem.get32 (m.core.getGpr insn.rs1 + insn.imm) <;>
      rw [hdata] at h <;> cases h
  refine ⟨fun h => by_contra fun hne => not_trapsOnMisaligned hne hx h, fun haligned => ?_⟩
  refine trapsOnMisaligned_of_aligned haligned hx ?_
  have hexec : execute m.core m.mem (.loadFp insn) = executeLoadFp m.core m.mem insn := rfl
  rw [executeLoadFp] at hexec
  rintro fault (h | ⟨result, mem, h, hmems⟩) <;> rw [hexec] at h <;>
    cases hdata : m.mem.get32 (m.core.getGpr insn.rs1 + insn.imm) <;> rw [hdata] at h <;> cases h
  · exact get32_aligned haligned hdata
  · cases hmems

/-- FSW tests nothing: it meets the rule at aligned addresses alone. -/
theorem storeFp_trapsOnMisaligned_iff {m : Machine} {insn : StoreFpInsn} :
    TrapsOnMisaligned m (.storeFp insn)
      { addr := m.core.getGpr insn.rs1 + insn.imm, size := 4, mcause := 6 } ↔
      4 ∣ (m.core.getGpr insn.rs1 + insn.imm).toNat := by
  have hx : ∀ exception, execute m.core m.mem (.storeFp insn) ≠ .ok (.exception exception) := by
    intro exception h
    cases h
  refine ⟨fun h => by_contra fun hne => not_trapsOnMisaligned hne hx h, fun haligned => ?_⟩
  refine trapsOnMisaligned_of_aligned haligned hx ?_
  rintro fault (h | ⟨result, mem, h, hmems⟩)
  · cases h
  · cases h
    exact writeMems_aligned haligned hmems

/-! ## §5. The rule -/

/-- The loads and stores of the floating-point registers. -/
def IsFpAccess : DecodedInsn → Prop
  | .loadFp _ | .storeFp _ => True
  | _ => False

/-- **Misaligned data accesses trap**, except those of FLW and FSW: a load or
store of a defined type meets the rule exactly if it is an integer one or its
address is aligned. -/
theorem trapsOnMisaligned_iff {m : Machine} {insn : DecodedInsn} {access : DataAccess}
    (h : dataAccess m.core insn = some access) :
    TrapsOnMisaligned m insn access ↔ (IsFpAccess insn → 4 ∣ access.addr.toNat) := by
  cases insn with
  | load insn =>
    obtain ⟨size, hsize, rfl⟩ := Option.map_eq_some_iff.mp h
    exact iff_of_true (load_trapsOnMisaligned hsize) False.elim
  | store insn =>
    obtain ⟨size, hsize, rfl⟩ := Option.map_eq_some_iff.mp h
    exact iff_of_true (store_trapsOnMisaligned hsize) False.elim
  | loadFp insn =>
    cases h
    exact loadFp_trapsOnMisaligned_iff.trans ⟨fun h _ => h, fun h => h trivial⟩
  | storeFp insn =>
    cases h
    exact storeFp_trapsOnMisaligned_iff.trans ⟨fun h _ => h, fun h => h trivial⟩
  | _ => cases h

/-- `lh x1, 1(x0)` takes the misaligned exception. -/
theorem trapsOnMisaligned_lh :
    TrapsOnMisaligned (Machine.boot [0x00101083]) (.load ⟨.h, 1, 0, 1⟩)
      { addr := 1, size := 2, mcause := 4 } := by
  refine (trapsOnMisaligned_iff ?_).mpr False.elim
  rfl

/-- `flw f0, 1(x0)` fails the assertion of `get_32`. -/
theorem flw_misaligned_asserts :
    ¬ ∀ m insn access, Decoded insn → dataAccess m.core insn = some access →
      TrapsOnMisaligned m insn access := by
  intro h
  have hrule := h (Machine.boot [0x00102007]) (.loadFp ⟨1, 0, 0⟩)
    { addr := 1, size := 4, mcause := 4 } ⟨0x00102007, rfl⟩ rfl
  have hassert : AccessFails (Machine.boot [0x00102007]) (.loadFp ⟨1, 0, 0⟩)
    (.assertion 1 4) := .inl rfl
  have hfalse := hrule.no_assertion _ hassert
  cases hfalse

end ZincSim
