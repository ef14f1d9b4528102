/-
  ZincSim.Machine.Step — `Executor::step` of `execute.cpp` and the loop of
  `main.cpp`.

  A call changes the core and the memory in place and may throw after a change,
  so it is a state transformer that keeps the state of a failed call.
-/
import ZincSim.Machine.Execute
import ZincSim.Machine.Decode

namespace ZincSim

/-- What `Executor::step` works on: the core and the memory. -/
structure Machine where
  core : Core
  mem : Memory

/-- A C++ procedure on a state, which it may leave changed when it fails. -/
abbrev Proc (σ α : Type) := EStateM Fault σ α

/-! ## §1. Plumbing -/

/-- A computation that only reads. -/
def Proc.ofExcept {σ α : Type} (result : Except Fault α) : Proc σ α :=
  fun s => match result with
    | .ok a => .ok a s
    | .error fault => .error fault s

/-- A procedure on the core. -/
def onCore {α : Type} (proc : Proc Core α) : Proc Machine α :=
  fun m => match proc m.core with
    | .ok a core => .ok a { m with core := core }
    | .error fault core => .error fault { m with core := core }

/-- A procedure on the memory. -/
def onMem {α : Type} (proc : Proc Memory α) : Proc Machine α :=
  fun m => match proc m.mem with
    | .ok a mem => .ok a { m with mem := mem }
    | .error fault mem => .error fault { m with mem := mem }

/-! ## §2. The write list -/

/-- A write of x0. -/
def isX0Write (write : RegWrite) : Bool := write.type == .x && write.num == 0

/-- `Drop x0 write.` -/
def dropX0Writes (writes : List RegWrite) : List RegWrite :=
  writes.filter (!isX0Write ·)

/-- One round of the loop that fills `expanded_reg_writes`: a write of fcsr
becomes one of fflags and one of frm. -/
def expandFcsrWrite (write : RegWrite) : List RegWrite :=
  if write.type = .csr ∧ write.num = Csr.fcsr.num then
    [csrWrite Csr.fflags.num (write.value &&& 0x1f),
      csrWrite Csr.frm.num ((write.value >>> 5) &&& 0x7#64)]
  else [write]

/-- `expanded_reg_writes`. -/
def expandFcsrWrites (writes : List RegWrite) : List RegWrite :=
  writes.flatMap expandFcsrWrite

/-- The lambda of `writes_fp_state`. -/
def isFpStateWrite (write : RegWrite) : Bool :=
  match write.type with
  | .f => true
  | .x => false
  | .csr => write.num == Csr.fflags.num || write.num == Csr.frm.num

/-- `writes_fp_state`. -/
def writesFpState (writes : List RegWrite) : Bool := writes.any isFpStateWrite

/-- `new_mstatus`: the mstatus with FS = Dirty. -/
def dirtyMstatus (mstatus : BitVec 64) : BitVec 64 :=
  (mstatus &&& ~~~mstatusFsMask) ||| mstatusFsDirty

/-- The write of mstatus that `step` appends. -/
def dirtyFsWrites (core : Core) (writes : List RegWrite) : List RegWrite :=
  let mstatus := core.getCsr .mstatus
  if writesFpState writes && dirtyMstatus mstatus != mstatus then
    [csrWrite Csr.mstatus.num (dirtyMstatus mstatus)]
  else []

/-- The list that the write-back loop runs over. -/
def finalRegWrites (core : Core) (writes : List RegWrite) : List RegWrite :=
  let writes := expandFcsrWrites (dropX0Writes writes)
  writes ++ dirtyFsWrites core writes

/-! ## §3. Write-back -/

/-- One round of the write-back loop over `reg_writes`: the logged write and the
new core.  An X or F number past the register file is undefined. -/
def writeReg (core : Core) (write : RegWrite) : Except Fault (RegWrite × Core) :=
  match write.type with
  | .x =>
      if write.num.toNat < 32 then
        .ok (write, core.setGpr (write.num.setWidth 5) write.value)
      else .error .undefined
  | .csr => do
      let (value, core) ← core.setCsr (Csr.ofNum write.num) write.value
      -- the log gets the value that was stored, not the one that was asked for
      return ({ write with value := value }, core)
  | .f =>
      if write.num.toNat < 32 then
        .ok (write, core.setFpr (write.num.setWidth 5) (write.value.setWidth 32))
      else .error .undefined

/-- The write-back loop over `reg_writes`. -/
def writeRegs : List RegWrite → Proc Core (List RegWrite)
  | [] => pure []
  | write :: writes => do
      let (write, core) ← Proc.ofExcept (writeReg (← get) write)
      set core
      return write :: (← writeRegs writes)

/-- One round of the loop over `mem_writes`. -/
def writeMem (mem : Memory) (write : MemAccess) : Except Fault Memory :=
  if write.size = 1 then mem.set8 write.addr (write.value.setWidth 8)
  else if write.size = 2 then mem.set16 write.addr (write.value.setWidth 16)
  else if write.size = 4 then mem.set32 write.addr (write.value.setWidth 32)
  else if write.size = 8 then mem.set64 write.addr write.value
  else
    .error (.runtimeError ("Unsupported memory write size: " ++ fmtDec write.size.toNat))

/-- The loop over `mem_writes`. -/
def writeMems : List MemAccess → Proc Memory Unit
  | [] => pure ()
  | write :: writes => do
      set (← Proc.ofExcept (writeMem (← get) write))
      writeMems writes

/-! ## §4. `Executor::step` -/

/-- `core.set_pc(...); core.set_priv(...);` -/
def advance (core : Core) (result : NormalStep) : Core :=
  (core.setPc (result.nextPc.getD (core.pc + 4))).setPriv
    (result.nextPrivilege.getD core.priv)

/-- `Executor::step`. -/
def step (insn : DecodedInsn) : Proc Machine (Option Commit) := do
  let m ← get
  match ← Proc.ofExcept (execute m.core m.mem insn) with
  | .exception exception =>
      onCore do set (← Proc.ofExcept ((← get).takeException exception))
      return none
  | .normal result =>
      -- the last read of the old state; a throw here changes nothing
      let rawInsn ← Proc.ofExcept (m.mem.get32 m.core.pc)
      -- pc and the privilege move before the writes, so a refused write leaves them moved
      onCore do set (advance m.core result)
      let regWrites ← onCore (writeRegs (finalRegWrites m.core result.regWrites))
      onMem (writeMems result.memWrites)
      return some
        { pc := m.core.pc
          insn := rawInsn
          priv := m.core.priv
          regWrites := regWrites
          memReads := result.memReads
          memWrites := result.memWrites }

/-! ## §5. The loop of `main` -/

/-- The fetch-decode-step part of one iteration. -/
def fetchDecodeStep : Proc Machine (Option Commit) := do
  let m ← get
  let insn ← Proc.ofExcept (m.mem.get32 m.core.pc)
  let decoded ← Proc.ofExcept (decode insn)
  if decoded = .invalid then
    throw (.runtimeError
      ("Invalid instruction at " ++ fmtHex 16 m.core.pc.toNat ++ ": " ++ fmtHex 8 insn.toNat))
  step decoded

end ZincSim
