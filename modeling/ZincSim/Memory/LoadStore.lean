/-
  ZincSim.Memory.LoadStore — loads see the latest stores.

  The memory refines a byte map: an aligned store of any width replaces the bytes
  it covers (`writeMem_store`), and an aligned load of any width spells the bytes
  it covers (`getCell_load`).  A run of store steps therefore leaves the latest
  byte at every address, and the load step after it reads those
  (`loads_see_stores`).
-/
import ZincSim.Lib.ByteMap
import ZincSim.Memory.Bytes
import ZincSim.Step.DataAccess
import ZincSim.Step.FinalWrites

namespace ZincSim

open TransitionSystem

/-! ## §1. The memory as a byte map -/

namespace Memory

/-- The bytes by address. -/
def bytes (mem : Memory) : ByteMap 64 := mem.byteAt

/-- The access is naturally aligned and inside the memory. -/
structure Natural (mem : Memory) (addr : BitVec 64) (size : Nat) : Prop where
  aligned : size ∣ addr.toNat
  inside : mem.offset addr + size ≤ mem.data.length

/-- What a store leaves behind is the store of the byte map. -/
theorem Stored.bytes_eq {mem mem' : Memory} {addr value : BitVec 64} {size : Nat}
    (h : mem.Stored mem' addr size value) :
    mem'.bytes = mem.bytes.store { addr := addr, size := size, value := value.toNat } := by
  funext a
  unfold ByteMap.store
  -- an address at distance `i` is the one of byte `i`
  have haddr : addr + BitVec.ofNat 64 (a - addr).toNat = a := by
    rw [BitVec.ofNat_toNat, BitVec.setWidth_eq, BitVec.add_comm, BitVec.sub_add_cancel]
  split
  next hcovers =>
    have hbyte := h.written _ hcovers
    rw [haddr, byteOf_eq] at hbyte
    exact hbyte
  next hcovers =>
    refine h.frame a fun i hi heq => hcovers ?_
    show (a - addr).toNat < size
    rw [heq, BitVec.add_comm, BitVec.add_sub_cancel, BitVec.toNat_ofNat]
    exact (Nat.mod_le _ _).trans_lt hi

/-- **A cell access loads from the byte map.** -/
theorem getCell_load {mem : Memory} {addr : BitVec 64} {size value : Nat}
    (hbase : 8 ∣ mem.base.toNat) (hsize : size ∣ 8) (h : mem.getCell size addr = .ok value) :
    mem.bytes.load addr size = some value := by
  obtain ⟨hvalue, hbytes⟩ := getCell_bytes hbase hsize h
  exact ByteMap.load_eq_some hvalue hbytes

/-- A byte access is a cell access of one byte. -/
theorem get8_eq (mem : Memory) (addr : BitVec 64) :
    mem.get8 addr = (BitVec.ofNat 8 ·) <$> mem.getCell 1 addr := by
  have hstart : mem.cellStart 1 addr = mem.offset addr := cellStart_eq (Nat.one_dvd _)
  have hcontains : mem.Contains 1 addr ↔ mem.offset addr < mem.data.length := by
    rw [Contains, hstart]
    rfl
  unfold get8 getCell
  rw [if_neg (not_not.mpr (Nat.mod_one _))]
  by_cases hin : mem.offset addr < mem.data.length
  · have htake : (mem.data.drop (mem.offset addr)).take 1 = [mem.data[mem.offset addr]] := by
      rw [List.drop_eq_getElem_cons hin]
      rfl
    rw [if_pos (hcontains.mpr hin), hstart, List.getElem?_eq_getElem hin, htake]
    show Except.ok _ = Except.ok _
    simp [fromLE]
  · rw [if_neg fun h => hin (hcontains.mp h), List.getElem?_eq_none (Nat.le_of_not_lt hin)]
    rfl

/-- A cell store at a natural address succeeds. -/
theorem setCell_of_natural {mem : Memory} {addr : BitVec 64} {size : Nat} (value : Nat)
    (hbase : 8 ∣ mem.base.toNat) (hsize : size ∣ 8) (h : mem.Natural addr size) :
    ∃ mem', mem.setCell size addr value = .ok mem' := by
  have hcontains : mem.Contains size addr := by
    rw [Contains, cellStart_eq (offset_dvd hbase hsize h.aligned)]
    exact h.inside
  unfold setCell
  rw [if_neg (fun hne => hne (Nat.mod_eq_zero_of_dvd h.aligned)), if_pos hcontains]
  exact ⟨_, rfl⟩

end Memory

/-- One round of the loop over `mem_writes`, on the byte map. -/
theorem writeMem_store {mem mem' : Memory} {write : MemAccess} (hbase : 8 ∣ mem.base.toNat)
    (hsize : write.size ∈ [1, 2, 4, 8]) (hfits : write.value.toNat < 256 ^ write.size.toNat)
    (h : writeMem mem write = .ok mem') :
    mem'.base = mem.base ∧ mem'.bytes =
      mem.bytes.store { addr := write.addr, size := write.size.toNat,
                        value := write.value.toNat } := by
  have hstored := writeMem_stored hbase hsize hfits h
  exact ⟨hstored.base, hstored.bytes_eq⟩

/-- A store of a supported size at a natural address succeeds. -/
theorem writeMem_of_natural {mem : Memory} (write : MemAccess) (hbase : 8 ∣ mem.base.toNat)
    (hsize : write.size ∈ [1, 2, 4, 8]) (h : mem.Natural write.addr write.size.toNat) :
    ∃ mem', writeMem mem write = .ok mem' := by
  obtain ⟨addr, value, size⟩ := write
  simp only [List.mem_cons, List.not_mem_nil, or_false] at hsize
  rcases hsize with rfl | rfl | rfl | rfl
  · exact ⟨_, if_pos h.inside⟩
  · exact Memory.setCell_of_natural _ hbase (by decide) h
  · exact Memory.setCell_of_natural _ hbase (by decide) h
  · exact Memory.setCell_of_natural _ hbase (by decide) h

/-! ## §2. Store steps -/

/-- The value that a store instruction stores, before it is cut to the size. -/
def storeValue (core : Core) : DecodedInsn → Option Nat
  | .store insn => some (core.getGpr insn.rs2).toNat
  | .storeFp insn => some (core.fprs insn.rs2).toNat
  | _ => none

/-- The store of SB, SH, SW, SD and FSW. -/
def storeOf (core : Core) (insn : DecodedInsn) : Option (ByteMap.Store 64) := do
  let access ← dataAccess core insn
  let value ← storeValue core insn
  return { addr := access.addr, size := access.size, value := value }

/-- `write` performs the store `s`, with the value cut to its size. -/
structure MemAccess.Performs (write : MemAccess) (s : ByteMap.Store 64) : Prop where
  addr : write.addr = s.addr
  size : write.size.toNat = s.size
  supported : write.size ∈ [1, 2, 4, 8]
  value : write.value.toNat = s.value % 256 ^ s.size

theorem MemAccess.Performs.writeMem {write : MemAccess} {s : ByteMap.Store 64}
    (h : write.Performs s) {mem mem' : Memory} (hbase : 8 ∣ mem.base.toNat)
    (hwrite : writeMem mem write = .ok mem') :
    mem'.base = mem.base ∧ mem'.bytes = mem.bytes.store s := by
  have hfits : write.value.toNat < 256 ^ write.size.toNat := by
    rw [h.value, h.size]
    exact Nat.mod_lt _ (by positivity)
  obtain ⟨hbase', hbytes⟩ := writeMem_store hbase h.supported hfits hwrite
  refine ⟨hbase', hbytes.trans ?_⟩
  rw [h.addr, h.size]
  exact ByteMap.store_congr (by rw [h.value, Nat.mod_mod])

/-- At an aligned address a store instruction asks for its store and nothing else. -/
theorem execute_of_storeOf {core : Core} (mem : Memory) {insn : DecodedInsn}
    {s : ByteMap.Store 64} (h : storeOf core insn = some s) (haligned : s.size ∣ s.addr.toNat) :
    ∃ write : MemAccess, write.Performs s ∧
      execute core mem insn = .ok (.normal { memWrites := [write] }) := by
  cases insn with
  | store insn =>
    cases hsize : storeSize insn.type with
    | none => simp [storeOf, dataAccess, hsize] at h
    | some size =>
      simp only [storeOf, dataAccess, hsize, storeValue, Option.map_some, Option.bind_eq_bind,
        Option.bind_some, Option.pure_def, Option.some.injEq] at h
      subst h
      obtain ⟨p, hdata, hp, hsupported, hvalue⟩ :=
        storeData_ok core (core.getGpr insn.rs2) hsize
      refine ⟨{ addr := core.getGpr insn.rs1 + insn.imm, value := p.1, size := p.2 },
        ⟨rfl, hp, hsupported, hvalue⟩, ?_⟩
      rw [execute, executeStore_eq hsize, if_pos haligned, hdata]
      rfl
  | storeFp insn =>
    cases h
    refine ⟨_, ⟨rfl, rfl, by simp, ?_⟩, rfl⟩
    show ((core.fprs insn.rs2).setWidth 64).toNat = (core.fprs insn.rs2).toNat % 256 ^ 4
    have hword := (core.fprs insn.rs2).isLt
    rw [BitVec.toNat_setWidth]
    omega
  | _ => simp [storeOf, storeValue] at h

/-- A returning step of a store at a natural address. -/
def StoreStep (m : Machine) (insn : DecodedInsn) (m' : Machine) : Prop :=
  ∃ s r, storeOf m.core insn = some s ∧ m.mem.Natural s.addr s.size ∧ step insn m = .ok r m'

/-- The stores of a run, in order. -/
def storesOf (trace : List (Machine × DecodedInsn)) : List (ByteMap.Store 64) :=
  trace.filterMap fun p => storeOf p.1.core p.2

/-- One store step, on the byte map. -/
theorem StoreStep.bytes_eq {m m' : Machine} {insn : DecodedInsn}
    (hbase : 8 ∣ m.mem.base.toNat) (h : StoreStep m insn m') :
    m'.mem.base = m.mem.base ∧
      m'.mem.bytes = (storeOf m.core insn).toList.foldl ByteMap.store m.mem.bytes := by
  obtain ⟨s, r, hs, hnatural, hstep⟩ := h
  obtain ⟨write, hperforms, hx⟩ := execute_of_storeOf m.mem hs hnatural.aligned
  rw [hs]
  rcases step_ok_cases hstep with
    ⟨exception, hx', -, -⟩ | ⟨result, raw, logged, hx', -, -, hmems, -⟩
  · rw [hx] at hx'
    cases hx'
  · rw [hx] at hx'
    cases hx'
    rw [writeMems_cons] at hmems
    split at hmems
    · cases hmems
    next mem hwrite =>
      cases hmems
      exact hperforms.writeMem hbase hwrite

/-- **Runs of stores** leave the latest byte at every address. -/
theorem storeRun_bytes {m m' : Machine} {trace : List (Machine × DecodedInsn)}
    (hbase : 8 ∣ m.mem.base.toNat) (run : Run StoreStep m trace m') :
    8 ∣ m'.mem.base.toNat ∧ m'.mem.bytes = m.mem.bytes.latest (storesOf trace) := by
  rw [← ByteMap.foldl_store]
  induction run with
  | nil s => exact ⟨hbase, rfl⟩
  | cons hstep _ ih =>
    obtain ⟨hbase', hbytes⟩ := hstep.bytes_eq hbase
    obtain ⟨hend, hrest⟩ := ih (hbase' ▸ hbase)
    refine ⟨hend, hrest.trans ?_⟩
    -- the stores of the rest run on from the bytes of the first step
    obtain ⟨s, -, hs, -⟩ := hstep
    rw [hbytes, storesOf, storesOf, List.filterMap_cons, hs]
    rfl

/-! ## §3. Load steps -/

/-- The register value that a load of `n` makes, by the type of the load. -/
def loadedValue (type : MemAccessType) (n : Nat) : BitVec 64 :=
  match type with
  | .b => (BitVec.ofNat 8 n).signExtend 64
  | .h => (BitVec.ofNat 16 n).signExtend 64
  | .w => (BitVec.ofNat 32 n).signExtend 64
  | .bu => (BitVec.ofNat 8 n).setWidth 64
  | .hu => (BitVec.ofNat 16 n).setWidth 64
  | .wu => (BitVec.ofNat 32 n).setWidth 64
  | .d => BitVec.ofNat 64 n
  | .other _ => 0

/-- The load leaves the number `n`, extended as it says, in rd. -/
def PutsInRd (insn : DecodedInsn) (n : Nat) (core core' : Core) : Prop :=
  match insn with
  | .load insn => core'.gprs = (core.setGpr insn.rd (loadedValue insn.type n)).gprs
  | .loadFp insn => core'.fprs = (core.setFpr insn.rd (BitVec.ofNat 32 n)).fprs
  | _ => False

/-- LB, LBU, LH, LHU, LW, LWU, LD and FLW. -/
def IsLoad : DecodedInsn → Prop
  | .load _ | .loadFp _ => True
  | _ => False

/-- The eight accessors and extensions, in one equation. -/
theorem loadData_eq (mem : Memory) (addr : BitVec 64) {type : MemAccessType} {size : Nat}
    (hsize : loadSize type = some size) :
    loadData mem addr type =
      (fun n => (loadedValue type n, BitVec.ofNat 32 size)) <$> mem.getCell size addr := by
  cases type <;> cases hsize <;>
    simp only [loadData, Memory.get8_eq, Memory.get16, Memory.get32, Memory.get64] <;>
    cases mem.getCell _ addr <;> rfl

/-- The result of a load at a natural address. -/
theorem execute_of_load {core : Core} {mem : Memory} {insn : DecodedInsn} {access : DataAccess}
    (hbase : 8 ∣ mem.base.toNat) (hload : IsLoad insn)
    (haccess : dataAccess core insn = some access)
    (hnatural : mem.Natural access.addr access.size) :
    ∃ n result, mem.bytes.load access.addr access.size = some n ∧
      execute core mem insn = .ok (.normal result) ∧ result.Plain none ∧ result.memWrites = [] ∧
      ∀ c logged c', writeRegs (finalRegWrites core result.regWrites) c = .ok logged c' →
        PutsInRd insn n c c' := by
  cases insn with
  | load insn =>
    obtain ⟨size, hsize, rfl⟩ := Option.map_eq_some_iff.mp haccess
    have hdvd : size ∣ 8 := by
      cases htype : insn.type <;> rw [htype] at hsize <;> cases hsize <;> decide
    obtain ⟨n, hcell⟩ := Memory.getCell_of_aligned hbase hdvd hnatural.aligned hnatural.inside
    have hx := @executeLoad_eq core mem insn _ hsize
    rw [if_pos hnatural.aligned, loadData_eq _ _ hsize, hcell] at hx
    refine ⟨n, _, Memory.getCell_load hbase hdvd hcell, hx, ⟨.x none _ _, .none, rfl, rfl⟩, rfl, ?_⟩
    intro c logged c' hregs
    rw [finalRegWrites_ofX, writeRegs_rdWrites] at hregs
    cases hregs
    rfl
  | loadFp insn =>
    cases haccess
    have hdvd : 4 ∣ 8 := by decide
    obtain ⟨n, hcell⟩ := Memory.getCell_of_aligned hbase hdvd hnatural.aligned hnatural.inside
    have hx : execute core mem (.loadFp insn) = executeLoadFp core mem insn := rfl
    rw [executeLoadFp, Memory.get32, hcell] at hx
    refine ⟨n, _, Memory.getCell_load hbase hdvd hcell, hx,
      ⟨.f none _ _ (toNat_setWidth_word _), .none, rfl, rfl⟩, rfl, ?_⟩
    intro c logged c' hregs
    have hfprs := (@writeRegs_plain_f _ _ _ none _ _ _ hregs).2
    rw [BitVec.setWidth_setWidth_of_le _ (by decide), BitVec.setWidth_eq] at hfprs
    exact hfprs
  | _ => cases hload

/-! ## §4. Loads after stores -/

/-- **A load step** reads the byte map and leaves the memory alone. -/
theorem load_step {m : Machine} {insn : DecodedInsn} {access : DataAccess}
    (hbase : 8 ∣ m.mem.base.toNat) (hload : IsLoad insn)
    (haccess : dataAccess m.core insn = some access)
    (hnatural : m.mem.Natural access.addr access.size) (hfetch : Fetches m) :
    ∃ n commit m', m.mem.bytes.load access.addr access.size = some n ∧
      step insn m = .ok (some commit) m' ∧ m'.mem = m.mem ∧
      PutsInRd insn n m.core m'.core := by
  obtain ⟨raw, hraw⟩ := hfetch
  obtain ⟨n, result, hn, hx, hplain, hstores, hrd⟩ :=
    execute_of_load hbase hload haccess hnatural
  obtain ⟨logged, core, hregs, hstep⟩ :=
    @step_of_plain _ m _ _ _ m.mem hx hplain hraw (by rw [hstores]; rfl)
  refine ⟨n, _, _, hn, hstep, rfl, ?_⟩
  -- the register files are those of the core before pc moved
  have hput := hrd _ _ _ hregs
  cases insn with
  | load insn =>
    refine hput.trans ?_
    unfold Core.setGpr
    split <;> rfl
  | loadFp insn => exact hput
  | _ => cases hload

/-- A store step at a natural address returns. -/
theorem store_step {m : Machine} {insn : DecodedInsn} {s : ByteMap.Store 64}
    (hbase : 8 ∣ m.mem.base.toNat) (hs : storeOf m.core insn = some s)
    (hnatural : m.mem.Natural s.addr s.size) (hfetch : Fetches m) :
    ∃ commit m', step insn m = .ok (some commit) m' := by
  obtain ⟨raw, hraw⟩ := hfetch
  obtain ⟨write, hperforms, hx⟩ := execute_of_storeOf m.mem hs hnatural.aligned
  obtain ⟨mem, hwrite⟩ := writeMem_of_natural write hbase hperforms.supported
    (by rw [hperforms.addr, hperforms.size]; exact hnatural)
  have hmems : writeMems [write] m.mem = .ok () mem := by
    rw [writeMems_cons, hwrite]
    rfl
  have hplain : NormalStep.Plain none { memWrites := [write] } :=
    ⟨.none, .store write hperforms.supported ?_, rfl, rfl⟩
  · obtain ⟨logged, core, -, hstep⟩ := step_of_plain hx hplain hraw hmems
    exact ⟨_, _, hstep⟩
  · rw [hperforms.value, hperforms.size]
    exact Nat.mod_lt _ (by positivity)

/-- A load step at a natural address that returns has fetched its word. -/
theorem fetches_of_load {m m' : Machine} {insn : DecodedInsn} {access : DataAccess}
    {r : Option Commit} (hbase : 8 ∣ m.mem.base.toNat) (hload : IsLoad insn)
    (haccess : dataAccess m.core insn = some access)
    (hnatural : m.mem.Natural access.addr access.size) (h : step insn m = .ok r m') :
    Fetches m := by
  obtain ⟨n, result, -, hx, -⟩ := execute_of_load hbase hload haccess hnatural
  rcases step_ok_cases h with ⟨exception, hx', -⟩ | ⟨result', raw, logged, -, hraw, -⟩
  · rw [hx] at hx'
    cases hx'
  · exact ⟨raw, hraw⟩

/-- **Loads see the latest stores.**  After a run of stores each address holds
the byte of the latest store that covers it, or its initial one; a load step
then leaves the number these bytes spell in rd, extended as it says; and neither
a load nor a store at a natural address can fail except in the fetch. -/
theorem loads_see_stores {m m' : Machine} {trace : List (Machine × DecodedInsn)}
    (hbase : 8 ∣ m.mem.base.toNat) (run : Run StoreStep m trace m') :
    (∀ a, m'.mem.byteAt a = m.mem.bytes.latest (storesOf trace) a) ∧
    (∀ a, (∀ s ∈ storesOf trace, ¬ s.Covers a) → m'.mem.byteAt a = m.mem.byteAt a) ∧
    (∀ insn access, IsLoad insn → dataAccess m'.core insn = some access →
      m'.mem.Natural access.addr access.size →
      ∃ n, (m.mem.bytes.latest (storesOf trace)).load access.addr access.size = some n ∧
        (∀ r m'', step insn m' = .ok r m'' →
          m''.mem = m'.mem ∧ PutsInRd insn n m'.core m''.core) ∧
        (Fetches m' → ∃ commit m'', step insn m' = .ok (some commit) m'')) ∧
    (∀ insn s, storeOf m'.core insn = some s → m'.mem.Natural s.addr s.size → Fetches m' →
      ∃ commit m'', step insn m' = .ok (some commit) m'') := by
  obtain ⟨hbase', hbytes⟩ := storeRun_bytes hbase run
  refine ⟨fun a => congrFun hbytes a, ?_, ?_, fun insn s => store_step hbase'⟩
  · intro a ha
    exact (congrFun hbytes a).trans (ByteMap.latest_of_not_covers ha)
  · intro insn access hload haccess hnatural
    obtain ⟨n, result, hn, -⟩ := execute_of_load hbase' hload haccess hnatural
    refine ⟨n, hbytes ▸ hn, fun r m'' hstep => ?_, fun hfetch => ?_⟩
    · -- a step that returned is the one `load_step` describes
      have hfetch := fetches_of_load hbase' hload haccess hnatural hstep
      obtain ⟨n', commit, mid, hn', hstep', hmem, hput⟩ :=
        load_step hbase' hload haccess hnatural hfetch
      rw [hn] at hn'
      cases hn'
      rw [hstep] at hstep'
      cases hstep'
      exact ⟨hmem, hput⟩
    · obtain ⟨n', commit, mid, -, hstep, -⟩ := load_step hbase' hload haccess hnatural hfetch
      exact ⟨commit, mid, hstep⟩

/-- `sh x1, 8(x0)` with 0x1234 in x1, on sixteen zero bytes at 0. -/
def storeHalfMachine : Machine where
  core := (Core.init (fun _ => 0) 0).setGpr 1 0x1234
  mem := Memory.init 0 16

/-- `sh x1, 8(x0)`. -/
def storeHalfInsn : DecodedInsn := .store { type := .h, imm := 8, rs1 := 0, rs2 := 1 }

/-- `lb x2, 9(x0)`. -/
def loadByteInsn : DecodedInsn := .load { type := .b, imm := 9, rs1 := 0, rd := 2 }

/-- The load leaves the upper of the two stored bytes in x2. -/
theorem loads_see_stores_storeHalf :
    ∃ trace m' commit m'', Run StoreStep storeHalfMachine trace m' ∧
      step loadByteInsn m' = .ok (some commit) m'' ∧ m''.core.getGpr 2 = 0x12 := by
  have hrun : (match step storeHalfInsn storeHalfMachine with
      | .ok _ m' => decide (m'.mem.base = 0 ∧ m'.mem.data.length = 16 ∧
          m'.mem.get32 m'.core.pc = .ok 0)
      | .error _ _ => false) = true := by decide +kernel
  split at hrun
  next r m' hstep =>
    obtain ⟨hbase, hlength, hfetch⟩ := of_decide_eq_true hrun
    have hnatural : storeHalfMachine.mem.Natural 8 2 := ⟨by decide, by decide⟩
    have hnatural' : m'.mem.Natural 9 1 := by
      refine ⟨by decide, ?_⟩
      rw [Memory.offset, hbase, hlength]
      decide
    have hload : dataAccess m'.core loadByteInsn =
        some { addr := 9, size := 1, mcause := 4 } := by
      show some (DataAccess.mk (m'.core.getGpr 0 + 9) 1 4) = _
      rw [show m'.core.getGpr 0 = 0 from m'.core.gprs_zero]
      rfl
    have run : Run StoreStep storeHalfMachine [(storeHalfMachine, storeHalfInsn)] m' :=
      .cons ⟨_, r, rfl, hnatural, hstep⟩ (.nil m')
    obtain ⟨n, hn, hput, hreturns⟩ :=
      (loads_see_stores (by decide) run).2.2.1 loadByteInsn _ trivial hload hnatural'
    obtain ⟨commit, m'', hstep'⟩ := hreturns ⟨0, hfetch⟩
    refine ⟨_, m', commit, m'', run, hstep', ?_⟩
    have hvalue : (storeHalfMachine.mem.bytes.latest
        (storesOf [(storeHalfMachine, storeHalfInsn)])).load 9 1 = some 0x12 := by decide
    rw [show n = 0x12 from Option.some.inj (hn.symm.trans hvalue)] at hput
    have hgprs : m''.core.gprs = (m'.core.setGpr 2 0x12).gprs := (hput _ _ hstep').2
    rw [Core.getGpr, hgprs]
    rfl
  · cases hrun

end ZincSim
