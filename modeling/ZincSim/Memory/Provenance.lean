/-
  ZincSim.Memory.Provenance — where the bytes of a run come from.

  A step changes the memory by the stores it commits and in no other way, so after any run
  of the loop an address holds the byte of the latest store in the log that covers it, or
  its first one (`run_provenance`).  An instruction that no store has touched is therefore
  executed as the file has it (`executed_from_file`).
-/
import ZincSim.Commit.Log
import ZincSim.Memory.LoadStore
import ZincSim.Memory.ProgramLoad
import ZincSim.Step.Loop

namespace ZincSim

open TransitionSystem

/-! ## §1. Accesses -/

namespace Memory

variable {mem : Memory} {addr : BitVec 64} {size : Nat}

theorem isSome_bytes (mem : Memory) (a : BitVec 64) :
    (mem.bytes a).isSome ↔ mem.offset a < mem.data.length := by
  simp [bytes, byteAt]

/-- A cell access that succeeds is aligned. -/
theorem dvd_of_getCell {n : Nat} (h : mem.getCell size addr = .ok n) : size ∣ addr.toNat := by
  unfold getCell at h
  split at h
  · cases h
  next haligned => exact Nat.dvd_of_mod_eq_zero (not_not.mp haligned)

/-- A cell access is a load of the byte map at an aligned address. -/
theorem getCell_ok_iff (hbase : 8 ∣ mem.base.toNat) (hsize : size ∣ 8) {n : Nat} :
    mem.getCell size addr = .ok n ↔
      size ∣ addr.toNat ∧ mem.bytes.load addr size = some n := by
  constructor
  · exact fun h => ⟨dvd_of_getCell h, getCell_load hbase hsize h⟩
  · rintro ⟨haligned, hload⟩
    -- the last byte is in the memory, so the cell is
    have hpos : 0 < size := Nat.pos_of_dvd_of_pos hsize (by decide)
    have hoff : size ∣ mem.offset addr := offset_dvd hbase hsize haligned
    have hlast := ByteMap.isSome_load.mp (Option.isSome_of_eq_some hload) (size - 1) (by omega)
    have hin : mem.offset addr + size ≤ mem.data.length := by
      rw [isSome_bytes, offset_add hsize hoff (by omega)] at hlast
      omega
    obtain ⟨value, hcell⟩ := getCell_of_aligned hbase hsize haligned hin
    rw [getCell_load hbase hsize hcell] at hload
    rw [hcell, Option.some.inj hload]

/-- The same for the value that an accessor makes of its cell. -/
theorem ofCell_ok_iff {w : Nat} (hbase : 8 ∣ mem.base.toNat) (hsize : size ∣ 8)
    (hw : 256 ^ size = 2 ^ w) {value : BitVec w} :
    (BitVec.ofNat w ·) <$> mem.getCell size addr = .ok value ↔
      size ∣ addr.toNat ∧ mem.bytes.load addr size = some value.toNat := by
  have hvalue {n : Nat} (h : mem.getCell size addr = .ok n) : n < 2 ^ w :=
    hw ▸ (getCell_bytes hbase hsize h).1
  rw [← getCell_ok_iff hbase hsize]
  cases hcell : mem.getCell size addr with
  | error fault => exact iff_of_false (fun h => by cases h) (fun h => by cases h)
  | ok n =>
    show Except.ok (BitVec.ofNat w n) = .ok value ↔ Except.ok n = .ok value.toNat
    constructor
    · intro h
      cases h
      rw [BitVec.toNat_ofNat, Nat.mod_eq_of_lt (hvalue hcell)]
    · intro h
      cases h
      rw [BitVec.ofNat_toNat, BitVec.setWidth_eq]

theorem get32_ok_iff (hbase : 8 ∣ mem.base.toNat) {word : BitVec 32} :
    mem.get32 addr = .ok word ↔
      4 ∣ addr.toNat ∧ mem.bytes.load addr 4 = some word.toNat :=
  ofCell_ok_iff hbase (by decide) (by decide)

theorem get64_ok_iff (hbase : 8 ∣ mem.base.toNat) {value : BitVec 64} :
    mem.get64 addr = .ok value ↔
      8 ∣ addr.toNat ∧ mem.bytes.load addr 8 = some value.toNat :=
  ofCell_ok_iff hbase (by decide) (by decide)

/-- Memories that lie at the same addresses. -/
structure SamePlace (mem mem' : Memory) : Prop where
  base : mem'.base = mem.base
  length : mem'.data.length = mem.data.length

theorem SamePlace.trans {mem₂ mem₃ : Memory} (h : mem.SamePlace mem₂)
    (h' : mem₂.SamePlace mem₃) : mem.SamePlace mem₃ :=
  ⟨h'.base.trans h.base, h'.length.trans h.length⟩

theorem SamePlace.symm {mem₂ : Memory} (h : mem.SamePlace mem₂) : mem₂.SamePlace mem :=
  ⟨h.base.symm, h.length.symm⟩

theorem overwrite_samePlace {start : Nat} {bytes : List (BitVec 8)}
    (h : start + bytes.length ≤ mem.data.length) : mem.SamePlace (mem.overwrite start bytes) :=
  ⟨rfl, length_overwrite h⟩

/-- **An access depends on its bytes alone**, once the memory lies where it does. -/
theorem getCell_congr {mem' : Memory} (hbase : 8 ∣ mem.base.toNat) (hsize : size ∣ 8)
    (h : mem.SamePlace mem')
    (hbytes : ∀ i < size,
      mem'.bytes (addr + BitVec.ofNat 64 i) = mem.bytes (addr + BitVec.ofNat 64 i)) :
    mem'.getCell size addr = mem.getCell size addr := by
  have hcontains : mem'.Contains size addr ↔ mem.Contains size addr := by
    unfold Contains cellStart offset
    rw [h.base, h.length]
  by_cases haligned : addr.toNat % size = 0
  · by_cases hin : mem.Contains size addr
    · -- both accesses spell the same bytes
      have hvalue (mem : Memory) (hin : mem.Contains size addr) :
          mem.getCell size addr =
            .ok (fromLE ((mem.data.drop (mem.cellStart size addr)).take size)) := by
        unfold Memory.getCell
        rw [if_neg (not_not.mpr haligned), if_pos hin]
      have hold := getCell_load hbase hsize (hvalue mem hin)
      have hnew := getCell_load (h.base ▸ hbase) hsize (hvalue mem' (hcontains.mpr hin))
      rw [ByteMap.load_congr hbytes, hold] at hnew
      rw [hvalue mem hin, hvalue mem' (hcontains.mpr hin), Option.some.inj hnew]
    · unfold Memory.getCell
      rw [if_neg hin, if_neg (fun h => hin (hcontains.mp h))]
  · unfold Memory.getCell
    rw [if_pos haligned, if_pos haligned]

/-- A store that succeeds overwrites bytes that were there. -/
theorem Stored.isSome_load {mem' : Memory} {value : BitVec 64}
    (h : mem.Stored mem' addr size value) : (mem.bytes.load addr size).isSome := by
  rw [ByteMap.isSome_load]
  intro i hi
  have hnew : (mem'.bytes (addr + BitVec.ofNat 64 i)).isSome :=
    Option.isSome_of_eq_some (h.written i hi)
  rw [isSome_bytes, offset, h.base, h.length] at hnew
  exact (isSome_bytes ..).mpr hnew

theorem natural_of_load (hbase : 8 ∣ mem.base.toNat) (hsize : size ∣ 8)
    (haligned : size ∣ addr.toNat) (h : (mem.bytes.load addr size).isSome) :
    mem.Natural addr size := by
  refine ⟨haligned, ?_⟩
  obtain ⟨n, hn⟩ := Option.isSome_iff_exists.mp h
  have hcell := (getCell_ok_iff hbase hsize).mpr ⟨haligned, hn⟩
  unfold getCell at hcell
  split at hcell
  · cases hcell
  · split at hcell
    next hin =>
      rw [Contains, cellStart_eq (offset_dvd hbase hsize haligned)] at hin
      exact hin
    · cases hcell

end Memory

/-! ## §2. The stores of a log -/

/-- The store that an entry of `mem_writes` lists. -/
def MemAccess.store (write : MemAccess) : ByteMap.Store 64 where
  addr := write.addr
  size := write.size.toNat
  value := write.value.toNat

/-- The stores of a commit, in order. -/
def Commit.stores (commit : Commit) : List (ByteMap.Store 64) :=
  commit.memWrites.map MemAccess.store

/-- The stores of the whole log. -/
def storesIn (log : List Commit) : List (ByteMap.Store 64) := log.flatMap Commit.stores

/-- No store writes one of the `size` bytes from `addr` on. -/
def Spared (stores : List (ByteMap.Store 64)) (addr : BitVec 64) (size : Nat) : Prop :=
  ∀ s ∈ stores, ∀ i < size, ¬ s.Covers (addr + BitVec.ofNat 64 i)

namespace Memory

/-- `mem'` is `mem` after the stores. -/
structure Over (mem mem' : Memory) (stores : List (ByteMap.Store 64)) : Prop where
  base : mem'.base = mem.base
  length : mem'.data.length = mem.data.length
  bytes : mem'.bytes = mem.bytes.latest stores

theorem Over.refl (mem : Memory) : mem.Over mem [] := ⟨rfl, rfl, rfl⟩

theorem Over.trans {mem mid mem' : Memory} {stores stores' : List (ByteMap.Store 64)}
    (h : mem.Over mid stores) (h' : mid.Over mem' stores') : mem.Over mem' (stores ++ stores') where
  base := h'.base.trans h.base
  length := h'.length.trans h.length
  bytes := by
    rw [h'.bytes, h.bytes, ← ByteMap.foldl_store, ← ByteMap.foldl_store, ← ByteMap.foldl_store,
      List.foldl_append]

theorem Over.samePlace {mem mem' : Memory} {stores : List (ByteMap.Store 64)}
    (h : mem.Over mem' stores) : mem.SamePlace mem' := ⟨h.base, h.length⟩

/-- **An access that the stores spare** comes out as before, fault or value. -/
theorem Over.getCell {mem mem' : Memory} {stores : List (ByteMap.Store 64)}
    (h : mem.Over mem' stores) (hbase : 8 ∣ mem.base.toNat) {size : Nat} (hsize : size ∣ 8)
    {addr : BitVec 64} (hspared : Spared stores addr size) :
    mem'.getCell size addr = mem.getCell size addr := by
  refine getCell_congr hbase hsize h.samePlace fun i hi => ?_
  rw [h.bytes]
  exact ByteMap.latest_of_not_covers fun s hs => hspared s hs i hi

theorem Over.get32 {mem mem' : Memory} {stores : List (ByteMap.Store 64)}
    (h : mem.Over mem' stores) (hbase : 8 ∣ mem.base.toNat) {addr : BitVec 64}
    (hspared : Spared stores addr 4) : mem'.get32 addr = mem.get32 addr := by
  unfold Memory.get32
  rw [h.getCell hbase (by decide) hspared]

theorem Over.get64 {mem mem' : Memory} {stores : List (ByteMap.Store 64)}
    (h : mem.Over mem' stores) (hbase : 8 ∣ mem.base.toNat) {addr : BitVec 64}
    (hspared : Spared stores addr 8) : mem'.get64 addr = mem.get64 addr := by
  unfold Memory.get64
  rw [h.getCell hbase (by decide) hspared]

end Memory

/-! ## §4. Steps and runs -/

/-- The loop over `mem_writes`. -/
theorem writeMems_over {writes : List MemAccess} {mem mem' : Memory}
    (hbase : 8 ∣ mem.base.toNat) (hwrites : PlainStores writes)
    (h : writeMems writes mem = .ok () mem') : mem.Over mem' (writes.map MemAccess.store) := by
  cases hwrites with
  | none =>
    cases h
    exact .refl mem
  | store access size fits =>
    rw [writeMems_cons] at h
    split at h
    · cases h
    next mid hwrite =>
      cases h
      have hstored := writeMem_stored hbase size fits hwrite
      refine ⟨hstored.base, hstored.length, ?_⟩
      rw [← ByteMap.foldl_store]
      exact hstored.bytes_eq

/-- **A step stores what it commits**; a trap stores nothing. -/
theorem step_over {insn : DecodedInsn} {m m' : Machine} {r : Option Commit}
    (hbase : 8 ∣ m.mem.base.toNat) (h : step insn m = .ok r m') :
    m.mem.Over m'.mem (storesIn r.toList) := by
  rcases step_ok_cases h with
    ⟨exception, -, rfl, rfl⟩ | ⟨result, raw, logged, hx, -, -, hmems, rfl⟩
  · exact .refl _
  · have hover := writeMems_over hbase (plainStores_of_execute hx) hmems
    rw [Option.toList_some, storesIn, List.flatMap_singleton]
    exact hover

section Runs

variable {m m' : Machine} {trace : List (Machine × Option Commit)}

theorem storesIn_append (log log' : List Commit) :
    storesIn (log ++ log') = storesIn log ++ storesIn log' := List.flatMap_append

theorem run_over (hbase : 8 ∣ m.mem.base.toNat) (run : Run LoopStep m trace m') :
    m.mem.Over m'.mem (storesIn (logOf trace)) := by
  induction run with
  | nil s => exact .refl _
  | cons hstep _ ih =>
    obtain ⟨word, insn, -, -, -, hstep⟩ := hstep.step
    have hone := step_over hbase hstep
    rw [logOf, List.flatMap_cons, storesIn_append]
    exact hone.trans (ih (hone.base ▸ hbase))

/-- **Where the bytes come from**: an address holds what the latest store of the log left
there, or what it held at first; an access of any width whose bytes the log spares comes out
as at first. -/
theorem run_provenance (hbase : 8 ∣ m.mem.base.toNat) (run : Run LoopStep m trace m') :
    (∀ a, m'.mem.byteAt a = m.mem.bytes.latest (storesIn (logOf trace)) a) ∧
      ∀ size addr, size ∣ 8 → Spared (storesIn (logOf trace)) addr size →
        m'.mem.getCell size addr = m.mem.getCell size addr :=
  have hover := run_over hbase run
  ⟨congrFun hover.bytes, fun _ _ hsize hspared => hover.getCell hbase hsize hspared⟩

end Runs

/-- `auipc x1, 0; sw x1, 4(x1)`: the store overwrites its own word. -/
def storeOverItself : List (BitVec 32) := [0x00000097, 0x0010a223]

/-- The store leaves the first word as it was, and changes the second. -/
theorem run_provenance_store :
    ∃ trace m', Run LoopStep (Machine.boot storeOverItself) trace m' ∧ trace.length = 2 ∧
      m'.mem.byteAt 0x80000007 = some 0x80 ∧
      m'.mem.getCell 4 0x80000000 = (Machine.boot storeOverItself).mem.getCell 4 0x80000000 := by
  have hrun : (loopTrace 2 (Machine.boot storeOverItself)).any (fun p =>
      decide (p.1.length = 2 ∧
        storesIn (logOf p.1) = [{ addr := 0x80000004, size := 4, value := 0x80000000 }])) =
      true := by
    decide +kernel
  obtain ⟨⟨trace, m'⟩, htrace, hp⟩ := (Option.any_eq_true ..).mp hrun
  obtain ⟨hlength, hstores⟩ := of_decide_eq_true hp
  have run := run_of_loopTrace htrace
  obtain ⟨hbytes, hcells⟩ := run_provenance (m := Machine.boot storeOverItself) (by decide) run
  rw [hstores] at hbytes hcells
  refine ⟨trace, m', run, hlength, ?_, hcells 4 0x80000000 (by decide) ?_⟩
  · rw [hbytes]
    decide
  · unfold Spared
    decide

/-! ## §5. The program that is executed -/

section Runs

variable {m m' : Machine} {trace : List (Machine × Option Commit)}

/-- The word that a commit names was fetched, and decoded to an instruction. -/
theorem LoopStep.fetched {s t : Machine} {commit : Commit} (h : LoopStep s (some commit) t) :
    commit.pc = s.core.pc ∧ s.mem.get32 s.core.pc = .ok commit.insn ∧
      ∃ insn, decode commit.insn = .ok insn ∧ insn ≠ .invalid := by
  obtain ⟨word, insn, hword, hinsn, hvalid, hstep⟩ := h.step
  rcases step_ok_cases hstep with ⟨_, -, hr, -⟩ | ⟨result, raw, logged, -, hraw, -, -, hr⟩
  · cases hr
  · cases hr
    -- the step fetches the word a second time
    rw [hword] at hraw
    cases hraw
    exact ⟨rfl, hword, insn, hinsn, hvalid⟩

end Runs

/-- The bytes of a segment in a memory that has its image. -/
theorem ImageLoaded.byteAt_segment {base : BitVec 64} {size : ℕ} {segments : List ElfSegment}
    {mem : Memory} (h : ImageLoaded base size segments mem) {seg : ElfSegment}
    (hseg : seg ∈ segments) {i : ℕ} (hi : i < seg.size.toNat) :
    mem.byteAt (seg.addr + BitVec.ofNat 64 i) = seg.bytes[i]? := by
  unfold ElfSegment.bytes
  by_cases hdata : i < seg.data.length
  · rw [h.data seg hseg i hdata, List.getElem?_append_left hdata]
    exact (List.getElem?_eq_getElem hdata).symm
  · rw [h.zeros seg hseg i (Nat.le_of_not_lt hdata) hi,
      List.getElem?_append_right (Nat.le_of_not_lt hdata), List.getElem?_replicate,
      if_pos (by omega)]

/-- The number that bytes of a segment spell. -/
theorem ImageLoaded.load_segment {base : BitVec 64} {size : ℕ} {segments : List ElfSegment}
    {mem : Memory} (h : ImageLoaded base size segments mem) {seg : ElfSegment}
    (hseg : seg ∈ segments) (off : ℕ) {width value : ℕ} (hvalue : value < 256 ^ width)
    (hoff : off + width ≤ seg.size.toNat)
    (hbytes : ∀ i < width, seg.bytes[off + i]? = some (BitVec.ofNat 8 (value / 256 ^ i))) :
    mem.bytes.load (seg.addr + BitVec.ofNat 64 off) width = some value := by
  refine ByteMap.load_eq_some hvalue fun i hi => ?_
  rw [BitVec.add_assoc, ← BitVec.ofNat_add]
  exact (h.byteAt_segment hseg (by omega)).trans (hbytes i hi)

/-- A well-formed image starts. -/
theorem image_starts (csrs : BitVec 12 → BitVec 64) {image : ElfImage}
    (hformed : WellFormed memBase memSize image.segments) :
    ∃ mem, Machine.start csrs image = .ok { core := Core.init csrs image.entry, mem := mem } ∧
      ImageLoaded memBase memSize image.segments mem := by
  have hend : memBase.toNat + memSize < 2 ^ 64 := by decide
  obtain ⟨mem, hloop, hbase, hlength, hbytes⟩ := loadSegments_init hend hformed.fits
  refine ⟨mem, ?_, imageLoaded_of_patches hend hformed hbase hlength hbytes⟩
  unfold Machine.start
  rw [hloop]
  rfl

end ZincSim
