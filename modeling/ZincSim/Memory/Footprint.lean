/-
  ZincSim.Memory.Footprint — which bytes a run depends on.

  An iteration of `main` reads the word at pc, what its commit lists in `mem_reads`, and last
  the doubleword at `tohost`, and nothing else.  So a run comes out the same on every memory
  that has the bytes it reads before it stores them (`run_footprint`): the log misses no
  access of an instruction.
-/
import ZincSim.Memory.Provenance

namespace ZincSim

open TransitionSystem

/-! ## §1. The bytes that are read -/

/-- An iteration that committed `r` reads the byte at `a`. -/
def ReadsByte (m : Machine) (r : Option Commit) (a : BitVec 64) : Prop :=
  (∃ i < 4, a = m.core.pc + BitVec.ofNat 64 i) ∨
    ∃ commit ∈ r, ∃ read ∈ commit.memReads, ∃ i < read.size.toNat,
      a = read.addr + BitVec.ofNat 64 i

/-- The run reads the byte at `a` before it has stored it.  The look at `tohost` comes after
the stores of its own iteration. -/
def Inputs (tohost : BitVec 64) (trace : List (Machine × Option Commit)) (a : BitVec 64) : Prop :=
  ∃ before p after, trace = before ++ p :: after ∧
    (ReadsByte p.1 p.2 a ∧ (∀ s ∈ storesIn (logOf before), ¬ s.Covers a) ∨
      (∃ i < 8, a = tohost + BitVec.ofNat 64 i) ∧
        ∀ s ∈ storesIn (logOf (before ++ [p])), ¬ s.Covers a)

/-! ## §2. Accesses to another memory -/

namespace Memory

variable {mem mem₂ : Memory} {addr : BitVec 64}

theorem get32_congr (hbase : 8 ∣ mem.base.toNat) (h : mem.SamePlace mem₂)
    (hbytes : ∀ i < 4,
      mem₂.bytes (addr + BitVec.ofNat 64 i) = mem.bytes (addr + BitVec.ofNat 64 i)) :
    mem₂.get32 addr = mem.get32 addr := by
  unfold get32
  rw [getCell_congr hbase (by decide) h hbytes]

theorem get64_congr (hbase : 8 ∣ mem.base.toNat) (h : mem.SamePlace mem₂)
    (hbytes : ∀ i < 8,
      mem₂.bytes (addr + BitVec.ofNat 64 i) = mem.bytes (addr + BitVec.ofNat 64 i)) :
    mem₂.get64 addr = mem.get64 addr := by
  unfold get64
  rw [getCell_congr hbase (by decide) h hbytes]

/-- The size that `loadData` reports is that of the access. -/
theorem loadData_congr (hbase : 8 ∣ mem.base.toNat) (h : mem.SamePlace mem₂)
    {type : MemAccessType} {data : BitVec 64} {size : BitVec 32}
    (hload : loadData mem addr type = .ok (data, size))
    (hbytes : ∀ i < size.toNat,
      mem₂.bytes (addr + BitVec.ofNat 64 i) = mem.bytes (addr + BitVec.ofNat 64 i)) :
    loadData mem₂ addr type = .ok (data, size) := by
  have hcell {n : Nat} (hn : n ∣ 8) (hsize : size.toNat = n) :
      mem₂.getCell n addr = mem.getCell n addr :=
    getCell_congr hbase hn h fun i hi => hbytes i (hsize ▸ hi)
  have hof {w : Nat} {f : BitVec w → BitVec 64} {c : BitVec 32} {x : Except Fault (BitVec w)}
      (hx : (fun raw => (f raw, c)) <$> x = .ok (data, size)) : size = c := by
    cases x with
    | error fault => cases hx
    | ok raw =>
      cases hx
      rfl
  rw [← hload]
  cases type with
  | b | bu =>
    unfold loadData
    rw [get8_eq, get8_eq, hcell (by decide) (by rw [hof hload]; rfl)]
  | h | hu =>
    unfold loadData get16
    rw [hcell (by decide) (by rw [hof hload]; rfl)]
  | w | wu =>
    unfold loadData get32
    rw [hcell (by decide) (by rw [hof hload]; rfl)]
  | d =>
    unfold loadData get64
    rw [hcell (by decide) (by rw [hof hload]; rfl)]
  | other _ => cases hload

/-- A store succeeds wherever the memory lies at the same addresses. -/
theorem setCell_same (h : mem.SamePlace mem₂) {size value : Nat} {mem' : Memory}
    (hset : mem.setCell size addr value = .ok mem') :
    ∃ mem₂', mem₂.setCell size addr value = .ok mem₂' := by
  have hcontains : mem₂.Contains size addr ↔ mem.Contains size addr := by
    unfold Contains cellStart offset
    rw [h.base, h.length]
  unfold setCell at hset ⊢
  split at hset
  · cases hset
  next haligned =>
    rw [if_neg haligned]
    split at hset
    next hin => exact ⟨_, if_pos (hcontains.mpr hin)⟩
    · cases hset

end Memory

theorem writeMem_same {mem mem₂ mem' : Memory} (h : mem.SamePlace mem₂) {write : MemAccess}
    (hwrite : writeMem mem write = .ok mem') : ∃ mem₂', writeMem mem₂ write = .ok mem₂' := by
  have hoffset : mem₂.offset write.addr = mem.offset write.addr := by
    unfold Memory.offset
    rw [h.base]
  unfold writeMem at hwrite ⊢
  split_ifs at hwrite ⊢
  · unfold Memory.set8 at hwrite ⊢
    split at hwrite
    next hin => exact ⟨_, if_pos (by rw [hoffset, h.length]; exact hin)⟩
    · cases hwrite
  · exact Memory.setCell_same h hwrite
  · exact Memory.setCell_same h hwrite
  · exact Memory.setCell_same h hwrite

/-! ## §3. One iteration on another memory -/

section Step

variable {core : Core} {mem mem₂ : Memory} {insn : DecodedInsn}

/-- **`execute` depends on the bytes that it lists**, and an exception on none. -/
theorem execute_samePlace (hbase : 8 ∣ mem.base.toNat) (h : mem.SamePlace mem₂)
    {outcome : StepResult} (hx : execute core mem insn = .ok outcome)
    (hreads : ∀ result, outcome = .normal result → ∀ read ∈ result.memReads,
      ∀ i < read.size.toNat, mem₂.bytes (read.addr + BitVec.ofNat 64 i) =
        mem.bytes (read.addr + BitVec.ofNat 64 i)) :
    execute core mem₂ insn = .ok outcome := by
  cases insn with
  | load insn =>
    change executeLoad core mem insn = _ at hx
    show executeLoad core mem₂ insn = _
    unfold executeLoad at hx ⊢
    dsimp only at hx ⊢
    cases haligned : memAccessAligned (core.getGpr insn.rs1 + insn.imm) insn.type with
    | error fault =>
      rw [haligned] at hx
      cases hx
    | ok aligned =>
      rw [haligned] at hx
      cases aligned with
      | false => exact hx
      | true =>
        cases hload : loadData mem (core.getGpr insn.rs1 + insn.imm) insn.type with
        | error fault =>
          simp only [hload, bind, Except.bind] at hx
          cases hx
        | ok p =>
          simp only [hload, bind, Except.bind] at hx
          cases hx
          have hsame := Memory.loadData_congr hbase h hload
            (hreads _ rfl _ (List.mem_singleton_self _))
          simp only [hsame, bind, Except.bind]
          rfl
  | loadFp insn =>
    change executeLoadFp core mem insn = _ at hx
    show executeLoadFp core mem₂ insn = _
    unfold executeLoadFp at hx ⊢
    dsimp only at hx ⊢
    cases hload : mem.get32 (core.getGpr insn.rs1 + insn.imm) with
    | error fault =>
      rw [hload] at hx
      cases hx
    | ok data =>
      rw [hload] at hx
      cases hx
      rw [Memory.get32_congr hbase h (hreads _ rfl _ (List.mem_singleton_self _)), hload]
      rfl
  | _ => exact hx

/-- The loop over `mem_writes`. -/
theorem writeMems_same {writes : List MemAccess} (hwrites : PlainStores writes)
    (h : mem.SamePlace mem₂) {mem' : Memory} (hmems : writeMems writes mem = .ok () mem') :
    ∃ mem₂', writeMems writes mem₂ = .ok () mem₂' := by
  cases hwrites with
  | none => exact ⟨mem₂, rfl⟩
  | store access size fits =>
    rw [writeMems_cons] at hmems
    split at hmems
    · cases hmems
    next mid hwrite =>
      obtain ⟨mid₂, hwrite₂⟩ := writeMem_same h hwrite
      refine ⟨mid₂, ?_⟩
      rw [writeMems_cons, hwrite₂]
      rfl

end Step

/-- An iteration in another memory that has what it reads. -/
theorem loopStep_same {m m' : Machine} {mem₂ : Memory} {r : Option Commit}
    (hbase : 8 ∣ m.mem.base.toNat) (hplace : m.mem.SamePlace mem₂)
    (hreads : ∀ a, ReadsByte m r a → mem₂.bytes a = m.mem.bytes a) (h : LoopStep m r m') :
    ∃ mem₂', LoopStep { m with mem := mem₂ } r { m' with mem := mem₂' } := by
  obtain ⟨word, insn, hword, hinsn, hvalid, hstep⟩ := h.step
  have hword₂ : mem₂.get32 m.core.pc = .ok word := by
    rw [Memory.get32_congr hbase hplace fun i hi => hreads _ (.inl ⟨i, hi, rfl⟩), hword]
  suffices hstep₂ : ∃ mem₂', step insn { m with mem := mem₂ } = .ok r { m' with mem := mem₂' } by
    obtain ⟨mem₂', hstep₂⟩ := hstep₂
    exact ⟨mem₂', loopStep_of_word hword₂ hinsn hvalid hstep₂⟩
  rcases step_ok_cases hstep with
    ⟨e, hx, rfl, rfl⟩ | ⟨result, raw, logged, hx, hraw, hregs, hmems, rfl⟩
  · have hx₂ : execute m.core mem₂ insn = .ok (.exception e) :=
      execute_samePlace hbase hplace hx fun result hresult => by cases hresult
    exact ⟨mem₂, @step_of_exception insn { m with mem := mem₂ } e hx₂⟩
  · have hx₂ : execute m.core mem₂ insn = .ok (.normal result) := by
      refine execute_samePlace hbase hplace hx fun result' hresult read hread i hi => ?_
      cases hresult
      exact hreads _ (.inr ⟨_, rfl, read, hread, i, hi, rfl⟩)
    obtain ⟨mem₂', hmems₂⟩ := writeMems_same (plainStores_of_execute hx) hplace hmems
    refine ⟨mem₂', ?_⟩
    rw [hword] at hraw
    cases hraw
    rw [@step_of_normal insn { m with mem := mem₂ } result hx₂]
    simp only [hword₂, hregs, hmems₂]
    rfl

/-! ## §4. The run -/

section Inputs

variable {tohost a : BitVec 64} {m : Machine} {r : Option Commit}
  {trace : List (Machine × Option Commit)}

/-- The first iteration has stored nothing before it reads. -/
theorem ReadsByte.inputs (h : ReadsByte m r a) : Inputs tohost ((m, r) :: trace) a :=
  ⟨[], (m, r), trace, rfl, .inl ⟨h, fun _ hs => absurd hs List.not_mem_nil⟩⟩

/-- Its look at `tohost` finds what it has not stored. -/
theorem inputs_tohost {i : Nat} (hi : i < 8) (ha : a = tohost + BitVec.ofNat 64 i)
    (hstores : ∀ s ∈ storesIn r.toList, ¬ s.Covers a) : Inputs tohost ((m, r) :: trace) a := by
  refine ⟨[], (m, r), trace, rfl, .inr ⟨⟨i, hi, ha⟩, ?_⟩⟩
  rw [List.nil_append, logOf, List.flatMap_singleton]
  exact hstores

/-- What the rest of a run reads before it stores it, and the first step does not store. -/
theorem Inputs.cons (h : Inputs tohost trace a) (hfirst : ∀ s ∈ storesIn r.toList, ¬ s.Covers a) :
    Inputs tohost ((m, r) :: trace) a := by
  have hstores (log : List (Machine × Option Commit))
      (hlog : ∀ s ∈ storesIn (logOf log), ¬ s.Covers a) :
      ∀ s ∈ storesIn (logOf ((m, r) :: log)), ¬ s.Covers a := by
    intro s hs
    rw [logOf, List.flatMap_cons, storesIn_append] at hs
    exact (List.mem_append.mp hs).elim (hfirst s) (hlog s)
  obtain ⟨before, q, after, rfl, h⟩ := h
  refine ⟨(m, r) :: before, q, after, rfl, ?_⟩
  rcases h with ⟨hreads, hbefore⟩ | ⟨hlook, hbefore⟩
  · exact .inl ⟨hreads, hstores before hbefore⟩
  · exact .inr ⟨hlook, hstores (before ++ [q]) hbefore⟩

end Inputs

/-- **A run depends on the bytes that it reads before it stores them**: from any other memory
that has these, the loop of `main` commits and traps the same and goes on as long, ends in the
same core, and leaves every byte the same that was so at first. -/
theorem run_footprint {tohost : BitVec 64} {m m' : Machine} {mem₂ : Memory}
    {trace : List (Machine × Option Commit)} (hbase : 8 ∣ m.mem.base.toNat)
    (run : Run (GoesOn tohost) m trace m') (hplace : m.mem.SamePlace mem₂)
    (hinputs : ∀ a, Inputs tohost trace a → mem₂.byteAt a = m.mem.byteAt a) :
    ∃ trace₂ mem₂',
      Run (GoesOn tohost) { m with mem := mem₂ } trace₂ { m' with mem := mem₂' } ∧
      trace₂.map Prod.snd = trace.map Prod.snd ∧
      ∀ a, mem₂.byteAt a = m.mem.byteAt a → mem₂'.byteAt a = m'.mem.byteAt a := by
  induction run generalizing mem₂ with
  | nil s => exact ⟨[], mem₂, .nil _, rfl, fun _ h => h⟩
  | @cons s t u r trace hgo run ih =>
    obtain ⟨h, hlook⟩ := hgo
    obtain ⟨mid₂, h₂⟩ := loopStep_same hbase hplace (fun a ha => hinputs a ha.inputs) h
    -- both steps store the same over memories that differ in bytes that are not read
    obtain ⟨_, _, -, -, -, hstep⟩ := h.step
    obtain ⟨_, _, -, -, -, hstep₂⟩ := h₂.step
    have hover := step_over hbase hstep
    have hover₂ := step_over (hplace.base ▸ hbase) hstep₂
    have hmid (a : BitVec 64)
        (ha : (∀ s ∈ storesIn r.toList, ¬ s.Covers a) → mem₂.byteAt a = s.mem.byteAt a) :
        mid₂.byteAt a = t.mem.byteAt a := by
      show mid₂.bytes a = t.mem.bytes a
      rw [hover.bytes, hover₂.bytes]
      exact ByteMap.latest_congr ha
    have hbase' : 8 ∣ t.mem.base.toNat := hover.base ▸ hbase
    have hplace' := (hover.samePlace.symm.trans hplace).trans hover₂.samePlace
    -- so both look at the same doubleword
    have hlook₂ : mid₂.get64 tohost = .ok 0 := by
      rw [Memory.get64_congr hbase' hplace' fun i hi =>
        hmid _ fun hnot => hinputs _ (inputs_tohost hi rfl hnot), hlook]
    obtain ⟨trace₂, mem₂', run₂, hsame, hend⟩ := ih hbase' hplace'
      fun a ha => hmid a fun hnot => hinputs a (ha.cons hnot)
    exact ⟨_, mem₂', .cons ⟨h₂, hlook₂⟩ run₂, congrArg (r :: ·) hsame,
      fun a ha => hend a (hmid a fun _ => ha)⟩

/-- What lies behind `tohost` is not read by the two instructions, whatever it is. -/
theorem run_footprint_store :
    ∃ trace₂ m', Run (GoesOn 0x80000008) (Machine.boot (storeOverItself ++ [0, 0, 0])) trace₂ m' ∧
      trace₂.length = 2 := by
  have hrun : (loopTrace 2 (Machine.boot (storeOverItself ++ [0, 0, 0xffffffff]))).any (fun p =>
      decide (p.1.length = 2 ∧ (∀ q ∈ p.1, q.1.core.pc ∈ [0x80000000, 0x80000004] ∧
        ∀ commit ∈ q.2.toList, commit.memReads = []) ∧
        ∀ s ∈ p.2 :: p.1.map Prod.fst, s.mem.get64 0x80000008 = .ok 0)) = true := by
    decide +kernel
  obtain ⟨⟨trace, m'⟩, htrace, hp⟩ := (Option.any_eq_true ..).mp hrun
  obtain ⟨hlength, hreads, hlooks⟩ := of_decide_eq_true hp
  obtain ⟨trace₂, mem₂', run₂, hsame, -⟩ :=
    @run_footprint _ _ _ (Machine.boot (storeOverItself ++ [0, 0, 0])).mem _ (by decide)
      (GoesOn.of_run (run_of_loopTrace htrace) hlooks) ⟨rfl, rfl⟩ (by
        rintro a ⟨before, p, after, rfl, ⟨ha, -⟩ | ⟨⟨i, hi, rfl⟩, -⟩⟩
        · obtain ⟨hpc, hnone⟩ := hreads p (List.mem_append_right _ List.mem_cons_self)
          rcases ha with ⟨i, hi, rfl⟩ | ⟨commit, hcommit, read, hread, -⟩
          · simp only [List.mem_cons, List.not_mem_nil, or_false] at hpc
            rcases hpc with hpc | hpc <;> rw [hpc] <;> interval_cases i <;> rfl
          · rw [hnone commit (Option.mem_toList.mpr hcommit)] at hread
            cases hread
        · interval_cases i <;> rfl)
  refine ⟨trace₂, _, run₂, ?_⟩
  rw [← hlength, ← List.length_map Prod.snd, hsame, List.length_map]

end ZincSim
