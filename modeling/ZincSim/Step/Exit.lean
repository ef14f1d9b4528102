/-
  ZincSim.Step.Exit — how `main` ends.

  `main` has no other way out of its loop than a nonzero doubleword at `tohost`.  Only a
  store changes it, so the last line that is printed is that of a commit that stored there
  (`main_exits`).  Everything else that ends the process is a fault.
-/
import ZincSim.Isa.Lockstep

namespace ZincSim

open Rv64im (Hart)
open TransitionSystem

/-! ## §1. The end of the loop -/

/-- What the loop found at `tohost` when it last looked. -/
theorem GoesOn.looked {tohost : BitVec 64} {m m' : Machine}
    {trace : List (Machine × Option Commit)} (h : Run (GoesOn tohost) m trace m') :
    trace = [] ∧ m' = m ∨ m'.mem.get64 tohost = .ok 0 := by
  induction h with
  | nil s => exact .inl ⟨rfl, rfl⟩
  | cons hstep _ ih =>
    rcases ih with ⟨-, rfl⟩ | hzero
    · exact .inr hstep.2
    · exact .inr hzero

/-- **The iteration that leaves the loop** has stored to `tohost`, unless it is the first and
the doubleword was not zero to begin with. -/
theorem exit_stores {tohost value : BitVec 64} {m last m' : Machine} {r : Option Commit}
    {trace : List (Machine × Option Commit)} (hbase : 8 ∣ m.mem.base.toNat)
    (run : Run (GoesOn tohost) m trace last) (hstep : LoopStep last r m')
    (hlook : m'.mem.get64 tohost = .ok value) (hvalue : value ≠ 0) :
    (∃ commit, r = some commit ∧ ¬ Spared commit.stores tohost 8) ∨
      trace = [] ∧ m.mem.get64 tohost = .ok value := by
  have hbase' : 8 ∣ last.mem.base.toNat := (run_over hbase (GoesOn.run run)).base ▸ hbase
  obtain ⟨word, insn, -, -, -, hinsn⟩ := hstep.step
  have hover := step_over hbase' hinsn
  by_cases hspared : Spared (storesIn r.toList) tohost 8
  · -- the step spared tohost, so it held the value before
    rw [hover.get64 hbase' hspared] at hlook
    rcases GoesOn.looked run with ⟨hempty, rfl⟩ | hzero
    · exact .inr ⟨hempty, hlook⟩
    · rw [hzero] at hlook
      cases hlook
      exact absurd rfl hvalue
  · cases r with
    | none => exact absurd (fun s hs => absurd hs List.not_mem_nil) hspared
    | some commit =>
      rw [Option.toList_some, storesIn, List.flatMap_singleton] at hspared
      exact .inl ⟨commit, rfl, hspared⟩

/-! ## §2. The RAM of `main` -/

theorem loadSegment_samePlace {mem mem' : Memory} {seg : ElfSegment}
    (h : loadSegment mem seg = .ok mem') : mem.SamePlace mem' := by
  unfold loadSegment Memory.load Memory.clear at h
  dsimp only at h
  split at h
  next hload =>
    dsimp only [bind, Except.bind] at h
    split at h
    next hclear =>
      cases h
      refine (Memory.overwrite_samePlace hload).trans (Memory.overwrite_samePlace ?_)
      rw [List.length_replicate]
      exact hclear
    · cases h
  · cases h

/-- Whatever the segments are, the memory stays where it is. -/
theorem loadSegments_samePlace {mem mem' : Memory} {segments : List ElfSegment}
    (h : loadSegments mem segments = .ok mem') : mem.SamePlace mem' := by
  unfold loadSegments at h
  induction segments generalizing mem with
  | nil =>
    cases h
    exact ⟨rfl, rfl⟩
  | cons seg segments ih =>
    rw [List.foldlM_cons] at h
    cases hseg : loadSegment mem seg with
    | error fault =>
      rw [hseg] at h
      cases h
    | ok mid =>
      rw [hseg] at h
      exact (loadSegment_samePlace hseg).trans (ih h)

section Start

variable {csrs : BitVec 12 → BitVec 64} {image : ElfImage} {m : Machine}

theorem start_samePlace (h : Machine.start csrs image = .ok m) :
    (Memory.init memBase memSize).SamePlace m.mem := by
  unfold Machine.start at h
  cases hload : loadSegments (Memory.init memBase memSize) image.segments with
  | error fault =>
    rw [hload] at h
    cases h
  | ok mem =>
    rw [hload] at h
    cases h
    exact loadSegments_samePlace hload

theorem start_aligned (h : Machine.start csrs image = .ok m) : 8 ∣ m.mem.base.toNat := by
  have hbase : m.mem.base = memBase := (start_samePlace h).base
  rw [hbase]
  decide

theorem Memory.SamePlace.belowSign {mem mem' : Memory} (h : mem.SamePlace mem')
    (hbelow : mem.BelowSign) : mem'.BelowSign := by
  unfold BelowSign at hbelow ⊢
  rw [h.base, h.length]
  exact hbelow

/-- The RAM of `main` lies below the sign bit. -/
theorem start_belowSign (h : Machine.start csrs image = .ok m) : m.mem.BelowSign := by
  have hbase : m.mem.base = memBase := (start_samePlace h).base
  have hlength : m.mem.data.length = memSize :=
    (start_samePlace h).length.trans List.length_replicate
  unfold Memory.BelowSign
  rw [hbase, hlength]
  decide

end Start

/-! ## §3. The exit of `main` -/

section Main

variable {argc n : Nat} {tohost : BitVec 64} {csrs : BitVec 12 → BitVec 64}
  {reader : Option ElfReader}

/-- Past the loader, the process is in its loop or has left it. -/
theorem main_of_start {image : ElfImage} {m : Machine}
    (hload : ElfLoader.load tohost reader = .ok image)
    (hstart : Machine.start csrs image = .ok m) (n : Nat) :
    main 2 tohost csrs reader n =
      .ofLoop (mainLoop image.tohost n { machine := m, lines := [] }) := by
  rw [main, if_neg (by decide), hload]
  simp only [hstart]

/-- A process that does not get there has failed, or was called the wrong way. -/
theorem main_eq (argc : Nat) (tohost : BitVec 64) (csrs : BitVec 12 → BitVec 64)
    (reader : Option ElfReader) :
    (∃ status ≠ Status.running, status ≠ .returned 0 ∧
      ∀ n, main argc tohost csrs reader n = { status := status, lines := [] }) ∨
    ∃ image m, argc = 2 ∧ ElfLoader.load tohost reader = .ok image ∧
      Machine.start csrs image = .ok m ∧
      ∀ n, main argc tohost csrs reader n =
        .ofLoop (mainLoop image.tohost n { machine := m, lines := [] }) := by
  by_cases hargc : argc ≠ 2
  · exact .inl ⟨.returned 1, by simp, by simp, fun n => if_pos hargc⟩
  · cases hload : ElfLoader.load tohost reader with
    | error fault =>
      refine .inl ⟨.failed fault, by simp, by simp, fun n => ?_⟩
      rw [main, if_neg hargc, hload]
    | ok image =>
      cases hstart : Machine.start csrs image with
      | error fault =>
        refine .inl ⟨.failed fault, by simp, by simp, fun n => ?_⟩
        rw [main, if_neg hargc, hload]
        simp only [hstart]
      | ok m =>
        refine .inr ⟨image, m, not_not.mp hargc, rfl, hstart, fun n => ?_⟩
        rw [not_not.mp hargc]
        exact main_of_start hload hstart n

/-- **How `main` comes to return 0**: it printed the lines of a run in which every look at
`tohost` but the last found zero, and the last step committed a store to `tohost`, unless it
was also the first and the image had put something there. -/
theorem main_exits (h : (main argc tohost csrs reader n).status = .returned 0) :
    ∃ image m before last r m', argc = 2 ∧ ElfLoader.load tohost reader = .ok image ∧
      Machine.start csrs image = .ok m ∧ Run (GoesOn image.tohost) m before last ∧
      LoopStep last r m' ∧ before.length < n ∧
      (main argc tohost csrs reader n).lines = linesOf (before ++ [(last, r)]) ∧
      ((∃ commit, r = some commit ∧ ¬ Spared commit.stores image.tohost 8) ∨
        before = [] ∧ ∃ value, value ≠ 0 ∧ m.mem.get64 image.tohost = .ok value) := by
  rcases main_eq argc tohost csrs reader with ⟨status, -, hstatus, heq⟩ |
    ⟨image, m, hargc, hload, hstart, heq⟩
  · rw [heq n] at h
    exact absurd h hstatus
  · have hrun := mainLoop_run image.tohost n { machine := m, lines := [] }
    rw [heq n] at h ⊢
    cases hloop : mainLoop image.tohost n { machine := m, lines := [] } with
    | error fault p =>
      rw [hloop] at h
      cases h
    | ok stop p =>
      rw [hloop] at h hrun
      cases stop with
      | false => cases h
      | true =>
        obtain ⟨before, last, r, value, hlength, run, hstep, hlook, hvalue, hlines⟩ := hrun
        refine ⟨image, m, before, last, r, p.machine, hargc, hload, hstart, run, hstep, hlength,
          hlines, ?_⟩
        exact (exit_stores (start_aligned hstart) run hstep hlook hvalue).imp_right
          fun ⟨hempty, hfirst⟩ => ⟨hempty, value, hvalue, hfirst⟩

end Main

/-! ## §4. A program that ends -/

/-- A file with these segments that starts at the base, and has `tohost` behind two words. -/
def readerOf (segments : List ProgramHeader) : ElfReader where
  entry := 0x80000000
  sections := [{ type := ElfLoader.shtSymtab, symbol := fun _ => some 0x80000008 }]
  segments := segments

/-- `auipc x1, 0; sd x1, 8(x1)`, and a doubleword that is zero. -/
def storeSegment : ElfSegment :=
  ⟨0x80000000, 16, [0x97, 0, 0, 0, 0x23, 0xb4, 0x10, 0]⟩

/-- An image whose second instruction stores to `tohost`. -/
def storeImage : ElfImage := ⟨0x80000000, 0x80000008, [storeSegment]⟩

def storeReader : ElfReader :=
  readerOf [⟨ElfLoader.ptLoad, storeSegment.addr, 8, storeSegment.size, storeSegment.data⟩]

theorem storeImage_wellFormed : WellFormed memBase memSize storeImage.segments :=
  wellFormed_singleton ⟨by decide, by decide, by decide⟩

/-- The first instruction leaves `tohost` alone, the second stores there. -/
theorem storeImage_runs (csrs : BitVec 12 → BitVec 64) :
    ∃ m r mid commit last, Machine.start csrs storeImage = .ok m ∧
      m.mem.get64 storeImage.tohost = .ok 0 ∧ GoesOn storeImage.tohost m r mid ∧
      LoopStep mid (some commit) last ∧
      last.mem.get64 storeImage.tohost = .ok 0x80000000 := by
  obtain ⟨mem, hstart, himage⟩ := image_starts csrs storeImage_wellFormed
  let m : Machine := { core := Core.init csrs 0x80000000, mem := mem }
  have hbase : 8 ∣ m.mem.base.toNat := start_aligned hstart
  -- the three parts of the segment
  have hseg : storeSegment ∈ storeImage.segments := List.mem_singleton_self _
  have hauipc : mem.bytes.load 0x80000000 4 = some 0x97 :=
    himage.load_segment hseg 0 (by decide) (by decide) (by decide)
  have hsd : mem.bytes.load 0x80000004 4 = some 0x0010b423 :=
    himage.load_segment hseg 4 (by decide) (by decide) (by decide)
  have hzero : mem.bytes.load 0x80000008 8 = some 0 :=
    himage.load_segment hseg 8 (by decide) (by decide) (by decide)
  -- the two steps of the hart
  let h₁ : Hart :=
    { pc := 0x80000004, x := m.hart.state.write 1 0x80000000, mem := mem.bytes }
  have hstep₁ : m.hart.Step (.compute (.auipc 1 0)) h₁ := by
    have hpc : 4 ∣ (0x80000000 : BitVec 64).toNat := by decide
    exact ⟨Hart.fetch_iff.mpr ⟨hpc, _, hauipc, rfl⟩, rfl⟩
  have hstep₂ : h₁.Step (.store 8 1 1 8)
      { h₁ with
        pc := 0x80000008
        mem := mem.bytes.store { addr := 0x80000008, size := 8, value := 0x80000000 } } := by
    have hpc : 4 ∣ (0x80000004 : BitVec 64).toNat := by decide
    have haddr : 8 ∣ (0x80000008 : BitVec 64).toNat := by decide
    exact ⟨Hart.fetch_iff.mpr ⟨hpc, _, hsd, rfl⟩,
      if_pos ⟨haddr, Option.isSome_of_eq_some hzero⟩⟩
  obtain ⟨c, mid, hloop₁, -, hmid⟩ := loopStep_of_hart hbase hstep₁ id
  have hbase' : 8 ∣ mid.mem.base.toNat := hmid.beside.base ▸ hbase
  obtain ⟨commit, last, hloop₂, -, hlast⟩ :=
    loopStep_of_hart hbase' (hmid.hart.symm ▸ hstep₂) id
  have hbytes₁ : mid.mem.bytes = mem.bytes := congrArg Hart.mem hmid.hart
  have hbytes₂ : last.mem.bytes = _ := congrArg Hart.mem hlast.hart
  refine ⟨m, some c, mid, commit, last, hstart, ?_, ⟨hloop₁, ?_⟩, hloop₂, ?_⟩
  · exact (Memory.get64_ok_iff hbase).mpr ⟨by decide, hzero⟩
  · exact (Memory.get64_ok_iff hbase').mpr ⟨by decide, hbytes₁ ▸ hzero⟩
  · refine (Memory.get64_ok_iff (hlast.beside.base ▸ hbase')).mpr ⟨by decide, ?_⟩
    rw [hbytes₂]
    refine ByteMap.load_eq_some (by decide) fun i hi => ?_
    interval_cases i <;> rfl

/-- `main` returns 0 after two lines, the second of which stored to `tohost`. -/
theorem main_exits_store :
    ∃ before last commit m', LoopStep last (some commit) m' ∧
      (main 2 0 (fun _ => 0) storeReader 2).lines = linesOf (before ++ [(last, some commit)]) ∧
      ¬ Spared commit.stores storeImage.tohost 8 := by
  have hload : ElfLoader.load 0 storeReader = .ok storeImage := by decide
  obtain ⟨m, r, mid, commit, last, hstart, hzero, hgo, hstep, hlook⟩ :=
    storeImage_runs fun _ => 0
  have hstatus : (main 2 0 (fun _ => 0) storeReader 2).status = .returned 0 := by
    obtain ⟨p, hloop, rfl⟩ :=
      mainLoop_of_run (.cons hgo (.nil mid)) { machine := m, lines := [] } rfl
    rw [main_of_start hload hstart, show 2 = [(m, r)].length + 1 from rfl, mainLoop_add, hloop]
    dsimp only
    rw [mainLoop_break 0 hstep hlook (by decide)]
    rfl
  obtain ⟨image, m₀, before, last', r', m', -, hload', hstart', -, hlast, -, hlines, hstored⟩ :=
    main_exits hstatus
  rw [hload] at hload'
  cases hload'
  rw [hstart] at hstart'
  cases hstart'
  rcases hstored with ⟨commit', rfl, hstored⟩ | ⟨-, value, hvalue, hfirst⟩
  · exact ⟨before, last', commit', m', hlast, hlines, hstored⟩
  · -- the doubleword was zero at first
    rw [hzero] at hfirst
    cases hfirst
    exact absurd rfl hvalue

end ZincSim
