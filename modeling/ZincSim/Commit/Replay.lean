/-
  ZincSim.Commit.Replay — the log replays to the state.

  A commit lists what was stored, so the listed values can be put back without looking at
  the instructions.  Replaying the log of a run over the state it started in gives the
  registers and the memory it ended in (`log_replays`).  A trap leaves no commit, so after
  one the four CSRs that it writes are not in the log.
-/
import ZincSim.Commit.LogLine
import ZincSim.Isa.Refine
import ZincSim.Memory.Provenance
import ZincSim.Privilege.TrapReturn

namespace ZincSim

open TransitionSystem

/-! ## §1. Replaying a commit -/

/-- What a log is replayed over: the registers and the bytes of the memory. -/
@[ext] structure View where
  gprs : RegIndex → BitVec 64
  fprs : RegIndex → BitVec 32
  csrs : BitVec 12 → BitVec 64
  bytes : ByteMap 64

def Core.view (core : Core) (bytes : ByteMap 64) : View where
  gprs := core.gprs
  fprs := core.fprs
  csrs := core.csrs
  bytes := bytes

def Machine.view (m : Machine) : View := m.core.view m.mem.bytes

namespace View

/-- The entry that a listed CSR value came from, over the old entry. -/
def csrEntry (old : BitVec 64) (csr : Csr) (value : BitVec 64) : BitVec 64 :=
  match csr with
  | .fflags => (old &&& ~~~0x1f#64) ||| value
  | .frm => (old &&& ~~~0xe0#64) ||| (value <<< 5)
  | _ => value

/-- One entry of `reg_writes`. -/
def replayReg (v : View) (write : RegWrite) : View :=
  match write.type with
  | .x =>
      { v with gprs := fun i =>
          if i = write.num.setWidth 5 ∧ (write.num.setWidth 5 : RegIndex) ≠ 0 then write.value
          else v.gprs i }
  | .f =>
      { v with fprs := Function.update v.fprs (write.num.setWidth 5) (write.value.setWidth 32) }
  | .csr =>
      let csr := Csr.ofNum write.num
      let entry := csrEntry (v.csrs csr.slot) csr write.value
      { v with csrs := Function.update v.csrs csr.slot entry }

/-- One entry of `mem_writes`. -/
def replayMem (v : View) (write : MemAccess) : View :=
  { v with bytes := v.bytes.store write.store }

/-- One commit. -/
def replay (v : View) (commit : Commit) : View :=
  commit.memWrites.foldl replayMem (commit.regWrites.foldl replayReg v)

/-- The views agree outside the CSRs that a trap writes. -/
structure Agrees (v w : View) : Prop where
  gprs : v.gprs = w.gprs
  fprs : v.fprs = w.fprs
  csrs : ∀ slot, slot ∉ trapCsrs → v.csrs slot = w.csrs slot
  bytes : v.bytes = w.bytes

theorem Agrees.refl (v : View) : v.Agrees v := ⟨rfl, rfl, fun _ _ => rfl, rfl⟩

theorem Agrees.symm {v w : View} (h : v.Agrees w) : w.Agrees v :=
  ⟨h.gprs.symm, h.fprs.symm, fun slot hslot => (h.csrs slot hslot).symm, h.bytes.symm⟩

theorem Agrees.trans {u v w : View} (h : u.Agrees v) (h' : v.Agrees w) : u.Agrees w where
  gprs := h.gprs.trans h'.gprs
  fprs := h.fprs.trans h'.fprs
  csrs slot hslot := (h.csrs slot hslot).trans (h'.csrs slot hslot)
  bytes := h.bytes.trans h'.bytes

/-! ## §2. Views that agree stay so -/

theorem Agrees.replayReg {v w : View} (h : v.Agrees w) (write : RegWrite) :
    (v.replayReg write).Agrees (w.replayReg write) := by
  obtain ⟨type, num, value⟩ := write
  cases type with
  | x =>
    refine ⟨?_, h.fprs, h.csrs, h.bytes⟩
    simp only [View.replayReg, h.gprs]
  | f =>
    refine ⟨h.gprs, ?_, h.csrs, h.bytes⟩
    simp only [View.replayReg, h.fprs]
  | csr =>
    refine ⟨h.gprs, h.fprs, fun slot hslot => ?_, h.bytes⟩
    simp only [View.replayReg]
    by_cases heq : slot = (Csr.ofNum num).slot
    · -- the same entry, rebuilt from old entries that agree
      rw [heq, Function.update_self, Function.update_self, h.csrs _ (heq ▸ hslot)]
    · rw [Function.update_of_ne heq, Function.update_of_ne heq, h.csrs slot hslot]

theorem Agrees.foldl_replayReg {v w : View} (h : v.Agrees w) (writes : List RegWrite) :
    (writes.foldl View.replayReg v).Agrees (writes.foldl View.replayReg w) := by
  induction writes generalizing v w with
  | nil => exact h
  | cons write writes ih => exact ih (h.replayReg write)

theorem Agrees.foldl_replayMem {v w : View} (h : v.Agrees w) (writes : List MemAccess) :
    (writes.foldl View.replayMem v).Agrees (writes.foldl View.replayMem w) := by
  induction writes generalizing v w with
  | nil => exact h
  | cons write writes ih =>
    refine ih ⟨h.gprs, h.fprs, h.csrs, ?_⟩
    simp only [View.replayMem, h.bytes]

theorem Agrees.replay {v w : View} (h : v.Agrees w) (commit : Commit) :
    (v.replay commit).Agrees (w.replay commit) :=
  (h.foldl_replayReg commit.regWrites).foldl_replayMem commit.memWrites

/-- The values of its loads aside, the replay of a commit is in its line. -/
theorem replay_congr (v : View) {c d : Commit} (h : c.LooksLike d) : v.replay c = v.replay d := by
  rw [View.replay, View.replay, h.regWrites, h.memWrites]

end View

/-! ## §3. One step -/

/-- The value that `set_csr` returns spells the entry it stored. -/
theorem csrEntry_loggedValue (core : Core) {csr : Csr} (hw : csr.writable = true)
    (value : BitVec 64) :
    View.csrEntry (core.csrs csr.slot) csr (core.loggedValue csr value) =
      core.storedEntry csr value := by
  cases csr with
  | fflags =>
    show (core.csrs 0x003 &&& ~~~0x1f#64) |||
      (((core.csrs 0x003 &&& ~~~0x1f#64) ||| (value &&& 0x1f)) &&& 0x1f) = _
    rw [Core.storedEntry]
    ext i hi
    simp only [BitVec.getElem_and, BitVec.getElem_or, BitVec.getElem_not]
    grind
  | frm =>
    have hback : ((value &&& 0x7) <<< 5) >>> 5 = value &&& 0x7 := by
      have hsmall : (value &&& 0x7).toNat ≤ 7 := by
        rw [BitVec.toNat_and]
        exact Nat.and_le_right
      apply BitVec.eq_of_toNat_eq
      rw [BitVec.toNat_ushiftRight, BitVec.toNat_shiftLeft, Nat.shiftLeft_eq,
        Nat.mod_eq_of_lt (by omega), Nat.shiftRight_eq_div_pow,
        Nat.mul_div_cancel _ (by decide)]
    have hlogged : core.loggedValue .frm value = value &&& 0x7 := by
      show ((((core.csrs 0x003 &&& ~~~0xe0#64) ||| ((value &&& 0x7) <<< 5)) >>> 5) &&& 0x7#64) = _
      -- the other field of fcsr is cleared, and the shift brings none of it down
      have hclear : (core.csrs 0x003 &&& ~~~0xe0#64) >>> 5 &&& 0x7#64 = 0 := by
        rw [BitVec.ushiftRight_and_distrib, BitVec.and_assoc]
        exact BitVec.and_zero
      rw [BitVec.ushiftRight_or_distrib, hback, BitField.or_and_of_clear _ hclear,
        BitVec.and_assoc]
      rfl
    show (core.csrs 0x003 &&& ~~~0xe0#64) ||| (core.loggedValue .frm value <<< 5) = _
    rw [hlogged]
    rfl
  | mhartid | other => cases hw
  | _ => rfl

/-- **One round** of the write-back loop replays from the entry it logs. -/
theorem writeReg_view {core core' : Core} {write logged : RegWrite} (bytes : ByteMap 64)
    (h : writeReg core write = .ok (logged, core')) :
    core'.view bytes = (core.view bytes).replayReg logged := by
  rcases writeReg_ok_cases h with
    ⟨htype, -, rfl, rfl⟩ | ⟨htype, -, rfl, rfl⟩ | ⟨htype, hw, rfl, rfl⟩
  · simp only [View.replayReg, htype]
    refine View.ext ?_ (Core.setGpr_fprs ..) (Core.setGpr_csrs ..) rfl
    funext i
    exact gprs_setGpr ..
  · simp only [View.replayReg, htype]
    rfl
  · simp only [View.replayReg, htype]
    refine View.ext rfl rfl ?_ rfl
    -- the entry is rebuilt from the logged value and the old entry
    show Function.update core.csrs _ _ = Function.update core.csrs _ _
    rw [← csrEntry_loggedValue core hw write.value]
    rfl

theorem writeRegs_view {writes logged : List RegWrite} {core core' : Core} (bytes : ByteMap 64)
    (h : writeRegs writes core = .ok logged core') :
    core'.view bytes = logged.foldl View.replayReg (core.view bytes) := by
  induction writes generalizing core logged with
  | nil =>
    cases h
    rfl
  | cons write writes ih =>
    obtain ⟨first, mid, rest, hfirst, hrest, rfl⟩ := writeRegs_cons_ok h
    rw [ih hrest, List.foldl_cons, writeReg_view bytes hfirst]

/-- Replaying a list of stores changes the bytes alone. -/
theorem foldl_replayMem (writes : List MemAccess) (v : View) :
    writes.foldl View.replayMem v =
      { v with bytes := v.bytes.latest (writes.map MemAccess.store) } := by
  rw [← ByteMap.foldl_store]
  induction writes generalizing v with
  | nil => rfl
  | cons write writes ih => exact ih (v.replayMem write)

section Steps

variable {insn : DecodedInsn} {m m' : Machine}

/-- **A commit replays to the state its step left.** -/
theorem commit_view {commit : Commit} (hbase : 8 ∣ m.mem.base.toNat)
    (h : step insn m = .ok (some commit) m') :
    m'.mem.base = m.mem.base ∧ m'.view = m.view.replay commit := by
  have hover := step_over hbase h
  rcases step_ok_cases h with ⟨_, -, hr, -⟩ | ⟨result, raw, logged, hx, -, hregs, -, hr⟩
  · cases hr
  · cases hr
    refine ⟨hover.base, ?_⟩
    rw [Option.toList_some, storesIn, List.flatMap_singleton] at hover
    -- the registers first, then the bytes
    have hview := writeRegs_view m.mem.bytes hregs
    have hstart : (advance m.core result).view m.mem.bytes = m.view := rfl
    rw [hstart] at hview
    rw [View.replay, foldl_replayMem,
      show (commitOf m raw logged result).regWrites = logged from rfl, ← hview]
    exact View.ext rfl rfl rfl hover.bytes

/-- A step that traps has written its four CSRs and no other. -/
theorem trap_agrees (h : step insn m = .ok none m') :
    m'.mem = m.mem ∧ m.view.Agrees m'.view := by
  rcases step_ok_cases h with ⟨exception, -, -, rfl⟩ | ⟨_, _, _, -, -, -, -, hr⟩
  · exact ⟨rfl, rfl, rfl, fun slot hslot => (trapped_csrs_of_not_mem _ _ hslot).symm, rfl⟩
  · cases hr

end Steps

/-! ## §4. Runs -/

/-- `v` is what is known of `m` from a log. -/
structure Known (v : View) (m : Machine) : Prop where
  base : 8 ∣ m.mem.base.toNat
  agrees : v.Agrees m.view

theorem Known.step {v : View} {m m' : Machine} {r : Option Commit} (h : Known v m)
    (hstep : LoopStep m r m') : Known (r.toList.foldl View.replay v) m' := by
  obtain ⟨word, insn, -, -, -, hstep⟩ := hstep.step
  cases r with
  | none =>
    obtain ⟨hmem, hagrees⟩ := trap_agrees hstep
    exact ⟨hmem ▸ h.base, h.agrees.trans hagrees⟩
  | some commit =>
    obtain ⟨hbase, hview⟩ := commit_view h.base hstep
    refine ⟨hbase ▸ h.base, ?_⟩
    rw [hview]
    exact h.agrees.replay commit

section Runs

variable {m m' : Machine} {trace : List (Machine × Option Commit)}

theorem Known.run {v : View} (h : Known v m) (run : Run LoopStep m trace m') :
    Known ((logOf trace).foldl View.replay v) m' :=
  run.related (C := fun _ _ => True) (fun _ _ _ _ hv _ hstep => hv.step hstep)
    (fun _ _ => trivial) h

/-- Without traps nothing is missing from the log. -/
theorem view_of_run (hbase : 8 ∣ m.mem.base.toNat) (run : Run LoopStep m trace m')
    (hcommits : ∀ p ∈ trace, p.2 ≠ none) :
    m'.view = (logOf trace).foldl View.replay m.view := by
  induction run with
  | nil s => rfl
  | cons hstep _ ih =>
    obtain ⟨hcommit, hrest⟩ := List.forall_mem_cons.mp hcommits
    obtain ⟨commit, rfl⟩ := Option.ne_none_iff_exists'.mp hcommit
    obtain ⟨word, insn, -, -, -, hstep⟩ := hstep.step
    obtain ⟨hbase', hview⟩ := commit_view hbase hstep
    rw [ih (hbase' ▸ hbase) hrest, hview]
    rfl

/-- **The log replays to the state**, from the state in which the run was started: to the
registers and the memory in every run, but for the CSRs that a trap writes, and to these as
well in a run without traps. -/
theorem log_replays (hbase : 8 ∣ m.mem.base.toNat) (run : Run LoopStep m trace m') :
    ((logOf trace).foldl View.replay m.view).Agrees m'.view ∧
      ((∀ p ∈ trace, p.2 ≠ none) → (logOf trace).foldl View.replay m.view = m'.view) :=
  ⟨(Known.run ⟨hbase, .refl _⟩ run).agrees, fun hcommits => (view_of_run hbase run hcommits).symm⟩

end Runs

/-- The log of the two instructions rebuilds x1 and the word that was overwritten. -/
theorem log_replays_store :
    ∃ log : List Commit, log.length = 2 ∧
      (log.foldl View.replay (Machine.boot storeOverItself).view).gprs 1 = 0x80000000 ∧
      (log.foldl View.replay (Machine.boot storeOverItself).view).bytes 0x80000007 =
        some 0x80 := by
  have hrun : (loopTrace 2 (Machine.boot storeOverItself)).any (fun p =>
      decide ((∀ q ∈ p.1, q.2 ≠ none) ∧ (logOf p.1).length = 2 ∧
        p.2.core.gprs 1 = 0x80000000 ∧ p.2.mem.byteAt 0x80000007 = some 0x80)) = true := by
    decide +kernel
  obtain ⟨⟨trace, m'⟩, htrace, hp⟩ := (Option.any_eq_true ..).mp hrun
  obtain ⟨hcommits, hlength, hx1, hbyte⟩ := of_decide_eq_true hp
  have hview := (log_replays (m := Machine.boot storeOverItself) (by decide)
    (run_of_loopTrace htrace)).2 hcommits
  refine ⟨logOf trace, hlength, ?_, ?_⟩
  · rw [hview]
    exact hx1
  · rw [hview]
    exact hbyte

/-! ## §5. From the printed lines -/

/-- Logs that print the same lines replay alike. -/
theorem replay_of_lines {v : View} {log log' : List Commit}
    (h : log.map Commit.toString = log'.map Commit.toString) :
    log.foldl View.replay v = log'.foldl View.replay v := by
  induction log generalizing v log' with
  | nil =>
    rw [List.map_nil, eq_comm, List.map_eq_nil_iff] at h
    rw [h]
  | cons commit log ih =>
    cases log' with
    | nil => cases h
    | cons commit' log' =>
      obtain ⟨hline, hlines⟩ := List.cons.inj h
      -- the line has all of the commit but the values it loaded
      have hlooks : commit.LooksLike commit' := (logLine_inj hline).2
      rw [List.foldl_cons, List.foldl_cons, View.replay_congr v hlooks]
      exact ih hlines

/-- **Two simulations that print the same lines**, started in states that agree, end in
states that agree, whatever the programs are and however many instructions trapped.  A view
has neither pc nor the privilege: the lines show where a commit was, not where it went. -/
theorem lines_determine_state {m₁ m₁' m₂ m₂' : Machine}
    {trace₁ trace₂ : List (Machine × Option Commit)}
    (hbase₁ : 8 ∣ m₁.mem.base.toNat) (hbase₂ : 8 ∣ m₂.mem.base.toNat)
    (hstart : m₁.view.Agrees m₂.view) (run₁ : Run LoopStep m₁ trace₁ m₁')
    (run₂ : Run LoopStep m₂ trace₂ m₂') (hlines : linesOf trace₁ = linesOf trace₂) :
    m₁'.view.Agrees m₂'.view := by
  have h₁ := (Known.run ⟨hbase₁, .refl _⟩ run₁).agrees
  have h₂ := (Known.run ⟨hbase₂, hstart⟩ run₂).agrees
  rw [replay_of_lines hlines] at h₁
  exact h₁.symm.trans h₂

/-- A different mtval at first is no difference in the lines, nor in what they rebuild. -/
theorem lines_determine_state_mtval :
    ∃ m₁' m₂' : Machine, m₁'.view.Agrees m₂'.view ∧ m₁'.core.csrs 0x343 ≠ m₂'.core.csrs 0x343 := by
  let m₁ := Machine.boot storeOverItself
  let m₂ : Machine :=
    { m₁ with core := { m₁.core with csrs := Function.update m₁.core.csrs 0x343 7 } }
  have hrun : (loopTrace 2 m₁).any (fun p => (loopTrace 2 m₂).any fun q =>
      decide (logOf p.1 = logOf q.1 ∧ p.2.core.csrs 0x343 ≠ q.2.core.csrs 0x343)) = true := by
    decide +kernel
  obtain ⟨⟨trace₁, m₁'⟩, htrace₁, hrun⟩ := (Option.any_eq_true ..).mp hrun
  obtain ⟨⟨trace₂, m₂'⟩, htrace₂, hp⟩ := (Option.any_eq_true ..).mp hrun
  obtain ⟨hlog, hmtval⟩ := of_decide_eq_true hp
  have hstart : m₁.view.Agrees m₂.view :=
    ⟨rfl, rfl, fun slot hslot =>
      (Function.update_of_ne (fun h => hslot (by rw [h]; decide)) ..).symm, rfl⟩
  exact ⟨m₁', m₂', lines_determine_state (by decide) (by decide) hstart
    (run_of_loopTrace htrace₁) (run_of_loopTrace htrace₂)
    (congrArg (List.map Commit.toString) hlog), hmtval⟩

end ZincSim
