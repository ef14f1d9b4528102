/-
  ZincSim.Commit.LogLine — the log line identifies the commit.

  Differential testing compares the lines `Commit::to_string` prints, so two
  commits that differ in anything but the values of their loads have to print
  different lines.  The line is read back from its left end: numerals end at a
  quote, a comma or a brace, the three lists at `]`.
-/
import ZincSim.Machine.LogLine
import ZincSim.Lib.Printed

namespace ZincSim

open Printed

/-! ## §1. Pieces of the line -/

/-- `fmtDec` and `fmtHex` in front of a delimiter. -/
theorem fmtPadded_inj {w base width : Nat} {m n : BitVec w} {delimiter s t : String}
    (hb : 1 < base) (hb' : base ≤ 16) (stops : Delimits delimiter)
    (h : fmtPadded base width m.toNat ++ (delimiter ++ s) =
      fmtPadded base width n.toNat ++ (delimiter ++ t)) : m = n ∧ s = t := by
  obtain ⟨number, rest⟩ := numeral_inj hb hb' stops h
  exact ⟨BitVec.eq_of_toNat_eq number, rest⟩

theorem regWriteTypeToString_determines : Determines regWriteTypeToString id := by
  intro type type' s t h
  cases type <;> cases type' <;>
    first
    | exact ⟨rfl, (String.append_right_inj _).1 h⟩
    | exact absurd h (append_ne_append rfl rfl (by decide) s t)

/-- An element of `reg_writes` is recovered from its text. -/
theorem regWrite_entry_determines : Determines RegWrite.entry id := by
  rintro ⟨type, num, value⟩ ⟨type', num', value'⟩ s t h
  simp only [RegWrite.entry, fmtDec, String.append_assoc, String.append_right_inj] at h
  obtain ⟨sameType, h⟩ := regWriteTypeToString_determines h
  obtain ⟨sameNum, h⟩ := fmtPadded_inj (by decide) (by decide) ⟨_, _, rfl, by decide⟩
    ((String.append_right_inj _).1 h)
  obtain ⟨sameValue, h⟩ := fmtPadded_inj (by decide) (by decide) ⟨_, _, rfl, by decide⟩ h
  exact ⟨by rw [id, id, show type = type' from sameType, sameNum, sameValue], h⟩

/-- An element of `mem_writes` is recovered from its text. -/
theorem writeEntry_determines : Determines MemAccess.writeEntry id := by
  rintro ⟨addr, value, size⟩ ⟨addr', value', size'⟩ s t h
  simp only [MemAccess.writeEntry, fmtDec, String.append_assoc, String.append_right_inj] at h
  obtain ⟨sameAddr, h⟩ := fmtPadded_inj (by decide) (by decide) ⟨_, _, rfl, by decide⟩ h
  obtain ⟨sameValue, h⟩ := fmtPadded_inj (by decide) (by decide) ⟨_, _, rfl, by decide⟩ h
  obtain ⟨sameSize, h⟩ := fmtPadded_inj (by decide) (by decide) ⟨_, _, rfl, by decide⟩ h
  exact ⟨by rw [id, id, sameAddr, sameValue, sameSize], h⟩

/-- What the text of an element of `mem_reads` shows: all but the value. -/
def MemAccess.place (r : MemAccess) : BitVec 64 × BitVec 32 := (r.addr, r.size)

theorem readEntry_determines : Determines MemAccess.readEntry MemAccess.place := by
  rintro ⟨addr, value, size⟩ ⟨addr', value', size'⟩ s t h
  simp only [MemAccess.readEntry, fmtDec, String.append_assoc, String.append_right_inj] at h
  obtain ⟨sameAddr, h⟩ := fmtPadded_inj (by decide) (by decide) ⟨_, _, rfl, by decide⟩ h
  -- the printed value is the text of 0 on both sides
  obtain ⟨sameSize, h⟩ := fmtPadded_inj (by decide) (by decide) ⟨_, _, rfl, by decide⟩
    ((String.append_right_inj _).1 ((String.append_right_inj _).1 h))
  exact ⟨Prod.ext sameAddr sameSize, h⟩

/-! ## §2. The three lists -/

section Entries

variable {α κ : Type} {entry : α → String} {key : α → κ}

theorem appendEntries_succ (i : Nat) (out : String) (items : List α) :
    appendEntries entry (i + 1) out items = out ++ following "," entry items := by
  induction items generalizing i out with
  | nil => rw [appendEntries, following, String.append_empty]
  | cons item items ih =>
    rw [appendEntries, ih, following, if_pos (Nat.succ_ne_zero i)]
    simp only [String.append_assoc]

/-- The loop puts a comma between the entries. -/
theorem appendEntries_zero (out : String) (items : List α) :
    appendEntries entry 0 out items = out ++ separated "," entry items := by
  cases items with
  | nil => rw [appendEntries, separated, String.append_empty]
  | cons item items =>
    rw [appendEntries, appendEntries_succ, separated, if_neg (by decide), String.append_assoc]

/-- Every entry starts with a brace, so a list ends at the closing bracket. -/
theorem entries_inj (determines : Determines entry key)
    (opens : ∀ x, ∃ us, (entry x).toList = '\x7b' :: us) {closing s t : String}
    (closes : ∃ us, closing.toList = ']' :: us) {xs ys : List α}
    (h : separated "," entry xs ++ (closing ++ s) = separated "," entry ys ++ (closing ++ t)) :
    xs.map key = ys.map key ∧ s = t := by
  obtain ⟨_, closes⟩ := closes
  refine determines.separated (append_ne_append rfl closes (by decide)) ?_ h
  intro x
  obtain ⟨_, opens⟩ := opens x
  exact append_ne_append opens closes (by decide)

end Entries

theorem regWrite_entry_opens (w : RegWrite) : ∃ us, w.entry.toList = '\x7b' :: us := by
  simp only [RegWrite.entry, String.toList_append]
  exact ⟨_, rfl⟩

theorem readEntry_opens (r : MemAccess) : ∃ us, r.readEntry.toList = '\x7b' :: us := by
  simp only [MemAccess.readEntry, String.toList_append]
  exact ⟨_, rfl⟩

theorem writeEntry_opens (w : MemAccess) : ∃ us, w.writeEntry.toList = '\x7b' :: us := by
  simp only [MemAccess.writeEntry, String.toList_append]
  exact ⟨_, rfl⟩

/-! ## §3. The line -/

/-- `c` and `d` agree in everything the log line shows. -/
structure Commit.LooksLike (c d : Commit) : Prop where
  pc : c.pc = d.pc
  insn : c.insn = d.insn
  regWrites : c.regWrites = d.regWrites
  memReads : c.memReads.map MemAccess.place = d.memReads.map MemAccess.place
  memWrites : c.memWrites = d.memWrites

/-- The line gives back the number in `priv` and every field but the values read. -/
theorem logLine_inj {c d : Commit} {p q : BitVec 32} (h : c.logLine p = d.logLine q) :
    p = q ∧ c.LooksLike d := by
  simp only [Commit.logLine, appendEntries_zero, fmtHex, fmtDec, String.append_assoc,
    String.append_right_inj] at h
  obtain ⟨samePc, h⟩ := fmtPadded_inj (by decide) (by decide) ⟨_, _, rfl, by decide⟩ h
  obtain ⟨sameInsn, h⟩ := fmtPadded_inj (by decide) (by decide) ⟨_, _, rfl, by decide⟩
    ((String.append_right_inj _).1 h)
  obtain ⟨samePriv, h⟩ := fmtPadded_inj (by decide) (by decide) ⟨_, _, rfl, by decide⟩
    ((String.append_right_inj _).1 h)
  obtain ⟨sameRegs, h⟩ := entries_inj regWrite_entry_determines regWrite_entry_opens ⟨_, rfl⟩
    ((String.append_right_inj _).1 h)
  obtain ⟨sameReads, h⟩ := entries_inj readEntry_determines readEntry_opens ⟨_, rfl⟩
    ((String.append_right_inj _).1 h)
  have ends : separated "," MemAccess.writeEntry c.memWrites ++ ("]\x7d" ++ "") =
      separated "," MemAccess.writeEntry d.memWrites ++ ("]\x7d" ++ "") :=
    (String.append_right_inj _).1 h
  obtain ⟨sameWrites, _⟩ := entries_inj writeEntry_determines writeEntry_opens ⟨_, rfl⟩ ends
  exact ⟨samePriv,
    { pc := samePc
      insn := sameInsn
      regWrites := by rwa [List.map_id, List.map_id] at sameRegs
      memReads := sameReads
      memWrites := by rwa [List.map_id, List.map_id] at sameWrites }⟩

theorem Privilege.code_injective {p q : Privilege}
    (h : (p.code.setWidth 32 : BitVec 32) = q.code.setWidth 32) : p = q := by
  cases p <;> cases q <;> first | rfl | exact absurd h (by decide)

/-- Commits with one log line differ in nothing but the values of their loads. -/
theorem toString_identifies (c d : Commit) :
    (c.toString = d.toString → c.priv = d.priv ∧ c.LooksLike d) ∧
      ∀ p q : BitVec 32, c.logLine p = d.logLine q → p = q ∧ c.LooksLike d := by
  refine ⟨fun h => ?_, fun p q h => logLine_inj h⟩
  obtain ⟨sameCode, looks⟩ := logLine_inj h
  exact ⟨Privilege.code_injective sameCode, looks⟩

/-- Two runs of `ld x0, 0(a1)` that read different values print one line. -/
theorem toString_identifies_load :
    (Commit.mk 0x80000000 0x0005b003 .machine [] [⟨0x80001000, 1, 8⟩] []).toString =
        (Commit.mk 0x80000000 0x0005b003 .machine [] [⟨0x80001000, 2, 8⟩] []).toString ∧
      (Commit.mk 0x80000000 0x0005b003 .machine [] [⟨0x80001000, 1, 8⟩] []).LooksLike
        (Commit.mk 0x80000000 0x0005b003 .machine [] [⟨0x80001000, 2, 8⟩] []) := by
  have same : (Commit.mk 0x80000000 0x0005b003 .machine [] [⟨0x80001000, 1, 8⟩] []).toString =
      (Commit.mk 0x80000000 0x0005b003 .machine [] [⟨0x80001000, 2, 8⟩] []).toString := rfl
  exact ⟨same, ((toString_identifies _ _).1 same).2⟩

end ZincSim
