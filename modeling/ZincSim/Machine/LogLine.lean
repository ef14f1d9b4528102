/-
  ZincSim.Machine.LogLine — `Commit::to_string` of `cpu.cpp`: the JSON line the
  simulator prints for every commit.

  `priv` has the underlying type `std::uint32_t`, so a `Commit` object can hold
  any 32-bit number there.  `Commit.logLine` takes that number as an argument;
  `Commit.toString` is the line of a commit of this model.
-/
import ZincSim.Machine.Cpu

namespace ZincSim

/-- `reg_write_type_to_string`. -/
def regWriteTypeToString (type : RegType) : String :=
  match type with
  | .csr => "c"
  | .f => "f"
  | .x => "x"

/-- The text of one element of `reg_writes`. -/
def RegWrite.entry (w : RegWrite) : String :=
  "\x7b\"type\":\"" ++ regWriteTypeToString w.type ++ "\",\"num\":" ++ fmtDec w.num.toNat ++
    ",\"value\":" ++ fmtDec w.value.toNat ++ "\x7d"

/-- The text of one element of `mem_reads`. -/
def MemAccess.readEntry (r : MemAccess) : String :=
  "\x7b\"addr\":" ++ fmtDec r.addr.toNat ++
    -- `r.value` is commented out in the source, "TODO: fix this"
    ",\"value\":" ++ fmtDec 0 ++
    ",\"size\":" ++ fmtDec r.size.toNat ++ "\x7d"

/-- The text of one element of `mem_writes`. -/
def MemAccess.writeEntry (w : MemAccess) : String :=
  "\x7b\"addr\":" ++ fmtDec w.addr.toNat ++ ",\"value\":" ++ fmtDec w.value.toNat ++
    ",\"size\":" ++ fmtDec w.size.toNat ++ "\x7d"

/-- The three `for` loops of `to_string`: append the entries from index `i` on. -/
def appendEntries {α : Type} (entry : α → String) (i : Nat) (out : String) : List α → String
  | [] => out
  | item :: items =>
      let out := if i ≠ 0 then out ++ "," else out
      appendEntries entry (i + 1) (out ++ entry item) items

/-- `Commit::to_string` for a commit whose `priv` holds the number `priv`. -/
def Commit.logLine (c : Commit) (priv : BitVec 32) : String :=
  let out :=
    "\x7b\"pc\":\"0x" ++ fmtHex 16 c.pc.toNat ++ "\"," ++
      "\"insn\":\"0x" ++ fmtHex 8 c.insn.toNat ++ "\"," ++
      "\"priv\":" ++ fmtDec priv.toNat ++ ","
  let out := out ++ "\"reg_writes\":["
  let out := appendEntries RegWrite.entry 0 out c.regWrites
  let out := out ++ "],"
  let out := out ++ "\"mem_reads\":["
  let out := appendEntries MemAccess.readEntry 0 out c.memReads
  let out := out ++ "],"
  let out := out ++ "\"mem_writes\":["
  let out := appendEntries MemAccess.writeEntry 0 out c.memWrites
  let out := out ++ "]\x7d"
  out

/-- `Commit::to_string`. -/
def Commit.toString (c : Commit) : String := c.logLine (c.priv.code.setWidth 32)

end ZincSim
