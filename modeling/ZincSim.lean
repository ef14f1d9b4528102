import ZincSim.Machine.Ram
import ZincSim.Machine.Decode
import ZincSim.Machine.Cpu
import ZincSim.Machine.MulDiv
import ZincSim.Machine.Fpu.Convert
import ZincSim.Machine.Step
import ZincSim.Step.Outcome
import ZincSim.Lib.Returns
import ZincSim.Lib.Run
import ZincSim.Csr.Mstatus
import ZincSim.Step.FpWord
import ZincSim.Step.FpCall
import ZincSim.Step.Writes
import ZincSim.Step.FinalWrites
import ZincSim.Privilege.Isolation
import ZincSim.Step.Fetch
import ZincSim.Memory.Bytes
import ZincSim.Lib.ByteMap
import ZincSim.Memory.LoadStore
import ZincSim.Commit.Log
import ZincSim.Csr.Immediate
import ZincSim.Isa.Refine
import ZincSim.Isa.Encode
import ZincSim.Lib.Sticky
import ZincSim.Fpu.Unpack
import ZincSim.Fpu.Pack
import ZincSim.Fpu.Encode
import ZincSim.Fpu.Exact
import ZincSim.Fpu.Operand
import ZincSim.Fpu.Prepare
import ZincSim.Fpu.Integer
import ZincSim.Fpu.Add
import ZincSim.Fpu.Multiply
import ZincSim.Fpu.Underflow
import ZincSim.Fpu.Calls
import ZincSim.Fpu.DivideByZero
import ZincSim.Fpu.Fused
import ZincSim.Step.ReservedRounding
import ZincSim.Csr.Dirty
import ZincSim.Csr.Accrue
import ZincSim.Csr.Assigned
import ZincSim.Step.Unassigned
import ZincSim.Isa.Disguise
import ZincSim.Fpu.CorrectlyRounded
import ZincSim.Fpu.FromInteger
import ZincSim.Fpu.ToInteger
import ZincSim.Isa.Shift
import ZincSim.Privilege.TrapReturn
import ZincSim.Memory.ProgramLoad
import ZincSim.Lib.Checked
import ZincSim.Fpu.NoWrap
import ZincSim.Fpu.Compare
import ZincSim.Isa.MulDiv
import ZincSim.Commit.LogLine
import ZincSim.Fpu.Primitives
import ZincSim.Fpu.Repack
import ZincSim.Machine.Main
import ZincSim.Step.Loop
import ZincSim.Memory.Provenance
import ZincSim.Step.Exit
import ZincSim.Commit.Replay
import ZincSim.Lib.Rv64Hart
import ZincSim.Isa.Lockstep
import ZincSim.Lib.TrapUnit
import ZincSim.Privilege.TrapRun
import ZincSim.Step.FpStep
import ZincSim.Memory.Footprint
import ZincSim.Fpu.Order
import ZincSim.Fpu.RoundTrip
import ZincSim.Fpu.Laws
import ZincSim.Memory.LoaderDomain
import ZincSim.Step.Progress
