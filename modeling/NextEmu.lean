import NextEmu.Device.CLInt
import NextEmu.Device.CLIntRegisters
import NextEmu.Device.CLIntTimer
import NextEmu.Device.ControllerAccess
import NextEmu.Device.DmaPending
import NextEmu.Device.DmaTransfers
import NextEmu.Device.Mem
import NextEmu.Device.MiniCPUMemController
import NextEmu.Device.PLIC
import NextEmu.Device.PLICArbitration
import NextEmu.Device.PLICClaims
import NextEmu.Device.PLICExclusion
import NextEmu.Device.PLICMap
import NextEmu.Device.PLICRegions
import NextEmu.Device.PLICRejects
import NextEmu.Device.UartDelay
import NextEmu.Device.UartEncoder
import NextEmu.Device.UartFraming
import NextEmu.Device.UartRTL
import NextEmu.Device.UartReception
import NextEmu.Device.UartRestart
import NextEmu.Device.UartRoundTrip
import NextEmu.Device.UartRx
import NextEmu.Device.UartStream
import NextEmu.Device.UartTransmission
import NextEmu.Device.Uartlite
import NextEmu.Device.UartliteAlone
import NextEmu.Device.UartliteAtomic
import NextEmu.Device.UartliteCalls
import NextEmu.Device.UartliteErrors
import NextEmu.Device.UartliteFifos
import NextEmu.Device.UartliteLinear
import NextEmu.Device.UartliteRelation
import NextEmu.Device.UartliteStatus
import NextEmu.FullSys.Console
import NextEmu.FullSys.Devices
import NextEmu.FullSys.Input
import NextEmu.FullSys.Interrupts
import NextEmu.FullSys.System
import NextEmu.FullSys.Timer
import NextEmu.GdbStub.Acknowledgement
import NextEmu.GdbStub.Addresses
import NextEmu.GdbStub.Calls
import NextEmu.GdbStub.Commands
import NextEmu.GdbStub.Continue
import NextEmu.GdbStub.Digits
import NextEmu.GdbStub.Frames
import NextEmu.GdbStub.Framing
import NextEmu.GdbStub.Packets
import NextEmu.GdbStub.Replies
import NextEmu.GdbStub.RoundTrip
import NextEmu.GdbStub.Stub
import NextEmu.GdbStub.Trace
import NextEmu.GdbStub.Transfers
import NextEmu.Lib.AbortState
import NextEmu.Lib.Arbiter
import NextEmu.Lib.BitField
import NextEmu.Lib.BlockCache
import NextEmu.Lib.ByteMemory
import NextEmu.Lib.Divider
import NextEmu.Lib.Following
import NextEmu.Lib.Histories
import NextEmu.Lib.MappedMemory
import NextEmu.Lib.Mutex
import NextEmu.Lib.Polling
import NextEmu.Lib.RadixWalk
import NextEmu.Lib.RiscV
import NextEmu.Lib.RiscVCompressed
import NextEmu.Lib.RiscVEncoding
import NextEmu.Lib.RiscVMachine
import NextEmu.Lib.SumCheck
import NextEmu.Lib.Sv39
import NextEmu.Lib.Sv39Space
import NextEmu.MiniCPU.Agreement
import NextEmu.MiniCPU.BoardRuns
import NextEmu.MiniCPU.CommandAgreement
import NextEmu.MiniCPU.Compressed
import NextEmu.MiniCPU.Contexts
import NextEmu.MiniCPU.Exec
import NextEmu.MiniCPU.InstructionAgreement
import NextEmu.MiniCPU.Privilege
import NextEmu.MiniCPU.State
import NextEmu.MiniCPU.Step
import NextEmu.MiniCPUApp.AsyncTransfers
import NextEmu.MiniCPUApp.Runtime
import NextEmu.RtlAdapter.AXILiteAdapter
import NextEmu.RtlAdapter.AXILiteHandshake
import NextEmu.RtlAdapter.AXILiteReads
import NextEmu.RtlAdapter.AXILiteRegisters
import NextEmu.RtlAdapter.AXILiteSlave
import NextEmu.RtlAdapter.AXILiteStores
import NextEmu.Sdk.AddrBus
import NextEmu.Sdk.Interface
import NextEmu.Sdk.LogicAnalyzer
import NextEmu.Sdk.LogicAnalyzerRecords
import NextEmu.Sdk.Reservation
import NextEmu.Sdk.SRAMAdapter
import NextEmu.Sdk.SparseStore
import NextEmu.Sdk.ThreadPool
import NextEmu.Sdk.ThreadPoolWakeups
import NextEmu.Sdk.WireSignal
import NextEmu.Sdk.WireSignalLayouts
import NextEmu.Simple.AccessFaults
import NextEmu.Simple.Alu
import NextEmu.Simple.AluConformance
import NextEmu.Simple.Amo
import NextEmu.Simple.AtomicOperations
import NextEmu.Simple.Boundary
import NextEmu.Simple.BusCalls
import NextEmu.Simple.CSRFrame
import NextEmu.Simple.Compressed
import NextEmu.Simple.CompressedFetch
import NextEmu.Simple.Confinement
import NextEmu.Simple.Conformance
import NextEmu.Simple.ControlTransfer
import NextEmu.Simple.DataPaths
import NextEmu.Simple.Debug
import NextEmu.Simple.DebugRegisters
import NextEmu.Simple.Delegation
import NextEmu.Simple.Encodings
import NextEmu.Simple.EvenJumps
import NextEmu.Simple.EvenPC
import NextEmu.Simple.Exec
import NextEmu.Simple.GuestAborts
import NextEmu.Simple.HartRuns
import NextEmu.Simple.IllegalInstructions
import NextEmu.Simple.Inst
import NextEmu.Simple.IntegerConformance
import NextEmu.Simple.Interrupts
import NextEmu.Simple.Isolation
import NextEmu.Simple.Legality
import NextEmu.Simple.LentMode
import NextEmu.Simple.LoadStore
import NextEmu.Simple.OneTrap
import NextEmu.Simple.Outcomes
import NextEmu.Simple.PathAgreement
import NextEmu.Simple.Permitted
import NextEmu.Simple.PreciseTraps
import NextEmu.Simple.PrivModes
import NextEmu.Simple.Privilege
import NextEmu.Simple.Refusal
import NextEmu.Simple.Retirement
import NextEmu.Simple.RunInvariants
import NextEmu.Simple.Runs
import NextEmu.Simple.RvcConformance
import NextEmu.Simple.RvcImmediates
import NextEmu.Simple.RvcSteps
import NextEmu.Simple.SingleAccess
import NextEmu.Simple.SingleMatch
import NextEmu.Simple.State
import NextEmu.Simple.Step
import NextEmu.Simple.Structs
import NextEmu.Simple.Sv39
import NextEmu.Simple.TlbFence
import NextEmu.Simple.Translation
import NextEmu.Simple.Transparency
import NextEmu.Simple.TrapAsserts
import NextEmu.Simple.TrapReturn
import NextEmu.Simple.TrapVectors
import NextEmu.Simple.Traversal
import NextEmu.Simple.Unaborted
import NextEmu.Simple.VirtualRuns
import NextEmu.Simple.WalkConformance
