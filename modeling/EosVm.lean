import EosVm.Lib.ExceptRun
import EosVm.Lib.ClassReps
import EosVm.Lib.Tiling
import EosVm.Lib.Trace
import EosVm.Lib.BlockMove
import EosVm.Lib.X86.Machine
import EosVm.Lib.X86.Code
import EosVm.Lib.X86.Strings
import EosVm.Source.Types
import EosVm.Source.Options
import EosVm.Source.Opcodes
import EosVm.Source.GuardedPtr
import EosVm.Source.Decode
import EosVm.Source.Tracker
import EosVm.Source.Writer
import EosVm.Source.BodyParser
import EosVm.Source.ModuleParser
import EosVm.Source.BitcodeWriter
import EosVm.Source.MachineWriter
import EosVm.Source.Context
import EosVm.Source.JitAllocator
import EosVm.Source.Execute
import EosVm.Source.InterpretVisitor
import EosVm.Source.JitMemory
import EosVm.Source.JitControl
import EosVm.Invariants.BodyRun
import EosVm.Invariants.Effects
import EosVm.Invariants.Indices
import EosVm.Invariants.SectionRun
import EosVm.Invariants.Bodies
import EosVm.Invariants.ModuleState
import EosVm.Invariants.Instantiation
import EosVm.Invariants.TrackerRun
import EosVm.Invariants.StackBound
import EosVm.Invariants.DepthRun
import EosVm.Invariants.UsageRun
import EosVm.Invariants.WriterRun
import EosVm.Invariants.Backends
import EosVm.Invariants.FrameCharge
import EosVm.Invariants.JitBlocks
import EosVm.Invariants.InterpFrames
import EosVm.Invariants.JitFrames
import EosVm.Invariants.JitChains
import EosVm.Invariants.Lockstep
import EosVm.Guarantees.IndexSpaces
import EosVm.Guarantees.CallIndirect
import EosVm.Guarantees.DataSegments
import EosVm.Guarantees.ElemSegments
import EosVm.Guarantees.OperandDepth
import EosVm.Guarantees.StackUsage
import EosVm.Guarantees.NativeStack
import EosVm.Guarantees.JitAllocator
import EosVm.Guarantees.Noninterference
import EosVm.Guarantees.ExecuteRestores
import EosVm.Guarantees.CallLimits
import EosVm.Guarantees.MemoryGrowth
import EosVm.Guarantees.BulkMemory
import EosVm.Guarantees.JitBulkMemory
import EosVm.Guarantees.JitLayout
import EosVm.Guarantees.JitBrTable
import EosVm.Spec.Typing
import EosVm.Invariants.StackTypes
import EosVm.Invariants.StackProgress
import EosVm.Invariants.StackWeight
import EosVm.Invariants.TypingContext
import EosVm.Invariants.InstrTyping
import EosVm.Invariants.ValidatorSound
import EosVm.Invariants.WriterRoom
import EosVm.Invariants.ValidatorComplete
import EosVm.Guarantees.Validation
import EosVm.Spec.IntOps
import EosVm.Source.InterpretInt
import EosVm.Source.JitInt
import EosVm.Guarantees.IntOps
import EosVm.Guarantees.JitIntOps
import EosVm.Lib.X86.Integers
import EosVm.Lib.Lanes
import EosVm.Lib.X86.Vector
import EosVm.Spec.SimdOps
import EosVm.Source.InterpretSimd
import EosVm.Source.JitSimd
import EosVm.Guarantees.SimdLowering
import EosVm.Guarantees.SimdOps
import EosVm.Lib.Leb128
import EosVm.Source.Leb128
import EosVm.Guarantees.Leb128
import EosVm.Spec.Segments
import EosVm.Guarantees.SegmentHeaders
import EosVm.Guarantees.ElemEntries
import EosVm.Lib.Utf8
import EosVm.Guarantees.Names
import EosVm.Guarantees.LocalTypes
import EosVm.Source.DebugInfo
import EosVm.Guarantees.DebugInfo
import EosVm.Source.ArgumentProxy
import EosVm.Guarantees.ArgumentProxy
import EosVm.Lib.FloatFormat
import EosVm.Source.Softfloat
import EosVm.Guarantees.Softfloat
import EosVm.Source.WasmAllocator
import EosVm.Guarantees.WasmAllocator
import EosVm.Source.GrowableAllocator
import EosVm.Guarantees.GrowableAllocator
import EosVm.Source.StackManager
import EosVm.Guarantees.StackManager
import EosVm.Lib.LinkedList
import EosVm.Source.Profile
import EosVm.Guarantees.Profile
import EosVm.Lib.Interleaving
import EosVm.Source.TimedRun
import EosVm.Guarantees.TimedRun
import EosVm.Lib.X86.Encoding
import EosVm.Source.MachineCodeWriter
import EosVm.Guarantees.MachineCodeWriter
import EosVm.Lib.X86.Binary
import EosVm.Source.JitIntBytes
import EosVm.Guarantees.JitIntBytes
import EosVm.Lib.X86.Relocation
import EosVm.Spec.Expressions
import EosVm.Source.Peephole
import EosVm.Guarantees.Peephole
