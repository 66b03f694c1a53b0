import EosVm.Source.JitLayout
import EosVm.Source.Writer

/-!
# Machine code writer

`machine_code_writer` of `x86_64.hpp` as the parser drives it: the calls it gets, in order, with
the counts it derives from them. The instruction bytes of each call are left out; a label or a
branch is the number of the calls made before it.
-/

set_option autoImplicit false

namespace EosVm

/-- A call on `machine_code_writer`. `emit_return` is `emit_br`. -/
inductive MachineCall where
  | prologue (localCount : Nat)
  | emit (op : EmitOp)
  | end_
  | loop
  | if_
  | else_ (ifLoc : Nat)
  | br (depthChange : Nat) (rt : Option ValType)
  | brIf (depthChange : Nat) (rt : Option ValType)
  | brTable (tableSize : Nat)
  | case (depthChange : Nat) (rt : Option ValType)
  | fixBranch (branch target : Nat)
  | epilogue (ft : FuncType)
  deriving DecidableEq, Repr

/-- `localCount` and `stackUsage` are `_local_count` and `stack_usage` of the current function;
`limitEntries` are the immediates of `emit_check_stack_limit`, one for each prologue. -/
structure MachineState where
  calls : List MachineCall := []
  localCount : Nat := 0
  stackUsage : Nat := 0
  limitEntries : List Nat := []
  deriving DecidableEq, Repr

namespace MachineState

def record (s : MachineState) (call : MachineCall) : MachineState :=
  { s with calls := s.calls ++ [call] }

/-- Records a call that returns its own address. -/
def branch (s : MachineState) (call : MachineCall) : Except VmError (Nat × MachineState) :=
  pure (s.calls.length, s.record call)

/-- The slots a local or a parameter takes. -/
def slotCount (type : ValType) (count : Nat) : Nat :=
  if type = .v128 then count + count else count

/-- The loop of `emit_prologue`; `count` is a `uint64_t`. -/
def localSlots (locals : List LocalEntry) : Nat :=
  locals.foldl (fun count entry => count + slotCount entry.type entry.count) 0

/-- `emit_prologue`. -/
def emitPrologue (locals : List LocalEntry) (s : MachineState) : MachineState :=
  { s.record (.prologue (localSlots locals)) with
    localCount := localSlots locals
    limitEntries := s.limitEntries ++ [0] }

/-- The loop of `emit_multipop(ft)`: the bytes of the parameters. -/
def paramBytes : List ValType → Nat → Except VmError Nat
  | [], totalSize => pure totalSize
  | type :: types, totalSize => do
    let totalSize := totalSize + if type = .v128 then 16 else 8
    vmAssert (totalSize ≤ 0x7fffffff) unimplemented
    paramBytes types totalSize

/-- The calls without a result. -/
def emit (op : EmitOp) (s : MachineState) : Except VmError MachineState :=
  match op with
  | .call ft _ | .callIndirect ft _ => do
    let _ ← paramBytes ft.paramTypes 0
    pure (s.record (.emit op))
  | _ => pure (s.record (.emit op))

/-- `set_stack_usage`; it does nothing unless the limit is in bytes. `stack_limit_entry` points into
the last prologue. -/
def setStackUsage (stackLimitIsBytes : Bool) (usage : Nat) (s : MachineState) :
    Except VmError MachineState :=
  if stackLimitIsBytes then do
    vmAssert (usage + 16 < 0x7fffffff) unimplemented
    pure { s with
      stackUsage := usage + 16
      limitEntries := s.limitEntries.set (s.limitEntries.length - 1) (usage + 16) }
  else pure s

end MachineState

/-- `machine_code_writer<Context, StackLimitIsBytes>` as a code writer. `finalize` changes neither
the size nor the stack size of the body. -/
def machineWriter (stackLimitIsBytes : Bool) : CodeWriter where
  State := MachineState
  Label := Nat
  Branch := Nat
  Handler := Unit
  getDepthForType := machineDepthForType
  start := fun _ _ => pure {}
  emitPrologue := fun _ ft locals _ s => do
    let _ ← FunctionFrame.make ft locals
    pure (s.emitPrologue locals)
  emit := MachineState.emit
  emitEnd := fun s => s.branch .end_
  emitReturn := fun depthChange rt s => s.branch (.br depthChange rt)
  emitLoop := fun s => s.branch .loop
  emitIf := fun s => s.branch .if_
  emitElse := fun ifLoc s => s.branch (.else_ ifLoc)
  emitBr := fun depthChange rt s => s.branch (.br depthChange rt)
  emitBrIf := fun depthChange rt s => s.branch (.brIf depthChange rt)
  emitBrTable := fun tableSize s => pure ((), s.record (.brTable tableSize))
  emitCase := fun _ depthChange rt s => do
    let (branch, s) ← s.branch (.case depthChange rt)
    pure (branch, (), s)
  emitDefault := fun _ depthChange rt s => s.branch (.case depthChange rt)
  fixBranch := fun branch target s => pure (s.record (.fixBranch branch target))
  setStackUsage := MachineState.setStackUsage stackLimitIsBytes
  emitEpilogue := fun ft _ _ s => pure (s.record (.epilogue ft))
  finalize := fun fb s => pure (fb.size, fb.stackSize, s)

end EosVm
