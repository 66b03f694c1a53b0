import EosVm.Source.Decode
import EosVm.Source.Tracker

/-!
# Code writer interface

The `Writer` template argument of `binary_parser`. The parser never looks inside the writer's
labels and branches: it stores what the writer returns and hands it back to `fix_branch` and
`emit_else`, so the interface is a structure with abstract types for them.
-/

set_option autoImplicit false

namespace EosVm

/-- The `emit_*` calls whose result the parser does not use. Those that take exactly the
immediates of their instruction are `plain`. -/
inductive EmitOp where
  | plain (instr : Instr)
  | call (ft : FuncType) (funcnum : Nat)
  | callIndirect (ft : FuncType) (functypeidx : Nat)
  | drop (type : OperandType)
  | select (type : OperandType)
  | getLocal (localIdx : Nat) (type : ValType)
  | setLocal (localIdx : Nat) (type : ValType)
  | teeLocal (localIdx : Nat) (type : ValType)
  deriving DecidableEq, Repr

/-- The operations `parse_function_body_code` and `write_code_out` use. `depth_change` arguments
are `uint32_t`; a result type `none` is `types::pseudo`. `finalize` yields the new `size` and
`stack_size` of the body. -/
structure CodeWriter where
  State : Type
  Label : Type
  Branch : Type
  Handler : Type
  getDepthForType : OperandType → Nat
  start : Module → Nat → Except VmError State
  emitPrologue : Module → FuncType → List LocalEntry → Nat → State → Except VmError State
  emit : EmitOp → State → Except VmError State
  emitEnd : State → Except VmError (Label × State)
  emitReturn : Nat → Option ValType → State → Except VmError (Branch × State)
  emitLoop : State → Except VmError (Label × State)
  emitIf : State → Except VmError (Branch × State)
  emitElse : Branch → State → Except VmError (Branch × State)
  emitBr : Nat → Option ValType → State → Except VmError (Branch × State)
  emitBrIf : Nat → Option ValType → State → Except VmError (Branch × State)
  emitBrTable : Nat → State → Except VmError (Handler × State)
  emitCase : Handler → Nat → Option ValType → State → Except VmError (Branch × Handler × State)
  emitDefault : Handler → Nat → Option ValType → State → Except VmError (Branch × State)
  fixBranch : Branch → Label → State → Except VmError State
  setStackUsage : Nat → State → Except VmError State
  emitEpilogue : FuncType → List LocalEntry → Nat → State → Except VmError State
  finalize : FunctionBody → State → Except VmError (Nat × Nat × State)

/-- `bitcode_writer::get_depth_for_type`. -/
def bitcodeDepthForType : OperandType → Nat := fun _ => 1

/-- `machine_code_writer::get_depth_for_type`. -/
def machineDepthForType : OperandType → Nat
  | .val .v128 => 2
  | _ => 1

end EosVm
