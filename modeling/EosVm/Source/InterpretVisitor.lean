import EosVm.Source.Context
import Mathlib.Logic.Function.Basic

/-!
# The interpreter's memory and table instructions

The operators of `interpret_visitor.hpp` that change the memory's size, move blocks of bytes or
entries, or drop segments. The interpreter visits the instruction at its program counter until the
counter moves on, so `memory.copy`, `memory.fill` and `table.copy` handle one cell a visit and keep
what is left to do in their operands.

The operand stack has its top first. An operand of another type than the operator reads, or a stack
that is too short, is undefined and modelled as `outOfRange`. A trap carries the state that the
operator leaves.
-/

set_option autoImplicit false

namespace EosVm

/-- `operand_stack_elem`; the floating point types are their bits. -/
inductive OperandStackElem where
  | i32 (data : BitVec 32)
  | i64 (data : BitVec 64)
  | f32 (data : BitVec 32)
  | f64 (data : BitVec 64)
  | v128 (data : BitVec 128)
  deriving DecidableEq, Repr

/-- The members of `execution_context` that the operators read and write. -/
structure InterpretState where
  pc : Nat
  os : List OperandStackElem
  ctx : ExecutionContextBase

/-- An operator: the state after it, or the exception and the state that it leaves. -/
abbrev Operator := InterpretState → Except (VmError × InterpretState) InterpretState

namespace InterpretState

/-- The part of an operator that only reads, in the state `st`. -/
def check {α : Type} (st : InterpretState) (x : Except VmError α) :
    Except (VmError × InterpretState) α :=
  x.mapError fun e => (e, st)

/-- A call of the context from the state `st`, which it leaves as it is when it throws. -/
def update (st : InterpretState) (x : Except VmError ExecutionContextBase) :
    Except (VmError × InterpretState) InterpretState :=
  (st.check x).map fun ctx => { st with ctx := ctx }

@[simp] theorem check_ok {α : Type} (st : InterpretState) (a : α) : st.check (.ok a) = .ok a := rfl

@[simp] theorem check_error {α : Type} (st : InterpretState) (e : VmError) :
    st.check (.error e : Except VmError α) = .error (e, st) := rfl

@[simp] theorem update_ok (st : InterpretState) (ctx : ExecutionContextBase) :
    st.update (.ok ctx) = .ok { st with ctx := ctx } := rfl

@[simp] theorem update_error (st : InterpretState) (e : VmError) :
    st.update (.error e) = .error (e, st) := rfl

end InterpretState

namespace ExecutionContextBase

/-- `write_unaligned(memory + dst, read_unaligned<uint8_t>(memory + src))`. -/
def copyByte (ctx : ExecutionContextBase) (dst src : Nat) :
    Except VmError ExecutionContextBase := do
  ctx.validatePointer src 1
  ctx.validatePointer dst 1
  pure { ctx with memory := Function.update ctx.memory dst (ctx.memory src) }

/-- `write_unaligned(memory + dst, value)`. -/
def setByte (ctx : ExecutionContextBase) (dst : Nat) (value : UInt8) :
    Except VmError ExecutionContextBase := do
  ctx.validatePointer dst 1
  pure { ctx with memory := Function.update ctx.memory dst value }

end ExecutionContextBase

/-- `operator()(const current_memory_t&)`. -/
def currentMemory : Operator := fun st =>
  pure { st with pc := st.pc + 1, os := .i32 st.ctx.currentLinearMemory :: st.os }

/-- `operator()(const grow_memory_t&)`. -/
def growMemory (mod : Module) : Operator := fun st =>
  match st.os with
  | .i32 oper :: os => do
    let st := { st with pc := st.pc + 1 }
    let (result, ctx) ← st.check (ExecutionContextBase.growLinearMemory mod oper st.ctx)
    pure { st with os := .i32 result :: os, ctx := ctx }
  | _ => .error (.outOfRange, st)

/-- `operator()(const memory_init_t&)`. -/
def memoryInit (mod : Module) (index : Nat) : Operator := fun st =>
  match st.os with
  | .i32 size :: .i32 src :: .i32 dst :: os =>
    let st := { st with pc := st.pc + 1, os := os }
    st.update
      (ExecutionContextBase.initLinearMemory mod index dst.toNat src.toNat size.toNat st.ctx)
  | _ => .error (.outOfRange, st)

/-- `operator()(const data_drop_t&)`. -/
def dataDrop (mod : Module) (index : Nat) : Operator := fun st =>
  let st := { st with pc := st.pc + 1 }
  st.update (ExecutionContextBase.dropData mod index st.ctx)

/-- `operator()(const memory_copy_t&)`. -/
def memoryCopy : Operator := fun st =>
  match st.os with
  | .i32 size :: .i32 src :: .i32 dst :: os => do
    st.check (st.ctx.touchLast src.toNat size.toNat)
    st.check (st.ctx.touchLast dst.toNat size.toNat)
    if size = 0 then
      pure { st with pc := st.pc + 1, os := os }
    else if dst ≤ src then
      let st ← st.update (st.ctx.copyByte dst.toNat src.toNat)
      pure { st with os := .i32 (size - 1) :: .i32 (src + 1) :: .i32 (dst + 1) :: os }
    else
      let n := size.toNat
      let st ← st.update (st.ctx.copyByte (dst.toNat + (n - 1)) (src.toNat + (n - 1)))
      pure { st with os := .i32 (size - 1) :: .i32 src :: .i32 dst :: os }
  | _ => .error (.outOfRange, st)

/-- `operator()(const memory_fill_t&)`. -/
def memoryFill : Operator := fun st =>
  match st.os with
  | .i32 size :: .i32 src :: .i32 dst :: os => do
    st.check (st.ctx.touchLast dst.toNat size.toNat)
    if size = 0 then
      pure { st with pc := st.pc + 1, os := os }
    else
      let st ← st.update (st.ctx.setByte dst.toNat (UInt8.ofNat src.toNat))
      pure { st with os := .i32 (size - 1) :: .i32 src :: .i32 (dst + 1) :: os }
  | _ => .error (.outOfRange, st)

/-- `operator()(const table_init_t&)`. -/
def tableInit (mod : Module) (index : Nat) : Operator := fun st =>
  match st.os with
  | .i32 size :: .i32 src :: .i32 dst :: os =>
    let st := { st with pc := st.pc + 1, os := os }
    st.update (ExecutionContextBase.initTable mod index dst.toNat src.toNat size.toNat st.ctx)
  | _ => .error (.outOfRange, st)

/-- `operator()(const elem_drop_t&)`. -/
def elemDrop (mod : Module) (index : Nat) : Operator := fun st =>
  let st := { st with pc := st.pc + 1 }
  st.update (ExecutionContextBase.dropElem mod index st.ctx)

/-- `operator()(const table_copy_t&)`. -/
def tableCopy (mod : Module) : Operator := fun st =>
  match st.os with
  | .i32 size :: .i32 src :: .i32 dst :: os => do
    st.check (ExecutionContextBase.getTablePtr mod src.toNat size.toNat)
    st.check (ExecutionContextBase.getTablePtr mod dst.toNat size.toNat)
    if size = 0 then
      pure { st with pc := st.pc + 1, os := os }
    else if dst ≤ src then
      let st ← st.update (st.ctx.copyEntry dst.toNat src.toNat)
      pure { st with os := .i32 (size - 1) :: .i32 (src + 1) :: .i32 (dst + 1) :: os }
    else
      let n := size.toNat
      let st ← st.update (st.ctx.copyEntry (dst.toNat + (n - 1)) (src.toNat + (n - 1)))
      pure { st with os := .i32 (size - 1) :: .i32 src :: .i32 dst :: os }
  | _ => .error (.outOfRange, st)

/-- `execute` on one instruction: it is visited until the program counter moves. `fuel` bounds the
visits. -/
def visit (op : Operator) : Nat → Operator
  | 0, st => pure st
  | fuel + 1, st => do
    let st' ← op st
    if st'.pc = st.pc then visit op fuel st' else pure st'

end EosVm
