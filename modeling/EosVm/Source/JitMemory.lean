import EosVm.Lib.X86.Code
import EosVm.Source.Context

/-!
# Machine code of the memory and table instructions

The code that `machine_code_writer` emits for the instructions that change the memory's size and
move blocks of bytes or entries. `rsi` holds the linear memory, `rdi` the context. A pop is the
instruction itself, as without the folding of a value that was just pushed.
-/

set_option autoImplicit false

namespace EosVm

open Lib.X86

/-- The code of `emit_grow_memory`: the slot on top of the native stack goes to `esi`, the helper
`grow_memory` is called and `rax` is pushed. The calling convention leaves the upper half of `rax`,
`upper`, open. -/
def jitGrowMemory (mod : Module) (upper : BitVec 32) (stack : List (BitVec 64))
    (ctx : ExecutionContextBase) : Except VmError (List (BitVec 64) × ExecutionContextBase) :=
  match stack with
  | slot :: stack => do
    let (result, ctx) ← ExecutionContextBase.growLinearMemory mod (slot.setWidth 32) ctx
    pure ((upper ++ result) :: stack, ctx)
  | [] => .error .outOfRange

/-- The code that `emit_error_handler` puts before the functions. -/
inductive JitHandler where
  | fpe | callIndirect | typeError | stackOverflow | memory
  deriving DecidableEq, Repr

/-- `wasm_allocator::table_offset()`: the table's page lies below the system's page that ends at the
memory. -/
def tableOffset : Int := -(2 * ExecutionContextBase.tablePage)

/-- `emit_memory_fill`. -/
def emitMemoryFill : Emit JitHandler Unit := do
  emit (.pop .rcx)
  emit (.mov .w64 .r8 (.reg .rdi))
  emit (.pop .rax)
  emit (.pop .rdi)
  emit (.alu .add .w64 .rdi (.reg .rsi))
  -- validate memory
  emit (.movByte .rdx .rcx .rdi (-1))
  emit .repStosb
  emit (.mov .w64 .rdi (.reg .r8))

/-- `emit_memory_copy`. -/
def emitMemoryCopy : Emit JitHandler Unit := do
  emit (.pop .rcx)
  emit (.mov .w64 .r8 (.reg .rsi))
  emit (.mov .w64 .r9 (.reg .rdi))
  emit (.pop .rsi)
  emit (.pop .rdi)
  emit (.alu .add .w64 .rsi (.reg .r8))
  emit (.alu .add .w64 .rdi (.reg .r8))
  -- `rax` is the distance from the source to the destination
  emit (.mov .w64 .rax (.reg .rdi))
  emit (.alu .sub .w64 .rax (.reg .rsi))
  let cmp1 ← emitBranch .be
  -- validate the destination
  emit (.movByte .rdx .rcx .rdi (-1))
  emit (.cmp .w64 .rax (.reg .rcx))
  let cmp2 ← emitBranch .ae
  emit (.lea .rsi .rcx (some .rsi) (-1))
  emit (.lea .rdi .rcx (some .rdi) (-1))
  emit .std
  emit .repMovsb
  emit .cld
  let done ← emitJmp
  fixHere cmp1
  -- validate the source
  emit (.movByte .rdx .rcx .rsi (-1))
  fixHere cmp2
  emit .repMovsb
  fixHere done
  emit (.mov .w64 .rsi (.reg .r8))
  emit (.mov .w64 .rdi (.reg .r9))

/-- The instruction that finds the table: its address lies below the memory, or the table itself. -/
def tablePlace (initial : BitVec 32) : Op :=
  if ExecutionContextBase.indirectTable initial.toNat then .mov .w64 .rax (.mem .r8 tableOffset)
  else .lea .rax .r8 none tableOffset

/-- `emit_table_copy` for a table of `initial` entries of 16 bytes. -/
def emitTableCopy (initial : BitVec 32) : Emit JitHandler Unit := do
  emit (.pop .rcx)
  emit (.mov .w64 .r8 (.reg .rsi))
  emit (.mov .w64 .r9 (.reg .rdi))
  emit (.pop .rsi)
  emit (.pop .rdi)
  -- check bounds
  emit (.mov .w32 .rax (.imm initial))
  emit (.alu .sub .w64 .rax (.reg .rcx))
  emit (.cmp .w64 .rsi (.reg .rax))
  let src ← emitBranch .g
  fixBranch src (.handler .memory)
  emit (.cmp .w64 .rdi (.reg .rax))
  let dst ← emitBranch .g
  fixBranch dst (.handler .memory)
  -- convert indices to pointers and the size to bytes
  emit (tablePlace initial)
  emit (.shiftImm .shl .w64 .rsi 4)
  emit (.shiftImm .shl .w64 .rdi 4)
  emit (.shiftImm .shl .w64 .rcx 4)
  emit (.alu .add .w64 .rsi (.reg .rax))
  emit (.alu .add .w64 .rdi (.reg .rax))
  -- check for overlap
  emit (.mov .w64 .rax (.reg .rdi))
  emit (.alu .sub .w64 .rax (.reg .rsi))
  let cmp1 ← emitBranch .be
  emit (.cmp .w64 .rax (.reg .rcx))
  let cmp2 ← emitBranch .ae
  -- reverse copy
  emit (.lea .rsi .rcx (some .rsi) (-1))
  emit (.lea .rdi .rcx (some .rdi) (-1))
  emit .std
  emit .repMovsb
  emit .cld
  let done ← emitJmp
  fixHere cmp1
  fixHere cmp2
  -- forward copy
  emit .repMovsb
  fixHere done
  emit (.mov .w64 .rsi (.reg .r8))
  emit (.mov .w64 .rdi (.reg .r9))

end EosVm
