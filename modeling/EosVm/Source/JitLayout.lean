import EosVm.Source.JitMemory

/-!
# The frame of a function in machine code

Where `machine_code_writer` puts parameters and locals, the code of a function's prologue, and how a
caller leaves the arguments. Offsets count bytes from `rbp`, in 32 bits. The machine keeps its stack
apart from `rsp`: `rbp` stands for the slot that the prologue pushes first.
-/

set_option autoImplicit false

namespace EosVm

open Lib.X86

/-- `unimplemented()`. -/
def unimplemented : VmError := .wasmParse "Sorry, not implemented."

/-- The loop of the constructor of `function_parameters`, from the last parameter on; `offsets` are
those of the parameters after `types`. -/
def parameterOffsets : List ValType → BitVec 32 → List (BitVec 32) →
    Except VmError (List (BitVec 32))
  | [], _, offsets => pure offsets
  | type :: types, currentOffset, offsets => do
    -- the offset has to fit an immediate
    vmAssert (currentOffset ≤ 0x7fffffff) unimplemented
    parameterOffsets types (currentOffset + if type = .v128 then 16 else 8)
      (currentOffset :: offsets)

/-- `function_locals::entry`. -/
structure LocalGroup where
  endIdx : BitVec 32
  endOffset : BitVec 32
  elemSize : BitVec 8
  deriving DecidableEq, Repr

/-- The loop of the constructor of `function_locals`. -/
def localGroups : List LocalEntry → BitVec 32 → BitVec 32 → Except VmError (List LocalGroup)
  | [], _, _ => pure []
  | entry :: entries, offset, frameOffset => do
    let size : BitVec 8 := if entry.type = .v128 then 16 else 8
    let count := BitVec.ofNat 32 entry.count
    let offset := offset + count
    -- the comparison is made in 64 bits
    vmAssert (-0x80000000 + (size.toNat : Int) * count.toNat ≤ frameOffset.toInt) unimplemented
    let frameOffset := frameOffset - size.setWidth 32 * count
    let groups ← localGroups entries offset frameOffset
    pure (⟨offset, frameOffset, size⟩ :: groups)

/-- `function_locals::get_frame_offset`. `std::partition_point` finds the first group that ends
after the local; there is none where the assertion fails. -/
def localFrameOffset (groups : List LocalGroup) (paramIdx : BitVec 32) : Option (BitVec 32) :=
  (groups.find? fun e => !decide (e.endIdx ≤ paramIdx)).map fun pos =>
    pos.endOffset + (pos.endIdx - paramIdx - 1) * pos.elemSize.setWidth 32

/-- The slots of the locals, as `emit_prologue` counts them. -/
def countLocals : List LocalEntry → BitVec 64 → BitVec 64
  | [], count => count
  | entry :: entries, count =>
    let count := count + BitVec.ofNat 64 entry.count
    let count := if entry.type = .v128 then count + BitVec.ofNat 64 entry.count else count
    countLocals entries count

/-- What `emit_prologue` keeps of a function: `_ft`, `_params`, `_locals` and `_local_count`. -/
structure FunctionFrame where
  ft : FuncType
  params : List (BitVec 32)
  locals : List LocalGroup
  localCount : BitVec 64
  deriving DecidableEq, Repr

namespace FunctionFrame

def make (ft : FuncType) (locals : List LocalEntry) : Except VmError FunctionFrame := do
  let params ← parameterOffsets ft.paramTypes.reverse 16 []
  let groups ← localGroups locals 0 0
  pure ⟨ft, params, groups, countLocals locals 0⟩

/-- `get_frame_offset`. -/
def getFrameOffset (frame : FunctionFrame) (localIdx : BitVec 32) : Option (BitVec 32) :=
  if localIdx.toNat < frame.ft.paramTypes.length then frame.params[localIdx.toNat]?
  else localFrameOffset frame.locals (localIdx - BitVec.ofNat 32 frame.ft.paramTypes.length)

end FunctionFrame

/-- `emit_check_stack_limit`; `usage` is there when the limit is in bytes, and is filled in by
`set_stack_usage`. -/
def emitCheckStackLimit : Option (BitVec 32) → Emit JitHandler Unit
  | none => pure ()
  | some usage => do
    emit (.alu .sub .w32 .rbx (.imm usage))
    let branch ← emitBranch .b
    fixBranch branch (.handler .stackOverflow)

/-- The part of `emit_prologue` that pushes the locals. -/
def emitZeroLocals (localCount : BitVec 64) : Emit JitHandler Unit :=
  if 0 < localCount then do
    emit (.alu .xor .w64 .rax (.reg .rax))
    -- a loop only where it saves space
    if 14 < localCount then
      let width : Width := if 0xFFFFFFFF < localCount then .w64 else .w32
      emit (if 0xFFFFFFFF < localCount then .movImm64 .rcx localCount
        else .mov .w32 .rcx (.imm (localCount.setWidth 32)))
      let loop ← here
      emit (.push .rax)
      emit (.dec width .rcx)
      let branch ← emitBranch .ne
      fixBranch branch (.code loop)
    else
      emitOps (List.replicate localCount.toNat (.push .rax))
  else pure ()

/-- The code of `emit_prologue`. -/
def emitPrologueCode (usage : Option (BitVec 32)) (localCount : BitVec 64) :
    Emit JitHandler Unit := do
  emit (.push .rbp)
  emit (.mov .w64 .rbp (.reg .rsp))
  emitCheckStackLimit usage
  emitZeroLocals localCount

/-- A value on the operand stack: `v128` takes two slots, the low half on top. -/
def pushOperand (type : ValType) (v : BitVec 128) (stack : List (BitVec 64)) : List (BitVec 64) :=
  if type = .v128 then v.setWidth 64 :: v.extractLsb' 64 64 :: stack else v.setWidth 64 :: stack

/-- The arguments of a call, pushed one after the other. -/
def pushOperands : List (ValType × BitVec 128) → List (BitVec 64) → List (BitVec 64)
  | [], stack => stack
  | (type, v) :: args, stack => pushOperands args (pushOperand type v stack)

/-- `append_arg`: the native values of an argument of the host. -/
def appendArg (type : ValType) (v : BitVec 128) : List (BitVec 64) :=
  if type = .v128 then [v.extractLsb' 64 64, v.setWidth 64] else [v.setWidth 64]

/-- The loop of `emit_sysv_abi_interface` that copies the host's arguments to the stack. -/
def copyArgs : List (BitVec 64) → List (BitVec 64) → List (BitVec 64)
  | [], stack => stack
  | v :: data, stack => copyArgs data (v :: stack)

end EosVm
