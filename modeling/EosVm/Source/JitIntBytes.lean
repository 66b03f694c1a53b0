import EosVm.Lib.X86.Binary
import EosVm.Source.JitInt
import EosVm.Source.MachineCodeWriter

/-!
# The bytes of the integer instructions

What `machine_code_writer` writes for the scalar integer instructions: through `emit`, or as bytes.
Branches are written with a placeholder and fixed when their target is known.
-/

set_option autoImplicit false

namespace EosVm.MachineCodeWriter

open Lib.X86
open Lib.X86.Encoding (Byte bytes32)

/-- `fix_branch8`, in the code of one instruction. -/
def fixBranch8 (branch target : Nat) (code : List Byte) : Except VmError (List Byte) :=
  let relative : Int := target - (branch + 1)
  if relative > 0x7f ∨ relative < -0x80 then .error unimplemented
  else .ok (code.set branch (BitVec.ofInt 8 relative))

/-- `fix_branch`. -/
def fixBranch (branch target : Nat) (code : List Byte) : Except VmError (List Byte) :=
  let relative : Int := target - (branch + 4)
  if relative > 0x7fffffff ∨ relative < -0x80000000 then .error unimplemented
  else .ok (code.take branch ++ bytes32 (BitVec.ofInt 32 relative) ++ code.drop (branch + 4))

/-- `emit_branch_target32`, where the code starts at `address`. -/
def emitBranchTarget32 (address : BitVec 64) (code : List Byte) : List Byte :=
  code ++ bytes32 (3735928555 - (address + BitVec.ofNat 64 code.length).setWidth 32)

/-- The little endian bytes of `emit_operand64`. -/
def bytes64 (v : BitVec 64) : List Byte := bytes32 (v.setWidth 32) ++ bytes32 (v.extractLsb' 32 32)

def generalKind : Width → RegKind
  | .w32 => .general32
  | .w64 => .general64

def general (w : Width) (r : Reg) : RM := .reg (generalKind w) r.number

def generalArg (w : Width) (r : Reg) : RegArg := .reg (generalKind w) r.number

/-- `disp_memory_ref`. -/
def dispRef (base : Reg) (disp : Int) : RM := .mem (.disp base.number (BitVec.ofInt 32 disp))

/-- The opcodes of `ADD_A`, `SUB_A`, `AND_A`, `OR_A` and `XOR_A`. -/
def aluOpcode : Alu → Byte
  | .add => 0x03
  | .sub => 0x2b
  | .and => 0x23
  | .or => 0x0b
  | .xor => 0x33

/-- The extensions of the opcodes with an immediate, `ADD_imm8`, `ADD_imm32` and the like. -/
def aluExt : Alu → BitVec 3
  | .add => 0
  | .sub => 5
  | .and => 4
  | .or => 1
  | .xor => 6

def shiftExt : Shift → BitVec 3
  | .rol => 0
  | .ror => 1
  | .shl => 4
  | .shr => 5
  | .sar => 7

/-- `BSR`, `BSF`, `LZCNT`, `TZCNT` and `POPCNT`. -/
def scanOpcode : BitScan → IA32
  | .bsr => ⟨.operand, [0x0f, 0xbd]⟩
  | .bsf => ⟨.operand, [0x0f, 0xbc]⟩
  | .lzcnt => ⟨.operand, [0xf3, 0x0f, 0xbd]⟩
  | .tzcnt => ⟨.operand, [0xf3, 0x0f, 0xbc]⟩
  | .popcnt => ⟨.operand, [0xf3, 0x0f, 0xb8]⟩

/-- The opcode of a `Jcc`. -/
def jccOpcode : Cond → Byte
  | .b => 0x72
  | .ae => 0x73
  | .e => 0x74
  | .ne => 0x75
  | .be => 0x76
  | .a => 0x77
  | .l => 0x7c
  | .ge => 0x7d
  | .le => 0x7e
  | .g => 0x7f

/-- An operation with an immediate, in a byte where it fits. -/
def emitImmediate (ext : BitVec 3) (w : Width) (v : BitVec 32) (dst : Reg) :
    Except VmError (List Byte) :=
  if fitsByte v then emitIA32Imm ⟨.operand, [0x83]⟩ [v.setWidth 8] (general w dst) (.opext ext)
  else emitIA32Imm ⟨.operand, [0x81]⟩ (bytes32 v) (general w dst) (.opext ext)

/-- The bytes of an operation: what the overload of `emit`, `emit_push`, `emit_pop` or `emit_mov`
for it writes. The other operations are not part of integer instructions. -/
def opBytes : Op → Except VmError (List Byte)
  | .push r => .ok (emitOpcodeReg false 0x50 r.number)
  | .pop r => .ok (emitOpcodeReg false 0x58 r.number)
  | .mov w dst (.reg src) => emitIA32RM ⟨.operand, [0x8b]⟩ (general w src) (generalArg w dst)
  | .mov w dst (.mem base disp) => emitIA32RM ⟨.operand, [0x8b]⟩ (dispRef base disp)
      (generalArg w dst)
  | .mov .w32 dst (.imm v) => .ok (emitOpcodeReg false 0xb8 dst.number ++ bytes32 v)
  | .movImm64 dst v => .ok (emitOpcodeReg true 0xb8 dst.number ++ bytes64 v)
  | .alu op w dst (.reg src) => emitIA32RM ⟨.operand, [aluOpcode op]⟩ (general w src)
      (generalArg w dst)
  | .alu op w dst (.mem base disp) => emitIA32RM ⟨.operand, [aluOpcode op]⟩ (dispRef base disp)
      (generalArg w dst)
  | .alu op w dst (.imm v) => emitImmediate (aluExt op) w v dst
  | .cmp w dst (.reg src) => emitIA32RM ⟨.operand, [0x3b]⟩ (general w src) (generalArg w dst)
  | .cmp w dst (.imm v) => emitImmediate 7 w v dst
  | .test w dst src => emitIA32RM ⟨.operand, [0x85]⟩ (general w dst) (generalArg w src)
  | .not w dst => emitIA32RM ⟨.operand, [0xf7]⟩ (general w dst) (.opext 2)
  | .neg w dst => emitIA32RM ⟨.operand, [0xf7]⟩ (general w dst) (.opext 3)
  | .imul w dst src => emitIA32RM ⟨.operand, [0x0f, 0xaf]⟩ (general w src) (generalArg w dst)
  | .signExtendAcc .w32 => .ok (emitIA32 ⟨.zero, [0x99]⟩)
  | .signExtendAcc .w64 => .ok (emitIA32 ⟨.one, [0x99]⟩)
  | .div w src => emitIA32RM ⟨.operand, [0xf7]⟩ (general w src) (.opext 6)
  | .idiv w src => emitIA32RM ⟨.operand, [0xf7]⟩ (general w src) (.opext 7)
  | .shiftCl op w dst => emitIA32RM ⟨.operand, [0xd3]⟩ (general w dst) (.opext (shiftExt op))
  | .shiftImm op w dst count =>
    emitIA32Imm ⟨.operand, [0xc1]⟩ [count] (general w dst) (.opext (shiftExt op))
  | .setcc c dst =>
    emitIA32RM ⟨.zero, [0x0f, 0x20 + jccOpcode c]⟩ (.reg .general8 dst.number) (.opext 0)
  | .cmov .e w dst src => emitIA32RM ⟨.operand, [0x0f, 0x44]⟩ (general w src) (generalArg w dst)
  | .scan op w dst src => emitIA32RM (scanOpcode op) (general w src) (generalArg w dst)
  | .movsxTop 8 w dst => emitIA32RM ⟨.operand, [0x0f, 0xbe]⟩ (.mem (.simple rsp)) (generalArg w dst)
  | .movsxTop 16 w dst => emitIA32RM ⟨.operand, [0x0f, 0xbf]⟩ (.mem (.simple rsp))
      (generalArg w dst)
  | .movsxTop 32 w dst => emitIA32RM ⟨.operand, [0x63]⟩ (.mem (.simple rsp)) (generalArg w dst)
  | .movTop .w32 src => emitIA32RM ⟨.zero, [0x89]⟩ (.mem (.disp rsp 0)) (generalArg .w32 src)
  | .movTop .w64 src => emitIA32RM ⟨.operand, [0x89]⟩ (.mem (.disp rsp 0)) (generalArg .w64 src)
  | _ => .error unimplemented

/-- The bytes of operations one after the other. -/
def opsBytes : List Op → Except VmError (List Byte)
  | [] => .ok []
  | op :: ops => do
    let bytes ← opBytes op
    return bytes ++ (← opsBytes ops)

/-- The operations of code without branches. -/
def straightOps (c : IntCode) : List Op :=
  c.code.filterMap fun ins =>
    match ins with
    | .op o => some o
    | .jcc _ _ | .jmp _ => none

/-- `emit_i32_rem_s`. -/
def emitI32RemS (recent : Option RecentOp) : Except VmError (List Byte) := do
  let code ← opsBytes (popOps recent .rcx ++ [.pop .rax, .cmp .w32 .rcx (.imm (-1))])
  let minus1 := code.length + 1
  let code := code ++ [jccOpcode .e, 0xcc] ++ (← opsBytes [.signExtendAcc .w32, .idiv .w32 .rcx])
  let done := code.length + 1
  let code := code ++ [0xeb, 0xcc]
  let code ← fixBranch8 minus1 code.length code
  let code := code ++ (← opsBytes [.alu .xor .w32 .rdx (.reg .rdx)])
  let code ← fixBranch8 done code.length code
  return code ++ (← opsBytes [.push .rdx])

/-- `emit_i64_rem_s`. -/
def emitI64RemS (address : BitVec 64) : Except VmError (List Byte) := do
  let code : List Byte := [0x59, 0x58, 0x48, 0x83, 0xf9, 0xff, 0x0f, 0x84]
  let minus1 := code.length
  let code := emitBranchTarget32 address code ++ [0x48, 0x99, 0x48, 0xf7, 0xf9, 0xe9]
  let done := code.length
  let code := emitBranchTarget32 address code
  let code ← fixBranch minus1 code.length code
  let code := code ++ [0x31, 0xd2]
  let code ← fixBranch done code.length code
  return code ++ [0x52]

/-- `emit_i64_binop`, with the bytes after the operands are popped. -/
def emitI64BinopBytes (bytes : List Byte) : Except VmError (List Byte) :=
    .ok ([0x59, 0x58] ++ bytes)

/-- `emit_i64_relop`, with the opcode of `setcc`. -/
def emitI64RelopBytes (opcode : Byte) : Except VmError (List Byte) :=
  .ok [0x58, 0x59, 0x48, 0x31, 0xd2, 0x48, 0x39, 0xc1, 0x0f, opcode, 0xc2, 0x52]

/-- The comparisons of `i64`. -/
def setccOpcode : IRelOp → Byte
  | .eq => 0x94
  | .ne => 0x95
  | .ltS => 0x9c
  | .ltU => 0x92
  | .gtS => 0x9f
  | .gtU => 0x97
  | .leS => 0x9e
  | .leU => 0x96
  | .geS => 0x9d
  | .geU => 0x93

/-- The bytes of the instructions with two operands, where the code starts at `address`. Those that
are not listed write their operations through `emit`. -/
def binaryBytes (address : BitVec 64) (recent : List RecentOp) :
    IBinaryInstr → Except VmError (List Byte)
  | .bin .i32 .remS => emitI32RemS recent.head?
  | .bin .i64 .remS => emitI64RemS address
  | .rel .i64 op => emitI64RelopBytes (setccOpcode op)
  | .bin .i64 .sub => emitI64BinopBytes [0x48, 0x29, 0xc8, 0x50]
  | .bin .i64 .divS => emitI64BinopBytes [0x48, 0x99, 0x48, 0xf7, 0xf9, 0x50]
  | .bin .i64 .divU => emitI64BinopBytes [0x48, 0x31, 0xd2, 0x48, 0xf7, 0xf1, 0x50]
  | .bin .i64 .remU => emitI64BinopBytes [0x48, 0x31, 0xd2, 0x48, 0xf7, 0xf1, 0x52]
  | .bin .i64 .and => emitI64BinopBytes [0x48, 0x21, 0xc8, 0x50]
  | .bin .i64 .or => emitI64BinopBytes [0x48, 0x09, 0xc8, 0x50]
  | .bin .i64 .xor => emitI64BinopBytes [0x48, 0x31, 0xc8, 0x50]
  | .bin .i64 .rotl => emitI64BinopBytes [0x48, 0xd3, 0xc0, 0x50]
  | .bin .i64 .rotr => emitI64BinopBytes [0x48, 0xd3, 0xc8, 0x50]
  | i => opsBytes (straightOps (emitBinary recent i))

/-- The bytes of the instructions with one operand. -/
def unaryBytes (tzcnt : Bool) (recent : List RecentOp) : IUnaryInstr → Except VmError (List Byte)
  | .eqz .i64 =>
    .ok [0x58, 0x48, 0x31, 0xc9, 0x48, 0x85, 0xc0, 0x0f, 0x94, 0xc1, 0x51]
  | .clz .i64 =>
    if tzcnt then .ok [0x58, 0xf3, 0x48, 0x0f, 0xbd, 0xc0, 0x50]
    else
      .ok [0x58, 0x48, 0xc7, 0xc1, 0xff, 0xff, 0xff, 0xff, 0x48, 0x0f, 0xbd, 0xc0, 0x48, 0x0f, 0x44,
        0xc1, 0x48, 0x83, 0xe8, 0x3f, 0x48, 0xf7, 0xd8, 0x50]
  | .ctz .i64 =>
    if tzcnt then .ok [0x58, 0xf3, 0x48, 0x0f, 0xbc, 0xc0, 0x50]
    else
      .ok [0x58, 0x48, 0xc7, 0xc1, 0x40, 0x00, 0x00, 0x00, 0x48, 0x0f, 0xbc, 0xc0, 0x48, 0x0f, 0x44,
        0xc1, 0x50]
  | .popcnt .i64 => .ok [0x58, 0xf3, 0x48, 0x0f, 0xb8, 0xc0, 0x50]
  | .extendI32S => .ok [0x48, 0x63, 0x04, 0x24, 0x48, 0x89, 0x04, 0x24]
  | u => opsBytes (straightOps (emitUnary tzcnt recent u))

end EosVm.MachineCodeWriter
