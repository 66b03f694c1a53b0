import EosVm.Lib.X86.Encoding
import EosVm.Source.JitLayout

/-!
# How `machine_code_writer` encodes instructions

The functions of `x86_64.hpp` that put prefixes, opcodes, operands and immediates into the code.
Registers are the numbers of their enumerations.
-/

set_option autoImplicit false

namespace EosVm.MachineCodeWriter

open Lib.X86.Encoding (Byte bytes32)

def rsp : BitVec 4 := 4
def rbp : BitVec 4 := 5

/-- The register enumerations. `any` is `general_register`, which has no size. -/
inductive RegKind where
  | general8 | general16 | general32 | general64 | any | xmm
  deriving DecidableEq, Repr

/-- `simple_memory_ref`, `disp_memory_ref` and `sib_memory_ref`, with the index in `reg1`. -/
inductive MemoryRef where
  | simple (reg : BitVec 4)
  | disp (reg : BitVec 4) (offset : BitVec 32)
  | sib (reg1 reg2 : BitVec 4) (offset : BitVec 32)
  deriving DecidableEq, Repr

/-- `sized` is `sized_memory_ref`, with its size in bytes. -/
inductive RM where
  | reg (kind : RegKind) (r : BitVec 4)
  | mem (m : MemoryRef)
  | sized (size : Nat) (m : MemoryRef)
  deriving DecidableEq, Repr

/-- The argument that is encoded as a register: a register, or the extension of an opcode. -/
inductive RegArg where
  | reg (kind : RegKind) (r : BitVec 4)
  | opext (n : BitVec 3)
  deriving DecidableEq, Repr

def RegArg.number : RegArg → BitVec 4
  | .reg _ r => r
  | .opext n => n.setWidth 4

/-- `r & 8`, which is a bit of a prefix. -/
def high (r : BitVec 4) : Bool := r &&& 8 != 0

/-- `r & 7`. -/
def low (r : BitVec 4) : Byte := (r &&& 7).setWidth 8

def bit (b : Bool) (shift : Nat) : Byte := (BitVec.ofBool b).setWidth 8 <<< shift

def emitRexPrefix (w r x b : Bool) : List Byte :=
  if w || r || x || b then [0x40 ||| bit w 3 ||| bit r 2 ||| bit x 1 ||| bit b 0] else []

/-- The register bits of a memory operand in a prefix, of the index and of the base. -/
def MemoryRef.highBits : MemoryRef → Bool × Bool
  | .simple reg | .disp reg _ => (false, high reg)
  | .sib reg1 reg2 _ => (high reg1, high reg2)

def RM.highBits : RM → Bool × Bool
  | .reg _ r => (false, high r)
  | .mem m | .sized _ m => m.highBits

/-- The other overloads of `emit_REX_prefix`. -/
def emitRexPrefixOf (w : Bool) (rm : RM) (reg : BitVec 4) : List Byte :=
  emitRexPrefix w (high reg) rm.highBits.1 rm.highBits.2

/-- `VEX_mmmm` without `mmmm_none`, and `VEX_pp`. -/
inductive VexMmmm where
  | m0F | m0F38 | m0F3A
  deriving DecidableEq, Repr

inductive VexPp where
  | none | p66 | pF3 | pF2
  deriving DecidableEq, Repr

def VexMmmm.value : VexMmmm → Byte
  | .m0F => 1
  | .m0F38 => 2
  | .m0F3A => 3

def VexPp.value : VexPp → Byte
  | .none => 0
  | .p66 => 1
  | .pF3 => 2
  | .pF2 => 3

def emitVexPrefix (r x b : Bool) (mmmm : VexMmmm) (w : Bool) (vvvv : BitVec 4) (l : Bool)
    (pp : VexPp) : List Byte :=
  let tail := (vvvv ^^^ 0xf).setWidth 8 <<< 3 ||| bit l 2 ||| pp.value
  if x || b || mmmm != .m0F || w then
    [0xc4, bit (!r) 7 ||| bit (!x) 6 ||| bit (!b) 5 ||| mmmm.value, bit w 7 ||| tail]
  else [0xc5, bit (!r) 7 ||| tail]

/-- Whether an offset or an immediate fits in a byte. -/
def fitsByte (v : BitVec 32) : Bool := decide (-0x80 ≤ v.toInt ∧ v.toInt ≤ 0x7f)

/-- `emit_modrm_sib_disp` for a `simple_memory_ref`. -/
def emitSimple (mem reg : BitVec 4) : List Byte :=
  if mem = rsp then [low reg <<< 3 ||| 0x04, 0x24]
  else if mem = rbp then [0x45 ||| low reg <<< 3, 0x00]
  else [low reg <<< 3 ||| low mem]

/-- `emit_modrm_sib_disp` for a `disp_memory_ref`. -/
def emitDisp (mem : BitVec 4) (offset : BitVec 32) (reg : BitVec 4) : List Byte :=
  if offset = 0 then emitSimple mem reg
  else if fitsByte offset then
    if mem = rsp then [0x40 ||| low reg <<< 3 ||| 0x04, 0x24, offset.setWidth 8]
    else [0x40 ||| low reg <<< 3 ||| low mem, offset.setWidth 8]
  else
    (if mem = rsp then [0x80 ||| low reg <<< 3 ||| 0x04, 0x24]
      else [0x80 ||| low reg <<< 3 ||| low mem]) ++ bytes32 offset

/-- `emit_modrm_sib_disp` for a `sib_memory_ref`. -/
def emitSib (reg1 reg2 : BitVec 4) (offset : BitVec 32) (reg : BitVec 4) :
    Except VmError (List Byte) :=
  let sib := low reg1 <<< 3 ||| low reg2
  if reg1 = rsp ∨ reg2 = rbp then .error unimplemented
  else if offset = 0 then .ok [0x00 ||| low reg <<< 3 ||| 0x4, sib]
  else if fitsByte offset then .ok [0x40 ||| low reg <<< 3 ||| 0x4, sib, offset.setWidth 8]
  else .ok ([0x80 ||| low reg <<< 3 ||| 0x4, sib] ++ bytes32 offset)

def MemoryRef.emitModrmSibDisp (reg : BitVec 4) : MemoryRef → Except VmError (List Byte)
  | .simple mem => .ok (emitSimple mem reg)
  | .disp mem offset => .ok (emitDisp mem offset reg)
  | .sib reg1 reg2 offset => emitSib reg1 reg2 offset reg

/-- The overloads of `emit_modrm_sib_disp`. -/
def emitModrmSibDisp (reg : BitVec 4) : RM → Except VmError (List Byte)
  | .reg _ r => .ok [0xc0 ||| low reg <<< 3 ||| low r]
  | .mem m | .sized _ m => m.emitModrmSibDisp reg

/-- The `W` of `IA32_t`: that of `IA32`, `IA32_REX_W` and `IA32_WX`. -/
inductive OpcodeW where
  | zero | one | operand
  deriving DecidableEq, Repr

structure IA32 where
  w : OpcodeW
  opcode : List Byte
  deriving DecidableEq, Repr

/-- `get_operand_size` of an operand. `IA32_WX` with an operand that has no size
does not compile. -/
def RM.operandSize (w : OpcodeW) : RM → Bool
  | .reg .general32 _ | .sized 4 _ => w = .one
  | _ => w ≠ .zero

/-- `get_operand_size` of both operands: that of the register decides where it has a size. -/
def getOperandSize (w : OpcodeW) (rm : RM) : RegArg → Bool
  | .reg .general32 _ => w = .one
  | .reg .general64 _ => w ≠ .zero
  | _ => rm.operandSize w

/-- `emit` of an opcode alone. -/
def emitIA32 (op : IA32) : List Byte := emitRexPrefix (op.w = .one) false false false ++ op.opcode

/-- `emit` of an opcode with operands. -/
def emitIA32RM (op : IA32) (rm : RM) (reg : RegArg) : Except VmError (List Byte) := do
  let operands ← emitModrmSibDisp reg.number rm
  return emitRexPrefixOf (getOperandSize op.w rm reg) rm reg.number ++ op.opcode ++ operands

/-- `emit` of an opcode with operands and an immediate, `imm8` or `imm32`. -/
def emitIA32Imm (op : IA32) (imm : List Byte) (rm : RM) (reg : RegArg) :
    Except VmError (List Byte) := do
  return (← emitIA32RM op rm reg) ++ imm

/-- An opcode with a register in its low bits, as `emit_push`, `emit_pop` and `emit_mov` have. -/
def emitOpcodeReg (w : Bool) (opcode : Byte) (reg : BitVec 4) : List Byte :=
  emitRexPrefix w false false (high reg) ++ [opcode ||| low reg]

structure VEX where
  size256 : Bool
  pp : VexPp
  mmmm : VexMmmm
  w : Bool
  opcode : Byte
  deriving DecidableEq, Repr

/-- What the overloads of `emit` for `VEX` have in common: `reg` and `rm` are in the ModRM byte and
`vvvv` in the prefix. -/
def emitVexOperands (op : VEX) (rm : RM) (reg vvvv : BitVec 4) : Except VmError (List Byte) := do
  let operands ← emitModrmSibDisp reg rm
  return emitVexPrefix (high reg) rm.highBits.1 rm.highBits.2 op.mmmm op.w vvvv op.size256 op.pp ++
    [op.opcode] ++ operands

/-- `emit` of an AVX instruction with two operands. -/
def emitVex (op : VEX) (src1 : RM) (src2 : BitVec 4) : Except VmError (List Byte) :=
  emitVexOperands op src1 src2 0

/-- `emit` of an AVX instruction with two operands and an immediate. -/
def emitVexImm (op : VEX) (src1 : Byte) (src2 : RM) (dest : BitVec 4) :
    Except VmError (List Byte) := do
  return (← emitVexOperands op src2 dest 0) ++ [src1]

/-- `emit` of an AVX instruction with an extension of its opcode. -/
def emitVexOpExt (op : VEX) (opExt : BitVec 3) (src1 : Byte) (src2 dest : BitVec 4) :
    Except VmError (List Byte) := do
  return (← emitVexOperands op (.reg .xmm src2) (opExt.setWidth 4) dest) ++ [src1]

/-- `emit` of an AVX instruction with three operands. -/
def emitVex3 (op : VEX) (src1 : RM) (src2 dest : BitVec 4) : Except VmError (List Byte) :=
  emitVexOperands op src1 dest src2

/-- `emit` of an AVX instruction with three operands and an immediate. -/
def emitVex3Imm (op : VEX) (imm : Byte) (src1 : RM) (src2 dest : BitVec 4) :
    Except VmError (List Byte) := do
  return (← emitVex3 op src1 src2 dest) ++ [imm]

end EosVm.MachineCodeWriter
