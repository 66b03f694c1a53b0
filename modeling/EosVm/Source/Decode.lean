import EosVm.Source.GuardedPtr
import EosVm.Source.Opcodes
import EosVm.Source.Options

/-!
# Instruction decoding

The opcode switch of `parse_function_body_code`, as far as it reads bytes: which immediates follow
an opcode, and the reserved zero bytes. The checks on the immediates and the work on the operand
stack are in `BodyParser`. The source interleaves both; separating them changes which of two
faults of one instruction is reported, never whether the instruction is accepted.
-/

set_option autoImplicit false

namespace EosVm

/-- One instruction with its immediates. Block types are kept as the byte that was read. -/
inductive Instr where
  | unreachable
  | nop
  | block (blocktype : UInt8)
  | loop (blocktype : UInt8)
  | if_ (blocktype : UInt8)
  | else_
  | end_
  | br (label : Nat)
  | brIf (label : Nat)
  | brTable (labels : List Nat) (default : Nat)
  | return_
  | call (funcnum : Nat)
  | callIndirect (functypeidx : Nat)
  | drop
  | select
  | getLocal (localIdx : Nat)
  | setLocal (localIdx : Nat)
  | teeLocal (localIdx : Nat)
  | getGlobal (globalIdx : Nat)
  | setGlobal (globalIdx : Nat)
  | load (op : LoadOp) (alignment offset : Nat)
  | store (op : StoreOp) (alignment offset : Nat)
  | currentMemory
  | growMemory
  | i32Const (value : BitVec 32)
  | i64Const (value : BitVec 64)
  | f32Const (value : BitVec 32)
  | f64Const (value : BitVec 64)
  | numeric (op : NumericOp)
  | loadLane (op : LoadLaneOp) (alignment offset : Nat) (lane : UInt8)
  | storeLane (op : StoreLaneOp) (alignment offset : Nat) (lane : UInt8)
  | v128Const (value : BitVec 128)
  | i8x16Shuffle (lanes : List UInt8)
  | extractLane (op : ExtractLaneOp) (lane : UInt8)
  | replaceLane (op : ReplaceLaneOp) (lane : UInt8)
  | vecNumeric (op : VecNumericOp)
  | truncSat (op : TruncSatOp)
  | memoryInit (x : Nat)
  | dataDrop (x : Nat)
  | memoryCopy
  | memoryFill
  | tableInit (x : Nat)
  | elemDrop (x : Nat)
  | tableCopy
  deriving DecidableEq, Repr

/-- The reserved byte after some instructions: `*code == 0`, then `code++`. -/
def reservedZero (msg : String) (code : WasmCodePtr) : Except VmError WasmCodePtr := do
  let b ← code.deref
  vmAssert (b == 0) (.wasmParse msg)
  let (_, code) ← code.next
  pure code

/-- The label list of `br_table`, `n` labels long. -/
def parseLabels : Nat → WasmCodePtr → Except VmError (List Nat × WasmCodePtr)
  | 0, code => pure ([], code)
  | n + 1, code => do
    let (label, code) ← parseVaruint32 code
    let (labels, code) ← parseLabels n code
    pure (label :: labels, code)

def illegalInstruction : VmError := .wasmParse "Illegal instruction"

/-- The immediates of a memory instruction. -/
def decodeMemarg (mk : Nat → Nat → Instr) (code : WasmCodePtr) :
    Except VmError (Instr × WasmCodePtr) := do
  let (alignment, code) ← parseVaruint32 code
  let (offset, code) ← parseVaruint32 code
  pure (mk alignment offset, code)

/-- An instruction with one varuint32 immediate. -/
def decodeIndex (mk : Nat → Instr) (code : WasmCodePtr) :
    Except VmError (Instr × WasmCodePtr) := do
  let (index, code) ← parseVaruint32 code
  pure (mk index, code)

/-- An instruction with one immediate byte. -/
def decodeByte (mk : UInt8 → Instr) (code : WasmCodePtr) :
    Except VmError (Instr × WasmCodePtr) := do
  let (b, code) ← code.next
  pure (mk b, code)

/-- A lane instruction with a memory immediate. -/
def decodeMemargLane (mk : Nat → Nat → UInt8 → Instr) (code : WasmCodePtr) :
    Except VmError (Instr × WasmCodePtr) := do
  let (alignment, code) ← parseVaruint32 code
  let (offset, code) ← parseVaruint32 code
  let (lane, code) ← code.next
  pure (mk alignment offset lane, code)

/-- `case opcodes::vector_prefix`. -/
def decodeVector (o : Options) (code : WasmCodePtr) : Except VmError (Instr × WasmCodePtr) := do
  vmAssert o.enableSimd (.wasmParse "SIMD not enabled")
  let (sub, code) ← parseVaruint32 code
  if let some op := vecLoadOpcodes.lookup sub then decodeMemarg (.load op) code
  else if let some op := vecStoreOpcodes.lookup sub then decodeMemarg (.store op) code
  else if let some op := loadLaneOpcodes.lookup sub then decodeMemargLane (.loadLane op) code
  else if let some op := storeLaneOpcodes.lookup sub then decodeMemargLane (.storeLane op) code
  else if sub = 12 then
    let (v, code) ← parseRaw 16 code
    pure (.v128Const (BitVec.ofNat 128 v), code)
  else if sub = 13 then
    let lanes := code.slice 16
    let code ← code.advance 16
    pure (.i8x16Shuffle lanes, code)
  else if let some op := extractLaneOpcodes.lookup sub then decodeByte (.extractLane op) code
  else if let some op := replaceLaneOpcodes.lookup sub then decodeByte (.replaceLane op) code
  else if let some op := vecNumericOpcodes.lookup sub then pure (.vecNumeric op, code)
  else .error illegalInstruction

/-- `case opcodes::ext_prefix`. -/
def decodeExt (code : WasmCodePtr) : Except VmError (Instr × WasmCodePtr) := do
  let (sub, code) ← parseVaruint32 code
  if let some op := truncSatOpcodes.lookup sub then pure (.truncSat op, code)
  else if sub = 8 then
    let (x, code) ← parseVaruint32 code
    let code ← reservedZero "memory.init must end with 0x00" code
    pure (.memoryInit x, code)
  else if sub = 9 then decodeIndex .dataDrop code
  else if sub = 10 then
    let code ← reservedZero "memory.copy must end with 0x00 0x00" code
    let code ← reservedZero "memory.copy must end with 0x00 0x00" code
    pure (.memoryCopy, code)
  else if sub = 11 then
    let code ← reservedZero "memory.fill must end with 0x00" code
    pure (.memoryFill, code)
  else if sub = 12 then
    let (x, code) ← parseVaruint32 code
    let code ← reservedZero "table.init must end with 0x00" code
    pure (.tableInit x, code)
  else if sub = 13 then decodeIndex .elemDrop code
  else if sub = 14 then
    let code ← reservedZero "table.copy must end with 0x00 0x00" code
    let code ← reservedZero "table.copy must end with 0x00 0x00" code
    pure (.tableCopy, code)
  else .error illegalInstruction

/-- One round of `switch (*code++)`. -/
def decodeInstr (o : Options) (code : WasmCodePtr) : Except VmError (Instr × WasmCodePtr) := do
  let (b, code) ← code.next
  if b = 0x00 then pure (.unreachable, code)
  else if b = 0x01 then pure (.nop, code)
  else if b = 0x02 then decodeByte .block code
  else if b = 0x03 then decodeByte .loop code
  else if b = 0x04 then decodeByte .if_ code
  else if b = 0x05 then pure (.else_, code)
  else if b = 0x0B then pure (.end_, code)
  else if b = 0x0C then decodeIndex .br code
  else if b = 0x0D then decodeIndex .brIf code
  else if b = 0x0E then
    let (tableSize, code) ← parseVaruint32 code
    let (labels, code) ← parseLabels tableSize code
    decodeIndex (.brTable labels) code
  else if b = 0x0F then pure (.return_, code)
  else if b = 0x10 then decodeIndex .call code
  else if b = 0x11 then
    let (functypeidx, code) ← parseVaruint32 code
    let code ← reservedZero "call_indirect must end with 0x00." code
    pure (.callIndirect functypeidx, code)
  else if b = 0x1A then pure (.drop, code)
  else if b = 0x1B then pure (.select, code)
  else if b = 0x20 then decodeIndex .getLocal code
  else if b = 0x21 then decodeIndex .setLocal code
  else if b = 0x22 then decodeIndex .teeLocal code
  else if b = 0x23 then decodeIndex .getGlobal code
  else if b = 0x24 then decodeIndex .setGlobal code
  else if let some op := loadOpcodes.lookup b then decodeMemarg (.load op) code
  else if let some op := storeOpcodes.lookup b then decodeMemarg (.store op) code
  else if b = 0x3F then
    let code ← reservedZero "memory.size must end with 0x00" code
    pure (.currentMemory, code)
  else if b = 0x40 then
    let code ← reservedZero "memory.grow must end with 0x00" code
    pure (.growMemory, code)
  else if b = 0x41 then
    let (v, code) ← parseVarint32 code
    pure (.i32Const v, code)
  else if b = 0x42 then
    let (v, code) ← parseVarint64 code
    pure (.i64Const v, code)
  else if b = 0x43 then
    let (v, code) ← parseRaw 4 code
    pure (.f32Const (BitVec.ofNat 32 v), code)
  else if b = 0x44 then
    let (v, code) ← parseRaw 8 code
    pure (.f64Const (BitVec.ofNat 64 v), code)
  else if let some op := numericOpcodes.lookup b then pure (.numeric op, code)
  else if b = 0xFD then decodeVector o code
  else if b = 0xFC then decodeExt code
  else .error illegalInstruction

/-- The instructions between the pointer and `bounds`, in the order the parser reads them. -/
def decodeBody (o : Options) (bounds : Nat) : Nat → WasmCodePtr → Except VmError (List Instr)
  | fuel, code =>
    if code.offset < bounds then
      match fuel with
      | 0 => .error illegalInstruction
      | fuel + 1 => do
        let (instr, code) ← decodeInstr o code
        let instrs ← decodeBody o bounds fuel code
        pure (instr :: instrs)
    else pure []

end EosVm
