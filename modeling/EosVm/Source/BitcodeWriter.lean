import EosVm.Source.ModuleParser

/-!
# Bitcode writer

`bitcode_writer.hpp`. The buffer `fb` is a list of opcode slots of the size it was allocated with.
`sizeof(opcode)` is 24 and `sizeof(br_table_t::elem_t)` is 8, so one slot of table data holds three
entries. Finished functions are laid out one after the other, as `fix_branch` takes for granted
with `_base_offset`.
-/

set_option autoImplicit false

namespace EosVm

/-- `br_table_t::elem_t`. -/
structure TableElem where
  pc : Nat
  stackPop : Nat
  deriving DecidableEq, Repr

/-- One slot of the code: an opcode of the `variant`, or three entries of table data. Opcodes
without a branch target are those of their instruction. -/
inductive Opcode where
  | raw
  | error
  | if_ (pc : Nat)
  | else_ (pc : Nat)
  | br (data pc : Nat)
  | brIf (data pc : Nat)
  | brTable (size : Nat)
  | tableData (e0 e1 e2 : TableElem)
  | return_ (data pc stacksz : Nat)
  | call (index : Nat)
  | callIndirect (index : Nat)
  | drop
  | select
  | getLocal (index : Nat)
  | setLocal (index : Nat)
  | teeLocal (index : Nat)
  | plain (instr : Instr)
  deriving DecidableEq, Repr

/-- A `uint32_t*` into the code: the `pc` of an instruction, or of an entry of table data. -/
inductive BitcodeBranch where
  | instr (slot : Nat)
  | entry (slot : Nat) (k : Fin 3)
  deriving DecidableEq, Repr

/-- `br_table_parser`: `_br_tab` as a slot number, and `_i`. -/
structure BrTableParser where
  brTab : Nat
  i : Nat
  deriving DecidableEq, Repr

/-- The members of `bitcode_writer`, with the code of the finished functions. -/
structure BitcodeState where
  done : List Opcode := []
  fb : List Opcode := []
  opIndex : Nat := 0
  baseOffset : Nat := 0
  stackUsage : Nat := 1
  deriving DecidableEq, Repr

def vectorOob : VmError := .wasmVectorOob "vector read out of bounds"

/-- `guarded_vector::resize`: growing allocates a new buffer without the old contents. -/
def resizeBuffer (fb : List Opcode) (size : Nat) : List Opcode :=
  if size > fb.length then List.replicate size .raw else fb.take size

/-- Writes the `pc` of an instruction. -/
def Opcode.setPc (pc : Nat) : Opcode → Opcode
  | .if_ _ => .if_ pc
  | .else_ _ => .else_ pc
  | .br data _ => .br data pc
  | .brIf data _ => .brIf data pc
  | op => op

/-- Changes one entry of table data. -/
def Opcode.updateElem (k : Fin 3) (f : TableElem → TableElem) : Opcode → Opcode
  | .tableData e0 e1 e2 =>
    match k with
    | 0 => .tableData (f e0) e1 e2
    | 1 => .tableData e0 (f e1) e2
    | 2 => .tableData e0 e1 (f e2)
  | op => op

namespace BitcodeState

/-- `fb[op_index++] = op`, through the checked `operator[]`. -/
def append (op : Opcode) (s : BitcodeState) : Except VmError BitcodeState := do
  vmAssert (s.opIndex < s.fb.length) vectorOob
  pure { s with fb := s.fb.set s.opIndex op, opIndex := s.opIndex + 1 }

/-- A store through a pointer into the code. -/
def patch (branch : BitcodeBranch) (pc : Nat) (s : BitcodeState) : BitcodeState :=
  match branch with
  | .instr slot => { s with fb := s.fb.modify slot (Opcode.setPc pc) }
  | .entry slot k =>
    { s with fb := s.fb.modify slot (Opcode.updateElem k fun e => { e with pc := pc }) }

end BitcodeState

/-- `encode_depth_change`. -/
def encodeDepthChange (depthChange : Nat) (rt : Option ValType) : Except VmError Nat := do
  vmAssert (depthChange < 0x80000000) (.wasmParse "Sorry, not implemented.")
  match rt with
  | some _ => pure (depthChange + 0x80000000)
  | none => pure depthChange

/-- The opcode of an `emit_*` call; `emit_block` emits nothing. -/
def EmitOp.opcode : EmitOp → Option Opcode
  | .plain (.block _) => none
  | .plain instr => some (.plain instr)
  | .call _ funcnum => some (.call funcnum)
  | .callIndirect _ functypeidx => some (.callIndirect functypeidx)
  | .drop _ => some .drop
  | .select _ => some .select
  | .getLocal localIdx _ => some (.getLocal localIdx)
  | .setLocal localIdx _ => some (.setLocal localIdx)
  | .teeLocal localIdx _ => some (.teeLocal localIdx)

namespace BitcodeState

/-- The `emit_*` functions without result. -/
def emit (op : EmitOp) (s : BitcodeState) : Except VmError BitcodeState :=
  match op.opcode with
  | none => pure s
  | some opcode => s.append opcode

/-- `emit_if`. -/
def emitIf (s : BitcodeState) : Except VmError (BitcodeBranch × BitcodeState) := do
  let s' ← s.append (.if_ 0)
  pure (.instr s.opIndex, s')

/-- `emit_else`. -/
def emitElse (ifLoc : BitcodeBranch) (s : BitcodeState) :
    Except VmError (BitcodeBranch × BitcodeState) := do
  let s' ← s.append (.else_ 0)
  pure (.instr s.opIndex, s'.patch ifLoc (s'.baseOffset + s'.opIndex))

/-- `emit_br`. -/
def emitBr (depthChange : Nat) (rt : Option ValType) (s : BitcodeState) :
    Except VmError (BitcodeBranch × BitcodeState) := do
  let data ← encodeDepthChange depthChange rt
  let s' ← s.append (.br data 0)
  pure (.instr s.opIndex, s')

/-- `emit_br_if`. -/
def emitBrIf (depthChange : Nat) (rt : Option ValType) (s : BitcodeState) :
    Except VmError (BitcodeBranch × BitcodeState) := do
  let data ← encodeDepthChange depthChange rt
  let s' ← s.append (.brIf data 0)
  pure (.instr s.opIndex, s')

/-- The slots between a `br_table` and the next instruction. -/
def tableSlots (tableSize : Nat) : Nat := tableSize * 8 / 24 + 2

/-- Turns `n` slots from `slot` on into table data. -/
def reserve (fb : List Opcode) (slot : Nat) : Nat → List Opcode
  | 0 => fb
  | n + 1 => reserve (fb.set slot (.tableData ⟨0, 0⟩ ⟨0, 0⟩ ⟨0, 0⟩)) (slot + 1) n

/-- The constructor of `br_table_parser`. -/
def emitBrTable (tableSize : Nat) (s : BitcodeState) :
    Except VmError (BrTableParser × BitcodeState) := do
  let s ← s.append (.brTable tableSize)
  -- `&fb[op_index]`, checked by `operator[]`
  vmAssert (s.opIndex < s.fb.length) vectorOob
  let brTab := s.opIndex
  let opIndex := s.opIndex + tableSlots tableSize
  -- the canary
  vmAssert (opIndex < s.fb.length) vectorOob
  let fb := (reserve s.fb brTab (tableSlots tableSize)).set opIndex .error
  pure (⟨brTab, 0⟩, { s with fb := fb, opIndex := opIndex })

/-- `br_table_parser::emit_case`. -/
def emitCase (handler : BrTableParser) (depthChange : Nat) (rt : Option ValType)
    (s : BitcodeState) : Except VmError (BitcodeBranch × BrTableParser × BitcodeState) := do
  let slot := handler.brTab + handler.i / 3
  let k : Fin 3 := ⟨handler.i % 3, Nat.mod_lt _ (by decide)⟩
  let data ← encodeDepthChange depthChange rt
  let fb := s.fb.modify slot (Opcode.updateElem k fun e => { e with stackPop := data })
  pure (.entry slot k, { handler with i := handler.i + 1 }, { s with fb := fb })

/-- `br_table_parser::emit_default`. -/
def emitDefault (handler : BrTableParser) (depthChange : Nat) (rt : Option ValType)
    (s : BitcodeState) : Except VmError (BitcodeBranch × BitcodeState) := do
  let (branch, _, s) ← emitCase handler depthChange rt s
  vmAssert (s.fb[s.opIndex]? == some .error) (.wasmParse "overwrote br_table data")
  pure (branch, s)

/-- `fix_branch`. -/
def fixBranch (branch : BitcodeBranch) (target : Nat) (s : BitcodeState) : BitcodeState :=
  s.patch branch (s.baseOffset + target)

/-- `emit_prologue`. -/
def emitPrologue (mod : Module) (idx : Nat) (s : BitcodeState) : Except VmError BitcodeState := do
  let body ← vectorAt mod.code idx
  pure { s with opIndex := 0, fb := List.replicate body.size .raw }

/-- `emit_epilogue`. `locals_count` is a `uint32_t`. -/
def emitEpilogue (ft : FuncType) (locals : List LocalEntry) (s : BitcodeState) : BitcodeState :=
  let fb := resizeBuffer s.fb (s.opIndex + 1)
  let localsCount := locals.foldl (fun count entry => add32 count entry.count) 0
  let op := Opcode.return_ (add32 localsCount ft.paramTypes.length) ft.returnCount s.stackUsage
  { s with fb := fb.set (fb.length - 1) op }

/-- `finalize`: the new `size` and `stack_size` of the body. -/
def finalize (s : BitcodeState) : Nat × Nat × BitcodeState :=
  let size := s.opIndex + 1
  let fb := resizeBuffer s.fb size
  (size, s.stackUsage,
    { s with opIndex := size, fb := fb, done := s.done ++ fb, baseOffset := s.baseOffset + size })

/-- `set_stack_usage`. -/
def setStackUsage (usage : Nat) (s : BitcodeState) : Except VmError BitcodeState := do
  vmAssert (usage + 16 ≤ 0xFFFFFFFF) (.wasmParse "Sorry, not implemented.")
  pure { s with stackUsage := usage + 16 }

end BitcodeState

/-- `bitcode_writer` as a code writer. Labels are slot numbers of the current function. -/
def bitcodeWriter : CodeWriter where
  State := BitcodeState
  Label := Nat
  Branch := BitcodeBranch
  Handler := BrTableParser
  getDepthForType := bitcodeDepthForType
  start := fun _ sourceBytes => pure { fb := List.replicate sourceBytes .raw }
  emitPrologue := fun mod _ _ idx s => s.emitPrologue mod idx
  emit := BitcodeState.emit
  emitEnd := fun s => pure (s.opIndex, s)
  emitReturn := BitcodeState.emitBr
  emitLoop := fun s => pure (s.opIndex, s)
  emitIf := BitcodeState.emitIf
  emitElse := BitcodeState.emitElse
  emitBr := BitcodeState.emitBr
  emitBrIf := BitcodeState.emitBrIf
  emitBrTable := BitcodeState.emitBrTable
  emitCase := BitcodeState.emitCase
  emitDefault := BitcodeState.emitDefault
  fixBranch := fun branch target s => pure (s.fixBranch branch target)
  setStackUsage := BitcodeState.setStackUsage
  emitEpilogue := fun ft locals _ s => pure (s.emitEpilogue ft locals)
  finalize := fun _ s => pure s.finalize

end EosVm
