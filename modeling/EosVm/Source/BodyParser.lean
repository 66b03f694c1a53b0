import EosVm.Source.Writer

/-!
# Function bodies

`parse_function_body_code` of `parser.hpp`: the control stack, the operand stack and the calls on
the code writer, for every instruction. `pc_stack` is a list whose head is `pc_stack.back()`, so
the target of `label` is its element number `label`.
-/

set_option autoImplicit false

namespace EosVm

/-- `local_types_t`. -/
structure LocalTypes where
  ft : FuncType
  locals : List LocalEntry
  boundaries : List Nat
  deriving DecidableEq, Repr

namespace LocalTypes

/-- The loop of the constructor. -/
def makeBoundaries : Nat → List LocalEntry → Except VmError (List Nat)
  | count, [] => pure [count]
  | count, entry :: rest => do
    vmAssert (count ≤ 0xFFFFFFFF - entry.count) (.wasmParse "too many locals")
    let boundaries ← makeBoundaries (count + entry.count) rest
    pure (count :: boundaries)

/-- The constructor. -/
def make (ft : FuncType) (locals : List LocalEntry) : Except VmError LocalTypes := do
  let boundaries ← makeBoundaries ft.paramTypes.length locals
  pure ⟨ft, locals, boundaries⟩

/-- `operator[]`. `std::upper_bound` on the sorted boundaries finds the first one above the
index. -/
def get (lt : LocalTypes) (localIdx : Nat) : Except VmError ValType := do
  vmAssert (localIdx < lt.boundaries.getLastD 0) (.wasmParse "undefined local")
  match lt.boundaries.findIdx (localIdx < ·) with
  | 0 => vectorAt lt.ft.paramTypes localIdx
  | pos + 1 => do
    let entry ← vectorAt lt.locals pos
    pure entry.type

/-- `locals_count`. -/
def localsCount (lt : LocalTypes) : Nat := lt.boundaries.getLastD 0 - lt.ft.paramTypes.length

end LocalTypes

/-- The `relocations` variant of `pc_element_t`: the target of a backward jump, or the branches to
be patched at the end of the block. -/
inductive Relocations (W : CodeWriter) where
  | label (target : W.Label)
  | branches (pending : List W.Branch)

/-- `pc_element_t`. -/
structure PcElement (W : CodeWriter) where
  operandDepth : Nat
  expectedResult : Option ValType
  labelResult : Option ValType
  isIf : Bool
  relocations : Relocations W

/-- The mutable state of `parse_function_body_code`. `nestedCount` is the `_count` of
`_nested_checker`. -/
structure BodyState (W : CodeWriter) where
  opStack : Tracker
  pcStack : List (PcElement W)
  writer : W.State
  nestedCount : Nat

/-- What `parse_function_body_code` reads of the parser. -/
structure BodyEnv where
  options : Options
  mod : Module
  typeAliases : List Nat
  datacount : Option Nat
  ft : FuncType
  localTypes : LocalTypes

variable {W : CodeWriter}

namespace BodyState

def push (env : BodyEnv) (s : BodyState W) (type : OperandType) :
    Except VmError (BodyState W) := do
  let opStack ← s.opStack.push env.options W.getDepthForType type
  pure { s with opStack := opStack }

def pop (env : BodyEnv) (s : BodyState W) (expected : Option ValType) :
    Except VmError (BodyState W) := do
  let opStack ← s.opStack.pop env.options W.getDepthForType expected
  pure { s with opStack := opStack }

def popAny (env : BodyEnv) (s : BodyState W) : Except VmError (OperandType × BodyState W) := do
  let (type, opStack) ← s.opStack.popAny env.options W.getDepthForType
  pure (type, { s with opStack := opStack })

def top (env : BodyEnv) (s : BodyState W) (expected : ValType) :
    Except VmError (BodyState W) := do
  let opStack ← s.opStack.top env.options W.getDepthForType expected
  pure { s with opStack := opStack }

def popScope (env : BodyEnv) (s : BodyState W) (expectedResult : Option ValType) :
    Except VmError (BodyState W) := do
  let opStack ← s.opStack.popScope env.options W.getDepthForType expectedResult
  pure { s with opStack := opStack }

def pushScope (s : BodyState W) : BodyState W := { s with opStack := s.opStack.pushScope }

def startUnreachable (s : BodyState W) : BodyState W :=
  { s with opStack := s.opStack.startUnreachable W.getDepthForType }

/-- Pops a list of types, first element first. -/
def popAll (env : BodyEnv) (s : BodyState W) : List ValType → Except VmError (BodyState W)
  | [] => pure s
  | type :: types => do
    let s ← s.pop env (some type)
    s.popAll env types

/-- Pops the operands of an instruction, last one first. -/
def popOperands (env : BodyEnv) (s : BodyState W) (types : List ValType) :
    Except VmError (BodyState W) := s.popAll env types.reverse

/-- `code_writer.emit_*` for a call without result. -/
def emit (s : BodyState W) (op : EmitOp) : Except VmError (BodyState W) := do
  let writer ← W.emit op s.writer
  pure { s with writer := writer }

/-- `handle_branch_target`. -/
def handleBranchTarget (s : BodyState W) (label : Nat) (address : W.Branch) :
    Except VmError (BodyState W) :=
  match s.pcStack[label]? with
  | none => .error (.wasmParse "invalid label")
  | some target =>
    match target.relocations with
    | .label l => do
      let writer ← W.fixBranch address l s.writer
      pure { s with writer := writer }
    | .branches pending =>
      let target := { target with relocations := .branches (pending ++ [address]) }
      pure { s with pcStack := s.pcStack.set label target }

/-- `compute_depth_change`. -/
def computeDepthChange (env : BodyEnv) (s : BodyState W) (label : Nat) :
    Except VmError (Nat × Option ValType × BodyState W) :=
  match s.pcStack[label]? with
  | none => .error (.wasmParse "invalid label")
  | some target => do
    let result := sub32 s.opStack.operandDepth target.operandDepth
    match target.labelResult with
    | none => pure (result, none, s)
    | some type =>
      let s ← s.top env type
      pure (result, some type, s)

/-- Patches the pending branches to `endPos`. -/
def fixBranches (endPos : W.Label) : List W.Branch → W.State → Except VmError W.State
  | [], writer => pure writer
  | branch :: rest, writer => do
    let writer ← W.fixBranch branch endPos writer
    fixBranches endPos rest writer

/-- Patches the branches to the end of a block; backward jumps are already complete. -/
def fixRelocations (endPos : W.Label) : Relocations W → W.State → Except VmError W.State
  | .label _, writer => pure writer
  | .branches pending, writer => fixBranches endPos pending writer

/-- `exit_scope`. -/
def exitScope (env : BodyEnv) (s : BodyState W) : Except VmError (BodyState W) :=
  match s.pcStack with
  | [] => .error (.wasmParse "unexpected end instruction")
  | back :: rest => do
    vmAssert (!back.isIf || back.expectedResult == none) (.wasmParse "wrong type")
    let (endPos, writer) ← W.emitEnd s.writer
    let writer ← fixRelocations endPos back.relocations writer
    let s ← popScope env { s with writer := writer } back.expectedResult
    pure { s with pcStack := rest }

/-- `check_in_bounds`. -/
def checkInBounds (env : BodyEnv) (s : BodyState W) : Except VmError Unit :=
  vmAssert (!env.options.allowCodeAfterFunctionEnd || !s.pcStack.isEmpty)
    (.wasmParse "code after function end")

/-- `_nested_checker.on_control`. -/
def onControl (env : BodyEnv) (s : BodyState W) : Except VmError (BodyState W) :=
  match env.options.eosioMaxNestedStructures with
  | none => pure s
  | some limit => do
    let count := (s.nestedCount + 1) % 2 ^ limit.width
    vmAssert (count ≤ limit.value) (.wasmParse "Nested depth exceeded")
    pure { s with nestedCount := count }

/-- `_nested_checker.on_end`. -/
def onEnd (env : BodyEnv) (s : BodyState W) : BodyState W :=
  match env.options.eosioMaxNestedStructures with
  | none => s
  | some limit =>
    if s.nestedCount = 0 then { s with nestedCount := (s.nestedCount + 1) % 2 ^ limit.width }
    else { s with nestedCount := s.nestedCount - 1 }

end BodyState

/-- The block type of `block`, `loop` and `if`; `none` is `types::pseudo`. -/
def blockType (o : Options) (expectedResult : UInt8) (msg : String) :
    Except VmError (Option ValType) :=
  if expectedResult = pseudoByte then pure none
  else if o.allowZeroBlocktype && expectedResult == 0 then pure none
  else
    match ValType.ofByte expectedResult with
    | none => .error (.wasmParse msg)
    | some type => do
      vmAssert (o.allowsType type) (.wasmParse msg)
      pure (some type)

namespace BodyState

/-- The common part of `return`, `br` and `br_if`: the depth change, the branch and its target. -/
def branchTo (env : BodyEnv)
    (emitBranch : Nat → Option ValType → W.State → Except VmError (W.Branch × W.State))
    (label : Nat) (s : BodyState W) : Except VmError (BodyState W) := do
  let (depthChange, rt, s) ← s.computeDepthChange env label
  let (branch, writer) ← emitBranch depthChange rt s.writer
  handleBranchTarget { s with writer := writer } label branch

/-- The label loop of `br_table`. `resultType` is `none` before the first label. -/
def emitCases (env : BodyEnv) : List Nat → W.Handler → Option (Option ValType) → BodyState W →
    Except VmError (W.Handler × Option (Option ValType) × BodyState W)
  | [], handler, resultType, s => pure (handler, resultType, s)
  | label :: labels, handler, resultType, s => do
    let (depthChange, rt, s) ← s.computeDepthChange env label
    let (branch, handler, writer) ← W.emitCase handler depthChange rt s.writer
    let s ← handleBranchTarget { s with writer := writer } label branch
    vmAssert (resultType == none || resultType == some rt)
      (.wasmParse "br_table labels must have the same type")
    emitCases env labels handler (some rt) s

/-- `case opcodes::br_table`. -/
def brTable (env : BodyEnv) (labels : List Nat) (default : Nat) (s : BodyState W) :
    Except VmError (BodyState W) := do
  vmAssert (labels.length ≤ env.options.maxBrTableElements)
    (.wasmParse "Too many labels in br_table")
  let s ← s.pop env (some .i32)
  let (handler, writer) ← W.emitBrTable labels.length s.writer
  let (handler, resultType, s) ← emitCases env labels handler none { s with writer := writer }
  let (depthChange, rt, s) ← s.computeDepthChange env default
  let (branch, writer) ← W.emitDefault handler depthChange rt s.writer
  let s ← handleBranchTarget { s with writer := writer } default branch
  vmAssert (resultType == none || resultType == some rt)
    (.wasmParse "br_table labels must have the same type")
  pure s.startUnreachable

/-- Pushes the result of a call. -/
def pushResult (env : BodyEnv) (s : BodyState W) (ft : FuncType) :
    Except VmError (BodyState W) :=
  match ft.result with
  | none => pure s
  | some type => s.push env (.val type)

/-- `pc_stack.push_back` for a new block. -/
def enter (s : BodyState W) (expectedResult labelResult : Option ValType) (isIf : Bool)
    (relocations : Relocations W) : BodyState W :=
  let element := ⟨s.opStack.operandDepth, expectedResult, labelResult, isIf, relocations⟩
  { s with pcStack := element :: s.pcStack }

/-- `case opcodes::else_`. -/
def elseScope (env : BodyEnv) (s : BodyState W) : Except VmError (BodyState W) :=
  match s.pcStack with
  | [] => .error .outOfRange
  | oldIndex :: rest => do
    vmAssert oldIndex.isIf (.wasmParse "else outside if")
    -- an element with `is_if` always holds the branch of its `if`
    match oldIndex.relocations with
    | .branches (ifBranch :: pending) =>
      let s ← s.pop env oldIndex.expectedResult
      let s ← s.popScope env none
      let s := s.pushScope
      let (branch, writer) ← W.emitElse ifBranch s.writer
      let oldIndex := { oldIndex with isIf := false, relocations := .branches (branch :: pending) }
      pure { s with writer := writer, pcStack := oldIndex :: rest }
    | _ => .error .outOfRange

/-- The checks on the immediates of a memory instruction. -/
def checkMemarg (env : BodyEnv) (what : String) (maxAlign alignment offset : Nat) :
    Except VmError Unit := do
  vmAssert (alignment ≤ maxAlign) (.wasmParse "alignment cannot be greater than size.")
  vmAssert (offset ≤ env.options.maxMemoryOffset) (.wasmParse (what ++ " offset too large."))

/-- `EOS_VM_ASSERT(_mod->memories.size() > 0, ..)`. -/
def requireMemory (env : BodyEnv) (msg : String) : Except VmError Unit :=
  vmAssert (!env.mod.memories.isEmpty) (.wasmParse msg)

/-- `EOS_VM_ASSERT(_mod->tables.size() > 0, ..)`. -/
def requireTable (env : BodyEnv) (msg : String) : Except VmError Unit :=
  vmAssert (!env.mod.tables.isEmpty) (.wasmParse msg)

def requireBulkMemory (env : BodyEnv) : Except VmError Unit :=
  vmAssert env.options.enableBulkMemory (.wasmParse "Bulk memory not enabled")

/-- The checks of `memory.init` and `data.drop` on their segment index. -/
def requireData (env : BodyEnv) (x : Nat) (msg : String) : Except VmError Unit :=
  match env.datacount with
  | none => .error (.wasmParse msg)
  | some datacount => vmAssert (x < datacount) (.wasmParse "data segment does not exist")

end BodyState

open BodyState in
/-- One round of the instruction loop, after decoding. `atEnd` is `code.offset() == bounds`. -/
def processInstr (env : BodyEnv) (atEnd : Bool) (instr : Instr) (s : BodyState W) :
    Except VmError (BodyState W) :=
  match instr with
  | .unreachable => do
    s.checkInBounds env
    let s ← s.emit (.plain instr)
    pure s.startUnreachable
  | .nop => s.emit (.plain instr)
  | .end_ => do
    s.checkInBounds env
    let s ← s.exitScope env
    vmAssert (env.options.allowCodeAfterFunctionEnd || !s.pcStack.isEmpty || atEnd)
      (.wasmParse "function too short")
    pure (s.onEnd env)
  | .return_ => do
    s.checkInBounds env
    let s ← s.branchTo env W.emitReturn (s.pcStack.length - 1)
    pure s.startUnreachable
  | .block blocktype => do
    let expectedResult ← blockType env.options blocktype "Invalid type code in block"
    let s := s.enter expectedResult expectedResult false (.branches [])
    let s ← s.emit (.plain instr)
    s.pushScope.onControl env
  | .loop blocktype => do
    let expectedResult ← blockType env.options blocktype "Invalid type code in loop"
    let (pos, writer) ← W.emitLoop s.writer
    let s := enter { s with writer := writer } expectedResult none false (.label pos)
    s.pushScope.onControl env
  | .if_ blocktype => do
    s.checkInBounds env
    let expectedResult ← blockType env.options blocktype "Invalid type code in if"
    let (branch, writer) ← W.emitIf s.writer
    let s ← pop env { s with writer := writer } (some .i32)
    let s := s.enter expectedResult expectedResult true (.branches [branch])
    s.pushScope.onControl env
  | .else_ => do
    s.checkInBounds env
    let s ← s.elseScope env
    s.onControl env
  | .br label => do
    s.checkInBounds env
    let s ← s.branchTo env W.emitBr label
    pure s.startUnreachable
  | .brIf label => do
    s.checkInBounds env
    let s ← s.pop env (some .i32)
    s.branchTo env W.emitBrIf label
  | .brTable labels default => do
    s.checkInBounds env
    s.brTable env labels default
  | .call funcnum => do
    s.checkInBounds env
    let ft ← env.mod.getFunctionType funcnum
    let s ← s.popOperands env ft.paramTypes
    vmAssert (ft.returnCount ≤ 1) (.wasmParse "unsupported")
    let s ← s.pushResult env ft
    s.emit (.call ft funcnum)
  | .callIndirect functypeidx => do
    s.checkInBounds env
    let ft ← vectorAt env.mod.types functypeidx
    requireTable env "call_indirect requires a table"
    let s ← s.pop env (some .i32)
    let s ← s.popOperands env ft.paramTypes
    vmAssert (ft.returnCount ≤ 1) (.wasmParse "unsupported")
    let s ← s.pushResult env ft
    let typeAlias ← vectorAt env.typeAliases functypeidx
    s.emit (.callIndirect ft typeAlias)
  | .drop => do
    s.checkInBounds env
    let (type, s) ← s.popAny env
    s.emit (.drop type)
  | .select => do
    s.checkInBounds env
    let s ← s.pop env (some .i32)
    let (t0, s) ← s.popAny env
    let (t1, s) ← s.popAny env
    vmAssert (t0 == t1 || t0 == .any || t1 == .any) (.wasmParse "incorrect types for select")
    let s ← s.push env (if t0 ≠ .any then t0 else t1)
    s.emit (.select t0)
  | .getLocal localIdx => do
    let type ← env.localTypes.get localIdx
    let s ← s.push env (.val type)
    s.emit (.getLocal localIdx type)
  | .setLocal localIdx => do
    s.checkInBounds env
    let type ← env.localTypes.get localIdx
    let s ← s.pop env (some type)
    s.emit (.setLocal localIdx type)
  | .teeLocal localIdx => do
    s.checkInBounds env
    let type ← env.localTypes.get localIdx
    let s ← s.top env type
    s.emit (.teeLocal localIdx type)
  | .getGlobal globalIdx => do
    let gl ← vectorAt env.mod.globals globalIdx
    let s ← s.push env (.val gl.type.contentType)
    s.emit (.plain instr)
  | .setGlobal globalIdx => do
    s.checkInBounds env
    let gl ← vectorAt env.mod.globals globalIdx
    vmAssert gl.type.mutability (.wasmParse "cannot set const global")
    let s ← s.pop env (some gl.type.contentType)
    s.emit (.plain instr)
  | .load op alignment offset => do
    s.checkInBounds env
    requireMemory env "load requires memory"
    checkMemarg env "load" op.maxAlignType.1 alignment offset
    let s ← s.pop env (some .i32)
    let s ← s.push env (.val op.maxAlignType.2)
    s.emit (.plain instr)
  | .store op alignment offset => do
    s.checkInBounds env
    requireMemory env "store requires memory"
    checkMemarg env "store" op.maxAlignType.1 alignment offset
    let s ← s.pop env (some op.maxAlignType.2)
    let s ← s.pop env (some .i32)
    s.emit (.plain instr)
  | .currentMemory => do
    requireMemory env "memory.size requires memory"
    let s ← s.push env (.val .i32)
    s.emit (.plain instr)
  | .growMemory => do
    s.checkInBounds env
    requireMemory env "memory.grow requires memory"
    let s ← s.pop env (some .i32)
    let s ← s.push env (.val .i32)
    s.emit (.plain instr)
  | .i32Const _ => do
    let s ← s.emit (.plain instr)
    s.push env (.val .i32)
  | .i64Const _ => do
    let s ← s.emit (.plain instr)
    s.push env (.val .i64)
  | .f32Const _ => do
    let s ← s.emit (.plain instr)
    s.push env (.val .f32)
  | .f64Const _ => do
    let s ← s.emit (.plain instr)
    s.push env (.val .f64)
  | .numeric op => do
    s.checkInBounds env
    vmAssert (!op.isSignExt || env.options.enableSignExt)
      (.wasmParse "Sign-extension operators not enabled")
    let s ← s.emit (.plain instr)
    let s ← s.popOperands env op.signature.1
    s.push env (.val op.signature.2)
  | .loadLane op alignment offset lane => do
    s.checkInBounds env
    requireMemory env "load requires memory"
    checkMemarg env "load" op.maxAlign alignment offset
    vmAssert (lane.toNat < 2 ^ (4 - op.maxAlign)) (.wasmParse "laneidx out of bounds")
    let s ← s.pop env (some .v128)
    let s ← s.pop env (some .i32)
    let s ← s.push env (.val .v128)
    s.emit (.plain instr)
  | .storeLane op alignment offset lane => do
    s.checkInBounds env
    requireMemory env "load requires memory"
    checkMemarg env "load" op.maxAlign alignment offset
    vmAssert (lane.toNat < 2 ^ (4 - op.maxAlign)) (.wasmParse "laneidx out of bounds")
    let s ← s.pop env (some .v128)
    let s ← s.pop env (some .i32)
    s.emit (.plain instr)
  | .v128Const _ => do
    s.checkInBounds env
    let s ← s.emit (.plain instr)
    s.push env (.val .v128)
  | .i8x16Shuffle lanes => do
    s.checkInBounds env
    vmAssert (lanes.all (· < 32)) (.wasmParse "shuffle laneidx must be less than 32")
    let s ← s.emit (.plain instr)
    let s ← s.pop env (some .v128)
    let s ← s.pop env (some .v128)
    s.push env (.val .v128)
  | .extractLane op lane => do
    s.checkInBounds env
    vmAssert (lane.toNat < op.laneType.2) (.wasmParse "laneidx must be smaller than dim(shape)")
    let s ← s.pop env (some .v128)
    let s ← s.push env (.val op.laneType.1)
    s.emit (.plain instr)
  | .replaceLane op lane => do
    s.checkInBounds env
    vmAssert (lane.toNat < op.laneType.2) (.wasmParse "laneidx must be smaller than dim(shape)")
    let s ← s.pop env (some op.laneType.1)
    let s ← s.pop env (some .v128)
    let s ← s.push env (.val .v128)
    s.emit (.plain instr)
  | .vecNumeric op => do
    s.checkInBounds env
    let s ← s.popOperands env op.signature.1
    let s ← s.push env (.val op.signature.2)
    s.emit (.plain instr)
  | .truncSat op => do
    s.checkInBounds env
    vmAssert env.options.enableNontrappingFptoint
      (.wasmParse "Non-trapping float-to-int conversions not enabled")
    let s ← s.pop env (some op.signature.1)
    let s ← s.push env (.val op.signature.2)
    s.emit (.plain instr)
  | .memoryInit x => do
    s.checkInBounds env
    requireBulkMemory env
    requireMemory env "memory.init requires memory"
    let s ← s.popAll env [.i32, .i32, .i32]
    requireData env x "memory.init requires datacount section"
    s.emit (.plain instr)
  | .dataDrop x => do
    s.checkInBounds env
    requireBulkMemory env
    requireData env x "data.drop requires datacount section"
    s.emit (.plain instr)
  | .memoryCopy => do
    s.checkInBounds env
    requireBulkMemory env
    requireMemory env "memory.copy requires memory"
    let s ← s.popAll env [.i32, .i32, .i32]
    s.emit (.plain instr)
  | .memoryFill => do
    s.checkInBounds env
    requireBulkMemory env
    requireMemory env "memory.fill requires memory"
    let s ← s.popAll env [.i32, .i32, .i32]
    s.emit (.plain instr)
  | .tableInit _ => do
    s.checkInBounds env
    requireBulkMemory env
    requireTable env "table.init requires table"
    let s ← s.popAll env [.i32, .i32, .i32]
    s.emit (.plain instr)
  | .elemDrop x => do
    s.checkInBounds env
    requireBulkMemory env
    vmAssert (x < env.mod.elements.length) (.wasmParse "elem segment does not exist")
    s.emit (.plain instr)
  | .tableCopy => do
    s.checkInBounds env
    requireBulkMemory env
    requireTable env "table.copy requires table"
    let s ← s.popAll env [.i32, .i32, .i32]
    s.emit (.plain instr)

/-- The loop `while (code.offset() < bounds)`. Every round consumes at least the opcode byte, so
`fuel` larger than the bytes left is never used up. -/
def parseBodyLoop (env : BodyEnv) (bounds : Nat) :
    Nat → WasmCodePtr → BodyState W → Except VmError (BodyState W)
  | fuel, code, s =>
    if code.offset < bounds then
      match fuel with
      | 0 => .error (.wasmParse "Illegal instruction")
      | fuel + 1 => do
        vmAssert (s.pcStack.length ≤ env.options.maxNestedStructures)
          (.wasmParse "nested structures validation failure")
        let (instr, code) ← decodeInstr env.options code
        let s ← processInstr env (code.offset == bounds) instr s
        parseBodyLoop env bounds fuel code s
    else pure s

/-- The state at the start of `parse_function_body_code`. -/
def BodyState.init (env : BodyEnv) (checker : LocalBytesChecker) (writer : W.State)
    (nestedCount : Nat) : BodyState W where
  opStack := Tracker.init env.options checker
  pcStack := [⟨0, env.ft.result, env.ft.result, false, .branches []⟩]
  writer := writer
  nestedCount := nestedCount

/-- `code_writer.set_stack_usage(op_stack.stack_usage._max)` when `max_stack_bytes` is defined. -/
def BodyState.recordStackUsage (o : Options) (s : BodyState W) : Except VmError (BodyState W) :=
  match o.maxStackBytes with
  | none => pure s
  | some _ => do
    let writer ← W.setStackUsage s.opStack.stackUsageMax s.writer
    pure { s with writer := writer }

/-- `parse_function_body_code`; the second component is the new `_mod->maximum_stack`. -/
def parseFunctionBodyCode (env : BodyEnv) (code : WasmCodePtr) (bounds : Nat)
    (checker : LocalBytesChecker) (writer : W.State) (nestedCount : Nat) :
    Except VmError (BodyState W × Nat) := do
  let s ← parseBodyLoop env bounds (bounds + 1) code
    (BodyState.init env checker writer nestedCount)
  let s ← s.recordStackUsage env.options
  vmAssert s.pcStack.isEmpty (.wasmParse "function body too long")
  pure (s, max env.mod.maximumStack (s.opStack.maximumOperandDepth + env.localTypes.localsCount))

end EosVm
