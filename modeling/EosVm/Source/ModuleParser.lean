import EosVm.Source.BodyParser
import Mathlib.Data.List.Sort

/-!
# Module parser

`binary_parser` of `parser.hpp` outside function bodies: the section loop of `parse_module`, every
section parser with its checks, type normalisation and the second pass `write_code_out` over the
function bodies. The parser's members are the fields of `ParserState`.
-/

set_option autoImplicit false

namespace EosVm

/-- The members of `binary_parser` that survive from one section to the next. `written` is the
code writer after the code section. -/
structure ParserState (W : CodeWriter) where
  mod : Module := {}
  functionBodies : List (WasmCodePtr × LocalBytesChecker) := []
  mutableGlobalBytes : Nat := 0
  nestedCount : Nat := 0
  datacount : Option Nat := none
  typeAliases : List Nat := []
  fastFunctions : List Nat := []
  written : Option W.State := none

/-- The loop over the elements of a vector of known size. `σ` is what the element parser updates
besides the pointer; it also receives the index. -/
def parseItems {σ α : Type}
    (itemParse : Nat → WasmCodePtr → σ → Except VmError (α × WasmCodePtr × σ)) :
    Nat → Nat → WasmCodePtr → σ → Except VmError (List α × WasmCodePtr × σ)
  | 0, _, code, s => pure ([], code, s)
  | n + 1, idx, code, s => do
    let (item, code, s) ← itemParse idx code s
    let (items, code, s) ← parseItems itemParse n (idx + 1) code s
    pure (item :: items, code, s)

/-- An element parser that changes nothing but the pointer. -/
def stateless {α : Type} (itemParse : WasmCodePtr → Except VmError (α × WasmCodePtr)) :
    Nat → WasmCodePtr → Unit → Except VmError (α × WasmCodePtr × Unit) :=
  fun _ code _ => do
    let (item, code) ← itemParse code
    pure (item, code, ())

/-- The loop over the elements of a vector for a stateless element parser. -/
def parseVector {α : Type} (itemParse : WasmCodePtr → Except VmError (α × WasmCodePtr))
    (count : Nat) (code : WasmCodePtr) : Except VmError (List α × WasmCodePtr) := do
  let (items, code, _) ← parseItems (stateless itemParse) count 0 code ()
  pure (items, code)

/-- `parse_section_impl`. -/
def parseSectionImpl {σ α : Type} (maxElements : Nat)
    (elemParse : Nat → WasmCodePtr → σ → Except VmError (α × WasmCodePtr × σ))
    (code : WasmCodePtr) (s : σ) : Except VmError (List α × WasmCodePtr × σ) := do
  let (count, code) ← parseVaruint32 code
  vmAssert (count ≤ maxElements) (.wasmParse "number of section elements exceeded limit")
  parseItems elemParse count 0 code s

/-- A value type byte that must be admitted by the options. -/
def parseValType (o : Options) (msg : String) (code : WasmCodePtr) :
    Except VmError (ValType × WasmCodePtr) := do
  let (b, code) ← code.next
  match ValType.ofByte b with
  | none => .error (.wasmParse msg)
  | some type => do
    vmAssert (o.allowsType type) (.wasmParse msg)
    pure (type, code)

/-- `EOS_VM_ASSERT((*code++) == opcodes::end, ..)`. -/
def parseEndOp (code : WasmCodePtr) : Except VmError WasmCodePtr := do
  let (b, code) ← code.next
  vmAssert (b == 0x0B) (.wasmParse "no end op found")
  pure code

/-- `parse_init_expr`. -/
def parseInitExpr (o : Options) (type : ValType) (code : WasmCodePtr) :
    Except VmError (InitExpr × WasmCodePtr) := do
  let (opcode, code) ← code.next
  let (ie, code) ← (do
    if opcode = 0x41 then
      let (v, code) ← parseVarint32 code
      vmAssert (type == .i32) (.wasmParse "expected i32 initializer")
      pure (InitExpr.i32Const v, code)
    else if opcode = 0x42 then
      let (v, code) ← parseVarint64 code
      vmAssert (type == .i64) (.wasmParse "expected i64 initializer")
      pure (InitExpr.i64Const v, code)
    else if opcode = 0x43 then
      let (v, code) ← parseRaw 4 code
      vmAssert (type == .f32) (.wasmParse "expected f32 initializer")
      pure (InitExpr.f32Const (BitVec.ofNat 32 v), code)
    else if opcode = 0x44 then
      let (v, code) ← parseRaw 8 code
      vmAssert (type == .f64) (.wasmParse "expected f64 initializer")
      pure (InitExpr.f64Const (BitVec.ofNat 64 v), code)
    else if opcode = 0xFD then
      vmAssert o.enableSimd (.wasmParse "SIMD not enabled")
      let (sub, code) ← parseVaruint32 code
      vmAssert (sub == 12) (.wasmParse "Expected v128.const")
      let (v, code) ← parseRaw 16 code
      vmAssert (type == .v128) (.wasmParse "expected v128 initializer")
      pure (InitExpr.v128Const (BitVec.ofNat 128 v), code)
    else
      .error (.wasmParse ("initializer expression can only acception i32.const, i64.const, " ++
        "f32.const, f64.const and v128.const")))
  let code ← parseEndOp code
  pure (ie, code)

/-- `parse_func_type`. -/
def parseFuncType (o : Options) (code : WasmCodePtr) :
    Except VmError (FuncType × WasmCodePtr) := do
  let (form, code) ← code.next
  vmAssert (form == 0x60) (.wasmParse "invalid function type")
  let (count, code) ← parseVaruint32 code
  let (paramTypes, code) ← parseVector (parseValType o "invalid function param type") count code
  let (returnCount, code) ← code.next
  vmAssert (returnCount < 2) (.wasmParse "invalid function return count")
  if returnCount > 0 then
    let (returnType, code) ← parseValType o "invalid function return type" code
    pure (⟨form, paramTypes, returnCount.toNat, some returnType⟩, code)
  else
    pure (⟨form, paramTypes, returnCount.toNat, none⟩, code)

/-- `parse_import_entry`. -/
def parseImportEntry (o : Options) (mod : Module) (code : WasmCodePtr) :
    Except VmError (ImportEntry × WasmCodePtr) := do
  let (moduleStr, code) ← parseUtf8String o.maxSymbolBytes code
  let (fieldStr, code) ← parseUtf8String o.maxSymbolBytes code
  let (kind, code) ← code.next
  let (type, code) ← parseVaruint32 code
  if kind = 0 then
    vmAssert (type < mod.types.length) (.wasmParse "Invalid function type")
    pure (⟨moduleStr, fieldStr, .function, type⟩, code)
  else
    .error (.wasmUnsupportedImport "only function imports are supported")

/-- `parse_flags`. -/
def parseFlags (o : Options) (code : WasmCodePtr) : Except VmError (Bool × WasmCodePtr) :=
  if o.allowU32LimitsFlags then do
    let (flags, code) ← parseVaruint32 code
    pure (flags % 2 == 1, code)
  else do
    let b ← code.deref
    vmAssert (b == 0 || b == 1) (.wasmParse "invalid flags")
    let (b, code) ← code.next
    pure (b == 1, code)

/-- `parse_table_type`. -/
def parseTableType (o : Options) (code : WasmCodePtr) :
    Except VmError (TableType × WasmCodePtr) := do
  let (elementType, code) ← code.next
  vmAssert (elementType == anyfunc) (.wasmParse "table must have type anyfunc")
  let (flags, code) ← parseFlags o code
  let (initial, code) ← parseVaruint32 code
  let (maximum, code) ← (do
    if flags then
      let (maximum, code) ← parseVaruint32 code
      vmAssert (initial ≤ maximum) (.wasmParse "table max size less than min size")
      pure (maximum, code)
    else pure (0, code))
  vmAssert (initial ≤ o.maxTableElements) (.wasmParse "table size exceeds limit")
  pure (⟨elementType, ⟨flags, initial, maximum⟩⟩, code)

/-- `parse_memory_type`. -/
def parseMemoryType (o : Options) (code : WasmCodePtr) :
    Except VmError (MemoryType × WasmCodePtr) := do
  let (flags, code) ← parseFlags o code
  let (initial, code) ← parseVaruint32 code
  vmAssert (initial ≤ o.maxPages) (.wasmParse "initial memory out of range")
  vmAssert (initial ≤ 65536) (.wasmParse "initial memory out of range")
  if flags then
    let (maximum, code) ← parseVaruint32 code
    vmAssert (maximum ≥ initial) (.wasmParse "maximum must be at least minimum")
    vmAssert (maximum ≤ 65536) (.wasmParse "maximum memory out of range")
    pure (⟨⟨flags, initial, maximum⟩⟩, code)
  else
    pure (⟨⟨flags, initial, 0⟩⟩, code)

/-- `max_mutable_globals_checker::on_mutable_global`, called for mutable globals only. -/
def onMutableGlobal (o : Options) (counter : Nat) (mutability : Bool) (type : ValType) :
    Except VmError Nat :=
  match mutability, o.maxMutableGlobalBytes with
  | false, _ | _, none => pure counter
  | true, some limit => do
    let counter := (counter + getSizeForType type) % 2 ^ limit.width
    vmAssert (counter ≤ limit.value && counter ≥ getSizeForType type)
      (.wasmParse "mutable globals exceeded limit")
    pure counter

/-- `parse_global_variable`. -/
def parseGlobalVariable (o : Options) (_idx : Nat) (code : WasmCodePtr) (counter : Nat) :
    Except VmError (GlobalVariable × WasmCodePtr × Nat) := do
  let (contentType, code) ← parseValType o "invalid global content type" code
  let (mutability, code) ← parseVaruint1 code
  let counter ← onMutableGlobal o counter (mutability == 1) contentType
  let (init, code) ← parseInitExpr o contentType code
  pure (⟨⟨contentType, mutability == 1⟩, init⟩, code, counter)

/-- `parse_export_entry`. -/
def parseExportEntry (o : Options) (mod : Module) (code : WasmCodePtr) :
    Except VmError (ExportEntry × WasmCodePtr) := do
  let (fieldStr, code) ← parseUtf8String o.maxSymbolBytes code
  let (kind, code) ← code.next
  let (index, code) ← parseVaruint32 code
  if kind = 0 then
    vmAssert (index < mod.getFunctionsTotal) (.wasmParse "function export out of range")
    pure (⟨fieldStr, .function, index⟩, code)
  else if kind = 1 then
    vmAssert (index < mod.tables.length) (.wasmParse "table export out of range")
    pure (⟨fieldStr, .table, index⟩, code)
  else if kind = 2 then
    vmAssert (index < mod.memories.length) (.wasmParse "memory export out of range")
    pure (⟨fieldStr, .memory, index⟩, code)
  else if kind = 3 then
    vmAssert (index < mod.globals.length) (.wasmParse "global export out of range")
    let gl ← vectorAt mod.globals index
    vmAssert (!o.forbidExportMutableGlobals || !gl.type.mutability)
      (.wasmParse "cannot export mutable globals")
    pure (⟨fieldStr, .global, index⟩, code)
  else
    .error (.wasmParse "Unknown export kind")

/-- `std::adjacent_find` with equality. -/
def hasAdjacentEqual : List (List UInt8) → Bool
  | a :: b :: rest => a == b || hasAdjacentEqual (b :: rest)
  | _ => false

/-- `validate_exports`. -/
def validateExports (mod : Module) : Except VmError Unit :=
  let exportNames := (mod.exports.map (·.fieldStr)).insertionSort (· ≤ ·)
  vmAssert (!hasAdjacentEqual exportNames) (.wasmParse "duplicate export name")

/-- The alias loop of `normalize_types`: the first type equal to type `i`, which is `i` itself when
no earlier one is. -/
def typeAliases (types : List FuncType) : List Nat :=
  types.mapIdx fun i type => (types.take i).findIdx (·.equal type)

/-- `normalize_types`: the new `type_aliases` and `fast_functions`. -/
def normalizeTypes (mod : Module) : Except VmError (List Nat × List Nat) := do
  let aliases := typeAliases mod.types
  let imported ← (mod.imports.take mod.getImportedFunctionsSize).mapM
    fun entry => vectorAt aliases entry.funcT
  let defined ← mod.functions.mapM fun type => vectorAt aliases type
  pure (aliases, imported ++ defined)

/-- `parse_elem_expr`. -/
def parseElemExpr (mod : Module) (fastFunctions : List Nat) (code : WasmCodePtr) :
    Except VmError (TableEntry × WasmCodePtr) := do
  let (opcode, code) ← code.next
  let (entry, code) ← (do
    if opcode = 0xD0 then
      let b ← code.deref
      vmAssert (b == anyfunc) (.wasmParse "Unknown type for elem")
      let (_, code) ← code.next
      pure (TableEntry.null, code)
    else if opcode = 0xD2 then
      let (index, code) ← parseVaruint32 code
      vmAssert (index < mod.getFunctionsTotal) (.wasmParse "elem for undefined function")
      let type ← vectorAt fastFunctions index
      pure (⟨type, index⟩, code)
    else
      .error (.wasmParse "elem expression can only acception ref.null and ref.func"))
  let code ← parseEndOp code
  pure (entry, code)

/-- The index form of an element entry. -/
def parseElemIndex (mod : Module) (fastFunctions : List Nat) (code : WasmCodePtr) :
    Except VmError (TableEntry × WasmCodePtr) := do
  let (index, code) ← parseVaruint32 code
  let type ← vectorAt fastFunctions index
  vmAssert (index < mod.getFunctionsTotal) (.wasmParse "elem for undefined function")
  pure (⟨type, index⟩, code)

/-- The element kind or reference type that some values of `flags` announce. -/
def parseElemKind (flags : Nat) (code : WasmCodePtr) : Except VmError WasmCodePtr :=
  if flags = 1 ∨ flags = 2 ∨ flags = 3 then do
    let (elemkind, code) ← code.next
    vmAssert (elemkind == 0) (.wasmParse "elemkind must be funcref")
    pure code
  else if flags = 5 ∨ flags = 6 ∨ flags = 7 then do
    let (reftype, code) ← code.next
    vmAssert (reftype == anyfunc) (.wasmParse "elem type must be funcref")
    pure code
  else pure code

/-- The table index that some values of `flags` announce. -/
def parseElemTable (flags : Nat) (code : WasmCodePtr) : Except VmError (Nat × WasmCodePtr) :=
  if flags = 2 ∨ flags = 6 then parseVaruint32 code else pure (0, code)

/-- Offset and mode of a segment; only active segments have an offset and need their table. -/
def parseElemMode (o : Options) (mod : Module) (flags index : Nat) (code : WasmCodePtr) :
    Except VmError ((Option InitExpr × ElemMode) × WasmCodePtr) :=
  if flags % 2 = 0 then do
    let (offset, code) ← parseInitExpr o .i32 code
    vmAssert (index < mod.tables.length) (.wasmParse "wrong table in elem")
    pure ((some offset, .active), code)
  else if flags / 2 % 2 = 1 then pure ((none, .declarative), code)
  else pure ((none, .passive), code)

/-- The check on the element type of the table of an active segment. -/
def checkElemType (mod : Module) (mode : ElemMode) (index : Nat) : Except VmError Unit :=
  match mode with
  | .active => do
    let tt ← vectorAt mod.tables index
    vmAssert (tt.elementType == anyfunc) (.wasmParse "elem type does not match table type")
  | _ => pure ()

/-- The entries, as expressions or as plain indices. -/
def parseElemEntries (mod : Module) (fastFunctions : List Nat) (flags size : Nat)
    (code : WasmCodePtr) : Except VmError (List TableEntry × WasmCodePtr) :=
  if flags / 4 % 2 = 1 then parseVector (parseElemExpr mod fastFunctions) size code
  else parseVector (parseElemIndex mod fastFunctions) size code

/-- `parse_elem_segment`. The two checks at its start read `es.index`, which the section's
`resize` has value-initialised to 0, and not `flags`. -/
def parseElemSegment (o : Options) (mod : Module) (fastFunctions : List Nat)
    (code : WasmCodePtr) : Except VmError (ElemSegment × WasmCodePtr) := do
  let initialIndex := 0
  let (flags, code) ← parseVaruint32 code
  vmAssert (initialIndex == 0 || o.enableBulkMemory) (.wasmParse "Bulk memory not enabled")
  vmAssert (initialIndex ≤ 7) (.wasmParse "Illegal flags for elem")
  let (index, code) ← parseElemTable flags code
  let ((offset, mode), code) ← parseElemMode o mod flags index code
  let code ← parseElemKind flags code
  checkElemType mod mode index
  let (size, code) ← parseVaruint32 code
  vmAssert (size ≤ o.maxElementSegmentElements) (.wasmParse "elem segment too large")
  let (elems, code) ← parseElemEntries mod fastFunctions flags size code
  pure (⟨index, offset, mode, elems⟩, code)

/-- The header of `parse_data_segment`: index, passive flag and offset. -/
def parseDataHeader (o : Options) (mod : Module) (code : WasmCodePtr) :
    Except VmError ((Nat × Bool × InitExpr) × WasmCodePtr) := do
  let (index, code) ← parseVaruint32 code
  if index = 0 ∨ o.enableBulkMemory = false then
    let (offset, code) ← parseInitExpr o .i32 code
    vmAssert (!mod.memories.isEmpty) (.wasmParse "data requires memory")
    pure ((index, false, offset), code)
  else if index = 1 then
    pure ((index, true, .i32Const 0), code)
  else if index = 2 then
    let (index, code) ← parseVaruint32 code
    let (offset, code) ← parseInitExpr o .i32 code
    vmAssert (index < mod.memories.length) (.wasmParse "Data uses nonexistent memory")
    pure ((index, false, offset), code)
  else
    .error (.wasmParse "Unexpected flag for data")

/-- `parse_data_segment`. -/
def parseDataSegment (o : Options) (mod : Module) (code : WasmCodePtr) :
    Except VmError (DataSegment × WasmCodePtr) := do
  let ((index, passive, offset), code) ← parseDataHeader o mod code
  let (len, code) ← parseVaruint32 code
  vmAssert (len ≤ o.maxDataSegmentBytes) (.wasmParse "data segment too large.")
  vmAssert (offset.valueI32 + len ≤ o.maxLinearMemoryInit)
    (.wasmParse "out-of-bounds data section")
  let inner ← code.shrinkBounds len
  let data := inner.slice len
  let inner ← inner.advance len
  pure (⟨index, offset, passive, data⟩, inner.restore code)

/-- One local entry of `parse_function_body`. -/
def parseLocalEntry (o : Options) (_idx : Nat) (code : WasmCodePtr)
    (checker : LocalBytesChecker) :
    Except VmError (LocalEntry × WasmCodePtr × LocalBytesChecker) := do
  let (count, code) ← parseVaruint32 code
  let (b, code) ← code.next
  let b := if o.allowInvalidEmptyLocalSet && count == 0 then 0x7f else b
  match ValType.ofByte b with
  | none => .error (.wasmParse "invalid local type")
  | some type => do
    vmAssert (o.allowsType type) (.wasmParse "invalid local type")
    let checker ← checker.onLocal o type count
    pure (⟨count, type⟩, code, checker)

/-- `parse_function_body`: the first pass over a body, which only finds its extent. -/
def parseFunctionBody (o : Options) (mod : Module) (idx : Nat) (code : WasmCodePtr)
    (bodies : List (WasmCodePtr × LocalBytesChecker)) :
    Except VmError (FunctionBody × WasmCodePtr × List (WasmCodePtr × LocalBytesChecker)) := do
  let (size, code) ← parseVaruint32 code
  vmAssert (size ≤ o.maxCodeBytes) (.wasmParse "Function body too large")
  let before := code.offset
  let (localCnt, code) ← parseVaruint32 code
  vmAssert (localCnt ≤ o.maxLocalSets) (.wasmParse "Number of local sets exceeds limit")
  let type ← vectorAt mod.functions idx
  let ft ← vectorAt mod.types type
  let checker ← LocalBytesChecker.init o ft
  let (locals, code, checker) ← parseItems (parseLocalEntry o) localCnt 0 code checker
  let size := sub32 size (code.offset - before)
  let inner ← code.shrinkBounds size
  let bodies := bodies ++ [(WasmCodePtr.make code.buf code.raw size, checker)]
  let inner ← inner.advance (sub32 size 1)
  let last ← inner.deref
  vmAssert (o.allowCodeAfterFunctionEnd || last == 0x0B)
    (.wasmParse "failed parsing function body, expected 'end'")
  let (_, inner) ← inner.next
  pure ({ size := size, locals := locals }, inner.restore code, bodies)

section Sections

variable {W : CodeWriter}

/-- One round of `write_code_out`. -/
def writeFunction (o : Options) (st : ParserState W) (writer : W.State) (i : Nat)
    (body : WasmCodePtr × LocalBytesChecker) : Except VmError (ParserState W × W.State) := do
  let fb ← vectorAt st.mod.code i
  let type ← vectorAt st.mod.functions i
  let ft ← vectorAt st.mod.types type
  let localTypes ← LocalTypes.make ft fb.locals
  let writer ← W.emitPrologue st.mod ft fb.locals i writer
  let env : BodyEnv := ⟨o, st.mod, st.typeAliases, st.datacount, ft, localTypes⟩
  let (s, maximumStack) ← parseFunctionBodyCode env body.1 fb.size body.2 writer st.nestedCount
  let writer ← W.emitEpilogue ft fb.locals i s.writer
  let (size, stackSize, writer) ← W.finalize fb writer
  let fb := { fb with size := size, stackSize := stackSize }
  let mod := { st.mod with code := st.mod.code.set i fb, maximumStack := maximumStack }
  pure ({ st with mod := mod, nestedCount := s.nestedCount }, writer)

/-- The loop of `write_code_out`. -/
def writeFunctions (o : Options) : Nat → List (WasmCodePtr × LocalBytesChecker) →
    ParserState W → W.State → Except VmError (ParserState W × W.State)
  | _, [], st, writer => pure (st, writer)
  | i, body :: bodies, st, writer => do
    let (st, writer) ← writeFunction o st writer i body
    writeFunctions o (i + 1) bodies st writer

/-- `write_code_out`. -/
def writeCodeOut (o : Options) (code : WasmCodePtr) (st : ParserState W) :
    Except VmError (ParserState W) := do
  let writer ← W.start st.mod (code.bounds - code.offset)
  let (st, writer) ← writeFunctions o 0 st.functionBodies st writer
  pure { st with written := some writer }

def parseNameAssoc (code : WasmCodePtr) : Except VmError (NameAssoc × WasmCodePtr) := do
  let (idx, code) ← parseVaruint32 code
  let (name, code) ← parseUtf8String uint32Max code
  pure (⟨idx, name⟩, code)

/-- `parse_name_map`. -/
def parseNameMap (code : WasmCodePtr) : Except VmError (List NameAssoc × WasmCodePtr) := do
  let (size, code) ← parseVaruint32 code
  parseVector parseNameAssoc size code

def parseIndirectNameAssoc (code : WasmCodePtr) :
    Except VmError (IndirectNameAssoc × WasmCodePtr) := do
  let (idx, code) ← parseVaruint32 code
  let (namemap, code) ← parseNameMap code
  pure (⟨idx, namemap⟩, code)

/-- One subsection of the name section: parsed when the next byte is its id, otherwise skipped. -/
def parseSubsection {α : Type} (id : UInt8)
    (parse : WasmCodePtr → Except VmError (α × WasmCodePtr)) (code : WasmCodePtr) :
    Except VmError (Option α × WasmCodePtr) := do
  let b ← code.deref
  if b = id then
    let (_, code) ← code.next
    let (len, code) ← parseVaruint32 code
    let inner ← code.shrinkBounds len
    let (result, inner) ← parse inner
    let code ← inner.consumed code
    pure (some result, code)
  else pure (none, code)

/-- `parse_name_section`. -/
def parseNameSection (code : WasmCodePtr) : Except VmError (NameSection × WasmCodePtr) := do
  if code.bounds == code.offset then return ({}, code)
  let (moduleName, code) ← parseSubsection 0 (parseUtf8String uint32Max) code
  let names : NameSection := { moduleName := moduleName }
  if code.bounds == code.offset then return (names, code)
  let (functionNames, code) ← parseSubsection 1 parseNameMap code
  let names := { names with functionNames := functionNames }
  if code.bounds == code.offset then return (names, code)
  let (localNames, code) ← parseSubsection 2
    (fun code => do
      let (size, code) ← parseVaruint32 code
      parseVector parseIndirectNameAssoc size code) code
  let names := { names with localNames := localNames }
  if code.bounds == code.offset then return (names, code)
  .error (.wasmParse "Invalid subsection Id")

/-- `parse_custom`. -/
def parseCustom (o : Options) (code : WasmCodePtr) (st : ParserState W) :
    Except VmError (ParserState W × WasmCodePtr) := do
  let (sectionName, code) ← parseUtf8String uint32Max code
  if o.parseCustomSectionName && sectionName == [0x6E, 0x61, 0x6D, 0x65] then
    let (names, code) ← parseNameSection code
    pure ({ st with mod := { st.mod with names := some names } }, code)
  else
    let code ← code.advance (code.bounds - code.offset)
    pure (st, code)

/-- `section_id`. -/
inductive SectionId where
  | custom | type | import_ | function | table | memory | global | export_ | start | element | code
  | data | dataCount
  deriving DecidableEq, Repr

/-- `id < order.size()` and the section it stands for. -/
def SectionId.ofByte (b : UInt8) : Option SectionId :=
  if b = 0 then some .custom
  else if b = 1 then some .type
  else if b = 2 then some .import_
  else if b = 3 then some .function
  else if b = 4 then some .table
  else if b = 5 then some .memory
  else if b = 6 then some .global
  else if b = 7 then some .export_
  else if b = 8 then some .start
  else if b = 9 then some .element
  else if b = 10 then some .code
  else if b = 11 then some .data
  else if b = 12 then some .dataCount
  else none

/-- `make_section_order`. -/
def SectionId.order : SectionId → Nat
  | .custom => 0
  | .type => 1
  | .import_ => 2
  | .function => 3
  | .table => 4
  | .memory => 5
  | .global => 6
  | .export_ => 7
  | .start => 8
  | .element => 9
  | .dataCount => 10
  | .code => 11
  | .data => 12

/-- `parse_section` on a section whose elements only depend on the module parsed so far. -/
def parsePlainSection {α : Type} (maxElements : Nat)
    (elemParse : WasmCodePtr → Except VmError (α × WasmCodePtr)) (code : WasmCodePtr) :
    Except VmError (List α × WasmCodePtr) := do
  let (elems, code, _) ← parseSectionImpl maxElements (stateless elemParse) code ()
  pure (elems, code)

/-- `parse_section<function_section>` with `normalize_types`. -/
def parseFunctionSection (o : Options) (code : WasmCodePtr) (st : ParserState W) :
    Except VmError (ParserState W × WasmCodePtr) := do
  let (functions, code) ← parsePlainSection o.maxFunctionSectionElements parseVaruint32 code
  let mod := { st.mod with functions := functions }
  let (aliases, fastFunctions) ← normalizeTypes mod
  pure ({ st with mod := mod, typeAliases := aliases, fastFunctions := fastFunctions }, code)

/-- `parse_section<start_section>`. -/
def parseStartSection (code : WasmCodePtr) (st : ParserState W) :
    Except VmError (ParserState W × WasmCodePtr) := do
  let (start, code) ← parseVaruint32 code
  let ft ← st.mod.getFunctionType start
  vmAssert (ft.returnCount == 0 && ft.paramTypes.isEmpty) (.wasmParse "wrong type for start")
  pure ({ st with mod := { st.mod with start := start } }, code)

/-- `parse_section<code_section>`. -/
def parseCodeSection (o : Options) (code : WasmCodePtr) (st : ParserState W) :
    Except VmError (ParserState W × WasmCodePtr) := do
  let (elems, code, bodies) ← parseSectionImpl o.maxFunctionSectionElements
    (parseFunctionBody o st.mod) code st.functionBodies
  vmAssert (elems.length == st.mod.functions.length)
    (.wasmParse "code section must have the same size as the function section")
  let st := { st with mod := { st.mod with code := elems }, functionBodies := bodies }
  let st ← writeCodeOut o code st
  pure (st, code)

/-- `parse_section<data_section>`. -/
def parseDataSection (o : Options) (code : WasmCodePtr) (st : ParserState W) :
    Except VmError (ParserState W × WasmCodePtr) := do
  let (data, code) ← parsePlainSection o.maxDataSectionElements (parseDataSegment o st.mod) code
  vmAssert (st.datacount == none || st.datacount == some data.length)
    (.wasmParse "data count does not match data")
  pure ({ st with mod := { st.mod with data := data } }, code)

/-- The section switch of `parse_module`. -/
def parseSection (o : Options) (id : SectionId) (code : WasmCodePtr) (st : ParserState W) :
    Except VmError (ParserState W × WasmCodePtr) :=
  match id with
  | .custom => parseCustom o code st
  | .type => do
    let (types, code) ← parsePlainSection o.maxTypeSectionElements (parseFuncType o) code
    pure ({ st with mod := { st.mod with types := types } }, code)
  | .import_ => do
    let (imports, code) ← parsePlainSection o.maxImportSectionElements
      (parseImportEntry o st.mod) code
    pure ({ st with mod := { st.mod with imports := imports } }, code)
  | .function => parseFunctionSection o code st
  | .table => do
    let (tables, code) ← parsePlainSection 1 (parseTableType o) code
    pure ({ st with mod := { st.mod with tables := tables } }, code)
  | .memory => do
    let (memories, code) ← parsePlainSection 1 (parseMemoryType o) code
    pure ({ st with mod := { st.mod with memories := memories } }, code)
  | .global => do
    let (globals, code, counter) ← parseSectionImpl o.maxGlobalSectionElements
      (parseGlobalVariable o) code st.mutableGlobalBytes
    pure ({ st with mod := { st.mod with globals := globals }, mutableGlobalBytes := counter },
      code)
  | .export_ => do
    let (exports, code) ← parsePlainSection o.maxExportSectionElements
      (parseExportEntry o st.mod) code
    let mod := { st.mod with exports := exports }
    validateExports mod
    pure ({ st with mod := mod }, code)
  | .start => parseStartSection code st
  | .element => do
    let (elements, code) ← parsePlainSection o.maxElementSectionElements
      (parseElemSegment o st.mod st.fastFunctions) code
    pure ({ st with mod := { st.mod with elements := elements } }, code)
  | .code => parseCodeSection o code st
  | .data => parseDataSection o code st
  | .dataCount => do
    let (datacount, code) ← parseVaruint32 code
    pure ({ st with datacount := some datacount }, code)

/-- The header of one section: its id and the bounds of its payload. -/
def parseSectionHeader (code : WasmCodePtr) : Except VmError (SectionId × Nat × WasmCodePtr) := do
  let (id, code) ← code.next
  let (len, code) ← parseVaruint32 code
  match SectionId.ofByte id with
  | none => .error (.wasmParse "invalid section id")
  | some id => pure (id, len, code)

/-- The section loop of `parse_module`. Every round consumes the section's header, so `fuel` larger
than the bytes left is never used up. -/
def parseSections (o : Options) (sz : Nat) :
    Nat → WasmCodePtr → Nat → ParserState W → Except VmError (ParserState W)
  | fuel, code, highestSectionId, st =>
    if code.offset = sz then pure st
    else
      match fuel with
      | 0 => .error (.guardedPtr "overbounding pointer")
      | fuel + 1 => do
        let (id, len, code) ← parseSectionHeader code
        vmAssert (id == .custom || id.order > highestSectionId)
          (.wasmParse "section out of order")
        let inner ← code.shrinkBounds len
        let (st, inner) ← parseSection o id inner st
        let code ← inner.consumed code
        parseSections o sz fuel code (max highestSectionId id.order) st

/-- `parse_module(wasm_code_ptr&, size_t, module&, ..)`, from a fresh parser and module. -/
def parseModulePtr (W : CodeWriter) (o : Options) (code : WasmCodePtr) (sz : Nat) :
    Except VmError (ParserState W) := do
  let (magic, code) ← parseRaw 4 code
  vmAssert (magic == 0x6D736100) (.wasmParse "magic number did not match")
  let (version, code) ← parseRaw 4 code
  vmAssert (version == 1) (.wasmParse "version number did not match")
  let st ← parseSections o sz (sz + 1) code 0 { mod := { eosioFp := o.eosioFp } }
  vmAssert (st.mod.code.length == st.mod.functions.length)
    (.wasmParse "code section must have the same size as the function section")
  pure { st with mod := { st.mod with stackLimitIsBytes := o.maxStackBytes.isSome } }

/-- `parse_module(wasm_code&, module&, ..)`. -/
def parseModule (W : CodeWriter) (o : Options) (bytes : List UInt8) :
    Except VmError (ParserState W) :=
  parseModulePtr W o (WasmCodePtr.make bytes 0 bytes.length) bytes.length

end Sections

end EosVm
