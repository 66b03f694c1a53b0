import Mathlib.Algebra.Order.Ring.Int

/-!
# Module data model

`types.hpp`, `options.hpp` and `exceptions.hpp`. Value types are an enumeration instead of the raw
bytes `0x7f .. 0x7b`; the parser functions that read a byte decode it with `ValType.ofByte`.
`pseudo`, the block type without a result, is `none` in an `Option ValType`. Machine integers are
`Nat` with the wrap-around written out where the source can reach it, and `BitVec` for the operand
bits of constants.
-/

set_option autoImplicit false

namespace EosVm

/-- `enum types`, restricted to the value types. -/
inductive ValType where
  | i32 | i64 | f32 | f64 | v128
  deriving DecidableEq, Repr

/-- The byte that encodes a value type. -/
def ValType.ofByte (b : UInt8) : Option ValType :=
  if b = 0x7f then some .i32
  else if b = 0x7e then some .i64
  else if b = 0x7d then some .f32
  else if b = 0x7c then some .f64
  else if b = 0x7b then some .v128
  else none

/-- `types::anyfunc`, also `types::funcref`. -/
def anyfunc : UInt8 := 0x70

/-- `types::pseudo`. -/
def pseudoByte : UInt8 := 0x40

def uint32Max : Nat := 0xFFFFFFFF

/-- The exceptions the parser and the execution contexts throw, with their message.
`outOfRange` is `std::out_of_range` of `std::vector::at`. -/
inductive VmError where
  | wasmInterpreter (msg : String)
  | wasmParse (msg : String)
  | wasmMemory (msg : String)
  | wasmBadAlloc (msg : String)
  | wasmVectorOob (msg : String)
  | wasmUnsupportedImport (msg : String)
  | wasmInvalidElement (msg : String)
  | guardedPtr (msg : String)
  | outOfRange
  deriving DecidableEq, Repr

/-- `EOS_VM_ASSERT`. -/
def vmAssert (cond : Bool) (e : VmError) : Except VmError Unit :=
  if cond then .ok () else .error e

@[simp] theorem vmAssert_eq_ok {cond : Bool} {e : VmError} {u : Unit} :
    vmAssert cond e = .ok u ↔ cond = true := by
  cases cond <;> simp [vmAssert]

/-- `std::vector::at`. -/
def vectorAt {α : Type} (xs : List α) (i : Nat) : Except VmError α :=
  match xs[i]? with
  | some x => .ok x
  | none => .error .outOfRange

@[simp] theorem vectorAt_eq_ok {α : Type} {xs : List α} {i : Nat} {x : α} :
    vectorAt xs i = .ok x ↔ xs[i]? = some x := by
  unfold vectorAt
  cases xs[i]? <;> simp

/-- `func_type`. `return_type` is only written when `return_count > 0`; the vector's `resize`
value-initialises it otherwise, which is `none` here. -/
structure FuncType where
  form : UInt8
  paramTypes : List ValType
  returnCount : Nat
  returnType : Option ValType
  deriving DecidableEq, Repr

/-- `operator==(const func_type&, const func_type&)`. -/
def FuncType.equal (lhs rhs : FuncType) : Bool :=
  lhs.form == rhs.form &&
  lhs.paramTypes.length == rhs.paramTypes.length &&
  lhs.paramTypes == rhs.paramTypes &&
  lhs.returnCount == rhs.returnCount &&
  (lhs.returnCount != 0 || lhs.returnType == rhs.returnType)

/-- The declared result in the form `parse_function_body_code` uses it:
`ft.return_count ? ft.return_type : types::pseudo`. -/
def FuncType.result (ft : FuncType) : Option ValType :=
  if ft.returnCount ≠ 0 then ft.returnType else none

/-- `init_expr`: the opcode and the union member it selects. -/
inductive InitExpr where
  | i32Const (v : BitVec 32)
  | i64Const (v : BitVec 64)
  | f32Const (v : BitVec 32)
  | f64Const (v : BitVec 64)
  | v128Const (v : BitVec 128)
  deriving DecidableEq, Repr

/-- `static_cast<uint32_t>(value.i32)`: the low four bytes of the union. -/
def InitExpr.valueI32 : InitExpr → Nat
  | .i32Const v => v.toNat
  | .i64Const v => v.toNat % 2 ^ 32
  | .f32Const v => v.toNat
  | .f64Const v => v.toNat % 2 ^ 32
  | .v128Const v => v.toNat % 2 ^ 32

structure ResizableLimits where
  flags : Bool
  initial : Nat
  maximum : Nat := 0
  deriving DecidableEq, Repr

structure GlobalType where
  contentType : ValType
  mutability : Bool
  deriving DecidableEq, Repr

structure GlobalVariable where
  type : GlobalType
  init : InitExpr
  deriving DecidableEq, Repr

structure TableType where
  elementType : UInt8
  limits : ResizableLimits
  deriving DecidableEq, Repr

/-- `table_entry` without `code_ptr`, which the machine code writer derives from `index`. -/
structure TableEntry where
  type : Nat
  index : Nat
  deriving DecidableEq, Repr

/-- The entry of a null reference, and of a table slot after `memset(.., 0xff, ..)`. -/
def TableEntry.null : TableEntry := ⟨uint32Max, uint32Max⟩

structure MemoryType where
  limits : ResizableLimits
  deriving DecidableEq, Repr

/-- `external_kind`; `import_entry` only ever holds functions after parsing. -/
inductive ExternalKind where
  | function | table | memory | global
  deriving DecidableEq, Repr

structure ImportEntry where
  moduleStr : List UInt8
  fieldStr : List UInt8
  kind : ExternalKind
  funcT : Nat
  deriving DecidableEq, Repr

structure ExportEntry where
  fieldStr : List UInt8
  kind : ExternalKind
  index : Nat
  deriving DecidableEq, Repr

inductive ElemMode where
  | active | passive | declarative
  deriving DecidableEq, Repr

/-- `elem_segment`. `offset` is only written for active segments. -/
structure ElemSegment where
  index : Nat
  offset : Option InitExpr
  mode : ElemMode
  elems : List TableEntry
  deriving DecidableEq, Repr

structure LocalEntry where
  count : Nat
  type : ValType
  deriving DecidableEq, Repr

structure DataSegment where
  index : Nat
  offset : InitExpr
  passive : Bool
  data : List UInt8
  deriving DecidableEq, Repr

structure NameAssoc where
  idx : Nat
  name : List UInt8
  deriving DecidableEq, Repr

structure IndirectNameAssoc where
  idx : Nat
  namemap : List NameAssoc
  deriving DecidableEq, Repr

structure NameSection where
  moduleName : Option (List UInt8) := none
  functionNames : Option (List NameAssoc) := none
  localNames : Option (List IndirectNameAssoc) := none
  deriving DecidableEq, Repr

/-- `function_body`. `code` and `jit_code_offset` belong to the code writer and are kept there. -/
structure FunctionBody where
  size : Nat
  locals : List LocalEntry
  stackSize : Nat := 0
  deriving DecidableEq, Repr

/-- `module`, without its allocator. -/
structure Module where
  start : Nat := uint32Max
  types : List FuncType := []
  imports : List ImportEntry := []
  functions : List Nat := []
  tables : List TableType := []
  memories : List MemoryType := []
  globals : List GlobalVariable := []
  exports : List ExportEntry := []
  elements : List ElemSegment := []
  code : List FunctionBody := []
  data : List DataSegment := []
  names : Option NameSection := none
  maximumStack : Nat := 0
  stackLimitIsBytes : Bool := false
  eosioFp : Bool := false
  deriving DecidableEq, Repr

namespace Module

def getImportedFunctionsSize (m : Module) : Nat :=
  (m.imports.filter (·.kind == .function)).length

def getFunctionsTotal (m : Module) : Nat :=
  m.getImportedFunctionsSize + m.functions.length

/-- `get_function_type`. The unchecked `types[imports[index].type.func_t]` of an import is modelled
by the checked access; in an accepted module it never fails (`ModuleInvariant.importTypes`). -/
def getFunctionType (m : Module) (index : Nat) : Except VmError FuncType :=
  if index < m.getImportedFunctionsSize then do
    let entry ← vectorAt m.imports index
    vectorAt m.types entry.funcT
  else do
    let type ← vectorAt m.functions (index - m.getImportedFunctionsSize)
    vectorAt m.types type

/-- `get_function_stack_size`. -/
def getFunctionStackSize (m : Module) (index : Nat) : Except VmError Nat :=
  if !m.stackLimitIsBytes then .ok 1
  else if index < m.getImportedFunctionsSize then .ok 0
  else do
    let body ← vectorAt m.code (index - m.getImportedFunctionsSize)
    pure body.stackSize

end Module

end EosVm
