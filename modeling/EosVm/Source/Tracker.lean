import EosVm.Source.Options

/-!
# Operand stack type tracker

`operand_stack_type_tracker` of `parser.hpp` with the byte counters `max_func_local_bytes_checker`,
`max_func_local_bytes_stack_checker` and `max_stack_usage_calculator` it drives. The vector `state`
is a list whose head is `state.back()`. `depthFor` is `Writer::get_depth_for_type`.
-/

set_option autoImplicit false

namespace EosVm

/-- A type that can be pushed: a value type, or `any_type` from unreachable code. -/
inductive OperandType where
  | any
  | val (t : ValType)
  deriving DecidableEq, Repr

/-- An element of `state`. -/
inductive StackEntry where
  | unreachableTag
  | scopeTag
  | operand (t : OperandType)
  deriving DecidableEq, Repr

/-- `get_size_for_type` on a pushed type; `any_type` takes the default branch. -/
def OperandType.size : OperandType → Nat
  | .any => 0
  | .val t => getSizeForType t

/-- Subtraction on `uint32_t`. -/
@[irreducible] def sub32 (a b : Nat) : Nat := (a + 2 ^ 32 - b) % 2 ^ 32

/-- Addition on `uint32_t`. -/
@[irreducible] def add32 (a b : Nat) : Nat := (a + b) % 2 ^ 32

/-- `max_func_local_bytes_stack_checker`: `_count` counts in the option's unsigned type. -/
structure LocalBytesChecker where
  count : Nat
  unreachableDepth : Nat := 0
  deriving DecidableEq, Repr

namespace LocalBytesChecker

/-- The shared step of `on_type` and `on_local`. -/
def add (o : Options) (c : LocalBytesChecker) (size : Nat) : Except VmError LocalBytesChecker :=
  match o.maxFuncLocalBytes with
  | none => .ok c
  | some limit => do
    let count := (c.count + size) % 2 ^ limit.width
    vmAssert (count ≤ limit.value && count ≥ size) (.wasmParse "local variable limit exceeded")
    pure { c with count := count }

/-- The constructor: parameters are counted when the flag is set. -/
def init (o : Options) (ft : FuncType) : Except VmError LocalBytesChecker :=
  if o.maxFuncLocalBytesFlags.params then
    ft.paramTypes.foldlM (fun c t => c.add o (getSizeForType t)) ⟨0, 0⟩
  else .ok ⟨0, 0⟩

/-- `on_local`. -/
def onLocal (o : Options) (c : LocalBytesChecker) (type : ValType) (count : Nat) :
    Except VmError LocalBytesChecker :=
  if o.maxFuncLocalBytesFlags.locals then c.add o (getSizeForType type * count) else .ok c

/-- Operands are counted only outside unreachable code and with the `stack` flag. -/
def countsStack (o : Options) (c : LocalBytesChecker) : Bool :=
  c.unreachableDepth == 0 && o.maxFuncLocalBytesFlags.stack

/-- `push_stack`. -/
def pushStack (o : Options) (c : LocalBytesChecker) (type : OperandType) :
    Except VmError LocalBytesChecker :=
  if c.countsStack o then c.add o type.size else .ok c

/-- `pop_stack`. -/
def popStack (o : Options) (c : LocalBytesChecker) (type : OperandType) : LocalBytesChecker :=
  match o.maxFuncLocalBytes with
  | none => c
  | some limit =>
    if c.countsStack o then
      { c with count := (c.count + 2 ^ limit.width - type.size) % 2 ^ limit.width }
    else c

def pushUnreachable (c : LocalBytesChecker) : LocalBytesChecker :=
  { c with unreachableDepth := add32 c.unreachableDepth 1 }

def popUnreachable (c : LocalBytesChecker) : LocalBytesChecker :=
  { c with unreachableDepth := sub32 c.unreachableDepth 1 }

end LocalBytesChecker

structure Tracker where
  state : List StackEntry := [.scopeTag]
  operandDepth : Nat := 0
  maximumOperandDepth : Nat := 0
  localBytesChecker : LocalBytesChecker
  stackUsageMax : Nat := 0
  deriving DecidableEq, Repr

namespace Tracker

/-- `stack_usage.update(local_bytes_checker)`. -/
def updateUsage (o : Options) (tr : Tracker) : Tracker :=
  match o.maxStackBytes with
  | none => tr
  | some _ => { tr with stackUsageMax := max tr.localBytesChecker.count tr.stackUsageMax }

/-- The constructor. -/
def init (o : Options) (checker : LocalBytesChecker) : Tracker :=
  updateUsage o { localBytesChecker := checker }

def push (o : Options) (depthFor : OperandType → Nat) (tr : Tracker) (type : OperandType) :
    Except VmError Tracker := do
  vmAssert (tr.operandDepth < uint32Max) (.wasmParse "integer overflow in operand depth")
  let depth := add32 tr.operandDepth (depthFor type)
  let checker ← tr.localBytesChecker.pushStack o type
  pure (updateUsage o
    { tr with
      operandDepth := depth
      maximumOperandDepth := max depth tr.maximumOperandDepth
      state := .operand type :: tr.state
      localBytesChecker := checker })

/-- Removes the top entry, which is popped as `type`. -/
def remove (o : Options) (depthFor : OperandType → Nat) (tr : Tracker) (type : OperandType) :
    Tracker :=
  { tr with
    localBytesChecker := tr.localBytesChecker.popStack o type
    operandDepth := sub32 tr.operandDepth (depthFor type)
    state := tr.state.tail }

/-- `pop(expected)`; `none` is `types::pseudo`. -/
def pop (o : Options) (depthFor : OperandType → Nat) (tr : Tracker) (expected : Option ValType) :
    Except VmError Tracker :=
  match expected with
  | none => .ok tr
  | some t =>
    match tr.state with
    | [] => .error (.wasmParse "unexpected pop")
    | .unreachableTag :: _ => .ok tr
    | e :: _ => do
      vmAssert (e == .operand (.val t) || e == .operand .any) (.wasmParse "wrong type")
      pure (tr.remove o depthFor (.val t))

/-- `pop()`. -/
def popAny (o : Options) (depthFor : OperandType → Nat) (tr : Tracker) :
    Except VmError (OperandType × Tracker) :=
  match tr.state with
  | [] => .error (.wasmParse "unexpected pop")
  | .scopeTag :: _ => .error (.wasmParse "unexpected pop")
  | .unreachableTag :: _ => .ok (.any, tr)
  | .operand t :: _ => .ok (t, tr.remove o depthFor t)

/-- `top(expected)`: constrains the top of the stack if it was `any_type` or `unreachable_tag`. -/
def top (o : Options) (depthFor : OperandType → Nat) (tr : Tracker) (expected : ValType) :
    Except VmError Tracker := do
  let tr ← tr.pop o depthFor (some expected)
  tr.push o depthFor (.val expected)

/-- What the loop of `start_unreachable` stops at: the innermost scope tag and all below it. -/
def scopeBase (state : List StackEntry) : List StackEntry :=
  state.dropWhile (· ≠ .scopeTag)

/-- The operands the loop of `start_unreachable` pops, first one first. -/
def scopeOperands : List StackEntry → List OperandType
  | [] => []
  | .scopeTag :: _ => []
  | .unreachableTag :: rest => scopeOperands rest
  | .operand t :: rest => t :: scopeOperands rest

def startUnreachable (depthFor : OperandType → Nat) (tr : Tracker) : Tracker :=
  { tr with
    state := .unreachableTag :: scopeBase tr.state
    operandDepth :=
      (scopeOperands tr.state).foldl (fun depth t => sub32 depth (depthFor t)) tr.operandDepth
    localBytesChecker := tr.localBytesChecker.pushUnreachable }

def pushScope (tr : Tracker) : Tracker := { tr with state := .scopeTag :: tr.state }

/-- The `unreachable_tag` branch of `pop_scope`. -/
def closeUnreachable (tr : Tracker) : Tracker :=
  match tr.state with
  | .unreachableTag :: rest =>
    { tr with state := rest, localBytesChecker := tr.localBytesChecker.popUnreachable }
  | _ => tr

def popScope (o : Options) (depthFor : OperandType → Nat) (tr : Tracker)
    (expectedResult : Option ValType) : Except VmError Tracker := do
  let tr ← tr.pop o depthFor expectedResult
  vmAssert (!tr.state.isEmpty) (.wasmParse "unexpected end")
  let tr := tr.closeUnreachable
  match tr.state with
  | .scopeTag :: rest =>
    let tr := { tr with state := rest }
    match expectedResult with
    | none => pure tr
    | some t => tr.push o depthFor (.val t)
  | _ => .error (.wasmParse "unexpected end")

end Tracker

end EosVm
