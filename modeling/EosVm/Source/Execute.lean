import EosVm.Source.Tracker

/-!
# Execute

`execute` of `execution_context` and of `jit_execution_context`, with the calls, the host functions
and the unwinding between them. What code and host functions do is a sequence of events; a machine
keeps the context and the calls of `execute` that have not ended. Values, memory and native stacks
are left out: operands are counted. Counters are `uint32_t`.

A memory fault is the jump of `signal_handler` to the innermost `invoke_with_signal_handler`: no
destructor runs on the way. Without one the process ends, and so does the run.
-/

set_option autoImplicit false

namespace EosVm

namespace Module

/-- `get_function_stack_size(index)`, for a function of the module. -/
def frameSize (m : Module) (index : Nat) : Nat :=
  match m.getFunctionStackSize index with
  | .ok size => size
  | .error _ => 0

/-- The function is imported. -/
def isImported (m : Module) (index : Nat) : Bool := index < m.getImportedFunctionsSize

/-- `get_function_type(index).param_types.size()`. -/
def paramCount (m : Module) (index : Nat) : Nat :=
  match m.getFunctionType index with
  | .ok ft => ft.paramTypes.length
  | .error _ => 0

/-- The operands that `setup_locals` pushes. -/
def localsCount (m : Module) (index : Nat) : Nat :=
  match m.code[index - m.getImportedFunctionsSize]? with
  | some body => (body.locals.map (·.count)).sum
  | none => 0

end Module

/-- What happens next. `work` is all that running code or a running host function does with the
operand stack, the operands that the call of a host function takes off it included; `throw` is any
C++ exception, of code or of a host function. -/
inductive Event where
  /-- `execute(host, visitor, func, args...)`, by the embedder or by a host function. There are no
  `args` if `type_check_args` throws. -/
  | execute (host func : Nat) (args : Option Nat)
  | work (operands offset : Nat)
  | call (func : Nat)
  /-- `call_indirect` with an index that is out of range or of a function of another type. -/
  | badCallIndirect
  | ret
  | throw
  /-- `context.exit()`, by a host function. -/
  | exit
  | fault
  /-- `set_max_call_depth`, by the embedder or by a host function. -/
  | setLimit (limit : Nat)
  deriving DecidableEq, Repr

/-- A step of a machine. `ended` is the context before the `execute` that the step ends, `returned`
the counter before the call that returns to code. -/
structure Outcome (Machine Context : Type) where
  next : Machine
  overflow : Bool := false
  ended : Option Context := none
  returned : Option Nat := none

/-- An `opcode*`: null, `&_halt`, or an offset in the code of a function. -/
inductive Pc where
  | null
  | halt
  | code (func offset : Nat)
  deriving DecidableEq, Repr

/-- `inc_pc`, and `_state.pc + 1`. -/
def Pc.inc : Pc → Pc
  | .code func offset => .code func (offset + 1)
  | pc => pc

structure ActivationFrame where
  pc : Pc
  lastOpIndex : Nat
  deriving DecidableEq, Repr

structure ExecutionState where
  host : Nat := 0
  asIndex : Nat := 0
  osIndex : Nat := 0
  pc : Pc := .null
  exiting : Bool := false
  deriving DecidableEq, Repr

/-- `execution_context`. `os` is the size of the operand stack, and `callStack` is `_as`, the last
frame first. -/
structure InterpContext where
  os : Nat := 0
  callStack : List ActivationFrame := []
  lastOpIndex : Nat := 0
  state : ExecutionState := {}
  remaining : Nat
  deriving DecidableEq, Repr

/-- A call of `execute` that has not ended. `before` is the context when it was called, of which
`last_last_op_index`, `saved_call_depth` and `saved_state` are copies; `funcs` are the functions
that run in it, with the counter before their call; `inHost` is the value of the guard in `call`
while a host function that the code has called runs. -/
structure InterpFrame where
  before : InterpContext
  imported : Bool
  funcs : List (Nat × Nat)
  inHost : Option Nat
  deriving DecidableEq, Repr

structure Interpreter where
  ctx : InterpContext
  frames : List InterpFrame := []
  deriving DecidableEq, Repr

namespace Interpreter

abbrev Step := Outcome Interpreter InterpContext

/-- `push_call(index)`; `none` is the stack overflow. -/
def pushCall (mod : Module) (index : Nat) (returnPc : Pc) (ctx : InterpContext) :
    Option InterpContext :=
  let frameSize := mod.frameSize index
  if frameSize ≤ ctx.remaining then
    some { ctx with
      remaining := ctx.remaining - frameSize
      callStack := ⟨returnPc, ctx.lastOpIndex⟩ :: ctx.callStack
      lastOpIndex := ctx.os - mod.paramCount index }
  else none

/-- `cleanup` of `execute`. -/
def cleanup (before ctx : InterpContext) : InterpContext where
  os := ctx.state.osIndex
  callStack := ctx.callStack.drop (ctx.callStack.length - ctx.state.asIndex)
  state := before.state
  lastOpIndex := before.lastOpIndex
  remaining := before.remaining

/-- The `execute` of the frame returns or throws. -/
def finish (frame : InterpFrame) (rest : List InterpFrame) (ctx : InterpContext) : Step where
  next := ⟨cleanup frame.before ctx, rest⟩
  ended := some frame.before

/-- `execute`, up to the first instruction or the host function. -/
def execute (mod : Module) (host func : Nat) (args : Option Nat) (m : Interpreter) : Step :=
  let frame : InterpFrame :=
    { before := m.ctx, imported := mod.isImported func, funcs := [], inHost := none }
  let state := { m.ctx.state with
    host := host, asIndex := m.ctx.callStack.length, osIndex := m.ctx.os }
  let ctx := { m.ctx with state := state }
  match args with
  | none => finish frame m.frames ctx
  | some n =>
    let ctx := { ctx with os := ctx.os + n }
    match pushCall mod func .halt ctx with
    | none => { finish frame m.frames ctx with overflow := true }
    | some ctx =>
      if mod.isImported func then { next := ⟨ctx, frame :: m.frames⟩ }
      else
        { next :=
            ⟨{ ctx with
                os := ctx.os + mod.localsCount func
                state := { ctx.state with pc := .code func 0 } },
              { frame with funcs := [(func, m.ctx.remaining)] } :: m.frames⟩ }

/-- `call(index)` in the code of the frame, for `call` and for `call_indirect` after its checks. -/
def call (mod : Module) (func : Nat) (frame : InterpFrame) (rest : List InterpFrame)
    (ctx : InterpContext) : Step :=
  if mod.isImported func then
    let frameSize := mod.frameSize func
    if frameSize ≤ ctx.remaining then
      { next :=
          ⟨{ ctx with
              state := { ctx.state with pc := ctx.state.pc.inc }
              remaining := ctx.remaining - frameSize
              callStack := ⟨.null, 0⟩ :: ctx.callStack },
            { frame with inHost := some ctx.remaining } :: rest⟩ }
    else { finish frame rest ctx with overflow := true }
  else
    match pushCall mod func ctx.state.pc.inc ctx with
    | none => { finish frame rest ctx with overflow := true }
    | some ctx' =>
      { next :=
          ⟨{ ctx' with
              os := ctx'.os + mod.localsCount func
              state := { ctx'.state with pc := .code func 0 } },
            { frame with funcs := (func, ctx.remaining) :: frame.funcs } :: rest⟩ }

/-- The dispatch loop goes on, or ends at `&_halt`. -/
def resume (frame : InterpFrame) (rest : List InterpFrame) (ctx : InterpContext) (returned : Nat) :
    Step :=
  if ctx.state.pc = .halt then finish frame rest ctx
  else { next := ⟨ctx, frame :: rest⟩, returned := some returned }

/-- The end of a host function that the code has called. -/
def hostReturn (saved : Nat) (frame : InterpFrame) (rest : List InterpFrame)
    (ctx : InterpContext) : Step :=
  resume { frame with inHost := none } rest
    { ctx with callStack := ctx.callStack.tail, remaining := saved } saved

/-- `apply_pop_call`. -/
def applyPopCall (mod : Module) (func : Nat) (ctx : InterpContext) : InterpContext :=
  match ctx.callStack with
  | [] => ctx
  | af :: callStack =>
    { ctx with
      callStack := callStack
      state := { ctx.state with pc := af.pc }
      lastOpIndex := af.lastOpIndex
      os := ctx.os - (mod.localsCount func + mod.paramCount func)
      remaining := (ctx.remaining + mod.frameSize func) % 2 ^ 32 }

/-- The innermost `execute` with a signal handler, and the frames below it. -/
def handler : List InterpFrame → Option (InterpFrame × List InterpFrame)
  | [] => none
  | frame :: rest => if frame.imported then handler rest else some (frame, rest)

/-- One event; there is none if nothing that runs can do it. -/
def step (mod : Module) (event : Event) (m : Interpreter) : Option Step :=
  match m.frames with
  | [] =>
    match event with
    | .execute host func args => some (execute mod host func args m)
    | .setLimit limit =>
      some { next := { m with ctx := { m.ctx with remaining := limit % 2 ^ 32 } } }
    | _ => none
  | frame :: rest =>
    if frame.imported || frame.inHost.isSome then
      match event with
      | .execute host func args => some (execute mod host func args m)
      | .work operands _ => some { next := { m with ctx := { m.ctx with os := operands } } }
      | .call _ => none
      | .badCallIndirect => none
      | .ret =>
        match frame.inHost with
        | some saved => some (hostReturn saved frame rest m.ctx)
        | none => some (finish frame rest m.ctx)
      | .throw => some (finish frame rest m.ctx)
      | .exit =>
        some { next := { m with ctx := { m.ctx with
          state := { m.ctx.state with pc := .halt, exiting := true } } } }
      | .fault => (handler m.frames).map fun target => finish target.1 target.2 m.ctx
      | .setLimit limit =>
        some { next := { m with ctx := { m.ctx with remaining := limit % 2 ^ 32 } } }
    else
      match frame.funcs, event with
      | (func, _) :: _, .work operands offset =>
        some { next := { m with ctx := { m.ctx with
          os := operands, state := { m.ctx.state with pc := .code func offset } } } }
      | _ :: _, .call callee => some (call mod callee frame rest m.ctx)
      -- the checks throw before anything is charged
      | _ :: _, .badCallIndirect => some (finish frame rest m.ctx)
      | (func, returned) :: funcs, .ret =>
        some (resume { frame with funcs := funcs } rest (applyPopCall mod func m.ctx) returned)
      | _ :: _, .throw => some (finish frame rest m.ctx)
      | _ :: _, .fault => some (finish frame rest m.ctx)
      | _, _ => none

end Interpreter

/-- `jit_execution_context`. -/
structure JitContext where
  os : Nat := 0
  host : Nat := 0
  remaining : Nat
  deriving DecidableEq, Repr

/-- A call of `execute` that has not ended. `before` is the context when it was called, of which
`saved_host` and `saved_os_size` are copies; `ebx` is the register of the code that runs in it,
which all other code preserves; `inHost` is the value of the guard in `call_host_function` while a
host function that the code has called runs, and the register before the call. -/
structure JitFrame where
  before : JitContext
  imported : Bool
  ebx : Nat
  funcs : List (Nat × Nat)
  inHost : Option (Nat × Nat)
  deriving DecidableEq, Repr

structure Jit where
  ctx : JitContext
  frames : List JitFrame := []
  deriving DecidableEq, Repr

/-- What the emitted code knows of the module: `StackLimitIsBytes`, and the `stack_usage` in the
prologue of each function. -/
structure JitModule where
  mod : Module
  usage : Nat → Nat

/-- `get_maximum_stack_size`: the bytes that `execute` reserves for the code. The sum and the first
product are `uint32_t`, the second product is a `uint64_t`. -/
def JitContext.getMaximumStackSize (ctx : JitContext) (mod : Module) : Nat :=
  if mod.stackLimitIsBytes then ctx.remaining * 2 % 2 ^ 32
  else (mod.maximumStack + 2) * add32 ctx.remaining 1 * 8 % 2 ^ 64

namespace Jit

abbrev Step := Outcome Jit JitContext

/-- The code of `emit_check_call_depth`; `none` is the jump to `stack_overflow_handler`. -/
def checkCallDepth (code : JitModule) (ebx : Nat) : Option Nat :=
  if code.mod.stackLimitIsBytes then some ebx
  else
    let ebx := sub32 ebx 1
    if ebx = 0 then none else some ebx

/-- The code of `emit_check_call_depth_end`. -/
def checkCallDepthEnd (code : JitModule) (ebx : Nat) : Nat :=
  if code.mod.stackLimitIsBytes then ebx else add32 ebx 1

/-- The code of `emit_check_stack_limit`: the carry of the subtraction is the overflow. -/
def checkStackLimit (code : JitModule) (func ebx : Nat) : Option Nat :=
  if code.mod.stackLimitIsBytes then
    if ebx < code.usage func then none else some (ebx - code.usage func)
  else some ebx

/-- The code of `emit_check_stack_limit_end`. -/
def checkStackLimitEnd (code : JitModule) (func ebx : Nat) : Nat :=
  if code.mod.stackLimitIsBytes then add32 ebx (code.usage func) else ebx

/-- The `execute` of the frame returns or throws: its guard. -/
def finish (frame : JitFrame) (rest : List JitFrame) (ctx : JitContext) : Step where
  next := ⟨{ ctx with host := frame.before.host, os := frame.before.os }, rest⟩
  ended := some frame.before

/-- `execute`, up to the first instruction or the host function. -/
def execute (code : JitModule) (host func : Nat) (args : Option Nat) (m : Jit) : Step :=
  let frame : JitFrame :=
    { before := m.ctx, imported := code.mod.isImported func, ebx := 0, funcs := [], inHost := none }
  let ctx := { m.ctx with host := host }
  match args with
  | none => finish frame m.frames ctx
  | some n =>
    if code.mod.isImported func then
      { next := ⟨{ ctx with os := ctx.os + n }, frame :: m.frames⟩ }
    else
      match checkStackLimit code func ctx.remaining with
      | none => { finish frame m.frames ctx with overflow := true }
      | some ebx =>
        { next :=
            ⟨ctx, { frame with ebx := ebx, funcs := [(func, m.ctx.remaining)] } :: m.frames⟩ }

/-- `call`, and `call_indirect` whose checks the callee passes, in the code of the frame. -/
def call (code : JitModule) (func : Nat) (frame : JitFrame) (rest : List JitFrame)
    (ctx : JitContext) : Step :=
  match checkCallDepth code frame.ebx with
  | none => { finish frame rest ctx with overflow := true }
  | some ebx =>
    if code.mod.isImported func then
      { next :=
          ⟨{ ctx with remaining := ebx, os := ctx.os + code.mod.paramCount func },
            { frame with ebx := ebx, inHost := some (ctx.remaining, frame.ebx) } :: rest⟩ }
    else
      match checkStackLimit code func ebx with
      | none => { finish frame rest ctx with overflow := true }
      | some ebx =>
        { next :=
            ⟨ctx, { frame with ebx := ebx, funcs := (func, frame.ebx) :: frame.funcs } :: rest⟩ }

/-- `call_indirect` whose checks fail: `emit_call_indirect` tests the depth before them. -/
def badCallIndirect (code : JitModule) (frame : JitFrame) (rest : List JitFrame)
    (ctx : JitContext) : Step :=
  { finish frame rest ctx with overflow := (checkCallDepth code frame.ebx).isNone }

/-- The end of a host function that the code has called. -/
def hostReturn (code : JitModule) (saved returned : Nat) (frame : JitFrame) (rest : List JitFrame)
    (ctx : JitContext) : Step where
  next :=
    ⟨{ ctx with remaining := saved },
      { frame with ebx := checkCallDepthEnd code frame.ebx, inHost := none } :: rest⟩
  returned := some returned

/-- The end of a function: the epilogue, and the code after the call. -/
def codeReturn (code : JitModule) (func returned : Nat) (funcs : List (Nat × Nat))
    (frame : JitFrame)
    (rest : List JitFrame) (ctx : JitContext) : Step :=
  let ebx := checkStackLimitEnd code func frame.ebx
  match funcs with
  | [] => finish frame rest ctx
  | _ :: _ =>
    { next :=
        ⟨ctx, { frame with ebx := checkCallDepthEnd code ebx, funcs := funcs } :: rest⟩
      returned := some returned }

/-- The innermost `execute` with a signal handler, and the frames below it. -/
def handler : List JitFrame → Option (JitFrame × List JitFrame)
  | [] => none
  | frame :: rest => if frame.imported then handler rest else some (frame, rest)

/-- The guard of `call_host_function`, when an exception leaves it. -/
def unwindHost (frame : JitFrame) (ctx : JitContext) : JitContext :=
  match frame.inHost with
  | some (saved, _) => { ctx with remaining := saved }
  | none => ctx

/-- One event; there is none if nothing that runs can do it. `exit` throws. -/
def step (code : JitModule) (event : Event) (m : Jit) : Option Step :=
  match m.frames with
  | [] =>
    match event with
    | .execute host func args => some (execute code host func args m)
    | .setLimit limit =>
      some { next := { m with ctx := { m.ctx with remaining := limit % 2 ^ 32 } } }
    | _ => none
  | frame :: rest =>
    if frame.imported || frame.inHost.isSome then
      match event with
      | .execute host func args => some (execute code host func args m)
      | .work operands _ => some { next := { m with ctx := { m.ctx with os := operands } } }
      | .call _ => none
      | .badCallIndirect => none
      | .ret =>
        match frame.inHost with
        | some (saved, returned) => some (hostReturn code saved returned frame rest m.ctx)
        | none => some (finish frame rest m.ctx)
      | .throw | .exit => some (finish frame rest (unwindHost frame m.ctx))
      | .fault => (handler m.frames).map fun target => finish target.1 target.2 m.ctx
      | .setLimit limit =>
        some { next := { m with ctx := { m.ctx with remaining := limit % 2 ^ 32 } } }
    else
      match frame.funcs, event with
      | _ :: _, .work _ _ => some { next := m }
      | _ :: _, .call callee => some (call code callee frame rest m.ctx)
      | _ :: _, .badCallIndirect => some (badCallIndirect code frame rest m.ctx)
      | (func, returned) :: funcs, .ret =>
        some (codeReturn code func returned funcs frame rest m.ctx)
      | _ :: _, .throw => some (finish frame rest m.ctx)
      | _ :: _, .fault => some (finish frame rest m.ctx)
      | _, _ => none

end Jit

end EosVm
