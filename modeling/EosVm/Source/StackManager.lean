import EosVm.Source.Types

/-!
# Native stacks for nested executions

`stack_manager` and `stack_allocator`, and where `jit_execution_context::execute` lets the machine
code start. The frame address, the page size and what `mmap` answers are arguments; addresses and
sizes are computed modulo `2 ^ 64`.
-/

set_option autoImplicit false

namespace EosVm

/-- A mapping for a stack; `ptr` is null when the current stack is large enough, and `size` is not
written then. -/
structure StackAllocator where
  ptr : Option Nat := none
  size : Nat := 0
  deriving DecidableEq, Repr

namespace StackAllocator

/-- `_size`: whole pages for `min_size`, and room for host functions and the signal handler. -/
def mappedSize (pagesize minSize : Nat) : Nat :=
  ((minSize + pagesize - 1) % 2 ^ 64 / pagesize * pagesize + 4 * 1024 * 1024) % 2 ^ 64

/-- The constructor. -/
def construct (pagesize minSize available : Nat) (mapped : Option Nat) :
    Except VmError StackAllocator :=
  if available < minSize then
    match mapped with
    | none => .error (.wasmBadAlloc "Failed to allocate stack")
    | some ptr => .ok { ptr := some ptr, size := mappedSize pagesize minSize }
  else .ok {}

/-- `top`. -/
def top (alloc : StackAllocator) : Option Nat := alloc.ptr.map fun ptr => ptr + alloc.size

end StackAllocator

/-- The part of the current stack that machine code may use; both zero before
the first execution. -/
structure StackManager where
  base : Nat := 0
  size : Nat := 0
  deriving DecidableEq, Repr

namespace StackManager

def defaultStackSize : Nat := 4 * 1024 * 1024

def untrackedStackSize : Nat := 4 * 1024 * 1024

/-- The first execution takes the stack below its frame `p`. -/
def start (p : Nat) (m : StackManager) : StackManager :=
  if m.base = 0 ∧ m.size = 0 then
    { base := (p + 2 ^ 64 - defaultStackSize) % 2 ^ 64, size := defaultStackSize }
  else m

/-- `available_stack`. -/
def available (p : Nat) (m : StackManager) : Nat :=
  if m.base ≤ p ∧ p ≤ (m.base + m.size) % 2 ^ 64 then p - m.base else 0

/-- `execute` up to the call of `f`: the manager while `f` runs, and its stack. -/
def enter (pagesize sz p : Nat) (mapped : Option Nat) (m : StackManager) :
    Except VmError (StackManager × StackAllocator) := do
  let m := m.start p
  let alt ← StackAllocator.construct pagesize sz (m.available p) mapped
  match alt.top with
  | some top => pure ({ base := (top + 2 ^ 64 - sz) % 2 ^ 64, size := sz }, alt)
  | none => pure (m, alt)

end StackManager

/-- The stack pointer that machine code starts from: 24 bytes at the top of a new stack are
reserved, and on the current stack it is that of the caller. -/
def machineCodeStart (alt : StackAllocator) (sp : Nat) : Nat :=
  match alt.top with
  | some top => top - 24
  | none => sp

end EosVm
