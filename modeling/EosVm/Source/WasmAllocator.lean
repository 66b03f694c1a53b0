import EosVm.Source.Context

/-!
# Linear memory in the address space

`wasm_allocator` of `allocator.hpp`: the reservation, the protection of its pages and their bytes,
with the address of an access by `pop_memop_addr` and the part of `signal_handler` that tells faults
in the memory from others. `sysconf`, the address that `mmap` returns and `mprotect` are parameters.
Sizes are computed modulo `2 ^ 64`.
-/

set_option autoImplicit false

namespace EosVm

/-- `max_memory`. -/
def maxMemory : Nat := 4 <<< 31

/-- The protection of a byte: `PROT_NONE`, `PROT_READ` or both `PROT_READ` and `PROT_WRITE`. -/
inductive Prot where
  | none
  | read
  | readWrite
  deriving DecidableEq, Repr

/-- The system page size, the address of the reservation and `mprotect`, which returns the
protections and whether it succeeded. -/
structure System where
  syspagesize : Nat
  mapped : Nat
  mprotect : (Nat → Prot) → Nat → Nat → Prot → (Nat → Prot) × Bool

namespace System

variable (sys : System)

def tableSize : Nat := sys.syspagesize

def prefixSize : Nat := sys.tableSize + sys.syspagesize

def suffixSize : Nat := sys.syspagesize

/-- The size of the reservation. -/
def reserved : Nat := maxMemory + sys.prefixSize + sys.suffixSize

end System

/-- The members of `wasm_allocator`, and what the address space holds for it. -/
structure WasmAllocator where
  raw : Nat
  page : Int
  prot : Nat → Prot
  bytes : Nat → UInt8

namespace WasmAllocator

/-- A call returns normally when there is no error. -/
abbrev Outcome := WasmAllocator × Option VmError

variable (sys : System)

/-- `memset(addr, 0, size)`. -/
def memset (bytes : Nat → UInt8) (addr size : Nat) : Nat → UInt8 :=
  fun x => if addr ≤ x ∧ x < addr + size then 0 else bytes x

/-- A call of `mprotect` with the assertion after it. -/
def protect (addr len : Nat) (p : Prot) (a : WasmAllocator) : Outcome :=
  let (prot, ok) := sys.mprotect a.prot addr len p
  ({ a with prot := prot }, if ok then none else some (.wasmBadAlloc "mprotect failed"))

/-- What follows a call that returned. -/
def Outcome.next (o : Outcome) (f : WasmAllocator → Outcome) : Outcome :=
  match o.2 with
  | none => f o.1
  | some e => (o.1, some e)

/-- The constructor. -/
def construct : Outcome :=
  let a : WasmAllocator :=
    { raw := sys.mapped, page := 0, prot := fun _ => .none, bytes := fun _ => 0 }
  (protect sys a.raw sys.tableSize .readWrite a).next fun a =>
    ({ a with raw := a.raw + sys.prefixSize, page := -1 }, none)

/-- `alloc`, in pages. -/
def alloc (size : Nat) (a : WasmAllocator) : Outcome :=
  if size = 0 then (a, none)
  else if a.page < 0 then (a, some (.wasmBadAlloc "require memory to allocate"))
  else if maxPagesLimit < (size + a.page.toNat) % 2 ^ 64 then
    (a, some (.wasmBadAlloc "exceeded max number of pages"))
  else
    let start := a.raw + pageSize * a.page.toNat
    (protect sys start (pageSize * size % 2 ^ 64) .readWrite a).next fun a =>
      ({ a with
          bytes := memset a.bytes start (pageSize * size % 2 ^ 64)
          page := (a.page + size).bmod (2 ^ 32) }, none)

/-- `free`, in pages. The page count is lowered before `mprotect`. -/
def free (size : Nat) (a : WasmAllocator) : Outcome :=
  if size = 0 then (a, none)
  else if a.page < 0 then (a, some (.wasmBadAlloc "require memory to deallocate"))
  else if a.page.toNat < size then (a, some (.wasmBadAlloc "freed too many pages"))
  else
    let a := { a with page := a.page - size }
    protect sys (a.raw + pageSize * a.page.toNat) (pageSize * size % 2 ^ 64) .none a

/-- `memset` of all pages. -/
def zero (a : WasmAllocator) : WasmAllocator :=
  { a with bytes := memset a.bytes a.raw (pageSize * a.page.toNat % 2 ^ 64) }

/-- `reset(new_pages)`. -/
def reset (newPages : Nat) (a : WasmAllocator) : Outcome :=
  let defined : Outcome :=
    if 0 ≤ a.page then (a.zero, none)
    else
      (protect sys (a.raw - sys.syspagesize) sys.syspagesize .read a).next fun a =>
        ({ a with page := 0 }, none)
  defined.next fun a =>
    if a.page.toNat < newPages then alloc sys (newPages - a.page.toNat) a
    else if newPages < a.page.toNat then free sys (a.page.toNat - newPages) a
    else (a, none)

/-- `reset()`: no memory is defined. -/
def resetNone (a : WasmAllocator) : Outcome :=
  if 0 ≤ a.page then
    (protect sys (a.raw - sys.syspagesize) ((pageSize * a.page.toNat + sys.syspagesize) % 2 ^ 64)
      .none a.zero).next fun a => ({ a with page := -1 }, none)
  else ({ a with page := -1 }, none)

/-- `get_span`: the first address and the size. -/
def getSpan (a : WasmAllocator) : Nat × Nat :=
  (a.raw - sys.syspagesize, maxMemory + 2 * sys.syspagesize)

end WasmAllocator

/-- `align_address`; `shouldAlign` is `should_align_memory_ops`. -/
def alignAddress (shouldAlign : Bool) (addr alignAmt : Nat) : Nat :=
  if shouldAlign then (addr + 2 ^ alignAmt - 1) / 2 ^ alignAmt * 2 ^ alignAmt else addr

/-- `pop_memop_addr` on the operand `ptr`. -/
def popMemopAddr (shouldAlign : Bool) (linearMemory : Nat) (offset ptr : BitVec 32)
    (flagsAlign : Nat) : Nat :=
  alignAddress shouldAlign (linearMemory + offset.toNat + ptr.toNat) flagsAlign

/-- What `signal_handler` does: leave the execution, return to the faulting instruction, or call the
handler that was there before. -/
inductive SignalAction where
  | jump
  | retry
  | chain
  deriving DecidableEq, Repr

/-- `addr >= range.data() && addr < range.data() + range.size()`. -/
def inRange (range : Nat × Nat) (addr : Nat) : Bool := range.1 ≤ addr && addr < range.1 + range.2

/-- `signal_handler` up to the chained handler. `dest` tells whether an execution is under way,
`segv` whether the signal is `SIGSEGV` or `SIGBUS`. -/
def signalHandler (dest : Bool) (codeMemoryRange memoryRange : Nat × Nat) (segv timedOut : Bool)
    (addr : Nat) : SignalAction :=
  if dest then
    if codeMemoryRange.2 = 0 ∧ memoryRange.2 = 0 then .jump
    else if inRange memoryRange addr then .jump
    else if inRange codeMemoryRange addr then
      if segv && !timedOut then .retry else .jump
    else .chain
  else .chain

end EosVm
