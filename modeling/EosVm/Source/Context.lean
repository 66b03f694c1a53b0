import EosVm.Source.Types

/-!
# Execution context

`execution_context_base` of `execution_context.hpp`, which the interpreter and the machine code
share: instantiation of a module by `reset`, the bulk memory operations, globals and the table.
The allocator is the number of its pages and a byte for every address, the ones beyond the pages
included; an access outside the pages is the signal that `handle_signal` turns into an exception.
Unchecked accesses to a vector are modelled by checked ones, so `outOfRange` stands for undefined
behaviour there. `mprotect` and `new` do not fail.

`module::error` is never written and its test in `reset` is left out, as is the capacity of the
operand stack.
-/

set_option autoImplicit false

namespace EosVm

def pageSize : Nat := 64 * 1024

def maxPagesLimit : Nat := 65536

/-- Assignment to `xs[i]`. -/
def vectorSet {α : Type} (xs : List α) (i : Nat) (x : α) : Except VmError (List α) :=
  if i < xs.length then .ok (xs.set i x) else .error .outOfRange

@[simp] theorem vectorSet_eq_ok {α : Type} {xs ys : List α} {i : Nat} {x : α} :
    vectorSet xs i x = .ok ys ↔ i < xs.length ∧ xs.set i x = ys := by
  unfold vectorSet
  split
  next h => simp [h]
  next h => simp [h]

/-- `memcpy` of `data` to `addr`. -/
def writeBytes (memory : Nat → UInt8) (addr : Nat) (data : List UInt8) : Nat → UInt8 :=
  fun a => if addr ≤ a ∧ a < addr + data.length then data.getD (a - addr) 0 else memory a

/-- `memcpy` of `entries` to `table + offset`. -/
def writeEntries (table : List TableEntry) (offset : Nat) (entries : List TableEntry) :
    List TableEntry :=
  table.take offset ++ entries ++ table.drop (offset + entries.length)

/-- The members of `execution_context_base`. `page` is `-1` when no memory is defined. `table` are
the entries from `get_table_base()` on, as many as the module has; `altTable` is the number of
entries that `_alt_table` was allocated for. `osSize` and `asSize` are the sizes of the operand
stack and of the interpreter's call stack. -/
structure ExecutionContextBase where
  maxPages : Nat := maxPagesLimit
  page : Int := -1
  memory : Nat → UInt8 := fun _ => 0
  table : List TableEntry := []
  altTable : Option Nat := none
  globals : List InitExpr := []
  droppedElems : List Bool := []
  droppedData : List Bool := []
  osSize : Nat := 0
  asSize : Nat := 0

namespace ExecutionContextBase

/-- `set_max_pages`. -/
def setMaxPages (ctx : ExecutionContextBase) (maxPages : Nat) : ExecutionContextBase :=
  { ctx with maxPages := min maxPages maxPagesLimit }

/-- `set_module`: the context's part of it. -/
def setModule (ctx : ExecutionContextBase) : ExecutionContextBase := { ctx with altTable := none }

/-- `memset(raw, 0, page_size * page)` from page `first` on, for `count` pages. -/
def zeroPages (first count : Nat) (memory : Nat → UInt8) : Nat → UInt8 :=
  fun a => if first * pageSize ≤ a ∧ a < (first + count) * pageSize then 0 else memory a

/-- `wasm_allocator::alloc`. -/
def allocPages (ctx : ExecutionContextBase) (size : Nat) : Except VmError ExecutionContextBase :=
  if size = 0 then pure ctx
  else do
    vmAssert (0 ≤ ctx.page) (.wasmBadAlloc "require memory to allocate")
    vmAssert (size + ctx.page ≤ maxPagesLimit) (.wasmBadAlloc "exceeded max number of pages")
    pure { ctx with
      page := ctx.page + size, memory := zeroPages ctx.page.toNat size ctx.memory }

/-- `wasm_allocator::free`. The bytes of the freed pages stay. -/
def freePages (ctx : ExecutionContextBase) (size : Nat) : Except VmError ExecutionContextBase :=
  if size = 0 then pure ctx
  else do
    vmAssert (0 ≤ ctx.page) (.wasmBadAlloc "require memory to deallocate")
    vmAssert (size ≤ ctx.page) (.wasmBadAlloc "freed too many pages")
    pure { ctx with page := ctx.page - size }

/-- `wasm_allocator::reset(new_pages)`. -/
def resetPages (ctx : ExecutionContextBase) (newPages : Nat) :
    Except VmError ExecutionContextBase :=
  let ctx :=
    if 0 ≤ ctx.page then { ctx with memory := zeroPages 0 ctx.page.toNat ctx.memory }
    else { ctx with page := 0 }
  if (newPages : Int) > ctx.page then ctx.allocPages (newPages - ctx.page).toNat
  else if (newPages : Int) < ctx.page then ctx.freePages (ctx.page - newPages).toNat
  else pure ctx

/-- `wasm_allocator::reset()`: no memory is defined. -/
def resetNoPages (ctx : ExecutionContextBase) : ExecutionContextBase :=
  if 0 ≤ ctx.page then { ctx with page := -1, memory := zeroPages 0 ctx.page.toNat ctx.memory }
  else { ctx with page := -1 }

/-- The memory part of `reset`. -/
def resetMemory (mod : Module) (ctx : ExecutionContextBase) :
    Except VmError ExecutionContextBase :=
  match mod.memories with
  | memory :: _ => do
    vmAssert (memory.limits.initial ≤ ctx.maxPages)
      (.wasmBadAlloc "Cannot allocate initial linear memory.")
    ctx.resetPages memory.limits.initial
  | [] => pure ctx.resetNoPages

/-- One data segment of `reset`. -/
def resetDataSegment (mod : Module) (i : Nat) (segment : DataSegment)
    (ctx : ExecutionContextBase) : Except VmError ExecutionContextBase :=
  if segment.passive then pure ctx
  else do
    let offset := segment.offset.valueI32
    let memory ← vectorAt mod.memories 0
    vmAssert (offset + segment.data.length ≤ memory.limits.initial * pageSize)
      (.wasmMemory "data out of range")
    let droppedData ← vectorSet ctx.droppedData i true
    pure { ctx with memory := writeBytes ctx.memory offset segment.data,
                    droppedData := droppedData }

/-- One element segment of `reset`. -/
def resetElemSegment (mod : Module) (i : Nat) (segment : ElemSegment)
    (ctx : ExecutionContextBase) : Except VmError ExecutionContextBase :=
  match segment.mode with
  | .passive => pure ctx
  | .declarative => do
    let droppedElems ← vectorSet ctx.droppedElems i true
    pure { ctx with droppedElems := droppedElems }
  | .active => do
    let offset := (segment.offset.map InitExpr.valueI32).getD 0
    let table ← vectorAt mod.tables 0
    vmAssert (offset + segment.elems.length ≤ table.limits.initial)
      (.wasmMemory "elem out of range")
    let droppedElems ← vectorSet ctx.droppedElems i true
    pure { ctx with
      table := writeEntries ctx.table offset segment.elems, droppedElems := droppedElems }

/-- A loop of `reset` over the segments of one kind. -/
def resetSegments {α : Type}
    (resetSegment : Nat → α → ExecutionContextBase → Except VmError ExecutionContextBase) :
    Nat → List α → ExecutionContextBase → Except VmError ExecutionContextBase
  | _, [], ctx => pure ctx
  | i, segment :: segments, ctx => do
    let ctx ← resetSegment i segment ctx
    resetSegments resetSegment (i + 1) segments ctx

/-- `wasm_allocator::table_size()`, the system's page. -/
def tablePage : Nat := 4096

/-- `module::indirect_table(0)` for a table of this size. -/
def indirectTable (initial : Nat) : Bool := initial * 16 > tablePage - 8

/-- The place of the table in `reset`: the page below the memory, or `_alt_table`, which is
allocated for the first module that needs it. Writing more entries than it has is undefined. -/
def resetTablePlace (initial : Nat) (ctx : ExecutionContextBase) :
    Except VmError ExecutionContextBase :=
  if indirectTable initial then do
    let room := ctx.altTable.getD initial
    vmAssert (initial ≤ room) .outOfRange
    pure { ctx with altTable := some room }
  else pure ctx

/-- The table part of `reset`, which is skipped in a module without a table. -/
def resetTable (mod : Module) (ctx : ExecutionContextBase) :
    Except VmError ExecutionContextBase :=
  match mod.tables with
  | [] => pure ctx
  | table :: _ => do
    let ctx ← resetTablePlace table.limits.initial ctx
    resetSegments (resetElemSegment mod) 0 mod.elements
      { ctx with
        table := List.replicate table.limits.initial TableEntry.null
        droppedElems := List.replicate mod.elements.length false }

/-- `reset`. -/
def reset (mod : Module) (ctx : ExecutionContextBase) : Except VmError ExecutionContextBase := do
  let ctx ← resetMemory mod ctx
  let ctx ← resetSegments (resetDataSegment mod) 0 mod.data
    { ctx with droppedData := List.replicate mod.data.length false }
  resetTable mod { ctx with globals := mod.globals.map (·.init) }

/-- `execution_context::reset`. -/
def interpreterReset (mod : Module) (ctx : ExecutionContextBase) :
    Except VmError ExecutionContextBase := do
  let ctx ← reset mod ctx
  pure { ctx with osSize := 0, asSize := 0 }

/-- `jit_execution_context::reset`. -/
def jitReset (mod : Module) (ctx : ExecutionContextBase) :
    Except VmError ExecutionContextBase := do
  let ctx ← reset mod ctx
  pure { ctx with osSize := 0 }

/-- The access to `len` bytes at `ptr` does not leave the pages. -/
def validatePointer (ctx : ExecutionContextBase) (ptr len : Nat) : Except VmError Unit :=
  vmAssert (0 ≤ ctx.page && ptr + len ≤ ctx.page.toNat * pageSize)
    (.wasmMemory "wasm memory out-of-bounds")

/-- `len` bytes at `ptr`, little endian. -/
def readBytes (ctx : ExecutionContextBase) (ptr len : Nat) : Except VmError Nat := do
  ctx.validatePointer ptr len
  pure (((List.range len).map fun i => (ctx.memory (ptr + i)).toNat * 2 ^ (8 * i)).sum)

/-- The low `len` bytes of `value` to `ptr`, little endian. -/
def storeBytes (ctx : ExecutionContextBase) (ptr len value : Nat) :
    Except VmError ExecutionContextBase := do
  ctx.validatePointer ptr len
  let bytes := (List.range len).map fun i => UInt8.ofNat (value / 2 ^ (8 * i))
  pure { ctx with memory := writeBytes ctx.memory ptr bytes }

/-- `current_linear_memory`. -/
def currentLinearMemory (ctx : ExecutionContextBase) : BitVec 32 := BitVec.ofInt 32 ctx.page

/-- `grow_linear_memory`. A negative argument frees pages; the comparison with `_max_pages` is
unsigned. -/
def growLinearMemory (mod : Module) (pages : BitVec 32) (ctx : ExecutionContextBase) :
    Except VmError (BitVec 32 × ExecutionContextBase) :=
  let sz := ctx.page
  if pages.toInt < 0 then
    if sz + pages.toInt < 0 then pure (-1#32, ctx)
    else do
      let ctx ← ctx.freePages (-pages.toInt).toNat
      pure (BitVec.ofInt 32 sz, ctx)
  else
    match mod.memories with
    | [] => pure (-1#32, ctx)
    | memory :: _ =>
      if (ctx.maxPages - sz) % 2 ^ 32 < pages.toNat ∨
          (memory.limits.flags = true ∧ (memory.limits.maximum : Int) - sz < pages.toInt) then
        pure (-1#32, ctx)
      else do
        let ctx ← ctx.allocPages pages.toNat
        pure (BitVec.ofInt 32 sz, ctx)

/-- The byte at `memory + addr` can be read. The system's page below the memory is mapped for
reading while a memory is defined; nothing is mapped from the end of the memory on. -/
def readable (ctx : ExecutionContextBase) (addr : Int) : Bool :=
  0 ≤ ctx.page && -(tablePage : Int) ≤ addr && addr < ctx.page * pageSize

/-- `execution_interface::validate_pointer` for bytes, which reads the last byte of the range. -/
def touchLast (ctx : ExecutionContextBase) (ptr len : Nat) : Except VmError Unit :=
  vmAssert (ctx.readable ((ptr : Int) + len - 1)) (.wasmMemory "wasm memory out-of-bounds")

/-- `init_linear_memory`. -/
def initLinearMemory (mod : Module) (x d s n : Nat) (ctx : ExecutionContextBase) :
    Except VmError ExecutionContextBase := do
  let segment ← vectorAt mod.data x
  let dropped ← vectorAt ctx.droppedData x
  let dataLen := if dropped then 0 else segment.data.length
  vmAssert (s + n ≤ dataLen) (.wasmMemory "data out of range")
  ctx.touchLast d n
  pure { ctx with memory := writeBytes ctx.memory d ((segment.data.drop s).take n) }

/-- `drop_data`. -/
def dropData (mod : Module) (x : Nat) (ctx : ExecutionContextBase) :
    Except VmError ExecutionContextBase := do
  let _ ← vectorAt mod.data x
  let droppedData ← vectorSet ctx.droppedData x true
  pure { ctx with droppedData := droppedData }

/-- `init_table`. -/
def initTable (mod : Module) (x d s n : Nat) (ctx : ExecutionContextBase) :
    Except VmError ExecutionContextBase := do
  let segment ← vectorAt mod.elements x
  let dropped ← vectorAt ctx.droppedElems x
  let elemLen := if dropped then 0 else segment.elems.length
  vmAssert (s + n ≤ elemLen) (.wasmMemory "elem out of range")
  let table ← vectorAt mod.tables 0
  vmAssert (d + n ≤ table.limits.initial) (.wasmMemory "wasm memory out-of-bounds")
  pure { ctx with table := writeEntries ctx.table d ((segment.elems.drop s).take n) }

/-- `drop_elem`. -/
def dropElem (mod : Module) (x : Nat) (ctx : ExecutionContextBase) :
    Except VmError ExecutionContextBase := do
  let _ ← vectorAt mod.elements x
  let droppedElems ← vectorSet ctx.droppedElems x true
  pure { ctx with droppedElems := droppedElems }

/-- `get_table_ptr`, which the callers use for `size` entries from `base` on. -/
def getTablePtr (mod : Module) (base size : Nat) : Except VmError Unit := do
  let table ← vectorAt mod.tables 0
  vmAssert (base + size ≤ table.limits.initial) (.wasmMemory "table out of range")

/-- `*d = *s` for two entries of the table. -/
def copyEntry (dst src : Nat) (ctx : ExecutionContextBase) :
    Except VmError ExecutionContextBase := do
  let entry ← vectorAt ctx.table src
  let table ← vectorSet ctx.table dst entry
  pure { ctx with table := table }

/-- `table_elem`. -/
def tableElem (mod : Module) (i : Nat) (ctx : ExecutionContextBase) : Except VmError Nat := do
  let table ← vectorAt mod.tables 0
  vmAssert (i < table.limits.initial) (.wasmInterpreter "table index out of range")
  let entry ← vectorAt ctx.table i
  pure entry.index

/-- The function that `operator()(const call_indirect_t&)` of the interpreter calls. -/
def interpretCallIndirect (mod : Module) (opIndex index : Nat) (ctx : ExecutionContextBase) :
    Except VmError Nat := do
  let fn ← ctx.tableElem mod index
  let expectedType ← vectorAt mod.types opIndex
  let actualType ← mod.getFunctionType fn
  vmAssert (actualType.equal expectedType) (.wasmInterpreter "bad call_indirect type")
  pure fn

/-- The function that the code of `machine_code_writer::emit_call_indirect` calls. The code pointer
of an entry is the native code of its function. -/
def jitCallIndirect (mod : Module) (functypeidx index : Nat) (ctx : ExecutionContextBase) :
    Except VmError Nat := do
  let table ← vectorAt mod.tables 0
  vmAssert (index < table.limits.initial) (.wasmInterpreter "call_indirect out of range")
  let entry ← vectorAt ctx.table index
  vmAssert (entry.type == functypeidx) (.wasmInterpreter "call_indirect incorrect function type")
  pure entry.index

end ExecutionContextBase

end EosVm
