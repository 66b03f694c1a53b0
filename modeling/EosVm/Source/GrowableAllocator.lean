import EosVm.Source.Types

/-!
# Growable allocator

`growable_allocator` of `allocator.hpp`. `size_t` arithmetic is modulo `2 ^ 64`; `&` with the
complement of a power of two minus one is division and multiplication. What `mmap`, `munmap` and the
JIT allocator answer are arguments. A null `_base` is address zero, and `MAP_FAILED` is
`2 ^ 64 - 1`. The contents of the arena are not modelled.
-/

set_option autoImplicit false

namespace EosVm

/-- `sizeof(T)` and `alignof(T)` of a type that `alloc` compiles for. -/
structure TypeLayout where
  size : Nat
  align : Nat
  size_pos : 0 < size
  size_lt : size < 2 ^ 64
  align_pow : ∃ k, align = 2 ^ k
  align_dvd : align ∣ 2 ^ 30

/-- The members of `growable_allocator`. -/
structure GrowableAllocator where
  offset : Nat := 0
  largestOffset : Nat := 0
  capacity : Nat := 0
  base : Nat := 0
  codeBase : Nat := 0
  codeSize : Nat := 0
  isJit : Bool := false
  deriving DecidableEq, Repr

namespace GrowableAllocator

/-- `max_memory_size`. -/
def maxMemorySize : Nat := 1024 * 1024 * 1024

/-- The allocator after a call, and what the call returned or threw. -/
abbrev Outcome (α : Type) := GrowableAllocator × Except VmError α

/-- Subtraction of `size_t`. -/
def sub64 (x y : Nat) : Nat := (x + 2 ^ 64 - y) % 2 ^ 64

/-- `align_offset`. -/
def alignOffset (align offset : Nat) : Nat := (offset + align - 1) % 2 ^ 64 / align * align

/-- `align_to_page`. -/
def alignToPage (pagesize offset : Nat) : Nat :=
  (offset + pagesize - 1) % 2 ^ 64 / pagesize * pagesize

/-- `use_default_memory`. -/
def useDefaultMemory (mapped : Option Nat) (a : GrowableAllocator) : Outcome Unit :=
  if a.base ≠ 0 then (a, .error (.wasmBadAlloc "default memory already allocated"))
  else
    match mapped with
    | none => ({ a with base := 2 ^ 64 - 1 },
        .error (.wasmBadAlloc "failed to mmap for default memory."))
    | some base => ({ a with base := base, capacity := maxMemorySize }, .ok ())

/-- `use_fixed_memory`, in bytes. -/
def useFixedMemory (size : Nat) (mapped : Option Nat) (a : GrowableAllocator) : Outcome Unit :=
  if ¬ (0 < size ∧ size ≤ maxMemorySize) then
    (a, .error (.wasmBadAlloc "Too large or 0 fixed memory size"))
  else if a.base ≠ 0 then (a, .error (.wasmBadAlloc "Fixed memory already allocated"))
  else
    match mapped with
    | none => ({ a with base := 2 ^ 64 - 1 },
        .error (.wasmBadAlloc "mmap in use_fixed_memory failed."))
    | some base => ({ a with base := base, capacity := size }, .ok ())

/-- `alloc<T>(size)`. -/
def alloc (T : TypeLayout) (size : Nat) (a : GrowableAllocator) : Outcome Nat :=
  if a.capacity % T.align ≠ 0 then (a, .error (.wasmBadAlloc "alignment must divide _capacity."))
  else
    let a := { a with offset := alignOffset T.align a.offset }
    if sub64 a.capacity a.offset / T.size < size then
      (a, .error (.wasmBadAlloc "Allocated too much memory"))
    else
      let aligned := (T.size * size % 2 ^ 64 + a.offset) % 2 ^ 64
      if a.capacity < aligned then
        (a, .error (.wasmBadAlloc "Allocated too much memory after aligned"))
      else
        ({ a with
            offset := aligned
            largestOffset := if a.largestOffset < aligned then aligned else a.largestOffset },
          .ok (a.base + a.offset))

/-- `start_code`. -/
def startCode (pagesize : Nat) (a : GrowableAllocator) : Outcome Nat :=
  let a := { a with offset := alignToPage pagesize a.offset }
  (a, .ok (a.base + a.offset))

/-- The assertions of `end_code`. -/
def endCodeAsserts (codeBase : Nat) (a : GrowableAllocator) : Bool :=
  a.base ≤ codeBase && codeBase ≤ a.base + a.offset

/-- `end_code<IsJit>`; `executable` is what the JIT allocator and `mprotect` made of the request. -/
def endCode (isJit : Bool) (pagesize codeBase : Nat) (executable : Except VmError Nat)
    (a : GrowableAllocator) : Outcome Unit :=
  let offset := alignToPage pagesize a.offset
  let a := { a with
    offset := offset
    codeBase := codeBase
    codeSize := sub64 offset (sub64 codeBase a.base) }
  if isJit then
    match executable with
    | .error e => (a, .error e)
    | .ok code =>
      ({ a with codeBase := code, isJit := true, offset := sub64 codeBase a.base }, .ok ())
  else (a, .ok ())

/-- `reclaim<T>(ptr, size)`. -/
def reclaim (T : TypeLayout) (ptr size : Nat) (a : GrowableAllocator) : Outcome Unit :=
  if a.offset / T.size < size then (a, .error (.wasmBadAlloc "reclaimed too much memory"))
  else if ¬ (size = 0 ∨ (ptr + T.size * size) % 2 ^ 64 = (a.base + a.offset) % 2 ^ 64) then
    (a, .error (.wasmBadAlloc "reclaiming memory must be strictly LIFO"))
  else if size ≠ 0 then ({ a with offset := sub64 ptr a.base }, .ok ())
  else (a, .ok ())

/-- `finalize`; `unmapped` tells whether `munmap` succeeded. -/
def finalize (pagesize : Nat) (unmapped : Bool) (a : GrowableAllocator) : Outcome Unit :=
  if a.capacity ≠ a.offset then
    let finalSize := alignToPage pagesize a.offset
    if finalSize < a.capacity then
      if unmapped then
        ({ a with
            capacity := finalSize
            offset := finalSize
            base := if finalSize = 0 then 0 else a.base }, .ok ())
      else (a, .error (.wasmBadAlloc "failed to finalize growable_allocator"))
    else (a, .ok ())
  else (a, .ok ())

end GrowableAllocator

end EosVm
