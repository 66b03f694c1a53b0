import EosVm.Source.Types

/-!
# JIT allocator

`jit_allocator` of `allocator.hpp`. A `std::map` from addresses to sizes and a `std::set` of pairs
of size and address are lists of their elements in no order; `lower_bound`, the element before
and the one after an iterator are found by key. What `mmap` returns is an argument of `alloc`. The
rollback guards of `allocate_segment` and `split_block` only act when a container cannot allocate a
node and are left out. `pagesize` is `sysconf(_SC_PAGESIZE)`, a power of two.
-/

set_option autoImplicit false

namespace EosVm

/-- `segment_size`. -/
def segmentSize : Nat := 1024 * 1024 * 1024

/-- The members of `jit_allocator`. -/
structure JitAllocator where
  segments : List (Nat × Nat) := []
  freeBlocksBySize : List (Nat × Nat) := []
  allocatedBlocksBySize : List (Nat × Nat) := []
  freeBlocks : List (Nat × Nat) := []
  allocatedBlocks : List (Nat × Nat) := []
  deriving DecidableEq, Repr

namespace JitAllocator

/-- `round_to_page`. -/
def roundToPage (pagesize offset : Nat) : Nat := (offset + pagesize - 1) / pagesize * pagesize

/-- `operator()` of `by_size` on two blocks. -/
def bySize (lhs rhs : Nat × Nat) : Bool := lhs.1 < rhs.1 || (lhs.1 == rhs.1 && lhs.2 < rhs.2)

/-- The first of the elements by an order. -/
def firstBy (before : Nat × Nat → Nat × Nat → Bool) : List (Nat × Nat) → Option (Nat × Nat)
  | [] => none
  | x :: xs =>
    match firstBy before xs with
    | none => some x
    | some y => if before y x then some y else some x

/-- `free_blocks_by_size.lower_bound(size)`. -/
def lowerBound (blocks : List (Nat × Nat)) (size : Nat) : Option (Nat × Nat) :=
  firstBy bySize (blocks.filter (size ≤ ·.1))

/-- `insert` of a set, which keeps an element that is already there. -/
def insertBySize (blocks : List (Nat × Nat)) (block : Nat × Nat) : List (Nat × Nat) :=
  if block ∈ blocks then blocks else block :: blocks

/-- `insert` of a map, which keeps an element with the same key. -/
def insertBlock (blocks : List (Nat × Nat)) (block : Nat × Nat) : List (Nat × Nat) :=
  if blocks.any (·.1 == block.1) then blocks else block :: blocks

/-- `transfer_node`; `isKey` tells the elements with the key. -/
def transferNode (isKey : Nat × Nat → Bool) (src dst : List (Nat × Nat)) :
    Except VmError ((Nat × Nat) × List (Nat × Nat) × List (Nat × Nat)) :=
  match src.find? isKey with
  | none => .error .outOfRange
  | some node => do
    vmAssert (!dst.any isKey) .outOfRange
    pure (node, src.erase node, node :: dst)

/-- `allocate_segment`. -/
def allocateSegment (minSize : Nat) (mapped : Option Nat) (a : JitAllocator) :
    Except VmError ((Nat × Nat) × JitAllocator) :=
  let size := max minSize segmentSize
  match mapped with
  | none => .error (.wasmBadAlloc "failed to allocate jit segment")
  | some base => pure ((size, base),
      { a with
        segments := a.segments ++ [(base, size)]
        freeBlocksBySize := insertBySize a.freeBlocksBySize (size, base)
        freeBlocks := insertBlock a.freeBlocks (base, size) })

/-- `split_block`. -/
def splitBlock (pos : Nat × Nat) (size : Nat) (a : JitAllocator) : (Nat × Nat) × JitAllocator :=
  let new1 := (size, pos.2)
  let bySize := insertBySize a.freeBlocksBySize new1
  let new2 := (pos.1 - size, pos.2 + size)
  let bySize := insertBySize bySize new2
  let blocks := insertBlock a.freeBlocks (new2.2, new2.1)
  let bySize := bySize.erase pos
  -- `free_blocks[new1->second] = new1->first`
  let blocks := (new1.2, new1.1) :: blocks.filter (·.1 != new1.2)
  (new1, { a with freeBlocksBySize := bySize, freeBlocks := blocks })

/-- `alloc`; the first component is the address. -/
def alloc (pagesize size : Nat) (mapped : Option Nat) (a : JitAllocator) :
    Except VmError (Nat × JitAllocator) := do
  let size := roundToPage pagesize size
  let (best, a) ←
    match lowerBound a.freeBlocksBySize size with
    | some best => pure (best, a)
    | none => a.allocateSegment size mapped
  let (best, a) := if best.1 > size then a.splitBlock best size else (best, a)
  let (_, freeBlocks, allocatedBlocks) ←
    transferNode (·.1 == best.2) a.freeBlocks a.allocatedBlocks
  let (best, freeBlocksBySize, allocatedBlocksBySize) ←
    transferNode (· == best) a.freeBlocksBySize a.allocatedBlocksBySize
  pure (best.2, { a with freeBlocksBySize, allocatedBlocksBySize, freeBlocks, allocatedBlocks })

/-- `maybe_consolidate_blocks`. -/
def maybeConsolidateBlocks (lhs rhs : Nat × Nat) (a : JitAllocator) : (Nat × Nat) × JitAllocator :=
  if lhs.1 + lhs.2 = rhs.1 then
    let bySize := a.freeBlocksBySize.erase (lhs.2, lhs.1)
    let bySize := insertBySize bySize (lhs.2 + rhs.2, lhs.1)
    let bySize := bySize.erase (rhs.2, rhs.1)
    let merged := (lhs.1, lhs.2 + rhs.2)
    (merged, { a with
      freeBlocksBySize := bySize
      freeBlocks := merged :: (a.freeBlocks.erase lhs).erase rhs })
  else (rhs, a)

/-- The element before `pos`, if it is not `begin()`. -/
def prevBlock (blocks : List (Nat × Nat)) (pos : Nat × Nat) : Option (Nat × Nat) :=
  firstBy (fun x y => y.1 < x.1) (blocks.filter (·.1 < pos.1))

/-- The element after `pos`, if it is not `end()`. -/
def nextBlock (blocks : List (Nat × Nat)) (pos : Nat × Nat) : Option (Nat × Nat) :=
  firstBy (fun x y => x.1 < y.1) (blocks.filter (pos.1 < ·.1))

/-- The merging part of `free`. -/
def mergeFreed (pos : Nat × Nat) (a : JitAllocator) : JitAllocator :=
  let (pos, a) :=
    match prevBlock a.freeBlocks pos with
    | some prev => a.maybeConsolidateBlocks prev pos
    | none => (pos, a)
  match nextBlock a.freeBlocks pos with
  | some next => (a.maybeConsolidateBlocks pos next).2
  | none => a

/-- `free`. -/
def free (ptr : Nat) (a : JitAllocator) : Except VmError JitAllocator := do
  let (pos, allocatedBlocks, freeBlocks) ←
    transferNode (·.1 == ptr) a.allocatedBlocks a.freeBlocks
  let (_, allocatedBlocksBySize, freeBlocksBySize) ←
    transferNode (· == (pos.2, pos.1)) a.allocatedBlocksBySize a.freeBlocksBySize
  pure (mergeFreed pos
    { a with freeBlocksBySize, allocatedBlocksBySize, freeBlocks, allocatedBlocks })

end JitAllocator

end EosVm
