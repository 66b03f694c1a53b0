import EosVm.Lib.X86.Code
import EosVm.Source.Types

/-!
# Machine code of the branches

The code that `machine_code_writer` emits for a branch out of blocks, and the binary search that it
generates for `br_table`. The search is emitted one label at a time, from a stack of the ranges that
are still to be handled. `eax` holds the index.
-/

set_option autoImplicit false

namespace EosVm

open Lib.X86

/-- What a branch leaves on the stack: `count` slots are popped, the result `rt` among them is
pushed again. -/
structure BranchCase where
  count : BitVec 32
  rt : Option ValType
  deriving DecidableEq, Repr

/-- `is_simple_multipop`. -/
def isSimpleMultipop (c : BranchCase) : Bool :=
  match c.rt with
  | none => c.count == 0
  | some .v128 => c.count == 2
  | some _ => c.count == 1

/-- The instructions of `emit_multipop`. -/
def multipop (c : BranchCase) : List Op :=
  if isSimpleMultipop c then []
  else
    match c.rt with
    | none => release c.count []
    | some .v128 => .loadTopXmm 0 :: release (c.count - 2) [.storeTopXmm 0]
    | some _ => .loadTop .w64 .rax :: release c.count [.push .rax]
where
  release (count : BitVec 32) (result : List Op) : List Op :=
    if count &&& 0x70000000 ≠ 0 then [.int3] else .addRsp (count * 8) :: result

/-- `br_table_generator::stack_item`. -/
structure StackItem where
  min : BitVec 32
  max : BitVec 32
  branchTarget : Option Nat
  deriving DecidableEq, Repr

/-- `br_table_generator`; the back of `stack` comes first. -/
structure BrTableGenerator where
  i : Nat
  stack : List StackItem
  deriving DecidableEq, Repr

/-- The assertions of `br_table_generator`. -/
inductive BrTableAssert where
  | emptyStack | wrongCase | unexpectedDefault
  deriving DecidableEq, Repr

section Generator

variable {H : Type}

/-- `if (label) fix_branch(label, code)`. -/
def fixLabel : Option Nat → Emit H Unit
  | some label => fixHere label
  | none => pure ()

theorem lower_half (a d : BitVec 32) : (a + d / 2 - a).toNat = d.toNat / 2 := by
  rw [BitVec.add_comm, BitVec.add_sub_cancel, BitVec.toNat_udiv]
  rfl

/-- The part of the loop in `emit_case` that splits ranges, from a range that was popped. -/
def splitRange (item : StackItem) (stack : List StackItem) :
    Emit H (StackItem × List StackItem) := do
  fixLabel item.branchTarget
  if _h : 1 < item.max - item.min then
    let mid := item.min + (item.max - item.min) / 2
    emit (.cmp .w32 .rax (.imm mid))
    let midLabel ← emitBranch .ae
    splitRange ⟨item.min, mid, none⟩ (⟨mid, item.max, some midLabel⟩ :: stack)
  else
    return (item, stack)
termination_by (item.max - item.min).toNat
decreasing_by
  have hmany : 1 < (item.max - item.min).toNat := _h
  rw [lower_half]
  omega

/-- The end of `emit_case`: the branch that leads to the target. -/
def emitLeaf (c : BranchCase) (label : Option Nat) : Emit H Nat :=
  if isSimpleMultipop c then
    match label with
    | some label => pure label
    | none => emitJmp
  else do
    emitOps (multipop c)
    emitJmp

/-- `emit_case`. -/
def emitCase (c : BranchCase) (gen : BrTableGenerator) (code : List (Lib.X86.Instr H)) :
    Except BrTableAssert (Nat × BrTableGenerator × List (Lib.X86.Instr H)) :=
  match gen.stack with
  | [] => .error .emptyStack
  | item :: stack =>
    let ((leaf, stack), code) := (splitRange item stack).run code
    if leaf.min = BitVec.ofNat 32 gen.i then
      let (branch, code) := (emitLeaf c leaf.branchTarget).run code
      .ok (branch, ⟨gen.i + 1, stack⟩, code)
    else .error .wrongCase

/-- `emit_default`. -/
def emitDefault (c : BranchCase) (gen : BrTableGenerator) (code : List (Lib.X86.Instr H)) :
    Except BrTableAssert (Nat × BrTableGenerator × List (Lib.X86.Instr H)) := do
  let (branch, gen, code) ← emitCase c gen code
  if gen.stack = [] then .ok (branch, gen, code) else .error .unexpectedDefault

/-- `emit_br_table`. -/
def emitBrTable (tableSize : BitVec 32) (code : List (Lib.X86.Instr H)) :
    BrTableGenerator × List (Lib.X86.Instr H) :=
  (⟨0, [⟨0, tableSize + 1, none⟩]⟩, code ++ [.op (.pop .rax)])

end Generator

/-- The parser's call for label number `k`, which is the default behind the last
one of the table. -/
def emitLabel (tableSize : BitVec 32) (k : Nat) (c : BranchCase) (gen : BrTableGenerator)
    (code : List (Lib.X86.Instr Nat)) :
    Except BrTableAssert (Nat × BrTableGenerator × List (Lib.X86.Instr Nat)) :=
  if k = tableSize.toNat then emitDefault c gen code else emitCase c gen code

/-- The calls for the labels that the parser has read, the first of them number `k`. The branch of
each gets the label's target, which has the label's number here. -/
def emitCases (tableSize : BitVec 32) : Nat → List BranchCase → BrTableGenerator →
    List (Lib.X86.Instr Nat) → Except BrTableAssert (BrTableGenerator × List (Lib.X86.Instr Nat))
  | _, [], gen, code => .ok (gen, code)
  | k, c :: cases, gen, code => do
    let (branch, gen, code) ← emitLabel tableSize k c gen code
    emitCases tableSize (k + 1) cases gen ((fixBranch branch (.handler k)).run code).2

/-- `case opcodes::br_table` of the parser, from the size to the last label that can be read. -/
def brTableCode (tableSize : BitVec 32) (cases : List BranchCase) :
    Except BrTableAssert (BrTableGenerator × List (Lib.X86.Instr Nat)) :=
  let (gen, code) := emitBrTable tableSize []
  emitCases tableSize 0 cases gen code

end EosVm
