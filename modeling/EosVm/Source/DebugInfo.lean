import Mathlib.Algebra.Order.Ring.Int

/-!
# Map from code to wasm addresses

`debug_info.hpp`. Pointers are 64-bit numbers and `std::sort` is any arrangement that it may leave,
since it does not keep the order of equal elements. A read past the end of the table has no result.
-/

set_option autoImplicit false

namespace EosVm

/-- `addr_entry`. -/
structure AddrEntry where
  offset : BitVec 32
  wasmAddr : BitVec 32
  deriving DecidableEq, Repr

/-- `profile_instr_map::builder`. -/
structure InstrMapBuilder where
  codeBase : BitVec 64 := 0
  wasmBase : BitVec 64 := 0
  codeEnd : BitVec 64 := 0
  data : List AddrEntry := []
  deriving DecidableEq, Repr

namespace InstrMapBuilder

def onCodeStart (b : InstrMapBuilder) (compiledBase wasmCodeStart : BitVec 64) : InstrMapBuilder :=
  { b with codeBase := compiledBase, wasmBase := wasmCodeStart }

/-- `on_function_start` and `on_instr_start`. -/
def onInstrStart (b : InstrMapBuilder) (codeAddr wasmAddr : BitVec 64) : InstrMapBuilder :=
  { b with data := b.data ++
    [⟨(codeAddr - b.codeBase).setWidth 32, (wasmAddr - b.wasmBase).setWidth 32⟩] }

def onFunctionStart : InstrMapBuilder → BitVec 64 → BitVec 64 → InstrMapBuilder := onInstrStart

def onCodeEnd (b : InstrMapBuilder) (codeAddr : BitVec 64) : InstrMapBuilder :=
  { b with codeEnd := codeAddr }

/-- The size of the code, as `set` computes it. -/
def codeSize (b : InstrMapBuilder) : BitVec 64 := b.codeEnd - b.codeBase

end InstrMapBuilder

/-- What `std::sort` may leave of the entries when it compares their offsets. -/
def SortedByOffset (data sorted : List AddrEntry) : Prop :=
  sorted.Perm data ∧ sorted.Pairwise fun lhs rhs => lhs.offset ≤ rhs.offset

/-- `profile_instr_map`. `data` is the table `offset_to_addr`. -/
structure ProfileInstrMap where
  baseAddress : BitVec 64
  codeSize : BitVec 64
  data : List AddrEntry
  deriving DecidableEq, Repr

namespace ProfileInstrMap

/-- `set`, with what `std::sort` leaves of `b.data`. -/
def set (b : InstrMapBuilder) (sorted : List AddrEntry) : ProfileInstrMap where
  baseAddress := b.codeBase
  codeSize := b.codeSize
  data := sorted

def relocate (m : ProfileInstrMap) (newBase : BitVec 64) : ProfileInstrMap :=
  { m with baseAddress := newBase }

/-- The value of `translate` outside the code. -/
def noAddress : BitVec 32 := 0xFFFFFFFF

/-- The loop of `translate`. -/
def search (data : List AddrEntry) (offset : BitVec 32) (lower upper : Nat) : Option Nat :=
  if 1 < upper - lower then
    let mid := lower + (upper - lower) / 2
    match data[mid]? with
    | none => none
    | some entry =>
      if entry.offset ≤ offset then search data offset mid upper else search data offset lower mid
  else
    some lower
termination_by upper - lower
decreasing_by all_goals omega

/-- `translate`. The difference wraps around below the base. -/
def translate (m : ProfileInstrMap) (pc : BitVec 64) : Option (BitVec 32) :=
  let diff := pc - m.baseAddress
  if m.codeSize ≤ diff then
    some noAddress
  else do
    let first ← m.data[0]?
    if diff < first.offset.setWidth 64 then
      some noAddress
    else
      let lower ← search m.data (diff.setWidth 32) 0 m.data.length
      let entry ← m.data[lower]?
      some entry.wasmAddr

end ProfileInstrMap

end EosVm
