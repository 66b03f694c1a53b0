import EosVm.Lib.X86.Relocation
import EosVm.Source.JitInt
import EosVm.Spec.Expressions

/-!
# Folding of recent operations

`recent_ops` of `machine_code_writer`: the operations that the next instruction may take back, in
expressions of constants, locals and the scalar integer instructions. Positions count instructions,
which all have at least one byte, so they are equal where the addresses are.
-/

set_option autoImplicit false

namespace EosVm

open Lib.X86

/-- `recent_op_t`. `op` is there for the kinds that integer instructions fold,
and `stop` is `end`. -/
structure RecentSlot where
  start : Nat
  stop : Nat
  op : Option RecentOp
  deriving DecidableEq, Repr

/-- The code and `recent_ops`, an empty one of which is `none`. Positions count instructions. -/
structure Peephole where
  code : List (Lib.X86.Instr JitHandler) := []
  recent0 : Option RecentSlot := none
  recent1 : Option RecentSlot := none
  deriving DecidableEq, Repr

/-- What the code of an instruction ends with: a call of `emit_push`, after which the code from
`setcc` on may be noted as a `condition_op`. Pushes that are written as bytes are not noted. -/
inductive CodeEnd where
  | bytes
  | push (r : Reg)
  | condition (r : Reg)
  deriving DecidableEq, Repr

namespace Peephole

/-- `push_recent_op`. -/
def pushRecentOp (start : Nat) (op : Option RecentOp) (st : Peephole) : Peephole :=
  { st with
    recent0 := if st.recent1.map (·.stop) = some st.code.length then st.recent0 else st.recent1
    recent1 := some ⟨start, st.code.length, op⟩ }

/-- The operations of the slots that end at `stop` and where the next one starts,
with their starts. -/
def chain : List (Option RecentSlot) → Nat → List (Nat × RecentOp)
  | some ⟨start, stop', some op⟩ :: slots, stop =>
    if stop' = stop then (start, op) :: chain slots start else []
  | _, _ => []

/-- What `try_pop_recent_op` can take back, one after the other. -/
def recents (st : Peephole) : List (Nat × RecentOp) :=
  chain [st.recent1, st.recent0] st.code.length

/-- `n` calls of `try_pop_recent_op` that take an operation back. -/
def takeBack : Nat → Peephole → Peephole
  | 0, st => st
  | n + 1, st =>
    match st.recent1 with
    | some r => takeBack n ⟨st.code.take r.start, none, st.recent0⟩
    | none => st

def append (ops : List Op) (st : Peephole) : Peephole := { st with code := st.code ++ ops.map .op }

/-- `emit_push`. -/
def emitPush (r : Reg) (st : Peephole) : Peephole :=
  (st.append [.push r]).pushRecentOp st.code.length (some (.push r))

/-- An operation and the push of `rax`, which are a more specific operation together. -/
def emitRecent (o : Op) (op : RecentOp) (st : Peephole) : Peephole :=
  ((st.append [o]).emitPush .rax).pushRecentOp st.code.length (some op)

/-- `emit_i32_const`. -/
def emitI32Const (v : BitVec 32) : Peephole → Peephole :=
  emitRecent (if v = 0 then .alu .xor .w32 .rax (.reg .rax) else .mov .w32 .rax (.imm v))
    (.i32Const v)

/-- `emit_i64_const`. -/
def emitI64Const (v : BitVec 64) : Peephole → Peephole := emitRecent (.movImm64 .rax v)
    (.i64Const v)

/-- `emit_get_local` for a scalar. -/
def emitGetLocal (disp : Int) : Peephole → Peephole :=
  emitRecent (.mov .w64 .rax (.mem .rbp disp)) (.getLocal disp)

/-- The code of an instruction, which takes back the operations that it folds. When `try_undo_push`
takes back the push of a local, the code of the local is left: it is the first operation of the code
here. The slot that is cleared then is kept here, but ends before the code from now on. -/
def emitCode (c : IntCode) (last : CodeEnd) (st : Peephole) : Peephole :=
  let before := st.takeBack c.folded.length
  let after : Peephole :=
    { before with code := before.code ++ c.code.map (Lib.X86.Instr.shift before.code.length) }
  match last with
  | .bytes => after
  | .push r => after.pushRecentOp (after.code.length - 1) (some (.push r))
  | .condition r =>
    (after.pushRecentOp (after.code.length - 1) (some (.push r))).pushRecentOp
      (after.code.length - 2) none

end Peephole

def IUnaryInstr.codeEnd : IUnaryInstr → CodeEnd
  | .eqz .i32 => .condition .rcx
  | .clz .i32 | .ctz .i32 | .popcnt .i32 | .wrap => .push .rax
  | _ => .bytes

def IBinaryInstr.codeEnd : IBinaryInstr → CodeEnd
  | .rel .i32 _ => .condition .rdx
  | .bin .i32 .remS | .bin .i32 .remU => .push .rdx
  | .bin .i32 _ => .push .rax
  | .bin .i64 .add | .bin .i64 .mul | .bin .i64 .shl | .bin .i64 .shrS | .bin .i64 .shrU =>
    .push .rax
  | .rel .i64 _ | .bin .i64 _ => .bytes

namespace Peephole

/-- The code of an instruction; `offset` is `get_frame_offset`. -/
def emitInstr (tzcnt : Bool) (offset : Nat → Int) (st : Peephole) : ExprInstr → Peephole
  | .i32Const v => st.emitI32Const v
  | .i64Const v => st.emitI64Const v
  | .getLocal i => st.emitGetLocal (offset i)
  | .unary u => st.emitCode (emitUnary tzcnt (st.recents.map (·.2)) u) u.codeEnd
  | .binary i => st.emitCode (emitBinary (st.recents.map (·.2)) i) i.codeEnd

def emitInstrs (tzcnt : Bool) (offset : Nat → Int) (st : Peephole) (instrs : List ExprInstr) :
    Peephole := instrs.foldl (emitInstr tzcnt offset) st

end Peephole

end EosVm
