import EosVm.Spec.IntOps

/-!
# Expressions of integer instructions

Sequences of constants, locals and the scalar integer instructions, and what WebAssembly defines for
them.
-/

set_option autoImplicit false

namespace EosVm

/-- Instructions of an expression. -/
inductive ExprInstr where
  | i32Const (v : BitVec 32)
  | i64Const (v : BitVec 64)
  | getLocal (i : Nat)
  | unary (u : IUnaryInstr)
  | binary (i : IBinaryInstr)
  deriving DecidableEq, Repr

/-- A value of an integer type. -/
abbrev IntValue := (t : IntType) × BitVec t.bits

/-- What WebAssembly defines for the instructions of an expression, on an operand stack with its top
first; a trap is `none`. -/
inductive Evaluates (locals : Nat → IntValue) :
    List ExprInstr → List IntValue → Option (List IntValue) → Prop where
  | nil (values : List IntValue) : Evaluates locals [] values (some values)
  | i32Const {v : BitVec 32} {instrs values result}
      (h : Evaluates locals instrs (⟨.i32, v⟩ :: values) result) :
      Evaluates locals (.i32Const v :: instrs) values result
  | i64Const {v : BitVec 64} {instrs values result}
      (h : Evaluates locals instrs (⟨.i64, v⟩ :: values) result) :
      Evaluates locals (.i64Const v :: instrs) values result
  | getLocal {i : Nat} {instrs values result}
      (h : Evaluates locals instrs (locals i :: values) result) :
      Evaluates locals (.getLocal i :: instrs) values result
  | unary {u : IUnaryInstr} {a : BitVec u.arg.bits} {instrs values result}
      (h : Evaluates locals instrs (⟨u.res, u.eval a⟩ :: values) result) :
      Evaluates locals (.unary u :: instrs) (⟨u.arg, a⟩ :: values) result
  | binary {i : IBinaryInstr} {a b : BitVec i.arg.bits} {c : BitVec i.res.bits}
      {instrs values result}
      (heval : i.eval a b = some c) (h : Evaluates locals instrs (⟨i.res, c⟩ :: values) result) :
      Evaluates locals (.binary i :: instrs) (⟨i.arg, b⟩ :: ⟨i.arg, a⟩ :: values) result
  | trap {i : IBinaryInstr} {a b : BitVec i.arg.bits} {instrs values}
      (heval : i.eval a b = none) :
      Evaluates locals (.binary i :: instrs) (⟨i.arg, b⟩ :: ⟨i.arg, a⟩ :: values) none

end EosVm
