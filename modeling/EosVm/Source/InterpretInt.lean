import EosVm.Source.InterpretVisitor
import EosVm.Spec.IntOps

/-!
# The interpreter's integer instructions

The operators of `interpret_visitor.hpp` for the scalar integer instructions, with the arithmetic of
the language on `int32_t`, `uint32_t`, `int64_t` and `uint64_t`. The operators of `i32` and `i64`
differ in the type and in their messages.
-/

set_option autoImplicit false

namespace EosVm

/-- `i32_const_t` and `i64_const_t`. -/
def OperandStackElem.ofBits : (t : IntType) → BitVec t.bits → OperandStackElem
  | .i32, data => .i32 data
  | .i64, data => .i64 data

/-- `to_ui32` and `to_ui64`. -/
def OperandStackElem.toBits : (t : IntType) → OperandStackElem → Option (BitVec t.bits)
  | .i32, .i32 data => some data
  | .i64, .i64 data => some data
  | _, _ => none

@[simp] theorem OperandStackElem.toBits_ofBits (t : IntType) (a : BitVec t.bits) :
    toBits t (ofBits t a) = some a := by
  cases t <;> rfl

/-- `mask` of the shifts. -/
def IntType.mask (t : IntType) : Nat := t.bits - 1

section Operators

variable {t : IntType}

/-- The comparison operators. -/
def interpRel (lhs rhs : BitVec t.bits) : IRelOp → Bool
  | .eq => lhs.toNat == rhs.toNat
  | .ne => lhs.toNat != rhs.toNat
  | .ltS => lhs.toInt < rhs.toInt
  | .ltU => lhs.toNat < rhs.toNat
  | .gtS => lhs.toInt > rhs.toInt
  | .gtU => lhs.toNat > rhs.toNat
  | .leS => lhs.toInt ≤ rhs.toInt
  | .leU => lhs.toNat ≤ rhs.toNat
  | .geS => lhs.toInt ≥ rhs.toInt
  | .geU => lhs.toNat ≥ rhs.toNat

/-- `lhs == std::numeric_limits<T>::min() && rhs == -1`. -/
def divOverflows (lhs rhs : BitVec t.bits) : Bool :=
  lhs.toInt == -2 ^ (t.bits - 1) && rhs.toInt == -1

/-- The `c` of the rotations, a `uint32_t` for both types. -/
def rotateCount (rhs : BitVec t.bits) : BitVec 32 := rhs.setWidth 32 &&& BitVec.ofNat 32 t.mask

/-- `-c & mask`. -/
def rotateBack (rhs : BitVec t.bits) : Nat :=
  (-rotateCount rhs &&& BitVec.ofNat 32 t.mask).toNat

/-- The message of a division by zero. `i64.rem_u` has that of `i64.rem_s`. -/
def divideByZero (t : IntType) (op : IBinOp) : VmError :=
  let name := match t, op with
    | .i32, .divS => "i32.div_s"
    | .i32, .divU => "i32.div_u"
    | .i32, .remS => "i32.rem_s"
    | .i32, _ => "i32.rem_u"
    | .i64, .divS => "i64.div_s"
    | .i64, .divU => "i64.div_u"
    | .i64, _ => "i64.rem_s"
  .wasmInterpreter (name ++ " divide by zero")

def divTraps : IntType → VmError
  | .i32 => .wasmInterpreter "i32.div_s traps when I32_MAX/-1"
  | .i64 => .wasmInterpreter "i64.div_s traps when I64_MAX/-1"

/-- The arithmetic operators. -/
def interpBin (lhs rhs : BitVec t.bits) : IBinOp → Except VmError (BitVec t.bits)
  | .add => pure (lhs + rhs)
  | .sub => pure (lhs - rhs)
  | .mul => pure (lhs * rhs)
  | .divS => do
    vmAssert (rhs.toInt != 0) (divideByZero t .divS)
    vmAssert (!divOverflows lhs rhs) (divTraps t)
    pure (BitVec.ofInt t.bits (lhs.toInt.tdiv rhs.toInt))
  | .divU => do
    vmAssert (rhs.toNat != 0) (divideByZero t .divU)
    pure (BitVec.ofNat t.bits (lhs.toNat / rhs.toNat))
  | .remS => do
    vmAssert (rhs.toInt != 0) (divideByZero t .remS)
    if divOverflows lhs rhs then pure 0
    else pure (BitVec.ofInt t.bits (lhs.toInt.tmod rhs.toInt))
  | .remU => do
    vmAssert (rhs.toNat != 0) (divideByZero t .remU)
    pure (BitVec.ofNat t.bits (lhs.toNat % rhs.toNat))
  | .and => pure (lhs &&& rhs)
  | .or => pure (lhs ||| rhs)
  | .xor => pure (lhs ^^^ rhs)
  | .shl => pure (lhs <<< (rhs &&& BitVec.ofNat t.bits t.mask).toNat)
  | .shrS => pure (lhs.sshiftRight (rhs &&& BitVec.ofNat t.bits t.mask).toNat)
  | .shrU => pure (lhs >>> (rhs &&& BitVec.ofNat t.bits t.mask).toNat)
  | .rotl => pure (lhs <<< (rotateCount rhs).toNat ||| lhs >>> rotateBack rhs)
  | .rotr => pure (lhs >>> (rotateCount rhs).toNat ||| lhs <<< rotateBack rhs)

end Operators

/-- The operators with one operand. The bit counting functions are undefined for zero. -/
def interpUnary : (u : IUnaryInstr) → BitVec u.arg.bits → BitVec u.res.bits
  | .eqz _, oper => boolBits 32 (oper.toNat == 0)
  | .clz t, oper => if oper.toNat = 0 then BitVec.ofNat t.bits t.bits else oper.clz
  | .ctz t, oper => if oper.toNat = 0 then BitVec.ofNat t.bits t.bits else oper.ctz
  | .popcnt _, oper => oper.cpop
  | .wrap, oper => oper.setWidth 32
  | .extendI32S, oper => BitVec.ofInt 64 oper.toInt
  | .extendI32U, oper => BitVec.ofNat 64 oper.toNat
  | .extend8S t, oper => BitVec.ofInt t.bits (oper.setWidth 8).toInt
  | .extend16S t, oper => BitVec.ofInt t.bits (oper.setWidth 16).toInt
  | .extend32S, oper => BitVec.ofInt 64 (oper.setWidth 32).toInt

/-- The operators with two operands. -/
def interpBinary : (i : IBinaryInstr) → BitVec i.arg.bits → BitVec i.arg.bits →
    Except VmError (BitVec i.res.bits)
  | .rel _ op, lhs, rhs => pure (boolBits 32 (interpRel lhs rhs op))
  | .bin _ op, lhs, rhs => interpBin lhs rhs op

/-- `operator()` of an instruction with one operand. -/
def visitUnary (u : IUnaryInstr) : Operator := fun st =>
  match st.os with
  | e :: os =>
    match e.toBits u.arg with
    | some oper => pure { st with pc := st.pc + 1, os := .ofBits u.res (interpUnary u oper) :: os }
    | none => .error (.outOfRange, st)
  | [] => .error (.outOfRange, st)

/-- `operator()` of an instruction with two operands. -/
def visitBinary (i : IBinaryInstr) : Operator := fun st =>
  match st.os with
  | e :: e' :: os =>
    match e.toBits i.arg, e'.toBits i.arg with
    | some rhs, some lhs => do
      let st := { st with pc := st.pc + 1, os := e' :: os }
      let result ← st.check (interpBinary i lhs rhs)
      pure { st with os := .ofBits i.res result :: os }
    | _, _ => .error (.outOfRange, st)
  | _ => .error (.outOfRange, st)

end EosVm
