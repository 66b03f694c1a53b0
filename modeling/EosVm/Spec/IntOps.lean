import Mathlib.Algebra.Order.Ring.Int
import Mathlib.Data.BitVec

/-!
# Integer instructions of WebAssembly

What WebAssembly defines as the result of the scalar integer instructions, on bit vectors. A trap is
`none`.
-/

set_option autoImplicit false

namespace EosVm

inductive IntType where
  | i32 | i64
  deriving DecidableEq, Repr

@[reducible, simp] def IntType.bits : IntType → Nat
  | .i32 => 32
  | .i64 => 64

inductive IRelOp where
  | eq | ne | ltS | ltU | gtS | gtU | leS | leU | geS | geU
  deriving DecidableEq, Repr

inductive IBinOp where
  | add | sub | mul | divS | divU | remS | remU | and | or | xor | shl | shrS | shrU | rotl | rotr
  deriving DecidableEq, Repr

/-- Instructions with one operand. `extendI32S` and `extendI32U` are `i64.extend_i32_s` and
`i64.extend_i32_u`; the other extensions keep the type. -/
inductive IUnaryInstr where
  | eqz (t : IntType)
  | clz (t : IntType)
  | ctz (t : IntType)
  | popcnt (t : IntType)
  | wrap
  | extendI32S
  | extendI32U
  | extend8S (t : IntType)
  | extend16S (t : IntType)
  | extend32S
  deriving DecidableEq, Repr

/-- Instructions with two operands. -/
inductive IBinaryInstr where
  | rel (t : IntType) (op : IRelOp)
  | bin (t : IntType) (op : IBinOp)
  deriving DecidableEq, Repr

namespace IUnaryInstr

@[reducible, simp] def arg : IUnaryInstr → IntType
  | .eqz t | .clz t | .ctz t | .popcnt t | .extend8S t | .extend16S t => t
  | .extendI32S | .extendI32U => .i32
  | .wrap | .extend32S => .i64

@[reducible, simp] def res : IUnaryInstr → IntType
  | .clz t | .ctz t | .popcnt t | .extend8S t | .extend16S t => t
  | .eqz _ | .wrap => .i32
  | .extendI32S | .extendI32U | .extend32S => .i64

end IUnaryInstr

@[reducible, simp] def IBinaryInstr.arg : IBinaryInstr → IntType
  | .rel t _ | .bin t _ => t

@[reducible, simp] def IBinaryInstr.res : IBinaryInstr → IntType
  | .rel _ _ => .i32
  | .bin t _ => t

/-- `true` is one. -/
def boolBits (n : Nat) (b : Bool) : BitVec n := if b then 1#n else 0#n

def IRelOp.eval {n : Nat} (a b : BitVec n) : IRelOp → Bool
  | .eq => a == b
  | .ne => a != b
  | .ltS => a.slt b
  | .ltU => a.ult b
  | .gtS => b.slt a
  | .gtU => b.ult a
  | .leS => a.sle b
  | .leU => a.ule b
  | .geS => b.sle a
  | .geU => b.ule a

/-- Shift and rotation counts are taken modulo the width. -/
def IBinOp.eval {n : Nat} (a b : BitVec n) : IBinOp → Option (BitVec n)
  | .add => some (a + b)
  | .sub => some (a - b)
  | .mul => some (a * b)
  | .divS => if b = 0 ∨ a = BitVec.intMin n ∧ b = -1 then none else some (a.sdiv b)
  | .divU => if b = 0 then none else some (a.udiv b)
  | .remS => if b = 0 then none else some (a.srem b)
  | .remU => if b = 0 then none else some (a.umod b)
  | .and => some (a &&& b)
  | .or => some (a ||| b)
  | .xor => some (a ^^^ b)
  | .shl => some (a <<< (b.toNat % n))
  | .shrS => some (a.sshiftRight (b.toNat % n))
  | .shrU => some (a >>> (b.toNat % n))
  | .rotl => some (a.rotateLeft (b.toNat % n))
  | .rotr => some (a.rotateRight (b.toNat % n))

def IUnaryInstr.eval : (u : IUnaryInstr) → BitVec u.arg.bits → BitVec u.res.bits
  | .eqz _, a => boolBits 32 (a == 0)
  | .clz _, a => a.clz
  | .ctz _, a => a.ctz
  | .popcnt _, a => a.cpop
  | .wrap, a => a.setWidth 32
  | .extendI32S, a => a.signExtend 64
  | .extendI32U, a => a.setWidth 64
  | .extend8S t, a => (a.setWidth 8).signExtend t.bits
  | .extend16S t, a => (a.setWidth 16).signExtend t.bits
  | .extend32S, a => (a.setWidth 32).signExtend 64

def IBinaryInstr.eval : (i : IBinaryInstr) → BitVec i.arg.bits → BitVec i.arg.bits →
    Option (BitVec i.res.bits)
  | .rel _ op, a, b => some (boolBits 32 (op.eval a b))
  | .bin _ op, a, b => op.eval a b

end EosVm
