import EosVm.Lib.Lanes

/-!
# Vector instructions of WebAssembly

What WebAssembly defines as the result of the integer vector instructions that no single instruction
of the processor computes.
-/

set_option autoImplicit false

namespace EosVm

open Lib

/-- The shapes with lanes that can be widened. -/
inductive NarrowShape where
  | i8x16 | i16x8 | i32x4
  deriving DecidableEq, Repr

@[reducible, simp] def NarrowShape.bits : NarrowShape → Nat
  | .i8x16 => 8
  | .i16x8 => 16
  | .i32x4 => 32

/-- Unsigned comparisons. -/
inductive VRelOp where
  | ltU | gtU | leU | geU
  deriving DecidableEq, Repr

/-- Instructions with one vector. -/
inductive VUnaryInstr where
  | i8x16Popcnt | i64x2Abs
  deriving DecidableEq, Repr

/-- Instructions with two vectors. The lanes of `i8x16.shuffle` are below 32 in a valid module.
`extmul` has the shape of its operands. -/
inductive VBinaryInstr where
  | shuffle (lanes : Fin 16 → Fin 32)
  | swizzle
  | relU (shape : NarrowShape) (op : VRelOp)
  | q15mulrSatS
  | i64x2Mul
  | extmul (shape : NarrowShape) (high signed : Bool)

/-- Instructions with a vector and a count. -/
inductive VShiftInstr where
  | i8x16Shl | i8x16ShrS | i8x16ShrU | i64x2ShrS
  deriving DecidableEq, Repr

def VRelOp.eval {n : Nat} (a b : BitVec n) : VRelOp → Bool
  | .ltU => a.ult b
  | .gtU => b.ult a
  | .leU => a.ule b
  | .geU => b.ule a

def VUnaryInstr.eval (c : BitVec 128) : VUnaryInstr → BitVec 128
  | .i8x16Popcnt => mapLanes 8 BitVec.cpop c
  | .i64x2Abs => mapLanes 64 (fun a => if a.msb then -a else a) c

/-- `sat_s` to 16 bits. -/
def satS (a : Int) : BitVec 16 := BitVec.ofInt 16 (max (-2 ^ 15) (min a (2 ^ 15 - 1)))

/-- The first lane that `extmul` reads. -/
def extmulStart (shape : NarrowShape) (high : Bool) : Nat := if high then 64 / shape.bits else 0

def VBinaryInstr.eval (c₁ c₂ : BitVec 128) : VBinaryInstr → BitVec 128
  | .shuffle lanes =>
    ofLanes 8 fun i =>
      let l := (lanes (Fin.ofNat 16 i)).val
      if l < 16 then lane 8 c₁ l else lane 8 c₂ (l - 16)
  | .swizzle =>
    ofLanes 8 fun i => if (lane 8 c₂ i).toNat < 16 then lane 8 c₁ (lane 8 c₂ i).toNat else 0
  | .relU shape op => zipLanes shape.bits (fun a b => fill shape.bits (op.eval a b)) c₁ c₂
  | .q15mulrSatS => zipLanes 16 (fun a b => satS ((a.toInt * b.toInt + 0x4000) / 2 ^ 15)) c₁ c₂
  | .i64x2Mul => zipLanes 64 (· * ·) c₁ c₂
  | .extmul shape high signed =>
    ofLanes (2 * shape.bits) fun k =>
      extendTo signed (2 * shape.bits) (lane shape.bits c₁ (extmulStart shape high + k)) *
        extendTo signed (2 * shape.bits) (lane shape.bits c₂ (extmulStart shape high + k))

/-- Counts are taken modulo the width of a lane. -/
def VShiftInstr.eval (c : BitVec 128) (count : BitVec 32) : VShiftInstr → BitVec 128
  | .i8x16Shl => mapLanes 8 (· <<< (count.toNat % 8)) c
  | .i8x16ShrS => mapLanes 8 (BitVec.sshiftRight · (count.toNat % 8)) c
  | .i8x16ShrU => mapLanes 8 (· >>> (count.toNat % 8)) c
  | .i64x2ShrS => mapLanes 64 (BitVec.sshiftRight · (count.toNat % 64)) c

/-- `i16x8.bitmask`. -/
def i16x8Bitmask (c : BitVec 128) : BitVec 32 :=
  (BitVec.ofBoolListLE ((List.range 8).map fun i => (lane 16 c i).msb)).setWidth 32

end EosVm
