import EosVm.Source.InterpretVisitor
import EosVm.Spec.SimdOps

/-!
# The interpreter's vector instructions

The operators of `interpret_visitor.hpp` for these instructions. A vector is copied to an array of
integers and back, so an element of the array is a lane. The functions are applied to promoted
integers and their result is truncated to an element.
-/

set_option autoImplicit false

namespace EosVm

open Lib

/-- `v128_unop`. -/
def v128Unop (w : Nat) (f : BitVec w → BitVec w) (c₁ : BitVec 128) : BitVec 128 :=
  ofLanes w fun i => f (lane w c₁ i)

/-- `v128_binop`. -/
def v128Binop (w : Nat) (f : BitVec w → BitVec w → BitVec w) (c₁ c₂ : BitVec 128) : BitVec 128 :=
  ofLanes w fun i => f (lane w c₁ i) (lane w c₂ i)

/-- `static_cast<std::remove_extent_t<R>>(a[i]) * b[i]`, with elements of `w` bits. -/
def extProduct {w : Nat} (signed : Bool) (a b : BitVec w) : BitVec (2 * w) :=
  if signed then BitVec.ofInt (2 * w) (a.toInt * b.toInt)
  else BitVec.ofNat (2 * w) (a.toNat * b.toNat)

/-- `v128_extmul`. Only `a` is moved to the upper half. -/
def v128Extmul (w : Nat) (signed high : Bool) (c₁ c₂ : BitVec 128) : BitVec 128 :=
  let n := 128 / (2 * w)
  let a := fun i => lane w c₁ (i + if high then n else 0)
  let b := fun i => lane w c₂ i
  ofLanes (2 * w) fun i => extProduct signed (a i) (b i)

def interpVUnary (c₁ : BitVec 128) : VUnaryInstr → BitVec 128
  | .i8x16Popcnt => v128Unop 8 BitVec.cpop c₁
  | .i64x2Abs =>
    -- the negation of the least integer wraps around
    v128Unop 64 (fun a => if a.toInt < 0 then BitVec.ofInt 64 (-a.toInt) else a) c₁

def interpVRel {w : Nat} (a b : BitVec w) : VRelOp → Bool
  | .ltU => a.toNat < b.toNat
  | .gtU => a.toNat > b.toNat
  | .leU => a.toNat ≤ b.toNat
  | .geU => a.toNat ≥ b.toNat

/-- The `tmp` of `i16x8.q15mulr_sat_s`. -/
def q15mulr (a b : BitVec 16) : BitVec 16 :=
  let tmp := BitVec.ofInt 16 ((a.toInt * b.toInt + 0x4000) / 2 ^ 15)
  if tmp = 0x8000 then 0x7fff else tmp

def interpVBinary (c₁ c₂ : BitVec 128) : VBinaryInstr → BitVec 128
  | .shuffle lanes =>
    let a := fun i => if i < 16 then lane 8 c₁ i else lane 8 c₂ (i - 16)
    ofLanes 8 fun i => a (lanes (Fin.ofNat 16 i))
  | .swizzle =>
    let i2 := fun i => (lane 8 c₂ i).toNat
    ofLanes 8 fun i => if i2 i < 16 then lane 8 c₁ (i2 i) else 0
  | .relU shape op =>
    v128Binop shape.bits (fun a b => if interpVRel a b op then BitVec.ofInt _ (-1) else 0) c₁ c₂
  | .q15mulrSatS => v128Binop 16 q15mulr c₁ c₂
  | .i64x2Mul => v128Binop 64 (· * ·) c₁ c₂
  | .extmul shape high signed => v128Extmul shape.bits signed high c₁ c₂

def interpVShift (c₁ : BitVec 128) (count : BitVec 32) : VShiftInstr → BitVec 128
  | .i8x16Shl => v128Unop 8 (fun a => BitVec.ofNat 8 (a.toNat <<< (count &&& 7).toNat)) c₁
  | .i8x16ShrS => v128Unop 8 (fun a => BitVec.ofInt 8 (a.toInt >>> (count &&& 7).toNat)) c₁
  | .i8x16ShrU => v128Unop 8 (fun a => BitVec.ofNat 8 (a.toNat >>> (count &&& 7).toNat)) c₁
  | .i64x2ShrS => v128Unop 64 (fun a => BitVec.ofInt 64 (a.toInt >>> (count &&& 0x3f).toNat)) c₁

/-- The loop of `i16x8.bitmask`. -/
def interpBitmask (a : BitVec 128) : BitVec 32 :=
  (List.range 8).foldl
    (fun result i => result ||| (if (lane 16 a i).toInt < 0 then 1#32 else 0#32) <<< i) 0

/-- `operator()` of an instruction with one vector. -/
def visitVUnary (u : VUnaryInstr) : Operator := fun st =>
  match st.os with
  | .v128 c₁ :: os => pure { st with pc := st.pc + 1, os := .v128 (interpVUnary c₁ u) :: os }
  | _ => .error (.outOfRange, st)

/-- `operator()` of an instruction with two vectors. -/
def visitVBinary (i : VBinaryInstr) : Operator := fun st =>
  match st.os with
  | .v128 c₂ :: .v128 c₁ :: os =>
    pure { st with pc := st.pc + 1, os := .v128 (interpVBinary c₁ c₂ i) :: os }
  | _ => .error (.outOfRange, st)

/-- `operator()` of an instruction with a vector and a count. -/
def visitVShift (i : VShiftInstr) : Operator := fun st =>
  match st.os with
  | .i32 count :: .v128 c₁ :: os =>
    pure { st with pc := st.pc + 1, os := .v128 (interpVShift c₁ count i) :: os }
  | _ => .error (.outOfRange, st)

/-- `operator()(const i16x8_bitmask_t&)`. -/
def visitBitmask : Operator := fun st =>
  match st.os with
  | .v128 c₁ :: os => pure { st with pc := st.pc + 1, os := .i32 (interpBitmask c₁) :: os }
  | _ => .error (.outOfRange, st)

end EosVm
