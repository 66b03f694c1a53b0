import EosVm.Lib.FloatFormat

/-!
# Rounding on bit patterns

The rounding functions of `softfloat.hpp` that work on the pattern. `is_nan` is `f32_is_nan` and
`f64_is_nan` of the softfloat library, a parameter here; `arithNan` is the template argument
`ArithNan`.
-/

set_option autoImplicit false

namespace EosVm

section Single

variable (isNan : BitVec 32 → Bool) (arithNan : Bool) (a : BitVec 32)

/-- `propagate_nan`. -/
def propagateNan32 : BitVec 32 := if arithNan then a ||| 0x00400000 else a

def eosioF32Ceil : BitVec 32 :=
  let e : Int := (a >>> 23 &&& 0xFF).toNat - 0x7F
  if arithNan && isNan a then
    propagateNan32 arithNan a
  else if 23 ≤ e then
    a
  else if 0 ≤ e then
    let m := (0x007FFFFF : BitVec 32) >>> e.toNat
    if a &&& m = 0 then
      a
    else
      (if a >>> 31 = 0 then a + m else a) &&& ~~~m
  else if a >>> 31 ≠ 0 then
    0x80000000
  else if a <<< 1 ≠ 0 then
    0x3F800000
  else
    a

def eosioF32Floor : BitVec 32 :=
  let e : Int := (a >>> 23 &&& 0xFF).toNat - 0x7F
  if arithNan && isNan a then
    propagateNan32 arithNan a
  else if 23 ≤ e then
    a
  else if 0 ≤ e then
    let m := (0x007FFFFF : BitVec 32) >>> e.toNat
    if a &&& m = 0 then
      a
    else
      (if a >>> 31 ≠ 0 then a + m else a) &&& ~~~m
  else if a >>> 31 = 0 then
    0
  else if a <<< 1 ≠ 0 then
    0xBF800000
  else
    a

def eosioF32Trunc : BitVec 32 :=
  let e : Int := (a >>> 23 &&& 0xFF).toNat - 0x7F + 9
  if arithNan && isNan a then
    propagateNan32 arithNan a
  else if 23 + 9 ≤ e then
    a
  else
    let e := if e < 9 then 1 else e
    let m := (0xFFFFFFFF : BitVec 32) >>> e.toNat
    if a &&& m = 0 then a else a &&& ~~~m

end Single

section Double

variable (isNan : BitVec 64 → Bool) (arithNan : Bool) (a : BitVec 64)

/-- `propagate_nan`. -/
def propagateNan64 : BitVec 64 := if arithNan then a ||| 0x0008000000000000 else a

def eosioF64Trunc : BitVec 64 :=
  let e : Int := (a >>> 52 &&& 0x7FF).toNat - 0x3FF + 12
  if arithNan && isNan a then
    propagateNan64 arithNan a
  else if 52 + 12 ≤ e then
    a
  else
    let e := if e < 12 then 1 else e
    let m := (0xFFFFFFFFFFFFFFFF : BitVec 64) >>> e.toNat
    if a &&& m = 0 then a else a &&& ~~~m

end Double

end EosVm
