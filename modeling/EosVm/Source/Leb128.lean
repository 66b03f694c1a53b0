import EosVm.Source.GuardedPtr

/-!
# LEB128 numbers

`leb128.hpp`: `varuint<N>` and `varint<N>` with their constructors and `to`. The code pointer is the
state that a constructor changes, so it keeps what was done to it when an exception is thrown. The
parser's functions in `GuardedPtr` construct a number and call `to`.
-/

set_option autoImplicit false

namespace EosVm

/-- A function with a `guarded_ptr<uint8_t>&`: its result, and the pointer when it ends. -/
abbrev CodeM (α : Type) := WasmCodePtr → Except VmError α × WasmCodePtr

def bytesNeeded (N : Nat) : Nat :=
  if N = 1 ∨ N = 7 then 1 else if N = 32 then 5 else 10

/-- The members of `varuint<N>` and `varint<N>`, without the bytes that are not used. -/
structure Leb128 where
  storage : List UInt8
  bytesUsed : Nat
  deriving DecidableEq, Repr

/-- `uint8_t(~uint32_t(0) << (N - 7 * (bytes_needed<N>() - 1))) & 0x7F`. -/
def unusedMask (N : Nat) : UInt8 :=
  ⟨(BitVec.allOnes 32 <<< (N - 7 * (bytesNeeded N - 1))).setWidth 8⟩ &&& 0x7F

/-- The constructors from code, with their check of the last byte. -/
def fromCode (N : Nat) (lastOk : UInt8 → Except VmError Unit) : CodeM Leb128 := fun code =>
  match lebBytes lastOk code (bytesNeeded N) 0 with
  | .error e => (.error e, code)
  | .ok storage =>
    match code.advance storage.length with
    | .error e => (.error e, code)
    | .ok next => (.ok ⟨storage, storage.length⟩, next)

/-- `varuint<N>(code)`. -/
def varuintFrom (N : Nat) : CodeM Leb128 :=
  fromCode N fun b => vmAssert (unusedMask N &&& b == 0)
    (.wasmParse "unused bits of unsigned leb128 must be 0")

/-- The loop that collects the digits. -/
def collectDigits (w : Nat) (storage : List UInt8) : BitVec w :=
  storage.foldr (fun b ret => ret <<< 7 ||| (b &&& 0x7f).toBitVec.setWidth w) 0

/-- `varuint<N>::to`. -/
def varuintTo (N : Nat) (v : Leb128) : Nat :=
  if N = 1 then (if v.storage.headD 0 = 0 then 0 else 1)
  else if N = 7 then (v.storage.headD 0 &&& 0x7f).toNat
  else (collectDigits 32 v.storage).toNat

/-- The loop of `varuint<N>::from(uint32_t)`. `left` is `bytes_needed<N>() - bytes_used`. -/
def varuintStore : Nat → Nat → BitVec 32 → Leb128
  | 0, bytesUsed, _ => ⟨[], bytesUsed + 1⟩
  | left + 1, bytesUsed, v =>
    let byte : UInt8 := ⟨(v &&& 0x7f).setWidth 8⟩
    let v := v >>> 7
    if v ≠ 0 then
      let rest := varuintStore left (bytesUsed + 1) v
      ⟨(byte ||| 0x80) :: rest.storage, rest.bytesUsed⟩
    else ⟨[byte], bytesUsed + 1⟩

/-- `varuint<32>(uint32_t)`. -/
def varuint32 (v : BitVec 32) : Leb128 := varuintStore (bytesNeeded 32) 0 v

/-- `varint<N>(code)`. -/
def varintFrom (N : Nat) : CodeM Leb128 :=
  fromCode N fun b =>
    let offset := N - 7 * (bytesNeeded N - 1)
    let mask := unusedMask N
    let expected := if b.toBitVec.setWidth 32 &&& (1 <<< (offset - 1)) ≠ 0 then mask else 0
    vmAssert (mask &&& b == expected)
      (.wasmParse "unused bits of signed leb128 must be the same as the sign bit")

/-- `_to`, with an integer of `w` bits. -/
def varintCollect (N w : Nat) (v : Leb128) : BitVec w :=
  let ret := collectDigits w v.storage
  if 1 ≤ v.bytesUsed ∧ v.bytesUsed < bytesNeeded N ∧
      v.storage.getD (v.bytesUsed - 1) 0 &&& 0x40 ≠ 0 then
    ret ||| (BitVec.allOnes 64 <<< (v.bytesUsed * 7)).setWidth w
  else ret

/-- `varint<N>::to`. -/
def varintTo (N : Nat) (v : Leb128) : Int :=
  if N = 7 then
    let b := v.storage.headD 0
    (if b &&& 0x40 ≠ 0 then b.toBitVec ||| (BitVec.allOnes 32 <<< 7).setWidth 8
      else b.toBitVec).toInt
  else if N = 32 then (varintCollect N 32 v).toInt
  else (varintCollect N 64 v).toInt

/-- The loop of `_from`, with an integer of `w` bits. -/
def varintStore {w : Nat} : Nat → Nat → BitVec w → Leb128
  | 0, bytesUsed, _ => ⟨[], bytesUsed + 1⟩
  | left + 1, bytesUsed, v =>
    let byte : UInt8 := ⟨(v &&& 0x7f).setWidth 8⟩
    let v := v.sshiftRight 7
    if (v = -1 ∧ byte &&& 0x40 ≠ 0) ∨ (v = 0 ∧ byte &&& 0x40 = 0) then ⟨[byte], bytesUsed + 1⟩
    else
      let rest := varintStore left (bytesUsed + 1) v
      ⟨(byte ||| 0x80) :: rest.storage, rest.bytesUsed⟩

/-- `varint<32>(int32_t)`. -/
def varint32 (v : BitVec 32) : Leb128 := varintStore (bytesNeeded 32) 0 v

/-- `varint<64>(int64_t)`. -/
def varint64 (v : BitVec 64) : Leb128 := varintStore (bytesNeeded 64) 0 v

/-- Constructs a number from code and converts it. -/
def parseUnsigned (N : Nat) : CodeM Nat := fun code =>
  let (v, code) := varuintFrom N code
  (v.map (varuintTo N), code)

def parseSigned (N : Nat) : CodeM Int := fun code =>
  let (v, code) := varintFrom N code
  (v.map (varintTo N), code)

end EosVm
