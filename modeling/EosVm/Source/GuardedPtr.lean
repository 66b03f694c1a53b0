import EosVm.Source.Types

/-!
# Bounds-checked code pointer

`guarded_ptr.hpp`, `leb128.hpp` and the byte-level readers of `parser.hpp`. A `wasm_code_ptr` is a
position in the underlying memory together with its bound; every access goes through the same
check as in the source, and the scoped guards are written as a change of `bnds` and its restoration
by the caller.
-/

set_option autoImplicit false

namespace EosVm

/-- `guarded_ptr<uint8_t>`: `buf` is the memory, the three pointers are offsets into it. -/
structure WasmCodePtr where
  buf : List UInt8
  raw : Nat
  orig : Nat
  bnds : Nat
  deriving DecidableEq, Repr

namespace WasmCodePtr

/-- `guarded_ptr(rp, bnds)`. -/
def make (buf : List UInt8) (rp size : Nat) : WasmCodePtr := ⟨buf, rp, rp, rp + size⟩

def offset (p : WasmCodePtr) : Nat := p.raw - p.orig

def bounds (p : WasmCodePtr) : Nat := p.bnds - p.orig

/-- `operator*`. -/
def deref (p : WasmCodePtr) : Except VmError UInt8 := do
  vmAssert (p.raw < p.bnds) (.guardedPtr "accessing out of bounds")
  pure (p.buf.getD p.raw 0)

/-- `*code++`. -/
def next (p : WasmCodePtr) : Except VmError (UInt8 × WasmCodePtr) := do
  vmAssert (p.raw < p.bnds) (.guardedPtr "overbounding pointer")
  pure (p.buf.getD p.raw 0, { p with raw := p.raw + 1 })

/-- `operator+=`. -/
def advance (p : WasmCodePtr) (n : Nat) : Except VmError WasmCodePtr := do
  vmAssert (n ≤ p.bnds - p.raw) (.guardedPtr "overbounding pointer")
  pure { p with raw := p.raw + n }

/-- `at(index)`, also `operator[]`. -/
def at_ (p : WasmCodePtr) (index : Nat) : Except VmError UInt8 := do
  vmAssert (index < p.bnds - p.raw) (.guardedPtr "accessing out of bounds")
  pure (p.buf.getD (p.raw + index) 0)

/-- `scoped_shrink_bounds(n)` and the entry of `scoped_consume_items(n)`. The caller restores the
old bound with `restore`. -/
def shrinkBounds (p : WasmCodePtr) (n : Nat) : Except VmError WasmCodePtr := do
  vmAssert (n ≤ p.bnds - p.raw) (.guardedPtr "guarded ptr out of bounds")
  pure { p with bnds := p.raw + n }

/-- The guard's destructor. -/
def restore (p old : WasmCodePtr) : WasmCodePtr := { p with bnds := old.bnds }

/-- The destructor of `scoped_consume_items` when no exception is in flight. -/
def consumed (p old : WasmCodePtr) : Except VmError WasmCodePtr := do
  vmAssert (p.raw == p.bnds) (.guardedPtr "guarded_ptr not advanced")
  pure (p.restore old)

/-- The bytes from the current position to the bound. -/
def remaining (p : WasmCodePtr) : List UInt8 := (p.buf.take p.bnds).drop p.raw

/-- The `n` bytes at the current position, `code.raw() .. code.raw() + n`. -/
def slice (p : WasmCodePtr) (n : Nat) : List UInt8 := (p.buf.drop p.raw).take n

end WasmCodePtr

/-- The loop of `varuint<N>::from` and `varint<N>::from`. `left` is `bytes_needed<N>() - cnt`;
`lastOk` is the check on the unused bits, made only when the last admissible byte is reached. -/
def lebBytes (lastOk : UInt8 → Except VmError Unit) (code : WasmCodePtr) :
    Nat → Nat → Except VmError (List UInt8)
  | 0, _ => .error (.wasmInterpreter "incorrect leb128 encoding")
  | left + 1, cnt => do
    vmAssert (code.offset + cnt < code.bounds) (.wasmInterpreter "pointer out of bounds")
    let b ← code.at_ cnt
    if b &&& 0x80 = 0 then
      if left = 0 then lastOk b
      pure [b]
    else
      let rest ← lebBytes lastOk code left (cnt + 1)
      pure (b :: rest)

/-- The value accumulated by `to()` before it is cut to its width. -/
def lebValue (storage : List UInt8) : Nat :=
  storage.foldr (fun b acc => acc * 128 + (b &&& 0x7f).toNat) 0

/-- `varuint<N>` for `N` in 1, 7, 32 and the mask of its last byte. -/
def parseVaruint (needed : Nat) (mask : UInt8) (width : Nat) (code : WasmCodePtr) :
    Except VmError (Nat × WasmCodePtr) := do
  let storage ← lebBytes
    (fun b => vmAssert (mask &&& b == 0)
      (.wasmParse "unused bits of unsigned leb128 must be 0")) code needed 0
  let code ← code.advance storage.length
  pure (lebValue storage % 2 ^ width, code)

def parseVaruint1 : WasmCodePtr → Except VmError (Nat × WasmCodePtr) := parseVaruint 1 0x7E 1

def parseVaruint32 : WasmCodePtr → Except VmError (Nat × WasmCodePtr) := parseVaruint 5 0x70 32

/-- `varint<N>`: `signBit` is the sign bit of the last admissible byte, `mask` the bits above it.
A shorter encoding is sign-extended from bit `0x40` of its last byte. -/
def parseVarint (needed : Nat) (mask signBit : UInt8) (width : Nat) (code : WasmCodePtr) :
    Except VmError (BitVec width × WasmCodePtr) := do
  let storage ← lebBytes
    (fun b => vmAssert (mask &&& b == if b &&& signBit = 0 then 0 else mask)
      (.wasmParse "unused bits of signed leb128 must be the same as the sign bit")) code needed 0
  let code ← code.advance storage.length
  let ret := BitVec.ofNat width (lebValue storage)
  if storage.length < needed && (storage.getLastD 0 &&& 0x40) != 0 then
    pure (ret ||| (BitVec.allOnes width <<< (7 * storage.length)), code)
  else
    pure (ret, code)

def parseVarint32 : WasmCodePtr → Except VmError (BitVec 32 × WasmCodePtr) :=
  parseVarint 5 0x70 0x08 32

def parseVarint64 : WasmCodePtr → Except VmError (BitVec 64 × WasmCodePtr) :=
  parseVarint 10 0x7E 0x01 64

/-- Little-endian value of a byte sequence, as `memcpy` reads it. -/
def littleEndian (bytes : List UInt8) : Nat :=
  bytes.foldr (fun b acc => acc * 256 + b.toNat) 0

/-- `parse_raw<T>` and `parse_v128` for a type of `n` bytes. -/
def parseRaw (n : Nat) (code : WasmCodePtr) : Except VmError (Nat × WasmCodePtr) := do
  let inner ← code.shrinkBounds n
  let result := littleEndian (inner.slice n)
  let inner ← inner.advance n
  pure (result, inner.restore code)

def utf8Error : VmError := .wasmParse "invalid utf8 encoding"

/-- A continuation byte `10xxxxxx`; returns its payload. -/
def utf8Continuation (code : WasmCodePtr) : Except VmError (Nat × WasmCodePtr) := do
  let (b, code) ← code.next
  vmAssert (b &&& 0xC0 == 0x80) utf8Error
  pure (b.toNat - 0x80, code)

/-- `validate_utf8_code_point`: the length of the code point. -/
def validateUtf8CodePoint (code : WasmCodePtr) : Except VmError (Nat × WasmCodePtr) := do
  let (ch, code) ← code.next
  if ch < 0x80 then
    pure (1, code)
  else if ch < 0xE0 then
    vmAssert (ch &&& 0xC0 == 0xC0) utf8Error
    let (b2, code) ← utf8Continuation code
    let codePoint := (ch.toNat - 0xC0) * 2 ^ 6 + b2
    vmAssert (0x80 ≤ codePoint && codePoint < 0x800) utf8Error
    pure (2, code)
  else if ch < 0xF0 then
    let (b2, code) ← utf8Continuation code
    let (b3, code) ← utf8Continuation code
    let codePoint := (ch.toNat - 0xE0) * 2 ^ 12 + b2 * 2 ^ 6 + b3
    vmAssert ((0x800 ≤ codePoint && codePoint < 0xD800) ||
      (0xE000 ≤ codePoint && codePoint < 0x10000)) utf8Error
    pure (3, code)
  else if ch < 0xF8 then
    let (b2, code) ← utf8Continuation code
    let (b3, code) ← utf8Continuation code
    let (b4, code) ← utf8Continuation code
    let codePoint := (ch.toNat - 0xF0) * 2 ^ 18 + b2 * 2 ^ 12 + b3 * 2 ^ 6 + b4
    vmAssert (0x10000 ≤ codePoint && codePoint < 0x110000) utf8Error
    pure (4, code)
  else
    .error utf8Error

/-- `validate_utf8_string`. `bytes` is a `uint32_t`; every round consumes at least one byte of a
pointer whose bound is `bytes` away, so `fuel` is never the reason to stop. -/
def validateUtf8String : Nat → WasmCodePtr → Nat → Except VmError WasmCodePtr
  | _, code, 0 => pure code
  | 0, _, _ + 1 => .error utf8Error
  | fuel + 1, code, bytes + 1 => do
    let (n, code) ← validateUtf8CodePoint code
    validateUtf8String fuel code ((bytes + 1 + 2 ^ 32 - n) % 2 ^ 32)

/-- `parse_utf8_string`. -/
def parseUtf8String (maxSize : Nat) (code : WasmCodePtr) :
    Except VmError (List UInt8 × WasmCodePtr) := do
  let (len, code) ← parseVaruint32 code
  vmAssert (len ≤ maxSize) (.wasmParse "name too long")
  let inner ← code.shrinkBounds len
  let result := inner.slice len
  let inner ← validateUtf8String len inner len
  pure (result, inner.restore code)

end EosVm
