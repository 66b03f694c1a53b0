import EosVm.Source.Context

/-!
# Pointer arguments of host functions

`argument_proxy.hpp`. The address space is a function from addresses to bytes; the private copy of a
proxy lies outside it. A proxy for a pointer has its copy inside itself, a proxy for a span has it
on the heap and keeps the pointer that it shows in its base class. Where the source divides by zero
there is no result.
-/

set_option autoImplicit false

namespace EosVm

/-- `memcpy` of `n` bytes from `addr`. -/
def copyBytes (memory : Nat → UInt8) (addr n : Nat) : List UInt8 :=
  (List.range n).map fun i => memory (addr + i)

/-- What a pointer to the elements points to. -/
inductive Place where
  | copy
  | guest (addr : Nat)
  deriving DecidableEq, Repr

/-- The template arguments and what is known of `T`: its size and whether it is const. -/
structure ProxyType where
  legacyAlign : Nat
  sizeof : Nat
  isConst : Bool
  deriving DecidableEq, Repr

/-- `argument_proxy<T*, LegacyAlign>`. -/
structure PointerProxy where
  originalPtr : Nat
  copy : Option (List UInt8)
  deriving DecidableEq, Repr

namespace PointerProxy

/-- The constructor. -/
def make (t : ProxyType) (memory : Nat → UInt8) (ptr : Nat) : PointerProxy where
  originalPtr := ptr
  copy :=
    if t.legacyAlign = 0 || ptr % t.legacyAlign != 0 then
      some (copyBytes memory ptr t.sizeof) else none

/-- The move constructor: the new proxy and what is left of the other. -/
def move (p : PointerProxy) : PointerProxy × PointerProxy := (p, ⟨0, none⟩)

/-- `get`. -/
def get (p : PointerProxy) : Place := if p.copy.isSome then .copy else .guest p.originalPtr

/-- The destructor. -/
def destroy (t : ProxyType) (p : PointerProxy) (memory : Nat → UInt8) : Nat → UInt8 :=
  if t.isConst then memory
  else match p.copy with
    | some bytes => writeBytes memory p.originalPtr bytes
    | none => memory

end PointerProxy

/-- `argument_proxy<span<T>, LegacyAlign>`. `data` and `size` are those of the base class. -/
structure SpanProxy where
  originalPtr : Nat
  copy : Option (List UInt8)
  data : Place
  size : Nat
  deriving DecidableEq, Repr

namespace SpanProxy

/-- `is_aligned`. There is no remainder by zero. -/
def isAligned (t : ProxyType) (ptr : Nat) : Option Bool :=
  if t.legacyAlign = 0 then none else some (ptr % t.legacyAlign == 0)

/-- The constructor. -/
def make (t : ProxyType) (memory : Nat → UInt8) (ptr size : Nat) : Option SpanProxy := do
  let aligned ← isAligned t ptr
  if aligned then
    pure ⟨ptr, none, .guest ptr, size⟩
  else
    pure ⟨ptr, some (copyBytes memory ptr (size * t.sizeof)), .copy, size⟩

/-- The defaulted move constructor empties the owning pointer of the other only. -/
def move (p : SpanProxy) : SpanProxy × SpanProxy := (p, { p with copy := none })

/-- The destructor. -/
def destroy (t : ProxyType) (p : SpanProxy) (memory : Nat → UInt8) : Nat → UInt8 :=
  if t.isConst then memory
  else match p.copy with
    | some bytes => writeBytes memory p.originalPtr bytes
    | none => memory

end SpanProxy

/-- The arguments for a proxy: `ptr` for a pointer, `ptr` and a length for a span. -/
inductive ProxyArgument where
  | pointer (ptr : Nat)
  | span (ptr size : Nat)
  deriving DecidableEq, Repr

inductive ArgumentProxy where
  | pointer (p : PointerProxy)
  | span (p : SpanProxy)
  deriving DecidableEq, Repr

namespace ArgumentProxy

def make (t : ProxyType) (memory : Nat → UInt8) : ProxyArgument → Option ArgumentProxy
  | .pointer ptr => some (.pointer (.make t memory ptr))
  | .span ptr size => .span <$> SpanProxy.make t memory ptr size

def copied : ArgumentProxy → Option (List UInt8)
  | .pointer p => p.copy
  | .span p => p.copy

/-- Where the host reads and writes the elements. -/
def place : ArgumentProxy → Place
  | .pointer p => p.get
  | .span p => p.data

/-- The host's store of a byte into the private copy. -/
def setCopied (p : ArgumentProxy) (i : Nat) (byte : UInt8) : ArgumentProxy :=
  match p with
  | .pointer p => .pointer { p with copy := p.copy.map (·.set i byte) }
  | .span p => .span { p with copy := p.copy.map (·.set i byte) }

def move : ArgumentProxy → ArgumentProxy × ArgumentProxy
  | .pointer p => (.pointer p.move.1, .pointer p.move.2)
  | .span p => (.span p.move.1, .span p.move.2)

def destroy (t : ProxyType) (p : ArgumentProxy) (memory : Nat → UInt8) : Nat → UInt8 :=
  match p with
  | .pointer p => p.destroy t memory
  | .span p => p.destroy t memory

end ArgumentProxy

/-- The memory, the proxy that the host uses, and the proxies that it was moved from. -/
structure ProxyUse where
  memory : Nat → UInt8
  proxy : ArgumentProxy
  moved : List ArgumentProxy

inductive HostAction where
  | store (i : Nat) (byte : UInt8)
  | move
  | destroyMoved
  deriving DecidableEq, Repr

namespace ProxyUse

def act (t : ProxyType) (u : ProxyUse) : HostAction → ProxyUse
  | .store i byte =>
    match u.proxy.place with
    | .copy => { u with proxy := u.proxy.setCopied i byte }
    | .guest addr => { u with memory := Function.update u.memory (addr + i) byte }
  | .move => { u with proxy := u.proxy.move.1, moved := u.proxy.move.2 :: u.moved }
  | .destroyMoved =>
    match u.moved with
    | [] => u
    | p :: moved => { u with memory := p.destroy t u.memory, moved := moved }

/-- The memory after the host function returned and all proxies were destroyed. -/
def finish (t : ProxyType) (u : ProxyUse) : Nat → UInt8 :=
  u.moved.foldl (fun memory p => p.destroy t memory) (u.proxy.destroy t u.memory)

/-- The bytes that the host sees. -/
def view (u : ProxyUse) (n : Nat) : List UInt8 :=
  match u.proxy.place with
  | .copy => u.proxy.copied.getD []
  | .guest addr => copyBytes u.memory addr n

end ProxyUse

end EosVm
