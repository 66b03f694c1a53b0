import EosVm.Source.ModuleParser

/-!
# Segments in the binary format

How WebAssembly lays out element and data segments. The flags at the start of a segment say which of
its parts are there. The parts themselves are read with the parser's functions.
-/

set_option autoImplicit false

namespace EosVm

/-- The parts of an element segment. -/
structure ElemFormat where
  mode : ElemMode
  explicitTable : Bool
  /-- The byte of the element kind or of the reference type, which is `funcref`. -/
  kind : Option UInt8
  expressions : Bool
  deriving DecidableEq, Repr

/-- The eight formats of element segments. -/
def elemFormat : Nat → Option ElemFormat
  | 0 => some ⟨.active, false, none, false⟩
  | 1 => some ⟨.passive, false, some 0x00, false⟩
  | 2 => some ⟨.active, true, some 0x00, false⟩
  | 3 => some ⟨.declarative, false, some 0x00, false⟩
  | 4 => some ⟨.active, false, none, true⟩
  | 5 => some ⟨.passive, false, some 0x70, true⟩
  | 6 => some ⟨.active, true, some 0x70, true⟩
  | 7 => some ⟨.declarative, false, some 0x70, true⟩
  | _ => none

/-- The formats that a module may use. All but the first came with bulk memory. -/
def elemFormatFor (bulkMemory : Bool) (flags : Nat) : Option ElemFormat :=
  if flags = 0 ∨ bulkMemory = true then elemFormat flags else none

/-- A segment with this format, from the first byte after the flags to `last`. -/
def ElemFormat.Reads (format : ElemFormat) (o : Options) (mod : Module) (fastFunctions : List Nat)
    (code : WasmCodePtr) (es : ElemSegment) (last : WasmCodePtr) : Prop :=
  ∃ p₁ p₂ p₃ p₄ size,
    (if format.explicitTable then parseVaruint32 code = .ok (es.index, p₁)
      else es.index = 0 ∧ p₁ = code) ∧
    (if format.mode = .active then ∃ offset, parseInitExpr o .i32 p₁ = .ok (offset, p₂) ∧
        es.offset = some offset
      else es.offset = none ∧ p₂ = p₁) ∧
    es.mode = format.mode ∧
    (match format.kind with
      | some kind => p₂.next = .ok (kind, p₃)
      | none => p₃ = p₂) ∧
    parseVaruint32 p₃ = .ok (size, p₄) ∧
    parseVector (if format.expressions then parseElemExpr mod fastFunctions
      else parseElemIndex mod fastFunctions) size p₄ = .ok (es.elems, last)

/-- The parts of a data segment. -/
structure DataFormat where
  active : Bool
  explicitMemory : Bool
  deriving DecidableEq, Repr

def dataFormat : Nat → Option DataFormat
  | 0 => some ⟨true, false⟩
  | 1 => some ⟨false, false⟩
  | 2 => some ⟨true, true⟩
  | _ => none

/-- Without bulk memory the number at the start is the index of the memory, which is 0. -/
def dataFormatFor (bulkMemory : Bool) (flags : Nat) : Option DataFormat :=
  if flags = 0 ∨ bulkMemory = true then dataFormat flags else none

def DataFormat.Reads (format : DataFormat) (o : Options) (code : WasmCodePtr) (ds : DataSegment)
    (last : WasmCodePtr) : Prop :=
  ∃ p₁ p₂ p₃ len,
    (if format.explicitMemory then parseVaruint32 code = .ok (ds.index, p₁) else p₁ = code) ∧
    (if format.active then parseInitExpr o .i32 p₁ = .ok (ds.offset, p₂) else p₂ = p₁) ∧
    (format.active = true → format.explicitMemory = false → ds.index = 0) ∧
    ds.passive = !format.active ∧
    parseVaruint32 p₂ = .ok (len, p₃) ∧ ds.data = p₃.slice len ∧ p₃.advance len = .ok last

end EosVm
