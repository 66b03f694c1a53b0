import EosVm.Source.Types

/-!
# Parser options

`PARSER_OPTION` and `MAX_ELEMENTS` of `parser.hpp` read an option of the `Options` template
argument when it exists and take a default otherwise. Options whose presence selects a template
specialisation are `Option` fields; the unsigned integer type they are declared with is part of
the value, since the checkers count in that type.
-/

set_option autoImplicit false

namespace EosVm

/-- An unsigned integer option of any width. -/
structure UnsignedOption where
  width : Nat
  value : Nat
  fits : value < 2 ^ width
  deriving DecidableEq, Repr

/-- `max_func_local_bytes_flags_t`. -/
structure LocalBytesFlags where
  params : Bool
  locals : Bool
  stack : Bool
  deriving DecidableEq, Repr

structure Options where
  maxMutableGlobalBytes : Option UnsignedOption := none
  maxTableElements : Nat := 0xFFFFFFFF
  maxSectionElements : Nat := 0xFFFFFFFF
  maxTypeSectionElements : Nat := maxSectionElements
  maxImportSectionElements : Nat := maxSectionElements
  maxFunctionSectionElements : Nat := maxSectionElements
  maxGlobalSectionElements : Nat := maxSectionElements
  maxExportSectionElements : Nat := maxSectionElements
  maxElementSectionElements : Nat := maxSectionElements
  maxDataSectionElements : Nat := maxSectionElements
  maxElementSegmentElements : Nat := 0xFFFFFFFF
  maxDataSegmentBytes : Nat := 0xFFFFFFFF
  maxLinearMemoryInit : Nat := 0xFFFFFFFFFFFFFFFF
  maxFuncLocalBytes : Option UnsignedOption := none
  maxFuncLocalBytesFlags : LocalBytesFlags := ⟨false, true, true⟩
  maxLocalSets : Nat := 0xFFFFFFFF
  maxNestedStructures : Nat := 0xFFFFFFFF
  maxBrTableElements : Nat := 0xFFFFFFFF
  eosioMaxNestedStructures : Option UnsignedOption := none
  maxSymbolBytes : Nat := 0xFFFFFFFF
  maxMemoryOffset : Nat := 0xFFFFFFFF
  maxCodeBytes : Nat := 0xFFFFFFFF
  maxPages : Nat := 0xFFFFFFFF
  maxCallDepth : Nat := 251
  maxStackBytes : Option UnsignedOption := none
  forbidExportMutableGlobals : Bool := false
  allowCodeAfterFunctionEnd : Bool := false
  allowU32LimitsFlags : Bool := false
  allowInvalidEmptyLocalSet : Bool := false
  eosioFp : Bool := false
  allowZeroBlocktype : Bool := false
  parseCustomSectionName : Bool := false
  enableSimd : Bool := true
  enableBulkMemory : Bool := true
  enableSignExt : Bool := true
  enableNontrappingFptoint : Bool := true
  deriving DecidableEq, Repr

/-- `struct default_options {}`. -/
def defaultOptions : Options := {}

/-- `get_size_for_type`. -/
def getSizeForType : ValType → Nat
  | .i32 | .f32 => 4
  | .i64 | .f64 => 8
  | .v128 => 16

/-- The value types the parser admits: the scalars, and `v128` when `enable_simd` is set. -/
def Options.allowsType (o : Options) : ValType → Bool
  | .v128 => o.enableSimd
  | _ => true

end EosVm
