import EosVm.Source.Types

/-!
# Opcodes

The instruction families of `opcodes_def.hpp` with the immediates and the operand types that
the macros of `parser.hpp` give them. Each family that the parser treats by one macro is one
enumeration; its members keep the names of the source.
-/

set_option autoImplicit false

namespace EosVm

/-- `LOAD_OP` instructions, scalar and vector. -/
inductive LoadOp where
  | i32Load | i64Load | f32Load | f64Load | i32Load8S | i32Load8U | i32Load16S | i32Load16U
  | i64Load8S | i64Load8U | i64Load16S | i64Load16U | i64Load32S | i64Load32U | v128Load
  | v128Load8x8S | v128Load8x8U | v128Load16x4S | v128Load16x4U | v128Load32x2S | v128Load32x2U
  | v128Load8Splat | v128Load16Splat | v128Load32Splat | v128Load64Splat | v128Load32Zero
  | v128Load64Zero
  deriving DecidableEq, Repr

/-- `STORE_OP` instructions, scalar and vector. -/
inductive StoreOp where
  | i32Store | i64Store | f32Store | f64Store | i32Store8 | i32Store16 | i64Store8 | i64Store16
  | i64Store32 | v128Store
  deriving DecidableEq, Repr

/-- `LOADLANE_OP` instructions. -/
inductive LoadLaneOp where
  | v128Load8Lane | v128Load16Lane | v128Load32Lane | v128Load64Lane
  deriving DecidableEq, Repr

/-- `STORELANE_OP` instructions. -/
inductive StoreLaneOp where
  | v128Store8Lane | v128Store16Lane | v128Store32Lane | v128Store64Lane
  deriving DecidableEq, Repr

/-- `EXTRACT_LANE_OP` instructions. -/
inductive ExtractLaneOp where
  | i8x16ExtractLaneS | i8x16ExtractLaneU | i16x8ExtractLaneS | i16x8ExtractLaneU
  | i32x4ExtractLane | i64x2ExtractLane | f32x4ExtractLane | f64x2ExtractLane
  deriving DecidableEq, Repr

/-- `REPLACE_LANE_OP` instructions. -/
inductive ReplaceLaneOp where
  | i8x16ReplaceLane | i16x8ReplaceLane | i32x4ReplaceLane | i64x2ReplaceLane | f32x4ReplaceLane
  | f64x2ReplaceLane
  deriving DecidableEq, Repr

/-- Scalar comparison, numeric, conversion and sign-extension instructions. -/
inductive NumericOp where
  | i32Eqz | i32Eq | i32Ne | i32LtS | i32LtU | i32GtS | i32GtU | i32LeS | i32LeU | i32GeS | i32GeU
  | i64Eqz | i64Eq | i64Ne | i64LtS | i64LtU | i64GtS | i64GtU | i64LeS | i64LeU | i64GeS | i64GeU
  | f32Eq | f32Ne | f32Lt | f32Gt | f32Le | f32Ge | f64Eq | f64Ne | f64Lt | f64Gt | f64Le | f64Ge
  | i32Clz | i32Ctz | i32Popcnt | i32Add | i32Sub | i32Mul | i32DivS | i32DivU | i32RemS | i32RemU
  | i32And | i32Or | i32Xor | i32Shl | i32ShrS | i32ShrU | i32Rotl | i32Rotr | i64Clz | i64Ctz
  | i64Popcnt | i64Add | i64Sub | i64Mul | i64DivS | i64DivU | i64RemS | i64RemU | i64And | i64Or
  | i64Xor | i64Shl | i64ShrS | i64ShrU | i64Rotl | i64Rotr | f32Abs | f32Neg | f32Ceil | f32Floor
  | f32Trunc | f32Nearest | f32Sqrt | f32Add | f32Sub | f32Mul | f32Div | f32Min | f32Max
  | f32Copysign | f64Abs | f64Neg | f64Ceil | f64Floor | f64Trunc | f64Nearest | f64Sqrt | f64Add
  | f64Sub | f64Mul | f64Div | f64Min | f64Max | f64Copysign | i32WrapI64 | i32TruncSF32
  | i32TruncUF32 | i32TruncSF64 | i32TruncUF64 | i64ExtendSI32 | i64ExtendUI32 | i64TruncSF32
  | i64TruncUF32 | i64TruncSF64 | i64TruncUF64 | f32ConvertSI32 | f32ConvertUI32 | f32ConvertSI64
  | f32ConvertUI64 | f32DemoteF64 | f64ConvertSI32 | f64ConvertUI32 | f64ConvertSI64
  | f64ConvertUI64 | f64PromoteF32 | i32ReinterpretF32 | i64ReinterpretF64 | f32ReinterpretI32
  | f64ReinterpretI64 | i32Extend8S | i32Extend16S | i64Extend8S | i64Extend16S | i64Extend32S
  deriving DecidableEq, Repr

/-- `TRUNC_SAT_OP` instructions. -/
inductive TruncSatOp where
  | i32TruncSatF32S | i32TruncSatF32U | i32TruncSatF64S | i32TruncSatF64U | i64TruncSatF32S
  | i64TruncSatF32U | i64TruncSatF64S | i64TruncSatF64U
  deriving DecidableEq, Repr

/-- `NUMERIC_OP` vector instructions. -/
inductive VecNumericOp where
  | i8x16Swizzle | i8x16Splat | i16x8Splat | i32x4Splat | i64x2Splat | f32x4Splat | f64x2Splat
  | i8x16Eq | i8x16Ne | i8x16LtS | i8x16LtU | i8x16GtS | i8x16GtU | i8x16LeS | i8x16LeU | i8x16GeS
  | i8x16GeU | i16x8Eq | i16x8Ne | i16x8LtS | i16x8LtU | i16x8GtS | i16x8GtU | i16x8LeS | i16x8LeU
  | i16x8GeS | i16x8GeU | i32x4Eq | i32x4Ne | i32x4LtS | i32x4LtU | i32x4GtS | i32x4GtU | i32x4LeS
  | i32x4LeU | i32x4GeS | i32x4GeU | i64x2Eq | i64x2Ne | i64x2LtS | i64x2GtS | i64x2LeS | i64x2GeS
  | f32x4Eq | f32x4Ne | f32x4Lt | f32x4Gt | f32x4Le | f32x4Ge | f64x2Eq | f64x2Ne | f64x2Lt
  | f64x2Gt | f64x2Le | f64x2Ge | v128Not | v128And | v128Andnot | v128Or | v128Xor | v128Bitselect
  | v128AnyTrue | i8x16Abs | i8x16Neg | i8x16Popcnt | i8x16AllTrue | i8x16Bitmask
  | i8x16NarrowI16x8S | i8x16NarrowI16x8U | i8x16Shl | i8x16ShrS | i8x16ShrU | i8x16Add
  | i8x16AddSatS | i8x16AddSatU | i8x16Sub | i8x16SubSatS | i8x16SubSatU | i8x16MinS | i8x16MinU
  | i8x16MaxS | i8x16MaxU | i8x16AvgrU | i16x8ExtaddPairwiseI8x16S | i16x8ExtaddPairwiseI8x16U
  | i16x8Abs | i16x8Neg | i16x8Q15mulrSatS | i16x8AllTrue | i16x8Bitmask | i16x8NarrowI32x4S
  | i16x8NarrowI32x4U | i16x8ExtendLowI8x16S | i16x8ExtendHighI8x16S | i16x8ExtendLowI8x16U
  | i16x8ExtendHighI8x16U | i16x8Shl | i16x8ShrS | i16x8ShrU | i16x8Add | i16x8AddSatS
  | i16x8AddSatU | i16x8Sub | i16x8SubSatS | i16x8SubSatU | i16x8Mul | i16x8MinS | i16x8MinU
  | i16x8MaxS | i16x8MaxU | i16x8AvgrU | i16x8ExtmulLowI8x16S | i16x8ExtmulHighI8x16S
  | i16x8ExtmulLowI8x16U | i16x8ExtmulHighI8x16U | i32x4ExtaddPairwiseI16x8S
  | i32x4ExtaddPairwiseI16x8U | i32x4Abs | i32x4Neg | i32x4AllTrue | i32x4Bitmask
  | i32x4ExtendLowI16x8S | i32x4ExtendHighI16x8S | i32x4ExtendLowI16x8U | i32x4ExtendHighI16x8U
  | i32x4Shl | i32x4ShrS | i32x4ShrU | i32x4Add | i32x4Sub | i32x4Mul | i32x4MinS | i32x4MinU
  | i32x4MaxS | i32x4MaxU | i32x4DotI16x8S | i32x4ExtmulLowI16x8S | i32x4ExtmulHighI16x8S
  | i32x4ExtmulLowI16x8U | i32x4ExtmulHighI16x8U | i64x2Abs | i64x2Neg | i64x2AllTrue
  | i64x2Bitmask | i64x2ExtendLowI32x4S | i64x2ExtendHighI32x4S | i64x2ExtendLowI32x4U
  | i64x2ExtendHighI32x4U | i64x2Shl | i64x2ShrS | i64x2ShrU | i64x2Add | i64x2Sub | i64x2Mul
  | i64x2ExtmulLowI32x4S | i64x2ExtmulHighI32x4S | i64x2ExtmulLowI32x4U | i64x2ExtmulHighI32x4U
  | f32x4Ceil | f32x4Floor | f32x4Trunc | f32x4Nearest | f32x4Abs | f32x4Neg | f32x4Sqrt | f32x4Add
  | f32x4Sub | f32x4Mul | f32x4Div | f32x4Min | f32x4Max | f32x4Pmin | f32x4Pmax | f64x2Ceil
  | f64x2Floor | f64x2Trunc | f64x2Nearest | f64x2Abs | f64x2Neg | f64x2Sqrt | f64x2Add | f64x2Sub
  | f64x2Mul | f64x2Div | f64x2Min | f64x2Max | f64x2Pmin | f64x2Pmax | i32x4TruncSatF32x4S
  | i32x4TruncSatF32x4U | f32x4ConvertI32x4S | f32x4ConvertI32x4U | i32x4TruncSatF64x2SZero
  | i32x4TruncSatF64x2UZero | f64x2ConvertLowI32x4S | f64x2ConvertLowI32x4U | f32x4DemoteF64x2Zero
  | f64x2PromoteLowF32x4
  deriving DecidableEq, Repr

/-- `max_align` and result type of each `LOAD_OP` use. -/
def LoadOp.maxAlignType : LoadOp → Nat × ValType
  | .i32Load => (2, .i32)
  | .i64Load => (3, .i64)
  | .f32Load => (2, .f32)
  | .f64Load => (3, .f64)
  | .i32Load8S | .i32Load8U => (0, .i32)
  | .i32Load16S | .i32Load16U => (1, .i32)
  | .i64Load8S | .i64Load8U => (0, .i64)
  | .i64Load16S | .i64Load16U => (1, .i64)
  | .i64Load32S | .i64Load32U => (2, .i64)
  | .v128Load => (4, .v128)
  | .v128Load8x8S | .v128Load8x8U | .v128Load16x4S | .v128Load16x4U | .v128Load32x2S
  | .v128Load32x2U | .v128Load64Splat | .v128Load64Zero => (3, .v128)
  | .v128Load8Splat => (0, .v128)
  | .v128Load16Splat => (1, .v128)
  | .v128Load32Splat | .v128Load32Zero => (2, .v128)

/-- `max_align` and operand type of each `STORE_OP` use. -/
def StoreOp.maxAlignType : StoreOp → Nat × ValType
  | .i32Store => (2, .i32)
  | .i64Store => (3, .i64)
  | .f32Store => (2, .f32)
  | .f64Store => (3, .f64)
  | .i32Store8 => (0, .i32)
  | .i32Store16 => (1, .i32)
  | .i64Store8 => (0, .i64)
  | .i64Store16 => (1, .i64)
  | .i64Store32 => (2, .i64)
  | .v128Store => (4, .v128)

def LoadLaneOp.maxAlign : LoadLaneOp → Nat
  | .v128Load8Lane => 0
  | .v128Load16Lane => 1
  | .v128Load32Lane => 2
  | .v128Load64Lane => 3

def StoreLaneOp.maxAlign : StoreLaneOp → Nat
  | .v128Store8Lane => 0
  | .v128Store16Lane => 1
  | .v128Store32Lane => 2
  | .v128Store64Lane => 3

/-- Lane type and lane count `N`. -/
def ExtractLaneOp.laneType : ExtractLaneOp → ValType × Nat
  | .i8x16ExtractLaneS | .i8x16ExtractLaneU => (.i32, 16)
  | .i16x8ExtractLaneS | .i16x8ExtractLaneU => (.i32, 8)
  | .i32x4ExtractLane => (.i32, 4)
  | .i64x2ExtractLane => (.i64, 2)
  | .f32x4ExtractLane => (.f32, 4)
  | .f64x2ExtractLane => (.f64, 2)

/-- Lane type and lane count `N`. -/
def ReplaceLaneOp.laneType : ReplaceLaneOp → ValType × Nat
  | .i8x16ReplaceLane => (.i32, 16)
  | .i16x8ReplaceLane => (.i32, 8)
  | .i32x4ReplaceLane => (.i32, 4)
  | .i64x2ReplaceLane => (.i64, 2)
  | .f32x4ReplaceLane => (.f32, 4)
  | .f64x2ReplaceLane => (.f64, 2)

/-- Operand types, first operand first, and result type given to `op_stack` by the
`UNOP`, `BINOP`, `CASTOP` and `EXTENDOP` uses. -/
def NumericOp.signature : NumericOp → List ValType × ValType
  | .i32Eqz | .i32Clz | .i32Ctz | .i32Popcnt | .i32Extend8S | .i32Extend16S => ([.i32], .i32)
  | .i32Eq | .i32Ne | .i32LtS | .i32LtU | .i32GtS | .i32GtU | .i32LeS | .i32LeU | .i32GeS
  | .i32GeU | .i32Add | .i32Sub | .i32Mul | .i32DivS | .i32DivU | .i32RemS | .i32RemU | .i32And
  | .i32Or | .i32Xor | .i32Shl | .i32ShrS | .i32ShrU | .i32Rotl | .i32Rotr => ([.i32, .i32], .i32)
  | .i64Eqz | .i32WrapI64 => ([.i64], .i32)
  | .i64Eq | .i64Ne | .i64LtS | .i64LtU | .i64GtS | .i64GtU | .i64LeS | .i64LeU | .i64GeS
  | .i64GeU => ([.i64, .i64], .i32)
  | .f32Eq | .f32Ne | .f32Lt | .f32Gt | .f32Le | .f32Ge => ([.f32, .f32], .i32)
  | .f64Eq | .f64Ne | .f64Lt | .f64Gt | .f64Le | .f64Ge => ([.f64, .f64], .i32)
  | .i64Clz | .i64Ctz | .i64Popcnt | .i64Extend8S | .i64Extend16S | .i64Extend32S => ([.i64], .i64)
  | .i64Add | .i64Sub | .i64Mul | .i64DivS | .i64DivU | .i64RemS | .i64RemU | .i64And | .i64Or
  | .i64Xor | .i64Shl | .i64ShrS | .i64ShrU | .i64Rotl | .i64Rotr => ([.i64, .i64], .i64)
  | .f32Abs | .f32Neg | .f32Ceil | .f32Floor | .f32Trunc | .f32Nearest | .f32Sqrt => ([.f32], .f32)
  | .f32Add | .f32Sub | .f32Mul | .f32Div | .f32Min | .f32Max | .f32Copysign => ([.f32, .f32], .f32)
  | .f64Abs | .f64Neg | .f64Ceil | .f64Floor | .f64Trunc | .f64Nearest | .f64Sqrt => ([.f64], .f64)
  | .f64Add | .f64Sub | .f64Mul | .f64Div | .f64Min | .f64Max | .f64Copysign => ([.f64, .f64], .f64)
  | .i32TruncSF32 | .i32TruncUF32 | .i32ReinterpretF32 => ([.f32], .i32)
  | .i32TruncSF64 | .i32TruncUF64 => ([.f64], .i32)
  | .i64ExtendSI32 | .i64ExtendUI32 => ([.i32], .i64)
  | .i64TruncSF32 | .i64TruncUF32 => ([.f32], .i64)
  | .i64TruncSF64 | .i64TruncUF64 | .i64ReinterpretF64 => ([.f64], .i64)
  | .f32ConvertSI32 | .f32ConvertUI32 | .f32ReinterpretI32 => ([.i32], .f32)
  | .f32ConvertSI64 | .f32ConvertUI64 => ([.i64], .f32)
  | .f32DemoteF64 => ([.f64], .f32)
  | .f64ConvertSI32 | .f64ConvertUI32 => ([.i32], .f64)
  | .f64ConvertSI64 | .f64ConvertUI64 | .f64ReinterpretI64 => ([.i64], .f64)
  | .f64PromoteF32 => ([.f32], .f64)

/-- `EXTENDOP` instructions are gated by `enable_sign_ext`. -/
def NumericOp.isSignExt : NumericOp → Bool
  | .i32Extend8S | .i32Extend16S | .i64Extend8S | .i64Extend16S | .i64Extend32S => true
  | _ => false

/-- Operand and result type. -/
def TruncSatOp.signature : TruncSatOp → ValType × ValType
  | .i32TruncSatF32S | .i32TruncSatF32U => (.f32, .i32)
  | .i32TruncSatF64S | .i32TruncSatF64U => (.f64, .i32)
  | .i64TruncSatF32S | .i64TruncSatF32U => (.f32, .i64)
  | .i64TruncSatF64S | .i64TruncSatF64U => (.f64, .i64)

/-- `inputs` and `outputs` of each `NUMERIC_OP` use. -/
def VecNumericOp.signature : VecNumericOp → List ValType × ValType
  | .i8x16Swizzle | .i8x16Eq | .i8x16Ne | .i8x16LtS | .i8x16LtU | .i8x16GtS | .i8x16GtU
  | .i8x16LeS | .i8x16LeU | .i8x16GeS | .i8x16GeU | .i16x8Eq | .i16x8Ne | .i16x8LtS | .i16x8LtU
  | .i16x8GtS | .i16x8GtU | .i16x8LeS | .i16x8LeU | .i16x8GeS | .i16x8GeU | .i32x4Eq | .i32x4Ne
  | .i32x4LtS | .i32x4LtU | .i32x4GtS | .i32x4GtU | .i32x4LeS | .i32x4LeU | .i32x4GeS | .i32x4GeU
  | .i64x2Eq | .i64x2Ne | .i64x2LtS | .i64x2GtS | .i64x2LeS | .i64x2GeS | .f32x4Eq | .f32x4Ne
  | .f32x4Lt | .f32x4Gt | .f32x4Le | .f32x4Ge | .f64x2Eq | .f64x2Ne | .f64x2Lt | .f64x2Gt
  | .f64x2Le | .f64x2Ge | .v128And | .v128Andnot | .v128Or | .v128Xor | .i8x16NarrowI16x8S
  | .i8x16NarrowI16x8U | .i8x16Add | .i8x16AddSatS | .i8x16AddSatU | .i8x16Sub | .i8x16SubSatS
  | .i8x16SubSatU | .i8x16MinS | .i8x16MinU | .i8x16MaxS | .i8x16MaxU | .i8x16AvgrU
  | .i16x8Q15mulrSatS | .i16x8NarrowI32x4S | .i16x8NarrowI32x4U | .i16x8Add | .i16x8AddSatS
  | .i16x8AddSatU | .i16x8Sub | .i16x8SubSatS | .i16x8SubSatU | .i16x8Mul | .i16x8MinS
  | .i16x8MinU | .i16x8MaxS | .i16x8MaxU | .i16x8AvgrU | .i16x8ExtmulLowI8x16S
  | .i16x8ExtmulHighI8x16S | .i16x8ExtmulLowI8x16U | .i16x8ExtmulHighI8x16U | .i32x4Add
  | .i32x4Sub | .i32x4Mul | .i32x4MinS | .i32x4MinU | .i32x4MaxS | .i32x4MaxU | .i32x4DotI16x8S
  | .i32x4ExtmulLowI16x8S | .i32x4ExtmulHighI16x8S | .i32x4ExtmulLowI16x8U
  | .i32x4ExtmulHighI16x8U | .i64x2Add | .i64x2Sub | .i64x2Mul | .i64x2ExtmulLowI32x4S
  | .i64x2ExtmulHighI32x4S | .i64x2ExtmulLowI32x4U | .i64x2ExtmulHighI32x4U | .f32x4Add
  | .f32x4Sub | .f32x4Mul | .f32x4Div | .f32x4Min | .f32x4Max | .f32x4Pmin | .f32x4Pmax
  | .f64x2Add | .f64x2Sub | .f64x2Mul | .f64x2Div | .f64x2Min | .f64x2Max | .f64x2Pmin
  | .f64x2Pmax => ([.v128, .v128], .v128)
  | .i8x16Splat | .i16x8Splat | .i32x4Splat => ([.i32], .v128)
  | .i64x2Splat => ([.i64], .v128)
  | .f32x4Splat => ([.f32], .v128)
  | .f64x2Splat => ([.f64], .v128)
  | .v128Not | .i8x16Abs | .i8x16Neg | .i8x16Popcnt | .i16x8ExtaddPairwiseI8x16S
  | .i16x8ExtaddPairwiseI8x16U | .i16x8Abs | .i16x8Neg | .i16x8ExtendLowI8x16S
  | .i16x8ExtendHighI8x16S | .i16x8ExtendLowI8x16U | .i16x8ExtendHighI8x16U
  | .i32x4ExtaddPairwiseI16x8S | .i32x4ExtaddPairwiseI16x8U | .i32x4Abs | .i32x4Neg
  | .i32x4ExtendLowI16x8S | .i32x4ExtendHighI16x8S | .i32x4ExtendLowI16x8U
  | .i32x4ExtendHighI16x8U | .i64x2Abs | .i64x2Neg | .i64x2ExtendLowI32x4S
  | .i64x2ExtendHighI32x4S | .i64x2ExtendLowI32x4U | .i64x2ExtendHighI32x4U | .f32x4Ceil
  | .f32x4Floor | .f32x4Trunc | .f32x4Nearest | .f32x4Abs | .f32x4Neg | .f32x4Sqrt | .f64x2Ceil
  | .f64x2Floor | .f64x2Trunc | .f64x2Nearest | .f64x2Abs | .f64x2Neg | .f64x2Sqrt
  | .i32x4TruncSatF32x4S | .i32x4TruncSatF32x4U | .f32x4ConvertI32x4S | .f32x4ConvertI32x4U
  | .i32x4TruncSatF64x2SZero | .i32x4TruncSatF64x2UZero | .f64x2ConvertLowI32x4S
  | .f64x2ConvertLowI32x4U | .f32x4DemoteF64x2Zero | .f64x2PromoteLowF32x4 => ([.v128], .v128)
  | .v128Bitselect => ([.v128, .v128, .v128], .v128)
  | .v128AnyTrue | .i8x16AllTrue | .i8x16Bitmask | .i16x8AllTrue | .i16x8Bitmask | .i32x4AllTrue
  | .i32x4Bitmask | .i64x2AllTrue | .i64x2Bitmask => ([.v128], .i32)
  | .i8x16Shl | .i8x16ShrS | .i8x16ShrU | .i16x8Shl | .i16x8ShrS | .i16x8ShrU | .i32x4Shl
  | .i32x4ShrS | .i32x4ShrU | .i64x2Shl | .i64x2ShrS | .i64x2ShrU => ([.v128, .i32], .v128)

/-- `opcodes` values handled by `LOAD_OP`. -/
def loadOpcodes : List (UInt8 × LoadOp) :=
  [(0x28, .i32Load), (0x29, .i64Load), (0x2A, .f32Load), (0x2B, .f64Load), (0x2C, .i32Load8S),
   (0x2D, .i32Load8U), (0x2E, .i32Load16S), (0x2F, .i32Load16U), (0x30, .i64Load8S),
   (0x31, .i64Load8U), (0x32, .i64Load16S), (0x33, .i64Load16U), (0x34, .i64Load32S),
   (0x35, .i64Load32U)]

/-- `opcodes` values handled by `STORE_OP`. -/
def storeOpcodes : List (UInt8 × StoreOp) :=
  [(0x36, .i32Store), (0x37, .i64Store), (0x38, .f32Store), (0x39, .f64Store), (0x3A, .i32Store8),
   (0x3B, .i32Store16), (0x3C, .i64Store8), (0x3D, .i64Store16), (0x3E, .i64Store32)]

/-- `opcodes` values of the scalar numeric instructions. -/
def numericOpcodes : List (UInt8 × NumericOp) :=
  [(0x45, .i32Eqz), (0x46, .i32Eq), (0x47, .i32Ne), (0x48, .i32LtS), (0x49, .i32LtU),
   (0x4A, .i32GtS), (0x4B, .i32GtU), (0x4C, .i32LeS), (0x4D, .i32LeU), (0x4E, .i32GeS),
   (0x4F, .i32GeU), (0x50, .i64Eqz), (0x51, .i64Eq), (0x52, .i64Ne), (0x53, .i64LtS),
   (0x54, .i64LtU), (0x55, .i64GtS), (0x56, .i64GtU), (0x57, .i64LeS), (0x58, .i64LeU),
   (0x59, .i64GeS), (0x5A, .i64GeU), (0x5B, .f32Eq), (0x5C, .f32Ne), (0x5D, .f32Lt), (0x5E, .f32Gt),
   (0x5F, .f32Le), (0x60, .f32Ge), (0x61, .f64Eq), (0x62, .f64Ne), (0x63, .f64Lt), (0x64, .f64Gt),
   (0x65, .f64Le), (0x66, .f64Ge), (0x67, .i32Clz), (0x68, .i32Ctz), (0x69, .i32Popcnt),
   (0x6A, .i32Add), (0x6B, .i32Sub), (0x6C, .i32Mul), (0x6D, .i32DivS), (0x6E, .i32DivU),
   (0x6F, .i32RemS), (0x70, .i32RemU), (0x71, .i32And), (0x72, .i32Or), (0x73, .i32Xor),
   (0x74, .i32Shl), (0x75, .i32ShrS), (0x76, .i32ShrU), (0x77, .i32Rotl), (0x78, .i32Rotr),
   (0x79, .i64Clz), (0x7A, .i64Ctz), (0x7B, .i64Popcnt), (0x7C, .i64Add), (0x7D, .i64Sub),
   (0x7E, .i64Mul), (0x7F, .i64DivS), (0x80, .i64DivU), (0x81, .i64RemS), (0x82, .i64RemU),
   (0x83, .i64And), (0x84, .i64Or), (0x85, .i64Xor), (0x86, .i64Shl), (0x87, .i64ShrS),
   (0x88, .i64ShrU), (0x89, .i64Rotl), (0x8A, .i64Rotr), (0x8B, .f32Abs), (0x8C, .f32Neg),
   (0x8D, .f32Ceil), (0x8E, .f32Floor), (0x8F, .f32Trunc), (0x90, .f32Nearest), (0x91, .f32Sqrt),
   (0x92, .f32Add), (0x93, .f32Sub), (0x94, .f32Mul), (0x95, .f32Div), (0x96, .f32Min),
   (0x97, .f32Max), (0x98, .f32Copysign), (0x99, .f64Abs), (0x9A, .f64Neg), (0x9B, .f64Ceil),
   (0x9C, .f64Floor), (0x9D, .f64Trunc), (0x9E, .f64Nearest), (0x9F, .f64Sqrt), (0xA0, .f64Add),
   (0xA1, .f64Sub), (0xA2, .f64Mul), (0xA3, .f64Div), (0xA4, .f64Min), (0xA5, .f64Max),
   (0xA6, .f64Copysign), (0xA7, .i32WrapI64), (0xA8, .i32TruncSF32), (0xA9, .i32TruncUF32),
   (0xAA, .i32TruncSF64), (0xAB, .i32TruncUF64), (0xAC, .i64ExtendSI32), (0xAD, .i64ExtendUI32),
   (0xAE, .i64TruncSF32), (0xAF, .i64TruncUF32), (0xB0, .i64TruncSF64), (0xB1, .i64TruncUF64),
   (0xB2, .f32ConvertSI32), (0xB3, .f32ConvertUI32), (0xB4, .f32ConvertSI64),
   (0xB5, .f32ConvertUI64), (0xB6, .f32DemoteF64), (0xB7, .f64ConvertSI32), (0xB8, .f64ConvertUI32),
   (0xB9, .f64ConvertSI64), (0xBA, .f64ConvertUI64), (0xBB, .f64PromoteF32),
   (0xBC, .i32ReinterpretF32), (0xBD, .i64ReinterpretF64), (0xBE, .f32ReinterpretI32),
   (0xBF, .f64ReinterpretI64), (0xC0, .i32Extend8S), (0xC1, .i32Extend16S), (0xC2, .i64Extend8S),
   (0xC3, .i64Extend16S), (0xC4, .i64Extend32S)]

/-- `vec_opcodes` values, read as a varuint32 after `vector_prefix`. -/
def vecLoadOpcodes : List (Nat × LoadOp) :=
  [(0, .v128Load), (1, .v128Load8x8S), (2, .v128Load8x8U), (3, .v128Load16x4S), (4, .v128Load16x4U),
   (5, .v128Load32x2S), (6, .v128Load32x2U), (7, .v128Load8Splat), (8, .v128Load16Splat),
   (9, .v128Load32Splat), (10, .v128Load64Splat), (92, .v128Load32Zero), (93, .v128Load64Zero)]

/-- `vec_opcodes` of `STORE_OP`. -/
def vecStoreOpcodes : List (Nat × StoreOp) :=
  [(11, .v128Store)]

/-- `vec_opcodes` of `LOADLANE_OP`. -/
def loadLaneOpcodes : List (Nat × LoadLaneOp) :=
  [(84, .v128Load8Lane), (85, .v128Load16Lane), (86, .v128Load32Lane), (87, .v128Load64Lane)]

/-- `vec_opcodes` of `STORELANE_OP`. -/
def storeLaneOpcodes : List (Nat × StoreLaneOp) :=
  [(88, .v128Store8Lane), (89, .v128Store16Lane), (90, .v128Store32Lane), (91, .v128Store64Lane)]

/-- `vec_opcodes` of `EXTRACT_LANE_OP`. -/
def extractLaneOpcodes : List (Nat × ExtractLaneOp) :=
  [(21, .i8x16ExtractLaneS), (22, .i8x16ExtractLaneU), (24, .i16x8ExtractLaneS),
   (25, .i16x8ExtractLaneU), (27, .i32x4ExtractLane), (29, .i64x2ExtractLane),
   (31, .f32x4ExtractLane), (33, .f64x2ExtractLane)]

/-- `vec_opcodes` of `REPLACE_LANE_OP`. -/
def replaceLaneOpcodes : List (Nat × ReplaceLaneOp) :=
  [(23, .i8x16ReplaceLane), (26, .i16x8ReplaceLane), (28, .i32x4ReplaceLane),
   (30, .i64x2ReplaceLane), (32, .f32x4ReplaceLane), (34, .f64x2ReplaceLane)]

/-- `vec_opcodes` of `NUMERIC_OP`. -/
def vecNumericOpcodes : List (Nat × VecNumericOp) :=
  [(14, .i8x16Swizzle), (15, .i8x16Splat), (16, .i16x8Splat), (17, .i32x4Splat), (18, .i64x2Splat),
   (19, .f32x4Splat), (20, .f64x2Splat), (35, .i8x16Eq), (36, .i8x16Ne), (37, .i8x16LtS),
   (38, .i8x16LtU), (39, .i8x16GtS), (40, .i8x16GtU), (41, .i8x16LeS), (42, .i8x16LeU),
   (43, .i8x16GeS), (44, .i8x16GeU), (45, .i16x8Eq), (46, .i16x8Ne), (47, .i16x8LtS),
   (48, .i16x8LtU), (49, .i16x8GtS), (50, .i16x8GtU), (51, .i16x8LeS), (52, .i16x8LeU),
   (53, .i16x8GeS), (54, .i16x8GeU), (55, .i32x4Eq), (56, .i32x4Ne), (57, .i32x4LtS),
   (58, .i32x4LtU), (59, .i32x4GtS), (60, .i32x4GtU), (61, .i32x4LeS), (62, .i32x4LeU),
   (63, .i32x4GeS), (64, .i32x4GeU), (214, .i64x2Eq), (215, .i64x2Ne), (216, .i64x2LtS),
   (217, .i64x2GtS), (218, .i64x2LeS), (219, .i64x2GeS), (65, .f32x4Eq), (66, .f32x4Ne),
   (67, .f32x4Lt), (68, .f32x4Gt), (69, .f32x4Le), (70, .f32x4Ge), (71, .f64x2Eq), (72, .f64x2Ne),
   (73, .f64x2Lt), (74, .f64x2Gt), (75, .f64x2Le), (76, .f64x2Ge), (77, .v128Not), (78, .v128And),
   (79, .v128Andnot), (80, .v128Or), (81, .v128Xor), (82, .v128Bitselect), (83, .v128AnyTrue),
   (96, .i8x16Abs), (97, .i8x16Neg), (98, .i8x16Popcnt), (99, .i8x16AllTrue), (100, .i8x16Bitmask),
   (101, .i8x16NarrowI16x8S), (102, .i8x16NarrowI16x8U), (107, .i8x16Shl), (108, .i8x16ShrS),
   (109, .i8x16ShrU), (110, .i8x16Add), (111, .i8x16AddSatS), (112, .i8x16AddSatU),
   (113, .i8x16Sub), (114, .i8x16SubSatS), (115, .i8x16SubSatU), (118, .i8x16MinS),
   (119, .i8x16MinU), (120, .i8x16MaxS), (121, .i8x16MaxU), (123, .i8x16AvgrU),
   (124, .i16x8ExtaddPairwiseI8x16S), (125, .i16x8ExtaddPairwiseI8x16U), (128, .i16x8Abs),
   (129, .i16x8Neg), (130, .i16x8Q15mulrSatS), (131, .i16x8AllTrue), (132, .i16x8Bitmask),
   (133, .i16x8NarrowI32x4S), (134, .i16x8NarrowI32x4U), (135, .i16x8ExtendLowI8x16S),
   (136, .i16x8ExtendHighI8x16S), (137, .i16x8ExtendLowI8x16U), (138, .i16x8ExtendHighI8x16U),
   (139, .i16x8Shl), (140, .i16x8ShrS), (141, .i16x8ShrU), (142, .i16x8Add), (143, .i16x8AddSatS),
   (144, .i16x8AddSatU), (145, .i16x8Sub), (146, .i16x8SubSatS), (147, .i16x8SubSatU),
   (149, .i16x8Mul), (150, .i16x8MinS), (151, .i16x8MinU), (152, .i16x8MaxS), (153, .i16x8MaxU),
   (155, .i16x8AvgrU), (156, .i16x8ExtmulLowI8x16S), (157, .i16x8ExtmulHighI8x16S),
   (158, .i16x8ExtmulLowI8x16U), (159, .i16x8ExtmulHighI8x16U), (126, .i32x4ExtaddPairwiseI16x8S),
   (127, .i32x4ExtaddPairwiseI16x8U), (160, .i32x4Abs), (161, .i32x4Neg), (163, .i32x4AllTrue),
   (164, .i32x4Bitmask), (167, .i32x4ExtendLowI16x8S), (168, .i32x4ExtendHighI16x8S),
   (169, .i32x4ExtendLowI16x8U), (170, .i32x4ExtendHighI16x8U), (171, .i32x4Shl), (172, .i32x4ShrS),
   (173, .i32x4ShrU), (174, .i32x4Add), (177, .i32x4Sub), (181, .i32x4Mul), (182, .i32x4MinS),
   (183, .i32x4MinU), (184, .i32x4MaxS), (185, .i32x4MaxU), (186, .i32x4DotI16x8S),
   (188, .i32x4ExtmulLowI16x8S), (189, .i32x4ExtmulHighI16x8S), (190, .i32x4ExtmulLowI16x8U),
   (191, .i32x4ExtmulHighI16x8U), (192, .i64x2Abs), (193, .i64x2Neg), (195, .i64x2AllTrue),
   (196, .i64x2Bitmask), (199, .i64x2ExtendLowI32x4S), (200, .i64x2ExtendHighI32x4S),
   (201, .i64x2ExtendLowI32x4U), (202, .i64x2ExtendHighI32x4U), (203, .i64x2Shl), (204, .i64x2ShrS),
   (205, .i64x2ShrU), (206, .i64x2Add), (209, .i64x2Sub), (213, .i64x2Mul),
   (220, .i64x2ExtmulLowI32x4S), (221, .i64x2ExtmulHighI32x4S), (222, .i64x2ExtmulLowI32x4U),
   (223, .i64x2ExtmulHighI32x4U), (103, .f32x4Ceil), (104, .f32x4Floor), (105, .f32x4Trunc),
   (106, .f32x4Nearest), (224, .f32x4Abs), (225, .f32x4Neg), (227, .f32x4Sqrt), (228, .f32x4Add),
   (229, .f32x4Sub), (230, .f32x4Mul), (231, .f32x4Div), (232, .f32x4Min), (233, .f32x4Max),
   (234, .f32x4Pmin), (235, .f32x4Pmax), (116, .f64x2Ceil), (117, .f64x2Floor), (122, .f64x2Trunc),
   (148, .f64x2Nearest), (236, .f64x2Abs), (237, .f64x2Neg), (239, .f64x2Sqrt), (240, .f64x2Add),
   (241, .f64x2Sub), (242, .f64x2Mul), (243, .f64x2Div), (244, .f64x2Min), (245, .f64x2Max),
   (246, .f64x2Pmin), (247, .f64x2Pmax), (248, .i32x4TruncSatF32x4S), (249, .i32x4TruncSatF32x4U),
   (250, .f32x4ConvertI32x4S), (251, .f32x4ConvertI32x4U), (252, .i32x4TruncSatF64x2SZero),
   (253, .i32x4TruncSatF64x2UZero), (254, .f64x2ConvertLowI32x4S), (255, .f64x2ConvertLowI32x4U),
   (94, .f32x4DemoteF64x2Zero), (95, .f64x2PromoteLowF32x4)]

/-- `ext_opcodes` of `TRUNC_SAT_OP`. -/
def truncSatOpcodes : List (Nat × TruncSatOp) :=
  [(0, .i32TruncSatF32S), (1, .i32TruncSatF32U), (2, .i32TruncSatF64S), (3, .i32TruncSatF64U),
   (4, .i64TruncSatF32S), (5, .i64TruncSatF32U), (6, .i64TruncSatF64S), (7, .i64TruncSatF64U)]

end EosVm
