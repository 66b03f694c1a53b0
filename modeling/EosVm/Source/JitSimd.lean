import EosVm.Source.JitInt
import EosVm.Spec.SimdOps

/-!
# Machine code of the vector instructions

The code that `machine_code_writer` emits for integer vector instructions that take several
instructions of the processor. A vector is in two slots of the native stack, the low half on top.
Only the count of a shift is popped with `emit_pop`, which can fold what was emitted before.
-/

set_option autoImplicit false

namespace EosVm

open Lib Lib.X86

/-- The static table `popcnt4`. -/
def popcnt4 : List Nat := [0, 1, 1, 2, 1, 2, 2, 3, 1, 2, 2, 3, 2, 3, 3, 4]

/-- `emit_const_zero`. -/
def emitConstZero (reg : Fin 16) : Op := .vec₂ .xor (.xmm reg) reg reg

/-- `emit_const_ones`. -/
def emitConstOnes (reg : Fin 16) : Op := .vec₂ (.cmpeq 8) (.xmm reg) reg reg

/-- `emit_i8x16_popcnt`, with the address of `popcnt4`. -/
def emitI8x16Popcnt (table : BitVec 64) : List Op :=
  [.movImm64 .rax table, .loadTopXmm 0, .vload .rax 3, .movImm8 .rax 0x0f, .vmov .w32 .rax 2,
    .vec .broadcastb (.xmm 2) 2, .vec (.shift .srl 64 4) (.xmm 0) 1, .vec₂ .and (.xmm 2) 0 0,
    .vec₂ .and (.xmm 2) 1 1, .vec₂ .shufb (.xmm 0) 3 0, .vec₂ .shufb (.xmm 1) 3 1,
    .vec₂ (.add 8) (.xmm 0) 1 0, .storeTopXmm 0]

/-- `emit_i64x2_abs`. -/
def emitI64x2Abs : List Op :=
  [.loadTopXmm 0, emitConstZero 1, .vec₂ (.cmpgt 64) (.xmm 0) 1 1, .vec₂ .xor (.xmm 0) 1 0,
    .vec₂ (.sub 64) (.xmm 1) 0 0, .storeTopXmm 0]

/-- A byte of `emit_shuffle_operand`. -/
def shuffleByte (lane : Fin 32) : BitVec 8 :=
  if lane.val < 16 then ~~~ BitVec.ofNat 8 lane else BitVec.ofNat 8 lane

/-- `emit_shuffle_operand` of the eight lanes from `start` on, as the constant that its bytes
are. -/
def shuffleOperand (lanes : Fin 16 → Fin 32) (start : Nat) : BitVec 64 :=
  (ofLanes 8 fun i => shuffleByte (lanes (Fin.ofNat 16 (start + i)))).setWidth 64

/-- `emit_i8x16_shuffle`. -/
def emitI8x16Shuffle (lanes : Fin 16 → Fin 32) : List Op :=
  [.movImm64 .rax (shuffleOperand lanes 0), .vmov .w64 .rax 2,
    .movImm64 .rax (shuffleOperand lanes 8), .vpinsrqHigh .rax 2 2, .loadTopXmm 0,
    .vec₂ .shufb (.xmm 2) 0 1, emitConstOnes 0, .vec₂ .xor (.xmm 0) 2 2, .addRsp 16,
    .loadTopXmm 0, .vec₂ .shufb (.xmm 2) 0 0, .vec₂ .or (.xmm 1) 0 0, .storeTopXmm 0]

/-- `emit_i8x16_swizzle`. -/
def emitI8x16Swizzle : List Op :=
  [.loadTopXmm 0, .addRsp 16, .mov .w32 .rax (.imm 0x70707070), .vmov .w32 .rax 1,
    .vec (.shufd 0) (.xmm 1) 1, .vec₂ (.addus 8) (.xmm 1) 0 1, .loadTopXmm 0,
    .vec₂ .shufb (.xmm 1) 0 0, .storeTopXmm 0]

/-- `emit_v128_irelop_minmax`. -/
def emitIrelopMinmax (opcode eq : VecBin) (flipResult : Bool) : List Op :=
  [.loadTopXmm 0, .addRsp 16, .vec₂ opcode .top 0 1, .vec₂ eq (.xmm 0) 1 0] ++
    (if flipResult then [] else [emitConstZero 1, .vec₂ (.cmpeq 8) (.xmm 1) 0 0]) ++
      [.storeTopXmm 0]

/-- The unsigned comparisons. -/
def emitRelU (shape : NarrowShape) : VRelOp → List Op
  | .ltU => emitIrelopMinmax (.minu shape.bits) (.cmpeq shape.bits) false
  | .gtU => emitIrelopMinmax (.maxu shape.bits) (.cmpeq shape.bits) false
  | .leU => emitIrelopMinmax (.maxu shape.bits) (.cmpeq shape.bits) true
  | .geU => emitIrelopMinmax (.minu shape.bits) (.cmpeq shape.bits) true

/-- `emit_i16x8_q15mulr_sat_s`. -/
def emitQ15mulrSatS : List Op :=
  [.loadTopXmm 0, .addRsp 16, .vec₂ .mulhrs .top 0 0, emitConstOnes 1,
    .vec (.shift .sll 16 15) (.xmm 1) 1, .vec₂ (.cmpeq 16) (.xmm 1) 0 1, .vec₂ .xor (.xmm 1) 0 0,
    .storeTopXmm 0]

/-- `emit_i64x2_mul`. -/
def emitI64x2Mul : List Op :=
  [.loadTopXmm 0, .addRsp 16, .loadTopXmm 1, .vec₂ (.muldq false) (.xmm 0) 1 2,
    .vec (.shufd 0xb1) (.xmm 0) 0, .vec₂ (.mull 32) (.xmm 0) 1 0, .vec₂ .haddd (.xmm 0) 0 0,
    emitConstZero 1, .vec₂ (.unpackl 32) (.xmm 0) 1 0, .vec₂ (.add 64) (.xmm 0) 2 0, .storeTopXmm 0]

/-- `emit_i16x8_extmul_low_i8x16_s` and `emit_i16x8_extmul_low_i8x16_u`. -/
def emitI16x8ExtmulLow (signed : Bool) : List Op :=
  [.vec (.widen signed 8) .top 1, .addRsp 16, .vec (.widen signed 8) .top 0,
    .vec₂ (.mull 16) (.xmm 0) 1 0, .storeTopXmm 0]

/-- `emit_i16x8_extmul_high_i8x16_s` and `emit_i16x8_extmul_high_i8x16_u`. -/
def emitI16x8ExtmulHigh (signed : Bool) : List Op :=
  [.loadTopXmm 1, .vec (.srldq 8) (.xmm 1) 1, .vec (.widen signed 8) (.xmm 1) 1, .addRsp 16,
    .loadTopXmm 0, .vec (.srldq 8) (.xmm 0) 0, .vec (.widen signed 8) (.xmm 0) 0,
    .vec₂ (.mull 16) (.xmm 0) 1 0, .storeTopXmm 0]

/-- `emit_i32x4_extmul_low_i16x8_s` and `emit_i32x4_extmul_low_i16x8_u`. -/
def emitI32x4ExtmulLow (signed : Bool) : List Op :=
  [.loadTopXmm 0, .addRsp 16, .loadTopXmm 1, .vec (.widen signed 16) (.xmm 0) 0,
    .vec (.widen signed 16) (.xmm 1) 1, .vec₂ (.mull 32) (.xmm 0) 1 0, .storeTopXmm 0]

/-- `emit_i32x4_extmul_high_i16x8_s` and `emit_i32x4_extmul_high_i16x8_u`. -/
def emitI32x4ExtmulHigh (signed : Bool) : List Op :=
  [.loadTopXmm 0, .addRsp 16, .loadTopXmm 1, .vec₂ (.mull 16) (.xmm 0) 1 2,
    .vec₂ (.mulh signed) (.xmm 0) 1 0, .vec₂ (.unpackh 16) (.xmm 0) 2 0, .storeTopXmm 0]

/-- `emit_i64x2_extmul_low_i32x4_s` and its three siblings. -/
def emitI64x2Extmul (signed : Bool) (order : BitVec 8) : List Op :=
  [.vec (.shufd order) .top 0, .addRsp 16, .vec (.shufd order) .top 1,
    .vec₂ (.muldq signed) (.xmm 0) 1 0, .storeTopXmm 0]

/-- The extended multiplications. -/
def emitExtmul (high signed : Bool) : NarrowShape → List Op
  | .i8x16 => if high then emitI16x8ExtmulHigh signed else emitI16x8ExtmulLow signed
  | .i16x8 => if high then emitI32x4ExtmulHigh signed else emitI32x4ExtmulLow signed
  | .i32x4 => emitI64x2Extmul signed (if high then 0x32 else 0x10)

/-- `emit_i8x16_shl` after the pop of the count. -/
def emitI8x16Shl : List Op :=
  [.loadTopXmm 0, .alu .and .w32 .rax (immediate 7), .vmov .w32 .rax 2, emitConstOnes 1,
    .vec₂ (.shift .sll 32) (.xmm 2) 1 1, .vec .broadcastb (.xmm 1) 1,
    .vec₂ (.shift .sll 16) (.xmm 2) 0 0, .vec₂ .and (.xmm 0) 1 0, .storeTopXmm 0]

/-- `emit_i8x16_shr_s`. -/
def emitI8x16ShrS : List Op :=
  [.loadTopXmm 0, .alu .and .w32 .rax (immediate 7), .vmov .w32 .rax 2, emitConstOnes 3,
    .vec (.shift .sll 16 8) (.xmm 3) 3, .vec (.shift .sll 16 8) (.xmm 0) 1,
    .vec (.shift .sra 16 8) (.xmm 1) 1, .vec₂ (.shift .sll 16) (.xmm 2) 3 3,
    .vec₂ .andn (.xmm 1) 3 1, .vec₂ .and (.xmm 3) 0 0, .vec₂ .or (.xmm 1) 0 0,
    .vec₂ (.shift .sra 16) (.xmm 2) 0 0, .storeTopXmm 0]

/-- `emit_i8x16_shr_u`. -/
def emitI8x16ShrU : List Op :=
  [.loadTopXmm 0, .alu .and .w32 .rax (immediate 7), .vmov .w32 .rax 2, emitConstOnes 1,
    .vec (.shift .sll 16 8) (.xmm 1) 1, .vec₂ (.shift .srl 16) (.xmm 2) 1 1,
    .vec .broadcastb (.xmm 1) 1, .vec₂ (.shift .srl 16) (.xmm 2) 0 0, .vec₂ .andn (.xmm 0) 1 0,
    .storeTopXmm 0]

/-- `emit_i64x2_shr_s`. -/
def emitI64x2ShrS : List Op :=
  [.alu .and .w32 .rax (immediate 0x3f), .mov .w32 .rcx (.imm 64), .alu .sub .w32 .rcx (.reg .rax),
    .loadTopXmm 0, .vmov .w32 .rax 1, .vmov .w32 .rcx 3, emitConstZero 2,
    .vec₂ (.cmpgt 64) (.xmm 0) 2 2, .vec₂ (.shift .sll 64) (.xmm 3) 2 2,
    .vec₂ (.shift .srl 64) (.xmm 1) 0 0, .vec₂ .or (.xmm 0) 2 0, .storeTopXmm 0]

/-- `emit_i16x8_bitmask`. -/
def emitI16x8Bitmask : IntCode :=
  .straight []
    [emitConstZero 0, .vec₂ (.cmpgt 16) .top 0 1, .vec₂ .packsswb (.xmm 0) 1 0, .addRsp 16,
      .vpmovmskb 0 .rax, .push .rax]

/-- The instructions with one vector. -/
def emitVUnary (table : BitVec 64) : VUnaryInstr → IntCode
  | .i8x16Popcnt => .straight [] (emitI8x16Popcnt table)
  | .i64x2Abs => .straight [] emitI64x2Abs

/-- The instructions with two vectors. -/
def emitVBinary : VBinaryInstr → IntCode
  | .shuffle lanes => .straight [] (emitI8x16Shuffle lanes)
  | .swizzle => .straight [] emitI8x16Swizzle
  | .relU shape op => .straight [] (emitRelU shape op)
  | .q15mulrSatS => .straight [] emitQ15mulrSatS
  | .i64x2Mul => .straight [] emitI64x2Mul
  | .extmul shape high signed => .straight [] (emitExtmul high signed shape)

/-- The instructions with a vector and a count. -/
def emitVShift (recent : List RecentOp) : VShiftInstr → IntCode
  | .i8x16Shl => popFirst recent .rax emitI8x16Shl
  | .i8x16ShrS => popFirst recent .rax emitI8x16ShrS
  | .i8x16ShrU => popFirst recent .rax emitI8x16ShrU
  | .i64x2ShrS => popFirst recent .rax emitI64x2ShrS

end EosVm
