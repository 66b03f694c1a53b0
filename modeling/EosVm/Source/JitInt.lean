import EosVm.Lib.X86.Code
import EosVm.Source.JitMemory
import EosVm.Spec.IntOps

/-!
# Machine code of the integer instructions

The code that `machine_code_writer` emits for the scalar integer instructions. What was emitted last
can be folded into the next instruction: a constant or a local becomes an operand, and a value that
was just pushed is taken from its register. The instructions of `i64` that are written as bytes fold
nothing.
-/

set_option autoImplicit false

namespace EosVm

open Lib.X86

/-- The kinds of `recent_op_t` that these instructions fold. A local is at `rbp + disp`. -/
inductive RecentOp where
  | getLocal (disp : Int)
  | i32Const (value : BitVec 32)
  | i64Const (value : BitVec 64)
  | push (reg : Reg)
  deriving DecidableEq, Repr

/-- Emitted code, with the operations before it that it takes the place of, the last one first. -/
structure IntCode where
  folded : List RecentOp
  code : List (Lib.X86.Instr JitHandler)

/-- Code without branches. -/
def IntCode.straight (folded : List RecentOp) (ops : List Op) : IntCode := ⟨folded, ops.map .op⟩

/-- `emit_pop`, with the operation right before it. Of a `get_local` only the push is undone. -/
def popOps : Option RecentOp → Reg → List Op
  | none, reg => [.pop reg]
  | some (.i32Const v), reg => [.mov .w32 reg (.imm v)]
  | some (.i64Const v), reg => [.movImm64 reg v]
  | some (.push r), reg => if r = reg then [] else [.mov .w64 reg (.reg r)]
  | some (.getLocal disp), reg =>
    .mov .w64 .rax (.mem .rbp disp) :: if reg = .rax then [] else [.mov .w64 reg (.reg .rax)]

/-- Code that begins with an `emit_pop`. Nothing before the popped value is folded, because the pop
is code or what it undoes has code before its push. -/
def popFirst (recent : List RecentOp) (reg : Reg) (ops : List Op) : IntCode :=
  .straight recent.head?.toList (popOps recent.head? reg ++ ops)

/-- Code that begins with an `emit_pop` after `op` was folded. -/
def foldFirst (op : RecentOp) (recent : List RecentOp) (reg : Reg) (ops : List Op) : IntCode :=
  .straight (op :: recent.head?.toList) (popOps recent.head? reg ++ ops)

/-- An immediate that fits in a byte is encoded as one, which is extended by its sign. -/
def immediate (v : BitVec 32) : Operand :=
  .imm (if -0x80 ≤ v.toInt ∧ v.toInt ≤ 0x7f then (v.setWidth 8).signExtend 32 else v)

/-- The condition of a comparison. -/
def IRelOp.cond : IRelOp → Cond
  | .eq => .e
  | .ne => .ne
  | .ltS => .l
  | .ltU => .b
  | .gtS => .g
  | .gtU => .a
  | .leS => .le
  | .leU => .be
  | .geS => .ge
  | .geU => .ae

/-- `emit_i32_relop`. -/
def emitI32Relop (op : IRelOp) (recent : List RecentOp) : IntCode :=
  popFirst recent .rax [.pop .rcx, .alu .xor .w32 .rdx (.reg .rdx), .cmp .w32 .rcx (.reg .rax),
    .setcc op.cond .rdx, .push .rdx]

/-- `emit_i64_relop`. -/
def emitI64Relop (op : IRelOp) : IntCode :=
  .straight [] [.pop .rax, .pop .rcx, .alu .xor .w64 .rdx (.reg .rdx), .cmp .w64 .rcx (.reg .rax),
    .setcc op.cond .rdx, .push .rdx]

/-- `emit_i64_binop`. -/
def emitI64Binop (ops : List Op) : IntCode := .straight [] (.pop .rcx :: .pop .rax :: ops)

/-- The part of `emit_i32_rem_s` and `emit_i64_rem_s` after the operands are popped. -/
def emitRemS (w : Width) : Emit JitHandler Unit := do
  emit (.cmp w .rcx (immediate (-1)))
  let minus1 ← emitBranch .e
  emit (.signExtendAcc w)
  emit (.idiv w .rcx)
  let done ← emitJmp
  fixHere minus1
  emit (.alu .xor .w32 .rdx (.reg .rdx))
  fixHere done
  emit (.push .rdx)

/-- The `i32` binops. -/
def emitI32Bin (recent : List RecentOp) : IBinOp → IntCode
  | .add =>
    match recent with
    | .getLocal disp :: recent =>
      foldFirst (.getLocal disp) recent .rax [.alu .add .w32 .rax (.mem .rbp disp), .push .rax]
    | .i32Const v :: recent =>
      foldFirst (.i32Const v) recent .rax [.alu .add .w32 .rax (immediate v), .push .rax]
    | recent => popFirst recent .rax [.pop .rcx, .alu .add .w32 .rax (.reg .rcx), .push .rax]
  | .sub =>
    match recent with
    | .i32Const v :: recent =>
      foldFirst (.i32Const v) recent .rax [.alu .sub .w32 .rax (immediate v), .push .rax]
    | recent => popFirst recent .rcx [.pop .rax, .alu .sub .w32 .rax (.reg .rcx), .push .rax]
  | .mul => popFirst recent .rax [.pop .rcx, .imul .w32 .rax .rcx, .push .rax]
  | .divS => popFirst recent .rcx [.pop .rax, .signExtendAcc .w32, .idiv .w32 .rcx, .push .rax]
  | .divU =>
    popFirst recent .rcx
      [.pop .rax, .alu .xor .w32 .rdx (.reg .rdx), .div .w32 .rcx, .push .rax]
  | .remS =>
    ⟨recent.head?.toList, assemble do
      emitOps (popOps recent.head? .rcx ++ [.pop .rax])
      emitRemS .w32⟩
  | .remU =>
    popFirst recent .rcx
      [.pop .rax, .alu .xor .w32 .rdx (.reg .rdx), .div .w32 .rcx, .push .rdx]
  | .and =>
    match recent with
    | .i32Const v :: recent =>
      foldFirst (.i32Const v) recent .rax [.alu .and .w32 .rax (immediate v), .push .rax]
    | recent => popFirst recent .rax [.pop .rcx, .alu .and .w32 .rax (.reg .rcx), .push .rax]
  | .or =>
    match recent with
    | .i32Const v :: recent =>
      foldFirst (.i32Const v) recent .rax [.alu .or .w32 .rax (immediate v), .push .rax]
    | recent => popFirst recent .rax [.pop .rcx, .alu .or .w32 .rax (.reg .rcx), .push .rax]
  | .xor =>
    match recent with
    | .getLocal disp :: recent =>
      foldFirst (.getLocal disp) recent .rax [.alu .xor .w32 .rax (.mem .rbp disp), .push .rax]
    | .i32Const v :: recent =>
      foldFirst (.i32Const v) recent .rax
        [if v = 0xffffffff then .not .w32 .rax else .alu .xor .w32 .rax (immediate v), .push .rax]
    | recent => popFirst recent .rax [.pop .rcx, .alu .xor .w32 .rax (.reg .rcx), .push .rax]
  | .shl =>
    match recent with
    | .i32Const v :: recent =>
      foldFirst (.i32Const v) recent .rax
        [.shiftImm .shl .w32 .rax ((v &&& 0x1f).setWidth 8), .push .rax]
    | recent => popFirst recent .rcx [.pop .rax, .shiftCl .shl .w32 .rax, .push .rax]
  | .shrS => popFirst recent .rcx [.pop .rax, .shiftCl .sar .w32 .rax, .push .rax]
  | .shrU =>
    match recent with
    | .i32Const v :: recent =>
      foldFirst (.i32Const v) recent .rax
        [.shiftImm .shr .w32 .rax ((v &&& 0x1f).setWidth 8), .push .rax]
    | recent => popFirst recent .rcx [.pop .rax, .shiftCl .shr .w32 .rax, .push .rax]
  | .rotl => popFirst recent .rcx [.pop .rax, .shiftCl .rol .w32 .rax, .push .rax]
  | .rotr => popFirst recent .rcx [.pop .rax, .shiftCl .ror .w32 .rax, .push .rax]

/-- The shifts of `i64`. -/
def emitI64Shift (op : Shift) (recent : List RecentOp) : IntCode :=
  match recent with
  | .i64Const v :: recent =>
    foldFirst (.i64Const v) recent .rax
      [.shiftImm op .w64 .rax ((v &&& 0x3f).setWidth 8), .push .rax]
  | recent => popFirst recent .rcx [.pop .rax, .shiftCl op .w64 .rax, .push .rax]

/-- The `i64` binops. -/
def emitI64Bin (recent : List RecentOp) : IBinOp → IntCode
  | .add =>
    match recent with
    | .i64Const v :: recent =>
      foldFirst (.i64Const v) recent .rax
        [.movImm64 .rcx v, .alu .add .w64 .rax (.reg .rcx), .push .rax]
    | recent => popFirst recent .rax [.pop .rcx, .alu .add .w64 .rax (.reg .rcx), .push .rax]
  | .sub => emitI64Binop [.alu .sub .w64 .rax (.reg .rcx), .push .rax]
  | .mul => popFirst recent .rax [.pop .rcx, .imul .w64 .rax .rcx, .push .rax]
  | .divS => emitI64Binop [.signExtendAcc .w64, .idiv .w64 .rcx, .push .rax]
  | .divU => emitI64Binop [.alu .xor .w64 .rdx (.reg .rdx), .div .w64 .rcx, .push .rax]
  | .remS =>
    ⟨[], assemble do
      emitOps [.pop .rcx, .pop .rax]
      emitRemS .w64⟩
  | .remU => emitI64Binop [.alu .xor .w64 .rdx (.reg .rdx), .div .w64 .rcx, .push .rdx]
  | .and => emitI64Binop [.alu .and .w64 .rax (.reg .rcx), .push .rax]
  | .or => emitI64Binop [.alu .or .w64 .rax (.reg .rcx), .push .rax]
  | .xor => emitI64Binop [.alu .xor .w64 .rax (.reg .rcx), .push .rax]
  | .shl => emitI64Shift .shl recent
  | .shrS => emitI64Shift .sar recent
  | .shrU => emitI64Shift .shr recent
  | .rotl => emitI64Binop [.shiftCl .rol .w64 .rax, .push .rax]
  | .rotr => emitI64Binop [.shiftCl .ror .w64 .rax, .push .rax]

/-- The instructions with two operands. -/
def emitBinary (recent : List RecentOp) : IBinaryInstr → IntCode
  | .rel .i32 op => emitI32Relop op recent
  | .rel .i64 op => emitI64Relop op
  | .bin .i32 op => emitI32Bin recent op
  | .bin .i64 op => emitI64Bin recent op

/-- The instructions with one operand; `tzcnt` is `has_tzcnt()`. -/
def emitUnary (tzcnt : Bool) (recent : List RecentOp) : IUnaryInstr → IntCode
  | .eqz .i32 =>
    popFirst recent .rax
      [.alu .xor .w32 .rcx (.reg .rcx), .test .w32 .rax .rax, .setcc .e .rcx, .push .rcx]
  | .eqz .i64 =>
    .straight []
      [.pop .rax, .alu .xor .w64 .rcx (.reg .rcx), .test .w64 .rax .rax, .setcc .e .rcx, .push .rcx]
  | .clz .i32 =>
    if tzcnt then popFirst recent .rax [.scan .lzcnt .w32 .rax .rax, .push .rax]
    else
      popFirst recent .rax
        [.mov .w32 .rcx (.imm (-1)), .scan .bsr .w32 .rax .rax, .cmov .e .w32 .rax .rcx,
          .alu .sub .w32 .rax (immediate 31), .neg .w32 .rax, .push .rax]
  | .clz .i64 =>
    if tzcnt then .straight [] [.pop .rax, .scan .lzcnt .w64 .rax .rax, .push .rax]
    else
      .straight []
        [.pop .rax, .mov .w64 .rcx (.imm (-1)), .scan .bsr .w64 .rax .rax, .cmov .e .w64 .rax .rcx,
          .alu .sub .w64 .rax (.imm 63), .neg .w64 .rax, .push .rax]
  | .ctz .i32 =>
    if tzcnt then popFirst recent .rax [.scan .tzcnt .w32 .rax .rax, .push .rax]
    else
      popFirst recent .rax
        [.mov .w32 .rcx (.imm 32), .scan .bsf .w32 .rax .rax, .cmov .e .w32 .rax .rcx, .push .rax]
  | .ctz .i64 =>
    if tzcnt then .straight [] [.pop .rax, .scan .tzcnt .w64 .rax .rax, .push .rax]
    else
      .straight []
        [.pop .rax, .mov .w64 .rcx (.imm 64), .scan .bsf .w64 .rax .rax, .cmov .e .w64 .rax .rcx,
          .push .rax]
  | .popcnt .i32 => popFirst recent .rax [.scan .popcnt .w32 .rax .rax, .push .rax]
  | .popcnt .i64 => .straight [] [.pop .rax, .scan .popcnt .w64 .rax .rax, .push .rax]
  | .wrap => popFirst recent .rax [.mov .w32 .rax (.reg .rax), .push .rax]
  | .extendI32S => .straight [] [.movsxTop 32 .w64 .rax, .movTop .w64 .rax]
  | .extendI32U => .straight [] []
  | .extend8S .i32 => .straight [] [.movsxTop 8 .w32 .rax, .movTop .w32 .rax]
  | .extend8S .i64 => .straight [] [.movsxTop 8 .w64 .rax, .movTop .w64 .rax]
  | .extend16S .i32 => .straight [] [.movsxTop 16 .w32 .rax, .movTop .w32 .rax]
  | .extend16S .i64 => .straight [] [.movsxTop 16 .w64 .rax, .movTop .w64 .rax]
  | .extend32S => .straight [] [.movsxTop 32 .w64 .rax, .movTop .w64 .rax]

end EosVm
