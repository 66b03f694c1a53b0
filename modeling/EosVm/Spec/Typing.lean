import EosVm.Source.Decode

/-!
# WebAssembly 1.0 validation

The structured syntax of function bodies and its typing rules, for the control, parametric,
variable, memory and numeric instructions of WebAssembly 1.0 and the sign extension operators.
Nothing here follows the parser: the rules are those of the specification. Lists of operand types
have the top of the stack first.
-/

set_option autoImplicit false

namespace EosVm

namespace Spec

/-- An instruction sequence. Blocks are nested; an `if` without `else` is kept apart from one with
an empty `else`, since their encodings differ. -/
inductive Seq where
  | nil
  | plain (instr : Instr) (rest : Seq)
  | block (blocktype : UInt8) (body rest : Seq)
  | loop (blocktype : UInt8) (body rest : Seq)
  | if_ (blocktype : UInt8) (body rest : Seq)
  | ifElse (blocktype : UInt8) (body alternative rest : Seq)
  deriving DecidableEq, Repr

/-- The instructions in the order of the binary format. -/
def Seq.flatten : Seq → List Instr
  | .nil => []
  | .plain instr rest => instr :: rest.flatten
  | .block bt body rest => .block bt :: (body.flatten ++ .end_ :: rest.flatten)
  | .loop bt body rest => .loop bt :: (body.flatten ++ .end_ :: rest.flatten)
  | .if_ bt body rest => .if_ bt :: (body.flatten ++ .end_ :: rest.flatten)
  | .ifElse bt body alternative rest =>
    .if_ bt :: (body.flatten ++ .else_ :: (alternative.flatten ++ .end_ :: rest.flatten))

/-- The result type of a block type. The vector type is a value type here, since functions and
locals can have it. -/
def resultType (blocktype : UInt8) : Option (Option ValType) :=
  if blocktype = 0x40 then some none
  else if blocktype = 0x7f then some (some .i32)
  else if blocktype = 0x7e then some (some .i64)
  else if blocktype = 0x7d then some (some .f32)
  else if blocktype = 0x7c then some (some .f64)
  else if blocktype = 0x7b then some (some .v128)
  else none

/-- The shapes of numeric operators. -/
inductive NumericShape where
  | unop (t : ValType)
  | binop (t : ValType)
  | testop (t : ValType)
  | relop (t : ValType)
  | cvtop (source target : ValType)
  deriving DecidableEq, Repr

/-- Operands, first one first, and result of a numeric operator. -/
def NumericShape.type : NumericShape → List ValType × ValType
  | .unop t => ([t], t)
  | .binop t => ([t, t], t)
  | .testop t => ([t], .i32)
  | .relop t => ([t, t], .i32)
  | .cvtop source target => ([source], target)

/-- The shape of each operator. -/
def numericShape : NumericOp → NumericShape
  | .i32Clz | .i32Ctz | .i32Popcnt | .i32Extend8S | .i32Extend16S => .unop .i32
  | .i64Clz | .i64Ctz | .i64Popcnt | .i64Extend8S | .i64Extend16S | .i64Extend32S => .unop .i64
  | .f32Abs | .f32Neg | .f32Ceil | .f32Floor | .f32Trunc | .f32Nearest | .f32Sqrt => .unop .f32
  | .f64Abs | .f64Neg | .f64Ceil | .f64Floor | .f64Trunc | .f64Nearest | .f64Sqrt => .unop .f64
  | .i32Add | .i32Sub | .i32Mul | .i32DivS | .i32DivU | .i32RemS | .i32RemU | .i32And | .i32Or
  | .i32Xor | .i32Shl | .i32ShrS | .i32ShrU | .i32Rotl | .i32Rotr => .binop .i32
  | .i64Add | .i64Sub | .i64Mul | .i64DivS | .i64DivU | .i64RemS | .i64RemU | .i64And | .i64Or
  | .i64Xor | .i64Shl | .i64ShrS | .i64ShrU | .i64Rotl | .i64Rotr => .binop .i64
  | .f32Add | .f32Sub | .f32Mul | .f32Div | .f32Min | .f32Max | .f32Copysign => .binop .f32
  | .f64Add | .f64Sub | .f64Mul | .f64Div | .f64Min | .f64Max | .f64Copysign => .binop .f64
  | .i32Eqz => .testop .i32
  | .i64Eqz => .testop .i64
  | .i32Eq | .i32Ne | .i32LtS | .i32LtU | .i32GtS | .i32GtU | .i32LeS | .i32LeU | .i32GeS
  | .i32GeU => .relop .i32
  | .i64Eq | .i64Ne | .i64LtS | .i64LtU | .i64GtS | .i64GtU | .i64LeS | .i64LeU | .i64GeS
  | .i64GeU => .relop .i64
  | .f32Eq | .f32Ne | .f32Lt | .f32Gt | .f32Le | .f32Ge => .relop .f32
  | .f64Eq | .f64Ne | .f64Lt | .f64Gt | .f64Le | .f64Ge => .relop .f64
  | .i32WrapI64 => .cvtop .i64 .i32
  | .i32TruncSF32 | .i32TruncUF32 | .i32ReinterpretF32 => .cvtop .f32 .i32
  | .i32TruncSF64 | .i32TruncUF64 => .cvtop .f64 .i32
  | .i64ExtendSI32 | .i64ExtendUI32 => .cvtop .i32 .i64
  | .i64TruncSF32 | .i64TruncUF32 => .cvtop .f32 .i64
  | .i64TruncSF64 | .i64TruncUF64 | .i64ReinterpretF64 => .cvtop .f64 .i64
  | .f32ConvertSI32 | .f32ConvertUI32 | .f32ReinterpretI32 => .cvtop .i32 .f32
  | .f32ConvertSI64 | .f32ConvertUI64 => .cvtop .i64 .f32
  | .f32DemoteF64 => .cvtop .f64 .f32
  | .f64ConvertSI32 | .f64ConvertUI32 => .cvtop .i32 .f64
  | .f64ConvertSI64 | .f64ConvertUI64 | .f64ReinterpretI64 => .cvtop .i64 .f64
  | .f64PromoteF32 => .cvtop .f32 .f64

/-- The value type and the bytes in memory of a load; vector loads are not in WebAssembly 1.0. -/
def loadType : LoadOp → Option (ValType × Nat)
  | .i32Load => some (.i32, 4)
  | .i64Load => some (.i64, 8)
  | .f32Load => some (.f32, 4)
  | .f64Load => some (.f64, 8)
  | .i32Load8S | .i32Load8U => some (.i32, 1)
  | .i32Load16S | .i32Load16U => some (.i32, 2)
  | .i64Load8S | .i64Load8U => some (.i64, 1)
  | .i64Load16S | .i64Load16U => some (.i64, 2)
  | .i64Load32S | .i64Load32U => some (.i64, 4)
  | _ => none

/-- The value type and the bytes in memory of a store. -/
def storeType : StoreOp → Option (ValType × Nat)
  | .i32Store => some (.i32, 4)
  | .i64Store => some (.i64, 8)
  | .f32Store => some (.f32, 4)
  | .f64Store => some (.f64, 8)
  | .i32Store8 => some (.i32, 1)
  | .i32Store16 => some (.i32, 2)
  | .i64Store8 => some (.i64, 1)
  | .i64Store16 => some (.i64, 2)
  | .i64Store32 => some (.i64, 4)
  | .v128Store => none

/-- The instructions of WebAssembly 1.0 and the sign extension operators. -/
def isMvp : Instr → Bool
  | .load op _ _ => (loadType op).isSome
  | .store op _ _ => (storeType op).isSome
  | .loadLane .. | .storeLane .. | .v128Const _ | .i8x16Shuffle _ | .extractLane ..
  | .replaceLane .. | .vecNumeric _ | .truncSat _ | .memoryInit _ | .dataDrop _ | .memoryCopy
  | .memoryFill | .tableInit _ | .elemDrop _ | .tableCopy => false
  | _ => true

/-- The typing context. `funcs` are the type indices of all functions, `globals` the types of the
globals and whether they are mutable; `tables` and `mems` are numbers. -/
structure Context where
  types : List FuncType
  funcs : List Nat
  tables : Nat
  mems : Nat
  globals : List (ValType × Bool)
  locals : List ValType
  labels : List (Option ValType)
  result : Option ValType

/-- The context inside a block. -/
def Context.enter (c : Context) (label : Option ValType) : Context :=
  { c with labels := label :: c.labels }

/-- The instructions without nested instructions: what they take from the stack and leave there. -/
inductive Step (c : Context) : Instr → List ValType → List ValType → Prop where
  | unreachable (before after : List ValType) : Step c .unreachable before after
  | nop : Step c .nop [] []
  | br {label : Nat} {result : Option ValType} (before after : List ValType)
      (hlabel : c.labels[label]? = some result) :
      Step c (.br label) (result.toList ++ before) after
  | brIf {label : Nat} {result : Option ValType} (hlabel : c.labels[label]? = some result) :
      Step c (.brIf label) (.i32 :: result.toList) result.toList
  | brTable {labels : List Nat} {default : Nat} {result : Option ValType}
      (before after : List ValType) (hlabels : ∀ label ∈ labels, c.labels[label]? = some result)
      (hdefault : c.labels[default]? = some result) :
      Step c (.brTable labels default) (.i32 :: (result.toList ++ before)) after
  | return_ (before after : List ValType) : Step c .return_ (c.result.toList ++ before) after
  | call {x y : Nat} {ft : FuncType} (hfunc : c.funcs[x]? = some y)
      (htype : c.types[y]? = some ft) :
      Step c (.call x) ft.paramTypes.reverse ft.result.toList
  | callIndirect {x : Nat} {ft : FuncType} (htable : 0 < c.tables)
      (htype : c.types[x]? = some ft) :
      Step c (.callIndirect x) (.i32 :: ft.paramTypes.reverse) ft.result.toList
  | drop (t : ValType) : Step c .drop [t] []
  | select (t : ValType) : Step c .select [.i32, t, t] [t]
  | getLocal {x : Nat} {t : ValType} (hlocal : c.locals[x]? = some t) :
      Step c (.getLocal x) [] [t]
  | setLocal {x : Nat} {t : ValType} (hlocal : c.locals[x]? = some t) :
      Step c (.setLocal x) [t] []
  | teeLocal {x : Nat} {t : ValType} (hlocal : c.locals[x]? = some t) :
      Step c (.teeLocal x) [t] [t]
  | getGlobal {x : Nat} {t : ValType} {mutable : Bool}
      (hglobal : c.globals[x]? = some (t, mutable)) : Step c (.getGlobal x) [] [t]
  | setGlobal {x : Nat} {t : ValType} (hglobal : c.globals[x]? = some (t, true)) :
      Step c (.setGlobal x) [t] []
  | load {op : LoadOp} {alignment offset bytes : Nat} {t : ValType} (hmem : 0 < c.mems)
      (hop : loadType op = some (t, bytes)) (halign : 2 ^ alignment ≤ bytes) :
      Step c (.load op alignment offset) [.i32] [t]
  | store {op : StoreOp} {alignment offset bytes : Nat} {t : ValType} (hmem : 0 < c.mems)
      (hop : storeType op = some (t, bytes)) (halign : 2 ^ alignment ≤ bytes) :
      Step c (.store op alignment offset) [t, .i32] []
  | currentMemory (hmem : 0 < c.mems) : Step c .currentMemory [] [.i32]
  | growMemory (hmem : 0 < c.mems) : Step c .growMemory [.i32] [.i32]
  | i32Const (v : BitVec 32) : Step c (.i32Const v) [] [.i32]
  | i64Const (v : BitVec 64) : Step c (.i64Const v) [] [.i64]
  | f32Const (v : BitVec 32) : Step c (.f32Const v) [] [.f32]
  | f64Const (v : BitVec 64) : Step c (.f64Const v) [] [.f64]
  | numeric (op : NumericOp) :
      Step c (.numeric op) (numericShape op).type.1.reverse [(numericShape op).type.2]

/-- The typing of sequences. An instruction leaves the operands below those it takes alone. -/
inductive Typed : Context → Seq → List ValType → List ValType → Prop where
  | nil (c : Context) (t : List ValType) : Typed c .nil t t
  | plain {c : Context} {instr : Instr} {rest : Seq} {before after frame last : List ValType}
      (hinstr : Step c instr before after) (hrest : Typed c rest (after ++ frame) last) :
      Typed c (.plain instr rest) (before ++ frame) last
  | block {c : Context} {bt : UInt8} {result : Option ValType} {body rest : Seq}
      {frame last : List ValType} (hresult : resultType bt = some result)
      (hbody : Typed (c.enter result) body [] result.toList)
      (hrest : Typed c rest (result.toList ++ frame) last) :
      Typed c (.block bt body rest) frame last
  | loop {c : Context} {bt : UInt8} {result : Option ValType} {body rest : Seq}
      {frame last : List ValType} (hresult : resultType bt = some result)
      (hbody : Typed (c.enter none) body [] result.toList)
      (hrest : Typed c rest (result.toList ++ frame) last) :
      Typed c (.loop bt body rest) frame last
  | if_ {c : Context} {bt : UInt8} {result : Option ValType} {body rest : Seq}
      {frame last : List ValType} (hresult : resultType bt = some result)
      (hbody : Typed (c.enter result) body [] result.toList)
      (hempty : Typed (c.enter result) .nil [] result.toList)
      (hrest : Typed c rest (result.toList ++ frame) last) :
      Typed c (.if_ bt body rest) (.i32 :: frame) last
  | ifElse {c : Context} {bt : UInt8} {result : Option ValType} {body alternative rest : Seq}
      {frame last : List ValType} (hresult : resultType bt = some result)
      (hbody : Typed (c.enter result) body [] result.toList)
      (halternative : Typed (c.enter result) alternative [] result.toList)
      (hrest : Typed c rest (result.toList ++ frame) last) :
      Typed c (.ifElse bt body alternative rest) (.i32 :: frame) last

end Spec

end EosVm
