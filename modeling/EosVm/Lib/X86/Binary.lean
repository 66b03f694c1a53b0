import EosVm.Lib.X86.Code
import EosVm.Lib.X86.Encoding

/-!
# Execution of encoded instructions

The instructions of `Code` as they are found in bytes, and a processor that fetches and decodes
them. Instructions that are laid out in bytes run there as they do in a list.
-/

set_option autoImplicit false

namespace EosVm.Lib.X86

open Encoding

def Reg.number : Reg → BitVec 4
  | .rax => 0 | .rcx => 1 | .rdx => 2 | .rbx => 3 | .rsp => 4 | .rbp => 5 | .rsi => 6 | .rdi => 7
  | .r8 => 8 | .r9 => 9 | .r10 => 10 | .r11 => 11 | .r12 => 12 | .r13 => 13
  | .r14 => 14 | .r15 => 15

/-- The general register with a number. The stack pointer is apart from the others. -/
def gpr (n : BitVec 4) : Option Reg :=
  [.rax, .rcx, .rdx, .rbx, .rsp, .rbp, .rsi, .rdi, .r8, .r9, .r10, .r11, .r12, .r13, .r14,
    .r15][n.toNat]?.filter (· ≠ .rsp)

/-- The register whose low byte an operand is. Without a REX prefix four of them are other bytes. -/
def byteGpr (n : BitVec 4) : Option Reg := if 4 ≤ n ∧ n < 8 then none else gpr n

theorem gpr_number {r : Reg} (h : r ≠ .rsp) : gpr r.number = some r := by
  cases r with
  | rsp => exact absurd rfl h
  | _ => rfl

def widthOf (w : Bool) : Width := if w then .w64 else .w32

/-- The condition in the low bits of an opcode. -/
def condOf (n : BitVec 4) : Option Cond :=
  [none, none, some .b, some .ae, some .e, some .ne, some .be, some .a, none, none, none, none,
    some .l, some .ge, some .le, some .g][n.toNat]?.join

namespace Encoding.Insn

variable (i : Insn)

def rmReg : Option Reg :=
  match i.rm with
  | some (.reg n) => gpr n
  | _ => none

/-- What a general instruction reads. -/
def source : Option Operand :=
  match i.rm with
  | some (.reg n) => (gpr n).map .reg
  | some (.mem (some base) none disp) => (gpr base).map (.mem · disp.toInt)
  | _ => none

/-- Whether the operand is what is on top of the stack. -/
def isTop : Bool := i.rm = some (.mem (some 4) none 0)

/-- An immediate of up to four bytes, which is extended by its sign. -/
def immediate : Option (BitVec 32) :=
  match i.imm with
  | [a] => some (a.signExtend 32)
  | [a, b, c, d] => some (d ++ c ++ b ++ a)
  | _ => none

def immediate64 : Option (BitVec 64) :=
  match i.imm with
  | [a, b, c, d, e, f, g, h] => some (h ++ g ++ f ++ e ++ d ++ c ++ b ++ a)
  | _ => none

/-- The arithmetic of an opcode or of its extension. -/
def arithmetic (n : BitVec 3) (w : Width) (dst : Reg) (src : Operand) : Option Op :=
  if n = 0 then some (.alu .add w dst src)
  else if n = 1 then some (.alu .or w dst src)
  else if n = 4 then some (.alu .and w dst src)
  else if n = 5 then some (.alu .sub w dst src)
  else if n = 6 then some (.alu .xor w dst src)
  else if n = 7 then some (.cmp w dst src)
  else none

def shift (n : BitVec 3) : Option Shift :=
  if n = 0 then some .rol
  else if n = 1 then some .ror
  else if n = 4 then some .shl
  else if n = 5 then some .shr
  else if n = 7 then some .sar
  else none

/-- Opcodes `0xf7` and `0xff`. -/
def unary (opcode : Byte) (n : BitVec 3) (w : Width) (r : Reg) : Option Op :=
  if opcode = 0xff then if n = 1 then some (.dec w r) else none
  else if n = 2 then some (.not w r)
  else if n = 3 then some (.neg w r)
  else if n = 6 then some (.div w r)
  else if n = 7 then some (.idiv w r)
  else none

/-- The operation of an instruction of the primary map. -/
def primaryOp : Option Op :=
  let w := widthOf i.w
  let op := i.opcode
  let n : BitVec 3 := i.reg.setWidth 3
  if op < 0x40 then
    let group : BitVec 3 := op.extractLsb' 3 3
    if op &&& 7 = 3 then (gpr i.reg).bind fun dst => i.source.bind (arithmetic group w dst)
    else if op &&& 7 = 1 then
      i.rmReg.bind fun dst => (gpr i.reg).bind fun src => arithmetic group w dst (.reg src)
    else none
  else if op.extractLsb' 3 5 = 0xa then (gpr i.reg).map .push
  else if op.extractLsb' 3 5 = 0xb then (gpr i.reg).map .pop
  else if op.extractLsb' 3 5 = 0x17 then
    (gpr i.reg).bind fun dst =>
      if i.w then i.immediate64.map (.movImm64 dst)
      else i.immediate.map fun v => .mov w dst (.imm v)
  else if op = 0x63 then
    if i.isTop then (gpr i.reg).map (.movsxTop 32 w) else none
  else if op = 0x81 ∨ op = 0x83 then
    i.rmReg.bind fun dst => i.immediate.bind fun v => arithmetic n w dst (.imm v)
  else if op = 0x85 then i.rmReg.bind fun dst => (gpr i.reg).map (.test w dst)
  else if op = 0x89 then
    if i.isTop then (gpr i.reg).map (.movTop w)
    else i.rmReg.bind fun dst => (gpr i.reg).map fun src => .mov w dst (.reg src)
  else if op = 0x8b then
    if i.isTop then (gpr i.reg).map (.loadTop w)
    else (gpr i.reg).bind fun dst => i.source.map (.mov w dst)
  else if op = 0x99 then some (.signExtendAcc w)
  else if op = 0xc1 then
    (shift n).bind fun s => i.rmReg.bind fun dst => i.imm.head?.map (.shiftImm s w dst)
  else if op = 0xc7 then
    if n = 0 then i.rmReg.bind fun dst => i.immediate.map fun v => .mov w dst (.imm v) else none
  else if op = 0xd3 then (shift n).bind fun s => i.rmReg.map (.shiftCl s w)
  else if op = 0xf7 ∨ op = 0xff then i.rmReg.bind (unary op n w)
  else none

/-- The operation of an instruction of the map after `0x0f`. -/
def secondOp : Option Op :=
  let w := widthOf i.w
  let op := i.opcode
  let scan := fun s => i.rmReg.bind fun src => (gpr i.reg).map fun dst => Op.scan s w dst src
  if i.rep = some .f3 then
    if op = 0xb8 then scan .popcnt
    else if op = 0xbc then scan .tzcnt
    else if op = 0xbd then scan .lzcnt
    else none
  else if i.rep = some .f2 then none
  else if op.extractLsb' 4 4 = 4 then
    (condOf (op.setWidth 4)).bind fun c =>
      i.rmReg.bind fun src => (gpr i.reg).map fun dst => .cmov c w dst src
  else if op.extractLsb' 4 4 = 9 then
    (condOf (op.setWidth 4)).bind fun c =>
      match i.rm with
      | some (.reg n) => (byteGpr n).map (.setcc c)
      | _ => none
  else if op = 0xaf then i.rmReg.bind fun src => (gpr i.reg).map fun dst => .imul w dst src
  else if op = 0xbc then scan .bsf
  else if op = 0xbd then scan .bsr
  else if op = 0xbe ∧ i.isTop then (gpr i.reg).map (.movsxTop 8 w)
  else if op = 0xbf ∧ i.isTop then (gpr i.reg).map (.movsxTop 16 w)
  else none

end Encoding.Insn

/-- An operation, or a branch with its distance from the next instruction. -/
inductive Meaning where
  | op (o : Op)
  | jcc (c : Cond) (rel : BitVec 32)
  | jmp (rel : BitVec 32)
  deriving DecidableEq, Repr

/-- What an instruction does, where this is known. -/
def Encoding.Insn.meaning (i : Insn) : Option Meaning :=
  if i.opSize || i.vex.isSome then none
  else
    match i.map with
    | .primary =>
      if i.rep.isSome then none
      else if i.opcode.extractLsb' 4 4 = 7 then
        (condOf (i.opcode.setWidth 4)).bind fun c => i.immediate.map (.jcc c)
      else if i.opcode = 0xe9 ∨ i.opcode = 0xeb then i.immediate.map .jmp
      else i.primaryOp.map .op
    | .m0F =>
      if i.rep.isNone && i.opcode.extractLsb' 4 4 = 8 then
        (condOf (i.opcode.setWidth 4)).bind fun c => i.immediate.map (.jcc c)
      else i.secondOp.map .op
    | .m0F38 | .m0F3A => none

/-- The bytes are one instruction that does this. -/
def Decodes (bytes : List Byte) (meaning : Meaning) : Prop :=
  ∃ insn, decode bytes = some (insn, []) ∧ insn.meaning = some meaning

/-- The meanings of the instructions that bytes are, with the bytes of each. -/
def disassemble : Nat → List Byte → Option (List (Meaning × List Byte))
  | _, [] => some []
  | 0, _ :: _ => none
  | fuel + 1, bytes =>
    (decode bytes).bind fun d => d.1.meaning.bind fun meaning =>
      let first := bytes.take (bytes.length - d.2.length)
      if decode first = some (d.1, []) ∧ first ++ d.2 = bytes then
        (disassemble fuel d.2).map ((meaning, first) :: ·)
      else none

theorem disassemble_sound {fuel : Nat} {bytes : List Byte} {parts : List (Meaning × List Byte)}
    (h : disassemble fuel bytes = some parts) :
    parts.flatMap (·.2) = bytes ∧ ∀ part ∈ parts, Decodes part.2 part.1 := by
  induction fuel generalizing bytes parts with
  | zero =>
    cases bytes with
    | nil =>
      obtain rfl := Option.some.inj h
      exact ⟨rfl, by simp⟩
    | cons byte bytes => cases h
  | succ fuel ih =>
    cases bytes with
    | nil =>
      obtain rfl := Option.some.inj h
      exact ⟨rfl, by simp⟩
    | cons byte bytes =>
      obtain ⟨⟨insn, rest⟩, -, hinsn⟩ := Option.bind_eq_some_iff.mp h
      obtain ⟨meaning, hmeaning, hrest⟩ := Option.bind_eq_some_iff.mp hinsn
      dsimp only at hmeaning hrest
      split_ifs at hrest with hfirst
      obtain ⟨hdecode, happend⟩ := hfirst
      obtain ⟨parts', hparts, rfl⟩ := Option.map_eq_some_iff.mp hrest
      obtain ⟨hbytes, hdecodes⟩ := ih hparts
      refine ⟨?_, ?_⟩
      · rw [List.flatMap_cons, hbytes, happend]
      · rw [List.forall_mem_cons]
        exact ⟨⟨insn, hdecode, hmeaning⟩, hdecodes⟩

section Processor

variable {H : Type}

-- Branches out of the bytes lead to what `handler` says is at an address relative to their start.
variable (handler : Int → Option H) (code : List Byte)

/-- A branch from an instruction at `pos`. -/
def jumpTo (pos : Nat) (m : Machine) (address : Int) : Config H :=
  if 0 ≤ address ∧ address ≤ code.length then .run address.toNat m
  else (handler address).elim (.run pos m) (.exit · m)

/-- What an instruction does, where `next` is the position after it. -/
def perform (pos next : Nat) (m : Machine) : Meaning → Config H
  | .op o =>
    match o.exec m with
    | .ok m' => .run next m'
    | .error (f, m') => .fault f m'
  | .jcc c rel =>
    if c.holds m.flags then jumpTo handler code pos m (next + rel.toInt) else .run next m
  | .jmp rel => jumpTo handler code pos m (next + rel.toInt)

/-- Fetches an instruction, decodes it and executes it. What cannot be decoded stops here, as the
end of the bytes does. -/
def cycle : Config H → Config H
  | .run pos m =>
    match decode (code.drop pos) with
    | none => .run pos m
    | some (insn, rest) =>
      insn.meaning.elim (.run pos m) (perform handler code pos (code.length - rest.length) m)
  | c => c

/-- The bytes get from one configuration to the other. -/
def Executes (c c' : Config H) : Prop := ∃ k, (cycle handler code)^[k] c = c'

end Processor

section Layout

variable {H : Type}

/-- An instruction and its bytes. -/
abbrev Chunk (H : Type) := Instr H × List Byte

/-- The bytes of all instructions. -/
def image (chunks : List (Chunk H)) : List Byte := chunks.flatMap (·.2)

/-- The position of an instruction in the bytes. -/
def offset (chunks : List (Chunk H)) (i : Nat) : Nat := (image (chunks.take i)).length

variable (handler : Int → Option H)

/-- Where a branch leads in the bytes. -/
def Reaches (chunks : List (Chunk H)) (address : Int) : Target H → Prop
  | .code pos => address = offset chunks pos
  | .handler h => ¬(0 ≤ address ∧ address ≤ (image chunks).length) ∧ handler address = some h

/-- What bytes before position `next` mean is what the instruction does. -/
def Encodes (chunks : List (Chunk H)) (next : Nat) : Instr H → Meaning → Prop
  | .op o, meaning => meaning = .op o
  | .jcc c target, meaning =>
    ∃ rel, meaning = .jcc c rel ∧ Reaches handler chunks (next + rel.toInt) target
  | .jmp target, meaning =>
    ∃ rel, meaning = .jmp rel ∧ Reaches handler chunks (next + rel.toInt) target

/-- The bytes of every instruction are decoded as it. -/
def Assembled (chunks : List (Chunk H)) : Prop :=
  ∀ (i : Nat) (ins : Instr H) (bytes : List Byte), chunks[i]? = some (ins, bytes) →
    ∃ meaning, Decodes bytes meaning ∧ Encodes handler chunks (offset chunks (i + 1)) ins meaning

def Config.mapPos (f : Nat → Nat) : Config H → Config H
  | .run pos m => .run (f pos) m
  | .fault f m => .fault f m
  | .exit h m => .exit h m

variable {handler} {chunks : List (Chunk H)}

theorem image_append (chunks chunks' : List (Chunk H)) :
    image (chunks ++ chunks') = image chunks ++ image chunks' := List.flatMap_append

theorem offset_length (chunks : List (Chunk H)) :
    offset chunks chunks.length = (image chunks).length := by
  rw [offset, List.take_length]

theorem offset_le (chunks : List (Chunk H)) (i : Nat) :
    offset chunks i ≤ (image chunks).length := by
  conv_rhs => rw [← List.take_append_drop i chunks, image_append, List.length_append]
  exact Nat.le_add_right _ _

theorem offset_append (chunks chunks' : List (Chunk H)) (i : Nat) :
    offset (chunks ++ chunks') (chunks.length + i) = (image chunks).length + offset chunks' i := by
  rw [offset, List.take_length_add_append, image_append, List.length_append, offset]

theorem drop_offset (chunks : List (Chunk H)) (i : Nat) :
    (image chunks).drop (offset chunks i) = image (chunks.drop i) := by
  conv_lhs => rw [← List.take_append_drop i chunks, image_append]
  rw [List.take_append_drop, offset, List.drop_left]

theorem drop_eq_cons {i : Nat} {ins : Instr H} {bytes : List Byte}
    (h : chunks[i]? = some (ins, bytes)) :
    image (chunks.drop i) = bytes ++ image (chunks.drop (i + 1)) := by
  obtain ⟨hlt, hget⟩ := List.getElem?_eq_some_iff.mp h
  rw [List.drop_eq_getElem_cons hlt, hget]
  rfl

theorem length_sub_drop (chunks : List (Chunk H)) (i : Nat) :
    (image chunks).length - (image (chunks.drop i)).length = offset chunks i := by
  conv_lhs => rw [← List.take_append_drop i chunks, image_append]
  rw [List.take_append_drop, List.length_append, Nat.add_sub_cancel, offset]

/-- A branch leads to the same place. -/
theorem jumpTo_of_reaches {address : Int} {target : Target H} (pos : Nat) (m : Machine)
    (h : Reaches handler chunks address target) :
    jumpTo handler (image chunks) pos m address = (goto m target).mapPos (offset chunks) := by
  cases target with
  | code target =>
    obtain rfl := h
    have hle := offset_le chunks target
    rw [jumpTo, if_pos ⟨Int.natCast_nonneg _, by exact_mod_cast hle⟩, Int.toNat_natCast]
    rfl
  | handler h' =>
    obtain ⟨hout, hhandler⟩ := h
    rw [jumpTo, if_neg hout, hhandler]
    rfl

/-- The processor does with the bytes of an instruction what the instruction does. -/
theorem cycle_offset (h : Assembled handler chunks) (i : Nat) (m : Machine) :
    cycle handler (image chunks) (.run (offset chunks i) m) =
      (step (chunks.map (·.1)) (.run i m)).mapPos (offset chunks) := by
  simp only [cycle, drop_offset, step, List.getElem?_map]
  cases hget : chunks[i]? with
  | none =>
    rw [List.drop_eq_nil_of_le (List.getElem?_eq_none_iff.mp hget)]
    rfl
  | some chunk =>
    obtain ⟨ins, bytes⟩ := chunk
    obtain ⟨meaning, ⟨insn, hdecode, hmeaning⟩, hencodes⟩ := h i ins bytes hget
    rw [drop_eq_cons hget, decode_append _ hdecode, List.nil_append]
    simp only [hmeaning, Option.elim_some, Option.map_some, length_sub_drop]
    cases ins with
    | op o =>
      obtain rfl := hencodes
      simp only [perform]
      cases o.exec m <;> rfl
    | jcc c target =>
      obtain ⟨rel, rfl, hreaches⟩ := hencodes
      simp only [perform]
      cases c.holds m.flags with
      | true => exact jumpTo_of_reaches _ m hreaches
      | false => rfl
    | jmp target =>
      obtain ⟨rel, rfl, hreaches⟩ := hencodes
      exact jumpTo_of_reaches _ m hreaches

/-- Code without branches is assembled instruction by instruction. -/
theorem assembled_of_ops (h : ∀ chunk ∈ chunks, ∃ o, chunk.1 = .op o ∧ Decodes chunk.2 (.op o)) :
    Assembled handler chunks := by
  intro i ins bytes hget
  obtain ⟨o, rfl, hdecodes⟩ := h (ins, bytes) (List.mem_of_getElem? hget)
  exact ⟨.op o, hdecodes, rfl⟩

/-- Code that begins without branches is assembled where the rest is. -/
theorem assembled_append {chunks' : List (Chunk H)}
    (h : ∀ chunk ∈ chunks, ∃ o, chunk.1 = .op o ∧ Decodes chunk.2 (.op o))
    (h' : ∀ (i : Nat) (ins : Instr H) (bytes : List Byte), chunks'[i]? = some (ins, bytes) →
      ∃ meaning, Decodes bytes meaning ∧
        Encodes handler (chunks ++ chunks') ((image chunks).length + offset chunks' (i + 1)) ins
          meaning) :
    Assembled handler (chunks ++ chunks') := by
  intro i ins bytes hget
  by_cases hlt : i < chunks.length
  · rw [List.getElem?_append_left hlt] at hget
    obtain ⟨o, rfl, hdecodes⟩ := h (ins, bytes) (List.mem_of_getElem? hget)
    exact ⟨.op o, hdecodes, rfl⟩
  · obtain ⟨j, rfl⟩ := Nat.exists_eq_add_of_le (Nat.not_lt.mp hlt)
    rw [List.getElem?_append_right (Nat.le_add_right ..), Nat.add_sub_cancel_left] at hget
    rw [Nat.add_assoc, offset_append]
    exact h' j ins bytes hget

/-- Instructions run in their bytes as they do in the list. -/
theorem Runs.executes (h : Assembled handler chunks) {c c' : Config H}
    (hrun : Runs (chunks.map (·.1)) c c') :
    Executes handler (image chunks) (c.mapPos (offset chunks)) (c'.mapPos (offset chunks)) := by
  have hstep : ∀ c : Config H, cycle handler (image chunks) (c.mapPos (offset chunks)) =
      (step (chunks.map (·.1)) c).mapPos (offset chunks) := by
    intro c
    cases c with
    | run i m => exact cycle_offset h i m
    | fault f m => rfl
    | exit h' m => rfl
  obtain ⟨k, rfl⟩ := hrun
  refine ⟨k, ?_⟩
  induction k generalizing c with
  | zero => rfl
  | succ k ih => rw [Function.iterate_succ_apply, Function.iterate_succ_apply, hstep, ih]

end Layout

end EosVm.Lib.X86
