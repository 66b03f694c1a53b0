import EosVm.Lib.ExceptRun
import EosVm.Lib.X86.Machine
import EosVm.Lib.X86.Vector

/-!
# x86-64 instructions

A subset of the instructions with their effect on a machine, and code with branches. A faulting
instruction leaves the machine as it is at the fault. The flags of multiplications, divisions,
shifts and changes of the stack pointer count as undefined. Positions in code count instructions.
-/

set_option autoImplicit false

namespace EosVm.Lib.X86

/-- A fault of the processor. `stack` stands for reading below the slots that are modelled. -/
inductive Fault where
  | page | divide | stack | breakpoint
  deriving DecidableEq, Repr

/-- The source of a general instruction; an immediate is extended by its sign. -/
inductive Operand where
  | reg (r : Reg)
  | imm (v : BitVec 32)
  | mem (base : Reg) (disp : Int)
  deriving DecidableEq, Repr

inductive Alu where
  | add | sub | and | or | xor
  deriving DecidableEq, Repr

inductive Shift where
  | shl | shr | sar | rol | ror
  deriving DecidableEq, Repr

inductive BitScan where
  | bsr | bsf | lzcnt | tzcnt | popcnt
  deriving DecidableEq, Repr

/-- The source of a vector instruction: a register, or what is on top of the stack. -/
inductive VecSrc where
  | xmm (x : Fin 16)
  | top
  deriving DecidableEq, Repr

/-- Instructions that go on to the next one. -/
inductive Op where
  | pop (r : Reg)
  | push (r : Reg)
  | mov (w : Width) (dst : Reg) (src : Operand)
  | movImm64 (dst : Reg) (v : BitVec 64)
  /-- A byte load to the low byte of `dst`. -/
  | movByte (dst base index : Reg) (disp : Int)
  | lea (dst base : Reg) (index : Option Reg) (disp : Int)
  | alu (op : Alu) (w : Width) (dst : Reg) (src : Operand)
  | cmp (w : Width) (dst : Reg) (src : Operand)
  | test (w : Width) (dst src : Reg)
  | not (w : Width) (dst : Reg)
  | neg (w : Width) (dst : Reg)
  | dec (w : Width) (dst : Reg)
  | imul (w : Width) (dst src : Reg)
  /-- `cdq` and `cqo`. -/
  | signExtendAcc (w : Width)
  | div (w : Width) (src : Reg)
  | idiv (w : Width) (src : Reg)
  | shiftCl (op : Shift) (w : Width) (dst : Reg)
  | shiftImm (op : Shift) (w : Width) (dst : Reg) (count : BitVec 8)
  | setcc (c : Cond) (dst : Reg)
  | cmov (c : Cond) (w : Width) (dst src : Reg)
  | scan (op : BitScan) (w : Width) (dst src : Reg)
  /-- `movsx` of the low `from` bits of the slot on top of the stack. -/
  | movsxTop (bits : Nat) (w : Width) (dst : Reg)
  /-- A store to the low part of the slot on top of the stack. -/
  | movTop (w : Width) (src : Reg)
  /-- A load from the slot on top of the stack. -/
  | loadTop (w : Width) (dst : Reg)
  /-- A load from the two slots on top of the stack. -/
  | loadTopXmm (dst : Fin 16)
  | storeTopXmm (src : Fin 16)
  /-- A constant to the low byte of `dst`. -/
  | movImm8 (dst : Reg) (v : BitVec 8)
  | vec (op : VecUn) (src : VecSrc) (dst : Fin 16)
  /-- The operands are in the order of the assembler: `src₂`, `src₁`, `dst`. -/
  | vec₂ (op : VecBin) (src₂ : VecSrc) (src₁ dst : Fin 16)
  /-- `vmovd` and `vmovq` from a general register. -/
  | vmov (w : Width) (src : Reg) (dst : Fin 16)
  /-- `vpinsrq` to the high half. -/
  | vpinsrqHigh (src : Reg) (src₁ dst : Fin 16)
  | vpmovmskb (src : Fin 16) (dst : Reg)
  /-- A load of 16 bytes. -/
  | vload (base : Reg) (dst : Fin 16)
  | addRsp (bytes : BitVec 32)
  | subRsp (bytes : BitVec 32)
  | int3
  | std
  | cld
  | repMovsb
  | repStosb
  deriving DecidableEq, Repr

/-- What executing an instruction gives. -/
abbrev Exec := Except (Fault × Machine) Machine

namespace Machine

variable (m : Machine)

def address (base : Reg) (disp : Int) : Nat := (m.regs base + BitVec.ofInt 64 disp).toNat

/-- Flags that the architecture leaves undefined. -/
def junkFlags : Flags := ⟨m.junk.getLsbD 0, m.junk.getLsbD 1, m.junk.getLsbD 2, m.junk.getLsbD 3⟩

def load (w : Width) (addr : Nat) : Except (Fault × Machine) (BitVec w.bits) :=
  match w with
  | .w32 => if m.readableBlock addr 4 then .ok (m.loadBytes addr 4) else .error (.page, m)
  | .w64 => if m.readableBlock addr 8 then .ok (m.loadBytes addr 8) else .error (.page, m)

def operand (w : Width) : Operand → Except (Fault × Machine) (BitVec w.bits)
  | .reg r => .ok (m.get r w)
  | .imm v => .ok (v.signExtend w.bits)
  | .mem base disp => m.load w (m.address base disp)

/-- A source of 128 bits. -/
def vecSrc : VecSrc → Except (Fault × Machine) (BitVec 128)
  | .xmm x => .ok (m.xmms x)
  | .top =>
    match m.stack with
    | low :: high :: _ => .ok (high ++ low)
    | _ => .error (.stack, m)

/-- A write to the low byte of a register. -/
def setLow (r : Reg) (v : BitVec 8) : Machine := m.setReg r ((m.regs r).extractLsb' 8 56 ++ v)

/-- One byte of `rep movsb`. -/
def movsStep (delta : BitVec 64) : Machine :=
  let copied := m.setByte (m.regs .rdi).toNat (m.memory (m.regs .rsi).toNat)
  ((copied.setReg .rsi (m.regs .rsi + delta)).setReg .rdi (m.regs .rdi + delta)).setReg .rcx
    (m.regs .rcx - 1)

/-- One byte of `rep stosb`. -/
def stosStep (delta : BitVec 64) : Machine :=
  let stored := m.setByte (m.regs .rdi).toNat (UInt8.ofBitVec ((m.regs .rax).setWidth 8))
  (stored.setReg .rdi (m.regs .rdi + delta)).setReg .rcx (m.regs .rcx - 1)

/-- The direction of the string instructions. -/
def delta : BitVec 64 := if m.df then -1 else 1

/-- `rep movsb`. -/
def movs : Nat → Machine → Exec
  | 0, m => .ok m
  | n + 1, m =>
    if m.readable (m.regs .rsi).toNat && m.writable (m.regs .rdi).toNat then
      movs n (m.movsStep m.delta)
    else .error (.page, m)

/-- `rep stosb`. -/
def stos : Nat → Machine → Exec
  | 0, m => .ok m
  | n + 1, m =>
    if m.writable (m.regs .rdi).toNat then stos n (m.stosStep m.delta) else .error (.page, m)

end Machine

def Alu.eval {w : Nat} (a b : BitVec w) : Alu → BitVec w × Flags
  | .add => (a + b, addFlags a b)
  | .sub => (a - b, subFlags a b)
  | .and => (a &&& b, logicFlags (a &&& b))
  | .or => (a ||| b, logicFlags (a ||| b))
  | .xor => (a ^^^ b, logicFlags (a ^^^ b))

/-- Shift counts are taken modulo the operand size. -/
def Width.count (w : Width) (c : BitVec 8) : Nat := c.toNat % w.bits

def Shift.eval {w : Nat} (a : BitVec w) (n : Nat) : Shift → BitVec w
  | .shl => a <<< n
  | .shr => a >>> n
  | .sar => a.sshiftRight n
  | .rol => a.rotateLeft n
  | .ror => a.rotateRight n

/-- The result of a bit scan; `bsr` and `bsf` of zero are undefined. -/
def BitScan.eval {w : Nat} (junk a : BitVec w) : BitScan → BitVec w
  | .bsr => if a = 0#w then junk else BitVec.ofNat w a.toNat.log2
  | .bsf => if a = 0#w then junk else a.ctz
  | .lzcnt => a.clz
  | .tzcnt => a.ctz
  | .popcnt => a.cpop

/-- The flags after a bit scan of `a`. -/
def BitScan.flags {w : Nat} (junk : Flags) (a result : BitVec w) : BitScan → Flags
  | .bsr | .bsf => { junk with zf := a == 0#w }
  | .lzcnt | .tzcnt => { junk with cf := a == 0#w, zf := result == 0#w }
  | .popcnt => { zf := a == 0#w }

/-- `div`: quotient and remainder of the double-width dividend. -/
def divide {w : Nat} (high low d : BitVec w) : Option (BitVec w × BitVec w) :=
  let n := high.toNat * 2 ^ w + low.toNat
  if d.toNat = 0 ∨ 2 ^ w ≤ n / d.toNat then none
  else some (BitVec.ofNat w (n / d.toNat), BitVec.ofNat w (n % d.toNat))

/-- `idiv`: the same for signed integers, rounding towards zero. -/
def idivide {w : Nat} (high low d : BitVec w) : Option (BitVec w × BitVec w) :=
  let n := high.toInt * 2 ^ w + low.toNat
  if d.toInt = 0 ∨ n.tdiv d.toInt < -2 ^ (w - 1) ∨ 2 ^ (w - 1) ≤ n.tdiv d.toInt then none
  else some (BitVec.ofInt w (n.tdiv d.toInt), BitVec.ofInt w (n.tmod d.toInt))

/-- Quotient and remainder to the accumulator pair. -/
def Machine.setDivision (m : Machine) (w : Width) :
    Option (BitVec w.bits × BitVec w.bits) → Exec
  | none => .error (.divide, m)
  | some (q, r) => .ok (((m.set .rax w q).set .rdx w r).setFlags m.junkFlags)

def Op.exec (m : Machine) : Op → Exec
  | .pop r =>
    match m.stack with
    | slot :: stack => .ok ((m.setReg r slot).setStack stack)
    | [] => .error (.stack, m)
  | .push r => .ok (m.setStack (m.regs r :: m.stack))
  | .mov w dst src => do
    let v ← m.operand w src
    .ok (m.set dst w v)
  | .movImm64 dst v => .ok (m.setReg dst v)
  | .movByte dst base index disp =>
    let addr := (m.regs base + m.regs index + BitVec.ofInt 64 disp).toNat
    if m.readable addr then .ok (m.setLow dst (m.memory addr).toBitVec) else .error (.page, m)
  | .lea dst base index disp =>
    let offset := (index.map m.regs).getD 0
    .ok (m.setReg dst (m.regs base + offset + BitVec.ofInt 64 disp))
  | .alu op w dst src => do
    let v ← m.operand w src
    let (result, flags) := op.eval (m.get dst w) v
    .ok ((m.set dst w result).setFlags flags)
  | .cmp w dst src => do
    let v ← m.operand w src
    .ok (m.setFlags (subFlags (m.get dst w) v))
  | .test w dst src => .ok (m.setFlags (logicFlags (m.get dst w &&& m.get src w)))
  | .not w dst => .ok (m.set dst w (~~~ m.get dst w))
  | .neg w dst => .ok ((m.set dst w (- m.get dst w)).setFlags (subFlags 0 (m.get dst w)))
  | .dec w dst =>
    -- the carry is not affected
    let flags := { subFlags (m.get dst w) 1 with cf := m.flags.cf }
    .ok ((m.set dst w (m.get dst w - 1)).setFlags flags)
  | .imul w dst src =>
    .ok ((m.set dst w (m.get dst w * m.get src w)).setFlags m.junkFlags)
  | .signExtendAcc w =>
    .ok (m.set .rdx w (if (m.get .rax w).msb then BitVec.allOnes w.bits else 0))
  | .div w src => m.setDivision w (divide (m.get .rdx w) (m.get .rax w) (m.get src w))
  | .idiv w src => m.setDivision w (idivide (m.get .rdx w) (m.get .rax w) (m.get src w))
  | .shiftCl op w dst =>
    let n := w.count ((m.regs .rcx).setWidth 8)
    .ok ((m.set dst w (op.eval (m.get dst w) n)).setFlags
      (if n = 0 then m.flags else m.junkFlags))
  | .shiftImm op w dst count =>
    let n := w.count count
    .ok ((m.set dst w (op.eval (m.get dst w) n)).setFlags
      (if n = 0 then m.flags else m.junkFlags))
  | .setcc c dst => .ok (m.setLow dst (if c.holds m.flags then 1 else 0))
  | .cmov c w dst src =>
    .ok (m.set dst w (if c.holds m.flags then m.get src w else m.get dst w))
  | .scan op w dst src =>
    let v := m.get src w
    let result := op.eval (m.junk.setWidth w.bits) v
    .ok ((m.set dst w result).setFlags (op.flags m.junkFlags v result))
  | .movsxTop bits w dst =>
    match m.stack with
    | slot :: _ => .ok (m.set dst w ((slot.setWidth bits).signExtend w.bits))
    | [] => .error (.stack, m)
  | .movTop w src =>
    match m.stack with
    | slot :: stack =>
      match w with
      | .w32 => .ok (m.setStack ((slot.extractLsb' 32 32 ++ m.get src .w32) :: stack))
      | .w64 => .ok (m.setStack (m.regs src :: stack))
    | [] => .error (.stack, m)
  | .loadTop w dst =>
    match m.stack with
    | slot :: _ => .ok (m.set dst w (slot.setWidth w.bits))
    | [] => .error (.stack, m)
  | .loadTopXmm dst =>
    match m.stack with
    | low :: high :: _ => .ok (m.setXmm dst (high ++ low))
    | _ => .error (.stack, m)
  | .storeTopXmm src =>
    match m.stack with
    | _ :: _ :: stack =>
      .ok (m.setStack ((m.xmms src).setWidth 64 :: (m.xmms src).extractLsb' 64 64 :: stack))
    | _ => .error (.stack, m)
  | .movImm8 dst v => .ok (m.setLow dst v)
  | .vec op src dst => do
    let a ← m.vecSrc src
    .ok (m.setXmm dst (op.eval a))
  | .vec₂ op src₂ src₁ dst => do
    let b ← m.vecSrc src₂
    .ok (m.setXmm dst (op.eval (m.xmms src₁) b))
  | .vmov w src dst => .ok (m.setXmm dst ((m.get src w).setWidth 128))
  | .vpinsrqHigh src src₁ dst => .ok (m.setXmm dst (m.regs src ++ (m.xmms src₁).setWidth 64))
  | .vpmovmskb src dst => .ok (m.setReg dst ((movmskb (m.xmms src)).setWidth 64))
  | .vload base dst =>
    let addr := (m.regs base).toNat
    if m.readableBlock addr 16 then .ok (m.setXmm dst (m.loadBytes addr 16)) else .error (.page, m)
  | .addRsp bytes =>
    if bytes.toNat % 8 = 0 ∧ bytes.toNat / 8 ≤ m.stack.length then
      .ok ((m.setStack (m.stack.drop (bytes.toNat / 8))).setFlags m.junkFlags)
    else .error (.stack, m)
  | .subRsp bytes =>
    if bytes.toNat % 8 = 0 then
      let slots := List.replicate (bytes.toNat / 8) (m.junk.setWidth 64)
      .ok ((m.setStack (slots ++ m.stack)).setFlags m.junkFlags)
    else .error (.stack, m)
  | .int3 => .error (.breakpoint, m)
  | .std => .ok { m with df := true }
  | .cld => .ok { m with df := false }
  | .repMovsb => Machine.movs (m.regs .rcx).toNat m
  | .repStosb => Machine.stos (m.regs .rcx).toNat m

/-- A byte load changes its register only. -/
theorem movByte_ok {m : Machine} (dst : Reg) {base index : Reg} {disp : Int}
    (h : m.readable (m.regs base + m.regs index + BitVec.ofInt 64 disp).toNat = true) :
    ∃ v, (Op.movByte dst base index disp).exec m = .ok (m.setReg dst v) :=
  ⟨_, if_pos h⟩

theorem movByte_fault {m : Machine} (dst : Reg) {base index : Reg} {disp : Int}
    (h : m.readable (m.regs base + m.regs index + BitVec.ofInt 64 disp).toNat = false) :
    (Op.movByte dst base index disp).exec m = .error (.page, m) :=
  if_neg (by rw [h]; decide)

/-- Straight-line code. -/
def execOps : List Op → Machine → Exec
  | [], m => .ok m
  | op :: ops, m => do
    let m ← op.exec m
    execOps ops m

section Code

variable {H : Type}

/-- Where a branch leads: to a position in the code, or out of it. -/
inductive Target (H : Type) where
  | code (pos : Nat)
  | handler (h : H)
  deriving DecidableEq, Repr

/-- Instructions and branches. -/
inductive Instr (H : Type) where
  | op (o : Op)
  | jcc (c : Cond) (target : Target H)
  | jmp (target : Target H)
  deriving DecidableEq, Repr

/-- Code that runs, or what stopped it. -/
inductive Config (H : Type) where
  | run (pos : Nat) (m : Machine)
  | fault (f : Fault) (m : Machine)
  | exit (h : H) (m : Machine)

def goto (m : Machine) : Target H → Config H
  | .code pos => .run pos m
  | .handler h => .exit h m

/-- One instruction. Code that has run to its end stays there. -/
def step (code : List (Instr H)) : Config H → Config H
  | .run pos m =>
    match code[pos]? with
    | none => .run pos m
    | some (.op o) =>
      match o.exec m with
      | .ok m' => .run (pos + 1) m'
      | .error (f, m') => .fault f m'
    | some (.jcc c target) => if c.holds m.flags then goto m target else .run (pos + 1) m
    | some (.jmp target) => goto m target
  | c => c

/-- The code gets from one configuration to the other. -/
def Runs (code : List (Instr H)) (c c' : Config H) : Prop := ∃ k, (step code)^[k] c = c'

variable {code : List (Instr H)} {c c' c'' : Config H} {m m' : Machine} {pos : Nat}

namespace Runs

theorem refl (c : Config H) : Runs code c c := ⟨0, rfl⟩

theorem trans (h : Runs code c c') (h' : Runs code c' c'') : Runs code c c'' := by
  obtain ⟨k, rfl⟩ := h
  obtain ⟨k', rfl⟩ := h'
  exact ⟨k' + k, Function.iterate_add_apply _ _ _ _⟩

theorem of_step (h : step code c = c') : Runs code c c' := ⟨1, h⟩

theorem op {o : Op} (hpos : code[pos]? = some (.op o)) (hexec : o.exec m = .ok m') :
    Runs code (.run pos m) (.run (pos + 1) m') := by
  refine of_step ?_
  simp only [step, hpos, hexec]

theorem op_fault {o : Op} {f : Fault} (hpos : code[pos]? = some (.op o))
    (hexec : o.exec m = .error (f, m')) : Runs code (.run pos m) (.fault f m') := by
  refine of_step ?_
  simp only [step, hpos, hexec]

theorem taken {k : Cond} {target : Target H} (hpos : code[pos]? = some (.jcc k target))
    (hcond : k.holds m.flags = true) : Runs code (.run pos m) (goto m target) := by
  refine of_step ?_
  simp only [step, hpos, hcond, if_true]

theorem not_taken {k : Cond} {target : Target H} (hpos : code[pos]? = some (.jcc k target))
    (hcond : k.holds m.flags = false) : Runs code (.run pos m) (.run (pos + 1) m) := by
  refine of_step ?_
  simp [step, hpos, hcond]

theorem jmp {target : Target H} (hpos : code[pos]? = some (.jmp target)) :
    Runs code (.run pos m) (goto m target) := by
  refine of_step ?_
  simp only [step, hpos]

end Runs

/-- Two runs to the end lead to the same place. -/
theorem Runs.final_unique (h : Runs code c c') (h' : Runs code c c'') (hend : step code c' = c')
    (hend' : step code c'' = c'') : c' = c'' := by
  obtain ⟨k, rfl⟩ := h
  obtain ⟨k', rfl⟩ := h'
  rcases Nat.le_total k k' with hle | hle
  · obtain ⟨j, rfl⟩ := Nat.exists_eq_add_of_le' hle
    rw [Function.iterate_add_apply]
    exact (Function.iterate_fixed hend j).symm
  · obtain ⟨j, rfl⟩ := Nat.exists_eq_add_of_le' hle
    rw [Function.iterate_add_apply]
    exact Function.iterate_fixed hend' j

/-- The code has this part from a position on. -/
def HasCode (code : List (Instr H)) (pos : Nat) (part : List (Instr H)) : Prop :=
  ∀ i ins, part[i]? = some ins → code[pos + i]? = some ins

theorem HasCode.append {part part' : List (Instr H)} (h : HasCode code pos (part ++ part')) :
    HasCode code pos part ∧ HasCode code (pos + part.length) part' := by
  refine ⟨?_, ?_⟩
  · intro i ins hins
    have hlt := (List.getElem?_eq_some_iff.mp hins).1
    exact h i ins (by rw [List.getElem?_append_left hlt, hins])
  · intro i ins hins
    have hget : (part ++ part')[part.length + i]? = some ins := by
      rw [List.getElem?_append_right (Nat.le_add_right ..), Nat.add_sub_cancel_left, hins]
    rw [Nat.add_assoc]
    exact h _ ins hget

theorem HasCode.cons {ins : Instr H} {part : List (Instr H)} (h : HasCode code pos (ins :: part)) :
    code[pos]? = some ins ∧ HasCode code (pos + 1) part := by
  have happend : HasCode code pos ([ins] ++ part) := h
  obtain ⟨hfirst, hrest⟩ := happend.append
  exact ⟨hfirst 0 ins rfl, hrest⟩

/-- The code has these instructions from a position on. -/
def HasOps (code : List (Instr H)) (pos : Nat) (ops : List Op) : Prop :=
  ∀ i o, ops[i]? = some o → code[pos + i]? = some (.op o)

theorem HasOps.tail {o : Op} {ops : List Op} (h : HasOps code pos (o :: ops)) :
    code[pos]? = some (.op o) ∧ HasOps code (pos + 1) ops := by
  refine ⟨h 0 o rfl, ?_⟩
  intro i o' ho
  have hnext := h (i + 1) o' ho
  rwa [Nat.add_comm i 1, ← Nat.add_assoc] at hnext

theorem HasOps.of_take {ops : List Op}
    (h : (code.drop pos).take ops.length = ops.map Instr.op) : HasOps code pos ops := by
  intro i o ho
  obtain ⟨hlt, -⟩ := List.getElem?_eq_some_iff.mp ho
  have hmap : (ops.map (Instr.op (H := H)))[i]? = some (.op o) := by rw [List.getElem?_map, ho]; rfl
  rw [← h, List.getElem?_take_of_lt hlt, List.getElem?_drop] at hmap
  exact hmap

/-- Straight-line code that does not fault. -/
theorem Runs.ops {ops : List Op} (hops : HasOps code pos ops) (hexec : execOps ops m = .ok m') :
    Runs code (.run pos m) (.run (pos + ops.length) m') := by
  induction ops generalizing pos m with
  | nil =>
    obtain rfl := Except.ok.inj hexec
    exact Runs.refl _
  | cons o ops ih =>
    obtain ⟨mid, hfirst, hrest⟩ := bind_eq_ok.mp hexec
    have hrun := ih hops.tail.2 hrest
    rw [Nat.add_assoc, Nat.add_comm 1, ← List.length_cons] at hrun
    exact (Runs.op hops.tail.1 hfirst).trans hrun

/-- Straight-line code that faults. -/
theorem Runs.ops_fault {ops : List Op} {f : Fault} (hops : HasOps code pos ops)
    (hexec : execOps ops m = .error (f, m')) : Runs code (.run pos m) (.fault f m') := by
  induction ops generalizing pos m with
  | nil => cases hexec
  | cons o ops ih =>
    cases hfirst : o.exec m with
    | error e =>
      have hsame : e = (f, m') := by
        simp only [execOps, hfirst, error_bind, Except.error.injEq] at hexec
        exact hexec
      exact Runs.op_fault hops.tail.1 (hfirst.trans (congrArg Except.error hsame))
    | ok mid =>
      simp only [execOps, hfirst, ok_bind] at hexec
      exact (Runs.op hops.tail.1 hfirst).trans (ih hops.tail.2 hexec)

end Code

section Assembly

variable {H : Type}

/-- Emission into a code buffer. Branches are emitted before their target is known. -/
abbrev Emit (H : Type) := StateM (List (Instr H))

def emit (o : Op) : Emit H Unit := modify (· ++ [.op o])

def emitOps (ops : List Op) : Emit H Unit := modify (· ++ ops.map .op)

/-- The position of the next instruction. -/
def here : Emit H Nat := return (← get).length

/-- A conditional branch without a target, and its position. -/
def emitBranch (c : Cond) : Emit H Nat := do
  let pos ← here
  modify (· ++ [.jcc c (.code 0)])
  return pos

/-- A jump without a target, and its position. -/
def emitJmp : Emit H Nat := do
  let pos ← here
  modify (· ++ [.jmp (.code 0)])
  return pos

def Instr.setTarget (target : Target H) : Instr H → Instr H
  | .op o => .op o
  | .jcc c _ => .jcc c target
  | .jmp _ => .jmp target

/-- Gives the branch at `pos` its target. -/
def fixBranch (pos : Nat) (target : Target H) : Emit H Unit :=
  modify fun code => code.modify pos (Instr.setTarget target)

/-- The branch at `pos` leads to the next instruction. -/
def fixHere (pos : Nat) : Emit H Unit := do
  fixBranch pos (.code (← here))

def assemble (e : Emit H Unit) : List (Instr H) := (e.run []).2

variable {α β : Type} (code : List (Instr H))

theorem run_bind (e : Emit H α) (f : α → Emit H β) :
    (e >>= f).run code = (f (e.run code).1).run (e.run code).2 := rfl

theorem run_emit (o : Op) : (emit o : Emit H Unit).run code = ((), code ++ [.op o]) := rfl

theorem run_emitOps (ops : List Op) :
    (emitOps ops : Emit H Unit).run code = ((), code ++ ops.map .op) := rfl

theorem run_here : (here : Emit H Nat).run code = (code.length, code) := rfl

theorem run_emitBranch (c : Cond) :
    (emitBranch c : Emit H Nat).run code = (code.length, code ++ [.jcc c (.code 0)]) := rfl

theorem run_emitJmp :
    (emitJmp : Emit H Nat).run code = (code.length, code ++ [.jmp (.code 0)]) := rfl

theorem run_fixBranch (pos : Nat) (target : Target H) :
    (fixBranch pos target).run code = ((), code.modify pos (Instr.setTarget target)) := rfl

theorem run_fixHere (pos : Nat) :
    (fixHere pos : Emit H Unit).run code =
      ((), code.modify pos (Instr.setTarget (.code code.length))) := rfl

/-- The instruction after `code`. -/
theorem modify_append_cons (rest : List (Instr H)) (ins : Instr H) (f : Instr H → Instr H) :
    (code ++ ins :: rest).modify code.length f = code ++ f ins :: rest := by
  induction code with
  | nil => rfl
  | cons x code ih => exact congrArg (x :: ·) ih

end Assembly

end EosVm.Lib.X86
