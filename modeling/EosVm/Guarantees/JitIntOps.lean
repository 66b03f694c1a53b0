import EosVm.Guarantees.IntOps
import EosVm.Lib.X86.Integers
import EosVm.Source.JitInt

/-!
# Integer instructions of the machine code

The code that is emitted for a scalar integer instruction leaves the result that WebAssembly defines
on the native stack, or the division of the processor traps where WebAssembly does. The code after
the first pop is straight-line, apart from the signed remainders, and is stated once for both
operand sizes. With the interpreter's operators this makes the two backends agree.
-/

set_option autoImplicit false

namespace EosVm

open Lib Lib.X86

/-- The slot of a value on the native stack. A 32-bit value is extended with zeros. -/
def slotOf {n : Nat} (v : BitVec n) : BitVec 64 := v.setWidth 64

@[simp] theorem slotOf_i64 (v : BitVec 64) : slotOf v = v := BitVec.setWidth_eq v

@[simp] theorem slotOf_low (v : BitVec 32) : (slotOf v).setWidth 32 = v := by
  rw [slotOf, BitVec.setWidth_setWidth_of_le _ (by decide), BitVec.setWidth_eq]

/-- Only the scratch registers, the flags and the stack change. -/
abbrev SameRest : Machine → Machine → Prop := SameExcept [.rax, .rcx, .rdx]

/-- The value of an operation whose code has been taken back. -/
def Available (m : Machine) (slot : BitVec 64) : RecentOp → Prop
  | .getLocal disp => m.load .w64 (m.address .rbp disp) = .ok slot
  | .i32Const v => slot = slotOf v
  | .i64Const v => slot = v
  | .push r => slot = m.regs r

/-- The operands of an instruction, the last one first: those that are folded are available, the
others are on the stack. -/
def OperandsAt (m : Machine) (stack : List (BitVec 64)) : List RecentOp → List (BitVec 64) → Prop
  | [], slots => m.stack = slots ++ stack
  | op :: folded, slot :: slots => Available m slot op ∧ OperandsAt m stack folded slots
  | _ :: _, [] => False

/-- What a part of the code does: it leaves the result on the stack, or the processor traps. -/
def RunsTo (code : List (Lib.X86.Instr JitHandler)) (pos pos' : Nat) (m : Machine)
    (stack : List (BitVec 64)) : Option (BitVec 64) → Prop
  | some slot => ∃ m', Runs code (.run pos m) (.run pos' m') ∧ m'.stack = slot :: stack ∧
      SameRest m m'
  | none => ∃ m', Runs code (.run pos m) (.fault .divide m')

/-- The code of an instruction does so from its start to its end. -/
def IntCode.Yields (c : IntCode) (m : Machine) (stack : List (BitVec 64))
    (result : Option (BitVec 64)) : Prop :=
  RunsTo c.code 0 c.code.length m stack result

section Straight

variable {m : Machine} {stack : List (BitVec 64)} {folded : List RecentOp} {ops : List Op}

theorem hasOps_map (ops : List Op) : HasOps (H := JitHandler) (ops.map .op) 0 ops := by
  intro i o ho
  rw [Nat.zero_add, List.getElem?_map, ho]
  rfl

theorem IntCode.straight_some {slot : BitVec 64}
    (h : ∃ m', execOps ops m = .ok m' ∧ m'.stack = slot :: stack ∧ SameRest m m') :
    (IntCode.straight folded ops).Yields m stack (some slot) := by
  obtain ⟨m', hexec, hstack, hrest⟩ := h
  refine ⟨m', ?_, hstack, hrest⟩
  have hrun := Runs.ops (hasOps_map ops) hexec
  rwa [Nat.zero_add, ← List.length_map Lib.X86.Instr.op] at hrun

theorem IntCode.straight_none (h : ∃ m', execOps ops m = .error (.divide, m')) :
    (IntCode.straight folded ops).Yields m stack none := by
  obtain ⟨m', hexec⟩ := h
  exact ⟨m', Runs.ops_fault (hasOps_map ops) hexec⟩

end Straight

theorem execOps_append (ops ops' : List Op) (m : Machine) :
    execOps (ops ++ ops') m = (execOps ops m >>= execOps ops') := by
  induction ops generalizing m with
  | nil => rfl
  | cons o ops ih =>
    simp only [List.cons_append, execOps, bind_assoc]
    congr 1
    funext m'
    exact ih m'

/-- The machine after a value is popped into `reg`. -/
structure Popped (m m₁ : Machine) (reg : Reg) (slot : BitVec 64) (stack : List (BitVec 64)) :
    Prop where
  reg : m₁.regs reg = slot
  stack : m₁.stack = stack
  rest : SameRest m m₁

section Popping

variable {m : Machine} {stack : List (BitVec 64)} {slot : BitVec 64} {slots : List (BitVec 64)}

/-- `emit_pop` gets the value wherever it is. -/
theorem popOps_exec (recent : Option RecentOp) {reg : Reg} (hreg : reg = .rax ∨ reg = .rcx)
    (h : OperandsAt m stack recent.toList (slot :: slots)) :
    ∃ m₁, execOps (popOps recent reg) m = .ok m₁ ∧ Popped m m₁ reg slot (slots ++ stack) := by
  have hset : ∀ (m' : Machine) (v : BitVec 64), SameRest m m' → SameRest m (m'.setReg reg v) :=
    fun m' v h => h.setReg (by rcases hreg with rfl | rfl <;> decide) v
  cases recent with
  | none =>
    have hstack : m.stack = slot :: (slots ++ stack) := h
    refine ⟨(m.setReg reg slot).setStack (slots ++ stack), ?_, ?_, rfl, hset m slot (.refl _ m)⟩
    · simp [popOps, execOps, Op.exec, hstack]
    · simp
  | some op =>
    obtain ⟨havail, hstack⟩ := h
    cases op with
    | i32Const v =>
      refine ⟨m.setReg reg slot, ?_, by simp, hstack, hset m slot (.refl _ m)⟩
      rw [show slot = slotOf v from havail]
      simp [popOps, execOps, Op.exec, Machine.operand, Machine.set, slotOf]
    | i64Const v =>
      refine ⟨m.setReg reg slot, ?_, by simp, hstack, hset m slot (.refl _ m)⟩
      rw [show slot = v from havail]
      rfl
    | push r =>
      have hslot : slot = m.regs r := havail
      by_cases hsame : r = reg
      · refine ⟨m, ?_, by rw [hslot, hsame], hstack, .refl _ m⟩
        rw [popOps, if_pos hsame]
        rfl
      · refine ⟨m.setReg reg slot, ?_, by simp, hstack, hset m slot (.refl _ m)⟩
        simp [popOps, hsame, execOps, Op.exec, Machine.operand, hslot]
    | getLocal disp =>
      have hload : (Op.mov .w64 .rax (.mem .rbp disp)).exec m = .ok (m.setReg .rax slot) := by
        have hoperand : m.operand .w64 (.mem .rbp disp) = .ok slot := havail
        rw [Op.exec, hoperand, ok_bind, Machine.set_w64]
      by_cases hsame : reg = .rax
      · refine ⟨m.setReg reg slot, ?_, by simp, hstack, hset m slot (.refl _ m)⟩
        rw [popOps, if_pos hsame, execOps, hload, hsame]
        rfl
      · have hrax : SameRest m (m.setReg .rax slot) :=
          (SameExcept.refl _ m).setReg (by decide) slot
        refine ⟨(m.setReg .rax slot).setReg reg slot, ?_, by simp, hstack, hset _ slot hrax⟩
        rw [popOps, if_neg hsame, execOps, hload]
        simp [execOps, Op.exec, Machine.operand]

/-- The rest of the code starts with the value in its register. -/
theorem popOps_append (recent : Option RecentOp) {reg : Reg} (hreg : reg = .rax ∨ reg = .rcx)
    (h : OperandsAt m stack recent.toList (slot :: slots)) (ops : List Op) :
    ∃ m₁, Popped m m₁ reg slot (slots ++ stack) ∧
      execOps (popOps recent reg ++ ops) m = execOps ops m₁ := by
  obtain ⟨m₁, hexec, hpopped⟩ := popOps_exec recent hreg h
  exact ⟨m₁, hpopped, by rw [execOps_append, hexec, ok_bind]⟩

/-- The code computes the result from a machine whose first operand is popped. -/
def Finishes (ops : List Op) (m : Machine) (stack : List (BitVec 64)) : Option (BitVec 64) → Prop
  | some slot => ∃ m', execOps ops m = .ok m' ∧ m'.stack = slot :: stack ∧ SameRest m m'
  | none => ∃ m', execOps ops m = .error (.divide, m')

theorem IntCode.straight_yields {folded : List RecentOp} {ops : List Op}
    {result : Option (BitVec 64)} (h : Finishes ops m stack result) :
    (IntCode.straight folded ops).Yields m stack result := by
  cases result with
  | some slot => exact IntCode.straight_some h
  | none => exact IntCode.straight_none h

variable {recent : List RecentOp} {reg : Reg} {ops : List Op} {result : Option (BitVec 64)}

theorem popOps_finishes {recent : Option RecentOp} (hreg : reg = .rax ∨ reg = .rcx)
    (h : OperandsAt m stack recent.toList (slot :: slots))
    (hops : ∀ m₁, Popped m m₁ reg slot (slots ++ stack) → Finishes ops m₁ stack result) :
    Finishes (popOps recent reg ++ ops) m stack result := by
  obtain ⟨m₁, hpopped, hexec⟩ := popOps_append recent hreg h ops
  have hfinish := hops m₁ hpopped
  cases result with
  | some result =>
    obtain ⟨m', hok, hstack, hrest⟩ := hfinish
    exact ⟨m', hexec.trans hok, hstack, hpopped.rest.trans hrest⟩
  | none =>
    obtain ⟨m', herror⟩ := hfinish
    exact ⟨m', hexec.trans herror⟩

theorem popFirst_yields (hreg : reg = .rax ∨ reg = .rcx)
    (h : OperandsAt m stack (popFirst recent reg ops).folded (slot :: slots))
    (hops : ∀ m₁ : Machine, m₁.regs reg = slot → m₁.stack = slots ++ stack →
      Finishes ops m₁ stack result) :
    (popFirst recent reg ops).Yields m stack result :=
  IntCode.straight_yields (popOps_finishes hreg h fun m₁ hp => hops m₁ hp.reg hp.stack)

/-- What was folded before the pop is still available after it. -/
theorem Available.popped {m₁ : Machine} {op : RecentOp} (h : Available m slot op)
    (hop : ∀ r, op ≠ .push r) (hrest : SameRest m m₁) : Available m₁ slot op := by
  cases op with
  | i32Const v => exact h
  | i64Const v => exact h
  | push r => exact absurd rfl (hop r)
  | getLocal disp =>
    obtain ⟨hregs, hmem, hread, -, -⟩ := hrest
    have haddr : m₁.address .rbp disp = m.address .rbp disp := by
      rw [Machine.address, Machine.address, hregs .rbp (by decide)]
    have hblock : m₁.readableBlock (m.address .rbp disp) 8 =
        m.readableBlock (m.address .rbp disp) 8 := by
      simp only [Machine.readableBlock, hread]
    have hbytes : m₁.loadBytes (m.address .rbp disp) 8 = m.loadBytes (m.address .rbp disp) 8 :=
      Machine.loadBytes_congr (fun a => by rw [hmem]) _ _
    change m₁.load .w64 (m₁.address .rbp disp) = .ok slot
    rw [haddr]
    by_cases hreadable : m.readableBlock (m.address .rbp disp) 8 = true
    · have hload : m.load .w64 (m.address .rbp disp) = .ok slot := h
      simp only [Machine.load, hreadable, if_true] at hload
      simp only [Machine.load, hblock, hreadable, if_true, hbytes]
      exact hload
    · have hload : m.load .w64 (m.address .rbp disp) = .ok slot := h
      simp only [Machine.load, hreadable] at hload
      cases hload

theorem foldFirst_yields {op : RecentOp} {folded : BitVec 64} (hop : ∀ r, op ≠ .push r)
    (hreg : reg = .rax ∨ reg = .rcx)
    (h : OperandsAt m stack (foldFirst op recent reg ops).folded (folded :: slot :: slots))
    (hops : ∀ m₁ : Machine, Available m₁ folded op → m₁.regs reg = slot →
      m₁.stack = slots ++ stack → Finishes ops m₁ stack result) :
    (foldFirst op recent reg ops).Yields m stack result := by
  obtain ⟨havail, hrest⟩ := h
  exact IntCode.straight_yields (popOps_finishes hreg hrest fun m₁ hp =>
    hops m₁ (havail.popped hop hp.rest) hp.reg hp.stack)

end Popping

theorem immediate_eq (v : BitVec 32) : immediate v = .imm v := by
  unfold immediate
  split
  next h =>
    congr 1
    apply BitVec.eq_of_toInt_eq
    rw [BitVec.toInt_signExtend_of_le (by decide), BitVec.toInt_setWidth]
    have h8 : v.toInt = v.toNat ∨ v.toInt = v.toNat - 2^32 := by
      rw [BitVec.toInt_eq_toNat_cond]; split <;> simp
    have hlt := v.isLt
    rw [Int.bmod_def]
    split <;> omega
  · rfl

section Tails

variable {w : Width} {m : Machine} {stack : List (BitVec 64)} {a b : BitVec w.bits}

@[simp] theorem slotOf_width (v : BitVec w.bits) : (slotOf v).setWidth w.bits = v := by
  rw [slotOf, BitVec.setWidth_setWidth_of_le _ (by cases w <;> decide), BitVec.setWidth_eq]

@[simp] theorem set_slotOf (r : Reg) (v : BitVec w.bits) :
    m.set r w v = m.setReg r (slotOf v) := rfl

/-- The frame of code is read off its instructions. -/
theorem finishes_some {ops : List Op} {slot : BitVec 64}
    (hops : writesOnly [.rax, .rcx, .rdx] ops = true)
    (h : ∃ m', execOps ops m = .ok m' ∧ m'.stack = slot :: stack) :
    Finishes ops m stack (some slot) := by
  obtain ⟨m', hexec, hstack⟩ := h
  exact ⟨m', hexec, hstack, execOps_sameExcept hops hexec⟩

/-- A condition in the low byte of a cleared register. -/
theorem setcc_slot (c : Bool) :
    ((slotOf (0#w.bits)).extractLsb' 8 56 ++ (if c then 1#8 else 0#8) : BitVec 64) =
      slotOf (boolBits 32 c) := by
  cases w <;> cases c <;> rfl

theorem relop_finishes (op : IRelOp) (hb : m.regs .rax = slotOf b)
    (hstack : m.stack = slotOf a :: stack) :
    Finishes [.pop .rcx, .alu .xor w .rdx (.reg .rdx), .cmp w .rcx (.reg .rax), .setcc op.cond .rdx,
      .push .rdx] m stack (some (slotOf (boolBits 32 (op.eval a b)))) := by
  have hcond : op.cond.compare a b = op.eval a b := by cases op <;> rfl
  have hw : 0 < w.bits := by cases w <;> decide
  refine finishes_some rfl ?_
  simp [-Width.bits, execOps, Op.exec, Machine.operand, Machine.get, hstack, hb, Alu.eval,
    Machine.setLow, Cond.holds_subFlags hw, hcond, setcc_slot]

theorem eqz_finishes (ha : m.regs .rax = slotOf a) (hstack : m.stack = stack) :
    Finishes [.alu .xor w .rcx (.reg .rcx), .test w .rax .rax, .setcc .e .rcx, .push .rcx] m stack
      (some (slotOf (boolBits 32 (a == 0)))) := by
  refine finishes_some rfl ?_
  have := setcc_slot (w := w) (a == 0#w.bits)
  simp [-Width.bits, execOps, Op.exec, Machine.operand, Machine.get, hstack, ha, Alu.eval,
    Machine.setLow, Cond.holds, logicFlags] at this ⊢
  exact this

theorem alu_finishes (op : Alu) {src : Operand} (ha : m.regs .rax = slotOf a)
    (hsrc : m.operand w src = .ok b) (hstack : m.stack = stack) :
    Finishes [.alu op w .rax src, .push .rax] m stack (some (slotOf (op.eval a b).1)) := by
  refine finishes_some rfl ?_
  simp [-Width.bits, execOps, Op.exec, hsrc, Machine.get, hstack, ha]

theorem popAlu_finishes (op : Alu) (hb : m.regs .rcx = slotOf b)
    (hstack : m.stack = slotOf a :: stack) :
    Finishes [.pop .rax, .alu op w .rax (.reg .rcx), .push .rax] m stack
      (some (slotOf (op.eval a b).1)) := by
  refine finishes_some rfl ?_
  simp [-Width.bits, execOps, Op.exec, Machine.operand, Machine.get, hstack, hb]

theorem aluPop_finishes (op : Alu) (hb : m.regs .rax = slotOf b)
    (hstack : m.stack = slotOf a :: stack) :
    Finishes [.pop .rcx, .alu op w .rax (.reg .rcx), .push .rax] m stack
      (some (slotOf (op.eval b a).1)) := by
  refine finishes_some rfl ?_
  simp [-Width.bits, execOps, Op.exec, Machine.operand, Machine.get, hstack, hb]

theorem imul_finishes (hb : m.regs .rax = slotOf b) (hstack : m.stack = slotOf a :: stack) :
    Finishes [.pop .rcx, .imul w .rax .rcx, .push .rax] m stack (some (slotOf (a * b))) := by
  refine finishes_some rfl ?_
  simp [-Width.bits, execOps, Op.exec, Machine.get, hstack, hb, BitVec.mul_comm]

theorem shiftCl_finishes (op : Shift) (hb : m.regs .rcx = slotOf b)
    (hstack : m.stack = slotOf a :: stack) :
    Finishes [.pop .rax, .shiftCl op w .rax, .push .rax] m stack
      (some (slotOf (op.eval a (b.toNat % w.bits)))) := by
  refine finishes_some rfl ?_
  have hcount : w.count ((slotOf b).setWidth 8) = b.toNat % w.bits := Width.count_low w b
  simp [-Width.bits, execOps, Op.exec, Machine.get, hstack, hb, hcount]

theorem shiftImm_finishes (op : Shift) (count : BitVec 8) (ha : m.regs .rax = slotOf a)
    (hstack : m.stack = stack) :
    Finishes [.shiftImm op w .rax count, .push .rax] m stack
      (some (slotOf (op.eval a (w.count count)))) := by
  refine finishes_some rfl ?_
  simp [-Width.bits, execOps, Op.exec, Machine.get, hstack, ha]

theorem scan_finishes (op : BitScan) (hop : op ≠ .bsr ∧ op ≠ .bsf) (ha : m.regs .rax = slotOf a)
    (hstack : m.stack = stack) :
    Finishes [.scan op w .rax .rax, .push .rax] m stack
      (some (slotOf (op.eval 0 a))) := by
  refine finishes_some rfl ?_
  have : op.eval (m.junk.setWidth w.bits) a = op.eval 0 a := by
    cases op <;> simp_all [BitScan.eval]
  simp [-Width.bits, execOps, Op.exec, Machine.get, hstack, ha, this]

theorem not_finishes (ha : m.regs .rax = slotOf a) (hstack : m.stack = stack) :
    Finishes [.not w .rax, .push .rax] m stack (some (slotOf (~~~ a))) := by
  refine finishes_some rfl ?_
  simp [-Width.bits, execOps, Op.exec, Machine.get, hstack, ha]

theorem ctz_finishes {n : BitVec 32} (hn : n.signExtend w.bits = BitVec.ofNat w.bits w.bits)
    (ha : m.regs .rax = slotOf a) (hstack : m.stack = stack) :
    Finishes [.mov w .rcx (.imm n), .scan .bsf w .rax .rax, .cmov .e w .rax .rcx, .push .rax] m
      stack (some (slotOf a.ctz)) := by
  have hscan : (if a = 0#w.bits then BitVec.ofNat w.bits w.bits
      else if a = 0#w.bits then m.junk.setWidth w.bits else a.ctz) = a.ctz := by
    split
    next hzero => rw [hzero, ctz_zero]
    · rfl
  refine finishes_some rfl ?_
  simp [-Width.bits, execOps, Op.exec, Machine.get, Machine.operand, hstack, ha, hn, Cond.holds,
    BitScan.flags, BitScan.eval, hscan]

theorem clz_finishes {n : BitVec 32} (hn : n.signExtend w.bits = BitVec.ofNat w.bits (w.bits - 1))
    (ha : m.regs .rax = slotOf a) (hstack : m.stack = stack) :
    Finishes [.mov w .rcx (.imm (-1)), .scan .bsr w .rax .rax, .cmov .e w .rax .rcx,
      .alu .sub w .rax (.imm n), .neg w .rax, .push .rax] m stack (some (slotOf a.clz)) := by
  have hscan : (BitVec.ofNat w.bits (w.bits - 1) -
      if a = 0#w.bits then BitVec.signExtend w.bits 4294967295#32
      else if a = 0#w.bits then m.junk.setWidth w.bits
      else BitVec.ofNat w.bits a.toNat.log2) = a.clz := by
    split
    next hzero =>
      rw [hzero, clz_zero]
      cases w <;> rfl
    next hne => exact sub_log2 hne
  have hlow : (slotOf a).toNat % 2 ^ w.bits = a.toNat := by
    rw [← BitVec.toNat_setWidth, slotOf_width]
  refine finishes_some rfl ?_
  simp [-Width.bits, execOps, Op.exec, Machine.get, Machine.operand, hstack, ha, hn, Cond.holds,
    BitScan.flags, BitScan.eval, Alu.eval, hlow, hscan]

theorem Finishes.prepend {pre ops : List Op} {m₁ : Machine} {result : Option (BitVec 64)}
    (hexec : execOps pre m = .ok m₁) (hrest : SameRest m m₁) (h : Finishes ops m₁ stack result) :
    Finishes (pre ++ ops) m stack result := by
  have happend : execOps (pre ++ ops) m = execOps ops m₁ := by rw [execOps_append, hexec, ok_bind]
  cases result with
  | some result =>
    obtain ⟨m', hok, hstack, hrest'⟩ := h
    exact ⟨m', happend.trans hok, hstack, hrest.trans hrest'⟩
  | none =>
    obtain ⟨m', herror⟩ := h
    exact ⟨m', happend.trans herror⟩

/-- A division leaves the quotient in `rax` and the remainder in `rdx`. -/
theorem division_finishes {o : Op} {result : Option (BitVec w.bits × BitVec w.bits)}
    (ho : writesOnly [.rax, .rcx, .rdx] [o] = true) (hexec : o.exec m = m.setDivision w result)
    (hstack : m.stack = stack) :
    Finishes [o, .push .rax] m stack (result.map (slotOf ·.1)) ∧
      Finishes [o, .push .rdx] m stack (result.map (slotOf ·.2)) := by
  cases result with
  | none => exact ⟨⟨m, by rw [execOps, hexec]; rfl⟩, ⟨m, by rw [execOps, hexec]; rfl⟩⟩
  | some result =>
    obtain ⟨q, r⟩ := result
    have hops : ∀ reg, writesOnly [.rax, .rcx, .rdx] [o, .push reg] = true := fun _ => ho
    constructor
    · refine finishes_some (hops .rax) ⟨_, by rw [execOps, hexec]; rfl, ?_⟩
      simp [-Width.bits, hstack]
    · refine finishes_some (hops .rdx) ⟨_, by rw [execOps, hexec]; rfl, ?_⟩
      simp [-Width.bits, hstack]

theorem div_finishes (hb : m.regs .rcx = slotOf b) (hstack : m.stack = slotOf a :: stack) :
    Finishes [.pop .rax, .alu .xor w .rdx (.reg .rdx), .div w .rcx, .push .rax] m stack
        ((IBinOp.divU.eval a b).map slotOf) ∧
      Finishes [.pop .rax, .alu .xor w .rdx (.reg .rdx), .div w .rcx, .push .rdx] m stack
        ((IBinOp.remU.eval a b).map slotOf) := by
  obtain ⟨m₁, hexec, hrax, hrdx, hrcx, hstack₁⟩ : ∃ m₁,
      execOps [.pop .rax, .alu .xor w .rdx (.reg .rdx)] m = .ok m₁ ∧ m₁.get .rax w = a ∧
        m₁.get .rdx w = 0 ∧ m₁.get .rcx w = b ∧ m₁.stack = stack := by
    simp [-Width.bits, execOps, Op.exec, Machine.get, Machine.operand, hstack, hb, Alu.eval]
  have hrest : SameRest m m₁ := execOps_sameExcept rfl hexec
  have hdiv : (Op.div w .rcx).exec m₁ =
      m₁.setDivision w (if b = 0 then none else some (a.udiv b, a.umod b)) := by
    rw [Op.exec, hrax, hrdx, hrcx, divide_zero]
  obtain ⟨hquot, hrem⟩ := division_finishes rfl hdiv hstack₁
  have hdivU : (IBinOp.divU.eval a b).map slotOf =
      (if b = 0 then none else some (a.udiv b, a.umod b)).map (slotOf ·.1) := by
    simp only [IBinOp.eval]
    split <;> rfl
  have hremU : (IBinOp.remU.eval a b).map slotOf =
      (if b = 0 then none else some (a.udiv b, a.umod b)).map (slotOf ·.2) := by
    simp only [IBinOp.eval]
    split <;> rfl
  rw [hdivU, hremU]
  exact ⟨Finishes.prepend hexec hrest hquot, Finishes.prepend hexec hrest hrem⟩

theorem idiv_finishes (hb : m.regs .rcx = slotOf b) (hstack : m.stack = slotOf a :: stack) :
    Finishes [.pop .rax, .signExtendAcc w, .idiv w .rcx, .push .rax] m stack
      ((IBinOp.divS.eval a b).map slotOf) := by
  obtain ⟨m₁, hexec, hrax, hrdx, hrcx, hstack₁⟩ : ∃ m₁,
      execOps [.pop .rax, .signExtendAcc w] m = .ok m₁ ∧ m₁.get .rax w = a ∧
        m₁.get .rdx w = (if a.msb then BitVec.allOnes w.bits else 0) ∧ m₁.get .rcx w = b ∧
        m₁.stack = stack := by
    simp [-Width.bits, execOps, Op.exec, Machine.get, hstack, hb]
  have hrest : SameRest m m₁ := execOps_sameExcept rfl hexec
  have hidiv : (Op.idiv w .rcx).exec m₁ = m₁.setDivision w
      (if b = 0 ∨ a = BitVec.intMin w.bits ∧ b = -1 then none else some (a.sdiv b, a.srem b)) := by
    rw [Op.exec, hrax, hrdx, hrcx, idivide_signExtended (by cases w <;> decide)]
  obtain ⟨hquot, -⟩ := division_finishes rfl hidiv hstack₁
  have hdivS : (IBinOp.divS.eval a b).map slotOf =
      (if b = 0 ∨ a = BitVec.intMin w.bits ∧ b = -1 then none
        else some (a.sdiv b, a.srem b)).map (slotOf ·.1) := by
    simp only [IBinOp.eval]
    split <;> rfl
  rw [hdivS]
  exact Finishes.prepend hexec hrest hquot

theorem wrap_finishes {a : BitVec 64} (ha : m.regs .rax = slotOf a) (hstack : m.stack = stack) :
    Finishes [.mov .w32 .rax (.reg .rax), .push .rax] m stack
      (some (slotOf (a.setWidth 32))) := by
  refine finishes_some rfl ?_
  simp [execOps, Op.exec, Machine.operand, Machine.get, Machine.set, hstack, ha, slotOf]

theorem high_slotOf (v : BitVec 32) : (slotOf v).extractLsb' 32 32 = 0#32 := by
  apply BitVec.eq_of_toNat_eq
  have hlt := v.isLt
  simp only [slotOf, BitVec.extractLsb'_toNat, BitVec.toNat_setWidth, Nat.shiftRight_eq_div_pow,
    BitVec.toNat_ofNat]
  omega

/-- A store to the low half keeps the zeros above it. -/
theorem extend_finishes (bits : Nat) {slot : BitVec 64} (hstack : m.stack = slot :: stack)
    (hhigh : w = .w32 → slot.extractLsb' 32 32 = 0#32) :
    Finishes [.movsxTop bits w .rax, .movTop w .rax] m stack
      (some (slotOf ((slot.setWidth bits).signExtend w.bits))) := by
  refine finishes_some rfl ?_
  cases w with
  | w32 =>
    have happend : ∀ v : BitVec 32, 0#32 ++ v = slotOf v := fun v => by
      rw [slotOf, BitVec.setWidth_eq_append (by decide)]
      rfl
    simp only [execOps, Op.exec, hstack, Machine.set, ok_bind, Machine.setReg_stack,
      Except.ok.injEq, exists_eq_left', Machine.setStack_stack, hhigh rfl, happend]
    simp [Machine.get, slotOf]
  | w64 => simp [execOps, Op.exec, Machine.set, hstack, slotOf]

end Tails

/-- The code of `emit_i32_rem_s` and `emit_i64_rem_s` from `pos` on. -/
def remSCode (w : Width) (pos : Nat) : List (Lib.X86.Instr JitHandler) :=
  [.op (.cmp w .rcx (.imm (-1))), .jcc .e (.code (pos + 5)), .op (.signExtendAcc w),
    .op (.idiv w .rcx), .jmp (.code (pos + 6)), .op (.alu .xor .w32 .rdx (.reg .rdx)),
    .op (.push .rdx)]

theorem run_emitRemS (w : Width) (code : List (Lib.X86.Instr JitHandler)) :
    ((emitRemS w).run code).2 = code ++ remSCode w code.length := by
  have hminus1 := fun ins => modify_append_cons (code ++ [.op (.cmp w .rcx (.imm (-1)))])
    [.op (.signExtendAcc w), .op (.idiv w .rcx), ins] (.jcc .e (.code 0))
    (Lib.X86.Instr.setTarget (.code (code.length + 5)))
  have hdone := modify_append_cons (code ++ [.op (.cmp w .rcx (.imm (-1))),
    .jcc .e (.code (code.length + 5)), .op (.signExtendAcc w), .op (.idiv w .rcx)])
    [.op (.alu .xor .w32 .rdx (.reg .rdx))] (.jmp (.code 0))
    (Lib.X86.Instr.setTarget (.code (code.length + 6)))
  simp only [List.length_append, List.length_cons, List.length_nil, List.append_assoc,
    List.cons_append, List.nil_append, Nat.zero_add, Nat.reduceAdd,
    Lib.X86.Instr.setTarget] at hminus1 hdone
  simp only [emitRemS, run_bind, run_emit, run_emitBranch, run_emitJmp, run_fixHere, immediate_eq,
    List.append_assoc, List.length_append, List.length_cons, List.length_nil, List.cons_append,
    List.nil_append, Nat.zero_add, Nat.reduceAdd, hminus1, hdone, remSCode]

section Remainder

variable {w : Width} {m : Machine} {stack : List (BitVec 64)} {a b : BitVec w.bits}
  {code : List (Lib.X86.Instr JitHandler)} {pos : Nat}

theorem srem_neg_one (a : BitVec w.bits) : a.srem (-1) = 0 := by
  apply BitVec.eq_of_toInt_eq
  have hone : (-1 : BitVec w.bits).toInt = -1 := by cases w <;> decide
  rw [BitVec.toInt_srem, hone, Int.tmod_neg, Int.tmod_one]
  simp

/-- The divisor is minus one. -/
theorem remS_minus1 (hcode : HasCode code pos (remSCode w pos)) (hb : m.regs .rcx = slotOf b)
    (hone : b = -1) (hstack : m.stack = stack) :
    RunsTo code pos (pos + 7) m stack (some (slotOf (0 : BitVec w.bits))) := by
  have hcmp : (Op.cmp w .rcx (.imm (-1))).exec m = .ok (m.setFlags (subFlags b b)) := by
    have hsign : (-1 : BitVec 32).signExtend w.bits = -1 := by cases w <;> rfl
    rw [Op.exec, Machine.operand, hsign, ok_bind, Machine.get, hb, slotOf_width, ← hone]
  have htaken : Cond.e.holds (m.setFlags (subFlags b b)).flags = true := by
    simp [Cond.holds]
  have hrun := ((Runs.op (hcode 0 _ rfl) hcmp).trans (Runs.taken (hcode 1 _ rfl) htaken))
  have hops : HasOps code (pos + 5) [.alu .xor .w32 .rdx (.reg .rdx), .push .rdx] := by
    intro i o ho
    rcases i with _ | _ | i
    · exact Option.some.inj ho ▸ hcode 5 _ rfl
    · exact Option.some.inj ho ▸ hcode 6 _ rfl
    · cases ho
  have hexec : ∃ m', execOps [.alu .xor .w32 .rdx (.reg .rdx), .push .rdx]
      (m.setFlags (subFlags b b)) = .ok m' ∧ m'.stack = slotOf (0 : BitVec w.bits) :: stack := by
    cases w <;> simp [execOps, Op.exec, Machine.operand, Alu.eval, Machine.set, Machine.get,
      hstack, slotOf]
  obtain ⟨m', hexec, hstack'⟩ := hexec
  refine ⟨m', hrun.trans (Runs.ops hops hexec), hstack', ?_⟩
  have hrest : SameRest (m.setFlags (subFlags b b)) m' := execOps_sameExcept rfl hexec
  exact hrest

theorem remS_other (hcode : HasCode code pos (remSCode w pos)) (ha : m.regs .rax = slotOf a)
    (hb : m.regs .rcx = slotOf b) (hone : b ≠ -1) (hstack : m.stack = stack) :
    RunsTo code pos (pos + 7) m stack ((IBinOp.remS.eval a b).map slotOf) := by
  obtain ⟨m₁, hm₁⟩ : ∃ m₁, m₁ = m.setFlags (subFlags b (-1)) := ⟨_, rfl⟩
  have hcmp : (Op.cmp w .rcx (.imm (-1))).exec m = .ok m₁ := by
    have hsign : (-1 : BitVec 32).signExtend w.bits = -1 := by cases w <;> rfl
    rw [Op.exec, Machine.operand, hsign, ok_bind, Machine.get, hb, slotOf_width, hm₁]
  have htaken : Cond.e.holds m₁.flags = false := by
    rw [hm₁]
    simpa [-Width.bits, Cond.holds] using hone
  have hrun := ((Runs.op (hcode 0 _ rfl) hcmp).trans (Runs.not_taken (hcode 1 _ rfl) htaken))
  obtain ⟨m₂, hcdq, hrax, hrdx, hrcx, hstack₂, hrest⟩ : ∃ m₂,
      (Op.signExtendAcc w).exec m₁ = .ok m₂ ∧ m₂.get .rax w = a ∧
        m₂.get .rdx w = (if a.msb then BitVec.allOnes w.bits else 0) ∧ m₂.get .rcx w = b ∧
        m₂.stack = stack ∧ SameRest m m₂ := by
    refine ⟨_, rfl, ?_, ?_, ?_, ?_, ?_⟩
    · simp [-Width.bits, Machine.get, hm₁, ha]
    · simp [-Width.bits, Machine.get, hm₁, ha]
    · simp [-Width.bits, Machine.get, hm₁, hb]
    · simpa [hm₁] using hstack
    · rw [hm₁]
      exact (SameExcept.refl _ m).setReg (by decide) _
  have hidiv : (Op.idiv w .rcx).exec m₂ =
      m₂.setDivision w (if b = 0 then none else some (a.sdiv b, a.srem b)) := by
    rw [Op.exec, hrax, hrdx, hrcx, idivide_signExtended (by cases w <;> decide)]
    simp only [hone, and_false, or_false]
  have hrun₂ := hrun.trans (Runs.op (hcode 2 _ rfl) hcdq)
  by_cases hzero : b = 0
  · rw [if_pos hzero] at hidiv
    simp only [IBinOp.eval, if_pos hzero]
    exact ⟨m₂, hrun₂.trans (Runs.op_fault (hcode 3 _ rfl) hidiv)⟩
  · rw [if_neg hzero] at hidiv
    simp only [IBinOp.eval, if_neg hzero]
    have hdone := (Runs.op (hcode 3 _ rfl) hidiv).trans
      ((Runs.jmp (hcode 4 _ rfl)).trans (Runs.op (hcode 6 _ rfl) rfl))
    refine ⟨_, hrun₂.trans hdone, ?_, ?_⟩
    · simp [-Width.bits, hstack₂]
    · exact hrest.trans (((SameExcept.refl _ m₂).setReg (by decide) _).setReg (by decide) _)

/-- The signed remainder, with the division that would trap left out. -/
theorem remS_runs (hcode : HasCode code pos (remSCode w pos)) (ha : m.regs .rax = slotOf a)
    (hb : m.regs .rcx = slotOf b) (hstack : m.stack = stack) :
    RunsTo code pos (pos + 7) m stack ((IBinOp.remS.eval a b).map slotOf) := by
  by_cases hone : b = -1
  · have hzero : b ≠ 0 := by
      rw [hone]
      cases w <;> decide
    have hspec : IBinOp.remS.eval a b = some 0 := by
      rw [IBinOp.eval, if_neg hzero, hone, srem_neg_one]
    rw [hspec]
    exact remS_minus1 hcode hb hone hstack
  · exact remS_other hcode ha hb hone hstack

end Remainder

theorem run_remS (w : Width) (pre : List Op) :
    (assemble do emitOps pre; emitRemS w) = pre.map .op ++ remSCode w pre.length := by
  have hrun := run_emitRemS w (pre.map .op)
  rw [List.length_map] at hrun
  exact hrun

theorem RunsTo.after {code : List (Lib.X86.Instr JitHandler)} {pos pos₁ pos' : Nat} {m m₁ : Machine}
    {stack : List (BitVec 64)} {result : Option (BitVec 64)}
    (hrun : Runs code (.run pos m) (.run pos₁ m₁)) (hrest : SameRest m m₁)
    (h : RunsTo code pos₁ pos' m₁ stack result) : RunsTo code pos pos' m stack result := by
  cases result with
  | some slot =>
    obtain ⟨m', hrun', hstack, hrest'⟩ := h
    exact ⟨m', hrun.trans hrun', hstack, hrest.trans hrest'⟩
  | none =>
    obtain ⟨m', hfault⟩ := h
    exact ⟨m', hrun.trans hfault⟩

section Instructions

variable {m : Machine} {stack : List (BitVec 64)} {recent : List RecentOp}

theorem remS_yields {w : Width} {a b : BitVec w.bits} (recent : Option RecentOp)
    {folded : List RecentOp}
    (h : OperandsAt m stack recent.toList [slotOf b, slotOf a]) :
    IntCode.Yields ⟨folded, assemble do emitOps (popOps recent .rcx ++ [.pop .rax]); emitRemS w⟩ m
      stack ((IBinOp.remS.eval a b).map slotOf) := by
  obtain ⟨m₁, hexec, hpopped⟩ := popOps_exec recent (Or.inr rfl) h
  obtain ⟨pre, hpre⟩ : ∃ pre, pre = popOps recent .rcx ++ [.pop .rax] := ⟨_, rfl⟩
  obtain ⟨m₂, hm₂⟩ : ∃ m₂, m₂ = (m₁.setReg .rax (slotOf a)).setStack stack := ⟨_, rfl⟩
  have hexec₂ : execOps pre m = .ok m₂ := by
    rw [hpre, execOps_append, hexec, ok_bind, hm₂]
    simp [execOps, Op.exec, hpopped.stack]
  rw [← hpre, IntCode.Yields, run_remS]
  have hops : HasOps (pre.map .op ++ remSCode w pre.length) 0 pre := by
    intro i o ho
    have hlt := (List.getElem?_eq_some_iff.mp ho).1
    rw [List.getElem?_append_left (by rw [Nat.zero_add, List.length_map]; exact hlt)]
    exact hasOps_map pre i o ho
  have hcode : HasCode (pre.map .op ++ remSCode w pre.length) pre.length
    (remSCode w pre.length) := by
    intro i ins hins
    rw [List.getElem?_append_right (by rw [List.length_map]; exact Nat.le_add_right ..),
      List.length_map, Nat.add_sub_cancel_left, hins]
  have hrun : Runs (pre.map .op ++ remSCode w pre.length) (.run 0 m) (.run pre.length m₂) := by
    have hrun := Runs.ops hops hexec₂
    rwa [Nat.zero_add] at hrun
  have hrest : SameRest m m₂ := by
    rw [hm₂]
    exact hpopped.rest.trans ((SameExcept.refl _ m₁).setReg (by decide) _)
  have hlength : (pre.map (Lib.X86.Instr.op (H := JitHandler)) ++ remSCode w pre.length).length =
      pre.length + 7 := by
    rw [List.length_append, List.length_map]
    rfl
  rw [hlength]
  exact RunsTo.after hrun hrest
    (remS_runs hcode (by simp [hm₂]) (by simp [hm₂, hpopped.reg]) (by simp [hm₂]))

theorem slotOf_inj {a b : BitVec 32} (h : slotOf a = slotOf b) : a = b := by
  rw [← slotOf_low a, h, slotOf_low]

/-- An operand that is folded as an immediate. -/
theorem foldConst_yields (op : Alu) {v a b : BitVec 32}
    (h : OperandsAt m stack (.i32Const v :: recent.head?.toList) [slotOf b, slotOf a]) :
    (foldFirst (.i32Const v) recent .rax [.alu op .w32 .rax (immediate v), .push .rax]).Yields m
      stack (some (slotOf (op.eval a b).1)) := by
  refine foldFirst_yields (fun r => nofun) (Or.inl rfl) h fun m₁ havail hreg hstack => ?_
  obtain rfl := slotOf_inj havail
  rw [immediate_eq]
  exact alu_finishes op hreg (congrArg Except.ok (BitVec.signExtend_eq ..)) hstack

/-- An operand that is folded as a local. -/
theorem foldLocal_yields (op : Alu) {disp : Int} {a b : BitVec 32}
    (h : OperandsAt m stack (.getLocal disp :: recent.head?.toList) [slotOf b, slotOf a]) :
    (foldFirst (.getLocal disp) recent .rax [.alu op .w32 .rax (.mem .rbp disp), .push .rax]).Yields
      m stack (some (slotOf (op.eval a b).1)) := by
  refine foldFirst_yields (fun r => nofun) (Or.inl rfl) h fun m₁ havail hreg hstack => ?_
  have hload := load_low havail
  rw [slotOf_low] at hload
  exact alu_finishes op hreg hload hstack

section Pops

variable (recent : List RecentOp) {w : Width} {a b : BitVec w.bits}

theorem aluPop_yields (op : Alu) (hcomm : (op.eval b a).1 = (op.eval a b).1)
    (h : OperandsAt m stack recent.head?.toList [slotOf b, slotOf a]) :
    (popFirst recent .rax [.pop .rcx, .alu op w .rax (.reg .rcx), .push .rax]).Yields m stack
      (some (slotOf (op.eval a b).1)) := by
  refine popFirst_yields (Or.inl rfl) h fun m₁ hreg hstack => ?_
  rw [← hcomm]
  exact aluPop_finishes op hreg hstack

theorem popAlu_yields (op : Alu) (h : OperandsAt m stack recent.head?.toList [slotOf b, slotOf a]) :
    (popFirst recent .rcx [.pop .rax, .alu op w .rax (.reg .rcx), .push .rax]).Yields m stack
      (some (slotOf (op.eval a b).1)) :=
  popFirst_yields (Or.inr rfl) h fun _ hreg hstack => popAlu_finishes op hreg hstack

theorem imul_yields (h : OperandsAt m stack recent.head?.toList [slotOf b, slotOf a]) :
    (popFirst recent .rax [.pop .rcx, .imul w .rax .rcx, .push .rax]).Yields m stack
      (some (slotOf (a * b))) :=
  popFirst_yields (Or.inl rfl) h fun _ hreg hstack => imul_finishes hreg hstack

theorem divU_yields (h : OperandsAt m stack recent.head?.toList [slotOf b, slotOf a]) :
    (popFirst recent .rcx
      [.pop .rax, .alu .xor w .rdx (.reg .rdx), .div w .rcx, .push .rax]).Yields m stack
        ((IBinOp.divU.eval a b).map slotOf) :=
  popFirst_yields (Or.inr rfl) h fun _ hreg hstack => (div_finishes hreg hstack).1

theorem remU_yields (h : OperandsAt m stack recent.head?.toList [slotOf b, slotOf a]) :
    (popFirst recent .rcx
      [.pop .rax, .alu .xor w .rdx (.reg .rdx), .div w .rcx, .push .rdx]).Yields m stack
        ((IBinOp.remU.eval a b).map slotOf) :=
  popFirst_yields (Or.inr rfl) h fun _ hreg hstack => (div_finishes hreg hstack).2

theorem divS_yields (h : OperandsAt m stack recent.head?.toList [slotOf b, slotOf a]) :
    (popFirst recent .rcx [.pop .rax, .signExtendAcc w, .idiv w .rcx, .push .rax]).Yields m stack
      ((IBinOp.divS.eval a b).map slotOf) :=
  popFirst_yields (Or.inr rfl) h fun _ hreg hstack => idiv_finishes hreg hstack

theorem shiftCl_yields (op : Shift)
    (h : OperandsAt m stack recent.head?.toList [slotOf b, slotOf a]) :
    (popFirst recent .rcx [.pop .rax, .shiftCl op w .rax, .push .rax]).Yields m stack
      (some (slotOf (op.eval a (b.toNat % w.bits)))) :=
  popFirst_yields (Or.inr rfl) h fun _ hreg hstack => shiftCl_finishes op hreg hstack

theorem relop_yields (op : IRelOp)
    (h : OperandsAt m stack recent.head?.toList [slotOf b, slotOf a]) :
    (popFirst recent .rax [.pop .rcx, .alu .xor w .rdx (.reg .rdx), .cmp w .rcx (.reg .rax),
      .setcc op.cond .rdx, .push .rdx]).Yields m stack
        (some (slotOf (boolBits 32 (op.eval a b)))) :=
  popFirst_yields (Or.inl rfl) h fun _ hreg hstack => relop_finishes op hreg hstack

end Pops

/-- The count of a shift by a constant. -/
theorem foldShift32_yields (op : Shift) {v a b : BitVec 32}
    (h : OperandsAt m stack (.i32Const v :: recent.head?.toList) [slotOf b, slotOf a]) :
    (foldFirst (.i32Const v) recent .rax
      [.shiftImm op .w32 .rax ((v &&& 0x1f).setWidth 8), .push .rax]).Yields m stack
        (some (slotOf (op.eval a (b.toNat % 32)))) := by
  refine foldFirst_yields (fun r => nofun) (Or.inl rfl) h fun m₁ havail hreg hstack => ?_
  obtain rfl := slotOf_inj havail
  have hcount : Width.w32.count ((b &&& 0x1f).setWidth 8) = b.toNat % 32 := by
    have hmask : (b &&& 0x1f).toNat = b.toNat % 32 := Nat.and_two_pow_sub_one_eq_mod b.toNat 5
    rw [Width.count, BitVec.toNat_setWidth, hmask]
    change b.toNat % 32 % 2 ^ 8 % 32 = b.toNat % 32
    omega
  rw [← hcount]
  exact shiftImm_finishes (w := .w32) op _ hreg hstack

theorem foldShift64_yields (op : Shift) {v a b : BitVec 64}
    (h : OperandsAt m stack (.i64Const v :: recent.head?.toList) [slotOf b, slotOf a]) :
    (foldFirst (.i64Const v) recent .rax
      [.shiftImm op .w64 .rax ((v &&& 0x3f).setWidth 8), .push .rax]).Yields m stack
        (some (slotOf (op.eval a (b.toNat % 64)))) := by
  refine foldFirst_yields (fun r => nofun) (Or.inl rfl) h fun m₁ havail hreg hstack => ?_
  obtain rfl : b = v := (slotOf_i64 b).symm.trans havail
  have hcount : Width.w64.count ((b &&& 0x3f).setWidth 8) = b.toNat % 64 := by
    have hmask : (b &&& 0x3f).toNat = b.toNat % 64 := Nat.and_two_pow_sub_one_eq_mod b.toNat 6
    rw [Width.count, BitVec.toNat_setWidth, hmask]
    change b.toNat % 64 % 2 ^ 8 % 64 = b.toNat % 64
    omega
  rw [← hcount]
  exact shiftImm_finishes (w := .w64) op _ hreg hstack

theorem foldNot_yields {a b : BitVec 32}
    (h : OperandsAt m stack (.i32Const 0xffffffff :: recent.head?.toList) [slotOf b, slotOf a]) :
    (foldFirst (.i32Const 0xffffffff) recent .rax [.not .w32 .rax, .push .rax]).Yields m stack
      (some (slotOf (a ^^^ b))) := by
  refine foldFirst_yields (fun r => nofun) (Or.inl rfl) h fun m₁ havail hreg hstack => ?_
  obtain rfl := slotOf_inj havail
  rw [show a ^^^ 0xffffffff = ~~~ a from BitVec.xor_allOnes]
  exact not_finishes (w := .w32) hreg hstack

theorem emitI32Bin_yields (op : IBinOp) {a b : BitVec 32}
    (h : OperandsAt m stack (emitI32Bin recent op).folded [slotOf b, slotOf a]) :
    (emitI32Bin recent op).Yields m stack ((op.eval a b).map slotOf) := by
  cases op with
  | add =>
    match recent, h with
    | .getLocal disp :: recent, h => exact foldLocal_yields .add h
    | .i32Const v :: recent, h => exact foldConst_yields .add h
    | [], h | .i64Const _ :: _, h | .push _ :: _, h =>
      exact aluPop_yields (w := .w32) _ .add (BitVec.add_comm b a) h
  | sub =>
    match recent, h with
    | .i32Const v :: recent, h => exact foldConst_yields .sub h
    | [], h | .getLocal _ :: _, h | .i64Const _ :: _, h | .push _ :: _, h =>
      exact popAlu_yields (w := .w32) _ .sub h
  | mul => exact imul_yields (w := .w32) recent h
  | divS => exact divS_yields (w := .w32) recent h
  | divU => exact divU_yields (w := .w32) recent h
  | remS => exact remS_yields (w := .w32) recent.head? h
  | remU => exact remU_yields (w := .w32) recent h
  | and =>
    match recent, h with
    | .i32Const v :: recent, h => exact foldConst_yields .and h
    | [], h | .getLocal _ :: _, h | .i64Const _ :: _, h | .push _ :: _, h =>
      exact aluPop_yields (w := .w32) _ .and (BitVec.and_comm b a) h
  | or =>
    match recent, h with
    | .i32Const v :: recent, h => exact foldConst_yields .or h
    | [], h | .getLocal _ :: _, h | .i64Const _ :: _, h | .push _ :: _, h =>
      exact aluPop_yields (w := .w32) _ .or (BitVec.or_comm b a) h
  | xor =>
    match recent, h with
    | .getLocal disp :: recent, h => exact foldLocal_yields .xor h
    | .i32Const v :: recent, h =>
      by_cases hones : v = 0xffffffff
      · subst hones
        exact foldNot_yields h
      · simp only [emitI32Bin, hones, if_false] at h ⊢
        exact foldConst_yields .xor h
    | [], h | .i64Const _ :: _, h | .push _ :: _, h =>
      exact aluPop_yields (w := .w32) _ .xor (BitVec.xor_comm b a) h
  | shl =>
    match recent, h with
    | .i32Const v :: recent, h => exact foldShift32_yields .shl h
    | [], h | .getLocal _ :: _, h | .i64Const _ :: _, h | .push _ :: _, h =>
      exact shiftCl_yields (w := .w32) _ .shl h
  | shrS => exact shiftCl_yields (w := .w32) recent .sar h
  | shrU =>
    match recent, h with
    | .i32Const v :: recent, h => exact foldShift32_yields .shr h
    | [], h | .getLocal _ :: _, h | .i64Const _ :: _, h | .push _ :: _, h =>
      exact shiftCl_yields (w := .w32) _ .shr h
  | rotl => exact shiftCl_yields (w := .w32) recent .rol h
  | rotr => exact shiftCl_yields (w := .w32) recent .ror h

theorem emitI64Shift_yields (op : Shift) {a b : BitVec 64}
    (h : OperandsAt m stack (emitI64Shift op recent).folded [slotOf b, slotOf a]) :
    (emitI64Shift op recent).Yields m stack (some (slotOf (op.eval a (b.toNat % 64)))) := by
  match recent, h with
  | .i64Const v :: recent, h => exact foldShift64_yields op h
  | [], h | .getLocal _ :: _, h | .i32Const _ :: _, h | .push _ :: _, h =>
    exact shiftCl_yields (w := .w64) _ op h

theorem foldAdd64_yields {v a b : BitVec 64}
    (h : OperandsAt m stack (.i64Const v :: recent.head?.toList) [slotOf b, slotOf a]) :
    (foldFirst (.i64Const v) recent .rax
      [.movImm64 .rcx v, .alu .add .w64 .rax (.reg .rcx), .push .rax]).Yields m stack
        (some (slotOf (a + b))) := by
  refine foldFirst_yields (fun r => nofun) (Or.inl rfl) h fun m₁ havail hreg hstack => ?_
  obtain rfl : b = v := (slotOf_i64 b).symm.trans havail
  refine finishes_some rfl ?_
  have hstack' : m₁.stack = stack := hstack
  simp [execOps, Op.exec, Machine.operand, Alu.eval, hstack', hreg]

theorem emitI64Bin_yields (op : IBinOp) {a b : BitVec 64}
    (h : OperandsAt m stack (emitI64Bin recent op).folded [slotOf b, slotOf a]) :
    (emitI64Bin recent op).Yields m stack ((op.eval a b).map slotOf) := by
  -- code that folds nothing is code that pops with nothing before it
  cases op with
  | add =>
    match recent, h with
    | .i64Const v :: recent, h => exact foldAdd64_yields h
    | [], h | .getLocal _ :: _, h | .i32Const _ :: _, h | .push _ :: _, h =>
      exact aluPop_yields (w := .w64) _ .add (BitVec.add_comm b a) h
  | sub => exact popAlu_yields (w := .w64) [] .sub h
  | mul => exact imul_yields (w := .w64) recent h
  | divS => exact divS_yields (w := .w64) [] h
  | divU => exact divU_yields (w := .w64) [] h
  | remS => exact remS_yields (w := .w64) none h
  | remU => exact remU_yields (w := .w64) [] h
  | and => exact popAlu_yields (w := .w64) [] .and h
  | or => exact popAlu_yields (w := .w64) [] .or h
  | xor => exact popAlu_yields (w := .w64) [] .xor h
  | shl => exact emitI64Shift_yields .shl h
  | shrS => exact emitI64Shift_yields .sar h
  | shrU => exact emitI64Shift_yields .shr h
  | rotl => exact shiftCl_yields (w := .w64) [] .rol h
  | rotr => exact shiftCl_yields (w := .w64) [] .ror h

/-- The instructions with two operands. -/
theorem emitBinary_yields (i : IBinaryInstr) {a b : BitVec i.arg.bits}
    (h : OperandsAt m stack (emitBinary recent i).folded [slotOf b, slotOf a]) :
    (emitBinary recent i).Yields m stack ((i.eval a b).map slotOf) := by
  cases i with
  | rel t op =>
    cases t with
    | i32 => exact relop_yields (w := .w32) recent op h
    | i64 => exact relop_yields (w := .w64) [] op h
  | bin t op =>
    cases t with
    | i32 => exact emitI32Bin_yields op h
    | i64 => exact emitI64Bin_yields op h

section Unary

variable (recent : List RecentOp) {w : Width} {a : BitVec w.bits}

theorem unaryPop_yields {ops : List Op} {result : BitVec 64}
    (h : OperandsAt m stack recent.head?.toList [slotOf a])
    (hops : ∀ m₁ : Machine, m₁.regs .rax = slotOf a → m₁.stack = stack →
      Finishes ops m₁ stack (some result)) :
    (popFirst recent .rax ops).Yields m stack (some result) :=
  popFirst_yields (Or.inl rfl) h hops

end Unary

/-- The instructions that work on the top of the stack. -/
theorem extend_yields {w : Width} {n bits : Nat} (hbits : bits ≤ 64) {a : BitVec n}
    (hhigh : w = .w32 → (slotOf a).extractLsb' 32 32 = 0#32)
    (h : OperandsAt m stack [] [slotOf a]) :
    (IntCode.straight [] [.movsxTop bits w .rax, .movTop w .rax]).Yields m stack
      (some (slotOf ((a.setWidth bits).signExtend w.bits))) := by
  have hlow : (slotOf a).setWidth bits = a.setWidth bits := BitVec.setWidth_setWidth_of_le _ hbits
  rw [← hlow]
  exact IntCode.straight_yields (extend_finishes bits h hhigh)

/-- The instructions with one operand. -/
theorem emitUnary_yields (tzcnt : Bool) (u : IUnaryInstr) {a : BitVec u.arg.bits}
    (h : OperandsAt m stack (emitUnary tzcnt recent u).folded [slotOf a]) :
    (emitUnary tzcnt recent u).Yields m stack (some (slotOf (u.eval a))) := by
  cases u with
  | eqz t =>
    cases t with
    | i32 => exact unaryPop_yields (w := .w32) recent h fun _ => eqz_finishes
    | i64 => exact unaryPop_yields (w := .w64) [] h fun _ => eqz_finishes
  | clz t =>
    cases t with
    | i32 =>
      cases tzcnt with
      | true => exact unaryPop_yields (w := .w32) recent h fun _ => scan_finishes .lzcnt (by decide)
      | false => exact unaryPop_yields (w := .w32) recent h fun _ => clz_finishes rfl
    | i64 =>
      cases tzcnt with
      | true => exact unaryPop_yields (w := .w64) [] h fun _ => scan_finishes .lzcnt (by decide)
      | false => exact unaryPop_yields (w := .w64) [] h fun _ => clz_finishes rfl
  | ctz t =>
    cases t with
    | i32 =>
      cases tzcnt with
      | true => exact unaryPop_yields (w := .w32) recent h fun _ => scan_finishes .tzcnt (by decide)
      | false => exact unaryPop_yields (w := .w32) recent h fun _ => ctz_finishes rfl
    | i64 =>
      cases tzcnt with
      | true => exact unaryPop_yields (w := .w64) [] h fun _ => scan_finishes .tzcnt (by decide)
      | false => exact unaryPop_yields (w := .w64) [] h fun _ => ctz_finishes rfl
  | popcnt t =>
    cases t with
    | i32 => exact unaryPop_yields (w := .w32) recent h fun _ => scan_finishes .popcnt (by decide)
    | i64 => exact unaryPop_yields (w := .w64) [] h fun _ => scan_finishes .popcnt (by decide)
  | wrap => exact unaryPop_yields (w := .w64) recent h fun _ => wrap_finishes
  | extendI32S =>
    have hyields : (IntCode.straight [] [.movsxTop 32 .w64 .rax, .movTop .w64 .rax]).Yields m stack
        (some (slotOf ((a.setWidth 32).signExtend 64))) :=
      extend_yields (w := .w64) (by decide) nofun h
    rwa [BitVec.setWidth_eq] at hyields
  | extendI32U =>
    have hslot : slotOf (a.setWidth 64) = slotOf a := slotOf_i64 _
    refine ⟨m, Runs.refl _, ?_, SameExcept.refl _ m⟩
    exact hslot ▸ h
  | extend8S t =>
    cases t with
    | i32 => exact extend_yields (w := .w32) (by decide) (fun _ => high_slotOf a) h
    | i64 => exact extend_yields (w := .w64) (by decide) nofun h
  | extend16S t =>
    cases t with
    | i32 => exact extend_yields (w := .w32) (by decide) (fun _ => high_slotOf a) h
    | i64 => exact extend_yields (w := .w64) (by decide) nofun h
  | extend32S => exact extend_yields (w := .w64) (by decide) nofun h

end Instructions

/-- What the interpreter does with the operands on top of its stack, in any state. -/
def Interprets (operator : Operator) (operands : List OperandStackElem)
    (result : Option OperandStackElem) : Prop :=
  ∀ (st : InterpretState) (os : List OperandStackElem), st.os = operands ++ os →
    match result with
    | some e => operator st = .ok { st with pc := st.pc + 1, os := e :: os }
    | none => ∃ msg st', operator st = .error (.wasmInterpreter msg, st')

/-- What emitted code does with its operands, wherever they are. -/
def Compiles (c : IntCode) (operands : List (BitVec 64)) (result : Option (BitVec 64)) : Prop :=
  ∀ (m : Machine) (stack : List (BitVec 64)), OperandsAt m stack c.folded operands →
    c.Yields m stack result

theorem visitUnary_interprets (u : IUnaryInstr) (a : BitVec u.arg.bits) :
    Interprets (visitUnary u) [.ofBits u.arg a] (some (.ofBits u.res (u.eval a))) := by
  intro st os hos
  have hcons : st.os = .ofBits u.arg a :: os := hos
  simp only [visitUnary, hcons, OperandStackElem.toBits_ofBits, interpUnary_eq]
  rfl

theorem visitBinary_interprets (i : IBinaryInstr) (a b : BitVec i.arg.bits) :
    Interprets (visitBinary i) [.ofBits i.arg b, .ofBits i.arg a]
      ((i.eval a b).map (.ofBits i.res)) := by
  intro st os hos
  have hcons : st.os = .ofBits i.arg b :: .ofBits i.arg a :: os := hos
  have hcomputes := interpBinary_computes i a b
  simp only [visitBinary, hcons, OperandStackElem.toBits_ofBits]
  cases heval : i.eval a b with
  | some v =>
    rw [heval] at hcomputes
    rw [show interpBinary i a b = .ok v from hcomputes]
    rfl
  | none =>
    rw [heval] at hcomputes
    obtain ⟨msg, herror⟩ := hcomputes
    rw [herror]
    exact ⟨msg, _, rfl⟩

/-- The scalar integer instructions: the interpreter and the machine code, with the bit counting
instructions of the processor or without and with any operands folded, compute what WebAssembly
defines, or all trap. -/
theorem integer_instructions_agree :
    (∀ (u : IUnaryInstr) (a : BitVec u.arg.bits),
      Interprets (visitUnary u) [.ofBits u.arg a] (some (.ofBits u.res (u.eval a))) ∧
        ∀ (tzcnt : Bool) (recent : List RecentOp),
          Compiles (emitUnary tzcnt recent u) [slotOf a] (some (slotOf (u.eval a)))) ∧
      ∀ (i : IBinaryInstr) (a b : BitVec i.arg.bits),
        Interprets (visitBinary i) [.ofBits i.arg b, .ofBits i.arg a]
            ((i.eval a b).map (.ofBits i.res)) ∧
          ∀ recent : List RecentOp,
            Compiles (emitBinary recent i) [slotOf b, slotOf a] ((i.eval a b).map slotOf) := by
  refine ⟨fun u a => ⟨visitUnary_interprets u a, ?_⟩,
    fun i a b => ⟨visitBinary_interprets i a b, ?_⟩⟩
  · intro tzcnt recent m stack h
    exact emitUnary_yields tzcnt u h
  · intro recent m stack h
    exact emitBinary_yields i h

/-- A machine with one value on its stack. -/
def oneSlotMachine (slot : BitVec 64) : Machine where
  regs := fun _ => 0
  xmms := fun _ => 0
  flags := {}
  df := false
  stack := [slot]
  memory := fun _ => 0
  readable := fun _ => false
  writable := fun _ => false
  junk := 0

/-- The least integer divided by a constant of minus one. -/
theorem least_by_minus_one_traps : ∃ m',
    Runs (emitBinary [.i32Const 0xffffffff] (.bin .i32 .divS)).code
      (.run 0 (oneSlotMachine 0x80000000)) (.fault .divide m') :=
  (integer_instructions_agree.2 (.bin .i32 .divS) 0x80000000 0xffffffff).2 [.i32Const 0xffffffff]
    (oneSlotMachine 0x80000000) [] ⟨rfl, rfl⟩

end EosVm
