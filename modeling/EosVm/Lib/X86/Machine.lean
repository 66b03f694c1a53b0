import Mathlib.Algebra.Order.Ring.Int
import Mathlib.Data.BitVec
import Mathlib.Logic.Function.Basic

/-!
# A part of the x86-64 architecture

The general and vector registers, the flags, memory and the operand part of the stack, with the
arithmetic that instructions are made of. The stack is a list of 8-byte slots, top first, apart from
the memory. What the architecture leaves undefined is taken from `junk`.
-/

set_option autoImplicit false

namespace EosVm.Lib.X86

inductive Reg where
  | rax | rcx | rdx | rbx | rsp | rbp | rsi | rdi
  | r8 | r9 | r10 | r11 | r12 | r13 | r14 | r15
  deriving DecidableEq, Repr

/-- Operand sizes of the general instructions. -/
inductive Width where
  | w32 | w64
  deriving DecidableEq, Repr

@[reducible, simp] def Width.bits : Width → Nat
  | .w32 => 32
  | .w64 => 64

structure Flags where
  cf : Bool := false
  zf : Bool := false
  sf : Bool := false
  of : Bool := false
  deriving DecidableEq, Repr

structure Machine where
  regs : Reg → BitVec 64
  xmms : Fin 16 → BitVec 128
  flags : Flags
  df : Bool
  stack : List (BitVec 64)
  memory : Nat → UInt8
  readable : Nat → Bool
  writable : Nat → Bool
  junk : BitVec 128

namespace Machine

variable (m : Machine) (r r' : Reg)

def setReg (v : BitVec 64) : Machine := { m with regs := Function.update m.regs r v }

def setXmm (x : Fin 16) (v : BitVec 128) : Machine := { m with xmms := Function.update m.xmms x v }

def setFlags (flags : Flags) : Machine := { m with flags := flags }

def setStack (stack : List (BitVec 64)) : Machine := { m with stack := stack }

def setByte (addr : Nat) (v : UInt8) : Machine :=
  { m with memory := Function.update m.memory addr v }

/-- The low part of a register. -/
def get (w : Width) : BitVec w.bits := (m.regs r).setWidth w.bits

/-- A write to the low part of a register clears the rest. -/
def set (w : Width) (v : BitVec w.bits) : Machine := m.setReg r (v.setWidth 64)

@[simp] theorem get_w64 : m.get r .w64 = m.regs r := BitVec.setWidth_eq _

@[simp] theorem set_w64 (v : BitVec 64) : m.set r .w64 v = m.setReg r v := by
  unfold set
  rw [BitVec.setWidth_eq]

-- Every update changes its own part only.

@[simp] theorem setReg_regs (v : BitVec 64) :
    (m.setReg r v).regs r' = if r' = r then v else m.regs r' := Function.update_apply ..
@[simp] theorem setReg_xmms (v : BitVec 64) : (m.setReg r v).xmms = m.xmms := rfl
@[simp] theorem setReg_flags (v : BitVec 64) : (m.setReg r v).flags = m.flags := rfl
@[simp] theorem setReg_df (v : BitVec 64) : (m.setReg r v).df = m.df := rfl
@[simp] theorem setReg_stack (v : BitVec 64) : (m.setReg r v).stack = m.stack := rfl
@[simp] theorem setReg_memory (v : BitVec 64) : (m.setReg r v).memory = m.memory := rfl
@[simp] theorem setReg_readable (v : BitVec 64) : (m.setReg r v).readable = m.readable := rfl
@[simp] theorem setReg_writable (v : BitVec 64) : (m.setReg r v).writable = m.writable := rfl
@[simp] theorem setReg_junk (v : BitVec 64) : (m.setReg r v).junk = m.junk := rfl

@[simp] theorem setXmm_xmms (x y : Fin 16) (v : BitVec 128) :
    (m.setXmm x v).xmms y = if y = x then v else m.xmms y := Function.update_apply ..
@[simp] theorem setXmm_regs (x : Fin 16) (v : BitVec 128) : (m.setXmm x v).regs = m.regs := rfl
@[simp] theorem setXmm_flags (x : Fin 16) (v : BitVec 128) : (m.setXmm x v).flags = m.flags := rfl
@[simp] theorem setXmm_df (x : Fin 16) (v : BitVec 128) : (m.setXmm x v).df = m.df := rfl
@[simp] theorem setXmm_stack (x : Fin 16) (v : BitVec 128) : (m.setXmm x v).stack = m.stack := rfl
@[simp] theorem setXmm_memory (x : Fin 16) (v : BitVec 128) :
    (m.setXmm x v).memory = m.memory := rfl
@[simp] theorem setXmm_readable (x : Fin 16)
    (v : BitVec 128) : (m.setXmm x v).readable = m.readable := rfl
@[simp] theorem setXmm_writable (x : Fin 16)
    (v : BitVec 128) : (m.setXmm x v).writable = m.writable := rfl
@[simp] theorem setXmm_junk (x : Fin 16) (v : BitVec 128) : (m.setXmm x v).junk = m.junk := rfl

@[simp] theorem setFlags_flags (f : Flags) : (m.setFlags f).flags = f := rfl
@[simp] theorem setFlags_regs (f : Flags) : (m.setFlags f).regs = m.regs := rfl
@[simp] theorem setFlags_xmms (f : Flags) : (m.setFlags f).xmms = m.xmms := rfl
@[simp] theorem setFlags_df (f : Flags) : (m.setFlags f).df = m.df := rfl
@[simp] theorem setFlags_stack (f : Flags) : (m.setFlags f).stack = m.stack := rfl
@[simp] theorem setFlags_memory (f : Flags) : (m.setFlags f).memory = m.memory := rfl
@[simp] theorem setFlags_readable (f : Flags) : (m.setFlags f).readable = m.readable := rfl
@[simp] theorem setFlags_writable (f : Flags) : (m.setFlags f).writable = m.writable := rfl
@[simp] theorem setFlags_junk (f : Flags) : (m.setFlags f).junk = m.junk := rfl

@[simp] theorem setStack_stack (l : List (BitVec 64)) : (m.setStack l).stack = l := rfl
@[simp] theorem setStack_regs (l : List (BitVec 64)) : (m.setStack l).regs = m.regs := rfl
@[simp] theorem setStack_xmms (l : List (BitVec 64)) : (m.setStack l).xmms = m.xmms := rfl
@[simp] theorem setStack_flags (l : List (BitVec 64)) : (m.setStack l).flags = m.flags := rfl
@[simp] theorem setStack_df (l : List (BitVec 64)) : (m.setStack l).df = m.df := rfl
@[simp] theorem setStack_memory (l : List (BitVec 64)) : (m.setStack l).memory = m.memory := rfl
@[simp] theorem setStack_readable (l : List (BitVec 64)) :
    (m.setStack l).readable = m.readable := rfl
@[simp] theorem setStack_writable (l : List (BitVec 64)) :
    (m.setStack l).writable = m.writable := rfl
@[simp] theorem setStack_junk (l : List (BitVec 64)) : (m.setStack l).junk = m.junk := rfl

@[simp] theorem setByte_regs (addr : Nat) (v : UInt8) : (m.setByte addr v).regs = m.regs := rfl

/-- `n` bytes from `addr` on, little endian. -/
def loadBytes (addr : Nat) : (n : Nat) → BitVec (8 * n)
  | 0 => 0#0
  | n + 1 =>
    ((m.memory (addr + n)).toBitVec ++ loadBytes addr n : BitVec (8 + 8 * n)).cast (by omega)

theorem loadBytes_congr {m m' : Machine} (h : ∀ a, m.memory a = m'.memory a) (addr n : Nat) :
    m.loadBytes addr n = m'.loadBytes addr n := by
  induction n with
  | zero => rfl
  | succ n ih => rw [loadBytes, loadBytes, ih, h]

def readableBlock (addr n : Nat) : Bool := (List.range n).all fun i => m.readable (addr + i)

@[simp] theorem setReg_readableBlock (v : BitVec 64) (addr n : Nat) :
    (m.setReg r v).readableBlock addr n = m.readableBlock addr n := rfl

@[simp] theorem setXmm_readableBlock (x : Fin 16) (v : BitVec 128) (addr n : Nat) :
    (m.setXmm x v).readableBlock addr n = m.readableBlock addr n := rfl

@[simp] theorem setReg_loadBytes (v : BitVec 64) (addr n : Nat) :
    (m.setReg r v).loadBytes addr n = m.loadBytes addr n :=
  loadBytes_congr (fun _ => by rfl) addr n

@[simp] theorem setXmm_loadBytes (x : Fin 16) (v : BitVec 128) (addr n : Nat) :
    (m.setXmm x v).loadBytes addr n = m.loadBytes addr n :=
  loadBytes_congr (fun _ => by rfl) addr n

end Machine

/-- The flags of `a - b`. -/
def subFlags {w : Nat} (a b : BitVec w) : Flags where
  cf := a.ult b
  zf := a - b == 0#w
  sf := (a - b).msb
  of := a.msb != b.msb && (a - b).msb != a.msb

/-- The flags of `a + b`. -/
def addFlags {w : Nat} (a b : BitVec w) : Flags where
  cf := 2 ^ w ≤ a.toNat + b.toNat
  zf := a + b == 0#w
  sf := (a + b).msb
  of := a.msb == b.msb && (a + b).msb != a.msb

/-- The flags of a bitwise operation. -/
def logicFlags {w : Nat} (v : BitVec w) : Flags where
  zf := v == 0#w
  sf := v.msb

/-- Condition codes. -/
inductive Cond where
  | b | ae | e | ne | be | a | l | ge | le | g
  deriving DecidableEq, Repr

def Cond.holds (f : Flags) : Cond → Bool
  | .b => f.cf
  | .ae => !f.cf
  | .e => f.zf
  | .ne => !f.zf
  | .be => f.cf || f.zf
  | .a => !(f.cf || f.zf)
  | .l => f.sf != f.of
  | .ge => f.sf == f.of
  | .le => f.zf || f.sf != f.of
  | .g => !(f.zf || f.sf != f.of)

section Conditions

variable {w : Nat} (a b : BitVec w)

@[simp] theorem subFlags_zf : (subFlags a b).zf = (a == b) := by
  have hiff : a - b = 0#w ↔ a = b := by
    constructor
    · intro h
      exact BitVec.sub_eq_iff_eq_add.mp h |>.trans (BitVec.zero_add b)
    · rintro rfl
      exact BitVec.sub_self a
  change (a - b == 0#w) = (a == b)
  exact Bool.eq_iff_iff.mpr (by simpa using hiff)

/-- The sign of a difference of operands with the same sign. -/
theorem msb_sub_of_msb_eq (hw : 0 < w) (h : a.msb = b.msb) : (a - b).msb = a.ult b := by
  have ha := a.isLt
  have hb := b.isLt
  have hpow : 2 ^ w = 2 * 2 ^ (w - 1) := by
    rw [← Nat.pow_succ', Nat.succ_eq_add_one, Nat.sub_add_cancel hw]
  simp only [BitVec.msb_eq_decide, decide_eq_decide] at h
  rw [BitVec.ult_eq_decide, BitVec.msb_eq_decide, decide_eq_decide]
  rcases Nat.lt_or_ge a.toNat b.toNat with hlt | hle
  · rw [BitVec.toNat_sub_of_lt hlt]
    omega
  · rw [BitVec.toNat_sub_of_le hle]
    omega

theorem ult_eq_msb_of_msb_ne (h : a.msb ≠ b.msb) : a.ult b = b.msb := by
  simp only [BitVec.msb_eq_decide, ne_eq, decide_eq_decide] at h
  rw [BitVec.ult_eq_decide, BitVec.msb_eq_decide, decide_eq_decide]
  omega

/-- Sign and overflow of a difference compare the operands as signed integers. -/
theorem subFlags_sf_ne_of (hw : 0 < w) : ((subFlags a b).sf != (subFlags a b).of) = a.slt b := by
  rw [BitVec.slt_eq_ult]
  change ((a - b).msb != (a.msb != b.msb && (a - b).msb != a.msb)) = _
  by_cases h : a.msb = b.msb
  · rw [msb_sub_of_msb_eq a b hw h, h]
    simp
  · rw [ult_eq_msb_of_msb_ne a b h]
    cases ha : a.msb
    · cases hb : b.msb
      · exact absurd (ha.trans hb.symm) h
      · cases (a - b).msb <;> rfl
    · cases hb : b.msb
      · cases (a - b).msb <;> rfl
      · exact absurd (ha.trans hb.symm) h

end Conditions

/-- What a condition says about the operands of the comparison before it. -/
def Cond.compare {w : Nat} (a b : BitVec w) : Cond → Bool
  | .b => a.ult b
  | .ae => b.ule a
  | .e => a == b
  | .ne => a != b
  | .be => a.ule b
  | .a => b.ult a
  | .l => a.slt b
  | .ge => b.sle a
  | .le => a.sle b
  | .g => b.slt a

/-- A condition after a comparison. -/
theorem Cond.holds_subFlags {w : Nat} (hw : 0 < w) (a b : BitVec w) (c : Cond) :
    c.holds (subFlags a b) = c.compare a b := by
  have hsigned := subFlags_sf_ne_of a b hw
  have hzero := subFlags_zf a b
  have hcarry : (subFlags a b).cf = a.ult b := rfl
  have hule : (a.ult b || a == b) = a.ule b := by
    rw [BitVec.ule_eq_decide, BitVec.ult_eq_decide]
    have heq : (a == b) = decide (a.toNat = b.toNat) := by
      rw [Bool.eq_iff_iff]
      simp [BitVec.toNat_eq]
    rw [heq, ← Bool.decide_or]
    exact decide_eq_decide.mpr Nat.le_iff_lt_or_eq.symm
  have hsle : (a == b || a.slt b) = a.sle b := by
    rw [BitVec.sle_eq_decide, BitVec.slt_eq_decide]
    have heq : (a == b) = decide (a.toInt = b.toInt) := by
      rw [Bool.eq_iff_iff]
      simp [BitVec.toInt_inj]
    rw [heq, ← Bool.decide_or]
    exact decide_eq_decide.mpr (by omega)
  cases c with
  | b => exact hcarry
  | ae =>
    simp only [holds, compare, hcarry, BitVec.ule_eq_decide, BitVec.ult_eq_decide, ← decide_not]
    exact decide_eq_decide.mpr Nat.not_lt
  | e => exact hzero
  | ne => simp only [holds, compare, hzero, bne]
  | be => simp only [holds, compare, hcarry, hzero, hule]
  | a =>
    simp only [holds, compare, hcarry, hzero, hule]
    rw [BitVec.ule_eq_decide, BitVec.ult_eq_decide, ← decide_not]
    exact decide_eq_decide.mpr Nat.not_le
  | l => exact hsigned
  | ge =>
    simp only [holds, compare, BitVec.sle_eq_decide]
    have hge : ((subFlags a b).sf == (subFlags a b).of) =
        !((subFlags a b).sf != (subFlags a b).of) := by
      simp [bne]
    rw [hge, hsigned, BitVec.slt_eq_decide, ← decide_not]
    exact decide_eq_decide.mpr Int.not_lt
  | le => simp only [holds, compare, hzero, hsigned, hsle]
  | g =>
    simp only [holds, compare, hzero, hsigned, hsle]
    rw [BitVec.sle_eq_decide, BitVec.slt_eq_decide, ← decide_not]
    exact decide_eq_decide.mpr Int.not_le

end EosVm.Lib.X86
