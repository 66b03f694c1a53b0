import EosVm.Guarantees.BulkMemory
import EosVm.Lib.X86.Strings
import EosVm.Source.JitMemory

/-!
# Bulk memory operations of the machine code

The code for `memory.fill` and `memory.copy` reads the last byte of one range and then runs a string
instruction over the whole of it. Of the two ranges of a copy it looks at the one with the larger
address, which is in the memory only if the other one is too. `table.copy` compares with the size
less the count, which is negative when the count alone is too large.
-/

set_option autoImplicit false

namespace EosVm

open Lib Lib.X86 ExecutionContextBase

/-- A machine in which the memory of `ctx` begins at `base`, as the allocator maps it: the byte
below it can be read, and nothing from its end on. -/
structure MemoryAt (m : Machine) (base : Nat) (ctx : ExecutionContextBase) : Prop where
  rsi : (m.regs .rsi).toNat = base
  low : 0 < base
  high : base + 2 ^ 33 ≤ 2 ^ 64
  df : m.df = false
  below : m.readable (base - 1) = true
  inside : ∀ a < ctx.memoryLength, m.readable (base + a) = true ∧ m.writable (base + a) = true
  outside : ∀ a, ctx.memoryLength ≤ a → a < 2 ^ 33 → m.readable (base + a) = false
  bytes : ∀ a < ctx.memoryLength, m.memory (base + a) = ctx.memory a

/-- The registers and flags that the surrounding code relies on are as before, and the operands are
popped. -/
structure Restored (m m' : Machine) (stack : List (BitVec 64)) : Prop where
  rsi : m'.regs .rsi = m.regs .rsi
  rdi : m'.regs .rdi = m.regs .rdi
  df : m'.df = m.df
  stack : m'.stack = stack

/-- Where the code ends, against what the interpreter does: both trap and nothing has been written,
or both go on and the memories are the same. -/
def MemoryAgrees (m : Machine) (base len : Nat) (stack : List (BitVec 64))
    (code : List (Lib.X86.Instr JitHandler)) (final : Config JitHandler) :
    Except (VmError × InterpretState) InterpretState → Prop
  | .error _ => ∃ m', final = .fault .page m' ∧ m'.memory = m.memory
  | .ok st => ∃ m', final = .run code.length m' ∧ Restored m m' stack ∧
      (∀ a < len, m'.memory (base + a) = st.ctx.memory a) ∧
      ∀ x, x < base ∨ base + len ≤ x → m'.memory x = m.memory x

/-- The operands of a bulk operation in the slots of the native stack. -/
def bulkSlots (d s n : BitVec 32) (stack : List (BitVec 64)) : List (BitVec 64) :=
  n.setWidth 64 :: s.setWidth 64 :: d.setWidth 64 :: stack

section Validation

variable {m m' : Machine} {base : Nat} {ctx : ExecutionContextBase}

/-- The address of the first byte of a range. -/
theorem MemoryAt.pointer (h : MemoryAt m base ctx) (p : BitVec 32) :
    (p.setWidth 64 + m.regs .rsi).toNat = base + p.toNat := by
  have hp := p.isLt
  have hrsi := h.rsi
  have hhigh := h.high
  rw [BitVec.toNat_add, BitVec.toNat_setWidth, hrsi]
  omega

/-- Reading the last byte of a range finds whether it is in the memory. -/
theorem MemoryAt.validate (h : MemoryAt m base ctx) (p n : BitVec 32)
    {x y : BitVec 64} (hx : x = n.setWidth 64) (hy : y.toNat = base + p.toNat) :
    m.readable (x + y + BitVec.ofInt 64 (-1)).toNat =
      decide (p.toNat + n.toNat ≤ ctx.memoryLength) := by
  have hp := p.isLt
  have hn := n.isLt
  have hlow := h.low
  have hhigh := h.high
  have haddr : (x + y + BitVec.ofInt 64 (-1)).toNat = base + p.toNat + n.toNat - 1 := by
    have hminus : (BitVec.ofInt 64 (-1)).toNat = 2 ^ 64 - 1 := by decide
    rw [BitVec.toNat_add, BitVec.toNat_add, hx, hy, hminus, BitVec.toNat_setWidth]
    omega
  rw [haddr]
  by_cases hzero : p.toNat + n.toNat = 0
  · rw [show base + p.toNat + n.toNat - 1 = base - 1 by omega, h.below, eq_comm, decide_eq_true_eq]
    omega
  · rw [show base + p.toNat + n.toNat - 1 = base + (p.toNat + n.toNat - 1) by omega]
    by_cases hfits : p.toNat + n.toNat ≤ ctx.memoryLength
    · rw [(h.inside _ (by omega)).1, eq_comm, decide_eq_true_eq]
      exact hfits
    · rw [h.outside _ (by omega) (by omega), eq_comm, decide_eq_false_iff_not]
      exact hfits

theorem toNat_slot (n : BitVec 32) : (n.setWidth 64).toNat = n.toNat := by
  have hn := n.isLt
  rw [BitVec.toNat_setWidth]
  omega

/-- The bytes of a range that fits can be read and written. -/
theorem MemoryAt.access (h : MemoryAt m base ctx) {p n : Nat} (hfits : p + n ≤ ctx.memoryLength) :
    ∀ a, base + p ≤ a → a < base + p + n → m.readable a = true ∧ m.writable a = true := by
  intro a hlow hhigh
  have hinside := h.inside (a - base) (by omega)
  rwa [show base + (a - base) = a by omega] at hinside

end Validation

section Fill

variable {m : Machine} {base : Nat} {ctx : ExecutionContextBase} {d s n : BitVec 32}
  {stack : List (BitVec 64)}

/-- The code before the range is checked. -/
def fillSetup : List Op :=
  [.pop .rcx, .mov .w64 .r8 (.reg .rdi), .pop .rax, .pop .rdi, .alu .add .w64 .rdi (.reg .rsi)]

theorem fillSetup_exec (hstack : m.stack = bulkSlots d s n stack) :
    ∃ m', execOps fillSetup m = .ok m' ∧ m'.regs .rcx = n.setWidth 64 ∧
      m'.regs .rax = s.setWidth 64 ∧ m'.regs .rdi = d.setWidth 64 + m.regs .rsi ∧
      m'.regs .r8 = m.regs .rdi ∧ m'.regs .rsi = m.regs .rsi ∧ m'.stack = stack ∧
      m'.df = m.df ∧ m'.memory = m.memory ∧ m'.readable = m.readable ∧
        m'.writable = m.writable := by
  refine ⟨_, by
    simp only [fillSetup, execOps, Op.exec, hstack, bulkSlots, Machine.operand, ok_bind,
      Machine.get_w64, Machine.set_w64, Machine.setReg_stack, Machine.setStack_stack, Alu.eval]
    rfl, ?_, ?_, ?_, ?_, ?_, ?_, ?_, ?_, ?_, ?_⟩
  all_goals simp

def memoryFillCode : List (Lib.X86.Instr JitHandler) := assemble emitMemoryFill

theorem memoryFillCode_setup : HasOps memoryFillCode 0 fillSetup := HasOps.of_take rfl

/-- The byte that `rep stosb` stores. -/
theorem ofBitVec_slot (s : BitVec 32) :
    UInt8.ofBitVec ((s.setWidth 64).setWidth 8) = UInt8.ofNat s.toNat := by
  apply UInt8.toBitVec_inj.mp
  apply BitVec.eq_of_toNat_eq
  have hs := s.isLt
  rw [UInt8.toBitVec_ofNat', BitVec.toNat_setWidth, BitVec.toNat_setWidth, BitVec.toNat_ofNat]
  omega

/-- The code for `memory.fill` does what the interpreter does. -/
theorem memoryFillCode_agrees (hmem : MemoryDefined ctx) (h : MemoryAt m base ctx)
    (hstack : m.stack = bulkSlots d s n stack) {fuel : Nat} (hfuel : n.toNat < fuel) (pc : Nat)
    (os : List OperandStackElem) :
    ∃ final, Runs memoryFillCode (.run 0 m) final ∧
      MemoryAgrees m base ctx.memoryLength stack memoryFillCode final
        (visit memoryFill fuel ⟨pc, bulkOperands d s n os, ctx⟩) := by
  obtain ⟨m₁, hexec, hcx, hax, hdi, hr8, hsi, hst, hdf, hbytes, hread, hwrite⟩ :=
    fillSetup_exec hstack
  have hsetup : Runs memoryFillCode (.run 0 m) (.run 5 m₁) := Runs.ops memoryFillCode_setup hexec
  have hptr : (m₁.regs .rdi).toNat = base + d.toNat := by rw [hdi, h.pointer]
  have hvalid : m₁.readable (m₁.regs .rcx + m₁.regs .rdi + BitVec.ofInt 64 (-1)).toNat =
      decide (d.toNat + n.toNat ≤ ctx.memoryLength) := by
    rw [hread]
    exact h.validate d n hcx hptr
  by_cases hfits : d.toNat + n.toNat ≤ ctx.memoryLength
  · have hhigh := h.high
    have hlen := hmem.length_le
    obtain ⟨v, hcheck⟩ := movByte_ok .rdx (hvalid.trans (decide_eq_true hfits))
    obtain ⟨m₃, hstos, hfilled, hframe⟩ := stos_up (m := m₁.setReg .rdx v) (n := n.toNat)
      (hdf.trans h.df) (by simpa using hptr) (by omega)
      (fun a hlow hhigh => by
        rw [Machine.setReg_writable, hwrite]
        exact (h.access hfits a hlow hhigh).2)
    have hrep : Op.repStosb.exec (m₁.setReg .rdx v) = .ok m₃ := by
      rw [Op.exec, Machine.setReg_regs, if_neg (by decide), hcx, toNat_slot, hstos]
    have hrestore : (Op.mov .w64 .rdi (.reg .r8)).exec m₃ = .ok (m₃.setReg .rdi (m₃.regs .r8)) := by
      simp [Op.exec, Machine.operand]
    have hkeep : ∀ r, r ≠ .rdx → r ∉ stosCounters → m₃.regs r = m₁.regs r := by
      intro r hrdx hr
      rw [hframe.regs r hr, Machine.setReg_regs, if_neg hrdx]
    refine ⟨.run 8 (m₃.setReg .rdi (m₃.regs .r8)), ?_, ?_⟩
    · exact ((hsetup.trans (Runs.op rfl hcheck)).trans (Runs.op rfl hrep)).trans
        (Runs.op rfl hrestore)
    rw [visit_memoryFill n.toNat rfl hmem hfits hfuel]
    have hmoved : m₃.memory = fillBlock m.memory (base + d.toNat) n.toNat
      (UInt8.ofNat s.toNat) := by
      rw [hfilled, Machine.setReg_regs, if_neg (by decide), hax, ofBitVec_slot,
        Machine.setReg_memory, hbytes]
    refine ⟨_, rfl, ⟨?_, ?_, ?_, ?_⟩, ?_, ?_⟩
    · simp [hkeep .rsi (by decide) (by decide), hsi]
    · simp [hkeep .r8 (by decide) (by decide), hr8]
    · simpa using hframe.df.trans hdf
    · simpa using hframe.stack.trans hst
    · intro a ha
      rw [Machine.setReg_memory, hmoved]
      exact fillBlock_shift h.bytes ha
    · intro x hx
      rw [Machine.setReg_memory, hmoved]
      exact fillBlock_outside (by omega)
  · have hfault := movByte_fault .rdx (hvalid.trans (decide_eq_false hfits))
    obtain ⟨f, rfl⟩ : ∃ f, fuel = f + 1 := ⟨fuel - 1, by omega⟩
    refine ⟨_, hsetup.trans (Runs.op_fault rfl hfault), ?_⟩
    rw [visit, memoryFill_trap hmem hfits]
    exact ⟨m₁, rfl, hbytes⟩

end Fill

/-- `rsi` and `rdi` are in `r8` and `r9`. -/
structure Saved (m m' : Machine) (stack : List (BitVec 64)) : Prop where
  r8 : m'.regs .r8 = m.regs .rsi
  r9 : m'.regs .r9 = m.regs .rdi
  df : m'.df = m.df
  stack : m'.stack = stack
  readable : m'.readable = m.readable
  writable : m'.writable = m.writable

section Saved

variable {m m₁ m₂ : Machine} {stack : List (BitVec 64)}

theorem Saved.setReg (h : Saved m m₁ stack) {r : Reg} (hr8 : r ≠ .r8) (hr9 : r ≠ .r9)
    (v : BitVec 64) : Saved m (m₁.setReg r v) stack where
  r8 := by rw [Machine.setReg_regs, if_neg hr8.symm, h.r8]
  r9 := by rw [Machine.setReg_regs, if_neg hr9.symm, h.r9]
  df := h.df
  stack := h.stack
  readable := h.readable
  writable := h.writable

theorem Saved.setFlags (h : Saved m m₁ stack) (f : Flags) : Saved m (m₁.setFlags f) stack :=
  ⟨h.r8, h.r9, h.df, h.stack, h.readable, h.writable⟩

theorem Saved.string (h : Saved m m₁ stack) (hframe : StringFrame movsCounters m₁ m₂) :
    Saved m m₂ stack where
  r8 := (hframe.regs .r8 (by decide)).trans h.r8
  r9 := (hframe.regs .r9 (by decide)).trans h.r9
  df := hframe.df.trans h.df
  stack := hframe.stack.trans h.stack
  readable := hframe.readable.trans h.readable
  writable := hframe.writable.trans h.writable

/-- The end of the copying sequences. -/
def restoreOps : List Op := [.mov .w64 .rsi (.reg .r8), .mov .w64 .rdi (.reg .r9)]

theorem Saved.restore (h : Saved m m₁ stack) :
    ∃ m', execOps restoreOps m₁ = .ok m' ∧ Restored m m' stack ∧ m'.memory = m₁.memory := by
  refine ⟨_, by
    simp only [restoreOps, execOps, Op.exec, Machine.operand, ok_bind, Machine.get_w64,
      Machine.set_w64]
    rfl, ⟨?_, ?_, ?_, ?_⟩, ?_⟩
  · simp [h.r8]
  · simp [h.r9]
  · exact h.df
  · exact h.stack
  · rfl

/-- The pointers and the length of a move are in their registers. -/
structure MoveReady (m m' : Machine) (stack : List (BitVec 64)) (dst src size : Nat) : Prop
    extends Saved m m' stack where
  memory : m'.memory = m.memory
  rcx : (m'.regs .rcx).toNat = size
  rsi : (m'.regs .rsi).toNat = src
  rdi : (m'.regs .rdi).toNat = dst

/-- The blocks of a move can be read and written. -/
structure MoveAllowed (m : Machine) (dst src size : Nat) : Prop where
  df : m.df = false
  src_le : src + size ≤ 2 ^ 64
  dst_le : dst + size ≤ 2 ^ 64
  read : ∀ a, src ≤ a → a < src + size → m.readable a = true
  write : ∀ a, dst ≤ a → a < dst + size → m.writable a = true

variable {dst src size : Nat}

/-- A register that the move does not use may change. -/
theorem MoveReady.setReg (h : MoveReady m m₁ stack dst src size) {r : Reg}
    (hr : r = .rdx ∨ r = .rax) (v : BitVec 64) :
    MoveReady m (m₁.setReg r v) stack dst src size where
  toSaved := h.toSaved.setReg (by rintro rfl; simp at hr) (by rintro rfl; simp at hr) v
  memory := h.memory
  rcx := by rw [Machine.setReg_regs, if_neg (by rintro rfl; simp at hr), h.rcx]
  rsi := by rw [Machine.setReg_regs, if_neg (by rintro rfl; simp at hr), h.rsi]
  rdi := by rw [Machine.setReg_regs, if_neg (by rintro rfl; simp at hr), h.rdi]

theorem MoveReady.setFlags (h : MoveReady m m₁ stack dst src size) (f : Flags) :
    MoveReady m (m₁.setFlags f) stack dst src size :=
  ⟨h.toSaved.setFlags f, h.memory, h.rcx, h.rsi, h.rdi⟩

theorem MoveReady.forward (h : MoveReady m m₁ stack dst src size)
    (hallowed : MoveAllowed m dst src size) (hapart : dst ≤ src ∨ src + size ≤ dst) :
    ∃ m₂, Op.repMovsb.exec m₁ = .ok m₂ ∧ Saved m m₂ stack ∧
      m₂.memory = moveBlock m.memory dst src size := by
  obtain ⟨m₂, hmoved, hmem, hframe⟩ := movs_up (h.df.trans hallowed.df) h.rsi h.rdi hallowed.src_le
    hallowed.dst_le hapart (h.readable ▸ hallowed.read) (h.writable ▸ hallowed.write)
  refine ⟨m₂, ?_, h.toSaved.string hframe, hmem.trans (by rw [h.memory])⟩
  rw [Op.exec, h.rcx, hmoved]

theorem MoveReady.reverse (h : MoveReady m m₁ stack dst src size)
    (hallowed : MoveAllowed m dst src size) (hle : src ≤ dst) :
    ∃ m₂, execOps reverseMove m₁ = .ok m₂ ∧ Saved m m₂ stack ∧
      m₂.memory = moveBlock m.memory dst src size := by
  obtain ⟨m₂, hmoved, hmem, hframe⟩ := reverseMove_exec (h.df.trans hallowed.df) h.rsi h.rdi h.rcx
    hallowed.src_le hallowed.dst_le hle (h.readable ▸ hallowed.read) (h.writable ▸ hallowed.write)
  exact ⟨m₂, hmoved, h.toSaved.string hframe, hmem.trans (by rw [h.memory])⟩

/-- The second comparison finds whether the blocks overlap. -/
theorem MoveReady.overlap (h : MoveReady m m₁ stack dst src size)
    (hax : m₁.regs .rax = m₁.regs .rdi - m₁.regs .rsi) (hle : src ≤ dst) :
    ∃ f, (Op.cmp .w64 .rax (.reg .rcx)).exec m₁ = .ok (m₁.setFlags f) ∧
      Cond.ae.holds f = decide (src + size ≤ dst) := by
  refine ⟨subFlags (m₁.regs .rax) (m₁.regs .rcx), ?_, ?_⟩
  · simp [Op.exec, Machine.operand]
  · have hdistance : (m₁.regs .rax).toNat = dst - src := by
      rw [hax, BitVec.toNat_sub_of_le (by rw [BitVec.le_def, h.rsi, h.rdi]; exact hle), h.rsi,
        h.rdi]
    rw [Cond.holds_subFlags (by decide), Cond.compare, BitVec.ule_eq_decide, h.rcx, hdistance,
      decide_eq_decide]
    omega

end Saved

section Copy

variable {m : Machine} {base : Nat} {ctx : ExecutionContextBase} {d s n : BitVec 32}
  {stack : List (BitVec 64)}

/-- The code before the first branch. -/
def copySetup : List Op :=
  [.pop .rcx, .mov .w64 .r8 (.reg .rsi), .mov .w64 .r9 (.reg .rdi), .pop .rsi, .pop .rdi,
    .alu .add .w64 .rsi (.reg .r8), .alu .add .w64 .rdi (.reg .r8), .mov .w64 .rax (.reg .rdi),
    .alu .sub .w64 .rax (.reg .rsi)]

theorem copySetup_exec (hstack : m.stack = bulkSlots d s n stack) :
    ∃ m', execOps copySetup m = .ok m' ∧ Saved m m' stack ∧ m'.memory = m.memory ∧
      m'.regs .rcx = n.setWidth 64 ∧ m'.regs .rsi = s.setWidth 64 + m.regs .rsi ∧
      m'.regs .rdi = d.setWidth 64 + m.regs .rsi ∧
      m'.regs .rax = m'.regs .rdi - m'.regs .rsi ∧
      m'.flags = subFlags (m'.regs .rdi) (m'.regs .rsi) := by
  refine ⟨_, by
    simp only [copySetup, execOps, Op.exec, hstack, bulkSlots, Machine.operand, ok_bind,
      Machine.get_w64, Machine.set_w64, Machine.setReg_stack, Machine.setStack_stack, Alu.eval]
    rfl, ⟨?_, ?_, ?_, ?_, ?_, ?_⟩, ?_, ?_, ?_, ?_, ?_, ?_⟩
  all_goals simp

def memoryCopyCode : List (Lib.X86.Instr JitHandler) := assemble emitMemoryCopy

theorem memoryCopyCode_setup : HasOps memoryCopyCode 0 copySetup := HasOps.of_take rfl

theorem memoryCopyCode_reverse : HasOps memoryCopyCode 13 reverseMove := HasOps.of_take rfl

theorem memoryCopyCode_restore : HasOps memoryCopyCode 21 restoreOps := HasOps.of_take rfl

/-- The last two instructions after the move. -/
theorem memoryCopyCode_finish {m₃ : Machine} (hsaved : Saved m m₃ stack)
    (hmoved : m₃.memory = moveBlock m.memory (base + d.toNat) (base + s.toNat) n.toNat)
    (h : MemoryAt m base ctx) (hmem : MemoryDefined ctx) (hfits : MoveFits ctx.memoryLength d s n)
    {fuel : Nat} (hfuel : n.toNat < fuel) (pc : Nat) (os : List OperandStackElem)
    (hrun : Runs memoryCopyCode (.run 0 m) (.run 21 m₃)) :
    ∃ final, Runs memoryCopyCode (.run 0 m) final ∧
      MemoryAgrees m base ctx.memoryLength stack memoryCopyCode final
        (visit memoryCopy fuel ⟨pc, bulkOperands d s n os, ctx⟩) := by
  obtain ⟨m₄, hexec, hrestored, hsame⟩ := hsaved.restore
  refine ⟨.run 23 m₄, hrun.trans (Runs.ops memoryCopyCode_restore hexec), ?_⟩
  rw [visit_memoryCopy n.toNat rfl hmem hfits hfuel]
  refine ⟨m₄, rfl, hrestored, ?_, ?_⟩
  · intro a ha
    rw [hsame, hmoved]
    exact moveBlock_shift h.bytes hfits.1 ha
  · intro x hx
    have hdst := hfits.2
    rw [hsame, hmoved]
    exact moveBlock_outside (by omega)

/-- The code for `memory.copy` does what the interpreter does. -/
theorem memoryCopyCode_agrees (hmem : MemoryDefined ctx) (h : MemoryAt m base ctx)
    (hstack : m.stack = bulkSlots d s n stack) {fuel : Nat} (hfuel : n.toNat < fuel) (pc : Nat)
    (os : List OperandStackElem) :
    ∃ final, Runs memoryCopyCode (.run 0 m) final ∧
      MemoryAgrees m base ctx.memoryLength stack memoryCopyCode final
        (visit memoryCopy fuel ⟨pc, bulkOperands d s n os, ctx⟩) := by
  obtain ⟨m₁, hexec, hsaved, hbytes, hcx, hsi, hdi, hax, hflags⟩ := copySetup_exec hstack
  have hsetup : Runs memoryCopyCode (.run 0 m) (.run 9 m₁) := Runs.ops memoryCopyCode_setup hexec
  have hready : MoveReady m m₁ stack (base + d.toNat) (base + s.toNat) n.toNat :=
    ⟨hsaved, hbytes, by rw [hcx, toNat_slot], by rw [hsi, h.pointer], by rw [hdi, h.pointer]⟩
  have hallowed : MoveFits ctx.memoryLength d s n →
      MoveAllowed m (base + d.toNat) (base + s.toNat) n.toNat := by
    rintro ⟨hsrc, hdst⟩
    have hhigh := h.high
    have hlen := hmem.length_le
    exact ⟨h.df, by omega, by omega, fun a ha ha' => (h.access hsrc a ha ha').1,
      fun a ha ha' => (h.access hdst a ha ha').2⟩
  have htrap : ¬ MoveFits ctx.memoryLength d s n → ∀ m', m'.memory = m.memory →
      MemoryAgrees m base ctx.memoryLength stack memoryCopyCode (.fault .page m')
        (visit memoryCopy fuel ⟨pc, bulkOperands d s n os, ctx⟩) := by
    intro hout m' hsame
    obtain ⟨f, rfl⟩ : ∃ f, fuel = f + 1 := ⟨fuel - 1, by omega⟩
    rw [visit, memoryCopy_trap hmem hout]
    exact ⟨m', rfl, hsame⟩
  have hcond : Cond.be.holds m₁.flags = decide (d.toNat ≤ s.toNat) := by
    rw [hflags, Cond.holds_subFlags (by decide), Cond.compare, BitVec.ule_eq_decide, hready.rsi,
      hready.rdi, decide_eq_decide]
    omega
  by_cases hle : d.toNat ≤ s.toNat
  · have hjump := hsetup.trans (Runs.taken rfl (hcond.trans (decide_eq_true hle)))
    have hvalid := h.validate (m := m) s n hcx hready.rsi
    rw [← hready.readable] at hvalid
    by_cases hsrc : s.toNat + n.toNat ≤ ctx.memoryLength
    · have hfits : MoveFits ctx.memoryLength d s n := ⟨hsrc, by omega⟩
      obtain ⟨v, hcheck⟩ := movByte_ok .rdx (hvalid.trans (decide_eq_true hsrc))
      obtain ⟨m₃, hrep, hsaved₃, hmoved⟩ :=
        (hready.setReg (Or.inl rfl) v).forward (hallowed hfits) (by omega)
      exact memoryCopyCode_finish hsaved₃ hmoved h hmem hfits hfuel pc os
        ((hjump.trans (Runs.op rfl hcheck)).trans (Runs.op rfl hrep))
    · have hfault := movByte_fault .rdx (hvalid.trans (decide_eq_false hsrc))
      exact ⟨_, hjump.trans (Runs.op_fault rfl hfault), htrap (fun hfits => hsrc hfits.1) _ hbytes⟩
  · have hstay := hsetup.trans (Runs.not_taken rfl (hcond.trans (decide_eq_false hle)))
    have hvalid := h.validate (m := m) d n hcx hready.rdi
    rw [← hready.readable] at hvalid
    by_cases hdst : d.toNat + n.toNat ≤ ctx.memoryLength
    · have hfits : MoveFits ctx.memoryLength d s n := ⟨by omega, hdst⟩
      obtain ⟨v, hcheck⟩ := movByte_ok .rdx (hvalid.trans (decide_eq_true hdst))
      have hready₂ := hready.setReg (Or.inl rfl) v
      obtain ⟨f, hcmp, hae⟩ := hready₂.overlap (by simpa using hax) (by omega)
      have hcompared := (hstay.trans (Runs.op rfl hcheck)).trans (Runs.op rfl hcmp)
      by_cases hapart : base + s.toNat + n.toNat ≤ base + d.toNat
      · obtain ⟨m₃, hrep, hsaved₃, hmoved⟩ :=
          (hready₂.setFlags f).forward (hallowed hfits) (Or.inr hapart)
        have hjump := hcompared.trans (Runs.taken rfl (hae.trans (decide_eq_true hapart)))
        exact memoryCopyCode_finish hsaved₃ hmoved h hmem hfits hfuel pc os
          (hjump.trans (Runs.op rfl hrep))
      · obtain ⟨m₃, hrep, hsaved₃, hmoved⟩ :=
          (hready₂.setFlags f).reverse (hallowed hfits) (by omega)
        have hfall := hcompared.trans (Runs.not_taken rfl (hae.trans (decide_eq_false hapart)))
        exact memoryCopyCode_finish hsaved₃ hmoved h hmem hfits hfuel pc os
          ((hfall.trans (Runs.ops memoryCopyCode_reverse hrep)).trans (Runs.of_step rfl))
    · have hfault := movByte_fault .rdx (hvalid.trans (decide_eq_false hdst))
      exact ⟨_, hstay.trans (Runs.op_fault rfl hfault), htrap (fun hfits => hdst hfits.2) _ hbytes⟩

end Copy

/-- A machine in which a table starts at `start`: below the memory itself, or where the pointer
there says. `enc` are the bytes of an entry. -/
structure TableAt (m : Machine) (base start initial : Nat) (enc : TableEntry → Nat → UInt8)
    (entries : List TableEntry) : Prop where
  rsi : (m.regs .rsi).toNat = base
  low : 2 * tablePage ≤ base
  df : m.df = false
  place : if indirectTable initial then
      m.readableBlock (base - 2 * tablePage) 8 = true ∧
        (m.loadBytes (base - 2 * tablePage) 8).toNat = start
    else start = base - 2 * tablePage
  high : start + 16 * initial < 2 ^ 64
  access : ∀ a, start ≤ a → a < start + 16 * initial → m.readable a = true ∧ m.writable a = true
  length : entries.length = initial
  bytes : ∀ i entry, entries[i]? = some entry → ∀ j < 16,
    m.memory (start + 16 * i + j) = enc entry j

/-- Where the code ends, against what the interpreter does: both trap and nothing has been written,
or both go on and the tables are the same. -/
def TableAgrees (m : Machine) (start initial : Nat) (enc : TableEntry → Nat → UInt8)
    (stack : List (BitVec 64)) (code : List (Lib.X86.Instr JitHandler))
    (final : Config JitHandler) :
    Except (VmError × InterpretState) InterpretState → Prop
  | .error _ => ∃ m', final = .exit .memory m' ∧ m'.memory = m.memory
  | .ok st => ∃ m', final = .run code.length m' ∧ Restored m m' stack ∧
      (∀ i entry, st.ctx.table[i]? = some entry →
        ∀ j < 16, m'.memory (start + 16 * i + j) = enc entry j) ∧
      ∀ x, x < start ∨ start + 16 * initial ≤ x → m'.memory x = m.memory x

/-- The bytes of an entry that may be absent. -/
def entryBytes (enc : TableEntry → Nat → UInt8) (entry : Option TableEntry) (j : Nat) : UInt8 :=
  entry.elim 0 fun e => enc e j

section Table

variable {m : Machine} {base start : Nat} {enc : TableEntry → Nat → UInt8} {d s n : BitVec 32}
  {stack : List (BitVec 64)} {initial : BitVec 32}

/-- The code before the bounds are checked. -/
def tableSetup (initial : BitVec 32) : List Op :=
  [.pop .rcx, .mov .w64 .r8 (.reg .rsi), .mov .w64 .r9 (.reg .rdi), .pop .rsi, .pop .rdi,
    .mov .w32 .rax (.imm initial), .alu .sub .w64 .rax (.reg .rcx), .cmp .w64 .rsi (.reg .rax)]

/-- The code that makes pointers of the indices. -/
def tablePointers (initial : BitVec 32) : List Op :=
  [tablePlace initial, .shiftImm .shl .w64 .rsi 4, .shiftImm .shl .w64 .rdi 4,
    .shiftImm .shl .w64 .rcx 4, .alu .add .w64 .rsi (.reg .rax), .alu .add .w64 .rdi (.reg .rax),
    .mov .w64 .rax (.reg .rdi), .alu .sub .w64 .rax (.reg .rsi)]

def tableCopyCode (initial : BitVec 32) : List (Lib.X86.Instr JitHandler) :=
  assemble (emitTableCopy initial)

/-- The code, with its straight-line parts by name. -/
theorem tableCopyCode_eq (initial : BitVec 32) : tableCopyCode initial =
    List.flatten [
      (tableSetup initial).map Lib.X86.Instr.op,
      [Lib.X86.Instr.jcc .g (.handler .memory), .op (.cmp .w64 .rdi (.reg .rax)),
        .jcc .g (.handler .memory)],
      (tablePointers initial).map Lib.X86.Instr.op,
      [Lib.X86.Instr.jcc .be (.code 28), .op (.cmp .w64 .rax (.reg .rcx)), .jcc .ae (.code 28)],
      reverseMove.map Lib.X86.Instr.op,
      [Lib.X86.Instr.jmp (.code 29), .op .repMovsb],
      restoreOps.map Lib.X86.Instr.op] := by
  simp only [tableCopyCode, assemble, emitTableCopy, run_bind, run_emit, run_emitBranch,
    run_emitJmp, run_fixBranch, run_fixHere, List.length_cons, List.length_nil, List.nil_append,
    List.cons_append, List.modify_succ_cons, List.modify_zero_cons, Lib.X86.Instr.setTarget,
    Nat.zero_add, Nat.reduceAdd, tableSetup, tablePointers, reverseMove, restoreOps, List.map_cons,
    List.map_nil, List.flatten_cons, List.flatten_nil]

theorem tableSetup_exec (hstack : m.stack = bulkSlots d s n stack) (initial : BitVec 32) :
    ∃ m', execOps (tableSetup initial) m = .ok m' ∧ Saved m m' stack ∧ m'.memory = m.memory ∧
      m'.regs .rcx = n.setWidth 64 ∧ m'.regs .rsi = s.setWidth 64 ∧ m'.regs .rdi = d.setWidth 64 ∧
      m'.regs .rax = initial.setWidth 64 - n.setWidth 64 ∧
      m'.flags = subFlags (m'.regs .rsi) (m'.regs .rax) := by
  refine ⟨_, by
    simp only [tableSetup, execOps, Op.exec, hstack, bulkSlots, Machine.operand, ok_bind,
      Machine.get_w64, Machine.set, Width.bits, BitVec.signExtend_eq,
      Machine.setReg_stack, Machine.setStack_stack, Alu.eval, Machine.setReg_regs,
      Machine.setStack_regs, Machine.setFlags_regs, reduceCtorEq, if_true, if_false]
    rfl, ⟨?_, ?_, ?_, ?_, ?_, ?_⟩, ?_, ?_, ?_, ?_, ?_, ?_⟩
  all_goals simp

theorem tableCopyCode_setup : HasOps (tableCopyCode initial) 0 (tableSetup initial) :=
  HasOps.of_take (by rw [tableCopyCode_eq]; rfl)

theorem tableCopyCode_pointers : HasOps (tableCopyCode initial) 11 (tablePointers initial) :=
  HasOps.of_take (by rw [tableCopyCode_eq]; rfl)

theorem tableCopyCode_reverse : HasOps (tableCopyCode initial) 22 reverseMove :=
  HasOps.of_take (by rw [tableCopyCode_eq]; rfl)

theorem tableCopyCode_restore : HasOps (tableCopyCode initial) 29 restoreOps :=
  HasOps.of_take (by rw [tableCopyCode_eq]; rfl)

theorem tableCopyCode_checkSource (initial : BitVec 32) :
    (tableCopyCode initial)[8]? = some (.jcc .g (.handler .memory)) := by rw [tableCopyCode_eq]; rfl

theorem tableCopyCode_compare (initial : BitVec 32) :
    (tableCopyCode initial)[9]? = some (.op (.cmp .w64 .rdi (.reg .rax))) := by
  rw [tableCopyCode_eq]
  rfl

theorem tableCopyCode_checkDestination (initial : BitVec 32) :
    (tableCopyCode initial)[10]? = some (.jcc .g (.handler .memory)) := by
    rw [tableCopyCode_eq]; rfl

theorem tableCopyCode_below (initial : BitVec 32) :
    (tableCopyCode initial)[19]? = some (.jcc .be (.code 28)) := by
  rw [tableCopyCode_eq]
  rfl

theorem tableCopyCode_distance (initial : BitVec 32) :
    (tableCopyCode initial)[20]? = some (.op (.cmp .w64 .rax (.reg .rcx))) := by
  rw [tableCopyCode_eq]
  rfl

theorem tableCopyCode_apart (initial : BitVec 32) :
    (tableCopyCode initial)[21]? = some (.jcc .ae (.code 28)) := by
  rw [tableCopyCode_eq]
  rfl

theorem tableCopyCode_done (initial : BitVec 32) :
    (tableCopyCode initial)[27]? = some (.jmp (.code 29)) := by
  rw [tableCopyCode_eq]
  rfl

theorem tableCopyCode_forward (initial : BitVec 32) :
    (tableCopyCode initial)[28]? = some (.op .repMovsb) := by
  rw [tableCopyCode_eq]
  rfl

/-- The instruction finds the table, whichever one it is. -/
theorem TableAt.tablePlace_exec {entries : List TableEntry}
    (h : TableAt m base start initial.toNat enc entries) {m₁ : Machine} (hsaved : Saved m m₁ stack)
    (hbytes : m₁.memory = m.memory) :
    ∃ v, (tablePlace initial).exec m₁ = .ok (m₁.setReg .rax v) ∧ v.toNat = start := by
  have hlow := h.low
  have hplace := h.place
  have haddr : (m₁.regs .r8 + BitVec.ofInt 64 tableOffset).toNat = base - 2 * tablePage := by
    have hoff : (BitVec.ofInt 64 tableOffset).toNat = 2 ^ 64 - 2 * tablePage := by decide
    have hbase := (m.regs .rsi).isLt
    rw [BitVec.toNat_add, hsaved.r8, h.rsi, hoff]
    rw [h.rsi] at hbase
    omega
  unfold tablePlace
  by_cases hind : indirectTable initial.toNat = true
  · rw [if_pos hind] at hplace
    rw [if_pos hind]
    refine ⟨m.loadBytes (base - 2 * tablePage) 8, ?_, hplace.2⟩
    have hread : m₁.readableBlock (base - 2 * tablePage) 8 = true := by
      simpa only [Machine.readableBlock, hsaved.readable] using hplace.1
    have hload : m₁.loadBytes (base - 2 * tablePage) 8 = m.loadBytes (base - 2 * tablePage) 8 :=
      Machine.loadBytes_congr (fun a => by rw [hbytes]) _ _
    simp only [Op.exec, Machine.operand, Machine.address, haddr, Machine.load, hread, if_true,
      ok_bind, hload]
    exact congrArg Except.ok (Machine.set_w64 ..)
  · rw [if_neg hind] at hplace
    rw [if_neg hind]
    refine ⟨m₁.regs .r8 + BitVec.ofInt 64 tableOffset, ?_, haddr.trans hplace.symm⟩
    simp only [Op.exec, Option.map_none, Option.getD_none]
    rw [show (0 : BitVec 64) = 0#64 from rfl, BitVec.add_zero]

/-- The bounds check compares with a limit that may be negative. -/
theorem bounds_holds (p n initial : BitVec 32) :
    Cond.g.holds (subFlags (p.setWidth 64) (initial.setWidth 64 - n.setWidth 64)) =
      decide (¬ p.toNat + n.toNat ≤ initial.toNat) := by
  have hp := p.isLt
  have hn := n.isLt
  have hi := initial.isLt
  rw [Cond.holds_subFlags (by decide), Cond.compare, BitVec.slt_eq_decide, decide_eq_decide]
  have hleft : (p.setWidth 64).toInt = p.toNat := by
    rw [BitVec.toInt_eq_toNat_of_lt (by rw [toNat_slot]; omega), toNat_slot]
  have hlimit : (initial.setWidth 64 - n.setWidth 64).toInt = (initial.toNat : Int) - n.toNat := by
    rw [BitVec.toInt_sub, BitVec.toInt_eq_toNat_of_lt (by rw [toNat_slot]; omega),
      BitVec.toInt_eq_toNat_of_lt (by rw [toNat_slot]; omega), toNat_slot, toNat_slot,
      Int.bmod_eq_of_le (by omega) (by omega)]
  rw [hleft, hlimit]
  omega

theorem toNat_scaled (p : BitVec 32) : ((p.setWidth 64) <<< 4).toNat = 16 * p.toNat := by
  have hp := p.isLt
  rw [BitVec.toNat_shiftLeft, toNat_slot, Nat.shiftLeft_eq]
  omega

theorem toNat_pointer {p : BitVec 32} {v : BitVec 64} (h : v.toNat + 16 * p.toNat < 2 ^ 64) :
    ((p.setWidth 64) <<< 4 + v).toNat = v.toNat + 16 * p.toNat := by
  rw [BitVec.toNat_add, toNat_scaled, Nat.mod_eq_of_lt (by omega), Nat.add_comm]

theorem tablePointers_exec {m₁ : Machine} {v : BitVec 64} (hsaved : Saved m m₁ stack)
    (hbytes : m₁.memory = m.memory) (hcx : m₁.regs .rcx = n.setWidth 64)
    (hsi : m₁.regs .rsi = s.setWidth 64) (hdi : m₁.regs .rdi = d.setWidth 64)
    (hplace : (tablePlace initial).exec m₁ = .ok (m₁.setReg .rax v))
    (hsrc : v.toNat + 16 * s.toNat < 2 ^ 64) (hdst : v.toNat + 16 * d.toNat < 2 ^ 64) :
    ∃ m', execOps (tablePointers initial) m₁ = .ok m' ∧
      MoveReady m m' stack (v.toNat + 16 * d.toNat) (v.toNat + 16 * s.toNat) (16 * n.toNat) ∧
      m'.regs .rax = m'.regs .rdi - m'.regs .rsi ∧
      m'.flags = subFlags (m'.regs .rdi) (m'.regs .rsi) := by
  have hfour : Width.count .w64 4 = 4 := rfl
  refine ⟨_, by
    rw [tablePointers, execOps, hplace, ok_bind]
    simp only [execOps, Op.exec, Machine.operand, ok_bind, Machine.get_w64, Machine.set_w64,
      Alu.eval, Machine.setReg_regs, Machine.setFlags_regs, reduceCtorEq, if_true, if_false,
      Shift.eval, hfour, hcx, hsi, hdi]
    rfl, ⟨⟨?_, ?_, ?_, ?_, ?_, ?_⟩, ?_, ?_, ?_, ?_⟩, ?_, ?_⟩
  · simpa using hsaved.r8
  · simpa using hsaved.r9
  · simpa using hsaved.df
  · simpa using hsaved.stack
  · simpa using hsaved.readable
  · simpa using hsaved.writable
  · simpa using hbytes
  · rw [← toNat_scaled]
    simp
  · rw [← toNat_pointer hsrc]
    simp
  · rw [← toNat_pointer hdst]
    simp
  · simp
  · simp

/-- The move in the direction that the addresses ask for. -/
theorem tableCopyCode_move {m₁ : Machine} {dst src size : Nat}
    (hready : MoveReady m m₁ stack dst src size) (hallowed : MoveAllowed m dst src size)
    (hax : m₁.regs .rax = m₁.regs .rdi - m₁.regs .rsi)
    (hflags : m₁.flags = subFlags (m₁.regs .rdi) (m₁.regs .rsi)) :
    ∃ m₂, Runs (tableCopyCode initial) (.run 19 m₁) (.run 29 m₂) ∧ Saved m m₂ stack ∧
      m₂.memory = moveBlock m.memory dst src size := by
  have hbe : Cond.be.holds m₁.flags = decide (dst ≤ src) := by
    rw [hflags, Cond.holds_subFlags (by decide), Cond.compare, BitVec.ule_eq_decide, hready.rsi,
      hready.rdi]
  by_cases hle : dst ≤ src
  · obtain ⟨m₂, hrep, hsaved, hmoved⟩ := hready.forward hallowed (Or.inl hle)
    have hjump := Runs.taken (tableCopyCode_below initial)
      (hbe.trans (decide_eq_true hle))
    exact ⟨m₂, hjump.trans (Runs.op (tableCopyCode_forward initial) hrep), hsaved, hmoved⟩
  · obtain ⟨f, hcmp, hae⟩ := hready.overlap hax (by omega)
    have hcompared := (Runs.not_taken (tableCopyCode_below initial)
      (hbe.trans (decide_eq_false hle))).trans (Runs.op (tableCopyCode_distance initial) hcmp)
    by_cases hapart : src + size ≤ dst
    · obtain ⟨m₂, hrep, hsaved, hmoved⟩ := (hready.setFlags f).forward hallowed (Or.inr hapart)
      have hjump := hcompared.trans
        (Runs.taken (tableCopyCode_apart initial) (hae.trans (decide_eq_true hapart)))
      exact ⟨m₂, hjump.trans (Runs.op (tableCopyCode_forward initial) hrep), hsaved, hmoved⟩
    · obtain ⟨m₂, hrep, hsaved, hmoved⟩ := (hready.setFlags f).reverse hallowed (by omega)
      have hfall := hcompared.trans
        (Runs.not_taken (tableCopyCode_apart initial) (hae.trans (decide_eq_false hapart)))
      exact ⟨m₂, (hfall.trans (Runs.ops tableCopyCode_reverse hrep)).trans
        (Runs.jmp (tableCopyCode_done initial)), hsaved, hmoved⟩

section Agrees

variable {mod : Module} {table : TableType} {ctx : ExecutionContextBase}

/-- The last two instructions after the move. -/
theorem tableCopyCode_finish {m₃ : Machine} (hsaved : Saved m m₃ stack)
    (hmoved : m₃.memory =
      moveBlock m.memory (start + 16 * d.toNat) (start + 16 * s.toNat) (16 * n.toNat))
    (htable : mod.tables[0]? = some table) (hinitial : table.limits.initial = initial.toNat)
    (h : TableAt m base start initial.toNat enc ctx.table)
    (hfits : MoveFits table.limits.initial d s n) {fuel : Nat} (hfuel : n.toNat < fuel) (pc : Nat)
    (os : List OperandStackElem)
    (hrun : Runs (tableCopyCode initial) (.run 0 m) (.run 29 m₃)) :
    ∃ final, Runs (tableCopyCode initial) (.run 0 m) final ∧
      TableAgrees m start initial.toNat enc stack (tableCopyCode initial) final
        (visit (tableCopy mod) fuel ⟨pc, bulkOperands d s n os, ctx⟩) := by
  obtain ⟨m₄, hexec, hrestored, hsame⟩ := hsaved.restore
  refine ⟨.run 31 m₄, hrun.trans (Runs.ops tableCopyCode_restore hexec), ?_⟩
  obtain ⟨entries, hvisit, hlen, hentries⟩ := visit_tableCopy pc os n.toNat rfl htable
    (h.length.trans hinitial.symm) (hinitial ▸ initial.isLt) hfits hfuel
  rw [hvisit]
  refine ⟨m₄, by rw [tableCopyCode_eq]; rfl, hrestored, ?_, ?_⟩
  · intro i entry hentry j hj
    have hi : i < initial.toNat := by
      rw [← h.length, ← hlen]
      exact (List.getElem?_eq_some_iff.mp hentry).1
    have hcell : ∀ a < initial.toNat, ∀ j < 16, m.memory (start + 16 * a + j) =
        entryBytes enc ctx.table[a]? j := by
      intro a ha j hj
      have hentry := List.getElem?_eq_getElem (h.length.symm ▸ ha)
      rw [h.bytes a _ hentry j hj, hentry]
      rfl
    rw [hsame, hmoved, moveBlock_cells hcell (hinitial ▸ hfits.1) hi hj,
      moveBlock_comp (entryBytes enc) fun a => ctx.table[a]?, ← congrFun hentries i]
    change entryBytes enc entries[i]? j = enc entry j
    rw [hentry]
    rfl
  · intro x hx
    have hdst := hfits.2
    rw [hsame, hmoved]
    exact moveBlock_outside (by omega)

/-- The code for `table.copy` does what the interpreter does. -/
theorem tableCopyCode_agrees (htable : mod.tables[0]? = some table)
    (hinitial : table.limits.initial = initial.toNat)
    (h : TableAt m base start initial.toNat enc ctx.table)
    (hstack : m.stack = bulkSlots d s n stack) {fuel : Nat} (hfuel : n.toNat < fuel) (pc : Nat)
    (os : List OperandStackElem) :
    ∃ final, Runs (tableCopyCode initial) (.run 0 m) final ∧
      TableAgrees m start initial.toNat enc stack (tableCopyCode initial) final
        (visit (tableCopy mod) fuel ⟨pc, bulkOperands d s n os, ctx⟩) := by
  obtain ⟨m₁, hexec, hsaved, hbytes, hcx, hsi, hdi, hax, hflags⟩ := tableSetup_exec hstack initial
  have hsetup : Runs (tableCopyCode initial) (.run 0 m) (.run 8 m₁) :=
    Runs.ops tableCopyCode_setup hexec
  have htrap : ¬ MoveFits table.limits.initial d s n → ∀ m', m'.memory = m.memory →
      TableAgrees m start initial.toNat enc stack (tableCopyCode initial) (.exit .memory m')
        (visit (tableCopy mod) fuel ⟨pc, bulkOperands d s n os, ctx⟩) := by
    intro hout m' hsame
    obtain ⟨f, rfl⟩ : ∃ f, fuel = f + 1 := ⟨fuel - 1, by omega⟩
    rw [visit, tableCopy_trap htable hout]
    exact ⟨m', rfl, hsame⟩
  have hgsrc : Cond.g.holds m₁.flags = decide (¬ s.toNat + n.toNat ≤ initial.toNat) := by
    rw [hflags, hsi, hax, bounds_holds]
  by_cases hsrc : s.toNat + n.toNat ≤ initial.toNat
  · have hstay := hsetup.trans (Runs.not_taken (tableCopyCode_checkSource initial)
      (hgsrc.trans (decide_eq_false (not_not_intro hsrc))))
    let m₂ := m₁.setFlags (subFlags (m₁.regs .rdi) (m₁.regs .rax))
    have hcmp : (Op.cmp .w64 .rdi (.reg .rax)).exec m₁ = .ok m₂ := by
      simp [Op.exec, Machine.operand, m₂]
    have hbound := hstay.trans (Runs.op (tableCopyCode_compare initial) hcmp)
    have hgdst : Cond.g.holds m₂.flags = decide (¬ d.toNat + n.toNat ≤ initial.toNat) := by
      change Cond.g.holds (subFlags (m₁.regs .rdi) (m₁.regs .rax)) = _
      rw [hdi, hax, bounds_holds]
    by_cases hdst : d.toNat + n.toNat ≤ initial.toNat
    · have hfits : MoveFits table.limits.initial d s n := hinitial ▸ ⟨hsrc, hdst⟩
      have hhigh := h.high
      have hpass := hbound.trans (Runs.not_taken (tableCopyCode_checkDestination initial)
        (hgdst.trans (decide_eq_false (not_not_intro hdst))))
      have hsaved₂ : Saved m m₂ stack := hsaved.setFlags _
      obtain ⟨v, hplace, hv⟩ := h.tablePlace_exec hsaved₂ hbytes
      obtain ⟨m₃, hpointers, hready, hax₃, hflags₃⟩ := tablePointers_exec hsaved₂ hbytes hcx hsi hdi
        hplace (by omega) (by omega)
      rw [hv] at hready
      have hmove := hpass.trans (Runs.ops tableCopyCode_pointers hpointers)
      have hallowed : MoveAllowed m (start + 16 * d.toNat) (start + 16 * s.toNat) (16 * n.toNat) :=
        ⟨h.df, by omega, by omega, fun a ha ha' => (h.access a (by omega) (by omega)).1,
          fun a ha ha' => (h.access a (by omega) (by omega)).2⟩
      obtain ⟨m₄, hrun, hsaved₄, hmoved⟩ := tableCopyCode_move hready hallowed hax₃ hflags₃
      exact tableCopyCode_finish hsaved₄ hmoved htable hinitial h hfits hfuel pc os
        (hmove.trans hrun)
    · exact ⟨_, hbound.trans (Runs.taken (tableCopyCode_checkDestination initial)
        (hgdst.trans (decide_eq_true hdst))),
          htrap (fun hfits => hdst (hinitial ▸ hfits.2)) _ hbytes⟩
  · exact ⟨_, hsetup.trans (Runs.taken (tableCopyCode_checkSource initial)
      (hgsrc.trans (decide_eq_true hsrc))), htrap (fun hfits => hsrc (hinitial ▸ hfits.1)) _ hbytes⟩

end Agrees

end Table

/-- The code for the copying and filling instructions, for all operands, every memory and every
table: it traps exactly when the interpreter does, with nothing written, and leaves the same memory
or table otherwise, with the context, the memory and the direction flag where they were. -/
theorem jit_bulk_operations_agree (m : Machine) (stack : List (BitVec 64)) (d s n : BitVec 32)
    (hstack : m.stack = bulkSlots d s n stack) (fuel : Nat) (hfuel : n.toNat < fuel) (pc : Nat)
    (os : List OperandStackElem) :
    (∀ (ctx : ExecutionContextBase) (base : Nat), MemoryDefined ctx → MemoryAt m base ctx →
      (∃ final, Runs memoryCopyCode (.run 0 m) final ∧
        MemoryAgrees m base ctx.memoryLength stack memoryCopyCode final
          (visit memoryCopy fuel ⟨pc, bulkOperands d s n os, ctx⟩)) ∧
      ∃ final, Runs memoryFillCode (.run 0 m) final ∧
        MemoryAgrees m base ctx.memoryLength stack memoryFillCode final
          (visit memoryFill fuel ⟨pc, bulkOperands d s n os, ctx⟩)) ∧
    ∀ (mod : Module) (table : TableType) (ctx : ExecutionContextBase) (base start : Nat)
      (enc : TableEntry → Nat → UInt8), mod.tables[0]? = some table →
      table.limits.initial < 2 ^ 32 → TableAt m base start table.limits.initial enc ctx.table →
      ∃ final, Runs (tableCopyCode (BitVec.ofNat 32 table.limits.initial)) (.run 0 m) final ∧
        TableAgrees m start table.limits.initial enc stack
          (tableCopyCode (BitVec.ofNat 32 table.limits.initial)) final
          (visit (tableCopy mod) fuel ⟨pc, bulkOperands d s n os, ctx⟩) := by
  refine ⟨?_, ?_⟩
  · intro ctx base hmem h
    exact ⟨memoryCopyCode_agrees hmem h hstack hfuel pc os,
      memoryFillCode_agrees hmem h hstack hfuel pc os⟩
  · intro mod table ctx base start enc htable hinitial h
    have hsize : (BitVec.ofNat 32 table.limits.initial).toNat = table.limits.initial :=
      Nat.mod_eq_of_lt hinitial
    have hagrees := tableCopyCode_agrees htable hsize.symm (hsize.symm ▸ h) hstack hfuel pc os
    rwa [hsize] at hagrees

/-- A machine with one page of memory at `65536` and the two pages below it. -/
def onePageMachine (d s n : BitVec 32) : Machine where
  regs := fun r => if r = .rsi then 65536 else 0
  xmms := fun _ => 0
  flags := {}
  df := false
  stack := bulkSlots d s n []
  memory := fun _ => 0
  readable := fun a => decide (57344 ≤ a ∧ a < 131072)
  writable := fun a => decide (57344 ≤ a ∧ a < 131072)
  junk := 0

theorem onePageMachine_memory (d s n : BitVec 32) :
    MemoryAt (onePageMachine d s n) 65536 onePageContext where
  rsi := rfl
  low := by decide
  high := by decide
  df := rfl
  below := rfl
  inside := by
    intro a ha
    have hlen : onePageContext.memoryLength = 65536 := by decide
    have hin : 57344 ≤ 65536 + a ∧ 65536 + a < 131072 := by omega
    exact ⟨decide_eq_true hin, decide_eq_true hin⟩
  outside := by
    intro a ha _
    have hlen : onePageContext.memoryLength = 65536 := by decide
    exact decide_eq_false (by omega)
  bytes := fun _ _ => rfl

theorem onePageMachine_copies : ∃ final,
    Runs memoryCopyCode (.run 0 (onePageMachine 65531 65530 5)) final ∧
      MemoryAgrees (onePageMachine 65531 65530 5) 65536 onePageContext.memoryLength
        [] memoryCopyCode
        final (visit memoryCopy 6 ⟨0, bulkOperands 65531 65530 5 [], onePageContext⟩) :=
  ((jit_bulk_operations_agree (onePageMachine 65531 65530 5) [] 65531 65530 5 rfl 6 (by decide) 0
    []).1 onePageContext 65536 ⟨by decide, by decide⟩ (onePageMachine_memory 65531 65530 5)).1

end EosVm
