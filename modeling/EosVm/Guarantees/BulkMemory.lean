import EosVm.Lib.BlockMove
import EosVm.Lib.ExceptRun
import EosVm.Source.InterpretVisitor

/-!
# Bulk memory operations of the interpreter

`memory.copy` and `memory.fill` handle one byte a visit. Their operands always describe what is left
to do, so the first visit finds every range that does not fit and the later ones find none. The
operands may wrap to zero at the end of a memory of 4 GiB, but then nothing is left to do and only
the byte below the memory is read.
-/

set_option autoImplicit false

namespace EosVm

open Lib

namespace ExecutionContextBase

/-- A memory is defined and not larger than the address space. -/
structure MemoryDefined (ctx : ExecutionContextBase) : Prop where
  defined : 0 ≤ ctx.page
  addressable : ctx.page ≤ 65536

/-- The length of the memory in bytes. -/
def memoryLength (ctx : ExecutionContextBase) : Nat := ctx.page.toNat * pageSize

variable {ctx : ExecutionContextBase}

theorem MemoryDefined.length_le (h : MemoryDefined ctx) : ctx.memoryLength ≤ 2 ^ 32 := by
  have hpages : ctx.page.toNat ≤ 65536 := by
    have hle := h.addressable
    omega
  calc ctx.page.toNat * pageSize ≤ 65536 * pageSize := Nat.mul_le_mul_right _ hpages
    _ = 2 ^ 32 := rfl

theorem MemoryDefined.length_int (h : MemoryDefined ctx) :
    ctx.page * (pageSize : Nat) = (ctx.memoryLength : Int) := by
  have hdefined := h.defined
  rw [memoryLength, Int.natCast_mul, Int.toNat_of_nonneg hdefined]

/-- Reading the last byte finds whether the whole range is in the memory. An empty range may end
where the memory does. -/
theorem touchLast_eq (h : MemoryDefined ctx) (ptr len : Nat) :
    ctx.touchLast ptr len =
      if ptr + len ≤ ctx.memoryLength then .ok ()
      else .error (.wasmMemory "wasm memory out-of-bounds") := by
  have hdefined := h.defined
  have hlow : -(tablePage : Int) ≤ (ptr : Int) + len - 1 := by
    change -(4096 : Int) ≤ _
    omega
  have hread : ctx.readable ((ptr : Int) + len - 1) = decide (ptr + len ≤ ctx.memoryLength) := by
    simp only [readable, hdefined, hlow, decide_true, Bool.true_and, h.length_int, decide_eq_decide]
    omega
  rw [touchLast, hread]
  by_cases hfits : ptr + len ≤ ctx.memoryLength
  · simp [vmAssert, hfits]
  · simp [vmAssert, hfits]

theorem validatePointer_eq (h : MemoryDefined ctx) (ptr len : Nat) :
    ctx.validatePointer ptr len =
      if ptr + len ≤ ctx.memoryLength then .ok ()
      else .error (.wasmMemory "wasm memory out-of-bounds") := by
  have hdefined := h.defined
  simp only [validatePointer, vmAssert, hdefined, decide_true, Bool.true_and, decide_eq_true_eq]
  rfl

/-- The context with other bytes in its memory. -/
def withMemory (ctx : ExecutionContextBase) (memory : Nat → UInt8) : ExecutionContextBase :=
  { ctx with memory := memory }

@[simp] theorem withMemory_memory (ctx : ExecutionContextBase) (memory : Nat → UInt8) :
    (ctx.withMemory memory).memory = memory := rfl

@[simp] theorem withMemory_withMemory (ctx : ExecutionContextBase) (m m' : Nat → UInt8) :
    (ctx.withMemory m).withMemory m' = ctx.withMemory m' := rfl

@[simp] theorem withMemory_self (ctx : ExecutionContextBase) :
    ctx.withMemory ctx.memory = ctx := rfl

@[simp] theorem memoryLength_withMemory (ctx : ExecutionContextBase) (memory : Nat → UInt8) :
    (ctx.withMemory memory).memoryLength = ctx.memoryLength := rfl

theorem MemoryDefined.withMemory (h : MemoryDefined ctx) (memory : Nat → UInt8) :
    MemoryDefined (ctx.withMemory memory) := ⟨h.defined, h.addressable⟩

theorem copyByte_eq (h : MemoryDefined ctx) (dst src : Nat) (hsrc : src + 1 ≤ ctx.memoryLength)
    (hdst : dst + 1 ≤ ctx.memoryLength) :
    ctx.copyByte dst src =
      .ok (ctx.withMemory (Function.update ctx.memory dst (ctx.memory src))) := by
  simp only [copyByte, validatePointer_eq h, if_pos hsrc, if_pos hdst, ok_bind]
  rfl

theorem setByte_eq (h : MemoryDefined ctx) (dst : Nat) (value : UInt8)
    (hdst : dst + 1 ≤ ctx.memoryLength) :
    ctx.setByte dst value = .ok (ctx.withMemory (Function.update ctx.memory dst value)) := by
  simp only [setByte, validatePointer_eq h, if_pos hdst, ok_bind]
  rfl

end ExecutionContextBase

open ExecutionContextBase

section Visits

variable {ctx : ExecutionContextBase} {pc : Nat} {os : List OperandStackElem} {d s n : BitVec 32}

/-- The operands of a bulk operation above the rest of the stack. -/
def bulkOperands (d s n : BitVec 32) (os : List OperandStackElem) : List OperandStackElem :=
  .i32 n :: .i32 s :: .i32 d :: os

/-- The operand after a byte is done. -/
theorem toNat_sub_one (hn : n.toNat ≠ 0) : (n - 1).toNat = n.toNat - 1 := by
  have hlt := n.isLt
  rw [BitVec.toNat_sub]
  change (2 ^ 32 - 1 + n.toNat) % 2 ^ 32 = n.toNat - 1
  omega

theorem toNat_add_one (x : BitVec 32) : (x + 1).toNat = (x.toNat + 1) % 2 ^ 32 :=
  BitVec.toNat_add x 1

/-- The ranges of a move are in an array of `len` cells. -/
def MoveFits (len : Nat) (d s n : BitVec 32) : Prop :=
  s.toNat + n.toNat ≤ len ∧ d.toNat + n.toNat ≤ len

theorem memoryCopy_trap (h : MemoryDefined ctx) (hout : ¬ MoveFits ctx.memoryLength d s n) :
    memoryCopy ⟨pc, bulkOperands d s n os, ctx⟩ =
      .error (.wasmMemory "wasm memory out-of-bounds", ⟨pc, bulkOperands d s n os, ctx⟩) := by
  simp only [memoryCopy, bulkOperands, touchLast_eq h]
  by_cases hsrc : s.toNat + n.toNat ≤ ctx.memoryLength
  · rw [if_pos hsrc, if_neg fun hdst => hout ⟨hsrc, hdst⟩]
    rfl
  · rw [if_neg hsrc]
    rfl

theorem memoryCopy_done (h : MemoryDefined ctx) (hfits : MoveFits ctx.memoryLength d s n)
    (hn : n = 0) :
    memoryCopy ⟨pc, bulkOperands d s n os, ctx⟩ = .ok ⟨pc + 1, os, ctx⟩ := by
  simp only [memoryCopy, bulkOperands, touchLast_eq h, if_pos hfits.1, if_pos hfits.2, if_pos hn]
  rfl

theorem memoryCopy_up (h : MemoryDefined ctx) (hfits : MoveFits ctx.memoryLength d s n)
    (hn : n.toNat ≠ 0)
    (hle : d ≤ s) :
    memoryCopy ⟨pc, bulkOperands d s n os, ctx⟩ =
      .ok ⟨pc, bulkOperands (d + 1) (s + 1) (n - 1) os,
        ctx.withMemory (Function.update ctx.memory d.toNat (ctx.memory s.toNat))⟩ := by
  obtain ⟨hsrc, hdst⟩ := hfits
  have hne : n ≠ 0 := fun hzero => hn (congrArg BitVec.toNat hzero)
  have hbyte := copyByte_eq h d.toNat s.toNat (by omega) (by omega)
  simp only [memoryCopy, bulkOperands, touchLast_eq h, if_pos hsrc, if_pos hdst, if_neg hne,
    if_pos hle, hbyte]
  rfl

theorem memoryCopy_down (h : MemoryDefined ctx) (hfits : MoveFits ctx.memoryLength d s n)
    (hn : n.toNat ≠ 0)
    (hlt : ¬ d ≤ s) :
    memoryCopy ⟨pc, bulkOperands d s n os, ctx⟩ =
      .ok ⟨pc, bulkOperands d s (n - 1) os,
        ctx.withMemory (Function.update ctx.memory (d.toNat + (n.toNat - 1))
          (ctx.memory (s.toNat + (n.toNat - 1))))⟩ := by
  obtain ⟨hsrc, hdst⟩ := hfits
  have hne : n ≠ 0 := fun hzero => hn (congrArg BitVec.toNat hzero)
  have hbyte := copyByte_eq h (d.toNat + (n.toNat - 1)) (s.toNat + (n.toNat - 1)) (by omega)
    (by omega)
  simp only [memoryCopy, bulkOperands, touchLast_eq h, if_pos hsrc, if_pos hdst, if_neg hne,
    if_neg hlt, hbyte]
  rfl

/-- What is left of an upward move still fits, also when its operands have wrapped. -/
theorem MoveFits.next_up {len : Nat} (hfits : MoveFits len d s n) (hn : n.toNat ≠ 0) :
    MoveFits len (d + 1) (s + 1) (n - 1) := by
  obtain ⟨hsrc, hdst⟩ := hfits
  unfold MoveFits
  rw [toNat_sub_one hn, toNat_add_one, toNat_add_one]
  omega

theorem MoveFits.next_down {len : Nat} (hfits : MoveFits len d s n) (hn : n.toNat ≠ 0) :
    MoveFits len d s (n - 1) := by
  obtain ⟨hsrc, hdst⟩ := hfits
  unfold MoveFits
  rw [toNat_sub_one hn]
  omega

/-- The rest of an upward move, with the operands as they are after the first byte. -/
theorem moveBlock_next_up {α : Type} {m : Nat → α} {len k : Nat} (hlen : len ≤ 2 ^ 32)
    (hsrc : s.toNat + (k + 1) ≤ len) (hdst : d.toNat + (k + 1) ≤ len) (hle : d ≤ s) :
    moveBlock (Function.update m d.toNat (m s.toNat)) (d + 1).toNat (s + 1).toNat k =
      moveBlock m d.toNat s.toNat (k + 1) := by
  have hle' : d.toNat ≤ s.toNat := hle
  rw [← moveBlock_succ_up (Or.inl hle')]
  cases k with
  | zero => rw [moveBlock_zero, moveBlock_zero]
  | succ k =>
    have hd : (d + 1).toNat = d.toNat + 1 := by rw [toNat_add_one]; omega
    have hs : (s + 1).toNat = s.toNat + 1 := by rw [toNat_add_one]; omega
    rw [hd, hs]

/-- All visits of a `memory.copy` whose ranges fit. -/
theorem visit_memoryCopy (k : Nat) (hk : n.toNat = k) (h : MemoryDefined ctx)
    (hfits : MoveFits ctx.memoryLength d s n) {fuel : Nat} (hfuel : k < fuel) :
    visit memoryCopy fuel ⟨pc, bulkOperands d s n os, ctx⟩ =
      .ok ⟨pc + 1, os, ctx.withMemory (moveBlock ctx.memory d.toNat s.toNat k)⟩ := by
  obtain ⟨fuel, rfl⟩ : ∃ f, fuel = f + 1 := ⟨fuel - 1, by omega⟩
  induction k generalizing ctx d s n fuel with
  | zero =>
    have hzero : n = 0 := BitVec.eq_of_toNat_eq hk
    simp [visit, memoryCopy_done h hfits hzero]
  | succ k ih =>
    obtain ⟨fuel, rfl⟩ : ∃ f, fuel = f + 1 := ⟨fuel - 1, by omega⟩
    have hn : n.toNat ≠ 0 := by omega
    have hk' : (n - 1).toNat = k := by rw [toNat_sub_one hn, hk]; omega
    obtain ⟨hsrc, hdst⟩ := hfits
    by_cases hle : d ≤ s
    · rw [visit, memoryCopy_up h ⟨hsrc, hdst⟩ hn hle]
      simp only [ok_bind, if_true]
      refine (ih hk' (h.withMemory _) ?_ fuel (by omega)).trans ?_
      · exact MoveFits.next_up ⟨hsrc, hdst⟩ hn
      · rw [withMemory_withMemory, withMemory_memory,
          moveBlock_next_up h.length_le (hk ▸ hsrc) (hk ▸ hdst) hle]
    · have hlt : s.toNat ≤ d.toNat := Nat.le_of_not_le hle
      rw [visit, memoryCopy_down h ⟨hsrc, hdst⟩ hn hle]
      simp only [ok_bind, if_true]
      refine (ih hk' (h.withMemory _) ?_ fuel (by omega)).trans ?_
      · exact MoveFits.next_down ⟨hsrc, hdst⟩ hn
      · rw [withMemory_withMemory, withMemory_memory, hk, Nat.add_sub_cancel,
          moveBlock_succ_down hlt]

theorem memoryFill_trap (h : MemoryDefined ctx) (hout : ¬ d.toNat + n.toNat ≤ ctx.memoryLength) :
    memoryFill ⟨pc, bulkOperands d s n os, ctx⟩ =
      .error (.wasmMemory "wasm memory out-of-bounds", ⟨pc, bulkOperands d s n os, ctx⟩) := by
  simp only [memoryFill, bulkOperands, touchLast_eq h, if_neg hout]
  rfl

theorem memoryFill_done (h : MemoryDefined ctx) (hdst : d.toNat + n.toNat ≤ ctx.memoryLength)
    (hn : n = 0) : memoryFill ⟨pc, bulkOperands d s n os, ctx⟩ = .ok ⟨pc + 1, os, ctx⟩ := by
  simp only [memoryFill, bulkOperands, touchLast_eq h, if_pos hdst, if_pos hn]
  rfl

theorem memoryFill_next (h : MemoryDefined ctx) (hdst : d.toNat + n.toNat ≤ ctx.memoryLength)
    (hn : n.toNat ≠ 0) :
    memoryFill ⟨pc, bulkOperands d s n os, ctx⟩ =
      .ok ⟨pc, bulkOperands (d + 1) s (n - 1) os,
        ctx.withMemory (Function.update ctx.memory d.toNat (UInt8.ofNat s.toNat))⟩ := by
  have hne : n ≠ 0 := fun hzero => hn (congrArg BitVec.toNat hzero)
  have hbyte := setByte_eq h d.toNat (UInt8.ofNat s.toNat) (by omega)
  simp only [memoryFill, bulkOperands, touchLast_eq h, if_pos hdst, if_neg hne, hbyte]
  rfl

/-- All visits of a `memory.fill` whose range fits. -/
theorem visit_memoryFill (k : Nat) (hk : n.toNat = k) (h : MemoryDefined ctx)
    (hdst : d.toNat + n.toNat ≤ ctx.memoryLength) {fuel : Nat} (hfuel : k < fuel) :
    visit memoryFill fuel ⟨pc, bulkOperands d s n os, ctx⟩ =
      .ok ⟨pc + 1, os,
        ctx.withMemory (fillBlock ctx.memory d.toNat k (UInt8.ofNat s.toNat))⟩ := by
  obtain ⟨fuel, rfl⟩ : ∃ f, fuel = f + 1 := ⟨fuel - 1, by omega⟩
  induction k generalizing ctx d n fuel with
  | zero =>
    have hzero : n = 0 := BitVec.eq_of_toNat_eq hk
    simp [visit, memoryFill_done h hdst hzero]
  | succ k ih =>
    obtain ⟨fuel, rfl⟩ : ∃ f, fuel = f + 1 := ⟨fuel - 1, by omega⟩
    have hn : n.toNat ≠ 0 := by omega
    have hk' : (n - 1).toNat = k := by rw [toNat_sub_one hn, hk]; omega
    have hlen := h.length_le
    rw [visit, memoryFill_next h hdst hn]
    simp only [ok_bind, if_true]
    refine (ih hk' (h.withMemory _) ?_ fuel (by omega)).trans ?_
    · rw [hk', toNat_add_one, memoryLength_withMemory]
      omega
    · rw [withMemory_withMemory, withMemory_memory, ← fillBlock_succ]
      cases k with
      | zero => rw [fillBlock_zero, fillBlock_zero]
      | succ k =>
        have hd : (d + 1).toNat = d.toNat + 1 := by rw [toNat_add_one]; omega
        rw [hd]

section Table

variable {mod : Module} {table : TableType}

theorem tableCopy_trap (htable : mod.tables[0]? = some table)
    (hout : ¬ MoveFits table.limits.initial d s n) :
    tableCopy mod ⟨pc, bulkOperands d s n os, ctx⟩ =
      .error (.wasmMemory "table out of range", ⟨pc, bulkOperands d s n os, ctx⟩) := by
  simp only [tableCopy, bulkOperands, getTablePtr, vectorAt_eq_ok.mpr htable, ok_bind, vmAssert,
    decide_eq_true_eq]
  by_cases hsrc : s.toNat + n.toNat ≤ table.limits.initial
  · rw [if_pos hsrc, if_neg fun hdst => hout ⟨hsrc, hdst⟩]
    rfl
  · rw [if_neg hsrc]
    rfl

/-- One visit when the ranges fit. -/
theorem tableCopy_fits (htable : mod.tables[0]? = some table)
    (hfits : MoveFits table.limits.initial d s n) :
    tableCopy mod ⟨pc, bulkOperands d s n os, ctx⟩ =
      if n = 0 then .ok ⟨pc + 1, os, ctx⟩
      else if d ≤ s then
        ((⟨pc, bulkOperands d s n os, ctx⟩ : InterpretState).update
          (ctx.copyEntry d.toNat s.toNat)).map
          fun st => { st with os := bulkOperands (d + 1) (s + 1) (n - 1) os }
      else
        ((⟨pc, bulkOperands d s n os, ctx⟩ : InterpretState).update
          (ctx.copyEntry (d.toNat + (n.toNat - 1)) (s.toNat + (n.toNat - 1)))).map
          fun st => { st with os := bulkOperands d s (n - 1) os } := by
  simp only [tableCopy, bulkOperands, getTablePtr, vectorAt_eq_ok.mpr htable, ok_bind, vmAssert,
    decide_eq_true_eq, if_pos hfits.1, if_pos hfits.2]
  rfl

theorem copyEntry_eq (dst src : Nat) (hsrc : src < ctx.table.length)
    (hdst : dst < ctx.table.length) :
    ∃ entries, ctx.copyEntry dst src = .ok { ctx with table := entries } ∧
      entries.length = ctx.table.length ∧
      (fun a => entries[a]?) =
        Function.update (fun a => ctx.table[a]?) dst ctx.table[src]? := by
  obtain ⟨entry, hentry⟩ : ∃ x, ctx.table[src]? = some x := ⟨_, List.getElem?_eq_getElem hsrc⟩
  refine ⟨ctx.table.set dst entry, ?_, List.length_set, ?_⟩
  · simp only [copyEntry, vectorAt_eq_ok.mpr hentry, ok_bind, vectorSet, if_pos hdst]
    rfl
  · funext a
    rw [hentry, Function.update_apply, List.getElem?_set]
    by_cases ha : a = dst
    · rw [if_pos ha.symm, if_pos ha, if_pos (ha ▸ hdst)]
    · rw [if_neg (Ne.symm ha), if_neg ha]

/-- All visits of a `table.copy` whose ranges fit, with the entries as a function of their index. -/
theorem visit_tableCopy (pc : Nat) (os : List OperandStackElem) (k : Nat) (hk : n.toNat = k)
    (htable : mod.tables[0]? = some table) (hlength : ctx.table.length = table.limits.initial)
    (hinitial : table.limits.initial < 2 ^ 32) (hfits : MoveFits table.limits.initial d s n)
    {fuel : Nat} (hfuel : k < fuel) :
    ∃ entries, visit (tableCopy mod) fuel ⟨pc, bulkOperands d s n os, ctx⟩ =
        .ok ⟨pc + 1, os, { ctx with table := entries }⟩ ∧
      entries.length = ctx.table.length ∧
      (fun a => entries[a]?) = moveBlock (fun a => ctx.table[a]?) d.toNat s.toNat k := by
  obtain ⟨fuel, rfl⟩ : ∃ f, fuel = f + 1 := ⟨fuel - 1, by omega⟩
  induction k generalizing ctx d s n fuel with
  | zero =>
    have hzero : n = 0 := BitVec.eq_of_toNat_eq hk
    refine ⟨ctx.table, ?_, rfl, by rw [moveBlock_zero]⟩
    rw [visit, tableCopy_fits htable hfits, if_pos hzero]
    simp
  | succ k ih =>
    obtain ⟨fuel, rfl⟩ : ∃ f, fuel = f + 1 := ⟨fuel - 1, by omega⟩
    have hn : n.toNat ≠ 0 := by omega
    have hne : n ≠ 0 := fun hzero => hn (congrArg BitVec.toNat hzero)
    have hk' : (n - 1).toNat = k := by rw [toNat_sub_one hn, hk]; omega
    obtain ⟨hsrc, hdst⟩ := hfits
    by_cases hle : d ≤ s
    · obtain ⟨entries, hcopy, hlen, hupdate⟩ := copyEntry_eq d.toNat s.toNat
        (hlength ▸ Nat.lt_of_lt_of_le (by omega) hsrc)
          (hlength ▸ Nat.lt_of_lt_of_le (by omega) hdst)
      have hlength' : ({ ctx with table := entries } : ExecutionContextBase).table.length =
        table.limits.initial := hlen.trans hlength
      obtain ⟨entries', hvisit, hlen', hmoved⟩ :=
        ih hk' hlength' (MoveFits.next_up ⟨hsrc, hdst⟩ hn) fuel (by omega)
      refine ⟨entries', ?_, hlen'.trans hlen, ?_⟩
      · rw [visit, tableCopy_fits htable ⟨hsrc, hdst⟩, if_neg hne, if_pos hle, hcopy]
        simp only [InterpretState.update_ok, Except.map, ok_bind, if_true]
        exact hvisit
      · rw [hmoved, hupdate]
        exact moveBlock_next_up (Nat.le_of_lt hinitial) (hk ▸ hsrc) (hk ▸ hdst) hle
    · have hlt : s.toNat ≤ d.toNat := Nat.le_of_not_le hle
      obtain ⟨entries, hcopy, hlen, hupdate⟩ := copyEntry_eq
        (d.toNat + (n.toNat - 1)) (s.toNat + (n.toNat - 1))
        (hlength ▸ Nat.lt_of_lt_of_le (by omega) hsrc)
          (hlength ▸ Nat.lt_of_lt_of_le (by omega) hdst)
      have hlength' : ({ ctx with table := entries } : ExecutionContextBase).table.length =
        table.limits.initial := hlen.trans hlength
      obtain ⟨entries', hvisit, hlen', hmoved⟩ :=
        ih hk' hlength' (MoveFits.next_down ⟨hsrc, hdst⟩ hn) fuel (by omega)
      refine ⟨entries', ?_, hlen'.trans hlen, ?_⟩
      · rw [visit, tableCopy_fits htable ⟨hsrc, hdst⟩, if_neg hne, if_neg hle, hcopy]
        simp only [InterpretState.update_ok, Except.map, ok_bind, if_true]
        exact hvisit
      · rw [hmoved, hupdate, hk, Nat.add_sub_cancel]
        exact moveBlock_succ_down hlt

end Table

/-- The entries of a segment that may still be copied. -/
def liveLength {α : Type} (dropped : Bool) (items : List α) : Nat :=
  if dropped then 0 else items.length

theorem memoryInit_eq (h : MemoryDefined ctx) {mod : Module} {x : Nat} {segment : DataSegment}
    {dropped : Bool} (hsegment : mod.data[x]? = some segment)
    (hdropped : ctx.droppedData[x]? = some dropped) :
    memoryInit mod x ⟨pc, bulkOperands d s n os, ctx⟩ =
      if s.toNat + n.toNat ≤ liveLength dropped segment.data then
        if d.toNat + n.toNat ≤ ctx.memoryLength then
          .ok ⟨pc + 1, os, ctx.withMemory
            (writeBytes ctx.memory d.toNat ((segment.data.drop s.toNat).take n.toNat))⟩
        else .error (.wasmMemory "wasm memory out-of-bounds", ⟨pc + 1, os, ctx⟩)
      else .error (.wasmMemory "data out of range", ⟨pc + 1, os, ctx⟩) := by
  have hlength : (if dropped = true then 0 else segment.data.length) =
      liveLength dropped segment.data := rfl
  simp only [memoryInit, bulkOperands, initLinearMemory, vectorAt_eq_ok.mpr hsegment,
    vectorAt_eq_ok.mpr hdropped, ok_bind, hlength, vmAssert, decide_eq_true_eq, touchLast_eq h]
  split
  · split
    · rfl
    · rfl
  · rfl

theorem tableInit_eq {mod : Module} {x : Nat} {segment : ElemSegment} {table : TableType}
    {dropped : Bool} (hsegment : mod.elements[x]? = some segment)
    (hdropped : ctx.droppedElems[x]? = some dropped) (htable : mod.tables[0]? = some table) :
    tableInit mod x ⟨pc, bulkOperands d s n os, ctx⟩ =
      if s.toNat + n.toNat ≤ liveLength dropped segment.elems then
        if d.toNat + n.toNat ≤ table.limits.initial then
          .ok ⟨pc + 1, os, { ctx with
            table := writeEntries ctx.table d.toNat ((segment.elems.drop s.toNat).take n.toNat) }⟩
        else .error (.wasmMemory "wasm memory out-of-bounds", ⟨pc + 1, os, ctx⟩)
      else .error (.wasmMemory "elem out of range", ⟨pc + 1, os, ctx⟩) := by
  have hlength : (if dropped = true then 0 else segment.elems.length) =
      liveLength dropped segment.elems := rfl
  simp only [tableInit, bulkOperands, initTable, vectorAt_eq_ok.mpr hsegment,
    vectorAt_eq_ok.mpr hdropped, vectorAt_eq_ok.mpr htable, ok_bind, hlength, vmAssert,
    decide_eq_true_eq]
  split
  · split
    · rfl
    · rfl
  · rfl

end Visits

/-- An instruction traps and leaves the context as it is unless its ranges fit, and otherwise goes
on to the next one with the operands popped and the context `ctx'`. -/
structure BulkOutcome (fits : Prop) (pc : Nat) (os : List OperandStackElem)
    (ctx ctx' : ExecutionContextBase)
    (out : Except (VmError × InterpretState) InterpretState) : Prop where
  done : fits → out = .ok ⟨pc + 1, os, ctx'⟩
  trap : ¬ fits → ∃ msg st, out = .error (.wasmMemory msg, st) ∧ st.ctx = ctx

/-- The bulk operations for all operands and every memory: copying and filling end after one visit a
byte and one more, with what `memmove` and `memset` leave; all four trap exactly when a range does
not fit. -/
theorem bulk_memory_outcomes {ctx : ExecutionContextBase} (h : MemoryDefined ctx)
    (d s n : BitVec 32)
    (pc : Nat) (os : List OperandStackElem) :
    (∀ fuel, n.toNat < fuel →
      BulkOutcome (s.toNat + n.toNat ≤ ctx.memoryLength ∧ d.toNat + n.toNat ≤ ctx.memoryLength)
        pc os ctx (ctx.withMemory (moveBlock ctx.memory d.toNat s.toNat n.toNat))
        (visit memoryCopy fuel ⟨pc, bulkOperands d s n os, ctx⟩)) ∧
    (∀ fuel, n.toNat < fuel →
      BulkOutcome (d.toNat + n.toNat ≤ ctx.memoryLength) pc os ctx
        (ctx.withMemory (fillBlock ctx.memory d.toNat n.toNat (UInt8.ofNat s.toNat)))
        (visit memoryFill fuel ⟨pc, bulkOperands d s n os, ctx⟩)) ∧
    (∀ (mod : Module) (x : Nat) (segment : DataSegment) (dropped : Bool),
      mod.data[x]? = some segment → ctx.droppedData[x]? = some dropped →
      BulkOutcome (s.toNat + n.toNat ≤ liveLength dropped segment.data ∧
          d.toNat + n.toNat ≤ ctx.memoryLength) pc os ctx
        (ctx.withMemory
          (writeBytes ctx.memory d.toNat ((segment.data.drop s.toNat).take n.toNat)))
        (memoryInit mod x ⟨pc, bulkOperands d s n os, ctx⟩)) ∧
    ∀ (mod : Module) (x : Nat) (segment : ElemSegment) (dropped : Bool) (table : TableType),
      mod.elements[x]? = some segment → ctx.droppedElems[x]? = some dropped →
      mod.tables[0]? = some table →
      BulkOutcome (s.toNat + n.toNat ≤ liveLength dropped segment.elems ∧
          d.toNat + n.toNat ≤ table.limits.initial) pc os ctx
        { ctx with
          table := writeEntries ctx.table d.toNat ((segment.elems.drop s.toNat).take n.toNat) }
        (tableInit mod x ⟨pc, bulkOperands d s n os, ctx⟩) := by
  refine ⟨?_, ?_, ?_, ?_⟩
  · intro fuel hfuel
    refine ⟨fun hfits => visit_memoryCopy n.toNat rfl h hfits hfuel, fun hout => ?_⟩
    obtain ⟨fuel, rfl⟩ : ∃ f, fuel = f + 1 := ⟨fuel - 1, by omega⟩
    rw [visit, memoryCopy_trap h hout]
    exact ⟨_, _, rfl, rfl⟩
  · intro fuel hfuel
    refine ⟨fun hfits => visit_memoryFill n.toNat rfl h hfits hfuel, fun hout => ?_⟩
    obtain ⟨fuel, rfl⟩ : ∃ f, fuel = f + 1 := ⟨fuel - 1, by omega⟩
    rw [visit, memoryFill_trap h hout]
    exact ⟨_, _, rfl, rfl⟩
  · intro mod x segment dropped hsegment hdropped
    rw [memoryInit_eq h hsegment hdropped]
    refine ⟨fun hfits => by rw [if_pos hfits.1, if_pos hfits.2], fun hout => ?_⟩
    split
    next hsrc =>
      rw [if_neg fun hdst => hout ⟨hsrc, hdst⟩]
      exact ⟨_, _, rfl, rfl⟩
    · exact ⟨_, _, rfl, rfl⟩
  · intro mod x segment dropped table hsegment hdropped htable
    rw [tableInit_eq hsegment hdropped htable]
    refine ⟨fun hfits => by rw [if_pos hfits.1, if_pos hfits.2], fun hout => ?_⟩
    split
    next hsrc =>
      rw [if_neg fun hdst => hout ⟨hsrc, hdst⟩]
      exact ⟨_, _, rfl, rfl⟩
    · exact ⟨_, _, rfl, rfl⟩

/-- A context with one page of memory whose only data segment has not been dropped. -/
def onePageContext : ExecutionContextBase where
  page := 1
  droppedData := [false]

theorem onePageContext_copy_overlapping :
    BulkOutcome True 0 [] onePageContext
      (onePageContext.withMemory (moveBlock onePageContext.memory 65531 65530 5))
      (visit memoryCopy 6 ⟨0, bulkOperands 65531 65530 5 [], onePageContext⟩) := by
  have hfits : 65530 + 5 ≤ onePageContext.memoryLength ∧
      65531 + 5 ≤ onePageContext.memoryLength := by
    decide
  have houtcome :=
    (bulk_memory_outcomes (show MemoryDefined onePageContext from ⟨by decide, by decide⟩)
      65531 65530 5 0 []).1 6 (by decide)
  exact ⟨fun _ => houtcome.done hfits, fun hnot => absurd trivial hnot⟩

end EosVm
