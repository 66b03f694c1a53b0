import EosVm.Lib.ExceptRun
import EosVm.Source.InterpretInt

/-!
# Integer instructions of the interpreter

Each operator computes what WebAssembly defines from the arithmetic of the language, with the cases
that the language leaves undefined (shifts by the width, bit counts of zero, the overflow of a
signed division) taken out before.
-/

set_option autoImplicit false

namespace EosVm

open Lib

section Interpreter

variable {t : IntType}

theorem interpRel_eq (a b : BitVec t.bits) (op : IRelOp) : interpRel a b op = op.eval a b := by
  have heq : (a.toNat == b.toNat) = (a == b) := by
    rw [Bool.eq_iff_iff]
    simp [BitVec.toNat_eq]
  cases op with
  | eq => exact heq
  | ne => exact congrArg (! ·) heq
  | ltS => exact BitVec.slt_eq_decide.symm
  | ltU => exact BitVec.ult_eq_decide.symm
  | gtS => exact BitVec.slt_eq_decide.symm
  | gtU => exact BitVec.ult_eq_decide.symm
  | leS => exact BitVec.sle_eq_decide.symm
  | leU => exact BitVec.ule_eq_decide.symm
  | geS => exact BitVec.sle_eq_decide.symm
  | geU => exact BitVec.ule_eq_decide.symm

/-- Masking a count takes it modulo the width. -/
theorem toNat_and_mask (b : BitVec t.bits) :
    (b &&& BitVec.ofNat t.bits t.mask).toNat = b.toNat % t.bits := by
  cases t with
  | i32 => exact (Nat.and_two_pow_sub_one_eq_mod b.toNat 5)
  | i64 => exact (Nat.and_two_pow_sub_one_eq_mod b.toNat 6)

theorem toNat_rotateCount (b : BitVec t.bits) : (rotateCount b).toNat = b.toNat % t.bits := by
  cases t with
  | i32 =>
    rw [rotateCount, BitVec.setWidth_eq]
    exact toNat_and_mask (t := .i32) b
  | i64 =>
    have hmask : (b.setWidth 32 &&& BitVec.ofNat 32 63).toNat = (b.setWidth 32).toNat % 64 :=
      Nat.and_two_pow_sub_one_eq_mod _ 6
    refine hmask.trans ?_
    rw [BitVec.toNat_setWidth]
    change b.toNat % 2 ^ 32 % 64 = b.toNat % 64
    omega

theorem rotateBack_eq (b : BitVec t.bits) :
    rotateBack b = (t.bits - b.toNat % t.bits) % t.bits := by
  have hcount := toNat_rotateCount b
  cases t with
  | i32 =>
    have hmask : rotateBack b = (-rotateCount b).toNat % 32 := Nat.and_two_pow_sub_one_eq_mod _ 5
    rw [hmask, BitVec.toNat_neg, hcount]
    change (2 ^ 32 - b.toNat % 32) % 2 ^ 32 % 32 = (32 - b.toNat % 32) % 32
    omega
  | i64 =>
    have hmask : rotateBack b = (-rotateCount b).toNat % 64 := Nat.and_two_pow_sub_one_eq_mod _ 6
    rw [hmask, BitVec.toNat_neg, hcount]
    change (2 ^ 32 - b.toNat % 64) % 2 ^ 32 % 64 = (64 - b.toNat % 64) % 64
    omega

/-- The two shifts of a rotation. A count of zero shifts nothing back. -/
theorem rotate_or (x : BitVec t.bits) (c : Nat) (hc : c < t.bits) :
    x <<< c ||| x >>> ((t.bits - c) % t.bits) = x <<< c ||| x >>> (t.bits - c) ∧
      x >>> c ||| x <<< ((t.bits - c) % t.bits) = x >>> c ||| x <<< (t.bits - c) := by
  rcases Nat.eq_zero_or_pos c with rfl | hpos
  · rw [Nat.sub_zero, Nat.mod_self, BitVec.ushiftRight_eq_zero (Nat.le_refl _),
      BitVec.shiftLeft_eq_zero (Nat.le_refl _)]
    simp
  · rw [Nat.mod_eq_of_lt (by omega)]
    exact ⟨rfl, rfl⟩

theorem bits_pos (t : IntType) : 0 < t.bits := by cases t <;> decide

theorem toInt_eq_zero {b : BitVec t.bits} : b.toInt = 0 ↔ b = 0 := by
  rw [← BitVec.toInt_inj]
  simp

theorem divOverflows_iff {a b : BitVec t.bits} :
    divOverflows a b = true ↔ a = BitVec.intMin t.bits ∧ b = -1 := by
  have hmin : (BitVec.intMin t.bits).toInt = -2 ^ (t.bits - 1) := by cases t <;> decide
  have hone : (-1 : BitVec t.bits).toInt = -1 := by cases t <;> decide
  rw [← BitVec.toInt_inj, ← BitVec.toInt_inj, hmin, hone]
  simp [divOverflows]

/-- The result of an instruction that may trap. -/
def Computes {α : Type} (result : Option α) (out : Except VmError α) : Prop :=
  match result with
  | some v => out = .ok v
  | none => ∃ msg, out = .error (.wasmInterpreter msg)

theorem ofInt_tdiv (a b : BitVec t.bits) :
    BitVec.ofInt t.bits (a.toInt.tdiv b.toInt) = a.sdiv b := by
  apply BitVec.eq_of_toInt_eq
  rw [BitVec.toInt_ofInt, BitVec.toInt_sdiv]

theorem ofInt_tmod (a b : BitVec t.bits) :
    BitVec.ofInt t.bits (a.toInt.tmod b.toInt) = a.srem b := by
  rw [← BitVec.toInt_srem, BitVec.ofInt_toInt]

theorem toInt_bne_zero {b : BitVec t.bits} (h : b ≠ 0) : (b.toInt != 0) = true :=
  bne_iff_ne.mpr (mt toInt_eq_zero.mp h)

theorem toNat_bne_zero {b : BitVec t.bits} (h : b ≠ 0) : (b.toNat != 0) = true :=
  bne_iff_ne.mpr fun hzero => h (BitVec.eq_of_toNat_eq hzero)

/-- The remainder that the processor and the language leave undefined. -/
theorem srem_of_overflow (t : IntType) : (BitVec.intMin t.bits).srem (-1) = 0 := by
  cases t <;> decide

theorem interpDivS_computes (a b : BitVec t.bits) :
    Computes (IBinOp.divS.eval a b) (interpBin a b .divS) := by
  simp only [interpBin, IBinOp.eval]
  by_cases hzero : b = 0
  · simp [Computes, vmAssert, hzero, divideByZero]
  · rw [toInt_bne_zero hzero]
    by_cases hover : a = BitVec.intMin t.bits ∧ b = -1
    · rw [divOverflows_iff.mpr hover, if_pos (Or.inr hover)]
      cases t <;> exact ⟨_, rfl⟩
    · rw [Bool.eq_false_iff.mpr (mt divOverflows_iff.mp hover), if_neg (not_or.mpr ⟨hzero, hover⟩),
        ofInt_tdiv]
      rfl

theorem interpRemS_computes (a b : BitVec t.bits) :
    Computes (IBinOp.remS.eval a b) (interpBin a b .remS) := by
  simp only [interpBin, IBinOp.eval]
  by_cases hzero : b = 0
  · simp [Computes, vmAssert, hzero, divideByZero]
  · rw [toInt_bne_zero hzero, if_neg hzero]
    by_cases hover : a = BitVec.intMin t.bits ∧ b = -1
    · rw [divOverflows_iff.mpr hover, hover.1, hover.2, srem_of_overflow]
      rfl
    · rw [Bool.eq_false_iff.mpr (mt divOverflows_iff.mp hover), ofInt_tmod]
      rfl

theorem interpDivU_computes (a b : BitVec t.bits) :
    Computes (IBinOp.divU.eval a b) (interpBin a b .divU) := by
  simp only [interpBin, IBinOp.eval]
  by_cases hzero : b = 0
  · simp [Computes, vmAssert, hzero, divideByZero]
  · rw [toNat_bne_zero hzero, if_neg hzero, ← BitVec.toNat_udiv, BitVec.ofNat_toNat,
      BitVec.setWidth_eq]
    rfl

theorem interpRemU_computes (a b : BitVec t.bits) :
    Computes (IBinOp.remU.eval a b) (interpBin a b .remU) := by
  simp only [interpBin, IBinOp.eval]
  by_cases hzero : b = 0
  · simp [Computes, vmAssert, hzero, divideByZero]
  · rw [toNat_bne_zero hzero, if_neg hzero, ← BitVec.toNat_umod, BitVec.ofNat_toNat,
      BitVec.setWidth_eq]
    rfl

theorem interpBin_computes (a b : BitVec t.bits) (op : IBinOp) :
    Computes (op.eval a b) (interpBin a b op) := by
  cases op with
  | add | sub | mul | and | or | xor => rfl
  | shl | shrS | shrU =>
    unfold interpBin
    rw [toNat_and_mask]
    rfl
  | rotl =>
    unfold interpBin
    rw [toNat_rotateCount, rotateBack_eq, (rotate_or a _ (Nat.mod_lt _ (bits_pos t))).1]
    change pure _ = Except.ok (a.rotateLeft (b.toNat % t.bits))
    rw [BitVec.rotateLeft_def, Nat.mod_mod]
    rfl
  | rotr =>
    unfold interpBin
    rw [toNat_rotateCount, rotateBack_eq, (rotate_or a _ (Nat.mod_lt _ (bits_pos t))).2]
    change pure _ = Except.ok (a.rotateRight (b.toNat % t.bits))
    rw [BitVec.rotateRight_def, Nat.mod_mod]
    rfl
  | divS => exact interpDivS_computes a b
  | divU => exact interpDivU_computes a b
  | remS => exact interpRemS_computes a b
  | remU => exact interpRemU_computes a b

theorem interpBinary_computes (i : IBinaryInstr) (a b : BitVec i.arg.bits) :
    Computes (i.eval a b) (interpBinary i a b) := by
  cases i with
  | rel t op =>
    change pure (boolBits 32 (interpRel a b op)) = Except.ok (boolBits 32 (op.eval a b))
    rw [interpRel_eq]
    rfl
  | bin t op => exact interpBin_computes a b op

theorem clz_zero (n : Nat) : (0#n).clz = BitVec.ofNat n n :=
  BitVec.clz_eq_iff_eq_zero.mpr rfl

theorem ctz_zero (n : Nat) : (0#n).ctz = BitVec.ofNat n n := by
  rw [BitVec.ctz_eq_reverse_clz, BitVec.reverse_eq_zero_iff.mpr rfl, clz_zero]

theorem interpUnary_eq (u : IUnaryInstr) (a : BitVec u.arg.bits) : interpUnary u a = u.eval a := by
  cases u with
  | eqz t =>
    refine congrArg (boolBits 32) ?_
    rw [Bool.eq_iff_iff, beq_iff_eq, beq_iff_eq, BitVec.toNat_eq]
    rfl
  | clz t =>
    change (if a.toNat = 0 then BitVec.ofNat t.bits t.bits else a.clz) = a.clz
    split
    next hzero =>
      rw [show a = 0#t.bits from BitVec.eq_of_toNat_eq hzero, clz_zero]
    · rfl
  | ctz t =>
    change (if a.toNat = 0 then BitVec.ofNat t.bits t.bits else a.ctz) = a.ctz
    split
    next hzero =>
      rw [show a = 0#t.bits from BitVec.eq_of_toNat_eq hzero, ctz_zero]
    · rfl
  | extendI32U => exact BitVec.ofNat_toNat 64 a
  | popcnt _ | wrap | extendI32S | extend8S _ | extend16S _ | extend32S => rfl

end Interpreter

end EosVm
