import EosVm.Guarantees.JitIntOps
import EosVm.Guarantees.SimdLowering
import EosVm.Source.InterpretSimd

/-!
# Integer vector instructions of both backends

The code that is emitted for the vector instructions leaves what WebAssembly defines on the native
stack. The interpreter computes the same, except for the extended multiplications of the upper
halves, where it reads the lower half of the second operand.
-/

set_option autoImplicit false

namespace EosVm

open Lib Lib.X86

/-- The slots of a vector, the low half on top. -/
def vecSlots (v : BitVec 128) : List (BitVec 64) := [v.setWidth 64, v.extractLsb' 64 64]

@[simp] theorem vecSlots_append (v : BitVec 128) : v.extractLsb' 64 64 ++ v.setWidth 64 = v :=
  extract_append_setWidth (n := 64) (k := 64) v

/-- The static table of `emit_i8x16_popcnt` is in memory. -/
def HasPopcnt4 (m : Machine) (table : BitVec 64) : Prop :=
  ∀ i, i < 16 → m.readable (table.toNat + i) = true ∧
    (m.memory (table.toNat + i)).toBitVec = BitVec.ofNat 8 (popcnt4.getD i 0)

/-- The code runs to its end and leaves `slots`. -/
def IntCode.Leaves (c : IntCode) (m : Machine) (stack slots : List (BitVec 64)) : Prop :=
  ∃ m', Runs c.code (.run 0 m) (.run c.code.length m') ∧ m'.stack = slots ++ stack ∧ SameRest m m'

section Execution

variable {m : Machine} {stack : List (BitVec 64)} {a b : BitVec 128}

theorem IntCode.straight_leaves {folded : List RecentOp} {ops : List Op} {slots : List (BitVec 64)}
    (hops : writesOnly [.rax, .rcx, .rdx] ops = true)
    (h : ∃ m', execOps ops m = .ok m' ∧ m'.stack = slots ++ stack) :
    (IntCode.straight folded ops).Leaves m stack slots := by
  obtain ⟨m', hexec, hstack⟩ := h
  have hrun := Runs.ops (hasOps_map ops) hexec
  rw [Nat.zero_add, ← List.length_map (Lib.X86.Instr.op (H := JitHandler))] at hrun
  exact ⟨m', hrun, hstack, execOps_sameExcept hops hexec⟩

/-- Code leaves the vector that it computes. -/
def LeavesVector (ops : List Op) (m : Machine) (stack : List (BitVec 64)) (v : BitVec 128) : Prop :=
  ∃ m', execOps ops m = .ok m' ∧ m'.stack = vecSlots v ++ stack

-- running a list of operations on a stack that is known
attribute [local simp] LeavesVector execOps Op.exec Machine.vecSrc Machine.operand Machine.get
  Machine.set vecSlots emitConstZero emitConstOnes

theorem LeavesVector.congr {ops : List Op} {v v' : BitVec 128} (h : v = v')
    (hleaves : LeavesVector ops m stack v) : LeavesVector ops m stack v' := h ▸ hleaves

theorem emitExtmul_leaves (shape : NarrowShape) (high signed : Bool)
    (hstack : m.stack = vecSlots b ++ (vecSlots a ++ stack)) :
    LeavesVector (emitExtmul high signed shape) m stack
      ((VBinaryInstr.extmul shape high signed).eval a b) := by
  cases shape with
  | i8x16 =>
    cases high with
    | false =>
      refine LeavesVector.congr (extmul_i8x16_low a b signed) ?_
      simp [emitExtmul, emitI16x8ExtmulLow, hstack]
    | true =>
      refine LeavesVector.congr (extmul_i8x16_high a b signed) ?_
      simp [emitExtmul, emitI16x8ExtmulHigh, hstack]
  | i16x8 =>
    cases high with
    | false =>
      refine LeavesVector.congr (extmul_i16x8_low a b signed) ?_
      simp [emitExtmul, emitI32x4ExtmulLow, hstack]
    | true =>
      refine LeavesVector.congr (extmul_i16x8_high a b signed) ?_
      simp [emitExtmul, emitI32x4ExtmulHigh, hstack]
  | i32x4 =>
    refine LeavesVector.congr (extmul_i32x4 a b signed high) ?_
    simp [emitExtmul, emitI64x2Extmul, hstack]

theorem emitRelU_leaves (shape : NarrowShape) (op : VRelOp)
    (hstack : m.stack = vecSlots b ++ (vecSlots a ++ stack)) :
    LeavesVector (emitRelU shape op) m stack ((VBinaryInstr.relU shape op).eval a b) := by
  refine LeavesVector.congr (relU_value a b ((VecBin.minu shape.bits).eval b a) shape op) ?_
  cases op <;>
    simp [-NarrowShape.bits, relUValue, emitRelU, emitIrelopMinmax, eval_xor_self, hstack]

theorem emitVBinary_leaves (i : VBinaryInstr)
    (hstack : m.stack = vecSlots b ++ (vecSlots a ++ stack)) :
    (emitVBinary i).Leaves m stack (vecSlots (i.eval a b)) := by
  cases i with
  | shuffle lanes =>
    refine IntCode.straight_leaves rfl ?_
    refine LeavesVector.congr (shuffle_value a b b lanes) ?_
    simp [shuffleControl, emitI8x16Shuffle, hstack]
  | swizzle =>
    refine IntCode.straight_leaves rfl ?_
    refine LeavesVector.congr (swizzle_value a b) ?_
    simp [emitI8x16Swizzle, hstack]
  | relU shape op =>
    refine IntCode.straight_leaves ?_ (emitRelU_leaves shape op hstack)
    cases op <;> rfl
  | q15mulrSatS =>
    refine IntCode.straight_leaves rfl ?_
    refine LeavesVector.congr (q15_value a b (m.xmms 1)) ?_
    simp [emitQ15mulrSatS, hstack]
  | i64x2Mul =>
    refine IntCode.straight_leaves rfl ?_
    refine LeavesVector.congr (i64x2Mul_value a b a) ?_
    simp [emitI64x2Mul, hstack]
  | extmul shape high signed =>
    refine IntCode.straight_leaves ?_ (emitExtmul_leaves shape high signed hstack)
    cases shape <;> cases high <;> rfl

theorem getLsbD_loadBytes (m : Machine) (addr n j : Nat) :
    (m.loadBytes addr n).getLsbD j =
      (decide (j < 8 * n) && (m.memory (addr + j / 8)).toBitVec.getLsbD (j % 8)) := by
  induction n with
  | zero => simp [Machine.loadBytes]
  | succ n ih =>
    rw [Machine.loadBytes, BitVec.getLsbD_cast, BitVec.getLsbD_append, ih]
    rcases Nat.lt_or_ge j (8 * n) with h | h
    · simp [h, show j < 8 * (n + 1) by omega]
    · rw [if_neg (by omega)]
      rcases Nat.lt_or_ge j (8 * (n + 1)) with h' | h'
      · rw [show j / 8 = n by omega, show j % 8 = j - 8 * n by omega]
        simp [h']
      · have hout : (m.memory (addr + n)).toBitVec.getLsbD (j - 8 * n) = false :=
          BitVec.getLsbD_of_ge _ _ (by omega)
        rw [hout]
        simp [show ¬ j < 8 * (n + 1) by omega]

theorem HasPopcnt4.load {table : BitVec 64} (h : HasPopcnt4 m table) :
    m.readableBlock table.toNat 16 = true ∧ m.loadBytes table.toNat 16 = popcntTable := by
  constructor
  · simp only [Machine.readableBlock, List.all_eq_true, List.mem_range]
    exact fun i hi => (h i hi).1
  · apply BitVec.eq_of_getLsbD_eq
    intro j hj
    rw [getLsbD_loadBytes, popcntTable, getLsbD_ofLanes, (h (j / 8) (by omega)).2]

theorem emitVUnary_leaves {table : BitVec 64} (u : VUnaryInstr) (htable : HasPopcnt4 m table)
    (hstack : m.stack = vecSlots a ++ stack) :
    (emitVUnary table u).Leaves m stack (vecSlots (u.eval a)) := by
  cases u with
  | i64x2Abs =>
    refine IntCode.straight_leaves rfl ?_
    refine LeavesVector.congr (abs_value a (m.xmms 1)) ?_
    simp [emitI64x2Abs, hstack]
  | i8x16Popcnt =>
    obtain ⟨hread, hload⟩ := htable.load
    refine IntCode.straight_leaves rfl ?_
    have hbyte : lane 8 (((table.extractLsb' 8 56 ++ 0x0f#8 : BitVec 64).setWidth 32).setWidth 128)
        0 = 0x0f#8 := by
      apply BitVec.eq_of_getLsbD_eq
      intro j hj
      rw [getLsbD_lane, BitVec.getLsbD_setWidth, BitVec.getLsbD_setWidth, BitVec.getLsbD_append]
      simp [hj, show j < 32 by omega, show j < 128 by omega]
    refine LeavesVector.congr (popcnt_value a hbyte) ?_
    simp [emitI8x16Popcnt, Machine.setLow, hstack, hread, hload]

/-- The count in `rax` after the mask. -/
theorem toNat_masked (count : BitVec 32) :
    (count &&& 7#32).toNat = count.toNat % 8 ∧ (count &&& 63#32).toNat = count.toNat % 64 :=
  ⟨Nat.and_two_pow_sub_one_eq_mod _ 3, Nat.and_two_pow_sub_one_eq_mod _ 6⟩

/-- The code of a shift after the pop of its count. -/
def shiftTail : VShiftInstr → List Op
  | .i8x16Shl => emitI8x16Shl
  | .i8x16ShrS => emitI8x16ShrS
  | .i8x16ShrU => emitI8x16ShrU
  | .i64x2ShrS => emitI64x2ShrS

theorem emitVShift_eq (recent : List RecentOp) (i : VShiftInstr) :
    emitVShift recent i = popFirst recent .rax (shiftTail i) := by
  cases i <;> rfl

theorem shiftTail_leaves (i : VShiftInstr) {count : BitVec 32} (hcount : m.regs .rax = slotOf count)
    (hstack : m.stack = vecSlots a ++ stack) :
    LeavesVector (shiftTail i) m stack (i.eval a count) := by
  obtain ⟨hc, hc64⟩ := toNat_masked count
  have hlt : (count &&& 7#32).toNat < 8 := by rw [hc]; omega
  cases i with
  | i8x16Shl =>
    have hvalue := i8x16Shl_value a (m.xmms 1) (count &&& 7#32) hlt
    rw [hc] at hvalue
    refine LeavesVector.congr hvalue ?_
    simp [shiftTail, emitI8x16Shl, immediate_eq, Alu.eval, hcount, hstack]
  | i8x16ShrS =>
    have hvalue := i8x16ShrS_value a (m.xmms 3) (count &&& 7#32) hlt
    rw [hc] at hvalue
    refine LeavesVector.congr hvalue ?_
    simp [shiftTail, emitI8x16ShrS, immediate_eq, Alu.eval, hcount, hstack]
  | i8x16ShrU =>
    have hvalue := i8x16ShrU_value a (m.xmms 1) (count &&& 7#32) hlt
    rw [hc] at hvalue
    refine LeavesVector.congr hvalue ?_
    simp [shiftTail, emitI8x16ShrU, immediate_eq, Alu.eval, hcount, hstack]
  | i64x2ShrS =>
    have hd : (64#32 - (count &&& 63#32)).toNat = 64 - (count &&& 63#32).toNat := by
      rw [BitVec.toNat_sub, hc64]
      simp only [BitVec.toNat_ofNat]
      omega
    have hvalue := i64x2ShrS_value a (m.xmms 2) (count &&& 63#32) (by rw [hc64]; omega) hd
    rw [hc64] at hvalue
    refine LeavesVector.congr hvalue ?_
    simp [shiftTail, emitI64x2ShrS, immediate_eq, Alu.eval, hcount, hstack]

theorem emitVShift_leaves {recent : List RecentOp} (i : VShiftInstr) {count : BitVec 32}
    (h : OperandsAt m stack (emitVShift recent i).folded (slotOf count :: vecSlots a)) :
    (emitVShift recent i).Leaves m stack (vecSlots (i.eval a count)) := by
  rw [emitVShift_eq] at h ⊢
  obtain ⟨m₁, hexec, hpopped⟩ := popOps_exec recent.head? (.inl rfl) h
  obtain ⟨m', htail, hstack⟩ := shiftTail_leaves i hpopped.reg hpopped.stack
  have hrest : SameRest m₁ m' :=
    execOps_sameExcept (by cases i <;> rfl) htail
  have hall : execOps (popOps recent.head? .rax ++ shiftTail i) m = .ok m' := by
    rw [execOps_append, hexec, ok_bind, htail]
  have hrun := Runs.ops (hasOps_map _) hall
  rw [Nat.zero_add, ← List.length_map (Lib.X86.Instr.op (H := JitHandler))] at hrun
  exact ⟨m', hrun, hstack, hpopped.rest.trans hrest⟩

theorem emitI16x8Bitmask_leaves (hstack : m.stack = vecSlots a ++ stack) :
    emitI16x8Bitmask.Leaves m stack [slotOf (i16x8Bitmask a)] := by
  refine IntCode.straight_leaves rfl ?_
  rw [← bitmask_value a (m.xmms 0)]
  -- the mask is computed before the operand is dropped
  obtain ⟨m₁, hmask, hxmm, hstack₁⟩ : ∃ m₁, execOps [emitConstZero 0, .vec₂ (.cmpgt 16) .top 0 1,
      .vec₂ .packsswb (.xmm 0) 1 0] m = .ok m₁ ∧ m₁.xmms 0 = VecBin.packsswb.eval
        ((VecBin.cmpgt 16).eval (VecBin.xor.eval (m.xmms 0) (m.xmms 0)) a)
        (VecBin.xor.eval (m.xmms 0) (m.xmms 0)) ∧ m₁.stack = vecSlots a ++ stack := by
    simp [hstack]
  have hrest : ∃ m', execOps [.addRsp 16, .vpmovmskb 0 .rax, .push .rax] m₁ = .ok m' ∧
      m'.stack = [slotOf (movmskb (m₁.xmms 0))] ++ stack := by
    simp [hstack₁, slotOf]
  obtain ⟨m', hexec, hfinal⟩ := hrest
  rw [hxmm] at hfinal
  refine ⟨m', ?_, hfinal⟩
  exact (execOps_append [emitConstZero 0, _, _] [.addRsp 16, _, _] m).trans
    (by rw [hmask, ok_bind, hexec])

end Execution

theorem extProduct_eq {w : Nat} (hw : 0 < w) (signed : Bool) (a b : BitVec w) :
    extProduct signed a b = extendTo signed (2 * w) a * extendTo signed (2 * w) b := by
  cases signed with
  | true =>
    change BitVec.ofInt (2 * w) (a.toInt * b.toInt) = a.signExtend (2 * w) * b.signExtend (2 * w)
    rw [← toInt_extend_mul a b hw, BitVec.ofInt_toInt]
  | false =>
    change BitVec.ofNat (2 * w) (a.toNat * b.toNat) = a.setWidth (2 * w) * b.setWidth (2 * w)
    rw [← toNat_extend_mul, BitVec.ofNat_toNat, BitVec.setWidth_eq]

theorem abs_eq (x : BitVec 64) :
    (if x.toInt < 0 then BitVec.ofInt 64 (-x.toInt) else x) = if x.msb then -x else x := by
  rw [BitVec.ofInt_neg, BitVec.ofInt_toInt, BitVec.msb_eq_toInt]
  simp

theorem interpVUnary_eq (u : VUnaryInstr) (a : BitVec 128) : interpVUnary a u = u.eval a := by
  cases u with
  | i8x16Popcnt => rfl
  | i64x2Abs => exact ofLanes_congr (n := 2) rfl fun i _ => abs_eq _

theorem interpVRel_eq {w : Nat} (op : VRelOp) (a b : BitVec w) :
    interpVRel a b op = op.eval a b := by
  cases op <;> rfl

theorem q15mulr_eq (a b : BitVec 16) :
    q15mulr a b = satS ((a.toInt * b.toInt + 0x4000) / 2 ^ 15) := by
  rw [← q15_lane, q15mulr]
  generalize BitVec.ofInt 16 ((a.toInt * b.toInt + 0x4000) / 2 ^ 15) = tmp
  by_cases h : tmp = 0x8000#16
  · subst h
    decide
  · simp [h, fill]

/-- Apart from the extended multiplications. -/
theorem interpVBinary_eq (i : VBinaryInstr)
    (hi : ∀ shape high signed, i ≠ .extmul shape high signed)
    (a b : BitVec 128) : interpVBinary a b i = i.eval a b := by
  cases i with
  | shuffle lanes => rfl
  | swizzle => rfl
  | relU shape op =>
    have hones : BitVec.ofInt shape.bits (-1) = BitVec.allOnes shape.bits := by cases shape <;> rfl
    simp only [interpVBinary, VBinaryInstr.eval, v128Binop, zipLanes, interpVRel_eq, fill, hones]
    rfl
  | q15mulrSatS =>
    simp only [interpVBinary, VBinaryInstr.eval, v128Binop, zipLanes, q15mulr_eq]
  | i64x2Mul => rfl
  | extmul shape high signed => exact absurd rfl (hi shape high signed)

theorem interpVShift_eq (i : VShiftInstr) (a : BitVec 128) (count : BitVec 32) :
    interpVShift a count i = i.eval a count := by
  obtain ⟨h8, h64⟩ := toNat_masked count
  cases i with
  | i8x16Shl =>
    refine ofLanes_congr (n := 16) rfl fun i _ => ?_
    change BitVec.ofNat 8 ((lane 8 a i).toNat <<< (count &&& 7#32).toNat) =
      lane 8 a i <<< (count.toNat % 8)
    rw [h8]
    exact BitVec.eq_of_toNat_eq (by simp)
  | i8x16ShrS =>
    refine ofLanes_congr (n := 16) rfl fun i _ => ?_
    change BitVec.ofInt 8 ((lane 8 a i).toInt >>> (count &&& 7#32).toNat) =
      (lane 8 a i).sshiftRight (count.toNat % 8)
    rw [h8, BitVec.sshiftRight_eq]
  | i8x16ShrU =>
    refine ofLanes_congr (n := 16) rfl fun i _ => ?_
    change BitVec.ofNat 8 ((lane 8 a i).toNat >>> (count &&& 7#32).toNat) =
      lane 8 a i >>> (count.toNat % 8)
    rw [h8, ← BitVec.toNat_ushiftRight, BitVec.ofNat_toNat, BitVec.setWidth_eq]
  | i64x2ShrS =>
    refine ofLanes_congr (n := 2) rfl fun i _ => ?_
    change BitVec.ofInt 64 ((lane 64 a i).toInt >>> (count &&& 63#32).toNat) =
      (lane 64 a i).sshiftRight (count.toNat % 64)
    rw [h64, BitVec.sshiftRight_eq]

/-- The bits of the first lanes. -/
theorem getLsbD_bitmaskFold (a : BitVec 128) {n j : Nat} (hn : n ≤ 8) (hj : j < 32) :
    ((List.range n).foldl (fun result i =>
      result ||| (if (lane 16 a i).toInt < 0 then 1#32 else 0#32) <<< i) 0).getLsbD j =
      (decide (j < n) && (lane 16 a j).msb) := by
  induction n with
  | zero => simp
  | succ n ih =>
    rw [List.range_succ, List.foldl_append, List.foldl_cons, List.foldl_nil, BitVec.getLsbD_or,
      ih (by omega), BitVec.getLsbD_shiftLeft, BitVec.msb_eq_toInt]
    rcases Nat.lt_trichotomy j n with h | rfl | h
    · simp [h, show j < n + 1 by omega]
    · by_cases hneg : (lane 16 a j).toInt < 0 <;> simp [hneg, hj]
    · have hout : (if (lane 16 a n).toInt < 0 then 1#32 else 0#32).getLsbD (j - n) = false := by
        split <;> simp [show j - n ≠ 0 by omega]
      simp only [hout, show ¬ j < n by omega, show ¬ j < n + 1 by omega]
      simp

theorem interpBitmask_eq (a : BitVec 128) : interpBitmask a = i16x8Bitmask a := by
  apply BitVec.eq_of_getLsbD_eq
  intro j hj
  have hfold : (interpBitmask a).getLsbD j = (decide (j < 8) && (lane 16 a j).msb) :=
    getLsbD_bitmaskFold a (n := 8) (Nat.le_refl 8) hj
  rw [hfold, i16x8Bitmask, BitVec.getLsbD_setWidth, BitVec.getLsbD_ofBoolListLE]
  by_cases h : j < 8
  · simp [h, hj]
  · simp [h]

/-- What the code of a vector instruction does with its operands, wherever the count of a shift is.
`emit_i8x16_popcnt` reads a static table. -/
def VecCompiles (table : BitVec 64) (c : IntCode) (operands slots : List (BitVec 64)) : Prop :=
  ∀ (m : Machine) (stack : List (BitVec 64)), HasPopcnt4 m table →
    OperandsAt m stack c.folded operands → c.Leaves m stack slots

/-- The lanes that `v128_extmul` reads have the products of those it should read. -/
def SameProducts (shape : NarrowShape) (a b : BitVec 128) : Prop :=
  ∀ k, k < 64 / shape.bits → lane shape.bits a (64 / shape.bits + k) = 0 ∨
    lane shape.bits b k = lane shape.bits b (64 / shape.bits + k)

theorem interpExtmul_eq_iff (shape : NarrowShape) (high signed : Bool) (a b : BitVec 128) :
    interpVBinary a b (.extmul shape high signed) =
      (VBinaryInstr.extmul shape high signed).eval a b ↔
      (high = true → SameProducts shape a b) := by
  have hbits : 0 < shape.bits := by cases shape <;> decide
  have hwidth : 2 * shape.bits * (64 / shape.bits) = 128 := by cases shape <;> rfl
  have hn : 128 / (2 * shape.bits) = 64 / shape.bits := by cases shape <;> rfl
  have hinterp : interpVBinary a b (.extmul shape high signed) = ofLanes (2 * shape.bits) fun k =>
      extendTo signed (2 * shape.bits) (lane shape.bits a (extmulStart shape high + k)) *
        extendTo signed (2 * shape.bits) (lane shape.bits b k) := by
    refine ofLanes_congr hwidth fun k _ => ?_
    rw [← extProduct_eq hbits, extmulStart, hn, Nat.add_comm]
  rw [hinterp, VBinaryInstr.eval]
  cases high with
  | false => simp [extmulStart]
  | true =>
    simp only [extmulStart, if_true, forall_const]
    constructor
    · intro heq k hk
      have hle : 2 * shape.bits * (k + 1) ≤ 128 := hwidth ▸ Nat.mul_le_mul_left _ hk
      have hlane := congrArg (lane (2 * shape.bits) · k) heq
      simp only [lane_ofLanes hle] at hlane
      exact (extend_mul_inj _ _ hbits signed _).mp hlane
    · intro h
      exact ofLanes_congr hwidth fun k hk => (extend_mul_inj _ _ hbits signed _).mpr (h k hk)

theorem visitVBinary_interprets_iff (i : VBinaryInstr) (a b v : BitVec 128) :
    Interprets (visitVBinary i) [.v128 b, .v128 a] (some (.v128 v)) ↔ interpVBinary a b i = v := by
  constructor
  · intro h
    have hrun := h ⟨0, [.v128 b, .v128 a], {}⟩ [] rfl
    simp only [visitVBinary] at hrun
    injection hrun with hst
    injection hst with _ hos
    injection hos with hval
    injection hval
  · rintro rfl st os hos
    have hcons : st.os = .v128 b :: .v128 a :: os := hos
    simp only [visitVBinary, hcons]
    rfl

/-- For all shapes, signs and operands: both backends leave the products of the halves that the
instruction names exactly when these are the lower ones or the lanes that the interpreter reads have
the same products. -/
theorem extmul_correct_iff (shape : NarrowShape) (high signed : Bool) (a b : BitVec 128) :
    (Interprets (visitVBinary (.extmul shape high signed)) [.v128 b, .v128 a]
        (some (.v128 ((VBinaryInstr.extmul shape high signed).eval a b))) ∧
      ∀ (m : Machine) (stack : List (BitVec 64)), m.stack = vecSlots b ++ (vecSlots a ++ stack) →
        (emitVBinary (.extmul shape high signed)).Leaves m stack
          (vecSlots ((VBinaryInstr.extmul shape high signed).eval a b))) ↔
      (high = true → SameProducts shape a b) := by
  rw [visitVBinary_interprets_iff, interpExtmul_eq_iff, and_iff_left_iff_imp]
  intro _ m stack hoperands
  exact emitVBinary_leaves _ hoperands

/-- The second operand is 1 in the upper half only. -/
theorem extmul_high_reads_low_lane :
    ¬ Interprets (visitVBinary (.extmul .i8x16 true false))
      [.v128 (1#128 <<< 64), .v128 (1#128 <<< 64)]
      (some (.v128 ((VBinaryInstr.extmul .i8x16 true false).eval (1#128 <<< 64)
      (1#128 <<< 64)))) := by
  rw [visitVBinary_interprets_iff, interpExtmul_eq_iff]
  intro h
  exact absurd (h rfl 0 (by decide)) (by decide)

/-- A vector instruction with its operands. -/
inductive VecCase where
  | unary (u : VUnaryInstr) (a : BitVec 128)
  | binary (i : VBinaryInstr) (a b : BitVec 128)
  | shift (i : VShiftInstr) (a : BitVec 128) (count : BitVec 32)
  | bitmask (a : BitVec 128)

namespace VecCase

def operator : VecCase → Operator
  | unary u _ => visitVUnary u
  | binary i _ _ => visitVBinary i
  | shift i _ _ => visitVShift i
  | bitmask _ => visitBitmask

def code (table : BitVec 64) (recent : List RecentOp) : VecCase → IntCode
  | unary u _ => emitVUnary table u
  | binary i _ _ => emitVBinary i
  | shift i _ _ => emitVShift recent i
  | bitmask _ => emitI16x8Bitmask

/-- The operands on the interpreter's stack, the last one first. -/
def operands : VecCase → List OperandStackElem
  | unary _ a => [.v128 a]
  | binary _ a b => [.v128 b, .v128 a]
  | shift _ a count => [.i32 count, .v128 a]
  | bitmask a => [.v128 a]

/-- What WebAssembly defines. -/
def result : VecCase → OperandStackElem
  | unary u a => .v128 (u.eval a)
  | binary i a b => .v128 (i.eval a b)
  | shift i a count => .v128 (i.eval a count)
  | bitmask a => .i32 (i16x8Bitmask a)

/-- The slots of a value on the native stack. -/
def slots : OperandStackElem → List (BitVec 64)
  | .i32 v => [slotOf v]
  | .i64 v => [v]
  | .f32 v => [slotOf v]
  | .f64 v => [v]
  | .v128 v => vecSlots v

/-- Both backends leave what WebAssembly defines. -/
def Correct (c : VecCase) : Prop :=
  Interprets c.operator c.operands (some c.result) ∧
    ∀ table recent, VecCompiles table (c.code table recent) (c.operands.flatMap slots)
      (slots c.result)

/-- What the interpreter needs in an extended multiplication of the upper halves. -/
def Condition : VecCase → Prop
  | binary (.extmul shape true _) a b => SameProducts shape a b
  | _ => True

theorem code_leaves (c : VecCase) (table : BitVec 64) (recent : List RecentOp) :
    VecCompiles table (c.code table recent) (c.operands.flatMap slots) (slots c.result) := by
  intro m stack htable h
  cases c with
  | unary u a =>
    refine emitVUnary_leaves u htable ?_
    cases u <;> simpa [code, operands, slots, emitVUnary, IntCode.straight, OperandsAt] using h
  | binary i a b =>
    refine emitVBinary_leaves i ?_
    cases i <;> simpa [code, operands, slots, emitVBinary, IntCode.straight, OperandsAt] using h
  | shift i a count =>
    refine emitVShift_leaves i ?_
    simpa [code, operands, slots] using h
  | bitmask a =>
    refine emitI16x8Bitmask_leaves ?_
    simpa [code, operands, slots, emitI16x8Bitmask, IntCode.straight, OperandsAt] using h

theorem interprets_iff (c : VecCase) :
    Interprets c.operator c.operands (some c.result) ↔ c.Condition := by
  cases c with
  | unary u a =>
    refine iff_of_true (fun st os hos => ?_) trivial
    have hcons : st.os = .v128 a :: os := hos
    simp only [operator, visitVUnary, hcons, interpVUnary_eq]
    rfl
  | binary i a b =>
    refine (visitVBinary_interprets_iff i a b _).trans ?_
    by_cases hi : ∃ shape high signed, i = .extmul shape high signed
    · obtain ⟨shape, high, signed, rfl⟩ := hi
      rw [interpExtmul_eq_iff]
      cases high <;> simp [Condition]
    · have hcond : (binary i a b).Condition := by
        cases i <;> first | trivial | exact absurd ⟨_, _, _, rfl⟩ hi
      exact iff_of_true (interpVBinary_eq i (fun s h g heq => hi ⟨s, h, g, heq⟩) a b) hcond
  | shift i a count =>
    refine iff_of_true (fun st os hos => ?_) trivial
    have hcons : st.os = .i32 count :: .v128 a :: os := hos
    simp only [operator, visitVShift, hcons, interpVShift_eq]
    rfl
  | bitmask a =>
    refine iff_of_true (fun st os hos => ?_) trivial
    have hcons : st.os = .v128 a :: os := hos
    simp only [operator, visitBitmask, hcons, interpBitmask_eq]
    rfl

end VecCase

/-- For every instruction and all operands: the emitted code leaves what WebAssembly
defines, and the interpreter computes it unless an extended multiplication of upper halves
reads other products. -/
theorem vector_instructions_correct_iff (c : VecCase) : c.Correct ↔ c.Condition := by
  rw [VecCase.Correct, c.interprets_iff]
  exact and_iff_left fun table recent => c.code_leaves table recent

/-- The product of the upper halves of `i64x2.extmul_high_i32x4_u`. -/
theorem i64x2_extmul_high_differs :
    ¬ (VecCase.binary (.extmul .i32x4 true false) (1#128 <<< 64) (1#128 <<< 64)).Correct := by
  intro h
  exact absurd (((VecCase.interprets_iff _).mp h.1) 0 (by decide)) (by decide)

end EosVm
