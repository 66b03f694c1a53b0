import EosVm.Source.JitSimd
import Mathlib.Tactic.Linarith
import Mathlib.Tactic.NormNum

/-!
# Values of the vector lowerings

What the emitted vector instructions compute from their operands is what WebAssembly defines, lane
by lane.
-/

set_option autoImplicit false

namespace EosVm

open Lib Lib.X86

section ExtMul

variable (a b : BitVec 128) (signed : Bool)

theorem extmul_i8x16_low :
    (VecBin.mull 16).eval ((VecUn.widen signed 8).eval b) ((VecUn.widen signed 8).eval a) =
      (VBinaryInstr.extmul .i8x16 false signed).eval a b := by
  refine ofLanes_congr (n := 8) rfl fun i hi => ?_
  have hle : 16 * (i + 1) ≤ 128 := by omega
  simp only [VecUn.eval, extmulStart, Nat.zero_add, Bool.false_eq_true, if_false]
  rw [lane_ofLanes hle, lane_ofLanes hle, BitVec.mul_comm]

theorem extmul_i8x16_high :
    (VecBin.mull 16).eval ((VecUn.widen signed 8).eval ((VecUn.srldq 8).eval b))
        ((VecUn.widen signed 8).eval ((VecUn.srldq 8).eval a)) =
      (VBinaryInstr.extmul .i8x16 true signed).eval a b := by
  refine ofLanes_congr (n := 8) rfl fun i hi => ?_
  have hle : 16 * (i + 1) ≤ 128 := by omega
  have hshift : ∀ v : BitVec 128, lane 8 ((VecUn.srldq 8).eval v) i = lane 8 v (8 + i) :=
    fun v => lane_ushiftRight 8
  simp only [VecUn.eval, extmulStart, if_true] at hshift ⊢
  rw [lane_ofLanes hle, lane_ofLanes hle, hshift, hshift, BitVec.mul_comm]
  rfl

theorem extmul_i16x8_low :
    (VecBin.mull 32).eval ((VecUn.widen signed 16).eval a) ((VecUn.widen signed 16).eval b) =
      (VBinaryInstr.extmul .i16x8 false signed).eval a b := by
  refine ofLanes_congr (n := 4) rfl fun i hi => ?_
  have hle : 32 * (i + 1) ≤ 128 := by omega
  simp only [VecUn.eval, extmulStart, Nat.zero_add, Bool.false_eq_true, if_false]
  rw [lane_ofLanes hle, lane_ofLanes hle]

/-- A product from its low and its high half. -/
theorem product_append (x y : BitVec 16) :
    (extendTo signed 32 x * extendTo signed 32 y).extractLsb' 16 16 ++ x * y =
      extendTo signed 32 x * extendTo signed 32 y := by
  have hlow : ∀ z : BitVec 16, (extendTo signed 32 z).setWidth 16 = z := by
    intro z
    cases signed with
    | false => simp [extendTo]
    | true =>
      change (z.signExtend 32).setWidth 16 = z
      apply BitVec.eq_of_getLsbD_eq
      intro i hi
      rw [BitVec.getLsbD_setWidth, BitVec.getLsbD_signExtend]
      simp [hi, show i < 32 by omega]
  have hmul : x * y = (extendTo signed 32 x * extendTo signed 32 y).setWidth 16 := by
    rw [BitVec.setWidth_mul _ _ (by decide), hlow, hlow]
  rw [hmul]
  exact extract_append_setWidth (n := 16) (k := 16) _

theorem lane32_eq_append (v : BitVec 128) (i : Nat) :
    lane 32 v i = lane 16 v (2 * i + 1) ++ lane 16 v (2 * i) := by
  have hhigh : lane 16 v (2 * i + 1) = (lane 32 v i).extractLsb' 16 16 :=
    lane_eq_extract 1 (by decide)
  have hlow : lane 16 v (2 * i) = (lane 32 v i).setWidth 16 := lane_eq_extract 0 (by decide)
  rw [hhigh, hlow]
  exact (extract_append_setWidth (n := 16) (k := 16) _).symm

theorem extmul_i16x8_high :
    (VecBin.unpackh 16).eval ((VecBin.mull 16).eval a b) ((VecBin.mulh signed).eval a b) =
      (VBinaryInstr.extmul .i16x8 true signed).eval a b := by
  refine eq_of_lanes (w := 32) (n := 4) rfl fun i hi => ?_
  have hspec : lane 32 ((VBinaryInstr.extmul .i16x8 true signed).eval a b) i =
      extendTo signed 32 (lane 16 a (4 + i)) * extendTo signed 32 (lane 16 b (4 + i)) :=
    lane_ofLanes (by omega)
  rw [lane32_eq_append, hspec, ← product_append]
  simp only [VecBin.eval]
  rw [lane_ofLanes (by omega), lane_ofLanes (by omega), if_neg (by omega), if_pos (by omega),
    show 64 / 16 + (2 * i + 1) / 2 = 4 + i by omega, show 64 / 16 + 2 * i / 2 = 4 + i by omega,
    lane_zipLanes _ (by omega), lane_zipLanes _ (by omega)]

theorem extmul_i32x4 (high : Bool) :
    (VecBin.muldq signed).eval ((VecUn.shufd (if high then 0x32 else 0x10)).eval a)
        ((VecUn.shufd (if high then 0x32 else 0x10)).eval b) =
      (VBinaryInstr.extmul .i32x4 high signed).eval a b := by
  refine ofLanes_congr (n := 2) rfl fun i hi => ?_
  have hshuf : ∀ v : BitVec 128,
      lane 32 ((VecUn.shufd (if high then 0x32 else 0x10)).eval v) (2 * i) =
        lane 32 v (extmulStart .i32x4 high + i) := by
    intro v
    have horder : (if high then 0x32 else 0x10 : BitVec 8).toNat / 4 ^ (2 * i) % 4 =
        extmulStart .i32x4 high + i := by
      interval_cases i <;> cases high <;> rfl
    simp only [VecUn.eval]
    rw [lane_ofLanes (by omega), horder]
  rw [hshuf, hshuf]
  rfl

end ExtMul

theorem abs_value (a x : BitVec 128) :
    (VecBin.sub 64).eval (VecBin.xor.eval ((VecBin.cmpgt 64).eval (VecBin.xor.eval x x) a) a)
      ((VecBin.cmpgt 64).eval (VecBin.xor.eval x x) a) = VUnaryInstr.i64x2Abs.eval a := by
  refine ofLanes_congr (n := 2) rfl fun i hi => ?_
  rw [eval_xor_self]
  simp (disch := omega) only [lane_eval_xor, lane_eval_cmpgt, lane_zero, BitVec.slt_zero_eq_msb]
  obtain ⟨y, hy⟩ : ∃ y, y = lane 64 a i := ⟨_, rfl⟩
  rw [← hy]
  cases hmsb : y.msb with
  | false => simp [fill]
  | true =>
    have hneg : -y = ~~~ y + 1 := BitVec.neg_eq_not_add y
    simp only [fill, if_true, hneg]
    rw [BitVec.allOnes_xor, ← BitVec.neg_one_eq_allOnes, BitVec.sub_neg]
    rfl

theorem fill_extract {w k : Nat} (c : Bool) {s : Nat} (h : s + k ≤ w) :
    (fill w c).extractLsb' s k = fill k c := by
  cases c with
  | false => simp [fill]
  | true =>
    simp only [fill, if_true]
    apply BitVec.eq_of_getLsbD_eq
    intro i hi
    simp [hi, show s + i < w by omega]

/-- A comparison of bytes with zero inverts the result of a comparison of lanes. -/
theorem cmpeq_zero_fill {k : Nat} {v : BitVec 128} {i : Nat} {c : Bool} (hk : k * 8 * (i + 1) ≤ 128)
    (h : lane (k * 8) v i = fill (k * 8) c) :
    lane (k * 8) ((VecBin.cmpeq 8).eval v 0#128) i = fill (k * 8) (!c) := by
  apply BitVec.eq_of_getLsbD_eq
  intro j hj
  have hbyte : j / 8 < k := by omega
  have hle : 8 * (k * i + j / 8 + 1) ≤ 128 := by
    have hsum : k * 8 * (i + 1) = 8 * (k * i) + 8 * k := by ring
    omega
  have hv : lane 8 v (k * i + j / 8) = fill 8 c := by
    rw [lane_eq_extract (j / 8) hbyte, h, fill_extract c (by omega)]
  rw [getLsbD_lane_mul (by decide) hj, lane_eval_cmpeq hle, hv, lane_zero]
  cases c with
  | false =>
    change (BitVec.allOnes 8).getLsbD (j % 8) = (BitVec.allOnes (k * 8)).getLsbD j
    rw [BitVec.getLsbD_allOnes, BitVec.getLsbD_allOnes]
    simp [hj, Nat.mod_lt]
  | true => simp [fill]

theorem minu_eq {w : Nat} (x y : BitVec w) : ((if y.ult x then y else x) == y) = y.ule x := by
  rw [Bool.eq_iff_iff, beq_iff_eq, BitVec.ule_eq_decide, BitVec.ult_eq_decide]
  simp only [decide_eq_true_eq]
  split
  · simp; omega
  · rw [BitVec.toNat_eq]
    omega

theorem maxu_eq {w : Nat} (x y : BitVec w) : ((if y.ult x then x else y) == y) = x.ule y := by
  rw [Bool.eq_iff_iff, beq_iff_eq, BitVec.ule_eq_decide, BitVec.ult_eq_decide]
  simp only [decide_eq_true_eq]
  split
  · rw [BitVec.toNat_eq]
    omega
  · simp; omega

section Relations

variable (a b x : BitVec 128) (shape : NarrowShape)

/-- The comparison by minimum or maximum without the inversion. -/
theorem lane_minu_cmpeq {i : Nat} (h : shape.bits * (i + 1) ≤ 128) :
    lane shape.bits ((VecBin.cmpeq shape.bits).eval ((VecBin.minu shape.bits).eval b a) b) i =
      fill shape.bits ((lane shape.bits b i).ule (lane shape.bits a i)) := by
  rw [lane_eval_cmpeq h, lane_eval_minu h, minu_eq]

theorem lane_maxu_cmpeq {i : Nat} (h : shape.bits * (i + 1) ≤ 128) :
    lane shape.bits ((VecBin.cmpeq shape.bits).eval ((VecBin.maxu shape.bits).eval b a) b) i =
      fill shape.bits ((lane shape.bits a i).ule (lane shape.bits b i)) := by
  rw [lane_eval_cmpeq h, lane_eval_maxu h, maxu_eq]

theorem lane_relU {op : VRelOp} {i : Nat} (h : shape.bits * (i + 1) ≤ 128) :
    lane shape.bits ((VBinaryInstr.relU shape op).eval a b) i =
      fill shape.bits (op.eval (lane shape.bits a i) (lane shape.bits b i)) :=
  lane_zipLanes _ h

theorem not_ule {w : Nat} (y z : BitVec w) : (!y.ule z) = z.ult y := by
  rw [BitVec.ule_eq_decide, BitVec.ult_eq_decide, ← decide_not]
  exact decide_eq_decide.mpr Nat.not_le

theorem lane_cmpeq_zero {v : BitVec 128} {i : Nat} {c : Bool} (h : shape.bits * (i + 1) ≤ 128)
    (hv : lane shape.bits v i = fill shape.bits c) :
    lane shape.bits ((VecBin.cmpeq 8).eval v (VecBin.xor.eval x x)) i = fill shape.bits (!c) := by
  rw [eval_xor_self]
  cases shape with
  | i8x16 => exact cmpeq_zero_fill (k := 1) h hv
  | i16x8 => exact cmpeq_zero_fill (k := 2) h hv
  | i32x4 => exact cmpeq_zero_fill (k := 4) h hv

/-- The value of an unsigned comparison. -/
def relUValue (a b x : BitVec 128) (shape : NarrowShape) : VRelOp → BitVec 128
  | .ltU =>
    (VecBin.cmpeq 8).eval ((VecBin.cmpeq shape.bits).eval ((VecBin.minu shape.bits).eval b a) b)
      (VecBin.xor.eval x x)
  | .gtU =>
    (VecBin.cmpeq 8).eval ((VecBin.cmpeq shape.bits).eval ((VecBin.maxu shape.bits).eval b a) b)
      (VecBin.xor.eval x x)
  | .leU => (VecBin.cmpeq shape.bits).eval ((VecBin.maxu shape.bits).eval b a) b
  | .geU => (VecBin.cmpeq shape.bits).eval ((VecBin.minu shape.bits).eval b a) b

theorem relU_value (op : VRelOp) :
    relUValue a b x shape op = (VBinaryInstr.relU shape op).eval a b := by
  have hn : shape.bits * (128 / shape.bits) = 128 := by cases shape <;> rfl
  refine eq_of_lanes hn fun i hi => ?_
  have h : shape.bits * (i + 1) ≤ 128 := hn ▸ Nat.mul_le_mul_left _ hi
  rw [lane_relU a b shape h]
  cases op with
  | ltU =>
    refine (lane_cmpeq_zero x shape h (lane_minu_cmpeq a b shape h)).trans ?_
    rw [not_ule]
    rfl
  | gtU =>
    refine (lane_cmpeq_zero x shape h (lane_maxu_cmpeq a b shape h)).trans ?_
    rw [not_ule]
    rfl
  | leU => exact lane_maxu_cmpeq a b shape h
  | geU => exact lane_minu_cmpeq a b shape h

end Relations

/-- `vpmulhrsw` of two lanes. -/
theorem mulhrs_eq (x y : BitVec 16) :
    ((x.signExtend 32 * y.signExtend 32).sshiftRight 14 + 1).extractLsb' 1 16 =
      BitVec.ofInt 16 ((x.toInt * y.toInt + 0x4000) / 2 ^ 15) := by
  have hprod : (x.signExtend 32 * y.signExtend 32).toInt = x.toInt * y.toInt :=
    toInt_extend_mul x y (by decide)
  obtain ⟨p, hp⟩ : ∃ p, p = x.toInt * y.toInt := ⟨_, rfl⟩
  have hshift : (x.signExtend 32 * y.signExtend 32).sshiftRight 14 =
      BitVec.ofInt 32 (p / 2 ^ 14) := by
    rw [BitVec.sshiftRight_eq, hprod, hp, Int.shiftRight_eq_div_pow]
    rfl
  have hsucc : BitVec.ofInt 32 (p / 2 ^ 14) + 1 = BitVec.ofInt 32 (p / 2 ^ 14 + 1) := by
    rw [BitVec.ofInt_add]
    rfl
  rw [hshift, hsucc, ← hp]
  apply BitVec.eq_of_toNat_eq
  rw [BitVec.extractLsb'_toNat, BitVec.toNat_ofInt, BitVec.toNat_ofInt, Nat.shiftRight_eq_div_pow]
  norm_num
  omega

theorem q15_lane (x y : BitVec 16) :
    BitVec.ofInt 16 ((x.toInt * y.toInt + 0x4000) / 2 ^ 15) ^^^
        fill 16 (BitVec.ofInt 16 ((x.toInt * y.toInt + 0x4000) / 2 ^ 15) == 0x8000#16) =
      satS ((x.toInt * y.toInt + 0x4000) / 2 ^ 15) := by
  have hx : -32768 ≤ x.toInt := BitVec.le_toInt x
  have hx' : x.toInt ≤ 32767 := Int.le_of_lt_add_one BitVec.toInt_lt
  have hy : -32768 ≤ y.toInt := BitVec.le_toInt y
  have hy' : y.toInt ≤ 32767 := Int.le_of_lt_add_one BitVec.toInt_lt
  have hprod : -32767 ≤ (x.toInt * y.toInt + 0x4000) / 2 ^ 15 ∧
      (x.toInt * y.toInt + 0x4000) / 2 ^ 15 ≤ 32768 := by
    have hupper : x.toInt * y.toInt ≤ 2 ^ 30 := by nlinarith
    have hlower : -2 ^ 30 + 2 ^ 15 ≤ x.toInt * y.toInt := by
      rcases le_or_gt 0 x.toInt with hsign | hsign
      · nlinarith
      · nlinarith
    omega
  obtain ⟨r, hr⟩ : ∃ r, r = (x.toInt * y.toInt + 0x4000) / 2 ^ 15 := ⟨_, rfl⟩
  rw [← hr] at hprod ⊢
  by_cases hmax : r = 32768
  · rw [hmax]
    decide
  · have hsat : satS r = BitVec.ofInt 16 r := by
      rw [satS]
      congr 1
      omega
    have hne : BitVec.ofInt 16 r ≠ 0x8000#16 := by
      intro h
      have := congrArg BitVec.toInt h
      rw [BitVec.toInt_ofInt, Int.bmod_eq_of_le (by norm_num; omega) (by norm_num; omega)] at this
      simp at this
      omega
    simp [hne, hsat, fill]

theorem q15_value (a b x : BitVec 128) :
    VecBin.xor.eval (VecBin.mulhrs.eval b a)
      ((VecBin.cmpeq 16).eval (VecBin.mulhrs.eval b a)
        ((VecUn.shift .sll 16 15).eval ((VecBin.cmpeq 8).eval x x))) =
      VBinaryInstr.q15mulrSatS.eval a b := by
  refine eq_of_lanes (w := 16) (n := 8) rfl fun i hi => ?_
  have hspec : lane 16 (VBinaryInstr.q15mulrSatS.eval a b) i =
      satS (((lane 16 a i).toInt * (lane 16 b i).toInt + 0x4000) / 2 ^ 15) :=
        lane_zipLanes _ (by omega)
  have hmul : lane 16 (VecBin.mulhrs.eval b a) i =
      BitVec.ofInt 16 (((lane 16 b i).toInt * (lane 16 a i).toInt + 0x4000) / 2 ^ 15) :=
    (lane_zipLanes _ (by omega)).trans (mulhrs_eq _ _)
  have hmask : VecShift.sll.eval (BitVec.allOnes 16) (15 : BitVec 8).toNat = 0x8000#16 := by decide
  rw [hspec, mul_comm, ← q15_lane, lane_eval_xor, lane_eval_cmpeq (by omega),
    lane_eval_shiftImm _ _ (by omega), eval_cmpeq_self rfl, lane_allOnes (by omega), hmul, hmask]

theorem lane64_eq_append (v : BitVec 128) (i : Nat) :
    lane 64 v i = lane 32 v (2 * i + 1) ++ lane 32 v (2 * i) := by
  have hhigh : lane 32 v (2 * i + 1) = (lane 64 v i).extractLsb' 32 32 :=
    lane_eq_extract 1 (by decide)
  have hlow : lane 32 v (2 * i) = (lane 64 v i).setWidth 32 := lane_eq_extract 0 (by decide)
  rw [hhigh, hlow]
  exact (extract_append_setWidth (n := 32) (k := 32) _).symm

/-- A product from the products of the halves. -/
theorem mul_append (ah al bh bl : BitVec 32) :
    al.setWidth 64 * bl.setWidth 64 + ((al * bh + ah * bl) ++ 0#32) = (ah ++ al) * (bh ++ bl) := by
  apply BitVec.eq_of_toNat_eq
  have happend : ∀ h l : BitVec 32, (h ++ l).toNat = h.toNat * 2 ^ 32 + l.toNat := by
    intro h l
    rw [BitVec.toNat_append, Nat.shiftLeft_eq, Nat.mul_comm, ← Nat.two_pow_add_eq_or_of_lt l.isLt]
  have hlow : (al.setWidth 64 * bl.setWidth 64).toNat = al.toNat * bl.toNat :=
    toNat_extend_mul al bl
  rw [BitVec.toNat_add, hlow, happend, BitVec.toNat_mul, happend, happend, BitVec.toNat_add,
    BitVec.toNat_mul, BitVec.toNat_mul]
  have hexpand : (ah.toNat * 2 ^ 32 + al.toNat) * (bh.toNat * 2 ^ 32 + bl.toNat) =
      ah.toNat * bh.toNat * 2 ^ 64 + (al.toNat * bh.toNat + ah.toNat * bl.toNat) * 2 ^ 32 +
        al.toNat * bl.toNat := by ring
  rw [hexpand]
  simp only [BitVec.toNat_ofNat, Nat.zero_mod, Nat.add_zero]
  omega

theorem i64x2Mul_value (a b x : BitVec 128) :
    (VecBin.add 64).eval ((VecBin.muldq false).eval a b)
      ((VecBin.unpackl 32).eval (VecBin.xor.eval x x)
        (VecBin.haddd.eval ((VecBin.mull 32).eval a ((VecUn.shufd 0xb1).eval b))
          ((VecBin.mull 32).eval a ((VecUn.shufd 0xb1).eval b)))) =
      VBinaryInstr.i64x2Mul.eval a b := by
  refine eq_of_lanes (w := 64) (n := 2) rfl fun i hi => ?_
  have hspec : lane 64 (VBinaryInstr.i64x2Mul.eval a b) i = lane 64 a i * lane 64 b i :=
    lane_zipLanes _ (by omega)
  have hlow : lane 64 ((VecBin.muldq false).eval a b) i =
      (lane 32 a (2 * i)).setWidth 64 * (lane 32 b (2 * i)).setWidth 64 := lane_ofLanes (by omega)
  have hcross : ∀ j, j < 4 → lane 32 ((VecBin.mull 32).eval a ((VecUn.shufd 0xb1).eval b)) j =
      lane 32 a j * lane 32 b ((0xb1 : BitVec 8).toNat / 4 ^ j % 4) := by
    intro j hj
    rw [lane_eval_mull (by omega), lane_eval_shufd _ hj]
  have hhadd : ∀ v, lane 32 (VecBin.haddd.eval v v) i = lane 32 v (2 * i) + lane 32 v (2 * i + 1) :=
    fun v => (lane_ofLanes (by omega)).trans (if_pos hi)
  have hunpack : ∀ v, lane 64 ((VecBin.unpackl 32).eval (VecBin.xor.eval x x) v) i =
      lane 32 v i ++ 0#32 := by
    intro v
    have hodd : lane 32 ((VecBin.unpackl 32).eval (VecBin.xor.eval x x) v) (2 * i + 1) =
        lane 32 v i := by
      rw [lane_eval_unpackl (by omega), if_neg (by omega), show (2 * i + 1) / 2 = i by omega]
    have heven : lane 32 ((VecBin.unpackl 32).eval (VecBin.xor.eval x x) v) (2 * i) = 0#32 := by
      rw [eval_xor_self, lane_eval_unpackl (by omega), if_pos (by omega), lane_zero]
    rw [lane64_eq_append, hodd, heven]
  have hswap : (0xb1 : BitVec 8).toNat / 4 ^ (2 * i) % 4 = 2 * i + 1 ∧
      (0xb1 : BitVec 8).toNat / 4 ^ (2 * i + 1) % 4 = 2 * i := by
    interval_cases i <;> decide
  rw [hspec, lane_eval_add (by omega), hlow, hunpack, hhadd, hcross _ (by omega),
    hcross _ (by omega), hswap.1, hswap.2, mul_append, ← lane64_eq_append, ← lane64_eq_append]

section Shifts

variable (a x : BitVec 128) (c : BitVec 32)

/-- The count as the processor reads it. -/
theorem toNat_count : ((c.setWidth 128).setWidth 64).toNat = c.toNat := by
  have hlt := c.isLt
  simp only [BitVec.toNat_setWidth]
  omega

/-- A bit of a byte is a bit of the word it is in. -/
theorem getLsbD_byte (v : BitVec 128) (i : Nat) {j : Nat} (hj : j < 8) :
    (lane 8 v i).getLsbD j = (lane 16 v (i / 2)).getLsbD (8 * (i % 2) + j) :=
  getLsbD_lane_div (k := 2) (by decide) hj

theorem i8x16Shl_value (hc : c.toNat < 8) :
    VecBin.and.eval
      (VecUn.broadcastb.eval
        ((VecBin.shift .sll 32).eval ((VecBin.cmpeq 8).eval x x) (c.setWidth 128)))
      ((VecBin.shift .sll 16).eval a (c.setWidth 128)) = mapLanes 8 (· <<< c.toNat) a := by
  refine eq_of_lanes (w := 8) (n := 16) rfl fun i hi => ?_
  apply BitVec.eq_of_getLsbD_eq
  intro j hj
  have hmask : (lane 8 (VecUn.broadcastb.eval
      ((VecBin.shift .sll 32).eval ((VecBin.cmpeq 8).eval x x) (c.setWidth 128))) i).getLsbD j =
        !decide (j < c.toNat) := by
    have hlow : ∀ v : BitVec 128, (lane 8 v 0).getLsbD j = (lane 32 v 0).getLsbD j := by
      intro v
      have hdiv := getLsbD_lane_div (v := v) (i := 0) (k := 4) (by decide) hj
      rwa [Nat.zero_mod, Nat.mul_zero, Nat.zero_add, Nat.zero_div] at hdiv
    rw [lane_eval_broadcastb hi, hlow, lane_eval_shift _ (by decide), toNat_count,
      eval_cmpeq_self rfl, lane_allOnes (by decide)]
    simp only [VecShift.eval, BitVec.getLsbD_shiftLeft, BitVec.getLsbD_allOnes]
    simp [show j < 32 by omega, show j - c.toNat < 32 by omega]
  rw [lane_eval_and, BitVec.getLsbD_and, hmask, getLsbD_byte _ _ hj, lane_eval_shift _ (by omega),
    toNat_count, lane_mapLanes _ (by omega)]
  simp only [VecShift.eval, BitVec.getLsbD_shiftLeft, getLsbD_lane]
  by_cases h : j < c.toNat
  · simp [h]
  · have hindex : 16 * (i / 2) + (8 * (i % 2) + j - c.toNat) = 8 * i + (j - c.toNat) := by omega
    simp [h, hj, hindex, show 8 * (i % 2) + j < 16 by omega,
      show ¬ 8 * (i % 2) + j < c.toNat by omega, show 8 * (i % 2) + j - c.toNat < 16 by omega,
      show j - c.toNat < 8 by omega]

theorem i8x16ShrU_value (hc : c.toNat < 8) :
    VecBin.andn.eval
      (VecUn.broadcastb.eval
        ((VecBin.shift .srl 16).eval
          ((VecUn.shift .sll 16 8).eval ((VecBin.cmpeq 8).eval x x)) (c.setWidth 128)))
      ((VecBin.shift .srl 16).eval a (c.setWidth 128)) = mapLanes 8 (· >>> c.toNat) a := by
  refine eq_of_lanes (w := 8) (n := 16) rfl fun i hi => ?_
  apply BitVec.eq_of_getLsbD_eq
  intro j hj
  have hmask : (lane 8 (VecUn.broadcastb.eval
      ((VecBin.shift .srl 16).eval
        ((VecUn.shift .sll 16 8).eval ((VecBin.cmpeq 8).eval x x)) (c.setWidth 128))) i).getLsbD j =
        decide (8 ≤ c.toNat + j) := by
    have himm : (8 : BitVec 8).toNat = 8 := rfl
    rw [lane_eval_broadcastb hi, getLsbD_byte _ _ hj, Nat.zero_mod, Nat.mul_zero, Nat.zero_add,
      Nat.zero_div, lane_eval_shift _ (by decide), toNat_count, lane_eval_shiftImm _ _ (by decide),
      eval_cmpeq_self rfl, lane_allOnes (by decide), himm]
    simp only [VecShift.eval, BitVec.getLsbD_ushiftRight, BitVec.getLsbD_shiftLeft,
      BitVec.getLsbD_allOnes]
    by_cases h : 8 ≤ c.toNat + j
    · simp [h, show c.toNat + j < 16 by omega, show c.toNat + j - 8 < 16 by omega]
    · simp [h, show c.toNat + j < 8 by omega]
  rw [lane_eval_andn (by omega), BitVec.getLsbD_and, BitVec.getLsbD_not, hmask, getLsbD_byte _ _ hj,
    lane_eval_shift _ (by omega), toNat_count, lane_mapLanes _ (by omega)]
  simp only [VecShift.eval, BitVec.getLsbD_ushiftRight, getLsbD_lane]
  by_cases h : 8 ≤ c.toNat + j
  · simp [h]
  · have hindex : 16 * (i / 2) + (c.toNat + (8 * (i % 2) + j)) = 8 * i + (c.toNat + j) := by omega
    simp [h, hj, hindex, show c.toNat + (8 * (i % 2) + j) < 16 by omega,
      show c.toNat + j < 8 by omega]

/-- The word from which both bytes are shifted: the high byte from where the shift reads it, the low
byte extended by its sign below that. -/
theorem getLsbD_prepared {n t : Nat} (y : BitVec 16) (hn : n < 8) (ht : t < 16) :
    (y &&& BitVec.allOnes 16 <<< 8 <<< n |||
        ~~~ (BitVec.allOnes 16 <<< 8 <<< n) &&& (y <<< 8).sshiftRight 8).getLsbD t =
      y.getLsbD (if 8 + n ≤ t then t else min t 7) := by
  simp only [BitVec.getLsbD_or, BitVec.getLsbD_and, BitVec.getLsbD_not, BitVec.getLsbD_shiftLeft,
    BitVec.getLsbD_allOnes, BitVec.getLsbD_sshiftRight, BitVec.msb_eq_getLsbD_last]
  rcases Nat.lt_or_ge t 8 with h8 | h8
  · simp [ht, show ¬ 8 + n ≤ t by omega, show t - n < 8 by omega, show 8 + t < 16 by omega,
      show min t 7 = t by omega]
  · rcases Nat.lt_or_ge t (8 + n) with hlow | hhigh
    · simp [ht, show ¬ 8 + n ≤ t by omega, show t - n < 8 by omega, show ¬ 8 + t < 16 by omega,
        show min t 7 = 7 by omega]
    · simp [ht, hhigh, show ¬ t - n < 8 by omega, show ¬ t < n by omega, show t - n < 16 by omega,
        show t - n - 8 < 16 by omega]

theorem i8x16ShrS_value (hc : c.toNat < 8) :
    (VecBin.shift .sra 16).eval
      (VecBin.or.eval
        (VecBin.and.eval a
          ((VecBin.shift .sll 16).eval
            ((VecUn.shift .sll 16 8).eval ((VecBin.cmpeq 8).eval x x)) (c.setWidth 128)))
        (VecBin.andn.eval
          ((VecBin.shift .sll 16).eval
            ((VecUn.shift .sll 16 8).eval ((VecBin.cmpeq 8).eval x x)) (c.setWidth 128))
          ((VecUn.shift .sra 16 8).eval ((VecUn.shift .sll 16 8).eval a))))
      (c.setWidth 128) = mapLanes 8 (BitVec.sshiftRight · c.toNat) a := by
  refine eq_of_lanes (w := 8) (n := 16) rfl fun i hi => ?_
  apply BitVec.eq_of_getLsbD_eq
  intro j hj
  have himm : (8 : BitVec 8).toNat = 8 := rfl
  have hle : 16 * (i / 2 + 1) ≤ 128 := by omega
  have hbyte : ∀ t, t < 8 → (lane 8 a i).getLsbD t =
      (lane 16 a (i / 2)).getLsbD (8 * (i % 2) + t) :=
    fun t ht => getLsbD_byte a i ht
  rw [getLsbD_byte _ _ hj, lane_eval_shift _ hle, lane_eval_or, lane_eval_and, lane_eval_andn hle,
    lane_eval_shift _ hle, lane_eval_shiftImm _ _ hle, lane_eval_shiftImm _ _ hle,
    lane_eval_shiftImm _ _ hle, eval_cmpeq_self rfl, lane_allOnes hle, toNat_count, himm,
    lane_mapLanes _ (by omega)]
  simp only [VecShift.eval]
  have hbits := fun (t : Nat) (ht : t < 16) => getLsbD_prepared (lane 16 a (i / 2)) hc ht
  generalize (_ ||| _ : BitVec 16) = v at hbits ⊢
  rw [BitVec.getLsbD_sshiftRight, BitVec.getLsbD_sshiftRight, BitVec.msb_eq_getLsbD_last,
    BitVec.msb_eq_getLsbD_last, hbits 15 (by decide), hbyte 7 (by decide)]
  rcases Nat.mod_two_eq_zero_or_one i with hpar | hpar
  · rcases Nat.lt_or_ge (c.toNat + j) 8 with h | h
    · rw [hpar, if_pos (by omega), if_pos h, hbits _ (by omega), hbyte _ h, hpar, if_neg (by omega)]
      simp [hj, show ¬ 16 ≤ j by omega, show min (c.toNat + j) 7 = c.toNat + j by omega]
    · rw [hpar, if_pos (by omega), if_neg (by omega), hbits _ (by omega), if_neg (by omega)]
      simp [hj, show ¬ 16 ≤ j by omega, show min (c.toNat + j) 7 = 7 by omega]
  · rcases Nat.lt_or_ge (c.toNat + j) 8 with h | h
    · rw [hpar, if_pos (by omega), if_pos h, hbits _ (by omega), hbyte _ h, hpar, if_pos (by omega)]
      simp [hj, show ¬ 16 ≤ 8 + j by omega, show c.toNat + (8 + j) = 8 + (c.toNat + j) by omega]
    · simp [hpar, show ¬ 16 ≤ 8 + j by omega, show ¬ 8 ≤ j by omega,
        show ¬ c.toNat + (8 + j) < 16 by omega, show ¬ c.toNat + j < 8 by omega,
        show 8 + c.toNat ≤ 15 by omega]

/-- The sign fills what the logical shift leaves free. -/
theorem sshiftRight_eq_or {n : Nat} (y : BitVec 64) (hn : n < 64) :
    fill 64 y.msb <<< (64 - n) ||| y >>> n = y.sshiftRight n := by
  apply BitVec.eq_of_getLsbD_eq
  intro j hj
  rw [BitVec.getLsbD_or, BitVec.getLsbD_shiftLeft, BitVec.getLsbD_ushiftRight,
    BitVec.getLsbD_sshiftRight]
  rcases Nat.lt_or_ge (n + j) 64 with h | h
  · simp [hj, h, show j < 64 - n by omega]
  · have hout : y.getLsbD (n + j) = false := BitVec.getLsbD_of_ge y _ h
    have hfill : (fill 64 y.msb).getLsbD (j - (64 - n)) = y.msb := by
      cases y.msb with
      | false => simp [fill]
      | true =>
        change (BitVec.allOnes 64).getLsbD _ = true
        rw [BitVec.getLsbD_allOnes]
        simp
        omega
    simp [hj, hout, hfill, show ¬ j < 64 - n by omega, show ¬ n + j < 64 by omega]

theorem i64x2ShrS_value {d : BitVec 32} (hc : c.toNat < 64) (hd : d.toNat = 64 - c.toNat) :
    VecBin.or.eval
      ((VecBin.shift .sll 64).eval ((VecBin.cmpgt 64).eval (VecBin.xor.eval x x) a)
      (d.setWidth 128))
      ((VecBin.shift .srl 64).eval a (c.setWidth 128)) =
      mapLanes 64 (BitVec.sshiftRight · c.toNat) a := by
  refine eq_of_lanes (w := 64) (n := 2) rfl fun i hi => ?_
  have hle : 64 * (i + 1) ≤ 128 := by omega
  rw [lane_mapLanes _ hle, lane_eval_or, lane_eval_shift _ hle, lane_eval_shift _ hle,
    lane_eval_cmpgt hle, eval_xor_self, lane_zero, BitVec.slt_zero_eq_msb, toNat_count, toNat_count,
    hd, ← sshiftRight_eq_or _ hc]
  rfl

end Shifts

section Bytes

variable (a b x : BitVec 128)

/-- The bytes of a constant that is copied to every doubleword. -/
theorem lane_bias {i : Nat} (hi : i < 16) :
    lane 8 ((VecUn.shufd 0).eval ((0x70707070#32).setWidth 128)) i = 0x70#8 := by
  have hword : ∀ j, j < 4 → lane 32 ((VecUn.shufd 0).eval ((0x70707070#32).setWidth 128)) j =
      0x70707070#32 := by
    intro j hj
    rw [lane_eval_shufd _ hj]
    have hzero : (0 : BitVec 8).toNat / 4 ^ j % 4 = 0 := by simp
    rw [hzero]
    rfl
  have hbyte := lane_eq_extract (v := (VecUn.shufd 0).eval ((0x70707070#32).setWidth 128)) (w := 8)
    (k := 4) (i := i / 4) (i % 4) (Nat.mod_lt _ (by decide))
  rw [Nat.div_add_mod] at hbyte
  rw [hbyte, hword _ (by omega)]
  have : i % 4 < 4 := Nat.mod_lt _ (by decide)
  interval_cases i % 4 <;> rfl

theorem swizzle_lane (y : BitVec 8) :
    ((if 2 ^ 8 ≤ y.toNat + (0x70#8).toNat then BitVec.allOnes 8 else y + 0x70#8).msb =
        decide (16 ≤ y.toNat)) ∧
      (y.toNat < 16 →
        (if 2 ^ 8 ≤ y.toNat + (0x70#8).toNat then BitVec.allOnes 8
          else y + 0x70#8).toNat % 16 = y.toNat) := by
  have hlt := y.isLt
  have h70 : (0x70#8).toNat = 112 := rfl
  rw [h70]
  constructor
  · split
    next h =>
      have h16 : 16 ≤ y.toNat := by omega
      rw [decide_eq_true h16]
      rfl
    next h =>
      rw [BitVec.msb_eq_decide, BitVec.toNat_add, h70]
      exact decide_eq_decide.mpr (by omega)
  · intro h16
    rw [if_neg (by omega), BitVec.toNat_add, h70]
    omega

theorem swizzle_value :
    VecBin.shufb.eval a
      ((VecBin.addus 8).eval b ((VecUn.shufd 0).eval ((0x70707070#32).setWidth 128))) =
      VBinaryInstr.swizzle.eval a b := by
  refine eq_of_lanes (w := 8) (n := 16) rfl fun i hi => ?_
  have hspec : lane 8 (VBinaryInstr.swizzle.eval a b) i =
      if (lane 8 b i).toNat < 16 then lane 8 a (lane 8 b i).toNat else 0 := lane_ofLanes (by omega)
  obtain ⟨hmsb, hindex⟩ := swizzle_lane (lane 8 b i)
  rw [hspec, lane_eval_shufb hi, lane_eval_addus (by omega), lane_bias hi, hmsb]
  by_cases h16 : (lane 8 b i).toNat < 16
  · rw [hindex h16]
    simp [h16]
  · simp [h16]

/-- The control bytes of a shuffle. -/
def shuffleControl (lanes : Fin 16 → Fin 32) : BitVec 128 :=
  shuffleOperand lanes 8 ++ ((shuffleOperand lanes 0).setWidth 128).setWidth 64

theorem lane_shuffleControl (lanes : Fin 16 → Fin 32) {i : Nat} (hi : i < 16) :
    lane 8 (shuffleControl lanes) i = shuffleByte (lanes (Fin.ofNat 16 i)) := by
  have hoperand : ∀ start t, t < 64 → (shuffleOperand lanes start).getLsbD t =
      (shuffleByte (lanes (Fin.ofNat 16 (start + t / 8)))).getLsbD (t % 8) := by
    intro start t ht
    rw [shuffleOperand, BitVec.getLsbD_setWidth, getLsbD_ofLanes]
    simp [ht, show t < 128 by omega]
  apply BitVec.eq_of_getLsbD_eq
  intro j hj
  rw [getLsbD_lane, shuffleControl, BitVec.getLsbD_append, BitVec.getLsbD_setWidth,
    BitVec.getLsbD_setWidth]
  rcases Nat.lt_or_ge i 8 with h | h
  · rw [if_pos (by omega), hoperand _ _ (by omega), show 0 + (8 * i + j) / 8 = i by omega,
      show (8 * i + j) % 8 = j by omega]
    simp [hj, show 8 * i + j < 64 by omega, show 8 * i + j < 128 by omega]
  · rw [if_neg (by omega), hoperand _ _ (by omega), show 8 + (8 * i + j - 64) / 8 = i by omega,
      show (8 * i + j - 64) % 8 = j by omega]
    simp [hj]

theorem shuffleByte_spec (l : Fin 32) :
    ((shuffleByte l).msb = decide (l.val < 16)) ∧
      ((shuffleByte l ^^^ BitVec.allOnes 8).msb = !decide (l.val < 16)) ∧
      (l.val < 16 → (shuffleByte l ^^^ BitVec.allOnes 8).toNat % 16 = l.val) ∧
      (¬ l.val < 16 → (shuffleByte l).toNat % 16 = l.val - 16) := by
  revert l
  decide

theorem shuffle_value (lanes : Fin 16 → Fin 32) :
    VecBin.or.eval
      (VecBin.shufb.eval a
        (VecBin.xor.eval (shuffleControl lanes) ((VecBin.cmpeq 8).eval x x)))
      (VecBin.shufb.eval b (shuffleControl lanes)) = (VBinaryInstr.shuffle lanes).eval a b := by
  refine eq_of_lanes (w := 8) (n := 16) rfl fun i hi => ?_
  obtain ⟨l, hl⟩ : ∃ l, l = lanes (Fin.ofNat 16 i) := ⟨_, rfl⟩
  have hspec : lane 8 ((VBinaryInstr.shuffle lanes).eval a b) i =
      if l.val < 16 then lane 8 a l else lane 8 b (l - 16) := by
    rw [hl]
    exact lane_ofLanes (by omega)
  obtain ⟨hmsb, hmsb', hlow, hhigh⟩ := shuffleByte_spec l
  rw [hspec, lane_eval_or, lane_eval_shufb hi, lane_eval_shufb hi, lane_eval_xor,
    lane_shuffleControl lanes hi, eval_cmpeq_self rfl, lane_allOnes (by omega), ← hl, hmsb, hmsb']
  by_cases h16 : l.val < 16
  · rw [hlow h16]
    simp [h16]
  · rw [hhigh h16]
    simp [h16]

end Bytes

/-- The table as a vector. -/
def popcntTable : BitVec 128 := ofLanes 8 fun i => BitVec.ofNat 8 (popcnt4.getD i 0)

theorem popcnt_lane (y : BitVec 8) :
    BitVec.ofNat 8 (popcnt4.getD ((y >>> 4).toNat % 16) 0) +
      BitVec.ofNat 8 (popcnt4.getD ((y &&& 0x0f#8).toNat % 16) 0) = y.cpop := by
  obtain ⟨y⟩ := y
  revert y
  decide +kernel

/-- The high nibbles, by a shift of quadwords. -/
theorem lane_high_nibble (a : BitVec 128) {i : Nat} (hi : i < 16) :
    lane 8 ((VecUn.shift .srl 64 4).eval a) i &&& 0x0f#8 = lane 8 a i >>> 4 := by
  apply BitVec.eq_of_getLsbD_eq
  intro j hj
  have himm : (4 : BitVec 8).toNat = 4 := rfl
  have hmask : (0x0f#8).getLsbD j = decide (j < 4) := by
    interval_cases j <;> rfl
  have hbyte := getLsbD_lane_div (v := (VecUn.shift .srl 64 4).eval a) (i := i) (k := 8)
    (by decide) hj
  rw [BitVec.getLsbD_and, hmask, hbyte, lane_eval_shiftImm _ _ (by omega), himm,
    BitVec.getLsbD_ushiftRight]
  simp only [VecShift.eval, BitVec.getLsbD_ushiftRight, getLsbD_lane]
  have hindex : 8 * 8 * (i / 8) + (4 + (8 * (i % 8) + j)) = 8 * i + (4 + j) := by omega
  by_cases h : j < 4
  · simp [h, hindex, show 4 + (8 * (i % 8) + j) < 64 by omega, show 4 + j < 8 by omega]
  · simp [h]
    omega

/-- A lookup of a nibble in the table. -/
theorem lane_table {v : BitVec 128} {i : Nat} (hi : i < 16) {y : BitVec 8}
    (hv : lane 8 v i = y) (hmsb : y.msb = false) :
    lane 8 (VecBin.shufb.eval popcntTable v) i =
      BitVec.ofNat 8 (popcnt4.getD (y.toNat % 16) 0) := by
  have hle : 8 * (y.toNat % 16 + 1) ≤ 128 := by omega
  rw [lane_eval_shufb hi, hv, hmsb, popcntTable, lane_ofLanes hle]
  rfl

theorem popcnt_value (a : BitVec 128) {v : BitVec 128} (hv : lane 8 v 0 = 0x0f#8) :
    (VecBin.add 8).eval
      (VecBin.shufb.eval popcntTable
        (VecBin.and.eval ((VecUn.shift .srl 64 4).eval a) (VecUn.broadcastb.eval v)))
      (VecBin.shufb.eval popcntTable (VecBin.and.eval a (VecUn.broadcastb.eval v))) =
      VUnaryInstr.i8x16Popcnt.eval a := by
  refine eq_of_lanes (w := 8) (n := 16) rfl fun i hi => ?_
  have hspec : lane 8 (VUnaryInstr.i8x16Popcnt.eval a) i = (lane 8 a i).cpop :=
    lane_mapLanes _ (by omega)
  have hlow : lane 8 (VecBin.and.eval a (VecUn.broadcastb.eval v)) i = lane 8 a i &&& 0x0f#8 := by
    rw [lane_eval_and, lane_eval_broadcastb hi, hv]
  have hhigh : lane 8 (VecBin.and.eval ((VecUn.shift .srl 64 4).eval a)
      (VecUn.broadcastb.eval v)) i = lane 8 a i >>> 4 := by
    rw [lane_eval_and, lane_eval_broadcastb hi, hv, lane_high_nibble a hi]
  have hmsb : ∀ y : BitVec 8, (y &&& 0x0f#8).msb = false ∧ (y >>> 4).msb = false := by
    intro y
    constructor
    · rw [BitVec.msb_and, show (0x0f#8).msb = false from rfl, Bool.and_false]
    · rw [BitVec.msb_ushiftRight]
      rfl
  rw [hspec, lane_eval_add (by omega), lane_table hi hhigh (hmsb _).2,
    lane_table hi hlow (hmsb _).1, popcnt_lane]

theorem bitmask_value (a x : BitVec 128) :
    movmskb (VecBin.packsswb.eval ((VecBin.cmpgt 16).eval (VecBin.xor.eval x x) a)
      (VecBin.xor.eval x x)) = i16x8Bitmask a := by
  have hlane : ∀ i, i < 16 → (lane 8 (VecBin.packsswb.eval
      ((VecBin.cmpgt 16).eval (VecBin.xor.eval x x) a) (VecBin.xor.eval x x)) i).msb =
        (decide (i < 8) && (lane 16 a i).msb) := by
    intro i hi
    have hpack : lane 8 (VecBin.packsswb.eval ((VecBin.cmpgt 16).eval (VecBin.xor.eval x x) a)
        (VecBin.xor.eval x x)) i = saturate (if i < 8 then
          lane 16 ((VecBin.cmpgt 16).eval (VecBin.xor.eval x x) a) i
            else lane 16 (VecBin.xor.eval x x) (i - 8)) := lane_ofLanes (by omega)
    rw [hpack, eval_xor_self]
    by_cases h : i < 8
    · rw [if_pos h, lane_eval_cmpgt (by omega), lane_zero, BitVec.slt_zero_eq_msb]
      cases (lane 16 a i).msb <;> simp [h] <;> decide
    · rw [if_neg h, lane_zero]
      simp [h]
      decide
  apply BitVec.eq_of_getLsbD_eq
  intro j hj
  rw [movmskb, i16x8Bitmask, BitVec.getLsbD_setWidth, BitVec.getLsbD_setWidth,
    BitVec.getLsbD_ofBoolListLE, BitVec.getLsbD_ofBoolListLE]
  rcases Nat.lt_or_ge j 16 with h16 | h16
  · have hfirst : ((List.range 16).map fun i => (lane 8 (VecBin.packsswb.eval
        ((VecBin.cmpgt 16).eval (VecBin.xor.eval x x) a) (VecBin.xor.eval x x)) i).msb).getD j
          false =
          (decide (j < 8) && (lane 16 a j).msb) := by
      rw [← hlane j h16]
      simp [h16]
    rw [hfirst]
    by_cases h8 : j < 8
    · simp [h8]
    · simp [h8]
  · simp [show ¬ j < 16 by omega, show ¬ j < 8 by omega]

end EosVm
