import Mathlib.Algebra.Order.Ring.Int
import Mathlib.Algebra.Order.Ring.Abs
import Mathlib.Data.BitVec
import Mathlib.Tactic.IntervalCases
import Mathlib.Tactic.Ring

/-!
# Vectors of 128 bits and their lanes

A vector is read as lanes of `w` bits, the lowest first, and is determined by them. Lanes of two
widths are related by splitting the wider ones.
-/

set_option autoImplicit false

namespace EosVm.Lib

/-- The sixteen byte lanes, and as many vector registers, are numbered by `Fin 16`. Lean would build
this instance anew wherever it is needed, as a proof that is named after its first use; with a name
of its own, literals of `Fin 16` are the same term in every module. -/
instance neZeroSixteen : NeZero 16 := ⟨by decide⟩

/-- Lane `i` of width `w`. -/
def lane (w : Nat) (v : BitVec 128) (i : Nat) : BitVec w := v.extractLsb' (w * i) w

/-- The vector with the given lanes. -/
@[irreducible] def ofLanes (w : Nat) (f : Nat → BitVec w) : BitVec 128 :=
  (BitVec.ofBoolListLE ((List.range 128).map fun j => (f (j / w)).getLsbD (j % w))).setWidth 128

/-- Extends by the sign or with zeros. -/
def extendTo {w : Nat} (signed : Bool) (n : Nat) (a : BitVec w) : BitVec n :=
  if signed then a.signExtend n else a.setWidth n

def mapLanes (w : Nat) (f : BitVec w → BitVec w) (a : BitVec 128) : BitVec 128 :=
  ofLanes w fun i => f (lane w a i)

def zipLanes (w : Nat) (f : BitVec w → BitVec w → BitVec w) (a b : BitVec 128) : BitVec 128 :=
  ofLanes w fun i => f (lane w a i) (lane w b i)

/-- The result of a comparison fills its lane. -/
def fill (w : Nat) (c : Bool) : BitVec w := if c then BitVec.allOnes w else 0#w

section Lanes

variable {w : Nat} {f g : Nat → BitVec w} {v v' : BitVec 128} {i : Nat}

theorem getLsbD_lane (j : Nat) :
    (lane w v i).getLsbD j = (decide (j < w) && v.getLsbD (w * i + j)) :=
  BitVec.getLsbD_extractLsb' ..

theorem getLsbD_ofLanes (j : Nat) :
    (ofLanes w f).getLsbD j = (decide (j < 128) && (f (j / w)).getLsbD (j % w)) := by
  unfold ofLanes
  rw [BitVec.getLsbD_setWidth, BitVec.getLsbD_ofBoolListLE]
  by_cases hj : j < 128
  · simp [hj]
  · simp [hj]

theorem lane_ofLanes (h : w * (i + 1) ≤ 128) : lane w (ofLanes w f) i = f i := by
  apply BitVec.eq_of_getLsbD_eq
  intro j hj
  have hlt : w * i + j < 128 := by
    rw [Nat.mul_succ] at h
    omega
  rw [getLsbD_lane, getLsbD_ofLanes, Nat.mul_add_div (by omega), Nat.div_eq_of_lt hj, Nat.add_zero,
    Nat.mul_add_mod, Nat.mod_eq_of_lt hj]
  simp [hj, hlt]

/-- A vector is its lanes. -/
theorem eq_of_lanes {n : Nat} (hw : w * n = 128) (h : ∀ i, i < n → lane w v i = lane w v' i) :
    v = v' := by
  have hpos : 0 < w := by
    rcases Nat.eq_zero_or_pos w with rfl | hpos
    · simp at hw
    · exact hpos
  apply BitVec.eq_of_getLsbD_eq
  intro j hj
  have hi : j / w < n := by
    rw [Nat.div_lt_iff_lt_mul hpos, Nat.mul_comm, hw]
    exact hj
  have hbit := congrArg (·.getLsbD (j % w)) (h (j / w) hi)
  simp only [getLsbD_lane, Nat.mod_lt _ hpos, decide_true, Bool.true_and, Nat.div_add_mod] at hbit
  exact hbit

theorem ofLanes_congr {n : Nat} (hw : w * n = 128) (h : ∀ i, i < n → f i = g i) :
    ofLanes w f = ofLanes w g := by
  refine eq_of_lanes hw fun i hi => ?_
  have hle : w * (i + 1) ≤ 128 := hw ▸ Nat.mul_le_mul_left w hi
  rw [lane_ofLanes hle, lane_ofLanes hle, h i hi]

/-- A part of a lane is a lane. -/
theorem lane_eq_extract {k : Nat} (j : Nat) (hj : j < k) :
    lane w v (k * i + j) = (lane (k * w) v i).extractLsb' (w * j) w := by
  apply BitVec.eq_of_getLsbD_eq
  intro b hb
  have hlt : w * j + b < k * w := by
    have hle : w * (j + 1) ≤ w * k := Nat.mul_le_mul_left w hj
    rw [Nat.mul_succ, Nat.mul_comm w k] at hle
    omega
  rw [getLsbD_lane, BitVec.getLsbD_extractLsb', getLsbD_lane]
  simp only [hb, hlt, decide_true, Bool.true_and]
  congr 1
  ring

/-- A bit of a lane is a bit of the narrower lane it is in. -/
theorem getLsbD_lane_mul {k j : Nat} (hw : 0 < w) (hj : j < k * w) :
    (lane (k * w) v i).getLsbD j = (lane w v (k * i + j / w)).getLsbD (j % w) := by
  rw [getLsbD_lane, getLsbD_lane]
  have hindex : w * (k * i + j / w) + j % w = k * w * i + j := by
    rw [Nat.mul_add, Nat.add_assoc, Nat.div_add_mod]
    ring
  simp [hj, Nat.mod_lt _ hw, hindex]

/-- The other way round. -/
theorem getLsbD_lane_div {k j : Nat} (hk : 0 < k) (hj : j < w) :
    (lane w v i).getLsbD j = (lane (k * w) v (i / k)).getLsbD (w * (i % k) + j) := by
  have hlt : w * (i % k) + j < k * w := by
    have hle : w * (i % k + 1) ≤ w * k := Nat.mul_le_mul_left w (Nat.mod_lt i hk)
    rw [Nat.mul_succ, Nat.mul_comm w k] at hle
    omega
  have hindex : k * w * (i / k) + (w * (i % k) + j) = w * i + j := by
    have hsplit : w * (k * (i / k) + i % k) = w * i := by rw [Nat.div_add_mod]
    rw [← hsplit]
    ring
  rw [getLsbD_lane, getLsbD_lane, hindex]
  simp [hj, hlt]

theorem lane_mapLanes (f : BitVec w → BitVec w) (h : w * (i + 1) ≤ 128) :
    lane w (mapLanes w f v) i = f (lane w v i) :=
  lane_ofLanes h

theorem lane_zipLanes (f : BitVec w → BitVec w → BitVec w) (h : w * (i + 1) ≤ 128) :
    lane w (zipLanes w f v v') i = f (lane w v i) (lane w v' i) :=
  lane_ofLanes h

/-- A shift by whole lanes. -/
theorem lane_ushiftRight (n : Nat) : lane w (v >>> (w * n)) i = lane w v (n + i) := by
  apply BitVec.eq_of_getLsbD_eq
  intro j hj
  rw [getLsbD_lane, getLsbD_lane, BitVec.getLsbD_ushiftRight, Nat.mul_add, Nat.add_assoc]

theorem lane_and : lane w (v &&& v') i = lane w v i &&& lane w v' i := BitVec.extractLsb'_and

theorem lane_or : lane w (v ||| v') i = lane w v i ||| lane w v' i := BitVec.extractLsb'_or

theorem lane_xor : lane w (v ^^^ v') i = lane w v i ^^^ lane w v' i := BitVec.extractLsb'_xor

theorem lane_not (h : w * (i + 1) ≤ 128) : lane w (~~~ v) i = ~~~ lane w v i := by
  apply BitVec.eq_of_getLsbD_eq
  intro j hj
  have hlt : w * i + j < 128 := by
    rw [Nat.mul_succ] at h
    omega
  rw [getLsbD_lane, BitVec.getLsbD_not, BitVec.getLsbD_not, getLsbD_lane]
  simp [hj, hlt]

theorem lane_zero : lane w 0#128 i = 0#w := by
  simp [lane]

theorem lane_allOnes (h : w * (i + 1) ≤ 128) :
    lane w (BitVec.allOnes 128) i = BitVec.allOnes w := by
  rw [← BitVec.not_zero, lane_not h, lane_zero, BitVec.not_zero]

end Lanes

section Products

variable {w : Nat} (a b : BitVec w)

theorem toInt_extend_mul (hw : 0 < w) :
    (a.signExtend (2 * w) * b.signExtend (2 * w)).toInt = a.toInt * b.toInt := by
  have hbound : ∀ x : BitVec w, |x.toInt| ≤ 2 ^ (w - 1) := by
    intro x
    have hle := BitVec.le_toInt x
    have hlt := BitVec.toInt_lt (x := x)
    rw [abs_le]
    omega
  have hpow : (2 : Int) ^ (2 * w) = 4 * (2 ^ (w - 1) * 2 ^ (w - 1)) := by
    obtain ⟨k, rfl⟩ := Nat.exists_eq_add_of_lt hw
    simp only [Nat.zero_add, Nat.add_sub_cancel]
    ring
  have hprod : |a.toInt * b.toInt| ≤ 2 ^ (w - 1) * 2 ^ (w - 1) := by
    rw [abs_mul]
    exact mul_le_mul (hbound a) (hbound b) (abs_nonneg _) (by positivity)
  have hpos : (0 : Int) < 2 ^ (w - 1) * 2 ^ (w - 1) := by positivity
  have hmul : a.signExtend (2 * w) * b.signExtend (2 * w) =
      BitVec.ofInt (2 * w) (a.toInt * b.toInt) :=
    (BitVec.ofInt_mul ..).symm
  rw [abs_le] at hprod
  rw [hmul, BitVec.toInt_ofInt]
  apply Int.bmod_eq_of_le
  · push_cast
    omega
  · push_cast
    omega

theorem toNat_extend_mul : (a.setWidth (2 * w) * b.setWidth (2 * w)).toNat = a.toNat * b.toNat := by
  have hlt : a.toNat * b.toNat < 2 ^ (2 * w) := by
    rw [Nat.two_mul, Nat.pow_add]
    exact Nat.mul_lt_mul'' a.isLt b.isLt
  have hmul : a.setWidth (2 * w) * b.setWidth (2 * w) =
      BitVec.ofNat (2 * w) (a.toNat * b.toNat) := by
    rw [BitVec.ofNat_mul, BitVec.ofNat_toNat, BitVec.ofNat_toNat]
  rw [hmul, BitVec.toNat_ofNat, Nat.mod_eq_of_lt hlt]

/-- A full product determines a factor, unless the other one is zero. -/
theorem extend_mul_inj (hw : 0 < w) (signed : Bool) (c : BitVec w) :
    extendTo signed (2 * w) a * extendTo signed (2 * w) b =
        extendTo signed (2 * w) a * extendTo signed (2 * w) c ↔ a = 0 ∨ b = c := by
  cases signed with
  | true =>
    have hzero : a.toInt = 0 ↔ a = 0 := by
      rw [← BitVec.toInt_inj]
      simp
    simp only [extendTo, if_true]
    rw [← BitVec.toInt_inj, toInt_extend_mul a b hw, toInt_extend_mul a c hw, mul_eq_mul_left_iff,
      BitVec.toInt_inj, hzero, or_comm]
  | false =>
    have hzero : a.toNat = 0 ↔ a = 0 := by
      rw [← BitVec.toNat_inj]
      simp
    simp only [extendTo, Bool.false_eq_true, if_false]
    rw [← BitVec.toNat_inj, toNat_extend_mul, toNat_extend_mul, mul_eq_mul_left_iff,
      BitVec.toNat_inj, hzero, or_comm]

end Products

/-- The high and the low part of a bit vector. -/
theorem extract_append_setWidth {n k : Nat} (v : BitVec (k + n)) :
    v.extractLsb' n k ++ v.setWidth n = v := by
  apply BitVec.eq_of_getLsbD_eq
  intro i hi
  rw [BitVec.getLsbD_append, BitVec.getLsbD_setWidth, BitVec.getLsbD_extractLsb']
  by_cases h : i < n
  · simp [h]
  · simp [h, show i - n < k by omega, show n + (i - n) = i by omega]

end EosVm.Lib
