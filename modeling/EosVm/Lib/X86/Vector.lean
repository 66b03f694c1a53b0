import EosVm.Lib.Lanes

/-!
# Vector operations of x86-64

What the 128-bit integer instructions compute from their operands, lane by lane.
-/

set_option autoImplicit false

namespace EosVm.Lib.X86

/-- Shifts of lanes. -/
inductive VecShift where
  | sll | srl | sra
  deriving DecidableEq, Repr

/-- Counts past the width shift everything out. -/
def VecShift.eval {w : Nat} (a : BitVec w) (n : Nat) : VecShift → BitVec w
  | .sll => a <<< n
  | .srl => a >>> n
  | .sra => a.sshiftRight n

/-- Instructions with one source. -/
inductive VecUn where
  /-- `vpmovsx` and `vpmovzx` of lanes of width `w`. -/
  | widen (signed : Bool) (w : Nat)
  | shufd (imm : BitVec 8)
  | broadcastb
  | shift (op : VecShift) (w : Nat) (imm : BitVec 8)
  /-- A shift of the whole vector by bytes. -/
  | srldq (imm : BitVec 8)
  deriving DecidableEq, Repr

/-- Instructions with two sources. -/
inductive VecBin where
  | add (w : Nat)
  | sub (w : Nat)
  | mull (w : Nat)
  | mulh (signed : Bool)
  | mulhrs
  /-- `vpmuldq` and `vpmuludq`. -/
  | muldq (signed : Bool)
  | addus (w : Nat)
  | minu (w : Nat)
  | maxu (w : Nat)
  | cmpeq (w : Nat)
  | cmpgt (w : Nat)
  | and | or | xor | andn
  | unpackl (w : Nat)
  | unpackh (w : Nat)
  | shufb
  | haddd
  | packsswb
  | shift (op : VecShift) (w : Nat)
  deriving DecidableEq, Repr

/-- A signed word to a byte, with saturation. -/
def saturate (a : BitVec 16) : BitVec 8 :=
  if a.toInt < -128 then 0x80 else if 127 < a.toInt then 0x7f else a.setWidth 8

def VecUn.eval (a : BitVec 128) : VecUn → BitVec 128
  | .widen signed w => ofLanes (2 * w) fun i => extendTo signed (2 * w) (lane w a i)
  | .shufd imm => ofLanes 32 fun i => lane 32 a (imm.toNat / 4 ^ i % 4)
  | .broadcastb => ofLanes 8 fun _ => lane 8 a 0
  | .shift op w imm => mapLanes w (fun x => op.eval x imm.toNat) a
  | .srldq imm => a >>> (8 * imm.toNat)

def VecBin.eval (a b : BitVec 128) : VecBin → BitVec 128
  | .add w => zipLanes w (· + ·) a b
  | .sub w => zipLanes w (· - ·) a b
  | .mull w => zipLanes w (· * ·) a b
  | .mulh signed =>
    zipLanes 16 (fun x y => (extendTo signed 32 x * extendTo signed 32 y).extractLsb' 16 16) a b
  | .mulhrs =>
    zipLanes 16
      (fun x y => ((x.signExtend 32 * y.signExtend 32).sshiftRight 14 + 1).extractLsb' 1 16) a b
  | .muldq signed =>
    ofLanes 64 fun i => extendTo signed 64 (lane 32 a (2 * i)) *
      extendTo signed 64 (lane 32 b (2 * i))
  | .addus w =>
    zipLanes w (fun x y => if 2 ^ w ≤ x.toNat + y.toNat then BitVec.allOnes w else x + y) a b
  | .minu w => zipLanes w (fun x y => if x.ult y then x else y) a b
  | .maxu w => zipLanes w (fun x y => if x.ult y then y else x) a b
  | .cmpeq w => zipLanes w (fun x y => fill w (x == y)) a b
  | .cmpgt w => zipLanes w (fun x y => fill w (y.slt x)) a b
  | .and => a &&& b
  | .or => a ||| b
  | .xor => a ^^^ b
  | .andn => ~~~ a &&& b
  | .unpackl w => ofLanes w fun i => lane w (if i % 2 = 0 then a else b) (i / 2)
  | .unpackh w => ofLanes w fun i => lane w (if i % 2 = 0 then a else b) (64 / w + i / 2)
  | .shufb =>
    ofLanes 8 fun i => if (lane 8 b i).msb then 0 else lane 8 a ((lane 8 b i).toNat % 16)
  | .haddd =>
    ofLanes 32 fun i =>
      if i < 2 then lane 32 a (2 * i) + lane 32 a (2 * i + 1)
      else lane 32 b (2 * (i - 2)) + lane 32 b (2 * (i - 2) + 1)
  | .packsswb => ofLanes 8 fun i => saturate (if i < 8 then lane 16 a i else lane 16 b (i - 8))
  | .shift op w => mapLanes w (fun x => op.eval x (b.setWidth 64).toNat) a

/-- `vpmovmskb`: the sign of each byte. -/
def movmskb (a : BitVec 128) : BitVec 32 :=
  (BitVec.ofBoolListLE ((List.range 16).map fun i => (lane 8 a i).msb)).setWidth 32

section Lanes

variable {w i : Nat} {a b : BitVec 128}

theorem lane_eval_add (h : w * (i + 1) ≤ 128) :
    lane w ((VecBin.add w).eval a b) i = lane w a i + lane w b i := lane_zipLanes _ h

theorem lane_eval_mull (h : w * (i + 1) ≤ 128) :
    lane w ((VecBin.mull w).eval a b) i = lane w a i * lane w b i := lane_zipLanes _ h

theorem lane_eval_addus (h : w * (i + 1) ≤ 128) :
    lane w ((VecBin.addus w).eval a b) i =
      if 2 ^ w ≤ (lane w a i).toNat + (lane w b i).toNat then BitVec.allOnes w
      else lane w a i + lane w b i := lane_zipLanes _ h

theorem lane_eval_minu (h : w * (i + 1) ≤ 128) :
    lane w ((VecBin.minu w).eval a b) i =
      if (lane w a i).ult (lane w b i) then lane w a i else lane w b i := lane_zipLanes _ h

theorem lane_eval_maxu (h : w * (i + 1) ≤ 128) :
    lane w ((VecBin.maxu w).eval a b) i =
      if (lane w a i).ult (lane w b i) then lane w b i else lane w a i := lane_zipLanes _ h

theorem lane_eval_cmpeq (h : w * (i + 1) ≤ 128) :
    lane w ((VecBin.cmpeq w).eval a b) i = fill w (lane w a i == lane w b i) := lane_zipLanes _ h

theorem lane_eval_cmpgt (h : w * (i + 1) ≤ 128) :
    lane w ((VecBin.cmpgt w).eval a b) i = fill w ((lane w b i).slt (lane w a i)) :=
      lane_zipLanes _ h

theorem lane_eval_and : lane w (VecBin.and.eval a b) i = lane w a i &&& lane w b i := lane_and

theorem lane_eval_or : lane w (VecBin.or.eval a b) i = lane w a i ||| lane w b i := lane_or

theorem lane_eval_xor : lane w (VecBin.xor.eval a b) i = lane w a i ^^^ lane w b i := lane_xor

theorem lane_eval_andn (h : w * (i + 1) ≤ 128) :
    lane w (VecBin.andn.eval a b) i = ~~~ lane w a i &&& lane w b i := by
  rw [← lane_not h]
  exact lane_and

theorem lane_eval_shift (op : VecShift) (h : w * (i + 1) ≤ 128) :
    lane w ((VecBin.shift op w).eval a b) i = op.eval (lane w a i) (b.setWidth 64).toNat :=
  lane_mapLanes _ h

theorem lane_eval_shiftImm (op : VecShift) (imm : BitVec 8) (h : w * (i + 1) ≤ 128) :
    lane w ((VecUn.shift op w imm).eval a) i = op.eval (lane w a i) imm.toNat := lane_mapLanes _ h

theorem lane_eval_unpackl (h : w * (i + 1) ≤ 128) :
    lane w ((VecBin.unpackl w).eval a b) i = lane w (if i % 2 = 0 then a else b) (i / 2) :=
  lane_ofLanes h

theorem lane_eval_shufb (h : i < 16) :
    lane 8 (VecBin.shufb.eval a b) i =
      if (lane 8 b i).msb then 0 else lane 8 a ((lane 8 b i).toNat % 16) := lane_ofLanes (by omega)

theorem lane_eval_broadcastb (h : i < 16) : lane 8 (VecUn.broadcastb.eval a) i = lane 8 a 0 :=
  lane_ofLanes (by omega)

theorem lane_eval_shufd (imm : BitVec 8) (h : i < 4) :
    lane 32 ((VecUn.shufd imm).eval a) i = lane 32 a (imm.toNat / 4 ^ i % 4) :=
  lane_ofLanes (by omega)

/-- A register compared with itself. -/
theorem eval_cmpeq_self (hw : w * (128 / w) = 128) :
    (VecBin.cmpeq w).eval a a = BitVec.allOnes 128 := by
  refine eq_of_lanes hw fun i hi => ?_
  have hle : w * (i + 1) ≤ 128 := hw ▸ Nat.mul_le_mul_left w hi
  rw [lane_eval_cmpeq hle, beq_self_eq_true, lane_allOnes hle]
  rfl

theorem eval_xor_self : VecBin.xor.eval a a = 0#128 := BitVec.xor_self

end Lanes

end EosVm.Lib.X86
