import EosVm.Lib.X86.Integers
import EosVm.Source.JitLayout

/-!
# The frame of a function in machine code

Every frame that the prologue accepts gives each parameter and each local a slot of its own:
parameters where the caller left the arguments, locals among the slots that the prologue clears.
-/

set_option autoImplicit false

namespace EosVm

open Lib Lib.X86

/-- The bytes of a slot. -/
def slotBytes (type : ValType) : Nat := if type = .v128 then 16 else 8

def frameBytes (types : List ValType) : Nat := (types.map slotBytes).sum

/-- The locals that a list of declarations stands for. -/
def declaredTypes (locals : List LocalEntry) : List ValType :=
  locals.flatMap fun entry => List.replicate entry.count entry.type

/-- The types of a function's local indices. -/
def frameTypes (ft : FuncType) (locals : List LocalEntry) : List ValType :=
  ft.paramTypes ++ declaredTypes locals

/-- The layout over the integers: parameters up from the return address, the last one first, and
locals down from `rbp`. -/
def slotOffset (params locals : List ValType) (i : Nat) : Int :=
  if i < params.length then 16 + frameBytes (params.drop (i + 1))
  else -frameBytes (locals.take (i - params.length + 1))

theorem slotBytes_eq (type : ValType) : slotBytes type = 8 ∨ slotBytes type = 16 := by
  unfold slotBytes
  split
  · exact .inr rfl
  · exact .inl rfl

@[simp] theorem frameBytes_nil : frameBytes [] = 0 := rfl

@[simp] theorem frameBytes_cons (type : ValType) (types : List ValType) :
    frameBytes (type :: types) = slotBytes type + frameBytes types := rfl

@[simp] theorem frameBytes_append (types types' : List ValType) :
    frameBytes (types ++ types') = frameBytes types + frameBytes types' := by
  rw [frameBytes, List.map_append, List.sum_append]
  rfl

@[simp] theorem frameBytes_replicate (n : Nat) (type : ValType) :
    frameBytes (List.replicate n type) = slotBytes type * n := by
  rw [frameBytes, List.map_replicate, List.sum_replicate_nat, Nat.mul_comm]

theorem frameBytes_reverse (types : List ValType) :
    frameBytes types.reverse = frameBytes types := by
  rw [frameBytes, List.map_reverse, List.sum_reverse]
  rfl

/-- The slots up to a position and the one at it. -/
theorem frameBytes_take_succ {types : List ValType} {type : ValType} {i : Nat}
    (h : types[i]? = some type) :
    frameBytes (types.take (i + 1)) = frameBytes (types.take i) + slotBytes type := by
  rw [List.take_add_one, h]
  simp

theorem frameBytes_drop {types : List ValType} {type : ValType} {i : Nat}
    (h : types[i]? = some type) :
    frameBytes (types.drop i) = slotBytes type + frameBytes (types.drop (i + 1)) := by
  obtain ⟨hlt, rfl⟩ := List.getElem?_eq_some_iff.mp h
  rw [List.drop_eq_getElem_cons hlt, frameBytes_cons]

theorem frameBytes_take_mono (types : List ValType) {i j : Nat} (h : i ≤ j) :
    frameBytes (types.take i) ≤ frameBytes (types.take j) := by
  obtain ⟨k, rfl⟩ := Nat.exists_eq_add_of_le h
  rw [List.take_add, frameBytes_append]
  exact Nat.le_add_right ..

theorem frameBytes_drop_anti (types : List ValType) {i j : Nat} (h : i ≤ j) :
    frameBytes (types.drop j) ≤ frameBytes (types.drop i) := by
  obtain ⟨k, rfl⟩ := Nat.exists_eq_add_of_le h
  rw [← List.drop_drop]
  conv_rhs => rw [← List.take_append_drop k (types.drop i), frameBytes_append]
  exact Nat.le_add_left ..

theorem length_le_frameBytes (types : List ValType) : 8 * types.length ≤ frameBytes types := by
  induction types with
  | nil => exact Nat.le_refl 0
  | cons type types ih =>
    have hsize := slotBytes_eq type
    rw [frameBytes_cons, List.length_cons]
    omega

section Offsets

variable {params locals : List ValType} {type : ValType} {i j : Nat}

/-- Parameters lie above the return address. -/
theorem slotOffset_parameter (hi : i < params.length) : 16 ≤ slotOffset params locals i := by
  rw [slotOffset, if_pos hi]
  omega

/-- Locals lie below `rbp`, the slots of all of them included. -/
theorem slotOffset_local (hi : params.length ≤ i) (h : (params ++ locals)[i]? = some type) :
    -(frameBytes locals : Int) ≤ slotOffset params locals i ∧
      slotOffset params locals i + slotBytes type ≤ 0 := by
  rw [List.getElem?_append_right hi] at h
  have hslot := frameBytes_take_succ h
  have hall := frameBytes_take_mono locals (Nat.le_max_left (i - params.length + 1) locals.length)
  rw [List.take_of_length_le (Nat.le_max_right _ locals.length)] at hall
  rw [slotOffset, if_neg (Nat.not_lt.mpr hi)]
  omega

/-- The slots of two indices do not overlap. -/
theorem slotOffset_disjoint (hlt : i < j) (hj : (params ++ locals)[j]? = some type) :
    slotOffset params locals j + slotBytes type ≤ slotOffset params locals i := by
  rcases Nat.lt_or_ge j params.length with hparam | hlocal
  · -- both are parameters
    rw [List.getElem?_append_left hparam] at hj
    have hslot := frameBytes_drop hj
    have hmono := frameBytes_drop_anti params (show i + 1 ≤ j from hlt)
    rw [slotOffset, slotOffset, if_pos hparam, if_pos (hlt.trans hparam)]
    omega
  · have hbelow := (slotOffset_local hlocal hj).2
    rcases Nat.lt_or_ge i params.length with hparam | hlocal'
    · have habove : 16 ≤ slotOffset params locals i := slotOffset_parameter hparam
      omega
    · -- both are locals
      rw [List.getElem?_append_right hlocal] at hj
      have hslot := frameBytes_take_succ hj
      have hmono := frameBytes_take_mono locals
        (show i - params.length + 1 ≤ j - params.length by omega)
      rw [slotOffset, slotOffset, if_neg (Nat.not_lt.mpr hlocal), if_neg (Nat.not_lt.mpr hlocal')]
      omega

end Offsets

/-- The offsets of the parameters, from the last one on. -/
theorem parameterOffsets_spec {types : List ValType} {current : BitVec 32}
    {offsets result : List (BitVec 32)} {above : Nat} (hcurrent : current.toNat = 16 + above)
    (h : parameterOffsets types current offsets = .ok result) :
    (∃ front : List (BitVec 32), result = front ++ offsets ∧ front.length = types.length ∧
      ∀ i off, front[i]? = some off → off.toNat ≤ 0x7fffffff ∧
        off.toNat = 16 + above + frameBytes (types.reverse.drop (i + 1))) ∧
      16 + above + frameBytes types < 2 ^ 32 := by
  induction types generalizing current offsets above with
  | nil =>
    obtain rfl := pure_eq_ok.mp h
    have hlt := current.isLt
    rw [hcurrent] at hlt
    exact ⟨⟨[], rfl, rfl, fun i off hoff => by simp at hoff⟩, hlt⟩
  | cons type types ih =>
    simp only [parameterOffsets, bind_eq_ok, vmAssert_eq_ok, exists_const, decide_eq_true_eq] at h
    obtain ⟨hfits, hrest⟩ := h
    have hfits : current.toNat ≤ 0x7fffffff := hfits
    have hsize : (if type = .v128 then 16 else 8 : BitVec 32).toNat = slotBytes type := by
      unfold slotBytes
      split <;> rfl
    have hbound := slotBytes_eq type
    have hnext : (current + if type = .v128 then 16 else 8).toNat = 16 +
      (above + slotBytes type) := by
      rw [BitVec.toNat_add_of_lt (by omega), hsize, hcurrent]
      omega
    obtain ⟨⟨front, rfl, hlength, hfront⟩, hlast⟩ := ih hnext hrest
    refine ⟨⟨front ++ [current], by simp, by simp [hlength], ?_⟩, ?_⟩
    · intro i off hoff
      rw [List.reverse_cons]
      rcases Nat.lt_or_ge i types.length with hlt | hge
      · rw [List.getElem?_append_left (hlength ▸ hlt)] at hoff
        obtain ⟨hle, hvalue⟩ := hfront i off hoff
        refine ⟨hle, ?_⟩
        rw [hvalue, List.drop_append_of_le_length (by rw [List.length_reverse]; exact hlt)]
        simp only [frameBytes_append, frameBytes_cons, frameBytes_nil]
        omega
      · -- the last one of the parameters that are left
        rw [List.getElem?_append_right (hlength ▸ hge), List.getElem?_singleton] at hoff
        split at hoff
        · obtain rfl := Option.some.inj hoff
          refine ⟨hfits, ?_⟩
          rw [List.drop_of_length_le (by simp; omega), hcurrent, frameBytes_nil]
          rfl
        · cases hoff
    · rw [frameBytes_cons]
      omega

/-- The groups hold what the integers give: after `count` locals that take `bytes` bytes. -/
def GroupsExact : List LocalEntry → Nat → Nat → List LocalGroup → Prop
  | [], _, _, groups => groups = []
  | entry :: entries, count, bytes, groups => ∃ group rest, groups = group :: rest ∧
      group.endIdx.toNat = count + entry.count ∧
      group.endOffset.toInt = -((bytes + slotBytes entry.type * entry.count : Nat) : Int) ∧
      group.elemSize.toNat = slotBytes entry.type ∧ slotBytes entry.type * entry.count ≤ 2 ^ 31 ∧
      GroupsExact entries (count + entry.count) (bytes + slotBytes entry.type * entry.count) rest

@[simp] theorem declaredTypes_cons (entry : LocalEntry) (entries : List LocalEntry) :
    declaredTypes (entry :: entries) =
      List.replicate entry.count entry.type ++ declaredTypes entries := rfl

theorem groupSize_toNat (type : ValType) :
    (if type = .v128 then 16 else 8 : BitVec 8).toNat = slotBytes type := by
  unfold slotBytes
  split <;> rfl

/-- The groups of an accepted list of declarations; no local lies further than 2^31 bytes below
`rbp`. -/
theorem localGroups_exact {entries : List LocalEntry} {offset frameOffset : BitVec 32}
    {groups : List LocalGroup} {count bytes : Nat}
    (hcounts : ∀ entry ∈ entries, entry.count < 2 ^ 32) (hoffset : offset.toNat = count)
    (hframe : frameOffset.toInt = -(bytes : Int)) (hcount : 8 * count ≤ bytes)
    (hbytes : bytes ≤ 2 ^ 31) (h : localGroups entries offset frameOffset = .ok groups) :
    GroupsExact entries count bytes groups ∧
      bytes + frameBytes (declaredTypes entries) ≤ 2 ^ 31 := by
  induction entries generalizing offset frameOffset groups count bytes with
  | nil => exact ⟨(pure_eq_ok.mp h).symm, hbytes⟩
  | cons entry entries ih =>
    simp only [localGroups, bind_eq_ok, vmAssert_eq_ok, pure_eq_ok, exists_const,
      decide_eq_true_eq] at h
    obtain ⟨hfits, rest, hrest, rfl⟩ := h
    obtain ⟨hthis, hcounts⟩ := List.forall_mem_cons.mp hcounts
    have hentry : (BitVec.ofNat 32 entry.count).toNat = entry.count := Nat.mod_eq_of_lt hthis
    rw [groupSize_toNat, hentry, hframe] at hfits
    have hsize := slotBytes_eq entry.type
    have hsmall : 8 * entry.count ≤ slotBytes entry.type * entry.count :=
      Nat.mul_le_mul_right _ (by omega)
    have hfits : bytes + slotBytes entry.type * entry.count ≤ 2 ^ 31 := by omega
    have hend : (offset + BitVec.ofNat 32 entry.count).toNat = count + entry.count := by
      rw [BitVec.toNat_add_of_lt (by omega), hentry, hoffset]
    have hproduct : (((if entry.type = .v128 then 16 else 8 : BitVec 8).setWidth 32) *
        BitVec.ofNat 32 entry.count).toNat = slotBytes entry.type * entry.count := by
      rw [BitVec.toNat_mul, BitVec.toNat_setWidth, groupSize_toNat, hentry,
        Nat.mod_eq_of_lt (show slotBytes entry.type < 2 ^ 32 by omega), Nat.mod_eq_of_lt (by omega)]
    have hnext : (frameOffset - (if entry.type = .v128 then 16 else 8 : BitVec 8).setWidth 32 *
        BitVec.ofNat 32 entry.count).toInt =
          -((bytes + slotBytes entry.type * entry.count : Nat) : Int) := by
      rw [BitVec.toInt_sub, BitVec.toInt_eq_toNat_bmod (_ * _), hproduct, hframe, Int.sub_bmod_bmod]
      rw [Int.bmod_eq_of_le (by push_cast; omega) (by push_cast; omega)]
      push_cast
      omega
    obtain ⟨hgroups, htotal⟩ := ih hcounts hend hnext (by omega) hfits hrest
    refine ⟨⟨_, rest, rfl, hend, hnext, groupSize_toNat _, by omega, hgroups⟩, ?_⟩
    rw [declaredTypes_cons, frameBytes_append, frameBytes_replicate]
    omega

/-- `std::partition_point` needs the groups in order. -/
theorem GroupsExact.sorted {entries : List LocalEntry} {count bytes : Nat}
    {groups : List LocalGroup} (h : GroupsExact entries count bytes groups) :
    (∀ group ∈ groups, count ≤ group.endIdx.toNat) ∧
      groups.Pairwise fun group group' => group.endIdx ≤ group'.endIdx := by
  induction entries generalizing count bytes groups with
  | nil =>
    obtain rfl := h
    exact ⟨fun _ hmem => absurd hmem List.not_mem_nil, .nil⟩
  | cons entry entries ih =>
    obtain ⟨group, rest, rfl, hend, -, -, -, hrest⟩ := h
    obtain ⟨hlow, hpairs⟩ := ih hrest
    refine ⟨List.forall_mem_cons.mpr ⟨?_, fun g hg => ?_⟩, .cons (fun g hg => ?_) hpairs⟩
    · omega
    · exact (Nat.le_add_right ..).trans (hlow g hg)
    · rw [BitVec.le_def, hend]
      exact hlow g hg

/-- The arithmetic of `get_frame_offset` stays in range. -/
structure LookupExact (pos : LocalGroup) (idx off : BitVec 32) : Prop where
  before : idx.toNat < pos.endIdx.toNat
  product : (pos.endIdx.toNat - idx.toNat - 1) * pos.elemSize.toNat < 2 ^ 32
  sum : pos.endOffset.toNat + (pos.endIdx.toNat - idx.toNat - 1) * pos.elemSize.toNat < 2 ^ 32
  value : off.toInt =
    pos.endOffset.toInt + ((pos.endIdx.toNat - idx.toNat - 1) * pos.elemSize.toNat : Nat)

/-- The offset of a local from its group. -/
theorem lookupExact {pos : LocalGroup} {idx : BitVec 32} {bytes : Nat}
    (hbefore : idx.toNat < pos.endIdx.toNat) (hsize : 0 < pos.elemSize.toNat)
    (hoffset : pos.endOffset.toInt = -(bytes : Int)) (hbytes : bytes ≤ 2 ^ 31)
    (hinside : (pos.endIdx.toNat - idx.toNat) * pos.elemSize.toNat ≤ bytes) :
    LookupExact pos idx
      (pos.endOffset + (pos.endIdx - idx - 1) * pos.elemSize.setWidth 32) := by
  have helem := pos.elemSize.isLt
  have hsteps : (pos.endIdx.toNat - idx.toNat - 1) * pos.elemSize.toNat + pos.elemSize.toNat =
      (pos.endIdx.toNat - idx.toNat) * pos.elemSize.toNat := by
    rw [← Nat.succ_mul, Nat.succ_eq_add_one, Nat.sub_add_cancel (by omega)]
  have hend := pos.endIdx.isLt
  have hdifference : (pos.endIdx - idx - 1).toNat = pos.endIdx.toNat - idx.toNat - 1 := by
    have hfirst : (pos.endIdx - idx).toNat = pos.endIdx.toNat - idx.toNat :=
      BitVec.toNat_sub_of_le (BitVec.le_def.mpr (Nat.le_of_lt hbefore))
    have hone : (1 : BitVec 32) ≤ pos.endIdx - idx := by
      rw [BitVec.le_def, hfirst]
      exact Nat.sub_pos_of_lt hbefore
    rw [BitVec.toNat_sub_of_le hone, hfirst]
    rfl
  have hproduct : ((pos.endIdx - idx - 1) * pos.elemSize.setWidth 32).toNat =
      (pos.endIdx.toNat - idx.toNat - 1) * pos.elemSize.toNat := by
    rw [BitVec.toNat_mul, BitVec.toNat_setWidth, hdifference,
      Nat.mod_eq_of_lt (show pos.elemSize.toNat < 2 ^ 32 by omega), Nat.mod_eq_of_lt (by omega)]
  have hnegative : pos.endOffset.toNat = 2 ^ 32 - bytes := by
    have hpositive : 0 < bytes := by omega
    rw [BitVec.toInt_eq_toNat_cond] at hoffset
    split at hoffset <;> omega
  refine ⟨hbefore, by omega, by omega, ?_⟩
  rw [BitVec.toInt_add, BitVec.toInt_eq_toNat_bmod (_ * _), hproduct, Int.add_bmod_bmod, hoffset]
  rw [Int.bmod_eq_of_le (by push_cast; omega) (by push_cast; omega)]

/-- Every local is found in its group, at its place over the integers. -/
theorem localFrameOffset_exact {entries : List LocalEntry} {groups : List LocalGroup}
    {count bytes : Nat} (h : GroupsExact entries count bytes groups)
    (hbytes : bytes + frameBytes (declaredTypes entries) ≤ 2 ^ 31) {idx : BitVec 32}
    (hlow : count ≤ idx.toNat) (hhigh : idx.toNat < count + (declaredTypes entries).length) :
    ∃ pos ∈ groups, ∃ off, localFrameOffset groups idx = some off ∧ LookupExact pos idx off ∧
      off.toInt =
        -((bytes + frameBytes ((declaredTypes entries).take (idx.toNat - count + 1)) : Nat) :
        Int) := by
  induction entries generalizing count bytes groups with
  | nil => exact absurd hhigh (Nat.not_lt.mpr hlow)
  | cons entry entries ih =>
    obtain ⟨group, rest, rfl, hend, hoffset, helem, -, hrest⟩ := h
    rw [declaredTypes_cons, frameBytes_append, frameBytes_replicate] at hbytes
    rw [declaredTypes_cons, List.length_append, List.length_replicate] at hhigh
    rcases Nat.lt_or_ge idx.toNat (count + entry.count) with hin | hout
    · -- the local is one of this group
      have hbefore : idx.toNat < group.endIdx.toNat := hend ▸ hin
      have hsize := slotBytes_eq entry.type
      have hinside : (group.endIdx.toNat - idx.toNat) * group.elemSize.toNat ≤
          bytes + slotBytes entry.type * entry.count := by
        rw [helem, Nat.mul_comm]
        exact (Nat.mul_le_mul_left _ (show _ ≤ entry.count by omega)).trans (Nat.le_add_left ..)
      have hlookup := lookupExact hbefore (by omega) hoffset (by omega) hinside
      refine ⟨group, List.mem_cons_self, _, ?_, hlookup, ?_⟩
      · rw [localFrameOffset, List.find?_cons_of_pos (by simpa [BitVec.le_def] using hbefore)]
        rfl
      · have htake : (declaredTypes (entry :: entries)).take (idx.toNat - count + 1) =
            List.replicate (idx.toNat - count + 1) entry.type := by
          rw [declaredTypes_cons,
            List.take_append_of_le_length (by rw [List.length_replicate]; omega),
            List.take_replicate, Nat.min_eq_left (by omega)]
        have hsplit : slotBytes entry.type * entry.count =
            slotBytes entry.type * (idx.toNat - count + 1) +
              (group.endIdx.toNat - idx.toNat - 1) * slotBytes entry.type := by
          rw [Nat.mul_comm (_ - _ - 1), ← Nat.mul_add]
          congr 1
          omega
        rw [hlookup.value, hoffset, htake, frameBytes_replicate, helem]
        omega
    · -- the search goes on
      obtain ⟨pos, hpos, off, hfound, hlookup, hvalue⟩ :=
        ih hrest (by omega) hout (by omega)
      refine ⟨pos, List.mem_cons_of_mem _ hpos, off, ?_, hlookup, ?_⟩
      · rw [localFrameOffset, List.find?_cons_of_neg (by simpa [BitVec.le_def, hend] using hout)]
        exact hfound
      · have htake : (declaredTypes (entry :: entries)).take (idx.toNat - count + 1) =
            List.replicate entry.count entry.type ++
              (declaredTypes entries).take (idx.toNat - (count + entry.count) + 1) := by
          rw [declaredTypes_cons, List.take_append, List.length_replicate, List.take_replicate,
            Nat.min_eq_right (by omega)]
          congr 2
          omega
        rw [hvalue, htake, frameBytes_append, frameBytes_replicate, Nat.add_assoc]

/-- The slots that the prologue counts. -/
theorem countLocals_toNat {entries : List LocalEntry} {count : BitVec 64} {bytes : Nat}
    (hcounts : ∀ entry ∈ entries, entry.count < 2 ^ 32) (hcount : 8 * count.toNat = bytes)
    (hbytes : bytes + frameBytes (declaredTypes entries) ≤ 2 ^ 31) :
    8 * (countLocals entries count).toNat = bytes + frameBytes (declaredTypes entries) := by
  induction entries generalizing count bytes with
  | nil => exact hcount
  | cons entry entries ih =>
    obtain ⟨hthis, hcounts⟩ := List.forall_mem_cons.mp hcounts
    rw [declaredTypes_cons, frameBytes_append, frameBytes_replicate] at hbytes ⊢
    have hentry : (BitVec.ofNat 64 entry.count).toNat = entry.count :=
      Nat.mod_eq_of_lt (hthis.trans (by decide))
    have hone : (count + BitVec.ofNat 64 entry.count).toNat = count.toNat + entry.count := by
      rw [BitVec.toNat_add_of_lt (by omega), hentry]
    rw [countLocals, ← Nat.add_assoc]
    refine ih hcounts ?_ (by omega)
    by_cases hvector : entry.type = .v128
    · have hsize : slotBytes entry.type = 16 := if_pos hvector
      rw [if_pos hvector, BitVec.toNat_add_of_lt (by omega), hone, hentry, hsize]
      omega
    · have hsize : slotBytes entry.type = 8 := if_neg hvector
      rw [if_neg hvector, hone, hsize]
      omega

/-- What an access to a local finds when the `depth` topmost slots lie below `rbp`. -/
def slotsAt (depth : Nat) (stack : List (BitVec 64)) (type : ValType) (off : BitVec 32) :
    List (BitVec 64) :=
  (stack.drop (depth + off.toInt / 8).toNat).take (slotBytes type / 8)

/-- The host's arguments are left as those of a call. -/
theorem copyArgs_eq_pushOperands (args : List (ValType × BitVec 128)) (stack : List (BitVec 64)) :
    copyArgs (args.flatMap fun arg => appendArg arg.1 arg.2) stack = pushOperands args stack := by
  have happend : ∀ data data' stack, copyArgs (data ++ data') stack =
      copyArgs data' (copyArgs data stack) := by
    intro data data' stack
    induction data generalizing stack with
    | nil => rfl
    | cons v data ih => exact ih _
  induction args generalizing stack with
  | nil => rfl
  | cons arg args ih =>
    obtain ⟨type, v⟩ := arg
    have hfirst : copyArgs (appendArg type v) stack = pushOperand type v stack := by
      unfold appendArg pushOperand
      split <;> rfl
    rw [List.flatMap_cons, happend, hfirst, ih]
    rfl

theorem pushOperand_append (type : ValType) (v : BitVec 128) (stack : List (BitVec 64)) :
    pushOperand type v stack = pushOperand type v [] ++ stack := by
  unfold pushOperand
  split <;> rfl

theorem pushOperand_length (type : ValType) (v : BitVec 128) :
    8 * (pushOperand type v []).length = slotBytes type := by
  unfold pushOperand slotBytes
  split <;> rfl

theorem pushOperands_append (args : List (ValType × BitVec 128)) (stack : List (BitVec 64)) :
    ∃ top : List (BitVec 64), pushOperands args stack = top ++ stack ∧
      8 * top.length = frameBytes (args.map Prod.fst) := by
  induction args generalizing stack with
  | nil => exact ⟨[], rfl, rfl⟩
  | cons arg args ih =>
    obtain ⟨type, v⟩ := arg
    obtain ⟨top, htop, hlength⟩ := ih (pushOperand type v stack)
    have hfirst := pushOperand_length type v
    refine ⟨top ++ pushOperand type v [], ?_, ?_⟩
    · rw [pushOperands, htop, pushOperand_append, List.append_assoc]
    · rw [List.length_append, List.map_cons, frameBytes_cons, ← hlength, ← hfirst]
      omega

/-- The arguments after one lie on top of it. -/
theorem pushOperands_split {args : List (ValType × BitVec 128)} {type : ValType} {v : BitVec 128}
    {i : Nat} (h : args[i]? = some (type, v)) (stack : List (BitVec 64)) :
    ∃ top rest : List (BitVec 64), pushOperands args stack = top ++ pushOperand type v [] ++ rest ∧
      8 * top.length = frameBytes ((args.map Prod.fst).drop (i + 1)) := by
  induction args generalizing i stack with
  | nil => cases h
  | cons arg args ih =>
    cases i with
    | zero =>
      obtain rfl := Option.some.inj h
      obtain ⟨top, htop, hlength⟩ := pushOperands_append args (pushOperand type v stack)
      refine ⟨top, stack, ?_, hlength⟩
      rw [pushOperands, htop, pushOperand_append, List.append_assoc]
    | succ i => exact ih h _

/-- An argument is found at its place over the integers. -/
theorem slotsAt_argument {args : List (ValType × BitVec 128)} {type : ValType} {v : BitVec 128}
    {i : Nat} (h : args[i]? = some (type, v)) (rest : List (BitVec 64)) (rbp ret : BitVec 64)
    {locals : List ValType} {off : BitVec 32}
    (hoff : off.toInt = slotOffset (args.map Prod.fst) locals i) :
    slotsAt 0 (rbp :: ret :: pushOperands args rest) type off = pushOperand type v [] := by
  obtain ⟨top, below, hpushed, htop⟩ := pushOperands_split h rest
  have hlt : i < (args.map Prod.fst).length := by
    rw [List.length_map]
    exact (List.getElem?_eq_some_iff.mp h).1
  have hlength := pushOperand_length type v
  have hdepth : (((0 : Nat) : Int) + off.toInt / 8).toNat = top.length + 2 := by
    rw [hoff, slotOffset, if_pos hlt]
    omega
  rw [slotsAt, hdepth, hpushed, List.append_assoc, List.drop_succ_cons, List.drop_succ_cons,
    List.drop_left, show slotBytes type / 8 = (pushOperand type v []).length by omega,
    List.take_left]

section Prologue

variable {code : List (Lib.X86.Instr JitHandler)} {pos : Nat} {m : Machine}

/-- The check of the stack limit. -/
def limitCode : Option (BitVec 32) → List (Lib.X86.Instr JitHandler)
  | none => []
  | some usage =>
    [.op (.alu .sub .w32 .rbx (.imm usage)), .jcc .b (.handler .stackOverflow)]

/-- The loop that pushes zeros, at a position of the code. -/
def pushLoop (w : Width) (pos : Nat) : List (Lib.X86.Instr JitHandler) :=
  [.op (.push .rax), .op (.dec w .rcx), .jcc .ne (.code pos)]

def zeroCode (pos : Nat) (count : BitVec 64) : List (Lib.X86.Instr JitHandler) :=
  if 0 < count then
    .op (.alu .xor .w64 .rax (.reg .rax)) ::
      if 14 < count then
        if 0xFFFFFFFF < count then .op (.movImm64 .rcx count) :: pushLoop .w64 (pos + 2)
        else .op (.mov .w32 .rcx (.imm (count.setWidth 32))) :: pushLoop .w32 (pos + 2)
      else List.replicate count.toNat (.op (.push .rax))
  else []

theorem run_emitCheckStackLimit (usage : Option (BitVec 32))
    (code : List (Lib.X86.Instr JitHandler)) :
    (emitCheckStackLimit usage).run code = ((), code ++ limitCode usage) := by
  cases usage with
  | none => exact Prod.ext rfl (List.append_nil code).symm
  | some usage =>
    simp only [emitCheckStackLimit, run_bind, run_emit, run_emitBranch, run_fixBranch]
    rw [modify_append_cons]
    simp [limitCode, Lib.X86.Instr.setTarget]

theorem run_emitZeroLocals (count : BitVec 64) (code : List (Lib.X86.Instr JitHandler)) :
    (emitZeroLocals count).run code = ((), code ++ zeroCode code.length count) := by
  unfold emitZeroLocals zeroCode
  split
  · split
    · simp only [run_bind, run_emit, run_emitBranch, run_fixBranch, run_here]
      rw [modify_append_cons]
      split <;> simp [pushLoop, Lib.X86.Instr.setTarget]
    · simp only [run_bind, run_emit, run_emitOps, List.map_replicate, List.append_assoc]
      rfl
  · exact Prod.ext rfl (List.append_nil code).symm

/-- A register that was just written. -/
theorem get_set_self (m : Machine) (r : Reg) (w : Width) (v : BitVec w.bits) :
    (m.set r w v).get r w = v := by
  have hregs : (m.set r w v).regs r = v.setWidth 64 := by
    rw [Machine.set, Machine.setReg_regs, if_pos rfl]
  rw [Machine.get, hregs]
  cases w with
  | w32 => exact BitVec.setWidth_setWidth_of_le v (by decide)
  | w64 => rw [BitVec.setWidth_eq, BitVec.setWidth_eq]

/-- One round of the loop, up to its branch. -/
theorem pushLoop_round {w : Width} (hcode : HasCode code pos (pushLoop w pos))
    (hrax : m.regs .rax = 0) :
    ∃ m', Runs code (.run pos m) (.run (pos + 2) m') ∧ m'.stack = 0 :: m.stack ∧
      m'.regs .rax = 0 ∧ m'.get .rcx w = m.get .rcx w - 1 ∧
      m'.flags.zf = (m.get .rcx w == 1) := by
  obtain ⟨hpush, hrest⟩ := hcode.cons
  obtain ⟨hdec, -⟩ := hrest.cons
  have hstack : Op.exec m (.push .rax) = .ok (m.setStack (0 :: m.stack)) := by
    rw [Op.exec, hrax]
  refine ⟨_, (Runs.op hpush hstack).trans (Runs.op hdec rfl), rfl, ?_, get_set_self .., ?_⟩
  · rw [Machine.setFlags_regs, Machine.set, Machine.setReg_regs, if_neg (by decide)]
    exact hrax
  · exact subFlags_zf (m.get .rcx w) 1

theorem replicate_append_cons {α : Type} (n : Nat) (a : α) (l : List α) :
    List.replicate n a ++ a :: l = List.replicate (n + 1) a ++ l := by
  rw [List.replicate_succ', List.append_assoc]
  rfl

/-- The loop pushes as many zeros as the counter says. -/
theorem pushLoop_runs {w : Width} {n : Nat} (hcode : HasCode code pos (pushLoop w pos))
    (hrax : m.regs .rax = 0) (hrcx : (m.get .rcx w).toNat = n + 1) :
    ∃ m', Runs code (.run pos m) (.run (pos + 3) m') ∧
      m'.stack = List.replicate (n + 1) 0 ++ m.stack := by
  obtain ⟨-, hrest⟩ := hcode.cons
  obtain ⟨-, hrest⟩ := hrest.cons
  obtain ⟨hbranch, -⟩ := hrest.cons
  induction n generalizing m with
  | zero =>
    obtain ⟨m', hruns, hstack, -, -, hzero⟩ := pushLoop_round hcode hrax
    have hone : m.get .rcx w = 1 := by
      apply BitVec.eq_of_toNat_eq
      rw [hrcx]
      cases w <;> rfl
    have hend : Cond.holds m'.flags .ne = false := by
      rw [Cond.holds, hzero, hone, beq_self_eq_true]
      rfl
    exact ⟨m', hruns.trans (Runs.not_taken hbranch hend), hstack⟩
  | succ n ih =>
    obtain ⟨m₁, hruns, hstack, hrax₁, hcount, hzero⟩ := pushLoop_round hcode hrax
    have hlarge : (1 : BitVec w.bits) ≤ m.get .rcx w := by
      rw [BitVec.le_def, hrcx]
      cases w <;> exact Nat.succ_le_succ (Nat.zero_le _)
    have hcount : (m₁.get .rcx w).toNat = n + 1 := by
      rw [hcount, BitVec.toNat_sub_of_le hlarge, hrcx]
      cases w <;> rfl
    have hagain : Cond.holds m₁.flags .ne = true := by
      rw [Cond.holds, hzero, Bool.not_eq_true', beq_eq_false_iff_ne]
      intro hone
      rw [hone] at hrcx
      cases w <;> cases hrcx
    obtain ⟨m', hloop, hstack'⟩ := ih hrax₁ hcount
    refine ⟨m', (hruns.trans (Runs.taken hbranch hagain)).trans hloop, ?_⟩
    rw [hstack', hstack, replicate_append_cons]

/-- Pushes one after the other. -/
theorem pushes_run {n : Nat} (hcode : HasCode code pos (List.replicate n (.op (.push .rax))))
    (hrax : m.regs .rax = 0) :
    ∃ m', Runs code (.run pos m) (.run (pos + n) m') ∧
      m'.stack = List.replicate n 0 ++ m.stack := by
  induction n generalizing pos m with
  | zero => exact ⟨m, Runs.refl _, rfl⟩
  | succ n ih =>
    obtain ⟨hpush, hrest⟩ := hcode.cons
    have hstack : Op.exec m (.push .rax) = .ok (m.setStack (0 :: m.stack)) := by
      rw [Op.exec, hrax]
    obtain ⟨m', hruns, hstack'⟩ := ih (m := m.setStack (0 :: m.stack)) hrest hrax
    refine ⟨m', ?_, ?_⟩
    · rw [Nat.add_comm n 1, ← Nat.add_assoc]
      exact (Runs.op hpush hstack).trans hruns
    · exact hstack'.trans (replicate_append_cons ..)

/-- The locals are pushed as zeros. -/
theorem zeroCode_runs {count : BitVec 64} (hcode : HasCode code pos (zeroCode pos count)) :
    ∃ m', Runs code (.run pos m) (.run (pos + (zeroCode pos count).length) m') ∧
      m'.stack = List.replicate count.toNat 0 ++ m.stack := by
  unfold zeroCode at hcode ⊢
  by_cases hzero : 0 < count
  · rw [if_pos hzero] at hcode ⊢
    obtain ⟨hxor, hrest⟩ := hcode.cons
    obtain ⟨m₁, hclear, hrax, hstack⟩ : ∃ m₁, Op.exec m (.alu .xor .w64 .rax (.reg .rax)) = .ok m₁ ∧
        m₁.regs .rax = 0 ∧ m₁.stack = m.stack :=
      ⟨_, rfl, by simp, rfl⟩
    have hfirst := Runs.op hxor hclear
    by_cases hloop : 14 < count
    · rw [if_pos hloop] at hrest ⊢
      obtain ⟨n, hn⟩ := Nat.exists_eq_succ_of_ne_zero (Nat.ne_of_gt (BitVec.lt_def.mp hzero))
      by_cases hwide : 0xFFFFFFFF < count
      · rw [if_pos hwide] at hrest ⊢
        obtain ⟨hcounter, hpush⟩ := hrest.cons
        obtain ⟨m', hruns, hstack'⟩ := pushLoop_runs (m := m₁.setReg .rcx count) (n := n) hpush
          (by simp [hrax]) (by simpa using hn)
        refine ⟨m', hfirst.trans ((Runs.op hcounter rfl).trans hruns), ?_⟩
        rw [hstack', hn, Machine.setReg_stack, hstack]
      · rw [if_neg hwide] at hrest ⊢
        obtain ⟨hcounter, hpush⟩ := hrest.cons
        have hnarrow : count.toNat < 2 ^ 32 := by
          rw [BitVec.lt_def] at hwide
          exact Nat.lt_succ_of_le (Nat.not_lt.mp hwide)
        have hcount : (count.setWidth 32).toNat = n + 1 := by
          rw [BitVec.toNat_setWidth, Nat.mod_eq_of_lt hnarrow, hn]
        obtain ⟨m', hruns, hstack'⟩ := pushLoop_runs (m := m₁.set .rcx .w32 (count.setWidth 32))
          (n := n) hpush (by simp [Machine.set, hrax]) (by rw [get_set_self, hcount])
        have hset : Op.exec m₁ (.mov .w32 .rcx (.imm (count.setWidth 32))) =
            .ok (m₁.set .rcx .w32 (count.setWidth 32)) := by
          rw [Op.exec, Machine.operand, ok_bind, BitVec.signExtend_eq]
        refine ⟨m', hfirst.trans ((Runs.op hcounter hset).trans hruns), ?_⟩
        rw [hstack', hn, Machine.set, Machine.setReg_stack, hstack]
    · rw [if_neg hloop] at hrest ⊢
      obtain ⟨m', hruns, hstack'⟩ := pushes_run (m := m₁) hrest hrax
      refine ⟨m', ?_, hstack ▸ hstack'⟩
      rw [List.length_cons, List.length_replicate, Nat.add_comm _ 1, ← Nat.add_assoc]
      exact hfirst.trans hruns
  · rw [if_neg hzero]
    have hnone : count.toNat = 0 := by
      rw [BitVec.lt_def] at hzero
      exact Nat.eq_zero_of_not_pos hzero
    exact ⟨m, Runs.refl _, by rw [hnone]; rfl⟩

/-- The check of the stack limit passes when there is room. -/
theorem limitCode_runs {usage : Option (BitVec 32)} (hcode : HasCode code pos (limitCode usage))
    (hroom : ∀ bytes, usage = some bytes → bytes ≤ m.get .rbx .w32) :
    ∃ m', Runs code (.run pos m) (.run (pos + (limitCode usage).length) m') ∧
      m'.stack = m.stack := by
  cases usage with
  | none => exact ⟨m, Runs.refl _, rfl⟩
  | some bytes =>
    obtain ⟨hsub, hrest⟩ := hcode.cons
    obtain ⟨hbranch, -⟩ := hrest.cons
    obtain ⟨m₁, hexec, hflags, hstack⟩ : ∃ m₁,
        Op.exec m (.alu .sub .w32 .rbx (.imm bytes)) = .ok m₁ ∧
          m₁.flags = subFlags (m.get .rbx .w32) bytes ∧ m₁.stack = m.stack := by
      refine ⟨_, rfl, ?_, rfl⟩
      rw [BitVec.signExtend_eq]
      rfl
    have hpass : Cond.holds m₁.flags .b = false := by
      rw [hflags, Cond.holds_subFlags (by decide), Cond.compare, BitVec.ult_eq_decide,
        decide_eq_false_iff_not, Nat.not_lt]
      exact BitVec.le_def.mp (hroom bytes rfl)
    exact ⟨m₁, (Runs.op hsub hexec).trans (Runs.not_taken hbranch hpass), hstack⟩

theorem assemble_emitPrologueCode (usage : Option (BitVec 32)) (count : BitVec 64) :
    assemble (emitPrologueCode usage count) =
      [.op (.push .rbp), .op (.mov .w64 .rbp (.reg .rsp))] ++ limitCode usage ++
        zeroCode (2 + (limitCode usage).length) count := by
  simp only [assemble, emitPrologueCode, run_bind, run_emit, run_emitCheckStackLimit,
    run_emitZeroLocals, List.nil_append, List.length_append, List.length_singleton]
  rfl

/-- The prologue keeps the caller's `rbp` and puts zeros for the locals on top of it. -/
theorem prologue_runs {usage : Option (BitVec 32)} (count : BitVec 64)
    (hroom : ∀ bytes, usage = some bytes → bytes ≤ m.get .rbx .w32) :
    ∃ m', Runs (assemble (emitPrologueCode usage count)) (.run 0 m)
        (.run (assemble (emitPrologueCode usage count)).length m') ∧
      m'.stack = List.replicate count.toNat 0 ++ m.regs .rbp :: m.stack := by
  rw [assemble_emitPrologueCode]
  have hall : HasCode _ 0 ([.op (.push .rbp), .op (.mov .w64 .rbp (.reg .rsp))] ++
      limitCode usage ++ zeroCode (2 + (limitCode usage).length) count) := fun i ins hins => by
    rwa [Nat.zero_add]
  obtain ⟨hfront, hzero⟩ := hall.append
  rw [Nat.zero_add, List.length_append] at hzero
  obtain ⟨hsave, hlimit⟩ := hfront.append
  obtain ⟨hpush, hrest⟩ := hsave.cons
  obtain ⟨hmov, -⟩ := hrest.cons
  obtain ⟨m₁, hruns₁, hstack₁⟩ := limitCode_runs
    (m := (m.setStack (m.regs .rbp :: m.stack)).setReg .rbp (m.regs .rsp)) hlimit (by
      intro bytes hbytes
      rw [Machine.get, Machine.setReg_regs, if_neg (by decide)]
      exact hroom bytes hbytes)
  obtain ⟨m', hruns', hstack'⟩ := zeroCode_runs (m := m₁) hzero
  have hset : Op.exec (m.setStack (m.regs .rbp :: m.stack)) (.mov .w64 .rbp (.reg .rsp)) =
      .ok ((m.setStack (m.regs .rbp :: m.stack)).setReg .rbp (m.regs .rsp)) := by
    rw [Op.exec, Machine.operand, ok_bind, Machine.set_w64, Machine.get_w64]
    rfl
  refine ⟨m', ?_, by rw [hstack', hstack₁]; rfl⟩
  rw [List.length_append, List.length_append]
  exact (((Runs.op hpush rfl).trans (Runs.op hmov hset)).trans hruns₁).trans hruns'

end Prologue

/-- The slot of a local index: its type and its offset from `rbp`. -/
def FunctionFrame.HasSlot (frame : FunctionFrame) (ft : FuncType)
    (locals : List LocalEntry) (i : BitVec 32) (type : ValType) (off : BitVec 32) : Prop :=
  (frameTypes ft locals)[i.toNat]? = some type ∧ frame.getFrameOffset i = some off

/-- How a frame lays out the parameters of `ft` and the declared `locals`. -/
structure FrameLayout (ft : FuncType) (locals : List LocalEntry) (frame : FunctionFrame) :
    Prop where
  /-- Every local has an index of 32 bits and a slot. -/
  total : (frameTypes ft locals).length < 2 ^ 32 ∧
    ∀ i : BitVec 32, i.toNat < (frameTypes ft locals).length →
      ∃ type off, frame.HasSlot ft locals i type off
  /-- The slots of different indices do not overlap. -/
  disjoint : ∀ i j type type' off off', i ≠ j → frame.HasSlot ft locals i type off →
    frame.HasSlot ft locals j type' off' →
    off.toInt + slotBytes type ≤ off'.toInt ∨ off'.toInt + slotBytes type' ≤ off.toInt
  /-- Parameters lie above the return address. -/
  above : ∀ i type off, i.toNat < ft.paramTypes.length →
    frame.HasSlot ft locals i type off → 16 ≤ off.toInt
  /-- A parameter is where a call or the entry from the host left the argument. -/
  arguments : ∀ args stack rest rbp ret i v type off, args.map Prod.fst = ft.paramTypes →
    stack = pushOperands args rest ∨
      stack = copyArgs (args.flatMap fun arg => appendArg arg.1 arg.2) rest →
    args[i.toNat]? = some (type, v) → frame.HasSlot ft locals i type off →
    slotsAt 0 (rbp :: ret :: stack) type off = pushOperand type v []
  /-- Locals lie in the slots that the prologue counts. -/
  inside : ∀ i type off, ft.paramTypes.length ≤ i.toNat →
    frame.HasSlot ft locals i type off →
    -(8 * frame.localCount.toNat : Int) ≤ off.toInt ∧ off.toInt + slotBytes type ≤ 0
  /-- The prologue puts as many zeros on top of the saved `rbp`. -/
  cleared : ∀ usage (m : Machine), (∀ bytes, usage = some bytes → bytes ≤ m.get .rbx .w32) →
    ∃ m', Runs (assemble (emitPrologueCode usage frame.localCount)) (.run 0 m)
        (.run (assemble (emitPrologueCode usage frame.localCount)).length m') ∧
      m'.stack = List.replicate frame.localCount.toNat 0 ++ m.regs .rbp :: m.stack
  /-- Offsets are those over the integers. -/
  offsets : ∀ i type off, frame.HasSlot ft locals i type off →
    off.toInt = slotOffset ft.paramTypes (declaredTypes locals) i.toNat
  /-- The last of the additions to `current_offset` does not overflow. -/
  currentOffset : 16 + frameBytes ft.paramTypes < 2 ^ 32
  /-- Neither do the sums and products that make the groups, and the groups are in order. -/
  groups : GroupsExact locals 0 0 frame.locals ∧
    frame.locals.Pairwise fun group group' => group.endIdx ≤ group'.endIdx
  /-- Nor does the arithmetic of a lookup. -/
  lookups : ∀ i type off, ft.paramTypes.length ≤ i.toNat →
    frame.HasSlot ft locals i type off →
    ∃ pos ∈ frame.locals, LookupExact pos (i - BitVec.ofNat 32 ft.paramTypes.length) off

theorem frameTypes_length (ft : FuncType) (locals : List LocalEntry) :
    (frameTypes ft locals).length = ft.paramTypes.length + (declaredTypes locals).length :=
  List.length_append

/-- Every parameter has its slot. -/
theorem getFrameOffset_parameter (frame : FunctionFrame) {i : BitVec 32}
    (h : parameterOffsets frame.ft.paramTypes.reverse 16 [] = .ok frame.params)
    (hi : i.toNat < frame.ft.paramTypes.length) (locals : List ValType) :
    ∃ off, frame.getFrameOffset i = some off ∧
      off.toInt = slotOffset frame.ft.paramTypes locals i.toNat := by
  have hstart : (16 : BitVec 32).toNat = 16 + 0 := rfl
  obtain ⟨⟨front, hfront, hlength, hparam⟩, -⟩ := parameterOffsets_spec hstart h
  rw [List.append_nil] at hfront
  rw [List.length_reverse, ← hfront] at hlength
  rw [← hfront] at hparam
  have hget := List.getElem?_eq_getElem (hlength ▸ hi)
  obtain ⟨hfits, hvalue⟩ := hparam _ _ hget
  rw [List.reverse_reverse] at hvalue
  refine ⟨_, (if_pos hi).trans hget, ?_⟩
  rw [BitVec.toInt_eq_toNat_of_lt (by omega), hvalue, slotOffset, if_pos hi]
  rfl

/-- Every local is found in its group. -/
theorem getFrameOffset_local (frame : FunctionFrame) {locals : List LocalEntry} {i : BitVec 32}
    (hexact : GroupsExact locals 0 0 frame.locals)
    (htotal : 0 + frameBytes (declaredTypes locals) ≤ 2 ^ 31)
    (hi : frame.ft.paramTypes.length ≤ i.toNat)
    (hlt : i.toNat < frame.ft.paramTypes.length + (declaredTypes locals).length) :
    ∃ pos ∈ frame.locals, ∃ off, frame.getFrameOffset i = some off ∧
      LookupExact pos (i - BitVec.ofNat 32 frame.ft.paramTypes.length) off ∧
      off.toInt = slotOffset frame.ft.paramTypes (declaredTypes locals) i.toNat := by
  have hidx : (i - BitVec.ofNat 32 frame.ft.paramTypes.length).toNat =
      i.toNat - frame.ft.paramTypes.length := by
    have hcount : (BitVec.ofNat 32 frame.ft.paramTypes.length).toNat = frame.ft.paramTypes.length :=
      Nat.mod_eq_of_lt (hi.trans_lt i.isLt)
    rw [BitVec.toNat_sub_of_le (by rw [BitVec.le_def, hcount]; exact hi), hcount]
  obtain ⟨pos, hpos, off, hfound, hlookup, hvalue⟩ :=
    localFrameOffset_exact hexact htotal (Nat.zero_le _) (by rw [hidx]; omega)
  refine ⟨pos, hpos, off, (if_neg (Nat.not_lt.mpr hi)).trans hfound, hlookup, ?_⟩
  rw [hvalue, slotOffset, if_neg (Nat.not_lt.mpr hi), hidx, Nat.zero_add, Nat.sub_zero]

/-- Every accepted frame keeps its slots apart, where the caller and the prologue put them. -/
theorem jit_frame_layout {ft : FuncType} {locals : List LocalEntry} {frame : FunctionFrame}
    (hcounts : ∀ entry ∈ locals, entry.count < 2 ^ 32)
    (h : FunctionFrame.make ft locals = .ok frame) : FrameLayout ft locals frame := by
  simp only [FunctionFrame.make, bind_eq_ok, pure_eq_ok] at h
  obtain ⟨params, hparams, groups, hgroups, rfl⟩ := h
  have hstart : (16 : BitVec 32).toNat = 16 + 0 := rfl
  obtain ⟨-, hcurrent⟩ := parameterOffsets_spec hstart hparams
  rw [Nat.add_zero, frameBytes_reverse] at hcurrent
  have hnone : (0 : BitVec 32).toNat = 0 := rfl
  have hbelow : (0 : BitVec 32).toInt = -((0 : Nat) : Int) := rfl
  obtain ⟨hexact, htotal⟩ :=
    localGroups_exact hcounts hnone hbelow (Nat.le_refl _) (Nat.zero_le _) hgroups
  have hslots : (0 : BitVec 64).toNat * 8 = 0 := rfl
  have hcount := countLocals_toNat hcounts (Nat.mul_comm _ _ ▸ hslots) htotal
  have hlength := frameTypes_length ft locals
  have hparamBytes := length_le_frameBytes ft.paramTypes
  have hlocalBytes := length_le_frameBytes (declaredTypes locals)
  let frame : FunctionFrame := ⟨ft, params, groups, countLocals locals 0⟩
  have hoffset : ∀ i type off, frame.HasSlot ft locals i type off →
      off.toInt = slotOffset ft.paramTypes (declaredTypes locals) i.toNat := by
    intro i type off hslot
    rcases Nat.lt_or_ge i.toNat ft.paramTypes.length with hparam | hlocal
    · obtain ⟨off', hfound, hvalue⟩ :=
        getFrameOffset_parameter frame hparams hparam (declaredTypes locals)
      obtain rfl := Option.some.inj (hslot.2.symm.trans hfound)
      exact hvalue
    · have hlt := (List.getElem?_eq_some_iff.mp hslot.1).1
      obtain ⟨-, -, off', hfound, -, hvalue⟩ :=
        getFrameOffset_local frame hexact htotal hlocal (hlength ▸ hlt)
      obtain rfl := Option.some.inj (hslot.2.symm.trans hfound)
      exact hvalue
  have hlookup : ∀ i type off, ft.paramTypes.length ≤ i.toNat →
      frame.HasSlot ft locals i type off →
      ∃ pos ∈ groups, LookupExact pos (i - BitVec.ofNat 32 ft.paramTypes.length) off := by
    intro i type off hlocal hslot
    have hlt := (List.getElem?_eq_some_iff.mp hslot.1).1
    obtain ⟨pos, hpos, off', hfound, hexact', -⟩ :=
      getFrameOffset_local frame hexact htotal hlocal (hlength ▸ hlt)
    obtain rfl := Option.some.inj (hslot.2.symm.trans hfound)
    exact ⟨pos, hpos, hexact'⟩
  exact {
    total := by
      refine ⟨by omega, fun i hi => ?_⟩
      have htype := List.getElem?_eq_getElem hi
      rcases Nat.lt_or_ge i.toNat ft.paramTypes.length with hparam | hlocal
      · obtain ⟨off, hfound, -⟩ := getFrameOffset_parameter frame hparams hparam []
        exact ⟨_, off, htype, hfound⟩
      · obtain ⟨-, -, off, hfound, -⟩ :=
          getFrameOffset_local frame hexact htotal hlocal (hlength ▸ hi)
        exact ⟨_, off, htype, hfound⟩
    disjoint := by
      intro i j type type' off off' hne hi hj
      rw [hoffset _ _ _ hi, hoffset _ _ _ hj]
      rcases Nat.lt_or_gt_of_ne (mt BitVec.eq_of_toNat_eq hne) with hlt | hgt
      · exact .inr (slotOffset_disjoint hlt hj.1)
      · exact .inl (slotOffset_disjoint hgt hi.1)
    above := by
      intro i type off hparam hslot
      rw [hoffset _ _ _ hslot]
      exact slotOffset_parameter hparam
    arguments := by
      intro args stack rest rbp ret i v type off hargs hstack hv hslot
      have hpushed : stack = pushOperands args rest :=
        hstack.elim id fun h => h.trans (copyArgs_eq_pushOperands args rest)
      rw [hpushed]
      exact slotsAt_argument hv rest rbp ret (hargs ▸ hoffset _ _ _ hslot)
    inside := by
      intro i type off hlocal hslot
      have hinside := slotOffset_local hlocal hslot.1
      rw [← hoffset _ _ _ hslot] at hinside
      refine ⟨?_, hinside.2⟩
      rw [← Nat.zero_add (frameBytes _), ← hcount] at hinside
      exact_mod_cast hinside.1
    cleared := fun usage m hroom => prologue_runs _ hroom
    offsets := hoffset
    currentOffset := hcurrent
    groups := ⟨hexact, hexact.sorted.2⟩
    lookups := hlookup }

/-- Two parameters, and an empty declaration among those of the locals. -/
def mixedFrame : FunctionFrame :=
  ⟨⟨0x60, [.v128, .i32], 0, none⟩, [24, 16], [⟨2, -16, 8⟩, ⟨2, -16, 8⟩, ⟨3, -32, 16⟩], 4⟩

theorem mixedFrame_layout :
    FunctionFrame.make mixedFrame.ft [⟨2, .i64⟩, ⟨0, .f32⟩, ⟨1, .v128⟩] = .ok mixedFrame ∧
      FrameLayout mixedFrame.ft [⟨2, .i64⟩, ⟨0, .f32⟩, ⟨1, .v128⟩] mixedFrame :=
  ⟨by decide +kernel, jit_frame_layout (by decide) (by decide +kernel)⟩

end EosVm
