import EosVm.Invariants.Pointer
import EosVm.Lib.Leb128
import EosVm.Source.Leb128

/-!
# LEB128 codec

A number is read from code exactly when the code starts with one of its encodings, and then the
pointer moves by the length of that encoding; otherwise it stays. What the constructors store for a
value is one of its encodings.
-/

set_option autoImplicit false

namespace EosVm

open Lib Lib.Leb128

/-- What holds of every `guarded_ptr`: its position is between its origin and its bound, and the
memory reaches to the bound. -/
structure WasmCodePtr.Valid (p : WasmCodePtr) : Prop where
  orig_le : p.orig ≤ p.raw
  raw_le : p.raw ≤ p.bnds
  bnds_le : p.bnds ≤ p.buf.length

section Bytes

variable {code : WasmCodePtr}

theorem WasmCodePtr.Valid.drop_remaining (h : code.Valid) {cnt : Nat}
    (hlt : code.raw + cnt < code.bnds) :
    code.remaining.drop cnt = code.buf.getD (code.raw + cnt) 0 ::
      code.remaining.drop (cnt + 1) := by
  have hlen := h.bnds_le
  have hlength : (code.buf.take code.bnds).length = code.bnds := by
    rw [List.length_take]
    omega
  rw [WasmCodePtr.remaining, List.drop_drop, List.drop_drop, List.drop_eq_getElem_cons (by omega),
    List.getElem_take, List.getD_eq_getElem?_getD, List.getElem?_eq_getElem (by omega)]
  rfl

theorem drop_remaining_nil {cnt : Nat}
    (hge : code.bnds ≤ code.raw + cnt) : code.remaining.drop cnt = [] := by
  rw [WasmCodePtr.remaining, List.drop_drop]
  exact List.drop_of_length_le (by rw [List.length_take]; omega)

theorem highBit_eq_zero (b : UInt8) : b &&& 0x80 = 0 ↔ b.toNat < 128 := by
  have hall : ∀ x : BitVec 8, x &&& 0x80#8 = 0#8 ↔ x.toNat < 128 := by decide +kernel
  rw [← UInt8.toBitVec_inj]
  exact hall b.toBitVec

theorem isEncoding_cons_high {b : UInt8} {bytes : List UInt8} (hb : 128 ≤ b.toNat) :
    IsEncoding (b :: bytes) ↔ IsEncoding bytes := by
  cases bytes with
  | nil => exact iff_of_false (Nat.not_lt.mpr hb) id
  | cons c bytes => exact and_iff_right hb

/-- The loop of the constructors finds an encoding of at most `left` bytes. -/
theorem lebBytes_eq_ok_iff (h : code.Valid) {lastOk : UInt8 → Except VmError Unit} {left cnt : Nat}
    {storage : List UInt8} :
    lebBytes lastOk code left cnt = .ok storage ↔
      IsEncoding storage ∧ storage.length ≤ left ∧ storage <+: code.remaining.drop cnt ∧
        (storage.length = left → lastOk (storage.getLastD 0) = .ok ()) := by
  induction left generalizing cnt storage with
  | zero =>
    refine iff_of_false (by simp [lebBytes]) ?_
    rintro ⟨hencoding, hlength, -⟩
    exact hencoding.ne_nil (List.length_eq_zero_iff.mp (Nat.le_zero.mp hlength))
  | succ left ih =>
    have horig := h.orig_le
    have hraw := h.raw_le
    rcases Nat.lt_or_ge (code.raw + cnt) code.bnds with hlt | hge
    · have hoffset : code.offset + cnt < code.bounds := by
        unfold WasmCodePtr.offset WasmCodePtr.bounds
        omega
      have hat : code.at_ cnt = .ok (code.buf.getD (code.raw + cnt) 0) := by
        simp [WasmCodePtr.at_, vmAssert, show cnt < code.bnds - code.raw by omega]
      rw [lebBytes, h.drop_remaining hlt]
      simp only [vmAssert, hoffset, decide_true, if_true, hat, ok_bind]
      obtain ⟨b, hb⟩ : ∃ b, b = code.buf.getD (code.raw + cnt) 0 := ⟨_, rfl⟩
      rw [← hb]
      by_cases hlow : b.toNat < 128
      · have hself : [b] <+: b :: code.remaining.drop (cnt + 1) := ⟨_, rfl⟩
        rw [if_pos ((highBit_eq_zero b).mpr hlow)]
        constructor
        · intro hok
          obtain rfl : [b] = storage := by
            split at hok <;> simp only [bind_eq_ok, pure_eq_ok] at hok
            · exact hok.choose_spec.2
            · exact hok
          refine ⟨hlow, Nat.succ_le_succ (Nat.zero_le _), hself, fun hone => ?_⟩
          have hleft : left = 0 := by simpa using hone.symm
          rw [if_pos hleft, bind_eq_ok] at hok
          exact hok.choose_spec.1
        · rintro ⟨hencoding, hlength, hstart, hlast⟩
          have hb : IsEncoding [b] := hlow
          obtain rfl := hencoding.eq_of_starts hb hstart hself
          split
          next hzero =>
            exact bind_eq_ok.mpr ⟨(), hlast (by rw [hzero]; rfl), rfl⟩
          next => rfl
      · have hhigh : 128 ≤ b.toNat := Nat.not_lt.mp hlow
        rw [if_neg (fun hzero => hlow ((highBit_eq_zero b).mp hzero))]
        simp only [bind_eq_ok, pure_eq_ok, ih]
        constructor
        · rintro ⟨rest, ⟨hencoding, hlength, hstart, hlast⟩, rfl⟩
          refine ⟨(isEncoding_cons_high hhigh).mpr hencoding, Nat.succ_le_succ hlength,
            (List.prefix_cons_inj b).mpr hstart, fun heq => ?_⟩
          rw [← hlast (Nat.succ_inj.mp heq)]
          cases rest with
          | nil => exact hencoding.elim
          | cons c rest => rfl
        · rintro ⟨hencoding, hlength, hstart, hlast⟩
          cases storage with
          | nil => exact hencoding.elim
          | cons c rest =>
            obtain ⟨rfl, htail⟩ := List.cons_prefix_cons.mp hstart
            have hrest := (isEncoding_cons_high hhigh).mp hencoding
            refine ⟨rest, ⟨hrest, Nat.succ_le_succ_iff.mp hlength, htail, fun heq => ?_⟩, rfl⟩
            rw [← hlast (congrArg Nat.succ heq)]
            cases rest with
            | nil => exact hrest.elim
            | cons c' rest => rfl
    · refine iff_of_false ?_ ?_
      · have hoffset : ¬ code.offset + cnt < code.bounds := by
          unfold WasmCodePtr.offset WasmCodePtr.bounds
          omega
        simp [lebBytes, vmAssert, hoffset]
      · rintro ⟨hencoding, -, hstart, -⟩
        rw [drop_remaining_nil hge, List.prefix_nil] at hstart
        exact hencoding.ne_nil hstart

/-- The pointer after `n` bytes. -/
def WasmCodePtr.plus (code : WasmCodePtr) (n : Nat) : WasmCodePtr :=
  { code with raw := code.raw + n }

/-- What follows a part of the code. -/
theorem plus_of_remaining (h : code.Valid) {bytes rest : List UInt8}
    (hbytes : code.remaining = bytes ++ rest) :
    (code.plus bytes.length).Valid ∧ (code.plus bytes.length).remaining = rest := by
  have hlength : code.remaining.length = code.bnds - code.raw := by
    rw [WasmCodePtr.remaining, List.length_drop, List.length_take]
    have := h.bnds_le
    omega
  have hle := congrArg List.length hbytes
  rw [hlength, List.length_append] at hle
  have hraw := h.raw_le
  refine ⟨⟨h.orig_le.trans (Nat.le_add_right _ _), ?_, h.bnds_le⟩, ?_⟩
  · change code.raw + bytes.length ≤ code.bnds
    omega
  · have hdrop : (code.plus bytes.length).remaining = code.remaining.drop bytes.length := by
      rw [WasmCodePtr.remaining, WasmCodePtr.remaining, List.drop_drop]
      rfl
    rw [hdrop, hbytes, List.drop_left]

theorem advance_of_starts (h : code.Valid) {bytes : List UInt8}
    (hstart : bytes <+: code.remaining) :
    code.advance bytes.length = .ok (code.plus bytes.length) := by
  have hlength : code.remaining.length ≤ code.bnds - code.raw := by
    rw [WasmCodePtr.remaining, List.length_drop, List.length_take]
    have := h.bnds_le
    omega
  exact advance_eq_ok.mpr ⟨hstart.length_le.trans hlength, rfl⟩

/-- The constructors from code, on every code. -/
theorem fromCode_eq (h : code.Valid) (N : Nat) (lastOk : UInt8 → Except VmError Unit) :
    fromCode N lastOk code =
      match lebBytes lastOk code (bytesNeeded N) 0 with
      | .ok storage => (.ok ⟨storage, storage.length⟩, code.plus storage.length)
      | .error e => (.error e, code) := by
  rw [fromCode]
  cases hbytes : lebBytes lastOk code (bytesNeeded N) 0 with
  | error e => rfl
  | ok storage =>
    have hstart := ((lebBytes_eq_ok_iff h).mp hbytes).2.2.1
    simp only [advance_of_starts h hstart]

end Bytes

theorem collectDigits_eq (w : Nat) (storage : List UInt8) :
    collectDigits w storage = BitVec.ofNat w (unsignedValue storage) := by
  induction storage with
  | nil => rfl
  | cons b storage ih =>
    have hstep : collectDigits w (b :: storage) =
        collectDigits w storage <<< 7 ||| (b &&& 0x7f).toBitVec.setWidth w := rfl
    rw [hstep, ih, unsignedValue_cons]
    apply BitVec.eq_of_getLsbD_eq
    intro j hj
    have hdigit : b.toNat % 128 < 2 ^ 7 := Nat.mod_lt _ (by decide)
    have hmask : ∀ j, (b &&& 0x7f).toBitVec.getLsbD j = (b.toNat % 128).testBit j := by
      intro j
      have hand : (b &&& 0x7f).toBitVec.toNat = b.toNat % 128 :=
        Nat.and_two_pow_sub_one_eq_mod b.toNat 7
      rw [BitVec.getLsbD, hand]
    rw [BitVec.getLsbD_or, BitVec.getLsbD_shiftLeft, BitVec.getLsbD_setWidth, hmask,
      BitVec.getLsbD_ofNat, BitVec.getLsbD_ofNat, Nat.add_comm,
      Nat.testBit_two_pow_mul_add _ hdigit]
    by_cases h7 : j < 7
    · simp [hj, h7]
    · have hout : (b.toNat % 128).testBit j = false :=
        Nat.testBit_lt_two_pow
          (hdigit.trans_le (Nat.pow_le_pow_right (n := 2) (by decide) (by omega)))
      simp [hj, h7, hout, show j - 7 < w by omega]

/-- The values of `N` that the templates admit. -/
def IsUnsignedWidth (N : Nat) : Prop := N = 1 ∨ N = 7 ∨ N = 32

def IsSignedWidth (N : Nat) : Prop := N = 7 ∨ N = 32 ∨ N = 64

theorem IsUnsignedWidth.bytesNeeded_eq {N : Nat} (h : IsUnsignedWidth N) :
    bytesNeeded N = maxBytes N := by
  rcases h with rfl | rfl | rfl <;> rfl

theorem IsSignedWidth.bytesNeeded_eq {N : Nat} (h : IsSignedWidth N) :
    bytesNeeded N = maxBytes N := by
  rcases h with rfl | rfl | rfl <;> rfl

theorem forall_fin_seven {k : Nat} {P : Nat → Prop} :
    (∀ j, k ≤ j → j < 7 → P j) ↔ ∀ j : Fin 7, k ≤ j.val → P j :=
  ⟨fun h j hj => h j hj j.isLt, fun h j hj hj7 => h ⟨j, hj7⟩ hj⟩

/-- The check of the last byte of an unsigned number. -/
theorem unsignedLast_iff {N : Nat} (h : IsUnsignedWidth N) (b : UInt8) :
    (unusedMask N &&& b == 0) = true ↔
      ∀ j, lastBits N ≤ j → j < 7 → b.toNat.testBit j = false := by
  have hall : ∀ x : BitVec 8, ((unusedMask N).toBitVec &&& x = 0#8 ↔
      ∀ j : Fin 7, lastBits N ≤ j.val → x.toNat.testBit j = false) := by
    rcases h with rfl | rfl | rfl <;> decide +kernel
  rw [beq_iff_eq, ← UInt8.toBitVec_inj, forall_fin_seven]
  exact hall b.toBitVec

/-- The check of the last byte of a signed number. -/
theorem signedLast_iff {N : Nat} (h : IsSignedWidth N) (b : UInt8) :
    (unusedMask N &&& b == if b.toBitVec.setWidth 32 &&&
        (1#32 <<< (N - 7 * (bytesNeeded N - 1) - 1)) ≠ 0 then unusedMask N else 0) = true ↔
      ∀ j, lastBits N ≤ j → j < 7 → b.toNat.testBit j = b.toNat.testBit (lastBits N - 1) := by
  have hall : ∀ x : BitVec 8, ((unusedMask N).toBitVec &&& x = (if x.setWidth 32 &&&
        (1#32 <<< (N - 7 * (bytesNeeded N - 1) - 1)) ≠ 0 then unusedMask N else 0).toBitVec ↔
      ∀ j : Fin 7, lastBits N ≤ j.val → x.toNat.testBit j = x.toNat.testBit (lastBits N - 1)) := by
    rcases h with rfl | rfl | rfl <;> decide +kernel
  rw [beq_iff_eq, ← UInt8.toBitVec_inj, forall_fin_seven]
  exact hall b.toBitVec

section Decoding

variable {code : WasmCodePtr} {N : Nat} {storage : List UInt8}

theorem varuintBytes_iff (h : code.Valid) (hN : IsUnsignedWidth N) :
    lebBytes (fun b => vmAssert (unusedMask N &&& b == 0)
      (.wasmParse "unused bits of unsigned leb128 must be 0")) code (bytesNeeded N) 0 =
      .ok storage ↔
      storage <+: code.remaining ∧ IsUnsigned N storage := by
  rw [lebBytes_eq_ok_iff h, hN.bytesNeeded_eq, List.drop_zero]
  simp only [vmAssert_eq_ok, unsignedLast_iff hN]
  constructor
  · rintro ⟨he, hl, hp, hu⟩
    exact ⟨hp, he, hl, hu⟩
  · rintro ⟨hp, he, hl, hu⟩
    exact ⟨he, hl, hp, hu⟩

theorem varintBytes_iff (h : code.Valid) (hN : IsSignedWidth N)
    {lastOk : UInt8 → Except VmError Unit}
    (hlast : ∀ b, lastOk b = .ok () ↔
      ∀ j, lastBits N ≤ j → j < 7 → b.toNat.testBit j = b.toNat.testBit (lastBits N - 1)) :
    lebBytes lastOk code (bytesNeeded N) 0 = .ok storage ↔
      storage <+: code.remaining ∧ IsSigned N storage := by
  rw [lebBytes_eq_ok_iff h, hN.bytesNeeded_eq, List.drop_zero, hlast]
  exact ⟨fun ⟨he, hl, hp, hu⟩ => ⟨hp, he, hl, hu⟩, fun ⟨hp, he, hl, hu⟩ => ⟨he, hl, hp, hu⟩⟩

/-- A function reads a number from code exactly when the code starts with one of its encodings. It
moves the pointer by the length of the encoding, and not at all when it fails. -/
structure Reads {α : Type} (f : CodeM α) (Encodes : List UInt8 → Prop) (value : List UInt8 → α)
    (code : WasmCodePtr) : Prop where
  accepts : ∀ bytes, bytes <+: code.remaining → Encodes bytes →
    f code = (.ok (value bytes), code.plus bytes.length)
  rejects : (∀ bytes, bytes <+: code.remaining → ¬ Encodes bytes) → ∃ e, f code = (.error e, code)

/-- A constructor followed by `to`. -/
theorem reads_of_bytes (h : code.Valid) {α : Type} {lastOk : UInt8 → Except VmError Unit}
    {Encodes : List UInt8 → Prop} {value : List UInt8 → α} {convert : Leb128 → α}
    (hbytes : ∀ storage, lebBytes lastOk code (bytesNeeded N) 0 = .ok storage ↔
      storage <+: code.remaining ∧ Encodes storage)
    (hvalue : ∀ storage, Encodes storage → convert ⟨storage, storage.length⟩ = value storage) :
    Reads (fun code => ((fromCode N lastOk code).1.map convert, (fromCode N lastOk code).2))
      Encodes value
      code := by
  constructor
  · intro bytes hstart hencodes
    rw [fromCode_eq h, (hbytes bytes).mpr ⟨hstart, hencodes⟩]
    simp only [Except.map, hvalue bytes hencodes]
  · intro hnone
    rw [fromCode_eq h]
    cases hread : lebBytes lastOk code (bytesNeeded N) 0 with
    | error e => exact ⟨e, rfl⟩
    | ok storage =>
      obtain ⟨hstart, hencodes⟩ := (hbytes storage).mp hread
      exact absurd hencodes (hnone storage hstart)

theorem singleton_of_encoding (h : IsEncoding storage) (hlength : storage.length ≤ 1) :
    ∃ b : UInt8, storage = [b] ∧ b.toNat < 128 := by
  obtain ⟨b, rfl⟩ := List.length_eq_one_iff.mp (Nat.le_antisymm hlength h.length_pos)
  exact ⟨b, rfl, h⟩

theorem varuintTo_eq (hN : IsUnsignedWidth N) (h : IsUnsigned N storage) (used : Nat) :
    varuintTo N ⟨storage, used⟩ = unsignedValue storage := by
  obtain ⟨-, -, hlt⟩ := (isUnsigned_iff (by rcases hN with rfl | rfl | rfl <;> decide)).mp h
  rcases hN with rfl | rfl | rfl
  · obtain ⟨b, rfl, hb⟩ := singleton_of_encoding h.encoding h.length
    have hvalue : unsignedValue [b] = b.toNat := Nat.mod_eq_of_lt hb
    have hzero : b = 0 ↔ b.toNat = 0 := UInt8.toNat_inj.symm
    rw [hvalue] at hlt ⊢
    simp only [varuintTo, if_true, List.headD_cons, hzero]
    split <;> omega
  · obtain ⟨b, rfl, hb⟩ := singleton_of_encoding h.encoding h.length
    exact Nat.and_two_pow_sub_one_eq_mod b.toNat 7
  · simp only [varuintTo, collectDigits_eq, BitVec.toNat_ofNat]
    exact Nat.mod_eq_of_lt hlt

theorem setWidth_high_ones {w : Nat} (hw : w ≤ 64) (s : Nat) :
    (BitVec.allOnes 64 <<< s).setWidth w = BitVec.allOnes w <<< s := by
  apply BitVec.eq_of_getLsbD_eq
  intro j hj
  rw [BitVec.getLsbD_setWidth, BitVec.getLsbD_shiftLeft, BitVec.getLsbD_shiftLeft,
    BitVec.getLsbD_allOnes, BitVec.getLsbD_allOnes]
  simp [hj, show j < 64 by omega, show j - s < w by omega, show j - s < 64 by omega]

/-- Filling the bits above `s` of a number below `2 ^ s` subtracts `2 ^ s`. -/
theorem or_high_ones {w s u : Nat} (hw : w ≤ 64) (hu : u < 2 ^ s) :
    BitVec.ofNat w u ||| (BitVec.allOnes 64 <<< s).setWidth w = BitVec.ofInt w (u - 2 ^ s) := by
  have hones : (BitVec.allOnes 64 <<< s).setWidth w = -BitVec.twoPow w s := by
    rw [setWidth_high_ones hw, BitVec.shiftLeft_eq_mul_twoPow, ← BitVec.neg_one_eq_allOnes,
      BitVec.neg_mul, BitVec.one_mul]
  have hdisjoint : BitVec.ofNat w u &&& (BitVec.allOnes 64 <<< s).setWidth w = 0#w := by
    apply BitVec.eq_of_getLsbD_eq
    intro j hj
    rw [BitVec.getLsbD_and, BitVec.getLsbD_ofNat, BitVec.getLsbD_setWidth, BitVec.getLsbD_shiftLeft]
    rcases Nat.lt_or_ge j s with hlow | hhigh
    · simp [hlow]
    · simp [Nat.testBit_lt_two_pow (hu.trans_le (Nat.pow_le_pow_right (n := 2) (by decide) hhigh))]
  have htwo : BitVec.twoPow w s = BitVec.ofInt w (2 ^ s) := by
    apply BitVec.eq_of_toNat_eq
    rw [BitVec.toNat_twoPow, BitVec.toNat_ofInt]
    norm_cast
  rw [← BitVec.add_eq_or_of_and_eq_zero _ _ hdisjoint, hones, htwo, ← BitVec.ofInt_neg,
    ← BitVec.ofInt_natCast, ← BitVec.ofInt_add]
  rfl

theorem signBit_iff (b : UInt8) (hb : b.toNat < 128) : b &&& 0x40 ≠ 0 ↔ 64 ≤ b.toNat := by
  have hall : ∀ x : BitVec 8, x.toNat < 128 → (x &&& 0x40#8 ≠ 0#8 ↔ 64 ≤ x.toNat) := by
    decide +kernel
  rw [ne_eq, ← UInt8.toBitVec_inj]
  exact hall b.toBitVec hb

theorem getD_last (storage : List UInt8) :
    storage.getD (storage.length - 1) 0 = storage.getLastD 0 := by
  cases storage with
  | nil => rfl
  | cons b storage => simp [List.getLastD_eq_getLast?, List.getLast?_eq_getElem?]

/-- `_to` computes the value modulo `2 ^ w`. -/
theorem varintCollect_eq {w : Nat} (hw : w ≤ 64) (hfull : w ≤ 7 * bytesNeeded N)
    (h : IsEncoding storage) (hlength : storage.length ≤ bytesNeeded N) :
    varintCollect N w ⟨storage, storage.length⟩ = BitVec.ofInt w (signedValue storage) := by
  have hlast : (storage.getLastD 0).toNat < 128 := h.split.choose_spec.2.2
  have hpos := h.length_pos
  simp only [varintCollect, collectDigits_eq, getD_last, signBit_iff _ hlast]
  rw [signedValue, lastByte]
  by_cases hneg : 64 ≤ (storage.getLastD 0).toNat
  · rw [if_pos hneg]
    rcases Nat.lt_or_eq_of_le hlength with hshort | heq
    · rw [if_pos ⟨hpos, hshort, hneg⟩, Nat.mul_comm storage.length 7]
      exact or_high_ones hw (unsignedValue_lt storage)
    · obtain ⟨c, hc⟩ : (2 ^ w : Int) ∣ 2 ^ (7 * storage.length) := pow_dvd_pow 2 (heq ▸ hfull)
      rw [if_neg (by omega), hc]
      apply BitVec.eq_of_toNat_eq
      rw [BitVec.toNat_ofNat, BitVec.toNat_ofInt]
      push_cast
      rw [Int.sub_mul_emod_self_left]
      exact_mod_cast (Int.toNat_natCast _).symm
  · rw [if_neg (by tauto), if_neg hneg, Int.sub_zero, BitVec.ofInt_natCast]

theorem toInt_ofInt_of_range {w : Nat} (hw : 0 < w) {v : Int} (hlower : -2 ^ (w - 1) ≤ v)
    (hupper : v < 2 ^ (w - 1)) : (BitVec.ofInt w v).toInt = v := by
  have hpow : (2 : Nat) ^ w = 2 * 2 ^ (w - 1) := by rw [← Nat.pow_succ']; congr 1; omega
  have hcast : ((2 ^ (w - 1) : Nat) : Int) = 2 ^ (w - 1) := by norm_cast
  rw [BitVec.toInt_ofInt]
  exact Int.bmod_eq_of_le (by omega) (by omega)

theorem varintTo_eq (hN : IsSignedWidth N) (h : IsSigned N storage) :
    varintTo N ⟨storage, storage.length⟩ = signedValue storage := by
  obtain ⟨-, -, hlower, hupper⟩ :=
    (isSigned_iff (by rcases hN with rfl | rfl | rfl <;> decide)).mp h
  have hlength : storage.length ≤ bytesNeeded N := hN.bytesNeeded_eq ▸ h.length
  rcases hN with rfl | rfl | rfl
  · obtain ⟨b, rfl, hb⟩ := singleton_of_encoding h.encoding h.length
    have hall : ∀ x : BitVec 8, x.toNat < 128 →
        (if x &&& 0x40#8 ≠ 0#8 then x ||| (BitVec.allOnes 32 <<< 7).setWidth 8 else x).toInt =
          (x.toNat % 128 : Nat) - if 64 ≤ x.toNat then 2 ^ 7 else 0 := by
      decide +kernel
    have hbit : b &&& 0x40 ≠ 0 ↔ b.toBitVec &&& 0x40#8 ≠ 0#8 := by
      rw [ne_eq, ← UInt8.toBitVec_inj]
      rfl
    simp only [varintTo, List.headD_cons, hbit, if_true]
    exact hall b.toBitVec hb
  · have hcollect := varintCollect_eq (N := 32) (w := 32) (by decide) (by decide) h.encoding hlength
    simp only [varintTo, hcollect]
    exact toInt_ofInt_of_range (by decide) hlower hupper
  · have hcollect := varintCollect_eq (N := 64) (w := 64) (by decide) (by decide) h.encoding hlength
    simp only [varintTo, hcollect]
    exact toInt_ofInt_of_range (by decide) hlower hupper

theorem parseUnsigned_reads (h : code.Valid) (hN : IsUnsignedWidth N) :
    Reads (parseUnsigned N) (IsUnsigned N) unsignedValue code :=
  reads_of_bytes h (fun _ => varuintBytes_iff h hN) fun _ hs => varuintTo_eq hN hs _

theorem parseSigned_reads (h : code.Valid) (hN : IsSignedWidth N) :
    Reads (parseSigned N) (IsSigned N) signedValue code := by
  refine reads_of_bytes h (fun _ => varintBytes_iff h hN fun b => ?_) fun _ hs => varintTo_eq hN hs
  rw [vmAssert_eq_ok]
  exact signedLast_iff hN b

end Decoding

/-- The byte that is stored for the low digit of a value. -/
theorem toNat_digit {w : Nat} (hw : 8 ≤ w) (v : BitVec w) :
    (UInt8.ofBitVec ((v &&& 0x7f).setWidth 8)).toNat = v.toNat % 128 := by
  have hmask : (0x7f : BitVec w).toNat = 127 :=
    Nat.mod_eq_of_lt ((by decide : 127 < 2 ^ 8).trans_le (Nat.pow_le_pow_right (by decide) hw))
  have hand : (v &&& 0x7f).toNat = v.toNat % 128 := by
    rw [BitVec.toNat_and, hmask]
    exact Nat.and_two_pow_sub_one_eq_mod v.toNat 7
  rw [UInt8.toNat_ofBitVec, BitVec.toNat_setWidth, hand]
  omega

theorem toNat_or_high {b : UInt8} (hb : b.toNat < 128) :
    128 ≤ (b ||| 0x80).toNat ∧ (b ||| 0x80).toNat % 128 = b.toNat := by
  have hall : ∀ x : BitVec 8, x.toNat < 128 →
      128 ≤ (x ||| 0x80#8).toNat ∧ (x ||| 0x80#8).toNat % 128 = x.toNat := by decide +kernel
  exact hall b.toBitVec hb

/-- What the loops of the constructors store. -/
structure Stores (r : Leb128) (left used : Nat) : Prop where
  encoding : IsEncoding r.storage
  length : r.storage.length ≤ left
  bytesUsed : r.bytesUsed = used + r.storage.length

theorem Stores.single {b : UInt8} (hb : b.toNat < 128) (left used : Nat) :
    Stores ⟨[b], used + 1⟩ (left + 1) used :=
  ⟨hb, Nat.succ_le_succ (Nat.zero_le _), rfl⟩

theorem Stores.cons {r : Leb128} {b : UInt8} {left used : Nat} (h : Stores r left (used + 1))
    (hb : b.toNat < 128) : Stores ⟨(b ||| 0x80) :: r.storage, r.bytesUsed⟩ (left + 1) used where
  encoding := (isEncoding_cons_high (toNat_or_high hb).1).mpr h.encoding
  length := Nat.succ_le_succ h.length
  bytesUsed := by
    rw [h.bytesUsed, List.length_cons]
    omega

theorem varuintStore_stores {left : Nat} (hleft : 0 < left) (used : Nat) {v : BitVec 32}
    (hv : v.toNat < 2 ^ (7 * left)) :
    Stores (varuintStore left used v) left used ∧
      unsignedValue (varuintStore left used v).storage = v.toNat := by
  induction left generalizing used v with
  | zero => exact absurd hleft (Nat.lt_irrefl 0)
  | succ left ih =>
    have hbyte := toNat_digit (by decide) v
    have hlow : (UInt8.ofBitVec ((v &&& 0x7f).setWidth 8)).toNat < 128 := by omega
    have hshift : (v >>> 7).toNat = v.toNat / 128 := by
      rw [BitVec.toNat_ushiftRight, Nat.shiftRight_eq_div_pow]
    rw [varuintStore]
    by_cases hzero : v >>> 7 = 0
    · rw [if_neg (not_not.mpr hzero)]
      refine ⟨.single hlow left used, ?_⟩
      have hdiv : v.toNat / 128 = 0 := by rw [← hshift, hzero]; rfl
      rw [unsignedValue_cons, hbyte]
      simp only [unsignedValue, List.foldr_nil]
      omega
    · rw [if_pos hzero]
      have hne : v.toNat / 128 ≠ 0 := by
        rw [← hshift]
        exact fun h => hzero (BitVec.eq_of_toNat_eq h)
      have hlt : (v >>> 7).toNat < 2 ^ (7 * left) := by
        rw [Nat.mul_succ, Nat.pow_add] at hv
        rw [hshift]
        omega
      have hpos : 0 < left := by
        rcases Nat.eq_zero_or_pos left with rfl | hpos
        · omega
        · exact hpos
      obtain ⟨hstores, hvalue⟩ := ih hpos (used + 1) hlt
      refine ⟨hstores.cons hlow, ?_⟩
      rw [unsignedValue_cons, (toNat_or_high hlow).2, hvalue, hbyte, hshift]
      omega

theorem toInt_digit {w : Nat} (hw : 8 ≤ w) (v : BitVec w) :
    ((UInt8.ofBitVec ((v &&& 0x7f).setWidth 8)).toNat : Int) = v.toInt % 128 := by
  obtain ⟨c, hc⟩ : (128 : Int) ∣ 2 ^ w := pow_dvd_pow (2 : Int) (show 7 ≤ w by omega)
  rw [toNat_digit hw, BitVec.toInt_eq_toNat_cond]
  split
  · omega
  · push_cast
    rw [hc, Int.sub_mul_emod_self_left]

theorem varintStore_stores {w left : Nat} (hw : 8 ≤ w) (hleft : 0 < left) (used : Nat)
    {v : BitVec w}
    (hlower : -2 ^ (7 * left - 1) ≤ v.toInt) (hupper : v.toInt < 2 ^ (7 * left - 1)) :
    Stores (varintStore left used v) left used ∧
      signedValue (varintStore left used v).storage = v.toInt := by
  induction left generalizing used v with
  | zero => exact absurd hleft (Nat.lt_irrefl 0)
  | succ left ih =>
    have hbyte := toInt_digit hw v
    have hlow : (UInt8.ofBitVec ((v &&& 0x7f).setWidth 8)).toNat < 128 := by omega
    have hshift : (v.sshiftRight 7).toInt = v.toInt / 128 := by
      rw [BitVec.toInt_sshiftRight, Int.shiftRight_eq_div_pow]
      rfl
    have hzero : v.sshiftRight 7 = 0 ↔ v.toInt / 128 = 0 := by
      have hnil : (0 : BitVec w).toInt = 0 := BitVec.toInt_zero
      rw [← hshift, ← BitVec.toInt_inj, hnil]
    have hones : v.sshiftRight 7 = -1 ↔ v.toInt / 128 = -1 := by
      have hneg : (-1 : BitVec w).toInt = -1 := by
        rw [show (-1 : BitVec w) = BitVec.allOnes w from BitVec.neg_one_eq_allOnes,
          BitVec.toInt_allOnes, if_pos (by omega)]
      rw [← hshift, ← BitVec.toInt_inj, hneg]
    rw [varintStore]
    simp only [hzero, hones, signBit_iff _ hlow, ← not_ne_iff (b := (0 : UInt8))]
    obtain ⟨b, hb⟩ : ∃ b : UInt8, b = UInt8.ofBitVec ((v &&& 0x7f).setWidth 8) := ⟨_, rfl⟩
    rw [← hb] at hbyte hlow ⊢
    split
    next hlast =>
      refine ⟨.single hlow left used, ?_⟩
      have hvalue : signedValue [b] = b.toNat - if 64 ≤ b.toNat then 128 else 0 := by
        simp [signedValue, lastByte, unsignedValue, Nat.mod_eq_of_lt hlow]
      rw [hvalue]
      split <;> omega
    next hmore =>
      have hpos : 0 < left := by
        rcases Nat.eq_zero_or_pos left with rfl | hpos
        · norm_num at hlower hupper
          omega
        · exact hpos
      have hpow : (2 : Int) ^ (7 * (left + 1) - 1) = 2 ^ (7 * left - 1) * 128 := by
        rw [show 7 * (left + 1) - 1 = 7 * left - 1 + 7 by omega, pow_add]
        rfl
      rw [hpow] at hlower hupper
      obtain ⟨hstores, hvalue⟩ := ih hpos (used + 1) (v := v.sshiftRight 7)
        (by rw [hshift]; omega) (by rw [hshift]; omega)
      refine ⟨hstores.cons hlow, ?_⟩
      rw [signedValue_cons _ hstores.encoding.ne_nil, hvalue, hshift]
      have := (toNat_or_high hlow).2
      omega

/-- Reading what is stored for a value gives the value back, whatever follows, and moves the pointer
by `size()`. -/
def RoundTrips {α : Type} (f : CodeM α) (r : Leb128) (v : α) : Prop :=
  ∀ code : WasmCodePtr, code.Valid → r.storage <+: code.remaining →
    f code = (.ok v, code.plus r.bytesUsed)

theorem Stores.roundTrips {α : Type} {f : CodeM α} {Encodes : List UInt8 → Prop}
    {value : List UInt8 → α} {r : Leb128} {left : Nat} (h : Stores r left 0)
    (hreads : ∀ code : WasmCodePtr, code.Valid → Reads f Encodes value code)
    (hencodes : Encodes r.storage) : RoundTrips f r (value r.storage) := by
  intro code hcode hstart
  rw [(hreads code hcode).accepts _ hstart hencodes, h.bytesUsed, Nat.zero_add]

theorem varuint32_stores (v : BitVec 32) :
    Stores (varuint32 v) (bytesNeeded 32) 0 ∧ IsUnsigned 32 (varuint32 v).storage ∧
      unsignedValue (varuint32 v).storage = v.toNat := by
  have hlt := v.isLt
  have hfits : v.toNat < 2 ^ (7 * bytesNeeded 32) := hlt.trans_le (by decide)
  obtain ⟨hstores, hvalue⟩ := varuintStore_stores (by decide) 0 hfits
  have hencodes : IsUnsigned 32 (varuint32 v).storage :=
    (isUnsigned_iff (by decide)).mpr ⟨hstores.encoding, hstores.length, hvalue ▸ hlt⟩
  exact ⟨hstores, hencodes, hvalue⟩

theorem varuint32_roundTrips (v : BitVec 32) :
    RoundTrips (parseUnsigned 32) (varuint32 v) v.toNat := by
  obtain ⟨hstores, hencodes, hvalue⟩ := varuint32_stores v
  have hround :=
    hstores.roundTrips (fun _ hcode => parseUnsigned_reads hcode (.inr (.inr rfl))) hencodes
  rwa [hvalue] at hround

theorem varintStore_roundTrips {N w : Nat} (hN : IsSignedWidth N) (hw : 8 ≤ w) (hle : w ≤ N)
    (v : BitVec w) : RoundTrips (parseSigned N) (varintStore (bytesNeeded N) 0 v) v.toInt := by
  have hneeded := hN.bytesNeeded_eq
  have hsize := size_eq (n := N) (by omega)
  have hbits := lastBits_le (n := N)
  have hpos : 0 < bytesNeeded N := by
    rcases hN with rfl | rfl | rfl <;> decide
  have hrange : ∀ n, N ≤ n → -2 ^ (n - 1) ≤ v.toInt ∧ v.toInt < 2 ^ (n - 1) := by
    intro n hn
    have hpow : (2 : Int) ^ (w - 1) ≤ 2 ^ (n - 1) := by
      exact_mod_cast Nat.pow_le_pow_right (n := 2) (by decide) (show w - 1 ≤ n - 1 by omega)
    have hlower := BitVec.le_toInt v
    have hupper := BitVec.toInt_lt (x := v)
    exact ⟨by omega, by omega⟩
  obtain ⟨hlower, hupper⟩ := hrange (7 * bytesNeeded N) (by omega)
  obtain ⟨hstores, hvalue⟩ := varintStore_stores hw hpos 0 hlower hupper
  have hencodes : IsSigned N (varintStore (bytesNeeded N) 0 v).storage :=
    (isSigned_iff (by omega)).mpr
      ⟨hstores.encoding, hneeded ▸ hstores.length, hvalue ▸ hrange N (Nat.le_refl N)⟩
  have hround := hstores.roundTrips (fun _ hcode => parseSigned_reads hcode hN) hencodes
  rwa [hvalue] at hround

/-- The codec reads back what it stores and accepts exactly the encodings of its numbers. -/
theorem leb128_codec :
    (∀ v : BitVec 32, RoundTrips (parseUnsigned 32) (varuint32 v) v.toNat) ∧
    (∀ v : BitVec 32, RoundTrips (parseSigned 32) (varint32 v) v.toInt) ∧
    (∀ v : BitVec 64, RoundTrips (parseSigned 64) (varint64 v) v.toInt) ∧
    (∀ N, IsUnsignedWidth N → ∀ code : WasmCodePtr, code.Valid →
      Reads (parseUnsigned N) (IsUnsigned N) unsignedValue code) ∧
    ∀ N, IsSignedWidth N → ∀ code : WasmCodePtr, code.Valid →
      Reads (parseSigned N) (IsSigned N) signedValue code :=
  ⟨varuint32_roundTrips,
    fun v => varintStore_roundTrips (.inr (.inl rfl)) (by decide) (by decide) v,
    fun v => varintStore_roundTrips (.inr (.inr rfl)) (by decide) (by decide) v,
    fun _ hN _ hcode => parseUnsigned_reads hcode hN,
    fun _ hN _ hcode => parseSigned_reads hcode hN⟩

/-- Two bytes of a signed number and one more. -/
theorem minus_128_read_back :
    parseSigned 32 ⟨[0x80, 0x7f, 0x05], 0, 0, 3⟩ = (.ok (-128), ⟨[0x80, 0x7f, 0x05], 2, 0, 3⟩) := by
  have hread := leb128_codec.2.1 (BitVec.ofInt 32 (-128)) ⟨[0x80, 0x7f, 0x05], 0, 0, 3⟩
    ⟨by decide, by decide, by decide⟩ ⟨[0x05], by decide⟩
  have hsize : (varint32 (BitVec.ofInt 32 (-128))).bytesUsed = 2 := by decide
  have hvalue : (BitVec.ofInt 32 (-128)).toInt = -128 := by decide
  rwa [hsize, hvalue] at hread

/-- The parser throws away the pointer of a failed read. -/
def CodeM.parse {α : Type} (f : CodeM α) (code : WasmCodePtr) : Except VmError (α × WasmCodePtr) :=
  (f code).1.map fun v => (v, (f code).2)

theorem lebValue_eq (storage : List UInt8) : lebValue storage = unsignedValue storage := by
  induction storage with
  | nil => rfl
  | cons b storage ih =>
    have hand : (b &&& 0x7f).toNat = b.toNat % 128 := Nat.and_two_pow_sub_one_eq_mod b.toNat 7
    have hstep : lebValue (b :: storage) = lebValue storage * 128 + (b &&& 0x7f).toNat := rfl
    rw [hstep, ih, unsignedValue_cons, hand]
    omega

theorem parse_fromCode {α : Type} {N : Nat} {lastOk : UInt8 → Except VmError Unit}
    (convert : Leb128 → α) (code : WasmCodePtr) :
    CodeM.parse (fun code =>
      ((fromCode N lastOk code).1.map convert, (fromCode N lastOk code).2)) code =
      (do
        let storage ← lebBytes lastOk code (bytesNeeded N) 0
        let code ← code.advance storage.length
        pure (convert ⟨storage, storage.length⟩, code)) := by
  simp only [CodeM.parse, fromCode]
  cases lebBytes lastOk code (bytesNeeded N) 0 with
  | error e => rfl
  | ok storage =>
    simp only [ok_bind]
    cases code.advance storage.length with
    | error e => rfl
    | ok next => rfl

/-- `parse_varuint32` is `varuint<32>(code).to()`. -/
theorem parseVaruint32_eq (code : WasmCodePtr) :
    parseVaruint32 code = CodeM.parse (parseUnsigned 32) code := by
  have hmask : unusedMask 32 = 0x70 := by decide
  have hto : ∀ storage used, varuintTo 32 ⟨storage, used⟩ = lebValue storage % 2 ^ 32 := by
    intro storage used
    simp only [varuintTo, collectDigits_eq, BitVec.toNat_ofNat, lebValue_eq]
    rfl
  refine Eq.trans ?_ (parse_fromCode (varuintTo 32) code).symm
  simp only [parseVaruint32, parseVaruint, hto, hmask]
  rfl

theorem varintCollect_parse {N w : Nat} (hw : w ≤ 64) (storage : List UInt8) :
    varintCollect N w ⟨storage, storage.length⟩ =
      if storage.length < bytesNeeded N && (storage.getLastD 0 &&& 0x40) != 0 then
        BitVec.ofNat w (lebValue storage) ||| BitVec.allOnes w <<< (7 * storage.length)
      else BitVec.ofNat w (lebValue storage) := by
  simp only [varintCollect, collectDigits_eq, getD_last, setWidth_high_ones hw, lebValue_eq,
    Nat.mul_comm storage.length 7]
  cases storage with
  | nil => simp
  | cons b storage => simp

/-- What `parse_varint32` and `parse_varint64` return, as a number. -/
def toNumber {w : Nat} (r : BitVec w × WasmCodePtr) : Int × WasmCodePtr := (r.1.toInt, r.2)

theorem parseVarint_eq {N : Nat} (hN : N = 32 ∨ N = 64) {mask signBit : UInt8}
    (hmask : unusedMask N = mask)
    (hsign : ∀ b : UInt8,
      b.toBitVec.setWidth 32 &&& (1 <<< (N - 7 * (bytesNeeded N - 1) - 1)) ≠ 0 ↔
        ¬ b &&& signBit = 0)
    (code : WasmCodePtr) :
    (parseVarint (bytesNeeded N) mask signBit N code).map toNumber =
      CodeM.parse (parseSigned N) code := by
  refine Eq.trans ?_ (parse_fromCode (varintTo N) code).symm
  have hto : ∀ storage, varintTo N ⟨storage, storage.length⟩ =
      (varintCollect N N ⟨storage, storage.length⟩).toInt := by
    intro storage
    rcases hN with rfl | rfl <;> rfl
  simp only [parseVarint, hto, varintCollect_parse (N := N) (w := N) (by omega), hmask, hsign,
    ite_not]
  cases lebBytes _ code (bytesNeeded N) 0 with
  | error e => rfl
  | ok storage =>
    simp only [ok_bind]
    cases code.advance storage.length with
    | error e => rfl
    | ok next =>
      simp only [ok_bind]
      split <;> rfl

/-- `parse_varint32` is `varint<32>(code).to()`. -/
theorem parseVarint32_eq (code : WasmCodePtr) :
    (parseVarint32 code).map toNumber = CodeM.parse (parseSigned 32) code := by
  refine parseVarint_eq (N := 32) (.inl rfl) (by decide) (fun b => ?_) code
  have hall : ∀ x : BitVec 8, x.setWidth 32 &&& (1 <<< 3) ≠ 0 ↔ ¬ x &&& 0x08#8 = 0#8 := by
    decide +kernel
  rw [← UInt8.toBitVec_inj]
  exact hall b.toBitVec

/-- `parse_varint64` is `varint<64>(code).to()`. -/
theorem parseVarint64_eq (code : WasmCodePtr) :
    (parseVarint64 code).map toNumber = CodeM.parse (parseSigned 64) code := by
  refine parseVarint_eq (N := 64) (.inr rfl) (by decide) (fun b => ?_) code
  have hall : ∀ x : BitVec 8, x.setWidth 32 &&& (1 <<< 0) ≠ 0 ↔ ¬ x &&& 0x01#8 = 0#8 := by
    decide +kernel
  rw [← UInt8.toBitVec_inj]
  exact hall b.toBitVec

end EosVm
