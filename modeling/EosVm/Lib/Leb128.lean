import Mathlib.Algebra.Order.Ring.Int
import Mathlib.Tactic.Ring

/-!
# LEB128

Numbers in base 128, lowest digit first, where every byte but the last has its high bit set. A
signed number is extended by bit 6 of its last byte.
-/

set_option autoImplicit false

namespace EosVm.Lib.Leb128

/-- Every byte but the last has its high bit set. -/
def IsEncoding : List UInt8 → Prop
  | [] => False
  | [b] => b.toNat < 128
  | b :: c :: bytes => 128 ≤ b.toNat ∧ IsEncoding (c :: bytes)

def unsignedValue (bytes : List UInt8) : Nat :=
  bytes.foldr (fun b acc => b.toNat % 128 + 128 * acc) 0

def lastByte (bytes : List UInt8) : Nat := (bytes.getLastD 0).toNat

def signedValue (bytes : List UInt8) : Int :=
  unsignedValue bytes - if 64 ≤ lastByte bytes then 2 ^ (7 * bytes.length) else 0

/-- The most bytes that a number of `n` bits takes. -/
def maxBytes (n : Nat) : Nat := (n + 6) / 7

/-- The bits of the last byte that are used when there are `maxBytes n` bytes. -/
def lastBits (n : Nat) : Nat := n - 7 * (maxBytes n - 1)

/-- An unsigned number of `n` bits: in the longest encodings the unused bits are zero. -/
structure IsUnsigned (n : Nat) (bytes : List UInt8) : Prop where
  encoding : IsEncoding bytes
  length : bytes.length ≤ maxBytes n
  unused : bytes.length = maxBytes n → ∀ j, lastBits n ≤ j → j < 7 →
    (lastByte bytes).testBit j = false

/-- A signed number of `n` bits: in the longest encodings the unused bits are copies of the sign. -/
structure IsSigned (n : Nat) (bytes : List UInt8) : Prop where
  encoding : IsEncoding bytes
  length : bytes.length ≤ maxBytes n
  unused : bytes.length = maxBytes n → ∀ j, lastBits n ≤ j → j < 7 →
    (lastByte bytes).testBit j = (lastByte bytes).testBit (lastBits n - 1)

theorem unsignedValue_cons (b : UInt8) (bytes : List UInt8) :
    unsignedValue (b :: bytes) = b.toNat % 128 + 128 * unsignedValue bytes := rfl

theorem unsignedValue_lt (bytes : List UInt8) : unsignedValue bytes < 2 ^ (7 * bytes.length) := by
  induction bytes with
  | nil => decide
  | cons b bytes ih =>
    have hpow : 2 ^ (7 * (b :: bytes).length) = 128 * 2 ^ (7 * bytes.length) := by
      rw [List.length_cons, Nat.mul_succ, Nat.pow_add]
      ring
    rw [hpow, unsignedValue_cons]
    have hdigit : b.toNat % 128 < 128 := Nat.mod_lt _ (by decide)
    omega

theorem IsEncoding.ne_nil {bytes : List UInt8} (h : IsEncoding bytes) : bytes ≠ [] := by
  rintro rfl
  exact h

/-- The last byte is the highest digit. -/
theorem IsEncoding.split {bytes : List UInt8} (h : IsEncoding bytes) :
    ∃ low, low < 2 ^ (7 * (bytes.length - 1)) ∧
      unsignedValue bytes = low + 2 ^ (7 * (bytes.length - 1)) * lastByte bytes ∧
        lastByte bytes < 128 := by
  induction bytes with
  | nil => exact h.elim
  | cons b bytes ih =>
    cases bytes with
    | nil =>
      have hb : b.toNat < 128 := h
      refine ⟨0, Nat.two_pow_pos _, ?_, hb⟩
      simp [unsignedValue, lastByte, Nat.mod_eq_of_lt hb]
    | cons c bytes =>
      obtain ⟨low, hlow, hvalue, hlast⟩ := ih h.2
      have hpow : 2 ^ (7 * ((b :: c :: bytes).length - 1)) =
          128 * 2 ^ (7 * ((c :: bytes).length - 1)) := by
        simp only [List.length_cons, Nat.add_sub_cancel, Nat.mul_succ, Nat.pow_add]
        ring
      have hdigit : b.toNat % 128 < 128 := Nat.mod_lt _ (by decide)
      have hsame : lastByte (b :: c :: bytes) = lastByte (c :: bytes) := rfl
      refine ⟨b.toNat % 128 + 128 * low, by omega, ?_, hlast⟩
      rw [unsignedValue_cons, hvalue, hpow, hsame]
      ring

/-- An encoding is no prefix of another. -/
theorem IsEncoding.eq_of_starts {bytes bytes' l : List UInt8} (h : IsEncoding bytes)
    (h' : IsEncoding bytes') (hl : bytes <+: l) (hl' : bytes' <+: l) : bytes = bytes' := by
  induction bytes generalizing bytes' l with
  | nil => exact h.elim
  | cons b bytes ih =>
    obtain ⟨rest, rfl⟩ := hl
    cases bytes' with
    | nil => exact h'.elim
    | cons b' bytes' =>
      obtain ⟨rest', heq⟩ := hl'
      injection heq with hb htail
      subst hb
      cases bytes with
      | nil =>
        cases bytes' with
        | nil => rfl
        | cons c' bytes' => exact absurd h'.1 (Nat.not_le.mpr h)
      | cons c bytes =>
        cases bytes' with
        | nil => exact absurd h.1 (Nat.not_le.mpr h')
        | cons c' bytes' => rw [ih h.2 h'.2 ⟨rest, rfl⟩ ⟨rest', htail⟩]

theorem signedValue_cons (b : UInt8) {bytes : List UInt8} (h : bytes ≠ []) :
    signedValue (b :: bytes) = b.toNat % 128 + 128 * signedValue bytes := by
  have hlast : lastByte (b :: bytes) = lastByte bytes := by
    cases bytes with
    | nil => exact absurd rfl h
    | cons c bytes => rfl
  have hpow : (2 : Int) ^ (7 * (b :: bytes).length) = 128 * 2 ^ (7 * bytes.length) := by
    rw [List.length_cons, Nat.mul_succ, pow_add]
    ring
  rw [signedValue, signedValue, hlast, hpow, unsignedValue_cons]
  split <;> push_cast <;> ring

section Sized

variable {n : Nat} {bytes : List UInt8}

theorem size_eq (hn : 0 < n) : n = 7 * (maxBytes n - 1) + lastBits n := by
  unfold lastBits maxBytes
  omega

theorem lastBits_pos (hn : 0 < n) : 0 < lastBits n := by
  unfold lastBits maxBytes
  omega

theorem lastBits_le : lastBits n ≤ 7 := by
  unfold lastBits maxBytes
  omega

theorem two_pow_size (hn : 0 < n) : 2 ^ n = 2 ^ (7 * (maxBytes n - 1)) * 2 ^ lastBits n := by
  rw [← Nat.pow_add, ← size_eq hn]

theorem IsEncoding.length_pos (h : IsEncoding bytes) : 0 < bytes.length :=
  List.length_pos_iff.mpr h.ne_nil

/-- A shorter encoding has a smaller value. -/
theorem unsignedValue_lt_of_short (hn : 0 < n) (h : bytes.length < maxBytes n) :
    unsignedValue bytes < 2 ^ n :=
  (unsignedValue_lt bytes).trans_le (Nat.pow_le_pow_right (by decide) (by
    have := size_eq hn
    omega))

theorem lt_two_pow_of_bits {x k : Nat} (hx : x < 128)
    (h : ∀ j, k ≤ j → j < 7 → x.testBit j = false) :
    x < 2 ^ k := by
  refine Nat.lt_pow_two_of_testBit x fun j hj => ?_
  rcases Nat.lt_or_ge j 7 with h7 | h7
  · exact h j hj h7
  · exact Nat.testBit_lt_two_pow (hx.trans_le (Nat.pow_le_pow_right (n := 2) (by decide) h7))

/-- The unused bits are zero when the value fits. -/
theorem isUnsigned_iff (hn : 0 < n) :
    IsUnsigned n bytes ↔ IsEncoding bytes ∧ bytes.length ≤ maxBytes n ∧
      unsignedValue bytes < 2 ^ n := by
  constructor
  · intro h
    refine ⟨h.encoding, h.length, ?_⟩
    rcases Nat.lt_or_eq_of_le h.length with hlt | heq
    · exact unsignedValue_lt_of_short hn hlt
    · obtain ⟨low, hlow, hvalue, hlast⟩ := h.encoding.split
      have hlt := lt_two_pow_of_bits hlast (h.unused heq)
      rw [heq] at hlow hvalue
      rw [hvalue, two_pow_size hn]
      calc low + 2 ^ (7 * (maxBytes n - 1)) * lastByte bytes
          < 2 ^ (7 * (maxBytes n - 1)) * 1 + 2 ^ (7 * (maxBytes n - 1)) * lastByte bytes := by omega
        _ = 2 ^ (7 * (maxBytes n - 1)) * (1 + lastByte bytes) := by rw [Nat.mul_add]
        _ ≤ 2 ^ (7 * (maxBytes n - 1)) * 2 ^ lastBits n := Nat.mul_le_mul_left _ (by omega)
  · rintro ⟨hencoding, hlength, hlt⟩
    refine ⟨hencoding, hlength, fun heq j hj _ => ?_⟩
    obtain ⟨low, -, hvalue, -⟩ := hencoding.split
    rw [heq] at hvalue
    rw [hvalue, two_pow_size hn] at hlt
    have hlast : lastByte bytes < 2 ^ lastBits n :=
      Nat.lt_of_mul_lt_mul_left (lt_of_le_of_lt (Nat.le_add_left _ low) hlt)
    exact Nat.testBit_lt_two_pow (hlast.trans_le (Nat.pow_le_pow_right (n := 2) (by decide) hj))

/-- The bits above the sign of a last byte. -/
theorem copies_iff : ∀ (x : Fin 128) (k : Fin 7),
    (∀ j : Fin 7, k.val < j.val → x.val.testBit j = x.val.testBit k) ↔
      (x.val < 64 → x.val < 2 ^ k.val) ∧ (64 ≤ x.val → 128 ≤ x.val + 2 ^ k.val) := by
  decide +kernel

theorem mul_range_iff {M low x y : Int} (hlow : 0 ≤ low) (hM : low < M) :
    low + M * x < M * y ↔ x < y := by
  constructor
  · intro h
    by_contra hge
    have : M * y ≤ M * x := Int.mul_le_mul_of_nonneg_left (by omega) (by omega)
    omega
  · intro h
    have : M * (x + 1) ≤ M * y := Int.mul_le_mul_of_nonneg_left (by omega) (by omega)
    rw [Int.mul_add] at this
    omega

/-- The value of the longest encodings, with its last byte `x` and the weight `M` of that byte. -/
theorem signed_range_iff {M K l x : Int} (hlow : 0 ≤ l) (hM : l < M) (hK : 0 < K)
    (hx : 0 ≤ x) (hx' : x < 128) :
    ((x < 64 → x < K) ∧ (64 ≤ x → 128 ≤ x + K)) ↔
      -(M * K) ≤ l + M * x - (if 64 ≤ x then M * 128 else 0) ∧
        l + M * x - (if 64 ≤ x then M * 128 else 0) < M * K := by
  have hMK : 0 < M * K := Int.mul_pos (by omega) hK
  have hMx : 0 ≤ M * x := Int.mul_nonneg (by omega) hx
  by_cases h : 64 ≤ x
  · -- the number is negative
    have hneg : l + M * x < M * 128 := (mul_range_iff hlow hM).mpr hx'
    have hiff := mul_range_iff (x := x + K) (y := 128) hlow hM
    rw [Int.mul_add] at hiff
    simp only [h, if_true, Int.not_lt.mpr h, false_imp_iff, true_and, true_imp_iff]
    omega
  · have hiff := mul_range_iff (x := x) (y := K) hlow hM
    simp only [h, if_false, Int.not_le.mp h, false_imp_iff, and_true, true_imp_iff]
    omega

theorem signedValue_bounds (bytes : List UInt8) :
    -2 ^ (7 * bytes.length) ≤ signedValue bytes ∧ signedValue bytes < 2 ^ (7 * bytes.length) := by
  have hlt : (unsignedValue bytes : Int) < 2 ^ (7 * bytes.length) := by
    exact_mod_cast unsignedValue_lt bytes
  rw [signedValue]
  split <;> omega

theorem IsEncoding.signed_full_iff (hencoding : IsEncoding bytes) (hn : 0 < n)
    (heq : bytes.length = maxBytes n) :
    (∀ j, lastBits n ≤ j → j < 7 →
        (lastByte bytes).testBit j = (lastByte bytes).testBit (lastBits n - 1)) ↔
      -2 ^ (n - 1) ≤ signedValue bytes ∧ signedValue bytes < 2 ^ (n - 1) := by
  have hk := lastBits_pos hn
  have hk7 := lastBits_le (n := n)
  have hsize := size_eq hn
  have hpos := hencoding.length_pos
  obtain ⟨low, hlow, hvalue, hlast⟩ := hencoding.split
  have hbits : (∀ j, lastBits n ≤ j → j < 7 →
      (lastByte bytes).testBit j = (lastByte bytes).testBit (lastBits n - 1)) ↔
      ∀ j : Fin 7, lastBits n - 1 < j.val →
        (lastByte bytes).testBit j = (lastByte bytes).testBit (lastBits n - 1) :=
    ⟨fun h j hj => h j (by omega) j.isLt,
      fun h j hj hj7 => h ⟨j, hj7⟩ (Nat.lt_of_lt_of_le (by omega) hj)⟩
  have hpow : (2 : Int) ^ (n - 1) = 2 ^ (7 * (maxBytes n - 1)) * 2 ^ (lastBits n - 1) := by
    rw [← pow_add]
    congr 1
    omega
  have hseven : (2 : Int) ^ (7 * bytes.length) = 2 ^ (7 * (maxBytes n - 1)) * 128 := by
    rw [heq, show 7 * maxBytes n = 7 * (maxBytes n - 1) + 7 by omega, pow_add]
    rfl
  rw [heq] at hlow hvalue
  rw [hbits, copies_iff ⟨lastByte bytes, hlast⟩ ⟨lastBits n - 1, by omega⟩, signedValue, hpow,
    hseven, hvalue]
  have hrange := signed_range_iff (M := 2 ^ (7 * (maxBytes n - 1))) (K := 2 ^ (lastBits n - 1))
    (l := low) (x := lastByte bytes) (by omega) (by exact_mod_cast hlow)
    (Int.pow_pos (by decide)) (by omega) (by exact_mod_cast hlast)
  push_cast
  exact_mod_cast hrange

/-- The unused bits are copies of the sign when the value fits. -/
theorem isSigned_iff (hn : 0 < n) :
    IsSigned n bytes ↔ IsEncoding bytes ∧ bytes.length ≤ maxBytes n ∧
      -2 ^ (n - 1) ≤ signedValue bytes ∧ signedValue bytes < 2 ^ (n - 1) := by
  constructor
  · intro h
    refine ⟨h.encoding, h.length, ?_⟩
    rcases Nat.lt_or_eq_of_le h.length with hlt | heq
    · obtain ⟨hlower, hupper⟩ := signedValue_bounds bytes
      have hle : (2 : Int) ^ (7 * bytes.length) ≤ 2 ^ (n - 1) := by
        have := size_eq hn
        have := lastBits_pos hn
        exact_mod_cast Nat.pow_le_pow_right (n := 2) (by decide)
          (show 7 * bytes.length ≤ n - 1 by omega)
      exact ⟨by omega, by omega⟩
    · exact (h.encoding.signed_full_iff hn heq).mp (h.unused heq)
  · rintro ⟨hencoding, hlength, hrange⟩
    exact ⟨hencoding, hlength, fun heq => (hencoding.signed_full_iff hn heq).mpr hrange⟩

end Sized

end EosVm.Lib.Leb128
