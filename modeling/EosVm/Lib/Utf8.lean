import Mathlib.Algebra.Order.Ring.Int

/-!
# UTF-8

Text is a sequence of characters, which are the Unicode scalar values, and its bytes are theirs one
after the other. The bytes of a character are described by the numbers that they carry.
-/

set_option autoImplicit false

namespace EosVm.Lib.Utf8

/-- The bytes of some text. -/
def WellFormed (bytes : List UInt8) : Prop :=
  ∃ text : List Char, bytes = text.flatMap String.utf8EncodeChar

/-- A byte `10xxxxxx`. -/
def Continues (b : UInt8) : Prop := 0x80 ≤ b.toNat ∧ b.toNat < 0xC0

/-- The bytes of one character: the shortest form for the number that they carry, which is neither a
surrogate nor above the last code point. -/
inductive IsChar : List UInt8 → Prop
  | one {b : UInt8} (lead : b.toNat < 0x80) : IsChar [b]
  | two {b₁ b₂ : UInt8} (lead : 0xC0 ≤ b₁.toNat ∧ b₁.toNat < 0xE0) (second : Continues b₂)
      (point : 0x80 ≤ (b₁.toNat - 0xC0) * 2 ^ 6 + (b₂.toNat - 0x80)) : IsChar [b₁, b₂]
  | three {b₁ b₂ b₃ : UInt8} (lead : 0xE0 ≤ b₁.toNat ∧ b₁.toNat < 0xF0) (second : Continues b₂)
      (third : Continues b₃)
      (point : ((b₁.toNat - 0xE0) * 2 ^ 12 + (b₂.toNat - 0x80) * 2 ^ 6 +
        (b₃.toNat - 0x80)).isValidChar)
      (shortest : 0x800 ≤ (b₁.toNat - 0xE0) * 2 ^ 12 + (b₂.toNat - 0x80) * 2 ^ 6 +
        (b₃.toNat - 0x80)) :
      IsChar [b₁, b₂, b₃]
  | four {b₁ b₂ b₃ b₄ : UInt8} (lead : 0xF0 ≤ b₁.toNat ∧ b₁.toNat < 0xF8) (second : Continues b₂)
      (third : Continues b₃) (fourth : Continues b₄)
      (point : ((b₁.toNat - 0xF0) * 2 ^ 18 + (b₂.toNat - 0x80) * 2 ^ 12 +
      (b₃.toNat - 0x80) * 2 ^ 6 +
        (b₄.toNat - 0x80)).isValidChar)
      (shortest : 0x10000 ≤ (b₁.toNat - 0xF0) * 2 ^ 18 + (b₂.toNat - 0x80) * 2 ^ 12 +
        (b₃.toNat - 0x80) * 2 ^ 6 + (b₄.toNat - 0x80)) : IsChar [b₁, b₂, b₃, b₄]

theorem toNat_ofNatAux {n : Nat} (h : n.isValidChar) : (Char.ofNatAux n h).val.toNat = n := rfl

theorem eq_ofNat {b : UInt8} {n : Nat} (h : b.toNat = n) : b = UInt8.ofNat n := by
  rw [← h, UInt8.ofNat_toNat]

theorem IsChar.encodes {bytes : List UInt8} (h : IsChar bytes) :
    ∃ c : Char, bytes = String.utf8EncodeChar c := by
  cases h with
  | @one b lead =>
    have hvalid : b.toNat.isValidChar := Or.inl (by omega)
    refine ⟨Char.ofNatAux b.toNat hvalid, ?_⟩
    rw [String.utf8EncodeChar, toNat_ofNatAux, if_pos (by omega), UInt8.ofNat_toNat]
  | @two b₁ b₂ lead second point =>
    obtain ⟨hlow, hhigh⟩ := second
    have hvalid : ((b₁.toNat - 0xC0) * 2 ^ 6 + (b₂.toNat - 0x80)).isValidChar := Or.inl (by omega)
    refine ⟨Char.ofNatAux _ hvalid, ?_⟩
    rw [String.utf8EncodeChar, toNat_ofNatAux, if_neg (by omega), if_pos (by omega)]
    rw [← eq_ofNat (b := b₁) (by omega), ← eq_ofNat (b := b₂) (by omega)]
  | @three b₁ b₂ b₃ lead second third point shortest =>
    obtain ⟨hlow₂, hhigh₂⟩ := second
    obtain ⟨hlow₃, hhigh₃⟩ := third
    have hvalid : ((b₁.toNat - 0xE0) * 2 ^ 12 + (b₂.toNat - 0x80) * 2 ^ 6 +
        (b₃.toNat - 0x80)).isValidChar := point
    refine ⟨Char.ofNatAux _ hvalid, ?_⟩
    rw [String.utf8EncodeChar, toNat_ofNatAux, if_neg (by omega), if_neg (by omega),
      if_pos (by omega)]
    rw [← eq_ofNat (b := b₁) (by omega), ← eq_ofNat (b := b₂) (by omega),
      ← eq_ofNat (b := b₃) (by omega)]
  | @four b₁ b₂ b₃ b₄ lead second third fourth point shortest =>
    obtain ⟨hlow₂, hhigh₂⟩ := second
    obtain ⟨hlow₃, hhigh₃⟩ := third
    obtain ⟨hlow₄, hhigh₄⟩ := fourth
    have hvalid : ((b₁.toNat - 0xF0) * 2 ^ 18 + (b₂.toNat - 0x80) * 2 ^ 12 +
        (b₃.toNat - 0x80) * 2 ^ 6 + (b₄.toNat - 0x80)).isValidChar := point
    refine ⟨Char.ofNatAux _ hvalid, ?_⟩
    rw [String.utf8EncodeChar, toNat_ofNatAux, if_neg (by omega), if_neg (by omega),
      if_neg (by omega)]
    rw [← eq_ofNat (b := b₁) (by omega), ← eq_ofNat (b := b₂) (by omega),
      ← eq_ofNat (b := b₃) (by omega), ← eq_ofNat (b := b₄) (by omega)]

theorem isChar_encode (c : Char) : IsChar (String.utf8EncodeChar c) := by
  have hvalid : c.val.toNat < 0xd800 ∨ 0xdfff < c.val.toNat ∧ c.val.toNat < 0x110000 := c.valid
  rw [String.utf8EncodeChar]
  split
  · exact .one (by rw [UInt8.toNat_ofNat']; omega)
  split
  · apply IsChar.two <;> simp only [Continues, UInt8.toNat_ofNat'] <;> omega
  split
  · apply IsChar.three <;>
      simp only [Continues, UInt8.toNat_ofNat', Nat.isValidChar] <;> omega
  · apply IsChar.four <;>
      simp only [Continues, UInt8.toNat_ofNat', Nat.isValidChar] <;> omega

theorem IsChar.length_pos {bytes : List UInt8} (h : IsChar bytes) : 0 < bytes.length := by
  cases h <;> simp

theorem wellFormed_nil : WellFormed [] := ⟨[], rfl⟩

theorem WellFormed.cons {bytes rest : List UInt8} (h : IsChar bytes) (hrest : WellFormed rest) :
    WellFormed (bytes ++ rest) := by
  obtain ⟨c, rfl⟩ := h.encodes
  obtain ⟨text, rfl⟩ := hrest
  exact ⟨c :: text, rfl⟩

/-- Text that is not empty starts with a character. -/
theorem WellFormed.split {bytes : List UInt8} (h : WellFormed bytes) (hne : bytes ≠ []) :
    ∃ first rest, bytes = first ++ rest ∧ IsChar first ∧ WellFormed rest := by
  obtain ⟨text, rfl⟩ := h
  cases text with
  | nil => exact absurd rfl hne
  | cons c text => exact ⟨_, _, rfl, isChar_encode c, text, rfl⟩

end EosVm.Lib.Utf8
