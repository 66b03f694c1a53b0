import EosVm.Source.Softfloat

/-!
# Rounding on bit patterns is rounding

The functions keep the sign and round the magnitude towards or away from zero.
-/

set_option autoImplicit false

namespace EosVm

open Lib FloatFormat

@[reducible] def binary32 : FloatFormat where
  width := 32
  frac := 23
  bias := 127
  frac_pos := by decide
  frac_le := by decide
  magnitudes := by decide

@[reducible] def binary64 : FloatFormat where
  width := 64
  frac := 52
  bias := 1023
  frac_pos := by decide
  frac_le := by decide
  magnitudes := by decide

section Single

variable {a : BitVec 32}

theorem exponent32 (a : BitVec 32) :
    (a >>> 23 &&& 0xFF).toNat = binary32.magnitude a / 2 ^ 23 := by
  have hmask := toNat_and_lowMask (k := 8) (m := 0xFF) (a >>> 23) rfl
  rw [hmask, BitVec.toNat_ushiftRight, Nat.shiftRight_eq_div_pow]
  simp only [magnitude, binary32]
  omega

theorem sign32 (a : BitVec 32) : a >>> 31 = 0 ↔ binary32.sign a = false := by
  have hlt := a.isLt
  rw [BitVec.toNat_eq, BitVec.toNat_ushiftRight, Nat.shiftRight_eq_div_pow, sign,
    decide_eq_false_iff_not]
  simp only [binary32, BitVec.ofNat_eq_ofNat, BitVec.toNat_ofNat]
  omega

theorem shift32 (a : BitVec 32) : a <<< 1 = 0 ↔ binary32.magnitude a = 0 := by
  have hlt := a.isLt
  rw [BitVec.toNat_eq, BitVec.toNat_shiftLeft, Nat.shiftLeft_eq]
  simp only [magnitude, binary32, BitVec.ofNat_eq_ofNat, BitVec.toNat_ofNat]
  omega

theorem ceilMask {e : Nat} (he : e ≤ 23) :
    ((0x007FFFFF : BitVec 32) >>> e).toNat = 2 ^ (23 - e) - 1 := by
  have hall : ∀ e : Fin 24, ((0x007FFFFF : BitVec 32) >>> e.val).toNat = 2 ^ (23 - e.val) - 1 := by
    decide
  exact hall ⟨e, by omega⟩

theorem truncMask32 {e : Nat} (he : e ≤ 32) :
    ((0xFFFFFFFF : BitVec 32) >>> e).toNat = 2 ^ (32 - e) - 1 := by
  have hall : ∀ e : Fin 33, ((0xFFFFFFFF : BitVec 32) >>> e.val).toNat = 2 ^ (32 - e.val) - 1 := by
    decide
  exact hall ⟨e, by omega⟩

end Single

theorem truncMask64 {e : Nat} (he : e ≤ 64) :
    ((0xFFFFFFFFFFFFFFFF : BitVec 64) >>> e).toNat = 2 ^ (64 - e) - 1 := by
  have hall : ∀ e : Fin 65, ((0xFFFFFFFFFFFFFFFF : BitVec 64) >>> e.val).toNat =
      2 ^ (64 - e.val) - 1 := by
    decide
  exact hall ⟨e, by omega⟩

theorem exponent64 (a : BitVec 64) :
    (a >>> 52 &&& 0x7FF).toNat = binary64.magnitude a / 2 ^ 52 := by
  have hmask := toNat_and_lowMask (k := 11) (m := 0x7FF) (a >>> 52) rfl
  rw [hmask, BitVec.toNat_ushiftRight, Nat.shiftRight_eq_div_pow]
  simp only [magnitude, binary64]
  omega

section Pattern

variable {F : FloatFormat} {a b m : BitVec F.width} {k : Nat}

/-- Clearing the bits of a mask, or leaving them when they are clear. -/
theorem toNat_cleared (hm : m.toNat = 2 ^ k - 1) (hb : b = if a &&& m = 0 then a else a &&& ~~~m) :
    b.toNat = a.toNat / 2 ^ k * 2 ^ k := by
  rw [hb]
  split
  next hzero =>
    have hdvd := Nat.dvd_of_mod_eq_zero ((and_lowMask_eq_zero a hm).mp hzero)
    exact (Nat.div_mul_cancel hdvd).symm
  next => exact toNat_and_not_lowMask a hm

/-- The mask of all bits of a small magnitude, or of those below one. -/
theorem cleared_roundDown (hk : k ≤ F.width - 1) (hm : m.toNat = 2 ^ k - 1)
    (hb : b = if a &&& m = 0 then a else a &&& ~~~m)
    (hbelow : F.magnitude a < F.one ∧ k = F.width - 1 ∨
      F.one ≤ F.magnitude a ∧ F.magnitude a < F.whole ∧ k = F.below (F.magnitude a)) :
    F.sign b = F.sign a ∧ F.magnitude b = F.roundDown (F.magnitude a) := by
  obtain ⟨hsign, hmag⟩ := sign_magnitude_clear hk (toNat_cleared hm hb)
  refine ⟨hsign, hmag.trans ?_⟩
  unfold roundDown
  rcases hbelow with ⟨hone, rfl⟩ | ⟨hone, hwhole, rfl⟩
  · rw [if_pos hone, Nat.mod_eq_of_lt (toNat_eq a).2, Nat.sub_self]
  · rw [if_neg (Nat.not_lt.mpr hone), if_pos hwhole]

theorem roundDown_of_whole {n : Nat} (h : F.whole ≤ n) : F.roundDown n = n := by
  have hone := one_le_whole (F := F)
  rw [roundDown, if_neg (by omega), if_neg (by omega)]

theorem roundUp_of_whole {n : Nat} (h : F.whole ≤ n) : F.roundUp n = n := by
  have hone := one_le_whole (F := F)
  have hpos : 0 < F.whole := Nat.mul_pos (Nat.add_pos_left bias_pos _) (Nat.two_pow_pos _)
  rw [roundUp, if_neg (by omega), if_neg (by omega), if_neg (by omega)]

end Pattern

section Trunc

theorem eosioF32Trunc_pattern (isNan : BitVec 32 → Bool) {arithNan : Bool} {a : BitVec 32}
    (h : (arithNan && isNan a) = false) :
    binary32.sign (eosioF32Trunc isNan arithNan a) = binary32.sign a ∧
      binary32.magnitude (eosioF32Trunc isNan arithNan a) =
        binary32.roundDown (binary32.magnitude a) := by
  have hone : binary32.one = 127 * 2 ^ 23 := rfl
  have hwhole : binary32.whole = 150 * 2 ^ 23 := rfl
  have hmag : binary32.magnitude a < 2 ^ 31 := (toNat_eq (F := binary32) a).2
  simp only [eosioF32Trunc, h, Bool.false_eq_true, if_false, exponent32]
  split
  next hlarge =>
    exact ⟨rfl, (roundDown_of_whole (by omega)).symm⟩
  next hsmall =>
    split
    next hlow =>
      refine cleared_roundDown (F := binary32) (k := 31) (Nat.le_refl _)
        (truncMask32 (by decide)) rfl
        (.inl ⟨by omega, rfl⟩)
    next hhigh =>
      have hbelow : binary32.below (binary32.magnitude a) =
          150 - binary32.magnitude a / 2 ^ 23 := rfl
      refine cleared_roundDown (F := binary32) (k := 150 - binary32.magnitude a / 2 ^ 23) ?_ ?_ rfl
        (.inr ⟨by omega, by omega, hbelow.symm⟩)
      · have hwidth : binary32.width - 1 = 31 := rfl
        omega
      · rw [truncMask32 (by omega)]
        exact congrArg (2 ^ · - 1) (by omega)

theorem eosioF64Trunc_pattern (isNan : BitVec 64 → Bool) {arithNan : Bool} {a : BitVec 64}
    (h : (arithNan && isNan a) = false) :
    binary64.sign (eosioF64Trunc isNan arithNan a) = binary64.sign a ∧
      binary64.magnitude (eosioF64Trunc isNan arithNan a) =
        binary64.roundDown (binary64.magnitude a) := by
  have hone : binary64.one = 1023 * 2 ^ 52 := rfl
  have hwhole : binary64.whole = 1075 * 2 ^ 52 := rfl
  have hmag : binary64.magnitude a < 2 ^ 63 := (toNat_eq (F := binary64) a).2
  simp only [eosioF64Trunc, h, Bool.false_eq_true, if_false, exponent64]
  split
  next hlarge => exact ⟨rfl, (roundDown_of_whole (by omega)).symm⟩
  next hsmall =>
    split
    next hlow =>
      exact cleared_roundDown (F := binary64) (k := 63) (Nat.le_refl _)
        (truncMask64 (by decide)) rfl
        (.inl ⟨by omega, rfl⟩)
    next hhigh =>
      have hbelow : binary64.below (binary64.magnitude a) =
          1075 - binary64.magnitude a / 2 ^ 52 := rfl
      refine cleared_roundDown (F := binary64) (k := 1075 - binary64.magnitude a / 2 ^ 52) ?_ ?_ rfl
        (.inr ⟨by omega, by omega, hbelow.symm⟩)
      · have hwidth : binary64.width - 1 = 63 := rfl
        omega
      · rw [truncMask64 (by omega)]
        exact congrArg (2 ^ · - 1) (by omega)

end Trunc

section CeilFloor

/-- The part of the two functions for exponents within the fraction. -/
theorem rounded32 {a : BitVec 32} (away : Bool) (hone : binary32.one ≤ binary32.magnitude a)
    (hwhole : binary32.magnitude a < binary32.whole) {m b : BitVec 32}
    (hm : m.toNat = 2 ^ binary32.below (binary32.magnitude a) - 1)
    (hb : b = if a &&& m = 0 then a else (if away then a + m else a) &&& ~~~m) :
    binary32.sign b = binary32.sign a ∧ binary32.magnitude b =
      if away then binary32.roundUp (binary32.magnitude a)
      else binary32.roundDown (binary32.magnitude a) := by
  have honeEq : binary32.one = 127 * 2 ^ 23 := rfl
  have hwholeEq : binary32.whole = 150 * 2 ^ 23 := rfl
  have hfew : binary32.below (binary32.magnitude a) ≤ 23 := by
    have hbelow : binary32.below (binary32.magnitude a) = 150 - binary32.magnitude a / 2 ^ 23 := rfl
    omega
  have hk : binary32.below (binary32.magnitude a) ≤ binary32.width - 1 :=
    hfew.trans (by decide)
  cases away with
  | false => exact cleared_roundDown (F := binary32) hk hm hb (.inr ⟨hone, hwhole, rfl⟩)
  | true =>
    have hmod : binary32.magnitude a % 2 ^ binary32.below (binary32.magnitude a) =
        a.toNat % 2 ^ binary32.below (binary32.magnitude a) :=
      Nat.mod_mod_of_dvd _ (Nat.pow_dvd_pow 2 hk)
    have hzero := and_lowMask_eq_zero a hm
    rw [← hmod] at hzero
    rw [if_pos rfl, roundUp, if_neg (by omega), if_neg (by omega)]
    by_cases hpart : a &&& m = 0
    · rw [if_pos hpart] at hb
      rw [hb, if_neg (fun h => h.2 (hzero.mp hpart))]
      exact ⟨rfl, rfl⟩
    · rw [if_neg hpart, if_pos rfl] at hb
      rw [if_pos ⟨hwhole, mt hzero.mpr hpart⟩]
      obtain ⟨t, g, -, -, -, -, -, hnext⟩ := units_middle hone hwhole
      have hsize : (2 : Nat) ^ (binary32.width - 1) = 2 ^ 31 := rfl
      refine sign_magnitude_carry (F := binary32) hk (mt hzero.mpr hpart) (by omega) ?_
      -- the sum does not leave the 32 bits
      have hsum : (a + m).toNat =
          a.toNat + (2 ^ binary32.below (binary32.magnitude a) - 1) := by
        have hpow := Nat.pow_le_pow_right (n := 2) (by decide) hfew
        have hnat := (toNat_eq (F := binary32) a).1
        have hsign : binary32.signBit (binary32.sign a) ≤ 2 ^ 31 := by
          unfold signBit
          split
          · exact Nat.le_refl _
          · exact Nat.zero_le _
        rw [BitVec.toNat_add, hm, Nat.mod_eq_of_lt (by omega)]
      rw [hb, toNat_and_not_lowMask (a + m) hm, hsum]

/-- Patterns below one: all that matters is the sign and whether the magnitude is zero. -/
theorem small32 {a b : BitVec 32} (away : Bool) (hone : binary32.magnitude a < binary32.one)
    (hb : b.toNat = binary32.signBit (binary32.sign a) +
      if away = true ∧ binary32.magnitude a ≠ 0 then binary32.one else 0) :
    binary32.sign b = binary32.sign a ∧ binary32.magnitude b =
      if away then binary32.roundUp (binary32.magnitude a)
      else binary32.roundDown (binary32.magnitude a) := by
  have hsmall : (if away = true ∧ binary32.magnitude a ≠ 0 then binary32.one else 0) <
      2 ^ (binary32.width - 1) := by
    split <;> decide
  obtain ⟨hsign, hmag⟩ := sign_magnitude_of_toNat hb hsmall
  refine ⟨hsign, hmag.trans ?_⟩
  cases away with
  | false => rw [roundDown, if_pos hone, if_neg (by simp), if_neg Bool.false_ne_true]
  | true =>
    rw [if_pos rfl, roundUp, if_pos hone]
    by_cases hzero : binary32.magnitude a = 0
    · rw [if_neg (fun h => h.2 hzero), if_pos hzero]
    · rw [if_pos ⟨rfl, hzero⟩, if_neg hzero]

theorem eosioF32Ceil_pattern (isNan : BitVec 32 → Bool) {arithNan : Bool} {a : BitVec 32}
    (h : (arithNan && isNan a) = false) :
    binary32.sign (eosioF32Ceil isNan arithNan a) = binary32.sign a ∧
      binary32.magnitude (eosioF32Ceil isNan arithNan a) =
        if !binary32.sign a then binary32.roundUp (binary32.magnitude a)
        else binary32.roundDown (binary32.magnitude a) := by
  have hone : binary32.one = 127 * 2 ^ 23 := rfl
  have hwhole : binary32.whole = 150 * 2 ^ 23 := rfl
  have hnat := (toNat_eq (F := binary32) a).1
  simp only [eosioF32Ceil, h, Bool.false_eq_true, if_false, exponent32, sign32, shift32, ne_eq]
  split
  next hlarge =>
    rw [roundUp_of_whole (by omega), roundDown_of_whole (by omega), ite_self]
    exact ⟨rfl, rfl⟩
  next hsmall =>
    split
    next hmiddle =>
      refine rounded32 (!binary32.sign a) (by omega) (by omega)
        (m := (0x007FFFFF : BitVec 32) >>>
          (((binary32.magnitude a / 2 ^ 23 : Nat) : Int) - 127).toNat) ?_ ?_
      · rw [ceilMask (by omega)]
        have hbelow : binary32.below (binary32.magnitude a) =
            150 - binary32.magnitude a / 2 ^ 23 := rfl
        exact congrArg (2 ^ · - 1) (by omega)
      · cases binary32.sign a <;> rfl
    next hlow =>
      refine small32 (!binary32.sign a) (by omega) ?_
      cases hsign : binary32.sign a with
      | true => rfl
      | false =>
        by_cases hzero : binary32.magnitude a = 0
        · rw [hsign, hzero] at hnat
          simp [hzero, hnat]
        · simp [hzero]
          rfl

theorem eosioF32Floor_pattern (isNan : BitVec 32 → Bool) {arithNan : Bool} {a : BitVec 32}
    (h : (arithNan && isNan a) = false) :
    binary32.sign (eosioF32Floor isNan arithNan a) = binary32.sign a ∧
      binary32.magnitude (eosioF32Floor isNan arithNan a) =
        if binary32.sign a then binary32.roundUp (binary32.magnitude a)
        else binary32.roundDown (binary32.magnitude a) := by
  have hone : binary32.one = 127 * 2 ^ 23 := rfl
  have hwhole : binary32.whole = 150 * 2 ^ 23 := rfl
  have hnat := (toNat_eq (F := binary32) a).1
  simp only [eosioF32Floor, h, Bool.false_eq_true, if_false, exponent32, sign32, shift32, ne_eq]
  split
  next hlarge =>
    rw [roundUp_of_whole (by omega), roundDown_of_whole (by omega), ite_self]
    exact ⟨rfl, rfl⟩
  next hsmall =>
    split
    next hmiddle =>
      refine rounded32 (binary32.sign a) (by omega) (by omega)
        (m := (0x007FFFFF : BitVec 32) >>>
          (((binary32.magnitude a / 2 ^ 23 : Nat) : Int) - 127).toNat) ?_ ?_
      · rw [ceilMask (by omega)]
        have hbelow : binary32.below (binary32.magnitude a) =
            150 - binary32.magnitude a / 2 ^ 23 := rfl
        exact congrArg (2 ^ · - 1) (by omega)
      · cases binary32.sign a <;> rfl
    next hlow =>
      refine small32 (binary32.sign a) (by omega) ?_
      cases hsign : binary32.sign a with
      | false => rfl
      | true =>
        by_cases hzero : binary32.magnitude a = 0
        · rw [hsign, hzero] at hnat
          simp [hzero, hnat]
        · simp [hzero]
          rfl

end CeilFloor

/-- A function on patterns that rounds the finite ones to integers, keeps the sign bit of a zero and
the infinities, and with `ArithNan` only sets the quiet bit of a NaN. -/
structure RoundsWith (F : FloatFormat) (quiet : BitVec F.width) (round : ℚ → ℤ)
    (f : Bool → BitVec F.width → BitVec F.width) : Prop where
  finite : ∀ arithNan a, F.IsFinite a → F.IsFinite (f arithNan a) ∧
    F.value (f arithNan a) = round (F.value a) ∧
    (F.value (f arithNan a) = 0 → F.sign (f arithNan a) = F.sign a)
  infinite : ∀ arithNan a, F.IsInfinite a → f arithNan a = a
  nan : ∀ a, F.IsNan a → f true a = a ||| quiet

section Rounding

variable {F : FloatFormat}

theorem finite_of_rounded {a b : BitVec F.width} (h : F.IsFinite a)
    (hmag : F.magnitude b = F.roundUp (F.magnitude a) ∨
      F.magnitude b = F.roundDown (F.magnitude a)) : F.IsFinite b := by
  unfold IsFinite
  rcases hmag with hmag | hmag
  · rw [hmag]
    exact roundUp_lt_top h
  · rw [hmag]
    exact Nat.lt_of_le_of_lt (roundDown_le _) h

/-- A function that keeps the sign, and rounds the magnitude away from zero when `u` says so of the
sign. -/
theorem roundsWith_of_pattern {quiet : BitVec F.width} {round : ℚ → ℤ} {u : Bool → Bool}
    {isNan : BitVec F.width → Bool} {f : Bool → BitVec F.width → BitVec F.width}
    (hisNan : ∀ a, isNan a = true ↔ F.IsNan a)
    (hpattern : ∀ {arithNan a}, (arithNan && isNan a) = false →
      F.sign (f arithNan a) = F.sign a ∧ F.magnitude (f arithNan a) =
        if u (F.sign a) then F.roundUp (F.magnitude a) else F.roundDown (F.magnitude a))
    (hround : ∀ a, round (F.value a) =
      if u (F.sign a) = F.sign a then ⌊F.value a⌋ else ⌈F.value a⌉)
    (hnan : ∀ a, isNan a = true → f true a = a ||| quiet) : RoundsWith F quiet round f where
  finite := by
    intro arithNan a hfinite
    have hnot : isNan a = false := by
      rw [Bool.eq_false_iff, ne_eq, hisNan]
      exact Nat.lt_asymm hfinite
    have hskip : (arithNan && isNan a) = false := by rw [hnot, Bool.and_false]
    obtain ⟨hsign, hmag⟩ := hpattern hskip
    refine ⟨?_, ?_, fun _ => hsign⟩
    · apply finite_of_rounded hfinite
      split at hmag
      · exact .inl hmag
      · exact .inr hmag
    · rw [hround]
      cases hu : u (F.sign a) with
      | true =>
        rw [hu, if_pos rfl] at hmag
        rw [value_roundUp hsign hmag]
        cases F.sign a <;> rfl
      | false =>
        rw [hu, if_neg Bool.false_ne_true] at hmag
        rw [value_roundDown hsign hmag]
        cases F.sign a <;> rfl
  infinite := by
    intro arithNan a hinfinite
    have hnot : isNan a = false := by
      rw [Bool.eq_false_iff, ne_eq, hisNan]
      exact Nat.not_lt.mpr (Nat.le_of_eq hinfinite)
    have hwhole : F.whole ≤ F.magnitude a := by
      rw [hinfinite]
      exact Nat.le_of_lt whole_lt_top
    have hskip : (arithNan && isNan a) = false := by rw [hnot, Bool.and_false]
    obtain ⟨hsign, hmag⟩ := hpattern hskip
    rw [roundUp_of_whole hwhole, roundDown_of_whole hwhole, ite_self] at hmag
    apply BitVec.eq_of_toNat_eq
    rw [(toNat_eq _).1, (toNat_eq a).1, hsign, hmag]
  nan := fun a h => hnan a ((hisNan a).mpr h)

end Rounding

/-- For every pattern, the ceiling, floor and truncation of `f32` and the truncation of `f64` encode
the rounded number. `is_nan` tells the NaNs. -/
theorem bit_level_rounding {isNan32 : BitVec 32 → Bool} {isNan64 : BitVec 64 → Bool}
    (h32 : ∀ a, isNan32 a = true ↔ binary32.IsNan a)
    (h64 : ∀ a, isNan64 a = true ↔ binary64.IsNan a) :
    RoundsWith binary32 0x00400000 (⌈·⌉) (eosioF32Ceil isNan32) ∧
    RoundsWith binary32 0x00400000 (⌊·⌋) (eosioF32Floor isNan32) ∧
    RoundsWith binary32 0x00400000 truncate (eosioF32Trunc isNan32) ∧
    RoundsWith binary64 0x0008000000000000 truncate (eosioF64Trunc isNan64) := by
  refine ⟨?_, ?_, ?_, ?_⟩
  · refine roundsWith_of_pattern (u := (!·)) h32 (eosioF32Ceil_pattern isNan32) ?_ ?_
    · intro a
      cases binary32.sign a <;> rfl
    · intro a hnan
      simp [eosioF32Ceil, hnan, propagateNan32]
  · refine roundsWith_of_pattern (u := id) h32 (eosioF32Floor_pattern isNan32) ?_ ?_
    · intro a
      cases binary32.sign a <;> rfl
    · intro a hnan
      simp [eosioF32Floor, hnan, propagateNan32]
  · refine roundsWith_of_pattern (u := fun _ => false) h32 (eosioF32Trunc_pattern isNan32) ?_ ?_
    · intro a
      rw [truncate_value]
      cases binary32.sign a <;> rfl
    · intro a hnan
      simp [eosioF32Trunc, hnan, propagateNan32]
  · refine roundsWith_of_pattern (u := fun _ => false) h64 (eosioF64Trunc_pattern isNan64) ?_ ?_
    · intro a
      rw [truncate_value]
      cases binary64.sign a <;> rfl
    · intro a hnan
      simp [eosioF64Trunc, hnan, propagateNan64]

/-- One and a half is rounded up to two. -/
theorem ceil_oneAndHalf :
    eosioF32Ceil (fun a => decide (binary32.IsNan a)) true 0x3FC00000 = 0x40000000 ∧
      binary32.value 0x40000000 = ⌈binary32.value 0x3FC00000⌉ := by
  have hrounds := (bit_level_rounding
    (fun _ => decide_eq_true_iff)
    (fun _ => decide_eq_true_iff)).1
  have hceil : eosioF32Ceil (fun a => decide (binary32.IsNan a)) true 0x3FC00000 = 0x40000000 := by
    decide
  have hvalue := (hrounds.finite true 0x3FC00000 (by decide)).2.1
  rw [hceil] at hvalue
  exact ⟨hceil, hvalue⟩

end EosVm
