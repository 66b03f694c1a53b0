import Mathlib.Algebra.Order.Ring.Int
import Mathlib.Data.Rat.Floor
import Mathlib.Tactic.Ring

/-!
# Binary floating-point formats

A pattern is a sign and a magnitude. Every finite magnitude is a multiple of the smallest subnormal,
so that values are compared as natural numbers in that unit. Rounding to an integer clears the bits
of the fraction below one, and rounding away from zero carries into the exponent.
-/

set_option autoImplicit false

namespace EosVm.Lib

/-- A binary format: the bits of a pattern and of its fraction, and the bias of the exponent. -/
structure FloatFormat where
  width : Nat
  frac : Nat
  bias : Nat
  frac_pos : 0 < frac
  frac_le : frac ≤ bias
  magnitudes : (2 * bias + 2) * 2 ^ frac = 2 ^ (width - 1)

namespace FloatFormat

variable (F : FloatFormat)

/-- The first magnitude that is not finite. -/
def top : Nat := (2 * F.bias + 1) * 2 ^ F.frac

/-- A finite magnitude in units of the smallest subnormal. -/
def units (n : Nat) : Nat :=
  if n < 2 ^ F.frac then n else (2 ^ F.frac + n % 2 ^ F.frac) * 2 ^ (n / 2 ^ F.frac - 1)

/-- One in units of the smallest subnormal. -/
def scale : Nat := 2 ^ (F.bias + F.frac - 1)

/-- The magnitude of one. -/
def one : Nat := F.bias * 2 ^ F.frac

/-- From this magnitude on there are no bits below one. -/
def whole : Nat := (F.bias + F.frac) * 2 ^ F.frac

/-- The number of fraction bits below one. -/
def below (n : Nat) : Nat := F.bias + F.frac - n / 2 ^ F.frac

/-- The magnitude rounded towards zero. -/
def roundDown (n : Nat) : Nat :=
  if n < F.one then 0 else if n < F.whole then n - n % 2 ^ F.below n else n

/-- The magnitude rounded away from zero. -/
def roundUp (n : Nat) : Nat :=
  if n = 0 then 0 else if n < F.one then F.one
  else if n < F.whole ∧ n % 2 ^ F.below n ≠ 0 then n - n % 2 ^ F.below n + 2 ^ F.below n
  else n

variable {F}

theorem bias_pos : 0 < F.bias := Nat.lt_of_lt_of_le F.frac_pos F.frac_le

/-- A fraction that is full is the next exponent. -/
theorem units_eq {e f : Nat} (he : 0 < e) (hf : f ≤ 2 ^ F.frac) :
    F.units (e * 2 ^ F.frac + f) = (2 ^ F.frac + f) * 2 ^ (e - 1) := by
  have hpow : 0 < 2 ^ F.frac := Nat.two_pow_pos _
  have hle : 2 ^ F.frac ≤ e * 2 ^ F.frac := Nat.le_mul_of_pos_left _ he
  rw [units, if_neg (by omega), Nat.mul_comm e, Nat.mul_add_mod, Nat.mul_add_div hpow]
  rcases Nat.lt_or_eq_of_le hf with hlt | rfl
  · rw [Nat.mod_eq_of_lt hlt, Nat.div_eq_of_lt hlt, Nat.add_zero]
  · obtain ⟨d, rfl⟩ := Nat.exists_eq_add_of_lt he
    rw [Nat.mod_self, Nat.div_self hpow]
    simp only [Nat.zero_add, Nat.add_sub_cancel, Nat.add_zero, pow_succ]
    ring

theorem units_zero : F.units 0 = 0 := if_pos (Nat.two_pow_pos _)

theorem units_one : F.units F.one = F.scale := by
  have h := units_eq (F := F) (e := F.bias) (f := 0) bias_pos (Nat.zero_le _)
  rw [Nat.add_zero, Nat.add_zero, ← pow_add] at h
  rw [one, h, scale]
  have := bias_pos (F := F)
  exact congrArg (2 ^ ·) (by omega)

theorem units_pos {n : Nat} (h : n ≠ 0) : 0 < F.units n := by
  unfold units
  split
  · exact Nat.pos_of_ne_zero h
  · exact Nat.mul_pos (Nat.add_pos_left (Nat.two_pow_pos _) _) (Nat.two_pow_pos _)

theorem units_lt_scale {n : Nat} (h : n < F.one) : F.units n < F.scale := by
  have hbias := bias_pos (F := F)
  have hpow : 0 < 2 ^ F.frac := Nat.two_pow_pos _
  unfold units scale
  split
  next hlt => exact Nat.lt_of_lt_of_le hlt (Nat.pow_le_pow_right (by decide) (by omega))
  next hge =>
    have hexp : n / 2 ^ F.frac < F.bias := Nat.div_lt_of_lt_mul (by rwa [Nat.mul_comm])
    have hpos : 0 < n / 2 ^ F.frac := Nat.div_pos (by omega) hpow
    have hf := Nat.mod_lt n hpow
    calc (2 ^ F.frac + n % 2 ^ F.frac) * 2 ^ (n / 2 ^ F.frac - 1)
        < (2 ^ F.frac + 2 ^ F.frac) * 2 ^ (n / 2 ^ F.frac - 1) :=
          Nat.mul_lt_mul_of_pos_right (by omega) (Nat.two_pow_pos _)
      _ = 2 ^ (F.frac + 1 + (n / 2 ^ F.frac - 1)) := by rw [pow_add, pow_succ]; ring
      _ ≤ 2 ^ (F.bias + F.frac - 1) := Nat.pow_le_pow_right (by decide) (by omega)

/-- A magnitude with bits on both sides of one, in units: `t` whole and `r` of the `2 ^ below n`
parts. -/
theorem units_middle {n : Nat} (hone : F.one ≤ n) (hwhole : n < F.whole) :
    ∃ t g, 2 ^ F.below n * g = F.scale ∧ 0 < g ∧
      F.units n = (2 ^ F.below n * t + n % 2 ^ F.below n) * g ∧
      F.units (n - n % 2 ^ F.below n) = 2 ^ F.below n * t * g ∧
      F.units (n - n % 2 ^ F.below n + 2 ^ F.below n) = 2 ^ F.below n * (t + 1) * g ∧
      n - n % 2 ^ F.below n + 2 ^ F.below n ≤ F.whole := by
  have hpow : 0 < 2 ^ F.frac := Nat.two_pow_pos _
  have hfrac := F.frac_pos
  obtain ⟨e, f, hf, rfl⟩ : ∃ e f, f < 2 ^ F.frac ∧ n = e * 2 ^ F.frac + f :=
    ⟨n / 2 ^ F.frac, n % 2 ^ F.frac, Nat.mod_lt _ hpow, (Nat.div_add_mod' _ _).symm⟩
  have hexp : (e * 2 ^ F.frac + f) / 2 ^ F.frac = e := by
    rw [Nat.mul_comm, Nat.mul_add_div hpow, Nat.div_eq_of_lt hf, Nat.add_zero]
  have hbias := bias_pos (F := F)
  have hlow : F.bias ≤ e := by
    by_contra hlt
    have hle := Nat.mul_le_mul_right (2 ^ F.frac) (Nat.not_le.mp hlt)
    rw [Nat.succ_mul] at hle
    unfold one at hone
    omega
  have hhigh : e < F.bias + F.frac := by
    by_contra hge
    have hle := Nat.mul_le_mul_right (2 ^ F.frac) (Nat.not_lt.mp hge)
    unfold whole at hwhole
    omega
  obtain ⟨k, hk, hkle, hke⟩ : ∃ k, F.below (e * 2 ^ F.frac + f) = k ∧ k ≤ F.frac ∧
      k + e = F.bias + F.frac := by
    refine ⟨_, rfl, ?_, ?_⟩ <;> simp only [below, hexp] <;> omega
  rw [hk]
  obtain ⟨r, hr⟩ : ∃ r, 2 ^ F.frac = 2 ^ k * r := Nat.pow_dvd_pow 2 hkle
  have hmod : (e * 2 ^ F.frac + f) % 2 ^ k = f % 2 ^ k := by
    rw [hr, Nat.mul_left_comm, Nat.mul_add_mod]
  have hdiv := Nat.div_add_mod f (2 ^ k)
  have hquot : f / 2 ^ k < r := Nat.div_lt_of_lt_mul (hr ▸ hf)
  have hnext : 2 ^ k * (f / 2 ^ k) + 2 ^ k ≤ 2 ^ F.frac := by
    rw [hr, ← Nat.mul_succ]
    exact Nat.mul_le_mul_left _ hquot
  have hcleared : e * 2 ^ F.frac + f - f % 2 ^ k = e * 2 ^ F.frac + 2 ^ k * (f / 2 ^ k) := by omega
  have hepos : 0 < e := Nat.lt_of_lt_of_le hbias hlow
  rw [hmod, hcleared]
  refine ⟨r + f / 2 ^ k, 2 ^ (e - 1), ?_, Nat.two_pow_pos _, ?_, ?_, ?_, ?_⟩
  · rw [← pow_add, scale]
    exact congrArg (2 ^ ·) (by omega)
  · rw [units_eq hepos (Nat.le_of_lt hf), hr, Nat.mul_add, Nat.add_assoc, hdiv]
  · rw [units_eq hepos (by omega), hr, Nat.mul_add]
  · rw [Nat.add_assoc, units_eq hepos hnext, hr]
    ring
  · have hle := Nat.mul_le_mul_right (2 ^ F.frac) hhigh
    rw [Nat.succ_mul] at hle
    unfold whole
    omega

/-- From `whole` on, magnitudes are integers. -/
theorem units_whole {n : Nat} (h : F.whole ≤ n) : ∃ t, F.units n = t * F.scale := by
  have hpow : 0 < 2 ^ F.frac := Nat.two_pow_pos _
  have hexp : F.bias + F.frac ≤ n / 2 ^ F.frac := (Nat.le_div_iff_mul_le hpow).mpr h
  have hbias := bias_pos (F := F)
  have hlarge : ¬ n < 2 ^ F.frac := by
    intro hlt
    rw [Nat.div_eq_of_lt hlt] at hexp
    omega
  obtain ⟨j, hj⟩ : ∃ j, n / 2 ^ F.frac - 1 = j + (F.bias + F.frac - 1) :=
    ⟨n / 2 ^ F.frac - (F.bias + F.frac), by omega⟩
  refine ⟨(2 ^ F.frac + n % 2 ^ F.frac) * 2 ^ j, ?_⟩
  rw [units, if_neg hlarge, hj, pow_add, scale, Nat.mul_assoc]

theorem one_le_whole : F.one ≤ F.whole := Nat.mul_le_mul_right _ (Nat.le_add_right _ _)

/-- Rounding towards zero leaves the whole part. -/
theorem units_roundDown (n : Nat) :
    ∃ t, F.units (F.roundDown n) = t * F.scale ∧ t * F.scale ≤ F.units n ∧
      F.units n < (t + 1) * F.scale := by
  have hscale : 0 < F.scale := Nat.two_pow_pos _
  unfold roundDown
  split
  next hone =>
    refine ⟨0, ?_, ?_, ?_⟩
    · rw [units_zero, Nat.zero_mul]
    · rw [Nat.zero_mul]
      exact Nat.zero_le _
    · rw [Nat.zero_add, Nat.one_mul]
      exact units_lt_scale hone
  next hone =>
  split
  next hwhole =>
    obtain ⟨t, g, hg, hgpos, hn, hdown, -, -⟩ := units_middle (Nat.not_lt.mp hone) hwhole
    have hlt := Nat.mod_lt n (Nat.two_pow_pos (F.below n))
    refine ⟨t, ?_, ?_, ?_⟩
    · rw [hdown, ← hg]
      ring
    · rw [hn, ← hg]
      calc t * (2 ^ F.below n * g) = 2 ^ F.below n * t * g := by ring
        _ ≤ _ := Nat.mul_le_mul_right _ (Nat.le_add_right _ _)
    · rw [hn, ← hg]
      calc _ < (2 ^ F.below n * t + 2 ^ F.below n) * g :=
            Nat.mul_lt_mul_of_pos_right (Nat.add_lt_add_left hlt _) hgpos
        _ = (t + 1) * (2 ^ F.below n * g) := by ring
  next hwhole =>
    obtain ⟨t, ht⟩ := units_whole (Nat.not_lt.mp hwhole)
    refine ⟨t, ht, Nat.le_of_eq ht.symm, ?_⟩
    rw [ht, Nat.succ_mul]
    omega

/-- Rounding away from zero leaves the next integer. -/
theorem units_roundUp (n : Nat) :
    ∃ t, F.units (F.roundUp n) = t * F.scale ∧ F.units n ≤ t * F.scale ∧
      t * F.scale < F.units n + F.scale := by
  have hscale : 0 < F.scale := Nat.two_pow_pos _
  have hexact : ∀ t, F.units n = t * F.scale → ∃ t, F.units n = t * F.scale ∧
      F.units n ≤ t * F.scale ∧ t * F.scale < F.units n + F.scale :=
    fun t ht => ⟨t, ht, Nat.le_of_eq ht, by omega⟩
  unfold roundUp
  split
  next hzero =>
    subst hzero
    refine ⟨0, ?_⟩
    rw [units_zero, Nat.zero_mul]
    omega
  next hzero =>
  split
  next hone =>
    have hlt := units_lt_scale hone
    have hpos := units_pos (F := F) hzero
    refine ⟨1, ?_⟩
    rw [units_one, Nat.one_mul]
    omega
  next hone =>
  split
  next hmiddle =>
    obtain ⟨hwhole, hpart⟩ := hmiddle
    obtain ⟨t, g, hg, hgpos, hn, -, hup, -⟩ := units_middle (Nat.not_lt.mp hone) hwhole
    have hlt := Nat.mod_lt n (Nat.two_pow_pos (F.below n))
    refine ⟨t + 1, ?_, ?_, ?_⟩
    · rw [hup, ← hg]
      ring
    · rw [hn, ← hg]
      calc _ ≤ (2 ^ F.below n * t + 2 ^ F.below n) * g :=
            Nat.mul_le_mul_right _ (Nat.add_le_add_left (Nat.le_of_lt hlt) _)
        _ = (t + 1) * (2 ^ F.below n * g) := by ring
    · rw [hn, ← hg]
      calc (t + 1) * (2 ^ F.below n * g) = (2 ^ F.below n * t) * g + 2 ^ F.below n * g := by ring
        _ < _ := Nat.add_lt_add_right (Nat.mul_lt_mul_of_pos_right (by omega) hgpos) _
  next hmiddle =>
    rcases Nat.lt_or_ge n F.whole with hwhole | hwhole
    · obtain ⟨t, g, hg, -, hn, -, -, -⟩ := units_middle (Nat.not_lt.mp hone) hwhole
      have hpart : n % 2 ^ F.below n = 0 := by
        by_contra hne
        exact hmiddle ⟨hwhole, hne⟩
      refine hexact t ?_
      rw [hn, hpart, ← hg]
      ring
    · obtain ⟨t, ht⟩ := units_whole hwhole
      exact hexact t ht

theorem roundDown_le (n : Nat) : F.roundDown n ≤ n := by
  unfold roundDown
  split
  · exact Nat.zero_le n
  · split
    · exact Nat.sub_le _ _
    · exact Nat.le_refl n

theorem whole_lt_top : F.whole < F.top :=
  Nat.mul_lt_mul_of_pos_right (by have := F.frac_le; omega) (Nat.two_pow_pos _)

theorem roundUp_lt_top {n : Nat} (h : n < F.top) : F.roundUp n < F.top := by
  have hone := Nat.lt_of_le_of_lt one_le_whole (whole_lt_top (F := F))
  unfold roundUp
  split
  · omega
  split
  · exact hone
  next hge =>
  split
  next hmiddle =>
    obtain ⟨t, g, -, -, -, -, -, hle⟩ := units_middle (Nat.not_lt.mp hge) hmiddle.1
    exact Nat.lt_of_le_of_lt hle whole_lt_top
  · exact h

section Patterns

variable (F)

/-- The sign bit. -/
def sign (a : BitVec F.width) : Bool := decide (2 ^ (F.width - 1) ≤ a.toNat)

def magnitude (a : BitVec F.width) : Nat := a.toNat % 2 ^ (F.width - 1)

def IsFinite (a : BitVec F.width) : Prop := F.magnitude a < F.top

def IsInfinite (a : BitVec F.width) : Prop := F.magnitude a = F.top

def IsNan (a : BitVec F.width) : Prop := F.top < F.magnitude a

instance (a : BitVec F.width) : Decidable (F.IsFinite a) := inferInstanceAs (Decidable (_ < _))

instance (a : BitVec F.width) : Decidable (F.IsNan a) := inferInstanceAs (Decidable (_ < _))

/-- The number that a finite pattern encodes. -/
def value (a : BitVec F.width) : ℚ :=
  if F.sign a then -(F.units (F.magnitude a) / F.scale)
  else F.units (F.magnitude a) / F.scale

variable {F} {a b : BitVec F.width}

/-- A number cut off towards zero. -/
def truncate (q : ℚ) : ℤ := if 0 ≤ q then ⌊q⌋ else ⌈q⌉

theorem scale_pos : (0 : ℚ) < F.scale := by
  exact_mod_cast Nat.two_pow_pos (F.bias + F.frac - 1)

theorem units_div_nonneg (n : Nat) : (0 : ℚ) ≤ F.units n / F.scale :=
  div_nonneg (Nat.cast_nonneg _) (Nat.cast_nonneg _)

theorem floor_units (n : Nat) :
    (F.units (F.roundDown n) : ℚ) / F.scale = ⌊(F.units n : ℚ) / F.scale⌋ := by
  obtain ⟨t, ht, hle, hlt⟩ := units_roundDown (F := F) n
  have hscale := scale_pos (F := F)
  have hfloor : ⌊(F.units n : ℚ) / F.scale⌋ = (t : ℤ) := by
    rw [Int.floor_eq_iff, le_div_iff₀ hscale, div_lt_iff₀ hscale]
    exact_mod_cast And.intro hle hlt
  rw [hfloor, ht, Nat.cast_mul, mul_div_cancel_right₀ _ hscale.ne']
  rfl

theorem ceil_units (n : Nat) :
    (F.units (F.roundUp n) : ℚ) / F.scale = ⌈(F.units n : ℚ) / F.scale⌉ := by
  obtain ⟨t, ht, hle, hlt⟩ := units_roundUp (F := F) n
  have hscale := scale_pos (F := F)
  have hceil : ⌈(F.units n : ℚ) / F.scale⌉ = (t : ℤ) := by
    rw [Int.ceil_eq_iff, lt_div_iff₀ hscale, div_le_iff₀ hscale, sub_mul, one_mul,
      sub_lt_iff_lt_add]
    exact_mod_cast And.intro hlt hle
  rw [hceil, ht, Nat.cast_mul, mul_div_cancel_right₀ _ hscale.ne']
  rfl

/-- A magnitude rounded towards zero under the same sign. -/
theorem value_roundDown (hsign : F.sign b = F.sign a)
    (hmag : F.magnitude b = F.roundDown (F.magnitude a)) :
    F.value b = if F.sign a then (⌈F.value a⌉ : ℚ) else (⌊F.value a⌋ : ℚ) := by
  rw [value, value, hsign, hmag, floor_units]
  cases F.sign a with
  | true => simp [Int.ceil_neg]
  | false => simp

/-- A magnitude rounded away from zero under the same sign. -/
theorem value_roundUp (hsign : F.sign b = F.sign a)
    (hmag : F.magnitude b = F.roundUp (F.magnitude a)) :
    F.value b = if F.sign a then (⌊F.value a⌋ : ℚ) else (⌈F.value a⌉ : ℚ) := by
  rw [value, value, hsign, hmag, ceil_units]
  cases F.sign a with
  | true => simp [Int.floor_neg]
  | false => simp

theorem truncate_value (a : BitVec F.width) :
    truncate (F.value a) = if F.sign a then ⌈F.value a⌉ else ⌊F.value a⌋ := by
  have hnonneg := units_div_nonneg (F := F) (F.magnitude a)
  unfold truncate
  cases hsign : F.sign a with
  | false =>
    have hvalue : 0 ≤ F.value a := by simpa [value, hsign] using hnonneg
    simp [hvalue]
  | true =>
    have hvalue : F.value a ≤ 0 := by simpa [value, hsign] using hnonneg
    rcases hvalue.lt_or_eq with hlt | hzero
    · simp [not_le.mpr hlt]
    · simp [hzero]

theorem width_pos : 0 < F.width := by
  by_contra hzero
  have hwidth : F.width - 1 = 0 := by omega
  have hsize := F.magnitudes
  have hpow := Nat.one_lt_two_pow (Nat.pos_iff_ne_zero.mp F.frac_pos)
  rw [hwidth, pow_zero] at hsize
  have hle := Nat.le_mul_of_pos_left (2 ^ F.frac) (by omega : 0 < 2 * F.bias + 2)
  omega

/-- The value of the sign bit. -/
def signBit (F : FloatFormat) (s : Bool) : Nat := if s then 2 ^ (F.width - 1) else 0

theorem toNat_eq (a : BitVec F.width) :
    a.toNat = F.signBit (F.sign a) + F.magnitude a ∧ F.magnitude a < 2 ^ (F.width - 1) := by
  have hlt := a.isLt
  have hpow : 2 ^ F.width = 2 * 2 ^ (F.width - 1) := by
    rw [← pow_succ', Nat.sub_add_cancel width_pos]
  refine ⟨?_, Nat.mod_lt _ (Nat.two_pow_pos _)⟩
  unfold sign magnitude signBit
  by_cases hsign : 2 ^ (F.width - 1) ≤ a.toNat
  · rw [decide_eq_true hsign, if_pos rfl, Nat.mod_eq_sub_mod hsign, Nat.mod_eq_of_lt (by omega)]
    omega
  · rw [decide_eq_false hsign, if_neg Bool.false_ne_true, Nat.mod_eq_of_lt (by omega), Nat.zero_add]

theorem sign_magnitude_of_toNat {s : Bool} {n : Nat} (h : b.toNat = F.signBit s + n)
    (hn : n < 2 ^ (F.width - 1)) : F.sign b = s ∧ F.magnitude b = n := by
  unfold sign magnitude
  rw [h, signBit]
  cases s with
  | true =>
    rw [if_pos rfl, Nat.add_mod_left, Nat.mod_eq_of_lt hn]
    exact ⟨decide_eq_true (Nat.le_add_right _ _), rfl⟩
  | false =>
    rw [if_neg Bool.false_ne_true, Nat.zero_add, Nat.mod_eq_of_lt hn]
    exact ⟨decide_eq_false (Nat.not_le.mpr hn), rfl⟩

theorem signBit_dvd (s : Bool) {k : Nat} (hk : k ≤ F.width - 1) : 2 ^ k ∣ F.signBit s := by
  unfold signBit
  split
  · exact Nat.pow_dvd_pow 2 hk
  · exact dvd_zero _

/-- Clearing low bits clears them in the magnitude. -/
theorem sign_magnitude_clear {k : Nat} (hk : k ≤ F.width - 1)
    (h : b.toNat = a.toNat / 2 ^ k * 2 ^ k) :
    F.sign b = F.sign a ∧
      F.magnitude b = F.magnitude a - F.magnitude a % 2 ^ k := by
  obtain ⟨ha, hlt⟩ := toNat_eq a
  refine sign_magnitude_of_toNat ?_ (Nat.lt_of_le_of_lt (Nat.sub_le _ _) hlt)
  obtain ⟨c, hc⟩ := signBit_dvd (F.sign a) hk
  rw [h, ha, hc, Nat.mul_add_div (Nat.two_pow_pos k), Nat.add_mul, Nat.mul_comm c,
    Nat.div_mul_self_eq_mod_sub_self]

/-- Adding all of the low bits first carries into the bits above when some low bit is set. -/
theorem sign_magnitude_carry {k : Nat} (hk : k ≤ F.width - 1) (hpart : F.magnitude a % 2 ^ k ≠ 0)
    (hfits : F.magnitude a - F.magnitude a % 2 ^ k + 2 ^ k < 2 ^ (F.width - 1))
    (h : b.toNat = (a.toNat + (2 ^ k - 1)) / 2 ^ k * 2 ^ k) :
    F.sign b = F.sign a ∧
      F.magnitude b = F.magnitude a - F.magnitude a % 2 ^ k + 2 ^ k := by
  obtain ⟨ha, -⟩ := toNat_eq a
  refine sign_magnitude_of_toNat ?_ hfits
  obtain ⟨c, hc⟩ := signBit_dvd (F.sign a) hk
  have hpow := Nat.two_pow_pos k
  have hdiv := Nat.div_add_mod (F.magnitude a) (2 ^ k)
  have hlt := Nat.mod_lt (F.magnitude a) hpow
  have hquot : (F.magnitude a + (2 ^ k - 1)) / 2 ^ k = F.magnitude a / 2 ^ k + 1 := by
    rw [Nat.div_eq_iff hpow]
    constructor
    · rw [Nat.add_mul, Nat.mul_comm]
      omega
    · rw [Nat.add_mul, Nat.mul_comm]
      omega
  rw [h, ha, hc, Nat.add_assoc, Nat.mul_add_div hpow, hquot, Nat.add_mul, Nat.add_mul,
    Nat.mul_comm c, Nat.mul_comm (F.magnitude a / _)]
  omega

end Patterns

end FloatFormat

section Masks

variable {w k : Nat} (a : BitVec w) {m : BitVec w}

theorem toNat_and_lowMask (hm : m.toNat = 2 ^ k - 1) : (a &&& m).toNat = a.toNat % 2 ^ k := by
  rw [BitVec.toNat_and, hm, Nat.and_two_pow_sub_one_eq_mod]

theorem and_lowMask_eq_zero (hm : m.toNat = 2 ^ k - 1) : a &&& m = 0 ↔ a.toNat % 2 ^ k = 0 := by
  rw [← toNat_and_lowMask a hm, BitVec.toNat_eq]
  rfl

theorem toNat_and_not_lowMask (hm : m.toNat = 2 ^ k - 1) :
    (a &&& ~~~m).toNat = a.toNat / 2 ^ k * 2 ^ k := by
  have hshift : a &&& ~~~m = (a >>> k) <<< k := by
    apply BitVec.eq_of_getLsbD_eq
    intro i hi
    have hbit : m.getLsbD i = decide (i < k) := by
      rw [BitVec.getLsbD, hm, Nat.testBit_two_pow_sub_one]
    rw [BitVec.getLsbD_and, BitVec.getLsbD_not, hbit, BitVec.getLsbD_shiftLeft,
      BitVec.getLsbD_ushiftRight]
    rcases Nat.lt_or_ge i k with hlt | hge
    · simp [hi, hlt]
    · simp [hi, Nat.not_lt.mpr hge, Nat.add_sub_cancel' hge]
  have hle : a.toNat / 2 ^ k * 2 ^ k ≤ a.toNat := Nat.div_mul_le_self _ _
  rw [hshift, BitVec.toNat_shiftLeft, BitVec.toNat_ushiftRight, Nat.shiftLeft_eq,
    Nat.shiftRight_eq_div_pow, Nat.mod_eq_of_lt (Nat.lt_of_le_of_lt hle a.isLt)]

end Masks

end EosVm.Lib
