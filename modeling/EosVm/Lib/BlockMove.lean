import Mathlib.Logic.Function.Basic

/-!
# Block moves

What `memmove` and `memset` leave in an array, and how a loop that handles one cell at a time gets
there. A move may go upwards or downwards; each direction has its own condition on the overlap.
-/

set_option autoImplicit false

namespace EosVm.Lib

variable {α : Type}

/-- The array after `memmove` of `n` cells from `s` to `d`. -/
def moveBlock (m : Nat → α) (d s n : Nat) : Nat → α :=
  fun a => if d ≤ a ∧ a < d + n then m (s + (a - d)) else m a

/-- The array after `memset` of `n` cells from `d` on. -/
def fillBlock (m : Nat → α) (d n : Nat) (x : α) : Nat → α :=
  fun a => if d ≤ a ∧ a < d + n then x else m a

@[simp] theorem moveBlock_zero (m : Nat → α) (d s : Nat) : moveBlock m d s 0 = m := by
  funext a
  exact if_neg (by omega)

@[simp] theorem fillBlock_zero (m : Nat → α) (d : Nat) (x : α) : fillBlock m d 0 x = m := by
  funext a
  exact if_neg (by omega)

/-- Upwards: the first cell, then the rest, when the first cell is not read again. -/
theorem moveBlock_succ_up {m : Nat → α} {d s n : Nat} (h : d ≤ s ∨ s + n < d) :
    moveBlock (Function.update m d (m s)) (d + 1) (s + 1) n = moveBlock m d s (n + 1) := by
  funext a
  simp only [moveBlock, Function.update_apply]
  by_cases hfirst : a = d
  · subst hfirst
    rw [if_neg (by omega), if_pos rfl, if_pos (by omega), Nat.sub_self, Nat.add_zero]
  · by_cases hin : d + 1 ≤ a ∧ a < d + 1 + n
    · rw [if_pos hin, if_neg (by omega), if_pos (by omega)]
      exact congrArg m (by omega)
    · rw [if_neg hin, if_neg hfirst, if_neg (by omega)]

/-- Downwards: the last cell, then the rest, when the last cell is not read again. -/
theorem moveBlock_succ_down {m : Nat → α} {d s n : Nat} (h : s ≤ d) :
    moveBlock (Function.update m (d + n) (m (s + n))) d s n = moveBlock m d s (n + 1) := by
  funext a
  simp only [moveBlock, Function.update_apply]
  by_cases hlast : a = d + n
  · subst hlast
    rw [if_neg (by omega), if_pos rfl, if_pos (by omega)]
    exact congrArg m (by omega)
  · by_cases hin : d ≤ a ∧ a < d + n
    · rw [if_pos hin, if_neg (by omega), if_pos (by omega)]
    · rw [if_neg hin, if_neg hlast, if_neg (by omega)]

theorem fillBlock_succ {m : Nat → α} {d n : Nat} {x : α} :
    fillBlock (Function.update m d x) (d + 1) n x = fillBlock m d (n + 1) x := by
  funext a
  simp only [fillBlock, Function.update_apply]
  by_cases hfirst : a = d
  · subst hfirst
    rw [if_neg (by omega), if_pos rfl, if_pos (by omega)]
  · by_cases hin : d + 1 ≤ a ∧ a < d + 1 + n
    · rw [if_pos hin, if_pos (by omega)]
    · rw [if_neg hin, if_neg hfirst, if_neg (by omega)]

theorem moveBlock_outside {m : Nat → α} {d s n a : Nat} (h : a < d ∨ d + n ≤ a) :
    moveBlock m d s n a = m a := if_neg (by omega)

theorem fillBlock_outside {m : Nat → α} {d n a : Nat} {x : α} (h : a < d ∨ d + n ≤ a) :
    fillBlock m d n x a = m a := if_neg (by omega)

theorem moveBlock_comp {β : Type} (f : α → β) (m : Nat → α) (d s n a : Nat) :
    moveBlock (fun a => f (m a)) d s n a = f (moveBlock m d s n a) := by
  unfold moveBlock
  split
  · rfl
  · rfl

/-- A move inside a part of the array is the move of that part. -/
theorem moveBlock_shift {m c : Nat → α} {base len d s n : Nat}
    (hpart : ∀ a < len, m (base + a) = c a) (hs : s + n ≤ len) {a : Nat} (ha : a < len) :
    moveBlock m (base + d) (base + s) n (base + a) = moveBlock c d s n a := by
  unfold moveBlock
  by_cases hin : d ≤ a ∧ a < d + n
  · rw [if_pos (by omega), if_pos hin, ← hpart (s + (a - d)) (by omega)]
    exact congrArg m (by omega)
  · rw [if_neg (by omega), if_neg hin, hpart a ha]

/-- A move of whole cells of `w` bytes each. -/
theorem moveBlock_cells {m : Nat → α} {c : Nat → Nat → α} {base len w d s n : Nat}
    (hpart : ∀ a < len, ∀ j < w, m (base + w * a + j) = c a j) (hs : s + n ≤ len) {a j : Nat}
    (ha : a < len) (hj : j < w) :
    moveBlock m (base + w * d) (base + w * s) (w * n) (base + w * a + j) =
      moveBlock c d s n a j := by
  unfold moveBlock
  by_cases hin : d ≤ a ∧ a < d + n
  · obtain ⟨k, rfl⟩ := Nat.exists_eq_add_of_le hin.1
    have hlast : w * (k + 1) ≤ w * n := Nat.mul_le_mul_left w (by omega)
    have hcell := hpart (s + k) (by omega) j hj
    rw [if_pos hin, if_pos (by rw [Nat.mul_add] at *; omega), Nat.add_sub_cancel_left, ← hcell]
    refine congrArg m ?_
    rw [Nat.mul_add, Nat.mul_add]
    omega
  · rw [if_neg hin, if_neg ?_, hpart a ha j hj]
    rintro ⟨hlow, hhigh⟩
    rcases Nat.lt_or_ge a d with hlt | hge
    · have hbelow : w * (a + 1) ≤ w * d := Nat.mul_le_mul_left w hlt
      rw [Nat.mul_add] at hbelow
      omega
    · have habove : w * (d + n) ≤ w * a := Nat.mul_le_mul_left w (by omega)
      rw [Nat.mul_add] at habove
      omega

theorem fillBlock_shift {m c : Nat → α} {base len d n : Nat} {x : α}
    (hpart : ∀ a < len, m (base + a) = c a) {a : Nat} (ha : a < len) :
    fillBlock m (base + d) n x (base + a) = fillBlock c d n x a := by
  unfold fillBlock
  by_cases hin : d ≤ a ∧ a < d + n
  · rw [if_pos (by omega), if_pos hin]
  · rw [if_neg (by omega), if_neg hin, hpart a ha]

end EosVm.Lib
