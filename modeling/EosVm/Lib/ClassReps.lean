import Mathlib.Data.List.Basic

/-!
# Class representatives in a list

Each position of a list is given the first position whose element is related to its own. For an
equivalence on the elements, two positions have the same representative exactly when their elements
are related.
-/

set_option autoImplicit false

namespace EosVm.Lib

variable {α : Type}

/-- The first position that is related to each position; every position is related to itself. -/
def classReps (r : α → α → Bool) (xs : List α) : List Nat :=
  xs.mapIdx fun i x => (xs.take i).findIdx (r · x)

@[simp] theorem length_classReps (r : α → α → Bool) (xs : List α) :
    (classReps r xs).length = xs.length := List.length_mapIdx ..

/-- `r` is an equivalence on the elements of `xs`. -/
structure EquivOn (r : α → α → Bool) (xs : List α) : Prop where
  refl : ∀ x ∈ xs, r x x = true
  symm : ∀ x ∈ xs, ∀ y ∈ xs, r x y = true → r y x = true
  trans : ∀ x ∈ xs, ∀ y ∈ xs, ∀ z ∈ xs, r x y = true → r y z = true → r x z = true

variable {r : α → α → Bool} {xs : List α} {i j k : Nat} {x y : α}

theorem getElem?_classReps (hx : xs[i]? = some x) :
    (classReps r xs)[i]? = some ((xs.take i).findIdx (r · x)) := by
  unfold classReps
  rw [List.getElem?_mapIdx, hx]
  rfl

/-- The representative of a position: related to it, and no earlier position is. -/
theorem classReps_spec (hr : EquivOn r xs) (hx : xs[i]? = some x)
    (hk : (classReps r xs)[i]? = some k) :
    (∃ y, xs[k]? = some y ∧ r y x = true) ∧ ∀ m z, m < k → xs[m]? = some z → r z x = false := by
  rw [getElem?_classReps hx, Option.some.injEq] at hk
  have hlt : i < xs.length := (List.getElem?_eq_some_iff.mp hx).1
  have hlen : (xs.take i).length = i := by
    rw [List.length_take]
    omega
  have hle : k ≤ i := by
    rw [← hk]
    calc (xs.take i).findIdx (r · x) ≤ (xs.take i).length := List.findIdx_le_length
      _ = i := hlen
  constructor
  · by_cases heq : k = i
    · rw [heq]
      exact ⟨x, hx, hr.refl x (List.mem_of_getElem? hx)⟩
    · have hfind : (xs.take i).findIdx (r · x) < (xs.take i).length := by omega
      have hrel := List.findIdx_getElem (w := hfind)
      rw [List.getElem_take] at hrel
      refine ⟨xs[k], List.getElem?_eq_getElem (by omega), ?_⟩
      simpa only [hk] using hrel
  · intro m z hm hz
    have hnot := List.not_of_lt_findIdx (show m < (xs.take i).findIdx (r · x) by omega)
    rw [List.getElem_take] at hnot
    have hget : xs[m] = z := (List.getElem?_eq_some_iff.mp hz).2
    rw [hget] at hnot
    simpa using hnot

/-- Two positions have the same representative exactly when they are related. -/
theorem classReps_eq_iff (hr : EquivOn r xs) (hx : xs[i]? = some x) (hy : xs[j]? = some y) :
    (classReps r xs)[i]? = (classReps r xs)[j]? ↔ r x y = true := by
  have hxm := List.mem_of_getElem? hx
  have hym := List.mem_of_getElem? hy
  obtain ⟨k, hk⟩ : ∃ k, (classReps r xs)[i]? = some k := ⟨_, getElem?_classReps hx⟩
  obtain ⟨l, hl⟩ : ∃ l, (classReps r xs)[j]? = some l := ⟨_, getElem?_classReps hy⟩
  obtain ⟨⟨a, ha, hax⟩, hfirstk⟩ := classReps_spec hr hx hk
  obtain ⟨⟨b, hb, hby⟩, hfirstl⟩ := classReps_spec hr hy hl
  have ham := List.mem_of_getElem? ha
  have hbm := List.mem_of_getElem? hb
  rw [hk, hl, Option.some.injEq]
  constructor
  · intro hkl
    have hab : a = b := Option.some.inj (by rw [← ha, ← hb, hkl])
    rw [← hab] at hby
    exact hr.trans x hxm a ham y hym (hr.symm a ham x hxm hax) hby
  · intro hxy
    -- each representative is related to the other position, so neither comes first
    have hay := hr.trans a ham x hxm y hym hax hxy
    have hbx := hr.trans b hbm y hym x hxm hby (hr.symm x hxm y hym hxy)
    have hkl : ¬ k < l := fun hlt => by
      rw [hfirstl k a hlt ha] at hay
      cases hay
    have hlk : ¬ l < k := fun hlt => by
      rw [hfirstk l b hlt hb] at hbx
      cases hbx
    omega

end EosVm.Lib
