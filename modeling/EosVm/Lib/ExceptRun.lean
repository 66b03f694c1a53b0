import Mathlib.Data.List.Forall2

/-!
# Successful runs in `Except`

Inversion rules for computations in `Except`: a bind succeeds exactly when its parts do. With them
`simp` turns the success of a `do` block into the values its steps returned.
-/

set_option autoImplicit false

namespace EosVm.Lib

variable {ε α β σ : Type}

@[simp] theorem bind_eq_ok {step : Except ε α} {next : α → Except ε β} {value : β} :
    (step >>= next) = .ok value ↔ ∃ x, step = .ok x ∧ next x = .ok value := by
  constructor
  · intro h
    cases step with
    | error e => cases h
    | ok x => exact ⟨x, rfl, h⟩
  · rintro ⟨x, rfl, h⟩
    exact h

@[simp] theorem pure_eq_ok {a b : α} : (pure a : Except ε α) = .ok b ↔ a = b := by
  constructor
  · intro h
    exact Except.ok.inj h
  · rintro rfl
    rfl

@[simp] theorem ok_bind {a : α} {next : α → Except ε β} : (Except.ok a >>= next) = next a := rfl

@[simp] theorem error_bind {e : ε} {next : α → Except ε β} :
    (Except.error e >>= next) = .error e := rfl

/-- `mapM` succeeds exactly when every element does, with the results in order. -/
theorem mapM_eq_ok {f : α → Except ε β} {xs : List α} {ys : List β} :
    xs.mapM f = .ok ys ↔ List.Forall₂ (fun x y => f x = .ok y) xs ys := by
  induction xs generalizing ys with
  | nil =>
    rw [List.mapM_nil, pure_eq_ok, List.forall₂_nil_left_iff]
    exact eq_comm
  | cons x xs ih =>
    rw [List.mapM_cons]
    simp only [bind_eq_ok, pure_eq_ok, ih]
    constructor
    · rintro ⟨y, hy, zs, hzs, rfl⟩
      exact List.Forall₂.cons hy hzs
    · rintro (_ | ⟨hy, hzs⟩)
      exact ⟨_, hy, _, hzs, rfl⟩

theorem exists_ok_of_mapM {f : α → Except ε β} {xs : List α} {ys : List β}
    (h : xs.mapM f = .ok ys) {x : α} (hx : x ∈ xs) : ∃ y, f x = .ok y := by
  obtain ⟨i, hi, rfl⟩ := List.getElem_of_mem hx
  have hall := mapM_eq_ok.mp h
  exact ⟨_, hall.get hi (hall.length_eq ▸ hi)⟩

/-- `mapM` succeeds when every element does. -/
theorem mapM_ok_of_forall {f : α → Except ε β} {xs : List α} (h : ∀ x ∈ xs, ∃ y, f x = .ok y) :
    ∃ ys, xs.mapM f = .ok ys := by
  induction xs with
  | nil => exact ⟨[], rfl⟩
  | cons x xs ih =>
    obtain ⟨y, hy⟩ := h x List.mem_cons_self
    obtain ⟨ys, hys⟩ := ih fun z hz => h z (List.mem_cons_of_mem x hz)
    rw [List.mapM_cons, hy, ok_bind, hys]
    exact ⟨y :: ys, rfl⟩

/-- The result of `mapM` at a position comes from the element there. -/
theorem getElem?_of_mapM {f : α → Except ε β} {xs : List α} {ys : List β} {i : Nat} {y : β}
    (h : xs.mapM f = .ok ys) (hy : ys[i]? = some y) : ∃ x, xs[i]? = some x ∧ f x = .ok y := by
  have hall := mapM_eq_ok.mp h
  obtain ⟨hlt, hget⟩ := List.getElem?_eq_some_iff.mp hy
  have hlt' : i < xs.length := hall.length_eq ▸ hlt
  have hx := hall.get hlt' hlt
  rw [List.get_eq_getElem, List.get_eq_getElem, hget] at hx
  exact ⟨xs[i], List.getElem?_eq_getElem hlt', hx⟩

theorem toOption_eq_some {r : Except ε α} {x : α} : r.toOption = some x ↔ r = .ok x := by
  cases r <;> simp [Except.toOption]

/-- A computation that is seen to succeed has a result. -/
theorem exists_ok_of_isOk {r : Except ε α} (h : r.isOk = true) : ∃ x, r = .ok x := by
  cases r with
  | error e => cases h
  | ok x => exact ⟨x, rfl⟩

end EosVm.Lib
