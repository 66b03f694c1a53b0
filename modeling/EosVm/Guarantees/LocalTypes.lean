import EosVm.Invariants.ModuleState
import EosVm.Invariants.TypingContext

/-!
# Types of locals

`local_types_t` keeps the index after the parameters and after each group of locals, and looks a
local up by binary search. Empty groups repeat a boundary, and the search passes over them.
-/

set_option autoImplicit false

namespace EosVm

open Lib

/-- What the parser reads as `varuint32`: the number of parameters and the size of each group. -/
structure CountsFit (ft : FuncType) (locals : List LocalEntry) : Prop where
  params : ft.paramTypes.length < 2 ^ 32
  groups : ∀ entry ∈ locals, entry.count < 2 ^ 32

/-- An accepted type has the parameters that the lookup can count. -/
theorem parseFuncType_params_lt {o : Options} {code next : WasmCodePtr} {ft : FuncType}
    (h : parseFuncType o code = .ok (ft, next)) : ft.paramTypes.length < 2 ^ 32 := by
  simp only [parseFuncType, parseVector, bind_eq_ok, vmAssert_eq_ok, pure_eq_ok, Prod.exists,
    exists_const] at h
  obtain ⟨form, p₁, -, -, count, p₂, hcount, paramTypes, p₃, ⟨items, p₄, _, hitems, hpair⟩,
    returns, p₅, -, -, hft⟩ := h
  obtain ⟨rfl, rfl⟩ := Prod.mk.inj hpair
  have hparams : ft.paramTypes = items := by
    split at hft
    · obtain ⟨r, -, heq⟩ := bind_eq_ok.mp hft
      rw [← (Prod.mk.inj (pure_eq_ok.mp heq)).1]
    · rw [← (Prod.mk.inj (pure_eq_ok.mp hft)).1]
  rw [hparams, parseItems_length hitems]
  exact parseVaruint32_lt hcount

section Boundaries

variable {count : Nat} {locals : List LocalEntry} {boundaries : List Nat}

/-- The test for too many locals does not wrap around. -/
theorem makeBoundaries_ok_iff (hgroups : ∀ entry ∈ locals, entry.count < 2 ^ 32)
    (hcount : count < 2 ^ 32) :
    (∃ boundaries, LocalTypes.makeBoundaries count locals = .ok boundaries) ↔
      count + (locals.map LocalEntry.count).sum < 2 ^ 32 := by
  induction locals generalizing count with
  | nil => exact iff_of_true ⟨_, rfl⟩ hcount
  | cons entry locals ih =>
    have hentry := hgroups entry List.mem_cons_self
    have hrest := fun e he => hgroups e (List.mem_cons_of_mem _ he)
    simp only [LocalTypes.makeBoundaries, bind_eq_ok, vmAssert_eq_ok, pure_eq_ok, exists_const,
      decide_eq_true_eq, List.map_cons, List.sum_cons]
    constructor
    · rintro ⟨boundaries, hfits, rest, hok, rfl⟩
      have hsum := (ih hrest (by omega)).mp ⟨rest, hok⟩
      omega
    · intro hsum
      obtain ⟨rest, hok⟩ := (ih hrest (by omega)).mpr (by omega : count + entry.count + _ < 2 ^ 32)
      exact ⟨_, by omega, rest, hok, rfl⟩

/-- The boundaries are in order, as the binary search expects them. -/
theorem makeBoundaries_sorted (h : LocalTypes.makeBoundaries count locals = .ok boundaries) :
    boundaries.Pairwise (· ≤ ·) ∧ ∀ b ∈ boundaries, count ≤ b := by
  induction locals generalizing count boundaries with
  | nil =>
    obtain rfl := pure_eq_ok.mp h
    simp
  | cons entry locals ih =>
    simp only [LocalTypes.makeBoundaries, bind_eq_ok, vmAssert_eq_ok, pure_eq_ok,
      exists_const] at h
    obtain ⟨-, rest, hrest, rfl⟩ := h
    obtain ⟨hsorted, hle⟩ := ih hrest
    have hcount : ∀ b ∈ rest, count ≤ b := fun b hb => (Nat.le_add_right _ _).trans (hle b hb)
    refine ⟨List.pairwise_cons.mpr ⟨hcount, hsorted⟩, ?_⟩
    intro b hb
    rcases List.mem_cons.mp hb with rfl | hb
    · exact Nat.le_refl _
    · exact hcount b hb

end Boundaries

/-- The types of the locals are built exactly when there are fewer than `2 ^ 32` parameters and
locals. Then the boundaries are in order, and a local is looked up in the parameters followed by the
groups written out; the lookup fails exactly from their number on. -/
theorem local_types_lookup {ft : FuncType} {locals : List LocalEntry} (h : CountsFit ft locals) :
    ((∃ e, LocalTypes.make ft locals = .error e) ↔ 2 ^ 32 - 1 < (localList ft locals).length) ∧
    ∀ lt, LocalTypes.make ft locals = .ok lt →
      lt.boundaries.Pairwise (· ≤ ·) ∧
      ∀ x, ((∃ e, lt.get x = .error e) ↔ ¬ x < (localList ft locals).length) ∧
        ∀ t, lt.get x = .ok t ↔ (localList ft locals)[x]? = some t := by
  constructor
  · have hmake : (∃ lt, LocalTypes.make ft locals = .ok lt) ↔ localsTotal ft locals < 2 ^ 32 := by
      rw [localsTotal, ← makeBoundaries_ok_iff h.groups h.params]
      simp only [LocalTypes.make, bind_eq_ok, pure_eq_ok]
      constructor
      · rintro ⟨lt, boundaries, hok, rfl⟩
        exact ⟨boundaries, hok⟩
      · rintro ⟨boundaries, hok⟩
        exact ⟨_, boundaries, hok, rfl⟩
    rw [localList_length]
    cases hcase : LocalTypes.make ft locals with
    | ok lt =>
      have hlt := hmake.mp ⟨lt, hcase⟩
      refine iff_of_false ?_ (by omega)
      rintro ⟨e, he⟩
      cases he
    | error e =>
      refine iff_of_true ⟨e, rfl⟩ ?_
      by_contra hle
      obtain ⟨lt, hok⟩ := hmake.mpr (by omega)
      rw [hcase] at hok
      cases hok
  · intro lt hmake
    obtain ⟨-, -, rfl⟩ := LocalTypes.make_total hmake
    have hget : ∀ x t, lt.get x = .ok t ↔ (localList ft lt.locals)[x]? = some t :=
      fun x t => LocalTypes.get_iff hmake
    refine ⟨?_, fun x => ⟨?_, hget x⟩⟩
    · simp only [LocalTypes.make, bind_eq_ok, pure_eq_ok] at hmake
      obtain ⟨boundaries, hok, heq⟩ := hmake
      rw [← heq]
      exact (makeBoundaries_sorted hok).1
    · cases hcase : lt.get x with
      | ok t =>
        have hlt := (List.getElem?_eq_some_iff.mp ((hget x t).mp hcase)).1
        refine iff_of_false ?_ (not_not.mpr hlt)
        rintro ⟨e, he⟩
        cases he
      | error e =>
        refine iff_of_true ⟨e, rfl⟩ fun hlt => ?_
        have hok := (hget x _).mpr (List.getElem?_eq_getElem hlt)
        rw [hcase] at hok
        cases hok

/-- Two parameters, and an empty group between two others. -/
theorem emptyGroup_lookup :
    ∃ lt, LocalTypes.make ⟨0x60, [.i32, .i64], 0, none⟩ [⟨1, .f32⟩, ⟨0, .i32⟩, ⟨2, .f64⟩] = .ok lt ∧
      lt.get 2 = .ok .f32 ∧ lt.get 3 = .ok .f64 ∧ ∃ e, lt.get 5 = .error e := by
  obtain ⟨-, hlookup⟩ := @local_types_lookup ⟨0x60, [.i32, .i64], 0, none⟩
    [⟨1, .f32⟩, ⟨0, .i32⟩, ⟨2, .f64⟩] ⟨by decide, by decide⟩
  obtain ⟨-, hget⟩ := hlookup _ rfl
  exact ⟨_, rfl, ((hget 2).2 _).mpr (by decide), ((hget 3).2 _).mpr (by decide),
    (hget 5).1.mpr (by decide)⟩

end EosVm
