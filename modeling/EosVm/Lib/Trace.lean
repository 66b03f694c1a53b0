import Mathlib.Data.List.Basic

/-!
# Traces

Runs of a machine whose steps have an outcome, with everything that happened in them, and the two
rules for a property of all steps: from an invariant, and as the same as a condition on all steps.
-/

set_option autoImplicit false

namespace EosVm.Lib

variable {M E O : Type}

/-- A step of a machine: the state before it, the event, and its outcome. -/
structure TraceStep (M E O : Type) where
  before : M
  event : E
  outcome : O

/-- The run of a machine from one state to another, first step first. -/
inductive Trace (step : E → M → Option O) (next : O → M) :
    M → List (TraceStep M E O) → M → Prop where
  | nil (m : M) : Trace step next m [] m
  | cons {m m' : M} {e : E} {o : O} {steps : List (TraceStep M E O)} (hstep : step e m = some o)
      (hrest : Trace step next (next o) steps m') : Trace step next m (⟨m, e, o⟩ :: steps) m'

/-- The trace of a list of events. -/
def runEvents (step : E → M → Option O) (next : O → M) :
    List E → M → Option (List (TraceStep M E O) × M)
  | [], m => some ([], m)
  | e :: es, m => do
    let o ← step e m
    let (steps, m') ← runEvents step next es (next o)
    some (⟨m, e, o⟩ :: steps, m')

namespace Trace

variable {step : E → M → Option O} {next : O → M} {m m' : M} {steps : List (TraceStep M E O)}
  {P : M → Prop} {G A : TraceStep M E O → Prop}

theorem of_runEvents {events : List E} (h : runEvents step next events m = some (steps, m')) :
    Trace step next m steps m' := by
  induction events generalizing m steps with
  | nil =>
    obtain ⟨rfl, rfl⟩ := Prod.mk.inj (Option.some.inj h)
    exact .nil m
  | cons e es ih =>
    simp only [runEvents, Option.bind_eq_bind, Option.bind_eq_some_iff, Option.some.injEq,
      Prod.mk.injEq] at h
    obtain ⟨o, hstep, ⟨rest, last⟩, hrest, rfl, rfl⟩ := h
    exact .cons hstep (ih hrest)

theorem event_mem_of_runEvents {events : List E}
    (h : runEvents step next events m = some (steps, m')) {s : TraceStep M E O} (hs : s ∈ steps) :
    s.event ∈ events := by
  induction events generalizing m steps with
  | nil =>
    obtain ⟨rfl, -⟩ := Prod.mk.inj (Option.some.inj h)
    cases hs
  | cons e es ih =>
    simp only [runEvents, Option.bind_eq_bind, Option.bind_eq_some_iff, Option.some.injEq,
      Prod.mk.injEq] at h
    obtain ⟨o, hstep, ⟨rest, last⟩, hrest, rfl, rfl⟩ := h
    rcases List.mem_cons.mp hs with rfl | hs
    · exact List.mem_cons_self ..
    · exact List.mem_cons_of_mem _ (ih hrest hs)

/-- One more step. -/
theorem snoc {e : E} {o : O} (h : Trace step next m steps m') (hstep : step e m' = some o) :
    Trace step next m (steps ++ [⟨m', e, o⟩]) (next o) := by
  induction h with
  | nil m => exact .cons hstep (.nil _)
  | cons hfirst _ ih => exact .cons hfirst (ih hstep)

/-- A property that every step keeps holds at the end of a run. -/
theorem invariant (h : Trace step next m steps m') (hinit : P m)
    (hstep : ∀ m e o, P m → step e m = some o → P (next o)) : P m' := by
  induction h with
  | nil m => exact hinit
  | cons hfirst _ ih => exact ih (hstep _ _ _ hinit hfirst)

/-- The same for steps that are allowed. -/
theorem invariant_of (h : Trace step next m steps m') (hinit : P m)
    (hstep : ∀ m e o, P m → step e m = some o → A ⟨m, e, o⟩ → P (next o))
    (hallowed : ∀ s ∈ steps, A s) : P m' := by
  induction h with
  | nil m => exact hinit
  | cons hfirst _ ih =>
    have hnext := hstep _ _ _ hinit hfirst (hallowed _ (List.mem_cons_self ..))
    exact ih hnext fun s hs => hallowed s (List.mem_cons_of_mem _ hs)

/-- A steps keep the invariant and are good, so all steps of a run of them are. -/
theorem forall_of (h : Trace step next m steps m') (hinit : P m)
    (hstep : ∀ m e o, P m → step e m = some o → A ⟨m, e, o⟩ → P (next o) ∧ G ⟨m, e, o⟩)
    (hallowed : ∀ s ∈ steps, A s) : ∀ s ∈ steps, G s := by
  induction h with
  | nil m =>
    intro s hs
    cases hs
  | cons hfirst _ ih =>
    obtain ⟨hnext, hgood⟩ := hstep _ _ _ hinit hfirst (hallowed _ (List.mem_cons_self ..))
    have hrest := ih hnext fun s hs => hallowed s (List.mem_cons_of_mem _ hs)
    exact List.forall_mem_cons.mpr ⟨hgood, hrest⟩

/-- Under the invariant a step is good if and only if it is allowed: so is a run. -/
theorem forall_iff (h : Trace step next m steps m') (hinit : P m)
    (hkeep : ∀ m e o, P m → step e m = some o → A ⟨m, e, o⟩ → P (next o))
    (hgood : ∀ m e o, P m → step e m = some o → (G ⟨m, e, o⟩ ↔ A ⟨m, e, o⟩)) :
    (∀ s ∈ steps, G s) ↔ ∀ s ∈ steps, A s := by
  induction h with
  | nil m => simp
  | cons hstep _ ih =>
    simp only [List.forall_mem_cons]
    constructor
    · rintro ⟨hfirst, hrest⟩
      have hallowed := (hgood _ _ _ hinit hstep).mp hfirst
      exact ⟨hallowed, (ih (hkeep _ _ _ hinit hstep hallowed)).mp hrest⟩
    · rintro ⟨hfirst, hrest⟩
      exact ⟨(hgood _ _ _ hinit hstep).mpr hfirst, (ih (hkeep _ _ _ hinit hstep hfirst)).mpr hrest⟩

end Trace

end EosVm.Lib
