import EosVm.Invariants.InterpFrames
import EosVm.Invariants.JitFrames

/-!
# Contexts after `execute`

When `execute` returns or throws, the context is as it was before the call, in every run of code and
host functions, unless a fault jumps over a guard that restores a part of it.
-/

set_option autoImplicit false

namespace EosVm

open Lib

/-- Every `execute` restores the context if and only if no host function that an `execute` runs
directly faults. -/
theorem interpreter_restores_iff {mod : Module} {m m' : Interpreter}
    {steps : List (TraceStep Interpreter Event Interpreter.Step)}
    (h : Trace (Interpreter.step mod) Outcome.next m steps m') (hidle : m.frames = []) :
    (∀ s ∈ steps, Interpreter.Restores s.before s.event s.outcome) ↔
      ∀ s ∈ steps, ¬ Interpreter.SkipsExecute s.before s.event := by
  refine h.forall_iff (P := fun m => Interpreter.Nested m.ctx m.frames) ?_ ?_ ?_
  · rw [hidle]
    trivial
  · intro m e o hinv hstep hallowed
    exact (Interpreter.step_sound hinv hstep hallowed).nested
  · intro m e o hinv hstep
    constructor
    · intro hrestores hskip
      exact Interpreter.skipping_not_restores hinv hstep hskip hrestores
    · intro hallowed
      exact (Interpreter.step_sound hinv hstep hallowed).restores

/-- An imported function and a defined one. -/
def hostSample : Module where
  types := [⟨0x60, [], 0, none⟩]
  imports := [⟨[], [], .function, 0⟩]
  functions := [0]
  code := [⟨0, [], 0⟩]

/-- The code calls the host function, which executes the code again, and then the host function,
where `exit` is called. -/
def reentry : List Event :=
  [.execute 1 1 (some 0), .work 3 5, .call 0, .execute 2 1 (some 0), .ret, .execute 3 0 (some 0),
    .exit, .ret, .ret, .ret]

theorem reentry_restores :
    ∃ steps m', Trace (Interpreter.step hostSample) Outcome.next ⟨⟨0, [], 0, {}, 8⟩, []⟩ steps m' ∧
      ∀ s ∈ steps, Interpreter.Restores s.before s.event s.outcome := by
  obtain ⟨⟨steps, m'⟩, hrun⟩ := Option.isSome_iff_exists.mp (show (runEvents
    (Interpreter.step hostSample) Outcome.next reentry ⟨⟨0, [], 0, {}, 8⟩, []⟩).isSome = true by
      decide +kernel)
  refine ⟨steps, m', .of_runEvents hrun, (interpreter_restores_iff (.of_runEvents hrun) rfl).mpr ?_⟩
  rintro s hs ⟨hfault, -⟩
  have hmem := Trace.event_mem_of_runEvents hrun hs
  rw [hfault] at hmem
  exact absurd hmem (by decide)

/-- The code calls the host function, which executes the host function, where a pointer is bad. -/
def nestedFault : List Event :=
  [.execute 1 1 (some 0), .work 3 5, .call 0, .execute 2 0 (some 0), .fault]

/-- The fault ends the outer `execute` with the stacks of the inner one. -/
theorem nestedFault_not_restores :
    ∃ steps m', Trace (Interpreter.step hostSample) Outcome.next ⟨⟨0, [], 0, {}, 8⟩, []⟩ steps m' ∧
      (∃ s ∈ steps, s.outcome.ended = some ⟨0, [], 0, {}, 8⟩ ∧
        s.outcome.next.ctx.os = 3 ∧ s.outcome.next.ctx.callStack.length = 2) ∧
      ¬ ∀ s ∈ steps, Interpreter.Restores s.before s.event s.outcome := by
  obtain ⟨⟨steps, m'⟩, hrun⟩ := Option.isSome_iff_exists.mp (show (runEvents
    (Interpreter.step hostSample) Outcome.next nestedFault ⟨⟨0, [], 0, {}, 8⟩, []⟩).isSome = true by
      decide +kernel)
  have hlast : ∃ s ∈ steps, s.outcome.ended = some ⟨0, [], 0, {}, 8⟩ ∧
      s.outcome.next.ctx.os = 3 ∧ s.outcome.next.ctx.callStack.length = 2 := by
    have hends : ∀ steps' m'', runEvents (Interpreter.step hostSample) Outcome.next nestedFault
        ⟨⟨0, [], 0, {}, 8⟩, []⟩ = some (steps', m'') → ∃ s ∈ steps',
          s.outcome.ended = some ⟨0, [], 0, {}, 8⟩ ∧ s.outcome.next.ctx.os = 3 ∧
            s.outcome.next.ctx.callStack.length = 2 := by
      rintro steps' m'' ⟨rfl, rfl⟩
      exact ⟨_, List.mem_of_getElem? (i := 4) rfl, rfl, rfl, rfl⟩
    exact hends steps m' hrun
  refine ⟨steps, m', .of_runEvents hrun, hlast, fun hall => ?_⟩
  obtain ⟨s, hs, hended, hos, -⟩ := hlast
  have hctx := (hall s hs).context _ hended
  rw [hctx] at hos
  cases hos

/-- Every `execute` restores the context in a run in which no host function faults or changes the
limit. -/
theorem jit_restores_without_host_faults {code : JitModule} {m m' : Jit}
    {steps : List (TraceStep Jit Event Jit.Step)}
    (h : Trace (Jit.step code) Outcome.next m steps m') (hidle : m.frames = [])
    (hlimit : ∀ s ∈ steps, ¬ Jit.HostSetsLimit s.before s.event)
    (hfault : ∀ s ∈ steps, ¬ Jit.HostFaults s.before s.event) :
    ∀ s ∈ steps, Jit.Restores s.outcome := by
  refine h.forall_of (P := fun m => Jit.Accounts m.ctx.remaining m.frames)
    (A := fun s => ¬ Jit.HostFaults s.before s.event ∧
      ¬ Jit.HostSetsLimit s.before s.event) ?_ ?_ ?_
  · rw [hidle]
    trivial
  · intro m e o haccounts hstep hallowed
    have hsound := Jit.step_sound haccounts hstep hallowed.1 hallowed.2
    exact ⟨hsound.accounts, hsound.restores⟩
  · intro s hs
    exact ⟨hfault s hs, hlimit s hs⟩

/-- `hostSample` with a frame of 16 bytes for each function. -/
def hostCode : JitModule := ⟨hostSample, fun _ => 16⟩

/-- The code calls the host function, which executes the code again, and then the host function,
where `exit` is called. -/
def jitReentry : List Event :=
  [.execute 1 1 (some 0), .call 0, .work 3 0, .execute 2 1 (some 0), .ret, .execute 3 0 (some 0),
    .exit, .ret, .ret]

theorem jitReentry_restores :
    ∃ steps m', Trace (Jit.step hostCode) Outcome.next ⟨⟨0, 0, 8⟩, []⟩ steps m' ∧
      ∀ s ∈ steps, Jit.Restores s.outcome := by
  obtain ⟨⟨steps, m'⟩, hrun⟩ := Option.isSome_iff_exists.mp (show (runEvents (Jit.step hostCode)
    Outcome.next jitReentry ⟨⟨0, 0, 8⟩, []⟩).isSome = true by decide +kernel)
  refine ⟨steps, m', .of_runEvents hrun,
    jit_restores_without_host_faults (.of_runEvents hrun) rfl ?_ ?_⟩
  · rintro s hs ⟨⟨limit, hevent⟩, -⟩
    have hmem := Trace.event_mem_of_runEvents hrun hs
    rw [hevent] at hmem
    simp [jitReentry] at hmem
  · rintro s hs ⟨hfault, -⟩
    have hmem := Trace.event_mem_of_runEvents hrun hs
    rw [hfault] at hmem
    simp [jitReentry] at hmem

/-- The code calls the host function, where a pointer is bad. -/
def hostFault : List Event := [.execute 1 1 (some 0), .call 0, .fault]

/-- The counter keeps the value it had in the host function. -/
theorem hostFault_not_restores :
    ∃ steps m', Trace (Jit.step hostCode) Outcome.next ⟨⟨0, 0, 8⟩, []⟩ steps m' ∧
      (∀ s ∈ steps, ¬ Jit.HostSetsLimit s.before s.event) ∧
      ¬ ∀ s ∈ steps, Jit.Restores s.outcome := by
  obtain ⟨⟨steps, m'⟩, hrun⟩ := Option.isSome_iff_exists.mp (show (runEvents (Jit.step hostCode)
    Outcome.next hostFault ⟨⟨0, 0, 8⟩, []⟩).isSome = true by decide +kernel)
  have hcounters : (runEvents (Jit.step hostCode) Outcome.next hostFault ⟨⟨0, 0, 8⟩, []⟩).map
      (fun run => run.1.map fun s => (s.outcome.ended, s.outcome.next.ctx)) =
        some [(none, ⟨0, 1, 8⟩), (none, ⟨0, 1, 7⟩), (some ⟨0, 0, 8⟩, ⟨0, 0, 7⟩)] := by
    decide +kernel
  rw [hrun, Option.map_some, Option.some.injEq] at hcounters
  refine ⟨steps, m', .of_runEvents hrun, ?_, fun hall => ?_⟩
  · rintro s hs ⟨⟨limit, hevent⟩, -⟩
    have hmem := Trace.event_mem_of_runEvents hrun hs
    rw [hevent] at hmem
    simp [hostFault] at hmem
  · have hlast : ((some ⟨0, 0, 8⟩, ⟨0, 0, 7⟩) : Option JitContext × JitContext) ∈
        steps.map fun s => (s.outcome.ended, s.outcome.next.ctx) := by
      rw [hcounters]
      simp
    obtain ⟨s, hs, heq⟩ := List.mem_map.mp hlast
    obtain ⟨hended, hctx⟩ := Prod.mk.inj heq
    rw [hall s hs _ hended] at hctx
    cases hctx

end EosVm
