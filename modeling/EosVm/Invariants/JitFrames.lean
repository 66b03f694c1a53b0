import EosVm.Lib.Trace
import EosVm.Source.Execute

/-!
# Frames of the machine code

`execute` restores `_host` and the operand stack itself and leaves `_remaining_call_depth` to the
guard of `call_host_function`, which a fault jumps over.
-/

set_option autoImplicit false

namespace EosVm

open Lib

namespace Jit

variable {code : JitModule} {m : Jit} {event : Event} {o : Step}

/-- The embedder or a host function runs. -/
def HostRuns : List JitFrame → Prop
  | [] => True
  | frame :: _ => frame.imported = true ∨ frame.inHost.isSome = true

/-- What a step can do. -/
inductive Does (code : JitModule) (m : Jit) : Event → Step → Prop where
  | execute (host func : Nat) (args : Option Nat) (hhost : HostRuns m.frames) :
      Does code m (.execute host func args) (execute code host func args m)
  | setLimit (limit : Nat) (hhost : HostRuns m.frames) :
      Does code m (.setLimit limit)
        { next := { m with ctx := { m.ctx with remaining := limit % 2 ^ 32 } } }
  | work (operands offset os : Nat) :
      Does code m (.work operands offset) { next := { m with ctx := { m.ctx with os := os } } }
  | call (func callee returned : Nat) (funcs : List (Nat × Nat)) (frame : JitFrame)
      (rest : List JitFrame) (hframes : m.frames = frame :: rest)
      (himported : frame.imported = false) (hhost : frame.inHost = none)
      (hfuncs : frame.funcs = (func, returned) :: funcs) :
      Does code m (.call callee) (call code callee frame rest m.ctx)
  | badCallIndirect (frame : JitFrame) (rest : List JitFrame) (hframes : m.frames = frame :: rest)
      (himported : frame.imported = false) (hhost : frame.inHost = none) :
      Does code m .badCallIndirect (badCallIndirect code frame rest m.ctx)
  | hostReturn (saved returned : Nat) (frame : JitFrame) (rest : List JitFrame)
      (hframes : m.frames = frame :: rest) (hhost : frame.inHost = some (saved, returned)) :
      Does code m .ret (hostReturn code saved returned frame rest m.ctx)
  | codeReturn (func returned : Nat) (funcs : List (Nat × Nat)) (frame : JitFrame)
      (rest : List JitFrame) (hframes : m.frames = frame :: rest)
      (himported : frame.imported = false) (hhost : frame.inHost = none)
      (hfuncs : frame.funcs = (func, returned) :: funcs) :
      Does code m .ret (codeReturn code func returned funcs frame rest m.ctx)
  | hostEnds (event : Event) (frame : JitFrame) (rest : List JitFrame)
      (hframes : m.frames = frame :: rest) (himported : frame.imported = true)
      (hhost : frame.inHost = none) (hevent : event = .ret) :
      Does code m event (finish frame rest m.ctx)
  | hostThrows (event : Event) (frame : JitFrame) (rest : List JitFrame)
      (hframes : m.frames = frame :: rest)
      (hhost : frame.imported = true ∨ frame.inHost.isSome = true)
      (hevent : event = .throw ∨ event = .exit) :
      Does code m event (finish frame rest (unwindHost frame m.ctx))
  | codeThrows (event : Event) (frame : JitFrame) (rest : List JitFrame)
      (hframes : m.frames = frame :: rest) (himported : frame.imported = false)
      (hhost : frame.inHost = none) (hevent : event = .throw ∨ event = .fault) :
      Does code m event (finish frame rest m.ctx)
  | hostFaults (target : JitFrame) (below : List JitFrame) (hhost : HostRuns m.frames)
      (hhandler : handler m.frames = some (target, below)) :
      Does code m .fault (finish target below m.ctx)

theorem step_does (h : step code event m = some o) : Does code m event o := by
  unfold step at h
  split at h
  next hframes =>
    have hhost : HostRuns m.frames := by
      rw [hframes]
      trivial
    split at h
    · rw [← Option.some.inj h]
      exact .execute _ _ _ hhost
    · rw [← Option.some.inj h]
      exact .setLimit _ hhost
    · cases h
  next frame rest hframes =>
    split at h
    next hruns =>
      have hframe : frame.imported = true ∨ frame.inHost.isSome = true := by simpa using hruns
      have hhost : HostRuns m.frames := by
        rw [hframes]
        exact hframe
      split at h
      · rw [← Option.some.inj h]
        exact .execute _ _ _ hhost
      · rw [← Option.some.inj h]
        exact .work _ _ _
      · cases h
      · cases h
      · split at h
        next saved returned hsaved =>
          rw [← Option.some.inj h]
          exact .hostReturn saved returned frame rest hframes hsaved
        next hnone =>
          rw [← Option.some.inj h]
          rw [hnone] at hframe
          exact .hostEnds _ _ _ hframes (hframe.resolve_right (by simp)) hnone rfl
      · rw [← Option.some.inj h]
        exact .hostThrows _ _ _ hframes hframe (Or.inl rfl)
      · rw [← Option.some.inj h]
        exact .hostThrows _ _ _ hframes hframe (Or.inr rfl)
      · obtain ⟨⟨target, below⟩, hhandler, heq⟩ := Option.map_eq_some_iff.mp h
        rw [← heq]
        exact .hostFaults target below hhost hhandler
      · rw [← Option.some.inj h]
        exact .setLimit _ hhost
    next hcode =>
      have himported : frame.imported = false := by
        cases hi : frame.imported with
        | false => rfl
        | true => simp [hi] at hcode
      have hhost : frame.inHost = none := by
        cases hi : frame.inHost with
        | none => rfl
        | some saved => simp [hi] at hcode
      split at h
      · rw [← Option.some.inj h]
        exact .work _ _ m.ctx.os
      next head funcs callee hfuncs =>
        rw [← Option.some.inj h]
        exact .call head.1 callee head.2 funcs frame rest hframes himported hhost hfuncs
      · rw [← Option.some.inj h]
        exact .badCallIndirect frame rest hframes himported hhost
      next func returned funcs hfuncs =>
        rw [← Option.some.inj h]
        exact .codeReturn func returned funcs frame rest hframes himported hhost hfuncs
      · rw [← Option.some.inj h]
        exact .codeThrows _ _ _ hframes himported hhost (Or.inl rfl)
      · rw [← Option.some.inj h]
        exact .codeThrows _ _ _ hframes himported hhost (Or.inr rfl)
      · cases h

/-- The counter of every running frame is the one before its `execute`, in the context or in the
guard of the host function that it has called. -/
def Accounts : Nat → List JitFrame → Prop
  | _, [] => True
  | remaining, frame :: rest =>
    (match frame.inHost with
      | some (saved, _) => saved = frame.before.remaining
      | none => remaining = frame.before.remaining) ∧
    Accounts frame.before.remaining rest

/-- A fault in a host function. -/
def HostFaults (m : Jit) (event : Event) : Prop := event = .fault ∧ HostRuns m.frames

/-- A host function changes the limit. -/
def HostSetsLimit (m : Jit) (event : Event) : Prop :=
  (∃ limit, event = .setLimit limit) ∧ m.frames ≠ []

/-- An `execute` that ends has restored the context. -/
def Restores (o : Step) : Prop := ∀ before, o.ended = some before → o.next.ctx = before

/-- A step that keeps the counters and restores. -/
structure Sound (o : Step) : Prop where
  accounts : Accounts o.next.ctx.remaining o.next.frames
  restores : Restores o

theorem running_sound {frames : List JitFrame} {ctx : JitContext} {returned : Option Nat}
    (h : Accounts ctx.remaining frames) : Sound { next := ⟨ctx, frames⟩, returned := returned } :=
  ⟨h, by rintro before ⟨⟩⟩

theorem finish_sound {frame : JitFrame} {rest : List JitFrame} {ctx : JitContext}
    (hremaining : ctx.remaining = frame.before.remaining)
    (hrest : Accounts frame.before.remaining rest) (overflow : Bool) :
    Sound { finish frame rest ctx with overflow := overflow } := by
  refine ⟨?_, ?_⟩
  · simp only [finish, hremaining]
    exact hrest
  · intro before heq
    rw [← Option.some.inj heq]
    simp only [finish, hremaining]

theorem execute_sound (host func : Nat) (args : Option Nat)
    (h : Accounts m.ctx.remaining m.frames) :
    Sound (execute code host func args m) := by
  unfold execute
  cases args with
  | none => exact finish_sound rfl h false
  | some n =>
    simp only
    split
    · exact running_sound ⟨rfl, h⟩
    · split
      · exact finish_sound rfl h true
      · exact running_sound ⟨rfl, h⟩

theorem call_sound {callee : Nat} {frame : JitFrame} {rest : List JitFrame} {ctx : JitContext}
    (hhost : frame.inHost = none) (h : Accounts ctx.remaining (frame :: rest)) :
    Sound (call code callee frame rest ctx) := by
  simp only [Accounts, hhost] at h
  unfold call
  split
  · exact finish_sound h.1 h.2 true
  · split
    · exact running_sound ⟨h.1, h.2⟩
    · split
      · exact finish_sound h.1 h.2 true
      · refine running_sound ⟨?_, h.2⟩
        simp only [hhost]
        exact h.1

theorem codeReturn_sound {func returned : Nat} {funcs : List (Nat × Nat)} {frame : JitFrame}
    {rest : List JitFrame} {ctx : JitContext} (hhost : frame.inHost = none)
    (h : Accounts ctx.remaining (frame :: rest)) :
    Sound (codeReturn code func returned funcs frame rest ctx) := by
  simp only [Accounts, hhost] at h
  unfold codeReturn
  cases funcs with
  | nil => exact finish_sound h.1 h.2 false
  | cons head funcs =>
    refine running_sound ⟨?_, h.2⟩
    simp only [hhost]
    exact h.1

/-- Every step but a fault in a host function keeps the counters, as long as no host function
changes the limit. -/
theorem step_sound (h : Accounts m.ctx.remaining m.frames) (hstep : step code event m = some o)
    (hfault : ¬ HostFaults m event) (hlimit : ¬ HostSetsLimit m event) : Sound o := by
  cases step_does hstep with
  | execute host func args _ => exact execute_sound host func args h
  | setLimit limit _ =>
    cases hframes : m.frames with
    | nil => exact running_sound trivial
    | cons frame rest => exact absurd ⟨⟨limit, rfl⟩, by simp [hframes]⟩ hlimit
  | work operands offset os => exact running_sound h
  | call func callee returned funcs frame rest hframes _ hhost _ =>
    rw [hframes] at h
    exact call_sound hhost h
  | badCallIndirect frame rest hframes _ hhost =>
    rw [hframes] at h
    simp only [Accounts, hhost] at h
    exact finish_sound h.1 h.2 _
  | hostReturn saved returned frame rest hframes hhost =>
    rw [hframes] at h
    simp only [Accounts, hhost] at h
    exact running_sound ⟨h.1, h.2⟩
  | codeReturn func returned funcs frame rest hframes _ hhost _ =>
    rw [hframes] at h
    exact codeReturn_sound hhost h
  | hostEnds event frame rest hframes _ hhost _ =>
    rw [hframes] at h
    simp only [Accounts, hhost] at h
    exact finish_sound h.1 h.2 false
  | hostThrows event frame rest hframes _ _ =>
    rw [hframes] at h
    refine finish_sound ?_ h.2 false
    unfold unwindHost
    cases hhost : frame.inHost with
    | none =>
      simp only [Accounts, hhost] at h
      exact h.1
    | some pair =>
      simp only [Accounts, hhost] at h
      exact h.1
  | codeThrows event frame rest hframes _ hhost _ =>
    rw [hframes] at h
    simp only [Accounts, hhost] at h
    exact finish_sound h.1 h.2 false
  | hostFaults target below hhost _ => exact absurd ⟨rfl, hhost⟩ hfault

end Jit

end EosVm
