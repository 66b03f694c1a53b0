import EosVm.Lib.Trace
import EosVm.Source.Execute

/-!
# Frames of the interpreter

`cleanup` of `execute` takes the sizes it restores from the current `_state`. While every frame is
left by its own `execute` these are the sizes that the `execute` found.
-/

set_option autoImplicit false

namespace EosVm

open Lib

namespace Interpreter

variable {mod : Module} {m : Interpreter} {event : Event} {o : Step}

/-- The embedder or a host function runs. -/
def HostRuns : List InterpFrame → Prop
  | [] => True
  | frame :: _ => frame.imported = true ∨ frame.inHost.isSome = true

/-- The contexts differ in what `execute` saves by value only. -/
structure SameStacks (ctx ctx' : InterpContext) : Prop where
  callStack : ctx'.callStack = ctx.callStack
  asIndex : ctx'.state.asIndex = ctx.state.asIndex
  osIndex : ctx'.state.osIndex = ctx.state.osIndex

/-- What a step can do. -/
inductive Does (mod : Module) (m : Interpreter) : Event → Step → Prop where
  | execute (host func : Nat) (args : Option Nat) (hhost : HostRuns m.frames) :
      Does mod m (.execute host func args) (execute mod host func args m)
  | adjust (event : Event) (ctx : InterpContext) (hsame : SameStacks m.ctx ctx)
      (hevent : event ≠ .fault ∧ ∀ host func args, event ≠ .execute host func args) :
      Does mod m event { next := { m with ctx := ctx } }
  | call (func callee returned : Nat) (funcs : List (Nat × Nat)) (frame : InterpFrame)
      (rest : List InterpFrame) (hframes : m.frames = frame :: rest)
      (himported : frame.imported = false) (hhost : frame.inHost = none)
      (hfuncs : frame.funcs = (func, returned) :: funcs) :
      Does mod m (.call callee) (call mod callee frame rest m.ctx)
  | hostReturn (saved : Nat) (frame : InterpFrame) (rest : List InterpFrame)
      (hframes : m.frames = frame :: rest) (hhost : frame.inHost = some saved) :
      Does mod m .ret (hostReturn saved frame rest m.ctx)
  | codeReturn (func returned : Nat) (funcs : List (Nat × Nat)) (frame : InterpFrame)
      (rest : List InterpFrame) (hframes : m.frames = frame :: rest)
      (himported : frame.imported = false) (hhost : frame.inHost = none)
      (hfuncs : frame.funcs = (func, returned) :: funcs) :
      Does mod m .ret
        (resume { frame with funcs := funcs } rest (applyPopCall mod func m.ctx) returned)
  | finish (event : Event) (frame : InterpFrame) (rest : List InterpFrame)
      (hframes : m.frames = frame :: rest)
      (hevent : event ≠ .fault ∨ frame.imported = false)
      (hexecute : ∀ host func args, event ≠ .execute host func args) :
      Does mod m event (finish frame rest m.ctx)
  | unwind (frame target : InterpFrame) (rest below : List InterpFrame)
      (hframes : m.frames = frame :: rest) (himported : frame.imported = true)
      (hhandler : handler m.frames = some (target, below)) :
      Does mod m .fault (Interpreter.finish target below m.ctx)

theorem step_does (h : step mod event m = some o) : Does mod m event o := by
  unfold step at h
  split at h
  next hframes =>
    split at h
    · rw [← Option.some.inj h]
      exact .execute _ _ _ (by rw [hframes]; trivial)
    · rw [← Option.some.inj h]
      exact .adjust _ _ ⟨rfl, rfl, rfl⟩ ⟨by simp, by simp⟩
    · cases h
  next frame rest hframes =>
    split at h
    next hruns =>
      have hhost : HostRuns m.frames := by
        rw [hframes]
        simpa [HostRuns] using hruns
      split at h
      · rw [← Option.some.inj h]
        exact .execute _ _ _ hhost
      · rw [← Option.some.inj h]
        exact .adjust _ _ ⟨rfl, rfl, rfl⟩ ⟨by simp, by simp⟩
      · cases h
      · cases h
      · split at h
        next saved hsaved =>
          rw [← Option.some.inj h]
          exact .hostReturn saved frame rest hframes hsaved
        next =>
          rw [← Option.some.inj h]
          exact .finish _ _ _ hframes (Or.inl (by simp)) (by simp)
      · rw [← Option.some.inj h]
        exact .finish _ _ _ hframes (Or.inl (by simp)) (by simp)
      · rw [← Option.some.inj h]
        exact .adjust _ _ ⟨rfl, rfl, rfl⟩ ⟨by simp, by simp⟩
      · obtain ⟨⟨target, below⟩, hhandler, heq⟩ := Option.map_eq_some_iff.mp h
        rw [← heq]
        cases himported : frame.imported with
        | true => exact .unwind frame target rest below hframes himported hhandler
        | false =>
          rw [hframes, handler, himported] at hhandler
          obtain ⟨rfl, rfl⟩ := Prod.mk.inj (Option.some.inj hhandler)
          exact .finish _ _ _ hframes (Or.inr himported) (by simp)
      · rw [← Option.some.inj h]
        exact .adjust _ _ ⟨rfl, rfl, rfl⟩ ⟨by simp, by simp⟩
    next hcode =>
      have himported : frame.imported = false := by
        cases hi : frame.imported with
        | false => rfl
        | true => simp [hi] at hcode
      have hhost : frame.inHost = none := by
        cases hi : frame.inHost with
        | none => rfl
        | some saved => simp [hi] at hcode
      split at h
      · rw [← Option.some.inj h]
        exact .adjust _ _ ⟨rfl, rfl, rfl⟩ ⟨by simp, by simp⟩
      next head funcs callee hfuncs =>
        rw [← Option.some.inj h]
        exact .call head.1 callee head.2 funcs frame rest hframes himported hhost hfuncs
      · rw [← Option.some.inj h]
        exact .finish _ _ _ hframes (Or.inl (by simp)) (by simp)
      next func returned funcs hfuncs =>
        rw [← Option.some.inj h]
        exact .codeReturn func returned funcs frame rest hframes himported hhost hfuncs
      · rw [← Option.some.inj h]
        exact .finish _ _ _ hframes (Or.inl (by simp)) (by simp)
      · rw [← Option.some.inj h]
        exact .finish _ _ _ hframes (Or.inr himported) (by simp)
      · cases h

/-- The activation frames that an `execute` has pushed. -/
def activations (frame : InterpFrame) : Nat :=
  if frame.imported then 1
  else frame.funcs.length + if frame.inHost.isSome then 1 else 0

/-- The context of a running frame: `_state` is the one its `execute` has set, and the call stack
has grown by its activations. -/
structure FrameFits (frame : InterpFrame) (ctx : InterpContext) : Prop where
  asIndex : ctx.state.asIndex = frame.before.callStack.length
  osIndex : ctx.state.osIndex = frame.before.os
  callStack : ∃ above entry, ctx.callStack = above ++ ⟨.halt, entry⟩ :: frame.before.callStack ∧
    above.length + 1 = activations frame
  shape : frame.imported = true → frame.inHost = none
  running : frame.imported = false → frame.funcs ≠ []

/-- Every frame fits the context in which the next one was entered. -/
def Nested : InterpContext → List InterpFrame → Prop
  | _, [] => True
  | ctx, frame :: rest => FrameFits frame ctx ∧ Nested frame.before rest

theorem cleanup_eq {before ctx : InterpContext} (hos : ctx.state.osIndex = before.os)
    (has : ctx.state.asIndex = before.callStack.length) (above : List ActivationFrame)
    (hstack : ctx.callStack = above ++ before.callStack) : cleanup before ctx = before := by
  have hdrop : ctx.callStack.drop (ctx.callStack.length - ctx.state.asIndex) =
      before.callStack := by
    have hlen : ctx.callStack.length - ctx.state.asIndex = above.length := by
      rw [hstack, has, List.length_append]
      omega
    rw [hlen, hstack]
    exact List.drop_left
  unfold cleanup
  rw [hos, hdrop]

theorem FrameFits.cleanup {frame : InterpFrame} {ctx : InterpContext} (h : FrameFits frame ctx) :
    Interpreter.cleanup frame.before ctx = frame.before := by
  obtain ⟨above, entry, hstack, -⟩ := h.callStack
  exact cleanup_eq h.osIndex h.asIndex (above ++ [⟨.halt, entry⟩]) (by simp [hstack])

theorem FrameFits.adjust {frame : InterpFrame} {ctx ctx' : InterpContext} (h : FrameFits frame ctx)
    (hsame : SameStacks ctx ctx') : FrameFits frame ctx' where
  asIndex := hsame.asIndex.trans h.asIndex
  osIndex := hsame.osIndex.trans h.osIndex
  callStack := by
    rw [hsame.callStack]
    exact h.callStack
  shape := h.shape
  running := h.running

/-- How a step leaves the frames: an `execute` that ends has restored its context and is the only
one to end. -/
structure Restores (m : Interpreter) (event : Event) (o : Step) : Prop where
  context : ∀ before, o.ended = some before → o.next.ctx = before
  frames : ∀ before, o.ended = some before →
    o.next.frames = m.frames.tail ∨
      ((∃ host func args, event = .execute host func args) ∧ o.next.frames = m.frames)

/-- A step that keeps the invariant and restores. -/
structure Sound (m : Interpreter) (event : Event) (o : Step) : Prop where
  nested : Nested o.next.ctx o.next.frames
  restores : Restores m event o

theorem Sound.flagged (h : Sound m event o) (overflow : Bool) (returned : Option Nat) :
    Sound m event { o with overflow := overflow, returned := returned } :=
  ⟨h.nested, h.restores.context, h.restores.frames⟩

theorem finish_sound {frame : InterpFrame} {rest : List InterpFrame} {ctx : InterpContext}
    (hframes : m.frames = frame :: rest) (hfits : FrameFits frame ctx)
    (hrest : Nested frame.before rest) : Sound m event (finish frame rest ctx) := by
  have hclean := hfits.cleanup
  refine ⟨?_, ?_, ?_⟩
  · simp only [finish, hclean]
    exact hrest
  · intro before hbefore
    rw [← Option.some.inj hbefore]
    exact hclean
  · intro before _
    rw [hframes]
    exact Or.inl rfl

/-- An exception that leaves `execute` before anything runs. -/
theorem early_sound {ctx : InterpContext} {host func : Nat} {args : Option Nat}
    (hnext : o.next = ⟨cleanup m.ctx ctx, m.frames⟩) (hended : o.ended = some m.ctx)
    (hos : ctx.state.osIndex = m.ctx.os) (has : ctx.state.asIndex = m.ctx.callStack.length)
    (hstack : ctx.callStack = m.ctx.callStack) (hnested : Nested m.ctx m.frames) :
    Sound m (.execute host func args) o := by
  have hclean : cleanup m.ctx ctx = m.ctx := cleanup_eq hos has [] (by rw [hstack]; rfl)
  rw [hclean] at hnext
  refine ⟨?_, ?_, ?_⟩
  · rw [hnext]
    exact hnested
  · intro before heq
    rw [hnext, ← Option.some.inj (hended.symm.trans heq)]
  · intro before _
    rw [hnext]
    exact Or.inr ⟨⟨host, func, args, rfl⟩, rfl⟩

theorem pushCall_eq_some {index : Nat} {returnPc : Pc} {ctx ctx' : InterpContext}
    (h : pushCall mod index returnPc ctx = some ctx') :
    mod.frameSize index ≤ ctx.remaining ∧
      ctx' = { ctx with
        remaining := ctx.remaining - mod.frameSize index
        callStack := ⟨returnPc, ctx.lastOpIndex⟩ :: ctx.callStack
        lastOpIndex := ctx.os - mod.paramCount index } := by
  simp only [pushCall] at h
  split at h
  next hle => exact ⟨hle, (Option.some.inj h).symm⟩
  · cases h

/-- A step that ends no `execute`. -/
theorem running_sound {frames : List InterpFrame} {ctx : InterpContext} {returned : Option Nat}
    (h : Nested ctx frames) :
    Sound m event { next := ⟨ctx, frames⟩, returned := returned } := by
  refine ⟨h, ?_, ?_⟩
  · rintro before ⟨⟩
  · rintro before ⟨⟩

theorem execute_sound (host func : Nat) (args : Option Nat) (h : Nested m.ctx m.frames) :
    Sound m (.execute host func args) (execute mod host func args m) := by
  unfold execute
  cases args with
  | none => exact early_sound rfl rfl rfl rfl rfl h
  | some n =>
    simp only
    split
    · exact early_sound rfl rfl rfl rfl rfl h
    next ctx hpush =>
      obtain ⟨-, rfl⟩ := pushCall_eq_some hpush
      split
      next himported =>
        refine running_sound ⟨⟨rfl, rfl, ⟨[], _, rfl, ?_⟩, fun _ => rfl, ?_⟩, h⟩
        · simp [activations, himported]
        · simp [himported]
      next himported =>
        refine running_sound ⟨⟨rfl, rfl, ⟨[], _, rfl, ?_⟩, fun _ => rfl, ?_⟩, h⟩
        · simp [activations, himported]
        · simp

theorem call_sound {callee : Nat} {frame : InterpFrame} {rest : List InterpFrame}
    (hframes : m.frames = frame :: rest) (himported : frame.imported = false)
    (hhost : frame.inHost = none) (hfits : FrameFits frame m.ctx)
    (hrest : Nested frame.before rest) :
    Sound m (.call callee) (call mod callee frame rest m.ctx) := by
  have hfinish : Sound m (.call callee) (finish frame rest m.ctx) :=
    finish_sound hframes hfits hrest
  have hoverflow := hfinish.flagged true none
  obtain ⟨above, entry, hstack, hlen⟩ := hfits.callStack
  unfold call
  split
  · simp only
    split
    · refine running_sound ⟨⟨hfits.asIndex, hfits.osIndex, ⟨⟨.null, 0⟩ :: above, entry, ?_, ?_⟩, ?_,
        hfits.running⟩, hrest⟩
      · simp only [hstack, List.cons_append]
      · simp only [activations, himported, hhost, Option.isSome_none, Option.isSome_some,
          Bool.false_eq_true, if_false, if_true] at hlen ⊢
        simp only [List.length_cons]
        omega
      · intro himported'
        rw [himported] at himported'
        cases himported'
    · exact hoverflow
  · split
    · exact hoverflow
    next ctx hpush =>
      obtain ⟨-, rfl⟩ := pushCall_eq_some hpush
      refine running_sound ⟨⟨hfits.asIndex, hfits.osIndex,
        ⟨⟨m.ctx.state.pc.inc, m.ctx.lastOpIndex⟩ :: above, entry, ?_, ?_⟩, hfits.shape, ?_⟩, hrest⟩
      · simp only [hstack, List.cons_append]
      · simp only [activations, himported, hhost, Option.isSome_none, Bool.false_eq_true,
          if_false] at hlen ⊢
        simp only [List.length_cons]
        omega
      · intro _
        simp

/-- The loop goes on in a frame that fits, or ends. -/
theorem resume_sound {frame old : InterpFrame} {rest : List InterpFrame} {ctx : InterpContext}
    {returned : Nat} (hframes : m.frames = old :: rest) (hbefore : frame.before = old.before)
    (hend : cleanup old.before ctx = old.before) (hrest : Nested old.before rest)
    (hfits : ctx.state.pc ≠ .halt → FrameFits frame ctx) :
    Sound m event (resume frame rest ctx returned) := by
  unfold resume
  split
  · refine ⟨?_, ?_, ?_⟩
    · simp only [finish, hbefore, hend]
      exact hrest
    · intro before heq
      rw [← Option.some.inj heq]
      simp only [finish, hbefore, hend]
    · intro before _
      rw [hframes]
      exact Or.inl rfl
  next hpc => exact running_sound ⟨hfits hpc, by rw [hbefore]; exact hrest⟩

theorem hostReturn_sound {saved : Nat} {frame : InterpFrame} {rest : List InterpFrame}
    (hframes : m.frames = frame :: rest) (hhost : frame.inHost = some saved)
    (hfits : FrameFits frame m.ctx) (hrest : Nested frame.before rest) :
    Sound m event (hostReturn saved frame rest m.ctx) := by
  have himported : frame.imported = false := by
    cases hi : frame.imported with
    | false => rfl
    | true => rw [hfits.shape hi] at hhost; cases hhost
  obtain ⟨above, entry, hstack, hlen⟩ := hfits.callStack
  have hfuncs := List.length_pos_iff.mpr (hfits.running himported)
  simp only [activations, himported, hhost, Option.isSome_some, Bool.false_eq_true, if_false,
    if_true] at hlen
  cases above with
  | nil =>
    simp only [List.length_nil] at hlen
    omega
  | cons top above =>
    have htail : m.ctx.callStack.tail = above ++ ⟨.halt, entry⟩ :: frame.before.callStack := by
      rw [hstack]
      rfl
    refine resume_sound hframes rfl ?_ hrest fun _ => ?_
    · exact cleanup_eq hfits.osIndex hfits.asIndex (above ++ [⟨.halt, entry⟩]) (by simp [htail])
    · refine ⟨hfits.asIndex, hfits.osIndex, ⟨above, entry, htail, ?_⟩, fun _ => rfl,
        hfits.running⟩
      simp only [activations, himported, Option.isSome_none, Bool.false_eq_true, if_false]
      simp only [List.length_cons] at hlen
      omega

theorem codeReturn_sound {func returned : Nat} {funcs : List (Nat × Nat)} {frame : InterpFrame}
    {rest : List InterpFrame} (hframes : m.frames = frame :: rest)
    (himported : frame.imported = false) (hhost : frame.inHost = none)
    (hfuncs : frame.funcs = (func, returned) :: funcs) (hfits : FrameFits frame m.ctx)
    (hrest : Nested frame.before rest) :
    Sound m event
      (resume { frame with funcs := funcs } rest (applyPopCall mod func m.ctx) returned) := by
  obtain ⟨above, entry, hstack, hlen⟩ := hfits.callStack
  simp only [activations, himported, hhost, hfuncs, Option.isSome_none, Bool.false_eq_true,
    if_false, List.length_cons] at hlen
  cases above with
  | nil =>
    have hstack' : m.ctx.callStack = ⟨.halt, entry⟩ :: frame.before.callStack := hstack
    refine resume_sound hframes rfl ?_ hrest fun hpc => ?_
    · refine cleanup_eq ?_ ?_ [] ?_
      · simp only [applyPopCall, hstack']
        exact hfits.osIndex
      · simp only [applyPopCall, hstack']
        exact hfits.asIndex
      · simp only [applyPopCall, hstack', List.nil_append]
    · simp only [applyPopCall, hstack'] at hpc
      exact absurd rfl hpc
  | cons top above =>
    have hstack' : m.ctx.callStack = top :: (above ++ ⟨.halt, entry⟩ :: frame.before.callStack) :=
      hstack
    refine resume_sound hframes rfl ?_ hrest fun _ => ?_
    · refine cleanup_eq ?_ ?_ (above ++ [⟨.halt, entry⟩]) ?_
      · simp only [applyPopCall, hstack']
        exact hfits.osIndex
      · simp only [applyPopCall, hstack']
        exact hfits.asIndex
      · simp [applyPopCall, hstack']
    · refine ⟨?_, ?_, ⟨above, entry, ?_, ?_⟩, fun _ => hhost, fun _ => ?_⟩
      · simp only [applyPopCall, hstack']
        exact hfits.asIndex
      · simp only [applyPopCall, hstack']
        exact hfits.osIndex
      · simp only [applyPopCall, hstack']
      · simp only [activations, himported, hhost, Option.isSome_none, Bool.false_eq_true, if_false]
        simp only [List.length_cons] at hlen
        omega
      · rintro rfl
        simp at hlen

/-- A fault in a host function that an `execute` runs directly. -/
def SkipsExecute (m : Interpreter) (event : Event) : Prop :=
  event = .fault ∧ ∃ frame rest, m.frames = frame :: rest ∧ frame.imported = true

/-- Every step but such a fault keeps the invariant and restores. -/
theorem step_sound (h : Nested m.ctx m.frames) (hstep : step mod event m = some o)
    (hskip : ¬ SkipsExecute m event) : Sound m event o := by
  cases step_does hstep with
  | execute host func args _ => exact execute_sound host func args h
  | adjust event ctx hsame hevent =>
    refine running_sound ?_
    cases hframes : m.frames with
    | nil => trivial
    | cons frame rest =>
      rw [hframes] at h
      exact ⟨h.1.adjust hsame, h.2⟩
  | call func callee returned funcs frame rest hframes himported hhost hfuncs =>
    rw [hframes] at h
    exact call_sound hframes himported hhost h.1 h.2
  | hostReturn saved frame rest hframes hhost =>
    rw [hframes] at h
    exact hostReturn_sound hframes hhost h.1 h.2
  | codeReturn func returned funcs frame rest hframes himported hhost hfuncs =>
    rw [hframes] at h
    exact codeReturn_sound hframes himported hhost hfuncs h.1 h.2
  | finish event frame rest hframes _ _ =>
    rw [hframes] at h
    exact finish_sound hframes h.1 h.2
  | unwind frame target rest below hframes himported _ =>
    exact absurd ⟨rfl, frame, rest, hframes, himported⟩ hskip

/-- The `execute` whose handler a fault reaches was called with a shorter call stack. -/
theorem handler_shorter {ctx : InterpContext} {frames below : List InterpFrame}
    {target : InterpFrame} (h : Nested ctx frames)
    (hhandler : handler frames = some (target, below)) :
    target.before.callStack.length < ctx.callStack.length := by
  induction frames generalizing ctx with
  | nil => cases hhandler
  | cons frame rest ih =>
    obtain ⟨above, entry, hstack, -⟩ := h.1.callStack
    have hlen : frame.before.callStack.length < ctx.callStack.length := by
      rw [hstack, List.length_append, List.length_cons]
      omega
    rw [handler] at hhandler
    split at hhandler
    · exact Nat.lt_trans (ih h.2 hhandler) hlen
    · obtain ⟨rfl, -⟩ := Prod.mk.inj (Option.some.inj hhandler)
      exact hlen

/-- A fault that skips an `execute` leaves its call stack behind. -/
theorem skipping_not_restores (h : Nested m.ctx m.frames) (hstep : step mod event m = some o)
    (hskip : SkipsExecute m event) : ¬ Restores m event o := by
  obtain ⟨rfl, frame, rest, hframes, himported⟩ := hskip
  intro hrestores
  simp only [step, hframes, himported, Bool.true_or, if_true] at hstep
  obtain ⟨⟨target, below⟩, hhandler, rfl⟩ := Option.map_eq_some_iff.mp hstep
  have hctx := hrestores.context target.before rfl
  rw [handler, if_pos himported] at hhandler
  rw [hframes] at h
  have hshort := handler_shorter h.2 hhandler
  obtain ⟨above, entry, hstack, -⟩ := h.1.callStack
  have hlen := congrArg (fun ctx => ctx.callStack.length) hctx
  simp only [finish, cleanup, List.length_drop, h.1.asIndex, hstack, List.length_append,
    List.length_cons] at hlen
  omega

end Interpreter

end EosVm
