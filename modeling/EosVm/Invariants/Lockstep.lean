import EosVm.Invariants.InterpFrames
import EosVm.Invariants.JitFrames

/-!
# Both backends on the same events

The interpreter and the machine code run in lockstep: each event happens in both. `exit` ends the
host function in both; the interpreter only sets a flag, and the host function returns. The control
of the two machines stays the same, so a call in one has its counterpart in the other.
-/

set_option autoImplicit false

namespace EosVm

open Lib

namespace Lockstep

/-- The two machines. -/
structure Pair where
  interp : Interpreter
  jit : Jit

/-- A step of both. -/
structure PairStep where
  interp : Interpreter.Step
  jit : Jit.Step

def PairStep.next (s : PairStep) : Pair := ⟨s.interp.next, s.jit.next⟩

/-- An event in the interpreter. -/
def interpStep (mod : Module) (event : Event) (m : Interpreter) : Option Interpreter.Step :=
  match event with
  | .exit => (Interpreter.step mod .exit m).bind fun o => Interpreter.step mod .ret o.next
  | event => Interpreter.step mod event m

/-- An event in both. -/
def step (mod : Module) (code : JitModule) (event : Event) (p : Pair) : Option PairStep := do
  let interp ← interpStep mod event p.interp
  let jit ← Jit.step code event p.jit
  some ⟨interp, jit⟩

/-- The two backends have compiled the same module: the charge of a function is its frame size. -/
structure SameProgram (mod : Module) (code : JitModule) : Prop where
  imported : ∀ func, mod.isImported func = code.mod.isImported func
  bytes : mod.stackLimitIsBytes = code.mod.stackLimitIsBytes
  frameSize : ∀ func, mod.frameSize func =
    if code.mod.stackLimitIsBytes then
      if code.mod.isImported func then 0 else code.usage func
    else 1

/-- The frames run the same functions. -/
structure SameFrame (mod : Module) (fi : InterpFrame) (fj : JitFrame) : Prop where
  imported : fi.imported = fj.imported
  funcs : fi.funcs.map Prod.fst = fj.funcs.map Prod.fst
  defined : ∀ f ∈ fi.funcs, mod.isImported f.1 = false
  inHost : fi.inHost.isSome = fj.inHost.isSome
  direct : fi.imported = true → fi.inHost = none
  running : fi.imported = false → fi.funcs ≠ []

/-- The machines are at the same point. -/
def SameControl (mod : Module) : List InterpFrame → List JitFrame → Prop
  | [], [] => True
  | fi :: resti, fj :: restj => SameFrame mod fi fj ∧ SameControl mod resti restj
  | _, _ => False

/-- The code of a frame is not at `&_halt`, and returns to code everywhere above the frame that
`execute` has pushed. -/
structure LiveFrame (frame : InterpFrame) (ctx : InterpContext) : Prop where
  pc : frame.imported = false → ctx.state.pc ≠ .halt
  callStack : frame.imported = false → ∃ host above entry,
    ctx.callStack = host ++ above ++ ⟨.halt, entry⟩ :: frame.before.callStack ∧
    host.length = (if frame.inHost.isSome then 1 else 0) ∧
    above.length + 1 = frame.funcs.length ∧ ∀ af ∈ above, af.pc ≠ .halt

/-- Every frame is live in the context in which the next one was entered. -/
def Live : InterpContext → List InterpFrame → Prop
  | _, [] => True
  | ctx, frame :: rest => LiveFrame frame ctx ∧ Live frame.before rest

/-- What a step of both can do. -/
inductive Joint (mod : Module) (code : JitModule) (p : Pair) : Event → PairStep → Prop where
  | execute (host func : Nat) (args : Option Nat) (hhost : Interpreter.HostRuns p.interp.frames) :
      Joint mod code p (.execute host func args)
        ⟨Interpreter.execute mod host func args p.interp, Jit.execute code host func args p.jit⟩
  | setLimit (limit : Nat) (hhost : Interpreter.HostRuns p.interp.frames) :
      Joint mod code p (.setLimit limit)
        ⟨{ next := { p.interp with ctx := { p.interp.ctx with remaining := limit % 2 ^ 32 } } },
          { next := { p.jit with ctx := { p.jit.ctx with remaining := limit % 2 ^ 32 } } }⟩
  | work (operands offset : Nat) (ctxi : InterpContext) (ctxj : JitContext)
      (hstacks : Interpreter.SameStacks p.interp.ctx ctxi)
      (hi : ctxi.remaining = p.interp.ctx.remaining)
      (hpc : p.interp.ctx.state.pc ≠ .halt → ctxi.state.pc ≠ .halt)
      (hj : ctxj.remaining = p.jit.ctx.remaining) :
      Joint mod code p (.work operands offset)
        ⟨{ next := { p.interp with ctx := ctxi } }, { next := { p.jit with ctx := ctxj } }⟩
  | call (callee : Nat) (fi : InterpFrame) (fj : JitFrame) (resti : List InterpFrame)
      (restj : List JitFrame) (hi : p.interp.frames = fi :: resti)
      (hj : p.jit.frames = fj :: restj) (himported : fi.imported = false)
      (hhosti : fi.inHost = none) (hhostj : fj.inHost = none) :
      Joint mod code p (.call callee)
        ⟨Interpreter.call mod callee fi resti p.interp.ctx,
          Jit.call code callee fj restj p.jit.ctx⟩
  | badCallIndirect (fi : InterpFrame) (fj : JitFrame) (resti : List InterpFrame)
      (restj : List JitFrame) (hi : p.interp.frames = fi :: resti)
      (hj : p.jit.frames = fj :: restj) (himported : fi.imported = false)
      (hhosti : fi.inHost = none) (hhostj : fj.inHost = none) :
      Joint mod code p .badCallIndirect
        ⟨Interpreter.finish fi resti p.interp.ctx, Jit.badCallIndirect code fj restj p.jit.ctx⟩
  | hostReturn (saved savedj returned : Nat) (fi : InterpFrame) (fj : JitFrame)
      (resti : List InterpFrame) (restj : List JitFrame) (hi : p.interp.frames = fi :: resti)
      (hj : p.jit.frames = fj :: restj) (hhosti : fi.inHost = some saved)
      (hhostj : fj.inHost = some (savedj, returned)) :
      Joint mod code p .ret
        ⟨Interpreter.hostReturn saved fi resti p.interp.ctx,
          Jit.hostReturn code savedj returned fj restj p.jit.ctx⟩
  | codeReturn (func ci cj : Nat) (funcsi funcsj : List (Nat × Nat)) (fi : InterpFrame)
      (fj : JitFrame) (resti : List InterpFrame) (restj : List JitFrame)
      (hi : p.interp.frames = fi :: resti) (hj : p.jit.frames = fj :: restj)
      (himported : fi.imported = false) (hhosti : fi.inHost = none) (hhostj : fj.inHost = none)
      (hfuncsi : fi.funcs = (func, ci) :: funcsi) (hfuncsj : fj.funcs = (func, cj) :: funcsj) :
      Joint mod code p .ret
        ⟨Interpreter.resume { fi with funcs := funcsi } resti
            (Interpreter.applyPopCall mod func p.interp.ctx) ci,
          Jit.codeReturn code func cj funcsj fj restj p.jit.ctx⟩
  | ends (event : Event) (fi : InterpFrame) (fj : JitFrame) (resti : List InterpFrame)
      (restj : List JitFrame) (ctx : InterpContext) (hi : p.interp.frames = fi :: resti)
      (hj : p.jit.frames = fj :: restj) (hclean : Interpreter.cleanup fi.before ctx = fi.before) :
      Joint mod code p event
        ⟨Interpreter.finish fi resti ctx, Jit.finish fj restj (Jit.unwindHost fj p.jit.ctx)⟩
  | hostFaults (o : PairStep) (hhost : Interpreter.HostRuns p.interp.frames) :
      Joint mod code p .fault o

variable {mod : Module} {code : JitModule} {p : Pair} {event : Event} {o : PairStep}

theorem step_eq_some :
    step mod code event p = some o ↔
      interpStep mod event p.interp = some o.interp ∧ Jit.step code event p.jit = some o.jit := by
  simp only [step, Option.bind_eq_bind, Option.bind_eq_some_iff, Option.some.injEq]
  constructor
  · rintro ⟨i, hi, j, hj, rfl⟩
    exact ⟨hi, hj⟩
  · rintro ⟨hi, hj⟩
    exact ⟨_, hi, _, hj, rfl⟩

/-- `exit` in a host function that the code has called ends the `execute`. -/
theorem exit_called {m : Interpreter} {frame : InterpFrame} {rest : List InterpFrame} {saved : Nat}
    (hframes : m.frames = frame :: rest) (hhost : frame.inHost = some saved)
    (hfits : Interpreter.FrameFits frame m.ctx) :
    ∃ ctx, interpStep mod .exit m = some (Interpreter.finish frame rest ctx) ∧
      Interpreter.cleanup frame.before ctx = frame.before := by
  have himported : frame.imported = false := by
    cases hi : frame.imported with
    | false => rfl
    | true =>
      rw [hfits.shape hi] at hhost
      cases hhost
  have hfuncs := List.length_pos_iff.mpr (hfits.running himported)
  obtain ⟨above, entry, hstack, hlen⟩ := hfits.callStack
  simp only [Interpreter.activations, himported, hhost, Option.isSome_some, Bool.false_eq_true,
    if_false, if_true] at hlen
  cases above with
  | nil =>
    simp only [List.length_nil] at hlen
    omega
  | cons top above =>
    refine ⟨{ m.ctx with
      callStack := m.ctx.callStack.tail, remaining := saved
      state := { m.ctx.state with pc := .halt, exiting := true } }, ?_, ?_⟩
    · simp only [interpStep, Interpreter.step, hframes, hhost, Option.isSome_some, Bool.or_true,
        if_true, Option.bind_some, Interpreter.hostReturn, Interpreter.resume]
      rfl
    · refine Interpreter.cleanup_eq hfits.osIndex hfits.asIndex (above ++ [⟨.halt, entry⟩]) ?_
      simp [hstack]

theorem exit_direct {m : Interpreter} {frame : InterpFrame} {rest : List InterpFrame}
    (hframes : m.frames = frame :: rest) (himported : frame.imported = true)
    (hhost : frame.inHost = none) (hfits : Interpreter.FrameFits frame m.ctx) :
    ∃ ctx, interpStep mod .exit m = some (Interpreter.finish frame rest ctx) ∧
      Interpreter.cleanup frame.before ctx = frame.before := by
  obtain ⟨above, entry, hstack, -⟩ := hfits.callStack
  refine ⟨{ m.ctx with state := { m.ctx.state with pc := .halt, exiting := true } }, ?_, ?_⟩
  · simp only [interpStep, Interpreter.step, hframes, himported, hhost, Bool.true_or, if_true,
      Option.bind_some]
  · refine Interpreter.cleanup_eq hfits.osIndex hfits.asIndex (above ++ [⟨.halt, entry⟩]) ?_
    simp [hstack]

theorem SameFrame.inHost_none {fi : InterpFrame} {fj : JitFrame} (h : SameFrame mod fi fj)
    (hnone : fi.inHost = none) : fj.inHost = none := by
  have hsame := h.inHost
  rw [hnone] at hsame
  cases hj : fj.inHost with
  | none => rfl
  | some pair =>
    rw [hj] at hsame
    cases hsame

theorem SameFrame.inHost_some {fi : InterpFrame} {fj : JitFrame} (h : SameFrame mod fi fj)
    {saved : Nat}
    (hsome : fi.inHost = some saved) : ∃ pair, fj.inHost = some pair := by
  have hsame := h.inHost
  rw [hsome] at hsame
  exact Option.isSome_iff_exists.mp hsame.symm

/-- Both machines do the same while a host function runs. -/
theorem joint_host {ctxi : InterpContext} {ctxj : JitContext} {fi : InterpFrame} {fj : JitFrame}
    {resti : List InterpFrame} {restj : List JitFrame} {oi : Interpreter.Step} {oj : Jit.Step}
    (hframe : SameFrame mod fi fj) (hfits : Interpreter.FrameFits fi ctxi)
    (hhosti : (fi.imported || fi.inHost.isSome) = true)
    (hhostj : (fj.imported || fj.inHost.isSome) = true)
    (hi : interpStep mod event ⟨ctxi, fi :: resti⟩ = some oi)
    (hj : Jit.step code event ⟨ctxj, fj :: restj⟩ = some oj) :
    Joint mod code ⟨⟨ctxi, fi :: resti⟩, ⟨ctxj, fj :: restj⟩⟩ event ⟨oi, oj⟩ := by
  have hruns : Interpreter.HostRuns (fi :: resti) := by simpa [Interpreter.HostRuns] using hhosti
  cases event with
  | execute host func args =>
    simp only [interpStep, Interpreter.step, Jit.step, hhosti, hhostj, if_true,
      Option.some.injEq] at hi hj
    rw [← hi, ← hj]
    exact .execute host func args hruns
  | work operands offset =>
    simp only [interpStep, Interpreter.step, Jit.step, hhosti, hhostj, if_true,
      Option.some.injEq] at hi hj
    rw [← hi, ← hj]
    exact .work operands offset _ _ ⟨rfl, rfl, rfl⟩ rfl (fun hpc => hpc) rfl
  | call callee => simp [interpStep, Interpreter.step, hhosti] at hi
  | badCallIndirect => simp [interpStep, Interpreter.step, hhosti] at hi
  | ret =>
    simp only [interpStep, Interpreter.step, Jit.step, hhosti, hhostj, if_true] at hi hj
    cases hini : fi.inHost with
    | none =>
      have hinj := hframe.inHost_none hini
      simp only [hini, hinj, Option.some.injEq] at hi hj
      have hunwind : Jit.unwindHost fj ctxj = ctxj := by simp only [Jit.unwindHost, hinj]
      rw [← hi, ← hj]
      have hends : Joint mod code ⟨⟨ctxi, fi :: resti⟩, ⟨ctxj, fj :: restj⟩⟩ .ret
          ⟨Interpreter.finish fi resti ctxi, Jit.finish fj restj (Jit.unwindHost fj ctxj)⟩ :=
        .ends .ret fi fj resti restj ctxi rfl rfl hfits.cleanup
      rw [hunwind] at hends
      exact hends
    | some saved =>
      obtain ⟨⟨savedj, returned⟩, hinj⟩ := hframe.inHost_some hini
      simp only [hini, hinj, Option.some.injEq] at hi hj
      rw [← hi, ← hj]
      exact .hostReturn saved savedj returned fi fj resti restj rfl rfl hini hinj
  | throw =>
    simp only [interpStep, Interpreter.step, Jit.step, hhosti, hhostj, if_true,
      Option.some.injEq] at hi hj
    rw [← hi, ← hj]
    exact .ends .throw fi fj resti restj ctxi rfl rfl hfits.cleanup
  | exit =>
    simp only [Jit.step, hhostj, if_true, Option.some.injEq] at hj
    rw [← hj]
    have hexit : ∃ ctx, interpStep mod .exit ⟨ctxi, fi :: resti⟩ =
        some (Interpreter.finish fi resti ctx) ∧
          Interpreter.cleanup fi.before ctx = fi.before := by
      cases hini : fi.inHost with
      | none =>
        rw [hini, Option.isSome_none, Bool.or_false] at hhosti
        exact exit_direct rfl hhosti hini hfits
      | some saved => exact exit_called rfl hini hfits
    obtain ⟨ctx, hstep, hclean⟩ := hexit
    rw [hstep, Option.some.injEq] at hi
    rw [← hi]
    exact .ends .exit fi fj resti restj ctx rfl rfl hclean
  | fault => exact .hostFaults _ hruns
  | setLimit limit =>
    simp only [interpStep, Interpreter.step, Jit.step, hhosti, hhostj, if_true,
      Option.some.injEq] at hi hj
    rw [← hi, ← hj]
    exact .setLimit limit hruns

/-- Both machines do the same while code runs. -/
theorem joint_code {ctxi : InterpContext} {ctxj : JitContext} {fi : InterpFrame} {fj : JitFrame}
    {resti : List InterpFrame} {restj : List JitFrame} {oi : Interpreter.Step} {oj : Jit.Step}
    (hframe : SameFrame mod fi fj) (hfits : Interpreter.FrameFits fi ctxi)
    (hhosti : (fi.imported || fi.inHost.isSome) = false)
    (hhostj : (fj.imported || fj.inHost.isSome) = false)
    (hi : interpStep mod event ⟨ctxi, fi :: resti⟩ = some oi)
    (hj : Jit.step code event ⟨ctxj, fj :: restj⟩ = some oj) :
    Joint mod code ⟨⟨ctxi, fi :: resti⟩, ⟨ctxj, fj :: restj⟩⟩ event ⟨oi, oj⟩ := by
  obtain ⟨himported, hini⟩ := Bool.or_eq_false_iff.mp hhosti
  have hini : fi.inHost = none := Option.isSome_eq_false_iff.mp hini |> Option.isNone_iff_eq_none.mp
  have hinj := hframe.inHost_none hini
  have hunwind : Jit.unwindHost fj ctxj = ctxj := by simp only [Jit.unwindHost, hinj]
  have hends : ∀ e, Joint mod code ⟨⟨ctxi, fi :: resti⟩, ⟨ctxj, fj :: restj⟩⟩ e
      ⟨Interpreter.finish fi resti ctxi, Jit.finish fj restj ctxj⟩ := by
    intro e
    have hjoint : Joint mod code ⟨⟨ctxi, fi :: resti⟩, ⟨ctxj, fj :: restj⟩⟩ e
        ⟨Interpreter.finish fi resti ctxi, Jit.finish fj restj (Jit.unwindHost fj ctxj)⟩ :=
      .ends e fi fj resti restj ctxi rfl rfl hfits.cleanup
    rw [hunwind] at hjoint
    exact hjoint
  -- both run the same function
  cases hfuncsi : fi.funcs with
  | nil => exact absurd hfuncsi (hframe.running himported)
  | cons headi funcsi =>
    have hsame := hframe.funcs
    cases hfuncsj : fj.funcs with
    | nil => simp [hfuncsi, hfuncsj] at hsame
    | cons headj funcsj =>
      obtain ⟨func, ci⟩ := headi
      obtain ⟨funcj, cj⟩ := headj
      simp only [hfuncsi, hfuncsj, List.map_cons, List.cons.injEq] at hsame
      obtain ⟨rfl, -⟩ := hsame
      cases event <;> simp only [interpStep, Interpreter.step, Jit.step, hhosti, hhostj, hfuncsi,
        hfuncsj, Bool.false_eq_true, if_false, Option.some.injEq, reduceCtorEq,
        Option.bind_none] at hi hj
      case work operands offset =>
        rw [← hi, ← hj]
        exact .work operands offset _ _ ⟨rfl, rfl, rfl⟩ rfl (by simp) rfl
      case call callee =>
        rw [← hi, ← hj]
        exact .call callee fi fj resti restj rfl rfl himported hini hinj
      case badCallIndirect =>
        rw [← hi, ← hj]
        exact .badCallIndirect fi fj resti restj rfl rfl himported hini hinj
      case ret =>
        rw [← hi, ← hj]
        exact .codeReturn func ci cj funcsi funcsj fi fj resti restj rfl rfl himported hini hinj
          hfuncsi hfuncsj
      case throw =>
        rw [← hi, ← hj]
        exact hends _
      case fault =>
        rw [← hi, ← hj]
        exact hends _

/-- Both machines do the same. -/
theorem step_joint (hnested : Interpreter.Nested p.interp.ctx p.interp.frames)
    (hcontrol : SameControl mod p.interp.frames p.jit.frames) (h : step mod code event p = some o) :
    Joint mod code p event o := by
  obtain ⟨⟨ctxi, framesi⟩, ⟨ctxj, framesj⟩⟩ := p
  obtain ⟨oi, oj⟩ := o
  obtain ⟨hi, hj⟩ := step_eq_some.mp h
  simp only at hnested hcontrol hi hj
  cases framesi with
  | nil =>
    cases framesj with
    | cons fj restj => cases hcontrol
    | nil =>
      cases event <;> simp only [interpStep, Interpreter.step, Jit.step, Option.some.injEq,
        reduceCtorEq, Option.bind_none] at hi hj
      · rw [← hi, ← hj]
        exact .execute _ _ _ trivial
      · rw [← hi, ← hj]
        exact .setLimit _ trivial
  | cons fi resti =>
    cases framesj with
    | nil => cases hcontrol
    | cons fj restj =>
      obtain ⟨hframe, hrest⟩ := hcontrol
      obtain ⟨hfits, -⟩ := hnested
      have hruns : (fj.imported || fj.inHost.isSome) = (fi.imported || fi.inHost.isSome) := by
        rw [hframe.imported, hframe.inHost]
      cases hhost : fi.imported || fi.inHost.isSome with
      | true => exact joint_host hframe hfits hhost (hruns.trans hhost) hi hj
      | false => exact joint_code hframe hfits hhost (hruns.trans hhost) hi hj

/-- The counters that a host function sees. With a limit in bytes they are equal. -/
def HostSync (bytes : Bool) (ri rj : Nat) : Prop :=
  rj < 2 ^ 32 ∧ if bytes then rj = ri else ri ≤ rj

/-- The counters of running code, in an `execute` that was called with the counters `bi` and `bj`.
With a limit on the depth the interpreter has charged the entry and the machine code has not. -/
def CodeSync (bytes : Bool) (bi bj ri ebx : Nat) : Prop :=
  if bytes then ebx = ri else ebx + bi = ri + 1 + bj

theorem HostSync.le {bytes : Bool} {ri rj : Nat} (h : HostSync bytes ri rj) : ri ≤ rj := by
  obtain ⟨-, h⟩ := h
  split at h
  · exact Nat.le_of_eq h.symm
  · exact h

/-- The counter before each call that runs, in the interpreter. -/
def Charged (size : Nat → Nat) : Nat → List (Nat × Nat) → Prop
  | _, [] => True
  | r, (func, c) :: rest => r + size func = c ∧ c < 2 ^ 32 ∧ Charged size c rest

/-- The counter before each call that runs, in the machine code. -/
def ChargedJit (bytes : Bool) (size : Nat → Nat) : Nat → List (Nat × Nat) → Prop
  | _, [] => True
  | r, (func, c) :: rest =>
    r + (if rest = [] ∧ bytes = false then 0 else size func) = c ∧ c < 2 ^ 32 ∧
      ChargedJit bytes size c rest

/-- The counters of a frame. -/
structure FrameCounters (bytes : Bool) (size : Nat → Nat) (ri rj : Nat) (fi : InterpFrame)
    (fj : JitFrame) : Prop where
  entry : fi.before.remaining ≤ fj.before.remaining
  direct : fi.imported = true → rj = fj.before.remaining ∧ HostSync bytes ri rj
  code : fi.imported = false → fi.inHost = none →
    rj = fj.before.remaining ∧
      CodeSync bytes fi.before.remaining fj.before.remaining ri fj.ebx ∧
      Charged size ri fi.funcs ∧ ChargedJit bytes size fj.ebx fj.funcs
  host : ∀ saved savedj c, fi.inHost = some saved → fj.inHost = some (savedj, c) →
    savedj = fj.before.remaining ∧ HostSync bytes ri rj ∧
      CodeSync bytes fi.before.remaining fj.before.remaining saved c ∧
      Charged size saved fi.funcs ∧ ChargedJit bytes size c fj.funcs ∧
      c = fj.ebx + if bytes then 0 else 1

/-- The counters of all frames. -/
def Counters (bytes : Bool) (size : Nat → Nat) :
    Nat → Nat → List InterpFrame → List JitFrame → Prop
  | ri, rj, [], [] => rj = ri ∧ rj < 2 ^ 32
  | ri, rj, fi :: resti, fj :: restj =>
    FrameCounters bytes size ri rj fi fj ∧
      Counters bytes size fi.before.remaining fj.before.remaining resti restj
  | _, _, _, _ => False

/-- The machines are in step. -/
structure Synced (mod : Module) (p : Pair) : Prop where
  nested : Interpreter.Nested p.interp.ctx p.interp.frames
  control : SameControl mod p.interp.frames p.jit.frames
  live : Live p.interp.ctx p.interp.frames
  counters : Counters mod.stackLimitIsBytes mod.frameSize p.interp.ctx.remaining
    p.jit.ctx.remaining p.interp.frames p.jit.frames

/-- The counter of the machine code: the register, while code runs. -/
def jitCounter (m : Jit) : Nat :=
  match m.frames with
  | frame :: _ => if frame.imported || frame.inHost.isSome then m.ctx.remaining else frame.ebx
  | [] => m.ctx.remaining

/-- Both overflow or none does, and whatever returns has restored the counters. -/
structure Agrees (o : PairStep) : Prop where
  overflow : o.interp.overflow = o.jit.overflow
  interpReturns : ∀ c, o.interp.returned = some c → o.interp.next.ctx.remaining = c
  jitReturns : ∀ c, o.jit.returned = some c → jitCounter o.jit.next = c
  interpEnds : ∀ before, o.interp.ended = some before →
    o.interp.next.ctx.remaining = before.remaining
  jitEnds : ∀ before, o.jit.ended = some before → o.jit.next.ctx.remaining = before.remaining

/-- A step that leaves the machines in step. -/
structure Sound (mod : Module) (o : PairStep) : Prop where
  synced : Synced mod o.next
  agrees : Agrees o

/-- A fault in a host function. -/
def HostFaults (p : Pair) (event : Event) : Prop :=
  event = .fault ∧ Interpreter.HostRuns p.interp.frames

/-- A host function that an `execute` runs directly changes the limit. -/
def DirectLimit (p : Pair) (event : Event) : Prop :=
  ∃ limit, event = .setLimit limit ∧ limit % 2 ^ 32 ≠ p.jit.ctx.remaining ∧
    ∃ frame rest, p.interp.frames = frame :: rest ∧ frame.imported = true

/-- The interpreter has no depth left for an `execute`, or for a call in an `execute` at whose start
the counters differed. They do if a host function that code has called calls it. Or the machine code
has none left for a `call_indirect` that is going to be rejected. -/
def Starved (mod : Module) (p : Pair) (event : Event) : Prop :=
  mod.stackLimitIsBytes = false ∧
    (p.interp.ctx.remaining = 0 ∧
      ((∃ host func n, event = .execute host func (some n)) ∨
        (∃ func, event = .call func) ∧ ∃ fi resti fj restj, p.interp.frames = fi :: resti ∧
          p.jit.frames = fj :: restj ∧ fi.before.remaining ≠ fj.before.remaining) ∨
    event = .badCallIndirect ∧ ∃ fj restj, p.jit.frames = fj :: restj ∧ fj.ebx = 1)

/-- The `execute` of a frame ends in both. -/
theorem ends_sound {fi : InterpFrame} {fj : JitFrame} {resti : List InterpFrame}
    {restj : List JitFrame} (h : Synced mod p) (hi : p.interp.frames = fi :: resti)
    (hj : p.jit.frames = fj :: restj) (hni : o.interp.next = ⟨fi.before, resti⟩)
    (hnj : o.jit.next.frames = restj) (hrj : o.jit.next.ctx.remaining = fj.before.remaining)
    (hoverflow : o.interp.overflow = o.jit.overflow) (hreti : o.interp.returned = none)
    (hretj : o.jit.returned = none) (hendi : o.interp.ended = some fi.before)
    (hendj : o.jit.ended = some fj.before) : Sound mod o := by
  obtain ⟨hnested, hcontrol, hlive, hcounters⟩ := h
  rw [hi] at hnested hlive
  rw [hi, hj] at hcontrol hcounters
  refine ⟨⟨?_, ?_, ?_, ?_⟩, ⟨hoverflow, ?_, ?_, ?_, ?_⟩⟩
  · simp only [PairStep.next, hni]
    exact hnested.2
  · simp only [PairStep.next, hni, hnj]
    exact hcontrol.2
  · simp only [PairStep.next, hni]
    exact hlive.2
  · simp only [PairStep.next, hni, hnj, hrj]
    exact hcounters.2
  · intro c hc
    rw [hreti] at hc
    cases hc
  · intro c hc
    rw [hretj] at hc
    cases hc
  · intro before hbefore
    rw [hendi, Option.some.injEq] at hbefore
    rw [hni, ← hbefore]
  · intro before hbefore
    rw [hendj, Option.some.injEq] at hbefore
    rw [hrj, ← hbefore]

/-- An `execute` that ends before anything runs in it. -/
theorem early_sound (h : Synced mod p) (hni : o.interp.next = p.interp)
    (hnj : o.jit.next.frames = p.jit.frames)
    (hrj : o.jit.next.ctx.remaining = p.jit.ctx.remaining)
    (hoverflow : o.interp.overflow = o.jit.overflow) (hreti : o.interp.returned = none)
    (hretj : o.jit.returned = none) (hendi : o.interp.ended = some p.interp.ctx)
    (hendj : o.jit.ended = some p.jit.ctx) : Sound mod o := by
  refine ⟨⟨?_, ?_, ?_, ?_⟩, ⟨hoverflow, ?_, ?_, ?_, ?_⟩⟩
  · simp only [PairStep.next, hni]
    exact h.nested
  · simp only [PairStep.next, hni, hnj]
    exact h.control
  · simp only [PairStep.next, hni]
    exact h.live
  · simp only [PairStep.next, hni, hnj, hrj]
    exact h.counters
  · intro c hc
    rw [hreti] at hc
    cases hc
  · intro c hc
    rw [hretj] at hc
    cases hc
  · intro before hbefore
    rw [hendi, Option.some.injEq] at hbefore
    rw [hni, ← hbefore]
  · intro before hbefore
    rw [hendj, Option.some.injEq] at hbefore
    rw [hrj, ← hbefore]

/-- Nothing ends, and no call returns. -/
theorem running_sound {i : Interpreter} {j : Jit} (h : Synced mod ⟨i, j⟩) :
    Sound mod ⟨{ next := i }, { next := j }⟩ :=
  ⟨h, ⟨rfl, by rintro c ⟨⟩, by rintro c ⟨⟩, by rintro c ⟨⟩, by rintro c ⟨⟩⟩⟩

/-- The counters that a running host function sees. -/
theorem Synced.hostSync (h : Synced mod p) (hhost : Interpreter.HostRuns p.interp.frames) :
    HostSync mod.stackLimitIsBytes p.interp.ctx.remaining p.jit.ctx.remaining := by
  obtain ⟨⟨ctxi, framesi⟩, ⟨ctxj, framesj⟩⟩ := p
  obtain ⟨-, hcontrol, -, hcounters⟩ := h
  simp only at hcontrol hcounters hhost ⊢
  cases framesi with
  | nil =>
    cases framesj with
    | cons fj restj => cases hcontrol
    | nil =>
      obtain ⟨heq, hlt⟩ := hcounters
      refine ⟨hlt, ?_⟩
      split
      · exact heq
      · omega
  | cons fi resti =>
    cases framesj with
    | nil => cases hcontrol
    | cons fj restj =>
      cases himported : fi.imported with
      | true => exact (hcounters.1.direct himported).2
      | false =>
        have hsome : fi.inHost.isSome = true := by
          rcases hhost with htrue | hsome
          · rw [himported] at htrue
            cases htrue
          · exact hsome
        obtain ⟨saved, hsaved⟩ := Option.isSome_iff_exists.mp hsome
        obtain ⟨⟨savedj, c⟩, hsavedj⟩ := hcontrol.1.inHost_some hsaved
        exact (hcounters.1.host saved savedj c hsaved hsavedj).2.1

/-- The frame that both push for an imported function. -/
theorem execute_direct (h : Synced mod p) (hprog : SameProgram mod code) (host func n : Nat)
    (hhost : Interpreter.HostRuns p.interp.frames) (himported : mod.isImported func = true)
    (hle : mod.frameSize func ≤ p.interp.ctx.remaining) :
    Sound mod ⟨Interpreter.execute mod host func (some n) p.interp,
      Jit.execute code host func (some n) p.jit⟩ := by
  have hnested : Interpreter.Nested (Interpreter.execute mod host func (some n) p.interp).next.ctx
      (Interpreter.execute mod host func (some n) p.interp).next.frames :=
    (Interpreter.execute_sound host func (some n) h.nested).nested
  have hle' := (h.hostSync hhost).le
  obtain ⟨hbound, hsync⟩ := h.hostSync hhost
  have hsize := hprog.frameSize func
  have himportedj : code.mod.isImported func = true := (hprog.imported func).symm.trans himported
  simp only [Interpreter.execute, Interpreter.pushCall, if_pos hle, himported, if_true] at hnested ⊢
  simp only [Jit.execute, himportedj, if_true]
  refine running_sound ⟨hnested, ⟨⟨rfl, rfl, by simp, rfl, fun _ => rfl, ?_⟩, h.control⟩,
    ⟨⟨?_, ?_⟩, h.live⟩, ⟨⟨hle', fun _ => ⟨rfl, hbound, ?_⟩, ?_, ?_⟩, h.counters⟩⟩
  · intro hfalse
    cases hfalse
  · intro hfalse
    cases hfalse
  · intro hfalse
    cases hfalse
  · rw [himportedj, if_pos rfl, ← hprog.bytes] at hsize
    simp only
    split
    next hbytes =>
      rw [if_pos hbytes] at hsync hsize
      omega
    next hbytes =>
      rw [if_neg hbytes] at hsync hsize
      omega
  · intro hfalse
    cases hfalse
  · rintro saved savedj c ⟨⟩

/-- Both push the frame of a defined function. -/
theorem execute_enters (h : Synced mod p) (host func n ebx : Nat)
    (himported : mod.isImported func = false) (himportedj : code.mod.isImported func = false)
    (hle : mod.frameSize func ≤ p.interp.ctx.remaining)
    (hlimit : Jit.checkStackLimit code func p.jit.ctx.remaining = some ebx)
    (hbound : p.interp.ctx.remaining ≤ p.jit.ctx.remaining ∧ p.jit.ctx.remaining < 2 ^ 32)
    (hsync : CodeSync mod.stackLimitIsBytes p.interp.ctx.remaining p.jit.ctx.remaining
      (p.interp.ctx.remaining - mod.frameSize func) ebx)
    (hcharge : ebx + (if mod.stackLimitIsBytes = false then 0 else mod.frameSize func) =
      p.jit.ctx.remaining) :
    Sound mod ⟨Interpreter.execute mod host func (some n) p.interp,
      Jit.execute code host func (some n) p.jit⟩ := by
  have hnested : Interpreter.Nested (Interpreter.execute mod host func (some n) p.interp).next.ctx
      (Interpreter.execute mod host func (some n) p.interp).next.frames :=
    (Interpreter.execute_sound host func (some n) h.nested).nested
  simp only [Interpreter.execute, Interpreter.pushCall, if_pos hle, himported, Bool.false_eq_true,
    if_false] at hnested ⊢
  simp only [Jit.execute, himportedj, Bool.false_eq_true, if_false, hlimit]
  refine running_sound ⟨hnested, ⟨⟨rfl, rfl, by simpa using himported, rfl, fun _ => rfl, by simp⟩,
    h.control⟩, ⟨⟨fun _ => by simp, fun _ => ⟨[], [], _, rfl, rfl, rfl, by simp⟩⟩, h.live⟩,
    ⟨⟨hbound.1, ?_, fun _ _ => ⟨rfl, hsync, ⟨?_, Nat.lt_of_le_of_lt hbound.1 hbound.2, trivial⟩,
      ⟨?_, hbound.2, trivial⟩⟩, ?_⟩, h.counters⟩⟩
  · intro hfalse
    cases hfalse
  · simp only
    omega
  · simp only [true_and]
    exact hcharge
  · rintro saved savedj c ⟨⟩

/-- `cleanup` right after `execute` has set `_state`. -/
theorem cleanup_entered {m : Interpreter} {ctx : InterpContext}
    (hos : ctx.state.osIndex = m.ctx.os) (has : ctx.state.asIndex = m.ctx.callStack.length)
    (hstack : ctx.callStack = m.ctx.callStack) :
    (⟨Interpreter.cleanup m.ctx ctx, m.frames⟩ : Interpreter) = m := by
  rw [Interpreter.cleanup_eq hos has [] hstack]

theorem execute_code (h : Synced mod p) (hprog : SameProgram mod code) (host func n : Nat)
    (hhost : Interpreter.HostRuns p.interp.frames) (himported : mod.isImported func = false)
    (hstarved : ¬ Starved mod p (.execute host func (some n))) :
    Sound mod ⟨Interpreter.execute mod host func (some n) p.interp,
      Jit.execute code host func (some n) p.jit⟩ := by
  have hle' := (h.hostSync hhost).le
  obtain ⟨hbound, hsync⟩ := h.hostSync hhost
  have hsize := hprog.frameSize func
  have himportedj : code.mod.isImported func = false := (hprog.imported func).symm.trans himported
  rw [himportedj, ← hprog.bytes] at hsize
  cases hbytes : mod.stackLimitIsBytes with
  | true =>
    have hbytesj := hprog.bytes.symm.trans hbytes
    simp only [hbytes, if_true, Bool.false_eq_true, if_false] at hsync hsize
    by_cases hle : mod.frameSize func ≤ p.interp.ctx.remaining
    · refine execute_enters h host func n (p.jit.ctx.remaining - code.usage func) himported
        himportedj hle ?_ ⟨hle', hbound⟩ ?_ ?_
      · simp only [Jit.checkStackLimit, hbytesj, if_true]
        exact if_neg (by omega)
      · simp only [CodeSync, hbytes, if_true]
        omega
      · simp only [hbytes, Bool.true_eq_false, if_false]
        omega
    · have hlt : p.jit.ctx.remaining < code.usage func := by omega
      simp only [Interpreter.execute, Interpreter.pushCall, if_neg hle]
      simp only [Jit.execute, himportedj, Bool.false_eq_true, if_false, Jit.checkStackLimit,
        hbytesj, if_true, if_pos hlt]
      exact early_sound h (cleanup_entered rfl rfl rfl) rfl rfl rfl rfl rfl rfl rfl
  | false =>
    have hbytesj := hprog.bytes.symm.trans hbytes
    simp only [hbytes, Bool.false_eq_true, if_false] at hsync hsize
    have hpos : p.interp.ctx.remaining ≠ 0 := by
      intro hzero
      exact hstarved ⟨hbytes, .inl ⟨hzero, .inl ⟨host, func, n, rfl⟩⟩⟩
    refine execute_enters h host func n p.jit.ctx.remaining himported himportedj (by omega) ?_
      ⟨hle', hbound⟩ ?_ ?_
    · simp only [Jit.checkStackLimit, hbytesj, Bool.false_eq_true, if_false]
    · simp only [CodeSync, hbytes, Bool.false_eq_true, if_false]
      omega
    · simp only [hbytes, if_true, Nat.add_zero]

theorem execute_sound (h : Synced mod p) (hprog : SameProgram mod code) (host func : Nat)
    (args : Option Nat) (hhost : Interpreter.HostRuns p.interp.frames)
    (hstarved : ¬ Starved mod p (.execute host func args)) :
    Sound mod ⟨Interpreter.execute mod host func args p.interp,
      Jit.execute code host func args p.jit⟩ := by
  cases args with
  | none =>
    refine early_sound h ?_ rfl rfl rfl rfl rfl rfl rfl
    exact cleanup_entered rfl rfl rfl
  | some n =>
    cases himported : mod.isImported func with
    | false => exact execute_code h hprog host func n hhost himported hstarved
    | true =>
      refine execute_direct h hprog host func n hhost himported ?_
      rw [hprog.frameSize func, ← hprog.imported func, himported, ← hprog.bytes]
      cases hbytes : mod.stackLimitIsBytes with
      | true =>
        simp only [if_true]
        exact Nat.zero_le _
      | false =>
        simp only [Bool.false_eq_true, if_false]
        by_contra hzero
        exact hstarved ⟨hbytes, .inl ⟨by omega, .inl ⟨host, func, n, rfl⟩⟩⟩

theorem Pc.inc_ne_halt {pc : Pc} (h : pc ≠ .halt) : pc.inc ≠ .halt := by
  cases pc with
  | null => simp [Pc.inc]
  | halt => exact absurd rfl h
  | code func offset => simp [Pc.inc]

/-- Both machines at the code of a frame. -/
structure AtCode (mod : Module) (p : Pair) (fi : InterpFrame) (fj : JitFrame)
    (resti : List InterpFrame) (restj : List JitFrame) : Prop where
  synced : Synced mod p
  interp : p.interp.frames = fi :: resti
  jit : p.jit.frames = fj :: restj
  imported : fi.imported = false
  inHost : fi.inHost = none
  inHostJit : fj.inHost = none

variable {fi : InterpFrame} {fj : JitFrame} {resti : List InterpFrame} {restj : List JitFrame}

namespace AtCode

theorem frame (h : AtCode mod p fi fj resti restj) : SameFrame mod fi fj := by
  have hcontrol := h.synced.control
  rw [h.interp, h.jit] at hcontrol
  exact hcontrol.1

theorem counters (h : AtCode mod p fi fj resti restj) :
    (p.jit.ctx.remaining = fj.before.remaining ∧
      CodeSync mod.stackLimitIsBytes fi.before.remaining fj.before.remaining
        p.interp.ctx.remaining fj.ebx ∧
      Charged mod.frameSize p.interp.ctx.remaining fi.funcs ∧
      ChargedJit mod.stackLimitIsBytes mod.frameSize fj.ebx fj.funcs) ∧
    Counters mod.stackLimitIsBytes mod.frameSize fi.before.remaining fj.before.remaining resti
      restj := by
  have hcounters := h.synced.counters
  rw [h.interp, h.jit] at hcounters
  exact ⟨hcounters.1.code h.imported h.inHost, hcounters.2⟩

/-- The counters when the `execute` was called. -/
theorem entry (h : AtCode mod p fi fj resti restj) :
    fi.before.remaining ≤ fj.before.remaining := by
  have hcounters := h.synced.counters
  rw [h.interp, h.jit] at hcounters
  exact hcounters.1.entry

/-- Both counters fit in 32 bits. -/
theorem bounds (h : AtCode mod p fi fj resti restj) :
    p.interp.ctx.remaining < 2 ^ 32 ∧ fj.ebx < 2 ^ 32 := by
  obtain ⟨⟨-, -, hchargedi, hchargedj⟩, -⟩ := h.counters
  have hsame := h.frame.funcs
  cases hfi : fi.funcs with
  | nil => exact absurd hfi (h.frame.running h.imported)
  | cons headi funcsi =>
    cases hfj : fj.funcs with
    | nil => simp [hfi, hfj] at hsame
    | cons headj funcsj =>
      rw [hfi] at hchargedi
      rw [hfj] at hchargedj
      obtain ⟨hi, hlti, -⟩ := hchargedi
      obtain ⟨hj, hltj, -⟩ := hchargedj
      omega

/-- Both overflow at a call. -/
theorem overflows (h : AtCode mod p fi fj resti restj) :
    Sound mod ⟨{ Interpreter.finish fi resti p.interp.ctx with overflow := true },
      { Jit.finish fj restj p.jit.ctx with overflow := true }⟩ := by
  have hnested := h.synced.nested
  rw [h.interp] at hnested
  refine ends_sound h.synced h.interp h.jit ?_ rfl h.counters.1.1 rfl rfl rfl rfl rfl
  simp only [Interpreter.finish, hnested.1.cleanup]

/-- `call_indirect` is rejected in both. -/
theorem badCallIndirect_sound (h : AtCode mod p fi fj resti restj) (hprog : SameProgram mod code)
    (hstarved : ¬ Starved mod p .badCallIndirect) :
    Sound mod ⟨Interpreter.finish fi resti p.interp.ctx,
      Jit.badCallIndirect code fj restj p.jit.ctx⟩ := by
  have hnested := h.synced.nested
  rw [h.interp] at hnested
  have hdepth : (Jit.checkCallDepth code fj.ebx).isNone = false := by
    unfold Jit.checkCallDepth
    split
    next => rfl
    next hbytes =>
      have hne : fj.ebx ≠ 1 := by
        intro hone
        have hmode : mod.stackLimitIsBytes = false := by
          rw [hprog.bytes]
          simpa using hbytes
        exact hstarved ⟨hmode, .inr ⟨rfl, fj, restj, h.jit, hone⟩⟩
      obtain ⟨-, hbound⟩ := h.bounds
      have hleft : sub32 fj.ebx 1 ≠ 0 := by
        unfold sub32
        omega
      simp only [if_neg hleft, Option.isNone_some]
  refine ends_sound h.synced h.interp h.jit ?_ rfl h.counters.1.1 hdepth.symm rfl rfl rfl rfl
  simp only [Interpreter.finish, hnested.1.cleanup]

/-- Both call a defined function. -/
theorem enters (h : AtCode mod p fi fj resti restj) (callee ebx : Nat)
    (himported : mod.isImported callee = false) (himportedj : code.mod.isImported callee = false)
    (hle : mod.frameSize callee ≤ p.interp.ctx.remaining)
    (hcheck : (Jit.checkCallDepth code fj.ebx).bind (Jit.checkStackLimit code callee) = some ebx)
    (hsync : CodeSync mod.stackLimitIsBytes fi.before.remaining fj.before.remaining
      (p.interp.ctx.remaining - mod.frameSize callee) ebx)
    (hcharge : ebx + mod.frameSize callee = fj.ebx) :
    Sound mod ⟨Interpreter.call mod callee fi resti p.interp.ctx,
      Jit.call code callee fj restj p.jit.ctx⟩ := by
  obtain ⟨⟨hrj, -, hchargedi, hchargedj⟩, hrest⟩ := h.counters
  obtain ⟨hboundi, hboundj⟩ := h.bounds
  have hnested : Interpreter.Nested (Interpreter.call mod callee fi resti p.interp.ctx).next.ctx
      (Interpreter.call mod callee fi resti p.interp.ctx).next.frames := by
    have hold := h.synced.nested
    rw [h.interp] at hold
    exact (Interpreter.call_sound h.interp h.imported h.inHost hold.1 hold.2).nested
  have hcontrol := h.synced.control
  rw [h.interp, h.jit] at hcontrol
  have hlive := h.synced.live
  rw [h.interp] at hlive
  obtain ⟨host, above, entry, hstack, hhostlen, habove, hpcs⟩ := hlive.1.callStack h.imported
  have hpc := hlive.1.pc h.imported
  simp only [h.inHost, Option.isSome_none, Bool.false_eq_true, if_false] at hhostlen
  rw [List.length_eq_zero_iff] at hhostlen
  subst hhostlen
  obtain ⟨mid, hdepth, hlimit⟩ := Option.bind_eq_some_iff.mp hcheck
  have hne : fj.funcs ≠ [] := by
    intro hempty
    have hsame := h.frame.funcs
    rw [hempty] at hsame
    exact h.frame.running h.imported (List.map_eq_nil_iff.mp hsame)
  simp only [Interpreter.call, Interpreter.pushCall, himported, Bool.false_eq_true, if_false,
    if_pos hle] at hnested ⊢
  simp only [Jit.call, hdepth, himportedj, Bool.false_eq_true, if_false, hlimit]
  refine running_sound ⟨hnested, ⟨⟨hcontrol.1.imported, ?_, ?_, hcontrol.1.inHost,
    hcontrol.1.direct, by simp⟩, hcontrol.2⟩, ⟨⟨fun _ => by simp, fun _ => ?_⟩, hlive.2⟩,
    ⟨⟨h.entry, ?_, fun _ _ => ⟨hrj, hsync, ⟨?_, hboundi, hchargedi⟩, ⟨?_, hboundj, hchargedj⟩⟩, ?_⟩,
      hrest⟩⟩
  · simp only [List.map_cons, hcontrol.1.funcs]
  · exact List.forall_mem_cons.mpr ⟨himported, hcontrol.1.defined⟩
  · refine ⟨[], ⟨p.interp.ctx.state.pc.inc, p.interp.ctx.lastOpIndex⟩ :: above, entry,
      ?_, ?_, ?_, ?_⟩
    · simp only [hstack, List.nil_append, List.cons_append]
    · simp [h.inHost]
    · simp only [List.length_cons]
      omega
    · intro af haf
      rcases List.mem_cons.mp haf with rfl | haf
      · exact Pc.inc_ne_halt hpc
      · exact hpcs af haf
  · intro htrue
    rw [h.imported] at htrue
    cases htrue
  · simp only
    omega
  · simp only [hne, false_and, if_false]
    exact hcharge
  · intro saved savedj c hsaved
    rw [h.inHost] at hsaved
    cases hsaved

/-- Both call a host function. -/
theorem callsHost (h : AtCode mod p fi fj resti restj) (callee ebx : Nat)
    (himported : mod.isImported callee = true) (himportedj : code.mod.isImported callee = true)
    (hle : mod.frameSize callee ≤ p.interp.ctx.remaining)
    (hcheck : Jit.checkCallDepth code fj.ebx = some ebx)
    (hsync : HostSync mod.stackLimitIsBytes (p.interp.ctx.remaining - mod.frameSize callee) ebx)
    (hcharge : fj.ebx = ebx + if mod.stackLimitIsBytes then 0 else 1) :
    Sound mod ⟨Interpreter.call mod callee fi resti p.interp.ctx,
      Jit.call code callee fj restj p.jit.ctx⟩ := by
  obtain ⟨⟨hrj, hcode, hchargedi, hchargedj⟩, hrest⟩ := h.counters
  have hnested : Interpreter.Nested (Interpreter.call mod callee fi resti p.interp.ctx).next.ctx
      (Interpreter.call mod callee fi resti p.interp.ctx).next.frames := by
    have hold := h.synced.nested
    rw [h.interp] at hold
    exact (Interpreter.call_sound h.interp h.imported h.inHost hold.1 hold.2).nested
  have hcontrol := h.synced.control
  rw [h.interp, h.jit] at hcontrol
  have hlive := h.synced.live
  rw [h.interp] at hlive
  obtain ⟨host, above, entry, hstack, hhostlen, habove, hpcs⟩ := hlive.1.callStack h.imported
  have hpc := hlive.1.pc h.imported
  simp only [h.inHost, Option.isSome_none, Bool.false_eq_true, if_false] at hhostlen
  rw [List.length_eq_zero_iff] at hhostlen
  subst hhostlen
  simp only [Interpreter.call, himported, if_true, if_pos hle] at hnested ⊢
  simp only [Jit.call, hcheck, himportedj, if_true]
  refine running_sound ⟨hnested,
    ⟨⟨hcontrol.1.imported, hcontrol.1.funcs, hcontrol.1.defined, rfl, ?_,
    hcontrol.1.running⟩, hcontrol.2⟩, ⟨⟨fun _ => Pc.inc_ne_halt hpc, fun _ => ?_⟩, hlive.2⟩,
    ⟨⟨h.entry, ?_, ?_, ?_⟩, hrest⟩⟩
  · intro htrue
    rw [h.imported] at htrue
    cases htrue
  · refine ⟨[⟨.null, 0⟩], above, entry, ?_, by simp, habove, hpcs⟩
    simp only [hstack, List.nil_append, List.cons_append]
  · intro htrue
    rw [h.imported] at htrue
    cases htrue
  · rintro - ⟨⟩
  · rintro saved savedj c ⟨rfl⟩ ⟨rfl, rfl⟩
    exact ⟨hrj, hsync, hcode, hchargedi, hchargedj, hcharge⟩

/-- A call in both, with enough depth if the code runs in an inner `execute`. -/
theorem call_sound (h : AtCode mod p fi fj resti restj) (hprog : SameProgram mod code)
    (callee : Nat) (hstarved : ¬ Starved mod p (.call callee)) :
    Sound mod ⟨Interpreter.call mod callee fi resti p.interp.ctx,
      Jit.call code callee fj restj p.jit.ctx⟩ := by
  obtain ⟨⟨-, hcode, -, -⟩, -⟩ := h.counters
  obtain ⟨hboundi, hboundj⟩ := h.bounds
  have hsize := hprog.frameSize callee
  have himportedj := hprog.imported callee
  rw [← himportedj, ← hprog.bytes] at hsize
  cases hbytes : mod.stackLimitIsBytes with
  | true =>
    have hbytesj := hprog.bytes.symm.trans hbytes
    have hdepth : Jit.checkCallDepth code fj.ebx = some fj.ebx := by
      simp only [Jit.checkCallDepth, hbytesj, if_true]
    simp only [CodeSync, hbytes, if_true] at hcode hsize
    cases himported : mod.isImported callee with
    | true =>
      simp only [himported, if_true] at hsize
      refine h.callsHost callee fj.ebx himported (himportedj.symm.trans himported) (by omega) hdepth
        ?_ ?_
      · simp only [HostSync, hbytes, if_true]
        omega
      · simp only [hbytes, if_true, Nat.add_zero]
    | false =>
      simp only [himported, Bool.false_eq_true, if_false] at hsize
      by_cases hle : mod.frameSize callee ≤ p.interp.ctx.remaining
      · refine h.enters callee (fj.ebx - code.usage callee) himported
          (himportedj.symm.trans himported) hle ?_ ?_ (by omega)
        · rw [hdepth, Option.bind_some]
          simp only [Jit.checkStackLimit, hbytesj, if_true]
          exact if_neg (by omega)
        · simp only [CodeSync, hbytes, if_true]
          omega
      · have hlimit : Jit.checkStackLimit code callee fj.ebx = none := by
          simp only [Jit.checkStackLimit, hbytesj, if_true]
          exact if_pos (by omega)
        simp only [Interpreter.call, Interpreter.pushCall, himported, Bool.false_eq_true, if_false,
          if_neg hle]
        simp only [Jit.call, hdepth, himportedj.symm.trans himported, Bool.false_eq_true, if_false,
          hlimit]
        exact h.overflows
  | false =>
    have hbytesj := hprog.bytes.symm.trans hbytes
    simp only [CodeSync, hbytes, Bool.false_eq_true, if_false] at hcode hsize
    have hentry := h.entry
    have hsub : sub32 fj.ebx 1 = fj.ebx - 1 := by
      unfold sub32
      omega
    by_cases hle : mod.frameSize callee ≤ p.interp.ctx.remaining
    · have hdepth : Jit.checkCallDepth code fj.ebx = some (fj.ebx - 1) := by
        simp only [Jit.checkCallDepth, hbytesj, Bool.false_eq_true, if_false, hsub]
        exact if_neg (by omega)
      cases himported : mod.isImported callee with
      | true =>
        refine h.callsHost callee (fj.ebx - 1) himported
          (himportedj.symm.trans himported) hle hdepth
          ?_ ?_
        · simp only [HostSync, hbytes, Bool.false_eq_true, if_false]
          omega
        · simp only [hbytes, Bool.false_eq_true, if_false]
          omega
      | false =>
        refine h.enters callee (fj.ebx - 1) himported (himportedj.symm.trans himported) hle ?_ ?_
          (by omega)
        · rw [hdepth, Option.bind_some]
          simp only [Jit.checkStackLimit, hbytesj, Bool.false_eq_true, if_false]
        · simp only [CodeSync, hbytes, Bool.false_eq_true, if_false]
          omega
    · -- the interpreter has nothing left, so the counters were equal at the start
      have hzero : p.interp.ctx.remaining = 0 := by omega
      have hequal : fi.before.remaining = fj.before.remaining := by
        by_contra hne
        exact hstarved ⟨hbytes, .inl ⟨hzero, .inr ⟨⟨callee, rfl⟩, fi, resti, fj, restj, h.interp,
          h.jit, hne⟩⟩⟩
      have hdepth : Jit.checkCallDepth code fj.ebx = none := by
        simp only [Jit.checkCallDepth, hbytesj, Bool.false_eq_true, if_false, hsub]
        exact if_pos (by omega)
      have hover : Interpreter.call mod callee fi resti p.interp.ctx =
          { Interpreter.finish fi resti p.interp.ctx with overflow := true } := by
        simp only [Interpreter.call, Interpreter.pushCall, if_neg hle]
        split
        · rfl
        · rfl
      rw [hover]
      simp only [Jit.call, hdepth]
      exact h.overflows

/-- A function returns in both. -/
theorem codeReturn_sound (h : AtCode mod p fi fj resti restj) (hprog : SameProgram mod code)
    {func ci cj : Nat} {funcsi funcsj : List (Nat × Nat)}
    (hfuncsi : fi.funcs = (func, ci) :: funcsi)
    (hfuncsj : fj.funcs = (func, cj) :: funcsj) :
    Sound mod
      ⟨Interpreter.resume { fi with funcs := funcsi } resti
          (Interpreter.applyPopCall mod func p.interp.ctx) ci,
        Jit.codeReturn code func cj funcsj fj restj p.jit.ctx⟩ := by
  obtain ⟨⟨hrj, hcode, hchargedi, hchargedj⟩, hrest⟩ := h.counters
  have hnested := h.synced.nested
  have hcontrol := h.synced.control
  have hlive := h.synced.live
  rw [h.interp] at hnested hlive
  rw [h.interp, h.jit] at hcontrol
  obtain ⟨host, above, entry, hstack, hhostlen, habove, hpcs⟩ := hlive.1.callStack h.imported
  simp only [h.inHost, Option.isSome_none, Bool.false_eq_true, if_false] at hhostlen
  rw [List.length_eq_zero_iff] at hhostlen
  subst hhostlen
  rw [List.nil_append] at hstack
  rw [hfuncsi] at hchargedi habove
  rw [hfuncsj] at hchargedj
  obtain ⟨hci, hlti, hchargedi⟩ := hchargedi
  obtain ⟨hcj, hltj, hchargedj⟩ := hchargedj
  have hsame := h.frame.funcs
  simp only [hfuncsi, hfuncsj, List.map_cons, List.cons.injEq, true_and] at hsame
  cases hfi : funcsi with
  | nil =>
    -- the function that `execute` has called
    have hfj : funcsj = [] := by
      rw [hfi] at hsame
      exact List.map_eq_nil_iff.mp hsame.symm
    rw [hfi] at habove
    have habove : above = [] := List.length_eq_zero_iff.mp (by simpa using habove)
    rw [habove, List.nil_append] at hstack
    have hpop : (Interpreter.applyPopCall mod func p.interp.ctx).state.pc = .halt := by
      simp only [Interpreter.applyPopCall, hstack]
    rw [hfj]
    simp only [Interpreter.resume, if_pos hpop, Jit.codeReturn]
    refine ends_sound h.synced h.interp h.jit ?_ rfl hrj rfl rfl rfl rfl rfl
    have hclean : Interpreter.cleanup fi.before (Interpreter.applyPopCall mod func p.interp.ctx) =
        fi.before := by
      refine Interpreter.cleanup_eq ?_ ?_ [] ?_
      · simp only [Interpreter.applyPopCall, hstack]
        exact hnested.1.osIndex
      · simp only [Interpreter.applyPopCall, hstack]
        exact hnested.1.asIndex
      · simp only [Interpreter.applyPopCall, hstack, List.nil_append]
    simp only [Interpreter.finish, hclean]
  | cons nexti restsi =>
    cases hfj : funcsj with
    | nil =>
      rw [hfi, hfj] at hsame
      cases hsame
    | cons nextj restsj =>
      rw [← hfi, ← hfj]
      have hne : funcsj ≠ [] := by simp [hfj]
      cases habv : above with
      | nil =>
        rw [hfi, habv] at habove
        simp at habove
      | cons af above' =>
        rw [habv] at hstack habove hpcs
        have hstack' : p.interp.ctx.callStack =
            af :: (above' ++ ⟨.halt, entry⟩ :: fi.before.callStack) := hstack
        have haf : af.pc ≠ .halt := hpcs af (List.mem_cons_self ..)
        have hpop : Interpreter.applyPopCall mod func p.interp.ctx =
            { p.interp.ctx with
              callStack := above' ++ ⟨.halt, entry⟩ :: fi.before.callStack
              state := { p.interp.ctx.state with pc := af.pc }
              lastOpIndex := af.lastOpIndex
              os := p.interp.ctx.os - (mod.localsCount func + mod.paramCount func)
              remaining := ci } := by
          simp only [Interpreter.applyPopCall, hstack']
          rw [hci, Nat.mod_eq_of_lt hlti]
        have hnested' : Interpreter.Nested
            (Interpreter.resume { fi with funcs := funcsi } resti
              (Interpreter.applyPopCall mod func p.interp.ctx) ci).next.ctx
            (Interpreter.resume { fi with funcs := funcsi } resti
              (Interpreter.applyPopCall mod func p.interp.ctx) ci).next.frames := by
          have hsound : Interpreter.Sound p.interp .ret
              (Interpreter.resume { fi with funcs := funcsi } resti
                (Interpreter.applyPopCall mod func p.interp.ctx) ci) :=
            Interpreter.codeReturn_sound h.interp h.imported h.inHost hfuncsi hnested.1 hnested.2
          exact hsound.nested
        have hdefined : mod.isImported func = false :=
          h.frame.defined (func, ci) (by rw [hfuncsi]; exact List.mem_cons_self ..)
        have hsize := hprog.frameSize func
        rw [← hprog.imported, hdefined, ← hprog.bytes] at hsize
        simp only [hne, false_and, if_false] at hcj
        have hebx : Jit.checkCallDepthEnd code (Jit.checkStackLimitEnd code func fj.ebx) = cj := by
          unfold Jit.checkCallDepthEnd Jit.checkStackLimitEnd
          rw [← hprog.bytes]
          cases hbytes : mod.stackLimitIsBytes with
          | true =>
            simp only [hbytes, if_true, Bool.false_eq_true, if_false] at hsize ⊢
            unfold add32
            omega
          | false =>
            simp only [hbytes, Bool.false_eq_true, if_false] at hsize ⊢
            unfold add32
            omega
        have hsync : CodeSync mod.stackLimitIsBytes fi.before.remaining
          fj.before.remaining ci cj := by
          unfold CodeSync at hcode ⊢
          split
          next hbytes =>
            rw [if_pos hbytes] at hcode
            omega
          next hbytes =>
            rw [if_neg hbytes] at hcode
            omega
        simp only [hpop, Interpreter.resume, if_neg haf] at hnested' ⊢
        have hreturn : Jit.codeReturn code func cj funcsj fj restj p.jit.ctx =
            { next := ⟨p.jit.ctx, { fj with ebx := cj, funcs := funcsj } :: restj⟩
              returned := some cj } := by
          rw [hfj]
          simp only [Jit.codeReturn, hebx]
        rw [hreturn]
        refine ⟨⟨hnested', ⟨⟨hcontrol.1.imported, hsame, ?_, hcontrol.1.inHost, hcontrol.1.direct,
          ?_⟩, hcontrol.2⟩, ⟨⟨fun _ => haf, fun _ => ?_⟩, hlive.2⟩,
          ⟨⟨h.entry, ?_, fun _ _ => ⟨hrj, hsync, hchargedi, hchargedj⟩, ?_⟩, hrest⟩⟩,
          ⟨rfl, ?_, ?_, ?_, ?_⟩⟩
        · intro f hf
          exact hcontrol.1.defined f (by rw [hfuncsi]; exact List.mem_cons_of_mem _ hf)
        · intro _
          simp [hfi]
        · refine ⟨[], above', entry, rfl, ?_, ?_, ?_⟩
          · simp [h.inHost]
          · simp only [List.length_cons] at habove ⊢
            omega
          · intro af' haf'
            exact hpcs af' (List.mem_cons_of_mem _ haf')
        · intro htrue
          rw [h.imported] at htrue
          cases htrue
        · intro saved savedj c hsaved
          rw [h.inHost] at hsaved
          cases hsaved
        · rintro c ⟨rfl⟩
          rfl
        · rintro c ⟨rfl⟩
          simp only [jitCounter, ← hcontrol.1.imported, h.imported, h.inHostJit,
            Option.isSome_none, Bool.or_false, Bool.false_eq_true, if_false]
        · rintro before ⟨⟩
        · rintro before ⟨⟩

end AtCode

/-- A host function that the code has called returns in both. -/
theorem hostReturn_sound (h : Synced mod p) (hprog : SameProgram mod code)
    (hi : p.interp.frames = fi :: resti) (hj : p.jit.frames = fj :: restj)
    {saved savedj c : Nat} (hhosti : fi.inHost = some saved)
    (hhostj : fj.inHost = some (savedj, c)) :
    Sound mod ⟨Interpreter.hostReturn saved fi resti p.interp.ctx,
      Jit.hostReturn code savedj c fj restj p.jit.ctx⟩ := by
  have hnested := h.nested
  have hcontrol := h.control
  have hlive := h.live
  have hcounters := h.counters
  rw [hi] at hnested hlive
  rw [hi, hj] at hcontrol hcounters
  have himported : fi.imported = false := by
    cases htrue : fi.imported with
    | false => rfl
    | true =>
      rw [hcontrol.1.direct htrue] at hhosti
      cases hhosti
  obtain ⟨hsavedj, -, hsync, hchargedi, hchargedj, hc⟩ :=
    hcounters.1.host saved savedj c hhosti hhostj
  obtain ⟨host, above, entry, hstack, hhostlen, habove, hpcs⟩ := hlive.1.callStack himported
  have hpc := hlive.1.pc himported
  have hnested' : Interpreter.Nested (Interpreter.hostReturn saved fi resti p.interp.ctx).next.ctx
      (Interpreter.hostReturn saved fi resti p.interp.ctx).next.frames := by
    have hsound : Interpreter.Sound p.interp .ret
        (Interpreter.hostReturn saved fi resti p.interp.ctx) :=
      Interpreter.hostReturn_sound hi hhosti hnested.1 hnested.2
    exact hsound.nested
  simp only [hhosti, Option.isSome_some, if_true] at hhostlen
  obtain ⟨top, rfl⟩ := List.length_eq_one_iff.mp hhostlen
  have hebx : Jit.checkCallDepthEnd code fj.ebx = c := by
    have hbound : c < 2 ^ 32 := by
      cases hfj : fj.funcs with
      | nil =>
        have hsame := hcontrol.1.funcs
        rw [hfj] at hsame
        exact absurd (List.map_eq_nil_iff.mp hsame) (hcontrol.1.running himported)
      | cons head funcs =>
        rw [hfj] at hchargedj
        obtain ⟨heq, hlt, -⟩ := hchargedj
        omega
    unfold Jit.checkCallDepthEnd
    rw [← hprog.bytes]
    cases hbytes : mod.stackLimitIsBytes with
    | true =>
      simp only [hbytes, if_true] at hc ⊢
      omega
    | false =>
      simp only [hbytes, Bool.false_eq_true, if_false] at hc ⊢
      unfold add32
      omega
  simp only [Interpreter.hostReturn, Interpreter.resume, if_neg hpc] at hnested' ⊢
  simp only [Jit.hostReturn, hebx]
  refine ⟨⟨hnested', ⟨⟨hcontrol.1.imported, hcontrol.1.funcs, hcontrol.1.defined, rfl,
    fun _ => rfl, hcontrol.1.running⟩, hcontrol.2⟩, ⟨⟨fun _ => hpc, fun _ => ?_⟩, hlive.2⟩,
    ⟨⟨hcounters.1.entry, ?_, fun _ _ => ⟨hsavedj, hsync, hchargedi, hchargedj⟩, ?_⟩, hcounters.2⟩⟩,
    ⟨rfl, ?_, ?_, ?_, ?_⟩⟩
  · refine ⟨[], above, entry, ?_, by simp, habove, hpcs⟩
    change p.interp.ctx.callStack.tail = _
    rw [hstack]
    rfl
  · intro htrue
    rw [himported] at htrue
    cases htrue
  · rintro saved savedj c ⟨⟩
  · rintro c ⟨rfl⟩
    rfl
  · rintro c ⟨rfl⟩
    simp only [jitCounter, ← hcontrol.1.imported, himported, Option.isSome_none, Bool.or_false,
      Bool.false_eq_true, if_false]
  · rintro before ⟨⟩
  · rintro before ⟨⟩

/-- Both contexts change in what no frame keeps. -/
theorem work_sound (h : Synced mod p) {ctxi : InterpContext} {ctxj : JitContext}
    (hstacks : Interpreter.SameStacks p.interp.ctx ctxi)
    (hi : ctxi.remaining = p.interp.ctx.remaining)
    (hpc : p.interp.ctx.state.pc ≠ .halt → ctxi.state.pc ≠ .halt)
    (hj : ctxj.remaining = p.jit.ctx.remaining) :
    Sound mod ⟨{ next := { p.interp with ctx := ctxi } },
      { next := { p.jit with ctx := ctxj } }⟩ := by
  refine running_sound ⟨?_, h.control, ?_, ?_⟩
  · have hnested := h.nested
    cases hframes : p.interp.frames with
    | nil => trivial
    | cons frame rest =>
      rw [hframes] at hnested
      exact ⟨hnested.1.adjust hstacks, hnested.2⟩
  · have hlive := h.live
    cases hframes : p.interp.frames with
    | nil => trivial
    | cons frame rest =>
      rw [hframes] at hlive
      refine ⟨⟨fun himported => hpc (hlive.1.pc himported), fun himported => ?_⟩, hlive.2⟩
      rw [hstacks.callStack]
      exact hlive.1.callStack himported
  · simp only [hi, hj]
    exact h.counters

/-- A host function changes the limit, but not one that an `execute` runs directly. -/
theorem setLimit_sound (h : Synced mod p) (limit : Nat)
    (hhost : Interpreter.HostRuns p.interp.frames) (hdirect : ¬ DirectLimit p (.setLimit limit)) :
    Sound mod
      ⟨{ next := { p.interp with ctx := { p.interp.ctx with remaining := limit % 2 ^ 32 } } },
        { next := { p.jit with ctx := { p.jit.ctx with remaining := limit % 2 ^ 32 } } }⟩ := by
  have hlt : limit % 2 ^ 32 < 2 ^ 32 := Nat.mod_lt _ (by decide)
  have hsync : HostSync mod.stackLimitIsBytes (limit % 2 ^ 32) (limit % 2 ^ 32) := by
    refine ⟨hlt, ?_⟩
    split
    · rfl
    · exact Nat.le_refl _
  have hcontrol := h.control
  have hcounters := h.counters
  refine running_sound ⟨?_, h.control, ?_, ?_⟩
  · have hnested := h.nested
    cases hframes : p.interp.frames with
    | nil => trivial
    | cons frame rest =>
      rw [hframes] at hnested
      exact ⟨hnested.1.adjust ⟨rfl, rfl, rfl⟩, hnested.2⟩
  · have hlive := h.live
    cases hframes : p.interp.frames with
    | nil => trivial
    | cons frame rest =>
      rw [hframes] at hlive
      exact ⟨⟨hlive.1.pc, hlive.1.callStack⟩, hlive.2⟩
  · cases hi : p.interp.frames with
    | nil =>
      cases hj : p.jit.frames with
      | nil => exact ⟨rfl, hlt⟩
      | cons fj restj =>
        rw [hi, hj] at hcontrol
        cases hcontrol
    | cons fi resti =>
      cases hj : p.jit.frames with
      | nil =>
        rw [hi, hj] at hcontrol
        cases hcontrol
      | cons fj restj =>
        rw [hi] at hhost
        rw [hi, hj] at hcounters
        refine ⟨⟨hcounters.1.entry, fun himported => ⟨?_, hsync⟩, ?_, ?_⟩, hcounters.2⟩
        · have hkeep : limit % 2 ^ 32 = p.jit.ctx.remaining := by
            by_contra hne
            exact hdirect ⟨limit, rfl, hne, fi, resti, hi, himported⟩
          exact hkeep.trans (hcounters.1.direct himported).1
        · intro himported hnone
          rcases hhost with htrue | hsome
          · rw [himported] at htrue
            cases htrue
          · rw [hnone] at hsome
            cases hsome
        · intro saved savedj c hsaved hsavedj
          obtain ⟨heq, -, hrest⟩ := hcounters.1.host saved savedj c hsaved hsavedj
          exact ⟨heq, hsync, hrest⟩

/-- The steps that keep the machines in step. -/
structure Allowed (mod : Module) (p : Pair) (event : Event) : Prop where
  fault : ¬ HostFaults p event
  limit : ¬ DirectLimit p event
  starved : ¬ Starved mod p event

theorem step_sound (h : Synced mod p) (hprog : SameProgram mod code)
    (hstep : step mod code event p = some o) (hallowed : Allowed mod p event) : Sound mod o := by
  cases step_joint h.nested h.control hstep with
  | execute host func args hhost =>
    exact execute_sound h hprog host func args hhost hallowed.starved
  | setLimit limit hhost => exact setLimit_sound h limit hhost hallowed.limit
  | work operands offset ctxi ctxj hstacks hi hpc hj => exact work_sound h hstacks hi hpc hj
  | call callee fi fj resti restj hi hj himported hhosti hhostj =>
    have hat : AtCode mod p fi fj resti restj := ⟨h, hi, hj, himported, hhosti, hhostj⟩
    exact hat.call_sound hprog callee hallowed.starved
  | badCallIndirect fi fj resti restj hi hj himported hhosti hhostj =>
    have hat : AtCode mod p fi fj resti restj := ⟨h, hi, hj, himported, hhosti, hhostj⟩
    exact hat.badCallIndirect_sound hprog hallowed.starved
  | hostReturn saved savedj returned fi fj resti restj hi hj hhosti hhostj =>
    exact hostReturn_sound h hprog hi hj hhosti hhostj
  | codeReturn func ci cj funcsi funcsj fi fj resti restj hi hj himported hhosti hhostj hfi hfj =>
    have hat : AtCode mod p fi fj resti restj := ⟨h, hi, hj, himported, hhosti, hhostj⟩
    exact hat.codeReturn_sound hprog hfi hfj
  | ends event fi fj resti restj ctx hi hj hclean =>
    refine ends_sound h hi hj ?_ rfl ?_ rfl rfl rfl rfl rfl
    · simp only [Interpreter.finish, hclean]
    · have hcounters := h.counters
      have hcontrol := h.control
      rw [hi, hj] at hcounters hcontrol
      simp only [Jit.finish, Jit.unwindHost]
      cases himported : fi.imported with
      | true =>
        have hnone := hcontrol.1.inHost_none (hcontrol.1.direct himported)
        simp only [hnone]
        exact (hcounters.1.direct himported).1
      | false =>
        cases hsaved : fi.inHost with
        | none =>
          simp only [hcontrol.1.inHost_none hsaved]
          exact (hcounters.1.code himported hsaved).1
        | some saved =>
          obtain ⟨⟨savedj, c⟩, hsavedj⟩ := hcontrol.1.inHost_some hsaved
          simp only [hsavedj]
          exact (hcounters.1.host saved savedj c hsaved hsavedj).1
  | hostFaults o hhost => exact absurd ⟨rfl, hhost⟩ hallowed.fault

/-- A fault ends an `execute` in both, or the process. -/
theorem handler_isSome {framesi : List InterpFrame} {framesj : List JitFrame}
    (h : SameControl mod framesi framesj) :
    (Interpreter.handler framesi).isSome = (Jit.handler framesj).isSome := by
  induction framesi generalizing framesj with
  | nil =>
    cases framesj with
    | nil => rfl
    | cons fj restj => cases h
  | cons fi resti ih =>
    cases framesj with
    | nil => cases h
    | cons fj restj =>
      obtain ⟨hframe, hrest⟩ := h
      unfold Interpreter.handler Jit.handler
      rw [hframe.imported]
      split
      · exact ih hrest
      · rfl

/-- What can happen next in one machine can happen in the other. -/
theorem Synced.isSome_eq (h : Synced mod p) (event : Event) :
    (interpStep mod event p.interp).isSome = (Jit.step code event p.jit).isSome := by
  obtain ⟨⟨ctxi, framesi⟩, ⟨ctxj, framesj⟩⟩ := p
  have hcontrol := h.control
  have hnested := h.nested
  simp only at hcontrol hnested
  cases framesi with
  | nil =>
    cases framesj with
    | cons fj restj => cases hcontrol
    | nil => cases event <;> rfl
  | cons fi resti =>
    cases framesj with
    | nil => cases hcontrol
    | cons fj restj =>
      have hfault := handler_isSome hcontrol
      obtain ⟨hframe, hrest⟩ := hcontrol
      obtain ⟨hfits, -⟩ := hnested
      have hruns : (fj.imported || fj.inHost.isSome) = (fi.imported || fi.inHost.isSome) := by
        rw [hframe.imported, hframe.inHost]
      cases hhost : fi.imported || fi.inHost.isSome with
      | true =>
        have hhostj := hruns.trans hhost
        cases event with
        | fault => simp [interpStep, Interpreter.step, Jit.step, hhost, hhostj, hfault]
        | ret =>
          simp only [interpStep, Interpreter.step, Jit.step, hhost, hhostj, if_true]
          cases hini : fi.inHost with
          | none => simp only [hframe.inHost_none hini, Option.isSome_some]
          | some saved =>
            obtain ⟨pair, hinj⟩ := hframe.inHost_some hini
            simp only [hinj, Option.isSome_some]
        | exit =>
          have hj : (Jit.step code .exit ⟨ctxj, fj :: restj⟩).isSome = true := by
            simp [Jit.step, hhostj]
          rw [hj]
          cases hini : fi.inHost with
          | none =>
            rw [hini, Option.isSome_none, Bool.or_false] at hhost
            obtain ⟨ctx, hstep, -⟩ : ∃ ctx, interpStep mod .exit ⟨ctxi, fi :: resti⟩ = _ ∧ _ :=
              exit_direct rfl hhost hini hfits
            simp only [hstep, Option.isSome_some]
          | some saved =>
            obtain ⟨ctx, hstep, -⟩ : ∃ ctx, interpStep mod .exit ⟨ctxi, fi :: resti⟩ = _ ∧ _ :=
              exit_called rfl hini hfits
            simp only [hstep, Option.isSome_some]
        | execute | work | call | badCallIndirect | throw | setLimit =>
          simp [interpStep, Interpreter.step, Jit.step, hhost, hhostj]
      | false =>
        have hhostj := hruns.trans hhost
        have himported : fi.imported = false := by
          cases hi : fi.imported with
          | false => rfl
          | true => simp [hi] at hhost
        have hrunning := hframe.running himported
        have hsame := hframe.funcs
        cases hfi : fi.funcs with
        | nil => exact absurd hfi hrunning
        | cons headi funcsi =>
          cases hfj : fj.funcs with
          | nil =>
            rw [hfi, hfj] at hsame
            cases hsame
          | cons headj funcsj =>
            cases event <;>
              simp [interpStep, Interpreter.step, Jit.step, hhost, hhostj, hfi, hfj]

end Lockstep

end EosVm
