import EosVm.Invariants.Lockstep
import EosVm.Invariants.Backends

/-!
# Stack limits of the two backends

The interpreter and the machine code of the same module run the same events from the same limit.
With a limit in bytes they overflow at the same calls, unless a fault in a host function jumps over
the guard of `call_host_function` or a host function that `execute` runs directly changes the limit.
With a limit on the depth they also differ when an `execute` finds no depth, since the interpreter
charges the entry and the machine code does not, and when a `call_indirect` is rejected, since the
machine code tests the depth first.
-/

set_option autoImplicit false

namespace EosVm

open Lib

namespace Lockstep

/-- The frame size of a function of a module with a limit in bytes. -/
theorem frameSize_bytes {mod : Module} (hbytes : mod.stackLimitIsBytes = true) (func : Nat) :
    mod.frameSize func = if mod.isImported func then 0
      else (mod.code.map FunctionBody.stackSize).getD (func - mod.getImportedFunctionsSize) 0 := by
  simp only [Module.frameSize, Module.getFunctionStackSize, hbytes, Bool.not_true,
    Bool.false_eq_true, if_false, Module.isImported, decide_eq_true_eq]
  split
  next size hsize =>
    split at hsize
    next himported =>
      rw [if_pos himported]
      exact (Except.ok.inj hsize).symm
    next hdefined =>
      obtain ⟨body, hbody, hpure⟩ := bind_eq_ok.mp hsize
      rw [if_neg hdefined, List.getD_eq_getElem?_getD, List.getElem?_map,
        vectorAt_eq_ok.mp hbody]
      exact (pure_eq_ok.mp hpure).symm
  next e hsize =>
    split at hsize
    · cases hsize
    next hdefined =>
      rw [if_neg hdefined, List.getD_eq_getElem?_getD, List.getElem?_map]
      cases hbody : mod.code[func - mod.getImportedFunctionsSize]? with
      | none => rfl
      | some body => simp [vectorAt, hbody] at hsize

/-- The two backends have compiled the same module. -/
theorem sameProgram_of_parse {o : Options} {bytes : List UInt8} {sti : ParserState bitcodeWriter}
    {stj : ParserState (machineWriter o.maxStackBytes.isSome)}
    (hi : parseModule bitcodeWriter o bytes = .ok sti)
    (hj : parseModule (machineWriter o.maxStackBytes.isSome) o bytes = .ok stj) :
    SameProgram sti.mod (JitModule.ofParser stj) := by
  obtain ⟨himports, hbytesi, hbytesj, hsizes⟩ := parseModule_same hi hj
  have hcount : sti.mod.getImportedFunctionsSize = stj.mod.getImportedFunctionsSize := by
    rw [Module.getImportedFunctionsSize, Module.getImportedFunctionsSize, himports]
  have himported : ∀ func, sti.mod.isImported func = stj.mod.isImported func := by
    intro func
    rw [Module.isImported, Module.isImported, hcount]
  refine ⟨himported, hbytesi.trans hbytesj.symm, ?_⟩
  intro func
  change sti.mod.frameSize func = if stj.mod.stackLimitIsBytes then
    if stj.mod.isImported func then 0
      else (limitEntries stj).getD (func - stj.mod.getImportedFunctionsSize) 0 else 1
  rw [hbytesj]
  split
  next hmode => rw [frameSize_bytes (hbytesi.trans hmode), himported, hcount, hsizes hmode]
  next hmode =>
    have hfalse : sti.mod.stackLimitIsBytes = false := by
      rw [hbytesi]
      simpa using hmode
    simp only [Module.frameSize, Module.getFunctionStackSize, hfalse, Bool.not_false, if_true]

/-- Both contexts as they are constructed with the limit. -/
def Pair.start (limit : Nat) : Pair where
  interp := { ctx := { remaining := limit % 2 ^ 32 } }
  jit := { ctx := { remaining := limit % 2 ^ 32 } }

theorem Pair.start_synced (mod : Module) (limit : Nat) : Synced mod (Pair.start limit) :=
  ⟨trivial, trivial, trivial, rfl, Nat.mod_lt _ (by decide)⟩

section

variable {mod : Module} {code : JitModule} {p : Pair} {event : Event} {o : PairStep}

/-- What a step does at an `execute`. -/
theorem step_execute {host func : Nat} {args : Option Nat}
    (hstep : step mod code (.execute host func args) p = some o) :
    o = ⟨Interpreter.execute mod host func args p.interp,
      Jit.execute code host func args p.jit⟩ := by
  obtain ⟨hi, hj⟩ := step_eq_some.mp hstep
  have hinterp : o.interp = Interpreter.execute mod host func args p.interp := by
    simp only [interpStep, Interpreter.step] at hi
    split at hi
    · exact (Option.some.inj hi).symm
    · split at hi
      · exact (Option.some.inj hi).symm
      · simp at hi
  have hjit : o.jit = Jit.execute code host func args p.jit := by
    simp only [Jit.step] at hj
    split at hj
    · exact (Option.some.inj hj).symm
    · split at hj
      · exact (Option.some.inj hj).symm
      · simp at hj
  obtain ⟨oi, oj⟩ := o
  simp only at hinterp hjit
  rw [hinterp, hjit]

/-- Both frames run a function. -/
theorem AtCode.running {fi : InterpFrame} {fj : JitFrame} {resti : List InterpFrame}
    {restj : List JitFrame} (hat : AtCode mod p fi fj resti restj) :
    (∃ head funcs, fi.funcs = head :: funcs) ∧ ∃ head funcs, fj.funcs = head :: funcs := by
  have hrunning := hat.frame.running hat.imported
  refine ⟨List.exists_cons_of_ne_nil hrunning, List.exists_cons_of_ne_nil ?_⟩
  intro hempty
  have hsame := hat.frame.funcs
  rw [hempty] at hsame
  exact hrunning (List.map_eq_nil_iff.mp hsame)

/-- What a step does at a call, and at a `call_indirect` that is rejected. -/
theorem AtCode.step_eq {fi : InterpFrame} {fj : JitFrame} {resti : List InterpFrame}
    {restj : List JitFrame} (hat : AtCode mod p fi fj resti restj)
    (hstep : step mod code event p = some o) :
    (∀ func, event = .call func →
      o = ⟨Interpreter.call mod func fi resti p.interp.ctx,
        Jit.call code func fj restj p.jit.ctx⟩) ∧
    (event = .badCallIndirect →
      o = ⟨Interpreter.finish fi resti p.interp.ctx,
        Jit.badCallIndirect code fj restj p.jit.ctx⟩) := by
  obtain ⟨hi, hj⟩ := step_eq_some.mp hstep
  have himportedj : fj.imported = false := hat.frame.imported.symm.trans hat.imported
  obtain ⟨⟨headi, funcsi, hfi⟩, headj, funcsj, hfj⟩ := hat.running
  simp only [interpStep, Interpreter.step, hat.interp, hat.imported, hat.inHost, hfi,
    Option.isSome_none, Bool.or_false, Bool.false_eq_true, if_false] at hi
  simp only [Jit.step, hat.jit, himportedj, hat.inHostJit, hfj, Option.isSome_none, Bool.or_false,
    Bool.false_eq_true, if_false] at hj
  obtain ⟨oi, oj⟩ := o
  constructor
  · rintro func rfl
    rw [Option.some.inj hi, Option.some.inj hj]
  · rintro rfl
    rw [Option.some.inj hi, Option.some.inj hj]

/-- The code of a frame runs where a `call` or `call_indirect` can happen. -/
theorem atCode_of_step (h : Synced mod p) {fi : InterpFrame} {fj : JitFrame}
    {resti : List InterpFrame} {restj : List JitFrame} (hi : p.interp.frames = fi :: resti)
    (hj : p.jit.frames = fj :: restj)
    (hevent : (∃ func, event = .call func) ∨ event = .badCallIndirect)
    (hstep : step mod code event p = some o) : AtCode mod p fi fj resti restj := by
  have hhost : fi.imported = false ∧ fi.inHost = none := by
    obtain ⟨hstepi, -⟩ := step_eq_some.mp hstep
    rcases hevent with ⟨func, rfl⟩ | rfl
    all_goals
      simp only [interpStep, Interpreter.step, hi] at hstepi
      split at hstepi
      · cases hstepi
      next hcode => simpa [Option.isSome_eq_false_iff] using hcode
  have hcontrol := h.control
  rw [hi, hj] at hcontrol
  exact ⟨h, hi, hj, hhost.1, hhost.2, hcontrol.1.inHost_none hhost.2⟩

/-- Only the interpreter overflows at a step that finds no depth in it. -/
theorem starved_overflows (hbytes : mod.stackLimitIsBytes = false)
    (hzero : p.interp.ctx.remaining = 0)
    (hevent : (∃ host func n, event = .execute host func (some n)) ∨
      (∃ func, event = .call func) ∧ ∃ fi resti fj restj, p.interp.frames = fi :: resti ∧
        p.jit.frames = fj :: restj ∧ fi.before.remaining ≠ fj.before.remaining)
    (h : Synced mod p) (hprog : SameProgram mod code) (hstep : step mod code event p = some o) :
    o.interp.overflow = true ∧ o.jit.overflow = false := by
  have hbytesj := hprog.bytes.symm.trans hbytes
  have hsize : ∀ func, ¬ mod.frameSize func ≤ p.interp.ctx.remaining := by
    intro func
    rw [hprog.frameSize func, hbytesj, hzero]
    simp
  rcases hevent with ⟨host, func, n, rfl⟩ | ⟨⟨func, rfl⟩, fi, resti, fj, restj, hi, hj, hne⟩
  · rw [step_execute hstep]
    simp only [Interpreter.execute, Interpreter.pushCall, if_neg (hsize func), Jit.execute,
      Jit.checkStackLimit, hbytesj, Bool.false_eq_true, if_false, true_and]
    split
    · rfl
    · rfl
  · have hat := atCode_of_step h hi hj (.inl ⟨func, rfl⟩) hstep
    -- the register is ahead by the entry and by the difference at the start
    obtain ⟨⟨-, hsync, -, -⟩, -⟩ := hat.counters
    obtain ⟨-, hbound⟩ := hat.bounds
    have hentry := hat.entry
    rw [CodeSync, hbytes] at hsync
    simp only [Bool.false_eq_true, if_false] at hsync
    have hpos : sub32 fj.ebx 1 ≠ 0 := by
      unfold sub32
      omega
    rw [(hat.step_eq hstep).1 func rfl]
    refine ⟨?_, ?_⟩
    · simp only [Interpreter.call, Interpreter.pushCall, if_neg (hsize func)]
      split
      · rfl
      · rfl
    · simp only [Jit.call, Jit.checkCallDepth, Jit.checkStackLimit, hbytesj, Bool.false_eq_true,
        if_false, if_neg hpos]
      split
      · rfl
      · rfl

/-- One machine overflows at a starved step, and the other does not. -/
theorem Starved.overflows (hstarved : Starved mod p event) (h : Synced mod p)
    (hprog : SameProgram mod code) (hstep : step mod code event p = some o) :
    o.interp.overflow ≠ o.jit.overflow := by
  obtain ⟨hbytes, ⟨hzero, hevent⟩ | ⟨rfl, fj, restj, hj, hone⟩⟩ := hstarved
  · obtain ⟨hinterp, hjit⟩ := starved_overflows hbytes hzero hevent h hprog hstep
    rw [hinterp, hjit]
    decide
  · obtain ⟨fi, resti, hi⟩ : ∃ fi resti, p.interp.frames = fi :: resti := by
      have hcontrol := h.control
      rw [hj] at hcontrol
      cases hframes : p.interp.frames with
      | nil =>
        rw [hframes] at hcontrol
        cases hcontrol
      | cons fi resti => exact ⟨fi, resti, rfl⟩
    rw [((atCode_of_step h hi hj (.inr rfl) hstep).step_eq hstep).2 rfl]
    have hbytesj := hprog.bytes.symm.trans hbytes
    have hdepth : Jit.checkCallDepth code fj.ebx = none := by
      rw [hone]
      simp [Jit.checkCallDepth, hbytesj, sub32]
    simp [Interpreter.finish, Jit.badCallIndirect, hdepth]

end

/-- The backends accept the module with a limit on the depth: in every run of both from the same
limit, in which no host function faults and none that `execute` runs directly changes the limit,
they overflow at the same calls if and only if no step is starved of depth. -/
theorem call_depth_overflow_agrees_iff {o : Options} {bytes : List UInt8}
    {sti : ParserState bitcodeWriter} {stj : ParserState (machineWriter o.maxStackBytes.isSome)}
    (hi : parseModule bitcodeWriter o bytes = .ok sti)
    (hj : parseModule (machineWriter o.maxStackBytes.isSome) o bytes = .ok stj)
    {limit : Nat} {last : Pair} {steps : List (TraceStep Pair Event PairStep)}
    (h : Trace (step sti.mod (JitModule.ofParser stj)) PairStep.next (Pair.start limit) steps last)
    (hfault : ∀ s ∈ steps, ¬ HostFaults s.before s.event)
    (hlimit : ∀ s ∈ steps, ¬ DirectLimit s.before s.event) :
    (∀ s ∈ steps, s.outcome.interp.overflow = s.outcome.jit.overflow) ↔
      ∀ s ∈ steps, ¬ Starved sti.mod s.before s.event := by
  have hprog := sameProgram_of_parse hi hj
  have hall : (∀ s ∈ steps, s.outcome.interp.overflow = s.outcome.jit.overflow ∧
      ¬ HostFaults s.before s.event ∧ ¬ DirectLimit s.before s.event) ↔
        ∀ s ∈ steps, Allowed sti.mod s.before s.event := by
    refine h.forall_iff (P := Synced sti.mod) (Pair.start_synced _ _) ?_ ?_
    · intro p event o hsynced hstep hallowed
      exact (step_sound hsynced hprog hstep hallowed).synced
    · intro p event o hsynced hstep
      constructor
      · rintro ⟨hsame, hfault, hlimit⟩
        refine ⟨hfault, hlimit, fun hstarved => ?_⟩
        exact hstarved.overflows hsynced hprog hstep hsame
      · intro hallowed
        exact ⟨(step_sound hsynced hprog hstep hallowed).agrees.overflow, hallowed.fault,
          hallowed.limit⟩
  constructor
  · intro hsame s hs
    exact (hall.mp (fun s hs => ⟨hsame s hs, hfault s hs, hlimit s hs⟩) s hs).starved
  · intro hstarved s hs
    exact (hall.mpr (fun s hs => ⟨hfault s hs, hlimit s hs, hstarved s hs⟩) s hs).1

/-- An imported function, and one that calls it. -/
def limitSample : List UInt8 :=
  [0x00, 0x61, 0x73, 0x6d, 0x01, 0x00, 0x00, 0x00,
    0x01, 0x04, 0x01, 0x60, 0x00, 0x00,
    0x02, 0x07, 0x01, 0x01, 0x6d, 0x01, 0x66, 0x00, 0x00,
    0x03, 0x02, 0x01, 0x00,
    0x0a, 0x06, 0x01, 0x04, 0x00, 0x10, 0x00, 0x0b]

/-- The code calls the host function, which executes the code again. -/
def limitReentry : List Event := [.execute 1 1 (some 0), .call 0, .execute 1 1 (some 0)]

/-- A run of both backends over the events, and which of the steps overflow. -/
def overflows (o : Options) (bytes : List UInt8) (limit : Nat) (events : List Event) :
    Option (List (Bool × Bool)) := do
  let sti ← (parseModule bitcodeWriter o bytes).toOption
  let stj ← (parseModule (machineWriter o.maxStackBytes.isSome) o bytes).toOption
  let (steps, _) ← runEvents (step sti.mod (JitModule.ofParser stj)) PairStep.next events
    (Pair.start limit)
  some (steps.map fun s => (s.outcome.interp.overflow, s.outcome.jit.overflow))

theorem overflows_eq_some {o : Options} {bytes : List UInt8} {limit : Nat} {events : List Event}
    {result : List (Bool × Bool)} (h : overflows o bytes limit events = some result) :
    ∃ sti stj steps last, parseModule bitcodeWriter o bytes = .ok sti ∧
      parseModule (machineWriter o.maxStackBytes.isSome) o bytes = .ok stj ∧
      runEvents (step sti.mod (JitModule.ofParser stj)) PairStep.next events (Pair.start limit) =
        some (steps, last) ∧
      steps.map (fun s => (s.outcome.interp.overflow, s.outcome.jit.overflow)) = result := by
  simp only [overflows, Option.bind_eq_bind, Option.bind_eq_some_iff, toOption_eq_some,
    Option.some.injEq] at h
  obtain ⟨sti, hi, stj, hj, ⟨steps, last⟩, hrun, hresult⟩ := h
  exact ⟨sti, stj, steps, last, hi, hj, hrun, hresult⟩

/-- A step of the run overflows in one backend only. -/
theorem disagrees_of_overflows {steps : List (TraceStep Pair Event PairStep)}
    {result : List (Bool × Bool)} {i j : Bool}
    (hresult : steps.map (fun s => (s.outcome.interp.overflow, s.outcome.jit.overflow)) = result)
    (hmem : (i, j) ∈ result) (hne : i ≠ j) :
    ¬ ∀ s ∈ steps, s.outcome.interp.overflow = s.outcome.jit.overflow := by
  intro hall
  rw [← hresult] at hmem
  obtain ⟨s, hs, heq⟩ := List.mem_map.mp hmem
  obtain ⟨hinterp, hjit⟩ := Prod.mk.inj heq
  have hsame := hall s hs
  rw [hinterp, hjit] at hsame
  exact hne hsame

/-- With a limit of 2, the inner `execute` overflows in the interpreter only. -/
theorem limitReentry_not_agrees : ∃ sti stj steps last,
    parseModule bitcodeWriter {} limitSample = .ok sti ∧
      parseModule (machineWriter false) {} limitSample = .ok stj ∧
      Trace (step sti.mod (JitModule.ofParser stj)) PairStep.next (Pair.start 2) steps last ∧
      ¬ ∀ s ∈ steps, s.outcome.interp.overflow = s.outcome.jit.overflow := by
  obtain ⟨sti, stj, steps, last, hi, hj, hrun, hresult⟩ := overflows_eq_some
    (show overflows {} limitSample 2 limitReentry =
      some [(false, false), (false, false), (true, false)] by decide +kernel)
  exact ⟨sti, stj, steps, last, hi, hj, .of_runEvents hrun,
    disagrees_of_overflows (i := true) (j := false) hresult (by simp) (by decide)⟩

/-- A function whose `call_indirect` finds an empty table. -/
def tableSample : List UInt8 :=
  [0x00, 0x61, 0x73, 0x6d, 0x01, 0x00, 0x00, 0x00,
    0x01, 0x04, 0x01, 0x60, 0x00, 0x00,
    0x03, 0x02, 0x01, 0x00,
    0x04, 0x04, 0x01, 0x70, 0x00, 0x00,
    0x0a, 0x09, 0x01, 0x07, 0x00, 0x41, 0x05, 0x11, 0x00, 0x00, 0x0b]

/-- With a limit of 1, its `call_indirect` overflows in the machine code only. -/
theorem tableSample_not_agrees : ∃ sti stj steps last,
    parseModule bitcodeWriter {} tableSample = .ok sti ∧
      parseModule (machineWriter false) {} tableSample = .ok stj ∧
      Trace (step sti.mod (JitModule.ofParser stj)) PairStep.next (Pair.start 1) steps last ∧
      ¬ ∀ s ∈ steps, s.outcome.interp.overflow = s.outcome.jit.overflow := by
  obtain ⟨sti, stj, steps, last, hi, hj, hrun, hresult⟩ := overflows_eq_some
    (show overflows {} tableSample 1 [.execute 1 0 (some 0), .badCallIndirect] =
      some [(false, false), (false, true)] by decide +kernel)
  exact ⟨sti, stj, steps, last, hi, hj, .of_runEvents hrun,
    disagrees_of_overflows (i := false) (j := true) hresult (by simp) (by decide)⟩

theorem event_of_run {mod : Module} {code : JitModule} {events : List Event} {p last : Pair}
    {steps : List (TraceStep Pair Event PairStep)}
    (h : runEvents (step mod code) PairStep.next events p = some (steps, last))
    {P : Pair → Event → Prop} (hevents : ∀ p, ∀ event ∈ events, ¬ P p event) :
    ∀ s ∈ steps, ¬ P s.before s.event :=
  fun s hs => hevents s.before s.event (Trace.event_mem_of_runEvents h hs)

/-- With a limit of 3 both enter the inner `execute`. -/
theorem limitReentry_agrees : ∃ sti stj steps last,
    parseModule bitcodeWriter {} limitSample = .ok sti ∧
      parseModule (machineWriter false) {} limitSample = .ok stj ∧
      Trace (step sti.mod (JitModule.ofParser stj)) PairStep.next (Pair.start 3) steps last ∧
      (∀ s ∈ steps, s.outcome.interp.overflow = s.outcome.jit.overflow) ∧
      ∀ s ∈ steps, ¬ Starved sti.mod s.before s.event := by
  obtain ⟨sti, stj, steps, last, hi, hj, hrun, hresult⟩ := overflows_eq_some
    (show overflows {} limitSample 3 limitReentry =
      some [(false, false), (false, false), (false, false)] by decide +kernel)
  have hsame : ∀ s ∈ steps, s.outcome.interp.overflow = s.outcome.jit.overflow := by
    intro s hs
    have hmem := List.mem_map_of_mem (f := fun s : TraceStep Pair Event PairStep =>
      (s.outcome.interp.overflow, s.outcome.jit.overflow)) hs
    rw [hresult] at hmem
    have heq : (s.outcome.interp.overflow, s.outcome.jit.overflow) = (false, false) := by
      simpa using hmem
    rw [(Prod.mk.inj heq).1, (Prod.mk.inj heq).2]
  refine ⟨sti, stj, steps, last, hi, hj, .of_runEvents hrun, hsame,
    (call_depth_overflow_agrees_iff hi hj (.of_runEvents hrun) ?_ ?_).mp hsame⟩
  · refine event_of_run hrun ?_
    rintro p event hevent ⟨rfl, -⟩
    simp [limitReentry] at hevent
  · refine event_of_run hrun ?_
    rintro p event hevent ⟨limit, rfl, -⟩
    simp [limitReentry] at hevent

/-- The backends accept the module with a limit in bytes: in every run of both from the same limit,
in which no host function faults and none that `execute` runs directly changes the limit, they
overflow at the same calls, and every return restores the counter before the call in both. -/
theorem stack_bytes_overflow_agrees {o : Options} (hbytes : o.maxStackBytes.isSome = true)
    {bytes : List UInt8} {sti : ParserState bitcodeWriter}
    {stj : ParserState (machineWriter o.maxStackBytes.isSome)}
    (hi : parseModule bitcodeWriter o bytes = .ok sti)
    (hj : parseModule (machineWriter o.maxStackBytes.isSome) o bytes = .ok stj)
    {limit : Nat} {last : Pair} {steps : List (TraceStep Pair Event PairStep)}
    (h : Trace (step sti.mod (JitModule.ofParser stj)) PairStep.next (Pair.start limit) steps last)
    (hfault : ∀ s ∈ steps, ¬ HostFaults s.before s.event)
    (hlimit : ∀ s ∈ steps, ¬ DirectLimit s.before s.event) :
    ∀ s ∈ steps, Agrees s.outcome ∧
      ∀ event, (interpStep sti.mod event s.before.interp).isSome =
        (Jit.step (JitModule.ofParser stj) event s.before.jit).isSome := by
  have hprog := sameProgram_of_parse hi hj
  have hmode : sti.mod.stackLimitIsBytes = true := (parseModule_same hi hj).2.1.trans hbytes
  refine h.forall_of (P := Synced sti.mod) (A := fun s => Allowed sti.mod s.before s.event)
    (Pair.start_synced _ _) ?_ ?_
  · intro p event o hsynced hstep hallowed
    have hsound := step_sound hsynced hprog hstep hallowed
    exact ⟨hsound.synced, hsound.agrees, fun event => hsynced.isSome_eq event⟩
  · intro s hs
    refine ⟨hfault s hs, hlimit s hs, ?_⟩
    rintro ⟨hdepth, -⟩
    rw [hmode] at hdepth
    cases hdepth

/-- A limit in bytes. -/
def limitOptions : Options :=
  { maxStackBytes := some ⟨32, 64, by decide⟩, maxFuncLocalBytes := some ⟨32, 64, by decide⟩ }

/-- A limit of 40 holds two frames of the code. -/
theorem limitReentry_agrees_bytes : ∃ sti stj steps last,
    parseModule bitcodeWriter limitOptions limitSample = .ok sti ∧
      parseModule (machineWriter true) limitOptions limitSample = .ok stj ∧
      Trace (step sti.mod (JitModule.ofParser stj)) PairStep.next (Pair.start 40) steps last ∧
      ∀ s ∈ steps, Agrees s.outcome := by
  obtain ⟨sti, stj, steps, last, hi, hj, hrun, -⟩ := overflows_eq_some
    (show overflows limitOptions limitSample 40 (limitReentry ++ [.call 0, .execute 1 1 (some 0)]) =
      some [(false, false), (false, false), (false, false), (false, false), (true, true)] by
        decide +kernel)
  refine ⟨sti, stj, steps, last, hi, hj, .of_runEvents hrun, fun s hs =>
    (stack_bytes_overflow_agrees rfl hi hj (.of_runEvents hrun) ?_ ?_ s hs).1⟩
  · refine event_of_run hrun ?_
    rintro p event hevent ⟨rfl, -⟩
    simp [limitReentry] at hevent
  · refine event_of_run hrun ?_
    rintro p event hevent ⟨limit, rfl, -⟩
    simp [limitReentry] at hevent

/-- The host function is executed and sets the limit to 0; then the code is executed. -/
def directLimit : List Event := [.execute 1 0 (some 0), .setLimit 0, .ret, .execute 1 1 (some 0)]

/-- The limit stays 0 in the machine code only. -/
theorem directLimit_not_agrees : ∃ sti stj steps last,
    parseModule bitcodeWriter limitOptions limitSample = .ok sti ∧
      parseModule (machineWriter true) limitOptions limitSample = .ok stj ∧
      Trace (step sti.mod (JitModule.ofParser stj)) PairStep.next (Pair.start 40) steps last ∧
      ¬ ∀ s ∈ steps, Agrees s.outcome := by
  obtain ⟨sti, stj, steps, last, hi, hj, hrun, hresult⟩ := overflows_eq_some
    (show overflows limitOptions limitSample 40 directLimit =
      some [(false, false), (false, false), (false, false), (false, true)] by decide +kernel)
  refine ⟨sti, stj, steps, last, hi, hj, .of_runEvents hrun, fun hall => ?_⟩
  exact disagrees_of_overflows (i := false) (j := true) hresult (by simp) (by decide)
    fun s hs => (hall s hs).overflow

end Lockstep

end EosVm
