import EosVm.Lib.Interleaving

/-!
# Timed runs

`backend::timed_run` with its `watchdog` and `signal_handler`, for threads whose backends share a
module. A step of a thread is one access to what another thread can see: the protection of the code,
the thread's atomic `timed_run_has_timed_out`, and the mutex of its watchdog. Time may pass at any
point. `f` does anything, but starts no `timed_run` of its own; a critical section of the destructor
of the guard is one step.
-/

set_option autoImplicit false

namespace EosVm

/-- `watchdog::guard::state_t`. -/
inductive RunState
  | running | interrupted | stopped
  deriving DecidableEq, Repr

/-- Where the thread of the watchdog is in `runner`. -/
inductive Runner
  -- no such thread: `null_watchdog`
  | absent
  -- in `wait_until`, which holds no mutex
  | waiting
  -- with the mutex, before `_timed_out.store(true)`
  | interrupting
  -- with the mutex, before `disable_code`
  | disabling
  | finished
  deriving DecidableEq, Repr

/-- How `f` ends. The last two are both a `wasm_memory_exception`: for an access outside of the
memory, and for a fault in the code. -/
inductive Ending
  | returned | thrown | bounds | code
  deriving DecidableEq, Repr

/-- How `timed_run` ends; `thrown` is an exception of another type. -/
inductive TimedResult
  | returned | thrown | memory | timeout
  deriving DecidableEq, Repr

/-- Where the thread itself is. -/
inductive Exec
  -- not in `timed_run`; how the last one ended
  | outside (result : Option TimedResult)
  -- in `f`, outside of the code
  | host
  -- in the code
  | wasm
  -- in `signal_handler`, after a fault in the code
  | handler
  -- `f` has ended, before `~guard` takes the mutex
  | unwinding (e : Ending)
  -- before `_timer.join()`
  | joining (e : Ending)
  -- the guard is gone
  | catching (e : Ending)
  -- before `_timed_out.load()` of `reenable_code`
  | leaving (r : TimedResult)
  -- before `enable_code`
  | enabling (r : TimedResult)
  -- before `_timed_out.store(false)`
  | clearing (r : TimedResult)
  deriving DecidableEq, Repr

/-- A thread and the thread of its watchdog. -/
structure TimedThread where
  exec : Exec := .outside none
  /-- `timed_run_has_timed_out`. -/
  timedOut : Bool := false
  runner : Runner := .absent
  runState : RunState := .stopped
  /-- The callback has been called in this `timed_run`. Nothing reads this. -/
  called : Bool := false
  deriving DecidableEq, Repr

/-- A step of a thread; the last four are steps of its watchdog. -/
inductive TimedAction
  | start (watched : Bool)
  | enter
  | run
  | call
  | fault
  | handle (caught : Bool)
  | finish (e : Ending)
  | stop
  | join
  | leave
  | reenable
  | enable
  | clear
  | expire
  | wake
  | store
  | disable
  deriving DecidableEq, Repr

namespace TimedThread

/-- The runner holds the mutex of the guard. -/
def Locked (t : TimedThread) : Prop := t.runner = .interrupting ∨ t.runner = .disabling

instance (t : TimedThread) : Decidable t.Locked := inferInstanceAs (Decidable (_ ∨ _))

/-- What `timed_run` makes of the end of `f`. -/
def caught (timedOut : Bool) : Ending → TimedResult
  | .returned => .returned
  | .thrown => .thrown
  | .bounds => if timedOut then .timeout else .memory
  | .code => if timedOut then .timeout else .memory

/-- A step, with the protection of the code before and after it. -/
def step (a : TimedAction) (enabled : Bool) (t : TimedThread) : Option (Bool × TimedThread) :=
  match a, t.exec with
  | .start watched, .outside _ => some (enabled, { t with
      exec := .host
      runner := if watched then .waiting else .absent
      runState := .running
      called := false })
  | .enter, .host => some (enabled, { t with exec := .wasm })
  | .run, .wasm => if enabled then some (enabled, t) else none
  | .call, .wasm => if enabled then some (enabled, { t with exec := .host }) else none
  | .fault, .wasm => if enabled then none else some (enabled, { t with exec := .handler })
  | .handle caught, .handler =>
    -- without a timeout of its own the thread tries again; after `siglongjmp` a host function may
    -- catch the exception
    if t.timedOut then some (enabled, { t with exec := if caught then .host else .unwinding .code })
    else some (enabled, { t with exec := .wasm })
  | .finish e, .host => if e = .code then none else some (enabled, { t with exec := .unwinding e })
  | .finish e, .wasm =>
    if e = .code then none else if enabled then
      some (enabled, { t with exec := .unwinding e }) else none
  | .stop, .unwinding e =>
    if t.Locked then none else some (enabled, { t with exec := .joining e, runState := .stopped })
  | .join, .joining e =>
    if t.runner = .finished ∨ t.runner = .absent then
      some (enabled, { t with exec := .catching e }) else none
  | .leave, .catching e => some (enabled, { t with exec := .leaving (caught t.timedOut e) })
  | .reenable, .leaving r =>
    some (enabled, { t with exec := if t.timedOut then .enabling r else .outside (some r) })
  | .enable, .enabling r => some (true, { t with exec := .clearing r })
  | .clear, .clearing r => some (enabled, { t with exec := .outside (some r), timedOut := false })
  | .expire, _ =>
    if t.runner = .waiting ∧ t.runState = .running then
      some (enabled, { t with runner := .interrupting, runState := .interrupted, called := true })
    else none
  | .wake, _ =>
    if t.runner = .waiting ∧ t.runState ≠ .running then
      some (enabled, { t with runner := .finished }) else none
  | .store, _ =>
    if t.runner = .interrupting then
      some (enabled, { t with runner := .disabling, timedOut := true }) else none
  | .disable, _ => if t.runner = .disabling then
      some (false, { t with runner := .finished }) else none
  | _, _ => none

end TimedThread

/-- The threads and the protection of the code that they share. -/
abbrev TimedRuns (ι : Type) := Lib.Parties ι Bool TimedThread

/-- No thread is in `timed_run`, and the code can be executed. -/
def TimedRuns.initial (ι : Type) : TimedRuns ι := { shared := true, owned := fun _ => {} }

/-- A step of one of the threads. -/
abbrev TimedRuns.step {ι : Type} [DecidableEq ι] (e : ι × TimedAction)
    (s : TimedRuns ι) : Option (TimedRuns ι) :=
  Lib.interleave TimedThread.step e s

end EosVm
