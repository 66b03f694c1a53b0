import EosVm.Source.TimedRun

/-!
# Timed runs end

Threads that share a module interrupt one another by taking the protection of the code away. Whoever
has taken it away gives it back, a thread sees a timeout only of its own watchdog, and where a
timeout is lost another thread has given the code back.
-/

set_option autoImplicit false

namespace EosVm

open Lib

namespace TimedThread

/-- What a step can do. -/
inductive Move (t : TimedThread) (en : Bool) : TimedAction → Bool → TimedThread → Prop
  | start (watched : Bool) {r : Option TimedResult} (hexec : t.exec = .outside r) :
    Move t en (.start watched) en { t with
      exec := .host
      runner := if watched then .waiting else .absent
      runState := .running
      called := false }
  | enter (hexec : t.exec = .host) : Move t en .enter en { t with exec := .wasm }
  | run (hexec : t.exec = .wasm) (hen : en = true) : Move t en .run en t
  | call (hexec : t.exec = .wasm) (hen : en = true) : Move t en .call en { t with exec := .host }
  | fault (hexec : t.exec = .wasm) (hen : en = false) :
      Move t en .fault en { t with exec := .handler }
  | retry (c : Bool) (hexec : t.exec = .handler) (hout : t.timedOut = false) :
    Move t en (.handle c) en { t with exec := .wasm }
  | jump (hexec : t.exec = .handler) (hout : t.timedOut = true) :
    Move t en (.handle false) en { t with exec := .unwinding .code }
  | caught (hexec : t.exec = .handler) (hout : t.timedOut = true) :
    Move t en (.handle true) en { t with exec := .host }
  | finish {e : Ending} (hexec : t.exec = .host ∨ t.exec = .wasm ∧ en = true) (he : e ≠ .code) :
    Move t en (.finish e) en { t with exec := .unwinding e }
  | stop {e : Ending} (hexec : t.exec = .unwinding e) (hlock : ¬ t.Locked) :
    Move t en .stop en { t with exec := .joining e, runState := .stopped }
  | join {e : Ending} (hexec : t.exec = .joining e)
      (hrun : t.runner = .finished ∨ t.runner = .absent) :
    Move t en .join en { t with exec := .catching e }
  | leave {e : Ending} (hexec : t.exec = .catching e) :
    Move t en .leave en { t with exec := .leaving (TimedThread.caught t.timedOut e) }
  | recover {r : TimedResult} (hexec : t.exec = .leaving r) (hout : t.timedOut = true) :
    Move t en .reenable en { t with exec := .enabling r }
  | done {r : TimedResult} (hexec : t.exec = .leaving r) (hout : t.timedOut = false) :
    Move t en .reenable en { t with exec := .outside (some r) }
  | enable {r : TimedResult} (hexec : t.exec = .enabling r) :
    Move t en .enable true { t with exec := .clearing r }
  | clear {r : TimedResult} (hexec : t.exec = .clearing r) :
    Move t en .clear en { t with exec := .outside (some r), timedOut := false }
  | expire (hrun : t.runner = .waiting) (hstate : t.runState = .running) :
    Move t en .expire en
      { t with runner := .interrupting, runState := .interrupted, called := true }
  | wake (hrun : t.runner = .waiting) (hstate : t.runState ≠ .running) :
    Move t en .wake en { t with runner := .finished }
  | store (hrun : t.runner = .interrupting) :
    Move t en .store en { t with runner := .disabling, timedOut := true }
  | disable (hrun : t.runner = .disabling) : Move t en .disable false { t with runner := .finished }

theorem move_of_step {a : TimedAction} {en en' : Bool} {t t' : TimedThread}
    (h : step a en t = some (en', t')) :
    Move t en a en' t' := by
  unfold step at h
  split at h
  case h_1 watched r hexec => cases h; exact .start watched hexec
  case h_2 hexec => cases h; exact .enter hexec
  case h_3 hexec => split at h <;> cases h; exact .run hexec ‹_›
  case h_4 hexec => split at h <;> cases h; exact .call hexec ‹_›
  case h_5 hexec => split at h <;> cases h; exact .fault hexec (Bool.eq_false_iff.mpr ‹_›)
  case h_6 c hexec =>
    split at h <;> cases h
    · cases c
      · exact .jump hexec ‹_›
      · exact .caught hexec ‹_›
    · exact .retry c hexec (Bool.eq_false_iff.mpr ‹_›)
  case h_7 e hexec => split at h <;> cases h; exact .finish (.inl hexec) ‹_›
  case h_8 e hexec =>
    split at h
    · cases h
    · split at h <;> cases h
      exact .finish (.inr ⟨hexec, ‹_›⟩) ‹_›
  case h_9 e hexec => split at h <;> cases h; exact .stop hexec ‹_›
  case h_10 e hexec => split at h <;> cases h; exact .join hexec ‹_›
  case h_11 e hexec => cases h; exact .leave hexec
  case h_12 r hexec =>
    cases h
    split
    · exact .recover hexec ‹_›
    · exact .done hexec (Bool.eq_false_iff.mpr ‹_›)
  case h_13 r hexec => cases h; exact .enable hexec
  case h_14 r hexec => cases h; exact .clear hexec
  case h_15 => split at h <;> cases h; exact .expire (And.left ‹_›) (And.right ‹_›)
  case h_16 => split at h <;> cases h; exact .wake (And.left ‹_›) (And.right ‹_›)
  case h_17 => split at h <;> cases h; exact .store ‹_›
  case h_18 => split at h <;> cases h; exact .disable ‹_›
  case h_19 => cases h

/-- No thread of the watchdog is left. -/
def Joined (t : TimedThread) : Prop := t.runner = .absent ∨ t.runner = .finished

/-- The watchdog of a guard in scope: the flag is set once the callback has stored it. -/
def Watched (t : TimedThread) : Prop :=
  match t.runner with
  | .absent => t.called = false ∧ t.timedOut = false
  | .waiting => t.called = false ∧ t.timedOut = false ∧ t.runState = .running
  | .interrupting => t.called = true ∧ t.timedOut = false
  | .disabling | .finished => t.called = true ∧ t.timedOut = true

/-- The watchdog of a guard that has been stopped. -/
def Stopped (t : TimedThread) : Prop :=
  t.timedOut = t.called ∧
    (t.Joined ∨ t.runner = .waiting ∧ t.runState = .stopped ∧ t.called = false)

/-- The flag and the watchdog where the thread is. -/
def OkAt (t : TimedThread) : Exec → Prop
  | .outside r => t.Joined ∧ t.timedOut = false ∧ (r = some .timeout → t.called = true) ∧
      (r = some .memory → t.called = false)
  | .host | .wasm | .handler => t.Watched
  | .unwinding e => t.Watched ∧ (e = .code → t.timedOut = true)
  | .joining e => t.Stopped ∧ (e = .code → t.timedOut = true)
  | .catching e => t.Joined ∧ t.timedOut = t.called ∧ (e = .code → t.timedOut = true)
  | .leaving r => t.Joined ∧ t.timedOut = t.called ∧ (r = .timeout → t.timedOut = true) ∧
      (r = .memory → t.timedOut = false)
  | .enabling r | .clearing r => t.Joined ∧ t.timedOut = true ∧ t.called = true ∧ r ≠ .memory

def Ok (t : TimedThread) : Prop := t.OkAt t.exec

variable {a : TimedAction} {en en' : Bool} {t t' : TimedThread}

/-- The guard is stopped while its mutex is free. -/
theorem Watched.stopped (h : t.Watched) (hlock : ¬ t.Locked) :
    t.timedOut = t.called ∧ (t.Joined ∨ t.runner = .waiting ∧ t.called = false) := by
  unfold Watched at h
  unfold Locked at hlock
  unfold Joined
  cases hrun : t.runner <;> rw [hrun] at h <;> simp_all

/-- What `timed_run` makes of a timeout. -/
theorem caught_spec {out : Bool} {e : Ending} :
    (caught out e = .timeout → out = true) ∧ (caught out e = .memory → out = false) := by
  cases e <;> cases out <;> simp [caught]

/-- A thread keeps its flag and its watchdog together. -/
theorem ok_step (h : t.Ok) (hstep : step a en t = some (en', t')) : t'.Ok := by
  unfold Ok at h ⊢
  cases move_of_step hstep with
  | start watched hexec =>
    rw [hexec] at h
    obtain ⟨-, hflag, -⟩ := h
    cases watched
    · exact ⟨rfl, hflag⟩
    · exact ⟨rfl, hflag, rfl⟩
  | enter hexec => rwa [hexec] at h
  | run hexec => exact h
  | call hexec => rwa [hexec] at h
  | fault hexec => rwa [hexec] at h
  | retry _ hexec => rwa [hexec] at h
  | caught hexec => rwa [hexec] at h
  | jump hexec hout =>
    rw [hexec] at h
    exact ⟨h, fun _ => hout⟩
  | finish hexec he =>
    have hwatched : t.Watched := by
      rcases hexec with hhost | ⟨hwasm, -⟩
      · rwa [hhost] at h
      · rwa [hwasm] at h
    exact ⟨hwatched, fun heq => absurd heq he⟩
  | stop hexec hlock =>
    rw [hexec] at h
    obtain ⟨hwatched, hcode⟩ := h
    obtain ⟨hflag, hjoined⟩ := hwatched.stopped hlock
    exact ⟨⟨hflag, hjoined.imp_right fun hwaiting => ⟨hwaiting.1, rfl, hwaiting.2⟩⟩, hcode⟩
  | join hexec hrun =>
    rw [hexec] at h
    obtain ⟨⟨hflag, -⟩, hcode⟩ := h
    exact ⟨hrun.symm, hflag, hcode⟩
  | leave hexec =>
    rw [hexec] at h
    obtain ⟨hjoined, hflag, -⟩ := h
    exact ⟨hjoined, hflag, caught_spec.1, caught_spec.2⟩
  | recover hexec hout =>
    rw [hexec] at h
    obtain ⟨hjoined, hflag, -, hmemory⟩ := h
    refine ⟨hjoined, hout, hflag ▸ hout, fun heq => ?_⟩
    exact Bool.false_ne_true ((hmemory heq).symm.trans hout)
  | done hexec hout =>
    rw [hexec] at h
    obtain ⟨hjoined, hflag, htimeout, -⟩ := h
    refine ⟨hjoined, hout, fun heq => ?_, fun _ => hflag ▸ hout⟩
    exact absurd ((htimeout (Option.some.inj heq)).symm.trans hout) Bool.false_ne_true.symm
  | enable hexec => rwa [hexec] at h
  | clear hexec =>
    rw [hexec] at h
    obtain ⟨hjoined, -, hcalled, hmemory⟩ := h
    exact ⟨hjoined, rfl, fun _ => hcalled, fun heq => absurd (Option.some.inj heq) hmemory⟩
  | expire hrun hstate => cases hexec : t.exec <;> grind [OkAt, Watched, Joined, Stopped]
  | wake hrun hstate => cases hexec : t.exec <;> grind [OkAt, Watched, Joined, Stopped]
  | store hrun => cases hexec : t.exec <;> grind [OkAt, Watched, Joined, Stopped]
  | disable hrun => cases hexec : t.exec <;> grind [OkAt, Watched, Joined, Stopped]

/-- The thread is in `timed_run` and has not come to `enable_code`. -/
def Inside (t : TimedThread) : Prop :=
  match t.exec with
  | .outside _ | .clearing _ => False
  | _ => True

/-- The thread has disabled the code and has not enabled it again. -/
structure Answers (t : TimedThread) : Prop where
  inside : t.Inside
  runner : t.runner = .finished
  timedOut : t.timedOut = true

/-- How many steps the thread is away from `enable_code` when the code is disabled. -/
def rank (t : TimedThread) : Nat :=
  match t.exec with
  | .host => 7
  | .wasm => 6
  | .handler => 5
  | .unwinding _ => 4
  | .joining _ => 3
  | .catching _ => 2
  | .leaving _ => 1
  | _ => 0

/-- While the code stays disabled, the thread that answers for it can only come closer to
`enable_code`, unless a host function catches the exception. -/
theorem answers_step (h : t.Answers) (hstep : step a false t = some (false, t')) :
    t'.Answers ∧ (a ≠ .handle true → rank t' < rank t) := by
  obtain ⟨hinside, hrunner, hout⟩ := h
  unfold Inside at hinside
  cases move_of_step hstep with
  | start watched hexec => rw [hexec] at hinside; exact hinside.elim
  | enter hexec => exact ⟨⟨trivial, hrunner, hout⟩, fun _ => by simp [rank, hexec]⟩
  | run _ hen => cases hen
  | call _ hen => cases hen
  | fault hexec => exact ⟨⟨trivial, hrunner, hout⟩, fun _ => by simp [rank, hexec]⟩
  | retry c hexec hnot => exact absurd (hnot.symm.trans hout) Bool.false_ne_true
  | jump hexec => exact ⟨⟨trivial, hrunner, hout⟩, fun _ => by simp [rank, hexec]⟩
  | caught hexec => exact ⟨⟨trivial, hrunner, hout⟩, fun hnot => absurd rfl hnot⟩
  | finish hexec =>
    rcases hexec with hexec | ⟨-, hen⟩
    · exact ⟨⟨trivial, hrunner, hout⟩, fun _ => by simp [rank, hexec]⟩
    · cases hen
  | stop hexec => exact ⟨⟨trivial, hrunner, hout⟩, fun _ => by simp [rank, hexec]⟩
  | join hexec => exact ⟨⟨trivial, hrunner, hout⟩, fun _ => by simp [rank, hexec]⟩
  | leave hexec => exact ⟨⟨trivial, hrunner, hout⟩, fun _ => by simp [rank, hexec]⟩
  | recover hexec => exact ⟨⟨trivial, hrunner, hout⟩, fun _ => by simp [rank, hexec]⟩
  | done hexec hnot => exact absurd (hnot.symm.trans hout) Bool.false_ne_true
  | clear hexec => rw [hexec] at hinside; exact hinside.elim
  | expire hrun => rw [hrunner] at hrun; cases hrun
  | wake hrun => rw [hrunner] at hrun; cases hrun
  | store hrun => rw [hrunner] at hrun; cases hrun
  | disable hrun => rw [hrunner] at hrun; cases hrun

/-- The guard is in scope and has not been stopped. -/
def Guarded (t : TimedThread) : Prop :=
  match t.exec with
  | .host | .wasm | .handler | .unwinding _ => True
  | _ => False

theorem Guarded.inside (h : t.Guarded) : t.Inside := by
  unfold Guarded at h
  unfold Inside
  split at h
  case h_5 => exact h.elim
  all_goals rw [‹t.exec = _›]; trivial

/-- The callback runs while the guard is in scope. -/
theorem Ok.guarded (hok : t.Ok) (hlock : t.Locked) : t.Guarded ∧ t.Watched := by
  unfold Ok at hok
  have hjoined : ¬ t.Joined := by
    rcases hlock with hrun | hrun <;> rw [Joined, hrun] <;> simp
  have hstopped : ¬ t.Stopped := by
    rintro ⟨-, hdone | ⟨hwaiting, -⟩⟩
    · exact hjoined hdone
    · rcases hlock with hrun | hrun <;> cases hrun.symm.trans hwaiting
  unfold Guarded
  cases hexec : t.exec <;> rw [hexec] at hok
  case outside => exact absurd hok.1 hjoined
  case joining => exact absurd hok.1 hstopped
  case catching => exact absurd hok.1 hjoined
  case leaving => exact absurd hok.1 hjoined
  case enabling => exact absurd hok.1 hjoined
  case clearing => exact absurd hok.1 hjoined
  case unwinding => exact ⟨trivial, hok.1⟩
  all_goals exact ⟨trivial, hok⟩

theorem disable_answers (hok : t.Ok) (hrun : t.runner = .disabling) :
    Answers { t with runner := .finished } := by
  obtain ⟨hguarded, hwatched⟩ := hok.guarded (.inr hrun)
  unfold Watched at hwatched
  rw [hrun] at hwatched
  exact ⟨hguarded.inside, rfl, hwatched.2⟩

theorem locked_of_callback (hstep : step a en t = some (en', t'))
    (ha : a = .store ∨ a = .disable) : t.Locked := by
  rcases ha with rfl | rfl
  · cases move_of_step hstep with
    | store hrun => exact .inl hrun
  · cases move_of_step hstep with
    | disable hrun => exact .inr hrun

/-- A fault in the code that is not tried again is a timeout. -/
theorem timeout_of_fault (hok : t.Ok) (hexec : t.exec = .catching .code)
    (hstep : step .leave en t = some (en', t')) : t'.exec = .leaving .timeout := by
  unfold Ok at hok
  rw [hexec] at hok
  obtain ⟨-, -, hcode⟩ := hok
  cases move_of_step hstep with
  | leave hexec' =>
    cases hexec.symm.trans hexec'
    rw [hcode rfl]
    rfl

/-- Only its own watchdog makes a thread answer for the code. -/
theorem answers_kept (hok : t.Ok) (hstep : step a en t = some (false, t'))
    (h : en = false → t.Answers) :
    t'.Answers := by
  cases en with
  | false => exact (answers_step (h rfl) hstep).1
  | true =>
    generalize hoff : false = off at hstep
    cases move_of_step hstep with
    | disable hrun => exact disable_answers hok hrun
    | _ => cases hoff

/-- The thread that answers for disabled code can move. -/
theorem answers_can_move (h : t.Answers) : ∃ a r, step a false t = some r := by
  obtain ⟨hinside, hrunner, hout⟩ := h
  unfold Inside at hinside
  cases hexec : t.exec <;> rw [hexec] at hinside
  case host => exact ⟨.enter, _, by simp only [step, hexec]; rfl⟩
  case wasm => exact ⟨.fault, _, by simp only [step, hexec]; rfl⟩
  case handler => exact ⟨.handle false, _, by simp only [step, hexec, hout]; rfl⟩
  case unwinding e => exact ⟨.stop, _, by simp [step, hexec, Locked, hrunner]; rfl⟩
  case joining e => exact ⟨.join, _, by simp [step, hexec, hrunner]; rfl⟩
  case catching e => exact ⟨.leave, _, by simp only [step, hexec]; rfl⟩
  case leaving r => exact ⟨.reenable, _, by simp only [step, hexec]; rfl⟩
  case enabling r => exact ⟨.enable, _, by simp only [step, hexec]; rfl⟩
  all_goals exact hinside.elim

/-- Only `enable_code` enables the code. -/
theorem enabled_step (hstep : step a en t = some (en', t')) (ha : a ≠ .enable) :
    en' = en ∨ en' = false := by
  cases move_of_step hstep with
  | enable => exact absurd rfl ha
  | disable => exact .inr rfl
  | _ => exact .inl rfl

/-- A thread comes to answer for the code only by disabling it. -/
theorem answers_new (hok : t.Ok) (hstep : step a en t = some (en', t')) (h : t'.Answers) :
    t.Answers ∧ en' = en ∨ en' = false := by
  obtain ⟨hinside, hrunner, hout⟩ := h
  cases move_of_step hstep with
  | start watched => cases watched <;> cases hrunner
  | enter hexec => exact .inl ⟨⟨by simp [Inside, hexec], hrunner, hout⟩, rfl⟩
  | run hexec => exact .inl ⟨⟨hinside, hrunner, hout⟩, rfl⟩
  | call hexec => exact .inl ⟨⟨by simp [Inside, hexec], hrunner, hout⟩, rfl⟩
  | fault hexec => exact .inl ⟨⟨by simp [Inside, hexec], hrunner, hout⟩, rfl⟩
  | retry _ hexec => exact .inl ⟨⟨by simp [Inside, hexec], hrunner, hout⟩, rfl⟩
  | jump hexec => exact .inl ⟨⟨by simp [Inside, hexec], hrunner, hout⟩, rfl⟩
  | caught hexec => exact .inl ⟨⟨by simp [Inside, hexec], hrunner, hout⟩, rfl⟩
  | finish hexec =>
    refine .inl ⟨⟨?_, hrunner, hout⟩, rfl⟩
    rcases hexec with hexec | ⟨hexec, -⟩ <;> simp [Inside, hexec]
  | stop hexec => exact .inl ⟨⟨by simp [Inside, hexec], hrunner, hout⟩, rfl⟩
  | join hexec => exact .inl ⟨⟨by simp [Inside, hexec], hrunner, hout⟩, rfl⟩
  | leave hexec => exact .inl ⟨⟨by simp [Inside, hexec], hrunner, hout⟩, rfl⟩
  | recover hexec => exact .inl ⟨⟨by simp [Inside, hexec], hrunner, hout⟩, rfl⟩
  | done => exact hinside.elim
  | enable => exact hinside.elim
  | clear => exact hinside.elim
  | expire => cases hrunner
  | wake hrun =>
    -- a runner that wakes up has not called back
    have hnot : t.timedOut = false := by
      unfold Ok at hok
      cases hexec : t.exec <;> rw [hexec] at hok <;> grind [OkAt, Watched, Joined, Stopped]
    exact absurd (hnot.symm.trans hout) Bool.false_ne_true
  | store => cases hrunner
  | disable => exact .inr rfl

/-- The callback of the watchdog of this `timed_run` has returned. -/
def CalledBack (t : TimedThread) : Prop := t.runner = .finished ∧ t.called = true

theorem run_answers (hok : t.Ok) (hstep : step .run en t = some (en', t')) (h : t.CalledBack) :
    t.Answers ∧ en = true := by
  obtain ⟨hrunner, hcalled⟩ := h
  cases move_of_step hstep with
  | run hexec hen =>
    unfold Ok at hok
    rw [hexec] at hok
    have hwatched : t.Watched := hok
    unfold Watched at hwatched
    rw [hrunner] at hwatched
    exact ⟨⟨by simp [Inside, hexec], hrunner, hwatched.2⟩, hen⟩

end TimedThread

namespace TimedRuns

variable {ι : Type} [DecidableEq ι] {s s' : TimedRuns ι} {e : ι × TimedAction}
  {steps : List (TraceStep (TimedRuns ι) (ι × TimedAction) (TimedRuns ι))}

structure Good (s : TimedRuns ι) : Prop where
  ok : ∀ i, (s.owned i).Ok
  answered : s.shared = false → ∃ i, (s.owned i).Answers

omit [DecidableEq ι] in
theorem good_initial : Good (initial ι) where
  ok _ := by simp [initial, TimedThread.Ok, TimedThread.OkAt, TimedThread.Joined]
  answered h := by cases h

theorem good_step (h : Good s) (hstep : step e s = some s') : Good s' where
  ok := owned_step (fun _ _ _ _ _ => TimedThread.ok_step) h.ok hstep
  answered := by
    refine blame_step (fun x => x = false) ?_ h.ok h.answered hstep
    rintro a en t en' t' hok hmove rfl hanswers
    exact TimedThread.answers_kept hok hmove hanswers

theorem good_of_run (hrun : Trace step id (initial ι) steps s) : Good s :=
  hrun.invariant good_initial fun _ _ _ hgood hstep => good_step hgood hstep

/-- A step of a run: the callback only runs while the guard is in scope, and a fault in the code
ends in a timeout. -/
structure SafeStep (t : TraceStep (TimedRuns ι) (ι × TimedAction) (TimedRuns ι)) : Prop where
  callback : ∀ i, t.event = (i, .store) ∨ t.event = (i, .disable) → (t.before.owned i).Guarded
  fault : ∀ i, t.event = (i, .leave) → (t.before.owned i).exec = .catching .code →
    (t.outcome.owned i).exec = .leaving .timeout

theorem safe_step (h : Good s) (hstep : step e s = some s') : SafeStep ⟨s, e, s'⟩ := by
  have hown := interleave_own hstep
  constructor
  · intro i hevent
    have hi : e.1 = i := hevent.elim (congrArg Prod.fst) (congrArg Prod.fst)
    have ha : e.2 = .store ∨ e.2 = .disable := hevent.imp (congrArg Prod.snd) (congrArg Prod.snd)
    rw [hi] at hown
    exact ((h.ok i).guarded (TimedThread.locked_of_callback hown ha)).1
  · intro i hevent hexec
    have hi : e.1 = i := congrArg Prod.fst hevent
    have ha : e.2 = .leave := congrArg Prod.snd hevent
    rw [hi, ha] at hown
    exact TimedThread.timeout_of_fault (h.ok i) hexec hown

/-- In every run, when the code is disabled a thread is in `timed_run` that will enable it again; a
thread that is not in `timed_run` has no flag and no watchdog, and its last `timed_run` threw
`timeout_exception` only when its own watchdog had called back, and `wasm_memory_exception` only
when it had not. -/
theorem timed_runs_safe (hrun : Trace step id (initial ι) steps s) :
    (s.shared = false → ∃ i, (s.owned i).Answers) ∧
    (∀ i r, (s.owned i).exec = .outside r → (s.owned i).Joined ∧ (s.owned i).timedOut = false ∧
      (r = some .timeout → (s.owned i).called = true) ∧
      (r = some .memory → (s.owned i).called = false)) ∧
    ∀ t ∈ steps, SafeStep t := by
  have hgood := good_of_run hrun
  refine ⟨hgood.answered, fun i r hexec => ?_, ?_⟩
  · have hok := hgood.ok i
    unfold TimedThread.Ok at hok
    rwa [hexec] at hok
  · exact hrun.forall_of good_initial (A := fun _ => True)
      (fun _ _ _ hgood hstep _ => ⟨good_step hgood hstep, safe_step hgood hstep⟩) fun _ _ => trivial

/-- A thread whose watchdog calls back while it is in a host function. -/
def timeoutRun : List (Unit × TimedAction) :=
  [((), .start true), ((), .expire), ((), .store), ((), .disable), ((), .enter), ((), .fault),
    ((), .handle false), ((), .stop), ((), .join), ((), .leave), ((), .reenable), ((), .enable),
    ((), .clear)]

theorem timeoutRun_safe : ∃ steps s, runEvents step id timeoutRun (initial Unit) = some (steps, s) ∧
    (s.owned ()).exec = .outside (some .timeout) ∧ (s.owned ()).called = true ∧
    ∀ t ∈ steps, SafeStep t := by
  have hends : ∃ steps s, runEvents step id timeoutRun (initial Unit) = some (steps, s) ∧
      (s.owned ()).exec = .outside (some .timeout) := ⟨_, _, rfl, rfl⟩
  obtain ⟨steps, s, hrun, hexec⟩ := hends
  obtain ⟨-, houtside, hsteps⟩ := timed_runs_safe (Trace.of_runEvents hrun)
  obtain ⟨-, -, htimeout, -⟩ := houtside () _ hexec
  exact ⟨steps, s, hrun, hexec, htimeout rfl, hsteps⟩

/-- In every behaviour in which a thread in `timed_run` that can move does, and no host function
catches the exception of a timeout, disabled code is enabled again. -/
theorem timed_runs_recover (b : Behaviour ι TimedThread.step) (hinit : b.state 0 = initial ι)
    (hfair : b.Fair TimedThread.Inside)
    (hcaught : ∀ n i, b.event n ≠ some (i, .handle true)) (n : Nat) :
    ∃ m, n ≤ m ∧ (b.state m).shared = true := by
  cases hshared : (b.state n).shared with
  | true => exact ⟨n, Nat.le_refl n, hshared⟩
  | false =>
    have hgood : Good (b.state n) :=
      Behaviour.invariant (hinit ▸ good_initial) (fun _ _ _ hgood hstep => good_step hgood hstep) n
    obtain ⟨i, hi⟩ := hgood.answered hshared
    obtain ⟨m, hm, hon⟩ := Behaviour.leaves_bad (fun x => x = false) TimedThread.Answers
      (fun a => a ≠ .handle true) TimedThread.rank hfair (fun _ h => h.inside)
      (by rintro _ t rfl h; exact TimedThread.answers_can_move h)
      (by
        rintro a _ t _ t' ha rfl h hstep rfl
        obtain ⟨hkept, hless⟩ := TimedThread.answers_step h hstep
        exact ⟨hkept, hless ha⟩)
      (fun n e he ha => hcaught n e.1 (by rw [he, ← ha])) hi
    exact ⟨m, hm, Bool.eq_true_of_not_eq_false hon⟩

theorem timeoutRun_recovers :
    ∃ m, 4 ≤ m ∧
      ((Behaviour.ofEvents TimedThread.step timeoutRun (initial Unit) rfl).state m).shared =
        true := by
  refine timed_runs_recover _ rfl (Behaviour.ofEvents_fair rfl rfl fun i => ?_)
    (fun n i hevent => ?_) 4
  · exact id
  · have hmem := List.mem_of_getElem? hevent
    simp [timeoutRun] at hmem

/-- A thread answers for the code only while it is disabled. -/
structure Held (i : ι) (s : TimedRuns ι) : Prop where
  good : Good s
  held : (s.owned i).Answers → s.shared = false

theorem held_step {i : ι} (h : Held i s) (hstep : step e s = some s')
    (hother : ∀ j, j ≠ i → e ≠ (j, .enable)) :
    Held i s' := by
  refine ⟨good_step h.good hstep, fun hanswers => ?_⟩
  have hown := interleave_own hstep
  by_cases hi : i = e.1
  · subst hi
    rcases TimedThread.answers_new (h.good.ok e.1) hown hanswers with ⟨hbefore, hsame⟩ | hoff
    · exact hsame.trans (h.held hbefore)
    · exact hoff
  · rw [interleave_other hstep hi] at hanswers
    have ha : e.2 ≠ .enable := fun ha => hother e.1 (Ne.symm hi) (Prod.ext rfl ha)
    rcases TimedThread.enabled_step hown ha with hsame | hoff
    · exact hsame.trans (h.held hanswers)
    · exact hoff

/-- An instruction of a `timed_run` whose callback has returned. -/
def Late (i : ι) (t : TraceStep (TimedRuns ι) (ι × TimedAction) (TimedRuns ι)) : Prop :=
  t.event = (i, .run) ∧ (t.before.owned i).CalledBack

theorem not_late {i : ι} (h : Held i s) (hstep : step e s = some s') : ¬ Late i ⟨s, e, s'⟩ := by
  rintro ⟨hevent, hcalled⟩
  dsimp only at hevent hcalled
  subst hevent
  have hown := interleave_own hstep
  obtain ⟨hanswers, hon⟩ := TimedThread.run_answers (h.good.ok i) hown hcalled
  exact Bool.false_ne_true ((h.held hanswers).symm.trans hon)

theorem not_late_of_run {i : ι} (h : Held i s) (hrun : Trace step id s steps s')
    (hother : ∀ t ∈ steps, ∀ j, j ≠ i → t.event ≠ (j, .enable)) : ∀ t ∈ steps, ¬ Late i t :=
  hrun.forall_of h (A := fun t => ∀ j, j ≠ i → t.event ≠ (j, .enable))
    (fun _ _ _ hheld hstep hallowed =>
      ⟨held_step hheld hstep hallowed, not_late hheld hstep⟩) hother

omit [DecidableEq ι] in
theorem held_initial (i : ι) : Held i (initial ι) := ⟨good_initial, fun h => h.inside.elim⟩

/-- Both threads time out, and the first one enables the code before the second one has found it
disabled. -/
def lateRun : List (Bool × TimedAction) :=
  [(true, .start true), (false, .start true), (true, .expire), (true, .store), (true, .disable),
    (false, .expire), (false, .store), (false, .disable), (true, .enter), (true, .fault),
    (true, .handle false), (true, .stop), (true, .join), (true, .leave), (true, .reenable),
    (true, .enable), (false, .enter)]

theorem late_after_lateRun : ∃ steps s s',
    runEvents step id lateRun (initial Bool) = some (steps, s) ∧
    step (false, .run) s = some s' ∧ (s.owned false).CalledBack := by
  refine ⟨_, _, _, rfl, rfl, rfl, rfl⟩

theorem exists_late {i j : ι} (hij : i ≠ j) :
    ∃ steps s, Trace step id (initial ι) steps s ∧ ∃ t ∈ steps, Late j t := by
  obtain ⟨steps, s, s', hrun, hlast, hcalled⟩ := late_after_lateRun
  have hf : Function.Injective fun k : Bool => cond k i j := by
    intro k l heq
    cases k <;> cases l <;> simp_all
  have htrace := trace_among (fun _ => {}) hf ((Trace.of_runEvents hrun).snoc hlast)
  have hinit : (initial Bool).among (fun k => cond k i j) (fun _ => {}) = initial ι := by
    refine congrArg (Parties.mk true) (funext fun k => ?_)
    by_cases hk : ∃ b : Bool, cond b i j = k
    · obtain ⟨b, rfl⟩ := hk
      exact (hf.extend_apply (initial Bool).owned _ b).trans rfl
    · exact Function.extend_apply' _ _ _ hk
  rw [hinit, List.map_append] at htrace
  refine ⟨_, _, htrace, _, List.mem_append_right _ (List.mem_singleton_self _), rfl, ?_⟩
  have hown : (s.among (fun k : Bool => cond k i j) fun _ => {}).owned j = s.owned false :=
    hf.extend_apply s.owned (fun _ => {}) false
  dsimp only
  rw [hown]
  exact hcalled

/-- Once the callback of a thread's watchdog has returned, the thread executes no instruction of
this `timed_run` before another thread enables the code; and some run comes to such an instruction
if and only if there are two threads. -/
theorem late_iff :
    (∀ (i : ι) (first rest : List (TraceStep (TimedRuns ι) (ι × TimedAction) (TimedRuns ι)))
      (s s' : TimedRuns ι), Trace step id (initial ι) first s → s.shared = false →
      Trace step id s rest s' →
      (∀ t ∈ rest, ∀ j, j ≠ i → t.event ≠ (j, .enable)) → ∀ t ∈ rest, ¬ Late i t) ∧
    ((∃ (i : ι) (steps : _) (s : TimedRuns ι), Trace step id (initial ι) steps s ∧
    ∃ t ∈ steps, Late i t) ↔
      Nontrivial ι) := by
  refine ⟨fun i first rest s s' hfirst hoff hrest hother => ?_, ?_, ?_⟩
  · exact not_late_of_run ⟨good_of_run hfirst, fun _ => hoff⟩ hrest hother
  · rintro ⟨i, steps, s, hrun, t, ht, hlate⟩
    by_contra hnot
    rw [not_nontrivial_iff_subsingleton] at hnot
    exact not_late_of_run (held_initial i) hrun
      (fun _ _ j hj => absurd (Subsingleton.elim j i) hj) t ht hlate
  · rintro ⟨i, j, hij⟩
    obtain ⟨steps, s, hrun, hlate⟩ := exists_late hij
    exact ⟨j, steps, s, hrun, hlate⟩

end TimedRuns

end EosVm
