import EosVm.Lib.Trace
import EosVm.Source.StackManager
import Mathlib.Algebra.Order.Ring.Int

/-!
# The stack pointer in nested executions

A run is a nesting of executions. Machine code uses no more than the size it asked for and a host
function no more than 4 MiB, the frames of the next `execute` included. Between two stacks the
manager keeps 4 MiB below the part that it tracks.
-/

set_option autoImplicit false

namespace EosVm

/-- An execution under way: the manager to be restored, the stack made for it, the size it asked for
and the stack pointer that its machine code started from. -/
structure Activation where
  saved : StackManager
  alt : StackAllocator
  sz : Nat
  start : Nat

/-- The manager and the executions, innermost first. -/
structure Nesting where
  manager : StackManager := {}
  calls : List Activation := []

/-- The stack of the thread and the page size of the system. -/
structure StackEnv where
  native : Nat × Nat
  pagesize : Nat

namespace Nesting

/-- Who calls `execute`: the embedder in a frame at `p`, or a host function after machine code has
used some bytes and the function itself some more. -/
inductive Caller where
  | embedder (p : Nat)
  | host (used spent : Nat)

/-- A call of `execute`, with the bytes of the frames from it to the machine code, or the end of the
innermost one by a return or an exception. -/
inductive Event where
  | execute (caller : Caller) (frames sz : Nat) (mapped : Option Nat)
  | leave

/-- The frame address of a call, for a caller that keeps to its limits. -/
def frameAddress (env : StackEnv) (caller : Caller) (frames : Nat) (s : Nesting) : Option Nat :=
  match caller, s.calls with
  | .embedder p, [] =>
    if env.native.1 + StackManager.defaultStackSize + StackManager.untrackedStackSize ≤ p ∧
      p ≤ env.native.2 ∧
        frames ≤ StackManager.untrackedStackSize then some p
    else none
  | .host used spent, act :: _ =>
    if used ≤ act.sz ∧ spent + frames ≤ StackManager.untrackedStackSize then
      some (act.start - used - spent)
    else none
  | _, _ => none

/-- A mapping ends in the address space. -/
def MapFits (env : StackEnv) (sz : Nat) (mapped : Option Nat) : Prop :=
  ∀ ptr ∈ mapped, ptr + StackAllocator.mappedSize env.pagesize sz ≤ 2 ^ 64

instance (env : StackEnv) (sz : Nat) (mapped : Option Nat) : Decidable (MapFits env sz mapped) :=
  inferInstanceAs (Decidable (∀ ptr ∈ mapped, _))

def step (env : StackEnv) (event : Event) (s : Nesting) : Option Nesting :=
  match event with
  | .execute caller frames sz mapped =>
    match frameAddress env caller frames s with
    | none => none
    | some p =>
      if MapFits env sz mapped then
        match StackManager.enter env.pagesize sz p mapped s.manager with
        | .ok (m, alt) => some
          { manager := m, calls :=
            ⟨s.manager, alt, sz, machineCodeStart alt (p - frames)⟩ :: s.calls }
        | .error _ => some s
      else none
  | .leave =>
    match s.calls with
    | act :: rest => some { manager := act.saved, calls := rest }
    | [] => none

/-- The mapping of an execution. -/
def mapping (act : Activation) : Option (Nat × Nat) :=
  act.alt.ptr.map fun ptr => (ptr, ptr + act.alt.size)

/-- The stack of the thread and the mappings. -/
def live (env : StackEnv) (s : Nesting) : List (Nat × Nat) :=
  env.native :: s.calls.filterMap mapping

/-- The stack that the innermost execution runs on. -/
def region (env : StackEnv) : List Activation → Nat × Nat
  | [] => env.native
  | act :: rest => (mapping act).getD (region env rest)

/-- Wherever machine code and then a host function are within their limits, the stack pointer lies
in one of the stacks. -/
def Inside (env : StackEnv) (s : Nesting) : Prop :=
  ∀ act rest, s.calls = act :: rest → ∀ used spent, used ≤ act.sz →
    spent ≤ StackManager.untrackedStackSize →
    ∃ stack ∈ live env s, stack.1 + used + spent ≤ act.start ∧ act.start ≤ stack.2

/-- Whole pages for a size. -/
def wholePages (pagesize sz : Nat) : Nat := (sz + pagesize - 1) / pagesize * pagesize

/-- A call that stays on its stack has the frames and the size in the tracked part, and one that
gets a new stack leaves 24 bytes of its last page and does not wrap. -/
def SizeFits (env : StackEnv) (p frames sz : Nat) (m : StackManager) : Prop :=
  if (m.start p).available p < sz then
    sz + 24 ≤ wholePages env.pagesize sz ∧ wholePages env.pagesize sz + 4 * 1024 * 1024 < 2 ^ 64
  else (m.start p).base + frames + sz ≤ p

/-- The condition on a step. -/
def Fits (env : StackEnv) (t : Lib.TraceStep Nesting Event Nesting) : Prop :=
  ∀ caller frames sz mapped p, t.event = .execute caller frames sz mapped →
    frameAddress env caller frames t.before = some p → SizeFits env p frames sz t.before.manager

/-- Below the tracked part and below what machine code may use there are 4 MiB of the stack. -/
structure Tracked (stack : Nat × Nat) (m : StackManager) (act : Activation) : Prop where
  base : stack.1 + StackManager.untrackedStackSize ≤ m.base
  room : stack.1 + StackManager.untrackedStackSize + act.sz ≤ act.start
  top : act.start ≤ stack.2

def Chain (env : StackEnv) : StackManager → List Activation → Prop
  | m, [] => m = {}
  | m, act :: rest => Tracked (region env (act :: rest)) m act ∧ Chain env act.saved rest

theorem region_mem (env : StackEnv) (calls : List Activation) :
    region env calls ∈ env.native :: calls.filterMap mapping := by
  induction calls with
  | nil => exact List.mem_cons_self ..
  | cons act rest ih =>
    unfold region
    rw [List.filterMap_cons]
    cases mapping act with
    | none => exact ih
    | some stack => exact List.mem_cons_of_mem _ (List.mem_cons_self ..)

theorem Chain.inside {env : StackEnv} {s : Nesting} (h : Chain env s.manager s.calls) :
    Inside env s := by
  intro act rest hcalls used spent hused hspent
  rw [hcalls] at h
  refine ⟨_, region_mem env s.calls, ?_⟩
  have hroom := h.1.room
  rw [hcalls]
  exact ⟨by omega, h.1.top⟩

theorem mappedSize_eq {pagesize sz : Nat} (hpage : 0 < pagesize)
    (hwrap : wholePages pagesize sz + 4 * 1024 * 1024 < 2 ^ 64)
    (hsmall : pagesize ≤ 4 * 1024 * 1024) :
    StackAllocator.mappedSize pagesize sz = wholePages pagesize sz + 4 * 1024 * 1024 := by
  have hround : sz + pagesize - 1 < 2 ^ 64 := by
    have hdiv := Nat.div_add_mod (sz + pagesize - 1) pagesize
    have hmod := Nat.mod_lt (sz + pagesize - 1) hpage
    rw [Nat.mul_comm] at hdiv
    unfold wholePages at hwrap
    omega
  rewrite [StackAllocator.mappedSize, Nat.mod_eq_of_lt hround]
  exact Nat.mod_eq_of_lt hwrap

/-- The base of a new stack does not wrap. -/
theorem sub_mod_eq {x y : Nat} (hpos : 0 < y) (hle : y ≤ x) (hx : x ≤ 2 ^ 64) :
    (x + 2 ^ 64 - y) % 2 ^ 64 = x - y := by omega

/-- `enter` in a tracked part 4 MiB above the end of its stack. -/
theorem enter_tracked {env : StackEnv} (hpage : 0 < env.pagesize)
    (hsmall : env.pagesize ≤ 4 * 1024 * 1024)
    {stack : Nat × Nat} {p frames sz : Nat} {mapped : Option Nat} {m m' saved : StackManager}
    {alt : StackAllocator} (hbase : stack.1 + StackManager.untrackedStackSize ≤ (m.start p).base)
    (htop : p ≤ stack.2) (hfits : SizeFits env p frames sz m) (hmap : MapFits env sz mapped)
    (henter : StackManager.enter env.pagesize sz p mapped m = .ok (m', alt)) :
    Tracked ((mapping ⟨saved, alt, sz, machineCodeStart alt (p - frames)⟩).getD stack) m'
      ⟨saved, alt, sz, machineCodeStart alt (p - frames)⟩ := by
  simp only [StackManager.enter, StackAllocator.construct, bind, Except.bind] at henter
  unfold SizeFits at hfits
  have huntracked : StackManager.untrackedStackSize = 4194304 := rfl
  generalize m.start p = n at *
  generalize n.available p = available at *
  by_cases hswitch : available < sz
  · rw [if_pos hswitch] at hfits henter
    obtain ⟨hpages, hwrap⟩ := hfits
    have hsize := mappedSize_eq hpage hwrap hsmall
    cases mapped with
    | none => cases henter
    | some ptr =>
      replace hmap := hmap ptr rfl
      generalize StackAllocator.mappedSize env.pagesize sz = size at *
      generalize wholePages env.pagesize sz = pages at *
      simp only [StackAllocator.top, Option.map_some, pure, Except.pure, Except.ok.injEq,
        Prod.mk.injEq] at henter
      obtain ⟨rfl, rfl⟩ := henter
      have hbase' : (ptr + size + 2 ^ 64 - sz) % 2 ^ 64 = ptr + size - sz :=
        sub_mod_eq (by omega) (by omega) hmap
      refine ⟨?_, ?_, ?_⟩ <;>
        simp only [mapping, Option.map_some, Option.getD_some, machineCodeStart,
          StackAllocator.top] <;> omega
  · rw [if_neg hswitch] at hfits henter
    simp only [StackAllocator.top, Option.map_none, pure, Except.pure, Except.ok.injEq,
      Prod.mk.injEq] at henter
    obtain ⟨rfl, rfl⟩ := henter
    refine ⟨hbase, ?_, ?_⟩
    · simp only [mapping, Option.map_none, Option.getD_none, machineCodeStart, StackAllocator.top]
      omega
    · simp only [mapping, Option.map_none, Option.getD_none, machineCodeStart, StackAllocator.top]
      omega

section Runs

variable {env : StackEnv} (hpage : 0 < env.pagesize) (hsmall : env.pagesize ≤ 4 * 1024 * 1024)
  (hnative : env.native.2 ≤ 2 ^ 64) {s : Nesting} {caller : Caller} {frames p : Nat}

/-- The tracked part of a caller lies 4 MiB above the end of its stack, and the frame of the call in
its stack. -/
theorem frameAddress_tracked (hnative : env.native.2 ≤ 2 ^ 64) (h : Chain env s.manager s.calls)
    (hp : frameAddress env caller frames s = some p) :
    (region env s.calls).1 + StackManager.untrackedStackSize ≤ (s.manager.start p).base ∧
      p ≤ (region env s.calls).2 := by
  obtain ⟨m, calls⟩ := s
  have huntracked : StackManager.untrackedStackSize = 4194304 := rfl
  have hdefault : StackManager.defaultStackSize = 4194304 := rfl
  cases calls with
  | nil =>
    cases caller with
    | host used spent => cases hp
    | embedder q =>
      simp only [frameAddress, Option.ite_none_right_eq_some, Option.some.injEq] at hp
      obtain ⟨⟨hlow, hhigh, -⟩, rfl⟩ := hp
      obtain rfl : m = {} := h
      have hstart : StackManager.start q {} = ⟨q - 4194304, 4194304⟩ := by
        unfold StackManager.start
        rw [if_pos ⟨rfl, rfl⟩, hdefault, sub_mod_eq (by decide) (by omega) (by omega)]
      rw [hstart]
      simp only [region]
      omega
  | cons act rest =>
    cases caller with
    | embedder q => cases hp
    | host used spent =>
      simp only [frameAddress, Option.ite_none_right_eq_some, Option.some.injEq] at hp
      obtain ⟨-, rfl⟩ := hp
      obtain ⟨⟨hbase, -, htop⟩, -⟩ := h
      have hstart : m.start (act.start - used - spent) = m := by
        unfold StackManager.start
        rw [if_neg (fun hzero => by dsimp only at hbase; omega)]
      rw [hstart]
      exact ⟨hbase, by dsimp only at htop ⊢; omega⟩

include hpage hsmall hnative

/-- A call that fits, and an end, keep every execution tracked in its stack. -/
theorem step_chain {event : Event} {s' : Nesting} (h : Chain env s.manager s.calls)
    (hstep : step env event s = some s') (hfits : Fits env ⟨s, event, s'⟩) :
    Chain env s'.manager s'.calls := by
  cases event with
  | leave =>
    simp only [step] at hstep
    split at hstep
    next act rest hcalls =>
      obtain rfl := Option.some.inj hstep
      rw [hcalls] at h
      exact h.2
    next => cases hstep
  | execute caller frames sz mapped =>
    simp only [step] at hstep
    split at hstep
    next => cases hstep
    next p hp =>
    split at hstep
    next hmap =>
      split at hstep
      next m alt henter =>
        obtain rfl := Option.some.inj hstep
        obtain ⟨hbase, htop⟩ := frameAddress_tracked hnative h hp
        exact ⟨enter_tracked hpage hsmall hbase htop
          (hfits caller frames sz mapped p rfl hp) hmap henter, h⟩
      next =>
        obtain rfl := Option.some.inj hstep
        exact h
    next => cases hstep

end Runs

/-- The executions that were under way before stay there until their own end. -/
theorem calls_suffix {env : StackEnv} {s s' : Nesting}
    {steps : List (Lib.TraceStep Nesting Event Nesting)}
    {calls : List Activation} (hrun : Lib.Trace (step env) id s steps s') (h : calls <:+ s.calls)
    (hdepth : ∀ t ∈ steps, calls.length ≤ t.outcome.calls.length) : calls <:+ s'.calls := by
  induction hrun with
  | nil s => exact h
  | @cons s _ event s₁ _ hstep _ ih =>
    refine ih ?_ fun t ht => hdepth t (List.mem_cons_of_mem _ ht)
    have hlength := hdepth ⟨s, event, s₁⟩ (List.mem_cons_self ..)
    cases event with
    | execute caller frames sz mapped =>
      simp only [step] at hstep
      split at hstep
      next => cases hstep
      next =>
      split at hstep
      next =>
        split at hstep
        next =>
          obtain rfl := Option.some.inj hstep
          exact h.trans (List.suffix_cons _ _)
        next =>
          obtain rfl := Option.some.inj hstep
          exact h
      next => cases hstep
    | leave =>
      simp only [step] at hstep
      split at hstep
      next act rest hcalls =>
        obtain rfl := Option.some.inj hstep
        rw [hcalls] at h
        rcases List.suffix_cons_iff.mp h with rfl | hrest
        · exact absurd hlength (by simp)
        · exact hrest
      next => cases hstep

/-- An execution that ends leaves the manager and the executions as they were when it began,
whatever ran inside. -/
theorem leave_restores {env : StackEnv} {s s₁ s₂ : Nesting} {act : Activation}
    {steps : List (Lib.TraceStep Nesting Event Nesting)} (hcalls : s₁.calls = act :: s.calls)
    (hsaved : act.saved = s.manager) (hrun : Lib.Trace (step env) id s₁ steps s₂)
    (hdepth : ∀ t ∈ steps, s₁.calls.length ≤ t.outcome.calls.length)
    (hend : s₂.calls.length = s₁.calls.length) : step env .leave s₂ = some s := by
  have hsame := (calls_suffix hrun (List.suffix_refl _) hdepth).eq_of_length hend.symm
  simp only [step, ← hsame, hcalls, hsaved]

/-- In every nesting of executions whose sizes fit, the stack pointer stays in the stack of the
thread or in a live mapping; and an execution, with everything that runs inside it, ends in the
state that it began in. `frameAddress` and `Inside` take for granted that machine code stays within
the size that its `execute` asked for. -/
theorem nesting_safe {env : StackEnv} (hpage : 0 < env.pagesize)
    (hsmall : env.pagesize ≤ 4 * 1024 * 1024)
    (hnative : env.native.2 ≤ 2 ^ 64) {s : Nesting}
    {steps : List (Lib.TraceStep Nesting Event Nesting)}
    (hrun : Lib.Trace (step env) id {} steps s) (hfits : ∀ t ∈ steps, Fits env t) :
    Inside env s ∧
    ∀ caller frames sz mapped s₁ inner s₂, step env (.execute caller frames sz mapped) s = some s₁ →
      Lib.Trace (step env) id s₁ inner s₂ →
        (∀ t ∈ inner, s₁.calls.length ≤ t.outcome.calls.length) →
      s₂.calls.length = s₁.calls.length → s₁ = s ∨ step env .leave s₂ = some s := by
  have hinit : Chain env {} [] := rfl
  have hchain := hrun.invariant_of (P := fun s : Nesting => Chain env s.manager s.calls) hinit
    (fun _ _ _ h hstep hfit => step_chain hpage hsmall hnative h hstep hfit) hfits
  refine ⟨hchain.inside, ?_⟩
  intro caller frames sz mapped s₁ inner s₂ hstep hinner hdepth hend
  simp only [step] at hstep
  split at hstep
  next => cases hstep
  next =>
  split at hstep
  next =>
    split at hstep
    next =>
      obtain rfl := Option.some.inj hstep
      exact .inr (leave_restores rfl rfl hinner hdepth hend)
    next =>
      exact .inl (Option.some.inj hstep).symm
  next => cases hstep

/-- On a new stack there is room for the machine code and a host function exactly when the size
leaves 24 bytes of its last page. -/
theorem new_stack_room_iff {pagesize ptr sz sp : Nat} (hpage : 0 < pagesize)
    (hsmall : pagesize ≤ 4 * 1024 * 1024)
    (hwrap : wholePages pagesize sz + 4 * 1024 * 1024 < 2 ^ 64) :
    (∀ used spent, used ≤ sz → spent ≤ StackManager.untrackedStackSize →
      ptr + used + spent ≤ machineCodeStart ⟨some ptr, StackAllocator.mappedSize pagesize sz⟩ sp) ↔
    sz + 24 ≤ wholePages pagesize sz := by
  have hsize := mappedSize_eq hpage hwrap hsmall
  have huntracked : StackManager.untrackedStackSize = 4194304 := rfl
  simp only [machineCodeStart, StackAllocator.top, Option.map_some]
  generalize StackAllocator.mappedSize pagesize sz = size at *
  generalize wholePages pagesize sz = pages at *
  constructor
  · intro hroom
    have hlowest := hroom sz StackManager.untrackedStackSize (Nat.le_refl _) (Nat.le_refl _)
    omega
  · intro hpages used spent hused hspent
    omega

/-- A host function that has left the tracked part calls back, and the new execution gets a stack of
its own. -/
theorem reentered_inside : ∃ s, s.calls.length = 2 ∧
    Inside ⟨(0x7ff000000000, 0x7ff000800000), 4096⟩ s := by
  have hrun : ∃ steps s, Lib.Trace (step ⟨(0x7ff000000000, 0x7ff000800000), 4096⟩) id {} steps s ∧
      s.calls.length = 2 ∧ ∀ t ∈ steps, Fits ⟨(0x7ff000000000, 0x7ff000800000), 4096⟩ t := by
    refine ⟨_, _, .cons (e := .execute (.embedder 0x7ff000800000) 0 0x100000 none) rfl
      (.cons (e := .execute (.host 0x100000 0x400000) 0 0x500008 (some 0x7fe000000000)) rfl
        (.nil _)),
      rfl, List.forall_mem_cons.mpr ⟨?_, List.forall_mem_singleton.mpr ?_⟩⟩
    · intro caller frames sz mapped p hevent hp
      obtain ⟨rfl, rfl, rfl, rfl⟩ := Event.execute.inj hevent
      obtain rfl := Option.some.inj hp
      unfold SizeFits
      decide
    · intro caller frames sz mapped p hevent hp
      obtain ⟨rfl, rfl, rfl, rfl⟩ := Event.execute.inj hevent
      obtain rfl := Option.some.inj hp
      unfold SizeFits
      decide
  obtain ⟨steps, s, hrun, hdepth, hfits⟩ := hrun
  exact ⟨s, hdepth, (nesting_safe (by decide) (by decide) (by decide) hrun hfits).1⟩

end Nesting

end EosVm
