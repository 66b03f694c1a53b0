import EosVm.Invariants.Effects
import Mathlib.Data.List.Induction

/-!
# Calls on the tracker

Inversion of each operation of `operand_stack_type_tracker`, the calls made while a body is parsed,
and the rule to carry an invariant from call to call.
-/

set_option autoImplicit false

namespace EosVm

open Lib

variable {W : CodeWriter}

namespace Tracker

variable {o : Options} {d : OperandType → Nat} {tr tr' : Tracker}

@[simp] theorem updateUsage_state (o : Options) (tr : Tracker) :
    (tr.updateUsage o).state = tr.state := by
  unfold updateUsage
  split <;> rfl

@[simp] theorem updateUsage_operandDepth (o : Options) (tr : Tracker) :
    (tr.updateUsage o).operandDepth = tr.operandDepth := by
  unfold updateUsage
  split <;> rfl

@[simp] theorem updateUsage_localBytesChecker (o : Options) (tr : Tracker) :
    (tr.updateUsage o).localBytesChecker = tr.localBytesChecker := by
  unfold updateUsage
  split <;> rfl

theorem push_cases {type : OperandType} (h : tr.push o d type = .ok tr') :
    tr.operandDepth < uint32Max ∧ ∃ checker, tr.localBytesChecker.pushStack o type = .ok checker ∧
      tr' = updateUsage o { tr with
        operandDepth := add32 tr.operandDepth (d type)
        maximumOperandDepth := max (add32 tr.operandDepth (d type)) tr.maximumOperandDepth
        state := .operand type :: tr.state
        localBytesChecker := checker } := by
  simp only [push, bind_eq_ok, vmAssert_eq_ok, pure_eq_ok, exists_const, decide_eq_true_eq] at h
  obtain ⟨hlt, checker, hchecker, rfl⟩ := h
  exact ⟨hlt, checker, hchecker, rfl⟩

/-- `pop` with a type leaves unreachable code alone and otherwise removes an entry of that type, or
one of any type. -/
theorem pop_cases {type : ValType} (h : tr.pop o d (some type) = .ok tr') :
    (∃ rest, tr.state = .unreachableTag :: rest ∧ tr' = tr) ∨
    ∃ entry rest, tr.state = .operand entry :: rest ∧ (entry = .val type ∨ entry = .any) ∧
      tr' = tr.remove o d (.val type) := by
  simp only [pop] at h
  split at h
  · cases h
  next rest hstate => exact Or.inl ⟨rest, hstate, (Except.ok.inj h).symm⟩
  next e rest hne hstate =>
    simp only [bind_eq_ok, vmAssert_eq_ok, pure_eq_ok, exists_const, Bool.or_eq_true,
      beq_iff_eq] at h
    obtain ⟨he, rfl⟩ := h
    right
    rcases he with rfl | rfl
    · exact ⟨.val type, rest, hstate, Or.inl rfl, rfl⟩
    · exact ⟨.any, rest, hstate, Or.inr rfl, rfl⟩

theorem popAny_cases {type : OperandType} (h : tr.popAny o d = .ok (type, tr')) :
    (∃ rest, tr.state = .unreachableTag :: rest ∧ type = .any ∧ tr' = tr) ∨
    ∃ rest, tr.state = .operand type :: rest ∧ tr' = tr.remove o d type := by
  unfold popAny at h
  split at h
  · cases h
  · cases h
  next rest hstate =>
    obtain ⟨rfl, rfl⟩ := Prod.mk.inj (Except.ok.inj h)
    exact Or.inl ⟨rest, hstate, rfl, rfl⟩
  next t rest hstate =>
    obtain ⟨rfl, rfl⟩ := Prod.mk.inj (Except.ok.inj h)
    exact Or.inr ⟨rest, hstate, rfl⟩

theorem top_cases {type : ValType} (h : tr.top o d type = .ok tr') :
    ∃ mid, tr.pop o d (some type) = .ok mid ∧ mid.push o d (.val type) = .ok tr' :=
  bind_eq_ok.mp h

/-- `pop_scope` pops the result, removes the tags of the scope and pushes the result again. -/
theorem popScope_cases {result : Option ValType} (h : tr.popScope o d result = .ok tr') :
    ∃ popped rest, tr.pop o d result = .ok popped ∧
      popped.closeUnreachable.state = .scopeTag :: rest ∧
      match result with
      | none => tr' = { popped.closeUnreachable with state := rest }
      | some type =>
        push o d { popped.closeUnreachable with state := rest } (.val type) = .ok tr' := by
  simp only [popScope, bind_eq_ok, vmAssert_eq_ok, exists_const] at h
  obtain ⟨popped, hpop, -, h⟩ := h
  split at h
  next rest hrest =>
    refine ⟨popped, rest, hpop, hrest, ?_⟩
    cases result with
    | none => exact (pure_eq_ok.mp h).symm
    | some type => exact h
  · cases h

end Tracker

/-- While the body is parsed from `start`, the tracker is `tr` between two calls. -/
def TrackerPoint (env : BodyEnv) (start : BodyPoint W) (tr : Tracker) : Prop :=
  ∃ (instr : Instr) (p q : BodyPoint W) (before after : List TrackerOp),
    BodyReaches env start p ∧ BodyStep env p q ∧ p.rest = instr :: q.rest ∧
    instrOps env p.state.ctrl p.state.opStack.state instr = before ++ after ∧
    runOps env.options W.getDepthForType before p.state.opStack = .ok tr

/-- While the body is parsed from `start`, `op` is called on `tr`. -/
def TrackerCall (env : BodyEnv) (start : BodyPoint W) (op : TrackerOp) (tr : Tracker) : Prop :=
  ∃ (instr : Instr) (p q : BodyPoint W) (before after : List TrackerOp),
    BodyReaches env start p ∧ BodyStep env p q ∧ p.rest = instr :: q.rest ∧
    instrOps env p.state.ctrl p.state.opStack.state instr = before ++ op :: after ∧
    runOps env.options W.getDepthForType before p.state.opStack = .ok tr

theorem TrackerCall.before {env : BodyEnv} {start : BodyPoint W} {op : TrackerOp} {tr : Tracker}
    (h : TrackerCall env start op tr) : TrackerPoint env start tr := by
  obtain ⟨instr, p, q, before, after, hp, hstep, hrest, hops, hrun⟩ := h
  exact ⟨instr, p, q, before, op :: after, hp, hstep, hrest, hops, hrun⟩

theorem TrackerCall.after {env : BodyEnv} {start : BodyPoint W} {op : TrackerOp} {tr tr' : Tracker}
    (h : TrackerCall env start op tr) (hop : op.run env.options W.getDepthForType tr = .ok tr') :
    TrackerPoint env start tr' := by
  obtain ⟨instr, p, q, before, after, hp, hstep, hrest, hops, hrun⟩ := h
  refine ⟨instr, p, q, before ++ [op], after, hp, hstep, hrest, by simpa using hops, ?_⟩
  rw [runOps_append]
  exact ⟨tr, hrun, by rw [runOps_singleton]; exact hop⟩

/-- One instruction, seen as its calls. -/
theorem BodyStep.calls {env : BodyEnv} {p q : BodyPoint W} (h : BodyStep env p q) :
    ∃ instr, p.rest = instr :: q.rest ∧
      runOps env.options W.getDepthForType
        (instrOps env p.state.ctrl p.state.opStack.state instr) p.state.opStack =
        .ok q.state.opStack ∧
      q.state.ctrl = ctrlAfter env.options q.state.opStack p.state.ctrl instr := by
  obtain ⟨instr, hrest, -, hproc⟩ := h
  have heff := processInstr_effect hproc
  exact ⟨instr, hrest, heff.ops, heff.ctrl⟩

/-- A property that every call keeps under the condition `C` holds between all calls of a run whose
calls all meet `C`, and at every point of the run. -/
theorem tracker_invariant {env : BodyEnv} {start : BodyPoint W} {P : Tracker → Prop}
    {C : TrackerOp → Tracker → Prop} (hstart : P start.state.opStack)
    (hcalls : ∀ op tr, TrackerCall env start op tr → C op tr)
    (hop : ∀ op tr tr', C op tr → P tr → op.run env.options W.getDepthForType tr =
    .ok tr' → P tr') :
    (∀ p, BodyReaches env start p → P p.state.opStack) ∧
      ∀ tr, TrackerPoint env start tr → P tr := by
  -- what the first calls of one instruction keep
  have hbefore : ∀ instr (p q : BodyPoint W), BodyReaches env start p → BodyStep env p q →
      p.rest = instr :: q.rest → P p.state.opStack → ∀ before after tr,
      instrOps env p.state.ctrl p.state.opStack.state instr = before ++ after →
      runOps env.options W.getDepthForType before p.state.opStack = .ok tr → P tr := by
    intro instr p q hp hstep hrest hP before
    induction before using List.reverseRecOn with
    | nil =>
      intro after tr _ hrun
      rw [← pure_eq_ok.mp hrun]
      exact hP
    | append_singleton before op ih =>
      intro after tr hops hrun
      obtain ⟨mid, hmid, hlast⟩ := runOps_append.mp hrun
      rw [List.append_assoc] at hops
      rw [runOps_singleton] at hlast
      have hcall : TrackerCall env start op mid :=
        ⟨instr, p, q, before, after, hp, hstep, hrest, hops, hmid⟩
      exact hop op mid tr (hcalls op mid hcall) (ih _ mid hops hmid) hlast
  have hpoints : ∀ p, BodyReaches env start p → P p.state.opStack := by
    intro p hreach
    induction hreach with
    | refl => exact hstart
    | @tail p q hp hstep ih =>
      obtain ⟨instr, hrest, hops, -⟩ := hstep.calls
      exact hbefore instr p q hp hstep hrest ih _ [] _ (by simp) hops
  refine ⟨hpoints, ?_⟩
  rintro tr ⟨instr, p, q, before, after, hp, hstep, hrest, hops, hrun⟩
  exact hbefore instr p q hp hstep hrest (hpoints p hp) before after tr hops hrun

end EosVm
