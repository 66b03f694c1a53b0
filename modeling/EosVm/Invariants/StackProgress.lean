import EosVm.Invariants.StackTypes

/-!
# Calls that succeed

The other direction: a step from types that the stack stands for is a call on the tracker that
succeeds, and the stack after it stands for the types after the step.
-/

set_option autoImplicit false

namespace EosVm

open Lib

theorem Shaped.tail {entry : StackEntry} {rest : List StackEntry} (h : Shaped (entry :: rest)) :
    Shaped rest := by
  cases entry with
  | scopeTag => exact h
  | unreachableTag => exact h.2
  | operand t => exact h

theorem Shaped.scopeBase {state : List StackEntry} (h : Shaped state) :
    Shaped (.unreachableTag :: Tracker.scopeBase state) := by
  unfold Tracker.scopeBase
  induction state with
  | nil => exact ⟨by simp, trivial⟩
  | cons entry rest ih =>
    cases entry with
    | scopeTag => exact ⟨by simp, h⟩
    | unreachableTag => exact ih h.tail
    | operand t => exact ih h.tail

section

variable {o : Options} {d : OperandType → Nat} {tr tr' : Tracker}

theorem Shaped.pop {expected : Option ValType} (h : Shaped tr.state)
    (hrun : tr.pop o d expected = .ok tr') : Shaped tr'.state := by
  cases expected with
  | none =>
    rw [← Except.ok.inj hrun]
    exact h
  | some type =>
    rcases Tracker.pop_cases hrun with ⟨rest, -, rfl⟩ | ⟨entry, rest, hstate, -, rfl⟩
    · exact h
    · rw [hstate] at h
      rw [Tracker.remove_state, hstate]
      exact h.tail

theorem Shaped.push {type : OperandType} (h : Shaped tr.state)
    (hrun : tr.push o d type = .ok tr') : Shaped tr'.state := by
  rw [Tracker.push_state hrun]
  exact h

/-- Every call keeps the unreachable tags at the bottom of their scopes. -/
theorem Shaped.run {op : TrackerOp} (h : Shaped tr.state) (hrun : op.run o d tr = .ok tr') :
    Shaped tr'.state := by
  cases op with
  | push type => exact h.push hrun
  | pop expected => exact h.pop hrun
  | popAny =>
    rw [TrackerOp.popAny_popState hrun]
    unfold popState
    split
    next hstate =>
      rw [hstate] at h
      exact h.tail
    · exact h
  | top type =>
    obtain ⟨mid, hpop, hpush⟩ := Tracker.top_cases hrun
    exact (h.pop hpop).push hpush
  | startUnreachable =>
    rw [← pure_eq_ok.mp hrun]
    exact h.scopeBase
  | pushScope =>
    rw [← pure_eq_ok.mp hrun]
    exact h
  | popScope result =>
    obtain ⟨popped, rest, hpop, hrest, hend⟩ := Tracker.popScope_cases hrun
    have hpopped := h.pop hpop
    have hshaped : Shaped rest := by
      rcases Tracker.closeUnreachable_state hrest with hstate | hstate
      · rw [hstate] at hpopped
        exact hpopped.tail
      · rw [hstate] at hpopped
        exact hpopped.tail.tail
    cases result with
    | none =>
      rw [hend]
      exact hshaped
    | some type =>
      rw [Tracker.push_state hend]
      exact hshaped

theorem scopeTag_mem_iff {state : List StackEntry} :
    .scopeTag ∈ state ↔ scopeFloors d state ≠ [] := by
  induction state with
  | nil => simp [scopeFloors]
  | cons entry rest ih => cases entry <;> simp [scopeFloors, ih]

/-- Inside a scope, with a depth that counts the slots. -/
structure Tracker.Inside (d : OperandType → Nat) (tr : Tracker) : Prop where
  shaped : Shaped tr.state
  scope : .scopeTag ∈ tr.state
  counts : tr.CountsSlots d

/-- No operand of any type is taken for a type with another number of slots. -/
def Narrow (d : OperandType → Nat) : Prop := ∀ op tr, ¬ TrackerOp.WidensAny d tr op

theorem Tracker.Inside.run (hd : SlotSizes d) (hn : Narrow d) {op : TrackerOp} (hl : op.Level)
    (h : tr.Inside d) (hrun : op.run o d tr = .ok tr') : tr'.Inside d where
  shaped := h.shaped.run hrun
  scope := by
    have hscope := h.scope
    rw [scopeTag_mem_iff] at hscope ⊢
    rwa [hl.floors hrun]
  counts := h.counts.run hd (hn op tr) hrun

theorem Tracker.CountsSlots.runOps (hd : SlotSizes d) (hn : Narrow d) {ops : List TrackerOp}
    (h : tr.CountsSlots d) (hrun : EosVm.runOps o d ops tr = .ok tr') : tr'.CountsSlots d :=
  runOps_invariant (fun op tr _ hcounts => hcounts.run hd (hn op tr)) h hrun

theorem Tracker.push_ok (ho : o.maxFuncLocalBytes = none) (h : tr.CountsSlots d)
    (hfit : slots d tr.state < uint32Max) (type : OperandType) :
    ∃ tr', tr.push o d type = .ok tr' := by
  have hdepth : tr.operandDepth < uint32Max := by
    rw [h]
    exact lt_of_le_of_lt (Nat.mod_le _ _) hfit
  have hbytes : ∃ checker, tr.localBytesChecker.pushStack o type = .ok checker := by
    unfold LocalBytesChecker.pushStack LocalBytesChecker.add
    rw [ho]
    split <;> exact ⟨_, rfl⟩
  obtain ⟨checker, hchecker⟩ := hbytes
  simp only [push, bind_eq_ok, vmAssert_eq_ok, pure_eq_ok, exists_const, decide_eq_true_eq]
  exact ⟨_, hdepth, checker, hchecker, rfl⟩

theorem Tracker.pop_ok {type : ValType} {c : List ValType}
    (hc : Covers tr.state (type :: c)) :
    ∃ tr', tr.pop o d (some type) = .ok tr' ∧ Covers tr'.state c := by
  cases hstate : tr.state with
  | nil =>
    rw [hstate] at hc
    cases hc
  | cons entry rest =>
    rw [hstate] at hc
    cases entry with
    | scopeTag => cases hc
    | unreachableTag =>
      refine ⟨tr, by simp only [pop, hstate], ?_⟩
      rw [hstate]
      trivial
    | operand t =>
      obtain ⟨t', c', heq, hadmits, hcovers⟩ := hc
      obtain ⟨rfl, rfl⟩ := List.cons.inj heq
      refine ⟨tr.remove o d (.val type), ?_, ?_⟩
      · simp only [pop, hstate, bind_eq_ok, vmAssert_eq_ok, pure_eq_ok, exists_const,
          Bool.or_eq_true, beq_iff_eq, and_true]
        cases t with
        | any => exact Or.inr rfl
        | val t =>
          obtain rfl : t = type := hadmits
          exact Or.inl rfl
      · rw [remove_state, hstate]
        exact hcovers

theorem Tracker.pop_slots_le {type : ValType} (h : tr.pop o d (some type) = .ok tr') :
    slots d tr'.state ≤ slots d tr.state := by
  rcases pop_cases h with ⟨rest, -, rfl⟩ | ⟨entry, rest, hstate, -, rfl⟩
  · exact le_refl _
  · rw [remove_state, hstate]
    exact Nat.le_add_left ..

theorem TrackerOp.popAny_ok {type : ValType} {c : List ValType}
    (hc : Covers tr.state (type :: c)) :
    ∃ tr', TrackerOp.popAny.run o d tr = .ok tr' ∧ (topType tr.state).Admits type ∧
      Covers tr'.state c := by
  cases hstate : tr.state with
  | nil =>
    rw [hstate] at hc
    cases hc
  | cons entry rest =>
    rw [hstate] at hc
    cases entry with
    | scopeTag => cases hc
    | unreachableTag =>
      refine ⟨tr, by simp only [run, Tracker.popAny, hstate, ok_bind, pure_eq_ok], trivial, ?_⟩
      rw [hstate]
      trivial
    | operand t =>
      obtain ⟨t', c', heq, hadmits, hcovers⟩ := hc
      obtain ⟨rfl, rfl⟩ := List.cons.inj heq
      refine ⟨tr.remove o d t, ?_, hadmits, ?_⟩
      · simp only [run, Tracker.popAny, hstate, ok_bind, pure_eq_ok]
      · rw [Tracker.remove_state, hstate]
        exact hcovers

theorem Tracker.top_ok (hd : SlotSizes d) (hn : Narrow d) (ho : o.maxFuncLocalBytes = none)
    (h : tr.Inside d) (hfit : slots d tr.state < uint32Max) {type : ValType} {c : List ValType}
    (hc : Covers tr.state (type :: c)) :
    ∃ tr', tr.top o d type = .ok tr' ∧ Covers tr'.state (type :: c) := by
  obtain ⟨mid, hpop, hmid⟩ := pop_ok (o := o) (d := d) hc
  have hcounts := h.counts.pop hd (hn _ tr) hpop
  have hle := pop_slots_le hpop
  obtain ⟨tr', hpush⟩ := mid.push_ok ho hcounts (by omega) (.val type)
  refine ⟨tr', bind_eq_ok.mpr ⟨mid, hpop, hpush⟩, ?_⟩
  rw [push_state hpush]
  exact ⟨type, c, rfl, rfl, hmid⟩

/-- A step from types that the stack stands for. -/
theorem StackStep.run_ok (hd : SlotSizes d) (hn : Narrow d) (ho : o.maxFuncLocalBytes = none)
    {op : TrackerOp} {c c' : List ValType} (h : StackStep op c c') (hin : tr.Inside d)
    (hfit : slots d tr.state < uint32Max) (hc : Covers tr.state c) :
    ∃ tr', op.run o d tr = .ok tr' ∧ Covers tr'.state c' ∧ tr'.Inside d := by
  have hlevel : op.Level := by
    cases h <;> trivial
  suffices ∃ tr', op.run o d tr = .ok tr' ∧ Covers tr'.state c' by
    obtain ⟨tr', hrun, hcovers⟩ := this
    exact ⟨tr', hrun, hcovers, hin.run hd hn hlevel hrun⟩
  cases h with
  | push type =>
    obtain ⟨tr', hpush⟩ := tr.push_ok ho hin.counts hfit (.val type)
    refine ⟨tr', hpush, ?_⟩
    rw [Tracker.push_state hpush]
    exact ⟨type, c, rfl, rfl, hc⟩
  | pop type => exact Tracker.pop_ok hc
  | popAny type =>
    obtain ⟨tr', hrun, -, hcovers⟩ := TrackerOp.popAny_ok (o := o) (d := d) hc
    exact ⟨tr', hrun, hcovers⟩
  | top type => exact Tracker.top_ok hd hn ho hin hfit hc
  | startUnreachable => exact ⟨_, rfl, trivial⟩

theorem StackSteps.run_ok (hd : SlotSizes d) (hn : Narrow d) (ho : o.maxFuncLocalBytes = none)
    {ops : List TrackerOp} {c c' : List ValType} (h : StackSteps ops c c') (hin : tr.Inside d)
    (hfit : ∀ before after mid, ops = before ++ after → runOps o d before tr = .ok mid →
      slots d mid.state < uint32Max) (hc : Covers tr.state c) :
    ∃ tr', runOps o d ops tr = .ok tr' ∧ Covers tr'.state c' := by
  induction h generalizing tr with
  | nil c => exact ⟨tr, rfl, hc⟩
  | @cons op ops c c₁ c' hop hops ih =>
    obtain ⟨mid, hrun, hcovers, hmid⟩ := hop.run_ok hd hn ho hin (hfit [] _ tr rfl rfl) hc
    have hlater : ∀ before after last, ops = before ++ after → runOps o d before mid = .ok last →
        slots d last.state < uint32Max := by
      intro before after last heq hlast
      refine hfit (op :: before) after last (by rw [heq]; rfl) ?_
      exact bind_eq_ok.mpr ⟨mid, hrun, hlast⟩
    obtain ⟨tr', hrest, hend⟩ := ih hmid hlater hcovers
    exact ⟨tr', bind_eq_ok.mpr ⟨mid, hrun, hrest⟩, hend⟩

/-- Operands that admit one type agree, and so does what `select` makes of them. -/
theorem SelectAgrees.of_admits {state : List StackEntry} {t : ValType}
    (h₁ : (selectTypes state).1.Admits t) (h₂ : (selectTypes state).2.Admits t) :
    SelectAgrees state ∧ (selectedType state).Admits t := by
  have hsel : selectedType state =
      if (selectTypes state).1 ≠ .any then (selectTypes state).1 else (selectTypes state).2 := rfl
  rw [hsel]
  unfold SelectAgrees
  cases hfirst : (selectTypes state).1 with
  | any => exact ⟨Or.inr (Or.inl rfl), h₂⟩
  | val t₁ =>
    rw [hfirst] at h₁
    obtain rfl : t₁ = t := h₁
    refine ⟨?_, rfl⟩
    cases hsecond : (selectTypes state).2 with
    | any => exact Or.inr (Or.inr rfl)
    | val t₂ =>
      rw [hsecond] at h₂
      obtain rfl : t₂ = t₁ := h₂
      exact Or.inl rfl

theorem runOps_select_ok (hd : SlotSizes d) (hn : Narrow d) (ho : o.maxFuncLocalBytes = none)
    {t : ValType} {c : List ValType} (hin : tr.Inside d) (hfit : slots d tr.state < uint32Max)
    (hc : Covers tr.state (.i32 :: t :: t :: c)) :
    SelectAgrees tr.state ∧ ∃ tr', runOps o d
      [.pop (some .i32), .popAny, .popAny, .push (selectedType tr.state)] tr = .ok tr' ∧
        Covers tr'.state (t :: c) := by
  obtain ⟨s₁, h₁, hc₁⟩ := Tracker.pop_ok (o := o) (d := d) hc
  obtain ⟨s₂, h₂, ht₂, hc₂⟩ := TrackerOp.popAny_ok (o := o) (d := d) hc₁
  obtain ⟨s₃, h₃, ht₃, hc₃⟩ := TrackerOp.popAny_ok (o := o) (d := d) hc₂
  have hs₁ := Tracker.pop_popState h₁
  have hs₂ := TrackerOp.popAny_popState h₂
  have hs₃ := TrackerOp.popAny_popState h₃
  rw [hs₁] at ht₂ hs₂
  rw [hs₂] at ht₃ hs₃
  obtain ⟨hagrees, hadmits⟩ := @SelectAgrees.of_admits tr.state t ht₂ ht₃
  have hcounts : s₃.CountsSlots d :=
    (((hin.counts.pop hd (hn _ tr) h₁).run hd (hn _ s₁) h₂).run hd (hn _ s₂) h₃)
  have hpops : ∀ state : List StackEntry, slots d (popState state) ≤ slots d state := by
    intro state
    unfold popState
    split
    · exact Nat.le_add_left ..
    · exact le_refl _
  have hle : slots d s₃.state ≤ slots d tr.state := by
    rw [hs₃]
    exact le_trans (hpops _) (le_trans (hpops _) (hpops _))
  obtain ⟨tr', hpush⟩ := s₃.push_ok ho hcounts (by omega) (selectedType tr.state)
  refine ⟨hagrees, tr', ?_, ?_⟩
  · refine bind_eq_ok.mpr ⟨s₁, h₁, bind_eq_ok.mpr ⟨s₂, h₂, bind_eq_ok.mpr ⟨s₃, h₃, ?_⟩⟩⟩
    rw [runOps_singleton]
    exact hpush
  · rw [Tracker.push_state hpush]
    exact ⟨t, c, rfl, hadmits, hc₃⟩

/-- A scope that stands for no operands can be closed. -/
theorem Tracker.close_ok (h : tr.Inside d) (hc : Covers tr.state []) :
    ∃ rest, tr.closeUnreachable.state = .scopeTag :: rest := by
  obtain ⟨hshaped, hscope, -⟩ := h
  unfold closeUnreachable
  cases hstate : tr.state with
  | nil =>
    rw [hstate] at hscope
    cases hscope
  | cons entry rest =>
    rw [hstate] at hshaped hscope hc
    cases entry with
    | scopeTag => exact ⟨rest, hstate⟩
    | unreachableTag =>
      cases rest with
      | nil => cases hscope with | tail _ hm => cases hm
      | cons below rest =>
        obtain rfl := hshaped.1 below rfl
        exact ⟨rest, rfl⟩
    | operand t =>
      obtain ⟨t', c', heq, -⟩ := hc
      cases heq

/-- The result of a scope that stands for it. -/
theorem Tracker.popResult_ok {result : Option ValType} (hc : Covers tr.state result.toList) :
    ∃ popped, tr.pop o d result = .ok popped ∧ Covers popped.state [] ∧
      slots d popped.state ≤ slots d tr.state := by
  cases result with
  | none => exact ⟨tr, rfl, hc, le_refl _⟩
  | some type =>
    obtain ⟨popped, hpop, hcovers⟩ := pop_ok (o := o) (d := d) hc
    exact ⟨popped, hpop, hcovers, pop_slots_le hpop⟩

/-- A scope that stands for its result can be closed. -/
theorem Tracker.popScope_ok (hd : SlotSizes d) (hn : Narrow d) (ho : o.maxFuncLocalBytes = none)
    (h : tr.Inside d) (hfit : slots d tr.state < uint32Max) {result : Option ValType}
    (hc : Covers tr.state result.toList) : ∃ tr', tr.popScope o d result = .ok tr' := by
  obtain ⟨popped, hpop, hcovers, hle⟩ := popResult_ok (o := o) (d := d) hc
  have hin : popped.Inside d :=
    h.run hd hn (show TrackerOp.Level (.pop result) from trivial) hpop
  obtain ⟨rest, hrest⟩ := close_ok hin hcovers
  have hempty : popped.state.isEmpty = false := by
    rcases closeUnreachable_state hrest with hstate | hstate <;> rw [hstate] <;> rfl
  have hslots : slots d rest ≤ slots d popped.state := by
    have heq := closeUnreachable_slots (d := d) popped
    rw [hrest, slots_scopeTag] at heq
    exact le_of_eq heq
  have hcounts : CountsSlots d { popped.closeUnreachable with state := rest } := by
    have hs := closeUnreachable_slots (d := d) popped
    rw [hrest, slots_scopeTag] at hs
    have hc' := hin.counts
    unfold CountsSlots at hc' ⊢
    simp only [closeUnreachable_operandDepth]
    rw [hs, hc']
  simp only [popScope, hpop, ok_bind, hempty, Bool.not_false, hrest, bind_eq_ok, vmAssert_eq_ok,
    exists_const, true_and]
  cases result with
  | none => exact ⟨_, rfl⟩
  | some type => exact push_ok ho hcounts (by simp only; omega) (.val type)

end

end EosVm
