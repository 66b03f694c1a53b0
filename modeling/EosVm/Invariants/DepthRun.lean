import EosVm.Invariants.StackBound

/-!
# Depth of the operand stack

`operand_depth` counts the slots of the operands in `state` modulo `2 ^ 32`, and the control stack
records for every open scope the slots below its tag.
-/

set_option autoImplicit false

namespace EosVm

open Lib

variable {W : CodeWriter}

theorem sub32_mod {a b : Nat} (h : b ≤ a) (hb : b ≤ 2) :
    sub32 (a % 2 ^ 32) b = (a - b) % 2 ^ 32 := by
  unfold sub32
  omega

theorem add32_mod (a b : Nat) : add32 (a % 2 ^ 32) b = (a + b) % 2 ^ 32 := by
  unfold add32
  omega

theorem sub32_of_le {a b : Nat} (h : b ≤ a) (ha : a < 2 ^ 32) : sub32 a b = a - b := by
  unfold sub32
  omega

/-- The depth counts the slots. -/
def Tracker.CountsSlots (d : OperandType → Nat) (tr : Tracker) : Prop :=
  tr.operandDepth = slots d tr.state % 2 ^ 32

section

variable {o : Options} {d : OperandType → Nat} {tr tr' : Tracker}

/-- The loop of `start_unreachable` subtracts the slots it pops. -/
theorem scopeOperands_depth (hd : SlotSizes d) (state : List StackEntry) :
    (Tracker.scopeOperands state).foldl (fun depth t => sub32 depth (d t))
      (slots d state % 2 ^ 32) = slots d (Tracker.scopeBase state) % 2 ^ 32 := by
  induction state with
  | nil => rfl
  | cons entry rest ih =>
    cases entry with
    | scopeTag => rfl
    | unreachableTag => exact ih
    | operand t =>
      have hle := hd.le_two t
      simp only [Tracker.scopeOperands, List.foldl_cons, slots_operand]
      rw [sub32_mod (Nat.le_add_right _ _) hle, Nat.add_sub_cancel_left]
      exact ih

theorem Tracker.CountsSlots.push {type : OperandType} (h : tr.CountsSlots d)
    (hrun : tr.push o d type = .ok tr') : tr'.CountsSlots d := by
  obtain ⟨-, checker, -, rfl⟩ := Tracker.push_cases hrun
  unfold CountsSlots at h ⊢
  rw [updateUsage_operandDepth, updateUsage_state]
  simp only [slots_operand]
  rw [h, add32_mod, Nat.add_comm]

theorem Tracker.CountsSlots.remove (hd : SlotSizes d) {entry type : OperandType}
    {rest : List StackEntry} (h : tr.CountsSlots d) (hstate : tr.state = .operand entry :: rest)
    (hsize : d entry = d type) : (tr.remove o d type).CountsSlots d := by
  have hle := hd.le_two type
  unfold CountsSlots at h ⊢
  rw [remove_state, hstate, List.tail_cons]
  rw [hstate, slots_operand, hsize] at h
  simp only [Tracker.remove]
  rw [h, sub32_mod (Nat.le_add_right _ _) hle, Nat.add_sub_cancel_left]

theorem Tracker.CountsSlots.pop (hd : SlotSizes d) {expected : Option ValType}
    (h : tr.CountsSlots d) (hn : ¬ TrackerOp.WidensAny d tr (.pop expected))
    (hrun : tr.pop o d expected = .ok tr') : tr'.CountsSlots d := by
  cases expected with
  | none =>
    rw [← Except.ok.inj hrun]
    exact h
  | some type =>
    rcases pop_narrow hn hrun with ⟨rest, -, rfl⟩ | ⟨entry, rest, hstate, hsize, rfl⟩
    · exact h
    · exact h.remove hd hstate hsize

@[simp] theorem Tracker.closeUnreachable_operandDepth (tr : Tracker) :
    tr.closeUnreachable.operandDepth = tr.operandDepth := by
  unfold closeUnreachable
  split <;> rfl

theorem Tracker.closeUnreachable_slots (tr : Tracker) :
    slots d tr.closeUnreachable.state = slots d tr.state := by
  unfold closeUnreachable
  split
  next rest hstate => rw [hstate, slots_unreachableTag]
  · rfl

/-- A narrow call keeps the count. -/
theorem Tracker.CountsSlots.run (hd : SlotSizes d) {op : TrackerOp} (hn : ¬ op.WidensAny d tr)
    (h : tr.CountsSlots d) (hrun : op.run o d tr = .ok tr') : tr'.CountsSlots d := by
  cases op with
  | push type => exact h.push hrun
  | pop expected => exact h.pop hd hn hrun
  | popAny =>
    obtain ⟨⟨type, tr₁⟩, hpop, hs⟩ := bind_eq_ok.mp hrun
    rw [← pure_eq_ok.mp hs]
    rcases popAny_cases hpop with ⟨rest, -, -, rfl⟩ | ⟨rest, hstate, rfl⟩
    · exact h
    · exact h.remove hd hstate rfl
  | top type =>
    obtain ⟨mid, hpop, hpush⟩ := top_cases hrun
    have hn' : ¬ TrackerOp.WidensAny d tr (.pop (some type)) := hn
    exact (h.pop hd hn' hpop).push hpush
  | startUnreachable =>
    rw [← pure_eq_ok.mp hrun]
    unfold CountsSlots at h ⊢
    simp only [startUnreachable, slots_unreachableTag]
    rw [h]
    exact scopeOperands_depth hd tr.state
  | pushScope =>
    rw [← pure_eq_ok.mp hrun]
    exact h
  | popScope result =>
    obtain ⟨popped, rest, hpop, hrest, hend⟩ := popScope_cases hrun
    have hpopped : popped.CountsSlots d := by
      cases result with
      | none => exact h.pop hd (fun hw : TrackerOp.WidensAny d tr (.pop none) => hw) hpop
      | some type =>
        exact h.pop hd (show ¬ TrackerOp.WidensAny d tr (.pop (some type)) from hn) hpop
    have hclosed : Tracker.CountsSlots d { popped.closeUnreachable with state := rest } := by
      have hs := closeUnreachable_slots (d := d) popped
      rw [hrest, slots_scopeTag] at hs
      unfold CountsSlots at hpopped ⊢
      simp only [closeUnreachable_operandDepth]
      rw [hs, hpopped]
    cases result with
    | none =>
      rw [hend]
      exact hclosed
    | some type => exact hclosed.push hend

/-- For every scope tag, innermost first, the slots below it. -/
def scopeFloors (d : OperandType → Nat) : List StackEntry → List Nat
  | [] => []
  | .scopeTag :: rest => slots d rest :: scopeFloors d rest
  | .unreachableTag :: rest => scopeFloors d rest
  | .operand _ :: rest => scopeFloors d rest

/-- The slots above scope tag number `label`, innermost tag first. -/
def slotsAbove (d : OperandType → Nat) : Nat → List StackEntry → Nat
  | _, [] => 0
  | 0, .scopeTag :: _ => 0
  | label + 1, .scopeTag :: rest => slotsAbove d label rest
  | label, .unreachableTag :: rest => slotsAbove d label rest
  | label, .operand t :: rest => d t + slotsAbove d label rest

theorem slots_eq_above_floor {label floor : Nat} {state : List StackEntry}
    (h : (scopeFloors d state)[label]? = some floor) :
    slots d state = slotsAbove d label state + floor := by
  induction state generalizing label with
  | nil => cases h
  | cons entry rest ih =>
    cases entry with
    | scopeTag =>
      cases label with
      | zero => simpa [scopeFloors, slotsAbove] using h
      | succ label => simpa [slotsAbove] using ih h
    | unreachableTag => simpa [slotsAbove] using ih h
    | operand t =>
      rw [slots_operand, ih h, slotsAbove, Nat.add_assoc]

theorem scopeFloors_scopeBase (state : List StackEntry) :
    scopeFloors d (Tracker.scopeBase state) = scopeFloors d state := by
  induction state with
  | nil => rfl
  | cons entry rest ih =>
    cases entry with
    | scopeTag => rfl
    | unreachableTag => exact ih
    | operand t => exact ih

theorem scopeFloors_popState (state : List StackEntry) :
    scopeFloors d (popState state) = scopeFloors d state := by
  unfold popState
  split <;> rfl

/-- The calls that neither open nor close a scope. -/
def TrackerOp.Level : TrackerOp → Prop
  | .pushScope | .popScope _ => False
  | _ => True

theorem Tracker.pop_floors {expected : Option ValType} (h : tr.pop o d expected = .ok tr') :
    scopeFloors d tr'.state = scopeFloors d tr.state := by
  cases expected with
  | none => rw [← Except.ok.inj h]
  | some type =>
    rcases pop_cases h with ⟨rest, -, rfl⟩ | ⟨entry, rest, hstate, -, rfl⟩
    · rfl
    · rw [remove_state, hstate, List.tail_cons, scopeFloors]

theorem Tracker.push_floors {type : OperandType} (h : tr.push o d type = .ok tr') :
    scopeFloors d tr'.state = scopeFloors d tr.state := by
  rw [push_state h, scopeFloors]

theorem TrackerOp.Level.floors {op : TrackerOp} (hl : op.Level) (h : op.run o d tr = .ok tr') :
    scopeFloors d tr'.state = scopeFloors d tr.state := by
  cases op with
  | push type => exact Tracker.push_floors h
  | pop expected => exact Tracker.pop_floors h
  | popAny =>
    rw [TrackerOp.popAny_popState h, scopeFloors_popState]
  | top type =>
    obtain ⟨mid, hpop, hpush⟩ := Tracker.top_cases h
    rw [Tracker.push_floors hpush, Tracker.pop_floors hpop]
  | startUnreachable =>
    rw [← pure_eq_ok.mp h]
    exact scopeFloors_scopeBase tr.state
  | pushScope => exact hl.elim
  | popScope result => exact hl.elim

theorem runOps_floors {ops : List TrackerOp} (hl : ∀ op ∈ ops, op.Level)
    (h : runOps o d ops tr = .ok tr') : scopeFloors d tr'.state = scopeFloors d tr.state := by
  induction ops generalizing tr with
  | nil => rw [← pure_eq_ok.mp h]
  | cons op ops ih =>
    obtain ⟨mid, hop, hrest⟩ := bind_eq_ok.mp h
    rw [ih (fun op hm => hl op (List.mem_cons_of_mem _ hm)) hrest,
      (hl op (List.mem_cons_self ..)).floors hop]

/-- `pop_scope` goes back to the floor of the scope and pushes the result on it. -/
theorem Tracker.popScope_floors {result : Option ValType} (h : tr.popScope o d result = .ok tr') :
    ∃ rest, scopeFloors d tr.state = slots d rest :: scopeFloors d rest ∧
      tr'.state = (result.map fun type => StackEntry.operand (.val type)).toList ++ rest := by
  obtain ⟨popped, rest, hpop, hrest, hend⟩ := popScope_cases h
  refine ⟨rest, ?_, ?_⟩
  · have hpopped := pop_floors hpop
    rw [← hpopped]
    rcases closeUnreachable_state hrest with hs | hs <;> rw [hs] <;> rfl
  · cases result with
    | none => rw [hend]; rfl
    | some type => rw [push_state hend]; rfl

end

/-- The control stack records the floors of the open scopes. -/
def BodyState.Aligned (s : BodyState W) : Prop :=
  s.ctrl.map Ctrl.operandDepth = scopeFloors W.getDepthForType s.opStack.state

/-- The instructions that open or close a scope. -/
def Instr.scopes : Instr → Bool
  | .block _ | .loop _ | .if_ _ | .else_ | .end_ => true
  | _ => false

theorem labelOps_level {ctrl : List Ctrl} {label : Nat} :
    ∀ op ∈ labelOps ctrl label, op.Level := by
  intro op hm
  obtain ⟨type, rfl⟩ := labelOps_top ctrl label op hm
  trivial

theorem operandOps_level {types : List ValType} : ∀ op ∈ operandOps types, op.Level := by
  intro op hm
  obtain ⟨type, -, rfl⟩ := List.mem_map.mp hm
  trivial

theorem callOps_level {ft : FuncType} : ∀ op ∈ callOps ft, op.Level := by
  intro op hm
  rcases List.mem_append.mp hm with hm | hm
  · exact operandOps_level op hm
  · cases hr : ft.result with
    | none =>
      rw [hr] at hm
      cases hm
    | some type =>
      rw [hr] at hm
      rw [List.mem_singleton.mp hm]
      trivial

theorem instrOps_level {env : BodyEnv} {ctrl : List Ctrl} {state : List StackEntry} {instr : Instr}
    (h : instr.scopes = false) : ∀ op ∈ instrOps env ctrl state instr, op.Level := by
  cases instr with
  | block bt | loop bt | if_ bt | else_ | end_ => cases h
  | return_ | br label | brIf label =>
    simpa [instrOps, or_imp, forall_and, TrackerOp.Level] using labelOps_level
  | brTable labels default =>
    intro op hm
    simp only [instrOps, List.cons_append, List.mem_cons, List.mem_append, List.mem_flatMap,
      List.not_mem_nil, or_false] at hm
    rcases hm with rfl | (⟨label, -, hm⟩ | hm) | rfl
    · trivial
    · exact labelOps_level op hm
    · exact labelOps_level op hm
    · trivial
  | call funcnum =>
    simp only [instrOps]
    split
    · exact callOps_level
    · simp
  | callIndirect functypeidx =>
    simp only [instrOps]
    split
    · simpa [TrackerOp.Level] using callOps_level
    · simp
  | numeric op | vecNumeric op =>
    simpa [instrOps, or_imp, forall_and, TrackerOp.Level] using operandOps_level
  | getLocal i | setLocal i | teeLocal i | getGlobal i | setGlobal i =>
    simp only [instrOps]
    split <;> simp [TrackerOp.Level]
  | _ => simp [instrOps, TrackerOp.Level]

/-- A scope is entered at the depth of the stack below its tag. -/
theorem TrackerOp.pushScope_floors {o : Options} {d : OperandType → Nat} {tr tr' : Tracker}
    (h : TrackerOp.pushScope.run o d tr = .ok tr') :
    scopeFloors d tr'.state = slots d tr'.state :: scopeFloors d tr.state := by
  rw [← pure_eq_ok.mp h]
  rfl

theorem BodyState.Aligned.step {env : BodyEnv} {p q : BodyPoint W} (ha : p.state.Aligned)
    (hdepth : q.state.opStack.operandDepth = slots W.getDepthForType q.state.opStack.state)
    (h : BodyStep env p q) : q.state.Aligned := by
  obtain ⟨instr, hrest, hops, hctrl⟩ := h.calls
  obtain ⟨instr', hrest', -, hproc⟩ := h
  obtain ⟨rfl, -⟩ := List.cons.inj (hrest.symm.trans hrest')
  unfold BodyState.Aligned at ha ⊢
  rw [hctrl]
  by_cases hs : instr.scopes = false
  · have hfloors := runOps_floors (instrOps_level hs) hops
    have hsame : ctrlAfter env.options q.state.opStack p.state.ctrl instr = p.state.ctrl := by
      cases instr <;> first | rfl | cases hs
    rw [hsame, hfloors, ha]
  · cases instr <;> try exact absurd rfl hs
    all_goals simp only [processInstr, bind_eq_ok] at hproc
    case block bt =>
      obtain ⟨result, hr, -⟩ := hproc
      rw [instrOps, runOps_singleton] at hops
      rw [TrackerOp.pushScope_floors hops, ← ha, ← hdepth, ctrlAfter_block hr, List.map_cons]
    case loop bt =>
      obtain ⟨result, hr, -⟩ := hproc
      rw [instrOps, runOps_singleton] at hops
      rw [TrackerOp.pushScope_floors hops, ← ha, ← hdepth, ctrlAfter_loop hr, List.map_cons]
    case if_ bt =>
      obtain ⟨-, -, result, hr, -⟩ := hproc
      obtain ⟨mid, hpop, hpush⟩ := bind_eq_ok.mp hops
      have hlevel : TrackerOp.Level (.pop (some .i32)) := trivial
      rw [runOps_singleton] at hpush
      rw [TrackerOp.pushScope_floors hpush, hlevel.floors hpop, ← ha, ← hdepth, ctrlAfter_if hr,
        List.map_cons]
    case else_ =>
      obtain ⟨popped, hpop, hrest₁⟩ := bind_eq_ok.mp hops
      obtain ⟨closed, hclose, hpush⟩ := bind_eq_ok.mp hrest₁
      have hlevel : TrackerOp.Level (.pop (p.state.ctrl.head?.bind Ctrl.expectedResult)) := trivial
      rw [runOps_singleton] at hpush
      obtain ⟨rest, hfloors, hstate⟩ := Tracker.popScope_floors hclose
      have hq : q.state.opStack.state = .scopeTag :: rest := by
        rw [← pure_eq_ok.mp hpush]
        simpa [Tracker.pushScope] using hstate
      rw [hq, scopeFloors, ← hfloors, hlevel.floors hpop, ← ha]
      cases p.state.ctrl <;> rfl
    case end_ =>
      rw [instrOps, runOps_singleton] at hops
      obtain ⟨rest, hfloors, hstate⟩ := Tracker.popScope_floors hops
      rw [hfloors] at ha
      have htail : scopeFloors W.getDepthForType q.state.opStack.state =
          scopeFloors W.getDepthForType rest := by
        rw [hstate]
        cases p.state.ctrl.head?.bind Ctrl.expectedResult <;> rfl
      change p.state.ctrl.tail.map Ctrl.operandDepth = _
      rw [htail, List.map_tail, ha, List.tail_cons]

section

variable {env : BodyEnv} {start p q : BodyPoint W} {bounds : Nat}

/-- Where a body starts: an empty operand stack and at most `bounds` bytes of code. -/
structure BodyPoint.Initial (start : BodyPoint W) (bounds : Nat) : Prop where
  state : start.state.opStack.state = [.scopeTag]
  depth : start.state.opStack.operandDepth = 0
  ctrl : start.state.ctrl.map Ctrl.operandDepth = [0]
  bytes : codeBytes start.rest ≤ bounds

theorem bodyStart_initial {checker : LocalBytesChecker} {writer : W.State}
    {nested : Nat} {instrs : List Instr} (hbytes : codeBytes instrs ≤ bounds) :
    (bodyStart env checker writer nested instrs).Initial bounds where
  state := Tracker.updateUsage_state ..
  depth := Tracker.updateUsage_operandDepth ..
  ctrl := rfl
  bytes := hbytes

theorem NeverWidens.countsSlots (hn : NeverWidens W.getDepthForType env start)
    (hd : SlotSizes W.getDepthForType)
    (hi : start.Initial bounds) :
    (∀ p, BodyReaches env start p → p.state.opStack.CountsSlots W.getDepthForType) ∧
      ∀ tr, TrackerPoint env start tr → tr.CountsSlots W.getDepthForType := by
  refine tracker_invariant ?_ hn fun op tr tr' hnarrow hcounts hrun => hcounts.run hd hnarrow hrun
  rw [Tracker.CountsSlots, hi.state, hi.depth]
  rfl

/-- The depth is exact at every point of the run. -/
theorem NeverWidens.depth_eq (hn : NeverWidens W.getDepthForType env start)
    (hd : SlotSizes W.getDepthForType)
    (hi : start.Initial bounds) (hb : bounds < 2 ^ 32) (hp : BodyReaches env start p) :
    p.state.opStack.operandDepth = slots W.getDepthForType p.state.opStack.state := by
  have hroom := hn.room hd hi.state hi.bytes hp
  have hle := slots_le_potential (d := W.getDepthForType) p.state.opStack.state
  rw [(hn.countsSlots hd hi).1 p hp]
  exact Nat.mod_eq_of_lt (by omega)

/-- The depth is exact between any two calls of the run. -/
theorem NeverWidens.call_depth_eq (hn : NeverWidens W.getDepthForType env start)
    (hd : SlotSizes W.getDepthForType)
    (hi : start.Initial bounds) (hb : bounds < 2 ^ 32) {tr : Tracker}
    (h : TrackerPoint env start tr) : tr.operandDepth = slots W.getDepthForType tr.state := by
  have hle := (hn.size_le hd hi.state hi.bytes h).1
  rw [(hn.countsSlots hd hi).2 tr h]
  exact Nat.mod_eq_of_lt (by omega)

theorem NeverWidens.aligned (hn : NeverWidens W.getDepthForType env start)
    (hd : SlotSizes W.getDepthForType)
    (hi : start.Initial bounds) (hb : bounds < 2 ^ 32) (hp : BodyReaches env start p) :
    p.state.Aligned := by
  induction hp with
  | refl =>
    unfold BodyState.Aligned
    rw [hi.ctrl, hi.state]
    rfl
  | tail hp hstep ih => exact ih.step (hn.depth_eq hd hi hb (hp.tail hstep)) hstep

end

end EosVm
