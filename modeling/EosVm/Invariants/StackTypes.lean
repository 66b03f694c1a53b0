import EosVm.Invariants.DepthRun

/-!
# Types behind the operand stack

The innermost scope of the tracker stands for all lists of value types that agree with its operands:
an operand of any type stands for every type, and below the unreachable tag there may be anything.
Calls of the tracker then are steps between such lists. In both directions: a call that succeeds is
a step to every list that its result stands for, and a step from a list that the stack stands for
is a call that succeeds.
-/

set_option autoImplicit false

namespace EosVm

open Lib

/-- The value types an operand stands for. -/
def OperandType.Admits : OperandType → ValType → Prop
  | .any, _ => True
  | .val t, t' => t = t'

/-- The innermost scope of the stack stands for the types `c`. -/
def Covers : List StackEntry → List ValType → Prop
  | [], c => c = []
  | .scopeTag :: _, c => c = []
  | .unreachableTag :: _, _ => True
  | .operand o :: rest, c => ∃ t c', c = t :: c' ∧ o.Admits t ∧ Covers rest c'

/-- The stack below the innermost scope. -/
def scopeBelow : List StackEntry → List StackEntry
  | [] => []
  | .scopeTag :: rest => rest
  | _ :: rest => scopeBelow rest

/-- An unreachable tag is the lowest entry of its scope. -/
def Shaped : List StackEntry → Prop
  | [] => True
  | .unreachableTag :: rest => (∀ entry ∈ rest.head?, entry = .scopeTag) ∧ Shaped rest
  | _ :: rest => Shaped rest

theorem OperandType.exists_admits (t : OperandType) : ∃ type, t.Admits type := by
  cases t with
  | any => exact ⟨.i32, trivial⟩
  | val type => exact ⟨type, rfl⟩

/-- Every stack stands for something. -/
theorem exists_covers (state : List StackEntry) : ∃ c, Covers state c := by
  induction state with
  | nil => exact ⟨[], rfl⟩
  | cons entry rest ih =>
    cases entry with
    | scopeTag => exact ⟨[], rfl⟩
    | unreachableTag => exact ⟨[], trivial⟩
    | operand t =>
      obtain ⟨type, ht⟩ := t.exists_admits
      obtain ⟨c, hc⟩ := ih
      exact ⟨type :: c, type, c, rfl, ht, hc⟩

theorem covers_val {t : ValType} {rest : List StackEntry} {c : List ValType} :
    Covers (.operand (.val t) :: rest) c ↔ ∃ c', c = t :: c' ∧ Covers rest c' := by
  constructor
  · rintro ⟨t', c', rfl, rfl, hc⟩
    exact ⟨c', rfl, hc⟩
  · rintro ⟨c', rfl, hc⟩
    exact ⟨t, c', rfl, rfl, hc⟩

theorem covers_scope {rest : List StackEntry} {c : List ValType} :
    Covers (.scopeTag :: rest) c ↔ c = [] := Iff.rfl

/-- What a call that stays in its scope does to the types of the operands. -/
inductive StackStep : TrackerOp → List ValType → List ValType → Prop where
  | push (t : ValType) (c : List ValType) : StackStep (.push (.val t)) c (t :: c)
  | pop (t : ValType) (c : List ValType) : StackStep (.pop (some t)) (t :: c) c
  | popAny (t : ValType) (c : List ValType) : StackStep .popAny (t :: c) c
  | top (t : ValType) (c : List ValType) : StackStep (.top t) (t :: c) (t :: c)
  | startUnreachable (c c' : List ValType) : StackStep .startUnreachable c c'

/-- The steps of a sequence of calls. -/
inductive StackSteps : List TrackerOp → List ValType → List ValType → Prop where
  | nil (c : List ValType) : StackSteps [] c c
  | cons {op : TrackerOp} {ops : List TrackerOp} {c c₁ c' : List ValType}
      (hop : StackStep op c c₁) (hops : StackSteps ops c₁ c') : StackSteps (op :: ops) c c'

@[simp] theorem stackStep_push {t : ValType} {c c' : List ValType} :
    StackStep (.push (.val t)) c c' ↔ c' = t :: c := by
  constructor
  · rintro ⟨⟩
    rfl
  · rintro rfl
    exact .push t c

@[simp] theorem stackStep_pop {t : ValType} {c c' : List ValType} :
    StackStep (.pop (some t)) c c' ↔ c = t :: c' := by
  constructor
  · rintro ⟨⟩
    rfl
  · rintro rfl
    exact .pop t c'

@[simp] theorem stackStep_popAny {c c' : List ValType} :
    StackStep .popAny c c' ↔ ∃ t, c = t :: c' := by
  constructor
  · rintro ⟨⟩
    exact ⟨_, rfl⟩
  · rintro ⟨t, rfl⟩
    exact .popAny t c'

@[simp] theorem stackStep_top {t : ValType} {c c' : List ValType} :
    StackStep (.top t) c c' ↔ c' = c ∧ ∃ rest, c = t :: rest := by
  constructor
  · rintro ⟨⟩
    exact ⟨rfl, _, rfl⟩
  · rintro ⟨rfl, rest, rfl⟩
    exact .top t rest

@[simp] theorem stackStep_startUnreachable {c c' : List ValType} :
    StackStep .startUnreachable c c' ↔ True := by
  constructor
  · intro
    trivial
  · intro
    exact .startUnreachable c c'

@[simp] theorem stackSteps_nil {c c' : List ValType} : StackSteps [] c c' ↔ c' = c := by
  constructor
  · rintro ⟨⟩
    rfl
  · rintro rfl
    exact .nil c'

@[simp] theorem stackSteps_cons {op : TrackerOp} {ops : List TrackerOp} {c c' : List ValType} :
    StackSteps (op :: ops) c c' ↔ ∃ c₁, StackStep op c c₁ ∧ StackSteps ops c₁ c' := by
  constructor
  · rintro (_ | ⟨hop, hops⟩)
    exact ⟨_, hop, hops⟩
  · rintro ⟨c₁, hop, hops⟩
    exact .cons hop hops

@[simp] theorem stackSteps_append {ops ops' : List TrackerOp} {c c' : List ValType} :
    StackSteps (ops ++ ops') c c' ↔ ∃ c₁, StackSteps ops c c₁ ∧ StackSteps ops' c₁ c' := by
  induction ops generalizing c with
  | nil => simp
  | cons op ops ih =>
    simp only [List.cons_append, stackSteps_cons, ih]
    constructor
    · rintro ⟨c₁, hop, c₂, hops, hrest⟩
      exact ⟨c₂, ⟨c₁, hop, hops⟩, hrest⟩
    · rintro ⟨c₂, ⟨c₁, hop, hops⟩, hrest⟩
      exact ⟨c₁, hop, c₂, hops, hrest⟩

/-- The pops of the operands of an instruction. -/
@[simp] theorem stackSteps_operandOps {types : List ValType} {c c' : List ValType} :
    StackSteps (operandOps types) c c' ↔ c = types.reverse ++ c' := by
  unfold operandOps
  induction types.reverse generalizing c with
  | nil =>
    simp only [List.map_nil, stackSteps_nil, List.nil_append]
    exact eq_comm
  | cons t ts ih =>
    simp only [List.map_cons, stackSteps_cons, stackStep_pop, ih, List.cons_append]
    constructor
    · rintro ⟨c₁, rfl, rfl⟩
      rfl
    · rintro rfl
      exact ⟨ts ++ c', rfl, rfl⟩

@[simp] theorem stackSteps_resultOps {result : Option ValType} {c c' : List ValType} :
    StackSteps (resultOps result) c c' ↔ c' = result.toList ++ c := by
  cases result <;> simp [resultOps]

/-- The calls for a label leave the types alone, which start with its result. -/
theorem stackSteps_labelOps {ctrl : List Ctrl} {label : Nat} {k : Ctrl}
    (hlabel : ctrl[label]? = some k) {c c' : List ValType} :
    StackSteps (labelOps ctrl label) c c' ↔
      c' = c ∧ ∃ rest, c = k.labelResult.toList ++ rest := by
  unfold labelOps
  rw [hlabel]
  obtain ⟨depth, expected, result, isIf⟩ := k
  cases result with
  | none => simp
  | some t =>
    simp only [stackSteps_cons, stackStep_top, stackSteps_nil]
    constructor
    · rintro ⟨c₁, ⟨rfl, rest, rfl⟩, rfl⟩
      exact ⟨rfl, rest, rfl⟩
    · rintro ⟨rfl, rest, rfl⟩
      exact ⟨_, ⟨rfl, rest, rfl⟩, rfl⟩

/-- The calls that have a step: those that stay in their scope, without a push of any type. -/
def TrackerOp.Steps : TrackerOp → Prop
  | .push (.val _) | .pop (some _) | .popAny | .top _ | .startUnreachable => True
  | _ => False

section

variable {o : Options} {d : OperandType → Nat} {tr tr' : Tracker}

theorem covers_popped {type : ValType} {c : List ValType} (h : tr.pop o d (some type) = .ok tr')
    (hc : Covers tr'.state c) : Covers tr.state (type :: c) := by
  rcases Tracker.pop_cases h with ⟨rest, hstate, rfl⟩ | ⟨entry, rest, hstate, hentry, rfl⟩
  · rw [hstate]
    trivial
  · rw [Tracker.remove_state, hstate, List.tail_cons] at hc
    rw [hstate]
    refine ⟨type, c, rfl, ?_, hc⟩
    rcases hentry with rfl | rfl
    · rfl
    · trivial

theorem covers_pushed {type : ValType} {c : List ValType} (h : tr.push o d (.val type) = .ok tr')
    (hc : Covers tr'.state c) : ∃ c', c = type :: c' ∧ Covers tr.state c' := by
  rw [Tracker.push_state h] at hc
  exact covers_val.mp hc

/-- A call that succeeds is a step to every list its result stands for. -/
theorem StackStep.of_run {op : TrackerOp} (hsteps : op.Steps) (h : op.run o d tr = .ok tr')
    {c' : List ValType} (hc : Covers tr'.state c') : ∃ c, Covers tr.state c ∧
    StackStep op c c' := by
  cases op with
  | push t =>
    cases t with
    | any => exact hsteps.elim
    | val type =>
      obtain ⟨c, rfl, hcovers⟩ := covers_pushed h hc
      exact ⟨c, hcovers, .push type c⟩
  | pop expected =>
    cases expected with
    | none => exact hsteps.elim
    | some type => exact ⟨type :: c', covers_popped h hc, .pop type c'⟩
  | popAny =>
    obtain ⟨⟨type, popped⟩, hp, hpure⟩ := bind_eq_ok.mp h
    obtain rfl := pure_eq_ok.mp hpure
    rcases Tracker.popAny_cases hp with ⟨rest, hstate, -, rfl⟩ | ⟨rest, hstate, rfl⟩
    · refine ⟨.i32 :: c', ?_, .popAny .i32 c'⟩
      rw [hstate]
      trivial
    · obtain ⟨t, ht⟩ := type.exists_admits
      rw [Tracker.remove_state, hstate, List.tail_cons] at hc
      refine ⟨t :: c', ?_, .popAny t c'⟩
      rw [hstate]
      exact ⟨t, c', rfl, ht, hc⟩
  | top type =>
    obtain ⟨mid, hpop, hpush⟩ := Tracker.top_cases h
    obtain ⟨c, rfl, hcovers⟩ := covers_pushed hpush hc
    exact ⟨type :: c, covers_popped hpop hcovers, .top type c⟩
  | startUnreachable =>
    obtain ⟨c, hcovers⟩ := exists_covers tr.state
    exact ⟨c, hcovers, .startUnreachable c c'⟩
  | pushScope => exact hsteps.elim
  | popScope result => exact hsteps.elim

theorem StackSteps.of_run {ops : List TrackerOp} (hsteps : ∀ op ∈ ops, op.Steps)
    (h : runOps o d ops tr = .ok tr') {c' : List ValType} (hc : Covers tr'.state c') :
    ∃ c, Covers tr.state c ∧ StackSteps ops c c' := by
  induction ops generalizing tr with
  | nil =>
    obtain rfl := pure_eq_ok.mp h
    exact ⟨c', hc, .nil c'⟩
  | cons op ops ih =>
    obtain ⟨hop, hops⟩ := List.forall_mem_cons.mp hsteps
    obtain ⟨mid, hm, hrest⟩ := bind_eq_ok.mp h
    obtain ⟨c₁, hmid, hlater⟩ := ih hops hrest
    obtain ⟨c, hcovers, hfirst⟩ := StackStep.of_run hop hm hmid
    exact ⟨c, hcovers, .cons hfirst hlater⟩

theorem scopeBelow_scopeBase (state : List StackEntry) :
    scopeBelow (Tracker.scopeBase state) = scopeBelow state := by
  unfold Tracker.scopeBase
  induction state with
  | nil => rfl
  | cons entry rest ih =>
    cases entry with
    | scopeTag => rfl
    | unreachableTag => exact ih
    | operand t => exact ih

theorem Tracker.pop_scopeBelow {expected : Option ValType} (h : tr.pop o d expected = .ok tr') :
    scopeBelow tr'.state = scopeBelow tr.state := by
  cases expected with
  | none => rw [← Except.ok.inj h]
  | some type =>
    rcases pop_cases h with ⟨rest, -, rfl⟩ | ⟨entry, rest, hstate, -, rfl⟩
    · rfl
    · rw [remove_state, hstate]
      rfl

/-- A call that stays in its scope leaves the stack below the scope alone. -/
theorem TrackerOp.Level.scopeBelow {op : TrackerOp} (hl : op.Level)
    (h : op.run o d tr = .ok tr') : scopeBelow tr'.state = EosVm.scopeBelow tr.state := by
  cases op with
  | push type =>
    rw [Tracker.push_state h]
    rfl
  | pop expected => exact Tracker.pop_scopeBelow h
  | popAny =>
    obtain ⟨⟨type, popped⟩, hp, hpure⟩ := bind_eq_ok.mp h
    obtain rfl := pure_eq_ok.mp hpure
    rcases Tracker.popAny_cases hp with ⟨rest, -, -, rfl⟩ | ⟨rest, hstate, rfl⟩
    · rfl
    · rw [Tracker.remove_state, hstate]
      rfl
  | top type =>
    obtain ⟨mid, hpop, hpush⟩ := Tracker.top_cases h
    rw [← Tracker.pop_scopeBelow hpop, Tracker.push_state hpush]
    rfl
  | startUnreachable =>
    obtain rfl := pure_eq_ok.mp h
    exact scopeBelow_scopeBase tr.state
  | pushScope => exact hl.elim
  | popScope result => exact hl.elim

theorem runOps_scopeBelow {ops : List TrackerOp} (hl : ∀ op ∈ ops, op.Level)
    (h : runOps o d ops tr = .ok tr') : scopeBelow tr'.state = scopeBelow tr.state := by
  induction ops generalizing tr with
  | nil => rw [← pure_eq_ok.mp h]
  | cons op ops ih =>
    obtain ⟨hop, hops⟩ := List.forall_mem_cons.mp hl
    obtain ⟨mid, hm, hrest⟩ := bind_eq_ok.mp h
    rw [ih hops hrest, hop.scopeBelow hm]

/-- The result of a scope as an entry of the stack around it. -/
def resultEntries (result : Option ValType) : List StackEntry :=
  result.toList.map fun t => .operand (.val t)

theorem covers_result {result : Option ValType} {rest : List StackEntry} {c : List ValType} :
    Covers (resultEntries result ++ rest) c ↔ ∃ c', c = result.toList ++ c' ∧ Covers rest c' := by
  cases result with
  | none =>
    constructor
    · intro hc
      exact ⟨c, rfl, hc⟩
    · rintro ⟨c', rfl, hc⟩
      exact hc
  | some t => exact covers_val

/-- The end of a scope: it stands for its result, and the result is pushed on the stack below. -/
theorem Tracker.popScope_covers {result : Option ValType} (h : tr.popScope o d result = .ok tr') :
    Covers tr.state result.toList ∧
      tr'.state = resultEntries result ++ scopeBelow tr.state := by
  obtain ⟨popped, rest, hp, hrest, hend⟩ := popScope_cases h
  have hclosed : Covers popped.state [] ∧ scopeBelow popped.state = rest := by
    rcases closeUnreachable_state hrest with hstate | hstate
    · rw [hstate]
      exact ⟨rfl, rfl⟩
    · rw [hstate]
      exact ⟨trivial, rfl⟩
  rw [← pop_scopeBelow hp, hclosed.2]
  cases result with
  | none =>
    obtain rfl := Except.ok.inj hp
    rw [hend]
    exact ⟨hclosed.1, rfl⟩
  | some type =>
    rw [push_state hend]
    exact ⟨covers_popped hp hclosed.1, rfl⟩

/-- The calls of `else`: the scope stands for the result, and a new one starts. -/
theorem runOps_else {result : Option ValType}
    (h : runOps o d [.pop result, .popScope none, .pushScope] tr = .ok tr') :
    Covers tr.state result.toList ∧ tr'.state = .scopeTag :: scopeBelow tr.state := by
  obtain ⟨popped, hp, hrest⟩ := bind_eq_ok.mp h
  obtain ⟨closed, hclose, hpush⟩ := bind_eq_ok.mp hrest
  rw [runOps_singleton] at hpush
  obtain rfl := pure_eq_ok.mp hpush
  obtain ⟨hcovers, hstate⟩ := Tracker.popScope_covers hclose
  have hbelow := Tracker.pop_scopeBelow hp
  refine ⟨?_, ?_⟩
  · cases result with
    | none =>
      obtain rfl := Except.ok.inj hp
      exact hcovers
    | some type => exact covers_popped hp hcovers
  · rw [← hbelow]
    simp only [Tracker.pushScope, hstate]
    rfl

theorem covers_popAny {type : ValType} {c : List ValType}
    (h : TrackerOp.popAny.run o d tr = .ok tr') (ht : (topType tr.state).Admits type)
    (hc : Covers tr'.state c) : Covers tr.state (type :: c) := by
  obtain ⟨⟨t, popped⟩, hp, hpure⟩ := bind_eq_ok.mp h
  obtain rfl := pure_eq_ok.mp hpure
  rcases Tracker.popAny_cases hp with ⟨rest, hstate, -, rfl⟩ | ⟨rest, hstate, rfl⟩
  · rw [hstate]
    trivial
  · rw [Tracker.remove_state, hstate, List.tail_cons] at hc
    rw [hstate] at ht ⊢
    exact ⟨type, c, rfl, ht, hc⟩

/-- The types of the operands of `select`. -/
def selectTypes (state : List StackEntry) : OperandType × OperandType :=
  (topType (popState state), topType (popState (popState state)))

/-- `EOS_VM_ASSERT(t0 == t1 || t0 == any_type || t1 == any_type, ..)`. -/
def SelectAgrees (state : List StackEntry) : Prop :=
  (selectTypes state).1 = (selectTypes state).2 ∨ (selectTypes state).1 = .any ∨
    (selectTypes state).2 = .any

theorem SelectAgrees.admits {state : List StackEntry} {t : ValType} (h : SelectAgrees state)
    (ht : (selectedType state).Admits t) :
    (selectTypes state).1.Admits t ∧ (selectTypes state).2.Admits t := by
  have hsel : selectedType state =
      if (selectTypes state).1 ≠ .any then (selectTypes state).1 else (selectTypes state).2 := rfl
  rw [hsel] at ht
  by_cases hany : (selectTypes state).1 = .any
  · rw [if_neg (not_not_intro hany)] at ht
    rw [hany]
    exact ⟨trivial, ht⟩
  · rw [if_pos hany] at ht
    refine ⟨ht, ?_⟩
    rcases h with hsame | hfirst | hsecond
    · rwa [← hsame]
    · exact absurd hfirst hany
    · rw [hsecond]
      trivial

/-- `select`: both operands have the type that is pushed. -/
theorem runOps_select {c' : List ValType}
    (h : runOps o d [.pop (some .i32), .popAny, .popAny, .push (selectedType tr.state)] tr =
      .ok tr') (hagrees : SelectAgrees tr.state) (hc : Covers tr'.state c') :
    ∃ t c, c' = t :: c ∧ Covers tr.state (.i32 :: t :: t :: c) := by
  obtain ⟨s₁, h₁, hrest⟩ := bind_eq_ok.mp h
  obtain ⟨s₂, h₂, hrest⟩ := bind_eq_ok.mp hrest
  obtain ⟨s₃, h₃, hpush⟩ := bind_eq_ok.mp hrest
  rw [runOps_singleton] at hpush
  rw [Tracker.push_state hpush] at hc
  obtain ⟨t, c, rfl, hadmits, hcovers⟩ := hc
  obtain ⟨hfirst, hsecond⟩ := hagrees.admits hadmits
  refine ⟨t, c, rfl, covers_popped h₁ (covers_popAny h₂ ?_ (covers_popAny h₃ ?_ hcovers))⟩
  · rw [Tracker.pop_popState h₁]
    exact hfirst
  · rw [TrackerOp.popAny_popState h₂, Tracker.pop_popState h₁]
    exact hsecond

end

end EosVm
