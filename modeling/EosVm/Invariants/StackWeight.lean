import EosVm.Invariants.DepthRun
import Mathlib.Data.List.DropRight

/-!
# Operands by the bytes that made them

Every operand takes two bytes of code: only in unreachable code one byte can push an operand, and
then another byte made the code unreachable. So there are fewer than `2 ^ 31` operands in a body
that has fewer than `2 ^ 32` bytes, and `encode_depth_change` can encode every depth.
-/

set_option autoImplicit false

namespace EosVm

open Lib

variable {W : CodeWriter}

/-- Two for every operand, and one for every unreachable tag without an operand right above it. The
entry above the stack is an operand if `covered` is set. -/
def weightUnder (covered : Bool) : List StackEntry → Nat
  | [] => 0
  | .operand _ :: rest => 2 + weightUnder true rest
  | .unreachableTag :: rest => (!covered).toNat + weightUnder false rest
  | .scopeTag :: rest => weightUnder false rest

def weight (state : List StackEntry) : Nat := weightUnder false state

theorem weightUnder_le (state : List StackEntry) : weightUnder true state ≤ weight state := by
  cases state with
  | nil => exact le_refl _
  | cons entry rest => cases entry <;> simp [weight, weightUnder]

theorem weight_le (state : List StackEntry) : weight state ≤ weightUnder true state + 1 := by
  cases state with
  | nil => exact Nat.zero_le _
  | cons entry rest =>
    cases entry with
    | scopeTag => exact Nat.le_succ _
    | operand t => exact Nat.le_succ _
    | unreachableTag =>
      simp only [weight, weightUnder, Bool.not_false, Bool.not_true, Bool.toNat_true,
        Bool.toNat_false]
      omega

theorem weight_operand (t : OperandType) (rest : List StackEntry) :
    weight (.operand t :: rest) = 2 + weightUnder true rest := rfl

theorem weight_unreachableTag (rest : List StackEntry) :
    weight (.unreachableTag :: rest) = 1 + weight rest := rfl

theorem weight_scopeTag (rest : List StackEntry) : weight (.scopeTag :: rest) = weight rest := rfl

theorem weight_push_le (t : OperandType) (rest : List StackEntry) :
    weight (.operand t :: rest) ≤ weight rest + 2 := by
  have hle := weightUnder_le rest
  rw [weight_operand]
  omega

theorem weight_tail_le (t : OperandType) (rest : List StackEntry) :
    weight rest ≤ weight (.operand t :: rest) := by
  have hle := weight_le rest
  rw [weight_operand]
  omega

theorem slots_le_weightUnder (covered : Bool) (state : List StackEntry) :
    2 * slots bitcodeDepthForType state ≤ weightUnder covered state := by
  induction state generalizing covered with
  | nil => exact le_refl _
  | cons entry rest ih =>
    cases entry with
    | scopeTag => exact ih false
    | unreachableTag => exact le_trans (ih false) (Nat.le_add_left ..)
    | operand t =>
      have hrest := ih true
      simp only [slots_operand, weightUnder, bitcodeDepthForType]
      change 2 * (1 + slots bitcodeDepthForType rest) ≤ _
      omega

/-- Two bytes for each operand. -/
theorem slots_le_weight (state : List StackEntry) :
    2 * slots bitcodeDepthForType state ≤ weight state := slots_le_weightUnder false state

theorem weight_scopeBase_le (state : List StackEntry) :
    weight (Tracker.scopeBase state) ≤ weight state := by
  unfold Tracker.scopeBase
  induction state with
  | nil => exact le_refl _
  | cons entry rest ih =>
    cases entry with
    | scopeTag => exact le_refl _
    | unreachableTag =>
      rw [weight_unreachableTag]
      exact le_trans ih (Nat.le_add_left ..)
    | operand t => exact le_trans ih (weight_tail_le t rest)

section

variable {o : Options} {d : OperandType → Nat} {tr tr' : Tracker}

theorem weight_popState_le (state : List StackEntry) : weight (popState state) ≤ weight state := by
  unfold popState
  split
  · exact weight_tail_le ..
  · exact le_refl _

theorem weight_pop_le {expected : Option ValType} (h : tr.pop o d expected = .ok tr') :
    weight tr'.state ≤ weight tr.state := by
  cases expected with
  | none => rw [← Except.ok.inj h]
  | some type =>
    rw [Tracker.pop_popState h]
    exact weight_popState_le _

/-- A push after a pop takes its place, or comes on top of unreachable code. -/
theorem weight_replace_le {type : ValType} (t : OperandType)
    (h : tr.pop o d (some type) = .ok tr') :
    weight (.operand t :: tr'.state) ≤ weight tr.state + 1 := by
  rcases Tracker.pop_cases h with ⟨rest, hstate, rfl⟩ | ⟨entry, rest, hstate, -, rfl⟩
  · rw [hstate, weight_unreachableTag, weight_operand]
    simp only [weightUnder, Bool.not_true, Bool.toNat_false, weight]
    omega
  · rw [Tracker.remove_state, hstate]
    exact Nat.le_succ _

/-- More pops between them make no difference. -/
theorem weight_under_popState_le (t : OperandType) (state : List StackEntry) :
    weight (.operand t :: popState state) ≤ weight (.operand t :: state) := by
  unfold popState
  split
  · rw [weight_operand, weight_operand]
    exact Nat.add_le_add_left (Nat.le_add_left ..) 2
  · exact le_refl _

/-- By how much a call can raise the weight. -/
def TrackerOp.rise : TrackerOp → Nat
  | .push _ => 2
  | .top _ | .startUnreachable | .popScope (some _) => 1
  | _ => 0

theorem weight_popScope_le {result : Option ValType} (h : tr.popScope o d result = .ok tr') :
    weight tr'.state ≤ weight tr.state + (TrackerOp.popScope result).rise := by
  obtain ⟨popped, rest, hpop, hrest, hend⟩ := Tracker.popScope_cases h
  have hclosed := Tracker.closeUnreachable_state hrest
  cases result with
  | none =>
    have hle := weight_pop_le hpop
    rw [hend]
    rcases hclosed with hs | hs
    · rw [hs, weight_scopeTag] at hle
      exact hle
    · rw [hs, weight_unreachableTag, weight_scopeTag] at hle
      exact le_trans (Nat.le_add_left ..) hle
  | some type =>
    have hle := weight_replace_le (.val type) hpop
    have hunder := weight_push_le (.val type) rest
    rw [Tracker.push_state hend]
    simp only [TrackerOp.rise]
    rcases hclosed with hs | hs
    · rw [hs, weight_operand] at hle
      simp only [weightUnder] at hle
      simp only [weight] at hunder hle ⊢
      omega
    · rw [hs, weight_operand] at hle
      simp only [weightUnder, Bool.not_true, Bool.toNat_false] at hle
      simp only [weight] at hunder hle ⊢
      omega

theorem TrackerOp.run_weight {op : TrackerOp} (h : op.run o d tr = .ok tr') :
    weight tr'.state ≤ weight tr.state + op.rise := by
  cases op with
  | push type =>
    rw [Tracker.push_state h]
    exact weight_push_le ..
  | pop expected => exact weight_pop_le h
  | popAny =>
    rw [TrackerOp.popAny_popState h]
    exact weight_popState_le _
  | top type =>
    obtain ⟨mid, hpop, hpush⟩ := Tracker.top_cases h
    rw [Tracker.push_state hpush]
    exact weight_replace_le _ hpop
  | startUnreachable =>
    rw [← pure_eq_ok.mp h]
    have hle := weight_scopeBase_le tr.state
    simp only [Tracker.startUnreachable, weight_unreachableTag, rise]
    omega
  | pushScope =>
    rw [← pure_eq_ok.mp h]
    exact le_refl _
  | popScope result => exact weight_popScope_le h

theorem runOps_weight {ops : List TrackerOp} (h : runOps o d ops tr = .ok tr') :
    weight tr'.state ≤ weight tr.state + (ops.map TrackerOp.rise).sum := by
  induction ops generalizing tr with
  | nil => rw [← pure_eq_ok.mp h]; exact Nat.le_add_right ..
  | cons op ops ih =>
    obtain ⟨mid, hop, hrest⟩ := bind_eq_ok.mp h
    have hfirst := TrackerOp.run_weight hop
    have hlast := ih hrest
    simp only [List.map_cons, List.sum_cons]
    omega

theorem operandOps_rise (types : List ValType) :
    ((operandOps types).map TrackerOp.rise).sum = 0 := by
  simp [operandOps, Function.comp_def, TrackerOp.rise]

theorem callOps_rise (ft : FuncType) : ((callOps ft).map TrackerOp.rise).sum ≤ 2 := by
  rw [callOps, List.map_append, List.sum_append, operandOps_rise, Nat.zero_add]
  cases ft.result <;> simp [resultOps, TrackerOp.rise]

theorem labelOps_rise (ctrl : List Ctrl) (label : Nat) :
    ((labelOps ctrl label).map TrackerOp.rise).sum ≤ 1 := by
  unfold labelOps
  split <;> simp [TrackerOp.rise]

theorem popScope_rise (result : Option ValType) : (TrackerOp.popScope result).rise ≤ 1 := by
  cases result <;> simp [TrackerOp.rise]

/-- The instructions without immediates that push in place of what they pop. -/
def Instr.renews : Instr → Bool
  | .numeric _ => true
  | instr => instr.replaces

theorem instrOps_rise {env : BodyEnv} {ctrl : List Ctrl} {state : List StackEntry} {instr : Instr}
    (hi : instr.renews = false) :
    ((instrOps env ctrl state instr).map TrackerOp.rise).sum ≤ 1 + instr.immediateBytes := by
  cases instr with
  | return_ | br label | brTable labels default | select | numeric op => cases hi
  | end_ => simpa [instrOps, Instr.immediateBytes] using popScope_rise _
  | brIf label =>
    have hle := labelOps_rise ctrl label
    simp only [instrOps, List.map_cons, List.sum_cons, TrackerOp.rise, Instr.immediateBytes]
    omega
  | call funcnum =>
    simp only [instrOps]
    split
    · exact callOps_rise _
    · simp
  | callIndirect functypeidx =>
    simp only [instrOps]
    split
    · simpa [TrackerOp.rise, Instr.immediateBytes] using callOps_rise _
    · simp
  | vecNumeric op => simp [instrOps, operandOps_rise, TrackerOp.rise, Instr.immediateBytes]
  | getLocal localIdx | setLocal localIdx | teeLocal localIdx | getGlobal globalIdx
  | setGlobal globalIdx =>
    simp only [instrOps]
    split <;> simp [TrackerOp.rise, Instr.immediateBytes]
  | _ => simp [instrOps, TrackerOp.rise, Instr.immediateBytes]

theorem NumericOp.operands_ne_nil (op : NumericOp) : op.signature.1.reverse ≠ [] := by
  cases op <;> decide

/-- Pops, and then a push in their place. -/
theorem runOps_renew {types : List ValType} {type : OperandType}
    (h : runOps o d ((types.map fun t => .pop (some t)) ++ [.push type]) tr = .ok tr')
    (hne : types ≠ []) : weight tr'.state ≤ weight tr.state + 1 := by
  -- what the pops after the first one leave
  have hmore : ∀ (types : List ValType) (tr mid : Tracker),
      runOps o d (types.map fun t => .pop (some t)) tr = .ok mid →
      weight (.operand type :: mid.state) ≤ weight (.operand type :: tr.state) := by
    intro types
    induction types with
    | nil =>
      intro tr mid hrun
      rw [← pure_eq_ok.mp hrun]
    | cons t types ih =>
      intro tr mid hrun
      obtain ⟨first, hfirst, hrest⟩ := bind_eq_ok.mp hrun
      refine le_trans (ih first mid hrest) ?_
      rw [Tracker.pop_popState hfirst]
      exact weight_under_popState_le ..
  obtain ⟨popped, hpops, hpush⟩ := runOps_append.mp h
  rw [runOps_singleton] at hpush
  rw [Tracker.push_state hpush]
  cases types with
  | nil => exact absurd rfl hne
  | cons t types =>
    obtain ⟨first, hfirst, hrest⟩ := bind_eq_ok.mp hpops
    exact le_trans (hmore types first popped hrest) (weight_replace_le type hfirst)

theorem runOps_renew_select {type : OperandType}
    (h : runOps o d [.pop (some .i32), .popAny, .popAny, .push type] tr = .ok tr') :
    weight tr'.state ≤ weight tr.state + 1 := by
  obtain ⟨s₁, h₁, hrest⟩ := bind_eq_ok.mp h
  obtain ⟨s₂, h₂, hrest⟩ := bind_eq_ok.mp hrest
  obtain ⟨s₃, h₃, hpush⟩ := bind_eq_ok.mp hrest
  rw [runOps_singleton] at hpush
  rw [Tracker.push_state hpush, TrackerOp.popAny_popState h₃, TrackerOp.popAny_popState h₂]
  exact le_trans (weight_under_popState_le ..)
    (le_trans (weight_under_popState_le ..) (weight_replace_le type h₁))

/-- A call inside a scope leaves what `start_unreachable` keeps. -/
theorem TrackerOp.Level.scopeBase {op : TrackerOp} (hl : op.Level) (h : op.run o d tr = .ok tr') :
    Tracker.scopeBase tr'.state = Tracker.scopeBase tr.state := by
  have hpop : ∀ state, Tracker.scopeBase (popState state) = Tracker.scopeBase state := by
    intro state
    unfold popState
    split <;> rfl
  cases op with
  | push type =>
    rw [Tracker.push_state h]
    rfl
  | pop expected =>
    cases expected with
    | none => rw [← Except.ok.inj h]
    | some type => rw [Tracker.pop_popState h, hpop]
  | popAny => rw [TrackerOp.popAny_popState h, hpop]
  | top type =>
    obtain ⟨mid, hmid, hpush⟩ := Tracker.top_cases h
    rw [← hpop tr.state, ← Tracker.pop_popState hmid, Tracker.push_state hpush]
    rfl
  | startUnreachable =>
    rw [← pure_eq_ok.mp h]
    exact List.dropWhile_idempotent _ tr.state
  | pushScope => exact hl.elim
  | popScope result => exact hl.elim

theorem runOps_scopeBase {ops : List TrackerOp} (hl : ∀ op ∈ ops, op.Level)
    (h : runOps o d ops tr = .ok tr') :
    Tracker.scopeBase tr'.state = Tracker.scopeBase tr.state := by
  induction ops generalizing tr with
  | nil => rw [← pure_eq_ok.mp h]
  | cons op ops ih =>
    obtain ⟨hop, hops⟩ := List.forall_mem_cons.mp hl
    obtain ⟨mid, hm, hrest⟩ := bind_eq_ok.mp h
    rw [ih hops hrest, hop.scopeBase hm]

/-- Code that becomes unreachable. -/
theorem runOps_branch_weight {ops : List TrackerOp} (hl : ∀ op ∈ ops, op.Level)
    (h : runOps o d (ops ++ [.startUnreachable]) tr = .ok tr') :
    weight tr'.state ≤ weight tr.state + 1 := by
  obtain ⟨mid, hops, hlast⟩ := runOps_append.mp h
  rw [runOps_singleton] at hlast
  have hle := weight_scopeBase_le tr.state
  rw [← pure_eq_ok.mp hlast]
  simp only [Tracker.startUnreachable, weight_unreachableTag, runOps_scopeBase hl hops]
  omega

/-- The bytes of an instruction are enough for what it adds. -/
theorem instrOps_weight {env : BodyEnv} {ctrl : List Ctrl} {instr : Instr}
    (h : runOps o d (instrOps env ctrl tr.state instr) tr = .ok tr') :
    weight tr'.state ≤ weight tr.state + (1 + instr.immediateBytes) := by
  have hone : weight tr'.state ≤ weight tr.state + 1 →
      weight tr'.state ≤ weight tr.state + (1 + instr.immediateBytes) := by omega
  by_cases hr : instr.renews = false
  · have hle := runOps_weight h
    have hrise := @instrOps_rise env ctrl tr.state _ hr
    omega
  cases instr <;> try exact absurd rfl hr
  case numeric op => exact hone (runOps_renew h op.operands_ne_nil)
  case select => exact hone (runOps_renew_select h)
  case return_ => exact hone (runOps_branch_weight labelOps_level h)
  case br label => exact hone (runOps_branch_weight labelOps_level h)
  case brTable labels default =>
    refine hone (runOps_branch_weight ?_ h)
    intro op hm
    simp only [List.cons_append, List.mem_cons, List.mem_append, List.mem_flatMap] at hm
    rcases hm with rfl | ⟨label, -, hm⟩ | hm
    · trivial
    · exact labelOps_level op hm
    · exact labelOps_level op hm

/-- The calls that look at the top of the stack before a branch. -/
def TrackerOp.Peeks : TrackerOp → Prop
  | .pop (some _) | .top _ => True
  | _ => False

/-- At most `n` slots, apart from an operand on top. -/
def SlotsBelow (n : Nat) (state : List StackEntry) : Prop :=
  slots bitcodeDepthForType state ≤ n ∨
    ∃ t rest, state = .operand t :: rest ∧ slots bitcodeDepthForType rest ≤ n

theorem SlotsBelow.slots_le {n : Nat} {state : List StackEntry} (h : SlotsBelow n state) :
    slots bitcodeDepthForType state ≤ n + 1 := by
  rcases h with hle | ⟨t, rest, rfl, hle⟩
  · omega
  · rw [slots_operand]
    change 1 + _ ≤ _
    omega

theorem SlotsBelow.pop {n : Nat} {type : ValType} (h : SlotsBelow n tr.state)
    (hrun : tr.pop o d (some type) = .ok tr') :
    SlotsBelow n tr'.state ∧ slots bitcodeDepthForType tr'.state ≤ n := by
  have hle : slots bitcodeDepthForType tr'.state ≤ n := by
    rcases Tracker.pop_cases hrun with ⟨rest, hstate, rfl⟩ | ⟨entry, rest, hstate, -, rfl⟩
    · rcases h with hle | ⟨t, rest', hoperand, -⟩
      · exact hle
      · rw [hstate] at hoperand
        cases hoperand
    · rw [Tracker.remove_state, hstate, List.tail_cons]
      rcases h with hle | ⟨t, rest', hoperand, hle⟩
      · rw [hstate, slots_operand] at hle
        omega
      · rw [hstate] at hoperand
        obtain ⟨-, rfl⟩ := List.cons.inj hoperand
        exact hle
  exact ⟨Or.inl hle, hle⟩

theorem SlotsBelow.run {n : Nat} {op : TrackerOp} (hop : op.Peeks) (h : SlotsBelow n tr.state)
    (hrun : op.run o d tr = .ok tr') : SlotsBelow n tr'.state := by
  cases op with
  | pop expected =>
    cases expected with
    | none => exact hop.elim
    | some type => exact (h.pop hrun).1
  | top type =>
    obtain ⟨mid, hpop, hpush⟩ := Tracker.top_cases hrun
    exact Or.inr ⟨.val type, mid.state, Tracker.push_state hpush, (h.pop hpop).2⟩
  | push | popAny | startUnreachable | pushScope | popScope => exact hop.elim

/-- Looking at the top makes one operand more at most. -/
theorem runOps_peeks {ops : List TrackerOp} (hops : ∀ op ∈ ops, op.Peeks)
    (h : runOps o d ops tr = .ok tr') :
    slots bitcodeDepthForType tr'.state ≤ slots bitcodeDepthForType tr.state + 1 := by
  suffices ∀ n, SlotsBelow n tr.state → SlotsBelow n tr'.state from
    (this _ (Or.inl (le_refl _))).slots_le
  intro n hn
  induction ops generalizing tr with
  | nil =>
    rw [← pure_eq_ok.mp h]
    exact hn
  | cons op ops ih =>
    obtain ⟨hop, hrest⟩ := List.forall_mem_cons.mp hops
    obtain ⟨mid, hm, hlast⟩ := bind_eq_ok.mp h
    exact ih hrest hlast (hn.run hop hm)

end

/-- At every point of the run the weight and the bytes still to come are within the body. -/
theorem BodyReaches.weight {env : BodyEnv} {start p : BodyPoint W} {bounds : Nat}
    (hstart : start.state.opStack.state = [.scopeTag]) (hbytes : codeBytes start.rest ≤ bounds)
    (hp : BodyReaches env start p) : weight p.state.opStack.state + codeBytes p.rest ≤ bounds := by
  induction hp with
  | refl =>
    rw [hstart]
    simpa [EosVm.weight, weightUnder] using hbytes
  | @tail p q hp hstep ih =>
    obtain ⟨instr, hrest, hops, -⟩ := hstep.calls
    have hle := instrOps_weight hops
    have hsum : codeBytes p.rest = 1 + instr.immediateBytes + codeBytes q.rest := by
      rw [hrest, codeBytes, List.map_cons, List.sum_cons, codeBytes]
    omega

end EosVm
