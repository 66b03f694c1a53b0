import EosVm.Invariants.TrackerRun

/-!
# Size of the operand stack

The slots on the operand stack, together with its unreachable tags, never exceed the bytes of the
code read so far. Bodies have fewer than `2 ^ 32` bytes, so the 32-bit counters of the tracker do
not wrap around.
-/

set_option autoImplicit false

namespace EosVm

open Lib

variable {W : CodeWriter}

/-- A lower bound on the bytes of a sequence of instructions. -/
def codeBytes (instrs : List Instr) : Nat := (instrs.map fun i => 1 + i.immediateBytes).sum

@[simp] theorem codeBytes_append (xs ys : List Instr) :
    codeBytes (xs ++ ys) = codeBytes xs + codeBytes ys := by
  simp [codeBytes]

theorem decodeBody_codeBytes {o : Options} {bounds fuel : Nat} {code : WasmCodePtr}
    {instrs : List Instr} (hp : BodyPtr code bounds)
    (h : decodeBody o bounds fuel code = .ok instrs) : code.offset + codeBytes instrs ≤ bounds := by
  induction fuel generalizing code instrs with
  | zero =>
    have hle := hp.offset_le
    unfold decodeBody at h
    split at h
    · cases h
    · rw [← pure_eq_ok.mp h]
      exact hle
  | succ fuel ih =>
    have hle := hp.offset_le
    unfold decodeBody at h
    split at h
    · simp only [bind_eq_ok, pure_eq_ok, Prod.exists] at h
      obtain ⟨instr, next, hd, rest, hrest, rfl⟩ := h
      obtain ⟨hadv, hconsumed⟩ := decodeInstr_consumes hd
      have htail := ih (hp.advance hadv) hrest
      have horigin := hp.origin
      have horig := hadv.orig
      simp only [WasmCodePtr.offset] at htail ⊢
      simp only [codeBytes, List.map_cons, List.sum_cons] at htail ⊢
      omega
    · rw [← pure_eq_ok.mp h]
      exact hle

/-- The slots of the operands on a stack. -/
def slots (d : OperandType → Nat) : List StackEntry → Nat
  | [] => 0
  | .operand t :: rest => d t + slots d rest
  | _ :: rest => slots d rest

/-- The slots and the unreachable tags of a stack. -/
def potential (d : OperandType → Nat) : List StackEntry → Nat
  | [] => 0
  | .operand t :: rest => d t + potential d rest
  | .unreachableTag :: rest => 1 + potential d rest
  | .scopeTag :: rest => potential d rest

/-- The unreachable tags of a stack. -/
def unreachableTags (state : List StackEntry) : Nat := state.count .unreachableTag

@[simp] theorem unreachableTags_operand (t : OperandType) (rest : List StackEntry) :
    unreachableTags (.operand t :: rest) = unreachableTags rest := by
  simp [unreachableTags]

@[simp] theorem unreachableTags_unreachableTag (rest : List StackEntry) :
    unreachableTags (.unreachableTag :: rest) = unreachableTags rest + 1 := by
  simp [unreachableTags]

@[simp] theorem unreachableTags_scopeTag (rest : List StackEntry) :
    unreachableTags (.scopeTag :: rest) = unreachableTags rest := by
  simp [unreachableTags]

/-- The slot sizes of a code writer: two slots for a vector at most, one for anything else. -/
structure SlotSizes (d : OperandType → Nat) : Prop where
  scalar : ∀ t, t ≠ .val .v128 → d t = 1
  pos : 1 ≤ d (.val .v128)
  vector : d (.val .v128) ≤ 2

theorem SlotSizes.one_le {d : OperandType → Nat} (hd : SlotSizes d) (t : OperandType) :
    1 ≤ d t := by
  by_cases ht : t = .val .v128
  · rw [ht]
    exact hd.pos
  · exact le_of_eq (hd.scalar t ht).symm

theorem SlotSizes.le_two {d : OperandType → Nat} (hd : SlotSizes d) (t : OperandType) :
    d t ≤ 2 := by
  by_cases ht : t = .val .v128
  · rw [ht]
    exact hd.vector
  · rw [hd.scalar t ht]
    omega

theorem SlotSizes.bitcode : SlotSizes bitcodeDepthForType :=
  ⟨fun _ _ => rfl, le_refl _, by decide⟩

theorem SlotSizes.machine : SlotSizes machineDepthForType where
  scalar := by
    intro t ht
    unfold machineDepthForType
    split
    · exact absurd rfl ht
    · rfl
  pos := by decide
  vector := by decide

section

variable {d : OperandType → Nat}

@[simp] theorem slots_operand (t : OperandType) (rest : List StackEntry) :
    slots d (.operand t :: rest) = d t + slots d rest := rfl

@[simp] theorem slots_unreachableTag (rest : List StackEntry) :
    slots d (.unreachableTag :: rest) = slots d rest := rfl

@[simp] theorem slots_scopeTag (rest : List StackEntry) :
    slots d (.scopeTag :: rest) = slots d rest := rfl

@[simp] theorem potential_operand (t : OperandType) (rest : List StackEntry) :
    potential d (.operand t :: rest) = d t + potential d rest := rfl

@[simp] theorem potential_unreachableTag (rest : List StackEntry) :
    potential d (.unreachableTag :: rest) = 1 + potential d rest := rfl

@[simp] theorem potential_scopeTag (rest : List StackEntry) :
    potential d (.scopeTag :: rest) = potential d rest := rfl

theorem slots_le_potential (state : List StackEntry) : slots d state ≤ potential d state := by
  induction state with
  | nil => exact le_refl _
  | cons entry rest ih => cases entry <;> simp <;> omega

theorem unreachableTags_le_potential (state : List StackEntry) :
    unreachableTags state ≤ potential d state := by
  induction state with
  | nil => exact le_refl _
  | cons entry rest ih => cases entry <;> simp <;> omega

theorem potential_scopeBase_le (state : List StackEntry) :
    potential d (Tracker.scopeBase state) ≤ potential d state := by
  induction state with
  | nil => exact le_refl _
  | cons entry rest ih =>
    cases entry with
    | scopeTag => exact le_refl _
    | unreachableTag =>
      have : Tracker.scopeBase (.unreachableTag :: rest) = Tracker.scopeBase rest := rfl
      rw [this, potential_unreachableTag]
      omega
    | operand t =>
      have : Tracker.scopeBase (.operand t :: rest) = Tracker.scopeBase rest := rfl
      rw [this, potential_operand]
      omega

end

/-- The call takes an entry of any type for a type with another number of slots. -/
def TrackerOp.WidensAny (d : OperandType → Nat) (tr : Tracker) : TrackerOp → Prop
  | .pop (some type) | .top type | .popScope (some type) =>
    tr.state.head? = some (.operand .any) ∧ d (.val type) ≠ d .any
  | _ => False

/-- No call of a sequence does so. -/
def NarrowRun (o : Options) (d₀ d : OperandType → Nat) (ops : List TrackerOp) (tr : Tracker) :
    Prop :=
  ∀ before op after mid, ops = before ++ op :: after → runOps o d₀ before tr = .ok mid →
    ¬ op.WidensAny d mid

section

variable {o : Options} {d₀ d : OperandType → Nat} {tr mid tr' : Tracker}

theorem NarrowRun.head {op : TrackerOp} {ops : List TrackerOp}
    (h : NarrowRun o d₀ d (op :: ops) tr) :
    ¬ op.WidensAny d tr := h [] op ops tr rfl rfl

theorem NarrowRun.tail {op : TrackerOp} {ops : List TrackerOp} (h : NarrowRun o d₀ d (op :: ops) tr)
    (hop : op.run o d₀ tr = .ok mid) : NarrowRun o d₀ d ops mid := by
  intro before op' after mid' hops hrun
  refine h (op :: before) op' after mid' (by rw [hops]; rfl) ?_
  exact bind_eq_ok.mpr ⟨mid, hop, hrun⟩

theorem NarrowRun.left {ops ops' : List TrackerOp} (h : NarrowRun o d₀ d (ops ++ ops') tr) :
    NarrowRun o d₀ d ops tr := by
  intro before op after mid' hops hrun
  exact h before op (after ++ ops') mid' (by rw [hops, List.append_assoc]; rfl) hrun

theorem NarrowRun.right {ops ops' : List TrackerOp} (h : NarrowRun o d₀ d (ops ++ ops') tr)
    (hrun : runOps o d₀ ops tr = .ok mid) : NarrowRun o d₀ d ops' mid := by
  intro before op after mid' hops hrun'
  refine h (ops ++ before) op after mid' (by rw [hops, List.append_assoc]) ?_
  exact runOps_append.mpr ⟨mid, hrun, hrun'⟩

/-- A narrow `pop` with a type removes an entry with the slots of that type. -/
theorem Tracker.pop_narrow {type : ValType} (hn : ¬ TrackerOp.WidensAny d tr (.pop (some type)))
    (h : tr.pop o d₀ (some type) = .ok tr') :
    (∃ rest, tr.state = .unreachableTag :: rest ∧ tr' = tr) ∨
    ∃ entry rest, tr.state = .operand entry :: rest ∧ d entry = d (.val type) ∧
      tr' = tr.remove o d₀ (.val type) := by
  rcases Tracker.pop_cases h with hdead | ⟨entry, rest, hstate, hentry, htr⟩
  · exact Or.inl hdead
  · right
    refine ⟨entry, rest, hstate, ?_, htr⟩
    rcases hentry with rfl | rfl
    · rfl
    · by_contra hne
      exact hn ⟨by rw [hstate]; rfl, fun heq => hne heq.symm⟩

/-- By how much a call can raise the potential. -/
def TrackerOp.gain (d : OperandType → Nat) : TrackerOp → Nat
  | .push type => d type
  | .top type => d (.val type)
  | .startUnreachable => 1
  | .popScope (some type) => d (.val type) - 1
  | _ => 0

@[simp] theorem Tracker.remove_state (o : Options) (d₀ : OperandType → Nat) (tr : Tracker)
    (type : OperandType) : (tr.remove o d₀ type).state = tr.state.tail := rfl

theorem Tracker.push_state {type : OperandType} (h : tr.push o d₀ type = .ok tr') :
    tr'.state = .operand type :: tr.state := by
  obtain ⟨-, checker, -, rfl⟩ := Tracker.push_cases h
  simp

/-- The stack after a narrow `pop`: no more potential, and less by the slots of an operand. -/
theorem Tracker.pop_potential {expected : Option ValType}
    (hn : ¬ TrackerOp.WidensAny d tr (.pop expected)) (h : tr.pop o d₀ expected = .ok tr') :
    potential d tr'.state ≤ potential d tr.state := by
  cases expected with
  | none => rw [← Except.ok.inj h]
  | some type =>
    rcases Tracker.pop_narrow hn h with ⟨rest, -, rfl⟩ | ⟨entry, rest, hstate, -, rfl⟩
    · exact le_refl _
    · rw [Tracker.remove_state, hstate]
      simp

theorem Tracker.closeUnreachable_state {rest : List StackEntry}
    (h : tr.closeUnreachable.state = .scopeTag :: rest) :
    tr.state = .scopeTag :: rest ∨ tr.state = .unreachableTag :: .scopeTag :: rest := by
  unfold Tracker.closeUnreachable at h
  split at h
  next rest' hstate =>
    right
    rw [hstate]
    simp only at h
    rw [h]
  · exact Or.inl h

theorem Tracker.popScope_potential (hd : SlotSizes d) {result : Option ValType}
    (hn : ¬ TrackerOp.WidensAny d tr (.popScope result)) (h : tr.popScope o d₀ result = .ok tr') :
    potential d tr'.state ≤ potential d tr.state + TrackerOp.gain d (.popScope result) := by
  obtain ⟨popped, rest, hpop, hrest, hend⟩ := Tracker.popScope_cases h
  have hclosed := Tracker.closeUnreachable_state hrest
  have hle : potential d rest ≤ potential d popped.state := by
    rcases hclosed with hs | hs <;> rw [hs] <;> simp
  cases result with
  | none =>
    rw [hend]
    have hpop' := Tracker.pop_potential (fun hw : TrackerOp.WidensAny d tr (.pop none) => hw) hpop
    exact le_trans (le_trans hle hpop') (Nat.le_add_right _ _)
  | some type =>
    rw [Tracker.push_state hend]
    simp only [potential_operand, TrackerOp.gain]
    have hpos := hd.one_le (.val type)
    rcases Tracker.pop_narrow hn hpop with ⟨base, hstate, rfl⟩ | ⟨entry, base, hstate, hentry, rfl⟩
    · -- dead code: the tag goes, the result comes
      rcases hclosed with hs | hs
      · rw [hstate] at hs
        cases hs
      · rw [hs]
        simp
        omega
    · rw [hstate, potential_operand, hentry]
      rw [Tracker.remove_state, hstate, List.tail_cons] at hle
      omega

/-- A narrow call raises the potential by its gain at most. -/
theorem TrackerOp.run_potential (hd : SlotSizes d) {op : TrackerOp} (hn : ¬ op.WidensAny d tr)
    (h : op.run o d₀ tr = .ok tr') :
    potential d tr'.state ≤ potential d tr.state + op.gain d := by
  cases op with
  | push type =>
    rw [Tracker.push_state h]
    simp only [potential_operand, gain]
    omega
  | pop expected => exact Tracker.pop_potential hn h
  | popAny =>
    obtain ⟨⟨type, tr₁⟩, hpop, hs⟩ := bind_eq_ok.mp h
    rw [← pure_eq_ok.mp hs]
    rcases Tracker.popAny_cases hpop with ⟨rest, -, -, rfl⟩ | ⟨rest, hstate, rfl⟩
    · exact le_refl _
    · rw [Tracker.remove_state, hstate]
      simp [gain]
  | top type =>
    obtain ⟨mid, hpop, hpush⟩ := Tracker.top_cases h
    have hle := Tracker.pop_potential hn hpop
    rw [Tracker.push_state hpush]
    simp only [potential_operand, gain]
    omega
  | startUnreachable =>
    rw [← pure_eq_ok.mp h]
    have hle := potential_scopeBase_le (d := d) tr.state
    simp only [Tracker.startUnreachable, potential_unreachableTag, gain]
    omega
  | pushScope =>
    rw [← pure_eq_ok.mp h]
    exact le_refl _
  | popScope result => exact Tracker.popScope_potential hd hn h

theorem runOps_potential (hd : SlotSizes d) {ops : List TrackerOp} (hn : NarrowRun o d₀ d ops tr)
    (h : runOps o d₀ ops tr = .ok tr') :
    potential d tr'.state ≤ potential d tr.state + (ops.map (TrackerOp.gain d)).sum := by
  induction ops generalizing tr with
  | nil =>
    rw [← pure_eq_ok.mp h]
    exact Nat.le_add_right _ _
  | cons op ops ih =>
    obtain ⟨mid, hop, hrest⟩ := bind_eq_ok.mp h
    have hfirst := TrackerOp.run_potential hd hn.head hop
    have hlast := ih (hn.tail hop) hrest
    simp only [List.map_cons, List.sum_cons]
    omega

theorem NumericOp.signature_ne_v128 (op : NumericOp) : op.signature.2 ≠ .v128 := by
  cases op <;> decide

theorem operandOps_gain (types : List ValType) :
    ((operandOps types).map (TrackerOp.gain d)).sum = 0 := by
  simp [operandOps, Function.comp_def, TrackerOp.gain]

theorem callOps_gain (hd : SlotSizes d) (ft : FuncType) :
    ((callOps ft).map (TrackerOp.gain d)).sum ≤ 2 := by
  rw [callOps, List.map_append, List.sum_append, operandOps_gain, Nat.zero_add]
  cases ft.result with
  | none => simp [resultOps]
  | some type => simpa [resultOps, TrackerOp.gain] using hd.le_two (.val type)

theorem labelOps_gain (hd : SlotSizes d) (ctrl : List Ctrl) (label : Nat) :
    ((labelOps ctrl label).map (TrackerOp.gain d)).sum ≤ 2 := by
  unfold labelOps
  split
  · simpa [TrackerOp.gain] using hd.le_two _
  · simp

theorem popScope_gain (hd : SlotSizes d) (result : Option ValType) :
    TrackerOp.gain d (.popScope result) ≤ 1 := by
  cases result with
  | none => simp [TrackerOp.gain]
  | some type =>
    have hle := hd.le_two (.val type)
    simp only [TrackerOp.gain]
    omega

/-- The instructions whose calls together raise the potential by more than their bytes, were it not
for the entries they remove first. -/
def Instr.replaces : Instr → Bool
  | .return_ | .br _ | .brTable _ _ | .select => true
  | _ => false

theorem instrOps_gain (hd : SlotSizes d) {env : BodyEnv} {ctrl : List Ctrl}
    {state : List StackEntry} {instr : Instr} (hi : instr.replaces = false) :
    ((instrOps env ctrl state instr).map (TrackerOp.gain d)).sum ≤ 1 + instr.immediateBytes := by
  have htwo := fun t => hd.le_two (.val t)
  cases instr with
  | return_ => cases hi
  | br label => cases hi
  | brTable labels default => cases hi
  | select => cases hi
  | end_ => simpa [instrOps, Instr.immediateBytes] using popScope_gain hd _
  | brIf label =>
    simpa [instrOps, TrackerOp.gain, Instr.immediateBytes] using labelOps_gain hd ctrl label
  | call funcnum =>
    simp only [instrOps]
    split
    · exact callOps_gain hd _
    · simp
  | callIndirect functypeidx =>
    simp only [instrOps]
    split
    · simpa [TrackerOp.gain, Instr.immediateBytes] using callOps_gain hd _
    · simp
  | numeric op =>
    have hne : d (.val op.signature.2) = 1 := by
      apply hd.scalar
      intro heq
      exact op.signature_ne_v128 (OperandType.val.inj heq)
    simp [instrOps, operandOps_gain, TrackerOp.gain, hne, Instr.immediateBytes]
  | vecNumeric op =>
    simpa [instrOps, operandOps_gain, TrackerOp.gain, Instr.immediateBytes] using htwo _
  | getLocal localIdx =>
    simp only [instrOps]
    split
    · simpa [TrackerOp.gain, Instr.immediateBytes] using htwo _
    · simp
  | setLocal localIdx =>
    simp only [instrOps]
    split <;> simp [TrackerOp.gain]
  | teeLocal localIdx =>
    simp only [instrOps]
    split
    · simpa [TrackerOp.gain, Instr.immediateBytes] using htwo _
    · simp
  | getGlobal globalIdx =>
    simp only [instrOps]
    split
    · simpa [TrackerOp.gain, Instr.immediateBytes] using htwo _
    · simp
  | setGlobal globalIdx =>
    simp only [instrOps]
    split <;> simp [TrackerOp.gain]
  | _ =>
    simp [instrOps, TrackerOp.gain, Instr.immediateBytes]
    try exact htwo _

/-- On a stack of potential `room` at most, or right after an operand was made for unreachable code
on one. -/
def AtTop (d : OperandType → Nat) (room : Nat) (state : List StackEntry) : Prop :=
  potential d state ≤ room ∨
    ∃ entry rest, state = .operand entry :: rest ∧ potential d rest ≤ room ∧
      slots d state ≤ room + 1

theorem AtTop.slots_le {room : Nat} {state : List StackEntry} (h : AtTop d room state) :
    slots d state ≤ room + 1 := by
  rcases h with hle | ⟨entry, rest, -, -, hle⟩
  · have hs := slots_le_potential (d := d) state
    omega
  · exact hle

theorem AtTop.tags_le {room : Nat} {state : List StackEntry} (h : AtTop d room state) :
    unreachableTags state ≤ room + 1 := by
  rcases h with hle | ⟨entry, rest, rfl, hle, -⟩
  · have ht := unreachableTags_le_potential (d := d) state
    omega
  · have ht := unreachableTags_le_potential (d := d) rest
    rw [unreachableTags_operand]
    omega

theorem AtTop.scopeBase_le {room : Nat} {state : List StackEntry} (h : AtTop d room state) :
    potential d (Tracker.scopeBase state) ≤ room := by
  rcases h with hle | ⟨entry, rest, rfl, hle, -⟩
  · exact le_trans (potential_scopeBase_le state) hle
  · exact le_trans (potential_scopeBase_le rest) hle

theorem AtTop.top (hd : SlotSizes d) {room : Nat} {type : ValType} (h : AtTop d room tr.state)
    (hn : ¬ TrackerOp.WidensAny d tr (.top type)) (hrun : tr.top o d₀ type = .ok tr') :
    AtTop d room tr'.state := by
  obtain ⟨mid, hpop, hpush⟩ := Tracker.top_cases hrun
  have hstate' := Tracker.push_state hpush
  rcases Tracker.pop_narrow hn hpop with ⟨rest, hstate, rfl⟩ | ⟨entry, rest, hstate, hentry, rfl⟩
  · -- the tag already counts one slot of the operand made here
    have htwo := hd.le_two (.val type)
    rcases h with hle | ⟨entry, rest', hoperand, -⟩
    · right
      refine ⟨.val type, mid.state, hstate', hle, ?_⟩
      have hs := slots_le_potential (d := d) rest
      rw [hstate, potential_unreachableTag] at hle
      rw [hstate', hstate, slots_operand, slots_unreachableTag]
      omega
    · rw [hstate] at hoperand
      cases hoperand
  · rw [Tracker.remove_state, hstate, List.tail_cons] at hstate'
    rcases h with hle | ⟨entry', rest', hstate₀, hrest, hle⟩
    · left
      rw [hstate, potential_operand, hentry] at hle
      rwa [hstate', potential_operand]
    · right
      obtain ⟨hop, rfl⟩ := List.cons.inj (hstate.symm.trans hstate₀)
      rw [hstate, slots_operand, hentry] at hle
      exact ⟨.val type, rest, hstate', hrest, by rwa [hstate', slots_operand]⟩

theorem AtTop.run (hd : SlotSizes d) {room : Nat} {ops : List TrackerOp}
    (htops : ∀ op ∈ ops, ∃ type, op = .top type) (hn : NarrowRun o d₀ d ops tr)
    (h : AtTop d room tr.state) (hrun : runOps o d₀ ops tr = .ok tr') :
    AtTop d room tr'.state := by
  induction ops generalizing tr with
  | nil =>
    rw [← pure_eq_ok.mp hrun]
    exact h
  | cons op ops ih =>
    obtain ⟨mid, hop, hrest⟩ := bind_eq_ok.mp hrun
    obtain ⟨type, rfl⟩ := htops op (List.mem_cons_self ..)
    have hmid := h.top hd hn.head hop
    exact ih (fun op hm => htops op (List.mem_cons_of_mem _ hm)) (hn.tail hop) hmid hrest

/-- Some of the calls leave `room` slots and `room` unreachable tags at most, all of them a
potential of `room` at most. -/
def Fits (o : Options) (d₀ d : OperandType → Nat) (room : Nat) (ops : List TrackerOp)
    (tr : Tracker) : Prop :=
  ∀ before after mid, ops = before ++ after → runOps o d₀ before tr = .ok mid →
    slots d mid.state ≤ room ∧ unreachableTags mid.state ≤ room ∧
      (after = [] → potential d mid.state ≤ room)

theorem Fits.of_gain (hd : SlotSizes d) {room : Nat} {ops : List TrackerOp}
    (hn : NarrowRun o d₀ d ops tr)
    (hle : potential d tr.state + (ops.map (TrackerOp.gain d)).sum ≤ room) :
    Fits o d₀ d room ops tr := by
  rintro before after mid rfl hrun
  have hpot := runOps_potential hd hn.left hrun
  have hs := slots_le_potential (d := d) mid.state
  have ht := unreachableTags_le_potential (d := d) mid.state
  rw [List.map_append, List.sum_append] at hle
  exact ⟨by omega, by omega, fun _ => by omega⟩

theorem Fits.cons {room : Nat} {op : TrackerOp} {ops : List TrackerOp}
    (hle : potential d tr.state ≤ room)
    (h : ∀ mid, op.run o d₀ tr = .ok mid → Fits o d₀ d room ops mid) :
    Fits o d₀ d room (op :: ops) tr := by
  intro before after mid hops hrun
  cases before with
  | nil =>
    rw [← pure_eq_ok.mp hrun]
    exact ⟨le_trans (slots_le_potential tr.state) hle,
      le_trans (unreachableTags_le_potential tr.state) hle, fun _ => hle⟩
  | cons op' before =>
    rw [List.cons_append] at hops
    obtain ⟨rfl, hrest⟩ := List.cons.inj hops
    obtain ⟨first, hfirst, hrun'⟩ := bind_eq_ok.mp hrun
    exact h first hfirst before after mid hrest hrun'

/-- Calls of `top` and then `start_unreachable`. -/
theorem Fits.branch (hd : SlotSizes d) {room : Nat} {ops : List TrackerOp}
    (htops : ∀ op ∈ ops, ∃ type, op = .top type)
    (hn : NarrowRun o d₀ d (ops ++ [.startUnreachable]) tr) (hle : potential d tr.state ≤ room) :
    Fits o d₀ d (room + 1) (ops ++ [.startUnreachable]) tr := by
  intro before after mid hops hrun
  rcases List.eq_nil_or_concat' after with rfl | ⟨after, last, rfl⟩
  · rw [List.append_nil] at hops
    rw [← hops] at hrun
    obtain ⟨top, htop, hlast⟩ := runOps_append.mp hrun
    have hbase := (AtTop.run hd htops hn.left (Or.inl hle) htop).scopeBase_le
    rw [runOps_singleton] at hlast
    have hmid : mid.state = .unreachableTag :: Tracker.scopeBase top.state := by
      rw [← pure_eq_ok.mp hlast]
      rfl
    have hs := slots_le_potential (d := d) mid.state
    have ht := unreachableTags_le_potential (d := d) mid.state
    rw [hmid, potential_unreachableTag] at hs ht ⊢
    exact ⟨by omega, by omega, fun _ => by omega⟩
  · rw [← List.append_assoc] at hops
    have hsplit := (List.append_inj' hops rfl).1
    rw [hsplit] at htops hn
    have hnb : NarrowRun o d₀ d before tr := hn.left.left
    have htops' : ∀ op ∈ before, ∃ type, op = .top type :=
      fun op hm => htops op (List.mem_append_left _ hm)
    have hat := AtTop.run hd htops' hnb (Or.inl hle) hrun
    exact ⟨hat.slots_le, hat.tags_le, fun hnil => absurd hnil (by simp)⟩

theorem Tracker.pop_popState {type : ValType} (h : tr.pop o d₀ (some type) = .ok tr') :
    tr'.state = popState tr.state := by
  rcases Tracker.pop_cases h with ⟨rest, hstate, rfl⟩ | ⟨entry, rest, hstate, -, rfl⟩ <;>
    simp [hstate, popState]

theorem TrackerOp.popAny_popState (h : TrackerOp.popAny.run o d₀ tr = .ok tr') :
    tr'.state = popState tr.state := by
  obtain ⟨⟨type, tr₁⟩, hpop, hs⟩ := bind_eq_ok.mp h
  rw [← pure_eq_ok.mp hs]
  rcases Tracker.popAny_cases hpop with ⟨rest, hstate, -, rfl⟩ | ⟨rest, hstate, rfl⟩ <;>
    simp [hstate, popState]

theorem potential_popState_le (state : List StackEntry) :
    potential d (popState state) ≤ potential d state := by
  unfold popState
  split
  · simp
  · exact le_refl _

theorem potential_popState {state : List StackEntry} (h : topType state ≠ .any) :
    d (topType state) + potential d (popState state) = potential d state := by
  unfold topType at h ⊢
  split at h
  · simp [popState]
  · exact absurd rfl h

/-- The operand that `select` pushes is one it popped, or of any type. -/
theorem potential_selected_le (hd : SlotSizes d) (state : List StackEntry) :
    d (selectedType state) + potential d (popState (popState (popState state))) ≤
      potential d state + 1 := by
  have h₁ := potential_popState_le (d := d) state
  have h₂ := potential_popState_le (d := d) (popState state)
  have h₃ := potential_popState_le (d := d) (popState (popState state))
  simp only [selectedType]
  split
  next hne =>
    have heq := potential_popState (d := d) hne
    omega
  · by_cases hne : topType (popState (popState state)) = .any
    · rw [hne, hd.scalar .any (by decide)]
      omega
    · have heq := potential_popState (d := d) hne
      omega

theorem Fits.select (hd : SlotSizes d) {room : Nat} (hle : potential d tr.state ≤ room) :
    Fits o d₀ d (room + 1) [.pop (some .i32), .popAny, .popAny, .push (selectedType tr.state)]
      tr := by
  have hselected := potential_selected_le hd tr.state
  have h₁ := potential_popState_le (d := d) tr.state
  have h₂ := potential_popState_le (d := d) (popState tr.state)
  refine Fits.cons (by omega) fun s₁ hs₁ => ?_
  rw [← Tracker.pop_popState hs₁] at hselected h₁ h₂
  refine Fits.cons (by omega) fun s₂ hs₂ => ?_
  rw [← TrackerOp.popAny_popState hs₂] at hselected h₂
  refine Fits.cons (by omega) fun s₃ hs₃ => ?_
  rw [← TrackerOp.popAny_popState hs₃] at hselected
  refine Fits.of_gain hd ?_ ?_
  · intro before op after mid hops _ hw
    have hop : op = .push (selectedType tr.state) := by
      have hm : op ∈ before ++ op :: after := by simp
      rw [← hops] at hm
      exact List.mem_singleton.mp hm
    rw [hop] at hw
    exact hw
  · simp only [List.map_cons, List.map_nil, List.sum_singleton, TrackerOp.gain]
    omega

theorem labelOps_top (ctrl : List Ctrl) (label : Nat) :
    ∀ op ∈ labelOps ctrl label, ∃ type, op = .top type := by
  intro op hm
  unfold labelOps at hm
  split at hm
  · exact ⟨_, List.mem_singleton.mp hm⟩
  · cases hm

/-- The calls of an instruction fit in the room its bytes give. -/
theorem instrOps_fits (hd : SlotSizes d) {env : BodyEnv} {ctrl : List Ctrl} {instr : Instr}
    {room : Nat} (hn : NarrowRun o d₀ d (instrOps env ctrl tr.state instr) tr)
    (hle : potential d tr.state ≤ room) :
    Fits o d₀ d (room + 1 + instr.immediateBytes) (instrOps env ctrl tr.state instr) tr := by
  by_cases hr : instr.replaces = false
  · have hgain := @instrOps_gain _ hd env ctrl tr.state _ hr
    exact Fits.of_gain hd hn (by omega)
  cases instr <;> try exact absurd rfl hr
  case return_ => exact Fits.branch hd (labelOps_top ctrl _) hn hle
  case br label =>
    exact Fits.branch hd (labelOps_top ctrl _) hn (le_trans hle (Nat.le_add_right room 1))
  case select => exact Fits.select hd hle
  case brTable labels default =>
    have hops : instrOps env ctrl tr.state (.brTable labels default) =
        .pop (some .i32) :: ((labels.flatMap (labelOps ctrl) ++ labelOps ctrl default) ++
          [.startUnreachable]) := by
      simp [instrOps]
    rw [hops] at hn ⊢
    refine Fits.cons (by omega) fun mid hmid => ?_
    have hpop := Tracker.pop_potential hn.head hmid
    refine Fits.branch hd ?_ (hn.tail hmid) (by omega)
    intro op hm
    rcases List.mem_append.mp hm with hm | hm
    · obtain ⟨label, -, hm⟩ := List.mem_flatMap.mp hm
      exact labelOps_top ctrl label op hm
    · exact labelOps_top ctrl default op hm

end

/-- No call of the run takes an entry of any type for a type with another number of slots. -/
def NeverWidens (d : OperandType → Nat) (env : BodyEnv) (start : BodyPoint W) : Prop :=
  ∀ op tr, TrackerCall env start op tr → ¬ op.WidensAny d tr

section

variable {d : OperandType → Nat} {env : BodyEnv} {start p q : BodyPoint W}

/-- One slot for everything leaves nothing to widen. -/
theorem NeverWidens.bitcode : NeverWidens bitcodeDepthForType env start := by
  intro op tr _ hwidens
  unfold TrackerOp.WidensAny at hwidens
  split at hwidens
  · exact hwidens.2 rfl
  · exact hwidens.2 rfl
  · exact hwidens.2 rfl
  · exact hwidens

/-- The calls of one instruction are narrow. -/
theorem NeverWidens.narrow (hn : NeverWidens d env start) {instr : Instr}
    (hp : BodyReaches env start p) (hstep : BodyStep env p q) (hrest : p.rest = instr :: q.rest) :
    NarrowRun env.options W.getDepthForType d
      (instrOps env p.state.ctrl p.state.opStack.state instr) p.state.opStack := by
  intro before op after mid hops hrun
  exact hn op mid ⟨instr, p, q, before, after, hp, hstep, hrest, hops, hrun⟩

/-- At every point of the run the potential and the bytes still to come are within the body. -/
theorem NeverWidens.room {bounds : Nat} (hn : NeverWidens d env start)
    (hd : SlotSizes d) (hstart : start.state.opStack.state = [.scopeTag])
    (hbytes : codeBytes start.rest ≤ bounds) (hp : BodyReaches env start p) :
    potential d p.state.opStack.state + codeBytes p.rest ≤ bounds := by
  induction hp with
  | refl =>
    rw [hstart, potential_scopeTag]
    simpa [potential] using hbytes
  | @tail p q hp hstep ih =>
    obtain ⟨instr, hrest, hops, -⟩ := hstep.calls
    have hbytes' : codeBytes p.rest = 1 + instr.immediateBytes + codeBytes q.rest := by
      rw [hrest, codeBytes, List.map_cons, List.sum_cons, codeBytes]
    have hfits := instrOps_fits hd (hn.narrow hp hstep hrest) (le_refl _)
    have hpot := (hfits _ [] _ (List.append_nil _).symm hops).2.2 rfl
    omega

/-- Between any two calls of the run the slots and the tags are within the body. -/
theorem NeverWidens.size_le {bounds : Nat} (hn : NeverWidens d env start)
    (hd : SlotSizes d) (hstart : start.state.opStack.state = [.scopeTag])
    (hbytes : codeBytes start.rest ≤ bounds) {tr : Tracker} (h : TrackerPoint env start tr) :
    slots d tr.state ≤ bounds ∧ unreachableTags tr.state ≤ bounds := by
  obtain ⟨instr, p, q, before, after, hp, hstep, hrest, hops, hrun⟩ := h
  have hroom := hn.room hd hstart hbytes hp
  have hbytes' : codeBytes p.rest = 1 + instr.immediateBytes + codeBytes q.rest := by
    rw [hrest, codeBytes, List.map_cons, List.sum_cons, codeBytes]
  have hfits := instrOps_fits hd (hn.narrow hp hstep hrest) (le_refl _)
  obtain ⟨hslots, htags, -⟩ := hfits before after tr hops hrun
  constructor <;> omega

end

end EosVm
