import EosVm.Invariants.BodyRun

/-!
# What one instruction does

An instruction of an accepted body runs a fixed sequence of tracker operations, changes the control
stack in one of four ways and hands the rest to the writer. `processInstr_effect` says this once
for all instructions; the invariants of the operand stack only look at the operations.
-/

set_option autoImplicit false

namespace EosVm

open Lib

variable {W : CodeWriter}

/-- A call on `operand_stack_type_tracker`. -/
inductive TrackerOp where
  | push (type : OperandType)
  | pop (expected : Option ValType)
  | popAny
  | top (expected : ValType)
  | startUnreachable
  | pushScope
  | popScope (expectedResult : Option ValType)
  deriving DecidableEq, Repr

/-- The effect of one call on the tracker. -/
def TrackerOp.run (o : Options) (depthFor : OperandType → Nat) :
    TrackerOp → Tracker → Except VmError Tracker
  | .push type, tr => tr.push o depthFor type
  | .pop expected, tr => tr.pop o depthFor expected
  | .popAny, tr => do
    let (_, tr) ← tr.popAny o depthFor
    pure tr
  | .top expected, tr => tr.top o depthFor expected
  | .startUnreachable, tr => pure (tr.startUnreachable depthFor)
  | .pushScope, tr => pure tr.pushScope
  | .popScope expectedResult, tr => tr.popScope o depthFor expectedResult

/-- The effect of a sequence of calls. -/
def runOps (o : Options) (depthFor : OperandType → Nat) :
    List TrackerOp → Tracker → Except VmError Tracker
  | [], tr => pure tr
  | op :: ops, tr => do
    let tr ← op.run o depthFor tr
    runOps o depthFor ops tr

section

variable {o : Options} {depthFor : OperandType → Nat}

theorem runOps_append {ops ops' : List TrackerOp} {tr tr' : Tracker} :
    runOps o depthFor (ops ++ ops') tr = .ok tr' ↔
      ∃ mid, runOps o depthFor ops tr = .ok mid ∧ runOps o depthFor ops' mid = .ok tr' := by
  induction ops generalizing tr with
  | nil => simp [runOps]
  | cons op ops ih =>
    simp only [List.cons_append, runOps, bind_eq_ok, ih]
    constructor
    · rintro ⟨first, hf, mid, hm, hrest⟩
      exact ⟨mid, ⟨first, hf, hm⟩, hrest⟩
    · rintro ⟨mid, ⟨first, hf, hm⟩, hrest⟩
      exact ⟨first, hf, mid, hm, hrest⟩

theorem runOps_singleton {op : TrackerOp} {tr : Tracker} :
    runOps o depthFor [op] tr = op.run o depthFor tr := by
  simp only [runOps]
  exact bind_pure _

/-- A property kept by every operation holds after every prefix of a sequence. -/
theorem runOps_invariant {P : Tracker → Prop}
    (hop : ∀ (op : TrackerOp) tr tr', P tr → op.run o depthFor tr = .ok tr' → P tr')
    {ops : List TrackerOp}
    {tr tr' : Tracker} (hp : P tr) (h : runOps o depthFor ops tr = .ok tr') : P tr' := by
  induction ops generalizing tr with
  | nil =>
    rw [runOps, pure_eq_ok] at h
    rwa [← h]
  | cons op ops ih =>
    obtain ⟨mid, hm, hrest⟩ := bind_eq_ok.mp h
    exact ih (hop op tr mid hp hm) hrest

end

/-- `pc_element_t` without its relocations. -/
structure Ctrl where
  operandDepth : Nat
  expectedResult : Option ValType
  labelResult : Option ValType
  isIf : Bool
  deriving DecidableEq, Repr

def PcElement.ctrl (pc : PcElement W) : Ctrl :=
  ⟨pc.operandDepth, pc.expectedResult, pc.labelResult, pc.isIf⟩

def BodyState.ctrl (s : BodyState W) : List Ctrl := s.pcStack.map PcElement.ctrl

@[simp] theorem BodyState.ctrl_length (s : BodyState W) : s.ctrl.length = s.pcStack.length :=
  List.length_map ..

theorem BodyState.ctrl_getElem? (s : BodyState W) (i : Nat) :
    s.ctrl[i]? = s.pcStack[i]?.map PcElement.ctrl := List.getElem?_map ..

/-- `op_stack.top` for the result of a label, made by `compute_depth_change`. -/
def labelOps (ctrl : List Ctrl) (label : Nat) : List TrackerOp :=
  match ctrl[label]? with
  | some ⟨_, _, some type, _⟩ => [.top type]
  | _ => []

/-- The pops of a list of operand types, last one first. -/
def operandOps (types : List ValType) : List TrackerOp :=
  types.reverse.map fun type => .pop (some type)

/-- The push of an optional result. -/
def resultOps : Option ValType → List TrackerOp
  | none => []
  | some type => [.push (.val type)]

/-- The pops and pushes of a call. -/
def callOps (ft : FuncType) : List TrackerOp := operandOps ft.paramTypes ++ resultOps ft.result

/-- The type at the top of the stack, as `pop()` returns it. -/
def topType : List StackEntry → OperandType
  | .operand type :: _ => type
  | _ => .any

/-- The stack after a pop. -/
def popState : List StackEntry → List StackEntry
  | .operand _ :: rest => rest
  | state => state

/-- The type that `select` pushes on a stack. -/
def selectedType (state : List StackEntry) : OperandType :=
  let values := popState state
  if topType values ≠ .any then topType values else topType (popState values)

/-- The tracker operations of an instruction, in order. `ctrl` and `state` are the control stack and
the operand stack before it. -/
def instrOps (env : BodyEnv) (ctrl : List Ctrl) (state : List StackEntry) :
    Instr → List TrackerOp
  | .unreachable => [.startUnreachable]
  | .nop | .dataDrop _ | .elemDrop _ => []
  | .end_ => [.popScope (ctrl.head?.bind Ctrl.expectedResult)]
  | .return_ => labelOps ctrl (ctrl.length - 1) ++ [.startUnreachable]
  | .block _ | .loop _ => [.pushScope]
  | .if_ _ => [.pop (some .i32), .pushScope]
  | .else_ => [.pop (ctrl.head?.bind Ctrl.expectedResult), .popScope none, .pushScope]
  | .br label => labelOps ctrl label ++ [.startUnreachable]
  | .brIf label => .pop (some .i32) :: labelOps ctrl label
  | .brTable labels default =>
    .pop (some .i32) :: labels.flatMap (labelOps ctrl) ++ labelOps ctrl default ++
      [.startUnreachable]
  | .call funcnum =>
    match env.mod.getFunctionType funcnum with
    | .ok ft => callOps ft
    | .error _ => []
  | .callIndirect functypeidx =>
    match env.mod.types[functypeidx]? with
    | some ft => .pop (some .i32) :: callOps ft
    | none => []
  | .drop => [.popAny]
  | .select => [.pop (some .i32), .popAny, .popAny, .push (selectedType state)]
  | .getLocal localIdx =>
    match env.localTypes.get localIdx with
    | .ok type => [.push (.val type)]
    | .error _ => []
  | .setLocal localIdx =>
    match env.localTypes.get localIdx with
    | .ok type => [.pop (some type)]
    | .error _ => []
  | .teeLocal localIdx =>
    match env.localTypes.get localIdx with
    | .ok type => [.top type]
    | .error _ => []
  | .getGlobal globalIdx =>
    match env.mod.globals[globalIdx]? with
    | some gl => [.push (.val gl.type.contentType)]
    | none => []
  | .setGlobal globalIdx =>
    match env.mod.globals[globalIdx]? with
    | some gl => [.pop (some gl.type.contentType)]
    | none => []
  | .load op _ _ => [.pop (some .i32), .push (.val op.maxAlignType.2)]
  | .store op _ _ => [.pop (some op.maxAlignType.2), .pop (some .i32)]
  | .currentMemory => [.push (.val .i32)]
  | .growMemory => [.pop (some .i32), .push (.val .i32)]
  | .i32Const _ => [.push (.val .i32)]
  | .i64Const _ => [.push (.val .i64)]
  | .f32Const _ => [.push (.val .f32)]
  | .f64Const _ => [.push (.val .f64)]
  | .numeric op => operandOps op.signature.1 ++ [.push (.val op.signature.2)]
  | .loadLane _ _ _ _ => [.pop (some .v128), .pop (some .i32), .push (.val .v128)]
  | .storeLane _ _ _ _ => [.pop (some .v128), .pop (some .i32)]
  | .v128Const _ => [.push (.val .v128)]
  | .i8x16Shuffle _ => [.pop (some .v128), .pop (some .v128), .push (.val .v128)]
  | .extractLane op _ => [.pop (some .v128), .push (.val op.laneType.1)]
  | .replaceLane op _ => [.pop (some op.laneType.1), .pop (some .v128), .push (.val .v128)]
  | .vecNumeric op => operandOps op.signature.1 ++ [.push (.val op.signature.2)]
  | .truncSat op => [.pop (some op.signature.1), .push (.val op.signature.2)]
  | .memoryInit _ | .memoryCopy | .memoryFill | .tableInit _ | .tableCopy =>
    [.pop (some .i32), .pop (some .i32), .pop (some .i32)]

/-- The control stack after an instruction. `opStack` is the tracker after it; a scope is entered
at the depth it has then, since pushing a scope does not change the depth. -/
def ctrlAfter (o : Options) (opStack : Tracker) (ctrl : List Ctrl) : Instr → List Ctrl
  | .block bt =>
    match blockType o bt "Invalid type code in block" with
    | .ok result => ⟨opStack.operandDepth, result, result, false⟩ :: ctrl
    | .error _ => ctrl
  | .loop bt =>
    match blockType o bt "Invalid type code in loop" with
    | .ok result => ⟨opStack.operandDepth, result, none, false⟩ :: ctrl
    | .error _ => ctrl
  | .if_ bt =>
    match blockType o bt "Invalid type code in if" with
    | .ok result => ⟨opStack.operandDepth, result, result, true⟩ :: ctrl
    | .error _ => ctrl
  | .else_ =>
    match ctrl with
    | back :: rest => { back with isIf := false } :: rest
    | [] => []
  | .end_ => ctrl.tail
  | _ => ctrl

section

variable {o : Options} {tr : Tracker} {ctrl : List Ctrl} {bt : UInt8} {result : Option ValType}

theorem ctrlAfter_block (hr : blockType o bt "Invalid type code in block" = .ok result) :
    ctrlAfter o tr ctrl (.block bt) = ⟨tr.operandDepth, result, result, false⟩ :: ctrl := by
  unfold ctrlAfter
  dsimp only
  rw [hr]

theorem ctrlAfter_loop (hr : blockType o bt "Invalid type code in loop" = .ok result) :
    ctrlAfter o tr ctrl (.loop bt) = ⟨tr.operandDepth, result, none, false⟩ :: ctrl := by
  unfold ctrlAfter
  dsimp only
  rw [hr]

theorem ctrlAfter_if (hr : blockType o bt "Invalid type code in if" = .ok result) :
    ctrlAfter o tr ctrl (.if_ bt) = ⟨tr.operandDepth, result, result, true⟩ :: ctrl := by
  unfold ctrlAfter
  dsimp only
  rw [hr]

theorem ctrlAfter_else (back : Ctrl) (rest : List Ctrl) :
    ctrlAfter o tr (back :: rest) .else_ = { back with isIf := false } :: rest := rfl

end

/-- From `s` to `s'` the tracker ran `ops` and the control stack stayed the same. -/
structure Effect (env : BodyEnv) (ops : List TrackerOp) (s s' : BodyState W) : Prop where
  ops : runOps env.options W.getDepthForType ops s.opStack = .ok s'.opStack
  ctrl : s'.ctrl = s.ctrl

namespace Effect

variable {env : BodyEnv} {s s₁ s₂ s' : BodyState W} {ops ops' : List TrackerOp}

theorem trans (h : Effect env ops s s₁) (h' : Effect env ops' s₁ s₂) :
    Effect env (ops ++ ops') s s₂ where
  ops := runOps_append.mpr ⟨_, h.ops, h'.ops⟩
  ctrl := h'.ctrl.trans h.ctrl

/-- Changing the writer is no effect. -/
theorem writer (s : BodyState W) (w : W.State) : Effect env [] s { s with writer := w } :=
  ⟨rfl, rfl⟩

theorem emit {op : EmitOp} (h : s.emit op = .ok s') : Effect env [] s s' := by
  obtain ⟨w, -, hw⟩ := bind_eq_ok.mp h
  rw [← pure_eq_ok.mp hw]
  exact writer s w

theorem push {type : OperandType} (h : s.push env type = .ok s') :
    Effect env [.push type] s s' := by
  obtain ⟨tr, htr, hs⟩ := bind_eq_ok.mp h
  rw [← pure_eq_ok.mp hs]
  exact ⟨by rw [runOps_singleton]; exact htr, rfl⟩

theorem pop {expected : Option ValType} (h : s.pop env expected = .ok s') :
    Effect env [.pop expected] s s' := by
  obtain ⟨tr, htr, hs⟩ := bind_eq_ok.mp h
  rw [← pure_eq_ok.mp hs]
  exact ⟨by rw [runOps_singleton]; exact htr, rfl⟩

theorem top {expected : ValType} (h : s.top env expected = .ok s') :
    Effect env [.top expected] s s' := by
  obtain ⟨tr, htr, hs⟩ := bind_eq_ok.mp h
  rw [← pure_eq_ok.mp hs]
  exact ⟨by rw [runOps_singleton]; exact htr, rfl⟩

theorem popAny {type : OperandType} (h : s.popAny env = .ok (type, s')) :
    Effect env [.popAny] s s' := by
  obtain ⟨⟨t, tr⟩, htr, hs⟩ := bind_eq_ok.mp h
  have hs' := (Prod.mk.inj (pure_eq_ok.mp hs)).2
  rw [← hs']
  refine ⟨?_, rfl⟩
  rw [runOps_singleton]
  exact bind_eq_ok.mpr ⟨(t, tr), htr, rfl⟩

theorem popScope {expected : Option ValType} (h : s.popScope env expected = .ok s') :
    Effect env [.popScope expected] s s' := by
  obtain ⟨tr, htr, hs⟩ := bind_eq_ok.mp h
  rw [← pure_eq_ok.mp hs]
  exact ⟨by rw [runOps_singleton]; exact htr, rfl⟩

theorem pushScope (s : BodyState W) : Effect env [.pushScope] s s.pushScope := ⟨rfl, rfl⟩

theorem startUnreachable (s : BodyState W) :
    Effect env [.startUnreachable] s s.startUnreachable := ⟨rfl, rfl⟩

theorem popAll {types : List ValType} (h : s.popAll env types = .ok s') :
    Effect env (types.map fun type => .pop (some type)) s s' := by
  induction types generalizing s with
  | nil =>
    rw [← pure_eq_ok.mp h]
    exact ⟨rfl, rfl⟩
  | cons type types ih =>
    obtain ⟨mid, hm, hrest⟩ := bind_eq_ok.mp h
    exact (Effect.pop hm).trans (ih hrest)

theorem popOperands {types : List ValType} (h : s.popOperands env types = .ok s') :
    Effect env (operandOps types) s s' := popAll h

theorem pushResult {ft : FuncType} (h : s.pushResult env ft = .ok s') :
    Effect env (resultOps ft.result) s s' := by
  unfold BodyState.pushResult at h
  cases hr : ft.result with
  | none =>
    rw [hr, pure_eq_ok] at h
    rw [← h]
    exact ⟨rfl, rfl⟩
  | some type =>
    rw [hr] at h
    exact Effect.push h

theorem onControl (h : s.onControl env = .ok s') : Effect env [] s s' := by
  unfold BodyState.onControl at h
  split at h
  · rw [← pure_eq_ok.mp h]
    exact ⟨rfl, rfl⟩
  · obtain ⟨-, -, hs⟩ := bind_eq_ok.mp h
    rw [← pure_eq_ok.mp hs]
    exact ⟨rfl, rfl⟩

theorem onEnd (s : BodyState W) : Effect env [] s (s.onEnd env) := by
  unfold BodyState.onEnd
  split
  · exact ⟨rfl, rfl⟩
  · split <;> exact ⟨rfl, rfl⟩

theorem handleBranchTarget {label : Nat} {address : W.Branch}
    (h : s.handleBranchTarget label address = .ok s') : Effect env [] s s' := by
  unfold BodyState.handleBranchTarget at h
  split at h
  · cases h
  next target htarget =>
    split at h
    · obtain ⟨w, -, hw⟩ := bind_eq_ok.mp h
      rw [← pure_eq_ok.mp hw]
      exact writer s w
    · rw [← pure_eq_ok.mp h]
      refine ⟨rfl, ?_⟩
      -- only the relocations of the target change
      simp only [BodyState.ctrl, List.map_set]
      apply List.ext_getElem?
      intro i
      rw [List.getElem?_set]
      split
      next heq =>
        subst heq
        obtain ⟨hlt, hget⟩ := List.getElem?_eq_some_iff.mp htarget
        simp [hlt, hget, PcElement.ctrl]
      · rfl

theorem computeDepthChange {label depthChange : Nat} {rt : Option ValType}
    (h : s.computeDepthChange env label = .ok (depthChange, rt, s')) :
    Effect env (labelOps s.ctrl label) s s' := by
  unfold BodyState.computeDepthChange at h
  split at h
  · cases h
  next target htarget =>
    have hctrl : s.ctrl[label]? = some target.ctrl := by
      rw [BodyState.ctrl_getElem?, htarget]
      rfl
    simp only [labelOps, hctrl, PcElement.ctrl]
    cases hr : target.labelResult with
    | none =>
      simp only [hr, pure_eq_ok, Prod.mk.injEq] at h
      rw [← h.2.2]
      exact ⟨rfl, rfl⟩
    | some type =>
      simp only [hr, bind_eq_ok, pure_eq_ok, Prod.mk.injEq] at h
      obtain ⟨s₁, ht, -, -, rfl⟩ := h
      exact Effect.top ht

theorem branchTo {emitBranch : Nat → Option ValType → W.State → Except VmError (W.Branch × W.State)}
    {label : Nat} (h : s.branchTo env emitBranch label = .ok s') :
    Effect env (labelOps s.ctrl label) s s' := by
  simp only [BodyState.branchTo, bind_eq_ok, Prod.exists] at h
  obtain ⟨depthChange, rt, s₁, hd, branch, w, -, hb⟩ := h
  have htarget : Effect env [] _ s' := handleBranchTarget hb
  simpa using ((computeDepthChange hd).trans (writer s₁ w)).trans htarget

theorem emitCases {labels : List Nat} {handler handler' : W.Handler}
    {result result' : Option (Option ValType)}
    (h : BodyState.emitCases env labels handler result s = .ok (handler', result', s')) :
    Effect env (labels.flatMap (labelOps s.ctrl)) s s' := by
  induction labels generalizing s handler result with
  | nil =>
    simp only [BodyState.emitCases, pure_eq_ok, Prod.mk.injEq] at h
    rw [← h.2.2]
    exact ⟨rfl, rfl⟩
  | cons label labels ih =>
    simp only [BodyState.emitCases, bind_eq_ok, Prod.exists] at h
    obtain ⟨depthChange, rt, s₁, hd, branch, handler₁, w, -, s₂, hb, -, -, hrest⟩ := h
    have htarget : Effect env [] _ s₂ := handleBranchTarget hb
    have hfirst := ((computeDepthChange hd).trans (writer s₁ w)).trans htarget
    have hlast := ih hrest
    rw [hfirst.ctrl] at hlast
    simpa using hfirst.trans hlast

theorem brTable {labels : List Nat} {default : Nat}
    (h : s.brTable env labels default = .ok s') :
    Effect env (instrOps env s.ctrl s.opStack.state (.brTable labels default)) s s' := by
  simp only [BodyState.brTable, bind_eq_ok, vmAssert_eq_ok, pure_eq_ok, Prod.exists,
    exists_const] at h
  obtain ⟨-, s₁, hp, handler, w, -, handler', result, s₂, hc, depthChange, rt, s₃, hd, branch, w',
    -, s₄, hb, -, rfl⟩ := h
  have hpop := (Effect.pop hp).trans (writer s₁ w)
  have hcases := emitCases hc
  have htarget : Effect env [] _ s₄ := handleBranchTarget hb
  have hdefault := ((computeDepthChange hd).trans (writer s₃ w')).trans htarget
  rw [hcases.ctrl] at hdefault
  have hall := ((hpop.trans hcases).trans hdefault).trans (startUnreachable s₄)
  rw [show BodyState.ctrl { s₁ with writer := w } = s.ctrl from hpop.ctrl] at hall
  simpa [instrOps] using hall

end Effect

/-- What an instruction of an accepted body does to the tracker and the control stack. -/
structure InstrEffect (env : BodyEnv) (instr : Instr) (s s' : BodyState W) : Prop where
  ops : runOps env.options W.getDepthForType (instrOps env s.ctrl s.opStack.state instr)
    s.opStack = .ok s'.opStack
  ctrl : s'.ctrl = ctrlAfter env.options s'.opStack s.ctrl instr

theorem Effect.instr {env : BodyEnv} {instr : Instr} {s s' : BodyState W}
    (h : Effect env (instrOps env s.ctrl s.opStack.state instr) s s')
    (hc : ctrlAfter env.options s'.opStack s.ctrl instr = s.ctrl) : InstrEffect env instr s s' :=
  ⟨h.ops, by rw [hc, h.ctrl]⟩

theorem exitScope_effect {env : BodyEnv} {s s' : BodyState W} (h : s.exitScope env = .ok s') :
    runOps env.options W.getDepthForType [.popScope (s.ctrl.head?.bind Ctrl.expectedResult)]
        s.opStack = .ok s'.opStack ∧ s'.ctrl = s.ctrl.tail := by
  unfold BodyState.exitScope at h
  split at h
  · cases h
  next back rest hpc =>
    simp only [bind_eq_ok, pure_eq_ok, vmAssert_eq_ok, Prod.exists, exists_const] at h
    obtain ⟨-, endPos, w, -, w', -, s₁, hp, rfl⟩ := h
    have heff := Effect.popScope hp
    refine ⟨?_, ?_⟩
    · simpa [BodyState.ctrl, hpc, PcElement.ctrl] using heff.ops
    · simp [BodyState.ctrl, hpc]

theorem elseScope_effect {env : BodyEnv} {s s' : BodyState W} (h : s.elseScope env = .ok s') :
    runOps env.options W.getDepthForType (instrOps env s.ctrl s.opStack.state .else_) s.opStack =
        .ok s'.opStack ∧ s'.ctrl = ctrlAfter env.options s'.opStack s.ctrl .else_ := by
  unfold BodyState.elseScope at h
  split at h
  · cases h
  next back rest hpc =>
    simp only [bind_eq_ok, vmAssert_eq_ok, exists_const] at h
    obtain ⟨-, h⟩ := h
    split at h
    · simp only [bind_eq_ok, pure_eq_ok, Prod.exists] at h
      obtain ⟨s₁, hp, s₂, hs, branch, w, -, rfl⟩ := h
      have heff := ((Effect.pop hp).trans (Effect.popScope hs)).trans (Effect.pushScope s₂)
      refine ⟨?_, ?_⟩
      · simpa [instrOps, BodyState.ctrl, hpc, PcElement.ctrl] using heff.ops
      · simp [BodyState.ctrl, hpc, ctrlAfter_else, PcElement.ctrl]
    · cases h

theorem checkMemarg_eq_ok {env : BodyEnv} {what : String} {maxAlign alignment offset : Nat}
    {u : Unit} :
    BodyState.checkMemarg env what maxAlign alignment offset = .ok u ↔
      alignment ≤ maxAlign ∧ offset ≤ env.options.maxMemoryOffset := by
  simp [BodyState.checkMemarg]

theorem requireData_eq_ok {env : BodyEnv} {x : Nat} {msg : String} {u : Unit} :
    BodyState.requireData env x msg = .ok u ↔ ∃ n, env.datacount = some n ∧ x < n := by
  unfold BodyState.requireData
  cases env.datacount <;> simp

/-- Entering a block: the new scope at the current depth. -/
theorem enter_effect {env : BodyEnv} {s s' : BodyState W}
    (h : s.pushScope.onControl env = .ok s') :
    runOps env.options W.getDepthForType [.pushScope] s.opStack = .ok s'.opStack ∧
      s'.ctrl = s.ctrl ∧ s'.opStack.operandDepth = s.opStack.operandDepth := by
  have heff := (Effect.pushScope s).trans (Effect.onControl h)
  have htr : s'.opStack = s.opStack.pushScope := (pure_eq_ok.mp heff.ops).symm
  exact ⟨heff.ops, heff.ctrl, by rw [htr]; rfl⟩

/-- What `pop` with a type leaves on the stack. -/
theorem pop_state {env : BodyEnv} {type : ValType} {s s' : BodyState W}
    (h : s.pop env (some type) = .ok s') :
    s.opStack.state ≠ [] ∧ s'.opStack.state = popState s.opStack.state := by
  obtain ⟨tr, htr, hs⟩ := bind_eq_ok.mp h
  rw [← pure_eq_ok.mp hs]
  simp only [Tracker.pop] at htr
  split at htr
  · cases htr
  next hstate =>
    rw [← Except.ok.inj htr, hstate]
    exact ⟨by simp, rfl⟩
  next e rest hne hstate =>
    simp only [bind_eq_ok, vmAssert_eq_ok, pure_eq_ok, exists_const, Bool.or_eq_true,
      beq_iff_eq] at htr
    obtain ⟨he, rfl⟩ := htr
    rcases he with rfl | rfl <;> simp [Tracker.remove, hstate, popState]

/-- What `pop()` returns and leaves on the stack. -/
theorem popAny_state {env : BodyEnv} {type : OperandType} {s s' : BodyState W}
    (h : s.popAny env = .ok (type, s')) :
    type = topType s.opStack.state ∧ s'.opStack.state = popState s.opStack.state := by
  obtain ⟨⟨t, tr⟩, htr, hs⟩ := bind_eq_ok.mp h
  obtain ⟨rfl, rfl⟩ := Prod.mk.inj (pure_eq_ok.mp hs)
  unfold Tracker.popAny at htr
  split at htr
  · cases htr
  · cases htr
  next hstate =>
    obtain ⟨rfl, rfl⟩ := Prod.mk.inj (Except.ok.inj htr)
    rw [hstate]
    exact ⟨rfl, rfl⟩
  next hstate =>
    obtain ⟨rfl, rfl⟩ := Prod.mk.inj (Except.ok.inj htr)
    simp [hstate, topType, popState, Tracker.remove]

theorem processInstr_effect {env : BodyEnv} {atEnd : Bool} {instr : Instr} {s s' : BodyState W}
    (h : processInstr env atEnd instr s = .ok s') : InstrEffect env instr s s' := by
  cases instr <;>
    simp only [processInstr, bind_eq_ok, pure_eq_ok, vmAssert_eq_ok, Prod.exists, exists_const,
      BodyState.checkInBounds, BodyState.requireMemory, BodyState.requireTable,
      BodyState.requireBulkMemory, checkMemarg_eq_ok, requireData_eq_ok] at h
  case unreachable =>
    obtain ⟨-, s₁, he, rfl⟩ := h
    exact Effect.instr ((Effect.emit he).trans (Effect.startUnreachable s₁)) rfl
  case nop => exact Effect.instr (Effect.emit h) rfl
  case block bt =>
    obtain ⟨result, hr, s₁, he, hc⟩ := h
    have hemit : Effect env [] _ s₁ := Effect.emit he
    obtain ⟨hops, hctrl, hdepth⟩ := enter_effect hc
    have htr : s₁.opStack = s.opStack := (pure_eq_ok.mp hemit.ops).symm
    rw [htr] at hops hdepth
    refine ⟨hops, ?_⟩
    rw [hctrl, hemit.ctrl]
    simp only [ctrlAfter_block hr, hdepth]
    rfl
  case loop bt =>
    obtain ⟨result, hr, pos, w, -, hc⟩ := h
    obtain ⟨hops, hctrl, hdepth⟩ := enter_effect hc
    refine ⟨hops, ?_⟩
    rw [hctrl]
    simp only [ctrlAfter_loop hr, hdepth]
    rfl
  case if_ bt =>
    obtain ⟨-, result, hr, branch, w, -, s₁, hp, hc⟩ := h
    have hpop := (Effect.writer s w).trans (Effect.pop hp)
    obtain ⟨hops, hctrl, hdepth⟩ := enter_effect hc
    refine ⟨runOps_append.mpr ⟨_, hpop.ops, hops⟩, ?_⟩
    rw [hctrl, ← hpop.ctrl]
    simp only [ctrlAfter_if hr, hdepth]
    rfl
  case else_ =>
    obtain ⟨-, s₁, he, hc⟩ := h
    obtain ⟨hops, hctrl⟩ := elseScope_effect he
    have hcontrol := Effect.onControl hc
    have htr : s'.opStack = s₁.opStack := (pure_eq_ok.mp hcontrol.ops).symm
    rw [← htr] at hops hctrl
    exact ⟨hops, hcontrol.ctrl.trans hctrl⟩
  case end_ =>
    obtain ⟨-, s₁, he, -, rfl⟩ := h
    obtain ⟨hops, hctrl⟩ := exitScope_effect he
    have hend : Effect env [] s₁ (s₁.onEnd env) := Effect.onEnd s₁
    have htr : (s₁.onEnd env).opStack = s₁.opStack := (pure_eq_ok.mp hend.ops).symm
    rw [← htr] at hops
    exact ⟨hops, hend.ctrl.trans hctrl⟩
  case br label =>
    obtain ⟨-, s₁, hb, rfl⟩ := h
    exact Effect.instr ((Effect.branchTo hb).trans (Effect.startUnreachable s₁)) rfl
  case brIf label =>
    obtain ⟨-, s₁, hp, hb⟩ := h
    have hpop := Effect.pop hp
    have hbr := Effect.branchTo hb
    rw [hpop.ctrl] at hbr
    exact Effect.instr (hpop.trans hbr) rfl
  case brTable labels default =>
    obtain ⟨-, hb⟩ := h
    exact Effect.instr (Effect.brTable hb) rfl
  case return_ =>
    obtain ⟨-, s₁, hb, rfl⟩ := h
    have hbr := (Effect.branchTo hb).trans (Effect.startUnreachable s₁)
    rw [← BodyState.ctrl_length] at hbr
    exact Effect.instr hbr rfl
  case call funcnum =>
    obtain ⟨-, ft, hft, s₁, hp, -, s₂, hr, he⟩ := h
    refine Effect.instr ?_ rfl
    simpa [instrOps, hft, callOps] using
      ((Effect.popOperands hp).trans (Effect.pushResult hr)).trans (Effect.emit he)
  case callIndirect functypeidx =>
    obtain ⟨-, ft, hft, -, s₁, hi, s₂, hp, -, s₃, hr, typeAlias, -, he⟩ := h
    refine Effect.instr ?_ rfl
    simpa [instrOps, vectorAt_eq_ok.mp hft, callOps] using
      (((Effect.pop hi).trans (Effect.popOperands hp)).trans (Effect.pushResult hr)).trans
        (Effect.emit he)
  case drop =>
    obtain ⟨-, type, s₁, hp, he⟩ := h
    exact Effect.instr ((Effect.popAny hp).trans (Effect.emit he)) rfl
  case select =>
    obtain ⟨-, s₁, hp, t0, s₂, h0, t1, s₃, h1, -, s₄, hpush, he⟩ := h
    refine Effect.instr ?_ rfl
    have hselected : (if t0 ≠ .any then t0 else t1) = selectedType s.opStack.state := by
      rw [selectedType, ← (pop_state hp).2, ← (popAny_state h0).1, ← (popAny_state h0).2,
        ← (popAny_state h1).1]
    rw [hselected] at hpush
    exact (((Effect.pop hp).trans (Effect.popAny h0)).trans (Effect.popAny h1)).trans
      ((Effect.push hpush).trans (Effect.emit he))
  case getLocal localIdx =>
    obtain ⟨type, ht, s₁, hp, he⟩ := h
    refine Effect.instr ?_ rfl
    simpa [instrOps, ht] using (Effect.push hp).trans (Effect.emit he)
  case setLocal localIdx =>
    obtain ⟨-, type, ht, s₁, hp, he⟩ := h
    refine Effect.instr ?_ rfl
    simpa [instrOps, ht] using (Effect.pop hp).trans (Effect.emit he)
  case teeLocal localIdx =>
    obtain ⟨-, type, ht, s₁, hp, he⟩ := h
    refine Effect.instr ?_ rfl
    simpa [instrOps, ht] using (Effect.top hp).trans (Effect.emit he)
  case getGlobal globalIdx =>
    obtain ⟨gl, hg, s₁, hp, he⟩ := h
    refine Effect.instr ?_ rfl
    simpa [instrOps, vectorAt_eq_ok.mp hg] using (Effect.push hp).trans (Effect.emit he)
  case setGlobal globalIdx =>
    obtain ⟨-, gl, hg, -, s₁, hp, he⟩ := h
    refine Effect.instr ?_ rfl
    simpa [instrOps, vectorAt_eq_ok.mp hg] using (Effect.pop hp).trans (Effect.emit he)
  case load op alignment offset =>
    obtain ⟨-, -, -, s₁, hp, s₂, hpush, he⟩ := h
    exact Effect.instr (((Effect.pop hp).trans (Effect.push hpush)).trans (Effect.emit he)) rfl
  case store op alignment offset =>
    obtain ⟨-, -, -, s₁, hv, s₂, hp, he⟩ := h
    exact Effect.instr (((Effect.pop hv).trans (Effect.pop hp)).trans (Effect.emit he)) rfl
  case currentMemory =>
    obtain ⟨-, s₁, hp, he⟩ := h
    exact Effect.instr ((Effect.push hp).trans (Effect.emit he)) rfl
  case growMemory =>
    obtain ⟨-, -, s₁, hp, s₂, hpush, he⟩ := h
    exact Effect.instr (((Effect.pop hp).trans (Effect.push hpush)).trans (Effect.emit he)) rfl
  case i32Const v | i64Const v | f32Const v | f64Const v =>
    obtain ⟨s₁, he, hp⟩ := h
    exact Effect.instr ((Effect.emit he).trans (Effect.push hp)) rfl
  case v128Const v =>
    obtain ⟨-, s₁, he, hp⟩ := h
    exact Effect.instr ((Effect.emit he).trans (Effect.push hp)) rfl
  case numeric op =>
    obtain ⟨-, -, s₁, he, s₂, hp, hpush⟩ := h
    exact Effect.instr
      ((Effect.emit he).trans ((Effect.popOperands hp).trans (Effect.push hpush))) rfl
  case loadLane op alignment offset lane =>
    obtain ⟨-, -, -, -, s₁, hv, s₂, hp, s₃, hpush, he⟩ := h
    exact Effect.instr ((((Effect.pop hv).trans (Effect.pop hp)).trans
      (Effect.push hpush)).trans (Effect.emit he)) rfl
  case storeLane op alignment offset lane =>
    obtain ⟨-, -, -, -, s₁, hv, s₂, hp, he⟩ := h
    exact Effect.instr (((Effect.pop hv).trans (Effect.pop hp)).trans (Effect.emit he)) rfl
  case i8x16Shuffle lanes =>
    obtain ⟨-, -, s₁, he, s₂, hv, s₃, hp, hpush⟩ := h
    exact Effect.instr ((Effect.emit he).trans (((Effect.pop hv).trans (Effect.pop hp)).trans
      (Effect.push hpush))) rfl
  case extractLane op lane =>
    obtain ⟨-, -, s₁, hp, s₂, hpush, he⟩ := h
    exact Effect.instr (((Effect.pop hp).trans (Effect.push hpush)).trans (Effect.emit he)) rfl
  case replaceLane op lane =>
    obtain ⟨-, -, s₁, hv, s₂, hp, s₃, hpush, he⟩ := h
    exact Effect.instr ((((Effect.pop hv).trans (Effect.pop hp)).trans
      (Effect.push hpush)).trans (Effect.emit he)) rfl
  case vecNumeric op =>
    obtain ⟨-, s₁, hp, s₂, hpush, he⟩ := h
    refine Effect.instr ?_ rfl
    simpa [instrOps] using
      ((Effect.popOperands hp).trans (Effect.push hpush)).trans (Effect.emit he)
  case truncSat op =>
    obtain ⟨-, -, s₁, hp, s₂, hpush, he⟩ := h
    exact Effect.instr (((Effect.pop hp).trans (Effect.push hpush)).trans (Effect.emit he)) rfl
  case memoryInit x =>
    obtain ⟨-, -, -, s₁, hp, -, he⟩ := h
    exact Effect.instr ((Effect.popAll hp).trans (Effect.emit he)) rfl
  case dataDrop x =>
    obtain ⟨-, -, -, he⟩ := h
    exact Effect.instr (Effect.emit he) rfl
  case elemDrop x =>
    obtain ⟨-, -, -, he⟩ := h
    exact Effect.instr (Effect.emit he) rfl
  case memoryCopy | memoryFill | tableCopy =>
    obtain ⟨-, -, -, s₁, hp, he⟩ := h
    exact Effect.instr ((Effect.popAll hp).trans (Effect.emit he)) rfl
  case tableInit x =>
    obtain ⟨-, -, -, s₁, hp, he⟩ := h
    exact Effect.instr ((Effect.popAll hp).trans (Effect.emit he)) rfl

end EosVm
