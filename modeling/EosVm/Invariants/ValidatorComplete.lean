import EosVm.Invariants.StackProgress
import EosVm.Invariants.StackWeight
import EosVm.Invariants.ValidatorSound
import EosVm.Invariants.WriterRoom

/-!
# Typed bodies are accepted

The parser accepts what has a derivation in the typing rules. The derivation is followed forwards:
the stack stands for the types of the derivation, so the calls on the tracker succeed, and the
writer has room for the code.
-/

set_option autoImplicit false

namespace EosVm

open Lib

variable {W : CodeWriter}

section

variable {env : BodyEnv} {s : BodyState W} {tr : Tracker}

theorem push_of_run {type : OperandType}
    (h : TrackerOp.run env.options W.getDepthForType (.push type) s.opStack = .ok tr) :
    s.push env type = .ok { s with opStack := tr } := by
  have hrun : s.opStack.push env.options W.getDepthForType type = .ok tr := h
  simp only [BodyState.push, hrun, ok_bind]
  rfl

theorem pop_of_run {expected : Option ValType}
    (h : TrackerOp.run env.options W.getDepthForType (.pop expected) s.opStack = .ok tr) :
    s.pop env expected = .ok { s with opStack := tr } := by
  have hrun : s.opStack.pop env.options W.getDepthForType expected = .ok tr := h
  simp only [BodyState.pop, hrun, ok_bind]
  rfl

theorem top_of_run {type : ValType}
    (h : TrackerOp.run env.options W.getDepthForType (.top type) s.opStack = .ok tr) :
    s.top env type = .ok { s with opStack := tr } := by
  have hrun : s.opStack.top env.options W.getDepthForType type = .ok tr := h
  simp only [BodyState.top, hrun, ok_bind]
  rfl

theorem popScope_of_run {result : Option ValType}
    (h : TrackerOp.run env.options W.getDepthForType (.popScope result) s.opStack = .ok tr) :
    s.popScope env result = .ok { s with opStack := tr } := by
  have hrun : s.opStack.popScope env.options W.getDepthForType result = .ok tr := h
  simp only [BodyState.popScope, hrun, ok_bind]
  rfl

theorem popAny_of_run (h : TrackerOp.popAny.run env.options W.getDepthForType s.opStack = .ok tr) :
    s.popAny env = .ok (topType s.opStack.state, { s with opStack := tr }) := by
  obtain ⟨⟨type, tr'⟩, hpop, hpure⟩ := bind_eq_ok.mp h
  obtain rfl := pure_eq_ok.mp hpure
  have hok : s.popAny env = .ok (type, { s with opStack := tr' }) := by
    simp only [BodyState.popAny, hpop, ok_bind]
    rfl
  rw [hok, (popAny_state hok).1]

theorem popAll_of_run {types : List ValType}
    (h : runOps env.options W.getDepthForType (types.map fun t => .pop (some t)) s.opStack =
      .ok tr) : s.popAll env types = .ok { s with opStack := tr } := by
  induction types generalizing s with
  | nil =>
    rw [← pure_eq_ok.mp h]
    rfl
  | cons type types ih =>
    obtain ⟨mid, hm, hrest⟩ := bind_eq_ok.mp h
    rw [BodyState.popAll, pop_of_run hm, ok_bind]
    exact ih (s := { s with opStack := mid }) hrest

theorem popOperands_of_run {types : List ValType}
    (h : runOps env.options W.getDepthForType (operandOps types) s.opStack = .ok tr) :
    s.popOperands env types = .ok { s with opStack := tr } := popAll_of_run h

theorem pushResult_of_run {ft : FuncType}
    (h : runOps env.options W.getDepthForType (resultOps ft.result) s.opStack = .ok tr) :
    s.pushResult env ft = .ok { s with opStack := tr } := by
  unfold BodyState.pushResult
  cases hr : ft.result with
  | none =>
    rw [hr] at h
    rw [← pure_eq_ok.mp h]
    rfl
  | some type =>
    rw [hr, resultOps, runOps_singleton] at h
    exact push_of_run h

end

/-- The branch that `if` pushed is still there to be patched by `else`. -/
def BodyState.Patchable (s : BodyState W) : Prop :=
  ∀ pc ∈ s.pcStack, pc.isIf = true → ∃ branch pending,
    pc.relocations = .branches (branch :: pending)

/-- Ready for code of `n` bytes. -/
structure Ready (Room : Nat → W.State → Prop) (n : Nat) (s : BodyState W) : Prop where
  room : Room n s.writer
  patchable : s.Patchable

section

variable {Room : Nat → W.State → Prop} {Table : W.State → Prop} {env : BodyEnv} {n : Nat}
  {s : BodyState W}

theorem emit_ok (hw : W.Serves Room Table) (h : Ready Room (n + 1) s) (tr : Tracker)
    (op : EmitOp) :
    ∃ s', BodyState.emit { s with opStack := tr } op = .ok s' ∧ Ready Room n s' := by
  obtain ⟨w, hemit, hroom⟩ := hw.emit op h.room
  refine ⟨{ s with opStack := tr, writer := w }, ?_, hroom, h.patchable⟩
  simp only [BodyState.emit, hemit, ok_bind]
  rfl

/-- The writer first, then the tracker. -/
theorem emit_first_ok (hw : W.Serves Room Table) (h : Ready Room (n + 1) s) (op : EmitOp) :
    ∃ w, s.emit op = .ok { s with writer := w } ∧
      ∀ tr, Ready Room n { s with writer := w, opStack := tr } := by
  obtain ⟨w, hemit, hroom⟩ := hw.emit op h.room
  refine ⟨w, ?_, fun tr => ⟨hroom, h.patchable⟩⟩
  simp only [BodyState.emit, hemit, ok_bind]
  rfl

/-- A constant. -/
theorem emit_push_ok (hw : W.Serves Room Table) (h : Ready Room (n + 1) s) (op : EmitOp)
    {type : OperandType} {tr : Tracker}
    (hrun : runOps env.options W.getDepthForType [.push type] s.opStack = .ok tr) :
    ∃ s', (s.emit op >>= fun s => s.push env type) = .ok s' ∧ Ready Room n s' := by
  rw [runOps_singleton] at hrun
  obtain ⟨w, hemit, hready⟩ := emit_first_ok hw h op
  refine ⟨{ s with writer := w, opStack := tr }, ?_, hready tr⟩
  rw [hemit, ok_bind]
  exact push_of_run (s := { s with writer := w }) hrun

theorem BodyState.Patchable.set {label : Nat} {target : PcElement W} {pending : List W.Branch}
    (h : s.Patchable) (htarget : s.pcStack[label]? = some target)
    (hrel : target.relocations = .branches pending) (address : W.Branch) :
    BodyState.Patchable { s with
      pcStack := s.pcStack.set label
        { target with relocations := .branches (pending ++ [address]) } } := by
  intro pc hm hif
  rcases List.mem_or_eq_of_mem_set hm with hold | rfl
  · exact h pc hold hif
  · obtain ⟨branch, later, heq⟩ := h target (List.mem_of_getElem? htarget) hif
    rw [hrel] at heq
    obtain rfl := Relocations.branches.inj heq
    exact ⟨branch, later ++ [address], rfl⟩

theorem handleBranchTarget_ok (hw : W.Serves Room Table) {label : Nat} {target : PcElement W}
    (h : Ready Room n s) (htarget : s.pcStack[label]? = some target) (address : W.Branch) :
    ∃ s', s.handleBranchTarget label address = .ok s' ∧ Ready Room n s' ∧
      (Table s.writer → Table s'.writer) := by
  unfold BodyState.handleBranchTarget
  rw [htarget]
  cases hrel : target.relocations with
  | label l =>
    obtain ⟨w, hfix, hroom, htable⟩ := hw.fixBranch address l h.room
    refine ⟨{ s with writer := w }, ?_, ⟨hroom, h.patchable⟩, htable⟩
    simp only [hrel, hfix, ok_bind]
    rfl
  | branches pending =>
    have hset := BodyState.Patchable.set h.patchable htarget hrel address
    refine ⟨{ s with pcStack := s.pcStack.set label _ }, ?_, ⟨h.room, hset⟩, id⟩
    simp only [hrel]
    rfl

theorem computeDepthChange_ok {label : Nat} {k : Ctrl} {tr : Tracker}
    (hlabel : s.ctrl[label]? = some k)
    (h : runOps env.options W.getDepthForType (labelOps s.ctrl label) s.opStack = .ok tr) :
    s.computeDepthChange env label =
      .ok (sub32 s.opStack.operandDepth k.operandDepth, k.labelResult,
        { s with opStack := tr }) := by
  rw [BodyState.ctrl_getElem?] at hlabel
  obtain ⟨target, htarget, rfl⟩ := Option.map_eq_some_iff.mp hlabel
  unfold BodyState.computeDepthChange
  unfold labelOps at h
  rw [BodyState.ctrl_getElem?, htarget] at h
  rw [htarget]
  simp only [Option.map_some, PcElement.ctrl] at h ⊢
  cases hr : target.labelResult with
  | none =>
    simp only [hr] at h
    rw [← pure_eq_ok.mp h]
    rfl
  | some type =>
    simp only [hr] at h
    rw [runOps_singleton] at h
    simp only [top_of_run h, ok_bind]
    rfl

/-- Every depth change that the calls can come to is one that the writer accepts. -/
def Encodable (env : BodyEnv) (s : BodyState W) (ops : List TrackerOp) : Prop :=
  ∀ before after mid, ops = before ++ after → (∀ op ∈ before, op.Peeks) →
    runOps env.options W.getDepthForType before s.opStack = .ok mid →
    ∀ k ∈ s.ctrl, sub32 mid.operandDepth k.operandDepth < depthLimit

theorem Encodable.now {ops : List TrackerOp} (h : Encodable env s ops) {k : Ctrl}
    (hk : k ∈ s.ctrl) : sub32 s.opStack.operandDepth k.operandDepth < depthLimit :=
  h [] ops s.opStack rfl (by simp) rfl k hk

theorem Encodable.later {ops ops' : List TrackerOp} {s' : BodyState W}
    (h : Encodable env s (ops ++ ops')) (hpeeks : ∀ op ∈ ops, op.Peeks)
    (hrun : runOps env.options W.getDepthForType ops s.opStack = .ok s'.opStack)
    (hctrl : s'.ctrl = s.ctrl) : Encodable env s' ops' := by
  intro before after mid heq hbefore hmid k hk
  rw [hctrl] at hk
  refine h (ops ++ before) after mid (by rw [heq, List.append_assoc]) ?_ ?_ k hk
  · intro op hm
    rcases List.mem_append.mp hm with hm | hm
    · exact hpeeks op hm
    · exact hbefore op hm
  · exact runOps_append.mpr ⟨s'.opStack, hrun, hmid⟩

theorem labelOps_peeks {ctrl : List Ctrl} {label : Nat} :
    ∀ op ∈ labelOps ctrl label, op.Peeks := by
  intro op hm
  obtain ⟨type, rfl⟩ := labelOps_top ctrl label op hm
  trivial

theorem target_of_ctrl {label : Nat} {k : Ctrl} (h : s.ctrl[label]? = some k) :
    ∃ target, s.pcStack[label]? = some target := by
  rw [BodyState.ctrl_getElem?] at h
  obtain ⟨target, htarget, -⟩ := Option.map_eq_some_iff.mp h
  exact ⟨target, htarget⟩

theorem branchTo_ok (hw : W.Serves Room Table) {label : Nat} {k : Ctrl} {tr : Tracker}
    {emitBranch : Nat → Option ValType → W.State → Except VmError (W.Branch × W.State)}
    (hbranch : ∀ rt {change w}, Room (n + 1) w → change < depthLimit →
      ∃ branch w', emitBranch change rt w = .ok (branch, w') ∧ Room n w')
    (hlabel : s.ctrl[label]? = some k)
    (hrun : runOps env.options W.getDepthForType (labelOps s.ctrl label) s.opStack = .ok tr)
    (hlimit : sub32 s.opStack.operandDepth k.operandDepth < depthLimit)
    (h : Ready Room (n + 1) s) :
    ∃ s', s.branchTo env emitBranch label = .ok s' ∧ Ready Room n s' := by
  obtain ⟨branch, w, hemit, hroom⟩ := hbranch k.labelResult h.room hlimit
  obtain ⟨target, htarget⟩ := target_of_ctrl hlabel
  have hready : Ready Room n { s with opStack := tr, writer := w } := ⟨hroom, h.patchable⟩
  obtain ⟨s', hs', hr, -⟩ := handleBranchTarget_ok hw hready htarget branch
  refine ⟨s', ?_, hr⟩
  simp only [BodyState.branchTo, computeDepthChange_ok hlabel hrun, ok_bind, hemit]
  exact hs'

/-- The labels of a `br_table`, which all have the result `rt`. -/
theorem emitCases_ok (hw : W.Serves Room Table) {labels : List Nat} {rt : Option ValType}
    {tr : Tracker} (hlabels : ∀ label ∈ labels, s.ctrl[label]?.map Ctrl.labelResult = some rt)
    (hrun : runOps env.options W.getDepthForType (labels.flatMap (labelOps s.ctrl)) s.opStack =
      .ok tr) (hlimit : Encodable env s (labels.flatMap (labelOps s.ctrl)))
    (h : Ready Room n s) (ht : Table s.writer) (handler : W.Handler)
    {result : Option (Option ValType)} (hresult : result = none ∨ result = some rt) :
    ∃ handler' result' s', BodyState.emitCases env labels handler result s =
        .ok (handler', result', s') ∧ Ready Room n s' ∧ Table s'.writer ∧
      (result' = none ∨ result' = some rt) := by
  induction labels generalizing s handler result with
  | nil => exact ⟨handler, result, s, rfl, h, ht, hresult⟩
  | cons label labels ih =>
    obtain ⟨hfirst, hothers⟩ := List.forall_mem_cons.mp hlabels
    obtain ⟨k, hk, rfl⟩ := Option.map_eq_some_iff.mp hfirst
    rw [List.flatMap_cons] at hrun hlimit
    obtain ⟨mid, hmid, hrest⟩ := runOps_append.mp hrun
    obtain ⟨branch, handler', w, hcase, hroom, htable⟩ :=
      hw.emitCase handler k.labelResult h.room ht (hlimit.now (List.mem_of_getElem? hk))
    obtain ⟨target, htarget⟩ := target_of_ctrl hk
    have hready : Ready Room n { s with opStack := mid, writer := w } := ⟨hroom, h.patchable⟩
    obtain ⟨s₁, hs₁, hr₁, ht₁⟩ := handleBranchTarget_ok hw hready htarget branch
    have heffect : Effect env [] { s with opStack := mid, writer := w } s₁ :=
      Effect.handleBranchTarget hs₁
    have htr : s₁.opStack = mid := (pure_eq_ok.mp heffect.ops).symm
    have hctrl : s₁.ctrl = s.ctrl := heffect.ctrl
    have hlater : Encodable env s₁ (labels.flatMap (labelOps s.ctrl)) :=
      hlimit.later labelOps_peeks (by rw [htr]; exact hmid) hctrl
    rw [← hctrl] at hothers hrest hlater
    obtain ⟨last, result', s', hs', hr', ht', hres'⟩ :=
      ih hothers (by rw [htr]; exact hrest) hlater hr₁ (ht₁ htable) handler' (Or.inr rfl)
    refine ⟨last, result', s', ?_, hr', ht', hres'⟩
    have hassert : (result == none || result == some k.labelResult) = true := by
      rcases hresult with rfl | rfl <;> simp
    simp only [BodyState.emitCases, computeDepthChange_ok hk hmid, ok_bind, hcase, hs₁, hassert]
    exact hs'

theorem brTable_ok (hw : W.Serves Room Table) {labels : List Nat} {default : Nat} {tr : Tracker}
    {rt : Option ValType} (hsize : labels.length ≤ env.options.maxBrTableElements)
    (hlabels : ∀ label ∈ labels, s.ctrl[label]?.map Ctrl.labelResult = some rt)
    (hdefault : s.ctrl[default]?.map Ctrl.labelResult = some rt)
    (hrun : runOps env.options W.getDepthForType
      (instrOps env s.ctrl s.opStack.state (.brTable labels default)) s.opStack = .ok tr)
    (hlimit : Encodable env s (instrOps env s.ctrl s.opStack.state (.brTable labels default)))
    (h : Ready Room (n + 1 + (labels.length + 3)) s) :
    ∃ s', s.brTable env labels default = .ok s' ∧ Ready Room (n + 1) s' := by
  have hops : instrOps env s.ctrl s.opStack.state (.brTable labels default) =
      [.pop (some .i32)] ++ (labels.flatMap (labelOps s.ctrl) ++
        (labelOps s.ctrl default ++ [.startUnreachable])) := by
    simp [instrOps]
  rw [hops] at hrun hlimit
  obtain ⟨popped, hpop, hrun⟩ := runOps_append.mp hrun
  obtain ⟨tops, htops, hrun⟩ := runOps_append.mp hrun
  obtain ⟨top, htop, -⟩ := runOps_append.mp hrun
  have hpop' := hpop
  rw [runOps_singleton] at hpop'
  obtain ⟨handler, w, htable, hroom, hcanary⟩ := hw.emitBrTable h.room
  have hlater : Encodable env { s with opStack := popped, writer := w }
      (labels.flatMap (labelOps s.ctrl) ++ (labelOps s.ctrl default ++ [.startUnreachable])) :=
    hlimit.later (by simp [TrackerOp.Peeks]) hpop rfl
  have hcases : Encodable env { s with opStack := popped, writer := w }
      (labels.flatMap (labelOps s.ctrl)) := by
    intro before after mid heq
    exact hlater before (after ++ (labelOps s.ctrl default ++ [.startUnreachable])) mid
      (by rw [heq, List.append_assoc])
  have hready : Ready Room (n + 1) { s with opStack := popped, writer := w } :=
    ⟨hroom, h.patchable⟩
  obtain ⟨handler', result, s₁, hs₁, hr₁, ht₁, hresult⟩ :=
    emitCases_ok (s := { s with opStack := popped, writer := w }) hw hlabels htops hcases hready
      hcanary handler (Or.inl rfl)
  have heffect := Effect.emitCases hs₁
  have htr : s₁.opStack = tops := Except.ok.inj (heffect.ops.symm.trans htops)
  have hctrl : s₁.ctrl = s.ctrl := heffect.ctrl
  have hflat : ∀ op ∈ labels.flatMap (labelOps s.ctrl), op.Peeks := by
    intro op hm
    obtain ⟨label, -, hm⟩ := List.mem_flatMap.mp hm
    exact labelOps_peeks op hm
  have hlast : Encodable env s₁ (labelOps s.ctrl default ++ [.startUnreachable]) :=
    hlater.later hflat (by rw [htr]; exact htops) hctrl
  obtain ⟨k, hk, hrt⟩ := Option.map_eq_some_iff.mp hdefault
  rw [← hctrl] at hk htop
  rw [← htr] at htop
  obtain ⟨branch, w', hemit, hroom'⟩ :=
    hw.emitDefault handler' k.labelResult hr₁.room ht₁ (hlast.now (List.mem_of_getElem? hk))
  obtain ⟨target, htarget⟩ := target_of_ctrl hk
  have hready' : Ready Room (n + 1) { s₁ with opStack := top, writer := w' } :=
    ⟨hroom', hr₁.patchable⟩
  obtain ⟨s₂, hs₂, hr₂, -⟩ := handleBranchTarget_ok hw hready' htarget branch
  refine ⟨s₂.startUnreachable, ?_, hr₂.room, hr₂.patchable⟩
  have hassert : (result == none || result == some k.labelResult) = true := by
    rw [hrt]
    rcases hresult with rfl | rfl <;> simp
  simp only [BodyState.brTable, hsize, decide_true, pop_of_run hpop', htable, hs₁,
    computeDepthChange_ok hk htop, hemit, hs₂, hassert, ok_bind, vmAssert, if_true]
  rfl

theorem checkInBounds_ok (hopt : env.options = {}) (s : BodyState W) :
    s.checkInBounds env = .ok () := by
  simp [BodyState.checkInBounds, hopt, vmAssert]

theorem requireMemory_ok (h : env.mod.memories ≠ []) (msg : String) :
    BodyState.requireMemory env msg = .ok () := by
  simp [BodyState.requireMemory, h]

theorem checkMemarg_ok (hopt : env.options = {}) {what : String} {maxAlign alignment offset : Nat}
    (halign : alignment ≤ maxAlign) (hoffset : offset < 2 ^ 32) :
    BodyState.checkMemarg env what maxAlign alignment offset = .ok () := by
  rw [checkMemarg_eq_ok, hopt]
  exact ⟨halign, Nat.le_of_lt_succ hoffset⟩

theorem returnCount_ok (henv : env.Valid) {ft : FuncType} (hft : ft ∈ env.mod.types) (e : VmError) :
    vmAssert (ft.returnCount ≤ 1) e = .ok () :=
  vmAssert_eq_ok.mpr (decide_eq_true (henv.types ft hft))

/-- The calls succeed on the tracker and the writer has room, so the instruction is accepted. -/
theorem processInstr_ok (hw : W.Serves Room Table) (henv : env.Valid) (hopt : env.options = {})
    (atEnd : Bool) {instr : Instr} {tr : Tracker} (hguard : Guard env s.ctrl instr)
    (hret : ReturnsResult env s.ctrl) (hfits : instr.OffsetFits)
    (hroom : instr.codeRoom ≤ 0xFFFFFFFF)
    (hselect : instr = .select → SelectAgrees s.opStack.state)
    (hrun : runOps env.options W.getDepthForType (instrOps env s.ctrl s.opStack.state instr)
      s.opStack = .ok tr)
    (hlimit : Encodable env s (instrOps env s.ctrl s.opStack.state instr))
    (h : Ready Room (n + 1 + instr.codeRoom) s) :
    ∃ s', processInstr env atEnd instr s = .ok s' ∧ Ready Room (n + 1) s' := by
  have hbounds := checkInBounds_ok hopt s
  cases instr with
  | unreachable =>
    obtain ⟨s', hs', hr'⟩ := emit_ok hw h s.opStack (.plain .unreachable)
    refine ⟨s'.startUnreachable, ?_, hr'.room, hr'.patchable⟩
    simp only [processInstr, hbounds, ok_bind, hs']
    rfl
  | nop => exact emit_ok hw h s.opStack (.plain .nop)
  | return_ =>
    obtain ⟨k, hk, -⟩ := Option.map_eq_some_iff.mp hret
    rw [List.getLast?_eq_getElem?] at hk
    obtain ⟨mid, hmid, -⟩ := runOps_append.mp hrun
    obtain ⟨s', hs', hr'⟩ := branchTo_ok hw (fun rt => hw.emitReturn rt) hk hmid
      (hlimit.now (List.mem_of_getElem? hk)) h
    refine ⟨s'.startUnreachable, ?_, hr'.room, hr'.patchable⟩
    rw [BodyState.ctrl_length] at hs'
    simp only [processInstr, hbounds, ok_bind, hs']
    rfl
  | br label =>
    obtain ⟨k, hk⟩ := hguard
    obtain ⟨mid, hmid, -⟩ := runOps_append.mp hrun
    obtain ⟨s', hs', hr'⟩ := branchTo_ok hw (fun rt => hw.emitBr rt) hk hmid
      (hlimit.now (List.mem_of_getElem? hk)) h
    refine ⟨s'.startUnreachable, ?_, hr'.room, hr'.patchable⟩
    simp only [processInstr, hbounds, ok_bind, hs']
    rfl
  | brIf label =>
    obtain ⟨k, hk⟩ := hguard
    obtain ⟨popped, hpop, hmid⟩ := bind_eq_ok.mp hrun
    have hlimit' : Encodable env s ([.pop (some .i32)] ++ labelOps s.ctrl label) := hlimit
    have hlater : Encodable env { s with opStack := popped } (labelOps s.ctrl label) :=
      hlimit'.later (by simp [TrackerOp.Peeks]) (by rw [runOps_singleton]; exact hpop) rfl
    have hready : Ready Room (n + 1 + 1) { s with opStack := popped } := ⟨h.room, h.patchable⟩
    obtain ⟨s', hs', hr'⟩ := branchTo_ok (s := { s with opStack := popped }) hw
      (fun rt => hw.emitBrIf rt) hk hmid (hlater.now (List.mem_of_getElem? hk)) hready
    refine ⟨s', ?_, hr'⟩
    simp only [processInstr, hbounds, ok_bind, pop_of_run hpop]
    exact hs'
  | brTable labels default =>
    obtain ⟨rt, hlabels, hdefault⟩ := hguard
    have hsize : labels.length ≤ env.options.maxBrTableElements := by
      rw [hopt]
      simp only [Instr.codeRoom] at hroom
      change labels.length ≤ 0xFFFFFFFF
      omega
    obtain ⟨s', hs', hr'⟩ := brTable_ok hw hsize hlabels hdefault hrun hlimit h
    refine ⟨s', ?_, hr'⟩
    simp only [processInstr, hbounds, ok_bind]
    exact hs'
  | call funcnum =>
    obtain ⟨ft, hft⟩ := hguard
    simp only [instrOps, hft, callOps] at hrun
    obtain ⟨popped, hpops, hpush⟩ := runOps_append.mp hrun
    obtain ⟨s', hs', hr'⟩ := emit_ok hw h tr (.call ft funcnum)
    refine ⟨s', ?_, hr'⟩
    simp only [processInstr, hbounds, ok_bind, hft, popOperands_of_run hpops,
      returnCount_ok henv (getFunctionType_mem hft),
      pushResult_of_run (s := { s with opStack := popped }) hpush]
    exact hs'
  | callIndirect functypeidx =>
    obtain ⟨htables, ft, hft⟩ := hguard
    simp only [instrOps, hft, callOps] at hrun
    obtain ⟨first, hfirst, hrun⟩ := bind_eq_ok.mp hrun
    obtain ⟨popped, hpops, hpush⟩ := runOps_append.mp hrun
    have htable : BodyState.requireTable env "call_indirect requires a table" = .ok () := by
      simp [BodyState.requireTable, htables]
    obtain ⟨typeAlias, halias⟩ : ∃ typeAlias, env.typeAliases[functypeidx]? = some typeAlias := by
      obtain ⟨hlt, -⟩ := List.getElem?_eq_some_iff.mp hft
      exact ⟨_, List.getElem?_eq_getElem (by rw [henv.aliases]; exact hlt)⟩
    obtain ⟨s', hs', hr'⟩ := emit_ok hw h tr (.callIndirect ft typeAlias)
    refine ⟨s', ?_, hr'⟩
    simp only [processInstr, hbounds, ok_bind, vectorAt_eq_ok.mpr hft, htable, pop_of_run hfirst,
      popOperands_of_run (s := { s with opStack := first }) hpops,
      returnCount_ok henv (List.mem_of_getElem? hft),
      pushResult_of_run (s := { s with opStack := popped }) hpush, vectorAt_eq_ok.mpr halias]
    exact hs'
  | drop =>
    simp only [instrOps] at hrun
    rw [runOps_singleton] at hrun
    obtain ⟨s', hs', hr'⟩ := emit_ok hw h tr (.drop (topType s.opStack.state))
    refine ⟨s', ?_, hr'⟩
    simp only [processInstr, hbounds, ok_bind, popAny_of_run hrun]
    exact hs'
  | select =>
    obtain ⟨s₁, h₁, hrun⟩ := bind_eq_ok.mp hrun
    obtain ⟨s₂, h₂, hrun⟩ := bind_eq_ok.mp hrun
    obtain ⟨s₃, h₃, hpush⟩ := bind_eq_ok.mp hrun
    rw [runOps_singleton] at hpush
    obtain ⟨s', hs', hr'⟩ := emit_ok hw h tr (.select (selectTypes s.opStack.state).1)
    refine ⟨s', ?_, hr'⟩
    have hfirst : topType s₁.state = (selectTypes s.opStack.state).1 := by
      rw [Tracker.pop_popState h₁]
      rfl
    have hsecond : topType s₂.state = (selectTypes s.opStack.state).2 := by
      rw [TrackerOp.popAny_popState h₂, Tracker.pop_popState h₁]
      rfl
    have hassert : ((selectTypes s.opStack.state).1 == (selectTypes s.opStack.state).2 ||
        (selectTypes s.opStack.state).1 == .any || (selectTypes s.opStack.state).2 == .any) =
        true := by
      rcases hselect rfl with heq | hany | hany <;> simp [*]
    have hpush' := push_of_run (s := { s with opStack := s₃ }) hpush
    simp only [processInstr, hbounds, ok_bind, pop_of_run h₁,
      popAny_of_run (s := { s with opStack := s₁ }) h₂, hfirst,
      popAny_of_run (s := { s with opStack := s₂ }) h₃, hsecond, hassert]
    refine bind_eq_ok.mpr ⟨(), rfl, bind_eq_ok.mpr ⟨_, hpush', hs'⟩⟩
  | getLocal localIdx =>
    obtain ⟨t, ht⟩ := hguard
    simp only [instrOps, ht] at hrun
    rw [runOps_singleton] at hrun
    obtain ⟨s', hs', hr'⟩ := emit_ok hw h tr (.getLocal localIdx t)
    refine ⟨s', ?_, hr'⟩
    simp only [processInstr, ht, ok_bind, push_of_run hrun]
    exact hs'
  | setLocal localIdx =>
    obtain ⟨t, ht⟩ := hguard
    simp only [instrOps, ht] at hrun
    rw [runOps_singleton] at hrun
    obtain ⟨s', hs', hr'⟩ := emit_ok hw h tr (.setLocal localIdx t)
    refine ⟨s', ?_, hr'⟩
    simp only [processInstr, hbounds, ht, ok_bind, pop_of_run hrun]
    exact hs'
  | teeLocal localIdx =>
    obtain ⟨t, ht⟩ := hguard
    simp only [instrOps, ht] at hrun
    rw [runOps_singleton] at hrun
    obtain ⟨s', hs', hr'⟩ := emit_ok hw h tr (.teeLocal localIdx t)
    refine ⟨s', ?_, hr'⟩
    simp only [processInstr, hbounds, ht, ok_bind, top_of_run hrun]
    exact hs'
  | getGlobal globalIdx =>
    obtain ⟨gl, hgl⟩ := hguard
    simp only [instrOps, hgl] at hrun
    rw [runOps_singleton] at hrun
    obtain ⟨s', hs', hr'⟩ := emit_ok hw h tr (.plain (.getGlobal globalIdx))
    refine ⟨s', ?_, hr'⟩
    simp only [processInstr, vectorAt_eq_ok.mpr hgl, ok_bind, push_of_run hrun]
    exact hs'
  | setGlobal globalIdx =>
    obtain ⟨gl, hgl, hmut⟩ := hguard
    simp only [instrOps, hgl] at hrun
    rw [runOps_singleton] at hrun
    obtain ⟨s', hs', hr'⟩ := emit_ok hw h tr (.plain (.setGlobal globalIdx))
    refine ⟨s', ?_, hr'⟩
    simp only [processInstr, hbounds, vectorAt_eq_ok.mpr hgl, hmut, vmAssert, if_true, ok_bind,
      pop_of_run hrun]
    exact hs'
  | load op alignment offset =>
    obtain ⟨hmem, -, halign⟩ := hguard
    obtain ⟨popped, hpop, hpush⟩ := bind_eq_ok.mp hrun
    rw [runOps_singleton] at hpush
    obtain ⟨s', hs', hr'⟩ := emit_ok hw h tr (.plain (.load op alignment offset))
    refine ⟨s', ?_, hr'⟩
    simp only [processInstr, hbounds, requireMemory_ok hmem, checkMemarg_ok hopt halign hfits,
      ok_bind, pop_of_run hpop, push_of_run (s := { s with opStack := popped }) hpush]
    exact hs'
  | store op alignment offset =>
    obtain ⟨hmem, -, halign⟩ := hguard
    obtain ⟨popped, hpop, hpop'⟩ := bind_eq_ok.mp hrun
    rw [runOps_singleton] at hpop'
    obtain ⟨s', hs', hr'⟩ := emit_ok hw h tr (.plain (.store op alignment offset))
    refine ⟨s', ?_, hr'⟩
    simp only [processInstr, hbounds, requireMemory_ok hmem, checkMemarg_ok hopt halign hfits,
      ok_bind, pop_of_run hpop, pop_of_run (s := { s with opStack := popped }) hpop']
    exact hs'
  | currentMemory =>
    simp only [instrOps] at hrun
    rw [runOps_singleton] at hrun
    obtain ⟨s', hs', hr'⟩ := emit_ok hw h tr (.plain .currentMemory)
    refine ⟨s', ?_, hr'⟩
    simp only [processInstr, requireMemory_ok hguard, ok_bind, push_of_run hrun]
    exact hs'
  | growMemory =>
    obtain ⟨popped, hpop, hpush⟩ := bind_eq_ok.mp hrun
    rw [runOps_singleton] at hpush
    obtain ⟨s', hs', hr'⟩ := emit_ok hw h tr (.plain .growMemory)
    refine ⟨s', ?_, hr'⟩
    simp only [processInstr, hbounds, requireMemory_ok hguard, ok_bind, pop_of_run hpop,
      push_of_run (s := { s with opStack := popped }) hpush]
    exact hs'
  | i32Const v | i64Const v | f32Const v | f64Const v => exact emit_push_ok hw h _ hrun
  | numeric op =>
    obtain ⟨popped, hpops, hpush⟩ := runOps_append.mp hrun
    rw [runOps_singleton] at hpush
    obtain ⟨w, hemit, hr'⟩ := emit_first_ok hw h (.plain (.numeric op))
    refine ⟨{ s with writer := w, opStack := tr }, ?_, hr' tr⟩
    have hpops' := popOperands_of_run (s := { s with writer := w }) hpops
    simp only [processInstr, hbounds, hopt, Bool.or_true, vmAssert, if_true, ok_bind, hemit]
    refine bind_eq_ok.mpr ⟨_, hpops', ?_⟩
    exact push_of_run (s := { s with writer := w, opStack := popped }) hpush
  | block | loop | if_ | else_ | end_ | loadLane | storeLane | v128Const | i8x16Shuffle
  | extractLane | replaceLane | vecNumeric | truncSat | memoryInit | dataDrop | memoryCopy
  | memoryFill | tableInit | elemDrop | tableCopy => exact hguard.elim

theorem onControl_ok (hopt : env.options = {}) (s : BodyState W) : s.onControl env = .ok s := by
  simp only [BodyState.onControl, hopt]
  rfl

theorem onEnd_eq (hopt : env.options = {}) (s : BodyState W) : s.onEnd env = s := by
  simp only [BodyState.onEnd, hopt]

/-- A new element that is not that of an `if`, or holds its branch. -/
theorem BodyState.Patchable.enter (h : s.Patchable) {expected label : Option ValType} {isIf : Bool}
    {relocations : Relocations W}
    (hnew : isIf = true → ∃ branch pending, relocations = .branches (branch :: pending)) :
    (s.enter expected label isIf relocations).Patchable := by
  intro pc hm hif
  rcases List.mem_cons.mp hm with rfl | hold
  · exact hnew hif
  · exact h pc hold hif

theorem block_ok (hw : W.Serves Room Table) (hopt : env.options = {}) (atEnd : Bool) {bt : UInt8}
    {result : Option ValType} (hresult : Spec.resultType bt = some result)
    (h : Ready Room (n + 1) s) :
    ∃ s', processInstr env atEnd (.block bt) s = .ok s' ∧ Ready Room n s' := by
  have hbt : blockType env.options bt "Invalid type code in block" = .ok result := by
    rw [hopt]
    exact blockType_iff.mpr hresult
  obtain ⟨w, hemit, hroom⟩ := hw.emit (.plain (.block bt)) h.room
  have hpatch : (s.enter result result false (.branches [])).Patchable :=
    h.patchable.enter (by simp)
  refine ⟨BodyState.pushScope { s.enter result result false (.branches []) with writer := w }, ?_,
    hroom, hpatch⟩
  simp only [processInstr, hbt, ok_bind, BodyState.emit]
  refine bind_eq_ok.mpr ⟨_, bind_eq_ok.mpr ⟨w, hemit, rfl⟩, onControl_ok hopt _⟩

theorem loop_ok (hw : W.Serves Room Table) (hopt : env.options = {}) (atEnd : Bool) {bt : UInt8}
    {result : Option ValType} (hresult : Spec.resultType bt = some result)
    (h : Ready Room (n + 1) s) :
    ∃ s', processInstr env atEnd (.loop bt) s = .ok s' ∧ Ready Room n s' := by
  have hbt : blockType env.options bt "Invalid type code in loop" = .ok result := by
    rw [hopt]
    exact blockType_iff.mpr hresult
  obtain ⟨pos, w, hemit, hroom⟩ := hw.emitLoop (hw.less h.room)
  refine ⟨BodyState.pushScope (BodyState.enter { s with writer := w } result none false
    (.label pos)), ?_, hroom, ?_⟩
  · simp only [processInstr, hbt, ok_bind, hemit]
    exact onControl_ok hopt _
  · exact BodyState.Patchable.enter (s := { s with writer := w }) h.patchable (by simp)

theorem if_ok (hw : W.Serves Room Table) (hopt : env.options = {}) (atEnd : Bool) {bt : UInt8}
    {result : Option ValType} {tr : Tracker} (hresult : Spec.resultType bt = some result)
    (hpop : TrackerOp.run env.options W.getDepthForType (.pop (some .i32)) s.opStack = .ok tr)
    (h : Ready Room (n + 1) s) :
    ∃ s', processInstr env atEnd (.if_ bt) s = .ok s' ∧ Ready Room n s' := by
  have hbt : blockType env.options bt "Invalid type code in if" = .ok result := by
    rw [hopt]
    exact blockType_iff.mpr hresult
  obtain ⟨branch, w, hemit, hroom⟩ := hw.emitIf h.room
  refine ⟨BodyState.pushScope (BodyState.enter { s with writer := w, opStack := tr } result result
    true (.branches [branch])), ?_, hroom, ?_⟩
  · simp only [processInstr, checkInBounds_ok hopt, hbt, ok_bind, hemit,
      pop_of_run (s := { s with writer := w }) hpop]
    exact onControl_ok hopt _
  · exact BodyState.Patchable.enter (s := { s with writer := w, opStack := tr }) h.patchable
      fun _ => ⟨branch, [], rfl⟩

theorem pcStack_of_ctrl {k : Ctrl} {ctrl : List Ctrl} (h : s.ctrl = k :: ctrl) :
    ∃ back rest, s.pcStack = back :: rest ∧ back.ctrl = k ∧ rest.map PcElement.ctrl = ctrl :=
  List.map_eq_cons_iff.mp h

theorem else_ok (hw : W.Serves Room Table) (hopt : env.options = {}) (atEnd : Bool) {k : Ctrl}
    {ctrl : List Ctrl} {popped closed : Tracker} (hctrl : s.ctrl = k :: ctrl)
    (hif : k.isIf = true)
    (hpop : TrackerOp.run env.options W.getDepthForType (.pop k.expectedResult) s.opStack =
      .ok popped)
    (hclose : TrackerOp.run env.options W.getDepthForType (.popScope none) popped = .ok closed)
    (h : Ready Room (n + 1) s) :
    ∃ s', processInstr env atEnd .else_ s = .ok s' ∧ Ready Room n s' := by
  obtain ⟨back, rest, hpc, rfl, -⟩ := pcStack_of_ctrl hctrl
  have hback : back ∈ s.pcStack := by
    rw [hpc]
    exact List.mem_cons_self ..
  have hback' : back.isIf = true := hif
  obtain ⟨ifBranch, pending, hrel⟩ := h.patchable back hback hif
  obtain ⟨branch, w, hemit, hroom⟩ := hw.emitElse ifBranch h.room
  refine ⟨{ s with
    opStack := closed.pushScope
    writer := w
    pcStack := { back with isIf := false, relocations := .branches (branch :: pending) } :: rest },
    ?_, hroom, ?_⟩
  · have hpop' : s.pop env back.expectedResult = .ok { s with opStack := popped } :=
      pop_of_run hpop
    have hclose' := popScope_of_run (s := { s with opStack := popped }) hclose
    simp only [processInstr, checkInBounds_ok hopt, ok_bind]
    refine bind_eq_ok.mpr ⟨_, ?_, onControl_ok hopt _⟩
    unfold BodyState.elseScope
    split
    next heq =>
      rw [hpc] at heq
      cases heq
    next back' rest' heq =>
      rw [hpc] at heq
      obtain ⟨rfl, rfl⟩ := List.cons.inj heq
      simp only [hback', vmAssert, if_true, ok_bind, hrel, hpop', hclose', BodyState.pushScope,
        hemit]
      rfl
  · intro pc hm hpcif
    rcases List.mem_cons.mp hm with rfl | hold
    · cases hpcif
    · refine h.patchable pc ?_ hpcif
      rw [hpc]
      exact List.mem_cons_of_mem _ hold

theorem fixRelocations_ok (hw : W.Serves Room Table) {w : W.State} (h : Room n w) (endPos : W.Label)
    (relocations : Relocations W) :
    ∃ w', BodyState.fixRelocations endPos relocations w = .ok w' ∧ Room n w' := by
  cases relocations with
  | label target => exact ⟨w, rfl, h⟩
  | branches pending =>
    change ∃ w', BodyState.fixBranches endPos pending w = .ok w' ∧ Room n w'
    induction pending generalizing w with
    | nil => exact ⟨w, rfl, h⟩
    | cons branch pending ih =>
      obtain ⟨mid, hfix, hroom, -⟩ := hw.fixBranch branch endPos h
      obtain ⟨w', hrest, hroom'⟩ := ih hroom
      exact ⟨w', bind_eq_ok.mpr ⟨mid, hfix, hrest⟩, hroom'⟩

theorem end_ok (hw : W.Serves Room Table) (hopt : env.options = {}) {atEnd : Bool} {k : Ctrl}
    {ctrl : List Ctrl} {closed : Tracker} (hctrl : s.ctrl = k :: ctrl)
    (hif : k.isIf = true → k.expectedResult = none)
    (hclose : TrackerOp.run env.options W.getDepthForType (.popScope k.expectedResult) s.opStack =
      .ok closed) (hlast : ctrl = [] → atEnd = true) (h : Ready Room (n + 1) s) :
    ∃ s', processInstr env atEnd .end_ s = .ok s' ∧ Ready Room n s' := by
  obtain ⟨back, rest, hpc, rfl, hrest⟩ := pcStack_of_ctrl hctrl
  obtain ⟨endPos, w, hemit, hroom⟩ := hw.emitEnd (hw.less h.room)
  obtain ⟨w', hfix, hroom'⟩ := fixRelocations_ok hw hroom endPos back.relocations
  have hassert : (!back.isIf || back.expectedResult == none) = true := by
    cases hb : back.isIf with
    | false => rfl
    | true =>
      have hnone : back.expectedResult = none := hif hb
      simp [hnone]
  have hatEnd : (env.options.allowCodeAfterFunctionEnd || !rest.isEmpty || atEnd) = true := by
    cases rest with
    | nil =>
      rw [hlast hrest.symm]
      simp
    | cons pc rest => simp
  refine ⟨{ s with writer := w', opStack := closed, pcStack := rest }, ?_, hroom', ?_⟩
  · have hscope : BodyState.popScope env { s with writer := w' } back.expectedResult =
        .ok { s with writer := w', opStack := closed } := popScope_of_run hclose
    have hexit : s.exitScope env =
        .ok { s with writer := w', opStack := closed, pcStack := rest } := by
      unfold BodyState.exitScope
      split
      next heq =>
        rw [hpc] at heq
        cases heq
      next back' rest' heq =>
        rw [hpc] at heq
        obtain ⟨rfl, rfl⟩ := List.cons.inj heq
        simp only [hassert, vmAssert, if_true, ok_bind, hemit, hfix, hscope]
        rfl
    simp only [processInstr, checkInBounds_ok hopt, ok_bind, hexit, hatEnd, vmAssert, if_true,
      onEnd_eq hopt]
    rfl
  · intro pc hm hpcif
    refine h.patchable pc ?_ hpcif
    rw [hpc]
    exact List.mem_cons_of_mem _ hm

end

/-- A body of the interpreter: fewer than `2 ^ 32` bytes, read from the start of the function. -/
structure BodyRun (env : BodyEnv) (start : BodyPoint bitcodeWriter) (bounds : Nat) : Prop where
  valid : env.Valid
  options : env.options = {}
  initial : start.Initial bounds
  bytes : bounds < 2 ^ 32
  room : codeRoom start.rest ≤ bounds
  outer : start.state.pcStack.length = 1

/-- A point that the run reaches, with room for the instructions still to come. -/
structure Live (env : BodyEnv) (start p : BodyPoint bitcodeWriter) : Prop where
  reach : BodyReaches env start p
  ready : Ready BitcodeState.Room (codeRoom p.rest) p.state
  fits : ∀ instr ∈ p.rest, instr.OffsetFits

theorem narrow_bitcode : Narrow bitcodeDepthForType := by
  intro op tr hwidens
  unfold TrackerOp.WidensAny at hwidens
  split at hwidens
  · exact hwidens.2 rfl
  · exact hwidens.2 rfl
  · exact hwidens.2 rfl
  · exact hwidens

section

variable {env : BodyEnv} {start : BodyPoint bitcodeWriter} {bounds : Nat} {instr : Instr}
  {rest : List Instr} {s s' : BodyState bitcodeWriter}

theorem BodyRun.neverWidens (_ : BodyRun env start bounds) :
    NeverWidens bitcodeWriter.getDepthForType env start := NeverWidens.bitcode

/-- The bytes after a point and the entries on the stack are within the body. -/
theorem BodyRun.potential_le (hb : BodyRun env start bounds) {p : BodyPoint bitcodeWriter}
    (hp : BodyReaches env start p) :
    potential bitcodeDepthForType p.state.opStack.state + codeBytes p.rest ≤ bounds :=
  hb.neverWidens.room SlotSizes.bitcode hb.initial.state hb.initial.bytes hp

theorem codeBytes_cons (instr : Instr) (rest : List Instr) :
    codeBytes (instr :: rest) = 1 + instr.immediateBytes + codeBytes rest := by
  simp [codeBytes]

theorem one_le_codeBytes (h : rest ≠ []) : 1 ≤ codeBytes rest := by
  obtain ⟨first, more, rfl⟩ := List.exists_cons_of_ne_nil h
  rw [codeBytes_cons]
  omega

theorem BodyRun.inside (hb : BodyRun env start bounds) {p : BodyPoint bitcodeWriter}
    (hp : BodyReaches env start p) (hctrl : p.state.ctrl ≠ []) :
    p.state.opStack.Inside bitcodeDepthForType where
  shaped := by
    have hstart : Shaped start.state.opStack.state := by
      rw [hb.initial.state]
      trivial
    have hkeeps : ∀ op (tr tr' : Tracker), True → Shaped tr.state →
        TrackerOp.run env.options bitcodeWriter.getDepthForType op tr = .ok tr' →
        Shaped tr'.state := fun _ _ _ _ h hrun => h.run hrun
    exact (tracker_invariant (C := fun _ _ => True) hstart (fun _ _ _ => trivial) hkeeps).1 p hp
  scope := by
    have haligned := hb.neverWidens.aligned SlotSizes.bitcode hb.initial hb.bytes hp
    rw [scopeTag_mem_iff (d := bitcodeDepthForType)]
    intro hnil
    have hmap : p.state.ctrl.map Ctrl.operandDepth = [] := haligned.trans hnil
    exact hctrl (List.map_eq_nil_iff.mp hmap)
  counts := (hb.neverWidens.countsSlots SlotSizes.bitcode hb.initial).1 p hp

/-- The calls of an instruction that is not the last one leave room for a push. -/
theorem BodyRun.fits (hb : BodyRun env start bounds) (hp : BodyReaches env start ⟨instr :: rest, s⟩)
    (hrest : rest ≠ []) {before after : List TrackerOp} {mid : Tracker}
    (hops : instrOps env s.ctrl s.opStack.state instr = before ++ after)
    (hrun : runOps env.options bitcodeDepthForType before s.opStack = .ok mid) :
    slots bitcodeDepthForType mid.state < uint32Max := by
  have hle := hb.potential_le hp
  have hone := one_le_codeBytes hrest
  have hn : NarrowRun env.options bitcodeDepthForType bitcodeDepthForType
      (instrOps env s.ctrl s.opStack.state instr) s.opStack :=
    fun _ op _ tr _ _ => narrow_bitcode op tr
  have hfits := (instrOps_fits SlotSizes.bitcode hn (le_refl _)) before after mid hops hrun
  have hbytes := hb.bytes
  simp only [codeBytes_cons] at hle
  change slots bitcodeDepthForType mid.state < 0xFFFFFFFF
  omega

theorem BodyRun.slots_lt (hb : BodyRun env start bounds)
    (hp : BodyReaches env start ⟨instr :: rest, s⟩) :
    slots bitcodeDepthForType s.opStack.state < uint32Max := by
  have hle := hb.potential_le hp
  have hslots := slots_le_potential (d := bitcodeDepthForType) s.opStack.state
  have hbytes := hb.bytes
  simp only [codeBytes_cons] at hle
  change slots bitcodeDepthForType s.opStack.state < 0xFFFFFFFF
  omega

/-- Every depth change of a branch can be encoded. -/
theorem BodyRun.encodable (hb : BodyRun env start bounds)
    (hp : BodyReaches env start ⟨instr :: rest, s⟩) (hrest : rest ≠ []) :
    Encodable env s (instrOps env s.ctrl s.opStack.state instr) := by
  intro before after mid hops hpeeks hrun k hk
  have hlevel : ∀ op ∈ before, op.Level := by
    intro op hm
    have hpeek := hpeeks op hm
    cases op <;> trivial
  have hweight := hp.weight hb.initial.state hb.initial.bytes
  have hslots := slots_le_weight s.opStack.state
  have hmid := runOps_peeks hpeeks hrun
  have hone := one_le_codeBytes hrest
  have hbytes := hb.bytes
  simp only [codeBytes_cons] at hweight
  have hlt : slots bitcodeDepthForType mid.state < 2 ^ 31 := by omega
  have hstart := (hb.neverWidens.countsSlots SlotSizes.bitcode hb.initial).1 _ hp
  have hdepth : mid.operandDepth = slots bitcodeDepthForType mid.state := by
    have hcounts := hstart.runOps SlotSizes.bitcode narrow_bitcode hrun
    rw [hcounts]
    exact Nat.mod_eq_of_lt (by omega)
  -- the depth of the target is that of a scope tag on the stack
  have haligned := hb.neverWidens.aligned SlotSizes.bitcode hb.initial hb.bytes hp
  obtain ⟨label, hlabel⟩ := List.getElem?_of_mem hk
  have hfloor : (scopeFloors bitcodeDepthForType mid.state)[label]? = some k.operandDepth := by
    have hfloors : scopeFloors bitcodeDepthForType mid.state = s.ctrl.map Ctrl.operandDepth :=
      (runOps_floors hlevel hrun).trans haligned.symm
    rw [hfloors, List.getElem?_map, hlabel]
    rfl
  have habove := slots_eq_above_floor hfloor
  rw [hdepth, sub32_of_le (by omega) (by omega)]
  change _ < 0x80000000
  omega

/-- The blocks that are open fit in the counter of nested structures. -/
theorem BodyRun.nested (hb : BodyRun env start bounds)
    (hp : BodyReaches env start ⟨instr :: rest, s⟩) :
    s.pcStack.length ≤ env.options.maxNestedStructures := by
  obtain ⟨instrs, s₀⟩ := start
  obtain ⟨pre, hpre, hlen⟩ := hp.nesting hb.outer
  have hnesting : ∀ (pre : List Instr) (n : Nat), pre.foldl nestingStep n ≤ n + pre.length := by
    intro pre
    induction pre with
    | nil => exact fun n => le_refl n
    | cons first pre ih =>
      intro n
      have hstep : nestingStep n first ≤ n + 1 := nestingStep_le n first
      have hrest := ih (nestingStep n first)
      simp only [List.foldl_cons, List.length_cons]
      omega
  have hle := hnesting pre 1
  have hroom := length_le_codeRoom instrs
  have hbound := hb.room
  have hbytes := hb.bytes
  have htotal := congrArg List.length hpre
  simp only [List.length_append, List.length_cons] at htotal
  rw [hlen, hb.options]
  change nesting pre ≤ 0xFFFFFFFF
  simp only [nesting] at hle ⊢
  simp only at hbound
  omega

/-- The next point. -/
theorem Live.step (hb : BodyRun env start bounds) (h : Live env start ⟨instr :: rest, s⟩)
    (hproc : processInstr env rest.isEmpty instr s = .ok s')
    (hready : Ready BitcodeState.Room (codeRoom rest) s') : Live env start ⟨rest, s'⟩ where
  reach := h.reach.tail ⟨instr, rfl, hb.nested h.reach, hproc⟩
  ready := hready
  fits := fun i hm => h.fits i (List.mem_cons_of_mem _ hm)

theorem Live.room (h : Live env start ⟨instr :: rest, s⟩) :
    Ready BitcodeState.Room (codeRoom rest + instr.codeRoom) s := by
  have hready := h.ready
  simp only [codeRoom_cons] at hready
  rwa [Nat.add_comm]

theorem Live.codeRoom_le (hb : BodyRun env start bounds)
    (h : Live env start ⟨instr :: rest, s⟩) : instr.codeRoom ≤ 0xFFFFFFFF := by
  obtain ⟨instrs, s₀⟩ := start
  obtain ⟨pre, hpre, -⟩ := h.reach.nesting hb.outer
  have hroom := hb.room
  have hbytes := hb.bytes
  simp only [hpre, codeRoom, List.map_append, List.map_cons, List.sum_append,
    List.sum_cons] at hroom
  omega

/-- An instruction with a typing rule is accepted, and the stack stands for the types after it. -/
theorem Live.plain (hb : BodyRun env start bounds) (h : Live env start ⟨instr :: rest, s⟩)
    (hrest : rest ≠ []) (hret : ReturnsResult env s.ctrl) {c c' : List ValType}
    (htyped : InstrTyped env s.ctrl instr c c') (hc : Covers s.opStack.state c) :
    ∃ s', Live env start ⟨rest, s'⟩ ∧ s'.ctrl = s.ctrl ∧
      scopeBelow s'.opStack.state = scopeBelow s.opStack.state ∧ Covers s'.opStack.state c' := by
  have hnone : env.options.maxFuncLocalBytes = none := by
    rw [hb.options]
  have hctrl : s.ctrl ≠ [] := by
    intro hnil
    rw [ReturnsResult, hnil] at hret
    cases hret
  have hin := hb.inside h.reach hctrl
  have hfit : ∀ before after mid, instrOps env s.ctrl s.opStack.state instr = before ++ after →
      runOps env.options bitcodeDepthForType before s.opStack = .ok mid →
      slots bitcodeDepthForType mid.state < uint32Max := fun _ _ _ => hb.fits h.reach hrest
  -- the calls on the tracker
  have hrun : Guard env s.ctrl instr ∧ (instr = .select → SelectAgrees s.opStack.state) ∧
      ∃ tr, runOps env.options bitcodeDepthForType
        (instrOps env s.ctrl s.opStack.state instr) s.opStack = .ok tr ∧ Covers tr.state c' := by
    by_cases hsel : instr = .select
    · subst hsel
      obtain ⟨before, after, frame, rfl, rfl, hstep⟩ := htyped
      cases hstep with
      | select t =>
        obtain ⟨hagrees, tr, hops, hcovers⟩ := runOps_select_ok SlotSizes.bitcode narrow_bitcode
          hnone hin (hb.slots_lt h.reach) hc
        exact ⟨trivial, fun _ => hagrees, tr, hops, hcovers⟩
    · obtain ⟨hguard, hsteps⟩ : Guard env s.ctrl instr ∧
          StackSteps (instrOps env s.ctrl s.opStack.state instr) c c' :=
        steps_of_instrTyped hb.valid hret hsel htyped
      obtain ⟨tr, hops, hcovers⟩ := hsteps.run_ok SlotSizes.bitcode narrow_bitcode hnone hin hfit hc
      exact ⟨hguard, fun heq => absurd heq hsel, tr, hops, hcovers⟩
  obtain ⟨hguard, hagrees, tr, hops, hcovers⟩ := hrun
  have hplain : instr.scopes = false := by
    cases instr <;> first | rfl | exact hguard.elim
  obtain ⟨n, hn⟩ : ∃ n, codeRoom rest = n + 1 := by
    have hlen := length_le_codeRoom rest
    have hpos := List.length_pos_iff.mpr hrest
    exact ⟨codeRoom rest - 1, by omega⟩
  have hroom := h.room
  rw [hn] at hroom
  obtain ⟨s', hproc, hready⟩ := processInstr_ok bitcodeWriter_serves hb.valid hb.options
    rest.isEmpty hguard hret (h.fits instr (List.mem_cons_self ..)) (h.codeRoom_le hb) hagrees hops
    (hb.encodable h.reach hrest) hroom
  rw [← hn] at hready
  obtain ⟨hbelow, hsame⟩ := processInstr_plain hplain hproc
  have hstate : s'.opStack = tr :=
    Except.ok.inj ((processInstr_effect hproc).ops.symm.trans hops)
  refine ⟨s', h.step hb hproc hready, hsame, hbelow, ?_⟩
  rw [hstate]
  exact hcovers

/-- `end` where the scope stands for its result. -/
theorem Live.close (hb : BodyRun env start bounds) (h : Live env start ⟨.end_ :: rest, s⟩)
    {k : Ctrl} {ctrl : List Ctrl} (hctrl : s.ctrl = k :: ctrl)
    (hif : k.isIf = true → k.expectedResult = none) (hlast : ctrl = [] → rest = [])
    (hc : Covers s.opStack.state k.expectedResult.toList) :
    ∃ s', Live env start ⟨rest, s'⟩ ∧ s'.ctrl = ctrl ∧
      s'.opStack.state = resultEntries k.expectedResult ++ scopeBelow s.opStack.state := by
  have hnone : env.options.maxFuncLocalBytes = none := by
    rw [hb.options]
  have hin := hb.inside h.reach (by simp only [hctrl]; exact List.cons_ne_nil _ _)
  obtain ⟨closed, hclose⟩ := Tracker.popScope_ok SlotSizes.bitcode narrow_bitcode hnone hin
    (hb.slots_lt h.reach) hc
  have hatEnd : ctrl = [] → rest.isEmpty = true := by
    intro hnil
    rw [hlast hnil]
    rfl
  obtain ⟨s', hproc, hready⟩ :=
    end_ok bitcodeWriter_serves hb.options hctrl hif hclose hatEnd h.room
  obtain ⟨-, hstate, hctrl', -⟩ := processInstr_end hproc hctrl
  exact ⟨s', h.step hb hproc hready, hctrl', hstate⟩

/-- `else` after the first arm. -/
theorem Live.switch (hb : BodyRun env start bounds) (h : Live env start ⟨.else_ :: rest, s⟩)
    {k : Ctrl} {ctrl : List Ctrl} (hctrl : s.ctrl = k :: ctrl) (hif : k.isIf = true)
    (hc : Covers s.opStack.state k.expectedResult.toList) :
    ∃ s', Live env start ⟨rest, s'⟩ ∧ s'.ctrl = { k with isIf := false } :: ctrl ∧
      s'.opStack.state = .scopeTag :: scopeBelow s.opStack.state := by
  have hnone : env.options.maxFuncLocalBytes = none := by
    rw [hb.options]
  have hin := hb.inside h.reach (by simp only [hctrl]; exact List.cons_ne_nil _ _)
  have hslots := hb.slots_lt h.reach
  obtain ⟨popped, hpop, hcovers, hle⟩ : ∃ popped, TrackerOp.run env.options bitcodeDepthForType
      (.pop k.expectedResult) s.opStack = .ok popped ∧ Covers popped.state [] ∧
      slots bitcodeDepthForType popped.state ≤ slots bitcodeDepthForType s.opStack.state :=
    Tracker.popResult_ok hc
  have hinner := hin.run SlotSizes.bitcode narrow_bitcode
    (show TrackerOp.Level (.pop k.expectedResult) from trivial) hpop
  have hempty : Covers popped.state (none : Option ValType).toList := hcovers
  obtain ⟨closed, hclose⟩ := Tracker.popScope_ok SlotSizes.bitcode narrow_bitcode hnone hinner
    (by omega) hempty
  obtain ⟨s', hproc, hready⟩ :=
    else_ok bitcodeWriter_serves hb.options rest.isEmpty hctrl hif hpop hclose h.room
  obtain ⟨-, hstate, hctrl', -⟩ := processInstr_else hproc hctrl
  exact ⟨s', h.step hb hproc hready, hctrl', hstate⟩

/-- `if` where its condition is on the stack. -/
theorem Live.openIf (hb : BodyRun env start bounds) {bt : UInt8} {result : Option ValType}
    {frame : List ValType} (h : Live env start ⟨.if_ bt :: rest, s⟩)
    (hresult : Spec.resultType bt = some result) (hc : Covers s.opStack.state (.i32 :: frame)) :
    ∃ s' depth outer, Live env start ⟨rest, s'⟩ ∧
      s'.ctrl = ⟨depth, result, result, true⟩ :: s.ctrl ∧
      s'.opStack.state = .scopeTag :: outer ∧ scopeBelow outer = scopeBelow s.opStack.state ∧
      Covers outer frame := by
  obtain ⟨popped, hpop, hcovers⟩ := Tracker.pop_ok (o := env.options) (d := bitcodeDepthForType) hc
  obtain ⟨s', hproc, hready⟩ :=
    if_ok bitcodeWriter_serves hb.options rest.isEmpty hresult hpop h.room
  obtain ⟨depth, result', -, hresult', hctrl, -⟩ := processInstr_if hb.options hproc
  obtain rfl := Option.some.inj (hresult.symm.trans hresult')
  obtain ⟨mid, hmid, hpush⟩ := bind_eq_ok.mp (processInstr_effect hproc).ops
  have hsame : mid = popped := Except.ok.inj (hmid.symm.trans hpop)
  rw [runOps_singleton] at hpush
  refine ⟨s', depth, popped.state, h.step hb hproc hready, hctrl, ?_, Tracker.pop_scopeBelow hpop,
    hcovers⟩
  rw [← pure_eq_ok.mp hpush, hsame]
  rfl

/-- What follows a typed sequence: the same scope, which stands for the types after it. -/
def Follows (env : BodyEnv) (start : BodyPoint bitcodeWriter) (tail : List Instr)
    (s : BodyState bitcodeWriter) (c : List ValType) : Prop :=
  ∃ s', Live env start ⟨tail, s'⟩ ∧ s'.ctrl = s.ctrl ∧
    scopeBelow s'.opStack.state = scopeBelow s.opStack.state ∧ Covers s'.opStack.state c

/-- What is known before a sequence with the typing context `c`. -/
structure Before (env : BodyEnv) (c : Spec.Context) (s : BodyState bitcodeWriter) : Prop where
  context : c = env.context s.ctrl
  returns : ReturnsResult env s.ctrl

theorem Before.enter {c : Spec.Context} (h : Before env c s) {k : Ctrl}
    (hctrl : s'.ctrl = k :: s.ctrl) : Before env (c.enter k.labelResult) s' where
  context := by
    rw [hctrl, h.context]
    rfl
  returns := by
    rw [hctrl]
    exact h.returns.cons

/-- After a scope with a result: the rest of the sequence. -/
theorem Follows.after {c : Spec.Context} {result : Option ValType} {frame last : List ValType}
    {below : List StackEntry} {tail : List Instr} {s₂ : BodyState bitcodeWriter}
    (ih : ∀ {s : BodyState bitcodeWriter}, Before env c s →
      Covers s.opStack.state (result.toList ++ frame) → Live env start ⟨rest, s⟩ →
      Follows env start tail s last)
    (hbefore : Before env c s) (hlive : Live env start ⟨rest, s₂⟩) (hctrl : s₂.ctrl = s.ctrl)
    (hstate : s₂.opStack.state = resultEntries result ++ below)
    (hbelow : scopeBelow below = scopeBelow s.opStack.state) (hc : Covers below frame) :
    Follows env start tail s last := by
  have hcovers : Covers s₂.opStack.state (result.toList ++ frame) := by
    rw [hstate]
    exact covers_result.mpr ⟨frame, rfl, hc⟩
  have hbefore₂ : Before env c s₂ :=
    ⟨by rw [hctrl]; exact hbefore.context, by rw [hctrl]; exact hbefore.returns⟩
  obtain ⟨s', hlive', hctrl', hbelow', hcovers'⟩ := ih hbefore₂ hcovers hlive
  refine ⟨s', hlive', hctrl'.trans hctrl, ?_, hcovers'⟩
  rw [hbelow', hstate, scopeBelow_resultEntries, hbelow]

/-- A scope without `else`: its body, its `end` and the state after it. -/
theorem Follows.scope {c : Spec.Context} {k : Ctrl} {below : List StackEntry} {body : Spec.Seq}
    {tail : List Instr} (hb : BodyRun env start bounds)
    (ih : ∀ {s : BodyState bitcodeWriter} {tail : List Instr}, tail ≠ [] →
      Before env (c.enter k.labelResult) s → Covers s.opStack.state [] →
      Live env start ⟨body.flatten ++ tail, s⟩ →
      Follows env start tail s k.expectedResult.toList)
    (hbefore : Before env c s) (hif : k.isIf = true → k.expectedResult = none)
    (hlive : Live env start ⟨body.flatten ++ .end_ :: tail, s'⟩) (hctrl : s'.ctrl = k :: s.ctrl)
    (hstate : s'.opStack.state = .scopeTag :: below) :
    ∃ s₂, Live env start ⟨tail, s₂⟩ ∧ s₂.ctrl = s.ctrl ∧
      s₂.opStack.state = resultEntries k.expectedResult ++ below := by
  have hempty : Covers s'.opStack.state [] := by
    rw [hstate]
    rfl
  obtain ⟨s₁, hlive₁, hctrl₁, hbelow₁, hcovers₁⟩ :=
    ih (List.cons_ne_nil _ _) (hbefore.enter hctrl) hempty hlive
  have hopen : s.ctrl = [] → tail = [] := by
    intro hnil
    have hreturns := hbefore.returns
    rw [ReturnsResult, hnil] at hreturns
    cases hreturns
  obtain ⟨s₂, hlive₂, hctrl₂, hstate₂⟩ :=
    hlive₁.close hb (hctrl₁.trans hctrl) hif hopen hcovers₁
  refine ⟨s₂, hlive₂, hctrl₂, ?_⟩
  rw [hstate₂, hbelow₁, hstate]
  rfl

/-- A typed sequence is accepted. -/
theorem BodyRun.follows (hb : BodyRun env start bounds) {c : Spec.Context} {body : Spec.Seq}
    {t t' : List ValType} (h : Spec.Typed c body t t') :
    ∀ {s : BodyState bitcodeWriter} {tail : List Instr}, tail ≠ [] → Before env c s →
      Covers s.opStack.state t → Live env start ⟨body.flatten ++ tail, s⟩ →
      Follows env start tail s t' := by
  induction h with
  | nil c t =>
    intro s tail _ _ hc hlive
    exact ⟨s, hlive, rfl, rfl, hc⟩
  | @plain c instr rest before after frame last hinstr _ ih =>
    intro s tail htail hbefore hc hlive
    have hne : rest.flatten ++ tail ≠ [] := by simp [htail]
    have htyped : InstrTyped env s.ctrl instr (before ++ frame) (after ++ frame) := by
      refine ⟨before, after, frame, rfl, rfl, ?_⟩
      rw [← hbefore.context]
      exact hinstr
    obtain ⟨s₁, hlive₁, hctrl₁, hbelow₁, hcovers₁⟩ :=
      Live.plain hb hlive hne hbefore.returns htyped hc
    have hbefore₁ : Before env c s₁ :=
      ⟨by rw [hctrl₁]; exact hbefore.context, by rw [hctrl₁]; exact hbefore.returns⟩
    obtain ⟨s', hlive', hctrl', hbelow', hcovers'⟩ := ih htail hbefore₁ hcovers₁ hlive₁
    exact ⟨s', hlive', hctrl'.trans hctrl₁, hbelow'.trans hbelow₁, hcovers'⟩
  | @block c bt result body rest frame last hresult _ _ ihbody ihrest =>
    intro s tail htail hbefore hc hlive
    simp only [Spec.Seq.flatten, List.cons_append, List.append_assoc] at hlive
    obtain ⟨s', hproc, hready⟩ := block_ok bitcodeWriter_serves hb.options
      (body.flatten ++ .end_ :: (rest.flatten ++ tail)).isEmpty hresult hlive.room
    have hlive' := hlive.step hb hproc hready
    obtain ⟨depth, result', hresult', hctrl, hstate⟩ := processInstr_block hb.options hproc
    obtain rfl := Option.some.inj (hresult.symm.trans hresult')
    obtain ⟨s₂, hlive₂, hctrl₂, hstate₂⟩ :=
      Follows.scope hb ihbody hbefore (by simp) hlive' hctrl hstate
    exact Follows.after (fun hbe hco hli => ihrest htail hbe hco hli) hbefore hlive₂ hctrl₂ hstate₂
      rfl hc
  | @loop c bt result body rest frame last hresult _ _ ihbody ihrest =>
    intro s tail htail hbefore hc hlive
    simp only [Spec.Seq.flatten, List.cons_append, List.append_assoc] at hlive
    obtain ⟨s', hproc, hready⟩ := loop_ok bitcodeWriter_serves hb.options
      (body.flatten ++ .end_ :: (rest.flatten ++ tail)).isEmpty hresult hlive.room
    have hlive' := hlive.step hb hproc hready
    obtain ⟨depth, result', hresult', hctrl, hstate⟩ := processInstr_loop hb.options hproc
    obtain rfl := Option.some.inj (hresult.symm.trans hresult')
    obtain ⟨s₂, hlive₂, hctrl₂, hstate₂⟩ :=
      Follows.scope hb ihbody hbefore (by simp) hlive' hctrl hstate
    exact Follows.after (fun hbe hco hli => ihrest htail hbe hco hli) hbefore hlive₂ hctrl₂ hstate₂
      rfl hc
  | @if_ c bt result body rest frame last hresult _ hempty _ ihbody _ ihrest =>
    intro s tail htail hbefore hc hlive
    simp only [Spec.Seq.flatten, List.cons_append, List.append_assoc] at hlive
    obtain ⟨s', depth, outer, hlive', hctrl, hstate, hbelow, hcovers⟩ := hlive.openIf hb hresult hc
    have hnone : result = none := by
      cases result with
      | none => rfl
      | some type => cases hempty
    obtain ⟨s₂, hlive₂, hctrl₂, hstate₂⟩ :=
      Follows.scope hb ihbody hbefore (fun _ => hnone) hlive' hctrl hstate
    exact Follows.after (fun hbe hco hli => ihrest htail hbe hco hli) hbefore hlive₂ hctrl₂ hstate₂
      hbelow hcovers
  | @ifElse c bt result body alternative rest frame last hresult _ _ _ ihbody ihalt ihrest =>
    intro s tail htail hbefore hc hlive
    simp only [Spec.Seq.flatten, List.cons_append, List.append_assoc] at hlive
    obtain ⟨s', depth, outer, hlive', hctrl, hstate, hbelow, hcovers⟩ := hlive.openIf hb hresult hc
    have hempty : Covers s'.opStack.state [] := by
      rw [hstate]
      rfl
    obtain ⟨s₁, hlive₁, hctrl₁, hbelow₁, hcovers₁⟩ :=
      ihbody (List.cons_ne_nil _ _) (hbefore.enter hctrl) hempty hlive'
    obtain ⟨s₂, hlive₂, hctrl₂, hstate₂⟩ :=
      hlive₁.switch hb (hctrl₁.trans hctrl) rfl hcovers₁
    rw [hbelow₁, hstate] at hstate₂
    obtain ⟨s₃, hlive₃, hctrl₃, hstate₃⟩ :=
      Follows.scope hb ihalt hbefore (by simp) hlive₂ hctrl₂ hstate₂
    exact Follows.after (fun hbe hco hli => ihrest htail hbe hco hli) hbefore hlive₃ hctrl₃ hstate₃
      hbelow hcovers

/-- A typed body and its `end` are accepted. -/
theorem runInstrs_complete {writer : BitcodeState} {body : Spec.Seq} (henv : env.Valid)
    (hopt : env.options = {}) (checker : LocalBytesChecker) (nested : Nat)
    (hbounds : bounds < 2 ^ 32)
    (hbytes : codeBytes (body.flatten ++ [.end_]) ≤ bounds)
    (hroom : codeRoom (body.flatten ++ [.end_]) ≤ bounds)
    (hfits : ∀ instr ∈ body.flatten ++ [.end_], instr.OffsetFits) (hwriter : writer.Room bounds)
    (htyped : Spec.Typed (env.context (bodyCtrl env)) body [] env.ft.result.toList) :
    ∃ t, runInstrs env (body.flatten ++ [.end_])
        (BodyState.init (W := bitcodeWriter) env checker writer nested) = .ok t ∧
      t.pcStack = [] := by
  have hb : BodyRun env (bodyStart (W := bitcodeWriter) env checker writer nested
      (body.flatten ++ [.end_])) bounds :=
    ⟨henv, hopt, bodyStart_initial hbytes, hbounds, hroom, rfl⟩
  have hlive : Live env (bodyStart (W := bitcodeWriter) env checker writer nested
      (body.flatten ++ [.end_])) ⟨body.flatten ++ [.end_],
        BodyState.init env checker writer nested⟩ := by
    refine ⟨Relation.ReflTransGen.refl, ⟨?_, ?_⟩, hfits⟩
    · exact le_trans (Nat.add_le_add_left hroom _) hwriter
    · intro pc hm hif
      rw [List.mem_singleton.mp hm] at hif
      cases hif
  have hstate : (BodyState.init (W := bitcodeWriter) env checker writer nested).opStack.state =
      [.scopeTag] := Tracker.updateUsage_state ..
  have hempty : Covers
      (BodyState.init (W := bitcodeWriter) env checker writer nested).opStack.state [] := by
    rw [hstate]
    rfl
  have hbefore : Before env (env.context (bodyCtrl env))
      (BodyState.init (W := bitcodeWriter) env checker writer nested) := ⟨rfl, rfl⟩
  obtain ⟨s₁, hlive₁, hctrl₁, -, hcovers₁⟩ :=
    hb.follows htyped (List.cons_ne_nil _ _) hbefore hempty hlive
  obtain ⟨t, hlive₂, hctrl₂, -⟩ :=
    hlive₁.close hb hctrl₁ (fun hif => nomatch hif) (fun _ => rfl) hcovers₁
  exact ⟨t, runInstrs_of_reaches hlive₂.reach, List.map_eq_nil_iff.mp hctrl₂⟩

end

end EosVm
