import EosVm.Invariants.InstrTyping

/-!
# Accepted bodies are typed

What the parser accepts has a derivation in the typing rules. Instructions are followed backwards:
for all types that the stack stands for after an instruction there are types it stood for before,
with a typing from these to those.
-/

set_option autoImplicit false

namespace EosVm

open Lib

variable {W : CodeWriter}

theorem computeDepthChange_result {env : BodyEnv} {s s' : BodyState W} {label depthChange : Nat}
    {rt : Option ValType} (h : s.computeDepthChange env label = .ok (depthChange, rt, s')) :
    s.ctrl[label]?.map Ctrl.labelResult = some rt := by
  rw [BodyState.ctrl_getElem?]
  unfold BodyState.computeDepthChange at h
  split at h
  · cases h
  next target htarget =>
    rw [htarget]
    cases hr : target.labelResult with
    | none =>
      simp only [hr, pure_eq_ok, Prod.mk.injEq] at h
      rw [← h.2.1]
      exact congrArg some hr
    | some type =>
      simp only [hr, bind_eq_ok, pure_eq_ok, Prod.mk.injEq] at h
      obtain ⟨-, -, -, rfl, -⟩ := h
      exact congrArg some hr

/-- The labels of `br_table` have one result. -/
theorem emitCases_results {env : BodyEnv} {s s' : BodyState W} {labels : List Nat}
    {handler handler' : W.Handler} {result result' : Option (Option ValType)}
    (h : BodyState.emitCases env labels handler result s = .ok (handler', result', s')) :
    (result = none ∨ result = result') ∧
      ∀ label ∈ labels, s.ctrl[label]?.map Ctrl.labelResult = result' := by
  induction labels generalizing s handler result with
  | nil =>
    simp only [BodyState.emitCases, pure_eq_ok, Prod.mk.injEq] at h
    exact ⟨Or.inr h.2.1, by simp⟩
  | cons first labels ih =>
    simp only [BodyState.emitCases, bind_eq_ok, Prod.exists, vmAssert_eq_ok, exists_const,
      Bool.or_eq_true, beq_iff_eq] at h
    obtain ⟨depthChange, rt, s₁, hd, branch, handler₁, w, -, s₂, hb, hsame, hrest⟩ := h
    obtain ⟨hnext, hlabels⟩ := ih hrest
    have hrt : some rt = result' := by
      rcases hnext with hnone | heq
      · cases hnone
      · exact heq
    have htarget : Effect env [] _ s₂ := Effect.handleBranchTarget hb
    have hctrl : s₂.ctrl = s.ctrl := htarget.ctrl.trans (Effect.computeDepthChange hd).ctrl
    rw [hctrl] at hlabels
    refine ⟨?_, List.forall_mem_cons.mpr ⟨?_, hlabels⟩⟩
    · rcases hsame with hnone | heq
      · exact Or.inl hnone
      · exact Or.inr (heq.trans hrt)
    · rw [← hrt]
      exact computeDepthChange_result hd

theorem ctrl_of_lt {s : BodyState W} {label : Nat} (h : label < s.pcStack.length) :
    ∃ k, s.ctrl[label]? = some k := by
  rw [← BodyState.ctrl_length] at h
  exact ⟨_, List.getElem?_eq_getElem h⟩

/-- An accepted instruction passes the checks. -/
theorem processInstr_guard {env : BodyEnv} {atEnd : Bool} {instr : Instr} {s s' : BodyState W}
    (hmvp : Spec.isMvp instr = true) (hplain : instr.scopes = false)
    (h : processInstr env atEnd instr s = .ok s') : Guard env s.ctrl instr := by
  have hrange := processInstr_inRange h
  cases instr <;> try (first | exact trivial | (cases hplain; done) | (cases hmvp; done))
  all_goals simp only [processInstr, bind_eq_ok, pure_eq_ok, vmAssert_eq_ok, vectorAt_eq_ok,
      exists_const, BodyState.checkInBounds, BodyState.requireMemory, BodyState.requireTable,
      checkMemarg_eq_ok] at h
  case br label | brIf label => exact ctrl_of_lt hrange
  case brTable labels default =>
    obtain ⟨-, hb⟩ := h
    simp only [BodyState.brTable, bind_eq_ok, vmAssert_eq_ok, pure_eq_ok, Prod.exists,
      exists_const, Bool.or_eq_true, beq_iff_eq] at hb
    obtain ⟨-, s₁, hp, handler, w, -, handler', result, s₂, hc, depthChange, rt, s₃, hd, branch,
      w', -, s₄, -, hsame, -⟩ := hb
    have hctrl : BodyState.ctrl { s₁ with writer := w } = s.ctrl := (Effect.pop hp).ctrl
    have hdefault := computeDepthChange_result hd
    rw [(Effect.emitCases hc).ctrl, hctrl] at hdefault
    obtain ⟨-, hlabels⟩ := emitCases_results hc
    rw [hctrl] at hlabels
    refine ⟨rt, ?_, hdefault⟩
    rcases hsame with rfl | rfl
    · -- without a label before the default one
      intro label hm
      obtain ⟨k, hk⟩ := ctrl_of_lt (hrange.1 label hm)
      have hnone := hlabels label hm
      rw [hk] at hnone
      cases hnone
    · exact hlabels
  case call funcnum =>
    obtain ⟨-, ft, hft, -⟩ := h
    exact ⟨ft, hft⟩
  case callIndirect functypeidx =>
    obtain ⟨-, ft, hft, -⟩ := h
    exact ⟨hrange.2, ft, hft⟩
  case getLocal localIdx =>
    obtain ⟨type, ht, -⟩ := h
    exact ⟨type, ht⟩
  case setLocal localIdx =>
    obtain ⟨-, type, ht, -⟩ := h
    exact ⟨type, ht⟩
  case teeLocal localIdx =>
    obtain ⟨-, type, ht, -⟩ := h
    exact ⟨type, ht⟩
  case getGlobal globalIdx =>
    obtain ⟨gl, hgl, -⟩ := h
    exact ⟨gl, hgl⟩
  case setGlobal globalIdx =>
    obtain ⟨-, gl, hgl, hmut, -⟩ := h
    exact ⟨gl, hgl, hmut⟩
  case load op alignment offset =>
    obtain ⟨-, -, ⟨halign, -⟩, -⟩ := h
    exact ⟨hrange, hmvp, halign⟩
  case store op alignment offset =>
    obtain ⟨-, -, ⟨halign, -⟩, -⟩ := h
    exact ⟨hrange, hmvp, halign⟩
  case currentMemory | growMemory => exact hrange

/-- The operands of an accepted `select` agree. -/
theorem processInstr_selectAgrees {env : BodyEnv} {atEnd : Bool} {s s' : BodyState W}
    (h : processInstr env atEnd .select s = .ok s') : SelectAgrees s.opStack.state := by
  simp only [processInstr, BodyState.checkInBounds, bind_eq_ok, vmAssert_eq_ok, Prod.exists,
    exists_const, Bool.or_eq_true, beq_iff_eq] at h
  obtain ⟨-, s₁, h₁, t₀, s₂, h₂, t₁, s₃, h₃, hsame, -⟩ := h
  have hfirst : t₀ = topType (popState s.opStack.state) := by
    rw [← (pop_state h₁).2]
    exact (popAny_state h₂).1
  have hsecond : t₁ = topType (popState (popState s.opStack.state)) := by
    rw [← (pop_state h₁).2, ← (popAny_state h₂).2]
    exact (popAny_state h₃).1
  rw [hfirst, hsecond] at hsame
  rcases hsame with (hsame | hany) | hany
  · exact Or.inl hsame
  · exact Or.inr (Or.inl hany)
  · exact Or.inr (Or.inr hany)

theorem labelOps_steps {ctrl : List Ctrl} {label : Nat} : ∀ op ∈ labelOps ctrl label, op.Steps := by
  intro op hm
  obtain ⟨type, rfl⟩ := labelOps_top ctrl label op hm
  trivial

theorem operandOps_steps {types : List ValType} : ∀ op ∈ operandOps types, op.Steps := by
  intro op hm
  obtain ⟨type, -, rfl⟩ := List.mem_map.mp hm
  trivial

theorem callOps_steps {ft : FuncType} : ∀ op ∈ callOps ft, op.Steps := by
  intro op hm
  rcases List.mem_append.mp hm with hm | hm
  · exact operandOps_steps op hm
  · cases hr : ft.result with
    | none =>
      rw [hr] at hm
      cases hm
    | some type =>
      rw [hr] at hm
      rw [List.mem_singleton.mp hm]
      trivial

/-- All instructions but `select` push value types only. -/
theorem instrOps_steps {env : BodyEnv} {ctrl : List Ctrl} {state : List StackEntry} {instr : Instr}
    (hsel : instr ≠ .select) (hplain : instr.scopes = false) :
    ∀ op ∈ instrOps env ctrl state instr, op.Steps := by
  cases instr with
  | select => exact absurd rfl hsel
  | block bt | loop bt | if_ bt | else_ | end_ => cases hplain
  | return_ | br label | brIf label =>
    simpa [instrOps, or_imp, forall_and, TrackerOp.Steps] using labelOps_steps
  | brTable labels default =>
    intro op hm
    simp only [instrOps, List.cons_append, List.mem_cons, List.mem_append, List.mem_flatMap,
      List.not_mem_nil, or_false] at hm
    rcases hm with rfl | (⟨label, -, hm⟩ | hm) | rfl
    · trivial
    · exact labelOps_steps op hm
    · exact labelOps_steps op hm
    · trivial
  | call funcnum =>
    simp only [instrOps]
    split
    · exact callOps_steps
    · simp
  | callIndirect functypeidx =>
    simp only [instrOps]
    split
    · simpa [TrackerOp.Steps] using callOps_steps
    · simp
  | numeric op | vecNumeric op =>
    simpa [instrOps, or_imp, forall_and, TrackerOp.Steps] using operandOps_steps
  | getLocal i | setLocal i | teeLocal i | getGlobal i | setGlobal i =>
    simp only [instrOps]
    split <;> simp [TrackerOp.Steps]
  | _ => simp [instrOps, TrackerOp.Steps]

/-- An accepted instruction is typed to all types that the stack stands for after it. -/
theorem processInstr_typed {env : BodyEnv} {atEnd : Bool} {instr : Instr} {s s' : BodyState W}
    {c' : List ValType} (henv : env.Valid) (hret : ReturnsResult env s.ctrl)
    (hmvp : Spec.isMvp instr = true) (hplain : instr.scopes = false)
    (h : processInstr env atEnd instr s = .ok s') (hc : Covers s'.opStack.state c') :
    ∃ c, Covers s.opStack.state c ∧ InstrTyped env s.ctrl instr c c' := by
  have hops := (processInstr_effect h).ops
  by_cases hsel : instr = .select
  · subst hsel
    obtain ⟨t, frame, rfl, hcovers⟩ := runOps_select hops (processInstr_selectAgrees h) hc
    exact ⟨_, hcovers, [.i32, t, t], [t], frame, rfl, rfl, .select t⟩
  · have hguard := processInstr_guard hmvp hplain h
    obtain ⟨c, hcovers, hsteps⟩ := StackSteps.of_run (instrOps_steps hsel hplain) hops hc
    exact ⟨c, hcovers, instrTyped_of_steps henv hret hsel hguard hsteps⟩

/-- It leaves the scope and the control stack. -/
theorem processInstr_plain {env : BodyEnv} {atEnd : Bool} {instr : Instr} {s s' : BodyState W}
    (hplain : instr.scopes = false) (h : processInstr env atEnd instr s = .ok s') :
    scopeBelow s'.opStack.state = scopeBelow s.opStack.state ∧ s'.ctrl = s.ctrl := by
  have heff := processInstr_effect h
  refine ⟨runOps_scopeBelow (instrOps_level hplain) heff.ops, ?_⟩
  rw [heff.ctrl]
  cases instr <;> first | rfl | cases hplain

section

variable {env : BodyEnv} {atEnd : Bool} {bt : UInt8} {s s₁ s₂ s' : BodyState W}

theorem processInstr_block (hopt : env.options = {})
    (h : processInstr env atEnd (.block bt) s = .ok s') :
    ∃ depth result, Spec.resultType bt = some result ∧
      s'.ctrl = ⟨depth, result, result, false⟩ :: s.ctrl ∧
      s'.opStack.state = .scopeTag :: s.opStack.state := by
  have heff := processInstr_effect h
  simp only [processInstr, bind_eq_ok] at h
  obtain ⟨result, hr, -⟩ := h
  have hctrl := heff.ctrl
  rw [ctrlAfter_block hr] at hctrl
  rw [hopt] at hr
  refine ⟨_, result, blockType_iff.mp hr, hctrl, ?_⟩
  have hops := heff.ops
  rw [instrOps, runOps_singleton] at hops
  rw [← pure_eq_ok.mp hops]
  rfl

theorem processInstr_loop (hopt : env.options = {})
    (h : processInstr env atEnd (.loop bt) s = .ok s') :
    ∃ depth result, Spec.resultType bt = some result ∧
      s'.ctrl = ⟨depth, result, none, false⟩ :: s.ctrl ∧
      s'.opStack.state = .scopeTag :: s.opStack.state := by
  have heff := processInstr_effect h
  simp only [processInstr, bind_eq_ok] at h
  obtain ⟨result, hr, -⟩ := h
  have hctrl := heff.ctrl
  rw [ctrlAfter_loop hr] at hctrl
  rw [hopt] at hr
  refine ⟨_, result, blockType_iff.mp hr, hctrl, ?_⟩
  have hops := heff.ops
  rw [instrOps, runOps_singleton] at hops
  rw [← pure_eq_ok.mp hops]
  rfl

/-- `if` takes its condition before it opens the scope. -/
theorem processInstr_if (hopt : env.options = {})
    (h : processInstr env atEnd (.if_ bt) s = .ok s') :
    ∃ depth result outer, Spec.resultType bt = some result ∧
      s'.ctrl = ⟨depth, result, result, true⟩ :: s.ctrl ∧
      s'.opStack.state = .scopeTag :: outer ∧ scopeBelow outer = scopeBelow s.opStack.state ∧
      ∀ c, Covers outer c → Covers s.opStack.state (.i32 :: c) := by
  have heff := processInstr_effect h
  simp only [processInstr, bind_eq_ok] at h
  obtain ⟨-, -, result, hr, -⟩ := h
  have hctrl := heff.ctrl
  rw [ctrlAfter_if hr] at hctrl
  rw [hopt] at hr
  obtain ⟨mid, hrun, hpush⟩ := bind_eq_ok.mp heff.ops
  have hpop : s.opStack.pop env.options W.getDepthForType (some .i32) = .ok mid := hrun
  rw [runOps_singleton] at hpush
  refine ⟨_, result, mid.state, blockType_iff.mp hr, hctrl, ?_, Tracker.pop_scopeBelow hpop,
    fun c hc => covers_popped hpop hc⟩
  rw [← pure_eq_ok.mp hpush]
  rfl

/-- `end` closes a scope that stands for its result. -/
theorem processInstr_end {k : Ctrl} {ctrl : List Ctrl}
    (h : processInstr env atEnd .end_ s = .ok s') (hctrl : s.ctrl = k :: ctrl) :
    Covers s.opStack.state k.expectedResult.toList ∧
      s'.opStack.state = resultEntries k.expectedResult ++ scopeBelow s.opStack.state ∧
      s'.ctrl = ctrl ∧ (k.isIf = true → k.expectedResult = none) := by
  have heff := processInstr_effect h
  have hops := heff.ops
  rw [instrOps, runOps_singleton, hctrl] at hops
  obtain ⟨hcovers, hstate⟩ := Tracker.popScope_covers hops
  refine ⟨hcovers, hstate, ?_, ?_⟩
  · have hafter := heff.ctrl
    rw [hctrl] at hafter
    exact hafter
  · simp only [processInstr, bind_eq_ok] at h
    obtain ⟨-, -, mid, hexit, -⟩ := h
    unfold BodyState.exitScope at hexit
    split at hexit
    · cases hexit
    next back rest hpc =>
      simp only [bind_eq_ok, vmAssert_eq_ok, exists_const, Bool.or_eq_true, Bool.not_eq_true',
        beq_iff_eq] at hexit
      rw [BodyState.ctrl, hpc, List.map_cons] at hctrl
      obtain ⟨rfl, -⟩ := List.cons.inj hctrl
      intro hif
      rcases hexit.1 with hnot | hnone
      · exact absurd hif (by simp [PcElement.ctrl, hnot])
      · exact hnone

/-- `else` ends the first arm of an `if`. -/
theorem processInstr_else {k : Ctrl} {ctrl : List Ctrl}
    (h : processInstr env atEnd .else_ s = .ok s') (hctrl : s.ctrl = k :: ctrl) :
    Covers s.opStack.state k.expectedResult.toList ∧
      s'.opStack.state = .scopeTag :: scopeBelow s.opStack.state ∧
      s'.ctrl = { k with isIf := false } :: ctrl ∧ k.isIf = true := by
  have heff := processInstr_effect h
  have hops := heff.ops
  rw [hctrl] at hops
  obtain ⟨hcovers, hstate⟩ := runOps_else hops
  refine ⟨hcovers, hstate, ?_, ?_⟩
  · have hafter := heff.ctrl
    rw [hctrl, ctrlAfter_else] at hafter
    exact hafter
  · simp only [processInstr, bind_eq_ok] at h
    obtain ⟨-, -, mid, helse, -⟩ := h
    unfold BodyState.elseScope at helse
    split at helse
    · cases helse
    next back rest hpc =>
      simp only [bind_eq_ok, vmAssert_eq_ok, exists_const] at helse
      rw [BodyState.ctrl, hpc, List.map_cons] at hctrl
      obtain ⟨rfl, -⟩ := List.cons.inj hctrl
      exact helse.1

/-- From `s` the instructions are those of `body` and then `term`, which ends the scope in the state
`s₁`; and `body` has a typing to all types that the stack stands for there. -/
structure ScopeRun (env : BodyEnv) (instrs : List Instr) (s : BodyState W) (body : Spec.Seq)
    (term : Instr) (rest : List Instr) (s₁ : BodyState W) : Prop where
  instrs_eq : instrs = body.flatten ++ term :: rest
  ctrl : s₁.ctrl = s.ctrl
  below : scopeBelow s₁.opStack.state = scopeBelow s.opStack.state
  typed : ∀ c', Covers s₁.opStack.state c' →
    ∃ c, Covers s.opStack.state c ∧ Spec.Typed (env.context s.ctrl) body c c'

variable {instrs rest : List Instr} {body : Spec.Seq} {k : Ctrl} {ctrl : List Ctrl}
  {below : List StackEntry}

theorem ScopeRun.typed_empty {term : Instr} {result : Option ValType}
    (hrun : ScopeRun env instrs s' body term rest s₁) (hctrl : s'.ctrl = k :: ctrl)
    (hstate : s'.opStack.state = .scopeTag :: below)
    (hcovers : Covers s₁.opStack.state result.toList) :
    Spec.Typed ((env.context ctrl).enter k.labelResult) body [] result.toList := by
  obtain ⟨c, hc, htyped⟩ := hrun.typed _ hcovers
  rw [hstate, covers_scope] at hc
  rw [hc, hctrl] at htyped
  exact htyped

/-- A scope that was opened and ended. -/
theorem ScopeRun.closed (hrun : ScopeRun env instrs s' body .end_ rest s₁)
    (hctrl : s'.ctrl = k :: ctrl) (hstate : s'.opStack.state = .scopeTag :: below)
    (hend : processInstr env atEnd .end_ s₁ = .ok s₂) :
    Spec.Typed ((env.context ctrl).enter k.labelResult) body [] k.expectedResult.toList ∧
      s₂.opStack.state = resultEntries k.expectedResult ++ below ∧ s₂.ctrl = ctrl ∧
      (k.isIf = true → k.expectedResult = none) := by
  obtain ⟨hcovers, hs₂, hc₂, hif⟩ := processInstr_end hend (hrun.ctrl.trans hctrl)
  refine ⟨hrun.typed_empty hctrl hstate hcovers, ?_, hc₂, hif⟩
  rw [hs₂, hrun.below, hstate]
  rfl

/-- The first arm of an `if` with `else`. -/
theorem ScopeRun.switched (hrun : ScopeRun env instrs s' body .else_ rest s₁)
    (hctrl : s'.ctrl = k :: ctrl) (hstate : s'.opStack.state = .scopeTag :: below)
    (helse : processInstr env atEnd .else_ s₁ = .ok s₂) :
    Spec.Typed ((env.context ctrl).enter k.labelResult) body [] k.expectedResult.toList ∧
      s₂.opStack.state = .scopeTag :: below ∧ s₂.ctrl = { k with isIf := false } :: ctrl ∧
      k.isIf = true := by
  obtain ⟨hcovers, hs₂, hc₂, hif⟩ := processInstr_else helse (hrun.ctrl.trans hctrl)
  refine ⟨hrun.typed_empty hctrl hstate hcovers, ?_, hc₂, hif⟩
  rw [hs₂, hrun.below, hstate]
  rfl

theorem scopeBelow_resultEntries (result : Option ValType) (rest : List StackEntry) :
    scopeBelow (resultEntries result ++ rest) = scopeBelow rest := by
  cases result <;> rfl

/-- What follows a scope with a result. -/
theorem ScopeRun.after {term : Instr} {result : Option ValType}
    (hrun : ScopeRun env instrs s₂ body term rest s₁) (hctrl : s₂.ctrl = ctrl)
    (hstate : s₂.opStack.state = resultEntries result ++ below) :
    scopeBelow s₁.opStack.state = scopeBelow below ∧ ∀ c', Covers s₁.opStack.state c' →
      ∃ frame, Covers below frame ∧
        Spec.Typed (env.context ctrl) body (result.toList ++ frame) c' := by
  refine ⟨by rw [hrun.below, hstate, scopeBelow_resultEntries], fun c' hc' => ?_⟩
  obtain ⟨c, hc, htyped⟩ := hrun.typed c' hc'
  rw [hstate] at hc
  obtain ⟨frame, rfl, hframe⟩ := covers_result.mp hc
  rw [hctrl] at htyped
  exact ⟨frame, hframe, htyped⟩

variable {t : BodyState W}

/-- The instructions up to the end of the innermost scope of `s` are a typed sequence, and the run
goes on from there to `t`. -/
def Splits (env : BodyEnv) (t : BodyState W) (instrs : List Instr) (s : BodyState W) : Prop :=
  ∃ body term rest s₁ s₂, ScopeRun env instrs s body term rest s₁ ∧
    (term = .end_ ∨ term = .else_) ∧ processInstr env rest.isEmpty term s₁ = .ok s₂ ∧
    runInstrs env rest s₂ = .ok t

/-- What the instructions from `s` on are known to be. -/
structure ReadsTo (env : BodyEnv) (t : BodyState W) (instrs : List Instr) (s : BodyState W) :
    Prop where
  mvp : ∀ instr ∈ instrs, Spec.isMvp instr = true
  returns : ReturnsResult env s.ctrl
  run : runInstrs env instrs s = .ok t

theorem ReturnsResult.cons {k : Ctrl} {ctrl : List Ctrl} (h : ReturnsResult env ctrl) :
    ReturnsResult env (k :: ctrl) := by
  obtain ⟨last, hlast, hresult⟩ := Option.map_eq_some_iff.mp h
  rw [ReturnsResult, List.getLast?_cons, hlast]
  exact congrArg some hresult

theorem ReadsTo.cons {first : Instr} (h : ReadsTo env t (first :: instrs) s) :
    Spec.isMvp first = true ∧ ∃ mid, processInstr env instrs.isEmpty first s = .ok mid ∧
      (ReturnsResult env mid.ctrl → ReadsTo env t instrs mid) := by
  obtain ⟨hfirst, hrest⟩ := List.forall_mem_cons.mp h.mvp
  have hrun := h.run
  simp only [runInstrs, bind_eq_ok, vmAssert_eq_ok, exists_const] at hrun
  obtain ⟨-, mid, hm, htail⟩ := hrun
  exact ⟨hfirst, mid, hm, fun hreturns => ⟨hrest, hreturns, htail⟩⟩

theorem Splits.plain {first : Instr} (henv : env.Valid) (h : ReadsTo env t (first :: instrs) s)
    (hplain : first.scopes = false) (hfirst : processInstr env instrs.isEmpty first s = .ok s')
    (htail : Splits env t instrs s') : Splits env t (first :: instrs) s := by
  obtain ⟨body, term, rest, s₁, s₂, hrun, hterm, hproc, hrest⟩ := htail
  obtain ⟨hbelow, hctrl⟩ := processInstr_plain hplain hfirst
  refine ⟨.plain first body, term, rest, s₁, s₂, ⟨?_, ?_, ?_, ?_⟩, hterm, hproc, hrest⟩
  · rw [hrun.instrs_eq]
    rfl
  · rw [hrun.ctrl, hctrl]
  · rw [hrun.below, hbelow]
  · intro c' hc'
    obtain ⟨c₁, hc₁, htyped⟩ := hrun.typed c' hc'
    have hmvp := (List.forall_mem_cons.mp h.mvp).1
    obtain ⟨c, hc, before, after, frame, rfl, rfl, hstep⟩ :=
      processInstr_typed henv h.returns hmvp hplain hfirst hc₁
    rw [hctrl] at htyped
    exact ⟨_, hc, .plain hstep htyped⟩

/-- The rest of the instructions after a scope. -/
theorem ReadsTo.after {term : Instr} (h : ReadsTo env t instrs s)
    (hrun : ScopeRun env instrs s body term rest s₁)
    (hrest : runInstrs env rest s₂ = .ok t) (hreturns : ReturnsResult env s₂.ctrl) :
    rest.length < instrs.length ∧ ReadsTo env t rest s₂ := by
  refine ⟨?_, ?_, hreturns, hrest⟩
  · rw [hrun.instrs_eq]
    simp
    omega
  · intro instr hm
    refine h.mvp instr ?_
    rw [hrun.instrs_eq]
    exact List.mem_append_right _ (List.mem_cons_of_mem _ hm)

/-- A sequence that starts with a scope, given the sequence after it. -/
theorem Splits.scope {result : Option ValType} (opening : List Instr)
    (node : Spec.Seq → Spec.Seq) (hinstrs : instrs = opening ++ rest)
    (hnode : ∀ tail, (node tail).flatten = opening ++ tail.flatten)
    (hbelow : scopeBelow below = scopeBelow s.opStack.state)
    (htyped : ∀ tail frame last, Covers below frame →
      Spec.Typed (env.context s.ctrl) tail (result.toList ++ frame) last →
      ∃ c, Covers s.opStack.state c ∧ Spec.Typed (env.context s.ctrl) (node tail) c last)
    (hstate : s₂.opStack.state = resultEntries result ++ below) (hctrl : s₂.ctrl = s.ctrl)
    (htail : Splits env t rest s₂) : Splits env t instrs s := by
  obtain ⟨tail, term, last, s₃, s₄, hrun, hterm, hproc, hlast⟩ := htail
  obtain ⟨hsame, hafter⟩ := hrun.after hctrl hstate
  refine ⟨node tail, term, last, s₃, s₄, ⟨?_, ?_, ?_, ?_⟩, hterm, hproc, hlast⟩
  · rw [hinstrs, hrun.instrs_eq, hnode, List.append_assoc]
  · rw [hrun.ctrl, hctrl]
  · rw [hsame, hbelow]
  · intro c' hc'
    obtain ⟨frame, hframe, htail⟩ := hafter c' hc'
    exact htyped tail frame c' hframe htail

/-- Shorter sequences split. -/
def SplitsBelow (env : BodyEnv) (t : BodyState W) (n : Nat) : Prop :=
  ∀ instrs s, instrs.length < n → ReadsTo env t instrs s → Splits env t instrs s

/-- A scope without an arm for `else`: its body is typed, and what follows it splits. -/
theorem SplitsBelow.closed {n : Nat} (ih : SplitsBelow env t n) (hn : instrs.length < n)
    (h : ReadsTo env t instrs s') (hctrl : s'.ctrl = k :: ctrl) (hreturns : ReturnsResult env ctrl)
    (hstate : s'.opStack.state = .scopeTag :: below) (hif : k.isIf = false) :
    ∃ body rest s₂, instrs = body.flatten ++ .end_ :: rest ∧
      Spec.Typed ((env.context ctrl).enter k.labelResult) body [] k.expectedResult.toList ∧
      s₂.opStack.state = resultEntries k.expectedResult ++ below ∧ s₂.ctrl = ctrl ∧
      Splits env t rest s₂ := by
  obtain ⟨body, term, rest, s₁, s₂, hrun, rfl | rfl, hproc, hrest⟩ := ih instrs s' hn h
  · obtain ⟨htyped, hstate₂, hctrl₂, -⟩ := hrun.closed hctrl hstate hproc
    obtain ⟨hlt, hreads⟩ := h.after hrun hrest (by rw [hctrl₂]; exact hreturns)
    exact ⟨body, rest, s₂, hrun.instrs_eq, htyped, hstate₂, hctrl₂,
      ih rest s₂ (by omega) hreads⟩
  · obtain ⟨-, -, -, htrue⟩ := hrun.switched hctrl hstate hproc
    rw [hif] at htrue
    cases htrue

theorem SplitsBelow.block {n : Nat} (ih : SplitsBelow env t n) (hopt : env.options = {})
    (hn : instrs.length < n) (h : ReadsTo env t (.block bt :: instrs) s) :
    Splits env t (.block bt :: instrs) s := by
  obtain ⟨-, s', hs', hreads⟩ := h.cons
  obtain ⟨depth, result, hresult, hctrl, hstate⟩ := processInstr_block hopt hs'
  have hreads := hreads (by rw [hctrl]; exact h.returns.cons)
  obtain ⟨body, rest, s₂, rfl, hbody, hstate₂, hctrl₂, htail⟩ :=
    ih.closed hn hreads hctrl h.returns hstate rfl
  refine Splits.scope (.block bt :: (body.flatten ++ [.end_])) (fun tail => .block bt body tail)
    (by simp) (by simp [Spec.Seq.flatten]) rfl ?_ hstate₂ hctrl₂ htail
  intro tail frame last hframe htyped
  exact ⟨frame, hframe, .block hresult hbody htyped⟩

theorem SplitsBelow.loop {n : Nat} (ih : SplitsBelow env t n) (hopt : env.options = {})
    (hn : instrs.length < n) (h : ReadsTo env t (.loop bt :: instrs) s) :
    Splits env t (.loop bt :: instrs) s := by
  obtain ⟨-, s', hs', hreads⟩ := h.cons
  obtain ⟨depth, result, hresult, hctrl, hstate⟩ := processInstr_loop hopt hs'
  have hreads := hreads (by rw [hctrl]; exact h.returns.cons)
  obtain ⟨body, rest, s₂, rfl, hbody, hstate₂, hctrl₂, htail⟩ :=
    ih.closed hn hreads hctrl h.returns hstate rfl
  refine Splits.scope (.loop bt :: (body.flatten ++ [.end_])) (fun tail => .loop bt body tail)
    (by simp) (by simp [Spec.Seq.flatten]) rfl ?_ hstate₂ hctrl₂ htail
  intro tail frame last hframe htyped
  exact ⟨frame, hframe, .loop hresult hbody htyped⟩

/-- An `if` ends with its first arm, which then has no result, or has an `else`. -/
theorem SplitsBelow.if_ {n : Nat} (ih : SplitsBelow env t n) (hopt : env.options = {})
    (hn : instrs.length < n) (h : ReadsTo env t (.if_ bt :: instrs) s) :
    Splits env t (.if_ bt :: instrs) s := by
  obtain ⟨-, s', hs', hreads⟩ := h.cons
  obtain ⟨depth, result, outer, hresult, hctrl, hstate, hbelow, hcond⟩ := processInstr_if hopt hs'
  have hreads := hreads (by rw [hctrl]; exact h.returns.cons)
  obtain ⟨body, term, rest, s₁, s₂, hrun, rfl | rfl, hproc, hrest⟩ := ih instrs s' hn hreads
  · obtain ⟨hbody, hstate₂, hctrl₂, hnone⟩ := hrun.closed hctrl hstate hproc
    obtain ⟨hlt, htail⟩ := hreads.after hrun hrest (by rw [hctrl₂]; exact h.returns)
    refine Splits.scope (.if_ bt :: (body.flatten ++ [.end_])) (fun tail => .if_ bt body tail)
      (by simp [hrun.instrs_eq])
      (by simp [Spec.Seq.flatten]) hbelow ?_ hstate₂ hctrl₂ (ih rest s₂ (by omega) htail)
    intro tail frame last hframe htyped
    obtain rfl : result = none := hnone rfl
    exact ⟨_, hcond frame hframe, .if_ hresult hbody (.nil _ []) htyped⟩
  · obtain ⟨hbody, hstate₂, hctrl₂, -⟩ := hrun.switched hctrl hstate hproc
    obtain ⟨hlt, helse⟩ := hreads.after hrun hrest (by rw [hctrl₂]; exact h.returns.cons)
    obtain ⟨alternative, rest₂, s₄, hrest₂, halt, hstate₄, hctrl₄, htail⟩ :=
      ih.closed (by omega) helse hctrl₂ h.returns hstate₂ rfl
    refine Splits.scope (.if_ bt :: (body.flatten ++ .else_ :: (alternative.flatten ++ [.end_])))
      (fun tail => .ifElse bt body alternative tail)
      (by simp [hrun.instrs_eq, hrest₂]) (by simp [Spec.Seq.flatten]) hbelow ?_ hstate₄ hctrl₄ htail
    intro tail frame last hframe htyped
    exact ⟨_, hcond frame hframe, .ifElse hresult hbody halt htyped⟩

/-- What the parser reads to the end of the body splits. -/
theorem ReadsTo.splits (henv : env.Valid) (hopt : env.options = {})
    (ht : t.pcStack = []) (n : Nat) :
    SplitsBelow env t n := by
  induction n with
  | zero => exact fun _ _ hn _ => absurd hn (Nat.not_lt_zero _)
  | succ n ih =>
    intro instrs s hn h
    cases instrs with
    | nil =>
      -- the control stack is empty only after the last `end`
      have hs : s = t := pure_eq_ok.mp h.run
      have hreturns := h.returns
      rw [hs, BodyState.ctrl, ht] at hreturns
      cases hreturns
    | cons first instrs =>
      have hlt : instrs.length < n := by
        rw [List.length_cons] at hn
        omega
      obtain ⟨-, s', hs', hreads⟩ := h.cons
      have hclose : first = .end_ ∨ first = .else_ → Splits env t (first :: instrs) s := by
        intro hterm
        refine ⟨.nil, first, instrs, s, s', ⟨rfl, rfl, rfl, fun c' hc' => ⟨c', hc', .nil _ c'⟩⟩,
          hterm, hs', ?_⟩
        have hrun := h.run
        simp only [runInstrs, bind_eq_ok, vmAssert_eq_ok, exists_const] at hrun
        obtain ⟨-, mid, hm, hrest⟩ := hrun
        rw [hs'] at hm
        rw [Except.ok.inj hm]
        exact hrest
      by_cases hplain : first.scopes = false
      · have hctrl := (processInstr_plain hplain hs').2
        have hreads := hreads (by rw [hctrl]; exact h.returns)
        exact Splits.plain henv h hplain hs' (ih instrs s' hlt hreads)
      · cases first <;> try exact absurd rfl hplain
        case block bt => exact ih.block hopt hlt h
        case loop bt => exact ih.loop hopt hlt h
        case if_ bt => exact ih.if_ hopt hlt h
        case else_ => exact hclose (Or.inr rfl)
        case end_ => exact hclose (Or.inl rfl)

/-- The control stack at the start of a body. -/
def bodyCtrl (env : BodyEnv) : List Ctrl := [⟨0, env.ft.result, env.ft.result, false⟩]

/-- An accepted sequence of instructions is a typed body and its `end`. -/
theorem runInstrs_sound (henv : env.Valid) (hopt : env.options = {})
    {checker : LocalBytesChecker} {writer : W.State} {nested : Nat}
    (hmvp : ∀ instr ∈ instrs, Spec.isMvp instr = true)
    (hrun : runInstrs env instrs (BodyState.init env checker writer nested) = .ok t)
    (ht : t.pcStack = []) :
    ∃ body : Spec.Seq, instrs = body.flatten ++ [.end_] ∧
      Spec.Typed (env.context (bodyCtrl env)) body [] env.ft.result.toList := by
  have hctrl : (BodyState.init env checker writer nested).ctrl = bodyCtrl env := rfl
  have hstate : (BodyState.init env checker writer nested).opStack.state = [.scopeTag] :=
    Tracker.updateUsage_state ..
  have hreads : ReadsTo env t instrs (BodyState.init env checker writer nested) :=
    ⟨hmvp, rfl, hrun⟩
  obtain ⟨body, term, rest, s₁, s₂, hscope, rfl | rfl, hproc, hrest⟩ :=
    ReadsTo.splits henv hopt ht (instrs.length + 1) instrs _ (Nat.lt_succ_self _) hreads
  · obtain ⟨hcovers, -, hctrl₂, -⟩ := processInstr_end hproc (hscope.ctrl.trans hctrl)
    have htyped : Spec.Typed _ body [] env.ft.result.toList :=
      hscope.typed_empty hctrl hstate hcovers
    have hlast : rest = [] := by
      have hempty : s₂.pcStack = [] := List.map_eq_nil_iff.mp hctrl₂
      simp only [processInstr, bind_eq_ok, vmAssert_eq_ok, exists_const, pure_eq_ok, hopt,
        Bool.or_eq_true, Bool.not_eq_true', List.isEmpty_eq_false_iff, List.isEmpty_iff] at hproc
      obtain ⟨-, -, s₃, -, hend, rfl⟩ := hproc
      rcases hend with (hallow | hopen) | hatEnd
      · cases hallow
      · exact absurd hempty (by simpa [BodyState.onEnd, hopt] using hopen)
      · exact hatEnd
    refine ⟨body, ?_, htyped⟩
    rw [hscope.instrs_eq, hlast]
  · obtain ⟨-, -, -, hif⟩ := processInstr_else hproc (hscope.ctrl.trans hctrl)
    cases hif

end

end EosVm
