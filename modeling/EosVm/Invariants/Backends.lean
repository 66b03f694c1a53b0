import EosVm.Source.BitcodeWriter
import EosVm.Source.MachineWriter
import EosVm.Source.Execute
import EosVm.Invariants.ModuleState
import EosVm.Invariants.TrackerRun
import EosVm.Invariants.WriterRun

/-!
# One module in both backends

The parser does the same whatever the code writer is, but for the depth of a type. So a module that
both backends accept has the same functions in both, and `set_stack_usage` gets the same usage.
-/

set_option autoImplicit false

namespace EosVm

open Lib

variable {W V : CodeWriter}

/-- The trackers differ in their depths only. -/
structure Tracker.SameTypes (tr tr' : Tracker) : Prop where
  state : tr.state = tr'.state
  checker : tr.localBytesChecker = tr'.localBytesChecker
  usage : tr.stackUsageMax = tr'.stackUsageMax

section

variable {o : Options} {d d' : OperandType → Nat} {tr tr' t t' : Tracker}

theorem Tracker.SameTypes.updateUsage (h : tr.SameTypes tr') :
    (tr.updateUsage o).SameTypes (tr'.updateUsage o) := by
  refine ⟨?_, ?_, ?_⟩
  · simp only [updateUsage_state, h.state]
  · simp only [updateUsage_localBytesChecker, h.checker]
  · unfold Tracker.updateUsage
    split
    · exact h.usage
    · simp only [h.checker, h.usage]

theorem Tracker.SameTypes.push {type : OperandType} (h : tr.SameTypes tr')
    (ht : tr.push o d type = .ok t) (ht' : tr'.push o d' type = .ok t') : t.SameTypes t' := by
  obtain ⟨-, checker, hc, rfl⟩ := push_cases ht
  obtain ⟨-, checker', hc', rfl⟩ := push_cases ht'
  rw [h.checker, hc'] at hc
  obtain rfl := Except.ok.inj hc
  exact updateUsage ⟨by simp only [h.state], rfl, h.usage⟩

theorem Tracker.SameTypes.remove (h : tr.SameTypes tr') (type : OperandType) :
    (tr.remove o d type).SameTypes (tr'.remove o d' type) :=
  ⟨by simp only [Tracker.remove, h.state], by simp only [Tracker.remove, h.checker], h.usage⟩

theorem Tracker.SameTypes.pop {expected : Option ValType} (h : tr.SameTypes tr')
    (ht : tr.pop o d expected = .ok t) (ht' : tr'.pop o d' expected = .ok t') : t.SameTypes t' := by
  cases expected with
  | none =>
    obtain rfl := Except.ok.inj ht
    obtain rfl := Except.ok.inj ht'
    exact h
  | some type =>
    rcases pop_cases ht with ⟨rest, hs, rfl⟩ | ⟨entry, rest, hs, -, rfl⟩ <;>
      rcases pop_cases ht' with ⟨rest', hs', rfl⟩ | ⟨entry', rest', hs', -, rfl⟩
    · exact h
    · rw [h.state, hs'] at hs
      cases hs
    · rw [h.state, hs'] at hs
      cases hs
    · exact h.remove _

theorem Tracker.SameTypes.popAny {type type' : OperandType} (h : tr.SameTypes tr')
    (ht : tr.popAny o d = .ok (type, t)) (ht' : tr'.popAny o d' = .ok (type', t')) :
    t.SameTypes t' := by
  rcases popAny_cases ht with ⟨rest, hs, rfl, rfl⟩ | ⟨rest, hs, rfl⟩ <;>
    rcases popAny_cases ht' with ⟨rest', hs', rfl, rfl⟩ | ⟨rest', hs', rfl⟩
  · exact h
  · rw [h.state, hs'] at hs
    cases hs
  · rw [h.state, hs'] at hs
    cases hs
  · rw [h.state, hs'] at hs
    cases hs
    exact h.remove _

theorem Tracker.SameTypes.closeUnreachable (h : tr.SameTypes tr') :
    tr.closeUnreachable.SameTypes tr'.closeUnreachable := by
  unfold Tracker.closeUnreachable
  rw [h.state]
  split
  · exact ⟨rfl, by simp only [h.checker], h.usage⟩
  · exact h

theorem Tracker.SameTypes.popScope {result : Option ValType} (h : tr.SameTypes tr')
    (ht : tr.popScope o d result = .ok t) (ht' : tr'.popScope o d' result = .ok t') :
    t.SameTypes t' := by
  obtain ⟨popped, rest, hp, hs, hr⟩ := popScope_cases ht
  obtain ⟨popped', rest', hp', hs', hr'⟩ := popScope_cases ht'
  have hclose := (h.pop hp hp').closeUnreachable
  rw [hclose.state, hs'] at hs
  obtain rfl := (List.cons.inj hs).2
  have hscope : Tracker.SameTypes { popped.closeUnreachable with state := rest' }
      { popped'.closeUnreachable with state := rest' } := ⟨rfl, hclose.checker, hclose.usage⟩
  cases result with
  | none =>
    simp only at hr hr'
    rw [hr, hr']
    exact hscope
  | some type => exact hscope.push hr hr'

/-- A call on both trackers. -/
theorem TrackerOp.run_sameTypes {op : TrackerOp} (h : tr.SameTypes tr') (ht : op.run o d tr = .ok t)
    (ht' : op.run o d' tr' = .ok t') : t.SameTypes t' := by
  cases op with
  | push type => exact h.push ht ht'
  | pop expected => exact h.pop ht ht'
  | popAny =>
    obtain ⟨⟨type, popped⟩, hp, hpure⟩ := bind_eq_ok.mp ht
    obtain ⟨⟨type', popped'⟩, hp', hpure'⟩ := bind_eq_ok.mp ht'
    obtain rfl := pure_eq_ok.mp hpure
    obtain rfl := pure_eq_ok.mp hpure'
    exact h.popAny hp hp'
  | top expected =>
    obtain ⟨mid, hp, hpush⟩ := Tracker.top_cases ht
    obtain ⟨mid', hp', hpush'⟩ := Tracker.top_cases ht'
    exact (h.pop hp hp').push hpush hpush'
  | startUnreachable =>
    obtain rfl := pure_eq_ok.mp ht
    obtain rfl := pure_eq_ok.mp ht'
    exact ⟨by simp only [Tracker.startUnreachable, h.state],
      by simp only [Tracker.startUnreachable, h.checker], h.usage⟩
  | pushScope =>
    obtain rfl := pure_eq_ok.mp ht
    obtain rfl := pure_eq_ok.mp ht'
    exact ⟨by simp only [Tracker.pushScope, h.state], h.checker, h.usage⟩
  | popScope result => exact h.popScope ht ht'

theorem runOps_sameTypes {ops : List TrackerOp} (h : tr.SameTypes tr')
    (ht : runOps o d ops tr = .ok t) (ht' : runOps o d' ops tr' = .ok t') : t.SameTypes t' := by
  induction ops generalizing tr tr' with
  | nil =>
    obtain rfl := pure_eq_ok.mp ht
    obtain rfl := pure_eq_ok.mp ht'
    exact h
  | cons op ops ih =>
    obtain ⟨mid, hm, hrest⟩ := bind_eq_ok.mp ht
    obtain ⟨mid', hm', hrest'⟩ := bind_eq_ok.mp ht'
    exact ih (TrackerOp.run_sameTypes h hm hm') hrest hrest'

end

/-- An element of the control stack without its depth. -/
def Ctrl.types (c : Ctrl) : Ctrl := { c with operandDepth := 0 }

/-- The parser reads the same in both environments. -/
structure BodyEnv.Same (env env' : BodyEnv) : Prop where
  options : env.options = env'.options
  mod : env.mod.beforeCode = env'.mod.beforeCode
  localTypes : env.localTypes = env'.localTypes

section

variable {ctrl ctrl' : List Ctrl}

theorem labelOps_types (hctrl : ctrl.map Ctrl.types = ctrl'.map Ctrl.types) (label : Nat) :
    labelOps ctrl label = labelOps ctrl' label := by
  have hlabel := congrArg (·[label]?) hctrl
  simp only [List.getElem?_map] at hlabel
  unfold labelOps
  cases hc : ctrl[label]? with
  | none =>
    rw [hc, Option.map_none, eq_comm, Option.map_eq_none_iff] at hlabel
    rw [hlabel]
  | some c =>
    rw [hc, Option.map_some, eq_comm, Option.map_eq_some_iff] at hlabel
    obtain ⟨c', hc', heq⟩ := hlabel
    obtain ⟨depth, expected, result, isIf⟩ := c
    obtain ⟨depth', expected', result', isIf'⟩ := c'
    simp only [Ctrl.types, Ctrl.mk.injEq] at heq
    rw [hc', heq.2.2.1]
    cases result <;> rfl

theorem expectedResult_types (hctrl : ctrl.map Ctrl.types = ctrl'.map Ctrl.types) :
    ctrl.head?.bind Ctrl.expectedResult = ctrl'.head?.bind Ctrl.expectedResult := by
  cases ctrl with
  | nil =>
    obtain rfl := List.map_eq_nil_iff.mp hctrl.symm
    rfl
  | cons c rest =>
    cases ctrl' with
    | nil => cases hctrl
    | cons c' rest' =>
      have hhead := (List.cons.inj hctrl).1
      have hexpected := congrArg Ctrl.expectedResult hhead
      exact hexpected

/-- An instruction calls the same operations on both trackers. -/
theorem instrOps_same {env env' : BodyEnv} (henv : env.Same env')
    (hctrl : ctrl.map Ctrl.types = ctrl'.map Ctrl.types) (state : List StackEntry) (instr : Instr) :
    instrOps env ctrl state instr = instrOps env' ctrl' state instr := by
  have hlength : ctrl.length = ctrl'.length := by
    have := congrArg List.length hctrl
    simpa using this
  have hlabel := labelOps_types hctrl
  have hexpected := expectedResult_types hctrl
  have htypes := congrArg Module.types henv.mod
  have hglobals := congrArg Module.globals henv.mod
  have hfunction := congrArg Module.getFunctionType henv.mod
  change env.mod.types = env'.mod.types at htypes
  change env.mod.globals = env'.mod.globals at hglobals
  change env.mod.getFunctionType = env'.mod.getFunctionType at hfunction
  cases instr <;> simp only [instrOps, hlength, hlabel, hexpected, htypes, hglobals, hfunction,
    henv.localTypes]
  all_goals rw [show labelOps ctrl = labelOps ctrl' from funext hlabel]

theorem ctrlAfter_types {o : Options} {tr tr' : Tracker}
    (hctrl : ctrl.map Ctrl.types = ctrl'.map Ctrl.types) (instr : Instr) :
    (ctrlAfter o tr ctrl instr).map Ctrl.types = (ctrlAfter o tr' ctrl' instr).map Ctrl.types := by
  cases instr
  case block bt | loop bt | if_ bt =>
    unfold ctrlAfter
    dsimp only
    split
    · simp only [List.map_cons, Ctrl.types, hctrl]
    · exact hctrl
  case else_ =>
    cases ctrl with
    | nil =>
      obtain rfl := List.map_eq_nil_iff.mp hctrl.symm
      rfl
    | cons c rest =>
      cases ctrl' with
      | nil => cases hctrl
      | cons c' rest' =>
        obtain ⟨hhead, hrest⟩ := List.cons.inj hctrl
        simp only [Ctrl.types, Ctrl.mk.injEq] at hhead
        simp only [ctrlAfter_else, List.map_cons, Ctrl.types, hhead, hrest]
  case end_ =>
    change ctrl.tail.map Ctrl.types = ctrl'.tail.map Ctrl.types
    rw [List.map_tail, List.map_tail, hctrl]
  all_goals exact hctrl

end

/-- The states of the parser differ in the writer and in depths. -/
structure BodyState.Same (s : BodyState W) (s' : BodyState V) : Prop where
  opStack : s.opStack.SameTypes s'.opStack
  ctrl : s.ctrl.map Ctrl.types = s'.ctrl.map Ctrl.types

theorem processInstr_same {env env' : BodyEnv} {atEnd atEnd' : Bool} {instr : Instr}
    {s t : BodyState W} {s' t' : BodyState V} (henv : env.Same env') (h : s.Same s')
    (ht : processInstr env atEnd instr s = .ok t)
    (ht' : processInstr env' atEnd' instr s' = .ok t') : t.Same t' := by
  have heff := processInstr_effect ht
  have heff' := processInstr_effect ht'
  have hops := heff'.ops
  rw [← instrOps_same henv h.ctrl, ← h.opStack.state, ← henv.options] at hops
  refine ⟨runOps_sameTypes h.opStack heff.ops hops, ?_⟩
  rw [heff.ctrl, heff'.ctrl, henv.options]
  exact ctrlAfter_types h.ctrl instr

/-- A body in both backends. -/
theorem parseBodyLoop_same {env env' : BodyEnv} {bounds fuel : Nat} {code : WasmCodePtr}
    {s t : BodyState W} {s' t' : BodyState V} (henv : env.Same env') (h : s.Same s')
    (ht : parseBodyLoop env bounds fuel code s = .ok t)
    (ht' : parseBodyLoop env' bounds fuel code s' = .ok t') : t.Same t' := by
  induction fuel generalizing code s s' with
  | zero =>
    unfold parseBodyLoop at ht ht'
    split at ht
    · cases ht
    next hdone =>
      rw [if_neg hdone] at ht'
      obtain rfl := pure_eq_ok.mp ht
      obtain rfl := pure_eq_ok.mp ht'
      exact h
  | succ fuel ih =>
    unfold parseBodyLoop at ht ht'
    split at ht
    next hlt =>
      rw [if_pos hlt] at ht'
      simp only [bind_eq_ok, vmAssert_eq_ok, Prod.exists, exists_const] at ht ht'
      obtain ⟨-, instr, next, hd, mid, hm, hrest⟩ := ht
      obtain ⟨-, instr', next', hd', mid', hm', hrest'⟩ := ht'
      rw [henv.options, hd'] at hd
      obtain ⟨rfl, rfl⟩ := Prod.mk.inj (Except.ok.inj hd)
      exact ih (processInstr_same henv h hm hm') hrest hrest'
    next hdone =>
      rw [if_neg hdone] at ht'
      obtain rfl := pure_eq_ok.mp ht
      obtain rfl := pure_eq_ok.mp ht'
      exact h

theorem BodyState.init_same {env env' : BodyEnv} (henv : env.Same env') (hft : env.ft = env'.ft)
    (checker : LocalBytesChecker) (writer : W.State) (writer' : V.State) (nested nested' : Nat) :
    (BodyState.init env checker writer nested).Same
      (BodyState.init env' checker writer' nested') := by
  refine ⟨?_, ?_⟩
  · simp only [BodyState.init, henv.options]
    exact ⟨rfl, rfl, rfl⟩
  · simp only [BodyState.init, BodyState.ctrl, hft]
    rfl

/-- The calls while a body is parsed leave the prologues alone. -/
theorem machineWriter_keeps (b : Bool) :
    (machineWriter b).Keeps fun w w' => w'.limitEntries = w.limitEntries where
  refl := fun _ => rfl
  trans := fun h h' => h'.trans h
  emit := by
    intro op w w' h
    change MachineState.emit op w = .ok w' at h
    unfold MachineState.emit at h
    split at h
    · obtain ⟨_, -, hw⟩ := bind_eq_ok.mp h
      rw [← pure_eq_ok.mp hw]
      rfl
    · obtain ⟨_, -, hw⟩ := bind_eq_ok.mp h
      rw [← pure_eq_ok.mp hw]
      rfl
    · rw [← pure_eq_ok.mp h]
      rfl
  emitEnd := by
    rintro w label w' ⟨⟩
    rfl
  emitReturn := by
    rintro change rt w branch w' ⟨⟩
    rfl
  emitLoop := by
    rintro w label w' ⟨⟩
    rfl
  emitIf := by
    rintro w branch w' ⟨⟩
    rfl
  emitElse := by
    rintro ifLoc w branch w' ⟨⟩
    rfl
  emitBr := by
    rintro change rt w branch w' ⟨⟩
    rfl
  emitBrIf := by
    rintro change rt w branch w' ⟨⟩
    rfl
  emitBrTable := by
    rintro size w handler w' ⟨⟩
    rfl
  emitCase := by
    rintro handler change rt w branch handler' w' ⟨⟩
    rfl
  emitDefault := by
    rintro handler change rt w branch w' ⟨⟩
    rfl
  fixBranch := by
    rintro branch label w w' ⟨⟩
    rfl

theorem BitcodeState.setStackUsage_usage {usage : Nat} {w w' : BitcodeState}
    (h : BitcodeState.setStackUsage usage w = .ok w') : w'.stackUsage = usage + 16 := by
  simp only [BitcodeState.setStackUsage, bind_eq_ok, vmAssert_eq_ok, pure_eq_ok, exists_const] at h
  obtain ⟨-, rfl⟩ := h
  rfl

theorem MachineState.setStackUsage_entries {b : Bool} (hb : b = true) {usage : Nat}
    {entries : List Nat} {w w' : MachineState} (hentries : w.limitEntries = entries ++ [0])
    (h : MachineState.setStackUsage b usage w = .ok w') :
    w'.limitEntries = entries ++ [usage + 16] := by
  simp only [MachineState.setStackUsage, hb, if_true, bind_eq_ok, vmAssert_eq_ok, pure_eq_ok,
    exists_const] at h
  obtain ⟨-, rfl⟩ := h
  simp [hentries]

/-- The usage that both writers get at the end of a body. -/
theorem recordStackUsage_eq_ok {o : Options} (hbytes : o.maxStackBytes.isSome = true)
    {s s' : BodyState W} (h : s.recordStackUsage o = .ok s') :
    W.setStackUsage s.opStack.stackUsageMax s.writer = .ok s'.writer := by
  obtain ⟨limit, hlimit⟩ := Option.isSome_iff_exists.mp hbytes
  simp only [BodyState.recordStackUsage, hlimit] at h
  obtain ⟨w, hw, hs⟩ := bind_eq_ok.mp h
  rw [← pure_eq_ok.mp hs]
  exact hw

/-- After the first `i` functions: both parsers know the same of the module and of the functions to
come, and the prologues charge the frame sizes. -/
structure FrameSizes (o : Options) (i : Nat) (sti : ParserState bitcodeWriter)
    (stj : ParserState (machineWriter o.maxStackBytes.isSome)) (writer : MachineState) : Prop where
  mod : sti.mod.beforeCode = stj.mod.beforeCode
  pending : ∀ k, i ≤ k → sti.mod.code[k]? = stj.mod.code[k]?
  entries : o.maxStackBytes.isSome = true →
    (sti.mod.code.take i).map FunctionBody.stackSize = writer.limitEntries

/-- One function in both backends. -/
theorem writeFunction_sizes {o : Options} {i : Nat} {sti sti' : ParserState bitcodeWriter}
    {stj stj' : ParserState (machineWriter o.maxStackBytes.isSome)} {wi wi' : BitcodeState}
    {wj wj' : MachineState} {body : WasmCodePtr × LocalBytesChecker}
    (h : FrameSizes o i sti stj wj) (hi : writeFunction o sti wi i body = .ok (sti', wi'))
    (hj : writeFunction o stj wj i body = .ok (stj', wj')) :
    FrameSizes o (i + 1) sti' stj' wj' := by
  simp only [writeFunction, parseFunctionBodyCode, bind_eq_ok, vectorAt_eq_ok, pure_eq_ok,
    vmAssert_eq_ok, Prod.exists, Prod.mk.injEq, exists_const] at hi hj
  obtain ⟨fb, hfb, type, htype, ft, hft, lt, hlt, w₁, -, s, _, ⟨s₁, hloop, s₂, hrec, -, rfl, -⟩, w₂,
    hepilogue, size, stackSize, w₃, hfinalize, rfl, rfl⟩ := hi
  obtain ⟨fb', hfb', type', htype', ft', hft', lt', hlt', w₁', hprologue, s', _,
    ⟨s₁', hloop', s₂', hrec', -, rfl, -⟩, w₂', hepilogue', size', stackSize', w₃', hfinalize', rfl,
    rfl⟩ := hj
  have hfunctions := congrArg Module.functions h.mod
  have htypes := congrArg Module.types h.mod
  change sti.mod.functions = stj.mod.functions at hfunctions
  change sti.mod.types = stj.mod.types at htypes
  rw [hfunctions, htype', Option.some.injEq] at htype
  subst htype
  rw [htypes, hft', Option.some.injEq] at hft
  subst hft
  rw [h.pending i (le_refl _), hfb', Option.some.injEq] at hfb
  subst hfb
  rw [hlt', Except.ok.injEq] at hlt
  subst hlt
  refine ⟨h.mod, ?_, ?_⟩
  · intro k hk
    rw [List.getElem?_set_ne (by omega), List.getElem?_set_ne (by omega)]
    exact h.pending k (by omega)
  · intro hbytes
    have henv : BodyEnv.Same ⟨o, sti.mod, sti.typeAliases, sti.datacount, ft', lt'⟩
        ⟨o, stj.mod, stj.typeAliases, stj.datacount, ft', lt'⟩ := ⟨rfl, h.mod, rfl⟩
    have hsame := parseBodyLoop_same henv (BodyState.init_same henv rfl _ _ _ _ _) hloop hloop'
    have hentries : s₁'.writer.limitEntries = wj.limitEntries ++ [0] := by
      rw [(machineWriter_keeps _).parseBodyLoop hloop']
      obtain ⟨-, -, hprologue⟩ := bind_eq_ok.mp hprologue
      obtain rfl := pure_eq_ok.mp hprologue
      rfl
    have hmachine := MachineState.setStackUsage_entries hbytes hentries
      (recordStackUsage_eq_ok hbytes hrec')
    have hbitcode := BitcodeState.setStackUsage_usage (recordStackUsage_eq_ok hbytes hrec)
    obtain rfl := pure_eq_ok.mp hepilogue
    obtain rfl := pure_eq_ok.mp hepilogue'
    obtain ⟨rfl, rfl, rfl⟩ := pure_eq_ok.mp hfinalize
    obtain ⟨rfl, rfl, rfl⟩ := pure_eq_ok.mp hfinalize'
    have hlen : i < sti.mod.code.length := by
      have hsome := h.pending i (le_refl _)
      rw [hfb'] at hsome
      exact (List.getElem?_eq_some_iff.mp hsome).1
    rw [List.take_add_one, List.take_set_of_le (le_refl _), List.getElem?_set_self hlen,
      List.map_append, h.entries hbytes]
    change wj.limitEntries ++ [s₂.writer.stackUsage] = s₂'.writer.limitEntries
    rw [hmachine, hbitcode, hsame.opStack.usage]

/-- All functions in both backends. -/
theorem writeFunctions_sizes {o : Options} {i : Nat}
    {bodies : List (WasmCodePtr × LocalBytesChecker)} {sti sti' : ParserState bitcodeWriter}
    {stj stj' : ParserState (machineWriter o.maxStackBytes.isSome)} {wi wi' : BitcodeState}
    {wj wj' : MachineState} (h : FrameSizes o i sti stj wj)
    (hi : writeFunctions o i bodies sti wi = .ok (sti', wi'))
    (hj : writeFunctions o i bodies stj wj = .ok (stj', wj')) :
    FrameSizes o (i + bodies.length) sti' stj' wj' := by
  induction bodies generalizing i sti stj wi wj with
  | nil =>
    obtain ⟨rfl, rfl⟩ := Prod.mk.inj (pure_eq_ok.mp hi)
    obtain ⟨rfl, rfl⟩ := Prod.mk.inj (pure_eq_ok.mp hj)
    exact h
  | cons body bodies ih =>
    obtain ⟨⟨sti₁, wi₁⟩, hfirst, hrest⟩ := bind_eq_ok.mp hi
    obtain ⟨⟨stj₁, wj₁⟩, hfirst', hrest'⟩ := bind_eq_ok.mp hj
    have hall := ih (writeFunction_sizes h hfirst hfirst') hrest hrest'
    rw [List.length_cons, show i + (bodies.length + 1) = i + 1 + bodies.length by omega]
    exact hall

/-- The state of the parser without the writer. -/
def ParserState.erase (st : ParserState W) : ParserState bitcodeWriter where
  mod := st.mod
  functionBodies := st.functionBodies
  mutableGlobalBytes := st.mutableGlobalBytes
  nestedCount := st.nestedCount
  datacount := st.datacount
  typeAliases := st.typeAliases
  fastFunctions := st.fastFunctions

/-- No section but the code section looks at the writer. -/
theorem parseSection_erase {o : Options} {id : SectionId} (hid : id ≠ .code) {p q : WasmCodePtr}
    {st t : ParserState W} (h : parseSection o id p st = .ok (t, q)) :
    parseSection o id p st.erase = .ok (t.erase, q) := by
  cases id
  case code => exact absurd rfl hid
  case custom =>
    simp only [parseSection, parseCustom, bind_eq_ok, Prod.exists] at h ⊢
    obtain ⟨name, p₁, hname, h⟩ := h
    refine ⟨name, p₁, hname, ?_⟩
    split at h
    next hcond =>
      rw [if_pos hcond]
      simp only [bind_eq_ok, pure_eq_ok, Prod.exists, Prod.mk.injEq] at h ⊢
      obtain ⟨names, p₂, hnames, rfl, rfl⟩ := h
      exact ⟨names, p₂, hnames, rfl, rfl⟩
    next hcond =>
      rw [if_neg hcond]
      simp only [bind_eq_ok, pure_eq_ok, Prod.mk.injEq] at h ⊢
      obtain ⟨p₂, hp, rfl, rfl⟩ := h
      exact ⟨p₂, hp, rfl, rfl⟩
  case type | import_ | table | memory | element | dataCount =>
    simp only [parseSection, bind_eq_ok, pure_eq_ok, Prod.exists, Prod.mk.injEq] at h ⊢
    obtain ⟨items, p₁, hi, rfl, rfl⟩ := h
    exact ⟨items, p₁, hi, rfl, rfl⟩
  case function =>
    simp only [parseSection, parseFunctionSection, bind_eq_ok, pure_eq_ok, Prod.exists,
      Prod.mk.injEq] at h ⊢
    obtain ⟨functions, p₁, hi, aliases, fast, hn, rfl, rfl⟩ := h
    exact ⟨functions, p₁, hi, aliases, fast, hn, rfl, rfl⟩
  case global =>
    simp only [parseSection, bind_eq_ok, pure_eq_ok, Prod.exists, Prod.mk.injEq] at h ⊢
    obtain ⟨globals, p₁, counter, hi, rfl, rfl⟩ := h
    exact ⟨globals, p₁, counter, hi, rfl, rfl⟩
  case export_ =>
    simp only [parseSection, bind_eq_ok, pure_eq_ok, Prod.exists, Prod.mk.injEq] at h ⊢
    obtain ⟨exports, p₁, hi, u, hv, rfl, rfl⟩ := h
    exact ⟨exports, p₁, hi, u, hv, rfl, rfl⟩
  case start =>
    simp only [parseSection, parseStartSection, bind_eq_ok, vmAssert_eq_ok, pure_eq_ok, Prod.exists,
      exists_const, Prod.mk.injEq] at h ⊢
    obtain ⟨start, p₁, hi, ft, hft, hassert, rfl, rfl⟩ := h
    exact ⟨start, p₁, hi, ft, hft, hassert, rfl, rfl⟩
  case data =>
    simp only [parseSection, parseDataSection, bind_eq_ok, vmAssert_eq_ok, pure_eq_ok, Prod.exists,
      exists_const, Prod.mk.injEq] at h ⊢
    obtain ⟨data, p₁, hi, hassert, rfl, rfl⟩ := h
    exact ⟨data, p₁, hi, hassert, rfl, rfl⟩

/-- The code section alone fills in the bodies. -/
theorem parseSection_keepsCode {o : Options} {id : SectionId} (hid : id ≠ .code) {p q : WasmCodePtr}
    {st t : ParserState W} (h : parseSection o id p st = .ok (t, q)) :
    t.mod.code = st.mod.code ∧ t.functionBodies = st.functionBodies ∧ t.written = st.written ∧
      (id ≠ .import_ → t.mod.imports = st.mod.imports) := by
  cases id
  case code => exact absurd rfl hid
  case custom =>
    simp only [parseSection, parseCustom, bind_eq_ok, Prod.exists] at h
    obtain ⟨name, p₁, -, h⟩ := h
    split at h
    · simp only [bind_eq_ok, pure_eq_ok, Prod.exists, Prod.mk.injEq] at h
      obtain ⟨names, p₂, -, rfl, -⟩ := h
      exact ⟨rfl, rfl, rfl, fun _ => rfl⟩
    · simp only [bind_eq_ok, pure_eq_ok, Prod.mk.injEq] at h
      obtain ⟨p₂, -, rfl, -⟩ := h
      exact ⟨rfl, rfl, rfl, fun _ => rfl⟩
  case import_ =>
    simp only [parseSection, bind_eq_ok, pure_eq_ok, Prod.exists, Prod.mk.injEq] at h
    obtain ⟨imports, p₁, -, rfl, -⟩ := h
    exact ⟨rfl, rfl, rfl, fun hne => absurd rfl hne⟩
  case type | table | memory | element | dataCount =>
    simp only [parseSection, bind_eq_ok, pure_eq_ok, Prod.exists, Prod.mk.injEq] at h
    obtain ⟨items, p₁, -, rfl, -⟩ := h
    exact ⟨rfl, rfl, rfl, fun _ => rfl⟩
  case function =>
    simp only [parseSection, parseFunctionSection, bind_eq_ok, pure_eq_ok, Prod.exists,
      Prod.mk.injEq] at h
    obtain ⟨functions, p₁, -, aliases, fast, -, rfl, -⟩ := h
    exact ⟨rfl, rfl, rfl, fun _ => rfl⟩
  case global =>
    simp only [parseSection, bind_eq_ok, pure_eq_ok, Prod.exists, Prod.mk.injEq] at h
    obtain ⟨globals, p₁, counter, -, rfl, -⟩ := h
    exact ⟨rfl, rfl, rfl, fun _ => rfl⟩
  case export_ =>
    simp only [parseSection, bind_eq_ok, pure_eq_ok, Prod.exists, Prod.mk.injEq] at h
    obtain ⟨exports, p₁, -, u, -, rfl, -⟩ := h
    exact ⟨rfl, rfl, rfl, fun _ => rfl⟩
  case start =>
    simp only [parseSection, parseStartSection, bind_eq_ok, vmAssert_eq_ok, pure_eq_ok, Prod.exists,
      exists_const, Prod.mk.injEq] at h
    obtain ⟨start, p₁, -, ft, -, -, rfl, -⟩ := h
    exact ⟨rfl, rfl, rfl, fun _ => rfl⟩
  case data =>
    simp only [parseSection, parseDataSection, bind_eq_ok, vmAssert_eq_ok, pure_eq_ok, Prod.exists,
      exists_const, Prod.mk.injEq] at h
    obtain ⟨data, p₁, -, -, rfl, -⟩ := h
    exact ⟨rfl, rfl, rfl, fun _ => rfl⟩

/-- The immediates in the prologues of the finished code. -/
def limitEntries {b : Bool} (st : ParserState (machineWriter b)) : List Nat :=
  match st.written with
  | some writer => MachineState.limitEntries writer
  | none => []

/-- Both backends after the sections up to `highest`. -/
structure SameSections (o : Options) (highest : Nat) (sti : ParserState bitcodeWriter)
    (stj : ParserState (machineWriter o.maxStackBytes.isSome)) : Prop where
  fresh : highest < 11 → sti.erase = stj.erase ∧ sti.mod.code = [] ∧ sti.functionBodies = [] ∧
    stj.written = none
  imports : sti.mod.imports = stj.mod.imports
  sizes : o.maxStackBytes.isSome = true →
    sti.mod.code.map FunctionBody.stackSize = limitEntries stj

section

variable {o : Options} {highest : Nat} {p q q' : WasmCodePtr}
  {sti ti : ParserState bitcodeWriter} {stj tj : ParserState (machineWriter o.maxStackBytes.isSome)}

theorem SameSections.code (h : SameSections o highest sti stj) (hlt : highest < 11)
    (hi : parseCodeSection o p sti = .ok (ti, q)) (hj : parseCodeSection o p stj = .ok (tj, q')) :
    SameSections o 11 ti tj := by
  obtain ⟨herase, hcode, hbodies, hwritten⟩ := h.fresh hlt
  have hmod : sti.mod = stj.mod := congrArg ParserState.mod herase
  have hfunctions : sti.functionBodies = stj.functionBodies :=
    congrArg ParserState.functionBodies herase
  have himports := (parseCodeSection_accepted hbodies hi).2.2.1
  have himports' := (parseCodeSection_accepted (hfunctions ▸ hbodies) hj).2.2.1
  obtain ⟨_, _, _, _, _, himports⟩ := himports
  obtain ⟨_, _, _, _, _, himports'⟩ := himports'
  refine ⟨fun hfalse => absurd hfalse (lt_irrefl _), ?_, ?_⟩
  · rw [himports, himports']
    exact h.imports
  intro hbytes
  simp only [parseCodeSection, writeCodeOut, bind_eq_ok, vmAssert_eq_ok, pure_eq_ok, Prod.exists,
    exists_const, Prod.mk.injEq, beq_iff_eq] at hi hj
  obtain ⟨elems, mid, bodies, hitems, hlen, _, ⟨wi, -, sti₁, wi₁, hwi, rfl⟩, rfl, -⟩ := hi
  obtain ⟨elems', mid', bodies', hitems', -, _, ⟨wj, hstart, stj₁, wj₁, hwj, rfl⟩, rfl, -⟩ := hj
  rw [hmod, hfunctions, hitems', Except.ok.injEq, Prod.mk.injEq, Prod.mk.injEq] at hitems
  obtain ⟨rfl, rfl, rfl⟩ := hitems
  have hcount : bodies'.length = elems'.length := by
    simp only [parseSectionImpl, bind_eq_ok, Prod.exists] at hitems'
    obtain ⟨count, p₁, -, -, -, hparsed⟩ := hitems'
    obtain ⟨added, hadded, hadd, -⟩ := parseBodies_recorded hparsed
    rw [← hfunctions, hbodies, List.nil_append] at hadded
    rw [hadded, hadd]
  have hwrites : ∀ {W : CodeWriter} {st st' : ParserState W} {w w' : W.State} {i : Nat}
      {bodies : List (WasmCodePtr × LocalBytesChecker)},
      writeFunctions o i bodies st w = .ok (st', w') →
        st'.mod.code.length = st.mod.code.length := by
    intro W st st' w w' i bodies
    induction bodies generalizing i st w with
    | nil =>
      intro hrun
      obtain ⟨rfl, -⟩ := Prod.mk.inj (pure_eq_ok.mp hrun)
      rfl
    | cons body bodies ih =>
      intro hrun
      obtain ⟨⟨st₁, w₁⟩, hfirst, hrest⟩ := bind_eq_ok.mp hrun
      rw [ih hrest]
      simp only [writeFunction, bind_eq_ok, pure_eq_ok, Prod.exists, Prod.mk.injEq] at hfirst
      obtain ⟨_, -, _, -, _, -, _, -, _, -, _, _, -, _, -, _, _, _, -, rfl, -⟩ := hfirst
      simp
  have hsizes : FrameSizes o (0 + bodies'.length) sti₁ stj₁ wj₁ := by
    refine writeFunctions_sizes ⟨?_, ?_, ?_⟩ hwi hwj
    · simp only [Module.beforeCode, hmod]
    · intro k _
      rfl
    · intro _
      obtain rfl := pure_eq_ok.mp hstart
      rfl
  have hall := hsizes.entries hbytes
  rw [Nat.zero_add, hcount, List.take_of_length_le (by rw [hwrites hwi])] at hall
  exact hall

/-- Every section that may come next keeps both backends the same. -/
theorem SameSections.step {id : SectionId} (h : SameSections o highest sti stj)
    (ho : id = .custom ∨ highest < id.order) (hi : parseSection o id p sti = .ok (ti, q))
    (hj : parseSection o id p stj = .ok (tj, q')) :
    SameSections o (max highest id.order) ti tj := by
  by_cases hid : id = .code
  · subst hid
    have hlt : highest < 11 := by simpa [SectionId.order] using ho
    have hmax : max highest SectionId.code.order = 11 := by
      simp only [SectionId.order]
      omega
    rw [hmax]
    exact h.code hlt hi hj
  obtain ⟨hcode, hbodies, -, himports⟩ := parseSection_keepsCode hid hi
  obtain ⟨-, -, hwritten, himports'⟩ := parseSection_keepsCode hid hj
  have herase : highest < 11 → ti.erase = tj.erase := by
    intro hlt
    have hei := parseSection_erase hid hi
    have hej := parseSection_erase hid hj
    rw [(h.fresh hlt).1, hej] at hei
    exact (Prod.mk.inj (Except.ok.inj hei)).1.symm
  refine ⟨?_, ?_, ?_⟩
  · intro hlt
    have hlt : highest < 11 := lt_of_le_of_lt (le_max_left _ _) hlt
    obtain ⟨-, hnone, hempty, hnew⟩ := h.fresh hlt
    exact ⟨herase hlt, hcode.trans hnone, hbodies.trans hempty, hwritten.trans hnew⟩
  · by_cases himport : id = .import_
    · subst himport
      have hlt : highest < 11 := by
        have : highest < 2 := by simpa [SectionId.order] using ho
        omega
      exact congrArg (fun st : ParserState bitcodeWriter => st.mod.imports) (herase hlt)
    · rw [himports himport, himports' himport]
      exact h.imports
  · intro hbytes
    rw [hcode, h.sizes hbytes]
    simp only [limitEntries, hwritten]

theorem runSections_same {secs : List ModuleSection} (h : SameSections o highest sti stj)
    (hi : runSections o secs highest sti = .ok ti) (hj : runSections o secs highest stj = .ok tj) :
    ∃ highest', SameSections o highest' ti tj := by
  induction secs generalizing highest sti stj with
  | nil =>
    obtain rfl := pure_eq_ok.mp hi
    obtain rfl := pure_eq_ok.mp hj
    exact ⟨highest, h⟩
  | cons sec secs ih =>
    simp only [runSections, bind_eq_ok, vmAssert_eq_ok, Prod.exists, exists_const, Bool.or_eq_true,
      beq_iff_eq, decide_eq_true_eq] at hi hj
    obtain ⟨ho, sti₁, last, hsec, -, hrest⟩ := hi
    obtain ⟨-, stj₁, last', hsec', -, hrest'⟩ := hj
    exact ih (h.step ho hsec hsec') hrest hrest'

end

/-- The module as the emitted code knows it. -/
def JitModule.ofParser {b : Bool} (st : ParserState (machineWriter b)) : JitModule where
  mod := st.mod
  usage := fun func => (limitEntries st).getD (func - st.mod.getImportedFunctionsSize) 0

/-- A module that both backends accept: the prologue of a function charges its frame size. -/
theorem parseModule_same {o : Options} {bytes : List UInt8} {sti : ParserState bitcodeWriter}
    {stj : ParserState (machineWriter o.maxStackBytes.isSome)}
    (hi : parseModule bitcodeWriter o bytes = .ok sti)
    (hj : parseModule (machineWriter o.maxStackBytes.isSome) o bytes = .ok stj) :
    sti.mod.imports = stj.mod.imports ∧
      sti.mod.stackLimitIsBytes = o.maxStackBytes.isSome ∧
      stj.mod.stackLimitIsBytes = o.maxStackBytes.isSome ∧
      (o.maxStackBytes.isSome = true →
        sti.mod.code.map FunctionBody.stackSize = limitEntries stj) := by
  obtain ⟨secs, st₁, hsecs, hrun, -, rfl⟩ := parseModule_sections hi
  obtain ⟨secs', st₁', hsecs', hrun', -, rfl⟩ := parseModule_sections hj
  rw [hsecs', Except.ok.injEq] at hsecs
  subst hsecs
  have hinitial : SameSections o 0 (ParserState.initial bitcodeWriter o)
      (ParserState.initial (machineWriter o.maxStackBytes.isSome) o) :=
    ⟨fun _ => ⟨rfl, rfl, rfl, rfl⟩, rfl, fun _ => rfl⟩
  obtain ⟨highest, hsame⟩ := runSections_same hinitial hrun hrun'
  exact ⟨hsame.imports, rfl, rfl, hsame.sizes⟩

end EosVm
