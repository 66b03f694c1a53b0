import EosVm.Source.MachineWriter
import EosVm.Invariants.DepthRun
import EosVm.Invariants.Bodies
import EosVm.Source.BitcodeWriter

/-!
# Operand depth

The depth that `operand_stack_type_tracker` reports to the code writer is exact in a body exactly
when no operand of any type, made by `select` in unreachable code, is taken for a type with another
number of slots. `bitcode_writer` counts every operand once, so it never is; `machine_code_writer`
counts a vector twice.
-/

set_option autoImplicit false

namespace EosVm

open Lib

variable {W : CodeWriter}

/-- While the body is parsed from `start`, `compute_depth_change` is called for `label` in the state
`s`. -/
inductive BranchCall (env : BodyEnv) (start : BodyPoint W) : Nat → BodyState W → Prop where
  | br {p q : BodyPoint W} {label : Nat} : BodyReaches env start p → BodyStep env p q →
      p.rest = .br label :: q.rest → BranchCall env start label p.state
  | return_ {p q : BodyPoint W} : BodyReaches env start p → BodyStep env p q →
      p.rest = .return_ :: q.rest → BranchCall env start (p.state.pcStack.length - 1) p.state
  | brIf {p q : BodyPoint W} {label : Nat} {s : BodyState W} : BodyReaches env start p →
      BodyStep env p q → p.rest = .brIf label :: q.rest → p.state.pop env (some .i32) = .ok s →
      BranchCall env start label s
  | brTable {p q : BodyPoint W} {labels pre post : List Nat} {label default : Nat}
      {s₀ s : BodyState W} {w : W.State} {handler handler' : W.Handler}
      {result : Option (Option ValType)} :
      BodyReaches env start p → BodyStep env p q → p.rest = .brTable labels default :: q.rest →
      labels ++ [default] = pre ++ label :: post → p.state.pop env (some .i32) = .ok s₀ →
      W.emitBrTable labels.length s₀.writer = .ok (handler, w) →
      BodyState.emitCases env pre handler none { s₀ with writer := w } =
        .ok (handler', result, s) →
      BranchCall env start label s

/-- The state of a branch is reached from the start of its instruction by level calls. -/
theorem BranchCall.calls {env : BodyEnv} {start : BodyPoint W} {label : Nat} {s : BodyState W}
    (h : BranchCall env start label s) :
    ∃ (instr : Instr) (p q : BodyPoint W) (before after : List TrackerOp),
      BodyReaches env start p ∧ BodyStep env p q ∧ p.rest = instr :: q.rest ∧
      instrOps env p.state.ctrl p.state.opStack.state instr = before ++ after ∧
      (∀ op ∈ before, op.Level) ∧ Effect env before p.state s := by
  cases h with
  | @br p q label hp hstep hrest =>
    exact ⟨_, p, q, [], _, hp, hstep, hrest, rfl, by simp, ⟨rfl, rfl⟩⟩
  | @return_ p q hp hstep hrest =>
    exact ⟨_, p, q, [], _, hp, hstep, hrest, rfl, by simp, ⟨rfl, rfl⟩⟩
  | @brIf p q label s hp hstep hrest hpop =>
    refine ⟨_, p, q, [.pop (some .i32)], _, hp, hstep, hrest, rfl, ?_, Effect.pop hpop⟩
    simp [TrackerOp.Level]
  | @brTable p q labels pre post label default s₀ s w handler handler' result hp hstep hrest
      hlabels hpop hemit hcases =>
    refine ⟨_, p, q, .pop (some .i32) :: pre.flatMap (labelOps p.state.ctrl),
      (label :: post).flatMap (labelOps p.state.ctrl) ++ [.startUnreachable], hp, hstep, hrest,
      ?_, ?_, ?_⟩
    · have hall := congrArg (List.flatMap (labelOps p.state.ctrl)) hlabels
      simp only [List.flatMap_append, List.flatMap_singleton] at hall
      simp only [instrOps, List.cons_append, hall, List.append_assoc]
    · intro op hm
      rcases List.mem_cons.mp hm with rfl | hm
      · trivial
      · obtain ⟨l, -, hl⟩ := List.mem_flatMap.mp hm
        exact labelOps_level op hl
    · have heff := (Effect.pop hpop).trans ((Effect.writer s₀ w).trans (Effect.emitCases hcases))
      have hsame : BodyState.ctrl { s₀ with writer := w } = p.state.ctrl := (Effect.pop hpop).ctrl
      rw [hsame] at heff
      exact heff

/-- The slots of an optional result. -/
def resultSlots (d : OperandType → Nat) : Option ValType → Nat
  | none => 0
  | some type => d (.val type)

/-- The depth is the number of slots on the operand stack, at every point of the parse and after
every call; the end of a block leaves the depth of its entry and its result; and every depth change
is the number of slots above the label. -/
structure DepthExact (env : BodyEnv) (start : BodyPoint W) : Prop where
  points : ∀ p, BodyReaches env start p →
    p.state.opStack.operandDepth = slots W.getDepthForType p.state.opStack.state
  calls : ∀ op tr tr', TrackerCall env start op tr →
    op.run env.options W.getDepthForType tr = .ok tr' →
    tr'.operandDepth = slots W.getDepthForType tr'.state
  ends : ∀ p q back rest, BodyReaches env start p → BodyStep env p q →
    p.rest = .end_ :: q.rest → p.state.pcStack = back :: rest →
    q.state.opStack.operandDepth =
      back.operandDepth + resultSlots W.getDepthForType back.expectedResult
  branches : ∀ label s depthChange rt s', BranchCall env start label s →
    s.computeDepthChange env label = .ok (depthChange, rt, s') →
    depthChange = slotsAbove W.getDepthForType label s.opStack.state

section

variable {env : BodyEnv} {start : BodyPoint W} {bounds : Nat}

theorem NeverWidens.end_depth (hn : NeverWidens W.getDepthForType env start)
    (hd : SlotSizes W.getDepthForType)
    (hi : start.Initial bounds) (hb : bounds < 2 ^ 32) {p q : BodyPoint W} {back : PcElement W}
    {rest : List (PcElement W)} (hp : BodyReaches env start p) (hstep : BodyStep env p q)
    (hend : p.rest = .end_ :: q.rest) (hpc : p.state.pcStack = back :: rest) :
    q.state.opStack.operandDepth =
      back.operandDepth + resultSlots W.getDepthForType back.expectedResult := by
  have halign := hn.aligned hd hi hb hp
  have hdepth := hn.depth_eq hd hi hb (hp.tail hstep)
  obtain ⟨instr, hrest, hops, -⟩ := hstep.calls
  obtain ⟨rfl, -⟩ := List.cons.inj (hrest.symm.trans hend)
  have hctrl : p.state.ctrl = back.ctrl :: rest.map PcElement.ctrl := by
    rw [BodyState.ctrl, hpc, List.map_cons]
  rw [instrOps, runOps_singleton, hctrl] at hops
  obtain ⟨floor, hfloors, hstate⟩ := Tracker.popScope_floors hops
  rw [BodyState.Aligned, hctrl, hfloors] at halign
  have hback : back.operandDepth = slots W.getDepthForType floor := (List.cons.inj halign).1
  rw [hdepth, hstate, hback]
  change slots _ ((back.expectedResult.map _).toList ++ floor) = _
  cases back.expectedResult with
  | none => rfl
  | some type => exact Nat.add_comm _ _

theorem NeverWidens.branch_depth (hn : NeverWidens W.getDepthForType env start)
    (hd : SlotSizes W.getDepthForType)
    (hi : start.Initial bounds) (hb : bounds < 2 ^ 32) {label depthChange : Nat}
    {s s' : BodyState W} {rt : Option ValType} (h : BranchCall env start label s)
    (hchange : s.computeDepthChange env label = .ok (depthChange, rt, s')) :
    depthChange = slotsAbove W.getDepthForType label s.opStack.state := by
  obtain ⟨instr, p, q, before, after, hp, hstep, hrest, hops, hlevel, heff⟩ := h.calls
  have hpoint : TrackerPoint env start s.opStack :=
    ⟨instr, p, q, before, after, hp, hstep, hrest, hops, heff.ops⟩
  have hdepth := hn.call_depth_eq hd hi hb hpoint
  have hle := (hn.size_le hd hi.state hi.bytes hpoint).1
  have halign := hn.aligned hd hi hb hp
  rw [BodyState.Aligned, ← runOps_floors hlevel heff.ops, ← heff.ctrl] at halign
  unfold BodyState.computeDepthChange at hchange
  split at hchange
  · cases hchange
  next target htarget =>
    have hfloor : (scopeFloors W.getDepthForType s.opStack.state)[label]? =
        some target.operandDepth := by
      rw [← halign, List.getElem?_map, BodyState.ctrl_getElem?, htarget]
      rfl
    have hslots := slots_eq_above_floor hfloor
    have hlt : s.opStack.operandDepth < 2 ^ 32 := by
      rw [hdepth]
      omega
    have hd : depthChange = sub32 s.opStack.operandDepth target.operandDepth := by
      cases hr : target.labelResult with
      | none =>
        simp only [hr, pure_eq_ok, Prod.mk.injEq] at hchange
        exact hchange.1.symm
      | some type =>
        simp only [hr, bind_eq_ok, pure_eq_ok, Prod.mk.injEq] at hchange
        obtain ⟨-, -, rfl, -⟩ := hchange
        rfl
    rw [hd, sub32_of_le (by omega) hlt]
    omega

theorem NeverWidens.depthExact (hn : NeverWidens W.getDepthForType env start)
    (hd : SlotSizes W.getDepthForType)
    (hi : start.Initial bounds) (hb : bounds < 2 ^ 32) : DepthExact env start where
  points := fun _ hp => hn.depth_eq hd hi hb hp
  calls := fun _ _ _ hcall hrun => hn.call_depth_eq hd hi hb (hcall.after hrun)
  ends := fun _ _ _ _ hp hstep hend hpc => hn.end_depth hd hi hb hp hstep hend hpc
  branches := fun _ _ _ _ _ hbranch hchange => hn.branch_depth hd hi hb hbranch hchange

section

variable {o : Options} {d : OperandType → Nat} {tr tr' : Tracker}

/-- An operand of any type has one slot, so it can only be widened to a vector of two. -/
theorem SlotSizes.widens (hd : SlotSizes d) {type : ValType} (h : d (.val type) ≠ d .any) :
    d .any = 1 ∧ d (.val type) = 2 := by
  have hany := hd.scalar .any (by decide)
  have hone := hd.one_le (.val type)
  have htwo := hd.le_two (.val type)
  omega

/-- Popping an operand of any type as a vector subtracts one slot too many. -/
theorem Tracker.pop_widens (hd : SlotSizes d) {type : ValType}
    (hw : tr.state.head? = some (.operand .any) ∧ d (.val type) ≠ d .any)
    (hdepth : tr.operandDepth = slots d tr.state) (hrun : tr.pop o d (some type) = .ok tr') :
    tr'.operandDepth = sub32 (1 + slots d tr'.state) 2 ∧ d (.val type) = 2 := by
  obtain ⟨hhead, hne⟩ := hw
  obtain ⟨hany, htwo⟩ := hd.widens hne
  rcases pop_cases hrun with ⟨rest, hstate, -⟩ | ⟨entry, rest, hstate, -, rfl⟩
  · rw [hstate] at hhead
    cases hhead
  · refine ⟨?_, htwo⟩
    rw [hstate] at hhead
    obtain rfl : entry = .any := by simpa using hhead
    rw [remove_state, hstate, List.tail_cons]
    simp only [remove]
    rw [hdepth, hstate, slots_operand, hany, htwo]

/-- A push after it does not correct the depth. -/
theorem add32_sub32_ne (slots : Nat) : add32 (sub32 (1 + slots) 2) 2 ≠ 2 + slots := by
  unfold add32 sub32
  omega

theorem TrackerOp.WidensAny.depth_ne (hd : SlotSizes d) {op : TrackerOp} (hw : op.WidensAny d tr)
    (hdepth : tr.operandDepth = slots d tr.state) (hrun : op.run o d tr = .ok tr') :
    tr'.operandDepth ≠ slots d tr'.state := by
  -- what a push of the vector leaves after the pop
  have hpush : ∀ {mid : Tracker} {type : ValType}, d (.val type) = 2 →
      mid.operandDepth = sub32 (1 + slots d mid.state) 2 →
      mid.push o d (.val type) = .ok tr' → tr'.operandDepth ≠ slots d tr'.state := by
    intro mid type htwo hmid hpush
    rw [Tracker.push_state hpush, slots_operand, htwo]
    obtain ⟨-, checker, -, rfl⟩ := Tracker.push_cases hpush
    rw [Tracker.updateUsage_operandDepth]
    simp only [htwo, hmid]
    exact add32_sub32_ne _
  cases op with
  | pop expected =>
    cases expected with
    | none => exact hw.elim
    | some type =>
      rw [(Tracker.pop_widens hd hw hdepth hrun).1]
      unfold sub32
      omega
  | top type =>
    obtain ⟨mid, hpop, hp⟩ := Tracker.top_cases hrun
    obtain ⟨hmid, htwo⟩ := Tracker.pop_widens hd hw hdepth hpop
    exact hpush htwo hmid hp
  | popScope result =>
    cases result with
    | none => exact hw.elim
    | some type =>
      obtain ⟨popped, rest, hpop, hrest, hend⟩ := Tracker.popScope_cases hrun
      obtain ⟨hmid, htwo⟩ := Tracker.pop_widens hd hw hdepth hpop
      refine hpush htwo ?_ hend
      have hs := Tracker.closeUnreachable_slots (d := d) popped
      rw [hrest, slots_scopeTag] at hs
      rw [hs]
      simpa using hmid
  | push | popAny | startUnreachable | pushScope => exact hw.elim

end

/-- Where the depth is exact, it is so between any two calls. -/
theorem DepthExact.between (h : DepthExact env start) {tr : Tracker}
    (ht : TrackerPoint env start tr) : tr.operandDepth = slots W.getDepthForType tr.state := by
  obtain ⟨instr, p, q, before, after, hp, hstep, hrest, hops, hrun⟩ := ht
  rcases List.eq_nil_or_concat' before with rfl | ⟨before, op, rfl⟩
  · rw [← pure_eq_ok.mp hrun]
    exact h.points p hp
  · obtain ⟨mid, hmid, hlast⟩ := runOps_append.mp hrun
    rw [runOps_singleton] at hlast
    rw [List.append_assoc] at hops
    exact h.calls op mid tr ⟨instr, p, q, before, after, hp, hstep, hrest, hops, hmid⟩ hlast

/-- Every call of a run succeeds. -/
theorem TrackerCall.run {op : TrackerOp} {tr : Tracker} (h : TrackerCall env start op tr) :
    ∃ tr', op.run env.options W.getDepthForType tr = .ok tr' := by
  obtain ⟨instr, p, q, before, after, -, hstep, hrest, hops, hrun⟩ := h
  obtain ⟨instr', hrest', hall, -⟩ := hstep.calls
  obtain ⟨rfl, -⟩ := List.cons.inj (hrest.symm.trans hrest')
  rw [hops] at hall
  obtain ⟨mid, hmid, hall⟩ := runOps_append.mp hall
  obtain rfl := Except.ok.inj (hrun.symm.trans hmid)
  obtain ⟨tr', hop, -⟩ := bind_eq_ok.mp hall
  exact ⟨tr', hop⟩

theorem DepthExact.neverWidens (h : DepthExact env start) (hd : SlotSizes W.getDepthForType) :
    NeverWidens W.getDepthForType env start := by
  intro op tr hcall hw
  obtain ⟨tr', hop⟩ := hcall.run
  exact hw.depth_ne hd (h.between hcall.before) hop (h.calls op tr tr' hcall hop)

end

/-- For every body that `parse_function_body_code` accepts with either writer, the operand depth is
exact if and only if no call takes an operand of any type for a type with another number of slots.
With `bitcode_writer` no call does. The bytes of a body are counted by a `uint32_t`. -/
theorem depth_exact_iff_never_widens
    (hw : W.getDepthForType = bitcodeDepthForType ∨ W.getDepthForType = machineDepthForType)
    {env : BodyEnv} {buf : List UInt8} {raw bounds nested maximumStack : Nat}
    {checker : LocalBytesChecker} {writer : W.State} {s : BodyState W} (hb : bounds < 2 ^ 32)
    (h : parseFunctionBodyCode env (WasmCodePtr.make buf raw bounds) bounds checker writer nested =
      .ok (s, maximumStack)) :
    ∃ instrs, decodeBody env.options bounds (bounds + 1) (WasmCodePtr.make buf raw bounds) =
        .ok instrs ∧
      (DepthExact env (bodyStart env checker writer nested instrs) ↔
        NeverWidens W.getDepthForType env (bodyStart env checker writer nested instrs)) ∧
      (W.getDepthForType = bitcodeDepthForType →
        DepthExact env (bodyStart env checker writer nested instrs)) := by
  have hd : SlotSizes W.getDepthForType := by
    rcases hw with hw | hw <;> rw [hw]
    · exact SlotSizes.bitcode
    · exact SlotSizes.machine
  have hp := BodyPtr.make buf raw bounds
  obtain ⟨instrs, s₁, hdecode, -⟩ := parseFunctionBodyCode_accepted hp h
  have hbytes : codeBytes instrs ≤ bounds := by
    have hle := decodeBody_codeBytes hp hdecode
    omega
  have hi : (bodyStart env checker writer nested instrs).Initial bounds :=
    bodyStart_initial hbytes
  refine ⟨instrs, hdecode, ⟨fun hexact => hexact.neverWidens hd, fun hn => hn.depthExact hd hi hb⟩,
    fun hbit => ?_⟩
  have hn : NeverWidens W.getDepthForType env (bodyStart env checker writer nested instrs) := by
    rw [hbit]
    exact NeverWidens.bitcode
  exact hn.depthExact hd hi hb

/-- A function without parameters, locals and result in an empty module. -/
def plainEnv : BodyEnv where
  options := defaultOptions
  mod := {}
  typeAliases := []
  datacount := none
  ft := ⟨0x60, [], 0, none⟩
  localTypes := ⟨⟨0x60, [], 0, none⟩, [], [0]⟩

/-- `i32.const 7`, a block that a branch may leave and that ends in `unreachable`, `select`,
`v128.any_true` and `drop`, then `drop`. -/
def widenedBody : List UInt8 :=
  [0x41, 0x07, 0x02, 0x40, 0x41, 0x00, 0x0d, 0x00, 0x00, 0x1b, 0xfd, 0x53, 0x1a, 0x0b, 0x1a, 0x0b]

theorem widenedBody_bitcode_exact : ∃ s maximumStack instrs,
    parseFunctionBodyCode (W := bitcodeWriter) plainEnv (WasmCodePtr.make widenedBody 0 16) 16
        ⟨0, 0⟩ { fb := List.replicate 16 .raw } 0 = .ok (s, maximumStack) ∧
      DepthExact plainEnv
        (bodyStart (W := bitcodeWriter) plainEnv ⟨0, 0⟩ { fb := List.replicate 16 .raw } 0
          instrs) := by
  obtain ⟨⟨s, maximumStack⟩, h⟩ := exists_ok_of_isOk
    (show (parseFunctionBodyCode (W := bitcodeWriter) plainEnv (WasmCodePtr.make widenedBody 0 16)
      16 ⟨0, 0⟩ { fb := List.replicate 16 .raw } 0).isOk = true by decide +kernel)
  obtain ⟨instrs, -, -, hexact⟩ := depth_exact_iff_never_widens (Or.inl rfl) (by decide) h
  exact ⟨s, maximumStack, instrs, h, hexact rfl⟩

/-- The machine code writer is told a depth of `2 ^ 32 - 1` where the stack is empty. -/
theorem widenedBody_machine_not_exact : ∃ s maximumStack instrs,
    parseFunctionBodyCode (W := machineWriter false) plainEnv (WasmCodePtr.make widenedBody 0 16) 16
        ⟨0, 0⟩ {} 0 = .ok (s, maximumStack) ∧
      decodeBody defaultOptions 16 17 (WasmCodePtr.make widenedBody 0 16) = .ok instrs ∧
      ¬ DepthExact plainEnv
        (bodyStart (W := machineWriter false) plainEnv ⟨0, 0⟩ {} 0 instrs) := by
  have hfinal : (do
      let (s, _) ← parseFunctionBodyCode (W := machineWriter false) plainEnv
        (WasmCodePtr.make widenedBody 0 16) 16 ⟨0, 0⟩ {} 0
      pure (s.opStack.operandDepth, s.opStack.state)).toOption = some (2 ^ 32 - 1, []) := by
    decide +kernel
  obtain ⟨⟨s, maximumStack⟩, h⟩ := exists_ok_of_isOk
    (show (parseFunctionBodyCode (W := machineWriter false) plainEnv
      (WasmCodePtr.make widenedBody 0 16) 16 ⟨0, 0⟩ {} 0).isOk = true by decide +kernel)
  obtain ⟨instrs, s₁, hdecode, hrun, hrec, -, -⟩ :=
    parseFunctionBodyCode_accepted (BodyPtr.make widenedBody 0 16) h
  obtain rfl : s₁ = s := pure_eq_ok.mp hrec
  refine ⟨s₁, maximumStack, instrs, h, hdecode, ?_⟩
  intro hexact
  have hend := hexact.points _ (runInstrs_reaches hrun)
  simp only [h, ok_bind, toOption_eq_some, pure_eq_ok, Prod.mk.injEq] at hfinal
  rw [hfinal.1, hfinal.2] at hend
  cases hend

end EosVm
