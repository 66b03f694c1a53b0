import EosVm.Invariants.Effects

/-!
# Calls on the code writer

The rule to carry a relation on the state of the writer from call to call through the parse of a
body.
-/

set_option autoImplicit false

namespace EosVm

open Lib

variable {W : CodeWriter}

/-- Every call that the parse of a body can make keeps the relation between the state before all of
them and the state now. -/
structure CodeWriter.Keeps (W : CodeWriter) (R : W.State → W.State → Prop) : Prop where
  refl : ∀ w, R w w
  trans : ∀ {w w₁ w₂}, R w w₁ → R w₁ w₂ → R w w₂
  emit : ∀ {op w w'}, W.emit op w = .ok w' → R w w'
  emitEnd : ∀ {w label w'}, W.emitEnd w = .ok (label, w') → R w w'
  emitReturn : ∀ {change rt w branch w'}, W.emitReturn change rt w = .ok (branch, w') → R w w'
  emitLoop : ∀ {w label w'}, W.emitLoop w = .ok (label, w') → R w w'
  emitIf : ∀ {w branch w'}, W.emitIf w = .ok (branch, w') → R w w'
  emitElse : ∀ {ifLoc w branch w'}, W.emitElse ifLoc w = .ok (branch, w') → R w w'
  emitBr : ∀ {change rt w branch w'}, W.emitBr change rt w = .ok (branch, w') → R w w'
  emitBrIf : ∀ {change rt w branch w'}, W.emitBrIf change rt w = .ok (branch, w') → R w w'
  emitBrTable : ∀ {size w handler w'}, W.emitBrTable size w = .ok (handler, w') → R w w'
  emitCase : ∀ {handler change rt w branch handler' w'},
    W.emitCase handler change rt w = .ok (branch, handler', w') → R w w'
  emitDefault : ∀ {handler change rt w branch w'},
    W.emitDefault handler change rt w = .ok (branch, w') → R w w'
  fixBranch : ∀ {branch label w w'}, W.fixBranch branch label w = .ok w' → R w w'

section

variable {env : BodyEnv} {s s' : BodyState W}

theorem push_writer {type : OperandType} (h : s.push env type = .ok s') : s'.writer = s.writer := by
  obtain ⟨tr, -, hs⟩ := bind_eq_ok.mp h
  rw [← pure_eq_ok.mp hs]

theorem pop_writer {expected : Option ValType} (h : s.pop env expected = .ok s') :
    s'.writer = s.writer := by
  obtain ⟨tr, -, hs⟩ := bind_eq_ok.mp h
  rw [← pure_eq_ok.mp hs]

theorem top_writer {expected : ValType} (h : s.top env expected = .ok s') :
    s'.writer = s.writer := by
  obtain ⟨tr, -, hs⟩ := bind_eq_ok.mp h
  rw [← pure_eq_ok.mp hs]

theorem popAny_writer {type : OperandType} (h : s.popAny env = .ok (type, s')) :
    s'.writer = s.writer := by
  obtain ⟨⟨t, tr⟩, -, hs⟩ := bind_eq_ok.mp h
  have hs' := (Prod.mk.inj (pure_eq_ok.mp hs)).2
  rw [← hs']

theorem popScope_writer {result : Option ValType} (h : s.popScope env result = .ok s') :
    s'.writer = s.writer := by
  obtain ⟨tr, -, hs⟩ := bind_eq_ok.mp h
  rw [← pure_eq_ok.mp hs]

theorem popAll_writer {types : List ValType} (h : s.popAll env types = .ok s') :
    s'.writer = s.writer := by
  induction types generalizing s with
  | nil => rw [← pure_eq_ok.mp h]
  | cons type types ih =>
    obtain ⟨mid, hm, hrest⟩ := bind_eq_ok.mp h
    rw [ih hrest, pop_writer hm]

theorem popOperands_writer {types : List ValType} (h : s.popOperands env types = .ok s') :
    s'.writer = s.writer := popAll_writer h

theorem pushResult_writer {ft : FuncType} (h : s.pushResult env ft = .ok s') :
    s'.writer = s.writer := by
  unfold BodyState.pushResult at h
  split at h
  · rw [← pure_eq_ok.mp h]
  · exact push_writer h

theorem onControl_writer (h : s.onControl env = .ok s') : s'.writer = s.writer := by
  unfold BodyState.onControl at h
  split at h
  · rw [← pure_eq_ok.mp h]
  · obtain ⟨-, -, hs⟩ := bind_eq_ok.mp h
    rw [← pure_eq_ok.mp hs]

theorem onEnd_writer (s : BodyState W) : (s.onEnd env).writer = s.writer := by
  unfold BodyState.onEnd
  split
  · rfl
  · split <;> rfl

theorem computeDepthChange_writer {label change : Nat} {rt : Option ValType}
    (h : s.computeDepthChange env label = .ok (change, rt, s')) : s'.writer = s.writer := by
  unfold BodyState.computeDepthChange at h
  split at h
  · cases h
  · simp only at h
    split at h
    · obtain ⟨-, -, rfl⟩ := Prod.mk.inj (pure_eq_ok.mp h) |>.imp id Prod.mk.inj
      rfl
    · simp only [bind_eq_ok, pure_eq_ok, Prod.mk.injEq] at h
      obtain ⟨s₁, ht, -, -, rfl⟩ := h
      exact top_writer ht

end

namespace CodeWriter.Keeps

variable {R : W.State → W.State → Prop} {env : BodyEnv} {s s' : BodyState W}

theorem emitted (hk : W.Keeps R) {op : EmitOp} (h : s.emit op = .ok s') : R s.writer s'.writer := by
  obtain ⟨w, hw, hs⟩ := bind_eq_ok.mp h
  rw [← pure_eq_ok.mp hs]
  exact hk.emit hw

theorem handleBranchTarget (hk : W.Keeps R) {label : Nat} {address : W.Branch}
    (h : s.handleBranchTarget label address = .ok s') : R s.writer s'.writer := by
  unfold BodyState.handleBranchTarget at h
  split at h
  · cases h
  · split at h
    · obtain ⟨w, hw, hs⟩ := bind_eq_ok.mp h
      rw [← pure_eq_ok.mp hs]
      exact hk.fixBranch hw
    · rw [← pure_eq_ok.mp h]
      exact hk.refl _

theorem branchTo (hk : W.Keeps R)
    {emitBranch : Nat → Option ValType → W.State → Except VmError (W.Branch × W.State)}
    (hbranch : ∀ {change rt w branch w'}, emitBranch change rt w = .ok (branch, w') → R w w')
    {label : Nat} (h : s.branchTo env emitBranch label = .ok s') : R s.writer s'.writer := by
  simp only [BodyState.branchTo, bind_eq_ok, Prod.exists] at h
  obtain ⟨change, rt, s₁, hd, branch, w, hw, hb⟩ := h
  rw [← computeDepthChange_writer hd]
  exact hk.trans (hbranch hw) (hk.handleBranchTarget hb)

theorem emitCases (hk : W.Keeps R) {labels : List Nat} {handler handler' : W.Handler}
    {result result' : Option (Option ValType)}
    (h : BodyState.emitCases env labels handler result s = .ok (handler', result', s')) :
    R s.writer s'.writer := by
  induction labels generalizing s handler result with
  | nil =>
    simp only [BodyState.emitCases, pure_eq_ok, Prod.mk.injEq] at h
    rw [← h.2.2]
    exact hk.refl _
  | cons label labels ih =>
    simp only [BodyState.emitCases, bind_eq_ok, Prod.exists] at h
    obtain ⟨change, rt, s₁, hd, branch, handler₁, w, hw, s₂, hb, -, -, hrest⟩ := h
    rw [← computeDepthChange_writer hd]
    exact hk.trans (hk.emitCase hw) (hk.trans (hk.handleBranchTarget hb) (ih hrest))

theorem brTable (hk : W.Keeps R) {labels : List Nat} {default : Nat}
    (h : s.brTable env labels default = .ok s') : R s.writer s'.writer := by
  simp only [BodyState.brTable, bind_eq_ok, vmAssert_eq_ok, pure_eq_ok, Prod.exists,
    exists_const] at h
  obtain ⟨-, s₁, hp, handler, w, hw, handler', result, s₂, hc, change, rt, s₃, hd, branch, w',
    hw', s₄, hb, -, rfl⟩ := h
  rw [← pop_writer hp]
  refine hk.trans (hk.emitBrTable hw) (hk.trans (hk.emitCases hc) ?_)
  rw [← computeDepthChange_writer hd]
  exact hk.trans (hk.emitDefault hw') (hk.handleBranchTarget hb)

theorem fixBranches (hk : W.Keeps R) {endPos : W.Label} {pending : List W.Branch} {w w' : W.State}
    (h : BodyState.fixBranches endPos pending w = .ok w') : R w w' := by
  induction pending generalizing w with
  | nil =>
    rw [← pure_eq_ok.mp h]
    exact hk.refl _
  | cons branch rest ih =>
    obtain ⟨mid, hm, hrest⟩ := bind_eq_ok.mp h
    exact hk.trans (hk.fixBranch hm) (ih hrest)

theorem fixRelocations (hk : W.Keeps R) {endPos : W.Label} {relocations : Relocations W}
    {w w' : W.State} (h : BodyState.fixRelocations endPos relocations w = .ok w') : R w w' := by
  cases relocations with
  | label target =>
    rw [← pure_eq_ok.mp h]
    exact hk.refl _
  | branches pending => exact hk.fixBranches h

theorem exitScope (hk : W.Keeps R) (h : s.exitScope env = .ok s') : R s.writer s'.writer := by
  unfold BodyState.exitScope at h
  split at h
  · cases h
  · simp only [bind_eq_ok, pure_eq_ok, vmAssert_eq_ok, Prod.exists, exists_const] at h
    obtain ⟨-, endPos, w, hw, w', hw', s₁, hp, rfl⟩ := h
    simp only [popScope_writer hp]
    exact hk.trans (hk.emitEnd hw) (hk.fixRelocations hw')

theorem elseScope (hk : W.Keeps R) (h : s.elseScope env = .ok s') : R s.writer s'.writer := by
  unfold BodyState.elseScope at h
  split at h
  · cases h
  · simp only [bind_eq_ok, vmAssert_eq_ok, exists_const] at h
    obtain ⟨-, h⟩ := h
    split at h
    · simp only [bind_eq_ok, pure_eq_ok, Prod.exists] at h
      obtain ⟨s₁, hp, s₂, hs, branch, w, hw, rfl⟩ := h
      rw [← pop_writer hp, ← popScope_writer hs]
      exact hk.emitElse hw
    · cases h

/-- An instruction. -/
theorem processInstr (hk : W.Keeps R) {atEnd : Bool} {instr : Instr}
    (h : EosVm.processInstr env atEnd instr s = .ok s') : R s.writer s'.writer := by
  cases instr <;>
    simp only [EosVm.processInstr, bind_eq_ok, pure_eq_ok, vmAssert_eq_ok, Prod.exists,
      exists_const, BodyState.checkInBounds, BodyState.requireMemory, BodyState.requireTable,
      BodyState.requireBulkMemory, checkMemarg_eq_ok, requireData_eq_ok] at h
  case unreachable =>
    obtain ⟨-, s₁, he, rfl⟩ := h
    change R s.writer s₁.writer
    exact hk.emitted he
  case nop => exact hk.emitted h
  case block bt =>
    obtain ⟨result, -, s₁, he, hc⟩ := h
    have hemit := hk.emitted he
    rw [onControl_writer hc]
    exact hemit
  case loop bt =>
    obtain ⟨result, -, pos, w, hw, hc⟩ := h
    rw [onControl_writer hc]
    exact hk.emitLoop hw
  case if_ bt =>
    obtain ⟨-, result, -, branch, w, hw, s₁, hp, hc⟩ := h
    rw [onControl_writer hc]
    change R s.writer s₁.writer
    rw [pop_writer hp]
    exact hk.emitIf hw
  case else_ =>
    obtain ⟨-, s₁, he, hc⟩ := h
    rw [onControl_writer hc]
    exact hk.elseScope he
  case end_ =>
    obtain ⟨-, s₁, he, -, rfl⟩ := h
    rw [onEnd_writer]
    exact hk.exitScope he
  case br label =>
    obtain ⟨-, s₁, hb, rfl⟩ := h
    change R s.writer s₁.writer
    exact hk.branchTo hk.emitBr hb
  case brIf label =>
    obtain ⟨-, s₁, hp, hb⟩ := h
    rw [← pop_writer hp]
    exact hk.branchTo hk.emitBrIf hb
  case brTable labels default =>
    obtain ⟨-, hb⟩ := h
    exact hk.brTable hb
  case return_ =>
    obtain ⟨-, s₁, hb, rfl⟩ := h
    change R s.writer s₁.writer
    exact hk.branchTo hk.emitReturn hb
  case call funcnum =>
    obtain ⟨-, ft, -, s₁, hp, -, s₂, hr, he⟩ := h
    rw [← popOperands_writer hp, ← pushResult_writer hr]
    exact hk.emitted he
  case callIndirect functypeidx =>
    obtain ⟨-, ft, -, -, s₁, hi, s₂, hp, -, s₃, hr, typeAlias, -, he⟩ := h
    rw [← pop_writer hi, ← popOperands_writer hp, ← pushResult_writer hr]
    exact hk.emitted he
  case drop =>
    obtain ⟨-, type, s₁, hp, he⟩ := h
    rw [← popAny_writer hp]
    exact hk.emitted he
  case select =>
    obtain ⟨-, s₁, hp, t0, s₂, h0, t1, s₃, h1, -, s₄, hpush, he⟩ := h
    rw [← pop_writer hp, ← popAny_writer h0, ← popAny_writer h1, ← push_writer hpush]
    exact hk.emitted he
  case getLocal localIdx =>
    obtain ⟨type, -, s₁, hp, he⟩ := h
    rw [← push_writer hp]
    exact hk.emitted he
  case setLocal localIdx =>
    obtain ⟨-, type, -, s₁, hp, he⟩ := h
    rw [← pop_writer hp]
    exact hk.emitted he
  case teeLocal localIdx =>
    obtain ⟨-, type, -, s₁, hp, he⟩ := h
    rw [← top_writer hp]
    exact hk.emitted he
  case getGlobal globalIdx =>
    obtain ⟨gl, -, s₁, hp, he⟩ := h
    rw [← push_writer hp]
    exact hk.emitted he
  case setGlobal globalIdx =>
    obtain ⟨-, gl, -, -, s₁, hp, he⟩ := h
    rw [← pop_writer hp]
    exact hk.emitted he
  case load op alignment offset =>
    obtain ⟨-, -, -, s₁, hp, s₂, hpush, he⟩ := h
    rw [← pop_writer hp, ← push_writer hpush]
    exact hk.emitted he
  case store op alignment offset =>
    obtain ⟨-, -, -, s₁, hv, s₂, hp, he⟩ := h
    rw [← pop_writer hv, ← pop_writer hp]
    exact hk.emitted he
  case currentMemory =>
    obtain ⟨-, s₁, hp, he⟩ := h
    rw [← push_writer hp]
    exact hk.emitted he
  case growMemory =>
    obtain ⟨-, -, s₁, hp, s₂, hpush, he⟩ := h
    rw [← pop_writer hp, ← push_writer hpush]
    exact hk.emitted he
  case i32Const v | i64Const v | f32Const v | f64Const v =>
    obtain ⟨s₁, he, hp⟩ := h
    rw [push_writer hp]
    exact hk.emitted he
  case v128Const v =>
    obtain ⟨-, s₁, he, hp⟩ := h
    rw [push_writer hp]
    exact hk.emitted he
  case numeric op =>
    obtain ⟨-, -, s₁, he, s₂, hp, hpush⟩ := h
    rw [push_writer hpush, popOperands_writer hp]
    exact hk.emitted he
  case loadLane op alignment offset lane =>
    obtain ⟨-, -, -, -, s₁, hv, s₂, hp, s₃, hpush, he⟩ := h
    rw [← pop_writer hv, ← pop_writer hp, ← push_writer hpush]
    exact hk.emitted he
  case storeLane op alignment offset lane =>
    obtain ⟨-, -, -, -, s₁, hv, s₂, hp, he⟩ := h
    rw [← pop_writer hv, ← pop_writer hp]
    exact hk.emitted he
  case i8x16Shuffle lanes =>
    obtain ⟨-, -, s₁, he, s₂, hv, s₃, hp, hpush⟩ := h
    rw [push_writer hpush, pop_writer hp, pop_writer hv]
    exact hk.emitted he
  case extractLane op lane =>
    obtain ⟨-, -, s₁, hp, s₂, hpush, he⟩ := h
    rw [← pop_writer hp, ← push_writer hpush]
    exact hk.emitted he
  case replaceLane op lane =>
    obtain ⟨-, -, s₁, hv, s₂, hp, s₃, hpush, he⟩ := h
    rw [← pop_writer hv, ← pop_writer hp, ← push_writer hpush]
    exact hk.emitted he
  case vecNumeric op =>
    obtain ⟨-, s₁, hp, s₂, hpush, he⟩ := h
    rw [← popOperands_writer hp, ← push_writer hpush]
    exact hk.emitted he
  case truncSat op =>
    obtain ⟨-, -, s₁, hp, s₂, hpush, he⟩ := h
    rw [← pop_writer hp, ← push_writer hpush]
    exact hk.emitted he
  case memoryInit x =>
    obtain ⟨-, -, -, s₁, hp, -, he⟩ := h
    rw [← popAll_writer hp]
    exact hk.emitted he
  case dataDrop x =>
    obtain ⟨-, -, -, he⟩ := h
    exact hk.emitted he
  case elemDrop x =>
    obtain ⟨-, -, -, he⟩ := h
    exact hk.emitted he
  case memoryCopy | memoryFill | tableCopy =>
    obtain ⟨-, -, -, s₁, hp, he⟩ := h
    rw [← popAll_writer hp]
    exact hk.emitted he
  case tableInit x =>
    obtain ⟨-, -, -, s₁, hp, he⟩ := h
    rw [← popAll_writer hp]
    exact hk.emitted he

/-- A body. -/
theorem parseBodyLoop (hk : W.Keeps R) {bounds fuel : Nat} {code : WasmCodePtr}
    (h : EosVm.parseBodyLoop env bounds fuel code s = .ok s') : R s.writer s'.writer := by
  induction fuel generalizing code s with
  | zero =>
    unfold EosVm.parseBodyLoop at h
    split at h
    · cases h
    · rw [← pure_eq_ok.mp h]
      exact hk.refl _
  | succ fuel ih =>
    unfold EosVm.parseBodyLoop at h
    split at h
    · simp only [bind_eq_ok, vmAssert_eq_ok, Prod.exists, exists_const] at h
      obtain ⟨-, instr, next, -, mid, hm, hrest⟩ := h
      exact hk.trans (hk.processInstr hm) (ih hrest)
    · rw [← pure_eq_ok.mp h]
      exact hk.refl _

/-- A decoded body. -/
theorem runInstrs (hk : W.Keeps R) {instrs : List Instr}
    (h : EosVm.runInstrs env instrs s = .ok s') : R s.writer s'.writer := by
  induction instrs generalizing s with
  | nil =>
    rw [← pure_eq_ok.mp h]
    exact hk.refl _
  | cons instr rest ih =>
    simp only [EosVm.runInstrs, bind_eq_ok, vmAssert_eq_ok, exists_const] at h
    obtain ⟨-, mid, hm, hrest⟩ := h
    exact hk.trans (hk.processInstr hm) (ih hrest)

end CodeWriter.Keeps

end EosVm
