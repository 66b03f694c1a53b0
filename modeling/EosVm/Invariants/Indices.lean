import EosVm.Invariants.Effects

/-!
# Indices in function bodies

Which index spaces the immediates of an instruction refer to, and that an accepted instruction
stays inside them.
-/

set_option autoImplicit false

namespace EosVm

open Lib

variable {W : CodeWriter}

/-- The number of open blocks after an instruction. -/
def nestingStep (depth : Nat) : Instr → Nat
  | .block _ | .loop _ | .if_ _ => depth + 1
  | .end_ => depth - 1
  | _ => depth

/-- The number of open blocks, the function itself included, after `instrs`. -/
def nesting (instrs : List Instr) : Nat := instrs.foldl nestingStep 1

theorem nestingStep_le (depth : Nat) (instr : Instr) : nestingStep depth instr ≤ depth + 1 := by
  cases instr with
  | block | loop | if_ => exact le_refl _
  | end_ => exact Nat.le_succ_of_le (Nat.sub_le depth 1)
  | _ => exact Nat.le_succ depth

/-- The control stack holds one element for each open block. -/
theorem processInstr_nesting {env : BodyEnv} {atEnd : Bool} {instr : Instr} {s s' : BodyState W}
    (h : processInstr env atEnd instr s = .ok s') :
    s'.pcStack.length = nestingStep s.pcStack.length instr := by
  have heff := (processInstr_effect h).ctrl
  have hlen := congrArg List.length heff
  rw [BodyState.ctrl_length] at hlen
  rw [hlen, ← BodyState.ctrl_length]
  cases instr <;> simp only [processInstr, bind_eq_ok] at h
  case block bt =>
    obtain ⟨result, hr, -⟩ := h
    rw [ctrlAfter_block hr]
    rfl
  case loop bt =>
    obtain ⟨result, hr, -⟩ := h
    rw [ctrlAfter_loop hr]
    rfl
  case if_ bt =>
    obtain ⟨-, -, result, hr, -⟩ := h
    rw [ctrlAfter_if hr]
    rfl
  case else_ => cases s.ctrl <;> rfl
  case end_ => exact List.length_tail
  all_goals rfl

/-- At every point reached, the control stack is as long as the nesting of what was read. -/
theorem BodyReaches.nesting {env : BodyEnv} {instrs post : List Instr} {s s' : BodyState W}
    (h : BodyReaches env ⟨instrs, s⟩ ⟨post, s'⟩) (hs : s.pcStack.length = 1) :
    ∃ pre, instrs = pre ++ post ∧ s'.pcStack.length = nesting pre := by
  suffices ∀ p q : BodyPoint W, BodyReaches env p q → ∃ pre, p.rest = pre ++ q.rest ∧
      q.state.pcStack.length = pre.foldl nestingStep p.state.pcStack.length by
    obtain ⟨pre, hpre, hlen⟩ := this _ _ h
    exact ⟨pre, hpre, by rw [hlen, hs]; rfl⟩
  intro p q hpq
  induction hpq with
  | refl => exact ⟨[], rfl, rfl⟩
  | @tail mid last _ hstep ih =>
    obtain ⟨pre, hpre, hlen⟩ := ih
    obtain ⟨instr, hrest, -, hproc⟩ := hstep
    refine ⟨pre ++ [instr], ?_, ?_⟩
    · rw [hpre, hrest, List.append_assoc]
      rfl
    · rw [processInstr_nesting hproc, hlen, List.foldl_append]
      rfl

theorem getImportedFunctionsSize_eq {mod : Module}
    (h : ∀ entry ∈ mod.imports, entry.kind = .function) :
    mod.getImportedFunctionsSize = mod.imports.length := by
  unfold Module.getImportedFunctionsSize
  rw [List.filter_eq_self.mpr]
  intro entry hentry
  rw [h entry hentry]
  rfl

theorem getFunctionType_mem {mod : Module} {f : Nat} {ft : FuncType}
    (h : mod.getFunctionType f = .ok ft) : ft ∈ mod.types := by
  unfold Module.getFunctionType at h
  split at h <;> simp only [bind_eq_ok, vectorAt_eq_ok] at h
  · obtain ⟨entry, -, hft⟩ := h
    exact List.mem_of_getElem? hft
  · obtain ⟨type, -, hft⟩ := h
    exact List.mem_of_getElem? hft

/-- The parameters and locals of a function. -/
def localsTotal (ft : FuncType) (locals : List LocalEntry) : Nat :=
  ft.paramTypes.length + (locals.map LocalEntry.count).sum

theorem makeBoundaries_getLast {count d : Nat} {locals : List LocalEntry} {boundaries : List Nat}
    (h : LocalTypes.makeBoundaries count locals = .ok boundaries) :
    boundaries.getLastD d = count + (locals.map LocalEntry.count).sum := by
  induction locals generalizing count d boundaries with
  | nil =>
    rw [← pure_eq_ok.mp h]
    simp
  | cons entry locals ih =>
    simp only [LocalTypes.makeBoundaries, bind_eq_ok, vmAssert_eq_ok, pure_eq_ok,
      exists_const] at h
    obtain ⟨-, rest, hrest, rfl⟩ := h
    rw [List.getLastD_cons, ih hrest]
    simp [Nat.add_assoc]

theorem LocalTypes.make_total {ft : FuncType} {locals : List LocalEntry} {lt : LocalTypes}
    (h : LocalTypes.make ft locals = .ok lt) :
    lt.boundaries.getLastD 0 = localsTotal ft locals ∧ lt.ft = ft ∧ lt.locals = locals := by
  simp only [LocalTypes.make, bind_eq_ok, pure_eq_ok] at h
  obtain ⟨boundaries, hb, rfl⟩ := h
  exact ⟨makeBoundaries_getLast hb, rfl, rfl⟩

theorem LocalTypes.get_lt {lt : LocalTypes} {localIdx : Nat} {type : ValType}
    (h : lt.get localIdx = .ok type) : localIdx < lt.boundaries.getLastD 0 := by
  simp only [LocalTypes.get, bind_eq_ok, vmAssert_eq_ok, decide_eq_true_eq] at h
  obtain ⟨-, hlt, -⟩ := h
  exact hlt

/-- The indices of an instruction lie in the index spaces of the module, the locals of the function
and the open blocks, and the memory or table it needs exists. Segment indices are separate. -/
def Instr.InRange (mod : Module) (locals depth : Nat) : Instr → Prop
  | .br label | .brIf label => label < depth
  | .brTable labels default => (∀ label ∈ labels, label < depth) ∧ default < depth
  | .call funcnum => funcnum < mod.getFunctionsTotal
  | .callIndirect functypeidx => functypeidx < mod.types.length ∧ mod.tables ≠ []
  | .getLocal localIdx | .setLocal localIdx | .teeLocal localIdx => localIdx < locals
  | .getGlobal globalIdx | .setGlobal globalIdx => globalIdx < mod.globals.length
  | .load _ _ _ | .store _ _ _ | .loadLane _ _ _ _ | .storeLane _ _ _ _ | .currentMemory
  | .growMemory | .memoryInit _ | .memoryCopy | .memoryFill => mod.memories ≠ []
  | .tableInit _ | .tableCopy => mod.tables ≠ []
  | _ => True

/-- The data segment index of an instruction is below the announced number of segments. -/
def Instr.DataInRange (n : Nat) : Instr → Prop
  | .memoryInit x | .dataDrop x => x < n
  | _ => True

theorem computeDepthChange_label {env : BodyEnv} {s s' : BodyState W} {label depthChange : Nat}
    {rt : Option ValType} (h : s.computeDepthChange env label = .ok (depthChange, rt, s')) :
    label < s.pcStack.length := by
  unfold BodyState.computeDepthChange at h
  split at h
  · cases h
  next target htarget => exact (List.getElem?_eq_some_iff.mp htarget).1

theorem branchTo_label {env : BodyEnv} {s s' : BodyState W} {label : Nat}
    {emitBranch : Nat → Option ValType → W.State → Except VmError (W.Branch × W.State)}
    (h : s.branchTo env emitBranch label = .ok s') : label < s.pcStack.length := by
  simp only [BodyState.branchTo, bind_eq_ok, Prod.exists] at h
  obtain ⟨depthChange, rt, s₁, hd, -⟩ := h
  exact computeDepthChange_label hd

theorem Effect.pcStack_length {env : BodyEnv} {ops : List TrackerOp} {s s' : BodyState W}
    (h : Effect env ops s s') : s'.pcStack.length = s.pcStack.length := by
  rw [← BodyState.ctrl_length, h.ctrl, BodyState.ctrl_length]

theorem emitCases_labels {env : BodyEnv} {s s' : BodyState W} {labels : List Nat}
    {handler handler' : W.Handler} {result result' : Option (Option ValType)}
    (h : BodyState.emitCases env labels handler result s = .ok (handler', result', s')) :
    ∀ label ∈ labels, label < s.pcStack.length := by
  induction labels generalizing s handler result with
  | nil => simp
  | cons first labels ih =>
    simp only [BodyState.emitCases, bind_eq_ok, Prod.exists] at h
    obtain ⟨depthChange, rt, s₁, hd, branch, handler₁, w, -, s₂, hb, -, -, hrest⟩ := h
    have hlen : s₂.pcStack.length = s.pcStack.length := by
      have htarget : Effect env [] _ s₂ := Effect.handleBranchTarget hb
      rw [htarget.pcStack_length]
      exact (Effect.computeDepthChange hd).pcStack_length
    intro label hmem
    rcases List.mem_cons.mp hmem with rfl | hmem
    · exact computeDepthChange_label hd
    · rw [← hlen]
      exact ih hrest label hmem

theorem getFunctionType_lt {mod : Module} {funcnum : Nat} {ft : FuncType}
    (h : mod.getFunctionType funcnum = .ok ft) : funcnum < mod.getFunctionsTotal := by
  unfold Module.getFunctionType at h
  unfold Module.getFunctionsTotal
  split at h
  next hlt => omega
  next hge =>
    simp only [bind_eq_ok, vectorAt_eq_ok] at h
    obtain ⟨type, ht, -⟩ := h
    have := (List.getElem?_eq_some_iff.mp ht).1
    omega

private theorem ne_nil_of_not_isEmpty {α : Type} {xs : List α} (h : (!xs.isEmpty) = true) :
    xs ≠ [] := by
  rintro rfl
  cases h

private theorem lt_of_getElem? {α : Type} {xs : List α} {i : Nat} {x : α} (h : xs[i]? = some x) :
    i < xs.length := (List.getElem?_eq_some_iff.mp h).1

/-- An accepted instruction stays inside the index spaces. -/
theorem processInstr_inRange {env : BodyEnv} {atEnd : Bool} {instr : Instr} {s s' : BodyState W}
    (h : processInstr env atEnd instr s = .ok s') :
    instr.InRange env.mod (env.localTypes.boundaries.getLastD 0) s.pcStack.length := by
  cases instr <;>
    simp only [processInstr, bind_eq_ok, pure_eq_ok, vmAssert_eq_ok, vectorAt_eq_ok, Prod.exists,
      exists_const, BodyState.checkInBounds, BodyState.requireMemory, BodyState.requireTable,
      BodyState.requireBulkMemory, checkMemarg_eq_ok, requireData_eq_ok] at h
  case br label =>
    obtain ⟨-, s₁, hb, -⟩ := h
    exact branchTo_label hb
  case brIf label =>
    obtain ⟨-, s₁, hp, hb⟩ := h
    have hlt := branchTo_label hb
    rwa [(Effect.pop hp).pcStack_length] at hlt
  case brTable labels default =>
    obtain ⟨-, hb⟩ := h
    simp only [BodyState.brTable, bind_eq_ok, vmAssert_eq_ok, pure_eq_ok, Prod.exists,
      exists_const] at hb
    obtain ⟨-, s₁, hp, handler, w, -, handler', result, s₂, hc, depthChange, rt, s₃, hd, -⟩ := hb
    have hpop := (Effect.pop hp).pcStack_length
    have hcases := emitCases_labels hc
    have hdefault := computeDepthChange_label hd
    rw [(Effect.emitCases hc).pcStack_length] at hdefault
    simp only [hpop] at hcases hdefault
    exact ⟨hcases, hdefault⟩
  case call funcnum =>
    obtain ⟨-, ft, hft, -⟩ := h
    exact getFunctionType_lt hft
  case callIndirect functypeidx =>
    obtain ⟨-, ft, hft, ht, -⟩ := h
    exact ⟨lt_of_getElem? hft, ne_nil_of_not_isEmpty ht⟩
  case getLocal localIdx =>
    obtain ⟨type, ht, -⟩ := h
    exact LocalTypes.get_lt ht
  case setLocal localIdx =>
    obtain ⟨-, type, ht, -⟩ := h
    exact LocalTypes.get_lt ht
  case teeLocal localIdx =>
    obtain ⟨-, type, ht, -⟩ := h
    exact LocalTypes.get_lt ht
  case getGlobal globalIdx =>
    obtain ⟨gl, hg, -⟩ := h
    exact lt_of_getElem? hg
  case setGlobal globalIdx =>
    obtain ⟨-, gl, hg, -⟩ := h
    exact lt_of_getElem? hg
  case currentMemory =>
    obtain ⟨hm, -⟩ := h
    exact ne_nil_of_not_isEmpty hm
  case load op alignment offset =>
    obtain ⟨-, hm, -⟩ := h
    exact ne_nil_of_not_isEmpty hm
  case store op alignment offset =>
    obtain ⟨-, hm, -⟩ := h
    exact ne_nil_of_not_isEmpty hm
  case loadLane op alignment offset lane =>
    obtain ⟨-, hm, -⟩ := h
    exact ne_nil_of_not_isEmpty hm
  case storeLane op alignment offset lane =>
    obtain ⟨-, hm, -⟩ := h
    exact ne_nil_of_not_isEmpty hm
  case growMemory =>
    obtain ⟨-, hm, -⟩ := h
    exact ne_nil_of_not_isEmpty hm
  case memoryInit x =>
    obtain ⟨-, -, hm, -⟩ := h
    exact ne_nil_of_not_isEmpty hm
  case memoryCopy | memoryFill | tableCopy =>
    obtain ⟨-, -, hm, -⟩ := h
    exact ne_nil_of_not_isEmpty hm
  case tableInit x =>
    obtain ⟨-, -, ht, -⟩ := h
    exact ne_nil_of_not_isEmpty ht
  all_goals exact trivial

/-- An accepted `memory.init` or `data.drop` refers to an announced segment. -/
theorem processInstr_dataInRange {env : BodyEnv} {atEnd : Bool} {instr : Instr}
    {s s' : BodyState W} (h : processInstr env atEnd instr s = .ok s') :
    instr.DataInRange (env.datacount.getD 0) := by
  cases instr <;>
    simp only [processInstr, bind_eq_ok, vmAssert_eq_ok, exists_const, BodyState.checkInBounds,
      BodyState.requireMemory, BodyState.requireBulkMemory, requireData_eq_ok] at h
  case memoryInit x =>
    obtain ⟨-, -, -, s₁, -, ⟨n, hn, hx⟩, -⟩ := h
    simpa only [Instr.DataInRange, hn, Option.getD_some] using hx
  case dataDrop x =>
    obtain ⟨-, -, ⟨n, hn, hx⟩, -⟩ := h
    simpa only [Instr.DataInRange, hn, Option.getD_some] using hx
  all_goals exact trivial

/-- An accepted `elem.drop` refers to an existing segment. -/
theorem processInstr_elemDrop {env : BodyEnv} {atEnd : Bool} {x : Nat} {s s' : BodyState W}
    (h : processInstr env atEnd (.elemDrop x) s = .ok s') : x < env.mod.elements.length := by
  simp only [processInstr, bind_eq_ok, vmAssert_eq_ok, exists_const, BodyState.checkInBounds,
    BodyState.requireBulkMemory, decide_eq_true_eq] at h
  obtain ⟨-, -, hx, -⟩ := h
  exact hx

end EosVm
