import EosVm.Invariants.StackTypes
import EosVm.Invariants.TypingContext

/-!
# Typing of one instruction

The checks of the parser on an instruction, together with the steps its calls make between lists of
types, are the typing rule of the instruction.
-/

set_option autoImplicit false

namespace EosVm

open Lib

/-- What the parser checks on an instruction of WebAssembly 1.0 outside the operand stack. -/
def Guard (env : BodyEnv) (ctrl : List Ctrl) : Instr → Prop
  | .unreachable | .nop | .return_ | .drop | .select => True
  | .br label | .brIf label => ∃ k, ctrl[label]? = some k
  | .brTable labels default =>
    ∃ result, (∀ label ∈ labels, ctrl[label]?.map Ctrl.labelResult = some result) ∧
      ctrl[default]?.map Ctrl.labelResult = some result
  | .call funcnum => ∃ ft, env.mod.getFunctionType funcnum = .ok ft
  | .callIndirect functypeidx =>
    env.mod.tables ≠ [] ∧ ∃ ft, env.mod.types[functypeidx]? = some ft
  | .getLocal localIdx | .setLocal localIdx | .teeLocal localIdx =>
    ∃ t, env.localTypes.get localIdx = .ok t
  | .getGlobal globalIdx => ∃ gl, env.mod.globals[globalIdx]? = some gl
  | .setGlobal globalIdx =>
    ∃ gl, env.mod.globals[globalIdx]? = some gl ∧ gl.type.mutability = true
  | .load op alignment _ =>
    env.mod.memories ≠ [] ∧ (Spec.loadType op).isSome ∧ alignment ≤ op.maxAlignType.1
  | .store op alignment _ =>
    env.mod.memories ≠ [] ∧ (Spec.storeType op).isSome ∧ alignment ≤ op.maxAlignType.1
  | .currentMemory | .growMemory => env.mod.memories ≠ []
  | .i32Const _ | .i64Const _ | .f32Const _ | .f64Const _ | .numeric _ => True
  | _ => False

/-- The result of the label at the bottom of the control stack is that of the function. -/
def ReturnsResult (env : BodyEnv) (ctrl : List Ctrl) : Prop :=
  ctrl.getLast?.map Ctrl.labelResult = some env.ft.result

/-- The instruction has a typing that leads from `c` to `c'`. -/
def InstrTyped (env : BodyEnv) (ctrl : List Ctrl) (instr : Instr) (c c' : List ValType) : Prop :=
  ∃ before after frame, c = before ++ frame ∧ c' = after ++ frame ∧
    Spec.Step (env.context ctrl) instr before after

section

variable {env : BodyEnv} {ctrl : List Ctrl} {state : List StackEntry} {c c' : List ValType}

theorem context_label {label : Nat} {result : Option ValType} :
    (env.context ctrl).labels[label]? = some result ↔
      ctrl[label]?.map Ctrl.labelResult = some result := by
  rw [← List.getElem?_map]
  rfl

/-- Labels with one result. -/
theorem stackSteps_labels {labels : List Nat} {result : Option ValType}
    (h : ∀ label ∈ labels, ctrl[label]?.map Ctrl.labelResult = some result) :
    StackSteps (labels.flatMap (labelOps ctrl)) c c' ↔
      c' = c ∧ (labels = [] ∨ ∃ rest, c = result.toList ++ rest) := by
  induction labels with
  | nil => simp
  | cons label labels ih =>
    obtain ⟨hlabel, hlabels⟩ := List.forall_mem_cons.mp h
    obtain ⟨k, hk, rfl⟩ := Option.map_eq_some_iff.mp hlabel
    simp only [List.flatMap_cons, stackSteps_append, stackSteps_labelOps hk, reduceCtorEq,
      false_or]
    constructor
    · rintro ⟨c₁, ⟨rfl, rest, hrest⟩, htail⟩
      exact ⟨((ih hlabels).mp htail).1, rest, hrest⟩
    · rintro ⟨rfl, rest, hrest⟩
      exact ⟨c', ⟨rfl, rest, hrest⟩, (ih hlabels).mpr ⟨rfl, Or.inr ⟨rest, hrest⟩⟩⟩

theorem two_pow_le_iff {a b : Nat} : 2 ^ a ≤ 2 ^ b ↔ a ≤ b :=
  Nat.pow_le_pow_iff_right (by decide)

/-- A branch that ends the scope. -/
theorem stackSteps_branch {ops : List TrackerOp} {before : List ValType}
    (h : ∀ c₁, StackSteps ops c c₁ ↔ c₁ = c ∧ ∃ rest, c = before ++ rest) :
    StackSteps (ops ++ [.startUnreachable]) c c' ↔ ∃ rest, c = before ++ rest := by
  simp only [stackSteps_append, h, stackSteps_cons, stackStep_startUnreachable, stackSteps_nil]
  constructor
  · rintro ⟨c₁, ⟨rfl, hrest⟩, -⟩
    exact hrest
  · intro hrest
    exact ⟨c, ⟨rfl, hrest⟩, c', trivial, rfl⟩

/-- From checks and steps to the typing rule. -/
theorem instrTyped_of_steps (henv : env.Valid) (hret : ReturnsResult env ctrl) {instr : Instr}
    (hsel : instr ≠ .select) (hguard : Guard env ctrl instr)
    (h : StackSteps (instrOps env ctrl state instr) c c') : InstrTyped env ctrl instr c c' := by
  cases instr with
  | unreachable => exact ⟨c, c', [], (List.append_nil c).symm, (List.append_nil c').symm,
      .unreachable c c'⟩
  | nop =>
    obtain rfl := stackSteps_nil.mp h
    exact ⟨[], [], c', rfl, rfl, .nop⟩
  | br label =>
    obtain ⟨k, hk⟩ := hguard
    obtain ⟨rest, rfl⟩ := (stackSteps_branch fun _ => stackSteps_labelOps hk).mp h
    refine ⟨k.labelResult.toList ++ rest, c', [], by simp, by simp, .br rest c' ?_⟩
    rw [context_label, hk]
    rfl
  | return_ =>
    obtain ⟨k, hk, hresult⟩ := Option.map_eq_some_iff.mp hret
    rw [List.getLast?_eq_getElem?] at hk
    obtain ⟨rest, rfl⟩ := (stackSteps_branch fun _ => stackSteps_labelOps hk).mp h
    rw [hresult]
    exact ⟨env.ft.result.toList ++ rest, c', [], by simp, by simp, .return_ rest c'⟩
  | brIf label =>
    obtain ⟨k, hk⟩ := hguard
    simp only [instrOps, stackSteps_cons, stackStep_pop, stackSteps_labelOps hk] at h
    obtain ⟨c₁, rfl, rfl, rest, rfl⟩ := h
    refine ⟨.i32 :: k.labelResult.toList, k.labelResult.toList, rest, rfl, rfl, .brIf ?_⟩
    rw [context_label, hk]
    rfl
  | brTable labels default =>
    obtain ⟨result, hlabels, hdefault⟩ := hguard
    obtain ⟨k, hk, rfl⟩ := Option.map_eq_some_iff.mp hdefault
    simp only [instrOps, List.cons_append, List.append_assoc, stackSteps_cons, stackStep_pop,
      stackSteps_append, stackSteps_labels hlabels, stackSteps_labelOps hk] at h
    obtain ⟨c₁, rfl, c₂, ⟨rfl, -⟩, c₃, ⟨rfl, rest, rfl⟩, -⟩ := h
    refine ⟨.i32 :: (k.labelResult.toList ++ rest), c', [], by simp, by simp,
      .brTable rest c' ?_ ?_⟩
    · intro label hm
      exact context_label.mpr (hlabels label hm)
    · exact context_label.mpr hdefault
  | call funcnum =>
    obtain ⟨ft, hft⟩ := hguard
    obtain ⟨y, hy, htype⟩ := (getFunctionType_iff henv.imports).mp hft
    simp only [instrOps, hft, callOps, stackSteps_append, stackSteps_operandOps,
      stackSteps_resultOps] at h
    obtain ⟨frame, rfl, rfl⟩ := h
    exact ⟨_, _, frame, rfl, rfl, .call hy htype⟩
  | callIndirect functypeidx =>
    obtain ⟨htables, ft, hft⟩ := hguard
    simp only [instrOps, hft, callOps, stackSteps_cons, stackStep_pop, stackSteps_append,
      stackSteps_operandOps, stackSteps_resultOps] at h
    obtain ⟨c₁, rfl, frame, rfl, rfl⟩ := h
    exact ⟨_, _, frame, rfl, rfl, .callIndirect (List.length_pos_iff.mpr htables) hft⟩
  | drop =>
    simp only [instrOps, stackSteps_cons, stackStep_popAny, stackSteps_nil] at h
    obtain ⟨c₁, ⟨t, rfl⟩, rfl⟩ := h
    exact ⟨[t], [], c', rfl, rfl, .drop t⟩
  | select => exact absurd rfl hsel
  | getLocal x =>
    obtain ⟨t, ht⟩ := hguard
    simp only [instrOps, ht, stackSteps_cons, stackStep_push, stackSteps_nil] at h
    obtain ⟨c₁, rfl, rfl⟩ := h
    exact ⟨[], [t], c, rfl, rfl, .getLocal ((LocalTypes.get_iff henv.locals).mp ht)⟩
  | setLocal x =>
    obtain ⟨t, ht⟩ := hguard
    simp only [instrOps, ht, stackSteps_cons, stackStep_pop, stackSteps_nil] at h
    obtain ⟨c₁, rfl, rfl⟩ := h
    exact ⟨[t], [], c', rfl, rfl, .setLocal ((LocalTypes.get_iff henv.locals).mp ht)⟩
  | teeLocal x =>
    obtain ⟨t, ht⟩ := hguard
    simp only [instrOps, ht, stackSteps_cons, stackStep_top, stackSteps_nil] at h
    obtain ⟨c₁, ⟨rfl, rest, rfl⟩, rfl⟩ := h
    exact ⟨[t], [t], rest, rfl, rfl, .teeLocal ((LocalTypes.get_iff henv.locals).mp ht)⟩
  | getGlobal x =>
    obtain ⟨gl, hgl⟩ := hguard
    simp only [instrOps, hgl, stackSteps_cons, stackStep_push, stackSteps_nil] at h
    obtain ⟨c₁, rfl, rfl⟩ := h
    have hglobal : (env.context ctrl).globals[x]? =
        some (gl.type.contentType, gl.type.mutability) :=
      (List.getElem?_map ..).trans (congrArg _ hgl)
    exact ⟨[], [gl.type.contentType], c, rfl, rfl, .getGlobal hglobal⟩
  | setGlobal x =>
    obtain ⟨gl, hgl, hmut⟩ := hguard
    simp only [instrOps, hgl, stackSteps_cons, stackStep_pop, stackSteps_nil] at h
    obtain ⟨c₁, rfl, rfl⟩ := h
    have hglobal : (env.context ctrl).globals[x]? = some (gl.type.contentType, true) := by
      refine (List.getElem?_map ..).trans ?_
      rw [hgl, Option.map_some, hmut]
    exact ⟨[gl.type.contentType], [], c', rfl, rfl, .setGlobal hglobal⟩
  | load op alignment offset =>
    obtain ⟨hmem, hop, halign⟩ := hguard
    simp only [instrOps, stackSteps_cons, stackStep_pop, stackStep_push, stackSteps_nil] at h
    obtain ⟨c₁, rfl, c₂, rfl, rfl⟩ := h
    exact ⟨[.i32], [_], c₁, rfl, rfl, .load (List.length_pos_iff.mpr hmem) (loadType_iff hop)
      (two_pow_le_iff.mpr halign)⟩
  | store op alignment offset =>
    obtain ⟨hmem, hop, halign⟩ := hguard
    simp only [instrOps, stackSteps_cons, stackStep_pop, stackSteps_nil] at h
    obtain ⟨c₁, rfl, c₂, rfl, rfl⟩ := h
    exact ⟨[_, .i32], [], c', rfl, rfl, .store (List.length_pos_iff.mpr hmem) (storeType_iff hop)
      (two_pow_le_iff.mpr halign)⟩
  | currentMemory =>
    simp only [instrOps, stackSteps_cons, stackStep_push, stackSteps_nil] at h
    obtain ⟨c₁, rfl, rfl⟩ := h
    exact ⟨[], [.i32], c, rfl, rfl, .currentMemory (List.length_pos_iff.mpr hguard)⟩
  | growMemory =>
    simp only [instrOps, stackSteps_cons, stackStep_pop, stackStep_push, stackSteps_nil] at h
    obtain ⟨c₁, rfl, c₂, rfl, rfl⟩ := h
    exact ⟨[.i32], [.i32], c₁, rfl, rfl, .growMemory (List.length_pos_iff.mpr hguard)⟩
  | i32Const v =>
    simp only [instrOps, stackSteps_cons, stackStep_push, stackSteps_nil] at h
    obtain ⟨c₁, rfl, rfl⟩ := h
    exact ⟨[], [.i32], c, rfl, rfl, .i32Const v⟩
  | i64Const v =>
    simp only [instrOps, stackSteps_cons, stackStep_push, stackSteps_nil] at h
    obtain ⟨c₁, rfl, rfl⟩ := h
    exact ⟨[], [.i64], c, rfl, rfl, .i64Const v⟩
  | f32Const v =>
    simp only [instrOps, stackSteps_cons, stackStep_push, stackSteps_nil] at h
    obtain ⟨c₁, rfl, rfl⟩ := h
    exact ⟨[], [.f32], c, rfl, rfl, .f32Const v⟩
  | f64Const v =>
    simp only [instrOps, stackSteps_cons, stackStep_push, stackSteps_nil] at h
    obtain ⟨c₁, rfl, rfl⟩ := h
    exact ⟨[], [.f64], c, rfl, rfl, .f64Const v⟩
  | numeric op =>
    simp only [instrOps, stackSteps_append, stackSteps_operandOps, stackSteps_cons,
      stackStep_push, stackSteps_nil] at h
    obtain ⟨frame, rfl, c₂, rfl, rfl⟩ := h
    rw [← numericShape_type]
    exact ⟨_, _, frame, rfl, rfl, .numeric op⟩
  | block | loop | if_ | else_ | end_ | loadLane | storeLane | v128Const | i8x16Shuffle
  | extractLane | replaceLane | vecNumeric | truncSat | memoryInit | dataDrop | memoryCopy
  | memoryFill | tableInit | elemDrop | tableCopy => exact hguard.elim

/-- From the typing rule to checks and steps. -/
theorem steps_of_instrTyped (henv : env.Valid) (hret : ReturnsResult env ctrl) {instr : Instr}
    (hsel : instr ≠ .select) (h : InstrTyped env ctrl instr c c') :
    Guard env ctrl instr ∧ StackSteps (instrOps env ctrl state instr) c c' := by
  obtain ⟨before, after, frame, rfl, rfl, hstep⟩ := h
  cases hstep with
  | unreachable => exact ⟨trivial, by simp [instrOps]⟩
  | nop => exact ⟨trivial, .nil _⟩
  | br t _ hlabel =>
    obtain ⟨k, hk, rfl⟩ := Option.map_eq_some_iff.mp (context_label.mp hlabel)
    refine ⟨⟨k, hk⟩, (stackSteps_branch fun _ => stackSteps_labelOps hk).mpr ?_⟩
    exact ⟨t ++ frame, List.append_assoc ..⟩
  | brIf hlabel =>
    obtain ⟨k, hk, rfl⟩ := Option.map_eq_some_iff.mp (context_label.mp hlabel)
    refine ⟨⟨k, hk⟩, ?_⟩
    simp only [instrOps, List.cons_append, stackSteps_cons, stackStep_pop,
      stackSteps_labelOps hk]
    exact ⟨_, rfl, rfl, frame, rfl⟩
  | @brTable labels default result t _ hlabels hdefault =>
    have hall : ∀ label ∈ labels, ctrl[label]?.map Ctrl.labelResult = some result :=
      fun label hm => context_label.mp (hlabels label hm)
    have hlast := context_label.mp hdefault
    obtain ⟨k, hk, rfl⟩ := Option.map_eq_some_iff.mp hlast
    refine ⟨⟨_, hall, hlast⟩, ?_⟩
    have hrest : k.labelResult.toList ++ t ++ frame = k.labelResult.toList ++ (t ++ frame) :=
      List.append_assoc ..
    simp only [instrOps, List.cons_append, List.append_assoc, stackSteps_cons, stackStep_pop,
      stackSteps_append, stackSteps_labels hall, stackSteps_labelOps hk,
      stackStep_startUnreachable, stackSteps_nil]
    exact ⟨_, rfl, _, ⟨rfl, Or.inr ⟨_, rfl⟩⟩, _, ⟨rfl, _, rfl⟩, _, trivial, rfl⟩
  | return_ t =>
    obtain ⟨k, hk, hresult⟩ := Option.map_eq_some_iff.mp hret
    rw [List.getLast?_eq_getElem?] at hk
    refine ⟨trivial, (stackSteps_branch fun _ => stackSteps_labelOps hk).mpr ?_⟩
    rw [hresult]
    exact ⟨t ++ frame, List.append_assoc ..⟩
  | @call x y ft hfunc htype =>
    have hft := (getFunctionType_iff henv.imports).mpr ⟨y, hfunc, htype⟩
    refine ⟨⟨ft, hft⟩, ?_⟩
    simp only [instrOps, hft, callOps, stackSteps_append, stackSteps_operandOps,
      stackSteps_resultOps]
    exact ⟨frame, rfl, rfl⟩
  | @callIndirect x ft htable htype =>
    have hft : env.mod.types[x]? = some ft := htype
    refine ⟨⟨List.length_pos_iff.mp htable, ft, hft⟩, ?_⟩
    simp only [instrOps, hft, callOps, List.cons_append, stackSteps_cons, stackStep_pop,
      stackSteps_append, stackSteps_operandOps, stackSteps_resultOps]
    exact ⟨_, rfl, frame, rfl, rfl⟩
  | drop t =>
    simp only [Guard, instrOps, stackSteps_cons, stackStep_popAny, stackSteps_nil]
    exact ⟨trivial, _, ⟨t, rfl⟩, rfl⟩
  | select => exact absurd rfl hsel
  | getLocal hlocal =>
    have ht := (LocalTypes.get_iff henv.locals).mpr hlocal
    simp only [Guard, instrOps, ht, stackSteps_cons, stackStep_push, stackSteps_nil]
    exact ⟨⟨_, rfl⟩, _, rfl, rfl⟩
  | setLocal hlocal =>
    have ht := (LocalTypes.get_iff henv.locals).mpr hlocal
    simp only [Guard, instrOps, ht, stackSteps_cons, stackStep_pop, stackSteps_nil]
    exact ⟨⟨_, rfl⟩, _, rfl, rfl⟩
  | teeLocal hlocal =>
    have ht := (LocalTypes.get_iff henv.locals).mpr hlocal
    simp only [Guard, instrOps, ht, stackSteps_cons, stackStep_top, stackSteps_nil]
    exact ⟨⟨_, rfl⟩, _, ⟨rfl, _, rfl⟩, rfl⟩
  | @getGlobal x t mutable hglobal =>
    obtain ⟨gl, hgl, heq⟩ := Option.map_eq_some_iff.mp ((List.getElem?_map ..).symm.trans hglobal)
    obtain ⟨rfl, -⟩ := Prod.mk.inj heq
    simp only [Guard, instrOps, hgl, stackSteps_cons, stackStep_push, stackSteps_nil]
    exact ⟨⟨_, rfl⟩, _, rfl, rfl⟩
  | @setGlobal x t hglobal =>
    obtain ⟨gl, hgl, heq⟩ := Option.map_eq_some_iff.mp ((List.getElem?_map ..).symm.trans hglobal)
    obtain ⟨rfl, hmut⟩ := Prod.mk.inj heq
    simp only [Guard, instrOps, hgl, stackSteps_cons, stackStep_pop, stackSteps_nil]
    exact ⟨⟨_, rfl, hmut⟩, _, rfl, rfl⟩
  | @load op alignment offset bytes t hmem hop halign =>
    have hsome : (Spec.loadType op).isSome := by rw [hop]; rfl
    rw [loadType_iff hsome, Option.some.injEq] at hop
    obtain ⟨rfl, rfl⟩ := Prod.mk.inj hop
    refine ⟨⟨List.length_pos_iff.mp hmem, hsome, two_pow_le_iff.mp halign⟩, ?_⟩
    simp only [instrOps, stackSteps_cons, stackStep_pop, stackStep_push, stackSteps_nil]
    exact ⟨_, rfl, _, rfl, rfl⟩
  | @store op alignment offset bytes t hmem hop halign =>
    have hsome : (Spec.storeType op).isSome := by rw [hop]; rfl
    rw [storeType_iff hsome, Option.some.injEq] at hop
    obtain ⟨rfl, rfl⟩ := Prod.mk.inj hop
    refine ⟨⟨List.length_pos_iff.mp hmem, hsome, two_pow_le_iff.mp halign⟩, ?_⟩
    simp only [instrOps, stackSteps_cons, stackStep_pop, stackSteps_nil]
    exact ⟨_, rfl, _, rfl, rfl⟩
  | currentMemory hmem =>
    refine ⟨List.length_pos_iff.mp hmem, ?_⟩
    simp only [instrOps, stackSteps_cons, stackStep_push, stackSteps_nil]
    exact ⟨_, rfl, rfl⟩
  | growMemory hmem =>
    refine ⟨List.length_pos_iff.mp hmem, ?_⟩
    simp only [instrOps, stackSteps_cons, stackStep_pop, stackStep_push, stackSteps_nil]
    exact ⟨_, rfl, _, rfl, rfl⟩
  | i32Const | i64Const | f32Const | f64Const =>
    simp only [Guard, instrOps, stackSteps_cons, stackStep_push, stackSteps_nil]
    exact ⟨trivial, _, rfl, rfl⟩
  | numeric op =>
    rw [numericShape_type]
    simp only [Guard, instrOps, stackSteps_append, stackSteps_operandOps, stackSteps_cons,
      stackStep_push, stackSteps_nil]
    exact ⟨trivial, _, rfl, _, rfl, rfl⟩

end

end EosVm
