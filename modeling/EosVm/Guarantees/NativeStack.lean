import EosVm.Guarantees.CallLimits
import EosVm.Guarantees.OperandDepth
import EosVm.Guarantees.StackUsage
import EosVm.Invariants.DepthRun
import EosVm.Invariants.FrameCharge
import EosVm.Invariants.Indices
import EosVm.Invariants.JitChains
import EosVm.Source.JitLayout
import Mathlib.Algebra.Order.BigOperators.Group.List
import Mathlib.Algebra.Order.Group.Nat
import Mathlib.Tactic.Ring

/-!
# Native stack

`get_maximum_stack_size` reserves what the deepest call chain can push, in modules whose counts are
exact and for limits with which its arithmetic does not wrap around. No count covers the arguments
of the function that is executed, which `emit_sysv_abi_interface` pushes: they need room that the
chain leaves.
-/

set_option autoImplicit false

namespace EosVm

open Lib

variable {W : CodeWriter}

section

variable {o : Options} {d : OperandType → Nat} {tr tr' : Tracker}

end

/-- A point in the code of a function of an accepted module. -/
structure FramePoint (o : Options) (st : ParserState W) where
  index : Nat
  body : WasmCodePtr × LocalBytesChecker
  env : BodyEnv
  instrs : List Instr
  writer : W.State
  nested : Nat
  last : BodyState W
  fb : FunctionBody
  point : BodyPoint W
  code : st.mod.code[index]? = some fb
  recorded : st.functionBodies[index]? = some body
  accepted : BodyAccepted o st index body env instrs writer nested last
  reached : BodyReaches env (bodyStart env body.2 writer nested instrs) point

namespace FramePoint

variable {o : Options} {st : ParserState W}

def start (f : FramePoint o st) : BodyPoint W :=
  bodyStart f.env f.body.2 f.writer f.nested f.instrs

/-- The slots above the saved `rbp`: the locals of the prologue, and the operands. -/
def pushedSlots (f : FramePoint o st) : Nat :=
  MachineState.localSlots f.fb.locals + slots machineDepthForType f.point.state.opStack.state

/-- The bytes of the frame, with the return address and the saved `rbp`. -/
def bytes (f : FramePoint o st) : Nat := 16 + 8 * f.pushedSlots

/-- The code at the point is not known to be unreachable. -/
def Live (f : FramePoint o st) : Prop := unreachableTags f.point.state.opStack.state = 0

end FramePoint

/-- The slots of the arguments of a type. -/
def argumentSlots (ft : FuncType) : Nat :=
  (ft.paramTypes.map fun type => machineDepthForType (.val type)).sum

/-- The slots that `emit_sysv_abi_interface` pushes for the function that `execute` runs. -/
def entrySlots (mod : Module) (frame : JitFrame) : Nat :=
  match frame.funcs.getLast? with
  | none => 0
  | some (func, _) =>
    match mod.getFunctionType func with
    | .ok ft => argumentSlots ft
    | .error _ => 0

/-- The bytes on the stack that `execute` has reserved: the arguments of the function that it runs,
and the frames of all functions. -/
def chainBytes {o : Options} {st : ParserState W} (frame : JitFrame)
    (points : List (FramePoint o st)) : Nat :=
  8 * entrySlots st.mod frame + (points.map FramePoint.bytes).sum

/-- The loop of `emit_sysv_abi_interface` pushes a slot for each native value of the arguments. -/
theorem copyArgs_length (ft : FuncType) (args : List (ValType × BitVec 128))
    (hargs : args.map Prod.fst = ft.paramTypes) (stack : List (BitVec 64)) :
    (copyArgs (args.flatMap fun arg => appendArg arg.1 arg.2) stack).length =
      argumentSlots ft + stack.length := by
  have hcopy : ∀ data stack, (copyArgs data stack).length = data.length + stack.length := by
    intro data
    induction data with
    | nil => exact fun stack => (Nat.zero_add _).symm
    | cons v data ih =>
      intro stack
      rw [copyArgs, ih, List.length_cons, List.length_cons]
      omega
  have happend : ∀ type v, (appendArg type v).length = machineDepthForType (.val type) := by
    intro type v
    cases type <;> rfl
  rw [hcopy, argumentSlots, ← hargs, List.length_flatMap, List.map_map]
  simp only [happend, Function.comp_def]

section

variable {o : Options} {b : Bool} {st : ParserState (machineWriter b)}

end

section

variable {o : Options} {bytes : List UInt8}
  {st : ParserState (machineWriter o.maxStackBytes.isSome)}

end

/-- The start of a function of an accepted module. -/
theorem exists_framePoint {o : Options} {bytes : List UInt8} {st : ParserState W} {i : Nat}
    (h : parseModule W o bytes = .ok st) (hi : i < st.mod.code.length) :
    ∃ f : FramePoint o st, f.index = i ∧ f.point.state.opStack.state = [.scopeTag] := by
  obtain ⟨highest, hinv⟩ := parseModule_invariant h
  have hlen : i < st.functionBodies.length := by
    rw [← hinv.codeLength]
    exact hi
  obtain ⟨env, instrs, writer, nested, s, hacc⟩ :=
    hinv.bodies i st.functionBodies[i] (List.getElem?_eq_getElem hlen)
  exact ⟨⟨i, _, env, instrs, writer, nested, s, st.mod.code[i],
    bodyStart env st.functionBodies[i].2 writer nested instrs, List.getElem?_eq_getElem hi,
    List.getElem?_eq_getElem hlen, hacc, .refl⟩, rfl, Tracker.updateUsage_state ..⟩

/-- `execute` from an idle context runs the function. -/
theorem Jit.execute_trace (code : JitModule) (ctx : JitContext) (host func n ebx : Nat)
    (himported : code.mod.isImported func = false)
    (hebx : checkStackLimit code func ctx.remaining = some ebx) :
    ∃ (steps : List (TraceStep Jit Event Jit.Step)) (m : Jit) (frame : JitFrame),
      Trace (Jit.step code) Outcome.next ⟨ctx, []⟩ steps m ∧ frame ∈ m.frames ∧
        frame = ⟨ctx, false, ebx, [(func, ctx.remaining)], none⟩ := by
  have hstep : Jit.step code (.execute host func (some n)) ⟨ctx, []⟩ = some { next :=
      ⟨{ ctx with host := host }, [⟨ctx, false, ebx, [(func, ctx.remaining)], none⟩]⟩ } := by
    simp only [Jit.step, Jit.execute, himported, Bool.false_eq_true, if_false, hebx]
  exact ⟨_, _, _, .cons hstep (.nil _), List.mem_cons_self .., rfl⟩

/-- A function with four `i64` parameters and nothing else. -/
def argumentsSample : List UInt8 :=
  [0x00, 0x61, 0x73, 0x6d, 0x01, 0x00, 0x00, 0x00,
    0x01, 0x08, 0x01, 0x60, 0x04, 0x7e, 0x7e, 0x7e, 0x7e, 0x00,
    0x03, 0x02, 0x01, 0x00,
    0x0a, 0x04, 0x01, 0x02, 0x00, 0x0b]

/-- With the limit 1, 32 bytes are reserved for the function, and its arguments
alone are as many. -/
theorem argumentsSample_not_covered : ∃ st : ParserState (machineWriter false),
    parseModule (machineWriter false) {} argumentsSample = .ok st ∧
      ∃ (steps : List (TraceStep Jit Event Jit.Step)) (m : Jit) (frame : JitFrame)
        (f : FramePoint {} st),
        Trace (Jit.step (JitModule.ofParser st)) Outcome.next ⟨⟨0, 0, 1⟩, []⟩ steps m ∧
          frame ∈ m.frames ∧ frame.imported = false ∧
          [f].map FramePoint.index =
            frame.funcs.map (fun f => f.1 - st.mod.getImportedFunctionsSize) ∧ f.Live ∧
          chainBytes frame [f] = 48 ∧ frame.before.getMaximumStackSize st.mod = 32 := by
  have hsample : (do
      let st ← parseModule (machineWriter false) {} argumentsSample
      pure (st.mod.code.map FunctionBody.locals, st.mod.imports.length, st.mod.stackLimitIsBytes,
        entrySlots st.mod ⟨⟨0, 0, 1⟩, false, 1, [(0, 1)], none⟩,
        JitContext.getMaximumStackSize ⟨0, 0, 1⟩ st.mod)).toOption =
      some ([[]], 0, false, 4, 32) := by
    decide +kernel
  obtain ⟨st, h⟩ := exists_ok_of_isOk
    (show (parseModule (machineWriter false) {} argumentsSample).isOk = true by decide +kernel)
  simp only [h, ok_bind, toOption_eq_some, pure_eq_ok, Prod.mk.injEq] at hsample
  obtain ⟨hlocals, himports, hmode, hentry, hreserved⟩ := hsample
  have hlen : 0 < st.mod.code.length := by
    have hcount := congrArg List.length hlocals
    simp only [List.length_map, List.length_cons, List.length_nil] at hcount
    omega
  obtain ⟨f, hindex, hstate⟩ := exists_framePoint h hlen
  have hbytes : f.bytes = 16 := by
    have hfb : (st.mod.code.map FunctionBody.locals)[0]? = some f.fb.locals := by
      rw [List.getElem?_map, ← hindex, f.code]
      rfl
    rw [hlocals, List.getElem?_cons_zero, Option.some.injEq] at hfb
    rw [FramePoint.bytes, FramePoint.pushedSlots, ← hfb, hstate]
    rfl
  have himported : st.mod.isImported 0 = false := by
    simp [Module.isImported, Module.getImportedFunctionsSize, List.length_eq_zero_iff.mp himports]
  obtain ⟨steps, m, frame, htrace, hframe, rfl⟩ := Jit.execute_trace (JitModule.ofParser st)
    ⟨0, 0, 1⟩ 0 0 4 1 himported (by simp [Jit.checkStackLimit, JitModule.ofParser, hmode])
  refine ⟨st, h, steps, m, _, f, htrace, hframe, rfl, by simp [hindex], ?_, ?_, hreserved⟩
  · rw [FramePoint.Live, hstate]
    rfl
  · rw [chainBytes, hentry, List.map_singleton, List.sum_singleton, hbytes]

end EosVm
