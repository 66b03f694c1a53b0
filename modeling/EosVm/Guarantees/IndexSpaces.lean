import EosVm.Invariants.ModuleState
import EosVm.Source.BitcodeWriter

/-!
# Index spaces of an accepted module

The linker, the machine code writer and the execution contexts index the vectors of a module
without checks. Every such index has been checked by the parser, in one place or another.
-/

set_option autoImplicit false

namespace EosVm

open Lib

variable {W : CodeWriter}

theorem Instr.inRange_beforeCode (mod : Module) (locals depth : Nat) (instr : Instr) :
    instr.InRange mod.beforeCode locals depth ↔ instr.InRange mod locals depth := by
  cases instr <;> exact Iff.rfl

/-- The instruction after `pre` in an accepted body is processed at a state with as many open
blocks as `pre` leaves. -/
theorem BodyAccepted.processed {o : Options} {st : ParserState W} {i nested : Nat}
    {body : WasmCodePtr × LocalBytesChecker} {env : BodyEnv} {pre post : List Instr}
    {instr : Instr} {writer : W.State} {s : BodyState W}
    (h : BodyAccepted o st i body env (pre ++ instr :: post) writer nested s) :
    ∃ s₁ s₂ : BodyState W, s₁.pcStack.length = nesting pre ∧
      processInstr env post.isEmpty instr s₁ = .ok s₂ := by
  obtain ⟨s₁, s₂, hreach, ⟨instr', heq, -, hproc⟩, -⟩ := runInstrs_split h.accepted
  obtain ⟨pre', hpre, hlen⟩ := hreach.nesting rfl
  obtain rfl : pre = pre' := List.append_cancel_right hpre
  obtain ⟨rfl, -⟩ := List.cons.inj heq
  exact ⟨s₁, s₂, hlen, hproc⟩

/-- All immediates of an accepted body are in range. -/
theorem BodyAccepted.inRange {o : Options} {st : ParserState W} {i nested : Nat}
    {body : WasmCodePtr × LocalBytesChecker} {env : BodyEnv} {instrs : List Instr}
    {writer : W.State} {s : BodyState W} (h : BodyAccepted o st i body env instrs writer nested s) :
    ∃ fb, st.mod.code[i]? = some fb ∧ ∀ pre instr post, instrs = pre ++ instr :: post →
      instr.InRange st.mod (localsTotal env.ft fb.locals) (nesting pre) := by
  obtain ⟨fb, hfb, hmake, -⟩ := h.locals
  refine ⟨fb, hfb, ?_⟩
  rintro pre instr post rfl
  obtain ⟨s₁, s₂, hlen, hproc⟩ := h.processed
  have hrange := processInstr_inRange hproc
  rw [hlen, (LocalTypes.make_total hmake).1, ← Instr.inRange_beforeCode, h.mod,
    Instr.inRange_beforeCode] at hrange
  exact hrange

/-- `P` holds of every instruction of the module's code. -/
def CodeForall (o : Options) (st : ParserState W) (P : Instr → Prop) : Prop :=
  ∀ (i : Nat) (body : WasmCodePtr × LocalBytesChecker), st.functionBodies[i]? = some body →
    ∃ instrs, decodeBody o body.1.bounds (body.1.bounds + 1) body.1 = .ok instrs ∧
      ∀ instr ∈ instrs, P instr

/-- Every index of the module that later stages use without a check is below the size of the vector
it indexes. Segment indices of `memory.init`, `data.drop`, `table.init` and `elem.drop` are not
part of this. -/
structure IndexSpacesClosed (o : Options) (st : ParserState W) : Prop where
  importTypes : ∀ entry ∈ st.mod.imports,
    entry.kind = .function ∧ entry.funcT < st.mod.types.length
  functionTypes : ∀ type ∈ st.mod.functions, type < st.mod.types.length
  exports : ∀ entry ∈ st.mod.exports, entry.kind = .function →
    entry.index < st.mod.getFunctionsTotal
  start : st.mod.start ≠ uint32Max → st.mod.start < st.mod.getFunctionsTotal ∧
    ∃ ft, st.mod.getFunctionType st.mod.start = .ok ft ∧ ft.returnCount = 0 ∧ ft.paramTypes = []
  elements : ∀ segment ∈ st.mod.elements,
    (segment.mode = .active → segment.index < st.mod.tables.length) ∧
    ∀ entry ∈ segment.elems, entry = .null ∨ entry.index < st.mod.getFunctionsTotal
  data : ∀ segment ∈ st.mod.data, segment.passive = false →
    segment.index < st.mod.memories.length
  codeSize : st.mod.code.length = st.mod.functions.length
  bodiesSize : st.functionBodies.length = st.mod.functions.length
  bodies : ∀ (i : Nat) (body : WasmCodePtr × LocalBytesChecker),
    st.functionBodies[i]? = some body →
    ∃ (type : Nat) (ft : FuncType) (fb : FunctionBody) (instrs : List Instr),
      st.mod.functions[i]? = some type ∧ st.mod.types[type]? = some ft ∧
      st.mod.code[i]? = some fb ∧
      decodeBody o body.1.bounds (body.1.bounds + 1) body.1 = .ok instrs ∧
      ∀ pre instr post, instrs = pre ++ instr :: post →
        instr.InRange st.mod (localsTotal ft fb.locals) (nesting pre)

/-- An accepted module is closed: no index of a section element or of an instruction leaves its
index space. -/
theorem accepted_index_spaces_closed {bytes : List UInt8} {st : ParserState W}
    (h : parseModule W defaultOptions bytes = .ok st) : IndexSpacesClosed defaultOptions st := by
  obtain ⟨highest, hinv⟩ := parseModule_invariant h
  have hcode : st.mod.code.length = st.mod.functions.length := by
    obtain ⟨secs, st₁, -, -, hlen, rfl⟩ := parseModule_sections h
    exact hlen
  refine ⟨hinv.importTypes, hinv.functionTypes, ?_, ?_, hinv.elements, hinv.data rfl, hcode,
    hinv.codeLength.symm.trans hcode, ?_⟩
  · intro entry hmem hkind
    have hrange := hinv.exports entry hmem
    unfold ExportEntry.InRange at hrange
    rwa [hkind] at hrange
  · intro hstart
    obtain ⟨ft, hft, hrest⟩ := hinv.start hstart
    exact ⟨getFunctionType_lt hft, ft, hft, hrest⟩
  · intro i body hbody
    obtain ⟨env, instrs, writer, nested, s, hacc⟩ := hinv.bodies i body hbody
    obtain ⟨type, hfunction, htype⟩ := hacc.function
    obtain ⟨fb, hfb, hrange⟩ := hacc.inRange
    exact ⟨type, env.ft, fb, instrs, hfunction, htype, hfb, hacc.decoded, hrange⟩

/-- A module with an import, a table, a memory, a global, an export, a start function, an active
element segment, a function using all of them, and an active data segment. -/
def closedSample : List UInt8 :=
  [0x00, 0x61, 0x73, 0x6d, 0x01, 0x00, 0x00, 0x00] ++
  [0x01, 0x09, 0x02, 0x60, 0x01, 0x7f, 0x01, 0x7f, 0x60, 0x00, 0x00] ++
  [0x02, 0x07, 0x01, 0x01, 0x61, 0x01, 0x62, 0x00, 0x00] ++
  [0x03, 0x02, 0x01, 0x01] ++
  [0x04, 0x04, 0x01, 0x70, 0x00, 0x02] ++
  [0x05, 0x03, 0x01, 0x00, 0x01] ++
  [0x06, 0x06, 0x01, 0x7f, 0x01, 0x41, 0x07, 0x0b] ++
  [0x07, 0x05, 0x01, 0x01, 0x66, 0x00, 0x01] ++
  [0x08, 0x01, 0x01] ++
  [0x09, 0x07, 0x01, 0x00, 0x41, 0x00, 0x0b, 0x01, 0x00] ++
  [0x0a, 0x1b, 0x01, 0x19, 0x01, 0x01, 0x7f, 0x23, 0x00, 0x21, 0x00, 0x02, 0x40, 0x20, 0x00, 0x0d,
    0x00, 0x20, 0x00, 0x41, 0x00, 0x11, 0x00, 0x00, 0x10, 0x00, 0x1a, 0x0b, 0x0b] ++
  [0x0b, 0x07, 0x01, 0x00, 0x41, 0x00, 0x0b, 0x01, 0x2a]

theorem closedSample_index_spaces : ∃ st : ParserState bitcodeWriter,
    parseModule bitcodeWriter defaultOptions closedSample = .ok st ∧
      IndexSpacesClosed defaultOptions st := by
  obtain ⟨st, h⟩ := exists_ok_of_isOk
    (show (parseModule bitcodeWriter defaultOptions closedSample).isOk = true by decide +kernel)
  exact ⟨st, h, accepted_index_spaces_closed h⟩

end EosVm
