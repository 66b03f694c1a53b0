import EosVm.Invariants.Indices
import EosVm.Invariants.SectionRun

/-!
# The code section

The first pass delimits the function bodies, the second one parses them. The result is stated for
each body of an accepted module: the environment it was checked in and its accepted run.
-/

set_option autoImplicit false

namespace EosVm

open Lib

variable {W : CodeWriter}

/-- The part of a module that is complete before the code section. Function bodies are checked
against it only. -/
def Module.beforeCode (mod : Module) : Module :=
  { mod with code := [], data := [], names := none, maximumStack := 0, stackLimitIsBytes := false }

/-- The byte count of a function's flagged parameters and locals, before its code. -/
def LocalBytesChecker.ofLocals (o : Options) (ft : FuncType) (locals : List LocalEntry) :
    Except VmError LocalBytesChecker := do
  let checker ← LocalBytesChecker.init o ft
  locals.foldlM (fun c entry => c.onLocal o entry.type entry.count) checker

/-- The local entries of a body: bounded counts, admitted types, and their byte count. -/
theorem parseLocals_spec {o : Options} {n idx : Nat} {p q : WasmCodePtr}
    {checker checker' : LocalBytesChecker} {locals : List LocalEntry}
    (h : parseItems (parseLocalEntry o) n idx p checker = .ok (locals, q, checker')) :
    (∀ entry ∈ locals, entry.count < 2 ^ 32) ∧
      locals.foldlM (fun c entry => c.onLocal o entry.type entry.count) checker = .ok checker' := by
  induction n generalizing idx p checker locals with
  | zero =>
    simp only [parseItems, pure_eq_ok, Prod.mk.injEq] at h
    obtain ⟨rfl, -, rfl⟩ := h
    exact ⟨by simp, rfl⟩
  | succ n ih =>
    simp only [parseItems, bind_eq_ok, pure_eq_ok, Prod.exists, Prod.mk.injEq] at h
    obtain ⟨entry, mid, c₁, hi, rest, last, c₂, hr, rfl, rfl, rfl⟩ := h
    obtain ⟨hcounts, hfold⟩ := ih hr
    simp only [parseLocalEntry, bind_eq_ok, Prod.exists] at hi
    obtain ⟨count, q₁, h₁, b, q₂, -, hi⟩ := hi
    split at hi
    · cases hi
    simp only [bind_eq_ok, vmAssert_eq_ok, pure_eq_ok, exists_const, Prod.mk.injEq] at hi
    obtain ⟨-, c, hc, rfl, -, rfl⟩ := hi
    refine ⟨?_, ?_⟩
    · intro e he
      rcases List.mem_cons.mp he with rfl | he
      · exact parseVaruint32_lt h₁
      · exact hcounts e he
    · rw [List.foldlM_cons]
      exact bind_eq_ok.mpr ⟨c, hc, hfold⟩

/-- What the first pass records for one function: the extent of its code and the byte count of its
locals. -/
structure BodyRecorded (o : Options) (mod : Module) (idx : Nat) (fb : FunctionBody)
    (body : WasmCodePtr × LocalBytesChecker) : Prop where
  ptr : BodyPtr body.1 fb.size
  size : fb.size < 2 ^ 32
  counts : ∀ entry ∈ fb.locals, entry.count < 2 ^ 32
  checker : ∃ type ft, mod.functions[idx]? = some type ∧ mod.types[type]? = some ft ∧
    LocalBytesChecker.ofLocals o ft fb.locals = .ok body.2

theorem sub32_lt (a b : Nat) : sub32 a b < 2 ^ 32 := by
  unfold sub32
  exact Nat.mod_lt _ (by decide)

theorem BodyPtr.bounds_eq {code : WasmCodePtr} {bounds : Nat} (h : BodyPtr code bounds) :
    code.bounds = bounds := by
  unfold WasmCodePtr.bounds
  rw [h.size]
  omega

theorem parseFunctionBody_recorded {o : Options} {mod : Module} {idx : Nat} {p q : WasmCodePtr}
    {bodies bodies' : List (WasmCodePtr × LocalBytesChecker)} {fb : FunctionBody}
    (h : parseFunctionBody o mod idx p bodies = .ok (fb, q, bodies')) :
    ∃ body, bodies' = bodies ++ [body] ∧ BodyRecorded o mod idx fb body := by
  simp only [parseFunctionBody, bind_eq_ok, vmAssert_eq_ok, vectorAt_eq_ok, pure_eq_ok,
    Prod.exists, exists_const, Prod.mk.injEq] at h
  obtain ⟨size, q₁, -, -, localCnt, q₂, -, -, type, htype, ft, hft, checker, hinit, locals, q₃,
    checker', hlocals, inner, -, inner₁, -, last, -, -, _, inner₂, -, rfl, -, rfl⟩ := h
  obtain ⟨hcounts, hfold⟩ := parseLocals_spec hlocals
  refine ⟨_, rfl, BodyPtr.make _ _ _, sub32_lt _ _, hcounts, type, ft, htype, hft, ?_⟩
  exact bind_eq_ok.mpr ⟨checker, hinit, hfold⟩

/-- The first pass records one body for each element of the code section. -/
theorem parseBodies_recorded {o : Options} {mod : Module} {n idx : Nat} {p q : WasmCodePtr}
    {bodies bodies' : List (WasmCodePtr × LocalBytesChecker)} {elems : List FunctionBody}
    (h : parseItems (parseFunctionBody o mod) n idx p bodies = .ok (elems, q, bodies')) :
    ∃ added, bodies' = bodies ++ added ∧ added.length = elems.length ∧
      ∀ i fb body, elems[i]? = some fb → added[i]? = some body →
        BodyRecorded o mod (idx + i) fb body := by
  induction n generalizing idx p bodies elems with
  | zero =>
    simp only [parseItems, pure_eq_ok, Prod.mk.injEq] at h
    obtain ⟨rfl, -, rfl⟩ := h
    exact ⟨[], by simp, rfl, by simp⟩
  | succ n ih =>
    simp only [parseItems, bind_eq_ok, pure_eq_ok, Prod.exists, Prod.mk.injEq] at h
    obtain ⟨fb, mid, bodies₁, hi, rest, last, bodies₂, hr, rfl, rfl, rfl⟩ := h
    obtain ⟨body, rfl, hrec⟩ := parseFunctionBody_recorded hi
    obtain ⟨added, rfl, hlen, hall⟩ := ih hr
    refine ⟨body :: added, by simp, by simp [hlen], ?_⟩
    intro i fb' body' hfb hbody
    cases i with
    | zero =>
      simp only [List.getElem?_cons_zero, Option.some.injEq] at hfb hbody
      subst hfb hbody
      exact hrec
    | succ i =>
      rw [List.getElem?_cons_succ] at hfb hbody
      have := hall i fb' body' hfb hbody
      rwa [Nat.add_right_comm, Nat.add_assoc] at this

/-- Body `i` was accepted as the instructions `instrs` with `env`, and the parse ended in `s`. -/
structure BodyAccepted (o : Options) (st : ParserState W) (i : Nat)
    (body : WasmCodePtr × LocalBytesChecker) (env : BodyEnv) (instrs : List Instr)
    (writer : W.State) (nested : Nat) (s : BodyState W) : Prop where
  options : env.options = o
  mod : env.mod.beforeCode = st.mod.beforeCode
  typeAliases : env.typeAliases = st.typeAliases
  datacount : env.datacount = st.datacount
  function : ∃ type, st.mod.functions[i]? = some type ∧ st.mod.types[type]? = some env.ft
  locals : ∃ fb, st.mod.code[i]? = some fb ∧
    LocalTypes.make env.ft fb.locals = .ok env.localTypes ∧
    (∀ entry ∈ fb.locals, entry.count < 2 ^ 32) ∧
    LocalBytesChecker.ofLocals o env.ft fb.locals = .ok body.2
  ptr : BodyPtr body.1 body.1.bounds
  bounds : body.1.bounds < 2 ^ 32
  decoded : decodeBody o body.1.bounds (body.1.bounds + 1) body.1 = .ok instrs
  accepted : runInstrs env instrs (BodyState.init env body.2 writer nested) = .ok s
  recorded : ∃ s', s.recordStackUsage o = .ok s'
  closed : s.pcStack = []
  maximumStack :
    s.opStack.maximumOperandDepth + env.localTypes.localsCount ≤ st.mod.maximumStack

/-- Parsing the code of one function. -/
theorem parseFunctionBodyCode_accepted {env : BodyEnv} {code : WasmCodePtr} {bounds : Nat}
    {checker : LocalBytesChecker} {writer : W.State} {nested maximumStack : Nat} {s : BodyState W}
    (hp : BodyPtr code bounds)
    (h : parseFunctionBodyCode env code bounds checker writer nested = .ok (s, maximumStack)) :
    ∃ instrs s₁, decodeBody env.options bounds (bounds + 1) code = .ok instrs ∧
      runInstrs env instrs (BodyState.init env checker writer nested) = .ok s₁ ∧
      s₁.recordStackUsage env.options = .ok s ∧ s₁.pcStack = [] ∧
      maximumStack = max env.mod.maximumStack
        (s₁.opStack.maximumOperandDepth + env.localTypes.localsCount) := by
  simp only [parseFunctionBodyCode, bind_eq_ok, vmAssert_eq_ok, pure_eq_ok, exists_const,
    Prod.mk.injEq] at h
  obtain ⟨s₁, hloop, s₂, hrec, hempty, rfl, rfl⟩ := h
  obtain ⟨instrs, hd, hrun⟩ := (parseBodyLoop_eq_ok hp).mp hloop
  have hsame : s₂.pcStack = s₁.pcStack ∧ s₂.opStack = s₁.opStack := by
    unfold BodyState.recordStackUsage at hrec
    split at hrec
    · rw [← pure_eq_ok.mp hrec]
      exact ⟨rfl, rfl⟩
    · obtain ⟨w, -, hw⟩ := bind_eq_ok.mp hrec
      rw [← pure_eq_ok.mp hw]
      exact ⟨rfl, rfl⟩
  refine ⟨instrs, s₁, hd, hrun, hrec, ?_, by rw [hsame.2]⟩
  rw [← hsame.1]
  simpa using hempty

/-- What the second pass may change: the finished bodies, `maximum_stack` and
the nesting counter. -/
structure WriteFrame (st st' : ParserState W) : Prop where
  state : ∃ code maximumStack nested, st' = { st with
    mod := { st.mod with code := code, maximumStack := maximumStack }, nestedCount := nested }
  locals : st'.mod.code.map FunctionBody.locals = st.mod.code.map FunctionBody.locals
  maximumStack : st.mod.maximumStack ≤ st'.mod.maximumStack

namespace WriteFrame

variable {st st₁ st' : ParserState W}

theorem refl (st : ParserState W) : WriteFrame st st := ⟨⟨_, _, _, rfl⟩, rfl, le_refl _⟩

theorem trans (h : WriteFrame st st₁) (h' : WriteFrame st₁ st') : WriteFrame st st' where
  state := by
    obtain ⟨code, maximumStack, nested, rfl⟩ := h.state
    obtain ⟨code', maximumStack', nested', rfl⟩ := h'.state
    exact ⟨code', maximumStack', nested', rfl⟩
  locals := h'.locals.trans h.locals
  maximumStack := le_trans h.maximumStack h'.maximumStack

theorem beforeCode (h : WriteFrame st st') : st'.mod.beforeCode = st.mod.beforeCode := by
  obtain ⟨code, maximumStack, nested, rfl⟩ := h.state
  rfl

end WriteFrame

/-- An accepted body stays accepted while the module keeps what it was checked against. -/
theorem BodyAccepted.transport {o : Options} {st st' : ParserState W} {i nested : Nat}
    {body : WasmCodePtr × LocalBytesChecker} {env : BodyEnv} {instrs : List Instr}
    {writer : W.State} {s : BodyState W}
    (h : BodyAccepted o st i body env instrs writer nested s)
    (hmod : st'.mod.beforeCode = st.mod.beforeCode) (haliases : st'.typeAliases = st.typeAliases)
    (hdatacount : st'.datacount = st.datacount)
    (hlocals : st'.mod.code.map FunctionBody.locals = st.mod.code.map FunctionBody.locals)
    (hmax : st.mod.maximumStack ≤ st'.mod.maximumStack) :
    BodyAccepted o st' i body env instrs writer nested s where
  options := h.options
  mod := by rw [hmod, h.mod]
  typeAliases := by rw [haliases, h.typeAliases]
  datacount := by rw [hdatacount, h.datacount]
  function := by
    obtain ⟨type, hfunction, htype⟩ := h.function
    have hfunctions := congrArg Module.functions hmod
    have htypes := congrArg Module.types hmod
    change st'.mod.functions = st.mod.functions at hfunctions
    change st'.mod.types = st.mod.types at htypes
    exact ⟨type, by rw [hfunctions, hfunction], by rw [htypes, htype]⟩
  locals := by
    obtain ⟨fb, hfb, hrest⟩ := h.locals
    have hmap := congrArg (·[i]?) hlocals
    simp only [List.getElem?_map, hfb, Option.map_some, Option.map_eq_some_iff] at hmap
    obtain ⟨fb', hfb', heq⟩ := hmap
    exact ⟨fb', hfb', by rw [heq]; exact hrest⟩
  ptr := h.ptr
  bounds := h.bounds
  decoded := h.decoded
  accepted := h.accepted
  recorded := h.recorded
  closed := h.closed
  maximumStack := le_trans h.maximumStack hmax

theorem BodyAccepted.frame {o : Options} {st st' : ParserState W} {i nested : Nat}
    {body : WasmCodePtr × LocalBytesChecker} {env : BodyEnv} {instrs : List Instr}
    {writer : W.State} {s : BodyState W}
    (h : BodyAccepted o st i body env instrs writer nested s) (hf : WriteFrame st st') :
    BodyAccepted o st' i body env instrs writer nested s := by
  have hlocals := hf.locals
  have hmax := hf.maximumStack
  obtain ⟨code, maximumStack, nested', rfl⟩ := hf.state
  exact h.transport rfl rfl rfl hlocals hmax

/-- The calls on the writer before and after the code of a function. -/
structure BodyWritten (o : Options) (mod : Module) (i : Nat) (env : BodyEnv)
    (writer writer₁ writer' : W.State) (s : BodyState W) : Prop where
  before : ∃ fb, W.emitPrologue mod env.ft fb i writer = .ok writer₁
  after : ∃ s' fb locals w size stackSize, s.recordStackUsage o = .ok s' ∧
    W.emitEpilogue env.ft locals i s'.writer = .ok w ∧
    W.finalize fb w = .ok (size, stackSize, writer')

/-- One function of the second pass. -/
theorem writeFunction_accepted {o : Options} {st st' : ParserState W} {writer writer' : W.State}
    {i : Nat} {fb : FunctionBody} {body : WasmCodePtr × LocalBytesChecker}
    (hfb : st.mod.code[i]? = some fb) (hrec : BodyRecorded o st.mod i fb body)
    (h : writeFunction o st writer i body = .ok (st', writer')) :
    WriteFrame st st' ∧ (∀ j, j ≠ i → st'.mod.code[j]? = st.mod.code[j]?) ∧
      ∃ env instrs writer₁ nested s, BodyAccepted o st' i body env instrs writer₁ nested s ∧
        BodyWritten o st.mod i env writer writer₁ writer' s := by
  simp only [writeFunction, bind_eq_ok, vectorAt_eq_ok, pure_eq_ok, Prod.exists,
    Prod.mk.injEq] at h
  obtain ⟨fb', hfb', type, htype, ft, hft, lt, hlt, writer₁, hprologue, s, maximumStack, hparse,
    writer₂, hepilogue, size, stackSize, writer₃, hfinalize, rfl, rfl⟩ := h
  obtain rfl : fb = fb' := Option.some.inj (hfb.symm.trans hfb')
  obtain ⟨instrs, s₁, hd, hrun, husage, hclosed, hmax⟩ :=
    parseFunctionBodyCode_accepted hrec.ptr hparse
  obtain ⟨type', ft', htype', hft', hchecker⟩ := hrec.checker
  obtain rfl : type = type' := Option.some.inj (htype.symm.trans htype')
  obtain rfl : ft = ft' := Option.some.inj (hft.symm.trans hft')
  obtain ⟨hlt_len, hget⟩ := List.getElem?_eq_some_iff.mp hfb
  refine ⟨⟨⟨_, _, _, rfl⟩, ?_, ?_⟩, ?_, ?_⟩
  · -- the finished body keeps its locals
    apply List.ext_getElem?
    intro j
    simp only [List.getElem?_map, List.getElem?_set]
    split
    next heq =>
      subst heq
      simp [hlt_len, hget]
    · rfl
  · rw [hmax]
    exact le_max_left _ _
  · intro j hj
    exact List.getElem?_set_ne hj.symm
  · refine ⟨_, instrs, writer₁, _, s₁, ⟨rfl, rfl, rfl, rfl, ⟨type, htype, hft⟩, ?_, ?_, ?_, ?_,
      hrun, ⟨s, husage⟩, hclosed, ?_⟩, ⟨_, hprologue⟩, s, _, _, _, _, _, husage, hepilogue,
      hfinalize⟩
    · refine ⟨_, List.getElem?_set_self hlt_len, hlt, hrec.counts, hchecker⟩
    · rw [hrec.ptr.bounds_eq]
      exact hrec.ptr
    · rw [hrec.ptr.bounds_eq]
      exact hrec.size
    · rw [hrec.ptr.bounds_eq]
      exact hd
    · rw [hmax]
      exact le_max_right _ _

/-- The second pass accepts every body. -/
theorem writeFunctions_accepted {o : Options} {k : Nat}
    {bodies : List (WasmCodePtr × LocalBytesChecker)} {st st' : ParserState W}
    {writer writer' : W.State}
    (hrec : ∀ j body, bodies[j]? = some body → ∃ fb, st.mod.code[k + j]? = some fb ∧
      BodyRecorded o st.mod (k + j) fb body)
    (h : writeFunctions o k bodies st writer = .ok (st', writer')) :
    WriteFrame st st' ∧ ∀ j body, bodies[j]? = some body →
      ∃ env instrs writer₁ nested s,
        BodyAccepted o st' (k + j) body env instrs writer₁ nested s := by
  induction bodies generalizing k st writer with
  | nil =>
    simp only [writeFunctions, pure_eq_ok, Prod.mk.injEq] at h
    rw [← h.1]
    exact ⟨WriteFrame.refl st, by simp⟩
  | cons body bodies ih =>
    simp only [writeFunctions, bind_eq_ok, Prod.exists] at h
    obtain ⟨st₁, writer₁, hfirst, hrest⟩ := h
    obtain ⟨fb, hfb, hbody⟩ := hrec 0 body rfl
    obtain ⟨hframe, hother, hacc⟩ := writeFunction_accepted hfb hbody hfirst
    have hrec₁ : ∀ j b, bodies[j]? = some b → ∃ fb, st₁.mod.code[k + 1 + j]? = some fb ∧
        BodyRecorded o st₁.mod (k + 1 + j) fb b := by
      intro j b hb
      obtain ⟨fb', hfb', hr⟩ := hrec (j + 1) b (by rw [List.getElem?_cons_succ]; exact hb)
      rw [show k + (j + 1) = k + 1 + j by omega] at hfb' hr
      refine ⟨fb', by rw [hother _ (by omega)]; exact hfb', ?_⟩
      obtain ⟨code, maximumStack, nested, rfl⟩ := hframe.state
      exact ⟨hr.ptr, hr.size, hr.counts, hr.checker⟩
    obtain ⟨hframe', hall⟩ := ih hrec₁ hrest
    refine ⟨hframe.trans hframe', ?_⟩
    intro j b hb
    cases j with
    | zero =>
      obtain ⟨env, instrs, w, nested, s, hb', -⟩ := hacc
      rw [List.getElem?_cons_zero, Option.some.injEq] at hb
      subst hb
      exact ⟨env, instrs, w, nested, s, hb'.frame hframe'⟩
    | succ j =>
      rw [List.getElem?_cons_succ] at hb
      have := hall j b hb
      rwa [show k + 1 + j = k + (j + 1) by omega] at this

/-- The code section: every body of an accepted one has been accepted. -/
theorem parseCodeSection_accepted {o : Options} {p q : WasmCodePtr} {st st' : ParserState W}
    (hfresh : st.functionBodies = [])
    (h : parseCodeSection o p st = .ok (st', q)) :
    st'.mod.code.length = st.mod.functions.length ∧
      st'.functionBodies.length = st.mod.functions.length ∧
      (∃ code maximumStack nested bodies written, st' = { st with
        mod := { st.mod with code := code, maximumStack := maximumStack }
        nestedCount := nested
        functionBodies := bodies
        written := written }) ∧
      ∀ i body, st'.functionBodies[i]? = some body →
        ∃ env instrs writer nested s, BodyAccepted o st' i body env instrs writer nested s := by
  simp only [parseCodeSection, parseSectionImpl, writeCodeOut, bind_eq_ok, vmAssert_eq_ok,
    pure_eq_ok, Prod.exists, exists_const, Prod.mk.injEq, beq_iff_eq] at h
  obtain ⟨elems, mid, bodies, ⟨count, p₁, -, -, hitems⟩, hlen, st₁,
    ⟨writer, -, st₂, writer', hwrite, rfl⟩, rfl, -⟩ := h
  obtain ⟨added, hadded, hlen', hrec⟩ := parseBodies_recorded hitems
  rw [hfresh, List.nil_append] at hadded
  subst hadded
  obtain ⟨hframe, hall⟩ := writeFunctions_accepted (k := 0) (by
    intro j body hb
    have hj := (List.getElem?_eq_some_iff.mp hb).1
    have hfb : elems[j]? = some elems[j] := List.getElem?_eq_getElem (by omega)
    refine ⟨elems[j], by simp, ?_⟩
    have := hrec j elems[j] body hfb hb
    exact ⟨this.ptr, this.size, this.counts, this.checker⟩) hwrite
  have hcode := congrArg List.length hframe.locals
  simp only [List.length_map] at hcode
  obtain ⟨code, maximumStack, nested, rfl⟩ := hframe.state
  refine ⟨hcode.trans hlen, hlen'.trans hlen, ⟨_, _, _, _, _, rfl⟩, ?_⟩
  intro i body hb
  obtain ⟨env, instrs, w, n, s, hacc⟩ := hall i body hb
  rw [Nat.zero_add] at hacc
  exact ⟨env, instrs, w, n, s, hacc.transport rfl rfl rfl rfl (le_refl _)⟩

end EosVm
