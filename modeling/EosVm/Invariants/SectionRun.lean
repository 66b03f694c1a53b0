import EosVm.Invariants.Pointer

/-!
# Modules as section sequences

Sections are delimited by their headers alone, so the section loop of `parse_module` is the same as
first cutting the input into sections and then parsing these in order.
-/

set_option autoImplicit false

namespace EosVm

open Lib

variable {W : CodeWriter}

/-- One section: its id and the pointer to its payload, bounded by the payload's end. -/
structure ModuleSection where
  id : SectionId
  payload : WasmCodePtr
  deriving DecidableEq, Repr

/-- The sections between the pointer and the end of the input, found by their headers. -/
def scanSections (sz : Nat) : Nat → WasmCodePtr → Except VmError (List ModuleSection)
  | fuel, code =>
    if code.offset = sz then pure []
    else
      match fuel with
      | 0 => .error (.guardedPtr "overbounding pointer")
      | fuel + 1 => do
        let (id, len, code) ← parseSectionHeader code
        let payload ← code.shrinkBounds len
        let code ← code.advance len
        let rest ← scanSections sz fuel code
        pure (⟨id, payload⟩ :: rest)

/-- The sections of a module given as bytes. -/
def moduleSections (bytes : List UInt8) : Except VmError (List ModuleSection) := do
  let (_, code) ← parseRaw 4 (WasmCodePtr.make bytes 0 bytes.length)
  let (_, code) ← parseRaw 4 code
  scanSections bytes.length (bytes.length + 1) code

/-- The section loop over sections that are already delimited. -/
def runSections (o : Options) :
    List ModuleSection → Nat → ParserState W → Except VmError (ParserState W)
  | [], _, st => pure st
  | sec :: rest, highestSectionId, st => do
    vmAssert (sec.id == .custom || sec.id.order > highestSectionId)
      (.wasmParse "section out of order")
    let (st, last) ← parseSection o sec.id sec.payload st
    vmAssert (last.raw == last.bnds) (.guardedPtr "guarded_ptr not advanced")
    runSections o rest (max highestSectionId sec.id.order) st

/-- After its section, the pointer stands where skipping the payload puts it. -/
theorem consumed_eq_advance {o : Options} {id : SectionId} {len : Nat}
    {code payload last : WasmCodePtr} {st st' : ParserState W}
    (hs : code.shrinkBounds len = .ok payload) (hp : parseSection o id payload st = .ok (st', last))
    (hend : last.raw = last.bnds) : code.advance len = .ok (last.restore code) := by
  have hadv := parseSection_lands o id payload st st' last hp
  obtain ⟨hle, rfl⟩ := shrinkBounds_eq_ok.mp hs
  rw [advance_eq_ok]
  refine ⟨hle, ?_⟩
  have hbuf := hadv.buf
  have horig := hadv.orig
  have hbnds := hadv.bnds
  simp only [WasmCodePtr.restore, WasmCodePtr.mk.injEq] at *
  exact ⟨hbuf, hend.trans hbnds, horig, trivial⟩

/-- Parsing the sections of an input succeeds exactly when it can be cut into sections that are
accepted in order. -/
theorem parseSections_eq_ok {o : Options} {sz fuel highest : Nat} {code : WasmCodePtr}
    {st st' : ParserState W} :
    parseSections o sz fuel code highest st = .ok st' ↔
      ∃ secs, scanSections sz fuel code = .ok secs ∧ runSections o secs highest st = .ok st' := by
  induction fuel generalizing code highest st with
  | zero =>
    unfold parseSections scanSections
    by_cases hdone : code.offset = sz
    · simp [hdone, runSections]
    · simp [hdone]
  | succ fuel ih =>
    unfold parseSections scanSections
    by_cases hdone : code.offset = sz
    · simp [hdone, runSections]
    · simp only [if_neg hdone, bind_eq_ok, pure_eq_ok, vmAssert_eq_ok, Prod.exists, exists_const]
      constructor
      · rintro ⟨id, len, body, hh, ho, payload, hs, st₁, last, hp, next, hc, hrest⟩
        obtain ⟨hend, rfl⟩ := consumed_eq_ok.mp hc
        obtain ⟨secs, hscan, hrun⟩ := ih.mp hrest
        refine ⟨_, ⟨id, len, body, hh, payload, hs, _, consumed_eq_advance hs hp hend, secs, hscan,
          rfl⟩, ?_⟩
        simp only [runSections, bind_eq_ok, vmAssert_eq_ok, Prod.exists, exists_const, beq_iff_eq]
        exact ⟨ho, st₁, last, hp, hend, hrun⟩
      · rintro ⟨_, ⟨id, len, body, hh, payload, hs, next, ha, secs, hscan, rfl⟩, hrun⟩
        simp only [runSections, bind_eq_ok, vmAssert_eq_ok, Prod.exists, exists_const,
          beq_iff_eq] at hrun
        obtain ⟨ho, st₁, last, hp, hend, hrest⟩ := hrun
        have hnext : next = last.restore body :=
          Except.ok.inj (ha.symm.trans (consumed_eq_advance hs hp hend))
        refine ⟨id, len, body, hh, ho, payload, hs, st₁, last, hp, _,
          consumed_eq_ok.mpr ⟨hend, rfl⟩, ?_⟩
        rw [← hnext]
        exact ih.mpr ⟨secs, hscan, hrest⟩

/-- The parser's state before the first section. -/
def ParserState.initial (W : CodeWriter) (o : Options) : ParserState W :=
  { mod := { eosioFp := o.eosioFp } }

/-- An accepted module, section by section. -/
theorem parseModule_sections {o : Options} {bytes : List UInt8} {st : ParserState W}
    (h : parseModule W o bytes = .ok st) :
    ∃ secs st₁, moduleSections bytes = .ok secs ∧
      runSections o secs 0 (ParserState.initial W o) = .ok st₁ ∧
      st₁.mod.code.length = st₁.mod.functions.length ∧
      st = { st₁ with mod := { st₁.mod with stackLimitIsBytes := o.maxStackBytes.isSome } } := by
  simp only [parseModule, parseModulePtr, bind_eq_ok, vmAssert_eq_ok, pure_eq_ok, Prod.exists,
    exists_const, beq_iff_eq] at h
  obtain ⟨magic, p₁, h₁, -, version, p₂, h₂, -, st₁, hs, hlen, rfl⟩ := h
  obtain ⟨secs, hscan, hrun⟩ := parseSections_eq_ok.mp hs
  refine ⟨secs, st₁, ?_, hrun, hlen, rfl⟩
  simp only [moduleSections, bind_eq_ok, Prod.exists]
  exact ⟨magic, p₁, h₁, version, p₂, h₂, hscan⟩

/-- One round of the section loop. -/
theorem runSections_cons {o : Options} {sec : ModuleSection} {secs : List ModuleSection}
    {highest : Nat} {st st' : ParserState W}
    (h : runSections o (sec :: secs) highest st = .ok st') :
    (sec.id = .custom ∨ highest < sec.id.order) ∧ ∃ st₁ last,
      parseSection o sec.id sec.payload st = .ok (st₁, last) ∧
      runSections o secs (max highest sec.id.order) st₁ = .ok st' := by
  simp only [runSections, bind_eq_ok, vmAssert_eq_ok, Prod.exists, exists_const, Bool.or_eq_true,
    beq_iff_eq, decide_eq_true_eq] at h
  obtain ⟨ho, st₁, last, hsec, -, hrest⟩ := h
  exact ⟨ho, st₁, last, hsec, hrest⟩

/-- What the initial state has and every section that may come next keeps holds at the end. The
property may depend on the highest section so far. -/
theorem runSections_invariant {o : Options} {P : Nat → ParserState W → Prop}
    (hstep : ∀ highest id payload last st st', P highest st →
      id = .custom ∨ highest < id.order → parseSection o id payload st = .ok (st', last) →
      P (max highest id.order) st')
    {secs : List ModuleSection} {highest : Nat} {st st' : ParserState W} (hp : P highest st)
    (h : runSections o secs highest st = .ok st') : ∃ highest', P highest' st' := by
  induction secs generalizing highest st with
  | nil =>
    rw [← pure_eq_ok.mp h]
    exact ⟨highest, hp⟩
  | cons sec secs ih =>
    obtain ⟨ho, st₁, last, hsec, hrest⟩ := runSections_cons h
    exact ih (hstep highest sec.id sec.payload last st st₁ hp ho hsec) hrest

end EosVm
