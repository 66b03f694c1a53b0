import EosVm.Guarantees.IndexSpaces
import EosVm.Invariants.Instantiation

/-!
# Data segment indices

`memory.init` and `data.drop` are checked against the count announced by the datacount section, and
the count is compared with the segments when the data section is parsed. A module that announces
segments and has no data section at all passes both checks.
-/

set_option autoImplicit false

namespace EosVm

open Lib

variable {W : CodeWriter}

/-- What the data sections write: the announced count and the segments. -/
def ParserState.dataParts (st : ParserState W) : Option Nat × List DataSegment :=
  (st.datacount, st.mod.data)

section Sections

variable {o : Options} {p q : WasmCodePtr} {st st' : ParserState W}

theorem writeFunction_dataParts {writer writer' : W.State} {i : Nat}
    {body : WasmCodePtr × LocalBytesChecker}
    (h : writeFunction o st writer i body = .ok (st', writer')) : st'.dataParts = st.dataParts := by
  simp only [writeFunction, bind_eq_ok, pure_eq_ok, Prod.exists, Prod.mk.injEq] at h
  obtain ⟨_, -, _, -, _, -, _, -, _, -, _, _, -, _, -, _, _, _, -, rfl, -⟩ := h
  rfl

theorem writeFunctions_dataParts {writer writer' : W.State} {i : Nat}
    {bodies : List (WasmCodePtr × LocalBytesChecker)}
    (h : writeFunctions o i bodies st writer = .ok (st', writer')) :
    st'.dataParts = st.dataParts := by
  induction bodies generalizing i st writer with
  | nil => rw [← (Prod.mk.inj (pure_eq_ok.mp h)).1]
  | cons body bodies ih =>
    simp only [writeFunctions, bind_eq_ok, Prod.exists] at h
    obtain ⟨st₁, writer₁, hfirst, hrest⟩ := h
    rw [ih hrest, writeFunction_dataParts hfirst]

theorem parseCustom_dataParts (h : parseCustom o p st = .ok (st', q)) :
    st'.dataParts = st.dataParts := by
  simp only [parseCustom, bind_eq_ok, Prod.exists] at h
  obtain ⟨name, p₁, -, h⟩ := h
  split at h <;> simp only [bind_eq_ok, pure_eq_ok, Prod.exists, Prod.mk.injEq] at h
  · obtain ⟨names, p₂, -, rfl, -⟩ := h
    rfl
  · obtain ⟨p₂, -, rfl, -⟩ := h
    rfl

/-- Only the data sections touch the announced count and the segments. -/
theorem parseSection_dataParts {id : SectionId} (hcount : id ≠ .dataCount) (hdata : id ≠ .data)
    (h : parseSection o id p st = .ok (st', q)) : st'.dataParts = st.dataParts := by
  cases id <;>
    simp only [parseSection, parseFunctionSection, parseStartSection, parseCodeSection,
      writeCodeOut, bind_eq_ok, vmAssert_eq_ok, pure_eq_ok, Prod.exists, exists_const,
      Prod.mk.injEq] at h
  case custom => exact parseCustom_dataParts h
  case type | import_ | table | memory | element =>
    obtain ⟨_, _, -, rfl, -⟩ := h
    rfl
  case function =>
    obtain ⟨_, _, -, _, _, -, rfl, -⟩ := h
    rfl
  case global =>
    obtain ⟨_, _, _, -, rfl, -⟩ := h
    rfl
  case export_ =>
    obtain ⟨_, _, -, _, -, rfl, -⟩ := h
    rfl
  case start =>
    obtain ⟨_, _, -, _, -, -, rfl, -⟩ := h
    rfl
  case code =>
    obtain ⟨_, _, _, -, -, st₁, ⟨_, -, st₂, _, hwrite, rfl⟩, rfl, -⟩ := h
    have hkept := writeFunctions_dataParts hwrite
    exact hkept
  case data => exact absurd rfl hdata
  case dataCount => exact absurd rfl hcount

end Sections

section Run

variable {o : Options} {secs : List ModuleSection} {highest : Nat} {st st' : ParserState W}

/-- Sections other than custom ones come in increasing order. -/
theorem runSections_order (h : runSections o secs highest st = .ok st') :
    ∀ sec ∈ secs, sec.id = .custom ∨ highest < sec.id.order := by
  induction secs generalizing highest st with
  | nil => simp
  | cons first secs ih =>
    obtain ⟨ho, st₁, last, -, hrest⟩ := runSections_cons h
    intro sec hmem
    rcases List.mem_cons.mp hmem with rfl | hmem
    · exact ho
    · rcases ih hrest sec hmem with hc | hlt
      · exact Or.inl hc
      · exact Or.inr (lt_of_le_of_lt (le_max_left _ _) hlt)

theorem runSections_dataParts (hcount : ∀ sec ∈ secs, sec.id ≠ .dataCount)
    (hdata : ∀ sec ∈ secs, sec.id ≠ .data) (h : runSections o secs highest st = .ok st') :
    st'.dataParts = st.dataParts := by
  induction secs generalizing highest st with
  | nil => rw [← pure_eq_ok.mp h]
  | cons first secs ih =>
    obtain ⟨-, st₁, last, hsec, hrest⟩ := runSections_cons h
    rw [ih (fun sec hs => hcount sec (List.mem_cons_of_mem _ hs))
      (fun sec hs => hdata sec (List.mem_cons_of_mem _ hs)) hrest]
    exact parseSection_dataParts (hcount first List.mem_cons_self)
      (hdata first List.mem_cons_self) hsec

/-- What a whole run does to the announced count and the segments. A datacount section comes before
the data section, so the segments are compared with the final count. -/
structure DataRun (secs : List ModuleSection) (st st' : ParserState W) : Prop where
  counted : ∀ sec ∈ secs, sec.id = .dataCount →
    ∃ n last, parseVaruint32 sec.payload = .ok (n, last) ∧ st'.datacount = some n
  uncounted : (∀ sec ∈ secs, sec.id ≠ .dataCount) → st'.datacount = st.datacount
  matched : (∃ sec ∈ secs, sec.id = .data) →
    st'.datacount = none ∨ st'.datacount = some st'.mod.data.length
  missing : (∀ sec ∈ secs, sec.id ≠ .data) → st'.mod.data = st.mod.data

theorem runSections_dataRun (h : runSections o secs highest st = .ok st') :
    DataRun secs st st' := by
  induction secs generalizing highest st with
  | nil =>
    rw [← pure_eq_ok.mp h]
    exact ⟨by simp, fun _ => rfl, by simp, fun _ => rfl⟩
  | cons first secs ih =>
    obtain ⟨ho, st₁, last, hsec, hrest⟩ := runSections_cons h
    have hrun := ih hrest
    have horder := runSections_order hrest
    by_cases hc : first.id = .dataCount
    · -- no second datacount section can follow
      have hnone : ∀ sec ∈ secs, sec.id ≠ .dataCount := by
        intro sec hmem hid
        rcases horder sec hmem with hcustom | hlt
        · exact absurd (hcustom.symm.trans hid) (by decide)
        · rw [hid, hc] at hlt
          omega
      rw [hc] at hsec
      simp only [parseSection, bind_eq_ok, pure_eq_ok, Prod.exists, Prod.mk.injEq] at hsec
      obtain ⟨n, mid, hn, rfl, -⟩ := hsec
      have hkept := hrun.uncounted hnone
      refine ⟨?_, ?_, ?_, ?_⟩
      · intro sec hmem hid
        rcases List.mem_cons.mp hmem with rfl | hmem
        · exact ⟨n, mid, hn, hkept⟩
        · exact absurd hid (hnone sec hmem)
      · intro hall
        exact absurd hc (hall first List.mem_cons_self)
      · rintro ⟨sec, hmem, hid⟩
        rcases List.mem_cons.mp hmem with rfl | hmem
        · exact absurd (hc.symm.trans hid) (by decide)
        · exact hrun.matched ⟨sec, hmem, hid⟩
      · intro hall
        rw [hrun.missing (fun sec hs => hall sec (List.mem_cons_of_mem _ hs))]
    by_cases hd : first.id = .data
    · -- only custom sections can follow
      have hcustom : ∀ sec ∈ secs, sec.id = .custom := by
        intro sec hmem
        rcases horder sec hmem with hcustom | hlt
        · exact hcustom
        · rw [hd] at hlt
          cases hid : sec.id <;> simp [hid, SectionId.order] at hlt
      have hkept := runSections_dataParts
        (fun sec hs hid => absurd ((hcustom sec hs).symm.trans hid) (by decide))
        (fun sec hs hid => absurd ((hcustom sec hs).symm.trans hid) (by decide)) hrest
      rw [hd] at hsec
      simp only [parseSection, parseDataSection, bind_eq_ok, vmAssert_eq_ok, pure_eq_ok,
        Prod.exists, exists_const, Prod.mk.injEq, Bool.or_eq_true, beq_iff_eq] at hsec
      obtain ⟨data, mid, -, hmatch, rfl, -⟩ := hsec
      simp only [ParserState.dataParts, Prod.mk.injEq] at hkept
      refine ⟨?_, fun _ => hkept.1, ?_, ?_⟩
      · intro sec hmem hid
        rcases List.mem_cons.mp hmem with rfl | hmem
        · exact absurd hid hc
        · exact absurd ((hcustom sec hmem).symm.trans hid) (by decide)
      · intro _
        rw [hkept.1, hkept.2]
        exact hmatch
      · intro hall
        exact absurd hd (hall first List.mem_cons_self)
    · -- any other section
      have hkept := parseSection_dataParts hc hd hsec
      simp only [ParserState.dataParts, Prod.mk.injEq] at hkept
      refine ⟨?_, ?_, ?_, ?_⟩
      · intro sec hmem hid
        rcases List.mem_cons.mp hmem with rfl | hmem
        · exact absurd hid hc
        · exact hrun.counted sec hmem hid
      · intro hall
        rw [hrun.uncounted (fun sec hs => hall sec (List.mem_cons_of_mem _ hs)), hkept.1]
      · rintro ⟨sec, hmem, hid⟩
        rcases List.mem_cons.mp hmem with rfl | hmem
        · exact absurd hid hd
        · exact hrun.matched ⟨sec, hmem, hid⟩
      · intro hall
        rw [hrun.missing (fun sec hs => hall sec (List.mem_cons_of_mem _ hs)), hkept.2]

end Run

/-- Every segment index of the code is in range, the datacount section announces the number of
segments, and an instantiated context has a flag for each of them as long as it runs. -/
structure DataSegmentsValid (o : Options) (bytes : List UInt8) (st : ParserState W) : Prop where
  indices : CodeForall o st (Instr.DataInRange st.mod.data.length)
  count : ∀ secs, moduleSections bytes = .ok secs → ∀ sec ∈ secs, sec.id = .dataCount →
    ∃ last, parseVaruint32 sec.payload = .ok (st.mod.data.length, last)
  flags : ∀ ctx ctx' ctx'' : ExecutionContextBase, ctx.reset st.mod = .ok ctx' →
    ctx'.Reaches st.mod ctx'' → ctx''.droppedData.length = st.mod.data.length

/-- A datacount section of the input announces no segments or is followed by a data section. -/
def DataCountMatched (bytes : List UInt8) : Prop :=
  ∀ secs, moduleSections bytes = .ok secs → ∀ sec ∈ secs, sec.id = .dataCount →
    (∃ last, parseVaruint32 sec.payload = .ok (0, last)) ∨ ∃ other ∈ secs, other.id = .data

theorem Instr.DataInRange.mono {m n : Nat} {instr : Instr} (h : instr.DataInRange m)
    (hle : m ≤ n) : instr.DataInRange n := by
  cases instr with
  | memoryInit x => exact lt_of_lt_of_le h hle
  | dataDrop x => exact lt_of_lt_of_le h hle
  | _ => trivial

/-- The code of an accepted module uses announced segments only. -/
theorem BodyAccepted.dataInRange {o : Options} {st : ParserState W} {i nested : Nat}
    {body : WasmCodePtr × LocalBytesChecker} {env : BodyEnv} {instrs : List Instr}
    {writer : W.State} {s : BodyState W} (h : BodyAccepted o st i body env instrs writer nested s) :
    ∀ instr ∈ instrs, instr.DataInRange (st.datacount.getD 0) := by
  intro instr hmem
  obtain ⟨pre, post, rfl⟩ := List.append_of_mem hmem
  obtain ⟨s₁, s₂, -, hproc⟩ := h.processed
  rw [← h.datacount]
  exact processInstr_dataInRange hproc

/-- The segment indices of an accepted module are valid exactly when its announced count is backed
by a data section or is zero. -/
theorem data_segments_valid_iff {o : Options} {bytes : List UInt8} {st : ParserState W}
    (h : parseModule W o bytes = .ok st) :
    DataSegmentsValid o bytes st ↔ DataCountMatched bytes := by
  obtain ⟨highest, hinv⟩ := parseModule_invariant h
  obtain ⟨secs, st₁, hsecs, hsections, -, rfl⟩ := parseModule_sections h
  have hrun := runSections_dataRun hsections
  constructor
  · intro hvalid secs' hsecs' sec hmem hid
    obtain rfl : secs = secs' := Except.ok.inj (hsecs.symm.trans hsecs')
    by_cases hdata : ∃ other ∈ secs, other.id = .data
    · exact Or.inr hdata
    · left
      have hempty : st₁.mod.data = [] :=
        hrun.missing fun other hm hother => hdata ⟨other, hm, hother⟩
      obtain ⟨last, hlast⟩ := hvalid.count secs hsecs sec hmem hid
      exact ⟨last, by rw [hlast, hempty]; rfl⟩
  · intro hmatched
    -- the announced count never exceeds the segments
    have hcount : ∀ n, st₁.datacount = some n → n = st₁.mod.data.length := by
      intro n hn
      by_cases hany : ∃ sec ∈ secs, sec.id = .dataCount
      · obtain ⟨sec, hmem, hid⟩ := hany
        obtain ⟨m, last, hm, hdatacount⟩ := hrun.counted sec hmem hid
        obtain rfl : n = m := Option.some.inj (hn.symm.trans hdatacount)
        rcases hmatched secs hsecs sec hmem hid with ⟨last', hzero⟩ | hdata
        · obtain ⟨rfl, -⟩ := Prod.mk.inj (Except.ok.inj (hm.symm.trans hzero))
          by_cases hdata : ∃ other ∈ secs, other.id = .data
          · exact Option.some.inj
              (hn.symm.trans ((hrun.matched hdata).resolve_left (by simp [hn])))
          · rw [hrun.missing fun other hmem' hother => hdata ⟨other, hmem', hother⟩]
            rfl
        · exact Option.some.inj
            (hn.symm.trans ((hrun.matched hdata).resolve_left (by simp [hn])))
      · rw [hrun.uncounted fun sec hmem hid => hany ⟨sec, hmem, hid⟩] at hn
        cases hn
    refine ⟨?_, ?_, ?_⟩
    · intro i body hbody
      obtain ⟨env, instrs, writer, nested, s, hacc⟩ := hinv.bodies i body hbody
      refine ⟨instrs, hacc.decoded, ?_⟩
      intro instr hmem
      refine (hacc.dataInRange instr hmem).mono ?_
      cases hn : st₁.datacount with
      | none => exact Nat.zero_le _
      | some n => exact le_of_eq (hcount n hn)
    · intro secs' hsecs' sec hmem hid
      obtain rfl : secs = secs' := Except.ok.inj (hsecs.symm.trans hsecs')
      obtain ⟨n, last, hn, hdatacount⟩ := hrun.counted sec hmem hid
      exact ⟨last, by rw [hn, hcount n hdatacount]⟩
    · intro ctx ctx' ctx'' hreset hreach
      have hflags := hreach.flagSizes.trans (ExecutionContextBase.reset_flagSizes hreset)
      exact (Prod.mk.inj hflags).1

/-- A module with a memory, a datacount section, a function that initialises memory from the only
segment and drops it, and the data section. -/
def matchedSample : List UInt8 :=
  [0x00, 0x61, 0x73, 0x6d, 0x01, 0x00, 0x00, 0x00] ++
  [0x01, 0x04, 0x01, 0x60, 0x00, 0x00] ++
  [0x03, 0x02, 0x01, 0x00] ++
  [0x05, 0x03, 0x01, 0x00, 0x01] ++
  [0x0c, 0x01, 0x01] ++
  [0x0a, 0x11, 0x01, 0x0f, 0x00, 0x41, 0x00, 0x41, 0x00, 0x41, 0x01, 0xfc, 0x08, 0x00, 0x00, 0xfc,
    0x09, 0x00, 0x0b] ++
  [0x0b, 0x04, 0x01, 0x01, 0x01, 0x2a]

theorem matchedSample_data_segments : ∃ st : ParserState bitcodeWriter,
    parseModule bitcodeWriter defaultOptions matchedSample = .ok st ∧
      (DataSegmentsValid defaultOptions matchedSample st ↔ DataCountMatched matchedSample) := by
  obtain ⟨st, h⟩ := exists_ok_of_isOk
    (show (parseModule bitcodeWriter defaultOptions matchedSample).isOk = true by decide +kernel)
  exact ⟨st, h, data_segments_valid_iff h⟩

/-- The same module without its data section. -/
def unmatchedSample : List UInt8 :=
  [0x00, 0x61, 0x73, 0x6d, 0x01, 0x00, 0x00, 0x00] ++
  [0x01, 0x04, 0x01, 0x60, 0x00, 0x00] ++
  [0x03, 0x02, 0x01, 0x00] ++
  [0x05, 0x03, 0x01, 0x00, 0x01] ++
  [0x0c, 0x01, 0x01] ++
  [0x0a, 0x11, 0x01, 0x0f, 0x00, 0x41, 0x00, 0x41, 0x00, 0x41, 0x01, 0xfc, 0x08, 0x00, 0x00, 0xfc,
    0x09, 0x00, 0x0b]

theorem unmatchedSample_not_valid : ∃ st : ParserState bitcodeWriter,
    parseModule bitcodeWriter defaultOptions unmatchedSample = .ok st ∧
      ¬ DataSegmentsValid defaultOptions unmatchedSample st := by
  have hparsed : (parseModule bitcodeWriter defaultOptions unmatchedSample).toOption.map
      (fun st => (st.mod.data.length, st.functionBodies.map fun body =>
        (decodeBody defaultOptions body.1.bounds (body.1.bounds + 1) body.1).toOption)) =
      some (0,
        [some [.i32Const 0, .i32Const 0, .i32Const 1, .memoryInit 0, .dataDrop 0, .end_]]) := by
    decide +kernel
  obtain ⟨st, h⟩ := exists_ok_of_isOk
    (show (parseModule bitcodeWriter defaultOptions unmatchedSample).isOk = true by decide +kernel)
  refine ⟨st, h, ?_⟩
  intro hvalid
  simp only [h, Except.toOption, Option.map_some, Option.some.injEq, Prod.mk.injEq] at hparsed
  obtain ⟨hlen, hbodies⟩ := hparsed
  obtain ⟨body, hbody, hdecoded⟩ := List.map_eq_singleton_iff.mp hbodies
  obtain ⟨instrs, hinstrs, hrange⟩ := hvalid.indices 0 body (by rw [hbody]; rfl)
  simp only [hinstrs, Option.some.injEq] at hdecoded
  have hzero := hrange (.memoryInit 0) (by simp [hdecoded])
  rw [hlen] at hzero
  exact absurd hzero (Nat.not_lt_zero 0)

end EosVm
