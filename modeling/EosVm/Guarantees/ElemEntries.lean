import EosVm.Guarantees.CallIndirect

/-!
# Types of element entries

`parse_elem_segment` takes the type of an entry from `fast_functions`, which `normalize_types` fills
when the function section has been parsed. Without a function section no entry can name an imported
function. With one, the stored type is the first that `operator==` identifies with that of the
function, which can have another result.
-/

set_option autoImplicit false

namespace EosVm

open Lib

variable {W : CodeWriter}

section Sections

variable {o : Options} {id : SectionId} {p q : WasmCodePtr} {st st' : ParserState W}

/-- The fields that `normalize_types` reads and writes are the same. -/
structure SameFunctions (st st' : ParserState W) : Prop where
  types : st'.mod.types = st.mod.types
  imports : st'.mod.imports = st.mod.imports
  functions : st'.mod.functions = st.mod.functions
  fast : st'.fastFunctions = st.fastFunctions
  aliases : st'.typeAliases = st.typeAliases

theorem parseSection_sameFunctions (hid : id.order < SectionId.element.order)
    (hlate : id = .custom ∨ 3 < id.order) (hs : parseSection o id p st = .ok (st', q)) :
    SameFunctions st st' := by
  cases id with
  | custom =>
    simp only [parseSection, parseCustom, bind_eq_ok, Prod.exists] at hs
    obtain ⟨name, p₁, -, hs⟩ := hs
    split at hs
    · simp only [bind_eq_ok, pure_eq_ok, Prod.exists, Prod.mk.injEq] at hs
      obtain ⟨names, p₂, -, rfl, -⟩ := hs
      exact ⟨rfl, rfl, rfl, rfl, rfl⟩
    · simp only [bind_eq_ok, pure_eq_ok, Prod.mk.injEq] at hs
      obtain ⟨p₂, -, rfl, -⟩ := hs
      exact ⟨rfl, rfl, rfl, rfl, rfl⟩
  | type | import_ | function => simp [SectionId.order] at hlate
  | element | code | data | dataCount => simp [SectionId.order] at hid
  | table | memory =>
    simp only [parseSection, bind_eq_ok, pure_eq_ok, Prod.exists, Prod.mk.injEq] at hs
    obtain ⟨_, _, -, rfl, -⟩ := hs
    exact ⟨rfl, rfl, rfl, rfl, rfl⟩
  | global =>
    simp only [parseSection, bind_eq_ok, pure_eq_ok, Prod.exists, Prod.mk.injEq] at hs
    obtain ⟨_, _, _, -, rfl, -⟩ := hs
    exact ⟨rfl, rfl, rfl, rfl, rfl⟩
  | export_ =>
    simp only [parseSection, bind_eq_ok, pure_eq_ok, Prod.exists, Prod.mk.injEq] at hs
    obtain ⟨_, _, -, _, -, rfl, -⟩ := hs
    exact ⟨rfl, rfl, rfl, rfl, rfl⟩
  | start =>
    simp only [parseSection, parseStartSection, bind_eq_ok, pure_eq_ok, Prod.exists,
      Prod.mk.injEq] at hs
    obtain ⟨_, _, -, _, -, _, -, rfl, -⟩ := hs
    exact ⟨rfl, rfl, rfl, rfl, rfl⟩

/-- Only the function section fills `fast_functions`. -/
theorem parseSection_fast (hid : id.order < SectionId.element.order) (hne : id ≠ .function)
    (hs : parseSection o id p st = .ok (st', q)) : st'.fastFunctions = st.fastFunctions := by
  by_cases hlate : id = .custom ∨ 3 < id.order
  · exact (parseSection_sameFunctions hid hlate hs).fast
  · cases id with
    | type | import_ =>
      simp only [parseSection, bind_eq_ok, pure_eq_ok, Prod.exists, Prod.mk.injEq] at hs
      obtain ⟨_, _, -, rfl, -⟩ := hs
      rfl
    | function => exact absurd rfl hne
    | custom | table | memory | global | export_ | start | element | code | data | dataCount =>
      exact absurd (by simp [SectionId.order]) hlate

theorem normalizeTypes_congr (h : SameFunctions st st') :
    normalizeTypes st'.mod = normalizeTypes st.mod := by
  simp only [normalizeTypes, Module.getImportedFunctionsSize, h.types, h.imports, h.functions]

/-- `fast_functions` belongs to the module. -/
def Normalized (st : ParserState W) : Prop :=
  normalizeTypes st.mod = .ok (st.typeAliases, st.fastFunctions)

variable {secs : List ModuleSection} {highest : Nat}

theorem runSections_normalized (hsecs : ∀ sec ∈ secs, sec.id.order < SectionId.element.order)
    (hlate : 3 ≤ highest) (hn : Normalized st) (h : runSections o secs highest st = .ok st') :
    Normalized st' := by
  induction secs generalizing highest st with
  | nil => rwa [← pure_eq_ok.mp h]
  | cons sec secs ih =>
    obtain ⟨ho, st₁, last, hsec, hrest⟩ := runSections_cons h
    have hsame := parseSection_sameFunctions (hsecs sec List.mem_cons_self)
      (ho.imp_right (Nat.lt_of_le_of_lt hlate)) hsec
    refine ih (fun s hs => hsecs s (List.mem_cons_of_mem sec hs))
      (Nat.le_trans hlate (le_max_left _ _)) ?_ hrest
    rw [Normalized, normalizeTypes_congr hsame, hsame.fast, hsame.aliases]
    exact hn

/-- After a function section. -/
theorem runSections_function (hsecs : ∀ sec ∈ secs, sec.id.order < SectionId.element.order)
    (hfunction : ∃ sec ∈ secs, sec.id = .function) (h : runSections o secs highest st = .ok st') :
    Normalized st' := by
  induction secs generalizing highest st with
  | nil => simp at hfunction
  | cons sec secs ih =>
    obtain ⟨-, st₁, last, hsec, hrest⟩ := runSections_cons h
    have hsecs' := fun s hs => hsecs s (List.mem_cons_of_mem sec hs)
    by_cases hid : sec.id = .function
    · rw [hid] at hsec hrest
      simp only [parseSection, parseFunctionSection, bind_eq_ok, pure_eq_ok, Prod.exists,
        Prod.mk.injEq] at hsec
      obtain ⟨functions, p₁, -, aliases, fast, hn, rfl, -⟩ := hsec
      exact runSections_normalized hsecs' (le_max_right highest 3) (by exact hn) hrest
    · obtain ⟨sec', hmem, hsec'⟩ := hfunction
      rcases List.mem_cons.mp hmem with rfl | hmem
      · exact absurd hsec' hid
      · exact ih hsecs' ⟨sec', hmem, hsec'⟩ hrest

/-- Without a function section. -/
theorem runSections_noFunction (hsecs : ∀ sec ∈ secs, sec.id.order < SectionId.element.order)
    (hnone : ∀ sec ∈ secs, sec.id ≠ .function) (h : runSections o secs highest st = .ok st') :
    st'.fastFunctions = st.fastFunctions := by
  induction secs generalizing highest st with
  | nil => rw [← pure_eq_ok.mp h]
  | cons sec secs ih =>
    obtain ⟨-, st₁, last, hsec, hrest⟩ := runSections_cons h
    rw [ih (fun s hs => hsecs s (List.mem_cons_of_mem sec hs))
      (fun s hs => hnone s (List.mem_cons_of_mem sec hs)) hrest]
    exact parseSection_fast (hsecs sec List.mem_cons_self) (hnone sec List.mem_cons_self) hsec

end Sections

/-- The two forms of an entry. -/
inductive EntryForm where
  | index | refFunc

/-- The code holds an entry that names function `f`. -/
def EntryForm.Names (form : EntryForm) (code : WasmCodePtr) (f : Nat) (next : WasmCodePtr) : Prop :=
  match form with
  | index => parseVaruint32 code = .ok (f, next)
  | refFunc => ∃ p₁ p₂, code.next = .ok (0xD2, p₁) ∧ parseVaruint32 p₁ = .ok (f, p₂) ∧
      parseEndOp p₂ = .ok next

def EntryForm.parse (form : EntryForm) (mod : Module) (fastFunctions : List Nat)
    (code : WasmCodePtr) :
    Except VmError (TableEntry × WasmCodePtr) :=
  match form with
  | index => parseElemIndex mod fastFunctions code
  | refFunc => parseElemExpr mod fastFunctions code

/-- `type` is the least index of a type with this signature. -/
def IsCanonicalType (types : List FuncType) (ft : FuncType) (type : Nat) : Prop :=
  (∃ ft' : FuncType, types[type]? = some ft' ∧ ft'.SameSignature ft) ∧
    ∀ (j : Nat) (ft' : FuncType), j < type → types[j]? = some ft' → ¬ ft'.SameSignature ft

/-- Every type that differs from `ft` in its result only comes after one with the
signature of `ft`. -/
def ResultsAfter (types : List FuncType) (ft : FuncType) : Prop :=
  ∀ (j : Nat) (ft' : FuncType), types[j]? = some ft' → ft'.paramTypes = ft.paramTypes →
    ft'.returnCount = ft.returnCount → ¬ ft'.SameSignature ft →
      ∃ (i : Nat) (ft'' : FuncType), i < j ∧ types[i]? = some ft'' ∧ ft''.SameSignature ft

theorem EntryForm.parse_eq {form : EntryForm} {mod : Module} {fastFunctions : List Nat}
    {code next : WasmCodePtr} {f : Nat} (h : form.Names code f next)
    (hf : f < mod.getFunctionsTotal) :
    form.parse mod fastFunctions code =
      (vectorAt fastFunctions f).map fun type => (⟨type, f⟩, next) := by
  cases form with
  | index =>
    have hread : parseVaruint32 code = .ok (f, next) := h
    simp only [parse, parseElemIndex, hread, ok_bind, vmAssert, hf, decide_true, if_true]
    cases vectorAt fastFunctions f <;> rfl
  | refFunc =>
    obtain ⟨p₁, p₂, hop, hread, hend⟩ := h
    simp only [parse, parseElemExpr, hop, hread, ok_bind, vmAssert, hf, decide_true, if_true]
    rw [if_neg (by decide)]
    cases vectorAt fastFunctions f with
    | error e => rfl
    | ok type =>
      simp only [ok_bind, pure_bind, hend]
      rfl

/-- A function's alias is the least type that `operator==` identifies with its type. -/
theorem canonical_iff {types : List FuncType} (htypes : ∀ ft ∈ types, ft.Formed) {ft : FuncType}
    (hft : ft ∈ types) {k : Nat} {y : FuncType} (hy : types[k]? = some y) (heq : y.equal ft = true)
    (hleast : ∀ (j : Nat) (z : FuncType), j < k → types[j]? = some z → z.equal ft = false) :
    IsCanonicalType types ft k ↔ ResultsAfter types ft := by
  have hequal : ∀ (j : Nat) (z : FuncType), types[j]? = some z → (z.equal ft = true ↔
      z.paramTypes = ft.paramTypes ∧ z.returnCount = ft.returnCount) := fun j z hz =>
    FuncType.equal_iff (htypes z (List.mem_of_getElem? hz)) (htypes ft hft)
  have hnone : ∀ (j : Nat) (z : FuncType), j < k → types[j]? = some z → ¬ z.SameSignature ft := by
    intro j z hj hz hsame
    have := (hequal j z hz).mpr ⟨hsame.1, hsame.2.1⟩
    rw [hleast j z hj hz] at this
    cases this
  constructor
  · rintro ⟨⟨y', hy', hsame⟩, -⟩ j z hz hparams hcount hdiffers
    refine ⟨k, y', ?_, hy', hsame⟩
    rcases Nat.lt_trichotomy k j with hlt | rfl | hgt
    · exact hlt
    · rw [hy', Option.some.injEq] at hz
      exact absurd (hz ▸ hsame) hdiffers
    · have := (hequal j z hz).mpr ⟨hparams, hcount⟩
      rw [hleast j z hgt hz] at this
      cases this
  · intro hafter
    refine ⟨⟨y, hy, ?_⟩, hnone⟩
    by_contra hdiffers
    obtain ⟨hparams, hcount⟩ := (hequal k y hy).mp heq
    obtain ⟨i, z, hi, hz, hsame⟩ := hafter k y hy hparams hcount hdiffers
    exact hnone i z hi hz hsame

section Prefixes

variable {o : Options} {secs : List ModuleSection} {st : ParserState W}

/-- The normalised type of every function is known after a function section. -/
theorem Normalized.fast_length (hn : Normalized st) :
    st.fastFunctions.length = min st.mod.getImportedFunctionsSize st.mod.imports.length +
      st.mod.functions.length := by
  simp only [Normalized, normalizeTypes, bind_eq_ok, pure_eq_ok, Prod.mk.injEq] at hn
  obtain ⟨imported, himported, defined, hdefined, -, hfast⟩ := hn
  rw [← hfast, List.length_append, ← (mapM_eq_ok.mp himported).length_eq,
    ← (mapM_eq_ok.mp hdefined).length_eq, List.length_take]

/-- An entry that names a function gets its canonical type exactly when there is a function section
and no type that differs in its result only comes first. -/
theorem elem_entry_canonical_iff
    (hrun : runSections o secs 0 (ParserState.initial W o) = .ok st)
    (hsecs : ∀ sec ∈ secs, sec.id.order < SectionId.element.order) {form : EntryForm}
    {code next : WasmCodePtr} {f : Nat} (hnames : form.Names code f next)
    (hf : f < st.mod.getFunctionsTotal) :
    (∃ ft type, st.mod.getFunctionType f = .ok ft ∧ IsCanonicalType st.mod.types ft type ∧
        form.parse st.mod st.fastFunctions code = .ok (⟨type, f⟩, next)) ↔
      (∃ sec ∈ secs, sec.id = .function) ∧
        ∀ ft, st.mod.getFunctionType f = .ok ft → ResultsAfter st.mod.types ft := by
  obtain ⟨highest, hinv⟩ := runSections_invariant (P := ModuleInvariant o)
    (fun _ _ _ _ _ _ hp ho hs => parseSection_invariant hp ho hs) (ModuleInvariant.initial o) hrun
  have himports : st.mod.getImportedFunctionsSize = st.mod.imports.length :=
    getImportedFunctionsSize_eq fun entry hentry => (hinv.importTypes entry hentry).1
  rw [EntryForm.parse_eq hnames hf]
  by_cases hfunction : ∃ sec ∈ secs, sec.id = .function
  · have hn := runSections_function hsecs hfunction hrun
    have hlt : f < st.fastFunctions.length := by
      rw [hn.fast_length, himports, Nat.min_self, ← himports]
      exact hf
    obtain ⟨norm, hnorm⟩ : ∃ norm, st.fastFunctions[f]? = some norm :=
      ⟨_, List.getElem?_eq_getElem hlt⟩
    obtain ⟨type, ft, hft, htype, halias⟩ := normalizeTypes_fast hn himports hnorm
    rw [(normalizeTypes_spec hn).1, typeAliases_eq_classReps] at halias
    obtain ⟨⟨y, hy, heq⟩, hleast⟩ :=
      classReps_spec (FuncType.equal_equivOn hinv.types) htype halias
    have hiff := canonical_iff hinv.types (List.mem_of_getElem? htype) hy heq hleast
    rw [vectorAt_eq_ok.mpr hnorm]
    constructor
    · rintro ⟨ft', type', hft', hcanonical, hentry⟩
      obtain rfl : ft = ft' := Except.ok.inj (hft.symm.trans hft')
      injection hentry with hentry
      injection hentry with hentry _
      injection hentry with hnorm'
      subst hnorm'
      refine ⟨hfunction, fun ft' hft' => ?_⟩
      obtain rfl : ft = ft' := Except.ok.inj (hft.symm.trans hft')
      exact hiff.mp hcanonical
    · rintro ⟨-, hafter⟩
      exact ⟨ft, norm, hft, hiff.mpr (hafter ft hft), rfl⟩
  · have hfast : st.fastFunctions = [] :=
      runSections_noFunction hsecs (fun sec hsec hid => hfunction ⟨sec, hsec, hid⟩) hrun
    rw [hfast]
    refine iff_of_false ?_ fun h => hfunction h.1
    rintro ⟨ft, type, -, -, hentry⟩
    cases hentry

end Prefixes

/-- A type, an imported function of this type and a table. -/
def importSample : List UInt8 :=
  [0x00, 0x61, 0x73, 0x6d, 0x01, 0x00, 0x00, 0x00] ++ [0x01, 0x04, 0x01, 0x60, 0x00, 0x00] ++
  [0x02, 0x07, 0x01, 0x01, 0x65, 0x01, 0x66, 0x00, 0x00] ++ [0x04, 0x04, 0x01, 0x70, 0x00, 0x01]

/-- The same with a function section. -/
def functionSample : List UInt8 :=
  [0x00, 0x61, 0x73, 0x6d, 0x01, 0x00, 0x00, 0x00] ++ [0x01, 0x04, 0x01, 0x60, 0x00, 0x00] ++
  [0x02, 0x07, 0x01, 0x01, 0x65, 0x01, 0x66, 0x00, 0x00] ++ [0x03, 0x02, 0x01, 0x00] ++
  [0x04, 0x04, 0x01, 0x70, 0x00, 0x01]

/-- The sections of a sample and the parser after them. -/
def runSample (bytes : List UInt8) :
    Except VmError (List ModuleSection × ParserState bitcodeWriter) := do
  let secs ← moduleSections bytes
  let st ← runSections defaultOptions secs 0 (ParserState.initial bitcodeWriter defaultOptions)
  pure (secs, st)

theorem functionSample_run : (runSample functionSample).toOption.map (fun r =>
    (r.1.all fun sec => decide (sec.id.order < SectionId.element.order),
      r.2.mod.getFunctionsTotal)) = some (true, 2) := by
  decide +kernel

theorem importSample_run : (runSample importSample).toOption.map (fun r =>
    (r.2.mod.getFunctionsTotal, r.2.fastFunctions)) = some (1, []) := by
  decide +kernel

theorem functionSample_entry : ∃ secs st, runSample functionSample = .ok (secs, st) ∧
    ((∃ ft type, st.mod.getFunctionType 0 = .ok ft ∧ IsCanonicalType st.mod.types ft type ∧
        EntryForm.parse .index st.mod st.fastFunctions (WasmCodePtr.make [0] 0 1) =
          .ok (⟨type, 0⟩, ⟨[0], 1, 0, 1⟩)) ↔
      (∃ sec ∈ secs, sec.id = .function) ∧
        ∀ ft, st.mod.getFunctionType 0 = .ok ft → ResultsAfter st.mod.types ft) := by
  obtain ⟨⟨secs, st⟩, hsample, hfacts⟩ := Option.map_eq_some_iff.mp functionSample_run
  have h := toOption_eq_some.mp hsample
  simp only [Prod.mk.injEq, List.all_eq_true, decide_eq_true_eq] at hfacts
  obtain ⟨hsecs, htotal⟩ := hfacts
  have hf : 0 < st.mod.getFunctionsTotal := by omega
  have hparts := h
  simp only [runSample, bind_eq_ok, pure_eq_ok, Prod.mk.injEq] at hparts
  obtain ⟨secs', -, st', hrun, rfl, rfl⟩ := hparts
  have hnames : EntryForm.Names .index (WasmCodePtr.make [0] 0 1) 0 ⟨[0], 1, 0, 1⟩ := rfl
  exact ⟨secs', st', h, elem_entry_canonical_iff hrun hsecs hnames hf⟩

/-- An entry that names an imported function is rejected. -/
theorem importSample_entry_rejected : ∃ secs st, runSample importSample = .ok (secs, st) ∧
    EntryForm.Names .index (WasmCodePtr.make [0] 0 1) 0 ⟨[0], 1, 0, 1⟩ ∧
      0 < st.mod.getFunctionsTotal ∧
        ∀ r, EntryForm.parse .index st.mod st.fastFunctions (WasmCodePtr.make [0] 0 1) ≠ .ok r := by
  obtain ⟨⟨secs, st⟩, hsample, hfacts⟩ := Option.map_eq_some_iff.mp importSample_run
  simp only [Prod.mk.injEq] at hfacts
  obtain ⟨htotal, hfast⟩ := hfacts
  have hf : 0 < st.mod.getFunctionsTotal := by omega
  have hnames : EntryForm.Names .index (WasmCodePtr.make [0] 0 1) 0 ⟨[0], 1, 0, 1⟩ := rfl
  refine ⟨secs, st, toOption_eq_some.mp hsample, hnames, hf, fun r hr => ?_⟩
  rw [EntryForm.parse_eq hnames hf, hfast] at hr
  cases hr

end EosVm
