import EosVm.Invariants.Bodies

/-!
# Invariant of the module parser

Sections come in a fixed order, so each section is checked against fields that no later section
changes. `ModuleInvariant` records what has been checked so far and which fields are still empty;
every section parser keeps it.
-/

set_option autoImplicit false

namespace EosVm

open Lib

variable {W : CodeWriter}

theorem parseItems_forall {σ α : Type} {Q : α → Prop}
    {itemParse : Nat → WasmCodePtr → σ → Except VmError (α × WasmCodePtr × σ)}
    (hitem : ∀ idx p s item q s', itemParse idx p s = .ok (item, q, s') → Q item)
    {n idx : Nat} {p q : WasmCodePtr} {s s' : σ} {items : List α}
    (h : parseItems itemParse n idx p s = .ok (items, q, s')) : ∀ item ∈ items, Q item := by
  induction n generalizing idx p s items with
  | zero =>
    simp only [parseItems, pure_eq_ok, Prod.mk.injEq] at h
    rw [← h.1]
    simp
  | succ n ih =>
    simp only [parseItems, bind_eq_ok, pure_eq_ok, Prod.exists, Prod.mk.injEq] at h
    obtain ⟨item, mid, s₁, hi, rest, last, s₂, hr, rfl, rfl, rfl⟩ := h
    intro x hx
    rcases List.mem_cons.mp hx with rfl | hx
    · exact hitem idx p s x mid s₁ hi
    · exact ih hr x hx

theorem stateless_item {α : Type} {Q : α → Prop}
    {itemParse : WasmCodePtr → Except VmError (α × WasmCodePtr)}
    (hitem : ∀ p item q, itemParse p = .ok (item, q) → Q item) {idx : Nat} {p q : WasmCodePtr}
    {s s' : Unit} {item : α} (h : stateless itemParse idx p s = .ok (item, q, s')) : Q item := by
  simp only [stateless, bind_eq_ok, pure_eq_ok, Prod.exists, Prod.mk.injEq] at h
  obtain ⟨item', mid, hi, rfl, -⟩ := h
  exact hitem p item' mid hi

theorem parseVector_forall {α : Type} {Q : α → Prop}
    {itemParse : WasmCodePtr → Except VmError (α × WasmCodePtr)}
    (hitem : ∀ p item q, itemParse p = .ok (item, q) → Q item) {count : Nat} {p q : WasmCodePtr}
    {items : List α} (h : parseVector itemParse count p = .ok (items, q)) :
    ∀ item ∈ items, Q item := by
  simp only [parseVector, bind_eq_ok, pure_eq_ok, Prod.exists, Prod.mk.injEq] at h
  obtain ⟨items', mid, _, hi, rfl, -⟩ := h
  exact parseItems_forall (fun _ _ _ _ _ _ => stateless_item hitem) hi

theorem parsePlainSection_forall {α : Type} {Q : α → Prop} {maxElements : Nat}
    {elemParse : WasmCodePtr → Except VmError (α × WasmCodePtr)}
    (helem : ∀ p item q, elemParse p = .ok (item, q) → Q item) {p q : WasmCodePtr}
    {elems : List α} (h : parsePlainSection maxElements elemParse p = .ok (elems, q)) :
    ∀ elem ∈ elems, Q elem := by
  simp only [parsePlainSection, parseSectionImpl, bind_eq_ok, vmAssert_eq_ok, pure_eq_ok,
    Prod.exists, exists_const, Prod.mk.injEq] at h
  obtain ⟨elems', mid, _, ⟨count, p₁, -, -, hi⟩, rfl, -⟩ := h
  exact parseItems_forall (fun _ _ _ _ _ _ => stateless_item helem) hi

theorem parseItems_length {σ α : Type}
    {itemParse : Nat → WasmCodePtr → σ → Except VmError (α × WasmCodePtr × σ)}
    {n idx : Nat} {p q : WasmCodePtr} {s s' : σ} {items : List α}
    (h : parseItems itemParse n idx p s = .ok (items, q, s')) : items.length = n := by
  induction n generalizing idx p s items with
  | zero =>
    simp only [parseItems, pure_eq_ok, Prod.mk.injEq] at h
    rw [← h.1]
    rfl
  | succ n ih =>
    simp only [parseItems, bind_eq_ok, pure_eq_ok, Prod.exists, Prod.mk.injEq] at h
    obtain ⟨item, mid, s₁, -, rest, last, s₂, hr, rfl, rfl, rfl⟩ := h
    rw [List.length_cons, ih hr]

theorem parsePlainSection_length {α : Type} {maxElements : Nat}
    {elemParse : WasmCodePtr → Except VmError (α × WasmCodePtr)} {p q : WasmCodePtr}
    {elems : List α} (h : parsePlainSection maxElements elemParse p = .ok (elems, q)) :
    elems.length < 2 ^ 32 := by
  simp only [parsePlainSection, parseSectionImpl, bind_eq_ok, vmAssert_eq_ok, pure_eq_ok,
    Prod.exists, exists_const, Prod.mk.injEq] at h
  obtain ⟨elems', mid, _, ⟨count, p₁, hcount, -, hi⟩, rfl, -⟩ := h
  rw [parseItems_length hi]
  exact parseVaruint32_lt hcount

/-- A parsed function type: at most one result, and a result type exactly when there is one. -/
structure FuncType.Formed (ft : FuncType) : Prop where
  form : ft.form = 0x60
  returnCount : ft.returnCount ≤ 1
  noReturn : ft.returnCount = 0 ↔ ft.returnType = none

theorem parseFuncType_formed {o : Options} {p q : WasmCodePtr} {ft : FuncType}
    (h : parseFuncType o p = .ok (ft, q)) : ft.Formed := by
  simp only [parseFuncType, bind_eq_ok, vmAssert_eq_ok, Prod.exists, exists_const, beq_iff_eq,
    decide_eq_true_eq] at h
  obtain ⟨form, p₁, -, hform, count, p₂, -, params, p₃, -, returnCount, p₄, -, hlt, h⟩ := h
  have hcount : returnCount.toNat ≤ 1 := Nat.le_of_lt_succ hlt
  split at h
  next hpos =>
    have hpos' : returnCount.toNat ≠ 0 := Nat.ne_of_gt hpos
    simp only [bind_eq_ok, pure_eq_ok, Prod.exists, Prod.mk.injEq] at h
    obtain ⟨type, p₅, -, rfl, -⟩ := h
    refine ⟨hform, hcount, ?_⟩
    constructor
    · intro hzero
      exact absurd hzero hpos'
    · intro hnone
      cases hnone
  next hzero =>
    have hzero' : returnCount.toNat = 0 := Nat.eq_zero_of_not_pos hzero
    simp only [pure_eq_ok, Prod.mk.injEq] at h
    obtain ⟨rfl, -⟩ := h
    refine ⟨hform, hcount, ?_⟩
    constructor
    · intro _
      rfl
    · intro _
      exact hzero'

/-- An import is a function of an existing type. -/
def ImportEntry.InRange (mod : Module) (entry : ImportEntry) : Prop :=
  entry.kind = .function ∧ entry.funcT < mod.types.length

/-- An export refers to an existing item of its kind. -/
def ExportEntry.InRange (mod : Module) (entry : ExportEntry) : Prop :=
  match entry.kind with
  | .function => entry.index < mod.getFunctionsTotal
  | .table => entry.index < mod.tables.length
  | .memory => entry.index < mod.memories.length
  | .global => entry.index < mod.globals.length

/-- An entry is null or an existing function. -/
def TableEntry.InRange (mod : Module) (entry : TableEntry) : Prop :=
  entry = .null ∨ entry.index < mod.getFunctionsTotal

/-- An entry is null or carries the normalised type of its function. -/
def TableEntry.Typed (fastFunctions : List Nat) (entry : TableEntry) : Prop :=
  entry = .null ∨ fastFunctions[entry.index]? = some entry.type

/-- The table of an active segment and the functions of its entries exist. -/
def ElemSegment.InRange (mod : Module) (segment : ElemSegment) : Prop :=
  (segment.mode = .active → segment.index < mod.tables.length) ∧
    ∀ entry ∈ segment.elems, entry.InRange mod

/-- The memory of an active segment exists. -/
def DataSegment.InRange (mod : Module) (segment : DataSegment) : Prop :=
  segment.passive = false → segment.index < mod.memories.length

theorem parseImportEntry_inRange {o : Options} {mod : Module} {p q : WasmCodePtr}
    {entry : ImportEntry} (h : parseImportEntry o mod p = .ok (entry, q)) : entry.InRange mod := by
  simp only [parseImportEntry, bind_eq_ok, Prod.exists] at h
  obtain ⟨_, _, -, _, _, -, kind, _, -, type, _, -, h⟩ := h
  split at h
  · simp only [bind_eq_ok, vmAssert_eq_ok, pure_eq_ok, exists_const, decide_eq_true_eq,
      Prod.mk.injEq] at h
    obtain ⟨hlt, rfl, -⟩ := h
    exact ⟨rfl, hlt⟩
  · cases h

theorem parseExportEntry_inRange {o : Options} {mod : Module} {p q : WasmCodePtr}
    {entry : ExportEntry} (h : parseExportEntry o mod p = .ok (entry, q)) : entry.InRange mod := by
  simp only [parseExportEntry, bind_eq_ok, Prod.exists] at h
  obtain ⟨_, _, -, kind, _, -, index, _, -, h⟩ := h
  iterate 3
    split at h
    · simp only [bind_eq_ok, vmAssert_eq_ok, pure_eq_ok, exists_const, decide_eq_true_eq,
        Prod.mk.injEq] at h
      obtain ⟨hlt, rfl, -⟩ := h
      exact hlt
  split at h
  · simp only [bind_eq_ok, vmAssert_eq_ok, pure_eq_ok, exists_const, decide_eq_true_eq,
      Prod.mk.injEq] at h
    obtain ⟨hlt, gl, -, -, rfl, -⟩ := h
    exact hlt
  · cases h

theorem parseElemExpr_inRange {mod : Module} {fast : List Nat} {p q : WasmCodePtr}
    {entry : TableEntry} (h : parseElemExpr mod fast p = .ok (entry, q)) :
    entry.InRange mod ∧ entry.Typed fast := by
  simp only [parseElemExpr, bind_eq_ok, pure_eq_ok, Prod.exists, Prod.mk.injEq] at h
  obtain ⟨opcode, p₁, -, entry', p₂, h, p₃, -, rfl, -⟩ := h
  split at h
  · simp only [bind_eq_ok, pure_eq_ok, Prod.exists, Prod.mk.injEq] at h
    obtain ⟨_, -, _, -, _, _, -, rfl, -⟩ := h
    exact ⟨Or.inl rfl, Or.inl rfl⟩
  split at h
  · simp only [bind_eq_ok, vmAssert_eq_ok, vectorAt_eq_ok, pure_eq_ok, Prod.exists, exists_const,
      decide_eq_true_eq, Prod.mk.injEq] at h
    obtain ⟨index, _, -, hlt, type, htype, rfl, -⟩ := h
    exact ⟨Or.inr hlt, Or.inr htype⟩
  · cases h

theorem parseElemIndex_inRange {mod : Module} {fast : List Nat} {p q : WasmCodePtr}
    {entry : TableEntry} (h : parseElemIndex mod fast p = .ok (entry, q)) :
    entry.InRange mod ∧ entry.Typed fast := by
  simp only [parseElemIndex, bind_eq_ok, vmAssert_eq_ok, vectorAt_eq_ok, pure_eq_ok, Prod.exists,
    exists_const, decide_eq_true_eq, Prod.mk.injEq] at h
  obtain ⟨index, _, -, type, htype, hlt, rfl, -⟩ := h
  exact ⟨Or.inr hlt, Or.inr htype⟩

theorem parseElemMode_active {o : Options} {mod : Module} {flags index : Nat} {p q : WasmCodePtr}
    {offset : Option InitExpr} {mode : ElemMode}
    (h : parseElemMode o mod flags index p = .ok ((offset, mode), q)) :
    mode = .active → index < mod.tables.length := by
  intro hm
  unfold parseElemMode at h
  split at h
  · simp only [bind_eq_ok, vmAssert_eq_ok, pure_eq_ok, Prod.exists, exists_const,
      decide_eq_true_eq, Prod.mk.injEq] at h
    obtain ⟨_, _, -, hlt, -⟩ := h
    exact hlt
  split at h <;> simp only [pure_eq_ok, Prod.mk.injEq] at h <;> rw [← h.1.2] at hm <;> cases hm

theorem parseElemSegment_inRange {o : Options} {mod : Module} {fast : List Nat}
    {p q : WasmCodePtr} {segment : ElemSegment}
    (h : parseElemSegment o mod fast p = .ok (segment, q)) :
    segment.InRange mod ∧ ∀ entry ∈ segment.elems, entry.Typed fast := by
  simp only [parseElemSegment, bind_eq_ok, vmAssert_eq_ok, pure_eq_ok, Prod.exists, exists_const,
    Prod.mk.injEq] at h
  obtain ⟨flags, p₁, -, -, -, index, p₂, -, offset, mode, p₃, hmode, p₄, -, _, -, size, p₅, -, -,
    elems, p₆, helems, rfl, -⟩ := h
  have hentries : ∀ entry ∈ elems, entry.InRange mod ∧ entry.Typed fast := by
    unfold parseElemEntries at helems
    split at helems
    · exact parseVector_forall (fun _ _ _ => parseElemExpr_inRange) helems
    · exact parseVector_forall (fun _ _ _ => parseElemIndex_inRange) helems
  exact ⟨⟨parseElemMode_active hmode, fun entry hmem => (hentries entry hmem).1⟩,
    fun entry hmem => (hentries entry hmem).2⟩

theorem parseDataSegment_inRange {o : Options} {mod : Module} {p q : WasmCodePtr}
    {segment : DataSegment} (hbulk : o.enableBulkMemory = true)
    (h : parseDataSegment o mod p = .ok (segment, q)) : segment.InRange mod := by
  simp only [parseDataSegment, parseDataHeader, bind_eq_ok, vmAssert_eq_ok, pure_eq_ok,
    Prod.exists, exists_const, Prod.mk.injEq] at h
  obtain ⟨index, passive, offset, p₁, ⟨flag, p₂, -, hh⟩, len, p₃, -, -, -, inner, -, inner', -, rfl,
    -⟩ := h
  intro hactive
  simp only [hbulk, Bool.true_eq_false, or_false] at hh
  split at hh
  next hzero =>
    simp only [bind_eq_ok, vmAssert_eq_ok, pure_eq_ok, Prod.exists, exists_const,
      Prod.mk.injEq] at hh
    obtain ⟨_, _, -, hne, ⟨rfl, -⟩, -⟩ := hh
    have hpos : mod.memories ≠ [] := by simpa using hne
    rw [hzero]
    exact List.length_pos_iff.mpr hpos
  split at hh
  · simp only [pure_eq_ok, Prod.mk.injEq] at hh
    rw [← hh.1.2.1] at hactive
    cases hactive
  split at hh
  · simp only [bind_eq_ok, vmAssert_eq_ok, pure_eq_ok, Prod.exists, exists_const,
      decide_eq_true_eq, Prod.mk.injEq] at hh
    obtain ⟨index', _, -, _, _, -, hlt, ⟨rfl, -⟩, -⟩ := hh
    exact hlt
  · cases hh

@[simp] theorem typeAliases_length (types : List FuncType) :
    (typeAliases types).length = types.length := List.length_mapIdx ..

/-- `normalize_types` fails unless every function has an existing type. -/
theorem normalizeTypes_spec {mod : Module} {aliases fast : List Nat}
    (h : normalizeTypes mod = .ok (aliases, fast)) :
    aliases = typeAliases mod.types ∧ ∀ type ∈ mod.functions, type < mod.types.length := by
  simp only [normalizeTypes, bind_eq_ok, pure_eq_ok, Prod.mk.injEq] at h
  obtain ⟨imported, -, defined, hd, rfl, -⟩ := h
  refine ⟨rfl, ?_⟩
  intro type htype
  obtain ⟨a, ha⟩ := exists_ok_of_mapM hd htype
  have hlt := (List.getElem?_eq_some_iff.mp (vectorAt_eq_ok.mp ha)).1
  rwa [typeAliases_length] at hlt

/-- What the parser has checked after the sections up to `highest`. -/
structure ModuleInvariant (o : Options) (highest : Nat) (st : ParserState W) : Prop where
  importsFresh : highest < 2 → st.mod.imports = []
  functionsFresh : highest < 3 → st.mod.functions = []
  tablesFresh : highest < 4 → st.mod.tables = []
  memoriesFresh : highest < 5 → st.mod.memories = []
  globalsFresh : highest < 6 → st.mod.globals = []
  exportsFresh : highest < 7 → st.mod.exports = []
  startFresh : highest < 8 → st.mod.start = uint32Max
  elementsFresh : highest < 9 → st.mod.elements = []
  datacountFresh : highest < 10 → st.datacount = none
  bodiesFresh : highest < 11 → st.functionBodies = []
  dataFresh : highest < 12 → st.mod.data = []
  aliasesFresh : highest < 3 → st.typeAliases = [] ∧ st.fastFunctions = []
  types : ∀ ft ∈ st.mod.types, ft.Formed
  typesCount : st.mod.types.length < 2 ^ 32
  normalized : (st.typeAliases = [] ∧ st.fastFunctions = []) ∨
    normalizeTypes st.mod = .ok (st.typeAliases, st.fastFunctions)
  importTypes : ∀ entry ∈ st.mod.imports, entry.InRange st.mod
  functionTypes : ∀ type ∈ st.mod.functions, type < st.mod.types.length
  aliases : st.mod.functions ≠ [] → st.typeAliases = typeAliases st.mod.types
  exports : ∀ entry ∈ st.mod.exports, entry.InRange st.mod
  start : st.mod.start ≠ uint32Max → ∃ ft, st.mod.getFunctionType st.mod.start = .ok ft ∧
    ft.returnCount = 0 ∧ ft.paramTypes = []
  elements : ∀ segment ∈ st.mod.elements, segment.InRange st.mod
  entries : ∀ segment ∈ st.mod.elements, ∀ entry ∈ segment.elems, entry.Typed st.fastFunctions
  data : o.enableBulkMemory = true → ∀ segment ∈ st.mod.data, segment.InRange st.mod
  bodies : ∀ i body, st.functionBodies[i]? = some body →
    ∃ env instrs writer nested s, BodyAccepted o st i body env instrs writer nested s
  codeLength : st.mod.code.length = st.functionBodies.length

theorem ModuleInvariant.initial (o : Options) :
    ModuleInvariant o 0 (ParserState.initial W o) where
  importsFresh := fun _ => rfl
  functionsFresh := fun _ => rfl
  tablesFresh := fun _ => rfl
  memoriesFresh := fun _ => rfl
  globalsFresh := fun _ => rfl
  exportsFresh := fun _ => rfl
  startFresh := fun _ => rfl
  elementsFresh := fun _ => rfl
  datacountFresh := fun _ => rfl
  bodiesFresh := fun _ => rfl
  dataFresh := fun _ => rfl
  aliasesFresh := fun _ => ⟨rfl, rfl⟩
  types := by simp [ParserState.initial]
  typesCount := by simp [ParserState.initial]
  normalized := Or.inl ⟨rfl, rfl⟩
  importTypes := by simp [ParserState.initial]
  functionTypes := by simp [ParserState.initial]
  aliases := fun h => absurd rfl h
  exports := by simp [ParserState.initial]
  start := fun h => absurd rfl h
  elements := by simp [ParserState.initial]
  entries := by simp [ParserState.initial]
  data := by simp [ParserState.initial]
  bodies := by simp [ParserState.initial]
  codeLength := rfl

/-- A section that leaves the checked fields alone keeps the invariant. -/
theorem ModuleInvariant.mono {o : Options} {highest highest' : Nat} {st : ParserState W}
    (h : ModuleInvariant o highest st) (hle : highest ≤ highest') :
    ModuleInvariant o highest' st where
  importsFresh := fun hlt => h.importsFresh (by omega)
  functionsFresh := fun hlt => h.functionsFresh (by omega)
  tablesFresh := fun hlt => h.tablesFresh (by omega)
  memoriesFresh := fun hlt => h.memoriesFresh (by omega)
  globalsFresh := fun hlt => h.globalsFresh (by omega)
  exportsFresh := fun hlt => h.exportsFresh (by omega)
  startFresh := fun hlt => h.startFresh (by omega)
  elementsFresh := fun hlt => h.elementsFresh (by omega)
  datacountFresh := fun hlt => h.datacountFresh (by omega)
  bodiesFresh := fun hlt => h.bodiesFresh (by omega)
  dataFresh := fun hlt => h.dataFresh (by omega)
  aliasesFresh := fun hlt => h.aliasesFresh (by omega)
  types := h.types
  typesCount := h.typesCount
  normalized := h.normalized
  importTypes := h.importTypes
  functionTypes := h.functionTypes
  aliases := h.aliases
  exports := h.exports
  start := h.start
  elements := h.elements
  entries := h.entries
  data := h.data
  bodies := h.bodies
  codeLength := h.codeLength

section Steps

variable {o : Options} {highest : Nat} {p q : WasmCodePtr} {st st' : ParserState W}

-- Each lemma lists the fields whose check reads what the section changes; all of them are still
-- empty, or are what the section's parser has just checked.

theorem ModuleInvariant.custom (h : ModuleInvariant o highest st)
    (hs : parseCustom o p st = .ok (st', q)) : ModuleInvariant o highest st' := by
  simp only [parseCustom, bind_eq_ok, Prod.exists] at hs
  obtain ⟨name, p₁, -, hs⟩ := hs
  split at hs
  · simp only [bind_eq_ok, pure_eq_ok, Prod.exists, Prod.mk.injEq] at hs
    obtain ⟨names, p₂, -, rfl, -⟩ := hs
    exact { h with
      bodies := by
        intro i body hb
        obtain ⟨env, instrs, w, n, s, hacc⟩ := h.bodies i body hb
        exact ⟨env, instrs, w, n, s, hacc.transport rfl rfl rfl rfl (le_refl _)⟩ }
  · simp only [bind_eq_ok, pure_eq_ok, Prod.mk.injEq] at hs
    obtain ⟨p₂, -, rfl, -⟩ := hs
    exact h

theorem ModuleInvariant.type (h : ModuleInvariant o highest st) (hlt : highest < 1)
    (hs : parseSection o .type p st = .ok (st', q)) : ModuleInvariant o 1 st' := by
  simp only [parseSection, bind_eq_ok, pure_eq_ok, Prod.exists, Prod.mk.injEq] at hs
  obtain ⟨types, p₁, hi, rfl, -⟩ := hs
  exact { h.mono (show highest ≤ 1 by omega) with
    types := parsePlainSection_forall (fun _ _ _ => parseFuncType_formed) hi
    typesCount := parsePlainSection_length hi
    normalized := Or.inl (h.aliasesFresh (by omega))
    importTypes := by simp [h.importsFresh (by omega)]
    functionTypes := by simp [h.functionsFresh (by omega)]
    aliases := by simp [h.functionsFresh (by omega)]
    exports := by simp [h.exportsFresh (by omega)]
    start := by simp [h.startFresh (by omega)]
    elements := by simp [h.elementsFresh (by omega)]
    bodies := by simp [h.bodiesFresh (by omega)] }

theorem ModuleInvariant.import_ (h : ModuleInvariant o highest st) (hlt : highest < 2)
    (hs : parseSection o .import_ p st = .ok (st', q)) : ModuleInvariant o 2 st' := by
  simp only [parseSection, bind_eq_ok, pure_eq_ok, Prod.exists, Prod.mk.injEq] at hs
  obtain ⟨imports, p₁, hi, rfl, -⟩ := hs
  exact { h.mono (show highest ≤ 2 by omega) with
    importsFresh := by omega
    normalized := Or.inl (h.aliasesFresh (by omega))
    importTypes := parsePlainSection_forall (fun _ _ _ => parseImportEntry_inRange) hi
    exports := by simp [h.exportsFresh (by omega)]
    start := by simp [h.startFresh (by omega)]
    elements := by simp [h.elementsFresh (by omega)]
    bodies := by simp [h.bodiesFresh (by omega)] }

theorem ModuleInvariant.function (h : ModuleInvariant o highest st) (hlt : highest < 3)
    (hs : parseFunctionSection o p st = .ok (st', q)) : ModuleInvariant o 3 st' := by
  simp only [parseFunctionSection, bind_eq_ok, pure_eq_ok, Prod.exists, Prod.mk.injEq] at hs
  obtain ⟨functions, p₁, -, aliases, fast, hn, rfl, -⟩ := hs
  obtain ⟨haliases, hfunctions⟩ := normalizeTypes_spec hn
  exact { h.mono (show highest ≤ 3 by omega) with
    functionsFresh := by omega
    aliasesFresh := by omega
    normalized := Or.inr hn
    entries := by simp [h.elementsFresh (by omega)]
    functionTypes := hfunctions
    aliases := fun _ => haliases
    exports := by simp [h.exportsFresh (by omega)]
    start := by simp [h.startFresh (by omega)]
    elements := by simp [h.elementsFresh (by omega)]
    bodies := by simp [h.bodiesFresh (by omega)] }

theorem ModuleInvariant.table (h : ModuleInvariant o highest st) (hlt : highest < 4)
    (hs : parseSection o .table p st = .ok (st', q)) : ModuleInvariant o 4 st' := by
  simp only [parseSection, bind_eq_ok, pure_eq_ok, Prod.exists, Prod.mk.injEq] at hs
  obtain ⟨tables, p₁, -, rfl, -⟩ := hs
  exact { h.mono (show highest ≤ 4 by omega) with
    tablesFresh := by omega
    exports := by simp [h.exportsFresh (by omega)]
    elements := by simp [h.elementsFresh (by omega)]
    bodies := by simp [h.bodiesFresh (by omega)] }

theorem ModuleInvariant.memory (h : ModuleInvariant o highest st) (hlt : highest < 5)
    (hs : parseSection o .memory p st = .ok (st', q)) : ModuleInvariant o 5 st' := by
  simp only [parseSection, bind_eq_ok, pure_eq_ok, Prod.exists, Prod.mk.injEq] at hs
  obtain ⟨memories, p₁, -, rfl, -⟩ := hs
  exact { h.mono (show highest ≤ 5 by omega) with
    memoriesFresh := by omega
    exports := by simp [h.exportsFresh (by omega)]
    data := by simp [h.dataFresh (by omega)]
    bodies := by simp [h.bodiesFresh (by omega)] }

theorem ModuleInvariant.global (h : ModuleInvariant o highest st) (hlt : highest < 6)
    (hs : parseSection o .global p st = .ok (st', q)) : ModuleInvariant o 6 st' := by
  simp only [parseSection, bind_eq_ok, pure_eq_ok, Prod.exists, Prod.mk.injEq] at hs
  obtain ⟨globals, p₁, counter, -, rfl, -⟩ := hs
  exact { h.mono (show highest ≤ 6 by omega) with
    globalsFresh := by omega
    exports := by simp [h.exportsFresh (by omega)]
    bodies := by simp [h.bodiesFresh (by omega)] }

theorem ModuleInvariant.export_ (h : ModuleInvariant o highest st) (hlt : highest < 7)
    (hs : parseSection o .export_ p st = .ok (st', q)) : ModuleInvariant o 7 st' := by
  simp only [parseSection, bind_eq_ok, pure_eq_ok, Prod.exists, Prod.mk.injEq] at hs
  obtain ⟨exports, p₁, hi, _, -, rfl, -⟩ := hs
  exact { h.mono (show highest ≤ 7 by omega) with
    exportsFresh := by omega
    exports := parsePlainSection_forall (fun _ _ _ => parseExportEntry_inRange) hi
    bodies := by simp [h.bodiesFresh (by omega)] }

theorem ModuleInvariant.startSection (h : ModuleInvariant o highest st) (hlt : highest < 8)
    (hs : parseStartSection p st = .ok (st', q)) : ModuleInvariant o 8 st' := by
  simp only [parseStartSection, bind_eq_ok, vmAssert_eq_ok, pure_eq_ok, Prod.exists, exists_const,
    Prod.mk.injEq, Bool.and_eq_true, beq_iff_eq, List.isEmpty_iff] at hs
  obtain ⟨start, p₁, -, ft, hft, ⟨hcount, hparams⟩, rfl, -⟩ := hs
  exact { h.mono (show highest ≤ 8 by omega) with
    startFresh := by omega
    start := fun _ => ⟨ft, hft, hcount, hparams⟩
    bodies := by simp [h.bodiesFresh (by omega)] }

theorem ModuleInvariant.element (h : ModuleInvariant o highest st) (hlt : highest < 9)
    (hs : parseSection o .element p st = .ok (st', q)) : ModuleInvariant o 9 st' := by
  simp only [parseSection, bind_eq_ok, pure_eq_ok, Prod.exists, Prod.mk.injEq] at hs
  obtain ⟨elements, p₁, hi, rfl, -⟩ := hs
  have hsegments := parsePlainSection_forall (fun _ _ _ => parseElemSegment_inRange) hi
  exact { h.mono (show highest ≤ 9 by omega) with
    elementsFresh := by omega
    elements := fun segment hmem => (hsegments segment hmem).1
    entries := fun segment hmem => (hsegments segment hmem).2
    bodies := by simp [h.bodiesFresh (by omega)] }

theorem ModuleInvariant.dataCount (h : ModuleInvariant o highest st) (hlt : highest < 10)
    (hs : parseSection o .dataCount p st = .ok (st', q)) : ModuleInvariant o 10 st' := by
  simp only [parseSection, bind_eq_ok, pure_eq_ok, Prod.exists, Prod.mk.injEq] at hs
  obtain ⟨datacount, p₁, -, rfl, -⟩ := hs
  exact { h.mono (show highest ≤ 10 by omega) with
    datacountFresh := by omega
    bodies := by simp [h.bodiesFresh (by omega)] }

theorem ModuleInvariant.code (h : ModuleInvariant o highest st) (hlt : highest < 11)
    (hs : parseCodeSection o p st = .ok (st', q)) : ModuleInvariant o 11 st' := by
  obtain ⟨hcode, hlen, ⟨code, maximumStack, nested, bodies, written, rfl⟩, hall⟩ :=
    parseCodeSection_accepted (h.bodiesFresh (by omega)) hs
  exact { h.mono (show highest ≤ 11 by omega) with
    bodiesFresh := by omega
    bodies := hall
    codeLength := hcode.trans hlen.symm }

theorem ModuleInvariant.dataSection (h : ModuleInvariant o highest st) (hlt : highest < 12)
    (hs : parseDataSection o p st = .ok (st', q)) : ModuleInvariant o 12 st' := by
  simp only [parseDataSection, bind_eq_ok, vmAssert_eq_ok, pure_eq_ok, Prod.exists, exists_const,
    Prod.mk.injEq] at hs
  obtain ⟨data, p₁, hi, -, rfl, -⟩ := hs
  exact { h.mono (show highest ≤ 12 by omega) with
    dataFresh := by omega
    data := fun hbulk =>
      parsePlainSection_forall (fun _ _ _ => parseDataSegment_inRange hbulk) hi
    bodies := by
      intro i body hb
      obtain ⟨env, instrs, w, n, s, hacc⟩ := h.bodies i body hb
      exact ⟨env, instrs, w, n, s, hacc.transport rfl rfl rfl rfl (le_refl _)⟩ }

/-- Every section that may come next keeps the invariant. -/
theorem parseSection_invariant {id : SectionId} (h : ModuleInvariant o highest st)
    (ho : id = .custom ∨ highest < id.order)
    (hs : parseSection o id p st = .ok (st', q)) :
    ModuleInvariant o (max highest id.order) st' := by
  by_cases hc : id = .custom
  · subst hc
    exact (h.custom hs).mono (le_max_left _ _)
  have hlt := ho.resolve_left hc
  rw [max_eq_right (le_of_lt hlt)]
  cases id with
  | custom => exact absurd rfl hc
  | type => exact h.type hlt hs
  | import_ => exact h.import_ hlt hs
  | function => exact h.function hlt hs
  | table => exact h.table hlt hs
  | memory => exact h.memory hlt hs
  | global => exact h.global hlt hs
  | export_ => exact h.export_ hlt hs
  | start => exact h.startSection hlt hs
  | element => exact h.element hlt hs
  | code => exact h.code hlt hs
  | data => exact h.dataSection hlt hs
  | dataCount => exact h.dataCount hlt hs

end Steps

/-- The invariant holds of every accepted module. -/
theorem parseModule_invariant {o : Options} {bytes : List UInt8} {st : ParserState W}
    (h : parseModule W o bytes = .ok st) : ∃ highest, ModuleInvariant o highest st := by
  obtain ⟨secs, st₁, -, hrun, -, rfl⟩ := parseModule_sections h
  obtain ⟨highest, hinv⟩ := runSections_invariant (P := ModuleInvariant o)
    (fun _ _ _ _ _ _ hp ho hs => parseSection_invariant hp ho hs) (ModuleInvariant.initial o) hrun
  exact ⟨highest, { hinv with
    bodies := by
      intro i body hb
      obtain ⟨env, instrs, w, n, s, hacc⟩ := hinv.bodies i body hb
      exact ⟨env, instrs, w, n, s, hacc.transport rfl rfl rfl rfl (le_refl _)⟩ }⟩

/-- The limits of a memory that the parser accepts. -/
structure MemoryType.Formed (memory : MemoryType) : Prop where
  initial : memory.limits.initial ≤ 65536
  minimum : memory.limits.flags = true → memory.limits.initial ≤ memory.limits.maximum
  maximum : memory.limits.flags = true → memory.limits.maximum ≤ 65536

theorem parseMemoryType_formed {o : Options} {p q : WasmCodePtr} {memory : MemoryType}
    (h : parseMemoryType o p = .ok (memory, q)) : memory.Formed := by
  simp only [parseMemoryType, bind_eq_ok, vmAssert_eq_ok, Prod.exists, exists_const,
    decide_eq_true_eq] at h
  obtain ⟨flags, p₁, -, initial, p₂, -, -, hinitial, h⟩ := h
  split at h
  · simp only [bind_eq_ok, vmAssert_eq_ok, pure_eq_ok, Prod.exists, exists_const,
      decide_eq_true_eq, Prod.mk.injEq] at h
    obtain ⟨maximum, p₃, -, hmin, hmax, rfl, -⟩ := h
    exact ⟨hinitial, fun _ => hmin, fun _ => hmax⟩
  next hflags =>
    simp only [pure_eq_ok, Prod.mk.injEq] at h
    obtain ⟨rfl, -⟩ := h
    exact ⟨hinitial, fun hset => absurd hset hflags, fun hset => absurd hset hflags⟩

/-- Only the memory section touches the memories. -/
theorem parseSection_memories {o : Options} {highest : Nat} {id : SectionId} {p q : WasmCodePtr}
    {st st' : ParserState W} (h : ModuleInvariant o highest st)
    (ho : id = .custom ∨ highest < id.order) (hs : parseSection o id p st = .ok (st', q)) :
    st'.mod.memories = st.mod.memories ∨ ∀ memory ∈ st'.mod.memories, memory.Formed := by
  cases id with
  | custom =>
    simp only [parseSection, parseCustom, bind_eq_ok, Prod.exists] at hs
    obtain ⟨name, p₁, -, hs⟩ := hs
    split at hs
    · simp only [bind_eq_ok, pure_eq_ok, Prod.exists, Prod.mk.injEq] at hs
      obtain ⟨names, p₂, -, rfl, -⟩ := hs
      exact Or.inl rfl
    · simp only [bind_eq_ok, pure_eq_ok, Prod.mk.injEq] at hs
      obtain ⟨p₂, -, rfl, -⟩ := hs
      exact Or.inl rfl
  | memory =>
    simp only [parseSection, bind_eq_ok, pure_eq_ok, Prod.exists, Prod.mk.injEq] at hs
    obtain ⟨memories, p₁, hi, rfl, -⟩ := hs
    exact Or.inr (parsePlainSection_forall (fun _ _ _ => parseMemoryType_formed) hi)
  | code =>
    have hlt : highest < 11 := ho.resolve_left (by decide)
    obtain ⟨-, -, ⟨code, maximumStack, nested, bodies, written, rfl⟩, -⟩ :=
      parseCodeSection_accepted (h.bodiesFresh hlt) hs
    exact Or.inl rfl
  | type | import_ | table | element | dataCount =>
    simp only [parseSection, bind_eq_ok, pure_eq_ok, Prod.exists, Prod.mk.injEq] at hs
    obtain ⟨_, _, -, rfl, -⟩ := hs
    exact Or.inl rfl
  | function =>
    simp only [parseSection, parseFunctionSection, bind_eq_ok, pure_eq_ok, Prod.exists,
      Prod.mk.injEq] at hs
    obtain ⟨_, _, -, _, _, -, rfl, -⟩ := hs
    exact Or.inl rfl
  | global =>
    simp only [parseSection, bind_eq_ok, pure_eq_ok, Prod.exists, Prod.mk.injEq] at hs
    obtain ⟨_, _, _, -, rfl, -⟩ := hs
    exact Or.inl rfl
  | export_ =>
    simp only [parseSection, bind_eq_ok, pure_eq_ok, Prod.exists, Prod.mk.injEq] at hs
    obtain ⟨_, _, -, _, -, rfl, -⟩ := hs
    exact Or.inl rfl
  | start =>
    simp only [parseSection, parseStartSection, bind_eq_ok, pure_eq_ok, Prod.exists,
      Prod.mk.injEq] at hs
    obtain ⟨_, _, -, _, -, _, -, rfl, -⟩ := hs
    exact Or.inl rfl
  | data =>
    simp only [parseSection, parseDataSection, bind_eq_ok, pure_eq_ok, Prod.exists,
      Prod.mk.injEq] at hs
    obtain ⟨_, _, -, _, -, rfl, -⟩ := hs
    exact Or.inl rfl

/-- The limits of every memory of an accepted module. -/
theorem parseModule_memories {o : Options} {bytes : List UInt8} {st : ParserState W}
    (h : parseModule W o bytes = .ok st) : ∀ memory ∈ st.mod.memories, memory.Formed := by
  obtain ⟨secs, st₁, -, hrun, -, rfl⟩ := parseModule_sections h
  obtain ⟨highest, -, hformed⟩ := runSections_invariant
    (P := fun highest st => ModuleInvariant o highest st ∧ ∀ memory ∈ st.mod.memories,
      memory.Formed)
    (fun highest id payload last st st' hp ho hs => by
      refine ⟨parseSection_invariant hp.1 ho hs, ?_⟩
      rcases parseSection_memories hp.1 ho hs with hsame | hformed
      · rw [hsame]
        exact hp.2
      · exact hformed)
    ⟨ModuleInvariant.initial o, by simp [ParserState.initial]⟩ hrun
  exact hformed

end EosVm
