import EosVm.Invariants.Indices
import EosVm.Spec.Typing

/-!
# Typing context of a body

What `parse_function_body_code` looks up in the module and in the locals is what the typing rules
look up in their context.
-/

set_option autoImplicit false

namespace EosVm

open Lib

/-- The types of the parameters and the declared locals, one for each index. -/
def localList (ft : FuncType) (locals : List LocalEntry) : List ValType :=
  ft.paramTypes ++ locals.flatMap fun entry => List.replicate entry.count entry.type

/-- The typing context of a body with the open blocks `ctrl`. -/
def BodyEnv.context (env : BodyEnv) (ctrl : List Ctrl) : Spec.Context where
  types := env.mod.types
  funcs := env.mod.imports.map ImportEntry.funcT ++ env.mod.functions
  tables := env.mod.tables.length
  mems := env.mod.memories.length
  globals := env.mod.globals.map fun gl => (gl.type.contentType, gl.type.mutability)
  locals := localList env.ft env.localTypes.locals
  labels := ctrl.map Ctrl.labelResult
  result := env.ft.result

/-- What the parser of the module guarantees before it parses a body: only functions are imported,
functions have at most one result, the types are normalised, and the locals are those of the
function. -/
structure BodyEnv.Valid (env : BodyEnv) : Prop where
  imports : ∀ entry ∈ env.mod.imports, entry.kind = .function
  types : ∀ ft ∈ env.mod.types, ft.returnCount ≤ 1
  aliases : env.typeAliases.length = env.mod.types.length
  locals : LocalTypes.make env.ft env.localTypes.locals = .ok env.localTypes

theorem getFunctionType_iff {mod : Module} (h : ∀ entry ∈ mod.imports, entry.kind = .function)
    {x : Nat} {ft : FuncType} :
    mod.getFunctionType x = .ok ft ↔
      ∃ y, (mod.imports.map ImportEntry.funcT ++ mod.functions)[x]? = some y ∧
        mod.types[y]? = some ft := by
  unfold Module.getFunctionType
  rw [getImportedFunctionsSize_eq h]
  split
  next hlt =>
    rw [List.getElem?_append_left (by rwa [List.length_map]), List.getElem?_map]
    simp only [bind_eq_ok, vectorAt_eq_ok, Option.map_eq_some_iff]
    constructor
    · rintro ⟨entry, hentry, htype⟩
      exact ⟨entry.funcT, ⟨entry, hentry, rfl⟩, htype⟩
    · rintro ⟨y, ⟨entry, hentry, rfl⟩, htype⟩
      exact ⟨entry, hentry, htype⟩
  next hge =>
    rw [List.getElem?_append_right (by rw [List.length_map]; omega), List.length_map]
    simp only [bind_eq_ok, vectorAt_eq_ok]

/-- The boundaries after the first one, each with the type of the locals below it. -/
theorem findIdx_makeBoundaries {count x : Nat} {locals : List LocalEntry} {boundaries : List Nat}
    (h : LocalTypes.makeBoundaries count locals = .ok boundaries) (hge : count ≤ x)
    (hlt : x < boundaries.getLastD 0) :
    ∃ pos entry, boundaries.findIdx (x < ·) = pos + 1 ∧ locals[pos]? = some entry ∧
      (locals.flatMap fun e => List.replicate e.count e.type)[x - count]? = some entry.type := by
  induction locals generalizing count boundaries with
  | nil =>
    obtain rfl := pure_eq_ok.mp h
    simp at hlt
    omega
  | cons entry locals ih =>
    simp only [LocalTypes.makeBoundaries, bind_eq_ok, vmAssert_eq_ok, pure_eq_ok,
      exists_const] at h
    obtain ⟨-, rest, hrest, rfl⟩ := h
    have hnot : ¬ x < count := by omega
    have hfind : (count :: rest).findIdx (x < ·) = rest.findIdx (x < ·) + 1 := by
      rw [List.findIdx_cons]
      simp [hnot]
    by_cases hfirst : x < count + entry.count
    · -- a local of the first entry
      refine ⟨0, entry, ?_, rfl, ?_⟩
      · rw [hfind]
        cases locals with
        | nil =>
          obtain rfl := pure_eq_ok.mp hrest
          simp [List.findIdx_cons, hfirst]
        | cons e es =>
          simp only [LocalTypes.makeBoundaries, bind_eq_ok, vmAssert_eq_ok, pure_eq_ok,
            exists_const] at hrest
          obtain ⟨-, more, -, rfl⟩ := hrest
          simp [List.findIdx_cons, hfirst]
      · rw [List.flatMap_cons, List.getElem?_append_left (by rw [List.length_replicate]; omega),
          List.getElem?_replicate, if_pos (by omega)]
    · have hne : rest ≠ [] := by
        intro hnil
        rw [hnil] at hlt
        simp at hlt
        omega
      rw [List.getLastD_cons, List.getLastD_eq_getLast?] at hlt
      have hlast : x < rest.getLastD 0 := by
        rw [List.getLastD_eq_getLast?]
        rwa [List.getLast?_eq_some_getLast hne] at hlt ⊢
      obtain ⟨pos, e, hpos, he, htype⟩ := ih hrest (by omega) hlast
      refine ⟨pos + 1, e, by rw [hfind, hpos], by rw [List.getElem?_cons_succ]; exact he, ?_⟩
      rw [List.flatMap_cons, List.getElem?_append_right (by simp; omega), List.length_replicate,
        show x - count - entry.count = x - (count + entry.count) by omega]
      exact htype

theorem localList_length (ft : FuncType) (locals : List LocalEntry) :
    (localList ft locals).length = localsTotal ft locals := by
  unfold localList localsTotal
  rw [List.length_append, List.length_flatMap]
  simp

/-- `local_types_t::operator[]` is the lookup in the list of all locals. -/
theorem LocalTypes.get_iff {ft : FuncType} {lt : LocalTypes}
    (h : LocalTypes.make ft lt.locals = .ok lt) {x : Nat} {t : ValType} :
    lt.get x = .ok t ↔ (localList ft lt.locals)[x]? = some t := by
  obtain ⟨htotal, hft, -⟩ := LocalTypes.make_total h
  have hbounds : LocalTypes.makeBoundaries ft.paramTypes.length lt.locals = .ok lt.boundaries := by
    simp only [LocalTypes.make, bind_eq_ok, pure_eq_ok] at h
    obtain ⟨boundaries, hb, heq⟩ := h
    rw [hb, ← heq]
  have hlen := localList_length ft lt.locals
  by_cases hlt : x < lt.boundaries.getLastD 0
  · have hassert : vmAssert (decide (x < lt.boundaries.getLastD 0))
        (.wasmParse "undefined local") = .ok () := vmAssert_eq_ok.mpr (decide_eq_true hlt)
    unfold LocalTypes.get
    rw [hassert, ok_bind]
    by_cases hparam : x < ft.paramTypes.length
    · have hfind : lt.boundaries.findIdx (x < ·) = 0 := by
        cases hl : lt.locals with
        | nil =>
          rw [hl] at hbounds
          rw [← pure_eq_ok.mp hbounds, List.findIdx_cons]
          simp [hparam]
        | cons e es =>
          rw [hl] at hbounds
          simp only [LocalTypes.makeBoundaries, bind_eq_ok, vmAssert_eq_ok, pure_eq_ok,
            exists_const] at hbounds
          obtain ⟨-, more, -, heq⟩ := hbounds
          rw [← heq, List.findIdx_cons]
          simp [hparam]
      rw [hfind, localList, List.getElem?_append_left hparam, hft]
      exact vectorAt_eq_ok
    · obtain ⟨pos, entry, hfind, hentry, htype⟩ :=
        findIdx_makeBoundaries hbounds (by omega) hlt
      rw [hfind, localList, List.getElem?_append_right (by omega), htype]
      simp only [vectorAt_eq_ok.mpr hentry, ok_bind, pure_eq_ok, Option.some.injEq]
  · have hnone : (localList ft lt.locals)[x]? = none := by
      rw [List.getElem?_eq_none_iff]
      omega
    rw [hnone]
    simp only [reduceCtorEq, iff_false]
    intro hok
    exact hlt (LocalTypes.get_lt hok)

theorem numericShape_type (op : NumericOp) : (Spec.numericShape op).type = op.signature := by
  cases op <;> rfl

/-- The natural alignment of a load. -/
theorem loadType_iff {op : LoadOp} (h : (Spec.loadType op).isSome) :
    Spec.loadType op = some (op.maxAlignType.2, 2 ^ op.maxAlignType.1) := by
  cases op <;> first | rfl | cases h

theorem storeType_iff {op : StoreOp} (h : (Spec.storeType op).isSome) :
    Spec.storeType op = some (op.maxAlignType.2, 2 ^ op.maxAlignType.1) := by
  cases op <;> first | rfl | cases h

/-- Block types are read as the typing rules read them. -/
theorem blockType_iff {bt : UInt8} {msg : String} {result : Option ValType} :
    blockType {} bt msg = .ok result ↔ Spec.resultType bt = some result := by
  unfold blockType Spec.resultType ValType.ofByte pseudoByte
  by_cases hempty : bt = 0x40
  · simp [hempty]
  by_cases hi32 : bt = 0x7f
  · simp [hi32, Options.allowsType, vmAssert]
  by_cases hi64 : bt = 0x7e
  · simp [hi64, Options.allowsType, vmAssert]
  by_cases hf32 : bt = 0x7d
  · simp [hf32, Options.allowsType, vmAssert]
  by_cases hf64 : bt = 0x7c
  · simp [hf64, Options.allowsType, vmAssert]
  by_cases hv128 : bt = 0x7b
  · simp [hv128, Options.allowsType, vmAssert]
  simp [hempty, hi32, hi64, hf32, hf64, hv128]

end EosVm
