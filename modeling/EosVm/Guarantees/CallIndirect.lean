import EosVm.Guarantees.IndexSpaces
import EosVm.Invariants.Instantiation
import EosVm.Lib.ClassReps

/-!
# Indirect calls

`normalize_types` maps every type to the first one that `operator==` identifies with it. The
interpreter compares types with `operator==`, the machine code compares normalised types with those
in the table. `operator==` looks at the result type only when there is no result, so all three
identify types with different results.
-/

set_option autoImplicit false

namespace EosVm

open Lib

variable {W : CodeWriter}

/-- Structural equality: the same parameters, number of results and result. -/
def FuncType.SameSignature (ft ft' : FuncType) : Prop :=
  ft.paramTypes = ft'.paramTypes ∧ ft.returnCount = ft'.returnCount ∧
    (ft.returnCount = 1 → ft.returnType = ft'.returnType)

/-- What `operator==` compares on parsed types. -/
theorem FuncType.equal_iff {ft ft' : FuncType} (h : ft.Formed) (h' : ft'.Formed) :
    ft.equal ft' = true ↔ ft.paramTypes = ft'.paramTypes ∧ ft.returnCount = ft'.returnCount := by
  unfold FuncType.equal
  simp only [Bool.and_eq_true, Bool.or_eq_true, beq_iff_eq, bne_iff_ne, h.form, h'.form, true_and]
  constructor
  · rintro ⟨⟨⟨-, hparams⟩, hcount⟩, -⟩
    exact ⟨hparams, hcount⟩
  · rintro ⟨hparams, hcount⟩
    refine ⟨⟨⟨by rw [hparams], hparams⟩, hcount⟩, ?_⟩
    by_cases hzero : ft.returnCount = 0
    · right
      rw [h.noReturn.mp hzero, h'.noReturn.mp (hcount ▸ hzero)]
    · exact Or.inl hzero

theorem FuncType.equal_equivOn {types : List FuncType} (h : ∀ ft ∈ types, ft.Formed) :
    EquivOn FuncType.equal types where
  refl := fun x hx => (FuncType.equal_iff (h x hx) (h x hx)).mpr ⟨rfl, rfl⟩
  symm := by
    intro x hx y hy hxy
    obtain ⟨hparams, hcount⟩ := (FuncType.equal_iff (h x hx) (h y hy)).mp hxy
    exact (FuncType.equal_iff (h y hy) (h x hx)).mpr ⟨hparams.symm, hcount.symm⟩
  trans := by
    intro x hx y hy z hz hxy hyz
    obtain ⟨hparams, hcount⟩ := (FuncType.equal_iff (h x hx) (h y hy)).mp hxy
    obtain ⟨hparams', hcount'⟩ := (FuncType.equal_iff (h y hy) (h z hz)).mp hyz
    exact (FuncType.equal_iff (h x hx) (h z hz)).mpr
      ⟨hparams.trans hparams', hcount.trans hcount'⟩

/-- Types with the same parameters and number of results have the same result. -/
def ResultsDetermined (types : List FuncType) : Prop :=
  ∀ ft ∈ types, ∀ ft' ∈ types, ft.paramTypes = ft'.paramTypes →
    ft.returnCount = 1 → ft'.returnCount = 1 → ft.returnType = ft'.returnType

theorem ResultsDetermined.sameSignature {types : List FuncType} (hd : ResultsDetermined types)
    (hformed : ∀ ft ∈ types, ft.Formed) {ft ft' : FuncType} (hft : ft ∈ types)
    (hft' : ft' ∈ types) (heq : ft.equal ft' = true) : ft.SameSignature ft' := by
  obtain ⟨hparams, hcount⟩ := (FuncType.equal_iff (hformed ft hft) (hformed ft' hft')).mp heq
  exact ⟨hparams, hcount, fun hone => hd ft hft ft' hft' hparams hone (hcount ▸ hone)⟩

theorem typeAliases_eq_classReps (types : List FuncType) :
    typeAliases types = classReps FuncType.equal types := rfl

/-- `normalize_types` succeeds on an accepted module. -/
theorem normalizeTypes_ok {mod : Module}
    (himports : ∀ entry ∈ mod.imports, entry.funcT < mod.types.length)
    (hfunctions : ∀ type ∈ mod.functions, type < mod.types.length) :
    ∃ fast, normalizeTypes mod = .ok (typeAliases mod.types, fast) := by
  have hfound : ∀ type, type < mod.types.length →
      ∃ norm, vectorAt (typeAliases mod.types) type = .ok norm := by
    intro type hlt
    rw [← typeAliases_length] at hlt
    exact ⟨_, vectorAt_eq_ok.mpr (List.getElem?_eq_getElem hlt)⟩
  have himported : ∃ imported, (mod.imports.take mod.getImportedFunctionsSize).mapM
      (fun entry => vectorAt (typeAliases mod.types) entry.funcT) = .ok imported := by
    apply mapM_ok_of_forall
    intro entry hentry
    exact hfound entry.funcT (himports entry (List.mem_of_mem_take hentry))
  have hdefined : ∃ defined, mod.functions.mapM
      (fun type => vectorAt (typeAliases mod.types) type) = .ok defined := by
    apply mapM_ok_of_forall
    intro type htype
    exact hfound type (hfunctions type htype)
  obtain ⟨imported, himported⟩ := himported
  obtain ⟨defined, hdefined⟩ := hdefined
  refine ⟨imported ++ defined, ?_⟩
  simp only [normalizeTypes, bind_eq_ok, pure_eq_ok]
  exact ⟨imported, himported, defined, hdefined, rfl⟩

/-- The normalised type of a function is the alias of its type. -/
theorem normalizeTypes_fast {mod : Module} {aliases fast : List Nat}
    (h : normalizeTypes mod = .ok (aliases, fast))
    (himports : mod.getImportedFunctionsSize = mod.imports.length) {f norm : Nat}
    (hf : fast[f]? = some norm) :
    ∃ (type : Nat) (ft : FuncType), mod.getFunctionType f = .ok ft ∧
      mod.types[type]? = some ft ∧ aliases[type]? = some norm := by
  simp only [normalizeTypes, bind_eq_ok, pure_eq_ok, Prod.mk.injEq] at h
  obtain ⟨imported, himported, defined, hdefined, rfl, rfl⟩ := h
  rw [himports, List.take_length] at himported
  have hlen : imported.length = mod.imports.length := (mapM_eq_ok.mp himported).length_eq.symm
  have htype : ∀ type : Nat, (typeAliases mod.types)[type]? = some norm →
      ∃ ft, mod.types[type]? = some ft := by
    intro type hnorm
    have hlt := (List.getElem?_eq_some_iff.mp hnorm).1
    rw [typeAliases_length] at hlt
    exact ⟨_, List.getElem?_eq_getElem hlt⟩
  unfold Module.getFunctionType
  by_cases hlt : f < mod.imports.length
  · rw [List.getElem?_append_left (by omega)] at hf
    obtain ⟨entry, hentry, hnorm⟩ := getElem?_of_mapM himported hf
    rw [vectorAt_eq_ok] at hnorm
    obtain ⟨ft, hft⟩ := htype entry.funcT hnorm
    refine ⟨entry.funcT, ft, ?_, hft, hnorm⟩
    rw [himports, if_pos hlt]
    simp only [bind_eq_ok, vectorAt_eq_ok]
    exact ⟨entry, hentry, hft⟩
  · rw [List.getElem?_append_right (by omega), hlen] at hf
    obtain ⟨type, hfunction, hnorm⟩ := getElem?_of_mapM hdefined hf
    rw [vectorAt_eq_ok] at hnorm
    obtain ⟨ft, hft⟩ := htype type hnorm
    refine ⟨type, ft, ?_, hft, hnorm⟩
    rw [himports, if_neg hlt]
    simp only [bind_eq_ok, vectorAt_eq_ok]
    exact ⟨type, hfunction, hft⟩

/-- Normalised types agree exactly for structurally equal types, and an indirect call with declared
type `t` enters a function of a structurally equal type or traps, in the interpreter and in the
machine code, whatever has happened to the table before. -/
structure CallIndirectSound (st : ParserState W) : Prop where
  aliases : ∀ aliases fast, normalizeTypes st.mod = .ok (aliases, fast) →
    ∀ (i j : Nat) (ft ft' : FuncType), st.mod.types[i]? = some ft → st.mod.types[j]? = some ft' →
      (aliases[i]? = aliases[j]? ↔ ft.SameSignature ft')
  interpreter : ∀ (ctx : ExecutionContextBase) (t norm index f : Nat) (declared : FuncType),
    ctx.Instantiated st.mod → st.mod.types[t]? = some declared → st.typeAliases[t]? = some norm →
    ctx.interpretCallIndirect st.mod norm index = .ok f →
    ∃ ft, st.mod.getFunctionType f = .ok ft ∧ ft.SameSignature declared
  machineCode : ∀ (ctx : ExecutionContextBase) (t norm index f : Nat) (declared : FuncType),
    ctx.Instantiated st.mod → st.mod.types[t]? = some declared → st.typeAliases[t]? = some norm →
    ctx.jitCallIndirect st.mod norm index = .ok f →
    ∃ ft, st.mod.getFunctionType f = .ok ft ∧ ft.SameSignature declared

section Accepted

variable {o : Options} {highest : Nat} {st : ParserState W}

/-- Once a type has a normalised type, `normalize_types` has run. -/
theorem ModuleInvariant.normalizedTypes (h : ModuleInvariant o highest st) {t norm : Nat}
    (hnorm : st.typeAliases[t]? = some norm) :
    normalizeTypes st.mod = .ok (st.typeAliases, st.fastFunctions) := by
  rcases h.normalized with ⟨hnone, -⟩ | hok
  · rw [hnone] at hnorm
    cases hnorm
  · exact hok

/-- The normalised type is the first type that `operator==` identifies with the declared one. -/
theorem ModuleInvariant.normalized_spec (h : ModuleInvariant o highest st) {t norm : Nat}
    {declared : FuncType} (ht : st.mod.types[t]? = some declared)
    (hnorm : st.typeAliases[t]? = some norm) :
    ∃ first, st.mod.types[norm]? = some first ∧ first.equal declared = true := by
  have haliases := (normalizeTypes_spec (h.normalizedTypes hnorm)).1
  rw [haliases, typeAliases_eq_classReps] at hnorm
  exact (classReps_spec (FuncType.equal_equivOn h.types) ht hnorm).1

/-- The interpreter enters functions whose type `operator==` identifies with the declared one. -/
theorem ModuleInvariant.interpretCallIndirect (h : ModuleInvariant o highest st)
    {ctx : ExecutionContextBase} {t norm index f : Nat} {declared : FuncType}
    (ht : st.mod.types[t]? = some declared) (hnorm : st.typeAliases[t]? = some norm)
    (hcall : ctx.interpretCallIndirect st.mod norm index = .ok f) :
    ∃ ft, st.mod.getFunctionType f = .ok ft ∧ ft.equal declared = true := by
  simp only [ExecutionContextBase.interpretCallIndirect, bind_eq_ok, vmAssert_eq_ok,
    vectorAt_eq_ok, pure_eq_ok, exists_const] at hcall
  obtain ⟨fn, -, expected, hexpected, actual, hactual, heq, rfl⟩ := hcall
  obtain ⟨first, hfirst, hdeclared⟩ := h.normalized_spec ht hnorm
  obtain rfl : expected = first := Option.some.inj (hexpected.symm.trans hfirst)
  refine ⟨actual, hactual, ?_⟩
  exact (FuncType.equal_equivOn h.types).trans actual (getFunctionType_mem hactual) expected
    (List.mem_of_getElem? hexpected) declared (List.mem_of_getElem? ht) heq hdeclared

/-- The machine code enters functions whose type `operator==` identifies with the declared one. -/
theorem ModuleInvariant.jitCallIndirect (h : ModuleInvariant o highest st)
    {ctx : ExecutionContextBase} {t norm index f : Nat} {declared : FuncType}
    (hctx : ctx.Instantiated st.mod) (ht : st.mod.types[t]? = some declared)
    (hnorm : st.typeAliases[t]? = some norm)
    (hcall : ctx.jitCallIndirect st.mod norm index = .ok f) :
    ∃ ft, st.mod.getFunctionType f = .ok ft ∧ ft.equal declared = true := by
  simp only [ExecutionContextBase.jitCallIndirect, bind_eq_ok, vmAssert_eq_ok, vectorAt_eq_ok,
    pure_eq_ok, exists_const, beq_iff_eq] at hcall
  obtain ⟨table, htable, -, entry, hentry, htype, rfl⟩ := hcall
  have hrun := h.normalizedTypes hnorm
  have haliases := (normalizeTypes_spec hrun).1
  have htyped : entry.Typed st.fastFunctions := by
    refine hctx.table ?_ (Or.inl rfl) h.entries entry (List.mem_of_getElem? hentry)
    intro hnone
    rw [hnone] at htable
    cases htable
  rcases htyped with hnull | hfast
  · -- the type of a null entry is no type index
    have hlt : norm < st.mod.types.length := by
      obtain ⟨first, hfirst, -⟩ := h.normalized_spec ht hnorm
      exact (List.getElem?_eq_some_iff.mp hfirst).1
    have hcount := h.typesCount
    rw [hnull] at htype
    change uint32Max = norm at htype
    unfold uint32Max at htype
    omega
  · rw [htype] at hfast
    have himports := getImportedFunctionsSize_eq fun e he => (h.importTypes e he).1
    obtain ⟨type, ft, hfunction, hft, hsame⟩ := normalizeTypes_fast hrun himports hfast
    refine ⟨ft, hfunction, ?_⟩
    rw [haliases, typeAliases_eq_classReps] at hsame hnorm
    exact (classReps_eq_iff (FuncType.equal_equivOn h.types) hft ht).mp (hsame.trans hnorm.symm)

end Accepted

/-- Indirect calls of an accepted module are sound exactly when no two of its types differ in their
result type only. -/
theorem call_indirect_sound_iff {o : Options} {bytes : List UInt8} {st : ParserState W}
    (h : parseModule W o bytes = .ok st) :
    CallIndirectSound st ↔ ResultsDetermined st.mod.types := by
  obtain ⟨highest, hinv⟩ := parseModule_invariant h
  have hequiv := FuncType.equal_equivOn hinv.types
  constructor
  · intro hsound ft hft ft' hft' hparams hone hone'
    obtain ⟨fast, hnormalize⟩ := normalizeTypes_ok (fun e he => (hinv.importTypes e he).2)
      hinv.functionTypes
    obtain ⟨i, hi⟩ := List.getElem?_of_mem hft
    obtain ⟨j, hj⟩ := List.getElem?_of_mem hft'
    have hequal : ft.equal ft' = true :=
      (FuncType.equal_iff (hinv.types ft hft) (hinv.types ft' hft')).mpr
        ⟨hparams, hone.trans hone'.symm⟩
    have hsame := (classReps_eq_iff hequiv hi hj).mpr hequal
    exact ((hsound.aliases _ _ hnormalize i j ft ft' hi hj).mp hsame).2.2 hone
  · intro hdetermined
    have hsame : ∀ ft ft', ft ∈ st.mod.types → ft' ∈ st.mod.types → ft.equal ft' = true →
        ft.SameSignature ft' := fun _ _ => hdetermined.sameSignature hinv.types
    refine ⟨?_, ?_, ?_⟩
    · intro aliases fast hnormalize i j ft ft' hi hj
      have hft := List.mem_of_getElem? hi
      have hft' := List.mem_of_getElem? hj
      rw [(normalizeTypes_spec hnormalize).1, typeAliases_eq_classReps,
        classReps_eq_iff hequiv hi hj]
      constructor
      · intro heq
        exact hsame ft ft' hft hft' heq
      · intro hsig
        exact (FuncType.equal_iff (hinv.types ft hft) (hinv.types ft' hft')).mpr
          ⟨hsig.1, hsig.2.1⟩
    · intro ctx t norm index f declared _ ht hnorm hcall
      obtain ⟨ft, hft, heq⟩ := hinv.interpretCallIndirect ht hnorm hcall
      exact ⟨ft, hft, hsame _ _ (getFunctionType_mem hft) (List.mem_of_getElem? ht) heq⟩
    · intro ctx t norm index f declared hctx ht hnorm hcall
      obtain ⟨ft, hft, heq⟩ := hinv.jitCallIndirect hctx ht hnorm hcall
      exact ⟨ft, hft, hsame _ _ (getFunctionType_mem hft) (List.mem_of_getElem? ht) heq⟩

/-- A module that calls a function without parameters and with an `i32` result through its table. -/
def indirectSample : List UInt8 :=
  [0x00, 0x61, 0x73, 0x6d, 0x01, 0x00, 0x00, 0x00] ++
  [0x01, 0x05, 0x01, 0x60, 0x00, 0x01, 0x7f] ++
  [0x03, 0x03, 0x02, 0x00, 0x00] ++
  [0x04, 0x04, 0x01, 0x70, 0x00, 0x01] ++
  [0x09, 0x07, 0x01, 0x00, 0x41, 0x00, 0x0b, 0x01, 0x00] ++
  [0x0a, 0x0e, 0x02, 0x04, 0x00, 0x41, 0x00, 0x0b, 0x07, 0x00, 0x41, 0x00, 0x11, 0x00, 0x00, 0x0b]

theorem indirectSample_sound : ∃ st : ParserState bitcodeWriter,
    parseModule bitcodeWriter defaultOptions indirectSample = .ok st ∧
      (CallIndirectSound st ↔ ResultsDetermined st.mod.types) := by
  obtain ⟨st, h⟩ := exists_ok_of_isOk
    (show (parseModule bitcodeWriter defaultOptions indirectSample).isOk = true by decide +kernel)
  exact ⟨st, h, call_indirect_sound_iff h⟩

/-- The same call, declared with an `i32` result, of a function with an `i64` result. -/
def confusedSample : List UInt8 :=
  [0x00, 0x61, 0x73, 0x6d, 0x01, 0x00, 0x00, 0x00] ++
  [0x01, 0x09, 0x02, 0x60, 0x00, 0x01, 0x7f, 0x60, 0x00, 0x01, 0x7e] ++
  [0x03, 0x03, 0x02, 0x01, 0x00] ++
  [0x04, 0x04, 0x01, 0x70, 0x00, 0x01] ++
  [0x09, 0x07, 0x01, 0x00, 0x41, 0x00, 0x0b, 0x01, 0x00] ++
  [0x0a, 0x0e, 0x02, 0x04, 0x00, 0x42, 0x00, 0x0b, 0x07, 0x00, 0x41, 0x00, 0x11, 0x00, 0x00, 0x0b]

/-- Interpreter and machine code both enter the wrong function. -/
theorem confusedSample_unsound : ∃ (st : ParserState bitcodeWriter) (ctx : ExecutionContextBase),
    parseModule bitcodeWriter defaultOptions confusedSample = .ok st ∧
      ExecutionContextBase.reset st.mod {} = .ok ctx ∧
      ctx.interpretCallIndirect st.mod 0 0 = .ok 0 ∧ ctx.jitCallIndirect st.mod 0 0 = .ok 0 ∧
      ¬ CallIndirectSound st := by
  have hrun : (do
      let st ← parseModule bitcodeWriter defaultOptions confusedSample
      let ctx ← ExecutionContextBase.reset st.mod {}
      let f ← ctx.interpretCallIndirect st.mod 0 0
      let f' ← ctx.jitCallIndirect st.mod 0 0
      let ft ← st.mod.getFunctionType f
      pure (f, f', ft, st.mod.types[0]?, st.typeAliases[0]?)).toOption =
      some (0, 0, ⟨0x60, [], 1, some .i64⟩, some ⟨0x60, [], 1, some .i32⟩, some 0) := by
    decide +kernel
  obtain ⟨ctx, hboth⟩ := exists_ok_of_isOk (show (do
      let st ← parseModule bitcodeWriter defaultOptions confusedSample
      ExecutionContextBase.reset st.mod {}).isOk = true by decide +kernel)
  obtain ⟨st, h, hreset⟩ := bind_eq_ok.mp hboth
  simp only [h, hreset, ok_bind, toOption_eq_some, bind_eq_ok, pure_eq_ok,
    Prod.mk.injEq] at hrun
  obtain ⟨f, hf, f', hf', ft, hft, rfl, rfl, rfl, hdeclared, hnorm⟩ := hrun
  refine ⟨st, ctx, h, hreset, hf, hf', ?_⟩
  intro hsound
  obtain ⟨ft', hft', hsame⟩ := hsound.interpreter ctx 0 0 0 0 _
    ⟨{}, ctx, hreset, Relation.ReflTransGen.refl⟩ hdeclared hnorm hf
  rw [← Except.ok.inj (hft.symm.trans hft')] at hsame
  exact absurd (hsame.2.2 rfl) (by decide)

end EosVm
