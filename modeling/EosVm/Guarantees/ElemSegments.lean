import EosVm.Guarantees.IndexSpaces
import EosVm.Invariants.Instantiation

/-!
# Element segment indices

The parser compares the index of `elem.drop` with the element segments and does not look at the one
of `table.init`. `reset` gives a context one flag for each segment, except in a module without a
table, where the flags of whatever ran before stay.
-/

set_option autoImplicit false

namespace EosVm

open Lib

variable {W : CodeWriter}

/-- The element segment index of an instruction is below `n`. -/
def Instr.ElemInRange (n : Nat) : Instr → Prop
  | .tableInit x | .elemDrop x => x < n
  | _ => True

/-- Every segment index of the code is in range, and the context has a flag for each segment as
long as it runs. -/
structure ElemSegmentsValid (o : Options) (st : ParserState W) (ctx : ExecutionContextBase) :
    Prop where
  indices : CodeForall o st (Instr.ElemInRange st.mod.elements.length)
  flags : ∀ ctx', ctx.Reaches st.mod ctx' → ctx'.droppedElems.length = st.mod.elements.length

/-- Every `elem.drop` of an accepted body refers to an existing segment. -/
theorem BodyAccepted.elemDrop {o : Options} {st : ParserState W} {i nested x : Nat}
    {body : WasmCodePtr × LocalBytesChecker} {env : BodyEnv} {instrs : List Instr}
    {writer : W.State} {s : BodyState W} (h : BodyAccepted o st i body env instrs writer nested s)
    (hmem : .elemDrop x ∈ instrs) : x < st.mod.elements.length := by
  obtain ⟨pre, post, rfl⟩ := List.append_of_mem hmem
  obtain ⟨s₁, s₂, -, hproc⟩ := h.processed
  have hlt := processInstr_elemDrop hproc
  have helements := congrArg Module.elements h.mod
  change env.mod.elements = st.mod.elements at helements
  rwa [helements] at hlt

/-- After a successful `reset` for an accepted module, the element segments are valid exactly when
the code stays inside them with `table.init`, and the module has a table or the flags left by the
context's history happen to be as many as its segments. -/
theorem elem_segments_valid_iff {o : Options} {bytes : List UInt8} {st : ParserState W}
    {ctx ctx' : ExecutionContextBase} (h : parseModule W o bytes = .ok st)
    (hreset : ctx.reset st.mod = .ok ctx') :
    ElemSegmentsValid o st ctx' ↔
      CodeForall o st (fun instr => ∀ x, instr = .tableInit x → x < st.mod.elements.length) ∧
      (st.mod.tables = [] → ctx.droppedElems.length = st.mod.elements.length) := by
  obtain ⟨highest, hinv⟩ := parseModule_invariant h
  have hsize := (Prod.mk.inj (ExecutionContextBase.reset_flagSizes hreset)).2
  constructor
  · intro hvalid
    refine ⟨?_, ?_⟩
    · intro i body hbody
      obtain ⟨instrs, hdecoded, hrange⟩ := hvalid.indices i body hbody
      refine ⟨instrs, hdecoded, ?_⟩
      rintro instr hmem x rfl
      exact hrange _ hmem
    · intro htables
      rw [if_pos htables] at hsize
      rw [← hsize]
      exact hvalid.flags ctx' Relation.ReflTransGen.refl
  · rintro ⟨hinit, htables⟩
    refine ⟨?_, ?_⟩
    · intro i body hbody
      obtain ⟨env, instrs, writer, nested, s, hacc⟩ := hinv.bodies i body hbody
      obtain ⟨instrs', hdecoded, hrange⟩ := hinit i body hbody
      obtain rfl : instrs = instrs' := Except.ok.inj (hacc.decoded.symm.trans hdecoded)
      refine ⟨instrs, hdecoded, ?_⟩
      intro instr hmem
      cases instr with
      | tableInit x => exact hrange _ hmem x rfl
      | elemDrop x => exact hacc.elemDrop hmem
      | _ => trivial
    · intro ctx'' hreach
      have hkept := (Prod.mk.inj hreach.flagSizes).2
      rw [hkept, hsize]
      split
      next hnone => exact htables hnone
      · rfl

/-- A module with a table, a passive element segment and a function that initialises the table from
the segment and drops it. -/
def tableSample : List UInt8 :=
  [0x00, 0x61, 0x73, 0x6d, 0x01, 0x00, 0x00, 0x00] ++
  [0x01, 0x04, 0x01, 0x60, 0x00, 0x00] ++
  [0x03, 0x02, 0x01, 0x00] ++
  [0x04, 0x04, 0x01, 0x70, 0x00, 0x01] ++
  [0x09, 0x05, 0x01, 0x01, 0x00, 0x01, 0x00] ++
  [0x0a, 0x11, 0x01, 0x0f, 0x00, 0x41, 0x00, 0x41, 0x00, 0x41, 0x01, 0xfc, 0x0c, 0x00, 0x00, 0xfc,
    0x0d, 0x00, 0x0b]

theorem tableSample_elem_segments : ∃ (st : ParserState bitcodeWriter) (ctx : ExecutionContextBase),
    parseModule bitcodeWriter defaultOptions tableSample = .ok st ∧
      ExecutionContextBase.reset st.mod {} = .ok ctx ∧
      (ElemSegmentsValid defaultOptions st ctx ↔
        CodeForall defaultOptions st
          (fun instr => ∀ x, instr = .tableInit x → x < st.mod.elements.length) ∧
        (st.mod.tables = [] →
          ({} : ExecutionContextBase).droppedElems.length = st.mod.elements.length)) := by
  obtain ⟨ctx, hboth⟩ := exists_ok_of_isOk (show (do
      let st ← parseModule bitcodeWriter defaultOptions tableSample
      ExecutionContextBase.reset st.mod {}).isOk = true by decide +kernel)
  obtain ⟨st, h, hreset⟩ := bind_eq_ok.mp hboth
  exact ⟨st, ctx, h, hreset, elem_segments_valid_iff h hreset⟩

/-- The same code with the segment but without a table, and only `elem.drop`. -/
def tablelessSample : List UInt8 :=
  [0x00, 0x61, 0x73, 0x6d, 0x01, 0x00, 0x00, 0x00] ++
  [0x01, 0x04, 0x01, 0x60, 0x00, 0x00] ++
  [0x03, 0x02, 0x01, 0x00] ++
  [0x09, 0x05, 0x01, 0x01, 0x00, 0x01, 0x00] ++
  [0x0a, 0x07, 0x01, 0x05, 0x00, 0xfc, 0x0d, 0x00, 0x0b]

/-- `table.init 7` in a module with one segment. -/
def strayInitSample : List UInt8 :=
  [0x00, 0x61, 0x73, 0x6d, 0x01, 0x00, 0x00, 0x00] ++
  [0x01, 0x04, 0x01, 0x60, 0x00, 0x00] ++
  [0x03, 0x02, 0x01, 0x00] ++
  [0x04, 0x04, 0x01, 0x70, 0x00, 0x01] ++
  [0x09, 0x05, 0x01, 0x01, 0x00, 0x01, 0x00] ++
  [0x0a, 0x0e, 0x01, 0x0c, 0x00, 0x41, 0x00, 0x41, 0x00, 0x41, 0x01, 0xfc, 0x0c, 0x07, 0x00, 0x0b]

/-- A fresh context has no flag for the segment of the first module, and the second module refers to
a segment it does not have. -/
theorem tablelessSample_strayInitSample_not_valid :
    (∃ (st : ParserState bitcodeWriter) (ctx : ExecutionContextBase),
      parseModule bitcodeWriter defaultOptions tablelessSample = .ok st ∧
      ExecutionContextBase.reset st.mod {} = .ok ctx ∧ ¬ ElemSegmentsValid defaultOptions st ctx) ∧
    ∃ (st : ParserState bitcodeWriter) (ctx : ExecutionContextBase),
      parseModule bitcodeWriter defaultOptions strayInitSample = .ok st ∧
      ExecutionContextBase.reset st.mod {} = .ok ctx ∧
      ¬ ElemSegmentsValid defaultOptions st ctx := by
  refine ⟨?_, ?_⟩
  · have hparsed : (do
        let st ← parseModule bitcodeWriter defaultOptions tablelessSample
        let ctx ← ExecutionContextBase.reset st.mod {}
        pure (ctx.droppedElems.length, st.mod.elements.length)).toOption = some (0, 1) := by
      decide +kernel
    obtain ⟨ctx, hboth⟩ := exists_ok_of_isOk (show (do
        let st ← parseModule bitcodeWriter defaultOptions tablelessSample
        ExecutionContextBase.reset st.mod {}).isOk = true by decide +kernel)
    obtain ⟨st, h, hreset⟩ := bind_eq_ok.mp hboth
    refine ⟨st, ctx, h, hreset, ?_⟩
    intro hvalid
    have hflags := hvalid.flags ctx Relation.ReflTransGen.refl
    simp only [h, ok_bind, hreset] at hparsed
    obtain ⟨hzero, hone⟩ := Prod.mk.inj (Option.some.inj hparsed)
    omega
  · have hparsed : (parseModule bitcodeWriter defaultOptions strayInitSample).toOption.map
        (fun st => (st.mod.elements.length, st.functionBodies.map fun body =>
          (decodeBody defaultOptions body.1.bounds (body.1.bounds + 1) body.1).toOption)) =
        some (1, [some [.i32Const 0, .i32Const 0, .i32Const 1, .tableInit 7, .end_]]) := by
      decide +kernel
    obtain ⟨ctx, hboth⟩ := exists_ok_of_isOk (show (do
        let st ← parseModule bitcodeWriter defaultOptions strayInitSample
        ExecutionContextBase.reset st.mod {}).isOk = true by decide +kernel)
    obtain ⟨st, h, hreset⟩ := bind_eq_ok.mp hboth
    refine ⟨st, ctx, h, hreset, ?_⟩
    intro hvalid
    simp only [h, Except.toOption, Option.map_some, Option.some.injEq, Prod.mk.injEq] at hparsed
    obtain ⟨hlen, hbodies⟩ := hparsed
    obtain ⟨body, hbody, hdecoded⟩ := List.map_eq_singleton_iff.mp hbodies
    obtain ⟨instrs, hinstrs, hrange⟩ := hvalid.indices 0 body (by rw [hbody]; rfl)
    simp only [hinstrs, Option.some.injEq] at hdecoded
    have hseven := hrange (.tableInit 7) (by simp [hdecoded])
    rw [hlen] at hseven
    exact absurd hseven (show ¬ 7 < 1 by decide)

end EosVm
