import EosVm.Guarantees.Leb128
import EosVm.Invariants.ModuleState
import EosVm.Spec.Segments

/-!
# Headers of segments

`parse_elem_segment` checks `es.index` where it should check the flags it has just read. So it
accepts every value of the flags and decodes those it should reject by their low bits. Without bulk
memory `parse_data_segment` accepts every memory index.
-/

set_option autoImplicit false

namespace EosVm

open Lib Lib.Leb128

/-- Every element segment with these flags that is accepted has the format of the flags. -/
def ElemFlagsExact (o : Options) (flags : Nat) : Prop :=
  ∀ (mod : Module) (fastFunctions : List Nat) (code next last : WasmCodePtr) (es : ElemSegment),
    parseVaruint32 code = .ok (flags, next) →
    parseElemSegment o mod fastFunctions code = .ok (es, last) →
      ∃ format, elemFormatFor o.enableBulkMemory flags = some format ∧
        format.Reads o mod fastFunctions next es last

/-- Every data segment with these flags that is accepted has the format of the flags. -/
def DataFlagsExact (o : Options) (flags : Nat) : Prop :=
  ∀ (mod : Module) (code next last : WasmCodePtr) (ds : DataSegment),
    parseVaruint32 code = .ok (flags, next) →
    parseDataSegment o mod code = .ok (ds, last) →
      ∃ format, dataFormatFor o.enableBulkMemory flags = some format ∧
        format.Reads o next ds last

/-- The format that the tests of `parse_elem_segment` select, for any flags. -/
def selectedFormat (flags : Nat) : ElemFormat where
  mode := if flags % 2 = 0 then .active else if flags / 2 % 2 = 1 then .declarative else .passive
  explicitTable := flags = 2 ∨ flags = 6
  kind :=
    if flags = 1 ∨ flags = 2 ∨ flags = 3 then some 0x00
    else if flags = 5 ∨ flags = 6 ∨ flags = 7 then some anyfunc
    else none
  expressions := flags / 4 % 2 = 1

theorem elemFormat_eq {flags : Nat} (h : flags ≤ 7) :
    elemFormat flags = some (selectedFormat flags) := by
  have hall : ∀ i : Fin 8, elemFormat i = some (selectedFormat i) := by decide
  exact hall ⟨flags, by omega⟩

theorem elemFormat_none {flags : Nat} (h : 7 < flags) : elemFormat flags = none := by
  unfold elemFormat
  split <;> first | omega | rfl

section Decoding

variable {o : Options} {mod : Module} {fastFunctions : List Nat} {code next last p : WasmCodePtr}
  {flags index : Nat} {es : ElemSegment} {ds : DataSegment}

theorem parseElemTable_selected (h : parseElemTable flags code = .ok (index, p)) :
    if (selectedFormat flags).explicitTable then parseVaruint32 code = .ok (index, p)
    else index = 0 ∧ p = code := by
  unfold parseElemTable at h
  split at h
  next hflags => simpa [selectedFormat, hflags] using h
  next hflags =>
    rw [pure_eq_ok, Prod.mk.injEq] at h
    simpa [selectedFormat, hflags] using ⟨h.1.symm, h.2.symm⟩

theorem parseElemMode_selected {offset : Option InitExpr} {mode : ElemMode}
    (h : parseElemMode o mod flags index code = .ok ((offset, mode), p)) :
    mode = (selectedFormat flags).mode ∧
      if (selectedFormat flags).mode = .active then
        ∃ e, parseInitExpr o .i32 code = .ok (e, p) ∧ offset = some e
      else offset = none ∧ p = code := by
  unfold parseElemMode at h
  split at h
  next heven =>
    simp only [bind_eq_ok, vmAssert_eq_ok, pure_eq_ok, Prod.exists, Prod.mk.injEq,
      exists_const] at h
    obtain ⟨e, q, he, -, ⟨rfl, rfl⟩, rfl⟩ := h
    simp [selectedFormat, heven, he]
  next hodd =>
    split at h <;> rw [pure_eq_ok, Prod.mk.injEq, Prod.mk.injEq] at h <;>
      obtain ⟨⟨rfl, rfl⟩, rfl⟩ := h <;> simp [selectedFormat, *]

theorem parseElemKind_selected (h : parseElemKind flags code = .ok p) :
    match (selectedFormat flags).kind with
    | some kind => code.next = .ok (kind, p)
    | none => p = code := by
  unfold parseElemKind at h
  split at h
  next hkind =>
    simp only [bind_eq_ok, vmAssert_eq_ok, pure_eq_ok, Prod.exists, exists_const, beq_iff_eq] at h
    obtain ⟨kind, q, hnext, rfl, rfl⟩ := h
    simp only [selectedFormat, if_pos hkind, hnext]
  next hkind =>
    split at h
    next hreftype =>
      simp only [bind_eq_ok, vmAssert_eq_ok, pure_eq_ok, Prod.exists, exists_const, beq_iff_eq] at h
      obtain ⟨kind, q, hnext, rfl, rfl⟩ := h
      simp only [selectedFormat, if_neg hkind, if_pos hreftype, hnext]
    next hreftype =>
      simp only [selectedFormat, if_neg hkind, if_neg hreftype]
      exact (pure_eq_ok.mp h).symm

theorem parseElemSegment_selected (hflags : parseVaruint32 code = .ok (flags, next))
    (h : parseElemSegment o mod fastFunctions code = .ok (es, last)) :
    (selectedFormat flags).Reads o mod fastFunctions next es last := by
  simp only [parseElemSegment, hflags, ok_bind, bind_eq_ok, vmAssert_eq_ok, pure_eq_ok, Prod.exists,
    exists_const, Prod.mk.injEq] at h
  obtain ⟨-, -, index, p₁, htable, offset, mode, p₂, hmode, p₃, hkind, -, -, size, p₄, hsize,
    -, elems, q, helems, rfl, rfl⟩ := h
  obtain ⟨rfl, hoffset⟩ := parseElemMode_selected hmode
  refine ⟨p₁, p₂, p₃, p₄, size, parseElemTable_selected htable, hoffset, rfl,
    parseElemKind_selected hkind, hsize, ?_⟩
  unfold parseElemEntries at helems
  split at helems <;> simp [selectedFormat, *]

/-- The bytes of a data segment, read under a guard. -/
theorem slice_of_shrink {inner q : WasmCodePtr} {len : Nat} (hs : p.shrinkBounds len = .ok inner)
    (ha : inner.advance len = .ok q) :
    inner.slice len = p.slice len ∧ p.advance len = .ok (q.restore p) := by
  obtain ⟨hle, rfl⟩ := shrinkBounds_eq_ok.mp hs
  obtain ⟨-, rfl⟩ := advance_eq_ok.mp ha
  exact ⟨rfl, advance_eq_ok.mpr ⟨hle, rfl⟩⟩

theorem parseDataSegment_reads (hflags : parseVaruint32 code = .ok (flags, next))
    (hlegal : flags = 0 ∨ o.enableBulkMemory = true)
    (h : parseDataSegment o mod code = .ok (ds, last)) :
    ∃ format, dataFormat flags = some format ∧ format.Reads o next ds last := by
  simp only [parseDataSegment, bind_eq_ok, vmAssert_eq_ok, pure_eq_ok, Prod.exists, exists_const,
    Prod.mk.injEq] at h
  obtain ⟨index, passive, offset, p₂, hheader, len, p₃, hlen, -, -, inner, hshrink, q,
    hadvance, rfl, rfl⟩ := h
  obtain ⟨hslice, hlast⟩ := slice_of_shrink hshrink hadvance
  simp only [parseDataHeader, hflags, ok_bind] at hheader
  split at hheader
  next hzero =>
    have hflags : flags = 0 := by
      rcases hlegal with hflags | hbulk
      · exact hflags
      · exact hzero.resolve_right (by rw [hbulk]; decide)
    simp only [bind_eq_ok, vmAssert_eq_ok, pure_eq_ok, Prod.exists, exists_const,
      Prod.mk.injEq] at hheader
    obtain ⟨e, q', he, -, ⟨rfl, rfl, rfl⟩, rfl⟩ := hheader
    subst hflags
    exact ⟨_, rfl, next, _, p₃, len, rfl, he, fun _ _ => rfl, rfl, hlen, hslice, hlast⟩
  next =>
    split at hheader
    next hone =>
      simp only [pure_eq_ok, Prod.mk.injEq] at hheader
      obtain ⟨⟨rfl, rfl, rfl⟩, rfl⟩ := hheader
      subst hone
      exact ⟨_, rfl, next, next, p₃, len, rfl, rfl, Bool.noConfusion, rfl, hlen, hslice, hlast⟩
    next =>
      split at hheader
      next htwo =>
        simp only [bind_eq_ok, vmAssert_eq_ok, pure_eq_ok, Prod.exists, exists_const,
          Prod.mk.injEq] at hheader
        obtain ⟨index, p₁, hindex, e, q', he, -, ⟨rfl, rfl, rfl⟩, rfl⟩ := hheader
        subst htwo
        exact ⟨_, rfl, p₁, _, p₃, len, hindex, he, fun _ hno => absurd hno (by decide), rfl, hlen,
          hslice, hlast⟩
      next => cases hheader

end Decoding

section Accepted

variable {p : WasmCodePtr}

/-- Code made of these bytes. -/
def codeOf (bytes : List UInt8) : WasmCodePtr := WasmCodePtr.make bytes 0 bytes.length

theorem codeOf_valid (bytes : List UInt8) :
    (codeOf bytes).Valid ∧ (codeOf bytes).remaining = bytes := by
  refine ⟨⟨Nat.le_refl _, Nat.zero_le _, ?_⟩, ?_⟩
  · simp [codeOf, WasmCodePtr.make]
  · simp [codeOf, WasmCodePtr.make, WasmCodePtr.remaining]

/-- `f` reads a value and stops at `rest`. -/
def ParsesTo {α : Type} (f : WasmCodePtr → Except VmError (α × WasmCodePtr)) (p : WasmCodePtr)
    (value : α) (rest : List UInt8) : Prop :=
  ∃ q, f p = .ok (value, q) ∧ q.Valid ∧ q.remaining = rest

theorem next_parsesTo {b : UInt8} {rest : List UInt8} (hp : p.Valid) (h : p.remaining = b :: rest) :
    ParsesTo WasmCodePtr.next p b rest := by
  have hlength := congrArg List.length h
  rw [WasmCodePtr.remaining, List.length_drop, List.length_take, List.length_cons] at hlength
  have hlt : p.raw + 0 < p.bnds := by omega
  have hfirst := hp.drop_remaining hlt
  rw [List.drop_zero, h] at hfirst
  injection hfirst with hb _
  have hbytes : p.remaining = [b] ++ rest := h
  obtain ⟨hvalid, hrest⟩ := plus_of_remaining hp hbytes
  exact ⟨p.plus 1, next_eq_ok.mpr ⟨hlt, hb, rfl⟩, hvalid, hrest⟩

theorem varuint_parsesTo {bytes rest : List UInt8} (hp : p.Valid) (hbytes : IsUnsigned 32 bytes)
    (h : p.remaining = bytes ++ rest) : ParsesTo parseVaruint32 p (unsignedValue bytes) rest := by
  obtain ⟨hvalid, hrest⟩ := plus_of_remaining hp h
  have hread := (parseUnsigned_reads hp (.inr (.inr rfl))).accepts bytes
    (h ▸ List.prefix_append ..) hbytes
  refine ⟨p.plus bytes.length, ?_, hvalid, hrest⟩
  rw [parseVaruint32_eq, CodeM.parse, hread]
  rfl

theorem zero_parsesTo {rest : List UInt8} (hp : p.Valid) (h : p.remaining = 0 :: rest) :
    ParsesTo parseVaruint32 p 0 rest := by
  have hzero : IsUnsigned 32 [0] :=
    (isUnsigned_iff (by decide)).mpr ⟨show (0 : UInt8).toNat < 128 by decide, by decide, by decide⟩
  have hbytes : p.remaining = [0] ++ rest := h
  exact varuint_parsesTo hp hzero hbytes

theorem varintZero_parsesTo {rest : List UInt8} (hp : p.Valid) (h : p.remaining = 0 :: rest) :
    ParsesTo parseVarint32 p 0 rest := by
  have hzero : IsSigned 32 [0] :=
    (isSigned_iff (by decide)).mpr ⟨show (0 : UInt8).toNat < 128 by decide, by decide, by decide⟩
  have hbytes : p.remaining = [0] ++ rest := h
  obtain ⟨hvalid, hrest⟩ := plus_of_remaining hp hbytes
  have hread := (parseSigned_reads hp (.inr (.inl rfl))).accepts [0] ⟨rest, h.symm⟩ hzero
  have hmap := parseVarint32_eq p
  rw [CodeM.parse, hread] at hmap
  cases hparse : parseVarint32 p with
  | error e => rw [hparse] at hmap; cases hmap
  | ok r =>
    obtain ⟨v, q⟩ := r
    rw [hparse] at hmap
    injection hmap with hmap
    injection hmap with hv hq
    have hvalue : v = 0 := BitVec.eq_of_toInt_eq hv
    have hq : q = p.plus 1 := hq
    subst hvalue hq
    exact ⟨p.plus 1, hparse, hvalid, hrest⟩

/-- The offset expression `i32.const 0 end`. -/
theorem initExpr_parsesTo (o : Options) {rest : List UInt8} (hp : p.Valid)
    (h : p.remaining = 0x41 :: 0 :: 0x0B :: rest) :
    ParsesTo (parseInitExpr o .i32) p (.i32Const 0) rest := by
  obtain ⟨p₁, hop, hp₁, h₁⟩ := next_parsesTo hp h
  obtain ⟨p₂, hvalue, hp₂, h₂⟩ := varintZero_parsesTo hp₁ h₁
  obtain ⟨p₃, hend, hp₃, h₃⟩ := next_parsesTo hp₂ h₂
  refine ⟨p₃, ?_, hp₃, h₃⟩
  simp [parseInitExpr, parseEndOp, hop, hvalue, hend, vmAssert]

/-- A module with a table and a memory. -/
def sampleModule : Module where
  tables := [⟨anyfunc, ⟨false, 0, 0⟩⟩]
  memories := [⟨⟨false, 0, 0⟩⟩]

/-- The bytes of an element segment without entries, after the flags. -/
def elemTail (flags : Nat) : List UInt8 :=
  (if flags = 2 ∨ flags = 6 then [0] else []) ++ ((if flags % 2 = 0 then [0x41, 0, 0x0B] else []) ++
    ((selectedFormat flags).kind.toList ++ [0]))

theorem elemTable_parsesTo {flags : Nat} {rest : List UInt8} (hp : p.Valid)
    (h : p.remaining = (if flags = 2 ∨ flags = 6 then [0] else []) ++ rest) :
    ParsesTo (parseElemTable flags) p 0 rest := by
  by_cases hexplicit : flags = 2 ∨ flags = 6
  · rw [if_pos hexplicit] at h
    obtain ⟨q, hread, hq⟩ := zero_parsesTo hp h
    exact ⟨q, by rw [parseElemTable, if_pos hexplicit, hread], hq⟩
  · rw [if_neg hexplicit] at h
    exact ⟨p, by rw [parseElemTable, if_neg hexplicit]; rfl, hp, h⟩

theorem elemMode_parsesTo (o : Options) {flags : Nat} {rest : List UInt8} (hp : p.Valid)
    (h : p.remaining = (if flags % 2 = 0 then [0x41, 0, 0x0B] else []) ++ rest) :
    ∃ r, ParsesTo (parseElemMode o sampleModule flags 0) p r rest := by
  by_cases heven : flags % 2 = 0
  · rw [if_pos heven] at h
    obtain ⟨q, hexpr, hq⟩ := initExpr_parsesTo o hp h
    refine ⟨(some (.i32Const 0), .active), q, ?_, hq⟩
    simp [parseElemMode, heven, hexpr, vmAssert, sampleModule]
  · rw [if_neg heven] at h
    by_cases hdecl : flags / 2 % 2 = 1
    · exact ⟨(none, .declarative), p, by simp [parseElemMode, heven, hdecl], hp, h⟩
    · exact ⟨(none, .passive), p, by simp [parseElemMode, heven, hdecl], hp, h⟩

theorem elemKind_reads {flags : Nat} {rest : List UInt8} (hp : p.Valid)
    (h : p.remaining = (selectedFormat flags).kind.toList ++ rest) :
    ∃ q, parseElemKind flags p = .ok q ∧ q.Valid ∧ q.remaining = rest := by
  unfold parseElemKind
  by_cases hkind : flags = 1 ∨ flags = 2 ∨ flags = 3
  · simp only [selectedFormat, if_pos hkind] at h
    obtain ⟨q, hnext, hq⟩ := next_parsesTo hp h
    exact ⟨q, by simp [hkind, hnext, vmAssert], hq⟩
  · by_cases hreftype : flags = 5 ∨ flags = 6 ∨ flags = 7
    · simp only [selectedFormat, if_neg hkind, if_pos hreftype] at h
      obtain ⟨q, hnext, hq⟩ := next_parsesTo hp h
      exact ⟨q, by simp [hkind, hreftype, hnext, vmAssert], hq⟩
    · simp only [selectedFormat, if_neg hkind, if_neg hreftype] at h
      exact ⟨p, by simp [hkind, hreftype], hp, h⟩

/-- A segment without entries is accepted with any flags. -/
theorem parseElemSegment_accepts (o : Options) {flags : Nat} {next : WasmCodePtr}
    (hflags : parseVaruint32 p = .ok (flags, next)) (hp : next.Valid)
    (h : next.remaining = elemTail flags) :
    ∃ es last, parseElemSegment o sampleModule [] p = .ok (es, last) := by
  obtain ⟨p₁, htable, hp₁, h₁⟩ := elemTable_parsesTo hp h
  obtain ⟨⟨offset, mode⟩, p₂, hmode, hp₂, h₂⟩ := elemMode_parsesTo o hp₁ h₁
  obtain ⟨p₃, hkind, hp₃, h₃⟩ := elemKind_reads hp₂ h₂
  obtain ⟨p₄, hsize, -, -⟩ := zero_parsesTo hp₃ h₃
  have htype : checkElemType sampleModule mode 0 = .ok () := by
    cases mode <;> rfl
  have helems : parseElemEntries sampleModule [] flags 0 p₄ = .ok ([], p₄) := by
    unfold parseElemEntries
    split <;> rfl
  refine ⟨⟨0, offset, mode, []⟩, p₄, ?_⟩
  simp [parseElemSegment, hflags, htable, hmode, hkind, htype, hsize, helems, vmAssert]

/-- Without bulk memory a data segment is accepted with any memory index. -/
theorem parseDataSegment_accepts {o : Options} (ho : o.enableBulkMemory = false) {flags : Nat}
    {next : WasmCodePtr} (hflags : parseVaruint32 p = .ok (flags, next)) (hp : next.Valid)
    (h : next.remaining = [0x41, 0, 0x0B, 0]) :
    ∃ ds last, parseDataSegment o sampleModule p = .ok (ds, last) := by
  obtain ⟨p₁, hexpr, hp₁, h₁⟩ := initExpr_parsesTo o hp h
  obtain ⟨p₂, hlen, -, -⟩ := zero_parsesTo hp₁ h₁
  refine ⟨⟨flags, .i32Const 0, false, []⟩, p₂, ?_⟩
  simp [parseDataSegment, parseDataHeader, hflags, ho, hexpr, hlen, vmAssert, sampleModule,
    WasmCodePtr.shrinkBounds, WasmCodePtr.advance, WasmCodePtr.slice, WasmCodePtr.restore,
    InitExpr.valueI32]

end Accepted

/-- Code that starts with these flags. -/
theorem flags_parsesTo (flags : BitVec 32) (rest : List UInt8) :
    ParsesTo parseVaruint32 (codeOf ((varuint32 flags).storage ++ rest)) flags.toNat rest := by
  obtain ⟨hvalid, hremaining⟩ := codeOf_valid ((varuint32 flags).storage ++ rest)
  obtain ⟨-, hencodes, hvalue⟩ := varuint32_stores flags
  have hread := varuint_parsesTo hvalid hencodes hremaining
  rwa [hvalue] at hread

theorem elemFlagsExact_iff (o : Options) (flags : BitVec 32) :
    ElemFlagsExact o flags.toNat ↔
      flags.toNat ≤ 7 ∧ (flags.toNat = 0 ∨ o.enableBulkMemory = true) := by
  constructor
  · intro h
    obtain ⟨next, hflags, hvalid, hnext⟩ := flags_parsesTo flags (elemTail flags.toNat)
    obtain ⟨es, last, haccept⟩ := parseElemSegment_accepts o hflags hvalid hnext
    obtain ⟨format, hformat, -⟩ := h _ _ _ _ _ _ hflags haccept
    unfold elemFormatFor at hformat
    split at hformat
    next hlegal =>
      refine ⟨?_, hlegal⟩
      by_contra hlarge
      rw [elemFormat_none (by omega)] at hformat
      cases hformat
    next => cases hformat
  · rintro ⟨hle, hlegal⟩ mod fastFunctions code next last es hflags haccept
    refine ⟨selectedFormat flags.toNat, ?_, parseElemSegment_selected hflags haccept⟩
    rw [elemFormatFor, if_pos hlegal, elemFormat_eq hle]

theorem dataFlagsExact_iff (o : Options) (flags : BitVec 32) :
    DataFlagsExact o flags.toNat ↔ flags.toNat = 0 ∨ o.enableBulkMemory = true := by
  constructor
  · intro h
    by_contra hillegal
    rw [not_or, Bool.not_eq_true] at hillegal
    obtain ⟨next, hflags, hvalid, hnext⟩ := flags_parsesTo flags [0x41, 0, 0x0B, 0]
    obtain ⟨ds, last, haccept⟩ := parseDataSegment_accepts hillegal.2 hflags hvalid hnext
    obtain ⟨format, hformat, -⟩ := h _ _ _ _ _ hflags haccept
    rw [dataFormatFor, if_neg (by simpa using hillegal)] at hformat
    cases hformat
  · intro hlegal mod code next last ds hflags haccept
    obtain ⟨format, hformat, hreads⟩ := parseDataSegment_reads hflags hlegal haccept
    exact ⟨format, by rw [dataFormatFor, if_pos hlegal, hformat], hreads⟩

/-- For all flags and options: both kinds of segment headers are read exactly as WebAssembly defines
them if and only if the element flags are at most 7 and, without bulk memory, both flags are 0. -/
theorem segment_headers_exact_iff (o : Options) (elemFlags dataFlags : BitVec 32) :
    ElemFlagsExact o elemFlags.toNat ∧ DataFlagsExact o dataFlags.toNat ↔
      (elemFlags.toNat ≤ 7 ∧ (elemFlags.toNat = 0 ∨ o.enableBulkMemory = true)) ∧
        (dataFlags.toNat = 0 ∨ o.enableBulkMemory = true) :=
  and_congr (elemFlagsExact_iff o elemFlags) (dataFlagsExact_iff o dataFlags)

/-- Flags 8 are read as flags 0. -/
theorem elem_flags_eight_accepted :
    (∃ es last, parseElemSegment defaultOptions sampleModule []
      (codeOf [0x08, 0x41, 0x00, 0x0B, 0x00]) = .ok (es, last)) ∧
      ¬ ElemFlagsExact defaultOptions 8 := by
  refine ⟨?_, fun h => ?_⟩
  · obtain ⟨next, hflags, hnext, hrest⟩ := flags_parsesTo 8 (elemTail 8)
    exact parseElemSegment_accepts defaultOptions hflags hnext hrest
  · exact absurd ((elemFlagsExact_iff defaultOptions 8).mp h).1 (by decide)

end EosVm
