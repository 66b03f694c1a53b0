import EosVm.Source.MachineCodeWriter

/-!
# What `machine_code_writer` encodes is decoded again

The processor reads an instruction back from its bytes: the opcode, the operand size, the registers
and the memory operand. The memory operands for which it reads something else are told exactly.
-/

set_option autoImplicit false

namespace EosVm.MachineCodeWriter

open Lib.X86.Encoding

theorem extend_high (r : BitVec 4) : extend (high r) (r.setWidth 3) = r := by decide +revert

theorem fields_reg (reg r : BitVec 4) :
    0xc0 ||| low reg <<< 3 ||| low r = fields 3 (reg.setWidth 3) (r.setWidth 3) := by
  decide +revert

theorem fields_mod0 (reg r : BitVec 4) :
    low reg <<< 3 ||| low r = fields 0 (reg.setWidth 3) (r.setWidth 3) := by decide +revert

theorem fields_mod1 (reg r : BitVec 4) :
    0x40 ||| low reg <<< 3 ||| low r = fields 1 (reg.setWidth 3) (r.setWidth 3) := by
  decide +revert

theorem fields_mod2 (reg r : BitVec 4) :
    0x80 ||| low reg <<< 3 ||| low r = fields 2 (reg.setWidth 3) (r.setWidth 3) := by
  decide +revert

/-- An offset that fits in a byte comes back from it by its sign. -/
theorem signExtend_of_fitsByte {v : BitVec 32} (h : fitsByte v) :
    (v.setWidth 8).signExtend 32 = v := by
  have hv : -0x80 ≤ v.toInt ∧ v.toInt ≤ 0x7f := by simpa [fitsByte] using h
  apply BitVec.eq_of_toInt_eq
  have hbyte : (v.setWidth 8).toInt = v.toInt := by
    rw [BitVec.toInt_setWidth, BitVec.toInt_eq_toNat_bmod] at *
    simp only [Int.bmod_def] at *
    omega
  rw [BitVec.toInt_signExtend_of_le (by decide), hbyte]

/-- The operand that is meant. -/
def MemoryRef.operand : MemoryRef → Rm
  | .simple reg => .mem (some reg) none 0
  | .disp reg offset => .mem (some reg) none offset
  | .sib reg1 reg2 offset => .mem (some reg2) (some (reg1, 0)) offset

def RM.operand : RM → Rm
  | .reg _ r => .reg r
  | .mem m | .sized _ m => m.operand

/-- Where the encoding is that of the operand: `r12` as a base would need a SIB byte, and `r13` a
displacement. -/
def MemoryRef.Encodable : MemoryRef → Prop
  | .simple reg => reg ≠ 12 ∧ reg ≠ 13
  | .disp reg offset => reg ≠ 12 ∧ (offset = 0 → reg ≠ 13)
  | .sib _ reg2 offset => offset = 0 → reg2 ≠ 13

def RM.Encodable : RM → Prop
  | .reg _ _ => True
  | .mem m | .sized _ m => m.Encodable

theorem decodeModRm_reg (reg r : BitVec 4) (x : Bool) (bytes : List Byte) :
    decodeModRm (high reg) x (high r) ([0xc0 ||| low reg <<< 3 ||| low r] ++ bytes) =
      some (reg, .reg r, bytes) := by
  rw [fields_reg]
  simp [decodeModRm, extend_high]

/-- Without a SIB byte the base is read back unless its number means something else. -/
theorem decodeModRm_base {mod : BitVec 2} {reg base : BitVec 4} {d bytes : List Byte}
    {offset : BitVec 32} (x : Bool) (hmod : mod ≠ 3) (hrsp : base.setWidth 3 ≠ (4 : BitVec 3))
    (hrbp : mod = 0 → base.setWidth 3 ≠ (5 : BitVec 3))
    (hdisp : decodeDisp mod (d ++ bytes) = some (offset, bytes)) :
    decodeModRm (high reg) x (high base)
      (fields mod (reg.setWidth 3) (base.setWidth 3) :: (d ++ bytes)) =
      some (reg, .mem (some base) none offset, bytes) := by
  have hrip : ¬(mod = 0 ∧ base.setWidth 3 = (5 : BitVec 3)) := fun h => hrbp h.1 h.2
  simp only [decodeModRm, modField_fields, regField_fields, rmField_fields,
    if_neg hmod, if_neg hrsp, if_neg hrip, hdisp, Option.map_some, extend_high]

/-- With a SIB byte the base and the index are read back. -/
theorem decodeModRm_sib {mod : BitVec 2} (reg index base : BitVec 4) {d bytes : List Byte}
    {offset : BitVec 32} (hmod : mod ≠ 3) (hrbp : mod = 0 → base.setWidth 3 ≠ (5 : BitVec 3))
    (hdisp : decodeDisp mod (d ++ bytes) = some (offset, bytes)) :
    decodeModRm (high reg) (high index) (high base)
      (fields mod (reg.setWidth 3) 4 :: fields 0 (index.setWidth 3) (base.setWidth 3) ::
        (d ++ bytes)) =
      some (reg, .mem (some base) (if index = 4 then none else some (index, 0)) offset, bytes) := by
  have hnone : ¬(mod = 0 ∧ base.setWidth 3 = (5 : BitVec 3)) := fun h => hrbp h.1 h.2
  simp only [decodeModRm, decodeSib, modField_fields, regField_fields, rmField_fields, if_neg hmod,
    if_neg hnone, hdisp, Option.map_some, extend_high, ↓reduceIte]

/-- How the displacement is encoded: the mode and the bytes. -/
def dispMode (base : BitVec 4) (offset : BitVec 32) : BitVec 2 × List Byte :=
  if offset = 0 then if base = rbp then (1, [0]) else (0, [])
  else if fitsByte offset then (1, [offset.setWidth 8])
  else (2, bytes32 offset)

theorem decodeDisp_dispMode (base : BitVec 4) (offset : BitVec 32) (bytes : List Byte) :
    decodeDisp (dispMode base offset).1 ((dispMode base offset).2 ++ bytes) =
      some (offset, bytes) := by
  unfold dispMode
  split_ifs with hzero hbase hfits
  · subst hzero
    rfl
  · subst hzero
    rfl
  · simp [decodeDisp, read8, signExtend_of_fitsByte hfits]
  · simp [decodeDisp, read32_bytes32]

theorem dispMode_ne_three (base : BitVec 4) (offset : BitVec 32) :
    (dispMode base offset).1 ≠ 3 := by
  unfold dispMode
  split_ifs <;> simp

theorem dispMode_eq_zero {base : BitVec 4} {offset : BitVec 32} :
    (dispMode base offset).1 = 0 ↔ offset = 0 ∧ base ≠ rbp := by
  unfold dispMode
  split_ifs <;> simp_all

theorem emitSimple_eq (mem reg : BitVec 4) : emitSimple mem reg = emitDisp mem 0 reg := by
  rw [emitDisp, if_pos rfl]

theorem emitDisp_eq (mem : BitVec 4) (offset : BitVec 32) (reg : BitVec 4) :
    emitDisp mem offset reg =
      fields (dispMode mem offset).1 (reg.setWidth 3) (mem.setWidth 3) ::
        ((if mem = rsp then [fields 0 4 4] else []) ++ (dispMode mem offset).2) := by
  unfold emitDisp emitSimple dispMode
  by_cases hrsp : mem = rsp
  · subst hrsp
    have hrbp : rsp ≠ rbp := by decide
    simp only [if_neg hrbp, ↓reduceIte]
    split_ifs with hzero hfits
    · exact congrArg (· :: _) (fields_mod0 reg rsp)
    · exact congrArg (· :: _) (fields_mod1 reg rsp)
    · exact congrArg (· :: _) (fields_mod2 reg rsp)
  · simp only [if_neg hrsp]
    split_ifs with hzero hrbp hfits
    · subst hrbp
      exact congrArg (· :: _) (by decide +revert)
    · exact congrArg (· :: _) (fields_mod0 reg mem)
    · exact congrArg (· :: _) (fields_mod1 reg mem)
    · exact congrArg (· :: _) (fields_mod2 reg mem)

theorem emitSib_eq {reg1 reg2 : BitVec 4} {offset : BitVec 32} {reg : BitVec 4} {bytes : List Byte}
    (hemit : emitSib reg1 reg2 offset reg = .ok bytes) :
    reg1 ≠ rsp ∧ reg2 ≠ rbp ∧
      bytes = fields (dispMode reg2 offset).1 (reg.setWidth 3) 4 ::
        fields 0 (reg1.setWidth 3) (reg2.setWidth 3) :: (dispMode reg2 offset).2 := by
  unfold emitSib at hemit
  split_ifs at hemit with hunimplemented hzero hfits
  all_goals
    have hregs := not_or.mp hunimplemented
    refine ⟨hregs.1, hregs.2, ?_⟩
    obtain rfl := Except.ok.inj hemit
    rw [fields_mod0]
  · rw [dispMode, if_pos hzero, if_neg hregs.2]
    exact congrArg (· :: _) (by decide +revert)
  · rw [dispMode, if_neg hzero, if_pos hfits]
    exact congrArg (· :: _) (fields_mod1 reg 4)
  · rw [dispMode, if_neg hzero, if_neg hfits]
    exact congrArg (· :: _) (fields_mod2 reg 4)

/-- Whether the base register has a number that the ModRM byte takes for something else. -/
theorem setWidth_eq_four {r : BitVec 4} : r.setWidth 3 = (4 : BitVec 3) ↔ r = rsp ∨ r = 12 := by
  decide +revert

theorem setWidth_eq_five {r : BitVec 4} : r.setWidth 3 = (5 : BitVec 3) ↔ r = rbp ∨ r = 13 := by
  decide +revert

theorem dispMode_length (base : BitVec 4) (offset : BitVec 32) :
    (dispMode base offset).2.length = dispLength (dispMode base offset).1 := by
  have h := decodeDisp_length (decodeDisp_dispMode base offset [])
  rw [List.append_nil] at h
  simpa using h

/-- The base `r12` is taken for a SIB byte, so that the operand ends elsewhere. -/
theorem decodeModRm_r12 {mod : BitVec 2} {r x b : Bool} {reg : BitVec 3} {reg' : BitVec 4} {rm : Rm}
    {d bytes : List Byte} (hmod : mod ≠ 3) (hlength : d.length = dispLength mod) :
    decodeModRm r x b (fields mod reg 4 :: (d ++ bytes)) ≠ some (reg', rm, bytes) := by
  intro h
  simp only [decodeModRm, modField_fields, rmField_fields, if_neg hmod, ↓reduceIte] at h
  obtain ⟨d', hd', hrest⟩ := Option.map_eq_some_iff.mp h
  simp only [Prod.mk.injEq] at hrest
  obtain ⟨-, rfl⟩ := hrest
  have hshorter := decodeSib_length hd'
  rw [List.length_append, hlength] at hshorter
  omega

/-- The base `r13` without a displacement is taken for the instruction pointer. -/
theorem decodeModRm_r13 {r x b : Bool} {reg : BitVec 3} {reg' base : BitVec 4} {offset : BitVec 32}
    {bytes rest : List Byte} :
    decodeModRm r x b (fields 0 reg 5 :: bytes) ≠
      some (reg', .mem (some base) none offset, rest) := by
  intro h
  simp only [decodeModRm, modField_fields, rmField_fields] at h
  obtain ⟨d', -, hrest⟩ := Option.map_eq_some_iff.mp h
  simp at hrest

/-- After a SIB byte the base `r13` without a displacement is taken for no base. -/
theorem decodeModRm_sib_r13 {r x b : Bool} {reg index : BitVec 3} {reg' base : BitVec 4}
    {index' : Option (BitVec 4 × BitVec 2)} {offset : BitVec 32} {bytes rest : List Byte} :
    decodeModRm r x b (fields 0 reg 4 :: fields 0 index 5 :: bytes) ≠
      some (reg', .mem (some base) index' offset, rest) := by
  intro h
  simp only [decodeModRm, decodeSib, modField_fields, rmField_fields] at h
  obtain ⟨d', hd', hrest⟩ := Option.map_eq_some_iff.mp h
  obtain ⟨d, -, rfl⟩ := Option.map_eq_some_iff.mp hd'
  simp at hrest

theorem decodeModRm_emitDisp (reg mem : BitVec 4) (offset : BitVec 32) (bytes : List Byte) :
    decodeModRm (high reg) false (high mem) (emitDisp mem offset reg ++ bytes) =
        some (reg, .mem (some mem) none offset, bytes) ↔
      mem ≠ 12 ∧ (offset = 0 → mem ≠ 13) := by
  rw [emitDisp_eq, List.cons_append]
  constructor
  · refine fun h => ⟨?_, ?_⟩
    · rintro rfl
      rw [if_neg (by decide)] at h
      exact decodeModRm_r12 (dispMode_ne_three _ _) (dispMode_length _ _) h
    · rintro rfl rfl
      exact decodeModRm_r13 h
  · intro ⟨hr12, hr13⟩
    by_cases hrsp : mem = rsp
    · subst hrsp
      rw [if_pos rfl]
      exact decodeModRm_sib reg 4 rsp (dispMode_ne_three _ _) (fun _ => by decide)
        (decodeDisp_dispMode _ _ _)
    · rw [if_neg hrsp]
      refine decodeModRm_base false (dispMode_ne_three _ _) ?_ ?_ (decodeDisp_dispMode _ _ _)
      · rw [Ne, setWidth_eq_four]
        exact not_or.mpr ⟨hrsp, hr12⟩
      · intro hzero
        obtain ⟨rfl, hrbp⟩ := dispMode_eq_zero.mp hzero
        rw [Ne, setWidth_eq_five]
        exact not_or.mpr ⟨hrbp, hr13 rfl⟩

theorem decodeModRm_emitSib {reg reg1 reg2 : BitVec 4} {offset : BitVec 32} {operand : List Byte}
    (hemit : emitSib reg1 reg2 offset reg = .ok operand) (bytes : List Byte) :
    decodeModRm (high reg) (high reg1) (high reg2) (operand ++ bytes) =
        some (reg, .mem (some reg2) (some (reg1, 0)) offset, bytes) ↔
      (offset = 0 → reg2 ≠ 13) := by
  obtain ⟨hrsp, hrbp, rfl⟩ := emitSib_eq hemit
  constructor
  · rintro h rfl rfl
    exact decodeModRm_sib_r13 h
  · intro hr13
    have hmod : (dispMode reg2 offset).1 = 0 → reg2.setWidth 3 ≠ (5 : BitVec 3) := by
      intro hzero
      obtain ⟨rfl, -⟩ := dispMode_eq_zero.mp hzero
      rw [Ne, setWidth_eq_five]
      exact not_or.mpr ⟨hrbp, hr13 rfl⟩
    have h := decodeModRm_sib reg reg1 reg2 (dispMode_ne_three reg2 offset) hmod
      (decodeDisp_dispMode reg2 offset bytes)
    rw [if_neg (show reg1 ≠ 4 from hrsp)] at h
    exact h

/-- The operands that are emitted are read back, exactly where they are encodable. -/
theorem decodeModRm_emit {reg : BitVec 4} {rm : RM} {operand : List Byte}
    (hemit : emitModrmSibDisp reg rm = .ok operand) (bytes : List Byte) :
    decodeModRm (high reg) rm.highBits.1 rm.highBits.2 (operand ++ bytes) =
      some (reg, rm.operand, bytes) ↔ rm.Encodable := by
  have hmem : ∀ m : MemoryRef, m.emitModrmSibDisp reg = .ok operand →
      (decodeModRm (high reg) m.highBits.1 m.highBits.2 (operand ++ bytes) =
        some (reg, m.operand, bytes) ↔ m.Encodable) := by
    intro m hm
    cases m with
    | simple mem =>
      obtain rfl := Except.ok.inj hm
      rw [emitSimple_eq]
      refine (decodeModRm_emitDisp reg mem 0 bytes).trans ?_
      simp [MemoryRef.Encodable]
    | disp mem offset =>
      obtain rfl := Except.ok.inj hm
      exact decodeModRm_emitDisp reg mem offset bytes
    | sib reg1 reg2 offset => exact decodeModRm_emitSib hm bytes
  cases rm with
  | reg kind r =>
    obtain rfl := Except.ok.inj hemit
    exact iff_of_true (decodeModRm_reg reg r false bytes) trivial
  | mem m => exact hmem m hemit
  | sized size m => exact hmem m hemit

/-- The bits of a REX prefix. -/
def rexBits (w r x b : Bool) : BitVec 4 :=
  BitVec.ofBool w ++ BitVec.ofBool r ++ BitVec.ofBool x ++ BitVec.ofBool b

theorem decodePrefixes_emitRexPrefix (w r x b : Bool) (bytes : List Byte) :
    decodePrefixes {} (emitRexPrefix w r x b ++ bytes) =
      decodePrefixes ⟨false, none, rexBits w r x b⟩ bytes := by
  cases w <;> cases r <;> cases x <;> cases b <;> rfl

theorem emitRexPrefix_eq_nil {w r x b : Bool} :
    emitRexPrefix w r x b = [] ↔ w = false ∧ r = false ∧ x = false ∧ b = false := by
  decide +revert

/-- A REX prefix and an opcode are read before the operands are. -/
theorem decode_emitRexPrefix {o : Opcode} (hvalid : o.Valid) (w r x b : Bool) (bytes : List Byte) :
    decode (emitRexPrefix w r x b ++ (o.prefixBytes ++ (o.mapBytes ++ bytes))) =
      decodeOperands (o.prefixes (rexBits w r x b)) none o.map o.byte bytes := by
  have hhead : ∀ byte ∈ (emitRexPrefix w r x b ++ (o.prefixBytes ++ (o.mapBytes ++ bytes))).head?,
      byte ≠ 0xc5 ∧ byte ≠ 0xc4 := by
    by_cases hrex : emitRexPrefix w r x b = []
    · rw [hrex]
      exact Opcode.head_ne_vex hvalid bytes
    · have hbyte : ∀ byte ∈ (emitRexPrefix w r x b).head?, byte ≠ 0xc5 ∧ byte ≠ 0xc4 := by
        cases w <;> cases r <;> cases x <;> cases b <;> decide
      intro byte hmem
      rw [List.head?_append_of_ne_nil _ hrex] at hmem
      exact hbyte byte hmem
  rw [decode_of_head hhead, decodeLegacy, decodePrefixes_emitRexPrefix,
    Opcode.decodePrefixes_prefixBytes, Opcode.decodePrefixes_mapBytes hvalid,
    Opcode.decodeOpcode_mapBytes hvalid]
  rfl

theorem high_eq_getLsbD (r : BitVec 4) : high r = r.getLsbD 3 := by decide +revert

theorem rexBits_bits (w r x b : Bool) :
    (rexBits w r x b).getLsbD 3 = w ∧ (rexBits w r x b).getLsbD 2 = r ∧
      (rexBits w r x b).getLsbD 1 = x ∧ (rexBits w r x b).getLsbD 0 = b := by decide +revert

/-- The operand decides the bits of the prefix, except for an index that it does not have. -/
theorem highBits_of_hasBits {rm : RM} {x b : Bool} (h : rm.operand.HasBits x b) :
    rm.highBits.2 = b ∧ (rm.highBits.1 = x ∨ rm.highBits.1 = false) := by
  have hmem : ∀ m : MemoryRef, m.operand.HasBits x b →
      m.highBits.2 = b ∧ (m.highBits.1 = x ∨ m.highBits.1 = false) := by
    intro m hm
    cases m with
    | simple mem | disp mem offset =>
      exact ⟨(high_eq_getLsbD mem).trans (hm.1 mem rfl), .inr rfl⟩
    | sib reg1 reg2 offset =>
      exact ⟨(high_eq_getLsbD reg2).trans (hm.1 reg2 rfl),
        .inl ((high_eq_getLsbD reg1).trans (hm.2 (reg1, 0) rfl))⟩
  cases rm with
  | reg kind r => exact ⟨(high_eq_getLsbD r).trans h, .inr rfl⟩
  | mem m => exact hmem m h
  | sized size m => exact hmem m h

/-- The operands and the immediate are read exactly where `decodeModRm` reads the operands. -/
theorem decodeOperands_iff {p : Prefixes} {vex : Option (BitVec 4 × Bool)} {map : OpcodeMap}
    {opcode : Byte} {w : Bool} {reg : BitVec 4} {rm : Rm} {operand imm bytes : List Byte}
    (hmodRm : hasModRm map opcode)
    (himm : imm.length = immSize map opcode p.opSize w (reg.setWidth 3)) :
    decodeOperands p vex map opcode (operand ++ (imm ++ bytes)) =
        some (⟨p.opSize, p.rep, vex, w, map, opcode, reg, some rm, imm⟩, bytes) ↔
      p.rex.getLsbD 3 = w ∧
        decodeModRm (p.rex.getLsbD 2) (p.rex.getLsbD 1) (p.rex.getLsbD 0)
          (operand ++ (imm ++ bytes)) =
          some (reg, rm, imm ++ bytes) := by
  simp only [decodeOperands, hmodRm, ↓reduceIte, Option.bind_eq_bind]
  constructor
  · intro h
    obtain ⟨⟨reg', rm', bytes'⟩, hdecode, hrest⟩ := Option.bind_eq_some_iff.mp h
    obtain ⟨⟨imm', bytes''⟩, hread, hinsn⟩ := Option.bind_eq_some_iff.mp hrest
    simp only [Option.pure_def, Option.some.injEq, Prod.mk.injEq, Insn.mk.injEq, true_and] at hinsn
    obtain ⟨⟨hw, rfl, rfl, rfl⟩, rfl⟩ := hinsn
    have hbytes : bytes' = imm' ++ bytes'' := readBytes_eq hread
    exact ⟨hw, hbytes ▸ hdecode⟩
  · rintro ⟨rfl, hdecode⟩
    rw [hdecode]
    simp only [Option.bind_some, ← himm, readBytes_append]
    rfl

theorem emitIA32Imm_ok {op : IA32} {imm code : List Byte} {rm : RM} {reg : RegArg}
    (hemit : emitIA32Imm op imm rm reg = .ok code) :
    ∃ operand, emitModrmSibDisp reg.number rm = .ok operand ∧
      code = emitRexPrefixOf (getOperandSize op.w rm reg) rm reg.number ++ op.opcode ++ operand ++
        imm := by
  unfold emitIA32Imm emitIA32RM at hemit
  cases hoperand : emitModrmSibDisp reg.number rm with
  | error e =>
    rw [hoperand] at hemit
    cases hemit
  | ok operand =>
    rw [hoperand] at hemit
    exact ⟨operand, rfl, (Except.ok.inj hemit).symm⟩

/-- What a general instruction is read as, with its immediate: the instruction that was meant,
exactly where its operand is encodable and no prefix of its opcode comes after a REX prefix. -/
theorem decode_emitIA32Imm {o : Opcode} (hvalid : o.Valid) (hmodRm : hasModRm o.map o.byte)
    {w : OpcodeW} {imm code : List Byte} {rm : RM} {reg : RegArg}
    (himm : imm.length =
      immSize o.map o.byte o.opSize (getOperandSize w rm reg) (reg.number.setWidth 3))
    (hemit : emitIA32Imm ⟨w, o.prefixBytes ++ o.mapBytes⟩ imm rm reg = .ok code)
    (bytes : List Byte) :
    decode (code ++ bytes) =
        some (⟨o.opSize, o.rep, none, getOperandSize w rm reg, o.map, o.byte, reg.number,
          some rm.operand, imm⟩, bytes) ↔
      rm.Encodable ∧
        (o.prefixBytes = [] ∨ emitRexPrefixOf (getOperandSize w rm reg) rm reg.number = []) := by
  obtain ⟨operand, hoperand, rfl⟩ := emitIA32Imm_ok hemit
  simp only [List.append_assoc, emitRexPrefixOf]
  rw [decode_emitRexPrefix hvalid, emitRexPrefix_eq_nil]
  generalize getOperandSize w rm reg = w at himm ⊢
  obtain ⟨hw, hr, hx, hb⟩ := rexBits_bits w (high reg.number) rm.highBits.1 rm.highBits.2
  set rex := rexBits w (high reg.number) rm.highBits.1 rm.highBits.2
  refine (decodeOperands_iff (p := o.prefixes rex) hmodRm himm).trans ?_
  have hread := decodeModRm_emit hoperand (imm ++ bytes)
  by_cases hpre : o.prefixBytes = []
  · have hrex : (o.prefixes rex).rex = rex := if_pos hpre
    rw [hrex, hw, hr, hx, hb, hread]
    simp [hpre]
  · have hrex : ∀ i, (o.prefixes rex).rex.getLsbD i = false := by
      intro i
      rw [show (o.prefixes rex).rex = 0 from if_neg hpre]
      exact BitVec.getLsbD_zero
    rw [hrex, hrex, hrex, hrex, or_iff_right hpre]
    constructor
    · rintro ⟨rfl, hdecode⟩
      -- A register that is read back has no bit in the prefix that was put out of effect.
      obtain ⟨hreg, hbits⟩ := decodeModRm_hasBits hdecode
      obtain ⟨hbase, hindex⟩ := highBits_of_hasBits hbits
      have hhigh : high reg.number = false := (high_eq_getLsbD _).trans hreg
      have hindex : rm.highBits.1 = false := hindex.elim id id
      rw [hhigh, hbase, hindex] at hread
      exact ⟨hread.mp hdecode, rfl, hhigh, hindex, hbase⟩
    · rintro ⟨hencodable, rfl, hhigh, hindex, hbase⟩
      rw [hhigh, hbase, hindex] at hread
      exact ⟨rfl, hread.mpr hencodable⟩

/-- An opcode without operands, with or without a register in its low bits. -/
theorem decode_withoutModRm {opcode : Byte} {w b : Bool} {imm : List Byte} (bytes : List Byte)
    (hvalid : (⟨false, none, .primary, opcode⟩ : Opcode).Valid)
    (hmodRm : hasModRm .primary opcode = false)
    (himm : imm.length = immSize .primary opcode false w 0) :
    decode (emitRexPrefix w false false b ++ [opcode] ++ imm ++ bytes) =
      some (⟨false, none, none, w, .primary, opcode, extend b (rmField opcode), none, imm⟩,
        bytes) := by
  obtain ⟨hw, -, -, hb⟩ := rexBits_bits w false false b
  have hdecode := decode_emitRexPrefix hvalid w false false b (imm ++ bytes)
  rw [List.append_assoc, List.append_assoc]
  refine hdecode.trans ?_
  change decodeOperands ⟨false, none, rexBits w false false b⟩ none .primary opcode
    (imm ++ bytes) = _
  simp only [decodeOperands, hmodRm, hw, hb, ← himm, readBytes_append]
  rfl

theorem decode_emitIA32 {w : OpcodeW} {opcode : Byte} (bytes : List Byte)
    (hvalid : (⟨false, none, .primary, opcode⟩ : Opcode).Valid)
    (hmodRm : hasModRm .primary opcode = false)
    (himm : immSize .primary opcode false (decide (w = .one)) 0 = 0) :
    decode (emitIA32 ⟨w, [opcode]⟩ ++ bytes) =
      some (⟨false, none, none, decide (w = .one), .primary, opcode, extend false (rmField opcode),
        none, []⟩, bytes) := by
  have hnil : ([] : List Byte).length = immSize .primary opcode false (decide (w = .one)) 0 :=
    himm.symm
  have hdecode := decode_withoutModRm (b := false) bytes hvalid hmodRm hnil
  rwa [List.append_nil] at hdecode

/-- `push`, `pop` and `mov` with an immediate are read with their register. -/
theorem decode_emitOpcodeReg {w : Bool} {opcode : Byte} {imm : List Byte} (r : BitVec 4)
    (bytes : List Byte) (hopcode : opcode = 0x50 ∨ opcode = 0x58 ∨ opcode = 0xb8)
    (himm : imm.length = immSize .primary opcode false w 0) :
    decode (emitOpcodeReg w opcode r ++ imm ++ bytes) =
      some (⟨false, none, none, w, .primary, opcode ||| low r, r, none, imm⟩, bytes) := by
  have hbyte : (⟨false, none, .primary, opcode ||| low r⟩ : Opcode).Valid ∧
      hasModRm .primary (opcode ||| low r) = false ∧
        immSize .primary (opcode ||| low r) false w 0 = immSize .primary opcode false w 0 ∧
          extend (high r) (rmField (opcode ||| low r)) = r := by
    rcases hopcode with rfl | rfl | rfl <;> cases w <;> decide +revert
  obtain ⟨hvalid, hmodRm, hsize, hreg⟩ := hbyte
  have hdecode := decode_withoutModRm (b := high r) bytes hvalid hmodRm (himm.trans hsize.symm)
  rwa [hreg] at hdecode

def VexMmmm.map : VexMmmm → OpcodeMap
  | .m0F => .m0F
  | .m0F38 => .m0F38
  | .m0F3A => .m0F3A

def VexPp.opSize : VexPp → Bool
  | .p66 => true
  | .none | .pF3 | .pF2 => false

def VexPp.rep : VexPp → Option RepPrefix
  | .pF3 => some .f3
  | .pF2 => some .f2
  | .none | .p66 => Option.none

/-- The last byte of a VEX prefix is read field by field. -/
theorem vexTail_fields (top l : Bool) (vvvv : BitVec 4) (pp : VexPp) :
    let byte := bit top 7 ||| ((vvvv ^^^ 0xf).setWidth 8 <<< 3 ||| bit l 2 ||| pp.value)
    byte.extractLsb' 7 1 = BitVec.ofBool top ∧ ~~~(byte.extractLsb' 3 4) = vvvv ∧
      byte.getLsbD 2 = l ∧ byte.extractLsb' 0 2 = pp.value.setWidth 2 := by
  cases pp <;> decide +revert

theorem vexSecond_fields (r x b : Bool) (mmmm : VexMmmm) :
    let byte := bit (!r) 7 ||| bit (!x) 6 ||| bit (!b) 5 ||| mmmm.value
    ~~~(byte.extractLsb' 5 3) = BitVec.ofBool r ++ BitVec.ofBool x ++ BitVec.ofBool b ∧
      vexMap (byte.extractLsb' 0 5) = some mmmm.map := by
  cases mmmm <;> decide +revert

theorem vexPrefixes_value (pp : VexPp) (rex : BitVec 4) :
    vexPrefixes (pp.value.setWidth 2) rex = ⟨pp.opSize, pp.rep, rex⟩ := by cases pp <;> rfl

theorem decodeVex_tail (map : OpcodeMap) (rex : BitVec 4) (top l : Bool) (vvvv : BitVec 4)
    (pp : VexPp) (opcode : Byte) (bytes : List Byte) :
    decodeVex map rex (bit top 7 ||| ((vvvv ^^^ 0xf).setWidth 8 <<< 3 ||| bit l 2 ||| pp.value))
        (opcode :: bytes) =
      decodeOperands ⟨pp.opSize, pp.rep, rex⟩ (some (vvvv, l)) map opcode bytes := by
  obtain ⟨-, hvvvv, hl, hpp⟩ := vexTail_fields top l vvvv pp
  rw [decodeVex, hvvvv, hl, hpp, vexPrefixes_value]

theorem rexBits_long (w r x b : Bool) :
    BitVec.ofBool w ++ (BitVec.ofBool r ++ BitVec.ofBool x ++ BitVec.ofBool b) =
      rexBits w r x b := by
  decide +revert

theorem rexBits_short (r : Bool) :
    (~~~(BitVec.ofBool !r)).setWidth 4 <<< 2 = rexBits false r false false := by decide +revert

/-- Both forms of the VEX prefix are read before the operands are. -/
theorem decode_emitVexPrefix (r x b w l : Bool) (mmmm : VexMmmm) (vvvv : BitVec 4) (pp : VexPp)
    (opcode : Byte) (bytes : List Byte) :
    decode (emitVexPrefix r x b mmmm w vvvv l pp ++ opcode :: bytes) =
      decodeOperands ⟨pp.opSize, pp.rep, rexBits w r x b⟩
        (some (vvvv, l)) mmmm.map opcode bytes := by
  unfold emitVexPrefix
  dsimp only
  split_ifs with hlong
  · obtain ⟨htop, -⟩ := vexTail_fields w l vvvv pp
    obtain ⟨hbits, hmap⟩ := vexSecond_fields r x b mmmm
    rw [List.cons_append, decode, if_neg (by decide), if_pos rfl]
    simp only [List.cons_append, List.nil_append, decodeVex3, hbits, hmap, htop, Option.bind_some]
    rw [decodeVex_tail, rexBits_long]
  · obtain ⟨htop, -⟩ := vexTail_fields (!r) l vvvv pp
    simp only [Bool.or_eq_true, bne_iff_ne, ne_eq, not_or, Bool.not_eq_true, not_not] at hlong
    obtain ⟨⟨⟨rfl, rfl⟩, rfl⟩, rfl⟩ := hlong
    rw [List.cons_append, decode, if_pos rfl]
    simp only [List.cons_append, List.nil_append, decodeVex2, htop]
    rw [decodeVex_tail, rexBits_short]
    rfl

theorem emitVexOperands_ok {op : VEX} {code : List Byte} {rm : RM} {reg vvvv : BitVec 4}
    (hemit : emitVexOperands op rm reg vvvv = .ok code) :
    ∃ operand, emitModrmSibDisp reg rm = .ok operand ∧
      code = emitVexPrefix (high reg) rm.highBits.1 rm.highBits.2 op.mmmm op.w vvvv
        op.size256 op.pp ++
        [op.opcode] ++ operand := by
  unfold emitVexOperands at hemit
  cases hoperand : emitModrmSibDisp reg rm with
  | error e =>
    rw [hoperand] at hemit
    cases hemit
  | ok operand =>
    rw [hoperand] at hemit
    exact ⟨operand, rfl, (Except.ok.inj hemit).symm⟩

/-- An AVX instruction is read as the one that was meant, exactly where its operand is encodable. -/
theorem decode_emitVexOperands {op : VEX} (hmodRm : hasModRm op.mmmm.map op.opcode)
    {code imm : List Byte} {rm : RM} {reg vvvv : BitVec 4}
    (himm : imm.length =
      immSize op.mmmm.map op.opcode op.pp.opSize op.w (reg.setWidth 3))
    (hemit : emitVexOperands op rm reg vvvv = .ok code) (bytes : List Byte) :
    decode (code ++ imm ++ bytes) =
        some (⟨op.pp.opSize, op.pp.rep, some (vvvv, op.size256), op.w, op.mmmm.map, op.opcode, reg,
          some rm.operand, imm⟩, bytes) ↔
      rm.Encodable := by
  obtain ⟨operand, hoperand, rfl⟩ := emitVexOperands_ok hemit
  simp only [List.append_assoc, List.cons_append, List.nil_append]
  obtain ⟨hw, hr, hx, hb⟩ := rexBits_bits op.w (high reg) rm.highBits.1 rm.highBits.2
  rw [decode_emitVexPrefix]
  refine (decodeOperands_iff (p := ⟨op.pp.opSize, op.pp.rep, _⟩) hmodRm himm).trans ?_
  rw [hw, hr, hx, hb, decodeModRm_emit hoperand, and_iff_right rfl]

/-- Operands that are not emitted: a stack pointer as the index, and `rbp` as the base after it. -/
def MemoryRef.Unimplemented : MemoryRef → Prop
  | .simple _ | .disp _ _ => False
  | .sib reg1 reg2 _ => reg1 = rsp ∨ reg2 = rbp

def RM.Unimplemented : RM → Prop
  | .reg _ _ => False
  | .mem m | .sized _ m => m.Unimplemented

theorem emitSib_error {reg1 reg2 : BitVec 4} {offset : BitVec 32} {reg : BitVec 4} :
    emitSib reg1 reg2 offset reg = .error unimplemented ↔ reg1 = rsp ∨ reg2 = rbp := by
  unfold emitSib
  dsimp only
  split_ifs with h <;> simp [h]

theorem emitModrmSibDisp_error (reg : BitVec 4) {rm : RM} :
    emitModrmSibDisp reg rm = .error unimplemented ↔ rm.Unimplemented := by
  have hmem : ∀ m : MemoryRef,
      m.emitModrmSibDisp reg = .error unimplemented ↔ m.Unimplemented := by
    intro m
    cases m with
    | simple mem | disp mem offset => simp [MemoryRef.emitModrmSibDisp, MemoryRef.Unimplemented]
    | sib reg1 reg2 offset => exact emitSib_error
  cases rm with
  | reg kind r => simp [emitModrmSibDisp, RM.Unimplemented]
  | mem m => exact hmem m
  | sized size m => exact hmem m

theorem emitIA32Imm_error {op : IA32} {imm : List Byte} {rm : RM} {reg : RegArg} :
    emitIA32Imm op imm rm reg = .error unimplemented ↔ rm.Unimplemented := by
  rw [← emitModrmSibDisp_error reg.number]
  unfold emitIA32Imm emitIA32RM
  cases emitModrmSibDisp reg.number rm with
  | error e => rfl
  | ok operand => exact iff_of_false (fun h => by cases h) (fun h => by cases h)

theorem emitVexOperands_error {op : VEX} {rm : RM} {reg vvvv : BitVec 4} :
    emitVexOperands op rm reg vvvv = .error unimplemented ↔ rm.Unimplemented := by
  rw [← emitModrmSibDisp_error reg]
  unfold emitVexOperands
  cases emitModrmSibDisp reg rm with
  | error e => rfl
  | ok operand => exact iff_of_false (fun h => by cases h) (fun h => by cases h)

/-- A general instruction, with any opcode, operands and immediate: it is not emitted exactly for
the operands that are unimplemented, and what is emitted is decoded as the instruction that was
meant exactly where its memory operand is encodable and no prefix of its opcode follows a REX
prefix. -/
theorem general_round_trip {o : Opcode} (hvalid : o.Valid) (hmodRm : hasModRm o.map o.byte)
    (w : OpcodeW) (imm : List Byte) (rm : RM) (reg : RegArg)
    (himm : imm.length =
      immSize o.map o.byte o.opSize (getOperandSize w rm reg) (reg.number.setWidth 3)) :
    (emitIA32Imm ⟨w, o.prefixBytes ++ o.mapBytes⟩ imm rm reg = .error unimplemented ↔
        rm.Unimplemented) ∧
      ∀ code, emitIA32Imm ⟨w, o.prefixBytes ++ o.mapBytes⟩ imm rm reg = .ok code →
        ∀ bytes, decode (code ++ bytes) =
            some (⟨o.opSize, o.rep, none, getOperandSize w rm reg, o.map, o.byte, reg.number,
              some rm.operand, imm⟩, bytes) ↔
          rm.Encodable ∧
            (o.prefixBytes = [] ∨
              emitRexPrefixOf (getOperandSize w rm reg) rm reg.number = []) :=
  ⟨emitIA32Imm_error, fun _ hemit bytes => decode_emitIA32Imm hvalid hmodRm himm hemit bytes⟩

/-- `lzcnt` of a 64-bit register through `emit` is read as something else. -/
theorem general_round_trip_lzcnt :
    decode ([0x48, 0xf3, 0x0f, 0xbd, 0xc0] ++ []) ≠
      some (⟨false, some .f3, none, true, .m0F, 0xbd, 0, some (.reg 0), []⟩, []) := by
  intro hdecode
  have hround :=
    (general_round_trip (o := ⟨false, some .f3, .m0F, 0xbd⟩) (by decide) rfl .operand []
    (.reg .general64 0) (.reg .general64 0) rfl).2 _ rfl []
  obtain ⟨-, hpre | hrex⟩ := hround.mp hdecode
  · exact absurd hpre (by decide)
  · exact absurd hrex (by decide)

/-- An AVX instruction, with any prefix fields, operands and immediate: it is not emitted exactly
for the operands that are unimplemented, and what is emitted is decoded as the instruction that was
meant exactly where its memory operand is encodable. -/
theorem vector_round_trip {op : VEX} (hmodRm : hasModRm op.mmmm.map op.opcode) (imm : List Byte)
    (rm : RM) (reg vvvv : BitVec 4)
    (himm : imm.length = immSize op.mmmm.map op.opcode op.pp.opSize op.w (reg.setWidth 3)) :
    (emitVexOperands op rm reg vvvv = .error unimplemented ↔ rm.Unimplemented) ∧
      ∀ code, emitVexOperands op rm reg vvvv = .ok code →
        ∀ bytes, decode (code ++ imm ++ bytes) =
            some (⟨op.pp.opSize, op.pp.rep, some (vvvv, op.size256), op.w, op.mmmm.map, op.opcode,
              reg, some rm.operand, imm⟩, bytes) ↔
          rm.Encodable :=
  ⟨emitVexOperands_error, fun _ hemit bytes => decode_emitVexOperands hmodRm himm hemit bytes⟩

/-- `vpaddb` of three of the higher registers. -/
theorem vector_round_trip_vpaddb :
    decode ([0xc4, 0x41, 0x29, 0xfc, 0xd9] ++ [] ++ []) =
      some (⟨true, none, some (10, false), false, .m0F, 0xfc, 11, some (.reg 9), []⟩, []) :=
  ((@vector_round_trip ⟨false, .p66, .m0F, false, 0xfc⟩ rfl [] (.reg .xmm 9) 11 10 rfl).2 _ rfl
    []).mpr trivial

end EosVm.MachineCodeWriter
