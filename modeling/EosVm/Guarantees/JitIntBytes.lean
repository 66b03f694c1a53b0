import EosVm.Guarantees.JitIntOps
import EosVm.Guarantees.MachineCodeWriter
import EosVm.Source.JitIntBytes

/-!
# The integer instructions as bytes

The bytes that are written for a scalar integer instruction are decoded as its operations, and a
processor that fetches them computes what WebAssembly defines.
-/

set_option autoImplicit false

namespace EosVm.MachineCodeWriter

open Lib Lib.X86 Lib.X86.Encoding

theorem getOperandSize_general (w : Width) (rm : RM) (r : Reg) :
    getOperandSize .operand rm (generalArg w r) = (w == .w64) := by cases w <;> rfl

theorem operandSize_general (w : Width) (r : Reg) (n : BitVec 3) :
    getOperandSize .operand (general w r) (.opext n) = (w == .w64) := by cases w <;> rfl

theorem widthOf_beq (w : Width) : widthOf (w == .w64) = w := by cases w <;> rfl

theorem decodes_imm {o : Encoding.Opcode} (hvalid : o.Valid) (hmodRm : hasModRm o.map o.byte)
    {w : OpcodeW}
    {imm code : List Byte} {rm : RM} {reg : RegArg} {meaning : Meaning}
    (hemit : emitIA32Imm ⟨w, o.prefixBytes ++ o.mapBytes⟩ imm rm reg = .ok code)
    (hrm : rm.Encodable)
    (hpre : o.prefixBytes = [] ∨ emitRexPrefixOf (getOperandSize w rm reg) rm reg.number = [])
    (himm : imm.length =
      immSize o.map o.byte o.opSize (getOperandSize w rm reg) (reg.number.setWidth 3))
    (hmeaning : Insn.meaning ⟨o.opSize, o.rep, none, getOperandSize w rm reg, o.map, o.byte,
      reg.number, some rm.operand, imm⟩ = some meaning) : Decodes code meaning := by
  have hdecode := (decode_emitIA32Imm hvalid hmodRm himm hemit []).mpr ⟨hrm, hpre⟩
  rw [List.append_nil] at hdecode
  exact ⟨_, hdecode, hmeaning⟩

theorem emitIA32Imm_nil (op : IA32) (rm : RM) (reg : RegArg) :
    emitIA32Imm op [] rm reg = emitIA32RM op rm reg := by
  unfold emitIA32Imm
  cases emitIA32RM op rm reg with
  | error e => rfl
  | ok code => exact congrArg Except.ok (List.append_nil code)

theorem decodes_rm {o : Encoding.Opcode} (hvalid : o.Valid) (hmodRm : hasModRm o.map o.byte)
    {w : OpcodeW}
    {code : List Byte} {rm : RM} {reg : RegArg} {meaning : Meaning}
    (hemit : emitIA32RM ⟨w, o.prefixBytes ++ o.mapBytes⟩ rm reg = .ok code) (hrm : rm.Encodable)
    (hpre : o.prefixBytes = [] ∨ emitRexPrefixOf (getOperandSize w rm reg) rm reg.number = [])
    (himm : 0 = immSize o.map o.byte o.opSize (getOperandSize w rm reg) (reg.number.setWidth 3))
    (hmeaning : Insn.meaning ⟨o.opSize, o.rep, none, getOperandSize w rm reg, o.map, o.byte,
      reg.number, some rm.operand, []⟩ = some meaning) : Decodes code meaning :=
  decodes_imm hvalid hmodRm ((emitIA32Imm_nil ..).trans hemit) hrm hpre himm hmeaning

theorem setWidth_ext (ext : BitVec 3) : (ext.setWidth 4).setWidth 3 = ext := by decide +revert

section Forms

variable (map : OpcodeMap) (byte : Byte) {w : Width} {r : Reg} {code : List Byte}
    {meaning : Meaning}

/-- An opcode with a general register and an operand. -/
theorem general_decodes {rm : RM}
    (hemit : emitIA32RM ⟨.operand, (⟨false, none, map, byte⟩ : Encoding.Opcode).mapBytes⟩ rm
      (generalArg w r) =
      .ok code)
    (hvalid : (⟨false, none, map, byte⟩ : Encoding.Opcode).Valid) (hmodRm : hasModRm map byte)
    (himm : 0 = immSize map byte false (w == .w64) (r.number.setWidth 3)) (hrm : rm.Encodable)
    (hmeaning : Insn.meaning ⟨false, none, none, w == .w64, map, byte, r.number,
      some rm.operand, []⟩ =
      some meaning) : Decodes code meaning := by
  refine decodes_rm (o := ⟨false, none, map, byte⟩) hvalid hmodRm hemit hrm (.inl rfl) ?_ ?_
  · rw [getOperandSize_general]
    exact himm
  · rw [getOperandSize_general]
    exact hmeaning

/-- An opcode with an extension, a general register and an immediate. -/
theorem extension_decodes {imm : List Byte} {ext : BitVec 3}
    (hemit : emitIA32Imm ⟨.operand, (⟨false, none, map, byte⟩ : Encoding.Opcode).mapBytes⟩ imm
      (general w r)
      (.opext ext) = .ok code)
    (hvalid : (⟨false, none, map, byte⟩ : Encoding.Opcode).Valid) (hmodRm : hasModRm map byte)
    (himm : imm.length = immSize map byte false (w == .w64) ext)
    (hmeaning : Insn.meaning ⟨false, none, none, w == .w64, map, byte, ext.setWidth 4,
      some (.reg r.number), imm⟩ = some meaning) : Decodes code meaning := by
  refine decodes_imm (o := ⟨false, none, map, byte⟩) hvalid hmodRm hemit trivial (.inl rfl) ?_ ?_
  · rw [operandSize_general]
    exact himm.trans (congrArg _ (setWidth_ext ext).symm)
  · rw [operandSize_general]
    exact hmeaning

end Forms

/-- Operations that are written as they are. The stack pointer is apart from the other registers,
and the opcodes of the bit counts are not written with a REX prefix. -/
def Plain : Op → Prop
  | .push r | .pop r | .movImm64 r _ | .alu _ _ r (.imm _) | .cmp _ r (.imm _)
  | .not _ r | .neg _ r | .div _ r | .idiv _ r | .shiftCl _ _ r | .shiftImm _ _ r _ | .movTop _ r =>
    r ≠ .rsp
  | .mov _ dst (.reg src) | .alu _ _ dst (.reg src) | .cmp _ dst (.reg src) | .test _ dst src
  | .imul _ dst src => dst ≠ .rsp ∧ src ≠ .rsp
  | .mov w dst (.imm _) => w = .w32 ∧ dst ≠ .rsp
  | .cmov c _ dst src => c = .e ∧ dst ≠ .rsp ∧ src ≠ .rsp
  | .mov _ dst (.mem base disp) | .alu _ _ dst (.mem base disp) =>
    dst ≠ .rsp ∧ base = .rbp ∧ -2 ^ 31 ≤ disp ∧ disp < 2 ^ 31
  | .signExtendAcc _ => True
  | .setcc _ dst => byteGpr dst.number = some dst
  | .movsxTop bits _ dst => dst ≠ .rsp ∧ (bits = 8 ∨ bits = 16 ∨ bits = 32)
  | .scan op w dst src =>
    dst ≠ .rsp ∧ src ≠ .rsp ∧
      (op = .bsr ∨ op = .bsf ∨ w = .w32 ∧ high dst.number = false ∧ high src.number = false)
  | _ => False

/-- An immediate that is written in four bytes is read back. -/
theorem bytes32_read (v : BitVec 32) :
    v.extractLsb' 24 8 ++ v.extractLsb' 16 8 ++ v.extractLsb' 8 8 ++ v.extractLsb' 0 8 = v := by
  have h := read32_bytes32 v []
  simpa [bytes32, read32] using h

theorem append_bytes (a b c d e f g h : Byte) :
    (h ++ g ++ f ++ e ++ d ++ c ++ b ++ a : BitVec 64) =
      (h ++ g ++ f ++ e) ++ (d ++ c ++ b ++ a) := by
  apply BitVec.eq_of_getLsbD_eq
  intro i hi
  simp only [BitVec.getLsbD_append]
  grind

theorem immediate64_bytes64 {opSize w : Bool} {map : OpcodeMap} {op : Byte} {reg : BitVec 4}
    (v : BitVec 64) :
    Insn.immediate64 ⟨opSize, none, none, w, map, op, reg, none, bytes64 v⟩ = some v := by
  have hv : v.extractLsb' 32 32 ++ v.setWidth 32 = v := by
    apply BitVec.eq_of_getLsbD_eq
    intro i hi
    simp only [BitVec.getLsbD_append, BitVec.getLsbD_extractLsb', BitVec.getLsbD_setWidth]
    grind
  simp only [bytes64, bytes32, List.cons_append, List.nil_append, Insn.immediate64, append_bytes]
  rw [bytes32_read, bytes32_read, hv]

theorem immediate_decodes {ext : BitVec 3} {w : Width} {v : BitVec 32} {dst : Reg}
    {code : List Byte} {op : Op} (hdst : dst ≠ .rsp)
    (hop : Insn.arithmetic ext w dst (.imm v) = some op)
    (hemit : emitImmediate ext w v dst = .ok code) : Decodes code (.op op) := by
  unfold emitImmediate at hemit
  split_ifs at hemit with hfits
  · refine extension_decodes .primary 0x83 hemit (by decide) rfl rfl ?_
    simp [Insn.meaning, Insn.primaryOp, Insn.rmReg, gpr_number hdst, Insn.immediate, widthOf_beq,
      signExtend_of_fitsByte hfits, hop]
  · refine extension_decodes .primary 0x81 hemit (by decide) rfl (by cases w <;> rfl) ?_
    simp [Insn.meaning, Insn.primaryOp, Insn.rmReg, gpr_number hdst, Insn.immediate, widthOf_beq,
      bytes32, bytes32_read, hop]

theorem memory_disp {disp : Int} (hlow : -2 ^ 31 ≤ disp) (hhigh : disp < 2 ^ 31) :
    (BitVec.ofInt 32 disp).toInt = disp := by
  rw [BitVec.toInt_ofInt, Int.bmod_def]
  omega

/-- `push`, `pop` and `mov` with an immediate. -/
theorem opcodeReg_decodes {w : Bool} {opcode : Byte} {imm : List Byte} {r : Reg} {meaning : Meaning}
    (hopcode : opcode = 0x50 ∨ opcode = 0x58 ∨ opcode = 0xb8)
    (himm : imm.length = immSize .primary opcode false w 0)
    (hmeaning : Insn.meaning ⟨false, none, none, w, .primary, opcode ||| low r.number,
      r.number, none,
      imm⟩ = some meaning) : Decodes (emitOpcodeReg w opcode r.number ++ imm) meaning := by
  have hdecode := decode_emitOpcodeReg r.number [] hopcode himm
  rw [List.append_nil] at hdecode
  exact ⟨_, hdecode, hmeaning⟩

/-- An opcode with a register in its low bits belongs to no other group of opcodes. -/
def RegisterOpcode (op : Byte) (group : BitVec 5) : Prop :=
  op.extractLsb' 4 4 ≠ 7#4 ∧ op ≠ 0xe9#8 ∧ op ≠ 0xeb#8 ∧ ¬op < 0x40#8 ∧ op.extractLsb' 3 5 = group

theorem registerOpcode (n : BitVec 4) :
    RegisterOpcode (0x50 ||| low n) 0xa ∧ RegisterOpcode (0x58 ||| low n) 0xb ∧
      RegisterOpcode (0xb8 ||| low n) 0x17 := by
  unfold RegisterOpcode
  decide +revert

/-- The meanings of the opcodes with a register in their low bits. -/
theorem push_meaning {op : Byte} {r : Reg} (hop : RegisterOpcode op 0xa) (hr : r ≠ .rsp) :
    Insn.meaning ⟨false, none, none, false, .primary, op, r.number, none, []⟩ =
      some (.op (.push r)) := by
  obtain ⟨hjcc, hjmp, hjmp', hlow, hgroup⟩ := hop
  simp [Insn.meaning, Insn.primaryOp, hjcc, hjmp, hjmp', hlow, hgroup, gpr_number hr]

theorem pop_meaning {op : Byte} {r : Reg} (hop : RegisterOpcode op 0xb) (hr : r ≠ .rsp) :
    Insn.meaning ⟨false, none, none, false, .primary, op, r.number, none, []⟩ =
      some (.op (.pop r)) := by
  obtain ⟨hjcc, hjmp, hjmp', hlow, hgroup⟩ := hop
  simp [Insn.meaning, Insn.primaryOp, hjcc, hjmp, hjmp', hlow, hgroup, gpr_number hr]

theorem mov32_meaning {op : Byte} {r : Reg} (hop : RegisterOpcode op 0x17) (hr : r ≠ .rsp)
    (v : BitVec 32) :
    Insn.meaning ⟨false, none, none, false, .primary, op, r.number, none, bytes32 v⟩ =
      some (.op (.mov .w32 r (.imm v))) := by
  obtain ⟨hjcc, hjmp, hjmp', hlow, hgroup⟩ := hop
  simp [Insn.meaning, Insn.primaryOp, hjcc, hjmp, hjmp', hlow, hgroup, gpr_number hr,
    Insn.immediate, bytes32, bytes32_read, widthOf]

theorem mov64_meaning {op : Byte} {r : Reg} (hop : RegisterOpcode op 0x17) (hr : r ≠ .rsp)
    (v : BitVec 64) :
    Insn.meaning ⟨false, none, none, true, .primary, op, r.number, none, bytes64 v⟩ =
      some (.op (.movImm64 r v)) := by
  obtain ⟨hjcc, hjmp, hjmp', hlow, hgroup⟩ := hop
  simp [Insn.meaning, Insn.primaryOp, hjcc, hjmp, hjmp', hlow, hgroup, gpr_number hr,
    immediate64_bytes64]

/-- What `emit` writes for an operation is decoded as it. -/
theorem opBytes_decodes {op : Op} {code : List Byte} (hplain : Plain op)
    (hemit : opBytes op = .ok code) : Decodes code (.op op) := by
  cases op with
  | push r =>
    obtain rfl := Except.ok.inj hemit
    rw [← List.append_nil (emitOpcodeReg ..)]
    exact opcodeReg_decodes (.inl rfl) rfl (push_meaning (registerOpcode _).1 hplain)
  | pop r =>
    obtain rfl := Except.ok.inj hemit
    rw [← List.append_nil (emitOpcodeReg ..)]
    exact opcodeReg_decodes (.inr (.inl rfl)) rfl (pop_meaning (registerOpcode _).2.1 hplain)
  | movImm64 dst v =>
    obtain rfl := Except.ok.inj hemit
    exact opcodeReg_decodes (.inr (.inr rfl)) rfl (mov64_meaning (registerOpcode _).2.2 hplain v)
  | mov w dst src =>
    cases src with
    | reg src =>
      obtain ⟨hdst, hsrc⟩ := hplain
      refine general_decodes .primary 0x8b hemit (by decide) rfl rfl trivial ?_
      simp [Insn.meaning, Insn.primaryOp, Insn.isTop, Insn.source, general, RM.operand,
        gpr_number hdst, gpr_number hsrc, widthOf_beq]
    | imm v =>
      obtain ⟨rfl, hdst⟩ := hplain
      obtain rfl := Except.ok.inj hemit
      exact opcodeReg_decodes (.inr (.inr rfl)) rfl (mov32_meaning (registerOpcode _).2.2 hdst v)
    | mem base disp =>
      obtain ⟨hdst, rfl, hlow, hhigh⟩ := hplain
      have hrbp : gpr 5#4 = some .rbp := rfl
      have hnumber : Reg.rbp.number = 5#4 := rfl
      refine general_decodes .primary 0x8b hemit (by decide) rfl rfl
        ⟨by decide, fun _ => by decide⟩ ?_
      simp [Insn.meaning, Insn.primaryOp, Insn.isTop, Insn.source, dispRef, RM.operand,
        MemoryRef.operand, hnumber, gpr_number hdst, hrbp, widthOf_beq, memory_disp hlow hhigh]
  | alu op w dst src =>
    cases src with
    | reg src =>
      obtain ⟨hdst, hsrc⟩ := hplain
      refine general_decodes .primary (aluOpcode op) hemit (by cases op <;> decide)
        (by cases op <;> rfl) (by cases op <;> rfl) trivial ?_
      cases op <;> simp [Insn.meaning, Insn.primaryOp, Insn.source, general, RM.operand,
        gpr_number hdst, gpr_number hsrc, widthOf_beq, Insn.arithmetic, aluOpcode]
    | imm v => cases op <;> exact immediate_decodes hplain rfl hemit
    | mem base disp =>
      obtain ⟨hdst, rfl, hlow, hhigh⟩ := hplain
      have hrbp : gpr Reg.rbp.number = some .rbp := rfl
      refine general_decodes .primary (aluOpcode op) hemit (by cases op <;> decide)
        (by cases op <;> rfl) (by cases op <;> rfl) ⟨by decide, fun _ => by decide⟩ ?_
      cases op <;> simp [Insn.meaning, Insn.primaryOp, Insn.source, dispRef, RM.operand,
        MemoryRef.operand, gpr_number hdst, hrbp, widthOf_beq, Insn.arithmetic, aluOpcode,
        memory_disp hlow hhigh]
  | cmp w dst src =>
    cases src with
    | reg src =>
      obtain ⟨hdst, hsrc⟩ := hplain
      refine general_decodes .primary 0x3b hemit (by decide) rfl rfl trivial ?_
      simp [Insn.meaning, Insn.primaryOp, Insn.source, general, RM.operand, gpr_number hdst,
        gpr_number hsrc, widthOf_beq, Insn.arithmetic]
    | imm v => exact immediate_decodes hplain rfl hemit
    | mem base disp => cases hemit
  | test w dst src =>
    obtain ⟨hdst, hsrc⟩ := hplain
    refine general_decodes .primary 0x85 hemit (by decide) rfl rfl trivial ?_
    simp [Insn.meaning, Insn.primaryOp, Insn.rmReg, general, RM.operand, gpr_number hdst,
      gpr_number hsrc, widthOf_beq]
  | not w dst =>
    refine extension_decodes .primary 0xf7 ((emitIA32Imm_nil ..).trans hemit) (by decide) rfl rfl ?_
    simp [Insn.meaning, Insn.primaryOp, Insn.rmReg, gpr_number (show dst ≠ .rsp from hplain),
      widthOf_beq, Insn.unary]
  | neg w dst =>
    refine extension_decodes .primary 0xf7 ((emitIA32Imm_nil ..).trans hemit) (by decide) rfl rfl ?_
    simp [Insn.meaning, Insn.primaryOp, Insn.rmReg, gpr_number (show dst ≠ .rsp from hplain),
      widthOf_beq, Insn.unary]
  | div w dst | idiv w dst =>
    refine extension_decodes .primary 0xf7 ((emitIA32Imm_nil ..).trans hemit) (by decide) rfl rfl ?_
    simp [Insn.meaning, Insn.primaryOp, Insn.rmReg, gpr_number (show dst ≠ .rsp from hplain),
      widthOf_beq, Insn.unary]
  | imul w dst src =>
    obtain ⟨hdst, hsrc⟩ := hplain
    refine general_decodes .m0F 0xaf hemit (by decide) rfl rfl trivial ?_
    simp [Insn.meaning, Insn.secondOp, Insn.rmReg, general, RM.operand, gpr_number hdst,
      gpr_number hsrc, widthOf_beq]
  | signExtendAcc w =>
    have hvalid : (⟨false, none, .primary, 0x99⟩ : Encoding.Opcode).Valid := by decide
    have hdecode : ∀ v : OpcodeW, decode (emitIA32 ⟨v, [0x99]⟩) =
        some (⟨false, none, none, decide (v = .one), .primary, 0x99, extend false (rmField 0x99),
          none, []⟩, []) := by
      intro v
      have hdecode := decode_emitIA32 (w := v) [] hvalid rfl rfl
      rwa [List.append_nil] at hdecode
    cases w with
    | w32 =>
      obtain rfl := Except.ok.inj hemit
      exact ⟨_, hdecode .zero, rfl⟩
    | w64 =>
      obtain rfl := Except.ok.inj hemit
      exact ⟨_, hdecode .one, rfl⟩
  | shiftCl op w dst =>
    refine extension_decodes .primary 0xd3 ((emitIA32Imm_nil ..).trans hemit) (by decide) rfl
      (by cases op <;> rfl) ?_
    cases op <;> simp [Insn.meaning, Insn.primaryOp, Insn.rmReg,
      gpr_number (show dst ≠ .rsp from hplain), widthOf_beq, Insn.shift, shiftExt]
  | shiftImm op w dst count =>
    refine extension_decodes .primary 0xc1 hemit (by decide) rfl (by cases op <;> rfl) ?_
    cases op <;> simp [Insn.meaning, Insn.primaryOp, Insn.rmReg,
      gpr_number (show dst ≠ .rsp from hplain), widthOf_beq, Insn.shift, shiftExt]
  | setcc c dst =>
    refine decodes_rm (o := ⟨false, none, .m0F, 0x20 + jccOpcode c⟩) (by cases c <;> decide)
      (by cases c <;> rfl) hemit trivial (.inl rfl) (by cases c <;> rfl) ?_
    have hdst : byteGpr dst.number = some dst := hplain
    cases c <;> simp [Insn.meaning, Insn.secondOp, RM.operand, hdst, jccOpcode, condOf]
  | cmov c w dst src =>
    obtain ⟨rfl, hdst, hsrc⟩ := hplain
    refine general_decodes .m0F 0x44 hemit (by decide) rfl rfl trivial ?_
    simp [Insn.meaning, Insn.secondOp, Insn.rmReg, general, RM.operand, gpr_number hdst,
      gpr_number hsrc, widthOf_beq, condOf]
  | scan op w dst src =>
    obtain ⟨hdst, hsrc, hrex⟩ := hplain
    cases op with
    | bsr =>
      refine general_decodes .m0F 0xbd hemit (by decide) rfl rfl trivial ?_
      simp [Insn.meaning, Insn.secondOp, Insn.rmReg, general, RM.operand, gpr_number hdst,
        gpr_number hsrc, widthOf_beq]
    | bsf =>
      refine general_decodes .m0F 0xbc hemit (by decide) rfl rfl trivial ?_
      simp [Insn.meaning, Insn.secondOp, Insn.rmReg, general, RM.operand, gpr_number hdst,
        gpr_number hsrc, widthOf_beq]
    | lzcnt | tzcnt | popcnt =>
      obtain ⟨rfl, hhigh, hhigh'⟩ : w = .w32 ∧ high dst.number = false ∧
          high src.number = false := by
        simpa using hrex
      have hpre : emitRexPrefixOf false (general .w32 src) dst.number = [] :=
        emitRexPrefix_eq_nil.mpr ⟨rfl, hhigh, rfl, hhigh'⟩
      refine decodes_rm (o := ⟨false, some .f3, .m0F, _⟩) ?_ ?_ hemit trivial (.inr hpre) ?_ ?_
      · decide
      · rfl
      · rfl
      · simp [Insn.meaning, Insn.secondOp, Insn.rmReg, general, generalArg, RegArg.number,
          RM.operand, gpr_number hdst, gpr_number hsrc, getOperandSize, generalKind, widthOf]
  | movsxTop bits w dst =>
    have hdst : dst ≠ .rsp := hplain.1
    by_cases h8 : bits = 8
    · subst h8
      refine general_decodes .m0F 0xbe hemit (by decide) rfl rfl ⟨by decide, by decide⟩ ?_
      simp [Insn.meaning, Insn.secondOp, Insn.isTop, RM.operand, MemoryRef.operand, rsp,
        gpr_number hdst, widthOf_beq]
    · by_cases h16 : bits = 16
      · subst h16
        refine general_decodes .m0F 0xbf hemit (by decide) rfl rfl ⟨by decide, by decide⟩ ?_
        simp [Insn.meaning, Insn.secondOp, Insn.isTop, RM.operand, MemoryRef.operand, rsp,
          gpr_number hdst, widthOf_beq]
      · by_cases h32 : bits = 32
        · subst h32
          refine general_decodes .primary 0x63 hemit (by decide) rfl rfl ⟨by decide, by decide⟩ ?_
          simp [Insn.meaning, Insn.primaryOp, Insn.isTop, RM.operand, MemoryRef.operand, rsp,
            gpr_number hdst, widthOf_beq]
        · simp [opBytes, h8, h16, h32] at hemit
  | movTop w src =>
    have hsrc : src ≠ .rsp := hplain
    cases w with
    | w32 =>
      refine decodes_rm (o := ⟨false, none, .primary, 0x89⟩) (by decide) rfl hemit
        ⟨by decide, fun _ => by decide⟩ (.inl rfl) rfl ?_
      simp [Insn.meaning, Insn.primaryOp, Insn.isTop, RM.operand, MemoryRef.operand, rsp,
        generalArg, RegArg.number, gpr_number hsrc, getOperandSize, generalKind, widthOf]
    | w64 =>
      refine general_decodes .primary 0x89 hemit (by decide) rfl rfl
        ⟨by decide, fun _ => by decide⟩ ?_
      simp [Insn.meaning, Insn.primaryOp, Insn.isTop, RM.operand, MemoryRef.operand, rsp,
        gpr_number hsrc, widthOf]
  | _ => cases hemit

/-- Every such operation is written. -/
theorem opBytes_ok {op : Op} (hplain : Plain op) : ∃ code, opBytes op = .ok code := by
  cases op with
  | mov w dst src =>
    cases src with
    | reg src => exact ⟨_, rfl⟩
    | mem base disp => exact ⟨_, rfl⟩
    | imm v =>
      obtain ⟨rfl, -⟩ := hplain
      exact ⟨_, rfl⟩
  | alu op w dst src =>
    cases src with
    | reg src => exact ⟨_, rfl⟩
    | mem base disp => exact ⟨_, rfl⟩
    | imm v =>
      simp only [opBytes, emitImmediate]
      split_ifs <;> exact ⟨_, rfl⟩
  | cmp w dst src =>
    cases src with
    | reg src => exact ⟨_, rfl⟩
    | mem base disp => exact hplain.elim
    | imm v =>
      simp only [opBytes, emitImmediate]
      split_ifs <;> exact ⟨_, rfl⟩
  | signExtendAcc w | movTop w src => cases w <;> exact ⟨_, rfl⟩
  | cmov c w dst src =>
    obtain ⟨rfl, -⟩ := hplain
    exact ⟨_, rfl⟩
  | movsxTop bits w dst => obtain ⟨-, rfl | rfl | rfl⟩ := hplain <;> exact ⟨_, rfl⟩
  | push | pop | movImm64 | test | not | neg | imul | div | idiv | shiftCl | shiftImm | setcc
  | scan =>
    exact ⟨_, rfl⟩
  | _ => exact hplain.elim

/-- The bytes are these operations one after the other. -/
def AreOps (bytes : List Byte) (ops : List Op) : Prop :=
  ∃ chunks : List (Chunk JitHandler), image chunks = bytes ∧ chunks.map (·.1) = ops.map .op ∧
    ∀ chunk ∈ chunks, ∃ o, chunk.1 = .op o ∧ Decodes chunk.2 (.op o)

theorem opsBytes_areOps {ops : List Op} (hplain : ∀ op ∈ ops, Plain op) :
    ∃ bytes, opsBytes ops = .ok bytes ∧ AreOps bytes ops := by
  induction ops with
  | nil => exact ⟨[], rfl, [], rfl, rfl, by simp⟩
  | cons op ops ih =>
    rw [List.forall_mem_cons] at hplain
    obtain ⟨code, hcode⟩ := opBytes_ok hplain.1
    obtain ⟨bytes, hbytes, chunks, rfl, hchunks, hdecodes⟩ := ih hplain.2
    refine ⟨code ++ image chunks, ?_, (.op op, code) :: chunks, rfl, ?_, ?_⟩
    · rw [opsBytes, hcode, hbytes]
      rfl
    · rw [List.map_cons, List.map_cons, hchunks]
    · rw [List.forall_mem_cons]
      exact ⟨⟨op, rfl, opBytes_decodes hplain.1 hcode⟩, hdecodes⟩

theorem AreOps.cons {code bytes : List Byte} {op : Op} {ops : List Op}
    (hcode : Decodes code (.op op))
    (h : AreOps bytes ops) : AreOps (code ++ bytes) (op :: ops) := by
  obtain ⟨chunks, rfl, hchunks, hdecodes⟩ := h
  refine ⟨(.op op, code) :: chunks, rfl, ?_, ?_⟩
  · rw [List.map_cons, List.map_cons, hchunks]
  · rw [List.forall_mem_cons]
    exact ⟨⟨op, rfl, hcode⟩, hdecodes⟩

theorem areOps_of_parts {parts : List (Meaning × List Byte)} {ops : List Op}
    (hops : parts.map (·.1) = ops.map .op) (hdecodes : ∀ part ∈ parts, Decodes part.2 part.1) :
    AreOps (parts.flatMap (·.2)) ops := by
  induction ops generalizing parts with
  | nil =>
    obtain rfl := List.map_eq_nil_iff.mp hops
    exact ⟨[], rfl, rfl, by simp⟩
  | cons op ops ih =>
    obtain ⟨⟨meaning, code⟩, parts', rfl, rfl, hops'⟩ := List.map_eq_cons_iff.mp hops
    rw [List.forall_mem_cons] at hdecodes
    exact (ih hops' hdecodes.2).cons hdecodes.1

/-- Bytes that are written as such. -/
theorem areOps_of_disassemble (fuel : Nat) {bytes : List Byte} {ops : List Op}
    (h : (disassemble fuel bytes).map (·.map (·.1)) = some (ops.map .op)) : AreOps bytes ops := by
  obtain ⟨parts, hparts, hops⟩ := Option.map_eq_some_iff.mp h
  obtain ⟨rfl, hdecodes⟩ := disassemble_sound hparts
  exact areOps_of_parts hops hdecodes

/-- The operation that is folded can be written. -/
def PlainRecent : RecentOp → Prop
  | .push r => r ≠ .rsp
  | .getLocal disp => -2 ^ 31 ≤ disp ∧ disp < 2 ^ 31
  | .i32Const _ | .i64Const _ => True

theorem popOps_plain {recent : Option RecentOp} {reg : Reg} (hreg : reg ≠ .rsp)
    (hrecent : ∀ op ∈ recent, PlainRecent op) : ∀ op ∈ popOps recent reg, Plain op := by
  cases recent with
  | none => simpa [popOps, Plain] using hreg
  | some r =>
    have hr := hrecent r rfl
    cases r with
    | getLocal disp =>
      intro op hop
      rw [popOps, List.mem_cons] at hop
      rcases hop with rfl | hop
      · exact ⟨by decide, rfl, hr.1, hr.2⟩
      · split_ifs at hop
        · cases hop
        · obtain rfl := List.mem_singleton.mp hop
          exact ⟨hreg, by decide⟩
    | i32Const v => simpa [popOps, Plain] using hreg
    | i64Const v => simpa [popOps, Plain] using hreg
    | push r =>
      intro op hop
      rw [popOps] at hop
      split_ifs at hop
      · cases hop
      · obtain rfl := List.mem_singleton.mp hop
        exact ⟨hreg, hr⟩

/-- The bytes are this code, wherever branches out of it lead. -/
def Assembles (bytes : Except VmError (List Byte)) (code : List (Lib.X86.Instr JitHandler)) :
    Prop :=
  ∃ chunks : List (Chunk JitHandler), bytes = .ok (image chunks) ∧ chunks.map (·.1) = code ∧
    ∀ handler, Assembled handler chunks

theorem AreOps.assembles {bytes : List Byte} {ops : List Op} (h : AreOps bytes ops) :
    Assembles (.ok bytes) (ops.map .op) := by
  obtain ⟨chunks, rfl, hchunks, hdecodes⟩ := h
  exact ⟨chunks, rfl, hchunks, fun _ => assembled_of_ops hdecodes⟩

theorem straightOps_straight (folded : List RecentOp) (ops : List Op) :
    straightOps (.straight folded ops) = ops := by
  rw [straightOps, IntCode.straight, List.filterMap_map]
  exact List.filterMap_some

theorem straight_assembles {folded : List RecentOp} {ops : List Op}
    (hplain : ∀ op ∈ ops, Plain op) :
    Assembles (opsBytes (straightOps (.straight folded ops)))
      (IntCode.straight folded ops).code := by
  obtain ⟨bytes, hbytes, hops⟩ := opsBytes_areOps hplain
  rw [straightOps_straight, hbytes]
  exact hops.assembles

section Folding

variable {recent : List RecentOp} {reg : Reg} {ops : List Op}

theorem popped_plain (hreg : reg ≠ .rsp) (hrecent : ∀ op ∈ recent, PlainRecent op)
    (hplain : ∀ op ∈ ops, Plain op) : ∀ op ∈ popOps recent.head? reg ++ ops, Plain op := by
  intro op hop
  rcases List.mem_append.mp hop with hop | hop
  · exact popOps_plain hreg (fun r hr => hrecent r (List.mem_of_mem_head? hr)) op hop
  · exact hplain op hop

theorem popFirst_assembles (hreg : reg ≠ .rsp) (hrecent : ∀ op ∈ recent, PlainRecent op)
    (hplain : ∀ op ∈ ops, Plain op) :
    Assembles (opsBytes (straightOps (popFirst recent reg ops))) (popFirst recent reg ops).code :=
  straight_assembles (popped_plain hreg hrecent hplain)

theorem foldFirst_assembles (op : RecentOp) (hreg : reg ≠ .rsp)
    (hrecent : ∀ op ∈ recent, PlainRecent op) (hplain : ∀ op ∈ ops, Plain op) :
    Assembles (opsBytes (straightOps (foldFirst op recent reg ops)))
      (foldFirst op recent reg ops).code :=
  straight_assembles (popped_plain hreg hrecent hplain)

end Folding

/-- The bytes of `i64` that fold nothing. -/
theorem bytes_assembles (fuel : Nat) {bytes : List Byte} {ops : List Op}
    (h : (disassemble fuel bytes).map (·.map (·.1)) = some (ops.map .op)) :
    Assembles (.ok bytes) (IntCode.straight [] ops).code := (areOps_of_disassemble fuel h).assembles

theorem emitI32Bin_assembles {recent : List RecentOp} (hrecent : ∀ op ∈ recent, PlainRecent op)
    {op : IBinOp} (hop : op ≠ .remS) :
    Assembles (opsBytes (straightOps (emitI32Bin recent op))) (emitI32Bin recent op).code := by
  have hrax : Reg.rax ≠ .rsp := by decide
  have hbody : ∀ o : Op, Plain o → ∀ o' ∈ [o, .push .rax], Plain o' := by
    intro o ho
    rw [List.forall_mem_cons]
    exact ⟨ho, by simp [Plain]⟩
  have htail : ∀ op ∈ recent.tail, PlainRecent op :=
    fun op h => hrecent op (List.mem_of_mem_tail h)
  cases op with
  | remS => exact absurd rfl hop
  | mul | divS | divU | remU | shrS | rotl | rotr =>
    exact popFirst_assembles (by decide) hrecent (by simp [Plain])
  | add =>
    match recent, hrecent, htail with
    | .getLocal disp :: recent, hrecent, htail =>
      obtain ⟨hlow, hhigh⟩ : -2 ^ 31 ≤ disp ∧ disp < 2 ^ 31 := hrecent _ (List.mem_cons_self ..)
      exact foldFirst_assembles _ hrax htail (hbody _ ⟨hrax, rfl, hlow, hhigh⟩)
    | .i32Const v :: recent, _, htail => exact foldFirst_assembles _ hrax htail (hbody _ hrax)
    | [], h, _ | .i64Const _ :: _, h, _ | .push _ :: _, h, _ =>
      exact popFirst_assembles hrax h (by simp [Plain])
  | sub | and | or =>
    match recent, hrecent, htail with
    | .i32Const v :: recent, _, htail => exact foldFirst_assembles _ hrax htail (hbody _ hrax)
    | [], h, _ | .getLocal _ :: _, h, _ | .i64Const _ :: _, h, _ | .push _ :: _, h, _ =>
      exact popFirst_assembles (by decide) h (by simp [Plain])
  | xor =>
    match recent, hrecent, htail with
    | .getLocal disp :: recent, hrecent, htail =>
      obtain ⟨hlow, hhigh⟩ : -2 ^ 31 ≤ disp ∧ disp < 2 ^ 31 := hrecent _ (List.mem_cons_self ..)
      exact foldFirst_assembles _ hrax htail (hbody _ ⟨hrax, rfl, hlow, hhigh⟩)
    | .i32Const v :: recent, _, htail =>
      refine foldFirst_assembles _ hrax htail (hbody _ ?_)
      split_ifs <;> exact hrax
    | [], h, _ | .i64Const _ :: _, h, _ | .push _ :: _, h, _ =>
      exact popFirst_assembles hrax h (by simp [Plain])
  | shl | shrU =>
    match recent, hrecent, htail with
    | .i32Const v :: recent, _, htail => exact foldFirst_assembles _ hrax htail (hbody _ hrax)
    | [], h, _ | .getLocal _ :: _, h, _ | .i64Const _ :: _, h, _ | .push _ :: _, h, _ =>
      exact popFirst_assembles (by decide) h (by simp [Plain])

/-- The branches lead over the instructions whose bytes these are. -/
theorem remS_assembles {w : Width} {pre : List Op}
    {before cmp jcc cdq idiv jmp xor push : List Byte}
    {rel rel' : BitVec 32} (hpre : AreOps before pre)
    (hdecodes : ∀ part ∈ [(Meaning.op (.cmp w .rcx (.imm (-1))), cmp), (.jcc .e rel, jcc),
      (.op (.signExtendAcc w), cdq), (.op (.idiv w .rcx), idiv), (.jmp rel', jmp),
      (.op (.alu .xor .w32 .rdx (.reg .rdx)), xor), (.op (.push .rdx), push)],
      Decodes part.2 part.1)
    (hrel : rel.toInt = cdq.length + idiv.length + jmp.length) (hrel' : rel'.toInt = xor.length) :
    Assembles (.ok (before ++ (cmp ++ (jcc ++ (cdq ++ (idiv ++ (jmp ++ (xor ++ push))))))))
      (pre.map .op ++ remSCode w pre.length) := by
  obtain ⟨chunks, rfl, hchunks, hops⟩ := hpre
  have hlength : chunks.length = pre.length := by
    rw [← List.length_map (·.1), hchunks, List.length_map]
  simp only [List.forall_mem_cons] at hdecodes
  obtain ⟨hcmp, hjcc, hcdq, hidiv, hjmp, hxor, hpush, -⟩ := hdecodes
  let tail : List (Chunk JitHandler) :=
    [(.op (.cmp w .rcx (.imm (-1))), cmp), (.jcc .e (.code (pre.length + 5)), jcc),
      (.op (.signExtendAcc w), cdq), (.op (.idiv w .rcx), idiv),
      (.jmp (.code (pre.length + 6)), jmp),
      (.op (.alu .xor .w32 .rdx (.reg .rdx)), xor), (.op (.push .rdx), push)]
  refine ⟨chunks ++ tail, ?_, ?_, fun handler => assembled_append hops ?_⟩
  · simp [tail, image]
  · rw [List.map_append, hchunks]
    rfl
  · intro k ins bytes hget
    have hreach : ∀ j,
        offset (chunks ++ tail) (pre.length + j) = (image chunks).length + offset tail j := by
      intro j
      rw [← hlength, offset_append]
    rcases k with _ | _ | _ | _ | _ | _ | _ | k
    · cases hget
      exact ⟨_, hcmp, rfl⟩
    · cases hget
      refine ⟨_, hjcc, rel, rfl, ?_⟩
      rw [Reaches, hreach, hrel]
      simp [tail, offset, image]
      omega
    · cases hget
      exact ⟨_, hcdq, rfl⟩
    · cases hget
      exact ⟨_, hidiv, rfl⟩
    · cases hget
      refine ⟨_, hjmp, rel', rfl, ?_⟩
      rw [Reaches, hreach, hrel']
      simp [tail, offset, image]
      omega
    · cases hget
      exact ⟨_, hxor, rfl⟩
    · cases hget
      exact ⟨_, hpush, rfl⟩
    · cases hget

theorem byteGpr_rcx : byteGpr Reg.rcx.number = some .rcx := rfl

theorem byteGpr_rdx : byteGpr Reg.rdx.number = some .rdx := rfl

theorem high_rax : high Reg.rax.number = false := rfl

theorem opsBytes_append {ops ops' : List Op} {bytes bytes' : List Byte}
    (h : opsBytes ops = .ok bytes) (h' : opsBytes ops' = .ok bytes') :
    opsBytes (ops ++ ops') = .ok (bytes ++ bytes') := by
  induction ops generalizing bytes with
  | nil =>
    obtain rfl := Except.ok.inj h
    exact h'
  | cons op ops ih =>
    obtain ⟨code, hcode, hcons⟩ := bind_eq_ok.mp h
    obtain ⟨rest, hrest, hbytes⟩ := bind_eq_ok.mp hcons
    obtain rfl := Except.ok.inj hbytes
    rw [List.cons_append, opsBytes, hcode, ih hrest, List.append_assoc]
    rfl

theorem fixBranch8_append (before code : List Byte) (branch target : Nat) :
    fixBranch8 (before.length + branch) (before.length + target) (before ++ code) =
      (fixBranch8 branch target code).map (before ++ ·) := by
  have hrelative : ((before.length + target : Nat) : Int) - ((before.length + branch : Nat) + 1) =
      target - (branch + 1) := by omega
  simp only [fixBranch8, hrelative]
  split_ifs with hfar
  · rfl
  · rw [List.set_append_right _ _ (Nat.le_add_right ..), Nat.add_sub_cancel_left]
    rfl

theorem emitI32RemS_eq {recent : Option RecentOp} {before : List Byte}
    (h : opsBytes (popOps recent .rcx ++ [.pop .rax]) = .ok before) :
    emitI32RemS recent = .ok (before ++ [0x83, 0xf9, 0xff, 0x74, 0x05, 0x99, 0xf7, 0xf9, 0xeb, 0x02,
      0x33, 0xd2, 0x52]) := by
  have hcmp : opsBytes (popOps recent .rcx ++ [.pop .rax, .cmp .w32 .rcx (.imm (-1))]) =
      .ok (before ++ [0x83, 0xf9, 0xff]) := by
    have hlast : opsBytes [.cmp .w32 .rcx (.imm (-1))] = .ok [0x83, 0xf9, 0xff] := rfl
    have happend := opsBytes_append h hlast
    rwa [List.append_assoc] at happend
  have hdivide : opsBytes [.signExtendAcc .w32, .idiv .w32 .rcx] = .ok [0x99, 0xf7, 0xf9] := rfl
  have hzero : opsBytes [.alu .xor .w32 .rdx (.reg .rdx)] = .ok [0x33, 0xd2] := rfl
  have hpush : opsBytes [.push .rdx] = .ok [0x52] := rfl
  have hminus1 : fixBranch8 (before.length + 4) (before.length + 10)
      (before ++ [0x83, 0xf9, 0xff, 0x74, 0xcc, 0x99, 0xf7, 0xf9, 0xeb, 0xcc]) =
        .ok (before ++ [0x83, 0xf9, 0xff, 0x74, 0x05, 0x99, 0xf7, 0xf9, 0xeb, 0xcc]) := by
    rw [fixBranch8_append]
    rfl
  have hdone : fixBranch8 (before.length + 9) (before.length + 12)
      (before ++ [0x83, 0xf9, 0xff, 0x74, 0x05, 0x99, 0xf7, 0xf9, 0xeb, 0xcc, 0x33, 0xd2]) =
        .ok (before ++ [0x83, 0xf9, 0xff, 0x74, 0x05, 0x99, 0xf7, 0xf9, 0xeb, 0x02, 0x33,
          0xd2]) := by
    rw [fixBranch8_append]
    rfl
  simp only [emitI32RemS, hcmp, hdivide, hzero, hpush, jccOpcode, ok_bind, List.append_assoc,
    List.cons_append, List.nil_append, List.length_append, List.length_cons, List.length_nil,
    Nat.add_assoc, Nat.reduceAdd, hminus1, hdone]
  rfl

theorem emitI64RemS_eq (address : BitVec 64) :
    emitI64RemS address = .ok [0x59, 0x58, 0x48, 0x83, 0xf9, 0xff, 0x0f, 0x84, 0x0a, 0, 0, 0,
      0x48, 0x99, 0x48, 0xf7, 0xf9, 0xe9, 0x02, 0, 0, 0, 0x31, 0xd2, 0x52] := by
  simp [emitI64RemS, emitBranchTarget32, fixBranch, bytes32]

theorem emitI32RemS_assembles {recent : List RecentOp} (hrecent : ∀ op ∈ recent, PlainRecent op) :
    Assembles (emitI32RemS recent.head?) (emitI32Bin recent .remS).code := by
  have hplain : ∀ op ∈ popOps recent.head? .rcx ++ [.pop .rax], Plain op :=
    popped_plain (by decide) hrecent (by simp [Plain])
  obtain ⟨before, hbefore, hops⟩ := opsBytes_areOps hplain
  rw [emitI32RemS_eq hbefore, emitI32Bin, run_remS]
  have hparts : disassemble 7 [0x83, 0xf9, 0xff, 0x74, 0x05, 0x99, 0xf7, 0xf9, 0xeb, 0x02, 0x33,
      0xd2, 0x52] =
      some [(.op (.cmp .w32 .rcx (.imm (-1))), [0x83, 0xf9, 0xff]), (.jcc .e 5, [0x74, 0x05]),
        (.op (.signExtendAcc .w32), [0x99]), (.op (.idiv .w32 .rcx), [0xf7, 0xf9]),
        (.jmp 2, [0xeb, 0x02]), (.op (.alu .xor .w32 .rdx (.reg .rdx)), [0x33, 0xd2]),
        (.op (.push .rdx), [0x52])] := by decide
  exact remS_assembles hops (disassemble_sound hparts).2 rfl rfl

theorem emitI64RemS_assembles (address : BitVec 64) (recent : List RecentOp) :
    Assembles (emitI64RemS address) (emitI64Bin recent .remS).code := by
  have hops : AreOps [0x59, 0x58] [.pop .rcx, .pop .rax] := areOps_of_disassemble 2 (by decide)
  rw [emitI64RemS_eq, emitI64Bin, run_remS]
  have hparts : disassemble 7 [0x48, 0x83, 0xf9, 0xff, 0x0f, 0x84, 0x0a, 0, 0, 0, 0x48, 0x99,
      0x48, 0xf7, 0xf9, 0xe9, 0x02, 0, 0, 0, 0x31, 0xd2, 0x52] =
        some [(.op (.cmp .w64 .rcx (.imm (-1))), [0x48, 0x83, 0xf9, 0xff]),
          (.jcc .e 10, [0x0f, 0x84, 0x0a, 0, 0, 0]), (.op (.signExtendAcc .w64), [0x48, 0x99]),
          (.op (.idiv .w64 .rcx), [0x48, 0xf7, 0xf9]), (.jmp 2, [0xe9, 0x02, 0, 0, 0]),
          (.op (.alu .xor .w32 .rdx (.reg .rdx)), [0x31, 0xd2]), (.op (.push .rdx), [0x52])] := by
    decide
  exact remS_assembles hops (disassemble_sound hparts).2 rfl rfl

theorem emitI64Shift_assembles {recent : List RecentOp} (hrecent : ∀ op ∈ recent, PlainRecent op)
    (op : Shift) :
    Assembles (opsBytes (straightOps (emitI64Shift op recent))) (emitI64Shift op recent).code := by
  have hrax : Reg.rax ≠ .rsp := by decide
  match recent, hrecent with
  | .i64Const v :: recent, hrecent =>
    exact foldFirst_assembles _ hrax (fun op h => hrecent op (List.mem_cons_of_mem _ h))
      (by simp [Plain])
  | [], h | .getLocal _ :: _, h | .i32Const _ :: _, h | .push _ :: _, h =>
    exact popFirst_assembles (by decide) h (by simp [Plain])

theorem binaryBytes_i64_assembles (address : BitVec 64) {recent : List RecentOp}
    (hrecent : ∀ op ∈ recent, PlainRecent op) (op : IBinOp) :
    Assembles (binaryBytes address recent (.bin .i64 op)) (emitI64Bin recent op).code := by
  cases op with
  | add =>
    match recent, hrecent with
    | .i64Const v :: recent, hrecent =>
      exact foldFirst_assembles _ (by decide) (fun op h => hrecent op (List.mem_cons_of_mem _ h))
        (by simp [Plain])
    | [], h | .getLocal _ :: _, h | .i32Const _ :: _, h | .push _ :: _, h =>
      exact popFirst_assembles (by decide) h (by simp [Plain])
  | mul => exact popFirst_assembles (by decide) hrecent (by simp [Plain])
  | shl => exact emitI64Shift_assembles hrecent .shl
  | shrS => exact emitI64Shift_assembles hrecent .sar
  | shrU => exact emitI64Shift_assembles hrecent .shr
  | remS => exact emitI64RemS_assembles address recent
  | sub | divS | divU | remU | and | or | xor | rotl | rotr => exact bytes_assembles 6 (by decide)

/-- The bytes of an instruction with two operands are its code. -/
theorem binaryBytes_assembles (address : BitVec 64) {recent : List RecentOp}
    (hrecent : ∀ op ∈ recent, PlainRecent op) (i : IBinaryInstr) :
    Assembles (binaryBytes address recent i) (emitBinary recent i).code := by
  cases i with
  | rel t op =>
    cases t with
    | i32 => exact popFirst_assembles (by decide) hrecent (by simp [Plain, byteGpr_rdx])
    | i64 => cases op <;> exact bytes_assembles 6 (by decide)
  | bin t op =>
    cases t with
    | i64 => exact binaryBytes_i64_assembles address hrecent op
    | i32 =>
      cases op with
      | remS => exact emitI32RemS_assembles hrecent
      | _ => exact emitI32Bin_assembles hrecent (by decide)

/-- The bytes of an instruction with one operand are its code. -/
theorem unaryBytes_assembles (tzcnt : Bool) {recent : List RecentOp}
    (hrecent : ∀ op ∈ recent, PlainRecent op) (u : IUnaryInstr) :
    Assembles (unaryBytes tzcnt recent u) (emitUnary tzcnt recent u).code := by
  cases u with
  | eqz t =>
    cases t with
    | i32 => exact popFirst_assembles (by decide) hrecent (by simp [Plain, byteGpr_rcx])
    | i64 => exact bytes_assembles 5 (by decide)
  | clz t | ctz t =>
    cases t with
    | i32 =>
      cases tzcnt <;>
        exact popFirst_assembles (by decide) hrecent (by simp [Plain, high_rax, immediate_eq])
    | i64 => cases tzcnt <;> exact bytes_assembles 7 (by decide)
  | popcnt t =>
    cases t with
    | i32 => exact popFirst_assembles (by decide) hrecent (by simp [Plain, high_rax])
    | i64 => exact bytes_assembles 3 (by decide)
  | wrap => exact popFirst_assembles (by decide) hrecent (by simp [Plain])
  | extendI32S => exact bytes_assembles 2 (by decide)
  | extendI32U => exact straight_assembles (by simp)
  | extend8S t | extend16S t => cases t <;> exact straight_assembles (by simp [Plain])
  | extend32S => exact straight_assembles (by simp [Plain])

/-- The processor runs the bytes from their start to their end and leaves the result on the stack,
or it traps. -/
def ExecutesTo (handler : Int → Option JitHandler) (bytes : List Byte) (m : Machine)
    (stack : List (BitVec 64)) : Option (BitVec 64) → Prop
  | some slot => ∃ m', Executes handler bytes (.run 0 m) (.run bytes.length m') ∧
      m'.stack = slot :: stack ∧ SameRest m m'
  | none => ∃ m', Executes handler bytes (.run 0 m) (.fault .divide m')

/-- Bytes do what their code does. -/
theorem Assembles.executes {bytes : Except VmError (List Byte)} {c : IntCode} {m : Machine}
    {stack : List (BitVec 64)} {result : Option (BitVec 64)} (h : Assembles bytes c.code)
    (hyields : c.Yields m stack result) (handler : Int → Option JitHandler) :
    ∃ code, bytes = .ok code ∧ ExecutesTo handler code m stack result := by
  obtain ⟨chunks, rfl, hchunks, hassembled⟩ := h
  refine ⟨_, rfl, ?_⟩
  have hend : offset chunks c.code.length = (image chunks).length := by
    rw [← hchunks, List.length_map, offset_length]
  rw [IntCode.Yields, ← hchunks] at hyields
  cases result with
  | some slot =>
    obtain ⟨m', hruns, hstack, hrest⟩ := hyields
    have hexecutes := Runs.executes (hassembled handler) hruns
    refine ⟨m', ?_, hstack, hrest⟩
    rwa [Config.mapPos, Config.mapPos, hchunks, hend] at hexecutes
  | none =>
    obtain ⟨m', hruns⟩ := hyields
    exact ⟨m', Runs.executes (hassembled handler) hruns⟩

/-- The bytes that are written for the scalar integer instructions leave the result that WebAssembly
defines, or the processor traps where it defines none. -/
theorem integer_bytes_execute (handler : Int → Option JitHandler) (address : BitVec 64)
    {recent : List RecentOp} (hrecent : ∀ op ∈ recent, PlainRecent op) (m : Machine)
    (stack : List (BitVec 64)) :
    (∀ (tzcnt : Bool) (u : IUnaryInstr) (a : BitVec u.arg.bits),
      OperandsAt m stack (emitUnary tzcnt recent u).folded [slotOf a] →
        ∃ code, unaryBytes tzcnt recent u = .ok code ∧
          ExecutesTo handler code m stack (some (slotOf (u.eval a)))) ∧
      ∀ (i : IBinaryInstr) (a b : BitVec i.arg.bits),
        OperandsAt m stack (emitBinary recent i).folded [slotOf b, slotOf a] →
          ∃ code, binaryBytes address recent i = .ok code ∧
            ExecutesTo handler code m stack ((i.eval a b).map slotOf) := by
  refine ⟨fun tzcnt u a h => ?_, fun i a b h => ?_⟩
  · exact (unaryBytes_assembles tzcnt hrecent u).executes (emitUnary_yields tzcnt u h) handler
  · exact (binaryBytes_assembles address hrecent i).executes (emitBinary_yields i h) handler

/-- The least integer divided by a constant of minus one. -/
theorem least_by_minus_one_bytes : ∃ code,
    binaryBytes 0 [.i32Const 0xffffffff] (.bin .i32 .divS) = .ok code ∧
      ∃ m', Executes (H := JitHandler) (fun _ => none) code (.run 0 (oneSlotMachine 0x80000000))
        (.fault .divide m') :=
  (integer_bytes_execute (fun _ => none) 0 (by simp [PlainRecent]) (oneSlotMachine 0x80000000) []).2
    (.bin .i32 .divS) 0x80000000 0xffffffff ⟨rfl, rfl⟩

end EosVm.MachineCodeWriter
