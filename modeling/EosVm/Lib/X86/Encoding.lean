import Mathlib.Algebra.Order.Ring.Int
import Mathlib.Data.BitVec

/-!
# How x86-64 instructions are encoded

The instruction at the start of a list of bytes, taken apart in 64-bit mode into its opcode, its
register and its register or memory operand. What the opcode does is left open. Prefixes for
segments, locking and the address size are outside, as are the encodings of AVX-512.
-/

set_option autoImplicit false

namespace EosVm.Lib.X86.Encoding

abbrev Byte := BitVec 8

/-- The little endian bytes of a word. -/
def bytes32 (v : BitVec 32) : List Byte :=
  [v.extractLsb' 0 8, v.extractLsb' 8 8, v.extractLsb' 16 8, v.extractLsb' 24 8]

def read8 : List Byte → Option (BitVec 32 × List Byte)
  | a :: bytes => some (a.signExtend 32, bytes)
  | [] => none

def read32 : List Byte → Option (BitVec 32 × List Byte)
  | a :: b :: c :: d :: bytes => some (d ++ c ++ b ++ a, bytes)
  | _ => none

def readBytes : Nat → List Byte → Option (List Byte × List Byte)
  | 0, bytes => some ([], bytes)
  | _ + 1, [] => none
  | n + 1, a :: bytes => (readBytes n bytes).map fun read => (a :: read.1, read.2)

@[simp] theorem length_bytes32 (v : BitVec 32) : (bytes32 v).length = 4 := rfl

theorem read32_bytes32 (v : BitVec 32) (bytes : List Byte) :
    read32 (bytes32 v ++ bytes) = some (v, bytes) := by
  have hv : v.extractLsb' 24 8 ++ v.extractLsb' 16 8 ++ v.extractLsb' 8 8 ++
      v.extractLsb' 0 8 = v := by
    apply BitVec.eq_of_getLsbD_eq
    intro i hi
    simp only [BitVec.getLsbD_append, BitVec.getLsbD_extractLsb']
    grind
  simp only [bytes32, List.cons_append, List.nil_append, read32]
  exact congrArg (fun v => some (v, bytes)) hv

@[simp] theorem readBytes_append (imm bytes : List Byte) :
    readBytes imm.length (imm ++ bytes) = some (imm, bytes) := by
  induction imm with
  | nil => rfl
  | cons a imm ih =>
    simp only [List.length_cons, List.cons_append, readBytes, ih]
    rfl

theorem readBytes_eq {n : Nat} {bytes imm rest : List Byte}
    (h : readBytes n bytes = some (imm, rest)) : bytes = imm ++ rest := by
  induction n generalizing bytes imm with
  | zero =>
    obtain ⟨rfl, rfl⟩ := Prod.mk.inj (Option.some.inj h)
    rfl
  | succ n ih =>
    cases bytes with
    | nil => cases h
    | cons a bytes =>
      obtain ⟨read, hread, hrest⟩ := Option.map_eq_some_iff.mp h
      obtain ⟨rfl, rfl⟩ := Prod.mk.inj hrest
      rw [ih hread]
      rfl

/-- A register or memory operand. Registers count from 0; `index` is with the logarithm of its
scale. -/
inductive Rm where
  | reg (r : BitVec 4)
  | mem (base : Option (BitVec 4)) (index : Option (BitVec 4 × BitVec 2)) (disp : BitVec 32)
  | rip (disp : BitVec 32)
  deriving DecidableEq, Repr

/-- The layout of a ModRM byte, and of a SIB byte with the scale, the index and the base. -/
def fields (mod : BitVec 2) (reg rm : BitVec 3) : Byte := mod ++ reg ++ rm

def modField (byte : Byte) : BitVec 2 := byte.extractLsb' 6 2
def regField (byte : Byte) : BitVec 3 := byte.extractLsb' 3 3
def rmField (byte : Byte) : BitVec 3 := byte.extractLsb' 0 3

@[simp] theorem modField_fields (mod : BitVec 2) (reg rm : BitVec 3) :
    modField (fields mod reg rm) = mod := by decide +revert
@[simp] theorem regField_fields (mod : BitVec 2) (reg rm : BitVec 3) :
    regField (fields mod reg rm) = reg := by decide +revert
@[simp] theorem rmField_fields (mod : BitVec 2) (reg rm : BitVec 3) :
    rmField (fields mod reg rm) = rm := by decide +revert

/-- A register number with the bit that a prefix adds. -/
def extend (bit : Bool) (r : BitVec 3) : BitVec 4 := BitVec.cons bit r

/-- The displacement of a memory operand. -/
def decodeDisp (mod : BitVec 2) (bytes : List Byte) : Option (BitVec 32 × List Byte) :=
  if mod = 0 then some (0, bytes) else if mod = 1 then read8 bytes else read32 bytes

/-- A memory operand with a SIB byte. The stack pointer is no index, and without a displacement
there is no base in the place of `rbp` and `r13`. -/
def decodeSib (x b : Bool) (mod : BitVec 2) : List Byte → Option (Rm × List Byte)
  | [] => none
  | sib :: bytes =>
    let index := extend x (regField sib)
    let index := if index = 4 then none else some (index, modField sib)
    if mod = 0 ∧ rmField sib = 5 then (read32 bytes).map fun d => (.mem none index d.1, d.2)
    else (decodeDisp mod bytes).map fun d => (.mem (some (extend b (rmField sib))) index d.1, d.2)

/-- The operands of a ModRM byte: a register and a register or memory operand. -/
def decodeModRm (r x b : Bool) : List Byte → Option (BitVec 4 × Rm × List Byte)
  | [] => none
  | modRm :: bytes =>
    let mod := modField modRm
    let rm := rmField modRm
    let reg := extend r (regField modRm)
    if mod = 3 then some (reg, .reg (extend b rm), bytes)
    else if rm = 4 then (decodeSib x b mod bytes).map (reg, ·)
    else if mod = 0 ∧ rm = 5 then (read32 bytes).map fun d => (reg, .rip d.1, d.2)
    else (decodeDisp mod bytes).map fun d => (reg, .mem (some (extend b rm)) none d.1, d.2)

/-- The number of bytes of a displacement. -/
def dispLength (mod : BitVec 2) : Nat := if mod = 0 then 0 else if mod = 1 then 1 else 4

theorem read8_length {bytes rest : List Byte} {v : BitVec 32} (h : read8 bytes = some (v, rest)) :
    bytes.length = rest.length + 1 := by
  unfold read8 at h
  split at h
  · obtain ⟨-, rfl⟩ := Prod.mk.inj (Option.some.inj h)
    rfl
  · cases h

theorem read32_length {bytes rest : List Byte} {v : BitVec 32} (h : read32 bytes = some (v, rest)) :
    bytes.length = rest.length + 4 := by
  unfold read32 at h
  split at h
  · obtain ⟨-, rfl⟩ := Prod.mk.inj (Option.some.inj h)
    rfl
  · cases h

theorem decodeDisp_length {mod : BitVec 2} {bytes rest : List Byte} {v : BitVec 32}
    (h : decodeDisp mod bytes = some (v, rest)) : bytes.length = rest.length + dispLength mod := by
  unfold decodeDisp at h
  unfold dispLength
  split_ifs at h ⊢ with hzero hone
  · obtain ⟨-, rfl⟩ := Prod.mk.inj (Option.some.inj h)
    rfl
  · exact read8_length h
  · exact read32_length h

/-- A SIB byte is read besides the displacement. -/
theorem decodeSib_length {x b : Bool} {mod : BitVec 2} {bytes rest : List Byte} {rm : Rm}
    (h : decodeSib x b mod bytes = some (rm, rest)) :
    rest.length + dispLength mod < bytes.length := by
  cases bytes with
  | nil => cases h
  | cons sib bytes =>
    simp only [decodeSib] at h
    rw [List.length_cons]
    by_cases hnone : mod = 0 ∧ rmField sib = 5
    · rw [if_pos hnone] at h
      obtain ⟨d, hd, hrest⟩ := Option.map_eq_some_iff.mp h
      obtain ⟨-, rfl⟩ := Prod.mk.inj hrest
      have hlength := read32_length hd
      rw [hnone.1, dispLength, if_pos rfl]
      omega
    · rw [if_neg hnone] at h
      obtain ⟨d, hd, hrest⟩ := Option.map_eq_some_iff.mp h
      obtain ⟨-, rfl⟩ := Prod.mk.inj hrest
      have hlength := decodeDisp_length hd
      omega

/-- The high bits of the index and of the other register of an operand. -/
def Rm.HasBits (x b : Bool) : Rm → Prop
  | .reg r => r.getLsbD 3 = b
  | .mem base index _ =>
    (∀ r, base = some r → r.getLsbD 3 = b) ∧ ∀ i, index = some i → i.1.getLsbD 3 = x
  | .rip _ => True

@[simp] theorem getLsbD_extend (bit : Bool) (r : BitVec 3) : (extend bit r).getLsbD 3 = bit := by
  decide +revert

theorem decodeSib_hasBits {x b : Bool} {mod : BitVec 2} {bytes rest : List Byte} {rm : Rm}
    (h : decodeSib x b mod bytes = some (rm, rest)) : rm.HasBits x b := by
  cases bytes with
  | nil => cases h
  | cons sib bytes =>
    simp only [decodeSib] at h
    have hindex : ∀ i : BitVec 4 × BitVec 2, (if extend x (regField sib) = 4 then none
        else some (extend x (regField sib), modField sib)) = some i → i.1.getLsbD 3 = x := by
      intro i hi
      split_ifs at hi
      obtain rfl := Option.some.inj hi
      exact getLsbD_extend ..
    by_cases hnone : mod = 0 ∧ rmField sib = 5
    · rw [if_pos hnone] at h
      obtain ⟨d, -, hrest⟩ := Option.map_eq_some_iff.mp h
      obtain ⟨rfl, -⟩ := Prod.mk.inj hrest
      exact ⟨fun r hr => (by cases hr), hindex⟩
    · rw [if_neg hnone] at h
      obtain ⟨d, -, hrest⟩ := Option.map_eq_some_iff.mp h
      obtain ⟨rfl, -⟩ := Prod.mk.inj hrest
      refine ⟨fun r hr => ?_, hindex⟩
      obtain rfl := Option.some.inj hr
      exact getLsbD_extend ..

/-- The high bits of the registers are those of the prefix. -/
theorem decodeModRm_hasBits {r x b : Bool} {bytes rest : List Byte} {reg : BitVec 4} {rm : Rm}
    (h : decodeModRm r x b bytes = some (reg, rm, rest)) : reg.getLsbD 3 = r ∧ rm.HasBits x b := by
  cases bytes with
  | nil => cases h
  | cons modRm bytes =>
    simp only [decodeModRm] at h
    split_ifs at h with hreg hsib hrip
    · simp only [Option.some.injEq, Prod.mk.injEq] at h
      obtain ⟨rfl, rfl, -⟩ := h
      exact ⟨getLsbD_extend .., getLsbD_extend ..⟩
    · obtain ⟨d, hd, hrest⟩ := Option.map_eq_some_iff.mp h
      simp only [Prod.mk.injEq] at hrest
      obtain ⟨rfl, rfl⟩ := hrest
      exact ⟨getLsbD_extend .., decodeSib_hasBits hd⟩
    · obtain ⟨d, -, hrest⟩ := Option.map_eq_some_iff.mp h
      simp only [Prod.mk.injEq] at hrest
      obtain ⟨rfl, rfl, -⟩ := hrest
      exact ⟨getLsbD_extend .., trivial⟩
    · obtain ⟨d, -, hrest⟩ := Option.map_eq_some_iff.mp h
      simp only [Prod.mk.injEq] at hrest
      obtain ⟨rfl, rfl, -⟩ := hrest
      refine ⟨getLsbD_extend .., fun r hr => ?_, fun i hi => (by cases hi)⟩
      obtain rfl := Option.some.inj hr
      exact getLsbD_extend ..

inductive OpcodeMap where
  | primary | m0F | m0F38 | m0F3A
  deriving DecidableEq, Repr

/-- The prefixes that are part of opcodes. -/
inductive RepPrefix where
  | f2 | f3
  deriving DecidableEq, Repr

def RepPrefix.byte : RepPrefix → Byte
  | .f2 => 0xf2
  | .f3 => 0xf3

/-- Whether a ModRM byte follows the opcode. -/
def hasModRm (map : OpcodeMap) (opcode : Byte) : Bool :=
  match map with
  | .primary =>
    (opcode < 0x40 && opcode &&& 7 < 4) || opcode == 0x63 || opcode == 0x69 || opcode == 0x6b ||
      (0x80 ≤ opcode && opcode < 0x90) || opcode == 0xc0 || opcode == 0xc1 || opcode == 0xc6 ||
      opcode == 0xc7 || (0xd0 ≤ opcode && opcode < 0xd4) || (0xd8 ≤ opcode && opcode < 0xe0) ||
      opcode == 0xf6 || opcode == 0xf7 || opcode == 0xfe || opcode == 0xff
  | .m0F =>
    !((0x05 ≤ opcode && opcode < 0x0d) || (0x30 ≤ opcode && opcode < 0x38) || opcode == 0x77 ||
      (0x80 ≤ opcode && opcode < 0x90) || (0xa0 ≤ opcode && opcode < 0xa3) ||
      (0xa8 ≤ opcode && opcode < 0xab) || (0xc8 ≤ opcode && opcode < 0xd0))
  | .m0F38 | .m0F3A => true

/-- The size of an immediate operand that has up to four bytes. -/
def immZ (opSize w : Bool) : Nat := if opSize && !w then 2 else 4

/-- The number of bytes of the immediate operand, which `reg` decides for some opcodes. -/
def immSize (map : OpcodeMap) (opcode : Byte) (opSize w : Bool) (reg : BitVec 3) : Nat :=
  match map with
  | .primary =>
    if opcode < 0x40 then
      if opcode &&& 7 = 4 then 1 else if opcode &&& 7 = 5 then immZ opSize w else 0
    else if opcode = 0x68 ∨ opcode = 0x69 ∨ opcode = 0x81 ∨ opcode = 0xa9 ∨ opcode = 0xc7 then
      immZ opSize w
    else if opcode = 0xe8 ∨ opcode = 0xe9 then 4
    else if opcode = 0x6a ∨ opcode = 0x6b ∨ (0x70 ≤ opcode ∧ opcode < 0x80) ∨ opcode = 0x80 ∨
        opcode = 0x83 ∨ opcode = 0xa8 ∨ (0xb0 ≤ opcode ∧ opcode < 0xb8) ∨ opcode = 0xc0 ∨
        opcode = 0xc1 ∨ opcode = 0xc6 ∨ opcode = 0xcd ∨ (0xe0 ≤ opcode ∧ opcode < 0xe8) ∨
        opcode = 0xeb then 1
    else if 0xb8 ≤ opcode ∧ opcode < 0xc0 then if w then 8 else immZ opSize w
    else if 0xa0 ≤ opcode ∧ opcode < 0xa4 then 8
    else if opcode = 0xc2 ∨ opcode = 0xca then 2
    else if opcode = 0xc8 then 3
    else if opcode = 0xf6 then if reg < 2 then 1 else 0
    else if opcode = 0xf7 then if reg < 2 then immZ opSize w else 0
    else 0
  | .m0F =>
    if 0x80 ≤ opcode ∧ opcode < 0x90 then 4
    else if (0x70 ≤ opcode ∧ opcode < 0x74) ∨ opcode = 0xa4 ∨ opcode = 0xac ∨ opcode = 0xba ∨
        opcode = 0xc2 ∨ (0xc4 ≤ opcode ∧ opcode < 0xc7) then 1
    else 0
  | .m0F38 => 0
  | .m0F3A => 1

/-- An instruction. `reg` is the register of the ModRM byte; without one it is the register in the
low bits of the opcode. `vex` is the second source and the vector length of an AVX instruction. -/
structure Insn where
  opSize : Bool
  rep : Option RepPrefix
  vex : Option (BitVec 4 × Bool)
  w : Bool
  map : OpcodeMap
  opcode : Byte
  reg : BitVec 4
  rm : Option Rm
  imm : List Byte
  deriving DecidableEq, Repr

/-- What precedes the opcode, with the four bits of a REX prefix. -/
structure Prefixes where
  opSize : Bool := false
  rep : Option RepPrefix := none
  rex : BitVec 4 := 0
  deriving DecidableEq, Repr

/-- A REX prefix has an effect right before the opcode only. -/
def decodePrefixes (p : Prefixes) : List Byte → Prefixes × List Byte
  | [] => (p, [])
  | byte :: bytes =>
    if byte = 0x66 then decodePrefixes { p with opSize := true, rex := 0 } bytes
    else if byte = 0xf2 then decodePrefixes { p with rep := some .f2, rex := 0 } bytes
    else if byte = 0xf3 then decodePrefixes { p with rep := some .f3, rex := 0 } bytes
    else if byte.extractLsb' 4 4 = 4 then
      decodePrefixes { p with rex := byte.extractLsb' 0 4 } bytes
    else (p, byte :: bytes)

/-- Bytes that begin no opcode of the primary map. -/
def isEscape (byte : Byte) : Bool :=
  [0x26, 0x2e, 0x36, 0x3e, 0x64, 0x65, 0x67, 0xf0, 0x62, 0xc4, 0xc5].contains byte

def decodeOpcode : List Byte → Option (OpcodeMap × Byte × List Byte)
  | [] => none
  | byte :: bytes =>
    if byte = 0x0f then
      match bytes with
      | [] => none
      | second :: bytes =>
        if second = 0x38 then bytes.head?.map (.m0F38, ·, bytes.tail)
        else if second = 0x3a then bytes.head?.map (.m0F3A, ·, bytes.tail)
        else some (.m0F, second, bytes)
    else if isEscape byte then none
    else some (.primary, byte, bytes)

/-- What follows the opcode. -/
def decodeOperands (p : Prefixes) (vex : Option (BitVec 4 × Bool)) (map : OpcodeMap) (opcode : Byte)
    (bytes : List Byte) : Option (Insn × List Byte) := do
  let w := p.rex.getLsbD 3
  let r := p.rex.getLsbD 2
  let x := p.rex.getLsbD 1
  let b := p.rex.getLsbD 0
  if hasModRm map opcode then
    let (reg, rm, bytes) ← decodeModRm r x b bytes
    let (imm, bytes) ← readBytes (immSize map opcode p.opSize w (reg.setWidth 3)) bytes
    return (⟨p.opSize, p.rep, vex, w, map, opcode, reg, some rm, imm⟩, bytes)
  else
    let (imm, bytes) ← readBytes (immSize map opcode p.opSize w 0) bytes
    return (⟨p.opSize, p.rep, vex, w, map, opcode, extend b (rmField opcode), none, imm⟩, bytes)

/-- The prefix that the last bits of a VEX prefix stand for. -/
def vexPrefixes (pp : BitVec 2) (rex : BitVec 4) : Prefixes :=
  if pp = 1 then ⟨true, none, rex⟩
  else if pp = 2 then ⟨false, some .f3, rex⟩
  else if pp = 3 then ⟨false, some .f2, rex⟩
  else ⟨false, none, rex⟩

def vexMap (mmmmm : BitVec 5) : Option OpcodeMap :=
  if mmmmm = 1 then some .m0F
  else if mmmmm = 2 then some .m0F38
  else if mmmmm = 3 then some .m0F3A
  else none

/-- An AVX instruction after the last byte `byte` of its prefix is read; `rex` has the bits of the
registers. -/
def decodeVex (map : OpcodeMap) (rex : BitVec 4) (byte : Byte) :
    List Byte → Option (Insn × List Byte)
  | [] => none
  | opcode :: bytes =>
    decodeOperands (vexPrefixes (byte.extractLsb' 0 2) rex)
      (some (~~~(byte.extractLsb' 3 4), byte.getLsbD 2)) map opcode bytes

/-- After the first byte of a VEX prefix of two bytes. -/
def decodeVex2 : List Byte → Option (Insn × List Byte)
  | [] => none
  | byte :: bytes => decodeVex .m0F ((~~~(byte.extractLsb' 7 1)).setWidth 4 <<< 2) byte bytes

/-- After the first byte of a VEX prefix of three bytes. -/
def decodeVex3 : List Byte → Option (Insn × List Byte)
  | second :: byte :: bytes =>
    (vexMap (second.extractLsb' 0 5)).bind fun map =>
      decodeVex map (byte.extractLsb' 7 1 ++ ~~~(second.extractLsb' 5 3)) byte bytes
  | _ => none

def decodeLegacy (bytes : List Byte) : Option (Insn × List Byte) :=
  (decodeOpcode (decodePrefixes {} bytes).2).bind fun o =>
    decodeOperands (decodePrefixes {} bytes).1 none o.1 o.2.1 o.2.2

/-- The first instruction, and the bytes after it. -/
def decode : List Byte → Option (Insn × List Byte)
  | [] => none
  | byte :: bytes =>
    if byte = 0xc5 then decodeVex2 bytes
    else if byte = 0xc4 then decodeVex3 bytes
    else decodeLegacy (byte :: bytes)

/-- The instructions that bytes are, to their end. -/
def decodeAll : Nat → List Byte → Option (List Insn)
  | _, [] => some []
  | 0, _ :: _ => none
  | fuel + 1, bytes => (decode bytes).bind fun d => (decodeAll fuel d.2).map (d.1 :: ·)

structure Opcode where
  opSize : Bool
  rep : Option RepPrefix
  map : OpcodeMap
  byte : Byte
  deriving DecidableEq, Repr

namespace Opcode

variable (o : Opcode)

def prefixBytes : List Byte :=
  (if o.opSize then [(0x66 : Byte)] else []) ++ (o.rep.map RepPrefix.byte).toList

def mapBytes : List Byte :=
  match o.map with
  | .primary => [o.byte]
  | .m0F => [0x0f, o.byte]
  | .m0F38 => [0x0f, 0x38, o.byte]
  | .m0F3A => [0x0f, 0x3a, o.byte]

/-- The last byte is one of the map. -/
def Valid : Prop :=
  match o.map with
  | .primary =>
    o.byte ∉ [0x0f, 0x66, 0xf2, 0xf3] ∧ o.byte.extractLsb' 4 4 ≠ 4 ∧ isEscape o.byte = false
  | .m0F => o.byte ≠ 0x38 ∧ o.byte ≠ 0x3a
  | .m0F38 | .m0F3A => True

instance : Decidable o.Valid := by
  unfold Valid
  cases o.map <;> infer_instance

/-- The prefixes of an opcode after a REX prefix, which they put out of effect. -/
def prefixes (rex : BitVec 4) : Prefixes :=
  ⟨o.opSize, o.rep, if o.prefixBytes = [] then rex else 0⟩

variable {o}

theorem decodePrefixes_prefixBytes (rex : BitVec 4) (bytes : List Byte) :
    decodePrefixes ⟨false, none, rex⟩ (o.prefixBytes ++ bytes) =
      decodePrefixes (o.prefixes rex) bytes := by
  obtain ⟨opSize, rep, map, byte⟩ := o
  cases opSize <;> rcases rep with _ | _ | _ <;> rfl

theorem decodePrefixes_mapBytes (hvalid : o.Valid) (p : Prefixes) (bytes : List Byte) :
    decodePrefixes p (o.mapBytes ++ bytes) = (p, o.mapBytes ++ bytes) := by
  obtain ⟨opSize, rep, map, byte⟩ := o
  cases map with
  | primary =>
    obtain ⟨hbyte, hrex, -⟩ := hvalid
    simp only [List.mem_cons, List.not_mem_nil, or_false, not_or] at hbyte
    simp only [mapBytes, List.cons_append, List.nil_append, decodePrefixes, if_neg hbyte.2.1,
      if_neg hbyte.2.2.1, if_neg hbyte.2.2.2, if_neg hrex]
  | m0F | m0F38 | m0F3A => rfl

theorem decodeOpcode_mapBytes (hvalid : o.Valid) (bytes : List Byte) :
    decodeOpcode (o.mapBytes ++ bytes) = some (o.map, o.byte, bytes) := by
  obtain ⟨opSize, rep, map, byte⟩ := o
  cases map with
  | primary =>
    obtain ⟨hbyte, -, hescape⟩ := hvalid
    simp only [List.mem_cons, List.not_mem_nil, or_false, not_or] at hbyte
    simp only [mapBytes, List.cons_append, List.nil_append, decodeOpcode, if_neg hbyte.1]
    exact if_neg (by rw [hescape]; decide)
  | m0F =>
    have h38 : byte ≠ 0x38 := hvalid.1
    have h3A : byte ≠ 0x3a := hvalid.2
    simp only [mapBytes, List.cons_append, List.nil_append, decodeOpcode, if_neg h38, if_neg h3A,
      ↓reduceIte]
  | m0F38 | m0F3A => rfl

theorem head_ne_vex (hvalid : o.Valid) (bytes : List Byte) :
    ∀ b ∈ (o.prefixBytes ++ (o.mapBytes ++ bytes)).head?, b ≠ 0xc5 ∧ b ≠ 0xc4 := by
  have hmap : ∀ b ∈ (o.mapBytes ++ bytes).head?, b ≠ 0xc5 ∧ b ≠ 0xc4 := by
    obtain ⟨opSize, rep, map, byte⟩ := o
    cases map with
    | primary =>
      have hescape : isEscape byte = false := hvalid.2.2
      intro b hb
      obtain rfl := Option.some.inj hb
      constructor <;> rintro rfl <;> simp [isEscape] at hescape
    | m0F | m0F38 | m0F3A =>
      intro b hb
      obtain rfl := Option.some.inj hb
      decide
  obtain ⟨opSize, rep, map, byte⟩ := o
  cases opSize <;> rcases rep with _ | _ | _
  · exact hmap
  all_goals
    intro b hb
    obtain rfl := Option.some.inj hb
    decide

end Opcode

/-- An instruction that does not begin with a VEX prefix. -/
theorem decode_of_head {bytes : List Byte} (h : ∀ b ∈ bytes.head?, b ≠ 0xc5 ∧ b ≠ 0xc4) :
    decode bytes = decodeLegacy bytes := by
  cases bytes with
  | nil => rfl
  | cons b bytes =>
    have hb := h b rfl
    rw [decode, if_neg hb.1, if_neg hb.2]

section Append

variable {bytes rest : List Byte} (more : List Byte)

theorem read8_append {v : BitVec 32} (h : read8 bytes = some (v, rest)) :
    read8 (bytes ++ more) = some (v, rest ++ more) := by
  cases bytes with
  | nil => cases h
  | cons a bytes =>
    obtain ⟨rfl, rfl⟩ := Prod.mk.inj (Option.some.inj h)
    rfl

theorem read32_append {v : BitVec 32} (h : read32 bytes = some (v, rest)) :
    read32 (bytes ++ more) = some (v, rest ++ more) := by
  unfold read32 at h
  split at h
  · obtain ⟨rfl, rfl⟩ := Prod.mk.inj (Option.some.inj h)
    rfl
  · cases h

theorem readBytes_append_right {n : Nat} {imm : List Byte}
    (h : readBytes n bytes = some (imm, rest)) :
    readBytes n (bytes ++ more) = some (imm, rest ++ more) := by
  induction n generalizing bytes imm with
  | zero =>
    obtain ⟨rfl, rfl⟩ := Prod.mk.inj (Option.some.inj h)
    rfl
  | succ n ih =>
    cases bytes with
    | nil => cases h
    | cons a bytes =>
      obtain ⟨read, hread, hrest⟩ := Option.map_eq_some_iff.mp h
      obtain ⟨rfl, rfl⟩ := Prod.mk.inj hrest
      simp only [List.cons_append, readBytes, ih hread, Option.map_some]

theorem decodeDisp_append {mod : BitVec 2} {v : BitVec 32}
    (h : decodeDisp mod bytes = some (v, rest)) :
    decodeDisp mod (bytes ++ more) = some (v, rest ++ more) := by
  unfold decodeDisp at h ⊢
  split_ifs at h ⊢
  · obtain ⟨rfl, rfl⟩ := Prod.mk.inj (Option.some.inj h)
    rfl
  · exact read8_append more h
  · exact read32_append more h

theorem decodeSib_append {x b : Bool} {mod : BitVec 2} {rm : Rm}
    (h : decodeSib x b mod bytes = some (rm, rest)) :
    decodeSib x b mod (bytes ++ more) = some (rm, rest ++ more) := by
  cases bytes with
  | nil => cases h
  | cons sib bytes =>
    simp only [List.cons_append, decodeSib] at h ⊢
    by_cases hnone : mod = 0 ∧ rmField sib = 5
    · rw [if_pos hnone] at h ⊢
      obtain ⟨d, hd, hrest⟩ := Option.map_eq_some_iff.mp h
      obtain ⟨rfl, rfl⟩ := Prod.mk.inj hrest
      rw [read32_append more hd]
      rfl
    · rw [if_neg hnone] at h ⊢
      obtain ⟨d, hd, hrest⟩ := Option.map_eq_some_iff.mp h
      obtain ⟨rfl, rfl⟩ := Prod.mk.inj hrest
      rw [decodeDisp_append more hd]
      rfl

theorem decodeModRm_append {r x b : Bool} {reg : BitVec 4} {rm : Rm}
    (h : decodeModRm r x b bytes = some (reg, rm, rest)) :
    decodeModRm r x b (bytes ++ more) = some (reg, rm, rest ++ more) := by
  cases bytes with
  | nil => cases h
  | cons modRm bytes =>
    simp only [List.cons_append, decodeModRm] at h ⊢
    split_ifs at h ⊢
    · simp only [Option.some.injEq, Prod.mk.injEq] at h ⊢
      obtain ⟨rfl, rfl, rfl⟩ := h
      exact ⟨rfl, rfl, rfl⟩
    · obtain ⟨d, hd, hrest⟩ := Option.map_eq_some_iff.mp h
      simp only [Prod.mk.injEq] at hrest
      obtain ⟨rfl, rfl⟩ := hrest
      rw [decodeSib_append more hd]
      rfl
    · obtain ⟨d, hd, hrest⟩ := Option.map_eq_some_iff.mp h
      simp only [Prod.mk.injEq] at hrest
      obtain ⟨rfl, rfl, rfl⟩ := hrest
      rw [read32_append more hd]
      rfl
    · obtain ⟨d, hd, hrest⟩ := Option.map_eq_some_iff.mp h
      simp only [Prod.mk.injEq] at hrest
      obtain ⟨rfl, rfl, rfl⟩ := hrest
      rw [decodeDisp_append more hd]
      rfl

theorem decodeOperands_append {p : Prefixes} {vex : Option (BitVec 4 × Bool)} {map : OpcodeMap}
    {opcode : Byte} {insn : Insn} (h : decodeOperands p vex map opcode bytes = some (insn, rest)) :
    decodeOperands p vex map opcode (bytes ++ more) = some (insn, rest ++ more) := by
  unfold decodeOperands at h ⊢
  split_ifs at h ⊢ with hmodRm
  · obtain ⟨⟨reg, rm, bytes'⟩, hoperand, hread⟩ := Option.bind_eq_some_iff.mp h
    obtain ⟨⟨imm, bytes''⟩, himm, hinsn⟩ := Option.bind_eq_some_iff.mp hread
    obtain ⟨rfl, rfl⟩ := Prod.mk.inj (Option.some.inj hinsn)
    simp only [decodeModRm_append more hoperand, Option.bind_eq_bind, Option.bind_some]
    rw [readBytes_append_right more himm]
    rfl
  · obtain ⟨⟨imm, bytes''⟩, himm, hinsn⟩ := Option.bind_eq_some_iff.mp h
    obtain ⟨rfl, rfl⟩ := Prod.mk.inj (Option.some.inj hinsn)
    simp only [Option.bind_eq_bind]
    rw [readBytes_append_right more himm]
    rfl

theorem decodePrefixes_append {p : Prefixes} (h : (decodePrefixes p bytes).2 ≠ []) :
    decodePrefixes p (bytes ++ more) =
      ((decodePrefixes p bytes).1, (decodePrefixes p bytes).2 ++ more) := by
  induction bytes generalizing p with
  | nil => exact absurd rfl h
  | cons byte bytes ih =>
    simp only [List.cons_append, decodePrefixes] at h ⊢
    split_ifs at h ⊢
    · exact ih h
    · exact ih h
    · exact ih h
    · exact ih h
    · rfl

theorem decodeOpcode_append {map : OpcodeMap} {opcode : Byte}
    (h : decodeOpcode bytes = some (map, opcode, rest)) :
    decodeOpcode (bytes ++ more) = some (map, opcode, rest ++ more) := by
  have hthird : ∀ (m : OpcodeMap) (bytes : List Byte),
      bytes.head?.map (m, ·, bytes.tail) = some (map, opcode, rest) →
        (bytes ++ more).head?.map (m, ·, (bytes ++ more).tail) =
          some (map, opcode, rest ++ more) := by
    intro m bytes h
    cases bytes with
    | nil => cases h
    | cons byte bytes =>
      simp only [List.head?_cons, List.tail_cons, Option.map_some, Option.some.injEq,
        Prod.mk.injEq] at h
      obtain ⟨rfl, rfl, rfl⟩ := h
      rfl
  cases bytes with
  | nil => cases h
  | cons byte bytes =>
    rw [List.cons_append]
    simp only [decodeOpcode] at h ⊢
    by_cases hescape : byte = 0x0f
    · rw [if_pos hescape] at h ⊢
      cases bytes with
      | nil => cases h
      | cons second bytes =>
        simp only [List.cons_append] at h ⊢
        split_ifs at h ⊢
        · exact hthird _ bytes h
        · exact hthird _ bytes h
        · simp only [Option.some.injEq, Prod.mk.injEq] at h ⊢
          obtain ⟨rfl, rfl, rfl⟩ := h
          exact ⟨rfl, rfl, rfl⟩
    · rw [if_neg hescape] at h ⊢
      split_ifs at h ⊢
      simp only [Option.some.injEq, Prod.mk.injEq] at h ⊢
      obtain ⟨rfl, rfl, rfl⟩ := h
      exact ⟨rfl, rfl, rfl⟩

theorem decodeLegacy_append {insn : Insn} (h : decodeLegacy bytes = some (insn, rest)) :
    decodeLegacy (bytes ++ more) = some (insn, rest ++ more) := by
  obtain ⟨⟨map, opcode, bytes'⟩, hopcode, hoperands⟩ := Option.bind_eq_some_iff.mp h
  have hnonempty : (decodePrefixes {} bytes).2 ≠ [] := by
    intro hnil
    rw [hnil] at hopcode
    cases hopcode
  rw [decodeLegacy, decodePrefixes_append more hnonempty, decodeOpcode_append more hopcode]
  exact decodeOperands_append more hoperands

theorem decodeVex_append {map : OpcodeMap} {rex : BitVec 4} {byte : Byte} {insn : Insn}
    (h : decodeVex map rex byte bytes = some (insn, rest)) :
    decodeVex map rex byte (bytes ++ more) = some (insn, rest ++ more) := by
  cases bytes with
  | nil => cases h
  | cons opcode bytes => exact decodeOperands_append more h

/-- The bytes of an instruction are the same instruction whatever follows them. -/
theorem decode_append {insn : Insn} (h : decode bytes = some (insn, rest)) :
    decode (bytes ++ more) = some (insn, rest ++ more) := by
  cases bytes with
  | nil => cases h
  | cons byte bytes =>
    rw [List.cons_append]
    simp only [decode] at h ⊢
    split_ifs at h ⊢
    · cases bytes with
      | nil => cases h
      | cons byte bytes => exact decodeVex_append more h
    · rcases bytes with _ | ⟨second, _ | ⟨byte, bytes⟩⟩
      · cases h
      · cases h
      · obtain ⟨map, hmap, hvex⟩ := Option.bind_eq_some_iff.mp h
        simp only [List.cons_append, decodeVex3, hmap, Option.bind_some]
        exact decodeVex_append more hvex
    · rw [← List.cons_append]
      exact decodeLegacy_append more h

end Append

end EosVm.Lib.X86.Encoding
