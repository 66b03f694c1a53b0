import EosVm.Lib.X86.Code

/-!
# What the integer instructions compute

What an instruction leaves unchanged, and divisions with an extended dividend, bit scans and masked
shift counts in terms of the operations on bit vectors.
-/

set_option autoImplicit false

namespace EosVm.Lib.X86

/-- The general registers that an instruction writes. -/
def Op.written : Op → List Reg
  | .pop r | .mov _ r _ | .movImm64 r _ | .movByte r _ _ _ | .lea r _ _ _ | .alu _ _ r _ | .not _ r
  | .neg _ r | .dec _ r | .imul _ r _ | .shiftCl _ _ r | .shiftImm _ _ r _
  | .setcc _ r | .cmov _ _ r _
  | .scan _ _ r _ | .movsxTop _ _ r | .loadTop _ r | .movImm8 r _ | .vpmovmskb _ r => [r]
  | .signExtendAcc _ => [.rdx]
  | .div _ _ | .idiv _ _ => [.rax, .rdx]
  | .repMovsb => [.rsi, .rdi, .rcx]
  | .repStosb => [.rdi, .rcx]
  | .push _ | .cmp _ _ _ | .test _ _ _ | .movTop _ _ | .loadTopXmm _ | .storeTopXmm _ | .vec _ _ _
  | .vec₂ _ _ _ _ | .vmov _ _ _ | .vpinsrqHigh _ _ _ | .vload _ _ | .addRsp _ | .subRsp _ | .int3
  | .std | .cld => []

/-- Instructions that write memory or the direction of the string instructions. -/
def Op.isString : Op → Bool
  | .std | .cld | .repMovsb | .repStosb => true
  | _ => false

/-- The registers other than `written`, and the memory, are the same. -/
def SameExcept (written : List Reg) (m m' : Machine) : Prop :=
  (∀ r, r ∉ written → m'.regs r = m.regs r) ∧
    m'.memory = m.memory ∧ m'.readable = m.readable ∧ m'.writable = m.writable ∧ m'.df = m.df

namespace SameExcept

variable {written : List Reg} {m m' m'' : Machine}

theorem refl (written : List Reg) (m : Machine) : SameExcept written m m :=
  ⟨fun _ _ => rfl, rfl, rfl, rfl, rfl⟩

theorem trans (h : SameExcept written m m') (h' : SameExcept written m' m'') :
    SameExcept written m m'' := by
  obtain ⟨hregs, hmem, hread, hwrite, hdf⟩ := h
  obtain ⟨hregs', hmem', hread', hwrite', hdf'⟩ := h'
  exact ⟨fun r hr => (hregs' r hr).trans (hregs r hr), hmem'.trans hmem, hread'.trans hread,
    hwrite'.trans hwrite, hdf'.trans hdf⟩

theorem mono {written' : List Reg} (h : SameExcept written m m') (hsub : written ⊆ written') :
    SameExcept written' m m' :=
  ⟨fun r hr => h.1 r (mt (hsub ·) hr), h.2⟩

theorem setReg {r : Reg} (hr : r ∈ written) (h : SameExcept written m m') (v : BitVec 64) :
    SameExcept written m (m'.setReg r v) := by
  refine ⟨fun r' hr' => ?_, h.2⟩
  rw [Machine.setReg_regs, if_neg, h.1 r' hr']
  rintro rfl
  exact hr' hr

end SameExcept

/-- An instruction changes the registers that it writes only. -/
theorem Op.exec_sameExcept {m m' : Machine} {o : Op} (hstring : o.isString = false)
    (hexec : o.exec m = .ok m') : SameExcept o.written m m' := by
  have hset : ∀ (r : Reg) (v : BitVec 64), SameExcept [r] m (m.setReg r v) :=
    fun r v => (SameExcept.refl _ m).setReg (List.mem_singleton_self r) v
  have hdivision : ∀ {w : Width} {result : Option (BitVec w.bits × BitVec w.bits)},
      m.setDivision w result = .ok m' → SameExcept [.rax, .rdx] m m' := by
    intro w result hdiv
    match result with
    | none => cases hdiv
    | some (q, r) =>
      obtain rfl := Except.ok.inj hdiv
      exact ((SameExcept.refl _ m).setReg (by decide) _).setReg (by decide) _
  cases o with
  | pop r =>
    match hstack : m.stack with
    | [] => simp [Op.exec, hstack] at hexec
    | slot :: stack =>
      simp only [Op.exec, hstack, Except.ok.injEq] at hexec
      exact hexec ▸ hset r slot
  | mov w r src | alu op w r src =>
    obtain ⟨v, -, hset'⟩ := bind_eq_ok.mp hexec
    exact Except.ok.inj hset' ▸ hset r _
  | cmp | vec | vec₂ =>
    obtain ⟨v, -, hset'⟩ := bind_eq_ok.mp hexec
    exact Except.ok.inj hset' ▸ SameExcept.refl _ m
  | movImm64 | lea | not | neg | dec | imul | shiftCl | shiftImm | setcc | cmov | scan | movImm8
  | vpmovmskb =>
    exact Except.ok.inj hexec ▸ hset _ _
  | signExtendAcc => exact Except.ok.inj hexec ▸ hset _ _
  | push | test | vmov | vpinsrqHigh => exact Except.ok.inj hexec ▸ SameExcept.refl _ m
  | div | idiv => exact hdivision hexec
  | movByte r base index disp =>
    simp only [Op.exec] at hexec
    split at hexec
    · exact Except.ok.inj hexec ▸ hset _ _
    · cases hexec
  | movsxTop bits w r =>
    match hstack : m.stack with
    | [] => simp [Op.exec, hstack] at hexec
    | slot :: stack =>
      simp only [Op.exec, hstack, Except.ok.injEq] at hexec
      exact hexec ▸ hset r _
  | loadTop w r =>
    match hstack : m.stack with
    | [] => simp [Op.exec, hstack] at hexec
    | slot :: stack =>
      simp only [Op.exec, hstack, Except.ok.injEq] at hexec
      exact hexec ▸ hset r _
  | movTop w r =>
    match hstack : m.stack, w with
    | [], _ => simp [Op.exec, hstack] at hexec
    | slot :: stack, .w32 =>
      simp only [Op.exec, hstack, Except.ok.injEq] at hexec
      exact hexec ▸ SameExcept.refl _ m
    | slot :: stack, .w64 =>
      simp only [Op.exec, hstack, Except.ok.injEq] at hexec
      exact hexec ▸ SameExcept.refl _ m
  | loadTopXmm | storeTopXmm | vload | addRsp | subRsp =>
    simp only [Op.exec] at hexec
    split at hexec
    · exact Except.ok.inj hexec ▸ SameExcept.refl _ m
    · cases hexec
  | int3 => cases hexec
  | std | cld | repMovsb | repStosb => cases hstring

/-- No instruction is a string instruction, and all of them write registers among `written` only. -/
def writesOnly (written : List Reg) (ops : List Op) : Bool :=
  ops.all fun o => !o.isString && o.written.all (written.contains ·)

/-- Straight-line code changes the registers that its instructions write only. -/
theorem execOps_sameExcept {ops : List Op} {m m' : Machine} {written : List Reg}
    (hops : writesOnly written ops = true) (hexec : execOps ops m = .ok m') :
    SameExcept written m m' := by
  induction ops generalizing m with
  | nil => exact Except.ok.inj hexec ▸ SameExcept.refl _ m
  | cons o ops ih =>
    obtain ⟨mid, hfirst, hrest⟩ := bind_eq_ok.mp hexec
    obtain ⟨ho, htail⟩ := Bool.and_eq_true_iff.mp hops
    obtain ⟨hstring, hall⟩ := Bool.and_eq_true_iff.mp ho
    have hsub : o.written ⊆ written := fun r hr =>
      List.contains_iff_mem.mp (List.all_eq_true.mp hall r hr)
    exact ((Op.exec_sameExcept (by simpa using hstring) hfirst).mono hsub).trans
      (ih htail hrest)

section Loads

variable {m : Machine} {addr : Nat}

/-- The low part of what is loaded. -/
theorem loadBytes_setWidth {k n : Nat} (h : k ≤ n) :
    (m.loadBytes addr n).setWidth (8 * k) = m.loadBytes addr k := by
  induction n with
  | zero =>
    obtain rfl := Nat.le_zero.mp h
    rfl
  | succ n ih =>
    rcases Nat.lt_or_ge n k with hlt | hle
    · obtain rfl := Nat.le_antisymm h hlt
      exact BitVec.setWidth_eq _
    · rw [← ih hle, Machine.loadBytes]
      apply BitVec.eq_of_getLsbD_eq
      intro i hi
      simp [BitVec.getLsbD_append, hi, show i < 8 * n by omega]

theorem readableBlock_mono {k n : Nat} (h : k ≤ n) (hread : m.readableBlock addr n = true) :
    m.readableBlock addr k = true := by
  simp only [Machine.readableBlock, List.all_eq_true, List.mem_range] at hread ⊢
  exact fun i hi => hread i (Nat.lt_of_lt_of_le hi h)

/-- A load of the low half of a slot. -/
theorem load_low {slot : BitVec 64} (h : m.load .w64 addr = .ok slot) :
    m.load .w32 addr = .ok (slot.setWidth 32) := by
  simp only [Machine.load] at h ⊢
  split at h
  next hread =>
    rw [if_pos (readableBlock_mono (by decide) hread), ← Except.ok.inj h]
    exact congrArg _ (loadBytes_setWidth (k := 4) (n := 8) (by decide)).symm
  · cases h

end Loads

section Divisions

variable {w : Nat}

/-- `div` with a dividend that is extended with zeros. -/
theorem divide_zero (a b : BitVec w) :
    divide 0 a b = if b = 0 then none else some (a.udiv b, a.umod b) := by
  have hlow : (0 : BitVec w).toNat * 2 ^ w + a.toNat = a.toNat := by simp
  have hquot : ¬ 2 ^ w ≤ a.toNat / b.toNat :=
    Nat.not_le.mpr (Nat.lt_of_le_of_lt (Nat.div_le_self ..) a.isLt)
  have hzero : b.toNat = 0 ↔ b = 0 := by
    rw [← BitVec.toNat_inj]
    simp
  simp only [divide, hlow, hquot, or_false, hzero]
  rw [← BitVec.toNat_udiv, ← BitVec.toNat_umod, BitVec.ofNat_toNat, BitVec.ofNat_toNat,
    BitVec.setWidth_eq, BitVec.setWidth_eq]
  rfl

/-- The value of a dividend that is extended by its sign. -/
theorem toInt_extended (a : BitVec w) :
    (if a.msb then BitVec.allOnes w else 0 : BitVec w).toInt * 2 ^ w + a.toNat = a.toInt := by
  rw [BitVec.toInt_eq_msb_cond a]
  cases hmsb : a.msb with
  | false => simp
  | true =>
    have hpos : 0 < w := by
      rcases Nat.eq_zero_or_pos w with rfl | hpos
      · simp [BitVec.eq_nil a] at hmsb
      · exact hpos
    have hones : (BitVec.allOnes w).toInt = -1 := by
      rw [BitVec.toInt_allOnes, if_pos hpos]
    simp only [if_true, hones]
    push_cast
    omega

/-- The quotient fits unless the least integer is divided by minus one. -/
theorem tdiv_overflows_iff (hw : 0 < w) {a b : BitVec w} :
    (a.toInt.tdiv b.toInt < -2 ^ (w - 1) ∨ 2 ^ (w - 1) ≤ a.toInt.tdiv b.toInt) ↔
      a = BitVec.intMin w ∧ b = -1 := by
  constructor
  · intro h
    by_contra hne
    have hquot := BitVec.toInt_sdiv_of_ne_or_ne a b (not_and_or.mp hne)
    have hle := BitVec.le_toInt (a.sdiv b)
    have hlt := BitVec.toInt_lt (x := a.sdiv b)
    rw [hquot] at hle hlt
    omega
  · rintro ⟨rfl, rfl⟩
    have hone : (-1 : BitVec w).toInt = -1 := by
      rw [show (-1 : BitVec w) = BitVec.allOnes w from BitVec.neg_one_eq_allOnes,
        BitVec.toInt_allOnes, if_pos hw]
    rw [hone, BitVec.toInt_intMin_of_pos hw, Int.tdiv_neg, Int.tdiv_one, Int.neg_neg]
    exact Or.inr (Int.le_refl _)

/-- `idiv` with a dividend that is extended by its sign. -/
theorem idivide_signExtended (hw : 0 < w) (a b : BitVec w) :
    idivide (if a.msb then BitVec.allOnes w else 0) a b =
      if b = 0 ∨ a = BitVec.intMin w ∧ b = -1 then none else some (a.sdiv b, a.srem b) := by
  have hzero : b.toInt = 0 ↔ b = 0 := by
    rw [← BitVec.toInt_inj]
    simp
  have hquot : BitVec.ofInt w (a.toInt.tdiv b.toInt) = a.sdiv b := by
    apply BitVec.eq_of_toInt_eq
    rw [BitVec.toInt_ofInt, BitVec.toInt_sdiv]
  have hrem : BitVec.ofInt w (a.toInt.tmod b.toInt) = a.srem b := by
    rw [← BitVec.toInt_srem, BitVec.ofInt_toInt]
  simp only [idivide, toInt_extended, hzero, hquot, hrem, tdiv_overflows_iff hw]

end Divisions

/-- The highest bit that is set, by the zeros before it. -/
theorem log2_eq_sub_clz {w : Nat} {a : BitVec w} (h : a ≠ 0#w) :
    a.toNat.log2 = w - 1 - a.clz.toNat := by
  have hw : 0 < w := by
    rcases Nat.eq_zero_or_pos w with rfl | hpos
    · exact absurd (BitVec.eq_nil a) h
    · exact hpos
  have hne : a.toNat ≠ 0 := fun hzero => h (BitVec.eq_of_toNat_eq hzero)
  have hle := BitVec.two_pow_sub_clz_le_toNat_of_ne_zero hw h
  have hlt := BitVec.toNat_lt_two_pow_sub_clz (x := a)
  have hclz : a.clz.toNat < w := by
    have hlt := BitVec.lt_def.mp (BitVec.clz_lt_iff_ne_zero.mpr h)
    rwa [BitVec.natCast_eq_ofNat, BitVec.toNat_ofNat, Nat.mod_eq_of_lt Nat.lt_two_pow_self] at hlt
  rw [Nat.log2_eq_iff hne]
  constructor
  · exact hle
  · convert hlt using 2
    omega

/-- The zeros before the bit that `bsr` finds. -/
theorem sub_log2 {w : Nat} {a : BitVec w} (h : a ≠ 0#w) :
    BitVec.ofNat w (w - 1) - BitVec.ofNat w a.toNat.log2 = a.clz := by
  have hlt := BitVec.lt_def.mp (BitVec.clz_lt_iff_ne_zero.mpr h)
  rw [BitVec.natCast_eq_ofNat, BitVec.toNat_ofNat, Nat.mod_eq_of_lt Nat.lt_two_pow_self] at hlt
  have hsplit : BitVec.ofNat w (w - 1) = a.clz + BitVec.ofNat w a.toNat.log2 := by
    have hclz : a.clz = BitVec.ofNat w a.clz.toNat := by rw [BitVec.ofNat_toNat, BitVec.setWidth_eq]
    rw [log2_eq_sub_clz h, hclz, ← BitVec.ofNat_add, ← hclz]
    congr 1
    omega
  rw [hsplit, BitVec.add_sub_cancel]

/-- Only the low byte of a register counts the bits to shift. -/
theorem Width.count_low (w : Width) (a : BitVec w.bits) :
    w.count ((a.setWidth 64).setWidth 8) = a.toNat % w.bits := by
  simp only [count, BitVec.toNat_setWidth]
  cases w with
  | w32 =>
    change a.toNat % 2 ^ 64 % 2 ^ 8 % 32 = a.toNat % 32
    omega
  | w64 =>
    change a.toNat % 2 ^ 64 % 2 ^ 8 % 64 = a.toNat % 64
    omega

end EosVm.Lib.X86
