import EosVm.Lib.BlockMove
import EosVm.Lib.X86.Code

/-!
# String instructions

What `rep movsb` and `rep stosb` do to accessible memory: a block move in the direction of the flag,
when no byte is overwritten before it is read, and a fill.
-/

set_option autoImplicit false

namespace EosVm.Lib.X86

/-- What a string instruction leaves as it is, apart from the registers that it counts with. -/
structure StringFrame (counters : List Reg) (m m' : Machine) : Prop where
  regs : ∀ r ∉ counters, m'.regs r = m.regs r
  stack : m'.stack = m.stack
  df : m'.df = m.df
  readable : m'.readable = m.readable
  writable : m'.writable = m.writable

theorem StringFrame.refl (counters : List Reg) (m : Machine) : StringFrame counters m m :=
  ⟨fun _ _ => rfl, rfl, rfl, rfl, rfl⟩

theorem StringFrame.trans {counters : List Reg} {m m' m'' : Machine}
    (h : StringFrame counters m m') (h' : StringFrame counters m' m'') :
    StringFrame counters m m'' where
  regs := fun r hr => (h'.regs r hr).trans (h.regs r hr)
  stack := h'.stack.trans h.stack
  df := h'.df.trans h.df
  readable := h'.readable.trans h.readable
  writable := h'.writable.trans h.writable

/-- The registers that `rep movsb` counts with. -/
def movsCounters : List Reg := [.rsi, .rdi, .rcx]

/-- The registers that `rep stosb` counts with. -/
def stosCounters : List Reg := [.rdi, .rcx]

section Steps

variable (m : Machine) (delta : BitVec 64)

theorem movsStep_frame : StringFrame movsCounters m (m.movsStep delta) where
  regs := by
    intro r hr
    simp only [movsCounters, List.mem_cons, List.not_mem_nil, or_false, not_or] at hr
    simp [Machine.movsStep, hr]
  stack := rfl
  df := rfl
  readable := rfl
  writable := rfl

theorem stosStep_frame : StringFrame stosCounters m (m.stosStep delta) where
  regs := by
    intro r hr
    simp only [stosCounters, List.mem_cons, List.not_mem_nil, or_false, not_or] at hr
    simp [Machine.stosStep, hr]
  stack := rfl
  df := rfl
  readable := rfl
  writable := rfl

theorem movsStep_memory : (m.movsStep delta).memory =
    Function.update m.memory (m.regs .rdi).toNat (m.memory (m.regs .rsi).toNat) := rfl

theorem stosStep_memory : (m.stosStep delta).memory =
    Function.update m.memory (m.regs .rdi).toNat (UInt8.ofBitVec ((m.regs .rax).setWidth 8)) := rfl

theorem movsStep_rsi : (m.movsStep delta).regs .rsi = m.regs .rsi + delta := by
  simp [Machine.movsStep]

theorem movsStep_rdi : (m.movsStep delta).regs .rdi = m.regs .rdi + delta := by
  simp [Machine.movsStep]

theorem stosStep_rdi : (m.stosStep delta).regs .rdi = m.regs .rdi + delta := by
  simp [Machine.stosStep]

end Steps

/-- A pointer after one byte, when it is not the last. -/
theorem toNat_add_one_of_lt {x : BitVec 64} {k : Nat} (hx : x.toNat = k) (hk : k + 1 < 2 ^ 64) :
    (x + 1).toNat = k + 1 := by
  subst hx
  bv_omega

theorem toNat_add_neg_one {x : BitVec 64} (hx : x.toNat ≠ 0) : (x + -1).toNat = x.toNat - 1 := by
  bv_omega

variable {m : Machine} {s d n : Nat}

/-- Upwards, for a destination below the source or behind it. -/
theorem movs_up (hdf : m.df = false) (hsi : (m.regs .rsi).toNat = s) (hdi : (m.regs .rdi).toNat = d)
    (hs : s + n ≤ 2 ^ 64) (hd : d + n ≤ 2 ^ 64) (hapart : d ≤ s ∨ s + n ≤ d)
    (hread : ∀ a, s ≤ a → a < s + n → m.readable a = true)
    (hwrite : ∀ a, d ≤ a → a < d + n → m.writable a = true) :
    ∃ m', Machine.movs n m = .ok m' ∧ m'.memory = moveBlock m.memory d s n ∧
      StringFrame movsCounters m m' := by
  induction n generalizing m s d with
  | zero => exact ⟨m, rfl, (moveBlock_zero ..).symm, StringFrame.refl _ m⟩
  | succ n ih =>
    have hdelta : m.delta = 1 := by simp [Machine.delta, hdf]
    have hnext : Machine.movs (n + 1) m = Machine.movs n (m.movsStep 1) := by
      rw [Machine.movs, hsi, hdi, hread s (Nat.le_refl s) (by omega),
        hwrite d (Nat.le_refl d) (by omega), hdelta]
      rfl
    have hframe := movsStep_frame m 1
    have hmem : (m.movsStep 1).memory = Function.update m.memory d (m.memory s) := by
      rw [movsStep_memory, hsi, hdi]
    rw [hnext, ← moveBlock_succ_up (show d ≤ s ∨ s + n < d by omega), ← hmem]
    cases n with
    | zero => exact ⟨_, rfl, (moveBlock_zero ..).symm, hframe⟩
    | succ n =>
      have hsi' : ((m.movsStep 1).regs .rsi).toNat = s + 1 := by
        rw [movsStep_rsi, toNat_add_one_of_lt hsi (by omega)]
      have hdi' : ((m.movsStep 1).regs .rdi).toNat = d + 1 := by
        rw [movsStep_rdi, toNat_add_one_of_lt hdi (by omega)]
      obtain ⟨m', hrun, hmoved, hrest⟩ := ih (hframe.df.trans hdf) hsi' hdi' (by omega) (by omega)
        (by omega) (fun a ha ha' => hframe.readable ▸ hread a (by omega) (by omega))
        (fun a ha ha' => hframe.writable ▸ hwrite a (by omega) (by omega))
      exact ⟨m', hrun, hmoved, hframe.trans hrest⟩

/-- Downwards from the last byte, for a destination above the source. -/
theorem movs_down (hdf : m.df = true) (hsi : n ≠ 0 → (m.regs .rsi).toNat + 1 = s + n)
    (hdi : n ≠ 0 → (m.regs .rdi).toNat + 1 = d + n) (hle : s ≤ d)
    (hread : ∀ a, s ≤ a → a < s + n → m.readable a = true)
    (hwrite : ∀ a, d ≤ a → a < d + n → m.writable a = true) :
    ∃ m', Machine.movs n m = .ok m' ∧ m'.memory = moveBlock m.memory d s n ∧
      StringFrame movsCounters m m' := by
  induction n generalizing m with
  | zero => exact ⟨m, rfl, (moveBlock_zero ..).symm, StringFrame.refl _ m⟩
  | succ n ih =>
    have hdelta : m.delta = -1 := by simp [Machine.delta, hdf]
    have hsi₀ : (m.regs .rsi).toNat = s + n := by
      have h := hsi (Nat.succ_ne_zero n)
      omega
    have hdi₀ : (m.regs .rdi).toNat = d + n := by
      have h := hdi (Nat.succ_ne_zero n)
      omega
    have hnext : Machine.movs (n + 1) m = Machine.movs n (m.movsStep (-1)) := by
      rw [Machine.movs, hsi₀, hdi₀, hread (s + n) (by omega) (by omega),
        hwrite (d + n) (by omega) (by omega), hdelta]
      rfl
    have hframe := movsStep_frame m (-1)
    have hmem : (m.movsStep (-1)).memory = Function.update m.memory (d + n) (m.memory (s + n)) := by
      rw [movsStep_memory, hsi₀, hdi₀]
    rw [hnext, ← moveBlock_succ_down hle, ← hmem]
    obtain ⟨m', hrun, hmoved, hrest⟩ := ih (hframe.df.trans hdf)
      (fun hn => by rw [movsStep_rsi, toNat_add_neg_one (by omega), hsi₀]; omega)
      (fun hn => by rw [movsStep_rdi, toNat_add_neg_one (by omega), hdi₀]; omega)
      (fun a ha ha' => hframe.readable ▸ hread a (by omega) (by omega))
      (fun a ha ha' => hframe.writable ▸ hwrite a (by omega) (by omega))
    exact ⟨m', hrun, hmoved, hframe.trans hrest⟩

/-- The move with the direction flag set, from pointers to the first bytes. -/
def reverseMove : List Op :=
  [.lea .rsi .rcx (some .rsi) (-1), .lea .rdi .rcx (some .rdi) (-1), .std, .repMovsb, .cld]

theorem toNat_last {x y : BitVec 64} {k n : Nat} (hx : x.toNat = n) (hy : y.toNat = k)
    (hk : k + n ≤ 2 ^ 64) (hn : n ≠ 0) : (x + y + BitVec.ofInt 64 (-1)).toNat + 1 = k + n := by
  subst hx hy
  have hminus : (BitVec.ofInt 64 (-1)).toNat = 2 ^ 64 - 1 := by decide
  rw [BitVec.toNat_add, BitVec.toNat_add, hminus]
  omega

theorem reverseMove_exec (hdf : m.df = false) (hsi : (m.regs .rsi).toNat = s)
    (hdi : (m.regs .rdi).toNat = d) (hcx : (m.regs .rcx).toNat = n) (hs : s + n ≤ 2 ^ 64)
    (hd : d + n ≤ 2 ^ 64) (hle : s ≤ d) (hread : ∀ a, s ≤ a → a < s + n → m.readable a = true)
    (hwrite : ∀ a, d ≤ a → a < d + n → m.writable a = true) :
    ∃ m', execOps reverseMove m = .ok m' ∧ m'.memory = moveBlock m.memory d s n ∧
      StringFrame movsCounters m m' := by
  obtain ⟨last, hlast⟩ : ∃ f : BitVec 64 → BitVec 64,
    f = fun x => m.regs .rcx + x + BitVec.ofInt 64 (-1) := ⟨_, rfl⟩
  obtain ⟨m₁, hm₁⟩ : ∃ m₁ : Machine, m₁ = { (m.setReg .rsi (last (m.regs .rsi))).setReg .rdi
    (last (m.regs .rdi)) with df := true } := ⟨_, rfl⟩
  have hcount : (m₁.regs .rcx).toNat = n := by simpa [hm₁] using hcx
  have hsi₁ : m₁.regs .rsi = last (m.regs .rsi) := by simp [hm₁]
  have hdi₁ : m₁.regs .rdi = last (m.regs .rdi) := by simp [hm₁]
  have hrun : execOps reverseMove m =
      (Machine.movs n m₁ >>= fun m' => .ok { m' with df := false }) := by
    simp only [reverseMove, execOps, Op.exec, ok_bind, Option.map_some, Option.getD_some]
    simp [← hcount, hm₁, hlast]
  obtain ⟨m₂, hmoved, hmem, hframe⟩ := movs_down (m := m₁) (s := s) (d := d) (n := n)
    (by rw [hm₁])
    (fun hn => by rw [hsi₁, hlast]; exact toNat_last hcx hsi hs hn)
    (fun hn => by rw [hdi₁, hlast]; exact toNat_last hcx hdi hd hn)
    hle (fun a ha ha' => by simpa [hm₁] using hread a ha ha')
    (fun a ha ha' => by simpa [hm₁] using hwrite a ha ha')
  refine ⟨{ m₂ with df := false }, by rw [hrun, hmoved, ok_bind], ?_, ?_⟩
  · simpa [hm₁] using hmem
  · refine ⟨?_, hframe.stack.trans (by simp [hm₁]), hdf.symm, hframe.readable.trans (by simp [hm₁]),
      hframe.writable.trans (by simp [hm₁])⟩
    intro r hr
    refine (hframe.regs r hr).trans ?_
    simp only [movsCounters, List.mem_cons, List.not_mem_nil, or_false, not_or] at hr
    simp [hm₁, hr]

theorem stos_up (hdf : m.df = false) (hdi : (m.regs .rdi).toNat = d) (hd : d + n ≤ 2 ^ 64)
    (hwrite : ∀ a, d ≤ a → a < d + n → m.writable a = true) :
    ∃ m', Machine.stos n m = .ok m' ∧
      m'.memory = fillBlock m.memory d n (UInt8.ofBitVec ((m.regs .rax).setWidth 8)) ∧
      StringFrame stosCounters m m' := by
  induction n generalizing m d with
  | zero => exact ⟨m, rfl, (fillBlock_zero ..).symm, StringFrame.refl _ m⟩
  | succ n ih =>
    have hdelta : m.delta = 1 := by simp [Machine.delta, hdf]
    have hnext : Machine.stos (n + 1) m = Machine.stos n (m.stosStep 1) := by
      rw [Machine.stos, hdi, hwrite d (Nat.le_refl d) (by omega), hdelta]
      rfl
    have hframe := stosStep_frame m 1
    have hmem : (m.stosStep 1).memory =
        Function.update m.memory d (UInt8.ofBitVec ((m.regs .rax).setWidth 8)) := by
      rw [stosStep_memory, hdi]
    have hax : (m.stosStep 1).regs .rax = m.regs .rax :=
      hframe.regs .rax (by decide)
    rw [hnext, ← fillBlock_succ, ← hmem]
    cases n with
    | zero => exact ⟨_, rfl, (fillBlock_zero ..).symm, hframe⟩
    | succ n =>
      have hdi' : ((m.stosStep 1).regs .rdi).toNat = d + 1 := by
        rw [stosStep_rdi, toNat_add_one_of_lt hdi (by omega)]
      obtain ⟨m', hrun, hfilled, hrest⟩ := ih (hframe.df.trans hdf) hdi' (by omega)
        (fun a ha ha' => hframe.writable ▸ hwrite a (by omega) (by omega))
      rw [hax] at hfilled
      exact ⟨m', hrun, hfilled, hframe.trans hrest⟩

end EosVm.Lib.X86
