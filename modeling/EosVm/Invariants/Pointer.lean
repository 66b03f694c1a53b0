import EosVm.Lib.ExceptRun
import EosVm.Source.ModuleParser

/-!
# How far the readers move the code pointer

Every reader leaves the memory, the origin and the bound of its pointer alone and only moves the
position forward, never past the bound.
-/

set_option autoImplicit false

namespace EosVm

open Lib

/-- `q` is `p` moved forward by a reader. -/
@[grind]
structure Advances (p q : WasmCodePtr) : Prop where
  buf : q.buf = p.buf
  orig : q.orig = p.orig
  bnds : q.bnds = p.bnds
  raw : p.raw ≤ q.raw
  bounded : p.raw ≤ p.bnds → q.raw ≤ q.bnds

namespace Advances

theorem refl (p : WasmCodePtr) : Advances p p := ⟨rfl, rfl, rfl, le_refl _, id⟩

theorem trans {p q r : WasmCodePtr} (hpq : Advances p q) (hqr : Advances q r) : Advances p r where
  buf := hqr.buf.trans hpq.buf
  orig := hqr.orig.trans hpq.orig
  bnds := hqr.bnds.trans hpq.bnds
  raw := le_trans hpq.raw hqr.raw
  bounded := fun h => hqr.bounded (hpq.bounded h)

end Advances

theorem next_eq_ok {p q : WasmCodePtr} {b : UInt8} :
    p.next = .ok (b, q) ↔
      p.raw < p.bnds ∧ b = p.buf.getD p.raw 0 ∧ q = { p with raw := p.raw + 1 } := by
  simp only [WasmCodePtr.next, bind_eq_ok, vmAssert_eq_ok, pure_eq_ok, Prod.mk.injEq,
    decide_eq_true_eq, exists_const]
  constructor
  · rintro ⟨hlt, rfl, rfl⟩
    exact ⟨hlt, rfl, rfl⟩
  · rintro ⟨hlt, rfl, rfl⟩
    exact ⟨hlt, rfl, rfl⟩

theorem next_advances {p q : WasmCodePtr} {b : UInt8} (h : p.next = .ok (b, q)) :
    Advances p q := by
  obtain ⟨hlt, -, rfl⟩ := next_eq_ok.mp h
  exact ⟨rfl, rfl, rfl, Nat.le_succ _, fun _ => hlt⟩

theorem advance_eq_ok {p q : WasmCodePtr} {n : Nat} :
    p.advance n = .ok q ↔ n ≤ p.bnds - p.raw ∧ q = { p with raw := p.raw + n } := by
  simp only [WasmCodePtr.advance, bind_eq_ok, vmAssert_eq_ok, pure_eq_ok, decide_eq_true_eq,
    exists_const]
  exact and_congr_right fun _ => eq_comm

theorem advance_advances {p q : WasmCodePtr} {n : Nat} (h : p.advance n = .ok q) :
    Advances p q := by
  obtain ⟨hle, rfl⟩ := advance_eq_ok.mp h
  refine ⟨rfl, rfl, rfl, Nat.le_add_right _ _, ?_⟩
  intro hb
  simp only at *
  omega

theorem shrinkBounds_eq_ok {p q : WasmCodePtr} {n : Nat} :
    p.shrinkBounds n = .ok q ↔ n ≤ p.bnds - p.raw ∧ q = { p with bnds := p.raw + n } := by
  simp only [WasmCodePtr.shrinkBounds, bind_eq_ok, vmAssert_eq_ok, pure_eq_ok, decide_eq_true_eq,
    exists_const]
  exact and_congr_right fun _ => eq_comm

/-- A reader that works inside shrunk bounds and restores them moves the pointer forward. -/
theorem advances_of_shrink {p inner q : WasmCodePtr} {n : Nat} (hs : p.shrinkBounds n = .ok inner)
    (ha : Advances inner q) : Advances p (q.restore p) := by
  obtain ⟨hle, rfl⟩ := shrinkBounds_eq_ok.mp hs
  refine ⟨ha.buf, ha.orig, rfl, ha.raw, ?_⟩
  intro hb
  have hq := ha.bounded (Nat.le_add_right _ _)
  have hbnds := ha.bnds
  simp only [WasmCodePtr.restore] at *
  omega

theorem parseVaruint_advances {needed width : Nat} {mask : UInt8} {p q : WasmCodePtr} {v : Nat}
    (h : parseVaruint needed mask width p = .ok (v, q)) : Advances p q := by
  simp only [parseVaruint, bind_eq_ok, pure_eq_ok, Prod.mk.injEq] at h
  obtain ⟨storage, -, next, hn, -, rfl⟩ := h
  exact advance_advances hn

theorem parseVaruint1_advances {p q : WasmCodePtr} {v : Nat} (h : parseVaruint1 p = .ok (v, q)) :
    Advances p q := parseVaruint_advances h

theorem parseVaruint32_advances {p q : WasmCodePtr} {v : Nat}
    (h : parseVaruint32 p = .ok (v, q)) : Advances p q := parseVaruint_advances h

theorem lebBytes_length_pos {lastOk : UInt8 → Except VmError Unit} {code : WasmCodePtr}
    {left cnt : Nat} {storage : List UInt8} (h : lebBytes lastOk code left cnt = .ok storage) :
    0 < storage.length := by
  cases left with
  | zero => cases h
  | succ left =>
    simp only [lebBytes, bind_eq_ok, vmAssert_eq_ok, exists_const] at h
    obtain ⟨-, b, -, h⟩ := h
    split at h
    · split at h <;> simp only [bind_eq_ok, pure_eq_ok] at h
      · obtain ⟨_, -, rfl⟩ := h
        exact Nat.one_pos
      · rw [← h]
        exact Nat.one_pos
    · simp only [bind_eq_ok, pure_eq_ok] at h
      obtain ⟨rest, -, rfl⟩ := h
      exact Nat.succ_pos _

theorem parseVaruint32_moves {p q : WasmCodePtr} {v : Nat} (h : parseVaruint32 p = .ok (v, q)) :
    p.raw < q.raw := by
  simp only [parseVaruint32, parseVaruint, bind_eq_ok, pure_eq_ok, Prod.mk.injEq] at h
  obtain ⟨storage, hs, next, hn, -, rfl⟩ := h
  have hpos := lebBytes_length_pos hs
  obtain ⟨-, rfl⟩ := advance_eq_ok.mp hn
  exact Nat.lt_add_of_pos_right hpos

theorem parseVarint_moves {needed width : Nat} {mask signBit : UInt8} {p q : WasmCodePtr}
    {v : BitVec width} (h : parseVarint needed mask signBit width p = .ok (v, q)) :
    p.raw < q.raw := by
  simp only [parseVarint, bind_eq_ok] at h
  obtain ⟨storage, hs, next, hn, h⟩ := h
  have hpos := lebBytes_length_pos hs
  obtain ⟨-, rfl⟩ := advance_eq_ok.mp hn
  split at h <;> simp only [pure_eq_ok, Prod.mk.injEq] at h <;> rw [← h.2] <;>
    exact Nat.lt_add_of_pos_right hpos

theorem next_moves {p q : WasmCodePtr} {b : UInt8} (h : p.next = .ok (b, q)) : p.raw < q.raw := by
  obtain ⟨-, -, rfl⟩ := next_eq_ok.mp h
  exact Nat.lt_succ_self _

theorem parseVarint_advances {needed width : Nat} {mask signBit : UInt8} {p q : WasmCodePtr}
    {v : BitVec width} (h : parseVarint needed mask signBit width p = .ok (v, q)) :
    Advances p q := by
  simp only [parseVarint, bind_eq_ok] at h
  obtain ⟨storage, -, next, hn, h⟩ := h
  split at h <;> simp only [pure_eq_ok, Prod.mk.injEq] at h <;> rw [← h.2] <;>
    exact advance_advances hn

theorem parseRaw_advances {n v : Nat} {p q : WasmCodePtr} (h : parseRaw n p = .ok (v, q)) :
    Advances p q := by
  simp only [parseRaw, bind_eq_ok, pure_eq_ok, Prod.mk.injEq] at h
  obtain ⟨inner, hs, last, ha, -, rfl⟩ := h
  exact advances_of_shrink hs (advance_advances ha)

theorem parseRaw_moves {n v : Nat} {p q : WasmCodePtr} (hn : 0 < n)
    (h : parseRaw n p = .ok (v, q)) : p.raw < q.raw := by
  simp only [parseRaw, bind_eq_ok, pure_eq_ok, Prod.mk.injEq] at h
  obtain ⟨inner, hs, last, ha, -, rfl⟩ := h
  obtain ⟨-, rfl⟩ := shrinkBounds_eq_ok.mp hs
  obtain ⟨-, rfl⟩ := advance_eq_ok.mp ha
  exact Nat.lt_add_of_pos_right hn

theorem reservedZero_moves {msg : String} {p q : WasmCodePtr} (h : reservedZero msg p = .ok q) :
    p.raw < q.raw := by
  simp only [reservedZero, bind_eq_ok, vmAssert_eq_ok, pure_eq_ok, Prod.exists] at h
  obtain ⟨_, -, _, -, _, next, hn, rfl⟩ := h
  exact next_moves hn

theorem reservedZero_advances {msg : String} {p q : WasmCodePtr}
    (h : reservedZero msg p = .ok q) : Advances p q := by
  simp only [reservedZero, bind_eq_ok, vmAssert_eq_ok, pure_eq_ok, Prod.exists] at h
  obtain ⟨_, -, _, -, _, next, hn, rfl⟩ := h
  exact next_advances hn

theorem advances_of_pure {α : Type} {p q : WasmCodePtr} {x y : α}
    (h : (pure (x, p) : Except VmError (α × WasmCodePtr)) = .ok (y, q)) : Advances p q := by
  rw [pure_eq_ok, Prod.mk.injEq] at h
  rw [← h.2]
  exact Advances.refl p

theorem parseVaruint32_lt {p q : WasmCodePtr} {v : Nat} (h : parseVaruint32 p = .ok (v, q)) :
    v < 2 ^ 32 := by
  simp only [parseVaruint32, parseVaruint, bind_eq_ok, pure_eq_ok, Prod.mk.injEq] at h
  obtain ⟨storage, -, next, -, rfl, -⟩ := h
  exact Nat.mod_lt _ (by decide)

theorem parseLabels_advances {n : Nat} {p q : WasmCodePtr} {labels : List Nat}
    (h : parseLabels n p = .ok (labels, q)) : Advances p q := by
  induction n generalizing p labels with
  | zero =>
    simp only [parseLabels, pure_eq_ok, Prod.mk.injEq] at h
    rw [← h.2]
    exact Advances.refl p
  | succ n ih =>
    simp only [parseLabels, bind_eq_ok, pure_eq_ok, Prod.exists, Prod.mk.injEq] at h
    obtain ⟨_, mid, hm, _, last, hl, -, rfl⟩ := h
    exact (parseVaruint32_advances hm).trans (ih hl)

theorem decodeMemarg_advances {mk : Nat → Nat → Instr} {p q : WasmCodePtr} {instr : Instr}
    (h : decodeMemarg mk p = .ok (instr, q)) : Advances p q := by
  simp only [decodeMemarg, bind_eq_ok, pure_eq_ok, Prod.exists, Prod.mk.injEq] at h
  obtain ⟨_, mid, hm, _, last, hl, -, rfl⟩ := h
  exact (parseVaruint32_advances hm).trans (parseVaruint32_advances hl)

theorem decodeIndex_advances {mk : Nat → Instr} {p q : WasmCodePtr} {instr : Instr}
    (h : decodeIndex mk p = .ok (instr, q)) : Advances p q := by
  simp only [decodeIndex, bind_eq_ok, pure_eq_ok, Prod.exists, Prod.mk.injEq] at h
  obtain ⟨_, mid, hm, -, rfl⟩ := h
  exact parseVaruint32_advances hm

theorem decodeByte_advances {mk : UInt8 → Instr} {p q : WasmCodePtr} {instr : Instr}
    (h : decodeByte mk p = .ok (instr, q)) : Advances p q := by
  simp only [decodeByte, bind_eq_ok, pure_eq_ok, Prod.exists, Prod.mk.injEq] at h
  obtain ⟨_, mid, hm, -, rfl⟩ := h
  exact next_advances hm

theorem decodeMemargLane_advances {mk : Nat → Nat → UInt8 → Instr} {p q : WasmCodePtr}
    {instr : Instr} (h : decodeMemargLane mk p = .ok (instr, q)) : Advances p q := by
  simp only [decodeMemargLane, bind_eq_ok, pure_eq_ok, Prod.exists, Prod.mk.injEq] at h
  obtain ⟨_, mid, hm, _, last, hl, _, lane, hlane, -, rfl⟩ := h
  exact ((parseVaruint32_advances hm).trans (parseVaruint32_advances hl)).trans
    (next_advances hlane)

theorem decodeVector_advances {o : Options} {p q : WasmCodePtr} {instr : Instr}
    (h : decodeVector o p = .ok (instr, q)) : Advances p q ∧ p.raw < q.raw := by
  simp only [decodeVector, bind_eq_ok, vmAssert_eq_ok, exists_const, Prod.exists] at h
  obtain ⟨-, sub, mid, hm, h⟩ := h
  suffices hq : Advances mid q from
    ⟨(parseVaruint32_advances hm).trans hq, lt_of_lt_of_le (parseVaruint32_moves hm) hq.raw⟩
  split at h
  · exact decodeMemarg_advances h
  split at h
  · exact decodeMemarg_advances h
  split at h
  · exact decodeMemargLane_advances h
  split at h
  · exact decodeMemargLane_advances h
  split at h
  · simp only [bind_eq_ok, pure_eq_ok, Prod.exists, Prod.mk.injEq] at h
    obtain ⟨_, last, hl, -, rfl⟩ := h
    exact parseRaw_advances hl
  split at h
  · simp only [bind_eq_ok, pure_eq_ok, Prod.mk.injEq] at h
    obtain ⟨last, hl, -, rfl⟩ := h
    exact advance_advances hl
  split at h
  · exact decodeByte_advances h
  split at h
  · exact decodeByte_advances h
  split at h
  · exact advances_of_pure h
  · cases h

theorem decodeExt_advances {p q : WasmCodePtr} {instr : Instr}
    (h : decodeExt p = .ok (instr, q)) : Advances p q ∧ p.raw < q.raw := by
  simp only [decodeExt, bind_eq_ok, Prod.exists] at h
  obtain ⟨sub, mid, hm, h⟩ := h
  suffices hq : Advances mid q from
    ⟨(parseVaruint32_advances hm).trans hq, lt_of_lt_of_le (parseVaruint32_moves hm) hq.raw⟩
  split at h
  · exact advances_of_pure h
  split at h
  · simp only [bind_eq_ok, Prod.exists] at h
    obtain ⟨_, last, hl, zero, hz, h⟩ := h
    exact ((parseVaruint32_advances hl).trans (reservedZero_advances hz)).trans
      (advances_of_pure h)
  split at h
  · exact decodeIndex_advances h
  split at h
  · simp only [bind_eq_ok] at h
    obtain ⟨first, hf, second, hs, h⟩ := h
    exact ((reservedZero_advances hf).trans (reservedZero_advances hs)).trans (advances_of_pure h)
  split at h
  · simp only [bind_eq_ok] at h
    obtain ⟨first, hf, h⟩ := h
    exact (reservedZero_advances hf).trans (advances_of_pure h)
  split at h
  · simp only [bind_eq_ok, Prod.exists] at h
    obtain ⟨_, last, hl, zero, hz, h⟩ := h
    exact ((parseVaruint32_advances hl).trans (reservedZero_advances hz)).trans
      (advances_of_pure h)
  split at h
  · exact decodeIndex_advances h
  split at h
  · simp only [bind_eq_ok] at h
    obtain ⟨first, hf, second, hs, h⟩ := h
    exact ((reservedZero_advances hf).trans (reservedZero_advances hs)).trans (advances_of_pure h)
  · cases h

/-- Every successful outcome of `r` has moved the pointer forward from `p`. -/
def Lands {α : Type} (p : WasmCodePtr) (r : Except VmError (α × WasmCodePtr)) : Prop :=
  ∀ x q, r = .ok (x, q) → Advances p q

namespace Lands

variable {α β : Type} {p : WasmCodePtr}

theorem pure (x : α) : Lands p (Pure.pure (x, p)) := fun _ _ => advances_of_pure

theorem error (e : VmError) : Lands (α := α) p (.error e) := fun _ _ h => nomatch h

theorem ite {c : Prop} [Decidable c] {a b : Except VmError (α × WasmCodePtr)} (ha : Lands p a)
    (hb : Lands p b) : Lands p (if c then a else b) := by
  by_cases h : c
  · rwa [if_pos h]
  · rwa [if_neg h]

theorem bind {r : Except VmError (α × WasmCodePtr)}
    {next : α × WasmCodePtr → Except VmError (β × WasmCodePtr)} (hr : Lands p r)
    (hnext : ∀ x q, Lands q (next (x, q))) : Lands p (r >>= next) := by
  intro y last h
  obtain ⟨⟨x, q⟩, hx, hn⟩ := bind_eq_ok.mp h
  exact (hr x q hx).trans (hnext x q y last hn)

theorem assert {c : Bool} {e : VmError} {next : Unit → Except VmError (β × WasmCodePtr)}
    (hnext : Lands p (next ())) : Lands p (vmAssert c e >>= next) := by
  intro y last h
  obtain ⟨⟨⟩, -, hn⟩ := bind_eq_ok.mp h
  exact hnext y last hn

/-- A step that does not touch the pointer. -/
theorem skip {γ : Type} {r : Except VmError γ} {next : γ → Except VmError (β × WasmCodePtr)}
    (hnext : ∀ x, Lands p (next x)) : Lands p (r >>= next) := by
  intro y last h
  obtain ⟨x, -, hn⟩ := bind_eq_ok.mp h
  exact hnext x y last hn

theorem bindPtr {r : Except VmError WasmCodePtr}
    {next : WasmCodePtr → Except VmError (β × WasmCodePtr)} (hr : ∀ q, r = .ok q → Advances p q)
    (hnext : ∀ q, Lands q (next q)) : Lands p (r >>= next) := by
  intro y last h
  obtain ⟨q, hx, hn⟩ := bind_eq_ok.mp h
  exact (hr q hx).trans (hnext q y last hn)

end Lands

/-- Whether an instruction has immediates, as a lower bound on their number of bytes. -/
def Instr.immediateBytes : Instr → Nat
  | .unreachable | .nop | .end_ | .return_ | .else_ | .drop | .select | .numeric _ => 0
  | _ => 1

theorem Instr.immediateBytes_le (instr : Instr) : instr.immediateBytes ≤ 1 := by
  unfold Instr.immediateBytes
  split <;> omega

/-- Every successful outcome of `r` has consumed the immediates of the instruction from `p` on. -/
def Consumes (p : WasmCodePtr) (r : Except VmError (Instr × WasmCodePtr)) : Prop :=
  ∀ instr q, r = .ok (instr, q) → Advances p q ∧ p.raw + instr.immediateBytes ≤ q.raw

namespace Consumes

variable {p : WasmCodePtr}

/-- An instruction without immediates. -/
theorem pure {instr : Instr} (h : instr.immediateBytes = 0) :
    Consumes p (Pure.pure (instr, p)) := by
  intro instr' q hq
  obtain ⟨rfl, rfl⟩ := Prod.mk.inj (pure_eq_ok.mp hq)
  exact ⟨Advances.refl p, by rw [h]; exact le_refl _⟩

theorem error (e : VmError) : Consumes p (.error e) := fun _ _ h => nomatch h

theorem ite {c : Prop} [Decidable c] {a b : Except VmError (Instr × WasmCodePtr)}
    (ha : Consumes p a) (hb : Consumes p b) : Consumes p (if c then a else b) := by
  by_cases h : c
  · rwa [if_pos h]
  · rwa [if_neg h]

/-- Any reader that moves on consumes enough. -/
theorem moved {r : Except VmError (Instr × WasmCodePtr)} (hl : Lands p r)
    (hm : ∀ instr q, r = .ok (instr, q) → p.raw < q.raw) : Consumes p r := by
  intro instr q h
  have hle := instr.immediateBytes_le
  have hlt := hm instr q h
  exact ⟨hl instr q h, by omega⟩

/-- A reader that moves on, and then anything. -/
theorem bind {α : Type} {r : Except VmError (α × WasmCodePtr)}
    {next : α × WasmCodePtr → Except VmError (Instr × WasmCodePtr)} (hr : Lands p r)
    (hm : ∀ x q, r = .ok (x, q) → p.raw < q.raw) (hnext : ∀ x q, Lands q (next (x, q))) :
    Consumes p (r >>= next) := by
  refine moved (Lands.bind hr hnext) ?_
  intro instr q h
  obtain ⟨⟨x, mid⟩, hx, hn⟩ := bind_eq_ok.mp h
  exact lt_of_lt_of_le (hm x mid hx) (hnext x mid instr q hn).raw

/-- The same for a reader without value. -/
theorem bindPtr {r : Except VmError WasmCodePtr}
    {next : WasmCodePtr → Except VmError (Instr × WasmCodePtr)}
    (hr : ∀ q, r = .ok q → Advances p q) (hm : ∀ q, r = .ok q → p.raw < q.raw)
    (hnext : ∀ q, Lands q (next q)) : Consumes p (r >>= next) := by
  refine moved (Lands.bindPtr hr hnext) ?_
  intro instr q h
  obtain ⟨mid, hx, hn⟩ := bind_eq_ok.mp h
  exact lt_of_lt_of_le (hm mid hx) (hnext mid instr q hn).raw

end Consumes

/-- Decoding consumes the opcode byte and the immediates. -/
theorem decodeInstr_consumes {o : Options} {p q : WasmCodePtr} {instr : Instr}
    (h : decodeInstr o p = .ok (instr, q)) :
    Advances p q ∧ p.raw + 1 + instr.immediateBytes ≤ q.raw := by
  obtain ⟨⟨b, mid⟩, hm, h⟩ := bind_eq_ok.mp h
  suffices hq : Advances mid q ∧ mid.raw + instr.immediateBytes ≤ q.raw by
    refine ⟨(next_advances hm).trans hq.1, ?_⟩
    obtain ⟨-, -, rfl⟩ := next_eq_ok.mp hm
    exact hq.2
  have byte (mk : UInt8 → Instr) : Consumes mid (decodeByte mk mid) :=
    Consumes.bind (fun _ _ => next_advances) (fun _ _ => next_moves) fun _ _ => Lands.pure _
  have index (mk : Nat → Instr) : Consumes mid (decodeIndex mk mid) :=
    Consumes.bind (fun _ _ => parseVaruint32_advances) (fun _ _ => parseVaruint32_moves)
      fun _ _ => Lands.pure _
  have zero (msg : String) (i : Instr) :
      Consumes mid (reservedZero msg mid >>= fun code => pure (i, code)) :=
    Consumes.bindPtr (fun _ => reservedZero_advances) (fun _ => reservedZero_moves)
      fun _ => Lands.pure i
  have memarg (mk : Nat → Nat → Instr) : Consumes mid (decodeMemarg mk mid) :=
    Consumes.bind (fun _ _ => parseVaruint32_advances) (fun _ _ => parseVaruint32_moves)
      fun _ _ => Lands.bind (fun _ _ => parseVaruint32_advances) fun _ _ => Lands.pure _
  -- the opcodes in the order of `decodeInstr`
  suffices hl : Consumes mid _ from hl instr q h
  iterate 2 refine Consumes.ite (Consumes.pure rfl) ?_
  iterate 3 refine Consumes.ite (byte _) ?_
  iterate 2 refine Consumes.ite (Consumes.pure rfl) ?_
  iterate 2 refine Consumes.ite (index _) ?_
  refine Consumes.ite (Consumes.bind (fun _ _ => parseVaruint32_advances)
    (fun _ _ => parseVaruint32_moves) fun _ _ =>
    Lands.bind (fun _ _ => parseLabels_advances) fun _ _ _ _ => decodeIndex_advances) ?_
  refine Consumes.ite (Consumes.pure rfl) ?_
  refine Consumes.ite (index _) ?_
  refine Consumes.ite (Consumes.bind (fun _ _ => parseVaruint32_advances)
    (fun _ _ => parseVaruint32_moves) fun _ _ =>
    Lands.bindPtr (fun _ => reservedZero_advances) fun _ => Lands.pure _) ?_
  iterate 2 refine Consumes.ite (Consumes.pure rfl) ?_
  iterate 5 refine Consumes.ite (index _) ?_
  cases loadOpcodes.lookup b with
  | some op => exact memarg _
  | none =>
  cases storeOpcodes.lookup b with
  | some op => exact memarg _
  | none =>
  iterate 2 refine Consumes.ite (zero _ _) ?_
  iterate 2
    refine Consumes.ite (Consumes.bind (fun _ _ => parseVarint_advances)
      (fun _ _ => parseVarint_moves) fun _ _ => Lands.pure _) ?_
  iterate 2
    refine Consumes.ite (Consumes.bind (fun _ _ => parseRaw_advances)
      (fun _ _ => parseRaw_moves (by decide)) fun _ _ => Lands.pure _) ?_
  cases numericOpcodes.lookup b with
  | some op => exact Consumes.pure rfl
  | none =>
  refine Consumes.ite (Consumes.moved (fun _ _ hv => (decodeVector_advances hv).1)
    fun _ _ hv => (decodeVector_advances hv).2) ?_
  exact Consumes.ite (Consumes.moved (fun _ _ he => (decodeExt_advances he).1)
    fun _ _ he => (decodeExt_advances he).2) (Consumes.error _)

theorem decodeInstr_advances {o : Options} {p q : WasmCodePtr} {instr : Instr}
    (h : decodeInstr o p = .ok (instr, q)) : Advances p q ∧ p.raw < q.raw := by
  obtain ⟨hadv, hle⟩ := decodeInstr_consumes h
  exact ⟨hadv, by omega⟩

theorem parseItems_advances {σ α : Type}
    {itemParse : Nat → WasmCodePtr → σ → Except VmError (α × WasmCodePtr × σ)}
    (hitem : ∀ idx p s item q s', itemParse idx p s = .ok (item, q, s') → Advances p q)
    {n idx : Nat} {p q : WasmCodePtr} {s s' : σ} {items : List α}
    (h : parseItems itemParse n idx p s = .ok (items, q, s')) : Advances p q := by
  induction n generalizing idx p s items with
  | zero =>
    simp only [parseItems, pure_eq_ok, Prod.mk.injEq] at h
    rw [← h.2.1]
    exact Advances.refl p
  | succ n ih =>
    simp only [parseItems, bind_eq_ok, pure_eq_ok, Prod.exists, Prod.mk.injEq] at h
    obtain ⟨item, mid, s₁, hi, rest, last, s₂, hr, -, rfl, rfl⟩ := h
    exact (hitem idx p s item mid s₁ hi).trans (ih hr)

theorem stateless_advances {α : Type}
    {itemParse : WasmCodePtr → Except VmError (α × WasmCodePtr)}
    (hitem : ∀ p, Lands p (itemParse p)) {idx : Nat} {p q : WasmCodePtr} {s s' : Unit} {item : α}
    (h : stateless itemParse idx p s = .ok (item, q, s')) : Advances p q := by
  simp only [stateless, bind_eq_ok, pure_eq_ok, Prod.exists, Prod.mk.injEq] at h
  obtain ⟨item', mid, hi, -, rfl, -⟩ := h
  exact hitem p item' mid hi

theorem Lands.parseVector {α : Type} {itemParse : WasmCodePtr → Except VmError (α × WasmCodePtr)}
    (hitem : ∀ p, Lands p (itemParse p)) (count : Nat) (p : WasmCodePtr) :
    Lands p (parseVector itemParse count p) := by
  intro items q h
  simp only [EosVm.parseVector, bind_eq_ok, pure_eq_ok, Prod.exists, Prod.mk.injEq] at h
  obtain ⟨items', mid, _, hi, -, rfl⟩ := h
  exact parseItems_advances (fun _ _ _ _ _ _ => stateless_advances hitem) hi

theorem parseSectionImpl_advances {σ α : Type} {maxElements : Nat}
    {elemParse : Nat → WasmCodePtr → σ → Except VmError (α × WasmCodePtr × σ)}
    (helem : ∀ idx p s item q s', elemParse idx p s = .ok (item, q, s') → Advances p q)
    {p q : WasmCodePtr} {s s' : σ} {elems : List α}
    (h : parseSectionImpl maxElements elemParse p s = .ok (elems, q, s')) : Advances p q := by
  simp only [parseSectionImpl, bind_eq_ok, vmAssert_eq_ok, Prod.exists, exists_const] at h
  obtain ⟨count, mid, hc, -, hi⟩ := h
  exact (parseVaruint32_advances hc).trans (parseItems_advances helem hi)

theorem Lands.parsePlainSection {α : Type} {maxElements : Nat}
    {elemParse : WasmCodePtr → Except VmError (α × WasmCodePtr)}
    (helem : ∀ p, Lands p (elemParse p)) (p : WasmCodePtr) :
    Lands p (parsePlainSection maxElements elemParse p) := by
  intro elems q h
  simp only [EosVm.parsePlainSection, bind_eq_ok, pure_eq_ok, Prod.exists, Prod.mk.injEq] at h
  obtain ⟨elems', mid, _, hi, -, rfl⟩ := h
  exact parseSectionImpl_advances (fun _ _ _ _ _ _ => stateless_advances helem) hi

theorem utf8Continuation_lands (p : WasmCodePtr) : Lands p (utf8Continuation p) :=
  Lands.bind (fun _ _ => next_advances) fun _ _ => Lands.assert (Lands.pure _)

theorem validateUtf8CodePoint_lands (p : WasmCodePtr) : Lands p (validateUtf8CodePoint p) := by
  refine Lands.bind (fun _ _ => next_advances) fun ch q => ?_
  refine Lands.ite (Lands.pure _) ?_
  refine Lands.ite (Lands.assert (Lands.bind (utf8Continuation_lands q) fun _ _ =>
    Lands.assert (Lands.pure _))) ?_
  refine Lands.ite (Lands.bind (utf8Continuation_lands q) fun _ _ =>
    Lands.bind (utf8Continuation_lands _) fun _ _ => Lands.assert (Lands.pure _)) ?_
  refine Lands.ite (Lands.bind (utf8Continuation_lands q) fun _ _ =>
    Lands.bind (utf8Continuation_lands _) fun _ _ =>
      Lands.bind (utf8Continuation_lands _) fun _ _ => Lands.assert (Lands.pure _)) ?_
  exact Lands.error _

theorem validateUtf8String_advances {fuel bytes : Nat} {p q : WasmCodePtr}
    (h : validateUtf8String fuel p bytes = .ok q) : Advances p q := by
  induction fuel generalizing p bytes with
  | zero =>
    cases bytes with
    | zero =>
      rw [← pure_eq_ok.mp h]
      exact Advances.refl p
    | succ bytes => cases h
  | succ fuel ih =>
    cases bytes with
    | zero =>
      rw [← pure_eq_ok.mp h]
      exact Advances.refl p
    | succ bytes =>
      obtain ⟨⟨n, mid⟩, hm, hrest⟩ := bind_eq_ok.mp h
      exact (validateUtf8CodePoint_lands p n mid hm).trans (ih hrest)

theorem parseUtf8String_lands (maxSize : Nat) (p : WasmCodePtr) :
    Lands p (parseUtf8String maxSize p) := by
  intro name q h
  simp only [parseUtf8String, bind_eq_ok, pure_eq_ok, vmAssert_eq_ok, Prod.exists, exists_const,
    Prod.mk.injEq] at h
  obtain ⟨len, mid, hl, -, inner, hs, last, hv, -, rfl⟩ := h
  exact (parseVaruint32_advances hl).trans
    (advances_of_shrink hs (validateUtf8String_advances hv))

theorem parseValType_lands (o : Options) (msg : String) (p : WasmCodePtr) :
    Lands p (parseValType o msg p) := by
  refine Lands.bind (fun _ _ => next_advances) fun b q => ?_
  dsimp only
  cases ValType.ofByte b with
  | none => exact Lands.error _
  | some type => exact Lands.assert (Lands.pure _)

theorem parseEndOp_advances {p q : WasmCodePtr} (h : parseEndOp p = .ok q) : Advances p q := by
  simp only [parseEndOp, bind_eq_ok, vmAssert_eq_ok, pure_eq_ok, Prod.exists, exists_const] at h
  obtain ⟨b, mid, hm, -, rfl⟩ := h
  exact next_advances hm

theorem parseInitExpr_lands (o : Options) (type : ValType) (p : WasmCodePtr) :
    Lands p (parseInitExpr o type p) := by
  refine Lands.bind (fun _ _ => next_advances) fun opcode q => ?_
  refine Lands.bind ?_ fun ie last => Lands.bindPtr (fun _ => parseEndOp_advances) fun _ =>
    Lands.pure _
  iterate 2 refine Lands.ite (Lands.bind (fun _ _ => parseVarint_advances) fun _ _ =>
    Lands.assert (Lands.pure _)) ?_
  iterate 2 refine Lands.ite (Lands.bind (fun _ _ => parseRaw_advances) fun _ _ =>
    Lands.assert (Lands.pure _)) ?_
  refine Lands.ite (Lands.assert (Lands.bind (fun _ _ => parseVaruint32_advances) fun _ _ =>
    Lands.assert (Lands.bind (fun _ _ => parseRaw_advances) fun _ _ =>
      Lands.assert (Lands.pure _)))) ?_
  exact Lands.error _

theorem parseFuncType_lands (o : Options) (p : WasmCodePtr) : Lands p (parseFuncType o p) := by
  refine Lands.bind (fun _ _ => next_advances) fun _ _ => Lands.assert ?_
  refine Lands.bind (fun _ _ => parseVaruint32_advances) fun _ _ => ?_
  refine Lands.bind (Lands.parseVector (parseValType_lands o _) _ _) fun _ _ => ?_
  refine Lands.bind (fun _ _ => next_advances) fun _ q => Lands.assert ?_
  exact Lands.ite (Lands.bind (parseValType_lands o _ q) fun _ _ => Lands.pure _) (Lands.pure _)

theorem parseImportEntry_lands (o : Options) (mod : Module) (p : WasmCodePtr) :
    Lands p (parseImportEntry o mod p) := by
  refine Lands.bind (parseUtf8String_lands _ _) fun _ _ => ?_
  refine Lands.bind (parseUtf8String_lands _ _) fun _ _ => ?_
  refine Lands.bind (fun _ _ => next_advances) fun _ _ => ?_
  refine Lands.bind (fun _ _ => parseVaruint32_advances) fun _ _ => ?_
  exact Lands.ite (Lands.assert (Lands.pure _)) (Lands.error _)

theorem parseFlags_lands (o : Options) (p : WasmCodePtr) : Lands p (parseFlags o p) := by
  refine Lands.ite (Lands.bind (fun _ _ => parseVaruint32_advances) fun _ _ => Lands.pure _) ?_
  exact Lands.skip fun _ => Lands.assert
    (Lands.bind (fun _ _ => next_advances) fun _ _ => Lands.pure _)

theorem parseTableType_lands (o : Options) (p : WasmCodePtr) : Lands p (parseTableType o p) := by
  refine Lands.bind (fun _ _ => next_advances) fun _ _ => Lands.assert ?_
  refine Lands.bind (parseFlags_lands o _) fun _ _ => ?_
  refine Lands.bind (fun _ _ => parseVaruint32_advances) fun _ q => ?_
  refine Lands.bind ?_ fun _ _ => Lands.assert (Lands.pure _)
  exact Lands.ite (Lands.bind (fun _ _ => parseVaruint32_advances) fun _ _ =>
    Lands.assert (Lands.pure _)) (Lands.pure _)

theorem parseMemoryType_lands (o : Options) (p : WasmCodePtr) :
    Lands p (parseMemoryType o p) := by
  refine Lands.bind (parseFlags_lands o _) fun _ _ => ?_
  refine Lands.bind (fun _ _ => parseVaruint32_advances) fun _ q => ?_
  refine Lands.assert (Lands.assert ?_)
  exact Lands.ite (Lands.bind (fun _ _ => parseVaruint32_advances) fun _ _ =>
    Lands.assert (Lands.assert (Lands.pure _))) (Lands.pure _)

theorem parseGlobalVariable_advances {o : Options} {idx : Nat} {p q : WasmCodePtr}
    {counter counter' : Nat} {gl : GlobalVariable}
    (h : parseGlobalVariable o idx p counter = .ok (gl, q, counter')) : Advances p q := by
  simp only [parseGlobalVariable, bind_eq_ok, pure_eq_ok, Prod.exists, Prod.mk.injEq] at h
  obtain ⟨type, q₁, h₁, mutability, q₂, h₂, _, -, init, q₃, h₃, -, rfl, -⟩ := h
  exact ((parseValType_lands o _ p _ _ h₁).trans (parseVaruint1_advances h₂)).trans
    (parseInitExpr_lands o _ _ _ _ h₃)

theorem parseExportEntry_lands (o : Options) (mod : Module) (p : WasmCodePtr) :
    Lands p (parseExportEntry o mod p) := by
  refine Lands.bind (parseUtf8String_lands _ _) fun _ _ => ?_
  refine Lands.bind (fun _ _ => next_advances) fun _ _ => ?_
  refine Lands.bind (fun _ _ => parseVaruint32_advances) fun _ _ => ?_
  iterate 3 refine Lands.ite (Lands.assert (Lands.pure _)) ?_
  exact Lands.ite (Lands.assert (Lands.skip fun _ => Lands.assert (Lands.pure _))) (Lands.error _)

theorem parseElemExpr_lands (mod : Module) (fast : List Nat) (p : WasmCodePtr) :
    Lands p (parseElemExpr mod fast p) := by
  refine Lands.bind (fun _ _ => next_advances) fun _ q => ?_
  refine Lands.bind ?_ fun _ _ => Lands.bindPtr (fun _ => parseEndOp_advances) fun _ =>
    Lands.pure _
  refine Lands.ite (Lands.skip fun _ => Lands.assert
    (Lands.bind (fun _ _ => next_advances) fun _ _ => Lands.pure _)) ?_
  exact Lands.ite (Lands.bind (fun _ _ => parseVaruint32_advances) fun _ _ =>
    Lands.assert (Lands.skip fun _ => Lands.pure _)) (Lands.error _)

theorem parseElemIndex_lands (mod : Module) (fast : List Nat) (p : WasmCodePtr) :
    Lands p (parseElemIndex mod fast p) :=
  Lands.bind (fun _ _ => parseVaruint32_advances) fun _ _ =>
    Lands.skip fun _ => Lands.assert (Lands.pure _)

theorem parseElemKind_advances {flags : Nat} {p q : WasmCodePtr}
    (h : parseElemKind flags p = .ok q) : Advances p q := by
  unfold parseElemKind at h
  split at h
  · simp only [bind_eq_ok, vmAssert_eq_ok, pure_eq_ok, Prod.exists, exists_const] at h
    obtain ⟨b, mid, hm, -, rfl⟩ := h
    exact next_advances hm
  split at h
  · simp only [bind_eq_ok, vmAssert_eq_ok, pure_eq_ok, Prod.exists, exists_const] at h
    obtain ⟨b, mid, hm, -, rfl⟩ := h
    exact next_advances hm
  · rw [← pure_eq_ok.mp h]
    exact Advances.refl p

theorem parseElemTable_lands (flags : Nat) (p : WasmCodePtr) : Lands p (parseElemTable flags p) :=
  Lands.ite (fun _ _ => parseVaruint32_advances) (Lands.pure _)

theorem parseElemMode_lands (o : Options) (mod : Module) (flags index : Nat) (p : WasmCodePtr) :
    Lands p (parseElemMode o mod flags index p) := by
  refine Lands.ite (Lands.bind (parseInitExpr_lands o _ p) fun _ _ =>
    Lands.assert (Lands.pure _)) ?_
  exact Lands.ite (Lands.pure _) (Lands.pure _)

theorem parseElemEntries_lands (mod : Module) (fast : List Nat) (flags size : Nat)
    (p : WasmCodePtr) : Lands p (parseElemEntries mod fast flags size p) :=
  Lands.ite (Lands.parseVector (parseElemExpr_lands mod fast) _ _)
    (Lands.parseVector (parseElemIndex_lands mod fast) _ _)

theorem parseElemSegment_lands (o : Options) (mod : Module) (fast : List Nat) (p : WasmCodePtr) :
    Lands p (parseElemSegment o mod fast p) := by
  refine Lands.bind (fun _ _ => parseVaruint32_advances) fun _ _ => ?_
  refine Lands.assert (Lands.assert ?_)
  refine Lands.bind (parseElemTable_lands _ _) fun _ _ => ?_
  refine Lands.bind (parseElemMode_lands o mod _ _ _) fun _ _ => ?_
  refine Lands.bindPtr (fun _ => parseElemKind_advances) fun _ => Lands.skip fun _ => ?_
  refine Lands.bind (fun _ _ => parseVaruint32_advances) fun _ _ => Lands.assert ?_
  exact Lands.bind (parseElemEntries_lands mod fast _ _ _) fun _ _ => Lands.pure _

theorem parseDataHeader_lands (o : Options) (mod : Module) (p : WasmCodePtr) :
    Lands p (parseDataHeader o mod p) := by
  refine Lands.bind (fun _ _ => parseVaruint32_advances) fun _ q => ?_
  refine Lands.ite (Lands.bind (parseInitExpr_lands o _ q) fun _ _ =>
    Lands.assert (Lands.pure _)) ?_
  refine Lands.ite (Lands.pure _) ?_
  exact Lands.ite (Lands.bind (fun _ _ => parseVaruint32_advances) fun _ _ =>
    Lands.bind (parseInitExpr_lands o _ _) fun _ _ => Lands.assert (Lands.pure _)) (Lands.error _)

theorem parseDataSegment_lands (o : Options) (mod : Module) (p : WasmCodePtr) :
    Lands p (parseDataSegment o mod p) := by
  refine Lands.bind (parseDataHeader_lands o mod p) fun _ _ => ?_
  refine Lands.bind (fun _ _ => parseVaruint32_advances) fun _ q => ?_
  refine Lands.assert (Lands.assert ?_)
  intro ds last h
  simp only [bind_eq_ok, pure_eq_ok, Prod.mk.injEq] at h
  obtain ⟨inner, hs, inner', ha, -, rfl⟩ := h
  exact advances_of_shrink hs (advance_advances ha)

theorem parseLocalEntry_advances {o : Options} {idx : Nat} {p q : WasmCodePtr}
    {checker checker' : LocalBytesChecker} {entry : LocalEntry}
    (h : parseLocalEntry o idx p checker = .ok (entry, q, checker')) : Advances p q := by
  simp only [parseLocalEntry, bind_eq_ok, Prod.exists] at h
  obtain ⟨count, q₁, h₁, b, q₂, h₂, h⟩ := h
  refine (parseVaruint32_advances h₁).trans ((next_advances h₂).trans ?_)
  split at h
  · cases h
  · simp only [bind_eq_ok, vmAssert_eq_ok, pure_eq_ok, exists_const, Prod.mk.injEq] at h
    obtain ⟨-, _, -, -, rfl, -⟩ := h
    exact Advances.refl q₂

theorem parseFunctionBody_advances {o : Options} {mod : Module} {idx : Nat} {p q : WasmCodePtr}
    {bodies bodies' : List (WasmCodePtr × LocalBytesChecker)} {fb : FunctionBody}
    (h : parseFunctionBody o mod idx p bodies = .ok (fb, q, bodies')) : Advances p q := by
  simp only [parseFunctionBody, bind_eq_ok, vmAssert_eq_ok, pure_eq_ok, Prod.exists, exists_const,
    Prod.mk.injEq] at h
  obtain ⟨size, q₁, h₁, -, localCnt, q₂, h₂, -, type, -, ft, -, checker, -, locals, q₃, checker',
    h₃, inner, hs, inner₁, h₄, last, -, -, _, inner₂, h₅, -, rfl, -⟩ := h
  have hlocals := parseItems_advances (fun _ _ _ _ _ _ => parseLocalEntry_advances) h₃
  exact (parseVaruint32_advances h₁).trans ((parseVaruint32_advances h₂).trans (hlocals.trans
    (advances_of_shrink hs ((advance_advances h₄).trans (next_advances h₅)))))

theorem parseNameAssoc_lands (p : WasmCodePtr) : Lands p (parseNameAssoc p) :=
  Lands.bind (fun _ _ => parseVaruint32_advances) fun _ _ =>
    Lands.bind (parseUtf8String_lands _ _) fun _ _ => Lands.pure _

theorem parseNameMap_lands (p : WasmCodePtr) : Lands p (parseNameMap p) :=
  Lands.bind (fun _ _ => parseVaruint32_advances) fun _ _ =>
    Lands.parseVector parseNameAssoc_lands _ _

theorem parseIndirectNameAssoc_lands (p : WasmCodePtr) : Lands p (parseIndirectNameAssoc p) :=
  Lands.bind (fun _ _ => parseVaruint32_advances) fun _ _ =>
    Lands.bind (parseNameMap_lands _) fun _ _ => Lands.pure _

theorem consumed_eq_ok {p old q : WasmCodePtr} :
    p.consumed old = .ok q ↔ p.raw = p.bnds ∧ q = p.restore old := by
  simp only [WasmCodePtr.consumed, bind_eq_ok, vmAssert_eq_ok, pure_eq_ok, beq_iff_eq,
    exists_const]
  exact and_congr_right fun _ => eq_comm

theorem parseSubsection_lands {α : Type} {id : UInt8}
    {parse : WasmCodePtr → Except VmError (α × WasmCodePtr)} (hparse : ∀ p, Lands p (parse p))
    (p : WasmCodePtr) : Lands p (parseSubsection id parse p) := by
  refine Lands.skip fun b => Lands.ite ?_ (Lands.pure _)
  refine Lands.bind (fun _ _ => next_advances) fun _ _ => ?_
  refine Lands.bind (fun _ _ => parseVaruint32_advances) fun _ q => ?_
  intro result last h
  simp only [bind_eq_ok, pure_eq_ok, Prod.exists, Prod.mk.injEq] at h
  obtain ⟨inner, hs, value, inner', hv, code, hc, -, rfl⟩ := h
  obtain ⟨-, rfl⟩ := consumed_eq_ok.mp hc
  exact advances_of_shrink hs (hparse inner value inner' hv)

theorem parseNameSection_lands (p : WasmCodePtr) : Lands p (parseNameSection p) := by
  refine Lands.ite (Lands.pure _) ?_
  refine Lands.bind (parseSubsection_lands (parseUtf8String_lands _) p) fun _ _ => ?_
  refine Lands.ite (Lands.pure _) ?_
  refine Lands.bind (parseSubsection_lands parseNameMap_lands _) fun _ _ => ?_
  refine Lands.ite (Lands.pure _) ?_
  refine Lands.bind (parseSubsection_lands (fun _ => Lands.bind
    (fun _ _ => parseVaruint32_advances) fun _ _ =>
      Lands.parseVector parseIndirectNameAssoc_lands _ _) _) fun _ _ => ?_
  exact Lands.ite (Lands.pure _) (Lands.error _)

section

variable {W : CodeWriter}

theorem parseCustom_lands (o : Options) (p : WasmCodePtr) (st : ParserState W) :
    Lands p (parseCustom o p st) := by
  refine Lands.bind (parseUtf8String_lands _ p) fun _ _ => ?_
  exact Lands.ite (Lands.bind (parseNameSection_lands _) fun _ _ => Lands.pure _)
    (Lands.bindPtr (fun _ => advance_advances) fun _ => Lands.pure _)

theorem parseFunctionSection_lands (o : Options) (p : WasmCodePtr) (st : ParserState W) :
    Lands p (parseFunctionSection o p st) :=
  Lands.bind (Lands.parsePlainSection (fun _ _ _ => parseVaruint32_advances) p) fun _ _ =>
    Lands.skip fun _ => Lands.pure _

theorem parseStartSection_lands (p : WasmCodePtr) (st : ParserState W) :
    Lands p (parseStartSection p st) :=
  Lands.bind (fun _ _ => parseVaruint32_advances) fun _ _ =>
    Lands.skip fun _ => Lands.assert (Lands.pure _)

theorem parseCodeSection_lands (o : Options) (p : WasmCodePtr) (st : ParserState W) :
    Lands p (parseCodeSection o p st) := by
  intro st' q h
  simp only [parseCodeSection, bind_eq_ok, vmAssert_eq_ok, pure_eq_ok, Prod.exists, exists_const,
    Prod.mk.injEq] at h
  obtain ⟨elems, mid, bodies, hi, -, st₁, -, -, rfl⟩ := h
  exact parseSectionImpl_advances (fun _ _ _ _ _ _ => parseFunctionBody_advances) hi

theorem parseDataSection_lands (o : Options) (p : WasmCodePtr) (st : ParserState W) :
    Lands p (parseDataSection o p st) :=
  Lands.bind (Lands.parsePlainSection (parseDataSegment_lands o _) p) fun _ _ =>
    Lands.assert (Lands.pure _)

theorem parseGlobalSection_lands (o : Options) (p : WasmCodePtr) (st : ParserState W) :
    Lands p (parseSection o .global p st) := by
  intro st' q h
  simp only [parseSection, bind_eq_ok, pure_eq_ok, Prod.exists, Prod.mk.injEq] at h
  obtain ⟨globals, mid, counter, hi, -, rfl⟩ := h
  exact parseSectionImpl_advances (fun _ _ _ _ _ _ => parseGlobalVariable_advances) hi

/-- Every section parser moves the pointer forward inside the section's bounds. -/
theorem parseSection_lands (o : Options) (id : SectionId) (p : WasmCodePtr) (st : ParserState W) :
    Lands p (parseSection o id p st) := by
  cases id with
  | custom => exact parseCustom_lands o p st
  | type =>
    exact Lands.bind (Lands.parsePlainSection (parseFuncType_lands o) p) fun _ _ => Lands.pure _
  | import_ =>
    exact Lands.bind (Lands.parsePlainSection (parseImportEntry_lands o _) p) fun _ _ =>
      Lands.pure _
  | function => exact parseFunctionSection_lands o p st
  | table =>
    exact Lands.bind (Lands.parsePlainSection (parseTableType_lands o) p) fun _ _ => Lands.pure _
  | memory =>
    exact Lands.bind (Lands.parsePlainSection (parseMemoryType_lands o) p) fun _ _ => Lands.pure _
  | global => exact parseGlobalSection_lands o p st
  | export_ =>
    exact Lands.bind (Lands.parsePlainSection (parseExportEntry_lands o _) p) fun _ _ =>
      Lands.skip fun _ => Lands.pure _
  | start => exact parseStartSection_lands p st
  | element =>
    exact Lands.bind (Lands.parsePlainSection (parseElemSegment_lands o _ _) p) fun _ _ =>
      Lands.pure _
  | code => exact parseCodeSection_lands o p st
  | data => exact parseDataSection_lands o p st
  | dataCount => exact Lands.bind (fun _ _ => parseVaruint32_advances) fun _ _ => Lands.pure _

end

end EosVm
