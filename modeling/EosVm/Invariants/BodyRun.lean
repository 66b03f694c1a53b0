import EosVm.Invariants.Pointer
import Mathlib.Logic.Relation

/-!
# Function bodies as instruction sequences

The byte loop of `parse_function_body_code` is the same as decoding the whole body first and then
processing the instructions one by one. Every later argument about accepted bodies is an induction
over that instruction sequence.
-/

set_option autoImplicit false

namespace EosVm

open Lib

variable {W : CodeWriter}

/-- The pointer of a function body: `bounds` bytes from its origin. -/
structure BodyPtr (code : WasmCodePtr) (bounds : Nat) : Prop where
  origin : code.orig ≤ code.raw
  bounded : code.raw ≤ code.bnds
  size : code.bnds = code.orig + bounds

theorem BodyPtr.make (buf : List UInt8) (rp size : Nat) :
    BodyPtr (WasmCodePtr.make buf rp size) size :=
  ⟨le_refl _, Nat.le_add_right _ _, rfl⟩

theorem BodyPtr.advance {p q : WasmCodePtr} {bounds : Nat} (hp : BodyPtr p bounds)
    (h : Advances p q) : BodyPtr q bounds where
  origin := by
    have := hp.origin
    have := h.raw
    rw [h.orig]
    omega
  bounded := h.bounded hp.bounded
  size := by rw [h.bnds, h.orig, hp.size]

theorem BodyPtr.offset_le {p : WasmCodePtr} {bounds : Nat} (hp : BodyPtr p bounds) :
    p.offset ≤ bounds := by
  have := hp.bounded
  rw [hp.size] at this
  unfold WasmCodePtr.offset
  omega

/-- An instruction leaves fewer bytes to read. -/
theorem decodeInstr_offset_lt {o : Options} {p q : WasmCodePtr} {instr : Instr}
    (horig : p.orig ≤ p.raw) (h : decodeInstr o p = .ok (instr, q)) : p.offset < q.offset := by
  obtain ⟨hadv, hlt⟩ := decodeInstr_advances h
  unfold WasmCodePtr.offset
  rw [hadv.orig]
  omega

/-- Fuel for every remaining byte is enough: more of it changes nothing. -/
theorem parseBodyLoop_fuel {env : BodyEnv} {bounds fuel k : Nat} {code : WasmCodePtr}
    {s : BodyState W} (horig : code.orig ≤ code.raw) (h : bounds - code.offset ≤ fuel) :
    parseBodyLoop env bounds (fuel + k) code s = parseBodyLoop env bounds fuel code s := by
  induction fuel generalizing code s with
  | zero =>
    have hdone : ¬ code.offset < bounds := by omega
    unfold parseBodyLoop
    rw [if_neg hdone, if_neg hdone]
  | succ fuel ih =>
    rw [Nat.succ_add]
    unfold parseBodyLoop
    by_cases hlt : code.offset < bounds
    · rw [if_pos hlt, if_pos hlt]
      refine bind_congr fun _ => ?_
      cases hd : decodeInstr env.options code with
      | error e => rfl
      | ok decoded =>
        obtain ⟨instr, next⟩ := decoded
        have hadv := (decodeInstr_advances hd).1
        have hoff := decodeInstr_offset_lt horig hd
        have hnext : next.orig ≤ next.raw := by
          rw [hadv.orig]
          exact le_trans horig hadv.raw
        change (processInstr env (next.offset == bounds) instr s >>= _) =
          (processInstr env (next.offset == bounds) instr s >>= _)
        exact bind_congr fun s₁ => ih hnext (by omega)
    · rw [if_neg hlt, if_neg hlt]

/-- The instruction loop over a decoded body. -/
def runInstrs (env : BodyEnv) : List Instr → BodyState W → Except VmError (BodyState W)
  | [], s => pure s
  | instr :: rest, s => do
    vmAssert (s.pcStack.length ≤ env.options.maxNestedStructures)
      (.wasmParse "nested structures validation failure")
    let s ← processInstr env rest.isEmpty instr s
    runInstrs env rest s

/-- The end of a body is where no instruction is left. -/
theorem decodeBody_isEmpty {o : Options} {bounds fuel : Nat} {code : WasmCodePtr}
    {instrs : List Instr} (hp : BodyPtr code bounds)
    (h : decodeBody o bounds fuel code = .ok instrs) :
    (code.offset == bounds) = instrs.isEmpty := by
  have hle := hp.offset_le
  unfold decodeBody at h
  by_cases hlt : code.offset < bounds
  · rw [if_pos hlt] at h
    cases fuel with
    | zero => cases h
    | succ fuel =>
      simp only [bind_eq_ok, pure_eq_ok, Prod.exists] at h
      obtain ⟨instr, next, -, rest, -, rfl⟩ := h
      have hne : code.offset ≠ bounds := by omega
      simpa using hne
  · rw [if_neg hlt, pure_eq_ok] at h
    have heq : code.offset = bounds := by omega
    simp [heq, ← h]

/-- Parsing a body succeeds exactly when it decodes and its instructions are accepted in order. -/
theorem parseBodyLoop_eq_ok {env : BodyEnv} {bounds fuel : Nat} {code : WasmCodePtr}
    {s s' : BodyState W} (hp : BodyPtr code bounds) :
    parseBodyLoop env bounds fuel code s = .ok s' ↔
      ∃ instrs, decodeBody env.options bounds fuel code = .ok instrs ∧
        runInstrs env instrs s = .ok s' := by
  induction fuel generalizing code s with
  | zero =>
    unfold parseBodyLoop decodeBody
    by_cases hlt : code.offset < bounds
    · rw [if_pos hlt, if_pos hlt]
      simp
    · rw [if_neg hlt, if_neg hlt]
      simp [runInstrs]
  | succ fuel ih =>
    unfold parseBodyLoop decodeBody
    by_cases hlt : code.offset < bounds
    · rw [if_pos hlt, if_pos hlt]
      simp only [bind_eq_ok, pure_eq_ok, vmAssert_eq_ok, Prod.exists, exists_const]
      constructor
      · rintro ⟨hn, instr, next, hd, s₁, hs, hrest⟩
        have hnext := hp.advance (decodeInstr_advances hd).1
        obtain ⟨rest, hr, hrun⟩ := (ih hnext).mp hrest
        refine ⟨instr :: rest, ⟨instr, next, hd, rest, hr, rfl⟩, ?_⟩
        simp only [runInstrs, bind_eq_ok, vmAssert_eq_ok, exists_const]
        rw [decodeBody_isEmpty hnext hr] at hs
        exact ⟨hn, s₁, hs, hrun⟩
      · rintro ⟨_, ⟨instr, next, hd, rest, hr, rfl⟩, hrun⟩
        have hnext := hp.advance (decodeInstr_advances hd).1
        simp only [runInstrs, bind_eq_ok, vmAssert_eq_ok, exists_const] at hrun
        obtain ⟨hn, s₁, hs, hrest⟩ := hrun
        rw [← decodeBody_isEmpty hnext hr] at hs
        exact ⟨hn, instr, next, hd, s₁, hs, (ih hnext).mpr ⟨rest, hr, hrest⟩⟩
    · rw [if_neg hlt, if_neg hlt]
      simp [runInstrs]

/-- A point of the parse of one body: the instructions still to come and the state. -/
structure BodyPoint (W : CodeWriter) where
  rest : List Instr
  state : BodyState W

/-- The point where a decoded body starts. -/
def bodyStart (env : BodyEnv) (checker : LocalBytesChecker) (writer : W.State) (nested : Nat)
    (instrs : List Instr) : BodyPoint W :=
  ⟨instrs, BodyState.init env checker writer nested⟩

/-- One instruction. -/
def BodyStep (env : BodyEnv) (p q : BodyPoint W) : Prop :=
  ∃ instr, p.rest = instr :: q.rest ∧
    p.state.pcStack.length ≤ env.options.maxNestedStructures ∧
    processInstr env q.rest.isEmpty instr p.state = .ok q.state

/-- Any number of instructions. -/
def BodyReaches (env : BodyEnv) : BodyPoint W → BodyPoint W → Prop :=
  Relation.ReflTransGen (BodyStep env)

/-- Every instruction of an accepted body is processed at a point that the run goes through. -/
theorem runInstrs_split {env : BodyEnv} {pre post : List Instr} {instr : Instr}
    {s s' : BodyState W} (h : runInstrs env (pre ++ instr :: post) s = .ok s') :
    ∃ s₁ s₂, BodyReaches env ⟨pre ++ instr :: post, s⟩ ⟨instr :: post, s₁⟩ ∧
      BodyStep env ⟨instr :: post, s₁⟩ ⟨post, s₂⟩ ∧ runInstrs env post s₂ = .ok s' := by
  induction pre generalizing s with
  | nil =>
    simp only [List.nil_append, runInstrs, bind_eq_ok, vmAssert_eq_ok, exists_const,
      decide_eq_true_eq] at h
    obtain ⟨hn, s₂, hs, hrest⟩ := h
    exact ⟨s, s₂, Relation.ReflTransGen.refl, ⟨instr, rfl, hn, hs⟩, hrest⟩
  | cons first pre ih =>
    simp only [List.cons_append, runInstrs, bind_eq_ok, vmAssert_eq_ok, exists_const,
      decide_eq_true_eq] at h
    obtain ⟨hn, mid, hs, hrest⟩ := h
    obtain ⟨s₁, s₂, hreach, hstep, hrun⟩ := ih hrest
    refine ⟨s₁, s₂, ?_, hstep, hrun⟩
    exact Relation.ReflTransGen.head ⟨first, rfl, hn, hs⟩ hreach

/-- An accepted body reaches its end. -/
theorem runInstrs_reaches {env : BodyEnv} {instrs : List Instr} {s s' : BodyState W}
    (h : runInstrs env instrs s = .ok s') : BodyReaches env ⟨instrs, s⟩ ⟨[], s'⟩ := by
  induction instrs generalizing s with
  | nil =>
    rw [runInstrs, pure_eq_ok] at h
    rw [h]
    exact Relation.ReflTransGen.refl
  | cons first rest ih =>
    simp only [runInstrs, bind_eq_ok, vmAssert_eq_ok, exists_const, decide_eq_true_eq] at h
    obtain ⟨hn, mid, hs, hrest⟩ := h
    exact Relation.ReflTransGen.head ⟨first, rfl, hn, hs⟩ (ih hrest)

/-- A run that reaches the end is an accepted body. -/
theorem runInstrs_of_reaches {env : BodyEnv} {p : BodyPoint W} {s' : BodyState W}
    (h : BodyReaches env p ⟨[], s'⟩) : runInstrs env p.rest p.state = .ok s' := by
  induction h using Relation.ReflTransGen.head_induction_on with
  | refl => rfl
  | @head p q hstep _ ih =>
    obtain ⟨instr, hrest, hn, hproc⟩ := hstep
    simp only [hrest, runInstrs, bind_eq_ok, vmAssert_eq_ok, exists_const, decide_eq_true_eq]
    exact ⟨hn, q.state, hproc, ih⟩

theorem BodyStep.unique {env : BodyEnv} {p q q' : BodyPoint W} (h : BodyStep env p q)
    (h' : BodyStep env p q') : q = q' := by
  obtain ⟨instr, hrest, -, hproc⟩ := h
  obtain ⟨instr', hrest', -, hproc'⟩ := h'
  obtain ⟨rfl, heq⟩ := List.cons.inj (hrest.symm.trans hrest')
  rw [heq, hproc'] at hproc
  cases q
  cases q'
  simp only [BodyPoint.mk.injEq] at heq ⊢
  exact ⟨heq, (Except.ok.inj hproc).symm⟩

/-- A run that reaches the end of the body goes through every point it reaches. -/
theorem BodyReaches.to_end {env : BodyEnv} {start p : BodyPoint W} {s : BodyState W}
    (hp : BodyReaches env start p) (hend : BodyReaches env start ⟨[], s⟩) :
    BodyReaches env p ⟨[], s⟩ := by
  have hunique : Relator.RightUnique (BodyStep (W := W) env) := fun _ _ _ h h' => h.unique h'
  rcases Relation.ReflTransGen.total_of_right_unique hunique hp hend with h | h
  · exact h
  · -- nothing is read after the end
    rcases Relation.ReflTransGen.cases_head h with heq | ⟨next, ⟨instr, hrest, -⟩, -⟩
    · rw [heq]
      exact Relation.ReflTransGen.refl
    · cases hrest

/-- What holds at the start and is kept by every instruction holds at every point reached. -/
theorem BodyReaches.invariant {env : BodyEnv} {P : BodyPoint W → Prop}
    (hstep : ∀ p q, P p → BodyStep env p q → P q) {p q : BodyPoint W}
    (h : BodyReaches env p q) (hp : P p) : P q := by
  induction h with
  | refl => exact hp
  | tail _ hs ih => exact hstep _ _ ih hs

end EosVm
