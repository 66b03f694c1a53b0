import EosVm.Invariants.TrackerRun
import EosVm.Source.BitcodeWriter

/-!
# Room for code

A writer that has room for the bytes still to come accepts every call of the parser. For
`bitcode_writer` the room is what is left of the buffer that `emit_prologue` allocates: no
instruction takes more opcodes than it has bytes, and a `br_table` takes them for its table.
-/

set_option autoImplicit false

namespace EosVm

open Lib

/-- The bytes of an instruction that the writer may need. -/
def Instr.codeRoom : Instr → Nat
  | .brTable labels _ => labels.length + 3
  | _ => 1

/-- The room that a sequence of instructions needs. -/
def codeRoom (instrs : List Instr) : Nat := (instrs.map Instr.codeRoom).sum

@[simp] theorem codeRoom_cons (instr : Instr) (rest : List Instr) :
    codeRoom (instr :: rest) = instr.codeRoom + codeRoom rest := rfl

theorem Instr.one_le_codeRoom (instr : Instr) : 1 ≤ instr.codeRoom := by
  unfold codeRoom
  split <;> omega

theorem length_le_codeRoom (instrs : List Instr) : instrs.length ≤ codeRoom instrs := by
  induction instrs with
  | nil => exact le_refl _
  | cons instr rest ih =>
    have hone := instr.one_le_codeRoom
    simp only [List.length_cons, codeRoom_cons]
    omega

/-- What the immediates between `p` and `q` say about the instruction: the labels of a `br_table`
are at least a byte each, and offsets have 32 bits. -/
def Instr.ReadFrom (p q : WasmCodePtr) : Instr → Prop
  | .brTable labels _ => p.raw + labels.length + 2 ≤ q.raw
  | .load _ _ offset | .store _ _ offset => offset < 2 ^ 32
  | _ => True

/-- The instructions that `r` can yield after the opcode at `p`. -/
def Yields (p : WasmCodePtr) (r : Except VmError (Instr × WasmCodePtr)) : Prop :=
  ∀ instr q, r = .ok (instr, q) → instr.ReadFrom p q

namespace Yields

variable {p : WasmCodePtr}

theorem pure {instr : Instr} {q : WasmCodePtr} (h : instr.ReadFrom p q) :
    Yields p (Pure.pure (instr, q)) := by
  intro instr' q' hq
  obtain ⟨rfl, rfl⟩ := Prod.mk.inj (pure_eq_ok.mp hq)
  exact h

theorem error (e : VmError) : Yields p (.error e) := fun _ _ h => nomatch h

theorem ite {c : Prop} [Decidable c] {a b : Except VmError (Instr × WasmCodePtr)}
    (ha : Yields p a) (hb : Yields p b) : Yields p (if c then a else b) := by
  by_cases h : c
  · rwa [if_pos h]
  · rwa [if_neg h]

theorem bind {α : Type} {r : Except VmError α} {next : α → Except VmError (Instr × WasmCodePtr)}
    (hnext : ∀ x, r = .ok x → Yields p (next x)) : Yields p (r >>= next) := by
  intro instr q h
  obtain ⟨x, hx, hn⟩ := bind_eq_ok.mp h
  exact hnext x hx instr q hn

end Yields

theorem parseLabels_length {n : Nat} {p q : WasmCodePtr} {labels : List Nat}
    (h : parseLabels n p = .ok (labels, q)) : p.raw + labels.length ≤ q.raw := by
  induction n generalizing p labels with
  | zero =>
    simp only [parseLabels, pure_eq_ok, Prod.mk.injEq] at h
    obtain ⟨rfl, rfl⟩ := h
    exact le_refl _
  | succ n ih =>
    simp only [parseLabels, bind_eq_ok, pure_eq_ok, Prod.exists, Prod.mk.injEq] at h
    obtain ⟨label, mid, hm, rest, last, hl, rfl, rfl⟩ := h
    have hmoves := parseVaruint32_moves hm
    have hrest := ih hl
    rw [List.length_cons]
    omega

theorem decodeMemarg_yields {mk : Nat → Nat → Instr} {p mid : WasmCodePtr}
    (hmk : ∀ alignment offset q, offset < 2 ^ 32 → (mk alignment offset).ReadFrom p q) :
    Yields p (decodeMemarg mk mid) :=
  Yields.bind fun _ _ => Yields.bind fun _ hoffset =>
    Yields.pure (hmk _ _ _ (parseVaruint32_lt hoffset))

theorem decodeVector_yields {o : Options} {p mid : WasmCodePtr} :
    Yields p (decodeVector o mid) := by
  refine Yields.bind fun _ _ => Yields.bind fun ⟨sub, code⟩ _ => ?_
  dsimp only
  split
  · exact decodeMemarg_yields fun _ _ _ h => h
  split
  · exact decodeMemarg_yields fun _ _ _ h => h
  split
  · exact Yields.bind fun _ _ => Yields.bind fun _ _ => Yields.bind fun _ _ => Yields.pure trivial
  split
  · exact Yields.bind fun _ _ => Yields.bind fun _ _ => Yields.bind fun _ _ => Yields.pure trivial
  split
  · exact Yields.bind fun _ _ => Yields.pure trivial
  split
  · exact Yields.bind fun _ _ => Yields.pure trivial
  split
  · exact Yields.bind fun _ _ => Yields.pure trivial
  split
  · exact Yields.bind fun _ _ => Yields.pure trivial
  split
  · exact Yields.pure trivial
  · exact Yields.error _

theorem decodeExt_yields {p mid : WasmCodePtr} : Yields p (decodeExt mid) := by
  refine Yields.bind fun ⟨sub, code⟩ _ => ?_
  dsimp only
  split
  · exact Yields.pure trivial
  refine Yields.ite (Yields.bind fun _ _ => Yields.bind fun _ _ => Yields.pure trivial) ?_
  refine Yields.ite (Yields.bind fun _ _ => Yields.pure trivial) ?_
  refine Yields.ite (Yields.bind fun _ _ => Yields.bind fun _ _ => Yields.pure trivial) ?_
  refine Yields.ite (Yields.bind fun _ _ => Yields.pure trivial) ?_
  refine Yields.ite (Yields.bind fun _ _ => Yields.bind fun _ _ => Yields.pure trivial) ?_
  refine Yields.ite (Yields.bind fun _ _ => Yields.pure trivial) ?_
  exact Yields.ite (Yields.bind fun _ _ => Yields.bind fun _ _ => Yields.pure trivial)
    (Yields.error _)

theorem decodeInstr_readFrom {o : Options} {p q : WasmCodePtr} {instr : Instr}
    (h : decodeInstr o p = .ok (instr, q)) : ∃ mid, mid.raw = p.raw + 1 ∧ instr.ReadFrom mid q := by
  obtain ⟨⟨b, mid⟩, hm, h⟩ := bind_eq_ok.mp h
  refine ⟨mid, ?_, ?_⟩
  · obtain ⟨-, -, rfl⟩ := next_eq_ok.mp hm
    rfl
  suffices hl : Yields mid _ from hl instr q h
  have one {α : Type} {r : Except VmError α} {mk : α → Instr × WasmCodePtr}
      (hmk : ∀ x, (mk x).1.ReadFrom mid (mk x).2) : Yields mid (r >>= fun x => pure (mk x)) :=
    Yields.bind fun x _ => Yields.pure (hmk x)
  -- the opcodes in the order of `decodeInstr`
  iterate 2 refine Yields.ite (Yields.pure trivial) ?_
  iterate 3 refine Yields.ite (one fun _ => trivial) ?_
  iterate 2 refine Yields.ite (Yields.pure trivial) ?_
  iterate 2 refine Yields.ite (one fun _ => trivial) ?_
  refine Yields.ite (Yields.bind fun ⟨size, code⟩ hsize =>
    Yields.bind fun ⟨labels, code'⟩ hlabels =>
    Yields.bind fun ⟨default, last⟩ hdefault => Yields.pure ?_) ?_
  · have h₁ := parseVaruint32_moves hsize
    have h₂ := parseLabels_length hlabels
    have h₃ := parseVaruint32_moves hdefault
    simp only [Instr.ReadFrom]
    omega
  refine Yields.ite (Yields.pure trivial) ?_
  refine Yields.ite (one fun _ => trivial) ?_
  refine Yields.ite (Yields.bind fun _ _ => one fun _ => trivial) ?_
  iterate 2 refine Yields.ite (Yields.pure trivial) ?_
  iterate 5 refine Yields.ite (one fun _ => trivial) ?_
  cases loadOpcodes.lookup b with
  | some op => exact decodeMemarg_yields fun _ _ _ h => h
  | none =>
  cases storeOpcodes.lookup b with
  | some op => exact decodeMemarg_yields fun _ _ _ h => h
  | none =>
  iterate 6 refine Yields.ite (one fun _ => trivial) ?_
  cases numericOpcodes.lookup b with
  | some op => exact Yields.pure trivial
  | none =>
  exact Yields.ite decodeVector_yields (Yields.ite decodeExt_yields (Yields.error _))

/-- The immediates of an instruction that decoding cannot yield otherwise. -/
def Instr.OffsetFits : Instr → Prop
  | .load _ _ offset | .store _ _ offset => offset < 2 ^ 32
  | _ => True

/-- A decoded body needs no more room than its bytes. -/
theorem decodeBody_room {o : Options} {bounds fuel : Nat} {code : WasmCodePtr}
    {instrs : List Instr} (hp : BodyPtr code bounds)
    (h : decodeBody o bounds fuel code = .ok instrs) :
    code.offset + codeRoom instrs ≤ bounds ∧ ∀ instr ∈ instrs, instr.OffsetFits := by
  induction fuel generalizing code instrs with
  | zero =>
    have hle := hp.offset_le
    unfold decodeBody at h
    split at h
    · cases h
    · rw [← pure_eq_ok.mp h]
      exact ⟨hle, by simp⟩
  | succ fuel ih =>
    have hle := hp.offset_le
    unfold decodeBody at h
    split at h
    · simp only [bind_eq_ok, pure_eq_ok, Prod.exists] at h
      obtain ⟨instr, next, hd, rest, hrest, rfl⟩ := h
      obtain ⟨hadv, hlt⟩ := decodeInstr_advances hd
      obtain ⟨mid, hmid, hread⟩ := decodeInstr_readFrom hd
      obtain ⟨htail, hfits⟩ := ih (hp.advance hadv) hrest
      have horigin := hp.origin
      have horig := hadv.orig
      have hroom : code.raw + instr.codeRoom ≤ next.raw := by
        cases instr <;> simp only [Instr.codeRoom, Instr.ReadFrom] at hread ⊢ <;> omega
      refine ⟨?_, List.forall_mem_cons.mpr ⟨?_, hfits⟩⟩
      · simp only [WasmCodePtr.offset] at htail ⊢
        simp only [codeRoom_cons]
        omega
      · cases instr <;> first | exact trivial | exact hread
    · rw [← pure_eq_ok.mp h]
      exact ⟨hle, by simp⟩

/-- The depth changes that `encode_depth_change` accepts. -/
def depthLimit : Nat := 0x80000000

/-- With room for the bytes of its call, the writer succeeds and keeps the room for the rest.
`Table` holds while the data of a `br_table` is written. -/
structure CodeWriter.Serves (W : CodeWriter) (Room : Nat → W.State → Prop)
    (Table : W.State → Prop) : Prop where
  less : ∀ {n w}, Room (n + 1) w → Room n w
  emit : ∀ op {n w}, Room (n + 1) w → ∃ w', W.emit op w = .ok w' ∧ Room n w'
  emitEnd : ∀ {n w}, Room n w → ∃ label w', W.emitEnd w = .ok (label, w') ∧ Room n w'
  emitReturn : ∀ rt {change n w}, Room (n + 1) w → change < depthLimit →
    ∃ branch w', W.emitReturn change rt w = .ok (branch, w') ∧ Room n w'
  emitLoop : ∀ {n w}, Room n w → ∃ label w', W.emitLoop w = .ok (label, w') ∧ Room n w'
  emitIf : ∀ {n w}, Room (n + 1) w → ∃ branch w', W.emitIf w = .ok (branch, w') ∧ Room n w'
  emitElse : ∀ ifLoc {n w}, Room (n + 1) w →
    ∃ branch w', W.emitElse ifLoc w = .ok (branch, w') ∧ Room n w'
  emitBr : ∀ rt {change n w}, Room (n + 1) w → change < depthLimit →
    ∃ branch w', W.emitBr change rt w = .ok (branch, w') ∧ Room n w'
  emitBrIf : ∀ rt {change n w}, Room (n + 1) w → change < depthLimit →
    ∃ branch w', W.emitBrIf change rt w = .ok (branch, w') ∧ Room n w'
  emitBrTable : ∀ {size n w}, Room (n + 1 + (size + 3)) w →
    ∃ handler w', W.emitBrTable size w = .ok (handler, w') ∧ Room (n + 1) w' ∧ Table w'
  emitCase : ∀ handler rt {change n w}, Room n w → Table w → change < depthLimit →
    ∃ branch handler' w', W.emitCase handler change rt w = .ok (branch, handler', w') ∧
      Room n w' ∧ Table w'
  emitDefault : ∀ handler rt {change n w}, Room n w → Table w → change < depthLimit →
    ∃ branch w', W.emitDefault handler change rt w = .ok (branch, w') ∧ Room n w'
  fixBranch : ∀ branch label {n w}, Room n w →
    ∃ w', W.fixBranch branch label w = .ok w' ∧ Room n w' ∧ (Table w → Table w')

namespace BitcodeState

/-- The buffer has `n` slots left. -/
def Room (n : Nat) (s : BitcodeState) : Prop := s.opIndex + n ≤ s.fb.length

/-- The canary after the data of a `br_table`. -/
def Canary (s : BitcodeState) : Prop := s.fb[s.opIndex]? = some .error

variable {s : BitcodeState} {n : Nat}

theorem Room.append (h : s.Room (n + 1)) (op : Opcode) :
    ∃ s', s.append op = .ok s' ∧ s'.Room n ∧ s'.opIndex = s.opIndex + 1 ∧
      s'.fb.length = s.fb.length := by
  have hlt : s.opIndex < s.fb.length := by
    unfold Room at h
    omega
  refine ⟨{ s with fb := s.fb.set s.opIndex op, opIndex := s.opIndex + 1 }, ?_, ?_, rfl, ?_⟩
  · simp only [BitcodeState.append, bind_eq_ok, vmAssert_eq_ok, pure_eq_ok, exists_const,
      decide_eq_true_eq, and_true]
    exact hlt
  · unfold Room at h ⊢
    simp only [List.length_set]
    omega
  · simp only [List.length_set]

theorem encodeDepthChange_ok {change : Nat} (h : change < depthLimit) (rt : Option ValType) :
    ∃ data, encodeDepthChange change rt = .ok data := by
  have hassert : vmAssert (change < 0x80000000) (.wasmParse "Sorry, not implemented.") = .ok () :=
    vmAssert_eq_ok.mpr (decide_eq_true h)
  unfold encodeDepthChange
  rw [hassert, ok_bind]
  cases rt <;> exact ⟨_, rfl⟩

theorem reserve_length (fb : List Opcode) (slot : Nat) (n : Nat) :
    (reserve fb slot n).length = fb.length := by
  induction n generalizing fb slot with
  | zero => rfl
  | succ n ih => rw [reserve, ih, List.length_set]

theorem tableSlots_le (size : Nat) : tableSlots size ≤ size + 2 := by
  unfold tableSlots
  omega

theorem Room.emitBrTable {size : Nat} (h : s.Room (n + 1 + (size + 3))) :
    ∃ handler s', s.emitBrTable size = .ok (handler, s') ∧ s'.Room (n + 1) ∧ s'.Canary := by
  have hslots := tableSlots_le size
  obtain ⟨s₁, h₁, hroom, hindex, hlen⟩ :=
    Room.append (n := n + 1 + (size + 2)) h (.brTable size)
  unfold Room at hroom
  have hfirst : s₁.opIndex < s₁.fb.length := by omega
  have hlast : s₁.opIndex + tableSlots size < s₁.fb.length := by omega
  simp only [BitcodeState.emitBrTable, h₁, ok_bind, bind_eq_ok, vmAssert_eq_ok, pure_eq_ok,
    exists_const, decide_eq_true_eq, Prod.mk.injEq]
  refine ⟨_, _, ⟨hfirst, hlast, rfl, rfl⟩, ?_, ?_⟩
  · unfold Room
    simp only [List.length_set, reserve_length]
    omega
  · unfold Canary
    simp only [List.getElem?_set, reserve_length, if_pos hlast, if_true]

/-- A store through a pointer into the code keeps the canary, which is no branch. -/
theorem Canary.modify {f : Opcode → Opcode} (hf : f .error = .error) {slot : Nat}
    (h : s.Canary) : Canary { s with fb := s.fb.modify slot f } := by
  unfold Canary at h ⊢
  simp only [List.getElem?_modify, h]
  split
  · exact congrArg some hf
  · rfl

theorem Room.modify {f : Opcode → Opcode} {slot : Nat} (h : s.Room n) :
    Room n { s with fb := s.fb.modify slot f } := by
  unfold Room at h ⊢
  simp only [List.length_modify]
  exact h

theorem Room.emitCase {change : Nat} (h : s.Room n) (hc : s.Canary) (hlt : change < depthLimit)
    (handler : BrTableParser) (rt : Option ValType) :
    ∃ branch handler' s', s.emitCase handler change rt = .ok (branch, handler', s') ∧
      s'.Room n ∧ s'.Canary := by
  obtain ⟨data, hdata⟩ := encodeDepthChange_ok hlt rt
  simp only [BitcodeState.emitCase, hdata, ok_bind, pure_eq_ok, Prod.mk.injEq]
  exact ⟨_, _, _, ⟨rfl, rfl, rfl⟩, h.modify, hc.modify rfl⟩

theorem Room.patch {branch : BitcodeBranch} {pc : Nat} (h : s.Room n) :
    Room n (s.patch branch pc) ∧ (s.Canary → Canary (s.patch branch pc)) := by
  cases branch with
  | instr slot => exact ⟨h.modify, fun hc => hc.modify rfl⟩
  | entry slot k => exact ⟨h.modify, fun hc => hc.modify rfl⟩

/-- A branch that is one opcode. -/
theorem Room.branch {change : Nat} {rt : Option ValType} {op : Nat → Opcode}
    (h : s.Room (n + 1)) (hlt : change < depthLimit) :
    ∃ branch s', (do
      let data ← encodeDepthChange change rt
      let s' ← s.append (op data)
      pure (BitcodeBranch.instr s.opIndex, s')) = .ok (branch, s') ∧ s'.Room n := by
  obtain ⟨data, hdata⟩ := encodeDepthChange_ok hlt rt
  obtain ⟨s', hs', hroom, -⟩ := h.append (op data)
  simp only [hdata, ok_bind, hs', pure_eq_ok, Prod.mk.injEq]
  exact ⟨_, _, ⟨rfl, rfl⟩, hroom⟩

end BitcodeState

theorem bitcodeWriter_serves : bitcodeWriter.Serves BitcodeState.Room BitcodeState.Canary where
  less := by
    intro n w h
    unfold BitcodeState.Room at h ⊢
    omega
  emit := by
    intro op n w h
    change ∃ w', BitcodeState.emit op w = .ok w' ∧ w'.Room n
    unfold BitcodeState.emit
    split
    · refine ⟨w, rfl, ?_⟩
      unfold BitcodeState.Room at h ⊢
      omega
    · obtain ⟨w', hw', hroom, -⟩ := h.append _
      exact ⟨w', hw', hroom⟩
  emitEnd := fun {_ w} h => ⟨w.opIndex, w, rfl, h⟩
  emitReturn := fun _ _ _ _ h hlt => h.branch hlt
  emitLoop := fun {_ w} h => ⟨w.opIndex, w, rfl, h⟩
  emitIf := by
    intro n w h
    obtain ⟨w', hw', hroom, -⟩ := BitcodeState.Room.append h (.if_ 0)
    refine ⟨.instr w.opIndex, w', ?_, hroom⟩
    simp only [bitcodeWriter, BitcodeState.emitIf, hw', ok_bind]
    rfl
  emitElse := by
    intro ifLoc n w h
    obtain ⟨w', hw', hroom, -⟩ := BitcodeState.Room.append h (.else_ 0)
    refine ⟨.instr w.opIndex, w'.patch ifLoc (w'.baseOffset + w'.opIndex), ?_, hroom.patch.1⟩
    simp only [bitcodeWriter, BitcodeState.emitElse, hw', ok_bind]
    rfl
  emitBr := fun _ _ _ _ h hlt => h.branch hlt
  emitBrIf := fun _ _ _ _ h hlt => h.branch hlt
  emitBrTable := fun h => h.emitBrTable
  emitCase := fun handler rt _ _ _ h hc hlt => h.emitCase hc hlt handler rt
  emitDefault := by
    intro handler rt change n w h hc hlt
    obtain ⟨branch, handler', w', hw', hroom, hcanary⟩ :=
      BitcodeState.Room.emitCase h hc hlt handler rt
    refine ⟨branch, w', ?_, hroom⟩
    simp only [bitcodeWriter, BitcodeState.emitDefault, hw', ok_bind, bind_eq_ok, vmAssert_eq_ok,
      pure_eq_ok, exists_const, beq_iff_eq, and_true]
    exact hcanary
  fixBranch := fun _ _ _ _ h => ⟨_, rfl, h.patch.1, h.patch.2⟩

end EosVm
