import EosVm.Guarantees.JitIntOps
import EosVm.Source.Peephole

/-!
# Folding preserves meaning

Code of an expression that is taken back to fold its operations into the next instruction: whatever
was emitted before, the code leaves the values that WebAssembly defines.
-/

set_option autoImplicit false

namespace EosVm

open Lib Lib.X86

namespace Peephole

/-- The slots lie one after the other in the code. -/
structure WellFormed (st : Peephole) : Prop where
  recent1 : ∀ r ∈ st.recent1, r.start ≤ r.stop ∧ r.stop ≤ st.code.length
  recent0 : ∀ r ∈ st.recent0, r.start ≤ r.stop ∧ ∃ r' ∈ st.recent1, r.stop ≤ r'.start

variable {st : Peephole}

theorem WellFormed.initial : WellFormed {} := ⟨by simp, by simp⟩

theorem chain_single (r0 r1 : Option RecentSlot) (stop : Nat) :
    chain [r1] stop = (chain [r1, r0] stop).take 1 := by
  rcases r1 with _ | ⟨start, stop', _ | op⟩
  · rfl
  · rfl
  · simp only [chain]
    split_ifs <;> rfl

theorem chain_none (r : Option RecentSlot) (stop : Nat) :
    chain [r, none] stop = chain [r] stop := by
  rcases r with _ | ⟨start, stop', _ | op⟩ <;> rfl

theorem chain_eq_nil {slots : List (Option RecentSlot)} {r : Option RecentSlot} {stop : Nat}
    (h : ∀ s ∈ r, s.stop ≠ stop) : chain (r :: slots) stop = [] := by
  rcases r with _ | ⟨start, stop', _ | op⟩
  · rfl
  · rfl
  · exact if_neg (h _ rfl)

/-- The slot of an operation that can be taken back. -/
theorem recents_cons {entry : Nat × RecentOp} {rest : List (Nat × RecentOp)}
    (h : st.recents = entry :: rest) :
    st.recent1 = some ⟨entry.1, st.code.length, some entry.2⟩ ∧
      rest = chain [st.recent0] entry.1 := by
  rcases hr : st.recent1 with _ | ⟨start, stop', _ | op⟩
  · simp [recents, hr, chain] at h
  · simp [recents, hr, chain] at h
  · simp only [recents, hr, chain] at h
    split_ifs at h with hstop
    obtain ⟨rfl, rfl⟩ := List.cons.inj h
    exact ⟨by rw [hstop], rfl⟩

theorem WellFormed.takeBack {n : Nat} (h : WellFormed st) (hn : n ≤ st.recents.length) :
    WellFormed (st.takeBack n) := by
  induction n generalizing st with
  | zero => exact h
  | succ n ih =>
    cases hr : st.recents with
    | nil =>
      rw [hr] at hn
      exact absurd hn (Nat.not_succ_le_zero n)
    | cons entry rest =>
      obtain ⟨hslot, hrest⟩ := recents_cons hr
      have hle := h.recent1 _ hslot
      have hlength : (st.code.take entry.1).length = entry.1 :=
        List.length_take_of_le (Nat.le_trans hle.1 hle.2)
      have hwf : WellFormed ⟨st.code.take entry.1, none, st.recent0⟩ := by
        refine ⟨fun r hr0 => ?_, by simp⟩
        obtain ⟨hstart, r', hr', hstop⟩ := h.recent0 r hr0
        obtain rfl := Option.some.inj (hslot.symm.trans hr')
        exact ⟨hstart, hlength.symm ▸ hstop⟩
      have hsame : (⟨st.code.take entry.1, none, st.recent0⟩ : Peephole).recents = rest := by
        rw [recents, hlength, hrest]
        exact chain_none ..
      rw [Peephole.takeBack, hslot]
      refine ih hwf ?_
      rw [hsame]
      rw [hr] at hn
      exact Nat.le_of_succ_le_succ hn

/-- The slot after operations are taken back ends in the code that is left. -/
theorem WellFormed.stop_le {n : Nat} (h : WellFormed st) (hn : n ≤ st.recents.length) :
    ∀ r ∈ (st.takeBack n).recent1, r.stop ≤ (st.takeBack n).code.length :=
  fun r hr => ((h.takeBack hn).recent1 r hr).2

theorem pushRecentOp_of_lt {start : Nat} {op : Option RecentOp}
    (h : ∀ r ∈ st.recent1, r.stop < st.code.length) :
    st.pushRecentOp start op = ⟨st.code, st.recent1, some ⟨start, st.code.length, op⟩⟩ := by
  have hne : st.recent1.map (·.stop) ≠ some st.code.length := by
    intro heq
    obtain ⟨r, hr, hstop⟩ := Option.map_eq_some_iff.mp heq
    exact absurd hstop (Nat.ne_of_lt (h r hr))
  rw [pushRecentOp, if_neg hne]

theorem pushRecentOp_pushRecentOp {start start' : Nat} {op op' : Option RecentOp} :
    (st.pushRecentOp start op).pushRecentOp start' op' = st.pushRecentOp start' op' := by
  simp [pushRecentOp]

end Peephole

/-- The code leaves its values on the stack, except those of the operations after it, or the
processor traps. -/
def Holds (code : List (Lib.X86.Instr JitHandler)) (m : Machine) (stack : List (BitVec 64))
    (folded : List RecentOp) : Option (List (BitVec 64)) → Prop
  | some slots => ∃ m', Runs code (.run 0 m) (.run code.length m') ∧
      OperandsAt m' stack folded slots ∧ SameRest m m'
  | none => ∃ m', Runs code (.run 0 m) (.fault .divide m')

namespace Peephole

/-- The code does so however many operations are taken back. -/
def Leaves (st : Peephole) (m : Machine) (stack : List (BitVec 64))
    (result : Option (List (BitVec 64))) : Prop :=
  ∀ n ≤ st.recents.length,
    Holds (st.takeBack n).code m stack ((st.recents.map (·.2)).take n) result

end Peephole

section Moves

variable {m : Machine} {stack : List (BitVec 64)}

theorem OperandsAt.drop {folded : List RecentOp} {operands slots : List (BitVec 64)}
    (hlength : folded.length ≤ operands.length)
    (h : OperandsAt m stack folded (operands ++ slots)) :
    OperandsAt m (slots ++ stack) folded operands := by
  induction folded generalizing operands with
  | nil =>
    have hstack : m.stack = operands ++ slots ++ stack := h
    rw [List.append_assoc] at hstack
    exact hstack
  | cons op folded ih =>
    cases operands with
    | nil => exact absurd hlength (Nat.not_succ_le_zero _)
    | cons slot operands =>
      obtain ⟨havail, hrest⟩ := h
      exact ⟨havail, ih (Nat.le_of_succ_le_succ hlength) hrest⟩

/-- A fault is not undone by the code that follows. -/
theorem Holds.fault_append {code : List (Lib.X86.Instr JitHandler)} {folded folded' : List RecentOp}
    (h : Holds code m stack folded none) (rest : List (Lib.X86.Instr JitHandler)) :
    Holds (code ++ rest) m stack folded' none := by
  obtain ⟨m', hruns⟩ := h
  exact ⟨m', hruns.append rest⟩

end Moves

namespace Peephole

section Steps

variable {st : Peephole} {m : Machine} {stack : List (BitVec 64)}

theorem emitRecent_eq (h : WellFormed st) (o : Op) (op : RecentOp) :
    st.emitRecent o op = ⟨st.code ++ [.op o, .op (.push .rax)], st.recent1,
      some ⟨st.code.length, st.code.length + 2, some op⟩⟩ := by
  have hcode : ((st.append [o]).append [.push .rax]).code = st.code ++
      [.op o, .op (.push .rax)] := by
    simp [append]
  rw [emitRecent, emitPush, pushRecentOp_pushRecentOp, pushRecentOp_of_lt, hcode]
  · simp [append]
  · intro r hr
    rw [hcode, List.length_append]
    exact Nat.lt_of_le_of_lt (h.recent1 r hr).2 (Nat.lt_add_of_pos_right (by simp))

theorem WellFormed.emitRecent (h : WellFormed st) (o : Op) (op : RecentOp) :
    WellFormed (st.emitRecent o op) := by
  rw [emitRecent_eq h]
  refine ⟨fun r hr => ?_, fun r hr => ?_⟩
  · obtain rfl := Option.some.inj hr
    simp
  · have hle := h.recent1 r hr
    exact ⟨hle.1, _, rfl, hle.2⟩

theorem recents_emitRecent (h : WellFormed st) (o : Op) (op : RecentOp) :
    (st.emitRecent o op).recents = (st.code.length, op) :: st.recents.take 1 := by
  rw [emitRecent_eq h, recents, recents, ← chain_single]
  simp [chain]

theorem takeBack_emitRecent (h : WellFormed st) (o : Op) (op : RecentOp) {n : Nat}
    (hn : n ≤ (st.recents.take 1).length) :
    ((st.emitRecent o op).takeBack (n + 1)).code = (st.takeBack n).code := by
  rw [emitRecent_eq h]
  simp only [takeBack, List.take_left]
  rcases n with _ | n
  · rfl
  · cases hr : st.recents with
    | nil =>
      rw [hr] at hn
      exact absurd hn (Nat.not_succ_le_zero n)
    | cons entry rest =>
      obtain ⟨hslot, -⟩ := recents_cons hr
      obtain rfl : n = 0 := by
        rw [hr] at hn
        simpa using hn
      simp only [takeBack, hslot]

/-- An operation that can be folded: what it leaves on the stack is available before it. -/
theorem Leaves.emitRecent (hwf : WellFormed st) {o : Op} {op : RecentOp} {slot : BitVec 64}
    {result : Option (List (BitVec 64))} (h : st.Leaves m stack result)
    (hexec : ∀ m₁, SameRest m m₁ → Available m₁ slot op ∧
      ∃ m₂, o.exec m₁ = .ok m₂ ∧ m₂.regs .rax = slot ∧ m₂.stack = m₁.stack ∧ SameRest m₁ m₂) :
    (st.emitRecent o op).Leaves m stack (result.map (slot :: ·)) := by
  intro n hn
  rw [recents_emitRecent hwf] at hn ⊢
  rcases n with _ | n
  · have hcode : ((st.emitRecent o op).takeBack 0).code = st.code ++ [.op o, .op (.push .rax)] := by
      rw [emitRecent_eq hwf]
      rfl
    rw [hcode]
    have hstart := h 0 (Nat.zero_le _)
    cases result with
    | none => exact hstart.fault_append _
    | some slots =>
      obtain ⟨m₁, hruns, hstack, hrest⟩ := hstart
      obtain ⟨-, m₂, ho, hrax, hstack₂, hrest₂⟩ := hexec m₁ hrest
      have hops : HasOps (st.code ++ [.op o, .op (.push .rax)]) st.code.length [o, .push .rax] := by
        intro i o' ho'
        rw [List.getElem?_append_right (Nat.le_add_right ..), Nat.add_sub_cancel_left]
        rcases i with _ | _ | i
        · exact congrArg _ (congrArg _ (Option.some.inj ho'))
        · exact congrArg _ (congrArg _ (Option.some.inj ho'))
        · cases ho'
      have hpush : (Op.push .rax).exec m₂ = .ok (m₂.setStack (slot :: m₁.stack)) := by
        rw [Op.exec, hrax, hstack₂]
      have hexecOps : execOps [o, .push .rax] m₁ = .ok (m₂.setStack (slot :: m₁.stack)) := by
        simp only [execOps, ho, ok_bind, hpush]
      have hruns' := (hruns.append _).trans (Runs.ops hops hexecOps)
      refine ⟨m₂.setStack (slot :: m₁.stack), ?_, ?_, ?_⟩
      · rw [List.length_append]
        exact hruns'
      · have hstack' : m₁.stack = slots ++ stack := hstack
        simp [OperandsAt, hstack']
      · exact hrest.trans hrest₂
  · have hn' : n ≤ (st.recents.take 1).length := Nat.le_of_succ_le_succ hn
    have hle : n ≤ st.recents.length :=
      Nat.le_trans hn' (by rw [List.length_take]; exact Nat.min_le_right ..)
    have hfolded : (((st.code.length, op) :: st.recents.take 1).map (·.2)).take (n + 1) =
        op :: (st.recents.map (·.2)).take n := by
      rw [List.length_take] at hn'
      rw [List.map_cons, List.take_succ_cons, List.map_take, List.take_take,
        Nat.min_eq_left (Nat.le_trans hn' (Nat.min_le_left ..))]
    rw [takeBack_emitRecent hwf o op hn', hfolded]
    have hbefore := h n hle
    cases result with
    | none => exact hbefore
    | some slots =>
      obtain ⟨m₁, hruns, hoperands, hrest⟩ := hbefore
      exact ⟨m₁, hruns, ⟨(hexec m₁ hrest).1, hoperands⟩, hrest⟩

end Steps

end Peephole

/-- How the code of an instruction ends. -/
def IntCode.EndsWith (c : IntCode) : CodeEnd → Prop
  | .bytes => c.code ≠ []
  | .condition _ => 1 < c.code.length
  | .push r => ∃ init, init ≠ [] ∧ c.code = init ++ [.op (.push r)] ∧ StaysWithin init.length init

namespace Peephole

section Code

variable {st : Peephole} {m : Machine} {stack : List (BitVec 64)} {c : IntCode}

/-- The code after the folded operations are taken back and the instruction is written. -/
def written (c : IntCode) (st : Peephole) : List (Lib.X86.Instr JitHandler) :=
  (st.takeBack c.folded.length).code ++
    c.code.map (Lib.X86.Instr.shift (st.takeBack c.folded.length).code.length)

theorem recent1_lt_written (hwf : WellFormed st) (hfolded : c.folded.length ≤ st.recents.length)
    (hcode : c.code ≠ []) :
    ∀ r ∈ (st.takeBack c.folded.length).recent1, r.stop < (written c st).length := by
  intro r hr
  have hle := hwf.stop_le hfolded r hr
  have hpos := List.length_pos_iff.mpr hcode
  rw [written, List.length_append, List.length_map]
  omega

theorem emitCode_bytes : st.emitCode c .bytes =
    { st.takeBack c.folded.length with code := written c st } := rfl

theorem emitCode_push (hwf : WellFormed st) (hfolded : c.folded.length ≤ st.recents.length)
    (hcode : c.code ≠ []) (r : Reg) :
    st.emitCode c (.push r) = ⟨written c st, (st.takeBack c.folded.length).recent1,
      some ⟨(written c st).length - 1, (written c st).length, some (.push r)⟩⟩ :=
  pushRecentOp_of_lt (recent1_lt_written hwf hfolded hcode)

theorem emitCode_condition (hwf : WellFormed st) (hfolded : c.folded.length ≤ st.recents.length)
    (hcode : c.code ≠ []) (r : Reg) :
    st.emitCode c (.condition r) = ⟨written c st, (st.takeBack c.folded.length).recent1,
      some ⟨(written c st).length - 2, (written c st).length, none⟩⟩ := by
  rw [emitCode, pushRecentOp_pushRecentOp]
  exact pushRecentOp_of_lt (recent1_lt_written hwf hfolded hcode)

/-- The code up to a push that can be taken back. -/
theorem written_push {init : List (Lib.X86.Instr JitHandler)} {r : Reg}
    (hinit : c.code = init ++ [.op (.push r)]) :
    written c st = ((st.takeBack c.folded.length).code ++
      init.map (Lib.X86.Instr.shift (st.takeBack c.folded.length).code.length)) ++
        [.op (.push r)] := by
  rw [written, hinit, List.map_append, List.append_assoc]
  rfl

theorem WellFormed.emitCode (hwf : WellFormed st) (hfolded : c.folded.length ≤ st.recents.length)
    {last : CodeEnd} (hends : c.EndsWith last) : WellFormed (st.emitCode c last) := by
  have hbefore := hwf.takeBack hfolded
  have hle : (st.takeBack c.folded.length).code.length ≤ (written c st).length := by
    rw [written, List.length_append]
    exact Nat.le_add_right ..
  cases last with
  | bytes =>
    rw [emitCode_bytes]
    refine ⟨fun r hr => ?_, hbefore.recent0⟩
    have hr' := hbefore.recent1 r hr
    exact ⟨hr'.1, Nat.le_trans hr'.2 hle⟩
  | push r =>
    obtain ⟨init, hne, hinit, -⟩ := hends
    rw [emitCode_push hwf hfolded (by simp [hinit])]
    refine ⟨fun s hs => ?_, fun s hs => ?_⟩
    · obtain rfl := Option.some.inj hs
      exact ⟨Nat.sub_le .., Nat.le_refl _⟩
    · have hs' := hbefore.recent1 s hs
      refine ⟨hs'.1, _, rfl, ?_⟩
      have hlength : (written c st).length = _ := congrArg List.length (written_push hinit)
      rw [List.length_append, List.length_append, List.length_singleton] at hlength
      dsimp only
      omega
  | condition r =>
    have hlong : 1 < c.code.length := hends
    rw [emitCode_condition hwf hfolded (List.ne_nil_of_length_pos (Nat.zero_lt_of_lt hlong))]
    refine ⟨fun s hs => ?_, fun s hs => ?_⟩
    · obtain rfl := Option.some.inj hs
      exact ⟨Nat.sub_le .., Nat.le_refl _⟩
    · have hs' := hbefore.recent1 s hs
      refine ⟨hs'.1, _, rfl, ?_⟩
      have hlength : (written c st).length = _ := List.length_append
      rw [List.length_map] at hlength
      dsimp only
      omega

/-- A push that was noted is all that can be taken back. -/
theorem recents_emitCode_push (hwf : WellFormed st) (hfolded : c.folded.length ≤ st.recents.length)
    {r : Reg} (hends : c.EndsWith (.push r)) :
    (st.emitCode c (.push r)).recents = [((written c st).length - 1, .push r)] := by
  obtain ⟨init, hne, hinit, -⟩ := hends
  have hlength : (written c st).length = _ := congrArg List.length (written_push hinit)
  rw [List.length_append, List.length_append, List.length_map, List.length_singleton] at hlength
  have hpos := List.length_pos_iff.mpr hne
  rw [emitCode_push hwf hfolded (by simp [hinit]), recents, chain, if_pos rfl, chain_eq_nil]
  intro s hs
  have hle := hwf.stop_le hfolded s hs
  omega

/-- After other instructions nothing can be taken back. -/
theorem recents_emitCode (hwf : WellFormed st) (hfolded : c.folded.length ≤ st.recents.length)
    {last : CodeEnd} (hends : c.EndsWith last) (hlast : ∀ r, last ≠ .push r) :
    (st.emitCode c last).recents = [] := by
  cases last with
  | bytes =>
    refine chain_eq_nil fun s hs => Nat.ne_of_lt ?_
    exact recent1_lt_written hwf hfolded hends s hs
  | push r => exact absurd rfl (hlast r)
  | condition r =>
    have hlong : 1 < c.code.length := hends
    rw [emitCode_condition hwf hfolded (List.ne_nil_of_length_pos (Nat.zero_lt_of_lt hlong))]
    rfl

/-- What an instruction makes of the values before it. -/
def Computes (c : IntCode) (stack : List (BitVec 64)) :
    Option (List (BitVec 64)) → Option (List (BitVec 64)) → Prop
  | none, result => result = none
  | some slots, result => ∃ operands rest out, slots = operands ++ rest ∧
      c.folded.length ≤ operands.length ∧ result = out.map (· :: rest) ∧
      ∀ m, OperandsAt m (rest ++ stack) c.folded operands → c.Yields m (rest ++ stack) out

/-- The code with the folded operations taken back and the instruction behind it. -/
theorem Leaves.written {before after : Option (List (BitVec 64))}
    (h : Holds (st.takeBack c.folded.length).code m stack c.folded before)
    (hcomputes : Computes c stack before after) : Holds (written c st) m stack [] after := by
  cases before with
  | none =>
    obtain rfl : after = none := hcomputes
    exact h.fault_append _
  | some slots =>
    obtain ⟨operands, rest, out, rfl, hlength, rfl, hyields⟩ := hcomputes
    obtain ⟨m₁, hruns, hoperands, hrest⟩ := h
    have hout := hyields m₁ (hoperands.drop hlength)
    cases out with
    | some slot =>
      obtain ⟨m₂, hcode, hstack, hrest₂⟩ := hout
      exact ⟨m₂, hruns.to_end_after_append hcode, hstack, hrest.trans hrest₂⟩
    | none =>
      obtain ⟨m₂, hcode⟩ := hout
      exact ⟨m₂, hruns.after_append hcode⟩

/-- The same with the last push taken back, whose register holds the result. -/
theorem Leaves.written_init {before after : Option (List (BitVec 64))} {r : Reg}
    {init : List (Lib.X86.Instr JitHandler)} (hinit : c.code = init ++ [.op (.push r)])
    (hstay : StaysWithin init.length init)
    (h : Holds (st.takeBack c.folded.length).code m stack c.folded before)
    (hcomputes : Computes c stack before after) :
    Holds ((st.takeBack c.folded.length).code ++
      init.map (Lib.X86.Instr.shift (st.takeBack c.folded.length).code.length)) m stack [.push r]
        after := by
  cases before with
  | none =>
    obtain rfl : after = none := hcomputes
    exact h.fault_append _
  | some slots =>
    obtain ⟨operands, rest, out, rfl, hlength, rfl, hyields⟩ := hcomputes
    obtain ⟨m₁, hruns, hoperands, hrest⟩ := h
    have hout := hyields m₁ (hoperands.drop hlength)
    have hlast : c.code.length = init.length + 1 := by
      rw [hinit, List.length_append]
      rfl
    rw [IntCode.Yields, hlast, hinit] at hout
    cases out with
    | some slot =>
      obtain ⟨m₂, hcode, hstack, hrest₂⟩ := hout
      obtain ⟨m₃, hcode₃, hpush⟩ := hcode.before_last hstay (Nat.zero_le _) fun m => ⟨_, rfl⟩
      obtain rfl : m₃.setStack (m₃.regs r :: m₃.stack) = m₂ := Except.ok.inj hpush
      obtain ⟨hslot, hstack₃⟩ := List.cons.inj hstack
      exact ⟨m₃, hruns.to_end_after_append hcode₃, ⟨hslot.symm, hstack₃⟩, hrest.trans hrest₂⟩
    | none =>
      obtain ⟨m₂, hcode⟩ := hout
      have hfault := hcode.fault_before_last hstay (Nat.zero_le _) fun m => ⟨_, rfl⟩
      exact ⟨m₂, hruns.after_append hfault⟩

theorem takeBack_emitCode_push (hwf : WellFormed st)
    (hfolded : c.folded.length ≤ st.recents.length) {r : Reg}
    {init : List (Lib.X86.Instr JitHandler)} (hinit : c.code = init ++ [.op (.push r)]) :
    ((st.emitCode c (.push r)).takeBack 1).code = (st.takeBack c.folded.length).code ++
      init.map (Lib.X86.Instr.shift (st.takeBack c.folded.length).code.length) := by
  rw [emitCode_push hwf hfolded (by simp [hinit])]
  change (Peephole.written c st).take ((Peephole.written c st).length - 1) = _
  rw [← List.dropLast_eq_take, written_push hinit, List.dropLast_concat]

/-- An instruction that folds the operations that can be taken back. -/
theorem Leaves.emitCode (hwf : WellFormed st) {before after : Option (List (BitVec 64))}
    (h : st.Leaves m stack before) (hpre : c.folded <+: st.recents.map (·.2)) {last : CodeEnd}
    (hends : c.EndsWith last) (hcomputes : Computes c stack before after) :
    (st.emitCode c last).Leaves m stack after := by
  have hfolded : c.folded.length ≤ st.recents.length := by
    have hle := hpre.length_le
    rwa [List.length_map] at hle
  have hstart := h _ hfolded
  rw [← List.prefix_iff_eq_take.mp hpre] at hstart
  have hzero : Holds (Peephole.written c st) m stack [] after := Leaves.written hstart hcomputes
  cases last with
  | bytes | condition =>
    intro n hn
    rw [recents_emitCode hwf hfolded hends (by simp)] at hn ⊢
    obtain rfl : n = 0 := Nat.le_zero.mp hn
    exact hzero
  | push r =>
    intro n hn
    have hrecents := recents_emitCode_push hwf hfolded hends
    obtain ⟨init, -, hinit, hstay⟩ := hends
    rw [hrecents] at hn ⊢
    rcases Nat.le_one_iff_eq_zero_or_eq_one.mp hn with rfl | rfl
    · exact hzero
    · rw [takeBack_emitCode_push hwf hfolded hinit]
      exact Leaves.written_init hinit hstay hstart hcomputes

end Code

end Peephole

section Folded

variable {recent : List RecentOp}

theorem popFirst_folded (reg : Reg) (ops : List Op) :
    (popFirst recent reg ops).folded = recent.take 1 := by
  cases recent <;> rfl

theorem take_one_take_two : recent.take 1 <+: recent.take 2 :=
  List.take_prefix_take_left (by decide)

theorem foldFirst_folded (op : RecentOp) (reg : Reg) (ops : List Op) :
    (foldFirst op recent reg ops).folded = (op :: recent).take 2 := by
  cases recent <;> rfl

theorem emitUnary_folded (tzcnt : Bool) (u : IUnaryInstr) :
    (emitUnary tzcnt recent u).folded <+: recent.take 1 := by
  have hpop : ∀ ops, (popFirst recent .rax ops).folded <+: recent.take 1 := by
    intro ops
    rw [popFirst_folded]
  cases u with
  | eqz t | popcnt t =>
    cases t with
    | i32 => exact hpop _
    | i64 => exact List.nil_prefix
  | clz t | ctz t =>
    cases t with
    | i32 => cases tzcnt <;> exact hpop _
    | i64 => cases tzcnt <;> exact List.nil_prefix
  | wrap => exact hpop _
  | extendI32S | extendI32U | extend32S => exact List.nil_prefix
  | extend8S t | extend16S t => cases t <;> exact List.nil_prefix

theorem emitBinary_folded (i : IBinaryInstr) : (emitBinary recent i).folded <+: recent.take 2 := by
  have hpop : ∀ (recent : List RecentOp) (reg : Reg) (ops : List Op),
      (popFirst recent reg ops).folded <+: recent.take 2 := by
    intro recent reg ops
    rw [popFirst_folded]
    exact take_one_take_two
  have hfold : ∀ (op : RecentOp) (recent : List RecentOp) (reg : Reg) (ops : List Op),
      (foldFirst op recent reg ops).folded <+: (op :: recent).take 2 := by
    intro op recent reg ops
    rw [foldFirst_folded]
  have hhead : recent.head?.toList <+: recent.take 2 := hpop recent .rax []
  have hshift : ∀ op, (emitI64Shift op recent).folded <+: recent.take 2 := by
    intro op
    match recent with
    | .i64Const v :: recent => exact hfold ..
    | [] | .getLocal _ :: _ | .i32Const _ :: _ | .push _ :: _ => exact hpop ..
  cases i with
  | rel t op =>
    cases t with
    | i32 => exact hpop ..
    | i64 => exact List.nil_prefix
  | bin t op =>
    cases t with
    | i32 =>
      cases op with
      | mul | divS | divU | remU | shrS | rotl | rotr => exact hpop ..
      | remS => exact hhead
      | add | xor =>
        match recent with
        | .getLocal disp :: recent | .i32Const v :: recent => exact hfold ..
        | [] | .i64Const _ :: _ | .push _ :: _ => exact hpop ..
      | sub | and | or | shl | shrU =>
        match recent with
        | .i32Const v :: recent => exact hfold ..
        | [] | .getLocal _ :: _ | .i64Const _ :: _ | .push _ :: _ => exact hpop ..
    | i64 =>
      cases op with
      | add =>
        match recent with
        | .i64Const v :: recent => exact hfold ..
        | [] | .getLocal _ :: _ | .i32Const _ :: _ | .push _ :: _ => exact hpop ..
      | mul => exact hpop ..
      | shl => exact hshift .shl
      | shrS => exact hshift .sar
      | shrU => exact hshift .shr
      | sub | divS | divU | remS | remU | and | or | xor | rotl | rotr => exact List.nil_prefix

end Folded

section Ends

variable {recent : List RecentOp} {reg r : Reg} {ops : List Op}

theorem straight_endsWith {folded : List RecentOp} (hlast : ops.getLast? = some (.push r))
    (hlong : 1 < ops.length) : (IntCode.straight folded ops).EndsWith (.push r) := by
  obtain ⟨before, rfl⟩ := List.getLast?_eq_some_iff.mp hlast
  refine ⟨before.map .op, ?_, List.map_append, ?_⟩
  · rw [List.length_append, List.length_singleton] at hlong
    have hne : before ≠ [] := List.ne_nil_of_length_pos (Nat.lt_of_succ_lt_succ hlong)
    exact fun h => hne (List.map_eq_nil_iff.mp h)
  · intro ins hins pos h
    obtain ⟨o, -, rfl⟩ := List.mem_map.mp hins
    rcases h with ⟨k, hk⟩ | hk <;> cases hk

theorem popped_getLast (before : List Op) (hlast : ops.getLast? = some (.push r)) :
    (before ++ ops).getLast? = some (.push r) := by
  rw [List.getLast?_append, hlast, Option.some_or]

theorem popFirst_endsWith (hlast : ops.getLast? = some (.push r)) (hlong : 1 < ops.length) :
    (popFirst recent reg ops).EndsWith (.push r) :=
  straight_endsWith (popped_getLast _ hlast) (by rw [List.length_append]; omega)

theorem foldFirst_endsWith (op : RecentOp) (hlast : ops.getLast? = some (.push r))
    (hlong : 1 < ops.length) : (foldFirst op recent reg ops).EndsWith (.push r) :=
  straight_endsWith (popped_getLast _ hlast) (by rw [List.length_append]; omega)

theorem popFirst_condition (hlong : 1 < ops.length) :
    (popFirst recent reg ops).EndsWith (.condition r) := by
  change 1 < (List.map Lib.X86.Instr.op (popOps recent.head? reg ++ ops)).length
  rw [List.length_map, List.length_append]
  omega

theorem remS_endsWith {w : Width} {folded : List RecentOp} (pre : List Op) :
    IntCode.EndsWith ⟨folded, assemble do emitOps pre; emitRemS w⟩ (.push .rdx) := by
  refine ⟨pre.map .op ++ (remSCode w pre.length).dropLast, ?_, ?_, ?_⟩
  · simp [remSCode]
  · change assemble _ = _
    rw [run_remS, List.append_assoc]
    rfl
  · intro ins hins pos h
    have hlength : (pre.map Lib.X86.Instr.op ++ (remSCode w pre.length).dropLast).length =
        pre.length + 6 := by
      simp [remSCode]
    rw [hlength]
    rcases List.mem_append.mp hins with hpre | hrem
    · obtain ⟨o, -, rfl⟩ := List.mem_map.mp hpre
      rcases h with ⟨k, hk⟩ | hk <;> cases hk
    · simp only [remSCode, List.dropLast, List.mem_cons, List.not_mem_nil, or_false] at hrem
      rcases hrem with rfl | rfl | rfl | rfl | rfl | rfl <;> rcases h with ⟨k, hk⟩ | hk <;>
        cases hk <;>
        omega

theorem emitUnary_endsWith (tzcnt : Bool) {u : IUnaryInstr} (hu : u ≠ .extendI32U) :
    (emitUnary tzcnt recent u).EndsWith u.codeEnd := by
  cases u with
  | eqz t =>
    cases t with
    | i32 => exact popFirst_condition (by simp)
    | i64 => exact List.cons_ne_nil _ _
  | clz t | ctz t =>
    cases t with
    | i32 => cases tzcnt <;> exact popFirst_endsWith rfl (by simp)
    | i64 => cases tzcnt <;> exact List.cons_ne_nil _ _
  | popcnt t =>
    cases t with
    | i32 => exact popFirst_endsWith rfl (by simp)
    | i64 => exact List.cons_ne_nil _ _
  | wrap => exact popFirst_endsWith rfl (by simp)
  | extendI32U => exact absurd rfl hu
  | extendI32S | extend32S => exact List.cons_ne_nil _ _
  | extend8S t | extend16S t => cases t <;> exact List.cons_ne_nil _ _

theorem emitI64Shift_endsWith (op : Shift) : (emitI64Shift op recent).EndsWith (.push .rax) := by
  match recent with
  | .i64Const v :: recent => exact foldFirst_endsWith _ rfl (by simp)
  | [] | .getLocal _ :: _ | .i32Const _ :: _ | .push _ :: _ => exact popFirst_endsWith rfl (by simp)

theorem emitBinary_endsWith (i : IBinaryInstr) : (emitBinary recent i).EndsWith i.codeEnd := by
  cases i with
  | rel t op =>
    cases t with
    | i32 => exact popFirst_condition (by simp)
    | i64 => exact List.cons_ne_nil _ _
  | bin t op =>
    cases t with
    | i32 =>
      cases op with
      | mul | divS | divU | remU | shrS | rotl | rotr => exact popFirst_endsWith rfl (by simp)
      | remS => exact remS_endsWith _
      | add | xor =>
        match recent with
        | .getLocal disp :: recent | .i32Const v :: recent =>
          exact foldFirst_endsWith _ rfl (by simp)
        | [] | .i64Const _ :: _ | .push _ :: _ => exact popFirst_endsWith rfl (by simp)
      | sub | and | or | shl | shrU =>
        match recent with
        | .i32Const v :: recent => exact foldFirst_endsWith _ rfl (by simp)
        | [] | .getLocal _ :: _ | .i64Const _ :: _ | .push _ :: _ =>
          exact popFirst_endsWith rfl (by simp)
    | i64 =>
      cases op with
      | add =>
        match recent with
        | .i64Const v :: recent => exact foldFirst_endsWith _ rfl (by simp)
        | [] | .getLocal _ :: _ | .i32Const _ :: _ | .push _ :: _ =>
          exact popFirst_endsWith rfl (by simp)
      | mul => exact popFirst_endsWith rfl (by simp)
      | shl => exact emitI64Shift_endsWith .shl
      | shrS => exact emitI64Shift_endsWith .sar
      | shrU => exact emitI64Shift_endsWith .shr
      | remS =>
        have hends : IntCode.EndsWith (emitI64Bin recent .remS) (.push .rdx) := remS_endsWith _
        obtain ⟨init, -, hinit, -⟩ := hends
        exact fun h => absurd (hinit.symm.trans h) (by simp)
      | sub | divS | divU | remU | and | or | xor | rotl | rotr => exact List.cons_ne_nil _ _

end Ends

/-- The slots of values. -/
def slotsOf (values : List IntValue) : List (BitVec 64) := values.map fun v => slotOf v.2

section Locals

variable {m m₁ : Machine} {disp : Int} {slot : BitVec 64}

theorem i32Const_exec (v : BitVec 32) (m₁ : Machine) :
    ∃ m₂, (if v = 0 then Op.alu .xor .w32 .rax (.reg .rax) else .mov .w32 .rax (.imm v)).exec m₁ =
      .ok m₂ ∧
      m₂.regs .rax = slotOf v ∧ m₂.stack = m₁.stack ∧ SameRest m₁ m₂ := by
  by_cases hzero : v = 0
  · rw [if_pos hzero, hzero]
    refine ⟨_, rfl, ?_, rfl, ?_⟩
    · simp [Machine.set, Machine.get, slotOf]
    · exact (SameExcept.refl _ m₁).setReg (by decide) _
  · rw [if_neg hzero]
    refine ⟨m₁.setReg .rax (slotOf v), ?_, by simp, rfl,
      (SameExcept.refl _ m₁).setReg (by decide) _⟩
    simp [Op.exec, Machine.operand, Machine.set, slotOf]

theorem getLocal_exec (h : m.load .w64 (m.address .rbp disp) = .ok slot) :
    ∃ m₂, (Op.mov .w64 .rax (.mem .rbp disp)).exec m = .ok m₂ ∧ m₂.regs .rax = slot ∧
      m₂.stack = m.stack ∧ SameRest m m₂ := by
  have hoperand : m.operand .w64 (.mem .rbp disp) = .ok slot := h
  refine ⟨m.setReg .rax slot, ?_, by simp, rfl, (SameExcept.refl _ m).setReg (by decide) _⟩
  rw [Op.exec, hoperand, ok_bind, Machine.set_w64]

end Locals

namespace Peephole

section Runs

variable {tzcnt : Bool} {offset : Nat → Int} {st : Peephole} {m : Machine}
  {stack : List (BitVec 64)}

theorem emitInstr_extendI32U : st.emitInstr tzcnt offset (.unary .extendI32U) = st := by
  have hend : IUnaryInstr.extendI32U.codeEnd = .bytes := rfl
  simp [emitInstr, emitCode, emitUnary, IntCode.straight, takeBack, hend]

theorem folded_le {c : IntCode} (h : c.folded <+: st.recents.map (·.2)) :
    c.folded.length ≤ st.recents.length := by
  have hle := h.length_le
  rwa [List.length_map] at hle

theorem unary_folds_recents (u : IUnaryInstr) :
    (emitUnary tzcnt (st.recents.map (·.2)) u).folded <+: st.recents.map (·.2) :=
  (emitUnary_folded tzcnt u).trans ⟨_, List.take_append_drop ..⟩

theorem binary_folds_recents (i : IBinaryInstr) :
    (emitBinary (st.recents.map (·.2)) i).folded <+: st.recents.map (·.2) :=
  (emitBinary_folded i).trans ⟨_, List.take_append_drop ..⟩

theorem WellFormed.emitInstr (h : WellFormed st) (instr : ExprInstr) :
    WellFormed (st.emitInstr tzcnt offset instr) := by
  cases instr with
  | i32Const v | i64Const v | getLocal i => exact h.emitRecent ..
  | binary i => exact h.emitCode (folded_le (binary_folds_recents i)) (emitBinary_endsWith i)
  | unary u =>
    by_cases hu : u = .extendI32U
    · rw [hu, emitInstr_extendI32U]
      exact h
    · exact h.emitCode (folded_le (unary_folds_recents u)) (emitUnary_endsWith tzcnt hu)

theorem Leaves.i32Const (hwf : WellFormed st) {result : Option (List (BitVec 64))}
    (h : st.Leaves m stack result) (v : BitVec 32) :
    (st.emitInstr tzcnt offset (.i32Const v)).Leaves m stack (result.map (slotOf v :: ·)) :=
  h.emitRecent hwf fun m₁ _ => ⟨rfl, i32Const_exec v m₁⟩

theorem Leaves.i64Const (hwf : WellFormed st) {result : Option (List (BitVec 64))}
    (h : st.Leaves m stack result) (v : BitVec 64) :
    (st.emitInstr tzcnt offset (.i64Const v)).Leaves m stack (result.map (slotOf v :: ·)) := by
  rw [slotOf_i64]
  exact h.emitRecent hwf fun m₁ _ => ⟨rfl, m₁.setReg .rax v, rfl, by simp, rfl,
    (SameExcept.refl _ m₁).setReg (by decide) v⟩

theorem Leaves.getLocal (hwf : WellFormed st) {result : Option (List (BitVec 64))}
    (h : st.Leaves m stack result) {i : Nat} {slot : BitVec 64}
    (hload : m.load .w64 (m.address .rbp (offset i)) = .ok slot) :
    (st.emitInstr tzcnt offset (.getLocal i)).Leaves m stack (result.map (slot :: ·)) := by
  refine h.emitRecent hwf fun m₁ hrest => ?_
  have havail : Available m slot (.getLocal (offset i)) := hload
  have havail₁ := havail.popped (by simp) hrest
  exact ⟨havail₁, getLocal_exec havail₁⟩

/-- The frame holds the locals that the instructions read. -/
def LocalsAt (m : Machine) (offset : Nat → Int) (locals : Nat → IntValue)
    (instrs : List ExprInstr) : Prop :=
  ∀ i, ExprInstr.getLocal i ∈ instrs →
    m.load .w64 (m.address .rbp (offset i)) = .ok (slotOf (locals i).2)

variable {locals : Nat → IntValue} {instr : ExprInstr} {instrs : List ExprInstr}

theorem LocalsAt.tail (h : LocalsAt m offset locals (instr :: instrs)) :
    LocalsAt m offset locals instrs := fun i hi => h i (List.mem_cons_of_mem _ hi)

/-- Code after a trap changes nothing. -/
theorem Leaves.emitInstr_none (hwf : WellFormed st)
    (hlocals : LocalsAt m offset locals (instr :: instrs)) (h : st.Leaves m stack none) :
    (st.emitInstr tzcnt offset instr).Leaves m stack none := by
  cases instr with
  | i32Const v => exact h.i32Const hwf v
  | i64Const v => exact h.i64Const hwf v
  | getLocal i => exact h.getLocal hwf (hlocals i List.mem_cons_self)
  | binary i => exact h.emitCode hwf (binary_folds_recents i) (emitBinary_endsWith i) rfl
  | unary u =>
    by_cases hu : u = .extendI32U
    · rw [hu, emitInstr_extendI32U]
      exact h
    · exact h.emitCode hwf (unary_folds_recents u) (emitUnary_endsWith tzcnt hu) rfl

theorem Leaves.unary (hwf : WellFormed st) {u : IUnaryInstr} {a : BitVec u.arg.bits}
    {slots : List (BitVec 64)} (h : st.Leaves m stack (some (slotOf a :: slots))) :
    (st.emitInstr tzcnt offset (.unary u)).Leaves m stack (some (slotOf (u.eval a) :: slots)) := by
  by_cases hu : u = .extendI32U
  · subst hu
    have hslot : slotOf (IUnaryInstr.extendI32U.eval a) = slotOf a := slotOf_i64 _
    rw [emitInstr_extendI32U, hslot]
    exact h
  · refine h.emitCode hwf (unary_folds_recents u) (emitUnary_endsWith tzcnt hu)
      ⟨[slotOf a], slots, some (slotOf (u.eval a)), rfl, ?_, rfl, ?_⟩
    · have hle : _ ≤ ((st.recents.map (·.2)).take 1).length := (emitUnary_folded tzcnt u).length_le
      rw [List.length_take] at hle
      exact Nat.le_trans hle (Nat.min_le_left ..)
    · exact fun m' hoperands => emitUnary_yields tzcnt u hoperands

theorem Leaves.binary (hwf : WellFormed st) {i : IBinaryInstr} {a b : BitVec i.arg.bits}
    {slots : List (BitVec 64)} (h : st.Leaves m stack (some (slotOf b :: slotOf a :: slots))) :
    (st.emitInstr tzcnt offset (.binary i)).Leaves m stack
      ((i.eval a b).map (slotOf · :: slots)) := by
  refine h.emitCode hwf (binary_folds_recents i) (emitBinary_endsWith i)
    ⟨[slotOf b, slotOf a], slots, (i.eval a b).map slotOf, rfl, ?_, ?_, ?_⟩
  · have hle : _ ≤ ((st.recents.map (·.2)).take 2).length := (emitBinary_folded i).length_le
    rw [List.length_take] at hle
    exact Nat.le_trans hle (Nat.min_le_left ..)
  · rw [Option.map_map]
    rfl
  · exact fun m' hoperands => emitBinary_yields i hoperands

theorem Leaves.emitInstrs_none (hlocals : LocalsAt m offset locals instrs) (hwf : WellFormed st)
    (h : st.Leaves m stack none) :
    (st.emitInstrs tzcnt offset instrs).Leaves m stack none := by
  induction instrs generalizing st with
  | nil => exact h
  | cons instr instrs ih =>
    exact ih hlocals.tail (hwf.emitInstr _) (h.emitInstr_none hwf hlocals)

/-- One instruction after the other. -/
theorem Leaves.emitInstrs {values : List IntValue} {result : Option (List IntValue)}
    (heval : Evaluates locals instrs values result) (hlocals : LocalsAt m offset locals instrs)
    (hwf : WellFormed st) (h : st.Leaves m stack (some (slotsOf values))) :
    (st.emitInstrs tzcnt offset instrs).Leaves m stack (result.map slotsOf) := by
  induction heval generalizing st with
  | nil values => exact h
  | i32Const _ ih => exact ih hlocals.tail (hwf.emitInstr _) (h.i32Const hwf _)
  | i64Const _ ih => exact ih hlocals.tail (hwf.emitInstr _) (h.i64Const hwf _)
  | getLocal _ ih =>
    exact ih hlocals.tail (hwf.emitInstr _) (h.getLocal hwf (hlocals _ List.mem_cons_self))
  | unary _ ih => exact ih hlocals.tail (hwf.emitInstr _) (h.unary hwf)
  | binary heval _ ih =>
    have hnext : (st.emitInstr tzcnt offset (.binary _)).Leaves m stack _ := h.binary hwf
    rw [heval] at hnext
    exact ih hlocals.tail (hwf.emitInstr _) hnext
  | @trap i a b instrs values heval =>
    have hnext : (st.emitInstr tzcnt offset (.binary _)).Leaves m stack _ := h.binary hwf
    rw [heval] at hnext
    have hrest : ((st.emitInstr tzcnt offset (.binary i)).emitInstrs tzcnt offset instrs).Leaves m
        stack none := Leaves.emitInstrs_none hlocals.tail (hwf.emitInstr _) hnext
    exact hrest

end Runs

end Peephole

/-- The code of an expression of constants, locals and integer instructions, with all that is
folded, leaves the values that WebAssembly defines, or the processor traps where an instruction
does. -/
theorem expression_code_correct {tzcnt : Bool} {offset : Nat → Int} {locals : Nat → IntValue}
    {m : Machine} {instrs : List ExprInstr} {result : Option (List IntValue)}
    (heval : Evaluates locals instrs [] result)
    (hlocals : ∀ i, ExprInstr.getLocal i ∈ instrs →
      m.load .w64 (m.address .rbp (offset i)) = .ok (slotOf (locals i).2)) :
    let code := (Peephole.emitInstrs tzcnt offset {} instrs).code
    match result with
    | some values => ∃ m', Runs code (.run 0 m) (.run code.length m') ∧
        m'.stack = slotsOf values ++ m.stack ∧ SameRest m m'
    | none => ∃ m', Runs code (.run 0 m) (.fault .divide m') := by
  have hstart : Peephole.Leaves {} m m.stack (some (slotsOf [])) := by
    intro n hn
    obtain rfl : n = 0 := Nat.le_zero.mp hn
    exact ⟨m, Runs.refl _, rfl, SameExcept.refl _ m⟩
  have hleaves : (Peephole.emitInstrs tzcnt offset {} instrs).Leaves m m.stack
      (result.map slotsOf) := hstart.emitInstrs heval hlocals .initial
  have hend := hleaves 0 (Nat.zero_le _)
  cases result with
  | some values => exact hend
  | none => exact hend

/-- Memory that can be read, and zero everywhere. -/
def zeroMachine : Machine := { oneSlotMachine 0 with readable := fun _ => true }

/-- `(0 ^ 0xffffffff) / 2`, the first operand a local. -/
theorem folded_xor_correct :
    let code := (Peephole.emitInstrs true (fun _ => -8) {} [.getLocal 0, .i32Const 0xffffffff,
      .binary (.bin .i32 .xor), .i32Const 2, .binary (.bin .i32 .divU)]).code
    ∃ m', Runs code (.run 0 zeroMachine) (.run code.length m') ∧ m'.stack = [0x7fffffff, 0] ∧
      SameRest zeroMachine m' :=
  @expression_code_correct true (fun _ => -8) (fun _ => ⟨.i32, 0⟩) zeroMachine _
    (some [⟨.i32, 0x7fffffff⟩])
    (.getLocal (.i32Const (.binary rfl (.i32Const (.binary rfl (.nil _)))))) fun _ _ => rfl

end EosVm
