import EosVm.Lib.X86.Binary

/-!
# Code in larger code

What a part of the code does when it is moved, when more code follows, and before its last
operation.
-/

set_option autoImplicit false

namespace EosVm.Lib.X86

variable {H : Type}

def Target.shift (n : Nat) : Target H → Target H
  | .code pos => .code (n + pos)
  | .handler h => .handler h

/-- An instruction that is moved by `n` instructions. -/
def Instr.shift (n : Nat) : Instr H → Instr H
  | .op o => .op o
  | .jcc c target => .jcc c (target.shift n)
  | .jmp target => .jmp (target.shift n)

theorem goto_shift (n : Nat) (m : Machine) (target : Target H) :
    goto m (target.shift n) = (goto m target).mapPos (n + ·) := by cases target <;> rfl

theorem step_shift (pre code : List (Instr H)) (c : Config H) :
    step (pre ++ code.map (Instr.shift pre.length)) (c.mapPos (pre.length + ·)) =
      (step code c).mapPos (pre.length + ·) := by
  cases c with
  | fault f m => rfl
  | exit h m => rfl
  | run pos m =>
    have hget : (pre ++ code.map (Instr.shift pre.length))[pre.length + pos]? =
        code[pos]?.map (Instr.shift pre.length) := by
      rw [List.getElem?_append_right (Nat.le_add_right ..), Nat.add_sub_cancel_left,
        List.getElem?_map]
    simp only [step, Config.mapPos, hget]
    cases code[pos]? with
    | none => rfl
    | some ins =>
      cases ins with
      | op o =>
        simp only [Option.map_some, Instr.shift]
        cases o.exec m <;> rfl
      | jcc k target =>
        simp only [Option.map_some, Instr.shift, goto_shift]
        cases k.holds m.flags <;> rfl
      | jmp target => exact goto_shift _ m target

/-- Code that is moved runs as before. -/
theorem Runs.shift {code : List (Instr H)} {c c' : Config H} (h : Runs code c c')
    (pre : List (Instr H)) :
    Runs (pre ++ code.map (Instr.shift pre.length)) (c.mapPos (pre.length + ·))
      (c'.mapPos (pre.length + ·)) := by
  obtain ⟨k, rfl⟩ := h
  refine ⟨k, ?_⟩
  induction k generalizing c with
  | zero => rfl
  | succ k ih => rw [Function.iterate_succ_apply, Function.iterate_succ_apply, step_shift, ih]

theorem step_append {code : List (Instr H)} {pos : Nat} (hpos : pos < code.length)
    (rest : List (Instr H)) (m : Machine) :
    step (code ++ rest) (.run pos m) = step code (.run pos m) := by
  simp only [step, List.getElem?_append_left hpos]

theorem step_end {code : List (Instr H)} {pos : Nat} (hpos : ¬pos < code.length) (m : Machine) :
    step code (.run pos m) = .run pos m := by
  simp only [step, List.getElem?_eq_none (Nat.le_of_not_lt hpos)]

/-- Code runs as before when more code follows. -/
theorem Runs.append {code : List (Instr H)} {pos : Nat} {m : Machine} {c' : Config H}
    (h : Runs code (.run pos m) c') (rest : List (Instr H)) :
    Runs (code ++ rest) (.run pos m) c' := by
  obtain ⟨k, hk⟩ := h
  induction k generalizing pos m with
  | zero => exact hk ▸ Runs.refl _
  | succ k ih =>
    by_cases hpos : pos < code.length
    · have hstep := step_append hpos rest m
      rw [Function.iterate_succ_apply] at hk
      cases hc : step code (.run pos m) with
      | run pos' m' =>
        rw [hc] at hk hstep
        exact (Runs.of_step hstep).trans (ih hk)
      | fault f m' =>
        rw [hc] at hk hstep
        rw [Function.iterate_fixed rfl] at hk
        exact hk ▸ Runs.of_step hstep
      | exit h m' =>
        rw [hc] at hk hstep
        rw [Function.iterate_fixed rfl] at hk
        exact hk ▸ Runs.of_step hstep
    · rw [Function.iterate_fixed (step_end hpos m)] at hk
      exact hk ▸ Runs.refl _

/-- Code that is moved behind other code. -/
theorem Runs.after_append {before code : List (Instr H)} {pos : Nat} {m m' : Machine} {c : Config H}
    (h : Runs before (.run pos m) (.run before.length m')) (hcode : Runs code (.run 0 m') c) :
    Runs (before ++ code.map (Instr.shift before.length)) (.run pos m)
      (c.mapPos (before.length + ·)) :=
  (h.append _).trans (hcode.shift before)

theorem Runs.to_end_after_append {before code : List (Instr H)} {pos : Nat} {m m' m'' : Machine}
    (h : Runs before (.run pos m) (.run before.length m'))
    (hcode : Runs code (.run 0 m') (.run code.length m'')) :
    Runs (before ++ code.map (Instr.shift before.length)) (.run pos m)
      (.run (before ++ code.map (Instr.shift before.length)).length m'') := by
  rw [List.length_append, List.length_map]
  exact h.after_append hcode

/-- The branches of the code lead nowhere behind position `n`. -/
def StaysWithin (n : Nat) (code : List (Instr H)) : Prop :=
  ∀ ins ∈ code, ∀ pos, (∃ k, ins = .jcc k (.code pos)) ∨ ins = .jmp (.code pos) → pos ≤ n

theorem StaysWithin.step {n pos pos' : Nat} {code : List (Instr H)} {m m' : Machine}
    (h : StaysWithin n code) (hlt : pos < n) (hstep : step code (.run pos m) = .run pos' m') :
    pos' ≤ n := by
  simp only [X86.step] at hstep
  cases hget : code[pos]? with
  | none =>
    rw [hget] at hstep
    cases hstep
    exact Nat.le_of_lt hlt
  | some ins =>
    have hmem := h ins (List.mem_of_getElem? hget)
    rw [hget] at hstep
    cases ins with
    | op o =>
      dsimp only at hstep
      split at hstep
      · cases hstep
        exact hlt
      · cases hstep
    | jcc k target =>
      dsimp only at hstep
      split at hstep
      · cases target with
        | code target =>
          cases hstep
          exact hmem _ (.inl ⟨k, rfl⟩)
        | handler h' => cases hstep
      · cases hstep
        exact hlt
    | jmp target =>
      cases target with
      | code target =>
        cases hstep
        exact hmem _ (.inr rfl)
      | handler h' => cases hstep

theorem StaysWithin.run_le {pos pos' : Nat} {code : List (Instr H)} {m m' : Machine}
    (h : StaysWithin code.length code) (hpos : pos ≤ code.length)
    (hruns : Runs code (.run pos m) (.run pos' m')) : pos' ≤ code.length := by
  obtain ⟨k, hk⟩ := hruns
  induction k generalizing pos m with
  | zero =>
    cases hk
    exact hpos
  | succ k ih =>
    rw [Function.iterate_succ_apply] at hk
    cases hc : X86.step code (.run pos m) with
    | run pos₁ m₁ =>
      rw [hc] at hk
      rcases Nat.lt_or_eq_of_le hpos with hlt | rfl
      · exact ih (h.step hlt hc) hk
      · rw [step_end (Nat.lt_irrefl _)] at hc
        cases hc
        exact ih hpos hk
    | fault f m₁ =>
      rw [hc, Function.iterate_fixed rfl] at hk
      cases hk
    | exit h' m₁ =>
      rw [hc, Function.iterate_fixed rfl] at hk
      cases hk

/-- A run of code and more code behind it stays in the first part or passes its end. -/
theorem Runs.of_append {code rest : List (Instr H)} {pos : Nat} {m : Machine} {c : Config H}
    (hstay : StaysWithin code.length code) (hpos : pos ≤ code.length)
    (h : Runs (code ++ rest) (.run pos m) c) :
    Runs code (.run pos m) c ∨
      ∃ m₁, Runs code (.run pos m) (.run code.length m₁) ∧
        Runs (code ++ rest) (.run code.length m₁) c := by
  obtain ⟨k, hk⟩ := h
  induction k generalizing pos m with
  | zero => exact .inl ⟨0, hk⟩
  | succ k ih =>
    rcases Nat.lt_or_eq_of_le hpos with hlt | rfl
    · rw [Function.iterate_succ_apply, step_append hlt] at hk
      cases hc : step code (.run pos m) with
      | run pos₁ m₁ =>
        rw [hc] at hk
        have hfirst := Runs.of_step hc
        rcases ih (hstay.step hlt hc) hk with hrun | ⟨m₂, hrun, hrest⟩
        · exact .inl (hfirst.trans hrun)
        · exact .inr ⟨m₂, hfirst.trans hrun, hrest⟩
      | fault f m₁ =>
        rw [hc, Function.iterate_fixed rfl] at hk
        exact .inl (hk ▸ Runs.of_step hc)
      | exit h m₁ =>
        rw [hc, Function.iterate_fixed rfl] at hk
        exact .inl (hk ▸ Runs.of_step hc)
    · exact .inr ⟨m, Runs.refl _, k + 1, hk⟩

section Last

variable {init : List (Instr H)} {o : Op} {pos : Nat} {m m' : Machine}

/-- The last operation of the code. -/
theorem Runs.last {m₁ : Machine} (hexec : o.exec m = .ok m₁) :
    Runs (init ++ [.op o]) (.run init.length m) (.run (init.length + 1) m₁) :=
  Runs.op (by simp) hexec

theorem step_after_last (m : Machine) :
    step (init ++ [.op o]) (.run (init.length + 1) m) = .run (init.length + 1) m :=
  step_end (by simp) m

/-- Before the last operation of the code. -/
theorem Runs.before_last (hstay : StaysWithin init.length init) (hpos : pos ≤ init.length)
    (hexec : ∀ m, ∃ m₁, o.exec m = .ok m₁)
    (h : Runs (init ++ [.op o]) (.run pos m) (.run (init.length + 1) m')) :
    ∃ m₁, Runs init (.run pos m) (.run init.length m₁) ∧ o.exec m₁ = .ok m' := by
  rcases h.of_append hstay hpos with hrun | ⟨m₁, hrun, hrest⟩
  · exact absurd (hstay.run_le hpos hrun) (Nat.not_succ_le_self _)
  · obtain ⟨m₂, hm₂⟩ := hexec m₁
    have hsame := hrest.final_unique (Runs.last hm₂) (step_after_last m') (step_after_last m₂)
    cases hsame
    exact ⟨m₁, hrun, hm₂⟩

theorem Runs.fault_before_last {f : Fault} (hstay : StaysWithin init.length init)
    (hpos : pos ≤ init.length) (hexec : ∀ m, ∃ m₁, o.exec m = .ok m₁)
    (h : Runs (init ++ [.op o]) (.run pos m) (.fault f m')) :
    Runs init (.run pos m) (.fault f m') := by
  rcases h.of_append hstay hpos with hrun | ⟨m₁, -, hrest⟩
  · exact hrun
  · obtain ⟨m₂, hm₂⟩ := hexec m₁
    have hsame := hrest.final_unique (Runs.last hm₂) rfl (step_after_last m₂)
    cases hsame

end Last

end EosVm.Lib.X86
