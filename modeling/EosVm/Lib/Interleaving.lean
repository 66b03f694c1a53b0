import EosVm.Lib.Trace
import Mathlib.Algebra.Order.Ring.Int
import Mathlib.Logic.Function.Basic

/-!
# Interleavings

Parties that step one at a time on a state of their own and a shared one. The rules are for
invariants of all parties, for a shared state that a party answers for, and for what a fair
behaviour comes to.
-/

set_option autoImplicit false

namespace EosVm.Lib

open Function

variable {ι S L A : Type} [DecidableEq ι]

/-- A shared state, and one for each party. -/
structure Parties (ι S L : Type) where
  shared : S
  owned : ι → L

/-- A step of one party. -/
def interleave (step : A → S → L → Option (S × L)) (e : ι × A) (s : Parties ι S L) :
    Option (Parties ι S L) :=
  (step e.2 s.shared (s.owned e.1)).map fun r => ⟨r.1, update s.owned e.1 r.2⟩

section Steps

variable {step : A → S → L → Option (S × L)} {e : ι × A} {s s' : Parties ι S L} {P H : L → Prop}

theorem interleave_own (h : interleave step e s = some s') :
    step e.2 s.shared (s.owned e.1) = some (s'.shared, s'.owned e.1) := by
  obtain ⟨r, hstep, rfl⟩ := Option.map_eq_some_iff.mp h
  rw [hstep]
  dsimp only
  rw [update_self]

theorem interleave_other (h : interleave step e s = some s') {i : ι} (hi : i ≠ e.1) :
    s'.owned i = s.owned i := by
  obtain ⟨r, -, rfl⟩ := Option.map_eq_some_iff.mp h
  exact update_of_ne hi _ _

/-- What a party keeps by its steps, all parties keep. -/
theorem owned_step (hkeep : ∀ a x l x' l', P l → step a x l = some (x', l') → P l')
    (h : ∀ i, P (s.owned i))
    (hstep : interleave step e s = some s') (i : ι) : P (s'.owned i) := by
  by_cases hi : i = e.1
  · subst hi
    exact hkeep _ _ _ _ _ (h e.1) (interleave_own hstep)
  · rw [interleave_other hstep hi]
    exact h i

/-- When a bad shared state has a party that answers for it, and only the party itself gets out of
that, then each later one has. -/
theorem blame_step (Bad : S → Prop)
    (hkeep : ∀ a x l x' l', P l → step a x l = some (x', l') → Bad x' → (Bad x → H l) → H l')
    (hown : ∀ i, P (s.owned i)) (h : Bad s.shared → ∃ i, H (s.owned i))
    (hstep : interleave step e s = some s')
    (hbad : Bad s'.shared) : ∃ i, H (s'.owned i) := by
  by_cases hother : Bad s.shared ∧ ¬ H (s.owned e.1)
  · obtain ⟨hbefore, hnot⟩ := hother
    obtain ⟨i, hi⟩ := h hbefore
    have hne : i ≠ e.1 := fun heq => hnot (heq ▸ hi)
    exact ⟨i, by rwa [interleave_other hstep hne]⟩
  · have hself : Bad s.shared → H (s.owned e.1) := fun hbefore =>
      by_contra fun hnot => hother ⟨hbefore, hnot⟩
    exact ⟨e.1, hkeep _ _ _ _ _ (hown e.1) (interleave_own hstep) hbad hself⟩

end Steps

section Extend

variable {κ : Type} [DecidableEq κ] {step : A → S → L → Option (S × L)} {f : κ → ι} {others : ι → L}

/-- The parties among others that do nothing. -/
noncomputable def Parties.among (f : κ → ι) (others : ι → L) (s : Parties κ S L) : Parties ι S L :=
  ⟨s.shared, extend f s.owned others⟩

theorem interleave_among (hf : Injective f) {e : κ × A} {s s' : Parties κ S L}
    (h : interleave step e s = some s') :
    interleave step (f e.1, e.2) (s.among f others) = some (s'.among f others) := by
  obtain ⟨r, hstep, rfl⟩ := Option.map_eq_some_iff.mp h
  have hown : (s.among f others).owned (f e.1) = s.owned e.1 := hf.extend_apply ..
  have hshared : (s.among f others).shared = s.shared := rfl
  rw [interleave]
  dsimp only
  rw [hown, hshared, hstep]
  refine congrArg some (congrArg (Parties.mk r.1) (funext fun i => ?_))
  change update (extend f s.owned others) (f e.1) r.2 i = extend f (update s.owned e.1 r.2) others i
  by_cases hi : ∃ k, f k = i
  · obtain ⟨k, rfl⟩ := hi
    rw [hf.extend_apply]
    by_cases hk : k = e.1
    · rw [hk, update_self, update_self]
    · rw [update_of_ne (hf.ne hk), update_of_ne hk, hf.extend_apply]
  · rw [update_of_ne fun heq => hi ⟨_, heq.symm⟩, extend_apply' _ _ _ hi, extend_apply' _ _ _ hi]

theorem trace_among (others : ι → L) (hf : Injective f) {s s' : Parties κ S L}
    {steps : List (TraceStep (Parties κ S L) (κ × A) (Parties κ S L))}
    (h : Trace (interleave step) id s steps s') :
    Trace (interleave step) id (s.among f others)
      (steps.map fun t =>
        ⟨t.before.among f others, (f t.event.1, t.event.2), t.outcome.among f others⟩)
      (s'.among f others) := by
  induction h with
  | nil s => exact .nil _
  | cons hstep _ ih => exact .cons (interleave_among hf hstep) ih

end Extend

/-- An infinite run; at some times nothing happens. -/
structure Behaviour (ι : Type) [DecidableEq ι] (step : A → S → L → Option (S × L)) where
  state : Nat → Parties ι S L
  event : Nat → Option (ι × A)
  idle : ∀ n, event n = none → state (n + 1) = state n
  moves : ∀ n e, event n = some e → interleave step e (state n) = some (state (n + 1))

namespace Behaviour

variable {step : A → S → L → Option (S × L)} (b : Behaviour ι step)

/-- A party that always has to go on and can move does. -/
def Fair (MustGo : L → Prop) : Prop :=
  ∀ i n, (∀ m, n ≤ m → MustGo ((b.state m).owned i) ∧
      ∃ a r, step a (b.state m).shared ((b.state m).owned i) = some r) →
    ∃ m, n ≤ m ∧ ∃ a, b.event m = some (i, a)

variable {b}

theorem invariant {P : Parties ι S L → Prop} (hinit : P (b.state 0))
    (hstep : ∀ s e s', P s → interleave step e s = some s' → P s') (n : Nat) : P (b.state n) := by
  induction n with
  | zero => exact hinit
  | succ n ih =>
    cases hevent : b.event n with
    | none => rwa [b.idle n hevent]
    | some e => exact hstep _ e _ ih (b.moves n e hevent)

variable {Bad : S → Prop} {H MustGo : L → Prop} {Allowed : A → Prop} {rank : L → Nat}

/-- While the shared state stays bad, a party that answers for it does so, and each of its moves
comes closer. -/
theorem rank_step
    (hrank : ∀ a x l x' l', Allowed a → Bad x → H l → step a x l = some (x', l') → Bad x' →
      H l' ∧ rank l' < rank l)
    (hallowed : ∀ n e, b.event n = some e → Allowed e.2) {i : ι} {n : Nat}
    (hbad : Bad (b.state n).shared)
    (hnext : Bad (b.state (n + 1)).shared) (h : H ((b.state n).owned i)) :
    H ((b.state (n + 1)).owned i) ∧ rank ((b.state (n + 1)).owned i) ≤ rank ((b.state n).owned i) ∧
      ∀ a, b.event n = some (i, a) →
        rank ((b.state (n + 1)).owned i) < rank ((b.state n).owned i) := by
  cases hevent : b.event n with
  | none =>
    rw [b.idle n hevent]
    exact ⟨h, Nat.le_refl _, fun a ha => absurd ha (Option.some_ne_none _).symm⟩
  | some e =>
    have hmove := b.moves n e hevent
    by_cases hi : i = e.1
    · subst hi
      obtain ⟨hkept, hless⟩ :=
        hrank _ _ _ _ _ (hallowed n e hevent) hbad h (interleave_own hmove) hnext
      exact ⟨hkept, Nat.le_of_lt hless, fun _ _ => hless⟩
    · rw [interleave_other hmove hi]
      refine ⟨h, Nat.le_refl _, fun a ha => ?_⟩
      exact absurd (congrArg Prod.fst (Option.some.inj ha)).symm hi

/-- A fair behaviour gets out of a bad shared state that a party answers for, when this party has to
go on, can always move, and comes closer with each of its moves. -/
theorem leaves_bad (Bad : S → Prop) (H : L → Prop) (Allowed : A → Prop) (rank : L → Nat)
    (hfair : b.Fair MustGo) (hgo : ∀ l, H l → MustGo l)
    (hcan : ∀ x l, Bad x → H l → ∃ a r, step a x l = some r)
    (hrank : ∀ a x l x' l', Allowed a → Bad x → H l → step a x l = some (x', l') → Bad x' →
      H l' ∧ rank l' < rank l)
    (hallowed : ∀ n e, b.event n = some e → Allowed e.2) {i : ι} {n : Nat}
    (h : H ((b.state n).owned i)) :
    ∃ m, n ≤ m ∧ ¬ Bad (b.state m).shared := by
  by_contra hstuck
  have hbad : ∀ m, n ≤ m → Bad (b.state m).shared := fun m hm =>
    by_contra fun hnot => hstuck ⟨m, hm, hnot⟩
  -- no rank is low enough
  suffices hnone : ∀ (k m : Nat), n ≤ m → H ((b.state m).owned i) →
      rank ((b.state m).owned i) ≠ k from
    hnone _ n (Nat.le_refl n) h rfl
  intro k
  induction k using Nat.strongRecOn with
  | ind k ih =>
    intro m hm hanswers hk
    have hstays : ∀ j, H ((b.state (m + j)).owned i) ∧
        rank ((b.state (m + j)).owned i) ≤ rank ((b.state m).owned i) := by
      intro j
      induction j with
      | zero => exact ⟨hanswers, Nat.le_refl _⟩
      | succ j ihj =>
        obtain ⟨hkept, hle, -⟩ :=
          rank_step hrank hallowed (hbad (m + j) (by omega)) (hbad (m + j + 1) (by omega)) ihj.1
        exact ⟨hkept, Nat.le_trans hle ihj.2⟩
    have hmove : ∃ m', m ≤ m' ∧ ∃ a, b.event m' = some (i, a) := by
      refine hfair i m fun m' hm' => ?_
      obtain ⟨j, rfl⟩ := Nat.exists_eq_add_of_le hm'
      exact ⟨hgo _ (hstays j).1, hcan _ _ (hbad _ (by omega)) (hstays j).1⟩
    obtain ⟨m', hm', a, ha⟩ := hmove
    obtain ⟨j, rfl⟩ := Nat.exists_eq_add_of_le hm'
    obtain ⟨hkept, -, hless⟩ :=
      rank_step hrank hallowed (hbad (m + j) (by omega)) (hbad (m + j + 1) (by omega)) (hstays j).1
    have hlow := Nat.lt_of_lt_of_le (hless a ha) (hstays j).2
    exact ih _ (hk ▸ hlow) _ (by omega) hkept rfl

/-- The state after the first steps of a list. -/
def after (step : A → S → L → Option (S × L)) : List (ι × A) → Parties ι S L → Nat → Parties ι S L
  | [], s, _ => s
  | _, s, 0 => s
  | e :: es, s, n + 1 => after step es ((interleave step e s).getD s) n

theorem after_zero (es : List (ι × A)) (s : Parties ι S L) : after step es s 0 = s := by
  cases es <;> rfl

theorem after_of_runEvents {es : List (ι × A)} {s s' : Parties ι S L} {steps}
    (h : runEvents (interleave step) id es s = some (steps, s')) (n : Nat) :
    (es[n]? = none → after step es s (n + 1) = after step es s n) ∧
      (∀ e, es[n]? = some e →
        interleave step e (after step es s n) = some (after step es s (n + 1))) ∧
      (es.length ≤ n → after step es s n = s') := by
  induction es generalizing s steps n with
  | nil =>
    obtain ⟨-, rfl⟩ := Prod.mk.inj (Option.some.inj h)
    refine ⟨fun _ => by cases n <;> rfl, fun e he => ?_, fun _ => by cases n <;> rfl⟩
    rw [List.getElem?_nil] at he
    cases he
  | cons e es ih =>
    simp only [runEvents, Option.bind_eq_bind, Option.bind_eq_some_iff, Option.some.injEq,
      Prod.mk.injEq] at h
    obtain ⟨s₁, hstep, ⟨rest, last⟩, hrest, rfl, rfl⟩ := h
    cases n with
    | zero =>
      refine ⟨fun hnone => ?_, fun e' he => ?_, fun hle => absurd hle (Nat.not_succ_le_zero _)⟩
      · rw [List.getElem?_cons_zero] at hnone
        cases hnone
      · rw [List.getElem?_cons_zero] at he
        obtain rfl := Option.some.inj he
        rw [after_zero, after, after_zero, hstep]
        rfl
    | succ n =>
      rw [List.getElem?_cons_succ, after, after, hstep, List.length_cons, Nat.add_le_add_iff_right]
      exact ih hrest n

/-- A finite run, after which nothing happens. -/
def ofEvents (step : A → S → L → Option (S × L)) (es : List (ι × A)) (s : Parties ι S L)
    (h : (runEvents (interleave step) id es s).isSome = true) : Behaviour ι step where
  state := after step es s
  event n := es[n]?
  idle n hnone := by
    obtain ⟨⟨steps, s'⟩, hrun⟩ := Option.isSome_iff_exists.mp h
    exact (after_of_runEvents hrun n).1 hnone
  moves n e he := by
    obtain ⟨⟨steps, s'⟩, hrun⟩ := Option.isSome_iff_exists.mp h
    exact (after_of_runEvents hrun n).2.1 e he

theorem ofEvents_fair {es : List (ι × A)} {s s' : Parties ι S L} {steps} {MustGo : L → Prop}
    (h : (runEvents (interleave step) id es s).isSome = true)
    (hrun : runEvents (interleave step) id es s = some (steps, s'))
    (hend : ∀ i, ¬ MustGo (s'.owned i)) :
    (ofEvents step es s h).Fair MustGo := by
  intro i n halways
  have hlast : after step es s (max n es.length) = s' :=
    (after_of_runEvents hrun _).2.2 (Nat.le_max_right ..)
  have hgo := (halways _ (Nat.le_max_left n es.length)).1
  exact absurd (hlast ▸ hgo) (hend i)

end Behaviour

end EosVm.Lib
