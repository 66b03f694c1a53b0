import Mathlib.Algebra.Order.Ring.Int
import Mathlib.Data.List.Nodup
import Mathlib.Logic.Function.Basic

/-!
# Linked lists in a store of links

A doubly linked list between two ends, which may be one sentinel, and a singly linked list that ends
in null. Each is related to the list of its elements, and each operation on the links to one on that
list.
-/

set_option autoImplicit false

namespace EosVm.Lib

open Function

variable {ι : Type}

/-- The links run both ways from `a` through the elements to `b`. -/
def Segment (next prev : ι → ι) : ι → List ι → ι → Prop
  | a, [], b => next a = b ∧ prev b = a
  | a, x :: xs, b => next a = x ∧ prev x = a ∧ Segment next prev x xs b

namespace Segment

variable {next prev next' prev' : ι → ι} {a b x : ι} {xs l r : List ι}

theorem next_mem (h : Segment next prev a xs b) : next a ∈ xs ++ [b] := by
  cases xs with
  | nil => exact List.mem_singleton.mpr h.1
  | cons y ys =>
    rw [h.1]
    exact List.mem_cons_self ..

theorem prev_mem (h : Segment next prev a xs b) : prev b ∈ a :: xs := by
  induction xs generalizing a with
  | nil => exact List.mem_singleton.mpr h.2
  | cons y ys ih => exact List.mem_cons_of_mem _ (ih h.2.2)

/-- Only the links of the ends and the elements matter. -/
theorem congr (h : Segment next prev a xs b) (hnext : ∀ y ∈ a :: xs, next' y = next y)
    (hprev : ∀ y ∈ xs ++ [b], prev' y = prev y) : Segment next' prev' a xs b := by
  induction xs generalizing a with
  | nil =>
    obtain ⟨hforward, hback⟩ := h
    exact ⟨(hnext a (List.mem_cons_self ..)).trans hforward,
      (hprev b (List.mem_singleton_self b)).trans hback⟩
  | cons y ys ih =>
    obtain ⟨hforward, hback, hrest⟩ := h
    refine ⟨(hnext a (List.mem_cons_self ..)).trans hforward,
      (hprev y (List.mem_cons_self ..)).trans hback, ih hrest ?_ ?_⟩
    · exact fun z hz => hnext z (List.mem_cons_of_mem _ hz)
    · exact fun z hz => hprev z (List.mem_cons_of_mem _ hz)

theorem append : Segment next prev a (l ++ x :: r) b ↔
    Segment next prev a l x ∧ Segment next prev x r b := by
  induction l generalizing a with
  | nil => exact and_assoc.symm
  | cons y ys ih =>
    rw [List.cons_append, Segment, Segment, ih, and_assoc, and_assoc]

variable [DecidableEq ι]

/-- The last link is redirected to another end. -/
theorem redirect {n : ι} (h : Segment next prev a l x) (hnodup : (a :: l).Nodup) (hn : n ∉ l) :
    Segment (update next (prev x) n) (update prev n (prev x)) a l n := by
  induction l generalizing a with
  | nil =>
    obtain ⟨-, hback⟩ := h
    rw [hback]
    exact ⟨update_self .., update_self ..⟩
  | cons y ys ih =>
    obtain ⟨hforward, hback, hrest⟩ := h
    obtain ⟨ha, htail⟩ := List.nodup_cons.mp hnodup
    have hne : a ≠ prev x := fun heq => ha (heq ▸ hrest.prev_mem)
    refine ⟨?_, ?_, ih hrest htail (List.not_mem_of_not_mem_cons hn)⟩
    · rw [update_of_ne hne, hforward]
    · rw [update_of_ne (Ne.symm (List.ne_of_not_mem_cons hn)), hback]

/-- `unlink` of an element. -/
theorem unlink (h : Segment next prev a (l ++ x :: r) b) (hnodup : (a :: (l ++ x :: r)).Nodup)
    (hb : b ∉ l ++ x :: r) :
    Segment (update next (prev x) (next x)) (update prev (next x) (prev x)) a (l ++ r) b := by
  obtain ⟨hl, hr⟩ := append.mp h
  obtain ⟨ha, hlist⟩ := List.nodup_cons.mp hnodup
  obtain ⟨hnl, hnr, hdisjoint⟩ := List.nodup_append.mp hlist
  simp only [List.mem_append, List.mem_cons, not_or] at ha hb
  have hal : (a :: l).Nodup := List.nodup_cons.mpr ⟨ha.1, hnl⟩
  cases r with
  | nil =>
    rw [List.append_nil, hr.1]
    exact hl.redirect hal hb.1
  | cons z zs =>
    obtain ⟨hforward, -, hrest⟩ := hr
    have hzl : z ∉ l := fun hz =>
      hdisjoint z hz z (List.mem_cons_of_mem _ (List.mem_cons_self ..)) rfl
    rw [hforward]
    refine append.mpr ⟨hl.redirect hal hzl, hrest.congr ?_ ?_⟩
    · intro y hy
      have hne : y ≠ prev x := by
        rintro rfl
        rcases List.mem_cons.mp hl.prev_mem with heq | hmem
        · exact ha.2.2 (heq ▸ hy)
        · exact hdisjoint _ hmem _ (List.mem_cons_of_mem _ hy) rfl
      exact update_of_ne hne _ _
    · intro y hy
      have hne : y ≠ z := by
        rintro rfl
        rcases List.mem_append.mp hy with hmem | hmem
        · exact (List.nodup_cons.mp (List.nodup_cons.mp hnr).2).1 hmem
        · exact hb.2.2 (List.mem_singleton.mp hmem ▸ List.mem_cons_self ..)
      exact update_of_ne hne _ _

/-- An element is linked in behind the first end. -/
theorem pushFront (h : Segment next prev a xs b) (hxs : xs.Nodup) (ha : a ∉ xs) (hb : b ∉ xs)
    (hxa : x ≠ a) (hxb : x ≠ b) (hx : x ∉ xs) :
    Segment (update (update next x (next a)) a x)
      (update (update prev x a) (next a) x) a (x :: xs) b := by
  have hnext := h.next_mem
  have hne : x ≠ next a := by
    rintro heq
    rcases List.mem_append.mp (heq ▸ hnext) with hmem | hmem
    · exact hx hmem
    · exact hxb (List.mem_singleton.mp hmem)
  have hforward : update (update next x (next a)) a x x = next a := by
    rw [update_of_ne hxa, update_self]
  refine ⟨update_self .., by rw [update_of_ne hne, update_self], ?_⟩
  cases xs with
  | nil =>
    obtain ⟨hb', -⟩ := h
    exact ⟨hforward.trans hb', by rw [hb', update_self]⟩
  | cons y ys =>
    obtain ⟨hy, -, hrest⟩ := h
    obtain ⟨hyys, -⟩ := List.nodup_cons.mp hxs
    refine ⟨hforward.trans hy, by rw [hy, update_self], hrest.congr ?_ ?_⟩
    · intro z hz
      have hza : z ≠ a := fun heq => ha (heq ▸ hz)
      have hzx : z ≠ x := fun heq => hx (heq ▸ hz)
      rw [update_of_ne hza, update_of_ne hzx]
    · intro z hz
      have hzy : z ≠ next a := by
        rw [hy]
        rintro rfl
        rcases List.mem_append.mp hz with hmem | hmem
        · exact hyys hmem
        · exact hb (List.mem_singleton.mp hmem ▸ List.mem_cons_self ..)
      have hzx : z ≠ x := by
        rintro rfl
        rcases List.mem_append.mp hz with hmem | hmem
        · exact hx (List.mem_cons_of_mem _ hmem)
        · exact hxb (List.mem_singleton.mp hmem)
      rw [update_of_ne hzy, update_of_ne hzx]

end Segment

/-- A circular list through a sentinel. -/
structure Ring (next prev : ι → ι) (s : ι) (xs : List ι) : Prop where
  links : Segment next prev s xs s
  nodup : (s :: xs).Nodup

namespace Ring

variable {next prev : ι → ι} {s x : ι} {l r xs : List ι}

/-- The last element is the one before the sentinel. -/
theorem prev_sentinel (h : Ring next prev s (xs ++ [x])) : prev s = x :=
  (Segment.append.mp h.links).2.2

variable [DecidableEq ι]

/-- An element is unlinked and linked in at the front. -/
theorem moveToFront (h : Ring next prev s (l ++ x :: r)) {next₁ prev₁ : ι → ι}
    (hnext : next₁ = update next (prev x) (next x))
    (hprev : prev₁ = update prev (next x) (prev x)) :
    Ring (update (update next₁ x (next₁ s)) s x) (update (update prev₁ x s) (next₁ s) x) s
      (x :: (l ++ r)) := by
  subst hnext hprev
  obtain ⟨hs, hlist⟩ := List.nodup_cons.mp h.nodup
  have hunlinked := h.links.unlink h.nodup hs
  have hperm : (l ++ x :: r).Perm (x :: (l ++ r)) := List.perm_middle
  obtain ⟨hx, hrest⟩ := List.nodup_cons.mp (hperm.nodup_iff.mp hlist)
  rw [hperm.mem_iff, List.mem_cons, not_or] at hs
  refine ⟨hunlinked.pushFront hrest hs.2 hs.2 (Ne.symm hs.1) (Ne.symm hs.1) hx, ?_⟩
  rw [List.nodup_cons, List.mem_cons, not_or, List.nodup_cons]
  exact ⟨hs, hx, hrest⟩

end Ring

/-- The links lead from a pointer through the elements to null. -/
def Path (next : ι → Option ι) : Option ι → List ι → Prop
  | o, [] => o = none
  | o, x :: xs => o = some x ∧ Path next (next x) xs

namespace Path

variable {next next' : ι → Option ι} {o : Option ι} {x p : ι} {xs l r : List ι}

theorem congr (h : Path next o xs) (hnext : ∀ y ∈ xs, next' y = next y) : Path next' o xs := by
  induction xs generalizing o with
  | nil => exact h
  | cons y ys ih =>
    obtain ⟨ho, hrest⟩ := h
    refine ⟨ho, ih ?_ fun z hz => hnext z (List.mem_cons_of_mem _ hz)⟩
    rw [hnext y (List.mem_cons_self ..)]
    exact hrest

variable [DecidableEq ι]

/-- A new first element. -/
theorem push (h : Path next o xs) (hx : x ∉ xs) : Path (update next x o) (some x) (x :: xs) := by
  refine ⟨rfl, ?_⟩
  rw [update_self]
  exact h.congr fun y hy => update_of_ne (ne_of_mem_of_not_mem hy hx) _ _

/-- The element after `p` is taken out by the link of `p`. -/
theorem remove (h : Path next o (l ++ p :: x :: r)) (hnodup : (l ++ p :: x :: r).Nodup) :
    Path (update next p (next x)) o (l ++ p :: r) := by
  induction l generalizing o with
  | nil =>
    obtain ⟨ho, -, hrest⟩ := h
    obtain ⟨hp, -⟩ := List.nodup_cons.mp hnodup
    refine ⟨ho, ?_⟩
    rw [update_self]
    exact hrest.congr fun y hy =>
      update_of_ne (ne_of_mem_of_not_mem (List.mem_cons_of_mem _ hy) hp) _ _
  | cons y ys ih =>
    obtain ⟨ho, hrest⟩ := h
    obtain ⟨hy, hys⟩ := List.nodup_cons.mp hnodup
    have hne : y ≠ p := fun heq => hy (heq ▸ List.mem_append_right _ (List.mem_cons_self ..))
    refine ⟨ho, ?_⟩
    rw [update_of_ne hne]
    exact ih hrest hys

end Path

end EosVm.Lib
