import Mathlib.Data.List.Pairwise
import Mathlib.Data.List.Perm.Basic
import Mathlib.Tactic.Linarith

/-!
# Tilings by blocks

Blocks of consecutive natural numbers, and lists of blocks that tile the numbers covered by another
list: no two of them overlap, together they cover the same numbers, and all of them are non-empty
multiples of a unit. Blocks can be split, merged and added.
-/

set_option autoImplicit false

namespace EosVm.Lib

/-- A block: its first number and its size. -/
abbrev Block := Nat × Nat

/-- The number lies in the block. -/
def Block.Has (b : Block) (x : Nat) : Prop := b.1 ≤ x ∧ x < b.1 + b.2

/-- The blocks have no number in common. -/
def Block.Apart (b c : Block) : Prop := b.1 + b.2 ≤ c.1 ∨ c.1 + c.2 ≤ b.1

/-- A non-empty block of whole units. -/
structure Block.Aligned (unit : Nat) (b : Block) : Prop where
  pos : 0 < b.2
  start : unit ∣ b.1
  size : unit ∣ b.2

/-- The number lies in one of the blocks. -/
def Covers (blocks : List Block) (x : Nat) : Prop := ∃ b ∈ blocks, b.Has x

/-- `blocks` tile what `regions` cover. -/
structure Tiles (unit : Nat) (regions blocks : List Block) : Prop where
  apart : blocks.Pairwise Block.Apart
  aligned : ∀ b ∈ blocks, b.Aligned unit
  covers : ∀ x, Covers blocks x ↔ Covers regions x

theorem Block.Apart.symm {b c : Block} (h : b.Apart c) : c.Apart b := Or.symm h

instance : Std.Symm Block.Apart := ⟨fun _ _ h => h.symm⟩

@[simp] theorem covers_nil (x : Nat) : ¬ Covers [] x := by simp [Covers]

@[simp] theorem covers_cons {b : Block} {blocks : List Block} {x : Nat} :
    Covers (b :: blocks) x ↔ b.Has x ∨ Covers blocks x := by simp [Covers]

theorem covers_perm {blocks blocks' : List Block} (h : blocks.Perm blocks') (x : Nat) :
    Covers blocks x ↔ Covers blocks' x := by
  constructor
  · rintro ⟨b, hb, hx⟩
    exact ⟨b, h.mem_iff.mp hb, hx⟩
  · rintro ⟨b, hb, hx⟩
    exact ⟨b, h.mem_iff.mpr hb, hx⟩

/-- Two blocks with no number in common are apart. -/
theorem Block.apart_of_disjoint {b c : Block} (hb : 0 < b.2) (hc : 0 < c.2)
    (h : ∀ x, b.Has x → ¬ c.Has x) : b.Apart c := by
  unfold Apart
  unfold Has at h
  by_contra hover
  have hmax := h (max b.1 c.1)
  omega

namespace Tiles

variable {unit : Nat} {regions blocks : List Block} {b c : Block}

theorem nil : Tiles unit [] [] := ⟨List.Pairwise.nil, by simp, fun _ => Iff.rfl⟩

theorem perm {blocks' : List Block} (h : Tiles unit regions blocks) (hp : blocks.Perm blocks') :
    Tiles unit regions blocks' where
  apart := hp.pairwise h.apart fun hbc => hbc.symm
  aligned := fun b hb => h.aligned b (hp.mem_iff.mpr hb)
  covers := fun x => (covers_perm hp.symm x).trans (h.covers x)

/-- Blocks with a number in common are the same. -/
theorem eq_of_has (h : Tiles unit regions blocks) (hb : b ∈ blocks) (hc : c ∈ blocks) {x : Nat}
    (hbx : b.Has x) (hcx : c.Has x) : b = c := by
  by_contra hne
  have hapart : b.Apart c := h.apart.forall hb hc hne
  unfold Block.Apart at hapart
  unfold Block.Has at hbx hcx
  omega

/-- A block is found by its first number. -/
theorem eq_of_start (h : Tiles unit regions blocks) (hb : b ∈ blocks) (hc : c ∈ blocks)
    (hstart : b.1 = c.1) : b = c := by
  have hbpos := (h.aligned b hb).pos
  have hcpos := (h.aligned c hc).pos
  refine h.eq_of_has hb hc (x := b.1) ⟨le_refl _, by omega⟩ ⟨by omega, by omega⟩

theorem nodup (h : Tiles unit regions blocks) : blocks.Nodup := by
  refine h.apart.imp_of_mem ?_
  rintro b c hb - hapart rfl
  have hpos := (h.aligned b hb).pos
  unfold Block.Apart at hapart
  omega

/-- A new region is a new block. -/
theorem add (h : Tiles unit regions blocks) (hb : b.Aligned unit)
    (hfresh : ∀ r ∈ regions, b.Apart r) : Tiles unit (b :: regions) (b :: blocks) where
  apart := by
    refine List.pairwise_cons.mpr ⟨?_, h.apart⟩
    intro c hc
    refine Block.apart_of_disjoint hb.pos (h.aligned c hc).pos fun x hbx hcx => ?_
    obtain ⟨r, hr, hrx⟩ := (h.covers x).mp ⟨c, hc, hcx⟩
    have hapart := hfresh r hr
    unfold Block.Apart at hapart
    unfold Block.Has at hbx hrx
    omega
  aligned := by
    intro c hc
    rcases List.mem_cons.mp hc with rfl | hc
    · exact hb
    · exact h.aligned c hc
  covers := by
    intro x
    rw [covers_cons, covers_cons, h.covers x]

/-- A block is split in two. -/
theorem split {p s n : Nat} (h : Tiles unit regions ((p, s) :: blocks)) (hpos : 0 < n) (hlt : n < s)
    (hn : unit ∣ n) : Tiles unit regions ((p, n) :: (p + n, s - n) :: blocks) where
  apart := by
    obtain ⟨hfirst, hrest⟩ := List.pairwise_cons.mp h.apart
    refine List.pairwise_cons.mpr ⟨?_, List.pairwise_cons.mpr ⟨?_, hrest⟩⟩
    · intro c hc
      rcases List.mem_cons.mp hc with rfl | hc
      · exact Or.inl (le_refl _)
      · have hapart := hfirst c hc
        unfold Block.Apart at hapart ⊢
        simp only at hapart ⊢
        omega
    · intro c hc
      have hapart := hfirst c hc
      unfold Block.Apart at hapart ⊢
      simp only at hapart ⊢
      omega
  aligned := by
    have hps := h.aligned (p, s) (List.mem_cons_self ..)
    intro c hc
    rcases List.mem_cons.mp hc with rfl | hc
    · exact ⟨hpos, hps.start, hn⟩
    · rcases List.mem_cons.mp hc with rfl | hc
      · exact ⟨Nat.sub_pos_of_lt hlt, Nat.dvd_add hps.start hn, Nat.dvd_sub hps.size hn⟩
      · exact h.aligned c (List.mem_cons_of_mem _ hc)
  covers := by
    intro x
    rw [← h.covers x]
    simp only [covers_cons, Block.Has]
    constructor
    · rintro (hx | hx | hx)
      · exact Or.inl (by omega)
      · exact Or.inl (by omega)
      · exact Or.inr hx
    · rintro (hx | hx)
      · by_cases hlow : x < p + n
        · exact Or.inl (by omega)
        · exact Or.inr (Or.inl (by omega))
      · exact Or.inr (Or.inr hx)

/-- Two neighbours are merged. -/
theorem merge {p s t : Nat} (h : Tiles unit regions ((p, s) :: (p + s, t) :: blocks)) :
    Tiles unit regions ((p, s + t) :: blocks) where
  apart := by
    obtain ⟨hfirst, hrest⟩ := List.pairwise_cons.mp h.apart
    obtain ⟨hsecond, hrest⟩ := List.pairwise_cons.mp hrest
    refine List.pairwise_cons.mpr ⟨?_, hrest⟩
    intro c hc
    have hleft := hfirst c (List.mem_cons_of_mem _ hc)
    have hright := hsecond c hc
    have hpos := (h.aligned c (List.mem_cons_of_mem _ (List.mem_cons_of_mem _ hc))).pos
    unfold Block.Apart at hleft hright ⊢
    simp only at hleft hright ⊢
    omega
  aligned := by
    have hs := h.aligned (p, s) (List.mem_cons_self ..)
    have ht := h.aligned (p + s, t) (List.mem_cons_of_mem _ (List.mem_cons_self ..))
    intro c hc
    rcases List.mem_cons.mp hc with rfl | hc
    · exact ⟨Nat.add_pos_left hs.pos _, hs.start, Nat.dvd_add hs.size ht.size⟩
    · exact h.aligned c (List.mem_cons_of_mem _ (List.mem_cons_of_mem _ hc))
  covers := by
    intro x
    rw [← h.covers x]
    simp only [covers_cons, Block.Has]
    constructor
    · rintro (hx | hx)
      · by_cases hlow : x < p + s
        · exact Or.inl (by omega)
        · exact Or.inr (Or.inl (by omega))
      · exact Or.inr (Or.inr hx)
    · rintro (hx | hx | hx)
      · exact Or.inl (by omega)
      · exact Or.inl (by omega)
      · exact Or.inr hx

end Tiles

end EosVm.Lib
