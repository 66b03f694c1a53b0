import EosVm.Invariants.JitBlocks

/-!
# Runs of the JIT allocator

Sequences of `alloc` and `free` on one `jit_allocator`. The containers stay consistent in all of
them. `free` merges a block with both neighbours, also across segments; `allocate_segment` does not
look at the neighbours of the new segment, so two adjacent free blocks can appear there.
-/

set_option autoImplicit false

namespace EosVm

open Lib

namespace JitAllocator

/-- Runs of `alloc` and `free`, with the blocks returned and not yet freed: address and requested
size. A failed `alloc` changes nothing. -/
inductive JitReaches (pagesize : Nat) (Allowed : Nat → Option Nat → JitAllocator → Prop) :
    JitAllocator → List (Nat × Nat) → Prop
  | start : JitReaches pagesize Allowed {} []
  | alloc {a a' : JitAllocator} {live : List (Nat × Nat)} {p : Nat} (size : Nat)
      (mapped : Option Nat) (h : JitReaches pagesize Allowed a live) (hsize : 1 ≤ size)
      (hmax : size ≤ 2 ^ 63) (hfresh : FreshMapping pagesize size mapped a)
      (hallowed : Allowed size mapped a) (hrun : a.alloc pagesize size mapped = .ok (p, a')) :
      JitReaches pagesize Allowed a' ((p, size) :: live)
  | free {a a' : JitAllocator} {live : List (Nat × Nat)} (p size : Nat)
      (h : JitReaches pagesize Allowed a live) (hlive : (p, size) ∈ live)
      (hrun : a.free p = .ok a') : JitReaches pagesize Allowed a' (live.erase (p, size))

/-- The block that `alloc` reserves for a request. -/
def reserved (pagesize : Nat) (request : Nat × Nat) : Nat × Nat :=
  (request.1, roundToPage pagesize request.2)

/-- The containers agree with each other and with the live requests. -/
structure Consistent (pagesize : Nat) (a : JitAllocator) (live : List (Nat × Nat)) : Prop where
  wf : a.Wf pagesize
  live : a.allocatedBlocks.Perm (live.map (reserved pagesize))

/-- What a caller sees of `alloc` and `free` from a state. -/
structure Serves (pagesize : Nat) (a : JitAllocator) (live : List (Nat × Nat)) : Prop where
  /-- `alloc` returns a block unless `mmap` fails, -/
  answers : ∀ size mapped, 1 ≤ size → size ≤ 2 ^ 63 → FreshMapping pagesize size mapped a →
    (∃ p a', a.alloc pagesize size mapped = .ok (p, a')) ∨
      (mapped = none ∧ a.alloc pagesize size mapped =
        .error (.wasmBadAlloc "failed to allocate jit segment"))
  /-- and the block is aligned, large enough and apart from the live ones. -/
  block : ∀ size mapped p a', 1 ≤ size → size ≤ 2 ^ 63 → FreshMapping pagesize size mapped a →
    a.alloc pagesize size mapped = .ok (p, a') →
    pagesize ∣ p ∧ size ≤ roundToPage pagesize size ∧
      ∀ request ∈ live, Block.Apart (reserved pagesize (p, size)) (reserved pagesize request)
  /-- `free` of a live block does not fail. -/
  frees : ∀ p size, (p, size) ∈ live → ∃ a', a.free p = .ok a'

variable {pagesize : Nat} {Allowed : Nat → Option Nat → JitAllocator → Prop} {a a' : JitAllocator}
  {live : List (Nat × Nat)} {size p : Nat} {mapped : Option Nat}

theorem Consistent.alloc (h : Consistent pagesize a live) (hpage : 0 < pagesize)
    (hsegment : pagesize ∣ segmentSize) (hsize : 1 ≤ size)
    (hfresh : FreshMapping pagesize size mapped a)
    (hrun : a.alloc pagesize size mapped = .ok (p, a')) :
    Consistent pagesize a' ((p, size) :: live) ∧
      (a.NoAdjacent → EndsApart pagesize size mapped a → a'.NoAdjacent) := by
  rcases h.wf.alloc hpage hsegment hsize hfresh with ⟨-, herr⟩ | ⟨q, b, hok, hwf, hblocks, hno⟩
  · rw [herr] at hrun
    cases hrun
  · rw [hok] at hrun
    obtain ⟨rfl, rfl⟩ := Prod.mk.inj (Except.ok.inj hrun)
    refine ⟨⟨hwf, ?_⟩, hno⟩
    rw [hblocks]
    exact h.live.cons _

/-- The live request at an address is the only one there. -/
theorem Consistent.live_mem (h : Consistent pagesize a live) (hlive : (p, size) ∈ live) :
    (p, roundToPage pagesize size) ∈ a.allocatedBlocks :=
  h.live.mem_iff.mpr (List.mem_map.mpr ⟨(p, size), hlive, rfl⟩)

theorem Consistent.free (h : Consistent pagesize a live) (hlive : (p, size) ∈ live) :
    ∃ b, a.free p = .ok b ∧ Consistent pagesize b (live.erase (p, size)) ∧
      (a.NoAdjacent → b.NoAdjacent) := by
  obtain ⟨b, hok, hwf, hblocks, hno⟩ := h.wf.free (h.live_mem hlive)
  refine ⟨b, hok, ⟨hwf, ?_⟩, hno⟩
  rw [hblocks]
  have hsplit := ((List.perm_cons_erase hlive).map (reserved pagesize))
  exact ((h.live.trans hsplit).erase _).trans (by simp [reserved])

/-- Every run leaves the containers consistent. -/
theorem JitReaches.consistent (hpage : 0 < pagesize) (hsegment : pagesize ∣ segmentSize)
    (h : JitReaches pagesize Allowed a live) : Consistent pagesize a live := by
  induction h with
  | start => exact ⟨wf_empty, List.Perm.nil⟩
  | alloc size mapped _ hsize _ hfresh _ hrun ih =>
    exact (ih.alloc hpage hsegment hsize hfresh hrun).1
  | free p size _ hlive hrun ih =>
    obtain ⟨b, hok, hb, -⟩ := ih.free hlive
    rw [hok] at hrun
    rw [← Except.ok.inj hrun]
    exact hb

/-- Runs in which no new segment ends at a free block never have adjacent free blocks. -/
theorem JitReaches.noAdjacent (hpage : 0 < pagesize) (hsegment : pagesize ∣ segmentSize)
    (hallowed : ∀ size mapped a, Allowed size mapped a → EndsApart pagesize size mapped a)
    (h : JitReaches pagesize Allowed a live) : a.NoAdjacent := by
  induction h with
  | start =>
    intro b hb
    cases hb
  | alloc size mapped hreach hsize _ hfresh hends hrun ih =>
    exact ((hreach.consistent hpage hsegment).alloc hpage hsegment hsize hfresh hrun).2 ih
      (hallowed _ _ _ hends)
  | free p size hreach hlive hrun ih =>
    obtain ⟨b, hok, -, hno⟩ := (hreach.consistent hpage hsegment).free hlive
    rw [hok] at hrun
    rw [← Except.ok.inj hrun]
    exact hno ih

theorem Consistent.serves (h : Consistent pagesize a live) (hpage : 0 < pagesize)
    (hsegment : pagesize ∣ segmentSize) : Serves pagesize a live where
  answers := by
    intro size mapped hsize _ hfresh
    rcases h.wf.alloc hpage hsegment hsize hfresh with herr | ⟨p, a', hok, -⟩
    · exact Or.inr herr
    · exact Or.inl ⟨p, a', hok⟩
  block := by
    intro size mapped p a' hsize _ hfresh hrun
    have hnext := (h.alloc hpage hsegment hsize hfresh hrun).1
    have hmem := hnext.live_mem (List.mem_cons_self ..)
    refine ⟨(hnext.wf.tiles.aligned _ (List.mem_append_right _ hmem)).start,
      le_roundToPage hpage, ?_⟩
    have hapart := hnext.wf.tiles.apart.sublist (List.sublist_append_right _ _)
    have hpairs := hnext.live.pairwise hapart fun hbc => Block.Apart.symm hbc
    intro request hrequest
    exact (List.pairwise_cons.mp hpairs).1 _ (List.mem_map.mpr ⟨request, hrequest, rfl⟩)
  frees := by
    intro p size hlive
    obtain ⟨b, hok, -⟩ := h.free hlive
    exact ⟨b, hok⟩

/-- The page size divides `segment_size`. -/
theorem pagesize_dvd_segmentSize {k : Nat} (hk : k ≤ 30) : 2 ^ k ∣ segmentSize :=
  Nat.pow_dvd_pow 2 hk

/-- The containers are consistent after every run, and serve its next call; free blocks are never
adjacent in a run whose new segments do not end at a free block. -/
theorem jit_allocator_consistent {k : Nat} (hk : k ≤ 30) :
    (∀ a live, JitReaches (2 ^ k) (fun _ _ _ => True) a live →
      Consistent (2 ^ k) a live ∧ Serves (2 ^ k) a live) ∧
    (∀ a live, JitReaches (2 ^ k) (EndsApart (2 ^ k)) a live →
      Consistent (2 ^ k) a live ∧ Serves (2 ^ k) a live ∧ a.NoAdjacent) := by
  have hpage : 0 < 2 ^ k := Nat.two_pow_pos k
  have hsegment := pagesize_dvd_segmentSize hk
  refine ⟨fun a live h => ?_, fun a live h => ?_⟩
  · have hcons := h.consistent hpage hsegment
    exact ⟨hcons, hcons.serves hpage hsegment⟩
  · have hcons := h.consistent hpage hsegment
    exact ⟨hcons, hcons.serves hpage hsegment,
      h.noAdjacent hpage hsegment fun _ _ _ hends => hends⟩

/-- One page taken from a segment at `2 ^ 40`. -/
def onePage : JitAllocator where
  segments := [(2 ^ 40, 2 ^ 30)]
  freeBlocksBySize := [(2 ^ 30 - 4096, 2 ^ 40 + 4096)]
  allocatedBlocksBySize := [(4096, 2 ^ 40)]
  freeBlocks := [(2 ^ 40 + 4096, 2 ^ 30 - 4096)]
  allocatedBlocks := [(2 ^ 40, 4096)]

/-- Two pages taken from a segment at `2 ^ 40`. -/
def twoPages : JitAllocator where
  segments := [(2 ^ 40, 2 ^ 30)]
  freeBlocksBySize := [(2 ^ 30 - 8192, 2 ^ 40 + 8192)]
  allocatedBlocksBySize := [(4096, 2 ^ 40 + 4096), (4096, 2 ^ 40)]
  freeBlocks := [(2 ^ 40 + 8192, 2 ^ 30 - 8192)]
  allocatedBlocks := [(2 ^ 40 + 4096, 4096), (2 ^ 40, 4096)]

/-- The first of them freed. -/
def firstFreed : JitAllocator where
  segments := [(2 ^ 40, 2 ^ 30)]
  freeBlocksBySize := [(4096, 2 ^ 40), (2 ^ 30 - 8192, 2 ^ 40 + 8192)]
  allocatedBlocksBySize := [(4096, 2 ^ 40 + 4096)]
  freeBlocks := [(2 ^ 40, 4096), (2 ^ 40 + 8192, 2 ^ 30 - 8192)]
  allocatedBlocks := [(2 ^ 40 + 4096, 4096)]

/-- All but a page taken from a second segment, mapped right below the first one. -/
def secondSegment : JitAllocator where
  segments := [(2 ^ 40, 2 ^ 30), (2 ^ 40 - 2 ^ 30, 2 ^ 30)]
  freeBlocksBySize := [(4096, 2 ^ 40 - 4096), (4096, 2 ^ 40), (2 ^ 30 - 8192, 2 ^ 40 + 8192)]
  allocatedBlocksBySize := [(2 ^ 30 - 4096, 2 ^ 40 - 2 ^ 30), (4096, 2 ^ 40 + 4096)]
  freeBlocks := [(2 ^ 40 - 4096, 4096), (2 ^ 40, 4096), (2 ^ 40 + 8192, 2 ^ 30 - 8192)]
  allocatedBlocks := [(2 ^ 40 - 2 ^ 30, 2 ^ 30 - 4096), (2 ^ 40 + 4096, 4096)]

theorem firstFreed_reached {Allowed : Nat → Option Nat → JitAllocator → Prop}
    (hfirst : Allowed 4096 (some (2 ^ 40)) {}) (hsecond : Allowed 4096 none onePage) :
    JitReaches (2 ^ 12) Allowed firstFreed [(2 ^ 40 + 4096, 4096)] := by
  have hone : JitReaches (2 ^ 12) Allowed onePage [(2 ^ 40, 4096)] := by
    refine .alloc 4096 (some (2 ^ 40)) .start (by decide) (by decide) ?_ hfirst
      (by decide +kernel)
    rintro - base ⟨rfl⟩
    exact ⟨by decide, fun seg hseg => by cases hseg⟩
  have htwo : JitReaches (2 ^ 12) Allowed twoPages [(2 ^ 40 + 4096, 4096), (2 ^ 40, 4096)] := by
    refine .alloc 4096 none hone (by decide) (by decide) ?_ hsecond (by decide +kernel)
    rintro - base ⟨⟩
  have hfree : twoPages.free (2 ^ 40) = .ok firstFreed := by decide +kernel
  exact JitReaches.free (2 ^ 40) 4096 htwo (by decide) hfree

/-- Two neighbouring pages are free after four calls. -/
theorem jit_segments_leave_adjacent_free_blocks :
    ∃ a live, JitReaches (2 ^ 12) (fun _ _ _ => True) a live ∧ ¬ a.NoAdjacent := by
  refine ⟨secondSegment, (2 ^ 40 - 2 ^ 30, 2 ^ 30 - 4096) :: [(2 ^ 40 + 4096, 4096)],
    .alloc (2 ^ 30 - 4096) (some (2 ^ 40 - 2 ^ 30)) (firstFreed_reached trivial trivial)
      (by decide) (by decide) ?_ trivial (by decide +kernel), ?_⟩
  · rintro - base ⟨rfl⟩
    refine ⟨by decide, fun seg hseg => ?_⟩
    rw [List.mem_singleton.mp hseg]
    exact Or.inl (by decide)
  · intro hno
    exact hno (2 ^ 40 - 4096, 4096) (by decide) (2 ^ 40, 4096) (by decide) (by decide)

/-- A run of three calls on one segment. -/
theorem jit_allocator_consistent_firstFreed :
    Consistent (2 ^ 12) firstFreed [(2 ^ 40 + 4096, 4096)] ∧
      Serves (2 ^ 12) firstFreed [(2 ^ 40 + 4096, 4096)] ∧ firstFreed.NoAdjacent := by
  refine (jit_allocator_consistent (k := 12) (by decide)).2 _ _ (firstFreed_reached ?_ ?_)
  · intro _ base _ _ c hc
    cases hc
  · rintro _ base ⟨⟩

end JitAllocator

end EosVm
