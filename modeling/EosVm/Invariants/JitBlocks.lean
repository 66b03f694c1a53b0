import EosVm.Lib.ExceptRun
import EosVm.Lib.Tiling
import EosVm.Source.JitAllocator

/-!
# Blocks of the JIT allocator

The representation invariant of `jit_allocator`, kept by `allocate_segment`, `split_block`,
`transfer_node` and `maybe_consolidate_blocks`.
-/

set_option autoImplicit false

namespace EosVm

open Lib

namespace JitAllocator

theorem firstBy_mem {before : Nat × Nat → Nat × Nat → Bool} {xs : List (Nat × Nat)} {x : Nat × Nat}
    (h : firstBy before xs = some x) : x ∈ xs := by
  induction xs generalizing x with
  | nil => cases h
  | cons y ys ih =>
    simp only [firstBy] at h
    split at h
    · rw [Option.some.inj h]
      exact List.mem_cons_self ..
    next z hz =>
      split at h
      · rw [← Option.some.inj h]
        exact List.mem_cons_of_mem _ (ih hz)
      · rw [Option.some.inj h]
        exact List.mem_cons_self ..

theorem firstBy_eq_none {before : Nat × Nat → Nat × Nat → Bool} {xs : List (Nat × Nat)} :
    firstBy before xs = none ↔ xs = [] := by
  cases xs with
  | nil => simp [firstBy]
  | cons y ys =>
    simp only [firstBy, reduceCtorEq, iff_false]
    split
    · simp
    · split <;> simp

/-- Nothing stands before the first element, if the order is one. -/
theorem firstBy_first {before : Nat × Nat → Nat × Nat → Bool}
    (htrans : ∀ x y z, before x y = false → before y z = false → before x z = false)
    (hasymm : ∀ x y, before x y = true → before y x = false) {xs : List (Nat × Nat)}
    {x : Nat × Nat} (h : firstBy before xs = some x) : ∀ y ∈ xs, before y x = false := by
  have hirrefl : ∀ x, before x x = false := by
    intro x
    cases hx : before x x with
    | false => rfl
    | true => rw [← hx, hasymm x x hx]
  induction xs generalizing x with
  | nil => cases h
  | cons z zs ih =>
    intro y hy
    simp only [firstBy] at h
    split at h
    next hnone =>
      rw [firstBy_eq_none.mp hnone] at hy
      rw [List.mem_singleton.mp hy, Option.some.inj h, hirrefl]
    next w hw =>
      have hrest := ih hw
      split at h
      next hlt =>
        rw [← Option.some.inj h]
        rcases List.mem_cons.mp hy with rfl | hy
        · exact hasymm _ _ hlt
        · exact hrest y hy
      next hge =>
        rw [← Option.some.inj h]
        rcases List.mem_cons.mp hy with rfl | hy
        · exact hirrefl _
        · exact htrans y w z (hrest y hy) (by simpa using hge)

theorem lowerBound_spec {blocks : List (Nat × Nat)} {size : Nat} {best : Nat × Nat}
    (h : lowerBound blocks size = some best) : best ∈ blocks ∧ size ≤ best.1 := by
  have hm := List.mem_filter.mp (firstBy_mem h)
  exact ⟨hm.1, of_decide_eq_true hm.2⟩

theorem nextBlock_spec {blocks : List (Nat × Nat)} {pos next : Nat × Nat}
    (h : nextBlock blocks pos = some next) :
    next ∈ blocks ∧ pos.1 < next.1 ∧ ∀ c ∈ blocks, pos.1 < c.1 → next.1 ≤ c.1 := by
  have hm := List.mem_filter.mp (firstBy_mem h)
  refine ⟨hm.1, of_decide_eq_true hm.2, ?_⟩
  intro c hc hlt
  have hfirst := firstBy_first (by simp; omega) (by simp; omega) h c
    (List.mem_filter.mpr ⟨hc, decide_eq_true hlt⟩)
  simpa using hfirst

theorem nextBlock_eq_none {blocks : List (Nat × Nat)} {pos : Nat × Nat}
    (h : nextBlock blocks pos = none) : ∀ c ∈ blocks, c.1 ≤ pos.1 := by
  intro c hc
  by_contra hlt
  have hm : c ∈ blocks.filter (pos.1 < ·.1) :=
    List.mem_filter.mpr ⟨hc, decide_eq_true (Nat.lt_of_not_le hlt)⟩
  rw [firstBy_eq_none.mp h] at hm
  cases hm

theorem prevBlock_spec {blocks : List (Nat × Nat)} {pos prev : Nat × Nat}
    (h : prevBlock blocks pos = some prev) :
    prev ∈ blocks ∧ prev.1 < pos.1 ∧ ∀ c ∈ blocks, c.1 < pos.1 → c.1 ≤ prev.1 := by
  have hm := List.mem_filter.mp (firstBy_mem h)
  refine ⟨hm.1, of_decide_eq_true hm.2, ?_⟩
  intro c hc hlt
  have hfirst := firstBy_first (by simp; omega) (by simp; omega) h c
    (List.mem_filter.mpr ⟨hc, decide_eq_true hlt⟩)
  simpa using hfirst

theorem prevBlock_eq_none {blocks : List (Nat × Nat)} {pos : Nat × Nat}
    (h : prevBlock blocks pos = none) : ∀ c ∈ blocks, pos.1 ≤ c.1 := by
  intro c hc
  by_contra hlt
  have hm : c ∈ blocks.filter (·.1 < pos.1) :=
    List.mem_filter.mpr ⟨hc, decide_eq_true (Nat.lt_of_not_le hlt)⟩
  rw [firstBy_eq_none.mp h] at hm
  cases hm

theorem transferNode_eq_ok {isKey : Nat × Nat → Bool} {src dst src' dst' : List (Nat × Nat)}
    {node : Nat × Nat} :
    transferNode isKey src dst = .ok (node, src', dst') ↔
      src.find? isKey = some node ∧ dst.any isKey = false ∧ src' = src.erase node ∧
        dst' = node :: dst := by
  unfold transferNode
  split
  next hnone => simp [hnone]
  next found hfound =>
    rw [hfound]
    simp only [bind_eq_ok, vmAssert_eq_ok, exists_const, pure_eq_ok, Prod.mk.injEq,
      Bool.not_eq_eq_eq_not, Bool.not_true, Option.some.injEq]
    constructor
    · rintro ⟨hany, rfl, rfl, rfl⟩
      exact ⟨rfl, hany, rfl, rfl⟩
    · rintro ⟨rfl, hany, rfl, rfl⟩
      exact ⟨hany, rfl, rfl, rfl⟩

theorem insertBySize_new {blocks : List (Nat × Nat)} {block : Nat × Nat} (h : block ∉ blocks) :
    insertBySize blocks block = block :: blocks := by
  rw [insertBySize, if_neg h]

theorem insertBlock_new {blocks : List (Nat × Nat)} {p : Nat} (h : ∀ c ∈ blocks, c.1 ≠ p)
    (s : Nat) : insertBlock blocks (p, s) = (p, s) :: blocks := by
  have hany : blocks.any (·.1 == p) = false := by
    rw [List.any_eq_false]
    intro c hc
    simpa using h c hc
  rw [insertBlock, hany]
  rfl

/-- The set ordered by size mirrors the map. -/
def Mirrors (bySize blocks : List (Nat × Nat)) : Prop := bySize.Perm (blocks.map Prod.swap)

theorem Mirrors.mem {bySize blocks : List (Nat × Nat)} (h : Mirrors bySize blocks) {p s : Nat} :
    (s, p) ∈ bySize ↔ (p, s) ∈ blocks := by
  rw [h.mem_iff, List.mem_map]
  constructor
  · rintro ⟨⟨a, b⟩, hm, heq⟩
    obtain ⟨rfl, rfl⟩ := Prod.mk.inj heq
    exact hm
  · intro hm
    exact ⟨(p, s), hm, rfl⟩

theorem Mirrors.cons {bySize blocks : List (Nat × Nat)} (h : Mirrors bySize blocks) (p s : Nat) :
    Mirrors ((s, p) :: bySize) ((p, s) :: blocks) := List.Perm.cons _ h

theorem Mirrors.erase {bySize blocks : List (Nat × Nat)} (h : Mirrors bySize blocks) (p s : Nat) :
    Mirrors (bySize.erase (s, p)) (blocks.erase (p, s)) := by
  have hmap : (blocks.map Prod.swap).erase (s, p) = (blocks.erase (p, s)).map Prod.swap := by
    induction blocks generalizing bySize with
    | nil => rfl
    | cons b blocks ih =>
      have hbeq : (b.swap == (s, p)) = (b == (p, s)) := by
        rw [Bool.eq_iff_iff, beq_iff_eq, beq_iff_eq]
        exact ⟨fun heq => by rw [← Prod.swap_swap b, heq, Prod.swap_prod_mk],
          fun heq => by rw [heq, Prod.swap_prod_mk]⟩
      rw [List.map_cons, List.erase_cons, List.erase_cons, hbeq]
      split
      · rfl
      · rw [List.map_cons, ih (List.Perm.refl _)]
  unfold Mirrors
  rw [← hmap]
  exact List.Perm.erase _ h

/-- The representation invariant. -/
structure Wf (pagesize : Nat) (a : JitAllocator) : Prop where
  freeMirror : Mirrors a.freeBlocksBySize a.freeBlocks
  allocatedMirror : Mirrors a.allocatedBlocksBySize a.allocatedBlocks
  tiles : Tiles pagesize a.segments (a.freeBlocks ++ a.allocatedBlocks)

/-- No free block ends where another one starts. -/
def NoAdjacent (a : JitAllocator) : Prop :=
  ∀ b ∈ a.freeBlocks, ∀ c ∈ a.freeBlocks, b.1 + b.2 ≠ c.1

variable {pagesize : Nat} {a : JitAllocator}

theorem wf_empty : Wf pagesize {} := ⟨List.Perm.nil, List.Perm.nil, Tiles.nil⟩

namespace Wf

theorem mem_free {b : Nat × Nat} (hb : b ∈ a.freeBlocks) :
    b ∈ a.freeBlocks ++ a.allocatedBlocks := List.mem_append_left _ hb

theorem mem_allocated {b : Nat × Nat} (hb : b ∈ a.allocatedBlocks) :
    b ∈ a.freeBlocks ++ a.allocatedBlocks := List.mem_append_right _ hb

/-- A free block is the only one with its start. -/
theorem free_start (h : a.Wf pagesize) {b c : Nat × Nat} (hb : b ∈ a.freeBlocks)
    (hc : c ∈ a.freeBlocks) (hstart : b.1 = c.1) : b = c :=
  h.tiles.eq_of_start (mem_free hb) (mem_free hc) hstart

theorem free_nodup (h : a.Wf pagesize) : a.freeBlocks.Nodup :=
  (List.nodup_append.mp h.tiles.nodup).1

theorem find_free (h : a.Wf pagesize) {b : Nat × Nat} (hb : b ∈ a.freeBlocks) :
    a.freeBlocks.find? (·.1 == b.1) = some b := by
  have hsome : (a.freeBlocks.find? (·.1 == b.1)).isSome := by
    rw [List.find?_isSome]
    exact ⟨b, hb, by simp⟩
  obtain ⟨c, hc⟩ := Option.isSome_iff_exists.mp hsome
  have hkey := List.find?_some hc
  rw [hc, h.free_start (List.mem_of_find?_eq_some hc) hb (by simpa using hkey)]

/-- Free and allocated blocks are treated alike. -/
theorem exchange (h : a.Wf pagesize) :
    Wf pagesize { a with
      freeBlocksBySize := a.allocatedBlocksBySize
      allocatedBlocksBySize := a.freeBlocksBySize
      freeBlocks := a.allocatedBlocks
      allocatedBlocks := a.freeBlocks } :=
  ⟨h.allocatedMirror, h.freeMirror, h.tiles.perm List.perm_append_comm⟩

/-- `allocate_segment` on a region that is apart from the mapped ones. -/
theorem allocateSegment (h : a.Wf pagesize) {minSize base : Nat} {best : Nat × Nat}
    {a' : JitAllocator} (hnew : Block.Aligned pagesize (base, max minSize segmentSize))
    (hfresh : ∀ seg ∈ a.segments, Block.Apart (base, max minSize segmentSize) seg)
    (hrun : a.allocateSegment minSize (some base) = .ok (best, a')) :
    best = (max minSize segmentSize, base) ∧ a'.Wf pagesize ∧
      a'.freeBlocks = (base, max minSize segmentSize) :: a.freeBlocks ∧
      a'.freeBlocksBySize = (max minSize segmentSize, base) :: a.freeBlocksBySize ∧
      a'.allocatedBlocks = a.allocatedBlocks ∧
      a'.segments = a.segments ++ [(base, max minSize segmentSize)] := by
  obtain ⟨rfl, rfl⟩ := Prod.mk.inj (pure_eq_ok.mp hrun)
  have htiles := h.tiles.add hnew hfresh
  have hkey : ∀ c ∈ a.freeBlocks, c.1 ≠ base := by
    intro c hc heq
    have hsame := htiles.eq_of_start (List.mem_cons_of_mem _ (mem_free hc)) (List.mem_cons_self ..)
      heq
    have hapart := (List.pairwise_cons.mp htiles.apart).1 c (mem_free hc)
    have hpos := hnew.pos
    rw [hsame] at hapart
    unfold Block.Apart at hapart
    omega
  have hset : (max minSize segmentSize, base) ∉ a.freeBlocksBySize := by
    intro hm
    exact hkey _ (h.freeMirror.mem.mp hm) rfl
  refine ⟨rfl, ⟨?_, h.allocatedMirror, ?_⟩, insertBlock_new hkey _,
    insertBySize_new hset, rfl, rfl⟩
  · simp only [insertBlock_new hkey, insertBySize_new hset]
    exact h.freeMirror.cons _ _
  · simp only [insertBlock_new hkey, List.cons_append]
    refine ⟨htiles.apart, htiles.aligned, fun x => (htiles.covers x).trans ?_⟩
    exact covers_perm (List.perm_append_singleton _ _).symm x

/-- `split_block` on a larger free block. -/
theorem splitBlock (h : a.Wf pagesize) {p s n : Nat} (hm : (p, s) ∈ a.freeBlocks) (hpos : 0 < n)
    (hlt : n < s) (hn : pagesize ∣ n) :
    (a.splitBlock (s, p) n).1 = (n, p) ∧ (a.splitBlock (s, p) n).2.Wf pagesize ∧
      (a.splitBlock (s, p) n).2.freeBlocks = (p, n) :: (p + n, s - n) :: a.freeBlocks.erase (p, s) ∧
      (a.splitBlock (s, p) n).2.allocatedBlocks = a.allocatedBlocks ∧
      (a.splitBlock (s, p) n).2.segments = a.segments := by
  have hsame : ∀ c ∈ a.freeBlocks, ∀ x, Block.Has c x → p ≤ x → x < p + s → c = (p, s) := by
    intro c hc x hcx hle hx
    exact h.tiles.eq_of_has (mem_free hc) (mem_free hm) hcx ⟨hle, hx⟩
  have hpositive : ∀ c ∈ a.freeBlocks, 0 < c.2 := fun c hc => (h.tiles.aligned c (mem_free hc)).pos
  have hkey : ∀ c ∈ a.freeBlocks, c.1 ≠ p + n := by
    intro c hc heq
    have hc₂ := hpositive c hc
    have hcp := hsame c hc (p + n) ⟨by omega, by omega⟩ (by omega) (by omega)
    rw [hcp] at heq
    simp only at heq
    omega
  have hnew₁ : (n, p) ∉ a.freeBlocksBySize := by
    intro hmem
    have heq := h.free_start (h.freeMirror.mem.mp hmem) hm rfl
    simp only [Prod.mk.injEq, true_and] at heq
    omega
  have hnew₂ : (s - n, p + n) ∉ (n, p) :: a.freeBlocksBySize := by
    intro hmem
    rcases List.mem_cons.mp hmem with heq | hmem
    · simp only [Prod.mk.injEq] at heq
      omega
    · exact hkey _ (h.freeMirror.mem.mp hmem) rfl
  have hfilter : ((p + n, s - n) :: a.freeBlocks).filter (·.1 != p) =
      (p + n, s - n) :: a.freeBlocks.erase (p, s) := by
    rw [List.filter_cons_of_pos (by simp; omega), h.free_nodup.erase_eq_filter]
    congr 1
    apply List.filter_congr
    intro c hc
    rw [Bool.eq_iff_iff, bne_iff_ne, bne_iff_ne, not_iff_not]
    exact ⟨fun heq => h.free_start hc hm heq, fun heq => by rw [heq]⟩
  have hblocks : (a.splitBlock (s, p) n).2.freeBlocks =
      (p, n) :: (p + n, s - n) :: a.freeBlocks.erase (p, s) := by
    simp only [JitAllocator.splitBlock, insertBlock_new hkey, hfilter]
  have hsizes : (a.splitBlock (s, p) n).2.freeBlocksBySize =
      (s - n, p + n) :: (n, p) :: a.freeBlocksBySize.erase (s, p) := by
    simp only [JitAllocator.splitBlock, insertBySize_new hnew₁, insertBySize_new hnew₂]
    rw [List.erase_cons_tail (by simp; omega), List.erase_cons_tail (by simp; omega)]
  refine ⟨rfl, ⟨?_, h.allocatedMirror, ?_⟩, hblocks, rfl, rfl⟩
  · rw [hblocks, hsizes]
    exact (List.Perm.swap _ _ _).trans (((h.freeMirror.erase p s).cons (p + n) (s - n)).cons p n)
  · rw [hblocks]
    have hperm : (a.freeBlocks ++ a.allocatedBlocks).Perm
        ((p, s) :: (a.freeBlocks.erase (p, s) ++ a.allocatedBlocks)) :=
      (List.perm_cons_erase hm).append_right _
    exact (h.tiles.perm hperm).split hpos hlt hn

/-- Moving a free block to the allocated ones. -/
theorem allocate (h : a.Wf pagesize) {p s : Nat} (hm : (p, s) ∈ a.freeBlocks) :
    transferNode (·.1 == p) a.freeBlocks a.allocatedBlocks =
        .ok ((p, s), a.freeBlocks.erase (p, s), (p, s) :: a.allocatedBlocks) ∧
      transferNode (· == (s, p)) a.freeBlocksBySize a.allocatedBlocksBySize =
        .ok ((s, p), a.freeBlocksBySize.erase (s, p), (s, p) :: a.allocatedBlocksBySize) ∧
      Wf pagesize { a with
        freeBlocksBySize := a.freeBlocksBySize.erase (s, p)
        allocatedBlocksBySize := (s, p) :: a.allocatedBlocksBySize
        freeBlocks := a.freeBlocks.erase (p, s)
        allocatedBlocks := (p, s) :: a.allocatedBlocks } := by
  have hfresh : ∀ c ∈ a.allocatedBlocks, c.1 ≠ p := by
    intro c hc heq
    have hsame := h.tiles.eq_of_start (mem_allocated hc) (mem_free hm) heq
    have hdisjoint := (List.nodup_append.mp h.tiles.nodup).2.2
    exact hdisjoint (p, s) hm c hc hsame.symm
  refine ⟨?_, ?_, ⟨h.freeMirror.erase p s, h.allocatedMirror.cons p s, ?_⟩⟩
  · rw [transferNode_eq_ok]
    refine ⟨h.find_free hm, ?_, rfl, rfl⟩
    rw [List.any_eq_false]
    intro c hc
    simpa using hfresh c hc
  · rw [transferNode_eq_ok]
    refine ⟨?_, ?_, rfl, rfl⟩
    · have hfound : (a.freeBlocksBySize.find? (· == (s, p))).isSome := by
        rw [List.find?_isSome]
        exact ⟨(s, p), h.freeMirror.mem.mpr hm, by simp⟩
      obtain ⟨c, hc⟩ := Option.isSome_iff_exists.mp hfound
      have hkey := List.find?_some hc
      rw [hc]
      congr
      simpa using hkey
    · rw [List.any_eq_false]
      intro c hc heq
      have hc' : c = (s, p) := by simpa using heq
      rw [hc'] at hc
      exact hfresh _ (h.allocatedMirror.mem.mp hc) rfl
  · refine h.tiles.perm ?_
    exact ((List.perm_cons_erase hm).append_right _).trans List.perm_middle.symm

/-- Moving an allocated block to the free ones. -/
theorem release (h : a.Wf pagesize) {p s : Nat} (hm : (p, s) ∈ a.allocatedBlocks) :
    transferNode (·.1 == p) a.allocatedBlocks a.freeBlocks =
        .ok ((p, s), a.allocatedBlocks.erase (p, s), (p, s) :: a.freeBlocks) ∧
      transferNode (· == (s, p)) a.allocatedBlocksBySize a.freeBlocksBySize =
        .ok ((s, p), a.allocatedBlocksBySize.erase (s, p), (s, p) :: a.freeBlocksBySize) ∧
      Wf pagesize { a with
        freeBlocksBySize := (s, p) :: a.freeBlocksBySize
        allocatedBlocksBySize := a.allocatedBlocksBySize.erase (s, p)
        freeBlocks := (p, s) :: a.freeBlocks
        allocatedBlocks := a.allocatedBlocks.erase (p, s) } := by
  have hswap := allocate h.exchange hm
  refine ⟨hswap.1, hswap.2.1, ⟨h.freeMirror.cons p s, h.allocatedMirror.erase p s, ?_⟩⟩
  exact hswap.2.2.tiles.perm List.perm_append_comm

/-- Two free neighbours become one block. -/
theorem consolidate (h : a.Wf pagesize) {lhs rhs : Nat × Nat} (hl : lhs ∈ a.freeBlocks)
    (hr : rhs ∈ a.freeBlocks) :
    (a.maybeConsolidateBlocks lhs rhs).2.Wf pagesize ∧
      (a.maybeConsolidateBlocks lhs rhs).2.allocatedBlocks = a.allocatedBlocks ∧
      (a.maybeConsolidateBlocks lhs rhs).2.segments = a.segments := by
  obtain ⟨p, s⟩ := lhs
  obtain ⟨q, t⟩ := rhs
  unfold maybeConsolidateBlocks
  split
  next hadj =>
    have hadj' : p + s = q := hadj
    subst hadj'
    have hs := (h.tiles.aligned _ (mem_free hl)).pos
    have ht := (h.tiles.aligned _ (mem_free hr)).pos
    simp only at hs ht
    have hne : (p + s, t) ≠ (p, s) := by
      intro heq
      rw [Prod.mk.injEq] at heq
      omega
    have hr' : (p + s, t) ∈ a.freeBlocks.erase (p, s) := (List.mem_erase_of_ne hne).mpr hr
    have hnew : (s + t, p) ∉ a.freeBlocksBySize.erase (s, p) := by
      intro hmem
      have heq := h.free_start (h.freeMirror.mem.mp (List.mem_of_mem_erase hmem)) hl rfl
      rw [Prod.mk.injEq] at heq
      omega
    refine ⟨⟨?_, h.allocatedMirror, ?_⟩, rfl, rfl⟩
    · simp only [insertBySize_new hnew]
      rw [List.erase_cons_tail (by simp; omega)]
      exact ((h.freeMirror.erase p s).erase (p + s) t).cons p (s + t)
    · have hperm : (a.freeBlocks ++ a.allocatedBlocks).Perm
          ((p, s) :: (p + s, t) :: (((a.freeBlocks.erase (p, s)).erase (p + s, t)) ++
            a.allocatedBlocks)) :=
        (((List.perm_cons_erase hl).trans ((List.perm_cons_erase hr').cons _))).append_right _
      exact (h.tiles.perm hperm).merge
  · exact ⟨h, rfl, rfl⟩

/-- Apart blocks: one that starts first also ends first. -/
theorem end_le (h : a.Wf pagesize) {b c : Nat × Nat} (hb : b ∈ a.freeBlocks)
    (hc : c ∈ a.freeBlocks) (hlt : b.1 < c.1) : b.1 + b.2 ≤ c.1 := by
  have hne : b ≠ c := by
    intro heq
    rw [heq] at hlt
    omega
  have hapart := h.tiles.apart.forall (mem_free hb) (mem_free hc) hne
  have hpos := (h.tiles.aligned c (mem_free hc)).pos
  unfold Block.Apart at hapart
  omega

/-- The free block before a position is the only one that may end there. -/
theorem prev_unique (h : a.Wf pagesize) {pos prev c : Nat × Nat}
    (hprev : prevBlock a.freeBlocks pos = some prev) (hc : c ∈ a.freeBlocks)
    (hend : c.1 + c.2 = pos.1) : c = prev := by
  obtain ⟨hm, hlt, hlast⟩ := prevBlock_spec hprev
  have hpos := (h.tiles.aligned c (mem_free hc)).pos
  have hle := hlast c hc (by omega)
  rcases Nat.lt_or_eq_of_le hle with hless | heq
  · have hends := h.end_le hc hm hless
    omega
  · exact h.free_start hc hm heq

/-- The free block after a free one is the only one that may start at its end. -/
theorem next_unique (h : a.Wf pagesize) {pos next c : Nat × Nat} (hp : pos ∈ a.freeBlocks)
    (hnext : nextBlock a.freeBlocks pos = some next) (hc : c ∈ a.freeBlocks)
    (hend : pos.1 + pos.2 = c.1) : c = next := by
  obtain ⟨hm, hlt, hfirst⟩ := nextBlock_spec hnext
  have hpos := (h.tiles.aligned pos (mem_free hp)).pos
  have hle := hfirst c hc (by omega)
  have hends := h.end_le hp hm hlt
  exact h.free_start hc hm (by omega)

/-- Merging a block with the one before it: what is left to merge starts at the block. -/
theorem consolidate_left (h : a.Wf pagesize) {pos prev : Nat × Nat}
    (hprev : prevBlock a.freeBlocks pos = some prev)
    (hadj : ∀ b ∈ a.freeBlocks, ∀ c ∈ a.freeBlocks, b.1 + b.2 = c.1 → b = pos ∨ c = pos) :
    ∀ b ∈ (a.maybeConsolidateBlocks prev pos).2.freeBlocks,
      ∀ c ∈ (a.maybeConsolidateBlocks prev pos).2.freeBlocks,
        b.1 + b.2 = c.1 → b = (a.maybeConsolidateBlocks prev pos).1 := by
  obtain ⟨hm, hlt, -⟩ := prevBlock_spec hprev
  unfold maybeConsolidateBlocks
  split
  next hend =>
    have hold : ∀ b ∈ (a.freeBlocks.erase prev).erase pos,
        b ∈ a.freeBlocks ∧ b ≠ prev ∧ b ≠ pos := by
      intro b hb
      obtain ⟨hne, hb⟩ := (h.free_nodup.erase prev).mem_erase_iff.mp hb
      obtain ⟨hne', hb⟩ := h.free_nodup.mem_erase_iff.mp hb
      exact ⟨hb, hne', hne⟩
    intro b hb c hc hbc
    simp only at hb hc
    rcases List.mem_cons.mp hb with heq | hb
    · exact heq
    · obtain ⟨hb, hb₁, hb₂⟩ := hold b hb
      rcases List.mem_cons.mp hc with rfl | hc
      · rcases hadj b hb prev hm hbc with heq | heq
        · exact absurd heq hb₂
        · rw [heq] at hlt
          exact absurd hlt (lt_irrefl _)
      · obtain ⟨hc, -, hc₂⟩ := hold c hc
        rcases hadj b hb c hc hbc with heq | heq
        · exact absurd heq hb₂
        · exact absurd heq hc₂
  next hend =>
    intro b hb c hc hbc
    rcases hadj b hb c hc hbc with heq | heq
    · exact heq
    · rw [heq] at hbc
      rw [h.prev_unique hprev hb hbc] at hbc
      exact absurd hbc hend

/-- Merging a block with the one after it leaves nothing to merge. -/
theorem consolidate_right (h : a.Wf pagesize) {pos next : Nat × Nat} (hp : pos ∈ a.freeBlocks)
    (hnext : nextBlock a.freeBlocks pos = some next)
    (hadj : ∀ b ∈ a.freeBlocks, ∀ c ∈ a.freeBlocks, b.1 + b.2 = c.1 → b = pos) :
    (a.maybeConsolidateBlocks pos next).2.NoAdjacent := by
  obtain ⟨hm, hlt, -⟩ := nextBlock_spec hnext
  have hpos := (h.tiles.aligned pos (mem_free hp)).pos
  have hpos' := (h.tiles.aligned next (mem_free hm)).pos
  unfold maybeConsolidateBlocks
  split
  next hend =>
    have hold : ∀ b ∈ (a.freeBlocks.erase pos).erase next,
        b ∈ a.freeBlocks ∧ b ≠ pos ∧ b ≠ next := by
      intro b hb
      obtain ⟨hne, hb⟩ := (h.free_nodup.erase pos).mem_erase_iff.mp hb
      obtain ⟨hne', hb⟩ := h.free_nodup.mem_erase_iff.mp hb
      exact ⟨hb, hne', hne⟩
    intro b hb c hc hbc
    simp only at hb hc
    rcases List.mem_cons.mp hb with rfl | hb
    · rcases List.mem_cons.mp hc with rfl | hc
      · simp only at hbc
        omega
      · obtain ⟨hc, -, -⟩ := hold c hc
        have heq := hadj next hm c hc (by simp only at hbc; omega)
        rw [heq] at hlt
        exact absurd hlt (lt_irrefl _)
    · obtain ⟨hb, hb₁, -⟩ := hold b hb
      rcases List.mem_cons.mp hc with rfl | hc
      · exact hb₁ (hadj b hb pos hp hbc)
      · exact hb₁ (hadj b hb c (hold c hc).1 hbc)
  next hend =>
    intro b hb c hc hbc
    have heq := hadj b hb c hc hbc
    rw [heq] at hbc
    rw [h.next_unique hp hnext hc hbc] at hbc
    exact hend hbc

/-- The two merges of a freed block, first with its left and then with its right neighbour. -/
theorem mergeFreed_eq (a : JitAllocator) (pos : Nat × Nat) :
    let m := (prevBlock a.freeBlocks pos).elim (pos, a) (a.maybeConsolidateBlocks · pos)
    a.mergeFreed pos = (nextBlock m.2.freeBlocks m.1).elim m.2
      fun next => (m.2.maybeConsolidateBlocks m.1 next).2 := by
  unfold JitAllocator.mergeFreed
  cases prevBlock a.freeBlocks pos with
  | some prev =>
    simp only [Option.elim_some]
    split <;> simp [*]
  | none =>
    simp only [Option.elim_none]
    split <;> simp [*]

/-- The merging part of `free`. -/
theorem mergeFreed (h : a.Wf pagesize) {pos : Nat × Nat} (hp : pos ∈ a.freeBlocks) :
    (a.mergeFreed pos).Wf pagesize ∧ (a.mergeFreed pos).allocatedBlocks = a.allocatedBlocks ∧
      ((∀ b ∈ a.freeBlocks, ∀ c ∈ a.freeBlocks, b.1 + b.2 = c.1 → b = pos ∨ c = pos) →
        (a.mergeFreed pos).NoAdjacent) := by
  -- the second merge, from any state the first one leaves
  have hright : ∀ (b : JitAllocator) (pos' : Nat × Nat), b.Wf pagesize → pos' ∈ b.freeBlocks →
      b.allocatedBlocks = a.allocatedBlocks →
      let r := (nextBlock b.freeBlocks pos').elim b fun next =>
        (b.maybeConsolidateBlocks pos' next).2
      r.Wf pagesize ∧ r.allocatedBlocks = a.allocatedBlocks ∧
        ((∀ x ∈ b.freeBlocks, ∀ y ∈ b.freeBlocks, x.1 + x.2 = y.1 → x = pos') →
          r.NoAdjacent) := by
    intro b pos' hb hpos' hsame
    cases hnext : nextBlock b.freeBlocks pos' with
    | some next =>
      obtain ⟨hm, -⟩ := nextBlock_spec hnext
      obtain ⟨hwf, hallocated, -⟩ := hb.consolidate hpos' hm
      exact ⟨hwf, hallocated.trans hsame, fun hadj => hb.consolidate_right hpos' hnext hadj⟩
    | none =>
      refine ⟨hb, hsame, fun hadj x hx y hy hxy => ?_⟩
      have heq := hadj x hx y hy hxy
      have hle := nextBlock_eq_none hnext y hy
      have hpos := (hb.tiles.aligned x (mem_free hx)).pos
      rw [heq] at hxy hpos
      omega
  rw [mergeFreed_eq]
  cases hprev : prevBlock a.freeBlocks pos with
  | some prev =>
    obtain ⟨hm, -⟩ := prevBlock_spec hprev
    obtain ⟨hwf, hallocated, -⟩ := h.consolidate hm hp
    have hmem : (a.maybeConsolidateBlocks prev pos).1 ∈
        (a.maybeConsolidateBlocks prev pos).2.freeBlocks := by
      unfold maybeConsolidateBlocks
      split
      · exact List.mem_cons_self ..
      · exact hp
    obtain ⟨hwf', hallocated', hno⟩ := hright _ _ hwf hmem hallocated
    exact ⟨hwf', hallocated', fun hadj => hno (h.consolidate_left hprev hadj)⟩
  | none =>
    obtain ⟨hwf', hallocated', hno⟩ := hright a pos h hp rfl
    refine ⟨hwf', hallocated', fun hadj => hno ?_⟩
    intro b hb c hc hbc
    rcases hadj b hb c hc hbc with heq | heq
    · exact heq
    · have hle := prevBlock_eq_none hprev b hb
      have hpos := (h.tiles.aligned b (mem_free hb)).pos
      rw [heq] at hbc
      omega

/-- `free` of an allocated block. -/
theorem free (h : a.Wf pagesize) {p s : Nat} (hm : (p, s) ∈ a.allocatedBlocks) :
    ∃ a', a.free p = .ok a' ∧ a'.Wf pagesize ∧
      a'.allocatedBlocks = a.allocatedBlocks.erase (p, s) ∧ (a.NoAdjacent → a'.NoAdjacent) := by
  obtain ⟨hmap, hset, hwf⟩ := h.release hm
  obtain ⟨hwf', hallocated, hno⟩ := hwf.mergeFreed (List.mem_cons_self ..)
  refine ⟨_, ?_, hwf', hallocated, fun hold => hno ?_⟩
  · unfold JitAllocator.free
    simp only [hmap, hset, ok_bind]
    rfl
  · intro b hb c hc hbc
    rcases List.mem_cons.mp hb with heq | hb
    · exact Or.inl heq
    · rcases List.mem_cons.mp hc with heq | hc
      · exact Or.inr heq
      · exact absurd hbc (hold b hb c hc)

/-- The end of `alloc`: a large enough free block is cut and moved to the allocated ones. -/
theorem take (h : a.Wf pagesize) {p s n : Nat} (hm : (p, s) ∈ a.freeBlocks) (hpos : 0 < n)
    (hle : n ≤ s) (hn : pagesize ∣ n) :
    ∃ a',
      (do
        let (best, a) := if s > n then a.splitBlock (s, p) n else ((s, p), a)
        let (_, freeBlocks, allocatedBlocks) ←
          transferNode (·.1 == best.2) a.freeBlocks a.allocatedBlocks
        let (best, freeBlocksBySize, allocatedBlocksBySize) ←
          transferNode (· == best) a.freeBlocksBySize a.allocatedBlocksBySize
        pure (best.2, { a with
          freeBlocksBySize, allocatedBlocksBySize, freeBlocks, allocatedBlocks })) =
        Except.ok (p, a') ∧
      a'.Wf pagesize ∧ a'.allocatedBlocks = (p, n) :: a.allocatedBlocks ∧
      a'.segments = a.segments ∧
      ((∀ b ∈ a.freeBlocks, ∀ c ∈ a.freeBlocks, b.1 + b.2 = c.1 → b = (p, s) ∨ c = (p, s)) →
        (n < s → ∀ c ∈ a.freeBlocks, p + s ≠ c.1) → a'.NoAdjacent) := by
  by_cases hlt : n < s
  · obtain ⟨hbest, hwf, hfree, hallocated, hsegments⟩ := h.splitBlock hm hpos hlt hn
    obtain ⟨hmap, hset, hwf'⟩ := hwf.allocate (p := p) (s := n)
      (by rw [hfree]; exact List.mem_cons_self ..)
    refine ⟨_, ?_, hwf', by simp only [hallocated], hsegments, ?_⟩
    · rw [if_pos hlt]
      simp only [hbest]
      rw [hmap, ok_bind, hset, ok_bind]
      rfl
    · intro hadj hends b hb c hc hbc
      simp only [hfree, List.erase_cons_head] at hb hc
      have hold : ∀ x ∈ a.freeBlocks.erase (p, s), x ∈ a.freeBlocks ∧ x ≠ (p, s) := by
        intro x hx
        obtain ⟨hne, hx⟩ := h.free_nodup.mem_erase_iff.mp hx
        exact ⟨hx, hne⟩
      rcases List.mem_cons.mp hb with rfl | hb
      · rcases List.mem_cons.mp hc with rfl | hc
        · simp only at hbc
          omega
        · refine hends hlt c (hold c hc).1 ?_
          simp only at hbc
          omega
      · obtain ⟨hb, hne⟩ := hold b hb
        rcases List.mem_cons.mp hc with rfl | hc
        · have hapart := h.tiles.apart.forall (mem_free hb) (mem_free hm) hne
          have hbpos := (h.tiles.aligned b (mem_free hb)).pos
          unfold Block.Apart at hapart
          simp only at hapart hbc
          omega
        · rcases hadj b hb c (hold c hc).1 hbc with heq | heq
          · exact hne heq
          · exact (hold c hc).2 heq
  · have heq : s = n := by omega
    subst heq
    obtain ⟨hmap, hset, hwf'⟩ := h.allocate hm
    refine ⟨_, ?_, hwf', rfl, rfl, ?_⟩
    · rw [if_neg hlt]
      simp only
      rw [hmap, ok_bind, hset, ok_bind]
      rfl
    · intro hadj _ b hb c hc hbc
      obtain ⟨hb', hb⟩ := h.free_nodup.mem_erase_iff.mp hb
      obtain ⟨hc', hc⟩ := h.free_nodup.mem_erase_iff.mp hc
      rcases hadj b hb c hc hbc with heq | heq
      · exact hb' heq
      · exact hc' heq

end Wf

theorem le_roundToPage {pagesize size : Nat} (hpage : 0 < pagesize) :
    size ≤ roundToPage pagesize size := by
  unfold roundToPage
  have hdiv := Nat.div_add_mod (size + pagesize - 1) pagesize
  have hmod := Nat.mod_lt (size + pagesize - 1) hpage
  rw [Nat.mul_comm] at hdiv
  omega

theorem dvd_roundToPage (pagesize size : Nat) : pagesize ∣ roundToPage pagesize size :=
  Nat.dvd_mul_left _ _

/-- What `mmap` promises when `alloc` calls it: a page aligned region apart from the mapped ones. -/
def FreshMapping (pagesize size : Nat) (mapped : Option Nat) (a : JitAllocator) : Prop :=
  lowerBound a.freeBlocksBySize (roundToPage pagesize size) = none → ∀ base, mapped = some base →
    pagesize ∣ base ∧ ∀ seg ∈ a.segments,
      Block.Apart (base, max (roundToPage pagesize size) segmentSize) seg

/-- A newly mapped segment of which `alloc` leaves a rest does not end where a free block starts. -/
def EndsApart (pagesize size : Nat) (mapped : Option Nat) (a : JitAllocator) : Prop :=
  lowerBound a.freeBlocksBySize (roundToPage pagesize size) = none → ∀ base, mapped = some base →
    roundToPage pagesize size < segmentSize → ∀ c ∈ a.freeBlocks, base + segmentSize ≠ c.1

/-- `alloc` takes a block, or `mmap` has failed. -/
theorem Wf.alloc (h : a.Wf pagesize) (hpage : 0 < pagesize) (hsegment : pagesize ∣ segmentSize)
    {size : Nat} (hsize : 0 < size) {mapped : Option Nat}
    (hfresh : FreshMapping pagesize size mapped a) :
    (mapped = none ∧ a.alloc pagesize size mapped =
        .error (.wasmBadAlloc "failed to allocate jit segment")) ∨
      ∃ p a', a.alloc pagesize size mapped = .ok (p, a') ∧ a'.Wf pagesize ∧
        a'.allocatedBlocks = (p, roundToPage pagesize size) :: a.allocatedBlocks ∧
        (a.NoAdjacent → EndsApart pagesize size mapped a → a'.NoAdjacent) := by
  have hle : size ≤ roundToPage pagesize size := le_roundToPage hpage
  have hdvd := dvd_roundToPage pagesize size
  cases hbest : lowerBound a.freeBlocksBySize (roundToPage pagesize size) with
  | some best =>
    obtain ⟨s, p⟩ := best
    obtain ⟨hm, hlarge⟩ := lowerBound_spec hbest
    obtain ⟨a', hrun, hwf, hallocated, -, hno⟩ :=
      h.take (h.freeMirror.mem.mp hm) (by omega) hlarge hdvd
    refine Or.inr ⟨p, a', ?_, hwf, hallocated, fun hold _ => hno ?_ ?_⟩
    · unfold JitAllocator.alloc
      simp only [hbest, pure_bind]
      exact hrun
    · intro b hb c hc hbc
      exact absurd hbc (hold b hb c hc)
    · intro _ c hc
      exact hold (p, s) (h.freeMirror.mem.mp hm) c hc
  | none =>
    cases mapped with
    | none =>
      refine Or.inl ⟨rfl, ?_⟩
      unfold JitAllocator.alloc JitAllocator.allocateSegment
      simp only [hbest]
      rfl
    | some base =>
      obtain ⟨hbase, hapart⟩ := hfresh hbest base rfl
      have hmax : pagesize ∣ max (roundToPage pagesize size) segmentSize := by
        rcases max_choice (roundToPage pagesize size) segmentSize with heq | heq
        · rw [heq]
          exact hdvd
        · rw [heq]
          exact hsegment
      have hlarge : roundToPage pagesize size ≤ max (roundToPage pagesize size) segmentSize :=
        le_max_left _ _
      have hnew : Block.Aligned pagesize (base, max (roundToPage pagesize size) segmentSize) :=
        ⟨by simp only; omega, hbase, hmax⟩
      cases hseg : a.allocateSegment (roundToPage pagesize size) (some base) with
      | error e => cases hseg
      | ok result =>
        obtain ⟨best, b⟩ := result
        obtain ⟨rfl, hwf, hfree, -, hallocated, -⟩ := h.allocateSegment hnew hapart hseg
        have hmem : (base, max (roundToPage pagesize size) segmentSize) ∈ b.freeBlocks := by
          rw [hfree]
          exact List.mem_cons_self ..
        obtain ⟨a', hrun, hwf', hallocated', -, hno⟩ := hwf.take hmem (by omega) hlarge hdvd
        refine Or.inr ⟨base, a', ?_, hwf', by rw [hallocated', hallocated], fun hold hends => ?_⟩
        · unfold JitAllocator.alloc
          simp only [hbest, hseg, ok_bind]
          exact hrun
        · refine hno ?_ ?_
          · intro x hx y hy hxy
            rw [hfree] at hx hy
            rcases List.mem_cons.mp hx with heq | hx
            · exact Or.inl heq
            · rcases List.mem_cons.mp hy with heq | hy
              · exact Or.inr heq
              · exact absurd hxy (hold x hx y hy)
          · intro hrest c hc
            rw [hfree] at hc
            rcases List.mem_cons.mp hc with rfl | hc
            · simp only
              omega
            · have heq : max (roundToPage pagesize size) segmentSize = segmentSize := by omega
              rw [heq]
              exact hends hbest base rfl (by omega) c hc

end JitAllocator

end EosVm
