import EosVm.Lib.Trace
import EosVm.Source.GrowableAllocator
import Mathlib.Algebra.Order.Ring.Int

/-!
# Blocks of the growable allocator

A run is followed together with the blocks that have not been reclaimed and the ends of all blocks
there have been. Nothing ties the address of the arena to an alignment above the system's page size,
so the alignment of a block is that of the arena.
-/

set_option autoImplicit false

namespace EosVm.GrowableAllocator

/-- An allocator with its history: the blocks in use as addresses, newest first, and the ends of all
blocks as offsets from the start of the arena. -/
structure History where
  alloc : GrowableAllocator
  live : List (Nat × Nat) := []
  ends : List Nat := []

inductive Event where
  | alloc (T : TypeLayout) (size : BitVec 64)
  | reclaim (T : TypeLayout) (ptr size : BitVec 64)
  | startCode
  | endCode (isJit : Bool) (codeBase : BitVec 64) (executable : Except VmError Nat)
  | finalize (unmapped : Bool)

/-- What a call did: the allocator afterwards, the block it returned, and whether it threw. -/
structure Result where
  next : History
  block : Option (Nat × Nat) := none
  rejected : Bool := false

/-- What is left of a block without the bytes from `low` up to `high`. -/
def pieces (low high : Nat) (b : Nat × Nat) : List (Nat × Nat) :=
  [(b.1, min b.2 low), (max b.1 high, b.2)].filter fun c => c.1 < c.2

/-- What is left of the blocks when the caller gives back the bytes from `low` up to `high`. -/
def giveBack (low high : Nat) (live : List (Nat × Nat)) : List (Nat × Nat) :=
  live.flatMap (pieces low high)

/-- One call. The blocks follow from what the caller passes and gets: a block starts at the returned
pointer and has the requested size, `reclaim` gives back the bytes it names, and `end_code<true>`
all from the start of the code on, which has been moved. -/
def step (pagesize : Nat) (event : Event) (h : History) : Option Result :=
  match event with
  | .alloc T size =>
    match alloc T size.toNat h.alloc with
    | (a, .ok ptr) =>
      let block := (ptr, ptr + T.size * size.toNat)
      some
        { next := { alloc := a, live := block :: h.live,
                    ends := (block.2 - h.alloc.base) :: h.ends }
          block := some block }
    | (a, .error _) => some { next := { h with alloc := a }, rejected := true }
  | .reclaim T ptr size =>
    match reclaim T ptr.toNat size.toNat h.alloc with
    | (a, .ok _) =>
      let live := giveBack ptr.toNat (ptr.toNat + T.size * size.toNat) h.live
      some { next := { h with alloc := a, live := live } }
    | (a, .error _) => some { next := { h with alloc := a }, rejected := true }
  | .startCode => some { next := { h with alloc := (startCode pagesize h.alloc).1 } }
  | .endCode isJit codeBase executable =>
    if endCodeAsserts codeBase.toNat h.alloc then
      match endCode isJit pagesize codeBase.toNat executable h.alloc with
      | (a, .ok _) =>
        let moved := giveBack codeBase.toNat (h.alloc.base + h.alloc.offset) h.live
        some { next := { h with alloc := a, live := if isJit then moved else h.live } }
      | (a, .error _) => some { next := { h with alloc := a }, rejected := true }
    else none
  | .finalize unmapped =>
    match finalize pagesize unmapped h.alloc with
    | (a, .ok _) => some { next := { h with alloc := a } }
    | (a, .error _) => some { next := { h with alloc := a }, rejected := true }

/-- The exact values of the sizes that a call computes. -/
def sizes (pagesize : Nat) (event : Event) (a : GrowableAllocator) : List Int :=
  let page : Int := (a.offset + pagesize - 1) / pagesize * pagesize
  match event with
  | .alloc T size =>
    let offset : Int := (a.offset + T.align - 1) / T.align * T.align
    if a.capacity % T.align ≠ 0 then []
    else [(a.offset + T.align - 1 : Int), (a.capacity - offset : Int)] ++
      if (a.capacity - offset) / T.size < size.toNat then []
      else [(T.size * size.toNat : Int), (T.size * size.toNat + offset : Int)]
  | .reclaim T ptr size =>
    if a.offset / T.size < size.toNat then []
    else (T.size * size.toNat : Int) ::
      if size.toNat ≠ 0 ∧ (ptr.toNat + T.size * size.toNat) % 2 ^ 64 =
        (a.base + a.offset) % 2 ^ 64 then
        [(ptr.toNat - a.base : Int)]
      else []
  | .startCode => [a.offset + pagesize - 1]
  | .endCode _ codeBase _ =>
    [a.offset + pagesize - 1, codeBase.toNat - a.base, page - (codeBase.toNat - a.base)]
  | .finalize _ =>
    if a.capacity = a.offset then []
    else (a.offset + pagesize - 1) :: if page < a.capacity then [a.capacity - page] else []

/-- The byte belongs to the block. -/
def Covers (b : Nat × Nat) (x : Nat) : Prop := b.1 ≤ x ∧ x < b.2

/-- What holds of the blocks between the calls. -/
structure Sound (h : History) : Prop where
  inside : ∀ b ∈ h.live, ∀ x, Covers b x → h.alloc.base ≤ x ∧ x < h.alloc.base + h.alloc.offset
  disjoint : h.live.Pairwise fun b c => ∀ x, Covers b x → ¬ Covers c x
  largest : h.alloc.largestOffset = h.ends.foldr max 0

/-- What a call guarantees. -/
structure Good (pagesize : Nat) (s : Lib.TraceStep History Event Result) : Prop where
  sizes_fit : ∀ x ∈ sizes pagesize s.event s.before.alloc, 0 ≤ x ∧ x < 2 ^ 64
  inside : ∀ b, s.outcome.block = some b →
    s.before.alloc.base ≤ b.1 ∧ b.2 ≤ s.before.alloc.base + s.before.alloc.capacity
  aligned : ∀ T size b, s.event = .alloc T size → s.outcome.block = some b →
    b.2 = b.1 + T.size * size.toNat ∧ T.align ∣ b.1
  rejected : s.outcome.rejected = true → s.outcome.next.live = s.before.live

theorem Good.of_none {pagesize : Nat} {s : Lib.TraceStep History Event Result}
    (hsizes : ∀ x ∈ sizes pagesize s.event s.before.alloc, 0 ≤ x ∧ x < 2 ^ 64)
    (hblock : s.outcome.block = none)
    (hrejected : s.outcome.rejected = true → s.outcome.next.live = s.before.live) :
    Good pagesize s where
  sizes_fit := hsizes
  inside := fun b hb => by rw [hblock] at hb; cases hb
  aligned := fun T size b _ hb => by rw [hblock] at hb; cases hb
  rejected := hrejected

/-- The arena: a page multiple of at most `max_memory_size` that does not wrap. -/
structure Arena (pagesize : Nat) (a : GrowableAllocator) : Prop where
  capacity_le : a.capacity ≤ maxMemorySize
  pagesize_dvd : pagesize ∣ a.capacity
  fits : a.base + a.capacity ≤ 2 ^ 64
  offset_le : a.offset ≤ a.capacity

section Rounding

variable {n offset capacity : Nat}

/-- Rounding up stays below a multiple. -/
theorem roundUp_le (hn : 0 < n) (hdvd : n ∣ capacity) (hle : offset ≤ capacity) :
    offset ≤ (offset + n - 1) / n * n ∧ (offset + n - 1) / n * n ≤ capacity := by
  have hdiv := Nat.div_add_mod (offset + n - 1) n
  have hmod := Nat.mod_lt (offset + n - 1) hn
  rw [Nat.mul_comm] at hdiv
  refine ⟨by omega, ?_⟩
  obtain ⟨k, rfl⟩ := hdvd
  rw [Nat.mul_comm n k] at hle ⊢
  have hquot : (offset + n - 1) / n < k + 1 := by
    apply Nat.div_lt_of_lt_mul
    rw [Nat.mul_succ, Nat.mul_comm n k]
    omega
  exact Nat.mul_le_mul_right n (Nat.le_of_lt_succ hquot)

theorem sub64_eq {x y : Nat} (hle : y ≤ x) (hx : x < 2 ^ 64) : sub64 x y = x - y := by
  unfold sub64
  omega

theorem TypeLayout.align_pos (T : TypeLayout) : 0 < T.align := by
  obtain ⟨k, hk⟩ := T.align_pow
  rw [hk]
  exact Nat.two_pow_pos k

theorem TypeLayout.align_le (T : TypeLayout) : T.align ≤ 2 ^ 30 :=
  Nat.le_of_dvd (by decide) T.align_dvd

end Rounding

section Calls

variable {pagesize : Nat} {a a' : GrowableAllocator} (h : Arena pagesize a)

include h

theorem capacity_lt : a.capacity < 2 ^ 31 := Nat.lt_of_le_of_lt h.capacity_le (by decide)

theorem alignOffset_spec (T : TypeLayout) (hdvd : T.align ∣ a.capacity) :
    alignOffset T.align a.offset = (a.offset + T.align - 1) / T.align * T.align ∧
      a.offset ≤ alignOffset T.align a.offset ∧ alignOffset T.align a.offset ≤ a.capacity := by
  have hcapacity := capacity_lt h
  have halign := TypeLayout.align_le T
  have hoffset := h.offset_le
  have heq : alignOffset T.align a.offset = (a.offset + T.align - 1) / T.align * T.align := by
    rw [alignOffset, Nat.mod_eq_of_lt (by omega)]
  rw [heq]
  exact ⟨rfl, roundUp_le (TypeLayout.align_pos T) hdvd hoffset⟩

/-- `alloc` returns the next block at the alignment that fits, or moves the offset up to the
alignment. -/
theorem alloc_cases (T : TypeLayout) (size : Nat) :
    (∃ offset, T.align ∣ a.capacity ∧ offset = (a.offset + T.align - 1) / T.align * T.align ∧
      a.offset ≤ offset ∧ offset + T.size * size ≤ a.capacity ∧
      alloc T size a = ({ a with
        offset := offset + T.size * size
        largestOffset := max (offset + T.size * size) a.largestOffset }, .ok (a.base + offset))) ∨
    ∃ offset e, a.offset ≤ offset ∧ offset ≤ a.capacity ∧
      alloc T size a = ({ a with offset := offset }, .error e) := by
  have hcapacity := capacity_lt h
  unfold alloc
  split
  next => exact .inr ⟨a.offset, _, Nat.le_refl _, h.offset_le, rfl⟩
  next hdivides =>
  have hdvd := Nat.dvd_of_mod_eq_zero (Decidable.not_not.mp hdivides)
  obtain ⟨heq, hge, hle⟩ := alignOffset_spec h T hdvd
  dsimp only
  rw [sub64_eq hle (by omega)]
  split
  next => exact .inr ⟨_, _, hge, hle, rfl⟩
  next hroom =>
  have hfits : T.size * size ≤ a.capacity - alignOffset T.align a.offset :=
    (Nat.mul_le_mul_left _ (Nat.not_lt.mp hroom)).trans (Nat.mul_div_le _ _)
  have haligned : (T.size * size % 2 ^ 64 + alignOffset T.align a.offset) % 2 ^ 64 =
      alignOffset T.align a.offset + T.size * size := by
    rw [Nat.mod_eq_of_lt (a := T.size * size) (by omega), Nat.mod_eq_of_lt (by omega), Nat.add_comm]
  have hlargest : ∀ n, (if a.largestOffset < n then n else a.largestOffset) =
      max n a.largestOffset := by
    intro n
    split <;> omega
  rw [haligned, if_neg (by omega), hlargest]
  exact .inl ⟨_, hdvd, heq, hge, by omega, rfl⟩

theorem alignToPage_spec (hpage : 0 < pagesize) (hlarge : pagesize ≤ maxMemorySize) :
    alignToPage pagesize a.offset = (a.offset + pagesize - 1) / pagesize * pagesize ∧
      a.offset ≤ alignToPage pagesize a.offset ∧ alignToPage pagesize a.offset ≤ a.capacity ∧
      pagesize ∣ alignToPage pagesize a.offset := by
  have hcapacity := capacity_lt h
  have hoffset := h.offset_le
  have hmax : maxMemorySize = 2 ^ 30 := rfl
  have heq : alignToPage pagesize a.offset = (a.offset + pagesize - 1) / pagesize * pagesize := by
    rw [alignToPage, Nat.mod_eq_of_lt (by omega)]
  rw [heq]
  obtain ⟨hge, hle⟩ := roundUp_le hpage h.pagesize_dvd hoffset
  exact ⟨rfl, hge, hle, Nat.dvd_mul_left _ _⟩

/-- `reclaim` moves the offset down by the size of what is reclaimed. -/
theorem reclaim_cases (T : TypeLayout) {ptr : Nat} (hptr : ptr < 2 ^ 64) (size : Nat) :
    (T.size * size ≤ a.offset ∧ (size ≠ 0 → ptr + T.size * size = a.base + a.offset) ∧
      reclaim T ptr size a = ({ a with offset := a.offset - T.size * size }, .ok ())) ∨
    ∃ e, reclaim T ptr size a = (a, .error e) := by
  have hcapacity := capacity_lt h
  have hfits := h.fits
  have hoffset := h.offset_le
  unfold reclaim
  split
  next => exact .inr ⟨_, rfl⟩
  next hmuch =>
  split
  next => exact .inr ⟨_, rfl⟩
  next hlifo =>
  have hless : T.size * size ≤ a.offset :=
    (Nat.mul_le_mul_left _ (Nat.not_lt.mp hmuch)).trans (Nat.mul_div_le _ _)
  left
  split
  next hsize =>
    have hmod := (Decidable.not_not.mp hlifo).resolve_left hsize
    have hpos : 0 < T.size * size := Nat.mul_pos T.size_pos (Nat.pos_of_ne_zero hsize)
    have hsum : ptr + T.size * size = a.base + a.offset := by omega
    refine ⟨hless, fun _ => hsum, ?_⟩
    rw [sub64_eq (by omega) hptr]
    exact congrArg (fun n => (({ a with offset := n } : GrowableAllocator), Except.ok ()))
      (by omega)
  next hsize =>
    obtain rfl := Decidable.not_not.mp hsize
    exact ⟨hless, fun hne => absurd rfl hne, rfl⟩

omit h in
/-- `end_code` rounds the offset up, or goes back to the code when that has been moved. -/
theorem endCode_cases {p : Nat} (isJit : Bool) {codeBase : Nat} (hcode : codeBase < 2 ^ 64)
    (executable : Except VmError Nat) (hasserts : endCodeAsserts codeBase a = true) :
    a.base ≤ codeBase ∧ codeBase ≤ a.base + a.offset ∧
    ∃ b r, endCode isJit p codeBase executable a = (b, r) ∧ b.base = a.base ∧
      b.capacity = a.capacity ∧ b.largestOffset = a.largestOffset ∧
      ((isJit = true ∧ r = .ok () ∧ b.offset = codeBase - a.base) ∨
        (isJit = true → ∃ e, r = .error e) ∧ b.offset = alignToPage p a.offset) := by
  simp only [endCodeAsserts, Bool.and_eq_true, decide_eq_true_eq] at hasserts
  obtain ⟨hbase, htop⟩ := hasserts
  refine ⟨hbase, htop, ?_⟩
  unfold endCode
  cases isJit with
  | false =>
    exact ⟨_, _, rfl, rfl, rfl, rfl, .inr ⟨fun hjit => absurd hjit Bool.false_ne_true, rfl⟩⟩
  | true =>
    cases executable with
    | error e => exact ⟨_, _, rfl, rfl, rfl, rfl, .inr ⟨fun _ => ⟨e, rfl⟩, rfl⟩⟩
    | ok code => exact ⟨_, _, rfl, rfl, rfl, rfl, .inl ⟨rfl, rfl, sub64_eq hbase hcode⟩⟩

omit h in
/-- `finalize` changes nothing, or ends the arena at the next page. -/
theorem finalize_cases (unmapped : Bool) :
    (finalize pagesize unmapped a).1 = a ∨
    (alignToPage pagesize a.offset < a.capacity ∧ finalize pagesize unmapped a = ({ a with
      capacity := alignToPage pagesize a.offset
      offset := alignToPage pagesize a.offset
      base := if alignToPage pagesize a.offset = 0 then 0 else a.base }, .ok ())) := by
  unfold finalize
  split
  · dsimp only
    split
    next hlt =>
      cases unmapped with
      | true => exact .inr ⟨hlt, rfl⟩
      | false => exact .inl rfl
    next => exact .inl rfl
  · exact .inl rfl

end Calls

section Blocks

variable {h : History} (hsound : Sound h) {a : GrowableAllocator}

include hsound

/-- The offset may go up. -/
theorem Sound.advance (hbase : a.base = h.alloc.base) (hge : h.alloc.offset ≤ a.offset)
    (hlargest : a.largestOffset = h.alloc.largestOffset) : Sound { h with alloc := a } where
  inside := by
    intro b hb x hx
    obtain ⟨hlow, hhigh⟩ := hsound.inside b hb x hx
    dsimp only
    omega
  disjoint := hsound.disjoint
  largest := hlargest.trans hsound.largest

omit hsound in
/-- A piece is a part of its block without the bytes given back. -/
theorem covers_pieces {low high x : Nat} {b c : Nat × Nat} (hc : c ∈ pieces low high b)
    (hx : Covers c x) : Covers b x ∧ (x < low ∨ high ≤ x) := by
  obtain ⟨hfrom, hto⟩ := hx
  have hpiece := (List.mem_filter.mp hc).1
  simp only [List.mem_cons, List.not_mem_nil, or_false] at hpiece
  unfold Covers
  rcases hpiece with rfl | rfl
  · dsimp only at hfrom hto
    omega
  · dsimp only at hfrom hto
    omega

omit hsound in
/-- The piece below what is given back and the piece above it have no byte in common. -/
theorem pieces_disjoint {low high : Nat} (hle : low ≤ high) (b : Nat × Nat) :
    (pieces low high b).Pairwise fun c d => ∀ x, Covers c x → ¬ Covers d x := by
  refine List.Pairwise.filter _ (List.pairwise_pair.mpr ?_)
  intro x hbelow habove
  have hhigh := hbelow.2
  have hlow := habove.1
  dsimp only at hhigh hlow
  omega

/-- All bytes from `low` up to the offset are given back and the offset goes down no further than
that, or it stays. -/
theorem Sound.back {low high : Nat} (hbase : a.base = h.alloc.base) (hle : low ≤ high)
    (hoffset : (h.alloc.base + h.alloc.offset ≤ high ∧ low ≤ a.base + a.offset) ∨
      a.offset = h.alloc.offset)
    (hlargest : a.largestOffset = h.alloc.largestOffset) :
    Sound { h with alloc := a, live := giveBack low high h.live } where
  inside := by
    intro c hc x hx
    obtain ⟨b, hb, hpiece⟩ := List.mem_flatMap.mp hc
    obtain ⟨hcovers, hkept⟩ := covers_pieces hpiece hx
    obtain ⟨hfrom, hto⟩ := hsound.inside b hb x hcovers
    dsimp only
    omega
  disjoint := by
    refine List.pairwise_flatMap.mpr ⟨fun b _ => pieces_disjoint hle b, ?_⟩
    refine hsound.disjoint.imp ?_
    intro b c hdisjoint b' hb' c' hc' x hb hc
    exact hdisjoint x (covers_pieces hb' hb).1 (covers_pieces hc' hc).1
  largest := hlargest.trans hsound.largest

/-- A new block lies above all others. -/
theorem Sound.push {ptr size : Nat} (hbase : a.base = h.alloc.base)
    (hptr : h.alloc.base + h.alloc.offset ≤ ptr)
    (hend : ptr + size = a.base + a.offset)
    (hlargest : a.largestOffset = max a.offset h.alloc.largestOffset) :
    Sound { alloc := a, live := (ptr, ptr + size) :: h.live,
            ends := (ptr + size - h.alloc.base) :: h.ends } where
  inside := by
    intro b hb x hx
    dsimp only
    rcases List.mem_cons.mp hb with rfl | hb
    · obtain ⟨hlow, hhigh⟩ := hx
      dsimp only at hlow hhigh
      omega
    · obtain ⟨hlow, hhigh⟩ := hsound.inside b hb x hx
      omega
  disjoint := by
    refine List.Pairwise.cons ?_ hsound.disjoint
    intro b hb x hnew hold
    obtain ⟨-, hhigh⟩ := hsound.inside b hb x hold
    have hlow := hnew.1
    dsimp only at hlow
    omega
  largest := by
    have hoffset : ptr + size - h.alloc.base = a.offset := by omega
    rw [List.foldr_cons, ← hsound.largest, hoffset]
    exact hlargest

end Blocks

section Runs

variable {pagesize : Nat} (hpage : 0 < pagesize) (hlarge : pagesize ≤ maxMemorySize)

/-- What the allocator takes for granted about an `alloc`: the arena starts at the alignment. -/
def BaseAligned (s : Lib.TraceStep History Event Result) : Prop :=
  ∀ T size, s.event = .alloc T size → T.align ∣ s.before.alloc.base

theorem cast_roundUp {n : Nat} (hn : 0 < n) (offset : Nat) :
    ((offset : Int) + n - 1) / n * n = ((offset + n - 1) / n * n : Nat) := by
  have hsub : ((offset + n - 1 : Nat) : Int) = offset + n - 1 := by omega
  rw [Nat.cast_mul, Int.natCast_ediv, hsub]

include hpage hlarge

/-- No size wraps. -/
theorem sizes_fit {event : Event} {h : History} {r : Result} (harena : Arena pagesize h.alloc)
    (hstep : step pagesize event h = some r) :
    ∀ x ∈ sizes pagesize event h.alloc, 0 ≤ x ∧ x < 2 ^ 64 := by
  have hcapacity := capacity_lt harena
  have hoffset := harena.offset_le
  have hpageSmall : pagesize ≤ 2 ^ 30 := hlarge
  obtain ⟨hpageEq, hpageGe, hpageLe, -⟩ := alignToPage_spec harena hpage hlarge
  have hround := cast_roundUp hpage h.alloc.offset
  rw [← hpageEq] at hround
  intro x hx
  cases event with
  | alloc T size =>
    have halign := TypeLayout.align_le T
    have hpos := TypeLayout.align_pos T
    simp only [sizes] at hx
    split at hx
    next => cases hx
    next hdivides =>
    have hdvd := Nat.dvd_of_mod_eq_zero (Decidable.not_not.mp hdivides)
    obtain ⟨heq, hge, hle⟩ := alignOffset_spec harena T hdvd
    rw [cast_roundUp (TypeLayout.align_pos T), ← heq] at hx
    have hsub : ((h.alloc.capacity : Int) - alignOffset T.align h.alloc.offset) =
        (h.alloc.capacity - alignOffset T.align h.alloc.offset : Nat) := by omega
    rw [hsub] at hx
    split at hx
    next =>
      simp only [List.append_nil, List.mem_cons, List.not_mem_nil, or_false] at hx
      omega
    next hroom =>
      have hfits : T.size * size.toNat ≤ h.alloc.capacity - alignOffset T.align h.alloc.offset := by
        have hquot : size.toNat ≤
          (h.alloc.capacity - alignOffset T.align h.alloc.offset) / T.size := by
          exact_mod_cast Int.not_lt.mp hroom
        exact (Nat.mul_le_mul_left _ hquot).trans (Nat.mul_div_le _ _)
      have hcast : ((T.size : Int) * size.toNat) = (T.size * size.toNat : Nat) := by
        rw [Nat.cast_mul]
      rw [hcast] at hx
      simp only [List.cons_append, List.nil_append, List.mem_cons, List.not_mem_nil, or_false] at hx
      omega
  | reclaim T ptr size =>
    simp only [sizes] at hx
    split at hx
    next => cases hx
    next hmuch =>
    have hless : T.size * size.toNat ≤ h.alloc.offset :=
      (Nat.mul_le_mul_left _ (Nat.not_lt.mp hmuch)).trans (Nat.mul_div_le _ _)
    have hcast : ((T.size : Int) * size.toNat) = (T.size * size.toNat : Nat) := by rw [Nat.cast_mul]
    rw [hcast] at hx
    rcases List.mem_cons.mp hx with rfl | hx
    · omega
    · split at hx
      next hlifo =>
        have hfits := harena.fits
        have hptr := ptr.isLt
        have hpos : 0 < T.size * size.toNat := Nat.mul_pos T.size_pos (Nat.pos_of_ne_zero hlifo.1)
        have hmod := hlifo.2
        rw [List.mem_singleton] at hx
        omega
      next => cases hx
  | startCode =>
    simp only [sizes, List.mem_singleton] at hx
    omega
  | endCode isJit codeBase executable =>
    simp only [step, Option.ite_none_right_eq_some] at hstep
    obtain ⟨hbase, htop, -⟩ := endCode_cases (p := pagesize) isJit codeBase.isLt executable hstep.1
    simp only [sizes, List.mem_cons, List.not_mem_nil, or_false, hround] at hx
    omega
  | finalize unmapped =>
    simp only [sizes, hround] at hx
    split at hx
    next => cases hx
    next =>
      rcases List.mem_cons.mp hx with rfl | hx
      · omega
      · split at hx
        next hlt =>
          rw [List.mem_singleton] at hx
          omega
        next => cases hx

/-- One call keeps the arena and the blocks sound and does what it should. -/
theorem step_spec {event : Event} {h : History} {r : Result} (harena : Arena pagesize h.alloc)
    (hsound : Sound h) (hstep : step pagesize event h = some r) :
    (Arena pagesize r.next.alloc ∧ Sound r.next) ∧
      (BaseAligned ⟨h, event, r⟩ → Good pagesize ⟨h, event, r⟩) := by
  have hsizes := sizes_fit hpage hlarge harena hstep
  have hcapacity := capacity_lt harena
  have hoffset := harena.offset_le
  have hfits := harena.fits
  obtain ⟨-, hpageGe, hpageLe, hpageDvd⟩ := alignToPage_spec harena hpage hlarge
  cases event with
  | alloc T size =>
    rcases alloc_cases harena T size.toNat with
      ⟨offset, hdvd, hround, hge, hle, heq⟩ | ⟨offset, e, hge, hle, heq⟩
    · simp only [step, heq, Option.some.injEq] at hstep
      subst hstep
      refine ⟨⟨⟨harena.capacity_le, harena.pagesize_dvd, hfits, hle⟩, ?_⟩,
        fun haligned => ⟨hsizes, ?_, ?_, fun h => absurd h Bool.false_ne_true⟩⟩
      · exact hsound.push rfl (Nat.add_le_add_left hge _) (by dsimp only; omega) rfl
      · intro b hb
        obtain rfl := Option.some.inj hb
        dsimp only
        omega
      · intro T' size' b hevent hb
        obtain ⟨rfl, rfl⟩ := Event.alloc.inj hevent
        obtain rfl := Option.some.inj hb
        refine ⟨rfl, Nat.dvd_add (haligned T size rfl) ?_⟩
        rw [hround]
        exact Nat.dvd_mul_left _ _
    · simp only [step, heq, Option.some.injEq] at hstep
      subst hstep
      exact ⟨⟨⟨harena.capacity_le, harena.pagesize_dvd, hfits, hle⟩, hsound.advance rfl hge rfl⟩,
        fun _ => .of_none hsizes rfl (fun _ => rfl)⟩
  | reclaim T ptr size =>
    rcases reclaim_cases harena T ptr.isLt size.toNat with ⟨hless, hlifo, heq⟩ | ⟨e, heq⟩
    · simp only [step, heq, Option.some.injEq] at hstep
      subst hstep
      have hmoved : (h.alloc.base + h.alloc.offset ≤ ptr.toNat + T.size * size.toNat ∧
          ptr.toNat ≤ h.alloc.base + (h.alloc.offset - T.size * size.toNat)) ∨
          h.alloc.offset - T.size * size.toNat = h.alloc.offset := by
        by_cases hsize : size.toNat = 0
        · right
          rw [hsize, Nat.mul_zero, Nat.sub_zero]
        · have hend := hlifo hsize
          omega
      exact ⟨⟨⟨harena.capacity_le, harena.pagesize_dvd, hfits, (Nat.sub_le _ _).trans hoffset⟩,
        hsound.back rfl (Nat.le_add_right _ _) hmoved rfl⟩,
        fun _ => .of_none hsizes rfl (fun h => absurd h Bool.false_ne_true)⟩
    · simp only [step, heq, Option.some.injEq] at hstep
      subst hstep
      exact ⟨⟨harena, hsound⟩, fun _ => .of_none hsizes rfl (fun _ => rfl)⟩
  | startCode =>
    simp only [step, startCode, Option.some.injEq] at hstep
    subst hstep
    exact ⟨⟨⟨harena.capacity_le, harena.pagesize_dvd, hfits, hpageLe⟩,
      hsound.advance rfl hpageGe rfl⟩,
      fun _ => .of_none hsizes rfl (fun h => absurd h Bool.false_ne_true)⟩
  | endCode isJit codeBase executable =>
    simp only [step, Option.ite_none_right_eq_some] at hstep
    obtain ⟨hasserts, hstep⟩ := hstep
    obtain ⟨hbase, htop, b, r', heq, hb, hcap, hlarge', hcase⟩ :=
      endCode_cases (p := pagesize) isJit codeBase.isLt executable hasserts
    rw [heq] at hstep
    have hnext : ∀ {o : Nat}, b.offset = o → o ≤ h.alloc.capacity → Arena pagesize b := by
      intro o ho hle
      refine ⟨hcap ▸ harena.capacity_le, hcap ▸ harena.pagesize_dvd, ?_, ?_⟩ <;> omega
    rcases hcase with ⟨rfl, rfl, ho⟩ | ⟨hfailed, ho⟩
    · obtain rfl := Option.some.inj hstep
      have hsound' := hsound.back hb htop (.inl ⟨Nat.le_refl _, by omega⟩) hlarge'
      exact ⟨⟨hnext ho (by omega), hsound'⟩,
        fun _ => .of_none hsizes rfl (fun h => absurd h Bool.false_ne_true)⟩
    · have hadvance : Sound { h with alloc := b } := hsound.advance hb (ho ▸ hpageGe) hlarge'
      cases r' with
      | error e =>
        obtain rfl := Option.some.inj hstep
        exact ⟨⟨hnext ho hpageLe, hadvance⟩, fun _ => .of_none hsizes rfl (fun _ => rfl)⟩
      | ok u =>
        cases isJit with
        | true =>
          obtain ⟨e, he⟩ := hfailed rfl
          cases he
        | false =>
          obtain rfl := Option.some.inj hstep
          exact ⟨⟨hnext ho hpageLe, hadvance⟩,
            fun _ => .of_none hsizes rfl (fun h => absurd h Bool.false_ne_true)⟩
  | finalize unmapped =>
    have hnext : ∀ b : GrowableAllocator, (finalize pagesize unmapped h.alloc).1 = b →
        Arena pagesize b ∧ Sound { h with alloc := b } := by
      intro b hb
      rcases @finalize_cases pagesize h.alloc unmapped with heq | ⟨hlt, heq⟩
      · obtain rfl := heq.symm.trans hb
        exact ⟨harena, hsound⟩
      · rw [heq] at hb
        subst hb
        by_cases hempty : alignToPage pagesize h.alloc.offset = 0
        · -- nothing is in use, so the null base is as good as any
          have hzero : h.alloc.offset = 0 := by omega
          refine ⟨⟨?_, hpageDvd, ?_, Nat.le_refl _⟩, ⟨?_, hsound.disjoint, hsound.largest⟩⟩
          · dsimp only
            omega
          · dsimp only
            rw [if_pos hempty]
            omega
          · intro c hc x hx
            obtain ⟨hlow, hhigh⟩ := hsound.inside c hc x hx
            omega
        · have hcap := harena.capacity_le
          refine ⟨⟨?_, hpageDvd, ?_, Nat.le_refl _⟩, hsound.advance (if_neg hempty) hpageGe rfl⟩
          · dsimp only
            omega
          · dsimp only
            rw [if_neg hempty]
            omega
    rcases hcall : finalize pagesize unmapped h.alloc with ⟨b, r'⟩
    obtain ⟨harena', hsound'⟩ := hnext b (by rw [hcall])
    cases r' with
    | ok u =>
      simp only [step, hcall, Option.some.injEq] at hstep
      subst hstep
      exact ⟨⟨harena', hsound'⟩, fun _ => .of_none hsizes rfl (fun _ => rfl)⟩
    | error e =>
      simp only [step, hcall, Option.some.injEq] at hstep
      subst hstep
      exact ⟨⟨harena', hsound'⟩, fun _ => .of_none hsizes rfl (fun _ => rfl)⟩

end Runs

/-- The alignment of a block is exactly that of the arena. -/
theorem alloc_aligned_iff {pagesize ptr : Nat} {a a' : GrowableAllocator}
    (harena : Arena pagesize a)
    {T : TypeLayout} {size : Nat} (halloc : alloc T size a = (a', .ok ptr)) :
    T.align ∣ ptr ↔ T.align ∣ a.base := by
  rcases alloc_cases harena T size with ⟨offset, -, hround, -, -, heq⟩ | ⟨offset, e, -, -, heq⟩
  · rw [heq] at halloc
    obtain rfl := Except.ok.inj (Prod.mk.inj halloc).2
    exact (Nat.dvd_add_iff_left (hround ▸ Nat.dvd_mul_left _ _)).symm
  · rw [heq] at halloc
    cases (Prod.mk.inj halloc).2

/-- After `use_default_memory`, or `use_fixed_memory` of a page multiple, on a new allocator. -/
def Ready (pagesize mapped : Nat) (a : GrowableAllocator) : Prop :=
  useDefaultMemory (some mapped) {} = (a, .ok ()) ∨
    ∃ size, pagesize ∣ size ∧ useFixedMemory size (some mapped) {} = (a, .ok ())

theorem Ready.arena {pagesize mapped : Nat} {a : GrowableAllocator}
    (hready : Ready pagesize mapped a)
    (hpage : pagesize ∣ maxMemorySize) (hmapped : mapped + a.capacity ≤ 2 ^ 64) :
    Arena pagesize a ∧ Sound { alloc := a } := by
  have hsound : ∀ b : GrowableAllocator, b.largestOffset = 0 → Sound { alloc := b } :=
    fun b hb => ⟨fun c hc => (List.not_mem_nil hc).elim, .nil, hb⟩
  rcases hready with heq | ⟨size, hsize, heq⟩
  · obtain ⟨rfl, -⟩ := Prod.mk.inj heq
    exact ⟨⟨Nat.le_refl _, hpage, hmapped, Nat.zero_le _⟩, hsound _ rfl⟩
  · unfold useFixedMemory at heq
    split at heq
    next =>
      obtain ⟨-, herror⟩ := Prod.mk.inj heq
      cases herror
    next hbounds =>
      obtain ⟨rfl, -⟩ := Prod.mk.inj heq
      exact ⟨⟨(Decidable.not_not.mp hbounds).2, hsize, hmapped, Nat.zero_le _⟩, hsound _ rfl⟩

/-- In every run whose allocations ask for an alignment that divides the address of the arena, the
blocks in use are disjoint and inside, every call computes its sizes without wrapping and returns an
aligned block inside the arena or rejects and leaves the blocks alone, and `_largest_offset` is the
largest end there has been. -/
theorem growable_allocator_run {pagesize mapped : Nat} {a : GrowableAllocator}
    (hpage : pagesize ∣ maxMemorySize) (hready : Ready pagesize mapped a)
    (hmapped : mapped + a.capacity ≤ 2 ^ 64) {steps : List (Lib.TraceStep History Event Result)}
    {h : History} (hrun : Lib.Trace (step pagesize) Result.next { alloc := a } steps h)
    (haligned : ∀ s ∈ steps, BaseAligned s) :
    h.alloc.offset ≤ h.alloc.capacity ∧ Sound h ∧ ∀ s ∈ steps, Good pagesize s := by
  have hpos : 0 < pagesize := Nat.pos_of_dvd_of_pos hpage (by decide)
  have hle : pagesize ≤ maxMemorySize := Nat.le_of_dvd (by decide) hpage
  have hinit := hready.arena hpage hmapped
  have hspec : ∀ h event r, Arena pagesize h.alloc ∧ Sound h → step pagesize event h = some r →
      (Arena pagesize r.next.alloc ∧ Sound r.next) ∧
        (BaseAligned ⟨h, event, r⟩ → Good pagesize ⟨h, event, r⟩) :=
    fun _ _ _ hinv hstep => step_spec hpos hle hinv.1 hinv.2 hstep
  obtain ⟨harena, hsound⟩ := hrun.invariant (P := fun h => Arena pagesize h.alloc ∧ Sound h) hinit
    fun h event r hinv hstep => (hspec h event r hinv hstep).1
  refine ⟨harena.offset_le, hsound, ?_⟩
  exact hrun.forall_of (P := fun h => Arena pagesize h.alloc ∧ Sound h) hinit
    (fun h event r hinv hstep hcond =>
      ⟨(hspec h event r hinv hstep).1, (hspec h event r hinv hstep).2 hcond⟩) haligned

/-- A type of two system pages with the alignment of its size. -/
def twoPages : TypeLayout where
  size := 8192
  align := 8192
  size_pos := by decide
  size_lt := by decide
  align_pow := ⟨13, rfl⟩
  align_dvd := by decide

/-- The arena may start at an odd page: the first block of two pages is not aligned, although its
alignment divides the capacity. -/
theorem oddPage_misaligned : ∃ a r, useDefaultMemory (some 0x7f0000001000) {} = (a, .ok ()) ∧
    step 4096 (.alloc twoPages 1) { alloc := a } = some r ∧ twoPages.align ∣ a.capacity ∧
    r.block = some (0x7f0000001000, 0x7f0000003000) ∧ ¬ twoPages.align ∣ 0x7f0000001000 :=
  ⟨_, _, rfl, rfl, by decide, rfl, by decide⟩

def ints : TypeLayout where
  size := 4
  align := 4
  size_pos := by decide
  size_lt := by decide
  align_pow := ⟨2, rfl⟩
  align_dvd := by decide

/-- Ten integers, of which eight are reclaimed. -/
theorem reclaimed_sound : ∃ h, h.live = [(0x7f0000001000, 0x7f0000001008)] ∧
    h.alloc.largestOffset = 40 ∧ h.alloc.offset ≤ h.alloc.capacity ∧ Sound h := by
  have hready : Ready 4096 0x7f0000001000 { base := 0x7f0000001000, capacity := maxMemorySize } :=
    .inl rfl
  have hrun : ∃ steps h, Lib.Trace (step 4096) Result.next
      { alloc := { base := 0x7f0000001000, capacity := maxMemorySize } } steps h ∧
      h.live = [(0x7f0000001000, 0x7f0000001008)] ∧ h.alloc.largestOffset = 40 ∧
      ∀ s ∈ steps, BaseAligned s := by
    refine ⟨_, _, .cons (e := .alloc ints 10) rfl
      (.cons (e := .reclaim ints 0x7f0000001008 8) rfl (.nil _)),
      rfl, rfl, List.forall_mem_cons.mpr ⟨?_, List.forall_mem_singleton.mpr ?_⟩⟩
    · intro T size hevent
      obtain ⟨rfl, -⟩ := Event.alloc.inj hevent
      decide
    · intro T size hevent
      cases hevent
  obtain ⟨steps, h, hrun, hlive, hlargest, haligned⟩ := hrun
  obtain ⟨hle, hsound, -⟩ := growable_allocator_run (by decide) hready (by decide) hrun haligned
  exact ⟨h, hlive, hlargest, hle, hsound⟩

end EosVm.GrowableAllocator
