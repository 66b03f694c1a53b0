import EosVm.Lib.Trace
import EosVm.Source.WasmAllocator

/-!
# The linear memory is what the page count says

Over any run of the allocator the pages below the count can be written, everything from there to the
end of the reservation cannot be touched, and bytes that come into reach are zero.
-/

set_option autoImplicit false

namespace EosVm

/-- The protections after a successful `mprotect`. -/
def setProt (prot : Nat → Prot) (addr len : Nat) (p : Prot) : Nat → Prot :=
  fun x => if addr ≤ x ∧ x < addr + len then p else prot x

/-- What the allocator relies on: pages of the system divide those of the memory, `mmap` returns the
start of a page, `mprotect` succeeds on whole pages of the reservation, and fails with `ENOMEM` on
addresses beyond the address space. -/
structure System.Lawful (sys : System) : Prop where
  syspagesize_dvd : sys.syspagesize ∣ pageSize
  syspagesize_large : 32 ≤ sys.syspagesize
  mapped_dvd : sys.syspagesize ∣ sys.mapped
  mapped_fits : sys.mapped + sys.reserved ≤ 2 ^ 64
  mprotect_pages : ∀ prot addr len p, sys.syspagesize ∣ addr → sys.syspagesize ∣ len →
    sys.mapped ≤ addr → addr + len ≤ sys.mapped + sys.reserved →
    sys.mprotect prot addr len p = (setProt prot addr len p, true)
  mprotect_invalid : ∀ prot addr len p, 2 ^ 64 < addr + len →
    sys.mprotect prot addr len p = (prot, false)

namespace WasmAllocator

/-- The calls, and a store by the program. -/
inductive Event where
  | alloc (size : BitVec 64)
  | free (size : BitVec 64)
  | reset (newPages : BitVec 32)
  | resetNone
  | store (addr : Nat) (byte : UInt8)

/-- One event; a store to a byte that cannot be written is none. -/
def step (sys : System) (event : Event) (a : WasmAllocator) : Option Outcome :=
  match event with
  | .alloc size => some (alloc sys size.toNat a)
  | .free size => some (free sys size.toNat a)
  | .reset newPages => some (reset sys newPages.toNat a)
  | .resetNone => some (resetNone sys a)
  | .store addr byte =>
    if a.prot addr = .readWrite then
      some ({ a with bytes := fun x => if x = addr then byte else a.bytes x }, none)
    else none

/-- The byte of the linear memory can be touched. -/
def Accessible (a : WasmAllocator) (i : Nat) : Prop := a.prot (a.raw + i) ≠ .none

/-- Protection and page count agree, from the memory to the end of the reservation. -/
structure Inv (sys : System) (a : WasmAllocator) : Prop where
  raw : a.raw = sys.mapped + sys.prefixSize
  low : -1 ≤ a.page
  high : a.page ≤ maxPagesLimit
  prot : ∀ i < maxMemory + sys.suffixSize,
    a.prot (a.raw + i) = if i < pageSize * a.page.toNat then .readWrite else .none

/-- All bytes in reach are zero. -/
def Zeroed (a : WasmAllocator) : Prop :=
  ∀ i < pageSize * a.page.toNat, a.bytes (a.raw + i) = 0

section Calls

variable {sys : System} (hsys : sys.Lawful) {a : WasmAllocator} (h : Inv sys a)

include hsys

/-- Pages of the memory lie inside the reservation. -/
theorem protect_pages {first count : Nat} {p : Prot} (hraw : a.raw = sys.mapped + sys.prefixSize)
    (hle : first + count ≤ maxPagesLimit) :
    protect sys (a.raw + pageSize * first) (pageSize * count % 2 ^ 64) p a =
      ({ a with prot := setProt a.prot (a.raw + pageSize * first) (pageSize * count) p },
      none) := by
  have hlen : pageSize * count % 2 ^ 64 = pageSize * count := by
    apply Nat.mod_eq_of_lt
    unfold pageSize
    unfold maxPagesLimit at hle
    omega
  have hdvd : sys.syspagesize ∣ sys.mapped + sys.prefixSize :=
    Nat.dvd_add hsys.mapped_dvd (Nat.dvd_add (Nat.dvd_refl _) (Nat.dvd_refl _))
  have hpage := fun n : Nat => Nat.dvd_mul_right_of_dvd hsys.syspagesize_dvd n
  rw [protect, hlen, hsys.mprotect_pages _ _ _ _ (Nat.dvd_add (hraw ▸ hdvd) (hpage _)) (hpage _)]
  · rfl
  · omega
  · rw [hraw, System.reserved, Nat.add_assoc sys.mapped, Nat.add_assoc sys.mapped]
    simp only [System.prefixSize, System.suffixSize, maxMemory, pageSize, maxPagesLimit] at *
    omega

/-- The system's page below the memory and pages from the first one on. -/
theorem protect_below {count : Nat} {p : Prot} (hraw : a.raw = sys.mapped + sys.prefixSize)
    (hle : count ≤ maxPagesLimit) :
    protect sys (a.raw - sys.syspagesize) (pageSize * count + sys.syspagesize) p a =
      ({ a with
        prot := setProt a.prot (a.raw - sys.syspagesize) (pageSize * count + sys.syspagesize) p },
        none) := by
  have hstart : a.raw - sys.syspagesize = sys.mapped + sys.syspagesize := by
    rw [hraw, System.prefixSize, System.tableSize]
    omega
  have hdvd : sys.syspagesize ∣ pageSize * count + sys.syspagesize :=
    Nat.dvd_add (Nat.dvd_mul_right_of_dvd hsys.syspagesize_dvd _) (Nat.dvd_refl _)
  rw [protect, hstart, hsys.mprotect_pages _ _ _ _
    (Nat.dvd_add hsys.mapped_dvd (Nat.dvd_refl _)) hdvd (Nat.le_add_right _ _)]
  · rfl
  · simp only [System.reserved, System.prefixSize, System.suffixSize, System.tableSize, maxMemory,
      pageSize, maxPagesLimit] at *
    omega

omit hsys in
theorem page_toNat {n : Nat} (hpage : a.page = n) : a.page.toNat = n := by
    rw [hpage, Int.toNat_natCast]

include h

/-- `alloc` fails and changes nothing, or makes the next pages accessible and zero. -/
theorem alloc_cases {size : Nat} (hsize : size < 2 ^ 64) :
    (size = 0 ∧ alloc sys size a = (a, none)) ∨
    (size ≠ 0 ∧ (0 ≤ a.page → maxPagesLimit < size + a.page.toNat) ∧
      ∃ e, alloc sys size a = (a, some e)) ∨
    ∃ n : Nat, a.page = n ∧ size ≠ 0 ∧ n + size ≤ maxPagesLimit ∧ alloc sys size a = ({ a with
      prot := setProt a.prot (a.raw + pageSize * n) (pageSize * size) .readWrite
      bytes := memset a.bytes (a.raw + pageSize * n) (pageSize * size)
      page := (n + size : Nat) }, none) := by
  unfold alloc
  split
  next hzero => exact .inl ⟨hzero, rfl⟩
  next hzero =>
  refine .inr ?_
  split
  next hundefined =>
    exact .inl ⟨hzero, fun hpage => absurd hundefined (Int.not_lt.mpr hpage), _, rfl⟩
  next hdefined =>
  obtain ⟨n, hn⟩ := Int.eq_ofNat_of_zero_le (Int.not_lt.mp hdefined)
  have hlimit : n ≤ maxPagesLimit := by
    have hhigh := h.high
    omega
  rw [page_toNat hn]
  split
  next hfull => exact .inl ⟨hzero, fun _ => Nat.lt_of_lt_of_le hfull (Nat.mod_le _ _), _, rfl⟩
  next hroom =>
  rcases Nat.lt_or_ge (size + n) (2 ^ 64) with hlt | hwrap
  · rw [Nat.mod_eq_of_lt hlt] at hroom
    refine .inr ⟨n, hn, hzero, by omega, ?_⟩
    have hlen : pageSize * size % 2 ^ 64 = pageSize * size := by
      unfold pageSize
      unfold maxPagesLimit at hroom
      omega
    have hpage : (a.page + size).bmod (2 ^ 32) = ((n + size : Nat) : Int) := by
      unfold maxPagesLimit at hroom
      rw [hn, Int.bmod_eq_of_le] <;> omega
    dsimp only
    rw [protect_pages hsys h.raw (by omega : n + size ≤ maxPagesLimit)]
    simp only [Outcome.next, hlen, hpage]
  · -- the sum of the pages wraps, and so does the range for `mprotect`
    refine .inl ⟨hzero, fun _ => ?_, .wasmBadAlloc "mprotect failed", ?_⟩
    · unfold maxPagesLimit
      omega
    have hrange : 2 ^ 64 < a.raw + pageSize * n + pageSize * size % 2 ^ 64 := by
      have hraw : 0 < a.raw := by
        have hlarge := hsys.syspagesize_large
        rw [h.raw, System.prefixSize]
        omega
      unfold pageSize
      unfold maxPagesLimit at hlimit
      omega
    simp only [protect, hsys.mprotect_invalid _ _ _ _ hrange, Bool.false_eq_true, if_false,
      Outcome.next]

/-- `free` fails and changes nothing, or takes the last pages out of reach. -/
theorem free_cases (size : Nat) :
    (size = 0 ∧ free sys size a = (a, none)) ∨
    (size ≠ 0 ∧ (0 ≤ a.page → a.page.toNat < size) ∧ ∃ e, free sys size a = (a, some e)) ∨
    ∃ n : Nat, a.page = (n + size : Nat) ∧ size ≠ 0 ∧ free sys size a = ({ a with
      prot := setProt a.prot (a.raw + pageSize * n) (pageSize * size) .none
      page := n }, none) := by
  unfold free
  split
  next hzero => exact .inl ⟨hzero, rfl⟩
  next hzero =>
  refine .inr ?_
  split
  next hundefined =>
    exact .inl ⟨hzero, fun hpage => absurd hundefined (Int.not_lt.mpr hpage), _, rfl⟩
  next hdefined =>
  split
  next hmany => exact .inl ⟨hzero, fun _ => hmany, _, rfl⟩
  next hroom =>
  obtain ⟨n, hn⟩ : ∃ n : Nat, a.page = (n + size : Nat) := ⟨a.page.toNat - size, by omega⟩
  have hpage : a.page - size = n := by
    rw [hn]
    omega
  have hhigh := h.high
  refine .inr ⟨n, hn, hzero, ?_⟩
  dsimp only
  rw [hpage, Int.toNat_natCast]
  exact protect_pages hsys (a := { a with page := n }) h.raw (by omega)

omit hsys in
theorem zero_spec : Inv sys a.zero ∧ Zeroed a.zero := by
  refine ⟨⟨h.raw, h.low, h.high, h.prot⟩, ?_⟩
  intro i hi
  have hlen : pageSize * a.page.toNat % 2 ^ 64 = pageSize * a.page.toNat := by
    have hhigh := h.high
    unfold pageSize
    unfold maxPagesLimit at hhigh
    omega
  have hi' : i < pageSize * a.page.toNat := hi
  exact if_pos ⟨Nat.le_add_right _ _, by rw [hlen]; exact Nat.add_lt_add_left hi' _⟩

/-- The memory is defined after the first half of `reset`, and zero. -/
theorem reset_defined : ∃ b : WasmAllocator, Inv sys b ∧ 0 ≤ b.page ∧ Zeroed b ∧
    (if 0 ≤ a.page then b = a.zero else b.page = 0 ∧ b.raw = a.raw ∧ b.bytes = a.bytes) ∧
    ∀ newPages, reset sys newPages a =
      if b.page.toNat < newPages then alloc sys (newPages - b.page.toNat) b
      else if newPages < b.page.toNat then free sys (b.page.toNat - newPages) b
      else (b, none) := by
  by_cases hpage : 0 ≤ a.page
  · obtain ⟨hinv, hzero⟩ := zero_spec h
    refine ⟨a.zero, hinv, hpage, hzero, by rw [if_pos hpage], fun newPages => ?_⟩
    rw [reset, if_pos hpage]
    rfl
  · have hprotect := protect_below hsys (a := a) (p := .read) h.raw (Nat.zero_le maxPagesLimit)
    rw [Nat.mul_zero, Nat.zero_add] at hprotect
    refine ⟨{ a with page := 0,
                     prot := setProt a.prot (a.raw - sys.syspagesize) sys.syspagesize .read },
      ⟨h.raw, by simp, Int.natCast_nonneg _, ?_⟩, Int.le_refl _, ?_,
      by rw [if_neg hpage]; exact ⟨rfl, rfl, rfl⟩, fun newPages => ?_⟩
    · intro i hi
      have hnone := h.prot i hi
      have hzero : a.page.toNat = 0 := Int.toNat_of_nonpos (by omega)
      rw [hzero] at hnone
      refine Eq.trans (if_neg ?_) hnone
      have hlarge : sys.syspagesize ≤ a.raw := by
        rw [h.raw, System.prefixSize]
        omega
      dsimp only
      omega
    · intro i hi
      exact absurd hi (Nat.not_lt_zero i)
    · rw [reset, if_neg hpage, hprotect]
      rfl

theorem resetNone_defined (hpage : 0 ≤ a.page) : resetNone sys a = ({ a.zero with
    prot := setProt a.prot (a.raw - sys.syspagesize)
      (pageSize * a.page.toNat + sys.syspagesize) .none
    page := -1 }, none) := by
  have hhigh := h.high
  have hpages : a.page.toNat ≤ maxPagesLimit := by omega
  have hmapped := hsys.mapped_fits
  have hlen : (pageSize * a.page.toNat + sys.syspagesize) % 2 ^ 64 =
      pageSize * a.page.toNat + sys.syspagesize := by
    apply Nat.mod_eq_of_lt
    simp only [System.reserved, System.prefixSize, System.suffixSize, System.tableSize, maxMemory,
      pageSize, maxPagesLimit] at *
    omega
  have hprotect := protect_below hsys (a := a.zero) (p := .none) h.raw hpages
  rw [resetNone, if_pos hpage, hlen, show a.raw = a.zero.raw from rfl, hprotect]
  rfl

theorem resetNone_spec : Inv sys (resetNone sys a).1 ∧ (resetNone sys a).1.page = -1 := by
  by_cases hpage : 0 ≤ a.page
  · rw [resetNone_defined hsys h hpage]
    refine ⟨⟨h.raw, Int.le_refl _, by simp [maxPagesLimit], ?_⟩, rfl⟩
    intro i hi
    have hold := h.prot i hi
    have hlarge : sys.syspagesize ≤ a.raw := by
      rw [h.raw, System.prefixSize]
      omega
    refine Eq.trans ?_ (if_neg (Nat.not_lt_zero i)).symm
    change (if a.raw - sys.syspagesize ≤ a.raw + i ∧ a.raw + i < a.raw - sys.syspagesize +
      (pageSize * a.page.toNat + sys.syspagesize) then Prot.none else a.prot (a.raw + i)) = .none
    split
    next => rfl
    next hout => exact hold.trans (if_neg (by omega))
  · rw [resetNone, if_neg hpage]
    refine ⟨⟨h.raw, Int.le_refl _, by simp [maxPagesLimit], ?_⟩, rfl⟩
    intro i hi
    have hold := h.prot i hi
    rwa [Int.toNat_of_nonpos (by omega)] at hold

omit hsys in
omit h in
/-- The boundary between two protections moves up, and below it moves down. -/
theorem setProt_boundary {prot : Nat → Prot} {raw lo size i : Nat} {p q : Prot}
    (hold : prot (raw + i) = if i < lo then p else q) :
    setProt prot (raw + lo) size p (raw + i) = if i < lo + size then p else q := by
  unfold setProt
  rw [hold]
  rcases Nat.lt_or_ge i lo with hlt | hge
  · rw [if_pos hlt, ite_self, if_pos (Nat.lt_add_right size hlt)]
  · rw [if_neg (Nat.not_lt.mpr hge)]
    exact if_congr (by omega) rfl rfl

omit hsys in
omit h in
theorem setProt_boundary_back {prot : Nat → Prot} {raw lo size i : Nat} {p q : Prot}
    (hold : prot (raw + i) = if i < lo + size then p else q) :
    setProt prot (raw + lo) size q (raw + i) = if i < lo then p else q := by
  unfold setProt
  rw [hold]
  rcases Nat.lt_or_ge i lo with hlt | hge
  · rw [if_neg (by omega), if_pos (Nat.lt_add_right size hlt), if_pos hlt]
  · rw [if_neg (Nat.not_lt.mpr hge)]
    rcases Nat.lt_or_ge i (lo + size) with hin | hout
    · rw [if_pos (by omega)]
    · rw [if_neg (by omega), if_neg (Nat.not_lt.mpr hout)]

theorem alloc_spec {size : Nat} (hsize : size < 2 ^ 64) :
    Inv sys (alloc sys size a).1 ∧ (Zeroed a → Zeroed (alloc sys size a).1) ∧
      ∀ i, pageSize * a.page.toNat ≤ i → i < pageSize * (alloc sys size a).1.page.toNat →
        (alloc sys size a).1.bytes (a.raw + i) = 0 := by
  rcases alloc_cases hsys h hsize with ⟨-, heq⟩ | ⟨-, -, e, heq⟩ | ⟨n, hn, -, hle, heq⟩
  · rw [heq]
    exact ⟨h, id, fun i hge hlt => absurd hlt (Nat.not_lt.mpr hge)⟩
  · rw [heq]
    exact ⟨h, id, fun i hge hlt => absurd hlt (Nat.not_lt.mpr hge)⟩
  · have hpage := page_toNat hn
    rw [heq]
    refine ⟨⟨h.raw, by dsimp only; omega, by dsimp only; omega, ?_⟩, ?_, ?_⟩
    · intro i hi
      have hold := h.prot i hi
      rw [hpage] at hold
      rw [Int.toNat_natCast, Nat.mul_add]
      exact setProt_boundary hold
    · intro hzero i hi
      simp only [Int.toNat_natCast, Nat.mul_add, memset] at hi ⊢
      split
      next => rfl
      next hout => exact hzero i (by rw [hpage]; omega)
    · intro i hge hlt
      rw [hpage] at hge
      simp only [Int.toNat_natCast, Nat.mul_add, memset] at hlt ⊢
      exact if_pos ⟨by omega, by omega⟩

theorem free_spec (size : Nat) :
    Inv sys (free sys size a).1 ∧ (Zeroed a → Zeroed (free sys size a).1) ∧
      (free sys size a).1.page ≤ a.page := by
  rcases free_cases hsys h size with ⟨-, heq⟩ | ⟨-, -, e, heq⟩ | ⟨n, hn, -, heq⟩
  · rw [heq]
    exact ⟨h, id, Int.le_refl _⟩
  · rw [heq]
    exact ⟨h, id, Int.le_refl _⟩
  · have hpage := page_toNat hn
    have hhigh := h.high
    rw [heq]
    refine ⟨⟨h.raw, by dsimp only; omega, by dsimp only; omega, ?_⟩, ?_, by dsimp only; omega⟩
    · intro i hi
      have hold := h.prot i hi
      rw [hpage, Nat.mul_add] at hold
      rw [Int.toNat_natCast]
      exact setProt_boundary_back hold
    · intro hzero i hi
      simp only [Int.toNat_natCast] at hi
      exact hzero i (by rw [hpage, Nat.mul_add]; omega)

/-- After `reset(new_pages)`, whether it returns or not, all of the memory is zero. -/
theorem reset_spec (newPages : BitVec 32) :
    Inv sys (reset sys newPages.toNat a).1 ∧ Zeroed (reset sys newPages.toNat a).1 := by
  obtain ⟨b, hinv, hpage, hzero, -, heq⟩ := reset_defined hsys h
  have hlt := newPages.isLt
  rw [heq]
  split
  next =>
    obtain ⟨hkeep, hzeroed, -⟩ := alloc_spec hsys hinv
      (by omega : newPages.toNat - b.page.toNat < 2 ^ 64)
    exact ⟨hkeep, hzeroed hzero⟩
  next =>
    split
    next =>
      obtain ⟨hkeep, hzeroed, -⟩ := free_spec hsys hinv (b.page.toNat - newPages.toNat)
      exact ⟨hkeep, hzeroed hzero⟩
    next => exact ⟨hinv, hzero⟩

/-- A call does what the one of the execution context does, and fails when that does. -/
def Refines (ctx : ExecutionContextBase) (o : Outcome) (r : Except VmError ExecutionContextBase) :
    Prop :=
  match o.2 with
  | none => r = .ok { ctx with page := o.1.page, memory := fun i => o.1.bytes (o.1.raw + i) }
  | some _ => ∃ e, r = .error e

theorem alloc_refines (ctx : ExecutionContextBase) {size : Nat} (hsize : size < 2 ^ 64) :
    Refines ctx (alloc sys size a)
      (ExecutionContextBase.allocPages
        { ctx with page := a.page, memory := fun i => a.bytes (a.raw + i) } size) := by
  unfold ExecutionContextBase.allocPages
  rcases alloc_cases hsys h hsize with
    ⟨hzero, heq⟩ | ⟨hzero, hfull, e, heq⟩ | ⟨n, hn, hzero, hle, heq⟩
  · rw [heq, if_pos hzero]
    rfl
  · rw [heq, if_neg hzero]
    by_cases hpage : 0 ≤ a.page
    · have hlimit : ¬ (size + a.page ≤ maxPagesLimit) := by
        have hlt := hfull hpage
        omega
      exact ⟨.wasmBadAlloc "exceeded max number of pages",
        by simp [vmAssert, hpage, hlimit, bind, Except.bind]⟩
    · exact ⟨.wasmBadAlloc "require memory to allocate",
        by simp [vmAssert, hpage, bind, Except.bind]⟩
  · have hlimit : (size : Int) + n ≤ maxPagesLimit := by omega
    have hmemory : (fun i => memset a.bytes (a.raw + pageSize * n) (pageSize * size) (a.raw + i)) =
        ExecutionContextBase.zeroPages n size fun i => a.bytes (a.raw + i) := by
      funext i
      simp only [memset, ExecutionContextBase.zeroPages, Nat.add_mul, Nat.mul_comm pageSize]
      exact if_congr (by omega) rfl rfl
    rw [heq, if_neg hzero]
    simp [Refines, vmAssert, hn, hlimit, bind, Except.bind, pure, Except.pure, hmemory]

theorem free_refines (ctx : ExecutionContextBase) (size : Nat) :
    Refines ctx (free sys size a)
      (ExecutionContextBase.freePages
        { ctx with page := a.page, memory := fun i => a.bytes (a.raw + i) } size) := by
  unfold ExecutionContextBase.freePages
  rcases free_cases hsys h size with ⟨hzero, heq⟩ | ⟨hzero, hmany, e, heq⟩ | ⟨n, hn, hzero, heq⟩
  · rw [heq, if_pos hzero]
    rfl
  · rw [heq, if_neg hzero]
    by_cases hpage : 0 ≤ a.page
    · have hlimit : ¬ (size ≤ a.page) := by
        have hlt := hmany hpage
        omega
      exact ⟨.wasmBadAlloc "freed too many pages",
        by simp [vmAssert, hpage, hlimit, bind, Except.bind]⟩
    · exact ⟨.wasmBadAlloc "require memory to deallocate",
        by simp [vmAssert, hpage, bind, Except.bind]⟩
  · have hpage : 0 ≤ a.page := by omega
    have hlimit : (size : Int) ≤ a.page := by omega
    have hsub : a.page - size = n := by omega
    rw [heq, if_neg hzero]
    simp [Refines, vmAssert, hpage, hlimit, hsub, bind, Except.bind, pure, Except.pure]

omit hsys in
/-- `memset` of all pages, in the memory of the execution context. -/
theorem zero_memory : (fun i => a.zero.bytes (a.zero.raw + i)) =
    ExecutionContextBase.zeroPages 0 a.page.toNat fun i => a.bytes (a.raw + i) := by
  have hhigh := h.high
  have hlen : pageSize * a.page.toNat % 2 ^ 64 = pageSize * a.page.toNat := by
    unfold pageSize
    unfold maxPagesLimit at hhigh
    omega
  funext i
  simp only [zero, memset, ExecutionContextBase.zeroPages, hlen, Nat.zero_mul, Nat.zero_add]
  rw [Nat.mul_comm a.page.toNat]
  exact if_congr (by omega) rfl rfl

theorem reset_refines (ctx : ExecutionContextBase) (newPages : BitVec 32) :
    Refines ctx (reset sys newPages.toNat a)
      (ExecutionContextBase.resetPages
        { ctx with page := a.page, memory := fun i => a.bytes (a.raw + i) } newPages.toNat) := by
  obtain ⟨b, hinv, hpage, -, hb, heq⟩ := reset_defined hsys h
  obtain ⟨n, hn⟩ := Int.eq_ofNat_of_zero_le hpage
  have hlt := newPages.isLt
  -- the first half leaves the same pages and bytes
  have hhalf : (if 0 ≤ a.page then
        ({ ctx with page := a.page
                    memory := ExecutionContextBase.zeroPages 0 a.page.toNat fun i =>
                      a.bytes (a.raw + i) } :
          ExecutionContextBase)
      else { ctx with page := 0, memory := fun i => a.bytes (a.raw + i) }) =
      { ctx with page := b.page, memory := fun i => b.bytes (b.raw + i) } := by
    split at hb
    next hdefined =>
      rw [if_pos hdefined, hb, zero_memory h]
      rfl
    next hundefined =>
      obtain ⟨hzero, hraw, hbytes⟩ := hb
      rw [if_neg hundefined, hzero, hraw, hbytes]
  rw [heq]
  simp only [ExecutionContextBase.resetPages, hhalf]
  rw [page_toNat hn]
  by_cases hgrow : n < newPages.toNat
  · have hmore : (newPages.toNat : Int) > b.page := by omega
    have hsize : ((newPages.toNat : Int) - b.page).toNat = newPages.toNat - n := by omega
    rw [if_pos hgrow, if_pos hmore, hsize]
    exact alloc_refines hsys hinv ctx (by omega)
  · have hmore : ¬ (newPages.toNat : Int) > b.page := by omega
    rw [if_neg hgrow, if_neg hmore]
    by_cases hshrink : newPages.toNat < n
    · have hless : (newPages.toNat : Int) < b.page := by omega
      have hsize : (b.page - (newPages.toNat : Int)).toNat = n - newPages.toNat := by omega
      rw [if_pos hshrink, if_pos hless, hsize]
      exact free_refines hsys hinv ctx _
    · have hless : ¬ (newPages.toNat : Int) < b.page := by omega
      rw [if_neg hshrink, if_neg hless]
      rfl

theorem resetNone_refines (ctx : ExecutionContextBase) :
    Refines ctx (resetNone sys a) (.ok (ExecutionContextBase.resetNoPages
      { ctx with page := a.page, memory := fun i => a.bytes (a.raw + i) })) := by
  unfold ExecutionContextBase.resetNoPages
  by_cases hpage : 0 ≤ a.page
  · rw [resetNone_defined hsys h hpage, if_pos hpage, ← zero_memory h]
    rfl
  · rw [resetNone, if_neg hpage, if_neg hpage]
    rfl

end Calls

section Runs

variable {sys : System} (hsys : sys.Lawful)

include hsys

theorem construct_spec : ∃ a, construct sys = (a, none) ∧ Inv sys a := by
  have hmprotect :=
    hsys.mprotect_pages (fun _ => .none) sys.mapped sys.tableSize .readWrite hsys.mapped_dvd
    (Nat.dvd_refl _) (Nat.le_refl _) (by simp only [System.reserved, System.prefixSize]; omega)
  refine ⟨⟨sys.mapped + sys.prefixSize, -1,
    setProt (fun _ => .none) sys.mapped sys.tableSize .readWrite, fun _ => 0⟩, ?_, rfl,
      Int.le_refl _,
    by simp [maxPagesLimit], ?_⟩
  · simp only [construct, protect, hmprotect, Outcome.next, if_true]
  · intro i hi
    refine (if_neg ?_).trans (if_neg (Nat.not_lt_zero i)).symm
    simp only [System.prefixSize]
    omega

/-- Bytes that come into reach are zero, and so is all of the memory after a reset. -/
def ZeroFilled (s : Lib.TraceStep WasmAllocator Event Outcome) : Prop :=
  ∀ i < maxMemory, Accessible s.outcome.1 i →
    (∃ n, s.event = .reset n) ∨ s.event = .resetNone ∨ ¬ Accessible s.before i →
    s.outcome.1.bytes (s.outcome.1.raw + i) = 0

omit hsys in
theorem Inv.accessible_iff {a : WasmAllocator} (h : Inv sys a) {i : Nat} (hi : i < maxMemory) :
    Accessible a i ↔ i < pageSize * a.page.toNat := by
  rw [Accessible, h.prot i (Nat.lt_add_right _ hi)]
  split <;> simp_all

theorem step_spec {event : Event} {a : WasmAllocator} {o : Outcome} (h : Inv sys a)
    (hstep : step sys event a = some o) : Inv sys o.1 ∧ ZeroFilled ⟨a, event, o⟩ := by
  cases event with
  | alloc size =>
    obtain rfl := Option.some.inj hstep
    obtain ⟨hinv, -, hnew⟩ := alloc_spec hsys h size.isLt
    refine ⟨hinv, fun i hi hafter hevent => ?_⟩
    rw [hinv.accessible_iff hi] at hafter
    rcases hevent with ⟨n, hn⟩ | hn | hbefore
    · cases hn
    · cases hn
    · rw [h.accessible_iff hi] at hbefore
      rw [hinv.raw, ← h.raw]
      exact hnew i (Nat.not_lt.mp hbefore) hafter
  | free size =>
    obtain rfl := Option.some.inj hstep
    obtain ⟨hinv, -, hle⟩ := free_spec hsys h size.toNat
    refine ⟨hinv, fun i hi hafter hevent => ?_⟩
    rw [hinv.accessible_iff hi] at hafter
    rcases hevent with ⟨n, hn⟩ | hn | hbefore
    · cases hn
    · cases hn
    · rw [h.accessible_iff hi] at hbefore
      have hpages := Nat.mul_le_mul_left pageSize (Int.toNat_le_toNat hle)
      exact absurd (Nat.lt_of_lt_of_le hafter hpages) hbefore
  | reset newPages =>
    obtain rfl := Option.some.inj hstep
    obtain ⟨hinv, hzero⟩ := reset_spec hsys h newPages
    refine ⟨hinv, fun i hi hafter _ => ?_⟩
    exact hzero i ((hinv.accessible_iff hi).mp hafter)
  | resetNone =>
    obtain rfl := Option.some.inj hstep
    obtain ⟨hinv, hpage⟩ := resetNone_spec hsys h
    refine ⟨hinv, fun i hi hafter _ => ?_⟩
    rw [hinv.accessible_iff hi, hpage] at hafter
    exact absurd hafter (Nat.not_lt_zero i)
  | store addr byte =>
    simp only [step, Option.ite_none_right_eq_some, Option.some.injEq] at hstep
    obtain ⟨-, rfl⟩ := hstep
    refine ⟨⟨h.raw, h.low, h.high, h.prot⟩, fun i hi hafter hevent => ?_⟩
    rcases hevent with ⟨n, hn⟩ | hn | hbefore
    · cases hn
    · cases hn
    · exact absurd hafter hbefore

/-- An access lies in the reservation. Each of its bytes is in the accessible part, or touching it
is a fault that leaves the execution. -/
structure Contained (sys : System) (a : WasmAllocator) (addr width : Nat) : Prop where
  above : sys.mapped ≤ addr
  below : addr + width ≤ sys.mapped + sys.reserved
  byte : ∀ x, addr ≤ x → x < addr + width →
    (a.prot x = .readWrite ∧ x < a.raw + pageSize * a.page.toNat) ∨
    (a.prot x = .none ∧ ∀ codeRange segv timedOut,
      signalHandler true codeRange (getSpan sys a) segv timedOut x = .jump)

omit hsys in
theorem alignAddress_bounds {shouldAlign : Bool} (addr : Nat) {alignAmt : Nat}
    (h : shouldAlign = true → alignAmt ≤ 4) :
    addr ≤ alignAddress shouldAlign addr alignAmt ∧
      alignAddress shouldAlign addr alignAmt < addr + 16 := by
  unfold alignAddress
  split
  next hshould =>
    have hpow : 2 ^ alignAmt ≤ 16 := Nat.pow_le_pow_right (by decide) (h hshould)
    have hpos := Nat.two_pow_pos alignAmt
    have hdiv := Nat.div_add_mod (addr + 2 ^ alignAmt - 1) (2 ^ alignAmt)
    have hlt := Nat.mod_lt (addr + 2 ^ alignAmt - 1) hpos
    rw [Nat.mul_comm] at hdiv
    omega
  next => omega

theorem contained {a : WasmAllocator} (h : Inv sys a) {shouldAlign : Bool} (offset ptr : BitVec 32)
    {flagsAlign width : Nat} (halign : shouldAlign = true → flagsAlign ≤ 4) (hwidth : width ≤ 16) :
    Contained sys a (popMemopAddr shouldAlign a.raw offset ptr flagsAlign) width := by
  have hraw := h.raw
  have hlarge := hsys.syspagesize_large
  have hoffset := offset.isLt
  have hptr := ptr.isLt
  obtain ⟨hlow, hhigh⟩ := alignAddress_bounds (a.raw + offset.toNat + ptr.toNat) halign
  have hmax : maxMemory = 2 ^ 33 := rfl
  have hprefix : sys.prefixSize = sys.syspagesize + sys.syspagesize := rfl
  have hsuffix : sys.suffixSize = sys.syspagesize := rfl
  unfold popMemopAddr
  refine ⟨by omega, by unfold System.reserved; omega, ?_⟩
  intro x hx hend
  obtain ⟨i, rfl⟩ : ∃ i, x = a.raw + i := ⟨x - a.raw, by omega⟩
  have hprot := h.prot i (by omega)
  split at hprot
  next hin => exact .inl ⟨hprot, Nat.add_lt_add_left hin _⟩
  next =>
    have hrange : inRange (getSpan sys a) (a.raw + i) = true := by
      rw [inRange, Bool.and_eq_true, decide_eq_true_eq, decide_eq_true_eq]
      dsimp only [getSpan]
      omega
    have hspan : ¬ (getSpan sys a).2 = 0 := by
      simp only [getSpan]
      omega
    refine .inr ⟨hprot, fun codeRange segv timedOut => ?_⟩
    rw [signalHandler, if_pos rfl, if_neg (fun hempty => hspan hempty.2), if_pos hrange]

end Runs

/-- Over every run of the allocator from its constructor on: the page count stays in range, the
accessible part of the memory is exactly its pages, bytes that come into reach are zero, and no
access can leave the reservation. The parser has checked the alignment of an instruction. The system
grants every `mprotect` of whole pages in the reservation; when it does not, `free` has lowered the
page count already, and the freed pages stay accessible behind it. -/
theorem wasm_allocator_run {sys : System} (hsys : sys.Lawful) :
    ∃ init, construct sys = (init, none) ∧
    ∀ steps a, Lib.Trace (step sys) Prod.fst init steps a →
      (-1 ≤ a.page ∧ a.page ≤ 65536) ∧
      (∀ i < maxMemory,
        a.prot (a.raw + i) = if i < 65536 * a.page.toNat then .readWrite else .none) ∧
      (∀ s ∈ steps, ZeroFilled s) ∧
      ∀ shouldAlign offset ptr flagsAlign width, (shouldAlign = true → flagsAlign ≤ 4) →
        width ≤ 16 →
        Contained sys a (popMemopAddr shouldAlign a.raw offset ptr flagsAlign) width := by
  obtain ⟨init, hinit, hinv⟩ := construct_spec hsys
  refine ⟨init, hinit, fun steps a hrun => ?_⟩
  have hlast : Inv sys a := hrun.invariant hinv fun _ _ _ h hstep => (step_spec hsys h hstep).1
  refine ⟨⟨hlast.low, hlast.high⟩, fun i hi => hlast.prot i (Nat.lt_add_right _ hi), ?_, ?_⟩
  · exact hrun.forall_of (A := fun _ => True) hinv (fun _ _ _ h hstep _ => step_spec hsys h hstep)
      fun _ _ => trivial
  · intro shouldAlign offset ptr flagsAlign width halign hwidth
    exact contained hsys hlast offset ptr halign hwidth

/-- A system with pages of 4096 bytes. -/
def pages4096 : System where
  syspagesize := 4096
  mapped := 0x7f0000000000
  mprotect prot addr len p :=
    if 4096 ∣ addr ∧ addr + len ≤ 2 ^ 64 then (setProt prot addr len p, true) else (prot, false)

theorem pages4096_lawful : pages4096.Lawful where
  syspagesize_dvd := ⟨16, rfl⟩
  syspagesize_large := by decide
  mapped_dvd := by decide
  mapped_fits := by decide
  mprotect_pages := by
    intro prot addr len p haddr _ _ hend
    have hfits : pages4096.mapped + pages4096.reserved ≤ 2 ^ 64 := by decide
    exact if_pos ⟨haddr, by omega⟩
  mprotect_invalid := by
    intro prot addr len p h
    exact if_neg (by omega)

/-- A page is written, freed and allocated again. -/
theorem freedPage_zeroed : ∃ steps a,
    Lib.runEvents (step pages4096) Prod.fst
      [.reset 1, .store (0x7f0000000000 + 8192) 7, .free 1, .alloc 1] (construct pages4096).1 =
      some (steps, a) ∧
    a.page = 1 ∧ ∀ s ∈ steps, ZeroFilled s := by
  obtain ⟨init, hinit, hruns⟩ := wasm_allocator_run pages4096_lawful
  have hrun : ((Lib.runEvents (step pages4096) Prod.fst
      [.reset 1, .store (0x7f0000000000 + 8192) 7, .free 1, .alloc 1] (construct pages4096).1).map
      (·.2.page)) = some 1 := by decide
  obtain ⟨⟨steps, a⟩, heq, hpage⟩ := Option.map_eq_some_iff.mp hrun
  rw [hinit] at heq
  refine ⟨steps, a, by rw [hinit]; exact heq, hpage, ?_⟩
  exact (hruns steps a (Lib.Trace.of_runEvents heq)).2.2.1

/-- A call, or a store of the program to the address that `pop_memop_addr` computes. -/
inductive Access where
  | alloc (size : BitVec 64)
  | free (size : BitVec 64)
  | reset (newPages : BitVec 32)
  | resetNone
  | store (offset ptr : BitVec 32) (byte : UInt8)

/-- The effect in the address space; an exception and the signal of a store are none. -/
def perform (sys : System) (a : WasmAllocator) (access : Access) : Option WasmAllocator :=
  let o :=
    match access with
    | .alloc size => step sys (.alloc size) a
    | .free size => step sys (.free size) a
    | .reset newPages => step sys (.reset newPages) a
    | .resetNone => step sys .resetNone a
    | .store offset ptr byte => step sys (.store (popMemopAddr false a.raw offset ptr 0) byte) a
  o.bind fun o => if o.2 = none then some o.1 else none

/-- The effect on the memory of the execution context. -/
def performContext (ctx : ExecutionContextBase) (access : Access) :
    Except VmError ExecutionContextBase :=
  match access with
  | .alloc size => ctx.allocPages size.toNat
  | .free size => ctx.freePages size.toNat
  | .reset newPages => ctx.resetPages newPages.toNat
  | .resetNone => pure ctx.resetNoPages
  | .store offset ptr byte =>
    let i := offset.toNat + ptr.toNat
    if i < pageSize * ctx.page.toNat then
      pure { ctx with memory := fun x => if x = i then byte else ctx.memory x }
    else throw (.wasmMemory "wasm memory out-of-bounds")

/-- The context whose memory is that of the allocator. -/
def view (ctx : ExecutionContextBase) (a : WasmAllocator) : ExecutionContextBase :=
  { ctx with page := a.page, memory := fun i => a.bytes (a.raw + i) }

/-- Both levels go on, and agree, or both stop. -/
def Agree (ctx : ExecutionContextBase) (r : Option WasmAllocator)
    (r' : Except VmError ExecutionContextBase) : Prop :=
  (∃ a, r = some a ∧ r' = .ok (view ctx a)) ∨ (r = none ∧ ∃ e, r' = .error e)

theorem Refines.agree {ctx : ExecutionContextBase} {o : Outcome}
    {r : Except VmError ExecutionContextBase}
    (h : Refines ctx o r) :
    Agree ctx ((some o).bind fun o => if o.2 = none then some o.1 else none) r := by
  obtain ⟨a, e⟩ := o
  cases e with
  | none => exact .inl ⟨a, rfl, h⟩
  | some e => exact .inr ⟨rfl, h⟩

theorem perform_agrees {sys : System} (hsys : sys.Lawful) {a : WasmAllocator} (h : Inv sys a)
    (ctx : ExecutionContextBase) (access : Access) :
    Agree ctx (perform sys a access) (performContext (view ctx a) access) := by
  cases access with
  | alloc size => exact (alloc_refines hsys h ctx size.isLt).agree
  | free size => exact (free_refines hsys h ctx size.toNat).agree
  | reset newPages => exact (reset_refines hsys h ctx newPages).agree
  | resetNone => exact (resetNone_refines hsys h ctx).agree
  | store offset ptr byte =>
    have hoffset := offset.isLt
    have hptr := ptr.isLt
    have haddr : popMemopAddr false a.raw offset ptr 0 = a.raw + (offset.toNat + ptr.toNat) := by
      rw [popMemopAddr, alignAddress, if_neg Bool.false_ne_true, Nat.add_assoc]
    have hmax : maxMemory = 2 ^ 33 := rfl
    have hprot := h.prot (offset.toNat + ptr.toNat) (by omega)
    by_cases hin : offset.toNat + ptr.toNat < pageSize * a.page.toNat
    · rw [if_pos hin] at hprot
      refine .inl ⟨{ a with
        bytes := fun x => if x = a.raw + (offset.toNat + ptr.toNat) then byte else a.bytes x }, ?_,
          ?_⟩
      · simp only [perform, step, haddr, if_pos hprot, Option.bind_some, if_true]
      · refine (if_pos hin).trans ?_
        simp only [view, Nat.add_left_cancel_iff]
        rfl
    · rw [if_neg hin] at hprot
      have hnot : ¬ a.prot (a.raw + (offset.toNat + ptr.toNat)) = .readWrite := by
        rw [hprot]; decide
      refine .inr ⟨?_, .wasmMemory "wasm memory out-of-bounds", ?_⟩
      · simp only [perform, step, haddr, if_neg hnot, Option.bind_none]
      · exact if_neg hin

theorem perform_inv {sys : System} (hsys : sys.Lawful) {a a' : WasmAllocator} (h : Inv sys a)
    {access : Access}
    (hperform : perform sys a access = some a') : Inv sys a' := by
  simp only [perform, Option.bind_eq_some_iff, Option.ite_none_right_eq_some,
    Option.some.injEq] at hperform
  obtain ⟨o, hstep, -, rfl⟩ := hperform
  cases access <;> exact (step_spec hsys h hstep).1

theorem construct_view {sys : System} {init : WasmAllocator} (h : construct sys = (init, none))
    (ctx : ExecutionContextBase) :
    view ctx init = { ctx with page := -1, memory := fun _ => 0 } := by
  simp only [construct, protect, Outcome.next] at h
  split at h
  · obtain rfl := (Prod.mk.inj h).1
    rfl
  · cases (Prod.mk.inj h).2

/-- Over every sequence of calls and stores, up to the first exception or signal, the address space
holds the memory that the execution context describes: both levels stop at the same access, and
until then the page counts and all bytes agree and a byte can be touched if and only if it lies in
the pages. As in `wasm_allocator_run`, the system grants every `mprotect` of whole pages in the
reservation. -/
theorem memory_refines {sys : System} (hsys : sys.Lawful) (ctx : ExecutionContextBase) :
    ∃ init, construct sys = (init, none) ∧ ∀ accesses : List Access,
      Agree ctx (accesses.foldlM (perform sys) init)
        (accesses.foldlM performContext { ctx with page := -1, memory := fun _ => 0 }) ∧
      ∀ a, accesses.foldlM (perform sys) init = some a → ∀ i < maxMemory,
        (a.prot (a.raw + i) = .readWrite ↔ i < pageSize * (view ctx a).page.toNat) := by
  obtain ⟨init, hinit, hinv⟩ := construct_spec hsys
  refine ⟨init, hinit, ?_⟩
  rw [← construct_view hinit]
  clear hinit
  intro accesses
  induction accesses generalizing init with
  | nil =>
    refine ⟨.inl ⟨init, rfl, rfl⟩, fun a ha i hi => ?_⟩
    obtain rfl := Option.some.inj ha
    rw [hinv.prot i (Nat.lt_add_right _ hi)]
    split <;> simp_all [view]
  | cons access accesses ih =>
    rw [List.foldlM_cons, List.foldlM_cons]
    rcases perform_agrees hsys hinv ctx access with
      ⟨a, hperform, hcontext⟩ | ⟨hperform, e, hcontext⟩
    · rw [hperform, hcontext]
      exact ih a (perform_inv hsys hinv hperform)
    · rw [hperform, hcontext]
      exact ⟨.inr ⟨rfl, e, rfl⟩, fun a ha => by cases ha⟩

theorem pages4096_refines : ∃ init, construct pages4096 = (init, none) ∧
    Agree {} ([Access.reset 1, .store 8 4 7, .free 1, .store 8 4 7].foldlM (perform pages4096) init)
      ([Access.reset 1, .store 8 4 7, .free 1, .store 8 4 7].foldlM performContext {}) := by
  obtain ⟨init, hinit, hruns⟩ := memory_refines pages4096_lawful {}
  exact ⟨init, hinit, (hruns _).1⟩

end WasmAllocator

end EosVm
