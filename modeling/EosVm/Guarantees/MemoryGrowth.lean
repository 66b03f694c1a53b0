import EosVm.Guarantees.Noninterference
import EosVm.Invariants.ModuleState
import EosVm.Source.BitcodeWriter
import EosVm.Source.InterpretVisitor
import EosVm.Source.JitMemory

/-!
# Growing the memory

`grow_linear_memory` takes its operand as signed and frees pages for a negative one. An operand from
`2 ^ 31` on is therefore refused only while the memory is smaller than the pages to be freed, that
is, while the page count and the operand together stay below `2 ^ 32`. The pages up to the host's
limit are counted without a sign: a limit that `set_max_pages` has put below the page count of a
running module refuses nothing.
-/

set_option autoImplicit false

namespace EosVm

open Lib

namespace ExecutionContextBase

variable {mod : Module} {memory : MemoryType} {ctx ctx' : ExecutionContextBase}

/-- A page count that the module, the host and the address space allow. -/
structure WithinLimits (memory : MemoryType) (ctx : ExecutionContextBase) (pages : Int) :
    Prop where
  host : pages ≤ ctx.maxPages
  addressable : pages ≤ 65536
  declared : memory.limits.flags = true → pages ≤ memory.limits.maximum

/-- `n` pages of zeros are added and nothing else changes. -/
structure Grown (ctx : ExecutionContextBase) (n : Nat) (ctx' : ExecutionContextBase) : Prop where
  page : ctx'.page = ctx.page + n
  old : ∀ a < ctx.page.toNat * pageSize, ctx'.memory a = ctx.memory a
  new : ∀ a, ctx.page.toNat * pageSize ≤ a → a < ctx'.page.toNat * pageSize → ctx'.memory a = 0
  rest : ctx' = { ctx with page := ctx'.page, memory := ctx'.memory }

/-- Result and context of `memory.grow n`: the old page count when the limits allow the new one,
`-1` otherwise. -/
def GrowResult (memory : MemoryType) (n : BitVec 32) (ctx : ExecutionContextBase)
    (result : BitVec 32) (ctx' : ExecutionContextBase) : Prop :=
  (WithinLimits memory ctx (ctx.page + n.toNat) ∧ result = BitVec.ofInt 32 ctx.page ∧
    Grown ctx n.toNat ctx') ∨
  (¬ WithinLimits memory ctx (ctx.page + n.toNat) ∧ result = -1#32 ∧ ctx' = ctx)

/-- Both backends grow the memory by the operand. -/
structure GrowsCorrectly (mod : Module) (memory : MemoryType) (n : BitVec 32)
    (ctx : ExecutionContextBase) : Prop where
  interpreter : ∀ pc os, ∃ result ctx',
    growMemory mod ⟨pc, .i32 n :: os, ctx⟩ = .ok ⟨pc + 1, .i32 result :: os, ctx'⟩ ∧
      GrowResult memory n ctx result ctx'
  jit : ∀ (upper high : BitVec 32) (stack : List (BitVec 64)), ∃ result ctx',
    jitGrowMemory mod upper ((high ++ n) :: stack) ctx = .ok ((upper ++ result) :: stack, ctx') ∧
      GrowResult memory n ctx result ctx'

/-- The code takes a step, or the host sets the page limit, which it may do at any time. -/
def RunStep (mod : Module) (ctx ctx' : ExecutionContextBase) : Prop :=
  Step mod ctx ctx' ∨ ∃ maxPages, ctx' = ctx.setMaxPages maxPages

/-- What the code of an instantiated module and its host can bring a context to. -/
def Running (mod : Module) (ctx : ExecutionContextBase) : Prop :=
  ∃ fresh ready : ExecutionContextBase, History mod fresh ∧ fresh.reset mod = .ok ready ∧
    Relation.ReflTransGen (RunStep mod) ready ctx

/-- There is a memory that the address space has room for. -/
structure PagesFit (ctx : ExecutionContextBase) : Prop where
  defined : 0 ≤ ctx.page
  addressable : ctx.page ≤ 65536
  host : ctx.maxPages ≤ 65536

/-- `reset` gives the memory its initial pages, which the host's limit allows. -/
theorem reset_pages (h : reset mod ctx = .ok ctx') :
    ctx'.page = initialPages mod ∧ ctx'.maxPages = ctx.maxPages ∧
      ∀ memory ∈ mod.memories.head?, memory.limits.initial ≤ ctx.maxPages := by
  simp only [reset, bind_eq_ok] at h
  obtain ⟨c₁, hmemory, c₂, hdata, htable⟩ := h
  have hpage₁ := (resetMemory_zero hmemory).2
  have hlimit : ∀ memory ∈ mod.memories.head?, memory.limits.initial ≤ ctx.maxPages := by
    intro memory hhead
    unfold resetMemory at hmemory
    split at hmemory
    next first rest hsome =>
      simp only [hsome, List.head?_cons, Option.mem_def, Option.some.injEq] at hhead
      simp only [bind_eq_ok, vmAssert_eq_ok, exists_const, decide_eq_true_eq] at hmemory
      exact hhead ▸ hmemory.1
    next hnone => simp [hnone] at hhead
  obtain ⟨page, bytes, rfl⟩ := resetMemory_frame hmemory
  have hkept : c₂.page = page ∧ c₂.maxPages = ctx.maxPages := by
    refine resetSegments_rel hdata hdata
      (R := fun c _ => c.page = page ∧ c.maxPages = ctx.maxPages) ⟨rfl, rfl⟩ ?_
    rintro i segment c - c' - hc hstep -
    obtain ⟨memory', flags', rfl⟩ := resetDataSegment_frame hstep
    exact hc
  obtain ⟨table, flags, alt, rfl⟩ := resetTable_frame htable
  exact ⟨hkept.1.trans hpage₁, hkept.2, hlimit⟩

theorem History.maxPages_le (h : History mod ctx) : ctx.maxPages ≤ 65536 := by
  induction h with
  | fresh mod => exact Nat.le_refl _
  | setMaxPages h maxPages ih => exact Nat.min_le_right _ _
  | setModule h mod' ih => exact ih
  | reset h hreset ih =>
    rw [(reset_pages hreset).2.1]
    exact ih
  | run h hrun ih =>
    rw [hrun.maxPages]
    exact ih

theorem PagesFit.of_reset {memory : MemoryType} (hformed : memory.Formed)
    (hmemory : mod.memories.head? = some memory) (hhistory : History mod ctx)
    (h : reset mod ctx = .ok ctx') : PagesFit ctx' := by
  obtain ⟨hpage, hmax, hinitial⟩ := reset_pages h
  have hhost := hinitial memory hmemory
  have hle := hhistory.maxPages_le
  have hpages : initialPages mod = memory.limits.initial := by
    obtain ⟨rest, hcons⟩ := List.head?_eq_some_iff.mp hmemory
    simp [initialPages, hcons]
  rw [hpages] at hpage
  have haddr := hformed.initial
  exact ⟨by omega, by omega, by omega⟩

theorem allocPages_grown {n : Nat} (hpage : 0 ≤ ctx.page) (hfit : ctx.page + n ≤ 65536) :
    ∃ ctx', ctx.allocPages n = .ok ctx' ∧ Grown ctx n ctx' := by
  unfold allocPages
  by_cases hsize : n = 0
  · rw [if_pos hsize, hsize]
    refine ⟨ctx, rfl, ⟨(Int.add_zero _).symm, fun _ _ => rfl, ?_, rfl⟩⟩
    intro a hlow hhigh
    exact absurd hhigh (Nat.not_lt.mpr hlow)
  · rw [if_neg hsize]
    have hassert : (n : Int) + ctx.page ≤ maxPagesLimit := by
      change (n : Int) + ctx.page ≤ (65536 : Nat)
      omega
    simp only [hpage, hassert, decide_true, vmAssert, if_true, ok_bind]
    have hsum : (ctx.page + n).toNat = ctx.page.toNat + n := by omega
    refine ⟨_, rfl, ⟨rfl, ?_, ?_, rfl⟩⟩
    · intro a ha
      simp only [zeroPages]
      rw [if_neg (by omega)]
    · intro a hlow hhigh
      simp only [hsum] at hhigh
      simp only [zeroPages]
      rw [if_pos ⟨hlow, hhigh⟩]

/-- The two readings of an operand. -/
theorem toInt_operand (n : BitVec 32) :
    (n.toNat < 2 ^ 31 ∧ n.toInt = n.toNat) ∨
    (2 ^ 31 ≤ n.toNat ∧ n.toInt = (n.toNat : Int) - 2 ^ 32) := by
  have hlt := n.isLt
  rw [BitVec.toInt_eq_toNat_cond]
  split
  · omega
  · omega

/-- What `grow_linear_memory` refuses: an operand that it takes for negative, pages above the
host's limit if that is not below the page count already, and pages above the declared maximum. -/
def Refuses (memory : MemoryType) (n : BitVec 32) (ctx : ExecutionContextBase) : Prop :=
  2 ^ 31 ≤ n.toNat ∨ (ctx.page ≤ ctx.maxPages ∧ (ctx.maxPages : Int) < ctx.page + n.toNat) ∨
    (memory.limits.flags = true ∧ (memory.limits.maximum : Int) < ctx.page + n.toNat)

theorem not_within_of_refuses {memory : MemoryType} (hfit : PagesFit ctx) {n : BitVec 32}
    (h : Refuses memory n ctx) : ¬ WithinLimits memory ctx (ctx.page + n.toNat) := by
  have hpage := hfit.defined
  rintro ⟨hhost, haddressable, hdeclared⟩
  rcases h with hbig | ⟨-, hmax⟩ | ⟨hflags, hmax⟩
  · omega
  · omega
  · have hle := hdeclared hflags
    omega

/-- The test for an operand that is not negative. -/
theorem room_lt_iff (hfit : PagesFit ctx) {n : BitVec 32} (hsmall : n.toNat < 2 ^ 31) :
    ((ctx.maxPages : Int) - ctx.page) % 2 ^ 32 < n.toNat ↔
      ctx.page ≤ ctx.maxPages ∧ (ctx.maxPages : Int) < ctx.page + n.toNat := by
  obtain ⟨hpage, haddressable, hhost⟩ := hfit
  by_cases hle : ctx.page ≤ ctx.maxPages
  · rw [Int.emod_eq_of_lt (by omega) (by omega)]
    constructor <;> omega
  · -- the difference wraps to more than any operand
    refine iff_of_false ?_ (fun h => hle h.1)
    omega

/-- What one call does: it frees pages when the page count overflows, and otherwise refuses, adds
the pages, or throws where the address space has no room for what the limits did not refuse. -/
theorem growLinearMemory_cases {memory : MemoryType} (hfit : PagesFit ctx)
    (hmemory : mod.memories.head? = some memory) (n : BitVec 32) :
    (2 ^ 32 ≤ ctx.page + n.toNat ∧ growLinearMemory mod n ctx =
      .ok (BitVec.ofInt 32 ctx.page, { ctx with page := ctx.page + n.toNat - 2 ^ 32 })) ∨
    (ctx.page + n.toNat < 2 ^ 32 ∧ Refuses memory n ctx ∧
      growLinearMemory mod n ctx = .ok (-1#32, ctx)) ∨
    (ctx.page + n.toNat < 2 ^ 32 ∧ ¬ Refuses memory n ctx ∧ ctx.page + n.toNat ≤ 65536 ∧
      ∃ ctx', growLinearMemory mod n ctx = .ok (BitVec.ofInt 32 ctx.page, ctx') ∧
        Grown ctx n.toNat ctx') ∨
    (¬ Refuses memory n ctx ∧ 65536 < ctx.page + n.toNat ∧
      ∃ e, growLinearMemory mod n ctx = .error e) := by
  have hpage := hfit.defined
  have haddressable := hfit.addressable
  have hlt := n.isLt
  rcases toInt_operand n with ⟨hsmall, hint⟩ | ⟨hbig, hint⟩
  · obtain ⟨rest, hcons⟩ := List.head?_eq_some_iff.mp hmemory
    have hpos : ¬ n.toInt < 0 := by omega
    have hrefuses : ((ctx.maxPages - ctx.page) % 2 ^ 32 < n.toNat ∨
        (memory.limits.flags = true ∧ (memory.limits.maximum : Int) - ctx.page < n.toInt)) ↔
        Refuses memory n ctx := by
      rw [room_lt_iff hfit hsmall, hint, sub_lt_iff_lt_add']
      exact (or_iff_right (Nat.not_le.mpr hsmall)).symm
    simp only [growLinearMemory, if_neg hpos, hcons]
    by_cases hrefused : Refuses memory n ctx
    · rw [if_pos (hrefuses.mpr hrefused)]
      exact .inr (.inl ⟨by omega, hrefused, rfl⟩)
    · rw [if_neg (fun h => hrefused (hrefuses.mp h))]
      by_cases hroom : ctx.page + n.toNat ≤ 65536
      · obtain ⟨ctx', halloc, hgrown⟩ := allocPages_grown hpage hroom
        rw [halloc]
        exact .inr (.inr (.inl ⟨by omega, hrefused, hroom, ctx', rfl, hgrown⟩))
      · have hthrows : ∃ e, ctx.allocPages n.toNat = .error e := by
          have hassert : ¬ (n.toNat : Int) + ctx.page ≤ maxPagesLimit := by
            change ¬ (n.toNat : Int) + ctx.page ≤ (65536 : Nat)
            omega
          unfold allocPages
          rw [if_neg (by omega)]
          simp only [hpage, hassert, decide_true, decide_false, vmAssert, if_true, ok_bind]
          exact ⟨_, rfl⟩
        obtain ⟨e, hthrows⟩ := hthrows
        rw [hthrows]
        exact .inr (.inr (.inr ⟨hrefused, by omega, e, rfl⟩))
  · simp only [growLinearMemory]
    rw [if_pos (by omega)]
    by_cases hover : 2 ^ 32 ≤ ctx.page + n.toNat
    · have hle : ((-n.toInt).toNat : Int) ≤ ctx.page := by omega
      have hfreed : ctx.page - ((-n.toInt).toNat : Int) = ctx.page + n.toNat - 2 ^ 32 := by omega
      unfold freePages
      rw [if_neg (by omega), if_neg (by omega)]
      simp only [hpage, hle, decide_true, vmAssert, if_true, ok_bind]
      rw [hfreed]
      exact .inl ⟨hover, rfl⟩
    · rw [if_pos (by omega)]
      exact .inr (.inl ⟨by omega, .inl hbig, rfl⟩)

/-- Neither the operand overflows the page count nor the host's limit is below it, unless that
makes no difference because the operand is refused for another reason. -/
def GrowsInRange (memory : MemoryType) (n : BitVec 32) (ctx : ExecutionContextBase) : Prop :=
  ctx.page + n.toNat < 2 ^ 32 ∧
    (ctx.page ≤ ctx.maxPages ∨ 2 ^ 31 ≤ n.toNat ∨
      (memory.limits.flags = true ∧ (memory.limits.maximum : Int) < ctx.page + n.toNat))

theorem ofInt_page_ne (hfit : PagesFit ctx) : BitVec.ofInt 32 ctx.page ≠ -1#32 := by
  have hpage := hfit.defined
  have haddressable := hfit.addressable
  intro heq
  have hnat := congrArg BitVec.toNat heq
  rw [BitVec.toNat_ofInt] at hnat
  change ((ctx.page % (2 ^ 32 : Nat)).toNat = 2 ^ 32 - 1) at hnat
  omega

/-- `grow_linear_memory` is correct exactly in range. -/
theorem growLinearMemory_correct_iff {memory : MemoryType} (hfit : PagesFit ctx)
    (hmemory : mod.memories.head? = some memory) (n : BitVec 32) :
    (∃ result ctx', growLinearMemory mod n ctx = .ok (result, ctx') ∧
      GrowResult memory n ctx result ctx') ↔ GrowsInRange memory n ctx := by
  have hpage := hfit.defined
  have haddressable := hfit.addressable
  have hne := ofInt_page_ne hfit
  rcases growLinearMemory_cases hfit hmemory n with
    ⟨hover, heq⟩ | ⟨hn, hrefused, heq⟩ | ⟨hn, hrefused, hroom, grown, heq, hgrown⟩ |
      ⟨hrefused, hroom, e, heq⟩
  · refine iff_of_false ?_ (fun hrange => absurd hrange.1 (by omega))
    rintro ⟨result, ctx', hgrow, hresult⟩
    obtain ⟨rfl, rfl⟩ := Prod.mk.inj (Except.ok.inj (heq.symm.trans hgrow))
    rcases hresult with ⟨hwithin, -, -⟩ | ⟨-, hminus, -⟩
    · have hle := hwithin.addressable
      omega
    · exact hne hminus
  · refine iff_of_true
      ⟨_, _, heq, .inr ⟨not_within_of_refuses hfit hrefused, rfl, rfl⟩⟩ ⟨hn, ?_⟩
    rcases hrefused with hbig | ⟨hle, -⟩ | hdeclared
    · exact .inr (.inl hbig)
    · exact .inl hle
    · exact .inr (.inr hdeclared)
  · -- what is neither refused nor above the host's limit is within all limits
    constructor
    · rintro ⟨result, ctx', hgrow, hresult⟩
      obtain ⟨rfl, rfl⟩ := Prod.mk.inj (Except.ok.inj (heq.symm.trans hgrow))
      rcases hresult with ⟨hwithin, -, -⟩ | ⟨-, hminus, -⟩
      · have hle := hwithin.host
        exact ⟨hn, .inl (by omega)⟩
      · exact absurd hminus hne
    · rintro ⟨-, hlimit⟩
      refine ⟨_, _, heq, .inl ⟨⟨?_, hroom, ?_⟩, rfl, hgrown⟩⟩
      · rcases hlimit with hle | hother
        · by_contra hmax
          exact hrefused (.inr (.inl ⟨hle, by omega⟩))
        · exact absurd (hother.imp_right .inr) hrefused
      · intro hflags
        by_contra hmax
        exact hrefused (.inr (.inr ⟨hflags, by omega⟩))
  · refine iff_of_false ?_ ?_
    · rintro ⟨result, ctx', hgrow, -⟩
      rw [heq] at hgrow
      cases hgrow
    · rintro ⟨-, hle | hother⟩
      · have hhost := hfit.host
        exact hrefused (.inr (.inl ⟨hle, by omega⟩))
      · exact hrefused (hother.imp_right .inr)

theorem growMemory_eq (mod : Module) (n : BitVec 32) (pc : Nat) (os : List OperandStackElem)
    (ctx : ExecutionContextBase) {result : BitVec 32} :
    growMemory mod ⟨pc, .i32 n :: os, ctx⟩ = .ok ⟨pc + 1, .i32 result :: os, ctx'⟩ ↔
      growLinearMemory mod n ctx = .ok (result, ctx') := by
  simp only [growMemory, InterpretState.check]
  cases growLinearMemory mod n ctx with
  | error e => simp [Except.mapError]
  | ok out => simp [Except.mapError, Prod.ext_iff]

theorem jitGrowMemory_eq (mod : Module) (n upper high : BitVec 32) (stack : List (BitVec 64))
    (ctx : ExecutionContextBase) {result : BitVec 32} :
    jitGrowMemory mod upper ((high ++ n) :: stack) ctx = .ok ((upper ++ result) :: stack, ctx') ↔
      growLinearMemory mod n ctx = .ok (result, ctx') := by
  simp only [jitGrowMemory, BitVec.setWidth_append_eq_right]
  cases growLinearMemory mod n ctx with
  | error e => simp
  | ok out =>
    simp only [ok_bind, pure_eq_ok, List.cons.injEq, and_true, Except.ok.injEq,
      Prod.ext_iff]
    exact and_congr_left fun _ => BitVec.append_right_inj upper

/-- A call of `grow_linear_memory` keeps the page count within the address space, whatever its
operand, and lowers it only when it overflows. -/
theorem PagesFit.grow {memory : MemoryType} {n result : BitVec 32} (hfit : PagesFit ctx)
    (hmemory : mod.memories.head? = some memory)
    (h : growLinearMemory mod n ctx = .ok (result, ctx')) :
    PagesFit ctx' ∧ (ctx.page + n.toNat < 2 ^ 32 → ctx.page ≤ ctx'.page) := by
  have hpage := hfit.defined
  have haddressable := hfit.addressable
  have hlt := n.isLt
  rcases growLinearMemory_cases hfit hmemory n with
    ⟨hover, heq⟩ | ⟨-, -, heq⟩ | ⟨-, -, hroom, grown, heq, hgrown⟩ | ⟨-, -, e, heq⟩
  · obtain ⟨rfl, rfl⟩ := Prod.mk.inj (Except.ok.inj (heq.symm.trans h))
    refine ⟨⟨?_, ?_, hfit.host⟩, fun hn => absurd hn (by omega)⟩
    · dsimp only
      omega
    · dsimp only
      omega
  · obtain ⟨rfl, rfl⟩ := Prod.mk.inj (Except.ok.inj (heq.symm.trans h))
    exact ⟨hfit, fun _ => Int.le_refl _⟩
  · obtain ⟨rfl, rfl⟩ := Prod.mk.inj (Except.ok.inj (heq.symm.trans h))
    have hmax : grown.maxPages = ctx.maxPages := by rw [hgrown.rest]
    have hsum := hgrown.page
    exact ⟨⟨by omega, by omega, hmax ▸ hfit.host⟩, fun _ => by omega⟩
  · rw [heq] at h
    cases h

/-- Every step other than a growth leaves the page count alone. -/
theorem step_page (h : Step mod ctx ctx') :
    (∃ n result, growLinearMemory mod n ctx = .ok (result, ctx')) ∨
      (ctx'.page = ctx.page ∧ ctx'.maxPages = ctx.maxPages) := by
  cases h with
  | storeBytes ptr len value h =>
    simp only [ExecutionContextBase.storeBytes, bind_eq_ok, pure_eq_ok] at h
    obtain ⟨_, -, rfl⟩ := h
    exact Or.inr ⟨rfl, rfl⟩
  | growLinearMemory pages result h => exact Or.inl ⟨pages, result, h⟩
  | setGlobal index value => exact Or.inr ⟨rfl, rfl⟩
  | initLinearMemory x d s n h =>
    simp only [ExecutionContextBase.initLinearMemory, bind_eq_ok, pure_eq_ok] at h
    obtain ⟨_, -, _, -, _, -, _, -, rfl⟩ := h
    exact Or.inr ⟨rfl, rfl⟩
  | dropData x h =>
    simp only [ExecutionContextBase.dropData, bind_eq_ok, pure_eq_ok] at h
    obtain ⟨_, -, _, -, rfl⟩ := h
    exact Or.inr ⟨rfl, rfl⟩
  | initTable x d s n h =>
    simp only [ExecutionContextBase.initTable, bind_eq_ok, pure_eq_ok] at h
    obtain ⟨_, -, _, -, _, -, _, -, _, -, rfl⟩ := h
    exact Or.inr ⟨rfl, rfl⟩
  | dropElem x h =>
    simp only [ExecutionContextBase.dropElem, bind_eq_ok, pure_eq_ok] at h
    obtain ⟨_, -, _, -, rfl⟩ := h
    exact Or.inr ⟨rfl, rfl⟩
  | copyEntry dst src h =>
    simp only [ExecutionContextBase.copyEntry, bind_eq_ok, pure_eq_ok] at h
    obtain ⟨_, -, _, -, rfl⟩ := h
    exact Or.inr ⟨rfl, rfl⟩

theorem PagesFit.step {memory : MemoryType} (hfit : PagesFit ctx)
    (hmemory : mod.memories.head? = some memory) (h : RunStep mod ctx ctx') : PagesFit ctx' := by
  rcases h with h | ⟨maxPages, rfl⟩
  · rcases step_page h with ⟨n, result, hgrow⟩ | ⟨hpage, hmax⟩
    · exact (hfit.grow hmemory hgrow).1
    · exact ⟨hpage ▸ hfit.defined, hpage ▸ hfit.addressable, hmax ▸ hfit.host⟩
  · exact ⟨hfit.defined, hfit.addressable, Nat.min_le_right _ _⟩

theorem Running.pagesFit {memory : MemoryType} (hformed : memory.Formed)
    (hmemory : mod.memories.head? = some memory) (h : Running mod ctx) : PagesFit ctx := by
  obtain ⟨fresh, ready, hhistory, hreset, hreach⟩ := h
  induction hreach with
  | refl => exact PagesFit.of_reset hformed hmemory hhistory hreset
  | tail _ hstep ih => exact ih.step hmemory hstep

/-- A step that does not grow the memory by an operand with which the page count overflows. -/
def StepInRange (mod : Module) (ctx ctx' : ExecutionContextBase) : Prop :=
  RunStep mod ctx ctx' ∧
    ∀ n result, growLinearMemory mod n ctx = .ok (result, ctx') → ctx.page + n.toNat < 2 ^ 32

theorem StepInRange.page_le {memory : MemoryType} (hfit : PagesFit ctx)
    (hmemory : mod.memories.head? = some memory) (h : StepInRange mod ctx ctx') :
    ctx.page ≤ ctx'.page := by
  rcases h.1 with hstep | ⟨maxPages, rfl⟩
  · rcases step_page hstep with ⟨n, result, hgrow⟩ | ⟨hpage, -⟩
    · exact (hfit.grow hmemory hgrow).2 (h.2 n result hgrow)
    · omega
  · exact Int.le_refl _

theorem page_le_of_runInRange {memory : MemoryType} (hfit : PagesFit ctx)
    (hmemory : mod.memories.head? = some memory)
    (h : Relation.ReflTransGen (StepInRange mod) ctx ctx') :
    PagesFit ctx' ∧ ctx.page ≤ ctx'.page := by
  induction h with
  | refl => exact ⟨hfit, Int.le_refl _⟩
  | tail _ hstep ih =>
    exact ⟨ih.1.step hmemory hstep.1, Int.le_trans ih.2 (hstep.page_le ih.1 hmemory)⟩

end ExecutionContextBase

open ExecutionContextBase

/-- In every context that the code of an accepted module with a memory and its host can reach,
`memory.grow` does what it is for exactly when the operand does not overflow the page count and the
host's limit is not below the page count (or the operand is refused for another reason), and in runs
in which no operand overflows the page count the memory never shrinks. -/
theorem memory_grow_correct_iff {W : CodeWriter} {o : Options} {bytes : List UInt8}
    {st : ParserState W} {memory : MemoryType} (h : parseModule W o bytes = .ok st)
    (hmemory : st.mod.memories.head? = some memory) :
    (∀ ctx, Running st.mod ctx → ∀ n : BitVec 32,
      GrowsCorrectly st.mod memory n ctx ↔ GrowsInRange memory n ctx) ∧
    ∀ ctx ctx', Running st.mod ctx → Relation.ReflTransGen (StepInRange st.mod) ctx ctx' →
      ctx.page ≤ ctx'.page := by
  have hformed := parseModule_memories h memory (List.mem_of_mem_head? hmemory)
  refine ⟨?_, ?_⟩
  · intro ctx hrunning n
    have hcorrect := growLinearMemory_correct_iff (hrunning.pagesFit hformed hmemory) hmemory n
    constructor
    · intro hgrows
      obtain ⟨result, ctx', hgrow, hresult⟩ := hgrows.interpreter 0 []
      exact hcorrect.mp ⟨result, ctx', (growMemory_eq ..).mp hgrow, hresult⟩
    · intro hn
      obtain ⟨result, ctx', hgrow, hresult⟩ := hcorrect.mpr hn
      refine ⟨?_, ?_⟩
      · intro pc os
        exact ⟨result, ctx', (growMemory_eq ..).mpr hgrow, hresult⟩
      · intro upper high stack
        exact ⟨result, ctx', (jitGrowMemory_eq ..).mpr hgrow, hresult⟩
  · intro ctx ctx' hrunning hrun
    exact (page_le_of_runInRange (hrunning.pagesFit hformed hmemory) hmemory hrun).2

/-- A module with one page of memory and nothing else. -/
def onePageSample : List UInt8 :=
  [0x00, 0x61, 0x73, 0x6d, 0x01, 0x00, 0x00, 0x00] ++ [0x05, 0x03, 0x01, 0x00, 0x01]

theorem onePageSample_parsed :
    (parseModule bitcodeWriter defaultOptions onePageSample).toOption.map (·.mod.memories) =
      some [⟨⟨false, 1, 0⟩⟩] := by
  decide +kernel

theorem onePageSample_memory_grow : ∃ (st : ParserState bitcodeWriter) (memory : MemoryType),
    parseModule bitcodeWriter defaultOptions onePageSample = .ok st ∧
    st.mod.memories.head? = some memory ∧
    (∀ ctx, Running st.mod ctx → ∀ n : BitVec 32,
      GrowsCorrectly st.mod memory n ctx ↔ GrowsInRange memory n ctx) ∧
    ∀ ctx ctx', Running st.mod ctx → Relation.ReflTransGen (StepInRange st.mod) ctx ctx' →
      ctx.page ≤ ctx'.page := by
  obtain ⟨st, hparse, hmemories⟩ := Option.map_eq_some_iff.mp onePageSample_parsed
  have h := toOption_eq_some.mp hparse
  have hmemory : st.mod.memories.head? = some ⟨⟨false, 1, 0⟩⟩ := by rw [hmemories]; rfl
  exact ⟨st, _, h, hmemory, memory_grow_correct_iff h hmemory⟩

theorem onePageSample_ready : ∃ (st : ParserState bitcodeWriter) (ctx : ExecutionContextBase),
    parseModule bitcodeWriter defaultOptions onePageSample = .ok st ∧
    st.mod.memories.head? = some ⟨⟨false, 1, 0⟩⟩ ∧ Running st.mod ctx ∧ ctx.page = 1 ∧
    PagesFit ctx := by
  obtain ⟨st, hparse, hmemories⟩ := Option.map_eq_some_iff.mp onePageSample_parsed
  have h := toOption_eq_some.mp hparse
  have hmemory : st.mod.memories.head? = some ⟨⟨false, 1, 0⟩⟩ := by rw [hmemories]; rfl
  obtain ⟨ctx, hboth⟩ := exists_ok_of_isOk (show (do
      let st ← parseModule bitcodeWriter defaultOptions onePageSample
      ExecutionContextBase.reset st.mod {}).isOk = true by decide +kernel)
  obtain ⟨st', h', hreset⟩ := bind_eq_ok.mp hboth
  obtain rfl : st = st' := Except.ok.inj (h.symm.trans h')
  have hpage : ctx.page = 1 := by
    rw [(reset_pages hreset).1]
    simp [initialPages, hmemories]
  have hrunning : Running st.mod ctx :=
    ⟨{}, ctx, History.fresh st.mod, hreset, Relation.ReflTransGen.refl⟩
  have hformed := parseModule_memories h _ (List.mem_of_mem_head? hmemory)
  exact ⟨st, ctx, h, hmemory, hrunning, hpage, hrunning.pagesFit hformed hmemory⟩

/-- What `memory.grow` does is wrong where `grow_linear_memory` is out of range. -/
theorem not_growsCorrectly {mod : Module} {memory : MemoryType} {ctx : ExecutionContextBase}
    (hfit : PagesFit ctx) (hmemory : mod.memories.head? = some memory) {n : BitVec 32}
    (hrange : ¬ GrowsInRange memory n ctx) : ¬ GrowsCorrectly mod memory n ctx := by
  intro hgrows
  obtain ⟨result, ctx', hgrow, hresult⟩ := hgrows.interpreter 0 []
  exact hrange ((growLinearMemory_correct_iff hfit hmemory n).mp
    ⟨result, ctx', (growMemory_eq ..).mp hgrow, hresult⟩)

/-- `memory.grow 0xffffffff` of a freshly instantiated memory of one page frees that page. -/
theorem onePageSample_shrinks : ∃ (st : ParserState bitcodeWriter) (memory : MemoryType)
    (ctx : ExecutionContextBase),
    parseModule bitcodeWriter defaultOptions onePageSample = .ok st ∧
    st.mod.memories.head? = some memory ∧ Running st.mod ctx ∧
    growLinearMemory st.mod 0xffffffff#32 ctx = .ok (1#32, { ctx with page := 0 }) ∧
    ¬ GrowsCorrectly st.mod memory 0xffffffff#32 ctx := by
  obtain ⟨st, ctx, h, hmemory, hrunning, hpage, hfit⟩ := onePageSample_ready
  have hover : 2 ^ 32 ≤ ctx.page + ((0xffffffff#32).toNat : Int) := by
    rw [hpage]
    decide
  refine ⟨st, _, ctx, h, hmemory, hrunning, ?_,
    not_growsCorrectly hfit hmemory fun hrange => absurd hrange.1 (Int.not_lt.mpr hover)⟩
  rcases growLinearMemory_cases hfit hmemory 0xffffffff#32 with
    ⟨-, heq⟩ | ⟨hn, -⟩ | ⟨hn, -⟩ | ⟨hrefused, -⟩
  · rw [heq, hpage]
    rfl
  · exact absurd hn (Int.not_lt.mpr hover)
  · exact absurd hn (Int.not_lt.mpr hover)
  · exact absurd (.inl (by decide)) hrefused

/-- After `set_max_pages(0)` the same memory grows to two pages. -/
theorem onePageSample_passes_limit : ∃ (st : ParserState bitcodeWriter) (memory : MemoryType)
    (ctx ctx' : ExecutionContextBase),
    parseModule bitcodeWriter defaultOptions onePageSample = .ok st ∧
    st.mod.memories.head? = some memory ∧ Running st.mod ctx ∧
    growLinearMemory st.mod 1#32 ctx = .ok (1#32, ctx') ∧ ctx'.page = 2 ∧ ctx'.maxPages = 0 ∧
    ¬ GrowsCorrectly st.mod memory 1#32 ctx := by
  obtain ⟨st, ctx, h, hmemory, hrunning, hpage, hfit⟩ := onePageSample_ready
  have hlimited : Running st.mod (ctx.setMaxPages 0) := by
    obtain ⟨fresh, ready, hhistory, hreset, hreach⟩ := hrunning
    exact ⟨fresh, ready, hhistory, hreset, hreach.tail (.inr ⟨0, rfl⟩)⟩
  have hfit' : PagesFit (ctx.setMaxPages 0) :=
    ⟨hfit.defined, hfit.addressable, Nat.min_le_right _ _⟩
  have hpage' : (ctx.setMaxPages 0).page = 1 := hpage
  have hmax : (ctx.setMaxPages 0).maxPages = 0 := Nat.zero_min _
  have hvalue : ((1#32).toNat : Int) = 1 := rfl
  have hnot : ¬ Refuses ⟨⟨false, 1, 0⟩⟩ 1#32 (ctx.setMaxPages 0) := by
    rintro (hbig | ⟨hle, -⟩ | ⟨hflags, -⟩)
    · exact absurd hbig (by decide)
    · omega
    · exact absurd hflags Bool.false_ne_true
  have hrange : ¬ GrowsInRange ⟨⟨false, 1, 0⟩⟩ 1#32 (ctx.setMaxPages 0) := by
    rintro ⟨-, hle | hother⟩
    · omega
    · exact hnot (hother.imp_right .inr)
  rcases growLinearMemory_cases hfit' hmemory 1#32 with
    ⟨hover, -⟩ | ⟨-, hrefused, -⟩ | ⟨-, -, -, ctx', heq, hgrown⟩ | ⟨-, hroom, -⟩
  · omega
  · exact absurd hrefused hnot
  · refine ⟨st, _, _, ctx', h, hmemory, hlimited, ?_, ?_, ?_,
      not_growsCorrectly hfit' hmemory hrange⟩
    · rw [heq, hpage']
      rfl
    · have hsum := hgrown.page
      omega
    · rw [hgrown.rest]
      exact hmax
  · omega

end EosVm
