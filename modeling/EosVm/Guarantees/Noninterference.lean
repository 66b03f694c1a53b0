import EosVm.Invariants.Instantiation

/-!
# Reset and earlier executions

What `reset` leaves does not depend on what the context was used for before: two contexts with the
same module and the same page limit agree after it on everything the module can read. The allocator
clears the pages it has and the pages it adds, so the bytes beyond the pages may differ; a table is
cleared only in a module that has one.
-/

set_option autoImplicit false

namespace EosVm

open Lib

namespace ExecutionContextBase

/-- What may happen to a context between two calls of the host, as far as `reset` depends on it:
executions, traps and a `reset` that fails may leave everything else as they like. -/
structure Disturbs (mod : Module) (ctx ctx' : ExecutionContextBase) : Prop where
  maxPages : ctx'.maxPages = ctx.maxPages
  altTable : ctx'.altTable = ctx.altTable ∨
    ∃ table, mod.tables.head? = some table ∧ ctx'.altTable = some table.limits.initial

/-- The contexts that are set up for a module. -/
inductive History : Module → ExecutionContextBase → Prop where
  | fresh (mod : Module) : History mod {}
  | setMaxPages {mod : Module} {ctx : ExecutionContextBase} (h : History mod ctx) (maxPages : Nat) :
      History mod (ctx.setMaxPages maxPages)
  | setModule {mod : Module} {ctx : ExecutionContextBase} (h : History mod ctx) (mod' : Module) :
      History mod' ctx.setModule
  | reset {mod : Module} {ctx ctx' : ExecutionContextBase} (h : History mod ctx)
      (hreset : reset mod ctx = .ok ctx') : History mod ctx'
  | run {mod : Module} {ctx ctx' : ExecutionContextBase} (h : History mod ctx)
      (hrun : Disturbs mod ctx ctx') : History mod ctx'

/-- `_alt_table`, where it is allocated, has an entry for each one of the module's table. -/
def AltTableFits (mod : Module) (ctx : ExecutionContextBase) : Prop :=
  ∀ room, ctx.altTable = some room →
    ∃ table, mod.tables.head? = some table ∧ room = table.limits.initial

variable {mod : Module} {ctx ctx' : ExecutionContextBase}

/-- A history takes in every step of the code. -/
theorem Step.disturbs (h : Step mod ctx ctx') : Disturbs mod ctx ctx' := by
  cases h with
  | storeBytes ptr len value h =>
    simp only [ExecutionContextBase.storeBytes, bind_eq_ok, pure_eq_ok] at h
    obtain ⟨_, -, rfl⟩ := h
    exact ⟨rfl, Or.inl rfl⟩
  | growLinearMemory pages result h =>
    obtain ⟨page, memory, rfl⟩ := growLinearMemory_frame h
    exact ⟨rfl, Or.inl rfl⟩
  | setGlobal index value => exact ⟨rfl, Or.inl rfl⟩
  | initLinearMemory x d s n h =>
    simp only [ExecutionContextBase.initLinearMemory, bind_eq_ok, pure_eq_ok] at h
    obtain ⟨_, -, _, -, _, -, _, -, rfl⟩ := h
    exact ⟨rfl, Or.inl rfl⟩
  | dropData x h =>
    simp only [ExecutionContextBase.dropData, bind_eq_ok, pure_eq_ok] at h
    obtain ⟨_, -, _, -, rfl⟩ := h
    exact ⟨rfl, Or.inl rfl⟩
  | initTable x d s n h =>
    simp only [ExecutionContextBase.initTable, bind_eq_ok, pure_eq_ok] at h
    obtain ⟨_, -, _, -, _, -, _, -, _, -, rfl⟩ := h
    exact ⟨rfl, Or.inl rfl⟩
  | dropElem x h =>
    simp only [ExecutionContextBase.dropElem, bind_eq_ok, pure_eq_ok] at h
    obtain ⟨_, -, _, -, rfl⟩ := h
    exact ⟨rfl, Or.inl rfl⟩
  | copyEntry dst src h =>
    simp only [ExecutionContextBase.copyEntry, bind_eq_ok, pure_eq_ok] at h
    obtain ⟨_, -, _, -, rfl⟩ := h
    exact ⟨rfl, Or.inl rfl⟩

theorem resetDataSegment_frame {i : Nat} {segment : DataSegment}
    (h : resetDataSegment mod i segment ctx = .ok ctx') :
    ∃ memory flags, ctx' = { ctx with memory := memory, droppedData := flags } := by
  unfold resetDataSegment at h
  split at h
  · rw [← pure_eq_ok.mp h]
    exact ⟨_, _, rfl⟩
  · simp only [bind_eq_ok, pure_eq_ok] at h
    obtain ⟨_, -, _, -, _, -, rfl⟩ := h
    exact ⟨_, _, rfl⟩

theorem resetElemSegment_frame {i : Nat} {segment : ElemSegment}
    (h : resetElemSegment mod i segment ctx = .ok ctx') :
    ∃ table flags, ctx' = { ctx with table := table, droppedElems := flags } := by
  unfold resetElemSegment at h
  split at h
  · rw [← pure_eq_ok.mp h]
    exact ⟨_, _, rfl⟩
  · simp only [bind_eq_ok, pure_eq_ok] at h
    obtain ⟨_, -, rfl⟩ := h
    exact ⟨_, _, rfl⟩
  · simp only [bind_eq_ok, pure_eq_ok] at h
    obtain ⟨_, -, _, -, _, -, rfl⟩ := h
    exact ⟨_, _, rfl⟩

/-- A relation that every segment keeps holds after the loop. -/
theorem resetSegments_rel {α : Type} {R : ExecutionContextBase → ExecutionContextBase → Prop}
    {first second : Nat → α → ExecutionContextBase → Except VmError ExecutionContextBase}
    {i : Nat} {segments : List α} {c₁ c₂ c₁' c₂' : ExecutionContextBase}
    (h₁ : resetSegments first i segments c₁ = .ok c₁')
    (h₂ : resetSegments second i segments c₂ = .ok c₂') (hrel : R c₁ c₂)
    (hstep : ∀ i segment c₁ c₂ c₁' c₂', R c₁ c₂ → first i segment c₁ = .ok c₁' →
      second i segment c₂ = .ok c₂' → R c₁' c₂') : R c₁' c₂' := by
  induction segments generalizing i c₁ c₂ with
  | nil =>
    rw [← pure_eq_ok.mp h₁, ← pure_eq_ok.mp h₂]
    exact hrel
  | cons segment segments ih =>
    obtain ⟨m₁, hm₁, hr₁⟩ := bind_eq_ok.mp h₁
    obtain ⟨m₂, hm₂, hr₂⟩ := bind_eq_ok.mp h₂
    exact ih hr₁ hr₂ (hstep i segment c₁ c₂ m₁ m₂ hrel hm₁ hm₂)

/-- The pages of the two contexts hold the same bytes, and the data segments the same flags. -/
structure SameData (c₁ c₂ : ExecutionContextBase) : Prop where
  page : c₁.page = c₂.page
  memory : ∀ a < c₁.page.toNat * pageSize, c₁.memory a = c₂.memory a
  droppedData : c₁.droppedData = c₂.droppedData

/-- All pages are zero. -/
def ZeroPages (ctx : ExecutionContextBase) : Prop :=
  ∀ a < ctx.page.toNat * pageSize, ctx.memory a = 0

theorem allocPages_zero {size : Nat} (hzero : ctx.ZeroPages)
    (h : ctx.allocPages size = .ok ctx') : ctx'.ZeroPages ∧ ctx'.page = ctx.page + size := by
  unfold allocPages at h
  split at h
  next hsize =>
    rw [← pure_eq_ok.mp h, hsize]
    exact ⟨hzero, (Int.add_zero _).symm⟩
  next hsize =>
    simp only [bind_eq_ok, vmAssert_eq_ok, decide_eq_true_eq, pure_eq_ok, exists_const] at h
    obtain ⟨hpage, -, rfl⟩ := h
    refine ⟨?_, rfl⟩
    intro a ha
    have hsum : (ctx.page + size).toNat = ctx.page.toNat + size := by omega
    rw [hsum] at ha
    simp only [zeroPages]
    split
    · rfl
    next hout =>
      refine hzero a ?_
      by_contra hge
      exact hout ⟨by omega, ha⟩

theorem freePages_zero {size : Nat} (hzero : ctx.ZeroPages) (h : ctx.freePages size = .ok ctx') :
    ctx'.ZeroPages ∧ ctx'.page = ctx.page - size := by
  unfold freePages at h
  split at h
  next hsize =>
    rw [← pure_eq_ok.mp h, hsize]
    exact ⟨hzero, (Int.sub_zero _).symm⟩
  next hsize =>
    simp only [bind_eq_ok, vmAssert_eq_ok, pure_eq_ok, exists_const] at h
    rw [← h.2.2]
    refine ⟨?_, rfl⟩
    intro a ha
    refine hzero a (Nat.lt_of_lt_of_le ha (Nat.mul_le_mul_right _ ?_))
    have hle : (ctx.page - size).toNat ≤ ctx.page.toNat := by omega
    exact hle

theorem resetPages_zero {newPages : Nat} (h : ctx.resetPages newPages = .ok ctx') :
    ctx'.ZeroPages ∧ ctx'.page = newPages := by
  -- the pages there are, cleared
  have hclear : ∃ mid : ExecutionContextBase, mid.ZeroPages ∧ 0 ≤ mid.page ∧
      (if 0 ≤ ctx.page then { ctx with memory := zeroPages 0 ctx.page.toNat ctx.memory }
        else { ctx with page := 0 }) = mid := by
    refine ⟨_, ?_, ?_, rfl⟩
    · split
      · intro a ha
        simp only [zeroPages, Nat.zero_mul, Nat.zero_add, Nat.zero_le, true_and]
        exact if_pos ha
      · intro a ha
        simp only [Int.toNat_zero, Nat.zero_mul] at ha
        exact absurd ha (Nat.not_lt_zero a)
    · split
      next hpage => exact hpage
      · exact Int.le_refl _
  obtain ⟨mid, hzero, hpage, heq⟩ := hclear
  unfold resetPages at h
  rw [heq] at h
  simp only at h
  split at h
  next hgrow =>
    obtain ⟨hz, hp⟩ := allocPages_zero hzero h
    exact ⟨hz, by rw [hp]; omega⟩
  next hgrow =>
    split at h
    next hshrink =>
      obtain ⟨hz, hp⟩ := freePages_zero hzero h
      exact ⟨hz, by rw [hp]; omega⟩
    next hshrink =>
      rw [← pure_eq_ok.mp h]
      exact ⟨hzero, by omega⟩

/-- The pages after the memory part of `reset`. -/
def initialPages (mod : Module) : Int :=
  match mod.memories with
  | memory :: _ => memory.limits.initial
  | [] => -1

theorem resetMemory_zero (h : resetMemory mod ctx = .ok ctx') :
    ctx'.ZeroPages ∧ ctx'.page = initialPages mod := by
  cases hmem : mod.memories with
  | cons memory rest =>
    simp only [resetMemory, hmem, bind_eq_ok, vmAssert_eq_ok, exists_const] at h
    simp only [initialPages, hmem]
    exact resetPages_zero h.2
  | nil =>
    simp only [resetMemory, hmem] at h
    rw [← pure_eq_ok.mp h]
    simp only [initialPages, hmem]
    have hpage : ctx.resetNoPages.page = -1 := by
      unfold resetNoPages
      split
      · rfl
      · rfl
    refine ⟨?_, hpage⟩
    intro a ha
    rw [hpage] at ha
    exact absurd ha (Nat.not_lt_zero a)

theorem resetDataSegment_same {i : Nat} {segment : DataSegment}
    {c₁ c₂ c₁' c₂' : ExecutionContextBase} (hsame : SameData c₁ c₂)
    (h₁ : resetDataSegment mod i segment c₁ = .ok c₁')
    (h₂ : resetDataSegment mod i segment c₂ = .ok c₂') : SameData c₁' c₂' := by
  unfold resetDataSegment at h₁ h₂
  split at h₁
  next hpassive =>
    rw [if_pos hpassive] at h₂
    rw [← pure_eq_ok.mp h₁, ← pure_eq_ok.mp h₂]
    exact hsame
  next hactive =>
    rw [if_neg hactive] at h₂
    simp only [bind_eq_ok, vectorSet_eq_ok, pure_eq_ok] at h₁ h₂
    obtain ⟨_, -, _, -, _, ⟨-, rfl⟩, rfl⟩ := h₁
    obtain ⟨_, -, _, -, _, ⟨-, rfl⟩, rfl⟩ := h₂
    refine ⟨hsame.page, ?_, ?_⟩
    · intro a ha
      simp only [writeBytes]
      split
      · rfl
      · exact hsame.memory a ha
    · simp only
      rw [hsame.droppedData]

/-- The tables of the two contexts hold the same entries, and the element segments the same
flags. -/
structure SameElems (c₁ c₂ : ExecutionContextBase) : Prop where
  table : c₁.table = c₂.table
  droppedElems : c₁.droppedElems = c₂.droppedElems

theorem resetElemSegment_same {i : Nat} {segment : ElemSegment}
    {c₁ c₂ c₁' c₂' : ExecutionContextBase} (hsame : SameElems c₁ c₂)
    (h₁ : resetElemSegment mod i segment c₁ = .ok c₁')
    (h₂ : resetElemSegment mod i segment c₂ = .ok c₂') : SameElems c₁' c₂' := by
  unfold resetElemSegment at h₁ h₂
  split at h₁
  next hmode =>
    simp only [hmode] at h₂
    rw [← pure_eq_ok.mp h₁, ← pure_eq_ok.mp h₂]
    exact hsame
  next hmode =>
    simp only [hmode, bind_eq_ok, vectorSet_eq_ok, pure_eq_ok] at h₁ h₂
    obtain ⟨_, ⟨-, rfl⟩, rfl⟩ := h₁
    obtain ⟨_, ⟨-, rfl⟩, rfl⟩ := h₂
    exact ⟨hsame.table, by simp only; rw [hsame.droppedElems]⟩
  next hmode =>
    simp only [hmode, bind_eq_ok, vectorSet_eq_ok, pure_eq_ok] at h₁ h₂
    obtain ⟨_, -, _, -, _, ⟨-, rfl⟩, rfl⟩ := h₁
    obtain ⟨_, -, _, -, _, ⟨-, rfl⟩, rfl⟩ := h₂
    exact ⟨by simp only; rw [hsame.table], by simp only; rw [hsame.droppedElems]⟩

/-- Everything that the module and the host can read of the two contexts is equal, the stack sizes
apart. -/
structure SameState (mod : Module) (c₁ c₂ : ExecutionContextBase) : Prop where
  data : SameData c₁ c₂
  globals : c₁.globals = c₂.globals
  elems : mod.tables ≠ [] → SameElems c₁ c₂

/-- The table part of `reset` does not touch the rest. -/
theorem resetTable_frame (h : resetTable mod ctx = .ok ctx') :
    ∃ table flags alt, ctx' =
      { ctx with table := table, droppedElems := flags, altTable := alt } := by
  unfold resetTable at h
  split at h
  · rw [← pure_eq_ok.mp h]
    exact ⟨_, _, _, rfl⟩
  · obtain ⟨mid, hplace, hloop⟩ := bind_eq_ok.mp h
    obtain ⟨room, rfl⟩ := resetTablePlace_frame hplace
    refine resetSegments_rel hloop hloop
      (R := fun c _ => ∃ table flags alt,
        c = { ctx with table := table, droppedElems := flags, altTable := alt })
      ⟨_, _, _, rfl⟩ ?_
    rintro i segment c - c' - ⟨table, flags, alt, rfl⟩ hstep -
    obtain ⟨table', flags', rfl⟩ := resetElemSegment_frame hstep
    exact ⟨_, _, _, rfl⟩

theorem resetTable_same {c₁ c₂ c₁' c₂' : ExecutionContextBase} (htables : mod.tables ≠ [])
    (h₁ : resetTable mod c₁ = .ok c₁') (h₂ : resetTable mod c₂ = .ok c₂') :
    SameElems c₁' c₂' := by
  unfold resetTable at h₁ h₂
  split at h₁
  next hnone => exact absurd hnone htables
  next table rest hsome =>
    simp only [hsome] at h₂
    obtain ⟨m₁, -, hloop₁⟩ := bind_eq_ok.mp h₁
    obtain ⟨m₂, -, hloop₂⟩ := bind_eq_ok.mp h₂
    refine resetSegments_rel hloop₁ hloop₂ (R := SameElems) ⟨rfl, rfl⟩ ?_
    intro i segment a b a' b' hsame ha hb
    exact resetElemSegment_same hsame ha hb

/-- `reset` of any two contexts gives the same state. -/
theorem reset_same {c₁ c₂ c₁' c₂' : ExecutionContextBase} (h₁ : reset mod c₁ = .ok c₁')
    (h₂ : reset mod c₂ = .ok c₂') : SameState mod c₁' c₂' := by
  simp only [reset, bind_eq_ok] at h₁ h₂
  obtain ⟨a₁, hmem₁, b₁, hdata₁, htable₁⟩ := h₁
  obtain ⟨a₂, hmem₂, b₂, hdata₂, htable₂⟩ := h₂
  obtain ⟨hzero₁, hpage₁⟩ := resetMemory_zero hmem₁
  obtain ⟨hzero₂, hpage₂⟩ := resetMemory_zero hmem₂
  have hpages : a₁.page = a₂.page := by rw [hpage₁, hpage₂]
  have hdata : SameData b₁ b₂ := by
    refine resetSegments_rel hdata₁ hdata₂ (R := SameData) ⟨hpages, ?_, rfl⟩
      (fun i segment a b a' b' hsame ha hb => resetDataSegment_same hsame ha hb)
    intro a ha
    exact (hzero₁ a ha).trans (hzero₂ a (by rw [← hpages]; exact ha)).symm
  have helems : mod.tables ≠ [] → SameElems c₁' c₂' :=
    fun htables => resetTable_same htables htable₁ htable₂
  obtain ⟨t₁, f₁, r₁, rfl⟩ := resetTable_frame htable₁
  obtain ⟨t₂, f₂, r₂, rfl⟩ := resetTable_frame htable₂
  exact ⟨⟨hdata.page, hdata.memory, hdata.droppedData⟩, rfl, helems⟩

/-- What the pages and the data part leave of the context. -/
theorem reset_altTable (h : reset mod ctx = .ok ctx') :
    ctx'.altTable = ctx.altTable ∨
      ∃ table, mod.tables.head? = some table ∧ ctx.altTable = none ∧
        ctx'.altTable = some table.limits.initial := by
  simp only [reset, bind_eq_ok] at h
  obtain ⟨a, hmem, b, hdata, htable⟩ := h
  obtain ⟨page, memory, rfl⟩ := resetMemory_frame hmem
  have hb : b.altTable = ctx.altTable := by
    refine resetSegments_rel hdata hdata (R := fun c _ => c.altTable = ctx.altTable) rfl ?_
    intro i segment c _ c' _ hc hstep _
    obtain ⟨memory', flags, rfl⟩ := resetDataSegment_frame hstep
    exact hc
  unfold resetTable at htable
  split at htable
  next hnone =>
    rw [← pure_eq_ok.mp htable]
    exact Or.inl hb
  next table rest hsome =>
    obtain ⟨mid, hplace, hloop⟩ := bind_eq_ok.mp htable
    have hkeep : ctx'.altTable = mid.altTable := by
      refine resetSegments_rel hloop hloop (R := fun c _ => c.altTable = mid.altTable) rfl ?_
      intro i segment c _ c' _ hc hstep _
      obtain ⟨table', flags, rfl⟩ := resetElemSegment_frame hstep
      exact hc
    rw [hkeep]
    unfold resetTablePlace at hplace
    split at hplace
    · simp only [bind_eq_ok, pure_eq_ok] at hplace
      obtain ⟨_, -, rfl⟩ := hplace
      simp only [hb]
      cases hroom : ctx.altTable with
      | none => exact Or.inr ⟨table, by rw [hsome]; rfl, rfl, rfl⟩
      | some room => exact Or.inl rfl
    · rw [← pure_eq_ok.mp hplace]
      exact Or.inl hb

/-- The room of `_alt_table` is that of the module's table, whatever the context was used for. -/
theorem History.altTableFits (h : History mod ctx) : AltTableFits mod ctx := by
  induction h with
  | fresh => rintro room ⟨⟩
  | setMaxPages _ _ ih => exact ih
  | setModule _ _ _ => rintro room ⟨⟩
  | reset _ hreset ih =>
    intro room hroom
    rcases reset_altTable hreset with heq | ⟨table, htable, -, heq⟩
    · exact ih room (heq ▸ hroom)
    · rw [heq] at hroom
      exact ⟨table, htable, (Option.some.inj hroom).symm⟩
  | run _ hrun ih =>
    intro room hroom
    rcases hrun.altTable with heq | ⟨table, htable, heq⟩
    · exact ih room (heq ▸ hroom)
    · rw [heq] at hroom
      exact ⟨table, htable, (Option.some.inj hroom).symm⟩

/-- After a successful `reset` nothing tells what the context was used for, in the interpreter and
with machine code. The page limit only decides whether `reset` succeeds. -/
theorem reset_noninterference {c₁ c₂ : ExecutionContextBase} (h₁ : History mod c₁)
    (h₂ : History mod c₂) :
    (AltTableFits mod c₁ ∧ AltTableFits mod c₂) ∧
    (∀ c₁' c₂', interpreterReset mod c₁ = .ok c₁' → interpreterReset mod c₂ = .ok c₂' →
      SameState mod c₁' c₂' ∧ c₁'.osSize = c₂'.osSize ∧ c₁'.asSize = c₂'.asSize) ∧
    (∀ c₁' c₂', jitReset mod c₁ = .ok c₁' → jitReset mod c₂ = .ok c₂' →
      SameState mod c₁' c₂' ∧ c₁'.osSize = c₂'.osSize) := by
  refine ⟨⟨h₁.altTableFits, h₂.altTableFits⟩, ?_, ?_⟩
  · intro c₁' c₂' hr₁ hr₂
    simp only [interpreterReset, bind_eq_ok, pure_eq_ok] at hr₁ hr₂
    obtain ⟨b₁, hb₁, rfl⟩ := hr₁
    obtain ⟨b₂, hb₂, rfl⟩ := hr₂
    have hsame := reset_same hb₁ hb₂
    exact ⟨⟨⟨hsame.data.page, hsame.data.memory, hsame.data.droppedData⟩, hsame.globals,
      fun htables => ⟨(hsame.elems htables).table, (hsame.elems htables).droppedElems⟩⟩, rfl, rfl⟩
  · intro c₁' c₂' hr₁ hr₂
    simp only [jitReset, bind_eq_ok, pure_eq_ok] at hr₁ hr₂
    obtain ⟨b₁, hb₁, rfl⟩ := hr₁
    obtain ⟨b₂, hb₂, rfl⟩ := hr₂
    have hsame := reset_same hb₁ hb₂
    exact ⟨⟨⟨hsame.data.page, hsame.data.memory, hsame.data.droppedData⟩, hsame.globals,
      fun htables => ⟨(hsame.elems htables).table, (hsame.elems htables).droppedElems⟩⟩, rfl⟩

/-- A module with a page of memory, a table too large for the page below it, and a segment for
each. -/
def resetSample : Module where
  tables := [⟨0x70, ⟨false, 300, 0⟩⟩]
  memories := [⟨⟨false, 1, 0⟩⟩]
  elements := [⟨0, some (.i32Const 2), .active, [⟨0, 1⟩]⟩]
  data := [⟨0, .i32Const 5, false, [1, 2, 3]⟩, ⟨0, .i32Const 0, true, [4]⟩]

/-- A context that has run other code. -/
def usedContext : ExecutionContextBase :=
  { page := 3, memory := fun _ => 9, table := [⟨4, 4⟩], globals := [.i64Const 1],
    droppedElems := [true, true], droppedData := [true], osSize := 5, asSize := 2 }

theorem resetSample_noninterference :
    ∃ c₁ c₂, interpreterReset resetSample {} = .ok c₁ ∧
      interpreterReset resetSample usedContext = .ok c₂ ∧
      SameState resetSample c₁ c₂ ∧ c₁.osSize = c₂.osSize ∧ c₁.asSize = c₂.asSize := by
  have hused : History resetSample usedContext :=
    .run (.fresh resetSample) ⟨rfl, Or.inl rfl⟩
  obtain ⟨c₁, h₁⟩ := exists_ok_of_isOk
    (show (interpreterReset resetSample {}).isOk = true by decide +kernel)
  obtain ⟨c₂, h₂⟩ := exists_ok_of_isOk
    (show (interpreterReset resetSample usedContext).isOk = true by decide +kernel)
  exact ⟨c₁, c₂, h₁, h₂, (reset_noninterference (.fresh resetSample) hused).2.1 c₁ c₂ h₁ h₂⟩

end ExecutionContextBase

end EosVm
