import EosVm.Lib.ExceptRun
import EosVm.Source.Context
import Mathlib.Logic.Relation

/-!
# Instantiated execution contexts

`reset` sizes `_dropped_data` for the module it instantiates, and `_dropped_elems` only when the
module has a table. Nothing that runs afterwards changes the size of either, and all entries the
table ever holds come from the module's segments.
-/

set_option autoImplicit false

namespace EosVm

open Lib

namespace ExecutionContextBase

variable {mod : Module} {ctx ctx' : ExecutionContextBase}

/-- Number of flags for each kind of segment. -/
def flagSizes (ctx : ExecutionContextBase) : Nat × Nat :=
  (ctx.droppedData.length, ctx.droppedElems.length)

theorem allocPages_frame {size : Nat} (h : ctx.allocPages size = .ok ctx') :
    ∃ page memory, ctx' = { ctx with page := page, memory := memory } := by
  unfold allocPages at h
  split at h
  · rw [← pure_eq_ok.mp h]
    exact ⟨_, _, rfl⟩
  · simp only [bind_eq_ok, vmAssert_eq_ok, pure_eq_ok, exists_const] at h
    rw [← h.2.2]
    exact ⟨_, _, rfl⟩

theorem freePages_frame {size : Nat} (h : ctx.freePages size = .ok ctx') :
    ∃ page, ctx' = { ctx with page := page } := by
  unfold freePages at h
  split at h
  · rw [← pure_eq_ok.mp h]
    exact ⟨_, rfl⟩
  · simp only [bind_eq_ok, vmAssert_eq_ok, pure_eq_ok, exists_const] at h
    rw [← h.2.2]
    exact ⟨_, rfl⟩

theorem resetPages_frame {newPages : Nat} (h : ctx.resetPages newPages = .ok ctx') :
    ∃ page memory, ctx' = { ctx with page := page, memory := memory } := by
  have hzero : ∃ page memory,
      (if 0 ≤ ctx.page then { ctx with memory := zeroPages 0 ctx.page.toNat ctx.memory }
        else { ctx with page := 0 }) = { ctx with page := page, memory := memory } := by
    split
    · exact ⟨_, _, rfl⟩
    · exact ⟨_, _, rfl⟩
  obtain ⟨page, memory, heq⟩ := hzero
  unfold resetPages at h
  simp only [heq] at h
  split at h
  · obtain ⟨page', memory', rfl⟩ := allocPages_frame h
    exact ⟨_, _, rfl⟩
  · split at h
    · obtain ⟨page', rfl⟩ := freePages_frame h
      exact ⟨_, _, rfl⟩
    · rw [← pure_eq_ok.mp h]
      exact ⟨_, _, rfl⟩

/-- The memory part of `reset` changes the pages only. -/
theorem resetMemory_frame (h : resetMemory mod ctx = .ok ctx') :
    ∃ page memory, ctx' = { ctx with page := page, memory := memory } := by
  unfold resetMemory at h
  split at h
  · simp only [bind_eq_ok, vmAssert_eq_ok, exists_const] at h
    exact resetPages_frame h.2
  · rw [← pure_eq_ok.mp h]
    unfold resetNoPages
    split
    · exact ⟨_, _, rfl⟩
    · exact ⟨_, _, rfl⟩

theorem resetTablePlace_frame {initial : Nat} (h : resetTablePlace initial ctx = .ok ctx') :
    ∃ room, ctx' = { ctx with altTable := room } := by
  unfold resetTablePlace at h
  split at h
  · simp only [bind_eq_ok, vmAssert_eq_ok, pure_eq_ok, exists_const] at h
    rw [← h.2]
    exact ⟨_, rfl⟩
  · rw [← pure_eq_ok.mp h]
    exact ⟨_, rfl⟩

theorem resetDataSegment_flagSizes {i : Nat} {segment : DataSegment}
    (h : resetDataSegment mod i segment ctx = .ok ctx') : ctx'.flagSizes = ctx.flagSizes := by
  unfold resetDataSegment at h
  split at h
  · rw [← pure_eq_ok.mp h]
  · simp only [bind_eq_ok, vmAssert_eq_ok, vectorSet_eq_ok, pure_eq_ok, exists_const] at h
    obtain ⟨memory, -, -, flags, ⟨-, rfl⟩, rfl⟩ := h
    simp [flagSizes]

theorem resetElemSegment_flagSizes {i : Nat} {segment : ElemSegment}
    (h : resetElemSegment mod i segment ctx = .ok ctx') : ctx'.flagSizes = ctx.flagSizes := by
  unfold resetElemSegment at h
  split at h
  · rw [← pure_eq_ok.mp h]
  · simp only [bind_eq_ok, vectorSet_eq_ok, pure_eq_ok] at h
    obtain ⟨flags, ⟨-, rfl⟩, rfl⟩ := h
    simp [flagSizes]
  · simp only [bind_eq_ok, vmAssert_eq_ok, vectorSet_eq_ok, pure_eq_ok, exists_const] at h
    obtain ⟨table, -, -, flags, ⟨-, rfl⟩, rfl⟩ := h
    simp [flagSizes]

theorem resetSegments_flagSizes {α : Type}
    {resetSegment : Nat → α → ExecutionContextBase → Except VmError ExecutionContextBase}
    (hsegment : ∀ i segment c c', resetSegment i segment c = .ok c' → c'.flagSizes = c.flagSizes)
    {i : Nat} {segments : List α} (h : resetSegments resetSegment i segments ctx = .ok ctx') :
    ctx'.flagSizes = ctx.flagSizes := by
  induction segments generalizing i ctx with
  | nil => rw [← pure_eq_ok.mp h]
  | cons segment segments ih =>
    obtain ⟨mid, hfirst, hrest⟩ := bind_eq_ok.mp h
    rw [ih hrest, hsegment i segment ctx mid hfirst]

/-- The flags after a successful `reset`. -/
theorem reset_flagSizes (h : reset mod ctx = .ok ctx') :
    ctx'.flagSizes =
      (mod.data.length,
        if mod.tables = [] then ctx.droppedElems.length else mod.elements.length) := by
  simp only [reset, bind_eq_ok] at h
  obtain ⟨c₁, hmemory, c₂, hdata, htable⟩ := h
  obtain ⟨page, memory, rfl⟩ := resetMemory_frame hmemory
  have hd := resetSegments_flagSizes (fun _ _ _ _ => resetDataSegment_flagSizes) hdata
  simp only [flagSizes, Prod.mk.injEq, List.length_replicate] at hd
  unfold resetTable at htable
  split at htable
  next hnone =>
    rw [← pure_eq_ok.mp htable, if_pos hnone]
    simp only [flagSizes, Prod.mk.injEq]
    exact hd
  next hsome =>
    obtain ⟨c₃, hplace, htable⟩ := bind_eq_ok.mp htable
    obtain ⟨room, rfl⟩ := resetTablePlace_frame hplace
    have ht := resetSegments_flagSizes (fun _ _ _ _ => resetElemSegment_flagSizes) htable
    rw [ht, if_neg (by simp [hsome])]
    simp only [flagSizes, Prod.mk.injEq, List.length_replicate, and_true]
    exact hd.1

/-- What running code may do to the context between two resets. -/
inductive Step (mod : Module) : ExecutionContextBase → ExecutionContextBase → Prop where
  | storeBytes {ctx ctx' : ExecutionContextBase} (ptr len value : Nat)
      (h : ctx.storeBytes ptr len value = .ok ctx') : Step mod ctx ctx'
  | growLinearMemory {ctx ctx' : ExecutionContextBase} (pages result : BitVec 32)
      (h : growLinearMemory mod pages ctx = .ok (result, ctx')) : Step mod ctx ctx'
  | setGlobal (ctx : ExecutionContextBase) (index : Nat) (value : InitExpr) :
      Step mod ctx { ctx with globals := ctx.globals.set index value }
  | initLinearMemory {ctx ctx' : ExecutionContextBase} (x d s n : Nat)
      (h : initLinearMemory mod x d s n ctx = .ok ctx') : Step mod ctx ctx'
  | dropData {ctx ctx' : ExecutionContextBase} (x : Nat) (h : dropData mod x ctx = .ok ctx') :
      Step mod ctx ctx'
  | initTable {ctx ctx' : ExecutionContextBase} (x d s n : Nat)
      (h : initTable mod x d s n ctx = .ok ctx') : Step mod ctx ctx'
  | dropElem {ctx ctx' : ExecutionContextBase} (x : Nat) (h : dropElem mod x ctx = .ok ctx') :
      Step mod ctx ctx'
  | copyEntry {ctx ctx' : ExecutionContextBase} (dst src : Nat)
      (h : copyEntry dst src ctx = .ok ctx') : Step mod ctx ctx'

/-- Any number of steps. -/
def Reaches (mod : Module) : ExecutionContextBase → ExecutionContextBase → Prop :=
  Relation.ReflTransGen (Step mod)

/-- Growing changes the pages only. -/
theorem growLinearMemory_frame {pages result : BitVec 32}
    (h : growLinearMemory mod pages ctx = .ok (result, ctx')) :
    ∃ page memory, ctx' = { ctx with page := page, memory := memory } := by
  simp only [growLinearMemory] at h
  split at h
  · split at h
    · rw [← (Prod.mk.inj (pure_eq_ok.mp h)).2]
      exact ⟨_, _, rfl⟩
    · obtain ⟨c, hc, hpure⟩ := bind_eq_ok.mp h
      obtain ⟨page, rfl⟩ := freePages_frame hc
      rw [← (Prod.mk.inj (pure_eq_ok.mp hpure)).2]
      exact ⟨_, _, rfl⟩
  · split at h
    · rw [← (Prod.mk.inj (pure_eq_ok.mp h)).2]
      exact ⟨_, _, rfl⟩
    · split at h
      · rw [← (Prod.mk.inj (pure_eq_ok.mp h)).2]
        exact ⟨_, _, rfl⟩
      · obtain ⟨c, hc, hpure⟩ := bind_eq_ok.mp h
        rw [← (Prod.mk.inj (pure_eq_ok.mp hpure)).2]
        exact allocPages_frame hc

theorem Step.flagSizes (h : Step mod ctx ctx') : ctx'.flagSizes = ctx.flagSizes := by
  cases h with
  | storeBytes ptr len value h =>
    simp only [ExecutionContextBase.storeBytes, bind_eq_ok, pure_eq_ok] at h
    obtain ⟨_, -, rfl⟩ := h
    rfl
  | growLinearMemory pages result h =>
    obtain ⟨page, memory, rfl⟩ := growLinearMemory_frame h
    rfl
  | setGlobal index value => rfl
  | initLinearMemory x d s n h =>
    simp only [ExecutionContextBase.initLinearMemory, bind_eq_ok, pure_eq_ok] at h
    obtain ⟨_, -, _, -, _, -, _, -, rfl⟩ := h
    rfl
  | dropData x h =>
    simp only [ExecutionContextBase.dropData, bind_eq_ok, vectorSet_eq_ok, pure_eq_ok] at h
    obtain ⟨_, -, _, ⟨-, rfl⟩, rfl⟩ := h
    simp [ExecutionContextBase.flagSizes]
  | initTable x d s n h =>
    simp only [ExecutionContextBase.initTable, bind_eq_ok, pure_eq_ok] at h
    obtain ⟨_, -, _, -, _, -, _, -, _, -, rfl⟩ := h
    rfl
  | dropElem x h =>
    simp only [ExecutionContextBase.dropElem, bind_eq_ok, vectorSet_eq_ok, pure_eq_ok] at h
    obtain ⟨_, -, _, ⟨-, rfl⟩, rfl⟩ := h
    simp [ExecutionContextBase.flagSizes]
  | copyEntry dst src h =>
    simp only [ExecutionContextBase.copyEntry, bind_eq_ok, pure_eq_ok] at h
    obtain ⟨_, -, _, -, rfl⟩ := h
    rfl

/-- Execution never changes the number of flags. -/
theorem Reaches.flagSizes (h : Reaches mod ctx ctx') : ctx'.flagSizes = ctx.flagSizes := by
  induction h with
  | refl => rfl
  | tail _ hstep ih => rw [hstep.flagSizes, ih]

/-- A context in which the module has been instantiated and has run for a while. -/
def Instantiated (mod : Module) (ctx : ExecutionContextBase) : Prop :=
  ∃ fresh ready : ExecutionContextBase, fresh.reset mod = .ok ready ∧ ready.Reaches mod ctx

theorem mem_writeEntries {table entries : List TableEntry} {offset : Nat} {entry : TableEntry}
    (h : entry ∈ writeEntries table offset entries) : entry ∈ table ∨ entry ∈ entries := by
  unfold writeEntries at h
  simp only [List.mem_append] at h
  rcases h with (h | h) | h
  · exact Or.inl (List.mem_of_mem_take h)
  · exact Or.inr h
  · exact Or.inl (List.mem_of_mem_drop h)

section Table

variable {P : TableEntry → Prop}

theorem resetElemSegment_table {i : Nat} {segment : ElemSegment}
    (hsegment : ∀ entry ∈ segment.elems, P entry) (hctx : ∀ entry ∈ ctx.table, P entry)
    (h : resetElemSegment mod i segment ctx = .ok ctx') : ∀ entry ∈ ctx'.table, P entry := by
  unfold resetElemSegment at h
  split at h
  · rw [← pure_eq_ok.mp h]
    exact hctx
  · simp only [bind_eq_ok, pure_eq_ok] at h
    obtain ⟨flags, -, rfl⟩ := h
    exact hctx
  · simp only [bind_eq_ok, pure_eq_ok] at h
    obtain ⟨table, -, _, -, flags, -, rfl⟩ := h
    intro entry hentry
    rcases mem_writeEntries hentry with hold | hnew
    · exact hctx entry hold
    · exact hsegment entry hnew

theorem resetElemSegments_table {i : Nat} {segments : List ElemSegment}
    (hsegments : ∀ segment ∈ segments, ∀ entry ∈ segment.elems, P entry)
    (hctx : ∀ entry ∈ ctx.table, P entry)
    (h : resetSegments (resetElemSegment mod) i segments ctx = .ok ctx') :
    ∀ entry ∈ ctx'.table, P entry := by
  induction segments generalizing i ctx with
  | nil =>
    rw [← pure_eq_ok.mp h]
    exact hctx
  | cons segment segments ih =>
    obtain ⟨mid, hfirst, hrest⟩ := bind_eq_ok.mp h
    have hmid := resetElemSegment_table (hsegments segment List.mem_cons_self) hctx hfirst
    exact ih (fun s hs => hsegments s (List.mem_cons_of_mem _ hs)) hmid hrest

theorem reset_table (htables : mod.tables ≠ []) (hnull : P .null)
    (hsegments : ∀ segment ∈ mod.elements, ∀ entry ∈ segment.elems, P entry)
    (h : reset mod ctx = .ok ctx') : ∀ entry ∈ ctx'.table, P entry := by
  simp only [reset, bind_eq_ok] at h
  obtain ⟨c₁, -, c₂, -, htable⟩ := h
  unfold resetTable at htable
  split at htable
  next hnone => exact absurd hnone htables
  · obtain ⟨c₃, -, htable⟩ := bind_eq_ok.mp htable
    refine resetElemSegments_table hsegments ?_ htable
    intro entry hentry
    rw [List.eq_of_mem_replicate hentry]
    exact hnull

theorem Step.table (hsegments : ∀ segment ∈ mod.elements, ∀ entry ∈ segment.elems, P entry)
    (hctx : ∀ entry ∈ ctx.table, P entry) (h : Step mod ctx ctx') :
    ∀ entry ∈ ctx'.table, P entry := by
  cases h with
  | storeBytes ptr len value h =>
    simp only [ExecutionContextBase.storeBytes, bind_eq_ok, pure_eq_ok] at h
    obtain ⟨_, -, rfl⟩ := h
    exact hctx
  | growLinearMemory pages result h =>
    obtain ⟨page, memory, rfl⟩ := growLinearMemory_frame h
    exact hctx
  | setGlobal index value => exact hctx
  | initLinearMemory x d s n h =>
    simp only [ExecutionContextBase.initLinearMemory, bind_eq_ok, pure_eq_ok] at h
    obtain ⟨_, -, _, -, _, -, _, -, rfl⟩ := h
    exact hctx
  | dropData x h =>
    simp only [ExecutionContextBase.dropData, bind_eq_ok, pure_eq_ok] at h
    obtain ⟨_, -, _, -, rfl⟩ := h
    exact hctx
  | initTable x d s n h =>
    simp only [ExecutionContextBase.initTable, bind_eq_ok, vectorAt_eq_ok, pure_eq_ok] at h
    obtain ⟨segment, hsegment, _, -, _, -, _, -, _, -, rfl⟩ := h
    intro entry hentry
    rcases mem_writeEntries hentry with hold | hnew
    · exact hctx entry hold
    · have hmem := List.mem_of_mem_drop (List.mem_of_mem_take hnew)
      exact hsegments segment (List.mem_of_getElem? hsegment) entry hmem
  | dropElem x h =>
    simp only [ExecutionContextBase.dropElem, bind_eq_ok, pure_eq_ok] at h
    obtain ⟨_, -, _, -, rfl⟩ := h
    exact hctx
  | copyEntry dst src h =>
    simp only [ExecutionContextBase.copyEntry, bind_eq_ok, vectorAt_eq_ok, vectorSet_eq_ok,
      pure_eq_ok] at h
    obtain ⟨source, hsource, table, ⟨-, rfl⟩, rfl⟩ := h
    intro entry hentry
    rcases List.mem_or_eq_of_mem_set hentry with hold | rfl
    · exact hctx entry hold
    · exact hctx entry (List.mem_of_getElem? hsource)

/-- What holds of the null entry and of the entries of all segments holds of every entry a module
with a table ever sees. -/
theorem Instantiated.table (htables : mod.tables ≠ []) (hnull : P .null)
    (hsegments : ∀ segment ∈ mod.elements, ∀ entry ∈ segment.elems, P entry)
    (h : Instantiated mod ctx) : ∀ entry ∈ ctx.table, P entry := by
  obtain ⟨fresh, ready, hreset, hreach⟩ := h
  induction hreach with
  | refl => exact reset_table htables hnull hsegments hreset
  | tail _ hstep ih => exact Step.table hsegments ih hstep

end Table

end ExecutionContextBase

end EosVm
