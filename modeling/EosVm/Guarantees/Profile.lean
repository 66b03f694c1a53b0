import EosVm.Guarantees.DebugInfo
import EosVm.Lib.LinkedList
import EosVm.Source.Profile
import Mathlib.Algebra.BigOperators.Group.Finset.Basic
import Mathlib.Algebra.Order.BigOperators.Group.Finset
import Mathlib.Algebra.Order.Group.Nat

/-!
# The profiler counts every tick

The items stay linked in one ring in the order of their last use and in the chains that their
buckets name, and the traces in use differ. What has been written and what is still in the table add
up to the ticks.
-/

set_option autoImplicit false

namespace EosVm.ProfileData

open Function Lib

/-- The item is in the table. -/
def InUse (d : ProfileData) (p : Nat) : Prop := p < d.tableSize ∧ (d.items p).bucket ≠ noBucket

/-- An item in the table is in the bucket of its trace and has counted it. -/
structure Entry (d : ProfileData) (p : Nat) : Prop where
  bucket : (d.items p).bucket.toNat = d.tableIndex (d.items p).frames
  frames_ne : (d.items p).frames ≠ []
  frames_le : (d.items p).frames.length ≤ maxFrames
  count_pos : 0 < (d.items p).count.toNat

/-- The items, most recently used first, are linked in a ring; the entries of each bucket are linked
in a chain. -/
structure Lists (d : ProfileData) (order : List Nat) (chain : Nat → List Nat) : Prop where
  ring : Ring d.mruNext d.mruPrev none (order.map some)
  perm : order.Perm (List.range d.tableSize)
  path : ∀ i < d.tableSize, Path (fun p => (d.items p).next) (d.table i) (chain i)
  nodup : ∀ i < d.tableSize, (chain i).Nodup
  mem : ∀ i < d.tableSize, ∀ p,
    p ∈ chain i ↔ p < d.tableSize ∧ (d.items p).bucket = BitVec.ofNat 32 i
  entry : ∀ p, InUse d p → Entry d p
  distinct : ∀ p q, InUse d p → InUse d q → (d.items p).frames = (d.items q).frames → p = q

/-- A table that `hash & (table_size - 1)` and the 32-bit `bucket` can address. -/
structure Sized (d : ProfileData) : Prop where
  pow : ∃ k, d.tableSize = 2 ^ k
  small : d.tableSize < 2 ^ 32

section Table

variable {d : ProfileData} (h : Sized d)

include h

theorem Sized.pos : 0 < d.tableSize := by
  obtain ⟨k, hk⟩ := h.pow
  rw [hk]
  exact Nat.two_pow_pos k

theorem Sized.tableIndex_lt (frames : ProfileTrace) : d.tableIndex frames < d.tableSize := by
  obtain ⟨k, hk⟩ := h.pow
  rw [tableIndex, hk, Nat.and_two_pow_sub_one_eq_mod]
  exact Nat.mod_lt _ (Nat.two_pow_pos k)

/-- The number of a bucket is not that of no bucket. -/
theorem Sized.ofNat_toNat {i : Nat} (hi : i < d.tableSize) : (BitVec.ofNat 32 i).toNat = i := by
  rw [BitVec.toNat_ofNat]
  exact Nat.mod_eq_of_lt (hi.trans h.small)

theorem Sized.ofNat_ne {i : Nat} (hi : i < d.tableSize) : BitVec.ofNat 32 i ≠ noBucket := by
  intro heq
  have htoNat := congrArg BitVec.toNat heq
  have hsmall := h.small
  rw [h.ofNat_toNat hi] at htoNat
  have hmax : noBucket.toNat = 2 ^ 32 - 1 := rfl
  obtain ⟨k, hk⟩ := h.pow
  have hlt : k < 32 := (Nat.pow_lt_pow_iff_right (by decide)).mp (hk ▸ hsmall)
  have hle : 2 ^ k ≤ 2 ^ 31 := Nat.pow_le_pow_right (by decide) (by omega)
  omega

end Table

section Lists

variable {d : ProfileData} {order : List Nat} {chain : Nat → List Nat} (hsized : Sized d)
    (h : Lists d order chain)

include hsized h

/-- The chain of an item in use. -/
theorem Lists.mem_chain {p : Nat} (hp : InUse d p) :
    p ∈ chain (d.tableIndex (d.items p).frames) := by
  refine (h.mem _ (hsized.tableIndex_lt _) p).mpr ⟨hp.1, ?_⟩
  rw [← (h.entry p hp).bucket, BitVec.ofNat_toNat, BitVec.setWidth_eq]

theorem Lists.inUse_of_mem {i p : Nat} (hi : i < d.tableSize) (hp : p ∈ chain i) : InUse d p := by
  obtain ⟨hlt, hbucket⟩ := (h.mem i hi p).mp hp
  exact ⟨hlt, hbucket ▸ hsized.ofNat_ne hi⟩

/-- An item is in one chain only. -/
theorem Lists.chain_unique {i j p : Nat} (hi : i < d.tableSize) (hj : j < d.tableSize)
    (hpi : p ∈ chain i)
    (hpj : p ∈ chain j) : i = j := by
  have heq := ((h.mem i hi p).mp hpi).2.symm.trans ((h.mem j hj p).mp hpj).2
  rw [← hsized.ofNat_toNat hi, heq, hsized.ofNat_toNat hj]

omit hsized in
/-- A loop over a chain ends within as many steps as there are items. -/
theorem Lists.chain_length {i : Nat} (hi : i < d.tableSize) : (chain i).length ≤ d.tableSize := by
  have hsub : (chain i).Subperm (List.range d.tableSize) :=
    (h.nodup i hi).subperm fun p hp => List.mem_range.mpr ((h.mem i hi p).mp hp).1
  rw [← List.length_range (n := d.tableSize)]
  exact hsub.length_le

end Lists

section Loops

variable {d : ProfileData}

/-- The slot behind the elements of a list. -/
def lastSlot (entry : Option Nat) : List Nat → Option Nat
  | [] => entry
  | p :: ps => lastSlot (some p) ps

theorem unlinkEntry_eq {bucket x : Nat} {l r : List Nat} {entry : Option Nat} {fuel : Nat}
    (hpath : Path (fun p => (d.items p).next) (d.slot bucket entry) (l ++ x :: r)) (hx : x ∉ l)
    (hfuel : l.length < fuel) :
    unlinkEntry bucket x d fuel entry =
      some (d.setSlot bucket (lastSlot entry l) (d.items x).next) := by
  induction l generalizing entry fuel with
  | nil =>
    obtain ⟨fuel, rfl⟩ := Nat.exists_eq_add_of_lt hfuel
    obtain ⟨hslot, -⟩ := hpath
    simp only [unlinkEntry, hslot, if_true, lastSlot]
  | cons p ps ih =>
    obtain ⟨fuel, rfl⟩ := Nat.exists_eq_add_of_lt hfuel
    obtain ⟨hslot, hrest⟩ := hpath
    have hne : p ≠ x := fun heq => hx (heq ▸ List.mem_cons_self ..)
    simp only [unlinkEntry, hslot, if_neg hne, lastSlot]
    refine ih hrest (List.not_mem_of_not_mem_cons hx) ?_
    simp only [List.length_cons]
    omega

theorem findTrace_eq (frames : ProfileTrace) {xs : List Nat} {o : Option Nat} {fuel : Nat}
    (hpath : Path (fun p => (d.items p).next) o xs) (hfuel : xs.length ≤ fuel) :
    findTrace frames d fuel o = some (xs.find? fun p => decide (frames = (d.items p).frames)) := by
  induction xs generalizing o fuel with
  | nil =>
    obtain rfl := hpath
    cases fuel <;> rfl
  | cons p ps ih =>
    obtain ⟨rfl, hrest⟩ := hpath
    cases fuel with
    | zero => cases hfuel
    | succ fuel =>
      rw [List.find?_cons, findTrace]
      by_cases heq : frames = (d.items p).frames
      · rw [if_pos heq, decide_eq_true heq]
      · rw [if_neg heq, decide_eq_false heq]
        exact ih hrest (Nat.le_of_succ_le_succ hfuel)

end Loops

section Output

variable {d : ProfileData} (words : List (BitVec 32))

@[simp] theorem append_items : (d.append words).items = d.items := by
  unfold append flush; split <;> rfl

@[simp] theorem append_table : (d.append words).table = d.table := by
  unfold append flush; split <;> rfl

@[simp] theorem append_tableSize : (d.append words).tableSize = d.tableSize := by
  unfold append flush; split <;> rfl

@[simp] theorem append_mruNext : (d.append words).mruNext = d.mruNext := by
  unfold append flush; split <;> rfl

@[simp] theorem append_mruPrev : (d.append words).mruPrev = d.mruPrev := by
  unfold append flush; split <;> rfl

@[simp] theorem append_addrMap : (d.append words).addrMap = d.addrMap := by
  unfold append flush; split <;> rfl

@[simp] theorem append_outsize : (d.append words).outsize = d.outsize := by
  unfold append flush; split <;> rfl

/-- A record of a trace with its count. -/
abbrev Record := BitVec 32 × ProfileTrace

def encode (r : Record) : List (BitVec 32) := r.1 :: BitVec.ofNat 32 r.2.length :: r.2

/-- The file and the buffer hold a start and records, and the buffer is not overrun. -/
structure Output (d : ProfileData) (start : List (BitVec 32)) (recs : List Record) : Prop where
  words : d.file ++ d.outbuf = start ++ recs.flatMap encode
  buffer : 4 * d.outbuf.length ≤ d.outsize

/-- Words that fit into the buffer are appended. -/
theorem write_appends (hwords : 4 * words.length ≤ d.outsize) :
    d.write words = some (d.append words) ∧
      (d.append words).file ++ (d.append words).outbuf = d.file ++ d.outbuf ++ words ∧
      4 * (d.append words).outbuf.length ≤ d.outsize := by
  have hbuffer : 4 * (d.append words).outbuf.length ≤ d.outsize := by
    unfold append
    dsimp only
    split
    · rw [flush, List.nil_append]
      exact hwords
    · rw [List.length_append]
      omega
  refine ⟨?_, ?_, hbuffer⟩
  · rw [write, append_outsize, if_pos hbuffer]
  · unfold append
    dsimp only
    split
    · simp [flush]
    · rw [List.append_assoc]

variable {start : List (BitVec 32)} {recs : List Record}

theorem Output.record (h : Output d start recs) (hsize : 4 * (maxFrames + 2) ≤ d.outsize)
    {r : Record}
    (hframes : r.2.length ≤ maxFrames) :
    d.write (encode r) = some (d.append (encode r)) ∧
      Output (d.append (encode r)) start (recs ++ [r]) := by
  have hwords : 4 * (encode r).length ≤ d.outsize := by
    simp only [encode, List.length_cons]
    omega
  obtain ⟨hwrite, happend, hbuffer⟩ := write_appends (encode r) hwords
  refine ⟨hwrite, ?_, by rw [append_outsize]; exact hbuffer⟩
  rw [happend, h.words, List.flatMap_append, List.flatMap_singleton, List.append_assoc]

/-- Only the file and the buffer matter. -/
theorem Output.congr {d' : ProfileData} (h : Output d start recs) (hfile : d'.file = d.file)
    (hbuf : d'.outbuf = d.outbuf) (hsize : d'.outsize = d.outsize) : Output d' start recs :=
  ⟨by rw [hfile, hbuf, h.words], by rw [hbuf, hsize]; exact h.buffer⟩

end Output

section Counts

/-- The counts of the records of a trace. -/
def recorded (t : ProfileTrace) (recs : List Record) : Nat :=
  (recs.map fun r => if r.2 = t then r.1.toNat else 0).sum

/-- What an item adds to the count of a trace. -/
def share (t : ProfileTrace) (item : ProfileItem) : Nat :=
  if item.bucket ≠ noBucket ∧ item.frames = t then item.count.toNat else 0

/-- The counts of a trace in the table. -/
def live (t : ProfileTrace) (d : ProfileData) : Nat :=
  ∑ p ∈ Finset.range d.tableSize, share t (d.items p)

theorem recorded_append (t : ProfileTrace) (xs ys : List Record) :
    recorded t (xs ++ ys) = recorded t xs + recorded t ys := by
  rw [recorded, List.map_append, List.sum_append]
  rfl

/-- One item is changed. -/
theorem live_update {t : ProfileTrace} {d d' : ProfileData} {x : Nat} (hx : x < d.tableSize)
    (hsize : d'.tableSize = d.tableSize)
    (hother : ∀ p, p ≠ x → share t (d'.items p) = share t (d.items p)) :
    live t d' + share t (d.items x) = live t d + share t (d'.items x) := by
  have hmem : x ∈ Finset.range d.tableSize := Finset.mem_range.mpr hx
  rw [live, live, hsize, ← Finset.add_sum_erase _ _ hmem,
    ← Finset.add_sum_erase _ (fun p => share t (d.items p)) hmem,
    Finset.sum_congr rfl fun p hp => hother p (Finset.ne_of_mem_erase hp)]
  omega

end Counts

section Eviction

variable {d : ProfileData} {order : List Nat} {chain : Nat → List Nat} (hsized : Sized d)
    (h : Lists d order chain)

theorem lastSlot_concat (entry : Option Nat) (ps : List Nat) (p : Nat) :
    lastSlot entry (ps ++ [p]) = some p := by
  induction ps generalizing entry with
  | nil => rfl
  | cons q qs ih => exact ih (some q)

/-- What `evict_oldest` leaves when the slot before the item is known. -/
def evicted (d : ProfileData) (x : Nat) (entry : Option Nat) : ProfileData :=
  let d₂ := (d.append (record (d.items x))).setSlot (d.items x).bucket.toNat entry (d.items x).next
  d₂.setItem x { d₂.items x with bucket := noBucket }

section Evicted

variable (x : Nat) (entry : Option Nat)

@[simp] theorem evicted_tableSize : (evicted d x entry).tableSize = d.tableSize := by
  cases entry <;> simp [evicted, setSlot, setItem]

@[simp] theorem evicted_outsize : (evicted d x entry).outsize = d.outsize := by
  cases entry <;> simp [evicted, setSlot, setItem]

@[simp] theorem evicted_addrMap : (evicted d x entry).addrMap = d.addrMap := by
  cases entry <;> simp [evicted, setSlot, setItem]

@[simp] theorem evicted_mruNext : (evicted d x entry).mruNext = d.mruNext := by
  cases entry <;> simp [evicted, setSlot, setItem]

@[simp] theorem evicted_mruPrev : (evicted d x entry).mruPrev = d.mruPrev := by
  cases entry <;> simp [evicted, setSlot, setItem]

@[simp] theorem evicted_file : (evicted d x entry).file = (d.append (record (d.items x))).file := by
  cases entry <;> rfl

@[simp] theorem evicted_outbuf :
    (evicted d x entry).outbuf = (d.append (record (d.items x))).outbuf := by
  cases entry <;> rfl

@[simp] theorem evicted_bucket (p : Nat) :
    ((evicted d x entry).items p).bucket = if p = x then noBucket else (d.items p).bucket := by
  cases entry <;> simp only [evicted, setSlot, setItem, append_items, update_apply] <;> grind

@[simp] theorem evicted_frames (p : Nat) :
    ((evicted d x entry).items p).frames = (d.items p).frames := by
  cases entry <;> simp only [evicted, setSlot, setItem, append_items, update_apply] <;> grind

@[simp] theorem evicted_count (p : Nat) :
    ((evicted d x entry).items p).count = (d.items p).count := by
  cases entry <;> simp only [evicted, setSlot, setItem, append_items, update_apply] <;> grind

/-- The first slot is that of the table. -/
theorem evicted_first : (evicted d x none).table =
      update d.table (d.items x).bucket.toNat (d.items x).next ∧
    ∀ p, ((evicted d x none).items p).next = (d.items p).next := by
  refine ⟨by simp [evicted, setSlot, setItem], fun p => ?_⟩
  simp only [evicted, setSlot, setItem, append_items, update_apply]
  grind

theorem evicted_later {q : Nat} (hq : q ≠ x) : (evicted d x (some q)).table = d.table ∧
    ∀ p, ((evicted d x (some q)).items p).next =
      update (fun p => (d.items p).next) q (d.items x).next p := by
  refine ⟨by simp [evicted, setSlot, setItem], fun p => ?_⟩
  simp only [evicted, setSlot, setItem, append_items, update_apply]
  grind

end Evicted

include hsized h

/-- An entry is taken out of its chain. -/
theorem Lists.remove {x b : Nat} {l r : List Nat} (hb : b < d.tableSize)
    (hchain : chain b = l ++ x :: r)
    {d' : ProfileData} (hsize : d'.tableSize = d.tableSize) (hnext : d'.mruNext = d.mruNext)
    (hprev : d'.mruPrev = d.mruPrev) (hframes : ∀ p, (d'.items p).frames = (d.items p).frames)
    (hcount : ∀ p, (d'.items p).count = (d.items p).count)
    (hother : ∀ p, p ≠ x → (d'.items p).bucket = (d.items p).bucket)
    (hx : (d'.items x).bucket = noBucket)
    (hpath : ∀ i < d.tableSize,
      Path (fun p => (d'.items p).next) (d'.table i) (update chain b (l ++ r) i)) :
    Lists d' order (update chain b (l ++ r)) := by
  have hold : ∀ p, InUse d' p → InUse d p ∧ p ≠ x := by
    intro p hp
    have hne : p ≠ x := fun heq => hp.2 (heq ▸ hx)
    exact ⟨⟨hsize ▸ hp.1, hother p hne ▸ hp.2⟩, hne⟩
  have hsub : (l ++ r).Sublist (chain b) := by
    rw [hchain]
    exact List.Sublist.append_left (List.sublist_cons_self x r) l
  have hxb : x ∈ chain b := by
    rw [hchain]
    exact List.mem_append_right _ (List.mem_cons_self ..)
  refine ⟨by rw [hnext, hprev]; exact h.ring, by rw [hsize]; exact h.perm,
    by rw [hsize]; exact hpath, ?_, ?_, ?_, ?_⟩
  · intro i hi
    rw [hsize] at hi
    by_cases hib : i = b
    · rw [hib, update_self]
      exact hsub.nodup (h.nodup b hb)
    · rw [update_of_ne hib]
      exact h.nodup i hi
  · intro i hi p
    rw [hsize] at hi ⊢
    by_cases hpx : p = x
    · subst hpx
      refine iff_of_false ?_ fun hp => hsized.ofNat_ne hi (hp.2.symm.trans hx)
      by_cases hib : i = b
      · rw [hib, update_self]
        have hnodup := h.nodup b hb
        rw [hchain, List.perm_middle.nodup_iff, List.nodup_cons] at hnodup
        exact hnodup.1
      · rw [update_of_ne hib]
        exact fun hp => hib (h.chain_unique hsized hi hb hp hxb)
    · rw [hother p hpx, ← h.mem i hi p]
      by_cases hib : i = b
      · rw [hib, update_self, hchain]
        simp [hpx]
      · rw [update_of_ne hib]
  · intro p hp
    obtain ⟨huse, hne⟩ := hold p hp
    obtain ⟨hbucket, hne', hle, hpos⟩ := h.entry p huse
    refine ⟨?_, by rw [hframes]; exact hne', by rw [hframes]; exact hle, by rw [hcount]; exact hpos⟩
    rw [hother p hne, hbucket, hframes, tableIndex, tableIndex, hsize]
  · intro p q hp hq heq
    rw [hframes, hframes] at heq
    exact h.distinct p q (hold p hp).1 (hold q hq).1 heq

/-- An item in use is written out and taken out of its chain. -/
theorem evict_used {x : Nat} (hlast : d.mruPrev none = some x) (hx : InUse d x)
    (hwrite : d.write (record (d.items x)) = some (d.append (record (d.items x)))) :
    ∃ entry chain', evictOldest d = some (x, evicted d x entry) ∧
      Lists (evicted d x entry) order chain' := by
  obtain ⟨hbucket, -⟩ := h.entry x hx
  have hlt := hsized.tableIndex_lt (d.items x).frames
  obtain ⟨l, r, hchain⟩ := List.append_of_mem (h.mem_chain hsized hx)
  have hpath := h.path _ hlt
  have hnodup := h.nodup _ hlt
  have hlength := h.chain_length hlt
  rw [hchain] at hpath hnodup hlength
  have hfresh : x ∉ l := fun hmem =>
    (List.nodup_append.mp hnodup).2.2 x hmem x (List.mem_cons_self ..) rfl
  have hfuel : l.length < d.tableSize := by
    simp only [List.length_append, List.length_cons] at hlength
    omega
  have hslot : Path (fun p => ((d.append (record (d.items x))).items p).next)
      ((d.append (record (d.items x))).slot (d.items x).bucket.toNat none) (l ++ x :: r) := by
    simp only [append_items, slot, append_table, hbucket]
    exact hpath
  have hloop := unlinkEntry_eq hslot hfresh hfuel
  rw [append_items] at hloop
  have hevict : evictOldest d = some (x, evicted d x (lastSlot none l)) := by
    simp only [evictOldest, hlast, Option.bind_eq_bind, Option.bind_some, ne_eq, hx.2,
      not_false_eq_true, if_true, hwrite, append_items, append_tableSize, hloop, Option.pure_def]
    rfl
  refine ⟨_, update chain (d.tableIndex (d.items x).frames) (l ++ r), hevict, ?_⟩
  refine h.remove hsized hlt hchain (by simp) (by simp) (by simp) (by simp) (by simp)
    (fun p hp => by simp [hp]) (by simp) ?_
  intro i hi
  -- the slot before the item is the table's or the `next` of another entry
  rcases List.eq_nil_or_concat l with rfl | ⟨ps, q, rfl⟩
  · obtain ⟨htable, hnext⟩ := evicted_first (d := d) x
    rw [lastSlot, htable, hbucket]
    by_cases hib : i = d.tableIndex (d.items x).frames
    · rw [hib, update_self, update_self]
      exact hpath.2.congr fun p _ => hnext p
    · rw [update_of_ne hib, update_of_ne hib]
      exact (h.path i hi).congr fun p _ => hnext p
  · rw [List.concat_eq_append] at hchain hpath hnodup hfresh ⊢
    have hq : q ≠ x := fun heq => hfresh (heq ▸ List.mem_append_right _ (List.mem_singleton_self q))
    obtain ⟨htable, hnext⟩ := evicted_later (d := d) x hq
    rw [lastSlot_concat, htable]
    by_cases hib : i = d.tableIndex (d.items x).frames
    · rw [hib, update_self]
      rw [List.append_assoc, List.singleton_append] at hpath hnodup ⊢
      exact (hpath.remove hnodup).congr fun p _ => hnext p
    · rw [update_of_ne hib]
      refine (h.path i hi).congr fun p hp => ?_
      have hpq : p ≠ q := by
        rintro rfl
        refine hib (h.chain_unique hsized hi hlt hp ?_)
        rw [hchain, List.append_assoc]
        exact List.mem_append_right _ (List.mem_cons_self ..)
      rw [hnext, update_of_ne hpq]

/-- Records of traces that have been counted. -/
def Proper (recs : List Record) : Prop :=
  ∀ r ∈ recs, r.2 ≠ [] ∧ r.2.length ≤ maxFrames ∧ 0 < r.1.toNat

/-- `evict_oldest` frees the least recently used item; what it held is written out. -/
theorem evict_spec {start : List (BitVec 32)} {recs : List Record} (hout : Output d start recs)
    (hbuffer : 4 * (maxFrames + 2) ≤ d.outsize) :
    ∃ l x d' chain' recs', order = l ++ [x] ∧ evictOldest d = some (x, d') ∧ Lists d' order chain' ∧
      Output d' start (recs ++ recs') ∧ Proper recs' ∧ (d'.items x).bucket = noBucket ∧
      d'.tableSize = d.tableSize ∧ d'.outsize = d.outsize ∧ d'.addrMap = d.addrMap ∧
      ∀ t, recorded t recs' + live t d' = live t d := by
  have hne : order ≠ [] := by
    rintro rfl
    have hlength := h.perm.length_eq
    rw [List.length_range] at hlength
    exact absurd hlength.symm (Nat.pos_iff_ne_zero.mp hsized.pos)
  obtain ⟨l, x, rfl⟩ : ∃ l x, order = l ++ [x] := ⟨_, _, (List.dropLast_append_getLast hne).symm⟩
  have hlast : d.mruPrev none = some x := by
    have hring := h.ring
    rw [List.map_append] at hring
    exact hring.prev_sentinel
  have hxlt : x < d.tableSize :=
    List.mem_range.mp (h.perm.mem_iff.mp (List.mem_append_right _ (List.mem_singleton_self x)))
  by_cases hbucket : (d.items x).bucket = noBucket
  · refine ⟨l, x, d, chain, [], rfl, ?_, h, by rwa [List.append_nil], ?_, hbucket, rfl, rfl, rfl,
      ?_⟩
    · simp only [evictOldest, hlast, Option.bind_eq_bind, Option.bind_some, ne_eq, hbucket,
        not_true_eq_false, if_false, Option.pure_def]
    · exact fun r hr => absurd hr List.not_mem_nil
    · exact fun t => Nat.zero_add _
  · have huse : InUse d x := ⟨hxlt, hbucket⟩
    obtain ⟨-, hframes, hle, hpos⟩ := h.entry x huse
    obtain ⟨hwrite, hrecord⟩ :=
      hout.record hbuffer (r := ((d.items x).count, (d.items x).frames)) hle
    obtain ⟨entry, chain', hevict, hlists⟩ := evict_used hsized h hlast huse hwrite
    refine ⟨l, x, _, chain', [((d.items x).count, (d.items x).frames)], rfl, hevict, hlists,
      hrecord.congr (evicted_file x entry) (evicted_outbuf x entry) (by simp), ?_,
      by simp, by simp, by simp, by simp, ?_⟩
    · intro r hr
      rw [List.mem_singleton] at hr
      subst hr
      exact ⟨hframes, hle, hpos⟩
    · intro t
      have hupdate := live_update (t := t) hxlt (evicted_tableSize x entry)
        fun p hp => by simp only [share, evicted_bucket, evicted_frames, evicted_count, if_neg hp]
      have hfreed : share t ((evicted d x entry).items x) = 0 := by
        simp [share]
      have hheld : share t (d.items x) =
          recorded t [((d.items x).count, (d.items x).frames)] := by
        simp [share, recorded, hbucket]
      rw [hfreed, hheld] at hupdate
      omega

end Eviction

section Insertion

variable {d : ProfileData} {order : List Nat} {chain : Nat → List Nat}

section SetItem

variable (i : Nat) (item : ProfileItem)

@[simp] theorem setItem_items : (d.setItem i item).items = update d.items i item := rfl

@[simp] theorem setItem_table : (d.setItem i item).table = d.table := rfl

@[simp] theorem setItem_tableSize : (d.setItem i item).tableSize = d.tableSize := rfl

@[simp] theorem setItem_mruNext : (d.setItem i item).mruNext = d.mruNext := rfl

@[simp] theorem setItem_mruPrev : (d.setItem i item).mruPrev = d.mruPrev := rfl

@[simp] theorem setItem_outsize : (d.setItem i item).outsize = d.outsize := rfl

@[simp] theorem setItem_addrMap : (d.setItem i item).addrMap = d.addrMap := rfl

@[simp] theorem setItem_file : (d.setItem i item).file = d.file := rfl

@[simp] theorem setItem_outbuf : (d.setItem i item).outbuf = d.outbuf := rfl

end SetItem

section MoveToHead

variable (x : Nat)

@[simp] theorem moveToHead_items : (d.moveToHead x).items = d.items := rfl

@[simp] theorem moveToHead_table : (d.moveToHead x).table = d.table := rfl

@[simp] theorem moveToHead_tableSize : (d.moveToHead x).tableSize = d.tableSize := rfl

@[simp] theorem moveToHead_outsize : (d.moveToHead x).outsize = d.outsize := rfl

@[simp] theorem moveToHead_addrMap : (d.moveToHead x).addrMap = d.addrMap := rfl

@[simp] theorem moveToHead_file : (d.moveToHead x).file = d.file := rfl

@[simp] theorem moveToHead_outbuf : (d.moveToHead x).outbuf = d.outbuf := rfl

theorem moveToHead_ring {l r : List Nat}
    (h : Ring d.mruNext d.mruPrev none ((l ++ x :: r).map some)) :
    Ring (d.moveToHead x).mruNext (d.moveToHead x).mruPrev none ((x :: (l ++ r)).map some) := by
  rw [List.map_append, List.map_cons] at h
  have hback : update d.mruPrev (d.mruNext (some x)) (d.mruPrev (some x)) (some x) =
      d.mruPrev (some x) := by
    rw [update_apply, ite_self]
  have hmoved := h.moveToFront rfl rfl
  simp only [moveToHead, unlink, setNext, setPrev, hback, update_of_ne (Option.some_ne_none x).symm]
  rw [List.map_cons, List.map_append]
  exact hmoved

end MoveToHead

/-- The order, counts and unused traces may change. -/
theorem Lists.retain (h : Lists d order chain) {d' : ProfileData} {order' : List Nat}
    (hsize : d'.tableSize = d.tableSize) (hring : Ring d'.mruNext d'.mruPrev none (order'.map some))
    (hperm : order'.Perm order) (htable : d'.table = d.table)
    (hnext : ∀ p, (d'.items p).next = (d.items p).next)
    (hbucket : ∀ p, (d'.items p).bucket = (d.items p).bucket)
    (hused : ∀ p, InUse d p →
      (d'.items p).frames = (d.items p).frames ∧ 0 < (d'.items p).count.toNat) :
    Lists d' order' chain := by
  have hiff : ∀ p, InUse d' p ↔ InUse d p := fun p => by rw [InUse, InUse, hsize, hbucket]
  refine ⟨hring, hsize ▸ hperm.trans h.perm, ?_, hsize ▸ h.nodup, ?_, ?_, ?_⟩
  · intro i hi
    rw [hsize] at hi
    rw [htable]
    exact (h.path i hi).congr fun p _ => hnext p
  · intro i hi p
    rw [hsize] at hi ⊢
    rw [hbucket]
    exact h.mem i hi p
  · intro p hp
    have huse := (hiff p).mp hp
    obtain ⟨hb, hne, hle, -⟩ := h.entry p huse
    obtain ⟨hframes, hpos⟩ := hused p huse
    refine ⟨?_, by rw [hframes]; exact hne, by rw [hframes]; exact hle, hpos⟩
    rw [hbucket, hb, hframes, tableIndex, tableIndex, hsize]
  · intro p q hp hq heq
    have hp := (hiff p).mp hp
    have hq := (hiff q).mp hq
    rw [(hused p hp).1, (hused q hq).1] at heq
    exact h.distinct p q hp hq heq

/-- What an insertion does to everything but the lists. -/
structure Inserted (d d' : ProfileData) (frames : ProfileTrace) : Prop where
  file : d'.file = d.file
  outbuf : d'.outbuf = d.outbuf
  outsize : d'.outsize = d.outsize
  tableSize : d'.tableSize = d.tableSize
  addrMap : d'.addrMap = d.addrMap
  live : ∀ t, live t d' = live t d + if frames = t then 1 else 0

/-- `++count` of an item that goes to the head. -/
def counted (d : ProfileData) (p : Nat) : ProfileData :=
  (d.setItem p { d.items p with count := (d.items p).count + 1 }).moveToHead p

theorem counted_items (p : Nat) :
    (counted d p).items = update d.items p { d.items p with count := (d.items p).count + 1 } := by
  rw [counted, moveToHead_items, setItem_items]

/-- The trace is there already: its item counts it. -/
theorem counted_spec {p : Nat} {l r : List Nat} (h : Lists d (l ++ p :: r) chain) (huse : InUse d p)
    (hcount : (d.items p).count.toNat + 1 < 2 ^ 32) :
    Lists (counted d p) (p :: (l ++ r)) chain ∧ Inserted d (counted d p) (d.items p).frames := by
  have hsucc : ((d.items p).count + 1).toNat = (d.items p).count.toNat + 1 := by
    rw [BitVec.toNat_add]
    exact Nat.mod_eq_of_lt hcount
  have hfield : ∀ q, ((counted d p).items q).next = (d.items q).next ∧
      ((counted d p).items q).bucket = (d.items q).bucket ∧
      ((counted d p).items q).frames = (d.items q).frames := by
    intro q
    rw [counted_items, update_apply]
    split <;> simp_all
  have hsize : (counted d p).tableSize = d.tableSize := by simp [counted]
  constructor
  · have hring : Ring (counted d p).mruNext (counted d p).mruPrev none
      ((p :: (l ++ r)).map some) := by
      apply moveToHead_ring
      rw [setItem_mruNext, setItem_mruPrev]
      exact h.ring
    refine h.retain hsize hring List.perm_middle.symm (by simp [counted]) (fun q => (hfield q).1)
      (fun q => (hfield q).2.1) fun q hq => ⟨(hfield q).2.2, ?_⟩
    have hpos := (h.entry q hq).count_pos
    rw [counted_items, update_apply]
    split
    · rw [hsucc]
      exact Nat.succ_pos _
    · exact hpos
  · refine ⟨by simp [counted], by simp [counted], by simp [counted], hsize, by simp [counted],
      fun t => ?_⟩
    have hupdate := live_update (t := t) huse.1 hsize fun q hq => by
      rw [counted_items, update_of_ne hq]
    have hshare : share t ((counted d p).items p) =
        share t (d.items p) + if (d.items p).frames = t then 1 else 0 := by
      rw [counted_items, update_self, share, share, hsucc]
      by_cases heq : (d.items p).frames = t
      · rw [if_pos ⟨huse.2, heq⟩, if_pos ⟨huse.2, heq⟩, if_pos heq]
      · rw [if_neg fun hand => heq hand.2, if_neg fun hand => heq hand.2, if_neg heq]
    omega

/-- A new entry at the head of its bucket. -/
def added (d : ProfileData) (x : Nat) : ProfileData :=
  let idx := d.tableIndex (d.items x).frames
  let d₁ := d.setItem x
    { d.items x with next := d.table idx, bucket := BitVec.ofNat 32 idx, count := 1 }
  { d₁ with table := update d₁.table idx (some x) }.moveToHead x

theorem added_items (x : Nat) : (added d x).items = update d.items x { d.items x with
    next := d.table (d.tableIndex (d.items x).frames)
    bucket := BitVec.ofNat 32 (d.tableIndex (d.items x).frames)
    count := 1 } := by
  rw [added, moveToHead_items, setItem_items]

theorem added_table (x : Nat) :
    (added d x).table = update d.table (d.tableIndex (d.items x).frames) (some x) := by
  rw [added, moveToHead_table, setItem_table]

/-- The trace is not there yet. -/
theorem added_spec (hsized : Sized d) {x : Nat} {l r : List Nat} (h : Lists d (l ++ x :: r) chain)
    (hfree : (d.items x).bucket = noBucket) (hne : (d.items x).frames ≠ [])
    (hle : (d.items x).frames.length ≤ maxFrames)
    (hnew : ∀ q ∈ chain (d.tableIndex (d.items x).frames),
      (d.items q).frames ≠ (d.items x).frames) :
    (∃ chain', Lists (added d x) (x :: (l ++ r)) chain') ∧
      Inserted d (added d x) (d.items x).frames := by
  have hxlt : x < d.tableSize :=
    List.mem_range.mp (h.perm.mem_iff.mp (List.mem_append_right _ (List.mem_cons_self ..)))
  have hsize : (added d x).tableSize = d.tableSize := by simp [added]
  have hlt := hsized.tableIndex_lt (d.items x).frames
  have hitems := added_items (d := d) x
  have htable := added_table (d := d) x
  generalize hidx : d.tableIndex (d.items x).frames = idx at *
  have hx := congrFun hitems x
  rw [update_self] at hx
  have hother : ∀ q, q ≠ x → (added d x).items q = d.items q := fun q hq => by
    rw [hitems, update_of_ne hq]
  have hfresh : ∀ i < d.tableSize, x ∉ chain i := fun i hi hmem =>
    (h.inUse_of_mem hsized hi hmem).2 hfree
  have huse : ∀ q, q ≠ x → InUse (added d x) q → InUse d q := by
    intro q hq hin
    rw [InUse, hsize, hother q hq] at hin
    exact hin
  have hdiffer : ∀ q, q ≠ x → InUse (added d x) q → (d.items q).frames ≠ (d.items x).frames := by
    intro q hq hin heq
    have hmem := h.mem_chain hsized (huse q hq hin)
    rw [heq, hidx] at hmem
    exact hnew q hmem heq
  constructor
  · refine ⟨update chain idx (x :: chain idx), ?_, ?_, ?_, ?_, ?_, ?_, ?_⟩
    · apply moveToHead_ring
      exact h.ring
    · rw [hsize]
      exact List.perm_middle.symm.trans h.perm
    · intro i hi
      rw [hsize] at hi
      have hkeep : ∀ q ∈ chain i, ((added d x).items q).next = (d.items q).next := fun q hq => by
        rw [hother q (ne_of_mem_of_not_mem hq (hfresh i hi))]
      rw [htable]
      by_cases hib : i = idx
      · subst hib
        rw [update_self, update_self]
        refine ⟨rfl, ?_⟩
        beta_reduce
        rw [hx]
        exact (h.path i hi).congr hkeep
      · rw [update_of_ne hib, update_of_ne hib]
        exact (h.path i hi).congr hkeep
    · intro i hi
      rw [hsize] at hi
      by_cases hib : i = idx
      · subst hib
        rw [update_self]
        exact List.nodup_cons.mpr ⟨hfresh i hi, h.nodup i hi⟩
      · rw [update_of_ne hib]
        exact h.nodup i hi
    · intro i hi q
      rw [hsize] at hi ⊢
      by_cases hqx : q = x
      · subst hqx
        rw [hx]
        by_cases hib : i = idx
        · subst hib
          rw [update_self]
          exact iff_of_true (List.mem_cons_self ..) ⟨hxlt, rfl⟩
        · rw [update_of_ne hib]
          refine iff_of_false (hfresh i hi) fun hand => hib ?_
          have heq := congrArg BitVec.toNat hand.2
          rw [hsized.ofNat_toNat hlt, hsized.ofNat_toNat hi] at heq
          exact heq.symm
      · rw [hother q hqx, ← h.mem i hi q]
        by_cases hib : i = idx
        · subst hib
          rw [update_self, List.mem_cons, or_iff_right hqx]
        · rw [update_of_ne hib]
    · intro q hq
      by_cases hqx : q = x
      · subst hqx
        refine ⟨?_, by rw [hx]; exact hne, by rw [hx]; exact hle, by rw [hx]; exact Nat.one_pos⟩
        rw [hx, hsized.ofNat_toNat hlt, tableIndex, hsize]
        exact hidx.symm
      · obtain ⟨hb, hne', hle', hpos⟩ := h.entry q (huse q hqx hq)
        refine ⟨?_, by rw [hother q hqx]; exact hne', by rw [hother q hqx]; exact hle',
          by rw [hother q hqx]; exact hpos⟩
        rw [hother q hqx, hb, tableIndex, tableIndex, hsize]
    · intro p q hp hq heq
      by_cases hpx : p = x <;> by_cases hqx : q = x
      · exact hpx.trans hqx.symm
      · rw [hpx, hx, hother q hqx] at heq
        exact absurd heq.symm (hdiffer q hqx hq)
      · rw [hqx, hx, hother p hpx] at heq
        exact absurd heq (hdiffer p hpx hp)
      · rw [hother p hpx, hother q hqx] at heq
        exact h.distinct p q (huse p hpx hp) (huse q hqx hq) heq
  · refine ⟨by simp [added], by simp [added], by simp [added], hsize, by simp [added], fun t => ?_⟩
    have hupdate := live_update (t := t) hxlt hsize fun q hq => by rw [hother q hq]
    have hbefore : share t (d.items x) = 0 := if_neg fun hand => hand.1 hfree
    have hafter : share t ((added d x).items x) = if (d.items x).frames = t then 1 else 0 := by
      rw [hx, share]
      by_cases heq : (d.items x).frames = t
      · rw [if_pos ⟨hsized.ofNat_ne hlt, heq⟩, if_pos heq]
        rfl
      · rw [if_neg fun hand => heq hand.2, if_neg heq]
    omega

/-- `insert_hash` of an unused item counts its trace once. -/
theorem insert_spec (hsized : Sized d) {x : Nat} (h : Lists d order chain) (hx : x ∈ order)
    (hfree : (d.items x).bucket = noBucket) (hne : (d.items x).frames ≠ [])
    (hle : (d.items x).frames.length ≤ maxFrames)
    (hcount : ∀ q, InUse d q → (d.items q).count.toNat + 1 < 2 ^ 32) :
    ∃ d' order' chain', insertHash x d = some d' ∧ Lists d' order' chain' ∧
      Inserted d d' (d.items x).frames := by
  have hlt := hsized.tableIndex_lt (d.items x).frames
  have hcalled := findTrace_eq (d.items x).frames (h.path _ hlt) (h.chain_length hlt)
  cases hfind : (chain (d.tableIndex (d.items x).frames)).find?
      fun q => decide ((d.items x).frames = (d.items q).frames) with
  | none =>
    rw [hfind] at hcalled
    obtain ⟨l, r, rfl⟩ := List.append_of_mem hx
    have hnew : ∀ q ∈ chain (d.tableIndex (d.items x).frames),
        (d.items q).frames ≠ (d.items x).frames := fun q hq heq =>
      List.find?_eq_none.mp hfind q hq (decide_eq_true heq.symm)
    obtain ⟨⟨chain', hlists⟩, hinserted⟩ := added_spec hsized h hfree hne hle hnew
    refine ⟨added d x, _, chain', ?_, hlists, hinserted⟩
    simp only [insertHash, hcalled, Option.bind_eq_bind, Option.bind_some, Option.pure_def, added]
  | some p =>
    rw [hfind] at hcalled
    have hframes : (d.items x).frames = (d.items p).frames := by simpa using List.find?_some hfind
    have huse := h.inUse_of_mem hsized hlt (List.mem_of_find?_eq_some hfind)
    obtain ⟨l, r, rfl⟩ := List.append_of_mem (h.perm.mem_iff.mpr (List.mem_range.mpr huse.1))
    obtain ⟨hlists, hinserted⟩ := counted_spec h huse (hcount p huse)
    refine ⟨counted d p, _, chain, ?_, hlists, by rw [hframes]; exact hinserted⟩
    simp only [insertHash, hcalled, Option.bind_eq_bind, Option.bind_some, Option.pure_def, counted]

end Insertion

section Ticks

/-- The frames in wasm code. -/
def wasmFrames (m : ProfileInstrMap) (data : List (BitVec 64)) : ProfileTrace :=
  (data.filterMap m.translate).filter fun addr => decide (addr ≠ ProfileInstrMap.noAddress)

/-- The trace of a tick: all frames but the innermost are shown one behind their call. -/
def trace (m : ProfileInstrMap) (data : List (BitVec 64)) : ProfileTrace :=
  match (wasmFrames m data).take maxFrames with
  | [] => []
  | addr :: callers => addr :: callers.map (· + 1)

variable {m : ProfileInstrMap}

theorem search_lt {data : List AddrEntry} (offset : BitVec 32) {lower upper : Nat}
    (hlt : lower < upper)
    (hupper : upper ≤ data.length) :
    ∃ i < data.length, ProfileInstrMap.search data offset lower upper = some i := by
  obtain ⟨i, hsearch, hi, -⟩ := ProfileInstrMap.search_invariant (L := (· < data.length))
    (U := fun _ => True) (fun i entry hentry _ => (List.getElem?_eq_some_iff.mp hentry).1)
    (fun _ _ _ _ => trivial) hlt hupper (by omega) trivial
  exact ⟨i, hi, hsearch⟩

/-- Only an empty table is read where it has no entry. -/
theorem translate_defined (hmap : m.data ≠ []) (pc : BitVec 64) :
    ∃ addr, m.translate pc = some addr := by
  have hlen : 0 < m.data.length := List.length_pos_iff.mpr hmap
  obtain ⟨i, hi, hsearch⟩ := search_lt ((pc - m.baseAddress).setWidth 32) hlen (Nat.le_refl _)
  obtain ⟨first, hfirst⟩ : ∃ first, m.data[0]? = some first := ⟨_, List.getElem?_eq_getElem hlen⟩
  obtain ⟨entry, hentry⟩ : ∃ entry, m.data[i]? = some entry := ⟨_, List.getElem?_eq_getElem hi⟩
  simp only [ProfileInstrMap.translate, hfirst, hsearch, hentry, Option.bind_eq_bind,
    Option.bind_some]
  split
  · exact ⟨_, rfl⟩
  · split <;> exact ⟨_, rfl⟩

theorem wasmFrames_cons {pc : BitVec 64} {addr : BitVec 32} (haddr : m.translate pc = some addr)
    (data : List (BitVec 64)) : wasmFrames m (pc :: data) =
      if addr ≠ ProfileInstrMap.noAddress then
        addr :: wasmFrames m data else wasmFrames m data := by
  rw [wasmFrames, List.filterMap_cons, haddr, List.filter_cons]
  simp only [decide_eq_true_eq]
  rfl

/-- The frames behind the first one. -/
theorem translateFrames_callers (hmap : m.data ≠ []) (data : List (BitVec 64))
    (frames : ProfileTrace)
    (hpos : 0 < frames.length) (hle : frames.length ≤ maxFrames) :
    translateFrames m data frames =
      some (frames ++ ((wasmFrames m data).take (maxFrames - frames.length)).map (· + 1)) := by
  induction data generalizing frames with
  | nil => simp [translateFrames, wasmFrames]
  | cons pc data ih =>
    obtain ⟨addr, haddr⟩ := translate_defined hmap pc
    rw [translateFrames, wasmFrames_cons haddr]
    by_cases hroom : frames.length < maxFrames
    · rw [if_pos hroom, haddr, Option.bind_eq_bind, Option.bind_some, if_pos hpos]
      by_cases hwasm : addr ≠ ProfileInstrMap.noAddress
      · obtain ⟨n, hn⟩ : ∃ n, maxFrames - frames.length = n + 1 :=
          ⟨maxFrames - frames.length - 1, by omega⟩
        have hlen : (frames ++ [addr + 1]).length = frames.length + 1 := List.length_append
        have hrest : maxFrames - (frames ++ [addr + 1]).length = n := by omega
        rw [if_pos hwasm, if_pos hwasm, ih _ (by omega) (by omega), hrest, hn, List.take_succ_cons,
          List.map_cons, List.append_assoc]
        rfl
      · rw [if_neg hwasm, if_neg hwasm, ih frames hpos hle]
    · have hfull : maxFrames - frames.length = 0 := by omega
      rw [if_neg hroom, hfull, List.take_zero, List.map_nil, List.append_nil]

/-- The loop of `handle_tick` reads the trace of the tick. -/
theorem translateFrames_eq (hmap : m.data ≠ []) (data : List (BitVec 64)) :
    translateFrames m data [] = some (trace m data) := by
  induction data with
  | nil => rfl
  | cons pc data ih =>
    obtain ⟨addr, haddr⟩ := translate_defined hmap pc
    have hroom : ([] : ProfileTrace).length < maxFrames := by decide
    have hnone : ¬ 0 < ([] : ProfileTrace).length := by decide
    rw [translateFrames, trace, wasmFrames_cons haddr, if_pos hroom, haddr, Option.bind_eq_bind,
      Option.bind_some, if_neg hnone]
    by_cases hwasm : addr ≠ ProfileInstrMap.noAddress
    · rw [if_pos hwasm, if_pos hwasm, List.nil_append,
        translateFrames_callers hmap data [addr] Nat.one_pos hroom]
      rfl
    · rw [if_neg hwasm, if_neg hwasm, ih, trace]

theorem trace_length (data : List (BitVec 64)) : (trace m data).length ≤ maxFrames := by
  have htake : ((wasmFrames m data).take maxFrames).length ≤ maxFrames := List.length_take_le ..
  unfold trace
  split
  · exact Nat.zero_le _
  · rename_i addr callers hframes
    rw [hframes] at htake
    rw [List.length_cons, List.length_map]
    exact htake

end Ticks

section Accounts

/-- What has been written and the table account for the traces of the ticks. -/
structure Accounts (d : ProfileData) (m : ProfileInstrMap) (start : List (BitVec 32))
    (recs : List Record)
    (traces : List ProfileTrace) : Prop where
  sized : Sized d
  addrMap : d.addrMap = m
  outsize : 4 * (maxFrames + 2) ≤ d.outsize
  lists : ∃ order chain, Lists d order chain
  output : Output d start recs
  proper : Proper recs
  total : ∀ t, t ≠ [] → recorded t recs + live t d = traces.count t

variable {d : ProfileData} {m : ProfileInstrMap} {start : List (BitVec 32)} {recs : List Record}
  {traces : List ProfileTrace}

/-- An entry has counted no more than all entries. -/
theorem count_le_live {q : Nat} (hq : InUse d q) :
    (d.items q).count.toNat ≤ live (d.items q).frames d := by
  have hshare : share (d.items q).frames (d.items q) = (d.items q).count.toNat := if_pos ⟨hq.2, rfl⟩
  rw [← hshare]
  exact Finset.single_le_sum (f := fun p => share (d.items q).frames (d.items p))
    (fun p _ => Nat.zero_le _)
    (Finset.mem_range.mpr hq.1)

theorem count_append (traces : List ProfileTrace) (s t : ProfileTrace) :
    (traces ++ [s]).count t = traces.count t + if s = t then 1 else 0 := by
  rw [List.count_append, List.count_singleton]
  simp only [beq_iff_eq]

/-- `handle_tick` counts the trace of a tick, wherever it puts it. -/
theorem Accounts.tick (h : Accounts d m start recs traces) (hmap : m.data ≠ [])
    (hlt : traces.length + 1 < 2 ^ 32)
    (data : List (BitVec 64)) :
    ∃ d' recs', handleTick data d = some d' ∧ Accounts d' m start (recs ++ recs')
      (traces ++ [trace m data]) := by
  obtain ⟨order, chain, hlists⟩ := h.lists
  obtain ⟨l, x, d₁, chain₁, recs', rfl, hevict, hlists₁, houtput, hproper, hfree, hsize,
    houtsize, haddrMap, hlive⟩ := evict_spec h.sized hlists h.output h.outsize
  have hsized : Sized d₁ := ⟨hsize ▸ h.sized.pow, hsize ▸ h.sized.small⟩
  have hrecords : Proper (recs ++ recs') := fun r hr =>
    (List.mem_append.mp hr).elim (h.proper r) (hproper r)
  have htotal : ∀ t, t ≠ [] → recorded t (recs ++ recs') + live t d₁ = traces.count t := by
    intro t ht
    rw [recorded_append, Nat.add_assoc, hlive t, h.total t ht]
  have hmap₁ : d₁.addrMap = m := haddrMap.trans h.addrMap
  have htick : handleTick data d = if trace m data ≠ [] then
      insertHash x (d₁.setItem x { d₁.items x with frames := trace m data }) else some d₁ := by
    rw [handleTick, hevict, Option.bind_eq_bind, Option.bind_some]
    dsimp only
    rw [hmap₁, translateFrames_eq hmap, Option.bind_eq_bind, Option.bind_some]
    rfl
  by_cases hnil : trace m data = []
  · rw [if_neg (not_not_intro hnil)] at htick
    refine ⟨d₁, recs', htick, hsized, hmap₁, houtsize ▸ h.outsize, ⟨_, _, hlists₁⟩, houtput,
      hrecords, ?_⟩
    intro t ht
    rw [htotal t ht, count_append, hnil, if_neg (Ne.symm ht), Nat.add_zero]
  · rw [if_pos hnil] at htick
    -- the item that was freed takes the trace of the tick before it is looked up
    set d₂ := d₁.setItem x { d₁.items x with frames := trace m data } with hd₂
    have hx : d₂.items x = { d₁.items x with frames := trace m data } := update_self ..
    have hother : ∀ q, q ≠ x → d₂.items q = d₁.items q := fun q hq => update_of_ne hq ..
    have hfield : ∀ q, (d₂.items q).next = (d₁.items q).next ∧
        (d₂.items q).bucket = (d₁.items q).bucket := by
      intro q
      by_cases hq : q = x
      · rw [hq, hx]
        exact ⟨rfl, rfl⟩
      · rw [hother q hq]
        exact ⟨rfl, rfl⟩
    have huse : ∀ q, InUse d₁ q → q ≠ x := fun q hq heq => hq.2 (heq ▸ hfree)
    have hlists₂ : Lists d₂ (l ++ [x]) chain₁ := by
      refine hlists₁.retain rfl hlists₁.ring (List.Perm.refl _) rfl (fun q => (hfield q).1)
        (fun q => (hfield q).2) fun q hq => ?_
      rw [hother q (huse q hq)]
      exact ⟨rfl, (hlists₁.entry q hq).count_pos⟩
    have hlive₂ : ∀ t, live t d₂ = live t d₁ := by
      intro t
      refine Finset.sum_congr rfl fun q _ => ?_
      by_cases hq : q = x
      · rw [hq, share, share, hx, if_neg fun hand => hand.1 hfree, if_neg fun hand => hand.1 hfree]
      · rw [hother q hq]
    have hcount : ∀ q, InUse d₂ q → (d₂.items q).count.toNat + 1 < 2 ^ 32 := by
      intro q hq
      have hle := count_le_live hq
      have hne := (hlists₂.entry q hq).frames_ne
      have hsum := htotal _ hne
      have hbound : traces.count (d₂.items q).frames ≤ traces.length := List.count_le_length
      rw [hlive₂] at hle
      omega
    have hframes : (d₂.items x).frames = trace m data := by rw [hx]
    obtain ⟨d', order', chain', hinsert, hlists', hinserted⟩ :=
      insert_spec (d := d₂) ⟨hsized.pow, hsized.small⟩
      hlists₂ (List.mem_append_right _ (List.mem_singleton_self x)) (by rw [hx]; exact hfree)
      (by rw [hframes]; exact hnil) (by rw [hframes]; exact trace_length data) hcount
    rw [hframes] at hinserted
    refine ⟨d', recs', htick.trans hinsert, ⟨?_, ?_⟩, hinserted.addrMap.trans hmap₁, ?_,
      ⟨_, _, hlists'⟩, houtput.congr hinserted.file hinserted.outbuf hinserted.outsize, hrecords,
      ?_⟩
    · rw [hinserted.tableSize]
      exact hsized.pow
    · rw [hinserted.tableSize]
      exact hsized.small
    · rw [hinserted.outsize]
      exact houtsize ▸ h.outsize
    · intro t ht
      rw [hinserted.live, hlive₂, count_append, ← Nat.add_assoc, htotal t ht]

/-- Every tick is counted. -/
theorem Accounts.ticks (h : Accounts d m start recs traces) (hmap : m.data ≠ [])
    (ticks : List (List (BitVec 64)))
    (hlt : traces.length + ticks.length < 2 ^ 32) :
    ∃ d' recs', handleTicks ticks d = some d' ∧
      Accounts d' m start recs' (traces ++ ticks.map (trace m)) := by
  induction ticks generalizing d recs traces with
  | nil =>
    rw [List.map_nil, List.append_nil]
    exact ⟨d, recs, rfl, h⟩
  | cons data ticks ih =>
    rw [List.length_cons] at hlt
    obtain ⟨d₁, recs₁, htick, h₁⟩ := h.tick hmap (by omega) data
    obtain ⟨d', recs', hrun, h'⟩ := ih h₁ (by rw [List.length_append, List.length_singleton]; omega)
    refine ⟨d', recs', ?_, ?_⟩
    · rw [handleTicks, htick, Option.bind_eq_bind, Option.bind_some, hrun]
    · rw [List.map_cons, List.append_cons]
      exact h'

end Accounts

section Construction

variable (m : ProfileInstrMap) (bufferSize hashTableSize : Nat)

/-- The links of the constructor, from an item on. -/
theorem segment_range (n i : Nat) (hsize : i + 1 + n = hashTableSize) :
    Segment (initNext hashTableSize) (initPrev hashTableSize) (some i)
      ((List.range' (i + 1) n).map some) none := by
  induction n generalizing i with
  | zero =>
    obtain rfl : hashTableSize = i + 1 := by omega
    exact ⟨if_neg (by omega), by simp [initPrev]⟩
  | succ n ih => exact ⟨if_pos (by omega), by simp [initPrev], ih (i + 1) (by omega)⟩

theorem initial_ring (hpos : 0 < hashTableSize) :
    Ring (initNext hashTableSize) (initPrev hashTableSize) none
      ((List.range hashTableSize).map some) := by
  constructor
  · obtain ⟨n, rfl⟩ := Nat.exists_eq_add_of_lt hpos
    rw [Nat.zero_add, List.range_eq_range', List.range'_succ]
    exact ⟨rfl, rfl, segment_range (n + 1) n 0 (by omega)⟩
  · refine List.nodup_cons.mpr ⟨by simp, ?_⟩
    exact List.nodup_range.map (Option.some_injective _)

theorem construct_accounts (intervalUs : BitVec 32) (hpow : ∃ k, hashTableSize = 2 ^ k)
    (hsmall : hashTableSize < 2 ^ 32) (hbuffer : 4 * (maxFrames + 2) ≤ bufferSize) :
    ∃ d, construct m bufferSize hashTableSize intervalUs = some d ∧
      Accounts d m (header intervalUs) [] [] := by
  have hsized : Sized (initial m bufferSize hashTableSize) := ⟨hpow, hsmall⟩
  have hwords : 4 * (header intervalUs).length ≤ bufferSize :=
    le_trans (show 4 * 5 ≤ 4 * (maxFrames + 2) by decide) hbuffer
  obtain ⟨hwrite, happend, hfill⟩ :=
    write_appends (d := initial m bufferSize hashTableSize) (header intervalUs) hwords
  set d := (initial m bufferSize hashTableSize).append (header intervalUs)
  have hfree : ∀ p, (d.items p).bucket = noBucket := fun p => by
    rw [append_items]
    rfl
  have hsize : d.tableSize = hashTableSize := append_tableSize _
  have hunused : ∀ p, ¬ InUse d p := fun p hp => hp.2 (hfree p)
  refine ⟨d, hwrite, ⟨hsize ▸ hpow, hsize ▸ hsmall⟩, append_addrMap _, ?_,
    ⟨List.range hashTableSize, fun _ => [], ?_⟩,
    ⟨happend, by rw [append_outsize]; exact hfill⟩, fun r hr => absurd hr List.not_mem_nil, ?_⟩
  · rw [append_outsize]
    exact hbuffer
  · refine ⟨?_, by rw [hsize], fun i _ => ?_, fun i _ => List.nodup_nil, fun i hi p => ?_,
      fun p hp => absurd hp (hunused p), fun p _ hp => absurd hp (hunused p)⟩
    · rw [append_mruNext, append_mruPrev]
      exact initial_ring hashTableSize hsized.pos
    · rw [append_table]
      rfl
    · refine iff_of_false List.not_mem_nil fun hand => hsized.ofNat_ne (hsize ▸ hi) ?_
      rw [← hand.2, hfree]
  · intro t _
    have hzero : live t d = 0 := Finset.sum_eq_zero fun p _ => if_neg fun hand => hand.1 (hfree p)
    rw [hzero]
    rfl

end Construction

section Destruction

variable {d : ProfileData} {start : List (BitVec 32)} {recs : List Record}

/-- The record of an item. -/
def ofItem (item : ProfileItem) : Record := (item.count, item.frames)

/-- Everything but the buckets of the items, the table and the output is kept. -/
structure Flushed (d d' : ProfileData) : Prop where
  tableSize : d'.tableSize = d.tableSize
  outsize : d'.outsize = d.outsize
  next : ∀ p, (d'.items p).next = (d.items p).next
  record : ∀ p, ofItem (d'.items p) = ofItem (d.items p)

theorem flushChain_spec {xs : List Nat} {o : Option Nat} {fuel : Nat}
    (hpath : Path (fun p => (d.items p).next) o xs)
    (hfuel : xs.length ≤ fuel) (hout : Output d start recs)
    (hsize : 4 * (maxFrames + 2) ≤ d.outsize)
    (hle : ∀ p ∈ xs, (d.items p).frames.length ≤ maxFrames) :
    ∃ d', flushChain fuel o d = some d' ∧ Flushed d d' ∧ d'.table = d.table ∧
      Output d' start (recs ++ xs.map fun p => ofItem (d.items p)) := by
  induction xs generalizing d o fuel recs with
  | nil =>
    obtain rfl := hpath
    refine ⟨d, by cases fuel <;> rfl, ⟨rfl, rfl, fun p => rfl, fun p => rfl⟩, rfl, ?_⟩
    rw [List.map_nil, List.append_nil]
    exact hout
  | cons x xs ih =>
    obtain ⟨rfl, hrest⟩ := hpath
    cases fuel with
    | zero => cases hfuel
    | succ fuel =>
      obtain ⟨hwrite, hrecord⟩ :=
        hout.record hsize (r := ofItem (d.items x)) (hle x (List.mem_cons_self ..))
      set d₁ := (d.append (encode (ofItem (d.items x)))).setItem x
        { d.items x with bucket := noBucket } with hd₁
      have hkeep : ∀ p, (d₁.items p).next = (d.items p).next ∧
          ofItem (d₁.items p) = ofItem (d.items p) := by
        intro p
        rw [hd₁, setItem_items, append_items, update_apply]
        split
        · rename_i heq
          rw [heq]
          exact ⟨rfl, rfl⟩
        · exact ⟨rfl, rfl⟩
      have hframes : ∀ p, (d₁.items p).frames = (d.items p).frames := fun p =>
        congrArg Prod.snd (hkeep p).2
      have houtsize : d₁.outsize = d.outsize := by rw [hd₁, setItem_outsize, append_outsize]
      have hstep : flushChain (fuel + 1) (some x) d = flushChain fuel (d.items x).next d₁ := by
        rw [flushChain]
        have hwords : record (d.items x) = encode (ofItem (d.items x)) := rfl
        rw [hwords, hwrite, Option.bind_eq_bind, Option.bind_some, append_items]
      obtain ⟨d', hrun, hflushed, htable, hout'⟩ :=
        ih (d := d₁) (hrest.congr fun p _ => (hkeep p).1)
        (Nat.le_of_succ_le_succ hfuel) (hrecord.congr rfl rfl (by rw [houtsize, append_outsize]))
        (houtsize ▸ hsize) fun p hp => by rw [hframes]; exact hle p (List.mem_cons_of_mem _ hp)
      refine ⟨d', hstep.trans hrun, ⟨?_, ?_, ?_, ?_⟩, ?_, ?_⟩
      · rw [hflushed.tableSize, hd₁, setItem_tableSize, append_tableSize]
      · rw [hflushed.outsize, houtsize]
      · exact fun p => (hflushed.next p).trans (hkeep p).1
      · exact fun p => (hflushed.record p).trans (hkeep p).2
      · rw [htable, hd₁, setItem_table, append_table]
      · rw [List.map_cons, List.append_cons]
        simp only [(hkeep _).2] at hout'
        exact hout'

theorem flushFrom_spec {order : List Nat} {chain : Nat → List Nat} (hsized : Sized d)
    (h : Lists d order chain)
    (hsize : 4 * (maxFrames + 2) ≤ d.outsize) (buckets : Nat) :
    ∀ (i : Nat) (e : ProfileData) (recs : List Record), i + buckets = d.tableSize → Flushed d e →
      (∀ j, i ≤ j → e.table j = d.table j) → Output e start recs →
      ∃ d', flushFrom i e buckets = some d' ∧ Flushed d d' ∧
        Output d' start
          (recs ++ ((List.range' i buckets).flatMap chain).map fun p => ofItem (d.items p)) := by
  induction buckets with
  | zero =>
    intro i e recs _ hflushed _ hout
    refine ⟨e, rfl, hflushed, ?_⟩
    rw [List.range'_zero, List.flatMap_nil, List.map_nil, List.append_nil]
    exact hout
  | succ buckets ih =>
    intro i e recs hi hflushed htable hout
    have hlt : i < d.tableSize := by omega
    have hframes : ∀ p, (e.items p).frames = (d.items p).frames := fun p =>
      congrArg Prod.snd (hflushed.record p)
    have hpath := (h.path i hlt).congr fun p _ => hflushed.next p
    rw [← htable i (Nat.le_refl i)] at hpath
    have hfuel : (chain i).length ≤ e.tableSize := by
      rw [hflushed.tableSize]
      exact h.chain_length hlt
    obtain ⟨e₁, hchain, hflushed₁, htable₁, hout₁⟩ := flushChain_spec hpath hfuel hout
      (by rw [hflushed.outsize]; exact hsize) fun p hp => by
        rw [hframes]
        exact (h.entry p (h.inUse_of_mem hsized hlt hp)).frames_le
    simp only [hflushed.record] at hout₁
    obtain ⟨d', hrun, hflushed', hout'⟩ :=
      ih (i + 1) { e₁ with table := update e₁.table i none } _ (by omega)
      ⟨hflushed₁.tableSize.trans hflushed.tableSize, hflushed₁.outsize.trans hflushed.outsize,
        fun p => (hflushed₁.next p).trans (hflushed.next p),
        fun p => (hflushed₁.record p).trans (hflushed.record p)⟩
      (fun j hj => by
        dsimp only
        rw [update_of_ne (by omega), htable₁]
        exact htable j (by omega))
      (hout₁.congr rfl rfl rfl)
    refine ⟨d', ?_, hflushed', ?_⟩
    · rw [flushFrom, hchain, Option.bind_eq_bind, Option.bind_some, hrun]
    · rw [List.range'_succ, List.flatMap_cons, List.map_append, ← List.append_assoc]
      exact hout'

/-- The chains of all buckets. -/
def entries (chain : Nat → List Nat) (tableSize : Nat) : List Nat :=
  (List.range' 0 tableSize).flatMap chain

section Entries

variable {order : List Nat} {chain : Nat → List Nat} (hsized : Sized d) (h : Lists d order chain)

include hsized h

theorem mem_entries {p : Nat} : p ∈ entries chain d.tableSize ↔ InUse d p := by
  rw [entries, List.mem_flatMap]
  constructor
  · rintro ⟨i, hi, hp⟩
    rw [← List.range_eq_range', List.mem_range] at hi
    exact h.inUse_of_mem hsized hi hp
  · intro hp
    refine ⟨_, ?_, h.mem_chain hsized hp⟩
    rw [← List.range_eq_range', List.mem_range]
    exact hsized.tableIndex_lt _

theorem entries_nodup : (entries chain d.tableSize).Nodup := by
  rw [entries, List.nodup_flatMap, ← List.range_eq_range']
  constructor
  · exact fun i hi => h.nodup i (List.mem_range.mp hi)
  · refine List.nodup_range.pairwise_of_forall_ne fun i hi j hj hij => ?_
    intro p hpi hpj
    exact hij (h.chain_unique hsized (List.mem_range.mp hi) (List.mem_range.mp hj) hpi hpj)

/-- The records of the chains hold what the table has counted. -/
theorem recorded_entries (t : ProfileTrace) :
    recorded t ((entries chain d.tableSize).map fun p => ofItem (d.items p)) = live t d := by
  have hsub : (entries chain d.tableSize).toFinset ⊆ Finset.range d.tableSize := fun p hp =>
    Finset.mem_range.mpr ((mem_entries hsized h).mp (List.mem_toFinset.mp hp)).1
  rw [recorded, List.map_map, ← List.sum_toFinset _ (entries_nodup hsized h), live,
    ← Finset.sum_subset hsub]
  · refine Finset.sum_congr rfl fun p hp => ?_
    have huse := (mem_entries hsized h).mp (List.mem_toFinset.mp hp)
    simp [share, ofItem, huse.2]
  · intro p hp hnot
    refine if_neg fun hand => hnot ?_
    exact List.mem_toFinset.mpr ((mem_entries hsized h).mpr ⟨Finset.mem_range.mp hp, hand.1⟩)

end Entries

/-- The destructor writes what is left. -/
theorem destruct_spec {m : ProfileInstrMap} {traces : List ProfileTrace}
    (h : Accounts d m start recs traces) :
    ∃ d' recs', destruct d = some d' ∧ d'.file = start ++ recs'.flatMap encode ++ trailer ∧
      d'.outbuf = [] ∧
      Proper recs' ∧ ∀ t, t ≠ [] → recorded t recs' = traces.count t := by
  obtain ⟨order, chain, hlists⟩ := h.lists
  obtain ⟨e, hflush, hflushed, hout⟩ :=
    flushFrom_spec h.sized hlists h.outsize d.tableSize 0 d recs (by omega)
    ⟨rfl, rfl, fun p => rfl, fun p => rfl⟩ (fun j _ => rfl) h.output
  have htrailer : 4 * trailer.length ≤ e.outsize := by
    rw [hflushed.outsize]
    exact le_trans (show 4 * 3 ≤ 4 * (maxFrames + 2) by decide) h.outsize
  obtain ⟨hwrite, happend, -⟩ := write_appends trailer htrailer
  refine ⟨(e.append trailer).flush,
    recs ++ (entries chain d.tableSize).map fun p => ofItem (d.items p), ?_, ?_, rfl,
    ?_, ?_⟩
  · rw [destruct, flushHash, hflush, Option.bind_eq_bind, Option.bind_some, hwrite]
    rfl
  · have hfile : (e.append trailer).flush.file = (e.append trailer).file ++
        (e.append trailer).outbuf := rfl
    rw [hfile, happend, hout.words]
    rfl
  · intro r hr
    rcases List.mem_append.mp hr with hwritten | hleft
    · exact h.proper r hwritten
    · obtain ⟨p, hp, rfl⟩ := List.mem_map.mp hleft
      obtain ⟨-, hne, hle, hpos⟩ := hlists.entry p ((mem_entries h.sized hlists).mp hp)
      exact ⟨hne, hle, hpos⟩
  · intro t ht
    rw [recorded_append, ← h.total t ht]
    exact congrArg _ (recorded_entries h.sized hlists t)

end Destruction

/-- A profile of a run counts every tick once, in the record of its trace: for each trace that is
not empty, the counts of its records in the file add up to the ticks with this trace. No tick and
neither constructor nor destructor overruns the write buffer, dereferences null or loops for ever,
and after each tick the lists are whole. -/
theorem profile_counts (m : ProfileInstrMap) (bufferSize hashTableSize : Nat)
    (intervalUs : BitVec 32)
    (ticks : List (List (BitVec 64))) (hmap : m.data ≠ [])
    (hbuffer : 4 * (maxFrames + 2) ≤ bufferSize)
    (hpow : ∃ k, hashTableSize = 2 ^ k) (hsmall : hashTableSize < 2 ^ 32)
    (hticks : ticks.length < 2 ^ 32) :
    ∃ d₀ d d' recs, construct m bufferSize hashTableSize intervalUs = some d₀ ∧
      handleTicks ticks d₀ = some d ∧
      (∃ order chain, Lists d order chain) ∧ destruct d = some d' ∧
      d'.file = header intervalUs ++ recs.flatMap encode ++ trailer ∧ Proper recs ∧
      ∀ t, t ≠ [] → recorded t recs = (ticks.map (trace m)).count t := by
  obtain ⟨d₀, hconstruct, h₀⟩ :=
    construct_accounts m bufferSize hashTableSize intervalUs hpow hsmall hbuffer
  obtain ⟨d, recs, hrun, h⟩ := h₀.ticks hmap ticks (by rw [List.length_nil]; omega)
  obtain ⟨d', recs', hdestruct, hfile, -, hproper, hcounts⟩ := destruct_spec h
  exact ⟨d₀, d, d', recs', hconstruct, hrun, h.lists, hdestruct, hfile, hproper, hcounts⟩

/-- Two ticks in one function and one in the other, with a table of one item. -/
theorem profile_counts_small :
    let m : ProfileInstrMap := { baseAddress := 0, codeSize := 16, data := [⟨0, 5⟩, ⟨8, 9⟩] }
    ∃ d₀ d d' recs, construct m 1012 1 10000 = some d₀ ∧ handleTicks [[1], [9], [1]] d₀ = some d ∧
      (∃ order chain, Lists d order chain) ∧ destruct d = some d' ∧
      d'.file = header 10000 ++ recs.flatMap encode ++ trailer ∧ Proper recs ∧
      ∀ t, t ≠ [] → recorded t recs = ([[1], [9], [1]].map (trace m)).count t :=
  profile_counts { baseAddress := 0, codeSize := 16, data := [⟨0, 5⟩, ⟨8, 9⟩] } 1012 1 10000
    [[1], [9], [1]]
    (List.cons_ne_nil _ _) (by decide) ⟨0, rfl⟩ (by decide) (by decide)

end EosVm.ProfileData
