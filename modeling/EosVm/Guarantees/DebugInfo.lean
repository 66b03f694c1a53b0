import EosVm.Source.DebugInfo
import Mathlib.Data.List.Pairwise

/-!
# Translation of code addresses

The binary search finds the last entry at or before an address. The table is read before its length
is looked at, so that an empty one is only safe when there is no code.
-/

set_option autoImplicit false

namespace EosVm

namespace ProfileInstrMap

section Search

variable {data : List AddrEntry} {offset : BitVec 32} {lower upper : Nat}

/-- The entry at an index is at or before the offset. -/
def StartsBefore (data : List AddrEntry) (offset : BitVec 32) (i : Nat) : Prop :=
  ∃ entry, data[i]? = some entry ∧ entry.offset ≤ offset

/-- The offset is before the entry at an index, or the table ends there. -/
def EndsBy (data : List AddrEntry) (offset : BitVec 32) (i : Nat) : Prop :=
  ∀ entry, data[i]? = some entry → offset < entry.offset

/-- What holds below at the start and of every entry at or before the offset holds of the result,
and what holds above at the start and of every entry after the offset holds of the next index. -/
theorem search_invariant {L U : Nat → Prop}
    (hle : ∀ i entry, data[i]? = some entry → entry.offset ≤ offset → L i)
    (hgt : ∀ i entry, data[i]? = some entry → offset < entry.offset → U i)
    (hlt : lower < upper) (hupper : upper ≤ data.length) (hlower : L lower) (habove : U upper) :
    ∃ i, search data offset lower upper = some i ∧ L i ∧ U (i + 1) := by
  fun_induction search data offset lower upper with
  | case1 lower upper hwide mid hnone =>
    have hmid : mid < data.length := by omega
    exact absurd hnone (by rw [List.getElem?_eq_getElem hmid]; exact Option.some_ne_none _)
  | case2 lower upper hwide mid entry hentry hbefore ih =>
    exact ih (by omega) hupper (hle mid entry hentry hbefore) habove
  | case3 lower upper hwide mid entry hentry hafter ih =>
    exact ih (by omega) (by omega) hlower (hgt mid entry hentry (BitVec.not_le.mp hafter))
  | case4 lower upper hnarrow =>
    obtain rfl : upper = lower + 1 := by omega
    exact ⟨lower, rfl, hlower, habove⟩

/-- The loop keeps an entry at or before the offset below and one after it, or the end, above. -/
theorem search_spec (hlt : lower < upper) (hupper : upper ≤ data.length)
    (hbefore : StartsBefore data offset lower) (hafter : EndsBy data offset upper) :
    ∃ i, search data offset lower upper = some i ∧ StartsBefore data offset i ∧
      EndsBy data offset (i + 1) := by
  refine search_invariant (fun i entry hentry hle => ⟨entry, hentry, hle⟩) ?_ hlt hupper hbefore
    hafter
  intro i entry hentry hgt e he
  obtain rfl := Option.some.inj (hentry.symm.trans he)
  exact hgt

theorem sorted_le (h : data.Pairwise fun lhs rhs => lhs.offset ≤ rhs.offset) {i j : Nat}
    (hij : i ≤ j)
    {a b : AddrEntry} (ha : data[i]? = some a) (hb : data[j]? = some b) : a.offset ≤ b.offset := by
  rcases Nat.eq_or_lt_of_le hij with rfl | hlt
  · obtain rfl := Option.some.inj (ha.symm.trans hb)
    exact BitVec.le_refl _
  · obtain ⟨hi, rfl⟩ := List.getElem?_eq_some_iff.mp ha
    obtain ⟨hj, rfl⟩ := List.getElem?_eq_some_iff.mp hb
    exact List.pairwise_iff_getElem.mp h i j hi hj hlt

end Search

section Translate

variable {m : ProfileInstrMap} {pc : BitVec 64}

/-- The distance of an address from the base of the code. -/
def diff (m : ProfileInstrMap) (pc : BitVec 64) : Nat := (pc - m.baseAddress).toNat

/-- In the code, `translate` answers with the last entry at or before the address. -/
theorem translate_found (hsorted : m.data.Pairwise fun lhs rhs => lhs.offset ≤ rhs.offset)
    (hcode : m.diff pc < m.codeSize.toNat) (hsmall : m.diff pc < 2 ^ 32) {entry : AddrEntry}
    (hmem : entry ∈ m.data) (hle : entry.offset.toNat ≤ m.diff pc) :
    ∃ (i : Nat) (found : AddrEntry), m.data[i]? = some found ∧
      m.translate pc = some found.wasmAddr ∧
      found.offset.toNat ≤ m.diff pc ∧
      ∀ (j : Nat) (e : AddrEntry), m.data[j]? = some e → e.offset.toNat ≤ m.diff pc → j ≤ i := by
  obtain ⟨k, hk⟩ := List.getElem?_of_mem hmem
  obtain ⟨hlen, -⟩ := List.getElem?_eq_some_iff.mp hk
  obtain ⟨first, hfirst⟩ : ∃ first, m.data[0]? = some first :=
    ⟨_, List.getElem?_eq_getElem (by omega)⟩
  have hoffset : ((pc - m.baseAddress).setWidth 32).toNat = m.diff pc := by
    rw [BitVec.toNat_setWidth]
    exact Nat.mod_eq_of_lt hsmall
  have hfirst_le : first.offset.toNat ≤ m.diff pc :=
    le_trans (BitVec.le_def.mp (sorted_le hsorted (Nat.zero_le k) hfirst hk)) hle
  have hstart : StartsBefore m.data ((pc - m.baseAddress).setWidth 32) 0 :=
    ⟨first, hfirst, BitVec.le_def.mpr (hoffset ▸ hfirst_le)⟩
  have hend : EndsBy m.data ((pc - m.baseAddress).setWidth 32) m.data.length :=
    fun e he => absurd he (by simp)
  obtain ⟨i, hsearch, ⟨found, hfound, hstarts⟩, hends⟩ :=
    search_spec (by omega) (Nat.le_refl _) hstart hend
  rw [BitVec.le_def, hoffset] at hstarts
  refine ⟨i, found, hfound, ?_, hstarts, ?_⟩
  · have hin : ¬ m.codeSize ≤ pc - m.baseAddress := by
      rw [BitVec.le_def]
      exact Nat.not_le.mpr hcode
    have hnot : ¬ pc - m.baseAddress < first.offset.setWidth 64 := by
      rw [BitVec.lt_def, BitVec.toNat_setWidth_of_le (by decide)]
      exact Nat.not_lt.mpr hfirst_le
    simp [translate, hin, hfirst, hnot, hsearch, hfound]
  · intro j e he hje
    by_contra hlt
    obtain ⟨hj, -⟩ := List.getElem?_eq_some_iff.mp he
    obtain ⟨next, hnext⟩ : ∃ next, m.data[i + 1]? = some next :=
      ⟨_, List.getElem?_eq_getElem (by omega)⟩
    have hafter := BitVec.lt_def.mp (hends next hnext)
    have hnext_le := BitVec.le_def.mp (sorted_le hsorted (by omega) hnext he)
    omega

theorem translate_outside (hcode : m.codeSize.toNat ≤ m.diff pc) :
    m.translate pc = some noAddress := by
  have hle : m.codeSize ≤ pc - m.baseAddress := BitVec.le_def.mpr hcode
  simp [translate, hle]

theorem translate_before (hne : m.data ≠ []) (hall : ∀ e ∈ m.data, m.diff pc < e.offset.toNat) :
    m.translate pc = some noAddress := by
  obtain ⟨first, rest, hdata⟩ := List.exists_cons_of_ne_nil hne
  have hlt : pc - m.baseAddress < first.offset.setWidth 64 := by
    rw [BitVec.lt_def, BitVec.toNat_setWidth_of_le (by decide)]
    exact hall first (hdata ▸ List.mem_cons_self)
  simp [translate, hdata, hlt]

theorem translate_empty (hcode : m.diff pc < m.codeSize.toNat) (hdata : m.data = []) :
    m.translate pc = none := by
  have hin : ¬ m.codeSize ≤ pc - m.baseAddress := by
    rw [BitVec.le_def]
    exact Nat.not_le.mpr hcode
  simp [translate, hin, hdata]

end Translate

section Exact

variable {m : ProfileInstrMap} {pc : BitVec 64} {b : InstrMapBuilder}

def InCode (m : ProfileInstrMap) (pc : BitVec 64) : Prop :=
  m.baseAddress.toNat ≤ pc.toNat ∧ pc.toNat < m.baseAddress.toNat + m.codeSize.toNat

/-- The code is in the address space. -/
def Mapped (m : ProfileInstrMap) : Prop := m.baseAddress.toNat + m.codeSize.toNat ≤ 2 ^ 64

/-- An address outside the code is further from the base than the code is long,
also below the base. -/
theorem inCode_iff (h : m.Mapped) : m.InCode pc ↔ m.diff pc < m.codeSize.toNat := by
  unfold Mapped at h
  unfold InCode diff
  rw [BitVec.toNat_sub]
  omega

theorem diff_of_inCode (h : m.InCode pc) : m.diff pc = pc.toNat - m.baseAddress.toNat := by
  obtain ⟨hle, -⟩ := h
  unfold diff
  rw [BitVec.toNat_sub]
  omega

/-- `translate` has a result. It is `0xFFFFFFFF` exactly outside the code and before the smallest
offset, and otherwise the wasm address of an entry with the greatest offset that is not above the
address. -/
def Translates (m : ProfileInstrMap) (data : List AddrEntry) (pc : BitVec 64) : Prop :=
  ∃ addr, m.translate pc = some addr ∧
    (addr = noAddress ↔ ¬ m.InCode pc ∨
      ∀ e ∈ data, pc.toNat - m.baseAddress.toNat < e.offset.toNat) ∧
    (m.InCode pc → (∃ e ∈ data, e.offset.toNat ≤ pc.toNat - m.baseAddress.toNat) →
      ∃ found ∈ data, addr = found.wasmAddr ∧ found.offset.toNat ≤ pc.toNat - m.baseAddress.toNat ∧
        ∀ e ∈ data, e.offset.toNat ≤ pc.toNat - m.baseAddress.toNat →
          e.offset.toNat ≤ found.offset.toNat)

/-- After `set`, in whatever order `std::sort` leaves the entries, and after any relocations, every
address is translated. -/
def TranslatesAll (b : InstrMapBuilder) : Prop :=
  ∀ sorted, SortedByOffset b.data sorted → ∀ bases : List (BitVec 64),
    (bases.foldl relocate (set b sorted)).Mapped →
    ∀ pc, (bases.foldl relocate (set b sorted)).Translates b.data pc

theorem foldl_relocate (m : ProfileInstrMap) (bases : List (BitVec 64)) :
    (bases.foldl relocate m).data = m.data ∧ (bases.foldl relocate m).codeSize = m.codeSize := by
  induction bases generalizing m with
  | nil => exact ⟨rfl, rfl⟩
  | cons base bases ih => exact ih (m.relocate base)

/-- The addresses of the code are translated when the table is not empty and holds no `0xFFFFFFFF`
that could be found. -/
theorem translates_of_entries (hm : m.Mapped) (hsize : m.codeSize.toNat ≤ 2 ^ 32)
    {data : List AddrEntry}
    (hsorted : SortedByOffset data m.data) (hne : data ≠ [])
    (haddr : ∀ e ∈ data, e.offset.toNat < m.codeSize.toNat → e.wasmAddr ≠ noAddress) :
    m.Translates data pc := by
  obtain ⟨hperm, hpairwise⟩ := hsorted
  by_cases hin : m.InCode pc
  · have hdiff := diff_of_inCode hin
    have hcode := (inCode_iff hm).mp hin
    by_cases hbefore : ∀ e ∈ data, pc.toNat - m.baseAddress.toNat < e.offset.toNat
    · refine ⟨noAddress, translate_before ?_ ?_, iff_of_true rfl (.inr hbefore), ?_⟩
      · intro hnil
        exact hne (List.perm_nil.mp (hnil ▸ hperm).symm)
      · intro e he
        exact hdiff ▸ hbefore e (hperm.mem_iff.mp he)
      · rintro - ⟨e, he, hle⟩
        exact absurd (hbefore e he) (Nat.not_lt.mpr hle)
    · obtain ⟨e, he, hle⟩ : ∃ e ∈ data, e.offset.toNat ≤ pc.toNat - m.baseAddress.toNat := by
        simpa only [not_forall, Nat.not_lt, exists_prop] using hbefore
      obtain ⟨i, found, hfound, htranslate, hfound_le, hlast⟩ :=
        translate_found hpairwise hcode (by omega) (hperm.mem_iff.mpr he) (hdiff ▸ hle)
      have hmem := hperm.mem_iff.mp (List.mem_of_getElem? hfound)
      refine ⟨found.wasmAddr, htranslate, ?_, ?_⟩
      · exact iff_of_false (haddr found hmem (by omega)) (not_or.mpr ⟨not_not.mpr hin, hbefore⟩)
      · rintro - -
        refine ⟨found, hmem, rfl, hdiff ▸ hfound_le, ?_⟩
        intro e' he' hle'
        obtain ⟨j, hj⟩ := List.getElem?_of_mem (hperm.mem_iff.mpr he')
        exact BitVec.le_def.mp (sorted_le hpairwise (hlast j e' hj (hdiff ▸ hle')) hj hfound)
  · have hout : m.codeSize.toNat ≤ m.diff pc := Nat.not_lt.mp (mt (inCode_iff hm).mpr hin)
    exact ⟨noAddress, translate_outside hout, iff_of_true rfl (.inl hin), fun h => absurd h hin⟩

/-- The order in which `0xFFFFFFFF` comes last among the entries of one offset. -/
def noAddressLast (a b : AddrEntry) : Bool :=
  a.offset.toNat < b.offset.toNat ||
    (a.offset == b.offset && (a.wasmAddr != noAddress || b.wasmAddr == noAddress))

theorem noAddressLast_sorts (data : List AddrEntry) :
    SortedByOffset data (data.mergeSort noAddressLast) ∧
      (data.mergeSort noAddressLast).Pairwise fun a b => noAddressLast a b = true := by
  have hpairwise : (data.mergeSort noAddressLast).Pairwise fun a b => noAddressLast a b = true := by
    apply List.pairwise_mergeSort
    · intro a b c hab hbc
      simp only [noAddressLast, Bool.or_eq_true, Bool.and_eq_true, decide_eq_true_eq, beq_iff_eq,
        bne_iff_ne] at hab hbc ⊢
      rcases hab with hab | ⟨hab, ha⟩
      · rcases hbc with hbc | ⟨hbc, hb⟩
        · exact .inl (hab.trans hbc)
        · exact .inl (hbc ▸ hab)
      · rcases hbc with hbc | ⟨hbc, hb⟩
        · exact .inl (hab ▸ hbc)
        · refine .inr ⟨hab.trans hbc, ?_⟩
          rcases ha with ha | ha
          · exact .inl ha
          · exact .inr (hb.resolve_left (not_not.mpr ha))
    · intro a b
      simp only [noAddressLast, Bool.or_eq_true, Bool.and_eq_true, decide_eq_true_eq, beq_iff_eq,
        bne_iff_ne]
      rcases Nat.lt_trichotomy a.offset.toNat b.offset.toNat with hlt | heq | hgt
      · exact .inl (.inl hlt)
      · have hoffset := BitVec.eq_of_toNat_eq heq
        by_cases ha : a.wasmAddr = noAddress
        · exact .inr (.inr ⟨hoffset.symm, .inr ha⟩)
        · exact .inl (.inr ⟨hoffset, .inl ha⟩)
      · exact .inr (.inl hgt)
  refine ⟨⟨List.mergeSort_perm _ _, hpairwise.imp ?_⟩, hpairwise⟩
  intro a b hab
  simp only [noAddressLast, Bool.or_eq_true, Bool.and_eq_true, decide_eq_true_eq, beq_iff_eq] at hab
  rcases hab with hab | ⟨hab, -⟩
  · exact BitVec.le_def.mpr (Nat.le_of_lt hab)
  · exact hab ▸ BitVec.le_refl _

/-- The map with the code at the start of the address space and `0xFFFFFFFF` last. -/
def lowMap (b : InstrMapBuilder) : ProfileInstrMap :=
  (set b (b.data.mergeSort noAddressLast)).relocate 0#64

theorem lowMap_diff (b : InstrMapBuilder) (pc : BitVec 64) : (lowMap b).diff pc = pc.toNat := by
  simp only [lowMap, diff, relocate, BitVec.sub_zero]

theorem TranslatesAll.low (h : TranslatesAll b) (hsize : b.codeSize.toNat ≤ 2 ^ 32)
    (pc : BitVec 64) : (lowMap b).Translates b.data pc := by
  refine h _ (noAddressLast_sorts b.data).1 [0#64] ?_ pc
  simp only [Mapped, List.foldl_cons, List.foldl_nil, relocate, set, BitVec.toNat_zero]
  omega

theorem TranslatesAll.ne_nil (h : TranslatesAll b) (hsize : b.codeSize.toNat ≤ 2 ^ 32)
    (hpos : 0 < b.codeSize.toNat) : b.data ≠ [] := by
  intro hnil
  obtain ⟨addr, haddr, -⟩ := h.low hsize 0#64
  have hnone : (lowMap b).translate 0#64 = none :=
    translate_empty (by rw [lowMap_diff]; exact hpos) (by simp [lowMap, relocate, set, hnil])
  rw [hnone] at haddr
  cases haddr

theorem TranslatesAll.ne_noAddress (h : TranslatesAll b) (hsize : b.codeSize.toNat ≤ 2 ^ 32)
    {e : AddrEntry} (he : e ∈ b.data) (hlt : e.offset.toNat < b.codeSize.toNat) :
    e.wasmAddr ≠ noAddress := by
  intro hno
  obtain ⟨hsorted, hlast⟩ := noAddressLast_sorts b.data
  have hpc : (e.offset.setWidth 64).toNat = e.offset.toNat :=
    BitVec.toNat_setWidth_of_le (by decide)
  have hdiff : (lowMap b).diff (e.offset.setWidth 64) = e.offset.toNat :=
    (lowMap_diff _ _).trans hpc
  have hmem := hsorted.1.mem_iff.mpr he
  obtain ⟨i, found, hfound, htranslate, hfound_le, hafter⟩ :=
    @translate_found (lowMap b) (e.offset.setWidth 64) hsorted.2 (hdiff ▸ hlt)
      (hdiff ▸ e.offset.isLt) e hmem (Nat.le_of_eq hdiff.symm)
  rw [hdiff] at hfound_le hafter
  -- what is found does not come before `e`
  have hsentinel : found.wasmAddr = noAddress := by
    obtain ⟨j, hj⟩ := List.getElem?_of_mem hmem
    rcases Nat.eq_or_lt_of_le (hafter j e hj (Nat.le_refl _)) with rfl | hji
    · obtain rfl := Option.some.inj (hj.symm.trans hfound)
      exact hno
    · obtain ⟨hj', rfl⟩ := List.getElem?_eq_some_iff.mp hj
      obtain ⟨hi', rfl⟩ := List.getElem?_eq_some_iff.mp hfound
      have hpair := List.pairwise_iff_getElem.mp hlast j i hj' hi' hji
      simp only [noAddressLast, Bool.or_eq_true, Bool.and_eq_true, decide_eq_true_eq, beq_iff_eq,
        bne_iff_ne] at hpair
      rcases hpair with hpair | ⟨-, hpair⟩
      · exact absurd hpair (Nat.not_lt.mpr hfound_le)
      · exact hpair.resolve_left (not_not.mpr hno)
  obtain ⟨addr, haddr, hiff, -⟩ := h.low hsize (e.offset.setWidth 64)
  obtain rfl := Option.some.inj (htranslate.symm.trans haddr)
  rcases hiff.mp hsentinel with hout | hbefore
  · refine hout ⟨Nat.zero_le _, ?_⟩
    simp only [lowMap, relocate, set, BitVec.toNat_zero, Nat.zero_add, hpc]
    exact hlt
  · have hself := hbefore e he
    simp only [lowMap, relocate, BitVec.toNat_zero, hpc, Nat.sub_zero] at hself
    exact Nat.lt_irrefl _ hself

/-- Every address is translated, for every list of entries and every relocation, exactly when there
is no code, or the table is not empty and no entry in the code has the address `0xFFFFFFFF`. The
code is in the arena of the allocator, which is smaller than what an offset can express. -/
theorem instr_map_translates_iff (hsize : b.codeSize.toNat ≤ 2 ^ 32) :
    TranslatesAll b ↔ b.codeSize.toNat = 0 ∨
      (b.data ≠ [] ∧ ∀ e ∈ b.data, e.offset.toNat < b.codeSize.toNat → e.wasmAddr ≠ noAddress) := by
  constructor
  · intro hall
    rcases Nat.eq_zero_or_pos b.codeSize.toNat with hzero | hpos
    · exact .inl hzero
    · exact .inr ⟨hall.ne_nil hsize hpos, fun e he hlt => hall.ne_noAddress hsize he hlt⟩
  · intro hcond sorted hsorted bases hmapped pc
    obtain ⟨hdata, hcodeSize⟩ := foldl_relocate (set b sorted) bases
    have hcode : (bases.foldl relocate (set b sorted)).codeSize.toNat = b.codeSize.toNat := by
      rw [hcodeSize]
      rfl
    rcases hcond with hzero | ⟨hne, haddr⟩
    · -- without code every address is outside
      have hout : ¬ (bases.foldl relocate (set b sorted)).InCode pc := by
        rintro ⟨hle, hlt⟩
        omega
      exact ⟨noAddress, translate_outside (by omega), iff_of_true rfl (.inl hout),
        fun h => absurd h hout⟩
    · exact translates_of_entries hmapped (by omega) (hdata ▸ hsorted) hne (hcode ▸ haddr)

/-- The map of a module with a code section without functions: the writer has
emitted its handlers. -/
def handlersOnly : InstrMapBuilder := (({} : InstrMapBuilder).onCodeStart 0x1000 0).onCodeEnd 0x10a0

theorem handlersOnly_not_translated :
    (set handlersOnly []).InCode 0x1010 ∧ (set handlersOnly []).translate 0x1010 = none ∧
      ¬ TranslatesAll handlersOnly := by
  have hmapped : (set handlersOnly []).Mapped := by
    unfold Mapped
    decide
  have hin : (set handlersOnly []).InCode 0x1010 := by
    unfold InCode
    decide
  have hnone := translate_empty ((inCode_iff hmapped).mp hin) rfl
  refine ⟨hin, hnone, fun h => ?_⟩
  obtain ⟨addr, haddr, -⟩ := h [] ⟨List.Perm.nil, List.Pairwise.nil⟩ [] hmapped 0x1010
  rw [List.foldl_nil, hnone] at haddr
  cases haddr

/-- A function of two instructions. -/
def twoInstrs : InstrMapBuilder :=
  ((((({} : InstrMapBuilder).onCodeStart 0x1000 0).onFunctionStart 0x10a0 0x20).onInstrStart
    0x10a8 0x22).onInstrStart 0x10b0 0x23).onCodeEnd 0x10c0

theorem twoInstrs_translated : TranslatesAll twoInstrs :=
  (instr_map_translates_iff (by decide)).mpr (.inr (by decide))

end Exact

end ProfileInstrMap

end EosVm
