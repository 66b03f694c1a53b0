import EosVm.Source.JitControl
import EosVm.Source.Options

/-!
# The binary search for `br_table`

The code that the generator leaves is that of a comparison tree: two instructions for a range of
several labels, then the code of its halves, and the branch of the label for a range of one. The
generator emits it label by label because its stack holds the ranges that are still to come. The end
of the first range is the number of labels, which is zero when it wraps.
-/

set_option autoImplicit false

namespace EosVm

open Lib Lib.X86

/-- The code of one label. A branch that leads to it goes to its target instead when nothing has to
be popped. -/
def leafCode (c : BranchCase) (k : Nat) (labelled : Bool) : List (Lib.X86.Instr Nat) :=
  if isSimpleMultipop c then
    if labelled then [] else [.jmp (.handler k)]
  else (multipop c).map .op ++ [.jmp (.handler k)]

/-- Where a branch to a range leads when its code is at `p`. -/
def rangeEntry (cases : Nat → BranchCase) (lo size p : Nat) : Target Nat :=
  if size ≤ 1 ∧ isSimpleMultipop (cases lo) then .handler lo else .code p

theorem rangeEntry_of_many {cases : Nat → BranchCase} {lo size p : Nat} (h : 1 < size) :
    rangeEntry cases lo size p = .code p :=
  if_neg fun hfew => absurd h (Nat.not_lt.mpr hfew.1)

/-- The code at `p` for the labels from `lo` on. -/
def searchCode (cases : Nat → BranchCase) (lo size p : Nat) (labelled : Bool) :
    List (Lib.X86.Instr Nat) :=
  if _h : 1 < size then
    let mid := lo + size / 2
    let low := searchCode cases lo (size / 2) (p + 2) false
    let high := p + 2 + low.length
    .op (.cmp .w32 .rax (.imm (BitVec.ofNat 32 mid))) ::
      .jcc .ae (rangeEntry cases mid (size - size / 2) high) ::
      (low ++ searchCode cases mid (size - size / 2) high true)
  else leafCode (cases lo) lo labelled
termination_by size
decreasing_by all_goals omega

theorem searchCode_many {cases : Nat → BranchCase} {lo size p : Nat} {labelled : Bool}
    (h : 1 < size) :
    searchCode cases lo size p labelled =
      .op (.cmp .w32 .rax (.imm (BitVec.ofNat 32 (lo + size / 2)))) ::
      .jcc .ae (rangeEntry cases (lo + size / 2) (size - size / 2)
        (p + 2 + (searchCode cases lo (size / 2) (p + 2) false).length)) ::
      (searchCode cases lo (size / 2) (p + 2) false ++
        searchCode cases (lo + size / 2) (size - size / 2)
          (p + 2 + (searchCode cases lo (size / 2) (p + 2) false).length) true) := by
  rw [searchCode, dif_pos h]

theorem searchCode_leaf (cases : Nat → BranchCase) (lo p : Nat) (labelled : Bool) :
    searchCode cases lo 1 p labelled = leafCode (cases lo) lo labelled := by
  rw [searchCode, dif_neg (by omega)]

section Search

variable {code : List (Lib.X86.Instr Nat)} {cases : Nat → BranchCase} {m : Machine}

/-- The code is about to pop for label `k`, or has left for its target if there
is nothing to pop. -/
def AtCase (code : List (Lib.X86.Instr Nat)) (c : BranchCase) (k : Nat) (m : Machine)
    (config : Config Nat) : Prop :=
  (isSimpleMultipop c = true ∧ config = .exit k m) ∨
    ∃ p, config = .run p m ∧ HasCode code p ((multipop c).map .op ++ [.jmp (.handler k)])

theorem leafCode_reaches {c : BranchCase} {k p : Nat} {labelled : Bool}
    (hcode : HasCode code p (leafCode c k labelled)) :
    ∃ config,
      Runs code (if labelled then goto m (if isSimpleMultipop c then .handler k else .code p)
      else .run p m) config ∧ AtCase code c k m config := by
  unfold leafCode at hcode
  by_cases hsimple : isSimpleMultipop c = true
  · rw [if_pos hsimple] at hcode
    refine ⟨.exit k m, ?_, Or.inl ⟨hsimple, rfl⟩⟩
    cases labelled with
    | true =>
      rw [if_pos rfl, if_pos hsimple]
      exact Runs.refl _
    | false =>
      have hjmp : code[p + 0]? = some (.jmp (.handler k)) := hcode 0 _ rfl
      exact Runs.jmp hjmp
  · rw [if_neg hsimple] at hcode
    refine ⟨.run p m, ?_, Or.inr ⟨p, rfl, hcode⟩⟩
    rw [if_neg hsimple]
    cases labelled <;> exact Runs.refl _

/-- From the beginning of a range, the code gets to the label that the index names, or to the last
one if the index is beyond the range. -/
theorem searchCode_reaches {lo size p i : Nat} {labelled : Bool} (hsize : 0 < size)
    (hbound : lo + size ≤ 2 ^ 32) (hcode : HasCode code p (searchCode cases lo size p labelled))
    (hindex : (m.get .rax .w32).toNat = i) (hlo : lo ≤ i) :
    ∃ flags config, Runs code
        (if labelled then goto m (rangeEntry cases lo size p) else .run p m) config ∧
      AtCase code (cases (min i (lo + size - 1))) (min i (lo + size - 1)) (m.setFlags flags)
        config := by
  induction size using Nat.strongRecOn generalizing lo p labelled m with
  | ind size ih =>
    by_cases hmany : 1 < size
    · rw [searchCode_many hmany] at hcode
      obtain ⟨hcmp, hcode⟩ := hcode.cons
      obtain ⟨hjcc, hcode⟩ := hcode.cons
      obtain ⟨hlow, hhigh⟩ := hcode.append
      have hstart : (if labelled then goto m (rangeEntry cases lo size p) else .run p m) =
          .run p m := by
        rw [rangeEntry_of_many hmany]
        cases labelled <;> rfl
      let compared := subFlags (m.get .rax .w32) (BitVec.ofNat 32 (lo + size / 2))
      have hexec : (Op.cmp .w32 .rax (.imm (BitVec.ofNat 32 (lo + size / 2)))).exec m =
          .ok (m.setFlags compared) := by
        simp [Op.exec, Machine.operand, compared]
      have htest : Cond.ae.holds compared = decide (lo + size / 2 ≤ i) := by
        rw [Cond.holds_subFlags (by decide), Cond.compare, BitVec.ule_eq_decide, hindex,
          BitVec.toNat_ofNat, Nat.mod_eq_of_lt (show lo + size / 2 < 2 ^ 32 by omega)]
      have hindex' : ((m.setFlags compared).get .rax .w32).toNat = i := hindex
      rw [hstart]
      by_cases hupper : lo + size / 2 ≤ i
      · obtain ⟨flags, config, hrun, hcase⟩ := ih (size - size / 2) (by omega)
          (by omega) (by omega) hhigh hindex' hupper
        rw [show lo + size / 2 + (size - size / 2) - 1 = lo + size - 1 by omega] at hcase
        refine ⟨flags, config, ((Runs.op hcmp hexec).trans (Runs.taken hjcc ?_)).trans hrun, hcase⟩
        exact htest.trans (decide_eq_true hupper)
      · obtain ⟨flags, config, hrun, hcase⟩ := ih (size / 2) (by omega)
          (by omega) (by omega) hlow hindex' hlo
        rw [show min i (lo + size / 2 - 1) = min i (lo + size - 1) by omega] at hcase
        refine ⟨flags, config, ((Runs.op hcmp hexec).trans (Runs.not_taken hjcc ?_)).trans hrun,
          hcase⟩
        exact htest.trans (decide_eq_false hupper)
    · obtain rfl : size = 1 := by omega
      rw [searchCode_leaf] at hcode
      obtain ⟨config, hrun, hcase⟩ := leafCode_reaches (m := m) hcode
      rw [show min i (lo + 1 - 1) = lo by omega]
      refine ⟨m.flags, config, ?_, hcase⟩
      simpa [rangeEntry] using hrun

/-- What the code does once it is there. -/
theorem AtCase.final {c : BranchCase} {k : Nat} {config : Config Nat}
    (h : AtCase code c k m config) :
    ∃ config', Runs code config config' ∧ step code config' = config' ∧
      ∀ k' m', config' = .exit k' m' → k' = k := by
  rcases h with ⟨-, rfl⟩ | ⟨p, rfl, hcode⟩
  · refine ⟨_, Runs.refl _, rfl, ?_⟩
    rintro k' m' ⟨rfl, -⟩
    rfl
  · obtain ⟨hops, hjmp⟩ := hcode.append
    have hpops : HasOps code p (multipop c) := by
      intro i o ho
      exact hops i _ (by rw [List.getElem?_map, ho]; rfl)
    cases hexec : execOps (multipop c) m with
    | ok m' =>
      have hrun := (Runs.ops hpops hexec).trans
        (Runs.jmp (by rw [← List.length_map Lib.X86.Instr.op]; exact hjmp.cons.1))
      refine ⟨_, hrun, rfl, ?_⟩
      rintro k' m'' ⟨rfl, -⟩
      rfl
    | error e =>
      refine ⟨_, Runs.ops_fault hpops hexec, rfl, ?_⟩
      intro k' m' hexit
      cases hexit

end Search

/-- A range on the stack. -/
def rangeItem (lo size : Nat) (label : Option Nat) : StackItem :=
  ⟨BitVec.ofNat 32 lo, BitVec.ofNat 32 (lo + size), label⟩

/-- The branch of a range gets a target. -/
def patch (label : Option Nat) (target : Target Nat) (code : List (Lib.X86.Instr Nat)) :
    List (Lib.X86.Instr Nat) :=
  match label with
  | some pos => code.modify pos (Lib.X86.Instr.setTarget target)
  | none => code

@[simp] theorem patch_length (label : Option Nat) (target : Target Nat)
    (code : List (Lib.X86.Instr Nat)) :
    (patch label target code).length = code.length := by
  cases label with
  | none => rfl
  | some pos => exact List.length_modify ..

theorem patch_patch (label : Option Nat) (t t' : Target Nat) (code : List (Lib.X86.Instr Nat)) :
    patch label t' (patch label t code) = patch label t' code := by
  cases label with
  | none => rfl
  | some pos =>
    change (code.modify pos _).modify pos _ = code.modify pos _
    rw [List.modify_modify_eq]
    congr 1
    funext ins
    cases ins <;> rfl

@[simp] theorem patch_none (target : Target Nat) (code : List (Lib.X86.Instr Nat)) :
    patch none target code = code := rfl

/-- The branch behind the instruction after `code`. -/
theorem patch_second {code : List (Lib.X86.Instr Nat)} {n : Nat} (hn : code.length = n)
    (ins : Lib.X86.Instr Nat)
    (c : Cond) (target t : Target Nat) (rest : List (Lib.X86.Instr Nat)) :
    patch (some (n + 1)) target (code ++ ins :: .jcc c t :: rest) =
      code ++ ins :: .jcc c target :: rest := by
  have happend := modify_append_cons (code ++ [ins]) rest (.jcc c t)
    (Lib.X86.Instr.setTarget target)
  rw [List.length_append, hn, List.append_assoc, List.append_assoc] at happend
  exact happend

theorem run_fixLabel (label : Option Nat) (code : List (Lib.X86.Instr Nat)) :
    (fixLabel label).run code = ((), patch label (.code code.length) code) := by
  cases label <;> rfl

section Ranges

variable {lo size : Nat}

theorem rangeItem_size (h : lo + size < 2 ^ 32) (label : Option Nat) :
    ((rangeItem lo size label).max - (rangeItem lo size label).min).toNat = size := by
  change (BitVec.ofNat 32 (lo + size) - BitVec.ofNat 32 lo).toNat = size
  rw [BitVec.toNat_sub, BitVec.toNat_ofNat, BitVec.toNat_ofNat]
  omega

theorem rangeItem_mid (h : lo + size < 2 ^ 32) (label : Option Nat) :
    (rangeItem lo size label).min +
      ((rangeItem lo size label).max - (rangeItem lo size label).min) / 2 =
        BitVec.ofNat 32 (lo + size / 2) := by
  apply BitVec.eq_of_toNat_eq
  rw [BitVec.toNat_add, BitVec.toNat_udiv, rangeItem_size h]
  change ((BitVec.ofNat 32 lo).toNat + size / 2) % 2 ^ 32 = _
  rw [BitVec.toNat_ofNat, BitVec.toNat_ofNat]
  omega

/-- A range of several labels is split. -/
theorem splitRange_many (h : lo + size < 2 ^ 32) (hmany : 1 < size) (label : Option Nat)
    (stack : List StackItem) (code : List (Lib.X86.Instr Nat)) :
    (splitRange (rangeItem lo size label) stack).run code =
      (splitRange (rangeItem lo (size / 2) none)
        (rangeItem (lo + size / 2) (size - size / 2) (some (code.length + 1)) :: stack)).run
        (patch label (.code code.length) code ++
          [.op (.cmp .w32 .rax (.imm (BitVec.ofNat 32 (lo + size / 2)))), .jcc .ae (.code 0)]) := by
  have hsplit : 1 < (rangeItem lo size label).max - (rangeItem lo size label).min := by
    change 1 < ((rangeItem lo size label).max - (rangeItem lo size label).min).toNat
    rwa [rangeItem_size h]
  have hlow : (⟨(rangeItem lo size label).min, BitVec.ofNat 32 (lo + size / 2), none⟩ : StackItem) =
      rangeItem lo (size / 2) none := rfl
  have hhigh : (⟨BitVec.ofNat 32 (lo + size / 2), (rangeItem lo size label).max,
      some (code.length + 1)⟩ : StackItem) =
      rangeItem (lo + size / 2) (size - size / 2) (some (code.length + 1)) := by
    have hsum : lo + size / 2 + (size - size / 2) = lo + size := by omega
    simp only [rangeItem, hsum]
  rw [splitRange]
  simp only [run_bind, dif_pos hsplit, run_emit, run_emitBranch, rangeItem_mid h, hlow]
  have hlabel : (rangeItem lo size label).branchTarget = label := rfl
  simp only [hlabel, run_fixLabel, List.length_append, patch_length, List.length_singleton, hhigh,
    List.append_assoc, List.cons_append, List.nil_append]

theorem splitRange_few (h : lo + size < 2 ^ 32) (hfew : size ≤ 1) (label : Option Nat)
    (stack : List StackItem) (code : List (Lib.X86.Instr Nat)) :
    (splitRange (rangeItem lo size label) stack).run code =
      ((rangeItem lo size label, stack), patch label (.code code.length) code) := by
  have hone : ¬ 1 < (rangeItem lo size label).max - (rangeItem lo size label).min := by
    change ¬ 1 < ((rangeItem lo size label).max - (rangeItem lo size label).min).toNat
    rw [rangeItem_size h]
    omega
  rw [splitRange]
  simp only [run_bind, dif_neg hone]
  change ((rangeItem lo size label, stack), ((fixLabel label).run code).2) = _
  rw [run_fixLabel]

/-- The calls for a range of several labels are those for its halves. -/
theorem emitCases_many {tableSize : BitVec 32} (h : lo + size < 2 ^ 32) (hmany : 1 < size)
    (label : Option Nat) (stack : List StackItem) (k i : Nat) (c : BranchCase)
    (cases : List BranchCase) (code : List (Lib.X86.Instr Nat)) :
    emitCases tableSize k (c :: cases) ⟨i, rangeItem lo size label :: stack⟩ code =
      emitCases tableSize k (c :: cases)
        ⟨i, rangeItem lo (size / 2) none ::
          rangeItem (lo + size / 2) (size - size / 2) (some (code.length + 1)) :: stack⟩
        (patch label (.code code.length) code ++
          [.op (.cmp .w32 .rax (.imm (BitVec.ofNat 32 (lo + size / 2)))), .jcc .ae (.code 0)]) := by
  simp only [emitCases, emitLabel, emitDefault, emitCase, splitRange_many h hmany]

/-- The branch to the target, after the parser has given it one. -/
theorem emitLeaf_patched (label : Option Nat) (k : Nat) (c : BranchCase)
    (code : List (Lib.X86.Instr Nat)) :
    ((fixBranch ((emitLeaf c label).run (patch label (.code code.length) code)).1
      (.handler k)).run ((emitLeaf c label).run (patch label (.code code.length) code)).2).2 =
        patch label (if isSimpleMultipop c then .handler k else .code code.length) code ++
          leafCode c k label.isSome := by
  by_cases hsimple : isSimpleMultipop c = true
  · cases label with
    | none =>
      simp only [emitLeaf, if_pos hsimple, run_emitJmp, run_fixBranch, patch, leafCode]
      exact modify_append_cons ..
    | some pos =>
      simp only [emitLeaf, if_pos hsimple, leafCode, Option.isSome_some, if_true, List.append_nil]
      exact patch_patch (some pos) ..
  · simp only [emitLeaf, if_neg hsimple, run_bind, run_emitOps, run_emitJmp, run_fixBranch,
      leafCode]
    rw [← List.append_assoc]
    exact modify_append_cons ..

/-- The call for a range of one label, or of none. -/
theorem emitCase_few (h : lo + size < 2 ^ 32) (hfew : size ≤ 1) (label : Option Nat)
    (stack : List StackItem) (c : BranchCase) (code : List (Lib.X86.Instr Nat)) :
    emitCase c ⟨lo, rangeItem lo size label :: stack⟩ code =
      .ok (((emitLeaf c label).run (patch label (.code code.length) code)).1, ⟨lo + 1, stack⟩,
        ((emitLeaf c label).run (patch label (.code code.length) code)).2) := by
  simp only [emitCase, splitRange_few h hfew]
  exact if_pos rfl

theorem emitLabel_one {tableSize : BitVec 32} (h : lo + 1 < 2 ^ 32) (label : Option Nat)
    (stack : List StackItem)
    (hlast : lo + 1 ≤ tableSize.toNat ∨ lo + 1 = tableSize.toNat + 1 ∧ stack = [])
    (c : BranchCase) (code : List (Lib.X86.Instr Nat)) :
    emitLabel tableSize lo c ⟨lo, rangeItem lo 1 label :: stack⟩ code =
      .ok (((emitLeaf c label).run (patch label (.code code.length) code)).1, ⟨lo + 1, stack⟩,
        ((emitLeaf c label).run (patch label (.code code.length) code)).2) := by
  unfold emitLabel
  split
  next hdefault =>
    obtain rfl : stack = [] := by
      rcases hlast with hle | ⟨-, hnil⟩
      · omega
      · exact hnil
    rw [emitDefault, emitCase_few h (Nat.le_refl 1)]
    rfl
  · exact emitCase_few h (Nat.le_refl 1) ..

/-- All calls for a range emit its tree and take it off the stack. Only the last range may end with
the default. -/
theorem emitCases_range {tableSize : BitVec 32} {cases : Nat → BranchCase} (hsize : 0 < size)
    (h : lo + size < 2 ^ 32) (label : Option Nat) (stack : List StackItem)
    (hlast : lo + size ≤ tableSize.toNat ∨ lo + size = tableSize.toNat + 1 ∧ stack = [])
    (more : List BranchCase) (code : List (Lib.X86.Instr Nat)) :
    emitCases tableSize lo ((List.range' lo size).map cases ++ more)
        ⟨lo, rangeItem lo size label :: stack⟩ code =
      emitCases tableSize (lo + size) more ⟨lo + size, stack⟩
        (patch label (rangeEntry cases lo size code.length) code ++
          searchCode cases lo size code.length label.isSome) := by
  induction size using Nat.strongRecOn generalizing lo label stack more code with
  | ind size ih =>
    by_cases hmany : 1 < size
    · have hrange : List.range' lo size =
          List.range' lo (size / 2) ++ List.range' (lo + size / 2) (size - size / 2) := by
        rw [List.range'_append_1, Nat.add_sub_cancel' (by omega)]
      have hcons : (List.range' lo size).map cases ++ more =
          cases lo :: ((List.range' (lo + 1) (size - 1)).map cases ++ more) := by
        obtain ⟨k, rfl⟩ : ∃ k, size = k + 1 := ⟨size - 1, by omega⟩
        rfl
      have hmid : lo + size / 2 + (size - size / 2) = lo + size := by omega
      rw [hcons, emitCases_many h hmany, ← hcons, hrange, List.map_append, List.append_assoc,
        ih (size / 2) (by omega) (by omega) (by omega) _ _ (by omega),
        ih (size - size / 2) (by omega) (by omega) (by omega) _ _ (by rwa [hmid]), hmid,
        rangeEntry_of_many hmany, searchCode_many hmany]
      congr 1
      -- the branch after the comparison is the one that the upper half patches
      generalize hP : patch label (.code code.length) code = P
      have hlen : P.length = code.length := by rw [← hP, patch_length]
      simp only [patch_none, Option.isSome_none, Option.isSome_some, List.length_append,
        List.length_cons, List.length_nil, List.append_assoc, List.cons_append, List.nil_append,
        Nat.zero_add, Nat.reduceAdd, hlen, patch_second hlen]
      rw [show ∀ a b : Nat, a + (b + 1 + 1) = a + 2 + b by intro a b; omega]
    · obtain rfl : size = 1 := by omega
      change emitCases tableSize lo (cases lo :: more) _ _ = _
      rw [emitCases, emitLabel_one h _ _ hlast]
      change emitCases tableSize (lo + 1) more ⟨lo + 1, stack⟩
        ((fixBranch ((emitLeaf (cases lo) label).run (patch label (.code code.length) code)).1
          (.handler lo)).run ((emitLeaf (cases lo) label).run
            (patch label (.code code.length) code)).2).2 = _
      rw [emitLeaf_patched, searchCode_leaf]
      simp [rangeEntry]

end Ranges

/-- Calls may stop anywhere. -/
theorem emitCases_append (tableSize : BitVec 32) (k : Nat) (cases more : List BranchCase)
    (gen : BrTableGenerator) (code : List (Lib.X86.Instr Nat)) :
    emitCases tableSize k (cases ++ more) gen code =
      (emitCases tableSize k cases gen code >>= fun r =>
        emitCases tableSize (k + cases.length) more r.1 r.2) := by
  induction cases generalizing k gen code with
  | nil => rfl
  | cons c cases ih =>
    simp only [List.cons_append, emitCases, ih, bind_assoc, List.length_cons]
    rw [Nat.add_assoc, Nat.add_comm 1]

/-- The code pops the index, compares, and gets to the label that the index names or to the default,
and it leaves for no other target. -/
def Dispatches (code : List (Lib.X86.Instr Nat)) (cases : List BranchCase) (n : Nat) : Prop :=
  ∀ (m : Machine) (slot : BitVec 64) (stack : List (BitVec 64)), m.stack = slot :: stack →
    ∃ c flags config, cases[min (slot.setWidth 32).toNat n]? = some c ∧
      Runs code (.run 0 m) config ∧
      AtCase code c (min (slot.setWidth 32).toNat n)
        (((m.setReg .rax slot).setStack stack).setFlags flags) config ∧
      ∀ k m', Runs code (.run 0 m) (.exit k m') → k = min (slot.setWidth 32).toNat n

/-- No assertion of the generator fails on the labels that are read, and if they are all of them,
the ranges are used up and the code dispatches. -/
def BrTableCorrect (tableSize : BitVec 32) (cases : List BranchCase) : Prop :=
  ∃ gen code, brTableCode tableSize cases = .ok (gen, code) ∧
    (cases.length = tableSize.toNat + 1 →
      gen = ⟨cases.length, []⟩ ∧ Dispatches code cases tableSize.toNat)

section Table

variable {tableSize : BitVec 32} {cases : List BranchCase}

/-- Label number `k`. -/
def caseAt (cases : List BranchCase) (k : Nat) : BranchCase := cases.getD k ⟨0, none⟩

theorem map_caseAt (cases : List BranchCase) :
    (List.range' 0 cases.length).map (caseAt cases) = cases := by
  apply List.ext_getElem
  · simp
  · intro i hi hi'
    simp [caseAt, hi']

theorem tableSize_end (tableSize : BitVec 32) :
    (⟨0, tableSize + 1, none⟩ : StackItem) = rangeItem 0 (tableSize.toNat + 1) none := by
  have hend : tableSize + 1 = BitVec.ofNat 32 (0 + (tableSize.toNat + 1)) := by
    apply BitVec.eq_of_toNat_eq
    rw [BitVec.toNat_add, BitVec.toNat_ofNat, Nat.zero_add]
    rfl
  rw [rangeItem, ← hend]
  rfl

/-- The code for a table whose labels can all be read. -/
theorem brTableCode_all (hsize : tableSize.toNat + 1 < 2 ^ 32)
    (hall : cases.length = tableSize.toNat + 1) :
    brTableCode tableSize cases = .ok (⟨cases.length, []⟩,
      .op (.pop .rax) :: searchCode (caseAt cases) 0 cases.length 1 false) := by
  have hrange : emitCases tableSize 0 ((List.range' 0 cases.length).map (caseAt cases) ++ [])
      ⟨0, rangeItem 0 cases.length none :: []⟩ [.op (.pop .rax)] = _ :=
    emitCases_range (by omega) (by omega) none [] (Or.inr ⟨by omega, rfl⟩) [] _
  rw [map_caseAt, List.append_nil, hall, ← tableSize_end] at hrange
  refine Eq.trans ?_ (hrange.trans ?_)
  · rfl
  · rw [hall, Nat.zero_add]
    rfl

theorem brTableCode_dispatches (hsize : tableSize.toNat + 1 < 2 ^ 32)
    (hall : cases.length = tableSize.toNat + 1) :
    Dispatches (.op (.pop .rax) :: searchCode (caseAt cases) 0 cases.length 1 false) cases
      tableSize.toNat := by
  intro m slot stack hstack
  generalize hcode : Lib.X86.Instr.op (.pop .rax) ::
    searchCode (caseAt cases) 0 cases.length 1 false = code
  have hsearch : HasCode code 1 (searchCode (caseAt cases) 0 cases.length 1 false) := by
    intro i ins hins
    rw [← hcode, Nat.add_comm, List.getElem?_cons_succ, hins]
  have hpop : Runs code (.run 0 m) (.run 1 ((m.setReg .rax slot).setStack stack)) := by
    refine Runs.op (by rw [← hcode]; rfl) ?_
    simp only [Op.exec, hstack]
  have hindex : (((m.setReg .rax slot).setStack stack).get .rax .w32).toNat =
      (slot.setWidth 32).toNat := by
    simp [Machine.get]
  obtain ⟨flags, config, hrun, hcase⟩ := searchCode_reaches (by omega) (by omega) hsearch hindex
    (Nat.zero_le _)
  rw [show 0 + cases.length - 1 = tableSize.toNat by omega] at hcase
  have hlabel : cases[min (slot.setWidth 32).toNat tableSize.toNat]? =
      some (caseAt cases (min (slot.setWidth 32).toNat tableSize.toNat)) := by
    have hlt : min (slot.setWidth 32).toNat tableSize.toNat < cases.length := by omega
    rw [caseAt, List.getD_eq_getElem?_getD, List.getElem?_eq_getElem hlt]
    rfl
  refine ⟨_, flags, config, hlabel, hpop.trans hrun, hcase, ?_⟩
  intro k m' hexit
  obtain ⟨config', hrest, hend, hsame⟩ := hcase.final
  exact hsame k m' (((hpop.trans hrun).trans hrest).final_unique hexit hend rfl)

/-- Labels that can be read so far. -/
theorem brTableCode_some (hsize : tableSize.toNat + 1 < 2 ^ 32)
    (hlen : cases.length ≤ tableSize.toNat + 1) :
    ∃ gen code, brTableCode tableSize cases = .ok (gen, code) := by
  let more := List.replicate (tableSize.toNat + 1 - cases.length) (⟨0, none⟩ : BranchCase)
  have hall : (cases ++ more).length = tableSize.toNat + 1 := by
    rw [List.length_append, List.length_replicate]
    omega
  have hfull := brTableCode_all hsize hall
  simp only [brTableCode, emitBrTable, emitCases_append] at hfull
  obtain ⟨⟨gen, code⟩, hfirst, -⟩ := bind_eq_ok.mp hfull
  exact ⟨gen, code, hfirst⟩

/-- The end of the range is zero for a table of `2 ^ 32 - 1` labels, so the
first call uses it up. -/
theorem brTableCode_wrapped (tableSize : BitVec 32) (hsize : tableSize.toNat + 1 = 2 ^ 32)
    (c : BranchCase) :
    ∃ code, brTableCode tableSize [c] = .ok (⟨1, []⟩, code) ∧
      ∀ c' more, brTableCode tableSize (c :: c' :: more) = .error .emptyStack := by
  have hzero : (⟨0, tableSize + 1, none⟩ : StackItem) = rangeItem 0 0 none := by
    rw [tableSize_end, hsize]
    rfl
  have hfirst : ∀ code : List (Lib.X86.Instr Nat),
      emitLabel tableSize 0 c ⟨0, [rangeItem 0 0 none]⟩ code =
        .ok (((emitLeaf c none).run code).1, ⟨1, []⟩, ((emitLeaf c none).run code).2) := by
    intro code
    rw [emitLabel, if_neg (by omega)]
    exact emitCase_few (by omega) (Nat.zero_le 1) ..
  simp only [brTableCode, emitBrTable, hzero, emitCases, hfirst, ok_bind]
  refine ⟨_, rfl, ?_⟩
  intro c' more
  rw [emitLabel, if_neg (by omega)]
  rfl

/-- The generator and its code are right for every size and all labels that the parser may read,
except for a table of `2 ^ 32 - 1` labels of which two can be read. -/
theorem br_table_correct_iff (hlen : cases.length ≤ tableSize.toNat + 1) :
    BrTableCorrect tableSize cases ↔ tableSize.toNat + 1 < 2 ^ 32 ∨ cases.length ≤ 1 := by
  have hbound := tableSize.isLt
  constructor
  · rintro ⟨gen, code, hok, -⟩
    by_contra hnot
    obtain ⟨hwrap, hmany⟩ := not_or.mp hnot
    match cases, hmany with
    | c :: c' :: more, _ =>
      obtain ⟨-, -, hfails⟩ := brTableCode_wrapped tableSize (by omega) c
      rw [hfails c' more] at hok
      cases hok
    | [], hmany => exact hmany (Nat.zero_le 1)
    | [_], hmany => exact hmany (Nat.le_refl 1)
  · intro hcond
    by_cases hsize : tableSize.toNat + 1 < 2 ^ 32
    · by_cases hall : cases.length = tableSize.toNat + 1
      · exact ⟨_, _, brTableCode_all hsize hall, fun _ =>
          ⟨rfl, brTableCode_dispatches hsize hall⟩⟩
      · obtain ⟨gen, code, hok⟩ := brTableCode_some hsize hlen
        exact ⟨gen, code, hok, fun h => absurd h hall⟩
    · have hfew : cases.length ≤ 1 := hcond.resolve_left hsize
      have hnotAll : cases.length ≠ tableSize.toNat + 1 := by omega
      match cases, hfew with
      | [], _ => exact ⟨_, _, rfl, fun h => absurd h hnotAll⟩
      | [c], _ =>
        obtain ⟨code, hok, -⟩ := brTableCode_wrapped tableSize (by omega) c
        exact ⟨_, code, hok, fun h => absurd h hnotAll⟩

end Table

/-- Two labels of a table that the default options let through. -/
theorem two_labels_of_largest_table :
    4294967295 ≤ defaultOptions.maxBrTableElements ∧
      ¬ BrTableCorrect 4294967295 [⟨0, none⟩, ⟨0, none⟩] := by
  refine ⟨by decide, ?_⟩
  rintro ⟨gen, code, hok, -⟩
  obtain ⟨-, -, hfails⟩ := brTableCode_wrapped 4294967295 rfl ⟨0, none⟩
  rw [hfails] at hok
  cases hok

/-- A table of three labels, one of which has to pop. -/
theorem three_labels_correct :
    BrTableCorrect 3 [⟨0, none⟩, ⟨2, some .i32⟩, ⟨0, none⟩, ⟨1, some .i64⟩] :=
  (br_table_correct_iff (by decide)).mpr (Or.inl (by decide))

end EosVm
