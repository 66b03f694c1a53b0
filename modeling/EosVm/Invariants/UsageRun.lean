import EosVm.Invariants.StackBound

/-!
# Byte accounting of the operand stack

The byte counter covers the locals and every operand that was pushed outside unreachable code, as
long as `unreachable_depth` is the number of unreachable tags. It is, unless code that is already
unreachable starts to be unreachable again in the same scope.
-/

set_option autoImplicit false

namespace EosVm

open Lib

variable {W : CodeWriter}

/-- The bytes of the operands on a stack. -/
def stackBytes : List StackEntry → Nat
  | [] => 0
  | .operand t :: rest => t.size + stackBytes rest
  | _ :: rest => stackBytes rest

/-- The bytes of the operands with no unreachable tag below them. -/
def liveBytes : List StackEntry → Nat
  | [] => 0
  | .operand t :: rest => (if unreachableTags rest = 0 then t.size else 0) + liveBytes rest
  | _ :: rest => liveBytes rest

/-- Operands of any type only stand in unreachable code. -/
def AnyDead : List StackEntry → Prop
  | [] => True
  | .operand .any :: rest => unreachableTags rest ≠ 0 ∧ AnyDead rest
  | _ :: rest => AnyDead rest

theorem AnyDead.tail {state : List StackEntry} (h : AnyDead state) : AnyDead state.tail := by
  unfold AnyDead at h
  split at h
  · trivial
  · exact h.2
  · exact h

theorem AnyDead.scopeBase {state : List StackEntry} (h : AnyDead state) :
    AnyDead (Tracker.scopeBase state) := by
  induction state with
  | nil => trivial
  | cons entry rest ih =>
    cases entry with
    | scopeTag => exact h
    | unreachableTag => exact ih h
    | operand t => exact ih h.tail

/-- In live code every operand counts. -/
theorem liveBytes_eq {state : List StackEntry} (h : unreachableTags state = 0) :
    liveBytes state = stackBytes state := by
  induction state with
  | nil => rfl
  | cons entry rest ih =>
    cases entry with
    | scopeTag => exact ih (by simpa using h)
    | unreachableTag => simp at h
    | operand t =>
      rw [unreachableTags_operand] at h
      rw [liveBytes, stackBytes, if_pos h, ih h]

theorem liveBytes_scopeBase_le (state : List StackEntry) :
    liveBytes (Tracker.scopeBase state) ≤ liveBytes state := by
  induction state with
  | nil => exact le_refl _
  | cons entry rest ih =>
    cases entry with
    | scopeTag => exact le_refl _
    | unreachableTag => exact ih
    | operand t => exact le_trans ih (Nat.le_add_left _ _)

theorem add32_one {n : Nat} (h : n + 1 < 2 ^ 32) : add32 n 1 = n + 1 := by
  unfold add32
  exact Nat.mod_eq_of_lt h

theorem sub32_one {n : Nat} (h : n + 1 < 2 ^ 32) : sub32 (n + 1) 1 = n := by
  unfold sub32
  omega

/-- Adding a size that passes the check does not wrap around. -/
theorem LocalBytesChecker.add_eq_ok {o : Options} {limit : UnsignedOption}
    (hl : o.maxFuncLocalBytes = some limit) {c c' : LocalBytesChecker} {size : Nat}
    (hfits : c.count < 2 ^ limit.width) (h : c.add o size = .ok c') :
    c' = { c with count := c.count + size } ∧ c.count + size < 2 ^ limit.width := by
  simp only [add, hl, bind_eq_ok, vmAssert_eq_ok, pure_eq_ok, exists_const, Bool.and_eq_true,
    decide_eq_true_eq] at h
  obtain ⟨⟨-, hge⟩, rfl⟩ := h
  have hpos : 0 < 2 ^ limit.width := Nat.two_pow_pos _
  have hlt : c.count + size < 2 ^ limit.width := by
    by_contra hover
    have hsize : size < 2 ^ limit.width := lt_of_le_of_lt hge (Nat.mod_lt _ hpos)
    rw [Nat.mod_eq_sub_mod (by omega), Nat.mod_eq_of_lt (by omega)] at hge
    omega
  exact ⟨by rw [Nat.mod_eq_of_lt hlt], hlt⟩

/-- The bytes counted so far cover the locals and the live operands. -/
structure Tracker.Accounts (limit : UnsignedOption) (locals : Nat) (tr : Tracker) : Prop where
  depth : tr.localBytesChecker.unreachableDepth = unreachableTags tr.state
  count : locals + liveBytes tr.state ≤ tr.localBytesChecker.count
  fits : tr.localBytesChecker.count < 2 ^ limit.width
  usage : tr.localBytesChecker.count ≤ tr.stackUsageMax
  any : AnyDead tr.state

/-- The options that account for the stack in bytes. -/
structure Options.ByteMode (o : Options) (limit : UnsignedOption) : Prop where
  stackBytes : o.maxStackBytes.isSome = true
  localBytes : o.maxFuncLocalBytes = some limit
  locals : o.maxFuncLocalBytesFlags.locals = true
  stack : o.maxFuncLocalBytesFlags.stack = true

section

variable {o : Options} {d : OperandType → Nat} {limit : UnsignedOption} {locals : Nat}
  {tr tr' : Tracker}

theorem Tracker.updateUsage_eq (ho : o.ByteMode limit) (tr : Tracker) :
    tr.updateUsage o =
      { tr with stackUsageMax := max tr.localBytesChecker.count tr.stackUsageMax } := by
  obtain ⟨bytes, hb⟩ := Option.isSome_iff_exists.mp ho.stackBytes
  simp only [updateUsage, hb]

/-- The counter counts outside unreachable code. -/
theorem Tracker.Accounts.countsStack (ho : o.ByteMode limit) (h : tr.Accounts limit locals) :
    tr.localBytesChecker.countsStack o = decide (unreachableTags tr.state = 0) := by
  simp [LocalBytesChecker.countsStack, ho.stack, h.depth, beq_eq_decide]

theorem Tracker.Accounts.push (ho : o.ByteMode limit) {type : OperandType}
    (h : tr.Accounts limit locals) (hany : type = .any → unreachableTags tr.state ≠ 0)
    (hrun : tr.push o d type = .ok tr') : tr'.Accounts limit locals := by
  obtain ⟨-, checker, hchecker, rfl⟩ := push_cases hrun
  rw [updateUsage_eq ho]
  have hdead : AnyDead (.operand type :: tr.state) := by
    cases type with
    | any => exact ⟨hany rfl, h.any⟩
    | val t => exact h.any
  rw [LocalBytesChecker.pushStack, h.countsStack ho] at hchecker
  by_cases hlive : unreachableTags tr.state = 0
  · simp only [hlive, decide_true, if_true] at hchecker
    obtain ⟨rfl, hlt⟩ := LocalBytesChecker.add_eq_ok ho.localBytes h.fits hchecker
    have hcount := h.count
    refine ⟨?_, ?_, hlt, le_max_left _ _, hdead⟩
    · simpa using h.depth
    · simp only [liveBytes, hlive, if_true]
      omega
  · simp only [hlive, decide_false] at hchecker
    obtain rfl : tr.localBytesChecker = checker := by simpa using hchecker
    refine ⟨?_, ?_, h.fits, le_max_left _ _, hdead⟩
    · simpa using h.depth
    · simpa [liveBytes, hlive] using h.count

theorem Tracker.Accounts.pushVal (ho : o.ByteMode limit) {type : ValType}
    (h : tr.Accounts limit locals) (hrun : tr.push o d (.val type) = .ok tr') :
    tr'.Accounts limit locals := by
  refine h.push ho ?_ hrun
  intro ht
  cases ht

/-- Removing an operand as the type it has, or any operand in unreachable code. -/
theorem Tracker.Accounts.remove (ho : o.ByteMode limit) {entry type : OperandType}
    {rest : List StackEntry} (h : tr.Accounts limit locals)
    (hstate : tr.state = .operand entry :: rest)
    (htype : unreachableTags rest = 0 → entry = type) :
    (tr.remove o d type).Accounts limit locals := by
  have hcounts := h.countsStack ho
  have hdepth := h.depth
  have hcount := h.count
  have hfits := h.fits
  have husage := h.usage
  have hany := h.any.tail
  rw [hstate] at hcounts hdepth hcount hany
  simp only [unreachableTags_operand, List.tail_cons, liveBytes] at hcounts hdepth hcount hany
  by_cases hlive : unreachableTags rest = 0
  · obtain rfl := htype hlive
    simp only [hlive, if_true] at hcount
    have hpop : tr.localBytesChecker.popStack o entry =
        { tr.localBytesChecker with count := tr.localBytesChecker.count - entry.size } := by
      simp only [LocalBytesChecker.popStack, ho.localBytes, hcounts, hlive, decide_true, if_true]
      rw [show tr.localBytesChecker.count + 2 ^ limit.width - entry.size =
        tr.localBytesChecker.count - entry.size + 2 ^ limit.width by omega, Nat.add_mod_right,
        Nat.mod_eq_of_lt (by omega)]
    constructor <;> simp only [Tracker.remove, hpop, hstate, List.tail_cons]
    · exact hdepth
    · omega
    · omega
    · omega
    · exact hany
  · have hpop : tr.localBytesChecker.popStack o type = tr.localBytesChecker := by
      simp only [LocalBytesChecker.popStack, ho.localBytes, hcounts, hlive, decide_false]
      rfl
    simp only [hlive, if_false] at hcount
    constructor <;> simp only [Tracker.remove, hpop, hstate, List.tail_cons]
    · exact hdepth
    · omega
    · exact hfits
    · exact husage
    · exact hany

theorem Tracker.Accounts.pop (ho : o.ByteMode limit) {expected : Option ValType}
    (h : tr.Accounts limit locals) (hrun : tr.pop o d expected = .ok tr') :
    tr'.Accounts limit locals := by
  cases expected with
  | none =>
    rw [← Except.ok.inj hrun]
    exact h
  | some type =>
    rcases pop_cases hrun with ⟨rest, -, rfl⟩ | ⟨entry, rest, hstate, hentry, rfl⟩
    · exact h
    · refine h.remove ho hstate fun hlive => ?_
      rcases hentry with rfl | rfl
      · rfl
      · have hany := h.any
        rw [hstate] at hany
        exact absurd hlive hany.1

theorem Tracker.closeUnreachable_cases (tr : Tracker) :
    (tr.closeUnreachable = tr) ∨ ∃ rest, tr.state = .unreachableTag :: rest ∧
      tr.closeUnreachable.state = rest ∧ tr.closeUnreachable.stackUsageMax = tr.stackUsageMax ∧
      tr.closeUnreachable.localBytesChecker = tr.localBytesChecker.popUnreachable := by
  unfold Tracker.closeUnreachable
  split
  next rest hstate => exact Or.inr ⟨rest, hstate, rfl, rfl, rfl⟩
  · exact Or.inl rfl

theorem Tracker.Accounts.closeUnreachable (h : tr.Accounts limit locals)
    (htags : unreachableTags tr.state < 2 ^ 32) : tr.closeUnreachable.Accounts limit locals := by
  rcases tr.closeUnreachable_cases with heq | ⟨rest, hstate, hrest, husage, hchecker⟩
  · rw [heq]
    exact h
  · have hdepth := h.depth
    have hcount := h.count
    have hany := h.any
    rw [hstate] at hdepth hcount hany htags
    rw [unreachableTags_unreachableTag] at hdepth htags
    have hclosed : sub32 tr.localBytesChecker.unreachableDepth 1 = unreachableTags rest := by
      rw [hdepth]
      exact sub32_one htags
    constructor <;> simp only [hrest, husage, hchecker, LocalBytesChecker.popUnreachable]
    · exact hclosed
    · exact hcount
    · exact h.fits
    · exact h.usage
    · exact hany

/-- The call starts unreachable code in a scope whose code is already unreachable. -/
def TrackerOp.Restarts (tr : Tracker) : TrackerOp → Prop
  | .startUnreachable => .unreachableTag ∈ tr.state.takeWhile (· ≠ .scopeTag)
  | _ => False

theorem unreachableTags_scopeBase (h : ¬ TrackerOp.Restarts tr .startUnreachable) :
    unreachableTags (Tracker.scopeBase tr.state) = unreachableTags tr.state := by
  have hsplit := List.takeWhile_append_dropWhile (p := fun e => decide (e ≠ .scopeTag))
    (l := tr.state)
  have hzero : (tr.state.takeWhile fun e => decide (e ≠ .scopeTag)).count .unreachableTag = 0 :=
    List.count_eq_zero.mpr h
  rw [unreachableTags, unreachableTags, ← hsplit, List.count_append, hzero, hsplit, Nat.zero_add]
  rfl

/-- The call pushes an operand of any type where code is live. -/
def TrackerOp.PushesLiveAny (tr : Tracker) (op : TrackerOp) : Prop :=
  op = .push .any ∧ unreachableTags tr.state = 0

/-- A call keeps the account, unless it restarts unreachable code. -/
theorem Tracker.Accounts.run (ho : o.ByteMode limit) {op : TrackerOp}
    (htags : unreachableTags tr.state < 2 ^ 32) (htags' : unreachableTags tr'.state < 2 ^ 32)
    (hany : ¬ op.PushesLiveAny tr) (hfresh : ¬ op.Restarts tr) (h : tr.Accounts limit locals)
    (hrun : op.run o d tr = .ok tr') :
    tr'.Accounts limit locals := by
  cases op with
  | push type =>
    exact h.push ho (fun ht hlive => hany ⟨by rw [ht], hlive⟩) hrun
  | pop expected => exact h.pop ho hrun
  | popAny =>
    obtain ⟨⟨type, tr₁⟩, hpop, hs⟩ := bind_eq_ok.mp hrun
    rw [← pure_eq_ok.mp hs]
    rcases popAny_cases hpop with ⟨rest, -, -, rfl⟩ | ⟨rest, hstate, rfl⟩
    · exact h
    · exact h.remove ho hstate fun _ => rfl
  | top type =>
    obtain ⟨mid, hpop, hpush⟩ := top_cases hrun
    exact (h.pop ho hpop).pushVal ho hpush
  | startUnreachable =>
    rw [← pure_eq_ok.mp hrun] at htags' ⊢
    have hbase := unreachableTags_scopeBase hfresh
    simp only [startUnreachable, unreachableTags_unreachableTag, hbase] at htags'
    have hle := liveBytes_scopeBase_le tr.state
    have hcount := h.count
    refine ⟨?_, ?_, h.fits, h.usage, h.any.scopeBase⟩
    · simp only [startUnreachable, LocalBytesChecker.pushUnreachable, h.depth,
        unreachableTags_unreachableTag, hbase]
      exact add32_one htags'
    · simp only [startUnreachable, liveBytes, LocalBytesChecker.pushUnreachable]
      omega
  | pushScope =>
    rw [← pure_eq_ok.mp hrun]
    refine ⟨?_, h.count, h.fits, h.usage, h.any⟩
    simpa [Tracker.pushScope] using h.depth
  | popScope result =>
    obtain ⟨popped, rest, hpop, hrest, hend⟩ := popScope_cases hrun
    have hpopped := h.pop ho hpop
    have hle : unreachableTags popped.state ≤ unreachableTags tr.state := by
      cases result with
      | none => rw [← Except.ok.inj hpop]
      | some type =>
        rcases pop_cases hpop with ⟨base, -, rfl⟩ | ⟨entry, base, hstate, -, rfl⟩
        · exact le_refl _
        · simp [hstate]
    have hclosed := hpopped.closeUnreachable (by omega)
    have hscope : Tracker.Accounts limit locals { popped.closeUnreachable with state := rest } := by
      have hdepth := hclosed.depth
      have hcount := hclosed.count
      have hdead := hclosed.any
      rw [hrest] at hdepth hcount hdead
      exact ⟨by simpa using hdepth, hcount, hclosed.fits, hclosed.usage, hdead⟩
    cases result with
    | none =>
      rw [hend]
      exact hscope
    | some type => exact hscope.pushVal ho hend

/-- Calls other than pushes of any type keep such operands in unreachable code. -/
theorem AnyDead.run {op : TrackerOp} (hany : ¬ op.PushesLiveAny tr) (h : AnyDead tr.state)
    (hrun : op.run o d tr = .ok tr') : AnyDead tr'.state := by
  have hpop : ∀ {expected : Option ValType} {mid : Tracker}, tr.pop o d expected = .ok mid →
      AnyDead mid.state := by
    intro expected mid hp
    cases expected with
    | none =>
      rw [← Except.ok.inj hp]
      exact h
    | some type =>
      rcases Tracker.pop_cases hp with ⟨rest, -, rfl⟩ | ⟨entry, rest, -, -, rfl⟩
      · exact h
      · exact h.tail
  cases op with
  | push type =>
    rw [Tracker.push_state hrun]
    cases type with
    | any => exact ⟨fun hlive => hany ⟨rfl, hlive⟩, h⟩
    | val t => exact h
  | pop expected => exact hpop hrun
  | popAny =>
    obtain ⟨⟨type, tr₁⟩, hp, hs⟩ := bind_eq_ok.mp hrun
    rw [← pure_eq_ok.mp hs]
    rcases Tracker.popAny_cases hp with ⟨rest, -, -, rfl⟩ | ⟨rest, -, rfl⟩
    · exact h
    · exact h.tail
  | top type =>
    obtain ⟨mid, hp, hpush⟩ := Tracker.top_cases hrun
    rw [Tracker.push_state hpush]
    exact hpop hp
  | startUnreachable =>
    rw [← pure_eq_ok.mp hrun]
    exact h.scopeBase
  | pushScope =>
    rw [← pure_eq_ok.mp hrun]
    exact h
  | popScope result =>
    obtain ⟨popped, rest, hp, hrest, hend⟩ := Tracker.popScope_cases hrun
    have hdead : AnyDead rest := by
      have hpopped := hpop hp
      rcases Tracker.closeUnreachable_state hrest with hs | hs <;> rw [hs] at hpopped <;>
        exact hpopped
    cases result with
    | none =>
      rw [hend]
      exact hdead
    | some type =>
      rw [Tracker.push_state hend]
      exact hdead

theorem AnyDead.runOps {ops : List TrackerOp} (hany : ∀ op ∈ ops, op ≠ .push .any)
    (h : AnyDead tr.state) (hrun : runOps o d ops tr = .ok tr') : AnyDead tr'.state := by
  induction ops generalizing tr with
  | nil =>
    rw [← pure_eq_ok.mp hrun]
    exact h
  | cons op ops ih =>
    obtain ⟨mid, hop, hrest⟩ := bind_eq_ok.mp hrun
    have hmid := h.run (fun hp => hany op (List.mem_cons_self ..) hp.1) hop
    exact ih (fun op hm => hany op (List.mem_cons_of_mem _ hm)) hmid hrest

/-- `pop()` returns any type only in unreachable code. -/
theorem AnyDead.popAny (h : AnyDead tr.state) (htop : topType tr.state = .any)
    (hrun : TrackerOp.popAny.run o d tr = .ok tr') : unreachableTags tr'.state ≠ 0 := by
  obtain ⟨⟨type, tr₁⟩, hp, hs⟩ := bind_eq_ok.mp hrun
  rw [← pure_eq_ok.mp hs]
  rcases Tracker.popAny_cases hp with ⟨rest, hstate, -, rfl⟩ | ⟨rest, hstate, rfl⟩
  · simp [hstate]
  · rw [hstate] at h htop
    obtain rfl : type = .any := htop
    rw [Tracker.remove_state, hstate]
    exact h.1

/-- `select` pushes any type only in unreachable code. -/
theorem AnyDead.select (h : AnyDead tr.state) (hsel : selectedType tr.state = .any)
    (hrun : EosVm.runOps o d [.pop (some .i32), .popAny, .popAny] tr = .ok tr') :
    unreachableTags tr'.state ≠ 0 := by
  obtain ⟨s₁, h₁, hrun⟩ := bind_eq_ok.mp hrun
  obtain ⟨s₂, h₂, hrun⟩ := bind_eq_ok.mp hrun
  rw [runOps_singleton] at hrun
  have hdead : AnyDead s₂.state := (h.run (by simp [TrackerOp.PushesLiveAny]) h₁).run
    (by simp [TrackerOp.PushesLiveAny]) h₂
  refine hdead.popAny ?_ hrun
  rw [TrackerOp.popAny_popState h₂, Tracker.pop_popState h₁]
  by_contra hne
  simp only [selectedType] at hsel
  split at hsel
  next hfirst => exact hfirst hsel
  · exact hne hsel

end

theorem labelOps_ne_push {ctrl : List Ctrl} {label : Nat} {type : OperandType} :
    ∀ op ∈ labelOps ctrl label, op ≠ .push type := by
  intro op hm
  obtain ⟨t, rfl⟩ := labelOps_top ctrl label op hm
  exact nofun

theorem operandOps_ne_push {types : List ValType} {type : OperandType} :
    ∀ op ∈ operandOps types, op ≠ .push type := by
  intro op hm
  obtain ⟨t, -, rfl⟩ := List.mem_map.mp hm
  exact nofun

theorem callOps_ne_push_any {ft : FuncType} : ∀ op ∈ callOps ft, op ≠ .push .any := by
  intro op hm
  rcases List.mem_append.mp hm with hm | hm
  · exact operandOps_ne_push op hm
  · cases hr : ft.result with
    | none =>
      rw [hr] at hm
      cases hm
    | some type =>
      rw [hr] at hm
      rw [List.mem_singleton.mp hm]
      exact nofun

/-- Only `select` pushes any type. -/
theorem instrOps_ne_push_any {env : BodyEnv} {ctrl : List Ctrl} {state : List StackEntry}
    {instr : Instr} (h : instr ≠ .select) :
    ∀ op ∈ instrOps env ctrl state instr, op ≠ .push .any := by
  cases instr with
  | select => exact absurd rfl h
  | return_ | br label | brIf label =>
    simpa [instrOps, or_imp, forall_and] using labelOps_ne_push
  | brTable labels default =>
    intro op hm
    simp only [instrOps, List.cons_append, List.mem_cons, List.mem_append, List.mem_flatMap,
      List.not_mem_nil, or_false] at hm
    rcases hm with rfl | (⟨label, -, hm⟩ | hm) | rfl
    · exact TrackerOp.noConfusion
    · exact labelOps_ne_push op hm
    · exact labelOps_ne_push op hm
    · exact TrackerOp.noConfusion
  | call funcnum =>
    simp only [instrOps]
    split
    · exact callOps_ne_push_any
    · simp
  | callIndirect functypeidx =>
    simp only [instrOps]
    split
    · simpa using callOps_ne_push_any
    · simp
  | numeric op | vecNumeric op =>
    simpa [instrOps, or_imp, forall_and] using operandOps_ne_push
  | getLocal i | setLocal i | teeLocal i | getGlobal i | setGlobal i =>
    simp only [instrOps]
    split <;> simp
  | _ => simp [instrOps]

/-- The recorded maximum never goes down. -/
theorem TrackerOp.run_usage {o : Options} {d : OperandType → Nat} {op : TrackerOp}
    {tr tr' : Tracker} (h : op.run o d tr = .ok tr') : tr.stackUsageMax ≤ tr'.stackUsageMax := by
  have hpop : ∀ {expected : Option ValType} {mid : Tracker}, tr.pop o d expected = .ok mid →
      mid.stackUsageMax = tr.stackUsageMax := by
    intro expected mid hp
    cases expected with
    | none => rw [← Except.ok.inj hp]
    | some type =>
      rcases Tracker.pop_cases hp with ⟨rest, -, rfl⟩ | ⟨entry, rest, -, -, rfl⟩ <;> rfl
  have hpush : ∀ {mid : Tracker} {type : OperandType}, mid.push o d type = .ok tr' →
      mid.stackUsageMax ≤ tr'.stackUsageMax := by
    intro mid type hp
    obtain ⟨-, checker, -, rfl⟩ := Tracker.push_cases hp
    unfold Tracker.updateUsage
    split
    · exact le_refl _
    · exact le_max_right _ _
  cases op with
  | push type => exact hpush h
  | pop expected => exact le_of_eq (hpop h).symm
  | popAny =>
    obtain ⟨⟨type, tr₁⟩, hp, hs⟩ := bind_eq_ok.mp h
    rw [← pure_eq_ok.mp hs]
    rcases Tracker.popAny_cases hp with ⟨rest, -, -, rfl⟩ | ⟨rest, -, rfl⟩ <;> exact le_refl _
  | top type =>
    obtain ⟨mid, hp, hpush'⟩ := Tracker.top_cases h
    rw [← hpop hp]
    exact hpush hpush'
  | startUnreachable =>
    rw [← pure_eq_ok.mp h]
    exact le_refl _
  | pushScope =>
    rw [← pure_eq_ok.mp h]
    exact le_refl _
  | popScope result =>
    obtain ⟨popped, rest, hp, -, hend⟩ := Tracker.popScope_cases h
    have hclosed : popped.closeUnreachable.stackUsageMax = tr.stackUsageMax := by
      rw [← hpop hp]
      rcases popped.closeUnreachable_cases with heq | ⟨-, -, -, husage, -⟩
      · rw [heq]
      · exact husage
    rw [← hclosed]
    cases result with
    | none =>
      rw [hend]
    | some type =>
      have hle := hpush hend
      exact hle

section

variable {env : BodyEnv} {start p q : BodyPoint W}

theorem BodyReaches.usage_le (h : BodyReaches env p q) :
    p.state.opStack.stackUsageMax ≤ q.state.opStack.stackUsageMax := by
  refine h.invariant (P := fun r => p.state.opStack.stackUsageMax ≤ r.state.opStack.stackUsageMax)
    ?_ (le_refl _)
  intro r r' hle hstep
  obtain ⟨instr, -, hops, -⟩ := hstep.calls
  refine runOps_invariant (P := fun tr => p.state.opStack.stackUsageMax ≤ tr.stackUsageMax) ?_
    hle hops
  intro op tr tr' htr hrun
  exact le_trans htr (TrackerOp.run_usage hrun)

theorem BodyReaches.anyDead (hstart : AnyDead start.state.opStack.state)
    (h : BodyReaches env start p) : AnyDead p.state.opStack.state := by
  refine h.invariant (P := fun r => AnyDead r.state.opStack.state) ?_ hstart
  intro r r' hdead hstep
  obtain ⟨instr, -, hops, -⟩ := hstep.calls
  by_cases hsel : instr = .select
  · subst hsel
    obtain ⟨mid, hpops, hpush⟩ := runOps_append.mp
      (show runOps _ _ ([.pop (some .i32), .popAny, .popAny] ++ [_]) _ = _ from hops)
    rw [runOps_singleton] at hpush
    have hmid : AnyDead mid.state := hdead.runOps (by simp) hpops
    refine hmid.run ?_ hpush
    rintro ⟨hany, hlive⟩
    exact hdead.select (TrackerOp.push.inj hany) hpops hlive
  · exact hdead.runOps (instrOps_ne_push_any hsel) hops

/-- No call of a run pushes an operand of any type where code is live. -/
theorem TrackerCall.not_pushesLiveAny {op : TrackerOp} {tr : Tracker}
    (hstart : AnyDead start.state.opStack.state) (h : TrackerCall env start op tr) :
    ¬ op.PushesLiveAny tr := by
  obtain ⟨instr, p, q, before, after, hp, hstep, hrest, hops, hrun⟩ := h
  rintro ⟨rfl, hlive⟩
  have hdead := hp.anyDead hstart
  by_cases hsel : instr = .select
  · subst hsel
    -- the push is the last of its four calls
    have hops' : [.pop (some .i32), .popAny, .popAny, .push (selectedType p.state.opStack.state)] =
        before ++ .push .any :: after := hops
    rcases before with _ | ⟨a, _ | ⟨b, _ | ⟨c, _ | ⟨e, before⟩⟩⟩⟩ <;>
      simp only [List.nil_append, List.cons_append, List.cons.injEq, reduceCtorEq, false_and,
        and_false] at hops'
    · obtain ⟨rfl, rfl, rfl, hpush, -⟩ := hops'
      exact hdead.select (TrackerOp.push.inj hpush) hrun hlive
    · obtain ⟨-, -, -, -, hnil⟩ := hops'
      simp at hnil
  · exact instrOps_ne_push_any hsel (.push .any) (by rw [hops]; simp) rfl

/-- No call of the run starts unreachable code where it is already unreachable. -/
def NeverRestarts (env : BodyEnv) (start : BodyPoint W) : Prop :=
  ∀ op tr, TrackerCall env start op tr → ¬ op.Restarts tr

/-- The account holds at every point of such a run. -/
theorem NeverRestarts.accounts {limit : UnsignedOption} {locals bounds : Nat}
    (hn : NeverRestarts env start) (ho : env.options.ByteMode limit)
    (hstart : start.state.opStack.Accounts limit locals)
    (hstate : start.state.opStack.state = [.scopeTag]) (hbytes : codeBytes start.rest ≤ bounds)
    (hb : bounds < 2 ^ 32) (hp : BodyReaches env start p) :
    p.state.opStack.Accounts limit locals := by
  have htags : ∀ tr, TrackerPoint env start tr → unreachableTags tr.state < 2 ^ 32 := by
    intro tr ht
    have hle := (NeverWidens.bitcode.size_le SlotSizes.bitcode hstate hbytes ht).2
    omega
  have hcalls : ∀ op tr, TrackerCall env start op tr → unreachableTags tr.state < 2 ^ 32 ∧
      (∀ tr', op.run env.options W.getDepthForType tr = .ok tr' →
        unreachableTags tr'.state < 2 ^ 32) ∧ ¬ op.PushesLiveAny tr ∧ ¬ op.Restarts tr := by
    intro op tr hcall
    exact ⟨htags tr hcall.before, fun tr' hrun => htags tr' (hcall.after hrun),
      hcall.not_pushesLiveAny hstart.any, hn op tr hcall⟩
  refine (tracker_invariant hstart hcalls ?_).1 p hp
  rintro op tr tr' ⟨hbefore, hafter, hany, hfresh⟩ hacc hrun
  exact hacc.run ho hbefore (hafter tr' hrun) hany hfresh hrun

end

end EosVm
