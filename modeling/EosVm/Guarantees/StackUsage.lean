import EosVm.Source.MachineWriter
import EosVm.Invariants.UsageRun
import EosVm.Invariants.Bodies

/-!
# Stack usage in bytes

With `max_stack_bytes`, `set_stack_usage` charges a function the largest byte count its parse has
seen. The charge covers the locals and the operands at every live point of the body, as long as no
`unreachable`, `br`, `br_table` or `return` stands in code of a scope that is already unreachable:
each of them raises `unreachable_depth`, but the end of the scope lowers it once.
-/

set_option autoImplicit false

namespace EosVm

open Lib

variable {W : CodeWriter}

/-- The bytes of the locals of a function. -/
def localBytes (locals : List LocalEntry) : Nat :=
  (locals.map fun entry => getSizeForType entry.type * entry.count).sum

/-- The bytes of the parameters, where the options count them. -/
def parameterBytes (o : Options) (ft : FuncType) : Nat :=
  if o.maxFuncLocalBytesFlags.params then (ft.paramTypes.map getSizeForType).sum else 0

section

variable {o : Options} {limit : UnsignedOption}

/-- The parameters are counted or not; the count fits in the option's type. -/
theorem LocalBytesChecker.init_fits (ho : o.ByteMode limit) {ft : FuncType}
    {c : LocalBytesChecker} (h : LocalBytesChecker.init o ft = .ok c) :
    parameterBytes o ft ≤ c.count ∧ c.count < 2 ^ limit.width ∧ c.unreachableDepth = 0 := by
  have hfold : ∀ (types : List ValType) (c₀ : LocalBytesChecker), c₀.count < 2 ^ limit.width →
      types.foldlM (fun c t => c.add o (getSizeForType t)) c₀ = .ok c →
      c₀.count + (types.map getSizeForType).sum ≤ c.count ∧ c.count < 2 ^ limit.width ∧
        c.unreachableDepth = c₀.unreachableDepth := by
    intro types
    induction types with
    | nil =>
      intro c₀ hfits hrun
      obtain rfl := pure_eq_ok.mp hrun
      exact ⟨le_refl _, hfits, rfl⟩
    | cons type types ih =>
      intro c₀ hfits hrun
      rw [List.foldlM_cons] at hrun
      obtain ⟨c₁, hadd, hrest⟩ := bind_eq_ok.mp hrun
      obtain ⟨rfl, hlt⟩ := add_eq_ok ho.localBytes hfits hadd
      obtain ⟨hle, hrest'⟩ :=
        ih ⟨c₀.count + getSizeForType type, c₀.unreachableDepth⟩ hlt hrest
      refine ⟨?_, hrest'⟩
      simp only [List.map_cons, List.sum_cons] at hle ⊢
      omega
  unfold LocalBytesChecker.init at h
  unfold parameterBytes
  split at h
  next hparams =>
    obtain ⟨hle, hrest⟩ := hfold _ _ (Nat.two_pow_pos _) h
    rw [if_pos hparams]
    exact ⟨le_of_add_le_right hle, hrest⟩
  next hparams =>
    obtain rfl := Except.ok.inj h
    rw [if_neg hparams]
    exact ⟨le_refl _, Nat.two_pow_pos _, rfl⟩

/-- The count before the code covers the locals, and the parameters that are counted. -/
theorem LocalBytesChecker.ofLocals_covers (ho : o.ByteMode limit) {ft : FuncType}
    {locals : List LocalEntry} {c : LocalBytesChecker}
    (h : LocalBytesChecker.ofLocals o ft locals = .ok c) :
    parameterBytes o ft + localBytes locals ≤ c.count ∧ c.count < 2 ^ limit.width ∧
      c.unreachableDepth = 0 := by
  obtain ⟨c₀, hinit, hfold⟩ := bind_eq_ok.mp h
  obtain ⟨hparams, hfits, hdepth⟩ := init_fits ho hinit
  suffices ∀ c₀ : LocalBytesChecker, c₀.count < 2 ^ limit.width → c₀.unreachableDepth = 0 →
      locals.foldlM (fun c entry => c.onLocal o entry.type entry.count) c₀ = .ok c →
      c₀.count + localBytes locals ≤ c.count ∧ c.count < 2 ^ limit.width ∧
        c.unreachableDepth = 0 by
    obtain ⟨hle, hrest⟩ := this c₀ hfits hdepth hfold
    exact ⟨by omega, hrest⟩
  clear hfold hinit hparams hfits hdepth h
  induction locals with
  | nil =>
    intro c₀ hfits hdepth hrun
    obtain rfl := pure_eq_ok.mp hrun
    exact ⟨le_refl _, hfits, hdepth⟩
  | cons entry locals ih =>
    intro c₀ hfits hdepth hrun
    rw [List.foldlM_cons] at hrun
    obtain ⟨c₁, hon, hrest⟩ := bind_eq_ok.mp hrun
    rw [onLocal, if_pos ho.locals] at hon
    obtain ⟨rfl, hlt⟩ := add_eq_ok ho.localBytes hfits hon
    obtain ⟨hle, hrest'⟩ :=
      ih ⟨c₀.count + getSizeForType entry.type * entry.count, c₀.unreachableDepth⟩ hlt hdepth hrest
    refine ⟨?_, hrest'⟩
    simp only [localBytes, List.map_cons, List.sum_cons] at hle ⊢
    omega

end

/-- `usage` covers the locals and the validated operands at every live point of the body. -/
def UsageCovers (env : BodyEnv) (start : BodyPoint W) (locals : List LocalEntry) (usage : Nat) :
    Prop :=
  ∀ p, BodyReaches env start p → unreachableTags p.state.opStack.state = 0 →
    localBytes locals + stackBytes p.state.opStack.state ≤ usage

theorem Tracker.init_accounts {o : Options} {limit : UnsignedOption} (ho : o.ByteMode limit)
    {locals : Nat} {c : LocalBytesChecker} (hle : locals ≤ c.count)
    (hfits : c.count < 2 ^ limit.width) (hdepth : c.unreachableDepth = 0) :
    (Tracker.init o c).Accounts limit locals := by
  rw [Tracker.init, updateUsage_eq ho]
  exact ⟨hdepth, hle, hfits, le_max_left _ _, trivial⟩

/-- The account of a body that never restarts unreachable code. -/
theorem NeverRestarts.bodyAccounts {limit : UnsignedOption} {env : BodyEnv} {bounds nested : Nat}
    {locals : List LocalEntry} {checker : LocalBytesChecker} {writer : W.State}
    {instrs : List Instr} {p : BodyPoint W} (ho : env.options.ByteMode limit)
    (hchecker : LocalBytesChecker.ofLocals env.options env.ft locals = .ok checker)
    (hbytes : codeBytes instrs ≤ bounds) (hb : bounds < 2 ^ 32)
    (hn : NeverRestarts env (bodyStart env checker writer nested instrs))
    (hreach : BodyReaches env (bodyStart env checker writer nested instrs) p) :
    p.state.opStack.Accounts limit (parameterBytes env.options env.ft + localBytes locals) := by
  obtain ⟨hle, hfits, hdepth⟩ := LocalBytesChecker.ofLocals_covers ho hchecker
  have hstart : (bodyStart env checker writer nested instrs).state.opStack.Accounts limit
      (parameterBytes env.options env.ft + localBytes locals) :=
    Tracker.init_accounts ho hle hfits hdepth
  exact hn.accounts ho hstart (Tracker.updateUsage_state ..) hbytes hb hreach

/-- The recorded usage covers the counted parameters, too, in a body that never restarts unreachable
code. -/
theorem NeverRestarts.usage_le {limit : UnsignedOption} {env : BodyEnv} {bounds nested : Nat}
    {locals : List LocalEntry} {checker : LocalBytesChecker} {writer : W.State}
    {instrs : List Instr} {s : BodyState W} {p : BodyPoint W} (ho : env.options.ByteMode limit)
    (hchecker : LocalBytesChecker.ofLocals env.options env.ft locals = .ok checker)
    (hbytes : codeBytes instrs ≤ bounds) (hb : bounds < 2 ^ 32)
    (hrun : runInstrs env instrs (BodyState.init env checker writer nested) = .ok s)
    (hn : NeverRestarts env (bodyStart env checker writer nested instrs))
    (hreach : BodyReaches env (bodyStart env checker writer nested instrs) p)
    (hlive : unreachableTags p.state.opStack.state = 0) :
    parameterBytes env.options env.ft + localBytes locals + stackBytes p.state.opStack.state ≤
      s.opStack.stackUsageMax := by
  have hacc := hn.bodyAccounts ho hchecker hbytes hb hreach
  have hend := hreach.to_end (runInstrs_reaches hrun)
  have hcount := hacc.count
  have husage := hacc.usage
  have hmono := hend.usage_le
  rw [liveBytes_eq hlive] at hcount
  simp only at hmono
  omega

/-- The recorded usage covers the frame of a body that never restarts unreachable code. -/
theorem NeverRestarts.usageCovers {limit : UnsignedOption} {env : BodyEnv} {bounds nested : Nat}
    {locals : List LocalEntry} {checker : LocalBytesChecker} {writer : W.State}
    {instrs : List Instr} {s : BodyState W} (ho : env.options.ByteMode limit)
    (hchecker : LocalBytesChecker.ofLocals env.options env.ft locals = .ok checker)
    (hbytes : codeBytes instrs ≤ bounds) (hb : bounds < 2 ^ 32)
    (hrun : runInstrs env instrs (BodyState.init env checker writer nested) = .ok s)
    (hn : NeverRestarts env (bodyStart env checker writer nested instrs)) :
    UsageCovers env (bodyStart env checker writer nested instrs) locals
      s.opStack.stackUsageMax := by
  intro p hreach hlive
  have hle := hn.usage_le ho hchecker hbytes hb hrun hreach hlive
  omega

/-- With `max_stack_bytes`, for every body that `parse_function_body_code` accepts: if no call
starts unreachable code in a scope whose code is already unreachable, the usage handed to
`set_stack_usage` covers the locals and the operands at every live point. -/
theorem stack_usage_covers_frame {limit : UnsignedOption} {env : BodyEnv}
    {locals : List LocalEntry} {checker : LocalBytesChecker} {buf : List UInt8}
    {raw bounds nested maximumStack : Nat} {writer : W.State} {s : BodyState W}
    (ho : env.options.ByteMode limit)
    (hchecker : LocalBytesChecker.ofLocals env.options env.ft locals = .ok checker)
    (hb : bounds < 2 ^ 32)
    (h : parseFunctionBodyCode env (WasmCodePtr.make buf raw bounds) bounds checker writer nested =
      .ok (s, maximumStack)) :
    ∃ instrs, decodeBody env.options bounds (bounds + 1) (WasmCodePtr.make buf raw bounds) =
        .ok instrs ∧
      (NeverRestarts env (bodyStart env checker writer nested instrs) →
        UsageCovers env (bodyStart env checker writer nested instrs) locals
          s.opStack.stackUsageMax) := by
  have hp := BodyPtr.make buf raw bounds
  obtain ⟨instrs, s₁, hdecode, hrun, hrec, -⟩ := parseFunctionBodyCode_accepted hp h
  refine ⟨instrs, hdecode, ?_⟩
  intro hn
  have hbytes : codeBytes instrs ≤ bounds := by
    have := decodeBody_codeBytes hp hdecode
    omega
  have hsame : s.opStack = s₁.opStack := by
    obtain ⟨bytes, hbytes⟩ := Option.isSome_iff_exists.mp ho.stackBytes
    simp only [BodyState.recordStackUsage, hbytes, bind_eq_ok, pure_eq_ok] at hrec
    obtain ⟨w, -, rfl⟩ := hrec
    rfl
  rw [hsame]
  exact hn.usageCovers ho hchecker hbytes hb hrun

/-- Options with 32-bit limits in bytes. -/
def byteOptions : Options :=
  { maxStackBytes := some ⟨32, 1000, by decide⟩, maxFuncLocalBytes := some ⟨32, 1000, by decide⟩ }

theorem byteOptions_byteMode : byteOptions.ByteMode ⟨32, 1000, by decide⟩ := ⟨rfl, rfl, rfl, rfl⟩

/-- A function with one `i32` local and an `i64` result. -/
def byteEnv : BodyEnv where
  options := byteOptions
  mod := {}
  typeAliases := []
  datacount := none
  ft := ⟨0x60, [], 1, some .i64⟩
  localTypes := ⟨⟨0x60, [], 1, some .i64⟩, [⟨1, .i32⟩], [0, 1]⟩

/-- `i32.const 0`, `drop`, `i64.const 0`. -/
def liveBody : List UInt8 := [0x41, 0x00, 0x1a, 0x42, 0x00, 0x0b]

/-- A body without `unreachable` and branches never restarts unreachable code. -/
theorem neverRestarts_of_live {env : BodyEnv} {start : BodyPoint W}
    (h : ∀ instr ∈ start.rest, ∀ ctrl state, .startUnreachable ∉ instrOps env ctrl state instr) :
    NeverRestarts env start := by
  rintro op tr ⟨instr, p, q, before, after, hp, -, hrest, hops, -⟩ hr
  have hsub : ∀ r, BodyReaches env start r → ∀ i ∈ r.rest, i ∈ start.rest := by
    intro r hr
    refine hr.invariant (P := fun r => ∀ i ∈ r.rest, i ∈ start.rest) ?_ (fun _ hi => hi)
    rintro a b hmem ⟨i, ha, -, -⟩ j hj
    exact hmem j (by rw [ha]; exact List.mem_cons_of_mem _ hj)
  cases op with
  | startUnreachable =>
    have hm : instr ∈ start.rest := hsub p hp instr (by rw [hrest]; exact List.mem_cons_self ..)
    exact h instr hm _ _ (by rw [hops]; simp)
  | push | pop | popAny | top | pushScope | popScope => exact hr

theorem liveBody_usage_covers : ∃ s maximumStack instrs,
    parseFunctionBodyCode (W := machineWriter true) byteEnv (WasmCodePtr.make liveBody 0 6) 6
        ⟨4, 0⟩ {} 0 = .ok (s, maximumStack) ∧
      decodeBody byteOptions 6 7 (WasmCodePtr.make liveBody 0 6) = .ok instrs ∧
      UsageCovers byteEnv (bodyStart (W := machineWriter true) byteEnv ⟨4, 0⟩ {} 0 instrs)
        [⟨1, .i32⟩] s.opStack.stackUsageMax := by
  obtain ⟨⟨s, maximumStack⟩, h⟩ := exists_ok_of_isOk
    (show (parseFunctionBodyCode (W := machineWriter true) byteEnv (WasmCodePtr.make liveBody 0 6)
      6 ⟨4, 0⟩ {} 0).isOk = true by decide +kernel)
  obtain ⟨instrs, hdecode, husage⟩ := stack_usage_covers_frame
    (show byteEnv.options.ByteMode _ from byteOptions_byteMode)
    (show LocalBytesChecker.ofLocals byteOptions _ [⟨1, .i32⟩] = .ok ⟨4, 0⟩ by
      decide +kernel) (by decide) h
  have hinstrs : instrs = [.i32Const 0, .drop, .i64Const 0, .end_] :=
    Except.ok.inj (hdecode.symm.trans (by decide +kernel))
  refine ⟨s, maximumStack, instrs, h, hdecode, husage (neverRestarts_of_live ?_)⟩
  subst hinstrs
  intro instr hm ctrl state
  have hcases : instr = .i32Const 0 ∨ instr = .drop ∨ instr = .i64Const 0 ∨ instr = .end_ := by
    simpa [bodyStart] using hm
  rcases hcases with rfl | rfl | rfl | rfl <;> simp [instrOps]

/-- A block that a branch may leave and that ends in `unreachable` twice, then `i64.const 0`. -/
def deadTwiceBody : List UInt8 :=
  [0x02, 0x40, 0x41, 0x00, 0x0d, 0x00, 0x00, 0x00, 0x0b, 0x42, 0x00, 0x0b]

/-- The recorded usage is 8 bytes, the frame holds 12 at its end. -/
theorem deadTwiceBody_not_covered : ∃ s maximumStack instrs,
    parseFunctionBodyCode (W := machineWriter true) byteEnv (WasmCodePtr.make deadTwiceBody 0 12) 12
        ⟨4, 0⟩ {} 0 = .ok (s, maximumStack) ∧
      decodeBody byteOptions 12 13 (WasmCodePtr.make deadTwiceBody 0 12) = .ok instrs ∧
      LocalBytesChecker.ofLocals byteOptions byteEnv.ft [⟨1, .i32⟩] = .ok ⟨4, 0⟩ ∧
      ¬ UsageCovers byteEnv (bodyStart (W := machineWriter true) byteEnv ⟨4, 0⟩ {} 0 instrs)
        [⟨1, .i32⟩] s.opStack.stackUsageMax := by
  have hfinal : (do
      let (s, _) ← parseFunctionBodyCode (W := machineWriter true) byteEnv
        (WasmCodePtr.make deadTwiceBody 0 12) 12 ⟨4, 0⟩ {} 0
      pure (s.opStack.stackUsageMax, s.opStack.state)).toOption =
        some (8, [.operand (.val .i64)]) := by
    decide +kernel
  obtain ⟨⟨s, maximumStack⟩, h⟩ := exists_ok_of_isOk
    (show (parseFunctionBodyCode (W := machineWriter true) byteEnv
      (WasmCodePtr.make deadTwiceBody 0 12) 12 ⟨4, 0⟩ {} 0).isOk = true by decide +kernel)
  obtain ⟨instrs, s₁, hdecode, hrun, hrec, -⟩ :=
    parseFunctionBodyCode_accepted (BodyPtr.make deadTwiceBody 0 12) h
  refine ⟨s, maximumStack, instrs, h, hdecode, by decide +kernel, ?_⟩
  intro hcovers
  have hend := hcovers _ (runInstrs_reaches hrun)
  obtain ⟨w, -, hs⟩ := bind_eq_ok.mp hrec
  have hsame : s₁.opStack = s.opStack := by
    rw [← pure_eq_ok.mp hs]
  simp only [h, ok_bind, toOption_eq_some, pure_eq_ok, Prod.mk.injEq] at hfinal
  simp only [hsame, hfinal.1, hfinal.2] at hend
  exact absurd (hend (by decide)) (by decide)

end EosVm
