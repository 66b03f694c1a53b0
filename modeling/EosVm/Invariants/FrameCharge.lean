import EosVm.Invariants.Backends

/-!
# Charge of a frame

With a limit in bytes, the prologue of every function of an accepted module charges the usage that
the parse of its body has recorded.
-/

set_option autoImplicit false

namespace EosVm

open Lib

variable {o : Options}

/-- The body was accepted, and `entry` is the usage that its parse has recorded. -/
def BodyCharged (st : ParserState (machineWriter o.maxStackBytes.isSome)) (i : Nat)
    (body : WasmCodePtr × LocalBytesChecker) (entry : Nat) : Prop :=
  ∃ env instrs writer nested s, BodyAccepted o st i body env instrs writer nested s ∧
    entry = s.opStack.stackUsageMax + 16

/-- The writer appends the charge of a function to those before it. -/
theorem BodyWritten.limitEntries (hbytes : o.maxStackBytes.isSome = true) {mod : Module} {i : Nat}
    {env : BodyEnv} {writer writer₁ writer' : MachineState}
    {s : BodyState (machineWriter o.maxStackBytes.isSome)} {instrs : List Instr}
    {checker : LocalBytesChecker} {nested : Nat}
    (h : BodyWritten (W := machineWriter o.maxStackBytes.isSome) o mod i env writer
    writer₁ writer' s)
    (hrun : runInstrs env instrs (BodyState.init env checker writer₁ nested) = .ok s) :
    writer'.limitEntries = writer.limitEntries ++ [s.opStack.stackUsageMax + 16] := by
  obtain ⟨fb, hprologue⟩ := h.before
  obtain ⟨s', fb', locals, w, size, stackSize, hrecord, hepilogue, hfinalize⟩ := h.after
  have hentries : s.writer.limitEntries = writer.limitEntries ++ [0] := by
    have hkeeps : s.writer.limitEntries = writer₁.limitEntries :=
      (machineWriter_keeps _).runInstrs hrun
    rw [hkeeps]
    obtain ⟨-, -, hprologue⟩ := bind_eq_ok.mp hprologue
    obtain rfl := pure_eq_ok.mp hprologue
    rfl
  have hset := MachineState.setStackUsage_entries hbytes hentries
    (recordStackUsage_eq_ok hbytes hrecord)
  obtain rfl := pure_eq_ok.mp hepilogue
  obtain ⟨-, -, rfl⟩ := pure_eq_ok.mp hfinalize
  exact hset

theorem BodyCharged.frame {st st' : ParserState (machineWriter o.maxStackBytes.isSome)} {i : Nat}
    {body : WasmCodePtr × LocalBytesChecker} {entry : Nat} (h : BodyCharged st i body entry)
    (hf : WriteFrame st st') : BodyCharged st' i body entry := by
  obtain ⟨env, instrs, writer, nested, s, hacc, hentry⟩ := h
  exact ⟨env, instrs, writer, nested, s, hacc.frame hf, hentry⟩

/-- The second pass charges every function. -/
theorem writeFunctions_charged (hbytes : o.maxStackBytes.isSome = true) {k : Nat}
    {bodies : List (WasmCodePtr × LocalBytesChecker)}
    {st st' : ParserState (machineWriter o.maxStackBytes.isSome)} {writer writer' : MachineState}
    (hrec : ∀ j body, bodies[j]? = some body → ∃ fb, st.mod.code[k + j]? = some fb ∧
      BodyRecorded o st.mod (k + j) fb body)
    (h : writeFunctions o k bodies st writer = .ok (st', writer')) :
    ∃ added, writer'.limitEntries = writer.limitEntries ++ added ∧
      added.length = bodies.length ∧
      ∀ j body entry, bodies[j]? = some body → added[j]? = some entry →
        BodyCharged st' (k + j) body entry := by
  induction bodies generalizing k st writer with
  | nil =>
    obtain ⟨-, rfl⟩ := Prod.mk.inj (pure_eq_ok.mp h)
    exact ⟨[], by simp, rfl, by simp⟩
  | cons body bodies ih =>
    obtain ⟨⟨st₁, writer₁⟩, hfirst, hrest⟩ := bind_eq_ok.mp h
    obtain ⟨fb, hfb, hbody⟩ := hrec 0 body rfl
    obtain ⟨hframe, hother, env, instrs, w, nested, s, hacc, hwritten⟩ :=
      writeFunction_accepted hfb hbody hfirst
    have hrec₁ : ∀ j b, bodies[j]? = some b → ∃ fb, st₁.mod.code[k + 1 + j]? = some fb ∧
        BodyRecorded o st₁.mod (k + 1 + j) fb b := by
      intro j b hb
      obtain ⟨fb', hfb', hr⟩ := hrec (j + 1) b (by rw [List.getElem?_cons_succ]; exact hb)
      rw [show k + (j + 1) = k + 1 + j by omega] at hfb' hr
      refine ⟨fb', by rw [hother _ (by omega)]; exact hfb', ?_⟩
      obtain ⟨code, maximumStack, nested, rfl⟩ := hframe.state
      exact ⟨hr.ptr, hr.size, hr.counts, hr.checker⟩
    obtain ⟨added, hadded, hlen, hall⟩ := ih hrec₁ hrest
    obtain ⟨hframe', -⟩ := writeFunctions_accepted hrec₁ hrest
    refine ⟨(s.opStack.stackUsageMax + 16) :: added, ?_, by simp [hlen], ?_⟩
    · rw [hadded, hwritten.limitEntries hbytes hacc.accepted, List.append_assoc]
      rfl
    · intro j b entry hb hentry
      cases j with
      | zero =>
        rw [List.getElem?_cons_zero, Option.some.injEq] at hb hentry
        subst hb
        exact BodyCharged.frame ⟨env, instrs, w, nested, s, hacc, hentry.symm⟩ hframe'
      | succ j =>
        rw [List.getElem?_cons_succ] at hb hentry
        have hcharged := hall j b entry hb hentry
        rwa [show k + 1 + j = k + (j + 1) by omega] at hcharged

/-- The charges of all functions, after the sections up to `highest`. -/
structure Charges (highest : Nat) (st : ParserState (machineWriter o.maxStackBytes.isSome)) :
    Prop where
  fresh : highest < 11 → st.functionBodies = []
  charged : ∀ i body, st.functionBodies[i]? = some body →
    ∃ entry, (limitEntries st)[i]? = some entry ∧ BodyCharged st i body entry

section

variable {highest : Nat} {p q : WasmCodePtr}
  {st st' : ParserState (machineWriter o.maxStackBytes.isSome)}

theorem Charges.code (hbytes : o.maxStackBytes.isSome = true) (h : Charges highest st)
    (hlt : highest < 11) (hs : parseCodeSection o p st = .ok (st', q)) : Charges 11 st' := by
  refine ⟨fun hfalse => absurd hfalse (lt_irrefl _), ?_⟩
  have hfresh := h.fresh hlt
  simp only [parseCodeSection, parseSectionImpl, writeCodeOut, bind_eq_ok, vmAssert_eq_ok,
    pure_eq_ok, Prod.exists, exists_const, Prod.mk.injEq, beq_iff_eq] at hs
  obtain ⟨elems, mid, bodies, ⟨count, p₁, -, -, hitems⟩, hlen, st₁, ⟨writer, hstart, st₂, writer',
    hwrite, rfl⟩, rfl, -⟩ := hs
  obtain ⟨added, hadded, hlen', hrec⟩ := parseBodies_recorded hitems
  rw [hfresh, List.nil_append] at hadded
  subst hadded
  have hrec' : ∀ j body, bodies[j]? = some body → ∃ fb, elems[0 + j]? = some fb ∧
      BodyRecorded o { st.mod with code := elems } (0 + j) fb body := by
    intro j body hb
    have hj := (List.getElem?_eq_some_iff.mp hb).1
    have hfb : elems[j]? = some elems[j] := List.getElem?_eq_getElem (by omega)
    rw [Nat.zero_add]
    refine ⟨elems[j], hfb, ?_⟩
    have hbody := hrec j elems[j] body hfb hb
    rw [Nat.zero_add] at hbody
    exact ⟨hbody.ptr, hbody.size, hbody.counts, hbody.checker⟩
  obtain ⟨hframe, -⟩ := writeFunctions_accepted (k := 0) hrec' hwrite
  obtain ⟨entries, hentries, hcount, hall⟩ := writeFunctions_charged hbytes (k := 0) hrec' hwrite
  obtain rfl := pure_eq_ok.mp hstart
  intro i body hb
  have hbodies : st₂.functionBodies = bodies := by
    obtain ⟨code, maximumStack, nested, rfl⟩ := hframe.state
    rfl
  change st₂.functionBodies[i]? = some body at hb
  rw [hbodies] at hb
  have hi := (List.getElem?_eq_some_iff.mp hb).1
  have hentry : entries[i]? = some entries[i] := List.getElem?_eq_getElem (by omega)
  refine ⟨entries[i], ?_, ?_⟩
  · change (MachineState.limitEntries writer')[i]? = _
    rw [hentries]
    exact hentry
  · obtain ⟨env, instrs, w, n, s, hacc, husage⟩ := hall i body entries[i] hb hentry
    rw [Nat.zero_add] at hacc
    exact ⟨env, instrs, w, n, s, hacc.transport rfl rfl rfl rfl (le_refl _), husage⟩

/-- The sections that may follow the code section leave what bodies were checked against. -/
theorem BodyCharged.section_ {id : SectionId} (hid : id = .custom ∨ id = .data)
    (hs : parseSection o id p st = .ok (st', q)) {i entry : Nat}
    {body : WasmCodePtr × LocalBytesChecker} (h : BodyCharged st i body entry) :
    BodyCharged st' i body entry := by
  obtain ⟨env, instrs, w, n, s, hacc, husage⟩ := h
  refine ⟨env, instrs, w, n, s, ?_, husage⟩
  rcases hid with rfl | rfl
  · simp only [parseSection, parseCustom, bind_eq_ok, Prod.exists] at hs
    obtain ⟨name, p₁, -, hs⟩ := hs
    split at hs
    · simp only [bind_eq_ok, pure_eq_ok, Prod.exists, Prod.mk.injEq] at hs
      obtain ⟨names, p₂, -, rfl, -⟩ := hs
      exact hacc.transport rfl rfl rfl rfl (le_refl _)
    · simp only [bind_eq_ok, pure_eq_ok, Prod.mk.injEq] at hs
      obtain ⟨p₂, -, rfl, -⟩ := hs
      exact hacc
  · simp only [parseSection, parseDataSection, bind_eq_ok, vmAssert_eq_ok, pure_eq_ok, Prod.exists,
      exists_const, Prod.mk.injEq] at hs
    obtain ⟨data, p₁, -, -, rfl, -⟩ := hs
    exact hacc.transport rfl rfl rfl rfl (le_refl _)

theorem Charges.step (hbytes : o.maxStackBytes.isSome = true) {id : SectionId}
    (h : Charges highest st) (ho : id = .custom ∨ highest < id.order)
    (hs : parseSection o id p st = .ok (st', q)) : Charges (max highest id.order) st' := by
  by_cases hid : id = .code
  · subst hid
    have hlt : highest < 11 := by simpa [SectionId.order] using ho
    have hmax : max highest SectionId.code.order = 11 := by
      simp only [SectionId.order]
      omega
    rw [hmax]
    exact h.code hbytes hlt hs
  obtain ⟨-, hbodies, hwritten, -⟩ := parseSection_keepsCode hid hs
  refine ⟨?_, ?_⟩
  · intro hlt
    rw [hbodies]
    exact h.fresh (lt_of_le_of_lt (le_max_left _ _) hlt)
  · intro i body hb
    rw [hbodies] at hb
    obtain ⟨entry, hentry, hcharged⟩ := h.charged i body hb
    refine ⟨entry, by simpa only [limitEntries, hwritten] using hentry, ?_⟩
    have hlate : ¬ highest < 11 := by
      intro hlt
      rw [h.fresh hlt] at hb
      cases hb
    refine hcharged.section_ ?_ hs
    rcases ho with rfl | hlt
    · exact Or.inl rfl
    · cases id <;> simp only [SectionId.order] at hlt <;> first | omega | exact Or.inr rfl

end

end EosVm
