import EosVm.Invariants.ValidatorComplete
import EosVm.Invariants.Bodies

/-!
# Validation

`parse_function_body_code` with `bitcode_writer` and default options accepts exactly the bodies that
the typing rules of WebAssembly 1.0 accept. The soundness part holds for every writer and is in
`ValidatorSound`; the completeness part needs the room that `emit_prologue` gives the writer.
-/

set_option autoImplicit false

namespace EosVm

open Lib

/-- For every function type, local declarations and byte sequence over the instructions of
WebAssembly 1.0 and the sign extension operators, the body is accepted if and only if its bytes
decode to an instruction sequence, closed by `end`, that has a typing from the empty stack to the
result. The bytes of a body are counted by a `uint32_t`, and the buffer of the writer has a slot for
each of them. -/
theorem validator_accepts_iff_typed {env : BodyEnv} {buf : List UInt8} {raw bounds nested : Nat}
    {checker : LocalBytesChecker} {writer : BitcodeState} (henv : env.Valid)
    (hopt : env.options = defaultOptions) (hbounds : bounds < 2 ^ 32)
    (hroom : writer.opIndex + bounds ≤ writer.fb.length)
    (hmvp : ∀ instrs, decodeBody env.options bounds (bounds + 1)
        (WasmCodePtr.make buf raw bounds) = .ok instrs →
      ∀ instr ∈ instrs, Spec.isMvp instr = true) :
    (∃ r, parseFunctionBodyCode (W := bitcodeWriter) env (WasmCodePtr.make buf raw bounds) bounds
        checker writer nested = .ok r) ↔
      ∃ body : Spec.Seq, decodeBody env.options bounds (bounds + 1)
          (WasmCodePtr.make buf raw bounds) = .ok (body.flatten ++ [.end_]) ∧
        Spec.Typed (env.context (bodyCtrl env)) body [] env.ft.result.toList := by
  have hp := BodyPtr.make buf raw bounds
  constructor
  · rintro ⟨⟨s, maximumStack⟩, h⟩
    obtain ⟨instrs, s₁, hdecode, hrun, -, hempty, -⟩ := parseFunctionBodyCode_accepted hp h
    obtain ⟨body, rfl, htyped⟩ := runInstrs_sound henv hopt (hmvp _ hdecode) hrun hempty
    exact ⟨body, hdecode, htyped⟩
  · rintro ⟨body, hdecode, htyped⟩
    have hstart : (WasmCodePtr.make buf raw bounds).offset = 0 := Nat.sub_self raw
    have hbytes := decodeBody_codeBytes hp hdecode
    obtain ⟨hcode, hfits⟩ := decodeBody_room hp hdecode
    rw [hstart, Nat.zero_add] at hbytes hcode
    obtain ⟨t, hrun, hempty⟩ :=
      runInstrs_complete henv hopt checker nested hbounds hbytes hcode hfits hroom htyped
    have hloop := (parseBodyLoop_eq_ok hp).mpr ⟨_, hdecode, hrun⟩
    simp only [parseFunctionBodyCode, hloop, ok_bind, BodyState.recordStackUsage, hopt,
      defaultOptions]
    refine ⟨(t, _), bind_eq_ok.mpr ⟨t, rfl, bind_eq_ok.mpr ⟨(), ?_, rfl⟩⟩⟩
    rw [vmAssert_eq_ok, hempty]
    rfl

/-- A function with a parameter and a result of type i32. -/
def unaryEnv : BodyEnv where
  options := defaultOptions
  mod := {}
  typeAliases := []
  datacount := none
  ft := ⟨0x60, [.i32], 1, some .i32⟩
  localTypes := ⟨⟨0x60, [.i32], 1, some .i32⟩, [], [1]⟩

/-- A block that `br_table` leaves with the parameter, and unreachable code with `select`. -/
def branchingBody : List UInt8 :=
  [0x02, 0x7f, 0x20, 0x00, 0x20, 0x00, 0x0e, 0x01, 0x00, 0x01, 0x1b, 0x1a, 0x00, 0x0b, 0x0b]

theorem branchingBody_typed : ∃ body : Spec.Seq,
    decodeBody defaultOptions 15 16 (WasmCodePtr.make branchingBody 0 15) =
        .ok (body.flatten ++ [.end_]) ∧
      Spec.Typed (unaryEnv.context (bodyCtrl unaryEnv)) body [] [.i32] := by
  have hdecode : decodeBody defaultOptions 15 16 (WasmCodePtr.make branchingBody 0 15) =
      .ok [.block 0x7f, .getLocal 0, .getLocal 0, .brTable [0] 1, .select, .drop, .unreachable,
        .end_, .end_] := by decide +kernel
  refine (@validator_accepts_iff_typed unaryEnv branchingBody 0 15 0 ⟨0, 0⟩
    { fb := List.replicate 15 .raw } ⟨by decide, by decide, rfl, rfl⟩ rfl (by decide) (by decide)
    ?_).mp ?_
  · intro instrs h
    obtain rfl := Except.ok.inj (hdecode.symm.trans h)
    decide
  · exact exists_ok_of_isOk (by decide +kernel)

end EosVm
