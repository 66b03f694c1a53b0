import EosVm.Guarantees.SegmentHeaders
import EosVm.Lib.Utf8
import Mathlib.Logic.Relation

/-!
# Names

A name is accepted exactly when its length is in bounds and its bytes are UTF-8. The loop over the
code points stops because the bound of the pointer is as far away as the counter says.
-/

set_option autoImplicit false

namespace EosVm

open Lib Lib.Leb128 Lib.Utf8

/-- `q` is `p` moved over `bytes`. -/
structure Takes (p : WasmCodePtr) (bytes : List UInt8) (q : WasmCodePtr) : Prop where
  valid : q.Valid
  remaining : p.remaining = bytes ++ q.remaining
  moved : q = p.plus bytes.length

section Takes

variable {p q r : WasmCodePtr} {bytes rest : List UInt8} {b : UInt8}

theorem takes_of_starts (hp : p.Valid) (hstart : bytes <+: p.remaining) :
    Takes p bytes (p.plus bytes.length) := by
  obtain ⟨rest, hrest⟩ := hstart
  obtain ⟨hvalid, hremaining⟩ := plus_of_remaining hp hrest.symm
  exact ⟨hvalid, by rw [hremaining, hrest], rfl⟩

theorem Takes.starts (h : Takes p bytes q) : bytes <+: p.remaining := ⟨_, h.remaining.symm⟩

theorem Takes.append (h : Takes p bytes q) (h' : Takes q rest r) : Takes p (bytes ++ rest) r := by
  refine ⟨h'.valid, by rw [h.remaining, h'.remaining, List.append_assoc], ?_⟩
  rw [h'.moved, h.moved, WasmCodePtr.plus, WasmCodePtr.plus, WasmCodePtr.plus, List.length_append,
    Nat.add_assoc]

theorem Takes.cons (h : Takes p [b] q) (h' : Takes q bytes r) :
    Takes p (b :: bytes) r := h.append h'

/-- The first byte is taken first. -/
theorem takes_cons (hp : p.Valid) (h : Takes p (b :: bytes) r) :
    ∃ q, Takes p [b] q ∧ Takes q bytes r := by
  have hfirst := takes_of_starts hp (show [b] <+: p.remaining from ⟨_, h.remaining.symm⟩)
  refine ⟨_, hfirst, h.valid, ?_, ?_⟩
  · have happend : [b] ++ (p.plus 1).remaining = [b] ++ (bytes ++ r.remaining) :=
      hfirst.remaining.symm.trans h.remaining
    exact List.append_cancel_left happend
  · rw [h.moved, WasmCodePtr.plus, WasmCodePtr.plus, WasmCodePtr.plus, List.length_cons,
      Nat.add_assoc, Nat.add_comm bytes.length]
    rfl

theorem next_takes (hp : p.Valid) : p.next = .ok (b, q) ↔ Takes p [b] q := by
  constructor
  · intro h
    obtain ⟨hlt, rfl, rfl⟩ := next_eq_ok.mp h
    have hfirst := hp.drop_remaining (show p.raw + 0 < p.bnds from hlt)
    exact takes_of_starts hp ⟨_, hfirst.symm⟩
  · intro h
    obtain ⟨q', hnext, -⟩ := next_parsesTo hp h.remaining
    obtain ⟨-, -, hq⟩ := next_eq_ok.mp hnext
    rw [hnext, hq, h.moved]
    rfl

end Takes

theorem continues_iff (b : UInt8) : (b &&& 0xC0 == 0x80) = true ↔ Continues b := by
  have hall : ∀ x : BitVec 8, x &&& 0xC0#8 = 0x80#8 ↔ 0x80 ≤ x.toNat ∧ x.toNat < 0xC0 := by
    decide +kernel
  rw [beq_iff_eq, ← UInt8.toBitVec_inj]
  exact hall b.toBitVec

theorem leadsTwo_iff (b : UInt8) : (b &&& 0xC0 == 0xC0) = true ↔ 0xC0 ≤ b.toNat := by
  have hall : ∀ x : BitVec 8, x &&& 0xC0#8 = 0xC0#8 ↔ 0xC0 ≤ x.toNat := by decide +kernel
  rw [beq_iff_eq, ← UInt8.toBitVec_inj]
  exact hall b.toBitVec

section CodePoints

variable {p q : WasmCodePtr}

theorem utf8Continuation_eq_ok (hp : p.Valid) {v : Nat} :
    utf8Continuation p = .ok (v, q) ↔ ∃ b, Takes p [b] q ∧ Continues b ∧ v = b.toNat - 0x80 := by
  simp only [utf8Continuation, bind_eq_ok, pure_eq_ok, vmAssert_eq_ok, Prod.exists, Prod.mk.injEq,
    exists_const, continues_iff, next_takes hp]
  constructor
  · rintro ⟨b, q, htakes, hcontinues, hv, rfl⟩
    exact ⟨b, htakes, hcontinues, hv.symm⟩
  · rintro ⟨b, htakes, hcontinues, hv⟩
    exact ⟨b, q, htakes, hcontinues, hv.symm, rfl⟩

/-- A code point that is accepted is a character. -/
theorem validateUtf8CodePoint_sound (hp : p.Valid) {n : Nat}
    (h : validateUtf8CodePoint p = .ok (n, q)) :
    ∃ first, IsChar first ∧ Takes p first q ∧ n = first.length := by
  obtain ⟨⟨ch, p₁⟩, hnext, h⟩ := bind_eq_ok.mp h
  have h₁ := (next_takes hp).mp hnext
  simp only [UInt8.lt_iff_toNat_lt] at h
  split at h
  next hlt =>
    simp only [pure_eq_ok, Prod.mk.injEq] at h
    obtain ⟨rfl, rfl⟩ := h
    exact ⟨[ch], .one hlt, h₁, rfl⟩
  next hge =>
  split at h
  next hlt =>
    simp only [bind_eq_ok, pure_eq_ok, vmAssert_eq_ok, Prod.exists, Prod.mk.injEq, exists_const,
      leadsTwo_iff, utf8Continuation_eq_ok h₁.valid, Bool.and_eq_true, decide_eq_true_eq] at h
    obtain ⟨hlead, v, p₂, ⟨b₂, h₂, hb₂, heq₂⟩, ⟨hlow, -⟩, rfl, rfl⟩ := h
    exact ⟨[ch, b₂], .two ⟨hlead, hlt⟩ hb₂ (by omega), h₁.cons h₂, rfl⟩
  next hge₂ =>
  split at h
  next hlt =>
    obtain ⟨⟨v₂, p₂⟩, hv₂, h⟩ := bind_eq_ok.mp h
    obtain ⟨b₂, h₂, hb₂, heq₂⟩ := (utf8Continuation_eq_ok h₁.valid).mp hv₂
    obtain ⟨⟨v₃, p₃⟩, hv₃, h⟩ := bind_eq_ok.mp h
    obtain ⟨b₃, h₃, hb₃, heq₃⟩ := (utf8Continuation_eq_ok h₂.valid).mp hv₃
    simp only [bind_eq_ok, pure_eq_ok, vmAssert_eq_ok, Prod.mk.injEq, exists_const,
      Bool.or_eq_true, Bool.and_eq_true, decide_eq_true_eq] at h
    obtain ⟨hpoint, rfl, rfl⟩ := h
    refine ⟨[ch, b₂, b₃], .three ⟨Nat.not_lt.mp hge₂, hlt⟩ hb₂ hb₃ ?_ (by omega),
      h₁.cons (h₂.cons h₃), rfl⟩
    unfold Nat.isValidChar
    omega
  next hge₃ =>
  split at h
  next hlt =>
    obtain ⟨⟨v₂, p₂⟩, hv₂, h⟩ := bind_eq_ok.mp h
    obtain ⟨b₂, h₂, hb₂, heq₂⟩ := (utf8Continuation_eq_ok h₁.valid).mp hv₂
    obtain ⟨⟨v₃, p₃⟩, hv₃, h⟩ := bind_eq_ok.mp h
    obtain ⟨b₃, h₃, hb₃, heq₃⟩ := (utf8Continuation_eq_ok h₂.valid).mp hv₃
    obtain ⟨⟨v₄, p₄⟩, hv₄, h⟩ := bind_eq_ok.mp h
    obtain ⟨b₄, h₄, hb₄, heq₄⟩ := (utf8Continuation_eq_ok h₃.valid).mp hv₄
    simp only [bind_eq_ok, pure_eq_ok, vmAssert_eq_ok, Prod.mk.injEq, exists_const,
      Bool.and_eq_true, decide_eq_true_eq] at h
    obtain ⟨⟨hlow, hhigh⟩, rfl, rfl⟩ := h
    have hshortest : 0x10000 ≤ (ch.toNat - 0xF0) * 2 ^ 18 + (b₂.toNat - 0x80) * 2 ^ 12 +
        (b₃.toNat - 0x80) * 2 ^ 6 + (b₄.toNat - 0x80) := by
      rw [← heq₂, ← heq₃, ← heq₄]
      exact hlow
    refine ⟨[ch, b₂, b₃, b₄], .four ⟨Nat.not_lt.mp hge₃, hlt⟩ hb₂ hb₃ hb₄ ?_ hshortest,
      h₁.cons (h₂.cons (h₃.cons h₄)), rfl⟩
    unfold Nat.isValidChar
    omega
  next => cases h

/-- Every character is accepted. -/
theorem validateUtf8CodePoint_complete (hp : p.Valid) {first : List UInt8} (hchar : IsChar first)
    (h : Takes p first q) : validateUtf8CodePoint p = .ok (first.length, q) := by
  simp only [validateUtf8CodePoint, UInt8.lt_iff_toNat_lt, bind_eq_ok, Prod.exists]
  cases hchar with
  | @one b lead =>
    refine ⟨b, q, (next_takes hp).mpr h, ?_⟩
    exact if_pos lead
  | @two b₁ b₂ lead second point =>
    obtain ⟨hlow, hhigh⟩ := second
    obtain ⟨p₁, h₁, h⟩ := takes_cons hp h
    refine ⟨b₁, p₁, (next_takes hp).mpr h₁, ?_⟩
    rw [if_neg (by simp; omega), if_pos (by simp; omega)]
    have h₂ := (utf8Continuation_eq_ok h₁.valid).mpr ⟨b₂, h, ⟨hlow, hhigh⟩, rfl⟩
    have hlead : vmAssert (b₁ &&& 0xC0 == 0xC0) utf8Error = .ok () :=
      vmAssert_eq_ok.mpr ((leadsTwo_iff b₁).mpr lead.1)
    rw [hlead, ok_bind, h₂, ok_bind]
    refine bind_eq_ok.mpr ⟨(), vmAssert_eq_ok.mpr ?_, rfl⟩
    simp only [Bool.and_eq_true, decide_eq_true_eq]
    omega
  | @three b₁ b₂ b₃ lead second third point shortest =>
    obtain ⟨p₁, h₁, h⟩ := takes_cons hp h
    obtain ⟨p₂, h₂, h⟩ := takes_cons h₁.valid h
    refine ⟨b₁, p₁, (next_takes hp).mpr h₁, ?_⟩
    have hv₂ := (utf8Continuation_eq_ok h₁.valid).mpr ⟨b₂, h₂, second, rfl⟩
    have hv₃ := (utf8Continuation_eq_ok h₂.valid).mpr ⟨b₃, h, third, rfl⟩
    rw [if_neg (by simp; omega), if_neg (by simp; omega), if_pos (by simp; omega), hv₂, ok_bind,
      hv₃, ok_bind]
    refine bind_eq_ok.mpr ⟨(), vmAssert_eq_ok.mpr ?_, rfl⟩
    unfold Nat.isValidChar at point
    obtain ⟨-, hhigh₂⟩ := second
    obtain ⟨-, hhigh₃⟩ := third
    simp only [Bool.or_eq_true, Bool.and_eq_true, decide_eq_true_eq]
    omega
  | @four b₁ b₂ b₃ b₄ lead second third fourth point shortest =>
    obtain ⟨p₁, h₁, h⟩ := takes_cons hp h
    obtain ⟨p₂, h₂, h⟩ := takes_cons h₁.valid h
    obtain ⟨p₃, h₃, h⟩ := takes_cons h₂.valid h
    refine ⟨b₁, p₁, (next_takes hp).mpr h₁, ?_⟩
    have hv₂ := (utf8Continuation_eq_ok h₁.valid).mpr ⟨b₂, h₂, second, rfl⟩
    have hv₃ := (utf8Continuation_eq_ok h₂.valid).mpr ⟨b₃, h₃, third, rfl⟩
    have hv₄ := (utf8Continuation_eq_ok h₃.valid).mpr ⟨b₄, h, fourth, rfl⟩
    rw [if_neg (by simp; omega), if_neg (by simp; omega), if_neg (by simp; omega),
      if_pos (by simp; omega), hv₂, ok_bind, hv₃, ok_bind, hv₄, ok_bind]
    refine bind_eq_ok.mpr ⟨(), vmAssert_eq_ok.mpr ?_, rfl⟩
    unfold Nat.isValidChar at point
    simp only [Bool.and_eq_true, decide_eq_true_eq]
    omega

end CodePoints

section Loop

variable {p q : WasmCodePtr}

/-- One round of `validate_utf8_string` on the pointer and the counter. -/
def Utf8Round (s s' : WasmCodePtr × Nat) : Prop :=
  ∃ n, s.2 ≠ 0 ∧ validateUtf8CodePoint s.1 = .ok (n, s'.1) ∧ s'.2 = (s.2 + 2 ^ 32 - n) % 2 ^ 32

/-- The counter is the distance to the bound. -/
structure CountsDown (s : WasmCodePtr × Nat) : Prop where
  valid : s.1.Valid
  counter : s.2 = s.1.bnds - s.1.raw
  small : s.2 < 2 ^ 32

theorem Takes.length_add {bytes : List UInt8} (h : Takes p bytes q) :
    q.bnds = p.bnds ∧ p.bnds - p.raw = bytes.length + (q.bnds - q.raw) := by
  have hraw := h.valid.raw_le
  have hmoved := h.moved
  subst hmoved
  simp only [WasmCodePtr.plus] at hraw ⊢
  refine ⟨trivial, ?_⟩
  omega

/-- The counter goes down by the bytes that are taken. -/
theorem CountsDown.after {s : WasmCodePtr × Nat} {first : List UInt8} (h : CountsDown s)
    (htakes : Takes s.1 first q) :
    s.2 = first.length + (s.2 + 2 ^ 32 - first.length) % 2 ^ 32 ∧
      CountsDown (q, (s.2 + 2 ^ 32 - first.length) % 2 ^ 32) := by
  have hlength := htakes.length_add.2
  have hs := h.counter
  have hsmall := h.small
  exact ⟨by omega, htakes.valid, by simp only; omega, by simp only; omega⟩

/-- A round takes a character off the text. -/
theorem CountsDown.round {s s' : WasmCodePtr × Nat} (h : CountsDown s) (hround : Utf8Round s s') :
    ∃ first, IsChar first ∧ Takes s.1 first s'.1 ∧ s.2 = first.length + s'.2 ∧ CountsDown s' := by
  obtain ⟨q, left⟩ := s'
  obtain ⟨n, -, hok, rfl⟩ := hround
  obtain ⟨first, hchar, htakes, rfl⟩ := validateUtf8CodePoint_sound h.valid hok
  obtain ⟨hcount, hdown⟩ := h.after htakes
  exact ⟨first, hchar, htakes, hcount, hdown⟩

theorem CountsDown.reaches {s s' : WasmCodePtr × Nat} (h : CountsDown s)
    (hreach : Relation.ReflTransGen Utf8Round s s') : CountsDown s' := by
  induction hreach with
  | refl => exact h
  | tail _ hround ih =>
    obtain ⟨first, -, -, -, hdown⟩ := ih.round hround
    exact hdown

theorem remaining_length (h : p.Valid) : p.remaining.length = p.bnds - p.raw := by
  have hle := h.bnds_le
  rw [WasmCodePtr.remaining, List.length_drop, List.length_take, Nat.min_eq_left hle]

/-- The loop accepts exactly text up to the bound. Each round takes at least one byte, so that any
fuel from the counter on gives the same. -/
theorem validateUtf8String_eq_ok {fuel bytes : Nat} (h : CountsDown (p, bytes))
    (hfuel : bytes ≤ fuel) :
    validateUtf8String fuel p bytes = .ok q ↔ WellFormed p.remaining ∧ q = p.plus bytes := by
  have hlength := remaining_length h.valid
  rw [← h.counter] at hlength
  induction fuel generalizing p bytes with
  | zero =>
    obtain rfl := Nat.le_zero.mp hfuel
    rw [List.length_eq_zero_iff.mp hlength]
    exact ⟨fun hok => ⟨wellFormed_nil, (pure_eq_ok.mp hok).symm⟩,
      fun hq => pure_eq_ok.mpr hq.2.symm⟩
  | succ fuel ih =>
    cases bytes with
    | zero =>
      rw [List.length_eq_zero_iff.mp hlength]
      exact ⟨fun hok => ⟨wellFormed_nil, (pure_eq_ok.mp hok).symm⟩,
        fun hq => pure_eq_ok.mpr hq.2.symm⟩
    | succ bytes =>
      -- the induction hypothesis after a character
      have hnext : ∀ first mid, IsChar first → Takes p first mid →
          (validateUtf8String fuel mid ((bytes + 1 + 2 ^ 32 - first.length) % 2 ^ 32) = .ok q ↔
            WellFormed mid.remaining ∧ q = p.plus (bytes + 1)) := by
        intro first mid hchar htakes
        obtain ⟨hcount, hdown⟩ := h.after htakes
        have hpos := hchar.length_pos
        have hplus : p.plus (bytes + 1) =
            mid.plus ((bytes + 1 + 2 ^ 32 - first.length) % 2 ^ 32) := by
          rw [htakes.moved, WasmCodePtr.plus, WasmCodePtr.plus, WasmCodePtr.plus, Nat.add_assoc,
            ← hcount]
        rw [hplus]
        exact ih hdown (by simp only at hcount; omega)
          ((remaining_length hdown.valid).trans hdown.counter.symm)
      simp only [validateUtf8String, bind_eq_ok, Prod.exists]
      constructor
      · rintro ⟨n, mid, hpoint, hrest⟩
        obtain ⟨first, hchar, htakes, rfl⟩ := validateUtf8CodePoint_sound h.valid hpoint
        obtain ⟨htext, hq⟩ := (hnext first mid hchar htakes).mp hrest
        exact ⟨htakes.remaining ▸ htext.cons hchar, hq⟩
      · rintro ⟨htext, hq⟩
        obtain ⟨first, rest, hsplit, hchar, hrest⟩ :=
          htext.split (List.ne_nil_of_length_pos (hlength ▸ Nat.succ_pos _))
        have htakes := takes_of_starts h.valid (hsplit ▸ List.prefix_append first rest)
        have hpoint := validateUtf8CodePoint_complete h.valid hchar htakes
        have htail : rest = (p.plus first.length).remaining :=
          List.append_cancel_left (hsplit.symm.trans htakes.remaining)
        exact ⟨_, _, hpoint, (hnext first _ hchar htakes).mpr ⟨htail ▸ hrest, hq⟩⟩

/-- The fuel is never the reason to stop. -/
theorem validateUtf8String_fuel {fuel bytes : Nat} (h : CountsDown (p, bytes))
    (hfuel : bytes ≤ fuel) :
    validateUtf8String fuel p bytes = validateUtf8String bytes p bytes := by
  suffices hall : ∀ {fuel fuel' bytes : Nat} {p : WasmCodePtr}, CountsDown (p, bytes) →
      bytes ≤ fuel → bytes ≤ fuel' →
      validateUtf8String fuel p bytes = validateUtf8String fuel' p bytes from
    hall h hfuel (Nat.le_refl _)
  intro fuel
  induction fuel with
  | zero =>
    intro fuel' bytes p _ hfuel _
    obtain rfl := Nat.le_zero.mp hfuel
    cases fuel' <;> rfl
  | succ fuel ih =>
    intro fuel' bytes p hdown hfuel hfuel'
    cases bytes with
    | zero => cases fuel' <;> rfl
    | succ bytes =>
      cases fuel' with
      | zero => omega
      | succ fuel' =>
        cases hpoint : validateUtf8CodePoint p with
        | error e => simp only [validateUtf8String, hpoint, error_bind]
        | ok r =>
          obtain ⟨n, mid⟩ := r
          obtain ⟨first, hchar, htakes, rfl⟩ := validateUtf8CodePoint_sound hdown.valid hpoint
          obtain ⟨hcount, hdown'⟩ := hdown.after htakes
          have hpos := hchar.length_pos
          simp only [validateUtf8String, hpoint, ok_bind]
          simp only at hcount
          exact ih hdown' (by omega) (by omega)

end Loop

section Names

variable {code next mid inner : WasmCodePtr} {len : Nat}

/-- `parse_varuint32` succeeds exactly on an encoding of its result. -/
theorem parseVaruint32_eq_ok (h : code.Valid) :
    parseVaruint32 code = .ok (len, mid) ↔
      ∃ size, IsUnsigned 32 size ∧ unsignedValue size = len ∧ Takes code size mid := by
  have hreads := parseUnsigned_reads h (.inr (.inr rfl))
  rw [parseVaruint32_eq, CodeM.parse]
  constructor
  · intro hok
    by_cases hsome : ∃ size, size <+: code.remaining ∧ IsUnsigned 32 size
    · obtain ⟨size, hstart, hsize⟩ := hsome
      rw [hreads.accepts size hstart hsize] at hok
      obtain ⟨rfl, rfl⟩ := Prod.mk.inj (Except.ok.inj hok)
      exact ⟨size, hsize, rfl, takes_of_starts h hstart⟩
    · obtain ⟨e, he⟩ := hreads.rejects fun size hstart hsize => hsome ⟨size, hstart, hsize⟩
      rw [he] at hok
      cases hok
  · rintro ⟨size, hsize, rfl, htakes⟩
    rw [hreads.accepts size htakes.starts hsize, htakes.moved]
    rfl

theorem unsignedValue_lt_of_isUnsigned {size : List UInt8} (h : IsUnsigned 32 size) :
    unsignedValue size < 2 ^ 32 := ((isUnsigned_iff (by decide)).mp h).2.2

/-- The bound of a name is as far away as its length. -/
theorem countsDown_of_shrink (h : code.Valid) (hlen : parseVaruint32 code = .ok (len, mid))
    (hinner : mid.shrinkBounds len = .ok inner) : CountsDown (inner, len) := by
  obtain ⟨size, hsize, rfl, htakes⟩ := (parseVaruint32_eq_ok h).mp hlen
  obtain ⟨hle, rfl⟩ := shrinkBounds_eq_ok.mp hinner
  have hraw := htakes.valid.raw_le
  have hbnds := htakes.valid.bnds_le
  refine ⟨⟨htakes.valid.orig_le, Nat.le_add_right _ _, ?_⟩, ?_,
    unsignedValue_lt_of_isUnsigned hsize⟩
  · simp only
    omega
  · simp only
    omega

theorem remaining_of_shrink (hinner : mid.shrinkBounds len = .ok inner) :
    inner.remaining = mid.remaining.take len ∧ inner.slice len = mid.remaining.take len := by
  obtain ⟨hle, rfl⟩ := shrinkBounds_eq_ok.mp hinner
  constructor
  · rw [WasmCodePtr.remaining, WasmCodePtr.remaining, List.drop_take, List.drop_take,
      List.take_take]
    simp only [Nat.add_sub_cancel_left, Nat.min_eq_left hle]
  · rw [WasmCodePtr.slice, WasmCodePtr.remaining, List.drop_take, List.take_take,
      Nat.min_eq_left hle]

/-- A name after its length. -/
theorem validateName_eq_ok (h : code.Valid) (hlen : parseVaruint32 code = .ok (len, mid))
    (hinner : mid.shrinkBounds len = .ok inner) {last : WasmCodePtr} :
    validateUtf8String len inner len = .ok last ↔
      WellFormed (mid.remaining.take len) ∧ last = inner.plus len := by
  rw [validateUtf8String_eq_ok (countsDown_of_shrink h hlen hinner) (Nat.le_refl _),
    (remaining_of_shrink hinner).1]

/-- A name is accepted exactly when the code starts with its length, at most `maxSize`, and as many
bytes of UTF-8 text, which are what is returned and what is consumed. Each round of the loop takes
its bytes off the counter without wrapping around, and the loop never needs more rounds than the
name has bytes. -/
theorem parse_utf8_string_exact (h : code.Valid) (maxSize : Nat) :
    (∀ bytes next, parseUtf8String maxSize code = .ok (bytes, next) ↔
      ∃ size, IsUnsigned 32 size ∧ unsignedValue size = bytes.length ∧ bytes.length ≤ maxSize ∧
        size ++ bytes <+: code.remaining ∧ WellFormed bytes ∧
        next = code.plus (size.length + bytes.length)) ∧
    ∀ len mid inner, parseVaruint32 code = .ok (len, mid) → mid.shrinkBounds len = .ok inner →
      (∀ s s', Relation.ReflTransGen Utf8Round (inner, len) s → Utf8Round s s' →
        ∃ n, validateUtf8CodePoint s.1 = .ok (n, s'.1) ∧ 0 < n ∧ n ≤ s.2 ∧ s'.2 = s.2 - n) ∧
      ∀ fuel, len ≤ fuel → validateUtf8String fuel inner len =
        validateUtf8String len inner len := by
  constructor
  · intro bytes next
    simp only [parseUtf8String, bind_eq_ok, pure_eq_ok, vmAssert_eq_ok, Prod.exists, exists_const,
      Prod.mk.injEq, decide_eq_true_eq]
    constructor
    · rintro ⟨len, mid, hlen, hmax, inner, hinner, last, hlast, rfl, rfl⟩
      obtain ⟨htext, rfl⟩ := (validateName_eq_ok h hlen hinner).mp hlast
      obtain ⟨size, hsize, hvalue, htakes⟩ := (parseVaruint32_eq_ok h).mp hlen
      obtain ⟨hle, rfl⟩ := shrinkBounds_eq_ok.mp hinner
      have hlength : (mid.remaining.take len).length = len := by
        rw [List.length_take, remaining_length htakes.valid, Nat.min_eq_left hle]
      rw [(remaining_of_shrink hinner).2, hlength]
      refine ⟨size, hsize, hvalue, hmax, ?_, htext, ?_⟩
      · rw [htakes.remaining]
        exact (List.prefix_append_right_inj size).mpr (List.take_prefix _ _)
      · rw [htakes.moved]
        simp only [WasmCodePtr.plus, WasmCodePtr.restore, Nat.add_assoc]
    · rintro ⟨size, hsize, hvalue, hmax, hstart, htext, rfl⟩
      have htakes := takes_of_starts h ((List.prefix_append size bytes).trans hstart)
      have hlen := (parseVaruint32_eq_ok h).mpr ⟨size, hsize, rfl, htakes⟩
      have hbytes : bytes <+: (code.plus size.length).remaining := by
        rw [htakes.remaining] at hstart
        exact (List.prefix_append_right_inj size).mp hstart
      have hle : bytes.length ≤ (code.plus size.length).bnds - (code.plus size.length).raw :=
        remaining_length htakes.valid ▸ hbytes.length_le
      have hinner := shrinkBounds_eq_ok.mpr ⟨hle, rfl⟩
      have htake := List.prefix_iff_eq_take.mp hbytes
      rw [hvalue] at hlen
      refine ⟨_, _, hlen, hmax, _, hinner, _,
        (validateName_eq_ok h hlen hinner).mpr ⟨htake ▸ htext, rfl⟩, ?_, ?_⟩
      · rw [(remaining_of_shrink hinner).2, ← htake]
      · simp only [WasmCodePtr.plus, WasmCodePtr.restore, Nat.add_assoc]
  · intro len mid inner hlen hinner
    have hstart := countsDown_of_shrink h hlen hinner
    refine ⟨?_, fun fuel hfuel => validateUtf8String_fuel hstart hfuel⟩
    intro s s' hreach hround
    obtain ⟨n, hne, hpoint, hcounter⟩ := hround
    have hdown := hstart.reaches hreach
    obtain ⟨first, hchar, htakes, rfl⟩ := validateUtf8CodePoint_sound hdown.valid hpoint
    have hcount := (hdown.after htakes).1
    exact ⟨_, hpoint, hchar.length_pos, by omega, by omega⟩

/-- A character of three bytes, and one byte more. -/
theorem euroName_accepted :
    parseUtf8String 10 (codeOf [0x03, 0xE2, 0x82, 0xAC, 0x41]) =
      .ok ([0xE2, 0x82, 0xAC], (codeOf [0x03, 0xE2, 0x82, 0xAC, 0x41]).plus 4) := by
  obtain ⟨hvalid, hremaining⟩ := codeOf_valid [0x03, 0xE2, 0x82, 0xAC, 0x41]
  have hsize : IsUnsigned 32 [0x03] :=
    (isUnsigned_iff (by decide)).mpr ⟨show (3 : UInt8).toNat < 128 by decide, by decide, by decide⟩
  refine ((parse_utf8_string_exact hvalid 10).1 _ _).mpr
    ⟨[0x03], hsize, by decide, by decide, ?_, ⟨['€'], by decide⟩, rfl⟩
  exact hremaining ▸ ⟨[0x41], rfl⟩

end Names

end EosVm
