import EosVm.Source.ArgumentProxy

/-!
# Pointer arguments are views of guest memory

A proxy either shows the guest memory itself or a copy of it that is written back in the end. The
proxy for a span divides by its alignment parameter before it looks at whether there is one.
-/

set_option autoImplicit false

namespace EosVm

section Bytes

variable {memory : Nat → UInt8} {addr n : Nat} {bytes : List UInt8}

@[simp] theorem copyBytes_length : (copyBytes memory addr n).length = n := by
  simp [copyBytes]

theorem copyBytes_writeBytes :
    copyBytes (writeBytes memory addr bytes) addr bytes.length = bytes := by
  apply List.ext_getElem
  · simp
  · intro i hi hi'
    simp [copyBytes, writeBytes, hi']

theorem writeBytes_copyBytes : writeBytes memory addr (copyBytes memory addr n) = memory := by
  funext a
  unfold writeBytes
  split
  next h =>
    rw [copyBytes_length] at h
    rw [List.getD_eq_getElem?_getD, copyBytes, List.getElem?_map, List.getElem?_range (by omega)]
    simp only [Option.map_some, Option.getD_some]
    exact congrArg memory (by omega)
  next => rfl

/-- A store inside the block that was written. -/
theorem update_writeBytes {i : Nat} (hi : i < bytes.length) (byte : UInt8) :
    Function.update (writeBytes memory addr bytes) (addr + i) byte =
      writeBytes memory addr (bytes.set i byte) := by
  funext a
  simp only [Function.update_apply, writeBytes, List.length_set]
  by_cases ha : a = addr + i
  · subst ha
    rw [if_pos rfl, if_pos (by omega), Nat.add_sub_cancel_left]
    simp [hi]
  · rw [if_neg ha]
    split
    next h =>
      rw [List.getD_eq_getElem?_getD, List.getD_eq_getElem?_getD,
        List.getElem?_set_ne (by omega : i ≠ a - addr)]
    next => rfl

end Bytes

def ProxyArgument.ptr : ProxyArgument → Nat
  | .pointer ptr => ptr
  | .span ptr _ => ptr

/-- The bytes of all elements. -/
def ProxyArgument.bytes (t : ProxyType) : ProxyArgument → Nat
  | .pointer _ => t.sizeof
  | .span _ size => size * t.sizeof

/-- The host stays inside the elements, and does not write const ones. -/
def HostAction.Allowed (t : ProxyType) (n : Nat) : HostAction → Prop
  | .store i _ => i < n ∧ t.isConst = false
  | .move | .destroyMoved => True

/-- The elements after a store of the host. -/
def HostAction.apply (bytes : List UInt8) : HostAction → List UInt8
  | .store i byte => bytes.set i byte
  | .move | .destroyMoved => bytes

namespace ArgumentProxy

def originalPtr : ArgumentProxy → Nat
  | .pointer p => p.originalPtr
  | .span p => p.originalPtr

theorem destroy_of_copied {t : ProxyType} {p : ArgumentProxy} {memory : Nat → UInt8}
    {bytes : List UInt8} (ht : t.isConst = false) (h : p.copied = some bytes) :
    p.destroy t memory = writeBytes memory p.originalPtr bytes := by
  cases p <;> simp only [copied] at h <;>
    simp [destroy, PointerProxy.destroy, SpanProxy.destroy, originalPtr, ht, h]

theorem destroy_of_const {t : ProxyType} {p : ArgumentProxy} {memory : Nat → UInt8}
    (ht : t.isConst = true) : p.destroy t memory = memory := by
  cases p <;> simp [destroy, PointerProxy.destroy, SpanProxy.destroy, ht]

theorem destroy_of_none {t : ProxyType} {p : ArgumentProxy} {memory : Nat → UInt8}
    (h : p.copied = none) : p.destroy t memory = memory := by
  cases p <;> simp only [copied] at h <;>
    simp [destroy, PointerProxy.destroy, SpanProxy.destroy, h]

theorem setCopied_spec (p : ArgumentProxy) (i : Nat) (byte : UInt8) :
    (p.setCopied i byte).place = p.place ∧ (p.setCopied i byte).originalPtr = p.originalPtr ∧
      (p.setCopied i byte).copied = p.copied.map (·.set i byte) := by
  cases p with
  | pointer p => simp [setCopied, place, PointerProxy.get, originalPtr, copied]
  | span p => exact ⟨rfl, rfl, rfl⟩

theorem move_spec (p : ArgumentProxy) : p.move.1 = p ∧ p.move.2.copied = none := by
  cases p <;> exact ⟨rfl, rfl⟩

end ArgumentProxy

section Use

variable {t : ProxyType} {memory : Nat → UInt8} {ptr n : Nat} {u : ProxyUse} {bytes : List UInt8}

/-- The host sees `bytes`, which are in the private copy while the memory is as it was, or in the
memory itself. -/
structure Shows (t : ProxyType) (memory : Nat → UInt8) (ptr n : Nat) (u : ProxyUse)
    (bytes : List UInt8) : Prop where
  length : bytes.length = n
  const : t.isConst = true → bytes = copyBytes memory ptr n
  moved : ∀ p ∈ u.moved, p.copied = none
  place :
    (u.proxy.place = .copy ∧ u.proxy.copied = some bytes ∧ u.proxy.originalPtr = ptr ∧
      u.memory = memory) ∨
    (u.proxy.place = .guest ptr ∧ u.proxy.copied = none ∧ u.memory = writeBytes memory ptr bytes)

theorem Shows.act (h : Shows t memory ptr n u bytes) {action : HostAction}
    (hallowed : action.Allowed t n) : Shows t memory ptr n (u.act t action)
    (action.apply bytes) := by
  obtain ⟨hlength, hconst, hmoved, hplace⟩ := h
  cases action with
  | store i byte =>
    obtain ⟨hi, hmutable⟩ := hallowed
    have hstored : (HostAction.apply bytes (.store i byte)).length = n := by
      rw [HostAction.apply, List.length_set, hlength]
    have hnever : t.isConst = true → HostAction.apply bytes (.store i byte) =
        copyBytes memory ptr n :=
      fun hc => absurd (hmutable.symm.trans hc) Bool.false_ne_true
    rcases hplace with ⟨hcopy, hcopied, horiginal, hmemory⟩ | ⟨hguest, hcopied, hmemory⟩
    · obtain ⟨hsame, hsamePtr, hset⟩ := u.proxy.setCopied_spec i byte
      simp only [ProxyUse.act, hcopy]
      refine ⟨hstored, hnever, hmoved,
        .inl ⟨hsame.trans hcopy, ?_, hsamePtr.trans horiginal, hmemory⟩⟩
      rw [hset, hcopied]
      rfl
    · simp only [ProxyUse.act, hguest]
      refine ⟨hstored, hnever, hmoved, .inr ⟨hguest, hcopied, ?_⟩⟩
      simp only [hmemory]
      exact update_writeBytes (hlength ▸ hi) byte
  | move =>
    obtain ⟨hsame, hempty⟩ := u.proxy.move_spec
    simp only [ProxyUse.act, hsame]
    refine ⟨hlength, hconst, ?_, hplace⟩
    intro p hp
    rcases List.mem_cons.mp hp with rfl | hp
    · exact hempty
    · exact hmoved p hp
  | destroyMoved =>
    cases hlist : u.moved with
    | nil =>
      simp only [ProxyUse.act, hlist]
      exact ⟨hlength, hconst, hmoved, hplace⟩
    | cons p moved =>
      rw [hlist] at hmoved
      have hnone : p.destroy t u.memory = u.memory :=
        ArgumentProxy.destroy_of_none (hmoved p List.mem_cons_self)
      simp only [ProxyUse.act, hlist, hnone]
      exact ⟨hlength, hconst, fun q hq => hmoved q (List.mem_cons_of_mem _ hq), hplace⟩

/-- A whole use of the proxy. -/
theorem Shows.run (h : Shows t memory ptr n u bytes) {actions : List HostAction}
    (hallowed : ∀ action ∈ actions, action.Allowed t n) :
    Shows t memory ptr n (actions.foldl (ProxyUse.act t) u)
      (actions.foldl HostAction.apply bytes) := by
  induction actions generalizing u bytes with
  | nil => exact h
  | cons action actions ih =>
    exact ih (h.act (hallowed action List.mem_cons_self))
      fun a ha => hallowed a (List.mem_cons_of_mem _ ha)

theorem Shows.view (h : Shows t memory ptr n u bytes) : u.view n = bytes := by
  rcases h.place with ⟨hcopy, hcopied, -, -⟩ | ⟨hguest, -, hmemory⟩
  · simp only [ProxyUse.view, hcopy, hcopied, Option.getD_some]
  · simp only [ProxyUse.view, hguest, hmemory, ← h.length]
    exact copyBytes_writeBytes

theorem Shows.finish (h : Shows t memory ptr n u bytes) :
    u.finish t = writeBytes memory ptr bytes := by
  -- the proxies that were moved from do nothing
  have hmoved : ∀ (l : List ArgumentProxy) (m : Nat → UInt8), (∀ p ∈ l, p.copied = none) →
      l.foldl (fun memory p => p.destroy t memory) m = m := by
    intro l
    induction l with
    | nil => intro m _; rfl
    | cons p l ih =>
      intro m hall
      rw [List.foldl_cons, ArgumentProxy.destroy_of_none (hall p List.mem_cons_self)]
      exact ih m fun q hq => hall q (List.mem_cons_of_mem _ hq)
  rw [ProxyUse.finish, hmoved _ _ h.moved]
  rcases h.place with ⟨-, hcopied, horiginal, hmemory⟩ | ⟨-, hcopied, hmemory⟩
  · cases ht : t.isConst with
    | true => rw [ArgumentProxy.destroy_of_const ht, hmemory, h.const ht, writeBytes_copyBytes]
    | false => rw [ArgumentProxy.destroy_of_copied ht hcopied, horiginal, hmemory]
  · rw [ArgumentProxy.destroy_of_none hcopied, hmemory]

end Use

/-- The proxy is constructed and copies the elements exactly when it has to. Whatever the host does
with it, it sees the bytes at the original address with its own stores, and when all proxies are
destroyed these bytes are in the memory and no other byte has changed. -/
def FaithfulView (t : ProxyType) (memory : Nat → UInt8) (arg : ProxyArgument) : Prop :=
  ∃ p, ArgumentProxy.make t memory arg = some p ∧
    (p.copied.isSome = true ↔ t.legacyAlign = 0 ∨ ¬ t.legacyAlign ∣ arg.ptr) ∧
    ∀ actions : List HostAction, (∀ action ∈ actions, action.Allowed t (arg.bytes t)) →
      (actions.foldl (ProxyUse.act t) ⟨memory, p, []⟩).view (arg.bytes t) =
          actions.foldl HostAction.apply (copyBytes memory arg.ptr (arg.bytes t)) ∧
        (actions.foldl (ProxyUse.act t) ⟨memory, p, []⟩).finish t =
          writeBytes memory arg.ptr (actions.foldl HostAction.apply
            (copyBytes memory arg.ptr (arg.bytes t)))

section Construction

variable {t : ProxyType} {memory : Nat → UInt8} {arg : ProxyArgument} {p : ArgumentProxy}

theorem faithfulView_of_shows (hmake : ArgumentProxy.make t memory arg = some p)
    (hcopied : p.copied.isSome = true ↔ t.legacyAlign = 0 ∨ ¬ t.legacyAlign ∣ arg.ptr)
    (hplace : (p.place = .copy ∧ p.copied = some (copyBytes memory arg.ptr (arg.bytes t)) ∧
        p.originalPtr = arg.ptr) ∨ (p.place = .guest arg.ptr ∧ p.copied = none)) :
    FaithfulView t memory arg := by
  have hshows : Shows t memory arg.ptr (arg.bytes t) ⟨memory, p, []⟩
      (copyBytes memory arg.ptr (arg.bytes t)) := by
    refine ⟨copyBytes_length, fun _ => rfl, fun q hq => absurd hq List.not_mem_nil, ?_⟩
    rcases hplace with ⟨hplace, hbytes, horiginal⟩ | ⟨hplace, hnone⟩
    · exact .inl ⟨hplace, hbytes, horiginal, rfl⟩
    · exact .inr ⟨hplace, hnone, writeBytes_copyBytes.symm⟩
  refine ⟨p, hmake, hcopied, fun actions hallowed => ?_⟩
  exact ⟨(hshows.run hallowed).view, (hshows.run hallowed).finish⟩

theorem pointer_faithful (ptr : Nat) : FaithfulView t memory (.pointer ptr) := by
  by_cases hcopy : t.legacyAlign = 0 ∨ ¬ t.legacyAlign ∣ ptr
  · have hmake : PointerProxy.make t memory ptr = ⟨ptr, some (copyBytes memory ptr t.sizeof)⟩ := by
      have hcond : (t.legacyAlign = 0 || ptr % t.legacyAlign != 0) = true := by
        simpa [Nat.dvd_iff_mod_eq_zero] using hcopy
      rw [PointerProxy.make, if_pos hcond]
    refine faithfulView_of_shows (congrArg (some ∘ ArgumentProxy.pointer) hmake) ?_ (.inl ?_)
    · exact iff_of_true rfl hcopy
    · exact ⟨rfl, rfl, rfl⟩
  · have hmake : PointerProxy.make t memory ptr = ⟨ptr, none⟩ := by
      have hcond : ¬ (t.legacyAlign = 0 || ptr % t.legacyAlign != 0) = true := by
        simpa [Nat.dvd_iff_mod_eq_zero] using hcopy
      rw [PointerProxy.make, if_neg hcond]
    refine faithfulView_of_shows (congrArg (some ∘ ArgumentProxy.pointer) hmake) ?_ (.inr ?_)
    · exact iff_of_false Bool.false_ne_true hcopy
    · exact ⟨rfl, rfl⟩

theorem span_faithful (ptr size : Nat) (halign : t.legacyAlign ≠ 0) :
    FaithfulView t memory (.span ptr size) := by
  by_cases hdvd : t.legacyAlign ∣ ptr
  · have hmake : SpanProxy.make t memory ptr size = some ⟨ptr, none, .guest ptr, size⟩ := by
      simp [SpanProxy.make, SpanProxy.isAligned, halign, Nat.dvd_iff_mod_eq_zero.mp hdvd]
    refine faithfulView_of_shows (congrArg (Option.map ArgumentProxy.span) hmake) ?_ (.inr ?_)
    · exact iff_of_false Bool.false_ne_true (not_or.mpr ⟨halign, not_not.mpr hdvd⟩)
    · exact ⟨rfl, rfl⟩
  · have hmake : SpanProxy.make t memory ptr size =
        some ⟨ptr, some (copyBytes memory ptr (size * t.sizeof)), .copy, size⟩ := by
      have hmod : ptr % t.legacyAlign ≠ 0 := mt Nat.dvd_iff_mod_eq_zero.mpr hdvd
      simp [SpanProxy.make, SpanProxy.isAligned, halign, hmod]
    refine faithfulView_of_shows (congrArg (Option.map ArgumentProxy.span) hmake) ?_ (.inl ?_)
    · exact iff_of_true rfl (.inr hdvd)
    · exact ⟨rfl, rfl, rfl⟩

/-- Every pointer argument is a faithful view of the guest memory. A span is one exactly when its
alignment parameter is not the default. -/
theorem argument_proxy_faithful_iff (t : ProxyType) (memory : Nat → UInt8) (arg : ProxyArgument) :
    FaithfulView t memory arg ↔ (∃ ptr, arg = .pointer ptr) ∨ t.legacyAlign ≠ 0 := by
  constructor
  · rintro ⟨p, hmake, -⟩
    cases arg with
    | pointer ptr => exact .inl ⟨ptr, rfl⟩
    | span ptr size =>
      refine .inr fun hzero => ?_
      simp [ArgumentProxy.make, SpanProxy.make, SpanProxy.isAligned, hzero] at hmake
  · intro h
    cases arg with
    | pointer ptr => exact pointer_faithful ptr
    | span ptr size =>
      refine span_faithful ptr size (h.resolve_left ?_)
      rintro ⟨ptr', heq⟩
      cases heq

/-- A span of two 32-bit elements with the default alignment parameter. -/
theorem defaultSpan_not_faithful :
    ¬ FaithfulView ⟨0, 4, false⟩ (fun _ => 0) (.span 8 2) ∧
      ArgumentProxy.make ⟨0, 4, false⟩ (fun _ => 0) (.span 8 2) = none := by
  refine ⟨?_, rfl⟩
  rintro ⟨p, hmake, -⟩
  cases hmake

end Construction

end EosVm
