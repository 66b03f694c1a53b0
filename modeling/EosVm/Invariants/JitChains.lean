import EosVm.Invariants.JitFrames
import Mathlib.Data.List.Basic

/-!
# Call chains of the machine code

The functions that run in one `execute` have used up what is missing from the register: one for each
call, or the charges of their frames. Faults and changes of the limit by host functions do not
matter, since the code keeps its counter in the register.
-/

set_option autoImplicit false

namespace EosVm

open Lib

namespace Jit

variable {code : JitModule} {m : Jit} {event : Event} {o : Step}

/-- The charges of the functions that run. -/
def charges (code : JitModule) (funcs : List (Nat × Nat)) : Nat :=
  (funcs.map fun f => code.usage f.1).sum

/-- The register of a frame whose code runs. With a limit on the depth, an `execute` without any
depth left wraps around at the first call. -/
structure Chain (code : JitModule) (frame : JitFrame) : Prop where
  before : frame.before.remaining < 2 ^ 32
  saved : ∀ saved returned, frame.inHost = some (saved, returned) → saved < 2 ^ 32
  register : frame.ebx < 2 ^ 32
  running : frame.imported = false → frame.funcs ≠ []
  bytes : frame.imported = false → code.mod.stackLimitIsBytes = true →
    frame.ebx + charges code frame.funcs = frame.before.remaining
  depth : frame.imported = false → code.mod.stackLimitIsBytes = false →
    frame.before.remaining ≠ 0 → 1 ≤ frame.ebx ∧
      frame.ebx + frame.funcs.length + (if frame.inHost.isSome then 1 else 0) =
        frame.before.remaining + 1
  defined : ∀ func ∈ frame.funcs, code.mod.isImported func.1 = false

end Jit

end EosVm
