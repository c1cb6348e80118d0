import Tachyon.Utils.ShiftUb

/-!
# `Tachyon.Utils.Zero`: the vectorised zero fill

`avx2_zero` of `utils/memory.rs`. A store that leaves the buffer is undefined behaviour, which is
`none` here. No pointer sum wraps.
-/

set_option autoImplicit false

namespace Tachyon

namespace Zero

open Simd

/-- A store of `bs` at `ptr`, for a buffer from `buf` to `stop`. -/
def store (buf stop : Nat) (m : Mem) (ptr : Nat) (bs : List UInt8) : Option Mem :=
  if buf ≤ ptr ∧ ptr + bs.length ≤ stop then some (m.write ptr bs) else none

/-- `while ptr.add(32) <= end`. -/
def zeroChunks (buf stop : Nat) : Nat → Nat → Mem → Option (Nat × Mem)
  | 0, ptr, m => some (ptr, m)
  | rounds + 1, ptr, m =>
    if ptr + 32 ≤ stop then do
      let m ← store buf stop m ptr (List.ofFn setzeroSi256)
      zeroChunks buf stop rounds (ptr + 32) m
    else some (ptr, m)

/-- `avx2_zero`. -/
def avx2Zero (buf len : Nat) (m : Mem) : Option Mem := do
  let stop := buf + len
  let (ptr, m) ← zeroChunks buf stop len buf m
  if ptr < stop then store buf stop m ptr (List.replicate (stop - ptr) 0) else some m

end Zero

end Tachyon
