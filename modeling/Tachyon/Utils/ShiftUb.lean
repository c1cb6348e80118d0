import Tachyon.Server

/-!
# `Tachyon.Utils.ShiftUb`: the shift into a new array

`shift_ub` of `utils/shift.rs`. The array it returns has `BUFFER_SIZE` bytes, a constant of the
server, while `shift_ub_inplace` works on a slice of any length.
-/

set_option autoImplicit false

namespace Tachyon

namespace Simd

/-- `_mm256_storeu_si256(ptr.add(i), a)`. -/
def storeuSi256 (m : Mem) (ptr : Nat) (a : M256i) : Mem := m.write ptr (List.ofFn a)

end Simd

namespace Shift

open Simd

/-- `while i + 32 <= len`: a chunk goes to the same place behind `start`. -/
def shiftUbChunks (src : Mem) (start len : Nat) : Nat → Nat → Mem → Nat × Mem
  | 0, i, dst => (i, dst)
  | rounds + 1, i, dst =>
    if i + 32 ≤ len then
      let chunk := loaduSi256 src i
      shiftUbChunks src start len rounds (i + 32) (storeuSi256 dst (start + i) chunk)
    else (i, dst)

/-- `while i < len`: the bytes that are left. -/
def shiftUbTail (src : Mem) (start len : Nat) : Nat → Nat → Mem → Mem
  | 0, _, dst => dst
  | rounds + 1, i, dst =>
    if i < len then shiftUbTail src start len rounds (i + 1) (dst.write (start + i) [src i])
    else dst

/-- `shift_ub`: the first `len` bytes at the end of an array of zeros. -/
def shiftUb (buf : List UInt8) (len : Nat) : List UInt8 :=
  let src := (Slice.ofList buf).ptr
  let start := BUFFER_SIZE - len
  let (i, dst) := shiftUbChunks src start len len 0 fun _ => 0
  (shiftUbTail src start len len i dst).read 0 BUFFER_SIZE

end Shift

end Tachyon
