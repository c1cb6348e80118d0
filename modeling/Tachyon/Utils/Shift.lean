import Mathlib.Data.List.Basic

/-!
# `Tachyon.Utils.Shift`: moving the received bytes to the end of their buffer

`utils/shift.rs`, the in-place variants. `request_reply` runs `shift_ub_inplace` in UBDMA mode.

`shift_safe` moves one byte after another without bounds checks. An access out of the buffer is
undefined, which is `none` here.
-/

set_option autoImplicit false

namespace Tachyon

namespace Shift

/-- `buf.copy_within(0..len, dst)`. -/
def copyWithin (buf : List UInt8) (len dst : Nat) : List UInt8 :=
  buf.take dst ++ buf.take len ++ buf.drop (dst + len)

/-- `shift_ub_inplace`: the first `len` bytes move to the end, the bytes before them
become zero. -/
def shiftUbInplace (buf : List UInt8) (len : Nat) : List UInt8 :=
  let dstOffset := buf.length - len
  List.replicate dstOffset 0 ++ (copyWithin buf len dstOffset).drop dstOffset

/-- `*buf.get_unchecked_mut(i) = b`. -/
def setUnchecked (buf : List UInt8) (i : Nat) (b : UInt8) : Option (List UInt8) :=
  if i < buf.length then some (buf.set i b) else none

/-- `for i in (0..len).rev()`: each byte is moved, and its old place is cleared behind it. -/
def shiftSafeLoop (len : Nat) : Nat → List UInt8 → Option (List UInt8)
  | 0, buf => some buf
  | i + 1, buf => do
    let b ← buf[i]?
    let buf ← setUnchecked buf (buf.length - len + i) b
    let buf ← setUnchecked buf i 0
    shiftSafeLoop len i buf

/-- `shift_safe`. -/
def shiftSafe (buf : List UInt8) (len : Nat) : Option (List UInt8) := shiftSafeLoop len len buf

end Shift

end Tachyon
