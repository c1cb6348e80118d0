import Tachyon.Utils.Http

/-!
# `Tachyon.Utils.Trim`: dropping zero bytes at either end

`utils/trim.rs`. `lTrim256` is the left trim that `ubdma` runs over the last kernel buffer. The
result of its loops is the index where the slice `&data[i..]` starts, or the length for the empty
slice. Its loads read the memory, whoever owns it.

`lTrim256In` is the same function with a check of every read, and `rTrim256` is the right trim in
the same form. `none` is a read out of the slice, or a panic of `&data[i..]`.
-/

set_option autoImplicit false

namespace Tachyon

namespace Trim

open Simd

/-- `trailing_ones` of the mask. -/
def trailingOnes (mask : BitVec 32) : Nat := (~~~mask).ctz.toNat

/-- The byte loop over what the chunk loop left. -/
def lTrimTail (data : Slice) : Nat → Nat → Nat
  | 0, i => i
  | rounds + 1, i =>
    if i < data.len then
      if data.ptr i ≠ 0 then i else lTrimTail data rounds (i + 1)
    else i

/-- `while i + 32 <= len`: stops in the first chunk with a non-zero byte. -/
def lTrimChunks (data : Slice) : Nat → Nat → Nat
  | 0, i => lTrimTail data data.len i
  | rounds + 1, i =>
    if i + 32 ≤ data.len then
      let mask := movemaskEpi8 (cmpeqEpi8 (loaduSi256 data.ptr i) (set1Epi8 0))
      if mask ≠ BitVec.allOnes 32 then i + trailingOnes mask
      else lTrimChunks data rounds (i + 32)
    else lTrimTail data data.len i

/-- `l_trim256`. -/
def lTrim256 (data : Slice) : Slice := data.drop (lTrimChunks data data.len 0)

/-! ### Checked reads -/

/-- `_mm256_loadu_si256(ptr.add(i))`. -/
def loadIn (data : Slice) (i : Nat) : Option M256i :=
  if i + 32 ≤ data.len then some (loaduSi256 data.ptr i) else none

/-- `*ptr.add(i)`. -/
def byteIn (data : Slice) (i : Nat) : Option UInt8 :=
  if i < data.len then some (data.ptr i) else none

/-- `&data[i..]`. -/
def sliceFrom (data : Slice) (i : Nat) : Option Slice :=
  if i ≤ data.len then some (data.drop i) else none

/-- `&data[..i]`. -/
def sliceTo (data : Slice) (i : Nat) : Option Slice :=
  if i ≤ data.len then some ⟨data.ptr, i⟩ else none

/-! ### `l_trim256` -/

/-- `while i < len`, and `&[]` behind it. -/
def lTrimTailIn (data : Slice) : Nat → Nat → Option Slice
  | 0, _ => none
  | rounds + 1, i =>
    if i < data.len then do
      let b ← byteIn data i
      if b ≠ 0 then sliceFrom data i else lTrimTailIn data rounds (i + 1)
    else some (data.drop data.len)

/-- `while i + 32 <= len`. -/
def lTrimChunksIn (data : Slice) : Nat → Nat → Option Slice
  | 0, _ => none
  | rounds + 1, i =>
    if i + 32 ≤ data.len then do
      let chunk ← loadIn data i
      let mask := movemaskEpi8 (cmpeqEpi8 chunk (set1Epi8 0))
      if mask ≠ BitVec.allOnes 32 then sliceFrom data (i + trailingOnes mask)
      else lTrimChunksIn data rounds (i + 32)
    else lTrimTailIn data (data.len + 1) i

/-- `l_trim256`, with its reads checked. -/
def lTrim256In (data : Slice) : Option Slice := lTrimChunksIn data (data.len + 1) 0

/-! ### `r_trim256` -/

/-- `for j in (0..32).rev()`: looks for the last non-zero byte of a chunk. -/
def rTrimRescan (buf : Slice) (offset : Nat) : Nat → Option (Option Slice)
  | 0 => some none
  | j + 1 => do
    let b ← byteIn buf (offset + j)
    if b ≠ 0 then (sliceTo buf (offset + j + 1)).map some else rTrimRescan buf offset j

/-- `while i > 0`, and `&[]` behind it. -/
def rTrimTail (buf : Slice) : Nat → Option Slice
  | 0 => some ⟨buf.ptr, 0⟩
  | i + 1 => do
    let b ← byteIn buf i
    if b ≠ 0 then sliceTo buf (i + 1) else rTrimTail buf i

/-- `while i >= 32`. -/
def rTrimChunks (buf : Slice) : Nat → Nat → Option Slice
  | 0, _ => none
  | rounds + 1, i =>
    if 32 ≤ i then do
      let offset := i - 32
      let chunk ← loadIn buf offset
      let mask := movemaskEpi8 (cmpeqEpi8 chunk setzeroSi256)
      let found ← if mask ≠ BitVec.allOnes 32 then rTrimRescan buf offset 32 else some none
      match found with
      | some trimmed => some trimmed
      | none => rTrimChunks buf rounds (i - 32)
    else rTrimTail buf i

/-- `r_trim256`. -/
def rTrim256 (buf : Slice) : Option Slice :=
  if buf.len = 0 then some ⟨buf.ptr, 0⟩ else rTrimChunks buf (buf.len + 1) buf.len

end Trim

end Tachyon
