import Tachyon.Lib.Cells

/-!
# `Tachyon.Utils.Memory`: flattening iovecs

`flatten_iovec` and `fast_flatten_iovec` of `utils/memory.rs`. A cell of the heap is a byte, or
`none` where no byte has been written. A pointer is an address. The blocks of a process are below
`ADDRESS_SPACE`, so no pointer sum wraps.

A vector grows as `Vec` does: to twice its capacity, or to what is needed if that is more, and to 8
bytes at least. Where the new block is, the allocator decides.

The result `none` is a panic or undefined behaviour: a `reserve` over the largest capacity, a
`set_len` over the capacity, or a `copy_nonoverlapping` of ranges that overlap. That the allocator
runs out of memory, which aborts the process, is left out.
-/

set_option autoImplicit false

namespace Tachyon

namespace Memory

/-- Addresses and their bytes. -/
abbrev Heap := Cells (Option UInt8)

/-- `isize::MAX`. -/
def ISIZE_MAX : Nat := 2 ^ 63 - 1

/-- The addresses of a process on x86-64, with page tables of five levels. -/
def ADDRESS_SPACE : Nat := 2 ^ 57

/-- `libc::iovec`. -/
structure Iovec where
  iovBase : Nat
  iovLen : Nat
  deriving DecidableEq, Repr

/-- `&mut [u8]`. -/
structure MutSlice where
  ptr : Nat
  len : Nat

/-- `Vec<u8>`: its block, and how much of it is used. -/
structure ByteVec where
  ptr : Nat
  len : Nat
  capacity : Nat
  len_le : len ≤ capacity
  capacity_le : capacity ≤ ISIZE_MAX

/-- The bytes of a vector. -/
def ByteVec.contents (v : ByteVec) (m : Heap) : List (Option UInt8) := m.read v.ptr v.len

/-- The capacity that a vector grows to when `needed` bytes do not fit. -/
def ByteVec.grown (v : ByteVec) (needed : Nat) : Nat := max 8 (max (v.capacity * 2) needed)

theorem ByteVec.le_grown (v : ByteVec) (needed : Nat) : needed ≤ v.grown needed :=
  Nat.le_trans (Nat.le_max_right _ _) (Nat.le_max_right _ _)

/-- Where the allocator places a block of a capacity. -/
abbrev Allocator := Nat → Nat

/-- The heap after a vector has moved to a new block. Its bytes are there, the other bytes of both
blocks are not initialised. -/
def moveBlock (m : Heap) (v : ByteVec) (ptr capacity : Nat) : Heap := fun a =>
  if ptr ≤ a ∧ a < ptr + v.len then m (v.ptr + (a - ptr))
  else if ptr ≤ a ∧ a < ptr + capacity ∨ v.ptr ≤ a ∧ a < v.ptr + v.capacity then none
  else m a

/-- `Vec::reserve`. It panics if the new capacity exceeds `isize::MAX`. -/
def reserve (alloc : Allocator) (v : ByteVec) (additional : Nat) (m : Heap) :
    Option (ByteVec × Heap) :=
  let needed := v.len + additional
  if needed ≤ v.capacity then some (v, m)
  else if h : v.grown needed ≤ ISIZE_MAX then
    some ({ ptr := alloc (v.grown needed)
            len := v.len
            capacity := v.grown needed
            len_le := Nat.le_trans (Nat.le_add_right _ _) (v.le_grown needed)
            capacity_le := h },
      moveBlock m v (alloc (v.grown needed)) (v.grown needed))
  else none

/-- `Vec::set_len`. -/
def setLen (v : ByteVec) (newLen : Nat) : Option ByteVec :=
  if h : newLen ≤ v.capacity then some { v with len := newLen, len_le := h } else none

/-- `ptr::copy_nonoverlapping`. -/
def copyNonoverlapping (m : Heap) (src dst count : Nat) : Option Heap :=
  if count = 0 ∨ src + count ≤ dst ∨ dst + count ≤ src then some (m.copy src dst count) else none

/-- `for iov in iovecs` of `fast_flatten_iovec`, with the offset. -/
def fastLoop (out : Nat) : List Iovec → Nat → Heap → Option (Nat × Heap)
  | [], offset, m => some (offset, m)
  | iov :: iovecs, offset, m => do
    let len := iov.iovLen
    let m ← copyNonoverlapping m iov.iovBase (out + offset) len
    fastLoop out iovecs ((offset + len) % 2 ^ 64) m

/-- `fast_flatten_iovec`. -/
def fastFlattenIovec (iovecs : List Iovec) (out : MutSlice) (m : Heap) : Option (Nat × Heap) :=
  fastLoop out.ptr iovecs 0 m

/-- `for iov in iovecs` of `flatten_iovec`, with the pointer `dst`. -/
def flattenLoop : List Iovec → Nat → Heap → Option Heap
  | [], _, m => some m
  | iov :: iovecs, dst, m => do
    let m ← copyNonoverlapping m iov.iovBase dst iov.iovLen
    flattenLoop iovecs (dst + iov.iovLen) m

/-- `flatten_iovec`. -/
def flattenIovec (alloc : Allocator) (iovecs : List Iovec) (out : ByteVec) (m : Heap) :
    Option (ByteVec × Heap) := do
  let totalLen := (iovecs.map Iovec.iovLen).sum % 2 ^ 64
  let origLen := out.len
  let (out, m) ← reserve alloc out totalLen m
  let out ← setLen out (origLen + totalLen)
  let m ← flattenLoop iovecs (out.ptr + origLen) m
  some (out, m)

end Memory

end Tachyon
