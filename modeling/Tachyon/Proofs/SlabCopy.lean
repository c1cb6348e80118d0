import Tachyon.Lib.Copy
import Tachyon.Utils.Kernel

/-!
# `Tachyon.Proofs.SlabCopy`: what the assembly copy copies

The block was written for buffers of 6272 bytes. With buffers of `BUFFER_SIZE` bytes it reads
from the wrong place, unless the index is 0, and it leaves the last 896 bytes of the destination
as they are. So the destination is the buffer exactly when the bytes at both places are the same
and the last ones were there before (`copies_buffer_iff`).
-/

set_option autoImplicit false

namespace Tachyon

namespace Slab

open Mem

variable (index buffers dst : Nat) (m : Mem)

/-- The address the block computes for the buffer. -/
def asmSource : Nat := buffers + index * ASM_BUFFER_SIZE

/-- The last bytes of a buffer, which the block does not copy. -/
def TAIL : Nat := BUFFER_SIZE - ASM_BUFFER_SIZE

/-- The loop of the block, from any of its rounds on. -/
theorem copyLoop_eq (r10 rdx : Nat) {rounds n : Nat} (hn : n ≤ 196) (hrounds : 196 < n + rounds) :
    copyLoop r10 rdx rounds (32 * n) (m.copyChunks 32 r10 rdx n)
      = m.copyChunks 32 r10 rdx 196 := by
  induction rounds generalizing n with
  | zero => omega
  | succ rounds ih =>
    have hsize : ASM_BUFFER_SIZE = 32 * 196 := rfl
    rw [copyLoop]
    by_cases hend : ASM_BUFFER_SIZE ≤ 32 * n
    · -- The jump to `3:`.
      rw [if_pos hend, show n = 196 by omega]
    · rw [if_neg hend]
      exact ih (n := n + 1) (by omega) (by omega)

theorem getKernelOwnedBuffer_eq : getKernelOwnedBuffer index buffers dst m
    = m.copyChunks 32 (asmSource index buffers) dst 196 :=
  copyLoop_eq m (asmSource index buffers) dst (n := 0) (by decide) (by decide)

/-- The destination is the buffer, and nothing else has changed. -/
structure CopiesBuffer : Prop where
  copied : (getKernelOwnedBuffer index buffers dst m).read dst BUFFER_SIZE
    = bufferAt m buffers index
  outside : ∀ a, a < dst ∨ dst + BUFFER_SIZE ≤ a →
    getKernelOwnedBuffer index buffers dst m a = m a

/-- What is written lies in the destination, its last bytes excepted. -/
theorem getKernelOwnedBuffer_of_outside {a : Nat} (h : a < dst ∨ dst + ASM_BUFFER_SIZE ≤ a) :
    getKernelOwnedBuffer index buffers dst m a = m a := by
  rw [getKernelOwnedBuffer_eq]
  exact copyChunks_of_outside m _ dst h

/-- Before the tail, the destination is the buffer exactly when every byte the block reads is the
one of the buffer. A byte that an earlier round has overwritten is taken from the buffer. -/
def SameSource : Prop := ∀ i, i < ASM_BUFFER_SIZE →
  readAt m (asmSource index buffers) dst 32 (fun j => m (buffers + index * BUFFER_SIZE + j)) i
    = m (buffers + index * BUFFER_SIZE + i)

/-- The last bytes of the buffer are in the destination already. -/
def SameTail : Prop := m.read (dst + ASM_BUFFER_SIZE) TAIL
  = m.read (buffers + index * BUFFER_SIZE + ASM_BUFFER_SIZE) TAIL

/-- For every memory, every slab, index and destination: the block copies the buffer exactly when
what it reads is the buffer, and what it leaves out is there before. -/
theorem copies_buffer_iff : CopiesBuffer index buffers dst m ↔
    SameSource index buffers dst m ∧ SameTail index buffers dst m := by
  have hsize : BUFFER_SIZE = ASM_BUFFER_SIZE + TAIL := rfl
  have htail : (getKernelOwnedBuffer index buffers dst m).read (dst + ASM_BUFFER_SIZE) TAIL
      = m.read (dst + ASM_BUFFER_SIZE) TAIL := by
    refine read_congr fun i _ => ?_
    exact getKernelOwnedBuffer_of_outside index buffers dst m (by omega)
  -- What has been read is compared with the buffer by the recurrence of the copy.
  have hsource : SameSource index buffers dst m ↔
      (getKernelOwnedBuffer index buffers dst m).read dst ASM_BUFFER_SIZE
        = m.read (buffers + index * BUFFER_SIZE) ASM_BUFFER_SIZE := by
    rw [getKernelOwnedBuffer_eq, read_eq_read_iff]
    exact (copyChunks_eq_iff (k := 32) m (asmSource index buffers) dst 196
      fun j => m (buffers + index * BUFFER_SIZE + j)).symm
  have hcopied : (getKernelOwnedBuffer index buffers dst m).read dst BUFFER_SIZE
      = bufferAt m buffers index ↔
        SameSource index buffers dst m ∧ SameTail index buffers dst m := by
    rw [hsource, SameTail, ← htail, bufferAt, hsize, read_add, read_add]
    constructor
    · intro h
      exact List.append_inj h (by rw [length_read, length_read])
    · rintro ⟨hfront, hback⟩
      rw [hfront, hback]
  constructor
  · intro h
    exact hcopied.mp h.copied
  · intro h
    exact
      { copied := hcopied.mpr h
        outside := fun a ha =>
          getKernelOwnedBuffer_of_outside index buffers dst m (by omega) }

/-- With the destination away from the slab, the block has to read the same bytes at both
places. -/
theorem sameSource_iff_of_disjoint {count : Nat} (hindex : index < count)
    (hdisjoint : dst + BUFFER_SIZE ≤ buffers ∨ buffers + count * BUFFER_SIZE ≤ dst) :
    SameSource index buffers dst m ↔ m.read (asmSource index buffers) ASM_BUFFER_SIZE
      = m.read (buffers + index * BUFFER_SIZE) ASM_BUFFER_SIZE := by
  have hbefore : (index + 1) * BUFFER_SIZE ≤ count * BUFFER_SIZE :=
    Nat.mul_le_mul_right _ hindex
  rw [Nat.succ_mul] at hbefore
  have hstride : index * ASM_BUFFER_SIZE ≤ index * BUFFER_SIZE :=
    Nat.mul_le_mul_left _ (by decide)
  have hsize : BUFFER_SIZE = 7168 := rfl
  have hasm : ASM_BUFFER_SIZE = 6272 := rfl
  -- The block reads inside of the slab, so it never reads what it has written.
  have hread : ∀ i, i < ASM_BUFFER_SIZE → ∀ target : Nat → UInt8,
      readAt m (asmSource index buffers) dst 32 target i = m (asmSource index buffers + i) := by
    intro i hi target
    have hround : 32 * (i / 32) ≤ i := Nat.mul_div_le i 32
    refine if_neg ?_
    rw [asmSource]
    omega
  rw [read_eq_read_iff]
  exact forall₂_congr fun i hi => by rw [hread i hi]

/-- Buffer 1 of a slab whose other bytes are 0 begins with a 1, which is not copied. -/
theorem not_copies_buffer : ¬ ∀ index buffers dst m, CopiesBuffer index buffers dst m := by
  intro hall
  let m : Mem := fun a => if a = 7168 then 1 else 0
  have hcopied := (hall 1 0 14336 m).copied
  rw [getKernelOwnedBuffer_eq, bufferAt, read_eq_read_iff] at hcopied
  -- The byte that arrives is the one at 6272.
  have hfirst := hcopied 0 (by decide)
  rw [copyChunks_of_disjoint m _ _ (by decide) (by decide)] at hfirst
  exact absurd hfirst (by decide)

end Slab

end Tachyon
