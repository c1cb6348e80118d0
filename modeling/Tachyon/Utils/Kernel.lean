import Tachyon.Server

/-!
# `Tachyon.Utils.Kernel`: copying a buffer out of the slab

`get_kernel_owned_buffer` of `utils/kernel.rs`, an assembly block. Slab and destination are parts
of one memory, so a destination that overlaps the slab is possible. The registers hold addresses
of objects in that memory, and no sum of these wraps.
-/

set_option autoImplicit false

namespace Tachyon

namespace Slab

/-- The constant of the assembly block: the stride of the slab and the end of the loop. -/
def ASM_BUFFER_SIZE : Nat := 6272

/-- From the label `2:` on. `cmp r8, 6272` and `jge 3f` end the loop. -/
def copyLoop (r10 rdx : Nat) : Nat → Nat → Mem → Mem
  | 0, _, m => m
  | rounds + 1, r8, m =>
    if ASM_BUFFER_SIZE ≤ r8 then m
    else
      let ymm0 := m.read (r10 + r8) 32
      copyLoop r10 rdx rounds (r8 + 32) (m.write (rdx + r8) ymm0)

/-- `get_kernel_owned_buffer`. The loop has 196 rounds. -/
def getKernelOwnedBuffer (index buffers dst : Nat) (m : Mem) : Mem :=
  let rcx := index * ASM_BUFFER_SIZE
  let r10 := buffers + rcx
  copyLoop r10 dst 197 0 m

/-- `buffers[index]` of a `*const [u8; BUFFER_SIZE]`. -/
def bufferAt (m : Mem) (buffers index : Nat) : List UInt8 :=
  m.read (buffers + index * BUFFER_SIZE) BUFFER_SIZE

end Slab

end Tachyon
