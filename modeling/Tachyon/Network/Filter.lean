import Tachyon.Lib.Bpf

/-!
# `Tachyon.Network.Filter`: the two socket filters

`BPF_TCP_FILTER` of `network/tsocket.rs` is attached to the packet socket. It decides which frames
the kernel puts into the ring. The program of `attach_reuseport_cbpf` in `utils/faf_helpers.rs` is
attached to the listeners. It decides which worker gets a connection.
-/

set_option autoImplicit false

namespace Tachyon

namespace Bpf

/-! ### `linux/filter.h` -/

def BPF_LD : UInt16 := 0x00
def BPF_JMP : UInt16 := 0x05
def BPF_RET : UInt16 := 0x06
def BPF_W : UInt16 := 0x00
def BPF_B : UInt16 := 0x10
def BPF_ABS : UInt16 := 0x20
def BPF_JEQ : UInt16 := 0x10
def BPF_K : UInt16 := 0x00
def BPF_A : UInt16 := 0x10
def SKF_AD_OFF : Int := -0x1000
def SKF_AD_CPU : Int := 36

end Bpf

open Bpf

namespace Tsocket

/-- `BPF_TCP_FILTER`. -/
def BPF_TCP_FILTER : List SockFilter := [
  ⟨BPF_LD + BPF_B + BPF_ABS, 0, 0, 23⟩,
  ⟨BPF_JMP + BPF_JEQ + BPF_K, 0, 1, 0x06⟩,
  ⟨BPF_RET + BPF_K, 0, 0, 0xFFFFFFFF⟩,
  ⟨BPF_RET + BPF_K, 0, 0, 0⟩]

/-- What the kernel puts into the ring for a frame that arrives at the socket. A frame with the
result 0 is dropped, and the result is the length to keep otherwise. -/
def capture (code : List SockFilter) (p : Packet) : Option (List UInt8) := do
  let prog ← attach code
  if prog.filter p = 0 then none else return p.bytes.take (prog.filter p).toNat

end Tsocket

namespace FafHelpers

/-- `code` in `attach_reuseport_cbpf`. -/
def code : List SockFilter := [
  ⟨BPF_LD ||| BPF_W ||| BPF_ABS, 0, 0, UInt32.ofInt (SKF_AD_OFF + SKF_AD_CPU)⟩,
  ⟨BPF_RET ||| BPF_A, 0, 0, 0⟩]

/-- The listener of the group that gets the connection, by its number. With a number outside of
the group the kernel falls back to a hash of the addresses. -/
def select (listeners : Nat) (p : Packet) : Option Nat := do
  let prog ← attach code
  if (prog.filter p).toNat < listeners then return (prog.filter p).toNat else none

end FafHelpers

end Tachyon
