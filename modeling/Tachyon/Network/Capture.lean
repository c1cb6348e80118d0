import Tachyon.Network.PacketRing

/-!
# `Tachyon.Network.Capture`: the ring as shared memory

The kernel and `read_packets` work on the same ring, and the status of the block says whose turn it
is. `PacketRing.readPackets` runs in one go. Here it is cut into the places between which the kernel
can run: the look at the status, each round of the loop, and the write that gives the block back.

The kernel fills the block byte by byte while it owns it, and then sets the status. That is all that
is asked of it. `get_ipv4_addr` looks into the list that `getifaddrs` returns, which can be another
one at each call.
-/

set_option autoImplicit false

namespace Tachyon

namespace PacketRing

/-! ### `get_ipv4_addr` -/

def AF_INET : Nat := 2

/-- What `ifa_addr` points to: the family, and the bytes of `sin_addr` as they are in memory. -/
structure SockAddrIn where
  family : Nat
  sinAddr : List UInt8

/-- An entry of the list, with its name as `to_string_lossy` gives it. -/
structure IfAddrs where
  name : String
  addr : Option SockAddrIn

/-- `u32::swap_bytes`, which is `u32::from_be` on a little-endian host. -/
def fromBe (x : Nat) : Nat :=
  x % 256 * 0x1000000 + x / 256 % 256 * 0x10000 + x / 0x10000 % 256 * 256 + x / 0x1000000 % 256

/-- `Ipv4Addr::from(u32)`. -/
def ipv4OfU32 (x : Nat) : Ipv4Addr :=
  ⟨.ofNat (x / 0x1000000), .ofNat (x / 0x10000), .ofNat (x / 256), .ofNat x⟩

/-- The walk through the list, with the number of calls of `freeifaddrs`. -/
def walkIfAddrs (interface : String) : List IfAddrs → Option Ipv4Addr × Nat
  | [] => (none, 1)
  | cur :: next =>
    if cur.name = interface then
      match cur.addr with
      | none => walkIfAddrs interface next
      | some sin =>
        if sin.family = AF_INET then
          (some (ipv4OfU32 (fromBe (Http.fromLeBytes sin.sinAddr))), 1)
        else walkIfAddrs interface next
    else walkIfAddrs interface next

/-- `get_ipv4_addr`. The list is `none` when `getifaddrs` fails. -/
def getIpv4Addr (interface : String) : Option (List IfAddrs) → Option Ipv4Addr × Nat
  | none => (none, 0)
  | some ifap => walkIfAddrs interface ifap

/-! ### `read_packets` in steps -/

/-- One round of the loop: how many are left, and `base` and the range after it. A `break` leaves
no rounds. -/
def readRound (ring : Mem) (serverIp : Ipv4Addr) (left base : Nat) (range : Range) :
    Nat × Nat × Range :=
  let data := dataOffset ring base
  let dataLen := tpSnaplen ring base
  if dataLen < 14 then (left, base, range)
  else if ethertype ring data ≠ 0x0800 then (left, base, range)
  else if dataLen < 14 + 20 then (left, base, range)
  else if srcIp ring data = serverIp then (left, base, range)
  else
    let range := extend ring base range
    if tpNextOffset ring base = 0 then (0, base, range)
    else (left, base + tpNextOffset ring base, range)

/-- Where the server is in `read_packets`. -/
inductive Reader
  | outside
  | loop (serverIp : Ipv4Addr) (rounds base : Nat) (range : Range)
  /-- `.expect("Failed to get server IP")` -/
  | panicked

structure Capture where
  ring : Mem
  reader : Reader

inductive CaptureAct
  /-- The kernel writes a byte of a frame or of a header. -/
  | store (a : Nat) (b : UInt8)
  /-- The kernel sets the status of the block to these bytes. -/
  | retire (status : List UInt8)
  /-- The server calls `read_packets`. -/
  | call (ifaddrs : Option (List IfAddrs))
  | round
  | finish

namespace Capture

/-- The block belongs to the kernel. -/
def KernelOwns (s : Capture) : Prop := blockStatus s.ring = TP_STATUS_KERNEL

instance (s : Capture) : Decidable s.KernelOwns := inferInstanceAs (Decidable (_ = _))

/-- The block belongs to the server. -/
def UserOwns (s : Capture) : Prop := blockStatus s.ring &&& TP_STATUS_USER ≠ 0

instance (s : Capture) : Decidable s.UserOwns := inferInstanceAs (Decidable (_ ≠ _))

/-- The ring after the kernel has set the status. -/
def retiredRing (s : Capture) (status : List UInt8) : Mem := s.ring.write 8 status

def step (s : Capture) : CaptureAct → Option Capture
  | .store a b =>
    if s.KernelOwns ∧ (a < 8 ∨ 12 ≤ a) then some { s with ring := s.ring.write a [b] } else none
  | .retire status =>
    if s.KernelOwns ∧ status.length = 4 ∧ Http.fromLeBytes status &&& TP_STATUS_USER ≠ 0 then
      some { s with ring := s.retiredRing status }
    else none
  | .call ifaddrs =>
    match s.reader with
    | .outside =>
      -- `return None`
      if ¬ s.UserOwns then some s
      else
        match (getIpv4Addr "eth0" ifaddrs).1 with
        | none => some { s with reader := .panicked }
        | some serverIp =>
          some { s with
            reader := .loop serverIp (numPkts s.ring) (offsetToFirstPkt s.ring) (none, 0) }
    | _ => none
  | .round =>
    match s.reader with
    | .loop serverIp (left + 1) base range =>
      let (left, base, range) := readRound s.ring serverIp left base range
      some { s with reader := .loop serverIp left base range }
    | _ => none
  | .finish =>
    match s.reader with
    | .loop _ 0 _ _ => some { ring := giveBack s.ring, reader := .outside }
    | _ => none

/-- The block that a step hands to the server. -/
def retired (s : Capture) : CaptureAct → List Mem
  | .retire status => [s.retiredRing status]
  | _ => []

/-- A call of `read_packets` that came to its end. -/
structure Read where
  serverIp : Ipv4Addr
  block : Mem
  result : Option (Nat × Nat)

/-- The read that a step ends. -/
def reads (s : Capture) : CaptureAct → List Read
  | .finish =>
    match s.reader with
    | .loop serverIp _ _ range =>
      [⟨serverIp, s.ring, range.1.map fun start => (start, range.2)⟩]
    | _ => []
  | _ => []

/-- The block that is with the server. -/
def unread (s : Capture) : List Mem := if s.UserOwns then [s.ring] else []

end Capture

end PacketRing

end Tachyon
