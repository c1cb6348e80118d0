import Mathlib.Data.List.Basic

/-!
# `Tachyon.Network.Tsocket`: the packet parser

`parse_ipv4_tcp_packets` of `network/tsocket.rs`. It walks over a buffer of Ethernet frames and
collects the TCP packets.

An index or a range outside the buffer is a panic in the source and `none` here. `parseFrame` is
the body of the loop at one offset. `parseLoop` has a bound on its rounds, and running out of them
is `none`, too.
-/

set_option autoImplicit false

namespace Tachyon

/-- The four octets of an `Ipv4Addr`. -/
structure Ipv4Addr where
  a : UInt8
  b : UInt8
  c : UInt8
  d : UInt8
  deriving DecidableEq, Repr

/-- A part of the buffer: where it starts, and its bytes. -/
structure Payload where
  start : Nat
  bytes : List UInt8
  deriving DecidableEq, Repr

structure ParsedPacket where
  srcIp : Ipv4Addr
  dstIp : Ipv4Addr
  srcPort : UInt16
  dstPort : UInt16
  payload : Payload
  deriving DecidableEq, Repr

namespace Tsocket

/-- `u16::from_be_bytes([hi, lo])`. -/
def fromBeBytes (hi lo : UInt8) : UInt16 := UInt16.ofNat (hi.toNat * 256 + lo.toNat)

/-- `u16::from_be_bytes([buffer[i], buffer[i + 1]])`. -/
def u16At (buffer : List UInt8) (i : Nat) : Option UInt16 := do
  return fromBeBytes (← buffer[i]?) (← buffer[i + 1]?)

/-- `Ipv4Addr::new(buffer[i], buffer[i + 1], buffer[i + 2], buffer[i + 3])`. -/
def ipv4At (buffer : List UInt8) (i : Nat) : Option Ipv4Addr := do
  return ⟨← buffer[i]?, ← buffer[i + 1]?, ← buffer[i + 2]?, ← buffer[i + 3]?⟩

/-- `&buffer[start..stop]`. -/
def rangeAt (buffer : List UInt8) (start stop : Nat) : Option Payload :=
  if start ≤ stop ∧ stop ≤ buffer.length then
    some ⟨start, (buffer.drop start).take (stop - start)⟩
  else none

/-- How one pass of the loop ends: `continue` or the end of the body at the next offset, without
a packet or with one, or `break`. -/
inductive Outcome
  | skip (next : Nat)
  | packet (p : ParsedPacket) (next : Nat)
  | stop

/-- The body of the loop. -/
def parseFrame (buffer : List UInt8) (offset : Nat) : Option Outcome := do
  let ethertype ← u16At buffer (offset + 12)
  if ethertype ≠ 0x0800 then return .skip (offset + 64) else
  let ipStart := offset + 14
  if ipStart + 20 > buffer.length then return .stop else
  let ihl := ((← buffer[ipStart]?) &&& 0x0F).toNat
  let ipHeaderLen := ihl * 4
  let totalLen := (← u16At buffer (ipStart + 2)).toNat
  if ipStart + totalLen > buffer.length then return .stop else
  let protocol ← buffer[ipStart + 9]?
  if protocol ≠ 6 then return .skip (offset + 14 + totalLen) else
  let srcIp ← ipv4At buffer (ipStart + 12)
  let dstIp ← ipv4At buffer (ipStart + 16)
  let tcpStart := ipStart + ipHeaderLen
  if tcpStart + 20 > buffer.length then return .stop else
  let srcPort ← u16At buffer tcpStart
  let dstPort ← u16At buffer (tcpStart + 2)
  let dataOffset := (((← buffer[tcpStart + 12]?) >>> 4) * 4).toNat
  let payloadStart := tcpStart + dataOffset
  if payloadStart > buffer.length then return .stop else
  let payloadEnd := ipStart + totalLen
  if payloadEnd > buffer.length ∨ payloadStart > payloadEnd then return .stop else
  let payload ← rangeAt buffer payloadStart payloadEnd
  return .packet ⟨srcIp, dstIp, srcPort, dstPort, payload⟩ (offset + (14 + totalLen))

/-- The loop, with a bound on its rounds. -/
def parseLoop (buffer : List UInt8) : Nat → Nat → Option (List ParsedPacket)
  | 0, _ => none
  | rounds + 1, offset =>
    if offset + 14 + 20 ≤ buffer.length then
      match parseFrame buffer offset with
      | none => none
      | some (.skip next) => parseLoop buffer rounds next
      | some (.packet p next) => (parseLoop buffer rounds next).map (p :: ·)
      | some .stop => some []
    else some []

/-- `parse_ipv4_tcp_packets`. -/
def parseIpv4TcpPackets (buffer : List UInt8) : Option (List ParsedPacket) :=
  parseLoop buffer (buffer.length + 1) 0

end Tsocket

end Tachyon
