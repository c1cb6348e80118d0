import Tachyon.Network.Tsocket
import Tachyon.Utils.Http

/-!
# `Tachyon.Network.PacketRing`: the packets of a ring block

`read_packets` of `network/tsocket.rs`. The ring is a memory, and its offsets are those from
`mmap_ptr`. The structs the kernel writes are read at the offsets of their fields, in the byte
order of the host, which is little-endian.

The result of `get_ipv4_addr("eth0")` is a parameter. Without an address `read_packets` panics,
which is `none` here.
-/

set_option autoImplicit false

namespace Tachyon

namespace PacketRing

def TP_STATUS_USER : Nat := 1
def TP_STATUS_KERNEL : Nat := 0

/-- The unsigned integer of `n` bytes at an offset. -/
def leAt (ring : Mem) (offset n : Nat) : Nat := Http.fromLeBytes (ring.read offset n)

/-! ### `TpacketBlockDesc` -/

def blockStatus (ring : Mem) : Nat := leAt ring 8 4
def numPkts (ring : Mem) : Nat := leAt ring 12 4
def offsetToFirstPkt (ring : Mem) : Nat := leAt ring 16 4

/-- `(*block).hdr.block_status = TP_STATUS_KERNEL`. -/
def giveBack (ring : Mem) : Mem := ring.write 8 [0, 0, 0, 0]

/-! ### `Tpacket3Hdr`, at the offset `base` -/

def tpNextOffset (ring : Mem) (base : Nat) : Nat := leAt ring base 4
def tpSnaplen (ring : Mem) (base : Nat) : Nat := leAt ring (base + 12) 4
def tpMac (ring : Mem) (base : Nat) : Nat := leAt ring (base + 24) 2

/-- `data_offset`: where the frame of a record begins. -/
def dataOffset (ring : Mem) (base : Nat) : Nat := base + tpMac ring base

/-- The ethertype of the frame at an offset. -/
def ethertype (ring : Mem) (data : Nat) : UInt16 :=
  Tsocket.fromBeBytes (ring (data + 12)) (ring (data + 13))

/-- The source address in the frame at an offset. -/
def srcIp (ring : Mem) (data : Nat) : Ipv4Addr :=
  let ipStart := data + 14
  ⟨ring (ipStart + 12), ring (ipStart + 13), ring (ipStart + 14), ring (ipStart + 15)⟩

/-! ### `read_packets` -/

/-- `first_offset` and `last_offset`. -/
abbrev Range := Option Nat × Nat

/-- The bookkeeping for a packet that is not skipped. -/
def extend (ring : Mem) (base : Nat) (range : Range) : Range :=
  let data := dataOffset ring base
  (range.1.or (some data), data + tpSnaplen ring base)

/-- `for _ in 0..num_pkts`. A `continue` leaves `base` as it is. -/
def readLoop (ring : Mem) (serverIp : Ipv4Addr) : Nat → Nat → Range → Range
  | 0, _, range => range
  | rounds + 1, base, range =>
    let data := dataOffset ring base
    let dataLen := tpSnaplen ring base
    if dataLen < 14 then readLoop ring serverIp rounds base range
    else if ethertype ring data ≠ 0x0800 then readLoop ring serverIp rounds base range
    else if dataLen < 14 + 20 then readLoop ring serverIp rounds base range
    else if srcIp ring data = serverIp then readLoop ring serverIp rounds base range
    else
      let range := extend ring base range
      if tpNextOffset ring base = 0 then range
      else readLoop ring serverIp rounds (base + tpNextOffset ring base) range

/-- `read_packets`, with the ring it leaves behind. -/
def readPackets (serverIp : Option Ipv4Addr) (ring : Mem) : Option (Option (Nat × Nat) × Mem) :=
  if blockStatus ring &&& TP_STATUS_USER = 0 then some (none, ring)
  else
    match serverIp with
    -- `.expect("Failed to get server IP")`
    | none => none
    | some serverIp =>
      let (first, last) :=
        readLoop ring serverIp (numPkts ring) (offsetToFirstPkt ring) (none, 0)
      some (first.map fun start => (start, last), giveBack ring)

end PacketRing

end Tachyon
