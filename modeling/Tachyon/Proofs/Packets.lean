import Tachyon.Proofs.Passes

/-!
# `Tachyon.Proofs.Packets`: frames in wire format, and what the parser makes of them

A `Frame` is an Ethernet frame with an IPv4 datagram, field by field. Its lengths are part of it:
the options are whole words, and the datagram is at most 65535 bytes. `Frame.bytes` is its wire
format.

At the start of a frame the loop body reads exactly the fields of the frame and goes on behind it
(`parseFrame_bytes`). At the start of a frame that is cut off it stops, since the announced length
does not fit (`parseFrame_cut`). So the parser takes a concatenation of frames apart
(`parse_frames`).
-/

set_option autoImplicit false

namespace Tachyon

namespace Tsocket

/-! ### Wire format -/

/-- `u16::to_be_bytes`. -/
def toBeBytes (x : UInt16) : List UInt8 :=
  [UInt8.ofNat (x.toNat / 256), UInt8.ofNat (x.toNat % 256)]

def octets (ip : Ipv4Addr) : List UInt8 := [ip.a, ip.b, ip.c, ip.d]

/-- A byte from its two halves. -/
def nibbles (hi lo : Nat) : UInt8 := UInt8.ofNat (hi * 16 + lo)

/-- A TCP segment. -/
structure Segment where
  srcPort : UInt16
  dstPort : UInt16
  /-- The sequence and the acknowledgment number. -/
  numbers : List UInt8
  dataOffset : Nat
  reserved : Nat
  flags : UInt8
  /-- The window, the checksum and the urgent pointer. -/
  control : List UInt8
  options : List UInt8
  payload : List UInt8
  numbers_length : numbers.length = 8
  reserved_lt : reserved < 16
  control_length : control.length = 6
  dataOffset_le : dataOffset ≤ 15
  options_length : 20 + options.length = dataOffset * 4

def Segment.bytes (s : Segment) : List UInt8 :=
  toBeBytes s.srcPort ++ toBeBytes s.dstPort ++ s.numbers
    ++ [nibbles s.dataOffset s.reserved, s.flags] ++ s.control ++ s.options ++ s.payload

/-- What follows the IPv4 header. -/
inductive Body
  | tcp (segment : Segment)
  | other (protocol : UInt8) (ne : protocol ≠ 6) (data : List UInt8)

namespace Body

def protocol : Body → UInt8
  | tcp _ => 6
  | other protocol _ _ => protocol

def bytes : Body → List UInt8
  | tcp segment => segment.bytes
  | other _ _ data => data

end Body

/-- An Ethernet frame with an IPv4 datagram. -/
structure Frame where
  macs : List UInt8
  version : Nat
  ihl : Nat
  service : UInt8
  /-- The identification, the flags and the fragment offset. -/
  fragment : List UInt8
  ttl : UInt8
  checksum : List UInt8
  srcIp : Ipv4Addr
  dstIp : Ipv4Addr
  options : List UInt8
  body : Body
  macs_length : macs.length = 12
  version_lt : version < 16
  ihl_le : ihl ≤ 15
  fragment_length : fragment.length = 4
  checksum_length : checksum.length = 2
  options_length : 20 + options.length = ihl * 4
  total_lt : 20 + options.length + body.bytes.length < 65536

namespace Frame

/-- The true length of the datagram. -/
def totalLen (f : Frame) : Nat := 20 + f.options.length + f.body.bytes.length

/-- The ethertype and the IPv4 header without its options. -/
def head (f : Frame) : List UInt8 :=
  [8, 0, nibbles f.version f.ihl, f.service] ++ toBeBytes (UInt16.ofNat f.totalLen) ++ f.fragment
    ++ [f.ttl, f.body.protocol] ++ f.checksum ++ octets f.srcIp ++ octets f.dstIp

def bytes (f : Frame) : List UInt8 := f.macs ++ f.head ++ f.options ++ f.body.bytes

theorem length_head (f : Frame) : f.head.length = 22 := by
  simp [head, toBeBytes, octets, f.fragment_length, f.checksum_length]

theorem length_bytes (f : Frame) : f.bytes.length = 14 + f.totalLen := by
  rw [bytes, List.length_append, List.length_append, List.length_append, f.macs_length,
    length_head, totalLen]
  omega

theorem length_ge (f : Frame) : 34 ≤ f.bytes.length := by
  rw [f.length_bytes, totalLen]
  omega

/-- The packet in a frame that starts at `start`. -/
def packet (f : Frame) (start : Nat) : Option ParsedPacket :=
  match f.body with
  | .tcp s => some ⟨f.srcIp, f.dstIp, s.srcPort, s.dstPort,
      ⟨start + 14 + f.ihl * 4 + s.dataOffset * 4, s.payload⟩⟩
  | .other _ _ _ => none

end Frame

/-! ### Reading a field -/

theorem fromBeBytes_toBeBytes (x : UInt16) :
    fromBeBytes (UInt8.ofNat (x.toNat / 256)) (UInt8.ofNat (x.toNat % 256)) = x := by
  have hx : x.toNat < 65536 := x.toNat_lt
  have hhi : (UInt8.ofNat (x.toNat / 256)).toNat = x.toNat / 256 :=
    UInt8.toNat_ofNat_of_lt' (by show x.toNat / 256 < 256; omega)
  have hlo : (UInt8.ofNat (x.toNat % 256)).toNat = x.toNat % 256 :=
    UInt8.toNat_ofNat_of_lt' (by show x.toNat % 256 < 256; omega)
  rw [fromBeBytes, hhi, hlo, Nat.div_add_mod', UInt16.ofNat_toNat]

theorem toNat_and_nibbles {hi lo : Nat} (hhi : hi < 16) (hlo : lo < 16) :
    (nibbles hi lo &&& 0x0F).toNat = lo := by
  have hall : ∀ hi : Fin 16, ∀ lo : Fin 16, (nibbles hi lo &&& 0x0F).toNat = lo := by decide
  exact hall ⟨hi, hhi⟩ ⟨lo, hlo⟩

theorem toNat_shift_nibbles {hi lo : Nat} (hhi : hi < 16) (hlo : lo < 16) :
    ((nibbles hi lo >>> 4) * 4).toNat = hi * 4 := by
  have hall : ∀ hi : Fin 16, ∀ lo : Fin 16, ((nibbles hi lo >>> 4) * 4).toNat = hi * 4 := by
    decide
  exact hall ⟨hi, hhi⟩ ⟨lo, hlo⟩

/-- A read behind a known part. -/
theorem get_append (pre l : List UInt8) (k : Nat) : (pre ++ l)[pre.length + k]? = l[k]? := by
  rw [List.getElem?_append_right (Nat.le_add_right _ _), Nat.add_sub_cancel_left]

theorem u16At_of_get {buffer : List UInt8} {i : Nat} {x : UInt16}
    (hhi : buffer[i]? = (toBeBytes x)[0]?) (hlo : buffer[i + 1]? = (toBeBytes x)[1]?) :
    u16At buffer i = some x := by
  have hvalue : u16At buffer i = some
      (fromBeBytes (UInt8.ofNat (x.toNat / 256)) (UInt8.ofNat (x.toNat % 256))) := by
    rw [u16At, hhi, hlo]
    rfl
  rw [hvalue, fromBeBytes_toBeBytes]

theorem ipv4At_of_get {buffer : List UInt8} {i : Nat} {ip : Ipv4Addr}
    (h : ∀ k, k < 4 → buffer[i + k]? = (octets ip)[k]?) : ipv4At buffer i = some ip := by
  have h0 : buffer[i]? = some ip.a := h 0 (by decide)
  have h1 : buffer[i + 1]? = some ip.b := h 1 (by decide)
  have h2 : buffer[i + 2]? = some ip.c := h 2 (by decide)
  have h3 : buffer[i + 3]? = some ip.d := h 3 (by decide)
  rw [ipv4At, h0, h1, h2, h3]
  rfl

/-- The fields of the frame's head, as the loop body reads them at `offset`. -/
structure HeadAt (f : Frame) (buffer : List UInt8) (offset : Nat) : Prop where
  ethertype : u16At buffer (offset + 12) = some 0x0800
  versionIhl : buffer[offset + 14]? = some (nibbles f.version f.ihl)
  totalLen : u16At buffer (offset + 14 + 2) = some (UInt16.ofNat f.totalLen)
  protocol : buffer[offset + 14 + 9]? = some f.body.protocol
  srcIp : ipv4At buffer (offset + 14 + 12) = some f.srcIp
  dstIp : ipv4At buffer (offset + 14 + 16) = some f.dstIp

/-- Behind the two lists of known length the indices are counted from their ends. -/
theorem Frame.head_address (f : Frame) (k : Nat) :
    f.head[14 + k]? = (octets f.srcIp ++ octets f.dstIp)[k]? := by
  have hsplit : f.head = ([8, 0, nibbles f.version f.ihl, f.service]
      ++ toBeBytes (UInt16.ofNat f.totalLen) ++ f.fragment ++ [f.ttl, f.body.protocol]
      ++ f.checksum) ++ (octets f.srcIp ++ octets f.dstIp) := by
    rw [Frame.head, List.append_assoc _ (octets f.srcIp)]
  have hlen : ([8, 0, nibbles f.version f.ihl, f.service]
      ++ toBeBytes (UInt16.ofNat f.totalLen) ++ f.fragment ++ [f.ttl, f.body.protocol]
      ++ f.checksum).length = 14 := by
    simp [toBeBytes, f.fragment_length, f.checksum_length]
  rw [hsplit, ← hlen, get_append]

theorem Frame.head_protocol (f : Frame) : f.head[11]? = some f.body.protocol := by
  simp [Frame.head, toBeBytes, List.getElem?_append, f.fragment_length]

theorem get_head (f : Frame) (pre more : List UInt8) {k : Nat} (hk : k < 22) :
    (pre ++ (f.macs ++ (f.head ++ more)))[pre.length + (12 + k)]? = f.head[k]? := by
  rw [get_append, ← f.macs_length, get_append,
    List.getElem?_append_left (by rw [f.length_head]; exact hk)]

/-- The head of a frame is read from what begins with it. -/
theorem headAt_append (f : Frame) (pre more : List UInt8) :
    HeadAt f (pre ++ (f.macs ++ (f.head ++ more))) pre.length where
  ethertype := u16At_of_get ((get_head f pre more (show 0 < 22 by decide)).trans rfl)
    ((get_head f pre more (show 1 < 22 by decide)).trans rfl)
  versionIhl := (get_head f pre more (show 2 < 22 by decide)).trans rfl
  totalLen := u16At_of_get ((get_head f pre more (show 4 < 22 by decide)).trans rfl)
    ((get_head f pre more (show 5 < 22 by decide)).trans rfl)
  protocol := (get_head f pre more (show 11 < 22 by decide)).trans f.head_protocol
  srcIp := by
    refine ipv4At_of_get fun k hk => ?_
    have hfirst : (octets f.srcIp ++ octets f.dstIp)[k]? = (octets f.srcIp)[k]? :=
      List.getElem?_append_left hk
    have hread := (get_head f pre more (show 14 + k < 22 by omega)).trans (f.head_address k)
    rw [← hread.trans hfirst]
    congr 1
    omega
  dstIp := by
    refine ipv4At_of_get fun k hk => ?_
    have hsecond : (octets f.srcIp ++ octets f.dstIp)[4 + k]? = (octets f.dstIp)[k]? :=
      get_append (octets f.srcIp) _ k
    have hread := (get_head f pre more (show 14 + (4 + k) < 22 by omega)).trans
      (f.head_address (4 + k))
    rw [← hread.trans hsecond]
    congr 1
    omega

/-- The fields of a segment, as the loop body reads them at `start`. -/
structure SegmentAt (s : Segment) (buffer : List UInt8) (start : Nat) : Prop where
  srcPort : u16At buffer start = some s.srcPort
  dstPort : u16At buffer (start + 2) = some s.dstPort
  dataOffset : buffer[start + 12]? = some (nibbles s.dataOffset s.reserved)
  payload : rangeAt buffer (start + s.dataOffset * 4) (start + s.bytes.length)
    = some ⟨start + s.dataOffset * 4, s.payload⟩

theorem Segment.length_bytes (s : Segment) :
    s.bytes.length = s.dataOffset * 4 + s.payload.length := by
  have hopt := s.options_length
  simp [Segment.bytes, toBeBytes, s.numbers_length, s.control_length]
  omega

/-- A TCP header has at least 5 words. -/
theorem Segment.dataOffset_ge (s : Segment) : 5 ≤ s.dataOffset := by
  have hopt := s.options_length
  omega

/-- The datagram is the two headers and the payload. -/
theorem Frame.totalLen_of_tcp {f : Frame} {s : Segment} (hbody : f.body = .tcp s) :
    f.totalLen = f.ihl * 4 + (s.dataOffset * 4 + s.payload.length) := by
  rw [Frame.totalLen, f.options_length, hbody, Body.bytes, s.length_bytes]

/-- The payload is what remains of the segment behind its header. -/
theorem Segment.bytes_split (s : Segment) :
    ∃ header, s.bytes = header ++ s.payload ∧ header.length = s.dataOffset * 4 := by
  refine ⟨_, rfl, ?_⟩
  have hopt := s.options_length
  simp [toBeBytes, s.numbers_length, s.control_length]
  omega

theorem segmentAt_append (s : Segment) (pre rest : List UInt8) :
    SegmentAt s (pre ++ (s.bytes ++ rest)) pre.length := by
  have hhead : ∀ k b, s.bytes[k]? = some b →
      (pre ++ (s.bytes ++ rest))[pre.length + k]? = some b := by
    intro k b hb
    obtain ⟨hlt, _⟩ := List.getElem?_eq_some_iff.mp hb
    rw [get_append, List.getElem?_append_left hlt, hb]
  have hpayload : rangeAt (pre ++ (s.bytes ++ rest)) (pre.length + s.dataOffset * 4)
      (pre.length + s.bytes.length) = some ⟨pre.length + s.dataOffset * 4, s.payload⟩ := by
    have hlen := s.length_bytes
    obtain ⟨header, hbytes, hheader⟩ := s.bytes_split
    have hbounds : pre.length + s.dataOffset * 4 ≤ pre.length + s.bytes.length ∧
        pre.length + s.bytes.length ≤ (pre ++ (s.bytes ++ rest)).length := by
      rw [List.length_append, List.length_append]
      omega
    have hdrop : (pre ++ (s.bytes ++ rest)).drop (pre.length + s.dataOffset * 4)
        = s.payload ++ rest := by
      have hregroup : pre ++ (s.bytes ++ rest) = (pre ++ header) ++ (s.payload ++ rest) := by
        rw [hbytes]
        simp only [List.append_assoc]
      rw [hregroup, ← hheader, ← List.length_append, List.drop_left]
    have htake : pre.length + s.bytes.length - (pre.length + s.dataOffset * 4)
        = s.payload.length := by omega
    rw [rangeAt, if_pos hbounds, hdrop, htake, List.take_left]
  exact
    { srcPort := u16At_of_get (hhead 0 _ rfl) (hhead 1 _ rfl)
      dstPort := u16At_of_get (hhead 2 _ rfl) (hhead 3 _ rfl)
      dataOffset := hhead 12 _ (by simp [Segment.bytes, toBeBytes, s.numbers_length])
      payload := hpayload }

/-! ### One frame -/

section
variable {f : Frame} {buffer : List UInt8} {offset : Nat} (h : HeadAt f buffer offset)
  (hle : offset + 34 ≤ buffer.length)
include h hle

theorem HeadAt.word_eq : wordAt buffer (offset + 12) = 0x0800 :=
  Option.some.inj ((u16At_of_lt (by omega)).symm.trans h.ethertype)

theorem HeadAt.datagramEnd_eq : datagramEnd buffer offset = offset + 14 + f.totalLen := by
  have hword : wordAt buffer (offset + 14 + 2) = UInt16.ofNat f.totalLen :=
    Option.some.inj ((u16At_of_lt (by omega)).symm.trans h.totalLen)
  have htotal : (UInt16.ofNat f.totalLen).toNat = f.totalLen :=
    UInt16.toNat_ofNat_of_lt' f.total_lt
  rw [datagramEnd, hword, htotal]

theorem HeadAt.protocolAt_eq : protocolAt buffer offset = f.body.protocol :=
  Option.some.inj ((get_of_lt (by omega)).symm.trans h.protocol)

theorem HeadAt.tcpStart_eq : tcpStart buffer offset = offset + 14 + f.ihl * 4 := by
  have hbyte : byteAt buffer (offset + 14) = nibbles f.version f.ihl :=
    Option.some.inj ((get_of_lt (by omega)).symm.trans h.versionIhl)
  rw [tcpStart, ihlAt, hbyte, toNat_and_nibbles f.version_lt (Nat.lt_succ_of_le f.ihl_le)]

/-- At a frame that does not fit, the loop body stops. -/
theorem parseFrame_cut (hcut : buffer.length < offset + f.bytes.length) :
    parseFrame buffer offset = some .stop := by
  have hlong : buffer.length < datagramEnd buffer offset := by
    rw [h.datagramEnd_eq hle, Nat.add_assoc, ← f.length_bytes]
    exact hcut
  rw [parseFrame_ipv4 hle (h.word_eq hle), if_pos hlong]

end

theorem headAt_bytes (f : Frame) (pre rest : List UInt8) :
    HeadAt f (pre ++ (f.bytes ++ rest)) pre.length := by
  have hregroup :
      f.bytes ++ rest = f.macs ++ (f.head ++ (f.options ++ f.body.bytes ++ rest)) := by
    rw [Frame.bytes]
    simp only [List.append_assoc]
  rw [hregroup]
  exact headAt_append f pre _

theorem segmentAt_bytes {f : Frame} {s : Segment} (hbody : f.body = .tcp s)
    (pre rest : List UInt8) :
    SegmentAt s (pre ++ (f.bytes ++ rest)) (pre.length + 14 + f.ihl * 4) := by
  have hoptions := f.options_length
  have hihl := f.ihl_le
  have hregroup : pre ++ (f.bytes ++ rest)
      = (pre ++ f.macs ++ f.head ++ f.options) ++ (s.bytes ++ rest) := by
    rw [Frame.bytes, hbody, Body.bytes]
    simp only [List.append_assoc]
  have hstart : (pre ++ f.macs ++ f.head ++ f.options).length
      = pre.length + 14 + f.ihl * 4 := by
    simp only [List.length_append, f.macs_length, f.length_head]
    omega
  rw [hregroup, ← hstart]
  exact segmentAt_append s _ rest

/-- A frame that fits ends where its datagram does. -/
theorem HeadAt.end_eq {f : Frame} {buffer : List UInt8} {offset : Nat} (h : HeadAt f buffer offset)
    (hfit : offset + f.bytes.length ≤ buffer.length) :
    offset + 34 ≤ buffer.length ∧ datagramEnd buffer offset = offset + f.bytes.length := by
  have hge := f.length_ge
  have hlen := f.length_bytes
  have hle : offset + 34 ≤ buffer.length := by omega
  have hend := h.datagramEnd_eq hle
  exact ⟨hle, by omega⟩

/-- At a frame that fits and is no TCP frame, the loop body goes on behind it. -/
theorem parseFrame_other {f : Frame} {buffer : List UInt8} {offset : Nat} {protocol : UInt8}
    {ne : protocol ≠ 6} {data : List UInt8} (hbody : f.body = .other protocol ne data)
    (hhead : HeadAt f buffer offset) (hfit : offset + f.bytes.length ≤ buffer.length) :
    parseFrame buffer offset = some (.skip (offset + f.bytes.length)) := by
  obtain ⟨hle, hend⟩ := hhead.end_eq hfit
  have hprotocol : protocolAt buffer offset ≠ 6 := by
    rw [hhead.protocolAt_eq hle, hbody]
    exact ne
  rw [parseFrame_ipv4 hle (hhead.word_eq hle), hend, if_neg (Nat.not_lt_of_le hfit),
    if_pos hprotocol]

/-- The packet that is read from a TCP frame. -/
theorem packetAt_eq {f : Frame} {buffer : List UInt8} {offset : Nat} {s : Segment}
    (hbody : f.body = .tcp s) (hhead : HeadAt f buffer offset)
    (hsegment : SegmentAt s buffer (offset + 14 + f.ihl * 4))
    (hfit : offset + f.bytes.length ≤ buffer.length) :
    payloadStart buffer offset = offset + 14 + f.ihl * 4 + s.dataOffset * 4 ∧
      packetAt buffer offset = ⟨f.srcIp, f.dstIp, s.srcPort, s.dstPort,
        ⟨offset + 14 + f.ihl * 4 + s.dataOffset * 4, s.payload⟩⟩ := by
  obtain ⟨hle, hend⟩ := hhead.end_eq hfit
  have hlen := f.length_bytes
  have htotal := Frame.totalLen_of_tcp hbody
  have hdataOffset := s.dataOffset_ge
  have hsize := s.length_bytes
  have hstart := hhead.tcpStart_eq hle
  have hbyte : byteAt buffer (offset + 14 + f.ihl * 4 + 12) = nibbles s.dataOffset s.reserved :=
    Option.some.inj ((get_of_lt (by omega)).symm.trans hsegment.dataOffset)
  have hdata : dataOffsetAt buffer offset * 4 = s.dataOffset * 4 := by
    rw [dataOffsetAt, hstart, hbyte, ← toNat_shift_mul,
      toNat_shift_nibbles (Nat.lt_succ_of_le s.dataOffset_le) s.reserved_lt]
  have hpayload : payloadStart buffer offset
      = offset + 14 + f.ihl * 4 + s.dataOffset * 4 := by
    rw [payloadStart, hstart, hdata]
  refine ⟨hpayload, ?_⟩
  -- Each field is what the loop body reads in its place.
  have hsrcIp : addressAt buffer (offset + 14 + 12) = f.srcIp :=
    Option.some.inj ((ipv4At_of_lt (by omega)).symm.trans hhead.srcIp)
  have hdstIp : addressAt buffer (offset + 14 + 16) = f.dstIp :=
    Option.some.inj ((ipv4At_of_lt (by omega)).symm.trans hhead.dstIp)
  have hsrcPort : wordAt buffer (offset + 14 + f.ihl * 4) = s.srcPort :=
    Option.some.inj ((u16At_of_lt (by omega)).symm.trans hsegment.srcPort)
  have hdstPort : wordAt buffer (offset + 14 + f.ihl * 4 + 2) = s.dstPort :=
    Option.some.inj ((u16At_of_lt (by omega)).symm.trans hsegment.dstPort)
  have hrange : (packetAt buffer offset).payload
      = ⟨offset + 14 + f.ihl * 4 + s.dataOffset * 4, s.payload⟩ := by
    have hread := @rangeAt_payload buffer offset (by omega) (by omega)
    rw [hpayload, hend, show offset + f.bytes.length = offset + 14 + f.ihl * 4 + s.bytes.length
      by omega, hsegment.payload] at hread
    exact (Option.some.inj hread).symm
  calc packetAt buffer offset
      = ⟨addressAt buffer (offset + 14 + 12), addressAt buffer (offset + 14 + 16),
          wordAt buffer (tcpStart buffer offset), wordAt buffer (tcpStart buffer offset + 2),
          (packetAt buffer offset).payload⟩ := rfl
    _ = _ := by rw [hstart, hsrcIp, hdstIp, hsrcPort, hdstPort, hrange]

/-- At a TCP frame that fits, the loop body finds its packet and goes on behind it. -/
theorem parseFrame_tcp {f : Frame} {buffer : List UInt8} {offset : Nat} {s : Segment}
    (hbody : f.body = .tcp s) (hhead : HeadAt f buffer offset)
    (hsegment : SegmentAt s buffer (offset + 14 + f.ihl * 4))
    (hfit : offset + f.bytes.length ≤ buffer.length) :
    parseFrame buffer offset = some (.packet ⟨f.srcIp, f.dstIp, s.srcPort, s.dstPort,
      ⟨offset + 14 + f.ihl * 4 + s.dataOffset * 4, s.payload⟩⟩ (offset + f.bytes.length)) := by
  obtain ⟨hle, hend⟩ := hhead.end_eq hfit
  obtain ⟨hpayload, hpacket⟩ := packetAt_eq hbody hhead hsegment hfit
  have hlen := f.length_bytes
  have htotal := Frame.totalLen_of_tcp hbody
  have hdataOffset := s.dataOffset_ge
  have hadm : Admits buffer offset :=
    { fits := hle
      ipv4 := hhead.word_eq hle
      datagram_fits := by omega
      tcp := by
        rw [hhead.protocolAt_eq hle, hbody]
        rfl
      header_fits := by
        rw [hhead.tcpStart_eq hle]
        omega
      payload_fits := by omega }
  rw [parseFrame_admits hadm, hpacket, hend]

/-- At the start of a frame, the loop body finds its packet and goes on behind it. -/
theorem parseFrame_bytes (f : Frame) (pre rest : List UInt8) :
    parseFrame (pre ++ (f.bytes ++ rest)) pre.length = some (match f.packet pre.length with
      | some p => .packet p (pre.length + f.bytes.length)
      | none => .skip (pre.length + f.bytes.length)) := by
  have hhead := headAt_bytes f pre rest
  have hfit : pre.length + f.bytes.length ≤ (pre ++ (f.bytes ++ rest)).length := by
    rw [List.length_append, List.length_append]
    omega
  cases hbody : f.body with
  | other protocol ne data =>
    have hpacket : f.packet pre.length = none := by rw [Frame.packet, hbody]
    rw [hpacket]
    exact parseFrame_other hbody hhead hfit
  | tcp s =>
    have hpacket : f.packet pre.length = some ⟨f.srcIp, f.dstIp, s.srcPort, s.dstPort,
        ⟨pre.length + 14 + f.ihl * 4 + s.dataOffset * 4, s.payload⟩⟩ := by
      rw [Frame.packet, hbody]
    rw [hpacket]
    exact parseFrame_tcp hbody hhead (segmentAt_bytes hbody pre rest) hfit

/-! ### A list of frames -/

/-- The packets of frames that stand back to back, the first at `start`. -/
def packetsAt : Nat → List Frame → List ParsedPacket
  | _, [] => []
  | start, f :: frames => (f.packet start).toList ++ packetsAt (start + f.bytes.length) frames

/-- From the start of a frame on, the loop collects the packets of the frames up to a tail at
which it ends. -/
theorem parseLoop_frames {tail : List UInt8}
    (hend : ∀ pre rounds, 0 < rounds → parseLoop (pre ++ tail) rounds pre.length = some [])
    (frames : List Frame) :
    ∀ pre rounds, (frames.map Frame.bytes).flatten.length < rounds →
      parseLoop (pre ++ ((frames.map Frame.bytes).flatten ++ tail)) rounds pre.length
        = some (packetsAt pre.length frames) := by
  induction frames with
  | nil =>
    intro pre rounds hrounds
    exact hend pre rounds hrounds
  | cons f frames ih =>
    intro pre rounds hrounds
    obtain ⟨rounds, rfl⟩ : ∃ n, rounds = n + 1 := ⟨rounds - 1, by omega⟩
    have hge := f.length_ge
    rw [List.map_cons, List.flatten_cons, List.length_append] at hrounds
    have hsplit : pre ++ (((f :: frames).map Frame.bytes).flatten ++ tail)
        = pre ++ (f.bytes ++ ((frames.map Frame.bytes).flatten ++ tail)) := by
      rw [List.map_cons, List.flatten_cons, List.append_assoc]
    -- A whole frame is long enough for another round.
    have hguard : pre.length + 14 + 20
        ≤ (pre ++ (f.bytes ++ ((frames.map Frame.bytes).flatten ++ tail))).length := by
      rw [List.length_append, List.length_append]
      omega
    have hnext := ih (pre ++ f.bytes) rounds (by omega)
    rw [List.append_assoc, List.length_append] at hnext
    rw [hsplit, parseLoop, if_pos hguard, parseFrame_bytes, packetsAt]
    -- The frame is taken or skipped, and both end where the next one begins.
    cases hpacket : f.packet pre.length with
    | none => exact hnext
    | some p =>
      show Option.map (p :: ·) (parseLoop _ rounds (pre.length + f.bytes.length)) = _
      rw [hnext]
      rfl

/-- At a part of a frame that is not the whole frame, the loop ends. -/
theorem parseLoop_prefix {f : Frame} {tail : List UInt8} (hpart : tail <+: f.bytes)
    (hne : tail ≠ f.bytes) (pre : List UInt8) {rounds : Nat} (hrounds : 0 < rounds) :
    parseLoop (pre ++ tail) rounds pre.length = some [] := by
  obtain ⟨rounds, rfl⟩ : ∃ n, rounds = n + 1 := ⟨rounds - 1, by omega⟩
  have hshort : tail.length < f.bytes.length := by
    rcases Nat.lt_or_ge tail.length f.bytes.length with hlt | hge
    · exact hlt
    · exact absurd (hpart.eq_of_length_le hge) hne
  rw [parseLoop]
  split
  · next hguard =>
    have h34 : 34 ≤ tail.length := by
      rw [List.length_append] at hguard
      omega
    -- The fixed part of both headers is there, and so is the length that does not fit.
    have hhead : HeadAt f (pre ++ tail) pre.length := by
      have hfixed : f.macs ++ f.head <+: f.bytes := by
        rw [Frame.bytes, List.append_assoc _ f.options]
        exact List.prefix_append _ _
      have hle : (f.macs ++ f.head).length ≤ tail.length := by
        rw [List.length_append, f.macs_length, f.length_head]
        exact h34
      obtain ⟨more, rfl⟩ := List.prefix_of_prefix_length_le hfixed hpart hle
      rw [List.append_assoc f.macs]
      exact headAt_append f pre more
    have hcut : (pre ++ tail).length < pre.length + f.bytes.length := by
      rw [List.length_append]
      omega
    rw [parseFrame_cut hhead hguard hcut]
  · rfl

/-- The parser finds one packet for each TCP frame, with the addresses, the ports and the payload
of the frame, and nothing for the others, also in front of a frame that is cut off. -/
theorem parse_frames (frames : List Frame) :
    parseIpv4TcpPackets (frames.map Frame.bytes).flatten = some (packetsAt 0 frames) ∧
    ∀ (f : Frame) (tail : List UInt8), tail <+: f.bytes → tail ≠ f.bytes →
      parseIpv4TcpPackets ((frames.map Frame.bytes).flatten ++ tail)
        = some (packetsAt 0 frames) := by
  have hend : ∀ tail : List UInt8,
      (∀ pre rounds, 0 < rounds → parseLoop (pre ++ tail) rounds pre.length = some []) →
      parseIpv4TcpPackets ((frames.map Frame.bytes).flatten ++ tail)
        = some (packetsAt 0 frames) := by
    intro tail htail
    refine parseLoop_frames htail frames [] _ ?_
    rw [List.length_append]
    omega
  constructor
  · have hnil := hend [] (by
      intro pre rounds hrounds
      obtain ⟨rounds, rfl⟩ : ∃ n, rounds = n + 1 := ⟨rounds - 1, by omega⟩
      rw [parseLoop, if_neg (by rw [List.append_nil]; omega)])
    rwa [List.append_nil] at hnil
  · intro f tail hpart hne
    exact hend tail fun pre _ hrounds => parseLoop_prefix hpart hne pre hrounds

/-- A TCP frame with options in both headers and five bytes of payload. -/
def tcpFrame : Frame where
  macs := [0, 22, 62, 1, 2, 3, 0, 22, 62, 4, 5, 6]
  version := 4
  ihl := 6
  service := 0
  fragment := [0, 1, 64, 0]
  ttl := 64
  checksum := [171, 205]
  srcIp := ⟨10, 0, 0, 1⟩
  dstIp := ⟨10, 0, 0, 2⟩
  options := [1, 1, 1, 0]
  body := .tcp
    { srcPort := 40000
      dstPort := 8080
      numbers := [0, 0, 0, 1, 0, 0, 0, 2]
      dataOffset := 6
      reserved := 0
      flags := 24
      control := [255, 255, 0, 0, 0, 0]
      options := [2, 4, 5, 180]
      payload := [104, 101, 108, 108, 111]
      numbers_length := by decide
      reserved_lt := by decide
      control_length := by decide
      dataOffset_le := by decide
      options_length := by decide }
  macs_length := by decide
  version_lt := by decide
  ihl_le := by decide
  fragment_length := by decide
  checksum_length := by decide
  options_length := by decide
  total_lt := by decide

/-- A UDP frame without data. -/
def udpFrame : Frame where
  macs := [0, 22, 62, 1, 2, 3, 0, 22, 62, 4, 5, 6]
  version := 4
  ihl := 5
  service := 0
  fragment := [0, 2, 64, 0]
  ttl := 64
  checksum := [171, 206]
  srcIp := ⟨10, 0, 0, 3⟩
  dstIp := ⟨10, 0, 0, 2⟩
  options := []
  body := .other 17 (by decide) [0, 53, 0, 53, 0, 8, 0, 0]
  macs_length := by decide
  version_lt := by decide
  ihl_le := by decide
  fragment_length := by decide
  checksum_length := by decide
  options_length := by decide
  total_lt := by decide

theorem parse_frames_cut :
    parseIpv4TcpPackets (udpFrame.bytes ++ (tcpFrame.bytes ++ tcpFrame.bytes.take 40))
      = some [⟨⟨10, 0, 0, 1⟩, ⟨10, 0, 0, 2⟩, 40000, 8080, ⟨104, [104, 101, 108, 108, 111]⟩⟩] := by
  have h := (parse_frames [udpFrame, tcpFrame]).2 tcpFrame (tcpFrame.bytes.take 40)
    (List.take_prefix _ _) (by decide)
  simpa [packetsAt, Frame.packet, udpFrame, tcpFrame, Frame.length_bytes, Frame.totalLen,
    Body.bytes, Segment.length_bytes] using h

end Tsocket

end Tachyon
