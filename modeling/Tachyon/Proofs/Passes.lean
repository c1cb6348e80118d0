import Mathlib.Data.List.GetD
import Tachyon.Network.Tsocket

/-!
# `Tachyon.Proofs.Passes`: one pass of the packet parser, and its loop

Where 34 bytes are left, every field that a pass reads is there, and a pass ends in one of four
ways (`Pass`). Only this file looks into `parseFrame`.

`Walks` is the loop without a bound on its rounds, with the offset at which each packet is found.
Every pass advances by at least 14 bytes, so the loop ends (`exists_walks`) and the bound of
`parseLoop` is large enough (`Walks.parse_eq`).
-/

set_option autoImplicit false

namespace Tachyon

namespace Tsocket

/-! ### The fields of a frame -/

/-- The byte at an offset. Behind the buffer it is 0, which no read relies on. -/
def byteAt (b : List UInt8) (i : Nat) : UInt8 := b.getD i 0

def wordAt (b : List UInt8) (i : Nat) : UInt16 := fromBeBytes (byteAt b i) (byteAt b (i + 1))

def addressAt (b : List UInt8) (i : Nat) : Ipv4Addr :=
  ⟨byteAt b i, byteAt b (i + 1), byteAt b (i + 2), byteAt b (i + 3)⟩

section
variable (b : List UInt8) (offset : Nat)

/-- The header length of the IPv4 header, in words. -/
def ihlAt : Nat := (byteAt b (offset + 14) &&& 0x0F).toNat

/-- Where the datagram ends that begins behind the Ethernet header. -/
def datagramEnd : Nat := offset + 14 + (wordAt b (offset + 14 + 2)).toNat

def protocolAt : UInt8 := byteAt b (offset + 14 + 9)

def tcpStart : Nat := offset + 14 + ihlAt b offset * 4

/-- The header length of the TCP header, in words. -/
def dataOffsetAt : Nat := (byteAt b (tcpStart b offset + 12) >>> 4).toNat

def payloadStart : Nat := tcpStart b offset + dataOffsetAt b offset * 4

/-- The packet of the frame at an offset. -/
def packetAt : ParsedPacket where
  srcIp := addressAt b (offset + 14 + 12)
  dstIp := addressAt b (offset + 14 + 16)
  srcPort := wordAt b (tcpStart b offset)
  dstPort := wordAt b (tcpStart b offset + 2)
  payload := ⟨payloadStart b offset,
    (b.drop (payloadStart b offset)).take (datagramEnd b offset - payloadStart b offset)⟩

/-- The checks that a frame passes before its packet is kept. -/
structure Admits : Prop where
  fits : offset + 34 ≤ b.length
  ipv4 : wordAt b (offset + 12) = 0x0800
  datagram_fits : datagramEnd b offset ≤ b.length
  tcp : protocolAt b offset = 6
  header_fits : tcpStart b offset + 20 ≤ b.length
  payload_fits : payloadStart b offset ≤ datagramEnd b offset

end

theorem get_of_lt {b : List UInt8} {i : Nat} (h : i < b.length) : b[i]? = some (byteAt b i) := by
  rw [byteAt, List.getElem?_eq_getElem h, List.getD_eq_getElem _ _ h]

theorem u16At_of_lt {b : List UInt8} {i : Nat} (h : i + 1 < b.length) :
    u16At b i = some (wordAt b i) := by
  rw [u16At, get_of_lt (by omega), get_of_lt h]
  rfl

theorem ipv4At_of_lt {b : List UInt8} {i : Nat} (h : i + 3 < b.length) :
    ipv4At b i = some (addressAt b i) := by
  rw [ipv4At, get_of_lt (by omega), get_of_lt (by omega), get_of_lt (by omega), get_of_lt h]
  rfl

/-- Four times a half byte is still a byte. -/
theorem toNat_shift_mul (x : UInt8) : ((x >>> 4) * 4).toNat = (x >>> 4).toNat * 4 := by
  have hx := x.toNat_lt
  have hshift : (x >>> 4).toNat = x.toNat / 16 := by
    rw [UInt8.toNat_shiftRight]
    exact Nat.shiftRight_eq_div_pow _ 4
  have hmul : ((x >>> 4) * 4).toNat = (x >>> 4).toNat * 4 % 256 := UInt8.toNat_mul _ _
  rw [hmul, hshift]
  omega

/-! ### One pass -/

/-- What a pass at an offset does. -/
inductive Pass (b : List UInt8) (offset : Nat) : Outcome → Prop
  | foreign (heth : wordAt b (offset + 12) ≠ 0x0800) : Pass b offset (.skip (offset + 64))
  | other (heth : wordAt b (offset + 12) = 0x0800) (hfit : datagramEnd b offset ≤ b.length)
      (hproto : protocolAt b offset ≠ 6) : Pass b offset (.skip (datagramEnd b offset))
  | packet (h : Admits b offset) :
      Pass b offset (.packet (packetAt b offset) (datagramEnd b offset))
  | stop (heth : wordAt b (offset + 12) = 0x0800)
      (h : b.length < datagramEnd b offset ∨ protocolAt b offset = 6 ∧ ¬ Admits b offset) :
      Pass b offset .stop

section
variable {b : List UInt8} {offset : Nat}

/-- A frame of another ethertype is skipped by 64 bytes. -/
theorem parseFrame_foreign (h : offset + 34 ≤ b.length)
    (heth : wordAt b (offset + 12) ≠ 0x0800) :
    parseFrame b offset = some (.skip (offset + 64)) := by
  rw [parseFrame, u16At_of_lt (by omega)]
  exact if_pos heth

/-- The payload of a frame whose length fields fit each other and the buffer. -/
theorem rangeAt_payload (hle : payloadStart b offset ≤ datagramEnd b offset)
    (hfit : datagramEnd b offset ≤ b.length) :
    rangeAt b (payloadStart b offset) (datagramEnd b offset)
      = some (packetAt b offset).payload :=
  if_pos ⟨hle, hfit⟩

/-- An IPv4 frame, check by check. -/
theorem parseFrame_ipv4 (h : offset + 34 ≤ b.length) (heth : wordAt b (offset + 12) = 0x0800) :
    parseFrame b offset = if b.length < datagramEnd b offset then some .stop
      else if protocolAt b offset ≠ 6 then some (.skip (datagramEnd b offset))
      else if b.length < tcpStart b offset + 20 then some .stop
      else if datagramEnd b offset < payloadStart b offset then some .stop
      else some (.packet (packetAt b offset) (datagramEnd b offset)) := by
  have h20 : ¬ offset + 14 + 20 > b.length := by omega
  have htcp : offset + 14 + (byteAt b (offset + 14) &&& 15).toNat * 4 = tcpStart b offset := rfl
  have hend : offset + 14 + (wordAt b (offset + 16)).toNat = datagramEnd b offset := rfl
  have hproto : byteAt b (offset + 14 + 9) = protocolAt b offset := rfl
  unfold parseFrame
  -- Up to the addresses, every index is below `offset + 34`.
  simp only [u16At_of_lt (show offset + 12 + 1 < b.length by omega),
    get_of_lt (show offset + 14 < b.length by omega),
    u16At_of_lt (show offset + 14 + 2 + 1 < b.length by omega),
    get_of_lt (show offset + 14 + 9 < b.length by omega),
    ipv4At_of_lt (show offset + 14 + 12 + 3 < b.length by omega),
    ipv4At_of_lt (show offset + 14 + 16 + 3 < b.length by omega),
    Option.bind_eq_bind, Option.bind_some, heth, ne_eq, not_true_eq_false, if_false, h20,
    htcp, hend, hproto]
  by_cases hlong : b.length < datagramEnd b offset
  · rw [if_pos hlong, if_pos hlong]
    rfl
  rw [if_neg hlong, if_neg hlong]
  by_cases htcpProto : protocolAt b offset = 6
  · rw [if_neg (not_not.mpr htcpProto), if_neg (not_not.mpr htcpProto)]
    by_cases hheader : b.length < tcpStart b offset + 20
    · rw [if_pos hheader, if_pos hheader]
      rfl
    rw [if_neg hheader, if_neg hheader]
    -- The ports and the data offset are among the 20 bytes that have just been checked.
    have hstart : tcpStart b offset + (byteAt b (tcpStart b offset + 12) >>> 4 * 4).toNat
        = payloadStart b offset := by
      rw [toNat_shift_mul]
      rfl
    simp only [u16At_of_lt (show tcpStart b offset + 1 < b.length by omega),
      u16At_of_lt (show tcpStart b offset + 2 + 1 < b.length by omega),
      get_of_lt (show tcpStart b offset + 12 < b.length by omega), Option.bind_some, hstart]
    by_cases hover : datagramEnd b offset < payloadStart b offset
    · -- Whether the payload also starts behind the buffer makes no difference.
      rw [if_pos hover, if_pos (Or.inr hover), ite_self]
      rfl
    · -- The first half of the source's test repeats the one on the datagram.
      have hstop : ¬ (datagramEnd b offset > b.length
          ∨ payloadStart b offset > datagramEnd b offset) := by omega
      rw [if_neg hover, if_neg (by omega), if_neg hstop,
        rangeAt_payload (Nat.le_of_not_lt hover) (Nat.le_of_not_lt hlong)]
      have hnext : offset + (14 + (wordAt b (offset + 16)).toNat) = datagramEnd b offset :=
        (Nat.add_assoc _ _ _).symm
      rw [hnext]
      rfl
  · rw [if_pos htcpProto, if_pos htcpProto]
    rfl

/-- With 34 bytes left, no index and no range is out of the buffer. -/
theorem pass_of_le (h : offset + 34 ≤ b.length) :
    ∃ out, parseFrame b offset = some out ∧ Pass b offset out := by
  by_cases heth : wordAt b (offset + 12) = 0x0800
  · rw [parseFrame_ipv4 h heth]
    by_cases hlong : b.length < datagramEnd b offset
    · exact ⟨_, if_pos hlong, .stop heth (Or.inl hlong)⟩
    rw [if_neg hlong]
    by_cases hproto : protocolAt b offset = 6
    · rw [if_neg (not_not.mpr hproto)]
      by_cases hheader : b.length < tcpStart b offset + 20
      · refine ⟨_, if_pos hheader, .stop heth (Or.inr ⟨hproto, fun hadm => ?_⟩)⟩
        have := hadm.header_fits
        omega
      rw [if_neg hheader]
      by_cases hover : datagramEnd b offset < payloadStart b offset
      · refine ⟨_, if_pos hover, .stop heth (Or.inr ⟨hproto, fun hadm => ?_⟩)⟩
        have := hadm.payload_fits
        omega
      rw [if_neg hover]
      -- What is left is a frame that has passed every check.
      exact ⟨_, rfl, .packet
        { fits := h
          ipv4 := heth
          datagram_fits := Nat.le_of_not_lt hlong
          tcp := hproto
          header_fits := Nat.le_of_not_lt hheader
          payload_fits := Nat.le_of_not_lt hover }⟩
    · exact ⟨_, if_pos hproto, .other heth (Nat.le_of_not_lt hlong) hproto⟩
  · exact ⟨_, parseFrame_foreign h heth, .foreign heth⟩

/-- A frame that passes the checks is kept. -/
theorem parseFrame_admits (h : Admits b offset) : parseFrame b offset
    = some (.packet (packetAt b offset) (datagramEnd b offset)) := by
  obtain ⟨out, hout, hpass⟩ := pass_of_le h.fits
  rw [hout]
  cases hpass with
  | foreign heth => exact absurd h.ipv4 heth
  | other heth hfit hproto => exact absurd h.tcp hproto
  | packet _ => rfl
  | stop heth hstop =>
    rcases hstop with hlong | ⟨_, hnot⟩
    · exact absurd h.datagram_fits (Nat.not_le_of_lt hlong)
    · exact absurd h hnot

end

/-! ### The loop -/

/-- The passes of the loop from an offset on, and the packets with the offsets of their frames. -/
inductive Walks (b : List UInt8) : Nat → List (Nat × ParsedPacket) → Prop
  | done {offset : Nat} (h : b.length < offset + 34) : Walks b offset []
  | stop {offset : Nat} (h : offset + 34 ≤ b.length) (hpass : parseFrame b offset = some .stop) :
      Walks b offset []
  | skip {offset next : Nat} {found : List (Nat × ParsedPacket)} (h : offset + 34 ≤ b.length)
      (hpass : parseFrame b offset = some (.skip next)) (hrest : Walks b next found) :
      Walks b offset found
  | packet {offset next : Nat} {p : ParsedPacket} {found : List (Nat × ParsedPacket)}
      (h : offset + 34 ≤ b.length) (hpass : parseFrame b offset = some (.packet p next))
      (hrest : Walks b next found) : Walks b offset ((offset, p) :: found)

variable {b : List UInt8}

/-- A pass goes at least past the Ethernet header. -/
theorem next_of_skip {offset next : Nat} (h : offset + 34 ≤ b.length)
    (hpass : parseFrame b offset = some (.skip next)) : offset + 14 ≤ next := by
  obtain ⟨out, hout, hp⟩ := pass_of_le h
  obtain rfl : out = .skip next := Option.some.inj (hout.symm.trans hpass)
  cases hp with
  | foreign _ => omega
  | other _ _ _ => exact Nat.le_add_right _ _

theorem admits_of_packet {offset next : Nat} {p : ParsedPacket} (h : offset + 34 ≤ b.length)
    (hpass : parseFrame b offset = some (.packet p next)) :
    Admits b offset ∧ p = packetAt b offset ∧ next = datagramEnd b offset := by
  obtain ⟨out, hout, hp⟩ := pass_of_le h
  obtain rfl : out = .packet p next := Option.some.inj (hout.symm.trans hpass)
  cases hp with
  | packet hadm => exact ⟨hadm, rfl, rfl⟩

/-- The loop ends, wherever it begins. -/
theorem exists_walks (b : List UInt8) (offset : Nat) : ∃ found, Walks b offset found := by
  -- Even a datagram of total length 0 takes the loop past its Ethernet header.
  by_cases h : offset + 34 ≤ b.length
  · obtain ⟨out, hout, hpass⟩ := pass_of_le h
    match out, hout with
    | .stop, hout => exact ⟨[], .stop h hout⟩
    | .skip next, hout =>
      have hnext := next_of_skip h hout
      obtain ⟨found, hrest⟩ := exists_walks b next
      exact ⟨found, .skip h hout hrest⟩
    | .packet p next, hout =>
      have hnext : offset + 14 ≤ next := by
        rw [(admits_of_packet h hout).2.2]
        exact Nat.le_add_right _ _
      obtain ⟨found, hrest⟩ := exists_walks b next
      exact ⟨(offset, p) :: found, .packet h hout hrest⟩
  · exact ⟨[], .done (Nat.lt_of_not_le h)⟩
termination_by b.length - offset

/-- The bound of `parseLoop` leaves it enough rounds. -/
theorem Walks.parseLoop_eq {offset : Nat} {found : List (Nat × ParsedPacket)}
    (h : Walks b offset found) {rounds : Nat} (hpos : 0 < rounds)
    (hrounds : b.length < offset + rounds) :
    parseLoop b rounds offset = some (found.map Prod.snd) := by
  induction h generalizing rounds with
  | done h =>
    obtain ⟨rounds, rfl⟩ : ∃ n, rounds = n + 1 := ⟨rounds - 1, by omega⟩
    exact if_neg (by omega)
  | stop h hpass =>
    obtain ⟨rounds, rfl⟩ : ∃ n, rounds = n + 1 := ⟨rounds - 1, by omega⟩
    rw [parseLoop, if_pos h, hpass]
    rfl
  | skip h hpass _ ih =>
    -- One round is used up, and the offset grows by more than one.
    obtain ⟨rounds, rfl⟩ : ∃ n, rounds = n + 1 := ⟨rounds - 1, by omega⟩
    have hnext := next_of_skip h hpass
    rw [parseLoop, if_pos h, hpass]
    exact ih (by omega) (by omega)
  | @packet offset next p found h hpass _ ih =>
    obtain ⟨rounds, rfl⟩ : ∃ n, rounds = n + 1 := ⟨rounds - 1, by omega⟩
    have hnext : offset + 14 ≤ next := by
      rw [(admits_of_packet h hpass).2.2]
      exact Nat.le_add_right _ _
    rw [parseLoop, if_pos h, hpass]
    show (parseLoop b rounds next).map (p :: ·) = _
    rw [ih (by omega) (by omega)]
    rfl

/-- The parser returns the packets of the loop. -/
theorem Walks.parse_eq {found : List (Nat × ParsedPacket)} (h : Walks b 0 found) :
    parseIpv4TcpPackets b = some (found.map Prod.snd) :=
  h.parseLoop_eq (Nat.succ_pos _) (by omega)

/-- Behind a frame that is skipped, the loop finds what it finds. -/
theorem Walks.of_skip {offset next : Nat} {found : List (Nat × ParsedPacket)}
    (h : Walks b offset found) (hle : offset + 34 ≤ b.length)
    (hpass : parseFrame b offset = some (.skip next)) : Walks b next found := by
  cases h with
  | done h => omega
  | stop _ hstop =>
    rw [hpass] at hstop
    cases hstop
  | skip _ hskip hrest =>
    rw [hpass] at hskip
    cases hskip
    exact hrest
  | packet _ hpacket _ =>
    rw [hpass] at hpacket
    cases hpacket

/-- At a frame that passes the checks, its packet is found first. -/
theorem Walks.of_admits {offset : Nat} {found : List (Nat × ParsedPacket)}
    (h : Walks b offset found) (hadm : Admits b offset) : ∃ rest,
      found = (offset, packetAt b offset) :: rest ∧ Walks b (datagramEnd b offset) rest := by
  have hpass := parseFrame_admits hadm
  cases h with
  | done h =>
    have := hadm.fits
    omega
  | stop _ hstop =>
    rw [hpass] at hstop
    cases hstop
  | skip _ hskip _ =>
    rw [hpass] at hskip
    cases hskip
  | packet _ hpacket hrest =>
    rw [hpass] at hpacket
    cases hpacket
    exact ⟨_, rfl, hrest⟩

end Tsocket

end Tachyon
