import Tachyon.Proofs.Passes

/-!
# `Tachyon.Proofs.Hostile`: the packet parser on arbitrary bytes

`Tachyon.Proofs.Packets` has the parser on frames in wire format. Here the buffer is any list of
bytes.

* The parser returns, and the payloads lie in the buffer, each in front of the next frame that is
  accepted (`parser_total`).
* The length fields are checked against the buffer and against each other, but not against the
  smallest headers. `accepts_well_formed_iff` has the buffers for which that does not matter.
-/

set_option autoImplicit false

namespace Tachyon

/-- The offset behind a payload. -/
def Payload.stop (payload : Payload) : Nat := payload.start + payload.bytes.length

namespace Tsocket

variable {b : List UInt8}

/-! ### The payloads -/

/-- Where the packets found in a buffer lie. -/
structure InOrder (b : List UInt8) (found : List (Nat × ParsedPacket)) : Prop where
  /-- A payload is a part of the buffer behind the start of its frame. -/
  inside : ∀ e ∈ found, e.1 ≤ e.2.payload.start ∧ e.2.payload.stop ≤ b.length ∧
    e.2.payload.bytes = (b.drop e.2.payload.start).take e.2.payload.bytes.length
  /-- A payload ends before the next accepted frame begins. -/
  before : found.Pairwise fun e e' => e.2.payload.stop ≤ e'.1
  disjoint : found.Pairwise fun e e' => e.2.payload.stop ≤ e'.2.payload.start

/-- The payload of a frame that passes the checks ends with the datagram. -/
theorem Admits.stop_eq {offset : Nat} (h : Admits b offset) :
    (packetAt b offset).payload.stop = datagramEnd b offset := by
  have hle := h.payload_fits
  have hfit := h.datagram_fits
  show payloadStart b offset + ((b.drop (payloadStart b offset)).take
    (datagramEnd b offset - payloadStart b offset)).length = datagramEnd b offset
  rw [List.length_take, List.length_drop]
  omega

theorem Admits.bytes_eq {offset : Nat} (h : Admits b offset) :
    (packetAt b offset).payload.bytes = (b.drop (packetAt b offset).payload.start).take
      (packetAt b offset).payload.bytes.length := by
  have hlen : (packetAt b offset).payload.bytes.length
      = datagramEnd b offset - payloadStart b offset := by
    have hstop := h.stop_eq
    rw [Payload.stop] at hstop
    show _ = _ - (packetAt b offset).payload.start
    omega
  rw [hlen]
  rfl

theorem payloadStart_ge (b : List UInt8) (offset : Nat) : offset + 14 ≤ payloadStart b offset :=
  Nat.le_trans (Nat.le_add_right _ _) (Nat.le_add_right _ _)

/-- Every packet the loop finds is that of an admitted frame at or behind its start. -/
theorem Walks.found_spec {offset : Nat} {found : List (Nat × ParsedPacket)}
    (h : Walks b offset found) : ∀ e ∈ found,
      offset ≤ e.1 ∧ Admits b e.1 ∧ e.2 = packetAt b e.1 := by
  induction h with
  | done _ =>
    intro e he
    cases he
  | stop _ _ =>
    intro e he
    cases he
  | skip h hpass _ ih =>
    have hnext := next_of_skip h hpass
    intro e he
    obtain ⟨hle, hrest⟩ := ih e he
    exact ⟨by omega, hrest⟩
  | @packet offset next p found h hpass _ ih =>
    obtain ⟨hadm, hp, rfl⟩ := admits_of_packet h hpass
    intro e he
    rcases List.mem_cons.mp he with rfl | he
    · exact ⟨Nat.le_refl _, hadm, hp⟩
    · obtain ⟨hle, hrest⟩ := ih e he
      have hend : offset ≤ datagramEnd b offset :=
        Nat.le_trans (Nat.le_add_right _ _) (Nat.le_add_right _ _)
      exact ⟨by omega, hrest⟩

/-- Each frame that is found begins at or behind the end of the payloads found before it. -/
theorem Walks.pairwise {offset : Nat} {found : List (Nat × ParsedPacket)}
    (h : Walks b offset found) : found.Pairwise fun e e' => e.2.payload.stop ≤ e'.1 := by
  induction h with
  | done _ => exact .nil
  | stop _ _ => exact .nil
  | skip _ _ _ ih => exact ih
  | @packet offset next p found h hpass hrest ih =>
    obtain ⟨hadm, rfl, rfl⟩ := admits_of_packet h hpass
    -- The payload ends with the datagram, and the loop goes on from there.
    refine List.pairwise_cons.mpr ⟨fun e he => ?_, ih⟩
    show (packetAt b offset).payload.stop ≤ e.1
    rw [hadm.stop_eq]
    exact (hrest.found_spec e he).1

theorem Walks.inOrder {offset : Nat} {found : List (Nat × ParsedPacket)}
    (h : Walks b offset found) : InOrder b found where
  inside := by
    intro e he
    obtain ⟨_, hadm, hp⟩ := h.found_spec e he
    have hstart := payloadStart_ge b e.1
    rw [hp]
    refine ⟨?_, ?_, hadm.bytes_eq⟩
    · show e.1 ≤ payloadStart b e.1
      omega
    · rw [hadm.stop_eq]
      exact hadm.datagram_fits
  before := h.pairwise
  disjoint := by
    -- The payload of `e'` begins behind the start of its frame.
    refine h.pairwise.imp_of_mem fun {e e'} he he' hbefore => ?_
    obtain ⟨_, _, hp⟩ := h.found_spec e' he'
    have hstart := payloadStart_ge b e'.1
    have hpayload : e'.2.payload.start = payloadStart b e'.1 := by
      rw [hp]
      rfl
    omega

/-- On every buffer the parser returns, with payloads in order. -/
theorem parser_total (b : List UInt8) : ∃ found, Walks b 0 found ∧
    parseIpv4TcpPackets b = some (found.map Prod.snd) ∧ InOrder b found := by
  obtain ⟨found, h⟩ := exists_walks b 0
  exact ⟨found, h, h.parse_eq, h.inOrder⟩

/-! ### The smallest headers -/

/-- The frame at an offset has an IPv4 and a TCP header of at least 5 words each, one behind the
other inside its datagram. So the addresses are read from the first one, and the ports from the
second one. -/
structure WellFormedAt (b : List UInt8) (offset : Nat) : Prop where
  ihl : 5 ≤ ihlAt b offset
  data_offset : 5 ≤ dataOffsetAt b offset
  headers_inside :
    offset + 14 + (ihlAt b offset + dataOffsetAt b offset) * 4 ≤ datagramEnd b offset
  addresses_inside : offset + 14 + 20 ≤ tcpStart b offset
  ports_inside : tcpStart b offset + 4 ≤ payloadStart b offset

theorem Admits.wellFormedAt_iff {offset : Nat} (h : Admits b offset) :
    WellFormedAt b offset ↔ 5 ≤ ihlAt b offset ∧ 5 ≤ dataOffsetAt b offset := by
  have hpayload := h.payload_fits
  have hstart : payloadStart b offset
      = offset + 14 + ihlAt b offset * 4 + dataOffsetAt b offset * 4 := rfl
  have htcp : tcpStart b offset = offset + 14 + ihlAt b offset * 4 := rfl
  constructor
  · intro hw
    exact ⟨hw.ihl, hw.data_offset⟩
  · rintro ⟨hihl, hdata⟩
    exact
      { ihl := hihl
        data_offset := hdata
        headers_inside := by omega
        addresses_inside := by omega
        ports_inside := by omega }

/-- The offsets the loop gets to, by the ethertypes, the protocols and the length fields. -/
inductive Reached (b : List UInt8) : Nat → Prop
  | start : Reached b 0
  | foreign {offset : Nat} (h : Reached b offset) (hle : offset + 34 ≤ b.length)
      (heth : wordAt b (offset + 12) ≠ 0x0800) : Reached b (offset + 64)
  | other {offset : Nat} (h : Reached b offset) (hle : offset + 34 ≤ b.length)
      (heth : wordAt b (offset + 12) = 0x0800) (hfit : datagramEnd b offset ≤ b.length)
      (hproto : protocolAt b offset ≠ 6) : Reached b (datagramEnd b offset)
  | tcp {offset : Nat} (h : Reached b offset) (hadm : Admits b offset) :
      Reached b (datagramEnd b offset)

/-- From a reached offset on, the loop finds packets of the whole run. -/
theorem Reached.walks {offset : Nat} (h : Reached b offset) {found : List (Nat × ParsedPacket)}
    (hwalks : Walks b 0 found) :
    ∃ rest, Walks b offset rest ∧ ∀ e ∈ rest, e ∈ found := by
  induction h with
  | start => exact ⟨found, hwalks, fun _ he => he⟩
  | @foreign offset h hle heth ih =>
    obtain ⟨rest, hrest, hsub⟩ := ih
    exact ⟨rest, hrest.of_skip hle (parseFrame_foreign hle heth), hsub⟩
  | @other offset h hle heth hfit hproto ih =>
    obtain ⟨rest, hrest, hsub⟩ := ih
    have hpass : parseFrame b offset = some (.skip (datagramEnd b offset)) := by
      rw [parseFrame_ipv4 hle heth, if_neg (Nat.not_lt_of_le hfit), if_pos hproto]
    exact ⟨rest, hrest.of_skip hle hpass, hsub⟩
  | @tcp offset h hadm ih =>
    obtain ⟨rest, hrest, hsub⟩ := ih
    obtain ⟨rest', rfl, hrest'⟩ := hrest.of_admits hadm
    exact ⟨rest', hrest', fun e he => hsub e (List.mem_cons_of_mem _ he)⟩

/-- The frames that are found are reached. -/
theorem Walks.reached {offset : Nat} {found : List (Nat × ParsedPacket)}
    (h : Walks b offset found) (hstart : Reached b offset) : ∀ e ∈ found, Reached b e.1 := by
  induction h with
  | done _ =>
    intro e he
    cases he
  | stop _ _ =>
    intro e he
    cases he
  | skip h hpass _ ih =>
    -- Of the two kinds of skips, the pass tells which one this is.
    refine ih ?_
    obtain ⟨out, hout, hp⟩ := pass_of_le h
    obtain rfl := Option.some.inj (hout.symm.trans hpass)
    cases hp with
    | foreign heth => exact .foreign hstart h heth
    | other heth hfit hproto => exact .other hstart h heth hfit hproto
  | packet h hpass _ ih =>
    obtain ⟨hadm, _, rfl⟩ := admits_of_packet h hpass
    intro e he
    rcases List.mem_cons.mp he with rfl | he
    · exact hstart
    · exact ih (.tcp hstart hadm) e he

/-- An offset is that of an accepted frame exactly when it is reached and its frame passes the
checks. -/
theorem mem_found_iff {found : List (Nat × ParsedPacket)} (h : Walks b 0 found) (offset : Nat) :
    (∃ p, (offset, p) ∈ found) ↔ Reached b offset ∧ Admits b offset := by
  constructor
  · rintro ⟨p, hmem⟩
    exact ⟨h.reached .start _ hmem, (h.found_spec _ hmem).2.1⟩
  · rintro ⟨hreached, hadm⟩
    -- From the offset on, the packet of its frame is found first.
    obtain ⟨rest, hrest, hsub⟩ := hreached.walks h
    obtain ⟨rest', rfl, _⟩ := hrest.of_admits hadm
    exact ⟨packetAt b offset, hsub _ List.mem_cons_self⟩

/-- Every returned packet comes from a well-formed frame. -/
def AcceptsWellFormed (b : List UInt8) : Prop :=
  ∃ found, Walks b 0 found ∧ parseIpv4TcpPackets b = some (found.map Prod.snd) ∧
    ∀ e ∈ found, WellFormedAt b e.1

/-- For every buffer: the accepted frames are well formed exactly when the loop gets to no frame
whose lengths fit although one of the two header lengths is below 5 words. -/
theorem accepts_well_formed_iff (b : List UInt8) : AcceptsWellFormed b ↔
    ∀ offset, Reached b offset → Admits b offset →
      5 ≤ ihlAt b offset ∧ 5 ≤ dataOffsetAt b offset := by
  constructor
  · rintro ⟨found, hwalks, _, hall⟩ offset hreached hadm
    obtain ⟨p, hmem⟩ := (mem_found_iff hwalks offset).mpr ⟨hreached, hadm⟩
    exact hadm.wellFormedAt_iff.mp (hall _ hmem)
  · intro hcond
    obtain ⟨found, hwalks⟩ := exists_walks b 0
    refine ⟨found, hwalks, hwalks.parse_eq, fun e he => ?_⟩
    obtain ⟨hreached, hadm⟩ := (mem_found_iff hwalks e.1).mp ⟨e.2, he⟩
    exact hadm.wellFormedAt_iff.mpr (hcond e.1 hreached hadm)

/-- A datagram of 20 bytes whose header length is 0: the source port is read from its first two
bytes, and the data offset from its source address. -/
def headerless : List UInt8 :=
  List.replicate 12 0 ++ [8, 0, 0x40, 0, 0, 20, 0, 0, 0, 0, 64, 6, 0, 0, 10, 0, 0, 1, 10, 0, 0, 2]

theorem not_accepts_well_formed : ¬ ∀ b : List UInt8, AcceptsWellFormed b := by
  intro hall
  obtain ⟨found, hwalks, _, hwell⟩ := hall headerless
  -- 20 bytes follow the place of the TCP header, which is that of the IPv4 header.
  have hadm : Admits headerless 0 :=
    { fits := by decide
      ipv4 := by decide
      datagram_fits := by decide
      tcp := by decide
      header_fits := by decide
      payload_fits := by decide }
  obtain ⟨p, hmem⟩ := (mem_found_iff hwalks 0).mpr ⟨.start, hadm⟩
  have hihl : 5 ≤ ihlAt headerless 0 := (hwell _ hmem).ihl
  exact absurd hihl (by decide)

end Tsocket

end Tachyon
