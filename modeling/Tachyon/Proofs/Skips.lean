import Tachyon.Proofs.Packets

/-!
# `Tachyon.Proofs.Skips`: foreign frames in front of others

A frame with another ethertype is skipped by 64 bytes, however long it is. So the loop may look
for headers inside of it, or jump into what follows.

`Crosses f offset` says that the skips from `offset` on lead to the end of `f` and nowhere else,
whatever stands behind `f`. This is sufficient for the frame to be neutral (`Crosses.found`). It
is also necessary: the frames of `probe` show every other outcome (`crosses_of_probes`). A skip
that overshoots misses the packet of the probe, and a packet that is found inside of `f` has
the source address of at most one of two probes.
-/

set_option autoImplicit false

namespace Tachyon

/-- A packet without the place of its payload. -/
def ParsedPacket.contents (p : ParsedPacket) :
    Ipv4Addr × Ipv4Addr × UInt16 × UInt16 × List UInt8 :=
  (p.srcIp, p.dstIp, p.srcPort, p.dstPort, p.payload.bytes)

namespace Tsocket

/-! ### Frames -/

/-- A complete Ethernet frame that is no IPv4 frame. -/
structure ForeignFrame where
  bytes : List UInt8
  length_ge : 14 ≤ bytes.length
  ethertype_ne : wordAt bytes 12 ≠ 0x0800

/-- The frame holds a TCP segment. -/
def Frame.IsTcp (g : Frame) : Prop := ∃ s, g.body = .tcp s

/-- Frames back to back. -/
def backToBack (frames : List Frame) : List UInt8 := (frames.map Frame.bytes).flatten

/-- In front of well-formed TCP frames, `f` changes nothing. -/
def Neutral (f : ForeignFrame) : Prop :=
  ∀ frames : List Frame, (∀ g ∈ frames, g.IsTcp) →
    (parseIpv4TcpPackets (f.bytes ++ backToBack frames)).map (List.map ParsedPacket.contents)
      = (parseIpv4TcpPackets (backToBack frames)).map (List.map ParsedPacket.contents)

/-- From an offset, skips inside of `f` lead to its end: by 64 bytes where the ethertype is
another one, and by the announced length for a datagram without TCP. -/
inductive Crosses (f : List UInt8) : Nat → Prop
  | arrived : Crosses f f.length
  | foreign {offset : Nat} (hin : offset + 14 ≤ f.length)
      (heth : wordAt f (offset + 12) ≠ 0x0800) (h : Crosses f (offset + 64)) : Crosses f offset
  | other {offset : Nat} (hin : offset + 24 ≤ f.length) (heth : wordAt f (offset + 12) = 0x0800)
      (hproto : protocolAt f offset ≠ 6) (h : Crosses f (datagramEnd f offset)) :
      Crosses f offset

theorem Crosses.le {f : List UInt8} {offset : Nat} (h : Crosses f offset) :
    offset ≤ f.length := by
  cases h with
  | arrived => exact Nat.le_refl _
  | foreign hin _ _ => omega
  | other hin _ _ _ => omega

/-! ### The fields in front of and behind the seam -/

section
variable {f g : List UInt8} {i : Nat}

theorem byteAt_append_left (h : i < f.length) : byteAt (f ++ g) i = byteAt f i :=
  List.getD_append f g 0 i h

theorem byteAt_append_right (h : f.length ≤ i) : byteAt (f ++ g) i = byteAt g (i - f.length) :=
  List.getD_append_right f g 0 i h

theorem wordAt_append_left (h : i + 1 < f.length) : wordAt (f ++ g) i = wordAt f i := by
  rw [wordAt, byteAt_append_left (by omega), byteAt_append_left h, wordAt]

theorem wordAt_append_right (h : f.length ≤ i) : wordAt (f ++ g) i = wordAt g (i - f.length) := by
  rw [wordAt, byteAt_append_right h, byteAt_append_right (by omega),
    show i + 1 - f.length = i - f.length + 1 by omega, wordAt]

theorem datagramEnd_append (h : i + 24 ≤ f.length) :
    datagramEnd (f ++ g) i = datagramEnd f i := by
  rw [datagramEnd, wordAt_append_left (by omega), datagramEnd]

theorem protocolAt_append (h : i + 24 ≤ f.length) : protocolAt (f ++ g) i = protocolAt f i :=
  byteAt_append_left (by omega)

end

/-! ### Across the frame -/

theorem contents_packet (g : Frame) (start start' : Nat) :
    (g.packet start).map ParsedPacket.contents = (g.packet start').map ParsedPacket.contents := by
  unfold Frame.packet
  cases g.body with
  | tcp s => rfl
  | other protocol ne data => rfl

/-- The contents do not depend on where the frames begin. -/
theorem contents_packetsAt (frames : List Frame) (start start' : Nat) :
    (packetsAt start frames).map ParsedPacket.contents
      = (packetsAt start' frames).map ParsedPacket.contents := by
  induction frames generalizing start start' with
  | nil => rfl
  | cons g frames ih =>
    have hhead : ((g.packet start).toList).map ParsedPacket.contents
        = ((g.packet start').toList).map ParsedPacket.contents := by
      rw [← Option.toList_map, ← Option.toList_map, contents_packet g start start']
    rw [packetsAt, packetsAt, List.map_append, List.map_append, hhead,
      ih (start + g.bytes.length) (start' + g.bytes.length)]

theorem parseLoop_end (pre : List UInt8) {rounds : Nat} (hrounds : 0 < rounds) :
    parseLoop (pre ++ []) rounds pre.length = some [] := by
  obtain ⟨rounds, rfl⟩ : ∃ n, rounds = n + 1 := ⟨rounds - 1, by omega⟩
  rw [List.append_nil]
  exact if_neg (by omega)

/-- The parser on whole frames. -/
theorem parse_backToBack (frames : List Frame) :
    parseIpv4TcpPackets (backToBack frames) = some (packetsAt 0 frames) := by
  have hframes := parseLoop_frames (fun pre _ => parseLoop_end pre) frames []
    ((backToBack frames).length + 1) (Nat.lt_succ_self _)
  rw [List.append_nil] at hframes
  exact hframes

/-- At the first of the frames, the loop finds their packets. -/
theorem found_of_arrived {f : List UInt8} {frames : List Frame}
    {found : List (Nat × ParsedPacket)}
    (h : Walks (f ++ backToBack frames) f.length found) :
    found.map Prod.snd = packetsAt f.length frames := by
  have hframes := parseLoop_frames (fun pre _ => parseLoop_end pre) frames f
    ((backToBack frames).length + 1) (Nat.lt_succ_self _)
  rw [List.append_nil] at hframes
  have hwalks := h.parseLoop_eq (Nat.succ_pos (backToBack frames).length)
    (by rw [List.length_append]; omega)
  exact Option.some.inj (hwalks.symm.trans hframes)

theorem length_backToBack_cons (g : Frame) (frames : List Frame) :
    34 ≤ (backToBack (g :: frames)).length := by
  have hge := g.length_ge
  rw [backToBack, List.map_cons, List.flatten_cons, List.length_append]
  omega

theorem Walks.found_nil {b : List UInt8} {offset : Nat} {found : List (Nat × ParsedPacket)}
    (h : Walks b offset found) (hshort : b.length < offset + 34) : found = [] := by
  cases h with
  | done _ => rfl
  | stop _ _ => rfl
  | skip hle _ _ => omega
  | packet hle _ _ => omega

/-- The loop ends inside of `f` only if there is no frame behind it. -/
theorem found_of_short {f : List UInt8} {offset : Nat} {frames : List Frame}
    {found : List (Nat × ParsedPacket)} (hwalks : Walks (f ++ backToBack frames) offset found)
    (hin : offset + 14 ≤ f.length) (hshort : (f ++ backToBack frames).length < offset + 34) :
    found.map Prod.snd = packetsAt f.length frames := by
  cases frames with
  | nil =>
    rw [hwalks.found_nil hshort]
    rfl
  | cons g frames =>
    have hlen := length_backToBack_cons g frames
    rw [List.length_append] at hshort
    omega

/-- Skips that cross `f` find what stands behind it. -/
theorem Crosses.found {f : List UInt8} {offset : Nat} (h : Crosses f offset)
    {frames : List Frame} {found : List (Nat × ParsedPacket)}
    (hwalks : Walks (f ++ backToBack frames) offset found) :
    found.map Prod.snd = packetsAt f.length frames := by
  -- A skip that `f` decides is made by the loop as well, unless too few bytes are left for it.
  induction h with
  | arrived => exact found_of_arrived hwalks
  | @foreign offset hin heth h ih =>
    by_cases hle : offset + 34 ≤ (f ++ backToBack frames).length
    · have hword : wordAt (f ++ backToBack frames) (offset + 12) ≠ 0x0800 := by
        rw [wordAt_append_left (by omega)]
        exact heth
      exact ih (hwalks.of_skip hle (parseFrame_foreign hle hword))
    · exact found_of_short hwalks hin (Nat.lt_of_not_le hle)
  | @other offset hin heth hproto h ih =>
    by_cases hle : offset + 34 ≤ (f ++ backToBack frames).length
    · have hword : wordAt (f ++ backToBack frames) (offset + 12) = 0x0800 := by
        rw [wordAt_append_left (by omega)]
        exact heth
      have hend := datagramEnd_append (g := backToBack frames) hin
      -- The datagram fits, since its end is still in `f`.
      have hfit : datagramEnd (f ++ backToBack frames) offset
          ≤ (f ++ backToBack frames).length := by
        have := h.le
        rw [hend, List.length_append]
        omega
      have hskip : parseFrame (f ++ backToBack frames) offset
          = some (.skip (datagramEnd f offset)) := by
        rw [parseFrame_ipv4 hle hword, if_neg (Nat.not_lt_of_le hfit), protocolAt_append hin,
          if_pos hproto, hend]
      exact ih (hwalks.of_skip hle hskip)
    · exact found_of_short hwalks (by omega) (Nat.lt_of_not_le hle)

/-- A frame that is crossed is neutral. -/
theorem neutral_of_crosses {f : ForeignFrame} (h : Crosses f.bytes 0) : Neutral f := by
  intro frames _
  obtain ⟨found, hwalks⟩ := exists_walks (f.bytes ++ backToBack frames) 0
  rw [hwalks.parse_eq, h.found hwalks, parse_backToBack, Option.map_some, Option.map_some,
    contents_packetsAt frames f.bytes.length 0]

/-! ### The frames that show the other outcomes -/

/-- A TCP frame of 67 bytes from `d.d.d.d`. Its MAC addresses are sixes, the protocol number of
TCP, and only its ethertype reads `0x0800`. -/
def probe (d : UInt8) : Frame :=
  { tcpFrame with
    macs := List.replicate 12 6
    srcIp := ⟨d, d, d, d⟩
    macs_length := List.length_replicate }

theorem isTcp_probe (d : UInt8) : (probe d).IsTcp := ⟨_, rfl⟩

theorem length_probe (d : UInt8) : (probe d).bytes.length = 67 := rfl

/-- The low byte of the IPv4 ethertype is 0. -/
theorem low_of_ipv4 {hi lo : UInt8} (h : fromBeBytes hi lo = 0x0800) : lo = 0 := by
  have hhi := hi.toNat_lt
  have hlo := lo.toNat_lt
  have hvalue : (fromBeBytes hi lo).toNat = hi.toNat * 256 + lo.toNat :=
    UInt16.toNat_ofNat_of_lt' (by show hi.toNat * 256 + lo.toNat < 65536; omega)
  rw [h] at hvalue
  have hword : hi.toNat * 256 + lo.toNat = 2048 := hvalue.symm
  apply UInt8.toNat_inj.mp
  show lo.toNat = 0
  omega

section
variable {f : List UInt8} {d : UInt8} {offset : Nat} {found : List (Nat × ParsedPacket)}

/-- The MAC addresses, and the byte behind them. -/
theorem byteAt_probe (hd : d = 1 ∨ d = 2) {i : Nat} (hi : i ≤ 12) :
    byteAt (probe d).bytes i = if i = 12 then 8 else 6 := by
  have hall : ∀ i ≤ 12, byteAt (probe 1).bytes i = (if i = 12 then 8 else 6) ∧
      byteAt (probe 2).bytes i = if i = 12 then 8 else 6 := by decide
  rcases hd with rfl | rfl
  · exact (hall i hi).1
  · exact (hall i hi).2

/-- Behind its first byte, a probe has no IPv4 frame. -/
theorem probe_word_ne (hd : d = 1 ∨ d = 2) {k : Nat} (h1 : 1 ≤ k) (h33 : k ≤ 33) :
    wordAt (probe d).bytes (k + 12) ≠ 0x0800 := by
  have hall : ∀ k ≤ 33, 1 ≤ k → wordAt (probe 1).bytes (k + 12) ≠ 0x0800 ∧
      wordAt (probe 2).bytes (k + 12) ≠ 0x0800 := by decide
  rcases hd with rfl | rfl
  · exact (hall k h33 h1).1
  · exact (hall k h33 h1).2

/-- A skip that gets past the first byte of a probe misses its packet. -/
theorem found_nil_of_past (hd : d = 1 ∨ d = 2) (hpast : f.length < offset)
    (hwalks : Walks (f ++ (probe d).bytes) offset found) : found = [] := by
  have hlen : (f ++ (probe d).bytes).length = f.length + 67 := by
    rw [List.length_append, length_probe]
  by_cases hle : offset + 34 ≤ (f ++ (probe d).bytes).length
  · -- Inside of the probe, one more foreign skip leads past its end.
    have hword : wordAt (f ++ (probe d).bytes) (offset + 12) ≠ 0x0800 := by
      rw [wordAt_append_right (by omega),
        show offset + 12 - f.length = offset - f.length + 12 by omega]
      exact probe_word_ne hd (by omega) (by omega)
    exact (hwalks.of_skip hle (parseFrame_foreign hle hword)).found_nil (by omega)
  · exact hwalks.found_nil (Nat.lt_of_not_le hle)

/-- An ethertype that is not inside of `f` is not the one of IPv4. -/
theorem word_ne_of_seam (hd : d = 1 ∨ d = 2) (hlt : offset < f.length)
    (hseam : f.length < offset + 14) : wordAt (f ++ (probe d).bytes) (offset + 12) ≠ 0x0800 := by
  intro h
  -- Its low byte would be 0, but it is a six or the 8 of the probe's ethertype.
  have hlow := low_of_ipv4 h
  rw [byteAt_append_right (by omega), byteAt_probe hd (by omega)] at hlow
  split at hlow <;> cases hlow

end

/-- The loop finds the packet of the probe behind `f`, and no other. -/
def Finds (f : List UInt8) (d : UInt8) (offset : Nat) : Prop :=
  ∃ found, Walks (f ++ (probe d).bytes) offset found ∧
    found.map (fun e => e.2.contents)
      = [(⟨d, d, d, d⟩, ⟨10, 0, 0, 2⟩, 40000, 8080, [104, 101, 108, 108, 111])]

section
variable {f : List UInt8} {d : UInt8} {offset : Nat}

/-- A run that finds the probe is not past its start. -/
theorem Finds.le (h : Finds f d offset) (hd : d = 1 ∨ d = 2) : offset ≤ f.length := by
  obtain ⟨found, hwalks, hcontents⟩ := h
  rcases Nat.lt_or_ge f.length offset with hlt | hge
  · rw [found_nil_of_past hd hlt hwalks] at hcontents
    cases hcontents
  · exact hge

/-- A run that finds the probe goes on behind a frame that is skipped. -/
theorem Finds.of_skip {next : Nat} (h : Finds f d offset)
    (hle : offset + 34 ≤ (f ++ (probe d).bytes).length)
    (hpass : parseFrame (f ++ (probe d).bytes) offset = some (.skip next)) : Finds f d next := by
  obtain ⟨found, hwalks, hcontents⟩ := h
  exact ⟨found, hwalks.of_skip hle hpass, hcontents⟩

theorem fits_of_lt (hlt : offset < f.length) :
    offset + 34 ≤ (f ++ (probe d).bytes).length := by
  rw [List.length_append, length_probe]
  omega

/-- A run that finds the probe does not stop in front of it. -/
theorem Finds.not_stop (h : Finds f d offset) :
    parseFrame (f ++ (probe d).bytes) offset ≠ some .stop := by
  intro hstop
  obtain ⟨found, hwalks, hcontents⟩ := h
  cases hwalks with
  | done _ => cases hcontents
  | stop _ _ => cases hcontents
  | skip _ hskip _ =>
    rw [hstop] at hskip
    cases hskip
  | packet _ hpacket _ =>
    rw [hstop] at hpacket
    cases hpacket

/-- A run that finds the probe and meets a TCP frame in front of it takes the source address of
the probe from there. -/
theorem Finds.source_of_tcp (h : Finds f d offset) (hlt : offset < f.length)
    (heth : wordAt (f ++ (probe d).bytes) (offset + 12) = 0x0800)
    (hproto : protocolAt (f ++ (probe d).bytes) offset = 6) :
    byteAt (f ++ (probe d).bytes) (offset + 26) = d := by
  have hle : offset + 34 ≤ (f ++ (probe d).bytes).length := fits_of_lt hlt
  obtain ⟨out, hout, hpass⟩ := pass_of_le hle
  cases hpass with
  | foreign hne => exact absurd heth hne
  | other _ _ hne => exact absurd hproto hne
  | packet hadm =>
    obtain ⟨found, hwalks, hcontents⟩ := h
    -- This frame's packet is found first, so its source is the one of the probe.
    obtain ⟨rest, rfl, _⟩ := hwalks.of_admits hadm
    have hsource := congrArg (fun l => l.map fun c => c.1.a) hcontents
    exact (List.cons.inj hsource).1
  | stop _ _ => exact absurd hout h.not_stop

theorem Finds.of_foreign (h : Finds f d offset) (hlt : offset < f.length)
    (heth : wordAt (f ++ (probe d).bytes) (offset + 12) ≠ 0x0800) : Finds f d (offset + 64) :=
  h.of_skip (fits_of_lt hlt) (parseFrame_foreign (fits_of_lt hlt) heth)

/-- A datagram without TCP fits, or nothing would be found. -/
theorem Finds.of_other (h : Finds f d offset) (hlt : offset < f.length)
    (heth : wordAt (f ++ (probe d).bytes) (offset + 12) = 0x0800)
    (hproto : protocolAt (f ++ (probe d).bytes) offset ≠ 6) :
    Finds f d (datagramEnd (f ++ (probe d).bytes) offset) := by
  have hle : offset + 34 ≤ (f ++ (probe d).bytes).length := fits_of_lt hlt
  obtain ⟨out, hout, hpass⟩ := pass_of_le hle
  cases hpass with
  | foreign hne => exact absurd heth hne
  | other _ _ _ => exact h.of_skip hle hout
  | packet hadm => exact absurd hadm.tcp hproto
  | stop _ _ => exact absurd hout h.not_stop

/-- Two probes behind `f` do not both find their own address at one place in front of them. -/
theorem not_both_sources (hin : offset + 14 ≤ f.length)
    (h1 : byteAt (f ++ (probe 1).bytes) (offset + 26) = 1)
    (h2 : byteAt (f ++ (probe 2).bytes) (offset + 26) = 2) : False := by
  rcases Nat.lt_or_ge (offset + 26) f.length with hlt | hge
  · -- In `f` it is the same byte for both.
    rw [byteAt_append_left hlt] at h1 h2
    rw [h1] at h2
    cases h2
  · -- In the probe it is one of the first 13 bytes, which do not depend on the address.
    rw [byteAt_append_right hge, byteAt_probe (Or.inl rfl) (by omega)] at h1
    split at h1 <;> cases h1

/-- The protocol byte of a datagram in front of the probe is that of TCP, or it is in `f`. -/
theorem protocol_of_seam (hd : d = 1 ∨ d = 2) (hin : offset + 14 ≤ f.length)
    (hnot : ¬ (offset + 24 ≤ f.length ∧ protocolAt f offset ≠ 6)) :
    protocolAt (f ++ (probe d).bytes) offset = 6 := by
  by_cases hproto : offset + 24 ≤ f.length
  · rw [protocolAt_append hproto]
    by_contra hne
    exact hnot ⟨hproto, hne⟩
  · rw [protocolAt, byteAt_append_right (by omega), byteAt_probe hd (by omega), if_neg (by omega)]

end

/-- If both probes are found, the skips cross `f`. -/
theorem crosses_of_probes {f : List UInt8} {offset : Nat} (h1 : Finds f 1 offset)
    (h2 : Finds f 2 offset) : Crosses f offset := by
  have hd1 : (1 : UInt8) = 1 ∨ (1 : UInt8) = 2 := Or.inl rfl
  have hd2 : (2 : UInt8) = 1 ∨ (2 : UInt8) = 2 := Or.inr rfl
  -- The probes are found, so the skips have not gone past the frame.
  rcases Nat.eq_or_lt_of_le (h1.le hd1) with rfl | hlt
  · exact .arrived
  by_cases hin : offset + 14 ≤ f.length
  · have hword : ∀ d, wordAt (f ++ (probe d).bytes) (offset + 12) = wordAt f (offset + 12) :=
      fun d => wordAt_append_left (by omega)
    by_cases heth : wordAt f (offset + 12) = 0x0800
    · by_cases hother : offset + 24 ≤ f.length ∧ protocolAt f offset ≠ 6
      · -- Both runs skip the datagram that `f` announces.
        obtain ⟨hinside, hproto⟩ := hother
        have hnext : ∀ d, Finds f d offset → Finds f d (datagramEnd f offset) := by
          intro d h
          have hskip := h.of_other hlt ((hword d).trans heth)
            (by rwa [protocolAt_append hinside])
          rwa [datagramEnd_append hinside] at hskip
        have hdecr : offset + 14 ≤ datagramEnd f offset := Nat.le_add_right _ _
        exact .other hinside heth hproto (crosses_of_probes (hnext 1 h1) (hnext 2 h2))
      · -- Both runs take a packet in front of the probe.
        exact (not_both_sources hin
          (h1.source_of_tcp hlt ((hword 1).trans heth) (protocol_of_seam hd1 hin hother))
          (h2.source_of_tcp hlt ((hword 2).trans heth) (protocol_of_seam hd2 hin hother))).elim
    · -- Both runs skip 64 bytes.
      have hnext : ∀ d, Finds f d offset → Finds f d (offset + 64) := by
        intro d h
        exact h.of_foreign hlt (by rwa [hword d])
      exact .foreign hin heth (crosses_of_probes (hnext 1 h1) (hnext 2 h2))
  · -- The ethertype is behind `f`, and the skip gets past the start of the probe.
    have hseam := word_ne_of_seam hd1 hlt (Nat.lt_of_not_le hin)
    have hpast := (h1.of_foreign hlt hseam).le hd1
    omega
termination_by f.length - offset

/-! ### Neutral frames -/

theorem backToBack_singleton (g : Frame) : backToBack [g] = g.bytes := List.append_nil _

/-- A neutral frame lets both probes be found. -/
theorem Neutral.finds {f : ForeignFrame} (h : Neutral f) (d : UInt8) : Finds f.bytes d 0 := by
  obtain ⟨found, hwalks⟩ := exists_walks (f.bytes ++ (probe d).bytes) 0
  have hprobe : parseIpv4TcpPackets (probe d).bytes = some (packetsAt 0 [probe d]) := by
    rw [← backToBack_singleton]
    exact parse_backToBack [probe d]
  have hsame := h [probe d] fun g hg => by
    rw [List.mem_singleton.mp hg]
    exact isTcp_probe d
  rw [backToBack_singleton, hwalks.parse_eq, hprobe, Option.map_some, Option.map_some,
    Option.some.injEq, List.map_map] at hsame
  exact ⟨found, hwalks, hsame⟩

/-- For every foreign frame: it is neutral exactly when the skips from its start on lead through
it to its end. -/
theorem skip_neutral_iff (f : ForeignFrame) : Neutral f ↔ Crosses f.bytes 0 :=
  ⟨fun h => crosses_of_probes (h.finds 1) (h.finds 2), neutral_of_crosses⟩

/-- A frame of 64 bytes is neutral. -/
theorem neutral_of_64 (f : ForeignFrame) (hlen : f.bytes.length = 64) : Neutral f := by
  refine neutral_of_crosses (.foreign f.length_ge f.ethertype_ne ?_)
  rw [Nat.zero_add, ← hlen]
  exact .arrived

/-- A shorter one is not. -/
theorem not_neutral_of_short (f : ForeignFrame) (hlen : f.bytes.length < 64) : ¬ Neutral f := by
  intro h
  have hpast : Finds f.bytes 1 (0 + 64) :=
    (h.finds 1).of_foreign (by have := f.length_ge; omega) (by
      rw [wordAt_append_left (by have := f.length_ge; omega)]
      exact f.ethertype_ne)
  have := hpast.le (Or.inl rfl)
  omega

/-- An ARP request of 42 bytes. -/
def arpFrame : ForeignFrame where
  bytes := List.replicate 6 255 ++ [0, 22, 62, 1, 2, 3, 8, 6, 0, 1, 8, 0, 6, 4, 0, 1, 0, 22, 62, 1,
    2, 3, 10, 0, 0, 1, 0, 0, 0, 0, 0, 0, 10, 0, 0, 2]
  length_ge := by decide
  ethertype_ne := by decide

/-- The packet behind an ARP request is not found. -/
theorem not_skip_neutral : ¬ ∀ f : ForeignFrame, Neutral f := by
  intro hall
  exact not_neutral_of_short arpFrame (by decide) (hall arpFrame)

end Tsocket

end Tachyon
