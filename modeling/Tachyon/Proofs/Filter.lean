import Tachyon.Network.Filter
import Tachyon.Proofs.Skips

/-!
# `Tachyon.Proofs.Filter`: what the filters let through

The filter of the packet socket looks at one byte, the protocol of an IPv4 datagram. It does not
look at the ethertype. So it keeps a frame if and only if this byte is 6, and then all of it
(`capture_tcp`). Of the IPv4 frames these are the TCP frames. A foreign frame is kept when it
happens to have a 6 in that place.

The parser needs this: alone it is thrown off by a foreign frame. `captured_parses` is the
composition. When no foreign frame has a 6 there, the parser finds the packets of exactly the TCP
frames in what was captured, whatever else arrived between them.

The program of the listeners returns the number of the CPU for every packet (`select_cpu`).
-/

set_option autoImplicit false

namespace Tachyon

open Bpf

/-! ### The packet socket -/

namespace Tsocket

/-- `BPF_TCP_FILTER`, decoded. -/
def tcpFilter : Program where
  instrs := [.ld (.abs .byte 23), .jmp .jeq (.const 6) 0 1, .retK 0xFFFFFFFF, .retK 0]
  ne_nil := List.cons_ne_nil _ _
  closed := by decide

theorem attach_tcpFilter : attach BPF_TCP_FILTER = some tcpFilter := rfl

/-- A load of one byte. -/
theorem word_one (p : Packet) (i : Nat) :
    p.word i 1 = p.bytes[i]?.map fun b => UInt32.ofNat b.toNat := by
  rw [Packet.word]
  split
  · next hle =>
    have hlt : i < p.bytes.length := by omega
    rw [List.getElem?_eq_getElem hlt, List.drop_eq_getElem_cons hlt, List.take_succ_cons,
      List.take_zero]
    simp only [List.foldl_cons, List.foldl_nil, Nat.zero_mul, Nat.zero_add, Option.map_some]
  · next hgt =>
    rw [List.getElem?_eq_none (by omega), Option.map_none]

/-- The comparison is made on words. -/
theorem ofNat_toNat_eq_six (b : UInt8) : UInt32.ofNat b.toNat = 6 ↔ b = 6 := by
  constructor
  · intro h
    have hb := b.toNat_lt
    have hvalue : (UInt32.ofNat b.toNat).toNat = b.toNat :=
      UInt32.toNat_ofNat_of_lt' (by show b.toNat < 4294967296; omega)
    rw [h] at hvalue
    exact UInt8.toNat_inj.mp hvalue.symm
  · intro h
    rw [h]
    rfl

theorem filter_tcp (p : Packet) :
    tcpFilter.filter p = if p.bytes[23]? = some 6 then 0xFFFFFFFF else 0 := by
  apply Program.filter_of_run
  show run p (3 + 1) tcpFilter.instrs .zero = _
  have hload : (Source.abs .byte 23).value p .zero
      = p.bytes[23]?.map fun b => UInt32.ofNat b.toNat := word_one p 23
  cases hbyte : p.bytes[23]? with
  | none =>
    -- The packet is too short for the load.
    rw [hbyte] at hload
    rw [tcpFilter, run_ld_none p 3 _ .zero hload, if_neg (Option.some_ne_none 6).symm]
  | some b =>
    rw [hbyte] at hload
    rw [tcpFilter, run_ld_some p 3 _ .zero hload, run_jmp]
    show run p 2 (List.drop (if decide (UInt32.ofNat b.toNat = 6) then 0 else 1) _) _ = _
    by_cases h6 : b = 6
    · rw [decide_eq_true ((ofNat_toNat_eq_six b).mpr h6), if_pos (congrArg some h6)]
      exact run_retK p 1 [.retK 0] _ 0xFFFFFFFF
    · have hne : ¬ UInt32.ofNat b.toNat = 6 := fun h => h6 ((ofNat_toNat_eq_six b).mp h)
      rw [decide_eq_false hne, if_neg (fun h => h6 (Option.some.inj h))]
      exact run_retK p 1 [] _ 0

/-- A packet is kept as a whole or not at all. -/
theorem capture_tcp (p : Packet) (hlen : p.bytes.length < 2 ^ 32) :
    capture BPF_TCP_FILTER p = if p.bytes[23]? = some 6 then some p.bytes else none := by
  show (if tcpFilter.filter p = 0 then none
    else some (p.bytes.take (tcpFilter.filter p).toNat)) = _
  rw [filter_tcp]
  split
  · show some (p.bytes.take 0xFFFFFFFF) = _
    rw [List.take_of_length_le (by omega)]
  · rfl

/-! ### With the parser -/

/-- What is on the wire: an IPv4 frame, or one with another ethertype. -/
inductive WireFrame
  | ipv4 (frame : Frame)
  | foreign (frame : ForeignFrame)

namespace WireFrame

def bytes : WireFrame → List UInt8
  | ipv4 frame => frame.bytes
  | foreign frame => frame.bytes

/-- The TCP frames, which are those that should be captured. -/
def asTcp : WireFrame → Option Frame
  | ipv4 frame => if frame.body.protocol = 6 then some frame else none
  | foreign _ => none

end WireFrame

/-- The traffic after the filter, back to back. -/
def captured (aux : Nat → UInt32) (traffic : List WireFrame) : List UInt8 :=
  (traffic.filterMap fun w => capture BPF_TCP_FILTER ⟨w.bytes, aux⟩).flatten

theorem Frame.get_protocol (g : Frame) : g.bytes[23]? = some g.body.protocol := by
  have hget := get_head g [] (g.options ++ g.body.bytes) (show 11 < 22 by decide)
  rw [g.head_protocol] at hget
  rw [Frame.bytes, List.append_assoc, List.append_assoc]
  exact hget

theorem Frame.length_lt (g : Frame) : g.bytes.length < 2 ^ 32 := by
  have hlt := g.total_lt
  rw [g.length_bytes, Frame.totalLen]
  omega

/-- A frame is captured when it is a TCP frame, unless a foreign one is taken for it. -/
theorem capture_wire (aux : Nat → UInt32) (w : WireFrame) (hlen : w.bytes.length < 2 ^ 32)
    (hforeign : ∀ f, w = .foreign f → f.bytes[23]? ≠ some 6) :
    capture BPF_TCP_FILTER ⟨w.bytes, aux⟩ = w.asTcp.map Frame.bytes := by
  refine (capture_tcp ⟨w.bytes, aux⟩ hlen).trans ?_
  cases w with
  | ipv4 g =>
    have hget := g.get_protocol
    by_cases h6 : g.body.protocol = 6
    · refine (if_pos (hget.trans (congrArg some h6))).trans ?_
      rw [WireFrame.asTcp, if_pos h6]
      rfl
    · refine (if_neg fun h => h6 (Option.some.inj (hget.symm.trans h))).trans ?_
      rw [WireFrame.asTcp, if_neg h6]
      rfl
  | foreign f => exact if_neg (hforeign f rfl)

theorem captured_eq (aux : Nat → UInt32) {traffic : List WireFrame}
    (hlen : ∀ w ∈ traffic, w.bytes.length < 2 ^ 32)
    (hforeign : ∀ f, .foreign f ∈ traffic → f.bytes[23]? ≠ some 6) :
    captured aux traffic = backToBack (traffic.filterMap WireFrame.asTcp) := by
  have hmap : ∀ w ∈ traffic,
      capture BPF_TCP_FILTER ⟨w.bytes, aux⟩ = w.asTcp.map Frame.bytes := by
    intro w hw
    refine capture_wire aux w (hlen w hw) ?_
    intro f hf
    exact hforeign f (hf ▸ hw)
  rw [captured, backToBack, List.map_filterMap, List.filterMap_congr hmap]

/-- What the parser finds in a frame, wherever it begins. -/
def Frame.found (g : Frame) : Option (Ipv4Addr × Ipv4Addr × UInt16 × UInt16 × List UInt8) :=
  (g.packet 0).map ParsedPacket.contents

theorem contents_packetsAt_eq (frames : List Frame) (start : Nat) :
    (packetsAt start frames).map ParsedPacket.contents = frames.filterMap Frame.found := by
  induction frames generalizing start with
  | nil => rfl
  | cons g frames ih =>
    have hhead : (g.packet start).toList.map ParsedPacket.contents = g.found.toList := by
      rw [← Option.toList_map, contents_packet g start 0, Frame.found]
    rw [packetsAt, List.map_append, hhead, ih]
    cases hfound : g.found with
    | none => rw [List.filterMap_cons_none hfound, Option.toList_none, List.nil_append]
    | some c => rw [List.filterMap_cons_some hfound, Option.toList_some, List.singleton_append]

/-- The parser finds exactly the packets of the TCP frames in the traffic that the filter let
through, in their order. -/
theorem captured_parses (aux : Nat → UInt32) (traffic : List WireFrame)
    (hlen : ∀ w ∈ traffic, w.bytes.length < 2 ^ 32)
    (hforeign : ∀ f, .foreign f ∈ traffic → f.bytes[23]? ≠ some 6) :
    (parseIpv4TcpPackets (captured aux traffic)).map (List.map ParsedPacket.contents)
      = some ((traffic.filterMap WireFrame.asTcp).filterMap Frame.found) := by
  rw [captured_eq aux hlen hforeign, parse_backToBack, Option.map_some, contents_packetsAt_eq]

/-- An ARP request and a UDP datagram arrive between two TCP segments. -/
theorem captured_parses_mixed :
    (parseIpv4TcpPackets (captured (fun _ => 0)
        [.ipv4 tcpFrame, .foreign arpFrame, .ipv4 udpFrame, .ipv4 tcpFrame])).map
        (List.map ParsedPacket.contents)
      = some (List.replicate 2
          (⟨10, 0, 0, 1⟩, ⟨10, 0, 0, 2⟩, 40000, 8080, [104, 101, 108, 108, 111])) :=
  captured_parses (fun _ => 0) [.ipv4 tcpFrame, .foreign arpFrame, .ipv4 udpFrame, .ipv4 tcpFrame]
    (by
      intro w hw
      simp only [List.mem_cons, List.not_mem_nil, or_false] at hw
      rcases hw with rfl | rfl | rfl | rfl <;> decide)
    (by
      intro f hf
      simp only [List.mem_cons, List.not_mem_nil, or_false, reduceCtorEq, false_or,
        WireFrame.foreign.injEq] at hf
      rw [hf]
      decide)

end Tsocket

/-! ### The listeners -/

namespace FafHelpers

/-- The program for the reuseport group, decoded. -/
def cpuFilter : Program where
  instrs := [.ld (.aux 36), .retA]
  ne_nil := List.cons_ne_nil _ _
  closed := by decide

theorem attach_code : attach code = some cpuFilter := rfl

theorem select_cpu (listeners : Nat) (p : Packet) :
    select listeners p
      = if (p.aux 36).toNat < listeners then some (p.aux 36).toNat else none := by
  have hcpu : cpuFilter.filter p = p.aux 36 :=
    Program.filter_of_run ((run_ld_some p 1 [.retA] .zero rfl).trans (run_retA p 0 [] _))
  show (if (cpuFilter.filter p).toNat < listeners then some (cpuFilter.filter p).toNat
    else none) = _
  rw [hcpu]

end FafHelpers

end Tachyon
