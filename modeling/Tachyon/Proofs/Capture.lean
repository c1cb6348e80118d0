import Tachyon.Lib.History
import Tachyon.Network.Capture
import Tachyon.Proofs.PacketRing

/-!
# `Tachyon.Proofs.Capture`: every block is read once

The status of the block is the whole protocol between the kernel and `read_packets`. It is enough:
while the server is in `read_packets` the block is its own (`Consistent`), so a round of the loop
sees what the first one saw, whatever runs in between.

`blocks_read_once`: the blocks that were read, and the one that waits, are those that the kernel
retired, in order; and every read found what `readPackets` finds in that block in one go. When the
address of the server cannot be found, `read_packets` panics with the block in its hands, and
neither side takes another step.
-/

set_option autoImplicit false

namespace Tachyon

namespace PacketRing

/-! ### `get_ipv4_addr` -/

/-- The address is in network order, and comes out in this order. -/
theorem ipv4OfU32_fromBe (a b c d : UInt8) :
    ipv4OfU32 (fromBe (Http.fromLeBytes [a, b, c, d])) = ⟨a, b, c, d⟩ := by
  have ha := a.toNat_lt
  have hb := b.toNat_lt
  have hc := c.toNat_lt
  have hd := d.toNat_lt
  have hle : Http.fromLeBytes [a, b, c, d]
      = a.toNat + 256 * (b.toNat + 256 * (c.toNat + 256 * d.toNat)) := rfl
  have hbe : fromBe (Http.fromLeBytes [a, b, c, d])
      = a.toNat * 0x1000000 + b.toNat * 0x10000 + c.toNat * 256 + d.toNat := by
    rw [hle, fromBe]
    omega
  have hoctet : ∀ (n : Nat) (x : UInt8), n % 256 = x.toNat → UInt8.ofNat n = x := by
    intro n x hx
    rw [← UInt8.ofNat_mod_size, ← UInt8.ofNat_toNat (x := x)]
    exact congrArg UInt8.ofNat hx
  clear hle
  rw [hbe, ipv4OfU32]
  generalize hx : a.toNat * 0x1000000 + b.toNat * 0x10000 + c.toNat * 256 + d.toNat = x
  have h1 : x / 0x1000000 = a.toNat := by omega
  have h2 : x / 0x10000 = a.toNat * 256 + b.toNat := by omega
  have h3 : x / 256 = (a.toNat * 256 + b.toNat) * 256 + c.toNat := by omega
  rw [h1, h2, h3]
  congr 1
  · exact hoctet _ a (by omega)
  · exact hoctet _ b (by omega)
  · exact hoctet _ c (by omega)
  · exact hoctet _ d (by omega)

/-- The IPv4 address of an entry with this name. -/
def IfAddrs.address (interface : String) (entry : IfAddrs) : Option Ipv4Addr :=
  if entry.name = interface then
    (entry.addr.filter fun sin => sin.family = AF_INET).map fun sin =>
      ipv4OfU32 (fromBe (Http.fromLeBytes sin.sinAddr))
  else none

/-- The first address of the interface. The list is freed once, on every way out. -/
theorem walkIfAddrs_eq (interface : String) (ifap : List IfAddrs) :
    walkIfAddrs interface ifap = (ifap.findSome? (IfAddrs.address interface), 1) := by
  induction ifap with
  | nil => rfl
  | cons cur next ih =>
    rw [List.findSome?_cons, walkIfAddrs, IfAddrs.address, ih]
    split
    · cases cur.addr with
      | none => rfl
      | some sin =>
        by_cases hfamily : sin.family = AF_INET
        · simp only [Option.filter_some, hfamily, decide_true, if_true, Option.map_some]
        · simp only [Option.filter_some, hfamily, decide_false, Bool.false_eq_true, if_false,
            Option.map_none]
    · rfl

/-! ### One round -/

/-- The loop goes on with what a round leaves. -/
theorem readLoop_round (ring : Mem) (serverIp : Ipv4Addr) (left base : Nat) (range : Range) :
    readLoop ring serverIp (left + 1) base range
      = readLoop ring serverIp (readRound ring serverIp left base range).1
        (readRound ring serverIp left base range).2.1
        (readRound ring serverIp left base range).2.2 := by
  simp only [readLoop, readRound]
  split
  · rfl
  split
  · rfl
  split
  · rfl
  split
  · rfl
  split
  · rfl
  · rfl

namespace Capture

variable {s t : Capture}

/-! ### Whose turn it is -/

theorem not_userOwns (h : s.KernelOwns) : ¬ s.UserOwns := by
  intro huser
  rw [UserOwns, h] at huser
  exact huser rfl

theorem unread_of_kernelOwns (h : s.KernelOwns) : s.unread = [] := if_neg (not_userOwns h)

/-- The status of the block changes when the kernel sets it, or the server. -/
theorem blockStatus_store {a : Nat} (ha : a < 8 ∨ 12 ≤ a) (b : UInt8) :
    blockStatus (s.ring.write a [b]) = blockStatus s.ring := by
  have hread : (s.ring.write a [b]).read 8 4 = s.ring.read 8 4 := by
    refine Mem.read_congr fun i hi => Mem.write_of_outside _ _ ?_
    show 8 + i < a ∨ a + 1 ≤ 8 + i
    omega
  rw [blockStatus, leAt, hread]
  rfl

theorem blockStatus_retired {status : List UInt8} (h : status.length = 4) :
    blockStatus (s.retiredRing status) = Http.fromLeBytes status := by
  have hread : (s.retiredRing status).read 8 4 = status := by
    have hwrite := Mem.read_write_self s.ring 8 status
    rwa [h] at hwrite
  rw [blockStatus, leAt, hread]

/-- Inside of `read_packets` the block is the server's, and the loop is on its way to the result
for this block. -/
def Consistent (s : Capture) : Prop :=
  match s.reader with
  | .outside => True
  | .panicked => s.UserOwns
  | .loop serverIp rounds base range => s.UserOwns ∧
      readLoop s.ring serverIp rounds base range
        = readLoop s.ring serverIp (numPkts s.ring) (offsetToFirstPkt s.ring) (none, 0)

theorem Consistent.userOwns (h : s.Consistent) (hinside : s.reader ≠ .outside) : s.UserOwns := by
  unfold Consistent at h
  split at h
  · next hreader => exact absurd hreader hinside
  · exact h
  · exact h.1

/-- The kernel does not write while the server is inside. -/
theorem Consistent.outside (h : s.Consistent) (howns : s.KernelOwns) : s.reader = .outside := by
  by_contra hinside
  exact not_userOwns howns (h.userOwns hinside)

theorem consistent_of_outside (h : s.reader = .outside) : s.Consistent := by
  unfold Consistent
  rw [h]
  trivial

/-- A call without a retired block returns, and one with it takes its first look. -/
theorem call_cases {ifaddrs : Option (List IfAddrs)} (h : s.step (.call ifaddrs) = some t) :
    s.reader = .outside ∧ (¬ s.UserOwns ∧ t = s ∨ s.UserOwns ∧
      ((getIpv4Addr "eth0" ifaddrs).1 = none ∧ t = { s with reader := .panicked } ∨
        ∃ serverIp, (getIpv4Addr "eth0" ifaddrs).1 = some serverIp ∧ t = { s with
          reader := .loop serverIp (numPkts s.ring) (offsetToFirstPkt s.ring) (none, 0) })) := by
  rw [step] at h
  cases hreader : s.reader with
  | loop | panicked =>
    simp only [hreader] at h
    cases h
  | outside =>
    simp only [hreader] at h
    split at h
    · next hnot =>
      cases h
      exact ⟨rfl, .inl ⟨hnot, rfl⟩⟩
    · next howns =>
      have huser : s.UserOwns := not_not.mp howns
      cases hip : (getIpv4Addr "eth0" ifaddrs).1 with
      | none =>
        simp only [hip] at h
        cases h
        exact ⟨rfl, .inr ⟨huser, .inl ⟨rfl, rfl⟩⟩⟩
      | some serverIp =>
        simp only [hip] at h
        cases h
        exact ⟨rfl, .inr ⟨huser, .inr ⟨serverIp, rfl, rfl⟩⟩⟩

theorem round_cases (h : s.step .round = some t) : ∃ serverIp left base range,
    s.reader = .loop serverIp (left + 1) base range ∧
      t = { s with
        reader := .loop serverIp (readRound s.ring serverIp left base range).1
          (readRound s.ring serverIp left base range).2.1
          (readRound s.ring serverIp left base range).2.2 } := by
  rw [step] at h
  split at h
  · next serverIp left base range hreader =>
    cases h
    exact ⟨serverIp, left, base, range, hreader, rfl⟩
  · cases h

theorem finish_cases (h : s.step .finish = some t) : ∃ serverIp base range,
    s.reader = .loop serverIp 0 base range ∧
      t = { ring := giveBack s.ring, reader := .outside } := by
  rw [step] at h
  split at h
  · next serverIp base range hreader =>
    cases h
    exact ⟨serverIp, base, range, hreader, rfl⟩
  · cases h

theorem Consistent.step {a : CaptureAct} (h : s.Consistent) (ha : s.step a = some t) :
    t.Consistent := by
  cases a with
  | store a b =>
    obtain ⟨⟨howns, _⟩, ha⟩ := Option.ite_none_right_eq_some.mp ha
    cases ha
    exact consistent_of_outside (h.outside howns)
  | retire status =>
    obtain ⟨⟨howns, _⟩, ha⟩ := Option.ite_none_right_eq_some.mp ha
    cases ha
    exact consistent_of_outside (h.outside howns)
  | call ifaddrs =>
    obtain ⟨_, ⟨_, rfl⟩ | ⟨huser, ⟨_, rfl⟩ | ⟨serverIp, _, rfl⟩⟩⟩ := call_cases ha
    · exact h
    · exact huser
    · exact ⟨huser, rfl⟩
  | round =>
    obtain ⟨serverIp, left, base, range, hreader, rfl⟩ := round_cases ha
    -- One round less to go, with the same result at the end.
    unfold Consistent at h
    simp only [hreader] at h
    obtain ⟨huser, hloop⟩ := h
    exact ⟨huser, (readLoop_round s.ring serverIp left base range).symm.trans hloop⟩
  | finish =>
    obtain ⟨_, _, _, _, rfl⟩ := finish_cases ha
    exact consistent_of_outside rfl

/-! ### The blocks -/

/-- What a step takes from the server's hands is the block that it had read. -/
theorem unread_step {a : CaptureAct} (h : s.Consistent) (ha : s.step a = some t) :
    s.unread ++ s.retired a = (s.reads a).map Read.block ++ t.unread := by
  cases a with
  | store a b =>
    obtain ⟨⟨howns, hout⟩, ha⟩ := Option.ite_none_right_eq_some.mp ha
    cases ha
    -- The kernel fills its own block, and the status stays as it is.
    have hkept : ({ s with ring := s.ring.write a [b] } : Capture).KernelOwns :=
      (blockStatus_store hout b).trans howns
    rw [unread_of_kernelOwns howns, unread_of_kernelOwns hkept]
    rfl
  | retire status =>
    obtain ⟨⟨howns, hlen, huser⟩, ha⟩ := Option.ite_none_right_eq_some.mp ha
    cases ha
    have hretired : ({ s with ring := s.retiredRing status } : Capture).UserOwns := by
      rw [UserOwns, blockStatus_retired hlen]
      exact huser
    rw [unread_of_kernelOwns howns, unread, if_pos hretired]
    rfl
  | call ifaddrs =>
    obtain ⟨_, ⟨_, rfl⟩ | ⟨_, ⟨_, rfl⟩ | ⟨serverIp, _, rfl⟩⟩⟩ := call_cases ha
    all_goals exact List.append_nil _
  | round =>
    obtain ⟨serverIp, left, base, range, _, rfl⟩ := round_cases ha
    exact List.append_nil _
  | finish =>
    obtain ⟨serverIp, base, range, hreader, rfl⟩ := finish_cases ha
    -- The block goes back when the loop is over, as the one that was read.
    have huser : s.UserOwns := h.userOwns (by rw [hreader]; exact Reader.noConfusion)
    have hgiven : (⟨giveBack s.ring, .outside⟩ : Capture).KernelOwns :=
      blockStatus_giveBack s.ring
    rw [unread, if_pos huser, unread_of_kernelOwns hgiven, reads, hreader]
    rfl

/-- A read that comes to its end found what there is in the block. -/
theorem read_step {a : CaptureAct} (h : s.Consistent) (ha : s.step a = some t) :
    ∀ r ∈ s.reads a, readPackets (some r.serverIp) r.block = some (r.result, giveBack r.block) := by
  intro r hr
  cases a with
  | store | retire | call | round => cases hr
  | finish =>
    obtain ⟨serverIp, base, range, hreader, rfl⟩ := finish_cases ha
    have huser : s.UserOwns := h.userOwns (by rw [hreader]; exact Reader.noConfusion)
    unfold Consistent at h
    simp only [hreader] at h
    rw [reads, hreader] at hr
    rw [List.mem_singleton.mp hr, readPackets, if_neg huser]
    simp only [← h.2]
    rfl

/-- After a panic the block stays with a server that does not run any more. -/
theorem stuck_of_panicked (h : s.Consistent) (hpanic : s.reader = .panicked) (a : CaptureAct) :
    s.step a = none := by
  have hkernel : ¬ s.KernelOwns := by
    intro howns
    refine not_userOwns howns (h.userOwns ?_)
    rw [hpanic]
    exact Reader.noConfusion
  cases a with
  | store | retire => exact if_neg fun hall => hkernel hall.1
  | call | round | finish => simp only [step, hpanic]

/-- Every block that the kernel retires is read once and in order, and the read finds in it what
`readPackets` finds. Only a panic ends this: then nothing runs any more. -/
theorem blocks_read_once {s₀ : Capture} {as : List CaptureAct} (howns : s₀.KernelOwns)
    (houtside : s₀.reader = .outside) (hrun : Run step (fun _ _ => True) s₀ as s) :
    (Run.collect step reads s₀ as).map Read.block ++ s.unread = Run.collect step retired s₀ as ∧
      (∀ r ∈ Run.collect step reads s₀ as,
        readPackets (some r.serverIp) r.block = some (r.result, giveBack r.block)) ∧
      (s.reader = .panicked → ∀ a, s.step a = none) := by
  have hinside : Run step (fun u _ => True ∧ u.Consistent) s₀ as s :=
    hrun.with_invariant (fun _ _ _ hu _ ha => hu.step ha) (consistent_of_outside houtside)
  have hlast : s.Consistent :=
    hrun.invariant (fun _ _ _ hu _ ha => hu.step ha) (consistent_of_outside houtside)
  refine ⟨?_, ?_, stuck_of_panicked hlast⟩
  · have hfifo : s₀.unread ++ Run.collect step retired s₀ as
        = Run.collect step (fun u a => (u.reads a).map Read.block) s₀ as ++ s.unread :=
      Run.fifo (fun _ _ _ _ _ hu ha => unread_step hu.2 ha) hinside
    rw [unread_of_kernelOwns howns, List.nil_append, Run.collect_map] at hfifo
    exact hfifo.symm
  · refine Run.history (J := fun _ (history : List Read) => ∀ r ∈ history,
      readPackets (some r.serverIp) r.block = some (r.result, giveBack r.block)) ?_ ?_ hinside
    · intro r hr
      cases hr
    · intro _ u a w _ hu ha hbefore r hr
      rcases List.mem_append.mp hr with hold | hnew
      · exact hbefore r hold
      · exact read_step hu.2 ha r hnew

/-- The kernel writes one record with a frame of 54 bytes, and the server reads it. -/
def oneRecord : List CaptureAct :=
  [.store 12 1, .store 16 48, .store 60 54, .store 72 82, .store 142 8, .store 156 10,
    .retire [1, 0, 0, 0],
    .call (some [⟨"lo", some ⟨AF_INET, [127, 0, 0, 1]⟩⟩, ⟨"eth0", none⟩,
      ⟨"eth0", some ⟨AF_INET, [192, 168, 0, 2]⟩⟩]),
    .round, .finish]

theorem blocks_read_once_one : ∃ (s : Capture) (blocks : List Mem) (read : List Read),
    s.reader ≠ .panicked ∧ read.map Read.result = [some (130, 184)] ∧
      read.map Read.serverIp = [⟨192, 168, 0, 2⟩] ∧ read.map Read.block ++ s.unread = blocks ∧
      ∀ r ∈ read, readPackets (some r.serverIp) r.block = some (r.result, giveBack r.block) := by
  have hexec : (Run.exec step (fun _ _ => true) ⟨fun _ => 0, .outside⟩ oneRecord).any
      (fun s => (s.step (.call none)).isSome) = true := by
    decide +kernel
  have hran : ∃ s, Run step (fun _ _ => True) ⟨fun _ => 0, .outside⟩ oneRecord s ∧ _ :=
    Run.exists_of_exec (fun _ _ _ => trivial) hexec
  obtain ⟨s, hrun, hreader⟩ := hran
  have howns : (⟨fun _ => 0, .outside⟩ : Capture).KernelOwns := rfl
  obtain ⟨hblocks, hreads, _⟩ := blocks_read_once howns rfl hrun
  refine ⟨s, _, _, ?_, by decide +kernel, by decide +kernel, hblocks, hreads⟩
  intro hpanic
  rw [step, hpanic] at hreader
  cases hreader

end Capture

end PacketRing

end Tachyon
