import Mathlib.Data.List.TakeWhile
import Tachyon.Network.PacketRing

/-!
# `Tachyon.Proofs.PacketRing`: which range of a block is read

A block is a list of records, each linked to the next by `tp_next_offset` (`Linked`). The range
that is asked for goes from the first record that qualifies to the last one (`rangeOf`).

`read_packets` follows the link only behind a packet that it takes. At the first record it skips
it stays for all the rounds that are left (`readLoop_of_skipped`). So its range is that of the
records before the first one that does not qualify (`readLoop_eq`), and it is the right one when
no qualifying record lies behind (`selects_range_iff`).
-/

set_option autoImplicit false

namespace Tachyon

namespace PacketRing

/-! ### Blocks -/

/-- The records from the offset `base` on: a link to each next one, 0 in the last. -/
inductive Linked (ring : Mem) : Nat → List Nat → Prop
  | last {base : Nat} (h : tpNextOffset ring base = 0) : Linked ring base [base]
  | next {base : Nat} {rest : List Nat} (h : tpNextOffset ring base ≠ 0)
      (hrest : Linked ring (base + tpNextOffset ring base) rest) : Linked ring base (base :: rest)

/-- A block the kernel has handed over, with the offsets of its records. -/
structure Block where
  ring : Mem
  records : List Nat
  user : blockStatus ring &&& TP_STATUS_USER ≠ 0
  count : numPkts ring = records.length
  linked : Linked ring (offsetToFirstPkt ring) records

/-- The frame of the record is an IPv4 packet from elsewhere. -/
def qualifies (ring : Mem) (serverIp : Ipv4Addr) (base : Nat) : Bool :=
  decide (34 ≤ tpSnaplen ring base ∧ ethertype ring (dataOffset ring base) = 0x0800
    ∧ srcIp ring (dataOffset ring base) ≠ serverIp)

/-- The offset behind the frame of a record. -/
def frameEnd (ring : Mem) (base : Nat) : Nat := dataOffset ring base + tpSnaplen ring base

/-- From the first frame of a list of records to the end of the last one. -/
def rangeOf (ring : Mem) : List Nat → Option (Nat × Nat)
  | [] => none
  | base :: rest =>
    some (dataOffset ring base, frameEnd ring ((base :: rest).getLast (List.cons_ne_nil _ _)))

/-! ### The loop -/

variable {ring : Mem} {serverIp : Ipv4Addr}

/-- A round at a record that does not qualify changes nothing. -/
theorem readLoop_skip {base rounds : Nat} {range : Range}
    (h : qualifies ring serverIp base = false) :
    readLoop ring serverIp (rounds + 1) base range
      = readLoop ring serverIp rounds base range := by
  have hnot : ¬ (34 ≤ tpSnaplen ring base ∧ ethertype ring (dataOffset ring base) = 0x0800
      ∧ srcIp ring (dataOffset ring base) ≠ serverIp) := of_decide_eq_false h
  rw [readLoop]
  -- Each of the four `continue`s leaves `base` and the range as they are.
  by_cases hshort : tpSnaplen ring base < 14
  · rw [if_pos hshort]
  · rw [if_neg hshort]
    by_cases heth : ethertype ring (dataOffset ring base) = 0x0800
    · rw [if_neg (not_not.mpr heth)]
      by_cases hip : tpSnaplen ring base < 14 + 20
      · rw [if_pos hip]
      · have hown : srcIp ring (dataOffset ring base) = serverIp := by
          by_contra hne
          exact hnot ⟨by omega, heth, hne⟩
        rw [if_neg hip, if_pos hown]
    · rw [if_pos heth]

/-- The loop does not get past a record that does not qualify. -/
theorem readLoop_of_skipped {base : Nat} (h : qualifies ring serverIp base = false)
    (rounds : Nat) (range : Range) : readLoop ring serverIp rounds base range = range := by
  induction rounds with
  | zero => rfl
  | succ rounds ih => rw [readLoop_skip h, ih]

/-- A round at a record that qualifies takes its frame and follows the link. -/
theorem readLoop_take {base rounds : Nat} {range : Range}
    (h : qualifies ring serverIp base = true) :
    readLoop ring serverIp (rounds + 1) base range
      = if tpNextOffset ring base = 0 then extend ring base range
        else readLoop ring serverIp rounds (base + tpNextOffset ring base)
          (extend ring base range) := by
  obtain ⟨hlen, heth, hne⟩ := of_decide_eq_true h
  rw [readLoop, if_neg (by omega), if_neg (not_not.mpr heth), if_neg (by omega), if_neg hne]

/-- The loop takes the records before the first one that does not qualify. -/
theorem readLoop_eq {base : Nat} {records : List Nat} (h : Linked ring base records)
    (range : Range) : readLoop ring serverIp records.length base range
      = (records.takeWhile (qualifies ring serverIp)).foldl
          (fun range base => extend ring base range) range := by
  -- The rounds are as many as the records, so they do not run out before the last link.
  induction h generalizing range with
  | @last base hlast =>
    by_cases hq : qualifies ring serverIp base = true
    · rw [List.length_singleton, readLoop_take hq, if_pos hlast, List.takeWhile_cons_of_pos hq]
      rfl
    · rw [readLoop_of_skipped (Bool.eq_false_iff.mpr hq), List.takeWhile_cons_of_neg hq]
      rfl
  | @next base rest hnext _ ih =>
    by_cases hq : qualifies ring serverIp base = true
    · rw [List.length_cons, readLoop_take hq, if_neg hnext, ih, List.takeWhile_cons_of_pos hq,
        List.foldl_cons]
    · -- The rounds that are left are all spent on this record.
      rw [readLoop_of_skipped (Bool.eq_false_iff.mpr hq), List.takeWhile_cons_of_neg hq]
      rfl

/-- The range behind the bookkeeping over a list of records. -/
def finish (range : Range) : Option (Nat × Nat) := range.1.map fun start => (start, range.2)

/-- Once the first offset is set, the end of the last record is the end of the range. -/
theorem finish_foldl_extend_some (start : Nat) (base : Nat) (rest : List Nat) :
    finish (rest.foldl (fun range base => extend ring base range) (some start, frameEnd ring base))
      = some (start, frameEnd ring ((base :: rest).getLast (List.cons_ne_nil _ _))) := by
  induction rest generalizing base with
  | nil => rfl
  | cons next rest ih =>
    rw [List.foldl_cons, List.getLast_cons (List.cons_ne_nil _ _)]
    exact ih next

theorem finish_foldl_extend (records : List Nat) :
    finish (records.foldl (fun range base => extend ring base range) (none, 0))
      = rangeOf ring records := by
  cases records with
  | nil => rfl
  | cons base rest => exact finish_foldl_extend_some (dataOffset ring base) base rest

/-! ### The range -/

namespace Block

/-- The records before the first one that does not qualify. -/
def leading (blk : Block) (serverIp : Ipv4Addr) : List Nat :=
  blk.records.takeWhile (qualifies blk.ring serverIp)

/-- The qualifying records behind the first one that does not qualify. -/
def behind (blk : Block) (serverIp : Ipv4Addr) : List Nat :=
  (blk.records.dropWhile (qualifies blk.ring serverIp)).filter (qualifies blk.ring serverIp)

/-- The range from the first qualifying frame to the last one. -/
def wanted (blk : Block) (serverIp : Ipv4Addr) : Option (Nat × Nat) :=
  rangeOf blk.ring (blk.records.filter (qualifies blk.ring serverIp))

theorem filter_records (blk : Block) (serverIp : Ipv4Addr) :
    blk.records.filter (qualifies blk.ring serverIp)
      = blk.leading serverIp ++ blk.behind serverIp := by
  have hall : (blk.leading serverIp).filter (qualifies blk.ring serverIp)
      = blk.leading serverIp :=
    List.filter_eq_self.mpr fun base hbase => List.mem_takeWhile_imp hbase
  calc blk.records.filter (qualifies blk.ring serverIp)
      = (blk.leading serverIp ++ blk.records.dropWhile (qualifies blk.ring serverIp)).filter
          (qualifies blk.ring serverIp) := by rw [leading, List.takeWhile_append_dropWhile]
    _ = _ := by rw [List.filter_append, hall, behind]

/-- What `read_packets` returns for a block, and the ring it leaves. -/
theorem readPackets_eq (blk : Block) (serverIp : Ipv4Addr) :
    readPackets (some serverIp) blk.ring
      = some (rangeOf blk.ring (blk.leading serverIp), giveBack blk.ring) := by
  have hloop : readLoop blk.ring serverIp blk.records.length (offsetToFirstPkt blk.ring) (none, 0)
      = (blk.leading serverIp).foldl (fun range base => extend blk.ring base range) (none, 0) :=
    readLoop_eq blk.linked (none, 0)
  rw [readPackets, if_neg blk.user, blk.count]
  simp only [hloop]
  exact congrArg (fun range => some (range, giveBack blk.ring)) (finish_foldl_extend _)

end Block

/-- The block belongs to the kernel again. -/
theorem blockStatus_giveBack (ring : Mem) : blockStatus (giveBack ring) = TP_STATUS_KERNEL := by
  have hread : (giveBack ring).read 8 4 = [0, 0, 0, 0] := Mem.read_write_self ring 8 [0, 0, 0, 0]
  rw [blockStatus, leAt, hread]
  rfl

/-- Nothing but the status changes. -/
theorem giveBack_of_outside (ring : Mem) {a : Nat} (h : a < 8 ∨ 12 ≤ a) :
    giveBack ring a = ring a := by
  have hout : ¬ (8 ≤ a ∧ a < 12) := by omega
  exact if_neg hout

/-- `read_packets` returns the range from the first qualifying frame to the last one, gives the
block back and changes no other byte. -/
structure SelectsRange (serverIp : Ipv4Addr) (blk : Block) (ring' : Mem) : Prop where
  result : readPackets (some serverIp) blk.ring = some (blk.wanted serverIp, ring')
  status : blockStatus ring' = TP_STATUS_KERNEL
  outside : ∀ a, a < 8 ∨ 12 ≤ a → ring' a = blk.ring a

/-- No qualifying record lies behind the first one that does not qualify. Or the frames overlap
in such a way that the last of these ends where the last one before it does. -/
def NoneBehind (serverIp : Ipv4Addr) (blk : Block) : Prop :=
  blk.behind serverIp = [] ∨
    ∃ base ∈ (blk.leading serverIp).getLast?, ∃ base' ∈ (blk.behind serverIp).getLast?,
      frameEnd blk.ring base' = frameEnd blk.ring base

/-- A longer list of records has the same range when its last frame has the same end. -/
theorem rangeOf_append_iff (records behind : List Nat) :
    rangeOf ring records = rangeOf ring (records ++ behind) ↔
      behind = [] ∨ ∃ base ∈ records.getLast?, ∃ base' ∈ behind.getLast?,
        frameEnd ring base' = frameEnd ring base := by
  cases behind with
  | nil => simp
  | cons next rest =>
    cases records with
    | nil => simp [rangeOf]
    | cons first more =>
      -- Both ranges begin with the first record, so only the ends are compared.
      have hlast : (first :: (more ++ next :: rest)).getLast (List.cons_ne_nil _ _)
          = (next :: rest).getLast (List.cons_ne_nil _ _) :=
        List.getLast_append_of_ne_nil (l := first :: more) _ (List.cons_ne_nil _ _)
      rw [List.cons_append, rangeOf, rangeOf, hlast,
        List.getLast?_eq_some_getLast (List.cons_ne_nil first more),
        List.getLast?_eq_some_getLast (List.cons_ne_nil next rest)]
      simp [eq_comm]

/-- For every block: the range is the right one exactly when no qualifying record lies behind
one that is skipped. -/
theorem selects_range_iff (serverIp : Ipv4Addr) (blk : Block) :
    (∃ ring', SelectsRange serverIp blk ring') ↔ NoneBehind serverIp blk := by
  have hwanted : rangeOf blk.ring (blk.leading serverIp) = blk.wanted serverIp ↔
      NoneBehind serverIp blk := by
    rw [Block.wanted, blk.filter_records]
    exact rangeOf_append_iff _ _
  constructor
  · rintro ⟨ring', h⟩
    have hresult := h.result
    rw [blk.readPackets_eq] at hresult
    simp only [Option.some.injEq, Prod.mk.injEq] at hresult
    exact hwanted.mp hresult.1
  · intro h
    exact ⟨giveBack blk.ring,
      { result := by rw [blk.readPackets_eq, hwanted.mpr h]
        status := blockStatus_giveBack blk.ring
        outside := fun _ ha => giveBack_of_outside blk.ring ha }⟩

/-- A block with two records, of the frames what is looked at. -/
def arpFirstRing : Mem :=
  [(8, [1, 0, 0, 0, 2, 0, 0, 0, 48]),
    -- An ARP frame of 42 bytes. The next record is 72 bytes on.
    (48, [72]), (60, [42]), (72, [28]), (88, [8, 6]),
    -- An IPv4 packet of 34 bytes from 1.1.1.1.
    (132, [34]), (144, [28]), (160, [8, 0]), (174, [1, 1, 1, 1])].foldl
    (fun ring field => ring.write field.1 field.2) fun _ => 0

/-- An ARP frame, and an IPv4 packet behind it. -/
def arpFirst : Block where
  ring := arpFirstRing
  records := [48, 120]
  user := by decide +kernel
  count := by decide +kernel
  linked := by
    have hfirst : offsetToFirstPkt arpFirstRing = 48 := by decide +kernel
    have hnext : tpNextOffset arpFirstRing 48 = 72 := by decide +kernel
    have hlast : tpNextOffset arpFirstRing 120 = 0 := by decide +kernel
    have hlink : Linked arpFirstRing (48 + tpNextOffset arpFirstRing 48) [120] := by
      rw [hnext]
      exact .last hlast
    rw [hfirst]
    exact .next (by omega) hlink

/-- The packet behind the ARP frame is not found. -/
theorem not_selects_range :
    ¬ ∀ (serverIp : Ipv4Addr) (blk : Block), ∃ ring', SelectsRange serverIp blk ring' := by
  intro hall
  obtain ⟨ring', h⟩ := hall ⟨2, 2, 2, 2⟩ arpFirst
  have hresult := h.result
  rw [Block.readPackets_eq] at hresult
  simp only [Option.some.injEq, Prod.mk.injEq] at hresult
  exact absurd hresult.1 (by decide +kernel)

end PacketRing

end Tachyon
