import Tachyon.Proofs.Accept

/-!
# `Tachyon.Proofs.Routing`: every user data, packed and unpacked

`Tachyon.Proofs.UserData` has the user data the server queues. Here are all of them.

* With a client id of at least 1, the offset leaves bit 63 and the client id minus 1. The top bit
  of the operation code is absorbed, everything else comes back
  (`unpackUserData_packUserData_of_client`).
* With client id 0, the offset is all ones below bit 63. The buffer id and the code below
  `0x8000` are absorbed, and bit 63 comes back as the top bit of the code
  (`unpackUserData_packUserData_of_zero`).

Every packed word is at or above the offset, so `process_entry` hands its completion to
`process_entry_response`. The server's clients have an index of at least 100, which is the first
case (`user_data_round_trip`).
-/

set_option autoImplicit false

namespace Tachyon

namespace UserData

/-! ### A client id of at least 1 -/

/-- The top bit of the code is bit 63 of the packed word. -/
theorem toNat_uniqWord_of_high {w : UInt16} (h : 2 ^ 15 ≤ w.toNat) :
    (w.toUInt64 <<< 48).toNat = 2 ^ 63 ||| 2 ^ 48 * (w.toNat - 2 ^ 15) := by
  have := w.toNat_lt
  rw [toNat_uniqWord, ← two_pow_add_eq_or (by omega)]
  omega

/-- A part that two words share counts once. -/
theorem or_absorb (t a b c : Nat) : t ||| a ||| b ||| (t ||| c) = a ||| b ||| (t ||| c) :=
  calc t ||| a ||| b ||| (t ||| c)
      = a ||| b ||| (t ||| t ||| c) := by ac_rfl
    _ = a ||| b ||| (t ||| c) := by rw [Nat.or_self]

/-- The top bit of the code is absorbed by the offset. -/
theorem packUserData_absorb (u : UserData) (hc : 1 ≤ u.clientId.toNat) :
    u.packUserData = packUserData { u with uniqId := u.uniqId % 0x8000 } := by
  have hul := u.uniqId.toNat_lt
  have hmod : (u.uniqId % 0x8000).toNat = u.uniqId.toNat % 2 ^ 15 := UInt16.toNat_mod ..
  apply UInt64.toNat_inj.mp
  -- The client's word has bit 63 set, so it does not matter whether the code sets it too.
  simp only [packUserData, UInt64.toNat_or, toNat_clientWord_of_pos hc]
  rcases Nat.lt_or_ge u.uniqId.toNat (2 ^ 15) with hlow | hhigh
  · rw [toNat_uniqWord, toNat_uniqWord, hmod, Nat.mod_eq_of_lt hlow]
  · rw [toNat_uniqWord_of_high hhigh, toNat_uniqWord, hmod, or_absorb,
      show u.uniqId.toNat % 2 ^ 15 = u.uniqId.toNat - 2 ^ 15 by omega]

theorem toNat_uniqId_mod_lt (w : UInt16) : (w % 0x8000).toNat < 0x8000 := by
  rw [UInt16.toNat_mod]
  exact Nat.mod_lt _ (by decide)

/-- What comes back for a client id of at least 1. -/
theorem unpackUserData_packUserData_of_client (u : UserData) (hc : 1 ≤ u.clientId.toNat) :
    unpackUserData u.packUserData = { u with uniqId := u.uniqId % 0x8000 } := by
  rw [packUserData_absorb u hc]
  exact unpackUserData_packUserData { u with uniqId := u.uniqId % 0x8000 } hc
    (toNat_uniqId_mod_lt u.uniqId)

/-! ### Client id 0 -/

/-- All ones below bit `k` absorb every number below `2 ^ k`. -/
theorem or_two_pow_sub_one {a k : Nat} (h : a < 2 ^ k) : a ||| (2 ^ k - 1) = 2 ^ k - 1 := by
  apply Nat.eq_of_testBit_eq
  intro i
  rw [Nat.testBit_or, Nat.testBit_two_pow_sub_one]
  by_cases hi : i < k
  · rw [decide_eq_true hi, Bool.or_true]
  · have hle : 2 ^ k ≤ 2 ^ i := Nat.pow_le_pow_right (by decide) (by omega)
    rw [Nat.testBit_lt_two_pow (by omega), Bool.false_or]

/-- The packed word for client id 0: of the fields, the top bit of the code is left. -/
theorem packUserData_of_zero (u : UserData) (hc : u.clientId = 0) :
    u.packUserData = if u.uniqId < 0x8000 then 0x7FFFFFFFFFFFFFFF else 0xFFFFFFFFFFFFFFFF := by
  have hul := u.uniqId.toNat_lt
  have hbl := u.bufferId.toNat_lt
  have hs : (u.clientId.toUInt64 + REQ_RESP_OFFSET).toNat = 2 ^ 63 - 1 := by
    rw [hc]
    rfl
  apply UInt64.toNat_inj.mp
  -- The buffer id lies below bit 63.
  rw [packUserData, UInt64.toNat_or, UInt64.toNat_or, toNat_bufferWord, hs, Nat.or_assoc,
    or_two_pow_sub_one (by omega)]
  by_cases hlow : u.uniqId < 0x8000
  · have hlt : u.uniqId.toNat < 2 ^ 15 := UInt16.lt_iff_toNat_lt.mp hlow
    rw [if_pos hlow, toNat_uniqWord, or_two_pow_sub_one (by omega)]
    rfl
  · have hge : 2 ^ 15 ≤ u.uniqId.toNat :=
      Nat.le_of_not_lt fun h => hlow (UInt16.lt_iff_toNat_lt.mpr h)
    rw [if_neg hlow, toNat_uniqWord_of_high hge, Nat.or_assoc, or_two_pow_sub_one (by omega)]
    rfl

/-- What comes back for client id 0. -/
theorem unpackUserData_packUserData_of_zero (u : UserData) (hc : u.clientId = 0) :
    unpackUserData u.packUserData = ⟨0, 0, if u.uniqId < 0x8000 then 0 else 0x8000⟩ := by
  rw [packUserData_of_zero u hc]
  split <;> rfl

/-! ### Every user data -/

/-- The user data that come back as they were packed. -/
theorem unpackUserData_packUserData_iff (u : UserData) :
    unpackUserData u.packUserData = u ↔
      (1 ≤ u.clientId ∧ u.uniqId < 0x8000) ∨
        (u.clientId = 0 ∧ u.bufferId = 0 ∧ (u.uniqId = 0 ∨ u.uniqId = 0x8000)) := by
  obtain ⟨c, b, w⟩ := u
  by_cases hc : c = 0
  · -- The client comes back, and the code has to be one of the two that do.
    rw [unpackUserData_packUserData_of_zero ⟨c, b, w⟩ hc, UserData.mk.injEq]
    simp only [hc, true_and]
    by_cases hw : w < 0x8000
    · have hne : w ≠ 0x8000 := by
        rintro rfl
        exact absurd hw (by decide)
      simp [hw, hne, eq_comm]
    · have hne : w ≠ 0 := by
        rintro rfl
        exact hw (by decide)
      simp [hw, hne, eq_comm]
  · -- Only the top bit of the code can be lost.
    have hpos : 1 ≤ c.toNat := by
      rw [Nat.one_le_iff_ne_zero]
      exact fun h => hc (UInt32.toNat_inj.mp h)
    have hle : 1 ≤ c := UInt32.le_iff_toNat_le.mpr hpos
    rw [unpackUserData_packUserData_of_client ⟨c, b, w⟩ hpos, UserData.mk.injEq]
    simp only [hc, hle, true_and, false_and, or_false]
    constructor
    · intro h
      rw [← h, UInt16.lt_iff_toNat_lt]
      exact toNat_uniqId_mod_lt w
    · intro h
      apply UInt16.toNat_inj.mp
      rw [UInt16.toNat_mod]
      exact Nat.mod_eq_of_lt (UInt16.lt_iff_toNat_lt.mp h)

/-- No packed word lies below the offset. -/
theorem offset_le_packUserData_all (u : UserData) : REQ_RESP_OFFSET ≤ u.packUserData := by
  rw [UInt64.le_iff_toNat_le, packUserData, UInt64.toNat_or]
  have hcw := toNat_clientWord u.clientId
  have hle : (u.clientId.toUInt64 + REQ_RESP_OFFSET).toNat ≤
      (u.uniqId.toUInt64 <<< 48 ||| u.bufferId.toUInt64 <<< 32).toNat
        ||| (u.clientId.toUInt64 + REQ_RESP_OFFSET).toNat := Nat.right_le_or
  omega

end UserData

/-! ### The clients' user data -/

/-- The descriptor tables behind `reserve_writes_buffer(n)`: clients are pushed and removed. -/
inductive AfterReserve (n : Nat) : ExternStableVec RawFd → Prop
  | reserve (v : ExternStableVec RawFd) : AfterReserve n (Reactor.reserveWritesBuffer n v)
  | push {v : ExternStableVec RawFd} (fd : RawFd) (h : AfterReserve n v) :
      AfterReserve n (v.push fd).2
  | remove {v : ExternStableVec RawFd} (clientId : Nat) (h : AfterReserve n v) :
      AfterReserve n (v.remove clientId).2

/-- The next index stays at or above the reserved ones. -/
theorem AfterReserve.le_next {n : Nat} {v : ExternStableVec RawFd} (h : AfterReserve n v) :
    n ≤ v.next := by
  induction h with
  | reserve v =>
    rw [Reactor.next_reserveWritesBuffer]
    omega
  | push fd _ ih =>
    rw [ExternStableVec.next_push]
    omega
  | remove clientId _ ih => exact ih

/-- A completion with the user data of client `c` and operation `w` decodes to the two. -/
structure Decodes (c : Nat) (w : UInt16) : Prop where
  client : clientOf (clientData c w).packUserData = c
  operation : uniqOf (clientData c w).packUserData = w
  user : UserData.unpackUserData (clientData c w).packUserData = clientData c w

theorem decodes {c : Nat} {w : UInt16} (h1 : 1 ≤ c) (h2 : c < 2 ^ 32)
    (hw : w = INIT_REQUEST ∨ w = POLL_EVENT ∨ w = SEND_CODE) : Decodes c w := by
  have hsmall : w.toNat < 0x8000 := by
    rcases hw with rfl | rfl | rfl <;> decide
  exact {
    client := clientOf_clientData h1 h2 hsmall
    operation := uniqOf_clientData h1 h2 hsmall
    user := unpack_clientData h1 h2 hsmall }

/-- What holds of the packed word of any user data. -/
structure RoundTrip (u : UserData) : Prop where
  /-- The addition of `pack_user_data` stays below `2 ^ 64`. -/
  no_overflow : u.clientId.toNat + REQ_RESP_OFFSET.toNat < 2 ^ 64
  /-- The subtraction of `unpack_user_data` does not underflow. -/
  offset_le : REQ_RESP_OFFSET ≤ u.packUserData
  ne_accept : u.packUserData ≠ CODE_ACCEPT
  ne_register : u.packUserData ≠ BUFFER_REGISTER_CODE
  routed : ∀ (s : Reactor) (inp : Input) (result : Int) (flags : Nat),
    s.processEntry inp ⟨u.packUserData, result, flags⟩
      = s.processEntryResponse inp u.packUserData result flags
  back_iff : UserData.unpackUserData u.packUserData = u ↔
    (1 ≤ u.clientId ∧ u.uniqId < 0x8000) ∨
      (u.clientId = 0 ∧ u.bufferId = 0 ∧ (u.uniqId = 0 ∨ u.uniqId = 0x8000))

theorem roundTrip (u : UserData) : RoundTrip u := by
  have hle := u.offset_le_packUserData_all
  have haccept : u.packUserData ≠ CODE_ACCEPT := by
    intro h
    rw [h] at hle
    exact absurd hle (by decide)
  have hregister : u.packUserData ≠ BUFFER_REGISTER_CODE := by
    intro h
    rw [h] at hle
    exact absurd hle (by decide)
  have hcl := u.clientId.toNat_lt
  exact {
    no_overflow := by
      rw [UserData.toNat_offset]
      omega
    offset_le := hle
    ne_accept := haccept
    ne_register := hregister
    routed := by
      intro s inp result flags
      simp only [Reactor.processEntry, hregister, haccept, ge_iff_le, hle, false_and, if_false,
        if_true]
    back_iff := u.unpackUserData_packUserData_iff }

/-- The packed words of all user data, and the completions of the clients: those of a table
behind `reserve_writes_buffer(100)`, and those of a running server. -/
theorem user_data_round_trip :
    (∀ u, RoundTrip u) ∧
    (∀ v fd w, AfterReserve 100 v → (v.push fd).1 < 2 ^ 32 →
      w = INIT_REQUEST ∨ w = POLL_EVENT ∨ w = SEND_CODE → Decodes (v.push fd).1 w) ∧
    (∀ (s : Reactor) fd w, s.Reachable → (s.srv.clientFds.push fd).1 < 2 ^ 32 →
      w = INIT_REQUEST ∨ w = POLL_EVENT ∨ w = SEND_CODE →
      Decodes (s.srv.clientFds.push fd).1 w) := by
  refine ⟨roundTrip, ?_, ?_⟩
  · intro v fd w hv hlt hw
    have hnext := hv.le_next
    exact decodes (by rw [ExternStableVec.fst_push]; omega) hlt hw
  · intro s fd w hs hlt hw
    have hnext : s.srv.clientFds.next = 100 + acceptCount s.log := count_invariant.reachable hs
    exact decodes (by rw [ExternStableVec.fst_push]; omega) hlt hw

/-- The first client behind the reserved slots has index 100. -/
theorem user_data_round_trip_first :
    Decodes ((Reactor.reserveWritesBuffer 100 (ExternStableVec.withCapacity 0)).push 5).1
      SEND_CODE :=
  user_data_round_trip.2.1 _ 5 SEND_CODE (.reserve _) (by decide) (Or.inr (Or.inr rfl))

end Tachyon
