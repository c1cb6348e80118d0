import Tachyon.ServerInternals

/-!
# `Tachyon.Proofs.UserData`: what a completion decodes to

`packUserData` adds `REQ_RESP_OFFSET` to the client id. The offset is all ones below the top
bit, so for a client id of at least 1 the sum is the top bit plus the client id minus 1: a
number with bits 31 down to 0 and bit 63 only. The buffer id and the operation code below
`0x8000` then fill disjoint bits, and the two ORs are additions (`toNat_packUserData`).
Subtracting the offset gives back the three fields side by side
(`unpackUserData_packUserData`).
-/

set_option autoImplicit false

namespace Tachyon

namespace UserData

/-- A power of two joins a smaller number. -/
theorem two_pow_add_eq_or {k b : Nat} (h : b < 2 ^ k) : 2 ^ k + b = 2 ^ k ||| b := by
  have hor := Nat.two_pow_add_eq_or_of_lt h 1
  rwa [Nat.mul_one] at hor

theorem toNat_uniqWord (w : UInt16) : (w.toUInt64 <<< 48).toNat = 2 ^ 48 * w.toNat := by
  have := w.toNat_lt
  simp [UInt64.toNat_shiftLeft, Nat.shiftLeft_eq]
  omega

theorem toNat_bufferWord (b : UInt16) : (b.toUInt64 <<< 32).toNat = 2 ^ 32 * b.toNat := by
  have := b.toNat_lt
  simp [UInt64.toNat_shiftLeft, Nat.shiftLeft_eq]
  omega

theorem toNat_offset : REQ_RESP_OFFSET.toNat = 2 ^ 63 - 1 := by decide

/-- The addition of the offset does not overflow. -/
theorem toNat_clientWord (c : UInt32) :
    (c.toUInt64 + REQ_RESP_OFFSET).toNat = c.toNat + REQ_RESP_OFFSET.toNat := by
  have := c.toNat_lt
  rw [UInt64.toNat_add, UInt32.toNat_toUInt64, toNat_offset]
  exact Nat.mod_eq_of_lt (by omega)

/-- With a client id of at least 1, the client word is bit 63 and the client id minus 1. -/
theorem toNat_clientWord_of_pos {c : UInt32} (hc : 1 ≤ c.toNat) :
    (c.toUInt64 + REQ_RESP_OFFSET).toNat = 2 ^ 63 ||| (c.toNat - 1) := by
  have := c.toNat_lt
  have hsum : (c.toUInt64 + REQ_RESP_OFFSET).toNat = 2 ^ 63 + (c.toNat - 1) := by
    rw [toNat_clientWord, toNat_offset]
    omega
  rw [hsum, two_pow_add_eq_or (by omega)]

/-- The packed word as a sum, for a client id of at least 1 and a code below `0x8000`. -/
theorem toNat_packUserData (u : UserData) (hc : 1 ≤ u.clientId.toNat)
    (hu : u.uniqId.toNat < 0x8000) :
    u.packUserData.toNat = u.uniqId.toNat * 2 ^ 48 + u.bufferId.toNat * 2 ^ 32
      + (u.clientId.toNat + REQ_RESP_OFFSET.toNat) := by
  have hcl := u.clientId.toNat_lt
  have hbl := u.bufferId.toNat_lt
  have hlow : u.clientId.toNat - 1 < 2 ^ 32 := by omega
  -- The three fields fill disjoint bits below bit 63.
  have hbc : 2 ^ 32 * u.bufferId.toNat ||| (u.clientId.toNat - 1)
      = 2 ^ 32 * u.bufferId.toNat + (u.clientId.toNat - 1) :=
    (Nat.two_pow_add_eq_or_of_lt hlow _).symm
  have huc : 2 ^ 48 * u.uniqId.toNat ||| (2 ^ 32 * u.bufferId.toNat + (u.clientId.toNat - 1))
      = 2 ^ 48 * u.uniqId.toNat + (2 ^ 32 * u.bufferId.toNat + (u.clientId.toNat - 1)) :=
    (Nat.two_pow_add_eq_or_of_lt (by omega) _).symm
  have hall : 2 ^ 63 ||| (2 ^ 48 * u.uniqId.toNat
        + (2 ^ 32 * u.bufferId.toNat + (u.clientId.toNat - 1)))
      = 2 ^ 63 + (2 ^ 48 * u.uniqId.toNat
        + (2 ^ 32 * u.bufferId.toNat + (u.clientId.toNat - 1))) :=
    (two_pow_add_eq_or (by omega)).symm
  calc u.packUserData.toNat
      = 2 ^ 48 * u.uniqId.toNat ||| 2 ^ 32 * u.bufferId.toNat
          ||| (2 ^ 63 ||| (u.clientId.toNat - 1)) := by
        rw [packUserData, UInt64.toNat_or, UInt64.toNat_or, toNat_uniqWord, toNat_bufferWord,
          toNat_clientWord_of_pos hc]
    _ = 2 ^ 63 ||| (2 ^ 48 * u.uniqId.toNat
          ||| (2 ^ 32 * u.bufferId.toNat ||| (u.clientId.toNat - 1))) := by
        ac_rfl
    _ = _ := by
        rw [hbc, huc, hall, toNat_offset]
        omega

/-- The packed word stays above the offset, so `process_entry` routes it to the clients. -/
theorem offset_le_packUserData (u : UserData) (hc : 1 ≤ u.clientId.toNat)
    (hu : u.uniqId.toNat < 0x8000) : REQ_RESP_OFFSET ≤ u.packUserData := by
  rw [UInt64.le_iff_toNat_le, toNat_packUserData u hc hu]
  omega

/-- Unpacking undoes packing for a client id of at least 1 and a code below `0x8000`. -/
theorem unpackUserData_packUserData (u : UserData) (hc : 1 ≤ u.clientId.toNat)
    (hu : u.uniqId.toNat < 0x8000) : unpackUserData u.packUserData = u := by
  have hcl := u.clientId.toNat_lt
  have hbl := u.bufferId.toNat_lt
  have hraw : (u.packUserData - REQ_RESP_OFFSET).toNat
      = u.uniqId.toNat * 2 ^ 48 + u.bufferId.toNat * 2 ^ 32 + u.clientId.toNat := by
    rw [UInt64.toNat_sub_of_le _ _ (offset_le_packUserData u hc hu),
      toNat_packUserData u hc hu]
    omega
  obtain ⟨c, b, w⟩ := u
  simp only at hcl hbl hraw hu hc
  simp only [unpackUserData, UserData.mk.injEq]
  refine ⟨?_, ?_, ?_⟩
  · apply UInt32.toNat_inj.mp
    rw [UInt64.toNat_toUInt32, UInt64.toNat_and, hraw,
      show (0xFFFFFFFF : UInt64).toNat = 2 ^ 32 - 1 from rfl, Nat.and_two_pow_sub_one_eq_mod]
    omega
  · apply UInt16.toNat_inj.mp
    rw [UInt64.toNat_toUInt16, UInt64.toNat_and, UInt64.toNat_shiftRight, hraw,
      show (0xFFFF : UInt64).toNat = 2 ^ 16 - 1 from rfl, Nat.and_two_pow_sub_one_eq_mod,
      show (32 : UInt64).toNat % 64 = 32 from rfl, Nat.shiftRight_eq_div_pow]
    omega
  · apply UInt16.toNat_inj.mp
    rw [UInt64.toNat_toUInt16, UInt64.toNat_and, UInt64.toNat_shiftRight, hraw,
      show (0xFFFF : UInt64).toNat = 2 ^ 16 - 1 from rfl, Nat.and_two_pow_sub_one_eq_mod,
      show (48 : UInt64).toNat % 64 = 48 from rfl, Nat.shiftRight_eq_div_pow]
    omega

end UserData

/-! ### The entries the server queues -/

/-- The client index in the user data, as `process_entry_response` reads it. -/
def clientOf (userData : UInt64) : Nat := (UserData.unpackUserData userData).clientId.toNat

/-- The operation code in the user data. -/
def uniqOf (userData : UInt64) : UInt16 := (UserData.unpackUserData userData).uniqId

section
variable {c : Nat} {w : UInt16}

theorem unpack_clientData (h1 : 1 ≤ c) (h2 : c < 2 ^ 32) (hw : w.toNat < 0x8000) :
    UserData.unpackUserData (clientData c w).packUserData = clientData c w := by
  refine UserData.unpackUserData_packUserData _ ?_ hw
  simp only [clientData, UInt32.toNat_ofNat']
  omega

/-- The client index of a queued entry is the index it was queued for. -/
theorem clientOf_clientData (h1 : 1 ≤ c) (h2 : c < 2 ^ 32) (hw : w.toNat < 0x8000) :
    clientOf (clientData c w).packUserData = c := by
  rw [clientOf, unpack_clientData h1 h2 hw]
  simp only [clientData, UInt32.toNat_ofNat']
  omega

/-- The operation code of a queued entry is the code it was queued with. -/
theorem uniqOf_clientData (h1 : 1 ≤ c) (h2 : c < 2 ^ 32) (hw : w.toNat < 0x8000) :
    uniqOf (clientData c w).packUserData = w := by
  rw [uniqOf, unpack_clientData h1 h2 hw]
  rfl

theorem offset_le_clientData (h1 : 1 ≤ c) (h2 : c < 2 ^ 32) (hw : w.toNat < 0x8000) :
    REQ_RESP_OFFSET ≤ (clientData c w).packUserData := by
  refine UserData.offset_le_packUserData _ ?_ hw
  simp only [clientData, UInt32.toNat_ofNat']
  omega

end

end Tachyon
