import Mathlib.Data.Nat.Bitwise
import Mathlib.Data.List.Basic

/-!
# `Tachyon.ServerInternals`: the user data of a ring entry

`server_internals.rs`. Every entry the server queues carries 64 bits that come back in its
completion. Accepts and buffer hand-overs use two small codes. Everything else packs a
`UserData` above `REQ_RESP_OFFSET`.
-/

set_option autoImplicit false

namespace Tachyon

def REQ_RESP_OFFSET : UInt64 := 0xFFFFFFFFFFFFFFFF / 2
def BUFFER_REGISTER_CODE : UInt64 := 0xFAB
def INIT_REQUEST : UInt16 := 0xCCA
def POLL_EVENT : UInt16 := 0xAAA
def CODE_ACCEPT : UInt64 := 0xA

/-- The code `wideband_send` writes into its send entries. -/
def SEND_CODE : UInt16 := 0xCCC

structure UserData where
  clientId : UInt32
  bufferId : UInt16
  uniqId : UInt16
  deriving DecidableEq, Repr

namespace UserData

/-- `+` binds tighter than `|`, so the offset joins the client id before the two ORs. -/
def packUserData (u : UserData) : UInt64 :=
  (u.uniqId.toUInt64 <<< 48) ||| (u.bufferId.toUInt64 <<< 32)
    ||| (u.clientId.toUInt64 + REQ_RESP_OFFSET)

def unpackUserData (userData : UInt64) : UserData :=
  let raw := userData - REQ_RESP_OFFSET
  { clientId := (raw &&& 0xFFFFFFFF).toUInt32
    bufferId := ((raw >>> 32) &&& 0xFFFF).toUInt16
    uniqId := ((raw >>> 48) &&& 0xFFFF).toUInt16 }

end UserData

/-- The user data `client_id as u32, buffer_id: 0, uniq_id` of every entry the server
queues for a client. -/
def clientData (clientId : Nat) (uniqId : UInt16) : UserData :=
  ⟨UInt32.ofNat clientId, 0, uniqId⟩

end Tachyon
