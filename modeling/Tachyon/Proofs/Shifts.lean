import Tachyon.Lib.Copy
import Tachyon.Proofs.Boot
import Tachyon.Proofs.Invariant
import Tachyon.Proofs.Trims
import Tachyon.Utils.ShiftUb

/-!
# `Tachyon.Proofs.Shifts`: shift and trim

Both shifts put the first `len` bytes of a buffer behind zeros (`shiftUbInplace_eq`,
`shiftUb_eq`), and the left trim drops these zeros again. So after a shift `ubdma` parses the
bytes that `request_reply` has parsed, unless these begin with a zero (`polled_of_shifts`).
-/

set_option autoImplicit false

namespace Tachyon

namespace Shift

open Simd

/-! ### The two shifts -/

/-- The bytes moved in place, whether or not source and destination overlap. -/
theorem shiftUbInplace_eq {buf : List UInt8} {len : Nat} (hlen : len ≤ buf.length) :
    shiftUbInplace buf len = List.replicate (buf.length - len) 0 ++ buf.take len := by
  have hfront : (buf.take (buf.length - len)).length = buf.length - len := by
    rw [List.length_take]
    omega
  have hback : buf.drop (buf.length - len + len) = [] :=
    List.drop_eq_nil_of_le (by omega)
  rw [shiftUbInplace, copyWithin, hback, List.append_nil]
  congr 1
  exact List.drop_left' hfront

variable (src : Mem) {start len : Nat}

/-- The array when the first `i` bytes have been copied. -/
def shifted (start i : Nat) : Mem := Mem.write (fun _ => 0) start (src.read 0 i)

/-- A write behind an earlier one extends it. -/
theorem shifted_write (start i : Nat) {n : Nat} {bs : List UInt8} (hbs : src.read i n = bs) :
    (shifted src start i).write (start + i) bs = shifted src start (i + n) := by
  rw [← hbs, shifted, shifted, Mem.read_add, Nat.zero_add]
  have happ := Mem.write_write_append (fun _ => 0) start (src.read 0 i) (src.read i n)
  rwa [Mem.length_read] at happ

theorem ofFn_loaduSi256 (src : Mem) (i : Nat) : List.ofFn (loaduSi256 src i) = src.read i 32 := by
  rw [Mem.read, ← List.map_coe_finRange_eq_range, List.map_map, List.ofFn_eq_map]
  rfl

/-- The vector loop copies whole chunks. -/
theorem shiftUbChunks_eq {rounds i : Nat} (hi : i ≤ len) :
    ∃ j, j ≤ len ∧ shiftUbChunks src start len rounds i (shifted src start i)
      = (j, shifted src start j) := by
  induction rounds generalizing i with
  | zero => exact ⟨i, hi, rfl⟩
  | succ rounds ih =>
    rw [shiftUbChunks]
    by_cases hle : i + 32 ≤ len
    · rw [if_pos hle]
      simp only [storeuSi256, shifted_write src start i (ofFn_loaduSi256 src i).symm]
      exact ih hle
    · rw [if_neg hle]
      exact ⟨i, hi, rfl⟩

/-- The scalar loop copies what is left. -/
theorem shiftUbTail_eq {rounds i : Nat} (hi : i ≤ len) (hrounds : len ≤ i + rounds) :
    shiftUbTail src start len rounds i (shifted src start i) = shifted src start len := by
  induction rounds generalizing i with
  | zero =>
    rw [shiftUbTail, show i = len by omega]
  | succ rounds ih =>
    rw [shiftUbTail]
    by_cases hlt : i < len
    · have hone : src.read i 1 = [src i] := rfl
      rw [if_pos hlt, shifted_write src start i hone]
      exact ih hlt (by omega)
    · rw [if_neg hlt, show i = len by omega]

/-- The returned array. -/
theorem shiftUb_eq {buf : List UInt8} {len : Nat} (hbuf : len ≤ buf.length)
    (hlen : len ≤ BUFFER_SIZE) :
    shiftUb buf len = List.replicate (BUFFER_SIZE - len) 0 ++ buf.take len := by
  have htake : (Slice.ofList buf).ptr.read 0 len = buf.take len := by
    have hbytes : (Slice.ofList buf).ptr.read 0 buf.length = buf := Slice.bytes_ofList buf
    rw [← Mem.take_read _ _ hbuf, hbytes]
  have hzeros : Mem.read (fun _ => 0) 0 (BUFFER_SIZE - len)
      = List.replicate (BUFFER_SIZE - len) 0 := by
    rw [Mem.read, List.map_const', List.length_range]
  have hempty : (fun _ => 0 : Mem) = shifted (Slice.ofList buf).ptr (BUFFER_SIZE - len) 0 :=
    (Mem.write_nil _ _).symm
  -- The vector loop stops at some `j`, and the scalar loop goes on from there.
  obtain ⟨j, hj, hchunks⟩ :=
    @shiftUbChunks_eq (Slice.ofList buf).ptr (BUFFER_SIZE - len) len len 0 (Nat.zero_le len)
  have hread := Mem.read_write_append (fun _ => 0) 0 (BUFFER_SIZE - len)
    ((Slice.ofList buf).ptr.read 0 len)
  rw [Mem.length_read, Nat.zero_add, Nat.sub_add_cancel hlen, hzeros, htake] at hread
  rw [shiftUb, hempty, hchunks]
  simp only
  rw [shiftUbTail_eq _ hj (by omega), shifted, htake, hread]

end Shift

namespace Trim

/-- Zeros in front of the others make no difference. -/
theorem dropWhile_zeros (n : Nat) (bs : List UInt8) :
    (List.replicate n 0 ++ bs).dropWhile (· == 0) = bs.dropWhile (· == 0) := by
  refine List.dropWhile_append_of_pos fun b hb => ?_
  rw [List.eq_of_mem_replicate hb]
  rfl

end Trim

/-! ### The current kernel buffer -/

namespace Reactor

variable {s t : Reactor} {inp : Input} {flags : Nat} {user : UserData} {result : Int}

theorem bytes_bufferSlice (srv : Server) (bufId len : Nat) :
    (bufferSlice srv bufId len).bytes = srv.buffers.read (bufId * BUFFER_SIZE) len :=
  Mem.read_shift _ _ _

/-- `request_reply` shifts the buffer: it is in UBDMA mode, the received bytes fit, and the last
byte of the buffer is zero. -/
structure Shifts (s : Reactor) (bufId : Nat) (result : Int) : Prop where
  dma : s.srv.ubKernelDma = true
  fits : result ≤ BUFFER_SIZE
  last : s.srv.buffers (bufId * BUFFER_SIZE + (BUFFER_SIZE - 1)) = 0

/-- The buffer behind the shift. -/
theorem read_shiftBuffer {buffers : Mem} {bufId len : Nat} (hlen : len ≤ BUFFER_SIZE)
    (hlast : buffers (bufId * BUFFER_SIZE + (BUFFER_SIZE - 1)) = 0) :
    (shiftBuffer buffers bufId len).read (bufId * BUFFER_SIZE) BUFFER_SIZE
      = List.replicate (BUFFER_SIZE - len) 0 ++ buffers.read (bufId * BUFFER_SIZE) len := by
  have hsize := Mem.length_read buffers (bufId * BUFFER_SIZE) BUFFER_SIZE
  have hguard : (buffers.read (bufId * BUFFER_SIZE) BUFFER_SIZE).getD (BUFFER_SIZE - 1) 0 = 0 :=
    (Mem.getD_read buffers _ (by decide)).trans hlast
  have hshift := Shift.shiftUbInplace_eq (hlen.trans_eq hsize.symm)
  rw [hsize, Mem.take_read _ _ hlen] at hshift
  have hlength : (List.replicate (BUFFER_SIZE - len) (0 : UInt8)
      ++ buffers.read (bufId * BUFFER_SIZE) len).length = BUFFER_SIZE := by
    rw [List.length_append, List.length_replicate, Mem.length_read]
    omega
  have hself := Mem.read_write_self buffers (bufId * BUFFER_SIZE)
    (List.replicate (BUFFER_SIZE - len) (0 : UInt8) ++ buffers.read (bufId * BUFFER_SIZE) len)
  rw [hlength] at hself
  simp only [shiftBuffer]
  -- The guard of `request_reply`: the last byte of the buffer is free.
  rw [if_pos hguard, hshift, hself]

/-- `ubdma` parses the slice `polled` and nothing else. With more than five requests in it, and for
a stored client without output, it answers them. Otherwise it changes nothing. -/
theorem ubdma_polled {buffer : Slice} (hpolled : s.polled = some buffer) (user : UserData) :
    (5 < (Http.parseHttpMethodsPaths 50 buffer).length ∧ ∃ lake cache hot,
        s.srv.clientOutBuffers.get user.clientId.toNat = some lake ∧ lake.len = 0 ∧
        s.ubdma user = .ok (s.refreshed buffer user cache hot (lake.write (s.block buffer)))) ∨
      (((Http.parseHttpMethodsPaths 50 buffer).length ≤ 5 ∨
          ∀ lake, s.srv.clientOutBuffers.get user.clientId.toNat = some lake → lake.len ≠ 0) ∧
        s.ubdma user = .ok s) := by
  obtain ⟨bufId, hbuf, rfl⟩ := Option.map_eq_some_iff.mp hpolled
  unfold ubdma
  simp only [hbuf]
  by_cases hmany : 5 < (Http.parseHttpMethodsPaths 50
      (Trim.lTrim256 (bufferSlice s.srv bufId BUFFER_SIZE))).length
  · -- The capacity of the source is positive from six requests on.
    have huseful : ¬ ((Http.parseHttpMethodsPaths 50
        (Trim.lTrim256 (bufferSlice s.srv bufId BUFFER_SIZE))).length - 5) * DATA_LAKE_SIZE
          = 0 := by
      intro hzero
      have := (Nat.mul_eq_zero.mp hzero).resolve_right (by decide)
      omega
    rw [if_neg huseful]
    cases hget : s.srv.clientOutBuffers.get user.clientId.toNat with
    | none =>
      refine .inr ⟨.inr ?_, rfl⟩
      intro lake hlake
      cases hlake
    | some lake =>
      by_cases hlen : lake.len = 0
      · obtain ⟨cache, hot, n, hloop, hread⟩ := replyLoop_eq s.srv.date
          (Trim.lTrim256 (bufferSlice s.srv bufId BUFFER_SIZE)) s.srv.hotInternalCache
          s.srv.hotDataLake
        refine .inl ⟨hmany, lake, cache, hot, rfl, hlen, ?_⟩
        simp only [if_neg (not_not.mpr hlen), hloop, hread, refreshed, hbuf]
      · refine .inr ⟨.inr ?_, if_pos hlen⟩
        intro lake' hlake'
        cases hlake'
        exact hlen
  · refine .inr ⟨.inl (not_lt.mp hmany), ?_⟩
    rw [Nat.sub_eq_zero_of_le (not_lt.mp hmany), Nat.zero_mul, if_pos rfl]

/-- What a reply leaves in the slab, and the buffer it notes. -/
theorem srv_requestReply (h : s.requestReply inp flags user result = .ok t)
    (hle : result ≤ BUFFER_SIZE) :
    t.srv.currentKernelBuf = some (flags >>> 16 % 2 ^ 16) ∧
      t.srv.buffers = if s.srv.ubKernelDma
        then shiftBuffer s.srv.buffers (flags >>> 16 % 2 ^ 16) result.toNat else s.srv.buffers := by
  rcases requestReply_cases h with ⟨hlong, _⟩ | ⟨_, lake, cache, hot, _, hend⟩
  · omega
  · split at hend
    · -- Releasing the buffers changes neither of the two.
      rw [srv_releaseBuffers hend]
      exact ⟨rfl, rfl⟩
    · rw [hend]
      exact ⟨rfl, rfl⟩

/-- After the shift, the bytes that were parsed are those that `ubdma` will parse. -/
theorem polled_of_shifts (h : s.requestReply inp flags user result = .ok t)
    (hs : Shifts s (flags >>> 16 % 2 ^ 16) result) {b : UInt8} {rest : List UInt8}
    (hreceived : (bufferSlice s.srv (flags >>> 16 % 2 ^ 16) result.toNat).bytes = b :: rest)
    (hb : b ≠ 0) : ∃ slice, t.polled = some slice ∧
      slice.bytes = (bufferSlice s.srv (flags >>> 16 % 2 ^ 16) result.toNat).bytes := by
  obtain ⟨hbuf, hbuffers⟩ := srv_requestReply h hs.fits
  have hlen : result.toNat ≤ BUFFER_SIZE := by
    have := hs.fits
    omega
  refine ⟨_, by rw [polled, hbuf]; rfl, ?_⟩
  rw [if_pos hs.dma] at hbuffers
  -- The zeros in front are trimmed, and the trim stops at `b`.
  rw [Trim.bytes_lTrim256, bytes_bufferSlice, hbuffers, read_shiftBuffer hlen hs.last,
    Trim.dropWhile_zeros, ← bytes_bufferSlice s.srv, hreceived]
  exact List.dropWhile_cons_of_neg (by simpa using hb)

end Reactor

/-! ### Shift, then trim -/

/-- Both shifts of a buffer, and the left trim behind them. -/
structure ShiftedRight (buf : List UInt8) (len : Nat) : Prop where
  inplace : Shift.shiftUbInplace buf len
    = List.replicate (BUFFER_SIZE - len) 0 ++ buf.take len
  returned : Shift.shiftUb buf len = Shift.shiftUbInplace buf len
  trimmed : ∀ s s' : Slice, s.bytes = Shift.shiftUbInplace buf len → s'.bytes = buf.take len →
    (Trim.lTrim256 s).bytes = (Trim.lTrim256 s').bytes

theorem shiftedRight {buf : List UInt8} {len : Nat} (hbuf : buf.length = BUFFER_SIZE)
    (hlen : len ≤ BUFFER_SIZE) : ShiftedRight buf len := by
  have hfit : len ≤ buf.length := by rwa [hbuf]
  have hinplace := Shift.shiftUbInplace_eq hfit
  rw [hbuf] at hinplace
  exact
    { inplace := hinplace
      returned := by rw [hinplace, Shift.shiftUb_eq hfit hlen]
      trimmed := by
        intro s s' hs hs'
        rw [Trim.bytes_lTrim256, Trim.bytes_lTrim256, hs, hs', hinplace, Trim.dropWhile_zeros] }

/-- For every buffer and length the shifts agree and the trim takes them back. For every
`request_reply` that shifts its buffer, `ubdma` gets the bytes that were parsed, when the first
of them is not zero. -/
theorem shift_then_trim :
    (∀ (buf : List UInt8) (len : Nat), buf.length = BUFFER_SIZE → len ≤ BUFFER_SIZE →
      ShiftedRight buf len) ∧
    (∀ (s t : Reactor) (inp : Input) (flags : Nat) (user : UserData) (result : Int) (b : UInt8)
      (rest : List UInt8), s.requestReply inp flags user result = .ok t →
      s.Shifts (flags >>> 16 % 2 ^ 16) result →
      (Reactor.bufferSlice s.srv (flags >>> 16 % 2 ^ 16) result.toNat).bytes = b :: rest →
      b ≠ 0 → ∃ slice, t.polled = some slice ∧
        slice.bytes
          = (Reactor.bufferSlice s.srv (flags >>> 16 % 2 ^ 16) result.toNat).bytes) := by
  constructor
  · intro buf len hbuf hlen
    exact shiftedRight hbuf hlen
  · intro s t inp flags user result b rest h hs hreceived hb
    exact Reactor.polled_of_shifts h hs hreceived hb

/-- A server in UBDMA mode with one client, and a request in its first buffer. -/
def oneReceived : Reactor :=
  let s := Reactor.fresh ⟨1, false, true, []⟩
  { s with srv := { s.srv with
      buffers := Mem.write (fun _ => 0) 0 Reactor.plaintextRequest
      clientOutBuffers := (s.srv.clientOutBuffers.push SmallLake.build).2 } }

theorem shift_then_trim_plaintext :
    ShiftedRight (List.replicate BUFFER_SIZE 65) 40 ∧
      ∃ t slice, oneReceived.requestReply ⟨0, Date.zero, true, true⟩ 0 ⟨0, 0, 0⟩
          Reactor.plaintextRequest.length = .ok t ∧
        t.srv.rpsNow = 1 ∧ t.polled = some slice ∧ slice.bytes = Reactor.plaintextRequest := by
  have hparse : (Http.parseHttpMethodsPaths 50 (Reactor.bufferSlice oneReceived.srv
      (0 >>> 16 % 2 ^ 16) (Reactor.plaintextRequest.length : Int).toNat)).length = 1 := by
    decide +kernel
  have hreceived : (Reactor.bufferSlice oneReceived.srv 0 Reactor.plaintextRequest.length).bytes
      = Reactor.plaintextRequest := by
    decide +kernel
  obtain ⟨cache, hot, hreply⟩ := @Reactor.requestReply_eq oneReceived 0 ⟨0, 0, 0⟩
    Reactor.plaintextRequest.length SmallLake.build (by decide +kernel) (by decide) rfl
    ⟨0, Date.zero, true, true⟩
  -- Of the buffers only this one is released.
  rw [if_neg (by decide)] at hreply
  have hcount : ∀ lake, (oneReceived.answered (0 >>> 16 % 2 ^ 16) ⟨0, 0, 0⟩
      (Reactor.plaintextRequest.length : Int).toNat cache hot lake).srv.rpsNow = 1 := by
    intro lake
    rw [Reactor.answered, hparse]
    rfl
  have hfirst : Reactor.plaintextRequest = 71 :: Reactor.plaintextRequest.tail := by
    decide +kernel
  obtain ⟨slice, hpolled, hbytes⟩ := shift_then_trim.2 _ _ _ _ _ _ 71 _ hreply
    { dma := rfl, fits := by decide +kernel, last := by decide +kernel }
    (hreceived.trans hfirst) (by decide)
  exact ⟨shift_then_trim.1 _ 40 (List.length_replicate ..) (by decide), _, slice, hreply,
    hcount _, hpolled, hbytes.trans hreceived⟩

end Tachyon
