import Tachyon.Server

/-!
# `Tachyon.Proofs.Reply`: what the response loop computes

The scanner finds at most `N` starts, so `parse_http_methods_paths` gives at most `N`
requests (`length_parseHttpMethodsPaths_le`). A response has at most 224 bytes
(`length_response_le`). So 50 responses fit into the response cache, and the loop never
stops: it leaves the responses of all requests, one behind the other, at the start of the
cache (`replyLoop_eq`).
-/

set_option autoImplicit false

namespace Tachyon

/-! ### The number of requests -/

namespace Http

@[simp] theorem length_found_push (f : Found) (p : Nat) :
    (f.push p).found.length = f.found.length := by
  simp [Found.push]

section
variable {N : Nat} {P : Found → Prop} (hpush : ∀ f p, f.count < N → P f → P (f.push p))
include hpush

theorem popBits_induction (base rounds : Nat) (bits : BitVec 32) {f : Found} (h : P f) :
    P (popBits N base rounds bits f) := by
  induction rounds generalizing bits f with
  | zero => exact h
  | succ rounds ih =>
    unfold popBits
    split
    · rename_i hcond
      exact ih _ (hpush f _ hcond.2 h)
    · exact h

theorem scan64_induction (buf : Slice) (rounds i : Nat) {f : Found} (h : P f) :
    P (scan64 N buf rounds i f).2 := by
  induction rounds generalizing i f with
  | zero => exact h
  | succ rounds ih =>
    unfold scan64
    split
    · exact ih _ (popBits_induction hpush _ _ _ (popBits_induction hpush _ _ _ h))
    · exact h

theorem scan32_induction (buf : Slice) (rounds i : Nat) {f : Found} (h : P f) :
    P (scan32 N buf rounds i f).2 := by
  induction rounds generalizing i f with
  | zero => exact h
  | succ rounds ih =>
    unfold scan32
    split
    · exact ih _ (popBits_induction hpush _ _ _ h)
    · exact h

/-- What recording a position preserves, the scanner preserves. -/
theorem findRequestStartsAvx2_induction (buf : Slice) (h : P ⟨List.replicate N 0, 0⟩) :
    P (findRequestStartsAvx2 N buf) :=
  scan32_induction hpush buf _ _ (scan64_induction hpush buf _ _ h)

end

/-- The array of starts keeps its size. -/
theorem length_findRequestStartsAvx2 (N : Nat) (buf : Slice) :
    (findRequestStartsAvx2 N buf).found.length = N := by
  refine findRequestStartsAvx2_induction (P := fun f => f.found.length = N) ?_ buf ?_
  · intro f p _ h
    rw [length_found_push, h]
  · rw [List.length_replicate]

theorem length_parseStarts_le (buf : Slice) (starts : List Nat) :
    (parseStarts buf starts).length ≤ starts.length := by
  induction starts with
  | nil => exact Nat.le_refl _
  | cons start rest ih =>
    unfold parseStarts
    split
    · exact Nat.zero_le _
    · cases entryAt buf start with
      | none => exact Nat.le_trans ih (Nat.le_succ _)
      | some e => exact Nat.succ_le_succ ih

/-- At most `N` requests come out of one buffer. -/
theorem length_parseHttpMethodsPaths_le (N : Nat) (buf : Slice) :
    (parseHttpMethodsPaths N buf).length ≤ N := by
  have hlen := length_findRequestStartsAvx2 N buf
  refine Nat.le_trans (length_parseStarts_le _ _) ?_
  rw [List.length_take, hlen]
  exact Nat.min_le_right _ _

end Http

/-! ### One response -/

namespace Handler

/-- The sizes of the three responses: not found, plain text and JSON. -/
theorem length_response (date : Date) (method path : List UInt8) :
    (response date method path).length
      = if method = ascii "GET" ∧ path = ascii "/plaintext" then 204
        else if method = ascii "GET" ∧ path = ascii "/json" then 224 else 209 := by
  have hdate := date.length_eq
  simp only [response, pieces, route]
  split
  · simp only [List.length_flatten, List.map_cons, List.map_nil, List.sum_cons, List.sum_nil,
      hdate]
    decide +kernel
  · split
    · simp only [List.length_flatten, List.map_cons, List.map_nil, List.sum_cons, List.sum_nil,
        hdate]
      decide +kernel
    · simp only [List.length_flatten, List.map_cons, List.map_nil, List.sum_cons, List.sum_nil,
        hdate]
      decide +kernel

theorem length_response_le (date : Date) (method path : List UInt8) :
    (response date method path).length ≤ 224 := by
  rw [length_response]
  split
  · decide
  · split <;> decide

/-- Every write of the pieces fits. -/
def WritesFit {N : Nat} : List (List UInt8) → SmallLake N → Prop
  | [], _ => True
  | p :: ps, lake => lake.Fits p ∧ WritesFit ps (lake.write p)

/-- Pieces that the rest of the lake holds together are written one behind the other. -/
theorem writeAll_eq {N : Nat} (ps : List (List UInt8)) (lake : SmallLake N)
    (h : lake.Fits ps.flatten) :
    WritesFit ps lake ∧ (writeAll ps lake).asSlice = lake.asSlice ++ ps.flatten := by
  induction ps generalizing lake with
  | nil => exact ⟨trivial, by simp [writeAll]⟩
  | cons p ps ih =>
    rw [SmallLake.Fits, List.flatten_cons, List.length_append] at h
    have hfit : lake.Fits p := by
      rw [SmallLake.Fits]
      omega
    have hrest : (lake.write p).Fits ps.flatten := by
      rw [SmallLake.Fits, SmallLake.write_of_fits hfit]
      show lake.pos + p.length + ps.flatten.length ≤ N
      omega
    obtain ⟨hfits, hslice⟩ := ih _ hrest
    refine ⟨⟨hfit, hfits⟩, ?_⟩
    rw [writeAll, hslice, SmallLake.asSlice_write hfit, List.flatten_cons, List.append_assoc]

/-- `handler` fits its response into the 512 bytes, whatever the lake held before. -/
theorem handler_fits (method path : List UInt8) (date : Date) (lake : SmallLake 512) :
    lake.resetPos.Fits (pieces method path date).flatten := by
  have hle : (pieces method path date).flatten.length ≤ 224 := length_response_le date method path
  exact SmallLake.fits_of_len_eq_zero rfl (Nat.le_trans hle (by decide))

/-- What `handler` leaves in its lake. -/
theorem asSlice_handler (method path : List UInt8) (date : Date) (lake : SmallLake 512) :
    (handler method path date lake).asSlice = response date method path := by
  obtain ⟨_, hslice⟩ := writeAll_eq _ _ (handler_fits method path date lake)
  rw [handler, hslice, SmallLake.asSlice_resetPos, List.nil_append, response]

theorem len_handler (method path : List UInt8) (date : Date) (lake : SmallLake 512) :
    (handler method path date lake).len = (response date method path).length := by
  rw [← asSlice_handler method path date lake, SmallLake.length_asSlice, SmallLake.len]

end Handler

/-! ### The loop -/

/-- The responses to a list of requests, one behind the other. -/
def replies (date : Date) (buffer : Slice) (requests : List Http.RequestEntry) : List UInt8 :=
  (requests.map fun r =>
    Handler.response date (buffer.span r.1) (buffer.span r.2)).flatten

@[simp] theorem replies_nil (date : Date) (buffer : Slice) : replies date buffer [] = [] := rfl

@[simp] theorem replies_cons (date : Date) (buffer : Slice) (r : Http.RequestEntry)
    (rest : List Http.RequestEntry) :
    replies date buffer (r :: rest)
      = Handler.response date (buffer.span r.1) (buffer.span r.2)
        ++ replies date buffer rest := rfl

theorem length_replies_le (date : Date) (buffer : Slice) (requests : List Http.RequestEntry) :
    (replies date buffer requests).length ≤ requests.length * 224 := by
  induction requests with
  | nil => exact Nat.le_refl _
  | cons r rest ih =>
    have hle := Handler.length_response_le date (buffer.span r.1) (buffer.span r.2)
    rw [replies_cons, List.length_append, List.length_cons]
    omega

/-- The size of the responses does not depend on the date. -/
theorem length_replies_date (date date' : Date) (buffer : Slice)
    (requests : List Http.RequestEntry) :
    (replies date buffer requests).length = (replies date' buffer requests).length := by
  induction requests with
  | nil => rfl
  | cons r rest ih =>
    rw [replies_cons, replies_cons, List.length_append, List.length_append, ih,
      Handler.length_response, Handler.length_response]

namespace Reactor

/-- The loop from the offset `n` on, when the cache has room for the largest responses: the
bytes below `n` stay, and the responses follow them. -/
theorem replyLoop_from (date : Date) (buffer : Slice) (requests : List Http.RequestEntry)
    (cache : Mem) (lake : SmallLake 512) (n : Nat)
    (h : n + requests.length * 224 ≤ BUFFER_SIZE * 2) :
    ∃ cache' lake',
      replyLoop date buffer requests cache lake n
        = .ok (cache', lake', n + (replies date buffer requests).length) ∧
      cache'.read 0 (n + (replies date buffer requests).length)
        = cache.read 0 n ++ replies date buffer requests := by
  induction requests generalizing cache lake n with
  | nil => exact ⟨cache, lake, rfl, by simp⟩
  | cons r rest ih =>
    have hlen := Handler.len_handler (buffer.span r.1) (buffer.span r.2) date lake
    have hslice := Handler.asSlice_handler (buffer.span r.1) (buffer.span r.2) date lake
    have hle := Handler.length_response_le date (buffer.span r.1) (buffer.span r.2)
    generalize hhot : Handler.handler (buffer.span r.1) (buffer.span r.2) date lake = hot at *
    rw [List.length_cons] at h
    obtain ⟨cache', lake', hloop, hread⟩ :=
      ih (cache.write n hot.asSlice) hot (n + hot.len) (by omega)
    refine ⟨cache', lake', ?_, ?_⟩
    · rw [replyLoop, if_neg (by omega)]
      simp only [hhot]
      rw [hloop, replies_cons, List.length_append, hlen, Nat.add_assoc]
    · have happ := cache.read_write_append 0 n hot.asSlice
      rw [Nat.zero_add, SmallLake.length_asSlice] at happ
      rw [replies_cons, List.length_append, ← Nat.add_assoc, ← hlen, hread]
      show (cache.write n hot.asSlice).read 0 (n + hot.pos) ++ _ = _
      rw [happ, List.append_assoc, hslice]

/-- `request_reply` and `ubdma` run the loop over at most 50 requests from the start of the
cache. It never stops, and the slice they write out is the concatenation of the responses. -/
theorem replyLoop_eq (date : Date) (buffer : Slice) (cache : Mem) (lake : SmallLake 512) :
    ∃ cache' lake' n,
      replyLoop date buffer (Http.parseHttpMethodsPaths 50 buffer) cache lake 0
        = .ok (cache', lake', n) ∧
      cache'.read 0 n = replies date buffer (Http.parseHttpMethodsPaths 50 buffer) := by
  have hlen := Http.length_parseHttpMethodsPaths_le 50 buffer
  obtain ⟨cache', lake', hloop, hread⟩ :=
    replyLoop_from date buffer (Http.parseHttpMethodsPaths 50 buffer) cache lake 0 (by
      rw [BUFFER_SIZE]
      omega)
  exact ⟨cache', lake', _, hloop, by simpa using hread⟩

/-! ### `request_reply` -/

/-- The responses to the requests of a slice, as `request_reply` and `ubdma` write them out. -/
abbrev block (s : Reactor) (buffer : Slice) : List UInt8 :=
  replies s.srv.date buffer (Http.parseHttpMethodsPaths 50 buffer)

/-- A block has at most 50 responses of 224 bytes. -/
theorem length_block_le (s : Reactor) (buffer : Slice) : (s.block buffer).length ≤ 11200 := by
  have hcount := Http.length_parseHttpMethodsPaths_le 50 buffer
  have hle := length_replies_le s.srv.date buffer (Http.parseHttpMethodsPaths 50 buffer)
  rw [block]
  omega

/-- The state in which `request_reply` has written its responses and noted its buffer. -/
def answered (s : Reactor) (bufId : Nat) (user : UserData) (len : Nat) (cache : Mem)
    (hot : SmallLake 512) (lake : OutBuffer) : Reactor :=
  let buffer := bufferSlice s.srv bufId len
  let requests := Http.parseHttpMethodsPaths 50 buffer
  { s with
    srv := { s.srv with
      rpsNow := s.srv.rpsNow + requests.length
      clientOutBuffers := s.srv.clientOutBuffers.set user.clientId.toNat lake
      hotInternalCache := cache
      hotDataLake := hot
      syncNow := true
      currentKernelBuf := some bufId
      releasedBuffers := s.srv.releasedBuffers ++ [bufId]
      buffers := if s.srv.ubKernelDma then shiftBuffer s.srv.buffers bufId len else s.srv.buffers }
    log := s.log ++ [.received user.clientId.toNat buffer,
      .replied user.clientId.toNat (replies s.srv.date buffer requests)] }

/-- `request_reply` for a stored client. -/
theorem requestReply_eq {s : Reactor} {flags : Nat} {user : UserData} {result : Int}
    {lake : OutBuffer} (hlen : result ≤ BUFFER_SIZE)
    (hbuf : flags >>> 16 % 2 ^ 16 < BUFFERS_COUNT)
    (hget : s.srv.clientOutBuffers.get user.clientId.toNat = some lake)
    (inp : Input) : ∃ cache hot, s.requestReply inp flags user result
      = if s.srv.releasedBuffers.length + 1 = RELEASE_PART then
          (s.answered (flags >>> 16 % 2 ^ 16) user result.toNat cache hot
            (lake.write (s.block (bufferSlice s.srv (flags >>> 16 % 2 ^ 16) result.toNat)))
            ).releaseBuffers inp false
        else .ok (s.answered (flags >>> 16 % 2 ^ 16) user result.toNat cache hot
          (lake.write (s.block (bufferSlice s.srv (flags >>> 16 % 2 ^ 16) result.toNat)))) := by
  obtain ⟨cache, hot, n, hloop, hread⟩ := replyLoop_eq s.srv.date
    (bufferSlice s.srv (flags >>> 16 % 2 ^ 16) result.toNat) s.srv.hotInternalCache
    s.srv.hotDataLake
  refine ⟨cache, hot, ?_⟩
  unfold requestReply
  simp only [if_neg (not_lt.mpr hlen), if_neg (not_le.mpr hbuf), hloop, hread, hget,
    List.length_append, List.length_singleton]
  rfl

end Reactor

end Tachyon
