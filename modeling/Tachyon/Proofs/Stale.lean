import Tachyon.Proofs.Pipeline
import Tachyon.Proofs.Windows

/-!
# `Tachyon.Proofs.Stale`: left-over bytes in the receive buffers

A receive buffer keeps the bytes of earlier requests behind the received ones, and the vector
loads and the raw pointers of the parser do not know where the received bytes end. Two states
that differ in such bytes only are `Alike`. `request_reply` leads from alike states to alike
states (`stale_bytes_ignored`), so it appends the same responses in both.

One slice that the parser builds can leave the received bytes: when the only space of a window is
its last byte, the path begins behind the window. The method then has 31 bytes, and `handler`
does not look at the path (`route_of_ne`).
-/

set_option autoImplicit false

namespace Tachyon

namespace Http

/-! ### The parser -/

theorem spaceMask_congr {ptr ptr' : Mem} (h : ∀ i, i < 32 → ptr i = ptr' i) :
    spaceMask ptr = spaceMask ptr' := by
  refine BitVec.eq_of_getLsbD_eq fun i hi => ?_
  rw [getLsbD_spaceMask ptr hi, getLsbD_spaceMask ptr' hi, h i hi]

/-- The parser looks at the 32 bytes of its window. -/
theorem parseOneManual_congr {ptr ptr' : Mem} (h : ∀ i, i < 32 → ptr i = ptr' i) :
    parseOneManual ptr = parseOneManual ptr' := by
  rw [parseOneManual_eq, parseOneManual_eq, cutAt, cutAt, spaceMask_congr h]

/-- `handler` does not look at a path behind a method that is not `GET`. -/
theorem route_of_ne {method path : List UInt8} (h : method ≠ ascii "GET") :
    Handler.route method path
      = (Handler.STATUS_NOT_FOUND, Handler.CONTENT_TYPE_TEXT, ascii "Not, found!") := by
  simp [Handler.route, h]

section
variable {buf buf' : Slice}
  (hbytes : ∀ i, i < buf.len → buf.ptr i = buf'.ptr i)
include hbytes

theorem entryAt_congr {p : Nat} (hp : p + 32 ≤ buf.len) : entryAt buf p = entryAt buf' p := by
  have hwindow : ∀ i, i < 32 → buf.ptr.shift p i = buf'.ptr.shift p i := by
    intro i hi
    exact hbytes (p + i) (by omega)
  rw [entryAt, entryAt, parseOneManual_congr hwindow]

theorem span_congr {r : Span} (hr : r.start + r.len ≤ buf.len) : buf.span r = buf'.span r :=
  Mem.read_congr fun i hi => hbytes (r.start + i) (by omega)

/-- The entries are those of the received bytes. -/
theorem parseHttpMethodsPaths_congr (N : Nat) (hlen : buf.len = buf'.len) :
    parseHttpMethodsPaths N buf = parseHttpMethodsPaths N buf' := by
  rw [parseHttpMethodsPaths_eq, parseHttpMethodsPaths_eq, ← admitted_congr hlen hbytes]
  exact List.filterMap_congr fun p hp => entryAt_congr hbytes (mem_admitted.mp hp).2.2.1

/-- A parsed entry is routed by received bytes. -/
theorem route_congr {p : Nat} (hp : p + 32 ≤ buf.len) {r : RequestEntry}
    (hr : entryAt buf p = some r) :
    Handler.route (buf.span r.1) (buf.span r.2)
      = Handler.route (buf'.span r.1) (buf'.span r.2) := by
  obtain ⟨⟨m, q, adv⟩, hparse, rfl⟩ := Option.map_eq_some_iff.mp hr
  obtain ⟨hstart, hmlen, hpath⟩ := parseOneManual_bounds hparse
  have hmethod : buf.span ⟨p + m.start, m.len⟩ = buf'.span ⟨p + m.start, m.len⟩ := by
    refine span_congr hbytes ?_
    show p + m.start + m.len ≤ buf.len
    omega
  show Handler.route (buf.span ⟨p + m.start, m.len⟩) (buf.span ⟨p + q.start, q.len⟩)
    = Handler.route (buf'.span ⟨p + m.start, m.len⟩) (buf'.span ⟨p + q.start, q.len⟩)
  by_cases hshort : m.len < 31
  · have hin := hpath hshort
    have htarget : buf.span ⟨p + q.start, q.len⟩ = buf'.span ⟨p + q.start, q.len⟩ := by
      refine span_congr hbytes ?_
      show p + q.start + q.len ≤ buf.len
      omega
    rw [hmethod, htarget]
  · -- The method is too long to be `GET`, wherever the path lies.
    have hne : buf'.span ⟨p + m.start, m.len⟩ ≠ ascii "GET" := by
      intro hget
      have hlen : m.len = (ascii "GET").length := by
        rw [← hget]
        exact (Mem.length_read _ _ _).symm
      have hthree : (ascii "GET").length = 3 := by decide
      omega
    rw [hmethod, route_of_ne hne, route_of_ne hne]

end

end Http

namespace Handler

/-- A response is made from its route. -/
theorem handler_congr {method path method' path' : List UInt8}
    (h : route method path = route method' path') (date : Date) (lake : SmallLake 512) :
    handler method path date lake = handler method' path' date lake := by
  simp only [handler, pieces, h]

end Handler

namespace Reactor

/-! ### Two states -/

theorem replyLoop_congr {buf buf' : Slice} {requests : List Http.RequestEntry}
    (h : ∀ r ∈ requests, Handler.route (buf.span r.1) (buf.span r.2)
      = Handler.route (buf'.span r.1) (buf'.span r.2))
    (date : Date) (cache : Mem) (lake : SmallLake 512) (n : Nat) :
    replyLoop date buf requests cache lake n = replyLoop date buf' requests cache lake n := by
  induction requests generalizing cache lake n with
  | nil => rfl
  | cons r rest ih =>
    obtain ⟨hr, hrest⟩ := List.forall_mem_cons.mp h
    rw [replyLoop, replyLoop, Handler.handler_congr hr]
    by_cases hn : n > BUFFER_SIZE * 2
    · rw [if_pos hn, if_pos hn]
    · rw [if_neg hn, if_neg hn]
      exact ih hrest _ _ _

/-- The response loop over the entries of a buffer sees its received bytes only. -/
theorem replyLoop_parsed_congr {buf buf' : Slice}
    (hbytes : ∀ i, i < buf.len → buf.ptr i = buf'.ptr i) (hlen : buf.len = buf'.len)
    (date : Date) (cache : Mem) (lake : SmallLake 512) (n : Nat) :
    replyLoop date buf (Http.parseHttpMethodsPaths 50 buf) cache lake n
      = replyLoop date buf' (Http.parseHttpMethodsPaths 50 buf') cache lake n := by
  rw [← Http.parseHttpMethodsPaths_congr hbytes 50 hlen]
  refine replyLoop_congr (fun r hr => ?_) _ _ _ _
  rw [Http.parseHttpMethodsPaths_eq] at hr
  obtain ⟨p, hp, hentry⟩ := List.mem_filterMap.mp hr
  exact Http.route_congr hbytes (Http.mem_admitted.mp hp).2.2.1 hentry

/-- The states agree in everything but the receive buffers. The log, which no function reads,
holds the slices of the buffers and is left out too. -/
structure Alike (s s' : Reactor) : Prop where
  srv_eq : s'.srv = { s.srv with buffers := s'.srv.buffers }
  sq_eq : s'.sq = s.sq
  cq_eq : s'.cq = s.cq
  kern_eq : s'.kern = s.kern
  pc_eq : s'.pc = s.pc

/-- Both calls stop for the same reason, or both lead on to alike states. -/
inductive SameOutcome : Except Stop Reactor → Except Stop Reactor → Prop
  | ok {t t' : Reactor} : Alike t t' → SameOutcome (.ok t) (.ok t')
  | error (why : Stop) : SameOutcome (.error why) (.error why)

theorem Alike.eq {s s' : Reactor} (h : Alike s s') : s' = { s with
    srv := { s.srv with buffers := s'.srv.buffers }, log := s'.log } := by
  obtain ⟨hsrv, hsq, hcq, hkern, hpc⟩ := h
  rw [← hsrv, ← hsq, ← hcq, ← hkern, ← hpc]

theorem Alike.releaseBuffers {s s' : Reactor} (h : Alike s s') (inp : Input) (idle : Bool) :
    SameOutcome (s.releaseBuffers inp idle) (s'.releaseBuffers inp idle) := by
  obtain ⟨mem, log, rfl⟩ : ∃ mem log,
      s' = { s with srv := { s.srv with buffers := mem }, log := log } := ⟨_, _, h.eq⟩
  unfold Reactor.releaseBuffers
  simp only
  split
  · exact .ok ⟨rfl, rfl, rfl, rfl, rfl⟩
  · split
    · exact .error _
    · split
      · exact .error _
      · unfold submitAll
        simp only
        split <;> exact .ok ⟨rfl, rfl, rfl, rfl, rfl⟩

/-- Two states that differ in buffer bytes outside the received ones get the same responses, and
the same changes otherwise. -/
theorem stale_bytes_ignored {s s' : Reactor} (h : Alike s s') {flags : Nat} {result : Int}
    (hbytes : ∀ i, i < result.toNat →
      s'.srv.buffers (flags >>> 16 % 2 ^ 16 * BUFFER_SIZE + i)
        = s.srv.buffers (flags >>> 16 % 2 ^ 16 * BUFFER_SIZE + i))
    (inp : Input) (user : UserData) :
    SameOutcome (s.requestReply inp flags user result) (s'.requestReply inp flags user result) := by
  obtain ⟨mem, log, rfl⟩ : ∃ mem log,
      s' = { s with srv := { s.srv with buffers := mem }, log := log } := ⟨_, _, h.eq⟩
  let buf := bufferSlice s.srv (flags >>> 16 % 2 ^ 16) result.toNat
  let buf' := bufferSlice { s.srv with buffers := mem } (flags >>> 16 % 2 ^ 16) result.toNat
  have hagree : ∀ i, i < buf.len → buf.ptr i = buf'.ptr i := fun i hi => (hbytes i hi).symm
  have hparse : Http.parseHttpMethodsPaths 50 buf = Http.parseHttpMethodsPaths 50 buf' :=
    Http.parseHttpMethodsPaths_congr hagree 50 rfl
  have hloop := replyLoop_parsed_congr hagree rfl s.srv.date s.srv.hotInternalCache
    s.srv.hotDataLake 0
  unfold requestReply
  by_cases hbig : result > BUFFER_SIZE
  · rw [if_pos hbig, if_pos hbig]
    exact .ok h
  rw [if_neg hbig, if_neg hbig]
  by_cases hid : flags >>> 16 % 2 ^ 16 ≥ BUFFERS_COUNT
  · rw [if_pos hid, if_pos hid]
    exact .error _
  rw [if_neg hid, if_neg hid]
  simp only
  unfold buf buf' at hparse hloop
  rw [← hloop, ← hparse]
  -- From here on both calls do the same, and the buffers stay apart.
  cases replyLoop s.srv.date (bufferSlice s.srv (flags >>> 16 % 2 ^ 16) result.toNat)
      (Http.parseHttpMethodsPaths 50 (bufferSlice s.srv (flags >>> 16 % 2 ^ 16) result.toNat))
      s.srv.hotInternalCache s.srv.hotDataLake 0 with
  | error why => exact .error why
  | ok r =>
    simp only
    cases s.srv.clientOutBuffers.get user.clientId.toNat with
    | none => exact .error _
    | some lake =>
      simp only
      split
      · refine Alike.releaseBuffers ?_ inp false
        exact ⟨rfl, rfl, rfl, rfl, rfl⟩
      · exact .ok ⟨rfl, rfl, rfl, rfl, rfl⟩

/-- The server with client 100, and the end of an older request behind `data`. -/
def holdingStale (data : List UInt8) : Reactor := { holding data with
  srv := { (holding data).srv with
    buffers := (holding data).srv.buffers.write data.length (ascii "GET /json HTTP/1.1") } }

/-- The request is answered as if the buffer were clean. -/
theorem stale_bytes_ignored_first : SameOutcome
    ((holding plaintextRequest).requestReply calm (cqeFlags 0 true) (clientData 100 INIT_REQUEST)
      plaintextRequest.length)
    ((holdingStale plaintextRequest).requestReply calm (cqeFlags 0 true)
      (clientData 100 INIT_REQUEST) plaintextRequest.length) := by
  have halike : Alike (holding plaintextRequest) (holdingStale plaintextRequest) :=
    ⟨rfl, rfl, rfl, rfl, rfl⟩
  refine stale_bytes_ignored halike (fun i hi => ?_) calm _
  have hlt : i < plaintextRequest.length := hi
  have hzero : cqeFlags 0 true >>> 16 % 2 ^ 16 * BUFFER_SIZE + i = i := by
    rw [show cqeFlags 0 true >>> 16 % 2 ^ 16 = 0 by decide]
    omega
  rw [hzero]
  exact Mem.write_of_outside _ _ (Or.inl hlt)

end Reactor

end Tachyon
