import Tachyon.Lib.HttpReader
import Tachyon.Proofs.Reply

/-!
# `Tachyon.Proofs.Framing`: the response stream and its reader

The block that `request_reply` leaves in `hot_internal_cache` has no marks between the responses.
A client finds the borders from the responses themselves. Each of the three responses is framed
(`framed_response`): the two digits behind `Content-Length` are the length of its body. This needs
a date field without line ends, since the date is one of the header lines (`Date.Formed`).

A write into `hot_data_lake` that does not fit starts over at its front, and a response that does
not fit into the rest of `hot_internal_cache` is copied past its end. `RoundsFit` says that no round
of the loop does either, and `roundsFit_from` proves it from the sizes of the responses.
`responses_framed` puts this together with `replyLoop_eq`.
-/

set_option autoImplicit false

namespace Tachyon

/-- `Date: ` and no line end. -/
def Date.Formed (date : Date) : Prop :=
  ∃ rest, date.bytes = ascii "Date: " ++ rest ∧ ∀ b ∈ rest, b ≠ 13 ∧ b ≠ 10

namespace Handler

open HttpReader

/-- The header lines of a response. Its status line and its content type bring their line ends
along. -/
def headLines (date : Date) (method path : List UInt8) : List (List UInt8) :=
  let (statusLine, ct, body) := route method path
  [statusLine.dropLast.dropLast, ct.dropLast.dropLast, date.bytes,
    LENGTH_KEY ++ numStrFixed2 body.length, ascii "Server: Tachyon",
    ascii "Connection: keep-alive", ascii "Keep-Alive: timeout=5, max=1000"]

/-- The three routes. -/
theorem route_cases (method path : List UInt8) :
    route method path = (STATUS_SUCCESS, CONTENT_TYPE_TEXT, ascii "Hello, World!") ∨
      route method path = (STATUS_SUCCESS, CONTENT_TYPE_JSON, jsonBody) ∨
      route method path = (STATUS_NOT_FOUND, CONTENT_TYPE_TEXT, ascii "Not, found!") := by
  unfold route
  split
  · exact .inl rfl
  · split
    · exact .inr (.inl rfl)
    · exact .inr (.inr rfl)

/-- A response is its header lines, a blank line and its body. -/
theorem response_eq_render (date : Date) (method path : List UInt8) :
    response date method path
      = render (headLines date method path) (route method path).2.2 := by
  -- The date is in the middle. What stands before it and after it is one of three constants.
  have hsplit : ∀ s ct body : List UInt8,
      s ++ ct = (s.dropLast.dropLast ++ CRLF) ++ (ct.dropLast.dropLast ++ CRLF) →
      ascii "\r\n" ++ ascii "Content-Length: " ++ numStrFixed2 body.length ++ ascii "\r\n"
          ++ BASE_HEADERS ++ body
        = CRLF ++ (LENGTH_KEY ++ numStrFixed2 body.length ++ CRLF)
          ++ (ascii "Server: Tachyon" ++ CRLF) ++ (ascii "Connection: keep-alive" ++ CRLF)
          ++ (ascii "Keep-Alive: timeout=5, max=1000" ++ CRLF) ++ CRLF ++ body →
      route method path = (s, ct, body) →
      response date method path = render (headLines date method path) body := by
    intro s ct body hbefore hafter hroute
    have hresponse : response date method path = (s ++ ct) ++ (date.bytes
        ++ (ascii "\r\n" ++ ascii "Content-Length: " ++ numStrFixed2 body.length ++ ascii "\r\n"
          ++ BASE_HEADERS ++ body)) := by
      simp [response, pieces, hroute]
    have hrender : render (headLines date method path) body
        = ((s.dropLast.dropLast ++ CRLF) ++ (ct.dropLast.dropLast ++ CRLF)) ++ (date.bytes
        ++ (CRLF ++ (LENGTH_KEY ++ numStrFixed2 body.length ++ CRLF)
          ++ (ascii "Server: Tachyon" ++ CRLF) ++ (ascii "Connection: keep-alive" ++ CRLF)
          ++ (ascii "Keep-Alive: timeout=5, max=1000" ++ CRLF) ++ CRLF ++ body)) := by
      simp [render, headLines, hroute]
    rw [hresponse, hrender, hbefore, hafter]
  rcases route_cases method path with h | h | h
  all_goals
    rw [hsplit _ _ _ (by decide +kernel) (by decide +kernel) h, h]

/-- The date is a line, and not the one with the length. -/
theorem line_of_formed {date : Date} (h : date.Formed) :
    (date.bytes ≠ [] ∧ 13 ∉ date.bytes) ∧ LENGTH_KEY.isPrefixOf date.bytes = false := by
  obtain ⟨rest, hbytes, hrest⟩ := h
  have hcons : ∃ tail, date.bytes = 68 :: tail := ⟨_, hbytes⟩
  obtain ⟨tail, htail⟩ := hcons
  refine ⟨⟨by rw [htail]; exact List.cons_ne_nil _ _, ?_⟩, by rw [htail]; rfl⟩
  rw [hbytes, List.mem_append, not_or]
  exact ⟨by decide, fun hcr => (hrest 13 hcr).1 rfl⟩

/-- A response is framed when its date is a line, and not the one with the length. -/
theorem framed_of_line {date : Date} (hline : date.bytes ≠ [] ∧ 13 ∉ date.bytes)
    (hkey : LENGTH_KEY.isPrefixOf date.bytes = false) (method path : List UInt8) :
    Framed (response date method path) := by
  refine ⟨headLines date method path, (route method path).2.2,
    response_eq_render date method path, ?_, ?_⟩
  · -- The date is the only line that is not a constant.
    have hconst : ∀ line ∈ headLines date method path,
        line = date.bytes ∨ line ≠ [] ∧ 13 ∉ line := by
      intro line hmem
      simp only [headLines] at hmem
      rcases route_cases method path with hr | hr | hr
      all_goals
        rw [hr] at hmem
        simp only [List.mem_cons, List.not_mem_nil, or_false] at hmem
        rcases hmem with rfl | rfl | rfl | rfl | rfl | rfl | rfl
        all_goals first | exact .inl rfl | exact .inr (by decide +kernel)
    intro line hmem
    rcases hconst line hmem with rfl | hok
    · exact hline
    · exact hok
  · -- The first two lines and the date have other keys.
    have hlen : ∀ s ct body : List UInt8, LENGTH_KEY.isPrefixOf s.dropLast.dropLast = false →
        LENGTH_KEY.isPrefixOf ct.dropLast.dropLast = false →
        readNat (numStrFixed2 body.length) = some body.length →
        route method path = (s, ct, body) →
        contentLength (headLines date method path) = some body.length := by
      intro s ct body hs hct hnum hroute
      have hprefix : LENGTH_KEY.isPrefixOf (LENGTH_KEY ++ numStrFixed2 body.length) = true := by
        rw [List.isPrefixOf_iff_prefix]
        exact List.prefix_append _ _
      have hvalue : (LENGTH_KEY ++ numStrFixed2 body.length).drop LENGTH_KEY.length
          = numStrFixed2 body.length := List.drop_left
      simp only [contentLength, headLines, hroute, List.findSome?_cons, hs, hct, hkey, hprefix,
        hvalue, hnum, if_true, Bool.false_eq_true, if_false]
    rcases route_cases method path with hr | hr | hr
    all_goals
      rw [hr]
      exact hlen _ _ _ (by decide +kernel) (by decide +kernel) (by decide +kernel) hr

/-- Every response is framed. -/
theorem framed_response {date : Date} (h : date.Formed) (method path : List UInt8) :
    Framed (response date method path) := by
  obtain ⟨hline, hkey⟩ := line_of_formed h
  exact framed_of_line hline hkey method path

end Handler

namespace Reactor

/-- In every round the pieces of the response fit into the lake, the offset is inside the cache, and
the response fits behind it. -/
def RoundsFit (date : Date) (buffer : Slice) :
    List Http.RequestEntry → SmallLake 512 → Nat → Prop
  | [], _, _ => True
  | request :: rest, lake, totalLen =>
    let method := buffer.span request.1
    let path := buffer.span request.2
    let hot := Handler.handler method path date lake
    (Handler.WritesFit (Handler.pieces method path date) lake.resetPos ∧
      totalLen ≤ BUFFER_SIZE * 2 ∧ totalLen + hot.len ≤ BUFFER_SIZE * 2) ∧
    RoundsFit date buffer rest hot (totalLen + hot.len)

/-- The rounds from the offset `n` on fit when the cache has room for the largest responses. -/
theorem roundsFit_from (date : Date) (buffer : Slice) (requests : List Http.RequestEntry)
    (lake : SmallLake 512) (n : Nat) (h : n + requests.length * 224 ≤ BUFFER_SIZE * 2) :
    RoundsFit date buffer requests lake n := by
  induction requests generalizing lake n with
  | nil => trivial
  | cons r rest ih =>
    have hlen := Handler.len_handler (buffer.span r.1) (buffer.span r.2) date lake
    have hle := Handler.length_response_le date (buffer.span r.1) (buffer.span r.2)
    rw [List.length_cons] at h
    obtain ⟨hfits, _⟩ :=
      Handler.writeAll_eq _ _ (Handler.handler_fits (buffer.span r.1) (buffer.span r.2) date lake)
    exact ⟨⟨hfits, by omega, by omega⟩, ih _ _ (by omega)⟩

/-- The responses to the entries of a buffer, in order. -/
def responses (date : Date) (buffer : Slice) : List (List UInt8) :=
  (Http.parseHttpMethodsPaths 50 buffer).map fun r =>
    Handler.response date (buffer.span r.1) (buffer.span r.2)

/-- For every received buffer the loop comes to its end, and every round of it stays inside the two
arrays. It leaves the responses to the entries, one behind the other, and a client splits the block
into these. -/
theorem responses_framed {date : Date} (h : date.Formed) (buffer : Slice) (cache : Mem)
    (lake : SmallLake 512) : RoundsFit date buffer (Http.parseHttpMethodsPaths 50 buffer) lake 0 ∧
    ∃ cache' lake' totalLen,
      replyLoop date buffer (Http.parseHttpMethodsPaths 50 buffer) cache lake 0
        = .ok (cache', lake', totalLen) ∧
      cache'.read 0 totalLen = (responses date buffer).flatten ∧
      HttpReader.readAll totalLen (cache'.read 0 totalLen) = some (responses date buffer) := by
  obtain ⟨cache', lake', n, hloop, hread⟩ := replyLoop_eq date buffer cache lake
  have hblock : cache'.read 0 n = (responses date buffer).flatten := hread
  have hframed : ∀ m ∈ responses date buffer, HttpReader.Framed m := by
    intro m hm
    obtain ⟨r, _, rfl⟩ := List.mem_map.mp hm
    exact Handler.framed_response h _ _
  have hrounds : (responses date buffer).length ≤ n := by
    have hle := HttpReader.length_le_flatten hframed
    rwa [← hblock, Mem.length_read] at hle
  have hcount := Http.length_parseHttpMethodsPaths_le 50 buffer
  have hroom : 0 + (Http.parseHttpMethodsPaths 50 buffer).length * 224 ≤ BUFFER_SIZE * 2 := by
    rw [BUFFER_SIZE]
    omega
  refine ⟨roundsFit_from date buffer _ lake 0 hroom, cache', lake', n, hloop, hblock, ?_⟩
  rw [hblock]
  exact HttpReader.readAll_flatten hframed hrounds

/-- A date as the clock crate formats it. -/
def someDate : Date := ⟨ascii "Date: Thu, 01 Jan 1970 00:00:00 GMT", by decide +kernel⟩

/-- Two requests, one behind the other. -/
def twoRequests : Slice :=
  let bytes := ascii "GET /plaintext HTTP/1.1\r\nHost: tachyon\r\n\r\n"
    ++ ascii "GET /json HTTP/1.1\r\nHost: tachyon\r\n\r\n"
  ⟨Mem.write (fun _ => 0) 0 bytes, bytes.length⟩

/-- The block for two requests. -/
theorem responses_framed_two : (responses someDate twoRequests).length = 2 ∧
    RoundsFit someDate twoRequests (Http.parseHttpMethodsPaths 50 twoRequests)
      SmallLake.build 0 ∧
    ∃ cache' lake' totalLen,
      replyLoop someDate twoRequests (Http.parseHttpMethodsPaths 50 twoRequests) (fun _ => 0)
        SmallLake.build 0 = .ok (cache', lake', totalLen) ∧
      cache'.read 0 totalLen = (responses someDate twoRequests).flatten ∧
      HttpReader.readAll totalLen (cache'.read 0 totalLen)
        = some (responses someDate twoRequests) := by
  have hformed : someDate.Formed :=
    ⟨ascii "Thu, 01 Jan 1970 00:00:00 GMT", by decide +kernel, by decide +kernel⟩
  exact ⟨by decide +kernel,
    responses_framed hformed twoRequests (fun _ => 0) SmallLake.build⟩

end Reactor

end Tachyon
