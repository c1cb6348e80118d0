import Tachyon.Proofs.Forward
import Tachyon.Proofs.Scan

/-!
# `Tachyon.Proofs.Pipeline`: pipelined requests in one buffer

A `Request` is a well-formed HTTP/1.1 request with method `GET` or `POST`. A client that
pipelines sends the bytes of several requests, one behind the other.

`request_reply` finds the requests by their first three bytes and cuts each one within 32 bytes.
`one_response_each_iff` says when this gives one response for each request, and none for
anything else: when every request has 32 received bytes from its start on and its request line
up to the target fits into them, when fewer than 50 starts come before each, and when no other
`GET` or `POS` among the first 50 starts looks like a request (`Clean`). It leaves buffers open
in which the scanner's block bound or the parser's shifted mask decides (`Unambiguous`).
-/

set_option autoImplicit false
set_option maxRecDepth 8000

namespace Tachyon

namespace Http

/-! ### Requests -/

inductive Method
  | get
  | post
  deriving DecidableEq, Repr

def Method.bytes : Method → List UInt8
  | .get => ascii "GET"
  | .post => ascii "POST"

def CRLF : List UInt8 := ascii "\r\n"

def contentLength (n : Nat) : List UInt8 := ascii s!"Content-Length: {n}"

/-- A well-formed request. -/
structure Request where
  method : Method
  target : List UInt8
  headers : List (List UInt8)
  body : List UInt8
  target_spaceFree : SP ∉ target
  headers_oneLine : ∀ h ∈ headers, h ≠ [] ∧ ∀ b ∈ CRLF, b ∉ h
  body_framed : body = [] ∨ contentLength body.length ∈ headers

namespace Request

/-- The request line, the header lines, the blank line and the body. -/
def bytes (r : Request) : List UInt8 :=
  r.method.bytes ++ [SP] ++ r.target ++ ascii " HTTP/1.1" ++ CRLF
    ++ (r.headers.map (· ++ CRLF)).flatten ++ CRLF ++ r.body

/-- The offset of the space behind the target. -/
def lineEnd (r : Request) : Nat := r.method.bytes.length + 1 + r.target.length

/-- The method and the target, for a request that begins at `p`. -/
def entry (p : Nat) (r : Request) : RequestEntry :=
  (⟨p, r.method.bytes.length⟩, ⟨p + (r.method.bytes.length + 1), r.target.length⟩)

end Request

/-- The bytes of a pipeline. -/
def pipeline (reqs : List Request) : List UInt8 := (reqs.map Request.bytes).flatten

/-- The requests with their starts, when the first one begins at `p`. -/
def placed : Nat → List Request → List (Nat × Request)
  | _, [] => []
  | p, r :: rest => (p, r) :: placed (p + r.bytes.length) rest

/-! ### Where the bytes of a pipeline are -/

/-- The bytes are in memory at an address. -/
def ReadsAt (ptr : Mem) (p : Nat) (bs : List UInt8) : Prop := ptr.read p bs.length = bs

theorem readsAt_append {ptr : Mem} {p : Nat} {bs bs' : List UInt8} :
    ReadsAt ptr p (bs ++ bs') ↔ ReadsAt ptr p bs ∧ ReadsAt ptr (p + bs.length) bs' := by
  rw [ReadsAt, List.length_append, Mem.read_add]
  constructor
  · intro h
    exact List.append_inj h (Mem.length_read _ _ _)
  · rintro ⟨h, h'⟩
    rw [ReadsAt] at h h'
    rw [h, h']

theorem ReadsAt.get {ptr : Mem} {p : Nat} {bs : List UInt8} (h : ReadsAt ptr p bs) {j : Nat}
    (hj : j < bs.length) : ptr (p + j) = bs[j] := by
  have hread := ptr.getElem?_read p hj
  rw [h, List.getElem?_eq_getElem hj] at hread
  exact (Option.some.inj hread).symm

/-- What the parser sees of a request in memory. -/
structure At (ptr : Mem) (p : Nat) (r : Request) : Prop where
  method : ReadsAt ptr p r.method.bytes
  space : ptr (p + r.method.bytes.length) = SP
  target : ReadsAt ptr (p + (r.method.bytes.length + 1)) r.target
  lineEnd : ptr (p + r.lineEnd) = SP

theorem at_of_readsAt {ptr : Mem} {p : Nat} {r : Request} (h : ReadsAt ptr p r.bytes) :
    At ptr p r := by
  simp only [Request.bytes, readsAt_append] at h
  obtain ⟨⟨⟨⟨⟨⟨⟨hmethod, hspace⟩, htarget⟩, hversion⟩, _⟩, _⟩, _⟩, _⟩ := h
  rw [List.length_append, List.length_singleton] at htarget
  refine ⟨hmethod, ?_, htarget, ?_⟩
  · exact hspace.get Nat.one_pos
  · have hfirst : 0 < (ascii " HTTP/1.1").length := by decide
    have hget := hversion.get hfirst
    rw [List.length_append, List.length_append, List.length_singleton] at hget
    exact hget

/-- Every request of a pipeline is where `placed` says. -/
theorem readsAt_of_mem_placed {ptr : Mem} {p : Nat} {reqs : List Request}
    (h : ReadsAt ptr p (pipeline reqs)) {q : Nat × Request} (hq : q ∈ placed p reqs) :
    ReadsAt ptr q.1 q.2.bytes := by
  induction reqs generalizing p with
  | nil => cases hq
  | cons r rest ih =>
    obtain ⟨hr, hrest⟩ := readsAt_append.mp h
    rcases List.mem_cons.mp hq with rfl | hq
    · exact hr
    · exact ih hrest hq

theorem map_snd_placed (p : Nat) (reqs : List Request) : (placed p reqs).map Prod.snd = reqs := by
  induction reqs generalizing p with
  | nil => rfl
  | cons r rest ih => exact congrArg (r :: ·) (ih _)

theorem length_bytes_pos (r : Request) : 0 < r.bytes.length := by
  simp only [Request.bytes, List.length_append, List.length_singleton]
  omega

theorem le_of_mem_placed {p : Nat} {reqs : List Request} {q : Nat × Request}
    (hq : q ∈ placed p reqs) : p ≤ q.1 := by
  induction reqs generalizing p with
  | nil => cases hq
  | cons r rest ih =>
    rcases List.mem_cons.mp hq with rfl | hq
    · exact le_refl _
    · exact Nat.le_trans (Nat.le_add_right _ _) (ih hq)

theorem pairwise_placed (p : Nat) (reqs : List Request) :
    ((placed p reqs).map Prod.fst).Pairwise (· < ·) := by
  induction reqs generalizing p with
  | nil => exact .nil
  | cons r rest ih =>
    refine List.Pairwise.cons (fun a ha => ?_) (ih _)
    obtain ⟨q, hq, rfl⟩ := List.mem_map.mp ha
    have hle := le_of_mem_placed hq
    have hpos := length_bytes_pos r
    show p < q.1
    omega

/-! ### One request -/

section
variable {buf : Slice} {p : Nat} {r : Request} (h : At buf.ptr p r)
include h

theorem At.isStart : IsStart buf.ptr p := by
  have hmethod := h.method
  cases hm : r.method with
  | get =>
    rw [hm] at hmethod
    exact .inl ⟨hmethod.get (j := 0) (by decide), hmethod.get (j := 1) (by decide),
      hmethod.get (j := 2) (by decide)⟩
  | post =>
    rw [hm] at hmethod
    exact .inr ⟨hmethod.get (j := 0) (by decide), hmethod.get (j := 1) (by decide),
      hmethod.get (j := 2) (by decide)⟩

/-- The request line up to the target has two spaces: behind the method, and behind the
target. -/
theorem At.space_iff {j : Nat} (hj : j ≤ r.lineEnd) :
    buf.ptr (p + j) = SP ↔ j = r.method.bytes.length ∨ j = r.lineEnd := by
  rcases Nat.lt_trichotomy j r.method.bytes.length with hlt | rfl | hgt
  · -- In the method.
    have hget := h.method.get hlt
    have hno : ∀ m : Method, SP ∉ m.bytes := by
      intro m
      cases m <;> decide
    refine iff_of_false (fun hsp => hno r.method ?_) (by
      simp only [Request.lineEnd] at hj ⊢
      omega)
    rw [← hsp, hget]
    exact List.getElem_mem hlt
  · exact iff_of_true h.space (.inl rfl)
  · rcases Nat.lt_or_ge j r.lineEnd with hlt | hge
    · -- In the target.
      have hk : j - (r.method.bytes.length + 1) < r.target.length := by
        simp only [Request.lineEnd] at hlt
        omega
      have hget := h.target.get hk
      rw [show p + (r.method.bytes.length + 1) + (j - (r.method.bytes.length + 1)) = p + j by
        omega] at hget
      refine iff_of_false (fun hsp => r.target_spaceFree ?_) (by omega)
      rw [← hsp, hget]
      exact List.getElem_mem hk
    · have heq : j = r.lineEnd := by omega
      subst heq
      exact iff_of_true h.lineEnd (.inr rfl)

omit h in
theorem method_lt_lineEnd (r : Request) : r.method.bytes.length < r.lineEnd := by
  simp only [Request.lineEnd]
  omega

omit h in
theorem length_method_le (r : Request) : r.method.bytes.length ≤ 4 := by
  cases r.method <;> decide

theorem At.firstSpace : FirstSpace (buf.ptr.shift p) r.method.bytes.length := by
  have hlt := method_lt_lineEnd r
  refine ⟨h.space, fun j hj hsp => ?_⟩
  rcases (h.space_iff (by omega)).mp hsp with heq | heq <;> omega

/-- A request whose line is short enough is cut right. -/
theorem At.entryAt_of_short (hshort : r.lineEnd < 32) : entryAt buf p = some (r.entry p) := by
  have hparse := parseOneManual_of_spaces h.firstSpace (method_lt_lineEnd r) hshort h.lineEnd
    fun j hj hj' hsp => by
      rcases (h.space_iff (by omega)).mp hsp with heq | heq <;> omega
  have hlen : r.lineEnd - (r.method.bytes.length + 1) = r.target.length := by
    simp only [Request.lineEnd]
    omega
  rw [hlen] at hparse
  rw [entryAt, hparse]
  rfl

/-- A request whose target does not end within 32 bytes is skipped. -/
theorem At.entryAt_of_long (hlong : ¬ r.lineEnd < 32) : entryAt buf p = none := by
  have hmethod := length_method_le r
  have honly : ∀ j, j < 32 → buf.ptr.shift p j = SP → j = r.method.bytes.length := by
    intro j hj hsp
    rcases (h.space_iff (by omega)).mp hsp with heq | heq
    · exact heq
    · omega
  rw [entryAt, parseOneManual_eq_none, Option.map_none]
  · rintro ⟨b, hb, a, hab, ha, hb'⟩
    have := honly a (by omega) ha
    have := honly b hb hb'
    omega
  · intro hedge
    exact hedge.2 _ (by omega) h.space

end

/-! ### All requests of a buffer -/

/-- The starts of the requests of a pipeline. -/
def requestStarts (reqs : List Request) : List Nat := (placed 0 reqs).map Prod.fst

/-- The requests are found, each at its start and with its method and target, and nothing
else is. -/
def FindsAll (reqs : List Request) (buf : Slice) : Prop :=
  parseHttpMethodsPaths 50 buf = (placed 0 reqs).map fun q => q.2.entry q.1

/-- Each request of the pipeline fits the windows of the scanner and the parser, and no other
start looks like a request. -/
structure Clean (reqs : List Request) (buf : Slice) : Prop where
  /-- 32 bytes from the start on were received. -/
  received : ∀ q ∈ placed 0 reqs, q.1 + 32 ≤ buf.len
  /-- The space behind the target is among them. -/
  short : ∀ q ∈ placed 0 reqs, q.2.lineEnd < 32
  /-- Fewer than 50 starts come before. -/
  early : ∀ q ∈ placed 0 reqs, (startsBelow buf.ptr q.1).length < 50
  /-- A start that is not a request has fewer than two spaces in its 32 bytes, unless the
  received bytes end before or 50 starts come first. -/
  strays : ∀ p, IsStart buf.ptr p → p ∉ requestStarts reqs → p + 32 ≤ buf.len →
    (startsBelow buf.ptr p).length < 50 → ¬ TwoSpaces (buf.ptr.shift p)

/-- The first 50 starts of the buffer stay clear of two oversights. The scanner asks for 34 bytes
behind a block where the parser asks for 32 behind a start, so it can leave out the last starts.
And the parser shifts its mask by 32 when the first space of a window is in its last byte. -/
structure Unambiguous (buf : Slice) : Prop where
  scanned : ∀ p, IsStart buf.ptr p → p + 32 ≤ buf.len → (startsBelow buf.ptr p).length < 50 →
    p < scanEnd buf.len
  edge : ∀ p, IsStart buf.ptr p → p + 32 ≤ buf.len → (startsBelow buf.ptr p).length < 50 →
    ¬ FirstSpace (buf.ptr.shift p) 31

/-- An entry has the start it was found at. -/
theorem start_of_entryAt {buf : Slice} {p : Nat} {e : RequestEntry}
    (h : entryAt buf p = some e) : e.1.start = p := by
  obtain ⟨⟨m, path, adv⟩, hparse, rfl⟩ := Option.map_eq_some_iff.mp h
  rw [parseOneManual_eq] at hparse
  split at hparse
  · cases hparse
  · unfold cutAt at hparse
    split at hparse
    · cases hparse
    · cases hparse
      rfl

section
variable {reqs : List Request} {buf : Slice} (hbuf : buf.bytes = pipeline reqs)
include hbuf

theorem len_of_pipeline : buf.len = (pipeline reqs).length := by
  rw [← hbuf, Slice.bytes, Mem.length_read]

theorem readsAt_of_pipeline {q : Nat × Request} (hq : q ∈ placed 0 reqs) :
    ReadsAt buf.ptr q.1 q.2.bytes := by
  refine readsAt_of_mem_placed ?_ hq
  rw [ReadsAt, ← len_of_pipeline hbuf, ← hbuf]
  rfl

theorem at_of_pipeline {q : Nat × Request} (hq : q ∈ placed 0 reqs) : At buf.ptr q.1 q.2 :=
  at_of_readsAt (readsAt_of_pipeline hbuf hq)

/-- In a clean buffer exactly the requests are found. -/
theorem findsAll_of_clean (hu : Unambiguous buf) (h : Clean reqs buf) : FindsAll reqs buf := by
  have hentry : ∀ q ∈ placed 0 reqs, entryAt buf q.1 = some (q.2.entry q.1) :=
    fun q hq => (at_of_pipeline hbuf hq).entryAt_of_short (h.short q hq)
  -- What is not a request is dropped.
  have hdrop : (admitted 50 buf).filterMap (entryAt buf)
      = ((admitted 50 buf).filter fun p => p ∈ requestStarts reqs).filterMap (entryAt buf) := by
    rw [List.filterMap_filter]
    refine List.filterMap_congr fun p hp => ?_
    obtain ⟨hstart, _, hlen, hearly⟩ := mem_admitted.mp hp
    by_cases hreq : p ∈ requestStarts reqs
    · rw [if_pos (by simpa using hreq)]
    · rw [if_neg (by simpa using hreq), entryAt,
        parseOneManual_eq_none (h.strays p hstart hreq hlen hearly) (hu.edge p hstart hlen hearly)]
      rfl
  -- Every request is admitted.
  have hkeep : ((admitted 50 buf).filter fun p => p ∈ requestStarts reqs) = requestStarts reqs := by
    refine List.Pairwise.eq_of_mem_iff ((pairwise_admitted 50 buf).filter _)
      (pairwise_placed 0 reqs) fun p => ?_
    rw [List.mem_filter, decide_eq_true_eq]
    refine ⟨fun hp => hp.2, fun hp => ⟨?_, hp⟩⟩
    obtain ⟨q, hq, rfl⟩ := List.mem_map.mp hp
    have hstart := (at_of_pipeline hbuf hq).isStart
    have hlen := h.received q hq
    have hearly := h.early q hq
    exact mem_admitted.mpr ⟨hstart, hu.scanned _ hstart hlen hearly, hlen, hearly⟩
  rw [FindsAll, parseHttpMethodsPaths_eq, hdrop, hkeep, requestStarts, List.filterMap_map,
    ← List.filterMap_eq_map]
  exact List.filterMap_congr fun q hq => hentry q hq

/-- When exactly the requests are found, the buffer is clean. -/
theorem clean_of_findsAll (hu : Unambiguous buf) (h : FindsAll reqs buf) : Clean reqs buf := by
  rw [FindsAll, parseHttpMethodsPaths_eq] at h
  -- A request is found at its own start.
  have hfound : ∀ q ∈ placed 0 reqs,
      q.1 ∈ admitted 50 buf ∧ entryAt buf q.1 = some (q.2.entry q.1) := by
    intro q hq
    have hmem : q.2.entry q.1 ∈ (admitted 50 buf).filterMap (entryAt buf) := by
      rw [h]
      exact List.mem_map_of_mem hq
    obtain ⟨p, hp, hentry⟩ := List.mem_filterMap.mp hmem
    have hstart : q.1 = p := start_of_entryAt hentry
    subst hstart
    exact ⟨hp, hentry⟩
  exact
    { received := fun q hq => (mem_admitted.mp (hfound q hq).1).2.2.1
      short := by
        intro q hq
        by_contra hlong
        have hnone := (at_of_pipeline hbuf hq).entryAt_of_long hlong
        rw [(hfound q hq).2] at hnone
        cases hnone
      early := fun q hq => (mem_admitted.mp (hfound q hq).1).2.2.2
      strays := by
        intro p hstart hreq hlen hearly htwo
        -- A stray with two spaces is cut, and its entry is none of the requests.
        have hadm : p ∈ admitted 50 buf :=
          mem_admitted.mpr ⟨hstart, hu.scanned p hstart hlen hearly, hlen, hearly⟩
        obtain ⟨e, he⟩ : ∃ e, entryAt buf p = some e := by
          obtain ⟨cut, hcut⟩ := Option.ne_none_iff_exists'.mp (parseOneManual_ne_none htwo)
          exact ⟨_, by rw [entryAt, hcut]; rfl⟩
        have hmem := List.mem_filterMap.mpr ⟨p, hadm, he⟩
        rw [h] at hmem
        obtain ⟨q, hq, rfl⟩ := List.mem_map.mp hmem
        have hsame : q.1 = p := start_of_entryAt he
        exact hreq (hsame ▸ List.mem_map_of_mem hq) }

/-- The responses to what is found are those to the requests. -/
theorem replies_of_findsAll (h : FindsAll reqs buf) (date : Date) :
    replies date buf (parseHttpMethodsPaths 50 buf)
      = (reqs.map fun r => Handler.response date r.method.bytes r.target).flatten := by
  have hspan : ∀ q ∈ placed 0 reqs, buf.span (q.2.entry q.1).1 = q.2.method.bytes ∧
      buf.span (q.2.entry q.1).2 = q.2.target :=
    fun q hq => ⟨(at_of_pipeline hbuf hq).method, (at_of_pipeline hbuf hq).target⟩
  rw [h, replies, List.map_map]
  conv_rhs => rw [← map_snd_placed 0 reqs, List.map_map]
  congr 1
  refine List.map_congr_left fun q hq => ?_
  obtain ⟨hmethod, htarget⟩ := hspan q hq
  show Handler.response date (buf.span (q.2.entry q.1).1) (buf.span (q.2.entry q.1).2) = _
  rw [hmethod, htarget]
  rfl

end

/-! ### A full pipeline -/

def hostLine : List UInt8 := ascii "Host: tachyon"

def plaintext : Request where
  method := .get
  target := ascii "/plaintext"
  headers := [hostLine]
  body := []
  target_spaceFree := by decide
  headers_oneLine := by decide
  body_framed := .inl rfl

def json : Request where
  method := .get
  target := ascii "/json"
  headers := [hostLine]
  body := []
  target_spaceFree := by decide
  headers_oneLine := by decide
  body_framed := .inl rfl

theorem mem_placed_replicate {p n : Nat} {r : Request} {q : Nat × Request} :
    q ∈ placed p (List.replicate n r) ↔ ∃ i, i < n ∧ q = (p + i * r.bytes.length, r) := by
  induction n generalizing p with
  | zero => simp [placed]
  | succ n ih =>
    rw [List.replicate_succ, placed, List.mem_cons, ih]
    constructor
    · rintro (rfl | ⟨i, hi, rfl⟩)
      · exact ⟨0, Nat.succ_pos n, by rw [Nat.zero_mul]; rfl⟩
      · refine ⟨i + 1, Nat.succ_lt_succ hi, ?_⟩
        rw [Nat.succ_mul, Nat.add_assoc, Nat.add_comm _ (r.bytes.length)]
    · rintro ⟨i, hi, rfl⟩
      cases i with
      | zero => exact .inl (by rw [Nat.zero_mul]; rfl)
      | succ i =>
        refine .inr ⟨i, Nat.lt_of_succ_lt_succ hi, ?_⟩
        rw [Nat.succ_mul, Nat.add_assoc, Nat.add_comm _ (r.bytes.length)]

theorem length_json : json.bytes.length = 37 := by decide +kernel

/-- `json` as many times as the parser takes. -/
def fifty : List Request := List.replicate 50 json

theorem length_pipeline_fifty : (pipeline fifty).length = 1850 := by
  rw [pipeline, fifty, List.map_replicate, List.length_flatten, List.map_replicate, length_json]
  rfl

section
variable {buf : Slice} (hbuf : buf.bytes = pipeline fifty)
include hbuf

theorem get_fifty {i j : Nat} (hi : i < 50) (hj : j < 37) :
    buf.ptr (37 * i + j) = json.bytes.getD j 0 := by
  have hlen : j < json.bytes.length := by rw [length_json]; exact hj
  have hq : (0 + i * json.bytes.length, json) ∈ placed 0 fifty :=
    mem_placed_replicate.mpr ⟨i, hi, rfl⟩
  have hget := (readsAt_of_pipeline hbuf hq).get hlen
  rw [length_json, Nat.zero_add, Nat.mul_comm] at hget
  rw [hget, List.getD_eq_getElem _ _ hlen]

/-- The only starts are those of the requests. -/
theorem dvd_of_isStart {p : Nat} (hp : p + 1 < 1850) (h : IsStart buf.ptr p) : p % 37 = 0 := by
  have hget : ∀ q, q < 1850 → buf.ptr q = json.bytes.getD (q % 37) 0 := by
    intro q hq
    have hread := get_fifty hbuf (i := q / 37) (j := q % 37) (by omega) (by omega)
    rwa [Nat.div_add_mod] at hread
  have hbytes : ∀ j, j < 37 →
      (json.bytes.getD j 0 = UInt8.ofNat 'G'.toNat
          ∧ json.bytes.getD ((j + 1) % 37) 0 = UInt8.ofNat 'E'.toNat ∨
        json.bytes.getD j 0 = UInt8.ofNat 'P'.toNat
          ∧ json.bytes.getD ((j + 1) % 37) 0 = UInt8.ofNat 'O'.toNat) → j = 0 := by
    decide +kernel
  refine hbytes (p % 37) (by omega) ?_
  rw [← hget p (by omega), show (p % 37 + 1) % 37 = (p + 1) % 37 by omega, ← hget (p + 1) hp]
  rcases h with ⟨hG, hE, _⟩ | ⟨hP, hO, _⟩
  · exact .inl ⟨hG, hE⟩
  · exact .inr ⟨hP, hO⟩

theorem findsAll_fifty : FindsAll fifty buf := by
  have hlen : buf.len = 1850 := (len_of_pipeline hbuf).trans length_pipeline_fifty
  have hstart : ∀ p, IsStart buf.ptr p → p + 32 ≤ buf.len →
      ∃ i, i < 50 ∧ p = 37 * i ∧ p ∈ requestStarts fifty := by
    intro p hs hle
    have hdvd := dvd_of_isStart hbuf (by omega) hs
    have hp : p = 37 * (p / 37) := by omega
    refine ⟨p / 37, by omega, hp, List.mem_map.mpr ⟨(p, json), ?_, rfl⟩⟩
    refine mem_placed_replicate.mpr ⟨p / 37, by omega, ?_⟩
    rw [length_json, Nat.zero_add, Nat.mul_comm, ← hp]
  have hu : Unambiguous buf := by
    constructor
    · intro p hs hle _
      obtain ⟨i, hi, rfl, _⟩ := hstart p hs hle
      rw [hlen, scanEnd]
      omega
    · intro p hs hle _ hedge
      obtain ⟨i, hi, rfl, _⟩ := hstart p hs hle
      exact hedge.2 3 (by decide) (get_fifty hbuf hi (by decide))
  -- At most 49 multiples of 37 come before the last request.
  have hearly : ∀ i, i < 50 → (startsBelow buf.ptr (37 * i)).length < 50 := by
    intro i hi
    have hsub : (startsBelow buf.ptr (37 * i)).length
        ≤ ((List.range (37 * i)).filter fun p => p % 37 = 0).length := by
      rw [startsBelow, ← List.countP_eq_length_filter, ← List.countP_eq_length_filter]
      refine List.countP_mono_left fun p hp hs => ?_
      have hlt := List.mem_range.mp hp
      simpa using dvd_of_isStart hbuf (by omega) (by simpa using hs)
    have hcount : ∀ i, i < 50 → ((List.range (37 * i)).filter fun p => p % 37 = 0).length < 50 := by
      decide +kernel
    exact Nat.lt_of_le_of_lt hsub (hcount i hi)
  refine findsAll_of_clean hbuf hu ⟨?_, ?_, ?_, ?_⟩
  · intro q hq
    obtain ⟨i, hi, rfl⟩ := mem_placed_replicate.mp hq
    rw [length_json, hlen]
    show 0 + i * 37 + 32 ≤ 1850
    omega
  · intro q hq
    obtain ⟨i, hi, rfl⟩ := mem_placed_replicate.mp hq
    show json.lineEnd < 32
    decide +kernel
  · intro q hq
    obtain ⟨i, hi, rfl⟩ := mem_placed_replicate.mp hq
    rw [length_json, Nat.zero_add, Nat.mul_comm]
    exact hearly i hi
  · intro p hs hreq hle
    obtain ⟨_, _, _, hmem⟩ := hstart p hs hle
    exact absurd hmem hreq

end

end Http

namespace Reactor

open Http

/-! ### `request_reply` on a pipeline -/

/-- The responses to a list of requests. -/
def responsesOf (date : Date) (reqs : List Request) : List UInt8 :=
  (reqs.map fun r => Handler.response date r.method.bytes r.target).flatten

/-- A pipeline is in the buffer of a data completion, and its client is stored with room for the
responses. -/
structure Receives (s : Reactor) (flags : Nat) (user : UserData) (result : Int)
    (reqs : List Request) (lake : OutBuffer) : Prop where
  bufId_lt : flags >>> 16 % 2 ^ 16 < BUFFERS_COUNT
  len_le : result ≤ BUFFER_SIZE
  bytes_eq : (bufferSlice s.srv (flags >>> 16 % 2 ^ 16) result.toNat).bytes = pipeline reqs
  stored : s.srv.clientOutBuffers.get user.clientId.toNat = some lake
  room : lake.Fits (responsesOf s.srv.date reqs)

/-- `request_reply` finds exactly the requests, and appends their responses, in order. At the
threshold it then hands the released buffers back. -/
def AnswersEach (s : Reactor) (inp : Input) (flags : Nat) (user : UserData) (result : Int)
    (reqs : List Request) (lake : OutBuffer) : Prop :=
  FindsAll reqs (bufferSlice s.srv (flags >>> 16 % 2 ^ 16) result.toNat) ∧
    ∃ t lake', t.srv.clientOutBuffers.get user.clientId.toNat = some lake' ∧
      lake'.asSlice = lake.asSlice ++ responsesOf s.srv.date reqs ∧
      s.requestReply inp flags user result
        = if s.srv.releasedBuffers.length + 1 = RELEASE_PART then t.releaseBuffers inp false
          else .ok t

/-- Handing buffers back leaves the output buffers. -/
theorem lakes_releaseBuffers {s t : Reactor} {inp : Input} {idle : Bool}
    (h : s.releaseBuffers inp idle = .ok t) :
    t.srv.clientOutBuffers = s.srv.clientOutBuffers := by
  rcases releaseBuffers_cases h with ⟨_, rfl⟩ | ⟨_, rfl⟩
  · rfl
  · exact congrArg Server.clientOutBuffers (srv_submitAll s)

/-- In whatever state `request_reply` returns, the responses are appended. -/
theorem AnswersEach.appended {s u : Reactor} {inp : Input} {flags : Nat} {user : UserData}
    {result : Int} {reqs : List Request} {lake : OutBuffer}
    (h : s.AnswersEach inp flags user result reqs lake)
    (hu : s.requestReply inp flags user result = .ok u) :
    ∃ lake', u.srv.clientOutBuffers.get user.clientId.toNat = some lake' ∧
      lake'.asSlice = lake.asSlice ++ responsesOf s.srv.date reqs := by
  obtain ⟨_, t, lake', hget, hslice, heq⟩ := h
  refine ⟨lake', ?_, hslice⟩
  rw [heq] at hu
  split at hu
  · rw [lakes_releaseBuffers hu]
    exact hget
  · cases hu
    exact hget

/-- One response for each request of a pipeline, and none for anything else, exactly when the
buffer is clean. -/
theorem one_response_each_iff {s : Reactor} {flags : Nat} {user : UserData} {result : Int}
    {reqs : List Request} {lake : OutBuffer} (h : s.Receives flags user result reqs lake)
    (hu : Unambiguous (bufferSlice s.srv (flags >>> 16 % 2 ^ 16) result.toNat)) (inp : Input) :
    s.AnswersEach inp flags user result reqs lake ↔
      Clean reqs (bufferSlice s.srv (flags >>> 16 % 2 ^ 16) result.toNat) := by
  constructor
  · rintro ⟨hfinds, _⟩
    exact clean_of_findsAll h.bytes_eq hu hfinds
  · intro hclean
    have hfinds := findsAll_of_clean h.bytes_eq hu hclean
    have hblock : s.block (bufferSlice s.srv (flags >>> 16 % 2 ^ 16) result.toNat)
        = responsesOf s.srv.date reqs := replies_of_findsAll h.bytes_eq hfinds _
    obtain ⟨cache, hot, heq⟩ := requestReply_eq h.len_le h.bufId_lt h.stored inp
    rw [hblock] at heq
    refine ⟨hfinds, _, lake.write (responsesOf s.srv.date reqs), ?_,
      SmallLake.asSlice_write h.room, heq⟩
    show (s.srv.clientOutBuffers.set _ _).get _ = _
    rw [ExternStableVec.get_set, h.stored]
    simp

/-! ### Two pipelines -/

/-- The server with one client, and `data` in its first buffer. -/
def holding (data : List UInt8) : Reactor := { ready with
  srv := { ready.srv with
    buffers := Mem.write (fun _ => 0) 0 data
    clientOutBuffers := (ExternStableVec.insert (.withCapacity 65535) 100 SmallLake.build).getD
      (.withCapacity 65535) } }

theorem bytes_holding (data : List UInt8) :
    (bufferSlice (holding data).srv (cqeFlags 0 true >>> 16 % 2 ^ 16) data.length).bytes
      = data := by
  rw [show cqeFlags 0 true >>> 16 % 2 ^ 16 = 0 by decide]
  show Mem.read (Mem.shift (Mem.write (fun _ => 0) 0 data) 0) 0 data.length = data
  rw [Mem.read_shift]
  exact Mem.read_write_self _ _ _

theorem receives_holding {reqs : List Request} (h : (pipeline reqs).length ≤ BUFFER_SIZE)
    (hroom : (SmallLake.build : OutBuffer).Fits (responsesOf Date.zero reqs)) :
    (holding (pipeline reqs)).Receives (cqeFlags 0 true) (clientData 100 INIT_REQUEST)
      (pipeline reqs).length reqs SmallLake.build where
  bufId_lt := by decide
  len_le := Int.ofNat_le.mpr h
  bytes_eq := bytes_holding _
  stored := rfl
  room := hroom

/-- Two requests in one buffer are both answered. -/
theorem one_response_each_two : (holding (pipeline [plaintext, json])).AnswersEach calm
    (cqeFlags 0 true) (clientData 100 INIT_REQUEST) (pipeline [plaintext, json]).length
    [plaintext, json] SmallLake.build := by
  let buf := bufferSlice (holding (pipeline [plaintext, json])).srv 0 79
  have hlen : (pipeline [plaintext, json]).length = 79 := by decide +kernel
  -- The only two starts with 32 bytes behind them are those of the requests.
  have hstarts : ∀ p, p < 48 → IsStart buf.ptr p → p ∈ requestStarts [plaintext, json] := by
    decide +kernel
  have hstart : ∀ p, IsStart buf.ptr p → p + 32 ≤ buf.len → p ∈ requestStarts [plaintext, json] :=
    fun p hs hle => hstarts p (Nat.lt_of_add_lt_add_right (Nat.lt_succ_of_le hle)) hs
  have hu : Unambiguous buf := by
    constructor
    · intro p hs hle _
      have hall : ∀ q ∈ requestStarts [plaintext, json], q < scanEnd buf.len := by decide +kernel
      exact hall p (hstart p hs hle)
    · intro p hs hle _
      have hall : ∀ q ∈ requestStarts [plaintext, json], ¬ FirstSpace (buf.ptr.shift q) 31 := by
        decide +kernel
      exact hall p (hstart p hs hle)
  have hclean : Clean [plaintext, json] buf :=
    ⟨by decide +kernel, by decide +kernel, by decide +kernel,
      fun p hs hreq hle => absurd (hstart p hs hle) hreq⟩
  have hsize : (pipeline [plaintext, json]).length ≤ BUFFER_SIZE := by
    rw [hlen]
    decide
  have hreceives := receives_holding hsize (by decide +kernel)
  exact (one_response_each_iff hreceives hu calm).mpr hclean

/-- `GET / HTTP/1.1` and a blank line. -/
def shortest : Request where
  method := .get
  target := ascii "/"
  headers := []
  body := []
  target_spaceFree := by decide
  headers_oneLine := by decide
  body_framed := .inl rfl

/-- The shortest request is 18 bytes long, and gets no response. -/
theorem not_one_response_each : ¬ ∀ (s : Reactor) (inp : Input) (flags : Nat) (user : UserData)
    (result : Int) (reqs : List Request) (lake : OutBuffer),
    s.Receives flags user result reqs lake →
      s.AnswersEach inp flags user result reqs lake := by
  intro hall
  have hsize : (pipeline [shortest]).length ≤ BUFFER_SIZE := by decide +kernel
  have hreceives := receives_holding hsize (by decide +kernel)
  obtain ⟨hfinds, _⟩ := hall _ calm _ _ _ [shortest] _ hreceives
  rw [FindsAll, parseHttpMethodsPaths_eq] at hfinds
  -- With 18 bytes no block is scanned.
  have hend : scanEnd (pipeline [shortest]).length = 0 := by decide +kernel
  have hnil : admitted 50 (bufferSlice (holding (pipeline [shortest])).srv
      (cqeFlags 0 true >>> 16 % 2 ^ 16) ((pipeline [shortest]).length : Int).toNat) = [] := by
    rw [List.eq_nil_iff_forall_not_mem]
    intro p hp
    have hlt : p < scanEnd (pipeline [shortest]).length := (mem_admitted.mp hp).2.1
    rw [hend] at hlt
    exact Nat.not_lt_zero _ hlt
  rw [hnil] at hfinds
  cases hfinds

end Reactor

end Tachyon
