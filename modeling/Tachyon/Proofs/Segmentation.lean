import Tachyon.Lib.PrefixFree
import Tachyon.Proofs.Stale

/-!
# `Tachyon.Proofs.Segmentation`: one stream in different pieces

A client's bytes arrive in pieces, one for each `recv` completion, and `request_reply` parses each
piece on its own. A `Session` is a sequence of such calls, with the output buffer flushed before
each.

A piece shows a start (`Shown`) when the 32 bytes from it on are in the piece and fewer than 50
starts of the piece come before. `asked` lists what the shown starts ask for. A cutting is clear
(`ClearCut`) when no shown start meets one of two oversights of the code: the scanner leaves out
the end of a piece, because it asks for 34 bytes where the parser asks for 32, and the parser
shifts its mask by 32 when the first space of a window is its last byte. What the code does with
those is left open here.

The output of a session over a clear cutting is the responses to what is asked (`Session.out_eq`).
The three responses do not begin one another, so two clear cuttings of a stream get the same output
exactly when the same is asked for in both. A cut inside a request can take it away: then no piece
shows it. When no other start looks like a request, the output is the responses to the requests
that the cutting keeps whole (`kept`). So a cutting is harmless when it keeps every request whole
(`same_output_iff`).
-/

set_option autoImplicit false
set_option maxRecDepth 8000

namespace Tachyon

/-! ### The three routes -/

/-- What a request asks for. -/
inductive Route
  | plaintext
  | json
  | notFound
  deriving DecidableEq, Repr

namespace Route

open Handler

def of (method path : List UInt8) : Route :=
  if method = ascii "GET" ∧ path = ascii "/plaintext" then .plaintext
  else if method = ascii "GET" ∧ path = ascii "/json" then .json
  else .notFound

/-- Status line, content type and body. -/
def parts : Route → List UInt8 × List UInt8 × List UInt8
  | .plaintext => (STATUS_SUCCESS, CONTENT_TYPE_TEXT, ascii "Hello, World!")
  | .json => (STATUS_SUCCESS, CONTENT_TYPE_JSON, jsonBody)
  | .notFound => (STATUS_NOT_FOUND, CONTENT_TYPE_TEXT, ascii "Not, found!")

/-- What stands before the date. -/
def front (r : Route) : List UInt8 := r.parts.1 ++ r.parts.2.1

/-- What stands behind the date. -/
def back (r : Route) : List UInt8 :=
  ascii "\r\n" ++ ascii "Content-Length: " ++ numStrFixed2 r.parts.2.2.length ++ ascii "\r\n"
    ++ BASE_HEADERS ++ r.parts.2.2

def response (date : Date) (r : Route) : List UInt8 := r.front ++ (date.bytes ++ r.back)

theorem route_eq (method path : List UInt8) : route method path = (of method path).parts := by
  unfold route of
  split
  · rfl
  · split <;> rfl

theorem response_eq (date : Date) (method path : List UInt8) :
    Handler.response date method path = (of method path).response date := by
  rw [Handler.response, pieces, route_eq]
  simp [response, front, back]

/-- The responses differ within their first 40 bytes. -/
theorem prefixFree_response (date : Date) : PrefixFree (response date) where
  ne_nil r := by
    cases r <;> exact List.append_ne_nil_of_left_ne_nil (by decide +kernel) _
  eq_of_prefix r r' h := by
    have hlong : ∀ r : Route, 40 ≤ r.front.length := by
      intro r
      cases r <;> decide +kernel
    have htake : ∀ (r : Route) rest, (r.response date ++ rest).take 40 = r.front.take 40 := by
      intro r rest
      rw [response, List.append_assoc, List.take_append_of_le_length (hlong r)]
    have hfront : ∀ r r' : Route, r.front.take 40 = r'.front.take 40 → r = r' := by
      intro r r' heq
      cases r <;> cases r' <;> first | rfl | exact absurd heq (by decide +kernel)
    obtain ⟨rest, hrest⟩ := h
    have heq := htake r' []
    rw [List.append_nil, ← hrest, htake r rest] at heq
    exact hfront r r' heq

end Route

/-! ### What a window asks for -/

namespace Http

/-- The spaces of a window, in order. -/
def spaces (ptr : Mem) : List Nat := (List.range 32).filter fun j => ptr j = SP

theorem mem_spaces {ptr : Mem} {j : Nat} : j ∈ spaces ptr ↔ j < 32 ∧ ptr j = SP := by
  simp [spaces]

/-- The first two spaces of a window. -/
def firstSpaces (ptr : Mem) : Option (Nat × Nat) :=
  (spaces ptr)[0]?.bind fun a => (spaces ptr)[1]?.map fun b => (a, b)

/-- What the 32 bytes at a position ask for: the method stands before the first space and the path
before the second. Nothing is asked for without two spaces. -/
def routeAt (ptr : Mem) (p : Nat) : Option Route :=
  (firstSpaces (ptr.shift p)).map fun ab =>
    Route.of (ptr.read p ab.1) (ptr.read (p + (ab.1 + 1)) (ab.2 - (ab.1 + 1)))

/-- The parser cuts a window at its first two spaces, unless it meets the edge. -/
theorem parseOneManual_eq_firstSpaces {ptr : Mem} (hedge : ¬ FirstSpace ptr 31) :
    parseOneManual ptr
      = (firstSpaces ptr).map fun ab => (⟨0, ab.1⟩, ⟨ab.1 + 1, ab.2 - (ab.1 + 1)⟩, 0) := by
  have hsorted : (spaces ptr).Pairwise (· < ·) := List.pairwise_lt_range.filter _
  have hmem : ∀ j, j ∈ spaces ptr ↔ j < 32 ∧ ptr j = SP := fun _ => mem_spaces
  rw [firstSpaces]
  generalize spaces ptr = l at hsorted hmem ⊢
  -- A window with fewer than two spaces is not cut.
  have hfew : l.length < 2 → parseOneManual ptr = none := by
    intro hlen
    refine parseOneManual_eq_none ?_ hedge
    rintro ⟨b, hb, a, hab, ha, hb'⟩
    have hsub : [a, b].Subperm l :=
      List.subperm_of_subset (by simp [Nat.ne_of_lt hab]) (by
        simp [hmem, ha, hb, hb', Nat.lt_trans hab hb])
    exact absurd (hsub.length_le) (Nat.not_le.mpr hlen)
  cases l with
  | nil => exact hfew (by simp)
  | cons a rest =>
    cases rest with
    | nil => exact hfew (by simp)
    | cons b rest =>
      obtain ⟨halt, htail⟩ := List.pairwise_cons.mp hsorted
      obtain ⟨hblt, _⟩ := List.pairwise_cons.mp htail
      obtain ⟨ha, hasp⟩ := (hmem a).mp List.mem_cons_self
      obtain ⟨hb, hbsp⟩ := (hmem b).mp (List.mem_cons_of_mem _ List.mem_cons_self)
      have hab := halt b List.mem_cons_self
      -- A space before `b` is one of the list, so it is `a`.
      have honly : ∀ j, j < b → ptr j = SP → j = a := by
        intro j hj hsp
        rcases List.mem_cons.mp ((hmem j).mpr ⟨Nat.lt_trans hj hb, hsp⟩) with heq | hin
        · exact heq
        rcases List.mem_cons.mp hin with heq | hin
        · omega
        · exact absurd (hblt j hin) (by omega)
      refine parseOneManual_of_spaces ⟨hasp, fun j hj hsp => ?_⟩ hab hb hbsp fun j hj hj' hsp => ?_
      · exact absurd (honly j (Nat.lt_trans hj hab) hsp) (Nat.ne_of_lt hj)
      · exact absurd (honly j hj' hsp) (Nat.ne_of_gt hj)

/-! ### What a cutting shows -/

/-- The starts from `a` on that come before `p`. -/
def startsFrom (ptr : Mem) (a p : Nat) : List Nat :=
  (List.range' a (p - a)).filter fun q => IsStart ptr q

/-- The piece `[a, b)` of a stream shows a start. -/
structure Shown (ptr : Mem) (a b p : Nat) : Prop where
  isStart : IsStart ptr p
  /-- The window of the parser is in the piece. -/
  window : p + 32 ≤ b
  /-- Fewer than 50 starts of the piece come before. -/
  early : (startsFrom ptr a p).length < 50

instance (ptr : Mem) (a b p : Nat) : Decidable (Shown ptr a b p) :=
  decidable_of_iff (IsStart ptr p ∧ p + 32 ≤ b ∧ (startsFrom ptr a p).length < 50)
    ⟨fun h => ⟨h.1, h.2.1, h.2.2⟩, fun h => ⟨h.isStart, h.window, h.early⟩⟩

/-- The starts that a piece shows. -/
def shown (ptr : Mem) (a b : Nat) : List Nat :=
  (List.range' a (b - a)).filter fun p => Shown ptr a b p

theorem mem_shown {ptr : Mem} {a b p : Nat} : p ∈ shown ptr a b ↔ a ≤ p ∧ Shown ptr a b p := by
  rw [shown, List.mem_filter, List.mem_range'_1, decide_eq_true_eq]
  constructor
  · rintro ⟨⟨hle, _⟩, h⟩
    exact ⟨hle, h⟩
  · rintro ⟨hle, h⟩
    have hwindow := h.window
    exact ⟨⟨hle, by omega⟩, h⟩

/-- The shown starts stay clear of the end that the scanner leaves out and of the edge of the
window. -/
def Clear (ptr : Mem) (a b : Nat) : Prop :=
  ∀ p ∈ shown ptr a b, p < a + scanEnd (b - a) ∧ ¬ FirstSpace (ptr.shift p) 31

instance (ptr : Mem) (a b : Nat) : Decidable (Clear ptr a b) :=
  inferInstanceAs (Decidable (∀ p ∈ shown ptr a b, _))

/-- The pieces of a stream, when the first one begins at `a`. -/
def pieces : Nat → List Nat → List (Nat × Nat)
  | _, [] => []
  | a, n :: lengths => (a, a + n) :: pieces (a + n) lengths

/-- The starts that the pieces show. -/
def seen (ptr : Mem) (cut : List (Nat × Nat)) : List Nat :=
  cut.flatMap fun piece => shown ptr piece.1 piece.2

/-- What is asked for in a stream that is cut into pieces of the given lengths. -/
def asked (stream : List UInt8) (lengths : List Nat) : List Route :=
  (seen (Slice.ofList stream).ptr (pieces 0 lengths)).filterMap
    (routeAt (Slice.ofList stream).ptr)

/-- Every piece of the stream is clear. -/
def ClearCut (stream : List UInt8) (lengths : List Nat) : Prop :=
  ∀ piece ∈ pieces 0 lengths, Clear (Slice.ofList stream).ptr piece.1 piece.2

instance (stream : List UInt8) (lengths : List Nat) : Decidable (ClearCut stream lengths) :=
  inferInstanceAs (Decidable (∀ piece ∈ pieces 0 lengths, _))

/-- A part of a stream, as a slice of its own. -/
def part (ptr : Mem) (a n : Nat) : Slice := ⟨ptr.shift a, n⟩

theorem length_startsBelow_part (ptr : Mem) (a n p : Nat) :
    (startsBelow (part ptr a n).ptr p).length = (startsFrom ptr a (a + p)).length := by
  have hmap : List.range' a p = (List.range p).map (a + ·) := by
    rw [List.range'_eq_map_range]
  rw [startsFrom, Nat.add_sub_cancel_left, hmap, List.filter_map, List.length_map]
  rfl

theorem pairwise_shown (ptr : Mem) (a b : Nat) : (shown ptr a b).Pairwise (· < ·) :=
  (List.pairwise_lt_range' (s := a) (n := b - a)).filter _

/-- The parser goes through the starts that a clear part shows. -/
theorem map_admitted {ptr : Mem} {a n : Nat} (hclear : Clear ptr a (a + n)) :
    (admitted 50 (part ptr a n)).map (a + ·) = shown ptr a (a + n) := by
  have hsorted : ((admitted 50 (part ptr a n)).map (a + ·)).Pairwise (· < ·) :=
    (pairwise_admitted 50 _).map _ fun _ _ hlt => Nat.add_lt_add_left hlt a
  refine hsorted.eq_of_mem_iff (pairwise_shown ptr a _) fun p => ?_
  rw [List.mem_map, mem_shown]
  constructor
  · rintro ⟨q, hq, rfl⟩
    obtain ⟨hstart, _, hwindow, hearly⟩ := mem_admitted.mp hq
    rw [length_startsBelow_part] at hearly
    have hlen : q + 32 ≤ n := hwindow
    exact ⟨Nat.le_add_right a q, hstart, by omega, hearly⟩
  · rintro ⟨hle, h⟩
    obtain ⟨hend, _⟩ := hclear p (mem_shown.mpr ⟨hle, h⟩)
    obtain ⟨q, rfl⟩ := Nat.exists_eq_add_of_le hle
    rw [Nat.add_sub_cancel_left] at hend
    have hwindow := h.window
    refine ⟨q, mem_admitted.mpr ⟨h.isStart, Nat.lt_of_add_lt_add_left hend, ?_, ?_⟩, rfl⟩
    · show q + 32 ≤ n
      omega
    · rw [length_startsBelow_part]
      exact h.early

/-- What a start of a part asks for. -/
theorem routeAt_part {ptr : Mem} {a p : Nat} (n : Nat)
    (hedge : ¬ FirstSpace (ptr.shift (a + p)) 31) :
    routeAt ptr (a + p) = (entryAt (part ptr a n) p).map fun r =>
      Route.of ((part ptr a n).span r.1) ((part ptr a n).span r.2) := by
  have hshift : (ptr.shift a).shift p = ptr.shift (a + p) := by
    funext i
    exact congrArg ptr (Nat.add_assoc a p i).symm
  have hread : ∀ k len, (ptr.shift a).read (p + k) len = ptr.read (a + p + k) len := by
    intro k len
    rw [Nat.add_assoc]
    exact List.map_congr_left fun i _ => congrArg ptr (Nat.add_assoc a (p + k) i).symm
  rw [routeAt, entryAt, part, hshift, parseOneManual_eq_firstSpaces hedge, Option.map_map,
    Option.map_map]
  refine congrArg (Option.map · _) (funext fun ab => ?_)
  show _ = Route.of ((ptr.shift a).read (p + 0) ab.1)
    ((ptr.shift a).read (p + (ab.1 + 1)) (ab.2 - (ab.1 + 1)))
  rw [hread, hread]
  rfl

end Http

/-- The responses to a clear part of a stream are those to the starts that it shows. -/
theorem replies_part (date : Date) {ptr : Mem} {a n : Nat} (hclear : Http.Clear ptr a (a + n)) :
    replies date (Http.part ptr a n) (Http.parseHttpMethodsPaths 50 (Http.part ptr a n))
      = ((Http.shown ptr a (a + n)).filterMap (Http.routeAt ptr)).flatMap
        (Route.response date) := by
  have hroutes : (Http.shown ptr a (a + n)).filterMap (Http.routeAt ptr)
      = (Http.parseHttpMethodsPaths 50 (Http.part ptr a n)).map fun r =>
          Route.of ((Http.part ptr a n).span r.1) ((Http.part ptr a n).span r.2) := by
    rw [Http.parseHttpMethodsPaths_eq, ← Http.map_admitted hclear, List.filterMap_map,
      List.map_filterMap]
    refine List.filterMap_congr fun p hp => Http.routeAt_part n (hclear _ ?_).2
    rw [← Http.map_admitted hclear]
    exact List.mem_map_of_mem hp
  rw [hroutes, List.flatMap_map, replies, List.flatMap]
  congr 1
  exact List.map_congr_left fun r _ => Route.response_eq date _ _

/-- Slices with the same received bytes get the same responses. -/
theorem replies_congr {buf buf' : Slice} (hlen : buf.len = buf'.len)
    (h : ∀ i, i < buf.len → buf.ptr i = buf'.ptr i) (date : Date) :
    replies date buf (Http.parseHttpMethodsPaths 50 buf)
      = replies date buf' (Http.parseHttpMethodsPaths 50 buf') := by
  rw [← Http.parseHttpMethodsPaths_congr h 50 hlen, replies, replies]
  congr 1
  refine List.map_congr_left fun r hr => ?_
  rw [Http.parseHttpMethodsPaths_eq] at hr
  obtain ⟨p, hp, hentry⟩ := List.mem_filterMap.mp hr
  have hroute := Http.route_congr h (Http.mem_admitted.mp hp).2.2.1 hentry
  simp only [Handler.response, Handler.pieces, hroute]

namespace Reactor

/-! ### The calls for one client -/

/-- The pieces of a client's stream arrive one after another, each when the output buffer is
flushed. `request_reply` is called for each, and `out` is what it appends. What happens between two
calls is left open: a call depends on the state it is made in. -/
inductive Session (user : UserData) (date : Date) : List (List UInt8) → List UInt8 → Prop
  | nil : Session user date [] []
  | piece {s t : Reactor} {inp : Input} {flags : Nat} {bytes : List UInt8}
      {lake lake' : OutBuffer} {pieces : List (List UInt8)} {out : List UInt8}
      (date_eq : s.srv.date = date)
      (pos : 0 < bytes.length) (le : bytes.length ≤ BUFFER_SIZE)
      (bytes_eq : (bufferSlice s.srv (flags >>> 16 % 2 ^ 16) bytes.length).bytes = bytes)
      (stored : s.srv.clientOutBuffers.get user.clientId.toNat = some lake)
      (flushed : lake.len = 0)
      (call : s.requestReply inp flags user bytes.length = .ok t)
      (kept : t.srv.clientOutBuffers.get user.clientId.toNat = some lake')
      (rest : Session user date pieces out) :
      Session user date (bytes :: pieces) (lake'.asSlice ++ out)

/-- A call that comes back has written the responses. -/
theorem written_of_requestReply {s t : Reactor} {inp : Input} {flags : Nat} {user : UserData}
    {result : Int} {lake : OutBuffer} (hle : result ≤ BUFFER_SIZE)
    (hget : s.srv.clientOutBuffers.get user.clientId.toNat = some lake)
    (h : s.requestReply inp flags user result = .ok t) :
    t.srv.clientOutBuffers.get user.clientId.toNat
      = some (lake.write (s.block (bufferSlice s.srv (flags >>> 16 % 2 ^ 16) result.toNat))) := by
  rcases requestReply_cases h with ⟨hlong, _⟩ | ⟨_, lake₁, cache, hot, hget₁, hnext⟩
  · exact absurd hlong (not_lt.mpr hle)
  obtain rfl : lake₁ = lake := Option.some.inj (hget₁.symm.trans hget)
  have hset : ∀ lake', (s.srv.clientOutBuffers.set user.clientId.toNat lake').get
      user.clientId.toNat = some lake' := by
    intro lake'
    rw [ExternStableVec.get_set, hget]
    simp
  split at hnext
  · rw [srv_releaseBuffers hnext]
    exact hset _
  · subst hnext
    exact hset _

/-- What a session over clear pieces appends are the responses to the starts that they show. -/
theorem Session.out_eq {user : UserData} {date : Date} {cut : List (List UInt8)}
    {out : List UInt8} (h : Session user date cut out) {ptr : Mem} :
    ∀ {a : Nat}, Http.ReadsAt ptr a cut.flatten →
      (∀ piece ∈ Http.pieces a (cut.map List.length), Http.Clear ptr piece.1 piece.2) →
      out = ((Http.seen ptr (Http.pieces a (cut.map List.length))).filterMap
        (Http.routeAt ptr)).flatMap (Route.response date) := by
  induction h with
  | nil =>
    intro a _ _
    rfl
  | @piece s t inp flags bytes lake lake' pieces out date_eq pos le bytes_eq stored flushed call
      kept rest ih =>
    intro a hreads hclear
    obtain ⟨hhead, htail⟩ := Http.readsAt_append.mp hreads
    obtain ⟨hclearHead, hclearTail⟩ := List.forall_mem_cons.mp hclear
    have hget := written_of_requestReply (Int.ofNat_le.mpr le) stored call
    obtain rfl := Option.some.inj (hget.symm.trans kept)
    -- The buffer holds what the stream has at this place.
    have hagree : ∀ i, i < bytes.length →
        (bufferSlice s.srv (flags >>> 16 % 2 ^ 16) bytes.length).ptr i
          = (Http.part ptr a bytes.length).ptr i := by
      intro i hi
      have hbuffer : Http.ReadsAt (bufferSlice s.srv (flags >>> 16 % 2 ^ 16) bytes.length).ptr 0
          bytes := bytes_eq
      have hleft := hbuffer.get hi
      rw [Nat.zero_add] at hleft
      exact hleft.trans (hhead.get hi).symm
    have hempty : lake.asSlice = [] := by
      rw [SmallLake.asSlice, show lake.pos = 0 from flushed]
      rfl
    -- A block always fits into a flushed buffer.
    have hfits : lake.Fits (s.block (bufferSlice s.srv (flags >>> 16 % 2 ^ 16)
        (bytes.length : Int).toNat)) :=
      SmallLake.fits_of_len_eq_zero flushed
        (Nat.le_trans (s.length_block_le _) (by decide))
    have hblock : s.block (bufferSlice s.srv (flags >>> 16 % 2 ^ 16) (bytes.length : Int).toNat)
        = replies date (Http.part ptr a bytes.length)
          (Http.parseHttpMethodsPaths 50 (Http.part ptr a bytes.length)) := by
      rw [block, date_eq]
      have hlen : (bufferSlice s.srv (flags >>> 16 % 2 ^ 16) bytes.length).len
          = (Http.part ptr a bytes.length).len := rfl
      exact replies_congr hlen hagree date
    rw [SmallLake.asSlice_write hfits, hempty, List.nil_append, hblock,
      replies_part date hclearHead, ih htail hclearTail, List.map_cons, Http.pieces, Http.seen,
      Http.seen, List.flatMap_cons, List.filterMap_append, List.flatMap_append]

theorem readsAt_ofList (bs : List UInt8) : Http.ReadsAt (Slice.ofList bs).ptr 0 bs :=
  Slice.bytes_ofList bs

/-- A session over a clear cutting answers what is asked. -/
theorem Session.out_eq_asked {user : UserData} {date : Date} {stream : List UInt8}
    {cut : List (List UInt8)} {out : List UInt8} (h : Session user date cut out)
    (hcut : cut.flatten = stream) (hclear : Http.ClearCut stream (cut.map List.length)) :
    out = (Http.asked stream (cut.map List.length)).flatMap (Route.response date) :=
  h.out_eq (by rw [hcut]; exact readsAt_ofList stream) hclear

/-- Two sessions over one stream append the same bytes exactly when the same is asked for. -/
theorem Session.out_eq_iff {user user' : UserData} {date : Date} {stream : List UInt8}
    {cut cut' : List (List UInt8)} {out out' : List UInt8} (h : Session user date cut out)
    (h' : Session user' date cut' out') (hcut : cut.flatten = stream)
    (hcut' : cut'.flatten = stream) (hclear : Http.ClearCut stream (cut.map List.length))
    (hclear' : Http.ClearCut stream (cut'.map List.length)) : out = out' ↔
      Http.asked stream (cut.map List.length) = Http.asked stream (cut'.map List.length) := by
  rw [h.out_eq_asked hcut hclear, h'.out_eq_asked hcut' hclear']
  exact (Route.prefixFree_response date).flatMap_inj

end Reactor

/-! ### The requests that a cutting keeps whole -/

namespace Http

theorem le_of_mem_seen {ptr : Mem} {a p : Nat} {lengths : List Nat}
    (h : p ∈ seen ptr (pieces a lengths)) : a ≤ p := by
  induction lengths generalizing a with
  | nil => cases h
  | cons n rest ih =>
    rw [pieces, seen, List.flatMap_cons, List.mem_append] at h
    rcases h with h | h
    · exact (mem_shown.mp h).1
    · exact Nat.le_trans (Nat.le_add_right a n) (ih h)

/-- The pieces follow one another, and so do the starts that they show. -/
theorem pairwise_seen (ptr : Mem) (a : Nat) (lengths : List Nat) :
    (seen ptr (pieces a lengths)).Pairwise (· < ·) := by
  induction lengths generalizing a with
  | nil => exact .nil
  | cons n rest ih =>
    rw [pieces, seen, List.flatMap_cons]
    refine List.pairwise_append.mpr ⟨pairwise_shown ptr a _, ih _, fun p hp q hq => ?_⟩
    have hwindow := (mem_shown.mp hp).2.window
    have hle := le_of_mem_seen hq
    omega

/-- A cutting keeps a request whole: its target ends within 32 bytes, and these are in one piece,
with fewer than 50 starts of the piece before them. -/
def Keeps (reqs : List Request) (lengths : List Nat) (q : Nat × Request) : Prop :=
  q.2.lineEnd < 32 ∧ ∃ piece ∈ pieces 0 lengths, piece.1 ≤ q.1 ∧ q.1 + 32 ≤ piece.2 ∧
    (startsFrom (Slice.ofList (pipeline reqs)).ptr piece.1 q.1).length < 50

instance (reqs : List Request) (lengths : List Nat) (q : Nat × Request) :
    Decidable (Keeps reqs lengths q) :=
  inferInstanceAs (Decidable (_ ∧ ∃ piece ∈ pieces 0 lengths, _))

/-- The requests that a cutting keeps whole, in order. -/
def kept (reqs : List Request) (lengths : List Nat) : List Request :=
  ((placed 0 reqs).filter fun q => Keeps reqs lengths q).map Prod.snd

/-- No start but those of the requests has two spaces in its window. -/
def NoStrays (reqs : List Request) : Prop :=
  ∀ p, p + 32 ≤ (pipeline reqs).length → IsStart (Slice.ofList (pipeline reqs)).ptr p →
    p ∉ requestStarts reqs → ¬ TwoSpaces ((Slice.ofList (pipeline reqs)).ptr.shift p)

theorem pieces_le {a : Nat} {lengths : List Nat} {piece : Nat × Nat}
    (h : piece ∈ pieces a lengths) : piece.2 ≤ a + lengths.sum := by
  induction lengths generalizing a with
  | nil => cases h
  | cons n rest ih =>
    rw [List.sum_cons]
    rcases List.mem_cons.mp h with rfl | h
    · show a + n ≤ _
      omega
    · have hle := ih h
      omega

section
variable {reqs : List Request} {lengths : List Nat} {q : Nat × Request}

/-- What a request asks for, when it is cut at all. -/
theorem routeAt_request (hq : q ∈ placed 0 reqs) :
    routeAt (Slice.ofList (pipeline reqs)).ptr q.1
      = if q.2.lineEnd < 32 then some (Route.of q.2.method.bytes q.2.target) else none := by
  have hat : At (Slice.ofList (pipeline reqs)).ptr q.1 q.2 :=
    at_of_pipeline (Slice.bytes_ofList _) hq
  have hmethod := length_method_le q.2
  have hedge : ¬ FirstSpace ((Slice.ofList (pipeline reqs)).ptr.shift (0 + q.1)) 31 := by
    rw [Nat.zero_add]
    exact fun hlast => hlast.2 _ (by omega) hat.space
  have hpart := routeAt_part (pipeline reqs).length hedge
  have hpart₀ : At (part (Slice.ofList (pipeline reqs)).ptr 0 (pipeline reqs).length).ptr
      q.1 q.2 := by
    have hsame : (Slice.ofList (pipeline reqs)).ptr.shift 0 = (Slice.ofList (pipeline reqs)).ptr :=
      funext fun i => congrArg _ (Nat.zero_add i)
    rw [part, hsame]
    exact hat
  rw [Nat.zero_add] at hpart
  rw [hpart]
  split
  · next hshort =>
    rw [hpart₀.entryAt_of_short hshort, Option.map_some]
    exact congrArg some (congrArg₂ Route.of hpart₀.method hpart₀.target)
  · next hlong =>
    rw [hpart₀.entryAt_of_long hlong, Option.map_none]

/-- A request is shown and cut exactly when the cutting keeps it whole. -/
theorem keeps_iff (hq : q ∈ placed 0 reqs) : Keeps reqs lengths q ↔
    q.2.lineEnd < 32 ∧ q.1 ∈ seen (Slice.ofList (pipeline reqs)).ptr (pieces 0 lengths) := by
  have hat : At (Slice.ofList (pipeline reqs)).ptr q.1 q.2 :=
    at_of_pipeline (Slice.bytes_ofList _) hq
  have hstart := hat.isStart
  refine and_congr_right fun _ => ?_
  rw [seen, List.mem_flatMap]
  refine exists_congr fun piece => and_congr_right fun _ => ?_
  rw [mem_shown]
  constructor
  · rintro ⟨hle, hwindow, hearly⟩
    exact ⟨hle, hstart, hwindow, hearly⟩
  · rintro ⟨hle, hshown⟩
    exact ⟨hle, hshown.window, hshown.early⟩

/-- Without strays the kept requests are all that is asked for. -/
theorem asked_eq_kept (hstrays : NoStrays reqs) (hlen : lengths.sum = (pipeline reqs).length)
    (hclear : ClearCut (pipeline reqs) lengths) :
    asked (pipeline reqs) lengths
      = (kept reqs lengths).map fun r => Route.of r.method.bytes r.target := by
  let ptr := (Slice.ofList (pipeline reqs)).ptr
  -- What is shown and is not a kept request asks for nothing.
  have hdrop : (seen ptr (pieces 0 lengths)).filterMap (routeAt ptr)
      = ((seen ptr (pieces 0 lengths)).filter fun p => p ∈ requestStarts reqs).filterMap
          (routeAt ptr) := by
    rw [List.filterMap_filter]
    refine List.filterMap_congr fun p hp => ?_
    by_cases hreq : p ∈ requestStarts reqs
    · rw [if_pos (by simpa using hreq)]
    rw [if_neg (by simpa using hreq)]
    obtain ⟨piece, hpiece, hshown⟩ := List.mem_flatMap.mp hp
    have hle := pieces_le hpiece
    obtain ⟨_, h⟩ := mem_shown.mp hshown
    have hwindow := h.window
    have hedge : ¬ FirstSpace (ptr.shift (0 + p)) 31 := by
      rw [Nat.zero_add]
      exact (hclear piece hpiece p hshown).2
    have hpart := routeAt_part (pipeline reqs).length hedge
    have htwo := hstrays p (by omega) h.isStart hreq
    have hnone : parseOneManual (ptr.shift p) = none :=
      parseOneManual_eq_none htwo (hclear piece hpiece p hshown).2
    have hshift : (ptr.shift 0).shift p = ptr.shift p :=
      funext fun i => congrArg ptr (Nat.zero_add _)
    rw [Nat.zero_add] at hpart
    rw [hpart, entryAt, part, hshift, hnone]
    rfl
  -- The requests among the shown starts, in order.
  have hkeep : ((seen ptr (pieces 0 lengths)).filter fun p => p ∈ requestStarts reqs)
      = ((placed 0 reqs).filter fun q => q.1 ∈ seen ptr (pieces 0 lengths)).map Prod.fst := by
    have hsorted := pairwise_placed 0 reqs
    rw [List.pairwise_map] at hsorted
    refine List.Pairwise.eq_of_mem_iff ((pairwise_seen ptr 0 lengths).filter _)
      (List.pairwise_map.mpr (hsorted.filter _)) fun p => ?_
    simp only [List.mem_filter, List.mem_map, requestStarts, decide_eq_true_eq]
    constructor
    · rintro ⟨hseen, q, hq, rfl⟩
      exact ⟨q, ⟨hq, hseen⟩, rfl⟩
    · rintro ⟨q, ⟨hq, hseen⟩, rfl⟩
      exact ⟨hseen, q, hq, rfl⟩
  have hroute : ∀ q ∈ (placed 0 reqs).filter fun q => q.1 ∈ seen ptr (pieces 0 lengths),
      routeAt ptr q.1 = if q.2.lineEnd < 32 then some (Route.of q.2.method.bytes q.2.target)
        else none :=
    fun q hq => routeAt_request (List.mem_of_mem_filter hq)
  have hkept : (placed 0 reqs).filter (fun q => Keeps reqs lengths q)
      = ((placed 0 reqs).filter fun q => q.1 ∈ seen ptr (pieces 0 lengths)).filter
          fun q => q.2.lineEnd < 32 := by
    rw [List.filter_filter]
    refine List.filter_congr fun q hq => ?_
    rw [← Bool.decide_and, decide_eq_decide]
    exact keeps_iff hq
  rw [asked, kept, hkept]
  show (seen ptr (pieces 0 lengths)).filterMap (routeAt ptr) = _
  rw [hdrop, hkeep, List.filterMap_map, List.map_map, ← List.filterMap_eq_map]
  conv_rhs => rw [List.filterMap_filter]
  refine List.filterMap_congr fun q hq => ?_
  rw [Function.comp_apply, hroute q hq]
  by_cases hshort : q.2.lineEnd < 32 <;> simp [hshort]

end

end Http

namespace Reactor

open Http

/-- Two clear cuttings of a stream of well-formed requests append the same bytes exactly when the
same is asked for, in order, by what their pieces show. Without strays a clear cutting answers
exactly the requests that it keeps whole. -/
theorem same_output_iff {user user' : UserData} {date : Date} {reqs : List Request}
    {cut cut' : List (List UInt8)} {out out' : List UInt8} (hcut : cut.flatten = pipeline reqs)
    (hcut' : cut'.flatten = pipeline reqs)
    (hclear : ClearCut (pipeline reqs) (cut.map List.length))
    (hclear' : ClearCut (pipeline reqs) (cut'.map List.length))
    (h : Session user date cut out) (h' : Session user' date cut' out') :
    (out = out' ↔ asked (pipeline reqs) (cut.map List.length)
      = asked (pipeline reqs) (cut'.map List.length)) ∧
    (NoStrays reqs → out = responsesOf date (kept reqs (cut.map List.length)) ∧
      ((∀ q ∈ placed 0 reqs, Keeps reqs (cut.map List.length) q) →
        out = responsesOf date reqs)) := by
  refine ⟨h.out_eq_iff h' hcut hcut' hclear hclear', fun hstrays => ?_⟩
  have hlen : (cut.map List.length).sum = (pipeline reqs).length := by
    rw [← hcut, List.length_flatten]
  have hout : out = responsesOf date (kept reqs (cut.map List.length)) := by
    rw [h.out_eq_asked hcut hclear, asked_eq_kept hstrays hlen hclear, List.flatMap_map,
      responsesOf, List.flatMap]
    congr 1
    exact List.map_congr_left fun r _ => (Route.response_eq date _ _).symm
  refine ⟨hout, fun hall => ?_⟩
  rw [hout, kept, List.filter_eq_self.mpr (by simpa using hall), map_snd_placed]

/-! ### Two requests, cut in two ways -/

/-- Any cutting is the one of a session. -/
theorem exists_session {cut : List (List UInt8)}
    (h : ∀ piece ∈ cut, 0 < piece.length ∧ piece.length ≤ BUFFER_SIZE) :
    ∃ out, Session (clientData 100 INIT_REQUEST) Date.zero cut out := by
  induction cut with
  | nil => exact ⟨[], .nil⟩
  | cons piece rest ih =>
    obtain ⟨⟨hpos, hle⟩, hrest⟩ := List.forall_mem_cons.mp h
    obtain ⟨out, hout⟩ := ih hrest
    have hstored : (holding piece).srv.clientOutBuffers.get
        (clientData 100 INIT_REQUEST).clientId.toNat = some SmallLake.build := rfl
    have hbuffer : cqeFlags 0 true >>> 16 % 2 ^ 16 < BUFFERS_COUNT := by decide
    obtain ⟨cache, hot, heq⟩ := requestReply_eq (Int.ofNat_le.mpr hle) hbuffer hstored calm
    have hfew : (holding piece).srv.releasedBuffers.length + 1 = 1 := rfl
    rw [hfew, if_neg (by decide)] at heq
    exact ⟨_, .piece rfl hpos hle (bytes_holding piece) hstored rfl heq rfl hout⟩

theorem noStrays_two : NoStrays [plaintext, json] := by
  have hlen : (pipeline [plaintext, json]).length = 79 := by decide +kernel
  have hall : ∀ p, p < 48 → IsStart (Slice.ofList (pipeline [plaintext, json])).ptr p →
      p ∈ requestStarts [plaintext, json] := by
    decide +kernel
  intro p hle hstart hreq
  rw [hlen] at hle
  exact absurd (hall p (by omega) hstart) hreq

/-- The two requests are in one piece, or in two pieces with the border between them. Both
cuttings keep them whole. -/
theorem same_output_two : ∃ out,
    Session (clientData 100 INIT_REQUEST) Date.zero [pipeline [plaintext, json]] out ∧
    Session (clientData 100 INIT_REQUEST) Date.zero [plaintext.bytes, json.bytes] out ∧
    out = responsesOf Date.zero [plaintext, json] := by
  obtain ⟨out, h⟩ : ∃ out, Session (clientData 100 INIT_REQUEST) Date.zero
      [pipeline [plaintext, json]] out :=
    exists_session (by decide +kernel)
  obtain ⟨out', h'⟩ : ∃ out, Session (clientData 100 INIT_REQUEST) Date.zero
      [plaintext.bytes, json.bytes] out :=
    exists_session (by decide +kernel)
  have hstream : [plaintext.bytes, json.bytes].flatten = pipeline [plaintext, json] := rfl
  have hpieces : ClearCut (pipeline [plaintext, json])
      ([pipeline [plaintext, json]].map List.length) := by
    decide +kernel
  have hpieces' : ClearCut (pipeline [plaintext, json])
      ([plaintext.bytes, json.bytes].map List.length) := by
    decide +kernel
  obtain ⟨hiff, hkept⟩ := same_output_iff (List.append_nil _) hstream hpieces hpieces' h h'
  obtain rfl : out = out' := hiff.mpr (by decide +kernel)
  exact ⟨out, h, h', (hkept noStrays_two).2 (by decide +kernel)⟩

/-- A request that is cut in the middle gets no response, and in one piece it gets one. -/
theorem not_same_output : ¬ ∀ (user user' : UserData) (date : Date) (reqs : List Request)
    (cut cut' : List (List UInt8)) (out out' : List UInt8), cut.flatten = pipeline reqs →
      cut'.flatten = pipeline reqs → Session user date cut out → Session user' date cut' out' →
      out = out' := by
  intro hall
  let bytes := plaintext.bytes
  obtain ⟨out, h⟩ : ∃ out, Session (clientData 100 INIT_REQUEST) Date.zero
      [bytes] out :=
    exists_session (by decide +kernel)
  obtain ⟨out', h'⟩ : ∃ out, Session (clientData 100 INIT_REQUEST) Date.zero
      [bytes.take 20, bytes.drop 20] out :=
    exists_session (by decide +kernel)
  have hcut' : [bytes.take 20, bytes.drop 20].flatten = pipeline [plaintext] := by decide +kernel
  have heq := hall _ _ _ [plaintext] _ _ _ _ rfl hcut' h h'
  have hasked := (h.out_eq_iff h' rfl hcut' (by decide +kernel) (by decide +kernel)).mp heq
  exact absurd hasked (by decide +kernel)

end Reactor

end Tachyon
