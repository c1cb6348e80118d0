import Tachyon.Proofs.Deliveries
import Tachyon.Proofs.Stale

/-!
# `Tachyon.Proofs.Extension`: a longer read

When more bytes of a stream have arrived, the parser sees a longer buffer. It finds everything that
it finds in the shorter one, first and unchanged, and only then something new
(`responses_extend`). The scanner leaves out the end of the buffer and the parser stops at the
50th start, so this is not the same list, but it is never another one: what a start comes to is
decided by the 32 bytes from it on, and which starts come before it by the bytes up to it.

Nothing of the kind holds at the other end: bytes that are cut off at the front can take a request
away.
-/

set_option autoImplicit false

namespace Tachyon

/-- Of two ascending lists the one is a prefix of the other, when what is in the other and below
one of its members is also its own. -/
theorem prefix_of_ascending {α : Type} [LinearOrder α] {l l' : List α}
    (hl : l.Pairwise (· < ·)) (hl' : l'.Pairwise (· < ·)) (hsub : ∀ p ∈ l, p ∈ l')
    (hdown : ∀ p ∈ l, ∀ q ∈ l', q < p → q ∈ l) : l <+: l' := by
  induction l generalizing l' with
  | nil => exact List.nil_prefix
  | cons p rest ih =>
    obtain ⟨hfirst, hrest⟩ := List.pairwise_cons.mp hl
    have hp := hsub p List.mem_cons_self
    cases l' with
    | nil => cases hp
    | cons q rest' =>
      obtain ⟨hfirst', hrest'⟩ := List.pairwise_cons.mp hl'
      -- The first members are the same: neither list has anything below its first one.
      have hpq : p = q := by
        rcases List.mem_cons.mp hp with heq | hlater
        · exact heq
        · have hq := hdown p List.mem_cons_self q List.mem_cons_self (hfirst' p hlater)
          rcases List.mem_cons.mp hq with heq | hin
          · exact heq.symm
          · exact absurd (hfirst q hin) (lt_asymm (hfirst' p hlater))
      subst hpq
      rw [List.prefix_cons_inj]
      refine ih hrest hrest' ?_ ?_
      · intro r hr
        rcases List.mem_cons.mp (hsub r (List.mem_cons_of_mem p hr)) with heq | hin
        · exact absurd (hfirst r hr) (by rw [heq]; exact lt_irrefl p)
        · exact hin
      · intro r hr u hu hlt
        have hmem := hdown r (List.mem_cons_of_mem p hr) u (List.mem_cons_of_mem p hu) hlt
        rcases List.mem_cons.mp hmem with heq | hin
        · exact absurd (hfirst' u hu) (by rw [heq]; exact lt_irrefl p)
        · exact hin

namespace Http

theorem scanEnd_mono {len len' : Nat} (h : len ≤ len') : scanEnd len ≤ scanEnd len' := by
  rw [scanEnd, scanEnd]
  omega

section
variable {buf buf' : Slice} (hlen : buf.len ≤ buf'.len)
  (hbytes : ∀ i, i < buf.len → buf.ptr i = buf'.ptr i)
include hbytes

/-- A start with its window inside, and the starts before it, in the longer buffer. -/
theorem starts_extend {p : Nat} (hp : p + 32 ≤ buf.len) :
    (IsStart buf.ptr p ↔ IsStart buf'.ptr p) ∧ startsBelow buf.ptr p = startsBelow buf'.ptr p := by
  constructor
  · rw [IsStart, IsStart, hbytes p (by omega), hbytes (p + 1) (by omega),
      hbytes (p + 2) (by omega)]
  · exact startsBelow_congr fun i hi => hbytes i (by omega)

include hlen

theorem mem_admitted_extend {N p : Nat} (hin : p < scanEnd buf.len) (hp : p + 32 ≤ buf.len) :
    p ∈ admitted N buf ↔ p ∈ admitted N buf' := by
  obtain ⟨hstart, hbelow⟩ := starts_extend hbytes hp
  have hin' : p < scanEnd buf'.len := Nat.lt_of_lt_of_le hin (scanEnd_mono hlen)
  have hp' : p + 32 ≤ buf'.len := Nat.le_trans hp hlen
  rw [mem_admitted, mem_admitted, hstart, hbelow]
  exact ⟨fun h => ⟨h.1, hin', hp', h.2.2.2⟩, fun h => ⟨h.1, hin, hp, h.2.2.2⟩⟩

theorem admitted_extend (N : Nat) : admitted N buf <+: admitted N buf' := by
  refine prefix_of_ascending (pairwise_admitted N buf) (pairwise_admitted N buf') ?_ ?_
  · intro p hmem
    obtain ⟨_, hin, hp, _⟩ := mem_admitted.mp hmem
    exact (mem_admitted_extend hlen hbytes hin hp).mp hmem
  · intro p hmem q hq hlt
    obtain ⟨_, hin, hp, _⟩ := mem_admitted.mp hmem
    exact (mem_admitted_extend hlen hbytes (Nat.lt_trans hlt hin) (by omega)).mpr hq

/-- The entries of the shorter buffer come first. -/
theorem parse_extend (N : Nat) : parseHttpMethodsPaths N buf <+: parseHttpMethodsPaths N buf' := by
  have hsame : (admitted N buf).filterMap (entryAt buf)
      = (admitted N buf).filterMap (entryAt buf') :=
    List.filterMap_congr fun p hp => entryAt_congr hbytes (mem_admitted.mp hp).2.2.1
  rw [parseHttpMethodsPaths_eq, parseHttpMethodsPaths_eq, hsame]
  exact (admitted_extend hlen hbytes N).filterMap (entryAt buf')

omit hlen in
/-- The responses to the entries of the shorter buffer, when its bytes are read from the longer
one. -/
theorem replies_extend (N : Nat) (date : Date) :
    replies date buf (parseHttpMethodsPaths N buf)
      = replies date buf' (parseHttpMethodsPaths N buf) := by
  rw [replies, replies]
  congr 1
  refine List.map_congr_left fun r hr => ?_
  rw [parseHttpMethodsPaths_eq] at hr
  obtain ⟨p, hp, hentry⟩ := List.mem_filterMap.mp hr
  have hroute := route_congr hbytes (mem_admitted.mp hp).2.2.1 hentry
  rw [Handler.response, Handler.response, Handler.pieces, Handler.pieces, hroute]

end

end Http

/-- With more bytes behind them, a chunk's requests are found first and as before, and its
responses are the first ones. -/
theorem responses_extend (date : Date) (bytes more : List UInt8) :
    Http.parseHttpMethodsPaths 50 (Slice.ofList bytes)
        <+: Http.parseHttpMethodsPaths 50 (Slice.ofList (bytes ++ more)) ∧
      responsesTo date bytes <+: responsesTo date (bytes ++ more) := by
  have hlen : (Slice.ofList bytes).len ≤ (Slice.ofList (bytes ++ more)).len := by
    show bytes.length ≤ (bytes ++ more).length
    rw [List.length_append]
    omega
  have hbytes : ∀ i, i < (Slice.ofList bytes).len →
      (Slice.ofList bytes).ptr i = (Slice.ofList (bytes ++ more)).ptr i := by
    intro i hi
    show bytes.getD i 0 = (bytes ++ more).getD i 0
    rw [List.getD_append _ _ _ _ hi]
  have hparse := Http.parse_extend hlen hbytes 50
  refine ⟨hparse, ?_⟩
  obtain ⟨later, hlater⟩ := hparse
  rw [responsesTo, responsesTo, ← hlater, Http.replies_extend hbytes 50 date, replies, replies,
    List.map_append, List.flatten_append]
  exact List.prefix_append _ _

end Tachyon
