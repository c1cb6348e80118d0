import Tachyon.Proofs.Starts

/-!
# `Tachyon.Proofs.Windows`: the windows that are parsed

`parse_http_methods_paths` hands the 32 bytes behind a start to `parse_one_manual`.
`handed` lists the starts for which it does this.

* A start in the last bytes is not handed over when the scanner has stopped before it
  (`covers_all_iff`).
* A window is cut at its first two spaces, and the fast paths of `GET` and `POST` cut as the
  general branch does (`fast_paths_exact`).
* When the first space is the last byte of the window, the mask is shifted by 32, which is a
  shift by 0. The path then begins behind the window (`slices_inside_iff`).
-/

set_option autoImplicit false

namespace Tachyon

namespace Http

open Bits

/-! ### The starts that are handed over -/

/-- The starts for which the loop over `starts` calls `parse_one_manual`. -/
def calledAt (buf : Slice) : List Nat → List Nat
  | [] => []
  | start :: rest => if start + 32 > buf.len then [] else start :: calledAt buf rest

/-- The starts that `parse_http_methods_paths` hands to `parse_one_manual`. -/
def handed (N : Nat) (buf : Slice) : List Nat :=
  let starts := findRequestStartsAvx2 N buf
  calledAt buf (starts.found.take starts.count)

theorem calledAt_eq (buf : Slice) (starts : List Nat) :
    calledAt buf starts = starts.takeWhile fun p => p + 32 ≤ buf.len := by
  induction starts with
  | nil => rfl
  | cons p rest ih =>
    unfold calledAt
    by_cases hp : p + 32 ≤ buf.len
    · rw [if_neg (by omega), List.takeWhile_cons_of_pos (by simpa using hp), ih]
    · rw [if_pos (by omega), List.takeWhile_cons_of_neg (by simpa using hp)]

theorem handed_eq (N : Nat) (buf : Slice) : handed N buf = admitted N buf := by
  rw [handed, calledAt_eq, findRequestStartsAvx2_eq, admitted]

theorem mem_handed {N : Nat} {buf : Slice} {p : Nat} : p ∈ handed N buf ↔
    IsStart buf.ptr p ∧ p < scanEnd buf.len ∧ p + 32 ≤ buf.len ∧
      (startsBelow buf.ptr p).length < N := by
  rw [handed_eq, mem_admitted]

/-- An entry of the result is the entry of a start that was handed over. -/
theorem mem_parseHttpMethodsPaths {N : Nat} {buf : Slice} {e : RequestEntry} :
    e ∈ parseHttpMethodsPaths N buf ↔ ∃ p ∈ handed N buf, entryAt buf p = some e := by
  rw [parseHttpMethodsPaths_eq, List.mem_filterMap, handed_eq]

/-! ### Against a test of every offset -/

/-- The entries of a scan that tests one offset after another: of the offsets with 32 bytes behind
them, the first `N` where a request may begin. -/
def testEveryOffset (N : Nat) (buf : Slice) : List RequestEntry :=
  ((startsBelow buf.ptr (buf.len - 31)).take N).filterMap (entryAt buf)

/-- Every start that the loop admits is handed over, and the result is that of testing every
offset. -/
structure CoversAll (N : Nat) (buf : Slice) : Prop where
  handed : ∀ p, IsStart buf.ptr p → p + 32 ≤ buf.len → (startsBelow buf.ptr p).length < N →
    p ∈ handed N buf
  entry : ∀ p e, IsStart buf.ptr p → p + 32 ≤ buf.len → (startsBelow buf.ptr p).length < N →
    entryAt buf p = some e → e ∈ parseHttpMethodsPaths N buf
  plain : parseHttpMethodsPaths N buf = testEveryOffset N buf

/-- No start, with fewer than `N` before it, is 32 bytes before the end of a buffer whose length
is 0 or 1 modulo 32, or 33 bytes before the end in the second case. -/
def TailClear (N : Nat) (buf : Slice) : Prop :=
  ∀ p, IsStart buf.ptr p → (startsBelow buf.ptr p).length < N →
    ¬ (p + 32 = buf.len ∧ buf.len % 32 ≤ 1 ∨ p + 33 = buf.len ∧ buf.len % 32 = 1)

/-- A position with 32 received bytes that is not scanned is at the end of the buffer. -/
theorem not_lt_scanEnd_iff {p len : Nat} (h : p + 32 ≤ len) :
    ¬ p < scanEnd len ↔ p + 32 = len ∧ len % 32 ≤ 1 ∨ p + 33 = len ∧ len % 32 = 1 := by
  rw [scanEnd]
  omega

theorem tailClear_iff {N : Nat} {buf : Slice} : TailClear N buf ↔
    ∀ p, IsStart buf.ptr p → p + 32 ≤ buf.len → (startsBelow buf.ptr p).length < N →
      p < scanEnd buf.len := by
  constructor
  · intro h p hstart hlen hearly
    by_contra hlate
    exact h p hstart hearly ((not_lt_scanEnd_iff hlen).mp hlate)
  · intro h p hstart hearly htail
    have hlen : p + 32 ≤ buf.len := by omega
    exact (not_lt_scanEnd_iff hlen).mpr htail (h p hstart hlen hearly)

/-- With a clear tail, the starts that are handed over are those of the plain scan. -/
theorem TailClear.handed_eq {N : Nat} {buf : Slice} (h : TailClear N buf) :
    Http.handed N buf = (startsBelow buf.ptr (buf.len - 31)).take N := by
  rw [Http.handed_eq]
  -- Both lists are ascending, so they are compared by their members.
  have hsorted := (pairwise_startsBelow buf.ptr (buf.len - 31)).sublist (List.take_sublist N _)
  refine List.Pairwise.eq_of_mem_iff (pairwise_admitted N buf) hsorted fun p => ?_
  rw [mem_admitted, mem_take_startsBelow]
  constructor
  · rintro ⟨hstart, _, hlen, hearly⟩
    exact ⟨by omega, hstart, hearly⟩
  · rintro ⟨hlt, hstart, hearly⟩
    have hlen : p + 32 ≤ buf.len := by omega
    exact ⟨hstart, tailClear_iff.mp h p hstart hlen hearly, hlen, hearly⟩

/-- The scanner covers what the loop admits exactly when no start is in the last bytes that it
leaves out. -/
theorem covers_all_iff (N : Nat) (buf : Slice) : CoversAll N buf ↔ TailClear N buf := by
  constructor
  · intro h
    refine tailClear_iff.mpr fun p hstart hlen hearly => ?_
    exact (mem_handed.mp (h.handed p hstart hlen hearly)).2.1
  · intro h
    have hhanded : ∀ p, IsStart buf.ptr p → p + 32 ≤ buf.len →
        (startsBelow buf.ptr p).length < N → p ∈ handed N buf := fun p hstart hlen hearly =>
      mem_handed.mpr ⟨hstart, tailClear_iff.mp h p hstart hlen hearly, hlen, hearly⟩
    exact
      { handed := hhanded
        entry := fun p e hstart hlen hearly he =>
          mem_parseHttpMethodsPaths.mpr ⟨p, hhanded p hstart hlen hearly, he⟩
        plain := by
          rw [parseHttpMethodsPaths_eq, testEveryOffset, ← Http.handed_eq, h.handed_eq] }

/-- A request of 32 bytes is a whole buffer. The scanner asks for 34. -/
theorem not_covers_all : ¬ ∀ (N : Nat) (buf : Slice), CoversAll N buf := by
  intro hall
  have h := (hall 50 (Slice.ofList (ascii "GET /plaintext HTTP/1.1\r\nA:b\r\n\r\n"))).handed 0
    (by decide +kernel) (by decide +kernel) (by decide)
  have hscanned := (mem_handed.mp h).2.1
  exact absurd hscanned (by decide +kernel)

/-! ### The fast paths -/

/-- The branch of `parse_one_manual` for any other method. -/
def parseAnyMethod (ptr : Mem) : Option (Span × Span × Nat) :=
  let mask := spaceMask ptr
  if mask = 0 then none
  else
    let methodLen := mask.ctz.toNat
    let pathStart := methodLen + 1
    let mask2 := shr32 mask pathStart
    if mask2 = 0 then none
    else some (⟨0, methodLen⟩, ⟨pathStart, mask2.ctz.toNat⟩, 0)

/-- The window has its next space behind `a` at `b`. -/
def NextSpace (ptr : Mem) (a b : Nat) : Prop :=
  a < b ∧ b < 32 ∧ ptr b = SP ∧ ∀ j, a < j → j < b → ptr j ≠ SP

/-- A position behind `a` with a space has a first one. -/
theorem exists_nextSpace {ptr : Mem} {a b : Nat} (hab : a < b) (hb : b < 32) (hsp : ptr b = SP) :
    ∃ c, NextSpace ptr a c := by
  classical
  have hex : ∃ c, a < c ∧ ptr c = SP := ⟨b, hab, hsp⟩
  obtain ⟨hlt, hspace⟩ := Nat.find_spec hex
  have hle : Nat.find hex ≤ b := Nat.find_le ⟨hab, hsp⟩
  exact ⟨Nat.find hex, hlt, by omega, hspace, fun j hj hj' hspj => Nat.find_min hex hj' ⟨hj, hspj⟩⟩

theorem parseOneManual_of_nextSpace {ptr : Mem} {a b : Nat} (ha : FirstSpace ptr a)
    (hb : NextSpace ptr a b) :
    parseOneManual ptr = some (⟨0, a⟩, ⟨a + 1, b - (a + 1)⟩, 0) :=
  parseOneManual_of_spaces ha hb.1 hb.2.1 hb.2.2.1 hb.2.2.2

theorem ascii_get_ne_sp : SP ∉ ascii "GET" := by decide

theorem ascii_post_ne_sp : SP ∉ ascii "POST" := by decide

/-- A window that begins with a word and a space has its first space behind the word. -/
theorem firstSpace_of_read {ptr : Mem} {m : List UInt8} (hm : SP ∉ m)
    (h : ptr.read 0 (m.length + 1) = m ++ [SP]) : FirstSpace ptr m.length := by
  have hget : ∀ j, j < m.length + 1 → (m ++ [SP])[j]? = some (ptr j) := by
    intro j hj
    rw [← h, Mem.getElem?_read _ _ hj, Nat.zero_add]
  constructor
  · -- Behind the word is the space.
    have hlast := hget m.length (Nat.lt_succ_self _)
    rw [List.getElem?_append_right (Nat.le_refl _), Nat.sub_self] at hlast
    exact (Option.some.inj hlast).symm
  · intro j hj hsp
    have hin := hget j (Nat.lt_succ_of_lt hj)
    rw [List.getElem?_append_left hj, hsp] at hin
    exact hm (List.mem_of_getElem? hin)

/-- In a window that begins with `GET` or `POST` and a space, `parse_one_manual` does what the
general branch does. It succeeds exactly when there is a second space, and then it cuts at the
first two. -/
theorem fast_paths_exact (ptr : Mem) (m : List UInt8) (hm : m = ascii "GET" ∨ m = ascii "POST")
    (h : ptr.read 0 (m.length + 1) = m ++ [SP]) :
    parseOneManual ptr = parseAnyMethod ptr ∧
    ((parseOneManual ptr).isSome ↔ ∃ b, m.length < b ∧ b < 32 ∧ ptr b = SP) ∧
    ∀ r, parseOneManual ptr = some r → ∃ b, NextSpace ptr m.length b ∧
      r = (⟨0, m.length⟩, ⟨m.length + 1, b - (m.length + 1)⟩, 0) := by
  have hno : SP ∉ m := by
    rcases hm with rfl | rfl
    · exact ascii_get_ne_sp
    · exact ascii_post_ne_sp
  have hlen : m.length < 31 := by
    rcases hm with rfl | rfl <;> decide
  have hfirst := firstSpace_of_read hno h
  obtain ⟨hne, hctz⟩ := ctz_spaceMask (by omega) hfirst
  have hsecond : (parseOneManual ptr).isSome → ∃ b, m.length < b ∧ b < 32 ∧ ptr b = SP := by
    intro hsome
    by_contra hnone
    -- No space behind the first one leaves nothing of the shifted mask.
    have hcut : cutAt ptr m.length = none :=
      cutAt_eq_none hlen fun j hj hj' hsp => hnone ⟨j, hj, hj', hsp⟩
    rw [parseOneManual_eq, if_neg hne, hctz, hcut] at hsome
    cases hsome
  refine ⟨parseOneManual_eq ptr, ⟨hsecond, ?_⟩, fun r hr => ?_⟩
  · rintro ⟨b, hab, hb, hsp⟩
    obtain ⟨c, hc⟩ := exists_nextSpace hab hb hsp
    rw [parseOneManual_of_nextSpace hfirst hc]
    rfl
  · obtain ⟨b, hab, hb, hsp⟩ := hsecond (by rw [hr]; rfl)
    obtain ⟨c, hc⟩ := exists_nextSpace hab hb hsp
    rw [parseOneManual_of_nextSpace hfirst hc] at hr
    exact ⟨c, hc, (Option.some.inj hr).symm⟩

/-- The window of a request with an empty path. -/
theorem fast_paths_exact_empty :
    parseOneManual (Slice.ofList (ascii "POST  HTTP/1.1\r\nHost: a\r\n\r\nbody")).ptr
      = parseAnyMethod (Slice.ofList (ascii "POST  HTTP/1.1\r\nHost: a\r\n\r\nbody")).ptr :=
  (fast_paths_exact _ (ascii "POST") (.inr rfl) (by decide)).1

/-! ### Where the slices lie -/

/-- Both slices of an entry lie in the 32 bytes from `p` on. -/
structure InWindow (p : Nat) (e : RequestEntry) : Prop where
  method_start : p ≤ e.1.start
  method_end : e.1.start + e.1.len ≤ p + 32
  path_start : p ≤ e.2.start
  path_end : e.2.start + e.2.len ≤ p + 32

/-- Every entry comes from a start with 32 received bytes, and both slices lie in these. -/
def SlicesInside (N : Nat) (buf : Slice) : Prop :=
  ∀ e ∈ parseHttpMethodsPaths N buf, ∃ p ∈ handed N buf, entryAt buf p = some e ∧
    InWindow p e ∧ p + 32 ≤ buf.len

theorem firstSpace_ctz {ptr : Mem} (h : spaceMask ptr ≠ 0) :
    FirstSpace ptr (spaceMask ptr).ctz.toNat := by
  have hlt := ctz_lt h
  constructor
  · have hbit := BitVec.getLsbD_true_ctz_of_ne_zero h
    rw [getLsbD_spaceMask ptr hlt] at hbit
    exact of_decide_eq_true hbit
  · intro j hj
    have hbit := BitVec.getLsbD_false_of_lt_ctz hj
    rw [getLsbD_spaceMask ptr (by omega)] at hbit
    exact of_decide_eq_false hbit

/-- Where the spans of a parsed window lie. -/
theorem parseOneManual_bounds {ptr : Mem} {m p : Span} {adv : Nat}
    (h : parseOneManual ptr = some (m, p, adv)) :
    m.start = 0 ∧ m.len < 32 ∧ (m.len < 31 → p.start + p.len < 32) := by
  rw [parseOneManual_eq] at h
  split at h
  · cases h
  · rename_i hmask
    have hlt := Bits.ctz_lt hmask
    rw [cutAt] at h
    split at h
    · cases h
    · rename_i hrest
      cases h
      -- With a shift by less than 32, the second space is a byte of the window.
      refine ⟨rfl, hlt, fun hshort => ?_⟩
      have hbit := BitVec.getLsbD_true_ctz_of_ne_zero hrest
      rw [getLsbD_shr32 ptr (Nat.succ_lt_succ hshort)] at hbit
      exact (of_decide_eq_true hbit).1

/-- The method of a parsed window ends at the first space. -/
theorem firstSpace_of_parsed {ptr : Mem} {m p : Span} {adv : Nat}
    (h : parseOneManual ptr = some (m, p, adv)) : FirstSpace ptr m.len := by
  rw [parseOneManual_eq] at h
  split at h
  · cases h
  · rename_i hmask
    rw [cutAt] at h
    split at h
    · cases h
    · cases h
      exact firstSpace_ctz hmask

/-- A space in the last byte: the shift by 32 leaves the mask as it is, and the space ends the path
as well. -/
theorem parseOneManual_of_last {ptr : Mem} (h : FirstSpace ptr 31) :
    parseOneManual ptr = some (⟨0, 31⟩, ⟨32, 31⟩, 0) := by
  obtain ⟨hne, hctz⟩ := ctz_spaceMask (by decide) h
  have hshift : shr32 (spaceMask ptr) (31 + 1) = spaceMask ptr := by
    rw [shr32]
    exact BitVec.ushiftRight_zero _
  rw [parseOneManual_eq, if_neg hne, hctz, cutAt, hshift, if_neg hne, hctz]

theorem entryAt_of_last {buf : Slice} {p : Nat} (h : FirstSpace (buf.ptr.shift p) 31) :
    entryAt buf p = some (⟨p, 31⟩, ⟨p + 32, 31⟩) := by
  rw [entryAt, parseOneManual_of_last h]
  rfl

/-- The slices stay in the window unless its first space is its last byte. -/
theorem inWindow_of_entryAt {buf : Slice} {p : Nat} {e : RequestEntry}
    (he : entryAt buf p = some e) (hlast : ¬ FirstSpace (buf.ptr.shift p) 31) : InWindow p e := by
  obtain ⟨⟨m, q, adv⟩, hparse, rfl⟩ := Option.map_eq_some_iff.mp he
  obtain ⟨hstart, hlen, hpath⟩ := parseOneManual_bounds hparse
  have hshort : m.len < 31 := by
    rcases Nat.lt_or_ge m.len 31 with hlt | hge
    · exact hlt
    · have heq : m.len = 31 := by omega
      have hfirst := firstSpace_of_parsed hparse
      rw [heq] at hfirst
      exact absurd hfirst hlast
  have hin := hpath hshort
  exact
    { method_start := Nat.le_add_right _ _
      method_end := by
        show p + m.start + m.len ≤ p + 32
        omega
      path_start := Nat.le_add_right _ _
      path_end := by
        show p + q.start + q.len ≤ p + 32
        omega }

/-- For every buffer and every size of the array: all slices stay in their windows and in the
received bytes exactly when no window that is parsed has its first space in its last byte. -/
theorem slices_inside_iff (N : Nat) (buf : Slice) : SlicesInside N buf ↔
    ∀ p, IsStart buf.ptr p → p < scanEnd buf.len → p + 32 ≤ buf.len →
      (startsBelow buf.ptr p).length < N → ¬ FirstSpace (buf.ptr.shift p) 31 := by
  constructor
  · intro h p hstart hscan hlen hearly hlast
    have hhanded : p ∈ handed N buf := mem_handed.mpr ⟨hstart, hscan, hlen, hearly⟩
    obtain ⟨q, _, _, hin, _⟩ := h _ (mem_parseHttpMethodsPaths.mpr
      ⟨p, hhanded, entryAt_of_last hlast⟩)
    -- The two slices take up 63 bytes.
    have hfront : q ≤ p := hin.method_start
    have hback : p + 32 + 31 ≤ q + 32 := hin.path_end
    omega
  · intro h e he
    obtain ⟨p, hp, hentry⟩ := mem_parseHttpMethodsPaths.mp he
    obtain ⟨hstart, hscan, hlen, hearly⟩ := mem_handed.mp hp
    exact ⟨p, hp, hentry, inWindow_of_entryAt hentry (h p hstart hscan hlen hearly), hlen⟩

/-- 36 bytes arrive, and the first space among the first 32 is the last of these. -/
theorem not_slices_inside : ¬ ∀ (N : Nat) (buf : Slice), SlicesInside N buf := by
  intro hall
  let buf := Slice.ofList (ascii "GET/abcdefghijklmnopqrstuvwxyz0 HTTP")
  -- Position 0 is scanned, and 32 bytes are there.
  have hhanded : 0 ∈ handed 50 buf :=
    mem_handed.mpr ⟨by decide +kernel, by decide +kernel, by decide +kernel, by decide⟩
  have hentry : entryAt buf 0 = some (⟨0, 31⟩, ⟨32, 31⟩) := entryAt_of_last (by decide +kernel)
  obtain ⟨p, _, _, hin, hlen⟩ := hall 50 buf _
    (mem_parseHttpMethodsPaths.mpr ⟨0, hhanded, hentry⟩)
  have hback : 32 + 31 ≤ p + 32 := hin.path_end
  have hshort : buf.len < 40 := by decide +kernel
  omega

end Http

end Tachyon
