import Tachyon.Proofs.Scan
import Tachyon.Utils.Trim

/-!
# `Tachyon.Proofs.Starts`: the vector scan and the plain one

`find_request_starts_avx2` scans 64 positions in a round, then 32, and takes the set bits of two
masks one by one until its array is full. The plain scan tests one position after another.
`scans_plainly` says that the results agree on every position with 34 received bytes behind it,
and that a full array holds the first starts of the buffer.

The scanner reads from a memory without bounds. `findRequestStartsAvx2In` is the same scanner with
every vector load checked against the received bytes, and no check fails
(`findRequestStartsAvx2In_eq`). So the scanner is a function of these bytes
(`findRequestStartsAvx2_congr`).
-/

set_option autoImplicit false

namespace Tachyon

namespace Http

/-! ### Checked loads -/

/-- The mask at `i`. `none` is a load out of the slice. -/
def startMaskIn (buf : Slice) (i : Nat) : Option (BitVec 32) := do
  let c0 ← Trim.loadIn buf i
  let c1 ← Trim.loadIn buf (i + 1)
  let c2 ← Trim.loadIn buf (i + 2)
  some (startMaskOf c0 c1 c2)

/-- `while i + 66 <= len && count < N`: six loads a round. -/
def scan64In (N : Nat) (buf : Slice) : Nat → Nat → Found → Option (Nat × Found)
  | 0, i, f => some (i, f)
  | rounds + 1, i, f =>
    if i + 66 ≤ buf.len ∧ f.count < N then do
      let maskA ← startMaskIn buf i
      let maskB ← startMaskIn buf (i + 32)
      let f := popBits N i 32 maskA f
      let f := popBits N (i + 32) 32 maskB f
      scan64In N buf rounds (i + 64) f
    else some (i, f)

/-- `while i + 34 <= len && count < N`: three loads a round. -/
def scan32In (N : Nat) (buf : Slice) : Nat → Nat → Found → Option (Nat × Found)
  | 0, i, f => some (i, f)
  | rounds + 1, i, f =>
    if i + 34 ≤ buf.len ∧ f.count < N then do
      let mask ← startMaskIn buf i
      scan32In N buf rounds (i + 32) (popBits N i 32 mask f)
    else some (i, f)

/-- `find_request_starts_avx2::<N>`, with its loads checked. -/
def findRequestStartsAvx2In (N : Nat) (buf : Slice) : Option Found := do
  let wide ← scan64In N buf buf.len 0 ⟨List.replicate N 0, 0⟩
  let rest ← scan32In N buf buf.len wide.1 wide.2
  some rest.2

theorem startMaskIn_of_le {buf : Slice} {i : Nat} (h : i + 34 ≤ buf.len) :
    startMaskIn buf i = some (startMask buf.ptr i) := by
  have hload : ∀ k, k ≤ 2 → Trim.loadIn buf (i + k) = some (Simd.loaduSi256 buf.ptr (i + k)) := by
    intro k hk
    exact if_pos (by omega)
  have hfirst := hload 0 (by omega)
  rw [Nat.add_zero] at hfirst
  rw [startMaskIn, hfirst, hload 1 (by omega), hload 2 (by omega)]
  rfl

theorem scan64In_eq (N : Nat) (buf : Slice) (rounds i : Nat) (f : Found) :
    scan64In N buf rounds i f = some (scan64 N buf rounds i f) := by
  induction rounds generalizing i f with
  | zero => rfl
  | succ rounds ih =>
    unfold scan64In scan64
    split
    · rename_i hcond
      -- A round looks at 66 bytes, and its loads at no more.
      rw [startMaskIn_of_le (by omega), startMaskIn_of_le (by omega)]
      exact ih _ _
    · rfl

theorem scan32In_eq (N : Nat) (buf : Slice) (rounds i : Nat) (f : Found) :
    scan32In N buf rounds i f = some (scan32 N buf rounds i f) := by
  induction rounds generalizing i f with
  | zero => rfl
  | succ rounds ih =>
    unfold scan32In scan32
    split
    · rename_i hcond
      -- A round asks for 34 bytes, which is what its three loads read.
      rw [startMaskIn_of_le hcond.1]
      exact ih _ _
    · rfl

/-- Every load stays in the buffer. -/
theorem findRequestStartsAvx2In_eq (N : Nat) (buf : Slice) :
    findRequestStartsAvx2In N buf = some (findRequestStartsAvx2 N buf) := by
  rw [findRequestStartsAvx2In, scan64In_eq]
  simp only [Option.bind_eq_bind, Option.bind_some, scan32In_eq]
  rfl

/-! ### The whole array -/

/-- The scanner leaves zeros behind the positions. -/
theorem drop_findRequestStartsAvx2 (N : Nat) (buf : Slice) :
    (findRequestStartsAvx2 N buf).found.drop (findRequestStartsAvx2 N buf).count
      = List.replicate (N - (findRequestStartsAvx2 N buf).count) 0 := by
  refine findRequestStartsAvx2_induction
    (P := fun f => f.found.drop f.count = List.replicate (N - f.count) 0) ?_ buf (by simp)
  intro f p _ h
  show (f.found.set f.count p).drop (f.count + 1) = List.replicate (N - (f.count + 1)) 0
  rw [List.drop_set_of_lt (Nat.lt_succ_self _), ← List.tail_drop, h, List.tail_replicate,
    Nat.sub_sub]

/-- The array and the count, from the starts among the scanned positions. -/
theorem findRequestStartsAvx2_found (N : Nat) (buf : Slice) : findRequestStartsAvx2 N buf =
    ⟨(startsBelow buf.ptr (scanEnd buf.len)).take N
      ++ List.replicate (N - (startsBelow buf.ptr (scanEnd buf.len)).length) 0,
      min (startsBelow buf.ptr (scanEnd buf.len)).length N⟩ := by
  have hcount := (holds_findRequestStartsAvx2 N buf).count
  have htake := (holds_findRequestStartsAvx2 N buf).take
  have hdrop := drop_findRequestStartsAvx2 N buf
  have hrest : N - min (startsBelow buf.ptr (scanEnd buf.len)).length N
      = N - (startsBelow buf.ptr (scanEnd buf.len)).length := by omega
  have hfound := List.take_append_drop (findRequestStartsAvx2 N buf).count
    (findRequestStartsAvx2 N buf).found
  rw [htake, hdrop, hcount, hrest] at hfound
  rw [hfound, ← hcount]

theorem scanEnd_le (len : Nat) : scanEnd len ≤ len - 2 := by
  rw [scanEnd]
  omega

/-- A position with 34 received bytes is scanned. -/
theorem lt_scanEnd {p len : Nat} (h : p + 34 ≤ len) : p < scanEnd len := by
  rw [scanEnd]
  omega

theorem startsBelow_congr {ptr ptr' : Mem} {n : Nat} (h : ∀ i, i < n + 2 → ptr i = ptr' i) :
    startsBelow ptr n = startsBelow ptr' n := by
  refine List.filter_congr fun p hp => ?_
  have hlt := List.mem_range.mp hp
  refine decide_eq_decide.mpr ?_
  simp only [IsStart, h p (by omega), h (p + 1) (by omega), h (p + 2) (by omega)]

section
variable {buf buf' : Slice} (hlen : buf.len = buf'.len)
  (h : ∀ i, i < buf.len → buf.ptr i = buf'.ptr i)
include hlen h

/-- The scanned starts are those of the received bytes. -/
theorem startsBelow_scanEnd_congr :
    startsBelow buf.ptr (scanEnd buf.len) = startsBelow buf'.ptr (scanEnd buf'.len) := by
  have hend := scanEnd_le buf.len
  rw [← hlen]
  rcases Nat.eq_zero_or_pos (scanEnd buf.len) with hzero | hpos
  · rw [hzero]
    rfl
  · exact startsBelow_congr fun i hi => h i (by omega)

/-- The scanner is a function of the received bytes. -/
theorem findRequestStartsAvx2_congr (N : Nat) :
    findRequestStartsAvx2 N buf = findRequestStartsAvx2 N buf' := by
  rw [findRequestStartsAvx2_found, findRequestStartsAvx2_found, startsBelow_scanEnd_congr hlen h]

theorem admitted_congr (N : Nat) : admitted N buf = admitted N buf' := by
  rw [admitted, admitted, startsBelow_scanEnd_congr hlen h, hlen]

end

/-! ### Against the plain scan -/

/-- What the result of the scanner has in common with that of a scan that tests every position. -/
structure ScansPlainly (N : Nat) (buf : Slice) (f : Found) : Prop where
  size : f.found.length = N
  count_le : f.count ≤ N
  isStart : ∀ j p, j < f.count → f.found[j]? = some p → IsStart buf.ptr p ∧ p + 3 ≤ buf.len
  increasing : (f.found.take f.count).Pairwise (· < ·)
  complete : f.count < N → ∀ p, IsStart buf.ptr p → p + 34 ≤ buf.len →
    p ∈ f.found.take f.count
  /-- The first `N` of all the starts in the buffer. -/
  first : f.count = N → f.found = (startsBelow buf.ptr (buf.len - 2)).take N
  zeros : ∀ j, f.count ≤ j → j < N → f.found[j]? = some 0

/-- For every buffer and every size of the array, the scanner loads received bytes only, and
its result is that of the plain scan. -/
theorem scans_plainly (N : Nat) (buf : Slice) :
    findRequestStartsAvx2In N buf = some (findRequestStartsAvx2 N buf) ∧
      ScansPlainly N buf (findRequestStartsAvx2 N buf) := by
  have hholds := holds_findRequestStartsAvx2 N buf
  have hend := scanEnd_le buf.len
  have hsorted := pairwise_startsBelow buf.ptr (scanEnd buf.len)
  refine ⟨findRequestStartsAvx2In_eq N buf, ⟨hholds.size, ?_, ?_, ?_, ?_, ?_, ?_⟩⟩
  · rw [hholds.count]
    exact Nat.min_le_right _ _
  · intro j p hj hget
    have hmem : p ∈ (startsBelow buf.ptr (scanEnd buf.len)).take N := by
      rw [← hholds.take]
      exact List.mem_of_getElem? ((List.getElem?_take_of_lt hj).trans hget)
    obtain ⟨hlt, hstart⟩ := mem_startsBelow.mp (List.mem_of_mem_take hmem)
    exact ⟨hstart, by omega⟩
  · rw [hholds.take]
    exact hsorted.sublist (List.take_sublist _ _)
  · intro hroom p hstart hlen
    rw [hholds.take, List.take_of_length_le (Nat.le_of_lt (hholds.length_lt hroom ▸ hroom))]
    exact mem_startsBelow.mpr ⟨lt_scanEnd hlen, hstart⟩
  · intro hfull
    -- With a full array, the starts behind the scanned positions come too late.
    obtain ⟨rest, hrest⟩ := startsBelow_prefix buf.ptr hend
    have hcount := hholds.count
    have hmany : N ≤ (startsBelow buf.ptr (scanEnd buf.len)).length := by omega
    rw [hrest, List.take_append_of_le_length hmany, ← hholds.take, hfull,
      List.take_of_length_le (Nat.le_of_eq hholds.size)]
  · intro j hle hlt
    have hzero := congrArg (fun l => l[j - (findRequestStartsAvx2 N buf).count]?)
      (drop_findRequestStartsAvx2 N buf)
    simp only [List.getElem?_drop, Nat.add_sub_cancel' hle] at hzero
    rw [hzero, List.getElem?_replicate_of_lt (Nat.sub_lt_sub_right hle hlt)]

/-- Two starts in 40 bytes, and one that has fewer than 34 bytes behind it. -/
example : (findRequestStartsAvx2 4
    (Slice.ofList (ascii "GET /a POST and more of the same, GET /b"))).found = [0, 7, 0, 0] := by
  rw [findRequestStartsAvx2_found]
  decide +kernel

end Http

end Tachyon
