import Tachyon.Lib.Ends
import Tachyon.Proofs.Trims

/-!
# `Tachyon.Proofs.RightTrim`: both trims are exact

`r_trim256` walks backward. What lies behind the place it has come to is zero (`ZerosFrom`), and
it ends behind the last non-zero byte or at the start (`IsLast`). In a chunk with such a byte it
looks at one byte after another.

`trims_exact` has both trims: what they return, and that they read nothing else than the slice.
That they may be repeated and exchanged is a matter of lists.
-/

set_option autoImplicit false

namespace Tachyon

namespace Trim

open Ends Simd

/-! ### The right trim -/

/-- Everything from `i` on is zero. -/
structure ZerosFrom (buf : Slice) (i : Nat) : Prop where
  le : i ≤ buf.len
  zero : ∀ j, i ≤ j → j < buf.len → buf.ptr j = 0

/-- The last non-zero byte is the one before `i`, or there is none. -/
structure IsLast (buf : Slice) (i : Nat) : Prop extends ZerosFrom buf i where
  ne : 0 < i → buf.ptr (i - 1) ≠ 0

variable {buf : Slice}

/-- A zero in front of zeros. -/
theorem ZerosFrom.pred {i : Nat} (h : ZerosFrom buf (i + 1)) (hzero : buf.ptr i = 0) :
    ZerosFrom buf i where
  le := Nat.le_of_succ_le h.le
  zero := by
    intro j hj hlt
    rcases Nat.eq_or_lt_of_le hj with rfl | hgt
    · exact hzero
    · exact h.zero j hgt hlt

theorem sliceTo_of_le {i : Nat} (h : i ≤ buf.len) : sliceTo buf i = some ⟨buf.ptr, i⟩ := if_pos h

/-- The result of the right trim. -/
def EndsAt (buf : Slice) (result : Option Slice) : Prop :=
  ∃ n, result = some ⟨buf.ptr, n⟩ ∧ IsLast buf n

/-- At a byte that is not zero, the slice behind it is cut off. -/
theorem endsAt_of_ne {i : Nat} (h : ZerosFrom buf (i + 1)) (hne : buf.ptr i ≠ 0) :
    EndsAt buf (sliceTo buf (i + 1)) :=
  ⟨i + 1, sliceTo_of_le h.le, { toZerosFrom := h, ne := fun _ => hne }⟩

theorem rTrimTail_spec {i : Nat} (h : ZerosFrom buf i) : EndsAt buf (rTrimTail buf i) := by
  induction i with
  | zero => exact ⟨0, rfl, { toZerosFrom := h, ne := fun hlt => absurd hlt (Nat.lt_irrefl 0) }⟩
  | succ i ih =>
    rw [rTrimTail, byteIn_of_lt h.le]
    simp only [Option.bind_eq_bind, Option.bind_some]
    by_cases hne : buf.ptr i ≠ 0
    · rw [if_pos hne]
      exact endsAt_of_ne h hne
    · rw [if_neg hne]
      exact ih (h.pred (not_not.mp hne))

/-- The rescan ends at the last non-zero byte of the chunk, if there is one. -/
theorem rTrimRescan_spec {offset j : Nat} (h : ZerosFrom buf (offset + j)) :
    (∃ found, rTrimRescan buf offset j = some (some found) ∧ EndsAt buf (some found)) ∨
      rTrimRescan buf offset j = some none ∧ ZerosFrom buf offset := by
  induction j with
  | zero => exact Or.inr ⟨rfl, h⟩
  | succ j ih =>
    have hlt : offset + j < buf.len := h.le
    rw [rTrimRescan, byteIn_of_lt hlt]
    simp only [Option.bind_eq_bind, Option.bind_some]
    by_cases hne : buf.ptr (offset + j) ≠ 0
    · obtain ⟨n, hslice, hlast⟩ := endsAt_of_ne (i := offset + j) h hne
      rw [if_pos hne, hslice]
      exact Or.inl ⟨_, rfl, n, rfl, hlast⟩
    · rw [if_neg hne]
      exact ih (ZerosFrom.pred (i := offset + j) h (not_not.mp hne))

/-- A chunk of zeros in front of zeros. -/
theorem ZerosFrom.chunk {i : Nat} (h : ZerosFrom buf i) (hi : 32 ≤ i)
    (hmask : zeroMask buf (i - 32) = BitVec.allOnes 32) : ZerosFrom buf (i - 32) where
  le := Nat.le_trans (Nat.sub_le i 32) h.le
  zero := by
    intro j hj hlt
    rcases Nat.lt_or_ge j i with hin | hge
    · have hlane := zero_of_allOnes hmask (show j - (i - 32) < 32 by omega)
      rwa [Nat.add_sub_of_le hj] at hlane
    · exact h.zero j hge hlt

theorem rTrimChunks_spec {rounds i : Nat} (h : ZerosFrom buf i) (hrounds : i < rounds) :
    EndsAt buf (rTrimChunks buf rounds i) := by
  induction rounds generalizing i with
  | zero => omega
  | succ rounds ih =>
    rw [rTrimChunks]
    by_cases hi : 32 ≤ i
    · have hload : i - 32 + 32 ≤ buf.len := by
        have := h.le
        omega
      have hfold : movemaskEpi8 (cmpeqEpi8 (loaduSi256 buf.ptr (i - 32)) setzeroSi256)
          = zeroMask buf (i - 32) := rfl
      rw [if_pos hi]
      simp only [loadIn_of_le hload, Option.bind_eq_bind, Option.bind_some, hfold]
      by_cases hmask : zeroMask buf (i - 32) = BitVec.allOnes 32
      · rw [if_neg (not_not.mpr hmask)]
        exact ih (h.chunk hi hmask) (by omega)
      · rw [if_pos hmask]
        have hstart : ZerosFrom buf (i - 32 + 32) := by rwa [Nat.sub_add_cancel hi]
        rcases rTrimRescan_spec hstart with ⟨found, hfound, hend⟩ | ⟨hnone, hzeros⟩
        · rw [hfound]
          exact hend
        · rw [hnone]
          exact ih hzeros (by omega)
    · rw [if_neg hi]
      exact rTrimTail_spec h

/-- `r_trim256` ends behind the last non-zero byte. -/
theorem endsAt_rTrim256 (buf : Slice) : EndsAt buf (rTrim256 buf) := by
  have hstart : ZerosFrom buf buf.len :=
    { le := Nat.le_refl _, zero := fun j hj hlt => absurd hlt (Nat.not_lt_of_le hj) }
  rw [rTrim256]
  by_cases hempty : buf.len = 0
  · rw [if_pos hempty]
    refine ⟨0, rfl, { toZerosFrom := ?_, ne := fun hlt => absurd hlt (Nat.lt_irrefl 0) }⟩
    rwa [hempty] at hstart
  · rw [if_neg hempty]
    exact rTrimChunks_spec hstart (Nat.lt_succ_self _)

/-! ### Both trims -/

/-- The slice up to its last non-zero byte is the slice without its trailing zeros. -/
theorem IsLast.bytes_take {n : Nat} (h : IsLast buf n) :
    (⟨buf.ptr, n⟩ : Slice).bytes = buf.bytes.rdropWhile (· == 0) := by
  have hsplit : buf.bytes = buf.ptr.read 0 n ++ buf.ptr.read n (buf.len - n) := by
    have hread := buf.ptr.read_add 0 n (buf.len - n)
    rwa [Nat.zero_add, Nat.add_sub_of_le h.le] at hread
  have hzero : ∀ b ∈ buf.ptr.read n (buf.len - n), (b == 0) = true := by
    intro b hb
    obtain ⟨j, hj, rfl⟩ := List.mem_map.mp hb
    have hlt := List.mem_range.mp hj
    rw [h.zero (n + j) (Nat.le_add_right n j) (by omega)]
    rfl
  have hkeep : (buf.ptr.read 0 n).rdropWhile (· == 0) = buf.ptr.read 0 n := by
    cases n with
    | zero => rfl
    | succ n =>
      have hlast : buf.ptr.read 0 (n + 1) = buf.ptr.read 0 n ++ [buf.ptr n] := by
        rw [Mem.read_add, Nat.zero_add]
        rfl
      have hne : buf.ptr n ≠ 0 := h.ne (Nat.succ_pos n)
      rw [hlast, List.rdropWhile_concat_neg _ _ _ (by simpa using hne)]
  rw [hsplit, rdropWhile_append_of_pos _ hzero, hkeep, Slice.bytes]

/-- `r_trim256` drops the trailing zeros. -/
theorem rTrim256_spec (buf : Slice) :
    ∃ r, rTrim256 buf = some r ∧ r.bytes = buf.bytes.rdropWhile (· == 0) := by
  obtain ⟨n, hresult, hlast⟩ := endsAt_rTrim256 buf
  exact ⟨⟨buf.ptr, n⟩, hresult, hlast.bytes_take⟩

/-- `l_trim256` drops the leading zeros, and its reads are in the slice. -/
theorem lTrim256In_spec (data : Slice) :
    ∃ l, lTrim256In data = some l ∧ l.bytes = data.bytes.dropWhile (· == 0) :=
  ⟨lTrim256 data, lTrim256In_eq data, bytes_lTrim256 data⟩

/-- The two trims of a slice: they return, so they read nothing else than the slice. -/
structure TrimsExactly (x l r : Slice) : Prop where
  left : lTrim256In x = some l
  right : rTrim256 x = some r
  /-- What `ubdma` runs. -/
  unchecked : lTrim256 x = l
  left_bytes : l.bytes = x.bytes.dropWhile (· == 0)
  right_bytes : r.bytes = x.bytes.rdropWhile (· == 0)
  left_again : ∃ l', lTrim256In l = some l' ∧ l'.bytes = l.bytes
  right_again : ∃ r', rTrim256 r = some r' ∧ r'.bytes = r.bytes
  exchange : ∃ lr rl, lTrim256In r = some lr ∧ rTrim256 l = some rl ∧ lr.bytes = rl.bytes

/-- For every slice, both trims are exact. -/
theorem trims_exact (x : Slice) : ∃ l r, TrimsExactly x l r := by
  obtain ⟨l, hl, hleft⟩ := lTrim256In_spec x
  obtain ⟨r, hr, hright⟩ := rTrim256_spec x
  obtain ⟨l', hl', hagain⟩ := lTrim256In_spec l
  obtain ⟨r', hr', hagain'⟩ := rTrim256_spec r
  obtain ⟨lr, hlr, hlrBytes⟩ := lTrim256In_spec r
  obtain ⟨rl, hrl, hrlBytes⟩ := rTrim256_spec l
  exact ⟨l, r,
    { left := hl
      right := hr
      unchecked := Option.some.inj ((lTrim256In_eq x).symm.trans hl)
      left_bytes := hleft
      right_bytes := hright
      left_again := ⟨l', hl', by rw [hagain, hleft, List.dropWhile_idempotent]⟩
      right_again := ⟨r', hr', by rw [hagain', hright, List.rdropWhile_idempotent]⟩
      exchange := ⟨lr, rl, hlr, hrl, by
        rw [hlrBytes, hrlBytes, hleft, hright, rdropWhile_dropWhile]⟩ }⟩

end Trim

end Tachyon
