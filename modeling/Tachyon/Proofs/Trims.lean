import Tachyon.Lib.Bits
import Tachyon.Utils.Trim

/-!
# `Tachyon.Proofs.Trims`: the left trim drops the leading zeros

`l_trim256` looks for the first non-zero byte, 32 at a time and then one by one. What lies before
the place it has come to is zero (`ZerosTo`), and the place where it ends is the first non-zero
byte or the end (`IsFirst`). So its result is the slice without its leading zeros
(`bytes_lTrim256`). No read leaves the slice (`lTrim256In_eq`).
-/

set_option autoImplicit false

namespace Tachyon

namespace Trim

open Simd

/-- Everything before `i` is zero. -/
structure ZerosTo (data : Slice) (i : Nat) : Prop where
  le : i ≤ data.len
  zero : ∀ j, j < i → data.ptr j = 0

/-- The first non-zero byte is at `i`, or there is none. -/
structure IsFirst (data : Slice) (i : Nat) : Prop extends ZerosTo data i where
  ne : i < data.len → data.ptr i ≠ 0

variable {data : Slice}

theorem lTrimTail_spec {rounds i : Nat} (h : ZerosTo data i) (hrounds : data.len ≤ i + rounds) :
    IsFirst data (lTrimTail data rounds i) := by
  induction rounds generalizing i with
  | zero =>
    have hle := h.le
    exact { toZerosTo := h, ne := fun hlt => by rw [lTrimTail] at hlt; omega }
  | succ rounds ih =>
    rw [lTrimTail]
    by_cases hlt : i < data.len
    · rw [if_pos hlt]
      by_cases hne : data.ptr i = 0
      · -- One more zero.
        rw [if_neg (not_not.mpr hne)]
        refine ih { le := hlt, zero := fun j hj => ?_ } (by omega)
        rcases Nat.lt_succ_iff_lt_or_eq.mp hj with hj | rfl
        · exact h.zero j hj
        · exact hne
      · rw [if_pos hne]
        exact { toZerosTo := h, ne := fun _ => hne }
    · rw [if_neg hlt]
      exact { toZerosTo := h, ne := fun hlt' => absurd hlt' hlt }

/-- The lanes of the 32 bytes at `i` that are zero. -/
def zeroMask (data : Slice) (i : Nat) : BitVec 32 :=
  movemaskEpi8 (cmpeqEpi8 (loaduSi256 data.ptr i) (set1Epi8 0))

theorem getLsbD_zeroMask {i k : Nat} (hk : k < 32) :
    (zeroMask data i).getLsbD k = decide (data.ptr (i + k) = 0) :=
  getLsbD_movemask_cmpeq (loaduSi256 data.ptr i) (set1Epi8 0) ⟨k, hk⟩

/-- All lanes are zero. -/
theorem zero_of_allOnes {i : Nat} (h : zeroMask data i = BitVec.allOnes 32) {k : Nat}
    (hk : k < 32) : data.ptr (i + k) = 0 := by
  have hbit : (zeroMask data i).getLsbD k = decide (data.ptr (i + k) = 0) := getLsbD_zeroMask hk
  rw [h, BitVec.getLsbD_allOnes, decide_eq_true hk] at hbit
  exact of_decide_eq_true hbit.symm

/-- `trailing_ones` is the first lane that is not zero. -/
theorem trailingOnes_spec {i : Nat} (h : zeroMask data i ≠ BitVec.allOnes 32) :
    trailingOnes (zeroMask data i) < 32 ∧
      data.ptr (i + trailingOnes (zeroMask data i)) ≠ 0 ∧
      ∀ k, k < trailingOnes (zeroMask data i) → data.ptr (i + k) = 0 := by
  -- The trailing ones of the mask are the trailing zeros of its complement.
  have hne : ~~~ zeroMask data i ≠ 0 := by
    intro hzero
    refine h ?_
    rw [← BitVec.not_not (b := zeroMask data i), hzero]
    rfl
  have hlt : trailingOnes (zeroMask data i) < 32 := Bits.ctz_lt hne
  have hbit : ∀ k, k < 32 →
      (~~~ zeroMask data i).getLsbD k = !decide (data.ptr (i + k) = 0) := by
    intro k hk
    rw [BitVec.getLsbD_not, decide_eq_true hk, Bool.true_and, getLsbD_zeroMask hk]
  refine ⟨hlt, ?_, fun k hk => ?_⟩
  · have htrue : (~~~ zeroMask data i).getLsbD (trailingOnes (zeroMask data i)) = true :=
      BitVec.getLsbD_true_ctz_of_ne_zero hne
    rw [hbit _ hlt] at htrue
    simpa using htrue
  · have hfalse := BitVec.getLsbD_false_of_lt_ctz hk
    rw [hbit k (by omega)] at hfalse
    exact of_decide_eq_true (by simpa using hfalse)

theorem lTrimChunks_spec {rounds i : Nat} (h : ZerosTo data i)
    (hrounds : data.len ≤ i + rounds) : IsFirst data (lTrimChunks data rounds i) := by
  -- Along the rounds: everything in front of `i` is zero.
  induction rounds generalizing i with
  | zero => exact lTrimTail_spec h (by omega)
  | succ rounds ih =>
    rw [lTrimChunks]
    by_cases hle : i + 32 ≤ data.len
    · rw [if_pos hle]
      show IsFirst data (if zeroMask data i ≠ BitVec.allOnes 32
        then i + trailingOnes (zeroMask data i) else lTrimChunks data rounds (i + 32))
      by_cases hmask : zeroMask data i = BitVec.allOnes 32
      · -- The chunk is zero.
        rw [if_neg (not_not.mpr hmask)]
        refine ih { le := hle, zero := fun j hj => ?_ } (by omega)
        rcases Nat.lt_or_ge j i with hlt | hge
        · exact h.zero j hlt
        · have hlane := zero_of_allOnes hmask (show j - i < 32 by omega)
          rwa [Nat.add_sub_of_le hge] at hlane
      · -- The first non-zero byte is in the chunk.
        rw [if_pos hmask]
        obtain ⟨hlt, hne, hlow⟩ := trailingOnes_spec hmask
        exact
          { le := by omega
            zero := by
              intro j hj
              rcases Nat.lt_or_ge j i with hlt | hge
              · exact h.zero j hlt
              · have hlane := hlow (j - i) (by omega)
                rwa [Nat.add_sub_of_le hge] at hlane
            ne := fun _ => hne }
    · rw [if_neg hle]
      exact lTrimTail_spec h (by omega)

/-- `l_trim256` ends at the first non-zero byte. -/
theorem isFirst_lTrim256 (data : Slice) : IsFirst data (lTrimChunks data data.len 0) :=
  lTrimChunks_spec { le := Nat.zero_le _, zero := fun j hj => absurd hj (Nat.not_lt_zero j) }
    (by omega)

/-- The slice from its first non-zero byte on is the slice without its leading zeros. -/
theorem IsFirst.bytes_drop {i : Nat} (h : IsFirst data i) :
    (data.drop i).bytes = data.bytes.dropWhile (· == 0) := by
  have hsplit : data.bytes = data.ptr.read 0 i ++ data.ptr.read i (data.len - i) := by
    have hread := data.ptr.read_add 0 i (data.len - i)
    rwa [Nat.zero_add, Nat.add_sub_of_le h.le] at hread
  have hzero : ∀ b ∈ data.ptr.read 0 i, (b == 0) = true := by
    intro b hb
    obtain ⟨j, hj, rfl⟩ := List.mem_map.mp hb
    rw [Nat.zero_add, h.zero j (List.mem_range.mp hj)]
    rfl
  -- The rest is empty or begins with a byte that is not zero.
  have hrest : (data.ptr.read i (data.len - i)).dropWhile (· == 0)
      = data.ptr.read i (data.len - i) := by
    rcases Nat.eq_or_lt_of_le h.le with heq | hlt
    · rw [heq, Nat.sub_self]
      rfl
    · obtain ⟨n, hn⟩ : ∃ n, data.len - i = n + 1 := ⟨data.len - i - 1, by omega⟩
      have hcons : data.ptr.read i (n + 1) = data.ptr i :: data.ptr.read (i + 1) n := by
        rw [Nat.add_comm, Mem.read_add]
        rfl
      rw [hn, hcons]
      exact List.dropWhile_cons_of_neg (by simpa using h.ne hlt)
  rw [hsplit, List.dropWhile_append_of_pos hzero, hrest, Slice.drop, Slice.bytes, Mem.read_shift]

/-- `l_trim256` drops the leading zeros. -/
theorem bytes_lTrim256 (data : Slice) :
    (lTrim256 data).bytes = data.bytes.dropWhile (· == 0) :=
  (isFirst_lTrim256 data).bytes_drop

/-! ### The reads -/

theorem byteIn_of_lt {i : Nat} (h : i < data.len) : byteIn data i = some (data.ptr i) := if_pos h

theorem loadIn_of_le {i : Nat} (h : i + 32 ≤ data.len) :
    loadIn data i = some (loaduSi256 data.ptr i) := if_pos h

theorem sliceFrom_of_le {i : Nat} (h : i ≤ data.len) : sliceFrom data i = some (data.drop i) :=
  if_pos h

theorem lTrimTailIn_eq {rounds i : Nat} (hi : i ≤ data.len) (hrounds : data.len ≤ i + rounds) :
    lTrimTailIn data (rounds + 1) i = some (data.drop (lTrimTail data rounds i)) := by
  induction rounds generalizing i with
  | zero =>
    have hend : i = data.len := by omega
    rw [lTrimTailIn, if_neg (by omega), lTrimTail, hend]
  | succ rounds ih =>
    rw [lTrimTailIn, lTrimTail]
    by_cases hlt : i < data.len
    · rw [if_pos hlt, if_pos hlt, byteIn_of_lt hlt]
      simp only [Option.bind_eq_bind, Option.bind_some]
      by_cases hne : data.ptr i ≠ 0
      · rw [if_pos hne, if_pos hne, sliceFrom_of_le hi]
      · rw [if_neg hne, if_neg hne]
        exact ih hlt (by omega)
    · have hend : i = data.len := by omega
      rw [if_neg hlt, if_neg hlt, hend]

theorem lTrimChunksIn_eq {rounds i : Nat} (hi : i ≤ data.len) (hrounds : data.len ≤ i + rounds) :
    lTrimChunksIn data (rounds + 1) i = some (data.drop (lTrimChunks data rounds i)) := by
  induction rounds generalizing i with
  | zero =>
    rw [lTrimChunksIn, if_neg (by omega), lTrimChunks]
    exact lTrimTailIn_eq hi (by omega)
  | succ rounds ih =>
    rw [lTrimChunksIn, lTrimChunks]
    by_cases hle : i + 32 ≤ data.len
    · rw [if_pos hle, if_pos hle, loadIn_of_le hle]
      have hfold : movemaskEpi8 (cmpeqEpi8 (loaduSi256 data.ptr i) (set1Epi8 0))
          = zeroMask data i := rfl
      simp only [Option.bind_eq_bind, Option.bind_some, hfold]
      by_cases hmask : zeroMask data i = BitVec.allOnes 32
      · rw [if_neg (not_not.mpr hmask), if_neg (not_not.mpr hmask)]
        exact ih hle (by omega)
      · -- The first non-zero lane is inside of the chunk.
        have hlane := (trailingOnes_spec hmask).1
        rw [if_pos hmask, if_pos hmask]
        exact sliceFrom_of_le (Nat.le_trans (Nat.add_le_add_left (Nat.le_of_lt hlane) i) hle)
    · rw [if_neg hle, if_neg hle]
      exact lTrimTailIn_eq hi (by omega)

/-- With every read checked, `l_trim256` does the same. -/
theorem lTrim256In_eq (data : Slice) : lTrim256In data = some (lTrim256 data) :=
  lTrimChunksIn_eq (Nat.zero_le _) (by omega)

end Trim

end Tachyon
