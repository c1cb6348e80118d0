import Tachyon.Lib.Memory

/-!
# `Tachyon.Lib.Copy`: a copy in chunks

`copyChunks` copies chunk after chunk from `src` to `dst` in one memory, each chunk read before
it is written. Source and destination may overlap.

A byte at the destination is the byte its round has read (`copyChunks_read`), and that is one of
the destination again when an earlier round has written it. So the result is described by a
recurrence (`copyChunks_rec`), and `copyChunks_eq_iff` says when it is a given content.
-/

set_option autoImplicit false

namespace Tachyon

namespace Mem

/-- The memory after `rounds` chunks of `k` bytes have gone from `src` to `dst`. -/
def copyChunks (m : Mem) (k src dst : Nat) : Nat → Mem
  | 0 => m
  | rounds + 1 =>
    let done := copyChunks m k src dst rounds
    done.write (dst + k * rounds) (done.read (src + k * rounds) k)

section
variable (m : Mem) {k : Nat} (src dst : Nat)

/-- Nothing but the destination is written. -/
theorem copyChunks_of_outside {rounds a : Nat} (h : a < dst ∨ dst + k * rounds ≤ a) :
    copyChunks m k src dst rounds a = m a := by
  induction rounds with
  | zero => rfl
  | succ rounds ih =>
    rw [Nat.mul_succ] at h
    rw [copyChunks, write_of_outside _ _ (by rw [length_read]; omega), ih (by omega)]

/-- A round does not touch what earlier rounds have written. -/
theorem copyChunks_keep {rounds n i : Nat} (hi : i < k * rounds) (hle : rounds ≤ n) :
    copyChunks m k src dst n (dst + i) = copyChunks m k src dst rounds (dst + i) := by
  obtain ⟨later, rfl⟩ := Nat.exists_eq_add_of_le hle
  induction later with
  | zero => rfl
  | succ later ih =>
    have hmul : k * rounds ≤ k * (rounds + later) := Nat.mul_le_mul_left k (Nat.le_add_right _ _)
    rw [← Nat.add_assoc, copyChunks, write_of_outside _ _ (by omega), ih (Nat.le_add_right _ _)]

/-- A byte at the destination is what its round has read. -/
theorem copyChunks_read {rounds i : Nat} (hi : i < k * rounds) :
    copyChunks m k src dst rounds (dst + i) = copyChunks m k src dst (i / k) (src + i) := by
  have hk : 0 < k := Nat.pos_of_ne_zero fun h => by
    rw [h, Nat.zero_mul] at hi
    omega
  have hdiv : k * (i / k) + i % k = i := Nat.div_add_mod i k
  have hmod : i % k < k := Nat.mod_lt i hk
  have hround : i < k * (i / k + 1) := by
    rw [Nat.mul_succ]
    omega
  have hlast : i / k + 1 ≤ rounds := (Nat.div_lt_iff_lt_mul hk).mpr (by rwa [Nat.mul_comm])
  -- The later rounds keep the byte, and in its own round it is byte `i % k` of the chunk.
  rw [copyChunks_keep m src dst hround hlast, copyChunks,
    show dst + i = dst + k * (i / k) + i % k by omega,
    write_of_inside _ (by rw [length_read]; exact hmod), getD_read _ _ hmod,
    show src + k * (i / k) + i % k = src + i by omega]

/-- The byte that is read for offset `i`, when `target` is what has been written so far. -/
def readAt (k : Nat) (target : Nat → UInt8) (i : Nat) : UInt8 :=
  if dst ≤ src + i ∧ src + i < dst + k * (i / k) then target (src + i - dst) else m (src + i)

/-- A byte that is read is one from the source or one that was written before. -/
theorem readAt_congr {target target' : Nat → UInt8} {i : Nat}
    (h : ∀ j, j < i → target j = target' j) :
    readAt m src dst k target i = readAt m src dst k target' i := by
  have hround : k * (i / k) ≤ i := Nat.mul_div_le i k
  rw [readAt, readAt]
  split
  · exact h _ (by omega)
  · rfl

/-- The copied bytes in terms of those before them. -/
theorem copyChunks_rec {rounds i : Nat} (hi : i < k * rounds) :
    copyChunks m k src dst rounds (dst + i)
      = readAt m src dst k (fun j => copyChunks m k src dst rounds (dst + j)) i := by
  have hk : 0 < k := Nat.pos_of_ne_zero fun h => by
    rw [h, Nat.zero_mul] at hi
    omega
  rw [copyChunks_read m src dst hi, readAt]
  by_cases hover : dst ≤ src + i ∧ src + i < dst + k * (i / k)
  · obtain ⟨hge, hlt⟩ := hover
    have hle : i / k ≤ rounds := Nat.div_le_of_le_mul (Nat.le_of_lt hi)
    have hkeep := copyChunks_keep m src dst
      (show src + i - dst < k * (i / k) by omega) hle
    rw [if_pos ⟨hge, hlt⟩, hkeep, show dst + (src + i - dst) = src + i by omega]
  · rw [if_neg hover, copyChunks_of_outside m src dst (by omega)]

/-- The copy has a given content exactly when every byte that is read is the one of that
content, where the bytes that earlier rounds have overwritten are taken from the content. -/
theorem copyChunks_eq_iff (rounds : Nat) (target : Nat → UInt8) :
    (∀ i, i < k * rounds → copyChunks m k src dst rounds (dst + i) = target i) ↔
      ∀ i, i < k * rounds → readAt m src dst k target i = target i := by
  constructor
  · intro h i hi
    rw [← h i hi, copyChunks_rec m src dst hi]
    exact readAt_congr m src dst fun j hj => (h j (by omega)).symm
  · intro h i
    -- A byte that is read from the destination was written by an earlier round.
    induction i using Nat.strongRecOn with
    | ind i ih =>
      intro hi
      rw [copyChunks_rec m src dst hi, ← h i hi]
      exact readAt_congr m src dst fun j hj => ih j hj (by omega)

/-- A source byte in front of the destination, or any one of a source that does not begin in front
of it, is copied as it was. -/
theorem copyChunks_of_disjoint {rounds i : Nat} (hi : i < k * rounds)
    (hdisjoint : src + i < dst ∨ dst ≤ src) :
    copyChunks m k src dst rounds (dst + i) = m (src + i) := by
  have := Nat.mul_div_le i k
  rw [copyChunks_rec m src dst hi, readAt, if_neg (by omega)]

end

end Mem

end Tachyon
