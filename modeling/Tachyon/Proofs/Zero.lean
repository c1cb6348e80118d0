import Tachyon.Utils.Zero

/-!
# `Tachyon.Proofs.Zero`: the vectorised zero fill is the plain one

`avx2_zero` stores 32 zeros at a time and the rest in one go. It stays inside the buffer, and it
leaves what `ptr::write_bytes(buf, 0, len)` leaves (`avx2Zero_eq`).
-/

set_option autoImplicit false

namespace Tachyon

namespace Zero

open Simd

theorem ofFn_setzeroSi256 : List.ofFn setzeroSi256 = List.replicate 32 0 := by decide

/-- The memory when the first `n` bytes of the buffer are zero. -/
def zeroed (buf n : Nat) (m : Mem) : Mem := m.write buf (List.replicate n 0)

/-- A store of zeros behind the zeros. -/
theorem store_zeroed {buf stop n k : Nat} (hk : buf + n + k ≤ stop) (m : Mem) :
    store buf stop (zeroed buf n m) (buf + n) (List.replicate k 0)
      = some (zeroed buf (n + k) m) := by
  have hwrite := Mem.write_write_append m buf (List.replicate n 0) (List.replicate k 0)
  rw [List.length_replicate, List.replicate_append_replicate] at hwrite
  have hin : buf ≤ buf + n ∧ buf + n + (List.replicate k (0 : UInt8)).length ≤ stop := by
    rw [List.length_replicate]
    omega
  rw [store, if_pos hin, zeroed, zeroed, hwrite]

/-- The vector loop zeroes whole chunks, until fewer than 32 bytes are left. -/
theorem zeroChunks_eq (buf : Nat) (m : Mem) {len rounds n : Nat} (hn : n ≤ len)
    (hrounds : len ≤ n + rounds) :
    ∃ k, k ≤ len ∧ len < k + 32 ∧
      zeroChunks buf (buf + len) rounds (buf + n) (zeroed buf n m)
        = some (buf + k, zeroed buf k m) := by
  induction rounds generalizing n with
  | zero => exact ⟨n, hn, by omega, rfl⟩
  | succ rounds ih =>
    rw [zeroChunks]
    by_cases hle : buf + n + 32 ≤ buf + len
    · obtain ⟨k, hk, hlast, hrest⟩ := ih (n := n + 32) (by omega) (by omega)
      refine ⟨k, hk, hlast, ?_⟩
      rw [if_pos hle, ofFn_setzeroSi256, store_zeroed hle]
      exact hrest
    · rw [if_neg hle]
      exact ⟨n, hn, by omega, rfl⟩

/-- The buffer is zero afterwards, nothing else has changed, and no store has left the buffer. -/
theorem avx2Zero_eq (buf len : Nat) (m : Mem) :
    avx2Zero buf len m = some (m.write buf (List.replicate len 0)) := by
  have hstart : zeroed buf 0 m = m := Mem.write_nil m buf
  obtain ⟨k, hk, _, hchunks⟩ := zeroChunks_eq buf m (Nat.zero_le len)
    (show len ≤ 0 + len by omega)
  rw [hstart, Nat.add_zero] at hchunks
  rw [avx2Zero]
  simp only [hchunks, Option.bind_eq_bind, Option.bind_some]
  by_cases hleft : buf + k < buf + len
  · have hrest : buf + len - (buf + k) = len - k := by omega
    rw [if_pos hleft, hrest, store_zeroed (by omega), Nat.add_sub_cancel' hk, zeroed]
  · have hall : k = len := by omega
    rw [if_neg hleft, hall, zeroed]

end Zero

end Tachyon
