import Tachyon.Proofs.Shifts

/-!
# `Tachyon.Proofs.SafeShift`: the shift byte by byte

`shift_safe` goes from the last of the `len` bytes to the first, moves each one and clears its old
place.

* With `len` below the length of the buffer, the bytes are moved, whether or not the two places
  overlap. Only their old places are cleared, so the bytes of the `gap` between the old places and
  the new ones are left (`shiftSafe_of_lt`).
* With `len` the length of the buffer, both places are the same, and every byte is cleared
  (`shiftSafe_length`).

So the result is the one of `shift_ub_inplace` when the bytes in question are zero before
(`safe_agrees_iff`).
-/

set_option autoImplicit false

namespace Tachyon

namespace Shift

/-! ### One round -/

theorem getElem?_eq_getD {bs : List UInt8} {i : Nat} (h : i < bs.length) :
    bs[i]? = some (bs.getD i 0) := by
  rw [List.getElem?_eq_getElem h, List.getD_eq_getElem _ _ h]

/-- A round with both accesses in the buffer. -/
theorem shiftSafeLoop_succ {len i : Nat} {buf : List UInt8} (hi : i < len)
    (hlen : len ≤ buf.length) : shiftSafeLoop len (i + 1) buf
      = shiftSafeLoop len i ((buf.set (buf.length - len + i) (buf.getD i 0)).set i 0) := by
  rw [shiftSafeLoop, getElem?_eq_getD (show i < buf.length by omega)]
  simp only [Option.bind_eq_bind, Option.bind_some, setUnchecked]
  rw [if_pos (by omega), Option.bind_some, if_pos (by rw [List.length_set]; omega),
    Option.bind_some]

/-! ### Room behind the bytes -/

/-- The bytes from `i` on have been moved, and their old places are zero where no other byte has
been moved to. -/
structure Moved (orig : List UInt8) (len i : Nat) (buf : List UInt8) : Prop where
  length : buf.length = orig.length
  moved : ∀ p, i ≤ p → p < len → buf[orig.length - len + p]? = orig[p]?
  cleared : ∀ p, i ≤ p → p < len → p < orig.length - len + i → buf[p]? = some 0
  kept : ∀ p, p < i ∨ len ≤ p → p < orig.length - len + i → buf[p]? = orig[p]?

variable {orig buf : List UInt8} {len i : Nat}

/-- A byte is read before anything is moved to its place, and cleared before that. -/
theorem Moved.step (h : Moved orig len (i + 1) buf) (hi : i < len) (hlt : len < orig.length) :
    Moved orig len i ((buf.set (buf.length - len + i) (buf.getD i 0)).set i 0) := by
  have hlength := h.length
  have hread : buf.getD i 0 = orig.getD i 0 := by
    rw [List.getD_eq_getElem?_getD, h.kept i (Or.inl (Nat.lt_succ_self i)) (by omega),
      ← List.getD_eq_getElem?_getD]
  rw [hread, hlength]
  constructor
  · rw [List.length_set, List.length_set, hlength]
  · intro p hp hplen
    rw [List.getElem?_set_ne (by omega)]
    rcases Nat.eq_or_lt_of_le hp with rfl | hgt
    · rw [List.getElem?_set_self (by omega), getElem?_eq_getD (by omega)]
    · rw [List.getElem?_set_ne (by omega)]
      exact h.moved p hgt hplen
  · intro p hp hplen hfront
    rcases Nat.eq_or_lt_of_le hp with rfl | hgt
    · exact List.getElem?_set_self (by rw [List.length_set]; omega)
    · rw [List.getElem?_set_ne (by omega), List.getElem?_set_ne (by omega)]
      exact h.cleared p hgt hplen (by omega)
  · intro p hp hfront
    rw [List.getElem?_set_ne (by omega), List.getElem?_set_ne (by omega)]
    exact h.kept p (by omega) (by omega)

/-- The rounds that are left move the bytes that are left. -/
theorem Moved.run (h : Moved orig len i buf) (hi : i ≤ len) (hlt : len < orig.length) :
    ∃ buf', shiftSafeLoop len i buf = some buf' ∧ Moved orig len 0 buf' := by
  induction i generalizing buf with
  | zero => exact ⟨buf, rfl, h⟩
  | succ i ih =>
    have hlen : len ≤ buf.length := by
      rw [h.length]
      omega
    rw [shiftSafeLoop_succ (by omega) hlen]
    exact ih (h.step (by omega) hlt) (by omega)

/-- The bytes between the first `len` and the last `len`. -/
def gap (buf : List UInt8) (len : Nat) : List UInt8 := (buf.take (buf.length - len)).drop len

theorem length_gap (buf : List UInt8) (len : Nat) :
    (gap buf len).length = buf.length - len - len := by
  rw [gap, List.length_drop, List.length_take]
  omega

/-- Where all bytes have been moved, the buffer is known. -/
theorem Moved.eq (h : Moved orig len 0 buf) (hlt : len < orig.length) :
    buf = List.replicate (min len (orig.length - len)) 0 ++ gap orig len ++ orig.take len := by
  have hzeros : (List.replicate (min len (orig.length - len)) (0 : UInt8)).length
      = min len (orig.length - len) := List.length_replicate
  have hgap := length_gap orig len
  have hfront : (List.replicate (min len (orig.length - len)) 0 ++ gap orig len).length
      = orig.length - len := by
    rw [List.length_append, hzeros, hgap]
    omega
  refine List.ext_getElem? fun p => ?_
  rcases Nat.lt_or_ge p (orig.length - len) with hp | hp
  · rw [List.getElem?_append_left (by omega)]
    rcases Nat.lt_or_ge p len with hplen | hplen
    · rw [List.getElem?_append_left (by omega), h.cleared p (Nat.zero_le p) hplen (by omega),
        List.getElem?_replicate_of_lt (by omega)]
    · rw [List.getElem?_append_right (by omega), h.kept p (Or.inr hplen) (by omega), hzeros, gap,
        List.getElem?_drop, List.getElem?_take_of_lt (by omega)]
      congr 1
      omega
  · rw [List.getElem?_append_right (by omega), hfront]
    rcases Nat.lt_or_ge (p - (orig.length - len)) len with hplen | hplen
    · have hmoved := h.moved (p - (orig.length - len)) (Nat.zero_le _) hplen
      rw [Nat.add_sub_of_le hp] at hmoved
      rw [hmoved, List.getElem?_take_of_lt hplen]
    · rw [List.getElem?_eq_none (by rw [h.length]; omega),
        List.getElem?_eq_none (by rw [List.length_take]; omega)]

/-- What `shift_safe` leaves when there is room behind the bytes. -/
theorem shiftSafe_of_lt (hlt : len < buf.length) : shiftSafe buf len
    = some (List.replicate (min len (buf.length - len)) 0 ++ gap buf len ++ buf.take len) := by
  have hstart : Moved buf len len buf :=
    { length := rfl
      moved := fun p hp hplen => absurd hp (Nat.not_le_of_lt hplen)
      cleared := fun p hp hplen => absurd hp (Nat.not_le_of_lt hplen)
      kept := fun _ _ _ => rfl }
  obtain ⟨buf', hrun, hmoved⟩ := hstart.run (Nat.le_refl len) hlt
  rw [shiftSafe, hrun, hmoved.eq hlt]

/-! ### No room behind the bytes -/

/-- Each byte is moved to its own place and then cleared. -/
theorem shiftSafeLoop_length (hi : i ≤ buf.length) : shiftSafeLoop buf.length i buf
    = some (List.replicate i 0 ++ buf.drop i) := by
  induction i generalizing buf with
  | zero => rfl
  | succ i ih =>
    have hround : (buf.set (buf.length - buf.length + i) (buf.getD i 0)).set i 0
        = buf.set i 0 := by
      rw [Nat.sub_self, Nat.zero_add, List.set_set]
    have hdrop : (buf.set i 0).drop i = 0 :: buf.drop (i + 1) := by
      rw [List.drop_eq_getElem_cons (by rw [List.length_set]; omega), List.getElem_set_self,
        List.drop_set_of_lt (Nat.lt_succ_self i)]
    have hrest := @ih (buf.set i 0) (by rw [List.length_set]; omega)
    rw [List.length_set, hdrop] at hrest
    rw [shiftSafeLoop_succ (by omega) (Nat.le_refl _), hround, hrest, List.replicate_succ',
      List.append_assoc, List.singleton_append]

/-- A shift by no places clears the buffer. -/
theorem shiftSafe_length (buf : List UInt8) :
    shiftSafe buf buf.length = some (List.replicate buf.length 0) := by
  rw [shiftSafe, shiftSafeLoop_length (Nat.le_refl _), List.drop_length, List.append_nil]

/-! ### Against the shift in place -/

/-- Both shifts leave the same buffer, the first `len` bytes at its end behind zeros. -/
structure SafeAgrees (buf : List UInt8) (len : Nat) : Prop where
  same : shiftSafe buf len = some (shiftUbInplace buf len)
  moved : shiftUbInplace buf len = List.replicate (buf.length - len) 0 ++ buf.take len

theorem forall_eq_zero_iff {bs : List UInt8} :
    bs = List.replicate bs.length 0 ↔ ∀ b ∈ bs, b = 0 := by
  rw [List.eq_replicate_iff]
  exact and_iff_right rfl

/-- With room behind the bytes, the gap is what counts. -/
theorem shiftSafe_eq_iff_of_lt (hlt : len < buf.length) :
    shiftSafe buf len = some (shiftUbInplace buf len) ↔ ∀ b ∈ gap buf len, b = 0 := by
  have hsplit : buf.length - len
      = min len (buf.length - len) + (gap buf len).length := by
    rw [length_gap]
    omega
  have hzeros : List.replicate (buf.length - len) (0 : UInt8)
      = List.replicate (min len (buf.length - len)) 0
        ++ List.replicate (gap buf len).length 0 := by
    rw [List.replicate_append_replicate, ← hsplit]
  rw [shiftSafe_of_lt hlt, shiftUbInplace_eq (Nat.le_of_lt hlt), Option.some.injEq, hzeros,
    List.append_cancel_right_eq, List.append_cancel_left_eq]
  exact forall_eq_zero_iff

/-- Without, all the bytes count. -/
theorem shiftSafe_eq_iff_of_eq (heq : len = buf.length) :
    shiftSafe buf len = some (shiftUbInplace buf len) ↔ ∀ b ∈ buf, b = 0 := by
  subst heq
  rw [shiftSafe_length, shiftUbInplace_eq (Nat.le_refl _), Nat.sub_self, List.replicate_zero,
    List.nil_append, List.take_length, Option.some.injEq, eq_comm]
  exact forall_eq_zero_iff

/-- For every buffer and every length: the shifts agree exactly when the bytes of the gap are zero
and, for the full length, all bytes are. -/
theorem safe_agrees_iff {buf : List UInt8} {len : Nat} (hbuf : buf.length = BUFFER_SIZE)
    (hlen : len ≤ BUFFER_SIZE) : SafeAgrees buf len ↔
      (∀ b ∈ gap buf len, b = 0) ∧ (len = BUFFER_SIZE → ∀ b ∈ buf, b = 0) := by
  have hfit : len ≤ buf.length := by rwa [hbuf]
  have hagrees : SafeAgrees buf len ↔ shiftSafe buf len = some (shiftUbInplace buf len) :=
    ⟨fun h => h.same, fun h => { same := h, moved := shiftUbInplace_eq hfit }⟩
  rw [hagrees, ← hbuf]
  rcases Nat.eq_or_lt_of_le hfit with heq | hlt
  · rw [shiftSafe_eq_iff_of_eq heq]
    constructor
    · intro h
      refine ⟨fun b hb => ?_, fun _ => h⟩
      exact h b (List.mem_of_mem_take (List.mem_of_mem_drop hb))
    · rintro ⟨_, h⟩
      exact h heq
  · rw [shiftSafe_eq_iff_of_lt hlt]
    constructor
    · intro h
      exact ⟨h, fun heq => absurd heq (Nat.ne_of_lt hlt)⟩
    · rintro ⟨h, _⟩
      exact h

/-- More than half of the buffer: the places overlap, and there is no gap. -/
theorem safe_agrees_overlap : SafeAgrees (List.replicate BUFFER_SIZE 65) 4000 := by
  refine (safe_agrees_iff List.length_replicate (by decide)).mpr ⟨?_, ?_⟩
  · have hnil : gap (List.replicate BUFFER_SIZE 65) 4000 = [] := by
      rw [← List.length_eq_zero_iff, length_gap, List.length_replicate]
      rfl
    rw [hnil]
    intro b hb
    cases hb
  · intro h
    exact absurd h (by decide)

/-- A full buffer is lost. -/
theorem not_safe_agrees : ¬ ∀ (buf : List UInt8) (len : Nat), buf.length = BUFFER_SIZE →
    len ≤ BUFFER_SIZE → SafeAgrees buf len := by
  intro hall
  have hlength : (List.replicate BUFFER_SIZE (71 : UInt8)).length = BUFFER_SIZE :=
    List.length_replicate
  have hsame := (hall (List.replicate BUFFER_SIZE 71) BUFFER_SIZE hlength (Nat.le_refl _)).same
  have hzero := (shiftSafe_eq_iff_of_eq hlength.symm).mp hsame 71
    (List.mem_replicate.mpr ⟨by decide, rfl⟩)
  exact absurd hzero (by decide)

end Shift

end Tachyon
