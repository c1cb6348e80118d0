import Mathlib.Data.BitVec
import Mathlib.Data.List.Basic

/-!
# `Tachyon.Lib.Bits`: the set bits of a word

`bitsOf m` lists the set bits of a word, lowest first. A loop that takes the lowest bit out of a
word and clears it goes through this list: `m.ctz` is its head, and `m &&& (m - 1)` is the word
of its tail (`bitsOf_eq_cons`).
-/

set_option autoImplicit false

namespace Tachyon

namespace Bits

variable {w : Nat}

/-- The set bits, lowest first. -/
def bitsOf (m : BitVec w) : List Nat := (List.range w).filter fun k => m.getLsbD k

theorem mem_bitsOf {m : BitVec w} {k : Nat} : k ∈ bitsOf m ↔ m.getLsbD k = true := by
  rw [bitsOf, List.mem_filter, List.mem_range]
  exact ⟨fun h => h.2, fun h => ⟨BitVec.lt_of_getLsbD h, h⟩⟩

theorem bitsOf_zero : bitsOf (0 : BitVec w) = [] := by
  rw [List.eq_nil_iff_forall_not_mem]
  intro k hk
  rw [mem_bitsOf] at hk
  simp at hk

/-- At most one bit for each position. -/
theorem length_bitsOf_le (m : BitVec w) : (bitsOf m).length ≤ w := by
  have h := List.length_filter_le (fun k => m.getLsbD k) (List.range w)
  rwa [List.length_range] at h

theorem ctz_lt {m : BitVec w} (h : m ≠ 0) : m.ctz.toNat < w :=
  BitVec.lt_of_getLsbD (BitVec.getLsbD_true_ctz_of_ne_zero h)

/-- The first set bit of a word is where `ctz` says. -/
theorem ctz_eq_of_first {m : BitVec w} {k : Nat} (hk : m.getLsbD k = true)
    (hlow : ∀ j, j < k → m.getLsbD j = false) : m ≠ 0 ∧ m.ctz.toNat = k := by
  have hne : m ≠ 0 := by
    rintro rfl
    simp at hk
  refine ⟨hne, ?_⟩
  rcases Nat.lt_trichotomy m.ctz.toNat k with hlt | heq | hgt
  · have htrue := BitVec.getLsbD_true_ctz_of_ne_zero hne
    rw [hlow _ hlt] at htrue
    cases htrue
  · exact heq
  · rw [BitVec.getLsbD_false_of_lt_ctz hgt] at hk
    cases hk

/-- A nonzero word is an odd multiple of the power of its lowest set bit. -/
theorem toNat_eq_of_ne_zero {m : BitVec w} (h : m ≠ 0) :
    ∃ q, m.toNat = 2 ^ (m.ctz.toNat + 1) * q + 2 ^ m.ctz.toNat := by
  refine ⟨m.toNat / 2 ^ (m.ctz.toNat + 1), ?_⟩
  have hrest : m.toNat % 2 ^ (m.ctz.toNat + 1) = 2 ^ m.ctz.toNat := by
    apply Nat.eq_of_testBit_eq
    intro j
    rw [Nat.testBit_mod_two_pow, Nat.testBit_two_pow]
    rcases Nat.lt_trichotomy j m.ctz.toNat with hlt | rfl | hgt
    · have hfalse := BitVec.getLsbD_false_of_lt_ctz hlt
      have hbit : m.toNat.testBit j = false := hfalse
      simp [hbit, Nat.ne_of_gt hlt]
    · have htrue := BitVec.getLsbD_true_ctz_of_ne_zero h
      have hbit : m.toNat.testBit m.ctz.toNat = true := htrue
      simp [hbit]
    · simp [Nat.ne_of_lt hgt, show ¬ j < m.ctz.toNat + 1 by omega]
  have hdiv := Nat.div_add_mod m.toNat (2 ^ (m.ctz.toNat + 1))
  rw [hrest] at hdiv
  exact hdiv.symm

/-- `m & (m - 1)` clears the lowest set bit and nothing else. -/
theorem getLsbD_and_sub_one {m : BitVec w} (h : m ≠ 0) (k : Nat) :
    (m &&& (m - 1)).getLsbD k = (m.getLsbD k && decide (k ≠ m.ctz.toNat)) := by
  obtain ⟨q, hq⟩ := toNat_eq_of_ne_zero h
  have hw : 0 < w := Nat.zero_lt_of_lt (ctz_lt h)
  have hpos : 0 < 2 ^ m.ctz.toNat := Nat.two_pow_pos _
  have hlt : 2 ^ m.ctz.toNat < 2 ^ (m.ctz.toNat + 1) :=
    Nat.pow_lt_pow_right (by decide) (Nat.lt_succ_self _)
  have hsub : (m - 1).toNat = 2 ^ (m.ctz.toNat + 1) * q + (2 ^ m.ctz.toNat - 1) := by
    have hone : (1 : BitVec w).toNat = 1 :=
      (BitVec.toNat_ofNat 1 w).trans (Nat.mod_eq_of_lt (Nat.one_lt_two_pow (by omega)))
    rw [BitVec.toNat_sub_of_le (by rw [BitVec.le_def, hone]; omega), hone, hq]
    omega
  -- Below the lowest set bit `m` has zeros, above it `m - 1` has the bits of `m`.
  have hbit : m.getLsbD k = (2 ^ (m.ctz.toNat + 1) * q + 2 ^ m.ctz.toNat).testBit k := by
    rw [← hq]
    rfl
  have hbit' : (m - 1).getLsbD k
      = (2 ^ (m.ctz.toNat + 1) * q + (2 ^ m.ctz.toNat - 1)).testBit k := by
    rw [← hsub]
    rfl
  rw [BitVec.getLsbD_and, hbit, hbit', Nat.testBit_two_pow_mul_add _ hlt,
    Nat.testBit_two_pow_mul_add _ (Nat.lt_of_le_of_lt (Nat.sub_le _ _) hlt),
    Nat.testBit_two_pow, Nat.testBit_two_pow_sub_one]
  rcases Nat.lt_trichotomy k m.ctz.toNat with hk | rfl | hk
  · simp [Nat.lt_succ_of_lt hk, Nat.ne_of_gt hk]
  · simp
  · simp [show ¬ k < m.ctz.toNat + 1 by omega, Nat.ne_of_gt hk]

/-- The lowest set bit, and then the bits that are left without it. -/
theorem bitsOf_eq_cons {m : BitVec w} (h : m ≠ 0) :
    bitsOf m = m.ctz.toNat :: bitsOf (m &&& (m - 1)) := by
  have hlt := ctz_lt h
  -- The positions below the lowest set bit, the bit itself, and those above.
  have hsplit : List.range w = List.range m.ctz.toNat
      ++ m.ctz.toNat :: List.range' (m.ctz.toNat + 1) (w - (m.ctz.toNat + 1)) := by
    have hw : w = m.ctz.toNat + (w - (m.ctz.toNat + 1) + 1) := by omega
    have happ : List.range' 0 m.ctz.toNat
        ++ List.range' (0 + m.ctz.toNat) (w - (m.ctz.toNat + 1) + 1) = List.range' 0 _ :=
      List.range'_append_1
    rw [← hw, Nat.zero_add, List.range'_succ] at happ
    rw [List.range_eq_range', List.range_eq_range', ← happ]
  have hlow : ∀ f : Nat → Bool, (∀ k, k < m.ctz.toNat → f k = false) →
      (List.range m.ctz.toNat).filter f = [] := by
    intro f hf
    rw [List.filter_eq_nil_iff]
    intro k hk
    simp [hf k (List.mem_range.mp hk)]
  have hhigh : (List.range' (m.ctz.toNat + 1) (w - (m.ctz.toNat + 1))).filter
        (fun k => (m &&& (m - 1)).getLsbD k)
      = (List.range' (m.ctz.toNat + 1) (w - (m.ctz.toNat + 1))).filter fun k => m.getLsbD k := by
    refine List.filter_congr fun k hk => ?_
    have hge := (List.mem_range'_1.mp hk).1
    rw [getLsbD_and_sub_one h, decide_eq_true (show k ≠ m.ctz.toNat by omega), Bool.and_true]
  rw [bitsOf, bitsOf, hsplit, List.filter_append, List.filter_append, List.filter_cons,
    List.filter_cons, hhigh, hlow _ fun k hk => BitVec.getLsbD_false_of_lt_ctz hk,
    hlow _ fun k hk => by
      rw [getLsbD_and_sub_one h, BitVec.getLsbD_false_of_lt_ctz hk, Bool.false_and]]
  have hself : ¬ (m &&& (m - 1)).getLsbD m.ctz.toNat = true := by
    rw [getLsbD_and_sub_one h, decide_eq_false (not_not.mpr rfl), Bool.and_false]
    exact Bool.false_ne_true
  rw [if_pos (BitVec.getLsbD_true_ctz_of_ne_zero h), if_neg hself]
  rfl

end Bits

end Tachyon
