import Mathlib.Data.List.GetD
import Tachyon.Lib.Cells

/-!
# `Tachyon.Lib.Memory`: byte memory

A memory is a total map from addresses to bytes. The reads and the writes have an explicit
length. Nothing in this file knows what the addresses stand for: a fixed array is a memory
whose owner checks the bounds.

The lemmas say how a read meets an earlier write: inside it (`read_write_self`), before it
(`read_write_of_le`), and across its lower edge (`read_write_append`). A write behind another one
extends it (`write_write_append`).
-/

set_option autoImplicit false

namespace Tachyon

/-- A byte memory. -/
abbrev Mem := Nat → UInt8

namespace Mem

/-- The `n` bytes from the address `p`. -/
def read (m : Mem) (p n : Nat) : List UInt8 :=
  (List.range n).map fun i => m (p + i)

/-- The memory with `bs` at the address `p`. -/
def write (m : Mem) (p : Nat) (bs : List UInt8) : Mem := fun a =>
  if p ≤ a ∧ a < p + bs.length then bs.getD (a - p) 0 else m a

/-- The memory seen from the address `p`. -/
def shift (m : Mem) (p : Nat) : Mem := fun i => m (p + i)

@[simp] theorem length_read (m : Mem) (p n : Nat) : (m.read p n).length = n :=
  Cells.length_read m p n

@[simp] theorem read_zero (m : Mem) (p : Nat) : m.read p 0 = [] := rfl

@[simp] theorem write_nil (m : Mem) (p : Nat) : m.write p [] = m := by
  funext a
  simp only [write, List.length_nil, Nat.add_zero]
  rw [if_neg (by omega)]

@[simp] theorem read_shift (m : Mem) (p n : Nat) : (m.shift p).read 0 n = m.read p n :=
  List.map_congr_left fun i _ => by rw [shift, Nat.zero_add]

/-- Two memories that agree on the range give the same bytes. -/
theorem read_congr {m m' : Mem} {p n : Nat} (h : ∀ i, i < n → m (p + i) = m' (p + i)) :
    m.read p n = m'.read p n :=
  List.map_congr_left fun i hi => h i (List.mem_range.mp hi)

/-- A read splits at every inner address. -/
theorem read_add (m : Mem) (p n k : Nat) :
    m.read p (n + k) = m.read p n ++ m.read (p + n) k :=
  Cells.read_add m p n k

theorem getElem?_read (m : Mem) (p : Nat) {n i : Nat} (h : i < n) :
    (m.read p n)[i]? = some (m (p + i)) := by
  rw [read, List.getElem?_map, List.getElem?_range h, Option.map_some]

theorem getD_read (m : Mem) (p : Nat) {n i : Nat} (h : i < n) :
    (m.read p n).getD i 0 = m (p + i) := by
  rw [List.getD_eq_getElem?_getD, getElem?_read m p h, Option.getD_some]

/-- The front of a read is a shorter read. -/
theorem take_read (m : Mem) (p : Nat) {n k : Nat} (h : k ≤ n) :
    (m.read p n).take k = m.read p k := by
  obtain ⟨rest, rfl⟩ := Nat.exists_eq_add_of_le h
  rw [read_add]
  exact List.take_left' (length_read m p k)

/-- Two ranges have the same bytes. -/
theorem read_eq_read_iff {m m' : Mem} {p p' n : Nat} :
    m.read p n = m'.read p' n ↔ ∀ i, i < n → m (p + i) = m' (p' + i) := by
  constructor
  · intro h i hi
    rw [← getD_read m p hi, ← getD_read m' p' hi, h]
  · intro h
    exact List.map_congr_left fun i hi => h i (List.mem_range.mp hi)

/-- A write changes nothing outside of its range. -/
theorem write_of_outside (m : Mem) {p a : Nat} (bs : List UInt8)
    (h : a < p ∨ p + bs.length ≤ a) : m.write p bs a = m a := by
  have hout : ¬ (p ≤ a ∧ a < p + bs.length) := by omega
  exact if_neg hout

theorem write_of_inside (m : Mem) {p i : Nat} {bs : List UInt8} (h : i < bs.length) :
    m.write p bs (p + i) = bs.getD i 0 := by
  have hin : p ≤ p + i ∧ p + i < p + bs.length := by omega
  rw [write, if_pos hin, Nat.add_sub_cancel_left]

/-- A write behind an earlier one extends it. -/
theorem write_write_append (m : Mem) (p : Nat) (xs ys : List UInt8) :
    (m.write p xs).write (p + xs.length) ys = m.write p (xs ++ ys) := by
  funext a
  simp only [write, List.length_append]
  by_cases hback : p + xs.length ≤ a ∧ a < p + xs.length + ys.length
  · rw [if_pos hback, if_pos (by omega), List.getD_append_right _ _ _ _ (by omega)]
    congr 1
    omega
  · rw [if_neg hback]
    by_cases hfront : p ≤ a ∧ a < p + xs.length
    · rw [if_pos hfront, if_pos (by omega), List.getD_append _ _ _ _ (by omega)]
    · rw [if_neg hfront, if_neg (by omega)]

/-- A write is read back. -/
theorem read_write_self (m : Mem) (p : Nat) (bs : List UInt8) :
    (m.write p bs).read p bs.length = bs := by
  apply List.ext_getElem
  · simp
  · intro i _ hi
    simp [read, write, hi]

/-- A write above the range is not seen. -/
theorem read_write_of_le (m : Mem) {p n q : Nat} (bs : List UInt8) (h : p + n ≤ q) :
    (m.write q bs).read p n = m.read p n :=
  read_congr fun i hi => write_of_outside m bs (by omega)

/-- A write at the end of a range extends the bytes of the range. -/
theorem read_write_append (m : Mem) (p n : Nat) (bs : List UInt8) :
    (m.write (p + n) bs).read p (n + bs.length) = m.read p n ++ bs := by
  rw [read_add, read_write_of_le m bs (Nat.le_refl _), read_write_self]

end Mem

end Tachyon
