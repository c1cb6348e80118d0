import Mathlib.Algebra.Ring.Nat
import Mathlib.Data.List.Basic

/-!
# `Tachyon.Lib.Cells`: gathering ranges of a memory

A memory whose cells hold values of any type. `gather` copies one range after another to
consecutive places. Where no range meets the destination, it gets what all of them hold, in
order (`read_gather`), and nothing else changes (`gather_of_outside`).
-/

set_option autoImplicit false

namespace Tachyon

/-- A memory of cells. -/
abbrev Cells (α : Type) := Nat → α

namespace Cells

/-! ### Ranges -/

/-- The ranges of `n` cells from `p` and of `k` cells from `q` have no cell in common. -/
def Apart (p n q k : Nat) : Prop := ∀ a, p ≤ a → a < p + n → ¬ (q ≤ a ∧ a < q + k)

/-- One range ends before the other begins. -/
theorem Apart.of_le {p n q k : Nat} (h : p + n ≤ q ∨ q + k ≤ p) : Apart p n q k := by
  intro a hp hlt hin
  omega

/-- A part of the second range. -/
theorem Apart.mono {p n q k q' k' : Nat} (h : Apart p n q k) (hstart : q ≤ q')
    (hstop : q' + k' ≤ q + k) : Apart p n q' k' := by
  intro a hp hlt hin
  exact h a hp hlt ⟨by omega, by omega⟩

/-- Two ranges of one length that are apart: they are empty, or one is behind the other. -/
theorem Apart.cases {p n q : Nat} (h : Apart p n q n) : n = 0 ∨ p + n ≤ q ∨ q + n ≤ p := by
  by_contra hnot
  have hp := h p (Nat.le_refl p) (by omega)
  have hq := h q
  omega

variable {α : Type}

/-- The `n` cells from `p`. -/
def read (m : Cells α) (p n : Nat) : List α := (List.range n).map fun i => m (p + i)

/-- The `n` cells from `src`, copied to `dst`. -/
def copy (m : Cells α) (src dst n : Nat) : Cells α := fun a =>
  if dst ≤ a ∧ a < dst + n then m (src + (a - dst)) else m a

@[simp] theorem length_read (m : Cells α) (p n : Nat) : (m.read p n).length = n := by
  rw [read, List.length_map, List.length_range]

theorem read_congr {m m' : Cells α} {p n : Nat} (h : ∀ a, p ≤ a → a < p + n → m a = m' a) :
    m.read p n = m'.read p n :=
  List.map_congr_left fun i hi => by
    have hlt := List.mem_range.mp hi
    exact h (p + i) (Nat.le_add_right p i) (by omega)

/-- A read splits at every inner cell. -/
theorem read_add (m : Cells α) (p n k : Nat) :
    m.read p (n + k) = m.read p n ++ m.read (p + n) k := by
  rw [read, List.range_add, List.map_append, List.map_map, read, read]
  congr 1
  exact List.map_congr_left fun i _ => congrArg m (Nat.add_assoc p n i).symm

theorem copy_of_outside (m : Cells α) (src : Nat) {dst n a : Nat} (h : a < dst ∨ dst + n ≤ a) :
    m.copy src dst n a = m a := by
  have hout : ¬ (dst ≤ a ∧ a < dst + n) := by omega
  exact if_neg hout

theorem read_copy (m : Cells α) (src dst n : Nat) : (m.copy src dst n).read dst n = m.read src n :=
  List.map_congr_left fun i hi => by
    have hlt := List.mem_range.mp hi
    have hin : dst ≤ dst + i ∧ dst + i < dst + n := by omega
    rw [copy, if_pos hin, Nat.add_sub_cancel_left]

/-- A range apart from the destination is kept. -/
theorem read_copy_of_apart (m : Cells α) (src : Nat) {p k dst n : Nat} (h : Apart p k dst n) :
    (m.copy src dst n).read p k = m.read p k :=
  read_congr fun a hp hlt => by
    have hout := h a hp hlt
    exact copy_of_outside m src (by omega)

/-! ### Gathering -/

/-- The number of cells of all ranges. -/
def total (segs : List (Nat × Nat)) : Nat := (segs.map Prod.snd).sum

/-- What the ranges hold, in order. -/
def contents (m : Cells α) (segs : List (Nat × Nat)) : List α :=
  segs.flatMap fun s => m.read s.1 s.2

/-- One range after another, copied to consecutive places from `dst` on. -/
def gather (m : Cells α) : List (Nat × Nat) → Nat → Cells α
  | [], _ => m
  | (src, n) :: segs, dst => gather (m.copy src dst n) segs (dst + n)

@[simp] theorem total_nil : total [] = 0 := rfl

@[simp] theorem total_cons (src n : Nat) (segs : List (Nat × Nat)) :
    total ((src, n) :: segs) = n + total segs := rfl

theorem contents_cons (m : Cells α) (src n : Nat) (segs : List (Nat × Nat)) :
    m.contents ((src, n) :: segs) = m.read src n ++ m.contents segs := rfl

/-- Memories that agree on the ranges have the same contents there. -/
theorem contents_congr {m m' : Cells α} {segs : List (Nat × Nat)}
    (h : ∀ s ∈ segs, m.read s.1 s.2 = m'.read s.1 s.2) : m.contents segs = m'.contents segs := by
  rw [contents, contents, List.flatMap_def, List.flatMap_def, List.map_congr_left h]

/-- Nothing but the destination is written. -/
theorem gather_of_outside {m : Cells α} {segs : List (Nat × Nat)} {dst a : Nat}
    (h : a < dst ∨ dst + total segs ≤ a) : m.gather segs dst a = m a := by
  induction segs generalizing m dst with
  | nil => rfl
  | cons s segs ih =>
    obtain ⟨src, n⟩ := s
    rw [total_cons] at h
    rw [gather, ih (by omega), copy_of_outside m src (by omega)]

/-- The destination gets what the ranges hold. -/
theorem read_gather {m : Cells α} {segs : List (Nat × Nat)} {dst : Nat}
    (h : ∀ s ∈ segs, Apart s.1 s.2 dst (total segs)) :
    (m.gather segs dst).read dst (total segs) = m.contents segs := by
  induction segs generalizing m dst with
  | nil => rfl
  | cons s segs ih =>
    obtain ⟨src, n⟩ := s
    rw [total_cons] at h ⊢
    have hrest : ∀ s ∈ segs, Apart s.1 s.2 (dst + n) (total segs) := by
      intro s hs
      exact (h s (List.mem_cons_of_mem _ hs)).mono (Nat.le_add_right dst n) (by omega)
    -- The first range is in place before the others come, and they are not written over.
    have hfirst : ((m.copy src dst n).gather segs (dst + n)).read dst n = m.read src n := by
      rw [← read_copy m src dst n]
      exact read_congr fun a _ hlt => gather_of_outside (by omega)
    have hothers : (m.copy src dst n).contents segs = m.contents segs := by
      refine contents_congr fun s hs => ?_
      exact read_copy_of_apart m src
        ((h s (List.mem_cons_of_mem _ hs)).mono (Nat.le_refl dst) (by omega))
    rw [gather, read_add, hfirst, ih hrest, hothers, contents_cons]

end Cells

end Tachyon
