import Mathlib.Data.List.GetD
import Mathlib.Data.List.OfFn
import Tachyon.Lib.Memory

/-!
# `Tachyon.Utils.Simd`: the AVX2 intrinsics of the scanners

A `__m256i` is 32 byte lanes. A load takes the 32 bytes from an address of the memory, whoever
owns them, so a load past the end of a slice is visible in what it returns.
-/

set_option autoImplicit false

namespace Tachyon

/-- `__m256i` as 32 byte lanes. -/
abbrev M256i := Fin 32 → UInt8

namespace Simd

/-- `_mm256_loadu_si256(ptr.add(i))`. -/
def loaduSi256 (ptr : Mem) (i : Nat) : M256i := fun k => ptr (i + k)

/-- `_mm256_set1_epi8`. -/
def set1Epi8 (b : UInt8) : M256i := fun _ => b

/-- `_mm256_setzero_si256`. -/
def setzeroSi256 : M256i := fun _ => 0

/-- `_mm256_cmpeq_epi8`: all ones in the lanes that agree. -/
def cmpeqEpi8 (a b : M256i) : M256i := fun k => if a k = b k then 0xFF else 0

/-- `_mm256_and_si256`. -/
def andSi256 (a b : M256i) : M256i := fun k => a k &&& b k

/-- `_mm256_movemask_epi8(..) as u32`: the top bit of each lane. -/
def movemaskEpi8 (a : M256i) : BitVec 32 :=
  (BitVec.ofBoolListLE (List.ofFn fun k => decide (0x80 ≤ a k))).setWidth 32

theorem getLsbD_movemaskEpi8 (a : M256i) (k : Fin 32) :
    (movemaskEpi8 a).getLsbD k = decide (0x80 ≤ a k) := by
  have hk : (k : Nat) < (List.ofFn fun k => decide (0x80 ≤ a k)).length := by
    rw [List.length_ofFn]
    exact k.isLt
  rw [movemaskEpi8, BitVec.getLsbD_setWidth, BitVec.getLsbD_ofBoolListLE,
    List.getD_eq_getElem _ _ hk, List.getElem_ofFn, decide_eq_true k.isLt, Bool.true_and]

/-- The mask of a comparison has the bits of the lanes that agree. -/
theorem getLsbD_movemask_cmpeq (a b : M256i) (k : Fin 32) :
    (movemaskEpi8 (cmpeqEpi8 a b)).getLsbD k = decide (a k = b k) := by
  rw [getLsbD_movemaskEpi8, cmpeqEpi8]
  by_cases h : a k = b k <;> simp [h]

/-- The mask of three comparisons under `and` has the bits of the lanes where all agree. -/
theorem getLsbD_movemask_and3 (a0 b0 a1 b1 a2 b2 : M256i) (k : Fin 32) :
    (movemaskEpi8 (andSi256 (cmpeqEpi8 a0 b0)
      (andSi256 (cmpeqEpi8 a1 b1) (cmpeqEpi8 a2 b2)))).getLsbD k
      = decide (a0 k = b0 k ∧ a1 k = b1 k ∧ a2 k = b2 k) := by
  rw [getLsbD_movemaskEpi8]
  simp only [andSi256, cmpeqEpi8]
  by_cases h0 : a0 k = b0 k <;> by_cases h1 : a1 k = b1 k <;> by_cases h2 : a2 k = b2 k <;>
    simp [h0, h1, h2]

end Simd

end Tachyon
