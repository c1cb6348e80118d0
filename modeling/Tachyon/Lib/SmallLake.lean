import Tachyon.Lib.Memory

/-!
# `Tachyon.Lib.SmallLake`: a fixed array with a write position

The array has `N` bytes and never moves. A write looks whether its bytes fit behind the
position. When they do, it copies them there and moves the position past them. When they do
not, it sets the position to 0 first and overwrites the array from the start. A write never
fails. A reset moves the position back to the start and leaves the bytes.

So a write appends to the slice exactly when its bytes fit (`asSlice_write`). When they do not
fit, they are the whole slice afterwards and what was there is gone
(`asSlice_write_of_not_fits`).
-/

set_option autoImplicit false

namespace Tachyon

/-- A fixed array of `N` bytes with a write position. -/
structure SmallLake (N : Nat) where
  buf : Mem
  pos : Nat

namespace SmallLake

variable {N : Nat} (l : SmallLake N) {bs : List UInt8}

/-- The fresh lake. -/
def build : SmallLake N := ⟨fun _ => 0, 0⟩

/-- The number of bytes before the position. -/
def len : Nat := l.pos

/-- The bytes before the position. -/
def asSlice : List UInt8 := l.buf.read 0 l.pos

/-- The position goes back to the start. The bytes stay. -/
def resetPos : SmallLake N := ⟨l.buf, 0⟩

/-- The bytes fit behind the position. -/
def Fits (bs : List UInt8) : Prop := l.pos + bs.length ≤ N

instance (bs : List UInt8) : Decidable (l.Fits bs) := inferInstanceAs (Decidable (_ ≤ _))

/-- The bytes go to the position, or to the start when they do not fit behind it. -/
def write (bs : List UInt8) : SmallLake N :=
  if l.Fits bs then ⟨l.buf.write l.pos bs, l.pos + bs.length⟩
  else ⟨l.buf.write 0 bs, bs.length⟩

@[simp] theorem len_build : (build : SmallLake N).len = 0 := rfl

@[simp] theorem len_resetPos : l.resetPos.len = 0 := rfl

@[simp] theorem buf_resetPos : l.resetPos.buf = l.buf := rfl

@[simp] theorem pos_resetPos : l.resetPos.pos = 0 := rfl

@[simp] theorem asSlice_build : (build : SmallLake N).asSlice = [] := rfl

@[simp] theorem asSlice_resetPos : l.resetPos.asSlice = [] := rfl

@[simp] theorem length_asSlice : l.asSlice.length = l.pos := by
  simp [asSlice]

variable {l}

/-- An empty lake takes every block that its array holds. -/
theorem fits_of_len_eq_zero (h : l.len = 0) (hle : bs.length ≤ N) : l.Fits bs := by
  have hpos : l.pos = 0 := h
  rw [Fits, hpos, Nat.zero_add]
  exact hle

theorem write_of_fits (h : l.Fits bs) :
    l.write bs = ⟨l.buf.write l.pos bs, l.pos + bs.length⟩ := if_pos h

theorem write_of_not_fits (h : ¬ l.Fits bs) : l.write bs = ⟨l.buf.write 0 bs, bs.length⟩ :=
  if_neg h

/-- Where the position is after a write. -/
theorem pos_write (l : SmallLake N) (bs : List UInt8) :
    (l.write bs).pos = if l.pos + bs.length ≤ N then l.pos + bs.length else bs.length := by
  by_cases h : l.Fits bs
  · rw [write_of_fits h]
    exact (if_pos h).symm
  · rw [write_of_not_fits h]
    exact (if_neg h).symm

/-- A write that fits appends to the slice. -/
theorem asSlice_write (h : l.Fits bs) : (l.write bs).asSlice = l.asSlice ++ bs := by
  have happ := l.buf.read_write_append 0 l.pos bs
  rw [Nat.zero_add] at happ
  rw [write_of_fits h, asSlice, happ, asSlice]

/-- A write that does not fit leaves its own bytes alone. -/
theorem asSlice_write_of_not_fits (h : ¬ l.Fits bs) : (l.write bs).asSlice = bs := by
  rw [write_of_not_fits h, asSlice]
  exact Mem.read_write_self _ _ _

end SmallLake

end Tachyon
