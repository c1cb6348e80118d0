import Tachyon.Utils.Memory

/-!
# `Tachyon.Proofs.Flatten`: the two flattenings

Both loops gather the iovecs' bytes at consecutive places (`fastLoop_eq`, `flattenLoop_eq`). The
fast one writes them to the start of its slice. The other one writes them behind the bytes of a
vector, after `reserve` has made room for them.

In an address space `reserve` never panics (`grown_le`): the vector and the slice are blocks in it,
so the new length is far below `isize::MAX`. Hence the flattenings agree (`flattenings_agree`).
-/

set_option autoImplicit false

namespace Tachyon

namespace Memory

open Cells

/-! ### The loops -/

/-- The ranges of a list of iovecs. -/
def segs (iovecs : List Iovec) : List (Nat × Nat) :=
  iovecs.map fun iov => (iov.iovBase, iov.iovLen)

/-- No iovec meets the range of `n` bytes from `p`. -/
def ApartFrom (iovecs : List Iovec) (p n : Nat) : Prop :=
  ∀ iov ∈ iovecs, Apart iov.iovBase iov.iovLen p n

theorem total_segs (iovecs : List Iovec) : total (segs iovecs) = (iovecs.map Iovec.iovLen).sum := by
  rw [total, segs, List.map_map]
  rfl

theorem total_segs_cons (iov : Iovec) (iovecs : List Iovec) :
    total (segs (iov :: iovecs)) = iov.iovLen + total (segs iovecs) := rfl

theorem ApartFrom.of_mem_segs {iovecs : List Iovec} {p n : Nat} (h : ApartFrom iovecs p n) :
    ∀ s ∈ segs iovecs, Apart s.1 s.2 p n := by
  intro s hs
  obtain ⟨iov, hiov, rfl⟩ := List.mem_map.mp hs
  exact h iov hiov

/-- Every iovec ends before the range or begins behind it. -/
theorem ApartFrom.of_le {iovecs : List Iovec} {p n : Nat}
    (h : ∀ iov ∈ iovecs, iov.iovBase + iov.iovLen ≤ p ∨ p + n ≤ iov.iovBase) :
    ApartFrom iovecs p n := by
  intro iov hiov
  exact .of_le (h iov hiov)

theorem ApartFrom.mono {iovecs : List Iovec} {p n p' n' : Nat} (h : ApartFrom iovecs p n)
    (hstart : p ≤ p') (hstop : p' + n' ≤ p + n) : ApartFrom iovecs p' n' := by
  intro iov hiov
  exact (h iov hiov).mono hstart hstop

/-- Behind the place of the first iovec, the others do not meet theirs. -/
theorem ApartFrom.tail {iov : Iovec} {iovecs : List Iovec} {dst : Nat}
    (h : ApartFrom (iov :: iovecs) dst (total (segs (iov :: iovecs)))) :
    ApartFrom iovecs (dst + iov.iovLen) (total (segs iovecs)) := by
  rw [total_segs_cons] at h
  intro iov' hiov'
  exact (h iov' (List.mem_cons_of_mem _ hiov')).mono (Nat.le_add_right _ _) (by omega)

/-- A copy to the place of the first iovec is one of ranges that do not overlap. -/
theorem copyNonoverlapping_of_apart {iov : Iovec} {iovecs : List Iovec} {dst : Nat} (m : Heap)
    (h : ApartFrom (iov :: iovecs) dst (total (segs (iov :: iovecs)))) :
    copyNonoverlapping m iov.iovBase dst iov.iovLen
      = some (m.copy iov.iovBase dst iov.iovLen) := by
  rw [total_segs_cons] at h
  have hfirst : Apart iov.iovBase iov.iovLen dst iov.iovLen :=
    (h iov List.mem_cons_self).mono (Nat.le_refl dst) (by omega)
  exact if_pos hfirst.cases

theorem flattenLoop_eq {iovecs : List Iovec} {dst : Nat} (m : Heap)
    (h : ApartFrom iovecs dst (total (segs iovecs))) :
    flattenLoop iovecs dst m = some (m.gather (segs iovecs) dst) := by
  induction iovecs generalizing m dst with
  | nil => rfl
  | cons iov iovecs ih =>
    rw [flattenLoop, copyNonoverlapping_of_apart m h]
    exact ih (m.copy iov.iovBase dst iov.iovLen) h.tail

theorem fastLoop_eq {iovecs : List Iovec} {out offset : Nat} (m : Heap)
    (h : ApartFrom iovecs (out + offset) (total (segs iovecs)))
    (hlt : offset + total (segs iovecs) < 2 ^ 64) :
    fastLoop out iovecs offset m
      = some (offset + total (segs iovecs), m.gather (segs iovecs) (out + offset)) := by
  induction iovecs generalizing m offset with
  | nil => rfl
  | cons iov iovecs ih =>
    have hsum := total_segs_cons iov iovecs
    have hwrap : (offset + iov.iovLen) % 2 ^ 64 = offset + iov.iovLen :=
      Nat.mod_eq_of_lt (by omega)
    have htail := h.tail
    rw [Nat.add_assoc] at htail
    have hrest := ih (m.copy iov.iovBase (out + offset) iov.iovLen) htail (by omega)
    rw [fastLoop, copyNonoverlapping_of_apart m h]
    simp only [Option.bind_eq_bind, Option.bind_some]
    rw [hwrap, hrest, hsum, ← Nat.add_assoc, ← Nat.add_assoc]
    rfl

/-! ### Room for the bytes -/

/-- A vector in the address space that takes as many bytes as there are addresses. Its new capacity
is not too large. -/
theorem grown_le {v : ByteVec} {additional : Nat} (hv : v.ptr + v.capacity ≤ ADDRESS_SPACE)
    (hadd : additional ≤ ADDRESS_SPACE) : v.grown (v.len + additional) ≤ ISIZE_MAX := by
  have hlen := v.len_le
  rw [ADDRESS_SPACE] at hv hadd
  rw [ByteVec.grown, ISIZE_MAX]
  omega

/-- What `reserve` leaves: the bytes of the vector in the old block or in a new one, with room
behind them, and nothing changed apart from the two blocks. -/
structure Reserved (alloc : Allocator) (v : ByteVec) (additional : Nat) (m : Heap) (v' : ByteVec)
    (m' : Heap) : Prop where
  len : v'.len = v.len
  room : v.len + additional ≤ v'.capacity
  bytes : m'.read v'.ptr v.len = m.read v.ptr v.len
  block : (v'.ptr = v.ptr ∧ v'.capacity = v.capacity) ∨
    (v.capacity < v.len + additional ∧ v'.ptr = alloc v'.capacity ∧
      v'.capacity = v.grown (v.len + additional))
  kept : ∀ p n, Apart p n v.ptr v.capacity → Apart p n v'.ptr v'.capacity →
    m'.read p n = m.read p n

theorem read_moveBlock (m : Heap) (v : ByteVec) (ptr capacity : Nat) :
    (moveBlock m v ptr capacity).read ptr v.len = m.read v.ptr v.len :=
  List.map_congr_left fun i hi => by
    have hlt := List.mem_range.mp hi
    have hin : ptr ≤ ptr + i ∧ ptr + i < ptr + v.len := by omega
    rw [moveBlock, if_pos hin, Nat.add_sub_cancel_left]

/-- A move changes nothing outside of the two blocks. -/
theorem moveBlock_of_outside (m : Heap) {v : ByteVec} {ptr capacity a : Nat}
    (hle : v.len ≤ capacity) (hnew : ¬ (ptr ≤ a ∧ a < ptr + capacity))
    (hold : ¬ (v.ptr ≤ a ∧ a < v.ptr + v.capacity)) : moveBlock m v ptr capacity a = m a := by
  rw [moveBlock, if_neg (by omega), if_neg (by omega)]

theorem reserved (alloc : Allocator) {v : ByteVec} {additional : Nat} (m : Heap)
    (h : v.grown (v.len + additional) ≤ ISIZE_MAX) :
    ∃ v' m', reserve alloc v additional m = some (v', m') ∧
      Reserved alloc v additional m v' m' := by
  rw [reserve]
  by_cases hroom : v.len + additional ≤ v.capacity
  · refine ⟨v, m, if_pos hroom, ?_⟩
    exact
      { len := rfl
        room := hroom
        bytes := rfl
        block := Or.inl ⟨rfl, rfl⟩
        kept := fun _ _ _ _ => rfl }
  · have hneeded := v.le_grown (v.len + additional)
    rw [if_neg hroom, dif_pos h]
    refine ⟨_, _, rfl, ?_⟩
    exact
      { len := rfl
        room := hneeded
        bytes := read_moveBlock m v _ _
        block := Or.inr ⟨Nat.lt_of_not_le hroom, rfl, rfl⟩
        kept := by
          intro p n hold hnew
          exact read_congr fun a hp hlt =>
            moveBlock_of_outside m (by omega) (hnew a hp hlt) (hold a hp hlt) }

/-! ### The flattenings -/

/-- A call of both functions in the address space of a process. The iovecs hold `bytes` and the
vector holds `old`. The iovecs do not overlap with the slice or the vector, nor with the block that
the vector moves to when it has to grow. -/
structure Call where
  alloc : Allocator
  iovecs : List Iovec
  heap : Heap
  vec : ByteVec
  out : MutSlice
  old : List UInt8
  bytes : List UInt8
  old_eq : vec.contents heap = old.map some
  bytes_eq : heap.contents (segs iovecs) = bytes.map some
  total_lt : total (segs iovecs) < 2 ^ 63
  total_le : total (segs iovecs) ≤ out.len
  out_le : out.ptr + out.len ≤ ADDRESS_SPACE
  vec_le : vec.ptr + vec.capacity ≤ ADDRESS_SPACE
  apart_out : ApartFrom iovecs out.ptr out.len
  apart_vec : ApartFrom iovecs vec.ptr vec.capacity
  apart_block : vec.capacity < vec.len + total (segs iovecs) →
    ApartFrom iovecs (alloc (vec.grown (vec.len + total (segs iovecs))))
      (vec.grown (vec.len + total (segs iovecs)))

/-- The total length of the iovecs. -/
def Call.total (c : Call) : Nat := Cells.total (segs c.iovecs)

/-- `fast_flatten_iovec` returns the total length. The slice begins with the bytes of the iovecs,
and the rest of it is unchanged. -/
structure FastFlattened (c : Call) (m' : Heap) : Prop where
  result : fastFlattenIovec c.iovecs c.out c.heap = some (c.total, m')
  front : m'.read c.out.ptr c.total = c.bytes.map some
  back : m'.read (c.out.ptr + c.total) (c.out.len - c.total)
    = c.heap.read (c.out.ptr + c.total) (c.out.len - c.total)

/-- `flatten_iovec` returns with the bytes of the iovecs behind those of the vector, and all of
them are initialised. -/
structure Flattened (c : Call) (vec' : ByteVec) (m' : Heap) : Prop where
  result : flattenIovec c.alloc c.iovecs c.vec c.heap = some (vec', m')
  contents : vec'.contents m' = (c.old ++ c.bytes).map some

theorem fastFlattened (c : Call) : ∃ m', FastFlattened c m' := by
  have hapart : ApartFrom c.iovecs c.out.ptr c.total :=
    c.apart_out.mono (Nat.le_refl _) (Nat.add_le_add_left c.total_le c.out.ptr)
  have hlt := c.total_lt
  have hloop : fastLoop c.out.ptr c.iovecs 0 c.heap
      = some (0 + c.total, c.heap.gather (segs c.iovecs) c.out.ptr) :=
    fastLoop_eq c.heap hapart (by omega)
  rw [Nat.zero_add] at hloop
  refine ⟨_, { result := hloop, front := ?_, back := ?_ }⟩
  · rw [Call.total, read_gather hapart.of_mem_segs]
    exact c.bytes_eq
  · exact read_congr fun a hp _ => gather_of_outside (Or.inr hp)

/-- The sum of the lengths does not wrap. -/
theorem Call.sum_iovLen (c : Call) : (c.iovecs.map Iovec.iovLen).sum % 2 ^ 64 = c.total := by
  have hlt := c.total_lt
  rw [← total_segs]
  exact Nat.mod_eq_of_lt (by omega)

theorem flattened (c : Call) : ∃ vec' m', Flattened c vec' m' := by
  have htotal : c.total ≤ ADDRESS_SPACE :=
    Nat.le_trans c.total_le (Nat.le_trans (Nat.le_add_left _ _) c.out_le)
  obtain ⟨v, m, hreserve, hres⟩ := reserved c.alloc c.heap (grown_le c.vec_le htotal)
  -- Wherever the vector is now, its block is apart from the iovecs.
  have hblock : ApartFrom c.iovecs v.ptr v.capacity := by
    rcases hres.block with ⟨hptr, hcap⟩ | ⟨hgrow, hptr, hcap⟩
    · rw [hptr, hcap]
      exact c.apart_vec
    · rw [hptr, hcap]
      exact c.apart_block hgrow
  have hroom : ApartFrom c.iovecs (v.ptr + c.vec.len) c.total :=
    hblock.mono (Nat.le_add_right _ _) (by have := hres.room; omega)
  have hsources : m.contents (segs c.iovecs) = c.heap.contents (segs c.iovecs) := by
    refine contents_congr fun s hs => ?_
    exact hres.kept s.1 s.2 (c.apart_vec.of_mem_segs s hs) (hblock.of_mem_segs s hs)
  have hold : (m.gather (segs c.iovecs) (v.ptr + c.vec.len)).read v.ptr c.vec.len
      = c.old.map some := by
    rw [← c.old_eq, ByteVec.contents, ← hres.bytes]
    exact read_congr fun a _ ha => gather_of_outside (Or.inl ha)
  have hnew : (m.gather (segs c.iovecs) (v.ptr + c.vec.len)).read (v.ptr + c.vec.len) c.total
      = c.bytes.map some := by
    rw [Call.total, read_gather hroom.of_mem_segs, hsources, c.bytes_eq]
  refine ⟨{ v with len := c.vec.len + c.total, len_le := hres.room },
    m.gather (segs c.iovecs) (v.ptr + c.vec.len), ?_⟩
  exact
    { result := by
        rw [flattenIovec, c.sum_iovLen, hreserve]
        simp only [Option.bind_eq_bind, Option.bind_some, setLen]
        rw [dif_pos hres.room]
        simp only [Option.bind_some]
        rw [flattenLoop_eq m hroom]
        rfl
      contents := by
        rw [ByteVec.contents, read_add, hold, hnew, List.map_append] }

/-- Both flattenings return, with the same bytes. -/
theorem flattenings_agree (c : Call) :
    (∃ m', FastFlattened c m') ∧ ∃ vec' m', Flattened c vec' m' :=
  ⟨fastFlattened c, flattened c⟩

/-- Three iovecs at different places, the second one empty. They are flattened behind a vector of
one byte, which moves to a block at 300, and into a slice with one byte to spare. -/
def gathered : Call where
  alloc := fun _ => 300
  iovecs := [⟨12, 2⟩, ⟨50, 0⟩, ⟨11, 1⟩]
  heap := fun a => some (UInt8.ofNat a)
  vec := ⟨40, 1, 2, by decide, by decide⟩
  out := ⟨200, 4⟩
  old := [40]
  bytes := [12, 13, 11]
  old_eq := rfl
  bytes_eq := rfl
  total_lt := by decide
  total_le := by decide
  out_le := by decide
  vec_le := by decide
  apart_out := .of_le (by decide)
  apart_vec := .of_le (by decide)
  apart_block := fun _ => .of_le (by decide)

/-- Both flattenings of these iovecs. -/
theorem flattenings_agree_gathered :
    (∃ m', fastFlattenIovec gathered.iovecs gathered.out gathered.heap = some (3, m') ∧
      m'.read 200 4 = [some 12, some 13, some 11, some 203]) ∧
    ∃ vec' m', flattenIovec gathered.alloc gathered.iovecs gathered.vec gathered.heap
        = some (vec', m') ∧
      vec'.contents m' = [some 40, some 12, some 13, some 11] := by
  obtain ⟨⟨m, hfast⟩, vec', m', hflat⟩ := flattenings_agree gathered
  refine ⟨⟨m, hfast.result, ?_⟩, vec', m', hflat.result, hflat.contents⟩
  have hsplit : m.read 200 (3 + 1) = m.read 200 3 ++ m.read (200 + 3) 1 := read_add m 200 3 1
  have hfront : m.read 200 3 = [some 12, some 13, some 11] := hfast.front
  have hback : m.read (200 + 3) 1 = [some 203] := hfast.back
  rw [hsplit, hfront, hback]
  rfl

end Memory

end Tachyon
