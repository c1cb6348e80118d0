import Tachyon.Utils.Simd

/-!
# `Tachyon.Utils.Http`: the request scanner

`utils/http.rs`. `find_request_starts_avx2` collects the positions where `GET` or `POS`
begins, `parse_one_manual` cuts the method and the path out of the 32 bytes behind such a
position, and `parse_http_methods_paths` runs the second over the results of the first.

A slice is a pointer and a length. `Slice.ptr` is the memory from the pointer on, and it does
not end where the slice ends: the vector loads read it without a look at the length.

The `while` loops carry an explicit bound on their rounds, so they evaluate. The bound of a
scan loop is the length of the slice, and each round advances by at least 32. The bound of
the bit loop is 32, one round for each bit of the mask.
-/

set_option autoImplicit false

namespace Tachyon

/-- The bytes of an ASCII literal. -/
def ascii (s : String) : List UInt8 := s.toList.map fun c => UInt8.ofNat c.toNat

/-- `&[u8]`: a pointer and a length. -/
structure Slice where
  ptr : Mem
  len : Nat

/-- The bytes of a slice. -/
def Slice.bytes (s : Slice) : List UInt8 := s.ptr.read 0 s.len

/-- `&data[k..]`. -/
def Slice.drop (s : Slice) (k : Nat) : Slice := ⟨s.ptr.shift k, s.len - k⟩

/-- A byte list in memory. -/
def Slice.ofList (bs : List UInt8) : Slice := ⟨fun i => bs.getD i 0, bs.length⟩

/-- A start and a length, in bytes from a pointer. -/
structure Span where
  start : Nat
  len : Nat
  deriving DecidableEq, Repr

/-- The bytes of a span of a slice's memory. -/
def Slice.span (s : Slice) (r : Span) : List UInt8 := s.ptr.read r.start r.len

theorem Slice.bytes_ofList (bs : List UInt8) : (ofList bs).bytes = bs := by
  refine List.ext_getElem? fun i => ?_
  rcases Nat.lt_or_ge i bs.length with hlt | hge
  · have hget : (ofList bs).bytes[i]? = some (bs.getD (0 + i) 0) := Mem.getElem?_read _ 0 hlt
    rw [hget, Nat.zero_add, List.getD_eq_getElem _ _ hlt, List.getElem?_eq_getElem hlt]
  · rw [List.getElem?_eq_none hge]
    exact List.getElem?_eq_none (Nat.le_trans (Nat.le_of_eq (Mem.length_read _ _ _)) hge)

namespace Http

open Simd

/-- `RequestEntry`: (method, path), as spans of the received buffer. -/
abbrev RequestEntry := Span × Span

/-! ### `parse_one_manual` -/

/-- A little-endian integer from its bytes. -/
def fromLeBytes (bs : List UInt8) : Nat := bs.foldr (fun b acc => b.toNat + 256 * acc) 0

/-- `*(ptr as *const u64)`. -/
def first8 (ptr : Mem) : Nat := fromLeBytes (ptr.read 0 8)

def GET_MASK : Nat := fromLeBytes (ascii "GET " ++ [0, 0, 0, 0])
def POST_MASK : Nat := fromLeBytes (ascii "POST " ++ [0, 0, 0])

/-- The spaces among the 32 bytes at `ptr`. -/
def spaceMask (ptr : Mem) : BitVec 32 :=
  movemaskEpi8 (cmpeqEpi8 (loaduSi256 ptr 0) (set1Epi8 (UInt8.ofNat ' '.toNat)))

/-- `mask >> path_start` of a `u32`: the release build takes the amount modulo 32. -/
def shr32 (mask : BitVec 32) (amount : Nat) : BitVec 32 := mask >>> (amount % 32)

/-- `parse_one_manual`: the method span, the path span and the advance, which is 0. -/
def parseOneManual (ptr : Mem) : Option (Span × Span × Nat) :=
  -- A known method: the spaces from the path on, so the first one ends the path.
  if first8 ptr &&& 0xFFFFFFFF = GET_MASK then
    let mask2 := shr32 (spaceMask ptr) 4
    if mask2 = 0 then none
    else some (⟨0, 3⟩, ⟨4, mask2.ctz.toNat⟩, 0)
  else if first8 ptr &&& 0xFFFFFFFFFF = POST_MASK then
    let mask2 := shr32 (spaceMask ptr) 5
    if mask2 = 0 then none
    else some (⟨0, 4⟩, ⟨5, mask2.ctz.toNat⟩, 0)
  else
    -- Any other method ends at the first space.
    let mask := spaceMask ptr
    if mask = 0 then none
    else
      let methodLen := mask.ctz.toNat
      let pathStart := methodLen + 1
      let mask2 := shr32 mask pathStart
      if mask2 = 0 then none
      else some (⟨0, methodLen⟩, ⟨pathStart, mask2.ctz.toNat⟩, 0)

/-! ### `find_request_starts_avx2` -/

/-- The positions where `GET` or `POS` begins, from three loads one byte apart. -/
def startMaskOf (c0 c1 c2 : M256i) : BitVec 32 :=
  let getMask := movemaskEpi8 (andSi256 (cmpeqEpi8 c0 (set1Epi8 (UInt8.ofNat 'G'.toNat)))
    (andSi256 (cmpeqEpi8 c1 (set1Epi8 (UInt8.ofNat 'E'.toNat)))
      (cmpeqEpi8 c2 (set1Epi8 (UInt8.ofNat 'T'.toNat)))))
  let postMask := movemaskEpi8 (andSi256 (cmpeqEpi8 c0 (set1Epi8 (UInt8.ofNat 'P'.toNat)))
    (andSi256 (cmpeqEpi8 c1 (set1Epi8 (UInt8.ofNat 'O'.toNat)))
      (cmpeqEpi8 c2 (set1Epi8 (UInt8.ofNat 'S'.toNat)))))
  getMask ||| postMask

/-- The 32 positions from `i` on where `GET` or `POS` begins. -/
def startMask (ptr : Mem) (i : Nat) : BitVec 32 :=
  startMaskOf (loaduSi256 ptr i) (loaduSi256 ptr (i + 1)) (loaduSi256 ptr (i + 2))

/-- `([usize; N], usize)`: the array of positions and how many of its entries are set. -/
structure Found where
  found : List Nat
  count : Nat

/-- `found[count] = p; count += 1`. -/
def Found.push (f : Found) (p : Nat) : Found := ⟨f.found.set f.count p, f.count + 1⟩

/-- `while bits != 0 && count < N`: takes the lowest bit out and records its position. -/
def popBits (N base : Nat) : Nat → BitVec 32 → Found → Found
  | 0, _, f => f
  | rounds + 1, bits, f =>
    if bits ≠ 0 ∧ f.count < N then
      popBits N base rounds (bits &&& (bits - 1)) (f.push (base + bits.ctz.toNat))
    else f

/-- `while i + 66 <= len && count < N`: two masks a round. -/
def scan64 (N : Nat) (buf : Slice) : Nat → Nat → Found → Nat × Found
  | 0, i, f => (i, f)
  | rounds + 1, i, f =>
    if i + 66 ≤ buf.len ∧ f.count < N then
      let f := popBits N i 32 (startMask buf.ptr i) f
      let f := popBits N (i + 32) 32 (startMask buf.ptr (i + 32)) f
      scan64 N buf rounds (i + 64) f
    else (i, f)

/-- `while i + 34 <= len && count < N`: one mask a round. -/
def scan32 (N : Nat) (buf : Slice) : Nat → Nat → Found → Nat × Found
  | 0, i, f => (i, f)
  | rounds + 1, i, f =>
    if i + 34 ≤ buf.len ∧ f.count < N then
      scan32 N buf rounds (i + 32) (popBits N i 32 (startMask buf.ptr i) f)
    else (i, f)

/-- `find_request_starts_avx2::<N>`. -/
def findRequestStartsAvx2 (N : Nat) (buf : Slice) : Found :=
  let (i, f) := scan64 N buf buf.len 0 ⟨List.replicate N 0, 0⟩
  (scan32 N buf buf.len i f).2

/-! ### `parse_http_methods_paths` -/

/-- The entry for one start: `parse_one_manual` at `buf.as_ptr().add(start)`, with both
spans moved to the start. -/
def entryAt (buf : Slice) (start : Nat) : Option RequestEntry :=
  (parseOneManual (buf.ptr.shift start)).map fun (m, p, _) =>
    (⟨start + m.start, m.len⟩, ⟨start + p.start, p.len⟩)

/-- The loop over the starts. It ends at the first start without 32 bytes behind it. -/
def parseStarts (buf : Slice) : List Nat → List RequestEntry
  | [] => []
  | start :: rest =>
    -- `break`, also for the starts behind this one.
    if start + 32 > buf.len then []
    else match entryAt buf start with
      | some e => e :: parseStarts buf rest
      | none => parseStarts buf rest

/-- `parse_http_methods_paths::<N>`: the first `count` entries of `out`. -/
def parseHttpMethodsPaths (N : Nat) (buf : Slice) : List RequestEntry :=
  let starts := findRequestStartsAvx2 N buf
  parseStarts buf (starts.found.take starts.count)

end Http

end Tachyon
