import Mathlib.Data.List.Sort
import Tachyon.Lib.Bits
import Tachyon.Proofs.Reply

/-!
# `Tachyon.Proofs.Scan`: what the scanner finds and what the parser cuts out

`find_request_starts_avx2` goes through the buffer in blocks of 32 positions. A block is scanned
when 34 bytes from its beginning on were received, so the scanned positions are those below
`scanEnd`. `findRequestStartsAvx2_eq` says that it finds the first `N` of the scanned positions
where `GET` or `POS` begins.

`parse_one_manual` looks at 32 bytes. It cuts at the first two spaces among them, whatever the
method is (`parseOneManual_eq`).
-/

set_option autoImplicit false

namespace Tachyon

namespace Http

open Simd Bits

/-! ### The positions of a block -/

/-- `GET` or `POS` begins at the position. -/
def IsStart (ptr : Mem) (p : Nat) : Prop :=
  ptr p = UInt8.ofNat 'G'.toNat ∧ ptr (p + 1) = UInt8.ofNat 'E'.toNat
      ∧ ptr (p + 2) = UInt8.ofNat 'T'.toNat ∨
    ptr p = UInt8.ofNat 'P'.toNat ∧ ptr (p + 1) = UInt8.ofNat 'O'.toNat
      ∧ ptr (p + 2) = UInt8.ofNat 'S'.toNat

instance (ptr : Mem) (p : Nat) : Decidable (IsStart ptr p) := inferInstanceAs (Decidable (_ ∨ _))

/-- The positions below `n` where a request may begin. -/
def startsBelow (ptr : Mem) (n : Nat) : List Nat := (List.range n).filter fun p => IsStart ptr p

theorem mem_startsBelow {ptr : Mem} {n p : Nat} :
    p ∈ startsBelow ptr n ↔ p < n ∧ IsStart ptr p := by
  simp [startsBelow]

theorem getLsbD_startMask (ptr : Mem) (i : Nat) {k : Nat} (hk : k < 32) :
    (startMask ptr i).getLsbD k = decide (IsStart ptr (i + k)) := by
  have h3 : ∀ a b c : UInt8, (movemaskEpi8 (andSi256 (cmpeqEpi8 (loaduSi256 ptr i) (set1Epi8 a))
      (andSi256 (cmpeqEpi8 (loaduSi256 ptr (i + 1)) (set1Epi8 b))
        (cmpeqEpi8 (loaduSi256 ptr (i + 2)) (set1Epi8 c))))).getLsbD k
      = decide (ptr (i + k) = a ∧ ptr (i + k + 1) = b ∧ ptr (i + k + 2) = c) := by
    intro a b c
    have hmask := getLsbD_movemask_and3 (loaduSi256 ptr i) (set1Epi8 a) (loaduSi256 ptr (i + 1))
      (set1Epi8 b) (loaduSi256 ptr (i + 2)) (set1Epi8 c) ⟨k, hk⟩
    refine hmask.trans (decide_eq_decide.mpr ?_)
    show ptr (i + k) = a ∧ ptr (i + 1 + k) = b ∧ ptr (i + 2 + k) = c ↔ _
    rw [Nat.add_right_comm i 1 k, Nat.add_right_comm i 2 k]
  rw [startMask, startMaskOf, BitVec.getLsbD_or, h3, h3]
  exact (Bool.decide_or _ _).symm

/-- The mask of a block holds the starts of its 32 positions. -/
theorem startsBelow_add (ptr : Mem) (i : Nat) :
    startsBelow ptr (i + 32) = startsBelow ptr i ++ (bitsOf (startMask ptr i)).map (i + ·) := by
  rw [startsBelow, List.range_add, List.filter_append, List.filter_map, bitsOf]
  congr 2
  refine List.filter_congr fun k hk => ?_
  rw [getLsbD_startMask ptr i (List.mem_range.mp hk)]
  rfl

/-! ### The array of positions -/

/-- The array holds the first `N` positions of a list. -/
structure Holds (N : Nat) (f : Found) (l : List Nat) : Prop where
  size : f.found.length = N
  count : f.count = min l.length N
  take : f.found.take f.count = l.take N

namespace Holds

variable {N : Nat} {f : Found} {l : List Nat}

theorem nil (N : Nat) : Holds N ⟨List.replicate N 0, 0⟩ [] := ⟨by simp, by simp, by simp⟩

theorem length_lt (h : Holds N f l) (hroom : f.count < N) : f.count = l.length := by
  have := h.count
  omega

theorem push (h : Holds N f l) (hroom : f.count < N) (p : Nat) : Holds N (f.push p) (l ++ [p]) := by
  have hcount := h.length_lt hroom
  have htake : f.found.take f.count = l := by
    rw [h.take, List.take_of_length_le (by omega)]
  refine ⟨by rw [length_found_push, h.size], ?_, ?_⟩
  · show f.count + 1 = _
    rw [List.length_append, List.length_singleton]
    omega
  · show (f.found.set f.count p).take (f.count + 1) = _
    rw [List.take_add_one, List.take_set_of_le (le_refl _), htake,
      List.getElem?_set_self (by rw [h.size]; exact hroom), Option.toList_some,
      List.take_of_length_le (by rw [List.length_append, List.length_singleton]; omega)]

/-- A full array stays as it is. -/
theorem full (h : Holds N f l) (hfull : ¬ f.count < N) (l' : List Nat) : Holds N f (l ++ l') := by
  have hcount := h.count
  have hle : N ≤ l.length := by omega
  refine ⟨h.size, ?_, ?_⟩
  · rw [List.length_append]
    omega
  · rw [h.take, List.take_append_of_le_length hle]

/-- The bit loop records the set bits of a word. -/
theorem popBits (base : Nat) {rounds : Nat} {bits : BitVec 32} (h : Holds N f l)
    (hr : (bitsOf bits).length ≤ rounds) :
    Holds N (popBits N base rounds bits f) (l ++ (bitsOf bits).map (base + ·)) := by
  induction rounds generalizing bits f l with
  | zero =>
    rw [List.eq_nil_of_length_eq_zero (Nat.le_zero.mp hr), List.map_nil, List.append_nil]
    exact h
  | succ rounds ih =>
    unfold Http.popBits
    by_cases hzero : bits = 0
    · subst hzero
      rw [if_neg (by simp), bitsOf_zero, List.map_nil, List.append_nil]
      exact h
    · rw [bitsOf_eq_cons hzero, List.length_cons] at hr
      rw [bitsOf_eq_cons hzero, List.map_cons]
      by_cases hroom : f.count < N
      · rw [if_pos ⟨hzero, hroom⟩, ← List.singleton_append, ← List.append_assoc]
        exact ih (h.push hroom _) (by omega)
      · rw [if_neg fun hc => hroom hc.2]
        exact h.full hroom _

/-- One block. -/
theorem block {ptr : Mem} {i : Nat} (h : Holds N f (startsBelow ptr i)) :
    Holds N (Http.popBits N i 32 (startMask ptr i) f) (startsBelow ptr (i + 32)) := by
  rw [startsBelow_add]
  exact h.popBits i (length_bitsOf_le _)

end Holds

/-! ### The two loops -/

/-- The first position that is not scanned. -/
def scanEnd (len : Nat) : Nat := 32 * ((len - 2) / 32)

theorem startsBelow_prefix (ptr : Mem) {i n : Nat} (h : i ≤ n) :
    ∃ rest, startsBelow ptr n = startsBelow ptr i ++ rest := by
  obtain ⟨k, rfl⟩ := Nat.exists_eq_add_of_le h
  exact ⟨_, by rw [startsBelow, List.range_add, List.filter_append]; rfl⟩

/-- The second loop scans what is left. -/
theorem holds_scan32 {N : Nat} {buf : Slice} (rounds : Nat) {i : Nat} {f : Found}
    (h : Holds N f (startsBelow buf.ptr i)) (hi : i % 32 = 0) (hend : i ≤ scanEnd buf.len)
    (hr : scanEnd buf.len ≤ i + 32 * rounds) :
    Holds N (scan32 N buf rounds i f).2 (startsBelow buf.ptr (scanEnd buf.len)) := by
  induction rounds generalizing i f with
  | zero =>
    have hlast : i = scanEnd buf.len := by omega
    subst hlast
    exact h
  | succ rounds ih =>
    unfold scan32
    by_cases hroom : f.count < N
    · by_cases hlen : i + 34 ≤ buf.len
      · rw [if_pos ⟨hlen, hroom⟩]
        refine ih h.block (by omega) ?_ (by omega)
        rw [scanEnd] at hend ⊢
        omega
      · -- Fewer than 34 bytes are left: this is the end.
        have hlast : i = scanEnd buf.len := by
          rw [scanEnd] at hend ⊢
          omega
        rw [if_neg fun hc => hlen hc.1]
        subst hlast
        exact h
    · obtain ⟨rest, hrest⟩ := startsBelow_prefix buf.ptr hend
      rw [if_neg fun hc => hroom hc.2, hrest]
      exact h.full hroom _

/-- The first loop scans two blocks in each round. -/
theorem holds_scan64 {N : Nat} {buf : Slice} (rounds : Nat) {i : Nat} {f : Found}
    (h : Holds N f (startsBelow buf.ptr i)) (hi : i % 32 = 0) (hend : i ≤ scanEnd buf.len) :
    Holds N (scan64 N buf rounds i f).2 (startsBelow buf.ptr (scan64 N buf rounds i f).1) ∧
      (scan64 N buf rounds i f).1 % 32 = 0 ∧ (scan64 N buf rounds i f).1 ≤ scanEnd buf.len := by
  induction rounds generalizing i f with
  | zero => exact ⟨h, hi, hend⟩
  | succ rounds ih =>
    unfold scan64
    split
    · rename_i hcond
      refine ih h.block.block (by omega) ?_
      rw [scanEnd] at hend ⊢
      omega
    · exact ⟨h, hi, hend⟩

/-- At the end the scanner holds the starts among the scanned positions. -/
theorem holds_findRequestStartsAvx2 (N : Nat) (buf : Slice) :
    Holds N (findRequestStartsAvx2 N buf) (startsBelow buf.ptr (scanEnd buf.len)) := by
  have h0 : Holds N ⟨List.replicate N 0, 0⟩ (startsBelow buf.ptr 0) := .nil N
  obtain ⟨h64, hmod, hle⟩ := holds_scan64 buf.len h0 rfl (Nat.zero_le _)
  have hrounds : scanEnd buf.len
      ≤ (scan64 N buf buf.len 0 ⟨List.replicate N 0, 0⟩).1 + 32 * buf.len := by
    rw [scanEnd]
    omega
  exact holds_scan32 buf.len h64 hmod hle hrounds

/-- The scanner finds the first `N` starts among the scanned positions. -/
theorem findRequestStartsAvx2_eq (N : Nat) (buf : Slice) :
    (findRequestStartsAvx2 N buf).found.take (findRequestStartsAvx2 N buf).count
      = (startsBelow buf.ptr (scanEnd buf.len)).take N :=
  (holds_findRequestStartsAvx2 N buf).take

/-! ### One window -/

/-- The space of the request line. -/
def SP : UInt8 := UInt8.ofNat ' '.toNat

theorem getLsbD_spaceMask (ptr : Mem) {k : Nat} (hk : k < 32) :
    (spaceMask ptr).getLsbD k = decide (ptr k = SP) := by
  have h := getLsbD_movemask_cmpeq (loaduSi256 ptr 0) (set1Epi8 SP) ⟨k, hk⟩
  refine h.trans (decide_eq_decide.mpr ?_)
  show ptr (0 + k) = SP ↔ _
  rw [Nat.zero_add]

/-- The first space of the window is at `a`. -/
def FirstSpace (ptr : Mem) (a : Nat) : Prop := ptr a = SP ∧ ∀ j, j < a → ptr j ≠ SP

theorem ctz_spaceMask {ptr : Mem} {a : Nat} (ha : a < 32) (h : FirstSpace ptr a) :
    spaceMask ptr ≠ 0 ∧ (spaceMask ptr).ctz.toNat = a := by
  refine ctz_eq_of_first ?_ fun j hj => ?_
  · rw [getLsbD_spaceMask ptr ha, decide_eq_true h.1]
  · rw [getLsbD_spaceMask ptr (by omega), decide_eq_false (h.2 j hj)]

theorem spaceMask_eq_zero {ptr : Mem} (h : ∀ j, j < 32 → ptr j ≠ SP) : spaceMask ptr = 0 := by
  refine BitVec.eq_of_getLsbD_eq fun j hj => ?_
  rw [getLsbD_spaceMask ptr hj, decide_eq_false (h j hj)]
  simp

/-- What `parse_one_manual` does behind a method of length `a`. -/
def cutAt (ptr : Mem) (a : Nat) : Option (Span × Span × Nat) :=
  if shr32 (spaceMask ptr) (a + 1) = 0 then none
  else some (⟨0, a⟩, ⟨a + 1, (shr32 (spaceMask ptr) (a + 1)).ctz.toNat⟩, 0)

theorem getLsbD_shr32 (ptr : Mem) {n k : Nat} (hn : n < 32) :
    (shr32 (spaceMask ptr) n).getLsbD k = decide (n + k < 32 ∧ ptr (n + k) = SP) := by
  rw [shr32, Nat.mod_eq_of_lt hn, BitVec.getLsbD_ushiftRight]
  by_cases hk : n + k < 32
  · rw [getLsbD_spaceMask ptr hk]
    simp [hk]
  · rw [BitVec.getLsbD_of_ge _ _ (by omega)]
    simp [hk]

theorem cutAt_of_space {ptr : Mem} {a b : Nat} (hab : a < b) (hb : b < 32) (hsp : ptr b = SP)
    (hno : ∀ j, a < j → j < b → ptr j ≠ SP) :
    cutAt ptr a = some (⟨0, a⟩, ⟨a + 1, b - (a + 1)⟩, 0) := by
  obtain ⟨hne, hctz⟩ : shr32 (spaceMask ptr) (a + 1) ≠ 0
      ∧ (shr32 (spaceMask ptr) (a + 1)).ctz.toNat = b - (a + 1) := by
    refine ctz_eq_of_first ?_ fun j hj => ?_
    · rw [getLsbD_shr32 ptr (by omega), show a + 1 + (b - (a + 1)) = b by omega]
      exact decide_eq_true ⟨hb, hsp⟩
    · rw [getLsbD_shr32 ptr (by omega)]
      exact decide_eq_false fun h => hno _ (by omega) (by omega) h.2
  rw [cutAt, if_neg hne, hctz]

theorem cutAt_eq_none {ptr : Mem} {a : Nat} (ha : a < 31)
    (hno : ∀ j, a < j → j < 32 → ptr j ≠ SP) : cutAt ptr a = none := by
  have hzero : shr32 (spaceMask ptr) (a + 1) = 0 := by
    refine BitVec.eq_of_getLsbD_eq fun j hj => ?_
    rw [getLsbD_shr32 ptr (by omega), decide_eq_false fun h => hno _ (by omega) h.1 h.2]
    simp
  rw [cutAt, if_pos hzero]

/-! ### The two fast paths -/

theorem first8_eq (ptr : Mem) : first8 ptr = (ptr 0).toNat + 256 * ((ptr 1).toNat
    + 256 * ((ptr 2).toNat + 256 * ((ptr 3).toNat + 256 * ((ptr 4).toNat
    + 256 * ((ptr 5).toNat + 256 * ((ptr 6).toNat + 256 * ((ptr 7).toNat + 256 * 0))))))) := by
  simp [first8, fromLeBytes, Mem.read, List.range_succ]

/-- A window whose first `a + 1` bytes are a method and a space. -/
theorem firstSpace_of_toNat {ptr : Mem} {a : Nat} (h : (ptr a).toNat = 32)
    (hno : ∀ j, j < a → (ptr j).toNat ≠ 32) : FirstSpace ptr a := by
  refine ⟨UInt8.toNat_inj.mp h, fun j hj hsp => hno j hj ?_⟩
  rw [hsp]
  rfl

/-- The window begins with `GET` and a space. -/
theorem firstSpace_of_get {ptr : Mem} (h : first8 ptr &&& 0xFFFFFFFF = GET_MASK) :
    FirstSpace ptr 3 := by
  have hmod : first8 ptr % 2 ^ 32 = 0x20544547 := by
    rw [← Nat.and_two_pow_sub_one_eq_mod]
    exact h
  have hlt := fun j => (ptr j).toNat_lt
  have h0 := hlt 0
  have h1 := hlt 1
  have h2 := hlt 2
  have h3 := hlt 3
  rw [first8_eq] at hmod
  refine firstSpace_of_toNat (by omega) fun j hj => ?_
  rcases (by omega : j = 0 ∨ j = 1 ∨ j = 2) with rfl | rfl | rfl <;> omega

/-- The window begins with `POST` and a space. -/
theorem firstSpace_of_post {ptr : Mem} (h : first8 ptr &&& 0xFFFFFFFFFF = POST_MASK) :
    FirstSpace ptr 4 := by
  have hmod : first8 ptr % 2 ^ 40 = 0x2054534F50 := by
    rw [← Nat.and_two_pow_sub_one_eq_mod]
    exact h
  have hlt := fun j => (ptr j).toNat_lt
  have h0 := hlt 0
  have h1 := hlt 1
  have h2 := hlt 2
  have h3 := hlt 3
  have h4 := hlt 4
  rw [first8_eq] at hmod
  refine firstSpace_of_toNat (by omega) fun j hj => ?_
  rcases (by omega : j = 0 ∨ j = 1 ∨ j = 2 ∨ j = 3) with rfl | rfl | rfl | rfl <;> omega

/-- The fast paths agree with the general one: the method ends at the first space. -/
theorem parseOneManual_eq (ptr : Mem) : parseOneManual ptr
    = if spaceMask ptr = 0 then none else cutAt ptr (spaceMask ptr).ctz.toNat := by
  unfold parseOneManual
  split
  · rename_i hget
    obtain ⟨hne, hctz⟩ := ctz_spaceMask (by decide) (firstSpace_of_get hget)
    rw [if_neg hne, hctz]
    rfl
  · split
    · rename_i hpost
      obtain ⟨hne, hctz⟩ := ctz_spaceMask (by decide) (firstSpace_of_post hpost)
      rw [if_neg hne, hctz]
      rfl
    · rfl

/-- The window is cut at its first two spaces. -/
theorem parseOneManual_of_spaces {ptr : Mem} {a b : Nat} (ha : FirstSpace ptr a) (hab : a < b)
    (hb : b < 32) (hsp : ptr b = SP) (hno : ∀ j, a < j → j < b → ptr j ≠ SP) :
    parseOneManual ptr = some (⟨0, a⟩, ⟨a + 1, b - (a + 1)⟩, 0) := by
  obtain ⟨hne, hctz⟩ := ctz_spaceMask (by omega) ha
  rw [parseOneManual_eq, if_neg hne, hctz, cutAt_of_space hab hb hsp hno]

/-- The window has two spaces. -/
def TwoSpaces (ptr : Mem) : Prop := ∃ b, b < 32 ∧ ∃ a, a < b ∧ ptr a = SP ∧ ptr b = SP

instance (ptr : Mem) : Decidable (TwoSpaces ptr) :=
  inferInstanceAs (Decidable (∃ b, b < 32 ∧ _))

instance (ptr : Mem) (a : Nat) : Decidable (FirstSpace ptr a) :=
  inferInstanceAs (Decidable (_ ∧ _))

/-- A window that has two spaces is cut somewhere. -/
theorem parseOneManual_ne_none {ptr : Mem} (h : TwoSpaces ptr) : parseOneManual ptr ≠ none := by
  classical
  obtain ⟨b, hb, a, hab, ha, hb'⟩ := h
  have hex : ∃ n, ptr n = SP := ⟨a, ha⟩
  have hfirst : FirstSpace ptr (Nat.find hex) :=
    ⟨Nat.find_spec hex, fun j hj => Nat.find_min hex hj⟩
  have hle : Nat.find hex ≤ a := Nat.find_le ha
  have hex' : ∃ n, Nat.find hex < n ∧ ptr n = SP := ⟨b, by omega, hb'⟩
  obtain ⟨hlt, hsp⟩ := Nat.find_spec hex'
  have hle' : Nat.find hex' ≤ b := Nat.find_le ⟨by omega, hb'⟩
  rw [parseOneManual_of_spaces hfirst hlt (by omega) hsp fun j hj hj' hspj =>
    Nat.find_min hex' hj' ⟨hj, hspj⟩]
  exact Option.some_ne_none _

/-- A window without two spaces is not cut, unless its only space is in the last byte. -/
theorem parseOneManual_eq_none {ptr : Mem} (h : ¬ TwoSpaces ptr) (hedge : ¬ FirstSpace ptr 31) :
    parseOneManual ptr = none := by
  rw [parseOneManual_eq]
  by_cases hex : ∃ a, a < 32 ∧ ptr a = SP
  · obtain ⟨a, ha, hsp⟩ := hex
    have hfirst : FirstSpace ptr a :=
      ⟨hsp, fun j hj hspj => h ⟨a, ha, j, hj, hspj, hsp⟩⟩
    have hlt : a < 31 := by
      rcases Nat.lt_or_ge a 31 with hlt | hge
      · exact hlt
      · have heq : a = 31 := by omega
        subst heq
        exact absurd hfirst hedge
    obtain ⟨hne, hctz⟩ := ctz_spaceMask ha hfirst
    rw [if_neg hne, hctz, cutAt_eq_none hlt fun j hj hj' hspj => h ⟨j, hj', a, hj, hsp, hspj⟩]
  · rw [if_pos (spaceMask_eq_zero fun j hj hsp => hex ⟨j, hj, hsp⟩)]

/-! ### All the requests of a buffer -/

theorem parseStarts_eq (buf : Slice) (starts : List Nat) : parseStarts buf starts
    = (starts.takeWhile fun p => p + 32 ≤ buf.len).filterMap (entryAt buf) := by
  induction starts with
  | nil => rfl
  | cons p rest ih =>
    unfold parseStarts
    by_cases hp : p + 32 ≤ buf.len
    · rw [if_neg (by omega), List.takeWhile_cons_of_pos (by simpa using hp)]
      cases hentry : entryAt buf p with
      | none => rw [List.filterMap_cons_none hentry, ih]
      | some e => rw [List.filterMap_cons_some hentry, ih]
    · rw [if_pos (by omega), List.takeWhile_cons_of_neg (by simpa using hp)]
      rfl

/-- The starts that `parse_one_manual` is called for. -/
def admitted (N : Nat) (buf : Slice) : List Nat :=
  ((startsBelow buf.ptr (scanEnd buf.len)).take N).takeWhile fun p => p + 32 ≤ buf.len

theorem pairwise_startsBelow (ptr : Mem) (n : Nat) : (startsBelow ptr n).Pairwise (· < ·) :=
  List.pairwise_lt_range.filter _

theorem pairwise_admitted (N : Nat) (buf : Slice) : (admitted N buf).Pairwise (· < ·) :=
  (pairwise_startsBelow _ _).sublist ((List.takeWhile_sublist _).trans (List.take_sublist _ _))

/-- In ascending order, cutting at the first position that is too late drops all of them. -/
theorem takeWhile_eq_filter {l : List Nat} (h : l.Pairwise (· < ·)) (len : Nat) :
    (l.takeWhile fun p => p + 32 ≤ len) = l.filter fun p => p + 32 ≤ len := by
  induction l with
  | nil => rfl
  | cons p rest ih =>
    obtain ⟨hp, hrest⟩ := List.pairwise_cons.mp h
    by_cases hlen : p + 32 ≤ len
    · rw [List.takeWhile_cons_of_pos (by simpa using hlen),
        List.filter_cons_of_pos (by simpa using hlen), ih hrest]
    · rw [List.takeWhile_cons_of_neg (by simpa using hlen),
        List.filter_cons_of_neg (by simpa using hlen), eq_comm, List.filter_eq_nil_iff]
      intro q hq
      have := hp q hq
      simp only [decide_eq_true_eq]
      omega

/-- A start is among the first `N` exactly when fewer than `N` come before it. -/
theorem mem_take_startsBelow {ptr : Mem} {n p N : Nat} :
    p ∈ (startsBelow ptr n).take N ↔
      p < n ∧ IsStart ptr p ∧ (startsBelow ptr p).length < N := by
  by_cases hp : p < n ∧ IsStart ptr p
  · obtain ⟨hlt, hstart⟩ := hp
    have hnext : startsBelow ptr (p + 1) = startsBelow ptr p ++ [p] := by
      rw [startsBelow, List.range_succ, List.filter_append,
        List.filter_cons_of_pos (by simpa using hstart)]
      rfl
    obtain ⟨rest, hrest⟩ := startsBelow_prefix ptr hlt
    rw [Nat.succ_eq_add_one, hnext, List.append_assoc] at hrest
    have hsorted := pairwise_startsBelow ptr n
    rw [hrest] at hsorted ⊢
    have hbelow : p ∉ startsBelow ptr p := fun hmem =>
      Nat.lt_irrefl _ (mem_startsBelow.mp hmem).1
    by_cases hroom : (startsBelow ptr p).length < N
    · refine iff_of_true ?_ ⟨hlt, hstart, hroom⟩
      obtain ⟨k, hk⟩ := Nat.exists_eq_add_of_lt hroom
      rw [hk, Nat.add_assoc, List.take_length_add_append]
      exact List.mem_append_right _ (by simp)
    · refine iff_of_false ?_ fun h => hroom h.2.2
      rw [List.take_append_of_le_length (by omega)]
      exact fun hmem => hbelow (List.mem_of_mem_take hmem)
  · refine iff_of_false (fun hmem => hp ?_) fun h => hp ⟨h.1, h.2.1⟩
    exact mem_startsBelow.mp (List.mem_of_mem_take hmem)

theorem mem_admitted {N : Nat} {buf : Slice} {p : Nat} : p ∈ admitted N buf ↔
    IsStart buf.ptr p ∧ p < scanEnd buf.len ∧ p + 32 ≤ buf.len ∧
      (startsBelow buf.ptr p).length < N := by
  have hsorted := (pairwise_startsBelow buf.ptr (scanEnd buf.len)).sublist (List.take_sublist N _)
  rw [admitted, takeWhile_eq_filter hsorted, List.mem_filter, mem_take_startsBelow]
  simp only [decide_eq_true_eq]
  tauto

theorem parseHttpMethodsPaths_eq (N : Nat) (buf : Slice) :
    parseHttpMethodsPaths N buf = (admitted N buf).filterMap (entryAt buf) := by
  rw [parseHttpMethodsPaths, findRequestStartsAvx2_eq, parseStarts_eq, admitted]

end Http

end Tachyon
