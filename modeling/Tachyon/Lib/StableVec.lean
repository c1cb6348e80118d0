import Mathlib.Data.List.Nodup
import Mathlib.Logic.Function.Basic

/-!
# `Tachyon.Lib.StableVec`: a vector with stable indices

`push` gives the next index. The next index only grows, so `remove` leaves a hole that no
later `push` fills. `insert` puts an element at a chosen index below the capacity and never
grows the vector. `push` grows it when the next index reaches the capacity.

`slots` is the content. Every slot from `next` on is vacant, which the field `vacant` states.
-/

set_option autoImplicit false

namespace Tachyon

/-- A vector whose elements keep their index. -/
structure ExternStableVec (α : Type) where
  slots : Nat → Option α
  next : Nat
  capacity : Nat
  vacant : ∀ i, next ≤ i → slots i = none

namespace ExternStableVec

variable {α : Type}

/-- The empty vector with a given capacity. -/
def withCapacity (capacity : Nat) : ExternStableVec α :=
  ⟨fun _ => none, 0, capacity, fun _ _ => rfl⟩

/-- The element at an index. -/
def get (v : ExternStableVec α) (i : Nat) : Option α := v.slots i

/-- Adds an element at the next index, which is the result. -/
def push (v : ExternStableVec α) (x : α) : Nat × ExternStableVec α :=
  (v.next,
    ⟨Function.update v.slots v.next (some x), v.next + 1, max v.capacity (v.next + 1), by
      intro i hi
      rw [Function.update_of_ne (by omega)]
      exact v.vacant i (by omega)⟩)

/-- Puts an element at an index. `none` is the panic at or beyond the capacity. -/
def insert (v : ExternStableVec α) (i : Nat) (x : α) : Option (ExternStableVec α) :=
  if i < v.capacity then
    some ⟨Function.update v.slots i (some x), max v.next (i + 1), v.capacity, by
      intro j hj
      rw [Function.update_of_ne (by omega)]
      exact v.vacant j (by omega)⟩
  else none

/-- Takes the element at an index out. A vacant slot stays vacant. -/
def remove (v : ExternStableVec α) (i : Nat) : Option α × ExternStableVec α :=
  (v.slots i,
    ⟨Function.update v.slots i none, v.next, v.capacity, by
      intro j hj
      by_cases hij : j = i
      · subst hij
        exact Function.update_self ..
      · rw [Function.update_of_ne hij]
        exact v.vacant j hj⟩)

/-- Applies a function to every element. -/
def mapIdx (v : ExternStableVec α) (f : Nat → α → α) : ExternStableVec α :=
  ⟨fun i => (v.slots i).map (f i), v.next, v.capacity, fun i hi => by rw [v.vacant i hi]; rfl⟩

/-- Overwrites the element at an occupied index. -/
def set (v : ExternStableVec α) (i : Nat) (x : α) : ExternStableVec α :=
  v.mapIdx fun j y => if j = i then x else y

/-- The occupied indices with their elements, in ascending order. -/
def iter (v : ExternStableVec α) : List (Nat × α) :=
  (List.range v.next).filterMap fun i => (v.slots i).map fun x => (i, x)

@[simp] theorem get_withCapacity (c i : Nat) :
    (withCapacity c : ExternStableVec α).get i = none := rfl

@[simp] theorem iter_withCapacity (c : Nat) :
    (withCapacity c : ExternStableVec α).iter = [] := rfl

theorem get_push (v : ExternStableVec α) (x : α) (i : Nat) :
    (v.push x).2.get i = if i = v.next then some x else v.get i := by
  simp [push, get, Function.update_apply]

@[simp] theorem next_push (v : ExternStableVec α) (x : α) : (v.push x).2.next = v.next + 1 := rfl

@[simp] theorem fst_push (v : ExternStableVec α) (x : α) : (v.push x).1 = v.next := rfl

theorem get_remove (v : ExternStableVec α) (i j : Nat) :
    (v.remove i).2.get j = if j = i then none else v.get j := by
  simp [remove, get, Function.update_apply]

@[simp] theorem fst_remove (v : ExternStableVec α) (i : Nat) : (v.remove i).1 = v.get i := rfl

@[simp] theorem next_remove (v : ExternStableVec α) (i : Nat) :
    (v.remove i).2.next = v.next := rfl

@[simp] theorem capacity_remove (v : ExternStableVec α) (i : Nat) :
    (v.remove i).2.capacity = v.capacity := rfl

@[simp] theorem get_mapIdx (v : ExternStableVec α) (f : Nat → α → α) (i : Nat) :
    (v.mapIdx f).get i = (v.get i).map (f i) := rfl

@[simp] theorem capacity_mapIdx (v : ExternStableVec α) (f : Nat → α → α) :
    (v.mapIdx f).capacity = v.capacity := rfl

@[simp] theorem next_mapIdx (v : ExternStableVec α) (f : Nat → α → α) :
    (v.mapIdx f).next = v.next := rfl

@[simp] theorem capacity_set (v : ExternStableVec α) (i : Nat) (x : α) :
    (v.set i x).capacity = v.capacity := rfl

/-- `set` changes the element of one occupied slot. -/
theorem get_set (v : ExternStableVec α) (i j : Nat) (x : α) :
    (v.set i x).get j = (v.get j).map fun y => if j = i then x else y := rfl

/-- `insert` panics exactly at or beyond the capacity. -/
theorem insert_eq_none_iff (v : ExternStableVec α) (i : Nat) (x : α) :
    v.insert i x = none ↔ v.capacity ≤ i := by
  unfold insert
  split <;> simp <;> omega

/-- What a successful `insert` does: the slot holds the element, the capacity stays. -/
theorem insert_eq_some {v v' : ExternStableVec α} {i : Nat} {x : α}
    (h : v.insert i x = some v') :
    i < v.capacity ∧ v'.capacity = v.capacity ∧
      ∀ j, v'.get j = if j = i then some x else v.get j := by
  unfold insert at h
  split at h
  · cases h
    refine ⟨by assumption, rfl, fun j => ?_⟩
    simp [get, Function.update_apply]
  · cases h

theorem lt_next_of_get {v : ExternStableVec α} {i : Nat} {x : α} (h : v.get i = some x) :
    i < v.next := by
  by_contra hc
  have := v.vacant i (by omega)
  simp [get, this] at h

/-- `iter` lists exactly the occupied slots. -/
theorem mem_iter {v : ExternStableVec α} {p : Nat × α} : p ∈ v.iter ↔ v.get p.1 = some p.2 := by
  obtain ⟨i, x⟩ := p
  simp only [iter, List.mem_filterMap, List.mem_range, Option.map_eq_some_iff, Prod.mk.injEq]
  constructor
  · rintro ⟨j, _, y, hy, rfl, rfl⟩
    exact hy
  · intro h
    exact ⟨i, lt_next_of_get h, x, h, rfl, rfl⟩

/-- The entries of `iter` at one index: the element there, once, or nothing. -/
theorem filter_iter (v : ExternStableVec α) (i : Nat) :
    v.iter.filter (fun p => p.1 = i) = ((v.get i).map fun x => (i, x)).toList := by
  -- For any list of indices in which none comes twice.
  have key : ∀ l : List Nat, l.Nodup →
      (l.filterMap fun j => (v.slots j).map fun x => (j, x)).filter (fun p => p.1 = i)
        = if i ∈ l then ((v.get i).map fun x => (i, x)).toList else [] := by
    intro l hl
    induction l with
    | nil => rfl
    | cons j l ih =>
      obtain ⟨hj, hl'⟩ := List.nodup_cons.mp hl
      by_cases hji : j = i
      · subst hji
        have hrest := ih hl'
        rw [if_neg hj] at hrest
        cases hs : v.slots j with
        | none => simp [hs, hrest, get]
        | some x => simp [hs, hrest, get]
      · have hmem : (i ∈ j :: l) ↔ i ∈ l := by simp [Ne.symm hji]
        simp only [hmem]
        rw [← ih hl']
        cases hs : v.slots j with
        | none => simp [hs]
        | some x => simp [hs, hji]
  rw [iter, key _ List.nodup_range]
  split
  · rfl
  · rename_i hi
    have : v.slots i = none := v.vacant i (by simpa using hi)
    simp [get, this]

/-- The indices are distinct. -/
theorem nodup_iter (v : ExternStableVec α) : (v.iter.map Prod.fst).Nodup := by
  have hindices : v.iter.map Prod.fst = (List.range v.next).filter fun i => (v.slots i).isSome := by
    rw [iter, List.map_filterMap, ← List.filterMap_eq_filter]
    refine List.filterMap_congr fun i _ => ?_
    cases hslot : v.slots i <;> simp [Option.guard, hslot]
  rw [hindices]
  exact List.nodup_range.filter _

/-- The length of `iter` counts the occupied slots of every range that has them all. -/
theorem length_iter (v : ExternStableVec α) {n : Nat} (h : v.next ≤ n) :
    v.iter.length = (List.range n).countP fun i => (v.get i).isSome := by
  have hcount : ∀ l : List Nat, (l.filterMap fun i => (v.slots i).map fun x => (i, x)).length
      = l.countP fun i => (v.get i).isSome := by
    intro l
    induction l with
    | nil => rfl
    | cons i l ih =>
      cases hi : v.slots i <;> simp [get, hi, ih]
  obtain ⟨k, rfl⟩ := Nat.exists_eq_add_of_le h
  rw [iter, hcount, List.range_add, List.countP_append]
  have hvacant : ((List.range k).map (v.next + ·)).countP (fun i => (v.get i).isSome) = 0 := by
    rw [List.countP_eq_zero]
    intro i hi
    obtain ⟨j, _, rfl⟩ := List.mem_map.mp hi
    simp [get, v.vacant (v.next + j) (Nat.le_add_right _ _)]
  rw [hvacant, Nat.add_zero]

/-- A function that fixes every element leaves the vector. -/
theorem mapIdx_of_fixed {v : ExternStableVec α} {f : Nat → α → α}
    (h : ∀ i x, v.get i = some x → f i x = x) : v.mapIdx f = v := by
  obtain ⟨slots, next, capacity, vacant⟩ := v
  simp only [mapIdx, ExternStableVec.mk.injEq, and_true]
  funext i
  cases hi : slots i with
  | none => rfl
  | some x =>
    rw [Option.map_some]
    exact congrArg some (h i x hi)

/-- A vector without elements has nothing to map. -/
theorem mapIdx_of_iter_nil {v : ExternStableVec α} (h : v.iter = []) (f : Nat → α → α) :
    v.mapIdx f = v := by
  refine mapIdx_of_fixed fun i x hi => ?_
  have hmem : (i, x) ∈ v.iter := mem_iter.mpr hi
  rw [h] at hmem
  cases hmem

end ExternStableVec

end Tachyon
