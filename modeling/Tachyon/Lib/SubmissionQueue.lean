import Mathlib.Data.List.Basic

/-!
# `Tachyon.Lib.SubmissionQueue`: the submission side of a shared ring

The producer writes entries and keeps its own copy of the two ring indices. `sync` publishes
the tail and refreshes the head. The consumer takes published entries from the front.

The three segments of the ring, in ring order:

* `stale`: how many entries the consumer took since the last `sync`. The producer still
  counts them, because its copy of the head is old.
* `published`: entries the consumer can take.
* `pending`: entries pushed since the last `sync`. The consumer cannot see them.

`len` is the producer's view of the length, so it counts all three segments.
-/

set_option autoImplicit false

namespace Tachyon

/-- The submission ring, as its producer sees it. -/
structure SubmissionQueue (ε : Type) where
  capacity : Nat
  stale : Nat
  published : List ε
  pending : List ε
  len_le : stale + published.length + pending.length ≤ capacity

namespace SubmissionQueue

variable {ε : Type}

/-- The empty ring. -/
def empty (capacity : Nat) : SubmissionQueue ε := ⟨capacity, 0, [], [], Nat.zero_le _⟩

/-- The length in the producer's view. -/
def len (q : SubmissionQueue ε) : Nat := q.stale + q.published.length + q.pending.length

/-- The free space in the producer's view. -/
def free (q : SubmissionQueue ε) : Nat := q.capacity - q.len

/-- The entries the consumer has not taken, oldest first. -/
def entries (q : SubmissionQueue ε) : List ε := q.published ++ q.pending

/-- Pushes all the entries, or none of them when the free space is too small. -/
def pushMultiple (q : SubmissionQueue ε) (es : List ε) : Option (SubmissionQueue ε) :=
  if h : q.capacity - q.len < es.length then none
  else some ⟨q.capacity, q.stale, q.published, q.pending ++ es, by
    have hle := q.len_le
    simp only [len] at h
    simp only [List.length_append]
    omega⟩

/-- Pushes one entry, or nothing when the ring is full. -/
def push (q : SubmissionQueue ε) (e : ε) : Option (SubmissionQueue ε) :=
  q.pushMultiple [e]

/-- Publishes the pushed entries and refreshes the head. -/
def sync (q : SubmissionQueue ε) : SubmissionQueue ε :=
  ⟨q.capacity, 0, q.published ++ q.pending, [], by
    have hle := q.len_le
    simp only [List.length_append, List.length_nil]
    omega⟩

/-- The consumer takes every published entry. -/
def drain (q : SubmissionQueue ε) : SubmissionQueue ε :=
  ⟨q.capacity, q.stale + q.published.length, [], q.pending, by
    have hle := q.len_le
    simp only [List.length_nil]
    omega⟩

/-- The consumer takes the oldest published entry. -/
def take (q : SubmissionQueue ε) : Option (ε × SubmissionQueue ε) :=
  match h : q.published with
  | [] => none
  | e :: rest => some (e, ⟨q.capacity, q.stale + 1, rest, q.pending, by
      have hle := q.len_le
      simp only [h, List.length_cons] at hle
      omega⟩)

@[simp] theorem entries_empty (c : Nat) : (empty c : SubmissionQueue ε).entries = [] := rfl

@[simp] theorem entries_sync (q : SubmissionQueue ε) : q.sync.entries = q.entries := by
  simp [sync, entries]

@[simp] theorem entries_drain (q : SubmissionQueue ε) : q.drain.entries = q.pending := by
  simp [drain, entries]

@[simp] theorem capacity_sync (q : SubmissionQueue ε) : q.sync.capacity = q.capacity := rfl

@[simp] theorem capacity_drain (q : SubmissionQueue ε) : q.drain.capacity = q.capacity := rfl

@[simp] theorem published_sync (q : SubmissionQueue ε) : q.sync.published = q.entries := rfl

@[simp] theorem pending_sync (q : SubmissionQueue ε) : q.sync.pending = [] := rfl

/-- Taking entries does not change the length the producer sees. -/
@[simp] theorem len_drain (q : SubmissionQueue ε) : q.drain.len = q.len := by
  simp [drain, len]

theorem len_sync (q : SubmissionQueue ε) : q.sync.len = q.entries.length := by
  simp [sync, len, entries]

/-- A sync gives up the slots of what was taken. -/
theorem len_sync_le (q : SubmissionQueue ε) : q.sync.len ≤ q.len := by
  simp only [sync, len, List.length_append, List.length_nil]
  omega

/-- A push fails exactly when the slice does not fit into the free space. -/
theorem pushMultiple_eq_none_iff (q : SubmissionQueue ε) (es : List ε) :
    q.pushMultiple es = none ↔ q.free < es.length := by
  unfold pushMultiple free
  split <;> simp_all

/-- Nothing always fits. -/
theorem pushMultiple_nil (q : SubmissionQueue ε) : q.pushMultiple [] = some q := by
  simp [pushMultiple]

/-- What a successful push does: the entries join the end of the queue. -/
theorem pushMultiple_eq_some {q q' : SubmissionQueue ε} {es : List ε}
    (h : q.pushMultiple es = some q') :
    q'.capacity = q.capacity ∧ q'.stale = q.stale ∧ q'.published = q.published ∧
      q'.pending = q.pending ++ es := by
  unfold pushMultiple at h
  split at h
  · cases h
  · cases h
    exact ⟨rfl, rfl, rfl, rfl⟩

theorem len_pushMultiple {q q' : SubmissionQueue ε} {es : List ε}
    (h : q.pushMultiple es = some q') : q'.len = q.len + es.length := by
  obtain ⟨_, hstale, hpub, hpend⟩ := pushMultiple_eq_some h
  rw [len, len, hstale, hpub, hpend, List.length_append, ← Nat.add_assoc]

theorem entries_pushMultiple {q q' : SubmissionQueue ε} {es : List ε}
    (h : q.pushMultiple es = some q') : q'.entries = q.entries ++ es := by
  obtain ⟨_, _, hpub, hpend⟩ := pushMultiple_eq_some h
  simp [entries, hpub, hpend]

theorem entries_push {q q' : SubmissionQueue ε} {e : ε} (h : q.push e = some q') :
    q'.entries = q.entries ++ [e] :=
  entries_pushMultiple h

theorem push_eq_none_iff (q : SubmissionQueue ε) (e : ε) :
    q.push e = none ↔ q.capacity ≤ q.len := by
  rw [push, pushMultiple_eq_none_iff, free]
  simp only [List.length_singleton]
  omega

/-- `push(..).unwrap_or(())`: an entry that does not fit is dropped. -/
def pushOrDrop (q : SubmissionQueue ε) (e : ε) : SubmissionQueue ε := (q.push e).getD q

/-- A dropped push leaves the queue; a push that fits appends its entry. -/
theorem entries_pushOrDrop (q : SubmissionQueue ε) (e : ε) :
    (q.pushOrDrop e).entries = q.entries ++ if q.len < q.capacity then [e] else [] := by
  unfold pushOrDrop
  cases h : q.push e with
  | none =>
    have hfull := (q.push_eq_none_iff e).mp h
    rw [Option.getD_none, if_neg (by omega), List.append_nil]
  | some q' =>
    have hroom : q.len < q.capacity := by
      by_contra hc
      have := (q.push_eq_none_iff e).mpr (by omega)
      simp [h] at this
    rw [Option.getD_some, entries_push h, if_pos hroom]

/-- With room for one entry, the push is done. -/
theorem push_pushOrDrop {q : SubmissionQueue ε} (e : ε) (h : q.len < q.capacity) :
    q.push e = some (q.pushOrDrop e) := by
  unfold pushOrDrop
  cases hpush : q.push e with
  | none =>
    have := (q.push_eq_none_iff e).mp hpush
    omega
  | some q' => rfl

theorem len_pushOrDrop_le (q : SubmissionQueue ε) (e : ε) : (q.pushOrDrop e).len ≤ q.len + 1 := by
  unfold pushOrDrop
  cases h : q.push e with
  | none => exact Nat.le_succ _
  | some q' => exact Nat.le_of_eq (len_pushMultiple h)

@[simp] theorem capacity_pushOrDrop (q : SubmissionQueue ε) (e : ε) :
    (q.pushOrDrop e).capacity = q.capacity := by
  unfold pushOrDrop
  cases h : q.push e with
  | none => rfl
  | some q' => exact (pushMultiple_eq_some h).1

/-- What the consumer takes is the front of the queue. -/
theorem entries_take {q q' : SubmissionQueue ε} {e : ε} (h : q.take = some (e, q')) :
    q.entries = e :: q'.entries := by
  unfold take at h
  split at h
  · cases h
  · rename_i rest hpub
    cases h
    simp [entries, hpub]

/-- The producer still counts what the consumer takes. -/
theorem len_take {q q' : SubmissionQueue ε} {e : ε} (h : q.take = some (e, q')) :
    q'.capacity = q.capacity ∧ q'.len = q.len := by
  unfold take at h
  split at h
  · cases h
  · rename_i rest hpub
    cases h
    refine ⟨rfl, ?_⟩
    simp only [len, hpub, List.length_cons]
    omega

/-- Without published entries there is nothing to take. -/
theorem drain_of_published_nil {q : SubmissionQueue ε} (h : q.published = []) : q.drain = q := by
  obtain ⟨capacity, stale, published, pending, hle⟩ := q
  subst h
  rfl

/-- The oldest published entry can be taken, and the others after it. -/
theorem exists_take {q : SubmissionQueue ε} {e : ε} {rest : List ε}
    (h : q.published = e :: rest) :
    ∃ q', q.take = some (e, q') ∧ q'.published = rest ∧ q'.drain = q.drain := by
  obtain ⟨capacity, stale, published, pending, hle⟩ := q
  subst h
  refine ⟨_, rfl, rfl, ?_⟩
  simp only [drain, mk.injEq, true_and, and_true, List.length_cons]
  omega

/-- A push does not depend on how much the consumer has taken. -/
theorem pushMultiple_drain (q : SubmissionQueue ε) (es : List ε) :
    q.drain.pushMultiple es = (q.pushMultiple es).map drain := by
  have hroom : (q.drain.capacity - q.drain.len < es.length)
      = (q.capacity - q.len < es.length) := by rw [len_drain, capacity_drain]
  unfold pushMultiple
  by_cases h : q.capacity - q.len < es.length
  · rw [dif_pos h, dif_pos (hroom ▸ h), Option.map_none]
  · rw [dif_neg h, dif_neg (hroom ▸ h), Option.map_some]
    rfl

/-! ### Retrying a push -/

/-- A loop that pushes until the push succeeds, cut off after `fuel` rounds. -/
def pushLoop (es : List ε) : Nat → SubmissionQueue ε → Option (SubmissionQueue ε)
  | 0, _ => none
  | fuel + 1, q =>
    match q.pushMultiple es with
    | some q' => some q'
    | none => pushLoop es fuel q

/-- A loop that ends has pushed its entries. -/
theorem pushMultiple_of_pushLoop {q q' : SubmissionQueue ε} {es : List ε} {fuel : Nat}
    (h : pushLoop es fuel q = some q') : q.pushMultiple es = some q' := by
  induction fuel with
  | zero => cases h
  | succ fuel ih =>
    unfold pushLoop at h
    cases hpush : q.pushMultiple es with
    | none =>
      rw [hpush] at h
      rw [← hpush]
      exact ih h
    | some q'' =>
      rw [hpush] at h
      exact h

/-- Nothing changes between two rounds, so a push that fails once fails in every round. -/
theorem pushLoop_eq_none {q : SubmissionQueue ε} {es : List ε} (h : q.free < es.length)
    (fuel : Nat) : pushLoop es fuel q = none := by
  induction fuel with
  | zero => rfl
  | succ fuel ih => simp [pushLoop, (q.pushMultiple_eq_none_iff es).mpr h, ih]

/-- The retry loop ends after some number of rounds exactly when the entries fit. -/
theorem pushLoop_ends_iff (q : SubmissionQueue ε) (es : List ε) :
    (∃ fuel q', pushLoop es fuel q = some q') ↔ es.length ≤ q.free := by
  constructor
  · rintro ⟨fuel, q', h⟩
    by_contra hc
    rw [pushLoop_eq_none (by omega) fuel] at h
    cases h
  · intro hfit
    cases h : q.pushMultiple es with
    | none =>
      have := (q.pushMultiple_eq_none_iff es).mp h
      omega
    | some q' => exact ⟨1, q', by simp [pushLoop, h]⟩

end SubmissionQueue

end Tachyon
