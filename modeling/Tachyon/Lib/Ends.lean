import Mathlib.Data.List.DropRight

/-!
# `Tachyon.Lib.Ends`: dropping from both ends of a list

`List.dropWhile` and `List.rdropWhile` drop what satisfies a predicate from the front and from the
back. The back goes first or last with the same result (`rdropWhile_dropWhile`): the first element
that stays keeps all that lies behind it from the front, and all in front of it from the back.
-/

set_option autoImplicit false

namespace Tachyon

namespace Ends

variable {α : Type} (p : α → Bool)

theorem rdropWhile_append_of_pos {l l' : List α} (h : ∀ a ∈ l', p a) :
    (l ++ l').rdropWhile p = l.rdropWhile p := by
  have hback : ∀ a ∈ l'.reverse, p a := fun a ha => h a (List.mem_reverse.mp ha)
  rw [List.rdropWhile, List.reverse_append, List.dropWhile_append_of_pos hback, List.rdropWhile]

/-- An element that stays keeps those in front of it. -/
theorem rdropWhile_append_cons_of_neg {a : α} (h : ¬ p a) (l l' : List α) :
    (l ++ a :: l').rdropWhile p = l ++ a :: l'.rdropWhile p := by
  induction l' using List.reverseRecOn with
  | nil => exact List.rdropWhile_concat_neg p l a h
  | append_singleton l' b ih =>
    have happend : l ++ a :: (l' ++ [b]) = l ++ a :: l' ++ [b] := by
      rw [List.append_assoc, List.cons_append]
    by_cases hb : p b
    · rw [happend, List.rdropWhile_concat_pos p _ b hb, ih, List.rdropWhile_concat_pos p _ b hb]
    · rw [happend, List.rdropWhile_concat_neg p _ b hb, List.rdropWhile_concat_neg p _ b hb,
        ← happend]

/-- The two ends may be dropped in either order. -/
theorem rdropWhile_dropWhile (l : List α) :
    (l.dropWhile p).rdropWhile p = (l.rdropWhile p).dropWhile p := by
  have hsplit : l.takeWhile p ++ l.dropWhile p = l := List.takeWhile_append_dropWhile
  have hfront : ∀ a ∈ l.takeWhile p, p a := fun a ha => List.mem_takeWhile_imp ha
  cases hrest : l.dropWhile p with
  | nil =>
    have hall : ∀ a ∈ l, p a := List.dropWhile_eq_nil_iff.mp hrest
    rw [(List.rdropWhile_eq_nil_iff (p := p)).mpr hall, List.rdropWhile_nil, List.dropWhile_nil]
  | cons b rest =>
    have hb : ¬ p b := by
      have hhead := List.head_dropWhile_not p (l := l) (by rw [hrest]; exact List.cons_ne_nil _ _)
      simpa [hrest] using hhead
    -- What is in front of `b` is dropped on both sides, what is behind it on neither.
    rw [hrest] at hsplit
    rw [← hsplit, rdropWhile_append_cons_of_neg p hb, List.dropWhile_append_of_pos hfront,
      List.dropWhile_cons_of_neg hb]
    exact rdropWhile_append_cons_of_neg p hb [] rest

end Ends

end Tachyon
