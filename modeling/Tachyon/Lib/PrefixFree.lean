import Mathlib.Data.List.Basic

/-!
# `Tachyon.Lib.PrefixFree`: codes whose words do not begin one another

A concatenation of words of such a code determines the words (`flatMap_inj`), so two
concatenations are the same exactly when the sequences of words are.
-/

set_option autoImplicit false

namespace Tachyon

variable {α β : Type}

/-- No word is empty, and no word begins another one. -/
structure PrefixFree (code : α → List β) : Prop where
  ne_nil : ∀ a, code a ≠ []
  eq_of_prefix : ∀ a b, code a <+: code b → a = b

namespace PrefixFree

variable {code : α → List β} (h : PrefixFree code)
include h

/-- The first word of a stream is determined by the stream. -/
theorem head_eq {a b : α} {rest rest' : List β} (heq : code a ++ rest = code b ++ rest') :
    a = b := by
  -- Of two beginnings of one stream, the shorter begins the longer.
  have ha : code a <+: code b ++ rest' := ⟨rest, heq⟩
  have hb : code b <+: code b ++ rest' := List.prefix_append _ _
  rcases Nat.le_total (code a).length (code b).length with hle | hle
  · exact h.eq_of_prefix a b (List.prefix_of_prefix_length_le ha hb hle)
  · exact (h.eq_of_prefix b a (List.prefix_of_prefix_length_le hb ha hle)).symm

theorem flatMap_ne_nil (a : α) (words : List α) : (a :: words).flatMap code ≠ [] := by
  rw [List.flatMap_cons]
  exact List.append_ne_nil_of_left_ne_nil (h.ne_nil a) _

/-- A stream determines the sequence of its words. -/
theorem flatMap_inj {words words' : List α} :
    words.flatMap code = words'.flatMap code ↔ words = words' := by
  refine ⟨fun heq => ?_, congrArg _⟩
  induction words generalizing words' with
  | nil =>
    cases words' with
    | nil => rfl
    | cons b rest' => exact absurd heq.symm (h.flatMap_ne_nil b rest')
  | cons a rest ih =>
    cases words' with
    | nil => exact absurd heq (h.flatMap_ne_nil a rest)
    | cons b rest' =>
      rw [List.flatMap_cons, List.flatMap_cons] at heq
      obtain rfl : a = b := h.head_eq heq
      rw [ih (List.append_cancel_left heq)]

end PrefixFree

end Tachyon
