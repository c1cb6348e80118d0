import Mathlib.Data.List.Basic

/-!
# `Tachyon.Lib.Trace`: the order of events in a log

`Ordered ok log` says that every event of the log was in order when it was recorded: `ok` holds of
the events before it. A log is extended at its end, one event at a time, so `Ordered.snoc` is the
step: the new event has to be in order behind what is there.
-/

set_option autoImplicit false

namespace Tachyon

variable {ε : Type}

/-- Every event meets its condition on the events before it. -/
def Ordered (ok : List ε → ε → Prop) (log : List ε) : Prop :=
  ∀ before e after, log = before ++ e :: after → ok before e

namespace Ordered

variable {ok : List ε → ε → Prop} {log : List ε} {e : ε}

theorem nil : Ordered ok ([] : List ε) := by
  intro before e after heq
  cases before <;> cases heq

theorem snoc (h : Ordered ok log) (he : ok log e) : Ordered ok (log ++ [e]) := by
  intro before e' after heq
  rcases List.eq_nil_or_concat after with rfl | ⟨after', x, rfl⟩
  · obtain ⟨rfl, hlast⟩ := List.append_inj' heq rfl
    cases hlast
    exact he
  · have hsplit : log ++ [e] = (before ++ e' :: after') ++ [x] := by
      rw [heq, List.concat_eq_append, List.append_assoc]
      rfl
    obtain ⟨hpre, _⟩ := List.append_inj' hsplit rfl
    exact h before e' after' hpre

end Ordered

end Tachyon
