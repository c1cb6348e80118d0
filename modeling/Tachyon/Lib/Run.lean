import Mathlib.Data.List.Induction

/-!
# `Tachyon.Lib.Run`: guarded runs of a partial step function

`step s a` is the state after the action `a` in the state `s`, or `none` when `a` is not
enabled there. `Run step guard s as t` says that the actions `as` lead from `s` to `t` and
that every one of them meets `guard` in the state where it is taken. The guard that is
always true gives the plain runs.

The rules: an invariant that every guarded step preserves holds along every guarded run
(`Run.invariant`), two runs compose (`Run.trans`), and a run under a guard is a plain run
(`Run.weaken`).
-/

set_option autoImplicit false

namespace Tachyon

variable {σ α : Type}

/-- The runs whose steps all meet `guard`. -/
inductive Run (step : σ → α → Option σ) (guard : σ → α → Prop) : σ → List α → σ → Prop
  | nil (s : σ) : Run step guard s [] s
  | snoc {s t u : σ} {as : List α} {a : α} :
      Run step guard s as t → guard t a → step t a = some u → Run step guard s (as ++ [a]) u

namespace Run

variable {step : σ → α → Option σ} {guard guard' : σ → α → Prop}

/-- An invariant of the guarded steps holds at the end of every guarded run. -/
theorem invariant {I : σ → Prop}
    (hstep : ∀ s a t, I s → guard s a → step s a = some t → I t)
    {s t : σ} {as : List α} (h : Run step guard s as t) (hs : I s) : I t := by
  induction h with
  | nil => exact hs
  | snoc _ hg ha ih => exact hstep _ _ _ ih hg ha

/-- A weaker guard admits the run. -/
theorem weaken (hw : ∀ s a, guard s a → guard' s a) {s t : σ} {as : List α}
    (h : Run step guard s as t) : Run step guard' s as t := by
  induction h with
  | nil => exact .nil _
  | snoc _ hg ha ih => exact .snoc ih (hw _ _ hg) ha

/-- An invariant may be read off at every step of the run. -/
theorem with_invariant {I : σ → Prop}
    (hstep : ∀ s a t, I s → guard s a → step s a = some t → I t)
    {s t : σ} {as : List α} (h : Run step guard s as t) (hs : I s) :
    Run step (fun u a => guard u a ∧ I u) s as t := by
  induction h with
  | nil => exact .nil _
  | snoc hrun hg ha ih => exact .snoc ih ⟨hg, hrun.invariant hstep hs⟩ ha

/-- One step is a run. -/
theorem single {s t : σ} {a : α} (hg : guard s a) (h : step s a = some t) :
    Run step guard s [a] t := by
  have hrun : Run step guard s ([] ++ [a]) t := .snoc (.nil s) hg h
  exact hrun

/-- Two runs compose. -/
theorem trans {s t u : σ} {as bs : List α} (h : Run step guard s as t)
    (h' : Run step guard t bs u) : Run step guard s (as ++ bs) u := by
  induction h' with
  | nil => simpa using h
  | snoc _ hg ha ih =>
    rw [← List.append_assoc]
    exact .snoc ih hg ha

/-- A run ends in the last step that its actions name. -/
theorem of_snoc {s u : σ} {as : List α} {a : α} (h : Run step guard s (as ++ [a]) u) :
    ∃ t, Run step guard s as t ∧ guard t a ∧ step t a = some u := by
  generalize hb : as ++ [a] = bs at h
  cases h with
  | nil => exact absurd hb (by simp)
  | snoc h hg ha =>
    obtain ⟨rfl, hlast⟩ := List.append_inj' hb rfl
    cases hlast
    exact ⟨_, h, hg, ha⟩

/-- A run can be cut anywhere. -/
theorem of_append {s u : σ} {as bs : List α} (h : Run step guard s (as ++ bs) u) :
    ∃ t, Run step guard s as t ∧ Run step guard t bs u := by
  induction bs using List.reverseRecOn generalizing u with
  | nil =>
    rw [List.append_nil] at h
    exact ⟨u, h, .nil u⟩
  | append_singleton bs b ih =>
    rw [← List.append_assoc] at h
    obtain ⟨v, hv, hg, hb⟩ := of_snoc h
    obtain ⟨t, ht, hrest⟩ := ih hv
    exact ⟨t, ht, .snoc hrest hg hb⟩

/-- A property that holds at the end and not at the start comes up in a step. -/
theorem enters {B : σ → Prop} {s t : σ} {as : List α} (h : Run step guard s as t) (hs : ¬ B s)
    (ht : B t) : ∃ bs a cs u v, as = bs ++ a :: cs ∧ Run step guard s bs u ∧ ¬ B u ∧
      step u a = some v ∧ B v := by
  induction h with
  | nil => exact absurd ht hs
  | @snoc t' w as a hrun _ ha ih =>
    by_cases hB : B t'
    · obtain ⟨bs, b, cs, u, v, rfl, hu⟩ := ih hB
      exact ⟨bs, b, cs ++ [a], u, v, by rw [List.append_assoc, List.cons_append], hu⟩
    · exact ⟨as, a, [], t', w, rfl, hrun, hB, ha, ht⟩

/-- The actions determine the end of a run. -/
theorem det {s t t' : σ} {as : List α} (h : Run step guard s as t)
    (h' : Run step guard' s as t') : t = t' := by
  induction h generalizing t' with
  | nil =>
    generalize hb : ([] : List α) = bs at h'
    cases h' with
    | nil => rfl
    | snoc => exact absurd hb (by simp)
  | snoc _ _ ha ih =>
    obtain ⟨u, hu, _, ha'⟩ := of_snoc h'
    cases ih hu
    exact Option.some.inj (ha.symm.trans ha')

/-- A run that goes on for one step meets a guard when it did so far and the step does. -/
theorem snoc_iff {s t u : σ} {as : List α} {a : α} (h : Run step guard s as t)
    (ha : step t a = some u) :
    Run step guard' s (as ++ [a]) u ↔ Run step guard' s as t ∧ guard' t a := by
  constructor
  · intro hrun
    obtain ⟨t', ht', hg, _⟩ := of_snoc hrun
    cases det h ht'
    exact ⟨ht', hg⟩
  · rintro ⟨ht, hg⟩
    exact .snoc ht hg ha

/-- The actions, executed one after another. Each has to pass the check. -/
def exec (step : σ → α → Option σ) (check : σ → α → Bool) : σ → List α → Option σ
  | s, [] => some s
  | s, a :: as => if check s a then (step s a).bind fun t => exec step check t as else none

/-- An execution is a run under every guard that the check implies. -/
theorem of_exec {check : σ → α → Bool} (hc : ∀ s a, check s a = true → guard s a) {s t : σ}
    {as : List α} (h : exec step check s as = some t) : Run step guard s as t := by
  induction as generalizing s with
  | nil =>
    cases h
    exact .nil _
  | cons a as ih =>
    unfold exec at h
    split at h
    · rename_i hpass
      obtain ⟨u, hu, ht⟩ := Option.bind_eq_some_iff.mp h
      exact trans (single (hc s a hpass) hu) (ih ht)
    · cases h

/-- A property computed at the end of an execution. -/
theorem exists_of_exec {check : σ → α → Bool} (hc : ∀ s a, check s a = true → guard s a)
    {s : σ} {as : List α} {p : σ → Bool} (h : (exec step check s as).any p = true) :
    ∃ t, Run step guard s as t ∧ p t = true := by
  obtain ⟨t, ht, hp⟩ := Option.any_eq_true _ _ |>.mp h
  exact ⟨t, of_exec hc ht, hp⟩

end Run

end Tachyon
