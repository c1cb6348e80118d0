import Mathlib.Data.List.Basic
import Tachyon.Lib.Run

/-!
# `Tachyon.Lib.History`: what the steps of a run put out

`collect step out s as` is what the steps of a run put out, one behind the other. The output of a
step is a function of the state and the action, so it is a history that the state need not keep.

* `Run.history`: a property of the state and the history so far.
* `Run.fifo`: a queue inside of the state. When every step takes its output from the front and adds
  its input at the back, then so does the run: nothing is lost, doubled or overtaken.
* `Run.simulate`: a forward simulation by another step function, with the same history.
* `Run.progress`: a queue that is served. After enough moves its elements have been taken.
-/

set_option autoImplicit false

namespace Tachyon

namespace Run

variable {σ α β : Type} {step : σ → α → Option σ} {guard : σ → α → Prop}

/-- What the steps put out, in order. A step that is not enabled ends it. -/
def collect (step : σ → α → Option σ) (out : σ → α → List β) : σ → List α → List β
  | _, [] => []
  | s, a :: as =>
    out s a ++ match step s a with
      | some t => collect step out t as
      | none => []

variable {out : σ → α → List β} {s t u : σ} {as bs : List α} {a : α}

@[simp] theorem collect_nil (step : σ → α → Option σ) (out : σ → α → List β) (s : σ) :
    collect step out s [] = [] := rfl

theorem collect_cons (ha : step s a = some t) (as : List α) :
    collect step out s (a :: as) = out s a ++ collect step out t as := by
  rw [collect, ha]

theorem collect_single (ha : step s a = some t) : collect step out s [a] = out s a := by
  rw [collect_cons ha, collect_nil, List.append_nil]

/-- The history of a run that goes on. -/
theorem collect_append (h : Run step guard s as t) (bs : List α) :
    collect step out s (as ++ bs) = collect step out s as ++ collect step out t bs := by
  induction h generalizing bs with
  | nil => rfl
  | @snoc t u as a _ _ ha ih =>
    rw [List.append_assoc, List.singleton_append, ih (a :: bs), collect_cons ha, ih [a],
      collect_single ha, List.append_assoc]

theorem collect_snoc (h : Run step guard s as t) (ha : step t a = some u) :
    collect step out s (as ++ [a]) = collect step out s as ++ out t a := by
  rw [collect_append h, collect_single ha]

theorem collect_map {γ : Type} (f : β → γ) (s : σ) (as : List α) :
    collect step (fun u a => (out u a).map f) s as = (collect step out s as).map f := by
  induction as generalizing s with
  | nil => rfl
  | cons a as ih =>
    rw [collect, collect, List.map_append]
    cases step s a with
    | none => rfl
    | some t =>
      show (out s a).map f ++ collect step (fun u a => (out u a).map f) t as
        = (out s a).map f ++ (collect step out t as).map f
      rw [ih t]

/-- Steps without output leave no history. -/
theorem collect_of_guard (hout : ∀ s a, guard s a → out s a = []) (h : Run step guard s as t) :
    collect step out s as = [] := by
  induction h with
  | nil => rfl
  | snoc hrun hg ha ih => rw [collect_snoc hrun ha, ih, hout _ _ hg, List.append_nil]

/-- A property of the state and the history. Its step may use the run so far. -/
theorem history {J : σ → List β → Prop} (hstart : J s [])
    (hstep : ∀ as t a u, Run step guard s as t → guard t a → step t a = some u →
      J t (collect step out s as) → J u (collect step out s as ++ out t a))
    (h : Run step guard s as t) : J t (collect step out s as) := by
  induction h with
  | nil => exact hstart
  | snoc hrun hg ha ih =>
    rw [collect_snoc hrun ha]
    exact hstep _ _ _ _ hrun hg ha ih

/-- A queue inside of the state: what the run takes is what was there and what the run adds, from
the front. -/
theorem fifo {content : σ → List β} {added taken : σ → α → List β}
    (hstep : ∀ as t a u, Run step guard s as t → guard t a → step t a = some u →
      content t ++ added t a = taken t a ++ content u)
    (h : Run step guard s as t) :
    content s ++ collect step added s as = collect step taken s as ++ content t := by
  induction h with
  | nil => rw [collect_nil, collect_nil, List.append_nil, List.nil_append]
  | @snoc t u as a hrun hg ha ih =>
    calc content s ++ collect step added s (as ++ [a])
        = content s ++ collect step added s as ++ added t a := by
          rw [collect_snoc hrun ha, List.append_assoc]
      _ = collect step taken s as ++ (content t ++ added t a) := by
          rw [ih, List.append_assoc]
      _ = collect step taken s (as ++ [a]) ++ content u := by
          rw [hstep _ _ _ _ hrun hg ha, collect_snoc hrun ha, List.append_assoc]

/-! ### Simulation -/

variable {τ α' : Type} {step' : τ → α' → Option τ} {guard' : τ → α' → Prop}
  {out' : τ → α' → List β}

/-- Every step is matched by a run with the same output. Then so is every run. -/
theorem simulate {R : σ → τ → Prop}
    (hstep : ∀ s a t s', R s s' → guard s a → step s a = some t →
      ∃ bs t', Run step' guard' s' bs t' ∧ R t t' ∧ collect step' out' s' bs = out s a)
    (h : Run step guard s as t) {s' : τ} (hs : R s s') :
    ∃ bs t', Run step' guard' s' bs t' ∧ R t t' ∧
      collect step' out' s' bs = collect step out s as := by
  induction h with
  | nil => exact ⟨[], s', .nil s', hs, rfl⟩
  | @snoc t u as a hrun hg ha ih =>
    obtain ⟨bs, t', hrun', ht, hout⟩ := ih
    obtain ⟨cs, u', hnext, hu, hlast⟩ := hstep t a u t' ht hg ha
    refine ⟨bs ++ cs, u', hrun'.trans hnext, hu, ?_⟩
    rw [collect_append hrun', hout, hlast, collect_snoc hrun ha]

/-! ### Progress -/

variable {γ : Type} {content : σ → List β} {taken : σ → α → List β}

/-- What a run takes are the elements that were there and those that came, from the front. -/
theorem taken_prefix
    (hfifo : ∀ as t a u, Run step guard s as t → guard t a → step t a = some u →
      ∃ added, content t ++ added = taken t a ++ content u)
    (h : Run step guard s as t) :
    ∃ added, content s ++ added = collect step taken s as ++ content t := by
  induction h with
  | nil => exact ⟨[], by simp⟩
  | @snoc t u as a hrun hg ha ih =>
    obtain ⟨old, hold⟩ := ih
    obtain ⟨new, hnew⟩ := hfifo as t a u hrun hg ha
    refine ⟨old ++ new, ?_⟩
    rw [collect_snoc hrun ha, ← List.append_assoc, hold, List.append_assoc, hnew,
      List.append_assoc]

/-- A queue inside of the state is served. `need t k` bounds the moves until the first `k` elements
are taken, and every move lowers it. So after `need` moves they have been taken, in order. -/
theorem progress {moves : σ → α → List γ} {need : σ → Nat → Nat}
    (hfifo : ∀ as t a u, Run step guard s as t → guard t a → step t a = some u →
      ∃ added, content t ++ added = taken t a ++ content u)
    (hneed : ∀ as t a u, Run step guard s as t → guard t a → step t a = some u →
      ∀ k, 0 < k → k ≤ (content t).length →
        need u (k - (taken t a).length) + (moves t a).length ≤ need t k)
    (hpos : ∀ t k, 0 < k → 0 < need t k) (h : Run step guard s as t)
    (hmoves : need s (content s).length ≤ (collect step moves s as).length) :
    content s <+: collect step taken s as := by
  have hleft : (collect step taken s as).length < (content s).length →
      need t ((content s).length - (collect step taken s as).length)
        + (collect step moves s as).length ≤ need s (content s).length := by
    clear hmoves
    -- Along the run: what is still to be taken, and the moves that this needs at most.
    induction h with
    | nil => exact fun _ => by simp
    | @snoc t u as a hrun hg ha ih =>
      rw [collect_snoc hrun ha, collect_snoc hrun ha, List.length_append, List.length_append]
      intro hlt
      obtain ⟨added, hfront⟩ := taken_prefix hfifo hrun
      have hlen := congrArg List.length hfront
      simp only [List.length_append] at hlen
      have hnext := hneed as t a u hrun hg ha
        ((content s).length - (collect step taken s as).length) (by omega) (by omega)
      have hprev := ih (by omega)
      rw [Nat.sub_sub] at hnext
      omega
  obtain ⟨added, hfront⟩ := taken_prefix hfifo h
  have hdone : (content s).length ≤ (collect step taken s as).length := by
    -- An element that is left would need a move more.
    by_contra hlt
    have hbound := hleft (by omega)
    have hopen := hpos t ((content s).length - (collect step taken s as).length) (by omega)
    omega
  exact List.prefix_of_prefix_length_le ⟨added, hfront⟩ (List.prefix_append _ _) hdone

end Run

end Tachyon
