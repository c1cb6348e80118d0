import Mathlib.Logic.Function.Basic
import Tachyon.Lib.History

/-!
# `Tachyon.Lib.Answering`: one queue of inputs, answered from the front

The abstract machine of a server with one worker. Every client sends inputs, all of them wait in
one inbox, and the worker answers the oldest one to the client that sent it. What an answer is may
depend on a context that only the worker knows, such as the time.

`Answering.served` is what the machine is for: the inputs that waited and those that are delivered
are those that are answered and those that still wait, in order, and the output of a client grows by
the answers to its own inputs.
-/

set_option autoImplicit false

namespace Tachyon

/-- The inputs that wait, oldest first, and what every client was answered. -/
structure Answering (κ χ ρ : Type) where
  inbox : List (κ × χ)
  output : κ → List ρ

namespace Answering

variable {κ χ δ ρ : Type} [DecidableEq κ]

inductive Act (κ χ δ : Type)
  | deliver (c : κ) (x : χ)
  | answer (d : δ)

/-- Nothing has been sent. -/
def empty : Answering κ χ ρ := ⟨[], fun _ => []⟩

/-- One step, for the answers `f`. -/
def step (f : δ → χ → List ρ) (s : Answering κ χ ρ) : Act κ χ δ → Option (Answering κ χ ρ)
  | .deliver c x => some { s with inbox := s.inbox ++ [(c, x)] }
  | .answer d =>
    match s.inbox with
    | [] => none
    | (c, x) :: rest => some ⟨rest, Function.update s.output c (s.output c ++ f d x)⟩

/-- The input that a step delivers. -/
def delivered (_ : Answering κ χ ρ) : Act κ χ δ → List (κ × χ)
  | .deliver c x => [(c, x)]
  | .answer _ => []

/-- The answers to one client, among all that were given. -/
def answersTo (f : δ → χ → List ρ) (c : κ) (done : List (δ × κ × χ)) : List ρ :=
  done.flatMap fun a => if a.2.1 = c then f a.1 a.2.2 else []

theorem answersTo_append (f : δ → χ → List ρ) (c : κ) (done more : List (δ × κ × χ)) :
    answersTo f c (done ++ more) = answersTo f c done ++ answersTo f c more :=
  List.flatMap_append

theorem answersTo_singleton (f : δ → χ → List ρ) (c : κ) (a : δ × κ × χ) :
    answersTo f c [a] = if a.2.1 = c then f a.1 a.2.2 else [] :=
  List.flatMap_singleton _ _

/-- The contexts in which answers are given. -/
def Within (P : δ → Prop) (_ : Answering κ χ ρ) : Act κ χ δ → Prop
  | .deliver _ _ => True
  | .answer d => P d

/-- What the answers given since `s₀` account for. -/
def Served (P : δ → Prop) (f : δ → χ → List ρ) (s₀ s : Answering κ χ ρ) (sent : List (κ × χ)) :
    Prop :=
  ∃ done : List (δ × κ × χ), (∀ a ∈ done, P a.1) ∧
    done.map Prod.snd ++ s.inbox = s₀.inbox ++ sent ∧
    ∀ c, s.output c = s₀.output c ++ answersTo f c done

/-- More output for one client. -/
theorem update_append (output : κ → List ρ) (c c' : κ) (ys : List ρ) :
    Function.update output c (output c ++ ys) c' = output c' ++ if c = c' then ys else [] := by
  by_cases hc : c' = c
  · rw [hc, Function.update_self, if_pos rfl]
  · rw [Function.update_of_ne hc, if_neg (Ne.symm hc), List.append_nil]

theorem step_answer (f : δ → χ → List ρ) {s : Answering κ χ ρ} {x : κ × χ} {rest : List (κ × χ)}
    (h : s.inbox = x :: rest) (d : δ) : step f s (.answer d)
      = some ⟨rest, Function.update s.output x.1 (s.output x.1 ++ f d x.2)⟩ := by
  rw [step, h]

variable {P : δ → Prop} {f : δ → χ → List ρ} {s₀ s t : Answering κ χ ρ}

theorem Served.step {sent : List (κ × χ)} {a : Act κ χ δ} (h : Served P f s₀ s sent)
    (hg : Within P s a) (ha : step f s a = some t) : Served P f s₀ t (sent ++ delivered s a) := by
  obtain ⟨done, hdone, hsent, hout⟩ := h
  cases a with
  | deliver c x =>
    cases ha
    refine ⟨done, hdone, ?_, hout⟩
    rw [← List.append_assoc s₀.inbox, ← hsent, List.append_assoc _ s.inbox]
    rfl
  | answer d =>
    cases hinbox : s.inbox with
    | nil =>
      rw [Answering.step, hinbox] at ha
      cases ha
    | cons x rest =>
      rw [step_answer f hinbox] at ha
      cases ha
      refine ⟨done ++ [(d, x)], ?_, ?_, fun c => ?_⟩
      · intro a ha
        rcases List.mem_append.mp ha with hbefore | hlast
        · exact hdone a hbefore
        · rw [List.mem_singleton.mp hlast]
          exact hg
      · rw [delivered, List.append_nil, ← hsent, List.map_append, List.append_assoc, hinbox]
        rfl
      · rw [answersTo_append, ← List.append_assoc, ← hout c, answersTo_singleton]
        exact update_append s.output x.1 c (f d x.2)

/-- Every input is answered once, in order, to the client that sent it. -/
theorem served {as : List (Act κ χ δ)} (h : Run (step f) (Within P) s₀ as s) :
    Served P f s₀ s (Run.collect (step f) delivered s₀ as) := by
  refine Run.history ⟨[], ?_, (List.append_nil _).symm, fun _ => (List.append_nil _).symm⟩ ?_ h
  · intro a ha
    cases ha
  · intro as t a u _ hg ha hs
    exact hs.step hg ha

end Answering

end Tachyon
