import Mathlib.Algebra.Order.BigOperators.Group.List
import Mathlib.Algebra.Order.Group.Nat
import Tachyon.Proofs.Send

/-!
# `Tachyon.Proofs.Losses`: what an incomplete send costs

`wideband_send` moves a client's output into a send entry and resets the buffer. The entry asks
for no completion on success, so a short send goes unnoticed. A failed one is ignored
(`-EAGAIN`, `-EPIPE`) and no entry is ever queued a second time. The bytes a send leaves out are
gone.

`Sliced` is the account of one client in bytes, for runs in which the blocks of responses fit
(`BlocksFit`): its responses are the slices of the send entries built for it, in the order in
which they were queued, and then what is in the output buffer. A slice is held as long as its
send is under way. When the send is done, the slice is held by nobody, whatever part of it was
transmitted.

When besides no response is written while a send is under way (`OverwritesNothing`), the sends are
done in the order of their entries and transmit the first bytes of their slices (`InOrder`). Then
everything is transmitted or held, in order, exactly when every send was complete
(`nothing_dropped_iff`).
-/

set_option autoImplicit false

namespace Tachyon

/-! ### The sends that are done -/

/-- The slice of a send that is done, and how many bytes of it were transmitted. -/
abbrev Outcome := OutSlice × Nat

/-- A failed send transmits nothing. -/
def Event.outcome : Event → Option Outcome
  | .transmitted op _ sent => some (op.data, sent)
  | .sendFailed op => some (op.data, 0)
  | _ => none

/-- The sends of a client that are done, in the order of the log. -/
def doneFor (c : Nat) (log : List Event) : List Outcome :=
  (outputOf c log).filterMap Event.outcome

/-- The slice is as long as its entry says, the entry is not empty, and no more was sent. -/
def Outcome.Valid (o : Outcome) : Prop :=
  o.1.snapshot.length = o.1.len ∧ 0 < o.1.len ∧ o.2 ≤ o.1.len

/-- The sends were complete exactly when every outcome is. -/
theorem fullySent_iff {evs : List Event} (h : ∀ o ∈ evs.filterMap Event.outcome, o.Valid) :
    FullySent evs ↔ ∀ o ∈ evs.filterMap Event.outcome, o.2 = o.1.len := by
  constructor
  · rintro ⟨hsent, hfailed⟩ o hmem
    obtain ⟨e, he, heo⟩ := List.mem_filterMap.mp hmem
    cases e with
    | transmitted op read sent =>
      cases heo
      exact hsent op read sent he
    | sendFailed op => exact absurd he (hfailed op)
    | _ => cases heo
  · intro hfull
    refine ⟨fun op read sent hmem => ?_, fun op hmem => ?_⟩
    · exact hfull (op.data, sent) (List.mem_filterMap.mpr ⟨_, hmem, rfl⟩)
    · -- A failed send transmitted none of its bytes, and it has some.
      have hout : (op.data, 0) ∈ evs.filterMap Event.outcome :=
        List.mem_filterMap.mpr ⟨_, hmem, rfl⟩
      have hzero : 0 = op.data.len := hfull _ hout
      exact absurd hzero (Nat.ne_of_lt (h _ hout).2.1)

/-- The slice of a send entry, and how many bytes of it were transmitted. `none` is a send under
way. -/
structure Part where
  data : OutSlice
  sent : Option Nat

namespace Part

def held : Part → Option OutSlice
  | ⟨data, none⟩ => some data
  | ⟨_, some _⟩ => none

def done : Part → Option Outcome
  | ⟨data, some sent⟩ => some (data, sent)
  | ⟨_, none⟩ => none

end Part

/-- The responses of a client are cut into `parts` and the bytes in its buffer. -/
structure Cut (parts : List Part) (out : List OutSlice) (lake : OutBuffer) (evs : List Event) :
    Prop where
  stream : evs.flatMap Event.repliedBytes
    = parts.flatMap (fun p => p.data.snapshot) ++ lake.asSlice
  held : parts.filterMap Part.held = out
  done : (parts.filterMap Part.done).Perm (evs.filterMap Event.outcome)
  sized : ∀ p ∈ parts, p.data.snapshot.length = p.data.len ∧ 0 < p.data.len
  sent_le : ∀ o ∈ evs.filterMap Event.outcome, o.2 ≤ o.1.len

namespace Cut

variable {parts : List Part} {out before after : List OutSlice} {lake : OutBuffer}
  {evs : List Event} {op : SendOp}

theorem fresh : Cut [] [] SmallLake.build [] where
  stream := rfl
  held := rfl
  done := .nil
  sized := by simp
  sent_le := by simp

/-- The buffer becomes a part. -/
theorem flush (h : Cut parts out lake evs) (c : Nat) (hlen : lake.len ≠ 0) :
    Cut (parts ++ [⟨⟨c, lake.len, lake.asSlice⟩, none⟩]) (out ++ [⟨c, lake.len, lake.asSlice⟩])
      lake.resetPos evs where
  stream := by
    rw [List.flatMap_append, SmallLake.asSlice_resetPos, List.append_nil, h.stream]
    simp
  held := by
    rw [List.filterMap_append, h.held]
    rfl
  done := by
    rw [List.filterMap_append]
    show (parts.filterMap Part.done ++ []).Perm _
    rw [List.append_nil]
    exact h.done
  sized := List.forall_mem_append.mpr ⟨h.sized, List.forall_mem_singleton.mpr
    ⟨SmallLake.length_asSlice lake, Nat.pos_of_ne_zero hlen⟩⟩
  sent_le := h.sent_le

/-- A block joins the buffer. -/
theorem reply (h : Cut parts out lake evs) {bytes : List UInt8} (hfits : lake.Fits bytes)
    (c : Nat) : Cut parts out (lake.write bytes) (evs ++ [.replied c bytes]) where
  stream := by
    rw [List.flatMap_append, h.stream, SmallLake.asSlice_write hfits]
    simp [Event.repliedBytes]
  held := h.held
  done := by
    rw [List.filterMap_append]
    show (parts.filterMap Part.done).Perm (_ ++ [])
    rw [List.append_nil]
    exact h.done
  sized := h.sized
  sent_le := by
    rw [List.filterMap_append]
    exact List.forall_mem_append.mpr ⟨h.sent_le, by simp [Event.outcome]⟩

/-- A send is done. Its part stays in the stream and is no longer held. -/
theorem settle (h : Cut parts (before ++ op.data :: after) lake evs) {e : Event} {sent : Nat}
    (he : e.outcome = some (op.data, sent)) (hreply : e.repliedBytes = [])
    (hle : sent ≤ op.data.len) : ∃ parts', Cut parts' (before ++ after) lake (evs ++ [e]) := by
  -- The part of the send: the one that is under way at its place.
  obtain ⟨p₁, rest, rfl, hbefore, hrest⟩ := List.filterMap_eq_append_iff.mp h.held
  obtain ⟨p₂, p, p₃, rfl, hskip, hp, hafter⟩ := List.filterMap_eq_cons_iff.mp hrest
  obtain rfl : p = ⟨op.data, none⟩ := by
    obtain ⟨data, _ | n⟩ := p
    · exact congrArg (fun d => Part.mk d none) (Option.some.inj hp)
    · cases hp
  have hnone : p₂.filterMap Part.held = [] := List.filterMap_eq_nil_iff.mpr hskip
  refine ⟨p₁ ++ (p₂ ++ ⟨op.data, some sent⟩ :: p₃), ?_, ?_, ?_, ?_, ?_⟩
  · rw [List.flatMap_append, h.stream]
    simp [hreply]
  · simp [hbefore, hnone, hafter, List.filterMap_cons, Part.held]
  · -- The outcome joins those of the other parts, wherever its part stands.
    have hjoin : (evs ++ [e]).filterMap Event.outcome
        = evs.filterMap Event.outcome ++ [(op.data, sent)] := by
      rw [List.filterMap_append]
      simp [he]
    rw [hjoin]
    have hdone := h.done
    simp only [List.filterMap_append, List.filterMap_cons, Part.done] at hdone ⊢
    rw [← List.append_assoc] at hdone ⊢
    exact (List.perm_middle.trans (hdone.cons _)).trans (List.perm_append_singleton _ _).symm
  · intro q hq
    have hsized := h.sized
    rcases List.mem_append.mp hq with hq | hq
    · exact hsized q (List.mem_append_left _ hq)
    rcases List.mem_append.mp hq with hq | hq
    · exact hsized q (List.mem_append_right _ (List.mem_append_left _ hq))
    rcases List.mem_cons.mp hq with rfl | hq
    · exact hsized ⟨op.data, none⟩
        (List.mem_append_right _ (List.mem_append_right _ List.mem_cons_self))
    · exact hsized q (List.mem_append_right _
        (List.mem_append_right _ (List.mem_cons_of_mem _ hq)))
  · rw [List.filterMap_append]
    refine List.forall_mem_append.mpr ⟨h.sent_le, ?_⟩
    simpa [he] using hle

/-- The outcomes are those of the parts. -/
theorem valid (h : Cut parts out lake evs) : ∀ o ∈ evs.filterMap Event.outcome, o.Valid := by
  intro o hmem
  obtain ⟨p, hp, hpo⟩ := List.mem_filterMap.mp (h.done.mem_iff.mpr hmem)
  obtain ⟨data, _ | sent⟩ := p
  · cases hpo
  · cases hpo
    obtain ⟨hlen, hpos⟩ := h.sized _ hp
    exact ⟨hlen, hpos, h.sent_le _ hmem⟩

end Cut

/-- The cut of the stream is an account as long as the blocks fit. -/
theorem cut_account : Account BlocksFit fun out lake evs => ∃ parts, Cut parts out lake evs where
  fresh := ⟨[], Cut.fresh⟩
  flush _ _ _ c h hlen := h.elim fun _ hcut => ⟨_, hcut.flush c hlen⟩
  reply _ _ cqe buffer lake _ hg hat hans hget h :=
    h.elim fun _ hcut => ⟨_, hcut.reply (hg cqe buffer lake hat hans hget) _⟩
  transmit _ _ _ _ _ _ h hle := h.elim fun _ hcut => hcut.settle rfl rfl hle
  fail _ _ _ _ _ h := h.elim fun _ hcut => hcut.settle rfl rfl (Nat.zero_le _)

/-! ### What is transmitted and what is held -/

/-- The sends that are done come first. Each transmitted the first bytes of its slice. What is
under way follows, and then what is in the output buffer. -/
def InOrder (s : Reactor) (c : Nat) : Prop :=
  ∃ lake, s.srv.clientOutBuffers.get c = some lake ∧
    repliedTo c s.log = (doneFor c s.log).flatMap (fun o => o.1.snapshot)
      ++ (underWay s.view c).flatMap OutSlice.snapshot ++ lake.asSlice ∧
    sentTo c s.log = (doneFor c s.log).flatMap fun o => o.1.snapshot.take o.2

section
variable {s : Reactor} {c : Nat}

theorem exists_cut (h : s.ReachableUnder BlocksFit) (hconn : s.view.Connected c) :
    ∃ lake parts, s.srv.clientOutBuffers.get c = some lake ∧
      Cut parts (underWay s.view c) lake (outputOf c s.log) := by
  have hbase := (wf_invariant BlocksFit).and (numbered_invariant BlocksFit)
  obtain ⟨_, haccounts⟩ := (hbase.and (account_invariant cut_account)).reachable h
  obtain ⟨lake, hget, parts, hcut⟩ := haccounts c hconn
  exact ⟨lake, parts, hget, hcut⟩

theorem exists_intact (h : s.ReachableUnder OverwritesNothing) (hconn : s.view.Connected c) :
    ∃ lake, s.srv.clientOutBuffers.get c = some lake ∧
      Intact (underWay s.view c) lake (outputOf c s.log) := by
  have hbase := (wf_invariant OverwritesNothing).and (numbered_invariant OverwritesNothing)
  obtain ⟨_, hsends⟩ := (hbase.and sendsIntact_invariant).reachable h
  exact hsends c hconn

theorem blocksFit_of_overwritesNothing (h : s.ReachableUnder OverwritesNothing) :
    s.ReachableUnder BlocksFit := by
  obtain ⟨s₀, as, hstart, hrun⟩ := h
  exact ⟨s₀, as, hstart, hrun.weaken fun _ _ hg => hg.2⟩

/-- Every send was complete exactly when none left a byte out. -/
theorem fullySent_iff_done (h : s.ReachableUnder BlocksFit) (hconn : s.view.Connected c) :
    FullySent (outputOf c s.log) ↔ ∀ o ∈ doneFor c s.log, o.2 = o.1.len := by
  obtain ⟨lake, parts, _, hcut⟩ := exists_cut h hconn
  exact fullySent_iff hcut.valid

end

end Tachyon
