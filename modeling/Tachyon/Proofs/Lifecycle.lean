import Tachyon.Proofs.Tables

/-!
# `Tachyon.Proofs.Lifecycle`: the life of a client, and what is closed

An index is given out once. The log records the acceptance of the client, with its
descriptor, and every call of `libc::close`. `Lifecycle` connects the log with the table:

* a stored client was accepted with the descriptor in its slot, and nothing was closed for it;
* an index that was given out and is vacant was accepted, and its descriptor was closed.

So a close for a vacant slot comes after the client's own close. It takes the fallback 255,
which was not accepted for the client, or was closed already. `closes_own_once_iff` states
this for whole runs.
-/

set_option autoImplicit false

namespace Tachyon

/-- The log and the descriptor table. -/
structure Lifecycle (fds : ExternStableVec RawFd) (log : List Event) : Prop where
  accepted_range : ∀ c fd conn, .accepted c fd conn ∈ log → 100 ≤ c ∧ c < fds.next
  accepted_once : ∀ c fd conn fd' conn', .accepted c fd conn ∈ log →
    .accepted c fd' conn' ∈ log → fd' = fd ∧ conn' = conn
  closed_lt : ∀ c fd, .closed c fd ∈ log → c < fds.next
  stored : ∀ c fd, 100 ≤ c → fds.get c = some fd →
    (∃ conn, .accepted c fd conn ∈ log) ∧ ∀ fd', .closed c fd' ∉ log
  vacant : ∀ c, 100 ≤ c → c < fds.next → fds.get c = none →
    ∃ fd conn, .accepted c fd conn ∈ log ∧ .closed c fd ∈ log

/-- The events that neither accept nor close. -/
def Event.Neutral : Event → Prop
  | .accepted _ _ _ => False
  | .closed _ _ => False
  | _ => True

namespace Lifecycle

variable {fds : ExternStableVec RawFd} {log : List Event}

theorem initial {v : View} (h : v.Initial) : Lifecycle v.fds v.log := by
  rw [h.log_eq]
  exact
    { accepted_range := by simp
      accepted_once := by simp
      closed_lt := by simp
      stored := by
        intro c fd hc hget
        rw [h.fds_get, if_neg (by omega)] at hget
        cases hget
      vacant := by
        intro c hc hlt
        rw [h.fds_next] at hlt
        omega }

/-- Neutral events change nothing. -/
theorem append (h : Lifecycle fds log) {es : List Event} (hes : ∀ e ∈ es, e.Neutral) :
    Lifecycle fds (log ++ es) := by
  have hacc : ∀ c fd conn, .accepted c fd conn ∈ log ++ es ↔ .accepted c fd conn ∈ log := by
    intro c fd conn
    rw [List.mem_append, or_iff_left fun he => absurd (hes (.accepted c fd conn) he) id]
  have hclo : ∀ c fd, .closed c fd ∈ log ++ es ↔ .closed c fd ∈ log := by
    intro c fd
    rw [List.mem_append, or_iff_left fun he => absurd (hes (.closed c fd) he) id]
  exact
    { accepted_range := by simpa only [hacc] using h.accepted_range
      accepted_once := by simpa only [hacc] using h.accepted_once
      closed_lt := by simpa only [hclo] using h.closed_lt
      stored := by simpa only [hacc, hclo] using h.stored
      vacant := by simpa only [hacc, hclo] using h.vacant }

/-- The next index was not given out. -/
theorem ne_next (h : Lifecycle fds log) {c : Nat} {fd : RawFd} {conn : Option ConnId}
    (hm : .accepted c fd conn ∈ log) : c ≠ fds.next :=
  Nat.ne_of_lt (h.accepted_range c fd conn hm).2

/-- A client is stored at the next index. -/
theorem accept (h : Lifecycle fds log) (hge : 100 ≤ fds.next) (fd : RawFd)
    (conn : Option ConnId) :
    Lifecycle (fds.push fd).2 (log ++ [.accepted fds.next fd conn]) where
  accepted_range c fd' conn' hm := by
    rw [ExternStableVec.next_push]
    rcases List.mem_append.mp hm with hm | hm
    · have := h.accepted_range c fd' conn' hm
      omega
    · cases List.mem_singleton.mp hm
      omega
  accepted_once c fd₁ conn₁ fd₂ conn₂ h₁ h₂ := by
    -- Two acceptances of one index are both old or both this one.
    rcases List.mem_append.mp h₁ with h₁ | h₁ <;> rcases List.mem_append.mp h₂ with h₂ | h₂
    · exact h.accepted_once c fd₁ conn₁ fd₂ conn₂ h₁ h₂
    · cases List.mem_singleton.mp h₂
      exact absurd rfl (h.ne_next h₁)
    · cases List.mem_singleton.mp h₁
      exact absurd rfl (h.ne_next h₂)
    · cases List.mem_singleton.mp h₁
      cases List.mem_singleton.mp h₂
      exact ⟨rfl, rfl⟩
  closed_lt c fd' hm := by
    rw [ExternStableVec.next_push]
    rcases List.mem_append.mp hm with hm | hm
    · exact Nat.lt_succ_of_lt (h.closed_lt c fd' hm)
    · cases List.mem_singleton.mp hm
  stored c fd' hc hget := by
    rw [ExternStableVec.get_push] at hget
    split at hget
    · next hcn =>
      -- the new client: no index at or above `next` was closed
      cases hget
      subst hcn
      refine ⟨⟨conn, List.mem_append_right _ (List.mem_singleton.mpr rfl)⟩, fun fd' hm => ?_⟩
      rcases List.mem_append.mp hm with hm | hm
      · exact absurd (h.closed_lt _ fd' hm) (Nat.lt_irrefl _)
      · cases List.mem_singleton.mp hm
    · obtain ⟨⟨conn', hacc⟩, hclo⟩ := h.stored c fd' hc hget
      refine ⟨⟨conn', List.mem_append_left _ hacc⟩, fun fd'' hm => ?_⟩
      rcases List.mem_append.mp hm with hm | hm
      · exact hclo fd'' hm
      · cases List.mem_singleton.mp hm
  vacant c hc hlt hget := by
    rw [ExternStableVec.get_push] at hget
    rw [ExternStableVec.next_push] at hlt
    split at hget
    · cases hget
    · obtain ⟨fd', conn', hacc, hclo⟩ := h.vacant c hc (by omega) hget
      exact ⟨fd', conn', List.mem_append_left _ hacc, List.mem_append_left _ hclo⟩

theorem accepted_mem_snoc {c c' : Nat} {fd fd' : RawFd} {conn : Option ConnId} :
    .accepted c' fd' conn ∈ log ++ [.closed c fd] ↔ .accepted c' fd' conn ∈ log := by
  simp

/-- `close_connection` with force: the client's descriptor, or the fallback. -/
theorem close (h : Lifecycle fds log) {c : Nat} (hlt : c < fds.next) :
    Lifecycle (fds.remove c).2 (log ++ [.closed c ((fds.get c).getD 0xFF)]) where
  accepted_range := by
    simpa only [accepted_mem_snoc, ExternStableVec.next_remove] using h.accepted_range
  accepted_once := by simpa only [accepted_mem_snoc] using h.accepted_once
  closed_lt c' fd hm := by
    rcases List.mem_append.mp hm with hm | hm
    · exact h.closed_lt c' fd hm
    · cases List.mem_singleton.mp hm
      exact hlt
  stored c' fd hc' hget := by
    rw [ExternStableVec.get_remove] at hget
    split at hget
    · cases hget
    · next hne =>
      obtain ⟨hex, hclo⟩ := h.stored c' fd hc' hget
      simp only [accepted_mem_snoc]
      refine ⟨hex, fun fd' hm => ?_⟩
      rcases List.mem_append.mp hm with hm | hm
      · exact hclo fd' hm
      · cases List.mem_singleton.mp hm
        exact hne rfl
  vacant c' hc' hlt' hget := by
    simp only [accepted_mem_snoc]
    rw [ExternStableVec.get_remove] at hget
    cases hold : fds.get c' with
    | none =>
      -- vacant before: its descriptor was closed then
      obtain ⟨fd, conn, ha, hc⟩ := h.vacant c' hc' hlt' hold
      exact ⟨fd, conn, ha, List.mem_append_left _ hc⟩
    | some fd =>
      -- vacated by this close, which is of the stored descriptor
      have hcc : c' = c := by
        by_contra hne
        rw [if_neg hne, hold] at hget
        cases hget
      subst hcc
      obtain ⟨⟨conn, ha⟩, _⟩ := h.stored c' fd hc' hold
      exact ⟨fd, conn, ha, by simp [hold]⟩

end Lifecycle

/-- The log part of the view in every reachable state. -/
theorem lifecycle_invariant :
    Reactor.InvariantOver (fun _ _ => True) View.Wf fun v => Lifecycle v.fds v.log where
  start _ h := .initial h
  effect s a v hwf hs _ he := by
    cases he with
    | flush inp hpc => exact hs.append (by simp [Event.Neutral])
    | accept inp cqe lakes poll recv hat hu hfd hins hpoll hrecv =>
      exact hs.accept hwf.tables.next_ge _ _
    | close inp cqe hat hc hfd => exact hs.close (hwf.client_issued hat.mem_cq hc.1).2
    | closeStdin inp cqe hat hc hfd => exact absurd hfd (hwf.closeFd_ne_zero _)
    | reply inp cqe buffer lake hat hans hget => exact hs.append (by simp [Event.Neutral])
    | kernelAccept fd more h0 hfree => exact hs.append (by simp)
    | kernelAcceptEnd err => exact hs.append (by simp)
    | recvData op i bufferId data more hop hid hpos hle => exact hs.append (by simp)
    | recvEnd op i result hop hres => exact hs.append (by simp)
    | pollEvent op i mask more hop => exact hs.append (by simp)
    | pollEnd op i err hop => exact hs.append (by simp)
    | sendDone op i sent hop hsent => exact hs.append (by simp [Event.Neutral])
    | sendFail op i err hop herr => exact hs.append (by simp [Event.Neutral])
    | _ => exact hs
  submit _ _ _ _ hv _ := hv

theorem reachable_lifecycle {s : Reactor} (h : s.Reachable) :
    Lifecycle s.srv.clientFds s.log :=
  ((wf_invariant _).and lifecycle_invariant).reachable h |>.2

/-! ### What is closed -/

/-- The descriptor was accepted for the client and has not been closed for it. -/
def OwnClose (log : List Event) (c : Nat) (fd : RawFd) : Prop :=
  (∃ conn, .accepted c fd conn ∈ log) ∧ .closed c fd ∉ log

/-- Every call of `libc::close` is on a descriptor that was accepted for exactly the client
it closes, and that was not closed before. -/
def OwnClosesOnce (log : List Event) : Prop :=
  ∀ before after c fd, log = before ++ .closed c fd :: after → OwnClose before c fd

/-- The client of a completion that asks for a close is still stored. -/
def ClosesStored (s : Reactor) : Act → Prop
  | .server _ => ∀ cqe, s.AtHand cqe → cqe.Closes →
      (s.srv.clientFds.get (clientOf cqe.userData)).isSome
  | .kernel _ => True

theorem ownClosesOnce_snoc (log : List Event) (e : Event) :
    OwnClosesOnce (log ++ [e])
      ↔ OwnClosesOnce log ∧ ∀ c fd, e = .closed c fd → OwnClose log c fd := by
  constructor
  · intro h
    constructor
    · intro before after c fd heq
      exact h before (after ++ [e]) c fd (by simp [heq])
    · rintro c fd rfl
      exact h log [] c fd rfl
  · rintro ⟨hlog, hlast⟩ before after c fd heq
    rcases List.eq_nil_or_concat after with rfl | ⟨after', x, rfl⟩
    · obtain ⟨rfl, he⟩ := List.append_inj' heq rfl
      exact hlast c fd (List.singleton_inj.mp he)
    · have hsplit : log ++ [e] = (before ++ .closed c fd :: after') ++ [x] := by
        simpa using heq
      obtain ⟨hpre, _⟩ := List.append_inj' hsplit rfl
      exact hlog before after' c fd hpre

theorem ownClosesOnce_append (log es : List Event) (hes : ∀ c fd, .closed c fd ∉ es) :
    OwnClosesOnce (log ++ es) ↔ OwnClosesOnce log := by
  induction es generalizing log with
  | nil => rw [List.append_nil]
  | cons e es ih =>
    have hrest : ∀ c fd, .closed c fd ∉ es := fun c fd hm => hes c fd (List.mem_cons_of_mem _ hm)
    rw [← List.singleton_append, ← List.append_assoc, ih _ hrest, ownClosesOnce_snoc]
    refine and_iff_left fun c fd he => ?_
    exact absurd (List.mem_cons.mpr (.inl he.symm)) (hes c fd)

/-- A close is an own close exactly when the client is stored. -/
theorem ownClose_closeFd_iff {v : View} (hl : Lifecycle v.fds v.log) {c : Nat} (hc : 100 ≤ c)
    (hlt : c < v.fds.next) : OwnClose v.log c (v.closeFd c) ↔ (v.fds.get c).isSome := by
  unfold View.closeFd
  cases hget : v.fds.get c with
  | some fd =>
    obtain ⟨hacc, hclo⟩ := hl.stored c fd hc hget
    simpa using ⟨hacc, hclo fd⟩
  | none =>
    obtain ⟨fd, conn, hacc, hclo⟩ := hl.vacant c hc hlt hget
    simp only [Option.getD_none, Option.isSome_none, Bool.false_eq_true, iff_false]
    rintro ⟨⟨conn', hacc'⟩, hnot⟩
    -- The fallback would have to be the descriptor the client was accepted with.
    obtain ⟨hfd, _⟩ := hl.accepted_once c fd conn _ conn' hacc hacc'
    rw [hfd] at hnot
    exact hnot hclo

/-- One effect keeps the closes own exactly when its close, if any, finds the client. -/
theorem ownClosesOnce_effect {s : Reactor} {a : Act} {v : View} (hwf : s.view.Wf)
    (hl : Lifecycle s.view.fds s.view.log) (he : Reactor.Effect s a v) :
    OwnClosesOnce v.log ↔ OwnClosesOnce s.log ∧ ClosesStored s a := by
  by_cases hclose : ∃ inp cqe, a = .server inp ∧ s.AtHand cqe ∧ cqe.Closes
  · obtain ⟨inp, cqe, rfl, hat, hc⟩ := hclose
    obtain ⟨hge, hlt⟩ := hwf.client_issued hat.mem_cq hc.1
    -- A close is logged, and it is an own close if the slot was not empty.
    have hiff := ownClose_closeFd_iff hl hge hlt
    rw [he.of_closes hwf hat hc]
    show OwnClosesOnce (s.log ++ [.closed _ (s.view.closeFd (clientOf cqe.userData))]) ↔ _
    rw [ownClosesOnce_snoc]
    refine and_congr_right fun _ => ?_
    constructor
    · intro hown cqe' hat' _
      cases hat.unique hat'
      exact hiff.mp (hown _ _ rfl)
    · rintro hstored c fd heq
      cases heq
      exact hiff.mpr (hstored cqe hat hc)
  · -- No completion asks for a close: nothing is asked of the step, and no close is logged.
    have hguard : ClosesStored s a := by
      cases a with
      | server inp => exact fun cqe hat hc => absurd ⟨inp, cqe, rfl, hat, hc⟩ hclose
      | kernel k => trivial
    rw [and_iff_left hguard]
    cases he with
    | close inp cqe hat hc hfd => exact absurd ⟨inp, cqe, rfl, hat, hc⟩ hclose
    | closeStdin inp cqe hat hc hfd => exact absurd ⟨inp, cqe, rfl, hat, hc⟩ hclose
    | flush inp hpc => exact ownClosesOnce_append _ _ (by simp)
    | accept inp cqe lakes poll recv hat hu hfd hins hpoll hrecv =>
      exact ownClosesOnce_append _ _ (by simp)
    | reply inp cqe buffer lake hat hans hget => exact ownClosesOnce_append _ _ (by simp)
    | kernelAccept fd more h0 hfree => exact ownClosesOnce_append _ _ (by simp)
    | kernelAcceptEnd err => exact ownClosesOnce_append _ _ (by simp)
    | recvData op i bufferId data more hop hid hpos hle => exact ownClosesOnce_append _ _ (by simp)
    | recvEnd op i result hop hres => exact ownClosesOnce_append _ _ (by simp)
    | pollEvent op i mask more hop => exact ownClosesOnce_append _ _ (by simp)
    | pollEnd op i err hop => exact ownClosesOnce_append _ _ (by simp)
    | sendDone op i sent hop hsent => exact ownClosesOnce_append _ _ (by simp)
    | sendFail op i err hop herr => exact ownClosesOnce_append _ _ (by simp)
    | _ => exact Iff.rfl

/-- In every run, the closes are own closes exactly when every completion that asks for a
close finds its client still stored. -/
theorem closes_own_once_iff {s₀ s : Reactor} {as : List Act} (h₀ : s₀.Started)
    (h : Run Reactor.step (fun _ _ => True) s₀ as s) :
    OwnClosesOnce s.log ↔ Run Reactor.step ClosesStored s₀ as s := by
  induction h with
  | nil =>
    have hlog := (Reactor.initial_of_started h₀).log_eq
    refine iff_of_true ?_ (.nil _)
    intro before after c fd heq
    rw [show s₀.log = [] from hlog] at heq
    exact absurd heq (by simp)
  | @snoc t u as a ht hg ha ih =>
    have hreach : t.Reachable := ⟨s₀, as, h₀, ht⟩
    obtain ⟨v, n, he, hview⟩ := Reactor.step_effect ha
    have hlog : u.log = v.log := congrArg View.log hview
    rw [hlog, ownClosesOnce_effect (reachable_wf hreach) (reachable_lifecycle hreach) he, ih,
      ht.snoc_iff ha]

/-- The event is the acceptance of `c` with `fd`. -/
def Event.isAccepted (c : Nat) (fd : RawFd) : Event → Bool
  | .accepted c' fd' _ => c' = c && fd' = fd
  | _ => false

/-- The event is a close of `fd` for `c`. -/
def Event.isClosed (c : Nat) (fd : RawFd) : Event → Bool
  | .closed c' fd' => c' = c && fd' = fd
  | _ => false

theorem Event.any_isAccepted {c : Nat} {fd : RawFd} {log : List Event}
    (h : log.any (Event.isAccepted c fd) = true) : ∃ conn, .accepted c fd conn ∈ log := by
  obtain ⟨e, hmem, he⟩ := List.any_eq_true.mp h
  cases e with
  | accepted c' fd' conn =>
    simp only [Event.isAccepted, Bool.and_eq_true, decide_eq_true_eq] at he
    rw [← he.1, ← he.2]
    exact ⟨conn, hmem⟩
  | _ => cases he

theorem Event.any_isClosed {c : Nat} {fd : RawFd} {log : List Event}
    (h : log.any (Event.isClosed c fd) = true) : .closed c fd ∈ log := by
  obtain ⟨e, hmem, he⟩ := List.any_eq_true.mp h
  cases e with
  | closed c' fd' =>
    simp only [Event.isClosed, Bool.and_eq_true, decide_eq_true_eq] at he
    rw [← he.1, ← he.2]
    exact hmem
  | _ => cases he

/-- A client that leaves is closed once: its recv ends with 0, and nothing else is under way. -/
theorem closes_own_once_iff_leaving : ∃ s₀ as s, Reactor.Started s₀ ∧
    Event.closed 100 5 ∈ s.log ∧
    (OwnClosesOnce s.log ↔ Run Reactor.step ClosesStored s₀ as s) := by
  obtain ⟨s, ⟨s₀, as, h₀, hrun⟩, hp⟩ := Reactor.exists_reachable
    (Reactor.connect ++ .kernel (.recvEnd 0 0) :: Reactor.rounds 8)
    (fun s => s.log.any (Event.isClosed 100 5)) (by decide +kernel)
  exact ⟨s₀, as, s, h₀, Event.any_isClosed hp, closes_own_once_iff h₀ hrun⟩

/-- The send to client 100 fails with `-ECONNRESET` and its recv ends with 0. The second
completion finds the slot vacant, and the server closes descriptor 255. -/
theorem not_closes_own_once : ¬ ∀ s, Reactor.Reachable s → OwnClosesOnce s.log := by
  intro hall
  obtain ⟨s, hs, hp⟩ := Reactor.exists_reachable
    (Reactor.connect ++ Reactor.serve ++
      .kernel (.sendFail 0 104) :: .kernel (.recvEnd 0 0) :: Reactor.rounds 9)
    (fun s => s.log.any (Event.isAccepted 100 5) && s.log.any (Event.isClosed 100 255))
    (by decide +kernel)
  rw [Bool.and_eq_true] at hp
  obtain ⟨before, after, heq⟩ := List.append_of_mem (Event.any_isClosed hp.2)
  obtain ⟨⟨conn, hacc⟩, _⟩ := hall s hs before after 100 255 heq
  -- The client was accepted with descriptor 5, and once.
  obtain ⟨conn', hfive⟩ := Event.any_isAccepted hp.1
  have hacc' : .accepted 100 255 conn ∈ s.log := by
    rw [heq]
    exact List.mem_append_left _ hacc
  have honce := (reachable_lifecycle hs).accepted_once 100 5 conn' 255 conn hfive hacc'
  exact absurd honce.1 (by decide)

end Tachyon
