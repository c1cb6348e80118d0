import Tachyon.Proofs.Accept
import Tachyon.Proofs.Send

/-!
# `Tachyon.Proofs.Restart`: a worker starts again

When `sq_poll` returns an error, the worker loop of `run` logs it, clones the initial server and
calls `sq_poll` again. The failed instance is dropped, and with it the table that knows the
descriptors of its clients. Nothing closes them.

`Kept` says what the table knows: as long as the descriptor of an accepted client has not been
closed, the client is stored. So a restart loses a connection exactly when one is left
(`none_orphaned_iff`).
-/

set_option autoImplicit false

namespace Tachyon

namespace Reactor

/-! ### The restart -/

/-- `sq_poll` up to its loop, for any fresh instance. -/
def startFrom (s : Reactor) (fuel : Nat) : Option Reactor :=
  (registerBuffers fuel s).bind fun s =>
    (armAccepts DEFAULT_ACCEPT_MULTIPLICATOR s.sq).map fun sq =>
      let s := { s with sq := sq }.submitAll
      { s with srv := { s.srv with clientFds := reserveWritesBuffer 100 s.srv.clientFds } }

theorem start_eq_startFrom (cfg : Config) (fuel : Nat) :
    start cfg fuel = startFrom (fresh cfg) fuel := rfl

/-- A clone of the initial server with a fresh ring, in a process that has run before. The
thread-local `CURRENT_KERNEL_BUF` outlives `sq_poll` and still points to where the buffers of the
dropped instance were. Here it is reset with the rest: nothing below looks at it. -/
def freshIn (cfg : Config) (owner : RawFd → Option ConnId) (nextConn : ConnId) : Reactor :=
  { fresh cfg with
    kern := { Kernel.init cfg.openFds with owner := owner, nextConn := nextConn } }

/-- The instance accepted the connection on the descriptor: it has recorded the client, or the
completion of the accept is waiting. -/
def Accepted (s : Reactor) (fd : RawFd) (conn : ConnId) : Prop :=
  (∃ c, .accepted c fd (some conn) ∈ s.log) ∨
    fd ∈ pendingFds s.view.kern.cq ∧ s.kern.owner fd = some conn

/-- `sq_poll` of `s` returned an error and `t` is the next instance at its loop. The worker closes
its listener and its ring and opens new ones. The connections stay on their descriptors. -/
def Restarted (cfg : Config) (s t : Reactor) : Prop :=
  s.pc = .stopped .ioError ∧ ∃ owner fuel,
    (∀ fd conn, s.Accepted fd conn → (owner fd = some conn ↔ s.kern.owner fd = some conn)) ∧
    startFrom (freshIn cfg owner s.kern.nextConn) fuel = some t

/-- The descriptor is no longer the one of the connection. -/
def Closed (t : Reactor) (fd : RawFd) (conn : ConnId) : Prop := t.kern.owner fd ≠ some conn

/-- The descriptor is in the client table. -/
def Serves (t : Reactor) (fd : RawFd) : Prop := ∃ c, 100 ≤ c ∧ t.srv.clientFds.get c = some fd

/-- Every descriptor that `s` accepted is closed or served after the restart. -/
def NoneOrphaned (s t : Reactor) : Prop :=
  ∀ fd conn, s.Accepted fd conn → t.Closed fd conn ∨ t.Serves fd

theorem owner_submit (v : View) (n : Nat) : (v.submit n).kern.owner = v.kern.owner :=
  View.submit_induction (I := fun w => w.kern.owner = v.kern.owner)
    (fun w e _ h _ => (w.kern.owner_submit e).trans h) n rfl

/-- A start stores no client and leaves the descriptors alone. -/
theorem startFrom_spec {s t : Reactor} {fuel : Nat} (h : startFrom s fuel = some t) :
    t.srv.clientFds = reserveWritesBuffer 100 s.srv.clientFds ∧
      t.kern.owner = s.kern.owner := by
  unfold startFrom at h
  obtain ⟨s₁, hreg, hrest⟩ := Option.bind_eq_some_iff.mp h
  obtain ⟨sq, _, rfl⟩ := Option.map_eq_some_iff.mp hrest
  obtain ⟨hsrv, n, hn⟩ := registerBuffers_view hreg
  obtain ⟨m, hm⟩ := ({ s₁ with sq := sq } : Reactor).view_submitAll
  constructor
  · show reserveWritesBuffer 100 ({ s₁ with sq := sq } : Reactor).submitAll.srv.clientFds = _
    rw [srv_submitAll]
    exact congrArg (reserveWritesBuffer 100) (congrArg Server.clientFds hsrv)
  · have h₁ : s₁.view.kern.owner = s.view.kern.owner := by
      rw [hn, owner_submit]
      rfl
    show ({ s₁ with sq := sq } : Reactor).submitAll.view.kern.owner = s.view.kern.owner
    rw [hm, owner_submit, ← h₁]
    rfl

/-- The next instance serves nobody. -/
theorem Restarted.not_serves {cfg : Config} {s t : Reactor} (h : Restarted cfg s t) (fd : RawFd) :
    ¬ t.Serves fd := by
  obtain ⟨_, owner, fuel, _, hstart⟩ := h
  rintro ⟨c, hc, hget⟩
  rw [(startFrom_spec hstart).1, get_reserveWritesBuffer] at hget
  have hnone : ((freshIn cfg owner s.kern.nextConn).srv.clientFds).get c = none := rfl
  have hnext : ((freshIn cfg owner s.kern.nextConn).srv.clientFds).next = 0 := rfl
  rw [hnone, hnext, if_neg (by omega)] at hget
  cases hget

/-- It finds the connections on their descriptors. -/
theorem Restarted.closed_iff {cfg : Config} {s t : Reactor} (h : Restarted cfg s t) {fd : RawFd}
    {conn : ConnId} (ha : s.Accepted fd conn) :
    t.Closed fd conn ↔ s.kern.owner fd ≠ some conn := by
  obtain ⟨_, owner, fuel, howner, hstart⟩ := h
  have hown : t.kern.owner = owner := (startFrom_spec hstart).2
  rw [Closed, hown]
  exact not_congr (howner fd conn ha)

end Reactor

/-! ### What the table knows -/

/-- An accepted client whose descriptor has not been closed is stored. -/
def Kept (v : View) : Prop :=
  ∀ c fd conn, .accepted c fd (some conn) ∈ v.log → v.kern.owner fd = some conn →
    v.fds.get c = some fd

/-- The table and the descriptors stay, and no client is recorded. -/
theorem Kept.mono {v w : View} (h : Kept v) (hf : w.fds = v.fds)
    (ho : w.kern.owner = v.kern.owner)
    (ha : ∀ c fd o, .accepted c fd o ∈ w.log → .accepted c fd o ∈ v.log) : Kept w := by
  intro c fd conn hmem hown
  rw [ho] at hown
  rw [hf]
  exact h c fd conn (ha c fd _ hmem) hown

/-- The kernel works on, away from the descriptors. -/
theorem Kept.kernel {v : View} {k : Kernel} {evs : List Event} (h : Kept v)
    (ho : k.owner = v.kern.owner) (ha : ∀ c fd o, .accepted c fd o ∉ evs) :
    Kept (v.kernel k evs) :=
  h.mono rfl ho fun c fd o hmem => (List.mem_append.mp hmem).resolve_right (ha c fd o)

theorem kept_invariant : Reactor.InvariantOver (fun _ _ => True)
    (fun v => (v.Wf ∧ Lifecycle v.fds v.log) ∧ Numbered v.fds v.queue v.kern v.log) Kept where
  start v h := by
    intro c fd conn hmem
    rw [h.log_eq] at hmem
    cases hmem
  effect s a v hB hs _ he := by
    obtain ⟨⟨hwf, hlife⟩, hnum⟩ := hB
    cases he with
    | quiet inp hpc => exact hs
    | provide inp ids hpc => exact hs
    | flush inp hpc => exact hs.mono rfl rfl (by simp [View.flush])
    | skip inp cqe hat hnc => exact hs
    | accept inp cqe lakes poll recv hat hu hfd hins hpoll hrecv =>
      intro c fd conn hmem hown
      show (s.view.fds.push cqe.result).2.get c = some fd
      rw [ExternStableVec.get_push]
      rcases List.mem_append.mp hmem with hmem | hmem
      · rw [if_neg (Nat.ne_of_lt (hlife.accepted_range c fd _ hmem).2)]
        exact hs c fd conn hmem hown
      · simp only [List.mem_singleton, Event.accepted.injEq] at hmem
        obtain ⟨rfl, rfl, _⟩ := hmem
        exact if_pos rfl
    | close inp cqe hat hc hfd =>
      intro c fd conn hmem hown
      have hupd : Function.update s.view.kern.owner (s.view.closeFd (clientOf cqe.userData)) none
          fd = some conn := hown
      have hmem' : .accepted c fd (some conn) ∈ s.view.log :=
        (List.mem_append.mp hmem).resolve_right (by simp)
      rw [Function.update_apply] at hupd
      split at hupd
      · cases hupd
      · rename_i hfd'
        have hget := hs c fd conn hmem' hupd
        show (s.view.fds.remove (clientOf cqe.userData)).2.get c = some fd
        rw [ExternStableVec.get_remove]
        -- The client that leaves had another descriptor.
        have hne : c ≠ clientOf cqe.userData := by
          rintro rfl
          refine hfd' ?_
          rw [View.closeFd, hget]
          rfl
        rw [if_neg hne]
        exact hget
    | closeStdin inp cqe hat hc hfd => exact absurd hfd (hwf.closeFd_ne_zero _)
    | reply inp cqe buffer lake hat hans hget =>
      exact hs.mono rfl rfl fun c fd o hmem => (List.mem_append.mp hmem).resolve_right (by simp)
    | kernelAccept fd more h0 hfree =>
      intro c fd' conn hmem hown
      have hmem' : .accepted c fd' (some conn) ∈ s.view.log :=
        (List.mem_append.mp hmem).resolve_right (by simp)
      have hupd : Function.update s.view.kern.owner fd (some s.view.kern.nextConn) fd'
          = some conn := hown
      rw [Function.update_apply] at hupd
      split at hupd
      · -- The new connection is not the one of an older client.
        cases hupd
        exact absurd (hnum.accepted_lt c fd' _ hmem') (Nat.lt_irrefl _)
      · exact hs c fd' conn hmem' hupd
    | kernelAcceptEnd err => exact hs.kernel rfl (by simp)
    | recvData op i bufferId data more hop hid hpos hle => exact hs.kernel rfl (by simp)
    | recvEnd op i result hop hres => exact hs.kernel rfl (by simp)
    | pollEvent op i mask more hop => exact hs.kernel rfl (by simp)
    | pollEnd op i err hop => exact hs.kernel rfl (by simp)
    | sendDone op i sent hop hsent => exact hs.kernel rfl (by simp)
    | sendFail op i err hop herr => exact hs.kernel rfl (by simp)
    | sqThread => exact hs
  submit v e q _ hv _ := hv.mono rfl (Kernel.owner_submit _ _) fun _ _ _ hmem => hmem

theorem kept_of_reachable {s : Reactor} (h : s.Reachable) : Kept s.view := by
  have hlife := (wf_invariant fun _ _ => True).and lifecycle_invariant
  have hnum := (wf_invariant fun _ _ => True).and (numbered_invariant fun _ _ => True)
  have hboth : Reactor.Invariant (fun _ _ => True) fun v =>
      (v.Wf ∧ Lifecycle v.fds v.log) ∧ Numbered v.fds v.queue v.kern v.log :=
    { start := fun v hv => ⟨hlife.start v hv, (hnum.start v hv).2⟩
      effect := fun s a v _ hs hg he => ⟨hlife.effect s a v trivial hs.1 hg he,
        (hnum.effect s a v trivial ⟨hs.1.1, hs.2⟩ hg he).2⟩
      submit := fun v e q _ hv hq => ⟨hlife.submit v e q trivial hv.1 hq,
        (hnum.submit v e q trivial ⟨hv.1.1, hv.2⟩ hq).2⟩ }
  exact ((hboth.and kept_invariant).reachable h).2

namespace Reactor

/-- No client is left: none is stored on its connection, and no accepted one is waiting. -/
def NoneLeft (s : Reactor) : Prop :=
  (∀ c, ¬ s.view.Connected c) ∧ ∀ fd ∈ pendingFds s.view.kern.cq, s.kern.owner fd = none

/-- A restart orphans no connection exactly when no client was left. -/
theorem none_orphaned_iff {cfg : Config} {s t : Reactor} (h : s.Reachable)
    (hrestart : Restarted cfg s t) : NoneOrphaned s t ↔ s.NoneLeft := by
  have hnone := hrestart.not_serves
  constructor
  · intro hall
    have hclosed : ∀ fd conn, s.Accepted fd conn → s.kern.owner fd ≠ some conn := fun fd conn ha =>
      (hrestart.closed_iff ha).mp ((hall fd conn ha).resolve_right (hnone fd))
    refine ⟨?_, fun fd hfd => ?_⟩
    · rintro c ⟨fd, conn, _, hown, hacc⟩
      exact hclosed fd conn (.inl ⟨c, hacc⟩) hown
    · cases hown : s.kern.owner fd with
      | none => rfl
      | some conn => exact absurd hown (hclosed fd conn (.inr ⟨hfd, hown⟩))
  · rintro ⟨hstored, hpending⟩ fd conn hacc
    refine .inl ((hrestart.closed_iff hacc).mpr fun hown => ?_)
    rcases hacc with ⟨c, hacc⟩ | ⟨hfd, _⟩
    · exact hstored c ⟨fd, conn, kept_of_reachable h c fd conn hacc hown, hown, hacc⟩
    · rw [hpending fd hfd] at hown
      cases hown

/-! ### A submit call fails -/

/-- The submit calls of the step fail. -/
def failing : Input := ⟨0, Date.zero, false, false⟩

/-- The worker starts again with the plain configuration. -/
theorem exists_restarted {s : Reactor} (h : s.pc = .stopped .ioError) :
    ∃ t, Restarted plainConfig s t := by
  have hstart : ∃ t, startFrom (freshIn plainConfig s.kern.owner s.kern.nextConn) 1 = some t := by
    -- The start of a server does not depend on the connections that are open.
    have harm : armAccepts DEFAULT_ACCEPT_MULTIPLICATOR ⟨2048, 1024, [], [], by decide⟩
        = some ⟨2048, 1024, [], armed, by decide⟩ := rfl
    rw [startFrom, freshIn, registerBuffers_in, Option.bind_some, harm, Option.map_some]
    exact ⟨_, rfl⟩
  obtain ⟨t, ht⟩ := hstart
  exact ⟨t, h, s.kern.owner, 1, fun _ _ _ => Iff.rfl, ht⟩

/-- Client 100 is accepted, served and closed before the submit call fails. -/
theorem none_orphaned_served : ∃ s t : Reactor, s.Reachable ∧ Restarted plainConfig s t ∧
    (∃ conn, s.Accepted 5 conn) ∧ .closed 100 5 ∈ s.log ∧ s.NoneLeft ∧
    (NoneOrphaned s t ↔ s.NoneLeft) := by
  obtain ⟨s, hs, hp⟩ := exists_reachable
    (connect ++ serve ++ .kernel (.sendDone 0 204) :: .kernel (.recvEnd 0 0) :: rounds 13
      ++ [.server failing])
    (fun s => s.pc = .stopped .ioError && s.log.any (Event.isArrival 100 1)
      && s.log.any (Event.isClosed 100 5)
      && s.log.all (fun e => !e.isAccept || e.isAccepted 100 5)
      && s.kern.owner 5 = none && (pendingFds s.view.kern.cq).isEmpty) (by decide +kernel)
  simp only [Bool.and_eq_true, decide_eq_true_eq, List.all_eq_true, List.isEmpty_iff] at hp
  obtain ⟨⟨⟨⟨⟨hpc, harrived⟩, hclosed⟩, honly⟩, hfree⟩, hpending⟩ := hp
  obtain ⟨t, ht⟩ := exists_restarted hpc
  -- The log has one accept only.
  have hfive : ∀ c fd conn, .accepted c fd conn ∈ s.log → c = 100 ∧ fd = 5 := by
    intro c fd conn hmem
    have hone := honly _ hmem
    simpa [Event.isAccept, Event.isAccepted] using hone
  have haccepted : s.Accepted 5 1 := by
    obtain ⟨e, hmem, he⟩ := List.any_eq_true.mp harrived
    cases e with
    | accepted c fd conn =>
      obtain ⟨rfl, rfl⟩ := hfive c fd conn hmem
      simp only [Event.isArrival, decide_true, Bool.true_and, decide_eq_true_eq] at he
      rw [he] at hmem
      exact .inl ⟨100, hmem⟩
    | _ => cases he
  refine ⟨s, t, hs, ht, ⟨1, haccepted⟩, Event.any_isClosed hclosed, ⟨?_, ?_⟩,
    none_orphaned_iff hs ht⟩
  · rintro c ⟨fd, conn, _, hown, hacc⟩
    obtain ⟨_, rfl⟩ := hfive c fd _ hacc
    have hnone : s.view.kern.owner 5 = none := hfree
    rw [hnone] at hown
    cases hown
  · rw [hpending]
    intro fd hfd
    cases hfd

/-- Client 100 is connected when the submit call fails. Its descriptor stays open, and the next
instance does not know it. -/
theorem not_none_orphaned : ¬ ∀ (cfg : Config) (s t : Reactor), s.Reachable →
    Restarted cfg s t → NoneOrphaned s t := by
  intro hall
  obtain ⟨s, hs, hp⟩ := exists_reachable
    (connect ++ .kernel (.acceptEnd 24) :: rounds 13 ++ [.server failing])
    (fun s => s.pc = .stopped .ioError && connectedOn s 100 5 1) (by decide +kernel)
  simp only [Bool.and_eq_true, decide_eq_true_eq] at hp
  obtain ⟨hpc, hconn⟩ := hp
  obtain ⟨t, ht⟩ := exists_restarted hpc
  obtain ⟨fd, conn, _, hown, hacc⟩ := connected_of_connectedOn hconn
  have haccepted : s.Accepted fd conn := .inl ⟨100, hacc⟩
  have hclosed := (hall plainConfig s t hs ht fd conn haccepted).resolve_right (ht.not_serves fd)
  exact (ht.closed_iff haccepted).mp hclosed hown

end Reactor

end Tachyon
