import Tachyon.Lib.Trace
import Tachyon.Proofs.Lifecycle

/-!
# `Tachyon.Proofs.Lives`: the order of the events of a client

The log of a run is in order (`events_in_life`): the clients get the indices 100, 101, .. one after
another, a client is answered for only between its accept and its first close, and nothing is
closed or sent for an index that was not given out.

So a stale completion never produces output for a client that has left, and never for the next one
on the same descriptor. It stops the loop instead, or closes another descriptor. Data of a client
that has left is still parsed: the access to its vacant slot comes after the handlers have run.
This access ends the run, and no event records the parse.
-/

set_option autoImplicit false

namespace Tachyon

/-- The client was accepted. -/
def Accepted (log : List Event) (c : Nat) : Prop := ∃ fd conn, .accepted c fd conn ∈ log

/-- The client was accepted, and no descriptor was closed for it. -/
def Alive (log : List Event) (c : Nat) : Prop := Accepted log c ∧ ∀ fd, .closed c fd ∉ log

def Event.givesIndex : Event → Bool
  | .accepted _ _ _ => true
  | _ => false

/-- What has to be in the log before an event. -/
def Event.InLife (before : List Event) : Event → Prop
  | .accepted c _ _ => c = 100 + before.countP givesIndex
  | .closed c _ => Accepted before c
  | .received c _ => Alive before c
  | .replied c _ => Alive before c
  | .flushed => True
  | .transmitted op _ _ => Accepted before (clientOf op.userData)
  | .sendFailed op => Accepted before (clientOf op.userData)

/-- The order of the log, with the number of indices given out. -/
structure Lived (fds : ExternStableVec RawFd) (log : List Event) : Prop where
  ordered : Ordered Event.InLife log
  next_eq : fds.next = 100 + log.countP Event.givesIndex

namespace Lifecycle

variable {fds : ExternStableVec RawFd} {log : List Event} {c : Nat}

/-- An index that was given out was accepted. -/
theorem accepted_of_lt (h : Lifecycle fds log) (hc : 100 ≤ c) (hlt : c < fds.next) :
    Accepted log c := by
  cases hget : fds.get c with
  | some fd =>
    obtain ⟨⟨conn, hacc⟩, _⟩ := h.stored c fd hc hget
    exact ⟨fd, conn, hacc⟩
  | none =>
    obtain ⟨fd, conn, hacc, _⟩ := h.vacant c hc hlt hget
    exact ⟨fd, conn, hacc⟩

theorem alive_of_get {fd : RawFd} (h : Lifecycle fds log) (hc : 100 ≤ c)
    (hget : fds.get c = some fd) : Alive log c := by
  obtain ⟨⟨conn, hacc⟩, hclo⟩ := h.stored c fd hc hget
  exact ⟨⟨fd, conn, hacc⟩, hclo⟩

end Lifecycle

/-- A response is no close. -/
theorem Alive.snoc {log : List Event} {c : Nat} (h : Alive log c) {e : Event}
    (he : ∀ fd, e ≠ .closed c fd) : Alive (log ++ [e]) c := by
  obtain ⟨⟨fd, conn, hacc⟩, hclo⟩ := h
  refine ⟨⟨fd, conn, List.mem_append_left _ hacc⟩, fun fd' hmem => ?_⟩
  rcases List.mem_append.mp hmem with hold | hnew
  · exact hclo fd' hold
  · exact he fd' (List.mem_singleton.mp hnew).symm

namespace Lived

variable {fds : ExternStableVec RawFd} {log : List Event}

theorem initial {v : View} (h : v.Initial) : Lived v.fds v.log where
  ordered := by
    rw [h.log_eq]
    exact .nil
  next_eq := by
    rw [h.fds_next, h.log_eq]
    rfl

/-- An event that gives out no index. -/
theorem snoc (h : Lived fds log) {e : Event} (he : e.InLife log) (hno : e.givesIndex = false) :
    Lived fds (log ++ [e]) where
  ordered := h.ordered.snoc he
  next_eq := by
    rw [h.next_eq, List.countP_append, List.countP_singleton, hno]
    rfl

theorem accept (h : Lived fds log) (fd : RawFd) (conn : Option ConnId) :
    Lived (fds.push fd).2 (log ++ [.accepted fds.next fd conn]) where
  ordered := h.ordered.snoc h.next_eq
  next_eq := by
    rw [ExternStableVec.next_push, h.next_eq, List.countP_append, List.countP_singleton]
    rfl

theorem remove (h : Lived fds log) (c : Nat) : Lived (fds.remove c).2 log where
  ordered := h.ordered
  next_eq := by
    rw [ExternStableVec.next_remove]
    exact h.next_eq

end Lived

/-- A send that the kernel has taken is one of a client that was stored. -/
theorem View.Wf.send_client {v : View} (h : v.Wf) {op : SendOp} (hop : op ∈ v.kern.sends) :
    100 ≤ clientOf op.userData ∧ clientOf op.userData < v.fds.next := by
  have hissued := h.ring.sends_issued op hop
  rw [hissued.clientOf_eq h.tables.next_le (by decide)]
  exact ⟨hissued.1, hissued.2.1⟩

theorem lived_invariant : Reactor.InvariantOver (fun _ _ => True)
    (fun v => v.Wf ∧ Lifecycle v.fds v.log) fun v => Lived v.fds v.log where
  start _ h := .initial h
  effect s a v hB hs _ he := by
    obtain ⟨hwf, hlife⟩ := hB
    cases he with
    | quiet | provide | skip | sqThread => exact hs
    | flush inp hpc => exact hs.snoc trivial rfl
    | accept inp cqe lakes poll recv hat hu hfd hins hpoll hrecv => exact hs.accept _ _
    | close inp cqe hat hc hfd =>
      obtain ⟨hge, hlt⟩ := hwf.client_issued hat.mem_cq hc.1
      exact (hs.remove _).snoc (hlife.accepted_of_lt hge hlt) rfl
    | closeStdin inp cqe hat hc hfd => exact hs.remove _
    | reply inp cqe buffer lake hat hans hget =>
      -- The output buffer of the client is there, so the client is stored.
      obtain ⟨fd, hfd⟩ := hwf.tables.exists_fd hget
      have halive := hlife.alive_of_get (hwf.tables.lt_next hget).1 hfd
      have hreceived := hs.snoc (e := .received (clientOf cqe.userData) buffer) halive rfl
      have hreplied := hreceived.snoc (e := .replied (clientOf cqe.userData)
        (replies s.srv.date buffer (Http.parseHttpMethodsPaths 50 buffer)))
        (halive.snoc fun _ => nofun) rfl
      rw [List.append_assoc] at hreplied
      exact hreplied
    | kernelAccept | kernelAcceptEnd | recvData | recvEnd | pollEvent | pollEnd =>
      show Lived s.view.fds (s.view.log ++ [])
      rw [List.append_nil]
      exact hs
    | sendDone op i sent hop hsent =>
      obtain ⟨hge, hlt⟩ := hwf.send_client (List.mem_of_getElem? hop)
      exact hs.snoc (hlife.accepted_of_lt hge hlt) rfl
    | sendFail op i err hop herr =>
      obtain ⟨hge, hlt⟩ := hwf.send_client (List.mem_of_getElem? hop)
      exact hs.snoc (hlife.accepted_of_lt hge hlt) rfl
  submit _ _ _ _ hv _ := hv

/-- In every run the events of a client are in order. The indices are given out one after another.
Between its accept and its first close, and only there, a client is parsed and answered for. A close
or a send is for an index that was given out. -/
theorem events_in_life {s : Reactor} (h : s.Reachable) : Ordered Event.InLife s.log := by
  have hbase := (wf_invariant _).and lifecycle_invariant
  exact (hbase.and lived_invariant).reachable h |>.2.ordered

/-- Client 100 is served and leaves, and the next connection is client 101. -/
theorem events_in_life_served : ∃ s : Reactor, s.log.countP Event.givesIndex = 2 ∧
    s.log.any (Event.isClosed 100 5) = true ∧ Ordered Event.InLife s.log := by
  obtain ⟨s, hs, hp⟩ := Reactor.exists_reachable
    (Reactor.connect ++ Reactor.serve ++ .kernel (.recvEnd 0 0) :: Reactor.rounds 14
      ++ Reactor.connect)
    (fun s => s.log.countP Event.givesIndex = 2 && s.log.any (Event.isClosed 100 5))
    (by decide +kernel)
  simp only [Bool.and_eq_true, decide_eq_true_eq] at hp
  exact ⟨s, hp.1, hp.2, events_in_life hs⟩

end Tachyon
