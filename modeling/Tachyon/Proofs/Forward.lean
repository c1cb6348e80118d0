import Tachyon.Proofs.Tables

/-!
# `Tachyon.Proofs.Forward`: runs built by hand

Some runs are too long to evaluate: thousands of connections, or of requests. They are built
from the steps below, each with the state it leads to.

* `run_turn`: the loop goes from the end of one batch to the next fetch of completions, with
  nothing to send and nothing to release;
* `serverStep_accept`, `serverStep_close`: a client arrives, a client leaves;
* `run_visit`, `run_leave`: one client connects on descriptor 5, and leaves again.
-/

set_option autoImplicit false
set_option maxRecDepth 8000

namespace Tachyon

namespace Reactor

/-! ### Nothing to send -/

/-- Every output buffer is empty. -/
def Silent (lakes : ExternStableVec OutBuffer) : Prop :=
  ∀ c lake, lakes.get c = some lake → lake.len = 0

theorem sendEntries_of_silent (fds : ExternStableVec RawFd) {lakes : ExternStableVec OutBuffer}
    (h : Silent lakes) : sendEntries fds lakes = [] := by
  rw [List.eq_nil_iff_forall_not_mem]
  intro e he
  obtain ⟨c, lake, fd, hget, hlen, _⟩ := mem_sendEntries.mp he
  exact hlen (h c lake hget)

theorem resetSent_of_silent (fds : ExternStableVec RawFd) {lakes : ExternStableVec OutBuffer}
    (h : Silent lakes) : resetSent fds lakes = lakes :=
  ExternStableVec.mapIdx_of_fixed fun c lake hget => if_pos (h c lake hget)

/-! ### One step at a time -/

section
variable {s : Reactor}

theorem serverStep_waiting (hpc : s.pc = .waiting) (hcq : s.kern.cq ≠ []) (inp : Input) :
    s.serverStep inp = some { s with pc := .process } := by
  have hne : s.kern.cq.isEmpty = false := by simpa using hcq
  simp [serverStep, hpc, hne]

theorem serverStep_drained (hpc : s.pc = .process) (hcq : s.cq = []) (inp : Input) :
    s.serverStep inp = some { s with pc := .idle } := by
  simp [serverStep, hpc, hcq]

theorem serverStep_idle (hpc : s.pc = .idle) (hrel : s.srv.releasedBuffers = []) (inp : Input) :
    s.serverStep inp = some { s with pc := .top } := by
  simp only [serverStep, hpc]
  by_cases hrps : s.srv.rps = 0
  · simp [hrps, releaseBuffers, hrel, orStop]
  · simp [hrps]

theorem serverStep_top (hpc : s.pc = .top) (hcq : s.cq = [])
    (hsilent : Silent s.srv.clientOutBuffers) (hsynced : s.srv.synced = 0) :
    s.serverStep calm = some { s with
      pc := .sync
      srv := { s.srv with
        syncNow := s.srv.syncNow || decide (s.srv.clientOutBuffers.iter ≠ []) }
      log := s.log ++ [.flushed] } := by
  have htick : s.tick calm = s := by simp [tick, calm, hsynced]
  simp only [serverStep, hpc, htick, hcq, List.isEmpty_nil, if_pos, Option.some.injEq]
  by_cases hiter : s.srv.clientOutBuffers.iter = []
  · simp [widebandSend, hiter, orStop]
  · simp [widebandSend, hiter, orStop, sendEntries_of_silent _ hsilent,
      resetSent_of_silent _ hsilent]

theorem serverStep_sync (hpc : s.pc = .sync) (inp : Input) :
    s.serverStep inp = some { s with
      pc := .reap
      sq := if s.srv.syncNow then s.sq.sync else s.sq
      srv := { s.srv with syncNow := false } } := by
  cases hsync : s.srv.syncNow with
  | true => simp [serverStep, hpc, hsync]
  | false =>
    have hsrv : ({ s.srv with syncNow := false } : Server) = s.srv := by rw [← hsync]
    rw [hsrv]
    simp [serverStep, hpc, hsync]

theorem serverStep_reap (hpc : s.pc = .reap) (hcq : s.cq = []) (inp : Input) :
    s.serverStep inp = some { s with
      pc := .submit, cq := s.kern.cq, kern := { s.kern with cq := [] } } := by
  simp [serverStep, hpc, hcq]

theorem serverStep_busy (hpc : s.pc = .submit) (hcq : s.cq ≠ [])
    (hroom : s.sq.len < s.sq.capacity - 4) (inp : Input) :
    s.serverStep inp = some { s with pc := .process } := by
  have hne : s.cq.isEmpty = false := by simpa using hcq
  have hlow : ¬ s.sq.capacity ≤ s.sq.len + 4 := by omega
  simp [serverStep, hpc, hne, hlow]

theorem serverStep_wait (hpc : s.pc = .submit) (hcq : s.cq = []) :
    s.serverStep calm = some { s.submitAll with pc := .waiting } := by
  simp [serverStep, hpc, hcq, calm]

/-- A client is stored, and its recv entry is queued when it fits. -/
def stored (s : Reactor) (fd : RawFd) (rest : List Cqe) (lakes : ExternStableVec OutBuffer) :
    Reactor := { s with
  cq := rest
  srv := { s.srv with
    clientFds := (s.srv.clientFds.push fd).2, clientOutBuffers := lakes, syncNow := true }
  sq := s.sq.pushOrDrop
    (.recvMulti fd (clientData s.srv.clientFds.next INIT_REQUEST).packUserData)
  log := s.log ++ [.accepted s.srv.clientFds.next fd (s.kern.owner fd)] }

theorem serverStep_accept {cqe : Cqe} {rest : List Cqe} {lakes : ExternStableVec OutBuffer}
    (hpc : s.pc = .process) (hcq : s.cq = cqe :: rest) (hdma : s.srv.ubKernelDma = false)
    (hu : cqe.userData = CODE_ACCEPT) (hfd : 0 < cqe.result)
    (hins : s.srv.clientOutBuffers.insert s.srv.clientFds.next SmallLake.build = some lakes)
    (inp : Input) : s.serverStep inp = some (s.stored cqe.result rest lakes) := by
  have hsetup : ¬ CODE_ACCEPT = BUFFER_REGISTER_CODE := by decide
  simp [serverStep, hpc, hcq, processEntry, hu, hsetup, processEntryAccept, not_le.mpr hfd, hins,
    pollFirst, hdma, orStop, stored]

/-- The responses to a data completion join the client's output. -/
theorem serverStep_answered {cqe : Cqe} {rest : List Cqe} {lake : OutBuffer}
    (hpc : s.pc = .process) (hcq : s.cq = cqe :: rest) (hd : cqe.Delivers s.srv.ubKernelDma)
    (hlen : cqe.result ≤ BUFFER_SIZE) (hbuf : cqe.flags >>> 16 % 2 ^ 16 < BUFFERS_COUNT)
    (hget : s.srv.clientOutBuffers.get (clientOf cqe.userData) = some lake)
    (hrel : s.srv.releasedBuffers.length + 1 ≠ RELEASE_PART) (inp : Input) :
    ∃ cache hot, s.serverStep inp = some (({ s with cq := rest } : Reactor).answered
      (cqe.flags >>> 16 % 2 ^ 16) (UserData.unpackUserData cqe.userData) cqe.result.toNat cache
      hot (lake.write (s.block (s.received cqe)))) := by
  obtain ⟨cache, hot, heq⟩ := requestReply_eq (s := { s with cq := rest }) hlen hbuf hget inp
  rw [if_neg hrel] at heq
  have hstep : s.serverStep inp = some (({ s with cq := rest } : Reactor).orStop
      (({ s with cq := rest } : Reactor).processEntry inp cqe)) := by
    simp [serverStep, hpc, hcq]
  have hreply := processEntry_delivers (s := { s with cq := rest }) hd inp
  refine ⟨cache, hot, ?_⟩
  rw [hstep, hreply, heq]
  rfl

/-- A client leaves. -/
def gone (s : Reactor) (c : Nat) (fd : RawFd) (rest : List Cqe) : Reactor := { s with
  cq := rest
  srv := { s.srv with
    clientFds := (s.srv.clientFds.remove c).2
    clientOutBuffers := (s.srv.clientOutBuffers.remove c).2 }
  kern := s.kern.close fd
  log := s.log ++ [.closed c fd] }

theorem serverStep_close {cqe : Cqe} {rest : List Cqe} {fd : RawFd} (hpc : s.pc = .process)
    (hcq : s.cq = cqe :: rest) (hclose : cqe.Closes)
    (hget : s.srv.clientFds.get (clientOf cqe.userData) = some fd) (hfd : fd ≠ 0) (inp : Input) :
    s.serverStep inp = some (s.gone (clientOf cqe.userData) fd rest) := by
  simp [serverStep, hpc, hcq, processEntry_closes hclose, closeConnection, hget, hfd, orStop,
    gone]

end

/-! ### A turn of the loop -/

/-- The state at the next submission, after a turn with nothing to send and to release. -/
def turned (s : Reactor) : Reactor := { s with
  pc := .submit
  cq := s.kern.cq
  kern := { s.kern with cq := [] }
  sq := if s.srv.syncNow || decide (s.srv.clientOutBuffers.iter ≠ []) then s.sq.sync else s.sq
  srv := { s.srv with syncNow := false }
  log := s.log ++ [.flushed] }

/-- The batch is processed, and there is nothing to send and nothing to release. -/
structure Resting (s : Reactor) : Prop where
  pc_eq : s.pc = .process
  cq_eq : s.cq = []
  released_eq : s.srv.releasedBuffers = []
  synced_eq : s.srv.synced = 0
  silent : Silent s.srv.clientOutBuffers

theorem run_turn {guard : Reactor → Act → Prop} {s : Reactor} (h : s.Resting)
    (hg : ∀ u : Reactor, u.kern.owner = s.kern.owner → guard u (.server calm)) :
    Run step guard s (rounds 5) s.turned := by
  have hstep : ∀ {u t : Reactor}, u.serverStep calm = some t → u.kern.owner = s.kern.owner →
      Run step guard u (rounds 1) t := fun ht ho => Run.single (hg _ ho) ht
  have h1 := hstep (serverStep_drained h.pc_eq h.cq_eq calm) rfl
  have h2 := hstep (serverStep_idle (s := { s with pc := .idle }) rfl h.released_eq calm) rfl
  have h3 := hstep (serverStep_top (s := { s with pc := .top }) rfl h.cq_eq h.silent h.synced_eq)
    rfl
  have h4 := hstep (serverStep_sync (s := { s with
      pc := .sync
      srv := { s.srv with
        syncNow := s.srv.syncNow || decide (s.srv.clientOutBuffers.iter ≠ []) }
      log := s.log ++ [.flushed] }) rfl calm) rfl
  have h5 := hstep (serverStep_reap (s := { s with
      pc := .reap
      sq := if s.srv.syncNow || decide (s.srv.clientOutBuffers.iter ≠ []) then s.sq.sync
        else s.sq
      srv := { s.srv with syncNow := false }
      log := s.log ++ [.flushed] }) rfl h.cq_eq calm) rfl
  exact (((h1.trans h2).trans h3).trans h4).trans h5

theorem len_turned_le (s : Reactor) : s.turned.sq.len ≤ s.sq.len := by
  show (if _ then s.sq.sync else s.sq).len ≤ s.sq.len
  split
  · exact SubmissionQueue.len_sync_le _
  · exact le_refl _

@[simp] theorem capacity_turned (s : Reactor) : s.turned.sq.capacity = s.sq.capacity := by
  show (if _ then s.sq.sync else s.sq).capacity = s.sq.capacity
  split <;> rfl

@[simp] theorem entries_turned (s : Reactor) : s.turned.sq.entries = s.sq.entries := by
  show (if _ then s.sq.sync else s.sq).entries = s.sq.entries
  split
  · exact SubmissionQueue.entries_sync _
  · rfl

/-- The server wakes up and fetches its completions. -/
def fetched (s : Reactor) : Reactor := { ({ s with pc := .process } : Reactor).turned with
  pc := .process }

/-- The server goes back to sleep. -/
def settled (s : Reactor) : Reactor := { s.turned.submitAll with pc := .waiting }

section
variable {guard : Reactor → Act → Prop} {s : Reactor}
  (hg : ∀ u : Reactor, u.kern.owner = s.kern.owner → guard u (.server calm))
include hg

theorem run_fetched (h : Resting { s with pc := .process }) (hpc : s.pc = .waiting)
    (hcq : s.kern.cq ≠ []) (hroom : s.sq.len < s.sq.capacity - 4) :
    Run step guard s (rounds 7) s.fetched := by
  have h1 : Run step guard s (rounds 1) { s with pc := .process } :=
    Run.single (hg s rfl) (serverStep_waiting hpc hcq calm)
  have h2 : Run step guard { s with pc := .process } (rounds 5) _ := run_turn h hg
  have hlen := len_turned_le { s with pc := .process }
  have h3 : Run step guard ({ s with pc := .process } : Reactor).turned (rounds 1) s.fetched :=
    Run.single (hg _ rfl) (serverStep_busy (s := ({ s with pc := .process } : Reactor).turned)
      rfl hcq (by rw [capacity_turned]; exact lt_of_le_of_lt hlen hroom) calm)
  exact (h1.trans h2).trans h3

theorem run_settled (h : s.Resting) (hcq : s.kern.cq = []) :
    Run step guard s (rounds 6) s.settled := by
  have h1 := run_turn h hg
  have h2 : Run step guard s.turned (rounds 1) s.settled :=
    Run.single (hg _ rfl) (serverStep_wait (s := s.turned) rfl hcq)
  exact h1.trans h2

end

theorem submitAll_of_off (s : Reactor) (h : s.srv.sqpollEnabled = false) : s.submitAll = { s with
    sq := s.sq.drain, kern := s.sq.published.foldl Kernel.submit s.kern } := by
  simp [submitAll, h]

/-- Entries pushed since the last sync are taken. -/
theorem settled_of_syncNow (s : Reactor) (h : s.srv.sqpollEnabled = false)
    (hsync : s.srv.syncNow = true) : s.settled = { s with
      pc := .waiting
      cq := s.kern.cq
      sq := s.sq.sync.drain
      kern := s.sq.entries.foldl Kernel.submit { s.kern with cq := [] }
      srv := { s.srv with syncNow := false }
      log := s.log ++ [.flushed] } := by
  have hoff : s.turned.srv.sqpollEnabled = false := h
  have hsq : s.turned.sq = s.sq.sync := by simp [turned, hsync]
  rw [settled, submitAll_of_off _ hoff, hsq]
  rfl

/-- With an empty queue nothing is taken. -/
theorem settled_of_entries_nil (s : Reactor) (h : s.srv.sqpollEnabled = false)
    (hnil : s.sq.entries = []) : s.settled = { s with
      pc := .waiting
      cq := s.kern.cq
      sq := s.turned.sq.drain
      kern := { s.kern with cq := [] }
      srv := { s.srv with syncNow := false }
      log := s.log ++ [.flushed] } := by
  have hoff : s.turned.srv.sqpollEnabled = false := h
  have hpub : s.turned.sq.published = [] := by
    have hentries := entries_turned s
    rw [hnil] at hentries
    exact (List.append_eq_nil_iff.mp hentries).1
  rw [settled, submitAll_of_off _ hoff, hpub]
  rfl

/-! ### One client comes and goes -/

/-- No descriptor other than 5 belongs to a connection. -/
def OnlyFive (s : Reactor) : Prop :=
  ∀ fd conn, s.kern.owner fd = some conn → conn ≠ 0 → fd = 5

theorem OnlyFive.congr {s u : Reactor} (h : s.OnlyFive) (ho : u.kern.owner = s.kern.owner) :
    u.OnlyFive := by
  intro fd conn hfd
  rw [ho] at hfd
  exact h fd conn hfd

theorem onlyFive_of_init {s : Reactor}
    (h : s.kern.owner = (Kernel.init plainConfig.openFds).owner) : s.OnlyFive := by
  intro fd conn ho hne
  rw [h] at ho
  have hown : (if fd ∈ plainConfig.openFds then some 0 else none) = some conn := ho
  split at hown
  · exact absurd (Option.some.inj hown).symm hne
  · cases hown

/-- The server waits, with an empty queue and nothing to process. `n` clients were stored
so far. -/
structure Waiting (n : Nat) (s : Reactor) : Prop where
  pc_eq : s.pc = .waiting
  cq_eq : s.cq = []
  posted_eq : s.kern.cq = []
  released_eq : s.srv.releasedBuffers = []
  synced_eq : s.srv.synced = 0
  sqpoll_eq : s.srv.sqpollEnabled = false
  dma_eq : s.srv.ubKernelDma = false
  buffers_eq : s.srv.buffers = fun _ => 0
  rps_eq : s.srv.rps = 0
  next_eq : s.srv.clientFds.next = 100 + n
  lakes_capacity : s.srv.clientOutBuffers.capacity = 65535
  entries_eq : s.sq.entries = []
  len_le : s.sq.len ≤ 16
  capacity_eq : s.sq.capacity = 2048
  accepts_eq : s.kern.accepts = 16
  provided_eq : s.kern.provided = List.range BUFFERS_COUNT
  free : ∀ fd, 5 < fd → s.kern.owner fd = none
  onlyFive : s.OnlyFive

theorem Waiting.room {n : Nat} {s : Reactor} (h : Waiting n s) :
    s.sq.len < s.sq.capacity - 4 := by
  have := h.len_le
  have := h.capacity_eq
  omega

/-- No client is connected. -/
structure Lull (n : Nat) (s : Reactor) : Prop extends Waiting n s where
  lakes_eq : ∀ c, s.srv.clientOutBuffers.get c = none
  owner_eq : s.kern.owner 5 = none
  recvs_eq : s.kern.recvs = []

/-- A connection arrives on descriptor 5, and the server fetches its completion. -/
def arrived (s : Reactor) : Reactor :=
  ({ s with kern := s.kern.accept 5 true } : Reactor).fetched

/-- Only the client `100 + n` is connected. -/
structure Visiting (n : Nat) (s : Reactor) : Prop extends Waiting (n + 1) s where
  fds_eq : s.srv.clientFds.get (100 + n) = some 5
  lakes_eq : ∀ c, s.srv.clientOutBuffers.get c = if c = 100 + n then some SmallLake.build else none
  recvs_eq : s.kern.recvs = [⟨(clientData (100 + n) INIT_REQUEST).packUserData⟩]

/-- The client has no output. -/
theorem Visiting.silent {n : Nat} {s : Reactor} (h : Visiting n s) :
    Silent s.srv.clientOutBuffers := by
  intro c lake hget
  rw [h.lakes_eq] at hget
  split at hget
  · cases hget
    rfl
  · cases hget

theorem lull_ready : Lull 0 ready where
  pc_eq := rfl
  cq_eq := rfl
  posted_eq := rfl
  released_eq := rfl
  synced_eq := rfl
  sqpoll_eq := rfl
  dma_eq := rfl
  buffers_eq := rfl
  rps_eq := rfl
  next_eq := rfl
  lakes_capacity := rfl
  entries_eq := rfl
  len_le := by decide
  capacity_eq := rfl
  accepts_eq := rfl
  provided_eq := rfl
  free fd hfd := if_neg fun hmem => by
    simp only [plainConfig, List.mem_cons, List.not_mem_nil, or_false] at hmem
    rcases hmem with rfl | rfl | rfl | rfl | rfl <;> exact absurd hfd (by decide)
  onlyFive := onlyFive_of_init rfl
  lakes_eq _ := rfl
  owner_eq := rfl
  recvs_eq := rfl

theorem Lull.cq_arrived {n : Nat} {s : Reactor} (h : Lull n s) :
    s.arrived.cq = [⟨CODE_ACCEPT, 5, 2⟩] := by
  show s.kern.cq ++ [_] = _
  rw [h.posted_eq]
  rfl

theorem Lull.onlyFive_arrived {n : Nat} {s u : Reactor} (h : Lull n s)
    (hu : u.kern.owner = (s.kern.accept 5 true).owner) : u.OnlyFive := by
  intro fd conn ho hne
  rw [hu] at ho
  have hupd : Function.update s.kern.owner 5 (some s.kern.nextConn) fd = some conn := ho
  rw [Function.update_apply] at hupd
  split at hupd
  · assumption
  · exact h.onlyFive fd conn hupd hne

section
variable {guard : Reactor → Act → Prop} (hg : ∀ u a, OnlyFive u → guard u a) {s : Reactor}
  {n : Nat}
include hg

/-- A connection arrives, and the server fetches its completion. -/
theorem run_arrived (h : Lull n s) :
    Run step guard s (.kernel (.accept 5 true) :: rounds 7) s.arrived := by
  have hposted : (s.kern.accept 5 true).cq ≠ [] := by simp [Kernel.accept, Kernel.post]
  let u : Reactor := { s with kern := s.kern.accept 5 true }
  have harrive : s.kernelStep (.accept 5 true) = some u := by
    simp [u, kernelStep, h.owner_eq, h.accepts_eq]
  have hquiet : Resting { u with pc := .process } :=
    ⟨rfl, h.cq_eq, h.released_eq, h.synced_eq, fun c lake hget => by
      rw [show _ = _ from h.lakes_eq c] at hget
      cases hget⟩
  have h1 : Run step guard s [.kernel (.accept 5 true)] u :=
    Run.single (hg s _ h.onlyFive) harrive
  have h2 := run_fetched (fun w hw => hg w _ (h.onlyFive_arrived hw)) hquiet h.pc_eq hposted h.room
  exact h1.trans h2

/-- A client connects. -/
theorem run_visit (h : Lull n s) (hn : n < 65435) :
    ∃ as t, Run step guard s as t ∧ Visiting n t := by
  have h1 := run_arrived hg h
  have hposted := h.cq_arrived
  -- The client is stored, and its recv entry submitted.
  obtain ⟨lakes, hins⟩ : ∃ lakes, s.arrived.srv.clientOutBuffers.insert
      s.arrived.srv.clientFds.next SmallLake.build = some lakes := by
    rw [← Option.ne_none_iff_exists', Ne, ExternStableVec.insert_eq_none_iff]
    show ¬ s.srv.clientOutBuffers.capacity ≤ s.srv.clientFds.next
    rw [h.lakes_capacity, h.next_eq]
    omega
  obtain ⟨_, hcap, hget⟩ := ExternStableVec.insert_eq_some hins
  let v : Reactor := s.arrived.stored 5 [] lakes
  have hstore : s.arrived.serverStep calm = some v :=
    serverStep_accept (s := s.arrived) rfl hposted h.dma_eq rfl (by decide) hins calm
  have h2 : Run step guard s.arrived (rounds 1) v :=
    Run.single (hg _ _ (h.onlyFive_arrived rfl)) hstore
  have hlakes : ∀ c, v.srv.clientOutBuffers.get c
      = if c = 100 + n then some SmallLake.build else none := by
    intro c
    rw [← h.next_eq, ← h.lakes_eq c]
    exact hget c
  have hquiet : v.Resting := ⟨rfl, rfl, h.released_eq, h.synced_eq, fun c lake hlake => by
    rw [hlakes] at hlake
    split at hlake
    · cases hlake
      rfl
    · cases hlake⟩
  have h3 := run_settled (s := v) (fun w hw => hg w _ (h.onlyFive_arrived hw)) hquiet rfl
  -- The kernel takes the recv entry on the open descriptor.
  have hentries : v.sq.entries
      = [.recvMulti 5 (clientData (100 + n) INIT_REQUEST).packUserData] := by
    have hlen := len_turned_le { s with kern := s.kern.accept 5 true, pc := .process }
    show (s.arrived.sq.pushOrDrop _).entries = _
    rw [SubmissionQueue.entries_pushOrDrop, if_pos]
    · show s.arrived.sq.entries ++ [.recvMulti 5 (clientData s.srv.clientFds.next _).packUserData]
        = _
      rw [h.next_eq, show s.arrived.sq.entries = _ from entries_turned _, h.entries_eq]
      rfl
    · rw [show s.arrived.sq.capacity = _ from capacity_turned _]
      exact lt_of_le_of_lt hlen (lt_of_lt_of_le h.room (Nat.sub_le _ _))
  have hsettled := settled_of_syncNow v h.sqpoll_eq rfl
  rw [hentries] at hsettled
  have hkern : [Entry.recvMulti 5 (clientData (100 + n) INIT_REQUEST).packUserData].foldl
      Kernel.submit { v.kern with cq := [] } = { s.kern.accept 5 true with
        cq := []
        recvs := [⟨(clientData (100 + n) INIT_REQUEST).packUserData⟩] } := by
    have howner : (s.kern.accept 5 true).owner 5 = some s.kern.nextConn := by
      show Function.update s.kern.owner 5 (some s.kern.nextConn) 5 = _
      exact Function.update_self _ _ _
    have hrecvs : (s.kern.accept 5 true).recvs = [] := h.recvs_eq
    simp [v, stored, arrived, fetched, turned, Kernel.submit, howner, hrecvs]
  rw [hkern] at hsettled
  refine ⟨_, _, (h1.trans h2).trans h3, ?_⟩
  rw [hsettled]
  exact {
    pc_eq := rfl
    cq_eq := rfl
    posted_eq := rfl
    released_eq := h.released_eq
    synced_eq := h.synced_eq
    sqpoll_eq := h.sqpoll_eq
    dma_eq := h.dma_eq
    buffers_eq := h.buffers_eq
    rps_eq := h.rps_eq
    next_eq := congrArg Nat.succ h.next_eq
    lakes_capacity := hcap.trans h.lakes_capacity
    entries_eq := rfl
    len_le := by
      rw [SubmissionQueue.len_drain, SubmissionQueue.len_sync, hentries]
      exact Nat.le_add_left 1 15
    capacity_eq := (SubmissionQueue.capacity_pushOrDrop _ _).trans
      ((capacity_turned _).trans h.capacity_eq)
    accepts_eq := h.accepts_eq
    provided_eq := h.provided_eq
    free := fun fd hfd => (Function.update_of_ne (ne_of_gt hfd) _ _).trans (h.free fd hfd)
    onlyFive := h.onlyFive_arrived rfl
    fds_eq := by
      show (s.srv.clientFds.push 5).2.get (100 + n) = some 5
      rw [ExternStableVec.get_push, if_pos h.next_eq.symm]
    lakes_eq := hlakes
    recvs_eq := rfl }

/-- The client leaves. -/
theorem run_leave (h : Visiting n s) (hn : n < 65435) :
    ∃ as t, Run step guard s as t ∧ Lull (n + 1) t := by
  have hclient : clientOf (clientData (100 + n) INIT_REQUEST).packUserData = 100 + n :=
    clientOf_clientData (by omega) (by omega) (by decide)
  -- The recv ends with 0.
  let cqe : Cqe := ⟨(clientData (100 + n) INIT_REQUEST).packUserData, 0, 0⟩
  let u : Reactor := { s with kern := s.kern.recvEnd ⟨cqe.userData⟩ 0 0 }
  have hend : s.kernelStep (.recvEnd 0 0) = some u := by
    simp [u, cqe, kernelStep, h.recvs_eq]
  have hposted : u.kern.cq = [cqe] := by
    simp [u, cqe, Kernel.recvEnd, Kernel.post, h.posted_eq]
  have hquiet : Resting { u with pc := .process } :=
    ⟨rfl, h.cq_eq, h.released_eq, h.synced_eq, h.silent⟩
  have h1 : Run step guard s [.kernel (.recvEnd 0 0)] u := Run.single (hg s _ h.onlyFive) hend
  have h2 := run_fetched (s := u) (fun w hw => hg w _ (h.onlyFive.congr hw)) hquiet h.pc_eq
    (by simp [hposted]) h.room
  -- The server closes descriptor 5.
  let v : Reactor := u.fetched.gone (100 + n) 5 []
  have hcloses : cqe.Closes := ⟨offset_le_clientData (by omega) (by omega) (by decide),
    .inl ⟨rfl, by
      show uniqOf (clientData (100 + n) INIT_REQUEST).packUserData ≠ SEND_CODE
      rw [uniqOf_clientData (by omega) (by omega) (by decide)]
      decide⟩⟩
  have hgone : u.fetched.serverStep calm = some v := by
    have hget : u.fetched.srv.clientFds.get (clientOf cqe.userData) = some 5 := by
      rw [hclient]
      exact h.fds_eq
    have hhead : u.fetched.cq = cqe :: [] := hposted
    have hstep := serverStep_close rfl hhead hcloses hget (by decide) calm
    rw [hclient] at hstep
    exact hstep
  have h3 : Run step guard u.fetched (rounds 1) v :=
    Run.single (hg _ _ (h.onlyFive.congr rfl)) hgone
  have hlakes : ∀ c, v.srv.clientOutBuffers.get c = none := by
    intro c
    show ((s.srv.clientOutBuffers.remove (100 + n)).2).get c = none
    rw [ExternStableVec.get_remove, h.lakes_eq]
    split <;> rfl
  have howner : ∀ w : Reactor, w.kern.owner = v.kern.owner → w.OnlyFive := by
    intro w hw fd conn ho hne
    rw [hw] at ho
    have hupd : Function.update s.kern.owner 5 none fd = some conn := ho
    rw [Function.update_apply] at hupd
    split at hupd
    · cases hupd
    · exact h.onlyFive fd conn hupd hne
  have hquiet' : v.Resting := ⟨rfl, rfl, h.released_eq, h.synced_eq, fun c lake hlake => by
    rw [hlakes] at hlake
    cases hlake⟩
  have h4 := run_settled (s := v) (fun w hw => hg w _ (howner w hw)) hquiet' rfl
  have hsettled := settled_of_entries_nil v h.sqpoll_eq
    ((entries_turned { u with pc := .process }).trans h.entries_eq)
  refine ⟨_, _, ((h1.trans h2).trans h3).trans h4, ?_⟩
  rw [hsettled]
  exact {
    pc_eq := rfl
    cq_eq := rfl
    posted_eq := rfl
    released_eq := h.released_eq
    synced_eq := h.synced_eq
    sqpoll_eq := h.sqpoll_eq
    dma_eq := h.dma_eq
    buffers_eq := h.buffers_eq
    rps_eq := h.rps_eq
    next_eq := h.next_eq
    lakes_capacity := h.lakes_capacity
    entries_eq := by
      -- What is not published is not there.
      have hnil := (entries_turned v).trans
        ((entries_turned { u with pc := .process }).trans h.entries_eq)
      rw [SubmissionQueue.entries_drain]
      exact (List.append_eq_nil_iff.mp hnil).2
    len_le := by
      rw [SubmissionQueue.len_drain]
      exact (len_turned_le v).trans
        ((len_turned_le { u with pc := .process }).trans h.len_le)
    capacity_eq := (capacity_turned _).trans ((capacity_turned _).trans h.capacity_eq)
    accepts_eq := h.accepts_eq
    provided_eq := h.provided_eq
    free := fun fd hfd => (Function.update_of_ne (ne_of_gt hfd) _ _).trans (h.free fd hfd)
    onlyFive := howner _ rfl
    lakes_eq := hlakes
    owner_eq := by
      show Function.update s.kern.owner 5 none 5 = none
      exact Function.update_self _ _ _
    recvs_eq := by
      show s.kern.recvs.eraseIdx 0 = []
      rw [h.recvs_eq]
      rfl }

end

end Reactor

end Tachyon
