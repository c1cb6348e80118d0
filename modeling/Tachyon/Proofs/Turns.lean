import Tachyon.Lib.History
import Tachyon.Proofs.Queue
import Tachyon.Proofs.Send

/-!
# `Tachyon.Proofs.Turns`: what a turn of the loop leaves behind

The loop looks at the completion queue in one place only, and a completion that arrives while it
waits is fetched one turn later. Still every pending completion is processed:

* `pending_processed`: in order and once each, after at most two steps for each of them and one
  turn of the loop. A round of the retry loop that fails is no step forward, and nothing else can
  hold the server up;
* `nothing_left_waiting`: when the server waits for the kernel, it has processed what it fetched, no
  client has output in its buffer, and what it queued is published. Without SQPOLL the kernel has
  taken it.

`InTurn` is the invariant: what is empty at which place of the loop, and that an entry which is not
published sets `sync_now`.
-/

set_option autoImplicit false

namespace Tachyon

namespace SubmissionQueue

variable {ε : Type} {q q' : SubmissionQueue ε}

/-- The consumer sees the published entries only. -/
theorem pending_take {e : ε} (h : q.take = some (e, q')) :
    q'.pending = q.pending ∧ q.published = e :: q'.published := by
  unfold take at h
  split at h
  · cases h
  · rename_i rest hpub
    cases h
    exact ⟨rfl, hpub⟩

end SubmissionQueue

namespace Reactor

variable {s t : Reactor} {inp : Input}

/-! ### The places of a turn -/

/-- An entry that the kernel cannot see will be published. -/
def Announced (s : Reactor) : Prop := s.sq.pending = [] ∨ s.srv.syncNow = true

/-- What is empty at the place of the loop. -/
def Cleared (s : Reactor) : Prop :=
  match s.pc with
  | .top | .idle | .release true => s.cq = []
  | .sync => s.Quiet
  | .reap => s.Quiet ∧ s.sq.pending = []
  | .submit => writing s.srv.clientOutBuffers = ∅ ∧ s.sq.pending = []
  | .waiting => s.Quiet ∧ s.sq.pending = [] ∧ (s.srv.sqpollEnabled = false → s.sq.published = [])
  | .process | .release false | .stopped _ => True

structure InTurn (s : Reactor) : Prop where
  announced : s.Announced
  cleared : s.Cleared

theorem announced_of_sq (hsq : t.sq.pending = s.sq.pending)
    (hsync : t.srv.syncNow = s.srv.syncNow) (h : s.Announced) : t.Announced := by
  rw [Announced, hsq, hsync]
  exact h

theorem pending_submitAll (s : Reactor) : s.submitAll.sq.pending = s.sq.pending := by
  unfold submitAll
  split <;> rfl

/-- Without SQPOLL a submit call passes every published entry to the kernel. -/
theorem published_submitAll (h : s.srv.sqpollEnabled = false) : s.submitAll.sq.published = [] := by
  rw [submitAll, h]
  rfl

theorem Announced.submitAll (h : s.Announced) : s.submitAll.Announced := by
  refine announced_of_sq (pending_submitAll s) ?_ h
  rw [srv_submitAll]

theorem Announced.releaseBuffers {idle : Bool} (h : s.Announced)
    (ht : s.releaseBuffers inp idle = .ok t) : t.Announced := by
  rcases releaseBuffers_cases ht with ⟨_, rfl⟩ | ⟨_, rfl⟩
  · exact h
  · exact h.submitAll

theorem Announced.widebandSend (h : s.Announced) (ht : s.widebandSend = .ok t) :
    t.Announced := by
  unfold Reactor.widebandSend at ht
  split at ht
  · cases ht
    exact h
  · simp only at ht
    split at ht
    · split at ht
      · cases ht
      · cases ht
        exact .inr rfl
    · cases ht
      exact .inr rfl

/-- Every function that queues an entry for a client sets `sync_now`. -/
theorem Announced.processEntry {cqe : Cqe} (h : s.Announced)
    (ht : s.processEntry inp cqe = .ok t) : t.Announced := by
  generalize hr : s.processEntry inp cqe = r at ht
  have hd := dispatches s inp cqe
  rw [hr] at hd
  cases hd with
  | skip _ _ =>
    cases ht
    exact h
  | accept _ =>
    rcases processEntryAccept_cases ht with ⟨_, rfl⟩ | ⟨_, lakes, _, rfl⟩
    · exact h
    · exact .inr rfl
  | release _ => exact h.releaseBuffers ht
  | close _ =>
    cases ht
    simp only [closeConnection, Bool.not_true, Bool.false_eq_true, if_false]
    split <;> exact announced_of_sq rfl rfl h
  | poll _ =>
    rcases ubdma_cases ht with rfl | ⟨_, _, _, _, _, _, _, _, rfl⟩
    · exact h
    · exact .inr rfl
  | reply _ =>
    rcases requestReply_cases ht with ⟨_, rfl⟩ | ⟨_, lake, cache, hot, _, hnext⟩
    · exact h
    · -- The reply sets `sync_now`, and the hand-over behind it only drains the queue.
      have hanswered : ∀ lake', (s.answered (cqe.flags >>> 16 % 2 ^ 16)
          (UserData.unpackUserData cqe.userData) cqe.result.toNat cache hot lake').Announced :=
        fun _ => .inr rfl
      split at hnext
      · exact (hanswered _).releaseBuffers hnext
      · rw [hnext]
        exact hanswered _

theorem inTurn_orStop {r : Except Stop Reactor} (hs : s.Announced)
    (h : ∀ u, r = .ok u → u.InTurn) : (s.orStop r).InTurn := by
  cases r with
  | ok u => exact h u rfl
  | error why => exact ⟨hs, trivial⟩

/-- A place that asks for nothing. -/
theorem cleared_of_process (h : t.pc = .process ∨ t.pc = .release false) : t.Cleared := by
  unfold Cleared
  rcases h with h | h <;> rw [h] <;> trivial

theorem cleared_of_nil (hcq : t.cq = []) (h : t.pc = .top ∨ t.pc = .idle ∨ t.pc = .release true) :
    t.Cleared := by
  unfold Cleared
  rcases h with h | h | h <;> rw [h] <;> exact hcq

theorem inTurn_flush (h : s.InTurn) (hcq : s.cq = [])
    (ht : Tables s.srv.clientFds s.srv.clientOutBuffers) :
    (({ s.tick inp with pc := .sync } : Reactor).orStop
      ({ s.tick inp with pc := .sync } : Reactor).widebandSend).InTurn := by
  obtain ⟨rps, now, synced, date, htick⟩ := s.tick_eq inp
  rw [htick]
  refine inTurn_orStop h.announced fun u hu => ?_
  obtain ⟨hquiet, hpc⟩ := quiet_widebandSend (s := { s with
    pc := .sync
    srv := { s.srv with rps := rps, rpsNow := now, synced := synced, date := date } }) ht hcq hu
  refine ⟨Announced.widebandSend ?_ hu, ?_⟩
  · exact h.announced
  · unfold Cleared
    rw [hpc]
    exact hquiet

theorem inTurn_retry {idle : Bool} (h : s.InTurn) (hpc : s.pc = .release idle) :
    (s.orStop (s.releaseRound inp idle)).InTurn := by
  refine inTurn_orStop h.announced fun u hu => ?_
  rcases releaseRound_cases hu with ⟨_, rfl⟩ | ⟨sq, _, rfl⟩
  · exact h
  · have hpending : ({ s with sq := sq.sync } : Reactor).submitAll.sq.pending = [] :=
      pending_submitAll _
    have hcq : ({ s with sq := sq.sync } : Reactor).submitAll.cq = s.cq := (len_submitAll _).2.2
    refine ⟨.inl hpending, ?_⟩
    -- Called at the end of the batch, the loop goes back to the top, where no completion is left.
    cases idle with
    | true =>
      have hnil := h.cleared
      simp only [Cleared, hpc] at hnil
      exact cleared_of_nil (hcq.trans hnil) (.inl rfl)
    | false => exact cleared_of_process (.inl rfl)

theorem InTurn.serverStep (h : s.InTurn) (ht : Tables s.srv.clientFds s.srv.clientOutBuffers)
    (hstep : s.serverStep inp = some t) : t.InTurn := by
  have hclear := h.cleared
  unfold Cleared at hclear
  cases turns_of_serverStep hstep with
  | flush _ hcq => exact inTurn_flush h hcq ht
  | noFlush hpc hbatch =>
    simp only [hpc] at hclear
    exact absurd hclear hbatch
  | sync hpc _ =>
    simp only [hpc] at hclear
    exact ⟨.inl rfl, hclear, rfl⟩
  | noSync hpc hsync =>
    simp only [hpc] at hclear
    -- `sync_now` is not set, so nothing was queued since the last sync.
    have hpending : s.sq.pending = [] := by
      rcases h.announced with hnil | hset
      · exact hnil
      · rw [hsync] at hset
        cases hset
    exact ⟨.inl hpending, hclear, hpending⟩
  | reap hpc _ =>
    simp only [hpc] at hclear
    exact ⟨.inl hclear.2, hclear.1.1, hclear.2⟩
  | noReap hpc hbatch =>
    simp only [hpc] at hclear
    exact absurd hclear.1.2 hbatch
  | submit hpc _ => exact ⟨h.announced.submitAll, cleared_of_process (.inl rfl)⟩
  | noSubmit hpc _ => exact ⟨h.announced, cleared_of_process (.inl rfl)⟩
  | wait hpc hnil =>
    simp only [hpc] at hclear
    -- Without SQPOLL the submit call of the wait takes what the sync has published.
    have hlakes : s.submitAll.srv.clientOutBuffers = s.srv.clientOutBuffers :=
      congrArg Server.clientOutBuffers (srv_submitAll s)
    refine ⟨h.announced.submitAll, ⟨(congrArg writing hlakes).trans hclear.1,
      (len_submitAll s).2.2.trans hnil⟩, (pending_submitAll s).trans hclear.2, fun hoff => ?_⟩
    exact published_submitAll (congrArg Server.sqpollEnabled (srv_submitAll s) ▸ hoff)
  | submitError _ => exact ⟨h.announced, trivial⟩
  | wake _ _ => exact ⟨h.announced, cleared_of_process (.inl rfl)⟩
  | @entry cqe rest hpc hcq =>
    refine inTurn_orStop h.announced fun u hu => ⟨?_, ?_⟩
    · exact Announced.processEntry (s := { s with cq := rest }) h.announced hu
    · refine cleared_of_process ?_
      -- A completion leads to the next one, or into the retry loop.
      rcases (queues_processEntry hu).pc with hplace | ⟨_, hplace⟩
      · exact .inl (hplace.trans hpc)
      · exact .inr hplace
  | drained _ hnil => exact ⟨h.announced, cleared_of_nil hnil (.inr (.inl rfl))⟩
  | handBack hpc _ =>
    simp only [hpc] at hclear
    refine inTurn_orStop h.announced fun u hu => ⟨?_, ?_⟩
    · exact Announced.releaseBuffers (s := { s with pc := .top }) h.announced hu
    · have hqueues := queues_releaseBuffers hu
      refine cleared_of_nil (hqueues.cq.trans hclear) ?_
      rcases hqueues.pc with hplace | ⟨_, hplace⟩
      · exact .inl hplace
      · exact .inr (.inr hplace)
  | idle hpc _ =>
    simp only [hpc] at hclear
    exact ⟨h.announced, cleared_of_nil hclear (.inl rfl)⟩
  | retry hpc => exact inTurn_retry h hpc

/-- The kernel takes published entries, and leaves the rest of it alone. -/
theorem InTurn.kernelStep (h : s.InTurn) {k : KernelAct} (hstep : s.kernelStep k = some t) :
    t.InTurn := by
  rcases kernelStep_cases hstep with ⟨kern, log, buffers, rfl⟩ | ⟨e, sq, htake, rfl⟩
  · exact ⟨h.announced, h.cleared⟩
  · obtain ⟨hpending, hpub⟩ := SubmissionQueue.pending_take htake
    refine ⟨announced_of_sq hpending rfl h.announced, ?_⟩
    have hclear := h.cleared
    unfold Cleared at hclear ⊢
    cases hpc : s.pc with
    | top | idle | sync =>
      simp only [hpc] at hclear
      exact hclear
    | reap | submit =>
      simp only [hpc] at hclear
      exact ⟨hclear.1, hpending.trans hclear.2⟩
    | waiting =>
      simp only [hpc] at hclear
      refine ⟨hclear.1, hpending.trans hclear.2.1, fun hoff => ?_⟩
      have hnone := hclear.2.2 hoff
      rw [hpub] at hnone
      cases hnone
    | release idle =>
      cases idle with
      | true =>
        simp only [hpc] at hclear
        exact hclear
      | false => trivial
    | process | stopped why => trivial

theorem inTurn_of_started (h : Started s) : s.InTurn := by
  obtain ⟨cfg, n, m, hsrv, _⟩ := started_view h
  obtain ⟨hpc, hcq⟩ := place_of_started h
  refine ⟨.inr ?_, cleared_of_nil hcq (.inl hpc)⟩
  rw [hsrv]
  rfl

theorem inTurn_of_reachable (h : s.Reachable) : s.InTurn := by
  obtain ⟨s₀, as, hstart, hrun⟩ := h
  have hbase := (wf_invariant fun _ _ => True).start _ (initial_of_started hstart)
  have hboth : s.view.Wf ∧ s.InTurn := by
    refine hrun.invariant (I := fun u => u.view.Wf ∧ u.InTurn) ?_
      ⟨hbase, inTurn_of_started hstart⟩
    intro u a v hu _ ha
    refine ⟨(wf_invariant fun _ _ => True).run (.single trivial ha) hu.1, ?_⟩
    cases a with
    | server inp => exact hu.2.serverStep hu.1.tables ha
    | kernel k => exact hu.2.kernelStep ha
  exact hboth.2

/-- No client has output in its buffer. -/
theorem Quiet.len_eq (h : s.Quiet) {c : Nat} {lake : OutBuffer}
    (hget : s.srv.clientOutBuffers.get c = some lake) : lake.len = 0 := by
  by_contra hlen
  have hmem := mem_writing.mpr ⟨lake, hget, hlen⟩
  rw [h.1] at hmem
  exact absurd hmem (Finset.notMem_empty c)

/-- What the server leaves behind when it waits. -/
theorem cleared_of_waiting (h : s.Reachable) (hpc : s.pc = .waiting) :
    s.Quiet ∧ s.sq.pending = [] ∧ (s.srv.sqpollEnabled = false → s.sq.published = []) := by
  have hclear := (inTurn_of_reachable h).cleared
  unfold Cleared at hclear
  simp only [hpc] at hclear
  exact hclear

/-- While the server waits for the kernel nothing is left for it to do: the batch is processed,
every client with a response has its send entry, and the entries are published. Without SQPOLL the
kernel has taken all of them. -/
theorem nothing_left_waiting (h : s.Reachable) (hpc : s.pc = .waiting) :
    s.cq = [] ∧ (∀ c lake, s.srv.clientOutBuffers.get c = some lake → lake.len = 0) ∧
      s.sq.pending = [] ∧ (s.srv.sqpollEnabled = false → s.sq.entries = []) := by
  obtain ⟨hquiet, hpending, hpublished⟩ := cleared_of_waiting h hpc
  refine ⟨hquiet.2, fun c lake hget => hquiet.len_eq hget, hpending, fun hoff => ?_⟩
  rw [SubmissionQueue.entries, hpending, hpublished hoff, List.append_nil]

/-- Client 100 is answered, and the server waits. -/
theorem nothing_left_waiting_served : ∃ s : Reactor, s.pc = .waiting ∧
    (repliedTo 100 s.log).length = 204 ∧ s.cq = [] ∧ s.sq.entries = [] := by
  obtain ⟨s, hs, hp⟩ := exists_reachable (connect ++ serve)
    (fun s => s.pc = .waiting && s.srv.sqpollEnabled = false
      && (repliedTo 100 s.log).length = 204) (by decide +kernel)
  simp only [Bool.and_eq_true, decide_eq_true_eq] at hp
  obtain ⟨hcq, _, _, htaken⟩ := nothing_left_waiting hs hp.1.1
  exact ⟨s, hp.1.1, hp.2, hcq, htaken hp.1.2⟩

/-! ### Pending completions -/

/-- The completions that are not processed, oldest first. -/
def pending (s : Reactor) : List Cqe := s.cq ++ s.kern.cq

/-- The completion that a step processes. -/
def processed (s : Reactor) : Act → List Cqe
  | .server _ => if s.pc = .process then s.cq.head?.toList else []
  | .kernel _ => []

instance (s : Reactor) : Decidable s.ReleaseFits := inferInstanceAs (Decidable (_ ≤ _))

/-- The steps of the server that lead on. A failed round of the retry loop does not. -/
def advances (s : Reactor) : Act → List Act
  | .server inp => if s.InRelease ∧ ¬ s.ReleaseFits then [] else [.server inp]
  | .kernel _ => []

theorem posts_submit (v : View) (n : Nat) :
    ∃ posted, (v.submit n).kern.cq = v.kern.cq ++ posted := by
  refine View.submit_induction (I := fun w => ∃ posted, w.kern.cq = v.kern.cq ++ posted) ?_ n
    ⟨[], (List.append_nil _).symm⟩
  rintro w e q ⟨posted, hw⟩ _
  show ∃ posted, (w.kern.submit e).cq = _
  rcases Kernel.cq_submit w.kern e with hcq | ⟨cqe, hcq, _⟩
  · exact ⟨posted, hcq.trans hw⟩
  · exact ⟨posted ++ [cqe], by rw [hcq, hw, List.append_assoc]⟩

theorem processed_of_ne (h : s.pc ≠ .process) : s.processed (.server inp) = [] := if_neg h

theorem processed_of_atHand {cqe : Cqe} (h : s.AtHand cqe) :
    s.processed (.server inp) = [cqe] := by
  rw [processed, if_pos h.1, h.2]
  rfl

/-- The completion at hand is the oldest one that is pending. -/
theorem pending_of_atHand {cqe : Cqe} (h : s.AtHand cqe) :
    s.pending = cqe :: s.pending.tail := by
  obtain ⟨rest, hcq⟩ := List.head?_eq_some_iff.mp h.2
  rw [pending, hcq]
  rfl

/-- A step takes what it processes from the front, and posts at the back. -/
theorem pending_step {a : Act} (h : s.step a = some t) :
    ∃ posted, s.pending ++ posted = s.processed a ++ t.pending := by
  obtain ⟨v, n, heff, hview⟩ := step_effect h
  obtain ⟨posted, hsub⟩ := posts_submit v n
  have ht : t.pending = v.kern.cq ++ posted := by
    rw [← hsub, ← hview]
    rfl
  rw [ht]
  have htail : ∀ {inp : Input} {cqe : Cqe}, s.AtHand cqe → ∃ posted',
      s.pending ++ posted' = s.processed (.server inp) ++ (s.view.kern.cq.tail ++ posted) := by
    intro inp cqe hat
    refine ⟨posted, ?_⟩
    rw [processed_of_atHand hat, pending_of_atHand hat]
    rfl
  cases heff with
  | quiet inp hpc =>
    refine ⟨posted, ?_⟩
    rcases hpc with hpc | hnil
    · rw [processed_of_ne hpc]
      rfl
    · simp only [processed, hnil, List.head?_nil, Option.toList_none, ite_self, List.nil_append]
      rfl
  | provide inp ids hpc => exact ⟨posted, by rw [processed_of_ne hpc]; rfl⟩
  | flush inp hpc => exact ⟨posted, by rw [processed_of_ne (by rw [hpc]; decide)]; rfl⟩
  | skip inp cqe hat | accept inp cqe lakes poll recv hat | close inp cqe hat
  | closeStdin inp cqe hat | reply inp cqe buffer lake hat => exact htail hat
  | sendDone | sqThread => exact ⟨posted, rfl⟩
  | kernelAccept | kernelAcceptEnd | recvData | recvEnd | pollEvent | pollEnd | sendFail =>
    exact ⟨_ :: posted, List.append_cons _ _ _⟩

/-- A pending completion keeps the server from blocking. -/
theorem serverStep_isSome_of_pending (h : s.InTurn) (hgo : ¬ s.Stopped) (hpending : s.pending ≠ [])
    (inp : Input) : (s.serverStep inp).isSome := by
  have hclear := h.cleared
  unfold Cleared at hclear
  unfold serverStep
  cases hpc : s.pc with
  | waiting =>
    simp only [hpc] at hclear
    have hposted : s.kern.cq.isEmpty = false := by
      rw [pending, hclear.1.2, List.nil_append] at hpending
      exact List.isEmpty_eq_false_iff.mpr hpending
    simp only [hposted]
    rfl
  | stopped why => exact absurd ⟨why, hpc⟩ hgo
  | top | sync | reap | idle =>
    simp only
    split <;> rfl
  | submit =>
    simp only
    split <;> (try split) <;> (try split) <;> rfl
  | process =>
    simp only
    split <;> rfl
  | release idle => rfl

/-! ### How many steps they need -/

/-- The steps of the loop that are no work on the first `k` pending completions. They are in the
batch, or the batch has to be finished and the next one fetched. -/
def lap (s : Reactor) (k : Nat) : Nat :=
  if k ≤ s.cq.length then
    match s.pc with
    | .submit | .release false => 1
    | .top | .sync | .reap | .waiting | .process | .idle | .release true | .stopped _ => 0
  else
    match s.pc with
    | .submit => 9
    | .waiting | .release false => 8
    | .process => 7
    | .idle => 6
    | .release true => 5
    | .top => 4
    | .sync => 3
    | .reap => 2
    | .stopped _ => 0

/-- A bound on the steps until the first `k` pending completions are processed. A completion takes
one step, and one more when it fills the list of released buffers. -/
def stepsFor (s : Reactor) (k : Nat) : Nat := if k = 0 then 0 else 2 * k + s.lap k

theorem stepsFor_pos (s : Reactor) (k : Nat) (h : 0 < k) : 0 < s.stepsFor k := by
  rw [stepsFor, if_neg (by omega)]
  omega

theorem stepsFor_le (s : Reactor) (k : Nat) : s.stepsFor k ≤ 2 * k + 9 := by
  have hlap : s.lap k ≤ 9 := by
    unfold lap
    split <;> split <;> omega
  unfold stepsFor
  split <;> omega

theorem stepsFor_congr (hpc : t.pc = s.pc) (hcq : t.cq = s.cq) (k : Nat) :
    t.stepsFor k = s.stepsFor k := by
  rw [stepsFor, stepsFor, lap, lap, hpc, hcq]

/-- A step between two places, with the batch as it is. -/
theorem stepsFor_lt {k : Nat} (hk : 0 < k) (h : t.lap k < s.lap k) :
    t.stepsFor k + 1 ≤ s.stepsFor k := by
  rw [stepsFor, stepsFor, if_neg (by omega), if_neg (by omega)]
  omega

/-- The batch is empty, so nothing pending is in it. -/
theorem not_le_of_nil {k : Nat} (hk : 0 < k) (hcq : s.cq = []) : ¬ k ≤ s.cq.length := by
  rw [hcq, List.length_nil]
  omega

theorem lap_stopped (h : t.Stopped) (k : Nat) : t.lap k = 0 := by
  obtain ⟨why, hpc⟩ := h
  unfold lap
  rw [hpc]
  split <;> rfl

/-- A function that stops the loop or goes on. -/
theorem lap_orStop_lt {r : Except Stop Reactor} {k : Nat} (hs : 0 < s.lap k)
    (h : ∀ u, r = .ok u → u.lap k < s.lap k) : (t.orStop r).lap k < s.lap k := by
  cases r with
  | ok u => exact h u rfl
  | error why =>
    rw [lap_stopped ⟨why, rfl⟩]
    exact hs

/-- A round of the retry loop that succeeds leads on. -/
theorem lap_releaseRound {idle : Bool} {k : Nat} (hk : 0 < k) (h : s.InTurn)
    (hpc : s.pc = .release idle) (hfits : s.ReleaseFits) :
    (s.orStop (s.releaseRound inp idle)).lap k < s.lap k := by
  have hclear := h.cleared
  unfold Cleared at hclear
  have hpos : 0 < s.lap k := by
    cases idle with
    | true =>
      simp only [hpc] at hclear
      simp only [lap, if_neg (not_le_of_nil hk hclear), hpc]
      omega
    | false =>
      simp only [lap, hpc]
      split <;> omega
  refine lap_orStop_lt hpos fun u hu => ?_
  rcases releaseRound_cases hu with ⟨hnone, _⟩ | ⟨sq, _, rfl⟩
  · rw [SubmissionQueue.pushMultiple_eq_none_iff, length_releaseEntries] at hnone
    exact absurd hfits (Nat.not_le_of_lt hnone)
  have hcq : ({ s with sq := sq.sync } : Reactor).submitAll.cq = s.cq := (len_submitAll _).2.2
  simp only [lap]
  rw [hcq, hpc]
  cases idle with
  | true =>
    simp only [hpc] at hclear
    rw [if_neg (not_le_of_nil hk hclear), if_neg (not_le_of_nil hk hclear)]
    decide
  | false => split <;> decide

/-- One completion of the batch is processed. -/
theorem stepsFor_entry {cqe : Cqe} {rest : List Cqe} {k : Nat} (hk : 0 < k) (hpc : s.pc = .process)
    (hcq : s.cq = cqe :: rest) (ht : t.cq = rest)
    (hplace : t.pc = .process ∨ t.pc = .release false ∨ t.Stopped) :
    t.stepsFor (k - 1) + 1 ≤ s.stepsFor k := by
  have hlen : s.cq.length = rest.length + 1 := by
    rw [hcq, List.length_cons]
  have hlap : t.lap (k - 1) ≤ 1 + s.lap k := by
    unfold lap
    rw [hpc, ht]
    rcases hplace with hplace | hplace | ⟨why, hplace⟩ <;> rw [hplace] <;>
      simp only <;> split <;> split <;> omega
  have hk' : ¬ k = 0 := by omega
  rw [stepsFor, stepsFor, if_neg hk']
  split <;> omega

/-- A step between two places leads on. -/
theorem lap_serverStep (h : s.InTurn) (hstep : s.serverStep inp = some t) {k : Nat} (hk : 0 < k)
    (hle : k ≤ s.pending.length) (hgo : s.pc ≠ .process)
    (hadvance : s.advances (.server inp) ≠ []) : t.lap k < s.lap k := by
  have hclear := h.cleared
  unfold Cleared at hclear
  cases turns_of_serverStep hstep with
  | flush hpc hcq =>
    have hbefore : s.lap k = 4 := by
      rw [lap, if_neg (not_le_of_nil hk hcq), hpc]
    refine lap_orStop_lt (by omega) fun u hu => ?_
    obtain ⟨rps, now, synced, date, htick⟩ := s.tick_eq inp
    rw [htick] at hu
    obtain ⟨sq, now', _, rfl⟩ := widebandSend_cases hu
    have hafter : ¬ k ≤ s.cq.length := not_le_of_nil hk hcq
    simp only [lap, if_neg hafter, hpc]
    omega
  | noFlush hpc hbatch =>
    simp only [hpc] at hclear
    exact absurd hclear hbatch
  | sync hpc _ | noSync hpc _ =>
    simp only [hpc] at hclear
    have hcq := not_le_of_nil hk hclear.2
    simp only [lap, if_neg hcq, hpc]
    omega
  | reap hpc hcq =>
    -- What is pending has been posted, and is fetched now.
    have hall : k ≤ s.kern.cq.length := by
      rw [pending, hcq] at hle
      exact hle
    simp only [lap, if_pos hall, if_neg (not_le_of_nil hk hcq), hpc]
    omega
  | noReap hpc hbatch =>
    simp only [hpc] at hclear
    exact absurd hclear.1.2 hbatch
  | submit hpc hbatch =>
    have hcq := (len_submitAll s).2.2
    simp only [lap, hcq, hpc]
    split <;> omega
  | noSubmit hpc _ =>
    simp only [lap, hpc]
    split <;> omega
  | wait hpc hnil =>
    have hcq := (len_submitAll s).2.2
    simp only [lap, hcq, if_neg (not_le_of_nil hk hnil), hpc]
    omega
  | submitError hpc =>
    simp only [lap, hpc]
    split <;> omega
  | wake hpc _ =>
    simp only [hpc] at hclear
    simp only [lap, if_neg (not_le_of_nil hk hclear.1.2), hpc]
    omega
  | entry hpc _ | drained hpc _ => exact absurd hpc hgo
  | handBack hpc _ =>
    simp only [hpc] at hclear
    have hbefore : s.lap k = 6 := by
      rw [lap, if_neg (not_le_of_nil hk hclear), hpc]
    refine lap_orStop_lt (by omega) fun u hu => ?_
    have hqueues := queues_releaseBuffers hu
    have hafter : ¬ k ≤ u.cq.length := not_le_of_nil hk (hqueues.cq.trans hclear)
    rw [hbefore, lap, if_neg hafter]
    rcases hqueues.pc with hplace | ⟨_, hplace⟩
    · have htop : u.pc = .top := hplace
      rw [htop]
      decide
    · rw [hplace]
      decide
  | idle hpc _ =>
    simp only [hpc] at hclear
    simp only [lap, if_neg (not_le_of_nil hk hclear), hpc]
    omega
  | @retry idle hpc =>
    have hfits : s.ReleaseFits := by
      by_contra hfull
      exact hadvance (if_pos ⟨⟨idle, hpc⟩, hfull⟩)
    exact lap_releaseRound hk h hpc hfits

/-- A step that leads on comes closer to the first `k` pending completions. -/
theorem stepsFor_serverStep (h : s.InTurn) (hstep : s.serverStep inp = some t) {k : Nat}
    (hk : 0 < k) (hle : k ≤ s.pending.length) :
    t.stepsFor (k - (s.processed (.server inp)).length) + (s.advances (.server inp)).length
      ≤ s.stepsFor k := by
  have hone : (s.advances (.server inp)).length ≤ 1 := by
    rw [advances]
    split
    · exact Nat.zero_le 1
    · exact Nat.le_refl 1
  by_cases hpc : s.pc = .process
  · refine Nat.le_trans (Nat.add_le_add_left hone _) ?_
    cases hcq : s.cq with
    | nil =>
      -- The batch is done. What is pending is in the kernel's list.
      have hzero : s.processed (.server inp) = [] := by
        simp only [processed, hcq, List.head?_nil, Option.toList_none, ite_self]
      rw [serverStep_drained hpc hcq, Option.some.injEq] at hstep
      rw [hzero, List.length_nil, Nat.sub_zero, ← hstep]
      refine stepsFor_lt hk ?_
      simp only [lap, if_neg (not_le_of_nil hk hcq), hpc]
      omega
    | cons cqe rest =>
      rw [processed_of_atHand (atHand hpc hcq), List.length_singleton]
      rw [serverStep_entry hpc hcq, Option.some.injEq] at hstep
      rw [← hstep]
      generalize hr : ({ s with cq := rest } : Reactor).processEntry inp cqe = r
      cases r with
      | error why => exact stepsFor_entry hk hpc hcq rfl (.inr (.inr ⟨why, rfl⟩))
      | ok u =>
        have hqueues := queues_processEntry hr
        refine stepsFor_entry hk hpc hcq hqueues.cq ?_
        rcases hqueues.pc with hplace | ⟨_, hplace⟩
        · exact .inl (hplace.trans hpc)
        · exact .inr (.inl hplace)
  rw [processed_of_ne hpc]
  by_cases hretry : s.InRelease ∧ ¬ s.ReleaseFits
  · -- A round that fails changes nothing, and does not count.
    have hsame : t = s := by
      have hfull := serverStep_release_full hretry.1 hretry.2 inp
      rw [hstep] at hfull
      exact Option.some.inj hfull
    have hno : s.advances (.server inp) = [] := if_pos hretry
    rw [hno, hsame]
    exact Nat.le_refl _
  · have hadvance : s.advances (.server inp) ≠ [] := by
      rw [advances, if_neg hretry]
      exact List.cons_ne_nil _ _
    exact Nat.le_trans (Nat.add_le_add_left hone _)
      (stepsFor_lt hk (lap_serverStep h hstep hk hle hpc hadvance))

/-- Enough moves process everything that is pending. -/
theorem pending_prefix_of_moves (h : s.Reachable) {as : List Act}
    (hrun : Run step (fun _ _ => True) s as t)
    (hmoves : 2 * s.pending.length + 9 ≤ (Run.collect step advances s as).length) :
    s.pending <+: Run.collect step processed s as := by
  refine Run.progress (fun _ _ _ _ _ _ ha => pending_step ha) ?_ stepsFor_pos hrun
    (Nat.le_trans (stepsFor_le s _) hmoves)
  intro bs u a v hu _ ha k hk hle
  cases a with
  | server inp => exact stepsFor_serverStep (inTurn_of_reachable (h.run hu)) ha hk hle
  | kernel kact =>
    have hsame := kernelStep_sameLocal ha
    exact (stepsFor_congr hsame.pc hsame.cq k).le

/-- The completions that are pending are processed in order and once each, before any later one.
As long as one is pending the server is not blocked, and two steps for each of them with one turn
of the loop are enough. -/
theorem pending_processed (h : s.Reachable) {as : List Act}
    (hrun : Run step (fun _ _ => True) s as t) :
    (∃ posted, s.pending ++ posted = Run.collect step processed s as ++ t.pending) ∧
      (t.pending ≠ [] → ¬ t.Stopped → ∀ inp, (t.serverStep inp).isSome) ∧
      (2 * s.pending.length + 9 ≤ (Run.collect step advances s as).length →
        s.pending <+: Run.collect step processed s as) := by
  refine ⟨Run.taken_prefix (fun _ _ _ _ _ _ ha => pending_step ha) hrun, ?_,
    pending_prefix_of_moves h hrun⟩
  intro hpending hgo inp
  exact serverStep_isSome_of_pending (inTurn_of_reachable (h.run hrun)) hgo hpending inp

/-- The request of client 100 is posted while the server waits. It is answered within eleven
steps. -/
theorem pending_processed_served : ∃ s : Reactor, s.pending.length = 1 ∧
    ∃ as t, Run step (fun _ _ => True) s as t ∧ s.pending <+: Run.collect step processed s as := by
  obtain ⟨s, hs, hp⟩ := exists_reachable
    (connect ++ [.kernel (.recvData 0 0 plaintextRequest true)])
    (fun s => s.pending.length = 1
      && (Run.exec step (fun _ _ => true) s (rounds 11)).isSome
      && (Run.collect step advances s (rounds 11)).length = 11) (by decide +kernel)
  simp only [Bool.and_eq_true, decide_eq_true_eq] at hp
  obtain ⟨⟨hone, hexec⟩, hmoves⟩ := hp
  obtain ⟨t, ht⟩ := Option.isSome_iff_exists.mp hexec
  have hrun : Run step (fun _ _ => True) s (rounds 11) t :=
    Run.of_exec (fun _ _ _ => trivial) ht
  refine ⟨s, hone, rounds 11, t, hrun, (pending_processed hs hrun).2.2 ?_⟩
  rw [hone, hmoves]

end Reactor

end Tachyon
