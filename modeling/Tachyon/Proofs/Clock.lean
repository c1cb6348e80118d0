import Tachyon.Lib.History
import Tachyon.Proofs.Boot
import Tachyon.Proofs.Invariant

/-!
# `Tachyon.Proofs.Clock`: the second in which the server is

Once a second the loop publishes how many requests it has parsed since the last time, starts the
counter over and formats the date. Nothing else writes these fields, and only `request_reply` and
`ubdma` count (`counts_serverStep`).

* `published_requests`: the published numbers and the running one add up to the requests that were
  parsed and answered, in both modes. None is counted twice, and none is lost when the second
  changes. A poll that is not answered is not counted, although `ubdma` parses for it.
* `date_of_run`: a property of every formatted date is one of every date that a response carries.
-/

set_option autoImplicit false

namespace Tachyon

/-- The requests that were parsed from what an event received. -/
def Event.requests : Event → Nat
  | .received _ buffer => (Http.parseHttpMethodsPaths 50 buffer).length
  | _ => 0

def requestsIn (log : List Event) : Nat := (log.map Event.requests).sum

theorem requestsIn_append (log es : List Event) :
    requestsIn (log ++ es) = requestsIn log + requestsIn es := by
  rw [requestsIn, List.map_append, List.sum_append]
  rfl

namespace Reactor

variable {s t u : Reactor} {inp : Input}

/-! ### What counts -/

/-- The fields of the clock are kept, and what was parsed is counted. -/
structure Counts (s t : Reactor) : Prop where
  rps_eq : t.srv.rps = s.srv.rps
  synced_eq : t.srv.synced = s.srv.synced
  date_eq : t.srv.date = s.srv.date
  counted : t.srv.rpsNow + requestsIn s.log = s.srv.rpsNow + requestsIn t.log

/-- Only other fields are written. -/
theorem counts_of_eq (hrps : t.srv.rps = s.srv.rps) (hsynced : t.srv.synced = s.srv.synced)
    (hdate : t.srv.date = s.srv.date) (hnow : t.srv.rpsNow = s.srv.rpsNow)
    (hlog : requestsIn t.log = requestsIn s.log) : Counts s t :=
  ⟨hrps, hsynced, hdate, by rw [hnow, hlog]⟩

theorem Counts.trans (h : Counts s t) (h' : Counts t u) : Counts s u := by
  refine ⟨h'.rps_eq.trans h.rps_eq, h'.synced_eq.trans h.synced_eq, h'.date_eq.trans h.date_eq, ?_⟩
  have hfirst := h.counted
  have hsecond := h'.counted
  omega

theorem counts_orStop {r : Except Stop Reactor} (hs : Counts u s)
    (h : ∀ v, r = .ok v → Counts u v) : Counts u (s.orStop r) := by
  cases r with
  | ok v => exact h v rfl
  | error why => exact ⟨hs.rps_eq, hs.synced_eq, hs.date_eq, hs.counted⟩

theorem log_submitAll (s : Reactor) : s.submitAll.log = s.log := by
  unfold submitAll
  split <;> rfl

theorem counts_submitAll (s : Reactor) (pc : Pc) : Counts s { s.submitAll with pc := pc } := by
  have hsrv := srv_submitAll s
  refine counts_of_eq ?_ ?_ ?_ ?_ ?_
  · exact congrArg Server.rps hsrv
  · exact congrArg Server.synced hsrv
  · exact congrArg Server.date hsrv
  · exact congrArg Server.rpsNow hsrv
  · exact congrArg requestsIn (log_submitAll s)

theorem counts_releaseBuffers {idle : Bool} (h : s.releaseBuffers inp idle = .ok t) :
    Counts s t := by
  rcases releaseBuffers_cases h with ⟨_, rfl⟩ | ⟨_, rfl⟩
  · exact counts_of_eq rfl rfl rfl rfl rfl
  · exact counts_submitAll s _

theorem counts_releaseRound {idle : Bool} (h : s.releaseRound inp idle = .ok t) :
    Counts s t := by
  rcases releaseRound_cases h with ⟨_, rfl⟩ | ⟨sq, _, rfl⟩
  · exact counts_of_eq rfl rfl rfl rfl rfl
  · have hsubmit := counts_submitAll { s with sq := sq.sync } s.pc
    exact ⟨hsubmit.rps_eq, hsubmit.synced_eq, hsubmit.date_eq, hsubmit.counted⟩

theorem counts_answered (bufId : Nat) (user : UserData) (len : Nat) (cache : Mem)
    (hot : SmallLake 512) (lake : OutBuffer) :
    Counts s (s.answered bufId user len cache hot lake) := by
  refine ⟨rfl, rfl, rfl, ?_⟩
  show s.srv.rpsNow + (Http.parseHttpMethodsPaths 50 (bufferSlice s.srv bufId len)).length
    + requestsIn s.log = _
  rw [answered, requestsIn_append]
  simp only [requestsIn, List.map_cons, List.map_nil, Event.requests, List.sum_cons,
    List.sum_nil]
  omega

theorem counts_refreshed (buffer : Slice) (user : UserData) (cache : Mem)
    (hot : SmallLake 512) (lake : OutBuffer) :
    Counts s (s.refreshed buffer user cache hot lake) := by
  refine ⟨rfl, rfl, rfl, ?_⟩
  show s.srv.rpsNow + (Http.parseHttpMethodsPaths 50 buffer).length + requestsIn s.log = _
  rw [refreshed, requestsIn_append]
  simp only [requestsIn, List.map_cons, List.map_nil, Event.requests, List.sum_cons,
    List.sum_nil]
  omega

/-- The requests of a completion are counted when they are parsed. -/
theorem counts_processEntry {cqe : Cqe} (h : s.processEntry inp cqe = .ok t) : Counts s t := by
  generalize hr : s.processEntry inp cqe = r at h
  have hd := dispatches s inp cqe
  rw [hr] at hd
  cases hd with
  | skip _ _ =>
    cases h
    exact counts_of_eq rfl rfl rfl rfl rfl
  | accept _ =>
    rcases processEntryAccept_cases h with ⟨_, rfl⟩ | ⟨_, lakes, _, rfl⟩
    · exact counts_of_eq rfl rfl rfl rfl rfl
    · exact counts_of_eq rfl rfl rfl rfl (requestsIn_append _ _)
  | release _ => exact counts_releaseBuffers h
  | close _ =>
    cases h
    simp only [closeConnection, Bool.not_true, Bool.false_eq_true, if_false]
    split
    · exact counts_of_eq rfl rfl rfl rfl rfl
    · exact counts_of_eq rfl rfl rfl rfl (requestsIn_append _ _)
  | poll _ =>
    rcases ubdma_cases h with rfl | ⟨buffer, lake, cache, hot, _, _, _, _, rfl⟩
    · exact counts_of_eq rfl rfl rfl rfl rfl
    · exact counts_refreshed buffer _ cache hot _
  | reply _ =>
    rcases requestReply_cases h with ⟨_, rfl⟩ | ⟨_, lake, cache, hot, _, hnext⟩
    · exact counts_of_eq rfl rfl rfl rfl rfl
    · -- A hand-over behind the reply counts nothing.
      have hanswered := counts_answered (s := s) (cqe.flags >>> 16 % 2 ^ 16)
        (UserData.unpackUserData cqe.userData) cqe.result.toNat cache hot
        (lake.write (s.block (s.received cqe)))
      split at hnext
      · exact hanswered.trans (counts_releaseBuffers hnext)
      · rw [hnext]
        exact hanswered

/-! ### The steps -/

/-- The kernel does not look at the clock, and it parses nothing. -/
theorem counts_kernelStep {k : KernelAct} (h : s.kernelStep k = some t) : Counts s t := by
  -- The events of the kernel are about sends, not about requests.
  have hlog : requestsIn t.log = requestsIn s.log := by
    obtain ⟨v, n, heff, hview⟩ := step_effect (s := s) (a := .kernel k) h
    have hsame : t.log = v.log := congrArg View.log hview
    rw [hsame]
    cases heff with
    | sqThread => rfl
    | kernelAccept | kernelAcceptEnd | recvData | recvEnd | pollEvent | pollEnd | sendDone
    | sendFail => exact requestsIn_append s.log _
  rcases kernelStep_cases h with ⟨kern, log, buffers, rfl⟩ | ⟨e, sq, _, rfl⟩
  · exact counts_of_eq rfl rfl rfl rfl hlog
  · exact counts_of_eq rfl rfl rfl rfl hlog

/-- The clock is read at the head of the loop. -/
theorem counts_serverStep (h : s.serverStep inp = some t) :
    Counts (if s.pc = .top then s.tick inp else s) t := by
  have hrefl : ∀ {v : Reactor} {pc : Pc}, Counts v { v with pc := pc } :=
    counts_of_eq rfl rfl rfl rfl rfl
  cases turns_of_serverStep h with
  | flush hpc _ =>
    rw [if_pos hpc]
    refine counts_orStop hrefl fun v hv => ?_
    obtain ⟨sq, now, _, rfl⟩ := widebandSend_cases hv
    exact counts_of_eq rfl rfl rfl rfl (requestsIn_append _ _)
  | noFlush hpc _ =>
    rw [if_pos hpc]
    exact hrefl
  | submit hpc _ | wait hpc _ =>
    rw [if_neg (by rw [hpc]; decide)]
    exact counts_submitAll s _
  | sync hpc _ | noSync hpc _ | reap hpc _ | noReap hpc _ | noSubmit hpc _ | submitError hpc
  | wake hpc _ | drained hpc _ | idle hpc _ =>
    rw [if_neg (by rw [hpc]; decide)]
    exact counts_of_eq rfl rfl rfl rfl rfl
  | @entry cqe rest hpc _ =>
    rw [if_neg (by rw [hpc]; decide)]
    refine counts_orStop (counts_of_eq rfl rfl rfl rfl rfl) fun v hv => ?_
    have hentry : Counts { s with cq := rest } v := counts_processEntry hv
    exact ⟨hentry.rps_eq, hentry.synced_eq, hentry.date_eq, hentry.counted⟩
  | handBack hpc _ =>
    rw [if_neg (by rw [hpc]; decide)]
    refine counts_orStop hrefl fun v hv => ?_
    have hback : Counts { s with pc := .top } v := counts_releaseBuffers hv
    exact ⟨hback.rps_eq, hback.synced_eq, hback.date_eq, hback.counted⟩
  | @retry idle hpc =>
    rw [if_neg (by rw [hpc]; simp)]
    exact counts_orStop (counts_of_eq rfl rfl rfl rfl rfl) fun v hv => counts_releaseRound hv

/-! ### The requests per second -/

/-- The number that a step publishes. -/
def published (s : Reactor) : Act → List Nat
  | .server inp => if s.pc = .top ∧ inp.clock ≠ s.srv.synced then [s.srv.rpsNow] else []
  | .kernel _ => []

/-- What was published accounts for the requests. -/
structure Metrics (s : Reactor) (numbers : List Nat) : Prop where
  total : numbers.sum + s.srv.rpsNow = requestsIn s.log
  latest : s.srv.rps = numbers.getLast?.getD 0

theorem Metrics.of_counts {numbers : List Nat} (h : s.Metrics numbers) (hc : Counts s t) :
    t.Metrics numbers := by
  refine ⟨?_, hc.rps_eq.trans h.latest⟩
  have htotal := h.total
  have hcounted := hc.counted
  omega

theorem Metrics.tick {numbers : List Nat} (h : s.Metrics numbers)
    (hclock : inp.clock ≠ s.srv.synced) : (s.tick inp).Metrics (numbers ++ [s.srv.rpsNow]) := by
  have htick : s.tick inp = { s with srv := { s.srv with
      rps := s.srv.rpsNow, rpsNow := 0, synced := inp.clock, date := inp.date } } := if_pos hclock
  rw [htick]
  refine ⟨?_, by rw [List.getLast?_concat]; rfl⟩
  rw [List.sum_append, List.sum_singleton]
  exact h.total

theorem Metrics.step {numbers : List Nat} {a : Act} (h : s.Metrics numbers)
    (ha : s.step a = some t) : t.Metrics (numbers ++ s.published a) := by
  cases a with
  | kernel k =>
    rw [published, List.append_nil]
    exact h.of_counts (counts_kernelStep ha)
  | server inp =>
    have hcounts := counts_serverStep ha
    by_cases hpc : s.pc = .top
    · rw [if_pos hpc] at hcounts
      by_cases hclock : inp.clock = s.srv.synced
      · have htick : s.tick inp = s := if_neg (not_not.mpr hclock)
        rw [htick] at hcounts
        rw [published, if_neg fun hboth => hboth.2 hclock, List.append_nil]
        exact h.of_counts hcounts
      · rw [published, if_pos ⟨hpc, hclock⟩]
        exact (h.tick hclock).of_counts hcounts
    · rw [if_neg hpc] at hcounts
      rw [published, if_neg fun hboth => hpc hboth.1, List.append_nil]
      exact h.of_counts hcounts

/-- The published numbers and the running counter add up to the requests that were parsed, and
`rps` is the last number that was published. -/
theorem published_requests {s₀ : Reactor} {as : List Act} (hstart : Started s₀)
    (hrun : Run step (fun _ _ => True) s₀ as s) :
    (Run.collect step published s₀ as).sum + s.srv.rpsNow = requestsIn s.log ∧
      s.srv.rps = (Run.collect step published s₀ as).getLast?.getD 0 := by
  have hmetrics : s.Metrics (Run.collect step published s₀ as) := by
    refine Run.history ?_ (fun _ _ _ _ _ _ ha hm => hm.step ha) hrun
    obtain ⟨cfg, n, m, hsrv, _⟩ := started_view hstart
    have hlog : s₀.log = [] := (initial_of_started hstart).log_eq
    refine ⟨?_, ?_⟩ <;> rw [hsrv]
    · rw [hlog]
      rfl
    · rfl
  exact ⟨hmetrics.total, hmetrics.latest⟩

/-- One request in each of two seconds. -/
theorem published_requests_two : ∃ (s : Reactor) (numbers : List Nat), s.srv.rpsNow = 1 ∧
    requestsIn s.log = 2 ∧ numbers.sum + s.srv.rpsNow = requestsIn s.log ∧
      s.srv.rps = numbers.getLast?.getD 0 := by
  obtain ⟨s, hs, hp⟩ := exists_reachable (connect ++ serve
      ++ [.kernel (.sendDone 0 204), .kernel (.recvData 0 1 plaintextRequest true)]
      ++ List.replicate 9 (.server ⟨1, Date.zero, true, true⟩))
    (fun s => s.srv.rpsNow = 1 && requestsIn s.log = 2) (by decide +kernel)
  simp only [Bool.and_eq_true, decide_eq_true_eq] at hp
  obtain ⟨s₀, as, hstart, hrun⟩ := hs
  obtain ⟨htotal, hlatest⟩ := published_requests hstart hrun
  exact ⟨s, _, hp.1, hp.2, htotal, hlatest⟩

/-! ### The date -/

/-- A date that is formatted in this step has the property. -/
def Formats (P : Date → Prop) (s : Reactor) : Act → Prop
  | .server inp => s.pc = .top → inp.clock ≠ s.srv.synced → P inp.date
  | .kernel _ => True

theorem date_step {P : Date → Prop} {a : Act} (h : P s.srv.date) (hg : Formats P s a)
    (ha : s.step a = some t) : P t.srv.date := by
  cases a with
  | kernel k =>
    rw [(counts_kernelStep ha).date_eq]
    exact h
  | server inp =>
    have hdate := (counts_serverStep ha).date_eq
    by_cases hpc : s.pc = .top
    · rw [if_pos hpc] at hdate
      rw [hdate]
      unfold tick
      split
      · next hclock => exact hg hpc hclock
      · exact h
    · rw [if_neg hpc] at hdate
      rw [hdate]
      exact h

/-- In every state of a run the date is a formatted one. Before the first second it is 35 zeros. -/
theorem date_of_run {P : Date → Prop} {guard : Reactor → Act → Prop} {s₀ : Reactor}
    {as : List Act} (hg : ∀ v a, guard v a → Formats P v a) (hzero : P Date.zero)
    (hstart : Started s₀) (hrun : Run step guard s₀ as s) :
    Run step (fun v a => guard v a ∧ P v.srv.date) s₀ as s := by
  refine hrun.with_invariant (fun v a w hv hga ha => date_step hv (hg v a hga) ha) ?_
  obtain ⟨cfg, n, m, hsrv, _⟩ := started_view hstart
  rw [hsrv]
  exact hzero

end Reactor

end Tachyon
