import Tachyon.Proofs.Outcomes

/-!
# `Tachyon.Proofs.Refinement`: every step is an effect and a submission

`step_effect` is the inversion of `Reactor.step`. One lemma for each function of the loop
says which effect the function has. The invariants of the clients are proved over the effects.
-/

set_option autoImplicit false

namespace Tachyon

namespace Kernel

/-! ### Older completions stay in front -/

variable (k : Kernel) (older : List Cqe)

theorem withOlder_submit (e : Entry) :
    (k.withOlder older).submit e = (k.submit e).withOlder older := by
  cases e with
  | provideBuffer id => simp [submit, withOlder, post]
  | acceptMulti => rfl
  | recvMulti fd u =>
    show submit _ _ = _
    simp only [submit, withOlder]
    cases k.owner fd <;> simp [post]
  | pollAdd fd u =>
    simp only [submit, withOlder]
    cases k.owner fd <;> simp [post]
  | send u fd data =>
    simp only [submit, withOlder]
    cases k.owner fd <;> simp [post]

theorem withOlder_foldl_submit (es : List Entry) :
    es.foldl submit (k.withOlder older) = (es.foldl submit k).withOlder older := by
  induction es generalizing k with
  | nil => rfl
  | cons e es ih => rw [List.foldl_cons, withOlder_submit, ih, List.foldl_cons]

end Kernel

namespace View

/-- What every single submission preserves, a submission preserves. -/
theorem submit_induction {I : View → Prop}
    (hone : ∀ (v : View) (e : Entry) (q : List Entry), I v → v.queue = e :: q →
      I { v with queue := q, kern := v.kern.submit e })
    (n : Nat) {v : View} (h : I v) : I (v.submit n) := by
  induction n generalizing v with
  | zero => exact h
  | succ n ih =>
    cases hq : v.queue with
    | nil => simpa [submit, hq] using ih h
    | cons e q =>
      have hrest := ih (hone v e q h hq)
      simpa [submit, hq] using hrest

end View

namespace Reactor

/-! ### Submission -/

/-- A submit call takes entries from the front of the queue. -/
theorem view_submitAll (s : Reactor) : ∃ n, s.submitAll.view = s.view.submit n := by
  unfold submitAll
  split
  · exact ⟨0, rfl⟩
  · refine ⟨s.sq.published.length, ?_⟩
    have htake : s.sq.entries.take s.sq.published.length = s.sq.published := by
      simp [SubmissionQueue.entries]
    have hdrop : s.sq.entries.drop s.sq.published.length = s.sq.pending := by
      simp [SubmissionQueue.entries]
    simp only [view, View.submit, SubmissionQueue.entries_drain, htake, hdrop,
      Kernel.withOlder_foldl_submit]

/-- The outcome of a function of the loop: an effect, and a submission. A function that
stops the loop leaves the view it was called in. -/
def Refines (s : Reactor) (a : Act) (t : Reactor) : Prop :=
  ∃ v n, Effect s a v ∧ t.view = v.submit n

theorem Refines.of_effect {s t : Reactor} {a : Act} (h : Effect s a t.view) : s.Refines a t :=
  ⟨t.view, 0, h, rfl⟩

theorem Refines.submitAll {s t : Reactor} {a : Act} (h : Effect s a t.view) :
    s.Refines a t.submitAll := by
  obtain ⟨n, hn⟩ := t.view_submitAll
  exact ⟨t.view, n, h, hn⟩

/-- `release_buffers` up to its loop only submits. -/
theorem view_releaseBuffers {s t : Reactor} {inp : Input} {idle : Bool}
    (h : s.releaseBuffers inp idle = .ok t) : ∃ n, t.view = s.view.submit n := by
  rcases releaseBuffers_cases h with ⟨_, rfl⟩ | ⟨_, rfl⟩
  · exact ⟨0, rfl⟩
  · exact s.view_submitAll

theorem refines_releaseRound {s : Reactor} (hpc : s.pc ≠ .process) (inp : Input)
    (idle : Bool) : s.Refines (.server inp) (s.orStop (s.releaseRound inp idle)) := by
  cases hr : s.releaseRound inp idle with
  | error why => exact .of_effect (.quiet inp (.inl hpc))
  | ok t =>
    rcases releaseRound_cases hr with ⟨_, rfl⟩ | ⟨sq, hpush, rfl⟩
    · exact .of_effect (.quiet inp (.inl hpc))
    · -- The hand-overs join the queue before the submission.
      obtain ⟨n, hn⟩ := ({ s with sq := sq.sync } : Reactor).view_submitAll
      refine ⟨s.view.push (s.srv.releasedBuffers.map Entry.provideBuffer), n,
        .provide inp s.srv.releasedBuffers hpc, ?_⟩
      have hpushed : ({ s with sq := sq.sync } : Reactor).view
          = s.view.push (s.srv.releasedBuffers.map Entry.provideBuffer) := by
        simp [view, View.push, SubmissionQueue.entries_pushMultiple hpush, releaseEntries]
      rw [← hpushed, ← hn]
      rfl

/-! ### The flush -/

theorem view_widebandSend {s t : Reactor} (h : s.widebandSend = .ok t) :
    t.view = s.view.flush := by
  obtain ⟨sq, now, hpush, rfl⟩ := widebandSend_cases h
  simp [view, View.flush, SubmissionQueue.entries_pushMultiple hpush]

theorem view_tick (s : Reactor) (inp : Input) (pc : Pc) :
    ({ s.tick inp with pc := pc } : Reactor).view = s.view := by
  obtain ⟨_, _, _, _, heq⟩ := s.tick_eq inp
  rw [heq]
  rfl

theorem refines_top (s : Reactor) (inp : Input) (hpc : s.pc = .top) :
    s.Refines (.server inp)
      (({ s.tick inp with pc := .sync } : Reactor).orStop
        ({ s.tick inp with pc := .sync } : Reactor).widebandSend) := by
  cases hw : ({ s.tick inp with pc := .sync } : Reactor).widebandSend with
  | error why =>
    refine .of_effect ?_
    show Effect s (.server inp) ({ s.tick inp with pc := .sync } : Reactor).view
    rw [view_tick]
    exact .quiet inp (.inl (by simp [hpc]))
  | ok t =>
    refine .of_effect ?_
    show Effect s (.server inp) t.view
    rw [view_widebandSend hw, view_tick]
    exact .flush inp hpc

/-! ### One completion -/

section
variable {s : Reactor} {cqe : Cqe} {rest : List Cqe} (hpc : s.pc = .process)
  (hcq : s.cq = cqe :: rest) (inp : Input)
include hcq

theorem view_rest : ({ s with cq := rest } : Reactor).view = s.view.consume := by
  simp [view, View.consume, Kernel.withOlder, hcq]

include hpc

theorem atHand : s.AtHand cqe := ⟨hpc, by rw [hcq]; rfl⟩

/-- A completion without an effect on the clients. -/
theorem refines_skip (hnc : ¬ cqe.Closes) :
    s.Refines (.server inp) ({ s with cq := rest } : Reactor) := by
  refine .of_effect ?_
  rw [view_rest hcq]
  exact .skip inp cqe (atHand hpc hcq) hnc

/-- A completion that stops the loop. -/
theorem refines_error (hnc : ¬ cqe.Closes) (why : Stop) :
    s.Refines (.server inp) (({ s with cq := rest } : Reactor).orStop (.error why)) := by
  refine .of_effect ?_
  show Effect s _ ({ s with cq := rest } : Reactor).view
  rw [view_rest hcq]
  exact .skip inp cqe (atHand hpc hcq) hnc

/-- A completion whose effect ends in `release_buffers`. -/
theorem refines_release (hnc : ¬ cqe.Closes) {s' : Reactor} {idle : Bool}
    (heff : Effect s (.server inp) s'.view) :
    s.Refines (.server inp)
      (({ s with cq := rest } : Reactor).orStop (s'.releaseBuffers inp idle)) := by
  cases hr : s'.releaseBuffers inp idle with
  | error why => exact refines_error hpc hcq inp hnc why
  | ok t =>
    obtain ⟨n, hn⟩ := view_releaseBuffers hr
    exact ⟨_, n, heff, hn⟩

theorem refines_accept (hu : cqe.userData = CODE_ACCEPT) :
    s.Refines (.server inp) (({ s with cq := rest } : Reactor).orStop
      (({ s with cq := rest } : Reactor).processEntryAccept cqe.result)) := by
  have hnc : ¬ cqe.Closes := fun hc => by
    have hle := hc.1
    rw [hu] at hle
    exact absurd hle (by decide)
  cases hr : ({ s with cq := rest } : Reactor).processEntryAccept cqe.result with
  | error why => exact refines_error hpc hcq inp hnc why
  | ok t =>
    rcases processEntryAccept_cases hr with ⟨_, rfl⟩ | ⟨hfd, lakes, hins, rfl⟩
    · exact refines_skip hpc hcq inp hnc
    · refine .of_effect ?_
      have hpoll : ({ s with cq := rest } : Reactor).pollFirst cqe.result
          s.srv.clientFds.next = s.pollFirst cqe.result s.srv.clientFds.next := rfl
      have heff := Effect.accept inp cqe lakes
        (decide (s.srv.ubKernelDma = true ∧ s.sq.len < s.sq.capacity))
        (decide ((s.pollFirst cqe.result s.view.fds.next).len
          < (s.pollFirst cqe.result s.view.fds.next).capacity))
        (atHand hpc hcq) hu hfd hins (by simpa using fun h _ => h) (by simp)
      convert heff using 1
      simp only [view, orStop, View.accept, View.consume, Kernel.withOlder, hcq,
        List.cons_append, List.tail_cons, SubmissionQueue.entries_pushOrDrop, hpoll,
        View.mk.injEq, true_and, and_true]
      -- A push that finds no room is dropped, in either mode.
      by_cases hdma : s.srv.ubKernelDma = true
      · simp [pollFirst, hdma, SubmissionQueue.entries_pushOrDrop]
      · simp [pollFirst, hdma]

theorem refines_close (hc : cqe.Closes) :
    s.Refines (.server inp)
      (({ s with cq := rest } : Reactor).closeConnection (clientOf cqe.userData) true) := by
  refine .of_effect ?_
  unfold closeConnection
  simp only [Bool.not_true, Bool.false_eq_true, if_false]
  by_cases hz : s.view.closeFd (clientOf cqe.userData) = 0
  · have heff := Effect.closeStdin inp cqe (atHand hpc hcq) hc hz
    rw [← view_rest hcq] at heff
    have hz' : ((s.srv.clientFds.remove (clientOf cqe.userData)).1.getD 0xFF) = 0 := hz
    rw [if_pos hz']
    exact heff
  · have heff := Effect.close inp cqe (atHand hpc hcq) hc hz
    rw [← view_rest hcq] at heff
    have hz' : ¬ ((s.srv.clientFds.remove (clientOf cqe.userData)).1.getD 0xFF) = 0 := hz
    rw [if_neg hz']
    exact heff

/-- `request_reply`. -/
theorem refines_requestReply (hd : cqe.Delivers s.srv.ubKernelDma) :
    s.Refines (.server inp) (({ s with cq := rest } : Reactor).orStop
      (({ s with cq := rest } : Reactor).requestReply inp cqe.flags
        (UserData.unpackUserData cqe.userData) cqe.result)) := by
  have hans : s.Answers cqe (s.received cqe) := .inl ⟨hd, rfl⟩
  have hnc := hd.not_closes
  cases hr : ({ s with cq := rest } : Reactor).requestReply inp cqe.flags
      (UserData.unpackUserData cqe.userData) cqe.result with
  | error why => exact refines_error hpc hcq inp hnc why
  | ok t =>
    rcases requestReply_cases hr with ⟨_, rfl⟩ | ⟨_, lake, cache, hot, hget, hend⟩
    · exact refines_skip hpc hcq inp hnc
    · have heff := Effect.reply inp cqe (s.received cqe) lake (atHand hpc hcq) hans hget
      rw [← view_rest hcq] at heff
      split at hend
      · -- The threshold release submits before its loop.
        rw [← hend]
        exact refines_release hpc hcq inp hnc heff
      · rw [hend]
        exact .of_effect heff

/-- `ubdma`. -/
theorem refines_ubdma (hp : cqe.Polls s.srv.ubKernelDma) :
    s.Refines (.server inp) (({ s with cq := rest } : Reactor).orStop
      (({ s with cq := rest } : Reactor).ubdma (UserData.unpackUserData cqe.userData))) := by
  have hnc := hp.not_closes
  cases hr : ({ s with cq := rest } : Reactor).ubdma
      (UserData.unpackUserData cqe.userData) with
  | error why => exact refines_error hpc hcq inp hnc why
  | ok t =>
    rcases ubdma_cases hr with rfl | ⟨buffer, lake, cache, hot, hbuf, hmany, hget, _, rfl⟩
    · exact refines_skip hpc hcq inp hnc
    · have heff := Effect.reply inp cqe buffer lake (atHand hpc hcq)
        (.inr ⟨hp, hbuf, hmany⟩) hget
      rw [← view_rest hcq] at heff
      exact .of_effect heff

/-- One completion, wherever it is passed to. -/
theorem refines_processEntry :
    s.Refines (.server inp) (({ s with cq := rest } : Reactor).orStop
      (({ s with cq := rest } : Reactor).processEntry inp cqe)) := by
  generalize hr : ({ s with cq := rest } : Reactor).processEntry inp cqe = r
  have hd := dispatches { s with cq := rest } inp cqe
  rw [hr] at hd
  cases hd with
  | skip hnc _ => exact refines_skip hpc hcq inp hnc
  | accept hu => exact refines_accept hpc hcq inp hu
  | release hbufs =>
    have hnc : ¬ cqe.Closes := Cqe.not_closes_of_result (by rw [hbufs]; decide)
      (by rw [hbufs]; decide)
    refine refines_release hpc hcq inp hnc ?_
    rw [view_rest hcq]
    exact .skip inp cqe (atHand hpc hcq) hnc
  | close hc => exact refines_close hpc hcq inp hc
  | poll hp => exact refines_ubdma hpc hcq inp hp
  | reply hd => exact refines_requestReply hpc hcq inp hd

end

/-! ### The step -/

theorem serverStep_refines {s t : Reactor} {inp : Input} (h : s.serverStep inp = some t) :
    s.Refines (.server inp) t := by
  have hquiet : s.pc ≠ .process → s.Refines (.server inp) s := fun hpc =>
    .of_effect (.quiet inp (.inl hpc))
  cases turns_of_serverStep h with
  | flush hpc _ => exact s.refines_top inp hpc
  | noFlush hpc _ =>
    refine .of_effect ?_
    rw [view_tick]
    exact .quiet inp (.inl (by simp [hpc]))
  | sync hpc _ =>
    refine .of_effect ?_
    have hview : ({ s with
        sq := s.sq.sync
        srv := { s.srv with syncNow := false }
        pc := .reap } : Reactor).view = s.view := by
      simp [view]
    rw [hview]
    exact .quiet inp (.inl (by simp [hpc]))
  | reap hpc hnil =>
    -- The posted completions become fetched ones, in the same order.
    refine .of_effect ?_
    have hview : ({ s with
        cq := s.kern.cq
        kern := { s.kern with cq := [] }
        pc := .submit } : Reactor).view = s.view := by
      simp [view, Kernel.withOlder, hnil]
    rw [hview]
    exact .quiet inp (.inl (by simp [hpc]))
  | submit hpc _ | wait hpc _ =>
    exact .submitAll (t := s) (.quiet inp (.inl (by simp [hpc])))
  | noSync hpc _ | noReap hpc _ | noSubmit hpc _ | submitError hpc | wake hpc _ | idle hpc _ =>
    exact hquiet (by simp [hpc])
  | entry hpc hcq => exact refines_processEntry hpc hcq inp
  | drained _ hnil => exact .of_effect (.quiet inp (.inr hnil))
  | handBack hpc _ =>
    -- The view does not show the place, so a submit call that fails is quiet.
    cases hr : ({ s with pc := .top } : Reactor).releaseBuffers inp true with
    | error why => exact hquiet (by simp [hpc])
    | ok t =>
      obtain ⟨n, hn⟩ := view_releaseBuffers hr
      exact ⟨s.view, n, .quiet inp (.inl (by simp [hpc])), hn⟩
  | retry hpc => exact refines_releaseRound (by simp [hpc]) inp _

theorem kernelStep_refines {s t : Reactor} {k : KernelAct} (h : s.kernelStep k = some t) :
    s.Refines (.kernel k) t := by
  cases k with
  | accept fd more =>
    simp only [kernelStep, Option.ite_none_right_eq_some] at h
    obtain ⟨⟨hfd, hfree, _⟩, h⟩ := h
    cases h
    -- The view has the fetched completions in front of those that the kernel posts.
    have heff := Effect.kernelAccept (s := s) fd more hfd hfree
    refine .of_effect ?_
    convert heff using 1
    simp [view, View.kernel, Kernel.withOlder, Kernel.accept, Kernel.post]
  | acceptEnd err =>
    simp only [kernelStep, Option.ite_none_right_eq_some] at h
    obtain ⟨_, h⟩ := h
    cases h
    have heff := Effect.kernelAcceptEnd (s := s) err
    refine .of_effect ?_
    convert heff using 1
    simp [view, View.kernel, Kernel.withOlder, Kernel.acceptEnd, Kernel.post]
  | recvData i bufferId data more =>
    simp only [kernelStep] at h
    split at h
    · rename_i op hop
      simp only [Option.ite_none_right_eq_some] at h
      obtain ⟨⟨hid, hpos, hle⟩, h⟩ := h
      cases h
      have heff := Effect.recvData (s := s) op i bufferId data more hop hid hpos hle
      refine .of_effect ?_
      convert heff using 1
      simp [view, View.kernel, Kernel.withOlder, Kernel.recvData, Kernel.post]
    · cases h
  | recvEnd i result =>
    simp only [kernelStep] at h
    split at h
    · rename_i op hop
      simp only [Option.ite_none_right_eq_some] at h
      obtain ⟨hres, h⟩ := h
      cases h
      have heff := Effect.recvEnd (s := s) op i result hop hres
      refine .of_effect ?_
      convert heff using 1
      simp [view, View.kernel, Kernel.withOlder, Kernel.recvEnd, Kernel.post]
    · cases h
  | pollEvent i mask more =>
    simp only [kernelStep] at h
    split at h
    · rename_i op hop
      simp only [Option.ite_none_right_eq_some] at h
      obtain ⟨_, h⟩ := h
      cases h
      have heff := Effect.pollEvent (s := s) op i mask more hop
      refine .of_effect ?_
      convert heff using 1
      simp [view, View.kernel, Kernel.withOlder, Kernel.pollEvent, Kernel.post]
    · cases h
  | pollEnd i err =>
    simp only [kernelStep] at h
    split at h
    · rename_i op hop
      simp only [Option.ite_none_right_eq_some] at h
      obtain ⟨_, h⟩ := h
      cases h
      have heff := Effect.pollEnd (s := s) op i err hop
      refine .of_effect ?_
      convert heff using 1
      simp [view, View.kernel, Kernel.withOlder, Kernel.pollEnd, Kernel.post]
    · cases h
  | sendDone i sent =>
    simp only [kernelStep] at h
    split at h
    · rename_i op hop
      simp only [Option.ite_none_right_eq_some] at h
      obtain ⟨hsent, h⟩ := h
      cases h
      exact .of_effect (.sendDone op i sent hop hsent)
    · cases h
  | sendFail i err =>
    simp only [kernelStep] at h
    split at h
    · rename_i op hop
      simp only [Option.ite_none_right_eq_some] at h
      obtain ⟨herr, h⟩ := h
      cases h
      have heff := Effect.sendFail (s := s) op i err hop herr
      refine .of_effect ?_
      convert heff using 1
      simp [view, View.kernel, Kernel.withOlder, Kernel.sendFail, Kernel.post]
    · cases h
  | sqThread =>
    simp only [kernelStep, Option.ite_none_right_eq_some] at h
    obtain ⟨_, h⟩ := h
    split at h
    · rename_i e sq htake
      cases h
      -- The thread takes the first entry of the queue: one submission, and nothing else.
      have hq := SubmissionQueue.entries_take htake
      refine ⟨s.view, 1, .sqThread, ?_⟩
      simp [view, View.submit, hq, Kernel.withOlder_submit]
    · cases h

/-- Every step of a reactor is an effect followed by a submission. -/
theorem step_effect {s t : Reactor} {a : Act} (h : s.step a = some t) :
    ∃ v n, Effect s a v ∧ t.view = v.submit n := by
  cases a with
  | server inp => exact serverStep_refines h
  | kernel k => exact kernelStep_refines h

end Reactor

end Tachyon
