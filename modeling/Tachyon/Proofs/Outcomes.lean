import Tachyon.Protocol

/-!
# `Tachyon.Proofs.Outcomes`: what the functions of the loop can do

One inversion lemma for each function that the loop calls. It lists the states with which the
function goes on, and leaves out that it stops the loop. For `process_entry` the relation
`Dispatches` says which function a completion is passed to, whatever comes of it.

The later files split on these cases. They do not unfold the functions.
-/

set_option autoImplicit false

namespace Tachyon

namespace Reactor

variable {s t : Reactor} {inp : Input}

/-! ### The buffers and the flush -/

theorem releaseBuffers_cases {idle : Bool} (h : s.releaseBuffers inp idle = .ok t) :
    s.srv.releasedBuffers = [] ∧ t = s ∨
      s.srv.releasedBuffers ≠ [] ∧ t = { s.submitAll with pc := .release idle } := by
  unfold releaseBuffers at h
  split at h
  · rename_i hnone
    cases h
    exact .inl ⟨List.eq_nil_of_length_eq_zero hnone, rfl⟩
  rename_i hsome
  split at h
  · cases h
  split at h
  · cases h
  · cases h
    exact .inr ⟨fun hnil => hsome (congrArg List.length hnil), rfl⟩

/-- A round of the retry loop changes nothing, or it queues all the released buffers and the loop is
over. -/
theorem releaseRound_cases {idle : Bool} (h : s.releaseRound inp idle = .ok t) :
    s.sq.pushMultiple s.releaseEntries = none ∧ t = s ∨
      ∃ sq, s.sq.pushMultiple s.releaseEntries = some sq ∧
        t = { ({ s with sq := sq.sync } : Reactor).submitAll with
          srv := { ({ s with sq := sq.sync } : Reactor).submitAll.srv with releasedBuffers := [] }
          pc := if idle then .top else .process } := by
  unfold releaseRound at h
  cases hpush : s.sq.pushMultiple s.releaseEntries with
  | none =>
    rw [hpush] at h
    cases h
    exact .inl ⟨rfl, rfl⟩
  | some sq =>
    rw [hpush] at h
    simp only at h
    split at h
    · cases h
    · cases h
      exact .inr ⟨sq, rfl, rfl⟩

theorem sendEntries_of_iter_nil (fds : ExternStableVec RawFd) {lakes : ExternStableVec OutBuffer}
    (h : lakes.iter = []) : sendEntries fds lakes = [] := by
  simp [sendEntries, h]

theorem resetSent_of_iter_nil (fds : ExternStableVec RawFd) {lakes : ExternStableVec OutBuffer}
    (h : lakes.iter = []) : resetSent fds lakes = lakes :=
  ExternStableVec.mapIdx_of_iter_nil h _

/-- The flush pushes the send entries and resets their buffers, also when there are none. -/
theorem widebandSend_cases (h : s.widebandSend = .ok t) :
    ∃ sq now, s.sq.pushMultiple (sendEntries s.srv.clientFds s.srv.clientOutBuffers) = some sq ∧
      t = { s with
        srv := { s.srv with
          clientOutBuffers := resetSent s.srv.clientFds s.srv.clientOutBuffers, syncNow := now }
        sq := sq
        log := s.log ++ [.flushed] } := by
  unfold widebandSend at h
  split at h
  · rename_i hnone
    -- No output buffer at all: the flush of the source returns early.
    have hiter : s.srv.clientOutBuffers.iter = [] := List.eq_nil_of_length_eq_zero hnone
    cases h
    refine ⟨s.sq, s.srv.syncNow, ?_, ?_⟩
    · rw [sendEntries_of_iter_nil _ hiter]
      exact s.sq.pushMultiple_nil
    · rw [resetSent_of_iter_nil _ hiter]
  simp only at h
  split at h
  · cases hpush : s.sq.pushMultiple (sendEntries s.srv.clientFds s.srv.clientOutBuffers) with
    | none =>
      rw [hpush] at h
      cases h
    | some sq =>
      rw [hpush] at h
      cases h
      exact ⟨sq, true, rfl, rfl⟩
  · rename_i hlen
    -- No client has output, and `sync_now` is set all the same.
    have hempty : sendEntries s.srv.clientFds s.srv.clientOutBuffers = [] :=
      List.eq_nil_of_length_eq_zero (Nat.eq_zero_of_not_pos hlen)
    cases h
    refine ⟨s.sq, true, ?_, rfl⟩
    rw [hempty]
    exact s.sq.pushMultiple_nil

/-! ### The completions -/

/-- A client is stored, or the completion has no descriptor. -/
theorem processEntryAccept_cases {result : Int} (h : s.processEntryAccept result = .ok t) :
    result ≤ 0 ∧ t = s ∨
      0 < result ∧ ∃ lakes,
        s.srv.clientOutBuffers.insert s.srv.clientFds.next SmallLake.build = some lakes ∧
        t = { s with
          srv := { s.srv with
            clientFds := (s.srv.clientFds.push result).2
            clientOutBuffers := lakes
            syncNow := true }
          sq := (s.pollFirst result s.srv.clientFds.next).pushOrDrop
            (.recvMulti result (clientData s.srv.clientFds.next INIT_REQUEST).packUserData)
          log := s.log ++ [.accepted s.srv.clientFds.next result (s.kern.owner result)] } := by
  unfold processEntryAccept at h
  simp only at h
  split at h
  · rename_i hfd
    cases h
    exact .inl ⟨hfd, rfl⟩
  rename_i hfd
  split at h
  · cases h
  · rename_i lakes hins
    cases h
    exact .inr ⟨not_le.mp hfd, lakes, hins, rfl⟩

/-- The state in which `ubdma` has written its responses. -/
def refreshed (s : Reactor) (buffer : Slice) (user : UserData) (cache : Mem)
    (hot : SmallLake 512) (lake : OutBuffer) : Reactor :=
  let requests := Http.parseHttpMethodsPaths 50 buffer
  { s with
    srv := { s.srv with
      rpsNow := s.srv.rpsNow + requests.length
      clientOutBuffers := s.srv.clientOutBuffers.set user.clientId.toNat lake
      hotInternalCache := cache
      hotDataLake := hot
      syncNow := true }
    log := s.log ++ [.received user.clientId.toNat buffer,
      .replied user.clientId.toNat (replies s.srv.date buffer requests)] }

/-- More than five requests in the current buffer are answered, for a stored client without
output. -/
theorem ubdma_cases {user : UserData} (h : s.ubdma user = .ok t) :
    t = s ∨ ∃ buffer lake cache hot, s.polled = some buffer ∧
      5 < (Http.parseHttpMethodsPaths 50 buffer).length ∧
      s.srv.clientOutBuffers.get user.clientId.toNat = some lake ∧ lake.len = 0 ∧
      t = s.refreshed buffer user cache hot (lake.write (s.block buffer)) := by
  unfold ubdma at h
  simp only at h
  split at h
  · cases h
    exact .inl rfl
  rename_i bufId hbuf
  split at h
  · cases h
    exact .inl rfl
  rename_i huseful
  split at h
  · cases h
    exact .inl rfl
  rename_i lake hget
  split at h
  · cases h
    exact .inl rfl
  rename_i hlen
  obtain ⟨cache, hot, n, hloop, hread⟩ := replyLoop_eq s.srv.date
    (Trim.lTrim256 (bufferSlice s.srv bufId BUFFER_SIZE)) s.srv.hotInternalCache
    s.srv.hotDataLake
  simp only [hloop, hread] at h
  cases h
  refine .inr ⟨_, lake, cache, hot, by rw [polled, hbuf]; rfl, ?_, hget, not_not.mp hlen, rfl⟩
  -- The capacity is zero up to five requests.
  by_contra hfew
  refine huseful ?_
  rw [Nat.sub_eq_zero_of_le (not_lt.mp hfew), Nat.zero_mul]

/-- A poll does not stop the loop. -/
theorem exists_ubdma (s : Reactor) (user : UserData) : ∃ u, s.ubdma user = .ok u := by
  unfold ubdma
  simp only
  split
  · exact ⟨s, rfl⟩
  next id hid =>
  split
  · exact ⟨s, rfl⟩
  split
  · exact ⟨s, rfl⟩
  split
  · exact ⟨s, rfl⟩
  obtain ⟨cache, hot, n, hloop, _⟩ := replyLoop_eq s.srv.date
    (Trim.lTrim256 (bufferSlice s.srv id BUFFER_SIZE)) s.srv.hotInternalCache s.srv.hotDataLake
  simp only [hloop]
  exact ⟨_, rfl⟩

/-- The responses are written and the buffer is noted. At the threshold the released buffers are
handed back. -/
theorem requestReply_cases {flags : Nat} {user : UserData} {result : Int}
    (h : s.requestReply inp flags user result = .ok t) :
    BUFFER_SIZE < result ∧ t = s ∨
      result ≤ BUFFER_SIZE ∧ ∃ lake cache hot,
        s.srv.clientOutBuffers.get user.clientId.toNat = some lake ∧
        if s.srv.releasedBuffers.length + 1 = RELEASE_PART then
          (s.answered (flags >>> 16 % 2 ^ 16) user result.toNat cache hot
            (lake.write (s.block (bufferSlice s.srv (flags >>> 16 % 2 ^ 16) result.toNat)))
            ).releaseBuffers inp false = .ok t
        else t = s.answered (flags >>> 16 % 2 ^ 16) user result.toNat cache hot
          (lake.write (s.block (bufferSlice s.srv (flags >>> 16 % 2 ^ 16) result.toNat))) := by
  rcases lt_or_ge (BUFFER_SIZE : Int) result with hlong | hle
  · rw [requestReply, if_pos hlong] at h
    cases h
    exact .inl ⟨hlong, rfl⟩
  -- An index past the slab panics, and the call has returned.
  have hid : flags >>> 16 % 2 ^ 16 < BUFFERS_COUNT := by
    by_contra hid
    rw [requestReply, if_neg (not_lt.mpr hle), if_pos (not_lt.mp hid)] at h
    cases h
  obtain ⟨cache, hot, n, hloop, hread⟩ := replyLoop_eq s.srv.date
    (bufferSlice s.srv (flags >>> 16 % 2 ^ 16) result.toNat) s.srv.hotInternalCache
    s.srv.hotDataLake
  cases hget : s.srv.clientOutBuffers.get user.clientId.toNat with
  | none =>
    unfold requestReply at h
    simp only [if_neg (not_lt.mpr hle), if_neg (not_le.mpr hid), hloop, hget] at h
    cases h
  | some lake =>
    obtain ⟨cache, hot, heq⟩ := requestReply_eq hle hid hget inp
    refine .inr ⟨hle, lake, cache, hot, rfl, ?_⟩
    rw [heq] at h
    split at h
    · rename_i hpart
      rw [if_pos hpart]
      exact h
    · rename_i hpart
      rw [if_neg hpart]
      cases h
      rfl

/-! ### One completion -/

/-- Which function `process_entry` passes a completion to. -/
inductive Dispatches (s : Reactor) (inp : Input) (cqe : Cqe) : Except Stop Reactor → Prop
  | skip : ¬ cqe.Closes → ¬ cqe.Delivers s.srv.ubKernelDma → Dispatches s inp cqe (.ok s)
  | accept : cqe.userData = CODE_ACCEPT →
      Dispatches s inp cqe (s.processEntryAccept cqe.result)
  | release : cqe.result = -ENOBUFS → Dispatches s inp cqe (s.releaseBuffers inp false)
  | close : cqe.Closes →
      Dispatches s inp cqe (.ok (s.closeConnection (clientOf cqe.userData) true))
  | poll : cqe.Polls s.srv.ubKernelDma →
      Dispatches s inp cqe (s.ubdma (UserData.unpackUserData cqe.userData))
  | reply : cqe.Delivers s.srv.ubKernelDma → Dispatches s inp cqe
      (s.requestReply inp cqe.flags (UserData.unpackUserData cqe.userData) cqe.result)

/-- The routing of `process_entry_response`. -/
theorem dispatches_response (s : Reactor) (inp : Input) {cqe : Cqe}
    (hu : REQ_RESP_OFFSET ≤ cqe.userData) : Dispatches s inp cqe
      (s.processEntryResponse inp cqe.userData cqe.result cqe.flags) := by
  have hnd : cqe.result ≤ 0 → ¬ cqe.Delivers s.srv.ubKernelDma := fun hle hd =>
    absurd hd.2.1 (not_lt.mpr hle)
  unfold processEntryResponse
  simp only
  split
  · rename_i hbad
    refine .skip (Cqe.not_closes_of_result ?_ ?_) (hnd ?_) <;>
      rcases hbad with h | h <;> rw [h] <;> decide
  split
  · rename_i hbufs
    exact .release hbufs
  split
  · rename_i hpipe
    refine .skip (Cqe.not_closes_of_result ?_ ?_) (hnd ?_) <;> rw [hpipe] <;> decide
  split
  · rename_i hclose
    exact .close ⟨hu, hclose⟩
  rename_i hclose
  have hnc : ¬ cqe.Closes := fun hc => hclose hc.2
  split
  · rename_i hneg
    exact .skip hnc (hnd hneg.le)
  rename_i hneg
  -- What is left has a result of at least 0.
  split
  · rename_i hpoll
    have hpos : 0 < cqe.result := by
      rcases Int.lt_or_eq_of_le (not_lt.mp hneg) with h | h
      · exact h
      · refine absurd (Or.inl ⟨h.symm, ?_⟩) hclose
        have huniq : uniqOf cqe.userData = POLL_EVENT := hpoll.1
        show uniqOf cqe.userData ≠ 0xCCC
        rw [huniq]
        decide
    exact .poll ⟨hu, hpos, hpoll.1, hpoll.2⟩
  rename_i hpoll
  split
  · rename_i hsend
    exact .skip hnc fun hd => hd.2.2.1 hsend
  rename_i hsend
  split
  · rename_i hpos
    exact .reply ⟨hu, hpos, hsend, hpoll⟩
  · rename_i hzero
    exact .skip hnc fun hd => hzero hd.2.1

theorem dispatches (s : Reactor) (inp : Input) (cqe : Cqe) :
    Dispatches s inp cqe (s.processEntry inp cqe) := by
  unfold processEntry
  split
  · rename_i hfab
    have hlow : ¬ REQ_RESP_OFFSET ≤ cqe.userData := by
      rw [hfab.1]
      decide
    exact .skip (fun hc => hlow hc.1) fun hd => hlow hd.1
  split
  · rename_i hu
    exact .accept hu
  split
  · rename_i hu
    exact dispatches_response s inp hu
  · rename_i hu
    exact .skip (fun hc => hu hc.1) fun hd => hu hd.1

theorem not_le_of_accept {cqe : Cqe} (h : cqe.userData = CODE_ACCEPT) :
    ¬ REQ_RESP_OFFSET ≤ cqe.userData := by
  rw [h]
  decide

/-- A completion that asks for a close. -/
theorem processEntry_closes {cqe : Cqe} (h : cqe.Closes) (inp : Input) :
    s.processEntry inp cqe = .ok (s.closeConnection (clientOf cqe.userData) true) := by
  generalize hr : s.processEntry inp cqe = r
  have hd := dispatches s inp cqe
  rw [hr] at hd
  cases hd with
  | skip hnc _ => exact absurd h hnc
  | accept hu => exact absurd h.1 (not_le_of_accept hu)
  | release hbufs =>
    refine absurd h (Cqe.not_closes_of_result ?_ ?_) <;> rw [hbufs] <;> decide
  | close _ => rfl
  | poll hp => exact absurd h hp.not_closes
  | reply hd => exact absurd h hd.not_closes

/-- A completion with data. -/
theorem processEntry_delivers {cqe : Cqe} (h : cqe.Delivers s.srv.ubKernelDma) (inp : Input) :
    s.processEntry inp cqe = s.requestReply inp cqe.flags (UserData.unpackUserData cqe.userData)
      cqe.result := by
  generalize hr : s.processEntry inp cqe = r
  have hd := dispatches s inp cqe
  rw [hr] at hd
  cases hd with
  | skip _ hnd => exact absurd h hnd
  | accept hu => exact absurd h.1 (not_le_of_accept hu)
  | release hbufs =>
    have hpos := h.2.1
    rw [hbufs] at hpos
    exact absurd hpos (by decide)
  | close hc => exact absurd hc h.not_closes
  | poll hp => exact absurd hp.2.2 h.2.2.2
  | reply _ => rfl

/-! ### One step of the loop -/

/-- The metrics are all that an update of the second changes. -/
theorem tick_eq (s : Reactor) (inp : Input) : ∃ rps now synced date, s.tick inp = { s with
    srv := { s.srv with rps := rps, rpsNow := now, synced := synced, date := date } } := by
  unfold tick
  split
  · exact ⟨_, _, _, _, rfl⟩
  · exact ⟨s.srv.rps, s.srv.rpsNow, s.srv.synced, s.srv.date, rfl⟩

/-- The oldest completion of the batch is processed. -/
theorem serverStep_entry {cqe : Cqe} {rest : List Cqe} (hpc : s.pc = .process)
    (hcq : s.cq = cqe :: rest) (inp : Input) :
    s.serverStep inp = some (({ s with cq := rest } : Reactor).orStop
      (({ s with cq := rest } : Reactor).processEntry inp cqe)) := by
  rw [serverStep, hpc]
  simp only [hcq]

/-- How the server runs to the next place in the loop, one case for each branch. -/
inductive Turns (s : Reactor) (inp : Input) : Reactor → Prop
  | flush : s.pc = .top → s.cq = [] →
      Turns s inp (({ s.tick inp with pc := .sync } : Reactor).orStop
        ({ s.tick inp with pc := .sync } : Reactor).widebandSend)
  | noFlush : s.pc = .top → s.cq ≠ [] → Turns s inp { s.tick inp with pc := .sync }
  | sync : s.pc = .sync → s.srv.syncNow = true →
      Turns s inp { s with
        sq := s.sq.sync, srv := { s.srv with syncNow := false }, pc := .reap }
  | noSync : s.pc = .sync → s.srv.syncNow = false → Turns s inp { s with pc := .reap }
  | reap : s.pc = .reap → s.cq = [] →
      Turns s inp { s with cq := s.kern.cq, kern := { s.kern with cq := [] }, pc := .submit }
  | noReap : s.pc = .reap → s.cq ≠ [] → Turns s inp { s with pc := .submit }
  | submit : s.pc = .submit → s.cq ≠ [] → Turns s inp { s.submitAll with pc := .process }
  | noSubmit : s.pc = .submit → s.cq ≠ [] → Turns s inp { s with pc := .process }
  | wait : s.pc = .submit → s.cq = [] → Turns s inp { s.submitAll with pc := .waiting }
  | submitError : s.pc = .submit → Turns s inp { s with pc := .stopped .ioError }
  | wake : s.pc = .waiting → s.kern.cq ≠ [] → Turns s inp { s with pc := .process }
  | entry {cqe : Cqe} {rest : List Cqe} : s.pc = .process → s.cq = cqe :: rest →
      Turns s inp (({ s with cq := rest } : Reactor).orStop
        (({ s with cq := rest } : Reactor).processEntry inp cqe))
  | drained : s.pc = .process → s.cq = [] → Turns s inp { s with pc := .idle }
  | handBack : s.pc = .idle → s.srv.rps = 0 →
      Turns s inp (({ s with pc := .top } : Reactor).orStop
        (({ s with pc := .top } : Reactor).releaseBuffers inp true))
  | idle : s.pc = .idle → s.srv.rps ≠ 0 → Turns s inp { s with pc := .top }
  | retry {idle : Bool} : s.pc = .release idle →
      Turns s inp (s.orStop (s.releaseRound inp idle))

theorem turns_of_serverStep (h : s.serverStep inp = some t) : Turns s inp t := by
  have hfetched : ∀ {cq : List Cqe}, ¬ cq.isEmpty = true → cq ≠ [] := fun hne hnil =>
    hne (List.isEmpty_iff.mpr hnil)
  unfold serverStep at h
  split at h
  -- `top`
  case h_1 hpc =>
    have htick : (s.tick inp).cq = s.cq := by
      obtain ⟨_, _, _, _, heq⟩ := s.tick_eq inp
      rw [heq]
    simp only at h
    split at h
    · rename_i hempty
      cases h
      exact .flush hpc (htick.symm.trans (List.isEmpty_iff.mp hempty))
    · rename_i hbatch
      cases h
      exact .noFlush hpc fun hnil => hfetched hbatch (htick.trans hnil)
  -- `sync`
  case h_2 hpc =>
    split at h
    · rename_i hsync
      cases h
      exact .sync hpc hsync
    · rename_i hsync
      cases h
      exact .noSync hpc (Bool.eq_false_of_not_eq_true hsync)
  -- `reap`
  case h_3 hpc =>
    split at h
    · rename_i hempty
      cases h
      exact .reap hpc (List.isEmpty_iff.mp hempty)
    · rename_i hbatch
      cases h
      exact .noReap hpc (hfetched hbatch)
  -- `submit`
  case h_4 hpc =>
    split at h
    · rename_i hempty
      split at h
      · cases h
        exact .wait hpc (List.isEmpty_iff.mp hempty)
      · cases h
        exact .submitError hpc
    · rename_i hbatch
      split at h
      · split at h
        · cases h
          exact .submit hpc (hfetched hbatch)
        · cases h
          exact .submitError hpc
      · cases h
        exact .noSubmit hpc (hfetched hbatch)
  -- `waiting`
  case h_5 hpc =>
    split at h
    · cases h
    · rename_i hposted
      cases h
      exact .wake hpc (hfetched hposted)
  -- `process`
  case h_6 hpc =>
    split at h
    · rename_i hnil
      cases h
      exact .drained hpc hnil
    · rename_i cqe rest hcq
      cases h
      exact .entry hpc hcq
  -- `idle`
  case h_7 hpc =>
    simp only at h
    split at h
    · rename_i hrps
      cases h
      exact .handBack hpc hrps
    · rename_i hrps
      cases h
      exact .idle hpc hrps
  -- `release`
  case h_8 idle hpc =>
    cases h
    exact .retry hpc
  -- `stopped`
  case h_9 why hpc => cases h

/-! ### The kernel's part -/

/-- The kernel writes into the buffers and records events. Its thread takes one entry from the
queue. The rest of the server is not its own. -/
theorem kernelStep_cases {k : KernelAct} (h : s.kernelStep k = some t) :
    (∃ kern log buffers, t = { s with
      kern := kern, log := log, srv := { s.srv with buffers := buffers } }) ∨
      ∃ e sq, s.sq.take = some (e, sq) ∧ t = { s with sq := sq, kern := s.kern.submit e } := by
  cases k with
  | accept fd more | acceptEnd err =>
    obtain ⟨_, h⟩ := Option.ite_none_right_eq_some.mp h
    cases h
    exact .inl ⟨_, s.log, s.srv.buffers, rfl⟩
  | recvData i bufferId data more | recvEnd i result | pollEvent i mask more | pollEnd i err
  | sendDone i sent | sendFail i err =>
    simp only [kernelStep] at h
    split at h
    · obtain ⟨_, h⟩ := Option.ite_none_right_eq_some.mp h
      cases h
      exact .inl ⟨_, _, _, rfl⟩
    · cases h
  | sqThread =>
    obtain ⟨_, h⟩ := Option.ite_none_right_eq_some.mp h
    cases htake : s.sq.take with
    | none =>
      rw [htake] at h
      cases h
    | some p =>
      rw [htake] at h
      cases h
      exact .inr ⟨p.1, p.2, rfl, rfl⟩

end Reactor

end Tachyon
