import Tachyon.Proofs.Boot
import Tachyon.Proofs.Invariant

/-!
# `Tachyon.Proofs.SqThread`: the server with a kernel thread

Without SQPOLL a submit call hands over every published entry. With it the call hands over none,
and the kernel takes the entries on its own, one at a time and whenever it likes. So the server
with SQPOLL has more runs than the server without.

It has all of those: `sqpoll_covers_plain` goes through a plain run with SQPOLL switched on. Every
action is repeated, and behind a submit call the kernel thread takes the entries that the call has
handed over (`behind_submitAll`). The log is the same. So what holds of every run with SQPOLL also
holds without it.
-/

set_option autoImplicit false

namespace Tachyon

namespace Reactor

/-- SQPOLL is switched on. -/
def withSqpoll (s : Reactor) : Reactor := { s with srv := { s.srv with sqpollEnabled := true } }

/-- The action of the kernel thread. -/
def isSqThread : Act → Bool
  | .kernel .sqThread => true
  | _ => false

/-- The kernel thread gets from one state to another. -/
def Catches (s t : Reactor) : Prop :=
  ∃ as, Run step (fun _ _ => True) s as t ∧ ∀ a ∈ as, isSqThread a = true

theorem Catches.refl (s : Reactor) : Catches s s := ⟨[], .nil s, fun _ h => nomatch h⟩

/-- One entry, and then the others. -/
theorem Catches.step {s t u : Reactor} (h : s.step (.kernel .sqThread) = some t)
    (hcatch : Catches t u) : Catches s u := by
  obtain ⟨as, hrun, has⟩ := hcatch
  refine ⟨[.kernel .sqThread] ++ as, (Run.single trivial h).trans hrun, ?_⟩
  intro a ha
  rcases List.mem_append.mp ha with hfirst | hlater
  · rw [List.mem_singleton.mp hfirst]
    rfl
  · exact has a hlater

/-- The kernel thread takes every published entry. -/
theorem catches_drain (s : Reactor) (hon : s.srv.sqpollEnabled = true) : Catches s
    { s with sq := s.sq.drain, kern := s.sq.published.foldl Kernel.submit s.kern } := by
  generalize hpub : s.sq.published = published
  induction published generalizing s with
  | nil =>
    rw [SubmissionQueue.drain_of_published_nil hpub]
    exact .refl s
  | cons e rest ih =>
    obtain ⟨sq, htake, hrest, hdrain⟩ := SubmissionQueue.exists_take hpub
    have hstep : s.step (.kernel .sqThread)
        = some { s with sq := sq, kern := s.kern.submit e } := by
      show (if s.srv.sqpollEnabled then _ else none) = _
      rw [if_pos hon, htake]
    have hlater := ih { s with sq := sq, kern := s.kern.submit e } hon hrest
    rw [List.foldl_cons, ← hdrain]
    exact .step hstep hlater

/-- A state with SQPOLL is behind a plain one, by entries that the kernel thread has yet to take. -/
structure Behind (t' t : Reactor) : Prop where
  plain : t.srv.sqpollEnabled = false
  catches : Catches t' t.withSqpoll

theorem Behind.refl {s : Reactor} (hoff : s.srv.sqpollEnabled = false) : Behind s.withSqpoll s :=
  ⟨hoff, .refl _⟩

/-- The results of one function in the two modes. -/
inductive Lags : Except Stop Reactor → Except Stop Reactor → Prop
  | error (why : Stop) : Lags (.error why) (.error why)
  | ok {t t' : Reactor} (h : Behind t' t) : Lags (.ok t) (.ok t')

theorem Lags.refl {s : Reactor} (hoff : s.srv.sqpollEnabled = false) :
    Lags (.ok s) (.ok s.withSqpoll) := .ok (.refl hoff)

/-! ### Submit calls -/

theorem submitAll_pc (s : Reactor) (pc : Pc) :
    ({ s with pc := pc } : Reactor).submitAll = { s.submitAll with pc := pc } := by
  unfold submitAll
  split <;> rfl

theorem submitAll_released (s : Reactor) (released : List Nat) (pc : Pc) :
    ({ s with srv := { s.srv with releasedBuffers := released }, pc := pc } : Reactor).submitAll
      = { s.submitAll with
          srv := { s.submitAll.srv with releasedBuffers := released }, pc := pc } := by
  unfold submitAll
  split <;> rfl

/-- Behind a submit call that hands over nothing, the kernel thread takes what the plain call
hands over. -/
theorem behind_submitAll {s : Reactor} (hoff : s.srv.sqpollEnabled = false) :
    Behind s.withSqpoll s.submitAll := by
  have hsubmit : s.submitAll
      = { s with sq := s.sq.drain, kern := s.sq.published.foldl Kernel.submit s.kern } :=
    if_neg (by rw [hoff]; exact Bool.false_ne_true)
  rw [hsubmit]
  exact ⟨hoff, catches_drain s.withSqpoll rfl⟩

/-! ### The functions of the loop -/

section
variable {s : Reactor} (hoff : s.srv.sqpollEnabled = false) (inp : Input)
include hoff

theorem lags_releaseBuffers (idle : Bool) :
    Lags (s.releaseBuffers inp idle) (s.withSqpoll.releaseBuffers inp idle) := by
  unfold releaseBuffers
  show Lags _ (if s.srv.releasedBuffers.length = 0 then .ok s.withSqpoll
    else if inp.submitOk = false then _
    else if s.srv.releasedBuffers.all (· < BUFFERS_COUNT) = false then _
    else .ok { s.withSqpoll with pc := .release idle })
  split
  · exact .refl hoff
  split
  · exact .error .ioError
  split
  · exact .error .panic
  · rw [← submitAll_pc]
    exact .ok (behind_submitAll (s := { s with pc := .release idle }) hoff)

theorem lags_releaseRound (idle : Bool) :
    Lags (s.releaseRound inp idle) (s.withSqpoll.releaseRound inp idle) := by
  unfold releaseRound
  generalize hpush : s.sq.pushMultiple s.releaseEntries = pushed
  have hpoll : s.withSqpoll.sq.pushMultiple s.withSqpoll.releaseEntries = pushed := hpush
  rw [hpoll]
  cases pushed with
  | none => exact .refl hoff
  | some sq =>
    simp only
    split
    · exact .error .ioError
    · have hcatch := behind_submitAll (s := { s with
        sq := sq.sync
        srv := { s.srv with releasedBuffers := [] }
        pc := if idle then .top else .process }) hoff
      rw [submitAll_released { s with sq := sq.sync } []] at hcatch
      exact .ok hcatch

theorem lags_processEntryAccept (result : Int) :
    Lags (s.processEntryAccept result) (s.withSqpoll.processEntryAccept result) := by
  by_cases hle : result ≤ 0
  · have hplain : s.processEntryAccept result = .ok s := if_pos hle
    have hpoll : s.withSqpoll.processEntryAccept result = .ok s.withSqpoll := if_pos hle
    rw [hplain, hpoll]
    exact .refl hoff
  · unfold processEntryAccept
    simp only [if_neg hle]
    generalize hinsert : s.srv.clientOutBuffers.insert (s.srv.clientFds.push result).1
      SmallLake.build = inserted
    have hpoll : s.withSqpoll.srv.clientOutBuffers.insert
      (s.withSqpoll.srv.clientFds.push result).1 SmallLake.build = inserted := hinsert
    rw [hpoll]
    cases inserted with
    | none => exact .error .panic
    | some lakes => exact .refl hoff

theorem lags_ubdma (client : UserData) :
    Lags (s.ubdma client) (s.withSqpoll.ubdma client) := by
  unfold ubdma
  -- No field that `ubdma` reads depends on the mode.
  cases hbuf : s.srv.currentKernelBuf with
  | none =>
    have hpoll : s.withSqpoll.srv.currentKernelBuf = none := hbuf
    rw [hpoll]
    exact .refl hoff
  | some bufId =>
    have hpoll : s.withSqpoll.srv.currentKernelBuf = some bufId := hbuf
    rw [hpoll]
    simp only
    generalize hrequests : Http.parseHttpMethodsPaths 50
      (Trim.lTrim256 (bufferSlice s.srv bufId BUFFER_SIZE)) = requests
    have hparsed : Http.parseHttpMethodsPaths 50
      (Trim.lTrim256 (bufferSlice s.withSqpoll.srv bufId BUFFER_SIZE)) = requests := hrequests
    rw [hparsed]
    split
    · exact .refl hoff
    generalize hlake : s.srv.clientOutBuffers.get client.clientId.toNat = stored
    have hpollLake : s.withSqpoll.srv.clientOutBuffers.get client.clientId.toNat = stored := hlake
    rw [hpollLake]
    cases stored with
    | none => exact .refl hoff
    | some lake =>
      simp only
      split
      · exact .refl hoff
      generalize hreplies : replyLoop s.srv.date
        (Trim.lTrim256 (bufferSlice s.srv bufId BUFFER_SIZE)) requests s.srv.hotInternalCache
        s.srv.hotDataLake 0 = replied
      have hpollReplies : replyLoop s.withSqpoll.srv.date
        (Trim.lTrim256 (bufferSlice s.withSqpoll.srv bufId BUFFER_SIZE)) requests
        s.withSqpoll.srv.hotInternalCache s.withSqpoll.srv.hotDataLake 0 = replied := hreplies
      rw [hpollReplies]
      cases replied with
      | error why => exact .error why
      | ok result =>
        obtain ⟨cache, hot, totalLen⟩ := result
        exact .refl hoff

theorem lags_requestReply (flags : Nat)
    (userData : UserData) (result : Int) :
    Lags (s.requestReply inp flags userData result)
      (s.withSqpoll.requestReply inp flags userData result) := by
  unfold requestReply
  simp only
  split
  · exact .refl hoff
  split
  · exact .error .panic
  generalize hbuffer : bufferSlice s.srv (flags >>> 16 % 2 ^ 16) result.toNat = buffer
  have hpoll : bufferSlice s.withSqpoll.srv (flags >>> 16 % 2 ^ 16) result.toNat = buffer :=
    hbuffer
  rw [hpoll]
  generalize hreplies : replyLoop s.srv.date buffer (Http.parseHttpMethodsPaths 50 buffer)
    s.srv.hotInternalCache s.srv.hotDataLake 0 = replied
  have hpollReplies : replyLoop s.withSqpoll.srv.date buffer
    (Http.parseHttpMethodsPaths 50 buffer) s.withSqpoll.srv.hotInternalCache
    s.withSqpoll.srv.hotDataLake 0 = replied := hreplies
  rw [hpollReplies]
  cases replied with
  | error why => exact .error why
  | ok result =>
    obtain ⟨cache, hot, totalLen⟩ := result
    simp only
    generalize hlake : s.srv.clientOutBuffers.get userData.clientId.toNat = stored
    have hpollLake : s.withSqpoll.srv.clientOutBuffers.get userData.clientId.toNat = stored :=
      hlake
    rw [hpollLake]
    cases stored with
    | none => exact .error .vacantSlot
    | some lake =>
      simp only
      -- Only the submit call at the threshold tells the modes apart.
      by_cases hpart :
          (s.srv.releasedBuffers ++ [flags >>> 16 % 2 ^ 16]).length = RELEASE_PART
      · have hsame : (s.withSqpoll.srv.releasedBuffers ++ [flags >>> 16 % 2 ^ 16]).length
          = RELEASE_PART := hpart
        rw [if_pos hpart, if_pos hsame]
        refine lags_releaseBuffers ?_ inp false
        exact hoff
      · have hsame : ¬ (s.withSqpoll.srv.releasedBuffers ++ [flags >>> 16 % 2 ^ 16]).length
          = RELEASE_PART := hpart
        rw [if_neg hpart, if_neg hsame]
        exact .refl hoff

omit hoff in
theorem withSqpoll_closeConnection (s : Reactor) (clientId : Nat) (force : Bool) :
    s.withSqpoll.closeConnection clientId force
      = (s.closeConnection clientId force).withSqpoll := by
  unfold closeConnection
  cases force with
  | false =>
    show (if (s.srv.clientFds.get clientId).getD 0xFF = 0 then _ else _) = _
    simp only [Bool.not_false, if_true]
    split <;> rfl
  | true =>
    show (if (s.srv.clientFds.remove clientId).1.getD 0xFF = 0 then _ else _) = _
    simp only [Bool.not_true, Bool.false_eq_true, if_false]
    split <;> rfl

theorem sqpoll_closeConnection (clientId : Nat) (force : Bool) :
    (s.closeConnection clientId force).srv.sqpollEnabled = false := by
  unfold closeConnection
  cases force with
  | false =>
    simp only [Bool.not_false, if_true]
    split <;> exact hoff
  | true =>
    simp only [Bool.not_true, Bool.false_eq_true, if_false]
    split <;> exact hoff

theorem lags_processEntryResponse (userData : UInt64)
    (result : Int) (flags : Nat) :
    Lags (s.processEntryResponse inp userData result flags)
      (s.withSqpoll.processEntryResponse inp userData result flags) := by
  unfold processEntryResponse
  simp only [withSqpoll_closeConnection]
  split
  · exact .refl hoff
  split
  · exact lags_releaseBuffers hoff inp false
  split
  · exact .refl hoff
  split
  · exact .refl (sqpoll_closeConnection hoff _ true)
  split
  · exact .refl hoff
  show Lags _ (if _ = POLL_EVENT ∧ s.srv.ubKernelDma = true then _ else _)
  split
  · exact lags_ubdma hoff _
  split
  · exact .refl hoff
  split
  · exact lags_requestReply hoff inp flags _ result
  · exact .refl hoff

theorem lags_processEntry (cqe : Cqe) :
    Lags (s.processEntry inp cqe) (s.withSqpoll.processEntry inp cqe) := by
  unfold processEntry
  split
  · exact .refl hoff
  split
  · exact lags_processEntryAccept hoff cqe.result
  split
  · exact lags_processEntryResponse hoff inp cqe.userData cqe.result cqe.flags
  · exact .refl hoff

theorem lags_widebandSend : Lags s.widebandSend s.withSqpoll.widebandSend := by
  unfold widebandSend
  show Lags _ (if s.srv.clientOutBuffers.iter.length = 0 then _ else _)
  split
  · exact .refl hoff
  simp only
  generalize hpush : s.sq.pushMultiple (sendEntries s.srv.clientFds s.srv.clientOutBuffers)
    = pushed
  have hpoll : s.withSqpoll.sq.pushMultiple
    (sendEntries s.withSqpoll.srv.clientFds s.withSqpoll.srv.clientOutBuffers) = pushed := hpush
  rw [hpoll]
  show Lags _ (if (sendEntries s.srv.clientFds s.srv.clientOutBuffers).length > 0 then _ else _)
  split
  · cases pushed with
    | none => exact .error .panic
    | some sq => exact .refl hoff
  · exact .refl hoff

omit hoff in
theorem withSqpoll_tick (s : Reactor) (inp : Input) :
    s.withSqpoll.tick inp = (s.tick inp).withSqpoll := by
  unfold tick
  show (if inp.clock ≠ s.srv.synced then _ else _) = _
  split <;> rfl

/-! ### The steps -/

/-- An error stops both. -/
theorem Lags.orStop {r r' : Except Stop Reactor} (h : Lags r r') :
    Behind (s.withSqpoll.orStop r') (s.orStop r) := by
  cases h with
  | error why => exact ⟨hoff, .refl _⟩
  | ok h => exact h

theorem serverStep_withSqpoll {t : Reactor}
    (h : s.serverStep inp = some t) :
    ∃ u, s.withSqpoll.serverStep inp = some u ∧ Behind u t := by
  have hpoll : s.withSqpoll.pc = s.pc := rfl
  -- The two differ only in the entries that the kernel has taken, so they branch alike.
  unfold serverStep at h ⊢
  cases hpc : s.pc with
  | top =>
    have htick : (s.tick inp).srv.sqpollEnabled = false := by
      obtain ⟨_, _, _, _, heq⟩ := s.tick_eq inp
      rw [heq]
      exact hoff
    simp only [hpoll, hpc, withSqpoll_tick] at h ⊢
    split at h
    · next hempty =>
      cases h
      exact ⟨_, if_pos hempty,
        (lags_widebandSend (s := { s.tick inp with pc := .sync }) htick).orStop htick⟩
    · next hbatch =>
      cases h
      exact ⟨_, if_neg hbatch, ⟨htick, .refl _⟩⟩
  | sync =>
    simp only [hpoll, hpc] at h ⊢
    split at h
    · next hsync =>
      cases h
      exact ⟨_, if_pos hsync, ⟨hoff, .refl _⟩⟩
    · next hsync =>
      cases h
      exact ⟨_, if_neg hsync, ⟨hoff, .refl _⟩⟩
  | reap =>
    simp only [hpoll, hpc] at h ⊢
    split at h
    · next hempty =>
      cases h
      exact ⟨_, if_pos hempty, ⟨hoff, .refl _⟩⟩
    · next hbatch =>
      cases h
      exact ⟨_, if_neg hbatch, ⟨hoff, .refl _⟩⟩
  | submit =>
    -- Here the plain server hands its entries over at once. With SQPOLL they lag behind.
    have hcatch : ∀ pc, Behind { s.withSqpoll with pc := pc } { s.submitAll with pc := pc } := by
      intro pc
      rw [← submitAll_pc]
      exact behind_submitAll (s := { s with pc := pc }) hoff
    simp only [hpoll, hpc] at h ⊢
    split at h
    · next hempty =>
      split at h
      · next hwait =>
        cases h
        exact ⟨_, (if_pos hempty).trans (if_pos hwait), hcatch .waiting⟩
      · next hwait =>
        cases h
        exact ⟨_, (if_pos hempty).trans (if_neg hwait), ⟨hoff, .refl _⟩⟩
    · next hbatch =>
      split at h
      · next hfull =>
        split at h
        · next hok =>
          cases h
          exact ⟨_, (if_neg hbatch).trans ((if_pos hfull).trans (if_pos hok)), hcatch .process⟩
        · next hok =>
          cases h
          exact ⟨_, (if_neg hbatch).trans ((if_pos hfull).trans (if_neg hok)),
            ⟨hoff, .refl _⟩⟩
      · next hroom =>
        cases h
        exact ⟨_, (if_neg hbatch).trans (if_neg hroom), ⟨hoff, .refl _⟩⟩
  | waiting =>
    simp only [hpoll, hpc] at h ⊢
    split at h
    · cases h
    · next hbatch =>
      cases h
      exact ⟨_, if_neg hbatch, ⟨hoff, .refl _⟩⟩
  | process =>
    simp only [hpoll, hpc] at h ⊢
    have hcq : s.withSqpoll.cq = s.cq := rfl
    rw [hcq]
    cases hbatch : s.cq with
    | nil =>
      rw [hbatch] at h
      cases h
      exact ⟨_, rfl, ⟨hoff, .refl _⟩⟩
    | cons cqe rest =>
      rw [hbatch] at h
      cases h
      refine ⟨_, rfl, ?_⟩
      exact (lags_processEntry (s := { s with cq := rest, pc := .process }) hoff inp cqe).orStop
        (s := { s with cq := rest, pc := .process }) hoff
  | idle =>
    simp only [hpoll, hpc] at h ⊢
    split at h
    · next hquiet =>
      cases h
      exact ⟨_, if_pos hquiet,
        (lags_releaseBuffers (s := { s with pc := .top }) hoff inp true).orStop hoff⟩
    · next hbusy =>
      cases h
      exact ⟨_, if_neg hbusy, ⟨hoff, .refl _⟩⟩
  | release idle =>
    simp only [hpoll, hpc] at h ⊢
    cases h
    exact ⟨_, rfl, (lags_releaseRound hoff inp idle).orStop hoff⟩
  | stopped why =>
    simp only [hpc] at h
    cases h

/-- The kernel does the same in both modes. Its thread runs in one of them only. -/
theorem kernelStep_withSqpoll {k : KernelAct} {t : Reactor}
    (h : s.kernelStep k = some t) :
    isSqThread (.kernel k) = false ∧ t.srv.sqpollEnabled = false ∧
      s.withSqpoll.kernelStep k = some t.withSqpoll := by
  cases k with
  | sqThread =>
    -- Without SQPOLL there is no thread to take an entry.
    simp only [kernelStep, hoff, Bool.false_eq_true, if_false] at h
    cases h
  | accept fd more | acceptEnd err =>
    simp only [kernelStep] at h
    split at h
    · next hcond =>
      cases h
      exact ⟨rfl, hoff, if_pos hcond⟩
    · cases h
  | recvData i _ _ _ | recvEnd i _ =>
    -- The armed operations are those of the plain server.
    have hpoll : s.withSqpoll.kern.recvs[i]? = s.kern.recvs[i]? := rfl
    simp only [kernelStep] at h ⊢
    rw [hpoll]
    cases hop : s.kern.recvs[i]? with
    | none =>
      rw [hop] at h
      cases h
    | some op =>
      simp only [hop] at h ⊢
      split at h
      · next hcond =>
        cases h
        exact ⟨rfl, hoff, if_pos hcond⟩
      · cases h
  | pollEvent i _ _ | pollEnd i _ =>
    have hpoll : s.withSqpoll.kern.polls[i]? = s.kern.polls[i]? := rfl
    simp only [kernelStep] at h ⊢
    rw [hpoll]
    cases hop : s.kern.polls[i]? with
    | none =>
      rw [hop] at h
      cases h
    | some op =>
      simp only [hop] at h ⊢
      split at h
      · next hcond =>
        cases h
        exact ⟨rfl, hoff, if_pos hcond⟩
      · cases h
  | sendDone i _ | sendFail i _ =>
    have hpoll : s.withSqpoll.kern.sends[i]? = s.kern.sends[i]? := rfl
    simp only [kernelStep] at h ⊢
    rw [hpoll]
    cases hop : s.kern.sends[i]? with
    | none =>
      rw [hop] at h
      cases h
    | some op =>
      simp only [hop] at h ⊢
      split at h
      · next hcond =>
        cases h
        exact ⟨rfl, hoff, if_pos hcond⟩
      · cases h

end

/-! ### The runs -/

/-- The actions that a plain run has, too. -/
def plainActs (as : List Act) : List Act := as.filter fun a => !isSqThread a

theorem plainActs_append (as bs : List Act) :
    plainActs (as ++ bs) = plainActs as ++ plainActs bs := List.filter_append as bs

theorem plainActs_of_sqThread {as : List Act} (h : ∀ a ∈ as, isSqThread a = true) :
    plainActs as = [] := by
  rw [plainActs, List.filter_eq_nil_iff]
  intro a ha
  rw [h a ha]
  exact Bool.false_ne_true

theorem plainActs_singleton {a : Act} (h : isSqThread a = false) : plainActs [a] = [a] := by
  rw [plainActs, List.filter_singleton, h]
  rfl

/-- One step, and what the kernel thread does behind it. -/
theorem step_withSqpoll {s t : Reactor} {a : Act} (hoff : s.srv.sqpollEnabled = false)
    (h : s.step a = some t) :
    t.srv.sqpollEnabled = false ∧ ∃ bs,
      Run step (fun _ _ => True) s.withSqpoll bs t.withSqpoll ∧ plainActs bs = [a] := by
  cases a with
  | server inp =>
    obtain ⟨u, hserver, hplain, as, hrun, has⟩ := serverStep_withSqpoll hoff inp h
    have hstep : s.withSqpoll.step (.server inp) = some u := hserver
    refine ⟨hplain, [.server inp] ++ as, (Run.single trivial hstep).trans hrun, ?_⟩
    rw [plainActs_append, plainActs_of_sqThread has, List.append_nil]
    exact plainActs_singleton rfl
  | kernel k =>
    obtain ⟨hact, hplain, hkernel⟩ := kernelStep_withSqpoll hoff h
    have hstep : s.withSqpoll.step (.kernel k) = some t.withSqpoll := hkernel
    exact ⟨hplain, [.kernel k], Run.single trivial hstep, plainActs_singleton hact⟩

theorem run_withSqpoll {guard : Reactor → Act → Prop} {s t : Reactor} {as : List Act}
    (hoff : s.srv.sqpollEnabled = false) (h : Run step guard s as t) :
    t.srv.sqpollEnabled = false ∧ ∃ bs,
      Run step (fun _ _ => True) s.withSqpoll bs t.withSqpoll ∧ plainActs bs = as := by
  induction h with
  | nil => exact ⟨hoff, [], .nil _, rfl⟩
  | snoc _ _ hstep ih =>
    obtain ⟨hplain, bs, hrun, hbs⟩ := ih
    obtain ⟨hplain', cs, hnext, hcs⟩ := step_withSqpoll hplain hstep
    refine ⟨hplain', bs ++ cs, hrun.trans hnext, ?_⟩
    rw [plainActs_append, hbs, hcs]

/-! ### The start -/

theorem armAccepts_drain (n : Nat) (q : SubmissionQueue Entry) :
    armAccepts n q.drain = (armAccepts n q).map SubmissionQueue.drain := by
  induction n generalizing q with
  | zero => rfl
  | succ n ih =>
    have hpush : q.drain.push .acceptMulti = (q.push .acceptMulti).map SubmissionQueue.drain :=
      q.pushMultiple_drain [.acceptMulti]
    rw [armAccepts, armAccepts, hpush]
    cases q.push .acceptMulti with
    | none => rfl
    | some q' => exact ih q'

theorem published_armAccepts {n : Nat} {q q' : SubmissionQueue Entry}
    (h : armAccepts n q = some q') : q'.published = q.published := by
  induction n generalizing q with
  | zero =>
    cases h
    rfl
  | succ n ih =>
    obtain ⟨mid, hmid, hrest⟩ := Option.bind_eq_some_iff.mp h
    rw [ih hrest, (SubmissionQueue.pushMultiple_eq_some hmid).2.2.1]

/-- With SQPOLL the start ends as well, and the kernel thread has yet to take the buffers. -/
theorem start_withSqpoll {cfg : Config} {fuel : Nat} {s : Reactor}
    (hoff : cfg.sqpollEnabled = false) (h : start cfg fuel = some s) :
    ∃ u, start { cfg with sqpollEnabled := true } fuel = some u ∧ Behind u s := by
  unfold start at h
  obtain ⟨s₁, hreg, hrest⟩ := Option.bind_eq_some_iff.mp h
  obtain ⟨drained, harm, rfl⟩ := Option.map_eq_some_iff.mp hrest
  unfold registerBuffers at hreg
  obtain ⟨sq, hpush, rfl⟩ := Option.map_eq_some_iff.mp hreg
  have hplain : ∀ q : Reactor, q.srv.sqpollEnabled = false → q.submitAll
      = { q with sq := q.sq.drain, kern := q.sq.published.foldl Kernel.submit q.kern } := by
    intro q hq
    exact if_neg (by rw [hq]; exact Bool.false_ne_true)
  rw [hplain { fresh cfg with sq := sq.sync } hoff] at harm ⊢
  -- The accepts are pushed behind entries that the plain kernel has taken.
  rw [armAccepts_drain] at harm
  obtain ⟨armedSq, harmed, rfl⟩ := Option.map_eq_some_iff.mp harm
  rw [hplain { fresh cfg with sq := armedSq.drain, kern := _ } hoff]
  let u : Reactor := { (fresh cfg).withSqpoll with
    srv := { (fresh cfg).withSqpoll.srv with
      clientFds := reserveWritesBuffer 100 (fresh cfg).srv.clientFds }
    sq := armedSq }
  refine ⟨u, ?_, hoff, ?_⟩
  · have hpoll : ∀ q : SubmissionQueue Entry,
        ({ (fresh cfg).withSqpoll with sq := q } : Reactor).submitAll
          = { (fresh cfg).withSqpoll with sq := q } := fun q => if_pos rfl
    have hreg : registerBuffers fuel (fresh { cfg with sqpollEnabled := true })
        = some { (fresh cfg).withSqpoll with sq := sq.sync } := by
      show ((fresh cfg).sq.pushLoop registerEntries fuel).map
        (fun q => ({ (fresh cfg).withSqpoll with sq := q.sync } : Reactor).submitAll) = _
      rw [hpush, Option.map_some, hpoll]
    rw [start, hreg, Option.bind_some]
    simp only [harmed, Option.map_some, hpoll]
    rfl
  · have hcatch := catches_drain u rfl
    have hdrained : armedSq.drain.drain = armedSq.drain :=
      SubmissionQueue.drain_of_published_nil rfl
    rw [published_armAccepts harmed] at hcatch
    simp only [hdrained]
    exact hcatch

/-- A plain run is a run with SQPOLL, up to what the kernel thread does: the actions are the same,
and so is the state at the end, with the whole log. -/
theorem sqpoll_covers_plain {cfg : Config} {fuel : Nat} {guard : Reactor → Act → Prop}
    {s₀ s : Reactor} {as : List Act} (hoff : cfg.sqpollEnabled = false)
    (hstart : start cfg fuel = some s₀) (h : Run step guard s₀ as s) :
    ∃ u₀ bs, start { cfg with sqpollEnabled := true } fuel = some u₀ ∧
      Run step (fun _ _ => True) u₀ bs s.withSqpoll ∧ plainActs bs = as := by
  obtain ⟨u₀, hu₀, hplain, cs, hcatch, hcs⟩ := start_withSqpoll hoff hstart
  obtain ⟨_, bs, hrun, hbs⟩ := run_withSqpoll hplain h
  refine ⟨u₀, cs ++ bs, hu₀, hcatch.trans hrun, ?_⟩
  rw [plainActs_append, plainActs_of_sqThread hcs, hbs, List.nil_append]

/-- The log holds an answer to client 100. -/
def answered100 (s : Reactor) : Bool :=
  s.log.any fun e =>
    match e with
    | .replied c bytes => c = 100 && bytes ≠ []
    | _ => false

/-- A request is answered with SQPOLL. -/
theorem sqpoll_covers_plain_served : ∃ u₀ bs t,
    start { plainConfig with sqpollEnabled := true } 1 = some u₀ ∧
      Run step (fun _ _ => True) u₀ bs t ∧ t.srv.sqpollEnabled = true ∧
      t.answered100 = true := by
  have hboot : ∃ as, Run step (fun _ _ => True) started as ready :=
    run_ready fun _ _ _ => trivial
  have hexec : (Run.exec step (fun _ _ => true) ready (connect ++ serve)).any answered100
      = true := by
    decide +kernel
  have hconn : ∃ t, Run step (fun _ _ => True) ready (connect ++ serve) t ∧ t.answered100 = true :=
    Run.exists_of_exec (fun _ _ _ => trivial) hexec
  obtain ⟨as, hready⟩ := hboot
  obtain ⟨t, hserved, hlog⟩ := hconn
  obtain ⟨u₀, bs, hstart, hrun, _⟩ :=
    sqpoll_covers_plain rfl start_plainConfig (hready.trans hserved)
  exact ⟨u₀, bs, t.withSqpoll, hstart, hrun, rfl, hlog⟩

end Reactor

end Tachyon
