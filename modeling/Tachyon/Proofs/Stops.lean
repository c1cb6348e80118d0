import Tachyon.Proofs.Accept
import Tachyon.Proofs.Deliveries
import Tachyon.Proofs.Lifecycle
import Tachyon.Proofs.Shifts

/-!
# `Tachyon.Proofs.Stops`: what stops the loop

`Fails` says for each place of the loop when the next server step ends `sq_poll`, and how: with a
submit call that fails, with the `unwrap` of the flush or the `insert` of an accept that panics, or
with the access to a vacant client slot, which nothing checks.

* `stops_iff`: in a reachable state the step stops the loop exactly then;
* `stopped_iff`: a run has stopped exactly when one of its server steps was taken in such a state.

Everything else that the functions could stop with does not happen: the responses always fit into
`hot_internal_cache`, buffer ids are always in range, a write of responses into an output buffer
never fails, and a poll never stops the loop.
-/

set_option autoImplicit false

namespace Tachyon

namespace Reactor

variable {s t : Reactor} {inp : Input} {why : Stop} {cqe : Cqe}

/-! ### The causes -/

/-- `process_entry` stops the loop with a completion. -/
inductive EntryFails (srv : Server) (log : List Event) (inp : Input) (cqe : Cqe) : Stop → Prop
  /-- The table is full: as many clients were accepted since the start. -/
  | accept : cqe.userData = CODE_ACCEPT → 0 < cqe.result → 65435 ≤ acceptCount log →
      EntryFails srv log inp cqe .panic
  /-- Data of a client that was closed. -/
  | gone {fd : RawFd} : cqe.Delivers srv.ubKernelDma →
      .closed (clientOf cqe.userData) fd ∈ log → EntryFails srv log inp cqe .vacantSlot
  /-- The submit call of the `release_buffers` for the threshold. -/
  | part {lake : OutBuffer} : cqe.Delivers srv.ubKernelDma →
      srv.clientOutBuffers.get (clientOf cqe.userData) = some lake →
      srv.releasedBuffers.length + 1 = RELEASE_PART → inp.submitOk = false →
      EntryFails srv log inp cqe .ioError
  /-- The submit call of the `release_buffers` for `ENOBUFS`. -/
  | noBuffers : REQ_RESP_OFFSET ≤ cqe.userData → cqe.result = -ENOBUFS →
      srv.releasedBuffers ≠ [] → inp.submitOk = false → EntryFails srv log inp cqe .ioError

/-- The next server step stops the loop. -/
def Fails (s : Reactor) (inp : Input) (why : Stop) : Prop :=
  match s.pc with
  -- `sq.push_multiple(&entries).unwrap()`
  | .top => s.cq = [] ∧
      s.sq.free < (sendEntries s.srv.clientFds s.srv.clientOutBuffers).length ∧ why = .panic
  | .submit => why = .ioError ∧ if s.cq = [] then inp.waitOk = false
      else s.sq.capacity - 4 ≤ s.sq.len ∧ inp.submitOk = false
  | .process => ∃ cqe, s.cq.head? = some cqe ∧ EntryFails s.srv s.log inp cqe why
  | .idle => s.srv.rps = 0 ∧ s.srv.releasedBuffers ≠ [] ∧ inp.submitOk = false ∧ why = .ioError
  | .release _ => s.ReleaseFits ∧ inp.waitOk = false ∧ why = .ioError
  | _ => False

/-! ### The functions -/

theorem ok_ne_error (u : Reactor) : (.ok u : Except Stop Reactor) ≠ .error why := by
  intro h
  cases h

theorem pc_orStop_iff {r : Except Stop Reactor} (h : ∀ u, r = .ok u → ¬ u.Stopped) :
    (s.orStop r).pc = .stopped why ↔ r = .error why := by
  cases r with
  | ok u =>
    exact iff_of_false (fun hpc => h u rfl ⟨why, hpc⟩) (ok_ne_error u)
  | error e =>
    show Pc.stopped e = .stopped why ↔ _
    rw [Pc.stopped.injEq, Except.error.injEq]

theorem releaseBuffers_eq_error_iff {idle : Bool}
    (hids : ∀ id ∈ s.srv.releasedBuffers, id < BUFFERS_COUNT) :
    s.releaseBuffers inp idle = .error why
      ↔ s.srv.releasedBuffers ≠ [] ∧ inp.submitOk = false ∧ why = .ioError := by
  have hall : s.srv.releasedBuffers.all (· < BUFFERS_COUNT) = true := by
    rw [List.all_eq_true]
    intro id hid
    exact decide_eq_true (hids id hid)
  rw [releaseBuffers]
  by_cases hnil : s.srv.releasedBuffers = []
  · rw [if_pos (by rw [hnil, List.length_nil])]
    exact iff_of_false (ok_ne_error _) fun h => h.1 hnil
  rw [if_neg fun hlen => hnil (List.eq_nil_of_length_eq_zero hlen)]
  by_cases hok : inp.submitOk = false
  · rw [if_pos hok, Except.error.injEq]
    exact ⟨fun h => ⟨hnil, hok, h.symm⟩, fun h => h.2.2.symm⟩
  · rw [if_neg hok, hall, if_neg (by decide)]
    exact iff_of_false (ok_ne_error _) fun h => hok h.2.1

theorem releaseRound_eq_error_iff {idle : Bool} : s.releaseRound inp idle = .error why
    ↔ s.ReleaseFits ∧ inp.waitOk = false ∧ why = .ioError := by
  have hfull := s.sq.pushMultiple_eq_none_iff s.releaseEntries
  rw [length_releaseEntries] at hfull
  rw [releaseRound]
  cases hpush : s.sq.pushMultiple s.releaseEntries with
  | none => exact iff_of_false (ok_ne_error _) fun h => absurd h.1 (Nat.not_le.mpr (hfull.mp hpush))
  | some sq =>
    have hfits : s.ReleaseFits := by
      refine Nat.not_lt.mp fun hlt => ?_
      rw [hfull.mpr hlt] at hpush
      cases hpush
    by_cases hok : inp.waitOk = false
    · simp only [if_pos hok, Except.error.injEq]
      exact ⟨fun h => ⟨hfits, hok, h.symm⟩, fun h => h.2.2.symm⟩
    · simp only [if_neg hok]
      exact iff_of_false (ok_ne_error _) fun h => hok h.2.1

theorem widebandSend_eq_error_iff : s.widebandSend = .error why
    ↔ s.sq.free < (sendEntries s.srv.clientFds s.srv.clientOutBuffers).length ∧
      why = .panic := by
  have hfull := s.sq.pushMultiple_eq_none_iff
    (sendEntries s.srv.clientFds s.srv.clientOutBuffers)
  rw [widebandSend]
  split
  · rename_i hnone
    rw [sendEntries_of_iter_nil _ (List.eq_nil_of_length_eq_zero hnone)]
    exact iff_of_false (ok_ne_error _) fun h => Nat.not_lt_zero _ h.1
  simp only
  split
  · cases hpush : s.sq.pushMultiple (sendEntries s.srv.clientFds s.srv.clientOutBuffers) with
    | none =>
      rw [Except.error.injEq]
      exact ⟨fun h => ⟨hfull.mp hpush, h.symm⟩, fun h => h.2.symm⟩
    | some sq =>
      refine iff_of_false (ok_ne_error _) fun h => ?_
      rw [hfull.mpr h.1] at hpush
      cases hpush
  · rename_i hempty
    exact iff_of_false (ok_ne_error _) fun h => hempty (Nat.zero_lt_of_lt h.1)

theorem processEntryAccept_eq_error_iff {result : Int} :
    s.processEntryAccept result = .error why ↔ 0 < result ∧
      s.srv.clientOutBuffers.capacity ≤ s.srv.clientFds.next ∧ why = .panic := by
  have hfull := s.srv.clientOutBuffers.insert_eq_none_iff s.srv.clientFds.next SmallLake.build
  rw [processEntryAccept]
  simp only [ExternStableVec.fst_push]
  by_cases hfd : result ≤ 0
  · rw [if_pos hfd]
    exact iff_of_false (ok_ne_error _) fun h => absurd h.1 (not_lt.mpr hfd)
  rw [if_neg hfd]
  cases hins : s.srv.clientOutBuffers.insert s.srv.clientFds.next SmallLake.build with
  | none =>
    simp only [Except.error.injEq]
    exact ⟨fun h => ⟨not_le.mp hfd, hfull.mp hins, h.symm⟩, fun h => h.2.2.symm⟩
  | some lakes =>
    refine iff_of_false (ok_ne_error _) fun h => ?_
    rw [hfull.mpr h.2.1] at hins
    cases hins

/-- A stored client and the submit call at the threshold decide what `request_reply` does. -/
theorem requestReply_eq_error_iff {flags : Nat} {user : UserData} {result : Int}
    (hlen : result ≤ BUFFER_SIZE) (hid : flags >>> 16 % 2 ^ 16 < BUFFERS_COUNT)
    (hids : ∀ id ∈ s.srv.releasedBuffers, id < BUFFERS_COUNT) :
    s.requestReply inp flags user result = .error why ↔
      s.srv.clientOutBuffers.get user.clientId.toNat = none ∧ why = .vacantSlot ∨
        ∃ lake, s.srv.clientOutBuffers.get user.clientId.toNat = some lake ∧
          s.srv.releasedBuffers.length + 1 = RELEASE_PART ∧ inp.submitOk = false ∧
          why = .ioError := by
  cases hget : s.srv.clientOutBuffers.get user.clientId.toNat with
  | none =>
    -- The handlers have run when the vacant slot is reached.
    obtain ⟨cache, hot, n, hloop, _⟩ := replyLoop_eq s.srv.date
      (bufferSlice s.srv (flags >>> 16 % 2 ^ 16) result.toNat) s.srv.hotInternalCache
      s.srv.hotDataLake
    have heq : s.requestReply inp flags user result = .error .vacantSlot := by
      unfold requestReply
      simp only [if_neg (not_lt.mpr hlen), if_neg (not_le.mpr hid), hloop, hget]
    rw [heq, Except.error.injEq]
    refine ⟨fun h => .inl ⟨rfl, h.symm⟩, ?_⟩
    rintro (⟨_, rfl⟩ | ⟨lake, hlake, _⟩)
    · rfl
    · cases hlake
  | some lake =>
    obtain ⟨cache, hot, heq⟩ := requestReply_eq hlen hid hget inp
    rw [heq]
    generalize lake.write (s.block (bufferSlice s.srv (flags >>> 16 % 2 ^ 16) result.toNat))
      = lake'
    -- A stored client: only the hand-over at the threshold can fail.
    by_cases hpart : s.srv.releasedBuffers.length + 1 = RELEASE_PART
    · have hall : ∀ id ∈ (s.answered (flags >>> 16 % 2 ^ 16) user result.toNat cache hot
          lake').srv.releasedBuffers, id < BUFFERS_COUNT := by
        intro id hmem
        rcases List.mem_append.mp hmem with hold | hnew
        · exact hids id hold
        · rw [List.mem_singleton.mp hnew]
          exact hid
      rw [if_pos hpart, releaseBuffers_eq_error_iff hall]
      constructor
      · intro h
        exact .inr ⟨lake, rfl, hpart, h.2⟩
      · rintro (⟨hnone, _⟩ | ⟨_, _, _, h⟩)
        · cases hnone
        · exact ⟨List.append_ne_nil_of_right_ne_nil _ (List.cons_ne_nil _ _), h⟩
    · rw [if_neg hpart]
      refine iff_of_false (ok_ne_error _) ?_
      rintro (⟨hnone, _⟩ | ⟨_, _, h, _⟩)
      · cases hnone
      · exact hpart h

/-! ### One completion -/

/-- What is known of a completion at hand, so that only the causes are left. -/
structure Regular (s : Reactor) (cqe : Cqe) : Prop where
  released_lt : ∀ id ∈ s.srv.releasedBuffers, id < BUFFERS_COUNT
  buffer_lt : cqe.Delivers s.srv.ubKernelDma → cqe.flags >>> 16 % 2 ^ 16 < BUFFERS_COUNT
  result_le : cqe.Delivers s.srv.ubKernelDma → cqe.result ≤ BUFFER_SIZE
  vacant_iff : cqe.Delivers s.srv.ubKernelDma →
    (s.srv.clientOutBuffers.get (clientOf cqe.userData) = none
      ↔ ∃ fd, .closed (clientOf cqe.userData) fd ∈ s.log)
  full_iff : s.srv.clientOutBuffers.capacity ≤ s.srv.clientFds.next
    ↔ 65435 ≤ acceptCount s.log

/-- The codes below those of the clients. -/
theorem processEntry_of_not_le (h : ¬ REQ_RESP_OFFSET ≤ cqe.userData) :
    s.processEntry inp cqe
      = if cqe.userData = CODE_ACCEPT then s.processEntryAccept cqe.result else .ok s := by
  rw [processEntry]
  by_cases hreg : cqe.userData = BUFFER_REGISTER_CODE ∧ cqe.result = 0 ∧ cqe.flags = 0
  · have hne : cqe.userData ≠ CODE_ACCEPT := by
      rw [hreg.1]
      decide
    rw [if_pos hreg, if_neg hne]
  · rw [if_neg hreg, if_neg h]

theorem processEntry_noBuffers (hu : REQ_RESP_OFFSET ≤ cqe.userData)
    (hres : cqe.result = -ENOBUFS) :
    s.processEntry inp cqe = s.releaseBuffers inp false := by
  have hreg : ¬ (cqe.userData = BUFFER_REGISTER_CODE ∧ cqe.result = 0 ∧ cqe.flags = 0) := by
    rintro ⟨_, hzero, _⟩
    rw [hres] at hzero
    exact absurd hzero (by decide)
  have hacc : cqe.userData ≠ CODE_ACCEPT := fun h => not_le_of_accept h hu
  have hother : ¬ (cqe.result = -EAGAIN ∨ cqe.result = -EBADF) := by
    rw [hres]
    decide
  rw [processEntry, if_neg hreg, if_neg hacc, if_pos hu, processEntryResponse]
  simp only [if_neg hother, if_pos hres]

theorem processEntry_eq_error_iff (h : s.Regular cqe) :
    s.processEntry inp cqe = .error why ↔ EntryFails s.srv s.log inp cqe why := by
  -- The one function with two causes.
  have hdeliver : cqe.Delivers s.srv.ubKernelDma →
      (s.processEntry inp cqe = .error why ↔
        s.srv.clientOutBuffers.get (clientOf cqe.userData) = none ∧ why = .vacantSlot ∨
          ∃ lake, s.srv.clientOutBuffers.get (clientOf cqe.userData) = some lake ∧
            s.srv.releasedBuffers.length + 1 = RELEASE_PART ∧ inp.submitOk = false ∧
            why = .ioError) := by
    intro hd
    rw [processEntry_delivers hd]
    exact requestReply_eq_error_iff (h.result_le hd) (h.buffer_lt hd) h.released_lt
  constructor
  · intro herr
    by_cases hu : REQ_RESP_OFFSET ≤ cqe.userData
    · have hdis := dispatches s inp cqe
      rw [herr] at hdis
      generalize hr : Except.error why = r at hdis
      cases hdis with
      | skip | close => cases hr
      | accept hacc => exact absurd hu (not_le_of_accept hacc)
      | release hres =>
        obtain ⟨hne, hok, rfl⟩ := (releaseBuffers_eq_error_iff h.released_lt).mp hr.symm
        exact .noBuffers hu hres hne hok
      | poll hp =>
        obtain ⟨u, hok⟩ := exists_ubdma s (UserData.unpackUserData cqe.userData)
        rw [hok] at hr
        cases hr
      | reply hd =>
        rcases (hdeliver hd).mp herr with ⟨hnone, rfl⟩ | ⟨lake, hget, hlen, hok, rfl⟩
        · obtain ⟨fd, hmem⟩ := (h.vacant_iff hd).mp hnone
          exact .gone hd hmem
        · exact .part hd hget hlen hok
    · rw [processEntry_of_not_le hu] at herr
      split at herr
      · rename_i hacc
        obtain ⟨hfd, hfull, rfl⟩ := processEntryAccept_eq_error_iff.mp herr
        exact .accept hacc hfd (h.full_iff.mp hfull)
      · cases herr
  · intro hf
    cases hf with
    | accept hacc hfd hcount =>
      rw [processEntry_of_not_le (not_le_of_accept hacc), if_pos hacc]
      exact processEntryAccept_eq_error_iff.mpr ⟨hfd, h.full_iff.mpr hcount, rfl⟩
    | gone hd hmem => exact (hdeliver hd).mpr (.inl ⟨(h.vacant_iff hd).mpr ⟨_, hmem⟩, rfl⟩)
    | part hd hget hlen hok => exact (hdeliver hd).mpr (.inr ⟨_, hget, hlen, hok, rfl⟩)
    | noBuffers hu hres hne hok =>
      rw [processEntry_noBuffers hu hres]
      exact (releaseBuffers_eq_error_iff h.released_lt).mpr ⟨hne, hok, rfl⟩

/-! ### One step -/

theorem released_lt_of_reachable (h : s.Reachable) (hgo : ¬ s.Stopped) :
    ∀ id ∈ s.srv.releasedBuffers, id < BUFFERS_COUNT := by
  intro id hmem
  have hall : id ∈ s.ledger := Multiset.mem_add.mpr (.inr (Multiset.mem_coe.mpr hmem))
  rw [(conserved_of_reachable h hgo).ledger_eq, Multiset.mem_range] at hall
  exact hall

/-- The completions of a reachable state are regular. -/
theorem regular_of_reachable (h : s.Reachable) (hat : s.AtHand cqe) : s.Regular cqe := by
  have hgo : ¬ s.Stopped := by
    rintro ⟨why, hpc⟩
    rw [hat.1] at hpc
    cases hpc
  have hwf : s.view.Wf := reachable_wf h
  refine ⟨released_lt_of_reachable h hgo, fun hd => ?_, fits_of_reachable h cqe hat.mem_cq,
    fun hd => ?_, ?_⟩
  · -- The buffer of a data completion is one of the ids of the slab.
    have hcarried : cqe.flags >>> 16 % 2 ^ 16 ∈ s.ledger := by
      refine Multiset.mem_add.mpr (.inl (Multiset.mem_add.mpr (.inr (Multiset.mem_coe.mpr ?_))))
      refine List.mem_filterMap.mpr ⟨cqe, hat.mem_cq, ?_⟩
      exact if_pos hd
    rw [(conserved_of_reachable h hgo).ledger_eq, Multiset.mem_range] at hcarried
    exact hcarried
  · -- A given index is vacant when its client was closed, and only then.
    have hlife := reachable_lifecycle h
    obtain ⟨hge, hlt⟩ := hwf.client_issued hat.mem_cq hd.1
    refine (hwf.tables.paired _ hge).symm.trans ?_
    constructor
    · intro hnone
      obtain ⟨fd, _, _, hclo⟩ := hlife.vacant _ hge hlt hnone
      exact ⟨fd, hclo⟩
    · rintro ⟨fd, hclo⟩
      by_contra hsome
      obtain ⟨fd', hfd'⟩ := Option.ne_none_iff_exists'.mp hsome
      exact (hlife.stored _ fd' hge hfd').2 fd hclo
  · have hnext : s.srv.clientFds.next = 100 + acceptCount s.log := count_invariant.reachable h
    have hcap : s.srv.clientOutBuffers.capacity = 65535 := hwf.tables.capacity_eq
    rw [hnext, hcap]
    omega

theorem not_stopped_of_pc {pc : Pc} (h : s.pc = pc) (hpc : ∀ why, pc ≠ .stopped why) :
    ¬ s.Stopped := by
  rintro ⟨why, hs⟩
  exact hpc why (h.symm.trans hs)

theorem not_stopped_releaseBuffers {idle : Bool} (hgo : ¬ s.Stopped)
    (h : s.releaseBuffers inp idle = .ok t) : ¬ t.Stopped := by
  rcases releaseBuffers_cases h with ⟨_, rfl⟩ | ⟨_, rfl⟩
  · exact hgo
  · exact not_stopped_of_pc rfl (by rintro _ ⟨⟩)

theorem not_stopped_processEntry (hgo : ¬ s.Stopped) (h : s.processEntry inp cqe = .ok t) :
    ¬ t.Stopped := by
  generalize hr : s.processEntry inp cqe = r at h
  have hdis := dispatches s inp cqe
  rw [hr] at hdis
  cases hdis with
  | skip =>
    cases h
    exact hgo
  | accept => rcases processEntryAccept_cases h with ⟨_, rfl⟩ | ⟨_, _, _, rfl⟩ <;> exact hgo
  | release => exact not_stopped_releaseBuffers hgo h
  | close =>
    cases h
    have hpc : (s.closeConnection (clientOf cqe.userData) true).pc = s.pc := by
      simp only [closeConnection, Bool.not_true, Bool.false_eq_true, if_false]
      split <;> rfl
    rw [Stopped, hpc]
    exact hgo
  | poll => rcases ubdma_cases h with rfl | ⟨_, _, _, _, _, _, _, _, rfl⟩ <;> exact hgo
  | reply =>
    rcases requestReply_cases h with ⟨_, rfl⟩ | ⟨_, _, _, _, _, hrest⟩
    · exact hgo
    split at hrest
    · refine not_stopped_releaseBuffers ?_ hrest
      exact hgo
    · rw [hrest]
      exact hgo

/-- The flush. -/
theorem stops_top_iff (hpc : s.pc = .top) (ht : s.serverStep inp = some t) :
    t.pc = .stopped why ↔ s.cq = [] ∧
      s.sq.free < (sendEntries s.srv.clientFds s.srv.clientOutBuffers).length ∧ why = .panic := by
  obtain ⟨rps, now, synced, date, htick⟩ := s.tick_eq inp
  simp only [serverStep, hpc, htick] at ht
  by_cases hcq : s.cq = []
  · simp only [hcq, List.isEmpty_nil, if_true, Option.some.injEq] at ht
    rw [← ht, pc_orStop_iff ?_, widebandSend_eq_error_iff]
    · exact ⟨fun h => ⟨hcq, h⟩, fun h => h.2⟩
    · intro u hu
      obtain ⟨sq, now, _, rfl⟩ := widebandSend_cases hu
      exact not_stopped_of_pc rfl (by rintro _ ⟨⟩)
  · rw [if_neg fun hnil => hcq (List.isEmpty_iff.mp hnil), Option.some.injEq] at ht
    refine iff_of_false ?_ fun h => hcq h.1
    rw [← ht]
    rintro ⟨⟩

/-- The two submit calls of the loop itself. -/
theorem stops_submit_iff (hpc : s.pc = .submit) (ht : s.serverStep inp = some t) :
    t.pc = .stopped why ↔ why = .ioError ∧ if s.cq = [] then inp.waitOk = false
      else s.sq.capacity - 4 ≤ s.sq.len ∧ inp.submitOk = false := by
  -- Both calls have the same form, with another flag of the input.
  have hcall : ∀ {ok : Bool} {u : Reactor},
      (if ok = true then some u else some { s with pc := .stopped .ioError }) = some t →
      u.pc ≠ .stopped why → (t.pc = .stopped why ↔ why = .ioError ∧ ok = false) := by
    intro ok u hcase hu
    cases ok with
    | true =>
      cases hcase
      exact iff_of_false hu fun h => Bool.noConfusion h.2
    | false =>
      cases hcase
      show Pc.stopped .ioError = .stopped why ↔ _
      rw [Pc.stopped.injEq]
      exact ⟨fun h => ⟨h.symm, rfl⟩, fun h => h.1.symm⟩
  simp only [serverStep, hpc] at ht
  by_cases hcq : s.cq = []
  · rw [if_pos (List.isEmpty_iff.mpr hcq)] at ht
    rw [if_pos hcq]
    exact hcall ht (by rintro ⟨⟩)
  rw [if_neg fun hnil => hcq (List.isEmpty_iff.mp hnil)] at ht
  rw [if_neg hcq]
  by_cases hfull : s.sq.capacity - 4 ≤ s.sq.len
  · rw [if_pos hfull] at ht
    rw [hcall ht (by rintro ⟨⟩)]
    exact ⟨fun h => ⟨h.1, hfull, h.2⟩, fun h => ⟨h.1, h.2.2⟩⟩
  · rw [if_neg hfull, Option.some.injEq] at ht
    refine iff_of_false ?_ fun h => hfull h.2.1
    rw [← ht]
    rintro ⟨⟩

/-- The completion at hand. -/
theorem stops_process_iff (h : s.Reachable) (hpc : s.pc = .process)
    (ht : s.serverStep inp = some t) : t.pc = .stopped why ↔
      ∃ cqe, s.cq.head? = some cqe ∧ EntryFails s.srv s.log inp cqe why := by
  cases hcq : s.cq with
  | nil =>
    simp only [serverStep, hpc, hcq] at ht
    cases ht
    refine iff_of_false ?_ ?_
    · intro hpc'
      cases hpc'
    · rintro ⟨_, hhead, _⟩
      cases hhead
  | cons cqe rest =>
    have hreg := regular_of_reachable h (show s.AtHand cqe from ⟨hpc, by rw [hcq]; rfl⟩)
    have hrest : ({ s with cq := rest } : Reactor).Regular cqe :=
      ⟨hreg.released_lt, hreg.buffer_lt, hreg.result_le, hreg.vacant_iff, hreg.full_iff⟩
    have hok : ∀ u, ({ s with cq := rest } : Reactor).processEntry inp cqe = .ok u →
        ¬ u.Stopped := by
      intro u hu
      exact not_stopped_processEntry (s := { s with cq := rest })
        (not_stopped_of_pc hpc (by rintro _ ⟨⟩)) hu
    rw [serverStep_entry hpc hcq, Option.some.injEq] at ht
    rw [← ht, pc_orStop_iff hok, processEntry_eq_error_iff hrest]
    constructor
    · intro hf
      exact ⟨cqe, rfl, hf⟩
    · rintro ⟨cqe', hhead, hf⟩
      cases hhead
      exact hf

/-- The `release_buffers` at the end of the batch. -/
theorem stops_idle_iff (hids : ∀ id ∈ s.srv.releasedBuffers, id < BUFFERS_COUNT)
    (hpc : s.pc = .idle) (ht : s.serverStep inp = some t) : t.pc = .stopped why ↔
      s.srv.rps = 0 ∧ s.srv.releasedBuffers ≠ [] ∧ inp.submitOk = false ∧ why = .ioError := by
  simp only [serverStep, hpc] at ht
  by_cases hrps : s.srv.rps = 0
  · have hok : ∀ u, ({ s with pc := .top } : Reactor).releaseBuffers inp true = .ok u →
        ¬ u.Stopped := by
      intro u hu
      have htop : ({ s with pc := .top } : Reactor).pc = .top := rfl
      exact not_stopped_releaseBuffers (not_stopped_of_pc htop (by rintro _ ⟨⟩)) hu
    have hiff : ({ s with pc := .top } : Reactor).releaseBuffers inp true = .error why ↔ _ :=
      releaseBuffers_eq_error_iff hids
    rw [if_pos hrps, Option.some.injEq] at ht
    rw [← ht, pc_orStop_iff hok, hiff]
    exact ⟨fun h => ⟨hrps, h⟩, fun h => h.2⟩
  · rw [if_neg hrps, Option.some.injEq] at ht
    refine iff_of_false ?_ fun h => hrps h.1
    rw [← ht]
    rintro ⟨⟩

/-- A round of the retry loop. -/
theorem stops_round_iff {idle : Bool} (hgo : ¬ s.Stopped) (hpc : s.pc = .release idle)
    (ht : s.serverStep inp = some t) : t.pc = .stopped why ↔
      s.ReleaseFits ∧ inp.waitOk = false ∧ why = .ioError := by
  simp only [serverStep, hpc, Option.some.injEq] at ht
  rw [← ht, pc_orStop_iff ?_, releaseRound_eq_error_iff]
  intro u hu
  rcases releaseRound_cases hu with ⟨_, rfl⟩ | ⟨_, _, rfl⟩
  · exact hgo
  · cases idle <;> exact not_stopped_of_pc rfl (by rintro _ ⟨⟩)

/-- A server step stops the loop exactly in the states in which it `Fails`. -/
theorem stops_iff (h : s.Reachable) (ht : s.serverStep inp = some t) :
    t.pc = .stopped why ↔ s.Fails inp why := by
  have hgo := not_stopped_of_serverStep ht
  cases hpc : s.pc with
  | top =>
    simp only [Fails, hpc]
    exact stops_top_iff hpc ht
  | submit =>
    simp only [Fails, hpc]
    exact stops_submit_iff hpc ht
  | process =>
    simp only [Fails, hpc]
    exact stops_process_iff h hpc ht
  | idle =>
    simp only [Fails, hpc]
    exact stops_idle_iff (released_lt_of_reachable h hgo) hpc ht
  | release idle =>
    simp only [Fails, hpc]
    exact stops_round_iff hgo hpc ht
  | sync | reap | waiting =>
    simp only [Fails, hpc]
    simp only [serverStep, hpc] at ht
    refine iff_of_false ?_ id
    split at ht <;> cases ht <;> rintro ⟨⟩
  | stopped why' => exact absurd ⟨why', hpc⟩ hgo

/-! ### A run -/

/-- Nothing runs after a stop but the kernel. -/
theorem pc_of_stopped (hpc : s.pc = .stopped why) {as : List Act}
    (hrun : Run step (fun _ _ => True) s as t) : t.pc = .stopped why := by
  refine hrun.invariant (I := fun u => u.pc = .stopped why) ?_ hpc
  intro u a v hu _ ha
  cases a with
  | server inp => exact absurd ⟨why, hu⟩ (not_stopped_of_serverStep ha)
  | kernel k => exact (pc_kernelStep ha).trans hu

/-- A run has stopped exactly when one of its server steps was taken in a state in which it
`Fails`. -/
theorem stopped_iff {s₀ : Reactor} {as : List Act} (hstart : Started s₀)
    (hrun : Run step (fun _ _ => True) s₀ as s) :
    s.pc = .stopped why ↔ ∃ bs inp cs u, as = bs ++ .server inp :: cs ∧
      Run step (fun _ _ => True) s₀ bs u ∧ u.Fails inp why := by
  constructor
  · intro hpc
    have hgo : ¬ s₀.pc = .stopped why := by
      rw [(place_of_started hstart).1]
      rintro ⟨⟩
    obtain ⟨bs, a, cs, u, v, rfl, hbs, hu, ha, hv⟩ :=
      hrun.enters (B := fun u => u.pc = .stopped why) hgo hpc
    cases a with
    | server inp => exact ⟨bs, inp, cs, u, rfl, hbs, (stops_iff ⟨s₀, bs, hstart, hbs⟩ ha).mp hv⟩
    | kernel k => exact absurd ((pc_kernelStep ha).symm.trans hv) hu
  · rintro ⟨bs, inp, cs, u, rfl, hbs, hf⟩
    obtain ⟨u', hu', hrest⟩ := hrun.of_append
    cases hbs.det hu'
    have hcut : Run step (fun _ _ => True) u ([.server inp] ++ cs) s := hrest
    obtain ⟨v, hv, hcs⟩ := hcut.of_append
    have hlast : Run step (fun _ _ => True) u ([] ++ [.server inp]) v := hv
    obtain ⟨w, hw, _, ha⟩ := hlast.of_snoc
    have hnil : Run step (fun _ _ => True) u [] u := .nil u
    cases hw.det hnil
    exact pc_of_stopped ((stops_iff ⟨s₀, bs, hstart, hbs⟩ ha).mpr hf) hcs

/-- The send to client 100 fails with `-ECONNRESET`, which closes the client. Its recv is still
armed, and delivers once more. -/
theorem stopped_iff_gone : ∃ s u : Reactor, ∃ inp, s.pc = .stopped .vacantSlot ∧
    u.Fails inp .vacantSlot := by
  obtain ⟨s, hs, hp⟩ := exists_reachable
    (connect ++ serve ++ .kernel (.sendFail 0 104)
      :: .kernel (.recvData 0 1 plaintextRequest true) :: rounds 9)
    (fun s => s.pc = .stopped .vacantSlot) (by decide +kernel)
  obtain ⟨s₀, as, hstart, hrun⟩ := hs
  have hpc := of_decide_eq_true hp
  obtain ⟨_, inp, _, u, _, _, hf⟩ := (stopped_iff hstart hrun).mp hpc
  exact ⟨s, u, inp, hpc, hf⟩

end Reactor

end Tachyon
