import Tachyon.Proofs.Forward

/-!
# `Tachyon.Proofs.Accept`: how many clients a server can accept

The index of a client comes from `client_fds`, where it only grows. It is used in
`client_out_buffers`, whose capacity is fixed, and `insert` does not grow it. So an accept fails
exactly from the 65435th client on (`accept_stores_iff`), however many of them have left
(`lull_of_le`: one connection at a time is enough).
-/

set_option autoImplicit false

namespace Tachyon

def Event.isAccept : Event → Bool
  | .accepted _ _ _ => true
  | _ => false

/-- How many clients were accepted so far. -/
def acceptCount (log : List Event) : Nat := log.countP Event.isAccept

theorem acceptCount_append_of_neutral (log : List Event) {es : List Event}
    (h : ∀ e ∈ es, e.isAccept = false) : acceptCount (log ++ es) = acceptCount log := by
  have hnone : es.countP Event.isAccept = 0 := List.countP_eq_zero.mpr (by simpa using h)
  rw [acceptCount, List.countP_append, hnone]
  rfl

/-- The next index counts the clients that were accepted. -/
theorem count_invariant : Reactor.InvariantOver (fun _ _ => True) (fun _ => True)
    fun v => v.fds.next = 100 + acceptCount v.log where
  start v h := by
    rw [h.fds_next, h.log_eq]
    rfl
  effect s a v _ hs _ he := by
    -- Every event but the one of an accept leaves both sides.
    have hkeep : ∀ es : List Event, (∀ e ∈ es, e.isAccept = false) →
        s.view.fds.next = 100 + acceptCount (s.view.log ++ es) := by
      intro es hes
      rw [acceptCount_append_of_neutral _ hes]
      exact hs
    cases he with
    | quiet inp hpc => exact hs
    | provide inp ids hpc => exact hs
    | flush inp hpc => exact hkeep _ (by simp [Event.isAccept])
    | skip inp cqe hat hnc => exact hs
    | accept inp cqe lakes poll recv hat hu hfd hins hpoll hrecv =>
      show s.view.fds.next + 1 = 100 + acceptCount (s.view.log ++ [_])
      rw [acceptCount, List.countP_append, hs]
      rfl
    | close inp cqe hat hc hfd => exact hkeep _ (by simp [Event.isAccept])
    | closeStdin inp cqe hat hc hfd => exact hs
    | reply inp cqe buffer lake hat hans hget => exact hkeep _ (by simp [Event.isAccept])
    | kernelAccept fd more h0 hfree => exact hkeep _ (by simp)
    | kernelAcceptEnd err => exact hkeep _ (by simp)
    | recvData op i bufferId data more hop hid hpos hle => exact hkeep _ (by simp)
    | recvEnd op i result hop hres => exact hkeep _ (by simp)
    | pollEvent op i mask more hop => exact hkeep _ (by simp)
    | pollEnd op i err hop => exact hkeep _ (by simp)
    | sendDone op i sent hop hsent => exact hkeep _ (by simp [Event.isAccept])
    | sendFail op i err hop herr => exact hkeep _ (by simp [Event.isAccept])
    | sqThread => exact hs
  submit v e q _ hv hq := hv

namespace Reactor

/-- A positive accept result is at hand. -/
def AcceptAtHand (s : Reactor) (cqe : Cqe) : Prop :=
  s.AtHand cqe ∧ cqe.userData = CODE_ACCEPT ∧ 0 < cqe.result

/-- The next server step stores the client in both tables, and goes on. -/
def StoresClient (s : Reactor) (inp : Input) (cqe : Cqe) : Prop :=
  ∃ t, s.step (.server inp) = some t ∧ t.pc = .process ∧
    ∃ c, s.srv.clientFds.get c = none ∧ t.srv.clientFds.get c = some cqe.result ∧
      t.srv.clientOutBuffers.get c = some SmallLake.build

/-- What the step does is decided by `insert`. -/
theorem storesClient_iff_insert {s : Reactor} {inp : Input} {cqe : Cqe}
    (h : s.AcceptAtHand cqe) : s.StoresClient inp cqe ↔
      s.srv.clientFds.next < s.srv.clientOutBuffers.capacity := by
  obtain ⟨⟨hpc, hhead⟩, hu, hfd⟩ := h
  obtain ⟨rest, hcq⟩ : ∃ rest, s.cq = cqe :: rest := List.head?_eq_some_iff.mp hhead
  have hsetup : ¬ CODE_ACCEPT = BUFFER_REGISTER_CODE := by decide
  have hstep : s.step (.server inp) = some (({ s with cq := rest } : Reactor).orStop
      (({ s with cq := rest } : Reactor).processEntryAccept cqe.result)) := by
    simp [step, serverStep, hpc, hcq, processEntry, hu, hsetup]
  have haccept := hstep
  simp only [processEntryAccept, if_neg (not_le.mpr hfd), ExternStableVec.fst_push] at haccept
  cases hins : s.srv.clientOutBuffers.insert s.srv.clientFds.next SmallLake.build with
  | none =>
    -- The panic.
    have hfull := (ExternStableVec.insert_eq_none_iff _ _ _).mp hins
    refine iff_of_false ?_ (not_lt.mpr hfull)
    rintro ⟨t, ht, hgo, _⟩
    rw [haccept, hins] at ht
    cases ht
    cases hgo
  | some lakes =>
    obtain ⟨hlt, _, hget⟩ := ExternStableVec.insert_eq_some hins
    refine iff_of_true ?_ hlt
    rw [hins] at haccept
    refine ⟨_, haccept, hpc, s.srv.clientFds.next, ?_, ?_, ?_⟩
    · exact s.srv.clientFds.vacant _ (le_refl _)
    · show (s.srv.clientFds.push cqe.result).2.get _ = _
      rw [ExternStableVec.get_push, if_pos rfl]
    · exact (hget _).trans (if_pos rfl)

/-- An accept with a positive descriptor stores the client exactly as long as fewer than 65435
clients were accepted before. -/
theorem accept_stores_iff {s : Reactor} (h : s.Reachable) {inp : Input} {cqe : Cqe}
    (hat : s.AcceptAtHand cqe) : s.StoresClient inp cqe ↔ acceptCount s.log < 65435 := by
  have hcap : s.srv.clientOutBuffers.capacity = 65535 := (reachable_wf h).tables.capacity_eq
  have hnext : s.srv.clientFds.next = 100 + acceptCount s.log := count_invariant.reachable h
  rw [storesClient_iff_insert hat, hcap, hnext]
  omega

/-- The first client is stored. -/
theorem accept_stores_first : ∃ (s : Reactor) (cqe : Cqe), s.Reachable ∧ s.AcceptAtHand cqe ∧
    s.StoresClient calm cqe := by
  obtain ⟨s, hs, hp⟩ := exists_reachable (.kernel (.accept 5 true) :: rounds 7)
    (fun s => s.pc = .process && (s.cq.head?.any fun cqe =>
      cqe.userData = CODE_ACCEPT && 0 < cqe.result) && acceptCount s.log = 0) (by decide +kernel)
  simp only [Bool.and_eq_true, decide_eq_true_eq, Option.any_eq_true] at hp
  obtain ⟨⟨hpc, cqe, hhead, hu, hfd⟩, hcount⟩ := hp
  have hat : s.AcceptAtHand cqe := ⟨⟨hpc, hhead⟩, hu, hfd⟩
  exact ⟨s, cqe, hs, hat, (accept_stores_iff hs hat).mpr (by omega)⟩

/-! ### One connection at a time -/

/-- At most `n` descriptors belong to connections of clients. -/
def OpenAtMost (n : Nat) (s : Reactor) : Prop :=
  ∃ fds : List RawFd, fds.length ≤ n ∧
    ∀ fd conn, s.kern.owner fd = some conn → conn ≠ 0 → fd ∈ fds

theorem OnlyFive.openAtMost {s : Reactor} (h : s.OnlyFive) : s.OpenAtMost 1000 :=
  ⟨[5], by decide, fun fd conn ho hne => List.mem_singleton.mpr (h fd conn ho hne)⟩

/-- The states of runs in which at most 1000 connections are open at once. -/
def FewOpen (s : Reactor) : Prop :=
  s.ReachableUnder (fun u _ => u.OpenAtMost 1000) ∧ s.OpenAtMost 1000

/-- One client after another comes and goes. -/
theorem lull_of_le {n : Nat} (hn : n ≤ 65435) :
    ∃ s, s.ReachableUnder (fun u _ => u.OpenAtMost 1000) ∧ Lull n s := by
  have hg : ∀ (u : Reactor) (a : Act), u.OnlyFive → u.OpenAtMost 1000 :=
    fun u _ h => h.openAtMost
  induction n with
  | zero =>
    exact ⟨ready, reachableUnder_ready fun u _ hb => (onlyFive_of_init hb.owner_eq).openAtMost,
      lull_ready⟩
  | succ n ih =>
    obtain ⟨s, ⟨s₀, as, hstart, hrun⟩, hlull⟩ := ih (by omega)
    obtain ⟨bs, t, hvisit, ht⟩ := run_visit hg hlull (by omega)
    obtain ⟨cs, u, hleave, hu⟩ := run_leave hg ht (by omega)
    exact ⟨u, ⟨s₀, _, hstart, (hrun.trans hvisit).trans hleave⟩, hu⟩

/-- After 65435 clients came and went, the next one makes the server panic. -/
theorem not_accept_stores : ¬ ∀ (s : Reactor) (inp : Input) (cqe : Cqe),
    s.FewOpen → s.AcceptAtHand cqe → s.StoresClient inp cqe := by
  intro hall
  obtain ⟨s, ⟨s₀, as, hstart, hrun⟩, hlull⟩ := lull_of_le (le_refl 65435)
  have harrive : Run step (fun u _ => u.OpenAtMost 1000) s _ s.arrived :=
    run_arrived (fun u _ h => h.openAtMost) hlull
  have hfew : s.arrived.FewOpen :=
    ⟨⟨s₀, _, hstart, hrun.trans harrive⟩, (hlull.onlyFive_arrived rfl).openAtMost⟩
  have hat : s.arrived.AcceptAtHand ⟨CODE_ACCEPT, 5, 2⟩ :=
    ⟨⟨rfl, by rw [hlull.cq_arrived]; rfl⟩, rfl, by decide⟩
  have hlt := (storesClient_iff_insert hat).mp (hall _ calm _ hfew hat)
  have hlt' : s.srv.clientFds.next < s.srv.clientOutBuffers.capacity := hlt
  rw [hlull.next_eq, hlull.lakes_capacity] at hlt'
  omega

end Reactor

end Tachyon
