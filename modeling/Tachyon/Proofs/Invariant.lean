import Tachyon.Proofs.Refinement

/-!
# `Tachyon.Proofs.Invariant`: the states of a run

`View.Initial` describes the view at the first iteration of the loop: 100 reserved slots, no
client, no operation of a client anywhere (`initial_of_started`).

`InvariantOver guard B Inv` is what has to be checked for `Inv` to hold in every state of every
run under `guard`, when `B` is known to hold there: the start, each effect, each single
submission. `InvariantOver.reachable` is the rule.
-/

set_option autoImplicit false

namespace Tachyon

/-- The entries that concern no client. -/
def Entry.Setup : Entry → Prop
  | .provideBuffer _ => True
  | .acceptMulti => True
  | .recvMulti _ _ => False
  | .pollAdd _ _ => False
  | .send _ _ _ => False

/-- Nothing in the ring concerns a client. -/
structure View.Unused (v : View) : Prop where
  lakes_eq : v.lakes = ExternStableVec.withCapacity 65535
  queue_setup : ∀ e ∈ v.queue, e.Setup
  recvs_eq : v.kern.recvs = []
  polls_eq : v.kern.polls = []
  sends_eq : v.kern.sends = []
  cq_setup : ∀ cqe ∈ v.kern.cq, cqe.userData = BUFFER_REGISTER_CODE ∧ cqe.result = 0
  owner_zero : ∀ fd conn, v.kern.owner fd = some conn → conn = 0
  nextConn_eq : v.kern.nextConn = 1
  log_eq : v.log = []

/-- The view at the first iteration of the loop. -/
structure View.Initial (v : View) : Prop extends v.Unused where
  fds_next : v.fds.next = 100
  fds_get : ∀ c, v.fds.get c = if c < 100 then some 0xFFFF else none

namespace View

/-- The kernel takes a setup entry. -/
theorem Unused.submit_one {v : View} {e : Entry} {q : List Entry} (h : v.Unused)
    (hq : v.queue = e :: q) : Unused { v with queue := q, kern := v.kern.submit e } := by
  have hsetup := h.queue_setup
  rw [hq] at hsetup
  have hrest : ∀ e' ∈ q, e'.Setup := fun e' he' => hsetup e' (List.mem_cons_of_mem _ he')
  cases e with
  | provideBuffer id =>
    refine ⟨h.lakes_eq, hrest, h.recvs_eq, h.polls_eq, h.sends_eq, ?_, h.owner_zero,
      h.nextConn_eq, h.log_eq⟩
    intro cqe hmem
    rcases List.mem_append.mp hmem with hold | hnew
    · exact h.cq_setup cqe hold
    · cases List.mem_singleton.mp hnew
      exact ⟨rfl, rfl⟩
  | acceptMulti =>
    exact ⟨h.lakes_eq, hrest, h.recvs_eq, h.polls_eq, h.sends_eq, h.cq_setup, h.owner_zero,
      h.nextConn_eq, h.log_eq⟩
  | recvMulti fd u => exact absurd (hsetup _ List.mem_cons_self) id
  | pollAdd fd u => exact absurd (hsetup _ List.mem_cons_self) id
  | send u fd data => exact absurd (hsetup _ List.mem_cons_self) id

theorem Unused.submit {v : View} (h : v.Unused) (n : Nat) : (v.submit n).Unused :=
  submit_induction (fun _ _ _ hv hq => hv.submit_one hq) n h

theorem Unused.push {v : View} (h : v.Unused) {es : List Entry} (hes : ∀ e ∈ es, e.Setup) :
    (v.push es).Unused := by
  refine ⟨h.lakes_eq, ?_, h.recvs_eq, h.polls_eq, h.sends_eq, h.cq_setup, h.owner_zero,
    h.nextConn_eq, h.log_eq⟩
  intro e he
  rcases List.mem_append.mp he with hold | hnew
  · exact h.queue_setup e hold
  · exact hes e hnew

end View

namespace Reactor

/-! ### The start -/

theorem unused_fresh (cfg : Config) : (fresh cfg).view.Unused where
  lakes_eq := rfl
  queue_setup := by simp [fresh, view]
  recvs_eq := rfl
  polls_eq := rfl
  sends_eq := rfl
  cq_setup := by simp [fresh, view, Kernel.withOlder, Kernel.init]
  owner_zero := by
    intro fd conn h
    simp only [fresh, view, Kernel.withOlder, Kernel.init] at h
    split at h
    · exact (Option.some.inj h).symm
    · cases h
  nextConn_eq := rfl
  log_eq := rfl

theorem entries_armAccepts {n : Nat} {sq sq' : SubmissionQueue Entry}
    (h : armAccepts n sq = some sq') :
    sq'.entries = sq.entries ++ List.replicate n .acceptMulti := by
  induction n generalizing sq with
  | zero =>
    cases h
    simp
  | succ n ih =>
    obtain ⟨mid, hmid, hrest⟩ := Option.bind_eq_some_iff.mp h
    rw [ih hrest, SubmissionQueue.entries_push hmid, List.append_assoc]
    rfl

theorem next_reserveWritesBuffer (n : Nat) (v : ExternStableVec RawFd) :
    (reserveWritesBuffer n v).next = v.next + n := by
  induction n generalizing v with
  | zero => rfl
  | succ n ih =>
    rw [reserveWritesBuffer, ih, ExternStableVec.next_push]
    omega

/-- The reserved slots hold the dummy descriptor. -/
theorem get_reserveWritesBuffer (n : Nat) (v : ExternStableVec RawFd) (c : Nat) :
    (reserveWritesBuffer n v).get c
      = if v.next ≤ c ∧ c < v.next + n then some 0xFFFF else v.get c := by
  induction n generalizing v with
  | zero =>
    rw [if_neg (by omega)]
    rfl
  | succ n ih =>
    rw [reserveWritesBuffer, ih, ExternStableVec.next_push, ExternStableVec.get_push]
    by_cases hc : c = v.next
    · rw [if_neg (by omega), if_pos hc, if_pos (by omega)]
    · by_cases hin : v.next ≤ c ∧ c < v.next + (n + 1)
      · rw [if_pos (by omega), if_pos hin]
      · rw [if_neg (by omega), if_neg hc, if_neg hin]

theorem srv_submitAll (s : Reactor) : s.submitAll.srv = s.srv := by
  unfold submitAll
  split <;> rfl

/-- `release_buffers` up to its loop does not touch the server. -/
theorem srv_releaseBuffers {s t : Reactor} {inp : Input} {idle : Bool}
    (h : s.releaseBuffers inp idle = .ok t) :
    t.srv = s.srv := by
  rcases releaseBuffers_cases h with ⟨_, rfl⟩ | ⟨_, rfl⟩
  · rfl
  · exact srv_submitAll s

/-- The buffers are handed over and the kernel is called. -/
theorem registerBuffers_view {s t : Reactor} {fuel : Nat} (h : registerBuffers fuel s = some t) :
    t.srv = s.srv ∧ ∃ n, t.view = (s.view.push registerEntries).submit n := by
  unfold registerBuffers at h
  obtain ⟨sq, hsq, rfl⟩ := Option.map_eq_some_iff.mp h
  obtain ⟨n, hn⟩ := ({ s with sq := sq.sync } : Reactor).view_submitAll
  have hpush := SubmissionQueue.pushMultiple_of_pushLoop hsq
  have hpushed : ({ s with sq := sq.sync } : Reactor).view = s.view.push registerEntries := by
    simp [view, View.push, SubmissionQueue.entries_pushMultiple hpush]
  refine ⟨srv_submitAll _, n, ?_⟩
  rw [hn, hpushed]

/-- The start hands over the buffers and arms the accepts, with two calls of the kernel. -/
theorem started_view {s : Reactor} (h : Started s) : ∃ cfg n m,
    s.srv = { cfg.server with
      clientFds := reserveWritesBuffer 100 (ExternStableVec.withCapacity 0) } ∧
    s.view = { ((((fresh cfg).view.push registerEntries).submit n).push
        (List.replicate DEFAULT_ACCEPT_MULTIPLICATOR .acceptMulti)).submit m with
      fds := reserveWritesBuffer 100 (ExternStableVec.withCapacity 0) } := by
  obtain ⟨cfg, fuel, _, hstart⟩ := h
  unfold start at hstart
  obtain ⟨s₁, hreg, hrest⟩ := Option.bind_eq_some_iff.mp hstart
  obtain ⟨sq, harm, rfl⟩ := Option.map_eq_some_iff.mp hrest
  obtain ⟨hsrv, n, hn⟩ := registerBuffers_view hreg
  obtain ⟨m, hm⟩ := ({ s₁ with sq := sq } : Reactor).view_submitAll
  have harmed : ({ s₁ with sq := sq } : Reactor).view
      = s₁.view.push (List.replicate DEFAULT_ACCEPT_MULTIPLICATOR .acceptMulti) := by
    simp [view, View.push, entries_armAccepts harm]
  have hserver : ({ s₁ with sq := sq } : Reactor).submitAll.srv = cfg.server := by
    rw [srv_submitAll]
    exact hsrv
  have hfds : ({ s₁ with sq := sq } : Reactor).submitAll.srv.clientFds
      = ExternStableVec.withCapacity 0 := congrArg Server.clientFds hserver
  refine ⟨cfg, n, m, ?_, ?_⟩
  · simp only [hserver]
    rfl
  · rw [← hn, ← harmed, ← hm, ← hfds]
    rfl

/-- The loop starts at its top, with an empty batch. -/
theorem place_of_started {s : Reactor} (h : Started s) : s.pc = .top ∧ s.cq = [] := by
  have hplace : ∀ u : Reactor, u.submitAll.pc = u.pc ∧ u.submitAll.cq = u.cq := by
    intro u
    unfold submitAll
    split <;> exact ⟨rfl, rfl⟩
  obtain ⟨cfg, fuel, _, hstart⟩ := h
  unfold start registerBuffers at hstart
  obtain ⟨u, hreg, hrest⟩ := Option.bind_eq_some_iff.mp hstart
  obtain ⟨sq, _, rfl⟩ := Option.map_eq_some_iff.mp hreg
  obtain ⟨sq', _, rfl⟩ := Option.map_eq_some_iff.mp hrest
  exact ⟨(hplace _).1.trans (hplace _).1, (hplace _).2.trans (hplace _).2⟩

/-- The view at the first iteration of the loop, for every configuration. -/
theorem initial_of_started {s : Reactor} (h : Started s) : s.view.Initial := by
  obtain ⟨cfg, n, m, _, hview⟩ := started_view h
  have hregister : ∀ e ∈ registerEntries, e.Setup := by
    intro e he
    obtain ⟨id, _, rfl⟩ := List.mem_map.mp he
    trivial
  have harm : ∀ e ∈ List.replicate DEFAULT_ACCEPT_MULTIPLICATOR Entry.acceptMulti, e.Setup := by
    intro e he
    rw [List.eq_of_mem_replicate he]
    trivial
  have hsub := ((((unused_fresh cfg).push hregister).submit n).push harm).submit m
  rw [hview]
  refine ⟨⟨hsub.lakes_eq, hsub.queue_setup, hsub.recvs_eq, hsub.polls_eq, hsub.sends_eq,
    hsub.cq_setup, hsub.owner_zero, hsub.nextConn_eq, hsub.log_eq⟩, ?_, ?_⟩
  · show (reserveWritesBuffer 100 _).next = 100
    rw [next_reserveWritesBuffer]
    rfl
  · intro c
    show (reserveWritesBuffer 100 _).get c = _
    rw [get_reserveWritesBuffer]
    simp [ExternStableVec.withCapacity, ExternStableVec.get]

/-! ### The rule -/

/-- What makes `Inv` an invariant of the runs under `guard`, where `B` holds. -/
structure InvariantOver (guard : Reactor → Act → Prop) (B Inv : View → Prop) : Prop where
  start : ∀ v, v.Initial → Inv v
  effect : ∀ s a v, B s.view → Inv s.view → guard s a → Effect s a v → Inv v
  submit : ∀ (v : View) e q, B v → Inv v → v.queue = e :: q →
    Inv { v with queue := q, kern := v.kern.submit e }

/-- An invariant that needs no other one. -/
abbrev Invariant (guard : Reactor → Act → Prop) (Inv : View → Prop) : Prop :=
  InvariantOver guard (fun _ => True) Inv

variable {guard guard' : Reactor → Act → Prop} {B Inv : View → Prop}

/-- An invariant over another one, together with it. -/
theorem InvariantOver.and (hB : Invariant guard B) (h : InvariantOver guard B Inv) :
    Invariant guard fun v => B v ∧ Inv v where
  start v hv := ⟨hB.start v hv, h.start v hv⟩
  effect s a v _ hs hg he :=
    ⟨hB.effect s a v trivial hs.1 hg he, h.effect s a v hs.1 hs.2 hg he⟩
  submit v e q _ hv hq :=
    ⟨hB.submit v e q trivial hv.1 hq, h.submit v e q hv.1 hv.2 hq⟩

/-- An invariant of all runs is one of the guarded runs. -/
theorem InvariantOver.weaken (hw : ∀ s a, guard' s a → guard s a)
    (h : InvariantOver guard B Inv) : InvariantOver guard' B Inv where
  start := h.start
  effect s a v hB hs hg := h.effect s a v hB hs (hw s a hg)
  submit := h.submit

/-- An invariant holds along a run. -/
theorem InvariantOver.run (h : Invariant guard Inv) {s₀ s : Reactor} {as : List Act}
    (hrun : Run step guard s₀ as s) (hs₀ : Inv s₀.view) : Inv s.view := by
  refine Run.invariant (I := fun s => Inv s.view) ?_ hrun hs₀
  intro s a t hs hg hstep
  obtain ⟨v, n, heff, hview⟩ := step_effect hstep
  rw [hview]
  exact View.submit_induction (fun v e q hv hq => h.submit v e q trivial hv hq) n
    (h.effect s a v trivial hs hg heff)

/-- An invariant holds in every reachable state. -/
theorem InvariantOver.reachable (h : Invariant guard Inv) {s : Reactor}
    (hs : ReachableUnder guard s) : Inv s.view := by
  obtain ⟨s₀, as, hstart, hrun⟩ := hs
  exact h.run hrun (h.start _ (initial_of_started hstart))

/-- A guarded run is a run. -/
theorem ReachableUnder.reachable {s : Reactor} (h : ReachableUnder guard s) : Reachable s := by
  obtain ⟨s₀, as, hstart, hrun⟩ := h
  exact ⟨s₀, as, hstart, hrun.weaken fun _ _ _ => trivial⟩

/-- A run from a reachable state. -/
theorem Reachable.run {s t : Reactor} {as : List Act} (h : s.Reachable)
    (hrun : Run step guard s as t) : t.Reachable := by
  obtain ⟨s₀, bs, hstart, hbs⟩ := h
  exact ⟨s₀, bs ++ as, hstart, hbs.trans (hrun.weaken fun _ _ _ => trivial)⟩

end Reactor

end Tachyon
