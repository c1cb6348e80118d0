import Tachyon.Server

/-!
# `Tachyon.Proofs.Boot`: from the start to the first wait

The concrete runs of the later files begin here: the default configuration with a ring of
2048 entries, in a process that has the descriptors 0 to 4 open. `sq_poll` hands over its
1024 buffers, arms its 16 accepts and waits for the first completion, in the state `ready`.

`reachableUnder_ready` runs to this state. The run goes through the 1024 completions of the
hand-over, so it is built by induction and not evaluated. `exists_of_exec` continues a run by
evaluation.
-/

set_option autoImplicit false
set_option maxRecDepth 8000

namespace Tachyon

/-- The kernel takes hand-overs. -/
theorem Kernel.foldl_submit_provideBuffer (ids : List Nat) (k : Kernel) :
    (ids.map Entry.provideBuffer).foldl Kernel.submit k = { k with
      provided := k.provided ++ ids
      cq := k.cq ++ List.replicate ids.length ⟨BUFFER_REGISTER_CODE, 0, 0⟩ } := by
  induction ids generalizing k with
  | nil => simp
  | cons id ids ih =>
    rw [List.map_cons, List.foldl_cons, ih]
    simp [Kernel.submit, Kernel.post, List.replicate_succ]

namespace Reactor

def plainConfig : Config := ⟨2048, false, false, [0, 1, 2, 3, 4]⟩

/-- The clock stands still and every submit call succeeds. -/
def calm : Input := ⟨0, Date.zero, true, true⟩

def handOver : Cqe := ⟨BUFFER_REGISTER_CODE, 0, 0⟩

def armed : List Entry := List.replicate DEFAULT_ACCEPT_MULTIPLICATOR .acceptMulti

/-- The states on the way to the first wait. -/
def bootState (pc : Pc) (sq : SubmissionQueue Entry) (cq posted : List Cqe) (accepts : Nat)
    (syncNow : Bool) (log : List Event) : Reactor where
  srv := { plainConfig.server with
    clientFds := reserveWritesBuffer 100 (ExternStableVec.withCapacity 0), syncNow := syncNow }
  sq := sq
  cq := cq
  kern := { Kernel.init plainConfig.openFds with
    accepts := accepts, provided := List.range BUFFERS_COUNT, cq := posted }
  pc := pc
  log := log

/-- The first iteration of the loop. -/
def started : Reactor :=
  bootState .top ⟨2048, 1024, [], armed, by decide⟩ [] (List.replicate 1024 handOver) 0 true []

/-- The first wait. -/
def ready : Reactor :=
  bootState .waiting ⟨2048, 16, [], [], by decide⟩ [] [] 16 false [.flushed, .flushed]

/-! ### The start -/

theorem capacity_plainConfig : plainConfig.capacity = 2048 := by
  have hclog : Nat.clog 2 2048 = 11 := by
    rw [show 2048 = 2 ^ 11 by rfl]
    exact Nat.clog_pow 2 11 (by decide)
  rw [Config.capacity, plainConfig, hclog]
  rfl

theorem length_registerEntries : registerEntries.length = 1024 := by
  rw [registerEntries, List.length_map, List.length_range, BUFFERS_COUNT]

/-- The hand-over of a fresh instance, whatever the kernel was before. -/
theorem registerBuffers_in (k : Kernel) : registerBuffers 1 { fresh plainConfig with kern := k }
    = some { fresh plainConfig with
      sq := ⟨2048, 1024, [], [], by decide⟩
      kern := { k with
        provided := k.provided ++ List.range BUFFERS_COUNT
        cq := k.cq ++ List.replicate 1024 handOver } } := by
  have hlen := length_registerEntries
  have hpush : (fresh plainConfig).sq.pushMultiple registerEntries
      = some ⟨2048, 0, [], registerEntries, by simp [hlen]⟩ := by
    simp [fresh, capacity_plainConfig, SubmissionQueue.pushMultiple, SubmissionQueue.empty,
      SubmissionQueue.len, hlen]
  have hdrain : ({ fresh plainConfig with
        sq := (⟨2048, 0, [], registerEntries, by simp [hlen]⟩ : SubmissionQueue Entry).sync
        kern := k } : Reactor).submitAll
      = { fresh plainConfig with
          sq := ⟨2048, 1024, [], [], by decide⟩
          kern := registerEntries.foldl Kernel.submit k } := by
    simp [submitAll, fresh, plainConfig, Config.server, SubmissionQueue.sync,
      SubmissionQueue.drain, hlen]
  simp only [registerBuffers, SubmissionQueue.pushLoop, hpush, Option.map_some]
  rw [hdrain, registerEntries, Kernel.foldl_submit_provideBuffer, List.length_range]
  rfl

theorem registerBuffers_fresh : registerBuffers 1 (fresh plainConfig) = some
    { fresh plainConfig with
      sq := ⟨2048, 1024, [], [], by decide⟩
      kern := { Kernel.init plainConfig.openFds with
        provided := List.range BUFFERS_COUNT, cq := List.replicate 1024 handOver } } :=
  registerBuffers_in (Kernel.init plainConfig.openFds)

theorem start_plainConfig : start plainConfig 1 = some started := by
  rw [start, registerBuffers_fresh]
  rfl

theorem started_started : Started started :=
  ⟨plainConfig, 1, by simp [Config.Buildable, plainConfig], start_plainConfig⟩

/-! ### The way to the first wait -/

/-- No client exists, and every fetched completion is one of the hand-over. -/
structure Booting (s : Reactor) : Prop where
  cq_eq : ∀ cqe ∈ s.cq, cqe = handOver
  lakes_eq : s.srv.clientOutBuffers = ExternStableVec.withCapacity 65535
  released_eq : s.srv.releasedBuffers = []
  owner_eq : s.kern.owner = (Kernel.init plainConfig.openFds).owner
  synced_eq : s.srv.synced = 0

section
variable {guard : Reactor → Act → Prop} (hg : ∀ s, s.Booting → guard s (.server calm))
  (sq : SubmissionQueue Entry) (posted : List Cqe) (accepts : Nat) (log : List Event)
include hg

/-- One step on the way. -/
theorem run_boot (pc : Pc) (n : Nat) (syncNow : Bool) {t : Reactor}
    (h : (bootState pc sq (List.replicate n handOver) posted accepts syncNow log).serverStep calm
      = some t) :
    Run step guard (bootState pc sq (List.replicate n handOver) posted accepts syncNow log)
      [.server calm] t :=
  Run.single (hg _ ⟨fun _ hc => List.eq_of_mem_replicate hc, rfl, rfl, rfl, rfl⟩) h

/-- The completions of the hand-over are processed. -/
theorem run_handOvers (n : Nat) :
    ∃ as, Run step guard
      (bootState .process sq (List.replicate n handOver) posted accepts false log) as
      (bootState .process sq [] posted accepts false log) := by
  induction n with
  | zero => exact ⟨[], .nil _⟩
  | succ n ih =>
    obtain ⟨as, hrun⟩ := ih
    have hone : Run step guard
        (bootState .process sq (List.replicate (n + 1) handOver) posted accepts false log)
        [.server calm]
        (bootState .process sq (List.replicate n handOver) posted accepts false log) :=
      run_boot hg sq posted accepts log .process (n + 1) false rfl
    exact ⟨_, hone.trans hrun⟩

/-- The server runs from its start to the first wait, and the clock stands still. -/
theorem run_calm : ∃ as, Run step guard started as ready := by
  have h1 := run_boot hg ⟨2048, 1024, [], armed, by decide⟩ (List.replicate 1024 handOver) 0 []
    .top 0 true rfl
  have h2 := run_boot hg ⟨2048, 1024, [], armed, by decide⟩ (List.replicate 1024 handOver) 0
    [.flushed] .sync 0 true rfl
  have h3 := run_boot hg ⟨2048, 0, armed, [], by decide⟩ (List.replicate 1024 handOver) 0
    [.flushed] .reap 0 false rfl
  have h4 := run_boot hg ⟨2048, 0, armed, [], by decide⟩ [] 0
    [.flushed] .submit 1024 false rfl
  obtain ⟨as, h5⟩ := run_handOvers hg ⟨2048, 0, armed, [], by decide⟩ [] 0 [.flushed] 1024
  have h6 := run_boot hg ⟨2048, 0, armed, [], by decide⟩ [] 0
    [.flushed] .process 0 false rfl
  have h7 := run_boot hg ⟨2048, 0, armed, [], by decide⟩ [] 0
    [.flushed] .idle 0 false rfl
  have h8 := run_boot hg ⟨2048, 0, armed, [], by decide⟩ [] 0
    [.flushed] .top 0 false rfl
  have h9 := run_boot hg ⟨2048, 0, armed, [], by decide⟩ [] 0
    [.flushed, .flushed] .sync 0 false rfl
  have h10 := run_boot hg ⟨2048, 0, armed, [], by decide⟩ [] 0
    [.flushed, .flushed] .reap 0 false rfl
  have h11 := run_boot hg ⟨2048, 0, armed, [], by decide⟩ [] 0
    [.flushed, .flushed] .submit 0 false rfl
  have hall := ((((((((((h1.trans h2).trans h3).trans h4).trans h5).trans h6).trans h7).trans
    h8).trans h9).trans h10).trans h11)
  exact ⟨_, hall⟩

end

theorem run_ready {guard : Reactor → Act → Prop}
    (hg : ∀ s inp, s.Booting → guard s (.server inp)) : ∃ as, Run step guard started as ready :=
  run_calm fun s hs => hg s calm hs

theorem reachableUnder_ready {guard : Reactor → Act → Prop}
    (hg : ∀ s inp, s.Booting → guard s (.server inp)) : ReachableUnder guard ready := by
  obtain ⟨as, hrun⟩ := run_ready hg
  exact ⟨started, as, started_started, hrun⟩

theorem reachable_ready : Reachable ready := reachableUnder_ready fun _ _ _ => trivial

/-! ### Runs from the first wait on -/

/-- A run from the first wait on, by evaluation. -/
theorem exists_of_exec {guard : Reactor → Act → Prop} (hready : ReachableUnder guard ready)
    (check : Reactor → Act → Bool) (hc : ∀ s a, check s a = true → guard s a) (as : List Act)
    (p : Reactor → Bool) (h : (Run.exec step check ready as).any p = true) :
    ∃ t, ReachableUnder guard t ∧ p t = true := by
  obtain ⟨s₀, bs, hstart, hrun⟩ := hready
  obtain ⟨t, ht, hp⟩ := Run.exists_of_exec hc h
  exact ⟨t, ⟨s₀, _, hstart, hrun.trans ht⟩, hp⟩

/-- A plain run from the first wait on. -/
theorem exists_reachable (as : List Act) (p : Reactor → Bool)
    (h : (Run.exec step (fun _ _ => true) ready as).any p = true) :
    ∃ t, Reachable t ∧ p t = true :=
  exists_of_exec reachable_ready _ (fun _ _ _ => trivial) as p h

/-- `n` steps of the server. -/
def rounds (n : Nat) : List Act := List.replicate n (.server calm)

/-- A connection arrives on descriptor 5. The server stores it as client 100 and waits. -/
def connect : List Act := .kernel (.accept 5 true) :: rounds 14

def plaintextRequest : List UInt8 := ascii "GET /plaintext HTTP/1.1\r\nHost: tachyon\r\n\r\n"

/-- Client 100 sends a request. The server answers, and waits with the send taken by the
kernel. -/
def serve : List Act := .kernel (.recvData 0 0 plaintextRequest true) :: rounds 22

end Reactor

end Tachyon
