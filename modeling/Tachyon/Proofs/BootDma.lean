import Tachyon.Proofs.Boot

/-!
# `Tachyon.Proofs.BootDma`: from the start to the first wait in UBDMA mode

The start and the way to the first wait are those of `Tachyon.Proofs.Boot`, since nothing there
asks for the mode (`start_withDma`). `run_readyDma` runs to the first wait, and `exists_runDma`
continues it by evaluation.
-/

set_option autoImplicit false
set_option maxRecDepth 8000

namespace Tachyon

namespace Reactor

/-- UBDMA is switched on. -/
def withDma (s : Reactor) : Reactor := { s with srv := { s.srv with ubKernelDma := true } }

def dmaConfig : Config := { plainConfig with ubKernelDma := true }

/-! ### The start -/

theorem withDma_submitAll (s : Reactor) : s.withDma.submitAll = s.submitAll.withDma := by
  unfold submitAll
  show (if s.srv.sqpollEnabled then _ else _) = _
  split <;> rfl

theorem registerBuffers_withDma (fuel : Nat) (s : Reactor) :
    registerBuffers fuel s.withDma = (registerBuffers fuel s).map withDma := by
  unfold registerBuffers
  show (s.sq.pushLoop registerEntries fuel).map
    (fun sq => ({ s with sq := sq.sync } : Reactor).withDma.submitAll) = _
  cases s.sq.pushLoop registerEntries fuel with
  | none => rfl
  | some sq =>
    rw [Option.map_some, Option.map_some, Option.map_some, withDma_submitAll]

theorem start_withDma (cfg : Config) (fuel : Nat) :
    start { cfg with ubKernelDma := true } fuel = (start cfg fuel).map withDma := by
  have hreg : registerBuffers fuel (fresh { cfg with ubKernelDma := true })
      = (registerBuffers fuel (fresh cfg)).map withDma := registerBuffers_withDma fuel (fresh cfg)
  unfold start
  rw [hreg]
  cases registerBuffers fuel (fresh cfg) with
  | none => rfl
  | some s =>
    show (armAccepts DEFAULT_ACCEPT_MULTIPLICATOR s.sq).map _
      = ((armAccepts DEFAULT_ACCEPT_MULTIPLICATOR s.sq).map _).map withDma
    cases armAccepts DEFAULT_ACCEPT_MULTIPLICATOR s.sq with
    | none => rfl
    | some sq =>
      have hsubmit : ({ s.withDma with sq := sq } : Reactor).submitAll
          = ({ s with sq := sq } : Reactor).submitAll.withDma :=
        withDma_submitAll { s with sq := sq }
      simp only [Option.map_some, hsubmit]
      rfl

theorem started_dma : Started started.withDma := by
  refine ⟨dmaConfig, 1, by simp [Config.Buildable, dmaConfig, plainConfig], ?_⟩
  rw [dmaConfig, start_withDma, start_plainConfig]
  rfl

/-! ### The way to the first wait -/

/-- The completions of the hand-over are processed, in any state. -/
theorem run_acknowledged (s : Reactor) (hpc : s.pc = .process) (n : Nat)
    (hcq : s.cq = List.replicate n handOver) :
    ∃ as, Run step (fun _ _ => True) s as { s with cq := [] } := by
  induction n generalizing s with
  | zero => exact ⟨[], by rw [← show s.cq = [] from hcq]; exact .nil s⟩
  | succ n ih =>
    have hentry : ({ s with cq := List.replicate n handOver } : Reactor).processEntry calm handOver
        = .ok { s with cq := List.replicate n handOver } := if_pos ⟨rfl, rfl, rfl⟩
    have hone : s.step (.server calm) = some { s with cq := List.replicate n handOver } := by
      show s.serverStep calm = _
      rw [List.replicate_succ] at hcq
      unfold serverStep
      simp only [hpc, hcq]
      rfl
    obtain ⟨as, hrun⟩ := ih { s with cq := List.replicate n handOver } hpc rfl
    exact ⟨_, (Run.single trivial hone).trans hrun⟩

/-- One step on the way, from a state with `n` completions of the hand-over. -/
theorem run_bootDma (sq : SubmissionQueue Entry) (posted : List Cqe) (accepts : Nat)
    (log : List Event) (pc : Pc) (n : Nat) (syncNow : Bool) {t : Reactor}
    (h : (bootState pc sq (List.replicate n handOver) posted accepts syncNow
      log).withDma.serverStep calm = some t) :
    Run step (fun _ _ => True)
      (bootState pc sq (List.replicate n handOver) posted accepts syncNow log).withDma
      [.server calm] t := Run.single trivial h

/-- The first wait in UBDMA mode. -/
theorem run_readyDma : ∃ as, Run step (fun _ _ => True) started.withDma as ready.withDma := by
  have h1 := run_bootDma ⟨2048, 1024, [], armed, by decide⟩ (List.replicate 1024 handOver) 0 []
    .top 0 true rfl
  have h2 := run_bootDma ⟨2048, 1024, [], armed, by decide⟩ (List.replicate 1024 handOver) 0
    [.flushed] .sync 0 true rfl
  have h3 := run_bootDma ⟨2048, 0, armed, [], by decide⟩ (List.replicate 1024 handOver) 0
    [.flushed] .reap 0 false rfl
  have h4 := run_bootDma ⟨2048, 0, armed, [], by decide⟩ [] 0 [.flushed] .submit 1024 false rfl
  obtain ⟨as, h5⟩ := run_acknowledged (bootState .process ⟨2048, 0, armed, [], by decide⟩
    (List.replicate 1024 handOver) [] 0 false [.flushed]).withDma rfl 1024 rfl
  have h6 := run_bootDma ⟨2048, 0, armed, [], by decide⟩ [] 0 [.flushed] .process 0 false rfl
  have h7 := run_bootDma ⟨2048, 0, armed, [], by decide⟩ [] 0 [.flushed] .idle 0 false rfl
  have h8 := run_bootDma ⟨2048, 0, armed, [], by decide⟩ [] 0 [.flushed] .top 0 false rfl
  have h9 := run_bootDma ⟨2048, 0, armed, [], by decide⟩ [] 0 [.flushed, .flushed] .sync 0 false
    rfl
  have h10 := run_bootDma ⟨2048, 0, armed, [], by decide⟩ [] 0 [.flushed, .flushed] .reap 0 false
    rfl
  have h11 := run_bootDma ⟨2048, 0, armed, [], by decide⟩ [] 0 [.flushed, .flushed] .submit 0
    false rfl
  exact ⟨_, ((((((((((h1.trans h2).trans h3).trans h4).trans h5).trans h6).trans h7).trans
    h8).trans h9).trans h10).trans h11)⟩

/-- A run in UBDMA mode from the first wait on, by evaluation. -/
theorem exists_runDma (as : List Act) (p : Reactor → Bool)
    (h : (Run.exec step (fun _ _ => true) ready.withDma as).any p = true) :
    ∃ bs t, Run step (fun _ _ => True) started.withDma bs ready.withDma ∧
      Run step (fun _ _ => True) ready.withDma as t ∧ p t = true := by
  obtain ⟨bs, hready⟩ := run_readyDma
  obtain ⟨t, ht, hp⟩ := Run.exists_of_exec (fun _ _ _ => trivial) h
  exact ⟨bs, t, hready, ht, hp⟩

end Reactor

end Tachyon
