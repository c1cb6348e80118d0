import Tachyon.Proofs.Boot
import Tachyon.Proofs.Outcomes

/-!
# `Tachyon.Proofs.Release`: the two hand-over loops

`register_buffers` and `release_buffers` push their entries until the push succeeds. Between
two tries they neither sync nor submit. The kernel may work on, but it does not touch what the
server owns (`SameLocal`), and with that not the length the server sees. So a try that fails
fails again, and a loop ends exactly when its entries fit at its first try.

For `register_buffers` the queue is empty, so the condition is one on the ring size. For
`release_buffers` it is one on the free space at the call, and a batch with enough arrivals breaks
it (`not_release_ends` in `Proofs.Queue`).
-/

set_option autoImplicit false
set_option maxRecDepth 8000

namespace Tachyon

/-- What the server owns is the same in two states. -/
structure Reactor.SameLocal (s t : Reactor) : Prop where
  pc : t.pc = s.pc
  cq : t.cq = s.cq
  dma : t.srv.ubKernelDma = s.srv.ubKernelDma
  fds : t.srv.clientFds = s.srv.clientFds
  lakes : t.srv.clientOutBuffers = s.srv.clientOutBuffers
  released : t.srv.releasedBuffers = s.srv.releasedBuffers
  capacity : t.sq.capacity = s.sq.capacity
  len : t.sq.len = s.sq.len

theorem Reactor.kernelStep_sameLocal {s t : Reactor} {k : KernelAct}
    (h : s.kernelStep k = some t) : s.SameLocal t := by
  rcases kernelStep_cases h with ⟨kern, log, buffers, rfl⟩ | ⟨e, sq, htake, rfl⟩
  · exact ⟨rfl, rfl, rfl, rfl, rfl, rfl, rfl, rfl⟩
  · -- The server counts the entry until its next sync.
    obtain ⟨hcap, hlen⟩ := SubmissionQueue.len_take htake
    exact ⟨rfl, rfl, rfl, rfl, rfl, rfl, hcap, hlen⟩

def Act.isServer : Act → Bool
  | .server _ => true
  | .kernel _ => false

namespace Reactor

/-! ### One round of the retry loop -/

/-- The server is in the retry loop of `release_buffers`. -/
def InRelease (s : Reactor) : Prop := ∃ idle, s.pc = .release idle

/-- The released buffers fit into the submission queue. -/
def ReleaseFits (s : Reactor) : Prop := s.srv.releasedBuffers.length ≤ s.sq.free

/-- The retry loop ends: there is a bound on its rounds, whatever the kernel does meanwhile. -/
def ReleaseEnds (s : Reactor) : Prop :=
  ∃ n, ∀ as t, Run step (fun u _ => u.InRelease) s as t → as.countP Act.isServer ≤ n

theorem SameLocal.releaseFits {s t : Reactor} (h : s.SameLocal t) :
    s.ReleaseFits → t.ReleaseFits := by
  intro hfits
  show t.srv.releasedBuffers.length ≤ t.sq.capacity - t.sq.len
  rw [h.released, h.capacity, h.len]
  exact hfits

theorem length_releaseEntries (s : Reactor) :
    s.releaseEntries.length = s.srv.releasedBuffers.length :=
  List.length_map _

/-- A round that fails changes nothing. -/
theorem serverStep_release_full {s : Reactor} (h : s.InRelease) (hfull : ¬ s.ReleaseFits)
    (inp : Input) : s.serverStep inp = some s := by
  obtain ⟨idle, hpc⟩ := h
  have hnone : s.sq.pushMultiple s.releaseEntries = none := by
    rw [SubmissionQueue.pushMultiple_eq_none_iff, length_releaseEntries]
    exact Nat.lt_of_not_le hfull
  simp [serverStep, hpc, releaseRound, hnone, orStop]

/-- A round that succeeds leaves the loop. -/
theorem serverStep_release_fits {s t : Reactor} {inp : Input} (h : s.InRelease)
    (hfits : s.ReleaseFits) (ht : s.serverStep inp = some t) : ¬ t.InRelease := by
  obtain ⟨idle, hpc⟩ := h
  cases hpush : s.sq.pushMultiple s.releaseEntries with
  | none =>
    rw [SubmissionQueue.pushMultiple_eq_none_iff, length_releaseEntries] at hpush
    exact absurd hfits (Nat.not_le_of_lt hpush)
  | some sq =>
    simp only [serverStep, hpc, releaseRound, hpush, Option.some.injEq] at ht
    rcases inp with ⟨_, _, _, waitOk⟩
    rintro ⟨idle', hpc'⟩
    cases waitOk <;> cases idle <;> simp [orStop, ← ht] at hpc'

/-! ### The loops as a whole -/

/-- In a run inside the loop from a state where the buffers fit, the first round is the
last. -/
theorem rounds_of_fits {s t : Reactor} {as : List Act} (hfits : s.ReleaseFits)
    (h : Run step (fun u _ => u.InRelease) s as t) :
    as.countP Act.isServer = 0 ∧ t.ReleaseFits ∨
      as.countP Act.isServer = 1 ∧ ¬ t.InRelease := by
  induction h with
  | nil => exact .inl ⟨rfl, hfits⟩
  | @snoc t u as a _ hin ha ih =>
    rw [List.countP_append, List.countP_singleton]
    rcases ih with ⟨hzero, hfits'⟩ | ⟨_, hout⟩
    · cases a with
      | server inp => exact .inr ⟨by rw [hzero]; rfl, serverStep_release_fits hin hfits' ha⟩
      | kernel k => exact .inl ⟨by rw [hzero]; rfl, (kernelStep_sameLocal ha).releaseFits hfits'⟩
    · exact absurd hin hout

/-- From a state where the buffers do not fit, the loop has a run of every length. -/
theorem run_of_full {s : Reactor} (h : s.InRelease) (hfull : ¬ s.ReleaseFits) (n : Nat) :
    Run step (fun u _ => u.InRelease) s (rounds n) s := by
  induction n with
  | zero => exact .nil s
  | succ n ih =>
    rw [rounds, List.replicate_succ']
    exact .snoc ih h (serverStep_release_full h hfull calm)

theorem releaseEnds_iff {s : Reactor} (h : s.InRelease) : s.ReleaseEnds ↔ s.ReleaseFits := by
  constructor
  · rintro ⟨n, hn⟩
    by_contra hfull
    have hcount : (rounds (n + 1)).countP Act.isServer = n + 1 := by
      rw [rounds, List.countP_replicate]
      rfl
    have := hn _ _ (run_of_full h hfull (n + 1))
    omega
  · intro hfits
    refine ⟨1, fun as t hrun => ?_⟩
    rcases rounds_of_fits hfits hrun with ⟨hzero, _⟩ | ⟨hone, _⟩
    · omega
    · omega

/-- The retry loop of `register_buffers` ends. -/
def RegisterEnds (cfg : Config) : Prop := ∃ fuel t, registerBuffers fuel (fresh cfg) = some t

/-- The ring is large enough for the hand-over exactly when its size rounds up to 1024. -/
theorem capacity_ge_iff (cfg : Config) : 1024 ≤ cfg.capacity ↔ 512 < cfg.uringSize := by
  have hpow : 1024 ≤ cfg.capacity ↔ 10 ≤ Nat.clog 2 cfg.uringSize := by
    show 2 ^ 10 ≤ 2 ^ Nat.clog 2 cfg.uringSize ↔ _
    exact Nat.pow_le_pow_iff_right (by decide)
  have hlog : Nat.clog 2 cfg.uringSize ≤ 9 ↔ cfg.uringSize ≤ 2 ^ 9 :=
    Nat.clog_le_iff_le_pow (by decide)
  omega

theorem registerEnds_iff (cfg : Config) : RegisterEnds cfg ↔ 512 < cfg.uringSize := by
  have hfree : (fresh cfg).sq.free = cfg.capacity := rfl
  rw [← capacity_ge_iff, ← length_registerEntries, ← hfree,
    ← SubmissionQueue.pushLoop_ends_iff]
  constructor
  · rintro ⟨fuel, t, h⟩
    obtain ⟨sq, hsq, _⟩ := Option.map_eq_some_iff.mp h
    exact ⟨fuel, sq, hsq⟩
  · rintro ⟨fuel, sq, h⟩
    exact ⟨fuel, _, congrArg (Option.map _) h⟩

/-- The hand-over at the start ends exactly for the ring sizes above 512, and a later one
exactly when the buffers fit into the free space of the queue. -/
theorem hand_over_ends_iff (cfg : Config) (s : Reactor) :
    (cfg.Buildable → (RegisterEnds cfg ↔ 512 < cfg.uringSize)) ∧
      (s.InRelease → (s.ReleaseEnds ↔ s.ReleaseFits)) :=
  ⟨fun _ => registerEnds_iff cfg, releaseEnds_iff⟩

/-- The default ring, and the loop after the first request was served. -/
theorem hand_over_ends_served : RegisterEnds plainConfig ∧
    ∃ s : Reactor, s.Reachable ∧ s.InRelease ∧ s.srv.releasedBuffers = [0] ∧ s.ReleaseEnds := by
  obtain ⟨s, hs, hp⟩ := exists_reachable
    (connect ++ .kernel (.recvData 0 0 plaintextRequest true) :: rounds 10)
    (fun s => s.pc = .release true && s.srv.releasedBuffers = [0] && s.sq.free = 2048)
    (by decide +kernel)
  simp only [Bool.and_eq_true, decide_eq_true_eq] at hp
  obtain ⟨⟨hpc, hrel⟩, hfree⟩ := hp
  have hin : s.InRelease := ⟨true, hpc⟩
  have hbuild : plainConfig.Buildable := by simp [Config.Buildable, plainConfig]
  have hfits : s.ReleaseFits := by simp [ReleaseFits, hrel, hfree]
  obtain ⟨hregister, hrelease⟩ := hand_over_ends_iff plainConfig s
  exact ⟨(hregister hbuild).mpr (by decide), s, hs, hin, hrel, (hrelease hin).mpr hfits⟩

/-- A ring of 512 entries can be built, and the 1024 buffers never fit into it. -/
theorem not_register_ends : ¬ ∀ cfg, Config.Buildable cfg → RegisterEnds cfg := by
  intro hall
  have hends := hall ⟨512, false, false, []⟩ ⟨by decide, by decide⟩
  exact absurd ((registerEnds_iff _).mp hends) (by decide)

end Reactor

end Tachyon
