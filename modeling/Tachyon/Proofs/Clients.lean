import Tachyon.Proofs.Tables

/-!
# `Tachyon.Proofs.Clients`: the two client tables stay in step

`client_fds` and `client_out_buffers` are indexed separately. From 100 on the same indices are
occupied in both, and the 100 reserved slots of `client_fds` are never given up (`InStep`). So
`client_fds.iter().len() - 100` is the number of clients, and `wideband_send` finds a descriptor
for every output buffer.

The tables do not rely on the order in which the kernel works. `OpenReachable` admits every
completion at any time, as long as the server has issued its user data.
-/

set_option autoImplicit false

namespace Tachyon

/-! ### Runs with arbitrary completions -/

/-- User data the instance has issued: one of the two codes, or the user data of an operation
of a client whose index was given out. -/
def UserDataIssued (next : Nat) (userData : UInt64) : Prop :=
  userData = BUFFER_REGISTER_CODE ∨ userData = CODE_ACCEPT ∨
    ∃ c w, Issued next w c userData ∧ (w = INIT_REQUEST ∨ w = POLL_EVENT ∨ w = SEND_CODE)

/-- The client of issued user data has an index from 100 on. -/
theorem UserDataIssued.client_ge {next : Nat} {u : UInt64} (h : UserDataIssued next u)
    (hn : next ≤ 65535) (hu : REQ_RESP_OFFSET ≤ u) : 100 ≤ clientOf u := by
  rcases h with rfl | rfl | ⟨c, w, hc, hw⟩
  · exact absurd hu (by decide)
  · exact absurd hu (by decide)
  · have hsmall : w.toNat < 0x8000 := by rcases hw with rfl | rfl | rfl <;> decide
    rw [hc.clientOf_eq hn hsmall]
    exact hc.1

namespace Reactor

/-- A step, or any completion is posted out of turn. -/
inductive OpenAct
  | act (a : Act)
  | post (cqe : Cqe)

def openStep (s : Reactor) : OpenAct → Option Reactor
  | .act a => s.step a
  | .post cqe => some { s with kern := s.kern.post cqe }

/-- The completion that is processed carries user data of this instance. -/
def ProcessesIssued (s : Reactor) : OpenAct → Prop
  | .act (.server _) => ∀ cqe, s.AtHand cqe → UserDataIssued s.srv.clientFds.next cqe.userData
  | .act (.kernel _) => True
  | .post _ => True

/-- The states of a run in which any completion with issued user data can be processed at any
time. -/
def OpenReachable (s : Reactor) : Prop :=
  ∃ s₀ as, Started s₀ ∧ Run openStep ProcessesIssued s₀ as s

/-- The kernel of the model posts nothing else. -/
theorem Reachable.openReachable {s : Reactor} (h : s.Reachable) : s.OpenReachable := by
  obtain ⟨s₀, as, hstart, hrun⟩ := h
  induction hrun with
  | nil => exact ⟨s₀, [], hstart, .nil _⟩
  | @snoc t u as a hrun _ hstep ih =>
    obtain ⟨s₁, bs, hstart', hopen⟩ := ih
    have hopen' : openStep t (.act a) = some u := hstep
    refine ⟨s₁, bs ++ [.act a], hstart', .snoc hopen ?_ hopen'⟩
    cases a with
    | kernel k => trivial
    | server inp =>
      intro cqe hat
      have hwf := reachable_wf ⟨s₀, as, hstart, hrun⟩
      rcases hwf.ring.cq_issued cqe hat.mem_cq with hc | hc | ⟨c, hc⟩ | ⟨_, c, hc⟩ | ⟨_, c, hc⟩
      · exact .inl hc
      · exact .inr (.inl hc)
      · exact .inr (.inr ⟨c, _, hc, .inl rfl⟩)
      · exact .inr (.inr ⟨c, _, hc, .inr (.inl rfl)⟩)
      · exact .inr (.inr ⟨c, _, hc, .inr (.inr rfl)⟩)

end Reactor

/-! ### The reserved slots -/

/-- The tables, and the slots below 100 hold a descriptor. -/
structure Reserved (fds : ExternStableVec RawFd) (lakes : ExternStableVec OutBuffer) : Prop
    extends Tables fds lakes where
  held : ∀ c, c < 100 → (fds.get c).isSome

namespace Reserved

variable {fds : ExternStableVec RawFd} {lakes : ExternStableVec OutBuffer}

theorem initial {v : View} (h : v.Initial) : Reserved v.fds v.lakes where
  toTables := .initial h
  held c hc := by rw [h.fds_get, if_pos hc]; rfl

theorem accept (h : Reserved fds lakes) {fd : RawFd} (hfd : 0 < fd) {lake : OutBuffer}
    {lakes' : ExternStableVec OutBuffer} (hins : lakes.insert fds.next lake = some lakes') :
    Reserved (fds.push fd).2 lakes' where
  toTables := h.toTables.accept hfd hins
  held c hc := by
    have hge := h.next_ge
    rw [ExternStableVec.get_push, if_neg (by omega)]
    exact h.held c hc

/-- Only a client is removed. -/
theorem remove (h : Reserved fds lakes) {c : Nat} (hc : 100 ≤ c) :
    Reserved (fds.remove c).2 (lakes.remove c).2 where
  toTables := h.toTables.remove c
  held c' hc' := by
    rw [ExternStableVec.get_remove, if_neg (by omega)]
    exact h.held c' hc'

/-- What one step does to the tables, when the completion at hand carries issued user data. -/
theorem effect {s : Reactor} {a : Act} {v : View} (h : Reserved s.view.fds s.view.lakes)
    (hg : s.ProcessesIssued (.act a)) (he : Reactor.Effect s a v) : Reserved v.fds v.lakes := by
  cases he with
  | flush inp hpc => exact ⟨h.toTables.flush, h.held⟩
  | accept inp cqe lakes poll recv hat hu hfd hins hpoll hrecv => exact h.accept hfd hins
  | close inp cqe hat hc hfd => exact h.remove ((hg cqe hat).client_ge h.next_le hc.1)
  | closeStdin inp cqe hat hc hfd => exact h.remove ((hg cqe hat).client_ge h.next_le hc.1)
  | reply inp cqe buffer lake hat hans hget => exact ⟨h.toTables.reply _ _, h.held⟩
  | _ => exact h

end Reserved

/-- The reserved slots and the tables along a run with arbitrary completions. -/
theorem reserved_of_openReachable {s : Reactor} (h : s.OpenReachable) :
    Reserved s.srv.clientFds s.srv.clientOutBuffers := by
  obtain ⟨s₀, as, hstart, hrun⟩ := h
  refine Run.invariant (I := fun s : Reactor => Reserved s.view.fds s.view.lakes) ?_ hrun
    (.initial (Reactor.initial_of_started hstart))
  intro s a t hs hg hstep
  cases a with
  | post cqe =>
    cases hstep
    exact hs
  | act a =>
    obtain ⟨v, n, heff, hview⟩ := Reactor.step_effect hstep
    rw [hview]
    -- A submission leaves the tables.
    show Reserved v.fds v.lakes
    exact hs.effect hg heff

/-! ### The two tables -/

/-- The occupied indices of the descriptors are the reserved ones and those of the output
buffers, and these are all from 100 on. -/
structure InStep (fds : ExternStableVec RawFd) (lakes : ExternStableVec OutBuffer) : Prop where
  occupied_iff : ∀ c, (fds.get c).isSome ↔ c < 100 ∨ (lakes.get c).isSome
  client_ge : ∀ c, (lakes.get c).isSome → 100 ≤ c
  /-- The subtraction of `client_fds.iter().len() - 100` does not underflow. -/
  conns_ge : 100 ≤ fds.iter.length
  conns_eq : fds.iter.length - 100 = lakes.iter.length
  /-- `wideband_send` finds the descriptor of every output buffer. -/
  found : ∀ p ∈ lakes.iter, (fds.get p.1).isSome

/-- The occupied slots of a table are 100 more than those of the other. -/
theorem length_iter_of_occupied {fds : ExternStableVec RawFd}
    {lakes : ExternStableVec OutBuffer}
    (hocc : ∀ c, (fds.get c).isSome ↔ c < 100 ∨ (lakes.get c).isSome)
    (hge : ∀ c, (lakes.get c).isSome → 100 ≤ c) :
    fds.iter.length = 100 + lakes.iter.length := by
  let n := max fds.next lakes.next
  have hf : fds.next ≤ 100 + n := Nat.le_trans (Nat.le_max_left _ _) (Nat.le_add_left _ _)
  have hl : lakes.next ≤ 100 + n := Nat.le_trans (Nat.le_max_right _ _) (Nat.le_add_left _ _)
  rw [fds.length_iter hf, lakes.length_iter hl, List.range_add, List.countP_append,
    List.countP_append]
  have hreserved : (List.range 100).countP (fun c => (fds.get c).isSome) = 100 := by
    rw [List.countP_eq_length.mpr, List.length_range]
    intro c hc
    exact (hocc c).mpr (.inl (List.mem_range.mp hc))
  have hnone : (List.range 100).countP (fun c => (lakes.get c).isSome) = 0 := by
    rw [List.countP_eq_zero]
    intro c hc hsome
    exact absurd (List.mem_range.mp hc) (Nat.not_lt.mpr (hge c hsome))
  have hsame : ((List.range n).map (100 + ·)).countP (fun c => (fds.get c).isSome)
      = ((List.range n).map (100 + ·)).countP fun c => (lakes.get c).isSome := by
    refine List.countP_congr fun c hc => ?_
    obtain ⟨i, _, rfl⟩ := List.mem_map.mp hc
    rw [hocc]
    exact or_iff_right (Nat.not_lt.mpr (Nat.le_add_right _ _))
  rw [hreserved, hnone, hsame, Nat.zero_add]

/-- In every run with any completions of issued user data, the two tables stay in step. -/
theorem client_tables {s : Reactor} (h : s.OpenReachable) :
    InStep s.srv.clientFds s.srv.clientOutBuffers := by
  have hres := reserved_of_openReachable h
  have hge : ∀ c, (s.srv.clientOutBuffers.get c).isSome → 100 ≤ c := by
    intro c hc
    obtain ⟨lake, hlake⟩ := Option.isSome_iff_exists.mp hc
    exact (hres.lt_next hlake).1
  have hocc : ∀ c, (s.srv.clientFds.get c).isSome
      ↔ c < 100 ∨ (s.srv.clientOutBuffers.get c).isSome := by
    intro c
    by_cases hc : c < 100
    · exact iff_of_true (hres.held c hc) (.inl hc)
    · have hpaired := hres.paired c (Nat.not_lt.mp hc)
      rw [Option.isSome_iff_ne_none, Option.isSome_iff_ne_none, Ne, Ne, hpaired]
      exact (or_iff_right hc).symm
  have hlen := length_iter_of_occupied hocc hge
  refine ⟨hocc, hge, ?_, ?_, ?_⟩
  · rw [hlen]
    exact Nat.le_add_right _ _
  · rw [hlen, Nat.add_sub_cancel_left]
  · intro p hp
    have hget := ExternStableVec.mem_iter.mp hp
    exact (hocc p.1).mpr (.inr (by rw [hget]; rfl))

/-- Client 100 is stored. -/
theorem client_tables_connected : ∃ s : Reactor, s.OpenReachable ∧
    (s.srv.clientOutBuffers.get 100).isSome ∧
      InStep s.srv.clientFds s.srv.clientOutBuffers := by
  obtain ⟨s, hs, hp⟩ := Reactor.exists_reachable Reactor.connect
    (fun s => (s.srv.clientOutBuffers.get 100).isSome) (by decide +kernel)
  exact ⟨s, hs.openReachable, hp, client_tables hs.openReachable⟩

end Tachyon
