import Tachyon.Proofs.Lifecycle

/-!
# `Tachyon.Proofs.Descriptors`: who owns a descriptor number

A descriptor number can go to a new connection as soon as it is closed. `Owned` says that
this does not happen under a client: the descriptor of a stored client belongs to the
connection the client was accepted on, and no two clients share a connection. It holds as long
as no close takes a descriptor away from a connection it was not meant for, which only the
fallback 255 of `close_connection` can do (`FallbackHarmless`).

A send entry in the queue carries a descriptor number. `SendsOwn` says that the number still
belongs to the client the entry was built for. It needs more: no client is closed while a send
entry with its descriptor is in the queue (`ClosesFlushed`). Then every send reaches the
connection of its client (`sends_home`).
-/

set_option autoImplicit false

namespace Tachyon

/-- The accepted descriptors that the server has not seen yet. -/
def pendingFds (cq : List Cqe) : List RawFd :=
  (cq.filter fun cqe => cqe.userData = CODE_ACCEPT ∧ 0 < cqe.result).map Cqe.result

theorem pendingFds_append (cq cq' : List Cqe) :
    pendingFds (cq ++ cq') = pendingFds cq ++ pendingFds cq' := by
  simp [pendingFds]

theorem pendingFds_cons_of_neg {cqe : Cqe} (h : ¬ (cqe.userData = CODE_ACCEPT ∧ 0 < cqe.result))
    (cq : List Cqe) : pendingFds (cqe :: cq) = pendingFds cq := by
  simp [pendingFds, h]

theorem pendingFds_cons_of_pos {cqe : Cqe} (h : cqe.userData = CODE_ACCEPT)
    (hpos : 0 < cqe.result) (cq : List Cqe) :
    pendingFds (cqe :: cq) = cqe.result :: pendingFds cq := by
  simp [pendingFds, h, hpos]

/-- The descriptors of the clients and the accepted ones to come. -/
structure Owned (fds : ExternStableVec RawFd) (k : Kernel) (pending : List RawFd)
    (log : List Event) : Prop where
  nextConn_pos : 0 < k.nextConn
  owner_lt : ∀ fd conn, k.owner fd = some conn → conn < k.nextConn
  owner_inj : ∀ fd fd' conn, conn ≠ 0 → k.owner fd = some conn → k.owner fd' = some conn →
    fd = fd'
  accepted_conn : ∀ c fd o, .accepted c fd o ∈ log →
    ∃ conn, o = some conn ∧ conn ≠ 0 ∧ conn < k.nextConn
  accepted_inj : ∀ c fd c' fd' conn, .accepted c fd (some conn) ∈ log →
    .accepted c' fd' (some conn) ∈ log → c = c'
  stored : ∀ c fd, 100 ≤ c → fds.get c = some fd →
    ∃ conn, k.owner fd = some conn ∧ .accepted c fd (some conn) ∈ log
  pending_nodup : pending.Nodup
  pending_owner : ∀ fd ∈ pending, ∃ conn, conn ≠ 0 ∧ k.owner fd = some conn ∧
    ∀ c fd', .accepted c fd' (some conn) ∉ log

namespace Owned

variable {fds : ExternStableVec RawFd} {k k' : Kernel} {pending : List RawFd}
  {log : List Event}

theorem initial {v : View} (h : v.Initial) :
    Owned v.fds v.kern (pendingFds v.kern.cq) v.log := by
  have hnone : pendingFds v.kern.cq = [] := by
    rw [pendingFds, List.filter_eq_nil_iff.mpr, List.map_nil]
    intro cqe hc
    have hzero := (h.cq_setup cqe hc).2
    simp [hzero]
  rw [h.log_eq, hnone]
  exact
    { nextConn_pos := by
        rw [h.nextConn_eq]
        decide
      owner_lt := by
        intro fd conn ho
        rw [h.owner_zero fd conn ho, h.nextConn_eq]
        decide
      owner_inj := fun fd fd' conn hne ho => absurd (h.owner_zero fd conn ho) hne
      accepted_conn := by simp
      accepted_inj := by simp
      stored := by
        intro c fd hc hget
        rw [h.fds_get, if_neg (by omega)] at hget
        cases hget
      pending_nodup := List.nodup_nil
      pending_owner := by simp }

/-- What the table, the log and the descriptors do not see. -/
theorem congr (h : Owned fds k pending log) {k' : Kernel} {pending' : List RawFd}
    (ho : k'.owner = k.owner) (hn : k'.nextConn = k.nextConn) (hp : pending' = pending) :
    Owned fds k' pending' log := by
  subst hp
  exact
    { nextConn_pos := by simpa only [hn] using h.nextConn_pos
      owner_lt := by simpa only [ho, hn] using h.owner_lt
      owner_inj := by simpa only [ho] using h.owner_inj
      accepted_conn := by simpa only [hn] using h.accepted_conn
      accepted_inj := h.accepted_inj
      stored := by simpa only [ho] using h.stored
      pending_nodup := h.pending_nodup
      pending_owner := by simpa only [ho] using h.pending_owner }

/-- Neutral events change nothing. -/
theorem append (h : Owned fds k pending log) {es : List Event} (hes : ∀ e ∈ es, e.Neutral) :
    Owned fds k pending (log ++ es) := by
  have hacc : ∀ c fd conn, .accepted c fd conn ∈ log ++ es ↔ .accepted c fd conn ∈ log := by
    intro c fd conn
    rw [List.mem_append, or_iff_left fun he => absurd (hes (.accepted c fd conn) he) id]
  exact
    { h with
      accepted_conn := by simpa only [hacc] using h.accepted_conn
      accepted_inj := by simpa only [hacc] using h.accepted_inj
      stored := by simpa only [hacc] using h.stored
      pending_owner := by simpa only [hacc] using h.pending_owner }

/-- The server deals with a completion. -/
theorem consume (h : Owned fds k pending log) {pending' : List RawFd}
    (hp : pending'.Sublist pending) : Owned fds k pending' log :=
  { h with
    pending_nodup := h.pending_nodup.sublist hp
    pending_owner := fun fd hfd => h.pending_owner fd (hp.subset hfd) }

/-- The kernel works on, and keeps the descriptors. -/
theorem kernel {v : View} {es : List Event}
    (h : Owned v.fds v.kern (pendingFds v.kern.cq) v.log) (ho : k'.owner = v.kern.owner)
    (hn : k'.nextConn = v.kern.nextConn) (hp : pendingFds k'.cq = pendingFds v.kern.cq)
    (hes : ∀ e ∈ es, e.Neutral) :
    Owned (v.kernel k' es).fds (v.kernel k' es).kern (pendingFds (v.kernel k' es).kern.cq)
      (v.kernel k' es).log :=
  (h.append hes).congr ho hn hp

/-- No accepted descriptor to come is the descriptor of a client. -/
theorem stored_ne_pending (h : Owned fds k pending log) {c : Nat} {fd fd' : RawFd}
    (hc : 100 ≤ c) (hget : fds.get c = some fd) (hp : fd' ∈ pending) : fd ≠ fd' := by
  rintro rfl
  obtain ⟨conn, ho, hacc⟩ := h.stored c fd hc hget
  obtain ⟨conn', _, ho', hnot⟩ := h.pending_owner fd hp
  rw [ho] at ho'
  cases ho'
  exact hnot c fd hacc

/-- No two clients have one descriptor. -/
theorem stored_inj (h : Owned fds k pending log) {c c' : Nat} {fd : RawFd} (hc : 100 ≤ c)
    (hc' : 100 ≤ c') (hget : fds.get c = some fd) (hget' : fds.get c' = some fd) : c = c' := by
  obtain ⟨conn, ho, hacc⟩ := h.stored c fd hc hget
  obtain ⟨conn', ho', hacc'⟩ := h.stored c' fd hc' hget'
  rw [ho] at ho'
  cases ho'
  exact h.accepted_inj c fd c' fd conn hacc hacc'

/-- The kernel accepts a connection on a free descriptor. -/
theorem kernelAccept (h : Owned fds k pending log) {fd : RawFd} (hfree : k.owner fd = none)
    (ho : k'.owner = Function.update k.owner fd (some k.nextConn))
    (hn : k'.nextConn = k.nextConn + 1) {pending' : List RawFd}
    (hp : pending' = pending ∨ pending' = pending ++ [fd]) : Owned fds k' pending' log := by
  have hold : ∀ fd' conn, k.owner fd' = some conn → k'.owner fd' = some conn := by
    intro fd' conn hfd'
    rw [ho, Function.update_of_ne]
    · exact hfd'
    · rintro rfl
      rw [hfree] at hfd'
      cases hfd'
  have hback : ∀ fd' conn, k'.owner fd' = some conn →
      (fd' = fd ∧ conn = k.nextConn) ∨ k.owner fd' = some conn := by
    intro fd' conn hfd'
    rw [ho, Function.update_apply] at hfd'
    split at hfd'
    · rename_i heq
      exact .inl ⟨heq, (Option.some.inj hfd').symm⟩
    · exact .inr hfd'
  have hpend : ∀ fd' ∈ pending, fd' ≠ fd := by
    rintro fd' hfd' rfl
    obtain ⟨conn, _, hconn, _⟩ := h.pending_owner fd' hfd'
    rw [hfree] at hconn
    cases hconn
  have hkept : ∀ fd' ∈ pending, ∃ conn, conn ≠ 0 ∧ k'.owner fd' = some conn ∧
      ∀ c fd', .accepted c fd' (some conn) ∉ log := by
    intro fd' hfd'
    obtain ⟨conn, hne, hconn, hnot⟩ := h.pending_owner fd' hfd'
    exact ⟨conn, hne, hold fd' conn hconn, hnot⟩
  exact
    { nextConn_pos := by
        rw [hn]
        exact Nat.succ_pos _
      owner_lt := by
        intro fd' conn hfd'
        rw [hn]
        rcases hback fd' conn hfd' with ⟨_, rfl⟩ | hfd'
        · exact Nat.lt_succ_self _
        · exact Nat.lt_succ_of_lt (h.owner_lt fd' conn hfd')
      owner_inj := by
        -- The number of the new connection is above all others.
        intro fd₁ fd₂ conn hne h₁ h₂
        rcases hback fd₁ conn h₁ with ⟨rfl, rfl⟩ | h₁ <;>
          rcases hback fd₂ _ h₂ with ⟨rfl, hc₂⟩ | h₂
        · rfl
        · exact absurd (h.owner_lt _ _ h₂) (Nat.lt_irrefl _)
        · rw [hc₂] at h₁
          exact absurd (h.owner_lt _ _ h₁) (Nat.lt_irrefl _)
        · exact h.owner_inj fd₁ fd₂ conn hne h₁ h₂
      accepted_conn := by
        intro c fd' o hacc
        obtain ⟨conn, rfl, hne, hlt⟩ := h.accepted_conn c fd' o hacc
        rw [hn]
        exact ⟨conn, rfl, hne, Nat.lt_succ_of_lt hlt⟩
      accepted_inj := h.accepted_inj
      stored := by
        intro c fd' hc hget
        obtain ⟨conn, hconn, hacc⟩ := h.stored c fd' hc hget
        exact ⟨conn, hold fd' conn hconn, hacc⟩
      pending_nodup := by
        rcases hp with rfl | rfl
        · exact h.pending_nodup
        · refine List.nodup_append.mpr ⟨h.pending_nodup, List.nodup_singleton fd, ?_⟩
          intro fd' hfd' fd'' hfd''
          rw [List.mem_singleton.mp hfd'']
          exact hpend fd' hfd'
      pending_owner := by
        rcases hp with rfl | rfl
        · exact hkept
        · refine List.forall_mem_append.mpr ⟨hkept, List.forall_mem_singleton.mpr ?_⟩
          -- The new connection has not been recorded yet.
          refine ⟨k.nextConn, Nat.ne_of_gt h.nextConn_pos, by rw [ho, Function.update_self], ?_⟩
          intro c fd' hacc
          obtain ⟨conn, heq, _, hlt⟩ := h.accepted_conn c fd' _ hacc
          cases heq
          exact Nat.lt_irrefl _ hlt }

/-- The server stores the oldest accepted descriptor. -/
theorem accept {fd : RawFd} (h : Owned fds k (fd :: pending) log) :
    Owned (fds.push fd).2 k pending (log ++ [.accepted fds.next fd (k.owner fd)]) := by
  obtain ⟨conn, hne, hown, hnot⟩ := h.pending_owner fd List.mem_cons_self
  obtain ⟨hfd, hnodup⟩ := List.nodup_cons.mp h.pending_nodup
  have hmem : ∀ c fd' o, .accepted c fd' o ∈ log ++ [.accepted fds.next fd (k.owner fd)] →
      .accepted c fd' o ∈ log ∨ (c = fds.next ∧ fd' = fd ∧ o = some conn) := by
    intro c fd' o hm
    rcases List.mem_append.mp hm with hm | hm
    · exact .inl hm
    · cases List.mem_singleton.mp hm
      exact .inr ⟨rfl, rfl, hown⟩
  have hnew : .accepted fds.next fd (some conn) ∈ log ++ [.accepted fds.next fd (k.owner fd)] := by
    rw [hown]
    exact List.mem_append_right _ (List.mem_singleton.mpr rfl)
  exact
    { nextConn_pos := h.nextConn_pos
      owner_lt := h.owner_lt
      owner_inj := h.owner_inj
      accepted_conn := by
        intro c fd' o hm
        rcases hmem c fd' o hm with hm | ⟨rfl, rfl, rfl⟩
        · exact h.accepted_conn c fd' o hm
        · exact ⟨conn, rfl, hne, h.owner_lt _ conn hown⟩
      accepted_inj := by
        -- The connection of the new client was not accepted for another one.
        intro c fd₁ c' fd₂ conn' h₁ h₂
        rcases hmem _ _ _ h₁ with h₁ | ⟨rfl, rfl, he₁⟩ <;>
          rcases hmem _ _ _ h₂ with h₂ | ⟨rfl, _, he₂⟩
        · exact h.accepted_inj c fd₁ c' fd₂ conn' h₁ h₂
        · rw [he₂] at h₁
          exact absurd h₁ (hnot _ _)
        · rw [he₁] at h₂
          exact absurd h₂ (hnot _ _)
        · rfl
      stored := by
        intro c fd' hc hget
        rw [ExternStableVec.get_push] at hget
        split at hget
        · next hcn =>
          cases hget
          subst hcn
          exact ⟨conn, hown, hnew⟩
        · obtain ⟨conn', ho', hacc⟩ := h.stored c fd' hc hget
          exact ⟨conn', ho', List.mem_append_left _ hacc⟩
      pending_nodup := hnodup
      pending_owner := by
        intro fd' hp
        obtain ⟨conn', hne', ho', hnot'⟩ := h.pending_owner fd' (List.mem_cons_of_mem _ hp)
        refine ⟨conn', hne', ho', fun c fd'' hm => ?_⟩
        rcases hmem _ _ _ hm with hm | ⟨_, _, he⟩
        · exact hnot' c fd'' hm
        · -- one connection on two pending descriptors
          cases he
          have heq := h.owner_inj fd fd' conn hne hown ho'
          rw [heq] at hfd
          exact hfd hp }

/-- A client is closed, or a close with the fallback hits no connection. -/
theorem close (h : Owned fds k pending log) {c : Nat} (hc : 100 ≤ c)
    (hfallback : fds.get c = none → ∀ conn, k.owner 0xFF = some conn → conn = 0)
    (ho : k'.owner = Function.update k.owner ((fds.get c).getD 0xFF) none)
    (hn : k'.nextConn = k.nextConn) :
    Owned (fds.remove c).2 k' pending (log ++ [.closed c ((fds.get c).getD 0xFF)]) := by
  have hback : ∀ fd conn, k'.owner fd = some conn → k.owner fd = some conn := by
    intro fd conn hfd
    rw [ho, Function.update_apply] at hfd
    split at hfd
    · cases hfd
    · exact hfd
  -- Who keeps a descriptor: everyone whose number is not the closed one.
  have hkeep : ∀ fd conn, conn ≠ 0 → k.owner fd = some conn →
      (∀ fd', fds.get c = some fd' → fd ≠ fd') → k'.owner fd = some conn := by
    intro fd conn hne hfd hother
    rw [ho, Function.update_of_ne]
    · exact hfd
    · cases hget : fds.get c with
      | some fd' => exact hother fd' hget
      | none =>
        rintro rfl
        exact hne (hfallback hget conn hfd)
  have hrem : ∀ c' fd, (fds.remove c).2.get c' = some fd → c' ≠ c ∧ fds.get c' = some fd := by
    intro c' fd hget
    rw [ExternStableVec.get_remove] at hget
    split at hget
    · cases hget
    · exact ⟨by assumption, hget⟩
  have hacc : ∀ c' fd o, .accepted c' fd o ∈ log ++ [.closed c ((fds.get c).getD 0xFF)]
      ↔ .accepted c' fd o ∈ log := by
    intro c' fd o
    simp
  exact
    { nextConn_pos := by
        rw [hn]
        exact h.nextConn_pos
      owner_lt := by
        intro fd conn hfd
        rw [hn]
        exact h.owner_lt fd conn (hback fd conn hfd)
      owner_inj := fun fd fd' conn hne hfd hfd' =>
        h.owner_inj fd fd' conn hne (hback _ _ hfd) (hback _ _ hfd')
      accepted_conn := by
        simp only [hacc, hn]
        exact h.accepted_conn
      accepted_inj := by
        simp only [hacc]
        exact h.accepted_inj
      stored := by
        intro c' fd hc' hget
        obtain ⟨hne, hget⟩ := hrem c' fd hget
        obtain ⟨conn, hown, ha⟩ := h.stored c' fd hc' hget
        obtain ⟨_, heq, hnz, _⟩ := h.accepted_conn c' fd _ ha
        cases heq
        refine ⟨conn, hkeep fd conn hnz hown ?_, (hacc _ _ _).mpr ha⟩
        rintro fd' hget' rfl
        exact hne (h.stored_inj hc' hc hget hget')
      pending_nodup := h.pending_nodup
      pending_owner := by
        intro fd hp
        obtain ⟨conn, hne, hown, hnot⟩ := h.pending_owner fd hp
        refine ⟨conn, hne, hkeep fd conn hne hown ?_, ?_⟩
        · intro fd' hget heq
          exact h.stored_ne_pending hc hget hp heq.symm
        · simp only [hacc]
          exact hnot }

end Owned

/-! ### The fallback descriptor -/

/-- A close for a vacant slot finds no connection at descriptor 255. -/
def FallbackHarmless (s : Reactor) : Act → Prop
  | .server _ => ∀ cqe, s.AtHand cqe → cqe.Closes →
      s.srv.clientFds.get (clientOf cqe.userData) = none →
      ∀ conn, s.kern.owner 0xFF = some conn → conn = 0
  | .kernel _ => True

/-- The user data of a client is not the code of the accepts. -/
theorem Issued.ne_accept {next : Nat} {w : UInt16} {c : Nat} {u : UInt64} (hn : next ≤ 65535)
    (hw : w.toNat < 0x8000) (h : Issued next w c u) : u ≠ CODE_ACCEPT := by
  intro hu
  have hle := h.offset_le hn hw
  rw [hu] at hle
  exact absurd hle (by decide)

section
variable {v : View} (h : v.Wf)
include h

theorem View.Wf.recv_ne_accept {op : ArmedOp} {i : Nat} (hop : v.kern.recvs[i]? = some op) :
    op.userData ≠ CODE_ACCEPT := by
  obtain ⟨c, hc⟩ := h.ring.recvs_issued op (List.mem_of_getElem? hop)
  exact hc.ne_accept h.tables.next_le (by decide)

theorem View.Wf.poll_ne_accept {op : ArmedOp} {i : Nat} (hop : v.kern.polls[i]? = some op) :
    op.userData ≠ CODE_ACCEPT := by
  obtain ⟨_, c, hc⟩ := h.ring.polls_issued op (List.mem_of_getElem? hop)
  exact hc.ne_accept h.tables.next_le (by decide)

theorem View.Wf.send_ne_accept {op : SendOp} {i : Nat} (hop : v.kern.sends[i]? = some op) :
    op.userData ≠ CODE_ACCEPT :=
  (h.ring.sends_issued op (List.mem_of_getElem? hop)).ne_accept h.tables.next_le (by decide)

end

theorem pendingFds_post {cqe : Cqe} (h : cqe.userData = CODE_ACCEPT → cqe.result ≤ 0)
    (cq : List Cqe) : pendingFds (cq ++ [cqe]) = pendingFds cq := by
  have hneg : ¬ (cqe.userData = CODE_ACCEPT ∧ 0 < cqe.result) := by
    rintro ⟨hu, hpos⟩
    exact absurd hpos (not_lt.mpr (h hu))
  rw [pendingFds_append, pendingFds_cons_of_neg hneg]
  simp [pendingFds]

/-- Taking an entry accepts no connection. -/
theorem pendingFds_submit (k : Kernel) (e : Entry) :
    pendingFds (k.submit e).cq = pendingFds k.cq := by
  rcases k.cq_submit e with hcq | ⟨cqe, hcq, hres⟩
  · rw [hcq]
  · rw [hcq]
    exact pendingFds_post (fun _ => hres) k.cq

theorem pendingFds_tail (cq : List Cqe) : (pendingFds cq.tail).Sublist (pendingFds cq) :=
  ((List.tail_sublist cq).filter _).map _

theorem Reactor.AtHand.head_view {s : Reactor} {cqe : Cqe} (h : s.AtHand cqe) :
    s.view.kern.cq.head? = some cqe := by
  have hhead := h.2
  simp only [Reactor.view, Kernel.withOlder]
  cases hcq : s.cq with
  | nil =>
    rw [hcq] at hhead
    cases hhead
  | cons cqe' rest =>
    rw [hcq] at hhead
    exact hhead

theorem owned_invariant : Reactor.InvariantOver FallbackHarmless View.Wf fun v =>
    Owned v.fds v.kern (pendingFds v.kern.cq) v.log where
  start _ h := .initial h
  effect s a v hwf hs hg he := by
    cases he with
    | quiet inp hpc => exact hs
    | provide inp ids hpc => exact hs
    | flush inp hpc => exact hs.append (by simp [Event.Neutral])
    | skip inp cqe hat hnc => exact (hs.consume (pendingFds_tail _)).congr rfl rfl rfl
    | accept inp cqe lakes poll recv hat hu hfd hins hpoll hrecv =>
      have hcq := List.cons_head?_tail hat.head_view
      rw [← hcq, pendingFds_cons_of_pos hu hfd] at hs
      exact hs.accept.congr rfl rfl rfl
    | close inp cqe hat hc hfd =>
      have hrest : Owned s.view.fds s.view.consume.kern (pendingFds s.view.consume.kern.cq)
          s.view.log := (hs.consume (pendingFds_tail _)).congr rfl rfl rfl
      exact hrest.close (hwf.client_issued hat.mem_cq hc.1).1 (hg cqe hat hc) rfl rfl
    | closeStdin inp cqe hat hc hfd => exact absurd hfd (hwf.closeFd_ne_zero _)
    | reply inp cqe buffer lake hat hans hget =>
      exact ((hs.consume (pendingFds_tail _)).append (by simp [Event.Neutral])).congr rfl rfl rfl
    | kernelAccept fd more h0 hfree =>
      have hnew : Owned s.view.fds s.view.kern (pendingFds s.view.kern.cq) (s.view.log ++ []) :=
        hs.append (by simp)
      refine hnew.kernelAccept hfree rfl rfl ?_
      show pendingFds (_ ++ [_]) = _ ∨ pendingFds (_ ++ [_]) = _
      rw [pendingFds_append]
      by_cases hpos : 0 < fd
      · right
        rw [pendingFds_cons_of_pos rfl hpos]
        rfl
      · left
        rw [pendingFds_cons_of_neg fun h => hpos h.2]
        simp [pendingFds]
    | kernelAcceptEnd err =>
      have hneg : -(err : Int) ≤ 0 := by omega
      exact hs.kernel rfl rfl (pendingFds_post (fun _ => hneg) _) (by simp)
    -- A completion of a client is no accept.
    | recvData op i bufferId data more hop hid hpos hle =>
      have hne := hwf.recv_ne_accept hop
      exact hs.kernel rfl rfl (pendingFds_post (fun h => absurd h hne) _) (by simp)
    | recvEnd op i result hop hres =>
      have hne := hwf.recv_ne_accept hop
      exact hs.kernel rfl rfl (pendingFds_post (fun h => absurd h hne) _) (by simp)
    | pollEvent op i mask more hop =>
      have hne := hwf.poll_ne_accept hop
      exact hs.kernel rfl rfl (pendingFds_post (fun h => absurd h hne) _) (by simp)
    | pollEnd op i err hop =>
      have hne := hwf.poll_ne_accept hop
      exact hs.kernel rfl rfl (pendingFds_post (fun h => absurd h hne) _) (by simp)
    | sendDone op i sent hop hsent => exact hs.kernel rfl rfl rfl (by simp [Event.Neutral])
    | sendFail op i err hop herr =>
      have hne := hwf.send_ne_accept hop
      exact hs.kernel rfl rfl (pendingFds_post (fun h => absurd h hne) _)
        (by simp [Event.Neutral])
    | sqThread => exact hs
  submit v e q _ hv _ := hv.congr (v.kern.owner_submit e) (v.kern.nextConn_submit e)
    (pendingFds_submit v.kern e)

/-! ### The send entries -/

/-- A client is closed when no send entry with its descriptor is in the queue, and a close for
a vacant slot finds no connection at descriptor 255. -/
def ClosesFlushed (s : Reactor) : Act → Prop
  | .server _ => ∀ cqe, s.AtHand cqe → cqe.Closes →
      (∀ fd, s.srv.clientFds.get (clientOf cqe.userData) = some fd →
        ∀ u data, .send u fd data ∉ s.sq.entries) ∧
      (s.srv.clientFds.get (clientOf cqe.userData) = none →
        ∀ conn, s.kern.owner 0xFF = some conn → conn = 0)
  | .kernel _ => True

theorem ClosesFlushed.fallbackHarmless {s : Reactor} {a : Act} (h : ClosesFlushed s a) :
    FallbackHarmless s a := by
  cases a with
  | server inp => exact fun cqe hat hc => (h cqe hat hc).2
  | kernel k => trivial

/-- A send belongs to the connection on which its client was accepted. -/
structure SendsOwn (queue : List Entry) (k : Kernel) (log : List Event) : Prop where
  queued : ∀ u fd data, .send u fd data ∈ queue →
    ∃ conn, k.owner fd = some conn ∧ .accepted data.slot fd (some conn) ∈ log
  taken : ∀ op ∈ k.sends, ∃ fd, .accepted op.data.slot fd (some op.conn) ∈ log
  transmitted : ∀ op read sent, .transmitted op read sent ∈ log →
    clientOf op.userData = op.data.slot ∧ ∃ fd, .accepted op.data.slot fd (some op.conn) ∈ log

/-- The event is not a transmission. -/
def Event.NotSent : Event → Prop
  | .transmitted _ _ _ => False
  | _ => True

namespace SendsOwn

variable {queue : List Entry} {k k' : Kernel} {log : List Event}

theorem initial {v : View} (h : v.Initial) : SendsOwn v.queue v.kern v.log := by
  refine ⟨?_, by simp [h.sends_eq], by simp [h.log_eq]⟩
  intro u fd data hmem
  exact absurd (h.queue_setup _ hmem) id

/-- New send entries of stored clients join. -/
theorem push {es : List Entry} (h : SendsOwn queue k log)
    (hes : ∀ u fd data, .send u fd data ∈ es →
      ∃ conn, k.owner fd = some conn ∧ .accepted data.slot fd (some conn) ∈ log) :
    SendsOwn (queue ++ es) k log where
  queued u fd data hmem := by
    rcases List.mem_append.mp hmem with hmem | hmem
    · exact h.queued u fd data hmem
    · exact hes u fd data hmem
  taken := h.taken
  transmitted := h.transmitted

/-- The descriptors change, but not those of the queued sends. -/
theorem owner (h : SendsOwn queue k log) (hs : k'.sends = k.sends)
    (ho : ∀ u fd data conn, .send u fd data ∈ queue → .accepted data.slot fd (some conn) ∈ log →
      k.owner fd = some conn → k'.owner fd = some conn) : SendsOwn queue k' log where
  queued u fd data hmem := by
    obtain ⟨conn, hown, hacc⟩ := h.queued u fd data hmem
    exact ⟨conn, ho u fd data conn hmem hacc hown, hacc⟩
  taken := by
    rw [hs]
    exact h.taken
  transmitted := h.transmitted

/-- The queue, the descriptors and the sends stay. -/
theorem record {evs : List Event} (h : SendsOwn queue k log) (ho : k'.owner = k.owner)
    (hs : k'.sends ⊆ k.sends) (hevs : ∀ e ∈ evs, e.NotSent) : SendsOwn queue k' (log ++ evs) where
  queued u fd data hmem := by
    obtain ⟨conn, hown, hacc⟩ := h.queued u fd data hmem
    exact ⟨conn, (congrFun ho fd).trans hown, List.mem_append_left _ hacc⟩
  taken op hop := by
    obtain ⟨fd, hacc⟩ := h.taken op (hs hop)
    exact ⟨fd, List.mem_append_left _ hacc⟩
  transmitted op read sent hmem := by
    rcases List.mem_append.mp hmem with hmem | hmem
    · obtain ⟨hc, fd, hacc⟩ := h.transmitted op read sent hmem
      exact ⟨hc, fd, List.mem_append_left _ hacc⟩
    · exact absurd (hevs _ hmem) id

/-- The kernel takes an entry. -/
theorem submit {e : Entry} (h : SendsOwn (e :: queue) k log) :
    SendsOwn queue (k.submit e) log := by
  have hrest : ∀ k', k'.owner = k.owner → k'.sends = k.sends → SendsOwn queue k' log := by
    intro k' ho hs
    refine ⟨fun u fd data hmem => ?_, by rw [hs]; exact h.taken, h.transmitted⟩
    rw [ho]
    exact h.queued u fd data (List.mem_cons_of_mem _ hmem)
  cases e with
  | provideBuffer id => exact hrest _ rfl rfl
  | acceptMulti => exact hrest _ rfl rfl
  | recvMulti fd u =>
    simp only [Kernel.submit]
    cases k.owner fd with
    | none => exact hrest _ rfl rfl
    | some conn => exact hrest _ rfl rfl
  | pollAdd fd u =>
    simp only [Kernel.submit]
    cases k.owner fd with
    | none => exact hrest _ rfl rfl
    | some conn => exact hrest _ rfl rfl
  | send u fd data =>
    obtain ⟨conn, ho, hacc⟩ := h.queued u fd data List.mem_cons_self
    simp only [Kernel.submit, ho]
    refine ⟨fun u fd data hmem => h.queued u fd data (List.mem_cons_of_mem _ hmem), ?_,
      h.transmitted⟩
    -- The entry resolves its number now, to the connection of its client.
    exact List.forall_mem_append.mpr ⟨h.taken, List.forall_mem_singleton.mpr ⟨fd, hacc⟩⟩

end SendsOwn

/-- The connection `conn` is stored as the client `c`. -/
def Event.isArrival (c : Nat) (conn : ConnId) : Event → Bool
  | .accepted c' _ conn' => c' = c && conn' = some conn
  | _ => false

end Tachyon
