import Tachyon.Proofs.Descriptors

/-!
# `Tachyon.Proofs.Recv`: the multishot recv of a client

Closing a descriptor does not end the multishot recv that was armed on it. The server removes
the client from both tables, and `request_reply` does not check whether the client is there.
So the access is to a live buffer only if a client is removed when nothing of its recv is
left: no entry in the queue, no armed operation, no data completion (`RecvOver`). With this
condition on every close, `delivers_live` holds in every reachable state.

The other direction is `Readable`: a stored client has a recv entry in the queue or an armed
recv. Nothing arms a recv again, so the property needs that none ends (`RecvKept`). If the
recv of a client ends with 0 or `-ECONNRESET`, the client is removed when the completion is
processed (`readable_until_close`).
-/

set_option autoImplicit false

namespace Tachyon

/-! ### The access of `request_reply` -/

/-- Nothing of the client's multishot recv is left. -/
structure RecvOver (v : View) (c : Nat) : Prop where
  queue : ∀ fd u, .recvMulti fd u ∈ v.queue → clientOf u ≠ c
  recvs : ∀ op ∈ v.kern.recvs, clientOf op.userData ≠ c
  cq : ∀ cqe ∈ v.kern.cq, cqe.Delivers v.dma → clientOf cqe.userData ≠ c

/-- A client is closed when its recv is over. -/
def ClosesAfterRecv (s : Reactor) : Act → Prop
  | .server _ => ∀ cqe, s.AtHand cqe → cqe.Closes → RecvOver s.view (clientOf cqe.userData)
  | .kernel _ => True

namespace RecvOver

variable {v v' : View} {c : Nat}

/-- Nothing new of the client appears. -/
theorem mono (h : RecvOver v c) (hdma : v'.dma = v.dma)
    (hq : ∀ fd u, .recvMulti fd u ∈ v'.queue → .recvMulti fd u ∈ v.queue)
    (hr : v'.kern.recvs ⊆ v.kern.recvs) (hcq : v'.kern.cq ⊆ v.kern.cq) : RecvOver v' c where
  queue fd u hmem := h.queue fd u (hq fd u hmem)
  recvs op hop := h.recvs op (hr hop)
  cq cqe hmem hd := h.cq cqe (hcq hmem) (hdma ▸ hd)

/-- The kernel posts a completion that is no data of the client. -/
theorem post (h : RecvOver v c) {cqe : Cqe} (hdma : v'.dma = v.dma)
    (hcq : v'.kern.cq = v.kern.cq ++ [cqe])
    (hne : cqe.Delivers v.dma → clientOf cqe.userData ≠ c)
    (hq : ∀ fd u, .recvMulti fd u ∈ v'.queue → .recvMulti fd u ∈ v.queue)
    (hr : v'.kern.recvs ⊆ v.kern.recvs) : RecvOver v' c where
  queue fd u hmem := h.queue fd u (hq fd u hmem)
  recvs op hop := h.recvs op (hr hop)
  cq cqe' hmem hd := by
    rw [hcq] at hmem
    rw [hdma] at hd
    rcases List.mem_append.mp hmem with hmem | hmem
    · exact h.cq cqe' hmem hd
    · cases List.mem_singleton.mp hmem
      exact hne hd

end RecvOver

/-- A completion with a result of at most 0 delivers nothing. -/
theorem Cqe.not_delivers_of_nonpos {dma : Bool} {cqe : Cqe} (h : cqe.result ≤ 0) :
    ¬ cqe.Delivers dma :=
  fun hd => absurd hd.2.1 (not_lt.mpr h)

/-- A completion below the offset delivers nothing. -/
theorem Cqe.not_delivers_of_lt {dma : Bool} {cqe : Cqe} (h : ¬ REQ_RESP_OFFSET ≤ cqe.userData) :
    ¬ cqe.Delivers dma :=
  fun hd => h hd.1

theorem accept_not_offset_le : ¬ REQ_RESP_OFFSET ≤ CODE_ACCEPT := by decide

namespace RecvOver

variable {v : View} {c : Nat}

/-- Entries join the queue, and none of them is a recv of the client. -/
theorem push (h : RecvOver v c) {es : List Entry}
    (hes : ∀ fd u, .recvMulti fd u ∈ es → clientOf u ≠ c) : RecvOver (v.push es) c where
  queue fd u hmem := by
    rcases List.mem_append.mp hmem with hmem | hmem
    · exact h.queue fd u hmem
    · exact hes fd u hmem
  recvs := h.recvs
  cq := h.cq

theorem consume (h : RecvOver v c) : RecvOver v.consume c :=
  h.mono rfl (fun _ _ h => h) (List.Subset.refl _) (List.tail_sublist _).subset

/-- The kernel takes an entry. A recv that it arms is for another client. -/
theorem submit {e : Entry} {q : List Entry} (h : RecvOver v c) (hq : v.queue = e :: q) :
    RecvOver { v with queue := q, kern := v.kern.submit e } c := by
  have hrest : ∀ fd u, .recvMulti fd u ∈ q → .recvMulti fd u ∈ v.queue := by
    intro fd u hmem
    rw [hq]
    exact List.mem_cons_of_mem _ hmem
  -- An entry that arms no recv leaves the recvs as they are, and it posts no data.
  have hother : (v.kern.submit e).recvs = v.kern.recvs →
      RecvOver { v with queue := q, kern := v.kern.submit e } c := by
    intro hrecvs
    have hsub : (v.kern.submit e).recvs ⊆ v.kern.recvs := by
      rw [hrecvs]
      exact List.Subset.refl _
    rcases v.kern.cq_submit e with hcq | ⟨cqe, hcq, hres⟩
    · have hsame : (v.kern.submit e).cq ⊆ v.kern.cq := by
        rw [hcq]
        exact List.Subset.refl _
      exact h.mono rfl hrest hsub hsame
    · exact h.post rfl hcq (fun hd => absurd hd (Cqe.not_delivers_of_nonpos hres)) hrest hsub
  cases e with
  | provideBuffer id => exact hother rfl
  | acceptMulti => exact hother rfl
  | recvMulti fd u =>
    have hne : clientOf u ≠ c := h.queue fd u (by rw [hq]; exact List.mem_cons_self)
    cases ho : v.kern.owner fd with
    | none =>
      refine hother ?_
      simp only [Kernel.submit, ho]
      rfl
    | some conn =>
      simp only [Kernel.submit, ho]
      exact ⟨fun fd u hmem => h.queue fd u (hrest fd u hmem),
        List.forall_mem_append.mpr ⟨h.recvs, List.forall_mem_singleton.mpr hne⟩, h.cq⟩
  | pollAdd fd u | send u fd data =>
    refine hother ?_
    simp only [Kernel.submit]
    split <;> rfl

end RecvOver

/-- The recv entry of an accept is for the index that it gives out. -/
theorem clientOf_accept_recv {next : Nat} (hge : 100 ≤ next) (hlt : next < 65535)
    {poll recv : Bool} {fd fd' : RawFd} {u : UInt64}
    (h : .recvMulti fd' u ∈
      (if poll then [.pollAdd fd (clientData next POLL_EVENT).packUserData] else [])
        ++ if recv then [Entry.recvMulti fd (clientData next INIT_REQUEST).packUserData] else []) :
    clientOf u = next := by
  have hnew : Issued (next + 1) INIT_REQUEST next (clientData next INIT_REQUEST).packUserData :=
    ⟨hge, Nat.lt_succ_self _, rfl⟩
  rcases List.mem_append.mp h with hmem | hmem
  · split at hmem <;> simp at hmem
  · split at hmem
    · cases List.mem_singleton.mp hmem
      exact hnew.clientOf_eq hlt (by decide)
    · cases hmem

/-- The recv of every vacant client is over. -/
theorem recvOver_invariant : Reactor.InvariantOver ClosesAfterRecv View.Wf fun v =>
    ∀ c, v.lakes.get c = none → RecvOver v c where
  start v h := by
    intro c _
    refine ⟨fun fd u hmem => absurd (h.queue_setup _ hmem) id, by simp [h.recvs_eq], ?_⟩
    intro cqe hmem hd
    have hpos := hd.2.1
    rw [(h.cq_setup cqe hmem).2] at hpos
    exact absurd hpos (lt_irrefl 0)
  effect s a v hwf hs hg he := by
    have hn := hwf.tables.next_le
    intro c hc
    cases he with
    | quiet inp hpc => exact hs c hc
    | provide inp ids hpc =>
      refine (hs c hc).push fun fd u hmem => ?_
      simp at hmem
    | flush inp hpc =>
      have hvac : s.view.lakes.get c = none := by
        have hget : (Reactor.resetSent s.view.fds s.view.lakes).get c = none := hc
        rwa [get_resetSent, Option.map_eq_none_iff] at hget
      have hpush : RecvOver (s.view.push (Reactor.sendEntries s.view.fds s.view.lakes)) c := by
        refine (hs c hvac).push fun fd u hmem => ?_
        obtain ⟨_, _, _, _, _, _, heq⟩ := mem_sendEntries.mp hmem
        cases heq
      exact ⟨hpush.queue, hpush.recvs, hpush.cq⟩
    | skip inp cqe hat hnc => exact (hs c hc).consume
    | accept inp cqe lakes poll recv hat hu hfd hins hpoll hrecv =>
      obtain ⟨hlt, _, hget⟩ := ExternStableVec.insert_eq_some hins
      rw [hwf.tables.capacity_eq] at hlt
      have hvac : c ≠ s.view.fds.next ∧ s.view.lakes.get c = none := by
        have hnone : lakes.get c = none := hc
        rw [hget] at hnone
        split at hnone
        · cases hnone
        · exact ⟨by assumption, hnone⟩
      have hrest := (hs c hvac.2).consume
      refine ⟨fun fd u hmem => ?_, hrest.recvs, hrest.cq⟩
      rcases List.mem_append.mp hmem with hmem | hmem
      · exact hrest.queue fd u hmem
      · -- The new entry is for the new client.
        rw [clientOf_accept_recv hwf.tables.next_ge hlt hmem]
        exact Ne.symm hvac.1
    | close inp cqe hat hclose hfd =>
      have hover : RecvOver s.view c := by
        have hget : (s.view.lakes.remove (clientOf cqe.userData)).2.get c = none := hc
        rw [ExternStableVec.get_remove] at hget
        split at hget
        · rename_i heq
          rw [heq]
          exact hg cqe hat hclose
        · exact hs c hget
      exact ⟨hover.consume.queue, hover.consume.recvs, hover.consume.cq⟩
    | closeStdin inp cqe hat hclose hfd => exact absurd hfd (hwf.closeFd_ne_zero _)
    | reply inp cqe buffer lake hat hans hget =>
      have hvac : s.view.lakes.get c = none := by
        have hnone : (s.view.lakes.set (clientOf cqe.userData) _).get c = none := hc
        rwa [ExternStableVec.get_set, Option.map_eq_none_iff] at hnone
      have hrest := (hs c hvac).consume
      exact ⟨hrest.queue, hrest.recvs, hrest.cq⟩
    | kernelAccept fd more h0 hfree =>
      exact (hs c hc).post rfl rfl
        (fun hd => absurd hd (Cqe.not_delivers_of_lt accept_not_offset_le))
        (fun _ _ h => h) (List.Subset.refl _)
    | kernelAcceptEnd err =>
      exact (hs c hc).post rfl rfl
        (fun hd => absurd hd (Cqe.not_delivers_of_lt accept_not_offset_le))
        (fun _ _ h => h) (List.Subset.refl _)
    | recvData op i bufferId data more hop hid hpos hle =>
      have hne := (hs c hc).recvs op (List.mem_of_getElem? hop)
      refine (hs c hc).post rfl rfl (fun _ => hne) (fun _ _ h => h) ?_
      cases more with
      | true => exact List.Subset.refl _
      | false => exact List.eraseIdx_subset
    | recvEnd op i result hop hres =>
      exact (hs c hc).post rfl rfl (fun hd => absurd hd (Cqe.not_delivers_of_nonpos hres))
        (fun _ _ h => h) List.eraseIdx_subset
    | pollEvent op i mask more hop =>
      obtain ⟨hdma, c', hissued⟩ := hwf.ring.polls_issued op (List.mem_of_getElem? hop)
      refine (hs c hc).post rfl rfl (fun hd => ?_) (fun _ _ h => h) (List.Subset.refl _)
      exact absurd ⟨hissued.uniqOf_eq hn (by decide), hdma⟩ hd.2.2.2
    | pollEnd op i err hop =>
      have hneg : -(err : Int) ≤ 0 := by omega
      exact (hs c hc).post rfl rfl (fun hd => absurd hd (Cqe.not_delivers_of_nonpos hneg))
        (fun _ _ h => h) (List.Subset.refl _)
    | sendDone op i sent hop hsent =>
      exact (hs c hc).mono rfl (fun _ _ h => h) (List.Subset.refl _) (List.Subset.refl _)
    | sendFail op i err hop herr =>
      have hneg : -(err : Int) ≤ 0 := by omega
      exact (hs c hc).post rfl rfl (fun hd => absurd hd (Cqe.not_delivers_of_nonpos hneg))
        (fun _ _ h => h) (List.Subset.refl _)
    | sqThread => exact hs c hc
  submit v e q _ hv hq := by
    intro c hc
    exact (hv c hc).submit hq

/-- Whenever a completion reaches `request_reply`, the slot of its client is occupied. -/
def DeliversLive (s : Reactor) : Prop :=
  ∀ cqe, s.AtHand cqe → cqe.Delivers s.srv.ubKernelDma →
    (s.srv.clientOutBuffers.get (clientOf cqe.userData)).isSome

/-- As long as clients are closed after their recv is over, `request_reply` finds a live output
buffer. -/
theorem delivers_live {s : Reactor} (h : s.ReachableUnder ClosesAfterRecv) : DeliversLive s := by
  obtain ⟨_, hover⟩ := ((wf_invariant _).and recvOver_invariant).reachable h
  intro cqe hat hd
  cases hget : s.srv.clientOutBuffers.get (clientOf cqe.userData) with
  | some lake => rfl
  | none => exact absurd rfl ((hover _ hget).cq cqe hat.mem_cq hd)

/-- A completion with data is at hand. -/
def dataAtHand (s : Reactor) : Bool :=
  s.pc = .process && s.cq.head?.any fun cqe => cqe.Delivers s.srv.ubKernelDma

/-- The client of a multishot recv entry. -/
def Entry.recvClient : Entry → Option Nat
  | .recvMulti _ u => some (clientOf u)
  | _ => none

/-- `RecvOver` of the client that a completion closes, computed. -/
def recvIsOver (s : Reactor) (cqe : Cqe) : Bool :=
  let c := clientOf cqe.userData
  s.view.queue.all (fun e => e.recvClient ≠ some c)
    && s.view.kern.recvs.all (fun op => clientOf op.userData ≠ c)
    && s.view.kern.cq.all fun other =>
      !decide (other.Delivers s.view.dma) || clientOf other.userData ≠ c

theorem recvOver_of_recvIsOver {s : Reactor} {cqe : Cqe} (h : recvIsOver s cqe = true) :
    RecvOver s.view (clientOf cqe.userData) := by
  simp only [recvIsOver, Bool.and_eq_true, List.all_eq_true, decide_eq_true_eq, Bool.or_eq_true,
    Bool.not_eq_true', decide_eq_false_iff_not] at h
  obtain ⟨⟨hqueue, hrecvs⟩, hcq⟩ := h
  constructor
  · intro fd u hmem hc
    exact hqueue _ hmem (congrArg some hc)
  · exact hrecvs
  · intro other hmem hd
    exact (hcq other hmem).resolve_left (not_not.mpr hd)

/-- Client 100 leaves and is closed after its recv has ended. The request of the next client is at
hand. -/
theorem delivers_live_connected : ∃ s, s.ReachableUnder ClosesAfterRecv ∧
    s.log.any (Event.isClosed 100 5) = true ∧ dataAtHand s = true ∧ DeliversLive s := by
  obtain ⟨s, hs, hp⟩ := exists_closes ClosesAfterRecv recvIsOver
    (fun s inp hok cqe hat hc => recvOver_of_recvIsOver (hok cqe hat hc)) (fun _ _ => trivial)
    (Reactor.connect ++ .kernel (.recvEnd 0 0) :: Reactor.rounds 14 ++ Reactor.connect
      ++ .kernel (.recvData 0 0 Reactor.plaintextRequest true) :: Reactor.rounds 7)
    (fun s => s.log.any (Event.isClosed 100 5) && dataAtHand s) (by decide +kernel)
  rw [Bool.and_eq_true] at hp
  exact ⟨s, hs, hp.1, hp.2, delivers_live hs⟩

/-- The send to client 100 fails with `-ECONNRESET`, and its armed recv delivers once more. The
data completion finds the slot vacant. -/
theorem not_delivers_live : ¬ ∀ s, Reactor.Reachable s → DeliversLive s := by
  intro hall
  obtain ⟨s, hs, hp⟩ := Reactor.exists_reachable
    (Reactor.connect ++ Reactor.serve ++ .kernel (.sendFail 0 104)
      :: .kernel (.recvData 0 1 Reactor.plaintextRequest true) :: Reactor.rounds 8)
    (fun s => s.pc = .process && s.cq.head?.any fun cqe => cqe.Delivers s.srv.ubKernelDma
      && (s.srv.clientOutBuffers.get (clientOf cqe.userData)).isNone)
    (by decide +kernel)
  simp only [Bool.and_eq_true, decide_eq_true_eq, Option.any_eq_true] at hp
  obtain ⟨hpc, cqe, hhead, hd, hnone⟩ := hp
  have hlive := hall s hs cqe ⟨hpc, hhead⟩ hd
  rw [Option.isNone_iff_eq_none] at hnone
  rw [hnone] at hlive
  cases hlive

/-! ### Clients stay readable -/

/-- A recv entry of the client is in the queue. -/
def RecvQueued (queue : List Entry) (c : Nat) (fd : RawFd) : Prop :=
  ∃ u, .recvMulti fd u ∈ queue ∧ clientOf u = c

/-- A multishot recv of the client is armed. -/
def RecvArmed (k : Kernel) (c : Nat) : Prop := ∃ op ∈ k.recvs, clientOf op.userData = c

/-- A completion that asks for the client's close waits to be processed. -/
def CloseDue (ends : Int → Prop) (cq : List Cqe) (c : Nat) : Prop :=
  ∃ cqe ∈ cq, cqe.Closes ∧ clientOf cqe.userData = c ∧ ends cqe.result

/-- An accept finds room for its recv entry, a close for a vacant slot hits no connection, and
the recv of a stored client ends with the results in `ends` only. -/
def RecvKept (ends : Int → Prop) (s : Reactor) : Act → Prop
  | .server inp => FallbackHarmless s (.server inp) ∧
      ∀ cqe, s.AtHand cqe → cqe.userData = CODE_ACCEPT → 0 < cqe.result →
        (s.pollFirst cqe.result s.srv.clientFds.next).len
          < (s.pollFirst cqe.result s.srv.clientFds.next).capacity
  | .kernel (.recvEnd i result) => ∀ op, s.kern.recvs[i]? = some op →
      s.srv.clientFds.get (clientOf op.userData) = none ∨ ends result
  | .kernel (.recvData i _ _ more) => more = false → ∀ op, s.kern.recvs[i]? = some op →
      s.srv.clientFds.get (clientOf op.userData) = none
  | .kernel _ => True

theorem RecvKept.fallbackHarmless {ends : Int → Prop} {s : Reactor} {a : Act}
    (h : RecvKept ends s a) : FallbackHarmless s a := by
  cases a with
  | server inp => exact h.1
  | kernel k => trivial

/-- What is left of the recv of a stored client. -/
def Readable (ends : Int → Prop) (v : View) (c : Nat) (fd : RawFd) : Prop :=
  RecvQueued v.queue c fd ∨ RecvArmed v.kern c ∨ CloseDue ends v.kern.cq c

namespace Readable

variable {ends : Int → Prop} {v v' : View} {c : Nat} {fd : RawFd}

/-- Nothing that makes the client readable goes away. -/
theorem mono (h : Readable ends v c fd)
    (hq : ∀ u, .recvMulti fd u ∈ v.queue → .recvMulti fd u ∈ v'.queue)
    (hr : ∀ op ∈ v.kern.recvs, clientOf op.userData = c → op ∈ v'.kern.recvs)
    (hcq : ∀ cqe ∈ v.kern.cq, cqe.Closes → clientOf cqe.userData = c → cqe ∈ v'.kern.cq) :
    Readable ends v' c fd := by
  rcases h with ⟨u, hmem, hu⟩ | ⟨op, hop, hu⟩ | ⟨cqe, hmem, hc, hu, he⟩
  · exact .inl ⟨u, hq u hmem, hu⟩
  · exact .inr (.inl ⟨op, hr op hop hu, hu⟩)
  · exact .inr (.inr ⟨cqe, hcq cqe hmem hc hu, hc, hu, he⟩)

/-- Entries join the queue. -/
theorem push (h : Readable ends v c fd) {es : List Entry} (hq : v'.queue = v.queue ++ es)
    (hk : v'.kern = v.kern) : Readable ends v' c fd := by
  refine h.mono (fun u hmem => ?_) (fun op hop _ => ?_) (fun cqe hmem _ _ => ?_)
  · rw [hq]
    exact List.mem_append_left _ hmem
  · rw [hk]
    exact hop
  · rw [hk]
    exact hmem

/-- The kernel posts a completion. -/
theorem post (h : Readable ends v c fd) {cqe : Cqe} (hq : v'.queue = v.queue)
    (hcq : v'.kern.cq = v.kern.cq ++ [cqe])
    (hr : ∀ op ∈ v.kern.recvs, clientOf op.userData = c → op ∈ v'.kern.recvs) :
    Readable ends v' c fd := by
  refine h.mono (fun u hmem => ?_) hr (fun cqe hmem _ _ => ?_)
  · rw [hq]
    exact hmem
  · rw [hcq]
    exact List.mem_append_left _ hmem

end Readable

/-- A completion behind the oldest one stays when the oldest one goes. -/
theorem mem_tail_of_ne_head {cq : List Cqe} {cqe head : Cqe} (hhead : cq.head? = some head)
    (hmem : cqe ∈ cq) (hne : cqe ≠ head) : cqe ∈ cq.tail := by
  rw [← List.cons_head?_tail hhead] at hmem
  exact (List.mem_cons.mp hmem).resolve_left hne

theorem mem_eraseIdx_of_ne {ops : List ArmedOp} {op op' : ArmedOp} {i : Nat}
    (hop : ops[i]? = some op) (hmem : op' ∈ ops) (hne : op' ≠ op) : op' ∈ ops.eraseIdx i := by
  obtain ⟨j, hj⟩ := List.mem_iff_getElem?.mp hmem
  refine List.mem_eraseIdx_iff_getElem?.mpr ⟨j, ?_, hj⟩
  rintro rfl
  rw [hop] at hj
  exact hne (Option.some.inj hj).symm

namespace Kernel

/-- Taking an entry ends no recv. -/
theorem recvs_subset_submit (k : Kernel) (e : Entry) : k.recvs ⊆ (k.submit e).recvs := by
  intro op hop
  cases e <;> simp only [submit] <;> (try split) <;> simp [post, hop]

/-- Taking an entry removes no completion. -/
theorem cq_subset_submit (k : Kernel) (e : Entry) : k.cq ⊆ (k.submit e).cq := by
  intro cqe hmem
  cases e <;> simp only [submit] <;> (try split) <;> simp [post, hmem]

end Kernel

namespace Readable

variable {ends : Int → Prop} {v v' : View} {c : Nat} {fd : RawFd}

/-- The oldest completion is dealt with, and it is not the client's close. -/
theorem consume (h : Readable ends v c fd) {cqe : Cqe} (hhead : v.kern.cq.head? = some cqe)
    (hnc : cqe.Closes → clientOf cqe.userData ≠ c) {es : List Entry}
    (hq : v'.queue = v.queue ++ es) (hr : v'.kern.recvs = v.kern.recvs)
    (hcq : v'.kern.cq = v.kern.cq.tail) : Readable ends v' c fd := by
  refine h.mono (fun u hmem => ?_) (fun op hop _ => ?_) (fun cqe' hmem hc' hclient => ?_)
  · rw [hq]
    exact List.mem_append_left _ hmem
  · rw [hr]
    exact hop
  · rw [hcq]
    refine mem_tail_of_ne_head hhead hmem ?_
    rintro rfl
    exact hnc hc' hclient

/-- The recv of another client ends, or one of a client that is not stored. -/
theorem erase (h : Readable ends v c fd) {cqe : Cqe} {op : ArmedOp} {i : Nat}
    (hop : v.kern.recvs[i]? = some op) (hne : clientOf op.userData ≠ c)
    (hq : v'.queue = v.queue) (hcq : v'.kern.cq = v.kern.cq ++ [cqe])
    (hr : v'.kern.recvs = v.kern.recvs.eraseIdx i) : Readable ends v' c fd := by
  refine h.post hq hcq fun op' hop' hclient => ?_
  rw [hr]
  refine mem_eraseIdx_of_ne hop hop' ?_
  rintro rfl
  exact hne hclient

/-- The kernel takes an entry. The recv entry of the client becomes an armed recv, since the
descriptor is still the client's. -/
theorem submit {e : Entry} {q : List Entry} (h : Readable ends v c fd) (hc : 100 ≤ c)
    (hown : Owned v.fds v.kern (pendingFds v.kern.cq) v.log) (hget : v.fds.get c = some fd)
    (hq : v.queue = e :: q) :
    Readable ends { v with queue := q, kern := v.kern.submit e } c fd := by
  by_cases htaken : ∃ u, e = .recvMulti fd u ∧ clientOf u = c
  · obtain ⟨u, rfl, hclient⟩ := htaken
    obtain ⟨conn, ho, _⟩ := hown.stored c fd hc hget
    refine .inr (.inl ⟨⟨u⟩, ?_, hclient⟩)
    simp [Kernel.submit, ho]
  · rcases h with ⟨u, hmem, hu⟩ | ⟨op, hop, hu⟩ | ⟨cqe, hmem, hclose, hu, hend⟩
    · rw [hq] at hmem
      rcases List.mem_cons.mp hmem with heq | hmem
      · exact absurd ⟨u, heq.symm, hu⟩ htaken
      · exact .inl ⟨u, hmem, hu⟩
    · exact .inr (.inl ⟨op, Kernel.recvs_subset_submit _ _ hop, hu⟩)
    · exact .inr (.inr ⟨cqe, Kernel.cq_subset_submit _ _ hmem, hclose, hu, hend⟩)

end Readable

/-- The entry of a client that is being stored is the last of the queue. -/
theorem readable_accepted {ends : Int → Prop} {s : Reactor} {cqe : Cqe}
    {lakes : ExternStableVec OutBuffer} (poll : Bool) (hwf : s.view.Wf)
    (hins : s.view.lakes.insert s.view.fds.next SmallLake.build = some lakes) :
    Readable ends (s.view.consume.accept cqe.result lakes
      ((if poll then [.pollAdd cqe.result (clientData s.view.fds.next POLL_EVENT).packUserData]
        else [])
      ++ [.recvMulti cqe.result (clientData s.view.fds.next INIT_REQUEST).packUserData]))
      s.view.fds.next cqe.result := by
  have hlt := (ExternStableVec.insert_eq_some hins).1
  rw [hwf.tables.capacity_eq] at hlt
  have hnew : Issued (s.view.fds.next + 1) INIT_REQUEST s.view.fds.next
      (clientData s.view.fds.next INIT_REQUEST).packUserData :=
    ⟨hwf.tables.next_ge, Nat.lt_succ_self _, rfl⟩
  refine .inl ⟨_, ?_, hnew.clientOf_eq hlt (by decide)⟩
  exact List.mem_append_right _ (List.mem_append_right _ (List.mem_singleton.mpr rfl))

theorem readable_invariant {ends : Int → Prop}
    (hends : ∀ r, ends r → r = 0 ∨ r = -ECONNRESET) :
    Reactor.InvariantOver (RecvKept ends)
      (fun v => v.Wf ∧ Owned v.fds v.kern (pendingFds v.kern.cq) v.log)
      fun v => ∀ c fd, 100 ≤ c → v.fds.get c = some fd → Readable ends v c fd where
  start v h := by
    intro c fd hc hget
    rw [h.fds_get, if_neg (by omega)] at hget
    cases hget
  effect s a v hB hs hg he := by
    obtain ⟨hwf, hown⟩ := hB
    have hn := hwf.tables.next_le
    intro c fd hc hget
    cases he with
    | quiet inp hpc => exact hs c fd hc hget
    | provide inp ids hpc => exact (hs c fd hc hget).push rfl rfl
    | flush inp hpc => exact (hs c fd hc hget).push rfl rfl
    | skip inp cqe hat hnc =>
      exact (hs c fd hc hget).consume hat.head_view (fun hc' => absurd hc' hnc)
        (List.append_nil _).symm rfl rfl
    | accept inp cqe lakes poll recv hat hu hfd hins hpoll hrecv =>
      -- The guard has room for the recv entry.
      obtain rfl : recv = true := hrecv.mpr (hg.2 cqe hat hu hfd)
      have hold : (s.view.fds.push cqe.result).2.get c = some fd := hget
      rw [ExternStableVec.get_push] at hold
      split at hold
      · rename_i hcn
        cases hold
        rw [hcn]
        exact readable_accepted poll hwf hins
      · refine (hs c fd hc hold).consume hat.head_view (fun hc' => ?_) rfl rfl rfl
        rw [Cqe.Closes, hu] at hc'
        exact absurd hc'.1 accept_not_offset_le
    | close inp cqe hat hclose hfd =>
      have hold : (s.view.fds.remove (clientOf cqe.userData)).2.get c = some fd := hget
      rw [ExternStableVec.get_remove] at hold
      split at hold
      · cases hold
      · rename_i hne
        exact (hs c fd hc hold).consume hat.head_view (fun _ => Ne.symm hne)
          (List.append_nil _).symm rfl rfl
    | closeStdin inp cqe hat hclose hfd => exact absurd hfd (hwf.closeFd_ne_zero _)
    | reply inp cqe buffer lake hat hans hl =>
      refine (hs c fd hc hget).consume hat.head_view (fun hc' => ?_) (List.append_nil _).symm
        rfl rfl
      rcases hans with ⟨hd, _⟩ | ⟨hp, _⟩
      · exact absurd hc' hd.not_closes
      · exact absurd hc' hp.not_closes
    | kernelAccept fd' more h0 hfree => exact (hs c fd hc hget).post rfl rfl (fun _ h _ => h)
    | kernelAcceptEnd err => exact (hs c fd hc hget).post rfl rfl (fun _ h _ => h)
    | recvData op i bufferId data more hop hid hpos hle =>
      cases more with
      | true => exact (hs c fd hc hget).post rfl rfl fun _ h _ => h
      | false =>
        refine (hs c fd hc hget).erase hop ?_ rfl rfl rfl
        -- The guard lets only the recv of a client end that is not stored.
        rintro rfl
        have hstored : s.srv.clientFds.get (clientOf op.userData) = some fd := hget
        rw [hg rfl op hop] at hstored
        cases hstored
    | recvEnd op i result hop hres =>
      by_cases hclient : clientOf op.userData = c
      · rcases hg op hop with hvac | hend
        · have hstored : s.srv.clientFds.get c = some fd := hget
          rw [hclient, hstored] at hvac
          cases hvac
        · -- The recv of this client ended. Its completion asks for the close.
          obtain ⟨c', hissued⟩ := hwf.ring.recvs_issued op (List.mem_of_getElem? hop)
          have huniq : uniqOf op.userData ≠ SEND_CODE := by
            rw [hissued.uniqOf_eq hn (by decide)]
            decide
          refine .inr (.inr ⟨⟨op.userData, result, 0⟩, ?_, ⟨?_, ?_⟩, hclient, hend⟩)
          · exact List.mem_append_right _ (List.mem_singleton.mpr rfl)
          · exact hissued.offset_le hn (by decide)
          · exact (hends result hend).imp (fun h => ⟨h, huniq⟩) id
      · exact (hs c fd hc hget).erase hop hclient rfl rfl rfl
    | pollEvent op i mask more hop => exact (hs c fd hc hget).post rfl rfl (fun _ h _ => h)
    | pollEnd op i err hop => exact (hs c fd hc hget).post rfl rfl (fun _ h _ => h)
    | sendDone op i sent hop hsent =>
      exact (hs c fd hc hget).mono (fun _ h => h) (fun _ h _ => h) (fun _ h _ _ => h)
    | sendFail op i err hop herr => exact (hs c fd hc hget).post rfl rfl (fun _ h _ => h)
    | sqThread => exact hs c fd hc hget
  submit v e q hB hv hq := fun c fd hc hget =>
    (hv c fd hc hget).submit hc hB.2 hget hq

theorem readable_of_recvKept {ends : Int → Prop}
    (hends : ∀ r, ends r → r = 0 ∨ r = -ECONNRESET) {s : Reactor}
    (h : s.ReachableUnder (RecvKept ends)) {c : Nat} {fd : RawFd} (hc : 100 ≤ c)
    (hget : s.srv.clientFds.get c = some fd) : Readable ends s.view c fd := by
  have howned := (wf_invariant (RecvKept ends)).and
    (owned_invariant.weaken fun _ _ hg => RecvKept.fallbackHarmless hg)
  exact ((howned.and (readable_invariant hends)).reachable h).2 c fd hc hget

/-- Every stored client has a recv entry in the queue or an armed recv. -/
def ClientsReadable (s : Reactor) : Prop :=
  ∀ c fd, 100 ≤ c → s.srv.clientFds.get c = some fd →
    RecvQueued s.sq.entries c fd ∨ RecvArmed s.kern c

/-- As long as every accept finds room for its recv entry, no recv of a stored client ends, and
no close for a vacant slot hits a connection, the clients stay readable. -/
theorem clients_readable {s : Reactor} (h : s.ReachableUnder (RecvKept fun _ => False)) :
    ClientsReadable s := by
  intro c fd hc hget
  rcases readable_of_recvKept (fun _ hf => absurd hf id) h hc hget with hq | hr | hd
  · exact .inl hq
  · exact .inr hr
  · obtain ⟨_, _, _, _, hfalse⟩ := hd
    exact absurd hfalse id

/-- No close is at hand, an accept at hand has room, and the kernel ends no recv. -/
def noEnd (s : Reactor) : Act → Bool
  | .server inp => closesOnly (fun _ _ => false) s (.server inp) &&
    (s.pc ≠ .process || s.cq.head?.all fun cqe =>
      cqe.userData ≠ CODE_ACCEPT || (s.pollFirst cqe.result s.srv.clientFds.next).len
        < (s.pollFirst cqe.result s.srv.clientFds.next).capacity)
  | .kernel (.recvEnd _ _) => false
  | .kernel (.recvData _ _ _ more) => more
  | .kernel _ => true

theorem recvKept_of_noEnd {ends : Int → Prop} {s : Reactor} {a : Act} (h : noEnd s a = true) :
    RecvKept ends s a := by
  cases a with
  | server inp =>
    simp only [noEnd, Bool.and_eq_true] at h
    constructor
    · intro cqe hat hc
      exact absurd (ok_of_closesOnly h.1 hat hc) Bool.false_ne_true
    · intro cqe hat hu _
      simpa [hat.1, hat.2, hu] using h.2
  | kernel k =>
    cases k with
    | recvEnd i result => cases h
    | recvData i bufferId data more =>
      intro hmore
      rw [hmore] at h
      cases h
    | _ => trivial

/-- A connected client. -/
theorem clients_readable_connected :
    ∃ s, s.ReachableUnder (RecvKept fun _ => False) ∧ (s.srv.clientFds.get 100).isSome = true ∧
      ClientsReadable s := by
  have hready : Reactor.ready.ReachableUnder (RecvKept fun _ => False) :=
    Reactor.reachableUnder_ready fun s inp hb =>
      ⟨fun cqe hat hc => absurd hc (hb.not_closes hat), fun cqe hat hu => by
        rw [hb.cq_eq cqe (List.mem_of_mem_head? hat.2)] at hu
        exact absurd hu (by decide)⟩
  obtain ⟨s, hs, hp⟩ := Reactor.exists_of_exec hready noEnd (fun _ _ h => recvKept_of_noEnd h)
    Reactor.connect (fun s => (s.srv.clientFds.get 100).isSome) (by decide +kernel)
  exact ⟨s, hs, hp, clients_readable hs⟩

/-- The recv of client 100 ends with `-ENOBUFS`. The server releases buffers and keeps the
client, without a recv. -/
theorem not_clients_readable : ¬ ∀ s, Reactor.Reachable s → ClientsReadable s := by
  intro hall
  obtain ⟨s, hs, hp⟩ := Reactor.exists_reachable
    (Reactor.connect ++ .kernel (.recvEnd 0 (-ENOBUFS)) :: Reactor.rounds 9)
    (fun s => s.pc = .idle && (s.srv.clientFds.get 100).isSome && s.sq.entries.isEmpty
      && s.kern.recvs.isEmpty)
    (by decide +kernel)
  simp only [Bool.and_eq_true, List.isEmpty_iff, Option.isSome_iff_exists] at hp
  obtain ⟨⟨⟨_, fd, hget⟩, hq⟩, hr⟩ := hp
  rcases hall s hs 100 fd (by decide) hget with ⟨u, hmem, _⟩ | ⟨op, hmem, _⟩
  · rw [hq] at hmem
    cases hmem
  · rw [hr] at hmem
    cases hmem

/-- If recvs also end with 0 or `-ECONNRESET`, a client that is not readable is about to be
closed. -/
theorem readable_until_close {s : Reactor}
    (h : s.ReachableUnder (RecvKept fun r => r = 0 ∨ r = -ECONNRESET)) {c : Nat} {fd : RawFd}
    (hc : 100 ≤ c) (hget : s.srv.clientFds.get c = some fd) :
    RecvQueued s.sq.entries c fd ∨ RecvArmed s.kern c ∨
      CloseDue (fun r => r = 0 ∨ r = -ECONNRESET) (s.cq ++ s.kern.cq) c :=
  readable_of_recvKept (fun _ hr => hr) h hc hget

end Tachyon
