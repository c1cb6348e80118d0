import Mathlib.Data.Finset.Card
import Tachyon.Proofs.Buffers

/-!
# `Tachyon.Proofs.Queue`: the room for the send entries

`wideband_send` pushes all its entries at once and unwraps the result. Between two flushes the loop
fetches one batch of completions. What the batch makes the server queue is known when it is
fetched (`demand`): the entries for the accepted clients, those for the buffers that are handed
back, and one send entry for each client that gets output.

`Planned` says where in a turn the demand is covered by the free space, and where no client has
output. When every batch that is fetched fits (`BatchFits`), it holds in every state, and the flush
fits (`flush_fits`). Nothing in the code bounds a batch: 2047 accepted clients and one request are
enough to fill a ring of 2048 entries. With one client more the retry loop of `release_buffers`
before the flush does not even end (`not_release_ends`).
-/

set_option autoImplicit false
set_option maxRecDepth 8000

namespace Tachyon

/-! ### What a batch asks for -/

/-- How many entries `process_entry_accept` queues for the completion. -/
def Cqe.setup (dma : Bool) (cqe : Cqe) : Nat :=
  if cqe.userData = CODE_ACCEPT ∧ 0 < cqe.result then (if dma then 2 else 1) else 0

/-- The completion can give its client output. -/
def Cqe.Calls (dma : Bool) (cqe : Cqe) : Prop := cqe.Delivers dma ∨ cqe.Polls dma

instance (dma : Bool) (cqe : Cqe) : Decidable (cqe.Calls dma) :=
  inferInstanceAs (Decidable (_ ∨ _))

/-- The clients with output. -/
def writing (lakes : ExternStableVec OutBuffer) : Finset Nat :=
  ((lakes.iter.filter fun p => p.2.len ≠ 0).map Prod.fst).toFinset

/-- The clients that the completions can give output. -/
def called (dma : Bool) (cq : List Cqe) : Finset Nat :=
  ((cq.filter fun cqe => cqe.Calls dma).map fun cqe => clientOf cqe.userData).toFinset

theorem mem_writing {lakes : ExternStableVec OutBuffer} {c : Nat} :
    c ∈ writing lakes ↔ ∃ lake, lakes.get c = some lake ∧ lake.len ≠ 0 := by
  simp [writing, ExternStableVec.mem_iter]

theorem called_cons (dma : Bool) (cqe : Cqe) (rest : List Cqe) :
    called dma rest ⊆ called dma (cqe :: rest) := by
  intro c hc
  simp only [called, List.mem_toFinset, List.mem_map, List.mem_filter] at hc ⊢
  obtain ⟨cqe', ⟨hmem, hcalls⟩, hclient⟩ := hc
  exact ⟨cqe', ⟨List.mem_cons_of_mem _ hmem, hcalls⟩, hclient⟩

theorem mem_called_head {dma : Bool} {cqe : Cqe} (h : cqe.Calls dma) (rest : List Cqe) :
    clientOf cqe.userData ∈ called dma (cqe :: rest) := by
  simp only [called, List.mem_toFinset, List.mem_map, List.mem_filter]
  exact ⟨cqe, ⟨List.mem_cons_self, decide_eq_true h⟩, rfl⟩

/-- There is at most one send entry for each client with output. -/
theorem length_sendEntries_le (fds : ExternStableVec RawFd) (lakes : ExternStableVec OutBuffer) :
    (Reactor.sendEntries fds lakes).length ≤ (writing lakes).card := by
  have hnodup : ((lakes.iter.filter fun p => p.2.len ≠ 0).map Prod.fst).Nodup :=
    lakes.nodup_iter.sublist (List.filter_sublist.map _)
  -- The clients without output are passed over.
  have hskip : Reactor.sendEntries fds lakes
      = (lakes.iter.filter fun p => p.2.len ≠ 0).filterMap fun p =>
          (fds.get p.1).map fun fd => .send (clientData p.1 SEND_CODE).packUserData fd
            ⟨p.1, p.2.len, p.2.asSlice⟩ := by
    rw [Reactor.sendEntries, List.filterMap_filter]
    refine List.filterMap_congr fun p _ => ?_
    by_cases hlen : p.2.len = 0 <;> simp [hlen]
  rw [writing, List.toFinset_card_of_nodup hnodup, List.length_map, hskip]
  exact List.length_filterMap_le _ _

namespace Reactor

instance (s : Reactor) : Decidable s.InRelease :=
  match h : s.pc with
  | .release idle => isTrue ⟨idle, h⟩
  | .top | .sync | .reap | .submit | .waiting | .process | .idle | .stopped _ =>
    isFalse fun ⟨idle, hidle⟩ => by simp [h] at hidle

/-- How many buffers are released when the batch is processed. -/
def returned (s : Reactor) : Nat :=
  s.srv.releasedBuffers.length + s.cq.countP fun cqe => cqe.Delivers s.srv.ubKernelDma

/-- The released buffers are handed back before the next flush. -/
def HandsBack (s : Reactor) : Prop :=
  s.InRelease ∨ s.srv.rps = 0 ∨ RELEASE_PART ≤ s.returned ∨ ∃ cqe ∈ s.cq, cqe.result = -ENOBUFS

instance (s : Reactor) : Decidable s.HandsBack := inferInstanceAs (Decidable (_ ∨ _))

/-- How many entries the server may queue up to the end of the next flush. -/
def demand (s : Reactor) : Nat :=
  (s.cq.map (Cqe.setup s.srv.ubKernelDma)).sum + (if s.HandsBack then s.returned else 0)
    + (writing s.srv.clientOutBuffers ∪ called s.srv.ubKernelDma s.cq).card

/-- There is room for what the batch asks for. -/
def Covered (s : Reactor) : Prop := s.sq.len + s.demand ≤ s.sq.capacity

instance (s : Reactor) : Decidable s.Covered := inferInstanceAs (Decidable (_ ≤ _))

/-- A batch of completions that is fetched fits into the queue. -/
def BatchFits (s : Reactor) (_ : Act) : Prop := s.pc = .submit → s.cq ≠ [] → s.Covered

/-- The send entries of a flush fit into the free space of the queue, so the push succeeds. -/
def FlushFits (s : Reactor) : Prop := s.pc = .top → s.cq = [] →
  (sendEntries s.srv.clientFds s.srv.clientOutBuffers).length ≤ s.sq.free ∧
    (s.sq.pushMultiple (sendEntries s.srv.clientFds s.srv.clientOutBuffers)).isSome

/-! ### What the functions of the loop queue -/

variable {s t : Reactor} {inp : Input}

/-- A function of the loop pushes at most `n` entries. It goes on where it was, or it enters the
retry loop of `release_buffers`, and then `enter` holds. -/
structure Queues (s t : Reactor) (n : Nat) (idle : Bool) (enter : Prop) : Prop where
  cq : t.cq = s.cq
  rps : t.srv.rps = s.srv.rps
  dma : t.srv.ubKernelDma = s.srv.ubKernelDma
  capacity : t.sq.capacity = s.sq.capacity
  len_le : t.sq.len ≤ s.sq.len + n
  pc : t.pc = s.pc ∨ enter ∧ t.pc = .release idle

namespace Queues

variable {n : Nat} {idle : Bool} {enter : Prop}

/-- The queue and the place are the same. -/
theorem of_same (cq : t.cq = s.cq) (rps : t.srv.rps = s.srv.rps)
    (dma : t.srv.ubKernelDma = s.srv.ubKernelDma) (sq : t.sq = s.sq) (pc : t.pc = s.pc) :
    Queues s t n idle enter where
  cq := cq
  rps := rps
  dma := dma
  capacity := by rw [sq]
  len_le := by
    rw [sq]
    exact Nat.le_add_right _ _
  pc := .inl pc

theorem weaken (h : Queues s t 0 idle enter) {enter' : Prop} (hw : enter → enter') (n : Nat) :
    Queues s t n idle enter' where
  cq := h.cq
  rps := h.rps
  dma := h.dma
  capacity := h.capacity
  len_le := Nat.le_trans h.len_le (Nat.add_le_add_left (Nat.zero_le n) _)
  pc := h.pc.imp id fun ⟨he, hpc⟩ => ⟨hw he, hpc⟩

end Queues

theorem len_submitAll (s : Reactor) : s.submitAll.sq.len = s.sq.len ∧
    s.submitAll.sq.capacity = s.sq.capacity ∧ s.submitAll.cq = s.cq := by
  unfold submitAll
  split
  · exact ⟨rfl, rfl, rfl⟩
  · exact ⟨SubmissionQueue.len_drain _, rfl, rfl⟩

theorem queues_releaseBuffers {idle : Bool} (h : s.releaseBuffers inp idle = .ok t) :
    Queues s t 0 idle True := by
  obtain ⟨hlen, hcap, hcq⟩ := len_submitAll s
  have hsrv := srv_submitAll s
  rcases releaseBuffers_cases h with ⟨_, rfl⟩ | ⟨_, rfl⟩
  · exact .of_same rfl rfl rfl rfl rfl
  · exact ⟨hcq, congrArg Server.rps hsrv, congrArg Server.ubKernelDma hsrv, hcap, hlen.le,
      .inr ⟨trivial, rfl⟩⟩

/-- In UBDMA mode the poll entry leaves the room for the recv entry out of two. -/
theorem len_pollFirst (s : Reactor) (fd : RawFd) (c : Nat) :
    (s.pollFirst fd c).capacity = s.sq.capacity ∧
      (s.pollFirst fd c).len + 1 ≤ s.sq.len + (if s.srv.ubKernelDma then 2 else 1) := by
  unfold pollFirst
  split
  · have hlen := SubmissionQueue.len_pushOrDrop_le s.sq
      (.pollAdd fd (clientData c POLL_EVENT).packUserData)
    have hsync := SubmissionQueue.len_sync_le (s.sq.pushOrDrop
      (.pollAdd fd (clientData c POLL_EVENT).packUserData))
    exact ⟨SubmissionQueue.capacity_pushOrDrop _ _, by omega⟩
  · exact ⟨rfl, le_refl _⟩

/-- An accepted client has its recv entry queued, and in UBDMA mode a poll entry before. -/
theorem queues_processEntryAccept {result : Int} {idle : Bool} {enter : Prop}
    (h : s.processEntryAccept result = .ok t) :
    Queues s t (if 0 < result then (if s.srv.ubKernelDma then 2 else 1) else 0) idle enter := by
  rcases processEntryAccept_cases h with ⟨_, rfl⟩ | ⟨hpos, lakes, _, rfl⟩
  · exact .of_same rfl rfl rfl rfl rfl
  · obtain ⟨hcap, hpoll⟩ := s.len_pollFirst result s.srv.clientFds.next
    have hrecv := SubmissionQueue.len_pushOrDrop_le (s.pollFirst result s.srv.clientFds.next)
      (.recvMulti result (clientData s.srv.clientFds.next INIT_REQUEST).packUserData)
    refine ⟨rfl, rfl, rfl, ?_, ?_, .inl rfl⟩
    · exact (SubmissionQueue.capacity_pushOrDrop _ _).trans hcap
    · rw [if_pos hpos]
      exact Nat.le_trans hrecv hpoll

theorem queues_closeConnection (s : Reactor) (c : Nat) {n : Nat} {idle : Bool} {enter : Prop} :
    Queues s (s.closeConnection c true) n idle enter := by
  unfold closeConnection
  simp only [Bool.not_true, Bool.false_eq_true, if_false]
  split <;> exact .of_same rfl rfl rfl rfl rfl

theorem queues_ubdma {client : UserData} {n : Nat} {idle : Bool} {enter : Prop}
    (h : s.ubdma client = .ok t) : Queues s t n idle enter := by
  rcases ubdma_cases h with rfl | ⟨buffer, lake, cache, hot, _, _, _, _, rfl⟩
  · exact .of_same rfl rfl rfl rfl rfl
  · exact .of_same rfl rfl rfl rfl rfl

theorem queues_requestReply {flags : Nat} {user : UserData} {result : Int} {n : Nat}
    (h : s.requestReply inp flags user result = .ok t) :
    Queues s t n false (RELEASE_PART ≤ t.srv.releasedBuffers.length) := by
  rcases requestReply_cases h with ⟨_, rfl⟩ | ⟨_, lake, cache, hot, _, hnext⟩
  · exact .of_same rfl rfl rfl rfl rfl
  split at hnext
  · rename_i hpart
    obtain ⟨hcq, hrps, hdma, hcap, hlen, hpc⟩ := queues_releaseBuffers hnext
    have hrel := (released_releaseBuffers hnext).1
    refine ⟨hcq, hrps, hdma, hcap, Nat.le_trans hlen (Nat.add_le_add_left (Nat.zero_le n) _),
      hpc.imp id fun ⟨_, hpc⟩ => ⟨?_, hpc⟩⟩
    rw [hrel]
    show RELEASE_PART ≤ (s.srv.releasedBuffers ++ [_]).length
    rw [List.length_append, List.length_singleton]
    exact hpart.ge
  · subst hnext
    exact .of_same rfl rfl rfl rfl rfl

/-- One completion: the entries of an accepted client, and the reasons to hand buffers back. -/
theorem queues_processEntry {cqe : Cqe} (h : s.processEntry inp cqe = .ok t) :
    Queues s t (cqe.setup s.srv.ubKernelDma) false
      (cqe.result = -ENOBUFS ∨ RELEASE_PART ≤ t.srv.releasedBuffers.length) := by
  generalize hr : s.processEntry inp cqe = r at h
  have hd := dispatches s inp cqe
  rw [hr] at hd
  cases hd with
  | skip _ _ =>
    cases h
    exact .of_same rfl rfl rfl rfl rfl
  | accept hu =>
    have hsetup : cqe.setup s.srv.ubKernelDma
        = if 0 < cqe.result then (if s.srv.ubKernelDma then 2 else 1) else 0 := by
      simp only [Cqe.setup, hu, true_and]
    rw [hsetup]
    exact queues_processEntryAccept h
  | release hbufs => exact (queues_releaseBuffers h).weaken (fun _ => .inl hbufs) _
  | close _ =>
    cases h
    exact queues_closeConnection _ _
  | poll _ => exact queues_ubdma h
  | reply _ =>
    obtain ⟨hcq, hrps, hdma, hcap, hlen, hpc⟩ := queues_requestReply (n := cqe.setup _) h
    exact ⟨hcq, hrps, hdma, hcap, hlen, hpc.imp id fun ⟨hp, hpc⟩ => ⟨.inr hp, hpc⟩⟩

/-! ### The demand along a turn -/

/-- No client has output, and no completion is left. -/
def Quiet (s : Reactor) : Prop := writing s.srv.clientOutBuffers = ∅ ∧ s.cq = []

/-- What holds at the places of a turn. -/
def Planned (s : Reactor) : Prop :=
  match s.pc with
  | .top | .idle | .release true => s.cq = [] ∧ (s.Quiet ∨ s.Covered)
  | .process | .release false => s.Quiet ∨ s.Covered
  | .sync | .reap | .waiting => s.Quiet
  | .submit => writing s.srv.clientOutBuffers = ∅
  | .stopped _ => True

/-- The batch, the clients and the released buffers are the same, and the queue has grown by
nothing. -/
structure SameBatch (s t : Reactor) : Prop where
  cq : t.cq = s.cq
  rps : t.srv.rps = s.srv.rps
  dma : t.srv.ubKernelDma = s.srv.ubKernelDma
  lakes : t.srv.clientOutBuffers = s.srv.clientOutBuffers
  released : t.srv.releasedBuffers = s.srv.releasedBuffers
  capacity : t.sq.capacity = s.sq.capacity
  len_le : t.sq.len ≤ s.sq.len

namespace SameBatch

theorem of_srv (hcq : t.cq = s.cq) (hsrv : t.srv = s.srv)
    (hcap : t.sq.capacity = s.sq.capacity) (hlen : t.sq.len ≤ s.sq.len) : SameBatch s t where
  cq := hcq
  rps := congrArg Server.rps hsrv
  dma := congrArg Server.ubKernelDma hsrv
  lakes := congrArg Server.clientOutBuffers hsrv
  released := congrArg Server.releasedBuffers hsrv
  capacity := hcap
  len_le := hlen

theorem quiet (h : SameBatch s t) (hs : s.Quiet) : t.Quiet :=
  ⟨(congrArg writing h.lakes).trans hs.1, h.cq.trans hs.2⟩

theorem returned_eq (h : SameBatch s t) : t.returned = s.returned := by
  rw [returned, returned, h.cq, h.dma, h.released]

/-- Only the retry loop is a reason to hand back that is not in the batch. -/
theorem handsBack (h : SameBatch s t) (hloop : t.InRelease → s.HandsBack) :
    t.HandsBack → s.HandsBack := by
  rintro (hin | hrest)
  · exact hloop hin
  · rw [h.returned_eq, h.rps, h.cq] at hrest
    exact .inr hrest

/-- So the demand is at most the same. -/
theorem covered (h : SameBatch s t) (hloop : t.InRelease → s.HandsBack) (hs : s.Covered) :
    t.Covered := by
  have hback : (if t.HandsBack then t.returned else 0)
      ≤ (if s.HandsBack then s.returned else 0) := by
    by_cases ht : t.HandsBack
    · rw [if_pos ht, if_pos (h.handsBack hloop ht), h.returned_eq]
    · rw [if_neg ht]
      exact Nat.zero_le _
  have hlen := h.len_le
  unfold Covered demand at hs ⊢
  rw [h.capacity, h.cq, h.dma, h.lakes]
  omega

end SameBatch

/-- The released buffers are queued, which was part of the demand. -/
theorem Covered.handedBack (h : s.Covered) (hhands : s.HandsBack)
    (hcap : t.sq.capacity = s.sq.capacity)
    (hlen : t.sq.len ≤ s.sq.len + s.srv.releasedBuffers.length) (hcq : t.cq = s.cq)
    (hdma : t.srv.ubKernelDma = s.srv.ubKernelDma)
    (hlakes : t.srv.clientOutBuffers = s.srv.clientOutBuffers)
    (hrel : t.srv.releasedBuffers = []) : t.Covered := by
  have hret : s.srv.releasedBuffers.length + t.returned = s.returned := by
    rw [returned, returned, hcq, hdma, hrel, List.length_nil, Nat.zero_add]
  have hback : (if t.HandsBack then t.returned else 0) ≤ t.returned := by
    split
    · exact le_refl _
    · exact Nat.zero_le _
  unfold Covered demand at h ⊢
  rw [if_pos hhands] at h
  rw [hcap, hcq, hdma, hlakes]
  omega

/-- Only the client of a completion with data or readiness can get output from it. -/
theorem writing_processEntry {cqe : Cqe} {rest : List Cqe} (hpc : s.pc = .process)
    (hcq : s.cq = cqe :: rest)
    (h : ({ s with cq := rest } : Reactor).processEntry inp cqe = .ok t) {c : Nat}
    (hc : c ∈ writing t.srv.clientOutBuffers) :
    c ∈ writing s.srv.clientOutBuffers ∨
      cqe.Calls s.srv.ubKernelDma ∧ c = clientOf cqe.userData := by
  obtain ⟨v, n, heff, hview⟩ := refines_processEntry hpc hcq inp
  rw [h] at hview
  have hlakes : t.srv.clientOutBuffers = v.lakes := congrArg View.lakes hview
  have hat : s.AtHand cqe := ⟨hpc, by rw [hcq]; rfl⟩
  obtain ⟨lake, hget, hlen⟩ := mem_writing.mp hc
  rw [hlakes] at hget
  cases heff with
  | quiet inp hpc' =>
    rcases hpc' with hpc' | hnil
    · exact absurd hpc hpc'
    · rw [hcq] at hnil
      cases hnil
  | provide inp ids hpc' => exact absurd hpc hpc'
  | flush inp hpc' =>
    rw [hpc] at hpc'
    cases hpc'
  | skip inp cqe' hat' hnc => exact .inl (mem_writing.mpr ⟨lake, hget, hlen⟩)
  | accept inp cqe' lakes poll recv hat' hu hfd hins hpoll hrecv =>
    -- The new client starts with an empty buffer.
    obtain ⟨_, _, hinserted⟩ := ExternStableVec.insert_eq_some hins
    have hnew : lakes.get c = some lake := hget
    rw [hinserted] at hnew
    split at hnew
    · cases hnew
      exact absurd rfl hlen
    · exact .inl (mem_writing.mpr ⟨lake, hnew, hlen⟩)
  | close inp cqe' hat' hcl hfd | closeStdin inp cqe' hat' hcl hfd =>
    have hleft : (s.srv.clientOutBuffers.remove (clientOf cqe'.userData)).2.get c = some lake :=
      hget
    rw [ExternStableVec.get_remove] at hleft
    split at hleft
    · cases hleft
    · exact .inl (mem_writing.mpr ⟨lake, hleft, hlen⟩)
  | reply inp cqe' buffer old hat' hans hold =>
    obtain rfl := hat'.unique hat
    by_cases hcc : c = clientOf cqe'.userData
    · exact .inr ⟨hans.imp And.left And.left, hcc⟩
    · have hset : (s.srv.clientOutBuffers.set (clientOf cqe'.userData) _).get c = some lake :=
        hget
      rw [ExternStableVec.get_set] at hset
      obtain ⟨lake', hsame, heq⟩ := Option.map_eq_some_iff.mp hset
      rw [if_neg hcc] at heq
      subst heq
      exact .inl (mem_writing.mpr ⟨_, hsame, hlen⟩)

/-- A data completion turns into one released buffer. -/
theorem returned_processEntry {cqe : Cqe} {rest : List Cqe} (hcq : s.cq = cqe :: rest)
    (h : ({ s with cq := rest } : Reactor).processEntry inp cqe = .ok t) :
    t.returned ≤ s.returned := by
  obtain ⟨hrest, _, hdma, _⟩ := queues_processEntry h
  have hrest' : t.cq = rest := hrest
  have hdma' : t.srv.ubKernelDma = s.srv.ubKernelDma := hdma
  have hone : t.srv.releasedBuffers.length ≤ s.srv.releasedBuffers.length
      + (if cqe.Delivers s.srv.ubKernelDma then 1 else 0) := by
    by_cases hd : cqe.Delivers s.srv.ubKernelDma
    · rw [if_pos hd]
      rw [processEntry_delivers (s := { s with cq := rest }) hd inp] at h
      by_cases hle : cqe.result ≤ BUFFER_SIZE
      · rw [(released_requestReply hle h).1, List.length_append]
        exact le_refl _
      · rw [requestReply, if_pos (not_le.mp hle)] at h
        cases h
        exact Nat.le_succ _
    · rw [if_neg hd, released_processEntry (s := { s with cq := rest }) hd h]
      exact le_refl _
  rw [returned, returned, hrest', hdma', hcq, List.countP_cons]
  simp only [decide_eq_true_eq]
  omega

/-- One completion takes as much off the demand as it adds to the queue. -/
theorem covered_processEntry {cqe : Cqe} {rest : List Cqe} (hpc : s.pc = .process)
    (hcq : s.cq = cqe :: rest)
    (h : ({ s with cq := rest } : Reactor).processEntry inp cqe = .ok t) (hs : s.Covered) :
    t.Covered ∧ (t.pc = .process ∨ t.pc = .release false) := by
  obtain ⟨hrest, hrps, hdma, hcap, hlen, hnext⟩ := queues_processEntry h
  have hrest' : t.cq = rest := hrest
  have hrps' : t.srv.rps = s.srv.rps := hrps
  have hdma' : t.srv.ubKernelDma = s.srv.ubKernelDma := hdma
  have hcap' : t.sq.capacity = s.sq.capacity := hcap
  have hlen' : t.sq.len ≤ s.sq.len + cqe.setup s.srv.ubKernelDma := hlen
  have hret := returned_processEntry hcq h
  have hat : cqe ∈ s.cq := by
    rw [hcq]
    exact List.mem_cons_self
  -- What makes the server hand buffers back later is in the batch now.
  have hhands : t.HandsBack → s.HandsBack := by
    rintro (⟨idle, hidle⟩ | hzero | hpart | ⟨cqe', hmem, hbufs⟩)
    · rcases hnext with hsame | ⟨hbufs | hpart, _⟩
      · rw [hidle] at hsame
        exact absurd (hsame.trans hpc) (by simp)
      · exact .inr (.inr (.inr ⟨cqe, hat, hbufs⟩))
      · exact .inr (.inr (.inl (hpart.trans ((Nat.le_add_right _ _).trans hret))))
    · exact .inr (.inl (hrps'.symm.trans hzero))
    · exact .inr (.inr (.inl (hpart.trans hret)))
    · rw [hrest'] at hmem
      exact .inr (.inr (.inr ⟨cqe', by rw [hcq]; exact List.mem_cons_of_mem _ hmem, hbufs⟩))
  have hback : (if t.HandsBack then t.returned else 0)
      ≤ (if s.HandsBack then s.returned else 0) := by
    by_cases ht : t.HandsBack
    · rw [if_pos ht, if_pos (hhands ht)]
      exact hret
    · rw [if_neg ht]
      exact Nat.zero_le _
  have hclients : (writing t.srv.clientOutBuffers ∪ called s.srv.ubKernelDma rest).card
      ≤ (writing s.srv.clientOutBuffers ∪ called s.srv.ubKernelDma (cqe :: rest)).card := by
    refine Finset.card_le_card (Finset.union_subset (fun c hc => ?_) fun c hc => ?_)
    · rcases writing_processEntry hpc hcq h hc with hold | ⟨hcalls, rfl⟩
      · exact Finset.mem_union_left _ hold
      · exact Finset.mem_union_right _ (mem_called_head hcalls rest)
    · exact Finset.mem_union_right _ (called_cons _ cqe rest hc)
  refine ⟨?_, hnext.imp (fun hsame => hsame.trans hpc) And.right⟩
  unfold Covered demand at hs ⊢
  rw [hcap', hrest', hdma']
  rw [hcq, List.map_cons, List.sum_cons] at hs
  omega

/-- After a flush no client has output. -/
theorem writing_resetSent {fds : ExternStableVec RawFd} {lakes : ExternStableVec OutBuffer}
    (h : Tables fds lakes) : writing (resetSent fds lakes) = ∅ := by
  refine Finset.eq_empty_of_forall_notMem fun c hc => ?_
  obtain ⟨lake, hget, hlen⟩ := mem_writing.mp hc
  rw [get_resetSent] at hget
  obtain ⟨old, hold, rfl⟩ := Option.map_eq_some_iff.mp hget
  obtain ⟨fd, hfd⟩ := h.exists_fd hold
  split at hlen
  · exact hlen rfl
  · rename_i hkept
    exact hkept ⟨hlen, by rw [hfd]; rfl⟩

theorem quiet_widebandSend (ht : Tables s.srv.clientFds s.srv.clientOutBuffers) (hcq : s.cq = [])
    (h : s.widebandSend = .ok t) : t.Quiet ∧ t.pc = s.pc := by
  have hlakes : t.srv.clientOutBuffers = resetSent s.srv.clientFds s.srv.clientOutBuffers :=
    congrArg View.lakes (view_widebandSend h)
  obtain ⟨sq, now, _, rfl⟩ := widebandSend_cases h
  exact ⟨⟨by rw [hlakes]; exact writing_resetSent ht, hcq⟩, rfl⟩

/-- A round of the retry loop changes nothing, or it queues the released buffers and the loop
goes on. -/
theorem covered_releaseRound {idle : Bool} (hpc : s.pc = .release idle) (hs : s.Quiet ∨ s.Covered)
    (h : s.releaseRound inp idle = .ok t) : t = s ∨
      t.pc = (if idle then .top else .process) ∧ t.cq = s.cq ∧ (t.Quiet ∨ t.Covered) := by
  rcases releaseRound_cases h with ⟨_, rfl⟩ | ⟨sq, hpush, rfl⟩
  · exact .inl rfl
  obtain ⟨hlen, hcap, hcq⟩ := len_submitAll { s with sq := sq.sync }
  have hsrv := srv_submitAll { s with sq := sq.sync }
  have hlakes : ({ s with sq := sq.sync } : Reactor).submitAll.srv.clientOutBuffers
      = s.srv.clientOutBuffers := congrArg Server.clientOutBuffers hsrv
  refine .inr ⟨rfl, hcq, hs.imp (fun hq => ?_) fun hc => ?_⟩
  · have hwriting : writing ({ s with sq := sq.sync } : Reactor).submitAll.srv.clientOutBuffers
        = writing s.srv.clientOutBuffers := congrArg writing hlakes
    exact ⟨hwriting.trans hq.1, hcq.trans hq.2⟩
  · have hpushed : ({ s with sq := sq.sync } : Reactor).submitAll.sq.len
        ≤ s.sq.len + s.srv.releasedBuffers.length := by
      rw [hlen, ← length_releaseEntries, ← SubmissionQueue.len_pushMultiple hpush]
      exact SubmissionQueue.len_sync_le sq
    have hcapacity : ({ s with sq := sq.sync } : Reactor).submitAll.sq.capacity
        = s.sq.capacity := hcap.trans (SubmissionQueue.pushMultiple_eq_some hpush).1
    have hdma : ({ s with sq := sq.sync } : Reactor).submitAll.srv.ubKernelDma
        = s.srv.ubKernelDma := congrArg Server.ubKernelDma hsrv
    exact hc.handedBack (.inl ⟨idle, hpc⟩) hcapacity hpushed hcq hdma hlakes rfl

theorem planned_orStop {r : Except Stop Reactor} (h : ∀ u, r = .ok u → u.Planned) :
    (s.orStop r).Planned := by
  cases r with
  | ok u => exact h u rfl
  | error why => trivial

/-- A step that goes on with the same batch at a place outside the retry loop, or enters the loop
because the second is over. -/
theorem planned_sameBatch (h : SameBatch s t) (hs : s.Quiet ∨ s.Covered)
    (hpc : t.pc = .process ∨ s.cq = [] ∧ (t.pc = .idle ∨ t.pc = .top) ∨
      s.cq = [] ∧ t.pc = .release true ∧ s.srv.rps = 0) : t.Planned := by
  have hloop : t.InRelease → s.HandsBack := by
    rintro ⟨idle, hidle⟩
    rcases hpc with hpc | ⟨_, hpc | hpc⟩ | ⟨_, _, hrps⟩
    · exact absurd (hpc.symm.trans hidle) (by simp)
    · exact absurd (hpc.symm.trans hidle) (by simp)
    · exact absurd (hpc.symm.trans hidle) (by simp)
    · exact .inr (.inl hrps)
  have hnext : t.Quiet ∨ t.Covered := hs.imp h.quiet (h.covered hloop)
  unfold Planned
  rcases hpc with hpc | ⟨hnil, hpc | hpc⟩ | ⟨hnil, hpc, _⟩ <;> rw [hpc]
  · exact hnext
  · exact ⟨h.cq.trans hnil, hnext⟩
  · exact ⟨h.cq.trans hnil, hnext⟩
  · exact ⟨h.cq.trans hnil, hnext⟩

/-- The flush leaves no client with output. -/
theorem planned_flush (h : s.Planned) (hpc : s.pc = .top)
    (ht : Tables s.srv.clientFds s.srv.clientOutBuffers) :
    (({ s.tick inp with pc := .sync } : Reactor).orStop
      ({ s.tick inp with pc := .sync } : Reactor).widebandSend).Planned := by
  obtain ⟨_, _, _, _, heq⟩ := s.tick_eq inp
  have hnil : s.cq = [] := by
    unfold Planned at h
    rw [hpc] at h
    exact h.1
  refine planned_orStop fun u hu => ?_
  obtain ⟨hquiet, hnext⟩ := quiet_widebandSend (s := { s.tick inp with pc := .sync })
    (by rw [heq]; exact ht) (by rw [heq]; exact hnil) hu
  unfold Planned
  rw [hnext]
  exact hquiet

/-- A completion is processed. -/
theorem planned_entry {cqe : Cqe} {rest : List Cqe} (h : s.Planned) (hpc : s.pc = .process)
    (hcq : s.cq = cqe :: rest) :
    (({ s with cq := rest } : Reactor).orStop
      (({ s with cq := rest } : Reactor).processEntry inp cqe)).Planned := by
  have hcovered : s.Covered := by
    unfold Planned at h
    rw [hpc] at h
    refine h.resolve_left fun ⟨_, hnil⟩ => ?_
    rw [hcq] at hnil
    cases hnil
  refine planned_orStop fun u hu => ?_
  obtain ⟨hnext, hplace⟩ := covered_processEntry hpc hcq hu hcovered
  unfold Planned
  rcases hplace with hplace | hplace <;> rw [hplace] <;> exact .inr hnext

/-- The buffers are handed back because the second is over. -/
theorem planned_handBack (h : s.Planned) (hpc : s.pc = .idle) (hrps : s.srv.rps = 0) :
    (({ s with pc := .top } : Reactor).orStop
      (({ s with pc := .top } : Reactor).releaseBuffers inp true)).Planned := by
  unfold Planned at h
  simp only [hpc] at h
  refine planned_orStop fun u hu => ?_
  obtain ⟨hcq, _, _, hcap, hlen, hnext⟩ := queues_releaseBuffers hu
  have hsrv : u.srv = s.srv := srv_releaseBuffers (s := { s with pc := .top }) hu
  refine planned_sameBatch (s := s) (.of_srv hcq hsrv hcap hlen) h.2 (.inr ?_)
  rcases hnext with hnext | ⟨_, hnext⟩
  · exact .inl ⟨h.1, .inr hnext⟩
  · exact .inr ⟨h.1, hnext, hrps⟩

theorem planned_retry {idle : Bool} (h : s.Planned) (hpc : s.pc = .release idle) :
    (s.orStop (s.releaseRound inp idle)).Planned := by
  refine planned_orStop fun u hu => ?_
  have hplan := h
  unfold Planned at hplan
  cases idle with
  | true =>
    simp only [hpc] at hplan
    rcases covered_releaseRound hpc hplan.2 hu with rfl | ⟨hnext, hcq, hcovered⟩
    · exact h
    · unfold Planned
      rw [hnext]
      exact ⟨hcq.trans hplan.1, hcovered⟩
  | false =>
    simp only [hpc] at hplan
    rcases covered_releaseRound hpc hplan hu with rfl | ⟨hnext, _, hcovered⟩
    · exact h
    · unfold Planned
      rw [hnext]
      exact hcovered

/-- The plan is kept at every place of the turn. -/
theorem Planned.serverStep (h : s.Planned) (ht : Tables s.srv.clientFds s.srv.clientOutBuffers)
    (hg : s.BatchFits (.server inp)) (hstep : s.serverStep inp = some t) : t.Planned := by
  obtain ⟨hlen, hcap, hcq⟩ := len_submitAll s
  have hsrv := srv_submitAll s
  have hplan := h
  unfold Planned at hplan
  cases turns_of_serverStep hstep with
  | flush hpc _ => exact planned_flush h hpc ht
  | noFlush hpc hbatch =>
    simp only [hpc] at hplan
    exact absurd hplan.1 hbatch
  | sync hpc _ | noSync hpc _ =>
    simp only [hpc] at hplan
    exact hplan
  | reap hpc _ =>
    simp only [hpc] at hplan
    exact hplan.1
  | noReap hpc hbatch =>
    simp only [hpc] at hplan
    exact absurd hplan.2 hbatch
  | submit hpc hbatch =>
    -- The batch is the same, whether the kernel takes the queue before or not.
    exact planned_sameBatch (s := s) (.of_srv hcq hsrv hcap hlen.le) (.inr (hg hpc hbatch))
      (.inl rfl)
  | noSubmit hpc hbatch =>
    exact planned_sameBatch (s := s) (.of_srv rfl rfl rfl (le_refl _)) (.inr (hg hpc hbatch))
      (.inl rfl)
  | wait hpc hnil =>
    simp only [hpc] at hplan
    have hlakes : s.submitAll.srv.clientOutBuffers = s.srv.clientOutBuffers :=
      congrArg Server.clientOutBuffers hsrv
    exact ⟨(congrArg writing hlakes).trans hplan, hcq.trans hnil⟩
  | submitError _ => trivial
  | wake hpc _ =>
    simp only [hpc] at hplan
    exact .inl hplan
  | entry hpc hcq => exact planned_entry h hpc hcq
  | drained hpc hnil =>
    simp only [hpc] at hplan
    exact planned_sameBatch (s := s) (.of_srv rfl rfl rfl (le_refl _)) hplan
      (.inr (.inl ⟨hnil, .inl rfl⟩))
  | handBack hpc hrps => exact planned_handBack h hpc hrps
  | idle hpc _ =>
    simp only [hpc] at hplan
    exact planned_sameBatch (s := s) (.of_srv rfl rfl rfl (le_refl _)) hplan.2
      (.inr (.inl ⟨hplan.1, .inr rfl⟩))
  | retry hpc => exact planned_retry h hpc

/-- The second of the metrics is the server's own. -/
theorem rps_kernelStep {k : KernelAct} (h : s.kernelStep k = some t) : t.srv.rps = s.srv.rps := by
  rcases kernelStep_cases h with ⟨kern, log, buffers, rfl⟩ | ⟨e, sq, _, rfl⟩ <;> rfl

/-- The kernel leaves the batch and the demand alone. -/
theorem Planned.kernelStep (h : s.Planned) {k : KernelAct} (hstep : s.kernelStep k = some t) :
    t.Planned := by
  have hsame := kernelStep_sameLocal hstep
  have hbatch : SameBatch s t := ⟨hsame.cq, rps_kernelStep hstep, hsame.dma, hsame.lakes,
    hsame.released, hsame.capacity, hsame.len.le⟩
  have hcovered : s.Covered → t.Covered :=
    hbatch.covered fun ⟨idle, hidle⟩ => .inl ⟨idle, hsame.pc.symm.trans hidle⟩
  unfold Planned at h ⊢
  rw [hsame.pc]
  cases hpc : s.pc with
  | top | idle =>
    simp only [hpc] at h ⊢
    exact ⟨hsame.cq.trans h.1, h.2.imp hbatch.quiet hcovered⟩
  | process =>
    simp only [hpc] at h ⊢
    exact h.imp hbatch.quiet hcovered
  | sync | reap | waiting =>
    simp only [hpc] at h ⊢
    exact hbatch.quiet h
  | submit =>
    simp only [hpc] at h ⊢
    rw [hsame.lakes]
    exact h
  | release idle =>
    cases idle with
    | true =>
      simp only [hpc] at h ⊢
      exact ⟨hsame.cq.trans h.1, h.2.imp hbatch.quiet hcovered⟩
    | false =>
      simp only [hpc] at h ⊢
      exact h.imp hbatch.quiet hcovered
  | stopped why => trivial

theorem planned_of_started (h : Started s) : s.Planned := by
  have hlakes : s.srv.clientOutBuffers = ExternStableVec.withCapacity 65535 :=
    (initial_of_started h).lakes_eq
  obtain ⟨hpc, hcq⟩ : s.pc = .top ∧ s.cq = [] := by
    have hplace : ∀ u : Reactor, u.submitAll.pc = u.pc ∧ u.submitAll.cq = u.cq := by
      intro u
      unfold submitAll
      split <;> exact ⟨rfl, rfl⟩
    obtain ⟨cfg, fuel, _, hstart⟩ := h
    unfold start registerBuffers at hstart
    obtain ⟨u, hreg, hrest⟩ := Option.bind_eq_some_iff.mp hstart
    obtain ⟨sq, _, rfl⟩ := Option.map_eq_some_iff.mp hreg
    obtain ⟨sq', _, rfl⟩ := Option.map_eq_some_iff.mp hrest
    exact ⟨(hplace _).1.trans (hplace _).1, (hplace _).2.trans (hplace _).2⟩
  have hnone : writing s.srv.clientOutBuffers = ∅ := by
    rw [hlakes]
    rfl
  unfold Planned
  rw [hpc]
  exact ⟨hcq, .inl ⟨hnone, hcq⟩⟩

theorem planned_of_reachable (h : ReachableUnder BatchFits s) : s.Planned := by
  obtain ⟨s₀, as, hstart, hrun⟩ := h
  induction hrun with
  | nil => exact planned_of_started hstart
  | @snoc t u as a hrun hg ha ih =>
    have hwf : t.view.Wf := reachable_wf (ReachableUnder.reachable ⟨s₀, as, hstart, hrun⟩)
    cases a with
    | server inp => exact ih.serverStep hwf.tables hg ha
    | kernel k => exact ih.kernelStep ha

/-- The flush fits in every state of a run whose batches fit. -/
theorem flush_fits (h : ReachableUnder BatchFits s) : s.FlushFits := by
  intro hpc hcq
  have hplanned := planned_of_reachable h
  unfold Planned at hplanned
  rw [hpc] at hplanned
  have hle := length_sendEntries_le s.srv.clientFds s.srv.clientOutBuffers
  have hfits : (sendEntries s.srv.clientFds s.srv.clientOutBuffers).length ≤ s.sq.free := by
    rcases hplanned.2 with ⟨hnone, _⟩ | hcovered
    · rw [hnone, Finset.card_empty] at hle
      exact Nat.le_trans hle (Nat.zero_le _)
    · have hclients : (writing s.srv.clientOutBuffers).card
          ≤ (writing s.srv.clientOutBuffers ∪ called s.srv.ubKernelDma s.cq).card :=
        Finset.card_le_card Finset.subset_union_left
      unfold Covered demand at hcovered
      unfold SubmissionQueue.free
      omega
  refine ⟨hfits, ?_⟩
  cases hpush : s.sq.pushMultiple (sendEntries s.srv.clientFds s.srv.clientOutBuffers) with
  | none =>
    have hfull := (SubmissionQueue.pushMultiple_eq_none_iff _ _).mp hpush
    exact absurd hfits (not_le.mpr hfull)
  | some sq => rfl

/-! ### A served client -/

theorem batchFits_of_booting (inp : Input) (h : s.Booting) : s.BatchFits (.server inp) := by
  intro _ _
  have hzero : ∀ cqe ∈ s.cq, cqe.setup s.srv.ubKernelDma = 0 ∧
      ¬ cqe.Delivers s.srv.ubKernelDma ∧ ¬ cqe.Calls s.srv.ubKernelDma := by
    intro cqe hmem
    rw [h.cq_eq cqe hmem]
    have hoffset : ¬ REQ_RESP_OFFSET ≤ handOver.userData := by decide
    exact ⟨if_neg (by decide), fun hd => hoffset hd.1,
      fun hc => hc.elim (fun hd => hoffset hd.1) fun hp => hoffset hp.1⟩
  have hsetup : (s.cq.map (Cqe.setup s.srv.ubKernelDma)).sum = 0 := by
    refine List.sum_eq_zero_iff_forall_eq_nat.mpr fun n hn => ?_
    obtain ⟨cqe, hmem, rfl⟩ := List.mem_map.mp hn
    exact (hzero cqe hmem).1
  have hreturned : s.returned = 0 := by
    rw [returned, h.released_eq, List.length_nil, Nat.zero_add, List.countP_eq_zero]
    exact fun cqe hmem => by simpa using (hzero cqe hmem).2.1
  have hclients : writing s.srv.clientOutBuffers ∪ called s.srv.ubKernelDma s.cq = ∅ := by
    have hcalled : called s.srv.ubKernelDma s.cq = ∅ := by
      have hnil : (s.cq.filter fun cqe => cqe.Calls s.srv.ubKernelDma) = [] :=
        List.filter_eq_nil_iff.mpr fun cqe hmem => by simpa using (hzero cqe hmem).2.2
      rw [called, hnil]
      rfl
    rw [hcalled, h.lakes_eq]
    rfl
  have hlen := s.sq.len_le
  unfold Covered demand
  rw [hsetup, hreturned, hclients, ite_self]
  exact hlen

/-- Client 100 has sent a request, and its response is to be flushed. -/
theorem flush_fits_served : ∃ s, ReachableUnder BatchFits s ∧ s.pc = .top ∧
    (sendEntries s.srv.clientFds s.srv.clientOutBuffers).length = 1 ∧ s.FlushFits := by
  have hready : ReachableUnder BatchFits ready :=
    reachableUnder_ready fun _ inp hb => batchFits_of_booting inp hb
  obtain ⟨s, hs, hp⟩ := exists_of_exec hready
    (fun s _ => decide (s.pc = .submit → ¬ s.cq.isEmpty → s.Covered))
    (fun s _ hc hpc hcq => of_decide_eq_true hc hpc (by simpa using hcq))
    (connect ++ .kernel (.recvData 0 0 plaintextRequest true) :: rounds 11)
    (fun s => s.pc = .top
      && (sendEntries s.srv.clientFds s.srv.clientOutBuffers).length = 1) (by decide +kernel)
  simp only [Bool.and_eq_true, decide_eq_true_eq] at hp
  exact ⟨s, hs, hp.1, hp.2, flush_fits hs⟩

/-! ### One response and 2047 clients in one batch -/

/-- `n` connections arrive, on the descriptors from 6 on. -/
def crowded (k : Kernel) : Nat → Kernel
  | 0 => k
  | n + 1 => (crowded k n).accept ((6 + n : Nat) : Int) true

/-- The completions of the arrivals. -/
def callers (n : Nat) : List Cqe :=
  (List.range n).map fun i => ⟨CODE_ACCEPT, ((6 + i : Nat) : Int), 2⟩

theorem cq_crowded (k : Kernel) (n : Nat) : (crowded k n).cq = k.cq ++ callers n := by
  induction n with
  | zero => exact (List.append_nil _).symm
  | succ n ih =>
    show (crowded k n).cq ++ [_] = _
    rw [ih, callers, callers, List.range_succ, List.map_append, List.append_assoc]
    rfl

theorem run_crowded (hfree : ∀ fd : Int, 5 < fd → s.kern.owner fd = none)
    (hacc : 0 < s.kern.accepts) (n : Nat) :
    (∃ as, Run step (fun _ _ => True) s as { s with kern := crowded s.kern n }) ∧
      (crowded s.kern n).accepts = s.kern.accepts ∧
      ∀ fd : Int, ((5 + n : Nat) : Int) < fd → (crowded s.kern n).owner fd = none := by
  induction n with
  | zero => exact ⟨⟨[], .nil s⟩, rfl, hfree⟩
  | succ n ih =>
    obtain ⟨⟨as, hrun⟩, haccepts, howner⟩ := ih
    have hstep : ({ s with kern := crowded s.kern n } : Reactor).step
        (.kernel (.accept ((6 + n : Nat) : Int) true))
          = some { s with kern := crowded s.kern (n + 1) } := by
      have hnew : ((5 + n : Nat) : Int) < ((6 + n : Nat) : Int) := by omega
      refine if_pos ⟨Int.natCast_nonneg _, howner _ hnew, ?_⟩
      show 0 < (crowded s.kern n).accepts
      rw [haccepts]
      exact hacc
    refine ⟨⟨_, hrun.trans (Run.single trivial hstep)⟩, haccepts, fun fd hfd => ?_⟩
    have hne : fd ≠ ((6 + n : Nat) : Int) := by omega
    have hlt : ((5 + n : Nat) : Int) < fd := by omega
    exact (Function.update_of_ne hne _ _).trans (howner fd hlt)

/-- Client 100 has its response, and `n` clients of the batch are stored since. Their entries are
in the queue. -/
structure Crowd (n : Nat) (s : Reactor) : Prop where
  pc_eq : s.pc = .process
  dma_eq : s.srv.ubKernelDma = false
  sqpoll_eq : s.srv.sqpollEnabled = false
  rps_eq : s.srv.rps = 0
  released_eq : s.srv.releasedBuffers = [0]
  next_eq : s.srv.clientFds.next = 101 + n
  lakes_capacity : s.srv.clientOutBuffers.capacity = 65535
  fd_eq : s.srv.clientFds.get 100 = some 5
  output : ∃ lake, s.srv.clientOutBuffers.get 100 = some lake ∧ lake.len ≠ 0
  capacity_eq : s.sq.capacity = 2048
  stale_eq : s.sq.stale = 0
  published_eq : s.sq.published = []
  pending_eq : s.sq.pending.length = n

/-- One more client of the batch is stored. -/
theorem Crowd.accept {n : Nat} (h : Crowd n s) (hn : n < 2048) {cqe : Cqe} {rest : List Cqe}
    (hcq : s.cq = cqe :: rest) (hu : cqe.userData = CODE_ACCEPT) (hfd : 0 < cqe.result) :
    ∃ t, s.serverStep calm = some t ∧ Crowd (n + 1) t ∧ t.cq = rest := by
  -- The table of output buffers has room for the whole crowd.
  obtain ⟨lakes, hins⟩ : ∃ lakes, s.srv.clientOutBuffers.insert s.srv.clientFds.next
      SmallLake.build = some lakes := by
    rw [← Option.ne_none_iff_exists', Ne, ExternStableVec.insert_eq_none_iff, h.lakes_capacity,
      h.next_eq]
    omega
  obtain ⟨_, hcap, hget⟩ := ExternStableVec.insert_eq_some hins
  have hroom : s.sq.len < s.sq.capacity := by
    rw [SubmissionQueue.len, h.stale_eq, h.published_eq, h.pending_eq, h.capacity_eq,
      List.length_nil]
    omega
  obtain ⟨hqcap, hstale, hpub, hpend⟩ := SubmissionQueue.pushMultiple_eq_some
    (SubmissionQueue.push_pushOrDrop
      (.recvMulti cqe.result (clientData s.srv.clientFds.next INIT_REQUEST).packUserData) hroom)
  refine ⟨_, serverStep_accept h.pc_eq hcq h.dma_eq hu hfd hins calm, ?_, rfl⟩
  exact {
    pc_eq := h.pc_eq
    dma_eq := h.dma_eq
    sqpoll_eq := h.sqpoll_eq
    rps_eq := h.rps_eq
    released_eq := h.released_eq
    next_eq := congrArg Nat.succ h.next_eq
    lakes_capacity := hcap.trans h.lakes_capacity
    fd_eq := by
      show (s.srv.clientFds.push cqe.result).2.get 100 = some 5
      rw [ExternStableVec.get_push, h.next_eq, if_neg (by omega)]
      exact h.fd_eq
    output := by
      obtain ⟨lake, hlake, hlen⟩ := h.output
      refine ⟨lake, ?_, hlen⟩
      show lakes.get 100 = some lake
      rw [hget, h.next_eq, if_neg (by omega)]
      exact hlake
    capacity_eq := hqcap.trans h.capacity_eq
    stale_eq := hstale.trans h.stale_eq
    published_eq := hpub.trans h.published_eq
    pending_eq := by
      show (s.sq.pushOrDrop _).pending.length = n + 1
      rw [hpend, List.length_append, h.pending_eq]
      rfl }

/-- The rest of the batch is stored. -/
theorem Crowd.run {n : Nat} {rest : List Cqe} (h : Crowd n s) (hcq : s.cq = rest)
    (hn : n + rest.length ≤ 2048)
    (hrest : ∀ cqe ∈ rest, cqe.userData = CODE_ACCEPT ∧ 0 < cqe.result) :
    ∃ as t, Run step (fun _ _ => True) s as t ∧ Crowd (n + rest.length) t ∧ t.cq = [] := by
  -- Along the rest of the batch, each accept taking one more place in the queue.
  induction rest generalizing n s with
  | nil => exact ⟨[], s, .nil s, h, hcq⟩
  | cons cqe rest ih =>
    obtain ⟨hhead, htail⟩ := List.forall_mem_cons.mp hrest
    rw [List.length_cons] at hn
    obtain ⟨t, hstep, ht, hcq'⟩ := h.accept (by omega) hcq hhead.1 hhead.2
    have hone : s.step (.server calm) = some t := hstep
    obtain ⟨as, u, hrun, hu, hnil⟩ := ih ht hcq' (by omega) htail
    refine ⟨_, u, (Run.single trivial hone).trans hrun, ?_, hnil⟩
    rw [List.length_cons, ← Nat.add_assoc, Nat.add_right_comm]
    exact hu

/-- The batch is processed, and the retry loop of `release_buffers` begins. -/
def handingBack (s : Reactor) : Reactor := { s with sq := s.sq.drain, pc := .release true }

theorem Crowd.run_handingBack {n : Nat} (h : Crowd n s) (hcq : s.cq = []) :
    ∃ as, Run step (fun _ _ => True) s as s.handingBack := by
  have hdrained : s.step (.server calm) = some { s with pc := .idle } :=
    serverStep_drained h.pc_eq hcq calm
  have hidle : ({ s with pc := .idle } : Reactor).step (.server calm) = some s.handingBack := by
    have hrelease : ({ s with pc := .top } : Reactor).releaseBuffers calm true
        = .ok s.handingBack := by
      simp [releaseBuffers, submitAll, h.sqpoll_eq, h.published_eq, h.released_eq, calm,
        handingBack, BUFFERS_COUNT]
    show ({ s with pc := .idle } : Reactor).serverStep calm = some s.handingBack
    simp only [serverStep, if_pos h.rps_eq, hrelease]
    rfl
  exact ⟨_, (Run.single trivial hdrained).trans (Run.single trivial hidle)⟩

theorem Crowd.len_handingBack {n : Nat} (h : Crowd n s) : s.handingBack.sq.len = n := by
  show s.sq.drain.len = n
  rw [SubmissionQueue.len_drain, SubmissionQueue.len, h.stale_eq, h.published_eq, h.pending_eq,
    List.length_nil, Nat.zero_add]

/-- With 2047 clients stored, the buffer that is handed back takes the last place of the queue. The
flush comes next. -/
theorem Crowd.flush (h : Crowd 2047 s) (hcq : s.cq = []) :
    ∃ as t, Run step (fun _ _ => True) s as t ∧ ¬ t.FlushFits := by
  let loop : Reactor := s.handingBack
  obtain ⟨as, hrun⟩ := h.run_handingBack hcq
  -- The entry of the buffer is published together with those of the clients.
  have hlen : loop.sq.len = 2047 := h.len_handingBack
  have hentries : loop.releaseEntries = [.provideBuffer 0] := by
    show s.srv.releasedBuffers.map Entry.provideBuffer = _
    rw [h.released_eq]
    rfl
  obtain ⟨sq, hpush⟩ : ∃ sq, loop.sq.pushMultiple loop.releaseEntries = some sq := by
    rw [← Option.ne_none_iff_exists', Ne, SubmissionQueue.pushMultiple_eq_none_iff, hentries,
      SubmissionQueue.free, hlen]
    show ¬ s.sq.capacity - 2047 < 1
    rw [h.capacity_eq]
    decide
  let full : Reactor := ({ loop with sq := sq.sync } : Reactor).submitAll
  let top : Reactor := { full with srv := { full.srv with releasedBuffers := [] }, pc := .top }
  have hround : loop.step (.server calm) = some top := by
    have hok : loop.releaseRound calm true = .ok top := by
      rw [releaseRound, hpush]
      rfl
    show some (loop.orStop (loop.releaseRound calm true)) = some top
    rw [hok]
    rfl
  refine ⟨_, top, hrun.trans (Run.single trivial hround), fun hfits => ?_⟩
  obtain ⟨hfull, hcapacity, hrest⟩ := len_submitAll { loop with sq := sq.sync }
  have hsrv : full.srv = s.srv := srv_submitAll { loop with sq := sq.sync }
  have hroom := (hfits rfl (hrest.trans hcq)).1
  have hfree : top.sq.free = 0 := by
    have hcount : sq.entries.length = 2048 := by
      rw [SubmissionQueue.entries_pushMultiple hpush, hentries, List.length_append]
      show s.sq.drain.entries.length + 1 = 2048
      rw [SubmissionQueue.entries_drain, h.pending_eq]
    have hsize : sq.capacity = 2048 :=
      (SubmissionQueue.pushMultiple_eq_some hpush).1.trans h.capacity_eq
    show full.sq.capacity - full.sq.len = 0
    rw [hfull, hcapacity, SubmissionQueue.len_sync, hcount]
    exact Nat.sub_eq_zero_of_le hsize.le
  -- Client 100 has its send entry.
  obtain ⟨lake, hget, hne⟩ := h.output
  have hsend : 0 < (sendEntries s.srv.clientFds s.srv.clientOutBuffers).length :=
    List.length_pos_of_mem (mem_sendEntries.mpr ⟨100, lake, 5, hget, hne, h.fd_eq, rfl⟩)
  rw [hfree] at hroom
  have hsame : (sendEntries full.srv.clientFds full.srv.clientOutBuffers).length ≤ 0 := hroom
  rw [hsrv] at hsame
  omega

/-- The completion for the request of client 100. -/
def requestCqe : Cqe :=
  ⟨(clientData 100 INIT_REQUEST).packUserData, plaintextRequest.length, cqeFlags 0 true⟩

theorem cq_answered (s : Reactor) (bufId : Nat) (user : UserData) (len : Nat) (cache : Mem)
    (hot : SmallLake 512) (lake : OutBuffer) :
    (s.answered bufId user len cache hot lake).cq = s.cq := rfl

/-- The request is in buffer 0. -/
def requestBuffers : Mem := Mem.write (fun _ => 0) (0 * BUFFER_SIZE) plaintextRequest

/-- The request of client 100 has arrived on its connection. -/
def requested (s : Reactor) : Reactor := { s with
  srv := { s.srv with buffers := s.srv.buffers.write (0 * BUFFER_SIZE) plaintextRequest }
  kern := s.kern.recvData ⟨(clientData 100 INIT_REQUEST).packUserData⟩ 0 0
    plaintextRequest.length true }

theorem Visiting.step_requested (hs : Visiting 0 s) :
    s.step (.kernel (.recvData 0 0 plaintextRequest true)) = some s.requested := by
  have hrecvs : s.kern.recvs = [⟨(clientData 100 INIT_REQUEST).packUserData⟩] := hs.recvs_eq
  have hzero : 0 ∈ s.kern.provided := by
    rw [hs.provided_eq]
    decide
  have hlen : plaintextRequest.length = 42 := by decide
  simp [step, kernelStep, hrecvs, hzero, hlen, requested, BUFFER_SIZE]

/-- The response to the request has 204 bytes. -/
theorem length_requested_replies (hbuf : s.srv.buffers = requestBuffers) :
    (s.block (s.received requestCqe)).length = 204 := by
  have hslice : s.received requestCqe
      = ⟨requestBuffers.shift (0 * BUFFER_SIZE), plaintextRequest.length⟩ := by
    have hid : requestCqe.flags >>> 16 % 2 ^ 16 = 0 := by decide
    rw [received, hid]
    show (⟨s.srv.buffers.shift _, _⟩ : Slice) = _
    rw [hbuf]
    rfl
  rw [block, length_replies_date _ Date.zero, hslice]
  decide +kernel

/-- With a client stored, the server looks at the queue before it fetches. -/
theorem sq_fetched {c : Nat} {lake : OutBuffer} (h : s.srv.clientOutBuffers.get c = some lake) :
    s.fetched.sq = s.sq.sync := by
  have hiter : s.srv.clientOutBuffers.iter ≠ [] := by
    intro hnil
    have hmem : (c, lake) ∈ s.srv.clientOutBuffers.iter := ExternStableVec.mem_iter.mpr h
    rw [hnil] at hmem
    cases hmem
  show (if s.srv.syncNow || decide (s.srv.clientOutBuffers.iter ≠ []) then s.sq.sync else s.sq)
    = _
  rw [decide_eq_true hiter, Bool.or_true, if_pos rfl]

/-- The request and `n` arrivals are in one batch, and the request is answered. -/
theorem exists_crowd (n : Nat) : ∃ s, s.Reachable ∧ Crowd 0 s ∧ s.cq = callers n := by
  obtain ⟨as, s, hvisit, hs⟩ : ∃ as s, Run step (fun _ _ => True) ready as s ∧ Visiting 0 s :=
    run_visit (fun _ _ _ => trivial) lull_ready (by decide)
  have hlake : s.srv.clientOutBuffers.get 100 = some SmallLake.build :=
    (hs.lakes_eq 100).trans (if_pos rfl)
  -- The request arrives, and then the connections.
  let u : Reactor := s.requested
  have hrecv : s.step (.kernel (.recvData 0 0 plaintextRequest true)) = some u :=
    hs.step_requested
  have haccepts : 0 < u.kern.accepts := by
    show 0 < s.kern.accepts
    rw [hs.accepts_eq]
    decide
  obtain ⟨⟨bs, hcrowd⟩, _⟩ := run_crowded (s := u) hs.free haccepts n
  let w : Reactor := { u with kern := crowded u.kern n }
  have hposted : w.kern.cq = requestCqe :: callers n := by
    show (crowded u.kern n).cq = _
    rw [cq_crowded]
    show (s.kern.cq ++ [_]) ++ _ = _
    rw [hs.posted_eq]
    rfl
  -- The server fetches them all.
  have hresting : Resting { w with pc := .process } :=
    ⟨rfl, hs.cq_eq, hs.released_eq, hs.synced_eq, hs.silent⟩
  have hfetch : Run step (fun _ _ => True) w (rounds 7) w.fetched :=
    run_fetched (fun _ _ => trivial) hresting hs.pc_eq (by rw [hposted]; simp) hs.room
  have hsync : w.fetched.sq = s.sq.sync := sq_fetched (s := w) hlake
  -- It answers the request.
  have hbuf : w.fetched.srv.buffers = requestBuffers := by
    show s.srv.buffers.write _ _ = _
    rw [hs.buffers_eq]
    rfl
  have hsize := length_requested_replies hbuf
  let lake : OutBuffer := SmallLake.build.write (w.fetched.block (w.fetched.received requestCqe))
  have hlen : lake.len = 204 := by
    show lake.pos = 204
    rw [SmallLake.pos_write, hsize]
    rfl
  have hclient : clientOf requestCqe.userData = 100 := by decide
  have hdelivers : requestCqe.Delivers w.fetched.srv.ubKernelDma := by
    show requestCqe.Delivers s.srv.ubKernelDma
    rw [hs.dma_eq]
    decide
  obtain ⟨cache, hot, hstep⟩ := serverStep_answered (s := w.fetched) rfl hposted hdelivers
    (by decide) (by decide) (by rw [hclient]; exact hlake)
    (by show s.srv.releasedBuffers.length + 1 ≠ _; rw [hs.released_eq]; decide) calm
  let v : Reactor := ({ w.fetched with cq := callers n } : Reactor).answered
    (requestCqe.flags >>> 16 % 2 ^ 16) (UserData.unpackUserData requestCqe.userData)
    requestCqe.result.toNat cache hot lake
  have hanswer : w.fetched.step (.server calm) = some v := hstep
  have hcq : v.cq = callers n := cq_answered _ _ _ _ _ _ _
  obtain ⟨s₀, cs, hstart, hready⟩ := reachable_ready
  refine ⟨v, ⟨s₀, _, hstart, ((((hready.trans hvisit).trans (Run.single trivial hrecv)).trans
    hcrowd).trans hfetch).trans (Run.single trivial hanswer)⟩, ?_, hcq⟩
  exact {
    pc_eq := rfl
    dma_eq := hs.dma_eq
    sqpoll_eq := hs.sqpoll_eq
    rps_eq := hs.rps_eq
    released_eq := by
      show s.srv.releasedBuffers ++ [0] = [0]
      rw [hs.released_eq]
      rfl
    next_eq := hs.next_eq
    lakes_capacity := hs.lakes_capacity
    fd_eq := hs.fds_eq
    output := by
      refine ⟨lake, ?_, ?_⟩
      · show (s.srv.clientOutBuffers.set (clientOf requestCqe.userData) lake).get 100 = some lake
        rw [hclient, ExternStableVec.get_set, hlake]
        rfl
      · rw [hlen]
        decide
    capacity_eq := by
      show w.fetched.sq.capacity = 2048
      rw [hsync]
      exact hs.capacity_eq
    stale_eq := by
      show w.fetched.sq.stale = 0
      rw [hsync]
      rfl
    published_eq := by
      show w.fetched.sq.published = []
      rw [hsync]
      exact hs.entries_eq
    pending_eq := by
      show w.fetched.sq.pending.length = 0
      rw [hsync]
      rfl }

theorem length_callers (n : Nat) : (callers n).length = n := by
  rw [callers, List.length_map, List.length_range]

/-- All arrivals of the batch are stored. -/
theorem exists_stored {n : Nat} (hn : n ≤ 2048) : ∃ s, s.Reachable ∧ Crowd n s ∧ s.cq = [] := by
  obtain ⟨s, ⟨s₀, as, hstart, hrun⟩, hs, hcq⟩ := exists_crowd n
  have haccepts : ∀ cqe ∈ callers n, cqe.userData = CODE_ACCEPT ∧ 0 < cqe.result := by
    intro cqe hmem
    obtain ⟨i, _, rfl⟩ := List.mem_map.mp hmem
    refine ⟨rfl, ?_⟩
    show (0 : Int) < ((6 + i : Nat) : Int)
    omega
  obtain ⟨bs, t, hstored, ht, hnil⟩ := hs.run hcq (by rw [length_callers]; omega) haccepts
  rw [length_callers, Nat.zero_add] at ht
  exact ⟨t, ⟨s₀, _, hstart, hrun.trans hstored⟩, ht, hnil⟩

/-- A request and 2047 arrivals are in one batch. The entries of the new clients and the buffer that
is handed back fill the queue, and the flush panics. -/
theorem not_flush_fits : ¬ ∀ s : Reactor, s.Reachable → s.FlushFits := by
  intro hall
  obtain ⟨s, ⟨s₀, as, hstart, hrun⟩, hs, hcq⟩ := exists_stored (show 2047 ≤ 2048 by decide)
  obtain ⟨bs, u, hflush, hu⟩ := hs.flush hcq
  exact hu (hall u ⟨s₀, _, hstart, hrun.trans hflush⟩)

/-- With one arrival more there is no place for the buffer that is handed back. The retry loop of
`release_buffers` never ends. -/
theorem not_release_ends : ¬ ∀ s : Reactor, s.Reachable → s.InRelease → s.ReleaseEnds := by
  intro hall
  obtain ⟨s, ⟨s₀, as, hstart, hrun⟩, hs, hcq⟩ := exists_stored (Nat.le_refl 2048)
  obtain ⟨bs, hback⟩ := hs.run_handingBack hcq
  have hin : s.handingBack.InRelease := ⟨true, rfl⟩
  have hends := hall s.handingBack ⟨s₀, _, hstart, hrun.trans hback⟩ hin
  have hfits := (releaseEnds_iff hin).mp hends
  have hfree : s.handingBack.sq.free = 0 := by
    rw [SubmissionQueue.free, hs.len_handingBack]
    show s.sq.capacity - 2048 = 0
    rw [hs.capacity_eq]
  have hone : s.handingBack.srv.releasedBuffers.length = 1 := by
    show s.srv.releasedBuffers.length = 1
    rw [hs.released_eq]
    rfl
  rw [ReleaseFits, hfree, hone] at hfits
  exact absurd hfits (by decide)

end Reactor

end Tachyon
