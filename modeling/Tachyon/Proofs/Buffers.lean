import Mathlib.Algebra.Order.Group.Multiset
import Mathlib.Data.Multiset.Range
import Tachyon.Proofs.Forward
import Tachyon.Proofs.Recv
import Tachyon.Proofs.Release

/-!
# `Tachyon.Proofs.Buffers`: where the receive buffers are

A buffer id is in one of four places: in the group of the kernel, in a hand-over entry on its way
there, in a data completion the server has not processed, or in `released_buffers`. The first
three are outside the server (`View.lent`). `ledger` adds up all four as a multiset. Every step
that does not stop the loop moves ids and keeps this sum (`Conserved`), which starts as the ids
`0 .. BUFFERS_COUNT - 1` (`buffers_conserved`).

Two facts about the ring carry the step of `request_reply`. No completion but the one of a recv
with data gets there (`kernel_posts`), and its length is at most `BUFFER_SIZE`, so the early
return for longer ones does not lose a buffer (`fits_invariant`).
-/

set_option autoImplicit false

namespace Tachyon

/-- The buffer that an entry hands over. -/
def Entry.bufferId : Entry → Option Nat
  | .provideBuffer id => some id
  | .acceptMulti => none
  | .recvMulti _ _ => none
  | .pollAdd _ _ => none
  | .send _ _ _ => none

/-- The buffer that a completion of a recv with data carries. -/
def Cqe.bufferId (dma : Bool) (cqe : Cqe) : Option Nat :=
  if cqe.Delivers dma then some (cqe.flags >>> 16 % 2 ^ 16) else none

/-! ### The completions that carry a buffer -/

theorem shiftRight_cqeFlags {id : Nat} (h : id < 2 ^ 16) (more : Bool) :
    cqeFlags id more >>> 16 % 2 ^ 16 = id := by
  rw [Nat.shiftRight_eq_div_pow]
  unfold cqeFlags
  split <;> omega

/-- An entry that the kernel takes posts no data. -/
theorem submit_posts (k : Kernel) (e : Entry) (dma : Bool) : (k.submit e).cq = k.cq ∨
    ∃ cqe, (k.submit e).cq = k.cq ++ [cqe] ∧ ¬ cqe.Delivers dma := by
  rcases k.cq_submit e with hcq | ⟨cqe, hcq, hres⟩
  · exact .inl hcq
  · exact .inr ⟨cqe, hcq, Cqe.not_delivers_of_nonpos hres⟩

/-- What an action of the kernel does to the buffers: a recv delivers data in one of them, or
they all stay where they are. -/
theorem kernel_posts {s : Reactor} {k : KernelAct} {v : View} (hwf : s.view.Wf)
    (he : Reactor.Effect s (.kernel k) v) : v.dma = s.view.dma ∧ v.queue = s.view.queue ∧
    ((∃ u id n more, id ∈ s.view.kern.provided ∧ n ≤ BUFFER_SIZE ∧
        v.kern.provided = s.view.kern.provided.erase id ∧
        v.kern.cq = s.view.kern.cq ++ [⟨u, (n : Nat), cqeFlags id more⟩] ∧
        Cqe.Delivers s.view.dma ⟨u, (n : Nat), cqeFlags id more⟩) ∨
      v.kern.provided = s.view.kern.provided ∧ (v.kern.cq = s.view.kern.cq ∨
        ∃ cqe, v.kern.cq = s.view.kern.cq ++ [cqe] ∧ ¬ cqe.Delivers s.view.dma)) := by
  have hn := hwf.tables.next_le
  cases he with
  | kernelAccept fd more h0 hfree | kernelAcceptEnd err =>
    exact ⟨rfl, rfl, .inr ⟨rfl, .inr ⟨_, rfl, Cqe.not_delivers_of_lt accept_not_offset_le⟩⟩⟩
  | recvData op i id data more hop hid hpos hle =>
    obtain ⟨c, hissued⟩ := hwf.ring.recvs_issued op (List.mem_of_getElem? hop)
    have huniq := hissued.uniqOf_eq hn (by decide)
    have hother : ∀ w, INIT_REQUEST ≠ w → uniqOf op.userData ≠ w := by
      intro w hw
      rw [huniq]
      exact hw
    have hd : Cqe.Delivers s.view.dma ⟨op.userData, (data.length : Nat), cqeFlags id more⟩ :=
      ⟨hissued.offset_le hn (by decide), Int.natCast_pos.mpr hpos, hother _ (by decide),
        fun hpoll => hother _ (by decide) hpoll.1⟩
    exact ⟨rfl, rfl, .inl ⟨_, id, _, more, hid, hle, rfl, rfl, hd⟩⟩
  | recvEnd op i result hop hres =>
    exact ⟨rfl, rfl, .inr ⟨rfl, .inr ⟨_, rfl, Cqe.not_delivers_of_nonpos hres⟩⟩⟩
  | pollEvent op i mask more hop =>
    -- A poll is armed in UBDMA mode only, and its completion goes to `ubdma`.
    obtain ⟨hdma, c, hissued⟩ := hwf.ring.polls_issued op (List.mem_of_getElem? hop)
    exact ⟨rfl, rfl, .inr ⟨rfl, .inr ⟨_, rfl, fun hd =>
      hd.2.2.2 ⟨hissued.uniqOf_eq hn (by decide), hdma⟩⟩⟩⟩
  | pollEnd op i err hop | sendFail op i err hop herr =>
    have hneg : -(err : Int) ≤ 0 := by omega
    exact ⟨rfl, rfl, .inr ⟨rfl, .inr ⟨_, rfl, Cqe.not_delivers_of_nonpos hneg⟩⟩⟩
  | sendDone op i sent hop hsent | sqThread => exact ⟨rfl, rfl, .inr ⟨rfl, .inl rfl⟩⟩

/-- The data of every completion fits its buffer. -/
theorem fits_invariant : Reactor.InvariantOver (fun _ _ => True) View.Wf fun v =>
    ∀ cqe ∈ v.kern.cq, cqe.Delivers v.dma → cqe.result ≤ BUFFER_SIZE where
  start v h := by
    intro cqe hmem _
    rw [(h.cq_setup cqe hmem).2]
    decide
  effect s a v hwf hs _ he := by
    cases a with
    | server inp =>
      -- The server takes completions and posts none.
      have htail : ∀ cqe ∈ s.view.kern.cq.tail, cqe.Delivers s.view.dma →
          cqe.result ≤ BUFFER_SIZE := fun cqe hmem => hs cqe (List.mem_of_mem_tail hmem)
      cases he with
      | quiet inp hpc | provide inp ids hpc | flush inp hpc => exact hs
      | skip | accept | close | closeStdin | reply => exact htail
    | kernel k =>
      obtain ⟨hdma, _, hcq⟩ := kernel_posts hwf he
      rw [hdma]
      rcases hcq with ⟨u, id, n, more, _, hle, _, hcq, _⟩ | ⟨_, hcq | ⟨cqe, hcq, hnd⟩⟩
      · rw [hcq]
        exact List.forall_mem_append.mpr
          ⟨hs, List.forall_mem_singleton.mpr fun _ => Int.ofNat_le.mpr hle⟩
      · rw [hcq]
        exact hs
      · rw [hcq]
        exact List.forall_mem_append.mpr
          ⟨hs, List.forall_mem_singleton.mpr fun hd => absurd hd hnd⟩
  submit v e q _ hv hq := by
    show ∀ cqe ∈ (v.kern.submit e).cq, cqe.Delivers v.dma → cqe.result ≤ BUFFER_SIZE
    rcases submit_posts v.kern e v.dma with hcq | ⟨cqe, hcq, hnd⟩
    · rw [hcq]
      exact hv
    · rw [hcq]
      exact List.forall_mem_append.mpr
        ⟨hv, List.forall_mem_singleton.mpr fun hd => absurd hd hnd⟩

/-! ### The ids outside the server -/

namespace View

/-- The ids the kernel holds: available in the group, or in a hand-over that is queued. -/
def held (v : View) : Multiset Nat :=
  ↑v.kern.provided + ↑(v.queue.filterMap Entry.bufferId)

/-- The ids in the data completions that the server has not processed. -/
def carried (v : View) : Multiset Nat := ↑(v.kern.cq.filterMap (Cqe.bufferId v.dma))

/-- The ids outside the server. -/
def lent (v : View) : Multiset Nat := v.held + v.carried

/-- The client table has no part in it. -/
theorem lent_fds (v : View) (fds : ExternStableVec RawFd) :
    ({ v with fds := fds } : View).lent = v.lent := rfl

/-- Entries join the queue. -/
theorem lent_append {v w : View} {es : List Entry} (hdma : w.dma = v.dma)
    (hp : w.kern.provided = v.kern.provided) (hq : w.queue = v.queue ++ es)
    (hcq : w.kern.cq = v.kern.cq) : w.lent = v.lent + ↑(es.filterMap Entry.bufferId) := by
  rw [lent, lent, held, held, carried, carried, hdma, hp, hq, hcq, List.filterMap_append,
    ← Multiset.coe_add, ← add_assoc, add_right_comm]

/-- Entries that hand over nothing join the queue. -/
theorem lent_append_others {v w : View} {es : List Entry} (hdma : w.dma = v.dma)
    (hp : w.kern.provided = v.kern.provided) (hq : w.queue = v.queue ++ es)
    (hcq : w.kern.cq = v.kern.cq) (hes : ∀ e ∈ es, e.bufferId = none) : w.lent = v.lent := by
  have hnone : es.filterMap Entry.bufferId = [] := List.filterMap_eq_nil_iff.mpr hes
  rw [lent_append hdma hp hq hcq, hnone, Multiset.coe_nil, add_zero]

theorem lent_flush (v : View) : v.flush.lent = v.lent := by
  refine lent_append_others rfl rfl rfl rfl fun e hmem => ?_
  obtain ⟨c, lake, fd, _, _, _, rfl⟩ := mem_sendEntries.mp hmem
  rfl

theorem lent_accept (v : View) (fd : RawFd) (lakes : ExternStableVec OutBuffer)
    {es : List Entry} (hes : ∀ e ∈ es, e.bufferId = none) :
    (v.accept fd lakes es).lent = v.lent :=
  lent_append_others rfl rfl rfl rfl hes

/-- A completion is posted. -/
theorem lent_post {v w : View} {cqe : Cqe} (hdma : w.dma = v.dma)
    (hp : w.kern.provided = v.kern.provided) (hq : w.queue = v.queue)
    (hcq : w.kern.cq = v.kern.cq ++ [cqe]) (hnd : ¬ cqe.Delivers v.dma) : w.lent = v.lent := by
  have hnone : [cqe].filterMap (Cqe.bufferId v.dma) = [] := by
    simp [Cqe.bufferId, hnd]
  rw [lent, lent, held, held, carried, carried, hdma, hp, hq, hcq, List.filterMap_append, hnone,
    List.append_nil]

/-- The oldest completion is dealt with. -/
theorem lent_consume {v w : View} {cqe : Cqe} {rest : List Cqe} (hdma : w.dma = v.dma)
    (hp : w.kern.provided = v.kern.provided) (hq : w.queue = v.queue)
    (hv : v.kern.cq = cqe :: rest) (hw : w.kern.cq = rest) :
    w.lent + ↑(cqe.bufferId v.dma).toList = v.lent := by
  have hcons : (cqe :: rest).filterMap (Cqe.bufferId v.dma)
      = (cqe.bufferId v.dma).toList ++ rest.filterMap (Cqe.bufferId v.dma) := by
    rw [List.filterMap_cons]
    cases cqe.bufferId v.dma <;> rfl
  rw [lent, lent, held, held, carried, carried, hdma, hp, hq, hv, hw, hcons, ← Multiset.coe_add,
    add_assoc, add_comm (Multiset.ofList (rest.filterMap (Cqe.bufferId v.dma)))]

/-- The kernel takes an entry. A hand-over goes from the queue to the group. -/
theorem lent_submit_one {v : View} {e : Entry} {q : List Entry} (hq : v.queue = e :: q) :
    ({ v with queue := q, kern := v.kern.submit e } : View).lent = v.lent := by
  have hother : e.bufferId = none → (v.kern.submit e).provided = v.kern.provided →
      ({ v with queue := q, kern := v.kern.submit e } : View).lent = v.lent := by
    intro hnone hp
    have hv : v.lent = ({ v with queue := q } : View).lent := by
      rw [lent, lent, held, held, hq, List.filterMap_cons, hnone]
      rfl
    rw [hv]
    rcases submit_posts v.kern e v.dma with hcq | ⟨cqe, hcq, hnd⟩
    · rw [lent, lent, held, held, carried, carried, hp, hcq]
    · exact lent_post rfl hp rfl hcq hnd
  cases e with
  | provideBuffer id =>
    have hnd : ¬ Cqe.Delivers v.dma ⟨BUFFER_REGISTER_CODE, 0, 0⟩ :=
      Cqe.not_delivers_of_nonpos (le_refl 0)
    have hgroup : ({ v with queue := q, kern := v.kern.submit (.provideBuffer id) } : View).lent
        = ({ v with queue := q, kern := { v.kern with
            provided := v.kern.provided ++ [id] } } : View).lent := lent_post rfl rfl rfl rfl hnd
    have hfirst : (Entry.provideBuffer id :: q).filterMap Entry.bufferId
        = [id] ++ q.filterMap Entry.bufferId := rfl
    rw [hgroup, lent, lent, held, held, carried, carried, hq, hfirst, ← Multiset.coe_add,
      ← Multiset.coe_add, add_assoc (↑v.kern.provided : Multiset Nat)]
  | acceptMulti => exact hother rfl rfl
  | recvMulti fd u | pollAdd fd u | send u fd data =>
    refine hother rfl ?_
    simp only [Kernel.submit]
    split <;> rfl

theorem lent_submit (v : View) (n : Nat) : (v.submit n).lent = v.lent :=
  submit_induction (I := fun w => w.lent = v.lent)
    (fun _ _ _ h hq => (lent_submit_one hq).trans h) n rfl

end View

/-- An action of the kernel keeps the ids that are outside the server. A recv moves one from the
group to a completion. -/
theorem lent_kernel {s : Reactor} {k : KernelAct} {v : View} (hwf : s.view.Wf)
    (hid : ∀ id ∈ s.kern.provided, id < 2 ^ 16) (he : Reactor.Effect s (.kernel k) v) :
    v.lent = s.view.lent := by
  obtain ⟨hdma, hq, hcq⟩ := kernel_posts hwf he
  rcases hcq with ⟨u, id, n, more, hmem, _, hp, hcq, hd⟩ | ⟨hp, hcq | ⟨cqe, hcq, hnd⟩⟩
  · have hcarried : v.carried = s.view.carried + {id} := by
      have hone : Cqe.bufferId s.view.dma ⟨u, (n : Nat), cqeFlags id more⟩ = some id := by
        rw [Cqe.bufferId, if_pos hd]
        exact congrArg some (shiftRight_cqeFlags (hid id hmem) more)
      rw [View.carried, hdma, hcq, List.filterMap_append, List.filterMap_cons, hone,
        ← Multiset.coe_add]
      rfl
    have hheld : v.held + {id} = s.view.held := by
      have herase : (↑(s.view.kern.provided.erase id) : Multiset Nat) + {id}
          = ↑s.view.kern.provided := by
        rw [← Multiset.coe_erase, add_comm, Multiset.singleton_add]
        exact Multiset.cons_erase hmem
      rw [View.held, View.held, hp, hq, add_right_comm, herase]
    rw [View.lent, View.lent, hcarried, ← hheld, add_assoc, add_comm s.view.carried]
  · rw [View.lent, View.lent, View.held, View.held, View.carried, View.carried, hp, hq, hcq, hdma]
  · exact View.lent_post hdma hp hq hcq hnd

/-- A completion is dealt with: the ids outside the server are those before, without the one that
the completion carried. -/
theorem lent_atHand {s : Reactor} {inp : Input} {v : View} {cqe : Cqe}
    (he : Reactor.Effect s (.server inp) v) (hat : s.AtHand cqe) :
    v.lent + ↑(cqe.bufferId s.view.dma).toList = s.view.lent := by
  obtain ⟨rest, hrest⟩ : ∃ rest, s.cq = cqe :: rest := List.head?_eq_some_iff.mp hat.2
  -- The completion at hand is the first of the view.
  have hcons : s.view.kern.cq = cqe :: (rest ++ s.kern.cq) := by
    show s.cq ++ s.kern.cq = _
    rw [hrest]
    rfl
  have htail : s.view.consume.kern.cq = rest ++ s.kern.cq := by
    show s.view.kern.cq.tail = _
    rw [hcons]
    rfl
  cases he with
  | quiet inp hpc =>
    rcases hpc with hpc | hnil
    · exact absurd hat.1 hpc
    · rw [hrest] at hnil
      cases hnil
  | provide inp ids hpc => exact absurd hat.1 hpc
  | flush inp hpc =>
    rw [hat.1] at hpc
    cases hpc
  | accept inp cqe' lakes poll recv hat' hu hfd hins hpoll hrecv =>
    rw [View.lent_accept]
    · exact View.lent_consume rfl rfl rfl hcons htail
    · -- The new entries hand over no buffer.
      intro e hmem
      rcases List.mem_append.mp hmem with hm | hm
      all_goals
        split at hm
        · cases List.mem_singleton.mp hm
          rfl
        · cases hm
  | skip | close | closeStdin | reply => exact View.lent_consume rfl rfl rfl hcons htail

/-! ### The released ids -/

namespace Reactor

variable {s t : Reactor} {inp : Input}

/-- The loop is over. -/
def Stopped (s : Reactor) : Prop := ∃ why, s.pc = .stopped why

/-- A function that does not stop the loop. -/
theorem ok_of_not_stopped {r : Except Stop Reactor} (h : ¬ (s.orStop r).Stopped) :
    ∃ t, r = .ok t := by
  cases r with
  | ok t => exact ⟨t, rfl⟩
  | error why => exact absurd ⟨why, rfl⟩ h

theorem released_widebandSend (h : s.widebandSend = .ok t) :
    t.srv.releasedBuffers = s.srv.releasedBuffers := by
  obtain ⟨sq, now, _, rfl⟩ := widebandSend_cases h
  rfl

/-- `release_buffers` up to its loop hands nothing over. -/
theorem released_releaseBuffers {idle : Bool} (h : s.releaseBuffers inp idle = .ok t) :
    t.srv.releasedBuffers = s.srv.releasedBuffers ∧
      (s.srv.releasedBuffers.length = 0 ∨ t.InRelease) := by
  rcases releaseBuffers_cases h with ⟨hnone, rfl⟩ | ⟨_, rfl⟩
  · exact ⟨rfl, .inl (congrArg List.length hnone)⟩
  · exact ⟨congrArg Server.releasedBuffers (srv_submitAll s), .inr ⟨idle, rfl⟩⟩

theorem released_processEntryAccept {result : Int} (h : s.processEntryAccept result = .ok t) :
    t.srv.releasedBuffers = s.srv.releasedBuffers := by
  rcases processEntryAccept_cases h with ⟨_, rfl⟩ | ⟨_, lakes, _, rfl⟩ <;> rfl

theorem released_closeConnection (s : Reactor) (c : Nat) (force : Bool) :
    (s.closeConnection c force).srv.releasedBuffers = s.srv.releasedBuffers := by
  unfold closeConnection
  cases force with
  | true =>
    simp only [Bool.not_true, Bool.false_eq_true, if_false]
    split <;> rfl
  | false =>
    simp only [Bool.not_false, if_true]
    split <;> rfl

theorem released_ubdma {client : UserData} (h : s.ubdma client = .ok t) :
    t.srv.releasedBuffers = s.srv.releasedBuffers := by
  rcases ubdma_cases h with rfl | ⟨buffer, lake, cache, hot, _, _, _, _, rfl⟩ <;> rfl

/-- `request_reply` releases the buffer it read. At the threshold it goes on to hand the
released ones over. -/
theorem released_requestReply {flags : Nat} {user : UserData} {result : Int}
    (hle : result ≤ BUFFER_SIZE) (h : s.requestReply inp flags user result = .ok t) :
    t.srv.releasedBuffers = s.srv.releasedBuffers ++ [flags >>> 16 % 2 ^ 16] ∧
      (s.srv.releasedBuffers.length + 1 = RELEASE_PART → t.InRelease) := by
  rcases requestReply_cases h with ⟨hlong, _⟩ | ⟨_, lake, cache, hot, _, hnext⟩
  · exact absurd hlong (not_lt.mpr hle)
  split at hnext
  · obtain ⟨hrel, hpc⟩ := released_releaseBuffers hnext
    refine ⟨hrel, fun _ => hpc.resolve_left ?_⟩
    show (s.srv.releasedBuffers ++ [_]).length ≠ 0
    simp
  · rename_i hpart
    subst hnext
    exact ⟨rfl, fun hlen => absurd hlen hpart⟩

/-- A completion that is no data leaves the released ids alone. -/
theorem released_processEntry {cqe : Cqe} (hnd : ¬ cqe.Delivers s.srv.ubKernelDma)
    (h : s.processEntry inp cqe = .ok t) : t.srv.releasedBuffers = s.srv.releasedBuffers := by
  generalize hr : s.processEntry inp cqe = r at h
  have hd := dispatches s inp cqe
  rw [hr] at hd
  cases hd with
  | skip _ _ =>
    cases h
    rfl
  | accept _ => exact released_processEntryAccept h
  | release _ => exact (released_releaseBuffers h).1
  | close _ =>
    cases h
    exact released_closeConnection _ _ _
  | poll _ => exact released_ubdma h
  | reply hd => exact absurd hd hnd

/-! ### The ledger -/

/-- All the ids, wherever they are. -/
def ledger (s : Reactor) : Multiset Nat := s.view.lent + ↑s.srv.releasedBuffers

theorem ledger_congr (hview : t.view.lent = s.view.lent)
    (hrel : t.srv.releasedBuffers = s.srv.releasedBuffers) : t.ledger = s.ledger := by
  rw [ledger, ledger, hview, hrel]

theorem ledger_submitAll (s : Reactor) : s.submitAll.ledger = s.ledger := by
  obtain ⟨n, hn⟩ := s.view_submitAll
  refine ledger_congr ?_ (congrArg Server.releasedBuffers (srv_submitAll s))
  rw [hn, View.lent_submit]

theorem ledger_releaseBuffers {idle : Bool} (h : s.releaseBuffers inp idle = .ok t) :
    t.ledger = s.ledger := by
  obtain ⟨n, hn⟩ := view_releaseBuffers h
  refine ledger_congr ?_ (released_releaseBuffers h).1
  rw [hn, View.lent_submit]

/-- A round of the retry loop changes nothing, or hands every released id over. -/
theorem ledger_releaseRound {idle : Bool} (h : s.releaseRound inp idle = .ok t) :
    t.ledger = s.ledger ∧ (t = s ∨ t.srv.releasedBuffers = []) := by
  rcases releaseRound_cases h with ⟨_, rfl⟩ | ⟨sq, hpush, rfl⟩
  · exact ⟨rfl, .inl rfl⟩
  refine ⟨?_, .inr rfl⟩
  obtain ⟨n, hn⟩ := ({ s with sq := sq.sync } : Reactor).view_submitAll
  have hids : s.releaseEntries.filterMap Entry.bufferId = s.srv.releasedBuffers := by
    rw [releaseEntries, List.filterMap_map]
    exact List.filterMap_some
  have hpushed : ({ s with sq := sq.sync } : Reactor).view.lent
      = s.view.lent + ↑s.srv.releasedBuffers := by
    rw [← hids]
    refine View.lent_append rfl rfl ?_ rfl
    show sq.sync.entries = s.sq.entries ++ s.releaseEntries
    rw [SubmissionQueue.entries_sync, SubmissionQueue.entries_pushMultiple hpush]
  show ({ s with sq := sq.sync } : Reactor).submitAll.view.lent + 0 = s.ledger
  rw [hn, View.lent_submit, hpushed, add_zero]
  rfl

/-- One completion: the id of a data completion goes to the released ones. -/
theorem ledger_processEntry {cqe : Cqe} {rest : List Cqe} (hpc : s.pc = .process)
    (hcq : s.cq = cqe :: rest)
    (hle : cqe.Delivers s.srv.ubKernelDma → cqe.result ≤ BUFFER_SIZE)
    (h : ({ s with cq := rest } : Reactor).processEntry inp cqe = .ok t) :
    t.ledger = s.ledger ∧ (s.srv.releasedBuffers.length < RELEASE_PART → ¬ t.InRelease →
      t.srv.releasedBuffers.length < RELEASE_PART) := by
  obtain ⟨v, n, heff, hview⟩ := refines_processEntry hpc hcq inp
  rw [h] at hview
  have hat : s.AtHand cqe := ⟨hpc, by rw [hcq]; rfl⟩
  -- What the completion carried comes from outside the server.
  have hlent : t.view.lent + ↑(cqe.bufferId s.srv.ubKernelDma).toList = s.view.lent := by
    have hone := lent_atHand heff hat
    have hsub : t.view.lent = v.lent := (congrArg View.lent hview).trans (View.lent_submit v n)
    rw [hsub]
    exact hone
  by_cases hd : cqe.Delivers s.srv.ubKernelDma
  · -- A data completion: its id is noted as released.
    rw [processEntry_delivers (s := { s with cq := rest }) hd inp] at h
    obtain ⟨hrel, hpart⟩ := released_requestReply (hle hd) h
    have hlist : t.srv.releasedBuffers = s.srv.releasedBuffers ++ [cqe.flags >>> 16 % 2 ^ 16] :=
      hrel
    refine ⟨?_, fun hlt hgo => ?_⟩
    · rw [ledger, ledger, ← hlent, Cqe.bufferId, if_pos hd, hlist, ← Multiset.coe_add, add_assoc,
        add_comm (Multiset.ofList s.srv.releasedBuffers)]
      rfl
    · have hne : s.srv.releasedBuffers.length + 1 ≠ RELEASE_PART := fun heq => hgo (hpart heq)
      rw [hlist, List.length_append, List.length_singleton]
      omega
  · have hrel : t.srv.releasedBuffers = s.srv.releasedBuffers :=
      released_processEntry (s := { s with cq := rest }) hd h
    have hnone : cqe.bufferId s.srv.ubKernelDma = none := if_neg hd
    rw [hnone] at hlent
    refine ⟨ledger_congr ?_ hrel, fun hlt _ => ?_⟩
    · rw [← hlent]
      exact (add_zero _).symm
    · rw [hrel]
      exact hlt

/-- What holds between two completions, and in the retry loop of `release_buffers`. -/
structure Conserved (s : Reactor) : Prop where
  ledger_eq : s.ledger = Multiset.range BUFFERS_COUNT
  released_lt : ¬ s.InRelease → s.srv.releasedBuffers.length < RELEASE_PART

/-- The ids are the same, and so are the released ones. -/
theorem Conserved.congr (h : s.Conserved) (hs : ¬ s.InRelease) (hledger : t.ledger = s.ledger)
    (hrel : t.srv.releasedBuffers = s.srv.releasedBuffers) : t.Conserved where
  ledger_eq := hledger.trans h.ledger_eq
  released_lt _ := by
    rw [hrel]
    exact h.released_lt hs

theorem Conserved.serverStep (h : s.Conserved)
    (hfits : ∀ cqe ∈ s.view.kern.cq, cqe.Delivers s.view.dma → cqe.result ≤ BUFFER_SIZE)
    (ht : s.serverStep inp = some t) (hgo : ¬ t.Stopped) : t.Conserved := by
  have hother : (∀ idle, s.pc ≠ .release idle) → ¬ s.InRelease := fun hne ⟨idle, hidle⟩ =>
    hne idle hidle
  have hview : ∀ u : Reactor, u.view = s.view → u.srv.releasedBuffers = s.srv.releasedBuffers →
      ¬ s.InRelease → u.Conserved := fun u hu hrel hs =>
    h.congr hs (ledger_congr (congrArg View.lent hu) hrel) hrel
  cases turns_of_serverStep ht with
  | flush hpc _ =>
    obtain ⟨u, hu⟩ := ok_of_not_stopped hgo
    have hrel : u.srv.releasedBuffers = s.srv.releasedBuffers := by
      obtain ⟨_, _, _, _, heq⟩ := s.tick_eq inp
      rw [released_widebandSend hu, heq]
    rw [hu]
    refine h.congr (hother (by simp [hpc])) (ledger_congr ?_ hrel) hrel
    show u.view.lent = s.view.lent
    rw [view_widebandSend hu, View.lent_flush, view_tick]
  | noFlush hpc _ =>
    refine hview _ (view_tick s inp .sync) ?_ (hother (by simp [hpc]))
    obtain ⟨_, _, _, _, heq⟩ := s.tick_eq inp
    rw [heq]
  | sync hpc _ => exact hview _ (by simp [view]) rfl (hother (by simp [hpc]))
  | reap hpc hnil =>
    exact hview _ (by simp [view, Kernel.withOlder, hnil]) rfl (hother (by simp [hpc]))
  | submit hpc _ | wait hpc _ =>
    exact h.congr (hother (by simp [hpc])) (ledger_submitAll s)
      (congrArg Server.releasedBuffers (srv_submitAll s))
  | noSync hpc _ | noReap hpc _ | noSubmit hpc _ | wake hpc _ | drained hpc _ | idle hpc _ =>
    exact hview _ rfl rfl (hother (by simp [hpc]))
  | submitError _ => exact absurd ⟨_, rfl⟩ hgo
  | @entry cqe rest hpc hcq =>
    obtain ⟨u, hu⟩ := ok_of_not_stopped hgo
    have hmem : cqe ∈ s.view.kern.cq :=
      List.mem_append_left _ (by rw [hcq]; exact List.mem_cons_self)
    obtain ⟨hledger, hlt⟩ := ledger_processEntry hpc hcq (hfits cqe hmem) hu
    rw [hu]
    exact ⟨hledger.trans h.ledger_eq, hlt (h.released_lt (hother (by simp [hpc])))⟩
  | handBack hpc _ =>
    obtain ⟨u, hu⟩ := ok_of_not_stopped hgo
    -- The call up to its retry loop hands nothing back yet.
    have hledger : u.ledger = ({ s with pc := .top } : Reactor).ledger :=
      ledger_releaseBuffers hu
    rw [hu]
    exact h.congr (hother (by simp [hpc])) hledger (released_releaseBuffers hu).1
  | retry _ =>
    obtain ⟨u, hu⟩ := ok_of_not_stopped hgo
    obtain ⟨hledger, hround⟩ := ledger_releaseRound hu
    rw [hu]
    refine ⟨hledger.trans h.ledger_eq, fun hout => ?_⟩
    -- A round fails and changes nothing, or all released ids are in the queue.
    rcases hround with rfl | hnil
    · exact h.released_lt hout
    · show u.srv.releasedBuffers.length < RELEASE_PART
      rw [hnil]
      decide

theorem Conserved.kernelStep (h : s.Conserved) (hwf : s.view.Wf) {k : KernelAct}
    (ht : s.kernelStep k = some t) : t.Conserved := by
  have hsame := kernelStep_sameLocal ht
  obtain ⟨v, n, heff, hview⟩ := kernelStep_refines ht
  -- The ids in the group are ids of the slab, so they fit into the flags of a completion.
  have hid : ∀ id ∈ s.kern.provided, id < 2 ^ 16 := by
    intro id hmem
    have hall : id ∈ s.ledger :=
      Multiset.mem_add.mpr (.inl (Multiset.mem_add.mpr (.inl (Multiset.mem_add.mpr (.inl hmem)))))
    rw [h.ledger_eq, Multiset.mem_range] at hall
    exact lt_trans hall (by decide)
  have hledger : t.ledger = s.ledger := by
    refine ledger_congr ?_ hsame.released
    rw [hview, View.lent_submit]
    exact lent_kernel hwf hid heff
  refine ⟨hledger.trans h.ledger_eq, fun hout => ?_⟩
  rw [hsame.released]
  refine h.released_lt fun ⟨idle, hidle⟩ => hout ⟨idle, ?_⟩
  rw [hsame.pc]
  exact hidle

/-- The ids at the first iteration of the loop. -/
theorem conserved_of_started (h : Started s) : s.Conserved := by
  obtain ⟨cfg, n, m, hsrv, hview⟩ := started_view h
  have hnone : s.srv.releasedBuffers = [] := congrArg Server.releasedBuffers hsrv
  have hids : registerEntries.filterMap Entry.bufferId = List.range BUFFERS_COUNT := by
    rw [registerEntries, List.filterMap_map]
    exact List.filterMap_some
  have harm : ∀ e ∈ List.replicate DEFAULT_ACCEPT_MULTIPLICATOR Entry.acceptMulti,
      e.bufferId = none := fun e he => by
    rw [List.eq_of_mem_replicate he]
    rfl
  have hfresh : (fresh cfg).view.lent = 0 := rfl
  -- The start queues every id once, and arming the accepts queues none.
  have hregistered : ((fresh cfg).view.push registerEntries).lent
      = Multiset.range BUFFERS_COUNT := by
    have hpush : ((fresh cfg).view.push registerEntries).lent
        = (fresh cfg).view.lent + ↑(registerEntries.filterMap Entry.bufferId) :=
      View.lent_append rfl rfl rfl rfl
    rw [hpush, hfresh, hids, zero_add]
    rfl
  have harmed : ((((fresh cfg).view.push registerEntries).submit n).push
      (List.replicate DEFAULT_ACCEPT_MULTIPLICATOR .acceptMulti)).lent
        = (((fresh cfg).view.push registerEntries).submit n).lent :=
    View.lent_append_others rfl rfl rfl rfl harm
  have hlent : s.view.lent = Multiset.range BUFFERS_COUNT := by
    rw [hview, View.lent_fds, View.lent_submit, harmed, View.lent_submit, hregistered]
  refine ⟨?_, fun _ => ?_⟩
  · rw [ledger, hlent, hnone]
    exact add_zero _
  · rw [hnone]
    decide

/-- The buffers in every state of a run that has not stopped. -/
theorem conserved_of_reachable (h : s.Reachable) : ¬ s.Stopped → s.Conserved := by
  obtain ⟨s₀, as, hstart, hrun⟩ := h
  induction hrun with
  | nil => exact fun _ => conserved_of_started hstart
  | @snoc t u as a hrun hg ha ih =>
    intro hgo
    have hreach : t.Reachable := ⟨s₀, as, hstart, hrun⟩
    cases a with
    | server inp =>
      -- The loop does not go on after a stop.
      have hgo' : ¬ t.Stopped := by
        rintro ⟨why, hpc⟩
        have hnone : t.serverStep inp = none := by simp [Reactor.serverStep, hpc]
        exact Option.some_ne_none _ (ha.symm.trans hnone)
      have hfits := ((wf_invariant _).and fits_invariant).reachable hreach
      exact (ih hgo').serverStep hfits.2 ha hgo
    | kernel k =>
      have hgo' : ¬ t.Stopped := by
        rintro ⟨why, hpc⟩
        exact hgo ⟨why, (kernelStep_sameLocal ha).pc.trans hpc⟩
      exact (ih hgo').kernelStep (reachable_wf hreach) ha

/-- The `BUFFERS_COUNT` ids are split between the kernel, the data completions that are not
processed and `released_buffers`. So no id is lost, and none is offered to the kernel twice, or
while it is in a completion or released. -/
theorem buffers_conserved (h : s.Reachable) (hgo : ¬ s.Stopped) :
    s.view.held + s.view.carried + ↑s.srv.releasedBuffers = Multiset.range BUFFERS_COUNT ∧
    s.view.held.Nodup ∧
    (∀ id ∈ s.view.held, id ∉ s.view.carried ∧ id ∉ s.srv.releasedBuffers) ∧
    s.srv.releasedBuffers.Nodup ∧
    (∀ id ∈ s.srv.releasedBuffers, id < BUFFERS_COUNT) ∧
    (¬ s.InRelease → s.srv.releasedBuffers.length < RELEASE_PART) := by
  obtain ⟨hsplit, hlt⟩ := conserved_of_reachable h hgo
  have hnodup : s.ledger.Nodup := by
    rw [hsplit]
    exact Multiset.nodup_range _
  obtain ⟨hlent, hreleased, hapart⟩ := Multiset.nodup_add.mp hnodup
  obtain ⟨hheld, _, hflight⟩ := Multiset.nodup_add.mp hlent
  refine ⟨hsplit, hheld, fun id hid => ⟨?_, ?_⟩, Multiset.coe_nodup.mp hreleased, ?_, hlt⟩
  · exact Multiset.disjoint_left.mp hflight hid
  · exact fun hmem => Multiset.disjoint_left.mp hapart (Multiset.mem_add.mpr (.inl hid))
      (Multiset.mem_coe.mpr hmem)
  · intro id hid
    have hall : id ∈ s.ledger := Multiset.mem_add.mpr (.inr (Multiset.mem_coe.mpr hid))
    rw [hsplit, Multiset.mem_range] at hall
    exact hall

/-- The server has answered a request. Its buffer is released. -/
theorem buffers_conserved_answered : ∃ s : Reactor, s.srv.releasedBuffers = [0] ∧
    s.view.held + s.view.carried + {0} = Multiset.range BUFFERS_COUNT := by
  obtain ⟨s, hs, hp⟩ := exists_reachable
    (connect ++ .kernel (.recvData 0 0 plaintextRequest true) :: rounds 8)
    (fun s => s.pc = .process && s.srv.releasedBuffers = [0]) (by decide +kernel)
  simp only [Bool.and_eq_true, decide_eq_true_eq] at hp
  have hgo : ¬ s.Stopped := by
    rintro ⟨why, hpc⟩
    rw [hp.1] at hpc
    cases hpc
  have hsplit := (buffers_conserved hs hgo).1
  rw [hp.2] at hsplit
  exact ⟨s, hp.2, hsplit⟩

end Reactor

end Tachyon
