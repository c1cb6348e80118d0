import Tachyon.Lib.Answering
import Tachyon.Proofs.Buffers
import Tachyon.Proofs.Losses
import Tachyon.Proofs.Segmentation
import Tachyon.Proofs.Send

/-!
# `Tachyon.Proofs.Deliveries`: from the bytes received to the responses

Without UBDMA the server is an `Answering` machine. Its inbox is spread over the receive buffers:
the data completions that are not processed say where the bytes of each delivery are
(`View.inbox`). Between the delivery and the parse lie a batch, hand-overs and other deliveries.
None of them touches the bytes, because a buffer with a pending completion is not in the group of
the kernel (`carried_ne_provided`).

`Implements` relates a reactor to the machine, and `Implements.step` matches every step. So every
delivered chunk is parsed once, unmodified, in order and for the right client, and a client's
responses are those to its own chunks (`replies_to_deliveries`).
-/

set_option autoImplicit false

namespace Tachyon

/-! ### The inbox -/

/-- What a data completion delivers: the client, and the bytes in the buffer. -/
def chunkOf (buffers : Mem) (cqe : Cqe) : Nat × List UInt8 :=
  (clientOf cqe.userData,
    buffers.read (cqe.flags >>> 16 % 2 ^ 16 * BUFFER_SIZE) cqe.result.toNat)

def Cqe.chunk (dma : Bool) (buffers : Mem) (cqe : Cqe) : Option (Nat × List UInt8) :=
  if cqe.Delivers dma then some (chunkOf buffers cqe) else none

/-- The deliveries that are not processed, oldest first. -/
def View.inbox (v : View) (buffers : Mem) : List (Nat × List UInt8) :=
  v.kern.cq.filterMap (Cqe.chunk v.dma buffers)

/-- The bytes that the kernel delivers in a step. -/
def Reactor.delivered (s : Reactor) : Act → List (Nat × List UInt8)
  | .kernel (.recvData i _ data _) =>
    (s.kern.recvs[i]?).toList.map fun op => (clientOf op.userData, data)
  | _ => []

/-- The responses to a chunk of received bytes. -/
def responsesTo (date : Date) (bytes : List UInt8) : List UInt8 :=
  replies date (Slice.ofList bytes) (Http.parseHttpMethodsPaths 50 (Slice.ofList bytes))

theorem replies_eq_responsesTo (date : Date) (buf : Slice) :
    replies date buf (Http.parseHttpMethodsPaths 50 buf) = responsesTo date buf.bytes := by
  refine replies_congr (Mem.length_read _ _ _).symm (fun i hi => ?_) date
  show buf.ptr i = (buf.ptr.read 0 buf.len).getD i 0
  rw [Mem.getD_read _ _ hi, Nat.zero_add]

namespace View

variable {v w : View} {buffers : Mem}

theorem inbox_congr (hdma : w.dma = v.dma) (hcq : w.kern.cq = v.kern.cq) (buffers : Mem) :
    w.inbox buffers = v.inbox buffers := by
  rw [inbox, inbox, hdma, hcq]

/-- A completion without data is posted. -/
theorem inbox_post {cqe : Cqe} (hdma : w.dma = v.dma) (hcq : w.kern.cq = v.kern.cq ++ [cqe])
    (hnd : ¬ cqe.Delivers v.dma) (buffers : Mem) : w.inbox buffers = v.inbox buffers := by
  have hnone : [cqe].filterMap (Cqe.chunk v.dma buffers) = [] := by
    rw [List.filterMap_cons, Cqe.chunk, if_neg hnd]
    rfl
  rw [inbox, inbox, hdma, hcq, List.filterMap_append, hnone, List.append_nil]

/-- The kernel takes entries, and none of them delivers. -/
theorem inbox_submit (v : View) (n : Nat) (buffers : Mem) :
    (v.submit n).inbox buffers = v.inbox buffers := by
  refine submit_induction (I := fun w => w.inbox buffers = v.inbox buffers) ?_ n rfl
  intro w e q hw _
  show ({ w with queue := q, kern := w.kern.submit e } : View).inbox buffers = _
  rw [← hw]
  rcases submit_posts w.kern e w.dma with hcq | ⟨cqe, hcq, hnd⟩
  · refine inbox_congr ?_ hcq buffers
    rfl
  · refine inbox_post ?_ hcq hnd buffers
    rfl

/-- The oldest completion is dealt with. -/
theorem inbox_consume {cqe : Cqe} {rest : List Cqe} (hdma : w.dma = v.dma)
    (hv : v.kern.cq = cqe :: rest) (hw : w.kern.cq = rest) (buffers : Mem) :
    v.inbox buffers = (cqe.chunk v.dma buffers).toList ++ w.inbox buffers := by
  rw [inbox, inbox, hdma, hv, hw, List.filterMap_cons]
  cases cqe.chunk v.dma buffers <;> rfl

end View

/-! ### The responses in the log -/

theorem repliedTo_append (c : Nat) (log es : List Event) :
    repliedTo c (log ++ es) = repliedTo c log ++ repliedTo c es := by
  rw [repliedTo, repliedTo, repliedTo, outputOf_append, List.flatMap_append]

/-- Nothing joins the output of a client. -/
def Event.Unanswered : Event → Prop
  | .replied _ _ => False
  | _ => True

theorem repliedTo_append_of (c : Nat) (log : List Event) {es : List Event}
    (h : ∀ e ∈ es, e.Unanswered) : repliedTo c (log ++ es) = repliedTo c log := by
  have hnone : repliedTo c es = [] := by
    refine List.flatMap_eq_nil_iff.mpr fun e hmem => ?_
    have he := h e (List.mem_filter.mp hmem).1
    cases e with
    | replied c' bytes => exact absurd he id
    | accepted | closed | received | flushed | transmitted | sendFailed => rfl
  rw [repliedTo_append, hnone, List.append_nil]

theorem repliedTo_received (c c' : Nat) (log : List Event) (buffer : Slice)
    (bytes : List UInt8) :
    repliedTo c (log ++ [.received c' buffer, .replied c' bytes])
      = repliedTo c log ++ if c' = c then bytes else [] := by
  have htail : repliedTo c [.received c' buffer, .replied c' bytes]
      = if c' = c then bytes else [] := by
    by_cases hc : c' = c
    · simp [repliedTo, outputOf, Event.client, Event.repliedBytes, hc]
    · simp [repliedTo, outputOf, Event.client, hc]
  rw [repliedTo_append, htail]

namespace Reactor

variable {s t : Reactor} {inp : Input}

/-! ### The buffers -/

/-- The deliveries that are not processed. -/
def inbox (s : Reactor) : List (Nat × List UInt8) := s.view.inbox s.srv.buffers

theorem inbox_of_submit {n : Nat} (hview : t.view = s.view.submit n)
    (hbuf : t.srv.buffers = s.srv.buffers) : t.inbox = s.inbox := by
  rw [inbox, hview, hbuf]
  exact View.inbox_submit _ _ _

/-- The oldest completion is fetched from the batch. -/
theorem inbox_of_cons {cqe : Cqe} {rest : List Cqe} (hcq : s.cq = cqe :: rest) : s.inbox
    = (cqe.chunk s.srv.ubKernelDma s.srv.buffers).toList
      ++ ({ s with cq := rest } : Reactor).inbox := by
  have hfront : s.view.kern.cq = cqe :: (rest ++ s.kern.cq) := by
    show s.cq ++ s.kern.cq = _
    rw [hcq]
    rfl
  refine View.inbox_consume (v := s.view) ?_ hfront ?_ _ <;> rfl

/-- A buffer with a pending completion is not in the group. -/
theorem carried_ne_provided (h : s.Reachable) (hgo : ¬ s.Stopped) {id : Nat}
    (hid : id ∈ s.kern.provided) {cqe : Cqe} (hmem : cqe ∈ s.view.kern.cq)
    (hd : cqe.Delivers s.srv.ubKernelDma) : cqe.flags >>> 16 % 2 ^ 16 ≠ id := by
  intro heq
  have hnodup : s.ledger.Nodup := by
    rw [(conserved_of_reachable h hgo).ledger_eq]
    exact Multiset.nodup_range _
  have hapart := (Multiset.nodup_add.mp (Multiset.nodup_add.mp hnodup).1).2.2
  have hheld : id ∈ s.view.held := Multiset.mem_add.mpr (.inl (Multiset.mem_coe.mpr hid))
  refine Multiset.disjoint_left.mp hapart hheld (Multiset.mem_coe.mpr ?_)
  have hbuf : cqe.bufferId s.srv.ubKernelDma = some id := by
    rw [Cqe.bufferId, if_pos hd, heq]
  exact List.mem_filterMap.mpr ⟨cqe, hmem, hbuf⟩

theorem lt_of_provided (h : s.Reachable) (hgo : ¬ s.Stopped) {id : Nat}
    (hid : id ∈ s.kern.provided) : id < 2 ^ 16 := by
  have hall : id ∈ s.ledger :=
    Multiset.mem_add.mpr (.inl (Multiset.mem_add.mpr (.inl (Multiset.mem_add.mpr (.inl hid)))))
  rw [(conserved_of_reachable h hgo).ledger_eq, Multiset.mem_range] at hall
  exact lt_trans hall (by decide)

/-- Buffers with different ids have no byte in common. -/
theorem outside_of_ne {id other : Nat} (hne : id ≠ other) {i : Nat} (hi : i < BUFFER_SIZE) :
    id * BUFFER_SIZE + i < other * BUFFER_SIZE ∨
      other * BUFFER_SIZE + BUFFER_SIZE ≤ id * BUFFER_SIZE + i := by
  rcases Nat.lt_or_gt_of_ne hne with hlt | hgt
  · have hmul := Nat.mul_le_mul_right BUFFER_SIZE (Nat.succ_le_of_lt hlt)
    rw [Nat.succ_mul] at hmul
    omega
  · have hmul := Nat.mul_le_mul_right BUFFER_SIZE (Nat.succ_le_of_lt hgt)
    rw [Nat.succ_mul] at hmul
    omega

/-- The pending deliveries are not touched by a change in a buffer that no completion carries. -/
theorem inbox_frame {v : View} {buffers buffers' : Mem} {id : Nat}
    (hfits : ∀ cqe ∈ v.kern.cq, cqe.Delivers v.dma → cqe.result ≤ BUFFER_SIZE)
    (hne : ∀ cqe ∈ v.kern.cq, cqe.Delivers v.dma → cqe.flags >>> 16 % 2 ^ 16 ≠ id)
    (hout : ∀ a, a < id * BUFFER_SIZE ∨ id * BUFFER_SIZE + BUFFER_SIZE ≤ a →
      buffers' a = buffers a) : v.inbox buffers' = v.inbox buffers := by
  refine List.filterMap_congr fun cqe hmem => ?_
  by_cases hd : cqe.Delivers v.dma
  · have hlen : cqe.result.toNat ≤ BUFFER_SIZE := by
      have := hfits cqe hmem hd
      omega
    rw [Cqe.chunk, Cqe.chunk, if_pos hd, if_pos hd, chunkOf, chunkOf]
    have hread : buffers'.read (cqe.flags >>> 16 % 2 ^ 16 * BUFFER_SIZE) cqe.result.toNat
        = buffers.read (cqe.flags >>> 16 % 2 ^ 16 * BUFFER_SIZE) cqe.result.toNat :=
      Mem.read_congr fun i hi => hout _ (outside_of_ne (hne cqe hmem hd) (hi.trans_le hlen))
    rw [hread]
  · rw [Cqe.chunk, Cqe.chunk, if_neg hd, if_neg hd]

theorem fits_of_reachable (h : s.Reachable) :
    ∀ cqe ∈ s.view.kern.cq, cqe.Delivers s.view.dma → cqe.result ≤ BUFFER_SIZE :=
  (((wf_invariant _).and fits_invariant).reachable h).2

/-- The kernel writes into a buffer of the group. -/
theorem inbox_write (h : s.Reachable) (hgo : ¬ s.Stopped) {id : Nat}
    (hid : id ∈ s.kern.provided) {data : List UInt8} (hle : data.length ≤ BUFFER_SIZE) :
    s.view.inbox (s.srv.buffers.write (id * BUFFER_SIZE) data) = s.inbox :=
  inbox_frame (fits_of_reachable h) (fun _ hmem hd => carried_ne_provided h hgo hid hmem hd)
    fun _ ha => Mem.write_of_outside _ _ (by omega)

/-! ### One step of the server -/

theorem buffers_releaseBuffers {idle : Bool} (h : s.releaseBuffers inp idle = .ok t) :
    t.srv.buffers = s.srv.buffers :=
  congrArg Server.buffers (srv_releaseBuffers h)

/-- The server writes into a buffer in UBDMA mode only, and then into the one of a delivery. -/
theorem buffers_processEntry {cqe : Cqe}
    (hkeep : cqe.Delivers s.srv.ubKernelDma → s.srv.ubKernelDma = false)
    (h : s.processEntry inp cqe = .ok t) : t.srv.buffers = s.srv.buffers := by
  generalize hr : s.processEntry inp cqe = r at h
  have hd := dispatches s inp cqe
  rw [hr] at hd
  cases hd with
  | skip _ _ =>
    cases h
    rfl
  | accept _ => rcases processEntryAccept_cases h with ⟨_, rfl⟩ | ⟨_, lakes, _, rfl⟩ <;> rfl
  | release _ => exact buffers_releaseBuffers h
  | close _ =>
    cases h
    simp only [closeConnection, Bool.not_true, Bool.false_eq_true, if_false]
    split <;> rfl
  | poll _ => rcases ubdma_cases h with rfl | ⟨_, _, _, _, _, _, _, _, rfl⟩ <;> rfl
  | reply hd =>
    -- Without UBDMA a reply leaves the slab.
    have hplain := hkeep hd
    rcases requestReply_cases h with ⟨_, rfl⟩ | ⟨_, lake, cache, hot, _, hnext⟩
    · rfl
    have hanswered : ∀ lake', (s.answered (cqe.flags >>> 16 % 2 ^ 16)
        (UserData.unpackUserData cqe.userData) cqe.result.toNat cache hot lake').srv.buffers
          = s.srv.buffers := by
      intro lake'
      simp only [answered, hplain, Bool.false_eq_true, if_false]
    split at hnext
    · rw [buffers_releaseBuffers hnext, hanswered]
    · rw [hnext, hanswered]

theorem buffers_orStop {r : Except Stop Reactor} {buffers : Mem} (hs : s.srv.buffers = buffers)
    (h : ∀ u, r = .ok u → u.srv.buffers = buffers) : (s.orStop r).srv.buffers = buffers := by
  cases r with
  | ok u => exact h u rfl
  | error why => exact hs

theorem buffers_serverStep (hkeep : ∀ cqe, s.AtHand cqe → cqe.Delivers s.srv.ubKernelDma →
      s.srv.ubKernelDma = false)
    (h : s.serverStep inp = some t) : t.srv.buffers = s.srv.buffers := by
  have htick : (s.tick inp).srv.buffers = s.srv.buffers := by
    obtain ⟨_, _, _, _, heq⟩ := s.tick_eq inp
    rw [heq]
  cases turns_of_serverStep h with
  | flush hpc _ =>
    refine buffers_orStop htick fun u hu => ?_
    obtain ⟨sq, now, _, rfl⟩ := widebandSend_cases hu
    exact htick
  | noFlush _ _ => exact htick
  | submit _ _ | wait _ _ => exact congrArg Server.buffers (srv_submitAll s)
  | sync | noSync | reap | noReap | noSubmit | submitError | wake | drained | idle => rfl
  | @entry cqe rest hpc hcq =>
    refine buffers_orStop rfl fun u hu => ?_
    exact buffers_processEntry (s := { s with cq := rest })
      (hkeep cqe ⟨hpc, by rw [hcq]; rfl⟩) hu
  | handBack _ _ =>
    refine buffers_orStop rfl fun u hu => ?_
    exact buffers_releaseBuffers (s := { s with pc := .top }) hu
  | retry _ =>
    refine buffers_orStop rfl fun u hu => ?_
    rcases releaseRound_cases hu with ⟨_, rfl⟩ | ⟨sq, _, rfl⟩
    · rfl
    · show ({ s with sq := sq.sync } : Reactor).submitAll.srv.buffers = s.srv.buffers
      rw [srv_submitAll]

/-- A hand-over that begins has no part in the log and the inbox. -/
theorem releaseBuffers_keeps {idle : Bool} (h : s.releaseBuffers inp idle = .ok t) :
    t.log = s.log ∧ t.inbox = s.inbox := by
  obtain ⟨n, hn⟩ := view_releaseBuffers h
  exact ⟨congrArg View.log hn, inbox_of_submit hn (buffers_releaseBuffers h)⟩

/-- `request_reply` answers the slice that it was called for. The shift that may follow leaves the
other deliveries. -/
theorem requestReply_answers {flags : Nat} {user : UserData} {result : Int}
    (hkeep : s.view.inbox (if s.srv.ubKernelDma then
        shiftBuffer s.srv.buffers (flags >>> 16 % 2 ^ 16) result.toNat else s.srv.buffers)
      = s.inbox)
    (hle : result ≤ BUFFER_SIZE) (h : s.requestReply inp flags user result = .ok t) :
    t.inbox = s.inbox ∧
      t.log = s.log ++ [
        .received user.clientId.toNat (bufferSlice s.srv (flags >>> 16 % 2 ^ 16) result.toNat),
        .replied user.clientId.toNat (responsesTo s.srv.date
          (s.srv.buffers.read (flags >>> 16 % 2 ^ 16 * BUFFER_SIZE) result.toNat))] := by
  rcases requestReply_cases h with ⟨hlong, _⟩ | ⟨_, lake, cache, hot, _, hnext⟩
  · exact absurd hlong (not_lt.mpr hle)
  have hbytes : (bufferSlice s.srv (flags >>> 16 % 2 ^ 16) result.toNat).bytes
      = s.srv.buffers.read (flags >>> 16 % 2 ^ 16 * BUFFER_SIZE) result.toNat :=
    Mem.read_shift _ _ _
  have hinbox : ∀ lake', (s.answered (flags >>> 16 % 2 ^ 16) user result.toNat cache hot
      lake').inbox = s.inbox := fun _ => hkeep
  rw [← hbytes, ← replies_eq_responsesTo,
    ← hinbox (lake.write (s.block (bufferSlice s.srv (flags >>> 16 % 2 ^ 16) result.toNat)))]
  split at hnext
  · have hkeeps := releaseBuffers_keeps hnext
    exact ⟨hkeeps.2, hkeeps.1⟩
  · rw [hnext]
    exact ⟨rfl, rfl⟩

/-- The oldest completion is a delivery and the loop goes on: its chunk is answered. -/
theorem answers_entry {cqe : Cqe} {rest : List Cqe}
    (hkeep : ({ s with cq := rest } : Reactor).view.inbox (if s.srv.ubKernelDma then
        shiftBuffer s.srv.buffers (cqe.flags >>> 16 % 2 ^ 16) cqe.result.toNat
        else s.srv.buffers) = ({ s with cq := rest } : Reactor).inbox)
    (hcq : s.cq = cqe :: rest) (hd : cqe.Delivers s.srv.ubKernelDma)
    (hle : cqe.result ≤ BUFFER_SIZE)
    (h : ({ s with cq := rest } : Reactor).processEntry inp cqe = .ok t) :
    s.inbox = chunkOf s.srv.buffers cqe :: t.inbox ∧
      ∀ c, repliedTo c t.log = repliedTo c s.log ++
        if clientOf cqe.userData = c
          then responsesTo s.srv.date (chunkOf s.srv.buffers cqe).2 else [] := by
  rw [processEntry_delivers (s := { s with cq := rest }) hd inp] at h
  obtain ⟨hinbox, hlog⟩ := requestReply_answers (s := { s with cq := rest }) hkeep hle h
  refine ⟨?_, fun c => ?_⟩
  · rw [inbox_of_cons hcq, hinbox, Cqe.chunk, if_pos hd]
    rfl
  · rw [hlog, repliedTo_received]
    rfl

/-- Any other step of the server leaves the inbox. -/
theorem inbox_of_effect {v : View} {n : Nat} (hbuf : t.srv.buffers = s.srv.buffers)
    (he : Effect s (.server inp) v) (hview : t.view = v.submit n)
    (hno : ∀ cqe, s.AtHand cqe → ¬ cqe.Delivers s.srv.ubKernelDma) : t.inbox = s.inbox := by
  have hinbox : t.inbox = v.inbox s.srv.buffers := by
    rw [inbox, hview, hbuf, View.inbox_submit]
  rw [hinbox]
  -- A completion that is taken from the queue had no chunk.
  have hconsume : ∀ cqe, s.AtHand cqe → ∀ w : View, w.dma = s.view.dma →
      w.kern.cq = s.view.kern.cq.tail → w.inbox s.srv.buffers = s.inbox := by
    intro cqe hat w hdma hcq
    obtain ⟨rest, hrest⟩ := List.head?_eq_some_iff.mp hat.2
    have hfront : s.view.kern.cq = cqe :: (rest ++ s.kern.cq) := by
      show s.cq ++ s.kern.cq = _
      rw [hrest]
      rfl
    have htail : w.kern.cq = rest ++ s.kern.cq := by
      rw [hcq, hfront, List.tail_cons]
    have hnd : ¬ cqe.Delivers s.view.dma := hno cqe hat
    rw [inbox, View.inbox_consume hdma hfront htail, Cqe.chunk, if_neg hnd]
    rfl
  cases he with
  | quiet inp _ | provide inp ids _ | flush inp _ => rfl
  | skip inp cqe hat _ => exact hconsume cqe hat _ rfl rfl
  | accept inp cqe lakes poll recv hat _ _ _ _ _ => exact hconsume cqe hat _ rfl rfl
  | close inp cqe hat _ _ => exact hconsume cqe hat _ rfl rfl
  | closeStdin inp cqe hat _ _ => exact hconsume cqe hat _ rfl rfl
  | reply inp cqe buffer lake hat _ _ => exact hconsume cqe hat _ rfl rfl

/-- Without UBDMA it leaves the responses, too. -/
theorem repliedTo_of_effect {v : View} {n : Nat} (hplain : s.srv.ubKernelDma = false)
    (he : Effect s (.server inp) v) (hview : t.view = v.submit n)
    (hno : ∀ cqe, s.AtHand cqe → ¬ cqe.Delivers s.srv.ubKernelDma) (c : Nat) :
    repliedTo c t.log = repliedTo c s.log := by
  have hlog : t.log = v.log := congrArg View.log hview
  rw [hlog]
  cases he with
  | quiet inp _ | provide inp ids _ | skip inp cqe _ _ | closeStdin inp cqe _ _ _ => rfl
  | flush inp _ => exact repliedTo_append_of c s.log (by simp [Event.Unanswered])
  | accept inp cqe lakes poll recv _ _ _ _ _ _ =>
    exact repliedTo_append_of c s.log (by simp [Event.Unanswered])
  | close inp cqe _ _ _ => exact repliedTo_append_of c s.log (by simp [Event.Unanswered])
  | reply inp cqe buffer lake hat hans _ =>
    rcases hans with ⟨hd, _⟩ | ⟨hp, _⟩
    · exact absurd hd (hno cqe hat)
    · -- There are no polls without UBDMA.
      have hdma := hp.2.2.2
      rw [hplain] at hdma
      cases hdma

/-! ### Every step -/

theorem dma_effect {a : Act} {v : View} (h : Effect s a v) : v.dma = s.view.dma := by
  cases h <;> rfl

theorem dma_step {a : Act} (h : s.step a = some t) :
    t.srv.ubKernelDma = s.srv.ubKernelDma := by
  obtain ⟨v, n, heff, hview⟩ := step_effect h
  have hdma : t.view.dma = v.dma := by
    rw [hview]
    rfl
  exact hdma.trans (dma_effect heff)

/-- The kernel answers nobody. -/
theorem repliedTo_kernelStep {k : KernelAct} (h : s.kernelStep k = some t) (c : Nat) :
    repliedTo c t.log = repliedTo c s.log := by
  obtain ⟨v, n, heff, hview⟩ := step_effect (s := s) (a := .kernel k) h
  have hlog : t.log = v.log := congrArg View.log hview
  rw [hlog]
  cases heff with
  | sqThread => rfl
  | kernelAccept | kernelAcceptEnd | recvData | recvEnd | pollEvent | pollEnd | sendDone
  | sendFail => exact repliedTo_append_of c s.log (by simp [Event.Unanswered])

/-- The kernel writes the data into a buffer of the group and posts where they are. -/
theorem inbox_recvData {op : ArmedOp} {i id : Nat} {data : List UInt8} {more : Bool}
    (h : s.Reachable) (hgo : ¬ s.Stopped) (hop : s.kern.recvs[i]? = some op)
    (hid : id ∈ s.kern.provided) (hpos : 0 < data.length) (hle : data.length ≤ BUFFER_SIZE)
    (ht : t = { s with
      srv := { s.srv with buffers := s.srv.buffers.write (id * BUFFER_SIZE) data }
      kern := s.kern.recvData op i id data.length more }) :
    t.inbox = s.inbox ++ [(clientOf op.userData, data)] := by
  have hwf := (wf_invariant _).reachable h
  obtain ⟨c, hissued⟩ := hwf.ring.recvs_issued op (List.mem_of_getElem? hop)
  have huniq := hissued.uniqOf_eq hwf.tables.next_le (by decide)
  have hd : Cqe.Delivers s.srv.ubKernelDma
      ⟨op.userData, (data.length : Nat), cqeFlags id more⟩ := by
    refine ⟨hissued.offset_le hwf.tables.next_le (by decide), Int.natCast_pos.mpr hpos, ?_, ?_⟩
    · show uniqOf op.userData ≠ SEND_CODE
      rw [huniq]
      decide
    · rintro ⟨hpoll, _⟩
      have hpoll' : uniqOf op.userData = POLL_EVENT := hpoll
      rw [huniq] at hpoll'
      exact absurd hpoll' (by decide)
  -- The chunk is what was just written.
  have hchunk : Cqe.chunk s.srv.ubKernelDma (s.srv.buffers.write (id * BUFFER_SIZE) data)
      ⟨op.userData, (data.length : Nat), cqeFlags id more⟩
        = some (clientOf op.userData, data) := by
    rw [Cqe.chunk, if_pos hd, chunkOf, shiftRight_cqeFlags (lt_of_provided h hgo hid)]
    exact congrArg (fun bs => some (clientOf op.userData, bs)) (Mem.read_write_self _ _ _)
  subst ht
  show List.filterMap (Cqe.chunk s.srv.ubKernelDma _)
    (s.cq ++ (s.kern.cq ++ [⟨op.userData, (data.length : Nat), cqeFlags id more⟩])) = _
  rw [← List.append_assoc, List.filterMap_append, List.filterMap_cons, hchunk]
  exact congrArg (· ++ [(clientOf op.userData, data)]) (inbox_write h hgo hid hle)

/-- An action of the kernel that delivers nothing writes into no buffer. -/
theorem buffers_kernelStep {k : KernelAct} (hk : s.delivered (.kernel k) = [])
    (h : s.kernelStep k = some t) : t.srv.buffers = s.srv.buffers := by
  cases k with
  | recvData i id data more =>
    simp only [kernelStep] at h
    split at h
    · rename_i op hop
      simp [delivered, hop] at hk
    · cases h
  | accept | acceptEnd =>
    simp only [kernelStep, Option.ite_none_right_eq_some] at h
    obtain ⟨_, h⟩ := h
    cases h
    rfl
  | recvEnd | pollEvent | pollEnd | sendDone | sendFail =>
    simp only [kernelStep] at h
    split at h
    · simp only [Option.ite_none_right_eq_some] at h
      obtain ⟨_, h⟩ := h
      cases h
      rfl
    · cases h
  | sqThread =>
    simp only [kernelStep, Option.ite_none_right_eq_some] at h
    obtain ⟨_, h⟩ := h
    split at h
    · cases h
      rfl
    · cases h

/-- It posts no data completion either. -/
theorem inbox_kernel {k : KernelAct} {v : View} (hwf : s.view.Wf)
    (hk : s.delivered (.kernel k) = []) (he : Effect s (.kernel k) v) (buffers : Mem) :
    v.inbox buffers = s.view.inbox buffers := by
  obtain ⟨hdma, _, hposts⟩ := kernel_posts hwf he
  rcases hposts with ⟨_, id, _, _, hid, _, herase, _⟩ | ⟨_, hcq | ⟨cqe, hcq, hnd⟩⟩
  · -- A data completion takes a buffer out of the group.
    have hsame : v.kern.provided = s.view.kern.provided := by
      cases he with
      | recvData op i id data more hop => simp [delivered, hop] at hk
      | kernelAccept | kernelAcceptEnd | recvEnd | pollEvent | pollEnd | sendDone | sendFail
      | sqThread => rfl
    have hlen := List.length_erase_of_mem hid
    have hpos := List.length_pos_of_mem hid
    rw [← herase, hsame] at hlen
    omega
  · exact View.inbox_congr hdma hcq buffers
  · exact View.inbox_post hdma hcq hnd buffers

/-- What the kernel delivers joins the inbox, and it changes nothing else there. -/
theorem inbox_kernelStep {k : KernelAct} (h : s.Reachable) (hgo : ¬ s.Stopped)
    (ht : s.kernelStep k = some t) : t.inbox = s.inbox ++ s.delivered (.kernel k) := by
  by_cases hk : s.delivered (.kernel k) = []
  · have hwf := (wf_invariant _).reachable h
    obtain ⟨v, n, heff, hview⟩ := step_effect (s := s) (a := .kernel k) ht
    rw [hk, List.append_nil, inbox, hview, buffers_kernelStep hk ht, View.inbox_submit]
    exact inbox_kernel hwf hk heff _
  · cases k with
    | recvData i id data more =>
      simp only [kernelStep] at ht
      split at ht
      · rename_i op hop
        simp only [Option.ite_none_right_eq_some] at ht
        obtain ⟨⟨hid, hpos, hle⟩, ht⟩ := ht
        rw [inbox_recvData h hgo hop hid hpos hle (Option.some.inj ht).symm, delivered, hop]
        rfl
      · cases ht
    | accept | acceptEnd | recvEnd | pollEvent | pollEnd | sendDone | sendFail | sqThread =>
      exact absurd rfl hk

end Reactor

/-! ### The server is an answering machine -/

namespace Reactor

variable {s t : Reactor}

/-- What the machine knows of a reactor. A reactor that has stopped may have lost a delivery, so
its inbox is not related any more. -/
structure Implements (s : Reactor) (m : Answering Nat (List UInt8) UInt8) : Prop where
  reachable : s.Reachable
  plain : s.srv.ubKernelDma = false
  output_eq : ∀ c, m.output c = repliedTo c s.log
  inbox_eq : ¬ s.Stopped → m.inbox = s.inbox

theorem Reachable.snoc {a : Act} (h : s.Reachable) (ha : s.step a = some t) : t.Reachable := by
  obtain ⟨s₀, as, hstart, hrun⟩ := h
  exact ⟨s₀, as ++ [a], hstart, hrun.snoc trivial ha⟩

theorem not_stopped_of_serverStep {inp : Input} (h : s.serverStep inp = some t) :
    ¬ s.Stopped := by
  rintro ⟨why, hpc⟩
  rw [serverStep, hpc] at h
  cases h

variable {m : Answering Nat (List UInt8) UInt8} {P : Date → Prop}

theorem pc_kernelStep {k : KernelAct} (h : s.kernelStep k = some t) : t.pc = s.pc := by
  rcases kernelStep_cases h with ⟨kern, log, buffers, rfl⟩ | ⟨e, sq, _, rfl⟩ <;> rfl

/-- A step delivers one chunk at most. -/
theorem delivered_cases (s : Reactor) (a : Act) :
    s.delivered a = [] ∨ ∃ c x, s.delivered a = [(c, x)] := by
  unfold delivered
  split
  · rename_i i id data more
    cases s.kern.recvs[i]? with
    | none => exact .inl rfl
    | some op => exact .inr ⟨clientOf op.userData, data, rfl⟩
  · exact .inl rfl

/-- A delivery of the kernel is one of the machine. Nothing else that the kernel does is a step of
it. -/
theorem Implements.kernelStep {k : KernelAct} (h : s.Implements m) (ht : s.kernelStep k = some t) :
    ∃ as n, Run (Answering.step responsesTo) (Answering.Within P) m as n ∧ t.Implements n ∧
      Run.collect (Answering.step responsesTo) Answering.delivered m as
        = s.delivered (.kernel k) := by
  have hreach : t.Reachable := h.reachable.snoc (a := .kernel k) ht
  have hplain : t.srv.ubKernelDma = false := (dma_step (a := .kernel k) ht).trans h.plain
  have houtput : ∀ c, m.output c = repliedTo c t.log := fun c =>
    (h.output_eq c).trans (repliedTo_kernelStep ht c).symm
  have hinbox : ¬ t.Stopped → m.inbox ++ s.delivered (.kernel k) = t.inbox := fun hgo => by
    have hgo' : ¬ s.Stopped := by
      rw [Stopped, pc_kernelStep ht] at hgo
      exact hgo
    rw [inbox_kernelStep h.reachable hgo' ht, h.inbox_eq hgo']
  rcases delivered_cases s (.kernel k) with hnone | ⟨c, x, hone⟩
  · rw [hnone, List.append_nil] at hinbox
    exact ⟨[], m, .nil m, ⟨hreach, hplain, houtput, hinbox⟩, hnone.symm⟩
  · rw [hone] at hinbox ⊢
    have hdeliver : Answering.step responsesTo m (.deliver c x)
        = some { m with inbox := m.inbox ++ [(c, x)] } := rfl
    exact ⟨[.deliver c x], _, .single trivial hdeliver, ⟨hreach, hplain, houtput, hinbox⟩,
      Run.collect_single hdeliver⟩

/-- A reply of the server is the answer to the oldest delivery. No other step of the server is one
of the machine. -/
theorem Implements.serverStep {inp : Input} (h : s.Implements m)
    (hdate : s.pc = .process → P s.srv.date) (ht : s.serverStep inp = some t) :
    ∃ as n, Run (Answering.step responsesTo) (Answering.Within P) m as n ∧ t.Implements n ∧
      Run.collect (Answering.step responsesTo) Answering.delivered m as = [] := by
  have hreach : t.Reachable := h.reachable.snoc (a := .server inp) ht
  have hplain : t.srv.ubKernelDma = false := (dma_step (a := .server inp) ht).trans h.plain
  have hinbox := h.inbox_eq (not_stopped_of_serverStep ht)
  -- The machine stays when the inbox and the responses do.
  have hstay : (¬ t.Stopped → t.inbox = s.inbox) →
      (∀ c, repliedTo c t.log = repliedTo c s.log) →
      ∃ as n, Run (Answering.step responsesTo) (Answering.Within P) m as n ∧ t.Implements n ∧
        Run.collect (Answering.step responsesTo) Answering.delivered m as = [] :=
    fun hin hout => ⟨[], m, .nil m, ⟨hreach, hplain, fun c => (h.output_eq c).trans (hout c).symm,
      fun hgo => hinbox.trans (hin hgo).symm⟩, rfl⟩
  by_cases hat : ∃ cqe, s.AtHand cqe ∧ cqe.Delivers s.srv.ubKernelDma
  · obtain ⟨cqe, hat, hd⟩ := hat
    obtain ⟨rest, hcq⟩ := List.head?_eq_some_iff.mp hat.2
    rw [serverStep_entry hat.1 hcq] at ht
    have hle : cqe.result ≤ BUFFER_SIZE := by
      refine fits_of_reachable h.reachable cqe ?_ hd
      show cqe ∈ s.cq ++ s.kern.cq
      rw [hcq]
      exact List.mem_append_left _ List.mem_cons_self
    cases hr : ({ s with cq := rest } : Reactor).processEntry inp cqe with
    | error why =>
      rw [hr] at ht
      cases ht
      exact hstay (fun hgo => absurd ⟨why, rfl⟩ hgo) fun _ => rfl
    | ok u =>
      rw [hr] at ht
      have htu : u = t := Option.some.inj ht
      subst htu
      have hkeep : ({ s with cq := rest } : Reactor).view.inbox (if s.srv.ubKernelDma then
          shiftBuffer s.srv.buffers (cqe.flags >>> 16 % 2 ^ 16) cqe.result.toNat
          else s.srv.buffers) = ({ s with cq := rest } : Reactor).inbox := by
        rw [if_neg (by rw [h.plain]; exact Bool.false_ne_true)]
        rfl
      obtain ⟨hfront, hout⟩ := answers_entry hkeep hcq hd hle hr
      have hanswer := Answering.step_answer responsesTo (hinbox.trans hfront) s.srv.date
      refine ⟨[.answer s.srv.date], _, .single (hdate hat.1) hanswer,
        ⟨hreach, hplain, fun c => ?_, fun _ => rfl⟩, Run.collect_single hanswer⟩
      rw [hout c, ← h.output_eq c]
      exact Answering.update_append m.output _ c _
  · obtain ⟨v, n, heff, hview⟩ := step_effect (s := s) (a := .server inp) ht
    have hno : ∀ cqe, s.AtHand cqe → ¬ cqe.Delivers s.srv.ubKernelDma :=
      fun cqe hcqe hd => hat ⟨cqe, hcqe, hd⟩
    have hbuf := buffers_serverStep (fun _ _ _ => h.plain) ht
    exact hstay (fun _ => inbox_of_effect hbuf heff hview hno)
      (repliedTo_of_effect h.plain heff hview hno)

theorem Implements.step {a : Act} (h : s.Implements m)
    (hdate : s.pc = .process → P s.srv.date) (ht : s.step a = some t) :
    ∃ as n, Run (Answering.step responsesTo) (Answering.Within P) m as n ∧ t.Implements n ∧
      Run.collect (Answering.step responsesTo) Answering.delivered m as = s.delivered a := by
  cases a with
  | server inp => exact h.serverStep hdate ht
  | kernel k => exact h.kernelStep ht

/-- At the first iteration of the loop nothing was delivered. -/
theorem implements_of_started (h : Started s) (hplain : s.srv.ubKernelDma = false) :
    s.Implements Answering.empty where
  reachable := ⟨s, [], h, .nil s⟩
  plain := hplain
  output_eq c := by
    have hlog : s.log = [] := (initial_of_started h).log_eq
    rw [hlog]
    rfl
  inbox_eq _ := by
    refine (List.filterMap_eq_nil_iff.mpr fun cqe hmem => if_neg fun hd => ?_).symm
    have hzero := ((initial_of_started h).cq_setup cqe hmem).2
    exact absurd hd.2.1 (by omega)

/-- Without UBDMA the server refines the answering machine: to every run there is one of the machine
with the same deliveries, the same responses to every client, and the same deliveries waiting. -/
theorem refines_answering {s₀ : Reactor} {as : List Act} (hstart : Started s₀)
    (hplain : s₀.srv.ubKernelDma = false)
    (hrun : Run step (fun u _ => u.pc = .process → P u.srv.date) s₀ as s) :
    ∃ bs m, Run (Answering.step responsesTo) (Answering.Within P) Answering.empty bs m ∧
      Run.collect (Answering.step responsesTo) Answering.delivered Answering.empty bs
        = Run.collect step delivered s₀ as ∧
      (∀ c, m.output c = repliedTo c s.log) ∧ (¬ s.Stopped → m.inbox = s.inbox) := by
  obtain ⟨bs, m, hm, hs, hsame⟩ := Run.simulate
    (fun _ _ _ _ hs hdate ha => Implements.step hs hdate ha) hrun
    (implements_of_started hstart hplain)
  exact ⟨bs, m, hm, hsame, hs.output_eq, hs.inbox_eq⟩

/-- The chunks that were answered, with the dates of the answers. -/
theorem exists_answered_chunks {s₀ : Reactor} {as : List Act} (hstart : Started s₀)
    (hplain : s₀.srv.ubKernelDma = false)
    (hrun : Run step (fun u _ => u.pc = .process → P u.srv.date) s₀ as s) :
    ∃ done : List (Date × Nat × List UInt8), (∀ a ∈ done, P a.1) ∧
      done.map Prod.snd <+: Run.collect step delivered s₀ as ∧
      (¬ s.Stopped → done.map Prod.snd ++ s.inbox = Run.collect step delivered s₀ as) ∧
      ∀ c, repliedTo c s.log = Answering.answersTo responsesTo c done := by
  obtain ⟨bs, m, hm, hsame, houtput, hinbox⟩ := refines_answering hstart hplain hrun
  obtain ⟨done, hdates, hsent, hserved⟩ := Answering.served hm
  rw [hsame] at hsent
  refine ⟨done, hdates, ⟨m.inbox, hsent⟩, fun hgo => ?_, fun c => ?_⟩
  · rw [← hinbox hgo]
    exact hsent
  · rw [← houtput c]
    exact hserved c

/-- Every chunk that the kernel delivers is parsed once, as it was delivered and in that order, and
it is answered to the client of its connection. A client's responses are those to its own chunks. -/
theorem replies_to_deliveries {s₀ : Reactor} {as : List Act} (hstart : Started s₀)
    (hplain : s₀.srv.ubKernelDma = false) (hrun : Run step (fun _ _ => True) s₀ as s) :
    ∃ done : List (Date × Nat × List UInt8),
      done.map Prod.snd <+: Run.collect step delivered s₀ as ∧
      (¬ s.Stopped → done.map Prod.snd ++ s.inbox = Run.collect step delivered s₀ as) ∧
      ∀ c, repliedTo c s.log = Answering.answersTo responsesTo c done := by
  have hany : Run step (fun u _ => u.pc = .process → True) s₀ as s := by
    refine hrun.weaken ?_
    intros
    trivial
  obtain ⟨done, _, hdone⟩ := exists_answered_chunks (P := fun _ => True) hstart hplain hany
  exact ⟨done, hdone⟩

theorem dma_run {guard : Reactor → Act → Prop} {s₀ : Reactor} {as : List Act}
    (h : Run step guard s₀ as s) : s.srv.ubKernelDma = s₀.srv.ubKernelDma :=
  h.invariant (fun _ _ _ hs _ ha => (dma_step ha).trans hs) rfl

/-- The request of client 100 is answered. -/
theorem replies_to_deliveries_served : ∃ (s : Reactor) (done : List (Date × Nat × List UInt8)),
    ¬ s.Stopped ∧ (repliedTo 100 s.log).length = 204 ∧
      repliedTo 100 s.log = Answering.answersTo responsesTo 100 done := by
  obtain ⟨s, hs, hp⟩ := exists_reachable
    (connect ++ .kernel (.recvData 0 0 plaintextRequest true) :: rounds 8)
    (fun s => s.pc = .process && s.srv.ubKernelDma = false
      && (repliedTo 100 s.log).length = 204) (by decide +kernel)
  simp only [Bool.and_eq_true, decide_eq_true_eq] at hp
  obtain ⟨s₀, as, hstart, hrun⟩ := hs
  have hplain : s₀.srv.ubKernelDma = false := by
    rw [← dma_run hrun]
    exact hp.1.2
  obtain ⟨done, _, _, hreplied⟩ := replies_to_deliveries hstart hplain hrun
  refine ⟨s, done, ?_, hp.2, hreplied 100⟩
  rintro ⟨why, hpc⟩
  rw [hp.1.1] at hpc
  cases hpc

/-- The whole way of the bytes. When no response is written over bytes to be sent and the sends of
a client were complete, then what it was sent, what is under way and what is in its output buffer
are the responses to the chunks it sent. -/
theorem transmitted_of_deliveries {s₀ : Reactor} {as : List Act} (hstart : Started s₀)
    (hplain : s₀.srv.ubKernelDma = false) (hrun : Run step OverwritesNothing s₀ as s) {c : Nat}
    (hconn : s.view.Connected c) (hfull : FullySent (outputOf c s.log)) :
    ∃ (done : List (Date × Nat × List UInt8)) (lake : OutBuffer),
      done.map Prod.snd <+: Run.collect step delivered s₀ as ∧
      (¬ s.Stopped → done.map Prod.snd ++ s.inbox = Run.collect step delivered s₀ as) ∧
      s.srv.clientOutBuffers.get c = some lake ∧
      sentTo c s.log ++ (underWay s.view c).flatMap OutSlice.snapshot ++ lake.asSlice
        = Answering.answersTo responsesTo c done := by
  obtain ⟨lake, hlake, hintact⟩ := exists_intact ⟨s₀, as, hstart, hrun⟩ hconn
  have hany : Run step (fun u _ => u.pc = .process → True) s₀ as s := by
    refine hrun.weaken ?_
    intros
    trivial
  obtain ⟨done, _, hbefore, hall, hreplied⟩ :=
    exists_answered_chunks (P := fun _ => True) hstart hplain hany
  refine ⟨done, lake, hbefore, hall, hlake, ?_⟩
  rw [← hreplied c]
  exact (hintact.account hfull).symm

/-- Client 100 is served, and its send executes. -/
theorem transmitted_of_deliveries_served : ∃ (s : Reactor)
    (done : List (Date × Nat × List UInt8)) (lake : OutBuffer),
    (sentTo 100 s.log).length = 204 ∧
      sentTo 100 s.log ++ (underWay s.view 100).flatMap OutSlice.snapshot ++ lake.asSlice
        = Answering.answersTo responsesTo 100 done := by
  obtain ⟨s, hs, hp⟩ := exists_of_exec ready_overwritesNothing noneUnderWay
    (fun _ _ h => overwritesNothing_of_noneUnderWay h)
    (connect ++ serve ++ [.kernel (.sendDone 0 204)])
    (fun s => connectedOn s 100 5 1 && s.srv.ubKernelDma = false
      && (sentTo 100 s.log).length = 204
      && (doneFor 100 s.log).all fun o => o.2 = o.1.len) (by decide +kernel)
  simp only [Bool.and_eq_true, decide_eq_true_eq, List.all_eq_true] at hp
  obtain ⟨⟨⟨hconn, hdma⟩, hsent⟩, hleft⟩ := hp
  have hconnected := connected_of_connectedOn hconn
  have hfull : FullySent (outputOf 100 s.log) :=
    (fullySent_iff_done (blocksFit_of_overwritesNothing hs) hconnected).mpr hleft
  obtain ⟨s₀, as, hstart, hrun⟩ := hs
  have hplain : s₀.srv.ubKernelDma = false := by
    rw [← dma_run hrun]
    exact hdma
  obtain ⟨done, lake, _, _, _, hall⟩ := transmitted_of_deliveries hstart hplain hrun
    hconnected hfull
  exact ⟨s, done, lake, hsent, hall⟩

end Reactor

end Tachyon
