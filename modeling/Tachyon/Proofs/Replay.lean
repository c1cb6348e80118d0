import Tachyon.Proofs.BootDma
import Tachyon.Proofs.Deliveries
import Tachyon.Proofs.Shifts

/-!
# `Tachyon.Proofs.Replay`: what UBDMA adds to the responses

UBDMA takes nothing away. Also in this mode every delivered chunk is parsed by `request_reply`
once, unmodified and in order (`deliveries_parsed`): the shift moves the bytes of the buffer that
was just parsed, and no pending completion carries this buffer (`inbox_shift`).

It adds the answers to polls. `ubdma` parses the current kernel buffer from its first byte that is
not zero on, and answers whichever client is polled (`poll_replays`). While this buffer is not
handed back, the last chunk is in it (`Held`), in one of two places (`Replays`). When the last byte
of the buffer was zero, the shift has moved the chunk to the end, behind zeros, and a poll repeats
the answer to it. When the last byte was not zero, the chunk stands at the front and the rest is
what earlier chunks have left. The shift itself makes the last byte one of the chunk's, so after
the first shift of a buffer later chunks in it usually stay at the front. The requests behind such
a chunk are found as well, and a poll answers them once more.
-/

set_option autoImplicit false

namespace Tachyon

namespace Reactor

variable {s t : Reactor} {inp : Input}

/-- The chunk that `request_reply` parses in a step. -/
def parsed (s : Reactor) : Act → List (Nat × List UInt8)
  | .server _ =>
    if s.pc = .process then
      (s.cq.head?.bind (Cqe.chunk s.srv.ubKernelDma s.srv.buffers)).toList
    else []
  | .kernel _ => []

theorem parsed_delivers {cqe : Cqe} {rest : List Cqe} (hpc : s.pc = .process)
    (hcq : s.cq = cqe :: rest) (hd : cqe.Delivers s.srv.ubKernelDma) :
    s.parsed (.server inp) = [chunkOf s.srv.buffers cqe] := by
  rw [parsed, if_pos hpc, hcq, List.head?_cons, Option.bind_some, Cqe.chunk, if_pos hd]
  rfl

theorem parsed_of_not (hno : ∀ cqe, s.AtHand cqe → ¬ cqe.Delivers s.srv.ubKernelDma) :
    s.parsed (.server inp) = [] := by
  rw [parsed]
  split
  · next hpc =>
    cases hcq : s.cq with
    | nil => rfl
    | cons cqe rest =>
      have hnd := hno cqe ⟨hpc, by rw [hcq]; rfl⟩
      rw [List.head?_cons, Option.bind_some, Cqe.chunk, if_neg hnd]
      rfl
  · rfl

/-! ### The shift -/

theorem shiftBuffer_of_outside {buffers : Mem} {id len a : Nat} (hlen : len ≤ BUFFER_SIZE)
    (ha : a < id * BUFFER_SIZE ∨ id * BUFFER_SIZE + BUFFER_SIZE ≤ a) :
    shiftBuffer buffers id len a = buffers a := by
  have hread := Mem.length_read buffers (id * BUFFER_SIZE) BUFFER_SIZE
  have hlength : (Shift.shiftUbInplace (buffers.read (id * BUFFER_SIZE) BUFFER_SIZE) len).length
      = BUFFER_SIZE := by
    rw [Shift.shiftUbInplace_eq (hlen.trans_eq hread.symm), List.length_append,
      List.length_replicate, List.length_take, hread]
    omega
  unfold shiftBuffer
  split
  · exact Mem.write_of_outside _ _ (by rw [hlength]; exact ha)
  · rfl

/-- Two pending completions carry different buffers. -/
theorem carried_ne_front (h : s.Reachable) (hgo : ¬ s.Stopped) {cqe : Cqe} {rest : List Cqe}
    (hcq : s.cq = cqe :: rest) (hd : cqe.Delivers s.srv.ubKernelDma) :
    ∀ other ∈ rest ++ s.kern.cq, other.Delivers s.srv.ubKernelDma →
      other.flags >>> 16 % 2 ^ 16 ≠ cqe.flags >>> 16 % 2 ^ 16 := by
  intro other hmem hother heq
  have hledger : s.ledger.Nodup := by
    rw [(conserved_of_reachable h hgo).ledger_eq]
    exact Multiset.nodup_range _
  -- No id is in two places, so no two completions carry the same one.
  have hcarried : s.view.carried.Nodup :=
    (Multiset.nodup_add.mp (Multiset.nodup_add.mp hledger).1).2.1
  have hfront : s.view.kern.cq = cqe :: (rest ++ s.kern.cq) := by
    show s.cq ++ s.kern.cq = _
    rw [hcq]
    rfl
  have hid : cqe.bufferId s.view.dma = some (cqe.flags >>> 16 % 2 ^ 16) := if_pos hd
  have hid' : other.bufferId s.view.dma = some (cqe.flags >>> 16 % 2 ^ 16) := by
    rw [← heq]
    exact if_pos hother
  rw [View.carried, hfront, List.filterMap_cons_some hid, Multiset.coe_nodup] at hcarried
  exact (List.nodup_cons.mp hcarried).1 (List.mem_filterMap.mpr ⟨other, hmem, hid'⟩)

/-- The shift leaves the deliveries that are not processed. -/
theorem inbox_shift (h : s.Reachable) (hgo : ¬ s.Stopped) {cqe : Cqe} {rest : List Cqe}
    (hcq : s.cq = cqe :: rest) (hd : cqe.Delivers s.srv.ubKernelDma)
    (hle : cqe.result ≤ BUFFER_SIZE) :
    ({ s with cq := rest } : Reactor).view.inbox (if s.srv.ubKernelDma then
        shiftBuffer s.srv.buffers (cqe.flags >>> 16 % 2 ^ 16) cqe.result.toNat
        else s.srv.buffers) = ({ s with cq := rest } : Reactor).inbox := by
  split
  · refine inbox_frame ?_ ?_ fun a ha => shiftBuffer_of_outside (by omega) ha
    · intro other hmem
      refine fits_of_reachable h other ?_
      show other ∈ s.cq ++ s.kern.cq
      rw [hcq]
      exact List.mem_cons_of_mem cqe hmem
    · exact carried_ne_front h hgo hcq hd
  · rfl

/-! ### No delivery is lost -/

/-- A step that does not stop the loop processes its completion. -/
theorem processEntry_of_serverStep {cqe : Cqe} {rest : List Cqe} (hpc : s.pc = .process)
    (hcq : s.cq = cqe :: rest) (h : s.serverStep inp = some t) (hgo : ¬ t.Stopped) :
    ({ s with cq := rest } : Reactor).processEntry inp cqe = .ok t := by
  rw [serverStep_entry hpc hcq, Option.some.injEq] at h
  rw [← h] at hgo
  obtain ⟨u, hu⟩ := ok_of_not_stopped hgo
  rw [hu] at h
  rw [hu]
  exact congrArg Except.ok h

/-- What a step takes from the inbox is the chunk that it parses. -/
theorem inbox_step {a : Act} (h : s.Reachable) (ha : s.step a = some t) (hgo : ¬ t.Stopped) :
    s.inbox ++ s.delivered a = s.parsed a ++ t.inbox := by
  cases a with
  | kernel k =>
    have hgo' : ¬ s.Stopped := by
      rw [Stopped, pc_kernelStep ha] at hgo
      exact hgo
    exact (inbox_kernelStep h hgo' ha).symm
  | server inp =>
    have hgo' := not_stopped_of_serverStep ha
    have hdelivered : s.delivered (.server inp) = [] := rfl
    rw [hdelivered, List.append_nil]
    by_cases hat : ∃ cqe, s.AtHand cqe ∧ cqe.Delivers s.srv.ubKernelDma
    · obtain ⟨cqe, hat, hd⟩ := hat
      obtain ⟨rest, hcq⟩ := List.head?_eq_some_iff.mp hat.2
      have hle : cqe.result ≤ BUFFER_SIZE := by
        refine fits_of_reachable h cqe ?_ hd
        show cqe ∈ s.cq ++ s.kern.cq
        rw [hcq]
        exact List.mem_append_left _ List.mem_cons_self
      have hr := processEntry_of_serverStep hat.1 hcq ha hgo
      -- The shift of the parsed buffer leaves the chunks that wait.
      have hshift := inbox_shift h hgo' hcq hd hle
      rw [parsed_delivers hat.1 hcq hd]
      exact (answers_entry hshift hcq hd hle hr).1
    · have hno : ∀ cqe, s.AtHand cqe → ¬ cqe.Delivers s.srv.ubKernelDma :=
        fun cqe hcqe hd => hat ⟨cqe, hcqe, hd⟩
      obtain ⟨v, n, heff, hview⟩ := step_effect (s := s) (a := .server inp) ha
      have hbuf := buffers_serverStep (fun cqe hcqe hd => absurd hd (hno cqe hcqe)) ha
      rw [parsed_of_not hno, List.nil_append, inbox_of_effect hbuf heff hview hno]

/-- The loop does not get out of a stop. -/
theorem not_stopped_of_step {a : Act} (h : s.step a = some t) (hgo : ¬ t.Stopped) :
    ¬ s.Stopped := by
  cases a with
  | server inp => exact not_stopped_of_serverStep h
  | kernel k =>
    rw [Stopped, pc_kernelStep h] at hgo
    exact hgo

/-- No state on the way to a state that has not stopped has stopped. -/
theorem run_not_stopped {guard : Reactor → Act → Prop} {s₀ : Reactor} {as : List Act}
    (h : Run step guard s₀ as s) (hgo : ¬ s.Stopped) :
    Run step (fun u a => ∀ w, u.step a = some w → ¬ w.Stopped) s₀ as s := by
  induction h with
  | nil => exact .nil _
  | snoc _ _ ha ih =>
    refine .snoc (ih (not_stopped_of_step ha hgo)) ?_ ha
    intro w hw
    rw [ha] at hw
    cases hw
    exact hgo

/-- In both modes, what the kernel delivered are the chunks that `request_reply` parsed and those
that wait, in order and with the same bytes. -/
theorem deliveries_parsed {s₀ : Reactor} {as : List Act} (hstart : Started s₀)
    (hrun : Run step (fun _ _ => True) s₀ as s) (hgo : ¬ s.Stopped) :
    Run.collect step delivered s₀ as = Run.collect step parsed s₀ as ++ s.inbox := by
  have hempty : s₀.inbox = [] := by
    refine List.filterMap_eq_nil_iff.mpr fun cqe hmem => if_neg fun hd => ?_
    have hzero := ((initial_of_started hstart).cq_setup cqe hmem).2
    exact absurd hd.2.1 (by omega)
  have hfifo : s₀.inbox ++ Run.collect step delivered s₀ as
      = Run.collect step parsed s₀ as ++ s.inbox := by
    refine Run.fifo ?_ (run_not_stopped hrun hgo)
    intro bs u a w hu hg ha
    exact inbox_step ⟨s₀, bs, hstart, hu.weaken fun _ _ _ => trivial⟩ ha (hg w ha)
  rw [hempty, List.nil_append] at hfifo
  exact hfifo

def sixRequests : List UInt8 := (List.replicate 6 plaintextRequest).flatten

/-- Client 100 is on descriptor 5 and client 101 on descriptor 6. Client 100 sends six requests in
one chunk, and there is a poll for client 101. -/
def pollAfterChunk : List Act :=
  connect ++ [.kernel (.accept 6 true)] ++ rounds 14
    ++ [.kernel (.recvData 0 0 sixRequests true), .kernel (.pollEvent 1 1 true)]

theorem deliveries_parsed_served : ∃ (s s₀ : Reactor) (as : List Act),
    s.srv.ubKernelDma = true ∧ (Run.collect step parsed s₀ as).length ≠ 0 ∧
      Run.collect step delivered s₀ as = Run.collect step parsed s₀ as ++ s.inbox := by
  obtain ⟨bs, s, hready, hs, hp⟩ := exists_runDma (pollAfterChunk ++ rounds 8)
    (fun s => s.pc = .process && s.srv.ubKernelDma) (by decide +kernel)
  simp only [Bool.and_eq_true, decide_eq_true_eq] at hp
  have hgo : ¬ s.Stopped := by
    rintro ⟨why, hpc⟩
    rw [hp.1] at hpc
    cases hpc
  have hsome : (Run.collect step parsed ready.withDma (pollAfterChunk ++ rounds 8)).length ≠ 0 := by
    decide +kernel
  refine ⟨s, started.withDma, _, hp.2, ?_, deliveries_parsed started_dma (hready.trans hs) hgo⟩
  rw [Run.collect_append hready, List.length_append]
  omega

/-! ### The buffer of the last chunk -/

/-- The bytes of a buffer of the slab. -/
def content (s : Reactor) (id : Nat) : List UInt8 :=
  s.srv.buffers.read (id * BUFFER_SIZE) BUFFER_SIZE

/-- The buffer after the chunk `data` was parsed from it: the shift has put zeros before the chunk,
or the last byte is not zero and the chunk is at the front. Then the rest is what it was. -/
inductive Replays (buffer data : List UInt8) : Prop
  | shifted (h : buffer = List.replicate (BUFFER_SIZE - data.length) 0 ++ data)
  | kept (hlast : buffer.getLast? ≠ some 0) (h : data <+: buffer)

/-- The current kernel buffer holds the last chunk that was parsed, until it is handed back. -/
def Held (s : Reactor) (chunks : List (Nat × List UInt8)) : Prop :=
  ∀ id, s.srv.currentKernelBuf = some id → id ∈ s.srv.releasedBuffers →
    ∃ c data, chunks.getLast? = some (c, data) ∧ Replays (s.content id) data

/-- A step that moves no chunk into the current buffer. -/
theorem Held.congr {chunks : List (Nat × List UInt8)} (h : s.Held chunks)
    (hcur : t.srv.currentKernelBuf = s.srv.currentKernelBuf)
    (hrel : ∀ id ∈ t.srv.releasedBuffers, id ∈ s.srv.releasedBuffers)
    (hread : ∀ id ∈ s.srv.releasedBuffers, t.content id = s.content id) : t.Held chunks := by
  intro id hid hmem
  rw [hcur] at hid
  rw [hread id (hrel id hmem)]
  exact h id hid (hrel id hmem)

/-- A released buffer is not in the group. -/
theorem released_ne_provided (h : s.Reachable) (hgo : ¬ s.Stopped) {id : Nat}
    (hid : id ∈ s.kern.provided) : id ∉ s.srv.releasedBuffers := by
  intro hmem
  have hledger : s.ledger.Nodup := by
    rw [(conserved_of_reachable h hgo).ledger_eq]
    exact Multiset.nodup_range _
  have hlent : id ∈ s.view.lent :=
    Multiset.mem_add.mpr (.inl (Multiset.mem_add.mpr (.inl (Multiset.mem_coe.mpr hid))))
  exact Multiset.disjoint_left.mp (Multiset.nodup_add.mp hledger).2.2 hlent
    (Multiset.mem_coe.mpr hmem)

/-- The kernel writes into buffers of the group only. -/
theorem content_kernelStep {k : KernelAct} (h : s.Reachable) (hgo : ¬ s.Stopped)
    (ht : s.kernelStep k = some t) {id : Nat} (hid : id ∈ s.srv.releasedBuffers) :
    t.content id = s.content id := by
  by_cases hk : s.delivered (.kernel k) = []
  · rw [content, content, buffers_kernelStep hk ht]
  · cases k with
    | recvData i other data more =>
      simp only [kernelStep] at ht
      split at ht
      · next op hop =>
        simp only [Option.ite_none_right_eq_some] at ht
        obtain ⟨⟨hmem, _, hle⟩, ht⟩ := ht
        cases ht
        -- The kernel takes a buffer of the group, and a released one is not there yet.
        have hne : id ≠ other := by
          intro heq
          rw [heq] at hid
          exact released_ne_provided h hgo hmem hid
        refine Mem.read_congr fun i hi => Mem.write_of_outside _ _ ?_
        have hout := outside_of_ne hne hi
        omega
      · cases ht
    | accept | acceptEnd | recvEnd | pollEvent | pollEnd | sendDone | sendFail | sqThread =>
      exact absurd rfl hk

theorem Held.kernelStep {chunks : List (Nat × List UInt8)} (hs : s.Held chunks)
    (h : s.Reachable) (hgo : ¬ s.Stopped) {k : KernelAct} (ht : s.kernelStep k = some t) :
    t.Held chunks := by
  have hread : ∀ id ∈ s.srv.releasedBuffers, t.content id = s.content id := by
    intro id hid
    exact content_kernelStep h hgo ht hid
  rcases kernelStep_cases ht with ⟨kern, log, buffers, rfl⟩ | ⟨e, sq, _, rfl⟩
  · exact hs.congr rfl (fun _ hid => hid) hread
  · exact hs.congr rfl (fun _ hid => hid) hread

/-- The current buffer and the released ones after a step that parses no chunk. -/
structure Keeps (s t : Reactor) : Prop where
  current : t.srv.currentKernelBuf = s.srv.currentKernelBuf
  released : t.srv.releasedBuffers = s.srv.releasedBuffers ∨ t.srv.releasedBuffers = []

theorem keeps_of_srv (h : t.srv = s.srv) : Keeps s t := by
  constructor
  · rw [h]
  · rw [h]
    exact .inl rfl

theorem keeps_orStop {r : Except Stop Reactor} {u : Reactor} (hs : Keeps u s)
    (h : ∀ v, r = .ok v → Keeps u v) : Keeps u (s.orStop r) := by
  cases r with
  | ok v => exact h v rfl
  | error why => exact ⟨hs.current, hs.released⟩

theorem keeps_processEntry {cqe : Cqe} (hnd : ¬ cqe.Delivers s.srv.ubKernelDma)
    (h : s.processEntry inp cqe = .ok t) : Keeps s t := by
  refine ⟨?_, .inl (released_processEntry hnd h)⟩
  generalize hr : s.processEntry inp cqe = r at h
  have hd := dispatches s inp cqe
  rw [hr] at hd
  cases hd with
  | skip _ _ =>
    cases h
    rfl
  | accept _ => rcases processEntryAccept_cases h with ⟨_, rfl⟩ | ⟨_, lakes, _, rfl⟩ <;> rfl
  | release _ => rw [srv_releaseBuffers h]
  | close _ =>
    cases h
    simp only [closeConnection, Bool.not_true, Bool.false_eq_true, if_false]
    split <;> rfl
  | poll _ => rcases ubdma_cases h with rfl | ⟨_, _, _, _, _, _, _, _, rfl⟩ <;> rfl
  | reply hd => exact absurd hd hnd

theorem keeps_serverStep (hno : ∀ cqe, s.AtHand cqe → ¬ cqe.Delivers s.srv.ubKernelDma)
    (h : s.serverStep inp = some t) : Keeps s t := by
  have htick : Keeps s (s.tick inp) := by
    obtain ⟨_, _, _, _, heq⟩ := s.tick_eq inp
    rw [heq]
    exact ⟨rfl, .inl rfl⟩
  cases turns_of_serverStep h with
  | flush _ _ =>
    refine keeps_orStop ⟨htick.current, htick.released⟩ fun u hu => ?_
    obtain ⟨sq, now, _, rfl⟩ := widebandSend_cases hu
    exact ⟨htick.current, htick.released⟩
  | noFlush _ _ => exact ⟨htick.current, htick.released⟩
  | submit _ _ | wait _ _ => exact keeps_of_srv (srv_submitAll s)
  | sync | noSync | reap | noReap | noSubmit | submitError | wake | drained | idle =>
    exact ⟨rfl, .inl rfl⟩
  | @entry cqe rest hpc hcq =>
    have hnd := hno cqe ⟨hpc, by rw [hcq]; rfl⟩
    refine keeps_orStop ⟨rfl, .inl rfl⟩ fun u hu => ?_
    have hkeeps := keeps_processEntry (s := { s with cq := rest }) hnd hu
    exact ⟨hkeeps.current, hkeeps.released⟩
  | handBack _ _ =>
    refine keeps_orStop ⟨rfl, .inl rfl⟩ fun u hu => ?_
    exact keeps_of_srv (srv_releaseBuffers (s := { s with pc := .top }) hu)
  | retry _ =>
    refine keeps_orStop ⟨rfl, .inl rfl⟩ fun u hu => ?_
    rcases releaseRound_cases hu with ⟨_, rfl⟩ | ⟨sq, _, rfl⟩
    · exact ⟨rfl, .inl rfl⟩
    · refine ⟨?_, .inr rfl⟩
      show ({ s with sq := sq.sync } : Reactor).submitAll.srv.currentKernelBuf = _
      rw [srv_submitAll]

/-- What the buffer of a delivery holds after it was parsed. -/
theorem replays_shiftBuffer (buffers : Mem) (id : Nat) {len : Nat} (hlen : len ≤ BUFFER_SIZE) :
    Replays ((shiftBuffer buffers id len).read (id * BUFFER_SIZE) BUFFER_SIZE)
      (buffers.read (id * BUFFER_SIZE) len) := by
  by_cases hlast : buffers (id * BUFFER_SIZE + (BUFFER_SIZE - 1)) = 0
  · refine .shifted ?_
    rw [read_shiftBuffer hlen hlast, Mem.length_read]
  · have hin : BUFFER_SIZE - 1 < BUFFER_SIZE := by decide
    -- The last byte is taken: nothing is shifted.
    have hguard : ¬ (buffers.read (id * BUFFER_SIZE) BUFFER_SIZE).getD (BUFFER_SIZE - 1) 0
        = 0 := by
      rw [Mem.getD_read buffers _ hin]
      exact hlast
    have hkeep : shiftBuffer buffers id len = buffers := by
      simp only [shiftBuffer]
      rw [if_neg hguard]
    rw [hkeep]
    refine .kept ?_ ?_
    · rw [List.getLast?_eq_getElem?, Mem.length_read, Mem.getElem?_read _ _ hin]
      intro h
      exact hlast (Option.some.inj h)
    · have hsplit := buffers.read_add (id * BUFFER_SIZE) len (BUFFER_SIZE - len)
      rw [Nat.add_sub_cancel' hlen] at hsplit
      rw [hsplit]
      exact List.prefix_append _ _

/-- A delivery is parsed, and its buffer becomes the current one. -/
theorem held_of_delivers {cqe : Cqe} {rest : List Cqe} (hdma : s.srv.ubKernelDma = true)
    (hd : cqe.Delivers s.srv.ubKernelDma) (hle : cqe.result ≤ BUFFER_SIZE)
    (hr : ({ s with cq := rest } : Reactor).processEntry inp cqe = .ok t)
    (chunks : List (Nat × List UInt8)) : t.Held (chunks ++ [chunkOf s.srv.buffers cqe]) := by
  rw [processEntry_delivers (s := { s with cq := rest }) hd inp] at hr
  obtain ⟨hcur, hbuf⟩ := srv_requestReply hr hle
  have hlen : cqe.result.toNat ≤ BUFFER_SIZE := by omega
  intro id hid _
  rw [hcur, Option.some.injEq] at hid
  refine ⟨_, _, List.getLast?_concat, ?_⟩
  rw [content, hbuf, if_pos hdma, ← hid]
  exact replays_shiftBuffer s.srv.buffers _ hlen

theorem Held.step {a : Act} {chunks : List (Nat × List UInt8)} (hs : s.Held chunks)
    (h : s.Reachable) (hdma : s.srv.ubKernelDma = true) (ha : s.step a = some t)
    (hgo : ¬ t.Stopped) : t.Held (chunks ++ s.parsed a) := by
  have hgo' := not_stopped_of_step ha hgo
  cases a with
  | kernel k =>
    rw [parsed, List.append_nil]
    exact hs.kernelStep h hgo' ha
  | server inp =>
    by_cases hat : ∃ cqe, s.AtHand cqe ∧ cqe.Delivers s.srv.ubKernelDma
    · obtain ⟨cqe, hat, hd⟩ := hat
      obtain ⟨rest, hcq⟩ := List.head?_eq_some_iff.mp hat.2
      have hle : cqe.result ≤ BUFFER_SIZE := by
        refine fits_of_reachable h cqe ?_ hd
        show cqe ∈ s.cq ++ s.kern.cq
        rw [hcq]
        exact List.mem_append_left _ List.mem_cons_self
      rw [parsed_delivers hat.1 hcq hd]
      exact held_of_delivers hdma hd hle (processEntry_of_serverStep hat.1 hcq ha hgo) chunks
    · have hno : ∀ cqe, s.AtHand cqe → ¬ cqe.Delivers s.srv.ubKernelDma :=
        fun cqe hcqe hd => hat ⟨cqe, hcqe, hd⟩
      have hbuf := buffers_serverStep (fun cqe hcqe hd => absurd hd (hno cqe hcqe)) ha
      have hkeeps := keeps_serverStep hno ha
      rw [parsed_of_not hno, List.append_nil]
      refine hs.congr hkeeps.current ?_ fun _ _ => by rw [content, content, hbuf]
      intro id hid
      rcases hkeeps.released with hsame | hnone
      · rwa [hsame] at hid
      · rw [hnone] at hid
        cases hid

/-- In every run in UBDMA mode, the current buffer holds the last chunk until it is handed back. -/
theorem held_of_run {s₀ : Reactor} {as : List Act} (hstart : Started s₀)
    (hdma : s₀.srv.ubKernelDma = true) (hrun : Run step (fun _ _ => True) s₀ as s)
    (hgo : ¬ s.Stopped) : s.Held (Run.collect step parsed s₀ as) := by
  refine Run.history (J := fun u chunks => ¬ u.Stopped → u.Held chunks) ?_ ?_ hrun hgo
  · intro _ id hid _
    obtain ⟨cfg, n, m, hsrv, _⟩ := started_view hstart
    rw [hsrv] at hid
    cases hid
  · intro bs u a w hu _ ha hheld hgo'
    refine (hheld (not_stopped_of_step ha hgo')).step ⟨s₀, bs, hstart, hu⟩ ?_ ha hgo'
    rw [dma_run hu]
    exact hdma

/-! ### The answer to a poll -/

/-- The requests in a chunk of bytes. -/
def requestCount (bytes : List UInt8) : Nat :=
  (Http.parseHttpMethodsPaths 50 (Slice.ofList bytes)).length

theorem length_parse_eq (buf : Slice) :
    (Http.parseHttpMethodsPaths 50 buf).length = requestCount buf.bytes := by
  have hagree : ∀ i, i < buf.len → buf.ptr i = (Slice.ofList buf.bytes).ptr i := by
    intro i hi
    show buf.ptr i = (buf.ptr.read 0 buf.len).getD i 0
    rw [Mem.getD_read _ _ hi, Nat.zero_add]
  have hlen : buf.len = (Slice.ofList buf.bytes).len := (Mem.length_read _ _ _).symm
  rw [requestCount, ← Http.parseHttpMethodsPaths_congr hagree 50 hlen]

/-- The client is stored and has no output yet. -/
def waits (s : Reactor) (c : Nat) : Bool :=
  (s.srv.clientOutBuffers.get c).any fun lake => lake.len = 0

theorem processEntry_polls {cqe : Cqe} (h : cqe.Polls s.srv.ubKernelDma) (inp : Input) :
    s.processEntry inp cqe = s.ubdma (UserData.unpackUserData cqe.userData) := by
  obtain ⟨hu, hpos, huniq, hdma⟩ := h
  have hregister : ¬ (cqe.userData = BUFFER_REGISTER_CODE ∧ cqe.result = 0 ∧ cqe.flags = 0) := by
    intro hr
    omega
  have haccept : ¬ cqe.userData = CODE_ACCEPT := fun hc => not_le_of_accept hc hu
  have hbad : ¬ (cqe.result = -EAGAIN ∨ cqe.result = -EBADF) := by
    rw [EAGAIN, EBADF]
    omega
  have hbufs : ¬ cqe.result = -ENOBUFS := by
    rw [ENOBUFS]
    omega
  have hpipe : ¬ cqe.result = -32 := by omega
  have hclose : ¬ (cqe.result = 0 ∧ (UserData.unpackUserData cqe.userData).uniqId ≠ 0xCCC ∨
      cqe.result = -ECONNRESET) := by
    rw [ECONNRESET]
    omega
  have hneg : ¬ cqe.result < 0 := by omega
  rw [processEntry, if_neg hregister, if_neg haccept, if_pos hu, processEntryResponse,
    if_neg hbad, if_neg hbufs, if_neg hpipe, if_neg hclose, if_neg hneg, if_pos ⟨huniq, hdma⟩]

theorem requestCount_nil : requestCount [] = 0 := by decide +kernel

/-- What `ubdma` answers, and when. -/
theorem replied_ubdma {user : UserData} {buffer : Slice} (hpolled : s.polled = some buffer)
    (h : s.ubdma user = .ok t) (c : Nat) :
    repliedTo c t.log = repliedTo c s.log ++
      if user.clientId.toNat = c ∧ s.waits c = true ∧ 5 < requestCount buffer.bytes
        then responsesTo s.srv.date buffer.bytes else [] := by
  rw [← length_parse_eq, ← replies_eq_responsesTo]
  rcases ubdma_polled hpolled user with ⟨hmany, lake, cache, hot, hget, hlen, hu⟩ | ⟨hno, hu⟩
  · rw [hu] at h
    cases h
    have hwaits : s.waits user.clientId.toNat = true := by
      rw [waits, hget]
      exact decide_eq_true hlen
    rw [refreshed, repliedTo_received]
    by_cases hc : user.clientId.toNat = c
    · rw [if_pos hc, if_pos ⟨hc, hc ▸ hwaits, hmany⟩]
    · rw [if_neg hc, if_neg fun h => hc h.1]
  · rw [hu] at h
    cases h
    rw [if_neg, List.append_nil]
    rintro ⟨rfl, hwaits, hmany⟩
    rcases hno with hfew | hoccupied
    · omega
    · obtain ⟨lake, hget, hlen⟩ := (Option.any_eq_true _ _).mp hwaits
      exact hoccupied lake hget (of_decide_eq_true hlen)

/-- What `ubdma` parses in the next poll. Without a current kernel buffer it parses nothing. -/
def pollBytes (s : Reactor) : List UInt8 := (s.polled.map Slice.bytes).getD []

/-- A poll in UBDMA mode: a client that waits is answered the requests in the current kernel buffer,
whoever had sent them, when there are more than five. Nobody else gets a response. Until the buffer
is handed back, the last chunk is in it. -/
theorem poll_replays {s₀ : Reactor} {as : List Act} {cqe : Cqe} (hstart : Started s₀)
    (hrun : Run step (fun _ _ => True) s₀ as s) (hat : s.AtHand cqe)
    (hp : cqe.Polls s.srv.ubKernelDma) (ht : s.serverStep inp = some t) :
    (∀ c, repliedTo c t.log = repliedTo c s.log ++
      if clientOf cqe.userData = c ∧ s.waits c = true ∧ 5 < requestCount s.pollBytes
        then responsesTo s.srv.date s.pollBytes else []) ∧
    ∀ id, s.srv.currentKernelBuf = some id →
      s.pollBytes = (s.content id).dropWhile (· == 0) ∧
      (id ∈ s.srv.releasedBuffers → ∃ sender data,
        (Run.collect step parsed s₀ as).getLast? = some (sender, data) ∧
        Replays (s.content id) data) := by
  have hdma : s₀.srv.ubKernelDma = true := by
    rw [← dma_run hrun]
    exact hp.2.2.2
  have hheld := held_of_run hstart hdma hrun (not_stopped_of_serverStep ht)
  obtain ⟨rest, hcq⟩ := List.head?_eq_some_iff.mp hat.2
  obtain ⟨u, hu⟩ := exists_ubdma { s with cq := rest } (UserData.unpackUserData cqe.userData)
  rw [serverStep_entry hat.1 hcq, processEntry_polls (s := { s with cq := rest }) hp inp, hu] at ht
  cases ht
  constructor
  · intro c
    cases hpolled : s.polled with
    | none =>
      -- Before the first delivery `ubdma` finds no buffer.
      have hnone : s.srv.currentKernelBuf = none := Option.map_eq_none_iff.mp hpolled
      unfold ubdma at hu
      simp only [hnone] at hu
      cases hu
      have hempty : ¬ 5 < requestCount s.pollBytes := by
        rw [pollBytes, hpolled]
        show ¬ 5 < requestCount []
        rw [requestCount_nil]
        omega
      rw [if_neg fun h => hempty h.2.2, List.append_nil]
      rfl
    | some buffer =>
      have hbytes : s.pollBytes = buffer.bytes := by
        rw [pollBytes, hpolled]
        rfl
      rw [hbytes]
      exact replied_ubdma (s := { s with cq := rest }) hpolled hu c
  · intro id hbuf
    refine ⟨?_, hheld id hbuf⟩
    rw [pollBytes, polled, hbuf]
    show (Trim.lTrim256 (bufferSlice s.srv id BUFFER_SIZE)).bytes = _
    rw [Trim.bytes_lTrim256, bytes_bufferSlice, content]

/-- Six requests were parsed in the run of `pollAfterChunk`, and they are the last chunk. -/
theorem getLast_pollAfterChunk {bs : List Act} {s₀ : Reactor}
    (h : Run step (fun _ _ => True) s₀ bs ready.withDma) :
    (Run.collect step parsed s₀ (bs ++ (pollAfterChunk ++ rounds 8))).getLast?
      = some (100, sixRequests) := by
  have hlast : (Run.collect step parsed ready.withDma (pollAfterChunk ++ rounds 8)).getLast?
      = some (100, sixRequests) := by decide +kernel
  rw [Run.collect_append h, List.getLast?_append, hlast]
  rfl

/-- A buffer whose first byte is zero holds a chunk of requests behind zeros. -/
theorem dropWhile_of_replays {buffer data : List UInt8} (h : Replays buffer data)
    (hfirst : buffer.head? = some 0) (hdata : ∃ b rest, data = b :: rest ∧ b ≠ 0) :
    buffer.dropWhile (· == 0) = data := by
  obtain ⟨b, rest, rfl, hb⟩ := hdata
  cases h with
  | shifted h =>
    have hzero : ((0 : UInt8) == 0) = true := rfl
    have hstop : ¬ (b == 0) = true := fun heq => hb (beq_iff_eq.mp heq)
    rw [h, List.dropWhile_append, List.dropWhile_replicate, if_pos hzero, if_pos List.isEmpty_nil]
    exact List.dropWhile_cons_of_neg hstop
  | kept _ h =>
    obtain ⟨tail, rfl⟩ := h
    rw [List.cons_append, List.head?_cons, Option.some.injEq] at hfirst
    exact absurd hfirst hb

theorem poll_replays_served : ∃ (s t : Reactor) (cqe : Cqe),
    s.AtHand cqe ∧ clientOf cqe.userData = 101 ∧ s.waits 101 = true ∧
      s.serverStep calm = some t ∧ Replays (s.content 0) sixRequests ∧
      5 < requestCount sixRequests ∧
      repliedTo 101 t.log = repliedTo 101 s.log ++ responsesTo s.srv.date sixRequests := by
  obtain ⟨bs, s, hready, hs, hp⟩ := exists_runDma (pollAfterChunk ++ rounds 8)
    (fun s => s.pc = .process && s.srv.currentKernelBuf = some 0
      && s.srv.releasedBuffers = [0] && s.waits 101 && s.srv.buffers 0 = 0
      && s.cq.head?.any fun cqe => cqe.Polls s.srv.ubKernelDma
        && clientOf cqe.userData = 101) (by decide +kernel)
  simp only [Bool.and_eq_true, decide_eq_true_eq, Option.any_eq_true] at hp
  obtain ⟨⟨⟨⟨⟨hpc, hbuf⟩, hreleased⟩, hwaits⟩, hzero⟩, cqe, hhead, hpolls, hclient⟩ := hp
  obtain ⟨rest, hcq⟩ := List.head?_eq_some_iff.mp hhead
  have hheld : 0 ∈ s.srv.releasedBuffers := by
    rw [hreleased]
    exact List.mem_cons_self
  have ht := serverStep_entry hpc hcq calm
  obtain ⟨hreplied, hcontent⟩ := poll_replays started_dma (hready.trans hs) ⟨hpc, hhead⟩ hpolls ht
  obtain ⟨hbytes, hlast⟩ := hcontent 0 hbuf
  obtain ⟨_, data, hchunk, hreplays⟩ := hlast hheld
  -- The last chunk is that of client 100, and the poll is for client 101.
  rw [getLast_pollAfterChunk hready] at hchunk
  cases hchunk
  have hfirst : (s.content 0).head? = some 0 := by
    rw [List.head?_eq_getElem?, content, Mem.getElem?_read _ _ (by decide), Nat.zero_mul,
      Nat.add_zero, hzero]
  have hsix : 5 < requestCount sixRequests := by decide +kernel
  rw [dropWhile_of_replays hreplays hfirst ⟨71, _, rfl, by decide⟩] at hbytes
  have h101 := hreplied 101
  rw [hbytes, if_pos ⟨hclient, hwaits, hsix⟩] at h101
  exact ⟨s, _, cqe, ⟨hpc, hhead⟩, hclient, hwaits, ht, hreplays, hsix, h101⟩

end Reactor

end Tachyon
