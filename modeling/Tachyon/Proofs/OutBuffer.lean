import Tachyon.Proofs.Forward
import Tachyon.Proofs.Pipeline

/-!
# `Tachyon.Proofs.OutBuffer`: how full an output buffer gets

Between two flushes the responses of a client collect in its output buffer. `load` is the write
position that the log gives: it goes back to 0 at a flush, and each block of responses adds its
size, or starts over at the front when it does not fit. `Loaded` says that the position of every
stored client is its load, in every reachable state. So a write fits exactly when the load with
the new responses is at most `DATA_LAKE_SIZE` (`write_fits_iff`).

As long as the responses since the last flush fit together, the load is their plain sum
(`load_eq_due`). Nothing in the code bounds this sum: two full pipelines in one batch are enough to
exceed it. The second then overwrites the first (`asSlice_of_not_writeFits`).
-/

set_option autoImplicit false
set_option maxRecDepth 8000

namespace Tachyon

/-! ### The responses that are due -/

/-- The size of the response to a request, in bytes. -/
def responseSize (method path : List UInt8) : Nat :=
  if method = ascii "GET" ∧ path = ascii "/plaintext" then 204
  else if method = ascii "GET" ∧ path = ascii "/json" then 224
  else 209

/-- The sizes of the responses to the requests of a received slice, added up. -/
def replySize (buffer : Slice) : Nat :=
  ((Http.parseHttpMethodsPaths 50 buffer).map fun r =>
    responseSize (buffer.span r.1) (buffer.span r.2)).sum

theorem length_replies (date : Date) (buffer : Slice) :
    (replies date buffer (Http.parseHttpMethodsPaths 50 buffer)).length = replySize buffer := by
  rw [replies, List.length_flatten, List.map_map, replySize]
  congr 1
  refine List.map_congr_left fun r _ => ?_
  exact Handler.length_response date _ _

theorem replySize_le (buffer : Slice) : replySize buffer ≤ DATA_LAKE_SIZE := by
  have hcount := Http.length_parseHttpMethodsPaths_le 50 buffer
  have hle := length_replies_le Date.zero buffer (Http.parseHttpMethodsPaths 50 buffer)
  rw [length_replies] at hle
  rw [DATA_LAKE_SIZE, BUFFER_SIZE]
  omega

/-- The write position behind a block of `size` bytes. A block that does not fit starts over. -/
def advance (n size : Nat) : Nat := if n + size ≤ DATA_LAKE_SIZE then n + size else size

/-- What an event does to the load of the client `c`. -/
def loadStep (c n : Nat) : Event → Nat
  | .flushed => 0
  | .received c' buffer => if c' = c then advance n (replySize buffer) else n
  | _ => n

/-- Where the responses for the client `c` since the last flush leave its write position. -/
def load (c : Nat) (log : List Event) : Nat := log.foldl (loadStep c) 0

theorem advance_le (n : Nat) {size : Nat} (h : size ≤ DATA_LAKE_SIZE) :
    advance n size ≤ DATA_LAKE_SIZE := by
  rw [advance]
  split
  · assumption
  · exact h

/-- Whatever comes in between two flushes, the position stays inside the array. -/
theorem load_le (c : Nat) (log : List Event) : load c log ≤ DATA_LAKE_SIZE := by
  induction log using List.reverseRecOn with
  | nil => exact Nat.zero_le _
  | append_singleton log e ih =>
    rw [load, List.foldl_concat]
    show loadStep c (load c log) e ≤ DATA_LAKE_SIZE
    cases e with
    | flushed => exact Nat.zero_le _
    | received c' buffer =>
      simp only [loadStep]
      split
      · exact advance_le _ (replySize_le buffer)
      · exact ih
    | _ => exact ih

/-- What an event adds to the responses due for the client `c`. -/
def dueStep (c n : Nat) : Event → Nat
  | .flushed => 0
  | .received c' buffer => if c' = c then n + replySize buffer else n
  | _ => n

/-- The responses due for the client `c` since the last flush, in bytes. -/
def due (c : Nat) (log : List Event) : Nat := log.foldl (dueStep c) 0

/-- An event that neither flushes nor adds responses. -/
def Event.Idle : Event → Prop
  | .flushed => False
  | .received _ _ => False
  | _ => True

theorem load_append_of_idle (c : Nat) (log : List Event) {es : List Event}
    (h : ∀ e ∈ es, e.Idle) : load c (log ++ es) = load c log := by
  rw [load, List.foldl_append]
  show es.foldl (loadStep c) (load c log) = _
  generalize load c log = n
  induction es with
  | nil => rfl
  | cons e rest ih =>
    obtain ⟨he, hrest⟩ := List.forall_mem_cons.mp h
    have hstep : loadStep c n e = n := by
      cases e <;> first | rfl | exact absurd he id
    rw [List.foldl_cons, hstep]
    exact ih hrest

theorem load_flushed (c : Nat) (log : List Event) : load c (log ++ [.flushed]) = 0 := by
  rw [load, List.foldl_append]
  rfl

theorem load_received (c c' : Nat) (log : List Event) (buffer : Slice) (bytes : List UInt8) :
    load c (log ++ [.received c' buffer, .replied c' bytes])
      = if c' = c then advance (load c log) (replySize buffer) else load c log := by
  rw [load, List.foldl_append]
  rfl

/-- Responses that fit together are written one behind the other. -/
theorem load_eq_due (c : Nat) (log : List Event) (h : due c log ≤ DATA_LAKE_SIZE) :
    load c log = due c log := by
  induction log using List.reverseRecOn with
  | nil => rfl
  | append_singleton log e ih =>
    rw [due, List.foldl_concat] at h ⊢
    rw [load, List.foldl_concat]
    change dueStep c (due c log) e ≤ DATA_LAKE_SIZE at h
    show loadStep c (load c log) e = dueStep c (due c log) e
    cases e with
    | flushed => rfl
    | received c' buffer =>
      simp only [dueStep] at h
      simp only [loadStep, dueStep]
      by_cases hc : c' = c
      · rw [if_pos hc] at h
        rw [if_pos hc, if_pos hc, ih (by omega), advance, if_pos h]
      · rw [if_neg hc] at h
        rw [if_neg hc, if_neg hc, ih h]
    | _ => exact ih h

/-! ### The write positions -/

/-- The write position of every stored client is its load, and nothing was received for an
index that was not given out. -/
structure Loaded (fds : ExternStableVec RawFd) (lakes : ExternStableVec OutBuffer)
    (log : List Event) : Prop where
  received_lt : ∀ c buffer, .received c buffer ∈ log → c < fds.next
  pos_eq : ∀ c lake, lakes.get c = some lake → lake.pos = load c log

namespace Loaded

variable {fds : ExternStableVec RawFd} {lakes : ExternStableVec OutBuffer} {log : List Event}

theorem initial {v : View} (h : v.Initial) : Loaded v.fds v.lakes v.log := by
  rw [h.log_eq, h.lakes_eq]
  exact ⟨by simp, by simp⟩

theorem append (h : Loaded fds lakes log) {es : List Event} (hes : ∀ e ∈ es, e.Idle) :
    Loaded fds lakes (log ++ es) where
  received_lt c buffer hmem :=
    h.received_lt c buffer ((List.mem_append.mp hmem).resolve_right fun he => hes _ he)
  pos_eq c lake hget := by
    rw [load_append_of_idle c log hes]
    exact h.pos_eq c lake hget

/-- The client has nothing due before it is stored. -/
theorem load_next (h : Loaded fds lakes log) : load fds.next log = 0 := by
  have hkeep : ∀ log' : List Event, (∀ c buffer, .received c buffer ∈ log' → c < fds.next) →
      log'.foldl (loadStep fds.next) 0 = 0 := by
    intro log' hlt
    induction log' with
    | nil => rfl
    | cons e rest ih =>
      have hstep : loadStep fds.next 0 e = 0 := by
        cases e with
        | received c buffer =>
          have hne : c ≠ fds.next := Nat.ne_of_lt (hlt c buffer List.mem_cons_self)
          exact if_neg hne
        | _ => rfl
      rw [List.foldl_cons, hstep]
      exact ih fun c buffer hmem => hlt c buffer (List.mem_cons_of_mem _ hmem)
  exact hkeep log h.received_lt

theorem flush (h : Loaded fds lakes log) (ht : Tables fds lakes) :
    Loaded fds (Reactor.resetSent fds lakes) (log ++ [.flushed]) where
  received_lt c buffer hmem :=
    h.received_lt c buffer ((List.mem_append.mp hmem).resolve_right (by simp))
  pos_eq c lake hget := by
    rw [load_flushed]
    rw [get_resetSent] at hget
    obtain ⟨old, hold, rfl⟩ := Option.map_eq_some_iff.mp hget
    obtain ⟨fd, hfd⟩ := ht.exists_fd hold
    by_cases hlen : old.len = 0
    · rw [if_neg (by simp [hlen])]
      exact hlen
    · rw [if_pos ⟨hlen, by rw [hfd]; rfl⟩]
      rfl

theorem accept (h : Loaded fds lakes log) (fd : RawFd) (conn : Option ConnId)
    {lakes' : ExternStableVec OutBuffer}
    (hins : lakes.insert fds.next SmallLake.build = some lakes') :
    Loaded (fds.push fd).2 lakes' (log ++ [.accepted fds.next fd conn]) := by
  obtain ⟨_, _, hget⟩ := ExternStableVec.insert_eq_some hins
  have hidle : ∀ e ∈ [Event.accepted fds.next fd conn], e.Idle := by simp [Event.Idle]
  refine ⟨fun c buffer hmem => ?_, fun c lake hlake => ?_⟩
  · exact Nat.lt_succ_of_lt ((h.append hidle).received_lt c buffer hmem)
  · rw [load_append_of_idle c log hidle]
    rw [hget] at hlake
    split at hlake
    · rename_i hc
      cases hlake
      subst hc
      exact h.load_next.symm
    · exact h.pos_eq c lake hlake

theorem remove (h : Loaded fds lakes log) (c : Nat) :
    Loaded (fds.remove c).2 (lakes.remove c).2 log where
  received_lt := h.received_lt
  pos_eq c' lake hget := by
    rw [ExternStableVec.get_remove] at hget
    split at hget
    · cases hget
    · exact h.pos_eq c' lake hget

theorem reply (h : Loaded fds lakes log) {c : Nat} (hc : c < fds.next) {lake : OutBuffer}
    (hget : lakes.get c = some lake) (date : Date) (buffer : Slice) :
    Loaded fds
      (lakes.set c (lake.write (replies date buffer (Http.parseHttpMethodsPaths 50 buffer))))
      (log ++ [.received c buffer,
        .replied c (replies date buffer (Http.parseHttpMethodsPaths 50 buffer))]) := by
  refine ⟨fun c' buffer' hmem => ?_, fun c' lake₁ hlake => ?_⟩
  · rcases List.mem_append.mp hmem with hmem | hmem
    · exact h.received_lt c' buffer' hmem
    · simp only [List.mem_cons, Event.received.injEq, reduceCtorEq, List.not_mem_nil,
        or_false] at hmem
      rw [hmem.1]
      exact hc
  · rw [load_received]
    rw [ExternStableVec.get_set] at hlake
    obtain ⟨old, hold, rfl⟩ := Option.map_eq_some_iff.mp hlake
    by_cases hcc : c' = c
    · subst hcc
      rw [hget] at hold
      cases hold
      rw [if_pos rfl, if_pos rfl, SmallLake.pos_write, length_replies, h.pos_eq _ _ hget, advance]
    · rw [if_neg hcc, if_neg (Ne.symm hcc)]
      exact h.pos_eq c' old hold

end Loaded

theorem loaded_invariant (guard : Reactor → Act → Prop) :
    Reactor.InvariantOver guard View.Wf fun v => Loaded v.fds v.lakes v.log where
  start _ h := .initial h
  effect s a v hwf hs _ he := by
    cases he with
    | quiet inp hpc => exact hs
    | provide inp ids hpc => exact hs
    | flush inp hpc => exact hs.flush hwf.tables
    | skip inp cqe hat hnc => exact hs
    | accept inp cqe lakes poll recv hat hu hfd hins hpoll hrecv => exact hs.accept _ _ hins
    | close inp cqe hat hc hfd => exact (hs.append (by simp [Event.Idle])).remove _
    | closeStdin inp cqe hat hc hfd => exact hs.remove _
    | reply inp cqe buffer lake hat hans hget =>
      exact hs.reply ((hwf.tables.lt_next hget).2) hget _ buffer
    | kernelAccept fd more h0 hfree => exact hs.append (by simp)
    | kernelAcceptEnd err => exact hs.append (by simp)
    | recvData op i bufferId data more hop hid hpos hle => exact hs.append (by simp)
    | recvEnd op i result hop hres => exact hs.append (by simp)
    | pollEvent op i mask more hop => exact hs.append (by simp)
    | pollEnd op i err hop => exact hs.append (by simp)
    | sendDone op i sent hop hsent => exact hs.append (by simp [Event.Idle])
    | sendFail op i err hop herr => exact hs.append (by simp [Event.Idle])
    | sqThread => exact hs
  submit v e q _ hv hq := hv

namespace Reactor

/-- The write position of a stored client. -/
theorem len_eq_load {s : Reactor} (h : s.Reachable) {c : Nat} {lake : OutBuffer}
    (hget : s.srv.clientOutBuffers.get c = some lake) : lake.len = load c s.log := by
  have hbase := (wf_invariant fun _ _ => True).and (loaded_invariant fun _ _ => True)
  obtain ⟨_, hloaded⟩ := hbase.reachable h
  exact hloaded.pos_eq _ _ hget

/-- It is always inside the array. -/
theorem len_le {s : Reactor} (h : s.Reachable) {c : Nat} {lake : OutBuffer}
    (hget : s.srv.clientOutBuffers.get c = some lake) : lake.len ≤ DATA_LAKE_SIZE := by
  rw [len_eq_load h hget]
  exact load_le _ _

/-! ### The writes of `request_reply` -/

/-- The responses to the completion at hand fit into the output buffer of their client. -/
def WriteFits (s : Reactor) (cqe : Cqe) : Prop :=
  ∀ lake, s.srv.clientOutBuffers.get (clientOf cqe.userData) = some lake →
    lake.len + (s.block (s.received cqe)).length ≤ DATA_LAKE_SIZE

/-- A write of `request_reply` for a stored client fits exactly when the load of the client,
together with the new responses, is at most `DATA_LAKE_SIZE` bytes. -/
theorem write_fits_iff {s : Reactor} (h : s.Reachable) {cqe : Cqe}
    (hstored : (s.srv.clientOutBuffers.get (clientOf cqe.userData)).isSome) :
    s.WriteFits cqe ↔
      load (clientOf cqe.userData) s.log + replySize (s.received cqe) ≤ DATA_LAKE_SIZE := by
  obtain ⟨lake, hget⟩ := Option.isSome_iff_exists.mp hstored
  have hpos := len_eq_load h hget
  constructor
  · intro hfits
    have hle := hfits lake hget
    rwa [block, length_replies, hpos] at hle
  · intro hle lake' hget'
    rw [hget] at hget'
    cases hget'
    rwa [block, length_replies, hpos]

/-- It fits in particular when it fits together with everything since the last flush. -/
theorem write_fits_of_due {s : Reactor} (h : s.Reachable) {cqe : Cqe}
    (hdue : due (clientOf cqe.userData) s.log + replySize (s.received cqe) ≤ DATA_LAKE_SIZE) :
    s.WriteFits cqe := by
  intro lake hget
  rw [block, length_replies, len_eq_load h hget, load_eq_due _ _ (by omega)]
  exact hdue

/-- A block that does not fit is all that is left for the next flush. What waited for it is gone. -/
theorem asSlice_of_not_writeFits {s t : Reactor} {inp : Input} {cqe : Cqe}
    (hd : cqe.Delivers s.srv.ubKernelDma) (hle : cqe.result ≤ BUFFER_SIZE)
    (hover : ¬ s.WriteFits cqe) (h : s.processEntry inp cqe = .ok t) :
    ∃ lake, t.srv.clientOutBuffers.get (clientOf cqe.userData) = some lake ∧
      lake.asSlice = s.block (s.received cqe) := by
  rw [processEntry_delivers hd] at h
  rcases requestReply_cases h with ⟨hlong, _⟩ | ⟨_, lake, cache, hot, hget, hend⟩
  · omega
  have hnot : ¬ lake.Fits (s.block (s.received cqe)) := by
    intro hfits
    refine hover ?_
    intro lake' hget'
    have hsame : lake' = lake := Option.some.inj (hget'.symm.trans hget)
    rw [hsame]
    exact hfits
  have hset : ∀ lake' : OutBuffer, (s.srv.clientOutBuffers.set (clientOf cqe.userData) lake').get
      (clientOf cqe.userData) = some lake' := by
    intro lake'
    have hold : s.srv.clientOutBuffers.get (clientOf cqe.userData) = some lake := hget
    rw [ExternStableVec.get_set, hold, Option.map_some, if_pos rfl]
  refine ⟨_, ?_, SmallLake.asSlice_write_of_not_fits hnot⟩
  split at hend
  · rw [lakes_releaseBuffers hend]
    exact hset _
  · rw [hend]
    exact hset _

/-- The first request of client 100 fits. -/
theorem write_fits_first : ∃ (s : Reactor) (cqe : Cqe), s.Reachable ∧ s.AtHand cqe ∧
    s.WriteFits cqe := by
  obtain ⟨s, hs, hp⟩ := exists_reachable
    (connect ++ .kernel (.recvData 0 0 plaintextRequest true) :: rounds 7)
    (fun s => s.pc = .process && s.cq.head?.any fun cqe => cqe.Delivers s.srv.ubKernelDma
      && (s.srv.clientOutBuffers.get (clientOf cqe.userData)).isSome
      && load (clientOf cqe.userData) s.log + replySize (s.received cqe) ≤ DATA_LAKE_SIZE)
    (by decide +kernel)
  simp only [Bool.and_eq_true, decide_eq_true_eq, Option.any_eq_true] at hp
  obtain ⟨hpc, cqe, hhead, ⟨hd, hstored⟩, hle⟩ := hp
  exact ⟨s, cqe, hs, ⟨hpc, hhead⟩, (write_fits_iff hs hstored).mpr hle⟩

/-! ### Two pipelines in one batch -/

/-- The completion for a pipeline of client 100 in a buffer. -/
def fiftyCqe (bufferId : Nat) : Cqe :=
  ⟨(clientData 100 INIT_REQUEST).packUserData, 1850, cqeFlags bufferId true⟩

/-- 50 JSON responses. -/
theorem replySize_fifty {buf : Slice} (h : buf.bytes = Http.pipeline Http.fifty) :
    replySize buf = 11200 := by
  have hone : ∀ date, (Handler.response date Http.json.method.bytes Http.json.target).length
      = 224 := by
    intro date
    rw [Handler.length_response]
    decide +kernel
  rw [← length_replies Date.zero, Http.replies_of_findsAll h (Http.findsAll_fifty h),
    Http.fifty, List.map_replicate, List.length_flatten, List.map_replicate, hone]
  rfl

/-- The client is connected, and two pipelines of it are fetched in one batch. -/
structure Piled (s : Reactor) : Prop where
  reachable : s.Reachable
  pc_eq : s.pc = .process
  cq_eq : s.cq = [fiftyCqe 0, fiftyCqe 1]
  dma_eq : s.srv.ubKernelDma = false
  released_eq : s.srv.releasedBuffers = []
  lake_eq : s.srv.clientOutBuffers.get 100 = some SmallLake.build
  buffer_eq : ∀ id, id < 2 → (bufferSlice s.srv id 1850).bytes = Http.pipeline Http.fifty

theorem exists_piled : ∃ s, Piled s := by
  obtain ⟨as, s, hrun, hs⟩ : ∃ as s, Run step (fun _ _ => True) ready as s ∧ Visiting 0 s :=
    run_visit (fun _ _ _ => trivial) lull_ready (by decide)
  have hlen : (Http.pipeline Http.fifty).length = 1850 := Http.length_pipeline_fifty
  -- The recv delivers into the buffers 0 and 1.
  let op : ArmedOp := ⟨(clientData 100 INIT_REQUEST).packUserData⟩
  let recv (s : Reactor) (id : Nat) : Reactor := { s with
    srv := { s.srv with
      buffers := s.srv.buffers.write (id * BUFFER_SIZE) (Http.pipeline Http.fifty) }
    kern := s.kern.recvData op 0 id (Http.pipeline Http.fifty).length true }
  let t : Reactor := recv (recv s 0) 1
  have hrecv : ∀ u : Reactor, ∀ id, u.kern.recvs = [op] → id ∈ u.kern.provided →
      Run step (fun _ _ => True) u
        [.kernel (.recvData 0 id (Http.pipeline Http.fifty) true)] (recv u id) := by
    intro u id hop hid
    refine Run.single trivial ?_
    simp [step, kernelStep, hop, hid, hlen, recv, BUFFER_SIZE]
  have h1 := hrecv s 0 hs.recvs_eq (by rw [hs.provided_eq]; decide +kernel)
  have h2 := hrecv (recv s 0) 1 hs.recvs_eq (by
    show 1 ∈ s.kern.provided.erase 0
    rw [hs.provided_eq]
    decide +kernel)
  have hposted : t.kern.cq = [fiftyCqe 0, fiftyCqe 1] := by
    show (s.kern.cq ++ [_]) ++ [_] = _
    rw [hs.posted_eq, hlen]
    rfl
  have hquiet : Resting { t with pc := .process } :=
    ⟨rfl, hs.cq_eq, hs.released_eq, hs.synced_eq, hs.silent⟩
  have h3 : Run step (fun _ _ => True) t (rounds 7) t.fetched :=
    run_fetched (fun _ _ => trivial) hquiet hs.pc_eq (by rw [hposted]; simp) hs.room
  obtain ⟨s₀, bs, hstarted, hready⟩ := reachable_ready
  refine ⟨t.fetched, ⟨s₀, _, hstarted, ((hready.trans hrun).trans
    (h1.trans h2)).trans h3⟩, rfl, hposted, hs.dma_eq,
    hs.released_eq, (hs.lakes_eq 100).trans (if_pos rfl), fun id hid => ?_⟩
  show ((((s.srv.buffers.write (0 * BUFFER_SIZE) _).write (1 * BUFFER_SIZE) _).shift
    (id * BUFFER_SIZE)).read 0 1850) = _
  rw [Mem.read_shift, ← hlen]
  -- The second write starts behind the first buffer.
  obtain rfl | rfl : id = 0 ∨ id = 1 := by omega
  · rw [Mem.read_write_of_le _ _ (by rw [hlen]; decide)]
    exact Mem.read_write_self _ _ _
  · exact Mem.read_write_self _ _ _

/-- Two full pipelines of one client are in a batch. The second does not fit any more. -/
theorem not_write_fits : ¬ ∀ (s : Reactor) (cqe : Cqe), s.Reachable → s.AtHand cqe →
    cqe.Delivers s.srv.ubKernelDma → s.WriteFits cqe := by
  intro hall
  obtain ⟨s, hs⟩ := exists_piled
  have hdelivers : ∀ id, (fiftyCqe id).Delivers false := by
    intro id
    refine ⟨?_, ?_, ?_, ?_⟩
    · show REQ_RESP_OFFSET ≤ (clientData 100 INIT_REQUEST).packUserData
      decide
    · show (0 : Int) < 1850
      decide
    · show uniqOf (clientData 100 INIT_REQUEST).packUserData ≠ SEND_CODE
      decide
    · simp
  -- The responses to the first pipeline fill 11200 bytes.
  have hsize : (s.block (s.received (fiftyCqe 0))).length = 11200 := by
    rw [block, length_replies]
    exact replySize_fifty (hs.buffer_eq 0 (by decide))
  have hfits : (SmallLake.build : OutBuffer).Fits (s.block (s.received (fiftyCqe 0))) := by
    refine SmallLake.fits_of_len_eq_zero rfl ?_
    rw [hsize]
    decide
  have hclient : clientOf (clientData 100 INIT_REQUEST).packUserData = 100 := by decide
  have hlake : s.srv.clientOutBuffers.get (clientOf (fiftyCqe 0).userData)
      = some SmallLake.build := by
    show s.srv.clientOutBuffers.get (clientOf (clientData 100 INIT_REQUEST).packUserData) = _
    rw [hclient]
    exact hs.lake_eq
  obtain ⟨cache, hot, hstep⟩ := serverStep_answered hs.pc_eq hs.cq_eq
    (by rw [hs.dma_eq]; exact hdelivers 0) (by decide) (by decide) hlake
    (by rw [hs.released_eq]; decide) calm
  let lake : OutBuffer := SmallLake.build.write (s.block (s.received (fiftyCqe 0)))
  have hlen : lake.len = 11200 := by
    show (SmallLake.build.write (s.block (s.received (fiftyCqe 0)))).pos = 11200
    rw [SmallLake.write_of_fits hfits, hsize]
    rfl
  let t : Reactor := ({ s with cq := [fiftyCqe 1] } : Reactor).answered 0
    (clientData 100 INIT_REQUEST) 1850 cache hot lake
  have hnext : s.step (.server calm) = some t := hstep
  have hlake' : t.srv.clientOutBuffers.get (clientOf (fiftyCqe 1).userData) = some lake := by
    show (s.srv.clientOutBuffers.set 100 lake).get
      (clientOf (clientData 100 INIT_REQUEST).packUserData) = some lake
    rw [hclient, ExternStableVec.get_set, hs.lake_eq]
    rfl
  -- The second pipeline would need as many again.
  obtain ⟨s₀, as, hstarted, hrun⟩ := hs.reachable
  have hreach : t.Reachable := ⟨s₀, _, hstarted, hrun.trans (Run.single trivial hnext)⟩
  have hfit := hall t (fiftyCqe 1) hreach ⟨hs.pc_eq, rfl⟩
    (by show (fiftyCqe 1).Delivers s.srv.ubKernelDma; rw [hs.dma_eq]; exact hdelivers 1)
    lake hlake'
  have hsecond : replySize (t.received (fiftyCqe 1)) = 11200 := by
    refine replySize_fifty ?_
    show Slice.bytes ⟨Mem.shift (if s.srv.ubKernelDma then _ else _) _, _⟩ = _
    rw [hs.dma_eq]
    exact hs.buffer_eq 1 (by decide)
  rw [block, length_replies, hlen, hsecond] at hfit
  exact absurd hfit (by decide)

end Reactor

end Tachyon
