import Tachyon.Proofs.Descriptors

/-!
# `Tachyon.Proofs.Send`: what a send transmits

`wideband_send` resets the output buffer as soon as the send entry is queued, and the entry
points into the buffer. The bytes stay there until the next response is written over them. So a
send transmits what its entry was built from when no response is written to the client's
buffer while one of its sends is queued or taken (`RepliesAfterSend`). A block that does not fit
behind what the buffer holds goes over bytes that are in no entry yet, so every block has to fit
as well (`BlocksFit`). `OverwritesNothing` is both.

An `Account` is a relation between the sends of a client under way, its output buffer and its
output events. `account_invariant` is the rule: what every step of one client keeps holds for every
client that is still on its connection. `Intact` is such an account: at most one send is under way,
the output buffer is empty as long as one is, and the responses are what was transmitted, then what
is under way, then what is in the buffer.
-/

set_option autoImplicit false

namespace Tachyon

/-! ### The sends of one client -/

/-- The slices of one client in a list of entries. -/
def queuedFor (c : Nat) (queue : List Entry) : List OutSlice :=
  queue.filterMap fun
    | .send _ _ data => if data.slot = c then some data else none
    | _ => none

/-- The slices of one client in a list of taken sends. -/
def takenFor (c : Nat) (sends : List SendOp) : List OutSlice :=
  sends.filterMap fun op => if op.data.slot = c then some op.data else none

/-- The sends of a client that are under way, oldest first. -/
def underWay (v : View) (c : Nat) : List OutSlice :=
  takenFor c v.kern.sends ++ queuedFor c v.queue

theorem queuedFor_append (c : Nat) (q q' : List Entry) :
    queuedFor c (q ++ q') = queuedFor c q ++ queuedFor c q' :=
  List.filterMap_append

theorem takenFor_append (c : Nat) (sends sends' : List SendOp) :
    takenFor c (sends ++ sends') = takenFor c sends ++ takenFor c sends' :=
  List.filterMap_append

/-- Entries other than sends. -/
theorem queuedFor_eq_nil {c : Nat} {q : List Entry}
    (h : ∀ u fd data, .send u fd data ∈ q → data.slot ≠ c) : queuedFor c q = [] := by
  refine List.filterMap_eq_nil_iff.mpr fun e he => ?_
  cases e with
  | send u fd data => exact if_neg (h u fd data he)
  | _ => rfl

theorem takenFor_eq_nil {c : Nat} {sends : List SendOp}
    (h : ∀ op ∈ sends, op.data.slot ≠ c) : takenFor c sends = [] :=
  List.filterMap_eq_nil_iff.mpr fun op hop => if_neg (h op hop)

/-- `process_entry_accept` builds no send. -/
theorem queuedFor_accept (c : Nat) (poll recv : Bool) (fd : RawFd) (u w : UInt64) :
    queuedFor c ((if poll then [.pollAdd fd u] else []) ++ if recv then [.recvMulti fd w] else [])
      = [] := by
  cases poll <;> cases recv <;> rfl

/-- Dropping an operation of another client. -/
theorem takenFor_eraseIdx_of_ne {c : Nat} {sends : List SendOp} {op : SendOp} {i : Nat}
    (hop : sends[i]? = some op) (hne : op.data.slot ≠ c) :
    takenFor c (sends.eraseIdx i) = takenFor c sends := by
  obtain ⟨hlt, hget⟩ := List.getElem?_eq_some_iff.mp hop
  have hsplit : sends = sends.take i ++ op :: sends.drop (i + 1) := by
    rw [← hget, List.getElem_cons_drop, List.take_append_drop]
  rw [List.eraseIdx_eq_take_drop_succ]
  conv_rhs => rw [hsplit]
  simp [takenFor, hne]

/-- Dropping an operation of the client. -/
theorem takenFor_eraseIdx_of_eq {c : Nat} {sends : List SendOp} {op : SendOp} {i : Nat}
    (hop : sends[i]? = some op) (hc : op.data.slot = c) : ∃ before after,
      takenFor c sends = before ++ op.data :: after ∧
      takenFor c (sends.eraseIdx i) = before ++ after := by
  obtain ⟨hlt, hget⟩ := List.getElem?_eq_some_iff.mp hop
  have hsplit : sends = sends.take i ++ op :: sends.drop (i + 1) := by
    rw [← hget, List.getElem_cons_drop, List.take_append_drop]
  refine ⟨takenFor c (sends.take i), takenFor c (sends.drop (i + 1)), ?_, ?_⟩
  · conv_lhs => rw [hsplit]
    simp [takenFor, hc]
  · rw [List.eraseIdx_eq_take_drop_succ, takenFor_append]

/-- `wideband_send` builds one entry for a client with output, and none for the others. -/
theorem queuedFor_sendEntries {fds : ExternStableVec RawFd} {lakes : ExternStableVec OutBuffer}
    {c : Nat} {fd : RawFd} {lake : OutBuffer} (hfd : fds.get c = some fd)
    (hlake : lakes.get c = some lake) :
    queuedFor c (Reactor.sendEntries fds lakes)
      = if lake.len = 0 then [] else [⟨c, lake.len, lake.asSlice⟩] := by
  have hiter : (lakes.iter.filter fun p => p.1 = c) = [(c, lake)] := by
    rw [ExternStableVec.filter_iter, hlake]
    rfl
  have hone : queuedFor c (Reactor.sendEntries fds lakes)
      = (lakes.iter.filter fun p => p.1 = c).filterMap fun p =>
          if p.2.len = 0 then none else some ⟨c, p.2.len, p.2.asSlice⟩ := by
    rw [queuedFor, Reactor.sendEntries, List.filterMap_filterMap, List.filterMap_filter]
    refine List.filterMap_congr fun p _ => ?_
    obtain ⟨c', lake'⟩ := p
    by_cases hc : c' = c
    · subst hc
      by_cases hlen : lake'.len = 0 <;> simp [hlen, hfd]
    · by_cases hlen : lake'.len = 0
      · simp [hlen, hc]
      · cases hget : fds.get c' <;> simp [hlen, hc, hget]
  rw [hone, hiter]
  by_cases hlen : lake.len = 0 <;> simp [hlen]

/-! ### The events of one client -/

/-- The client whose output the event is about. -/
def Event.client : Event → Option Nat
  | .replied c _ => some c
  | .transmitted op _ _ => some (clientOf op.userData)
  | .sendFailed op => some (clientOf op.userData)
  | _ => none

/-- The output events of a client. -/
def outputOf (c : Nat) (log : List Event) : List Event := log.filter fun e => e.client = some c

/-- The bytes an event adds to the responses. -/
def Event.repliedBytes : Event → List UInt8
  | .replied _ bytes => bytes
  | _ => []

/-- The bytes an event adds to what was transmitted. -/
def Event.sentBytes : Event → List UInt8
  | .transmitted _ read sent => (read.getD []).take sent
  | _ => []

/-- The responses produced for a client, in order. -/
def repliedTo (c : Nat) (log : List Event) : List UInt8 :=
  (outputOf c log).flatMap Event.repliedBytes

/-- The bytes transmitted for a client, in order. -/
def sentTo (c : Nat) (log : List Event) : List UInt8 :=
  (outputOf c log).flatMap Event.sentBytes

theorem outputOf_append (c : Nat) (log es : List Event) :
    outputOf c (log ++ es) = outputOf c log ++ outputOf c es :=
  List.filter_append ..

theorem outputOf_of_ne {c : Nat} {es : List Event} (h : ∀ e ∈ es, e.client ≠ some c) :
    outputOf c es = [] :=
  List.filter_eq_nil_iff.mpr fun e he => by simpa using h e he

theorem outputOf_singleton (c : Nat) (e : Event) :
    outputOf c [e] = if e.client = some c then [e] else [] := by
  rw [outputOf, List.filter_singleton]
  by_cases h : e.client = some c <;> simp [h]

/-! ### The account of one client -/

/-- Every transmission of the events read what its entry was built from. -/
def ReadsSnapshot (evs : List Event) : Prop :=
  ∀ op read sent, .transmitted op read sent ∈ evs → read = some op.data.snapshot

/-- Every transmission of the events sent its full length, and none failed. -/
def FullySent (evs : List Event) : Prop :=
  (∀ op read sent, .transmitted op read sent ∈ evs → sent = op.data.len) ∧
    ∀ op, .sendFailed op ∉ evs

/-- The slices of the transmissions have the length that their entries say. -/
def Sized (evs : List Event) : Prop :=
  ∀ op read sent, .transmitted op read sent ∈ evs → op.data.snapshot.length = op.data.len

/-- What the send of an event was built from. -/
def Event.sliceBytes : Event → List UInt8
  | .transmitted op _ _ => op.data.snapshot
  | .sendFailed op => op.data.snapshot
  | _ => []

structure Intact (out : List OutSlice) (lake : OutBuffer) (evs : List Event) : Prop where
  one : out.length ≤ 1
  reset : out ≠ [] → lake.pos = 0
  kept : ∀ data ∈ out, lake.buf.read 0 data.len = data.snapshot
  reads : ReadsSnapshot evs
  sized : Sized evs
  stream : evs.flatMap Event.repliedBytes
    = evs.flatMap Event.sliceBytes ++ out.flatMap OutSlice.snapshot ++ lake.asSlice

theorem fullySent_append {evs new : List Event} :
    FullySent (evs ++ new) ↔ FullySent evs ∧ FullySent new := by
  constructor
  · intro h
    exact ⟨⟨fun op read sent hmem => h.1 op read sent (List.mem_append_left _ hmem),
        fun op hmem => h.2 op (List.mem_append_left _ hmem)⟩,
      ⟨fun op read sent hmem => h.1 op read sent (List.mem_append_right _ hmem),
        fun op hmem => h.2 op (List.mem_append_right _ hmem)⟩⟩
  · rintro ⟨hevs, hnew⟩
    exact ⟨fun op read sent hmem =>
        (List.mem_append.mp hmem).elim (hevs.1 op read sent) (hnew.1 op read sent),
      fun op hmem => (List.mem_append.mp hmem).elim (hevs.2 op) (hnew.2 op)⟩

theorem FullySent.of_append {evs new : List Event} (h : FullySent (evs ++ new)) : FullySent evs :=
  (fullySent_append.mp h).1

theorem not_fullySent_failed (op : SendOp) : ¬ FullySent [.sendFailed op] := by
  simp [FullySent]

theorem readsSnapshot_transmitted (op : SendOp) (sent : Nat) :
    ReadsSnapshot [.transmitted op (some op.data.snapshot) sent] := by
  intro op' read sent' hmem
  cases List.mem_singleton.mp hmem
  rfl

theorem readsSnapshot_append {evs new : List Event} :
    ReadsSnapshot (evs ++ new) ↔ ReadsSnapshot evs ∧ ReadsSnapshot new := by
  constructor
  · intro h
    exact ⟨fun op read sent hmem => h op read sent (List.mem_append_left _ hmem),
      fun op read sent hmem => h op read sent (List.mem_append_right _ hmem)⟩
  · rintro ⟨hevs, hnew⟩ op read sent hmem
    exact (List.mem_append.mp hmem).elim (hevs op read sent) (hnew op read sent)

theorem sized_append {evs new : List Event} : Sized (evs ++ new) ↔ Sized evs ∧ Sized new := by
  constructor
  · intro h
    exact ⟨fun op read sent hmem => h op read sent (List.mem_append_left _ hmem),
      fun op read sent hmem => h op read sent (List.mem_append_right _ hmem)⟩
  · rintro ⟨hevs, hnew⟩ op read sent hmem
    exact (List.mem_append.mp hmem).elim (hevs op read sent) (hnew op read sent)

/-- Sends that were complete transmitted their slices. -/
theorem sentBytes_of_fullySent {evs : List Event} (hfull : FullySent evs)
    (hreads : ReadsSnapshot evs) (hsized : Sized evs) :
    evs.flatMap Event.sentBytes = evs.flatMap Event.sliceBytes := by
  induction evs with
  | nil => rfl
  | cons e rest ih =>
    rw [← List.singleton_append] at hfull hreads hsized
    obtain ⟨hfull, hfulls⟩ := fullySent_append.mp hfull
    obtain ⟨hread, hreads⟩ := readsSnapshot_append.mp hreads
    obtain ⟨hsize, hsized⟩ := sized_append.mp hsized
    have hone : e.sentBytes = e.sliceBytes := by
      cases e with
      | transmitted op read sent =>
        have hmem : Event.transmitted op read sent ∈ [Event.transmitted op read sent] :=
          List.mem_singleton.mpr rfl
        have hlen := hsize op read sent hmem
        rw [Event.sentBytes, hread op read sent hmem, hfull.1 op read sent hmem, ← hlen]
        exact List.take_length
      | sendFailed op => exact absurd hfull (not_fullySent_failed op)
      | _ => rfl
    rw [List.flatMap_cons, List.flatMap_cons, hone, ih hfulls hreads hsized]

namespace Intact

variable {out : List OutSlice} {lake : OutBuffer} {evs : List Event}

/-- With complete sends the responses are what was transmitted, then what is held. -/
theorem account (h : Intact out lake evs) (hfull : FullySent evs) :
    evs.flatMap Event.repliedBytes
      = evs.flatMap Event.sentBytes ++ out.flatMap OutSlice.snapshot ++ lake.asSlice := by
  rw [sentBytes_of_fullySent hfull h.reads h.sized]
  exact h.stream

theorem fresh : Intact [] SmallLake.build [] where
  one := by simp
  reset h := absurd rfl h
  kept := by simp
  reads := by simp [ReadsSnapshot]
  sized := by simp [Sized]
  stream := by simp

/-- The buffer is flushed into an entry. -/
theorem flush (h : Intact out lake evs) (c : Nat) (hlen : lake.len ≠ 0) :
    Intact (out ++ [⟨c, lake.len, lake.asSlice⟩]) lake.resetPos evs := by
  have hout : out = [] := by
    by_contra hne
    exact hlen (h.reset hne)
  subst hout
  refine ⟨by simp, fun _ => rfl, ?_, h.reads, h.sized, ?_⟩
  · intro data hdata
    cases List.mem_singleton.mp hdata
    rfl
  · simpa using h.stream

/-- Responses are written behind the others when nothing is under way. -/
theorem reply (h : Intact [] lake evs) {bytes : List UInt8} (hfits : lake.Fits bytes) (c : Nat) :
    Intact [] (lake.write bytes) (evs ++ [.replied c bytes]) where
  one := by simp
  reset h := absurd rfl h
  kept := by simp
  reads := readsSnapshot_append.mpr ⟨h.reads, by simp [ReadsSnapshot]⟩
  sized := sized_append.mpr ⟨h.sized, by simp [Sized]⟩
  stream := by
    rw [List.flatMap_append, List.flatMap_append, h.stream, SmallLake.asSlice_write hfits]
    simp [Event.repliedBytes, Event.sliceBytes]

/-- A completion without requests appends nothing. -/
theorem reply_nil (h : Intact out lake evs) (hfits : lake.Fits []) (c : Nat) :
    Intact out (lake.write []) (evs ++ [.replied c []]) := by
  have hsame : lake.write [] = lake := by
    rw [SmallLake.write_of_fits hfits, Mem.write_nil]
    rfl
  rw [hsame]
  refine ⟨h.one, h.reset, h.kept, ?_, ?_, ?_⟩
  · exact readsSnapshot_append.mpr ⟨h.reads, by simp [ReadsSnapshot]⟩
  · exact sized_append.mpr ⟨h.sized, by simp [Sized]⟩
  · rw [List.flatMap_append, List.flatMap_append, h.stream]
    simp [Event.repliedBytes, Event.sliceBytes]

/-- At most one send is under way. -/
theorem only {data : OutSlice} {before after : List OutSlice}
    (h : Intact (before ++ data :: after) lake evs) : before = [] ∧ after = [] := by
  have hone := h.one
  rw [List.length_append, List.length_cons] at hone
  exact ⟨List.eq_nil_of_length_eq_zero (by omega), List.eq_nil_of_length_eq_zero (by omega)⟩

/-- The send under way is done. Its slice goes to the events, and the buffer is empty. -/
theorem stream_done {data : OutSlice} {e : Event} (h : Intact [data] lake evs)
    (hslice : e.sliceBytes = data.snapshot) (hreply : e.repliedBytes = []) :
    (evs ++ [e]).flatMap Event.repliedBytes = (evs ++ [e]).flatMap Event.sliceBytes
      ++ ([] : List OutSlice).flatMap OutSlice.snapshot ++ lake.asSlice := by
  rw [List.flatMap_append, List.flatMap_append, h.stream]
  simp [hslice, hreply]

/-- The kernel executes the send under way. -/
theorem transmit {op : SendOp} {before after : List OutSlice}
    (h : Intact (before ++ op.data :: after) lake evs) (sent : Nat) :
    Intact (before ++ after) lake
      (evs ++ [.transmitted op (some (lake.buf.read 0 op.data.len)) sent]) := by
  obtain ⟨rfl, rfl⟩ := h.only
  have hread := h.kept op.data (List.mem_singleton.mpr rfl)
  have hlen : op.data.snapshot.length = op.data.len := by
    rw [← hread, Mem.length_read]
  rw [hread]
  refine ⟨by simp, fun hne => absurd rfl hne, by simp, ?_, ?_, h.stream_done rfl rfl⟩
  · exact readsSnapshot_append.mpr ⟨h.reads, readsSnapshot_transmitted op sent⟩
  · refine sized_append.mpr ⟨h.sized, fun op' read' sent' hmem => ?_⟩
    cases List.mem_singleton.mp hmem
    exact hlen

/-- The send under way fails. -/
theorem fail {op : SendOp} {before after : List OutSlice}
    (h : Intact (before ++ op.data :: after) lake evs) :
    Intact (before ++ after) lake (evs ++ [.sendFailed op]) := by
  obtain ⟨rfl, rfl⟩ := h.only
  refine ⟨by simp, fun hne => absurd rfl hne, by simp, ?_, ?_, h.stream_done rfl rfl⟩
  · exact readsSnapshot_append.mpr ⟨h.reads, by simp [ReadsSnapshot]⟩
  · exact sized_append.mpr ⟨h.sized, by simp [Sized]⟩

end Intact

/-! ### What holds in every run -/

/-- The numbers of connections and of clients grow, and a queued send has the descriptor of its
client. -/
structure Numbered (fds : ExternStableVec RawFd) (queue : List Entry) (k : Kernel)
    (log : List Event) : Prop where
  owner_lt : ∀ fd conn, k.owner fd = some conn → conn < k.nextConn
  accepted_lt : ∀ c fd conn, .accepted c fd (some conn) ∈ log → conn < k.nextConn
  output_lt : ∀ e ∈ log, ∀ c, e.client = some c → c < fds.next
  queued_fd : ∀ u fd data, .send u fd data ∈ queue → ∀ fd', fds.get data.slot = some fd' →
    fd = fd'

namespace Numbered

variable {fds : ExternStableVec RawFd} {queue : List Entry} {k k' : Kernel} {log : List Event}

theorem initial {v : View} (h : v.Initial) : Numbered v.fds v.queue v.kern v.log where
  owner_lt fd conn ho := by
    rw [h.owner_zero fd conn ho, h.nextConn_eq]
    exact Nat.one_pos
  accepted_lt := by simp [h.log_eq]
  output_lt := by simp [h.log_eq]
  queued_fd u fd data hmem := absurd (h.queue_setup _ hmem) id

/-- Entries and events of known clients join. The descriptors stay, or some are closed. -/
theorem step {es : List Entry} {evs : List Event} (h : Numbered fds queue k log)
    (ho : ∀ fd conn, k'.owner fd = some conn → k.owner fd = some conn)
    (hn : k'.nextConn = k.nextConn)
    (hes : ∀ u fd data, .send u fd data ∈ es → fds.get data.slot = some fd)
    (hacc : ∀ c fd o, .accepted c fd o ∉ evs)
    (hevs : ∀ e ∈ evs, ∀ c, e.client = some c → c < fds.next) :
    Numbered fds (queue ++ es) k' (log ++ evs) where
  owner_lt fd conn hfd := by
    rw [hn]
    exact h.owner_lt fd conn (ho fd conn hfd)
  accepted_lt c fd conn hmem := by
    rw [hn]
    exact h.accepted_lt c fd conn ((List.mem_append.mp hmem).resolve_right (hacc c fd _))
  output_lt := List.forall_mem_append.mpr ⟨h.output_lt, hevs⟩
  queued_fd u fd data hmem fd' hget := by
    rcases List.mem_append.mp hmem with hmem | hmem
    · exact h.queued_fd u fd data hmem fd' hget
    · rw [hes u fd data hmem] at hget
      exact Option.some.inj hget

/-- Nothing that the numbers see changes. -/
theorem congr (h : Numbered fds queue k log) (ho : k'.owner = k.owner)
    (hn : k'.nextConn = k.nextConn) : Numbered fds queue k' log where
  owner_lt := by
    rw [ho, hn]
    exact h.owner_lt
  accepted_lt := by
    rw [hn]
    exact h.accepted_lt
  output_lt := h.output_lt
  queued_fd := h.queued_fd

theorem record {evs : List Event} (h : Numbered fds queue k log) (ho : k'.owner = k.owner)
    (hn : k'.nextConn = k.nextConn) (hacc : ∀ c fd o, .accepted c fd o ∉ evs)
    (hevs : ∀ e ∈ evs, ∀ c, e.client = some c → c < fds.next) :
    Numbered fds queue k' (log ++ evs) := by
  have hstep : Numbered fds (queue ++ []) k' (log ++ evs) :=
    h.step (by simp [ho]) hn (by simp) hacc hevs
  rwa [List.append_nil] at hstep

/-- A client is stored. -/
theorem accept (h : Numbered fds queue k log) (fd : RawFd) {es : List Entry}
    (hold : ∀ u fd data, .send u fd data ∈ queue → data.slot < fds.next)
    (hes : ∀ u fd data, .send u fd data ∉ es) :
    Numbered (fds.push fd).2 (queue ++ es) k (log ++ [.accepted fds.next fd (k.owner fd)]) where
  owner_lt := h.owner_lt
  accepted_lt c fd' conn hmem := by
    rcases List.mem_append.mp hmem with hmem | hmem
    · exact h.accepted_lt c fd' conn hmem
    · simp only [List.mem_singleton, Event.accepted.injEq] at hmem
      exact h.owner_lt fd conn hmem.2.2.symm
  output_lt e hmem c hc := by
    rw [ExternStableVec.next_push]
    rcases List.mem_append.mp hmem with hmem | hmem
    · exact Nat.lt_succ_of_lt (h.output_lt e hmem c hc)
    · rw [List.mem_singleton.mp hmem] at hc
      cases hc
  queued_fd u fd' data hmem fd'' hget := by
    rcases List.mem_append.mp hmem with hmem | hmem
    · rw [ExternStableVec.get_push, if_neg (Nat.ne_of_lt (hold u fd' data hmem))] at hget
      exact h.queued_fd u fd' data hmem fd'' hget
    · exact absurd hmem (hes u fd' data)

/-- A client is removed. -/
theorem remove (h : Numbered fds queue k log) (c : Nat) :
    Numbered (fds.remove c).2 queue k log where
  owner_lt := h.owner_lt
  accepted_lt := h.accepted_lt
  output_lt := h.output_lt
  queued_fd u fd data hmem fd' hget := by
    rw [ExternStableVec.get_remove] at hget
    split at hget
    · cases hget
    · exact h.queued_fd u fd data hmem fd' hget

/-- The flush queues one send for each client with output, on the client's descriptor. -/
theorem flush {v : View} (h : Numbered v.fds v.queue v.kern v.log) :
    Numbered v.flush.fds v.flush.queue v.flush.kern v.flush.log := by
  refine h.step (fun _ _ h => h) rfl ?_ (by simp) (by simp [Event.client])
  intro u fd data hmem
  obtain ⟨c, lake, fd', _, _, hfd, heq⟩ := mem_sendEntries.mp hmem
  cases heq
  exact hfd

/-- A descriptor is closed, and its client removed. -/
theorem close (h : Numbered fds queue k log) (c : Nat) {fd : RawFd}
    (ho : k'.owner = Function.update k.owner fd none) (hn : k'.nextConn = k.nextConn) :
    Numbered (fds.remove c).2 queue k' (log ++ [.closed c fd]) := by
  have howner : ∀ fd' conn, k'.owner fd' = some conn → k.owner fd' = some conn := by
    intro fd' conn hfd'
    rw [ho, Function.update_apply] at hfd'
    split at hfd'
    · cases hfd'
    · exact hfd'
  have hstep : Numbered fds (queue ++ []) k' (log ++ [.closed c fd]) :=
    h.step howner hn (by simp) (by simp) (by simp [Event.client])
  rw [List.append_nil] at hstep
  exact hstep.remove c

/-- The kernel accepts a connection. -/
theorem kernelAccept {fd : RawFd} (h : Numbered fds queue k log)
    (ho : k'.owner = Function.update k.owner fd (some k.nextConn))
    (hn : k'.nextConn = k.nextConn + 1) : Numbered fds queue k' log where
  owner_lt fd' conn hfd' := by
    rw [ho, Function.update_apply] at hfd'
    rw [hn]
    split at hfd'
    · cases hfd'
      exact Nat.lt_succ_self _
    · exact Nat.lt_succ_of_lt (h.owner_lt fd' conn hfd')
  accepted_lt c fd' conn hmem := by
    rw [hn]
    exact Nat.lt_succ_of_lt (h.accepted_lt c fd' conn hmem)
  output_lt := h.output_lt
  queued_fd := h.queued_fd

theorem submit {e : Entry} (h : Numbered fds (e :: queue) k log) :
    Numbered fds queue (k.submit e) log := by
  have hrest : Numbered fds queue k log :=
    { h with queued_fd := fun u fd data hmem =>
        h.queued_fd u fd data (List.mem_cons_of_mem _ hmem) }
  exact hrest.congr (k.owner_submit e) (k.nextConn_submit e)

end Numbered

theorem numbered_invariant (guard : Reactor → Act → Prop) :
    Reactor.InvariantOver guard View.Wf fun v => Numbered v.fds v.queue v.kern v.log where
  start _ h := .initial h
  effect s a v hwf hs _ he := by
    -- The slot of a queued send is an index that was given out.
    have hslot : ∀ u fd data, .send u fd data ∈ s.view.queue → data.slot < s.view.fds.next :=
      fun u fd data hmem => (hwf.ring.queue_issued _ hmem).2.1
    cases he with
    | quiet inp hpc => exact hs
    | provide inp ids hpc =>
      have hstep : Numbered s.view.fds (s.view.queue ++ ids.map Entry.provideBuffer) s.view.kern
          (s.view.log ++ []) := hs.step (fun _ _ h => h) rfl (by simp) (by simp) (by simp)
      rwa [List.append_nil] at hstep
    | flush inp hpc => exact hs.flush
    | skip inp cqe hat hnc => exact hs.congr rfl rfl
    | accept inp cqe lakes poll recv hat hu hfd hins hpoll hrecv =>
      refine (hs.accept cqe.result hslot ?_).congr rfl rfl
      intro u fd data hmem
      rcases List.mem_append.mp hmem with hmem | hmem <;> split at hmem <;> simp at hmem
    | close inp cqe hat hc hfd => exact hs.close _ rfl rfl
    | closeStdin inp cqe hat hc hfd => exact absurd hfd (hwf.closeFd_ne_zero _)
    | reply inp cqe buffer lake hat hans hget =>
      refine hs.record rfl rfl (by simp) ?_
      -- Who is answered has an index, since the completion is one of a client.
      have hu : REQ_RESP_OFFSET ≤ cqe.userData := by
        rcases hans with ⟨hd, _⟩ | ⟨hp, _⟩
        · exact hd.1
        · exact hp.1
      have hlt := (hwf.client_issued hat.mem_cq hu).2
      simpa [Event.client] using hlt
    | kernelAccept fd more h0 hfree =>
      have hnew : Numbered s.view.fds s.view.queue s.view.kern (s.view.log ++ []) :=
        hs.record rfl rfl (by simp) (by simp)
      exact hnew.kernelAccept rfl rfl
    | kernelAcceptEnd err => exact hs.record rfl rfl (by simp) (by simp)
    | recvData op i bufferId data more hop hid hpos hle =>
      exact hs.record rfl rfl (by simp) (by simp)
    | recvEnd op i result hop hres => exact hs.record rfl rfl (by simp) (by simp)
    | pollEvent op i mask more hop => exact hs.record rfl rfl (by simp) (by simp)
    | pollEnd op i err hop => exact hs.record rfl rfl (by simp) (by simp)
    | sendDone op i sent hop hsent =>
      have hissued := hwf.ring.sends_issued op (List.mem_of_getElem? hop)
      have hclient := hissued.clientOf_eq hwf.tables.next_le (by decide)
      refine hs.record rfl rfl (by simp) ?_
      simpa [Event.client, hclient] using hissued.2.1
    | sendFail op i err hop herr =>
      have hissued := hwf.ring.sends_issued op (List.mem_of_getElem? hop)
      have hclient := hissued.clientOf_eq hwf.tables.next_le (by decide)
      refine hs.record rfl rfl (by simp) ?_
      simpa [Event.client, hclient] using hissued.2.1
    | sqThread => exact hs
  submit v e q _ hv hq := by
    rw [hq] at hv
    exact hv.submit

/-! ### Clients that stay connected -/

/-- The client is stored, and its descriptor still belongs to the connection it was accepted
on. Connections are not reused, so both held since the client was accepted. -/
def View.Connected (v : View) (c : Nat) : Prop :=
  ∃ fd conn, v.fds.get c = some fd ∧ v.kern.owner fd = some conn ∧
    .accepted c fd (some conn) ∈ v.log

/-- Responses are written to a client's output buffer when none of its sends is under way. -/
def RepliesAfterSend (s : Reactor) : Act → Prop
  | .server _ => ∀ cqe buffer, s.AtHand cqe → s.Answers cqe buffer →
      Http.parseHttpMethodsPaths 50 buffer ≠ [] → underWay s.view (clientOf cqe.userData) = []
  | .kernel _ => True

/-- A block of responses fits behind what the output buffer of its client holds. -/
def BlocksFit (s : Reactor) : Act → Prop
  | .server _ => ∀ cqe buffer lake, s.AtHand cqe → s.Answers cqe buffer →
      s.srv.clientOutBuffers.get (clientOf cqe.userData) = some lake → lake.Fits (s.block buffer)
  | .kernel _ => True

/-- No response is written over bytes that are still to be sent. -/
def OverwritesNothing (s : Reactor) (a : Act) : Prop := RepliesAfterSend s a ∧ BlocksFit s a

/-- The account of every connected client. -/
def SendsIntact (v : View) : Prop :=
  ∀ c, v.Connected c →
    ∃ lake, v.lakes.get c = some lake ∧ Intact (underWay v c) lake (outputOf c v.log)

/-- A relation between the sends of a client under way, its output buffer and its output events
that every step under `guard` keeps. -/
structure Account (guard : Reactor → Act → Prop)
    (P : List OutSlice → OutBuffer → List Event → Prop) : Prop where
  fresh : P [] SmallLake.build []
  flush : ∀ out lake evs c, P out lake evs → lake.len ≠ 0 →
    P (out ++ [⟨c, lake.len, lake.asSlice⟩]) lake.resetPos evs
  reply : ∀ (s : Reactor) inp cqe buffer lake evs, guard s (.server inp) → s.AtHand cqe →
    s.Answers cqe buffer → s.srv.clientOutBuffers.get (clientOf cqe.userData) = some lake →
    P (underWay s.view (clientOf cqe.userData)) lake evs →
    P (underWay s.view (clientOf cqe.userData)) (lake.write (s.block buffer))
      (evs ++ [.replied (clientOf cqe.userData) (s.block buffer)])
  transmit : ∀ op before after lake evs sent, P (before ++ op.data :: after) lake evs →
    sent ≤ op.data.len → P (before ++ after) lake
      (evs ++ [.transmitted op (some (lake.buf.read 0 op.data.len)) sent])
  fail : ∀ op before after lake evs, P (before ++ op.data :: after) lake evs →
    P (before ++ after) lake (evs ++ [.sendFailed op])

/-- The relation holds for every connected client. -/
def Accounted (P : List OutSlice → OutBuffer → List Event → Prop) (v : View) : Prop :=
  ∀ c, v.Connected c →
    ∃ lake, v.lakes.get c = some lake ∧ P (underWay v c) lake (outputOf c v.log)

/-- The relation holds for one client. -/
def AccountOf (P : List OutSlice → OutBuffer → List Event → Prop) (v : View) (c : Nat) : Prop :=
  ∃ lake, v.lakes.get c = some lake ∧ P (underWay v c) lake (outputOf c v.log)

section
variable {v v' : View} {c : Nat} {P : List OutSlice → OutBuffer → List Event → Prop}

theorem View.Connected.back (h : v'.Connected c)
    (hf : ∀ fd, v'.fds.get c = some fd → v.fds.get c = some fd)
    (ho : ∀ fd conn, v'.kern.owner fd = some conn → v.kern.owner fd = some conn)
    (ha : ∀ fd o, .accepted c fd o ∈ v'.log → .accepted c fd o ∈ v.log) : v.Connected c := by
  obtain ⟨fd, conn, hfd, hown, hacc⟩ := h
  exact ⟨fd, conn, hf fd hfd, ho fd conn hown, ha fd _ hacc⟩

/-- The kernel changes the descriptors of no client, and the log gets no acceptance. -/
theorem View.Connected.back_kernel {k : Kernel} {evs : List Event}
    (h : (v.kernel k evs).Connected c) (ho : k.owner = v.kern.owner)
    (ha : ∀ fd o, .accepted c fd o ∉ evs) : v.Connected c := by
  refine h.back (fun _ h => h) (fun fd conn hfd => ?_) (fun fd o hmem => ?_)
  · exact (congrFun ho fd).symm.trans hfd
  · exact (List.mem_append.mp hmem).resolve_right (ha fd o)

/-- A client that is still connected after another was stored. -/
theorem View.Connected.back_accept {fd : RawFd} {lakes : ExternStableVec OutBuffer}
    {es : List Entry} (h : (v.consume.accept fd lakes es).Connected c) (hne : c ≠ v.fds.next) :
    v.Connected c := by
  refine h.back (fun fd' hget => ?_) (fun _ _ h => h) (fun fd' o hmem => ?_)
  · have hpush : ((v.fds.push fd).2).get c = some fd' := hget
    rwa [ExternStableVec.get_push, if_neg hne] at hpush
  · refine (List.mem_append.mp hmem).resolve_right fun hlast => ?_
    simp only [List.mem_singleton, Event.accepted.injEq] at hlast
    exact hne hlast.1

/-- A client that is still connected after a close is not the one that left. -/
theorem View.Connected.back_close {c' : Nat} (h : (v.consume.close c').Connected c) :
    c ≠ c' ∧ v.Connected c := by
  have hget : ∀ fd, (v.consume.close c').fds.get c = some fd →
      c ≠ c' ∧ v.fds.get c = some fd := by
    intro fd hfd
    have hrem : ((v.fds.remove c').2).get c = some fd := hfd
    rw [ExternStableVec.get_remove] at hrem
    split at hrem
    · cases hrem
    · exact ⟨‹_›, hrem⟩
  refine ⟨(hget _ h.choose_spec.choose_spec.1).1, ?_⟩
  refine h.back (fun fd hfd => (hget fd hfd).2) (fun fd conn hown => ?_) (fun fd o hmem => ?_)
  · have hupd : Function.update v.kern.owner (v.closeFd c') none fd = some conn := hown
    rw [Function.update_apply] at hupd
    split at hupd
    · cases hupd
    · exact hupd
  · exact (List.mem_append.mp hmem).resolve_right (by simp)

/-- A connection that arrives is newer than those of the stored clients. -/
theorem View.Connected.back_arrival {fd : RawFd} {more : Bool}
    (hnum : Numbered v.fds v.queue v.kern v.log)
    (h : (v.kernel (v.kern.accept fd more) []).Connected c) : v.Connected c := by
  obtain ⟨fd', conn, hget, hown, hacc⟩ := h
  have hlog : Event.accepted c fd' (some conn) ∈ v.log := by
    rcases List.mem_append.mp hacc with hmem | hmem
    · exact hmem
    · cases hmem
  refine ⟨fd', conn, hget, ?_, hlog⟩
  have hupd : Function.update v.kern.owner fd (some v.kern.nextConn) fd' = some conn := hown
  rw [Function.update_apply] at hupd
  split at hupd
  · cases hupd
    exact absurd (hnum.accepted_lt c fd' _ hlog) (Nat.lt_irrefl _)
  · exact hupd

/-- What does not touch the output of a client keeps its account. -/
theorem Accounted.transfer (h : Accounted P v) (hconn : v.Connected c)
    (hlake : v'.lakes.get c = v.lakes.get c) (hout : underWay v' c = underWay v c)
    (hev : outputOf c v'.log = outputOf c v.log) : AccountOf P v' c := by
  rw [AccountOf, hlake, hout, hev]
  exact h c hconn

/-- The kernel works on, away from the sends and the output events. -/
theorem Accounted.kernel {k : Kernel} {evs : List Event} (h : Accounted P v)
    (hconn : (v.kernel k evs).Connected c) (ho : k.owner = v.kern.owner)
    (hsends : k.sends = v.kern.sends) (ha : ∀ fd o, .accepted c fd o ∉ evs)
    (hev : ∀ e ∈ evs, e.client ≠ some c) : AccountOf P (v.kernel k evs) c := by
  refine h.transfer (hconn.back_kernel ho ha) rfl ?_ ?_
  · show takenFor c k.sends ++ _ = _
    rw [hsends]
    rfl
  · show outputOf c (v.log ++ evs) = _
    rw [outputOf_append, outputOf_of_ne hev, List.append_nil]

/-- The kernel is done with one send, and the log says so. -/
theorem Accounted.settle {k : Kernel} {e : Event} {op : SendOp} {i : Nat} (h : Accounted P v)
    (hconn : (v.kernel k [e]).Connected c) (ho : k.owner = v.kern.owner)
    (hsends : k.sends = v.kern.sends.eraseIdx i) (hop : v.kern.sends[i]? = some op)
    (hcl : e.client = some op.data.slot) (ha : ∀ fd o, .accepted c fd o ≠ e)
    (hstep : ∀ lake evs before after, v.lakes.get op.data.slot = some lake →
      P (before ++ op.data :: after) lake evs → P (before ++ after) lake (evs ++ [e])) :
    AccountOf P (v.kernel k [e]) c := by
  have hold : v.Connected c :=
    hconn.back_kernel ho fun fd o hmem => ha fd o (List.mem_singleton.mp hmem)
  have hout : underWay (v.kernel k [e]) c
      = takenFor c (v.kern.sends.eraseIdx i) ++ queuedFor c v.queue := by
    rw [← hsends]
    rfl
  have hev : outputOf c (v.kernel k [e]).log = outputOf c v.log
      ++ if op.data.slot = c then [e] else [] := by
    show outputOf c (v.log ++ [e]) = _
    rw [outputOf_append, outputOf_singleton, hcl]
    simp
  by_cases hslot : op.data.slot = c
  · obtain ⟨lake, hlake, hacc⟩ := h c hold
    obtain ⟨before, after, htaken, herased⟩ := takenFor_eraseIdx_of_eq hop hslot
    rw [underWay, htaken, List.append_assoc, List.cons_append] at hacc
    rw [AccountOf, hout, herased, hev, if_pos hslot, List.append_assoc]
    subst hslot
    exact ⟨lake, hlake, hstep lake _ before _ hlake hacc⟩
  · refine h.transfer hold rfl ?_ ?_
    · rw [hout, takenFor_eraseIdx_of_ne hop hslot]
      rfl
    · rw [hev, if_neg hslot, List.append_nil]

/-- The flush moves a client's output into its send entry. -/
theorem Accounted.flush {guard : Reactor → Act → Prop} (h : Accounted P v) (hP : Account guard P)
    (hconn : v.flush.Connected c) : AccountOf P v.flush c := by
  have hold : v.Connected c := hconn.back (fun _ h => h) (fun _ _ h => h) (by simp [View.flush])
  obtain ⟨lake, hlake, hint⟩ := h c hold
  obtain ⟨fd, _, hfd, _, _⟩ := hold
  have hev : outputOf c v.flush.log = outputOf c v.log := by
    have hnew : outputOf c [Event.flushed] = [] := rfl
    show outputOf c (_ ++ _) = _
    rw [outputOf_append, hnew, List.append_nil]
  have hout : underWay v.flush c = underWay v c
      ++ if lake.len = 0 then [] else [⟨c, lake.len, lake.asSlice⟩] := by
    show takenFor c _ ++ queuedFor c (_ ++ _) = _
    rw [queuedFor_append, queuedFor_sendEntries hfd hlake, ← List.append_assoc]
    rfl
  have hget : v.flush.lakes.get c = some (if lake.len ≠ 0 then lake.resetPos else lake) := by
    show (Reactor.resetSent v.fds v.lakes).get c = _
    rw [get_resetSent, hlake]
    simp [hfd]
  rw [AccountOf, hev, hout]
  -- A client without output is passed over.
  by_cases hlen : lake.len = 0
  · refine ⟨lake, ?_, ?_⟩
    · rw [hget, if_neg (not_not.mpr hlen)]
    · rw [if_pos hlen, List.append_nil]
      exact hint
  · refine ⟨lake.resetPos, ?_, ?_⟩
    · rw [hget, if_pos hlen]
    · rw [if_neg hlen]
      exact hP.flush _ _ _ c hint hlen

/-- The new client starts with an empty account. -/
theorem Accounted.accept {guard : Reactor → Act → Prop} {fd : RawFd}
    {lakes : ExternStableVec OutBuffer} {es : List Entry} (h : Accounted P v)
    (hP : Account guard P) (hwf : v.Wf) (hnum : Numbered v.fds v.queue v.kern v.log)
    (hins : v.lakes.insert v.fds.next SmallLake.build = some lakes) (hes : queuedFor c es = [])
    (hconn : (v.consume.accept fd lakes es).Connected c) :
    AccountOf P (v.consume.accept fd lakes es) c := by
  obtain ⟨_, _, hget⟩ := ExternStableVec.insert_eq_some hins
  by_cases hnew : c = v.fds.next
  · -- Nothing in the ring or in the log names its index yet.
    subst hnew
    have htaken : takenFor v.fds.next v.kern.sends = [] :=
      takenFor_eq_nil fun op hop => Nat.ne_of_lt (hwf.ring.sends_issued op hop).2.1
    have hqueued : queuedFor v.fds.next v.queue = [] :=
      queuedFor_eq_nil fun u fd data hmem => Nat.ne_of_lt (hwf.ring.queue_issued _ hmem).2.1
    have hev : outputOf v.fds.next v.log = [] :=
      outputOf_of_ne fun e hmem hcl => Nat.lt_irrefl _ (hnum.output_lt e hmem _ hcl)
    refine ⟨SmallLake.build, (hget _).trans (if_pos rfl), ?_⟩
    show P (takenFor _ v.kern.sends ++ queuedFor _ (v.queue ++ _)) _ (outputOf _ (v.log ++ [_]))
    rw [queuedFor_append, htaken, hqueued, hes, outputOf_append, hev]
    exact hP.fresh
  · have hold : v.Connected c := hconn.back_accept hnew
    refine h.transfer hold ((hget c).trans (if_neg hnew)) ?_ ?_
    · show takenFor c _ ++ queuedFor c (_ ++ _) = _
      rw [queuedFor_append, hes, List.append_nil]
      rfl
    · show outputOf c (_ ++ [_]) = _
      rw [outputOf_append]
      exact List.append_nil _

/-- A close takes one client's account away. -/
theorem Accounted.close {c' : Nat} (h : Accounted P v)
    (hconn : (v.consume.close c').Connected c) : AccountOf P (v.consume.close c') c := by
  obtain ⟨hne, hold⟩ := hconn.back_close
  refine h.transfer hold ?_ rfl ?_
  · show ((v.lakes.remove _).2).get c = _
    rw [ExternStableVec.get_remove, if_neg hne]
  · show outputOf c (_ ++ [_]) = _
    rw [outputOf_append]
    exact List.append_nil _

/-- Responses join the output of one client. -/
theorem Accounted.reply {c' : Nat} {lake lake' : OutBuffer} {buffer : Slice} {bytes : List UInt8}
    (h : Accounted P v) (hget : v.lakes.get c' = some lake)
    (hstep : P (underWay v c') lake (outputOf c' v.log) →
      P (underWay v c') lake' (outputOf c' v.log ++ [.replied c' bytes]))
    (hconn : (v.consume.reply c' lake' buffer bytes).Connected c) :
    AccountOf P (v.consume.reply c' lake' buffer bytes) c := by
  have hold : v.Connected c :=
    hconn.back (fun _ h => h) (fun _ _ h => h) fun fd o hmem =>
      (List.mem_append.mp hmem).resolve_right (by simp)
  -- Of the two events only the reply belongs to an account, that of its client.
  have hev : outputOf c [.received c' buffer, .replied c' bytes]
      = if c' = c then [.replied c' bytes] else [] := by
    by_cases hcc : c' = c <;> simp [outputOf, Event.client, hcc]
  by_cases hne : c = c'
  · subst hne
    obtain ⟨lake₀, hlake, hint⟩ := h _ hold
    obtain rfl : lake = lake₀ := Option.some.inj (hget.symm.trans hlake)
    refine ⟨lake', ?_, ?_⟩
    · show (v.lakes.set _ lake').get _ = _
      rw [ExternStableVec.get_set, hget]
      simp
    · show P (underWay v _) lake' (outputOf _ (v.log ++ [_, _]))
      rw [outputOf_append, hev, if_pos rfl]
      exact hstep hint
  · refine h.transfer hold ?_ rfl ?_
    · show (v.lakes.set _ lake').get c = _
      rw [ExternStableVec.get_set]
      simp [hne]
    · show outputOf c (_ ++ [_, _]) = _
      rw [outputOf_append, hev, if_neg (Ne.symm hne), List.append_nil]
      rfl

/-- The kernel takes an entry. A send that it takes is still under way. -/
theorem Accounted.submit {e : Entry} {q : List Entry} (h : Accounted P v)
    (hnum : Numbered v.fds v.queue v.kern v.log) (hq : v.queue = e :: q)
    (hconn : ({ v with queue := q, kern := v.kern.submit e } : View).Connected c) :
    AccountOf P { v with queue := q, kern := v.kern.submit e } c := by
  have hold : v.Connected c := by
    refine hconn.back (fun _ h => h) (fun fd conn hown => ?_) (fun _ _ h => h)
    rwa [Kernel.owner_submit] at hown
  refine h.transfer hold rfl ?_ rfl
  show takenFor c (v.kern.submit e).sends ++ queuedFor c q = takenFor c v.kern.sends ++ _
  rw [hq]
  obtain ⟨fd, conn, hfd, hown, _⟩ := hold
  cases e with
  | send u fd' data =>
    by_cases hslot : data.slot = c
    · -- The descriptor of the entry is the client's, so the kernel takes the send.
      have hfd' : fd' = fd := hnum.queued_fd u fd' data (hq ▸ List.mem_cons_self) fd
        (by rw [hslot]; exact hfd)
      subst hfd'
      simp [Kernel.submit, hown, takenFor, queuedFor, hslot]
    · have htaken : takenFor c (v.kern.submit (.send u fd' data)).sends
          = takenFor c v.kern.sends := by
        cases ho : v.kern.owner fd' <;> simp [Kernel.submit, ho, takenFor, Kernel.post, hslot]
      rw [htaken]
      simp [queuedFor, hslot]
  | provideBuffer id => rfl
  | acceptMulti => rfl
  | recvMulti fd' u =>
    cases ho : v.kern.owner fd' <;> simp [Kernel.submit, ho, Kernel.post, queuedFor]
  | pollAdd fd' u =>
    cases ho : v.kern.owner fd' <;> simp [Kernel.submit, ho, Kernel.post, queuedFor]

end

/-- An account is kept for every connected client, whatever happens to the others. -/
theorem account_invariant {guard : Reactor → Act → Prop}
    {P : List OutSlice → OutBuffer → List Event → Prop} (hP : Account guard P) :
    Reactor.InvariantOver guard (fun v => v.Wf ∧ Numbered v.fds v.queue v.kern v.log)
      (Accounted P) where
  start v h := by
    rintro c ⟨fd, conn, _, _, hacc⟩
    rw [h.log_eq] at hacc
    cases hacc
  effect s a v hB hs hg he := by
    obtain ⟨hwf, hnum⟩ := hB
    have hn := hwf.tables.next_le
    intro c hconn
    cases he with
    | quiet inp hpc => exact hs c hconn
    | provide inp ids hpc =>
      have hout : underWay (s.view.push (ids.map Entry.provideBuffer)) c = underWay s.view c := by
        have hnew : queuedFor c (ids.map Entry.provideBuffer) = [] := queuedFor_eq_nil (by simp)
        show takenFor c _ ++ queuedFor c (_ ++ _) = _
        rw [queuedFor_append, hnew, List.append_nil]
        rfl
      exact hs.transfer hconn rfl hout rfl
    | flush inp hpc => exact hs.flush hP hconn
    | skip inp cqe hat hnc => exact hs.transfer hconn rfl rfl rfl
    | accept inp cqe lakes poll recv hat hu hfd hins hpoll hrecv =>
      exact hs.accept hP hwf hnum hins (queuedFor_accept c poll recv cqe.result _ _) hconn
    | close inp cqe hat hclose hfd => exact hs.close hconn
    | closeStdin inp cqe hat hclose hfd => exact absurd hfd (hwf.closeFd_ne_zero _)
    | reply inp cqe buffer lake hat hans hget =>
      exact hs.reply hget (hP.reply s inp cqe buffer lake _ hg hat hans hget) hconn
    | kernelAccept fd more h0 hfree =>
      have hold : s.view.Connected c := hconn.back_arrival hnum
      exact hs.transfer hold rfl rfl (by simp [View.kernel])
    | kernelAcceptEnd err => exact hs.kernel hconn rfl rfl (by simp) (by simp)
    | recvData op i bufferId data more hop hid hpos hle =>
      exact hs.kernel hconn rfl rfl (by simp) (by simp)
    | recvEnd op i result hop hres => exact hs.kernel hconn rfl rfl (by simp) (by simp)
    | pollEvent op i mask more hop => exact hs.kernel hconn rfl rfl (by simp) (by simp)
    | pollEnd op i err hop => exact hs.kernel hconn rfl rfl (by simp) (by simp)
    | sendDone op i sent hop hsent =>
      have hclient := (hwf.ring.sends_issued op (List.mem_of_getElem? hop)).clientOf_eq hn
        (by decide)
      refine hs.settle hconn rfl rfl hop (congrArg some hclient) (by simp) ?_
      intro lake evs before after hlake hint
      -- The buffer of a connected client is there, so the send reads it.
      have hread : Reactor.readOut s.srv op.data = some (lake.buf.read 0 op.data.len) :=
        congrArg (Option.map _) hlake
      rw [hread]
      exact hP.transmit op before after lake evs sent hint hsent
    | sendFail op i err hop herr =>
      have hclient := (hwf.ring.sends_issued op (List.mem_of_getElem? hop)).clientOf_eq hn
        (by decide)
      exact hs.settle hconn rfl rfl hop (congrArg some hclient) (by simp)
        fun lake evs before after _ hint => hP.fail op before after lake evs hint
    | sqThread => exact hs c hconn
  submit v e q hB hv hq := fun c hconn => hv.submit hB.2 hq hconn

/-- Exact sends are an account as long as no response is written over bytes to be sent. -/
theorem intact_account : Account OverwritesNothing Intact where
  fresh := Intact.fresh
  flush out lake evs c h hlen := h.flush c hlen
  reply s inp cqe buffer lake evs hg hat hans hget h := by
    obtain ⟨hafter, hfit⟩ := hg
    have hfits := hfit cqe buffer lake hat hans hget
    by_cases hreq : Http.parseHttpMethodsPaths 50 buffer = []
    · have hnil : s.block buffer = [] := by rw [Reactor.block, hreq, replies_nil]
      rw [hnil] at hfits ⊢
      exact h.reply_nil hfits _
    · have hfree := hafter cqe buffer hat hans hreq
      rw [hfree] at h ⊢
      exact h.reply hfits _
  transmit op before after lake evs sent h _ := h.transmit sent
  fail op before after lake evs h := h.fail

theorem sendsIntact_invariant : Reactor.InvariantOver OverwritesNothing
    (fun v => v.Wf ∧ Numbered v.fds v.queue v.kern v.log) SendsIntact :=
  account_invariant intact_account

/-! ### The sends of a connected client -/

/-- Every send of a connected client read the bytes that were pending when its entry was built.
When all of them sent their full length, what was transmitted is a prefix of the responses. -/
def SendsExact (s : Reactor) : Prop :=
  ∀ c, s.view.Connected c → ReadsSnapshot (outputOf c s.log) ∧
    (FullySent (outputOf c s.log) → sentTo c s.log <+: repliedTo c s.log)

/-- As long as no response is written over bytes to be sent, every send transmits what its entry
was built from. -/
theorem sends_exact {s : Reactor} (h : s.ReachableUnder OverwritesNothing) : SendsExact s := by
  have hbase := (wf_invariant OverwritesNothing).and (numbered_invariant OverwritesNothing)
  obtain ⟨_, hsends⟩ := (hbase.and sendsIntact_invariant).reachable h
  intro c hconn
  obtain ⟨lake, _, hint⟩ := hsends c hconn
  refine ⟨hint.reads, fun hfull => ?_⟩
  have hacc : repliedTo c s.log = sentTo c s.log ++ _ ++ _ := hint.account hfull
  rw [hacc, List.append_assoc]
  exact List.prefix_append _ _

/-- Client `c` is stored on the descriptor `fd`, with the connection `conn`. -/
def connectedOn (s : Reactor) (c : Nat) (fd : RawFd) (conn : ConnId) : Bool :=
  s.srv.clientFds.get c = some fd && s.kern.owner fd = some conn &&
    s.log.any fun e => match e with
      | .accepted c' fd' conn' => c' = c && fd' = fd && conn' = some conn
      | _ => false

theorem connected_of_connectedOn {s : Reactor} {c : Nat} {fd : RawFd} {conn : ConnId}
    (h : connectedOn s c fd conn = true) : s.view.Connected c := by
  simp only [connectedOn, Bool.and_eq_true, decide_eq_true_eq, List.any_eq_true] at h
  obtain ⟨⟨hfd, hown⟩, e, hmem, he⟩ := h
  refine ⟨fd, conn, hfd, hown, ?_⟩
  cases e with
  | accepted c' fd' conn' =>
    simp only [Bool.and_eq_true, decide_eq_true_eq] at he
    obtain ⟨⟨rfl, rfl⟩, rfl⟩ := he
    exact hmem
  | _ => cases he

/-- No send of the client at hand is under way, and its output buffer has room for a block. -/
def noneUnderWay (s : Reactor) : Act → Bool
  | .server _ => s.cq.head?.all fun cqe => (underWay s.view (clientOf cqe.userData)).isEmpty
      && (s.srv.clientOutBuffers.get (clientOf cqe.userData)).all fun lake =>
        lake.len + 11200 ≤ DATA_LAKE_SIZE
  | .kernel _ => true

theorem overwritesNothing_of_noneUnderWay {s : Reactor} {a : Act} (h : noneUnderWay s a = true) :
    OverwritesNothing s a := by
  cases a with
  | kernel k => exact ⟨trivial, trivial⟩
  | server inp =>
    have hhead : ∀ cqe, s.AtHand cqe → underWay s.view (clientOf cqe.userData) = [] ∧
        ∀ lake, s.srv.clientOutBuffers.get (clientOf cqe.userData) = some lake →
          lake.len + 11200 ≤ DATA_LAKE_SIZE := by
      intro cqe hat
      simpa [noneUnderWay, hat.2, Option.all_eq_true] using h
    refine ⟨fun cqe buffer hat _ _ => (hhead cqe hat).1, ?_⟩
    intro cqe buffer lake hat _ hget
    exact Nat.le_trans (Nat.add_le_add_left (s.length_block_le buffer) _)
      ((hhead cqe hat).2 lake hget)

/-- Nothing is answered on the way to the first wait. -/
theorem overwritesNothing_of_booting {s : Reactor} (inp : Input) (h : s.Booting) :
    OverwritesNothing s (.server inp) := by
  have hnone : ∀ cqe buffer, s.AtHand cqe → ¬ s.Answers cqe buffer := by
    intro cqe buffer hat hans
    have hcqe := h.cq_eq cqe (List.mem_of_mem_head? hat.2)
    rcases hans with ⟨hd, _⟩ | ⟨hp, _⟩
    · exact absurd hd.1 (by rw [hcqe]; decide)
    · exact absurd hp.1 (by rw [hcqe]; decide)
  exact ⟨fun cqe buffer hat hans _ => absurd hans (hnone cqe buffer hat),
    fun cqe buffer lake hat hans _ => absurd hans (hnone cqe buffer hat)⟩

theorem ready_overwritesNothing : Reactor.ready.ReachableUnder OverwritesNothing :=
  Reactor.reachableUnder_ready fun _ inp hb => overwritesNothing_of_booting inp hb

/-- Client 100 is served, and its send executes. -/
theorem sends_exact_served : ∃ s, Reactor.ReachableUnder OverwritesNothing s ∧
    connectedOn s 100 5 1 = true ∧ (sentTo 100 s.log).length = 204 ∧ SendsExact s := by
  obtain ⟨s, hs, hp⟩ := Reactor.exists_of_exec ready_overwritesNothing noneUnderWay
    (fun _ _ h => overwritesNothing_of_noneUnderWay h)
    (Reactor.connect ++ Reactor.serve ++ [.kernel (.sendDone 0 204)])
    (fun s => connectedOn s 100 5 1 && (sentTo 100 s.log).length = 204) (by decide +kernel)
  simp only [Bool.and_eq_true, decide_eq_true_eq] at hp
  exact ⟨s, hs, hp.1, hp.2, sends_exact hs⟩

def jsonRequest : List UInt8 := ascii "GET /json HTTP/1.1\r\nHost: tachyon\r\n\r\n"

/-- The log has a send of the client that did not read what its entry was built from. -/
def Event.isTorn (c : Nat) : Event → Bool
  | .transmitted op read _ => clientOf op.userData = c && read ≠ some op.data.snapshot
  | _ => false

/-- The next request of client 100 arrives while its send is taken and not executed. Its
response goes over the bytes of the first. -/
theorem not_sends_exact : ¬ ∀ s, Reactor.Reachable s → SendsExact s := by
  intro hall
  obtain ⟨s, hs, hp⟩ := Reactor.exists_reachable
    (Reactor.connect ++ Reactor.serve
      ++ .kernel (.recvData 0 1 jsonRequest true) :: Reactor.rounds 8
      ++ [.kernel (.sendDone 0 204)])
    (fun s => connectedOn s 100 5 1 && s.log.any (Event.isTorn 100)) (by decide +kernel)
  simp only [Bool.and_eq_true, List.any_eq_true] at hp
  obtain ⟨hconn, e, hmem, he⟩ := hp
  obtain ⟨hreads, _⟩ := hall s hs 100 (connected_of_connectedOn hconn)
  cases e with
  | transmitted op read sent =>
    simp only [Event.isTorn, Bool.and_eq_true, decide_eq_true_eq] at he
    obtain ⟨hclient, hne⟩ := he
    refine hne (hreads op read sent (List.mem_filter.mpr ⟨hmem, ?_⟩))
    simp [Event.client, hclient]
  | _ => cases he

end Tachyon
