import Tachyon.Proofs.Boot
import Tachyon.Proofs.Invariant

/-!
# `Tachyon.Proofs.Tables`: the two client tables and the user data in the ring

Three facts hold in every reachable state, and the later files build on them.

* `Tables`: the slots below 100 are reserved, and from 100 on a client is in both tables or
  in none. Every stored descriptor is positive, so `close_connection` never sees descriptor 0.
* `Ring`: every entry, operation and completion of a client carries the user data of an index
  that was given out, with the operation code of its kind.
* `reachable_wf`: both hold in every reachable state.
-/

set_option autoImplicit false

namespace Tachyon

/-! ### The tables -/

/-- The client tables. -/
structure Tables (fds : ExternStableVec RawFd) (lakes : ExternStableVec OutBuffer) : Prop where
  next_ge : 100 ≤ fds.next
  next_le : fds.next ≤ 65535
  capacity_eq : lakes.capacity = 65535
  reserved : ∀ c, c < 100 → lakes.get c = none
  paired : ∀ c, 100 ≤ c → (fds.get c = none ↔ lakes.get c = none)
  fd_pos : ∀ c fd, fds.get c = some fd → 0 < fd

theorem get_resetSent (fds : ExternStableVec RawFd) (lakes : ExternStableVec OutBuffer)
    (c : Nat) :
    (Reactor.resetSent fds lakes).get c = (lakes.get c).map fun lake =>
      if lake.len ≠ 0 ∧ (fds.get c).isSome then lake.resetPos else lake := by
  rw [Reactor.resetSent, ExternStableVec.get_mapIdx]
  congr 1
  funext lake
  cases fds.get c <;> by_cases h : lake.len = 0 <;> simp [h]

/-- A send entry comes from a client with output and a known descriptor. -/
theorem mem_sendEntries {fds : ExternStableVec RawFd} {lakes : ExternStableVec OutBuffer}
    {e : Entry} : e ∈ Reactor.sendEntries fds lakes ↔
      ∃ c lake fd, lakes.get c = some lake ∧ lake.len ≠ 0 ∧ fds.get c = some fd ∧
        e = .send (clientData c SEND_CODE).packUserData fd ⟨c, lake.len, lake.asSlice⟩ := by
  simp only [Reactor.sendEntries, List.mem_filterMap, Prod.exists]
  constructor
  · rintro ⟨c, lake, hmem, h⟩
    split at h
    · cases h
    · rename_i hlen
      obtain ⟨fd, hfd, rfl⟩ := Option.map_eq_some_iff.mp h
      exact ⟨c, lake, fd, ExternStableVec.mem_iter.mp hmem, hlen, hfd, rfl⟩
  · rintro ⟨c, lake, fd, hget, hlen, hfd, rfl⟩
    refine ⟨c, lake, ExternStableVec.mem_iter.mpr hget, ?_⟩
    rw [if_neg hlen, hfd]
    rfl

namespace Tables

variable {fds : ExternStableVec RawFd} {lakes : ExternStableVec OutBuffer}

theorem initial {v : View} (h : v.Initial) : Tables v.fds v.lakes := by
  rw [h.lakes_eq]
  exact
    { next_ge := by rw [h.fds_next]
      next_le := by
        rw [h.fds_next]
        decide
      capacity_eq := rfl
      reserved := fun _ _ => rfl
      paired := by
        intro c hc
        rw [h.fds_get, if_neg (by omega)]
        simp
      fd_pos := by
        intro c fd hfd
        rw [h.fds_get] at hfd
        split at hfd
        · cases hfd
          decide
        · cases hfd }

theorem lt_next (h : Tables fds lakes) {c : Nat} {lake : OutBuffer}
    (hc : lakes.get c = some lake) : 100 ≤ c ∧ c < fds.next := by
  have hge : 100 ≤ c := by
    by_contra hlt
    rw [h.reserved c (by omega)] at hc
    cases hc
  cases hfd : fds.get c with
  | none =>
    rw [(h.paired c hge).mp hfd] at hc
    cases hc
  | some fd => exact ⟨hge, ExternStableVec.lt_next_of_get hfd⟩

/-- A client with an output buffer has a descriptor. -/
theorem exists_fd (h : Tables fds lakes) {c : Nat} {lake : OutBuffer}
    (hl : lakes.get c = some lake) : ∃ fd, fds.get c = some fd := by
  cases hfd : fds.get c with
  | some fd => exact ⟨fd, rfl⟩
  | none =>
    rw [(h.paired c (h.lt_next hl).1).mp hfd] at hl
    cases hl

theorem flush (h : Tables fds lakes) : Tables fds (Reactor.resetSent fds lakes) where
  next_ge := h.next_ge
  next_le := h.next_le
  capacity_eq := h.capacity_eq
  reserved c hc := by rw [get_resetSent, h.reserved c hc]; rfl
  paired c hc := by rw [get_resetSent, Option.map_eq_none_iff, h.paired c hc]
  fd_pos := h.fd_pos

theorem accept (h : Tables fds lakes) {fd : RawFd} (hfd : 0 < fd) {lake : OutBuffer}
    {lakes' : ExternStableVec OutBuffer} (hins : lakes.insert fds.next lake = some lakes') :
    Tables (fds.push fd).2 lakes' := by
  obtain ⟨hlt, hcap, hget⟩ := ExternStableVec.insert_eq_some hins
  rw [h.capacity_eq] at hlt
  have hge := h.next_ge
  exact
    { next_ge := by
        rw [ExternStableVec.next_push]
        omega
      next_le := hlt
      capacity_eq := by rw [hcap, h.capacity_eq]
      reserved := by
        intro c hc
        rw [hget, if_neg (by omega), h.reserved c hc]
      paired := by
        -- Both tables get the new index in one step.
        intro c hc
        rw [ExternStableVec.get_push, hget]
        by_cases hcn : c = fds.next
        · simp [hcn]
        · rw [if_neg hcn, if_neg hcn, h.paired c hc]
      fd_pos := by
        intro c fd' hget'
        rw [ExternStableVec.get_push] at hget'
        split at hget'
        · cases hget'
          exact hfd
        · exact h.fd_pos c fd' hget' }

theorem remove (h : Tables fds lakes) (c : Nat) :
    Tables (fds.remove c).2 (lakes.remove c).2 where
  next_ge := h.next_ge
  next_le := h.next_le
  capacity_eq := h.capacity_eq
  reserved c' hc' := by
    rw [ExternStableVec.get_remove]
    split
    · rfl
    · exact h.reserved c' hc'
  paired c' hc' := by
    rw [ExternStableVec.get_remove, ExternStableVec.get_remove]
    split
    · exact ⟨fun _ => rfl, fun _ => rfl⟩
    · exact h.paired c' hc'
  fd_pos c' fd' hget := by
    rw [ExternStableVec.get_remove] at hget
    split at hget
    · cases hget
    · exact h.fd_pos c' fd' hget

theorem reply (h : Tables fds lakes) (c : Nat) (lake : OutBuffer) :
    Tables fds (lakes.set c lake) where
  next_ge := h.next_ge
  next_le := h.next_le
  capacity_eq := h.capacity_eq
  reserved c' hc' := by rw [ExternStableVec.get_set, h.reserved c' hc']; rfl
  paired c' hc' := by rw [ExternStableVec.get_set, Option.map_eq_none_iff, h.paired c' hc']
  fd_pos := h.fd_pos

end Tables

theorem tables_invariant :
    Reactor.Invariant (fun _ _ => True) fun v => Tables v.fds v.lakes where
  start _ h := .initial h
  effect s a v _ hs _ he := by
    cases he with
    | flush inp hpc => exact hs.flush
    | accept inp cqe lakes poll recv hat hu hfd hins hpoll hrecv => exact hs.accept hfd hins
    | close inp cqe hat hc hfd => exact hs.remove _
    | closeStdin inp cqe hat hc hfd => exact hs.remove _
    | reply inp cqe buffer lake hat hans hget => exact hs.reply _ _
    | _ => exact hs
  submit _ _ _ _ hv _ := hv

/-! ### The user data in the ring -/

/-- The user data of an index that was given out. -/
def Issued (next : Nat) (w : UInt16) (c : Nat) (userData : UInt64) : Prop :=
  100 ≤ c ∧ c < next ∧ userData = (clientData c w).packUserData

theorem Issued.mono {next : Nat} {w : UInt16} {c : Nat} {u : UInt64} (h : Issued next w c u) :
    Issued (next + 1) w c u :=
  ⟨h.1, Nat.lt_succ_of_lt h.2.1, h.2.2⟩

section
variable {next : Nat} {w : UInt16} {c : Nat} {u : UInt64} (hn : next ≤ 65535)
  (hw : w.toNat < 0x8000) (h : Issued next w c u)
include hn hw h

theorem Issued.clientOf_eq : clientOf u = c := by
  obtain ⟨h1, h2, rfl⟩ := h
  exact clientOf_clientData (by omega) (by omega) hw

theorem Issued.uniqOf_eq : uniqOf u = w := by
  obtain ⟨h1, h2, rfl⟩ := h
  exact uniqOf_clientData (by omega) (by omega) hw

theorem Issued.offset_le : REQ_RESP_OFFSET ≤ u := by
  obtain ⟨h1, h2, rfl⟩ := h
  exact offset_le_clientData (by omega) (by omega) hw

end

/-- The user data of an entry is of its kind. -/
def Entry.IssuedAt (next : Nat) (dma : Bool) : Entry → Prop
  | .provideBuffer _ => True
  | .acceptMulti => True
  | .recvMulti _ u => ∃ c, Issued next INIT_REQUEST c u
  | .pollAdd _ u => dma = true ∧ ∃ c, Issued next POLL_EVENT c u
  | .send u _ data => Issued next SEND_CODE data.slot u

/-- The user data of a completion is of a kind. A completed send has failed. -/
def Cqe.IssuedAt (next : Nat) (dma : Bool) (cqe : Cqe) : Prop :=
  cqe.userData = BUFFER_REGISTER_CODE ∨ cqe.userData = CODE_ACCEPT ∨
    (∃ c, Issued next INIT_REQUEST c cqe.userData) ∨
    (dma = true ∧ ∃ c, Issued next POLL_EVENT c cqe.userData) ∨
    (cqe.result < 0 ∧ ∃ c, Issued next SEND_CODE c cqe.userData)

theorem Entry.Setup.issuedAt {e : Entry} (h : e.Setup) (next : Nat) (dma : Bool) :
    e.IssuedAt next dma := by
  cases e <;> simp_all [Entry.Setup, Entry.IssuedAt]

theorem Entry.IssuedAt.mono {next : Nat} {dma : Bool} {e : Entry} (h : e.IssuedAt next dma) :
    e.IssuedAt (next + 1) dma := by
  cases e with
  | provideBuffer id => trivial
  | acceptMulti => trivial
  | recvMulti fd u => exact ⟨h.choose, h.choose_spec.mono⟩
  | pollAdd fd u => exact ⟨h.1, h.2.choose, h.2.choose_spec.mono⟩
  | send u fd data => exact Issued.mono h

theorem Cqe.IssuedAt.mono {next : Nat} {dma : Bool} {cqe : Cqe} (h : cqe.IssuedAt next dma) :
    cqe.IssuedAt (next + 1) dma := by
  rcases h with h | h | ⟨c, h⟩ | ⟨hd, c, h⟩ | ⟨hr, c, h⟩
  · exact .inl h
  · exact .inr (.inl h)
  · exact .inr (.inr (.inl ⟨c, h.mono⟩))
  · exact .inr (.inr (.inr (.inl ⟨hd, c, h.mono⟩)))
  · exact .inr (.inr (.inr (.inr ⟨hr, c, h.mono⟩)))

/-- Everything in the ring carries user data of its kind. -/
structure Ring (next : Nat) (dma : Bool) (queue : List Entry) (k : Kernel) : Prop where
  queue_issued : ∀ e ∈ queue, e.IssuedAt next dma
  recvs_issued : ∀ op ∈ k.recvs, ∃ c, Issued next INIT_REQUEST c op.userData
  polls_issued : ∀ op ∈ k.polls, dma = true ∧ ∃ c, Issued next POLL_EVENT c op.userData
  sends_issued : ∀ op ∈ k.sends, Issued next SEND_CODE op.data.slot op.userData
  cq_issued : ∀ cqe ∈ k.cq, cqe.IssuedAt next dma

namespace Ring

variable {next : Nat} {dma : Bool} {queue : List Entry} {k : Kernel}

theorem mono (h : Ring next dma queue k) : Ring (next + 1) dma queue k where
  queue_issued e he := (h.queue_issued e he).mono
  recvs_issued op hop := (h.recvs_issued op hop).imp fun _ hc => hc.mono
  polls_issued op hop := (h.polls_issued op hop).imp id fun ⟨c, hc⟩ => ⟨c, hc.mono⟩
  sends_issued op hop := (h.sends_issued op hop).mono
  cq_issued cqe hc := (h.cq_issued cqe hc).mono

theorem push (h : Ring next dma queue k) {es : List Entry}
    (hes : ∀ e ∈ es, e.IssuedAt next dma) : Ring next dma (queue ++ es) k :=
  { h with queue_issued := List.forall_mem_append.mpr ⟨h.queue_issued, hes⟩ }

theorem consume (h : Ring next dma queue k) :
    Ring next dma queue { k with cq := k.cq.tail } :=
  { h with cq_issued := fun cqe hc => h.cq_issued cqe (List.mem_of_mem_tail hc) }

/-- The kernel drops operations. -/
theorem drop (h : Ring next dma queue k) {k' : Kernel} (hc : k'.cq = k.cq)
    (hr : k'.recvs ⊆ k.recvs) (hp : k'.polls ⊆ k.polls) (hs : k'.sends ⊆ k.sends) :
    Ring next dma queue k' where
  queue_issued := h.queue_issued
  recvs_issued op hop := h.recvs_issued op (hr hop)
  polls_issued op hop := h.polls_issued op (hp hop)
  sends_issued op hop := h.sends_issued op (hs hop)
  cq_issued := by rw [hc]; exact h.cq_issued

/-- The kernel posts a completion, and drops operations. -/
theorem post (h : Ring next dma queue k) {k' : Kernel} {cqe : Cqe}
    (hcq : k'.cq = k.cq ++ [cqe]) (hc : cqe.IssuedAt next dma)
    (hr : k'.recvs ⊆ k.recvs) (hp : k'.polls ⊆ k.polls) (hs : k'.sends ⊆ k.sends) :
    Ring next dma queue k' where
  queue_issued := h.queue_issued
  recvs_issued op hop := h.recvs_issued op (hr hop)
  polls_issued op hop := h.polls_issued op (hp hop)
  sends_issued op hop := h.sends_issued op (hs hop)
  cq_issued := by
    rw [hcq]
    exact List.forall_mem_append.mpr ⟨h.cq_issued, List.forall_mem_singleton.mpr hc⟩

/-- The kernel takes an entry. -/
theorem submit {e : Entry} (h : Ring next dma (e :: queue) k) :
    Ring next dma queue (k.submit e) := by
  obtain ⟨he, hq⟩ := List.forall_mem_cons.mp h.queue_issued
  have hrest : Ring next dma queue k := { h with queue_issued := hq }
  cases e with
  | provideBuffer id =>
    exact hrest.post rfl (.inl rfl) (List.Subset.refl _) (List.Subset.refl _)
      (List.Subset.refl _)
  | acceptMulti =>
    exact hrest.drop rfl (List.Subset.refl _) (List.Subset.refl _) (List.Subset.refl _)
  | recvMulti fd u =>
    simp only [Kernel.submit]
    -- On a closed descriptor the entry is answered at once, with its own user data.
    cases k.owner fd with
    | none =>
      exact hrest.post rfl (.inr (.inr (.inl he))) (List.Subset.refl _) (List.Subset.refl _)
        (List.Subset.refl _)
    | some conn =>
      exact { hrest with
        recvs_issued := List.forall_mem_append.mpr
          ⟨h.recvs_issued, List.forall_mem_singleton.mpr he⟩ }
  | pollAdd fd u =>
    simp only [Kernel.submit]
    cases k.owner fd with
    | none =>
      exact hrest.post rfl (.inr (.inr (.inr (.inl he)))) (List.Subset.refl _)
        (List.Subset.refl _) (List.Subset.refl _)
    | some conn =>
      exact { hrest with
        polls_issued := List.forall_mem_append.mpr
          ⟨h.polls_issued, List.forall_mem_singleton.mpr he⟩ }
  | send u fd data =>
    simp only [Kernel.submit]
    cases k.owner fd with
    | none =>
      have hneg : (-EBADF : Int) < 0 := by decide
      exact hrest.post rfl (.inr (.inr (.inr (.inr ⟨hneg, _, he⟩)))) (List.Subset.refl _)
        (List.Subset.refl _) (List.Subset.refl _)
    | some conn =>
      exact { hrest with
        sends_issued := List.forall_mem_append.mpr
          ⟨h.sends_issued, List.forall_mem_singleton.mpr he⟩ }

theorem initial {v : View} (h : v.Initial) : Ring v.fds.next v.dma v.queue v.kern where
  queue_issued e he := (h.queue_setup e he).issuedAt _ _
  recvs_issued := by simp [h.recvs_eq]
  polls_issued := by simp [h.polls_eq]
  sends_issued := by simp [h.sends_eq]
  cq_issued cqe hc := .inl (h.cq_setup cqe hc).1

end Ring

theorem ring_invariant :
    Reactor.InvariantOver (fun _ _ => True) (fun v => Tables v.fds v.lakes)
      fun v => Ring v.fds.next v.dma v.queue v.kern where
  start _ h := .initial h
  effect s a v ht hs _ he := by
    cases he with
    | quiet inp hpc => exact hs
    | sqThread => exact hs
    | provide inp ids hpc =>
      refine hs.push fun e he => ?_
      obtain ⟨id, _, rfl⟩ := List.mem_map.mp he
      trivial
    | flush inp hpc =>
      refine hs.push fun e he => ?_
      -- A send entry is for a stored client, whose index was given out.
      obtain ⟨c, lake, fd, hget, _, _, rfl⟩ := mem_sendEntries.mp he
      exact ⟨(ht.lt_next hget).1, (ht.lt_next hget).2, rfl⟩
    | skip inp cqe hat hnc => exact hs.consume
    | accept inp cqe lakes poll recv hat hu hfd hins hpoll hrecv =>
      refine hs.consume.mono.push ?_
      -- The accept gives the index out that its two entries carry.
      have hnew : ∀ w, Issued (s.view.fds.next + 1) w s.view.fds.next
          (clientData s.view.fds.next w).packUserData :=
        fun w => ⟨ht.next_ge, Nat.lt_succ_self _, rfl⟩
      intro e he
      rcases List.mem_append.mp he with he | he
      · split at he
        · rename_i hp
          cases List.mem_singleton.mp he
          exact ⟨hpoll hp, _, hnew _⟩
        · cases he
      · split at he
        · cases List.mem_singleton.mp he
          exact ⟨_, hnew _⟩
        · cases he
    | close inp cqe hat hc hfd =>
      exact hs.consume.drop rfl (List.Subset.refl _) (List.Subset.refl _) (List.Subset.refl _)
    | closeStdin inp cqe hat hc hfd => exact hs.consume
    | reply inp cqe buffer lake hat hans hget => exact hs.consume
    | kernelAccept fd more h0 hfree =>
      exact hs.post rfl (.inr (.inl rfl)) (List.Subset.refl _) (List.Subset.refl _)
        (List.Subset.refl _)
    | kernelAcceptEnd err =>
      exact hs.post rfl (.inr (.inl rfl)) (List.Subset.refl _) (List.Subset.refl _)
        (List.Subset.refl _)
    | recvData op i bufferId data more hop hid hpos hle =>
      refine hs.post rfl (.inr (.inr (.inl (hs.recvs_issued op (List.mem_of_getElem? hop)))))
        ?_ (List.Subset.refl _) (List.Subset.refl _)
      -- The operation stays armed unless its completion says that it is the last.
      cases more with
      | true => exact List.Subset.refl _
      | false => exact List.eraseIdx_subset
    | recvEnd op i result hop hres =>
      exact hs.post rfl (.inr (.inr (.inl (hs.recvs_issued op (List.mem_of_getElem? hop)))))
        List.eraseIdx_subset (List.Subset.refl _) (List.Subset.refl _)
    | pollEvent op i mask more hop =>
      refine hs.post rfl
        (.inr (.inr (.inr (.inl (hs.polls_issued op (List.mem_of_getElem? hop))))))
        (List.Subset.refl _) ?_ (List.Subset.refl _)
      cases more with
      | true => exact List.Subset.refl _
      | false => exact List.eraseIdx_subset
    | pollEnd op i err hop =>
      exact hs.post rfl
        (.inr (.inr (.inr (.inl (hs.polls_issued op (List.mem_of_getElem? hop))))))
        (List.Subset.refl _) List.eraseIdx_subset (List.Subset.refl _)
    | sendDone op i sent hop hsent =>
      exact hs.drop rfl (List.Subset.refl _) (List.Subset.refl _) List.eraseIdx_subset
    | sendFail op i err hop herr =>
      have hneg : -(err : Int) < 0 := by omega
      exact hs.post rfl (.inr (.inr (.inr (.inr ⟨hneg, _,
        hs.sends_issued op (List.mem_of_getElem? hop)⟩)))) (List.Subset.refl _)
        (List.Subset.refl _) List.eraseIdx_subset
  submit v e q _ hv hq := by
    rw [hq] at hv
    exact hv.submit

/-- What holds in every reachable state. -/
structure View.Wf (v : View) : Prop where
  tables : Tables v.fds v.lakes
  ring : Ring v.fds.next v.dma v.queue v.kern

theorem wf_invariant (guard : Reactor → Act → Prop) : Reactor.Invariant guard View.Wf := by
  have hboth := (tables_invariant.and ring_invariant).weaken
    fun s a (_ : guard s a) => trivial
  exact
    { start := fun v h => ⟨(hboth.start v h).1, (hboth.start v h).2⟩
      effect := fun s a v _ hs hg he =>
        have h := hboth.effect s a v trivial ⟨hs.tables, hs.ring⟩ hg he
        ⟨h.1, h.2⟩
      submit := fun v e q _ hv hq =>
        have h := hboth.submit v e q trivial ⟨hv.tables, hv.ring⟩ hq
        ⟨h.1, h.2⟩ }

theorem reachable_wf {s : Reactor} (h : s.Reachable) : s.view.Wf :=
  (wf_invariant _).reachable h

/-! ### What a completion names -/

theorem Reactor.AtHand.mem_cq {s : Reactor} {cqe : Cqe} (h : s.AtHand cqe) :
    cqe ∈ s.view.kern.cq :=
  List.mem_append_left _ (List.mem_of_mem_head? h.2)

/-- Only one completion is at hand. -/
theorem Reactor.AtHand.unique {s : Reactor} {cqe cqe' : Cqe} (h : s.AtHand cqe)
    (h' : s.AtHand cqe') : cqe = cqe' :=
  Option.some.inj (h.2.symm.trans h'.2)

namespace View.Wf

variable {v : View} (h : v.Wf) {cqe : Cqe} (hmem : cqe ∈ v.kern.cq)
include h hmem

/-- A completion above the offset is about an index that was given out. -/
theorem client_issued (hu : REQ_RESP_OFFSET ≤ cqe.userData) :
    100 ≤ clientOf cqe.userData ∧ clientOf cqe.userData < v.fds.next := by
  have hn := h.tables.next_le
  rcases h.ring.cq_issued cqe hmem with hc | hc | ⟨c, hc⟩ | ⟨_, c, hc⟩ | ⟨_, c, hc⟩
  · rw [hc] at hu
    exact absurd hu (by decide)
  · rw [hc] at hu
    exact absurd hu (by decide)
  · rw [hc.clientOf_eq hn (by decide)]
    exact ⟨hc.1, hc.2.1⟩
  · rw [hc.clientOf_eq hn (by decide)]
    exact ⟨hc.1, hc.2.1⟩
  · rw [hc.clientOf_eq hn (by decide)]
    exact ⟨hc.1, hc.2.1⟩

end View.Wf

/-- `close_connection` never calls `libc::close` on descriptor 0. -/
theorem View.Wf.closeFd_ne_zero {v : View} (h : v.Wf) (c : Nat) : v.closeFd c ≠ 0 := by
  unfold View.closeFd
  cases hget : v.fds.get c with
  | none => decide
  | some fd => exact ne_of_gt (h.tables.fd_pos c fd hget)

/-- A completion that asks for a close is answered with one. -/
theorem Reactor.Effect.of_closes {s : Reactor} {inp : Input} {v : View} {cqe : Cqe}
    (hwf : s.view.Wf) (he : Effect s (.server inp) v) (hat : s.AtHand cqe) (hc : cqe.Closes) :
    v = s.view.consume.close (clientOf cqe.userData) := by
  cases he with
  | quiet inp hpc =>
    rcases hpc with hpc | hcq
    · exact absurd hat.1 hpc
    · have hhead := hat.2
      rw [hcq] at hhead
      cases hhead
  | provide inp ids hpc => exact absurd hat.1 hpc
  | flush inp hpc =>
    rw [hat.1] at hpc
    cases hpc
  | skip inp cqe' hat' hnc =>
    cases hat.unique hat'
    exact absurd hc hnc
  | accept inp cqe' lakes poll recv hat' hu hfd hins hpoll hrecv =>
    cases hat.unique hat'
    have hle := hc.1
    rw [hu] at hle
    exact absurd hle (by decide)
  | close inp cqe' hat' hc' hfd =>
    cases hat.unique hat'
    rfl
  | closeStdin inp cqe' hat' hc' hfd =>
    exact absurd hfd (hwf.closeFd_ne_zero _)
  | reply inp cqe' buffer lake hat' hans hget =>
    cases hat.unique hat'
    rcases hans with ⟨hd, _⟩ | ⟨hp, _⟩
    · exact absurd hc hd.not_closes
    · exact absurd hc hp.not_closes

/-! ### Runs with certain closes -/

theorem Reactor.Booting.not_closes {s : Reactor} (h : s.Booting) {cqe : Cqe}
    (hat : s.AtHand cqe) : ¬ cqe.Closes := by
  rw [h.cq_eq cqe (List.mem_of_mem_head? hat.2)]
  exact fun hc => absurd hc.1 (by decide)

/-- A completion at hand that asks for a close is `ok`. -/
def closesOnly (ok : Reactor → Cqe → Bool) (s : Reactor) : Act → Bool
  | .server _ => s.pc ≠ .process || s.cq.head?.all fun cqe => !decide cqe.Closes || ok s cqe
  | .kernel _ => true

theorem ok_of_closesOnly {ok : Reactor → Cqe → Bool} {s : Reactor} {inp : Input}
    (h : closesOnly ok s (.server inp) = true) {cqe : Cqe} (hat : s.AtHand cqe)
    (hc : cqe.Closes) : ok s cqe = true := by
  simpa [closesOnly, hat.1, hat.2, hc] using h

/-- A run in which every close is `ok` meets a guard that asks for no more. -/
theorem exists_closes (guard : Reactor → Act → Prop) (ok : Reactor → Cqe → Bool)
    (hg : ∀ s inp, (∀ cqe, s.AtHand cqe → cqe.Closes → ok s cqe = true) → guard s (.server inp))
    (hk : ∀ s k, guard s (.kernel k)) (as : List Act) (p : Reactor → Bool)
    (h : (Run.exec Reactor.step (closesOnly ok) Reactor.ready as).any p = true) :
    ∃ s, s.ReachableUnder guard ∧ p s = true := by
  have hready : Reactor.ready.ReachableUnder guard := by
    refine Reactor.reachableUnder_ready fun s inp hb => hg s inp ?_
    intro cqe hat hc
    exact absurd hc (hb.not_closes hat)
  refine Reactor.exists_of_exec hready (closesOnly ok) (fun s a ha => ?_) as p h
  cases a with
  | server inp =>
    refine hg s inp ?_
    intro cqe hat hc
    exact ok_of_closesOnly ha hat hc
  | kernel k => exact hk s k

end Tachyon
