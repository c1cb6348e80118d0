import Tachyon.Proofs.Boot
import Tachyon.Proofs.Tables

/-!
# `Tachyon.Proofs.Listener`: the accepts of the listener

The server queues 16 multishot accepts before its loop. The loop queues none, whatever comes back:
an accept completion with an error is logged, and one without the `MORE` flag is not looked at.
So every such completion costs one of the 16 for good (`accepts_run`), and the server listens
exactly until the sixteenth of them (`listening_iff`).
-/

set_option autoImplicit false

namespace Tachyon

/-- The entry arms a multishot accept. -/
def Entry.armsAccept : Entry → Bool
  | .acceptMulti => true
  | .provideBuffer _ => false
  | .recvMulti _ _ => false
  | .pollAdd _ _ => false
  | .send _ _ _ => false

/-- The action posts an accept completion without the `MORE` flag. -/
def Act.endsAccept : Act → Bool
  | .kernel (.accept _ more) => !more
  | .kernel (.acceptEnd _) => true
  | _ => false

/-- How many multishot accepts ended. -/
def endings (as : List Act) : Nat := as.countP Act.endsAccept

namespace View

/-- The multishot accepts in the kernel and in the queue. -/
def accepts (v : View) : Nat := v.kern.accepts + v.queue.countP Entry.armsAccept

/-- The client table has no part in it. -/
theorem accepts_fds (v : View) (fds : ExternStableVec RawFd) :
    ({ v with fds := fds } : View).accepts = v.accepts := rfl

theorem accepts_append {v w : View} {es : List Entry} (hk : w.kern.accepts = v.kern.accepts)
    (hq : w.queue = v.queue ++ es) : w.accepts = v.accepts + es.countP Entry.armsAccept := by
  rw [accepts, accepts, hk, hq, List.countP_append, Nat.add_assoc]

/-- Entries of other kinds join. -/
theorem accepts_append_others {v w : View} {es : List Entry}
    (hk : w.kern.accepts = v.kern.accepts) (hq : w.queue = v.queue ++ es)
    (hes : ∀ e ∈ es, e.armsAccept = false) : w.accepts = v.accepts := by
  have hnone : es.countP Entry.armsAccept = 0 := List.countP_eq_zero.mpr (by simpa using hes)
  rw [accepts_append hk hq, hnone, Nat.add_zero]

/-- The kernel takes an entry: an accept moves from the queue to the kernel. -/
theorem accepts_submit_one {v : View} {e : Entry} {q : List Entry} (hq : v.queue = e :: q) :
    ({ v with queue := q, kern := v.kern.submit e } : View).accepts = v.accepts := by
  rw [accepts, accepts, hq, List.countP_cons]
  show (v.kern.submit e).accepts + q.countP Entry.armsAccept = _
  cases e with
  | acceptMulti =>
    show v.kern.accepts + 1 + _ = v.kern.accepts + (_ + 1)
    omega
  | provideBuffer id => rfl
  | recvMulti fd u =>
    simp only [Kernel.submit]
    split <;> rfl
  | pollAdd fd u =>
    simp only [Kernel.submit]
    split <;> rfl
  | send u fd data =>
    simp only [Kernel.submit]
    split <;> rfl

theorem accepts_submit (v : View) (n : Nat) : (v.submit n).accepts = v.accepts :=
  submit_induction (I := fun w => w.accepts = v.accepts)
    (fun _ _ _ h hq => (accepts_submit_one hq).trans h) n rfl

end View

namespace Reactor

/-- Sixteen accepts at the first iteration of the loop. -/
theorem accepts_of_started {s : Reactor} (h : Started s) :
    s.view.accepts = DEFAULT_ACCEPT_MULTIPLICATOR := by
  obtain ⟨cfg, n, m, _, hview⟩ := started_view h
  have hregister : ∀ e ∈ registerEntries, e.armsAccept = false := by
    intro e he
    obtain ⟨id, _, rfl⟩ := List.mem_map.mp he
    rfl
  have hnone : (fresh cfg).view.accepts = 0 := rfl
  have hfresh : ((fresh cfg).view.push registerEntries).accepts = (fresh cfg).view.accepts :=
    View.accepts_append_others rfl rfl hregister
  calc s.view.accepts
      = (((((fresh cfg).view.push registerEntries).submit n).push
          (List.replicate DEFAULT_ACCEPT_MULTIPLICATOR .acceptMulti)).submit m).accepts := by
        rw [hview, View.accepts_fds]
    _ = (((fresh cfg).view.push registerEntries).submit n).accepts
          + (List.replicate DEFAULT_ACCEPT_MULTIPLICATOR Entry.acceptMulti).countP
            Entry.armsAccept := by
        rw [View.accepts_submit]
        exact View.accepts_append rfl rfl
    _ = DEFAULT_ACCEPT_MULTIPLICATOR := by
        rw [View.accepts_submit, hfresh, hnone]
        decide

/-- An accept that ends was armed. -/
theorem armed_of_endsAccept {s t : Reactor} {a : Act} (h : s.step a = some t)
    (ha : a.endsAccept = true) : 0 < s.kern.accepts := by
  cases a with
  | server inp => cases ha
  | kernel k =>
    cases k with
    | accept fd more =>
      simp only [step, kernelStep, Option.ite_none_right_eq_some] at h
      exact h.1.2.2
    | acceptEnd err =>
      simp only [step, kernelStep, Option.ite_none_right_eq_some] at h
      exact h.1.2
    | _ => cases ha

theorem accepts_effect {s : Reactor} {a : Act} {v : View} (he : Effect s a v)
    (harmed : a.endsAccept = true → 0 < s.kern.accepts) :
    v.accepts + [a].countP Act.endsAccept = s.view.accepts := by
  -- Every effect but the two kinds of accept completions leaves the accepts alone.
  cases he with
  | quiet inp hpc => rfl
  | provide inp ids hpc =>
    refine View.accepts_append_others rfl rfl fun e hmem => ?_
    obtain ⟨id, _, rfl⟩ := List.mem_map.mp hmem
    rfl
  | flush inp hpc =>
    refine View.accepts_append_others rfl rfl fun e hmem => ?_
    obtain ⟨c, lake, fd, _, _, _, rfl⟩ := mem_sendEntries.mp hmem
    rfl
  | skip inp cqe hat hnc => rfl
  | accept inp cqe lakes poll recv hat hu hfd hins hpoll hrecv =>
    refine View.accepts_append_others rfl rfl fun e hmem => ?_
    rcases List.mem_append.mp hmem with hm | hm
    · split at hm
      · cases List.mem_singleton.mp hm
        rfl
      · cases hm
    · split at hm
      · cases List.mem_singleton.mp hm
        rfl
      · cases hm
  | close inp cqe hat hc hfd => rfl
  | closeStdin inp cqe hat hc hfd => rfl
  | reply inp cqe buffer lake hat hans hget => rfl
  | kernelAccept fd more h0 hfree =>
    cases more with
    | true => rfl
    | false =>
      have hpos : 0 < s.kern.accepts := harmed rfl
      show s.kern.accepts - 1 + s.sq.entries.countP Entry.armsAccept + 1
        = s.kern.accepts + s.sq.entries.countP Entry.armsAccept
      omega
  | kernelAcceptEnd err =>
    have hpos : 0 < s.kern.accepts := harmed rfl
    show s.kern.accepts - 1 + s.sq.entries.countP Entry.armsAccept + 1
      = s.kern.accepts + s.sq.entries.countP Entry.armsAccept
    omega
  | recvData op i bufferId data more hop hid hpos hle => rfl
  | recvEnd op i result hop hres => rfl
  | pollEvent op i mask more hop => rfl
  | pollEnd op i err hop => rfl
  | sendDone op i sent hop hsent => rfl
  | sendFail op i err hop herr => rfl
  | sqThread => rfl

/-- The accepts left, and those that ended. -/
theorem accepts_run {guard : Reactor → Act → Prop} {s t : Reactor} {as : List Act}
    (h : Run step guard s as t) : t.view.accepts + endings as = s.view.accepts := by
  induction h with
  | nil => rfl
  | snoc hrun hg ha ih =>
    obtain ⟨v, n, heff, hview⟩ := step_effect ha
    have hone := accepts_effect heff (armed_of_endsAccept ha)
    rw [hview, View.accepts_submit, endings, List.countP_append, Nat.add_left_comm,
      Nat.add_comm, Nat.add_assoc]
    rw [endings] at ih
    omega

/-- At least one `accept_multi` entry is armed in the kernel or queued. -/
def Listening (s : Reactor) : Prop := 0 < s.kern.accepts ∨ .acceptMulti ∈ s.sq.entries

theorem listening_iff_accepts (s : Reactor) : s.Listening ↔ 0 < s.view.accepts := by
  have hqueued : .acceptMulti ∈ s.sq.entries ↔ 0 < s.sq.entries.countP Entry.armsAccept := by
    rw [List.countP_pos_iff]
    constructor
    · exact fun h => ⟨_, h, rfl⟩
    · rintro ⟨e, hmem, he⟩
      cases e with
      | acceptMulti => exact hmem
      | _ => cases he
  rw [Listening, hqueued, View.accepts]
  show _ ↔ 0 < s.kern.accepts + s.sq.entries.countP Entry.armsAccept
  omega

/-- The server listens as long as fewer than 16 multishot accepts ended. -/
theorem listening_iff {s₀ s : Reactor} {as : List Act} (h₀ : Started s₀)
    (h : Run step (fun _ _ => True) s₀ as s) :
    s.Listening ↔ endings as < DEFAULT_ACCEPT_MULTIPLICATOR := by
  have hsum := accepts_run h
  rw [accepts_of_started h₀] at hsum
  rw [listening_iff_accepts]
  omega

/-- A server that does not listen will not listen again. -/
theorem not_listening_run {guard : Reactor → Act → Prop} {s t : Reactor} {as : List Act}
    (h : Run step guard s as t) (hs : ¬ s.Listening) : ¬ t.Listening := by
  have hsum := accepts_run h
  rw [listening_iff_accepts] at hs ⊢
  omega

/-- Fifteen accepts end with `EMFILE`, and the server listens with the last one. -/
theorem listening_fifteen : ∃ s₀ as s, Started s₀ ∧ Run step (fun _ _ => True) s₀ as s ∧
    15 ≤ endings as ∧ s.Listening ∧
    (s.Listening ↔ endings as < DEFAULT_ACCEPT_MULTIPLICATOR) := by
  obtain ⟨s₀, bs, h₀, hready⟩ := reachable_ready
  have hexec : (Run.exec step (fun _ _ => true) ready
      (List.replicate 15 (.kernel (.acceptEnd 24)))).any (fun s => 0 < s.kern.accepts) = true := by
    decide +kernel
  have hran : ∃ s, Run step (fun _ _ => True) ready
      (List.replicate 15 (.kernel (.acceptEnd 24))) s ∧ decide (0 < s.kern.accepts) = true :=
    Run.exists_of_exec (fun _ _ _ => trivial) hexec
  obtain ⟨s, hs, hp⟩ := hran
  have hcount : endings (bs ++ List.replicate 15 (.kernel (.acceptEnd 24))) = endings bs + 15 :=
    List.countP_append
  exact ⟨s₀, _, s, h₀, hready.trans hs, by omega, .inl (of_decide_eq_true hp),
    listening_iff h₀ (hready.trans hs)⟩

/-- The process has no descriptor left (`EMFILE`) sixteen times in a row. -/
theorem not_listening : ¬ ∀ s : Reactor, s.Reachable → s.Listening := by
  intro hall
  obtain ⟨s, hs, hp⟩ := exists_reachable (List.replicate 16 (.kernel (.acceptEnd 24)))
    (fun s => s.kern.accepts = 0 && s.sq.entries.countP Entry.armsAccept = 0)
    (by decide +kernel)
  simp only [Bool.and_eq_true, decide_eq_true_eq] at hp
  have hnone : s.view.accepts = 0 := by
    show s.kern.accepts + s.sq.entries.countP Entry.armsAccept = 0
    omega
  have hpos := (listening_iff_accepts s).mp (hall s hs)
  omega

end Reactor

end Tachyon
