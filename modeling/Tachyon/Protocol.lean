import Tachyon.Proofs.Reply
import Tachyon.Proofs.UserData

/-!
# `Tachyon.Protocol`: what the loop does to the clients

The abstract model. The loop splits the entries into published and pending ones and the
completions into fetched and posted ones, and it moves through its places. None of this
matters to what happens to a client. A `View` has one queue of entries, and a kernel with one
list of completions, oldest first. It has no place in the loop.

The operations on a view say what the loop is for:

* `submit`: the kernel takes entries from the front of the queue;
* `push`: buffer hand-overs join the queue;
* `flush`: every client with output gets a send entry, and its output buffer starts over;
* `consume`: the oldest completion is dealt with;
* `accept`, `close`, `reply`: what dealing with a completion can do to a client.

`Effect` lists what one step of a `Reactor` can do, with the circumstances under which it
does it. `Tachyon.Proofs.Refinement` proves that every step is one of these effects, followed
by a submission.
-/

set_option autoImplicit false

namespace Tachyon

/-- The kernel with older completions in front of the posted ones. -/
def Kernel.withOlder (k : Kernel) (older : List Cqe) : Kernel := { k with cq := older ++ k.cq }

structure View where
  dma : Bool
  fds : ExternStableVec RawFd
  lakes : ExternStableVec OutBuffer
  /-- The entries the kernel has not taken. -/
  queue : List Entry
  /-- The kernel, with every completion the server has not processed. -/
  kern : Kernel
  log : List Event

namespace View

/-- The kernel takes the first `n` entries. -/
def submit (v : View) (n : Nat) : View :=
  { v with queue := v.queue.drop n, kern := (v.queue.take n).foldl Kernel.submit v.kern }

/-- Entries join the queue. -/
def push (v : View) (es : List Entry) : View := { v with queue := v.queue ++ es }

/-- The oldest completion is gone. -/
def consume (v : View) : View := { v with kern := { v.kern with cq := v.kern.cq.tail } }

/-- Every client with output gets a send entry. -/
def flush (v : View) : View :=
  { v with
    queue := v.queue ++ Reactor.sendEntries v.fds v.lakes
    lakes := Reactor.resetSent v.fds v.lakes
    log := v.log ++ [.flushed] }

/-- A client is stored: `lakes` is the table with its fresh output buffer. -/
def accept (v : View) (fd : RawFd) (lakes : ExternStableVec OutBuffer) (es : List Entry) : View :=
  { v with
    fds := (v.fds.push fd).2
    lakes := lakes
    queue := v.queue ++ es
    log := v.log ++ [.accepted v.fds.next fd (v.kern.owner fd)] }

/-- The descriptor `close_connection` calls `libc::close` on. -/
def closeFd (v : View) (c : Nat) : RawFd := (v.fds.get c).getD 0xFF

/-- A client leaves both tables. -/
def remove (v : View) (c : Nat) : View :=
  { v with fds := (v.fds.remove c).2, lakes := (v.lakes.remove c).2 }

/-- `close_connection` with force, for a descriptor other than 0. -/
def close (v : View) (c : Nat) : View :=
  { v.remove c with
    kern := v.kern.close (v.closeFd c), log := v.log ++ [.closed c (v.closeFd c)] }

/-- A client is answered: `lake` is its output buffer afterwards. -/
def reply (v : View) (c : Nat) (lake : OutBuffer) (buffer : Slice) (bytes : List UInt8) : View :=
  { v with
    lakes := v.lakes.set c lake
    log := v.log ++ [.received c buffer, .replied c bytes] }

/-- The kernel changes, and an event may be recorded. -/
def kernel (v : View) (k : Kernel) (events : List Event) : View :=
  { v with kern := k, log := v.log ++ events }

end View

/-! ### The kinds of completions -/

namespace Cqe

/-- `process_entry_response` answers the completion with `close_connection`. -/
def Closes (cqe : Cqe) : Prop :=
  REQ_RESP_OFFSET ≤ cqe.userData ∧
    (cqe.result = 0 ∧ uniqOf cqe.userData ≠ SEND_CODE ∨ cqe.result = -ECONNRESET)

/-- `process_entry_response` passes the completion to `request_reply`. -/
def Delivers (dma : Bool) (cqe : Cqe) : Prop :=
  REQ_RESP_OFFSET ≤ cqe.userData ∧ 0 < cqe.result ∧ uniqOf cqe.userData ≠ SEND_CODE ∧
    ¬ (uniqOf cqe.userData = POLL_EVENT ∧ dma = true)

/-- `process_entry_response` passes the completion to `ubdma`. -/
def Polls (dma : Bool) (cqe : Cqe) : Prop :=
  REQ_RESP_OFFSET ≤ cqe.userData ∧ 0 < cqe.result ∧ uniqOf cqe.userData = POLL_EVENT ∧
    dma = true

instance (cqe : Cqe) : Decidable cqe.Closes := inferInstanceAs (Decidable (_ ∧ _))

instance (dma : Bool) (cqe : Cqe) : Decidable (cqe.Delivers dma) :=
  inferInstanceAs (Decidable (_ ∧ _))

instance (dma : Bool) (cqe : Cqe) : Decidable (cqe.Polls dma) :=
  inferInstanceAs (Decidable (_ ∧ _))

theorem not_closes_of_result {cqe : Cqe} (h0 : cqe.result ≠ 0)
    (hr : cqe.result ≠ -ECONNRESET) : ¬ cqe.Closes := by
  rintro ⟨_, ⟨hzero, _⟩ | hreset⟩
  · exact h0 hzero
  · exact hr hreset

theorem not_closes_of_pos {cqe : Cqe} (h : 0 < cqe.result) : ¬ cqe.Closes := by
  refine not_closes_of_result (by omega) fun hreset => ?_
  rw [hreset] at h
  exact absurd h (by decide)

theorem Delivers.not_closes {dma : Bool} {cqe : Cqe} (h : cqe.Delivers dma) : ¬ cqe.Closes :=
  not_closes_of_pos h.2.1

theorem Polls.not_closes {dma : Bool} {cqe : Cqe} (h : cqe.Polls dma) : ¬ cqe.Closes :=
  not_closes_of_pos h.2.1

end Cqe

namespace Reactor

/-- The view of a reactor. The fetched completions are older than the posted ones. -/
def view (s : Reactor) : View where
  dma := s.srv.ubKernelDma
  fds := s.srv.clientFds
  lakes := s.srv.clientOutBuffers
  queue := s.sq.entries
  kern := s.kern.withOlder s.cq
  log := s.log

/-- The next server step processes the completion `cqe`. -/
def AtHand (s : Reactor) (cqe : Cqe) : Prop := s.pc = .process ∧ s.cq.head? = some cqe

/-- What `request_reply` parses for a completion. -/
def received (s : Reactor) (cqe : Cqe) : Slice :=
  bufferSlice s.srv (cqe.flags >>> 16 % 2 ^ 16) cqe.result.toNat

/-- What `ubdma` parses, when there is a current kernel buffer. -/
def polled (s : Reactor) : Option Slice :=
  s.srv.currentKernelBuf.map fun bufId => Trim.lTrim256 (bufferSlice s.srv bufId BUFFER_SIZE)

/-- The slice behind a completion that produces responses. `ubdma` goes on with more than
five requests only. -/
def Answers (s : Reactor) (cqe : Cqe) (buffer : Slice) : Prop :=
  cqe.Delivers s.srv.ubKernelDma ∧ buffer = s.received cqe ∨
    cqe.Polls s.srv.ubKernelDma ∧ s.polled = some buffer ∧
      5 < (Http.parseHttpMethodsPaths 50 buffer).length

/-- What one step does to the view, before the submission that may end it. -/
inductive Effect (s : Reactor) : Act → View → Prop
  | quiet (inp : Input) : s.pc ≠ .process ∨ s.cq = [] → Effect s (.server inp) s.view
  | provide (inp : Input) (ids : List Nat) :
      s.pc ≠ .process → Effect s (.server inp) (s.view.push (ids.map Entry.provideBuffer))
  | flush (inp : Input) : s.pc = .top → Effect s (.server inp) s.view.flush
  | skip (inp : Input) (cqe : Cqe) :
      s.AtHand cqe → ¬ cqe.Closes → Effect s (.server inp) s.view.consume
  | accept (inp : Input) (cqe : Cqe) (lakes : ExternStableVec OutBuffer) (poll recv : Bool) :
      s.AtHand cqe → cqe.userData = CODE_ACCEPT → 0 < cqe.result →
      s.view.lakes.insert s.view.fds.next SmallLake.build = some lakes →
      (poll = true → s.srv.ubKernelDma = true) →
      (recv = true ↔ (s.pollFirst cqe.result s.view.fds.next).len
        < (s.pollFirst cqe.result s.view.fds.next).capacity) →
      Effect s (.server inp) (s.view.consume.accept cqe.result lakes
        ((if poll then
            [.pollAdd cqe.result (clientData s.view.fds.next POLL_EVENT).packUserData]
          else [])
        ++ if recv then
            [.recvMulti cqe.result (clientData s.view.fds.next INIT_REQUEST).packUserData]
          else []))
  | close (inp : Input) (cqe : Cqe) :
      s.AtHand cqe → cqe.Closes → s.view.closeFd (clientOf cqe.userData) ≠ 0 →
      Effect s (.server inp) (s.view.consume.close (clientOf cqe.userData))
  | closeStdin (inp : Input) (cqe : Cqe) :
      s.AtHand cqe → cqe.Closes → s.view.closeFd (clientOf cqe.userData) = 0 →
      Effect s (.server inp) (s.view.consume.remove (clientOf cqe.userData))
  | reply (inp : Input) (cqe : Cqe) (buffer : Slice) (lake : OutBuffer) :
      s.AtHand cqe → s.Answers cqe buffer →
      s.view.lakes.get (clientOf cqe.userData) = some lake →
      Effect s (.server inp) (s.view.consume.reply (clientOf cqe.userData)
        (lake.write (s.block buffer)) buffer (s.block buffer))
  | kernelAccept (fd : RawFd) (more : Bool) :
      0 ≤ fd → s.kern.owner fd = none →
      Effect s (.kernel (.accept fd more)) (s.view.kernel (s.view.kern.accept fd more) [])
  | kernelAcceptEnd (err : Nat) :
      Effect s (.kernel (.acceptEnd err)) (s.view.kernel (s.view.kern.acceptEnd err) [])
  | recvData (op : ArmedOp) (i bufferId : Nat) (data : List UInt8) (more : Bool) :
      s.kern.recvs[i]? = some op → bufferId ∈ s.kern.provided →
      0 < data.length → data.length ≤ BUFFER_SIZE →
      Effect s (.kernel (.recvData i bufferId data more))
        (s.view.kernel (s.view.kern.recvData op i bufferId data.length more) [])
  | recvEnd (op : ArmedOp) (i : Nat) (result : Int) :
      s.kern.recvs[i]? = some op → result ≤ 0 →
      Effect s (.kernel (.recvEnd i result))
        (s.view.kernel (s.view.kern.recvEnd op i result) [])
  | pollEvent (op : ArmedOp) (i mask : Nat) (more : Bool) :
      s.kern.polls[i]? = some op →
      Effect s (.kernel (.pollEvent i mask more))
        (s.view.kernel (s.view.kern.pollEvent op i mask more) [])
  | pollEnd (op : ArmedOp) (i err : Nat) :
      s.kern.polls[i]? = some op →
      Effect s (.kernel (.pollEnd i err)) (s.view.kernel (s.view.kern.pollEnd op i err) [])
  | sendDone (op : SendOp) (i sent : Nat) :
      s.kern.sends[i]? = some op → sent ≤ op.data.len →
      Effect s (.kernel (.sendDone i sent))
        (s.view.kernel (s.view.kern.sendDone i)
          [.transmitted op (readOut s.srv op.data) sent])
  | sendFail (op : SendOp) (i err : Nat) :
      s.kern.sends[i]? = some op → 0 < err →
      Effect s (.kernel (.sendFail i err))
        (s.view.kernel (s.view.kern.sendFail op i err) [.sendFailed op])
  | sqThread : Effect s (.kernel .sqThread) s.view

end Reactor

end Tachyon
