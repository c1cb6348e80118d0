import Mathlib.Data.Nat.Log
import Tachyon.Handler
import Tachyon.Lib.Run
import Tachyon.Lib.StableVec
import Tachyon.Uring
import Tachyon.Utils.Shift
import Tachyon.Utils.Trim

/-!
# `Tachyon.Server`: the server and its loop

`server.rs`. A `Reactor` is everything `sq_poll` works on: the server, its views of the two
queues, the kernel, and the place in the loop. The functions of the source take and return a
`Reactor`. What stops the loop is an error: an `io::Error` passed up by `?`, a panic, or the
access to a client slot that the source does not check. A response block that does not fit into
its output buffer stops nothing: the write starts over at the front of the buffer.

`serverStep` runs the loop from one place to the next:

* `top`: the per-second metrics and, with no completion at hand, `wideband_send`;
* `sync`: `sq.sync()` if `sync_now`;
* `reap`: `cq.sync()` with no completion at hand;
* `submit`: `submit_and_wait(1)`, or `submit()` when the queue is nearly full;
* `waiting`: blocked in `submit_and_wait(1)`;
* `process`: one completion;
* `idle`: the batch is empty, `release_buffers` if there were no requests;
* `release`: one round of the retry loop in `release_buffers`.

`kernelStep` is one action of the kernel. It can happen between any two server steps.

`log` records what happened, for the statements. No step reads it.
-/

set_option autoImplicit false

namespace Tachyon

def BUFFER_SIZE : Nat := 7168
def BUFFERS_COUNT : Nat := 1024
def DATA_LAKE_SIZE : Nat := BUFFER_SIZE * 3
def DEFAULT_ACCEPT_MULTIPLICATOR : Nat := 16

/-- `(BUFFERS_COUNT as f64 / 1.5) as usize`. -/
def RELEASE_PART : Nat := BUFFERS_COUNT * 2 / 3

abbrev OutBuffer := SmallLake DATA_LAKE_SIZE

structure Server where
  sqpollEnabled : Bool
  ubKernelDma : Bool
  clientFds : ExternStableVec RawFd
  date : Date
  hotDataLake : SmallLake 512
  syncNow : Bool
  /-- `[[u8; BUFFER_SIZE]; BUFFERS_COUNT]`, one buffer after another. -/
  buffers : Mem
  releasedBuffers : List Nat
  clientOutBuffers : ExternStableVec OutBuffer
  /-- `[u8; BUFFER_SIZE * 2]`. -/
  hotInternalCache : Mem
  /-- `rps`, the requests of the last full second. -/
  rps : Nat
  /-- `_rps`, the requests of this second. -/
  rpsNow : Nat
  synced : Int
  /-- `CURRENT_KERNEL_BUF`, as a buffer index. -/
  currentKernelBuf : Option Nat

/-- What ends the loop. -/
inductive Stop
  | ioError
  | panic
  | vacantSlot
  deriving DecidableEq, Repr

/-- The place in the loop. `release idle` is the retry loop of `release_buffers`, called
at the end of the batch or while a completion is processed. -/
inductive Pc
  | top
  | sync
  | reap
  | submit
  | waiting
  | process
  | idle
  | release (idle : Bool)
  | stopped (why : Stop)
  deriving DecidableEq, Repr

inductive Event
  /-- `process_entry_accept` stored a client. `conn` owned the descriptor at that time. -/
  | accepted (clientId : Nat) (fd : RawFd) (conn : Option ConnId)
  /-- `libc::close(fd)` in `close_connection(client_id, ..)`. -/
  | closed (clientId : Nat) (fd : RawFd)
  /-- A slice was parsed for the client and answered. A poll that is not answered is not
  recorded. -/
  | received (clientId : Nat) (buffer : Slice)
  /-- Response bytes joined the client's output buffer. -/
  | replied (clientId : Nat) (bytes : List UInt8)
  /-- `wideband_send` ran to its end. -/
  | flushed
  /-- The kernel executed a send: `read` is what the entry pointed to, unless the buffer is
  gone, and `sent` is how many of the bytes it transmitted. -/
  | transmitted (op : SendOp) (read : Option (List UInt8)) (sent : Nat)
  /-- The kernel failed a send. -/
  | sendFailed (op : SendOp)

structure Reactor where
  srv : Server
  sq : SubmissionQueue Entry
  /-- The completions the server has fetched and not yet processed. -/
  cq : List Cqe
  kern : Kernel
  pc : Pc
  log : List Event

/-- What the outside decides in a server step: the clock and the date, and whether the two
submit calls of the step succeed. -/
structure Input where
  clock : Int
  date : Date
  submitOk : Bool
  waitOk : Bool

namespace Reactor

/-- The kernel takes the published entries. With SQPOLL it takes them on its own
(`KernelAct.sqThread`), and a submit call only wakes its thread. -/
def submitAll (s : Reactor) : Reactor :=
  if s.srv.sqpollEnabled then s
  else { s with sq := s.sq.drain, kern := s.sq.published.foldl Kernel.submit s.kern }

/-- `provide_buffer` for every released buffer. -/
def releaseEntries (s : Reactor) : List Entry := s.srv.releasedBuffers.map Entry.provideBuffer

/-- `release_buffers` up to its retry loop. -/
def releaseBuffers (s : Reactor) (inp : Input) (idle : Bool) : Except Stop Reactor :=
  if s.srv.releasedBuffers.length = 0 then .ok s
  -- `submitter.submit()?`
  else if inp.submitOk = false then .error .ioError
  -- `self.buffers[*id as usize]`
  else if s.srv.releasedBuffers.all (· < BUFFERS_COUNT) = false then .error .panic
  else .ok { s.submitAll with pc := .release idle }

/-- One round of the retry loop of `release_buffers`, and its end after a push that
succeeds. -/
def releaseRound (s : Reactor) (inp : Input) (idle : Bool) : Except Stop Reactor :=
  match s.sq.pushMultiple s.releaseEntries with
  | none => .ok s
  | some sq =>
    let s := { s with sq := sq.sync }.submitAll
    -- `submitter.submit_and_wait(self.released_buffers.len())?`
    if inp.waitOk = false then .error .ioError
    else .ok { s with
      srv := { s.srv with releasedBuffers := [] }
      pc := if idle then .top else .process }

/-- The queue at the `recv_multi` push of `process_entry_accept`. In UBDMA mode a poll entry
goes first, with a sync of its own. -/
def pollFirst (s : Reactor) (clientFd : RawFd) (clientFdId : Nat) : SubmissionQueue Entry :=
  if s.srv.ubKernelDma then
    (s.sq.pushOrDrop (.pollAdd clientFd (clientData clientFdId POLL_EVENT).packUserData)).sync
  else s.sq

/-- `process_entry_accept`. -/
def processEntryAccept (s : Reactor) (result : Int) : Except Stop Reactor :=
  let clientFd : RawFd := result
  if clientFd ≤ 0 then .ok s
  else
    let (clientFdId, clientFds) := s.srv.clientFds.push clientFd
    match s.srv.clientOutBuffers.insert clientFdId SmallLake.build with
    -- The index is past the end of the table.
    | none => .error .panic
    | some clientOutBuffers =>
      let userData := (clientData clientFdId INIT_REQUEST).packUserData
      .ok { s with
        srv := { s.srv with
          clientFds := clientFds, clientOutBuffers := clientOutBuffers, syncNow := true }
        sq := (s.pollFirst clientFd clientFdId).pushOrDrop (.recvMulti clientFd userData)
        log := s.log ++ [.accepted clientFdId clientFd (s.kern.owner clientFd)] }

/-- The send entries of `wideband_send`: one for each client with bytes in its buffer and a
known descriptor. -/
def sendEntries (clientFds : ExternStableVec RawFd)
    (clientOutBuffers : ExternStableVec OutBuffer) : List Entry :=
  clientOutBuffers.iter.filterMap fun (clientId, dataLake) =>
    if dataLake.len = 0 then none
    else (clientFds.get clientId).map fun fd =>
      .send (clientData clientId SEND_CODE).packUserData fd
        ⟨clientId, dataLake.len, dataLake.asSlice⟩

/-- The output buffers after `wideband_send`: a buffer with an entry is reset. -/
def resetSent (clientFds : ExternStableVec RawFd)
    (clientOutBuffers : ExternStableVec OutBuffer) : ExternStableVec OutBuffer :=
  clientOutBuffers.mapIdx fun clientId dataLake =>
    if dataLake.len = 0 then dataLake
    else match clientFds.get clientId with
      | some _ => dataLake.resetPos
      | none => dataLake

/-- `wideband_send`. -/
def widebandSend (s : Reactor) : Except Stop Reactor :=
  if s.srv.clientOutBuffers.iter.length = 0 then .ok { s with log := s.log ++ [.flushed] }
  else
    let entries := sendEntries s.srv.clientFds s.srv.clientOutBuffers
    let srv := { s.srv with
      clientOutBuffers := resetSent s.srv.clientFds s.srv.clientOutBuffers, syncNow := true }
    if entries.length > 0 then
      match s.sq.pushMultiple entries with
      -- `sq.push_multiple(&entries).unwrap()`
      | none => .error .panic
      | some sq => .ok { s with srv := srv, sq := sq, log := s.log ++ [.flushed] }
    else .ok { s with srv := srv, log := s.log ++ [.flushed] }

/-- The response loop of `request_reply` and `ubdma`: `handler` for each request, one
response behind the other in `hot_internal_cache`. -/
def replyLoop (date : Date) (buffer : Slice) :
    List Http.RequestEntry → Mem → SmallLake 512 → Nat → Except Stop (Mem × SmallLake 512 × Nat)
  | [], cache, lake, totalLen => .ok (cache, lake, totalLen)
  | request :: rest, cache, lake, totalLen =>
    -- `&mut self.hot_internal_cache[total_len..]`
    if totalLen > BUFFER_SIZE * 2 then .error .panic
    else
      let lake := Handler.handler (buffer.span request.1) (buffer.span request.2) date lake
      -- The handler copies its lake into the cache, whatever its length.
      replyLoop date buffer rest (cache.write totalLen lake.asSlice) lake (totalLen + lake.len)

/-- Buffer `bufId` of the slab, cut to `len` bytes. -/
def bufferSlice (srv : Server) (bufId len : Nat) : Slice :=
  ⟨srv.buffers.shift (bufId * BUFFER_SIZE), len⟩

/-- `ubdma`: parses the buffer the last `request_reply` looked at. -/
def ubdma (s : Reactor) (client : UserData) : Except Stop Reactor :=
  let cid := client.clientId.toNat
  match s.srv.currentKernelBuf with
  | none => .ok s
  | some bufId =>
    let buffer := Trim.lTrim256 (bufferSlice s.srv bufId BUFFER_SIZE)
    let requests := Http.parseHttpMethodsPaths 50 buffer
    -- `useful.capacity() == 0`
    if (requests.length - 5) * DATA_LAKE_SIZE = 0 then .ok s
    else match s.srv.clientOutBuffers.get cid with
      | none => .ok s
      | some clientBuffer =>
        -- There is output already.
        if clientBuffer.len ≠ 0 then .ok s
        else match replyLoop s.srv.date buffer requests s.srv.hotInternalCache
            s.srv.hotDataLake 0 with
          | .error why => .error why
          | .ok (cache, lake, totalLen) =>
            let hotSlice := cache.read 0 totalLen
            .ok { s with
              srv := { s.srv with
                rpsNow := s.srv.rpsNow + requests.length
                clientOutBuffers := s.srv.clientOutBuffers.set cid (clientBuffer.write hotSlice)
                hotInternalCache := cache
                hotDataLake := lake
                syncNow := true }
              log := s.log ++ [.received cid buffer, .replied cid hotSlice] }

/-- The slab after the UBDMA shift of the buffer `bufId`. -/
def shiftBuffer (buffers : Mem) (bufId len : Nat) : Mem :=
  let buf := buffers.read (bufId * BUFFER_SIZE) BUFFER_SIZE
  if buf.getD (BUFFER_SIZE - 1) 0 = 0 then
    buffers.write (bufId * BUFFER_SIZE) (Shift.shiftUbInplace buf len)
  else buffers

/-- `request_reply`. -/
def requestReply (s : Reactor) (inp : Input) (flags : Nat) (userData : UserData)
    (result : Int) : Except Stop Reactor :=
  let bufId := flags >>> 16 % 2 ^ 16
  let cid := userData.clientId.toNat
  -- The early return keeps the buffer: its id is in no list afterwards.
  if result > BUFFER_SIZE then .ok s
  else if bufId ≥ BUFFERS_COUNT then .error .panic
  else
    let buffer := bufferSlice s.srv bufId result.toNat
    let requests := Http.parseHttpMethodsPaths 50 buffer
    match replyLoop s.srv.date buffer requests s.srv.hotInternalCache s.srv.hotDataLake 0 with
    | .error why => .error why
    | .ok (cache, lake, totalLen) =>
      let hotSlice := cache.read 0 totalLen
      match s.srv.clientOutBuffers.get cid with
      -- `get_unchecked_mut` on a slot that holds nothing.
      | none => .error .vacantSlot
      | some clientBuffer =>
        let srv := { s.srv with
          rpsNow := s.srv.rpsNow + requests.length
          clientOutBuffers := s.srv.clientOutBuffers.set cid (clientBuffer.write hotSlice)
          hotInternalCache := cache
          hotDataLake := lake
          syncNow := true
          currentKernelBuf := some bufId
          releasedBuffers := s.srv.releasedBuffers ++ [bufId]
          buffers :=
            if s.srv.ubKernelDma then shiftBuffer s.srv.buffers bufId result.toNat
            else s.srv.buffers }
        let s := { s with
          srv := srv, log := s.log ++ [.received cid buffer, .replied cid hotSlice] }
        if srv.releasedBuffers.length = RELEASE_PART then s.releaseBuffers inp false
        else .ok s

/-- `close_connection`. -/
def closeConnection (s : Reactor) (clientId : Nat) (force : Bool) : Reactor :=
  let (cfd, srv) : RawFd × Server :=
    if !force then ((s.srv.clientFds.get clientId).getD 0xFF, s.srv)
    else
      let (fd, clientFds) := s.srv.clientFds.remove clientId
      let (_, clientOutBuffers) := s.srv.clientOutBuffers.remove clientId
      (fd.getD 0xFF,
        { s.srv with clientFds := clientFds, clientOutBuffers := clientOutBuffers })
  -- Descriptor 0 is not closed. The fallback `0xFF` is, whoever has it.
  if cfd = 0 then { s with srv := srv }
  else { s with srv := srv, kern := s.kern.close cfd, log := s.log ++ [.closed clientId cfd] }

/-- `process_entry_response`. -/
def processEntryResponse (s : Reactor) (inp : Input) (userData : UInt64) (result : Int)
    (flags : Nat) : Except Stop Reactor :=
  let user := UserData.unpackUserData userData
  let clientId := user.clientId.toNat
  if result = -EAGAIN ∨ result = -EBADF then .ok s
  else if result = -ENOBUFS then s.releaseBuffers inp false
  else if result = -32 then .ok s
  -- The precedence of the source: `&&` before `||`.
  else if result = 0 ∧ user.uniqId ≠ 0xCCC ∨ result = -ECONNRESET then
    .ok (s.closeConnection clientId true)
  else if result < 0 then .ok s
  else if user.uniqId = POLL_EVENT ∧ s.srv.ubKernelDma = true then s.ubdma user
  -- A send that posts a completion without an error.
  else if user.uniqId = 0xCCC then .ok s
  else if result > 0 then s.requestReply inp flags user result
  else .ok s

/-- `process_entry`. -/
def processEntry (s : Reactor) (inp : Input) (cqe : Cqe) : Except Stop Reactor :=
  if cqe.userData = BUFFER_REGISTER_CODE ∧ cqe.result = 0 ∧ cqe.flags = 0 then .ok s
  else if cqe.userData = CODE_ACCEPT then s.processEntryAccept cqe.result
  else if cqe.userData ≥ REQ_RESP_OFFSET then
    s.processEntryResponse inp cqe.userData cqe.result cqe.flags
  else .ok s

/-- The per-second metrics update. -/
def tick (s : Reactor) (inp : Input) : Reactor :=
  if inp.clock ≠ s.srv.synced then
    { s with srv := { s.srv with
        rps := s.srv.rpsNow, rpsNow := 0, synced := inp.clock, date := inp.date } }
  else s

/-- The reactor after a function that can stop the loop. A stop keeps the state in which
the function was called. -/
def orStop (s : Reactor) : Except Stop Reactor → Reactor
  | .ok s' => s'
  | .error why => { s with pc := .stopped why }

/-- The server runs to the next place in the loop. -/
def serverStep (s : Reactor) (inp : Input) : Option Reactor :=
  match s.pc with
  | .top =>
    let s := { s.tick inp with pc := .sync }
    if s.cq.isEmpty then some (s.orStop s.widebandSend) else some s
  | .sync =>
    if s.srv.syncNow then
      some { s with sq := s.sq.sync, srv := { s.srv with syncNow := false }, pc := .reap }
    else some { s with pc := .reap }
  | .reap =>
    if s.cq.isEmpty then
      -- `cq.sync()` makes everything visible that is posted.
      some { s with cq := s.kern.cq, kern := { s.kern with cq := [] }, pc := .submit }
    else some { s with pc := .submit }
  | .submit =>
    if s.cq.isEmpty then
      if inp.waitOk then some { s.submitAll with pc := .waiting }
      else some { s with pc := .stopped .ioError }
    -- The queue is looked at before the batch is processed.
    else if s.sq.len ≥ s.sq.capacity - 4 then
      if inp.submitOk then some { s.submitAll with pc := .process }
      else some { s with pc := .stopped .ioError }
    else some { s with pc := .process }
  | .waiting =>
    -- What woke the loop up is fetched in its next iteration only.
    if s.kern.cq.isEmpty then none else some { s with pc := .process }
  | .process =>
    match s.cq with
    | [] => some { s with pc := .idle }
    | cqe :: rest =>
      let s := { s with cq := rest }
      some (s.orStop (s.processEntry inp cqe))
  | .idle =>
    let s := { s with pc := .top }
    if s.srv.rps = 0 then some (s.orStop (s.releaseBuffers inp true)) else some s
  | .release idle => some (s.orStop (s.releaseRound inp idle))
  | .stopped _ => none

end Reactor

/-! ### The kernel's steps -/

inductive KernelAct
  | accept (fd : RawFd) (more : Bool)
  | acceptEnd (err : Nat)
  | recvData (i bufferId : Nat) (data : List UInt8) (more : Bool)
  | recvEnd (i : Nat) (result : Int)
  | pollEvent (i mask : Nat) (more : Bool)
  | pollEnd (i err : Nat)
  | sendDone (i sent : Nat)
  | sendFail (i err : Nat)
  | sqThread

namespace Reactor

/-- The bytes a send reads: they are in the output buffer of its slot. `none` when the
buffer has been removed. -/
def readOut (srv : Server) (d : OutSlice) : Option (List UInt8) :=
  (srv.clientOutBuffers.get d.slot).map fun lake => lake.buf.read 0 d.len

/-- One action of the kernel, when it is possible. -/
def kernelStep (s : Reactor) : KernelAct → Option Reactor
  | .accept fd more =>
    if 0 ≤ fd ∧ s.kern.owner fd = none ∧ 0 < s.kern.accepts then
      some { s with kern := s.kern.accept fd more }
    else none
  | .acceptEnd err =>
    if 0 < err ∧ 0 < s.kern.accepts then some { s with kern := s.kern.acceptEnd err }
    else none
  | .recvData i bufferId data more =>
    match s.kern.recvs[i]? with
    | some op =>
      -- The kernel picks a buffer of the group and writes into it.
      if bufferId ∈ s.kern.provided ∧ 0 < data.length ∧ data.length ≤ BUFFER_SIZE then
        some { s with
          srv := { s.srv with buffers := s.srv.buffers.write (bufferId * BUFFER_SIZE) data }
          kern := s.kern.recvData op i bufferId data.length more }
      else none
    | none => none
  | .recvEnd i result =>
    match s.kern.recvs[i]? with
    | some op => if result ≤ 0 then some { s with kern := s.kern.recvEnd op i result } else none
    | none => none
  | .pollEvent i mask more =>
    match s.kern.polls[i]? with
    | some op =>
      if 0 < mask then some { s with kern := s.kern.pollEvent op i mask more } else none
    | none => none
  | .pollEnd i err =>
    match s.kern.polls[i]? with
    | some op => if 0 < err then some { s with kern := s.kern.pollEnd op i err } else none
    | none => none
  | .sendDone i sent =>
    match s.kern.sends[i]? with
    | some op =>
      -- A short send counts as a success, and a success posts nothing.
      if sent ≤ op.data.len then
        some { s with
          kern := s.kern.sendDone i
          log := s.log ++ [.transmitted op (readOut s.srv op.data) sent] }
      else none
    | none => none
  | .sendFail i err =>
    match s.kern.sends[i]? with
    | some op =>
      if 0 < err then
        some { s with kern := s.kern.sendFail op i err, log := s.log ++ [.sendFailed op] }
      else none
    | none => none
  | .sqThread =>
    if s.srv.sqpollEnabled then
      match s.sq.take with
      | some (e, sq) => some { s with sq := sq, kern := s.kern.submit e }
      | none => none
    else none

end Reactor

/-- A step of the server or of the kernel. -/
inductive Act
  | server (inp : Input)
  | kernel (k : KernelAct)

namespace Reactor

def step (s : Reactor) : Act → Option Reactor
  | .server inp => s.serverStep inp
  | .kernel k => s.kernelStep k

end Reactor

/-! ### The start of `sq_poll` -/

/-- The public configuration and what the process brings along. -/
structure Config where
  uringSize : Nat
  sqpollEnabled : Bool
  ubKernelDma : Bool
  openFds : List RawFd

namespace Config

/-- The kernel builds rings of 1 to 32768 entries and rounds the size up to a power of
two. -/
def Buildable (cfg : Config) : Prop := 1 ≤ cfg.uringSize ∧ cfg.uringSize ≤ 32768

/-- The capacity of the submission queue. -/
def capacity (cfg : Config) : Nat := 2 ^ Nat.clog 2 cfg.uringSize

/-- `Server::new`, with the configuration. -/
def server (cfg : Config) : Server where
  sqpollEnabled := cfg.sqpollEnabled
  ubKernelDma := cfg.ubKernelDma
  clientFds := ExternStableVec.withCapacity 0
  date := Date.zero
  hotDataLake := SmallLake.build
  syncNow := true
  buffers := fun _ => 0
  releasedBuffers := []
  clientOutBuffers := ExternStableVec.withCapacity 65535
  hotInternalCache := fun _ => 0
  rps := 0
  rpsNow := 0
  synced := 0
  currentKernelBuf := none

end Config

namespace Reactor

/-- `BUFFERS_COUNT` entries of `register_buffers`. -/
def registerEntries : List Entry := (List.range BUFFERS_COUNT).map Entry.provideBuffer

/-- `register_buffers`, with `fuel` rounds of its retry loop. -/
def registerBuffers (fuel : Nat) (s : Reactor) : Option Reactor :=
  (s.sq.pushLoop registerEntries fuel).map fun sq => { s with sq := sq.sync }.submitAll

/-- `sq.push(&accept_multi(..)).unwrap()`, `n` times. `none` is the panic. -/
def armAccepts : Nat → SubmissionQueue Entry → Option (SubmissionQueue Entry)
  | 0, sq => some sq
  | n + 1, sq => (sq.push .acceptMulti).bind (armAccepts n)

/-- `reserve_writes_buffer`. -/
def reserveWritesBuffer : Nat → ExternStableVec RawFd → ExternStableVec RawFd
  | 0, v => v
  | n + 1, v => reserveWritesBuffer n (v.push 0xFFFF).2

/-- The reactor with a fresh ring. -/
def fresh (cfg : Config) : Reactor where
  srv := cfg.server
  sq := SubmissionQueue.empty cfg.capacity
  cq := []
  kern := Kernel.init cfg.openFds
  pc := .top
  log := []

/-- `sq_poll` up to its loop. `none`: the buffers are not handed over within `fuel` rounds,
or an accept entry does not fit. -/
def start (cfg : Config) (fuel : Nat) : Option Reactor :=
  (registerBuffers fuel (fresh cfg)).bind fun s =>
    (armAccepts DEFAULT_ACCEPT_MULTIPLICATOR s.sq).map fun sq =>
      let s := { s with sq := sq }.submitAll
      { s with srv := { s.srv with clientFds := reserveWritesBuffer 100 s.srv.clientFds } }

/-- The states at the first iteration of the loop. -/
def Started (s : Reactor) : Prop := ∃ cfg fuel, Config.Buildable cfg ∧ start cfg fuel = some s

/-- The states of a run of `sq_poll` whose steps all meet `guard`. -/
def ReachableUnder (guard : Reactor → Act → Prop) (s : Reactor) : Prop :=
  ∃ s₀ as, Started s₀ ∧ Run step guard s₀ as s

/-- The states of a run of `sq_poll`. -/
def Reachable (s : Reactor) : Prop := ReachableUnder (fun _ _ => True) s

end Reactor

end Tachyon
