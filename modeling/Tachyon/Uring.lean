import Mathlib.Logic.Function.Basic
import Tachyon.Lib.SubmissionQueue
import Tachyon.ServerInternals

/-!
# `Tachyon.Uring`: the ring entries and the kernel side

`uring/kernel_cmds.rs` builds the entries. The kernel side is what the server relies on:

* an entry resolves its descriptor number when the kernel takes it from the queue, and an
  entry on a closed descriptor completes with `-EBADF`;
* a multishot recv keeps its connection, so closing the descriptor does not end it. It posts
  data completions until its final one, which has no `MORE` flag;
* a send reads the bytes it points to when it executes. It posts nothing on success
  (`SKIP_SUCCESS`) and a negative result on failure;
* a `provide_buffer` entry adds its id to the group and completes with result 0.

A connection has an identity of its own (`ConnId`), because the kernel can hand out the number
of a closed descriptor again. `owner` is the descriptor table of the process. The descriptors
that are not client connections share the identity 0.
-/

set_option autoImplicit false

namespace Tachyon

def EBADF : Int := 9
def EAGAIN : Int := 11
def ECONNRESET : Int := 104
def ENOBUFS : Int := 105

abbrev RawFd := Int

/-- The identity of a connection. -/
abbrev ConnId := Nat

/-- `&data_lake.buf[..data_lake.pos]`: a pointer to the output buffer of one slot and a
length. `snapshot` records what the slice held when the entry was built. The kernel does not
see it. -/
structure OutSlice where
  slot : Nat
  len : Nat
  snapshot : List UInt8

/-- `squeue::Entry`, as `kernel_cmds` builds it. A `provide_buffer` entry carries
`BUFFER_REGISTER_CODE` and an `accept_multi` entry carries `CODE_ACCEPT`. -/
inductive Entry
  | provideBuffer (bufferId : Nat)
  | acceptMulti
  | recvMulti (clientFd : RawFd) (userData : UInt64)
  | pollAdd (clientFd : RawFd) (userData : UInt64)
  | send (userData : UInt64) (clientFd : RawFd) (data : OutSlice)

/-- `cqueue::Entry`. -/
structure Cqe where
  userData : UInt64
  result : Int
  flags : Nat

/-- Completion flags: the buffer id in the upper half, `F_BUFFER` and `F_MORE` below. -/
def cqeFlags (bufferId : Nat) (more : Bool) : Nat :=
  bufferId * 2 ^ 16 + (if more then 2 else 0) + 1

/-- An armed multishot recv or poll. It holds on to its connection, whatever becomes of the
descriptor number. -/
structure ArmedOp where
  userData : UInt64

/-- A send the kernel has taken and not yet executed. -/
structure SendOp where
  userData : UInt64
  conn : ConnId
  data : OutSlice

structure Kernel where
  owner : RawFd → Option ConnId
  nextConn : ConnId
  /-- How many multishot accepts are armed. -/
  accepts : Nat
  recvs : List ArmedOp
  polls : List ArmedOp
  sends : List SendOp
  /-- The buffer ids available in the group. -/
  provided : List Nat
  /-- The completions posted since the server last looked, oldest first. -/
  cq : List Cqe

namespace Kernel

/-- The kernel of a fresh ring. `openFds` are the descriptors the process has open. -/
def init (openFds : List RawFd) : Kernel where
  owner fd := if fd ∈ openFds then some 0 else none
  nextConn := 1
  accepts := 0
  recvs := []
  polls := []
  sends := []
  provided := []
  cq := []

def post (k : Kernel) (c : Cqe) : Kernel := { k with cq := k.cq ++ [c] }

/-- `libc::close`. -/
def close (k : Kernel) (fd : RawFd) : Kernel :=
  -- Armed operations on the connection stay.
  { k with owner := Function.update k.owner fd none }

/-- The kernel takes one entry from the submission queue. -/
def submit (k : Kernel) : Entry → Kernel
  | .provideBuffer id =>
    { k with provided := k.provided ++ [id] }.post ⟨BUFFER_REGISTER_CODE, 0, 0⟩
  | .acceptMulti => { k with accepts := k.accepts + 1 }
  | .recvMulti fd userData =>
    -- The number is resolved here, not when the entry was built.
    match k.owner fd with
    | some _ => { k with recvs := k.recvs ++ [⟨userData⟩] }
    | none => k.post ⟨userData, -EBADF, 0⟩
  | .pollAdd fd userData =>
    match k.owner fd with
    | some _ => { k with polls := k.polls ++ [⟨userData⟩] }
    | none => k.post ⟨userData, -EBADF, 0⟩
  | .send userData fd data =>
    match k.owner fd with
    | some conn => { k with sends := k.sends ++ [⟨userData, conn, data⟩] }
    | none => k.post ⟨userData, -EBADF, 0⟩

/-- Taking an entry changes no descriptor. -/
@[simp] theorem owner_submit (k : Kernel) (e : Entry) : (k.submit e).owner = k.owner := by
  cases e <;> simp only [submit] <;> (try split) <;> rfl

@[simp] theorem nextConn_submit (k : Kernel) (e : Entry) :
    (k.submit e).nextConn = k.nextConn := by
  cases e <;> simp only [submit] <;> (try split) <;> rfl

/-- Taking an entry posts at most one completion, and its result is not positive. -/
theorem cq_submit (k : Kernel) (e : Entry) : (k.submit e).cq = k.cq ∨
    ∃ cqe, (k.submit e).cq = k.cq ++ [cqe] ∧ cqe.result ≤ 0 := by
  have hbad : -EBADF ≤ 0 := by decide
  cases e with
  | provideBuffer id => exact .inr ⟨_, rfl, Int.le_refl 0⟩
  | acceptMulti => exact .inl rfl
  | recvMulti fd u | pollAdd fd u | send u fd data =>
    simp only [submit]
    cases k.owner fd with
    | none => exact .inr ⟨_, rfl, hbad⟩
    | some conn => exact .inl rfl

/-- A connection arrives on the free descriptor `fd`. -/
def accept (k : Kernel) (fd : RawFd) (more : Bool) : Kernel :=
  { k with
      owner := Function.update k.owner fd (some k.nextConn)
      nextConn := k.nextConn + 1
      accepts := if more then k.accepts else k.accepts - 1 }.post
    ⟨CODE_ACCEPT, fd, if more then 2 else 0⟩

/-- A multishot accept ends with an error. -/
def acceptEnd (k : Kernel) (err : Nat) : Kernel :=
  { k with accepts := k.accepts - 1 }.post ⟨CODE_ACCEPT, -err, 0⟩

/-- The `i`-th armed recv delivers `n` bytes in the buffer `bufferId`. -/
def recvData (k : Kernel) (op : ArmedOp) (i bufferId n : Nat) (more : Bool) : Kernel :=
  { k with
      provided := k.provided.erase bufferId
      recvs := if more then k.recvs else k.recvs.eraseIdx i }.post
    ⟨op.userData, n, cqeFlags bufferId more⟩

/-- The `i`-th armed recv ends without data. -/
def recvEnd (k : Kernel) (op : ArmedOp) (i : Nat) (result : Int) : Kernel :=
  { k with recvs := k.recvs.eraseIdx i }.post ⟨op.userData, result, 0⟩

/-- The `i`-th armed poll reports readiness. -/
def pollEvent (k : Kernel) (op : ArmedOp) (i mask : Nat) (more : Bool) : Kernel :=
  { k with polls := if more then k.polls else k.polls.eraseIdx i }.post
    ⟨op.userData, mask, if more then 2 else 0⟩

/-- The `i`-th armed poll ends with an error. -/
def pollEnd (k : Kernel) (op : ArmedOp) (i err : Nat) : Kernel :=
  { k with polls := k.polls.eraseIdx i }.post ⟨op.userData, -err, 0⟩

/-- The `i`-th send has executed. -/
def sendDone (k : Kernel) (i : Nat) : Kernel := { k with sends := k.sends.eraseIdx i }

/-- The `i`-th send fails. -/
def sendFail (k : Kernel) (op : SendOp) (i err : Nat) : Kernel :=
  { k with sends := k.sends.eraseIdx i }.post ⟨op.userData, -err, 0⟩

end Kernel

end Tachyon
