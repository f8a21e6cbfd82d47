import Cmpsc473.Channels.Buffer

/-!
# The program `channel.c`: one channel

`channel_send`, `channel_receive` and `channel_close` as machines.  One step is
one operation on a semaphore or a lock, or the body of a critical section that
`channel->mutex` guards; `list_foreach` posts one semaphore a step.  A step that
would block has no result.

`channel_send` and `channel_receive` are one function of the direction: where one
takes `available`, adds to the buffer and posts `used` and then `send_list`, the
other takes `used`, removes from it and posts `available` and then `recv_list`.
They differ in one more place: a non-blocking receive that finds the channel
closed posts `used` although it took nothing (`OpPc.fullPost`).
-/

namespace Cmpsc473
namespace Channels

inductive Status
  | success
  | wouldblock
  | otherError
  | closedError
  | destroyError
deriving DecidableEq, Repr

/-- The operations, and what belongs to them in a channel: `send` stands for
`available`, `send_list` and `send_lock`, and `recv` for `used`, `recv_list` and
`recv_lock`. -/
inductive Dir
  | send
  | recv
deriving DecidableEq, Repr

def Dir.other : Dir → Dir
  | send => recv
  | recv => send

@[simp] theorem Dir.other_other (d : Dir) : d.other.other = d := by
  cases d <;> rfl

/-- `T` are the threads and `A` the addresses of the semaphores of selects.  The
waiter lists hold such addresses. -/
structure Chan (T A : Type) where
  buffer : Buffer
  closed : Bool
  mutex : Nat
  permit : Dir → Nat
  list : Dir → List A
  lock : Dir → Option T

def semValueMax : Nat := 2147483647

/-- `sem_post`: at the largest value it fails and changes nothing. -/
def semPost (v : Nat) : Nat := if v < semValueMax then v + 1 else v

theorem one_le_semPost (v : Nat) : 1 ≤ semPost v := by
  unfold semPost semValueMax
  split <;> omega

/-- `sem_init`: the value of the semaphore, if it is initialised at all. -/
def semInit (value : Nat) : Option Nat := if value ≤ semValueMax then some value else none

theorem semPost_of_lt {v : Nat} (h : v < semValueMax) : semPost v = v + 1 := if_pos h

namespace Chan

variable {T A : Type}

def available (ch : Chan T A) : Nat := ch.permit .send

def used (ch : Chan T A) : Nat := ch.permit .recv

def takePermit (ch : Chan T A) (d : Dir) : Chan T A :=
  { ch with permit := Function.update ch.permit d (ch.permit d - 1) }

def postPermit (ch : Chan T A) (d : Dir) : Chan T A :=
  { ch with permit := Function.update ch.permit d (semPost (ch.permit d)) }

def takeMutex (ch : Chan T A) : Chan T A := { ch with mutex := ch.mutex - 1 }

def postMutex (ch : Chan T A) : Chan T A := { ch with mutex := semPost ch.mutex }

def setLock (ch : Chan T A) (d : Dir) (owner : Option T) : Chan T A :=
  { ch with lock := Function.update ch.lock d owner }

def setList (ch : Chan T A) (d : Dir) (l : List A) : Chan T A :=
  { ch with list := Function.update ch.list d l }

theorem permit_takePermit (ch : Chan T A) (d e : Dir) :
    (ch.takePermit e).permit d = if d = e then ch.permit d - 1 else ch.permit d := by
  show Function.update ch.permit e (ch.permit e - 1) d = _
  by_cases h : d = e
  · rw [h, if_pos rfl, Function.update_self]
  · rw [if_neg h, Function.update_of_ne h]

theorem permit_postPermit (ch : Chan T A) (d e : Dir) :
    (ch.postPermit e).permit d = if d = e then semPost (ch.permit d) else ch.permit d := by
  show Function.update ch.permit e (semPost (ch.permit e)) d = _
  by_cases h : d = e
  · rw [h, if_pos rfl, Function.update_self]
  · rw [if_neg h, Function.update_of_ne h]

end Chan

/-- `channel_create`, for a positive size and allocations that succeed.  They leave `data`
in the slots and `garbage` in the semaphores; `available` keeps it where the size, cut to 32
bits, is no value of a semaphore. -/
def channelCreate {T A : Type} (size : Nat) (data : Nat → UInt64) (garbage : Nat) : Chan T A where
  buffer := bufferCreate size data
  closed := false
  mutex := 1
  permit
    | .send => (semInit (size % 2 ^ 32)).getD garbage
    | .recv => 0
  list _ := []
  lock _ := none

/-- An element of `channel_list`.  Its `data` is the message to send, or is
written by the receive. -/
structure Entry (C : Type) where
  chan : Option C
  isSend : Bool
  data : UInt64

def Entry.dir {C : Type} (e : Entry C) : Dir := if e.isSend then .send else .recv

inductive Event (C A : Type)
  | internal
  /-- `channel_send` or `channel_receive` is called, and returns; `data` is the
  message, or what the pointer for it points to. -/
  | call (chan : Option C) (dir : Dir) (data : UInt64) (blocking : Bool)
  | ret (chan : Option C) (dir : Dir) (st : Status) (data : UInt64)
  | added (chan : C) (v : UInt64)
  | removed (chan : C) (v : UInt64)
  | callClose (chan : Option C)
  | retClose (chan : Option C) (st : Status)
  | callSelect (channelList : List (Entry C)) (addr : A)
  /-- `list_insert` asks for a node. -/
  | alloc (ok : Bool)
  | retSelect (st : Status) (selectedIndex : Nat)

/-- Where a call is: the operation that comes next. -/
inductive OpPc (A : Type)
  | take
  | fullLock
  | fullCheck
  | fullUnlock (closed : Bool)
  | fullPost
  | lock
  | body
  | closedUnlock
  | closedPost
  | errUnlock
  | unlock
  | postOther
  | listLock
  | notify (rest : List A)
  | done (st : Status)

/-- What a step of a call does. -/
structure OpStep (T C A : Type) where
  chan : Chan T A
  data : UInt64
  pc : OpPc A
  event : Event C A
  /-- The semaphore of a select that is posted. -/
  post : Option A

section Operations

variable {T C A : Type} (self : T) (c : C)

/-- The body of the critical section on an open channel: `buffer_add` or
`buffer_remove`, and `*data = remData`. -/
def bufferOp (dir : Dir) (ch : Chan T A) (data : UInt64) : OpStep T C A :=
  match dir with
  | .send =>
    let (added, buffer) := bufferAdd data ch.buffer
    if added then ⟨{ ch with buffer := buffer }, data, .unlock, .added c data, none⟩
    else ⟨{ ch with buffer := buffer }, data, .errUnlock, .internal, none⟩
  | .recv =>
    let (remData, buffer) := bufferRemove ch.buffer
    let event := if ch.buffer.size > 0 then .removed c remData else .internal
    if remData = bufferEmpty then ⟨{ ch with buffer := buffer }, data, .errUnlock, event, none⟩
    else ⟨{ ch with buffer := buffer }, remData, .unlock, event, none⟩

def channelOp (dir : Dir) (blocking : Bool) (ch : Chan T A) (data : UInt64) :
    OpPc A → Option (OpStep T C A)
  | .take =>
    if 0 < ch.permit dir then some ⟨ch.takePermit dir, data, .lock, .internal, none⟩
    else if blocking then none
    else some ⟨ch, data, .fullLock, .internal, none⟩
  | .fullLock =>
    if 0 < ch.mutex then some ⟨ch.takeMutex, data, .fullCheck, .internal, none⟩ else none
  | .fullCheck => some ⟨ch, data, .fullUnlock ch.closed, .internal, none⟩
  | .fullUnlock closed =>
    let pc := if closed then
        match dir with
        | .send => .done .closedError
        | .recv => .fullPost
      else .done .wouldblock
    some ⟨ch.postMutex, data, pc, .internal, none⟩
  | .fullPost => some ⟨ch.postPermit dir, data, .done .closedError, .internal, none⟩
  | .lock => if 0 < ch.mutex then some ⟨ch.takeMutex, data, .body, .internal, none⟩ else none
  | .body =>
    if ch.closed then some ⟨ch, data, .closedUnlock, .internal, none⟩
    else some (bufferOp c dir ch data)
  | .closedUnlock => some ⟨ch.postMutex, data, .closedPost, .internal, none⟩
  | .closedPost => some ⟨ch.postPermit dir, data, .done .closedError, .internal, none⟩
  | .errUnlock => some ⟨ch.postMutex, data, .done .otherError, .internal, none⟩
  | .unlock => some ⟨ch.postMutex, data, .postOther, .internal, none⟩
  | .postOther => some ⟨ch.postPermit dir.other, data, .listLock, .internal, none⟩
  | .listLock =>
    if (ch.lock dir).isNone then
      some ⟨ch.setLock dir (some self), data, .notify (ch.list dir), .internal, none⟩
    else none
  | .notify [] => some ⟨ch.setLock dir none, data, .done .success, .internal, none⟩
  | .notify (a :: rest) => some ⟨ch, data, .notify rest, .internal, some a⟩
  | .done _ => none

def channelSend (blocking : Bool) (ch : Chan T A) (data : UInt64) (pc : OpPc A) :
    Option (OpStep T C A) := channelOp self c .send blocking ch data pc

def channelReceive (blocking : Bool) (ch : Chan T A) (data : UInt64) (pc : OpPc A) :
    Option (OpStep T C A) := channelOp self c .recv blocking ch data pc

end Operations

/-- The first operation of a call, after the check for NULL. -/
def startOp {C A : Type} : Option C → OpPc A
  | none => .done .otherError
  | some _ => .take

inductive ClosePc (A : Type)
  | lock
  | body
  | errUnlock
  /-- `sem_post` of `available`, then of `used`. -/
  | post (dir : Dir)
  | unlock
  | listLock (dir : Dir)
  | notify (dir : Dir) (rest : List A)
  | done (st : Status)

structure CloseStep (T A : Type) where
  chan : Chan T A
  pc : ClosePc A
  post : Option A

def channelClose {T A : Type} (self : T) (ch : Chan T A) : ClosePc A → Option (CloseStep T A)
  | .lock => if 0 < ch.mutex then some ⟨ch.takeMutex, .body, none⟩ else none
  | .body =>
    if ch.closed then some ⟨ch, .errUnlock, none⟩
    else some ⟨{ ch with closed := true }, .post .send, none⟩
  | .errUnlock => some ⟨ch.postMutex, .done .closedError, none⟩
  | .post .send => some ⟨ch.postPermit .send, .post .recv, none⟩
  | .post .recv => some ⟨ch.postPermit .recv, .unlock, none⟩
  | .unlock => some ⟨ch.postMutex, .listLock .send, none⟩
  | .listLock dir =>
    if (ch.lock dir).isNone then
      some ⟨ch.setLock dir (some self), .notify dir (ch.list dir), none⟩
    else none
  | .notify dir (a :: rest) => some ⟨ch, .notify dir rest, some a⟩
  | .notify .send [] => some ⟨ch.setLock .send none, .listLock .recv, none⟩
  | .notify .recv [] => some ⟨ch.setLock .recv none, .done .success, none⟩
  | .done _ => none

def startClose {C A : Type} : Option C → ClosePc A
  | none => .done .otherError
  | some _ => .lock

end Channels
end Cmpsc473
