import Cmpsc473.Channels.Channel
import Cmpsc473.Library.Transition

/-!
# The program `channel.c`: threads and `channel_select`

Any number of threads call `channel_send`, `channel_receive`, `channel_close` and
`channel_select` on any number of channels.  A state holds the channels, where
each thread is, and the semaphores that running selects have on their stacks.
A thread that reads a channel through NULL, or an element behind the end of
`channel_list`, has crashed and does no further step.
-/

namespace Cmpsc473
namespace Channels

/-- Where a select is.  The numbers are those of the variable `i` of its loops. -/
inductive SelectPc (A : Type)
  | regLock (i : Nat)
  | regBody (i : Nat)
  | regUnlock (i : Nat)
  | scan (i : Nat)
  /-- In `channel_send` or `channel_receive` on element `i`. -/
  | attempt (i : Nat) (pc : OpPc A)
  | wait
  | remLock (i : Nat) (st : Status)
  | remBody (i : Nat) (st : Status)
  | remUnlock (i : Nat) (st : Status)
  | destroy (st : Status)

structure Select (C A : Type) where
  channelList : List (Entry C)
  /-- The address of `local`. -/
  addr : A
  selectedIndex : Nat
  pc : SelectPc A

inductive Thread (C A : Type)
  | idle
  | op (chan : Option C) (dir : Dir) (blocking : Bool) (data : UInt64) (pc : OpPc A)
  | close (chan : Option C) (pc : ClosePc A)
  | select (s : Select C A)
  | crashed

structure State (T C A : Type) where
  chans : C → Chan T A
  threads : T → Thread C A
  /-- The values of the semaphores `local`; `none` before `sem_init` and after
  `sem_destroy`. -/
  locals : A → Option Nat

/-- The result of a call that has one. -/
def OpPc.result {A : Type} : OpPc A → Option Status
  | .done st => some st
  | _ => none

def ClosePc.result {A : Type} : ClosePc A → Option Status
  | .done st => some st
  | _ => none

section

variable {T C A : Type} [DecidableEq T] [DecidableEq C] [DecidableEq A]

namespace State

def setThread (s : State T C A) (t : T) (x : Thread C A) : State T C A :=
  { s with threads := Function.update s.threads t x }

def setChan (s : State T C A) (c : C) (ch : Chan T A) : State T C A :=
  { s with chans := Function.update s.chans c ch }

def setLocal (s : State T C A) (a : A) (v : Option Nat) : State T C A :=
  { s with locals := Function.update s.locals a v }

/-- `sem_post` of the semaphore of a select, if there is one to post. -/
def postLocal (s : State T C A) : Option A → State T C A
  | none => s
  | some a => s.setLocal a ((s.locals a).map semPost)

end State

namespace Select

/-- The channel and the direction of element `i`, when its channel is not NULL. -/
def target (s : Select C A) (i : Nat) : Option (C × Dir) :=
  match s.channelList[i]? with
  | none => none
  | some e => e.chan.map fun c => (c, e.dir)

def goto (s : Select C A) (pc : SelectPc A) : Thread C A := .select { s with pc := pc }

/-- After an attempt on element `i`: the loop goes on, or ends and sets
`*selected_index`. -/
def afterAttempt (s : Select C A) (i : Nat) (st : Status) : Thread C A :=
  if st ≠ .wouldblock ∨ i = (s.channelList.length + 2 ^ 64 - 1) % 2 ^ 64 then
    .select { s with
      selectedIndex := i
      pc := if st ≠ .wouldblock then .remLock 0 st else .wait }
  else s.goto (.scan (i + 1))

end Select

/-- `channel_send` or `channel_receive`, by the direction. -/
def callOp (t : T) (c : C) (dir : Dir) (blocking : Bool) (ch : Chan T A) (data : UInt64)
    (pc : OpPc A) : Option (OpStep T C A) :=
  match dir with
  | .send => channelSend t c blocking ch data pc
  | .recv => channelReceive t c blocking ch data pc

/-- `alloc` says whether a node that `list_insert` asks for is granted. -/
def channelSelect (st : State T C A) (t : T) (alloc : Bool) (s : Select C A) :
    Option (Event C A × State T C A) :=
  match s.pc with
  | .regLock i =>
    if i < s.channelList.length then
      match s.target i with
      | none => some (.internal, st.setThread t .crashed)
      | some (c, d) =>
        if ((st.chans c).lock d.other).isNone then
          some (.internal, (st.setChan c ((st.chans c).setLock d.other (some t))).setThread t
            (s.goto (.regBody i)))
        else none
    else some (.internal, st.setThread t (s.goto (.scan 0)))
  | .regBody i =>
    match s.target i with
    | none => none
    | some (c, d) =>
      let l := (st.chans c).list d.other
      if s.addr ∈ l then some (.internal, st.setThread t (s.goto (.regUnlock i)))
      else if alloc then
        some (.alloc true, (st.setChan c ((st.chans c).setList d.other (s.addr :: l))).setThread t
          (s.goto (.regUnlock i)))
      else some (.alloc false, st.setThread t (s.goto (.regUnlock i)))
  | .regUnlock i =>
    match s.target i with
    | none => none
    | some (c, d) =>
      some (.internal, (st.setChan c ((st.chans c).setLock d.other none)).setThread t
        (s.goto (.regLock (i + 1))))
  | .scan i =>
    match s.channelList[i]? with
    | none => some (.internal, st.setThread t .crashed)
    | some e =>
      some (.call e.chan e.dir e.data false,
        st.setThread t (s.goto (.attempt i (startOp e.chan))))
  | .attempt i pc =>
    match s.channelList[i]? with
    | none => none
    | some e =>
      match pc.result, e.chan with
      | some status, _ =>
        some (.ret e.chan e.dir status e.data, st.setThread t (s.afterAttempt i status))
      | none, none => none
      | none, some c =>
        (callOp t c e.dir false (st.chans c) e.data pc).map fun r =>
          (r.event, ((st.setChan c r.chan).postLocal r.post).setThread t (.select { s with
            channelList := s.channelList.set i { e with data := r.data }
            pc := .attempt i r.pc }))
  | .wait =>
    match st.locals s.addr with
    | some (v + 1) =>
      some (.internal, (st.setLocal s.addr (some v)).setThread t (s.goto (.scan 0)))
    | _ => none
  | .remLock i status =>
    if i < s.channelList.length then
      match s.target i with
      | none => some (.internal, st.setThread t .crashed)
      | some (c, d) =>
        if ((st.chans c).lock d.other).isNone then
          some (.internal, (st.setChan c ((st.chans c).setLock d.other (some t))).setThread t
            (s.goto (.remBody i status)))
        else none
    else some (.internal, st.setThread t (s.goto (.destroy status)))
  | .remBody i status =>
    match s.target i with
    | none => none
    | some (c, d) =>
      let l := (st.chans c).list d.other
      some (.internal, (st.setChan c ((st.chans c).setList d.other (l.erase s.addr))).setThread t
        (s.goto (.remUnlock i status)))
  | .remUnlock i status =>
    match s.target i with
    | none => none
    | some (c, d) =>
      some (.internal, (st.setChan c ((st.chans c).setLock d.other none)).setThread t
        (s.goto (.remLock (i + 1) status)))
  | .destroy status =>
    some (.retSelect status s.selectedIndex, (st.setLocal s.addr none).setThread t .idle)

/-- The next step of a thread that is in a call. -/
def next (st : State T C A) (t : T) (alloc : Bool) : Option (Event C A × State T C A) :=
  match st.threads t with
  | .idle => none
  | .op chan dir blocking data pc =>
    match pc.result, chan with
    | some status, _ => some (.ret chan dir status data, st.setThread t .idle)
    | none, none => none
    | none, some c =>
      (callOp t c dir blocking (st.chans c) data pc).map fun r =>
        (r.event, ((st.setChan c r.chan).postLocal r.post).setThread t
          (.op chan dir blocking r.data r.pc))
  | .close chan pc =>
    match pc.result, chan with
    | some status, _ => some (.retClose chan status, st.setThread t .idle)
    | none, none => none
    | none, some c =>
      (channelClose t (st.chans c) pc).map fun r =>
        (.internal, ((st.setChan c r.chan).postLocal r.post).setThread t (.close chan r.pc))
  | .select s => channelSelect st t alloc s
  | .crashed => none

/-- The steps of the system, each with the thread that does it. -/
inductive Step : State T C A → T × Event C A → State T C A → Prop
  | call {st : State T C A} {t : T} (chan : Option C) (dir : Dir) (data : UInt64)
      (blocking : Bool) (hidle : st.threads t = .idle) :
      Step st (t, .call chan dir data blocking)
        (st.setThread t (.op chan dir blocking data (startOp chan)))
  | callClose {st : State T C A} {t : T} (chan : Option C) (hidle : st.threads t = .idle) :
      Step st (t, .callClose chan) (st.setThread t (.close chan (startClose chan)))
  | callSelect {st : State T C A} {t : T} (channelList : List (Entry C)) (addr : A)
      (selectedIndex : Nat) (hidle : st.threads t = .idle) (haddr : st.locals addr = none)
      (hcount : channelList.length < 2 ^ 64) :
      Step st (t, .callSelect channelList addr)
        ((st.setLocal addr (some 0)).setThread t
          (.select { channelList, addr, selectedIndex, pc := .regLock 0 }))
  | run {st st' : State T C A} {t : T} {e : Event C A} (alloc : Bool)
      (h : next st t alloc = some (e, st')) : Step st (t, e) st'

/-- The channels were just created, with the capacities `cap`, and no thread is in a
call. -/
structure Initial (cap : C → Nat) (st : State T C A) : Prop where
  chans : ∀ c, ∃ data garbage, st.chans c = channelCreate (cap c) data garbage
  threads : ∀ t, st.threads t = .idle
  locals : ∀ a, st.locals a = none

end

/-- Two threads, and a channel with room for one message. -/
def pair : State Bool Unit Unit where
  chans _ := channelCreate 1 (fun _ => 0) 0
  threads _ := .idle
  locals _ := none

theorem pair_initial : Initial (fun _ => 1) pair :=
  ⟨fun _ => ⟨_, _, rfl⟩, fun _ => rfl, fun _ => rfl⟩

end Channels
end Cmpsc473
