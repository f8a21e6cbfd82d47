import Cmpsc473.Channels.Moves
import Cmpsc473.Channels.System

/-!
# What a step of a thread can do

The steps of `channelSelect` and of `next`, one constructor for each way a step
can go.
-/

set_option linter.unusedSectionVars false

namespace Cmpsc473
namespace Channels

variable {T C A : Type} [DecidableEq T] [DecidableEq C] [DecidableEq A]

/-- The lock of the list on which an element of direction `d` waits changes hands. -/
def State.setListLock (st : State T C A) (c : C) (d : Dir) (owner : Option T) : State T C A :=
  st.setChan c ((st.chans c).setLock d.other owner)

/-- The list on which an element of direction `d` waits. -/
def State.waiters (st : State T C A) (c : C) (d : Dir) : List A := (st.chans c).list d.other

def State.setWaiters (st : State T C A) (c : C) (d : Dir) (l : List A) : State T C A :=
  st.setChan c ((st.chans c).setList d.other l)

/-- The steps of a select. -/
inductive SelectMove (st : State T C A) (t : T) (s : Select C A) :
    Event C A → State T C A → Prop
  | regCrash {i : Nat} (hpc : s.pc = .regLock i) (hi : i < s.channelList.length)
      (htarget : s.target i = none) : SelectMove st t s .internal (st.setThread t .crashed)
  | regLock {i : Nat} {c : C} {d : Dir} (hpc : s.pc = .regLock i) (hi : i < s.channelList.length)
      (htarget : s.target i = some (c, d)) (hlock : (st.chans c).lock d.other = none) :
      SelectMove st t s .internal
        ((st.setListLock c d (some t)).setThread t (s.goto (.regBody i)))
  | regDone {i : Nat} (hpc : s.pc = .regLock i) (hi : s.channelList.length ≤ i) :
      SelectMove st t s .internal (st.setThread t (s.goto (.scan 0)))
  | regFound {i : Nat} {c : C} {d : Dir} (hpc : s.pc = .regBody i)
      (htarget : s.target i = some (c, d)) (hmem : s.addr ∈ st.waiters c d) :
      SelectMove st t s .internal (st.setThread t (s.goto (.regUnlock i)))
  | regInsert {i : Nat} {c : C} {d : Dir} (hpc : s.pc = .regBody i)
      (htarget : s.target i = some (c, d)) (hmem : s.addr ∉ st.waiters c d) :
      SelectMove st t s (.alloc true)
        ((st.setWaiters c d (s.addr :: st.waiters c d)).setThread t (s.goto (.regUnlock i)))
  | regRefused {i : Nat} {c : C} {d : Dir} (hpc : s.pc = .regBody i)
      (htarget : s.target i = some (c, d)) (hmem : s.addr ∉ st.waiters c d) :
      SelectMove st t s (.alloc false) (st.setThread t (s.goto (.regUnlock i)))
  | regUnlock {i : Nat} {c : C} {d : Dir} (hpc : s.pc = .regUnlock i)
      (htarget : s.target i = some (c, d)) : SelectMove st t s .internal
        ((st.setListLock c d none).setThread t (s.goto (.regLock (i + 1))))
  | scanCrash {i : Nat} (hpc : s.pc = .scan i) (hentry : s.channelList[i]? = none) :
      SelectMove st t s .internal (st.setThread t .crashed)
  | scan {i : Nat} {e : Entry C} (hpc : s.pc = .scan i) (hentry : s.channelList[i]? = some e) :
      SelectMove st t s (.call e.chan e.dir e.data false)
        (st.setThread t (s.goto (.attempt i (startOp e.chan))))
  | attempt {i : Nat} {e : Entry C} {c : C} {pc : OpPc A} {r : OpStep T C A}
      (hpc : s.pc = .attempt i pc) (hentry : s.channelList[i]? = some e) (hchan : e.chan = some c)
      (hr : channelOp t c e.dir false (st.chans c) e.data pc = some r) :
      SelectMove st t s r.event
        (((st.setChan c r.chan).postLocal r.post).setThread t (.select { s with
          channelList := s.channelList.set i { e with data := r.data }
          pc := .attempt i r.pc }))
  | attemptDone {i : Nat} {e : Entry C} {status : Status} (hpc : s.pc = .attempt i (.done status))
      (hentry : s.channelList[i]? = some e) :
      SelectMove st t s (.ret e.chan e.dir status e.data)
        (st.setThread t (s.afterAttempt i status))
  | wait {v : Nat} (hpc : s.pc = .wait) (hlocal : st.locals s.addr = some (v + 1)) :
      SelectMove st t s .internal
        ((st.setLocal s.addr (some v)).setThread t (s.goto (.scan 0)))
  | remCrash {i : Nat} {status : Status} (hpc : s.pc = .remLock i status)
      (hi : i < s.channelList.length) (htarget : s.target i = none) :
      SelectMove st t s .internal (st.setThread t .crashed)
  | remLock {i : Nat} {status : Status} {c : C} {d : Dir} (hpc : s.pc = .remLock i status)
      (hi : i < s.channelList.length) (htarget : s.target i = some (c, d))
      (hlock : (st.chans c).lock d.other = none) : SelectMove st t s .internal
        ((st.setListLock c d (some t)).setThread t (s.goto (.remBody i status)))
  | remDone {i : Nat} {status : Status} (hpc : s.pc = .remLock i status)
      (hi : s.channelList.length ≤ i) :
      SelectMove st t s .internal (st.setThread t (s.goto (.destroy status)))
  | remBody {i : Nat} {status : Status} {c : C} {d : Dir} (hpc : s.pc = .remBody i status)
      (htarget : s.target i = some (c, d)) : SelectMove st t s .internal
        ((st.setWaiters c d ((st.waiters c d).erase s.addr)).setThread t
          (s.goto (.remUnlock i status)))
  | remUnlock {i : Nat} {status : Status} {c : C} {d : Dir} (hpc : s.pc = .remUnlock i status)
      (htarget : s.target i = some (c, d)) : SelectMove st t s .internal
        ((st.setListLock c d none).setThread t (s.goto (.remLock (i + 1) status)))
  | destroy {status : Status} (hpc : s.pc = .destroy status) :
      SelectMove st t s (.retSelect status s.selectedIndex)
        ((st.setLocal s.addr none).setThread t .idle)

/-- The steps of the system. -/
inductive Move (st : State T C A) (t : T) : Event C A → State T C A → Prop
  | call (chan : Option C) (dir : Dir) (data : UInt64) (blocking : Bool)
      (ht : st.threads t = .idle) : Move st t (.call chan dir data blocking)
        (st.setThread t (.op chan dir blocking data (startOp chan)))
  | op {c : C} {dir : Dir} {blocking : Bool} {data : UInt64} {pc : OpPc A} {r : OpStep T C A}
      (ht : st.threads t = .op (some c) dir blocking data pc)
      (hr : channelOp t c dir blocking (st.chans c) data pc = some r) : Move st t r.event
        (((st.setChan c r.chan).postLocal r.post).setThread t
          (.op (some c) dir blocking r.data r.pc))
  | ret {chan : Option C} {dir : Dir} {blocking : Bool} {data : UInt64} {status : Status}
      (ht : st.threads t = .op chan dir blocking data (.done status)) :
      Move st t (.ret chan dir status data) (st.setThread t .idle)
  | callClose (chan : Option C) (ht : st.threads t = .idle) : Move st t (.callClose chan)
      (st.setThread t (.close chan (startClose chan)))
  | close {c : C} {pc : ClosePc A} {r : CloseStep T A} (ht : st.threads t = .close (some c) pc)
      (hr : channelClose t (st.chans c) pc = some r) : Move st t .internal
        (((st.setChan c r.chan).postLocal r.post).setThread t (.close (some c) r.pc))
  | retClose {chan : Option C} {status : Status}
      (ht : st.threads t = .close chan (.done status)) :
      Move st t (.retClose chan status) (st.setThread t .idle)
  | callSelect (channelList : List (Entry C)) (addr : A) (selectedIndex : Nat)
      (ht : st.threads t = .idle) (haddr : st.locals addr = none)
      (hcount : channelList.length < 2 ^ 64) : Move st t (.callSelect channelList addr)
        ((st.setLocal addr (some 0)).setThread t
          (.select { channelList, addr, selectedIndex, pc := .regLock 0 }))
  | select {s : Select C A} {e : Event C A} {st' : State T C A} (ht : st.threads t = .select s)
      (h : SelectMove st t s e st') : Move st t e st'

variable {st st' : State T C A} {t : T} {e : Event C A}

theorem OpPc.result_eq_some {pc : OpPc A} {status : Status} (h : pc.result = some status) :
    pc = .done status := by
  cases pc <;> cases h
  rfl

theorem ClosePc.result_eq_some {pc : ClosePc A} {status : Status} (h : pc.result = some status) :
    pc = .done status := by
  cases pc <;> cases h
  rfl

theorem callOp_eq (t : T) (c : C) (dir : Dir) (blocking : Bool) (ch : Chan T A) (data : UInt64)
    (pc : OpPc A) : callOp t c dir blocking ch data pc = channelOp t c dir blocking ch data pc := by
  cases dir <;> rfl

theorem channelSelect_move {alloc : Bool} {s : Select C A}
    (h : channelSelect st t alloc s = some (e, st')) : SelectMove st t s e st' := by
  unfold channelSelect at h
  split at h
  · -- regLock
    rename_i i hpc
    split at h
    · rename_i hi
      split at h
      · rename_i htarget
        cases h
        exact .regCrash hpc hi htarget
      · rename_i c d htarget
        split at h
        · rename_i hlock
          cases h
          exact .regLock hpc hi htarget (Option.isNone_iff_eq_none.mp hlock)
        · cases h
    · rename_i hi
      cases h
      exact .regDone hpc (by omega)
  · -- regBody
    rename_i i hpc
    split at h
    · cases h
    · rename_i c d htarget
      dsimp only at h
      split at h
      · rename_i hmem
        cases h
        exact .regFound hpc htarget hmem
      · rename_i hmem
        split at h
        · cases h
          exact .regInsert hpc htarget hmem
        · cases h
          exact .regRefused hpc htarget hmem
  · -- regUnlock
    rename_i i hpc
    split at h
    · cases h
    · rename_i c d htarget
      cases h
      exact .regUnlock hpc htarget
  · -- scan
    rename_i i hpc
    split at h
    · rename_i hentry
      cases h
      exact .scanCrash hpc hentry
    · rename_i entry hentry
      cases h
      exact .scan hpc hentry
  · -- attempt
    rename_i i pc hpc
    split at h
    · cases h
    · rename_i entry hentry
      split at h
      · rename_i status hresult
        cases h
        rw [OpPc.result_eq_some hresult] at hpc
        exact .attemptDone hpc hentry
      · cases h
      · rename_i c hresult hchan
        rw [callOp_eq, Option.map_eq_some_iff] at h
        obtain ⟨r, hr, heq⟩ := h
        cases heq
        exact .attempt hpc hentry hchan hr
  · -- wait
    rename_i hpc
    split at h
    · rename_i v hlocal
      cases h
      exact .wait hpc hlocal
    · cases h
  · -- remLock
    rename_i i status hpc
    split at h
    · rename_i hi
      split at h
      · rename_i htarget
        cases h
        exact .remCrash hpc hi htarget
      · rename_i c d htarget
        split at h
        · rename_i hlock
          cases h
          exact .remLock hpc hi htarget (Option.isNone_iff_eq_none.mp hlock)
        · cases h
    · rename_i hi
      cases h
      exact .remDone hpc (by omega)
  · -- remBody
    rename_i i status hpc
    split at h
    · cases h
    · rename_i c d htarget
      cases h
      exact .remBody hpc htarget
  · -- remUnlock
    rename_i i status hpc
    split at h
    · cases h
    · rename_i c d htarget
      cases h
      exact .remUnlock hpc htarget
  · -- destroy
    rename_i status hpc
    cases h
    exact .destroy hpc

theorem next_move {alloc : Bool} (h : next st t alloc = some (e, st')) : Move st t e st' := by
  unfold next at h
  split at h
  · cases h
  · rename_i chan dir blocking data pc ht
    split at h
    · rename_i status hresult
      cases h
      rw [OpPc.result_eq_some hresult] at ht
      exact .ret ht
    · cases h
    · rename_i c hresult
      rw [callOp_eq, Option.map_eq_some_iff] at h
      obtain ⟨r, hr, heq⟩ := h
      cases heq
      exact .op ht hr
  · rename_i chan pc ht
    split at h
    · rename_i status hresult
      cases h
      rw [ClosePc.result_eq_some hresult] at ht
      exact .retClose ht
    · cases h
    · rename_i c hresult
      rw [Option.map_eq_some_iff] at h
      obtain ⟨r, hr, heq⟩ := h
      cases heq
      exact .close ht hr
  · rename_i s ht
    exact .select ht (channelSelect_move h)
  · cases h

theorem Step.move (h : Step st (t, e) st') : Move st t e st' := by
  cases h with
  | call chan dir data blocking ht => exact .call chan dir data blocking ht
  | callClose chan ht => exact .callClose chan ht
  | callSelect channelList addr selectedIndex ht haddr hcount =>
    exact .callSelect channelList addr selectedIndex ht haddr hcount
  | run alloc h => exact next_move h

/-- The step of a thread that is in a select. -/
theorem Move.of_select {s : Select C A} (h : Move st t e st') (hs : st.threads t = .select s) :
    SelectMove st t s e st' := by
  cases h with
  | select ht hmove =>
    cases hs.symm.trans ht
    exact hmove
  | call _ _ _ _ ht => exact absurd (hs.symm.trans ht) nofun
  | op ht => exact absurd (hs.symm.trans ht) nofun
  | ret ht => exact absurd (hs.symm.trans ht) nofun
  | callClose _ ht => exact absurd (hs.symm.trans ht) nofun
  | close ht => exact absurd (hs.symm.trans ht) nofun
  | retClose ht => exact absurd (hs.symm.trans ht) nofun
  | callSelect _ _ _ ht => exact absurd (hs.symm.trans ht) nofun

/-- The same call of `channel_select`: only `data` fields, `selected_index` and the
place in the code may differ. -/
structure Select.SameCall (s s' : Select C A) : Prop where
  addr : s'.addr = s.addr
  length : s'.channelList.length = s.channelList.length
  target : ∀ i, s'.target i = s.target i

theorem Select.SameCall.refl (s : Select C A) : s.SameCall s := ⟨rfl, rfl, fun _ => rfl⟩

theorem Select.sameCall_setData {s : Select C A} {i : Nat} {entry : Entry C} (v : UInt64)
    (pc : SelectPc A) (hentry : s.channelList[i]? = some entry) :
    s.SameCall { s with channelList := s.channelList.set i { entry with data := v }, pc := pc } where
  addr := rfl
  length := List.length_set
  target j := by
    unfold Select.target
    by_cases hij : i = j
    · rw [← hij, List.getElem?_set_self (List.getElem?_eq_some_iff.mp hentry).1, hentry]
      rfl
    · rw [List.getElem?_set_ne hij]

/-- The comparison `i == channel_count - 1`, on `size_t`. -/
theorem last_index {n i : Nat} (hpos : 0 < n) (hlt : n < 2 ^ 64) :
    i = (n + 2 ^ 64 - 1) % 2 ^ 64 ↔ i + 1 = n := by
  have hmod : (n + 2 ^ 64 - 1) % 2 ^ 64 = n - 1 := by
    rw [show n + 2 ^ 64 - 1 = n - 1 + 2 ^ 64 by omega, Nat.add_mod_right,
      Nat.mod_eq_of_lt (by omega)]
  omega

theorem Select.afterAttempt_sameCall (s : Select C A) (i : Nat) (status : Status) :
    ∃ s', s.afterAttempt i status = .select s' ∧ s.SameCall s' := by
  unfold Select.afterAttempt Select.goto
  split
  · exact ⟨_, rfl, rfl, rfl, fun _ => rfl⟩
  · exact ⟨_, rfl, rfl, rfl, fun _ => rfl⟩

@[simp] theorem State.threads_setThread (st : State T C A) (t : T) (x : Thread C A) :
    (st.setThread t x).threads = Function.update st.threads t x := rfl

theorem State.threads_setThread_self (st : State T C A) (t : T) (x : Thread C A) :
    (st.setThread t x).threads t = x := Function.update_self t _ _

/-- A step of a select ends the thread's call, or leaves it in the same call. -/
theorem SelectMove.sameCall {s : Select C A} (h : SelectMove st t s e st') :
    (∃ s', st'.threads t = .select s' ∧ s.SameCall s') ∨ st'.threads t = .crashed ∨
      st'.threads t = .idle := by
  have hgoto : ∀ {u : State T C A} (pc : SelectPc A),
      ∃ s', (u.setThread t (s.goto pc)).threads t = .select s' ∧ s.SameCall s' := by
    intro u pc
    exact ⟨_, Function.update_self t _ _, rfl, rfl, fun _ => rfl⟩
  cases h with
  | regCrash => exact Or.inr (Or.inl (Function.update_self t _ _))
  | scanCrash => exact Or.inr (Or.inl (Function.update_self t _ _))
  | remCrash => exact Or.inr (Or.inl (Function.update_self t _ _))
  | destroy => exact Or.inr (Or.inr (Function.update_self t _ _))
  | attempt _ hentry =>
    exact Or.inl ⟨_, Function.update_self t _ _, Select.sameCall_setData _ _ hentry⟩
  | @attemptDone i _ status =>
    obtain ⟨s', hs', hsame⟩ := s.afterAttempt_sameCall i status
    exact Or.inl ⟨s', (Function.update_self t _ _).trans hs', hsame⟩
  | _ => exact Or.inl (hgoto _)

/-- A step changes one thread. -/
theorem Move.threads_of_ne {u : T} (h : Move st t e st') (hu : u ≠ t) :
    st'.threads u = st.threads u := by
  have hset : ∀ {s : State T C A} {x : Thread C A}, s.threads = st.threads →
      (s.setThread t x).threads u = st.threads u := by
    intro s x hs
    rw [State.threads_setThread, hs, Function.update_of_ne hu]
  have hpost : ∀ {s : State T C A} {p : Option A}, s.threads = st.threads →
      (s.postLocal p).threads = st.threads := by
    intro s p hs
    cases p with
    | none => exact hs
    | some a => exact hs
  cases h with
  | op => exact hset (hpost rfl)
  | close => exact hset (hpost rfl)
  | select _ h =>
    cases h with
    | attempt => exact hset (hpost rfl)
    | _ => exact hset rfl
  | _ => exact hset rfl

end Channels
end Cmpsc473
