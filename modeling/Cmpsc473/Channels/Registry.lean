import Cmpsc473.Channels.Single
import Cmpsc473.Library.WaitList

/-!
# The waiter lists

The lists of all channels, their locks and the semaphores of selects, as waiter
lists: a select puts the address of its semaphore into a list for each of its
entries and takes it out again, and a sender, a receiver or a closer walks a list
and posts what it finds.  Every step of the system is a step there (`Step.waits`).
-/

set_option linter.unusedSectionVars false

namespace Cmpsc473
namespace Channels

variable {T C A : Type} [DecidableEq T] [DecidableEq C] [DecidableEq A]

/-- The list on which entry `i` of a select waits. -/
def Select.waitsOn (s : Select C A) (i : Nat) : Option (C × Dir) :=
  (s.target i).map fun target => (target.1, target.2.other)

/-- The number of entries, out of `n`, that were registered. -/
def SelectPc.registered (n : Nat) : SelectPc A → Nat
  | .regLock i | .regBody i => i
  | .regUnlock i => i + 1
  | _ => n

/-- The number of entries, out of `n`, whose registration was removed. -/
def SelectPc.removed (n : Nat) : SelectPc A → Nat
  | .remLock i _ | .remBody i _ => i
  | .remUnlock i _ => i + 1
  | .destroy _ => n
  | _ => 0

def Select.ticket (s : Select C A) : WaitList.Ticket (C × Dir) A where
  addr := s.addr
  entry := s.waitsOn
  count := s.channelList.length
  lo := s.pc.removed s.channelList.length
  hi := s.pc.registered s.channelList.length

/-- The list that a call is walking, if `ℓ` is the one it posts to. -/
def OpPc.walks (ℓ : C × Dir) : OpPc A → Option (C × Dir)
  | .notify _ => some ℓ
  | _ => none

def OpPc.rest : OpPc A → List A
  | .notify rest => rest
  | _ => []

def ClosePc.walks (c : C) : ClosePc A → Option (C × Dir)
  | .notify dir _ => some (c, dir)
  | _ => none

def ClosePc.rest : ClosePc A → List A
  | .notify _ rest => rest
  | _ => []

/-- The list whose lock a select holds. -/
def Select.holdsLock (s : Select C A) : Option (C × Dir) :=
  match s.pc with
  | .regBody i | .regUnlock i | .remBody i _ | .remUnlock i _ => s.waitsOn i
  | .attempt i pc => (s.target i).bind fun target => pc.walks target
  | _ => none

def Select.rest (s : Select C A) : List A :=
  match s.pc with
  | .attempt _ pc => pc.rest
  | _ => []

def Thread.waits : Thread C A → WaitList.View (C × Dir) A
  | .op chan dir _ _ pc => ⟨none, chan.bind fun c => pc.walks (c, dir), pc.rest⟩
  | .close chan pc => ⟨none, chan.bind fun c => pc.walks c, pc.rest⟩
  | .select s => ⟨some s.ticket, s.holdsLock, s.rest⟩
  | _ => ⟨none, none, []⟩

def State.waits (st : State T C A) : WaitList.State T (C × Dir) A where
  list ℓ := (st.chans ℓ.1).list ℓ.2
  lock ℓ := (st.chans ℓ.1).lock ℓ.2
  live a := (st.locals a).isSome
  views t := (st.threads t).waits

/-- The index of the loop is one of a list of `n` entries. -/
def SelectPc.InBounds (n : Nat) : SelectPc A → Prop
  | .regBody i | .regUnlock i | .scan i | .attempt i _ | .remBody i _ | .remUnlock i _ => i < n
  | .regLock i | .remLock i _ => i ≤ n
  | _ => True

/-- A select that has entries, none of them with channel NULL, and whose index is in
the list. -/
structure Select.Good (s : Select C A) : Prop where
  pos : 0 < s.channelList.length
  lt : s.channelList.length < 2 ^ 64
  chans : ∀ e ∈ s.channelList, e.chan ≠ none
  bound : s.pc.InBounds s.channelList.length

/-- Allocations succeed, and selects have entries, none of them with channel NULL. -/
def Event.Admissible : Event C A → Prop
  | .alloc ok => ok = true
  | .callSelect list _ => list ≠ [] ∧ ∀ e ∈ list, e.chan ≠ none
  | _ => True

section Updates

variable {st : State T C A} {c : C}

theorem waits_setThread (t : T) (x : Thread C A) : (st.setThread t x).waits =
    { st.waits with views := Function.update st.waits.views t x.waits } := by
  refine WaitList.State.ext rfl rfl rfl ?_
  funext u
  exact Function.apply_update (fun _ y => y.waits) st.threads t x u

theorem waits_setLocal (a : A) (v : Option Nat) : (st.setLocal a v).waits =
    { st.waits with live := Function.update st.waits.live a v.isSome } := by
  refine WaitList.State.ext rfl rfl ?_ rfl
  funext b
  exact Function.apply_update (fun _ w => w.isSome) st.locals a v b

theorem waits_postLocal (p : Option A) : (st.postLocal p).waits = st.waits := by
  cases p with
  | none => rfl
  | some a =>
    have hsame : Function.update st.waits.live a ((st.locals a).map semPost).isSome =
        st.waits.live := by
      rw [Option.isSome_map]
      exact Function.update_eq_self a st.waits.live
    have hpost : (st.postLocal (some a)).waits = _ := waits_setLocal a ((st.locals a).map semPost)
    rw [hpost, hsame]

/-- A channel changes: what becomes of the lists and of their locks. -/
theorem waits_setChan (c : C) (ch : Chan T A) : (st.setChan c ch).waits =
    { st.waits with
      list := fun ℓ => if ℓ.1 = c then ch.list ℓ.2 else st.waits.list ℓ
      lock := fun ℓ => if ℓ.1 = c then ch.lock ℓ.2 else st.waits.lock ℓ } := by
  refine WaitList.State.ext ?_ ?_ rfl rfl
  · funext ℓ
    show (Function.update st.chans c ch ℓ.1).list ℓ.2 = if ℓ.1 = c then _ else (st.chans ℓ.1).list ℓ.2
    by_cases hc : ℓ.1 = c
    · rw [hc, Function.update_self, if_pos rfl]
    · rw [Function.update_of_ne hc, if_neg hc]
  · funext ℓ
    show (Function.update st.chans c ch ℓ.1).lock ℓ.2 = if ℓ.1 = c then _ else (st.chans ℓ.1).lock ℓ.2
    by_cases hc : ℓ.1 = c
    · rw [hc, Function.update_self, if_pos rfl]
    · rw [Function.update_of_ne hc, if_neg hc]

/-- A function on pairs that is updated in one of its rows. -/
theorem update_row {α β γ : Type} [DecidableEq α] [DecidableEq β] (f : α → β → γ) (x : α) (y : β)
    (v : γ) : (fun p : α × β => if p.1 = x then Function.update (f x) y v p.2 else f p.1 p.2) =
      Function.update (fun p : α × β => f p.1 p.2) (x, y) v := by
  funext p
  obtain ⟨x', y'⟩ := p
  by_cases hx : x' = x
  · subst hx
    rw [if_pos rfl]
    by_cases hy : y' = y
    · subst hy
      rw [Function.update_self, Function.update_self]
    · rw [Function.update_of_ne hy, Function.update_of_ne (fun h => hy (Prod.mk.inj h).2)]
  · rw [if_neg hx, Function.update_of_ne (fun h => hx (Prod.mk.inj h).1)]

theorem row_self {α β γ : Type} [DecidableEq α] (f : α → β → γ) (x : α) :
    (fun p : α × β => if p.1 = x then f x p.2 else f p.1 p.2) = fun p => f p.1 p.2 := by
  funext p
  by_cases hx : p.1 = x
  · rw [if_pos hx, hx]
  · rw [if_neg hx]

theorem waits_setLock (c : C) (d : Dir) (owner : Option T) :
    (st.setChan c ((st.chans c).setLock d owner)).waits =
      { st.waits with lock := Function.update st.waits.lock (c, d) owner } := by
  rw [waits_setChan]
  refine WaitList.State.ext ?_ ?_ rfl rfl
  · exact row_self (fun c => (st.chans c).list) c
  · exact update_row (fun c => (st.chans c).lock) c d owner

theorem waits_setList (c : C) (d : Dir) (l : List A) :
    (st.setChan c ((st.chans c).setList d l)).waits =
      { st.waits with list := Function.update st.waits.list (c, d) l } := by
  rw [waits_setChan]
  refine WaitList.State.ext ?_ ?_ rfl rfl
  · exact update_row (fun c => (st.chans c).list) c d l
  · exact row_self (fun c => (st.chans c).lock) c

/-- A channel changes, but not its lists and their locks. -/
theorem waits_setChan_same {ch : Chan T A} (hlist : ch.list = (st.chans c).list)
    (hlock : ch.lock = (st.chans c).lock) : (st.setChan c ch).waits = st.waits := by
  rw [waits_setChan, hlist, hlock]
  refine WaitList.State.ext ?_ ?_ rfl rfl
  · exact row_self (fun c => (st.chans c).list) c
  · exact row_self (fun c => (st.chans c).lock) c

end Updates

/-! ## Selects stay in their lists -/

variable {st st' : State T C A} {s s' : Select C A} {t : T} {e : Event C A}

theorem Select.Good.target_ne_none {i : Nat} (h : s.Good) (hi : i < s.channelList.length) :
    s.target i ≠ none := by
  have hchan := h.chans _ (List.getElem_mem hi)
  intro htarget
  simp only [Select.target, List.getElem?_eq_getElem hi, Option.map_eq_none_iff] at htarget
  exact hchan htarget

theorem Select.Good.goto {pc : SelectPc A} (h : s.Good) (hpc : pc.InBounds s.channelList.length) :
    ({ s with pc := pc } : Select C A).Good := ⟨h.pos, h.lt, h.chans, hpc⟩

theorem Select.Good.inBounds {pc : SelectPc A} (h : s.Good) (hpc : s.pc = pc) :
    pc.InBounds s.channelList.length := hpc ▸ h.bound

theorem Select.Good.afterAttempt {i : Nat} {status : Status} (h : s.Good)
    (hi : i < s.channelList.length) (hs' : s.afterAttempt i status = .select s') : s'.Good := by
  unfold Select.afterAttempt at hs'
  simp only [last_index h.pos h.lt] at hs'
  by_cases hend : status ≠ .wouldblock ∨ i + 1 = s.channelList.length
  · rw [if_pos hend] at hs'
    cases hs'
    refine ⟨h.pos, h.lt, h.chans, ?_⟩
    by_cases hblock : status ≠ .wouldblock
    · simp only [if_pos hblock]
      exact Nat.zero_le _
    · simp only [if_neg hblock]
      trivial
  · rw [if_neg hend] at hs'
    cases hs'
    exact h.goto (Nat.lt_of_le_of_ne hi (fun h => hend (Or.inr h)))

theorem good_step (hmove : SelectMove st t s e st') (h : s.Good)
    (hs' : st'.threads t = .select s') : s'.Good := by
  have hgoto : ∀ {u : State T C A} {pc : SelectPc A},
      (u.setThread t (s.goto pc)).threads t = .select s' →
      pc.InBounds s.channelList.length → s'.Good := by
    intro u pc hu hpc
    rw [State.threads_setThread_self] at hu
    cases hu
    exact h.goto hpc
  cases hmove with
  | regLock hpc hi => exact hgoto hs' hi
  | regDone => exact hgoto hs' h.pos
  | regFound hpc =>
    have hi := h.inBounds hpc
    exact hgoto hs' hi
  | regInsert hpc =>
    have hi := h.inBounds hpc
    exact hgoto hs' hi
  | regRefused hpc =>
    have hi := h.inBounds hpc
    exact hgoto hs' hi
  | regUnlock hpc => exact hgoto hs' (Nat.succ_le_of_lt (h.inBounds hpc))
  | scan hpc =>
    have hi := h.inBounds hpc
    exact hgoto hs' hi
  | @attempt i entry c pc r hpc hentry =>
    rw [State.threads_setThread_self] at hs'
    cases hs'
    refine ⟨?_, ?_, ?_, ?_⟩
    · rw [List.length_set]
      exact h.pos
    · rw [List.length_set]
      exact h.lt
    · intro e' he'
      rcases List.mem_or_eq_of_mem_set he' with he' | rfl
      · exact h.chans e' he'
      · exact h.chans entry (List.mem_of_getElem? hentry)
    · rw [List.length_set]
      have hi := h.inBounds hpc
      exact hi
  | attemptDone hpc hentry =>
    rw [State.threads_setThread_self] at hs'
    exact h.afterAttempt (h.inBounds hpc) hs'
  | wait => exact hgoto hs' h.pos
  | remLock hpc hi => exact hgoto hs' hi
  | remDone => exact hgoto hs' trivial
  | remBody hpc =>
    have hi := h.inBounds hpc
    exact hgoto hs' hi
  | remUnlock hpc => exact hgoto hs' (Nat.succ_le_of_lt (h.inBounds hpc))
  | _ =>
    rw [State.threads_setThread_self] at hs'
    cases hs'

/-! ## Steps of the system are steps of the waiter lists -/

theorem waits_quiet {u : State T C A} {x : Thread C A} (hu : u.waits = st.waits)
    (hx : x.waits = (st.threads t).waits) : WaitList.Step st.waits t (u.setThread t x).waits := by
  have hsame : (u.setThread t x).waits = st.waits := by
    rw [waits_setThread, hu, hx]
    exact WaitList.State.ext rfl rfl rfl (Function.update_eq_self t st.waits.views)
  rw [hsame]
  exact .quiet

/-- A step of `channel_send` or `channel_receive`, by a thread itself or in a select. -/
theorem waits_op {c : C} {dir : Dir} {blocking : Bool} {data : UInt64} {pc : OpPc A}
    {r : OpStep T C A} {x : Thread C A} {k : Option (WaitList.Ticket (C × Dir) A)}
    (hr : channelOp t c dir blocking (st.chans c) data pc = some r)
    (hv : (st.threads t).waits = ⟨k, pc.walks (c, dir), pc.rest⟩)
    (hx : x.waits = ⟨k, r.pc.walks (c, dir), r.pc.rest⟩) : WaitList.Step st.waits t
      (((st.setChan c r.chan).postLocal r.post).setThread t x).waits := by
  cases channelOp_move hr with
  | listLock h =>
    rw [waits_setThread, waits_postLocal, waits_setLock, hx]
    exact .acquire hv h (List.suffix_refl _)
  | notifyEnd =>
    rw [waits_setThread, waits_postLocal, waits_setLock, hx]
    exact .release hv
  | notify =>
    rw [waits_setThread, waits_postLocal, waits_setChan_same rfl rfl, hx]
    exact .walk hv
  | _ =>
    exact waits_quiet ((waits_postLocal _).trans (waits_setChan_same rfl rfl)) (hx.trans hv.symm)

theorem waits_close {c : C} {pc : ClosePc A} {r : CloseStep T A} {x : Thread C A}
    (hr : channelClose t (st.chans c) pc = some r)
    (hv : (st.threads t).waits = ⟨none, pc.walks c, pc.rest⟩)
    (hx : x.waits = ⟨none, r.pc.walks c, r.pc.rest⟩) : WaitList.Step st.waits t
      (((st.setChan c r.chan).postLocal r.post).setThread t x).waits := by
  cases channelClose_move hr with
  | listLock h =>
    rw [waits_setThread, waits_postLocal, waits_setLock, hx]
    exact .acquire hv h (List.suffix_refl _)
  | notifyNext =>
    rw [waits_setThread, waits_postLocal, waits_setLock, hx]
    exact .release hv
  | notifyEnd =>
    rw [waits_setThread, waits_postLocal, waits_setLock, hx]
    exact .release hv
  | notify =>
    rw [waits_setThread, waits_postLocal, waits_setChan_same rfl rfl, hx]
    exact .walk hv
  | _ =>
    exact waits_quiet ((waits_postLocal _).trans (waits_setChan_same rfl rfl)) (hx.trans hv.symm)

theorem Select.waitsOn_eq {i : Nat} {c : C} {d : Dir} (h : s.target i = some (c, d)) :
    s.waitsOn i = some (c, d.other) := by
  rw [Select.waitsOn, h]
  rfl

/-- The entry for which a select holds a lock. -/
def SelectPc.locked : SelectPc A → Option Nat
  | .regBody i | .regUnlock i | .remBody i _ | .remUnlock i _ => some i
  | _ => none

/-- The select is in an attempt. -/
def SelectPc.attempts : SelectPc A → Bool
  | .attempt .. => true
  | _ => false

theorem Select.waits_eq (s : Select C A) (h : s.pc.attempts = false) : (Thread.select s).waits =
    ⟨some s.ticket, s.pc.locked.bind s.waitsOn, []⟩ := by
  show WaitList.View.mk (some s.ticket) s.holdsLock s.rest = _
  unfold Select.holdsLock Select.rest
  cases hpc : s.pc with
  | attempt =>
    rw [hpc] at h
    cases h
  | _ => rfl

theorem Select.waits_view (ht : st.threads t = .select s) (h : s.pc.attempts = false) :
    st.waits.views t = ⟨some s.ticket, s.pc.locked.bind s.waitsOn, []⟩ := by
  show (st.threads t).waits = _
  rw [ht, s.waits_eq h]

theorem Select.ticket_goto {pc : SelectPc A}
    (hlo : pc.removed s.channelList.length = s.pc.removed s.channelList.length)
    (hhi : pc.registered s.channelList.length = s.pc.registered s.channelList.length) :
    ({ s with pc := pc } : Select C A).ticket = s.ticket := by
  show WaitList.Ticket.mk s.addr s.waitsOn s.channelList.length _ _ = _
  rw [hlo, hhi]
  rfl

/-- A step of a select that has nothing to do with the lists. -/
theorem waits_select_quiet {pc pc' : SelectPc A} {u : State T C A} (ht : st.threads t = .select s)
    (hu : u.waits = st.waits) (hpc : s.pc = pc) (hold : pc.attempts = false)
    (hnew : pc'.attempts = false) (hlocked : pc'.locked = pc.locked)
    (hlo : pc'.removed s.channelList.length = pc.removed s.channelList.length)
    (hhi : pc'.registered s.channelList.length = pc.registered s.channelList.length) :
    WaitList.Step st.waits t (u.setThread t (s.goto pc')).waits := by
  subst hpc
  refine waits_quiet hu ?_
  have hticket : ({ s with pc := pc' } : Select C A).ticket = s.ticket := Select.ticket_goto hlo hhi
  rw [ht, s.waits_eq hold, Select.goto, Select.waits_eq _ hnew, hticket]
  show WaitList.View.mk _ (pc'.locked.bind s.waitsOn) [] = _
  rw [hlocked]

/-- A select takes the lock of the list of an entry. -/
theorem waits_select_acquire {i : Nat} {c : C} {d : Dir} {pc pc' : SelectPc A}
    (ht : st.threads t = .select s) (htarget : s.target i = some (c, d))
    (hlock : (st.chans c).lock d.other = none) (hpc : s.pc = pc) (hold : pc.attempts = false)
    (hnew : pc'.attempts = false) (hfree : pc.locked = none) (hlocked : pc'.locked = some i)
    (hlo : pc'.removed s.channelList.length = pc.removed s.channelList.length)
    (hhi : pc'.registered s.channelList.length = pc.registered s.channelList.length) :
    WaitList.Step st.waits t ((st.setListLock c d (some t)).setThread t (s.goto pc')).waits := by
  subst hpc
  have hview := Select.waits_view ht hold
  rw [hfree] at hview
  have hx : (s.goto pc').waits = ⟨some s.ticket, some (c, d.other), []⟩ := by
    rw [Select.goto, Select.waits_eq _ hnew, Select.ticket_goto hlo hhi]
    show WaitList.View.mk _ (pc'.locked.bind s.waitsOn) [] = _
    rw [hlocked, Option.bind_some, Select.waitsOn_eq htarget]
  rw [waits_setThread, State.setListLock, waits_setLock, hx]
  exact .acquire hview hlock List.nil_suffix

/-- A select gives the lock of the list of an entry back. -/
theorem waits_select_release {i : Nat} {c : C} {d : Dir} {pc pc' : SelectPc A}
    (ht : st.threads t = .select s) (htarget : s.target i = some (c, d)) (hpc : s.pc = pc)
    (hold : pc.attempts = false) (hnew : pc'.attempts = false) (hlocked : pc.locked = some i)
    (hfree : pc'.locked = none)
    (hlo : pc'.removed s.channelList.length = pc.removed s.channelList.length)
    (hhi : pc'.registered s.channelList.length = pc.registered s.channelList.length) :
    WaitList.Step st.waits t ((st.setListLock c d none).setThread t (s.goto pc')).waits := by
  subst hpc
  have hview := Select.waits_view ht hold
  rw [hlocked, Option.bind_some, Select.waitsOn_eq htarget] at hview
  have hx : (s.goto pc').waits = ⟨some s.ticket, none, []⟩ := by
    rw [Select.goto, Select.waits_eq _ hnew, Select.ticket_goto hlo hhi]
    show WaitList.View.mk _ (pc'.locked.bind s.waitsOn) [] = _
    rw [hfree, Option.bind_none]
  rw [waits_setThread, State.setListLock, waits_setLock, hx]
  exact .release hview

/-- A select comes to the list of an entry to register itself. -/
theorem waits_select_put {i : Nat} {c : C} {d : Dir} {u : State T C A}
    (ht : st.threads t = .select s) (hpc : s.pc = .regBody i) (hi : i < s.channelList.length)
    (htarget : s.target i = some (c, d))
    (hu : u.waits = { st.waits with
      list := Function.update st.waits.list (c, d.other)
        ((st.waiters c d).insert s.addr) }) :
    WaitList.Step st.waits t (u.setThread t (s.goto (.regUnlock i))).waits := by
  have hview := Select.waits_view ht (by rw [hpc]; rfl)
  have hlocked : s.pc.locked.bind s.waitsOn = some (c, d.other) := by
    rw [hpc]
    exact Select.waitsOn_eq htarget
  rw [hlocked] at hview
  have hlo : s.ticket.lo = 0 := by
    show s.pc.removed _ = 0
    rw [hpc]
    rfl
  have hhi : s.ticket.hi = i := by
    show s.pc.registered _ = i
    rw [hpc]
    rfl
  have hticket : ({ s with pc := .regUnlock i } : Select C A).ticket =
      { s.ticket with hi := s.ticket.hi + 1 } := by
    show WaitList.Ticket.mk s.addr s.waitsOn s.channelList.length 0 (i + 1) =
      ⟨s.addr, s.waitsOn, s.channelList.length, s.ticket.lo, s.ticket.hi + 1⟩
    rw [hlo, hhi]
  have hx : (s.goto (.regUnlock i)).waits =
      ⟨some { s.ticket with hi := s.ticket.hi + 1 }, some (c, d.other), []⟩ := by
    rw [Select.goto, Select.waits_eq _ rfl, hticket, ← Select.waitsOn_eq htarget]
    rfl
  rw [waits_setThread, hu, hx]
  exact .put hview hlo (hhi.symm ▸ hi) (hhi.symm ▸ Select.waitsOn_eq htarget)

theorem waits_select_takeOut {i : Nat} {c : C} {d : Dir} {status : Status}
    (ht : st.threads t = .select s) (hpc : s.pc = .remBody i status)
    (htarget : s.target i = some (c, d)) : WaitList.Step st.waits t
      ((st.setWaiters c d ((st.waiters c d).erase s.addr)).setThread t
        (s.goto (.remUnlock i status))).waits := by
  have hview := Select.waits_view ht (by rw [hpc]; rfl)
  have hlocked : s.pc.locked.bind s.waitsOn = some (c, d.other) := by
    rw [hpc]
    exact Select.waitsOn_eq htarget
  rw [hlocked] at hview
  have hlo : s.ticket.lo = i := by
    show s.pc.removed _ = i
    rw [hpc]
    rfl
  have hhi : s.ticket.hi = s.channelList.length := by
    show s.pc.registered _ = _
    rw [hpc]
    rfl
  have hticket : ({ s with pc := .remUnlock i status } : Select C A).ticket =
      { s.ticket with lo := s.ticket.lo + 1 } := by
    show WaitList.Ticket.mk s.addr s.waitsOn s.channelList.length (i + 1) s.channelList.length =
      ⟨s.addr, s.waitsOn, s.channelList.length, s.ticket.lo + 1, s.ticket.hi⟩
    rw [hlo, hhi]
  have hx : (s.goto (.remUnlock i status)).waits =
      ⟨some { s.ticket with lo := s.ticket.lo + 1 }, some (c, d.other), []⟩ := by
    rw [Select.goto, Select.waits_eq _ rfl, hticket, ← Select.waitsOn_eq htarget]
    rfl
  rw [waits_setThread, State.setWaiters, waits_setList, hx]
  exact .takeOut hview (hlo.symm ▸ Select.waitsOn_eq htarget)

/-- A select in an attempt. -/
theorem Select.waits_attempt {i : Nat} {pc : OpPc A} {c : C} {d : Dir} (hpc : s.pc = .attempt i pc)
    (htarget : s.target i = some (c, d)) :
    (Thread.select s).waits = ⟨some s.ticket, pc.walks (c, d), pc.rest⟩ := by
  show WaitList.View.mk (some s.ticket) s.holdsLock s.rest = _
  unfold Select.holdsLock Select.rest
  rw [hpc]
  show WaitList.View.mk _ ((s.target i).bind fun target => pc.walks target) _ = _
  rw [htarget]
  rfl

/-- An attempt begins. -/
theorem waits_select_scan {i : Nat} {entry : Entry C} (hgood : s.Good)
    (ht : st.threads t = .select s) (hpc : s.pc = .scan i)
    (hentry : s.channelList[i]? = some entry) :
    WaitList.Step st.waits t (st.setThread t (s.goto (.attempt i (startOp entry.chan)))).waits := by
  refine waits_quiet rfl ?_
  have hchan := hgood.chans entry (List.mem_of_getElem? hentry)
  obtain ⟨c, hc⟩ := Option.ne_none_iff_exists'.mp hchan
  have htarget : s.target i = some (c, entry.dir) := by
    simp only [Select.target, hentry, hc, Option.map_some]
  have hticket : ({ s with pc := .attempt i (startOp entry.chan) } : Select C A).ticket =
      s.ticket := Select.ticket_goto (by rw [hpc]; rfl) (by rw [hpc]; rfl)
  rw [ht, s.waits_eq (by rw [hpc]; rfl), hpc, Select.goto,
    Select.waits_attempt rfl (s := { s with pc := .attempt i (startOp entry.chan) }) htarget,
    hticket, hc]
  rfl

theorem waits_select_attempt {i : Nat} {entry : Entry C} {c : C} {pc : OpPc A} {r : OpStep T C A}
    (ht : st.threads t = .select s) (hpc : s.pc = .attempt i pc)
    (hentry : s.channelList[i]? = some entry) (hchan : entry.chan = some c)
    (hr : channelOp t c entry.dir false (st.chans c) entry.data pc = some r) :
    WaitList.Step st.waits t (((st.setChan c r.chan).postLocal r.post).setThread t (.select { s with
      channelList := s.channelList.set i { entry with data := r.data }
      pc := .attempt i r.pc })).waits := by
  have htarget : s.target i = some (c, entry.dir) := by
    simp only [Select.target, hentry, hchan, Option.map_some]
  have hsame := Select.sameCall_setData r.data (.attempt i r.pc) hentry
  refine waits_op (k := some s.ticket) hr ?_ ?_
  · rw [ht]
    exact Select.waits_attempt hpc htarget
  · have hticket : ({ s with
        channelList := s.channelList.set i { entry with data := r.data }
        pc := .attempt i r.pc } : Select C A).ticket = s.ticket := by
      refine WaitList.Ticket.ext rfl (funext fun j => ?_) List.length_set ?_ ?_
      · show Option.map _ _ = Option.map _ (s.target j)
        rw [hsame.target j]
      · show 0 = s.pc.removed _
        rw [hpc]
        rfl
      · show (s.channelList.set i _).length = s.pc.registered _
        rw [hpc, List.length_set]
        rfl
    rw [Select.waits_attempt rfl ((hsame.target i).trans htarget), hticket]

/-- An attempt returns. -/
theorem waits_select_done {i : Nat} {status : Status} (ht : st.threads t = .select s)
    (hpc : s.pc = .attempt i (.done status)) :
    WaitList.Step st.waits t (st.setThread t (s.afterAttempt i status)).waits := by
  refine waits_quiet rfl ?_
  have hold : (Thread.select s).waits = ⟨some s.ticket, none, []⟩ := by
    show WaitList.View.mk (some s.ticket) s.holdsLock s.rest = _
    unfold Select.holdsLock Select.rest
    rw [hpc]
    show WaitList.View.mk _ ((s.target i).bind fun _ => none) _ = _
    rw [Option.bind_fun_none]
    rfl
  have hnew : ∀ (n : Nat) (pc : SelectPc A), pc.attempts = false → pc.locked = none →
      pc.removed s.channelList.length = 0 →
      pc.registered s.channelList.length = s.channelList.length →
      (Thread.select { s with selectedIndex := n, pc := pc }).waits = ⟨some s.ticket, none, []⟩ := by
    intro n pc hno hfree hlo hhi
    have hticket : ({ s with selectedIndex := n, pc := pc } : Select C A).ticket = s.ticket := by
      refine WaitList.Ticket.ext rfl rfl rfl ?_ ?_
      · show pc.removed _ = s.pc.removed _
        rw [hlo, hpc]
        rfl
      · show pc.registered _ = s.pc.registered _
        rw [hhi, hpc]
        rfl
    rw [Select.waits_eq _ hno, hticket]
    show WaitList.View.mk _ (pc.locked.bind _) [] = _
    rw [hfree, Option.bind_none]
  rw [ht, hold]
  unfold Select.afterAttempt
  by_cases hend : status ≠ .wouldblock ∨ i = (s.channelList.length + 2 ^ 64 - 1) % 2 ^ 64
  · rw [if_pos hend]
    by_cases hblock : status ≠ .wouldblock
    · simp only [if_pos hblock]
      exact hnew i _ rfl rfl rfl rfl
    · simp only [if_neg hblock]
      exact hnew i _ rfl rfl rfl rfl
  · rw [if_neg hend]
    exact hnew s.selectedIndex _ rfl rfl rfl rfl

theorem waits_select (ht : st.threads t = .select s) (hgood : s.Good)
    (hmove : SelectMove st t s e st') (hadm : e.Admissible) :
    WaitList.Step st.waits t st'.waits := by
  cases hmove with
  | regCrash _ hi htarget => exact absurd htarget (hgood.target_ne_none hi)
  | regLock hpc hi htarget hlock =>
    exact waits_select_acquire ht htarget hlock hpc rfl rfl rfl rfl rfl rfl
  | @regDone i hpc hi =>
    have hle : i ≤ s.channelList.length := hgood.inBounds hpc
    exact waits_select_quiet ht rfl hpc rfl rfl rfl rfl (Nat.le_antisymm hi hle)
  | regFound hpc htarget hmem =>
    have hi := hgood.inBounds hpc
    refine waits_select_put ht hpc hi htarget ?_
    rw [List.insert_of_mem hmem]
    exact WaitList.State.ext (Function.update_eq_self _ st.waits.list).symm rfl rfl rfl
  | regInsert hpc htarget hmem =>
    have hi := hgood.inBounds hpc
    refine waits_select_put ht hpc hi htarget ?_
    rw [List.insert_of_not_mem hmem, State.setWaiters, waits_setList]
  | regRefused => cases hadm
  | regUnlock hpc htarget => exact waits_select_release ht htarget hpc rfl rfl rfl rfl rfl rfl
  | scanCrash hpc hentry =>
    have hi := hgood.inBounds hpc
    rw [List.getElem?_eq_getElem hi] at hentry
    cases hentry
  | scan hpc hentry => exact waits_select_scan hgood ht hpc hentry
  | attempt hpc hentry hchan hr => exact waits_select_attempt ht hpc hentry hchan hr
  | attemptDone hpc hentry => exact waits_select_done ht hpc
  | wait hpc hlocal =>
    refine waits_select_quiet ht ?_ hpc rfl rfl rfl rfl rfl
    rw [waits_setLocal]
    refine WaitList.State.ext rfl rfl ?_ rfl
    have hlive : st.waits.live s.addr = true := congrArg Option.isSome hlocal
    rw [Option.isSome_some, ← hlive]
    exact Function.update_eq_self _ st.waits.live
  | remCrash _ hi htarget => exact absurd htarget (hgood.target_ne_none hi)
  | remLock hpc hi htarget hlock =>
    exact waits_select_acquire ht htarget hlock hpc rfl rfl rfl rfl rfl rfl
  | @remDone i status hpc hi =>
    have hle : i ≤ s.channelList.length := hgood.inBounds hpc
    exact waits_select_quiet ht rfl hpc rfl rfl rfl (Nat.le_antisymm hi hle) rfl
  | remBody hpc htarget => exact waits_select_takeOut ht hpc htarget
  | remUnlock hpc htarget => exact waits_select_release ht htarget hpc rfl rfl rfl rfl rfl rfl
  | destroy hpc =>
    have hview := Select.waits_view ht (by rw [hpc]; rfl)
    rw [hpc] at hview
    rw [waits_setThread, waits_setLocal]
    exact .leave hview (by show s.pc.removed _ = _; rw [hpc]; rfl)

/-- Selects are good, as long as the calls of `channel_select` are admissible. -/
theorem good_of_step (hstep : Step st (t, e) st') (hadm : e.Admissible)
    (h : ∀ u s, st.threads u = .select s → s.Good) : ∀ u s, st'.threads u = .select s → s.Good := by
  intro u s hs
  by_cases hu : u = t
  · subst hu
    cases hstep.move with
    | select ht hmove => exact good_step hmove (h u _ ht) hs
    | callSelect channelList addr n _ _ hcount =>
      rw [State.threads_setThread_self] at hs
      cases hs
      exact ⟨List.length_pos_iff.mpr hadm.1, hcount, hadm.2, Nat.zero_le _⟩
    | _ =>
      rw [State.threads_setThread_self] at hs
      cases hs
  · rw [hstep.move.threads_of_ne hu] at hs
    exact h u s hs

theorem Step.waits (hstep : Step st (t, e) st') (hadm : e.Admissible)
    (hgood : ∀ u s, st.threads u = .select s → s.Good) : WaitList.Step st.waits t st'.waits := by
  cases hstep.move with
  | call chan dir data blocking ht =>
    refine waits_quiet rfl ?_
    rw [ht]
    cases chan <;> rfl
  | @op c dir blocking data pc r ht hr =>
    refine waits_op hr ?_ rfl
    rw [ht]
    rfl
  | @ret chan dir blocking data status ht =>
    refine waits_quiet rfl ?_
    rw [ht]
    cases chan <;> rfl
  | callClose chan ht =>
    refine waits_quiet rfl ?_
    rw [ht]
    cases chan <;> rfl
  | @close c pc r ht hr =>
    refine waits_close hr ?_ rfl
    rw [ht]
    rfl
  | @retClose chan status ht =>
    refine waits_quiet rfl ?_
    rw [ht]
    cases chan <;> rfl
  | callSelect channelList addr n ht haddr hcount =>
    have hview : st.waits.views t = ⟨none, none, []⟩ := by
      show (st.threads t).waits = _
      rw [ht]
      rfl
    have hfree : st.waits.live addr = false := congrArg Option.isSome haddr
    rw [waits_setThread, waits_setLocal]
    exact WaitList.Step.enter hview
      (k := Select.ticket { channelList, addr, selectedIndex := n, pc := .regLock 0 }) hfree rfl
  | select ht hmove => exact waits_select ht (hgood t _ ht) hmove hadm

/-- What holds of the waiter lists in every state. -/
structure Registered (st : State T C A) : Prop where
  good : ∀ t s, st.threads t = .select s → s.Good
  inv : WaitList.Inv st.waits

section System

variable {capacity : C → Nat} {st₀ : State T C A} {ls : List (T × Event C A)}

theorem Initial.registered (h : Initial capacity st) : Registered st where
  good := by
    intro t s hs
    rw [h.threads t] at hs
    cases hs
  inv := by
    refine WaitList.Inv.start (fun ℓ => ?_) (fun t => ?_)
    · obtain ⟨data, garbage, hchan⟩ := h.chans ℓ.1
      show (st.chans ℓ.1).list ℓ.2 = []
      rw [hchan]
      rfl
    · show (st.threads t).waits = _
      rw [h.threads t]
      rfl

theorem registered_of_run (h₀ : Initial capacity st₀) (hrun : Transition.Run Step st₀ ls st)
    (hadm : ∀ l ∈ ls, l.2.Admissible) : Registered st :=
  hrun.guarded hadm h₀.registered (fun _ _ _ h hl hst =>
    ⟨good_of_step hst hl h.good, WaitList.inv_step (hst.waits hl h.good) h.inv⟩)

end System

end Channels
end Cmpsc473
