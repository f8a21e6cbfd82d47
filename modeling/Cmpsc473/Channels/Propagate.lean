import Cmpsc473.Channels.Registry
import Cmpsc473.Channels.SelectLog

/-!
# Errors of a select

A call of `channel_select` on entries without NULL, for which `list_insert` got each
node that it asked for, reads no entry behind the list and sleeps only where it is
registered.  Nothing is asked of the other threads: their selects may have any entries,
and their allocations may fail.

On an empty list, or with a channel that is NULL, no call ever returns.
-/

set_option linter.unusedSectionVars false

namespace Cmpsc473
namespace Channels

open Transition

variable {T C A : Type} [DecidableEq T] [DecidableEq C] [DecidableEq A]

/-- The semaphores of running selects exist, and are different. -/
structure OwnLocals (st : State T C A) : Prop where
  live : ∀ t s, st.threads t = .select s → st.locals s.addr ≠ none
  distinct : ∀ t u s s', st.threads t = .select s → st.threads u = .select s' →
    s.addr = s'.addr → t = u

variable {st st' : State T C A} {s s' : Select C A} {t u : T} {e : Event C A} {a : A} {c : C}
  {d : Dir}

/-- A semaphore is destroyed when the select that owns it returns. -/
theorem live_step (hstep : Step st (u, e) st')
    (hown : ∀ s, st.threads u = .select s → s.addr = a → st'.threads u ≠ .idle)
    (h : st.locals a ≠ none) : st'.locals a ≠ none := by
  have hset : ∀ (b : A) (v : Option Nat), (b = a → v ≠ none) →
      Function.update st.locals b v a ≠ none := by
    intro b v hv
    by_cases hb : a = b
    · rw [hb, Function.update_self]
      exact hv hb.symm
    · rw [Function.update_of_ne hb]
      exact h
  have hpost : ∀ (c : C) (ch : Chan T A) (p : Option A),
      ((st.setChan c ch).postLocal p).locals a ≠ none := by
    intro c ch p
    cases p with
    | none => exact h
    | some b =>
      apply hset
      intro hb
      show ((st.locals b).map semPost) ≠ none
      rw [hb, ne_eq, Option.map_eq_none_iff]
      exact h
  cases hstep.move with
  | op => exact hpost _ _ _
  | close => exact hpost _ _ _
  | callSelect _ addr => exact hset addr (some 0) (fun _ => nofun)
  | select hs hmove =>
    cases hmove with
    | attempt => exact hpost _ _ _
    | @wait v => exact hset _ (some v) (fun _ => nofun)
    | destroy =>
      exact hset _ none (fun hb => absurd (State.threads_setThread_self _ u _) (hown _ hs hb))
    | _ => exact h
  | _ => exact h

/-- A thread that is in a select was in the same call, or has just called it. -/
theorem select_from (hstep : Step st (t, e) st') (hs' : st'.threads t = .select s') :
    (∃ s, st.threads t = .select s ∧ s.SameCall s' ∧ SelectMove st t s e st') ∨
      st.locals s'.addr = none ∧ st'.locals s'.addr = some 0 ∧
        ∃ list, e = .callSelect list s'.addr := by
  cases hstep.move with
  | @select s _ _ hs hmove =>
    rcases hmove.sameCall with ⟨s'', hs'', hsame⟩ | hcrash | hidle
    · rw [hs'] at hs''
      cases hs''
      exact Or.inl ⟨s, hs, hsame, hmove⟩
    · cases hs'.symm.trans hcrash
    · cases hs'.symm.trans hidle
  | callSelect list addr _ _ haddr =>
    rw [State.threads_setThread_self] at hs'
    cases hs'
    exact Or.inr ⟨haddr, Function.update_self _ _ _, list, rfl⟩
  | _ =>
    rw [State.threads_setThread_self] at hs'
    cases hs'

theorem ownLocals_step (hstep : Step st (u, e) st') (h : OwnLocals st) : OwnLocals st' := by
  have hsame : ∀ {t}, t ≠ u → st'.threads t = st.threads t := fun htu =>
    hstep.move.threads_of_ne htu
  have hapart : ∀ {t s s'}, t ≠ u → st.threads t = .select s → st'.threads u = .select s' →
      s.addr ≠ s'.addr := by
    intro t s s' htu hs hs'
    rcases select_from hstep hs' with ⟨s₀, hs₀, hcall, _⟩ | ⟨hnone, _, _⟩
    · rw [hcall.addr]
      exact fun ha => htu (h.distinct t u s s₀ hs hs₀ ha)
    · exact fun ha => h.live t s hs (ha ▸ hnone)
  constructor
  · intro t s hs
    by_cases htu : t = u
    · subst htu
      rcases select_from hstep hs with ⟨s₀, hs₀, hcall, _⟩ | ⟨_, hzero, _⟩
      · rw [hcall.addr]
        refine live_step hstep (fun _ _ _ => ?_) (h.live t s₀ hs₀)
        rw [hs]
        nofun
      · rw [hzero]
        nofun
    · rw [hsame htu] at hs
      refine live_step hstep (fun s₀ hs₀ ha => ?_) (h.live t s hs)
      exact absurd (h.distinct t u s s₀ hs hs₀ ha.symm) htu
  · intro t v s s' hs hs' ha
    by_cases htu : t = u
    · by_cases hvu : v = u
      · rw [htu, hvu]
      · rw [hsame hvu] at hs'
        rw [htu] at hs
        exact absurd ha.symm (hapart hvu hs' hs)
    · rw [hsame htu] at hs
      by_cases hvu : v = u
      · rw [hvu] at hs'
        exact absurd ha (hapart htu hs hs')
      · rw [hsame hvu] at hs'
        exact h.distinct t v s s' hs hs' ha

theorem setChan_list {ch : Chan T A} (hlist : ch.list = (st.chans c).list) (c' : C) :
    ((st.setChan c ch).chans c').list = (st.chans c').list := by
  by_cases hc : c' = c
  · rw [hc]
    show (Function.update st.chans c ch c).list = _
    rw [Function.update_self, hlist]
  · show (Function.update st.chans c ch c').list = _
    rw [Function.update_of_ne hc]

theorem postLocal_chans (p : Option A) : (st.postLocal p).chans = st.chans := by
  cases p with
  | none => rfl
  | some b => rfl

theorem op_list {dir : Dir} {blocking : Bool} {ch : Chan T A} {data : UInt64} {pc : OpPc A}
    {r : OpStep T C A} (hr : channelOp t c dir blocking ch data pc = some r) :
    r.chan.list = ch.list := by
  cases channelOp_move hr with
  | _ => rfl

theorem close_list {ch : Chan T A} {pc : ClosePc A} {r : CloseStep T A}
    (hr : channelClose t ch pc = some r) : r.chan.list = ch.list := by
  cases channelClose_move hr with
  | _ => rfl

theorem setWaiters_list (c' : C) (d d' : Dir) (l : List A) :
    ((st.setWaiters c d l).chans c').list d' =
      if c' = c ∧ d' = d.other then l else (st.chans c').list d' := by
  show (Function.update st.chans c ((st.chans c).setList d.other l) c').list d' = _
  by_cases hc : c' = c
  · rw [hc, Function.update_self]
    show Function.update (st.chans c).list d.other l d' = _
    by_cases hd : d' = d.other
    · rw [if_pos ⟨rfl, hd⟩, hd, Function.update_self]
    · rw [if_neg (fun h => hd h.2), Function.update_of_ne hd]
  · rw [if_neg (fun h => hc h.1), Function.update_of_ne hc]

/-- An address leaves a list only when a select with this address removes it. -/
theorem list_step (hstep : Step st (u, e) st')
    (hown : ∀ s i status, st.threads u = .select s → s.addr = a → s.pc ≠ .remBody i status)
    (hmem : a ∈ (st.chans c).list d) : a ∈ (st'.chans c).list d := by
  have hop : ∀ {c' : C} {ch : Chan T A} {p : Option A} {x : Thread C A},
      ch.list = (st.chans c').list →
      a ∈ ((((st.setChan c' ch).postLocal p).setThread u x).chans c).list d := by
    intro c' ch p x hlist
    show a ∈ (((st.setChan c' ch).postLocal p).chans c).list d
    rw [postLocal_chans, setChan_list hlist]
    exact hmem
  cases hstep.move with
  | op _ hr => exact hop (op_list hr)
  | close _ hr => exact hop (close_list hr)
  | @select s _ _ hs hmove =>
    cases hmove with
    | attempt _ _ _ hr => exact hop (op_list hr)
    | regLock => exact hop (p := none) rfl
    | regUnlock => exact hop (p := none) rfl
    | remLock => exact hop (p := none) rfl
    | remUnlock => exact hop (p := none) rfl
    | @regInsert _ c' d' =>
      show a ∈ ((st.setWaiters c' d' _).chans c).list d
      rw [setWaiters_list]
      split
      · rename_i hcd
        obtain ⟨rfl, rfl⟩ := hcd
        exact List.mem_cons_of_mem _ hmem
      · exact hmem
    | @remBody _ _ c' d' hpc =>
      show a ∈ ((st.setWaiters c' d' _).chans c).list d
      rw [setWaiters_list]
      split
      · rename_i hcd
        obtain ⟨rfl, rfl⟩ := hcd
        have hne : a ≠ s.addr := fun ha => hown s _ _ hs ha.symm hpc
        exact (List.mem_erase_of_ne hne).mpr hmem
      · exact hmem
    | _ => exact hmem
  | _ => exact hmem

/-- The select has begun to remove what it registered. -/
def SelectPc.Leaving : SelectPc A → Prop
  | .remLock _ _ | .remBody _ _ | .remUnlock _ _ | .destroy _ => True
  | _ => False

/-- The entry that a select reads in its next step. -/
def Select.reads (s : Select C A) : Option Nat :=
  match s.pc with
  | .regLock i | .remLock i _ => if i < s.channelList.length then some i else none
  | .regBody i | .regUnlock i | .scan i | .attempt i _ | .remBody i _ | .remUnlock i _ => some i
  | _ => none

/-- What a select of `t` has kept to, so far. -/
structure Careful (st : State T C A) (t : T) : Prop where
  running : st.threads t ≠ .crashed
  good : ∀ s, st.threads t = .select s → s.Good
  listed : ∀ s, st.threads t = .select s → ¬ s.pc.Leaving →
    ∀ i < s.pc.registered s.channelList.length, ∀ c d, s.target i = some (c, d) →
      s.addr ∈ st.waiters c d

/-- Neither a node refused nor another call of `channel_select`. -/
def Event.Granted : Event C A → Prop
  | .alloc ok => ok = true
  | .callSelect _ _ => False
  | _ => True

theorem careful_other (hut : u ≠ t) (hstep : Step st (u, e) st') (hown : OwnLocals st)
    (h : Careful st t) : Careful st' t := by
  have hsame := hstep.move.threads_of_ne hut.symm
  refine ⟨by rw [hsame]; exact h.running, fun s hs => h.good s (hsame ▸ hs), ?_⟩
  intro s hs hpc i hi c d htarget
  rw [hsame] at hs
  refine list_step hstep (fun s₀ _ _ hs₀ ha _ => ?_) (h.listed s hs hpc i hi c d htarget)
  exact hut (hown.distinct u t s₀ s hs₀ hs ha)

/-- One step of a registration: the select has no more entries to answer for, or one
more, and it is in the list of that one. -/
theorem registered_step (hmove : SelectMove st t s e st') (hgranted : e.Granted)
    (hs' : st'.threads t = .select s') (hstay : ¬ s'.pc.Leaving) : ¬ s.pc.Leaving ∧
      (s'.pc.registered s'.channelList.length ≤ s.pc.registered s.channelList.length ∨
        ∃ i c d, s.pc = .regBody i ∧ s'.pc = .regUnlock i ∧ s.target i = some (c, d) ∧
          s.addr ∈ st'.waiters c d) := by
  have hgoto : ∀ {v : State T C A} {pc pc' : SelectPc A},
      (v.setThread t (s.goto pc')).threads t = .select s' → s.pc = pc → ¬ pc.Leaving →
      pc'.registered s.channelList.length ≤ pc.registered s.channelList.length →
      ¬ s.pc.Leaving ∧
        s'.pc.registered s'.channelList.length ≤ s.pc.registered s.channelList.length := by
    intro v pc pc' hv hpc hnot hle
    rw [State.threads_setThread_self] at hv
    cases hv
    rw [hpc]
    exact ⟨hnot, hle⟩
  have hleave : ∀ {v : State T C A} {pc' : SelectPc A},
      (v.setThread t (s.goto pc')).threads t = .select s' → ¬ pc'.Leaving := by
    intro v pc' hv
    rw [State.threads_setThread_self] at hv
    cases hv
    exact hstay
  cases hmove with
  | regLock hpc => exact (hgoto hs' hpc nofun (Nat.le_refl _)).imp id Or.inl
  | regDone hpc hi => exact (hgoto hs' hpc nofun hi).imp id Or.inl
  | regFound hpc htarget hmem =>
    rw [State.threads_setThread_self] at hs'
    cases hs'
    exact ⟨hpc ▸ nofun, Or.inr ⟨_, _, _, hpc, rfl, htarget, hmem⟩⟩
  | @regInsert i c d hpc htarget =>
    rw [State.threads_setThread_self] at hs'
    cases hs'
    refine ⟨hpc ▸ nofun, Or.inr ⟨i, c, d, hpc, rfl, htarget, ?_⟩⟩
    show s.addr ∈ ((st.setWaiters c d _).chans c).list d.other
    rw [setWaiters_list, if_pos ⟨rfl, rfl⟩]
    exact List.mem_cons_self
  | regRefused => cases hgranted
  | regUnlock hpc => exact (hgoto hs' hpc nofun (Nat.le_refl _)).imp id Or.inl
  | scan hpc => exact (hgoto hs' hpc nofun (Nat.le_refl _)).imp id Or.inl
  | attempt hpc =>
    rw [State.threads_setThread_self] at hs'
    cases hs'
    refine ⟨hpc ▸ nofun, Or.inl ?_⟩
    rw [hpc]
    exact Nat.le_of_eq List.length_set
  | @attemptDone i entry status hpc =>
    rw [State.threads_setThread_self] at hs'
    unfold Select.afterAttempt at hs'
    refine ⟨hpc ▸ nofun, Or.inl ?_⟩
    rw [hpc]
    split at hs'
    · cases hs'
      by_cases hblock : status ≠ .wouldblock
      · simp only [if_pos hblock]
        exact Nat.le_refl _
      · simp only [if_neg hblock]
        exact Nat.le_refl _
    · cases hs'
      exact Nat.le_refl _
  | wait hpc => exact (hgoto hs' hpc nofun (Nat.le_refl _)).imp id Or.inl
  | remLock => exact absurd trivial (hleave hs')
  | remDone => exact absurd trivial (hleave hs')
  | remBody => exact absurd trivial (hleave hs')
  | remUnlock => exact absurd trivial (hleave hs')
  | _ =>
    rw [State.threads_setThread_self] at hs'
    cases hs'

/-- As long as the select does not unregister, its own step takes it out of no list. -/
theorem Careful.listed_step (h : Careful st t) (hstep : Step st (t, e) st')
    (hs : st.threads t = .select s) (hnot : ¬ s.pc.Leaving) {i : Nat}
    (hi : i < s.pc.registered s.channelList.length) (htarget : s.target i = some (c, d)) :
    s.addr ∈ st'.waiters c d := by
  apply list_step hstep
  · intro s₁ j status hs₁ _ hpc
    cases hs.symm.trans hs₁
    exact hnot (hpc ▸ trivial)
  · exact h.listed s hs hnot i hi c d htarget

theorem careful_self (hstep : Step st (t, e) st') (hgranted : e.Granted) (h : Careful st t) :
    Careful st' t := by
  cases hstep.move with
  | callSelect => cases hgranted
  | @select s _ _ hs hmove =>
    have hgood := h.good s hs
    constructor
    · cases hmove with
      | regCrash _ hi htarget => exact absurd htarget (hgood.target_ne_none hi)
      | remCrash _ hi htarget => exact absurd htarget (hgood.target_ne_none hi)
      | scanCrash hpc hentry =>
        have hi := hgood.inBounds hpc
        rw [List.getElem?_eq_getElem hi] at hentry
        cases hentry
      | @attemptDone i _ status =>
        obtain ⟨s', hs', _⟩ := s.afterAttempt_sameCall i status
        rw [State.threads_setThread_self, hs']
        nofun
      | _ =>
        rw [State.threads_setThread_self]
        nofun
    · intro s' hs'
      exact good_step hmove hgood hs'
    · intro s' hs' hstay i hi c d htarget
      obtain ⟨hnot, hreg⟩ := registered_step hmove hgranted hs' hstay
      rcases select_from hstep hs' with ⟨s₀, hs₀, hsame, _⟩ | ⟨_, _, list, hcall⟩
      · cases hs.symm.trans hs₀
        rw [hsame.addr]
        rw [hsame.target] at htarget
        rcases hreg with hle | ⟨j, c', d', hpc, hpc', htarget', hmem⟩
        · exact h.listed_step hstep hs hnot (Nat.lt_of_lt_of_le hi hle) htarget
        · rw [hpc'] at hi
          rcases Nat.lt_succ_iff_lt_or_eq.mp hi with hlt | rfl
          · have hi : i < s.pc.registered s.channelList.length := by
              rw [hpc]
              exact hlt
            exact h.listed_step hstep hs hnot hi htarget
          · rw [htarget'] at htarget
            cases htarget
            exact hmem
      · rw [hcall] at hgranted
        cases hgranted
  | _ =>
    refine ⟨?_, fun s' hs' => ?_, fun s' hs' => ?_⟩
    · rw [State.threads_setThread_self]
      nofun
    · rw [State.threads_setThread_self] at hs'
      cases hs'
    · rw [State.threads_setThread_self] at hs'
      cases hs'

/-! ## Calls that can be answered -/

section Calls

variable {capacity : C → Nat} {st₀ st₁ st₂ : State T C A} {ls₀ ls : List (T × Event C A)}
  {list : List (Entry C)} {addr : A}

theorem Initial.ownLocals (h : Initial capacity st) : OwnLocals st := by
  constructor
  · intro t s hs
    rw [h.threads t] at hs
    cases hs
  · intro t u s s' hs
    rw [h.threads t] at hs
    cases hs

/-- A call that begins with entries, none of them NULL. -/
theorem careful_start (hcall : Step st₁ (t, .callSelect list addr) st₂) (hlist : list ≠ [])
    (hnull : ∀ entry ∈ list, entry.chan ≠ none) : Careful st₂ t := by
  obtain ⟨hcount, n, hthread⟩ := hcall.callSelect_thread
  refine ⟨by rw [hthread]; nofun, fun s hs => ?_, fun s hs _ i hi => ?_⟩
  · cases hthread.symm.trans hs
    exact ⟨List.length_pos_iff.mpr hlist, hcount, hnull, Nat.zero_le _⟩
  · cases hthread.symm.trans hs
    exact absurd hi (Nat.not_lt_zero i)

theorem careful_of_run (hduring : Run Step st₂ ls st)
    (hgranted : ∀ l ∈ ls, l.1 = t → l.2.Granted) (hown : OwnLocals st₂) (h : Careful st₂ t) :
    Careful st t := by
  have hstart : OwnLocals st₂ ∧ Careful st₂ t := ⟨hown, h⟩
  have hboth : OwnLocals st ∧ Careful st t := by
    apply hduring.guarded hgranted hstart
    rintro st ⟨u, e⟩ st' ⟨hown, hcareful⟩ he hst
    refine ⟨ownLocals_step hst hown, ?_⟩
    by_cases hut : u = t
    · subst hut
      exact careful_self hst (he rfl) hcareful
    · exact careful_other hut hst hown hcareful
  exact hboth.2

theorem Select.Good.reads_lt (h : s.Good) {i : Nat} (hreads : s.reads = some i) :
    i < s.channelList.length := by
  have hbound := h.bound
  have hguard : ∀ {j : Nat}, (if j < s.channelList.length then some j else none) = some i →
      i < s.channelList.length := by
    intro j hj
    split at hj
    · rename_i hlt
      cases hj
      exact hlt
    · cases hj
  unfold Select.reads at hreads
  split at hreads
  · exact hguard hreads
  · exact hguard hreads
  case h_9 => cases hreads
  all_goals
    rename_i hpc
    rw [hpc] at hbound
    cases hreads
    exact hbound

/-- What `channel_select` owes its caller while `t` is in it: no crash, no entry behind
the list, an error for an entry that is NULL, and no sleep where nobody would wake it. -/
structure Propagates (st : State T C A) (t : T) : Prop where
  running : st.threads t ≠ .crashed
  reads : ∀ s, st.threads t = .select s → ∀ i, s.reads = some i → i < s.channelList.length
  null : ∀ s, st.threads t = .select s → ∀ i pc entry, s.pc = .attempt i pc →
    s.channelList[i]? = some entry → entry.chan = none → pc = .done .otherError
  registered : ∀ s, st.threads t = .select s → s.pc = .wait → ∀ i < s.channelList.length,
    ∃ c d, s.target i = some (c, d) ∧ s.addr ∈ st.waiters c d

theorem Careful.propagates (h : Careful st t) : Propagates st t where
  running := h.running
  reads := fun s hs _ hreads => (h.good s hs).reads_lt hreads
  null := by
    intro s hs i pc entry _ hentry hnull
    exact absurd hnull ((h.good s hs).chans entry (List.mem_of_getElem? hentry))
  registered := by
    intro s hs hpc i hi
    have hgood := h.good s hs
    obtain ⟨⟨c, d⟩, htarget⟩ := Option.ne_none_iff_exists'.mp (hgood.target_ne_none hi)
    refine ⟨c, d, htarget, h.listed s hs (hpc ▸ nofun) i ?_ c d htarget⟩
    rw [hpc]
    exact hi

/-- **Errors are propagated.** A call of `channel_select` with entries, none of them
NULL, does what it owes for as long as it gets each node that it asks for. -/
theorem select_propagates (h₀ : Initial capacity st₀) (hbefore : Run Step st₀ ls₀ st₁)
    (hcall : Step st₁ (t, .callSelect list addr) st₂) (hlist : list ≠ [])
    (hnull : ∀ entry ∈ list, entry.chan ≠ none) (hduring : Run Step st₂ ls st)
    (hgranted : ∀ l ∈ ls, l.1 = t → l.2.Granted) : Propagates st t := by
  have hown₂ : OwnLocals st₂ := (hbefore.snoc hcall).invariant h₀.ownLocals
    (fun _ _ _ hown hst => ownLocals_step hst hown)
  exact (careful_of_run hduring hgranted hown₂ (careful_start hcall hlist hnull)).propagates

/-- A select waits for a message on `pair`. -/
theorem select_propagates_receiver : ∃ st, Propagates st true ∧
    ∃ s : Select Unit Unit, st.threads true = .select s ∧ s.pc = .wait := by
  have hcall : Step pair (true, .callSelect [⟨some (), false, 0⟩] ()) _ :=
    Step.callSelect _ () 0 rfl rfl (by decide)
  have hlock := ((Run.nil pair).snoc hcall).here.snoc (Step.run (t := true) true rfl)
  have hinsert := hlock.snoc (Step.run (t := true) true rfl)
  have hunlock := hinsert.snoc (Step.run (t := true) true rfl)
  have hreg := hunlock.snoc (Step.run (t := true) true rfl)
  have hscan := hreg.snoc (Step.run (t := true) true rfl)
  have htake := hscan.snoc (Step.run (t := true) true rfl)
  have hfull := htake.snoc (Step.run (t := true) true rfl)
  have hcheck := hfull.snoc (Step.run (t := true) true rfl)
  have hblock := hcheck.snoc (Step.run (t := true) true rfl)
  have hwait := hblock.snoc (Step.run (t := true) true rfl)
  have hall := select_propagates pair_initial (Run.nil pair) hcall (by simp) (by simp) hwait
  refine ⟨_, hall fun l hl _ => ?_, _, rfl, rfl⟩
  simp only [List.nil_append, List.mem_append, List.mem_singleton, or_assoc] at hl
  rcases hl with rfl | rfl | rfl | rfl | rfl | rfl | rfl | rfl | rfl | rfl
  case inr.inl => rfl
  all_goals trivial

/-- A select that will crash, if it goes on: it has no entries, or it has not yet come to
one that is NULL. -/
inductive Doomed (s : Select C A) : Prop
  | empty (hlist : s.channelList = []) (hpc : s.pc = .regLock 0 ∨ s.pc = .scan 0)
  | lock {i j : Nat} (hj : j < s.channelList.length) (hnull : s.target j = none)
      (hpc : s.pc = .regLock i) (hi : i ≤ j)
  | locked {i j : Nat} (hj : j < s.channelList.length) (hnull : s.target j = none)
      (hpc : s.pc = .regBody i ∨ s.pc = .regUnlock i) (hi : i < j)

theorem doomed_start (hcall : Step st₁ (t, .callSelect list addr) st₂)
    (hbad : list = [] ∨ ∃ entry ∈ list, entry.chan = none) :
    ∃ s, st₂.threads t = .select s ∧ Doomed s := by
  obtain ⟨_, n, hthread⟩ := hcall.callSelect_thread
  refine ⟨_, hthread, ?_⟩
  rcases hbad with hnil | ⟨entry, hmem, hnull⟩
  · exact .empty hnil (Or.inl rfl)
  · obtain ⟨j, hj, hget⟩ := List.getElem_of_mem hmem
    refine .lock hj ?_ rfl (Nat.zero_le j)
    simp only [Select.target, List.getElem?_eq_getElem hj, hget, hnull, Option.map_none]

theorem doomed_step (hmove : SelectMove st t s e st') (h : Doomed s) :
    st'.threads t = .crashed ∨ ∃ s', st'.threads t = .select s' ∧ Doomed s' := by
  have hcrash : ∀ {v : State T C A}, (v.setThread t .crashed).threads t = .crashed := fun {v} =>
    State.threads_setThread_self v t _
  have hgoto : ∀ {v : State T C A} {pc : SelectPc A}, Doomed { s with pc := pc } →
      ∃ s', (v.setThread t (s.goto pc)).threads t = .select s' ∧ Doomed s' := fun {v} _ hd =>
    ⟨_, State.threads_setThread_self v t _, hd⟩
  cases h with
  | empty hlist hpc =>
    rcases hpc with hpc | hpc
    · cases hmove with
      | regCrash => exact Or.inl hcrash
      | regLock hpc' hi =>
        rw [hlist] at hi
        exact absurd hi (Nat.not_lt_zero _)
      | regDone => exact Or.inr (hgoto (.empty hlist (Or.inr rfl)))
      | _ hpc' => cases hpc.symm.trans hpc'
    · cases hmove with
      | scanCrash => exact Or.inl hcrash
      | scan hpc' hentry =>
        rw [hlist] at hentry
        cases hentry
      | _ hpc' => cases hpc.symm.trans hpc'
  | @lock i j hj hnull hpc hi =>
    cases hmove with
    | regCrash => exact Or.inl hcrash
    | regLock hpc' _ htarget =>
      cases hpc.symm.trans hpc'
      have hne : i ≠ j := by
        rintro rfl
        cases hnull.symm.trans htarget
      exact Or.inr (hgoto (.locked hj hnull (Or.inl rfl) (Nat.lt_of_le_of_ne hi hne)))
    | regDone hpc' hle =>
      cases hpc.symm.trans hpc'
      exact absurd hj (by omega)
    | _ hpc' => cases hpc.symm.trans hpc'
  | @locked i j hj hnull hpc hi =>
    rcases hpc with hpc | hpc
    · cases hmove with
      | regFound hpc' =>
        cases hpc.symm.trans hpc'
        exact Or.inr (hgoto (.locked hj hnull (Or.inr rfl) hi))
      | regInsert hpc' =>
        cases hpc.symm.trans hpc'
        exact Or.inr (hgoto (.locked hj hnull (Or.inr rfl) hi))
      | regRefused hpc' =>
        cases hpc.symm.trans hpc'
        exact Or.inr (hgoto (.locked hj hnull (Or.inr rfl) hi))
      | _ hpc' => cases hpc.symm.trans hpc'
    · cases hmove with
      | regUnlock hpc' =>
        cases hpc.symm.trans hpc'
        exact Or.inr (hgoto (.lock hj hnull rfl hi))
      | _ hpc' => cases hpc.symm.trans hpc'

/-- A call without entries, or with one that is NULL, does not return: whatever happens,
it is still registering, or has crashed. -/
theorem unusable_never_returns (hcall : Step st₁ (t, .callSelect list addr) st₂)
    (hbad : list = [] ∨ ∃ entry ∈ list, entry.chan = none) (hduring : Run Step st₂ ls st) :
    st.threads t = .crashed ∨ ∃ s, st.threads t = .select s ∧ Doomed s := by
  apply hduring.invariant (Or.inr (doomed_start hcall hbad))
  rintro st ⟨u, e⟩ st' h hst
  by_cases hut : t = u
  · subst hut
    rcases h with hcrash | ⟨s, hs, hdoomed⟩
    · cases hst.move with
      | call _ _ _ _ ht => cases hcrash.symm.trans ht
      | op ht => cases hcrash.symm.trans ht
      | ret ht => cases hcrash.symm.trans ht
      | callClose _ ht => cases hcrash.symm.trans ht
      | close ht => cases hcrash.symm.trans ht
      | retClose ht => cases hcrash.symm.trans ht
      | callSelect _ _ _ ht => cases hcrash.symm.trans ht
      | select ht => cases hcrash.symm.trans ht
    · exact doomed_step (hst.move.of_select hs) hdoomed
  · rw [hst.move.threads_of_ne hut]
    exact h

end Calls

/-- Three calls on `pair` that go wrong: without entries, with one that is NULL, and
with a node that was refused. -/
theorem select_swallows :
    (∃ st, Run Step pair [(true, .callSelect [] ()), (true, .internal), (true, .internal)] st ∧
      st.threads true = .crashed) ∧
    (∃ st, Run Step pair [(true, .callSelect [⟨none, true, 7⟩] ()), (true, .internal)] st ∧
      st.threads true = .crashed) ∧
    ∃ ls st s, Run Step pair ls st ∧ st.threads true = .select s ∧ s.pc = .wait ∧
      st.locals s.addr = some 0 ∧ s.target 0 = some ((), .recv) ∧ s.addr ∉ st.waiters () .recv := by
  refine ⟨?_, ?_, ?_⟩
  · have hcall := (Run.nil pair).snoc (Step.callSelect (t := true) [] () 0 rfl rfl (by decide))
    have hscan := hcall.snoc (Step.run (t := true) true rfl)
    have hread := hscan.snoc (Step.run (t := true) true rfl)
    exact ⟨_, hread, rfl⟩
  · have hcall := (Run.nil pair).snoc
      (Step.callSelect (t := true) [⟨none, true, 7⟩] () 0 rfl rfl (by decide))
    have hread := hcall.snoc (Step.run (t := true) true rfl)
    exact ⟨_, hread, rfl⟩
  · have hcall := (Run.nil pair).snoc
      (Step.callSelect (t := true) [⟨some (), false, 0⟩] () 0 rfl rfl (by decide))
    have hlock := hcall.snoc (Step.run (t := true) true rfl)
    have hrefused := hlock.snoc (Step.run (t := true) false rfl)
    have hunlock := hrefused.snoc (Step.run (t := true) true rfl)
    have hreg := hunlock.snoc (Step.run (t := true) true rfl)
    have hscan := hreg.snoc (Step.run (t := true) true rfl)
    have htake := hscan.snoc (Step.run (t := true) true rfl)
    have hfull := htake.snoc (Step.run (t := true) true rfl)
    have hcheck := hfull.snoc (Step.run (t := true) true rfl)
    have hblock := hcheck.snoc (Step.run (t := true) true rfl)
    have hwait := hblock.snoc (Step.run (t := true) true rfl)
    exact ⟨_, _, _, hwait, rfl, rfl, rfl, rfl, List.not_mem_nil⟩

end Channels
end Cmpsc473
