import Cmpsc473.Channels.SelectMoves

/-!
# One channel of the system

What the system does to one channel, with the threads reduced to what they do on
it.  A thread is on a channel when it is in `channel_send`, `channel_receive` or
`channel_close` for it, called by itself or from a select.  Every step of the
system is a step of this smaller one (`Step.single`), so that an invariant of a
channel can be proved here, where a call from a select is like any other.
-/

set_option linter.unusedSectionVars false

namespace Cmpsc473
namespace Channels

/-- What a thread does on a channel. -/
inductive View (A : Type)
  | away
  | op (dir : Dir) (blocking : Bool) (data : UInt64) (pc : OpPc A)
  | close (pc : ClosePc A)

structure Single (T A : Type) where
  chan : Chan T A
  views : T → View A

/-- Two states of a channel that differ in the waiter lists and their locks only. -/
structure SameButLists {T A : Type} (ch ch' : Chan T A) : Prop where
  buffer : ch'.buffer = ch.buffer
  closed : ch'.closed = ch.closed
  mutex : ch'.mutex = ch.mutex
  permit : ch'.permit = ch.permit

/-- The event is about other channels, or about none. -/
def Event.Elsewhere {C A : Type} (c : C) : Event C A → Prop
  | .call chan _ _ _ => chan ≠ some c
  | .ret chan _ _ _ => chan ≠ some c
  | .added c' _ => c' ≠ c
  | .removed c' _ => c' ≠ c
  | .callClose chan => chan ≠ some c
  | .retClose chan _ => chan ≠ some c
  | _ => True

section

variable {T C A : Type} [DecidableEq T] [DecidableEq C] [DecidableEq A]

/-- The view of a call on `chan`. -/
def viewIf (c : C) (chan : Option C) (v : View A) : View A := if chan = some c then v else .away

def Thread.view (c : C) : Thread C A → View A
  | .op chan dir blocking data pc => viewIf c chan (.op dir blocking data pc)
  | .close chan pc => viewIf c chan (.close pc)
  | .select s =>
    match s.pc with
    | .attempt i pc =>
      match s.channelList[i]? with
      | none => .away
      | some e => viewIf c e.chan (.op e.dir false e.data pc)
    | _ => .away
  | _ => .away

def State.single (st : State T C A) (c : C) : Single T A where
  chan := st.chans c
  views t := (st.threads t).view c

/-- The steps on the channel `c`. -/
inductive Single.Step (c : C) : Single T A → T × Event C A → Single T A → Prop
  | call {σ : Single T A} {t : T} (dir : Dir) (blocking : Bool) (data : UInt64)
      (hview : σ.views t = .away) :
      Single.Step c σ (t, .call (some c) dir data blocking)
        ⟨σ.chan, Function.update σ.views t (.op dir blocking data .take)⟩
  | op {σ : Single T A} {t : T} {dir : Dir} {blocking : Bool} {data : UInt64} {pc : OpPc A}
      {r : OpStep T C A} (hview : σ.views t = .op dir blocking data pc)
      (hr : channelOp t c dir blocking σ.chan data pc = some r) :
      Single.Step c σ (t, r.event)
        ⟨r.chan, Function.update σ.views t (.op dir blocking r.data r.pc)⟩
  | ret {σ : Single T A} {t : T} {dir : Dir} {blocking : Bool} {data : UInt64} {st : Status}
      (hview : σ.views t = .op dir blocking data (.done st)) :
      Single.Step c σ (t, .ret (some c) dir st data) ⟨σ.chan, Function.update σ.views t .away⟩
  | callClose {σ : Single T A} {t : T} (hview : σ.views t = .away) :
      Single.Step c σ (t, .callClose (some c))
        ⟨σ.chan, Function.update σ.views t (.close .lock)⟩
  | close {σ : Single T A} {t : T} {pc : ClosePc A} {r : CloseStep T A}
      (hview : σ.views t = .close pc) (hr : channelClose t σ.chan pc = some r) :
      Single.Step c σ (t, .internal) ⟨r.chan, Function.update σ.views t (.close r.pc)⟩
  | retClose {σ : Single T A} {t : T} {st : Status} (hview : σ.views t = .close (.done st)) :
      Single.Step c σ (t, .retClose (some c) st) ⟨σ.chan, Function.update σ.views t .away⟩
  | elsewhere {σ : Single T A} {t : T} {e : Event C A} {ch : Chan T A} (hview : σ.views t = .away)
      (hevent : e.Elsewhere c) (hch : SameButLists σ.chan ch) :
      Single.Step c σ (t, e) ⟨ch, σ.views⟩

@[simp] theorem viewIf_self (c : C) (v : View A) : viewIf c (some c) v = v := if_pos rfl

theorem viewIf_of_ne {c : C} {chan : Option C} {v : View A} (h : chan ≠ some c) :
    viewIf c chan v = .away := if_neg h

theorem SameButLists.refl (ch : Chan T A) : SameButLists ch ch := ⟨rfl, rfl, rfl, rfl⟩

theorem SameButLists.setLock (ch : Chan T A) (d : Dir) (owner : Option T) :
    SameButLists ch (ch.setLock d owner) := ⟨rfl, rfl, rfl, rfl⟩

theorem SameButLists.setList (ch : Chan T A) (d : Dir) (l : List A) :
    SameButLists ch (ch.setList d l) := ⟨rfl, rfl, rfl, rfl⟩

/-! ## Steps of the system are steps on each channel -/

section Moves

variable {c : C} {t : T} {st st' : State T C A} {x : Thread C A} {e : Event C A}

/-- The channel in a state that differs from another by one thread. -/
theorem single_eq (hx : st'.threads = Function.update st.threads t x) (c : C) :
    st'.single c = ⟨st'.chans c, Function.update (st.single c).views t (x.view c)⟩ := by
  unfold State.single
  congr 1
  funext u
  rw [hx]
  by_cases hu : u = t
  · rw [hu, Function.update_self, Function.update_self]
  · rw [Function.update_of_ne hu, Function.update_of_ne hu]

theorem step_elsewhere (hx : st'.threads = Function.update st.threads t x)
    (hold : (st.threads t).view c = .away) (hnew : x.view c = .away) (he : e.Elsewhere c)
    (hch : SameButLists (st.chans c) (st'.chans c)) :
    Single.Step c (st.single c) (t, e) (st'.single c) := by
  have hsame : Function.update (st.single c).views t (x.view c) = (st.single c).views := by
    rw [hnew, ← hold]
    exact Function.update_eq_self t (st.single c).views
  rw [single_eq hx, hsame]
  exact Single.Step.elsewhere hold he hch

/-- A call is made. -/
theorem step_call {chan : Option C} {dir : Dir} {blocking : Bool} {data : UInt64}
    (hx : st'.threads = Function.update st.threads t x) (hch : st'.chans = st.chans)
    (hold : (st.threads t).view c = .away)
    (hnew : x.view c = viewIf c chan (.op dir blocking data (startOp chan))) :
    Single.Step c (st.single c) (t, .call chan dir data blocking) (st'.single c) := by
  by_cases hc : chan = some c
  · rw [single_eq hx, hnew, hch, hc, viewIf_self]
    exact Single.Step.call dir blocking data hold
  · rw [viewIf_of_ne hc] at hnew
    exact step_elsewhere hx hold hnew hc (hch ▸ SameButLists.refl _)

/-- A call returns. -/
theorem step_ret {chan : Option C} {dir : Dir} {blocking : Bool} {data : UInt64} {status : Status}
    (hx : st'.threads = Function.update st.threads t x) (hch : st'.chans = st.chans)
    (hold : (st.threads t).view c = viewIf c chan (.op dir blocking data (.done status)))
    (hnew : x.view c = .away) :
    Single.Step c (st.single c) (t, .ret chan dir status data) (st'.single c) := by
  by_cases hc : chan = some c
  · rw [hc, viewIf_self] at hold
    rw [single_eq hx, hnew, hch, hc]
    exact Single.Step.ret hold
  · rw [viewIf_of_ne hc] at hold
    exact step_elsewhere hx hold hnew hc (hch ▸ SameButLists.refl _)

/-- What a call shows is about its own channel. -/
theorem channelOp_elsewhere {c' : C} {dir : Dir} {blocking : Bool} {ch : Chan T A} {data : UInt64}
    {pc : OpPc A} {r : OpStep T C A} (h : channelOp t c' dir blocking ch data pc = some r)
    (hc : c' ≠ c) : r.event.Elsewhere c := by
  cases channelOp_move h with
  | added => exact hc
  | removed => exact hc
  | removeFailed _ _ _ he =>
    rw [he]
    split
    · exact hc
    · trivial
  | _ => trivial

/-- A call does a step. -/
theorem step_op {c' : C} {dir : Dir} {blocking : Bool} {data : UInt64} {pc : OpPc A}
    {r : OpStep T C A} (hr : callOp t c' dir blocking (st.chans c') data pc = some r)
    (hx : st'.threads = Function.update st.threads t x)
    (hch : st'.chans = Function.update st.chans c' r.chan)
    (hold : (st.threads t).view c = viewIf c (some c') (.op dir blocking data pc))
    (hnew : x.view c = viewIf c (some c') (.op dir blocking r.data r.pc)) :
    Single.Step c (st.single c) (t, r.event) (st'.single c) := by
  have hr' : channelOp t c' dir blocking (st.chans c') data pc = some r := by
    cases dir <;> exact hr
  by_cases hc : c' = c
  · rw [hc] at hr' hold hnew hch
    rw [viewIf_self] at hold hnew
    rw [single_eq hx, hnew, hch, Function.update_self]
    exact Single.Step.op hold hr'
  · have hc' : some c' ≠ some c := fun h => hc (Option.some.inj h)
    rw [viewIf_of_ne hc'] at hold hnew
    refine step_elsewhere hx hold hnew (channelOp_elsewhere hr' hc) ?_
    rw [hch, Function.update_of_ne (Ne.symm hc)]
    exact SameButLists.refl _

/-- A close does a step, and returns, or is called. -/
theorem step_close {c' : C} {pc : ClosePc A} {r : CloseStep T A}
    (hr : channelClose t (st.chans c') pc = some r)
    (hx : st'.threads = Function.update st.threads t x)
    (hch : st'.chans = Function.update st.chans c' r.chan)
    (hold : (st.threads t).view c = viewIf c (some c') (.close pc))
    (hnew : x.view c = viewIf c (some c') (.close r.pc)) :
    Single.Step c (st.single c) (t, .internal) (st'.single c) := by
  by_cases hc : c' = c
  · rw [hc] at hr hold hnew hch
    rw [viewIf_self] at hold hnew
    rw [single_eq hx, hnew, hch, Function.update_self]
    exact Single.Step.close hold hr
  · have hc' : some c' ≠ some c := fun h => hc (Option.some.inj h)
    rw [viewIf_of_ne hc'] at hold hnew
    refine step_elsewhere hx hold hnew trivial ?_
    rw [hch, Function.update_of_ne (Ne.symm hc)]
    exact SameButLists.refl _

theorem step_callClose {chan : Option C}
    (hx : st'.threads = Function.update st.threads t x) (hch : st'.chans = st.chans)
    (hold : (st.threads t).view c = .away)
    (hnew : x.view c = viewIf c chan (.close (startClose chan))) :
    Single.Step c (st.single c) (t, .callClose chan) (st'.single c) := by
  by_cases hc : chan = some c
  · rw [single_eq hx, hnew, hch, hc, viewIf_self]
    exact Single.Step.callClose hold
  · rw [viewIf_of_ne hc] at hnew
    exact step_elsewhere hx hold hnew hc (hch ▸ SameButLists.refl _)

theorem step_retClose {chan : Option C} {status : Status}
    (hx : st'.threads = Function.update st.threads t x) (hch : st'.chans = st.chans)
    (hold : (st.threads t).view c = viewIf c chan (.close (.done status)))
    (hnew : x.view c = .away) :
    Single.Step c (st.single c) (t, .retClose chan status) (st'.single c) := by
  by_cases hc : chan = some c
  · rw [hc, viewIf_self] at hold
    rw [single_eq hx, hnew, hch, hc]
    exact Single.Step.retClose hold
  · rw [viewIf_of_ne hc] at hold
    exact step_elsewhere hx hold hnew hc (hch ▸ SameButLists.refl _)

@[simp] theorem State.postLocal_threads (st : State T C A) (p : Option A) :
    (st.postLocal p).threads = st.threads := by
  cases p <;> rfl

@[simp] theorem State.postLocal_chans (st : State T C A) (p : Option A) :
    (st.postLocal p).chans = st.chans := by
  cases p <;> rfl

theorem sameButLists_setChan {c' : C} {ch : Chan T A} (h : SameButLists (st.chans c') ch) (c : C) :
    SameButLists (st.chans c) ((st.setChan c' ch).chans c) := by
  show SameButLists (st.chans c) (Function.update st.chans c' ch c)
  by_cases hc : c = c'
  · rw [hc, Function.update_self]
    exact h
  · rw [Function.update_of_ne hc]
    exact SameButLists.refl _

theorem view_afterAttempt (s : Select C A) (i : Nat) (status : Status) :
    (s.afterAttempt i status).view c = .away := by
  unfold Select.afterAttempt
  split
  · by_cases h : status ≠ .wouldblock
    · simp only [if_pos h, Thread.view]
    · simp only [if_neg h, Thread.view]
  · rfl

theorem view_select (s : Select C A) (h : ∀ i pc, s.pc ≠ .attempt i pc) :
    (Thread.select s : Thread C A).view c = .away := by
  cases hpc : s.pc with
  | attempt i pc => exact absurd hpc (h i pc)
  | _ => simp only [Thread.view, hpc]

theorem view_attempt {s : Select C A} {i : Nat} {pc : OpPc A} {entry : Entry C}
    (hpc : s.pc = .attempt i pc) (hentry : s.channelList[i]? = some entry) :
    (Thread.select s : Thread C A).view c =
      viewIf c entry.chan (.op entry.dir false entry.data pc) := by
  simp only [Thread.view, hpc, hentry]

/-- What a select does beside its attempts touches the waiter lists of a channel
and their locks, and nothing else in it. -/
theorem SelectMove.single {s : Select C A} (ht : st.threads t = .select s)
    (h : SelectMove st t s e st') (c : C) :
    Single.Step c (st.single c) (t, e) (st'.single c) := by
  have hold : ∀ pc, s.pc = pc → (∀ i p, pc ≠ .attempt i p) → (st.threads t).view c = .away := by
    intro pc hpc hno
    rw [ht]
    exact view_select s (fun i p => hpc ▸ hno i p)
  have hgoto : ∀ pc : SelectPc A, (∀ i p, pc ≠ .attempt i p) → (s.goto pc).view c = .away :=
    fun pc hno => view_select _ hno
  have hlist : ∀ c' d (l : List A), SameButLists (st.chans c) ((st.setWaiters c' d l).chans c) :=
    fun c' d l => sameButLists_setChan (SameButLists.setList (st.chans c') d.other l) c
  have hlock : ∀ c' d (o : Option T), SameButLists (st.chans c) ((st.setListLock c' d o).chans c) :=
    fun c' d o => sameButLists_setChan (SameButLists.setLock (st.chans c') d.other o) c
  have hsame := SameButLists.refl (st.chans c)
  have elsewhere : ∀ {x : Thread C A} {e : Event C A} {st' : State T C A} (pc : SelectPc A),
      s.pc = pc → (∀ i p, pc ≠ .attempt i p) → x.view c = .away → e.Elsewhere c →
      st'.threads = Function.update st.threads t x →
      SameButLists (st.chans c) (st'.chans c) →
      Single.Step c (st.single c) (t, e) (st'.single c) :=
    fun pc hpc hno hnew he hx hch => step_elsewhere hx (hold pc hpc hno) hnew he hch
  cases h with
  | regCrash hpc => exact elsewhere _ hpc (by simp) rfl trivial rfl hsame
  | regLock hpc => exact elsewhere _ hpc (by simp) (hgoto _ (by simp)) trivial rfl (hlock _ _ _)
  | regDone hpc => exact elsewhere _ hpc (by simp) (hgoto _ (by simp)) trivial rfl hsame
  | regFound hpc => exact elsewhere _ hpc (by simp) (hgoto _ (by simp)) trivial rfl hsame
  | regInsert hpc => exact elsewhere _ hpc (by simp) (hgoto _ (by simp)) trivial rfl (hlist _ _ _)
  | regRefused hpc => exact elsewhere _ hpc (by simp) (hgoto _ (by simp)) trivial rfl hsame
  | regUnlock hpc => exact elsewhere _ hpc (by simp) (hgoto _ (by simp)) trivial rfl (hlock _ _ _)
  | scanCrash hpc => exact elsewhere _ hpc (by simp) rfl trivial rfl hsame
  | @scan i entry hpc hentry =>
    exact step_call rfl rfl (hold _ hpc (by simp)) (view_attempt rfl hentry)
  | @attempt i entry c' pc r hpc hentry hchan hr =>
    have hset : (s.channelList.set i { entry with data := r.data })[i]? =
        some { entry with data := r.data } := by
      rw [List.getElem?_set_self (List.getElem?_eq_some_iff.mp hentry).1]
    refine step_op (by rw [callOp_eq]; exact hr) ?_ ?_ ?_ (x := .select { s with
      channelList := s.channelList.set i { entry with data := r.data }, pc := .attempt i r.pc }) ?_
    · simp only [State.setThread, State.postLocal_threads, State.setChan]
    · simp only [State.setThread, State.postLocal_chans, State.setChan]
    · rw [ht, view_attempt hpc hentry, hchan]
    · rw [view_attempt rfl hset, hchan]
      rfl
  | @attemptDone i entry status hpc hentry =>
    have hview := view_attempt (c := c) hpc hentry
    rw [← ht] at hview
    exact step_ret rfl rfl hview (view_afterAttempt s i status)
  | wait hpc => exact elsewhere _ hpc (by simp) (hgoto _ (by simp)) trivial rfl hsame
  | remCrash hpc => exact elsewhere _ hpc (by simp) rfl trivial rfl hsame
  | remLock hpc => exact elsewhere _ hpc (by simp) (hgoto _ (by simp)) trivial rfl (hlock _ _ _)
  | remDone hpc => exact elsewhere _ hpc (by simp) (hgoto _ (by simp)) trivial rfl hsame
  | remBody hpc => exact elsewhere _ hpc (by simp) (hgoto _ (by simp)) trivial rfl (hlist _ _ _)
  | remUnlock hpc => exact elsewhere _ hpc (by simp) (hgoto _ (by simp)) trivial rfl (hlock _ _ _)
  | destroy hpc => exact elsewhere _ hpc (by simp) rfl trivial rfl hsame

/-- A step of the system is a step on each of its channels. -/
theorem Step.single (h : Step st (t, e) st') (c : C) :
    Single.Step c (st.single c) (t, e) (st'.single c) := by
  cases h.move with
  | call chan dir data blocking ht =>
    exact step_call rfl rfl (by rw [ht]; rfl) rfl
  | @op c' dir blocking data pc r ht hr =>
    refine step_op (by rw [callOp_eq]; exact hr) ?_ ?_ (by rw [ht]; rfl)
      (x := .op (some c') dir blocking r.data r.pc) rfl
    · simp only [State.setThread, State.postLocal_threads, State.setChan]
    · simp only [State.setThread, State.postLocal_chans, State.setChan]
  | ret ht => exact step_ret rfl rfl (by rw [ht]; rfl) rfl
  | callClose chan ht => exact step_callClose rfl rfl (by rw [ht]; rfl) rfl
  | @close c' pc r ht hr =>
    refine step_close hr ?_ ?_ (by rw [ht]; rfl) (x := .close (some c') r.pc) rfl
    · simp only [State.setThread, State.postLocal_threads, State.setChan]
    · simp only [State.setThread, State.postLocal_chans, State.setChan]
  | retClose ht => exact step_retClose rfl rfl (by rw [ht]; rfl) rfl
  | callSelect channelList addr selectedIndex ht =>
    exact step_elsewhere rfl (by rw [ht]; rfl) rfl trivial (SameButLists.refl _)
  | select ht h => exact h.single ht c

/-- A run of the system is a run on each of its channels. -/
theorem Run.single {s₀ : State T C A} {ls : List (T × Event C A)}
    (h : Transition.Run Step s₀ ls st) (c : C) :
    Transition.Run (Single.Step c) (s₀.single c) ls (st.single c) := by
  induction h with
  | nil => exact .nil _
  | snoc _ hst ih => exact ih.snoc (hst.single c)

/-- The channel at the start of the system. -/
theorem Initial.single {cap : C → Nat} (h : Initial cap st) (c : C) :
    ∃ data garbage, (st.single c).chan = channelCreate (cap c) data garbage ∧
      ∀ t, (st.single c).views t = .away := by
  obtain ⟨data, garbage, hchan⟩ := h.chans c
  refine ⟨data, garbage, hchan, fun t => ?_⟩
  show (st.threads t).view c = _
  rw [h.threads t]
  rfl

/-- The thread can do a step in its call on the channel. -/
def Single.CanStep (c : C) (σ : Single T A) (t : T) : Prop :=
  (∃ dir blocking data pc r, σ.views t = .op dir blocking data pc ∧
    channelOp t c dir blocking σ.chan data pc = some r) ∨
  ∃ pc r, σ.views t = .close pc ∧ channelClose t σ.chan pc = some r

theorem viewIf_eq {chan : Option C} {v w : View A} (h : viewIf c chan v = w) (hw : w ≠ .away) :
    chan = some c ∧ v = w := by
  unfold viewIf at h
  split at h
  · exact ⟨‹_›, h⟩
  · exact absurd h.symm hw

/-- The events of the steps inside a call. -/
theorem channelOp_event {dir : Dir} {blocking : Bool} {ch : Chan T A} {data : UInt64} {pc : OpPc A}
    {r : OpStep T C A} (h : channelOp t c dir blocking ch data pc = some r) :
    r.event = .internal ∨ (∃ v, r.event = .added c v) ∨ ∃ v, r.event = .removed c v := by
  cases channelOp_move h with
  | added => exact Or.inr (Or.inl ⟨_, rfl⟩)
  | removed => exact Or.inr (Or.inr ⟨_, rfl⟩)
  | removeFailed _ _ _ he =>
    rw [he]
    split
    · exact Or.inr (Or.inr ⟨_, rfl⟩)
    · exact Or.inl rfl
  | _ => exact Or.inl rfl

/-- A call that returns was done. -/
theorem Single.Step.ret_view {σ σ' : Single T A} {dir : Dir} {status : Status} {data : UInt64}
    (h : Single.Step c σ (t, .ret (some c) dir status data) σ') :
    ∃ blocking, σ.views t = .op dir blocking data (.done status) := by
  generalize hl : (t, (Event.ret (some c) dir status data : Event C A)) = l at h
  cases h with
  | op _ hr =>
    rcases channelOp_event hr with he | ⟨v, he⟩ | ⟨v, he⟩ <;>
    · rw [he] at hl
      cases hl
  | ret hview =>
    cases hl
    exact ⟨_, hview⟩
  | elsewhere _ he _ =>
    cases hl
    exact absurd rfl he
  | _ => cases hl

theorem Single.Step.retClose_view {σ σ' : Single T A} {status : Status}
    (h : Single.Step c σ (t, .retClose (some c) status) σ') :
    σ.views t = .close (.done status) := by
  generalize hl : (t, (Event.retClose (some c) status : Event C A)) = l at h
  cases h with
  | op _ hr =>
    rcases channelOp_event hr with he | ⟨v, he⟩ | ⟨v, he⟩ <;>
    · rw [he] at hl
      cases hl
  | retClose hview =>
    cases hl
    exact hview
  | elsewhere _ he _ =>
    cases hl
    exact absurd rfl he
  | _ => cases hl

/-- A call of `channel_send`, `channel_receive` or `channel_close` returns. -/
def Event.returns : Event C A → Bool
  | .ret .. | .retClose .. => true
  | _ => false

theorem Single.Step.view_of_ne {σ σ' : Single T A} {u : T} (h : Single.Step c σ (u, e) σ')
    (ht : t ≠ u) : σ'.views t = σ.views t := by
  generalize hl : (u, e) = l at h
  cases h with
  | elsewhere => rfl
  | _ =>
    cases hl
    exact Function.update_of_ne ht _ _

/-- The step of a thread that is in an operation. -/
theorem Single.Step.op_step {σ σ' : Single T A} {dir : Dir} {blocking : Bool} {data : UInt64}
    {pc : OpPc A} (h : Single.Step c σ (t, e) σ') (hno : e.returns = false)
    (hview : σ.views t = .op dir blocking data pc) :
    ∃ r, channelOp t c dir blocking σ.chan data pc = some r ∧ e = r.event ∧
      σ' = ⟨r.chan, Function.update σ.views t (.op dir blocking r.data r.pc)⟩ := by
  generalize hl : (t, e) = l at h
  cases h with
  | op hview' hr =>
    cases hl
    cases hview.symm.trans hview'
    exact ⟨_, hr, rfl, rfl⟩
  | ret =>
    cases hl
    cases hno
  | retClose =>
    cases hl
    cases hno
  | call _ _ _ hview' =>
    cases hl
    exact absurd (hview.symm.trans hview') nofun
  | callClose hview' =>
    cases hl
    exact absurd (hview.symm.trans hview') nofun
  | close hview' =>
    cases hl
    exact absurd (hview.symm.trans hview') nofun
  | elsewhere hview' =>
    cases hl
    exact absurd (hview.symm.trans hview') nofun

/-- The step of a thread that is in a close. -/
theorem Single.Step.close_step {σ σ' : Single T A} {pc : ClosePc A}
    (h : Single.Step c σ (t, e) σ') (hno : e.returns = false) (hview : σ.views t = .close pc) :
    ∃ r, channelClose t σ.chan pc = some r ∧
      σ' = ⟨r.chan, Function.update σ.views t (.close r.pc)⟩ := by
  generalize hl : (t, e) = l at h
  cases h with
  | close hview' hr =>
    cases hl
    cases hview.symm.trans hview'
    exact ⟨_, hr, rfl⟩
  | ret =>
    cases hl
    cases hno
  | retClose =>
    cases hl
    cases hno
  | call _ _ _ hview' =>
    cases hl
    exact absurd (hview.symm.trans hview') nofun
  | callClose hview' =>
    cases hl
    exact absurd (hview.symm.trans hview') nofun
  | op hview' =>
    cases hl
    exact absurd (hview.symm.trans hview') nofun
  | elsewhere hview' =>
    cases hl
    exact absurd (hview.symm.trans hview') nofun

/-- A select returns from its last step. -/
theorem Step.retSelect_thread {status : Status} {i : Nat}
    (h : Step st (t, .retSelect status i) st') : st'.chans = st.chans ∧
      ∃ s, st.threads t = .select s ∧ s.pc = .destroy status ∧ s.selectedIndex = i := by
  generalize he : (Event.retSelect status i : Event C A) = e at h
  cases h.move with
  | op _ hr =>
    rcases channelOp_event hr with hr | ⟨v, hr⟩ | ⟨v, hr⟩ <;>
    · rw [hr] at he
      cases he
  | select ht hmove =>
    cases hmove with
    | attempt _ _ _ hr =>
      rcases channelOp_event hr with hr | ⟨v, hr⟩ | ⟨v, hr⟩ <;>
      · rw [hr] at he
        cases he
    | destroy hpc =>
      cases he
      exact ⟨rfl, _, ht, hpc, rfl⟩
    | _ => cases he
  | _ => cases he

/-- A thread is in an operation on a channel by itself, or in an attempt of a select. -/
theorem view_eq_op {dir : Dir} {blocking : Bool} {data : UInt64} {pc : OpPc A}
    (h : x.view c = .op dir blocking data pc) : x = .op (some c) dir blocking data pc ∨
      ∃ s i entry, x = .select s ∧ s.pc = .attempt i pc ∧ s.channelList[i]? = some entry ∧
        entry.chan = some c ∧ entry.dir = dir ∧ blocking = false ∧ entry.data = data := by
  cases x with
  | op chan dir' blocking' data' pc' =>
    obtain ⟨rfl, heq⟩ := viewIf_eq h nofun
    cases heq
    exact Or.inl rfl
  | close chan pc' => exact absurd (viewIf_eq h nofun).2 nofun
  | select s =>
    cases hpc : s.pc with
    | attempt i pc' =>
      simp only [Thread.view, hpc] at h
      cases hentry : s.channelList[i]? with
      | none =>
        rw [hentry] at h
        cases h
      | some entry =>
        rw [hentry] at h
        obtain ⟨hchan, heq⟩ := viewIf_eq h nofun
        cases heq
        exact Or.inr ⟨s, i, entry, rfl, hpc, hentry, hchan, rfl, rfl, rfl⟩
    | _ =>
      simp only [Thread.view, hpc] at h
      cases h
  | _ => cases h

theorem view_eq_close {pc : ClosePc A} (h : x.view c = .close pc) : x = .close (some c) pc := by
  cases x with
  | op chan dir' blocking' data' pc' => exact absurd (viewIf_eq h nofun).2 nofun
  | close chan pc' =>
    obtain ⟨rfl, heq⟩ := viewIf_eq h nofun
    cases heq
    rfl
  | select s =>
    cases hpc : s.pc with
    | attempt i pc' =>
      simp only [Thread.view, hpc] at h
      cases hentry : s.channelList[i]? with
      | none =>
        rw [hentry] at h
        cases h
      | some entry =>
        rw [hentry] at h
        exact absurd (viewIf_eq h nofun).2 nofun
    | _ =>
      simp only [Thread.view, hpc] at h
      cases h
  | _ => cases h

theorem channelOp_result {dir : Dir} {blocking : Bool} {ch : Chan T A} {data : UInt64} {pc : OpPc A}
    {r : OpStep T C A} (h : channelOp t c dir blocking ch data pc = some r) : pc.result = none := by
  cases pc with
  | done => cases h
  | _ => rfl

theorem channelClose_result {ch : Chan T A} {pc : ClosePc A} {r : CloseStep T A}
    (h : channelClose t ch pc = some r) : pc.result = none := by
  cases pc with
  | done => cases h
  | _ => rfl

/-- What a thread can do on a channel it can do in the system. -/
theorem Single.CanStep.next (h : Single.CanStep c (st.single c) t) (alloc : Bool) :
    ∃ e st', next st t alloc = some (e, st') := by
  rcases h with ⟨dir, blocking, data, pc, r, hview, hr⟩ | ⟨pc, r, hview, hr⟩
  · have hr' : callOp t c dir blocking (st.chans c) data pc = some r := by
      rw [callOp_eq]
      exact hr
    rcases view_eq_op hview with ht | ⟨s, i, entry, ht, hpc, hentry, hchan, rfl, rfl, rfl⟩
    · simp only [Channels.next, ht, channelOp_result hr, hr', Option.map_some]
      exact ⟨_, _, rfl⟩
    · simp only [Channels.next, ht, channelSelect, hpc, hentry, channelOp_result hr, hchan, hr',
        Option.map_some]
      exact ⟨_, _, rfl⟩
  · have hr' : channelClose t (st.chans c) pc = some r := hr
    simp only [Channels.next, view_eq_close hview, channelClose_result hr, hr', Option.map_some]
    exact ⟨_, _, rfl⟩

end Moves

end

end Channels
end Cmpsc473
