import Cmpsc473.Channels.Permits

/-!
# Messages of a channel

The values added to a channel, those removed from it and those in its buffer, over
whole runs.  One step obeys the law of a queue (`fifo_step`); along a run what was
removed, followed by what is in the buffer, is what was added.  Each call is followed
by the log of what it added or removed (`openCall`).
-/

set_option linter.unusedSectionVars false

namespace Cmpsc473
namespace Channels

open Census

variable {T C A : Type} [DecidableEq T] [DecidableEq C] [DecidableEq A]

def Event.addedTo (c : C) : Event C A → Option UInt64
  | .added c' v => if c' = c then some v else none
  | _ => none

def Event.removedFrom (c : C) : Event C A → Option UInt64
  | .removed c' v => if c' = c then some v else none
  | _ => none

/-- The value that a step adds or removes, and where. -/
def Event.moved : Event C A → List (C × Dir × UInt64)
  | .added c v => [(c, .send, v)]
  | .removed c v => [(c, .recv, v)]
  | _ => []

/-- The value that a receive from `c` returns. -/
def Event.deliveredFrom (c : C) : Event C A → Option UInt64
  | .ret (some c') .recv .success v => if c' = c then some v else none
  | _ => none

def addedTo (c : C) (ls : List (T × Event C A)) : List UInt64 :=
  ls.filterMap fun l => l.2.addedTo c

def removedFrom (c : C) (ls : List (T × Event C A)) : List UInt64 :=
  ls.filterMap fun l => l.2.removedFrom c

def deliveredFrom (c : C) (ls : List (T × Event C A)) : List UInt64 :=
  ls.filterMap fun l => l.2.deliveredFrom c

/-- A call of `channel_send` or `channel_receive`: its arguments, and the values that
it has added or removed. -/
structure CallLog (C : Type) where
  chan : Option C
  dir : Dir
  data : UInt64
  moved : List (C × Dir × UInt64)

def logEvent (t : T) (log : Option (CallLog C)) (l : T × Event C A) : Option (CallLog C) :=
  if l.1 = t then
    match l.2 with
    | .call chan dir data _ => some ⟨chan, dir, data, []⟩
    | .added c v => log.map fun log => { log with moved := log.moved ++ [(c, .send, v)] }
    | .removed c v => log.map fun log => { log with moved := log.moved ++ [(c, .recv, v)] }
    | _ => log
  else log

/-- The last call of the thread in a run. -/
def openCall (t : T) (ls : List (T × Event C A)) : Option (CallLog C) :=
  ls.foldl (logEvent t) none

theorem openCall_snoc (t : T) (ls : List (T × Event C A)) (l : T × Event C A) :
    openCall t (ls ++ [l]) = logEvent t (openCall t ls) l := by
  rw [openCall, List.foldl_append]
  rfl

def OpPc.moved : OpPc A → Bool
  | .unlock | .postOther | .listLock | .notify _ | .done .success => true
  | _ => false

theorem moved_done (status : Status) :
    (OpPc.done status : OpPc A).moved = true ↔ status = .success := by
  cases status <;> simp [OpPc.moved]

/-- A receive that has removed the value `v`. -/
def View.received (v : UInt64) : View A → Bool
  | .op .recv _ data pc => pc.moved && decide (data = v)
  | _ => false

variable {c : C} {σ σ' : Single T A} {l : T × Event C A} {cap : Nat}

theorem addedTo_of_elsewhere {e : Event C A} (he : e.Elsewhere c) : e.addedTo c = none := by
  cases e with
  | added c' v => exact if_neg he
  | _ => rfl

theorem removedFrom_of_elsewhere {e : Event C A} (he : e.Elsewhere c) :
    e.removedFrom c = none := by
  cases e with
  | removed c' v => exact if_neg he
  | _ => rfl

theorem deliveredFrom_of_elsewhere {e : Event C A} (he : e.Elsewhere c) :
    e.deliveredFrom c = none := by
  cases e with
  | ret chan dir status data =>
    have hne : chan ≠ some c := he
    cases chan with
    | none => rfl
    | some c' =>
      have hc : c' ≠ c := fun h => hne (congrArg some h)
      cases dir with
      | send => rfl
      | recv => cases status <;> first | rfl | exact if_neg hc
  | _ => rfl

/-- What a step adds comes to the end of the buffer, and what it removes was in front. -/
theorem fifo_step (hstep : Single.Step c σ l σ') (h : Clean cap σ) :
    σ.chan.buffer.contents ++ addedTo c [l] = removedFrom c [l] ++ σ'.chan.buffer.contents := by
  have hquiet : ∀ {ch : Chan T A}, l.2.addedTo c = none → l.2.removedFrom c = none →
      ch.buffer = σ.chan.buffer →
      σ.chan.buffer.contents ++ addedTo c [l] = removedFrom c [l] ++ ch.buffer.contents := by
    intro ch ha hr hb
    rw [addedTo, removedFrom, List.filterMap_cons, List.filterMap_cons, ha, hr, hb]
    simp
  cases hstep with
  | @op t dir blocking data pc r hview hr =>
    have hbody : pc = .body → σ.chan.closed = false →
        σ.chan.buffer.contents ++ addedTo c [(t, r.event)] =
          removedFrom c [(t, r.event)] ++ r.chan.buffer.contents := by
      rintro rfl hopen
      cases body_move h.wf hopen hr with
      | added _ _ _ _ _ hcontents =>
        simp [addedTo, removedFrom, Event.addedTo, Event.removedFrom, hcontents]
      | removed _ _ _ _ hcontents =>
        simp [addedTo, removedFrom, Event.addedTo, Event.removedFrom, hcontents]
      | lost _ _ _ _ hcontents => exact (h.not_lost hcontents).elim
      | full => exact hquiet rfl rfl rfl
      | empty => exact hquiet rfl rfl rfl
    cases channelOp_move hr with
    | added hopen => exact hbody rfl hopen
    | addFailed hopen => exact hbody rfl hopen
    | removed hopen => exact hbody rfl hopen
    | removeFailed hopen => exact hbody rfl hopen
    | _ => exact hquiet rfl rfl rfl
  | close hview hr =>
    cases channelClose_move hr with
    | _ => exact hquiet rfl rfl rfl
  | elsewhere _ he hch =>
    exact hquiet (addedTo_of_elsewhere he) (removedFrom_of_elsewhere he) hch.buffer
  | _ => exact hquiet rfl rfl rfl

/-- The log of a thread that is in a call on `c`: nothing yet, or what it is about to
return `SUCCESS` for.  Only a receive that removed a value has written `*data`. -/
def LogFits (c : C) (log : Option (CallLog C)) : View A → Prop
  | .op dir _ data pc => ∃ data₀,
    log = some ⟨some c, dir, data₀, if pc.moved = true then [(c, dir, data)] else []⟩ ∧
      (dir = .send ∨ pc.moved = false → data = data₀)
  | _ => True

/-- What a step shows is what it adds to the log of its call, and only a receive that
removes a value writes `*data`. -/
theorem op_moved {t : T} {dir : Dir} {blocking : Bool} {data : UInt64} {pc : OpPc A}
    {r : OpStep T C A} (h : Clean cap σ)
    (hr : channelOp t c dir blocking σ.chan data pc = some r) :
    (if r.pc.moved = true then [(c, dir, r.data)] else []) =
        (if pc.moved = true then [(c, dir, data)] else []) ++ r.event.moved ∧
      (pc.moved = true ∨ dir = .send ∨ r.pc.moved = false → r.data = data) := by
  have hbody : pc = .body → σ.chan.closed = false →
      (if r.pc.moved = true then [(c, dir, r.data)] else []) =
          (if pc.moved = true then [(c, dir, data)] else []) ++ r.event.moved ∧
        (pc.moved = true ∨ dir = .send ∨ r.pc.moved = false → r.data = data) := by
    rintro rfl hopen
    cases body_move h.wf hopen hr with
    | added hd =>
      subst hd
      exact ⟨rfl, fun _ => rfl⟩
    | full => exact ⟨rfl, fun _ => rfl⟩
    | removed hd =>
      subst hd
      exact ⟨rfl, by simp [OpPc.moved]⟩
    | lost _ _ _ _ hcontents => exact (h.not_lost hcontents).elim
    | empty => exact ⟨rfl, fun _ => rfl⟩
  cases channelOp_move hr with
  | added hopen => exact hbody rfl hopen
  | addFailed hopen => exact hbody rfl hopen
  | removed hopen => exact hbody rfl hopen
  | removeFailed hopen => exact hbody rfl hopen
  | _ => exact ⟨rfl, fun _ => rfl⟩

theorem logEvent_op {t : T} {dir : Dir} {blocking : Bool} {ch : Chan T A} {data : UInt64}
    {pc : OpPc A} {r : OpStep T C A} (log : CallLog C)
    (hr : channelOp t c dir blocking ch data pc = some r) :
    logEvent t (some log) (t, r.event) =
      some { log with moved := log.moved ++ r.event.moved } := by
  rw [logEvent, if_pos rfl]
  rcases channelOp_event hr with he | ⟨v, he⟩ | ⟨v, he⟩ <;> rw [he]
  · simp [Event.moved]
  · rfl
  · rfl

theorem log_step (logs : T → Option (CallLog C)) (hstep : Single.Step c σ l σ') (h : Clean cap σ)
    (hlogs : ∀ t, LogFits c (logs t) (σ.views t)) :
    ∀ t, LogFits c (logEvent t (logs t) l) (σ'.views t) := by
  -- Only the thread that moves has another view and another log.
  have hmove : ∀ {u : T} {e : Event C A} {v : View A}, LogFits c (logEvent u (logs u) (u, e)) v →
      ∀ t, LogFits c (logEvent t (logs t) (u, e)) (Function.update σ.views u v t) := by
    intro u e v hv t
    by_cases htu : t = u
    · rw [htu, Function.update_self]
      exact hv
    · rw [Function.update_of_ne htu, logEvent, if_neg (Ne.symm htu)]
      exact hlogs t
  cases hstep with
  | @call t dir blocking data hview =>
    refine hmove ⟨data, ?_, fun _ => rfl⟩
    rw [logEvent, if_pos rfl]
    rfl
  | @op t dir blocking data pc r hview hr =>
    have hlog := hlogs t
    rw [hview] at hlog
    obtain ⟨data₀, hlog, hdata⟩ := hlog
    obtain ⟨hmoved, hwrite⟩ := op_moved h hr
    refine hmove ⟨data₀, ?_, fun hd => ?_⟩
    · rw [hlog, logEvent_op _ hr, hmoved]
    · rw [hwrite (Or.inr hd)]
      refine hdata (hd.imp_right (fun hno => ?_))
      -- What was moved stays so.
      refine Bool.eq_false_iff.mpr (fun hm => ?_)
      rw [hno, hm] at hmoved
      cases hmoved
  | ret => exact hmove trivial
  | callClose => exact hmove trivial
  | close => exact hmove trivial
  | retClose => exact hmove trivial
  | @elsewhere u e ch hview he hch =>
    intro t
    by_cases htu : t = u
    · rw [htu]
      show LogFits c _ (σ.views u)
      rw [hview]
      trivial
    · rw [logEvent, if_neg (Ne.symm htu)]
      exact hlogs t

variable [Fintype T]

/-- A value removed is on its way to one receiver until that one returns. -/
theorem delivered_step (v : UInt64) (hstep : Single.Step c σ l σ') (h : Clean cap σ) :
    (deliveredFrom c [l]).count v + count (View.received v) σ'.views =
      count (View.received v) σ.views + (removedFrom c [l]).count v := by
  have hquiet : ∀ {u : T} {x : View A}, l.2.deliveredFrom c = none → l.2.removedFrom c = none →
      x.received v = (σ.views u).received v →
      (deliveredFrom c [l]).count v + count (View.received v) (Function.update σ.views u x) =
        count (View.received v) σ.views + (removedFrom c [l]).count v := by
    intro u x hd hr hx
    have hcount := count_update (View.received v) σ.views u x
    rw [hx] at hcount
    rw [deliveredFrom, removedFrom, List.filterMap_cons, List.filterMap_cons, hd, hr]
    simp only [List.filterMap_nil, List.count_nil]
    omega
  cases hstep with
  | call _ _ _ hview => exact hquiet rfl rfl (by rw [hview]; cases ‹Dir› <;> rfl)
  | @op t dir blocking data pc r hview hr =>
    have hbody : pc = .body → σ.chan.closed = false →
        (deliveredFrom c [(t, r.event)]).count v +
          count (View.received v) (Function.update σ.views t (.op dir blocking r.data r.pc)) =
        count (View.received v) σ.views + (removedFrom c [(t, r.event)]).count v := by
      rintro rfl hopen
      cases body_move h.wf hopen hr with
      | added hd =>
        subst hd
        exact hquiet rfl rfl (by rw [hview]; rfl)
      | @removed b w hd =>
        subst hd
        have hcount := count_update (View.received v) σ.views t (.op .recv blocking w .unlock)
        rw [hview] at hcount
        simp only [deliveredFrom, removedFrom, List.filterMap_cons, List.filterMap_nil,
          Event.deliveredFrom, Event.removedFrom, List.count_nil, if_true, List.count_singleton]
        simp only [View.received, OpPc.moved, Bool.false_and, Bool.true_and, Bool.toNat_false]
          at hcount
        by_cases hwv : w = v <;> simp [hwv] at hcount ⊢ <;> omega
      | lost _ _ _ _ hcontents => exact (h.not_lost hcontents).elim
      | full hd => exact hquiet rfl rfl (by rw [hview, hd]; rfl)
      | empty hd => exact hquiet rfl rfl (by rw [hview, hd]; rfl)
    cases channelOp_move hr with
    | added hopen => exact hbody rfl hopen
    | addFailed hopen => exact hbody rfl hopen
    | removed hopen => exact hbody rfl hopen
    | removeFailed hopen => exact hbody rfl hopen
    | _ => exact hquiet rfl rfl (by rw [hview]; cases dir <;> rfl)
  | @ret t dir blocking data status hview =>
    have hcount := count_update (View.received v) σ.views t .away
    rw [hview] at hcount
    cases dir with
    | send => exact hquiet rfl rfl (by rw [hview]; rfl)
    | recv =>
      cases status with
      | success =>
        simp only [deliveredFrom, removedFrom, List.filterMap_cons, List.filterMap_nil,
          Event.deliveredFrom, Event.removedFrom, List.count_nil, if_true, List.count_singleton]
        simp only [View.received, OpPc.moved, Bool.true_and, Bool.toNat_false] at hcount
        by_cases hdv : data = v <;> simp [hdv] at hcount ⊢ <;> omega
      | _ => exact hquiet rfl rfl (by rw [hview]; rfl)
  | callClose hview => exact hquiet rfl rfl (by rw [hview]; rfl)
  | close hview => exact hquiet rfl rfl (by rw [hview]; rfl)
  | retClose hview => exact hquiet rfl rfl (by rw [hview]; rfl)
  | @elsewhere u e ch hview he hch =>
    have hd : e.deliveredFrom c = none := deliveredFrom_of_elsewhere he
    have h := hquiet (u := u) (x := σ.views u) hd (removedFrom_of_elsewhere he) rfl
    rw [Function.update_eq_self] at h
    exact h

section System

variable {capacity : C → Nat} {st₀ st : State T C A} {ls : List (T × Event C A)}

structure History (c : C) (cap : Nat) (ls : List (T × Event C A)) (σ : Single T A) : Prop where
  sound : Sound cap σ
  fifo : removedFrom c ls ++ σ.chan.buffer.contents = addedTo c ls
  logs : ∀ t, LogFits c (openCall t ls) (σ.views t)
  delivered : ∀ v, (deliveredFrom c ls).count v + count (View.received v) σ.views =
    (removedFrom c ls).count v

theorem history_step (hmax : cap ≤ semValueMax) (hstep : Single.Step c σ l σ') (hl : l.2.Proper)
    (h : History c cap ls σ) : History c cap (ls ++ [l]) σ' where
  sound := sound_step hmax hstep hl h.sound
  fifo := by
    have hsplit : ∀ (f : Event C A → Option UInt64), (ls ++ [l]).filterMap (fun l => f l.2) =
        ls.filterMap (fun l => f l.2) ++ [l].filterMap (fun l => f l.2) :=
      fun f => List.filterMap_append
    calc removedFrom c (ls ++ [l]) ++ σ'.chan.buffer.contents
        = removedFrom c ls ++ (removedFrom c [l] ++ σ'.chan.buffer.contents) := by
          rw [removedFrom, hsplit, List.append_assoc]
          rfl
      _ = removedFrom c ls ++ (σ.chan.buffer.contents ++ addedTo c [l]) := by
          rw [fifo_step hstep h.sound.clean]
      _ = addedTo c ls ++ addedTo c [l] := by rw [← List.append_assoc, h.fifo]
      _ = addedTo c (ls ++ [l]) := (hsplit (Event.addedTo c)).symm
  logs := by
    intro t
    rw [openCall_snoc]
    exact log_step (fun t => openCall t ls) hstep h.sound.clean h.logs t
  delivered := by
    intro v
    have hstep' := delivered_step v hstep h.sound.clean
    have hold := h.delivered v
    have hd : (deliveredFrom c (ls ++ [l])).count v =
        (deliveredFrom c ls).count v + (deliveredFrom c [l]).count v := by
      rw [deliveredFrom, List.filterMap_append, List.count_append]
      rfl
    have hr : (removedFrom c (ls ++ [l])).count v =
        (removedFrom c ls).count v + (removedFrom c [l]).count v := by
      rw [removedFrom, List.filterMap_append, List.count_append]
      rfl
    omega

theorem history_of_run (h₀ : Initial capacity st₀) (hrun : Transition.Run Step st₀ ls st)
    (hproper : ∀ l ∈ ls, l.2.Proper) (hpos : 1 ≤ capacity c) (hmax : capacity c ≤ semValueMax) :
    History c (capacity c) ls (st.single c) := by
  obtain ⟨data, garbage, hchan, hviews⟩ := h₀.single c
  have hstart : History c (capacity c) [] (st₀.single c) := by
    refine ⟨sound_of_run h₀ (.nil st₀) nofun hpos hmax, ?_, ?_, ?_⟩
    · rw [hchan]
      rfl
    · intro t
      rw [hviews t]
      trivial
    · intro v
      rw [count_away rfl hviews]
      rfl
  exact (Run.single hrun c).guarded_history (History c (capacity c)) hproper hstart
    (fun _ _ _ _ h hl hst => history_step hmax hst hl h)

/-- One channel is a queue: what was removed and then what is in the buffer is what was
added, in the order of the critical sections.  A call that returns `SUCCESS` moved its
one value, any other moved nothing and left `*data`; and no value is delivered more
often than it was added. -/
theorem channel_fifo (h₀ : Initial capacity st₀) (hrun : Transition.Run Step st₀ ls st)
    (hproper : ∀ l ∈ ls, l.2.Proper) (hpos : 1 ≤ capacity c) (hmax : capacity c ≤ semValueMax) :
    removedFrom c ls ++ (st.chans c).buffer.contents = addedTo c ls ∧
    (st.chans c).buffer.size ≤ (st.chans c).buffer.capacity ∧
    (∀ v, (deliveredFrom c ls).count v ≤ (removedFrom c ls).count v) ∧
    (∀ t status data st', Step st (t, .ret (some c) .send status data) st' →
      openCall t ls = some ⟨some c, .send, data,
        if status = .success then [(c, .send, data)] else []⟩) ∧
    (∀ t status data st', Step st (t, .ret (some c) .recv status data) st' →
      ∃ data₀, openCall t ls = some ⟨some c, .recv, data₀,
        if status = .success then [(c, .recv, data)] else []⟩ ∧
        (status ≠ .success → data = data₀)) := by
  have h := history_of_run h₀ hrun hproper hpos hmax
  refine ⟨h.fifo, h.sound.wf.size_le, ?_, ?_, ?_⟩
  · intro v
    have := h.delivered v
    omega
  · intro t status data st' hstep
    obtain ⟨blocking, hview⟩ := (hstep.single c).ret_view
    have hlog := h.logs t
    rw [hview] at hlog
    obtain ⟨data₀, hlog, hdata⟩ := hlog
    rw [← hdata (Or.inl rfl)] at hlog
    simp only [moved_done] at hlog
    exact hlog
  · intro t status data st' hstep
    obtain ⟨blocking, hview⟩ := (hstep.single c).ret_view
    have hlog := h.logs t
    rw [hview] at hlog
    obtain ⟨data₀, hlog, hdata⟩ := hlog
    simp only [moved_done] at hlog
    refine ⟨data₀, hlog, fun hno => hdata (Or.inr ?_)⟩
    exact Bool.eq_false_iff.mpr (fun hm => hno ((moved_done status).mp hm))

/-- A message on its way through `pair`. -/
theorem channel_fifo_sender :
    ∃ ls st, Transition.Run Step pair ls st ∧ addedTo () ls = [7] ∧
      removedFrom () ls ++ (st.chans ()).buffer.contents = [7] := by
  have hcall := (Transition.Run.nil pair).snoc (Step.call (t := true) (some ()) .send 7 true rfl)
  have htake := hcall.snoc (Step.run (t := true) true rfl)
  have hlock := htake.snoc (Step.run (t := true) true rfl)
  have hbody := hlock.snoc (Step.run (t := true) true rfl)
  have hproper : ∀ l ∈ [(true, (.call (some ()) .send 7 true : Event Unit Unit)),
      (true, .internal), (true, .internal), (true, .added () 7)], l.2.Proper := by
    intro l hl
    simp only [List.mem_cons, List.not_mem_nil, or_false] at hl
    rcases hl with rfl | rfl | rfl | rfl
    · exact (by decide : (7 : UInt64) ≠ bufferEmpty)
    · trivial
    · trivial
    · trivial
  have h := channel_fifo (c := ()) pair_initial hbody hproper (by decide) (by decide)
  exact ⟨_, _, hbody, rfl, h.1⟩

end System

end Channels
end Cmpsc473
