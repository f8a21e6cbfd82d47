import Cmpsc473.Channels.Closing

/-!
# A closed channel

Once a channel is closed its buffer is frozen, every call that starts on it is
turned away, and every further close finds that it came too late.  Nothing here
depends on the messages, on the capacity or on the permits.
-/

set_option linter.unusedSectionVars false

namespace Cmpsc473
namespace Channels

open Census

variable {T C A : Type}

def OpPc.turnedAway : OpPc A → Bool
  | .take | .lock | .body | .closedUnlock | .closedPost => true
  | .fullLock | .fullCheck | .fullPost | .done .closedError => true
  | .fullUnlock closed => closed
  | _ => false

/-- A call that has not got past a check of `closed`. -/
def View.turnedAway : View A → Bool
  | .op _ _ _ pc => pc.turnedAway
  | _ => false

def ClosePc.late : ClosePc A → Bool
  | .lock | .body | .errUnlock | .done .closedError => true
  | _ => false

def ClosePc.won : ClosePc A → Bool
  | .post _ | .unlock | .listLock _ | .notify .. | .done .success => true
  | _ => false

/-- The close that closed the channel, until it returns. -/
def View.won : View A → Bool
  | .close pc => pc.won
  | _ => false

/-- A close that is to return something else than `SUCCESS` and `CLOSED_ERROR`. -/
def View.closeFails : View A → Bool
  | .close pc => !pc.late && !pc.won
  | _ => false

variable [DecidableEq T] [DecidableEq C] [DecidableEq A] {c : C} {σ σ' : Single T A}
  {l : T × Event C A} {t u : T} {e : Event C A}

def Event.closes (c : C) : Event C A → Bool
  | .retClose (some c') .success => decide (c' = c)
  | _ => false

/-- The number of closes of the channel that returned `SUCCESS`. -/
def closes (c : C) (ls : List (T × Event C A)) : Nat := ls.countP fun l => l.2.closes c

/-- A closed channel stays closed, with the same buffer. -/
theorem frozen_step (hstep : Single.Step c σ l σ') (hc : σ.chan.closed = true) :
    σ'.chan.closed = true ∧ σ'.chan.buffer = σ.chan.buffer := by
  refine ⟨(sawClosed_step hstep (fun _ _ => hc)).1 hc, ?_⟩
  have hopen : σ.chan.closed ≠ false := by
    rw [hc]
    exact nofun
  cases hstep with
  | op _ hr =>
    cases channelOp_move hr with
    | added ho => exact absurd ho hopen
    | addFailed ho => exact absurd ho hopen
    | removed ho => exact absurd ho hopen
    | removeFailed ho => exact absurd ho hopen
    | _ => rfl
  | close _ hr => cases channelClose_move hr <;> rfl
  | elsewhere _ _ hch => exact hch.buffer
  | _ => rfl

/-- Every check of a closed channel turns the call away. -/
theorem turnedAway_step (hstep : Single.Step c σ (u, e) σ') (hc : σ.chan.closed = true)
    (hno : u = t → e.returns = false) (ht : (σ.views t).turnedAway = true) :
    (σ'.views t).turnedAway = true := by
  by_cases hut : t = u
  · subst hut
    cases hview : σ.views t with
    | op dir blocking data pc =>
      obtain ⟨r, hr, -, rfl⟩ := hstep.op_step (hno rfl) hview
      rw [hview] at ht
      show (Function.update σ.views t _ t).turnedAway = true
      rw [Function.update_self]
      cases channelOp_move hr with
      | fullCheck => exact hc
      | fullOpen => cases ht
      | added ho => exact absurd (hc.symm.trans ho) nofun
      | addFailed ho => exact absurd (hc.symm.trans ho) nofun
      | removed ho => exact absurd (hc.symm.trans ho) nofun
      | removeFailed ho => exact absurd (hc.symm.trans ho) nofun
      | errUnlock => cases ht
      | unlock => cases ht
      | postOther => cases ht
      | listLock => cases ht
      | notifyEnd => cases ht
      | notify => cases ht
      | _ => rfl
    | _ =>
      rw [hview] at ht
      cases ht
  · rw [hstep.view_of_ne hut]
    exact ht

/-- A close stays a close until it returns, and one that got past its check of
`closed` does not come to `CLOSED_ERROR`. -/
theorem close_step_late (hstep : Single.Step c σ (u, e) σ') (hno : u = t → e.returns = false)
    {pc : ClosePc A} (ht : σ.views t = .close pc) :
    ∃ pc', σ'.views t = .close pc' ∧ (pc'.late = true → pc.late = true) := by
  by_cases hut : t = u
  · subst hut
    obtain ⟨r, hr, rfl⟩ := hstep.close_step (hno rfl) ht
    refine ⟨r.pc, Function.update_self _ _ _, ?_⟩
    cases channelClose_move hr with
    | lock => exact id
    | already => exact id
    | errUnlock => exact id
    | close => exact nofun
    | _ => exact id
  · exact ⟨pc, (hstep.view_of_ne hut).trans ht, id⟩

theorem closeFails_step (hstep : Single.Step c σ l σ') (h : ∀ t, (σ.views t).closeFails = false) :
    ∀ t, (σ'.views t).closeFails = false := by
  have hmove : ∀ {t : T} {v : View A}, v.closeFails = false →
      ∀ u, (Function.update σ.views t v u).closeFails = false :=
    fun hv => (Function.forall_update_iff σ.views fun _ w => w.closeFails = false).mpr
      ⟨hv, fun u _ => h u⟩
  cases hstep with
  | close _ hr => cases channelClose_move hr <;> exact hmove rfl
  | elsewhere => exact h
  | _ => exact hmove rfl

omit [DecidableEq A] in
theorem closes_of_elsewhere {e : Event C A} (he : e.Elsewhere c) : e.closes c = false := by
  cases e with
  | retClose chan status =>
    have hne : chan ≠ some c := he
    cases chan with
    | none => rfl
    | some c' =>
      cases status with
      | success => exact decide_eq_false (fun hcc => hne (congrArg some hcc))
      | _ => rfl
  | _ => rfl

section Winner

variable [Fintype T]

/-- One close has won, or has returned, if the channel is closed, and none before. -/
def OneWinner (c : C) (ls : List (T × Event C A)) (σ : Single T A) : Prop :=
  closes c ls + count View.won σ.views = σ.chan.closed.toNat

theorem oneWinner_step {ls : List (T × Event C A)} (hstep : Single.Step c σ l σ')
    (h : OneWinner c ls σ) : OneWinner c (ls ++ [l]) σ' := by
  unfold OneWinner at h ⊢
  have hls : closes c (ls ++ [l]) = closes c ls + (l.2.closes c).toNat := by
    rw [closes, List.countP_append, List.countP_singleton]
    cases l.2.closes c <;> rfl
  have hmove : ∀ {t : T} {v : View A} {ch : Chan T A}, ch.closed = σ.chan.closed →
      (l.2.closes c).toNat + v.won.toNat = (σ.views t).won.toNat →
      closes c (ls ++ [l]) + count View.won (Function.update σ.views t v) = ch.closed.toNat := by
    intro t v ch hclosed hv
    have hcount := count_update View.won σ.views t v
    rw [hls, hclosed]
    omega
  cases hstep with
  | call _ _ _ hview => exact hmove rfl (by rw [hview]; rfl)
  | @op t dir blocking data pc r hview hr =>
    have hevent : r.event.closes c = false := by
      rcases channelOp_event hr with he | ⟨v, he⟩ | ⟨v, he⟩ <;> rw [he] <;> rfl
    have hclosed : r.chan.closed = σ.chan.closed := by cases channelOp_move hr <;> rfl
    exact hmove hclosed (by rw [hview, hevent]; rfl)
  | ret hview => exact hmove rfl (by rw [hview]; rfl)
  | callClose hview => exact hmove rfl (by rw [hview]; rfl)
  | @close t pc r hview hr =>
    cases channelClose_move hr with
    | close hopen =>
      have hcount := count_update View.won σ.views t (.close (.post .send))
      rw [hview] at hcount
      have hzero : (View.close .body : View A).won.toNat = 0 := rfl
      have hone : (View.close (.post .send) : View A).won.toNat = 1 := rfl
      rw [hzero, hone] at hcount
      rw [hopen, Bool.toNat_false] at h
      have hevent : (((t, Event.internal) : T × Event C A).2.closes c).toNat = 0 := rfl
      rw [hls, hevent]
      show closes c ls + 0 + count View.won (Function.update σ.views t (.close (.post .send))) = 1
      omega
    | _ => exact hmove rfl (by rw [hview]; rfl)
  | @retClose t status hview =>
    refine hmove rfl ?_
    rw [hview]
    cases status with
    | success => simp [Event.closes, View.won, ClosePc.won]
    | _ => rfl
  | @elsewhere t e ch hview he hch =>
    rw [hls, closes_of_elsewhere he, hch.closed]
    exact h

end Winner

section System

variable {capacity : C → Nat} {st₀ st st' s s' : State T C A} {ls : List (T × Event C A)}

/-- Closed for good, with the buffer `b`. -/
def FrozenAt (b : Buffer) (σ : Single T A) : Prop := σ.chan.closed = true ∧ σ.chan.buffer = b

theorem frozen_of_run (hrun : Transition.Run Step st ls st') (hc : (st.chans c).closed = true) :
    FrozenAt (st.chans c).buffer (st'.single c) := by
  refine (Run.single hrun c).invariant ⟨hc, rfl⟩ (fun σ l σ' h hst => ?_)
  obtain ⟨hclosed, hbuffer⟩ := frozen_step hst h.1
  exact ⟨hclosed, hbuffer.trans h.2⟩

/-- A step of `t` that changes nothing but the mutex of the channel `c`. -/
structure OnlyMutex (t : T) (c : C) (s s' : State T C A) : Prop where
  chans : ∃ m, s'.chans = Function.update s.chans c { s.chans c with mutex := m }
  threads : ∀ u, u ≠ t → s'.threads u = s.threads u
  locals : s'.locals = s.locals

theorem onlyMutex_step {pc pc' : ClosePc A} (hstep : Step s (t, e) s')
    (hno : e.returns = false) (hview : (s.threads t).view c = .close pc)
    (hview' : (s'.threads t).view c = .close pc') (hlate : pc'.late = true) :
    OnlyMutex t c s s' := by
  have ht := view_eq_close hview
  have hothers : ∀ u, u ≠ t → s'.threads u = s.threads u := fun u hu => hstep.move.threads_of_ne hu
  cases hstep.move with
  | @close c' pc'' r ht' hr =>
    cases ht.symm.trans ht'
    have hpc : r.pc = pc' := by
      rw [State.threads_setThread_self] at hview'
      exact View.close.inj ((viewIf_self c (.close r.pc)).symm.trans hview')
    rw [← hpc] at hlate
    cases channelClose_move hr with
    | lock => exact ⟨⟨_, rfl⟩, hothers, rfl⟩
    | already => exact ⟨⟨(s.chans c).mutex, rfl⟩, hothers, rfl⟩
    | errUnlock => exact ⟨⟨_, rfl⟩, hothers, rfl⟩
    | _ => cases hlate
  | retClose => cases hno
  | ret => cases hno
  | call _ _ _ _ ht' => exact absurd (ht.symm.trans ht') nofun
  | op ht' => exact absurd (ht.symm.trans ht') nofun
  | callClose _ ht' => exact absurd (ht.symm.trans ht') nofun
  | callSelect _ _ _ ht' => exact absurd (ht.symm.trans ht') nofun
  | select ht' => exact absurd (ht.symm.trans ht') nofun

/-- No call of the thread returns. -/
def NoReturn (t : T) (ls : List (T × Event C A)) : Prop :=
  ∀ l ∈ ls, l.1 = t → l.2.returns = false

/-- The channel is closed, and the call of the thread is being turned away. -/
def Refused (t : T) (σ : Single T A) : Prop :=
  σ.chan.closed = true ∧ (σ.views t).turnedAway = true

theorem refused_of_run (hrun : Transition.Run Step st ls st') (hno : NoReturn t ls)
    (h : Refused t (st.single c)) : Refused t (st'.single c) :=
  (Run.single hrun c).guarded hno h
    (fun _ _ _ h hl hst => ⟨(frozen_step hst h.1).1, turnedAway_step hst h.1 hl h.2⟩)

/-- The close that was at `pc` goes on, and is late only if it was then. -/
def CloseFrom (t : T) (pc : ClosePc A) (σ : Single T A) : Prop :=
  ∃ pc', σ.views t = .close pc' ∧ (pc'.late = true → pc.late = true)

theorem closeFrom_of_run {pc : ClosePc A} (hrun : Transition.Run Step st ls st')
    (hno : NoReturn t ls) (ht : (st.threads t).view c = .close pc) :
    CloseFrom t pc (st'.single c) := by
  refine (Run.single hrun c).guarded hno ⟨pc, ht, id⟩ ?_
  rintro σ ⟨u, e⟩ σ' ⟨pc', hview, hlate⟩ hl hst
  obtain ⟨pc'', hview', hlate'⟩ := close_step_late hst hl hview
  exact ⟨pc'', hview', fun h => hlate (hlate' h)⟩

/-- A close that returns `CLOSED_ERROR` did nothing but take the mutex and give it back. -/
theorem onlyMutex_of_run {ls₁ ls₂ : List (T × Event C A)}
    (hcall : (st.threads t).view c = .close .lock) (h₁ : Transition.Run Step st ls₁ s)
    (hstep : Step s (t, e) s') (h₂ : Transition.Run Step s' ls₂ st') (hno₁ : NoReturn t ls₁)
    (hno : e.returns = false) (hno₂ : NoReturn t ls₂)
    (hdone : (st'.threads t).view c = .close (.done .closedError)) : OnlyMutex t c s s' := by
  obtain ⟨pc, hview, -⟩ := closeFrom_of_run h₁ hno₁ hcall
  obtain ⟨pc', hview', -⟩ := close_step_late (hstep.single c) (fun _ => hno) hview
  obtain ⟨pc'', hview'', hlate⟩ := closeFrom_of_run h₂ hno₂ hview'
  obtain rfl := View.close.inj (hview''.symm.trans hdone)
  exact onlyMutex_step hstep hno hview hview' (hlate rfl)

variable [Fintype T]

theorem oneWinner_of_run (h₀ : Initial capacity st₀) (hrun : Transition.Run Step st₀ ls st) :
    OneWinner c ls (st.single c) := by
  obtain ⟨data, garbage, hchan, hviews⟩ := h₀.single c
  refine (Run.single hrun c).history (OneWinner c) ?_ (fun _ _ _ _ h hst => oneWinner_step hst h)
  unfold OneWinner
  rw [hchan, count_away rfl hviews]
  rfl

theorem closeFails_of_run (h₀ : Initial capacity st₀) (hrun : Transition.Run Step st₀ ls st) :
    ∀ t, ((st.threads t).view c).closeFails = false := by
  obtain ⟨data, garbage, hchan, hviews⟩ := h₀.single c
  have h : ∀ t, ((st.single c).views t).closeFails = false := by
    refine (Run.single hrun c).invariant (fun t => ?_) (fun _ _ _ h hst => closeFails_step hst h)
    rw [hviews t]
    rfl
  exact h

/-- A closed channel is frozen: its buffer does not change, a call that takes its first
step then returns `CLOSED_ERROR`, and of all closes one returns `SUCCESS`; the others
return `CLOSED_ERROR` and did nothing. -/
theorem closed_frozen (h₀ : Initial capacity st₀) (hrun : Transition.Run Step st₀ ls st) (c : C) :
    ((st.chans c).closed = true → ∀ ls' st', Transition.Run Step st ls' st' →
      (st'.chans c).closed = true ∧
      (st'.chans c).buffer.contents = (st.chans c).buffer.contents ∧
      ∀ t dir blocking data, (st.threads t).view c = .op dir blocking data .take →
        NoReturn t ls' → ∀ dir' status data' st'',
        Step st' (t, .ret (some c) dir' status data') st'' → status = .closedError) ∧
    closes c ls ≤ 1 ∧
    (∀ t status st', Step st (t, .retClose (some c) status) st' →
      status = .success ∨ status = .closedError) ∧
    (∀ t, (st.threads t).view c = .close .lock →
      ∀ ls₁ s e s' ls₂ st', Transition.Run Step st ls₁ s → Step s (t, e) s' →
        Transition.Run Step s' ls₂ st' → NoReturn t ls₁ → e.returns = false → NoReturn t ls₂ →
        (st'.threads t).view c = .close (.done .closedError) → OnlyMutex t c s s') := by
  refine ⟨fun hc ls' st' hrun' => ⟨?_, ?_, ?_⟩, ?_, ?_, ?_⟩
  · exact (frozen_of_run hrun' hc).1
  · exact congrArg Buffer.contents (frozen_of_run hrun' hc).2
  · intro t dir blocking data hview hno dir' status data' st'' hret
    have hrefused : Refused t (st'.single c) :=
      refused_of_run hrun' hno ⟨hc, (congrArg View.turnedAway hview).trans rfl⟩
    obtain ⟨blocking', hview'⟩ := (hret.single c).ret_view
    have haway := hrefused.2
    rw [hview'] at haway
    cases status with
    | closedError => rfl
    | _ => cases haway
  · have h := oneWinner_of_run (c := c) h₀ hrun
    unfold OneWinner at h
    have hle := Bool.toNat_le (st.single c).chan.closed
    omega
  · intro t status st' hret
    have hfails := closeFails_of_run (c := c) h₀ hrun t
    have hview : (st.threads t).view c = .close (.done status) := (hret.single c).retClose_view
    rw [hview] at hfails
    cases status with
    | success => exact Or.inl rfl
    | closedError => exact Or.inr rfl
    | _ => cases hfails
  · intro t hcall ls₁ s e s' ls₂ st' h₁ hstep h₂ hno₁ hno hno₂ hdone
    exact onlyMutex_of_run hcall h₁ hstep h₂ hno₁ hno hno₂ hdone

/-- A receive on a channel that was closed, by one of two closes. -/
theorem closed_frozen_receive :
    ∃ ls st ls' st' st'', Transition.Run Step pair ls st ∧ (st.chans ()).closed = true ∧
      closes () ls ≤ 1 ∧ Transition.Run Step st ls' st' ∧
      (st'.chans ()).buffer.contents = (st.chans ()).buffer.contents ∧
      Step st' (true, .ret (some ()) .recv .closedError 0) st'' := by
  have hcall := (Transition.Run.nil pair).snoc (Step.callClose (t := false) (some ()) rfl)
  have hlock := hcall.snoc (Step.run (t := false) true rfl)
  have hbody := hlock.snoc (Step.run (t := false) true rfl)
  have hpost := hbody.snoc (Step.run (t := false) true rfl)
  have hpost' := hpost.snoc (Step.run (t := false) true rfl)
  have hunlock := hpost'.snoc (Step.run (t := false) true rfl)
  have hstart := hunlock.snoc (Step.call (t := true) (some ()) .recv 0 true rfl)
  -- The receive: `sem_wait`, the lock, the check of `closed`, and both posts.
  have htake := hstart.here.snoc (Step.run (t := true) true rfl)
  have hlock' := htake.snoc (Step.run (t := true) true rfl)
  have hbody' := hlock'.snoc (Step.run (t := true) true rfl)
  have hunlock' := hbody'.snoc (Step.run (t := true) true rfl)
  have hdone := hunlock'.snoc (Step.run (t := true) true rfl)
  obtain ⟨hfrozen, hone, -⟩ := closed_frozen pair_initial hstart ()
  exact ⟨_, _, _, _, _, hstart, rfl, hone, hdone, (hfrozen rfl _ _ hdone).2.1,
    Step.run (t := true) true rfl⟩

end System

end Channels
end Cmpsc473
