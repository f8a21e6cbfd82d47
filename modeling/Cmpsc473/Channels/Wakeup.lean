import Cmpsc473.Channels.Waiters
import Cmpsc473.Channels.Closing

/-!
# A select does not sleep through a wake-up

A select that found no permit for an entry, and its channel open, may wait as long as
that stays so.  Who posts the permit, or closes the channel, walks the list afterwards
on which the select has its semaphore: until that thread has come to the semaphore it
is about to wake the select up, and from then on the semaphore is posted.
-/

set_option linter.unusedSectionVars false

namespace Cmpsc473
namespace Channels

open Transition (Run)

variable {T C A : Type}

/-- The permit was posted, and the list is still walked over `a`. -/
def OpPc.Waking (a : A) : OpPc A → Prop
  | .listLock => True
  | .notify rest => a ∈ rest
  | _ => False

/-- The channel was closed, and the list of direction `d` is still walked over `a`. -/
def ClosePc.Waking (d : Dir) (a : A) : ClosePc A → Prop
  | .post _ | .unlock => True
  | .listLock dir => dir = .send ∨ d = .recv
  | .notify dir rest => if dir = d then a ∈ rest else dir = .send
  | _ => False

/-- The thread has posted the permit that the entries on the list of direction `d` wait
for, or has closed the channel, and its `list_foreach` over that list has yet to come to
the semaphore `a`. -/
def View.Waking (d : Dir) (a : A) : View A → Prop
  | .op dir _ _ pc => dir = d ∧ pc.Waking a
  | .close pc => pc.Waking d a
  | .away => False

variable [DecidableEq T] [DecidableEq C] [DecidableEq A]

/-- The semaphore was posted, and not waited for since. -/
def State.Woken (st : State T C A) (a : A) : Prop := ∃ v, st.locals a = some (v + 1)

/-- The select of `t` is woken up from its entries on a list, or is about to be. -/
def State.Alerted (st : State T C A) (t : T) (c : C) (d : Dir) (a : A) : Prop :=
  st.Woken a ∨ ∃ u, u ≠ t ∧ ((st.threads u).view c).Waking d a

variable {c : C} {st st' : State T C A}
  {t u : T} {s s' : Select C A} {e : Event C A} {a : A} {d : Dir}

theorem State.postLocal_locals (st : State T C A) (c : C) (ch : Chan T A) (p : Option A) :
    ((st.setChan c ch).postLocal p).locals = (st.postLocal p).locals := by
  cases p <;> rfl

/-- The step of a thread in an operation, by itself or in a select. -/
theorem Step.of_view_op {dir : Dir} {blocking : Bool} {data : UInt64} {pc : OpPc A}
    (h : Step st (t, e) st') (hview : (st.threads t).view c = .op dir blocking data pc)
    (hpc : pc.result = none) :
    ∃ r, channelOp t c dir blocking (st.chans c) data pc = some r ∧
      (st'.threads t).view c = .op dir blocking r.data r.pc ∧
      st'.locals = (st.postLocal r.post).locals := by
  have hbusy : st.threads t ≠ .idle := by
    intro hidle
    rw [hidle] at hview
    cases hview
  cases h with
  | call _ _ _ _ hidle => exact absurd hidle hbusy
  | callClose _ hidle => exact absurd hidle hbusy
  | callSelect _ _ _ hidle => exact absurd hidle hbusy
  | run alloc hnext =>
    rcases view_eq_op hview with ht | ⟨s, i, entry, ht, hat, hentry, hchan, rfl, rfl, rfl⟩
    · simp only [next, ht, hpc, callOp_eq, Option.map_eq_some_iff] at hnext
      obtain ⟨r, hr, heq⟩ := hnext
      cases heq
      refine ⟨r, hr, ?_, State.postLocal_locals st c r.chan r.post⟩
      rw [State.threads_setThread_self]
      exact viewIf_self c _
    · simp only [next, ht, channelSelect, hat, hentry, hpc, hchan, callOp_eq,
        Option.map_eq_some_iff] at hnext
      obtain ⟨r, hr, heq⟩ := hnext
      cases heq
      refine ⟨r, hr, ?_, State.postLocal_locals st c r.chan r.post⟩
      have hset := List.getElem?_set_self (a := (⟨some c, entry.isSend, r.data⟩ : Entry C))
        (List.getElem?_eq_some_iff.mp hentry).1
      rw [State.threads_setThread_self, view_attempt rfl hset]
      exact viewIf_self c _

theorem Step.of_view_close {pc : ClosePc A} (h : Step st (t, e) st')
    (hview : (st.threads t).view c = .close pc) (hpc : pc.result = none) :
    ∃ r, channelClose t (st.chans c) pc = some r ∧ (st'.threads t).view c = .close r.pc ∧
      st'.locals = (st.postLocal r.post).locals := by
  have ht := view_eq_close hview
  cases h with
  | call _ _ _ _ hidle => exact absurd (ht.symm.trans hidle) nofun
  | callClose _ hidle => exact absurd (ht.symm.trans hidle) nofun
  | callSelect _ _ _ hidle => exact absurd (ht.symm.trans hidle) nofun
  | run alloc hnext =>
    simp only [next, ht, hpc, Option.map_eq_some_iff] at hnext
    obtain ⟨r, hr, heq⟩ := hnext
    cases heq
    refine ⟨r, hr, ?_, State.postLocal_locals st c r.chan r.post⟩
    rw [State.threads_setThread_self]
    exact viewIf_self c _

/-- A post of the semaphore of a running select wakes it up. -/
theorem State.woken_postLocal (hlive : (st.locals a).isSome = true)
    (hlocals : st'.locals = (st.postLocal (some a)).locals) : st'.Woken a := by
  obtain ⟨v, hv⟩ := Option.isSome_iff_exists.mp hlive
  refine ⟨semPost v - 1, ?_⟩
  have hpost : (st.postLocal (some a)).locals a = (st.locals a).map semPost :=
    Function.update_self a _ _
  have hpos := one_le_semPost v
  rw [hlocals, hpost, hv, Option.map_some, Nat.sub_add_cancel hpos]

/-- A walk over a list that holds `a` comes to `a`. -/
theorem OpPc.Waking.step {self : T} {dir : Dir} {blocking : Bool} {ch : Chan T A} {data : UInt64}
    {pc : OpPc A} {r : OpStep T C A} (hmove : OpMove self c dir blocking ch data pc r)
    (hmem : a ∈ ch.list dir) (h : pc.Waking a) : r.post = some a ∨ r.pc.Waking a := by
  cases hmove with
  | listLock => exact Or.inr hmem
  | notify =>
    rcases List.mem_cons.mp h with rfl | hrest
    · exact Or.inl rfl
    · exact Or.inr hrest
  | _ => cases h

theorem ClosePc.Waking.step {self : T} {ch : Chan T A} {pc : ClosePc A} {r : CloseStep T A}
    (hmove : CloseMove self ch pc r) (hmem : a ∈ ch.list d) (h : pc.Waking d a) :
    r.post = some a ∨ r.pc.Waking d a := by
  cases hmove with
  | postAvailable => exact Or.inr trivial
  | postUsed => exact Or.inr trivial
  | unlock => exact Or.inr (Or.inl rfl)
  | @listLock dir =>
    refine Or.inr ?_
    show if dir = d then a ∈ ch.list dir else dir = .send
    by_cases hdir : dir = d
    · rw [if_pos hdir, hdir]
      exact hmem
    · rw [if_neg hdir]
      -- The list of direction `send` is walked first.
      rcases h with rfl | rfl
      · rfl
      · cases dir
        · rfl
        · exact absurd rfl hdir
  | @notify dir b rest =>
    have h : if dir = d then a ∈ b :: rest else dir = .send := h
    show some b = some a ∨ if dir = d then a ∈ rest else dir = .send
    by_cases hdir : dir = d
    · rw [if_pos hdir] at h ⊢
      rcases List.mem_cons.mp h with rfl | hrest
      · exact Or.inl rfl
      · exact Or.inr hrest
    · rw [if_neg hdir] at h ⊢
      exact Or.inr h
  | notifyNext =>
    have h : if Dir.send = d then a ∈ ([] : List A) else Dir.send = .send := h
    refine Or.inr (Or.inr ?_)
    cases d with
    | send => cases h
    | recv => rfl
  | notifyEnd =>
    have h : if Dir.recv = d then a ∈ ([] : List A) else Dir.recv = .send := h
    cases d with
    | send => cases h
    | recv => cases h
  | _ => cases h

/-- A thread that is about to wake a select up does so, or still is. -/
theorem waking_step (hstep : Step st (u, e) st') (hmem : a ∈ (st.chans c).list d)
    (hlive : (st.locals a).isSome = true) (h : ((st.threads u).view c).Waking d a) :
    st'.Woken a ∨ ((st'.threads u).view c).Waking d a := by
  have hwoken : ∀ {p : Option A}, st'.locals = (st.postLocal p).locals → p = some a →
      st'.Woken a := by
    rintro p hlocals rfl
    exact State.woken_postLocal hlive hlocals
  cases hview : (st.threads u).view c with
  | away =>
    rw [hview] at h
    cases h
  | op dir blocking data pc =>
    rw [hview] at h
    obtain ⟨rfl, h⟩ := h
    have hpc : pc.result = none := by
      cases pc with
      | done => cases h
      | _ => rfl
    obtain ⟨r, hr, hview', hlocals⟩ := hstep.of_view_op hview hpc
    rw [hview']
    exact (h.step (channelOp_move hr) hmem).imp (hwoken hlocals) (fun h => ⟨rfl, h⟩)
  | close pc =>
    rw [hview] at h
    have h : pc.Waking d a := h
    have hpc : pc.result = none := by
      cases pc with
      | done => cases h
      | _ => rfl
    obtain ⟨r, hr, hview', hlocals⟩ := hstep.of_view_close hview hpc
    rw [hview']
    exact (h.step (channelClose_move hr) hmem).imp (hwoken hlocals) id

/-- The semaphore of a select is waited for by no other thread. -/
theorem woken_step (hstep : Step st (u, e) st') (hne : ∀ s, st.threads u = .select s → s.addr ≠ a)
    (h : st.Woken a) : st'.Woken a := by
  obtain ⟨v, hv⟩ := h
  have hpost : ∀ (p : Option A) (locals : A → Option Nat), locals = (st.postLocal p).locals →
      ∃ w, locals a = some (w + 1) := by
    intro p locals hlocals
    subst hlocals
    cases p with
    | none => exact ⟨v, hv⟩
    | some b =>
      by_cases hb : a = b
      · subst hb
        exact State.woken_postLocal (by rw [hv]; rfl) rfl
      · exact ⟨v, (Function.update_of_ne hb _ _).trans hv⟩
  cases hstep.move with
  | op => exact hpost _ _ (State.postLocal_locals st _ _ _)
  | close => exact hpost _ _ (State.postLocal_locals st _ _ _)
  | callSelect _ addr _ _ haddr =>
    have hne : a ≠ addr := by
      rintro rfl
      cases hv.symm.trans haddr
    exact ⟨v, (Function.update_of_ne hne _ _).trans hv⟩
  | @select s e st' hs hmove =>
    have hne := Ne.symm (hne s hs)
    cases hmove with
    | attempt => exact hpost _ _ (State.postLocal_locals st _ _ _)
    | wait => exact ⟨v, (Function.update_of_ne hne _ _).trans hv⟩
    | destroy => exact ⟨v, (Function.update_of_ne hne _ _).trans hv⟩
    | _ => exact ⟨v, hv⟩
  | _ => exact ⟨v, hv⟩

theorem alerted_step (hstep : Step st (u, e) st') (hut : u ≠ t)
    (hmem : a ∈ (st.chans c).list d) (hlive : (st.locals a).isSome = true)
    (hne : ∀ s, st.threads u = .select s → s.addr ≠ a) (h : st.Alerted t c d a) :
    st'.Alerted t c d a := by
  rcases h with h | ⟨w, hwt, hw⟩
  · exact Or.inl (woken_step hstep hne h)
  · by_cases hwu : w = u
    · subst hwu
      exact (waking_step hstep hmem hlive hw).imp id (fun hw' => ⟨w, hwt, hw'⟩)
    · refine Or.inr ⟨w, hwt, ?_⟩
      rw [hstep.move.threads_of_ne hwu]
      exact hw

/-! ## Permits and closing -/

section Single

variable {σ σ' : Single T A}

/-- A permit that was not there comes with a thread that will walk the list, or on a
closed channel. -/
theorem permit_comes (hstep : Single.Step c σ (u, e) σ')
    (hseen : ∀ t, (σ.views t).sawClosed = true → σ.chan.closed = true)
    (hzero : σ.chan.permit d = 0) : σ'.chan.permit d = 0 ∨ σ'.chan.closed = true ∨
      ∀ a, (σ'.views u).Waking d.other a := by
  generalize hl : (u, e) = l at hstep
  have hseen := hseen u
  have htake : ∀ dir, (σ.chan.takePermit dir).permit d = 0 := by
    intro dir
    rw [Chan.permit_takePermit, hzero]
    split <;> rfl
  cases hstep with
  | @op t dir blocking data pc r hview hr =>
    cases hl
    rw [hview] at hseen
    cases channelOp_move hr with
    | take => exact Or.inl (htake dir)
    | fullPost => exact Or.inr (Or.inl (hseen rfl))
    | closedPost => exact Or.inr (Or.inl (hseen rfl))
    | postOther =>
      by_cases hd : d = dir.other
      · refine Or.inr (Or.inr (fun a => ?_))
        show (Function.update σ.views u _ u).Waking _ _
        rw [Function.update_self, hd, Dir.other_other]
        exact ⟨rfl, trivial⟩
      · refine Or.inl ?_
        show (σ.chan.postPermit dir.other).permit d = 0
        rw [Chan.permit_postPermit, if_neg hd]
        exact hzero
    | _ => exact Or.inl hzero
  | close hview hr =>
    cases hl
    rw [hview] at hseen
    cases channelClose_move hr with
    | postAvailable => exact Or.inr (Or.inl (hseen rfl))
    | postUsed => exact Or.inr (Or.inl (hseen rfl))
    | _ => exact Or.inl hzero
  | elsewhere _ _ hch =>
    refine Or.inl ?_
    show _ = 0
    rw [hch.permit]
    exact hzero
  | _ => exact Or.inl hzero

/-- The thread that closes a channel will walk both lists. -/
theorem closed_comes (hstep : Single.Step c σ (u, e) σ') (hopen : σ.chan.closed = false) :
    σ'.chan.closed = false ∨ ∀ d a, (σ'.views u).Waking d a := by
  generalize hl : (u, e) = l at hstep
  cases hstep with
  | op hview hr =>
    cases channelOp_move hr with
    | _ => exact Or.inl hopen
  | close hview hr =>
    cases hl
    cases channelClose_move hr with
    | close =>
      refine Or.inr (fun d a => ?_)
      show (Function.update σ.views u _ u).Waking _ _
      rw [Function.update_self]
      trivial
    | _ => exact Or.inl hopen
  | elsewhere _ _ hch => exact Or.inl (hch.closed.trans hopen)
  | _ => exact Or.inl hopen

end Single

/-- The number of entries, out of `n`, for which there was no permit in this pass. -/
def SelectPc.dry (n : Nat) : SelectPc A → Nat
  | .scan i | .attempt i .take => i
  | .attempt i .fullLock | .attempt i .fullCheck | .attempt i (.fullUnlock false)
  | .attempt i (.done .wouldblock) => i + 1
  | .wait => n
  | _ => 0

/-- The number of entries whose channel was open in this pass. -/
def SelectPc.seenOpen (n : Nat) : SelectPc A → Nat
  | .scan i | .attempt i .take | .attempt i .fullLock | .attempt i .fullCheck => i
  | .attempt i (.fullUnlock false) | .attempt i (.done .wouldblock) => i + 1
  | .wait => n
  | _ => 0

/-- What a select has found for its first `p` entries, and for its first `o`, is still
so, or the select is alerted. -/
structure Findings (st : State T C A) (t : T) (s : Select C A) (p o : Nat) : Prop where
  dry : ∀ i < p, ∀ c d, s.target i = some (c, d) → (st.chans c).permit d = 0 ∨
    (st.chans c).closed = true ∨ st.Alerted t c d.other s.addr
  seenOpen : ∀ i < o, ∀ c d, s.target i = some (c, d) → (st.chans c).closed = false ∨
    st.Alerted t c d.other s.addr

theorem SelectPc.seenOpen_le_dry (n : Nat) (pc : SelectPc A) : pc.seenOpen n ≤ pc.dry n := by
  cases pc with
  | attempt i pc =>
    cases pc with
    | fullLock => exact Nat.le_succ i
    | fullCheck => exact Nat.le_succ i
    | fullUnlock closed => cases closed <;> exact Nat.le_refl _
    | done status => cases status <;> exact Nat.le_refl _
    | _ => exact Nat.le_refl _
  | _ => exact Nat.le_refl _

/-- While a select has findings it is registered in all its lists. -/
theorem SelectPc.registered_of_dry {i n : Nat} {pc : SelectPc A} (hi : i < pc.dry n)
    (hbound : pc.InBounds n) : i < n ∧ pc.removed n = 0 ∧ pc.registered n = n := by
  cases pc with
  | scan j => exact ⟨Nat.lt_trans hi hbound, rfl, rfl⟩
  | wait => exact ⟨hi, rfl, rfl⟩
  | attempt j pc =>
    have hj : j < n := hbound
    have hle : (SelectPc.attempt j pc).dry n ≤ j + 1 := by
      cases pc with
      | take => exact Nat.le_succ j
      | fullUnlock closed => cases closed <;> simp [SelectPc.dry]
      | done status => cases status <;> simp [SelectPc.dry]
      | _ => simp [SelectPc.dry]
    exact ⟨by omega, rfl, rfl⟩
  | _ => cases hi

theorem Registered.listed {i : Nat} (h : Registered st) (hs : st.threads t = .select s)
    (hi : i < s.pc.dry s.channelList.length) (htarget : s.target i = some (c, d)) :
    s.addr ∈ (st.chans c).list d.other := by
  obtain ⟨hlt, hlo, hhi⟩ := SelectPc.registered_of_dry hi (h.good t s hs).bound
  have hhi : i < s.ticket.hi := by
    show i < s.pc.registered _
    rw [hhi]
    exact hlt
  exact h.inv.registered t s.ticket i (c, d.other) (select_ticket hs) hlo hhi
    (Select.waitsOn_eq htarget)

namespace Findings

variable {p o i : Nat}

theorem zero : Findings st t s 0 0 := ⟨nofun, nofun⟩

/-- The next entry has no permit. -/
theorem succ_dry (h : Findings st t s i o)
    (hzero : ∀ c d, s.target i = some (c, d) → (st.chans c).permit d = 0) :
    Findings st t s (i + 1) o := by
  refine ⟨fun j hj c d htarget => ?_, h.seenOpen⟩
  by_cases hij : j = i
  · subst hij
    exact Or.inl (hzero c d htarget)
  · exact h.dry j (by omega) c d htarget

/-- The channel of the next entry is open. -/
theorem succ_open (h : Findings st t s p i)
    (hopen : ∀ c d, s.target i = some (c, d) → (st.chans c).closed = false) :
    Findings st t s p (i + 1) := by
  refine ⟨h.dry, fun j hj c d htarget => ?_⟩
  by_cases hij : j = i
  · subst hij
    exact Or.inl (hopen c d htarget)
  · exact h.seenOpen j (by omega) c d htarget

end Findings

/-- A step of `t` that leaves all permits, what is closed, and the semaphores. -/
structure Quiet (t : T) (st st' : State T C A) : Prop where
  permit : ∀ c, (st'.chans c).permit = (st.chans c).permit
  closed : ∀ c, (st'.chans c).closed = (st.chans c).closed
  locals : st'.locals = st.locals
  threads : ∀ u, u ≠ t → st'.threads u = st.threads u

theorem Quiet.setThread (st : State T C A) (t : T) (x : Thread C A) :
    Quiet t st (st.setThread t x) :=
  ⟨fun _ => rfl, fun _ => rfl, rfl, fun _ hu => Function.update_of_ne hu _ _⟩

theorem Quiet.setChan {ch : Chan T A} (hpermit : ch.permit = (st.chans c).permit)
    (hclosed : ch.closed = (st.chans c).closed) (t : T) (x : Thread C A) :
    Quiet t st (((st.setChan c ch).postLocal none).setThread t x) := by
  refine ⟨fun c' => ?_, fun c' => ?_, rfl, fun _ hu => Function.update_of_ne hu _ _⟩
  · show (Function.update st.chans c ch c').permit = _
    by_cases hc : c' = c
    · rw [hc, Function.update_self, hpermit]
    · rw [Function.update_of_ne hc]
  · show (Function.update st.chans c ch c').closed = _
    by_cases hc : c' = c
    · rw [hc, Function.update_self, hclosed]
    · rw [Function.update_of_ne hc]

theorem Quiet.alerted (h : Quiet t st st') (ha : st.Alerted t c d a) : st'.Alerted t c d a := by
  rcases ha with ⟨v, hv⟩ | ⟨u, hut, hu⟩
  · exact Or.inl ⟨v, by rw [h.locals]; exact hv⟩
  · exact Or.inr ⟨u, hut, by rw [h.threads u hut]; exact hu⟩

theorem Findings.quiet {p o : Nat} (h : Findings st t s p o) (hquiet : Quiet t st st')
    (hsame : s.SameCall s') : Findings st' t s' p o := by
  refine ⟨fun i hi c d htarget => ?_, fun i hi c d htarget => ?_⟩
  · rw [hsame.target i] at htarget
    rw [hquiet.permit, hquiet.closed, hsame.addr]
    exact (h.dry i hi c d htarget).imp id (Or.imp id hquiet.alerted)
  · rw [hsame.target i] at htarget
    rw [hquiet.closed, hsame.addr]
    exact (h.seenOpen i hi c d htarget).imp id hquiet.alerted

/-! ## The steps of the select itself -/

/-- The findings of a select at the place where it is. -/
def Select.Finds (st : State T C A) (t : T) (s : Select C A) : Prop :=
  Findings st t s (s.pc.dry s.channelList.length) (s.pc.seenOpen s.channelList.length)

theorem finds_attempt {i : Nat} {entry : Entry C} {pc : OpPc A} {r : OpStep T C A}
    (hpc : s.pc = .attempt i pc) (hentry : s.channelList[i]? = some entry)
    (hchan : entry.chan = some c)
    (hr : channelOp t c entry.dir false (st.chans c) entry.data pc = some r)
    (h : s.Finds st t) : Select.Finds (((st.setChan c r.chan).postLocal r.post).setThread t (.select
        { s with
          channelList := s.channelList.set i { entry with data := r.data }
          pc := .attempt i r.pc })) t
      { s with
        channelList := s.channelList.set i { entry with data := r.data }
        pc := .attempt i r.pc } := by
  have htarget : ∀ c' d, s.target i = some (c', d) → c' = c ∧ d = entry.dir := by
    intro c' d htarget
    simp only [Select.target, hentry, hchan, Option.map_some, Option.some.injEq,
      Prod.mk.injEq] at htarget
    exact ⟨htarget.1.symm, htarget.2.symm⟩
  have hsame := Select.sameCall_setData r.data (.attempt i r.pc) hentry
  have hquiet : ∀ (ch : Chan T A) {x : Thread C A}, ch.permit = (st.chans c).permit →
      ch.closed = (st.chans c).closed →
      Quiet t st (((st.setChan c ch).postLocal none).setThread t x) :=
    fun _ _ hpermit hclosed => Quiet.setChan hpermit hclosed t _
  unfold Select.Finds at h ⊢
  rw [hpc] at h
  cases channelOp_move hr with
  | full hzero =>
    refine (Findings.succ_dry h (fun c' d ht => ?_)).quiet (hquiet _ rfl rfl) hsame
    obtain ⟨rfl, rfl⟩ := htarget c' d ht
    exact hzero
  | fullLock => exact h.quiet (hquiet (st.chans c).takeMutex rfl rfl) hsame
  | fullCheck =>
    cases hclosed : (st.chans c).closed with
    | true => exact .zero
    | false =>
      refine (Findings.succ_open h (fun c' d ht => ?_)).quiet (hquiet _ rfl rfl) ?_
      · obtain ⟨rfl, rfl⟩ := htarget c' d ht
        exact hclosed
      · exact Select.sameCall_setData _ _ hentry
  | fullOpen => exact h.quiet (hquiet (st.chans c).postMutex rfl rfl) hsame
  | _ => exact .zero

theorem finds_done {i : Nat} {status : Status} (hgood : s.Good)
    (hpc : s.pc = .attempt i (.done status)) (h : s.Finds st t)
    (hs' : s.afterAttempt i status = .select s') :
    s'.Finds (st.setThread t (s.afterAttempt i status)) t := by
  obtain ⟨s'', hs'', hsame⟩ := s.afterAttempt_sameCall i status
  cases hs'.symm.trans hs''
  unfold Select.Finds at h ⊢
  rw [hpc] at h
  unfold Select.afterAttempt at hs'
  simp only [last_index hgood.pos hgood.lt] at hs'
  by_cases hblock : status = .wouldblock
  · subst hblock
    have hquiet := Findings.quiet h (Quiet.setThread st t (s.afterAttempt i .wouldblock)) hsame
    by_cases hlast : i + 1 = s.channelList.length
    · rw [if_pos (Or.inr hlast)] at hs'
      cases hs'
      have hwait : Findings _ t _ (i + 1) (i + 1) := hquiet
      rw [hlast] at hwait
      exact hwait
    · rw [if_neg (not_or.mpr ⟨fun hne => hne rfl, hlast⟩)] at hs'
      cases hs'
      exact hquiet
  · rw [if_pos (Or.inl hblock)] at hs'
    cases hs'
    simp only [ne_eq, hblock, not_false_eq_true, if_true]
    exact .zero

theorem finds_step (hmove : SelectMove st t s e st') (hgood : s.Good) (h : s.Finds st t)
    (hs' : st'.threads t = .select s') : s'.Finds st' t := by
  have hgoto : ∀ {u : State T C A} {pc : SelectPc A},
      (u.setThread t (s.goto pc)).threads t = .select s' → pc.dry s.channelList.length = 0 →
      s'.Finds (u.setThread t (s.goto pc)) t := by
    intro u pc hu hdry
    rw [State.threads_setThread_self] at hu
    cases hu
    have hopen := SelectPc.seenOpen_le_dry s.channelList.length pc
    show Findings _ t _ (pc.dry _) (pc.seenOpen _)
    rw [hdry] at hopen ⊢
    rw [Nat.le_zero.mp hopen]
    exact .zero
  cases hmove with
  | regLock => exact hgoto hs' rfl
  | regDone => exact hgoto hs' rfl
  | regFound => exact hgoto hs' rfl
  | regInsert => exact hgoto hs' rfl
  | regRefused => exact hgoto hs' rfl
  | regUnlock => exact hgoto hs' rfl
  | @scan i entry hpc hentry =>
    rw [State.threads_setThread_self] at hs'
    cases hs'
    unfold Select.Finds at h ⊢
    rw [hpc] at h
    have hsame : s.SameCall { s with pc := .attempt i (startOp entry.chan) } :=
      ⟨rfl, rfl, fun _ => rfl⟩
    have hquiet := Findings.quiet h
      (Quiet.setThread st t (s.goto (.attempt i (startOp entry.chan)))) hsame
    cases hchan : entry.chan with
    | none => exact .zero
    | some c =>
      rw [hchan] at hquiet
      exact hquiet
  | attempt hpc hentry hchan hr =>
    rw [State.threads_setThread_self] at hs'
    cases hs'
    exact finds_attempt hpc hentry hchan hr h
  | attemptDone hpc =>
    rw [State.threads_setThread_self] at hs'
    exact finds_done hgood hpc h hs'
  | wait => exact hgoto hs' rfl
  | remLock => exact hgoto hs' rfl
  | remDone => exact hgoto hs' rfl
  | remBody => exact hgoto hs' rfl
  | remUnlock => exact hgoto hs' rfl
  | _ =>
    rw [State.threads_setThread_self] at hs'
    cases hs'

/-- What holds of the selects in every state. -/
structure Wakeful (st : State T C A) : Prop where
  registered : Registered st
  seen : ∀ c t, ((st.single c).views t).sawClosed = true → (st.chans c).closed = true
  finds : ∀ t s, st.threads t = .select s → s.Finds st t

/-- A step of another thread. -/
theorem Wakeful.other (h : Wakeful st) (hstep : Step st (u, e) st') (hut : u ≠ t)
    (hs : st.threads t = .select s) : s.Finds st' t := by
  have hlive : (st.locals s.addr).isSome = true :=
    h.registered.inv.live t s.ticket (select_ticket hs)
  have hne : ∀ s', st.threads u = .select s' → s'.addr ≠ s.addr :=
    fun s' hs' haddr => hut (h.registered.distinct hs' hs haddr)
  have hopen := SelectPc.seenOpen_le_dry s.channelList.length s.pc
  refine ⟨fun i hi c d htarget => ?_, fun i hi c d htarget => ?_⟩
  · have hmem := h.registered.listed hs hi htarget
    rcases (h.finds t s hs).dry i hi c d htarget with hzero | hclosed | halerted
    · exact (permit_comes (hstep.single c) (h.seen c) hzero).imp id
        (Or.imp id (fun hw => Or.inr ⟨u, hut, hw s.addr⟩))
    · exact Or.inr (Or.inl ((sawClosed_step (hstep.single c) (h.seen c)).1 hclosed))
    · exact Or.inr (Or.inr (alerted_step hstep hut hmem hlive hne halerted))
  · have hmem := h.registered.listed hs (Nat.lt_of_lt_of_le hi hopen) htarget
    rcases (h.finds t s hs).seenOpen i hi c d htarget with hopen | halerted
    · exact (closed_comes (hstep.single c) hopen).imp id
        (fun hw => Or.inr ⟨u, hut, hw d.other s.addr⟩)
    · exact Or.inr (alerted_step hstep hut hmem hlive hne halerted)

theorem wakeful_step (hstep : Step st (u, e) st') (hadm : e.Admissible) (h : Wakeful st) :
    Wakeful st' := by
  refine ⟨?_, fun c => (sawClosed_step (hstep.single c) (h.seen c)).2, ?_⟩
  · exact ⟨good_of_step hstep hadm h.registered.good,
      WaitList.inv_step (hstep.waits hadm h.registered.good) h.registered.inv⟩
  · intro t s' hs'
    by_cases hut : u = t
    · subst hut
      cases hstep.move with
      | select hs hmove =>
        exact finds_step hmove (h.registered.good u _ hs) (h.finds u _ hs) hs'
      | callSelect =>
        rw [State.threads_setThread_self] at hs'
        cases hs'
        exact .zero
      | _ =>
        rw [State.threads_setThread_self] at hs'
        cases hs'
    · rw [hstep.move.threads_of_ne (Ne.symm hut)] at hs'
      exact h.other hstep hut hs'

section System

variable {capacity : C → Nat} {st₀ : State T C A} {ls : List (T × Event C A)}

theorem wakeful_of_run (h₀ : Initial capacity st₀) (hrun : Run Step st₀ ls st)
    (hadm : ∀ l ∈ ls, l.2.Admissible) : Wakeful st := by
  refine hrun.guarded hadm ⟨h₀.registered, fun c t ht => ?_, fun t s hs => ?_⟩
    (fun _ _ _ h hl hst => wakeful_step hst hl h)
  · obtain ⟨-, -, -, hviews⟩ := h₀.single c
    rw [hviews t] at ht
    cases ht
  · rw [h₀.threads t] at hs
    cases hs

/-- A select sleeps only while, for each of its entries, the channel is open and has no
permit, or another thread that posted the permit or closed the channel is still to
come to the semaphore of the select in its `list_foreach`. -/
theorem no_lost_wakeup (h₀ : Initial capacity st₀) (hrun : Run Step st₀ ls st)
    (hadm : ∀ l ∈ ls, l.2.Admissible) (hs : st.threads t = .select s) (hpc : s.pc = .wait)
    (hlocal : st.locals s.addr = some 0) (i : Nat) (entry : Entry C)
    (hentry : s.channelList[i]? = some entry) : ∃ c, entry.chan = some c ∧
      ((st.chans c).closed = false ∧ (st.chans c).permit entry.dir = 0 ∨
        ∃ u, u ≠ t ∧ ((st.threads u).view c).Waking entry.dir.other s.addr) := by
  have h := wakeful_of_run h₀ hrun hadm
  have hi := (List.getElem?_eq_some_iff.mp hentry).1
  obtain ⟨c, hc⟩ := Option.ne_none_iff_exists'.mp
    ((h.registered.good t s hs).chans entry (List.mem_of_getElem? hentry))
  have htarget : s.target i = some (c, entry.dir) := by
    simp only [Select.target, hentry, hc, Option.map_some]
  have hfinds := h.finds t s hs
  unfold Select.Finds at hfinds
  rw [hpc] at hfinds
  -- The semaphore is 0, so an alert comes from another thread.
  have halert : st.Alerted t c entry.dir.other s.addr →
      ∃ u, u ≠ t ∧ ((st.threads u).view c).Waking entry.dir.other s.addr := by
    rintro (⟨v, hv⟩ | hother)
    · cases hlocal.symm.trans hv
    · exact hother
  refine ⟨c, hc, ?_⟩
  rcases hfinds.seenOpen i hi c entry.dir htarget with hopen | halerted
  · rcases hfinds.dry i hi c entry.dir htarget with hzero | hclosed | halerted
    · exact Or.inl ⟨hopen, hzero⟩
    · rw [hopen] at hclosed
      cases hclosed
    · exact Or.inr (halert halerted)
  · exact Or.inr (halert halerted)

/-- A select waits for a message on `pair`, and the other thread has just sent one. -/
theorem no_lost_wakeup_receiver : ∃ ls st, ∃ s : Select Unit Unit, Run Step pair ls st ∧
    st.threads true = .select s ∧ s.pc = .wait ∧ st.locals s.addr = some 0 ∧
    (st.chans ()).used = 1 ∧
    ∃ u, u ≠ true ∧ ((st.threads u).view ()).Waking .send s.addr := by
  have hcall := (Run.nil pair).snoc
    (Step.callSelect (t := true) [⟨some (), false, 0⟩] () 0 rfl rfl (by decide))
  have h₁ := hcall.snoc (Step.run (t := true) true rfl)
  have h₂ := h₁.snoc (Step.run (t := true) true rfl)
  have h₃ := h₂.snoc (Step.run (t := true) true rfl)
  have hreg := h₃.snoc (Step.run (t := true) true rfl)
  have hscan := hreg.snoc (Step.run (t := true) true rfl)
  have h₄ := hscan.snoc (Step.run (t := true) true rfl)
  have h₅ := h₄.snoc (Step.run (t := true) true rfl)
  have h₆ := h₅.snoc (Step.run (t := true) true rfl)
  have hblock := h₆.snoc (Step.run (t := true) true rfl)
  have hwait := hblock.snoc (Step.run (t := true) true rfl)
  have hsend := hwait.snoc (Step.call (t := false) (some ()) .send 7 true rfl)
  have htake := hsend.snoc (Step.run (t := false) true rfl)
  have hlock := htake.snoc (Step.run (t := false) true rfl)
  have hbody := hlock.snoc (Step.run (t := false) true rfl)
  have hunlock := hbody.snoc (Step.run (t := false) true rfl)
  have hpost := hunlock.snoc (Step.run (t := false) true rfl)
  have hall := fun hadm => no_lost_wakeup pair_initial hpost hadm (t := true) rfl rfl rfl 0
    ⟨some (), false, 0⟩ rfl
  obtain ⟨c, hc, h⟩ := hall (by
    intro l hl
    simp only [List.nil_append, List.mem_append, List.mem_singleton, or_assoc] at hl
    rcases hl with rfl | rfl | rfl | rfl | rfl | rfl | rfl | rfl | rfl | rfl | rfl | rfl | rfl |
      rfl | rfl | rfl | rfl
    case inl => exact ⟨nofun, by simp⟩
    case inr.inr.inl => rfl
    all_goals trivial)
  rcases h with ⟨-, hzero⟩ | hother
  · cases hzero
  · exact ⟨_, _, _, hpost, rfl, rfl, rfl, rfl, hother⟩

end System

end Channels
end Cmpsc473
