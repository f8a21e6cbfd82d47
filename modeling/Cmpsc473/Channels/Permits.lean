import Cmpsc473.Channels.Ledger

/-!
# Channels whose messages are no `BUFFER_EMPTY`

As long as nobody sends `BUFFER_EMPTY` there is none in a buffer, and no slot is
lost.  So a thread that comes to the buffer of an open channel finds what it wants
there, and no call on a channel fails with `OTHER_ERROR`.
-/

set_option linter.unusedSectionVars false

namespace Cmpsc473
namespace Channels

open Census

variable {T C A : Type}

/-- No message is `BUFFER_EMPTY`. -/
def Event.Proper : Event C A → Prop
  | .call _ .send data _ => data ≠ bufferEmpty
  | _ => True

def OpPc.failed : OpPc A → Bool
  | .errUnlock | .done .otherError => true
  | _ => false

def ClosePc.failed : ClosePc A → Bool
  | .done .otherError => true
  | _ => false

/-- A call that is to return, or has to return, `OTHER_ERROR`. -/
def View.failed : View A → Bool
  | .op _ _ _ pc => pc.failed
  | .close pc => pc.failed
  | .away => false

/-- The message of a thread that is sending. -/
def View.Sendable : View A → Prop
  | .op dir _ data _ => dir = .send → data ≠ bufferEmpty
  | _ => True

variable [DecidableEq T] [DecidableEq C] [DecidableEq A] {c : C} {σ σ' : Single T A}
  {l : T × Event C A} {cap : Nat} {t : T} {dir : Dir} {blocking : Bool} {data : UInt64}

/-- Neither the buffer nor a thread that is sending has a `BUFFER_EMPTY`.  This does not
depend on the permits. -/
structure Clean (cap : Nat) (σ : Single T A) : Prop where
  wf : σ.chan.buffer.Wf
  capacity : σ.chan.buffer.capacity = cap
  messages : bufferEmpty ∉ σ.chan.buffer.contents
  sendable : ∀ t, (σ.views t).Sendable

theorem Clean.not_lost {b : Buffer} (h : Clean cap σ)
    (hcontents : σ.chan.buffer.contents = bufferEmpty :: b.contents) : False :=
  h.messages (hcontents ▸ List.mem_cons_self)

/-- A thread moves, and the buffer stays as it is. -/
theorem Clean.move {v : View A} {ch : Chan T A} (h : Clean cap σ)
    (hbuffer : ch.buffer = σ.chan.buffer) (hsendable : v.Sendable) :
    Clean cap ⟨ch, Function.update σ.views t v⟩ where
  wf := hbuffer ▸ h.wf
  capacity := hbuffer ▸ h.capacity
  messages := hbuffer ▸ h.messages
  sendable := (Function.forall_update_iff σ.views fun _ w => w.Sendable).mpr
    ⟨hsendable, fun u _ => h.sendable u⟩

theorem Clean.body {r : OpStep T C A} (h : Clean cap σ) (hopen : σ.chan.closed = false)
    (hview : σ.views t = .op dir blocking data .body)
    (hr : channelOp t c dir blocking σ.chan data .body = some r) :
    Clean cap ⟨r.chan, Function.update σ.views t (.op dir blocking r.data r.pc)⟩ := by
  have hsendable := h.sendable t
  rw [hview] at hsendable
  have hviews : ∀ {w : UInt64} {pc : OpPc A}, (dir = .send → w ≠ bufferEmpty) →
      ∀ u, (Function.update σ.views t (.op dir blocking w pc) u).Sendable :=
    fun hw => (Function.forall_update_iff σ.views fun _ w => w.Sendable).mpr
      ⟨hw, fun u _ => h.sendable u⟩
  cases body_move h.wf hopen hr with
  | added hd _ hwf hcap _ hcontents =>
    refine ⟨hwf, hcap.trans h.capacity, ?_, hviews hsendable⟩
    rw [hcontents]
    intro hmem
    rcases List.mem_append.mp hmem with hold | hnew
    · exact h.messages hold
    · exact hsendable hd (List.mem_singleton.mp hnew).symm
  | full => exact h.move rfl hsendable
  | removed hd hwf hcap _ hcontents =>
    refine ⟨hwf, hcap.trans h.capacity, ?_, hviews (fun hs => nomatch hs.symm.trans hd)⟩
    intro hmem
    apply h.messages
    rw [hcontents]
    exact List.mem_cons_of_mem _ hmem
  | lost _ _ _ _ hcontents => exact (h.not_lost hcontents).elim
  | empty => exact h.move rfl hsendable

theorem clean_step (hstep : Single.Step c σ l σ') (hl : l.2.Proper) (h : Clean cap σ) :
    Clean cap σ' := by
  cases hstep with
  | @call t dir blocking data hview =>
    refine h.move rfl ?_
    intro hd
    rw [hd] at hl
    exact hl
  | @op t dir blocking data pc r hview hr =>
    have hsendable := h.sendable t
    rw [hview] at hsendable
    cases channelOp_move hr with
    | added hopen => exact h.body hopen hview hr
    | addFailed hopen => exact h.body hopen hview hr
    | removed hopen => exact h.body hopen hview hr
    | removeFailed hopen => exact h.body hopen hview hr
    | _ => exact h.move rfl hsendable
  | close hview hr => cases channelClose_move hr <;> exact h.move rfl trivial
  | elsewhere _ _ hch =>
    exact ⟨hch.buffer ▸ h.wf, hch.buffer ▸ h.capacity, hch.buffer ▸ h.messages, h.sendable⟩
  | _ => exact h.move rfl trivial

/-- No step takes a `BUFFER_EMPTY`. -/
theorem Clean.not_loses (h : Clean cap σ) (hstep : Single.Step c σ l σ') :
    l.2.loses c = false := by
  cases hstep with
  | @op t dir blocking data pc r hview hr =>
    have hbody : pc = .body → σ.chan.closed = false → r.event.loses c = false := by
      rintro rfl hopen
      cases body_move h.wf hopen hr with
      | removed _ _ _ _ _ hv => simp [Event.loses, hv]
      | lost _ _ _ _ hcontents => exact (h.not_lost hcontents).elim
      | _ => rfl
    cases channelOp_move hr with
    | added hopen => exact hbody rfl hopen
    | addFailed hopen => exact hbody rfl hopen
    | removed hopen => exact hbody rfl hopen
    | removeFailed hopen => exact hbody rfl hopen
    | _ => rfl
  | elsewhere _ he _ => exact loses_of_elsewhere he
  | _ => rfl

theorem clean_of_run {capacity : C → Nat} {st₀ st : State T C A} {ls : List (T × Event C A)}
    (h₀ : Initial capacity st₀) (hrun : Transition.Run Step st₀ ls st)
    (hproper : ∀ l ∈ ls, l.2.Proper) (hpos : 1 ≤ capacity c) (hmax : capacity c ≤ 2 ^ 63) :
    Clean (capacity c) (st.single c) := by
  obtain ⟨data, garbage, hchan, hviews⟩ := h₀.single c
  refine (Run.single hrun c).guarded hproper ⟨?_, ?_, ?_, ?_⟩
    (fun _ _ _ h hl hst => clean_step hst hl h)
  · rw [hchan]
    exact Buffer.create_wf hpos hmax
  · rw [hchan]
    rfl
  · rw [hchan]
    exact List.not_mem_nil
  · intro t
    rw [hviews t]
    trivial

variable [Fintype T]

structure Sound (cap : Nat) (σ : Single T A) : Prop where
  wf : σ.chan.buffer.Wf
  capacity : σ.chan.buffer.capacity = cap
  messages : bufferEmpty ∉ σ.chan.buffer.contents
  sendable : ∀ t, (σ.views t).Sendable
  seen : ∀ t, (σ.views t).sawClosed = true → σ.chan.closed = true
  balance : σ.chan.closed = false → ∀ d,
    σ.chan.permit d + count (View.holds d) σ.views + count (View.owes d.other) σ.views =
      σ.chan.buffer.room d
  succeeds : ∀ t, (σ.views t).failed = false

theorem Sound.clean (h : Sound cap σ) : Clean cap σ :=
  ⟨h.wf, h.capacity, h.messages, h.sendable⟩

theorem lostTo_zero (d : Dir) : lostTo d 0 = 0 := by
  cases d <;> rfl

theorem Sound.ledger (h : Sound cap σ) : Ledger cap 0 σ where
  wf := h.wf
  capacity := h.capacity
  seen := h.seen
  balance hopen d := by
    rw [lostTo_zero]
    exact h.balance hopen d

/-- A thread at the body of the critical section finds room there, and what it removes
is a message. -/
theorem Sound.body {r : OpStep T C A} (h : Sound cap σ) (hopen : σ.chan.closed = false)
    (hview : σ.views t = .op dir blocking data .body)
    (hr : channelOp t c dir blocking σ.chan data .body = some r) : r.pc = .unlock := by
  have hroom := h.ledger.one_le_room hopen hview
  cases body_move h.wf hopen hr with
  | added => rfl
  | full hd hfull =>
    subst hd
    have hroom' : 1 ≤ σ.chan.buffer.capacity - σ.chan.buffer.size := hroom
    omega
  | removed => rfl
  | lost _ _ _ _ hcontents => exact (h.clean.not_lost hcontents).elim
  | empty hd hempty =>
    subst hd
    have hroom' : 1 ≤ σ.chan.buffer.size := hroom
    omega

theorem succeeds_step (hstep : Single.Step c σ l σ') (h : Sound cap σ) :
    ∀ t, (σ'.views t).failed = false := by
  have hmove : ∀ {t : T} {v : View A}, v.failed = false →
      ∀ u, (Function.update σ.views t v u).failed = false :=
    fun hv => (Function.forall_update_iff σ.views fun _ w => w.failed = false).mpr
      ⟨hv, fun u _ => h.succeeds u⟩
  cases hstep with
  | @op t dir blocking data pc r hview hr =>
    have hfailed := h.succeeds t
    rw [hview] at hfailed
    have hbody : pc = .body → σ.chan.closed = false →
        (View.op dir blocking r.data r.pc : View A).failed = false := by
      rintro rfl hopen
      rw [h.body hopen hview hr]
      rfl
    cases channelOp_move hr with
    | added hopen => exact hmove (hbody rfl hopen)
    | addFailed hopen => exact hmove (hbody rfl hopen)
    | removed hopen => exact hmove (hbody rfl hopen)
    | removeFailed hopen => exact hmove (hbody rfl hopen)
    | errUnlock => cases hfailed
    | _ => exact hmove rfl
  | close hview hr => cases channelClose_move hr <;> exact hmove rfl
  | elsewhere => exact h.succeeds
  | _ => exact hmove rfl

theorem sound_step (hcap : cap ≤ semValueMax) (hstep : Single.Step c σ l σ') (hl : l.2.Proper)
    (h : Sound cap σ) : Sound cap σ' := by
  have hclean := clean_step hstep hl h.clean
  have hledger := ledger_step hcap hstep h.ledger
  rw [h.clean.not_loses hstep] at hledger
  refine ⟨hclean.wf, hclean.capacity, hclean.messages, hclean.sendable, hledger.seen, ?_,
    succeeds_step hstep h⟩
  intro hopen d
  have hbalance := hledger.balance hopen d
  rw [Bool.toNat_false, lostTo_zero] at hbalance
  exact hbalance

section System

variable {capacity : C → Nat} {st₀ st : State T C A} {ls : List (T × Event C A)}

theorem sound_of_run (h₀ : Initial capacity st₀) (hrun : Transition.Run Step st₀ ls st)
    (hproper : ∀ l ∈ ls, l.2.Proper) (hpos : 1 ≤ capacity c) (hmax : capacity c ≤ semValueMax) :
    Sound (capacity c) (st.single c) := by
  obtain ⟨data, garbage, hchan, hviews⟩ := h₀.single c
  have hclean := clean_of_run (c := c) h₀ (.nil st₀) nofun hpos
    (by unfold semValueMax at hmax; omega)
  have hledger := ledger_of_run_le (c := c) h₀ (.nil st₀) hpos hmax
  have hstart : Sound (capacity c) (st₀.single c) := by
    refine ⟨hclean.wf, hclean.capacity, hclean.messages, hclean.sendable, hledger.seen, ?_, ?_⟩
    · intro hopen d
      have hbalance := hledger.balance hopen d
      rw [show lost c ([] : List (T × Event C A)) = 0 from rfl, lostTo_zero] at hbalance
      exact hbalance
    · intro t
      rw [hviews t]
      rfl
  exact (Run.single hrun c).guarded hproper hstart (fun _ _ _ h hl hst => sound_step hmax hst hl h)

/-- The threads inside the critical section. -/
def inside (st : State T C A) (c : C) : Nat :=
  (Finset.univ.filter fun t => ((st.threads t).view c).inCritical = true).card

theorem inside_eq (st : State T C A) (c : C) :
    inside st c = count View.inCritical (st.single c).views :=
  (count_eq_card View.inCritical (st.single c).views).symm

/-- What a select will return, once it has a result. -/
def Select.status (s : Select C A) : Option Status :=
  match s.pc with
  | .remLock _ status | .remBody _ status | .remUnlock _ status | .destroy status => some status
  | _ => none

theorem status_afterAttempt {s s' : Select C A} {i : Nat} {status status' : Status}
    (h : s.afterAttempt i status = .select s') (hs : s'.status = some status') :
    status' = status := by
  unfold Select.afterAttempt Select.goto at h
  split at h
  · cases h
    by_cases hw : status ≠ .wouldblock
    · simp only [Select.status, if_pos hw, Option.some.injEq] at hs
      exact hs.symm
    · simp only [Select.status, if_neg hw] at hs
      cases hs
  · cases h
    cases hs

/-- The result of a select is that of its last attempt. -/
theorem SelectMove.status {s s' : Select C A} {e : Event C A} {st' : State T C A} {status : Status}
    (h : SelectMove st t s e st') (hs' : st'.threads t = .select s')
    (hstatus : s'.status = some status) : s.status = some status ∨
      ∃ i entry, s.pc = .attempt i (.done status) ∧ s.channelList[i]? = some entry := by
  have hgoto : ∀ {u : State T C A} {pc : SelectPc A},
      (u.setThread t (s.goto pc)).threads t = .select s' → s' = { s with pc := pc } := by
    intro u pc hu
    rw [State.threads_setThread_self] at hu
    cases hu
    rfl
  cases h with
  | regCrash =>
    rw [State.threads_setThread_self] at hs'
    cases hs'
  | scanCrash =>
    rw [State.threads_setThread_self] at hs'
    cases hs'
  | remCrash =>
    rw [State.threads_setThread_self] at hs'
    cases hs'
  | destroy =>
    rw [State.threads_setThread_self] at hs'
    cases hs'
  | attempt =>
    rw [State.threads_setThread_self] at hs'
    cases hs'
    cases hstatus
  | @attemptDone i entry status' hpc hentry =>
    rw [State.threads_setThread_self] at hs'
    rw [status_afterAttempt hs' hstatus]
    exact Or.inr ⟨i, entry, hpc, hentry⟩
  | remLock hpc =>
    rw [hgoto hs'] at hstatus
    exact Or.inl (by rw [Select.status, hpc]; exact hstatus)
  | remDone hpc =>
    rw [hgoto hs'] at hstatus
    exact Or.inl (by rw [Select.status, hpc]; exact hstatus)
  | remBody hpc =>
    rw [hgoto hs'] at hstatus
    exact Or.inl (by rw [Select.status, hpc]; exact hstatus)
  | remUnlock hpc =>
    rw [hgoto hs'] at hstatus
    exact Or.inl (by rw [Select.status, hpc]; exact hstatus)
  | _ =>
    rw [hgoto hs'] at hstatus
    cases hstatus

/-- A select over channels that are not NULL, and of admissible capacities, has no
`OTHER_ERROR` to return. -/
theorem select_status (h₀ : Initial capacity st₀) (hrun : Transition.Run Step st₀ ls st)
    (hproper : ∀ l ∈ ls, l.2.Proper) {t : T} {s : Select C A} (ht : st.threads t = .select s)
    (hchans : ∀ i < s.channelList.length, ∃ c d, s.target i = some (c, d) ∧
      1 ≤ capacity c ∧ capacity c ≤ semValueMax) : s.status ≠ some .otherError := by
  induction hrun generalizing s with
  | nil => exact absurd ht (by rw [h₀.threads t]; exact nofun)
  | @snoc st₁ st₂ ls l hrun hstep ih =>
    obtain ⟨u, e⟩ := l
    have hproper' : ∀ l ∈ ls, l.2.Proper := fun l hl => hproper l (List.mem_append_left _ hl)
    have hmove := hstep.move
    by_cases hut : t = u
    · subst hut
      intro hstatus
      cases hmove with
      | select ht₁ h =>
        rename_i s₁
        obtain ⟨s', hs', hsame⟩ : ∃ s', st₂.threads t = .select s' ∧ s₁.SameCall s' := by
          rcases h.sameCall with h' | h' | h'
          · exact h'
          · rw [ht] at h'
            cases h'
          · rw [ht] at h'
            cases h'
        obtain rfl : s = s' := by
          rw [ht] at hs'
          cases hs'
          rfl
        have hchans₁ : ∀ i < s₁.channelList.length, ∃ c d, s₁.target i = some (c, d) ∧
            1 ≤ capacity c ∧ capacity c ≤ semValueMax := by
          intro i hi
          rw [← hsame.target i]
          exact hchans i (hsame.length ▸ hi)
        rcases h.status ht hstatus with hold | ⟨i, entry, hpc, hentry⟩
        · exact ih hproper' ht₁ hchans₁ hold
        · obtain ⟨c, d, htarget, hpos, hmax⟩ :=
            hchans₁ i (List.getElem?_eq_some_iff.mp hentry).1
          have hchan : entry.chan = some c := by
            simp only [Select.target, hentry, Option.map_eq_some_iff, Prod.mk.injEq] at htarget
            obtain ⟨c', hc', rfl, -⟩ := htarget
            exact hc'
          have hsucceeds := (sound_of_run h₀ hrun hproper' hpos hmax).succeeds t
          have hview : (st₁.single c).views t =
              .op entry.dir false entry.data (.done .otherError) := by
            show (st₁.threads t).view c = _
            rw [ht₁, view_attempt hpc hentry, hchan, viewIf_self]
          rw [hview] at hsucceeds
          cases hsucceeds
      | callSelect =>
        rw [State.threads_setThread_self] at ht
        cases ht
        cases hstatus
      | _ =>
        rw [State.threads_setThread_self] at ht
        cases ht
    · rw [hmove.threads_of_ne hut] at ht
      exact ih hproper' ht hchans

/-- The permits of an open channel, the threads on their way and the buffer balance;
`mutex` lets one thread in; so nobody meets a full buffer to add to or an empty one to
remove from, and on an open channel that nobody uses a sender would block only on a
full buffer and a receiver only on an empty one. -/
theorem permit_accounting (h₀ : Initial capacity st₀) (hrun : Transition.Run Step st₀ ls st)
    (hproper : ∀ l ∈ ls, l.2.Proper) (hpos : 1 ≤ capacity c) (hmax : capacity c ≤ semValueMax) :
    let ch := st.chans c
    (ch.closed = false →
      ch.available + holders st c .send + ch.buffer.size + owers st c .recv = capacity c ∧
        ch.used + holders st c .recv + owers st c .send = ch.buffer.size) ∧
    ch.mutex + inside st c = 1 ∧
    (ch.closed = false → ∀ t blocking data,
      ((st.threads t).view c = .op .send blocking data .body → (bufferAdd data ch.buffer).1 = true) ∧
      ((st.threads t).view c = .op .recv blocking data .body →
        0 < ch.buffer.size ∧ (bufferRemove ch.buffer).1 ≠ bufferEmpty)) ∧
    (∀ t dir status data st', Step st (t, .ret (some c) dir status data) st' →
      status ≠ .otherError) ∧
    (∀ t status st', Step st (t, .retClose (some c) status) st' → status ≠ .otherError) ∧
    (∀ t s, st.threads t = .select s → (∀ i < s.channelList.length, ∃ c' d,
      s.target i = some (c', d) ∧ 1 ≤ capacity c' ∧ capacity c' ≤ semValueMax) →
      s.status ≠ some .otherError) ∧
    (ch.closed = false → (∀ t, (st.threads t).view c = .away) →
      (ch.available = 0 → ch.buffer.size = capacity c) ∧ (ch.used = 0 → ch.buffer.size = 0)) := by
  intro ch
  have hsound := sound_of_run h₀ hrun hproper hpos hmax
  have hcapacity : ch.buffer.capacity = capacity c := hsound.capacity
  have hsize : ch.buffer.size ≤ capacity c := hcapacity ▸ hsound.wf.size_le
  have hbalance : ch.closed = false →
      ch.available + holders st c .send + ch.buffer.size + owers st c .recv = capacity c ∧
        ch.used + holders st c .recv + owers st c .send = ch.buffer.size := by
    intro hopen
    have hsend := hsound.balance hopen .send
    have hrecv := hsound.balance hopen .recv
    rw [← holders_eq, ← owers_eq] at hsend hrecv
    have hroom : (st.single c).chan.buffer.room .send = capacity c - ch.buffer.size := by
      rw [← hcapacity]
      rfl
    rw [hroom] at hsend
    have hsend' : ch.available + holders st c .send + owers st c .recv =
        capacity c - ch.buffer.size := hsend
    exact ⟨by omega, hrecv⟩
  refine ⟨hbalance, ?_, ?_, ?_, ?_, ?_, ?_⟩
  · rw [inside_eq]
    exact exclusive_of_run h₀ hrun c
  · intro hopen t blocking data
    refine ⟨fun hview => ?_, fun hview => ?_⟩
    · have hroom := hsound.ledger.one_le_room hopen hview
      obtain ⟨b, hadd, -⟩ := Buffer.add_spec (v := data) hsound.wf (Nat.lt_of_sub_pos hroom)
      exact congrArg Prod.fst hadd
    · have hroom := hsound.ledger.one_le_room hopen hview
      obtain ⟨v, b, hrem, hcontents, -⟩ := Buffer.remove_spec hsound.wf hroom
      refine ⟨hroom, ?_⟩
      intro hempty
      have hv : v = bufferEmpty := (congrArg Prod.fst hrem).symm.trans hempty
      apply hsound.messages
      rw [hcontents, hv]
      exact List.mem_cons_self
  · intro t dir status data st' hstep hstatus
    obtain ⟨blocking, hview⟩ := (hstep.single c).ret_view
    have hsucceeds := hsound.succeeds t
    rw [hview, hstatus] at hsucceeds
    cases hsucceeds
  · intro t status st' hstep hstatus
    have hsucceeds := hsound.succeeds t
    rw [(hstep.single c).retClose_view, hstatus] at hsucceeds
    cases hsucceeds
  · intro t s ht hchans
    exact select_status h₀ hrun hproper ht hchans
  · intro hopen haway
    obtain ⟨hsend, hrecv⟩ := hbalance hopen
    have hnone : ∀ p : View A → Bool, p .away = false →
        (Finset.univ.filter fun t => p ((st.threads t).view c) = true).card = 0 := by
      intro p hp
      rw [Finset.card_eq_zero, Finset.filter_eq_empty_iff]
      intro t _ ht
      rw [haway t, hp] at ht
      cases ht
    have hholders : ∀ d, holders st c d = 0 := fun d => hnone (View.holds d) rfl
    have howers : ∀ d, owers st c d = 0 := fun d => hnone (View.owes d) rfl
    rw [hholders, howers] at hsend hrecv
    exact ⟨fun ha => by omega, fun hu => by omega⟩

/-- A sender that has taken the only permit. -/
theorem permit_accounting_sender :
    ∃ ls st, Transition.Run Step pair ls st ∧
      (st.chans ()).available + holders st () .send + (st.chans ()).buffer.size +
        owers st () .recv = 1 ∧ (st.chans ()).mutex + inside st () = 1 := by
  have hcall := (Transition.Run.nil pair).snoc (Step.call (t := true) (some ()) .send 7 true rfl)
  have htake := hcall.snoc (Step.run (t := true) true rfl)
  have hproper : ∀ l ∈ ([] ++ [(true, .call (some ()) .send 7 true)]) ++
      [(true, (.internal : Event Unit Unit))], l.2.Proper := by
    intro l hl
    rcases List.mem_append.mp hl with hl | hl
    · rw [List.nil_append, List.mem_singleton] at hl
      rw [hl]
      exact (by decide : (7 : UInt64) ≠ bufferEmpty)
    · rw [List.mem_singleton.mp hl]
      trivial
  have h := permit_accounting (c := ()) pair_initial htake hproper (by decide) (by decide)
  exact ⟨_, _, htake, (h.1 rfl).1, h.2.1⟩

end System

end Channels
end Cmpsc473
