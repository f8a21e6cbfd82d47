import Cmpsc473.Channels.Closing

/-!
# The ledger of an open channel

What the body of the critical section does to a buffer, and the permits of an open
channel.  The permits, the threads that hold one and the threads that owe one to the
other side add up to the room on each side of the buffer, less the slots that
`available` never counted, where the capacity was cut to 32 bits, and one for each
`BUFFER_EMPTY` that was dequeued: that receive fails after it took the message, and
does not give the slot back.  So no message but that one makes a call fail.
-/

set_option linter.unusedSectionVars false

namespace Cmpsc473
namespace Channels

open Census

variable {T C A : Type}

def OpPc.owing : OpPc A → Bool
  | .unlock | .postOther => true
  | _ => false

/-- An operation of direction `d` that came to the buffer and did not post the permit
of the other direction yet. -/
def View.owes (d : Dir) : View A → Bool
  | .op dir _ _ pc => pc.owing && decide (dir = d)
  | _ => false

/-- What the operations of a direction may still do: the free slots for those that
send, the messages for those that receive. -/
def Buffer.room (b : Buffer) : Dir → Nat
  | .send => b.capacity - b.size
  | .recv => b.size

theorem Buffer.room_le {b : Buffer} (hb : b.Wf) (d : Dir) : b.room d ≤ b.capacity := by
  cases d with
  | send => exact Nat.sub_le _ _
  | recv => exact hb.size_le

/-- What a thread has of the room of direction `d`. -/
def View.stake (d : Dir) (v : View A) : Nat := (v.holds d).toNat + (v.owes d.other).toNat

/-- The slots that are lost to a direction. -/
def lostTo (d : Dir) (n : Nat) : Nat :=
  match d with
  | .send => n
  | .recv => 0

variable [DecidableEq T] [DecidableEq C] [DecidableEq A] {c : C} {σ σ' : Single T A}
  {l : T × Event C A} {cap n : Nat} {t : T} {dir : Dir} {blocking : Bool} {data : UInt64}
  {ch : Chan T A} {r : OpStep T C A}

/-- A message that is taken from the buffer and not delivered. -/
def Event.loses (c : C) : Event C A → Bool
  | .removed c' v => decide (c' = c ∧ v = bufferEmpty)
  | _ => false

/-- The number of messages `BUFFER_EMPTY` taken from the channel. -/
def lost (c : C) (ls : List (T × Event C A)) : Nat := ls.countP fun l => l.2.loses c

theorem lost_snoc (c : C) (ls : List (T × Event C A)) (l : T × Event C A) :
    lost c (ls ++ [l]) = lost c ls + (l.2.loses c).toNat := by
  rw [lost, List.countP_append, List.countP_singleton]
  cases l.2.loses c <;> rfl

theorem loses_of_elsewhere {e : Event C A} (he : e.Elsewhere c) : e.loses c = false := by
  cases e with
  | removed c' v =>
    have hne : c' ≠ c := he
    simp [Event.loses, hne]
  | _ => rfl

/-- What `channel_send` and `channel_receive` do with the buffer of an open channel. -/
inductive BodyMove (c : C) (dir : Dir) (ch : Chan T A) (data : UInt64) : OpStep T C A → Prop
  | added {b : Buffer} (hd : dir = .send) (hroom : ch.buffer.size < ch.buffer.capacity)
      (hwf : b.Wf) (hcap : b.capacity = ch.buffer.capacity) (hsize : b.size = ch.buffer.size + 1)
      (hcontents : b.contents = ch.buffer.contents ++ [data]) : BodyMove c dir ch data
      ⟨{ ch with buffer := b }, data, .unlock, .added c data, none⟩
  | full (hd : dir = .send) (hfull : ch.buffer.capacity ≤ ch.buffer.size) :
      BodyMove c dir ch data ⟨ch, data, .errUnlock, .internal, none⟩
  | removed {b : Buffer} {v : UInt64} (hd : dir = .recv) (hwf : b.Wf)
      (hcap : b.capacity = ch.buffer.capacity) (hsize : b.size + 1 = ch.buffer.size)
      (hcontents : ch.buffer.contents = v :: b.contents) (hv : v ≠ bufferEmpty) :
      BodyMove c dir ch data ⟨{ ch with buffer := b }, v, .unlock, .removed c v, none⟩
  | lost {b : Buffer} (hd : dir = .recv) (hwf : b.Wf) (hcap : b.capacity = ch.buffer.capacity)
      (hsize : b.size + 1 = ch.buffer.size)
      (hcontents : ch.buffer.contents = bufferEmpty :: b.contents) : BodyMove c dir ch data
      ⟨{ ch with buffer := b }, data, .errUnlock, .removed c bufferEmpty, none⟩
  | empty (hd : dir = .recv) (hempty : ch.buffer.size = 0) :
      BodyMove c dir ch data ⟨ch, data, .errUnlock, .internal, none⟩

theorem body_move (hwf : ch.buffer.Wf) (hopen : ch.closed = false)
    (hr : channelOp t c dir blocking ch data .body = some r) : BodyMove c dir ch data r := by
  cases channelOp_move hr with
  | bodyClosed hc =>
    rw [hopen] at hc
    cases hc
  | @added b _ hd hb =>
    by_cases hroom : ch.buffer.size < ch.buffer.capacity
    · obtain ⟨b', hadd, hcontents, hwf', hsize, hcap⟩ := Buffer.add_spec (v := data) hwf hroom
      obtain rfl : b = b' := (Prod.mk.inj (hb.symm.trans hadd)).2
      exact .added hd hroom hwf' hcap hsize hcontents
    · rw [Buffer.add_full (Nat.le_of_not_lt hroom)] at hb
      cases hb
  | @addFailed b _ hd hb =>
    by_cases hroom : ch.buffer.size < ch.buffer.capacity
    · obtain ⟨b', hadd, -⟩ := Buffer.add_spec (v := data) hwf hroom
      rw [hb] at hadd
      cases hadd
    · rw [Buffer.add_full (Nat.le_of_not_lt hroom)] at hb
      obtain rfl := (Prod.mk.inj hb).2
      exact .full hd (Nat.le_of_not_lt hroom)
  | @removed b v _ hd hpos hb hv =>
    obtain ⟨v', b', hrem, hcontents, hwf', hsize, hcap⟩ := Buffer.remove_spec hwf hpos
    obtain ⟨rfl, rfl⟩ := Prod.mk.inj (hb.symm.trans hrem)
    exact .removed hd hwf' hcap hsize hcontents hv
  | @removeFailed b e _ hd hb he =>
    by_cases hpos : 0 < ch.buffer.size
    · obtain ⟨v', b', hrem, hcontents, hwf', hsize, hcap⟩ := Buffer.remove_spec hwf hpos
      obtain ⟨rfl, rfl⟩ := Prod.mk.inj (hb.symm.trans hrem)
      rw [if_pos hpos] at he
      subst he
      exact .lost hd hwf' hcap hsize hcontents
    · rw [Buffer.remove_empty (by omega)] at hb
      obtain rfl := (Prod.mk.inj hb).2
      rw [if_neg hpos] at he
      subst he
      exact .empty hd (by omega)

/-- The slots that `channel_create` leaves out of `available`, which has 32 bits. -/
def shortfall (cap : Nat) : Nat := cap - cap % 2 ^ 32

theorem shortfall_eq_zero (hcap : cap ≤ semValueMax) : shortfall cap = 0 := by
  unfold semValueMax at hcap
  rw [shortfall, Nat.mod_eq_of_lt (by omega), Nat.sub_self]

/-- Where `available` is initialised, it counts all slots just in the range of a semaphore. -/
theorem shortfall_eq_zero_iff (hinit : cap % 2 ^ 32 ≤ semValueMax) :
    shortfall cap = 0 ↔ cap ≤ semValueMax := by
  refine ⟨fun hzero => ?_, shortfall_eq_zero⟩
  have hle := Nat.sub_eq_zero_iff_le.mp hzero
  omega

variable [Fintype T]

/-- `n` is the number of slots that are lost so far. -/
structure Ledger (cap n : Nat) (σ : Single T A) : Prop where
  wf : σ.chan.buffer.Wf
  capacity : σ.chan.buffer.capacity = cap
  seen : ∀ t, (σ.views t).sawClosed = true → σ.chan.closed = true
  balance : σ.chan.closed = false → ∀ d,
    σ.chan.permit d + count (View.holds d) σ.views + count (View.owes d.other) σ.views +
      lostTo d n = σ.chan.buffer.room d

/-- The slots that are lost are free for nobody: there is room for the others only. -/
theorem Ledger.room_le (h : Ledger cap n σ) (hopen : σ.chan.closed = false) (d : Dir) :
    σ.chan.buffer.room d ≤ cap - n + lostTo d n := by
  have hsend : n ≤ σ.chan.buffer.capacity - σ.chan.buffer.size :=
    (Nat.le_add_left _ _).trans_eq (h.balance hopen .send)
  have hcapacity := h.capacity
  have hsize := h.wf.size_le
  cases d with
  | send =>
    show σ.chan.buffer.capacity - σ.chan.buffer.size ≤ cap - n + n
    omega
  | recv =>
    show σ.chan.buffer.size ≤ cap - n + 0
    omega

/-- A thread at the body of the critical section finds room there. -/
theorem Ledger.one_le_room (h : Ledger cap n σ) (hopen : σ.chan.closed = false)
    (hview : σ.views t = .op dir blocking data .body) : 1 ≤ σ.chan.buffer.room dir := by
  have hholds : (σ.views t).holds dir = true := by
    rw [hview]
    simp [View.holds, OpPc.holding]
  have hcount := count_pos hholds
  have hbalance := h.balance hopen dir
  omega

theorem count_stake (views : T → View A) (t : T) (v : View A) (d : Dir) :
    count (View.holds d) (Function.update views t v) +
      count (View.owes d.other) (Function.update views t v) + (views t).stake d =
      count (View.holds d) views + count (View.owes d.other) views + v.stake d := by
  have hholds := count_update (View.holds d) views t v
  have howes := count_update (View.owes d.other) views t v
  unfold View.stake
  omega

/-- A thread moves, and the buffer stays as it is. -/
theorem Ledger.move {v : View A} {ch : Chan T A} (h : Ledger cap n σ)
    (hseen : ∀ u, (Function.update σ.views t v u).sawClosed = true → ch.closed = true)
    (hbuffer : ch.buffer = σ.chan.buffer) (hclosed : ch.closed = false → σ.chan.closed = false)
    (hbalance : ch.closed = false → ∀ d,
      ch.permit d + v.stake d = σ.chan.permit d + (σ.views t).stake d) :
    Ledger cap n ⟨ch, Function.update σ.views t v⟩ where
  wf := hbuffer ▸ h.wf
  capacity := hbuffer ▸ h.capacity
  seen := hseen
  balance hopen d := by
    have hold := h.balance (hclosed hopen) d
    have hstake := count_stake σ.views t v d
    have hd := hbalance hopen d
    rw [hbuffer]
    dsimp only
    omega

/-- A thread comes to the buffer: what it held of the room on its side it now owes to
the other side, unless it lost the message. -/
theorem Ledger.body (h : Ledger cap n σ)
    (hseen : ∀ u, (Function.update σ.views t (.op dir blocking r.data r.pc) u).sawClosed = true →
      r.chan.closed = true)
    (hopen : σ.chan.closed = false) (hview : σ.views t = .op dir blocking data .body)
    (hr : channelOp t c dir blocking σ.chan data .body = some r) :
    Ledger cap (n + (r.event.loses c).toNat)
      ⟨r.chan, Function.update σ.views t (.op dir blocking r.data r.pc)⟩ := by
  have hroom := h.one_le_room hopen hview
  have hcapacity := h.capacity
  have hsize := h.wf.size_le
  -- The sum on each side, before the step and after it.
  have hmove : ∀ {b : Buffer} {v : View A} {m : Nat}, b.Wf → b.capacity = σ.chan.buffer.capacity →
      (∀ u, (Function.update σ.views t v u).sawClosed = true → σ.chan.closed = true) →
      (∀ d, σ.chan.buffer.room d + v.stake d + lostTo d m =
        b.room d + (σ.views t).stake d + lostTo d n) →
      Ledger cap m ⟨{ σ.chan with buffer := b }, Function.update σ.views t v⟩ := by
    intro b v m hwf hcap hseen hd
    refine ⟨hwf, hcap.trans h.capacity, hseen, fun _ d => ?_⟩
    have hold := h.balance hopen d
    have hstake := count_stake σ.views t v d
    have hd := hd d
    dsimp only
    omega
  cases body_move h.wf hopen hr with
  | @added b hd _ hwf hcap hsize' _ =>
    subst hd
    refine hmove hwf hcap hseen (fun d => ?_)
    have hsize'' := hwf.size_le
    rw [hview]
    cases d with
    | send =>
      show σ.chan.buffer.capacity - σ.chan.buffer.size + 0 + n = b.capacity - b.size + 1 + n
      omega
    | recv =>
      show σ.chan.buffer.size + 1 + 0 = b.size + 0 + 0
      omega
  | full hd hfull =>
    subst hd
    have hroom' : 1 ≤ σ.chan.buffer.capacity - σ.chan.buffer.size := hroom
    omega
  | @removed b v hd hwf hcap hsize' _ hv =>
    subst hd
    have hloses : ((Event.removed c v : Event C A).loses c).toNat = 0 := by
      simp [Event.loses, hv]
    rw [hloses]
    refine hmove hwf hcap hseen (fun d => ?_)
    have hsize'' := hwf.size_le
    rw [hview]
    cases d with
    | send =>
      show σ.chan.buffer.capacity - σ.chan.buffer.size + 1 + n = b.capacity - b.size + 0 + n
      omega
    | recv =>
      show σ.chan.buffer.size + 0 + 0 = b.size + 1 + 0
      omega
  | @lost b hd hwf hcap hsize' _ =>
    subst hd
    have hloses : ((Event.removed c bufferEmpty : Event C A).loses c).toNat = 1 := by
      simp [Event.loses]
    rw [hloses]
    refine hmove hwf hcap hseen (fun d => ?_)
    have hsize'' := hwf.size_le
    rw [hview]
    cases d with
    | send =>
      show σ.chan.buffer.capacity - σ.chan.buffer.size + 0 + (n + 1) = b.capacity - b.size + 0 + n
      omega
    | recv =>
      show σ.chan.buffer.size + 0 + 0 = b.size + 1 + 0
      omega
  | empty hd hempty =>
    subst hd
    have hroom' : 1 ≤ σ.chan.buffer.size := hroom
    omega

/-- On an open channel no semaphore is near its largest value. -/
theorem Ledger.semPost (h : Ledger cap n σ) (hcap : cap ≤ semValueMax + n) {d : Dir}
    (hopen : σ.chan.closed = false) (hstake : 1 ≤ (σ.views t).stake d) :
    Channels.semPost (σ.chan.permit d) = σ.chan.permit d + 1 := by
  apply semPost_of_lt
  have hbalance := h.balance hopen d
  have hroom := h.room_le hopen d
  have hsplit := count_split (View.holds d) σ.views t
  have hsplit' := count_split (View.owes d.other) σ.views t
  unfold View.stake at hstake
  omega

theorem ledger_step (hcap : cap ≤ semValueMax + n) (hstep : Single.Step c σ l σ')
    (h : Ledger cap n σ) : Ledger cap (n + (l.2.loses c).toNat) σ' := by
  have hseen := (sawClosed_step hstep h.seen).2
  cases hstep with
  | call _ _ _ hview => exact h.move hseen rfl id (fun _ d => by rw [hview]; rfl)
  | @op t dir blocking data pc r hview hr =>
    have hsaw := h.seen t
    rw [hview] at hsaw
    -- Who posts a permit of its own direction has seen the channel closed.
    have hnever : σ.chan.closed = true → σ.chan.closed = false → False :=
      fun hc hopen => Bool.false_ne_true (hopen.symm.trans hc)
    cases channelOp_move hr with
    | take hp =>
      refine h.move hseen rfl id (fun _ d => ?_)
      have hstake : (View.op dir blocking data .lock : View A).stake d =
          if dir = d then 1 else 0 := by
        by_cases hd : dir = d <;> simp [View.stake, View.holds, View.owes, OpPc.holding,
          OpPc.owing, hd]
      rw [hview, Chan.permit_takePermit, hstake]
      by_cases hd : d = dir
      · rw [if_pos hd, if_pos hd.symm, hd]
        exact Nat.sub_add_cancel hp
      · rw [if_neg hd, if_neg (Ne.symm hd)]
        rfl
    | added hopen => exact h.body hseen hopen hview hr
    | addFailed hopen => exact h.body hseen hopen hview hr
    | removed hopen => exact h.body hseen hopen hview hr
    | removeFailed hopen => exact h.body hseen hopen hview hr
    | fullPost => exact h.move hseen rfl id (fun hopen => (hnever (hsaw rfl) hopen).elim)
    | closedPost => exact h.move hseen rfl id (fun hopen => (hnever (hsaw rfl) hopen).elim)
    | postOther =>
      refine h.move hseen rfl id (fun hopen d => ?_)
      have hstake : (View.op dir blocking data .postOther : View A).stake d =
          if d = dir.other then 1 else 0 := by
        cases d <;> cases dir <;> rfl
      rw [Chan.permit_postPermit]
      by_cases hd : d = dir.other
      · rw [if_pos hd, h.semPost (t := t) hcap hopen (by rw [hview, hstake, if_pos hd]), hview,
          hstake, if_pos hd]
        rfl
      · rw [if_neg hd, hview, hstake, if_neg hd]
        rfl
    | _ => exact h.move hseen rfl id (fun _ d => by rw [hview]; rfl)
  | ret hview => exact h.move hseen rfl id (fun _ d => by rw [hview]; rfl)
  | callClose hview => exact h.move hseen rfl id (fun _ d => by rw [hview]; rfl)
  | @close t pc r hview hr =>
    have hsaw := h.seen t
    rw [hview] at hsaw
    cases channelClose_move hr with
    | close hopen => exact h.move hseen rfl Bool.noConfusion Bool.noConfusion
    | postAvailable =>
      refine h.move hseen rfl id (fun hopen => ?_)
      exact (Bool.false_ne_true (hopen.symm.trans (hsaw rfl))).elim
    | postUsed =>
      refine h.move hseen rfl id (fun hopen => ?_)
      exact (Bool.false_ne_true (hopen.symm.trans (hsaw rfl))).elim
    | _ => exact h.move hseen rfl id (fun _ d => by rw [hview]; rfl)
  | retClose hview => exact h.move hseen rfl id (fun _ d => by rw [hview]; rfl)
  | elsewhere _ he hch =>
    rw [loses_of_elsewhere he]
    exact ⟨hch.buffer ▸ h.wf, hch.buffer ▸ h.capacity, hseen,
      by rw [hch.closed, hch.permit, hch.buffer]; exact h.balance⟩

section System

variable {capacity : C → Nat} {st₀ st : State T C A} {ls : List (T × Event C A)}

theorem ledger_of_run (h₀ : Initial capacity st₀) (hrun : Transition.Run Step st₀ ls st)
    (hpos : 1 ≤ capacity c) (hslots : capacity c ≤ 2 ^ 63)
    (hinit : capacity c % 2 ^ 32 ≤ semValueMax) :
    Ledger (capacity c) (shortfall (capacity c) + lost c ls) (st.single c) := by
  obtain ⟨data, garbage, hchan, hviews⟩ := h₀.single c
  have hmod : capacity c % 2 ^ 32 + shortfall (capacity c) = capacity c :=
    Nat.add_sub_cancel' (Nat.mod_le _ _)
  refine (Run.single hrun c).history
    (fun ls => Ledger (capacity c) (shortfall (capacity c) + lost c ls)) ?_ ?_
  · refine ⟨?_, ?_, ?_, ?_⟩
    · rw [hchan]
      exact Buffer.create_wf hpos hslots
    · rw [hchan]
      rfl
    · intro t ht
      rw [hviews t] at ht
      cases ht
    · intro _ d
      rw [hchan, count_away rfl hviews, count_away rfl hviews]
      cases d with
      | send =>
        show (semInit (capacity c % 2 ^ 32)).getD garbage + 0 + 0 + (shortfall (capacity c) + 0) =
          capacity c - 0
        rw [semInit, if_pos hinit]
        exact hmod
      | recv => rfl
  · intro ls σ l σ' h hst
    rw [lost_snoc, ← Nat.add_assoc]
    exact ledger_step (by omega) hst h

/-- Up to the largest value of a semaphore `available` counts every slot. -/
theorem ledger_of_run_le (h₀ : Initial capacity st₀) (hrun : Transition.Run Step st₀ ls st)
    (hpos : 1 ≤ capacity c) (hmax : capacity c ≤ semValueMax) :
    Ledger (capacity c) (lost c ls) (st.single c) := by
  have hmax' : semValueMax = 2147483647 := rfl
  have h := ledger_of_run (c := c) h₀ hrun hpos (by omega) ((Nat.mod_le _ _).trans hmax)
  rwa [shortfall_eq_zero hmax, Nat.zero_add] at h

/-- The threads that came to the buffer in direction `d` and have not yet posted the
permit of the other direction. -/
def owers (st : State T C A) (c : C) (d : Dir) : Nat :=
  (Finset.univ.filter fun t => ((st.threads t).view c).owes d = true).card

theorem owers_eq (st : State T C A) (c : C) (d : Dir) :
    owers st c d = count (View.owes d) (st.single c).views :=
  (count_eq_card (View.owes d) (st.single c).views).symm

/-- The ledger of an open channel in a state of the system. -/
theorem ledger_balance (h₀ : Initial capacity st₀) (hrun : Transition.Run Step st₀ ls st)
    (hpos : 1 ≤ capacity c) (hslots : capacity c ≤ 2 ^ 63)
    (hinit : capacity c % 2 ^ 32 ≤ semValueMax) (hopen : (st.chans c).closed = false) (d : Dir) :
    (st.chans c).permit d + holders st c d + owers st c d.other +
      lostTo d (shortfall (capacity c) + lost c ls) = (st.chans c).buffer.room d := by
  rw [holders_eq, owers_eq]
  exact (ledger_of_run h₀ hrun hpos hslots hinit).balance hopen d

end System

end Channels
end Cmpsc473
