import Cmpsc473.Channels.Single
import Cmpsc473.Library.Census

/-!
# The critical section, and the chain of wake-ups on a closed channel

`mutex` and the threads in the critical section add up to one.  A closed channel
never runs out of permits for good: each permit that a thread takes there is
posted again, and the closer posts the first (`domino_step`).  Nothing here
depends on what the messages are.
-/

set_option linter.unusedSectionVars false

namespace Cmpsc473
namespace Channels

open Census

variable {T C A : Type}

def OpPc.inCritical : OpPc A → Bool
  | .fullCheck | .fullUnlock _ | .body | .closedUnlock | .errUnlock | .unlock => true
  | _ => false

def ClosePc.inCritical : ClosePc A → Bool
  | .body | .errUnlock | .post _ | .unlock => true
  | _ => false

/-- Inside the critical section. -/
def View.inCritical : View A → Bool
  | .op _ _ _ pc => pc.inCritical
  | .close pc => pc.inCritical
  | .away => false

def OpPc.holding : OpPc A → Bool
  | .lock | .body | .closedUnlock | .closedPost => true
  | _ => false

/-- An operation of direction `d` that took a permit, did not come to the buffer
yet and did not post the permit again. -/
def View.holds (d : Dir) : View A → Bool
  | .op dir _ _ pc => pc.holding && decide (dir = d)
  | _ => false

def ClosePc.closing (d : Dir) : ClosePc A → Bool
  | .post .send => true
  | .post .recv => decide (d = .recv)
  | _ => false

/-- A closer that has yet to post the permit of direction `d`. -/
def View.closing (d : Dir) : View A → Bool
  | .close pc => pc.closing d
  | _ => false

def OpPc.sawClosed : OpPc A → Bool
  | .fullUnlock closed => closed
  | .fullPost | .closedUnlock | .closedPost | .done .closedError => true
  | _ => false

def ClosePc.sawClosed : ClosePc A → Bool
  | .lock | .body | .done .otherError => false
  | _ => true

/-- A thread that found the channel closed, or closed it. -/
def View.sawClosed : View A → Bool
  | .op _ _ _ pc => pc.sawClosed
  | .close pc => pc.sawClosed
  | .away => false

variable [DecidableEq T] [DecidableEq C] [DecidableEq A] {c : C} {σ σ' : Single T A}
  {l : T × Event C A}

/-- A channel is not opened again, and a thread that saw it closed is right. -/
theorem sawClosed_step (hstep : Single.Step c σ l σ')
    (h : ∀ t, (σ.views t).sawClosed = true → σ.chan.closed = true) :
    (σ.chan.closed = true → σ'.chan.closed = true) ∧
      ∀ t, (σ'.views t).sawClosed = true → σ'.chan.closed = true := by
  -- A thread that moves has seen no more than what `closed` says.
  have hmove : ∀ {t : T} {v : View A} {ch : Chan T A},
      (σ.chan.closed = true → ch.closed = true) → (v.sawClosed = true → ch.closed = true) →
      (σ.chan.closed = true → ch.closed = true) ∧
        ∀ u, (Function.update σ.views t v u).sawClosed = true → ch.closed = true := by
    intro t v ch hmono hv
    refine ⟨hmono, fun u hu => ?_⟩
    by_cases hut : u = t
    · rw [hut, Function.update_self] at hu
      exact hv hu
    · rw [Function.update_of_ne hut] at hu
      exact hmono (h u hu)
  cases hstep with
  | call => exact hmove id nofun
  | @op t dir blocking data pc r hview hr =>
    have hold := h t
    rw [hview] at hold
    cases channelOp_move hr with
    | fullCheck => exact hmove id id
    | fullClosedSend => exact hmove id hold
    | fullClosedRecv => exact hmove id hold
    | fullPost => exact hmove id hold
    | bodyClosed hc => exact hmove id (fun _ => hc)
    | closedUnlock => exact hmove id hold
    | closedPost => exact hmove id hold
    | _ => exact hmove id nofun
  | ret => exact hmove id nofun
  | callClose => exact hmove id nofun
  | @close t pc r hview hr =>
    have hold := h t
    rw [hview] at hold
    cases channelClose_move hr with
    | lock => exact hmove id nofun
    | already hc => exact hmove id (fun _ => hc)
    | close => exact hmove (fun _ => rfl) (fun _ => rfl)
    | _ => exact hmove id (fun _ => hold rfl)
  | retClose => exact hmove id nofun
  | elsewhere _ _ hch =>
    rw [hch.closed]
    exact ⟨id, fun u hu => h u hu⟩

variable [Fintype T]

/-- `mutex` is a mutex: it is free, or one thread is in the critical section. -/
def Exclusive (σ : Single T A) : Prop := σ.chan.mutex + count View.inCritical σ.views = 1

theorem exclusive_step (hstep : Single.Step c σ l σ') (h : Exclusive σ) : Exclusive σ' := by
  unfold Exclusive at h ⊢
  have hsem : semPost σ.chan.mutex = σ.chan.mutex + 1 :=
    semPost_of_lt (by unfold semValueMax; omega)
  have hmove : ∀ {t : T} {v : View A} {m : Nat},
      m + v.inCritical.toNat = σ.chan.mutex + (σ.views t).inCritical.toNat →
      m + count View.inCritical (Function.update σ.views t v) = 1 := by
    intro t v m hm
    have hcount := count_update View.inCritical σ.views t v
    omega
  cases hstep with
  | call _ _ _ hview => exact hmove (by rw [hview]; rfl)
  | op hview hr =>
    cases channelOp_move hr with
    | fullLock hm => exact hmove (by rw [hview]; exact Nat.sub_add_cancel hm)
    | lock hm => exact hmove (by rw [hview]; exact Nat.sub_add_cancel hm)
    | fullOpen => exact hmove (by rw [hview]; exact hsem)
    | fullClosedSend => exact hmove (by rw [hview]; exact hsem)
    | fullClosedRecv => exact hmove (by rw [hview]; exact hsem)
    | closedUnlock => exact hmove (by rw [hview]; exact hsem)
    | errUnlock => exact hmove (by rw [hview]; exact hsem)
    | unlock => exact hmove (by rw [hview]; exact hsem)
    | _ => exact hmove (by rw [hview]; rfl)
  | ret hview => exact hmove (by rw [hview]; rfl)
  | callClose hview => exact hmove (by rw [hview]; rfl)
  | close hview hr =>
    cases channelClose_move hr with
    | lock hm => exact hmove (by rw [hview]; exact Nat.sub_add_cancel hm)
    | errUnlock => exact hmove (by rw [hview]; exact hsem)
    | unlock => exact hmove (by rw [hview]; exact hsem)
    | _ => exact hmove (by rw [hview]; rfl)
  | retClose hview => exact hmove (by rw [hview]; rfl)
  | elsewhere _ _ hch =>
    rw [hch.mutex]
    exact h

/-- The permits of a closed channel: those posted, those that threads still have
to post, and the one that the closer has to post. -/
def Domino (σ : Single T A) : Prop :=
  σ.chan.closed = true → ∀ d,
    1 ≤ σ.chan.permit d + count (View.holds d) σ.views + count (View.closing d) σ.views

/-- The tokens of direction `d` that a thread has. -/
def View.tokens (d : Dir) (v : View A) : Nat := (v.holds d).toNat + (v.closing d).toNat

theorem domino_step (hstep : Single.Step c σ l σ') (h : Domino σ) : Domino σ' := by
  have hmove : ∀ {t : T} {v : View A} {ch : Chan T A}, ch.closed = σ.chan.closed →
      (∀ d, 1 ≤ ch.permit d ∨
        σ.chan.permit d + (σ.views t).tokens d ≤ ch.permit d + v.tokens d) →
      Domino ⟨ch, Function.update σ.views t v⟩ := by
    intro t v ch hclosed hd hc d
    have hold := h (hclosed ▸ hc) d
    have hholds := count_update (View.holds d) σ.views t v
    have hclosing := count_update (View.closing d) σ.views t v
    have hd := hd d
    unfold View.tokens at hd
    dsimp only
    omega
  -- A step that only moves a thread without tokens, and one that posts a permit.
  have hquiet : ∀ {t : T} {v : View A} {ch : Chan T A}, ch.closed = σ.chan.closed →
      ch.permit = σ.chan.permit → (∀ d, (σ.views t).tokens d ≤ v.tokens d) →
      Domino ⟨ch, Function.update σ.views t v⟩ := by
    intro t v ch hclosed hp hd
    refine hmove hclosed (fun d => Or.inr ?_)
    rw [hp]
    exact Nat.add_le_add_left (hd d) _
  have hpost : ∀ {t : T} {v : View A} (e : Dir),
      (∀ d, d ≠ e → (σ.views t).tokens d ≤ v.tokens d) →
      Domino ⟨σ.chan.postPermit e, Function.update σ.views t v⟩ := by
    intro t v e hd
    refine hmove rfl (fun d => ?_)
    rw [Chan.permit_postPermit]
    by_cases hde : d = e
    · rw [if_pos hde]
      exact Or.inl (one_le_semPost _)
    · rw [if_neg hde]
      exact Or.inr (Nat.add_le_add_left (hd d hde) _)
  cases hstep with
  | call _ _ _ hview => exact hquiet rfl rfl (fun d => by rw [hview]; exact Nat.zero_le _)
  | @op t dir blocking data pc r hview hr =>
    cases channelOp_move hr with
    | take hp =>
      refine hmove rfl (fun d => Or.inr ?_)
      rw [hview, Chan.permit_takePermit]
      by_cases hd : d = dir
      · rw [if_pos hd, hd]
        simp only [View.tokens, View.holds, View.closing, OpPc.holding]
        simp
        omega
      · rw [if_neg hd]
        exact Nat.add_le_add_left (Nat.zero_le _) _
    | fullPost => exact hpost dir (fun d _ => by rw [hview]; exact Nat.zero_le _)
    | closedPost =>
      refine hpost dir (fun d hd => ?_)
      rw [hview]
      simp [View.tokens, View.holds, View.closing, Ne.symm hd]
    | postOther => exact hpost dir.other (fun d _ => by rw [hview]; exact Nat.zero_le _)
    | added hopen => exact fun hc => absurd hc (by rw [hopen]; exact Bool.false_ne_true)
    | addFailed hopen => exact fun hc => absurd hc (by rw [hopen]; exact Bool.false_ne_true)
    | removed hopen => exact fun hc => absurd hc (by rw [hopen]; exact Bool.false_ne_true)
    | removeFailed hopen => exact fun hc => absurd hc (by rw [hopen]; exact Bool.false_ne_true)
    | _ => exact hquiet rfl rfl (fun d => by rw [hview]; exact Nat.le_refl _)
  | ret hview => exact hquiet rfl rfl (fun d => by rw [hview]; exact Nat.le_refl _)
  | callClose hview => exact hquiet rfl rfl (fun d => by rw [hview]; exact Nat.zero_le _)
  | @close t pc r hview hr =>
    cases channelClose_move hr with
    | close =>
      intro hc d
      have hcloser : View.closing d (.close (.post .send) : View A) = true := rfl
      have hcount := count_update (View.closing d) σ.views t (.close (.post .send))
      rw [hcloser, hview, Bool.toNat_true] at hcount
      have hnone : (View.closing d (.close .body : View A)).toNat = 0 := rfl
      rw [hnone] at hcount
      dsimp only
      omega
    | postAvailable =>
      refine hpost .send (fun d hd => ?_)
      rw [hview]
      cases d with
      | send => exact absurd rfl hd
      | recv => exact Nat.le_refl _
    | postUsed =>
      refine hpost .recv (fun d hd => ?_)
      rw [hview]
      cases d with
      | send => exact Nat.le_refl _
      | recv => exact absurd rfl hd
    | _ => exact hquiet rfl rfl (fun d => by rw [hview]; exact Nat.le_refl _)
  | retClose hview => exact hquiet rfl rfl (fun d => by rw [hview]; exact Nat.le_refl _)
  | elsewhere _ _ hch =>
    intro hc d
    rw [hch.permit]
    exact h (hch.closed ▸ hc) d

omit [DecidableEq A] [Fintype T] in
/-- Inside the critical section nothing blocks. -/
theorem inCritical_canStep {t : T} (h : (σ.views t).inCritical = true) : σ.CanStep c t := by
  cases hview : σ.views t with
  | away =>
    rw [hview] at h
    cases h
  | op dir blocking data pc =>
    rw [hview] at h
    have hstep : ∃ r, channelOp t c dir blocking σ.chan data pc = some r := by
      cases pc with
      | fullCheck => exact ⟨_, rfl⟩
      | fullUnlock => exact ⟨_, rfl⟩
      | body =>
        simp only [channelOp]
        split
        · exact ⟨_, rfl⟩
        · exact ⟨_, rfl⟩
      | closedUnlock => exact ⟨_, rfl⟩
      | errUnlock => exact ⟨_, rfl⟩
      | unlock => exact ⟨_, rfl⟩
      | _ => cases h
    obtain ⟨r, hr⟩ := hstep
    exact Or.inl ⟨dir, blocking, data, pc, r, hview, hr⟩
  | close pc =>
    rw [hview] at h
    have hstep : ∃ r, channelClose t σ.chan pc = some r := by
      cases pc with
      | body =>
        simp only [channelClose]
        split
        · exact ⟨_, rfl⟩
        · exact ⟨_, rfl⟩
      | errUnlock => exact ⟨_, rfl⟩
      | post dir => cases dir <;> exact ⟨_, rfl⟩
      | unlock => exact ⟨_, rfl⟩
      | _ => cases h
    obtain ⟨r, hr⟩ := hstep
    exact Or.inr ⟨pc, r, hview, hr⟩

/-- A thread that waits for a permit of a closed channel is not stuck: it, a thread
that holds a permit, a thread in the critical section or the closer can go on. -/
theorem domino_canStep {t : T} {dir : Dir} {data : UInt64}
    (hmutex : Exclusive σ) (hdomino : Domino σ)
    (hclosed : σ.chan.closed = true) (hwait : σ.views t = .op dir true data .take) :
    ∃ u, σ.CanStep c u := by
  have htokens := hdomino hclosed dir
  by_cases hp : 0 < σ.chan.permit dir
  · have hr : channelOp t c dir true σ.chan data .take = some _ := if_pos hp
    exact ⟨t, Or.inl ⟨_, _, _, _, _, hwait, hr⟩⟩
  by_cases hcloser : 1 ≤ count (View.closing dir) σ.views
  · obtain ⟨u, hu⟩ := exists_of_count_pos hcloser
    refine ⟨u, inCritical_canStep ?_⟩
    cases hview : σ.views u with
    | close pc =>
      rw [hview] at hu
      cases pc with
      | post => rfl
      | _ => cases hu
    | _ =>
      rw [hview] at hu
      cases hu
  have hholder : 1 ≤ count (View.holds dir) σ.views := by omega
  obtain ⟨u, hu⟩ := exists_of_count_pos hholder
  cases hview : σ.views u with
  | op dir' blocking data' pc =>
    rw [hview] at hu
    cases pc with
    | lock =>
      by_cases hm : 0 < σ.chan.mutex
      · have hr : channelOp u c dir' blocking σ.chan data' .lock = some _ := if_pos hm
        exact ⟨u, Or.inl ⟨_, _, _, _, _, hview, hr⟩⟩
      · have hinside : 1 ≤ count View.inCritical σ.views := by
          unfold Exclusive at hmutex
          omega
        obtain ⟨v, hv⟩ := exists_of_count_pos hinside
        exact ⟨v, inCritical_canStep hv⟩
    | body =>
      refine ⟨u, inCritical_canStep ?_⟩
      rw [hview]
      rfl
    | closedUnlock =>
      refine ⟨u, inCritical_canStep ?_⟩
      rw [hview]
      rfl
    | closedPost => exact ⟨u, Or.inl ⟨_, _, _, _, _, hview, rfl⟩⟩
    | _ => cases hu
  | _ =>
    rw [hview] at hu
    cases hu

section System

variable {cap : C → Nat} {st₀ st : State T C A} {ls : List (T × Event C A)}

theorem count_away {p : View A → Bool} {views : T → View A} (hp : p .away = false)
    (h : ∀ t, views t = .away) : count p views = 0 :=
  count_eq_zero.mpr (fun t => by rw [h t]; exact hp)

theorem exclusive_of_run (h₀ : Initial cap st₀) (hrun : Transition.Run Step st₀ ls st) (c : C) :
    Exclusive (st.single c) := by
  obtain ⟨data, garbage, hchan, hviews⟩ := h₀.single c
  have hstart : Exclusive (st₀.single c) := by
    unfold Exclusive
    rw [hchan, count_away rfl hviews]
    rfl
  exact (Run.single hrun c).invariant hstart (fun _ _ _ h hst => exclusive_step hst h)

theorem domino_of_run (h₀ : Initial cap st₀) (hrun : Transition.Run Step st₀ ls st) (c : C) :
    Domino (st.single c) := by
  obtain ⟨data, garbage, hchan, hviews⟩ := h₀.single c
  have hstart : Domino (st₀.single c) := by
    intro hc
    rw [hchan] at hc
    cases hc
  exact (Run.single hrun c).invariant hstart (fun _ _ _ h hst => domino_step hst h)

/-- The threads in `channel_send` (in `channel_receive`) that have taken a permit of
`available` (of `used`), not come to the buffer, and not posted the permit again. -/
def holders (st : State T C A) (c : C) (d : Dir) : Nat :=
  (Finset.univ.filter fun t => ((st.threads t).view c).holds d = true).card

/-- One as long as the thread that closed the channel has not posted its permit of
direction `d`. -/
def closerPending (st : State T C A) (c : C) (d : Dir) : Nat :=
  if ∃ t, ((st.threads t).view c).closing d = true then 1 else 0

theorem holders_eq (st : State T C A) (c : C) (d : Dir) :
    holders st c d = count (View.holds d) (st.single c).views :=
  (count_eq_card (View.holds d) (st.single c).views).symm

/-- On a closed channel there is always a permit, a thread that will post one again,
or the closer that will post the first; and a thread that waits for a permit is
never left with no thread of the system able to go on. -/
theorem close_leaves_nobody_stuck (h₀ : Initial cap st₀) (hrun : Transition.Run Step st₀ ls st)
    (c : C) (hclosed : (st.chans c).closed = true) :
    1 ≤ (st.chans c).available + holders st c .send + closerPending st c .send ∧
      1 ≤ (st.chans c).used + holders st c .recv + closerPending st c .recv ∧
      ∀ t dir data, (st.threads t).view c = .op dir true data .take →
        ¬ ∀ u alloc, next st u alloc = none := by
  have hdomino := domino_of_run h₀ hrun c
  have hpermit : ∀ d, 1 ≤ (st.chans c).permit d + holders st c d + closerPending st c d := by
    intro d
    have h := hdomino hclosed d
    rw [← holders_eq] at h
    unfold closerPending
    split
    · omega
    · rename_i hno
      have hzero : count (View.closing d) (st.single c).views = 0 :=
        count_eq_zero.mpr (fun t => Bool.eq_false_iff.mpr (fun ht => hno ⟨t, ht⟩))
      rw [hzero] at h
      exact h
  refine ⟨hpermit .send, hpermit .recv, ?_⟩
  intro t dir data hwait hstuck
  obtain ⟨u, hu⟩ := domino_canStep (c := c) (exclusive_of_run h₀ hrun c) hdomino hclosed hwait
  obtain ⟨e, st', hnext⟩ := hu.next true
  rw [hstuck u true] at hnext
  cases hnext

/-- A receiver that waits on an empty channel when it is closed. -/
theorem close_leaves_nobody_stuck_receiver :
    ∃ ls st, Transition.Run Step pair ls st ∧ (st.chans ()).closed = true ∧
      (st.threads true).view () = .op .recv true 0 .take ∧
      1 ≤ (st.chans ()).used + holders st () .recv + closerPending st () .recv ∧
      ¬ ∀ u alloc, next st u alloc = none := by
  have hrecv := (Transition.Run.nil pair).snoc (Step.call (t := true) (some ()) .recv 0 true rfl)
  have hcall := hrecv.snoc (Step.callClose (t := false) (some ()) rfl)
  have hlock := hcall.snoc (Step.run (t := false) true rfl)
  have hbody := hlock.snoc (Step.run (t := false) true rfl)
  have h := close_leaves_nobody_stuck pair_initial hbody () rfl
  exact ⟨_, _, hbody, rfl, rfl, h.2.1, h.2.2 true .recv 0 rfl⟩

end System

end Channels
end Cmpsc473
