import Cmpsc473.Channels.Frozen
import Cmpsc473.Channels.Ledger

/-!
# What `WOULDBLOCK` says

A non-blocking call returns `WOULDBLOCK` when it finds no permit.  That tells the
truth about the buffer just as far as no other thread has a permit on its way: one
that stopped between `sem_wait` and the buffer, or between the buffer and `sem_post`,
makes a channel look full, or empty, that is not.
-/

set_option linter.unusedSectionVars false

namespace Cmpsc473
namespace Channels

open Transition (Run Shown Instant)

variable {T C A : Type} [DecidableEq T] [DecidableEq C] [DecidableEq A]

/-- What `WOULDBLOCK` is documented to mean: the channel is full for those that send, and
empty for those that receive. -/
def Buffer.Blocks (b : Buffer) (cap : Nat) : Dir → Prop
  | .send => b.size = cap
  | .recv => b.size = 0

variable {c : C} {σ σ' : Single T A} {l : T × Event C A}

/-- The step that closes a channel leaves its buffer. -/
theorem closing_step_buffer (hstep : Single.Step c σ l σ') (hopen : σ.chan.closed = false)
    (hc : σ'.chan.closed = true) : σ'.chan.buffer = σ.chan.buffer := by
  have hsame : ∀ {ch : Chan T A}, ch.closed = σ.chan.closed → ch.closed = true → False :=
    fun h h' => Bool.false_ne_true (hopen.symm.trans (h.symm.trans h'))
  cases hstep with
  | op _ hr => cases channelOp_move hr <;> exact (hsame rfl hc).elim
  | close _ hr => cases channelClose_move hr <;> rfl
  | elsewhere _ _ hch => exact hch.buffer
  | _ => rfl

section System

variable {capacity : C → Nat} {st₀ st st' s : State T C A} {ls : List (T × Event C A)}
  {ps qs : List (State T C A × (T × Event C A))} {t : T} {dir : Dir}

/-- A run that closes a channel was before that in a state with the same buffer. -/
theorem open_instant (hrun : Run (Shown Step) st ps st') (hopen : (st.chans c).closed = false)
    (hc : (st'.chans c).closed = true) : ∃ qs s, Instant Step st ps st' qs s ∧
      (s.chans c).closed = false ∧ (s.chans c).buffer = (st'.chans c).buffer := by
  induction hrun with
  | nil => exact absurd (hopen.symm.trans hc) nofun
  | @snoc u v ps p hrun hst ih =>
    have hlast : Run (Shown Step) u [p] v := by
      have h := (Run.nil u).snoc hst
      exact h
    cases hu : (u.chans c).closed with
    | true =>
      obtain ⟨qs, s, hs, hs', hbuffer⟩ := ih hu
      refine ⟨qs, s, hs.append hlast, hs', hbuffer.trans ?_⟩
      exact (frozen_step (hst.2.single c) hu).2.symm
    | false =>
      refine ⟨ps, u, (Instant.last hrun).append hlast, hu, ?_⟩
      exact (closing_step_buffer (hst.2.single c) hu hc).symm

variable [Fintype T]

/-- No permit of direction `d` is to be had, and none is on its way: no thread holds
one, none owes one, and none of `n` lost slots was one. -/
structure Settled (st : State T C A) (c : C) (d : Dir) (n : Nat) : Prop where
  permit : (st.chans c).permit d = 0
  holders : holders st c d = 0
  owers : owers st c d.other = 0
  lost : lostTo d n = 0

/-- No slot is lost to those that send if `available` counts all of them and no message
took one with it. -/
theorem lostTo_eq_zero_iff {cap n : Nat} (hinit : cap % 2 ^ 32 ≤ semValueMax) (d : Dir) :
    lostTo d (shortfall cap + n) = 0 ↔ lostTo d n = 0 ∧ (d = .send → cap ≤ semValueMax) := by
  have hshort := shortfall_eq_zero_iff hinit
  cases d with
  | send =>
    show shortfall cap + n = 0 ↔ n = 0 ∧ _
    rw [Nat.add_eq_zero_iff, hshort, and_comm]
    exact and_congr_right fun _ => ⟨fun h _ => h, fun h => h rfl⟩
  | recv => exact ⟨fun h => ⟨h, nofun⟩, fun h => h.1⟩

theorem blocks_iff (h₀ : Initial capacity st₀) (hrun : Run Step st₀ ls st)
    (hpos : 1 ≤ capacity c) (hslots : capacity c ≤ 2 ^ 63)
    (hinit : capacity c % 2 ^ 32 ≤ semValueMax) (hopen : (st.chans c).closed = false) (d : Dir) :
    (st.chans c).buffer.Blocks (capacity c) d ↔
      Settled st c d (lost c ls) ∧ (d = .send → capacity c ≤ semValueMax) := by
  have hledger := ledger_of_run (c := c) h₀ hrun hpos hslots hinit
  have hcapacity : (st.chans c).buffer.capacity = capacity c := hledger.capacity
  have hsize : (st.chans c).buffer.size ≤ (st.chans c).buffer.capacity := hledger.wf.size_le
  have hroom : (st.chans c).buffer.Blocks (capacity c) d ↔ (st.chans c).buffer.room d = 0 := by
    cases d with
    | send =>
      show (st.chans c).buffer.size = _ ↔ (st.chans c).buffer.capacity - _ = 0
      omega
    | recv => exact Iff.rfl
  have hbalance := ledger_balance (c := c) h₀ hrun hpos hslots hinit hopen d
  have hlost := lostTo_eq_zero_iff (n := lost c ls) hinit d
  rw [hroom, ← hbalance]
  constructor
  · intro h
    obtain ⟨hzero, hmax⟩ := hlost.mp (by omega)
    exact ⟨⟨by omega, by omega, by omega, hzero⟩, hmax⟩
  · intro ⟨⟨h₁, h₂, h₃, h₄⟩, hmax⟩
    have hzero := hlost.mpr ⟨h₄, hmax⟩
    omega

/-- `WOULDBLOCK` tells the truth exactly when, at some instant of the call, the channel
was open and no permit of the call's kind was to be had or on its way; and, for a send,
when `available` counted all slots from the start. -/
theorem wouldblock_iff (h₀ : Initial capacity st₀) (hrun : Run Step st₀ ls st)
    (hpos : 1 ≤ capacity c) (hslots : capacity c ≤ 2 ^ 63)
    (hinit : capacity c % 2 ^ 32 ≤ semValueMax) {data data' : UInt64}
    {st'' : State T C A} (hcall : (st.threads t).view c = .op dir false data .take)
    (hduring : Run (Shown Step) st ps st') (hno : NoReturn t (ps.map Prod.snd))
    (hret : Step st' (t, .ret (some c) dir .wouldblock data') st'') :
    (∃ qs s, Instant Step st ps st' qs s ∧ (s.chans c).buffer.Blocks (capacity c) dir) ↔
      ∃ qs s, Instant Step st ps st' qs s ∧ (s.chans c).closed = false ∧
        Settled s c dir (lost c (ls ++ qs.map Prod.snd)) ∧
        (dir = .send → capacity c ≤ semValueMax) := by
  -- A call that starts on a closed channel does not return `WOULDBLOCK`.
  have hopen : (st.chans c).closed = false := by
    refine Bool.eq_false_iff.mpr (fun hc => ?_)
    have hrefused : Refused t (st'.single c) :=
      refused_of_run hduring.forget hno ⟨hc, (congrArg View.turnedAway hcall).trans rfl⟩
    obtain ⟨blocking, hview⟩ := (hret.single c).ret_view
    have haway := hrefused.2
    rw [hview] at haway
    cases haway
  have hiff : ∀ {qs s}, Instant Step st ps st' qs s → (s.chans c).closed = false →
      ((s.chans c).buffer.Blocks (capacity c) dir ↔
        Settled s c dir (lost c (ls ++ qs.map Prod.snd)) ∧
        (dir = .send → capacity c ≤ semValueMax)) := by
    intro qs s ⟨_, _, hqs, _⟩ hs
    exact blocks_iff h₀ (hrun.append hqs.forget) hpos hslots hinit hs dir
  constructor
  · rintro ⟨qs, s, hs, hblocks⟩
    cases hc : (s.chans c).closed with
    | false => exact ⟨qs, s, hs, hc, (hiff hs hc).mp hblocks⟩
    | true =>
      obtain ⟨rs, rfl, hqs, hrs⟩ := hs
      obtain ⟨qs', s', hs', hopen', hbuffer⟩ := open_instant hqs hopen hc
      have hs'' := hs'.append hrs
      rw [← hbuffer] at hblocks
      exact ⟨qs', s', hs'', hopen', (hiff hs'' hopen').mp hblocks⟩
  · rintro ⟨qs, s, hs, hc, hsettled⟩
    exact ⟨qs, s, hs, (hiff hs hc).mpr hsettled⟩

/-- On `pair` one thread takes the only permit to send and stops; the other tries to
send, while the buffer is empty. -/
theorem stopped_sender : ∃ ls st ps st' st'', Run Step pair ls st ∧
    (st.threads false).view () = .op .send false 8 .take ∧ Run (Shown Step) st ps st' ∧
    NoReturn false (ps.map Prod.snd) ∧
    Step st' (false, .ret (some ()) .send .wouldblock 8) st'' ∧
    ∀ qs s, Instant Step st ps st' qs s → (s.chans ()).buffer.size = 0 := by
  have hcall := (Run.nil pair).snoc (Step.call (t := true) (some ()) .send 7 true rfl)
  have htake := hcall.snoc (Step.run (t := true) true rfl)
  have hcall' := htake.snoc (Step.call (t := false) (some ()) .send 8 false rfl)
  -- `sem_trywait` fails, then the lock, the check of `closed`, and the unlock.
  have hfull := hcall'.here_shown.snoc_shown (Step.run (t := false) true rfl)
  have hlock := hfull.snoc_shown (Step.run (t := false) true rfl)
  have hcheck := hlock.snoc_shown (Step.run (t := false) true rfl)
  have hunlock := hcheck.snoc_shown (Step.run (t := false) true rfl)
  refine ⟨_, _, _, _, _, hcall', rfl, hunlock, ?_, Step.run (t := false) true rfl, ?_⟩
  · simp [NoReturn, Event.returns]
  · intro qs s hs
    rcases hs.mem with rfl | ⟨p, hp, rfl⟩
    · rfl
    · simp only [List.nil_append, List.mem_append, List.mem_singleton] at hp
      rcases hp with ((rfl | rfl) | rfl) | rfl <;> rfl

/-- The send returns `WOULDBLOCK`, and the channel was never full. -/
theorem wouldblock_lies : ¬ ∀ ls st ps st' st'' t data, Run Step pair ls st →
    (st.threads t).view () = .op .send false data .take → Run (Shown Step) st ps st' →
    NoReturn t (ps.map Prod.snd) → Step st' (t, .ret (some ()) .send .wouldblock data) st'' →
    ∃ qs s, Instant Step st ps st' qs s ∧ (s.chans ()).buffer.Blocks 1 .send := by
  intro h
  obtain ⟨ls, st, ps, st', st'', hrun, hcall, hduring, hno, hret, hempty⟩ := stopped_sender
  obtain ⟨qs, s, hs, hfull⟩ := h ls st ps st' st'' false 8 hrun hcall hduring hno hret
  have hfull : (s.chans ()).buffer.size = 1 := hfull
  rw [hempty qs s hs] at hfull
  cases hfull

theorem wouldblock_iff_stopped : ∃ ls st ps st', Run Step pair ls st ∧ Run (Shown Step) st ps st' ∧
    ((∃ qs s, Instant Step st ps st' qs s ∧ (s.chans ()).buffer.Blocks 1 .send) ↔
      ∃ qs s, Instant Step st ps st' qs s ∧ (s.chans ()).closed = false ∧
        Settled s () .send (lost () (ls ++ qs.map Prod.snd)) ∧
        (Dir.send = .send → 1 ≤ semValueMax)) := by
  obtain ⟨ls, st, ps, st', st'', hrun, hcall, hduring, hno, hret, -⟩ := stopped_sender
  exact ⟨ls, st, ps, st', hrun, hduring, wouldblock_iff pair_initial hrun (by decide) (by decide)
    (by decide) hcall hduring hno hret⟩

end System

end Channels
end Cmpsc473
