import Cmpsc473.Channels.Registry

/-!
# Whose semaphores are in the waiter lists

Each node of a waiter list is the semaphore of a running select that has an entry for
that list, so a semaphore of a select that has returned is never posted.
-/

set_option linter.unusedSectionVars false

namespace Cmpsc473
namespace Channels

open Transition (Run)

variable {T C A : Type} [DecidableEq T] [DecidableEq C] [DecidableEq A] {c : C}
  {st st' : State T C A} {t : T} {s : Select C A} {e : Event C A} {a : A}

/-- The next step posts the semaphore at `a`. -/
def View.Posts (a : A) : View A → Prop
  | .op _ _ _ (.notify (b :: _)) => b = a
  | .close (.notify _ (b :: _)) => b = a
  | _ => False

theorem ticket_eq {k : WaitList.Ticket (C × Dir) A} (h : (st.waits.views t).ticket = some k) :
    ∃ s, st.threads t = .select s ∧ s.ticket = k := by
  have h : (st.threads t).waits.ticket = some k := h
  cases ht : st.threads t with
  | select s =>
    rw [ht] at h
    exact ⟨s, rfl, Option.some.inj h⟩
  | _ =>
    rw [ht] at h
    cases h

theorem select_ticket (h : st.threads t = .select s) :
    (st.waits.views t).ticket = some s.ticket := by
  show (st.threads t).waits.ticket = _
  rw [h]
  rfl

/-- The entry of a select that waits on a list. -/
theorem Select.waitsOn_entry {i : Nat} {d : Dir} (h : s.waitsOn i = some (c, d)) :
    ∃ entry : Entry C, s.channelList[i]? = some entry ∧ entry.chan = some c ∧
      entry.dir = d.other := by
  simp only [Select.waitsOn, Select.target, Option.map_eq_some_iff, Prod.exists, Prod.mk.injEq] at h
  obtain ⟨c', d', htarget, rfl, rfl⟩ := h
  cases hentry : s.channelList[i]? with
  | none =>
    rw [hentry] at htarget
    cases htarget
  | some entry =>
    simp only [hentry, Option.map_eq_some_iff, Prod.mk.injEq] at htarget
    obtain ⟨c'', hc'', rfl, rfl⟩ := htarget
    exact ⟨entry, rfl, hc'', (Dir.other_other _).symm⟩

namespace Registered

theorem node (h : Registered st) {d : Dir} (ha : a ∈ (st.chans c).list d) :
    ∃ (t : T) (s : Select C A) (i : Nat) (entry : Entry C), st.threads t = .select s ∧
      s.addr = a ∧ (st.locals a).isSome = true ∧ s.channelList[i]? = some entry ∧
      entry.chan = some c ∧ entry.dir = d.other := by
  obtain ⟨t, k, i, hk, rfl, -, -, hwaits⟩ := h.inv.owned (c, d) a ha
  have hlive := h.inv.live t k hk
  obtain ⟨s, hs, rfl⟩ := ticket_eq hk
  obtain ⟨entry, hentry, hchan, hdir⟩ := Select.waitsOn_entry hwaits
  exact ⟨t, s, i, entry, hs, rfl, hlive, hentry, hchan, hdir⟩

theorem distinct (h : Registered st) {u : T} {s' : Select C A} (hs : st.threads t = .select s)
    (hs' : st.threads u = .select s') (haddr : s.addr = s'.addr) : t = u :=
  h.inv.distinct t u s.ticket s'.ticket (select_ticket hs) (select_ticket hs') haddr

theorem left (h : Registered st) {status : Status} (hs : st.threads t = .select s)
    (hpc : s.pc = .destroy status) (c : C) (d : Dir) : s.addr ∉ (st.chans c).list d := by
  refine h.inv.not_mem (select_ticket hs) ?_ (c, d)
  show s.pc.removed _ = _
  rw [hpc]
  rfl

/-- What is posted is the semaphore of a running select. -/
theorem posts (h : Registered st) (hposts : ((st.threads t).view c).Posts a) :
    ∃ u s, st.threads u = .select s ∧ s.addr = a ∧ (st.locals a).isSome = true := by
  have hview : ∃ ℓ, (st.waits.views t).lock = some ℓ ∧ a ∈ (st.waits.views t).rest := by
    cases hv : (st.threads t).view c with
    | away =>
      rw [hv] at hposts
      cases hposts
    | op dir blocking data pc =>
      rw [hv] at hposts
      cases pc with
      | notify rest =>
        cases rest with
        | nil => cases hposts
        | cons b rest =>
          obtain rfl : b = a := hposts
          have hwaits : ∃ k, (st.threads t).waits = ⟨k, some (c, dir), b :: rest⟩ := by
            rcases view_eq_op hv with ht | ⟨s, i, entry, ht, hpc, hentry, hchan, rfl, -, -⟩
            · rw [ht]
              exact ⟨none, rfl⟩
            · rw [ht]
              refine ⟨_, Select.waits_attempt hpc ?_⟩
              simp only [Select.target, hentry, hchan, Option.map_some]
          obtain ⟨k, hk⟩ := hwaits
          exact ⟨(c, dir), congrArg WaitList.View.lock hk,
            (congrArg WaitList.View.rest hk).symm ▸ List.mem_cons_self⟩
      | _ => cases hposts
    | close pc =>
      rw [hv] at hposts
      have ht := view_eq_close hv
      cases pc with
      | notify dir rest =>
        cases rest with
        | nil => cases hposts
        | cons b rest =>
          obtain rfl : b = a := hposts
          have hk : (st.threads t).waits = ⟨none, some (c, dir), b :: rest⟩ := by
            rw [ht]
            rfl
          exact ⟨(c, dir), congrArg WaitList.View.lock hk,
            (congrArg WaitList.View.rest hk).symm ▸ List.mem_cons_self⟩
      | _ => cases hposts
  obtain ⟨ℓ, hlock, hrest⟩ := hview
  obtain ⟨u, k, hk, rfl⟩ := h.inv.rest_owned hlock hrest
  have hlive := h.inv.live u k hk
  obtain ⟨s, hs, rfl⟩ := ticket_eq hk
  exact ⟨u, s, hs, rfl, hlive⟩

/-- A step of a select leaves the nodes of the others in their order. -/
theorem others (h : Registered st) (hs : st.threads t = .select s) (hstep : Step st (t, e) st')
    (hadm : e.Admissible) (c : C) (d : Dir) :
    ((st'.chans c).list d).filter (fun b => decide (b ≠ s.addr)) =
      ((st.chans c).list d).filter fun b => decide (b ≠ s.addr) := by
  refine (hstep.waits hadm h.good).filter_list (fun k hk => ?_) (c, d)
  rw [select_ticket hs] at hk
  cases hk
  exact decide_eq_false (fun hne => hne rfl)

/-- A step of a thread that is not in a select leaves the lists. -/
theorem lists (h : Registered st) (hs : ∀ s, st.threads t ≠ .select s)
    (hstep : Step st (t, e) st') (hadm : e.Admissible) (c : C) (d : Dir) :
    (st'.chans c).list d = (st.chans c).list d := by
  have hfilter := (hstep.waits hadm h.good).filter_list (p := fun _ => true) (fun k hk => ?_) (c, d)
  · rw [List.filter_eq_self.mpr (fun _ _ => rfl),
      List.filter_eq_self.mpr (fun _ _ => rfl)] at hfilter
    exact hfilter
  · obtain ⟨s, hs', -⟩ := ticket_eq hk
    exact absurd hs' (hs s)

end Registered

variable {capacity : C → Nat} {st₀ : State T C A} {ls : List (T × Event C A)}

/-- Each node of a waiter list is the semaphore of a running select with an entry for that
list, and there is one for each select; a select that returns has none left; selects
leave each other's nodes; and only semaphores of running selects are posted. -/
theorem waiters_are_running (h₀ : Initial capacity st₀) (hrun : Run Step st₀ ls st)
    (hadm : ∀ l ∈ ls, l.2.Admissible) :
    (∀ c d a, a ∈ (st.chans c).list d → ∃ (t : T) (s : Select C A) (i : Nat) (entry : Entry C),
      st.threads t = .select s ∧ s.addr = a ∧ (st.locals a).isSome = true ∧
      s.channelList[i]? = some entry ∧ entry.chan = some c ∧ entry.dir = d.other) ∧
    (∀ t u s s', st.threads t = .select s → st.threads u = .select s' → s.addr = s'.addr → t = u) ∧
    (∀ c d t s, st.threads t = .select s → ((st.chans c).list d).count s.addr ≤ 1) ∧
    (∀ t status i st', Step st (t, .retSelect status i) st' → ∃ s, st.threads t = .select s ∧
      ∀ c d, s.addr ∉ (st.chans c).list d ∧ s.addr ∉ (st'.chans c).list d) ∧
    (∀ t s e st', st.threads t = .select s → Step st (t, e) st' → e.Admissible → ∀ c d,
      ((st'.chans c).list d).filter (fun b => decide (b ≠ s.addr)) =
        ((st.chans c).list d).filter fun b => decide (b ≠ s.addr)) ∧
    (∀ t e st', (∀ s, st.threads t ≠ .select s) → Step st (t, e) st' → e.Admissible → ∀ c d,
      (st'.chans c).list d = (st.chans c).list d) ∧
    (∀ t c a, ((st.threads t).view c).Posts a →
      ∃ u s, st.threads u = .select s ∧ s.addr = a ∧ (st.locals a).isSome = true) := by
  have h := registered_of_run h₀ hrun hadm
  refine ⟨?_, ?_, ?_, ?_, ?_, ?_, ?_⟩
  · exact fun c d a ha => h.node ha
  · exact fun t u s s' hs hs' haddr => h.distinct hs hs' haddr
  · exact fun c d t s _ => List.nodup_iff_count_le_one.mp (h.inv.nodup (c, d)) s.addr
  · intro t status i st' hret
    obtain ⟨hchans, s, hs, hpc, -⟩ := hret.retSelect_thread
    refine ⟨s, hs, fun c d => ⟨h.left hs hpc c d, ?_⟩⟩
    rw [hchans]
    exact h.left hs hpc c d
  · exact fun t s e st' hs hstep hadm' c d => h.others hs hstep hadm' c d
  · exact fun t e st' hs hstep hadm' c d => h.lists hs hstep hadm' c d
  · exact fun t c a hposts => h.posts hposts

/-- A select with a receive entry has put its semaphore into `send_list`. -/
theorem waiters_are_running_receiver : ∃ ls st, Run Step pair ls st ∧
    () ∈ (st.chans ()).list .send ∧
    ((st.chans ()).list .send).count () ≤ 1 ∧
    ∃ (t : Bool) (s : Select Unit Unit) (i : Nat) (entry : Entry Unit), st.threads t = .select s ∧
      s.addr = () ∧ (st.locals ()).isSome = true ∧ s.channelList[i]? = some entry ∧
      entry.chan = some () ∧ entry.dir = Dir.recv := by
  have hcall := (Run.nil pair).snoc
    (Step.callSelect (t := true) [⟨some (), false, 0⟩] () 0 rfl rfl (by decide))
  have hlock := hcall.snoc (Step.run (t := true) true rfl)
  have hbody := hlock.snoc (Step.run (t := true) true rfl)
  have hadm : ∀ l ∈ ([] ++ [(true, Event.callSelect [⟨some (), false, 0⟩] ())] ++
      [(true, Event.internal)] ++ [(true, Event.alloc true)] : List (Bool × Event Unit Unit)),
      l.2.Admissible := by
    intro l hl
    simp only [List.nil_append, List.cons_append, List.mem_cons, List.not_mem_nil, or_false] at hl
    rcases hl with rfl | rfl | rfl
    · exact ⟨nofun, by simp⟩
    · trivial
    · rfl
  have h := waiters_are_running pair_initial hbody hadm
  have hmem : () ∈ ([()] : List Unit) := List.mem_cons_self
  exact ⟨_, _, hbody, hmem, h.2.2.1 () .send true _ rfl, h.1 () .send () hmem⟩

end Channels
end Cmpsc473
