import Cmpsc473.Channels.Fifo

/-!
# What a select does

The attempts of a select go round its list: whole passes in which each entry would
block, and then a pass that ends at the entry for which the select returns.  An
attempt that would block moves no message and leaves the data of its entry, so a
select moves at most the one message of its last attempt.
-/

set_option linter.unusedSectionVars false

namespace Cmpsc473
namespace Channels

open Transition (Run Shown Instant)

variable {T C A : Type}

/-- An attempt on an entry: its channel, its direction and the result. -/
def Event.attempt : Event C A → List (Option C × Dir × Status)
  | .ret chan dir status _ => [(chan, dir, status)]
  | _ => []

/-- The call of `channel_select` returns. -/
def Event.ends : Event C A → Bool
  | .retSelect .. => true
  | _ => false

def Entry.turnedDown (e : Entry C) : Option C × Dir × Status := (e.chan, e.dir, .wouldblock)

/-- The attempts of `k` passes and of the first `i` entries of the next one. -/
def passes (list : List (Entry C)) (k i : Nat) : List (Option C × Dir × Status) :=
  (List.replicate k (list.map Entry.turnedDown)).flatten ++ (list.take i).map Entry.turnedDown

/-- The index of the entry that the loop of a select comes to next, before or between
its attempts. -/
def SelectPc.scanning : SelectPc A → Option Nat
  | .regLock _ | .regBody _ | .regUnlock _ | .wait => some 0
  | .scan i => some i
  | _ => none

theorem passes_succ (list : List (Entry C)) (k : Nat) :
    passes list (k + 1) 0 = passes list k list.length := by
  rw [passes, passes, List.replicate_succ', List.flatten_append, List.take_length]
  simp

theorem passes_snoc {list : List (Entry C)} {i : Nat} {entry : Entry C} (k : Nat)
    (hentry : list[i]? = some entry) :
    passes list k (i + 1) = passes list k i ++ [entry.turnedDown] := by
  obtain ⟨hi, rfl⟩ := List.getElem?_eq_some_iff.mp hentry
  rw [passes, passes, List.append_assoc, List.take_succ_eq_append_getElem hi, List.map_append]
  rfl

/-- A list of entries of a select: its channels are there, and of admissible capacities. -/
structure Listed (capacity : C → Nat) (list : List (Entry C)) : Prop where
  nonempty : list ≠ []
  length_lt : list.length < 2 ^ 64
  chans : ∀ e ∈ list, ∃ c, e.chan = some c ∧ 1 ≤ capacity c ∧ capacity c ≤ 2 ^ 63

/-- What the attempts of a select on the entries of `list`, and the messages it has
moved, have to do with where it is. -/
inductive SelectLog (list : List (Entry C)) :
    List (Option C × Dir × Status) → List (C × Dir × UInt64) → Select C A → Prop
  | scanning {s : Select C A} {k i : Nat} (hpc : s.pc.scanning = some i) (hi : i < list.length)
      (hlist : s.channelList = list) : SelectLog list (passes list k i) [] s
  | attempting {s : Select C A} {k i : Nat} {pc : OpPc A} {entry : Entry C} {c : C}
      {data : UInt64} (hpc : s.pc = .attempt i pc) (hentry : list[i]? = some entry)
      (hchan : entry.chan = some c)
      (hlist : s.channelList = list.set i { entry with data := data })
      (hdata : entry.dir = .send ∨ pc.moved = false → data = entry.data) :
      SelectLog list (passes list k i)
        (if pc.moved = true then [(c, entry.dir, data)] else []) s
  | ending {s : Select C A} {k i : Nat} {status : Status} {entry : Entry C} {c : C}
      {data : UInt64} (hstatus : s.status = some status) (hi : s.selectedIndex = i)
      (hentry : list[i]? = some entry) (hchan : entry.chan = some c)
      (hlist : s.channelList = list.set i { entry with data := data })
      (hdata : entry.dir = .send ∨ status ≠ .success → data = entry.data)
      (hblock : status ≠ .wouldblock) :
      SelectLog list (passes list k i ++ [(entry.chan, entry.dir, status)])
        (if status = .success then [(c, entry.dir, data)] else []) s

variable [DecidableEq T] [DecidableEq C] [DecidableEq A] {capacity : C → Nat}
  {list : List (Entry C)} {attempts : List (Option C × Dir × Status)}
  {moved : List (C × Dir × UInt64)} {s s' : Select C A} {st st' : State T C A} {t : T}
  {e : Event C A}

theorem Select.status_eq_none (h : s.pc.scanning.isSome = true) : s.status = none := by
  unfold Select.status
  cases hpc : s.pc <;> rw [hpc] at h <;> first | rfl | cases h

namespace SelectLog

/-- A step of the loops around the attempts. -/
theorem goto {pc pc' : SelectPc A} (h : SelectLog list attempts moved s) (hpc : s.pc = pc)
    (hsome : pc.scanning.isSome = true) (hscan : pc'.scanning = pc.scanning) :
    SelectLog list attempts moved { s with pc := pc' } := by
  subst hpc
  cases h with
  | scanning hpc hi hlist => exact .scanning (hscan.trans hpc) hi hlist
  | attempting hpc =>
    rw [hpc] at hsome
    cases hsome
  | ending hstatus =>
    rw [Select.status_eq_none hsome] at hstatus
    cases hstatus

/-- A step of the loop after the last attempt. -/
theorem gotoEnd {pc : SelectPc A} {status : Status} (h : SelectLog list attempts moved s)
    (hstatus : s.status = some status)
    (hpc : ({ s with pc := pc } : Select C A).status = some status) :
    SelectLog list attempts moved { s with pc := pc } := by
  cases h with
  | scanning hpc' =>
    rw [Select.status_eq_none (by rw [hpc']; rfl)] at hstatus
    cases hstatus
  | attempting hpc' =>
    rw [Select.status, hpc'] at hstatus
    cases hstatus
  | ending hstatus' hi hentry hchan hlist hdata hblock =>
    cases hstatus.symm.trans hstatus'
    exact .ending hpc hi hentry hchan hlist hdata hblock

/-- The channels of a list do not change. -/
theorem listed {i : Nat} {entry : Entry C} (h : SelectLog list attempts moved s)
    (hlisted : Listed capacity list) (hentry : s.channelList[i]? = some entry) :
    ∃ c, entry.chan = some c ∧ 1 ≤ capacity c ∧ capacity c ≤ 2 ^ 63 := by
  have hset : ∀ {j : Nat} {entry' : Entry C} {data : UInt64}, list[j]? = some entry' →
      s.channelList = list.set j { entry' with data := data } →
      ∃ c, entry.chan = some c ∧ 1 ≤ capacity c ∧ capacity c ≤ 2 ^ 63 := by
    intro j entry' data hentry' hl
    have hmem : entry ∈ list.set j { entry' with data := data } :=
      hl ▸ List.mem_of_getElem? hentry
    rcases List.mem_or_eq_of_mem_set hmem with hmem | rfl
    · exact hlisted.chans entry hmem
    · exact hlisted.chans entry' (List.mem_of_getElem? hentry')
  cases h with
  | scanning _ _ hl => exact hlisted.chans entry (hl ▸ List.mem_of_getElem? hentry)
  | attempting _ hentry' _ hl => exact hset hentry' hl
  | ending _ _ hentry' _ hl => exact hset hentry' hl

theorem target_ne_none {i : Nat} (h : SelectLog list attempts moved s)
    (hlisted : Listed capacity list) (hi : i < s.channelList.length) : s.target i ≠ none := by
  have hentry := List.getElem?_eq_getElem hi
  obtain ⟨c, hchan, -⟩ := h.listed hlisted hentry
  intro htarget
  simp only [Select.target, hentry, hchan, Option.map_some] at htarget
  cases htarget

/-- The scan does not run over the end of the list. -/
theorem scan_lt {i : Nat} (h : SelectLog list attempts moved s) (hpc : s.pc = .scan i) :
    i < s.channelList.length := by
  cases h with
  | scanning hpc' hi hlist =>
    rw [hpc] at hpc'
    cases hpc'
    rw [hlist]
    exact hi
  | attempting hpc' => exact absurd (hpc.symm.trans hpc') nofun
  | ending hstatus =>
    rw [Select.status, hpc] at hstatus
    cases hstatus

theorem scan {i : Nat} {entry : Entry C} (h : SelectLog list attempts moved s)
    (hlisted : Listed capacity list) (hpc : s.pc = .scan i)
    (hentry : s.channelList[i]? = some entry) :
    SelectLog list (attempts ++ []) (moved ++ [])
      { s with pc := .attempt i (startOp entry.chan) } := by
  obtain ⟨c, hchan, -⟩ := h.listed hlisted hentry
  rw [List.append_nil, List.append_nil, hchan]
  cases h with
  | @scanning s k i' hpc' hi hlist =>
    rw [hpc] at hpc'
    cases hpc'
    rw [hlist] at hentry
    have hsame : s.channelList = list.set i { entry with data := entry.data } := by
      obtain ⟨_, hget⟩ := List.getElem?_eq_some_iff.mp hentry
      rw [← hget]
      exact hlist.trans (List.set_getElem_self hi).symm
    have hlog : SelectLog list (passes list k i)
        (if (OpPc.take : OpPc A).moved = true then [(c, entry.dir, entry.data)] else [])
        { s with pc := .attempt i .take } := .attempting rfl hentry hchan hsame (fun _ => rfl)
    exact hlog
  | attempting hpc' => exact absurd (hpc.symm.trans hpc') nofun
  | ending hstatus =>
    rw [Select.status, hpc] at hstatus
    cases hstatus

/-- The attempt on an entry returns: the select ends with it, or goes on with the next
entry, or waits. -/
theorem afterAttempt {i : Nat} {status : Status} {entry : Entry C}
    (h : SelectLog list attempts moved s) (hlisted : Listed capacity list)
    (hpc : s.pc = .attempt i (.done status)) (hentry : s.channelList[i]? = some entry) :
    ∃ s', s.afterAttempt i status = .select s' ∧
      SelectLog list (attempts ++ [(entry.chan, entry.dir, status)]) moved s' := by
  cases h with
  | scanning hpc' =>
    rw [hpc] at hpc'
    cases hpc'
  | ending hstatus =>
    rw [Select.status, hpc] at hstatus
    cases hstatus
  | @attempting s k i' pc entry' c data hpc' hentry' hchan hlist hdata =>
    cases hpc.symm.trans hpc'
    have hi := (List.getElem?_eq_some_iff.mp hentry').1
    rw [hlist, List.getElem?_set_self hi, Option.some.injEq] at hentry
    subst hentry
    have hlength : s.channelList.length = list.length := by rw [hlist, List.length_set]
    simp only [moved_done]
    unfold Select.afterAttempt
    rw [hlength]
    simp only [last_index (List.length_pos_iff.mpr hlisted.nonempty) hlisted.length_lt]
    by_cases hblock : status = .wouldblock
    · subst hblock
      -- Nothing was written.
      have hsame : s.channelList = list := by
        rw [hlist, hdata (Or.inr rfl)]
        obtain ⟨_, hget⟩ := List.getElem?_eq_some_iff.mp hentry'
        rw [← hget]
        exact List.set_getElem_self hi
      have hpasses := passes_snoc k hentry'
      show ∃ s', _ ∧ SelectLog list (passes list k i ++ [entry'.turnedDown]) [] s'
      rw [← hpasses]
      by_cases hlast : i + 1 = list.length
      · rw [if_pos (Or.inr hlast), hlast, ← passes_succ]
        exact ⟨_, rfl, .scanning rfl (by omega) hsame⟩
      · rw [if_neg (not_or.mpr ⟨fun hne => hne rfl, hlast⟩)]
        exact ⟨_, rfl, .scanning rfl (by omega) hsame⟩
    · rw [if_pos (Or.inl hblock)]
      refine ⟨_, rfl, .ending ?_ rfl hentry' hchan hlist ?_ hblock⟩
      · rw [if_pos hblock]
        rfl
      · rw [Bool.eq_false_iff, Ne, moved_done] at hdata
        exact hdata

/-- A step of an attempt. -/
theorem attempt {cap i : Nat} {c : C} {pc : OpPc A} {entry : Entry C} {r : OpStep T C A}
    (h : SelectLog list attempts moved s) (hclean : Clean cap (st.single c))
    (hpc : s.pc = .attempt i pc) (hentry : s.channelList[i]? = some entry)
    (hchan : entry.chan = some c)
    (hr : channelOp t c entry.dir false (st.chans c) entry.data pc = some r) :
    SelectLog list attempts (moved ++ r.event.moved) { s with
      channelList := s.channelList.set i { entry with data := r.data }
      pc := .attempt i r.pc } := by
  cases h with
  | scanning hpc' =>
    rw [hpc] at hpc'
    cases hpc'
  | ending hstatus =>
    rw [Select.status, hpc] at hstatus
    cases hstatus
  | @attempting s k i' pc entry' c' data hpc' hentry' hchan' hlist hdata =>
    cases hpc.symm.trans hpc'
    have hi := (List.getElem?_eq_some_iff.mp hentry').1
    rw [hlist, List.getElem?_set_self hi, Option.some.injEq] at hentry
    subst hentry
    obtain rfl : c' = c := Option.some.inj (hchan'.symm.trans hchan)
    obtain ⟨hmoved, hwrite⟩ := op_moved hclean hr
    have hset : s.channelList.set i { entry' with data := r.data } =
        list.set i { entry' with data := r.data } := by rw [hlist, List.set_set]
    have hmoved : (if pc.moved = true then [(c', entry'.dir, data)] else []) ++ r.event.moved =
        if r.pc.moved = true then [(c', entry'.dir, r.data)] else [] := hmoved.symm
    have hwrite : pc.moved = true ∨ entry'.dir = .send ∨ r.pc.moved = false → r.data = data := hwrite
    rw [hmoved]
    refine .attempting rfl hentry' hchan' hset (fun hd => ?_)
    rw [hwrite (Or.inr hd)]
    refine hdata (hd.imp_right (fun hno => ?_))
    refine Bool.eq_false_iff.mpr (fun hm => ?_)
    rw [hno, hm] at hmoved
    cases hmoved

end SelectLog

/-- A step of a select in its call keeps the log. -/
theorem selectLog_step (hlisted : Listed capacity list)
    (hclean : ∀ c, 1 ≤ capacity c → capacity c ≤ 2 ^ 63 → Clean (capacity c) (st.single c))
    (hmove : SelectMove st t s e st') (hno : e.ends = false)
    (h : SelectLog list attempts moved s) : ∃ s', st'.threads t = .select s' ∧
      SelectLog list (attempts ++ e.attempt) (moved ++ e.moved) s' := by
  have hgoto : ∀ {u : State T C A} {pc : SelectPc A} (pc' : SelectPc A), s.pc = pc →
      pc.scanning.isSome = true → pc'.scanning = pc.scanning →
      ∃ s', (u.setThread t (s.goto pc')).threads t = .select s' ∧
        SelectLog list (attempts ++ []) (moved ++ []) s' := by
    intro u pc pc' hpc hsome hscan
    rw [List.append_nil, List.append_nil]
    exact ⟨_, Function.update_self t _ _, h.goto hpc hsome hscan⟩
  have hend : ∀ {u : State T C A} {status : Status} (pc' : SelectPc A), s.status = some status →
      ({ s with pc := pc' } : Select C A).status = some status →
      ∃ s', (u.setThread t (s.goto pc')).threads t = .select s' ∧
        SelectLog list (attempts ++ []) (moved ++ []) s' := by
    intro u status pc' hstatus hpc
    rw [List.append_nil, List.append_nil]
    exact ⟨_, Function.update_self t _ _, h.gotoEnd hstatus hpc⟩
  cases hmove with
  | regCrash _ hi htarget => exact absurd htarget (h.target_ne_none hlisted hi)
  | regLock hpc => exact hgoto _ hpc rfl rfl
  | regDone hpc => exact hgoto _ hpc rfl rfl
  | regFound hpc => exact hgoto _ hpc rfl rfl
  | regInsert hpc => exact hgoto _ hpc rfl rfl
  | regRefused hpc => exact hgoto _ hpc rfl rfl
  | regUnlock hpc => exact hgoto _ hpc rfl rfl
  | @scanCrash i hpc hentry =>
    have hlt := h.scan_lt hpc
    rw [List.getElem?_eq_getElem hlt] at hentry
    cases hentry
  | scan hpc hentry => exact ⟨_, Function.update_self t _ _, h.scan hlisted hpc hentry⟩
  | @attempt i entry c pc r hpc hentry hchan hr =>
    obtain ⟨c', hc', hpos, hmax⟩ := h.listed hlisted hentry
    obtain rfl : c' = c := Option.some.inj (hc'.symm.trans hchan)
    have hattempt : r.event.attempt = [] := by
      rcases channelOp_event hr with he | ⟨v, he⟩ | ⟨v, he⟩ <;> rw [he] <;> rfl
    rw [hattempt, List.append_nil]
    exact ⟨_, Function.update_self t _ _, h.attempt (hclean c' hpos hmax) hpc hentry hchan hr⟩
  | attemptDone hpc hentry =>
    obtain ⟨s', hs', hlog⟩ := h.afterAttempt hlisted hpc hentry
    exact ⟨s', (Function.update_self t _ _).trans hs', (List.append_nil moved).symm ▸ hlog⟩
  | wait hpc => exact hgoto _ hpc rfl rfl
  | remCrash _ hi htarget => exact absurd htarget (h.target_ne_none hlisted hi)
  | remLock hpc => exact hend _ (by rw [Select.status, hpc]) rfl
  | remDone hpc => exact hend _ (by rw [Select.status, hpc]) rfl
  | remBody hpc => exact hend _ (by rw [Select.status, hpc]) rfl
  | remUnlock hpc => exact hend _ (by rw [Select.status, hpc]) rfl
  | destroy => cases hno

/-! ## The entry that a select has chosen -/

/-- The select has moved a message for entry `i`, or has ended its last attempt there. -/
def Select.Commits (i : Nat) (s : Select C A) : Prop :=
  (∃ pc, s.pc = .attempt i pc ∧ pc.moved = true) ∨ s.status.isSome = true ∧ s.selectedIndex = i

theorem moved_step {c : C} {dir : Dir} {blocking : Bool} {ch : Chan T A} {data : UInt64}
    {pc : OpPc A} {r : OpStep T C A} (hr : channelOp t c dir blocking ch data pc = some r)
    (h : pc.moved = true) : r.pc.moved = true := by
  cases channelOp_move hr with
  | unlock => rfl
  | postOther => rfl
  | listLock => rfl
  | notifyEnd => rfl
  | notify => rfl
  | _ => cases h

theorem commits_step {i : Nat} (hmove : SelectMove st t s e st') (h : s.Commits i)
    (hs' : st'.threads t = .select s') : s'.Commits i := by
  have hend : ∀ {u : State T C A} {status : Status} {pc : SelectPc A}, s.status = some status →
      (u.setThread t (s.goto pc)).threads t = .select s' →
      ({ s with pc := pc } : Select C A).status = some status → s'.Commits i := by
    intro u status pc hstatus hu hpc
    rw [State.threads_setThread_self] at hu
    cases hu
    rcases h with ⟨pc', hpc', -⟩ | ⟨-, hi⟩
    · rw [Select.status, hpc'] at hstatus
      cases hstatus
    · exact Or.inr ⟨by rw [hpc]; rfl, hi⟩
  -- Before the last attempt there is nothing to keep.
  have hearly : ∀ {pc : SelectPc A}, s.pc = pc → pc.scanning.isSome = true → s'.Commits i := by
    intro pc hpc hsome
    subst hpc
    rcases h with ⟨pc', hpc', -⟩ | ⟨hstatus, -⟩
    · rw [hpc'] at hsome
      cases hsome
    · rw [Select.status_eq_none hsome] at hstatus
      cases hstatus
  cases hmove with
  | regCrash hpc => exact hearly hpc rfl
  | regLock hpc => exact hearly hpc rfl
  | regDone hpc => exact hearly hpc rfl
  | regFound hpc => exact hearly hpc rfl
  | regInsert hpc => exact hearly hpc rfl
  | regRefused hpc => exact hearly hpc rfl
  | regUnlock hpc => exact hearly hpc rfl
  | scanCrash hpc => exact hearly hpc rfl
  | scan hpc => exact hearly hpc rfl
  | wait hpc => exact hearly hpc rfl
  | @attempt j entry c pc r hpc hentry hchan hr =>
    rw [State.threads_setThread_self] at hs'
    cases hs'
    rcases h with ⟨pc', hpc', hmoved⟩ | ⟨hstatus, -⟩
    · cases hpc.symm.trans hpc'
      exact Or.inl ⟨r.pc, rfl, moved_step hr hmoved⟩
    · rw [Select.status, hpc] at hstatus
      cases hstatus
  | @attemptDone j entry status hpc hentry =>
    rw [State.threads_setThread_self] at hs'
    rcases h with ⟨pc', hpc', hmoved⟩ | ⟨hstatus, -⟩
    · cases hpc.symm.trans hpc'
      obtain rfl := (moved_done status).mp hmoved
      rw [Select.afterAttempt, if_pos (Or.inl (by decide))] at hs'
      cases hs'
      exact Or.inr ⟨rfl, rfl⟩
    · rw [Select.status, hpc] at hstatus
      cases hstatus
  | remLock hpc => exact hend (by rw [Select.status, hpc]) hs' rfl
  | remDone hpc => exact hend (by rw [Select.status, hpc]) hs' rfl
  | remBody hpc => exact hend (by rw [Select.status, hpc]) hs' rfl
  | remUnlock hpc => exact hend (by rw [Select.status, hpc]) hs' rfl
  | remCrash =>
    rw [State.threads_setThread_self] at hs'
    cases hs'
  | destroy =>
    rw [State.threads_setThread_self] at hs'
    cases hs'

section System

/-- The attempts of a thread in a run. -/
def attemptsOf (t : T) (ls : List (T × Event C A)) : List (Option C × Dir × Status) :=
  ls.flatMap fun l => if l.1 = t then l.2.attempt else []

/-- What a thread added to channels and removed from them in a run. -/
def movedBy (t : T) (ls : List (T × Event C A)) : List (C × Dir × UInt64) :=
  ls.flatMap fun l => if l.1 = t then l.2.moved else []

/-- The thread is in the call of a select over `list`, which began where `ls` did. -/
structure InSelect (capacity : C → Nat) (list : List (Entry C)) (t : T)
    (ls : List (T × Event C A)) (st : State T C A) : Prop where
  clean : ∀ c, 1 ≤ capacity c → capacity c ≤ 2 ^ 63 → Clean (capacity c) (st.single c)
  log : ∃ s, st.threads t = .select s ∧ SelectLog list (attemptsOf t ls) (movedBy t ls) s

theorem inSelect_step {l : T × Event C A} {ls : List (T × Event C A)}
    (hlisted : Listed capacity list) (hstep : Step st l st') (hproper : l.2.Proper)
    (hno : l.1 = t → l.2.ends = false) (h : InSelect capacity list t ls st) :
    InSelect capacity list t (ls ++ [l]) st' := by
  obtain ⟨u, e⟩ := l
  refine ⟨fun c hpos hmax => clean_step (hstep.single c) hproper (h.clean c hpos hmax), ?_⟩
  obtain ⟨s, hs, hlog⟩ := h.log
  have hattempts : attemptsOf t (ls ++ [(u, e)]) =
      attemptsOf t ls ++ if u = t then e.attempt else [] := by
    rw [attemptsOf, List.flatMap_append]
    simp [attemptsOf]
  have hmoved : movedBy t (ls ++ [(u, e)]) = movedBy t ls ++ if u = t then e.moved else [] := by
    rw [movedBy, List.flatMap_append]
    simp [movedBy]
  rw [hattempts, hmoved]
  by_cases hut : u = t
  · subst hut
    rw [if_pos rfl, if_pos rfl]
    exact selectLog_step hlisted h.clean (hstep.move.of_select hs) (hno rfl) hlog
  · rw [if_neg hut, if_neg hut, List.append_nil, List.append_nil,
      hstep.move.threads_of_ne (Ne.symm hut)]
    exact ⟨s, hs, hlog⟩

variable {st₀ st₁ st₂ : State T C A} {ls₀ ls : List (T × Event C A)} {addr : A}
  {ps qs : List (State T C A × (T × Event C A))} {status : Status} {i : Nat}

/-- The steps of a run that are those of a call of `channel_select`: the messages are
proper, and the call does not return. -/
def Inside (t : T) (ps : List (State T C A × (T × Event C A))) : Prop :=
  ∀ p ∈ ps, p.2.2.Proper ∧ (p.2.1 = t → p.2.2.ends = false)

theorem inSelect_of_run (hlisted : Listed capacity list) (hrun : Run (Shown Step) st₁ ps st)
    (hinside : Inside t ps) (h : InSelect capacity list t ls st₁) :
    InSelect capacity list t (ls ++ ps.map Prod.snd) st := by
  induction hrun with
  | nil =>
    rw [List.map_nil, List.append_nil]
    exact h
  | @snoc u v ps p _ hst ih =>
    have hlast := hinside p (List.mem_append_right _ List.mem_cons_self)
    have hold := ih (fun q hq => hinside q (List.mem_append_left _ hq))
    rw [List.map_append, ← List.append_assoc]
    exact inSelect_step hlisted hst.2 hlast.1 hlast.2 hold

theorem commits_of_run (hlisted : Listed capacity list) (hrun : Run (Shown Step) st₁ ps st)
    (hinside : Inside t ps) (h : InSelect capacity list t ls st₁)
    (hcommits : ∀ s, st₁.threads t = .select s → s.Commits i) :
    ∀ s, st.threads t = .select s → s.Commits i := by
  induction hrun with
  | nil => exact hcommits
  | @snoc u v ps p hrun hst ih =>
    have hold := fun q hq => hinside q (List.mem_append_left _ hq)
    obtain ⟨s, hs, -⟩ := (inSelect_of_run hlisted hrun hold h).log
    obtain ⟨_, t', e⟩ := p
    obtain ⟨rfl, hst⟩ := hst
    intro s' hs'
    by_cases hut : t = t'
    · subst hut
      exact commits_step (hst.move.of_select hs) (ih hold s hs) hs'
    · rw [hst.move.threads_of_ne hut] at hs'
      exact ih hold s' hs'

/-- A select leaves the data of the entries but the one that it commits to. -/
theorem SelectLog.getElem?_of_ne (h : SelectLog list attempts moved s)
    (hcommits : ∀ j, s.Commits j → j = i) {j : Nat} (hj : j ≠ i) :
    s.channelList[j]? = list[j]? := by
  cases h with
  | scanning _ _ hlist => rw [hlist]
  | @attempting s k i' pc entry c data hpc hentry _ hlist hdata =>
    rw [hlist]
    by_cases hij : i' = j
    · have hmoved : pc.moved = false := by
        refine Bool.eq_false_iff.mpr (fun hm => hj ?_)
        exact hij.symm.trans (hcommits i' (Or.inl ⟨pc, hpc, hm⟩))
      rw [← hij, List.getElem?_set_self (List.getElem?_eq_some_iff.mp hentry).1, hentry,
        hdata (Or.inr hmoved)]
    · exact List.getElem?_set_ne hij
  | ending hstatus hi _ _ hlist =>
    have hchosen := hcommits _ (Or.inr ⟨by rw [hstatus]; rfl, hi⟩)
    rw [hlist]
    exact List.getElem?_set_ne (fun hij => hj (hij.symm.trans hchosen))

theorem Step.callSelect_thread (h : Step st (t, .callSelect list addr) st') :
    list.length < 2 ^ 64 ∧ ∃ n, st'.threads t =
      .select { channelList := list, addr, selectedIndex := n, pc := .regLock 0 } := by
  generalize he : (Event.callSelect list addr : Event C A) = e at h
  cases h.move with
  | callSelect _ _ n _ _ hcount =>
    cases he
    exact ⟨hcount, n, Function.update_self t _ _⟩
  | op _ hr =>
    rcases channelOp_event hr with hr | ⟨v, hr⟩ | ⟨v, hr⟩ <;>
    · rw [hr] at he
      cases he
  | select ht hmove =>
    cases hmove with
    | attempt _ _ _ hr =>
      rcases channelOp_event hr with hr | ⟨v, hr⟩ | ⟨v, hr⟩ <;>
      · rw [hr] at he
        cases he
    | _ => cases he
  | _ => cases he

/-- The start of a call of `channel_select`. -/
theorem inSelect_start (h₀ : Initial capacity st₀) (hbefore : Run Step st₀ ls₀ st₁)
    (hcall : Step st₁ (t, .callSelect list addr) st₂) (hproper : ∀ l ∈ ls₀, l.2.Proper)
    (hlisted : Listed capacity list) : InSelect capacity list t [] st₂ := by
  refine ⟨fun c hpos hmax => clean_of_run h₀ (hbefore.snoc hcall) ?_ hpos hmax, ?_⟩
  · intro l hl
    rcases List.mem_append.mp hl with hl | hl
    · exact hproper l hl
    · rw [List.mem_singleton.mp hl]
      trivial
  · obtain ⟨-, n, hthread⟩ := hcall.callSelect_thread
    refine ⟨_, hthread, ?_⟩
    show SelectLog list (passes list 0 0) [] _
    exact .scanning rfl (List.length_pos_iff.mpr hlisted.nonempty) rfl

/-- A select returns for the first entry of its last pass that would not block: it has
moved at most one message, on that entry's channel and in its direction, and has left
the data of all other entries.  What a step is said to have moved is what it does to the
buffers. -/
theorem select_one_operation (h₀ : Initial capacity st₀) (hbefore : Run Step st₀ ls₀ st₁)
    (hcall : Step st₁ (t, .callSelect list addr) st₂) (hnonempty : list ≠ [])
    (hchans : ∀ e ∈ list, ∃ c, e.chan = some c ∧ 1 ≤ capacity c ∧ capacity c ≤ 2 ^ 63)
    (hproper : ∀ l ∈ ls₀, l.2.Proper) (hduring : Run (Shown Step) st₂ ps st)
    (hinside : Inside t ps) (hret : Step st (t, .retSelect status i) st') :
    ∃ entry c k data s, list[i]? = some entry ∧ entry.chan = some c ∧ status ≠ .wouldblock ∧
      attemptsOf t (ps.map Prod.snd) = passes list k i ++ [(some c, entry.dir, status)] ∧
      movedBy t (ps.map Prod.snd) =
        (if status = .success then [(c, entry.dir, data)] else []) ∧
      st.threads t = .select s ∧ s.channelList = list.set i { entry with data := data } ∧
      (entry.dir = .send ∨ status ≠ .success → data = entry.data) ∧
      (∀ qs u, Instant Step st₂ ps st qs u → ∃ s', u.threads t = .select s' ∧
        ∀ j, j ≠ i → s'.channelList[j]? = list[j]?) ∧
      ∀ qs u l v, Instant Step st₂ ps st qs u → Step u l v → ∀ c, 1 ≤ capacity c →
        capacity c ≤ 2 ^ 63 → (u.chans c).buffer.contents ++ addedTo c [l] =
          removedFrom c [l] ++ (v.chans c).buffer.contents := by
  have hlisted : Listed capacity list := ⟨hnonempty, hcall.callSelect_thread.1, hchans⟩
  have hstart := inSelect_start h₀ hbefore hcall hproper hlisted
  obtain ⟨-, s, hs, hpc, hi⟩ := hret.retSelect_thread
  have hfinal := inSelect_of_run hlisted hduring hinside hstart
  obtain ⟨s', hs', hlog⟩ := hfinal.log
  cases hs.symm.trans hs'
  -- Whatever the select commits to on its way is the entry that it returns.
  have hkept : ∀ qs u, Instant Step st₂ ps st qs u → ∃ s', u.threads t = .select s' ∧
      ∀ j, j ≠ i → s'.channelList[j]? = list[j]? := by
    intro qs u ⟨rs, heq, hqs, hrs⟩
    have hqs' : Inside t qs := fun p hp => hinside p (heq ▸ List.mem_append_left _ hp)
    have hrs' : Inside t rs := fun p hp => hinside p (heq ▸ List.mem_append_right _ hp)
    have hu := inSelect_of_run hlisted hqs hqs' hstart
    obtain ⟨s', hs', hlog'⟩ := hu.log
    refine ⟨s', hs', fun j hj => hlog'.getElem?_of_ne (fun j' hj' => ?_) hj⟩
    have hcommits := commits_of_run hlisted hrs hrs' hu
      (fun s'' hs'' => by cases hs'.symm.trans hs''; exact hj') s hs
    rcases hcommits with ⟨pc, hpc', -⟩ | ⟨-, hj'⟩
    · rw [hpc] at hpc'
      cases hpc'
    · exact hj'.symm.trans hi
  have hbuffers : ∀ qs u l v, Instant Step st₂ ps st qs u → Step u l v → ∀ c, 1 ≤ capacity c →
      capacity c ≤ 2 ^ 63 → (u.chans c).buffer.contents ++ addedTo c [l] =
        removedFrom c [l] ++ (v.chans c).buffer.contents := by
    intro qs u l v ⟨rs, heq, hqs, _⟩ hstep c hpos hmax
    have hqs' : Inside t qs := fun p hp => hinside p (heq ▸ List.mem_append_left _ hp)
    have hu := inSelect_of_run hlisted hqs hqs' hstart
    exact fifo_step (hstep.single c) (hu.clean c hpos hmax)
  generalize hattempts : attemptsOf t ([] ++ ps.map Prod.snd) = attempts at hlog
  generalize hmoved : movedBy t ([] ++ ps.map Prod.snd) = moved at hlog
  rw [List.nil_append] at hattempts hmoved
  cases hlog with
  | scanning hpc' =>
    rw [hpc] at hpc'
    cases hpc'
  | attempting hpc' =>
    rw [hpc] at hpc'
    cases hpc'
  | @ending s k i' status' entry c data hstatus hi' hentry hchan hlist hdata hblock =>
    obtain rfl : i' = i := hi'.symm.trans hi
    rw [Select.status, hpc] at hstatus
    cases hstatus
    rw [hchan] at hattempts
    exact ⟨entry, c, k, data, s, hentry, hchan, hblock, hattempts, hmoved, hs, hlist, hdata, hkept,
      hbuffers⟩

/-- A select that sends on `pair`. -/
theorem select_one_operation_send : ∃ ps st, Run (Shown Step)
      ((pair.setLocal () (some 0)).setThread true (.select
        { channelList := [⟨some (), true, 7⟩], addr := (), selectedIndex := 0, pc := .regLock 0 }))
      ps st ∧
    ∃ k data, attemptsOf true (ps.map Prod.snd) =
        passes [⟨some (), true, 7⟩] k 0 ++ [(some (), .send, .success)] ∧
      movedBy true (ps.map Prod.snd) = [((), .send, data)] := by
  have hcall : Step pair (true, .callSelect [⟨some (), true, 7⟩] ()) _ :=
    Step.callSelect _ () 0 rfl rfl (by decide)
  have h₁ := ((Run.nil pair).snoc hcall).here_shown.snoc_shown (Step.run (t := true) true rfl)
  have h₂ := h₁.snoc_shown (Step.run (t := true) true rfl)
  have h₃ := h₂.snoc_shown (Step.run (t := true) true rfl)
  have hreg := h₃.snoc_shown (Step.run (t := true) true rfl)
  have hscan := hreg.snoc_shown (Step.run (t := true) true rfl)
  have h₄ := hscan.snoc_shown (Step.run (t := true) true rfl)
  have h₅ := h₄.snoc_shown (Step.run (t := true) true rfl)
  have h₆ := h₅.snoc_shown (Step.run (t := true) true rfl)
  have h₇ := h₆.snoc_shown (Step.run (t := true) true rfl)
  have h₈ := h₇.snoc_shown (Step.run (t := true) true rfl)
  have h₉ := h₈.snoc_shown (Step.run (t := true) true rfl)
  have hattempt := h₉.snoc_shown (Step.run (t := true) true rfl)
  have hdone := hattempt.snoc_shown (Step.run (t := true) true rfl)
  have hrem := hdone.snoc_shown (Step.run (t := true) true rfl)
  have h₁' := hrem.snoc_shown (Step.run (t := true) true rfl)
  have h₂' := h₁'.snoc_shown (Step.run (t := true) true rfl)
  have hend := h₂'.snoc_shown (Step.run (t := true) true rfl)
  have hlist : ∀ e ∈ [(⟨some (), true, 7⟩ : Entry Unit)],
      ∃ c, e.chan = some c ∧ 1 ≤ 1 ∧ 1 ≤ 2 ^ 63 := by
    intro e he
    exact ⟨(), by rw [List.mem_singleton.mp he], by decide, by decide⟩
  have hone := fun hinside => select_one_operation pair_initial (Run.nil pair) hcall (by simp) hlist
    nofun hend hinside (Step.run (t := true) true rfl)
  obtain ⟨entry, c, k, data, s, hentry, hchan, -, hattempts, hmoved, -⟩ := hone (by
    intro p hp
    simp only [List.nil_append, List.mem_append, List.mem_singleton, or_assoc] at hp
    rcases hp with rfl | rfl | rfl | rfl | rfl | rfl | rfl | rfl | rfl | rfl | rfl | rfl | rfl |
      rfl | rfl | rfl | rfl
    case inr.inr.inr.inr.inl => exact ⟨(by decide : (7 : UInt64) ≠ bufferEmpty), fun _ => rfl⟩
    all_goals exact ⟨trivial, fun _ => rfl⟩)
  cases hentry
  exact ⟨_, _, hend, k, data, hattempts, hmoved⟩

end System

end Channels
end Cmpsc473
