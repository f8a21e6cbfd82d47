import Cmpsc473.Library.Transition
import Mathlib.Data.List.Nodup
import Mathlib.Logic.Function.Basic

/-!
# Waiter lists

Threads put an address of their own into several lists, each under the lock of the
list, and later take it out of all of them; other threads walk a list under its lock
and use the addresses that they find.  An address is live from before it is put into
the first list until after it is taken out of the last.

The invariant says whose the nodes are: each one belongs to a thread that has not yet
taken it out, so that a walker only meets live addresses; a list has one node for each
thread, even when the thread names the list twice; and what a thread has put in stays
there until it begins to take out.
-/

set_option linter.unusedSectionVars false

namespace WaitList

open Function (update)

variable {T L A : Type}

/-- The entries of a thread: `addr` is put into their lists in order, and was put into
those before `hi`; it is taken out of them in order, and was taken out of those
before `lo`. -/
@[ext]
structure Ticket (L A : Type) where
  addr : A
  entry : Nat → Option L
  count : Nat
  lo : Nat
  hi : Nat

/-- A thread: its entries, the list whose lock it holds, and the nodes that it has yet
to visit there. -/
structure View (L A : Type) where
  ticket : Option (Ticket L A)
  lock : Option L
  rest : List A

@[ext]
structure State (T L A : Type) where
  list : L → List A
  lock : L → Option T
  live : A → Bool
  views : T → View L A

variable [DecidableEq T] [DecidableEq L] [DecidableEq A]

namespace State

/-- The thread puts its address into a list. -/
def put (s : State T L A) (t : T) (k : Ticket L A) (ℓ : L) : State T L A :=
  { s with
    list := update s.list ℓ ((s.list ℓ).insert k.addr)
    views := update s.views t ⟨some { k with hi := k.hi + 1 }, some ℓ, []⟩ }

/-- The thread takes its address out of a list. -/
def takeOut (s : State T L A) (t : T) (k : Ticket L A) (ℓ : L) : State T L A :=
  { s with
    list := update s.list ℓ ((s.list ℓ).erase k.addr)
    views := update s.views t ⟨some { k with lo := k.lo + 1 }, some ℓ, []⟩ }

/-- The thread comes with an address. -/
def enter (s : State T L A) (t : T) (k : Ticket L A) : State T L A :=
  { s with live := update s.live k.addr true, views := update s.views t ⟨some k, none, []⟩ }

/-- The thread gives its address up. -/
def leave (s : State T L A) (t : T) (k : Ticket L A) : State T L A :=
  { s with live := update s.live k.addr false, views := update s.views t ⟨none, none, []⟩ }

end State

/-- The steps of a thread `t`. -/
inductive Step : State T L A → T → State T L A → Prop
  | quiet {s : State T L A} {t : T} : Step s t s
  | enter {s : State T L A} {t : T} {k : Ticket L A} (hv : s.views t = ⟨none, none, []⟩)
      (hfree : s.live k.addr = false) (hhi : k.hi = 0) : Step s t (s.enter t k)
  | acquire {s : State T L A} {t : T} {k : Option (Ticket L A)} {ℓ : L} {rest : List A}
      (hv : s.views t = ⟨k, none, []⟩) (hfree : s.lock ℓ = none) (hrest : rest <:+ s.list ℓ) :
      Step s t
      { s with lock := update s.lock ℓ (some t), views := update s.views t ⟨k, some ℓ, rest⟩ }
  | walk {s : State T L A} {t : T} {k : Option (Ticket L A)} {ℓ : L} {a : A} {rest : List A}
      (hv : s.views t = ⟨k, some ℓ, a :: rest⟩) : Step s t
      { s with views := update s.views t ⟨k, some ℓ, rest⟩ }
  | release {s : State T L A} {t : T} {k : Option (Ticket L A)} {ℓ : L}
      (hv : s.views t = ⟨k, some ℓ, []⟩) : Step s t
      { s with lock := update s.lock ℓ none, views := update s.views t ⟨k, none, []⟩ }
  | put {s : State T L A} {t : T} {k : Ticket L A} {ℓ : L}
      (hv : s.views t = ⟨some k, some ℓ, []⟩) (hlo : k.lo = 0) (hhi : k.hi < k.count)
      (hentry : k.entry k.hi = some ℓ) : Step s t (s.put t k ℓ)
  | takeOut {s : State T L A} {t : T} {k : Ticket L A} {ℓ : L}
      (hv : s.views t = ⟨some k, some ℓ, []⟩) (hentry : k.entry k.lo = some ℓ) :
      Step s t (s.takeOut t k ℓ)
  | leave {s : State T L A} {t : T} {k : Ticket L A} (hv : s.views t = ⟨some k, none, []⟩)
      (hlo : k.lo = k.count) : Step s t (s.leave t k)

/-- Whose the nodes are. -/
structure Inv (s : State T L A) : Prop where
  live : ∀ t k, (s.views t).ticket = some k → s.live k.addr = true
  distinct : ∀ t u k k', (s.views t).ticket = some k → (s.views u).ticket = some k' →
    k.addr = k'.addr → t = u
  owned : ∀ ℓ a, a ∈ s.list ℓ → ∃ t k i, (s.views t).ticket = some k ∧ k.addr = a ∧
    k.lo ≤ i ∧ i < k.count ∧ k.entry i = some ℓ
  nodup : ∀ ℓ, (s.list ℓ).Nodup
  registered : ∀ t k i ℓ, (s.views t).ticket = some k → k.lo = 0 → i < k.hi →
    k.entry i = some ℓ → k.addr ∈ s.list ℓ
  locked : ∀ t ℓ, (s.views t).lock = some ℓ → s.lock ℓ = some t
  rest : ∀ t ℓ, (s.views t).lock = some ℓ → (s.views t).rest <:+ s.list ℓ

variable {s s' : State T L A} {t u : T} {k k' : Ticket L A} {ℓ : L}

theorem Inv.start (hlist : ∀ ℓ, s.list ℓ = []) (hviews : ∀ t, s.views t = ⟨none, none, []⟩) :
    Inv s where
  live t k hk := by
    rw [hviews] at hk
    cases hk
  distinct t u k k' hk := by
    rw [hviews] at hk
    cases hk
  owned ℓ a ha := by
    rw [hlist] at ha
    cases ha
  nodup ℓ := by
    rw [hlist]
    exact List.nodup_nil
  registered t k i ℓ hk := by
    rw [hviews] at hk
    cases hk
  locked t ℓ hl := by
    rw [hviews] at hl
    cases hl
  rest t ℓ hl := by
    rw [hviews] at hl
    cases hl

/-- The threads that hold no lock but their own. -/
theorem Inv.lock_ne (h : Inv s) (ht : (s.views t).lock = some ℓ) (hu : u ≠ t) {ℓ' : L}
    (hul : (s.views u).lock = some ℓ') : ℓ' ≠ ℓ := by
  rintro rfl
  have hown := (h.locked u ℓ' hul).symm.trans (h.locked t ℓ' ht)
  exact hu (Option.some.inj hown)

/-- A node of another thread's is not this one's. -/
theorem Inv.addr_ne (h : Inv s) (ht : (s.views t).ticket = some k)
    (hut : (s.views u).ticket = some k') (hu : u ≠ t) : k'.addr ≠ k.addr :=
  fun ha => hu (h.distinct u t k' k hut ht ha)

/-- The fields of the invariant about locks, for a step that changes at most the lock of
the thread that does it. -/
theorem Inv.locks (h : Inv s) (s' : State T L A) {w : View L A}
    (hviews : s'.views = update s.views t w)
    (hself : ∀ ℓ, w.lock = some ℓ → s'.lock ℓ = some t ∧ w.rest <:+ s'.list ℓ)
    (hothers : ∀ u ℓ, u ≠ t → (s.views u).lock = some ℓ → s'.lock ℓ = s.lock ℓ ∧
      s'.list ℓ = s.list ℓ) :
    (∀ u ℓ, (s'.views u).lock = some ℓ → s'.lock ℓ = some u) ∧
      ∀ u ℓ, (s'.views u).lock = some ℓ → (s'.views u).rest <:+ s'.list ℓ := by
  rw [hviews]
  constructor
  · intro u ℓ hl
    by_cases hu : u = t
    · subst hu
      rw [Function.update_self] at hl
      exact (hself ℓ hl).1
    · rw [Function.update_of_ne hu] at hl
      rw [(hothers u ℓ hu hl).1]
      exact h.locked u ℓ hl
  · intro u ℓ hl
    by_cases hu : u = t
    · subst hu
      rw [Function.update_self] at hl ⊢
      exact (hself ℓ hl).2
    · rw [Function.update_of_ne hu] at hl ⊢
      rw [(hothers u ℓ hu hl).2]
      exact h.rest u ℓ hl

/-- The threads other than `t` have the same tickets. -/
theorem ticket_update {views : T → View L A} {w : View L A} {k' : Ticket L A}
    (h : (update views t w u).ticket = some k') :
    (u = t ∧ w.ticket = some k') ∨ (u ≠ t ∧ (views u).ticket = some k') := by
  by_cases hu : u = t
  · subst hu
    rw [Function.update_self] at h
    exact Or.inl ⟨rfl, h⟩
  · rw [Function.update_of_ne hu] at h
    exact Or.inr ⟨hu, h⟩

/-- A step that changes neither the tickets nor the lists. -/
theorem Inv.sameTicket (h : Inv s) {w : View L A} (hlist : s'.list = s.list)
    (hlive : s'.live = s.live) (hviews : s'.views = update s.views t w)
    (hw : w.ticket = (s.views t).ticket)
    (hself : ∀ ℓ, w.lock = some ℓ → s'.lock ℓ = some t ∧ w.rest <:+ s'.list ℓ)
    (hothers : ∀ u ℓ, u ≠ t → (s.views u).lock = some ℓ → s'.lock ℓ = s.lock ℓ) : Inv s' := by
  have hticket : ∀ u, (s'.views u).ticket = (s.views u).ticket := by
    intro u
    rw [hviews]
    by_cases hu : u = t
    · rw [hu, Function.update_self, hw]
    · rw [Function.update_of_ne hu]
  obtain ⟨hlocked, hrest⟩ := h.locks s' hviews hself
    (fun u ℓ hu hl => ⟨hothers u ℓ hu hl, by rw [hlist]⟩)
  refine ⟨?_, ?_, ?_, ?_, ?_, hlocked, hrest⟩
  · intro u k hk
    rw [hticket] at hk
    rw [hlive]
    exact h.live u k hk
  · intro u v k k' hk hk'
    rw [hticket] at hk hk'
    exact h.distinct u v k k' hk hk'
  · intro ℓ a ha
    rw [hlist] at ha
    obtain ⟨u, k, i, hk, hi⟩ := h.owned ℓ a ha
    exact ⟨u, k, i, (hticket u).trans hk, hi⟩
  · rw [hlist]
    exact h.nodup
  · intro u k i ℓ hk
    rw [hticket] at hk
    rw [hlist]
    exact h.registered u k i ℓ hk

/-- The invariant's fields about live addresses, for a step that moves the ticket of `t`
on and keeps its address. -/
theorem Inv.addresses (h : Inv s) (s' : State T L A) {w : View L A}
    (hviews : s'.views = update s.views t w)
    (hlive : s'.live = s.live) (ht : (s.views t).ticket = some k) (hw : w.ticket = some k')
    (haddr : k'.addr = k.addr) :
    (∀ u k, (s'.views u).ticket = some k → s'.live k.addr = true) ∧
      ∀ u v k k', (s'.views u).ticket = some k → (s'.views v).ticket = some k' →
        k.addr = k'.addr → u = v := by
  have hold : ∀ u k'', (s'.views u).ticket = some k'' →
      ∃ k₀, (s.views u).ticket = some k₀ ∧ k₀.addr = k''.addr := by
    intro u k'' hk
    rw [hviews] at hk
    rcases ticket_update hk with ⟨hu, hk'⟩ | ⟨-, hk'⟩
    · cases hw.symm.trans hk'
      exact ⟨k, hu ▸ ht, haddr.symm⟩
    · exact ⟨k'', hk', rfl⟩
  constructor
  · intro u k'' hk
    obtain ⟨k₀, hk₀, ha⟩ := hold u k'' hk
    rw [hlive, ← ha]
    exact h.live u k₀ hk₀
  · intro u v k₁ k₂ hk₁ hk₂ ha
    obtain ⟨k₁', hk₁', ha₁⟩ := hold u k₁ hk₁
    obtain ⟨k₂', hk₂', ha₂⟩ := hold v k₂ hk₂
    exact h.distinct u v k₁' k₂' hk₁' hk₂' (by rw [ha₁, ha₂, ha])

/-- An address goes into a list. -/
theorem Inv.put (h : Inv s) (hv : s.views t = ⟨some k, some ℓ, []⟩) (hlo : k.lo = 0)
    (hhi : k.hi < k.count) (hentry : k.entry k.hi = some ℓ) : Inv (s.put t k ℓ) := by
  have ht : (s.views t).ticket = some k := by rw [hv]
  have hl : (s.views t).lock = some ℓ := by rw [hv]
  have hmono : ∀ {ℓ' a}, a ∈ s.list ℓ' → a ∈ (s.put t k ℓ).list ℓ' := by
    intro ℓ' a ha
    show a ∈ update s.list ℓ _ ℓ'
    by_cases hℓ : ℓ' = ℓ
    · subst hℓ
      rw [Function.update_self]
      exact List.mem_insert_of_mem ha
    · rw [Function.update_of_ne hℓ]
      exact ha
  have hself : k.addr ∈ (s.put t k ℓ).list ℓ := by
    show k.addr ∈ update s.list ℓ _ ℓ
    rw [Function.update_self]
    exact List.mem_insert_self
  have hticket : ((s.put t k ℓ).views t).ticket = some { k with hi := k.hi + 1 } :=
    congrArg View.ticket (Function.update_self t _ s.views)
  obtain ⟨hlive, hdistinct⟩ := h.addresses (s.put t k ℓ) rfl rfl ht rfl rfl
  obtain ⟨hlocked, hrest⟩ := h.locks (s.put t k ℓ) rfl
    (by
      intro ℓ' hl'
      cases hl'
      exact ⟨h.locked t ℓ hl, List.nil_suffix⟩)
    (fun u ℓ' hu hul => ⟨rfl, Function.update_of_ne (h.lock_ne hl hu hul) _ _⟩)
  refine ⟨hlive, hdistinct, ?_, ?_, ?_, hlocked, hrest⟩
  · intro ℓ' a ha
    have hold : a ∈ s.list ℓ' → ∃ u k' i, ((s.put t k ℓ).views u).ticket = some k' ∧
        k'.addr = a ∧ k'.lo ≤ i ∧ i < k'.count ∧ k'.entry i = some ℓ' := by
      intro ha
      obtain ⟨u, k', i, hk, hi⟩ := h.owned ℓ' a ha
      by_cases hu : u = t
      · subst hu
        cases ht.symm.trans hk
        exact ⟨u, _, i, hticket, hi⟩
      · exact ⟨u, k', i, (congrArg View.ticket (Function.update_of_ne hu _ _)).trans hk, hi⟩
    have ha : a ∈ update s.list ℓ _ ℓ' := ha
    by_cases hℓ : ℓ' = ℓ
    · subst hℓ
      rw [Function.update_self] at ha
      rcases List.mem_insert_iff.mp ha with rfl | ha
      · exact ⟨t, _, k.hi, hticket, rfl, hlo ▸ Nat.zero_le _, hhi, hentry⟩
      · exact hold ha
    · rw [Function.update_of_ne hℓ] at ha
      exact hold ha
  · intro ℓ'
    show (update s.list ℓ _ ℓ').Nodup
    by_cases hℓ : ℓ' = ℓ
    · subst hℓ
      rw [Function.update_self]
      exact (h.nodup ℓ').insert
    · rw [Function.update_of_ne hℓ]
      exact h.nodup ℓ'
  · intro u k' i ℓ' hk hlo' hi hentry'
    rcases ticket_update hk with ⟨-, hk'⟩ | ⟨-, hk'⟩
    · cases hk'
      by_cases hlast : i = k.hi
      · subst hlast
        obtain rfl : ℓ = ℓ' := Option.some.inj (hentry.symm.trans hentry')
        exact hself
      · have hi : i < k.hi + 1 := hi
        exact hmono (h.registered t k i ℓ' ht hlo (by omega) hentry')
    · exact hmono (h.registered u k' i ℓ' hk' hlo' hi hentry')

/-- An address is taken out of a list. -/
theorem Inv.takeOut (h : Inv s) (hv : s.views t = ⟨some k, some ℓ, []⟩)
    (hentry : k.entry k.lo = some ℓ) : Inv (s.takeOut t k ℓ) := by
  have ht : (s.views t).ticket = some k := by rw [hv]
  have hl : (s.views t).lock = some ℓ := by rw [hv]
  have hticket : ((s.takeOut t k ℓ).views t).ticket = some { k with lo := k.lo + 1 } :=
    congrArg View.ticket (Function.update_self t _ s.views)
  obtain ⟨hlive, hdistinct⟩ := h.addresses (s.takeOut t k ℓ) rfl rfl ht rfl rfl
  obtain ⟨hlocked, hrest⟩ := h.locks (s.takeOut t k ℓ) rfl
    (by
      intro ℓ' hl'
      cases hl'
      exact ⟨h.locked t ℓ hl, List.nil_suffix⟩)
    (fun u ℓ' hu hul => ⟨rfl, Function.update_of_ne (h.lock_ne hl hu hul) _ _⟩)
  refine ⟨hlive, hdistinct, ?_, ?_, ?_, hlocked, hrest⟩
  · intro ℓ' a ha
    have ha : a ∈ update s.list ℓ _ ℓ' := ha
    by_cases hℓ : ℓ' = ℓ
    · subst hℓ
      rw [Function.update_self] at ha
      obtain ⟨hne, ha⟩ := (h.nodup ℓ').mem_erase_iff.mp ha
      obtain ⟨u, k', i, hk, haddr, hi⟩ := h.owned ℓ' a ha
      have hu : u ≠ t := by
        rintro rfl
        cases ht.symm.trans hk
        exact hne haddr.symm
      exact ⟨u, k', i, (congrArg View.ticket (Function.update_of_ne hu _ _)).trans hk, haddr, hi⟩
    · rw [Function.update_of_ne hℓ] at ha
      obtain ⟨u, k', i, hk, haddr, hi, hcount, hentry'⟩ := h.owned ℓ' a ha
      by_cases hu : u = t
      · subst hu
        cases ht.symm.trans hk
        have hlo : i ≠ k.lo := by
          rintro rfl
          exact hℓ (Option.some.inj (hentry'.symm.trans hentry))
        exact ⟨u, _, i, hticket, haddr, Nat.lt_of_le_of_ne hi (Ne.symm hlo), hcount, hentry'⟩
      · exact ⟨u, k', i, (congrArg View.ticket (Function.update_of_ne hu _ _)).trans hk, haddr, hi,
          hcount, hentry'⟩
  · intro ℓ'
    show (update s.list ℓ _ ℓ').Nodup
    by_cases hℓ : ℓ' = ℓ
    · subst hℓ
      rw [Function.update_self]
      exact (h.nodup ℓ').erase _
    · rw [Function.update_of_ne hℓ]
      exact h.nodup ℓ'
  · intro u k' i ℓ' hk hlo hi hentry'
    rcases ticket_update hk with ⟨-, hk'⟩ | ⟨hu, hk'⟩
    · cases hk'
      exact absurd hlo (Nat.succ_ne_zero _)
    · have hold := h.registered u k' i ℓ' hk' hlo hi hentry'
      show k'.addr ∈ update s.list ℓ _ ℓ'
      by_cases hℓ : ℓ' = ℓ
      · subst hℓ
        rw [Function.update_self]
        exact (List.mem_erase_of_ne (h.addr_ne ht hk' hu)).mpr hold
      · rw [Function.update_of_ne hℓ]
        exact hold

/-- A thread comes with an address that nobody uses. -/
theorem Inv.enter (h : Inv s) (hv : s.views t = ⟨none, none, []⟩)
    (hfree : s.live k.addr = false) (hhi : k.hi = 0) : Inv (s.enter t k) := by
  have ht : (s.views t).ticket = none := by rw [hv]
  have hother : ∀ u k', (s.views u).ticket = some k' → k'.addr ≠ k.addr := by
    intro u k' hk ha
    have hlive := h.live u k' hk
    rw [ha, hfree] at hlive
    cases hlive
  obtain ⟨hlocked, hrest⟩ := h.locks (s.enter t k) rfl nofun (fun _ _ _ _ => ⟨rfl, rfl⟩)
  refine ⟨?_, ?_, ?_, h.nodup, ?_, hlocked, hrest⟩
  · intro u k' hk
    rcases ticket_update hk with ⟨-, hk'⟩ | ⟨-, hk'⟩
    · cases hk'
      exact Function.update_self _ _ _
    · exact (Function.update_of_ne (hother u k' hk') _ _).trans (h.live u k' hk')
  · intro u v k₁ k₂ hk₁ hk₂ ha
    rcases ticket_update hk₁ with ⟨hu, hk₁'⟩ | ⟨-, hk₁'⟩ <;>
      rcases ticket_update hk₂ with ⟨hv', hk₂'⟩ | ⟨-, hk₂'⟩
    · exact hu.trans hv'.symm
    · cases hk₁'
      exact absurd ha.symm (hother v k₂ hk₂')
    · cases hk₂'
      exact absurd ha (hother u k₁ hk₁')
    · exact h.distinct u v k₁ k₂ hk₁' hk₂' ha
  · intro ℓ a ha
    obtain ⟨u, k', i, hk, hi⟩ := h.owned ℓ a ha
    have hu : u ≠ t := by
      rintro rfl
      rw [ht] at hk
      cases hk
    exact ⟨u, k', i, (congrArg View.ticket (Function.update_of_ne hu _ _)).trans hk, hi⟩
  · intro u k' i ℓ hk _ hi hentry
    rcases ticket_update hk with ⟨-, hk'⟩ | ⟨-, hk'⟩
    · cases hk'
      rw [hhi] at hi
      exact absurd hi (Nat.not_lt_zero i)
    · exact h.registered u k' i ℓ hk' ‹_› hi hentry

/-- A thread that took its address out of all lists gives it up. -/
theorem Inv.leave (h : Inv s) (hv : s.views t = ⟨some k, none, []⟩) (hlo : k.lo = k.count) :
    Inv (s.leave t k) := by
  have ht : (s.views t).ticket = some k := by rw [hv]
  obtain ⟨hlocked, hrest⟩ := h.locks (s.leave t k) rfl nofun (fun _ _ _ _ => ⟨rfl, rfl⟩)
  refine ⟨?_, ?_, ?_, h.nodup, ?_, hlocked, hrest⟩
  · intro u k' hk
    rcases ticket_update hk with ⟨-, hk'⟩ | ⟨hu, hk'⟩
    · cases hk'
    · exact (Function.update_of_ne (h.addr_ne ht hk' hu) _ _).trans (h.live u k' hk')
  · intro u v k₁ k₂ hk₁ hk₂ ha
    rcases ticket_update hk₁ with ⟨-, hk₁'⟩ | ⟨-, hk₁'⟩
    · cases hk₁'
    · rcases ticket_update hk₂ with ⟨-, hk₂'⟩ | ⟨-, hk₂'⟩
      · cases hk₂'
      · exact h.distinct u v k₁ k₂ hk₁' hk₂' ha
  · intro ℓ a ha
    obtain ⟨u, k', i, hk, haddr, hi, hcount, hentry⟩ := h.owned ℓ a ha
    have hu : u ≠ t := by
      rintro rfl
      cases ht.symm.trans hk
      omega
    exact ⟨u, k', i, (congrArg View.ticket (Function.update_of_ne hu _ _)).trans hk, haddr, hi,
      hcount, hentry⟩
  · intro u k' i ℓ hk hlo' hi hentry
    rcases ticket_update hk with ⟨-, hk'⟩ | ⟨-, hk'⟩
    · cases hk'
    · exact h.registered u k' i ℓ hk' hlo' hi hentry

theorem inv_step (hstep : Step s t s') (h : Inv s) : Inv s' := by
  cases hstep with
  | quiet => exact h
  | enter hv hfree hhi => exact h.enter hv hfree hhi
  | @acquire k ℓ rest hv hfree hrest =>
    refine h.sameTicket rfl rfl rfl (by rw [hv]) ?_ ?_
    · intro ℓ' hl
      cases hl
      exact ⟨Function.update_self _ _ _, hrest⟩
    · intro u ℓ' hu hl
      refine Function.update_of_ne ?_ _ _
      rintro rfl
      rw [h.locked u ℓ' hl] at hfree
      cases hfree
  | @walk k ℓ a rest hv =>
    have hl : (s.views t).lock = some ℓ := by rw [hv]
    refine h.sameTicket rfl rfl rfl (by rw [hv]) ?_ (fun _ _ _ _ => rfl)
    intro ℓ' hl'
    cases hl'
    have hrest := h.rest t ℓ hl
    rw [hv] at hrest
    exact ⟨h.locked t ℓ hl, (List.suffix_cons a rest).trans hrest⟩
  | @release k ℓ hv =>
    have hl : (s.views t).lock = some ℓ := by rw [hv]
    refine h.sameTicket rfl rfl rfl (by rw [hv]) nofun ?_
    intro u ℓ' hu hul
    exact Function.update_of_ne (h.lock_ne hl hu hul) _ _
  | put hv hlo hhi hentry => exact h.put hv hlo hhi hentry
  | takeOut hv hentry => exact h.takeOut hv hentry
  | leave hv hlo => exact h.leave hv hlo

/-- A walker meets live addresses only. -/
theorem Inv.rest_owned {a : A} (h : Inv s) (hl : (s.views t).lock = some ℓ)
    (ha : a ∈ (s.views t).rest) : ∃ u k, (s.views u).ticket = some k ∧ k.addr = a := by
  obtain ⟨u, k, _, hk, haddr, -⟩ := h.owned ℓ a ((h.rest t ℓ hl).subset ha)
  exact ⟨u, k, hk, haddr⟩

/-- Who took its address out of the lists of all its entries has no node left. -/
theorem Inv.not_mem (h : Inv s) (ht : (s.views t).ticket = some k) (hlo : k.lo = k.count) (ℓ : L) :
    k.addr ∉ s.list ℓ := by
  intro ha
  obtain ⟨u, k', i, hk, haddr, hi, hcount, -⟩ := h.owned ℓ k.addr ha
  obtain rfl := h.distinct u t k' k hk ht haddr
  cases ht.symm.trans hk
  omega

theorem filter_erase_of_false {p : A → Bool} {a : A} (hp : p a = false) (l : List A) :
    (l.erase a).filter p = l.filter p := by
  induction l with
  | nil => rfl
  | cons b l ih =>
    by_cases hb : b = a
    · subst hb
      rw [List.erase_cons_head, List.filter_cons_of_neg (by rw [hp]; exact Bool.false_ne_true)]
    · rw [List.erase_cons_tail (by simpa using hb), List.filter_cons, List.filter_cons, ih]

theorem filter_insert_of_false {p : A → Bool} {a : A} (hp : p a = false) (l : List A) :
    (l.insert a).filter p = l.filter p := by
  by_cases ha : a ∈ l
  · rw [List.insert_of_mem ha]
  · rw [List.insert_of_not_mem ha, List.filter_cons_of_neg (by rw [hp]; exact Bool.false_ne_true)]

/-- A step leaves the nodes of the other threads where they are. -/
theorem Step.filter_list (hstep : Step s t s') {p : A → Bool}
    (hp : ∀ k, (s.views t).ticket = some k → p k.addr = false) (ℓ : L) :
    (s'.list ℓ).filter p = (s.list ℓ).filter p := by
  have hupdate : ∀ {ℓ' : L} {l : List A}, l.filter p = (s.list ℓ').filter p →
      (update s.list ℓ' l ℓ).filter p = (s.list ℓ).filter p := by
    intro ℓ' l hl
    by_cases hℓ : ℓ = ℓ'
    · subst hℓ
      rw [Function.update_self, hl]
    · rw [Function.update_of_ne hℓ]
  cases hstep with
  | put hv => exact hupdate (filter_insert_of_false (hp _ (by rw [hv])) _)
  | takeOut hv => exact hupdate (filter_erase_of_false (hp _ (by rw [hv])) _)
  | _ => rfl

end WaitList
