import Mathlib.Data.List.Basic

/-!
# Transition systems

A system is a relation `step s l t`: from `s`, with the label `l`, to `t`.  Its
runs carry their labels in order.

Two rules serve the proofs about runs.  An invariant holds of every reachable
state when it holds at the start and survives each step.  And a system refines a
deterministic machine when each of its steps is either silent or one move of the
machine: its visible outputs are then a function of its visible inputs.

A run can be shown with the state before each of its steps, to speak of what holds
at some instant of it.
-/

namespace Transition

variable {σ τ ℓ ι ο : Type}

/-- A run, with the labels of its steps in order. -/
inductive Run (step : σ → ℓ → σ → Prop) : σ → List ℓ → σ → Prop
  | nil (s : σ) : Run step s [] s
  | snoc {s t u : σ} {ls : List ℓ} {l : ℓ} :
      Run step s ls t → step t l u → Run step s (ls ++ [l]) u

def Reachable (start : σ → Prop) (step : σ → ℓ → σ → Prop) (s : σ) : Prop :=
  ∃ s₀ ls, start s₀ ∧ Run step s₀ ls s

section Invariants

variable {init : σ → Prop} {next : σ → ℓ → σ → Prop} {s t : σ} {l : ℓ}

theorem Reachable.of_init (h : init s) : Reachable init next s :=
  ⟨s, [], h, Run.nil s⟩

theorem Reachable.step (h : Reachable init next s) (hst : next s l t) : Reachable init next t := by
  obtain ⟨s₀, ls, h₀, hrun⟩ := h
  exact ⟨s₀, ls ++ [l], h₀, hrun.snoc hst⟩

/-- What holds at the start and survives each step holds at the end of a run. -/
theorem Run.invariant {Inv : σ → Prop} {ls : List ℓ} (h : Run next s ls t) (h₀ : Inv s)
    (hstep : ∀ s l t, Inv s → next s l t → Inv t) : Inv t := by
  induction h with
  | nil => exact h₀
  | snoc _ hst ih => exact hstep _ _ _ ih hst

theorem Reachable.invariant {Inv : σ → Prop} (h : Reachable init next s)
    (h₀ : ∀ s, init s → Inv s) (hstep : ∀ s l t, Inv s → next s l t → Inv t) : Inv s := by
  obtain ⟨s₀, ls, hs₀, hrun⟩ := h
  exact hrun.invariant (h₀ s₀ hs₀) hstep

/-- An invariant that only the steps with admitted labels keep. -/
theorem Run.guarded {Inv : σ → Prop} {P : ℓ → Prop} {ls : List ℓ} (h : Run next s ls t)
    (hP : ∀ l ∈ ls, P l) (h₀ : Inv s)
    (hstep : ∀ s l t, Inv s → P l → next s l t → Inv t) : Inv t := by
  induction h with
  | nil => exact h₀
  | snoc _ hst ih =>
    have hrest := ih (fun l hl => hP l (List.mem_append_left _ hl))
    exact hstep _ _ _ hrest (hP _ (List.mem_append_right _ List.mem_cons_self)) hst

/-- An invariant that may look back on the labels of the run. -/
theorem Run.history (Inv : List ℓ → σ → Prop) {ls : List ℓ} (h : Run next s ls t)
    (h₀ : Inv [] s) (hstep : ∀ ls s l t, Inv ls s → next s l t → Inv (ls ++ [l]) t) :
    Inv ls t := by
  induction h with
  | nil => exact h₀
  | snoc _ hst ih => exact hstep _ _ _ _ ih hst

/-- Both at once: an invariant that looks back on the labels of the run, and that the
steps with admitted labels keep. -/
theorem Run.guarded_history (Inv : List ℓ → σ → Prop) {P : ℓ → Prop} {ls : List ℓ}
    (h : Run next s ls t) (hP : ∀ l ∈ ls, P l) (h₀ : Inv [] s)
    (hstep : ∀ ls s l t, Inv ls s → P l → next s l t → Inv (ls ++ [l]) t) : Inv ls t := by
  induction h with
  | nil => exact h₀
  | snoc _ hst ih =>
    have hrest := ih (fun l hl => hP l (List.mem_append_left _ hl))
    exact hstep _ _ _ _ hrest (hP _ (List.mem_append_right _ List.mem_cons_self)) hst

/-- Systems that make the same steps where an invariant holds make the same runs. -/
theorem Run.agree {next' : σ → ℓ → σ → Prop} {Inv : σ → Prop} {ls : List ℓ} (h₀ : Inv s)
    (hstep : ∀ s l t, Inv s → next s l t → Inv t)
    (hagree : ∀ s l t, Inv s → (next s l t ↔ next' s l t)) :
    Run next s ls t ↔ Run next' s ls t := by
  constructor
  · intro h
    induction h with
    | nil => exact .nil _
    | snoc hrun hst ih =>
      exact ih.snoc ((hagree _ _ _ (hrun.invariant h₀ hstep)).mp hst)
  · intro h
    induction h with
    | nil => exact .nil _
    | snoc _ hst ih =>
      exact ih.snoc ((hagree _ _ _ (ih.invariant h₀ hstep)).mpr hst)

/-- The last step of a run. -/
theorem Run.last {ls : List ℓ} {u : σ} (h : Run next s (ls ++ [l]) u) :
    ∃ t, Run next s ls t ∧ next t l u := by
  generalize hls : ls ++ [l] = ls' at h
  cases h with
  | nil => exact absurd hls (by simp)
  | snoc hrun hst =>
    obtain ⟨hls', hl⟩ := List.append_inj' hls rfl
    rw [List.singleton_inj] at hl
    rw [hls', hl]
    exact ⟨_, hrun, hst⟩

/-- Where a label leads to one state only, so does a run. -/
theorem Run.unique {ls : List ℓ} {u : σ} (hdet : ∀ s l t u, next s l t → next s l u → t = u)
    (h : Run next s ls t) (h' : Run next s ls u) : t = u := by
  induction h generalizing u with
  | nil =>
    generalize hls : ([] : List ℓ) = ls' at h'
    cases h' with
    | nil => rfl
    | snoc => exact absurd hls (by simp)
  | snoc _ hst ih =>
    obtain ⟨v, hrun, hst'⟩ := h'.last
    rw [ih hrun] at hst
    exact hdet _ _ _ _ hst hst'

end Invariants

section Instants

variable {step : σ → ℓ → σ → Prop} {s t u : σ} {ls ls' : List ℓ} {ps qs : List (σ × ℓ)}

/-- The empty run, from where another one ended. -/
theorem Run.here (_ : Run step s ls t) : Run step t [] t := .nil t

theorem Run.append (h : Run step s ls t) (h' : Run step t ls' u) : Run step s (ls ++ ls') u := by
  induction h' with
  | nil =>
    rw [List.append_nil]
    exact h
  | snoc _ hst ih =>
    rw [← List.append_assoc]
    exact ih.snoc hst

/-- The steps of a system, each with the state before it as a part of its label. -/
def Shown (step : σ → ℓ → σ → Prop) (s : σ) (p : σ × ℓ) (t : σ) : Prop := p.1 = s ∧ step s p.2 t

theorem Run.here_shown (_ : Run step s ls t) : Run (Shown step) t [] t := .nil t

theorem Run.snoc_shown {l : ℓ} (h : Run (Shown step) s ps t) (hst : step t l u) :
    Run (Shown step) s (ps ++ [(t, l)]) u := h.snoc ⟨rfl, hst⟩

theorem Run.forget (h : Run (Shown step) s ps t) : Run step s (ps.map Prod.snd) t := by
  induction h with
  | nil => exact .nil _
  | snoc _ hst ih =>
    rw [List.map_append]
    exact ih.snoc hst.2

/-- The run that does `ps` from `s₀` to `t` is in the state `s` after its steps `qs`. -/
def Instant (step : σ → ℓ → σ → Prop) (s₀ : σ) (ps : List (σ × ℓ)) (t : σ) (qs : List (σ × ℓ))
    (s : σ) : Prop :=
  ∃ rs, ps = qs ++ rs ∧ Run (Shown step) s₀ qs s ∧ Run (Shown step) s rs t

theorem Instant.last (h : Run (Shown step) s ps t) : Instant step s ps t ps t :=
  ⟨[], (List.append_nil ps).symm, h, .nil t⟩

/-- An instant of the first part of a run. -/
theorem Instant.append {rs : List (σ × ℓ)} {v : σ} (h : Instant step s ps t qs u)
    (h' : Run (Shown step) t rs v) : Instant step s (ps ++ rs) v qs u := by
  obtain ⟨rs', rfl, hqs, hrs'⟩ := h
  exact ⟨rs' ++ rs, List.append_assoc _ _ _, hqs, hrs'.append h'⟩

/-- The states of a run are those that it shows, and its last. -/
theorem Instant.mem (h : Instant step s ps t qs u) : u = t ∨ ∃ p ∈ ps, p.1 = u := by
  obtain ⟨rs, rfl, -, hrs⟩ := h
  have hmem : u = t ∨ ∃ p ∈ rs, p.1 = u := by
    induction hrs with
    | nil => exact Or.inl rfl
    | snoc _ hst ih =>
      refine Or.inr ?_
      rcases ih with rfl | ⟨p, hp, rfl⟩
      · exact ⟨_, List.mem_append_right _ List.mem_cons_self, hst.1⟩
      · exact ⟨p, List.mem_append_left _ hp, rfl⟩
  rcases hmem with h | ⟨p, hp, h⟩
  · exact Or.inl h
  · exact Or.inr ⟨p, List.mem_append_right _ hp, h⟩

end Instants

/-- Runs a machine on a list of inputs. -/
def exec (next : τ → ι → Option (ο × τ)) : τ → List ι → Option (List ο × τ)
  | t, [] => some ([], t)
  | t, i :: is => do
    let (o, t) ← next t i
    let (os, t) ← exec next t is
    return (o :: os, t)

theorem exec_snoc {next : τ → ι → Option (ο × τ)} {t t' t'' : τ} {is : List ι} {os : List ο}
    {i : ι} {o : ο} (h : exec next t is = some (os, t')) (hi : next t' i = some (o, t'')) :
    exec next t (is ++ [i]) = some (os ++ [o], t'') := by
  induction is generalizing t os t' with
  | nil =>
    simp only [exec, Option.some.injEq, Prod.mk.injEq] at h
    obtain ⟨rfl, rfl⟩ := h
    simp [exec, hi]
  | cons j js ih =>
    simp only [exec, Option.bind_eq_bind, Option.bind_eq_some_iff, Prod.exists,
      Option.pure_def, Option.some.injEq, Prod.mk.injEq] at h
    obtain ⟨o₁, t₁, hj, os₁, t₂, hjs, rfl, rfl⟩ := h
    simp [exec, hj, ih hjs hi]

/-- The inputs of the visible labels of a run. -/
def inputs (obs : ℓ → Option (ι × ο)) (ls : List ℓ) : List ι := (ls.filterMap obs).map Prod.fst

/-- The outputs of the visible labels of a run. -/
def outputs (obs : ℓ → Option (ι × ο)) (ls : List ℓ) : List ο := (ls.filterMap obs).map Prod.snd

/-- `R` relates the states of a system to those of a machine that does each of
its visible steps and none of its silent ones. -/
structure Refines (step : σ → ℓ → σ → Prop) (obs : ℓ → Option (ι × ο))
    (next : τ → ι → Option (ο × τ)) (R : σ → τ → Prop) : Prop where
  visible : ∀ s t l s' i o, R s t → step s l s' → obs l = some (i, o) →
    ∃ t', next t i = some (o, t') ∧ R s' t'
  silent : ∀ s t l s', R s t → step s l s' → obs l = none → R s' t

section Machines

variable {step : σ → ℓ → σ → Prop} {obs : ℓ → Option (ι × ο)} {next : τ → ι → Option (ο × τ)}
  {R : σ → τ → Prop}

theorem Refines.run (hR : Refines step obs next R) {s s' : σ} {ls : List ℓ}
    (h : Run step s ls s') {t : τ} (hst : R s t) :
    ∃ t', exec next t (inputs obs ls) = some (outputs obs ls, t') ∧ R s' t' := by
  induction h with
  | nil => exact ⟨t, rfl, hst⟩
  | @snoc s₁ s₂ ls l _ hstep ih =>
    obtain ⟨t₁, hexec, h₁⟩ := ih
    unfold inputs outputs at hexec ⊢
    rw [List.filterMap_append, List.map_append, List.map_append]
    cases ho : obs l with
    | none =>
      have h₂ := hR.silent _ _ _ _ h₁ hstep ho
      simp only [List.filterMap_cons, ho, List.filterMap_nil, List.map_nil, List.append_nil]
      exact ⟨t₁, hexec, h₂⟩
    | some io =>
      obtain ⟨t₂, hnext, h₂⟩ := hR.visible _ _ _ _ io.1 io.2 h₁ hstep ho
      simp only [List.filterMap_cons, ho, List.filterMap_nil, List.map_cons, List.map_nil]
      exact ⟨t₂, exec_snoc hexec hnext, h₂⟩

/-- Runs that start from the same state of the machine and have the same inputs
have the same outputs, and come to the same state of the machine. -/
theorem Refines.deterministic (hR : Refines step obs next R) {s₁ s₂ s₁' s₂' : σ}
    {ls₁ ls₂ : List ℓ} (h₁ : Run step s₁ ls₁ s₁') (h₂ : Run step s₂ ls₂ s₂') {t : τ}
    (ht₁ : R s₁ t) (ht₂ : R s₂ t) (hin : inputs obs ls₁ = inputs obs ls₂) :
    outputs obs ls₁ = outputs obs ls₂ ∧ ∃ t', R s₁' t' ∧ R s₂' t' := by
  obtain ⟨t₁, he₁, hR₁⟩ := hR.run h₁ ht₁
  obtain ⟨t₂, he₂, hR₂⟩ := hR.run h₂ ht₂
  rw [hin, he₂, Option.some.injEq, Prod.mk.injEq] at he₁
  obtain ⟨hout, rfl⟩ := he₁
  exact ⟨hout.symm, t₂, hR₁, hR₂⟩

end Machines

end Transition
