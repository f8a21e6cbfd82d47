import Mathlib.Tactic.Common

/-!
# Total correctness of partial state computations

A computation of type `StateT σ Option α` either is undefined on a state or
gives a result and a new state.  `Returns x s Q` says that `x` is defined on
`s` and that its result and final state satisfy `Q`.  The rules below run a
computation one bind at a time, so a proof about a program follows its text.
-/

namespace Total

variable {σ α β : Type}

def Returns (x : StateT σ Option α) (s : σ) (Q : α → σ → Prop) : Prop :=
  ∃ a s', x s = some (a, s') ∧ Q a s'

theorem Returns.mono {x : StateT σ Option α} {s : σ} {P Q : α → σ → Prop}
    (h : Returns x s P) (hPQ : ∀ a s', P a s' → Q a s') : Returns x s Q := by
  obtain ⟨a, s', hx, hP⟩ := h
  exact ⟨a, s', hx, hPQ a s' hP⟩

/-- The result of a computation is unique, so what is known to return satisfies
the postcondition as it stands. -/
theorem returns_of_eq {x : StateT σ Option α} {s : σ} {a : α} {s' : σ} {Q : α → σ → Prop}
    (hx : x s = some (a, s')) : Returns x s Q ↔ Q a s' := by
  constructor
  · rintro ⟨b, t, hb, hQ⟩
    rw [hx] at hb
    cases hb
    exact hQ
  · exact fun hQ => ⟨a, s', hx, hQ⟩

/-- A computation that returns one value in one state. -/
theorem eq_of_returns {x : StateT σ Option α} {s : σ} {a : α} {s' : σ}
    (h : Returns x s (fun b t => b = a ∧ t = s')) : x s = some (a, s') := by
  obtain ⟨b, t, hx, hb, ht⟩ := h
  rw [hx, hb, ht]

theorem not_returns {x : StateT σ Option α} {s : σ} {Q : α → σ → Prop}
    (hx : x s = none) : ¬ Returns x s Q := by
  rintro ⟨b, t, hb, _⟩
  rw [hx] at hb
  cases hb

@[simp] theorem returns_pure {a : α} {s : σ} {Q : α → σ → Prop} :
    Returns (pure a) s Q ↔ Q a s :=
  returns_of_eq rfl

@[simp] theorem returns_get {s : σ} {Q : σ → σ → Prop} :
    Returns (get : StateT σ Option σ) s Q ↔ Q s s :=
  returns_of_eq rfl

@[simp] theorem returns_set {s s' : σ} {Q : PUnit → σ → Prop} :
    Returns (set s' : StateT σ Option PUnit) s Q ↔ Q ⟨⟩ s' :=
  returns_of_eq rfl

@[simp] theorem returns_modify {f : σ → σ} {s : σ} {Q : PUnit → σ → Prop} :
    Returns (modify f : StateT σ Option PUnit) s Q ↔ Q ⟨⟩ (f s) :=
  returns_of_eq rfl

theorem bind_of_some {x : StateT σ Option α} {f : α → StateT σ Option β} {s s' : σ} {a : α}
    (hx : x s = some (a, s')) : (x >>= f) s = f a s' := by
  show Option.bind (x s) _ = _
  rw [hx]
  rfl

theorem bind_of_none {x : StateT σ Option α} {f : α → StateT σ Option β} {s : σ}
    (hx : x s = none) : (x >>= f) s = none := by
  show Option.bind (x s) _ = _
  rw [hx]
  rfl

theorem bind_congr_left {x y : StateT σ Option α} {f : α → StateT σ Option β} {s : σ}
    (hxy : x s = y s) : (x >>= f) s = (y >>= f) s := by
  show Option.bind (x s) _ = Option.bind (y s) _
  rw [hxy]

/-- Binds with the same first part agree where what follows it does. -/
theorem bind_congr_of {x : StateT σ Option α} {f g : α → StateT σ Option β} {s : σ}
    (hfg : ∀ a s', x s = some (a, s') → f a s' = g a s') : (x >>= f) s = (x >>= g) s := by
  cases hx : x s with
  | none => rw [bind_of_none hx, bind_of_none hx]
  | some p =>
    have hx' : x s = some (p.1, p.2) := hx
    rw [bind_of_some hx', bind_of_some hx']
    exact hfg p.1 p.2 hx'

/-- A bind that is defined has run both of its parts. -/
theorem bind_eq_some {x : StateT σ Option α} {f : α → StateT σ Option β} {s : σ} {r : β × σ} :
    (x >>= f) s = some r ↔ ∃ a s', x s = some (a, s') ∧ f a s' = some r := by
  constructor
  · intro h
    cases hx : x s with
    | none =>
      rw [bind_of_none hx] at h
      cases h
    | some p => exact ⟨p.1, p.2, rfl, (bind_of_some hx).symm.trans h⟩
  · rintro ⟨a, s', hx, hf⟩
    exact (bind_of_some hx).trans hf

@[simp] theorem returns_bind {x : StateT σ Option α} {f : α → StateT σ Option β} {s : σ}
    {Q : β → σ → Prop} :
    Returns (x >>= f) s Q ↔ Returns x s (fun a s' => Returns (f a) s' Q) := by
  constructor
  · rintro ⟨b, t, hb, hQ⟩
    obtain ⟨a, s', hx, hf⟩ := bind_eq_some.mp hb
    exact ⟨a, s', hx, b, t, hf, hQ⟩
  · rintro ⟨a, s', hx, b, t, hb, hQ⟩
    exact ⟨b, t, (bind_of_some hx).trans hb, hQ⟩

theorem returns_ite {c : Prop} [Decidable c] {x y : StateT σ Option α} {s : σ}
    {Q : α → σ → Prop} :
    Returns (if c then x else y) s Q ↔ if c then Returns x s Q else Returns y s Q := by
  split <;> rfl

end Total
