import Cmpsc473.Library.Total

/-!
# Computations that write to a sink

A program that only writes, through a function `fn` that it is given, does the same
whatever `fn` is: it has one output and one result, or none, and with any `fn` it
passes that output to it.  `Emits fn x r` says that the computation `x` passes the
output of `r` to `fn` and has the result of `r`.
-/

namespace Sink

open Total

variable {κ σ α β : Type}

/-- The sink that keeps what is written to it. -/
def collect (c : κ) : StateT (List κ) Option Unit := modify (· ++ [c])

def Emits (fn : κ → StateT σ Option Unit) (x : StateT σ Option α) (r : Option (List κ × α)) :
    Prop :=
  ∀ s, x s = r.bind fun p => ((p.1.forM fn) s).map fun q => (p.2, q.2)

/-- A computation over any sink. -/
def Uniform (x : (σ : Type) → (κ → StateT σ Option Unit) → StateT σ Option α) : Prop :=
  ∃ r : Option (List κ × α), ∀ (σ : Type) (fn : κ → StateT σ Option Unit), Emits fn (x σ fn) r

/-- What is undefined in the end is undefined. -/
theorem bind_undefined (x : StateT σ Option α) :
    (x >>= fun _ => (fun _ => none : StateT σ Option β)) = fun _ => none := by
  funext s
  cases h : x s with
  | none => exact bind_of_none h
  | some p =>
    have hp : x s = some (p.1, p.2) := h
    exact bind_of_some hp

section Rules

variable {fn : κ → StateT σ Option Unit}

theorem emits_pure (a : α) : Emits fn (pure a) (some ([], a)) := fun _ => rfl

theorem emits_none : Emits fn (fun _ => (none : Option (α × σ))) none := fun _ => rfl

theorem emits_lift (o : Option α) :
    Emits fn (liftM o : StateT σ Option α) (o.map fun a => ([], a)) := by
  intro s
  cases o <;> rfl

theorem emits_fn (c : κ) : Emits fn (fn c) (some ([c], ())) := by
  intro s
  show fn c s = ((fn c >>= fun _ => pure ()) s).map fun q => ((), q.2)
  cases h : fn c s with
  | none =>
    rw [bind_of_none h]
    rfl
  | some p =>
    have hp : fn c s = some (p.1, p.2) := h
    rw [bind_of_some hp]
    rfl

/-- A list of outputs is written one part after the other. -/
theorem forM_append (l₁ l₂ : List κ) (s : σ) :
    ((l₁ ++ l₂).forM fn) s = ((l₁.forM fn) s).bind fun q => (l₂.forM fn) q.2 := by
  induction l₁ generalizing s with
  | nil => rfl
  | cons c l₁ ih =>
    show (fn c >>= fun _ => (l₁ ++ l₂).forM fn) s = ((fn c >>= fun _ => l₁.forM fn) s).bind _
    cases h : fn c s with
    | none =>
      rw [bind_of_none h, bind_of_none h]
      rfl
    | some p =>
      have hp : fn c s = some (p.1, p.2) := h
      rw [bind_of_some hp, bind_of_some hp]
      exact ih p.2

/-- What two computations emit one after the other. -/
def andThen (r : Option (List κ × α)) (g : α → Option (List κ × β)) : Option (List κ × β) :=
  r.bind fun p => (g p.2).map fun q => (p.1 ++ q.1, q.2)

theorem Emits.bind {x : StateT σ Option α} {f : α → StateT σ Option β}
    {r : Option (List κ × α)} {g : α → Option (List κ × β)}
    (hx : Emits fn x r) (hf : ∀ a, Emits fn (f a) (g a)) :
    Emits fn (x >>= f) (andThen r g) := by
  intro s
  have hrun := hx s
  cases r with
  | none =>
    rw [bind_of_none hrun]
    rfl
  | some p =>
    rw [Option.bind_some] at hrun
    show _ = ((g p.2).map fun q => (p.1 ++ q.1, q.2)).bind _
    cases hout : (p.1.forM fn) s with
    | none =>
      rw [hout] at hrun
      rw [bind_of_none hrun]
      cases g p.2 with
      | none => rfl
      | some q =>
        rw [Option.map_some, Option.bind_some, forM_append, hout]
        rfl
    | some t =>
      rw [hout] at hrun
      rw [bind_of_some hrun, hf p.2 t.2]
      cases g p.2 with
      | none => rfl
      | some q =>
        rw [Option.map_some, Option.bind_some, Option.bind_some, forM_append, hout]
        rfl

end Rules

theorem forM_collect (out l : List κ) : (out.forM collect) l = some ((), l ++ out) := by
  induction out generalizing l with
  | nil =>
    rw [List.append_nil]
    rfl
  | cons c out ih =>
    show (out.forM collect) (l ++ [c]) = _
    rw [ih, List.append_assoc]
    rfl

theorem Emits.collect_eq {x : StateT (List κ) Option α} {r : Option (List κ × α)}
    (h : Emits collect x r) (l : List κ) : x l = r.map fun p => (p.2, l ++ p.1) := by
  rw [h l]
  cases r with
  | none => rfl
  | some p => rw [Option.bind_some, forM_collect, Option.map_some, Option.map_some]

/-- The output and the result of a computation over any sink. -/
def emitted (x : StateT (List κ) Option α) : Option (List κ × α) :=
  (x []).map fun p => (p.2, p.1)

namespace Uniform

variable {x : (σ : Type) → (κ → StateT σ Option Unit) → StateT σ Option α}

theorem emits (h : Uniform x) (fn : κ → StateT σ Option Unit) :
    Emits fn (x σ fn) (emitted (x _ collect)) := by
  obtain ⟨r, hr⟩ := h
  have hcollect : emitted (x _ collect) = r := by
    rw [emitted, (hr _ collect).collect_eq]
    cases r <;> rfl
  rw [hcollect]
  exact hr σ fn

theorem pure (a : α) : Uniform (κ := κ) fun _ _ => Pure.pure a :=
  ⟨_, fun _ _ => emits_pure a⟩

theorem none : Uniform (κ := κ) (α := α) fun _ _ _ => .none :=
  ⟨_, fun _ _ => emits_none⟩

theorem lift (o : Option α) : Uniform (κ := κ) fun σ _ => (liftM o : StateT σ Option α) :=
  ⟨_, fun _ _ => emits_lift o⟩

theorem fn (c : κ) : Uniform fun _ fn => fn c :=
  ⟨_, fun _ _ => emits_fn c⟩

theorem bind {f : (σ : Type) → (κ → StateT σ Option Unit) → α → StateT σ Option β}
    (hx : Uniform x) (hf : ∀ a, Uniform fun σ fn => f σ fn a) :
    Uniform fun σ fn => x σ fn >>= f σ fn := by
  obtain ⟨r, hr⟩ := hx
  choose g hg using hf
  exact ⟨_, fun σ fn => (hr σ fn).bind fun a => hg a σ fn⟩

theorem ite {c : Prop} [Decidable c]
    {y : (σ : Type) → (κ → StateT σ Option Unit) → StateT σ Option α}
    (hx : Uniform x) (hy : Uniform y) : Uniform fun σ fn => if c then x σ fn else y σ fn := by
  by_cases h : c
  · simpa only [if_pos h] using hx
  · simpa only [if_neg h] using hy

end Uniform

end Sink
