import Cmpsc473.Library.Total
import Mathlib.Algebra.GroupWithZero.Nat
import Mathlib.Data.List.Range

/-!
# Loops over a state

Two loops of C over a partial state computation, which carry a value from round
to round: a `for` loop that counts up, and a `do` loop that counts a `size_t`
down to zero.  Each has the rule that an invariant indexed by the rounds done
holds at its end.
-/

namespace Loop

open Total

variable {σ α : Type} {n : Nat} {a : α} {s : σ} {I : Nat → α → σ → Prop}

/-- `for (i = 0; i < n; i++) body(i)`. -/
def forTo (n : Nat) (body : Nat → α → StateT σ Option α) (a : α) : StateT σ Option α :=
  (List.range n).foldlM (fun a i => body i a) a

/-- `do body while (--count != 0)`.  A count of zero wraps, so it is not the end. -/
def doWhile (body : α → StateT σ Option α) (count : Nat) (a : α) : StateT σ Option α := do
  let a ← body a
  let count' := (count + 2 ^ 64 - 1) % 2 ^ 64
  if count' ≠ 0 then doWhile body count' a else return a
termination_by (count + 2 ^ 64 - 1) % 2 ^ 64
decreasing_by omega

theorem forTo_succ (body : Nat → α → StateT σ Option α) :
    forTo (n + 1) body a = forTo n body a >>= body n := by
  simp [forTo, List.range_succ]

theorem forTo_returns {body : Nat → α → StateT σ Option α} (h : I 0 a s)
    (hbody : ∀ i < n, ∀ a s, I i a s → Returns (body i a) s (I (i + 1))) :
    Returns (forTo n body a) s (I n) := by
  induction n with
  | zero => exact returns_pure.mpr h
  | succ n ih =>
    rw [forTo_succ, returns_bind]
    exact (ih fun i hi => hbody i (by omega)).mono (hbody n (Nat.lt_succ_self n))

variable {body : α → StateT σ Option α} {count : Nat}

/-- A loop that starts with a count other than zero runs that many rounds. -/
theorem doWhile_returns (hpos : 0 < count) (hlt : count < 2 ^ 64) (h : I 0 a s)
    (hbody : ∀ i < count, ∀ a s, I i a s → Returns (body a) s (I (i + 1))) :
    Returns (doWhile body count a) s (I count) := by
  suffices hrest : ∀ k, 0 < k → k ≤ count → ∀ a s, I (count - k) a s →
      Returns (doWhile body k a) s (I count) by
    exact hrest count hpos le_rfl a s (by rw [Nat.sub_self]; exact h)
  intro k hk
  induction k, hk using Nat.le_induction with
  | base =>
    intro _ a s hI
    rw [doWhile, returns_bind]
    have hround := hbody (count - 1) (by omega) a s hI
    rw [show count - 1 + 1 = count by omega] at hround
    exact hround.mono fun a s h => by simpa using h
  | succ k hk ih =>
    intro hle a s hI
    have hcount : (k + 1 + 2 ^ 64 - 1) % 2 ^ 64 = k := by omega
    have hround := hbody (count - (k + 1)) (by omega) a s hI
    rw [show count - (k + 1) + 1 = count - k by omega] at hround
    rw [doWhile, returns_bind]
    refine hround.mono fun a s h => ?_
    rw [hcount, if_pos (by omega)]
    exact ih (by omega) a s h

/-- A round that cannot be run makes the loop undefined, if the count lets it get there. -/
theorem doWhile_none {k : Nat} (hk : k ≤ (count + 2 ^ 64 - 1) % 2 ^ 64) (h : I 0 a s)
    (hbody : ∀ i < k, ∀ a s, I i a s → Returns (body a) s (I (i + 1)))
    (hlast : ∀ a s, I k a s → body a s = none) : doWhile body count a s = none := by
  induction k generalizing count a s I with
  | zero =>
    rw [doWhile]
    exact bind_of_none (hlast a s h)
  | succ k ih =>
    obtain ⟨a', s', hx, hI⟩ := hbody 0 (by omega) a s h
    rw [doWhile, bind_of_some hx, if_pos (by omega)]
    exact ih (I := fun i => I (i + 1)) (by omega) hI
      (fun i hi => hbody (i + 1) (by omega)) hlast

end Loop
