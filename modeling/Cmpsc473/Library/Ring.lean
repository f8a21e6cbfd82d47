import Mathlib.Data.List.Basic
import Mathlib.Logic.Function.Basic
import Mathlib.Tactic.Common

/-!
# Windows of a ring

The `size` slots of a ring of `cap` slots from the slot `next` on, in order.  A
store to the slot behind the window appends to it, and dropping the slot in front
takes its head away.
-/

namespace Ring

variable {α : Type}

def window (data : Nat → α) (cap next size : Nat) : List α :=
  (List.range size).map fun k => data ((next + k) % cap)

variable {data : Nat → α} {cap next size : Nat}

@[simp] theorem length_window : (window data cap next size).length = size := by
  simp [window]

/-- An index that runs over the end at most once, by a comparison. -/
theorem wrap_eq_mod {i : Nat} (h : i < 2 * cap) :
    (if cap ≤ i then i - cap else i) = i % cap := by
  by_cases hi : cap ≤ i
  · rw [if_pos hi, Nat.mod_eq_sub_mod hi, Nat.mod_eq_of_lt (by omega)]
  · rw [if_neg hi, Nat.mod_eq_of_lt (by omega)]

/-- Two slots less than `cap` steps from the same slot are different. -/
theorem slot_ne {i j : Nat} (hij : i < j) (hj : j < cap) :
    (next + i) % cap ≠ (next + j) % cap := by
  intro h
  have hmod : (next + j - (next + i)) % cap = 0 := Nat.sub_mod_eq_zero_of_mod_eq h.symm
  rw [Nat.add_sub_add_left, Nat.mod_eq_of_lt (by omega)] at hmod
  omega

theorem window_snoc {v : α} (h : size < cap) :
    window (Function.update data ((next + size) % cap) v) cap next (size + 1) =
      window data cap next size ++ [v] := by
  have hsame : ∀ k ∈ List.range size,
      Function.update data ((next + size) % cap) v ((next + k) % cap) =
        data ((next + k) % cap) := by
    intro k hk
    exact Function.update_of_ne (slot_ne (List.mem_range.mp hk) h) _ _
  rw [window, List.range_succ, List.map_append, List.map_congr_left hsame]
  simp [window]

theorem window_cons (data : Nat → α) (size : Nat) (h : next < cap) :
    window data cap next (size + 1) = data next :: window data cap ((next + 1) % cap) size := by
  have hshift : ∀ k, (next + (k + 1)) % cap = ((next + 1) % cap + k) % cap := by
    intro k
    rw [Nat.mod_add_mod, Nat.add_assoc, Nat.add_comm 1 k]
  rw [window, List.range_succ_eq_map, List.map_cons, List.map_map, Nat.add_zero,
    Nat.mod_eq_of_lt h]
  refine congrArg (data next :: ·) (List.map_congr_left (fun k _ => ?_))
  exact congrArg data (hshift k)

end Ring
