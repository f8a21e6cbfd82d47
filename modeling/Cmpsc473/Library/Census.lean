import Mathlib.Algebra.BigOperators.Fin
import Mathlib.Algebra.Order.BigOperators.Group.Finset
import Mathlib.Data.Fintype.Basic

/-!
# Counting threads

The number of threads of a system that are in a state with some property.  When
one thread moves the number changes by what that thread gains or loses, so a sum
of such numbers is kept by each step that balances them.
-/

namespace Census

variable {T V : Type} [Fintype T]

/-- The number of threads whose state has the property `p`. -/
def count (p : V → Bool) (views : T → V) : Nat := ∑ t, (p (views t)).toNat

variable {p : V → Bool} {views : T → V} {t : T} {v : V}

section Moves

variable [DecidableEq T]

theorem count_split (p : V → Bool) (views : T → V) (t : T) :
    count p views = (p (views t)).toNat + ∑ u ∈ Finset.univ.erase t, (p (views u)).toNat :=
  (Finset.add_sum_erase Finset.univ _ (Finset.mem_univ t)).symm

/-- One thread moves. -/
theorem count_update (p : V → Bool) (views : T → V) (t : T) (v : V) :
    count p (Function.update views t v) + (p (views t)).toNat =
      count p views + (p v).toNat := by
  have hrest : ∑ u ∈ Finset.univ.erase t, (p (Function.update views t v u)).toNat =
      ∑ u ∈ Finset.univ.erase t, (p (views u)).toNat := by
    refine Finset.sum_congr rfl (fun u hu => ?_)
    rw [Function.update_of_ne (Finset.ne_of_mem_erase hu)]
  rw [count_split p (Function.update views t v) t, count_split p views t, hrest,
    Function.update_self]
  omega

theorem count_pos (h : p (views t) = true) : 1 ≤ count p views := by
  rw [count_split p views t, h]
  exact Nat.le_add_right 1 _

end Moves

theorem exists_of_count_pos (h : 1 ≤ count p views) : ∃ t, p (views t) = true := by
  by_contra hno
  have hzero : count p views = 0 := by
    refine Finset.sum_eq_zero (fun t _ => ?_)
    have ht : p (views t) = false := Bool.eq_false_iff.mpr (fun ht => hno ⟨t, ht⟩)
    rw [ht]
    rfl
  omega

theorem count_eq_zero [DecidableEq T] : count p views = 0 ↔ ∀ t, p (views t) = false := by
  constructor
  · intro h t
    cases hp : p (views t) with
    | false => rfl
    | true =>
      have hpos : 0 < count p views := count_pos hp
      omega
  · intro h
    refine Finset.sum_eq_zero (fun t _ => ?_)
    rw [h t]
    rfl

/-- The number is that of the threads in the set of those that have the property. -/
theorem count_eq_card (p : V → Bool) (views : T → V) :
    count p views = (Finset.univ.filter fun t => p (views t) = true).card := by
  rw [Finset.card_filter]
  refine Finset.sum_congr rfl (fun t _ => ?_)
  cases p (views t) <;> rfl

end Census
