import Mathlib.Data.List.Basic
import Mathlib.Order.Lattice

/-!
# Segregated lists

Elements are kept in classes, by a monotone function of their key, and each class
is a list in which the keys ascend.  A search that takes the first element not
below a bound, class by class from the class of the bound on, then finds the
least of all such elements, wherever they are.
-/

namespace Segregated

variable {α β : Type} [LinearOrder β]

/-- The first element of key at least `bound` in the `n` classes from `start` on. -/
def search (bins : Nat → List α) (key : α → β) (bound : β) (start n : Nat) : Option α :=
  (List.range' start n).findSome? fun k => (bins k).find? (fun a => bound ≤ key a)

/-- The classes hold ascending lists of the elements that belong to them. -/
structure Sorted (bins : Nat → List α) (key : α → β) (cls : β → Nat) : Prop where
  mono : ∀ x y, x ≤ y → cls x ≤ cls y
  cls : ∀ k, ∀ a ∈ bins k, cls (key a) = k
  sorted : ∀ k, (bins k).Pairwise (fun a b => key a ≤ key b)

variable {bins : Nat → List α} {key : α → β} {cls : β → Nat} {bound : β} {start n : Nat} {a b : α}

/-- In an ascending list the first element not below the bound is the least one. -/
theorem find?_le {l : List α} (hl : l.Pairwise (fun a b => key a ≤ key b))
    (ha : l.find? (fun a => bound ≤ key a) = some a) (hb : b ∈ l) (hle : bound ≤ key b) :
    key a ≤ key b := by
  obtain ⟨_, l₁, l₂, rfl, hbefore⟩ := List.find?_eq_some_iff_append.mp ha
  rcases List.mem_append.mp hb with hb | hb
  · have := hbefore b hb
    simp [hle] at this
  · rcases List.mem_cons.mp hb with rfl | hb
    · exact le_refl _
    · exact List.rel_of_pairwise_cons (List.pairwise_append.mp hl).2.1 hb

theorem mem_of_search (h : search bins key bound start n = some a) :
    (∃ k, a ∈ bins k) ∧ bound ≤ key a := by
  obtain ⟨k, _, hk⟩ := List.exists_of_findSome?_eq_some h
  have hle := List.find?_some hk
  exact ⟨⟨k, List.mem_of_find?_eq_some hk⟩, by simpa using hle⟩

/-- The search overlooks nothing: what is large enough has a class that is searched. -/
theorem search_eq_none (hs : Sorted bins key cls) (hn : search bins key bound (cls bound) n = none)
    {k : Nat} (hk : k < cls bound + n) (ha : a ∈ bins k) : key a < bound := by
  rw [← not_le]
  intro hle
  have hcls := hs.mono _ _ hle
  rw [hs.cls k a ha] at hcls
  have hnone := List.findSome?_eq_none_iff.mp hn k (List.mem_range'_1.mpr ⟨hcls, hk⟩)
  have := List.find?_eq_none.mp hnone a ha
  simp [hle] at this

/-- What the search finds is the least element that is large enough. -/
theorem search_le (hs : Sorted bins key cls) (h : search bins key bound (cls bound) n = some a)
    {k : Nat} (hb : b ∈ bins k) (hle : bound ≤ key b) : key a ≤ key b := by
  obtain ⟨before, j, rest, hrange, hj, hbefore⟩ := List.findSome?_eq_some_iff.mp h
  obtain ⟨i, _, hbeforeEq, hrest⟩ := List.range'_eq_append_iff.mp hrange
  obtain ⟨hjEq, _⟩ := List.range'_eq_cons_iff.mp hrest.symm
  have ha := List.mem_of_find?_eq_some hj
  have hkb := hs.cls k b hb
  rcases Nat.lt_trichotomy k j with hkj | rfl | hjk
  · -- the class of `b` was searched before, without a hit
    have hcls := hs.mono _ _ hle
    have hk : k ∈ before := by
      rw [hbeforeEq]
      exact List.mem_range'_1.mpr ⟨by omega, by omega⟩
    have := List.find?_eq_none.mp (hbefore k hk) b hb
    simp [hle] at this
  · exact find?_le (hs.sorted k) hj hb hle
  · -- a larger class has larger keys only
    rw [← not_lt]
    intro hlt
    have hcls := hs.mono _ _ hlt.le
    rw [hs.cls j a ha, hkb] at hcls
    omega

end Segregated
