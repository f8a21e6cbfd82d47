import Mathlib.Data.List.Basic
import Mathlib.Logic.Function.Basic

/-!
# Maps given by a list of entries

`Represents key val f l` says that the map `f` has the value of each entry of `l` under its
key, and nothing else.  A program that keeps its entries in a list, a tree or a table keeps
such a map when it adds an entry under a new key, or takes one out.
-/

namespace ListMap

variable {ε κ β : Type} {key : ε → κ} {val : ε → β} {f : κ → Option β} {l l' r : List ε} {x : ε}
  {k : κ}

def Represents (key : ε → κ) (val : ε → β) (f : κ → Option β) (l : List ε) : Prop :=
  ∀ k v, f k = some v ↔ ∃ e ∈ l, key e = k ∧ val e = v

theorem Represents.nil : Represents key val (fun _ => none) [] := fun _ _ =>
  iff_of_false nofun fun ⟨_, he, _⟩ => List.not_mem_nil he

theorem Represents.eq_none (h : Represents key val f l) : f k = none ↔ ∀ e ∈ l, key e ≠ k := by
  rw [Option.eq_none_iff_forall_ne_some]
  constructor
  · intro hnone e he hk
    exact hnone (val e) ((h k (val e)).mpr ⟨e, he, hk, rfl⟩)
  · rintro hne v hv
    obtain ⟨e, he, hk, -⟩ := (h k v).mp hv
    exact hne e he hk

theorem Represents.ne_none (h : Represents key val f l) : f k ≠ none ↔ ∃ e ∈ l, key e = k := by
  rw [ne_eq, h.eq_none]
  simp only [not_forall, not_not, exists_prop]

variable [DecidableEq κ]

theorem Represents.insert (h : Represents key val f l) (hnone : f (key x) = none)
    (hl : l'.Perm (x :: l)) : Represents key val (Function.update f (key x) (some (val x))) l' := by
  intro k v
  have hmem : ∀ e, e ∈ l' ↔ e = x ∨ e ∈ l := fun e => hl.mem_iff.trans List.mem_cons
  by_cases hk : k = key x
  · rw [hk, Function.update_self, Option.some.injEq]
    constructor
    · rintro rfl
      exact ⟨x, (hmem x).mpr (Or.inl rfl), rfl, rfl⟩
    · rintro ⟨e, he, hek, rfl⟩
      rcases (hmem e).mp he with rfl | he
      · rfl
      · exact absurd hek (h.eq_none.mp hnone e he)
  · rw [Function.update_of_ne hk, h k v]
    refine exists_congr fun e => ?_
    constructor
    · rintro ⟨he, hek⟩
      exact ⟨(hmem e).mpr (Or.inr he), hek⟩
    · rintro ⟨he, hek, hv⟩
      rcases (hmem e).mp he with rfl | he
      · exact absurd hek.symm hk
      · exact ⟨he, hek, hv⟩

theorem Represents.remove (h : Represents key val f (l ++ x :: r))
    (hne : ∀ e ∈ l ++ r, key e ≠ key x) :
    Represents key val (Function.update f (key x) none) (l ++ r) := by
  intro k v
  by_cases hk : k = key x
  · rw [hk, Function.update_self]
    refine iff_of_false nofun ?_
    rintro ⟨e, he, hek, -⟩
    exact hne e he hek
  · rw [Function.update_of_ne hk, h k v]
    refine exists_congr fun e => ?_
    constructor
    · rintro ⟨he, hek, hv⟩
      rcases List.mem_cons.mp (List.perm_middle.mem_iff.mp he) with rfl | he
      · exact absurd hek.symm hk
      · exact ⟨he, hek, hv⟩
    · rintro ⟨he, hek⟩
      exact ⟨List.perm_middle.mem_iff.mpr (List.mem_cons_of_mem x he), hek⟩

end ListMap
