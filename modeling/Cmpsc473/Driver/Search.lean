import Cmpsc473.Driver.Splay
import Cmpsc473.Library.SearchTree

/-!
# Searching in the tree

The walks of `tree_insert`, `tree_find`, `tree_find_nearest` and `tree_remove` go down to the
place of a key in the tree, and they end.
-/

namespace Cmpsc473
namespace Driver

open Total ParentTree

variable {σ : Type} {m m' : Memory σ} {t : TreeT} {path : List FrameT}

/-- Only the comparisons have been counted. -/
def Counted (m m' : Memory σ) : Prop :=
  ∃ c, m' = { m with tree := { m.tree with comparisonCount := c } }

theorem Counted.refl (m : Memory σ) : Counted m m := ⟨m.tree.comparisonCount, rfl⟩

theorem Counted.next {c : UInt64}
    (h : Counted { m with tree := { m.tree with comparisonCount := c } } m') : Counted m m' := by
  obtain ⟨c', rfl⟩ := h
  exact ⟨c', rfl⟩

theorem At.counted (h : At m t path) (c : UInt64) :
    At { m with tree := { m.tree with comparisonCount := c } } t path :=
  ⟨h.holds, h.around, h.distinct, h.ne_zero, h.root⟩

theorem countComparison_eq : countComparison m =
    some ((), { m with
      tree := { m.tree with comparisonCount := m.tree.comparisonCount + 1 } }) := rfl

/-- A search at a place. -/
structure Searching (key : Int) (whole : TreeT) (m : Memory σ) (t : TreeT) (path : List FrameT) :
    Prop where
  place : At m t path
  sorted : Sorted Item.key (inorder (plug path t))
  plug_eq : plug path t = whole
  between : Between Item.key key path

/-- What a search has found: the place, in a memory with more comparisons counted. -/
structure Found (key : Int) (whole : TreeT) (m m' : Memory σ) (t : TreeT) (path : List FrameT) :
    Prop where
  place : At m' t path
  counted : Counted m m'
  located : Located Item.key key whole t path

section Search

variable {key : Int} {whole l r : TreeT} {v : Ptr × Item} {rounds : Nat}

theorem Searching.counted (h : Searching key whole m t path) (c : UInt64) :
    Searching key whole { m with tree := { m.tree with comparisonCount := c } } t path :=
  ⟨h.place.counted c, h.sorted, h.plug_eq, h.between⟩

theorem Searching.right (h : Searching key whole m (.node v l r) path) (hk : v.2.key < key) :
    Searching key whole m r (⟨.right, v, l⟩ :: path) :=
  ⟨At.down (f := ⟨.right, v, l⟩) h.place, h.sorted, h.plug_eq, h.between.right h.sorted hk⟩

theorem Searching.left (h : Searching key whole m (.node v l r) path) (hk : key < v.2.key) :
    Searching key whole m l (⟨.left, v, r⟩ :: path) :=
  ⟨At.down (f := ⟨.left, v, r⟩) h.place, h.sorted, h.plug_eq, h.between.left h.sorted hk⟩

theorem Searching.node (h : Searching key whole m (.node v l r) path) :
    v.1 ≠ 0 ∧ m.node v.1 = some ⟨addr 0 l, addr 0 r, above 0 path, v.2⟩ :=
  ⟨h.place.ne_zero v (by simp [inorder]), h.place.holds.1⟩

theorem Searching.found_nil (h : Searching key whole m .nil path) :
    Found key whole m m .nil path :=
  ⟨h.place, Counted.refl m, h.plug_eq, h.between, Or.inl rfl⟩

theorem Searching.found_node (h : Searching key whole m (.node v l r) path) (hk : v.2.key = key) :
    Found key whole m m (.node v l r) path :=
  ⟨h.place, Counted.refl m, h.plug_eq, h.between, Or.inr ⟨v, l, r, rfl, hk⟩⟩

theorem Found.next {c : UInt64}
    (h : Found key whole { m with tree := { m.tree with comparisonCount := c } } m' t path) :
    Found key whole m m' t path :=
  ⟨h.place, h.counted.next, h.located⟩

theorem At.length_lt (h : At m t path) : (inorder t).length < walkRounds := by
  have hlen := length_lt_rounds h.distinct h.ne_zero
  rw [List.length_append] at hlen
  omega

theorem length_left (v : Ptr × Item) (l r : TreeT) :
    (inorder l).length < (inorder (.node v l r)).length := by
  rw [inorder, List.length_append, List.length_cons]
  omega

theorem length_right (v : Ptr × Item) (l r : TreeT) :
    (inorder r).length < (inorder (.node v l r)).length := by
  rw [inorder, List.length_append, List.length_cons]
  omega

/-- The result of the search of `tree_insert`. -/
def insertPlace : TreeT → List FrameT → Option Ptr
  | .nil, path => some (above 0 path)
  | .node _ _ _, _ => none

theorem At.data (h : At m t path) {w : Ptr × Item} (hw : w ∈ inorder (plug path t)) :
    ∃ n, w.1 ≠ 0 ∧ m.node w.1 = some n ∧ n.data = w.2 := by
  have hholds : Holds 0 m.node (plug path t) 0 := holds_plug.mpr ⟨h.holds, h.around⟩
  obtain ⟨n, hn, hdata⟩ := hholds.data hw
  exact ⟨n, h.ne_zero w ((perm_plug path t).mem_iff.mp hw), hn, hdata⟩

theorem insertLoop_returns (h : Searching key whole m t path)
    (hlen : (inorder t).length < rounds) :
    Returns (insertLoop key rounds (addr 0 t) (above 0 path)) m fun r m' =>
      ∃ t' path', Found key whole m m' t' path' ∧ r = insertPlace t' path' := by
  induction rounds generalizing m t path with
  | zero => omega
  | succ rounds ih =>
    cases t with
    | nil => exact ⟨_, m, rfl, .nil, path, h.found_nil, rfl⟩
    | node v l r =>
      obtain ⟨hv0, hv⟩ := h.node
      have hl := length_left v l r
      have hr := length_right v l r
      have haddr : addr 0 (.node v l r : TreeT) = v.1 := rfl
      rw [insertLoop, haddr, if_pos hv0, returns_bind, returns_of_eq (getNode_eq hv0 hv),
        returns_bind, returns_of_eq countComparison_eq]
      by_cases hk : key = v.2.key
      · rw [if_pos hk, returns_pure]
        exact ⟨_, _, ((h.counted _).found_node hk.symm).next, rfl⟩
      · rw [if_neg hk, returns_bind, returns_of_eq countComparison_eq]
        by_cases hlt : key > v.2.key
        · rw [if_pos hlt]
          refine (ih (((h.counted _).counted _).right hlt) (by omega)).mono ?_
          rintro _ _ ⟨t', path', hfound, rfl⟩
          exact ⟨t', path', hfound.next.next, rfl⟩
        · rw [if_neg hlt]
          refine (ih (((h.counted _).counted _).left (by omega)) (by omega)).mono ?_
          rintro _ _ ⟨t', path', hfound, rfl⟩
          exact ⟨t', path', hfound.next.next, rfl⟩

/-- The record of the node at a place. -/
def recordAt : TreeT → Ptr
  | .nil => 0
  | .node v _ _ => v.2.record

theorem findLoop_returns (h : Searching key whole m t path)
    (hlen : (inorder t).length < rounds) :
    Returns (findLoop key rounds (addr 0 t)) m fun r m' =>
      ∃ t' path', Found key whole m m' t' path' ∧ r = recordAt t' := by
  induction rounds generalizing m t path with
  | zero => omega
  | succ rounds ih =>
    cases t with
    | nil => exact ⟨_, m, rfl, .nil, path, h.found_nil, rfl⟩
    | node v l r =>
      obtain ⟨hv0, hv⟩ := h.node
      have hl := length_left v l r
      have hr := length_right v l r
      have haddr : addr 0 (.node v l r : TreeT) = v.1 := rfl
      rw [findLoop, haddr, if_pos hv0, returns_bind, returns_of_eq (getNode_eq hv0 hv),
        returns_bind, returns_of_eq countComparison_eq]
      by_cases hk : key = v.2.key
      · rw [if_pos hk, returns_pure]
        exact ⟨_, _, ((h.counted _).found_node hk.symm).next, rfl⟩
      · rw [if_neg hk, returns_bind, returns_of_eq countComparison_eq]
        by_cases hlt : key > v.2.key
        · rw [if_pos hlt]
          refine (ih (((h.counted _).counted _).right hlt) (by omega)).mono ?_
          rintro _ _ ⟨t', path', hfound, rfl⟩
          exact ⟨t', path', hfound.next.next, rfl⟩
        · rw [if_neg hlt]
          refine (ih (((h.counted _).counted _).left (by omega)) (by omega)).mono ?_
          rintro _ _ ⟨t', path', hfound, rfl⟩
          exact ⟨t', path', hfound.next.next, rfl⟩

/-- The loop of `tree_remove` counts fewer comparisons. -/
theorem removeLoop_returns (h : Searching key whole m t path)
    (hlen : (inorder t).length < rounds) :
    Returns (removeLoop key rounds (addr 0 t)) m fun r m' =>
      ∃ t' path', Found key whole m m' t' path' ∧ r = addr 0 t' := by
  induction rounds generalizing m t path with
  | zero => omega
  | succ rounds ih =>
    cases t with
    | nil => exact ⟨_, m, rfl, .nil, path, h.found_nil, rfl⟩
    | node v l r =>
      obtain ⟨hv0, hv⟩ := h.node
      have hl := length_left v l r
      have hr := length_right v l r
      have haddr : addr 0 (.node v l r : TreeT) = v.1 := rfl
      rw [removeLoop, haddr, if_pos hv0, returns_bind, returns_of_eq (getNode_eq hv0 hv)]
      by_cases hk : v.2.key = key
      · rw [if_neg (not_not.mpr hk), returns_pure]
        exact ⟨_, _, h.found_node hk, rfl⟩
      · rw [if_pos hk, returns_bind, returns_of_eq countComparison_eq]
        by_cases hlt : key > v.2.key
        · rw [if_pos hlt]
          refine (ih ((h.counted _).right hlt) (by omega)).mono ?_
          rintro _ _ ⟨t', path', hfound, rfl⟩
          exact ⟨t', path', hfound.next, rfl⟩
        · rw [if_neg hlt]
          refine (ih ((h.counted _).left (by omega)) (by omega)).mono ?_
          rintro _ _ ⟨t', path', hfound, rfl⟩
          exact ⟨t', path', hfound.next, rfl⟩

/-- The last node in front of a place. -/
def nearest (path : List FrameT) : Option (Ptr × Item) := (before path).getLast?

def nearestAddr (path : List FrameT) : Ptr := ((nearest path).map Prod.fst).getD 0

/-- What `tree_find_nearest` gives at a place. -/
def nearestRecord : TreeT → List FrameT → Ptr
  | .nil, path => ((nearest path).map fun v => v.2.record).getD 0
  | .node v _ _, _ => v.2.record

theorem mem_nearest (h : At m t path) {w : Ptr × Item} (hw : nearest path = some w) :
    ∃ n, w.1 ≠ 0 ∧ m.node w.1 = some n ∧ n.data = w.2 := by
  refine h.data ?_
  rw [inorder_plug]
  exact List.mem_append_left _ (List.mem_append_left _ (List.mem_of_getLast? hw))

/-- A step to the right comes nearer. -/
theorem nearer_eq (h : Searching key whole m (.node v l r) path) :
    nearer (nearestAddr path) v.1 m = some (nearestAddr (⟨.right, v, l⟩ :: path), m) := by
  have hlast : nearest (⟨.right, v, l⟩ :: path) = some v := by
    rw [nearest, before, ← List.append_assoc, List.getLast?_append]
    rfl
  obtain ⟨hv0, hv⟩ := h.node
  have hright : nearestAddr (⟨.right, v, l⟩ :: path) = v.1 := by rw [nearestAddr, hlast]; rfl
  rw [hright, nearer]
  cases hn : nearest path with
  | none =>
    rw [nearestAddr, hn]
    rfl
  | some w =>
    obtain ⟨n, hw0, hnode, hdata⟩ := mem_nearest h.place hn
    have haddr : nearestAddr path = w.1 := by rw [nearestAddr, hn]; rfl
    have hlt : n.data.key < v.2.key := by
      have hs := h.sorted
      rw [inorder_plug, List.append_assoc] at hs
      rw [hdata]
      exact (List.pairwise_append.mp hs).2.2 w (List.mem_of_getLast? hn) v
        (List.mem_append_left _ (by simp [inorder]))
    rw [haddr, if_neg hw0, bind_of_some (getNode_eq hw0 hnode), bind_of_some (getNode_eq hv0 hv),
      if_pos hlt]
    rfl

theorem findNearestLoop_returns (h : Searching key whole m t path)
    (hlen : (inorder t).length < rounds) :
    Returns (findNearestLoop key rounds (addr 0 t) (nearestAddr path)) m fun r m' =>
      ∃ t' path', Found key whole m m' t' path' ∧ r = nearestRecord t' path' := by
  induction rounds generalizing m t path with
  | zero => omega
  | succ rounds ih =>
    cases t with
    | nil =>
      have haddr : addr 0 (.nil : TreeT) = 0 := rfl
      rw [findNearestLoop, haddr, if_neg (not_not.mpr rfl)]
      cases hn : nearest path with
      | none =>
        have hnull : nearestAddr path = 0 := by rw [nearestAddr, hn]; rfl
        rw [hnull, if_neg (not_not.mpr rfl), returns_pure]
        exact ⟨.nil, path, h.found_nil, by rw [nearestRecord, hn]; rfl⟩
      | some w =>
        obtain ⟨n, hw0, hnode, hdata⟩ := mem_nearest h.place hn
        have hw : nearestAddr path = w.1 := by rw [nearestAddr, hn]; rfl
        rw [hw, if_pos hw0, returns_bind, returns_of_eq (getNode_eq hw0 hnode), returns_pure]
        exact ⟨.nil, path, h.found_nil, by rw [nearestRecord, hn, hdata]; rfl⟩
    | node v l r =>
      obtain ⟨hv0, hv⟩ := h.node
      have hl := length_left v l r
      have hr := length_right v l r
      have haddr : addr 0 (.node v l r : TreeT) = v.1 := rfl
      rw [findNearestLoop, haddr, if_pos hv0, returns_bind, returns_of_eq (getNode_eq hv0 hv),
        returns_bind, returns_of_eq countComparison_eq]
      by_cases hk : key = v.2.key
      · rw [if_pos hk, returns_pure]
        exact ⟨_, _, ((h.counted _).found_node hk.symm).next, rfl⟩
      · rw [if_neg hk, returns_bind, returns_of_eq countComparison_eq]
        by_cases hlt : key > v.2.key
        · rw [if_pos hlt, returns_bind, returns_of_eq (nearer_eq ((h.counted _).counted _))]
          refine (ih (((h.counted _).counted _).right hlt) (by omega)).mono ?_
          rintro _ _ ⟨t', path', hfound, rfl⟩
          exact ⟨t', path', hfound.next.next, rfl⟩
        · have hnear : nearestAddr path = nearestAddr (⟨.left, v, r⟩ :: path) := by
            rw [nearestAddr, nearestAddr, nearest, nearest, before]
            simp
          rw [if_neg hlt, hnear]
          refine (ih (((h.counted _).counted _).left (by omega)) (by omega)).mono ?_
          rintro _ _ ⟨t', path', hfound, rfl⟩
          exact ⟨t', path', hfound.next.next, rfl⟩

end Search

end Driver
end Cmpsc473
